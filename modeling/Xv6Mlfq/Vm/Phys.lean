import Mathlib.Data.List.Nodup
import Mathlib.Data.List.Perm.Basic
import Xv6Mlfq.Lib.Bytes
import Xv6Mlfq.Lib.Exec
import Xv6Mlfq.Param

/-!
# Xv6Mlfq.Vm.Phys — physical memory and its pages

`kalloc.c`, and the memory that `vm.c` and `exec.c` work on.  Where the code has the physical address of a page, the model has the number
of the page.

* `Phys`: the bytes of all pages, and `kmem.freelist`.
* `kalloc`, `kfree`, `memset` of a page, page table entries as eight bytes of a page.
* `Trade σ σ' xs ys`: somebody who has had the pages `xs` has the pages `ys` instead, the rest having come from or gone to the free list,
  and no other page has changed.  Every function of `vm.c` is specified by what it trades.
-/

namespace Xv6Mlfq.Vm

open Bytes Function Exec

/-! ## Memory -/

def KERNBASE : ℕ := 0x80000000

def PHYSTOP : ℕ := KERNBASE + 128 * 1024 * 1024

/-- What the linker decides: `kalloc` has the pages from `first` on, which is `PGROUNDUP(end)`, and `trampoline` is a page of the
kernel's text. -/
structure Ram where
  first : ℕ
  trampoline : ℕ
  trampoline_pos : 0 < trampoline
  trampoline_lt : trampoline < first
  first_le : first ≤ PHYSTOP / PGSIZE

/-- A page that `kfree` takes. -/
def Ram.Has (ram : Ram) (p : ℕ) : Prop := ram.first ≤ p ∧ p < PHYSTOP / PGSIZE

theorem top_eq : PHYSTOP / PGSIZE = 0x88000 := rfl

theorem Ram.Has.lt {ram : Ram} {p : ℕ} (h : ram.Has p) : p < 0x88000 := top_eq ▸ h.2

theorem Ram.Has.pos {ram : Ram} {p : ℕ} (h : ram.Has p) : 0 < p :=
  Nat.lt_of_lt_of_le (Nat.lt_trans ram.trampoline_pos ram.trampoline_lt) h.1

instance (ram : Ram) (p : ℕ) : Decidable (ram.Has p) := inferInstanceAs (Decidable (_ ∧ _))

/-- The bytes of a page. -/
abbrev Frame : Type := ℕ → UInt8

/-- Physical memory.  `denied` says of the next calls of `kalloc` which of them find the list empty although it is not: the pages are
with another processor just then. -/
structure Phys where
  mem : ℕ → Frame
  free : List ℕ
  denied : List Bool

inductive Panic
  | kfree | walk | mappagesVa | mappagesSizeAligned | mappagesSize | remap | uvmunmapAligned | uvmunmapWalk | uvmunmapNotMapped
  | uvmunmapNotLeaf | freewalkLeaf | uvmcopyPte | uvmcopyPresent | uvmclear | loadseg | filedup | fileclose
  /- not a panic: a loop that does not end -/
  | stuck
  deriving DecidableEq

/-- A program of the kernel. -/
abbrev Code : Type → Type := Exec Phys Panic

def Phys.setPage (σ : Phys) (p : ℕ) (data : Frame) : Phys := { σ with mem := update σ.mem p data }

variable {data : Frame} {σ : Phys} {p q i : ℕ}

@[simp] theorem free_setPage : (σ.setPage p data).free = σ.free := rfl

@[simp] theorem mem_setPage_self : (σ.setPage p data).mem p = data := update_self ..

theorem mem_setPage_of_ne (h : q ≠ p) : (σ.setPage p data).mem q = σ.mem q := update_of_ne h ..

/-- `kalloc` -/
def kalloc : Code (Option ℕ) := do
  let σ ← get
  match σ.denied.headD false, σ.free with
  | false, r :: next => do
    -- filled with junk
    set { mem := update σ.mem r fun _ => 5, free := next, denied := σ.denied.tail : Phys }
    pure (some r)
  | _, _ => do
    set { σ with denied := σ.denied.tail }
    pure none

/-- `kfree` -/
def kfree (ram : Ram) (p : ℕ) : Code Unit := do
  let σ ← get
  if ram.Has p then set { σ with mem := update σ.mem p fun _ => 1, free := p :: σ.free } else throw .kfree

/-- `memset` of a page -/
def memset (p : ℕ) (c : UInt8) : Code Unit := modify fun σ => σ.setPage p fun _ => c

/-- `memmove` of bytes to offset `off` of a page -/
def store (p off : ℕ) (bs : List UInt8) : Code Unit := modify fun σ => σ.setPage p (splice (σ.mem p) off bs)

/-- Entry `i` of the page table page `p`. -/
def Phys.pte (σ : Phys) (p i : ℕ) : ℕ := leAt (σ.mem p) (8 * i) 8

def setPte (p i w : ℕ) : Code Unit := modify fun σ => σ.setPage p (setLe (σ.mem p) (8 * i) 8 w)

/-! ## Trades -/

variable {ram : Ram} {σ σ' σ'' : Phys} {xs ys zs fs : List ℕ} {p : ℕ} {Q : Unit → Phys → Prop}

structure Trade (σ σ' : Phys) (xs ys : List ℕ) : Prop where
  perm : (σ'.free ++ ys).Perm (σ.free ++ xs)
  mem : ∀ p, p ∉ σ.free ++ xs → σ'.mem p = σ.mem p

theorem Trade.refl : Trade σ σ xs xs := ⟨List.Perm.refl _, fun _ _ => rfl⟩

theorem Trade.trans (h : Trade σ σ' xs ys) (h' : Trade σ' σ'' ys zs) : Trade σ σ'' xs zs where
  perm := h'.perm.trans h.perm
  mem := by
    intro p hp
    rw [h'.mem p fun hin => hp (h.perm.subset hin), h.mem p hp]

/-- Somebody may have more pages. -/
theorem Trade.frame (h : Trade σ σ' xs ys) : Trade σ σ' (xs ++ fs) (ys ++ fs) where
  perm := by
    rw [← List.append_assoc, ← List.append_assoc]
    exact h.perm.append_right fs
  mem := by
    intro p hp
    refine h.mem p fun hin => hp ?_
    rw [← List.append_assoc]
    exact List.mem_append_left _ hin

theorem Trade.of_perm {xs' ys' : List ℕ} (h : Trade σ σ' xs ys) (hx : xs.Perm xs') (hy : ys.Perm ys') : Trade σ σ' xs' ys' where
  perm := ((hy.symm.append_left _).trans h.perm).trans (hx.append_left _)
  mem := by
    intro p hp
    exact h.mem p fun hin => hp ((hx.append_left _).subset hin)

theorem Trade.frame_left (fs : List ℕ) (h : Trade σ σ' xs ys) : Trade σ σ' (fs ++ xs) (fs ++ ys) :=
  h.frame.of_perm List.perm_append_comm List.perm_append_comm

theorem Trade.nodup (h : Trade σ σ' xs ys) (hnd : (σ.free ++ xs).Nodup) : (σ'.free ++ ys).Nodup := h.perm.nodup_iff.mpr hnd

/-- A page that somebody else has stays as it is, and stays somebody else's. -/
theorem Trade.other (h : Trade σ σ' xs ys) (hp : p ∉ σ.free ++ xs) : p ∉ σ'.free ++ ys ∧ σ'.mem p = σ.mem p :=
  ⟨fun hin => hp (h.perm.subset hin), h.mem p hp⟩

theorem Trade.all (h : Trade σ σ' xs ys) {A : ℕ → Prop} (hA : ∀ p ∈ σ.free ++ xs, A p) : ∀ p ∈ σ'.free ++ ys, A p :=
  fun p hp => hA p (h.perm.subset hp)

/-- The page `p` changes hands with its contents changed. -/
theorem Trade.setPage (hp : p ∈ xs) : Trade σ (σ.setPage p data) xs xs where
  perm := List.Perm.refl _
  mem := by
    intro q hq
    have hne : q ≠ p := by
      rintro rfl
      exact hq (List.mem_append_right _ hp)
    exact mem_setPage_of_ne hne

theorem ends_kalloc {Q : Option ℕ → Phys → Prop} (hnone : ∀ σ', Trade σ σ' [] [] → Q none σ')
    (hsome : ∀ p σ', p ∈ σ.free → Trade σ σ' [] [p] → Q (some p) σ') : Ends kalloc σ Q := by
  have hskip : Q none { σ with denied := σ.denied.tail } := hnone _ ⟨List.Perm.refl _, fun _ _ => rfl⟩
  unfold kalloc
  rw [ends_bind, ends_get]
  split
  · rename_i r next _ hfree
    rw [ends_bind, ends_set, ends_pure]
    have hmem : r ∈ σ.free := by simp [hfree]
    refine hsome r _ hmem ⟨?_, fun p hp => ?_⟩
    · rw [hfree, List.append_nil]
      exact List.perm_append_singleton r next
    · have hne : p ≠ r := by
        rintro rfl
        exact hp (List.mem_append_left _ hmem)
      exact update_of_ne hne _ _
  · rw [ends_bind, ends_set, ends_pure]
    exact hskip

theorem ends_kfree (hp : ram.Has p) (h : ∀ σ', Trade σ σ' [p] [] → Q () σ') : Ends (kfree ram p) σ Q := by
  unfold kfree
  rw [ends_bind, ends_get, if_pos hp, ends_set]
  refine h _ ⟨?_, fun q hq => ?_⟩
  · rw [List.append_nil]
    exact (List.perm_append_singleton p σ.free).symm
  · have hne : q ≠ p := by
      rintro rfl
      exact hq (by simp)
    exact update_of_ne hne _ _

theorem ends_memset {c : UInt8} : Ends (memset p c) σ Q ↔ Q () (σ.setPage p fun _ => c) := ends_modify

theorem ends_store {off : ℕ} {bs : List UInt8} :
    Ends (store p off bs) σ Q ↔ Q () (σ.setPage p (splice (σ.mem p) off bs)) := ends_modify

theorem ends_setPte {w : ℕ} :
    Ends (setPte p i w) σ Q ↔ Q () (σ.setPage p (setLe (σ.mem p) (8 * i) 8 w)) := ends_modify

/-! ## Entries -/

theorem pte_setPage_of_ne (h : q ≠ p) : (σ.setPage p data).pte q i = σ.pte q i := by
  rw [Phys.pte, mem_setPage_of_ne h, Phys.pte]

theorem pte_setPte {j w : ℕ} (hw : w < 2 ^ 64) :
    (σ.setPage p (setLe (σ.mem p) (8 * i) 8 w)).pte q j = if q = p ∧ j = i then w else σ.pte q j := by
  by_cases hq : q = p
  · subst hq
    rw [Phys.pte, mem_setPage_self]
    by_cases hj : j = i
    · rw [if_pos ⟨rfl, hj⟩, hj]
      exact leAt_setLe_self hw
    · rw [if_neg fun h => hj h.2]
      exact leAt_setLe_of_disjoint (by omega)
  · rw [if_neg fun h => hq h.1, pte_setPage_of_ne hq]

theorem pte_zero (h : σ.mem p = fun _ => 0) : σ.pte p i = 0 := by
  unfold Phys.pte
  rw [h]
  exact leAt_zero

theorem pte_congr (h : σ'.mem p = σ.mem p) : σ'.pte p i = σ.pte p i := by
  rw [Phys.pte, h, Phys.pte]

attribute [irreducible] Phys.pte

end Xv6Mlfq.Vm
