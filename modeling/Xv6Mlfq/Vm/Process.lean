import Xv6Mlfq.Proc
import Xv6Mlfq.Fs.Inode
import Xv6Mlfq.Vm.Space

/-!
# Xv6Mlfq.Vm.Process — the address space of a process, and the process table

`proc_pagetable` and `proc_freepagetable`, `allocproc`, `growproc` and `freeproc` of `proc.c`, with the pages they take and give back.

* `Space ram σ root n tf`: an address space with `n` pages for the user, the trapframe `tf` and the trampoline.
* `ends_procPagetable`, `ends_procFreepagetable`: one is made, and is taken apart.
* `Kern`: memory, the process table, and the reference counts that `fork` changes.
-/

namespace Xv6Mlfq.Vm

open Bytes Function Exec CInt

variable {ram : Ram} {σ σ' τ : Phys} {root n k tf sz u : ℕ} {xs ys : List ℕ}

/-! ## Address spaces -/

/-- `proc_pagetable`, for a process with the given trapframe -/
def procPagetable (ram : Ram) (trapframe : ℕ) : Code (Option ℕ) := do
  match ← uvmcreate with
  | none => pure none
  | some pagetable => do
    if ← mappages pagetable TRAMPOLINE PGSIZE (ram.trampoline * PGSIZE) (PTE_R ||| PTE_X) then
      if ← mappages pagetable TRAPFRAME PGSIZE (trapframe * PGSIZE) (PTE_R ||| PTE_W) then pure (some pagetable)
      else do
        uvmunmap ram pagetable TRAMPOLINE 1 false
        uvmfree ram pagetable 0
        pure none
    else do
      uvmfree ram pagetable 0
      pure none

/-- `proc_freepagetable` -/
def procFreepagetable (ram : Ram) (pagetable sz : ℕ) : Code Unit := do
  uvmunmap ram pagetable TRAMPOLINE 1 false
  uvmunmap ram pagetable TRAPFRAME 1 false
  uvmfree ram pagetable sz

structure Space (ram : Ram) (σ : Phys) (root n tf : ℕ) : Prop where
  user : User ram σ root n
  trap : σ.map root TOP = entry tf (PTE_R ||| PTE_W)
  tramp : σ.map root (TOP + 1) = entry ram.trampoline (PTE_R ||| PTE_X)
  above : ∀ u, TOP + 2 ≤ u → σ.map root u = 0

theorem TRAPFRAME_eq : TRAPFRAME = TOP * PGSIZE := by decide

theorem TRAMPOLINE_eq : TRAMPOLINE = (TOP + 1) * PGSIZE := by decide

theorem Ram.trampoline_le (ram : Ram) : ram.trampoline < 0x88000 :=
  Nat.lt_of_lt_of_le ram.trampoline_lt (top_eq ▸ ram.first_le)

theorem Space.root_ne (h : Space ram σ root n tf) : root ≠ 0 :=
  (h.user.tree.has root (List.mem_append_right _ Radix.self_mem)).pos.ne'

/-- The pages that are mapped. -/
theorem Space.valid_iff (h : Space ram σ root n tf) : σ.map root u &&& PTE_V ≠ 0 ↔ u < n ∨ u = TOP ∨ u = TOP + 1 := by
  have htop := h.user.lt_top
  constructor
  · intro hv
    by_contra hno
    have hzero : σ.map root u = 0 := by
      by_cases hu : u < TOP
      · exact h.user.room u (by omega) hu
      · exact h.above u (by omega)
    rw [hzero] at hv
    exact hv (Nat.zero_and _)
  · rintro (hu | rfl | rfl)
    · exact (h.user.leaf u hu).1
    · rw [h.trap]
      exact (leaf_entry (by decide) (by decide)).1
    · rw [h.tramp]
      exact (leaf_entry (by decide) (by decide)).1

/-- A page above the user's is unmapped, but not freed. -/
theorem User.ends_unmapHigh (h : User ram σ root n) (hu : TOP ≤ u) (hlt : u < 2 ^ 26) (hleaf : Leaf (σ.map root u)) :
    Ends (uvmunmap ram root (u * PGSIZE) 1 false) σ fun _ σ' => User ram σ' root n ∧
      frames (σ'.map root) 0 n = frames (σ.map root) 0 n ∧ σ'.pages 2 root = σ.pages 2 root ∧
      Trade σ σ' (σ.pages 2 root) (σ.pages 2 root) ∧ σ'.map root = update (σ.map root) u 0 := by
  have hend : Ends (uvmunmap ram root (u * PGSIZE) 1 false) σ fun _ σ' => Tree ram σ' 2 root ∧
      σ'.pages 2 root = σ.pages 2 root ∧ Trade σ σ' (σ.pages 2 root) (σ.pages 2 root) ∧
        σ'.map root = unmapped (σ.map root) u 1 := by
    refine ends_uvmunmap h.tree (by omega) (fun v hl hv => ?_) h.tree.nodup nofun
    obtain rfl : v = u := by omega
    exact hleaf
  refine hend.mono fun _ σ' hcase => ?_
  obtain ⟨htree, hpages, htrade, hmap⟩ := hcase
  have hone : σ'.map root = update (σ.map root) u 0 := by
    funext v
    rw [hmap, unmapped]
    by_cases hv : v = u
    · rw [hv, update_self, if_pos (by omega)]
    · rw [update_of_ne hv, if_neg (by omega)]
  have hlow : ∀ v < TOP, σ'.map root v = σ.map root v := by
    intro v hv
    rw [hone, update_of_ne (by omega)]
  obtain ⟨huser, hframes⟩ := h.keep htree hlow (hpages.symm ▸ htrade)
  exact ⟨huser, hframes, hpages, htrade, hone⟩

/-- `proc_pagetable` makes an address space without pages for the user, or takes nothing. -/
theorem ends_procPagetable (hnd : σ.free.Nodup) (hhas : ∀ q ∈ σ.free, ram.Has q) (htf : tf < 0x88000) :
    Ends (procPagetable ram tf) σ fun r σ' => (r = none ∧ Trade σ σ' [] []) ∨
      ∃ root, r = some root ∧ Space ram σ' root 0 tf ∧ Trade σ σ' [] (σ'.pages 2 root) := by
  have hpa : ∀ {q : ℕ}, q < 0x88000 → q * PGSIZE < 2 ^ 64 := by
    intro q hq
    simp only [PGSIZE]
    omega
  -- a table with no user page and nothing above is freed
  have hfree : ∀ {root : ℕ} {τ : Phys}, User ram τ root 0 → Trade σ τ [] (τ.pages 2 root) →
      (∀ u, TOP ≤ u → τ.map root u &&& PTE_V = 0) →
      Ends (do
        uvmfree ram root 0
        pure none : Code (Option ℕ)) τ fun r σ' => (r = none ∧ Trade σ σ' [] []) ∨
        ∃ root, r = some root ∧ Space ram σ' root 0 tf ∧ Trade σ σ' [] (σ'.pages 2 root) := by
    intro root τ hu ht habove
    rw [ends_bind]
    exact (ends_uvmfree hu rfl habove).mono fun _ σ' hf => ends_pure.mpr (.inl ⟨rfl, ht.trans hf⟩)
  rw [procPagetable, ends_bind]
  refine (ends_uvmcreate hnd hhas).mono fun r σ1 hr => ?_
  rcases hr with ⟨rfl, ht⟩ | ⟨root, rfl, htree, ht, hmap⟩
  · exact ends_pure.mpr (.inl ⟨rfl, ht⟩)
  · have hu1 : User ram σ1 root 0 := User.zero htree fun u _ => by rw [hmap]
    dsimp only
    rw [ends_bind, TRAMPOLINE_eq]
    refine (ends_mappage htree (by decide) (hpa ram.trampoline_le) (by decide) (by rw [hmap]; rfl)).mono fun ok σ2 h2 => ?_
    obtain ⟨htree2, ht2, hmap2⟩ := h2
    cases ok with
    | false =>
      have hsame : σ2.map root = σ1.map root := hmap2
      rw [if_neg (by decide)]
      refine hfree (hu1.keep htree2 (fun u _ => congrFun hsame u) ht2).1 (ht.trans ht2) fun u _ => ?_
      rw [hsame, hmap]
      exact Nat.zero_and _
    | true =>
      rw [if_pos rfl, hmap] at hmap2
      have hlow2 : ∀ u, u ≠ TOP + 1 → σ2.map root u = 0 := by
        intro u hu
        rw [hmap2, update_of_ne hu]
      have hu2 : User ram σ2 root 0 := User.zero htree2 fun u hu => hlow2 u (by omega)
      rw [if_pos rfl, ends_bind, TRAPFRAME_eq]
      refine (ends_mappage htree2 (by decide) (hpa htf) (by decide) (by rw [hlow2 TOP (by omega)]; rfl)).mono fun ok σ3 h3 => ?_
      obtain ⟨htree3, ht3, hmap3⟩ := h3
      cases ok with
      | false =>
        have hsame : σ3.map root = σ2.map root := hmap3
        have hu3 : User ram σ3 root 0 := (hu2.keep htree3 (fun u _ => congrFun hsame u) ht3).1
        have htop : σ3.map root (TOP + 1) = entry ram.trampoline (PTE_R ||| PTE_X) := by
          rw [hsame, hmap2, update_self]
          rfl
        rw [if_neg (by decide), ends_bind]
        refine (hu3.ends_unmapHigh (by omega) (by decide) ?_).mono fun _ σ4 h4 => ?_
        · rw [htop]
          exact leaf_entry (by decide) (by decide)
        · obtain ⟨hu4, -, hpages4, ht4, hmap4⟩ := h4
          refine hfree hu4 ?_ fun u _ => ?_
          · rw [hpages4]
            exact ((ht.trans ht2).trans ht3).trans ht4
          · rw [hmap4]
            by_cases hu : u = TOP + 1
            · rw [hu, update_self]
              rfl
            · rw [update_of_ne hu, hsame, hlow2 u hu]
              rfl
      | true =>
        rw [if_pos rfl] at hmap3
        rw [if_pos rfl, ends_pure]
        have hlow3 : ∀ u, u ≠ TOP + 1 → u ≠ TOP → σ3.map root u = 0 := by
          intro u hu hu'
          rw [hmap3, update_of_ne hu', hlow2 u hu]
        refine .inr ⟨root, rfl, ⟨User.zero htree3 fun u hu => hlow3 u (by omega) (by omega), ?_, ?_, fun u hu => ?_⟩, ?_⟩
        · rw [hmap3, update_self]
          rfl
        · rw [hmap3, update_of_ne (by omega), hmap2, update_self]
          rfl
        · exact hlow3 u (by omega) (by omega)
        · exact (ht.trans ht2).trans ht3

/-- `proc_freepagetable` frees the user's pages and the tables. -/
theorem ends_procFreepagetable (h : Space ram σ root n tf) (hn : n = pagesOf sz) :
    Ends (procFreepagetable ram root sz) σ fun _ σ' => Trade σ σ' (frames (σ.map root) 0 n ++ σ.pages 2 root) [] := by
  rw [procFreepagetable, ends_bind, TRAMPOLINE_eq]
  refine (h.user.ends_unmapHigh (by omega) (by decide) ?_).mono fun _ σ1 h1 => ?_
  · rw [h.tramp]
    exact leaf_entry (by decide) (by decide)
  · obtain ⟨hu1, hf1, hp1, ht1, hmap1⟩ := h1
    rw [ends_bind, TRAPFRAME_eq]
    refine (hu1.ends_unmapHigh le_rfl (by decide) ?_).mono fun _ σ2 h2 => ?_
    · rw [hmap1, update_of_ne (by omega), h.trap]
      exact leaf_entry (by decide) (by decide)
    · obtain ⟨hu2, hf2, hp2, ht2, hmap2⟩ := h2
      refine (ends_uvmfree hu2 hn fun u hu => ?_).mono fun _ σ3 h3 => ?_
      · rw [hmap2, hmap1]
        by_cases hu0 : u = TOP
        · rw [hu0, update_self]
          rfl
        · rw [update_of_ne hu0]
          by_cases hu1 : u = TOP + 1
          · rw [hu1, update_self]
            rfl
          · rw [update_of_ne hu1, h.above u (by omega)]
            rfl
      · rw [hf2, hf1, hp2, hp1] at h3
        rw [hp1] at ht2
        exact ((ht1.trans ht2).frame_left _).trans h3

/-- What others trade does not matter. -/
theorem Space.traded (h : Space ram σ root n tf) (ht : Trade σ σ' xs ys)
    (hnd : (σ.free ++ (xs ++ (frames (σ.map root) 0 n ++ σ.pages 2 root))).Nodup) (hhas : ∀ q ∈ xs, ram.Has q) :
    Space ram σ' root n tf ∧ σ'.pages 2 root = σ.pages 2 root ∧ σ'.map root = σ.map root ∧
      ∀ f ∈ frames (σ.map root) 0 n, σ'.mem f = σ.mem f := by
  obtain ⟨huser, hpages, hmap, hmem⟩ := h.user.traded ht hnd hhas
  refine ⟨⟨huser, ?_, ?_, ?_⟩, hpages, hmap, hmem⟩
  · rw [hmap, h.trap]
  · rw [hmap, h.tramp]
  · rw [hmap]
    exact h.above

/-- An address space that has been added to. -/
theorem Grew.space {perm : ℕ → ℕ} {data : ℕ → Frame} {σ0 : Phys} {m : ℕ} (h : Grew ram σ0 σ root m n perm data)
    (h0 : Space ram σ0 root m tf) : Space ram σ root n tf := by
  have htop := h.user.lt_top
  refine ⟨h.user, ?_, ?_, fun u hu => ?_⟩
  · rw [h.old TOP (by omega), h0.trap]
  · rw [h.old (TOP + 1) (by omega), h0.tramp]
  · rw [h.old u (by omega), h0.above u hu]

/-- An address space that has been taken from. -/
theorem Cut.space (h : Cut ram σ σ' root k n) (h0 : Space ram σ root n tf) : Space ram σ' root k tf := by
  have htop := h0.user.lt_top
  have hsame : ∀ u, TOP ≤ u → σ'.map root u = σ.map root u := fun u hu => (congrFun h.map u).trans (if_neg (by omega))
  refine ⟨h.user, ?_, ?_, fun u hu => ?_⟩
  · rw [hsame TOP le_rfl, h0.trap]
  · rw [hsame (TOP + 1) (by omega), h0.tramp]
  · rw [hsame u (by omega), h0.above u hu]

/-! ## The process table -/

/-- `struct proc`: what the process layer has of it, the memory, the files and the name. -/
structure Task where
  proc : Proc
  sz : ℕ
  pagetable : ℕ
  trapframe : ℕ
  ofile : Fin Files.NOFILE → Option (Fin Files.NFILE)
  cwd : Option ℕ
  name : List UInt8

/-- `struct file`: its count, its pipe if it has one, and which end it is. -/
structure File where
  ref : ℤ
  pipe : Option ℕ
  writable : Bool

/-- The state of the kernel: memory, the process table, `nextpid`, the file table, which ends of the pipe in a page are open, `ref`
of the inodes, which of their sleep-locks are held, and `log.outstanding`. -/
structure Kern where
  phys : Phys
  task : Slot → Task
  nextpid : ℤ
  file : Fin Files.NFILE → File
  pipe : ℕ → Bool × Bool
  inode : ℕ → ℤ
  lock : ℕ → Bool
  outstanding : ℤ

/-- A program on the state of the kernel. -/
abbrev Sys : Type → Type := Exec Kern Panic

def Kern.setPhys (k : Kern) (σ : Phys) : Kern := { k with phys := σ }

/-- The slot of a process is changed. -/
def Kern.setTask (k : Kern) (i : Slot) (t : Task) : Kern := { k with task := update k.task i t }

def Kern.setNextpid (k : Kern) (pid : ℤ) : Kern := { k with nextpid := pid }

/-- A program on memory. -/
def onPhys {α : Type} (p : Code α) : Sys α := fun k =>
  match p k.phys with
  | .ok (x, σ) => .ok (x, k.setPhys σ)
  | .error e => .error e

def modifyTask (i : Slot) (f : Task → Task) : Sys Unit := modify fun k => k.setTask i (f (k.task i))

/-- `freeproc` -/
def freeproc (ram : Ram) (i : Slot) : Sys Unit := do
  let t := (← get).task i
  (if t.trapframe ≠ 0 then onPhys (kfree ram t.trapframe) else pure ())
  (if t.pagetable ≠ 0 then onPhys (procFreepagetable ram t.pagetable t.sz) else pure ())
  modifyTask i fun t => { t with trapframe := 0, pagetable := 0, sz := 0, name := t.name.set 0 0, proc := t.proc.freeproc }

/-- `allocproc`; the kernel thread's context is left out. -/
def allocproc (ram : Ram) : Sys (Option Slot) := do
  let k ← get
  match (List.finRange NPROC).find? fun i => (k.task i).proc.state = .unused with
  | none => pure none
  | some i => do
    modify fun k => k.setNextpid (inc k.nextpid)
    modifyTask i fun t => { t with proc := t.proc.claim k.nextpid }
    match ← onPhys kalloc with
    | none => do
      modifyTask i fun t => { t with trapframe := 0 }
      freeproc ram i
      pure none
    | some trapframe => do
      modifyTask i fun t => { t with trapframe := trapframe }
      match ← onPhys (procPagetable ram trapframe) with
      | none => do
        modifyTask i fun t => { t with pagetable := 0 }
        freeproc ram i
        pure none
      | some pagetable => do
        modifyTask i fun t => { t with pagetable := pagetable, proc := t.proc.allocproc k.nextpid }
        pure (some i)

/-- `growproc` of the process in slot `i` -/
def growproc (ram : Ram) (i : Slot) (n : ℤ) : Sys ℤ := do
  let t := (← get).task i
  let newsz := ((t.sz + n) % 2 ^ 64).toNat
  if 0 < n then do
    let sz ← onPhys (uvmalloc ram t.pagetable t.sz newsz PTE_W)
    if sz = 0 then pure (-1)
    else do
      modifyTask i fun t => { t with sz := sz }
      pure 0
  else do
    let sz ← (if n < 0 then onPhys (uvmdealloc ram t.pagetable t.sz newsz) else pure t.sz : Sys ℕ)
    modifyTask i fun t => { t with sz := sz }
    pure 0

variable {k k' : Kern} {i j : Slot} {t t' : Task}

section Fields

variable {pid : ℤ}

@[simp] theorem setPhys_phys : (k.setPhys σ).phys = σ := rfl

@[simp] theorem setPhys_task : (k.setPhys σ).task = k.task := rfl

@[simp] theorem setPhys_setPhys : (k.setPhys σ).setPhys σ' = k.setPhys σ' := rfl

@[simp] theorem setPhys_self : k.setPhys k.phys = k := rfl

@[simp] theorem setTask_phys : (k.setTask i t).phys = k.phys := rfl

@[simp] theorem setTask_file : (k.setTask i t).file = k.file := rfl

@[simp] theorem setTask_setPhys : (k.setTask i t).setPhys σ = (k.setPhys σ).setTask i t := rfl

@[simp] theorem setTask_self : (k.setTask i t).task i = t := update_self ..

theorem setTask_of_ne (h : j ≠ i) : (k.setTask i t).task j = k.task j := update_of_ne h ..

@[simp] theorem setTask_setTask : (k.setTask i t).setTask i t' = k.setTask i t' := by
  rw [Kern.setTask, Kern.setTask, Kern.setTask, update_idem]

theorem setTask_task : k.setTask i (k.task i) = k := by rw [Kern.setTask, update_eq_self]

@[simp] theorem setNextpid_phys : (k.setNextpid pid).phys = k.phys := rfl

@[simp] theorem setNextpid_task : (k.setNextpid pid).task = k.task := rfl

end Fields

@[simp] theorem ends_onPhys {α : Type} {p : Code α} {Q : α → Kern → Prop} :
    Ends (onPhys p) k Q ↔ Ends p k.phys fun x σ => Q x (k.setPhys σ) := by
  constructor
  · intro h
    obtain ⟨x, k', he, hq⟩ := h.eval
    unfold onPhys at he
    cases hp : p k.phys with
    | error e =>
      rw [hp] at he
      cases he
    | ok r =>
      rw [hp] at he
      cases he
      exact ends_of_eval hp hq
  · intro h
    obtain ⟨x, σ, he, hq⟩ := h.eval
    have hrun : onPhys p k = .ok (x, k.setPhys σ) := by
      unfold onPhys
      rw [he]
    exact ends_of_eval hrun hq

@[simp] theorem ends_modifyTask {f : Task → Task} {Q : Unit → Kern → Prop} :
    Ends (modifyTask i f) k Q ↔ Q () (k.setTask i (f (k.task i))) := ends_modify

/-- The pages of a process. -/
def Task.owned (σ : Phys) (t : Task) : List ℕ :=
  (if t.trapframe = 0 then [] else [t.trapframe]) ++
    if t.pagetable = 0 then [] else frames (σ.map t.pagetable) 0 (pagesOf t.sz) ++ σ.pages 2 t.pagetable

/-- A process, possibly half made: it has a trapframe or not, and an address space or not. -/
structure Task.Ok (ram : Ram) (σ : Phys) (t : Task) : Prop where
  trapframe : t.trapframe ≠ 0 → ram.Has t.trapframe
  space : t.pagetable ≠ 0 → Space ram σ t.pagetable (pagesOf t.sz) t.trapframe
  nodup : (σ.free ++ t.owned σ).Nodup

theorem Task.owned_of_pos {t : Task} (h : t.trapframe ≠ 0) (h' : t.pagetable ≠ 0) :
    t.owned σ = t.trapframe :: (frames (σ.map t.pagetable) 0 (pagesOf t.sz) ++ σ.pages 2 t.pagetable) := by
  rw [Task.owned, if_neg h, if_neg h']
  rfl

theorem Task.Ok.has (h : t.Ok ram σ) : ∀ q ∈ t.owned σ, ram.Has q := by
  intro q hq
  rw [Task.owned, List.mem_append] at hq
  rcases hq with hq | hq
  · split_ifs at hq with htf
    · cases hq
    · rw [List.mem_singleton] at hq
      exact hq ▸ h.trapframe htf
  · split_ifs at hq with hpt
    · cases hq
    · rcases List.mem_append.mp hq with hq | hq
      · exact (h.space hpt).user.has q hq
      · exact (h.space hpt).user.tree.has q (List.mem_append_right _ hq)

/-- What others trade does not matter. -/
theorem Task.Ok.traded (h : t.Ok ram σ) (ht : Trade σ σ' xs ys) (hnd : (σ.free ++ (xs ++ t.owned σ)).Nodup)
    (hhas : ∀ q ∈ xs, ram.Has q) : t.Ok ram σ' ∧ t.owned σ' = t.owned σ ∧ ∀ q ∈ t.owned σ, σ'.mem q = σ.mem q := by
  have hmem : ∀ q ∈ t.owned σ, σ'.mem q = σ.mem q := by
    intro q hq
    refine ht.mem q fun hin => ?_
    rw [← List.append_assoc] at hnd
    exact List.disjoint_of_nodup_append hnd hin hq
  have hspace : t.pagetable ≠ 0 → Space ram σ' t.pagetable (pagesOf t.sz) t.trapframe ∧ t.owned σ' = t.owned σ := by
    intro hp
    have hsub : (σ.free ++ (xs ++ (frames (σ.map t.pagetable) 0 (pagesOf t.sz) ++ σ.pages 2 t.pagetable))).Nodup := by
      refine hnd.sublist ((List.Sublist.refl _).append ((List.Sublist.refl _).append ?_))
      rw [Task.owned, if_neg hp]
      exact List.sublist_append_right _ _
    obtain ⟨hs, hpages, hmap, -⟩ := (h.space hp).traded ht hsub hhas
    exact ⟨hs, by rw [Task.owned, Task.owned, hmap, hpages]⟩
  have howned : t.owned σ' = t.owned σ := by
    by_cases hp : t.pagetable = 0
    · rw [Task.owned, Task.owned, if_pos hp, if_pos hp]
    · exact (hspace hp).2
  refine ⟨⟨h.trapframe, fun hp => (hspace hp).1, ?_⟩, howned, hmem⟩
  rw [howned]
  exact (ht.frame.nodup hnd).sublist ((List.Sublist.refl _).append (List.sublist_append_right _ _))

/-- A slot after `freeproc`. -/
def Task.freed (t : Task) : Task :=
  { t with trapframe := 0, pagetable := 0, sz := 0, name := t.name.set 0 0, proc := t.proc.freeproc }

theorem ends_freeproc (h : (k.task i).Ok ram k.phys) : Ends (freeproc ram i) k fun _ k' =>
    ∃ σ', Trade k.phys σ' ((k.task i).owned k.phys) [] ∧ k' = (k.setPhys σ').setTask i (k.task i).freed := by
  obtain ⟨t, ht⟩ : ∃ t, t = k.task i := ⟨_, rfl⟩
  rw [← ht] at h ⊢
  -- once the trapframe is gone
  have htable : ∀ σ1, Trade k.phys σ1 (if t.trapframe = 0 then [] else [t.trapframe]) [] →
      Ends (if t.pagetable ≠ 0 then onPhys (procFreepagetable ram t.pagetable t.sz) else pure () : Sys Unit) (k.setPhys σ1)
        fun _ k2 => ∃ σ', Trade k.phys σ' (t.owned k.phys) [] ∧ k2 = k.setPhys σ' := by
    intro σ1 h1
    by_cases hp : t.pagetable = 0
    · rw [if_neg (by simpa using hp), ends_pure]
      refine ⟨σ1, ?_, rfl⟩
      rw [Task.owned, if_pos hp, List.append_nil]
      exact h1
    · have hnd := h.nodup
      rw [Task.owned, if_neg hp] at hnd
      obtain ⟨hs1, hpages, hmap, -⟩ := (h.space hp).traded h1 hnd fun q hq => by
        by_cases hz : t.trapframe = 0
        · rw [if_pos hz] at hq
          cases hq
        · rw [if_neg hz, List.mem_singleton] at hq
          exact hq ▸ h.trapframe hz
      rw [if_pos hp, ends_onPhys]
      refine (ends_procFreepagetable hs1 rfl).mono fun _ σ2 h2 => ⟨σ2, ?_, rfl⟩
      rw [hmap, hpages] at h2
      rw [Task.owned, if_neg hp]
      exact h1.frame.trans h2
  have htf : Ends (if t.trapframe ≠ 0 then onPhys (kfree ram t.trapframe) else pure () : Sys Unit) k fun _ k1 =>
      ∃ σ1, Trade k.phys σ1 (if t.trapframe = 0 then [] else [t.trapframe]) [] ∧ k1 = k.setPhys σ1 := by
    by_cases hz : t.trapframe = 0
    · rw [if_neg (by simpa using hz), if_pos hz, ends_pure]
      exact ⟨k.phys, Trade.refl, rfl⟩
    · rw [if_pos hz, if_neg hz, ends_onPhys]
      exact ends_kfree (h.trapframe hz) fun σ1 h1 => ⟨σ1, h1, rfl⟩
  rw [freeproc, ends_bind, ends_get, ends_bind, ← ht]
  refine htf.mono fun _ k1 hk1 => ?_
  obtain ⟨σ1, h1, rfl⟩ := hk1
  rw [ends_bind]
  refine (htable σ1 h1).mono fun _ k2 hk2 => ?_
  obtain ⟨σ2, h2, rfl⟩ := hk2
  rw [ends_modifyTask, setPhys_task, ← ht]
  exact ⟨σ2, h2, rfl⟩

/-- The process has another size. -/
structure Resized (ram : Ram) (k k' : Kern) (i : Slot) : Prop where
  eq : k' = (k.setPhys k'.phys).setTask i { k.task i with sz := (k'.task i).sz }
  ok : (k'.task i).Ok ram k'.phys
  trade : Trade k.phys k'.phys ((k.task i).owned k.phys) ((k'.task i).owned k'.phys)

/-- `growproc` gives the process the pages it asks for, or none. -/
theorem ends_growproc {n : ℤ} (h : (k.task i).Ok ram k.phys) (hp : (k.task i).pagetable ≠ 0) :
    Ends (growproc ram i n) k fun _ k' => Resized ram k k' i := by
  obtain ⟨t, ht⟩ : ∃ t, t = k.task i := ⟨_, rfl⟩
  have hdone : ∀ {σ : Phys} {sz : ℕ}, Space ram σ t.pagetable (pagesOf sz) t.trapframe →
      Trade k.phys σ (frames (k.phys.map t.pagetable) 0 (pagesOf t.sz) ++ k.phys.pages 2 t.pagetable)
        (frames (σ.map t.pagetable) 0 (pagesOf sz) ++ σ.pages 2 t.pagetable) →
      Resized ram k ((k.setPhys σ).setTask i { t with sz := sz }) i := by
    intro σ sz hspace htrade
    have howned : Trade k.phys σ (t.owned k.phys) (Task.owned σ { t with sz := sz }) := by
      have hne : t.pagetable ≠ 0 := ht ▸ hp
      simp only [Task.owned, if_neg hne]
      exact htrade.frame_left _
    refine ⟨?_, ?_, ?_⟩
    · rw [setTask_self, setTask_phys, setPhys_phys, ht]
    · rw [setTask_self]
      exact ⟨ht ▸ h.trapframe, fun _ => hspace, howned.nodup (ht ▸ h.nodup)⟩
    · rw [setTask_self, setTask_phys, setPhys_phys, ← ht]
      exact howned
  have hsp := h.space hp
  rw [← ht] at hsp
  rw [growproc, ends_bind, ends_get, ← ht]
  dsimp only
  by_cases hpos : 0 < n
  · rw [if_pos hpos, ends_bind, ends_onPhys]
    refine (ends_uvmalloc hsp.user rfl (by decide)).mono fun sz σ hr => ?_
    have hsame : (k.setPhys σ).setTask i { t with sz := t.sz } = k.setPhys σ := by
      rw [ht]
      exact setTask_task
    rcases hr with ⟨hsz, hg⟩ | ⟨rfl, -, hg⟩
    · rw [← hsz] at hg
      split_ifs with hz
      · have hzero : sz = t.sz := by omega
        rw [hzero] at hg
        exact ends_pure.mpr (hsame ▸ hdone (hg.space hsp) hg.whole)
      · rw [ends_bind, ends_modifyTask, ends_pure, setPhys_task, ← ht]
        exact hdone (hg.space hsp) hg.whole
    · rw [if_pos rfl, ends_pure]
      exact hsame ▸ hdone (hg.space hsp) hg.whole
  · have hsz : Ends (if n < 0 then onPhys (uvmdealloc ram t.pagetable t.sz ((t.sz + n) % 2 ^ 64).toNat) else pure t.sz : Sys ℕ) k
        fun sz k1 => ∃ σ, k1 = k.setPhys σ ∧ Resized ram k ((k.setPhys σ).setTask i { t with sz := sz }) i := by
      split_ifs
      · rw [ends_onPhys]
        refine (ends_uvmdealloc hsp.user rfl).mono fun sz σ hr => ⟨σ, rfl, ?_⟩
        obtain ⟨rfl, hc⟩ := hr
        exact hdone (hc.space hsp) (hc.whole (pagesOf_mono (Nat.min_le_left ..)))
      · exact ends_pure.mpr ⟨k.phys, rfl, hdone hsp Trade.refl⟩
    rw [if_neg hpos, ends_bind]
    refine hsz.mono fun sz k1 hr => ?_
    obtain ⟨σ, rfl, hr⟩ := hr
    rw [ends_bind, ends_modifyTask, ends_pure, setPhys_task, ← ht]
    exact hr
/-- A slot without memory. -/
structure Task.Blank (t : Task) : Prop where
  trapframe : t.trapframe = 0
  pagetable : t.pagetable = 0
  sz : t.sz = 0

theorem Task.blank_freed (t : Task) : t.freed.Blank := ⟨rfl, rfl, rfl⟩

/-- What `allocproc` finds: a free list of pages of memory, and slots without memory where there is no process. -/
structure Kern.Allots (ram : Ram) (k : Kern) : Prop where
  nodup : k.phys.free.Nodup
  has : ∀ q ∈ k.phys.free, ram.Has q
  blank : ∀ j, (k.task j).proc.state = .unused → (k.task j).Blank

/-- Nothing has been taken, and the processes, files and inodes are as before. -/
structure Undone (k k' : Kern) : Prop where
  task : ∀ j, (k.task j).proc.state ≠ .unused → k'.task j = k.task j
  unused : ∀ j, (k.task j).proc.state = .unused → (k'.task j).proc.state = .unused ∧ (k'.task j).Blank
  trade : Trade k.phys k'.phys [] []
  file : k'.file = k.file
  pipe : k'.pipe = k.pipe
  inode : k'.inode = k.inode

/-- The slot `j` has been taken and freed again. -/
theorem Undone.of_freed (pid : ℤ) (h : k.Allots ram) (hj : (k.task j).proc.state = .unused) (ht : Trade k.phys σ' [] []) :
    Undone k (((k.setNextpid pid).setPhys σ').setTask j t.freed) where
  task := by
    intro l hl
    refine setTask_of_ne ?_
    rintro rfl
    exact hl hj
  unused := by
    intro l hl
    by_cases hlj : l = j
    · subst hlj
      rw [setTask_self]
      exact ⟨rfl, t.blank_freed⟩
    · rw [setTask_of_ne hlj]
      exact ⟨hl, h.blank l hl⟩
  trade := ht
  file := rfl
  pipe := rfl
  inode := rfl

/-- `allocproc` has made slot `j` a process, with a trapframe and an address space without pages for the user. -/
structure Made (ram : Ram) (k k' : Kern) (j : Slot) (t : Task) : Prop where
  unused : (k.task j).proc.state = .unused
  eq : k' = ((k.setNextpid (inc k.nextpid)).setPhys k'.phys).setTask j t
  proc : t.proc = (k.task j).proc.allocproc k.nextpid
  sz : t.sz = 0
  ofile : t.ofile = (k.task j).ofile
  has : ram.Has t.trapframe
  space : Space ram k'.phys t.pagetable 0 t.trapframe
  trade : Trade k.phys k'.phys [] (t.trapframe :: k'.phys.pages 2 t.pagetable)

theorem ends_allocproc (h : k.Allots ram) : Ends (allocproc ram) k fun r k' =>
    (r = none ∧ Undone k k') ∨ ∃ j t, r = some j ∧ Made ram k k' j t := by
  rw [allocproc, ends_bind, ends_get]
  cases hfind : (List.finRange NPROC).find? fun i => (k.task i).proc.state = .unused with
  | none =>
    refine ends_pure.mpr (.inl ⟨rfl, fun _ _ => rfl, fun j hj => ⟨hj, h.blank j hj⟩, Trade.refl, rfl, rfl, rfl⟩)
  | some j =>
    have hj : (k.task j).proc.state = .unused := by simpa using List.find?_some hfind
    obtain ⟨-, hpt, hsz⟩ := h.blank j hj
    -- the slot is freed again, with the trapframe if there is one
    have hundo : ∀ {σ1 : Phys} {t : Task}, t.pagetable = 0 → (t.trapframe ≠ 0 → ram.Has t.trapframe) →
        Trade k.phys σ1 [] (if t.trapframe = 0 then [] else [t.trapframe]) →
        Ends (freeproc ram j) (((k.setNextpid (inc k.nextpid)).setPhys σ1).setTask j t) fun _ k' => Undone k k' := by
      intro σ1 t hp htf ht
      have howned : t.owned σ1 = if t.trapframe = 0 then [] else [t.trapframe] := by
        rw [Task.owned, if_pos hp, List.append_nil]
      have hok : t.Ok ram σ1 := by
        refine ⟨htf, fun hbad => absurd hp hbad, ?_⟩
        rw [howned]
        exact ht.nodup (by simpa using h.nodup)
      refine (ends_freeproc (by simpa using hok)).mono fun _ k1 hk1 => ?_
      obtain ⟨σ2, h2, rfl⟩ := hk1
      simp only [setTask_self, setTask_phys, setPhys_phys, howned] at h2
      simp only [setTask_self, setTask_setPhys, setPhys_setPhys, setTask_setTask]
      exact Undone.of_freed _ h hj (ht.trans h2)
    simp only [ends_bind, ends_modify, ends_modifyTask, ends_onPhys, setTask_phys, setNextpid_phys, setNextpid_task]
    refine ends_kalloc (fun σ1 h1 => ?_) fun tf σ1 hmem h1 => ?_
    · simp only [ends_bind, ends_modifyTask, setTask_setPhys, setTask_self, setTask_setTask]
      refine (hundo ?_ ?_ ?_).mono fun _ k' hk' => ends_pure.mpr (.inl ⟨rfl, hk'⟩)
      · exact hpt
      · exact fun hbad => absurd rfl hbad
      · exact h1
    · have hhas : ram.Has tf := h.has tf hmem
      have hne : tf ≠ 0 := hhas.pos.ne'
      have hnd1 : (σ1.free ++ [tf]).Nodup := h1.nodup (by simpa using h.nodup)
      have hhas1 : ∀ q ∈ σ1.free, ram.Has q := fun q hq =>
        h1.all (fun p hp => h.has p (by simpa using hp)) q (List.mem_append_left _ hq)
      simp only [ends_bind, ends_modifyTask, setTask_setPhys, setTask_self, setTask_setTask, ends_onPhys, setTask_phys, setPhys_phys,
        setPhys_setPhys]
      refine (ends_procPagetable (List.nodup_append.mp hnd1).1 hhas1 hhas.lt).mono fun r σ2 h2 => ?_
      rcases h2 with ⟨rfl, h2⟩ | ⟨root, rfl, hspace, h2⟩
      · simp only [ends_bind, ends_modifyTask, setTask_self, setTask_setTask]
        refine (hundo rfl (fun _ => hhas) ?_).mono fun _ k' hk' => ?_
        · rw [if_neg hne]
          exact h1.trans h2.frame
        · exact ends_pure.mpr (.inl ⟨rfl, hk'⟩)
      · simp only [ends_bind, ends_modifyTask, setTask_self, setTask_setTask, ends_pure]
        refine .inr ⟨j, _, rfl, hj, rfl, rfl, hsz, rfl, hhas, hspace, ?_⟩
        exact h1.trans (h2.frame.of_perm (List.Perm.refl _) (List.perm_append_singleton _ _))

end Xv6Mlfq.Vm
