import Xv6Mlfq.Lib.Radix
import Xv6Mlfq.Vm.Code

/-!
# Xv6Mlfq.Vm.Table — page tables as trees, and what they map

A page table in memory is a tree of pages (`Lib.Radix`), each with 512 entries of eight bytes.

* `Tree ram σ l p`: no page is in the tree twice or on the free list, and entries above the lowest level are 0 or point to a page.
* `Phys.map σ root v`: the entry for virtual page `v`, 0 if there is none.
* `ends_walk`: `walk` finds it, and leaves all entries as they are.
* `ends_mappages`, `ends_uvmunmap`, `ends_freewalk`: what the functions of `vm.c` do to the entries, and which pages they trade.
-/

namespace Xv6Mlfq.Vm

open Bytes Function Exec

variable {ram : Ram} {σ σ' σ'' s : Phys} {l p q c i v w va root f d n : ℕ} {xs ys : List ℕ} {pa perm : ℕ}
  {m m' : ℕ → ℕ}

/-! ## Entries -/

theorem and_PTE_V (w : ℕ) : w &&& PTE_V = w % 2 := Nat.and_one_is_mod w

/-- What an entry points to. -/
def child (w : ℕ) : Option ℕ := if w &&& PTE_V ≠ 0 then some (PTE2PA w) else none

/-- An entry above the lowest level. -/
def Plain (w : ℕ) : Prop := w = 0 ∨ ∃ q, w = q * 1024 + 1

theorem child_zero : child 0 = none := rfl

theorem shiftRight_ten (w : ℕ) : w >>> 10 = w / 1024 := Nat.shiftRight_eq_div_pow w 10

theorem PTE_FLAGS_eq (w : ℕ) : PTE_FLAGS w = w % 1024 := Nat.and_two_pow_sub_one_eq_mod w 10

theorem PA2PTE_eq (pa : ℕ) : PA2PTE pa = pa / PGSIZE * 1024 := by
  rw [PA2PTE, Nat.shiftRight_eq_div_pow, Nat.shiftLeft_eq]
  rfl

/-- The entry for a page with the flags `f`. -/
theorem or_eq_add {a : ℕ} (hf : f < 1024) : a * 1024 ||| f = a * 1024 + f := by
  have h := Nat.shiftLeft_add_eq_or_of_lt (i := 10) hf a
  rw [Nat.shiftLeft_eq] at h
  exact h.symm

theorem pointer_eq (q : ℕ) : PA2PTE (q * PGSIZE) ||| PTE_V = q * 1024 + 1 := by
  rw [PA2PTE_eq, Nat.mul_div_cancel _ (by decide), or_eq_add (by decide)]
  rfl

theorem child_pointer (hq : q < 2 ^ 52) : child (q * 1024 + 1) = some q := by
  have hv : (q * 1024 + 1) &&& PTE_V ≠ 0 := by
    rw [and_PTE_V]
    omega
  rw [child, if_pos hv, PTE2PA, shiftRight_ten]
  congr 1
  omega

/-- The flags of an entry are its lowest bits. -/
theorem and_flags (hf : f < 1024) : w &&& f = w % 1024 &&& f := by
  have hmod := Nat.and_mod_two_pow (a := w) (b := f) (n := 10)
  rw [show 2 ^ 10 = 1024 from rfl, Nat.mod_eq_of_lt hf, Nat.mod_eq_of_lt (Nat.lt_of_le_of_lt Nat.and_le_right hf)] at hmod
  exact hmod

theorem Plain.of_child (h : Plain w) (hc : child w = some c) : w &&& (PTE_R ||| PTE_W ||| PTE_X) = 0 := by
  rcases h with rfl | ⟨q, rfl⟩
  · cases hc
  · have hmod : (q * 1024 + 1) % 1024 = 1 := by omega
    rw [and_flags (by decide), hmod]
    decide

/-! ## The tree -/

abbrev Phys.pages (σ : Phys) (l p : ℕ) : List ℕ := Radix.pages 512 child σ.pte l p

abbrev Phys.slot (σ : Phys) (l p v : ℕ) : Option (ℕ × ℕ) := Radix.slot 512 child σ.pte l p v

abbrev Phys.word (σ : Phys) (l p v : ℕ) : ℕ := Radix.word 512 child σ.pte 0 l p v

/-- The table `p` of level `l` with what hangs from it. -/
structure Tree (ram : Ram) (σ : Phys) (l p : ℕ) : Prop where
  nodup : (σ.free ++ σ.pages l p).Nodup
  has : ∀ q ∈ σ.free ++ σ.pages l p, ram.Has q
  inner : Radix.Inner 512 child σ.pte Plain l p

theorem Tree.not_free (h : Tree ram σ l p) (hq : q ∈ σ.pages l p) : q ∉ σ.free := by
  intro hf
  exact List.disjoint_of_nodup_append h.nodup hf hq

theorem Tree.pages_nodup (h : Tree ram σ l p) : (σ.pages l p).Nodup := (List.nodup_append.mp h.nodup).2.1

/-- The tables are the same, and there are new empty ones. -/
structure Grown (σ σ' : Phys) (l p : ℕ) : Prop where
  trade : Trade σ σ' (σ.pages l p) (σ'.pages l p)
  inner : Radix.Inner 512 child σ'.pte Plain l p
  word : ∀ v, σ'.word l p v = σ.word l p v

theorem Grown.tree (h : Grown σ σ' l p) (ht : Tree ram σ l p) : Tree ram σ' l p :=
  ⟨h.trade.nodup ht.nodup, h.trade.all ht.has, h.inner⟩

theorem Grown.refl (h : Tree ram σ l p) : Grown σ σ l p := ⟨Trade.refl, h.inner, fun _ => rfl⟩

theorem Grown.trans (h : Grown σ σ' l p) (h' : Grown σ' σ'' l p) : Grown σ σ'' l p :=
  ⟨h.trade.trans h'.trade, h'.inner, fun v => (h'.word v).trans (h.word v)⟩

theorem Tree.kid (h : Tree ram σ (l + 1) p) (hd : d < 512) (hc : child (σ.pte p d) = some c) : Tree ram σ l c where
  nodup := by
    have hsub : (σ.pages l c).Subset (σ.pages (l + 1) p) := fun q hq => Radix.mem_pages_of_kid hd hc hq
    refine List.nodup_append.mpr ⟨(List.nodup_append.mp h.nodup).1, (Radix.nodup_kid h.pages_nodup hd hc).1, ?_⟩
    rintro a ha b hb rfl
    exact h.not_free (hsub hb) ha
  has := by
    intro q hq
    rcases List.mem_append.mp hq with hq | hq
    · exact h.has q (List.mem_append_left _ hq)
    · exact h.has q (List.mem_append_right _ (Radix.mem_pages_of_kid hd hc hq))
  inner := h.inner.kid hd hc

/-- The tree below entry `d` grows. -/
theorem Grown.up (h : Tree ram σ (l + 1) p) (hd : d < 512) (hc : child (σ.pte p d) = some c) (hg : Grown σ σ' l c) :
    Grown σ σ' (l + 1) p ∧ σ'.pte p d = σ.pte p d := by
  have hp := Radix.nodup_kid h.pages_nodup hd hc
  have hother : ∀ q ∈ σ.pages (l + 1) p, q ∉ σ.pages l c → ∀ i, σ'.pte q i = σ.pte q i := by
    intro q hq hqc i
    refine pte_congr (hg.trade.mem q fun hin => ?_)
    rcases List.mem_append.mp hin with hf | hin
    · exact h.not_free hq hf
    · exact hqc hin
  have hcell : ∀ i < 512, i ≠ d → σ'.pte p i = σ.pte p i := fun i _ _ => hother p Radix.self_mem hp.2 i
  have hpd : σ'.pte p d = σ.pte p d := hother p Radix.self_mem hp.2 d
  have hkids : ∀ i < 512, i ≠ d → ∀ c', child (σ.pte p i) = some c' → ∀ q ∈ σ.pages l c', ∀ j < 512, σ'.pte q j = σ.pte q j := by
    intro i hi hid c' hc' q hq j _
    refine hother q (Radix.mem_pages_of_kid hi hc' hq) (fun hqc => ?_) j
    exact Radix.disjoint_kids h.pages_nodup hi hd hid hc' hc hq hqc
  have hc' : child (σ'.pte p d) = some c := hpd ▸ hc
  obtain ⟨rest, hpages, hpages'⟩ := Radix.pages_at hd hcell hkids
  rw [Radix.kids_some hc] at hpages
  rw [Radix.kids_some hc'] at hpages'
  refine ⟨⟨hg.trade.frame.of_perm hpages.symm hpages'.symm, ?_, fun v => ?_⟩, hpd⟩
  · refine Radix.Inner.at hd hcell hkids h.inner (hpd ▸ h.inner.good hd) fun c'' hc'' => ?_
    rw [hc'] at hc''
    cases hc''
    exact hg.inner
  · by_cases hv : v / 512 ^ (l + 1) % 512 = d
    · rw [Phys.word, Phys.word, Radix.word_succ_some (hv ▸ hc'), Radix.word_succ_some (hv ▸ hc)]
      exact hg.word v
    · exact Radix.word_at hd hcell hkids hv

/-- An empty table is hung from entry `d`. -/
theorem Grown.link {new : ℕ} (h : Tree ram σ (l + 1) p) (hd : d < 512) (hc : child (σ.pte p d) = none)
    (hnew : new ∈ σ.free) (ht : Trade σ σ' [] [new]) (hσ : σ'' = (σ'.setPage new fun _ => 0).setPage p
      (setLe ((σ'.setPage new fun _ => 0).mem p) (8 * d) 8 (PA2PTE (new * PGSIZE) ||| PTE_V))) :
    Grown σ σ'' (l + 1) p ∧ child (σ''.pte p d) = some new := by
  have hlt : new < 2 ^ 52 := by
    have := (h.has new (List.mem_append_left _ hnew)).lt
    omega
  have hold : ∀ q ∈ σ.pages (l + 1) p, q ≠ new := by
    rintro q hq rfl
    exact h.not_free hq hnew
  have hpte : ∀ q i, σ''.pte q i = if q = p ∧ i = d then new * 1024 + 1 else (σ'.setPage new fun _ => 0).pte q i := by
    intro q i
    have hw : PA2PTE (new * PGSIZE) ||| PTE_V < 2 ^ 64 := by
      rw [pointer_eq]
      omega
    rw [hσ, pte_setPte hw, pointer_eq]
  have hsame : ∀ q ∈ σ.pages (l + 1) p, ∀ i, ¬ (q = p ∧ i = d) → σ''.pte q i = σ.pte q i := by
    intro q hq i hne
    rw [hpte, if_neg hne, pte_setPage_of_ne (hold q hq)]
    exact pte_congr (ht.mem q (by simpa using h.not_free hq))
  have hpd : σ''.pte p d = new * 1024 + 1 := by rw [hpte, if_pos ⟨rfl, rfl⟩]
  have hpn : new ≠ p := (hold p Radix.self_mem).symm
  have hempty : ∀ i < 512, σ''.pte new i = 0 := by
    intro i _
    rw [hpte, if_neg fun he => hpn he.1]
    exact pte_zero mem_setPage_self
  have hchild : child (σ''.pte p d) = some new := by rw [hpd, child_pointer hlt]
  have hcell : ∀ i < 512, i ≠ d → σ''.pte p i = σ.pte p i := fun i _ hid => hsame p Radix.self_mem i fun he => hid he.2
  have hkids : ∀ i < 512, i ≠ d → ∀ c, child (σ.pte p i) = some c → ∀ q ∈ σ.pages l c, ∀ j < 512, σ''.pte q j = σ.pte q j := by
    intro i hi _ c hc q hq j _
    refine hsame q (Radix.mem_pages_of_kid hi hc hq) j ?_
    rintro ⟨rfl, -⟩
    exact (Radix.nodup_kid h.pages_nodup hi hc).2 hq
  obtain ⟨rest, hpages, hpages'⟩ := Radix.pages_at hd hcell hkids
  rw [Radix.kids_none hc, List.nil_append] at hpages
  rw [Radix.kids_some hchild, Radix.pages_empty child_zero hempty] at hpages'
  refine ⟨⟨?_, ?_, fun v => ?_⟩, hchild⟩
  · -- the new page has come from the free list
    have hfree : σ''.free = σ'.free := by rw [hσ, free_setPage, free_setPage]
    have htrade : Trade σ σ'' ([] ++ rest) ([new] ++ rest) := by
      refine ⟨?_, fun q hq => ?_⟩
      · rw [hfree]
        exact ht.frame.perm
      · have hq' : q ∉ σ.free ++ σ.pages (l + 1) p := fun hin => hq ((hpages.append_left _).subset hin)
        have hqp : q ≠ p := by
          rintro rfl
          exact hq' (List.mem_append_right _ Radix.self_mem)
        have hqn : q ≠ new := by
          rintro rfl
          exact hq' (List.mem_append_left _ hnew)
        rw [hσ, mem_setPage_of_ne hqp, mem_setPage_of_ne hqn]
        exact ht.mem q fun hin => hq' (List.mem_append_left _ (by simpa using hin))
    exact htrade.of_perm hpages.symm hpages'.symm
  · refine Radix.Inner.at hd hcell hkids h.inner (.inr ⟨new, hpd⟩) fun c hc => ?_
    rw [hchild] at hc
    cases hc
    exact Radix.Inner.empty child_zero (.inl rfl) hempty
  · by_cases hv : v / 512 ^ (l + 1) % 512 = d
    · have hzero : σ''.word l new v = 0 := Radix.word_empty (by decide) child_zero hempty
      rw [Phys.word, Phys.word, Radix.word_succ_some (hv ▸ hchild), Radix.word_succ_none (hv ▸ hc)]
      exact hzero
    · exact Radix.word_at hd hcell hkids hv

/-- The word at the lowest level of a key that has a cell. -/
theorem Tree.setLeaf (h : Tree ram σ l p) (hs : σ.slot l p v = some (q, i)) (hw : w < 2 ^ 64)
    (hσ : σ' = σ.setPage q (setLe (σ.mem q) (8 * i) 8 w)) :
    Tree ram σ' l p ∧ σ'.pages l p = σ.pages l p ∧ Trade σ σ' (σ.pages l p) (σ.pages l p) ∧
      ∀ u, σ'.word l p u = if u % 512 ^ (l + 1) = v % 512 ^ (l + 1) then w else σ.word l p u := by
  have hq := (Radix.slot_mem (by decide) hs).1
  have hpte : ∀ r ∈ σ.pages l p, ∀ j < 512, r = q ∧ j = i ∨ σ'.pte r j = σ.pte r j := by
    intro r _ j _
    rw [hσ, pte_setPte hw]
    by_cases he : r = q ∧ j = i
    · exact .inl he
    · exact .inr (if_neg he)
  have hqi : σ'.pte q i = w := by rw [hσ, pte_setPte hw, if_pos ⟨rfl, rfl⟩]
  have hsame := Radix.Same.leaf (by decide) h.pages_nodup hs hpte
  have hpages : σ'.pages l p = σ.pages l p := hsame.pages
  have htrade : Trade σ σ' (σ.pages l p) (σ.pages l p) := hσ ▸ Trade.setPage hq
  refine ⟨⟨?_, ?_, hsame.inner Plain h.inner⟩, hpages, htrade, fun u => ?_⟩
  · exact hpages ▸ htrade.nodup h.nodup
  · exact hpages ▸ htrade.all h.has
  · exact Radix.word_leaf (by decide) h.pages_nodup hs hqi hpte

/-- Changes to other pages do not matter. -/
theorem Tree.congr (h : Tree ram σ l p) (hmem : ∀ q ∈ σ.pages l p, σ'.mem q = σ.mem q)
    (hnd : (σ'.free ++ σ.pages l p).Nodup) (hhas : ∀ q ∈ σ'.free, ram.Has q) :
    Tree ram σ' l p ∧ σ'.pages l p = σ.pages l p ∧ ∀ v, σ'.slot l p v = σ.slot l p v ∧ σ'.word l p v = σ.word l p v := by
  have hagree : ∀ q ∈ σ.pages l p, ∀ i < 512, σ'.pte q i = σ.pte q i := fun q hq i _ => pte_congr (hmem q hq)
  have hsame := Radix.Same.of_agree (by decide) hagree
  have hpages : σ'.pages l p = σ.pages l p := hsame.pages
  refine ⟨⟨hpages ▸ hnd, fun q hq => ?_, hsame.inner Plain h.inner⟩, hpages,
    fun v => ⟨hsame.slot v, Radix.word_of_agree (by decide) hagree⟩⟩
  rcases List.mem_append.mp hq with hq | hq
  · exact hhas q hq
  · exact h.has q (List.mem_append_right _ (hpages ▸ hq))

/-- A trade of other pages does not matter. -/
theorem Tree.traded (h : Tree ram σ l p) (ht : Trade σ σ' xs ys) (hnd : (σ.free ++ (xs ++ σ.pages l p)).Nodup)
    (hhas : ∀ q ∈ xs, ram.Has q) :
    Tree ram σ' l p ∧ σ'.pages l p = σ.pages l p ∧ ∀ v, σ'.slot l p v = σ.slot l p v ∧ σ'.word l p v = σ.word l p v := by
  have hdis : ∀ q ∈ σ.pages l p, q ∉ σ.free ++ xs := by
    intro q hq hin
    rw [← List.append_assoc] at hnd
    exact List.disjoint_of_nodup_append hnd hin hq
  refine h.congr (fun q hq => ht.mem q (hdis q hq)) ?_ fun q hq => ?_
  · have hall := ht.frame.nodup hnd
    rw [List.nodup_append] at hall ⊢
    refine ⟨hall.1, h.pages_nodup, fun a ha b hb => hall.2.2 a ha b (List.mem_append_right _ hb)⟩
  · have hin := ht.perm.subset (List.mem_append_left _ hq)
    rcases List.mem_append.mp hin with hq | hq
    · exact h.has q (List.mem_append_left _ hq)
    · exact hhas q hq

/-! ## `walk` -/

theorem PX_eq (level va : ℕ) : PX level va = va / PGSIZE / 512 ^ level % 512 := by
  have hpow : 2 ^ (12 + 9 * level) = PGSIZE * 512 ^ level := by
    rw [Nat.pow_add, Nat.pow_mul]
    rfl
  rw [PX, Nat.shiftRight_eq_div_pow, hpow, ← Nat.div_div_eq_div_mul]
  exact Nat.and_two_pow_sub_one_eq_mod _ 9

theorem PX_zero (va : ℕ) : PX 0 va = va / PGSIZE % 512 := by
  rw [PX_eq, Nat.pow_zero, Nat.div_one]

/-- Without `alloc`, the loop finds the table, and changes nothing. -/
theorem ends_walkLoop_false {Q : Option ℕ → Phys → Prop} :
    Ends (walkLoop va false l p) σ Q ↔ Q ((σ.slot l p (va / PGSIZE)).map Prod.fst) σ := by
  induction l generalizing p with
  | zero =>
    rw [walkLoop, ends_pure, Phys.slot, Radix.slot]
    rfl
  | succ l ih =>
    rw [walkLoop, ends_bind, ends_get, Phys.slot, Radix.slot, ← PX_eq]
    by_cases hv : σ.pte p (PX (l + 1) va) &&& PTE_V ≠ 0
    · rw [if_pos hv, ih, child, if_pos hv]
      rfl
    · rw [if_neg hv, child, if_neg hv, if_neg (by decide), ends_pure]
      rfl

theorem ends_walk {Q : Option (ℕ × ℕ) → Phys → Prop} (hva : va < MAXVA) :
    Ends (walk root va false) σ Q ↔ Q (σ.slot 2 root (va / PGSIZE)) σ := by
  rw [walk, if_neg (by omega), ends_bind, ends_walkLoop_false]
  cases hs : σ.slot 2 root (va / PGSIZE) with
  | none => exact ends_pure
  | some s =>
    have hidx := (Radix.slot_mem (by decide) hs).2
    have hs' : (s.1, PX 0 va) = s := by rw [PX_zero, ← hidx]
    rw [Option.map_some]
    dsimp only
    rw [ends_pure, hs']

/-- With `alloc`, tables are added until the entry is there or there is no memory. -/
theorem ends_walkLoop_true (h : Tree ram σ l p) : Ends (walkLoop va true l p) σ fun r σ' =>
    Grown σ σ' l p ∧ ∀ q, r = some q → σ'.slot l p (va / PGSIZE) = some (q, PX 0 va) := by
  induction l generalizing p σ with
  | zero =>
    rw [walkLoop, ends_pure]
    refine ⟨Grown.refl h, fun q hq => ?_⟩
    cases hq
    rw [Phys.slot, Radix.slot, PX_zero]
  | succ l ih =>
    have hd : PX (l + 1) va < 512 := by
      rw [PX_eq]
      exact Nat.mod_lt _ (by decide)
    -- below entry `d`, whether it was there or not
    have hdown : ∀ {τ : Phys} {c : ℕ}, Tree ram τ (l + 1) p → child (τ.pte p (PX (l + 1) va)) = some c → Grown σ τ (l + 1) p →
        Ends (walkLoop va true l c) τ fun r σ' =>
          Grown σ σ' (l + 1) p ∧ ∀ q, r = some q → σ'.slot (l + 1) p (va / PGSIZE) = some (q, PX 0 va) := by
      intro τ c hτ hc hg
      refine (ih (hτ.kid hd hc)).mono fun r σ' hr => ?_
      obtain ⟨hup, hpd⟩ := hr.1.up hτ hd hc
      refine ⟨hg.trans hup, fun q hq => ?_⟩
      rw [Phys.slot, Radix.slot, ← PX_eq, hpd, hc]
      exact hr.2 q hq
    rw [walkLoop, ends_bind, ends_get]
    by_cases hv : σ.pte p (PX (l + 1) va) &&& PTE_V ≠ 0
    · rw [if_pos hv]
      exact hdown h (if_pos hv) (Grown.refl h)
    · rw [if_neg hv, if_pos rfl, ends_bind]
      have hc : child (σ.pte p (PX (l + 1) va)) = none := if_neg hv
      refine ends_kalloc (fun σ' ht => ?_) fun new σ' hnew ht => ?_
      · obtain ⟨htree, hpages, hword⟩ := h.traded ht (by simpa using h.nodup) (by simp)
        refine ends_pure.mpr ⟨⟨?_, htree.inner, fun v => (hword v).2⟩, fun q hq => by cases hq⟩
        rw [hpages]
        exact ht.frame
      · rw [ends_bind, ends_memset, ends_bind, ends_setPte]
        obtain ⟨hg, hc'⟩ := Grown.link h hd hc hnew ht rfl
        exact hdown (hg.tree h) hc' hg

theorem ends_walk_true (h : Tree ram σ 2 root) (hva : va < MAXVA) : Ends (walk root va true) σ fun r σ' =>
    Grown σ σ' 2 root ∧ ∀ s, r = some s → σ'.slot 2 root (va / PGSIZE) = some s := by
  rw [walk, if_neg (by omega), ends_bind]
  refine (ends_walkLoop_true h).mono fun r σ' hr => ?_
  cases r with
  | none => exact ends_pure.mpr ⟨hr.1, nofun⟩
  | some q =>
    refine ends_pure.mpr ⟨hr.1, fun s hs => ?_⟩
    cases hs
    exact hr.2 q rfl

/-! ## The map -/

/-- The entry for virtual page `v`. -/
def Phys.map (σ : Phys) (root v : ℕ) : ℕ := if v < 2 ^ 27 then σ.word 2 root v else 0

theorem map_of_slot (hv : v < 2 ^ 27) (hs : σ.slot 2 root v = some (q, i)) : σ.map root v = σ.pte q i := by
  rw [Phys.map, if_pos hv]
  exact Radix.word_some hs

theorem map_of_none (hs : σ.slot 2 root v = none) : σ.map root v = 0 := by
  rw [Phys.map]
  split_ifs
  · exact Radix.word_none hs
  · rfl

theorem map_congr (h : ∀ v, σ'.word 2 root v = σ.word 2 root v) : σ'.map root = σ.map root := by
  funext v
  rw [Phys.map, h, Phys.map]

theorem Tree.set (h : Tree ram σ 2 root) (hv : v < 2 ^ 27) (hs : σ.slot 2 root v = some (q, i)) (hw : w < 2 ^ 64)
    (hσ : σ' = σ.setPage q (setLe (σ.mem q) (8 * i) 8 w)) :
    Tree ram σ' 2 root ∧ σ'.pages 2 root = σ.pages 2 root ∧ Trade σ σ' (σ.pages 2 root) (σ'.pages 2 root) ∧
      σ'.map root = update (σ.map root) v w := by
  obtain ⟨htree, hpages, htrade, hword⟩ := h.setLeaf hs hw hσ
  refine ⟨htree, hpages, hpages.symm ▸ htrade, funext fun u => ?_⟩
  rw [Phys.map]
  by_cases hu : u = v
  · subst hu
    rw [if_pos hv, hword, if_pos rfl, update_self]
  · rw [update_of_ne hu, Phys.map]
    split_ifs with hlt
    · rw [hword, if_neg (by omega)]
    · rfl

/-! ## `mappages` -/

/-- The map `m` after `n` pages from `v` on have been mapped to the memory from `pa` on. -/
def mapped (m : ℕ → ℕ) (v n pa perm : ℕ) : ℕ → ℕ :=
  fun u => if v ≤ u ∧ u < v + n then PA2PTE ((pa + (u - v) * PGSIZE) % 2 ^ 64) ||| perm ||| PTE_V else m u

theorem mapped_zero : mapped m v 0 pa perm = m := by
  funext u
  exact if_neg (by omega)

theorem mapped_succ (hpa : pa < 2 ^ 64) :
    mapped (update m v (PA2PTE pa ||| perm ||| PTE_V)) (v + 1) n ((pa + PGSIZE) % 2 ^ 64) perm = mapped m v (n + 1) pa perm := by
  funext u
  unfold mapped
  by_cases hu : u = v
  · subst hu
    rw [if_neg (by omega), if_pos (by omega), update_self, Nat.sub_self, Nat.zero_mul, Nat.add_zero, Nat.mod_eq_of_lt hpa]
  · rw [update_of_ne hu]
    by_cases hin : v + 1 ≤ u ∧ u < v + 1 + n
    · have hadd : pa + PGSIZE + (u - (v + 1)) * PGSIZE = pa + (u - v) * PGSIZE := by
        simp only [PGSIZE]
        omega
      rw [if_pos hin, if_pos (by omega), Nat.mod_add_mod, hadd]
    · rw [if_neg hin, if_neg (by omega)]

theorem word_lt (hpa : pa < 2 ^ 64) (hperm : perm < 2 ^ 64) : PA2PTE pa ||| perm ||| PTE_V < 2 ^ 64 := by
  have hppn : PA2PTE pa < 2 ^ 64 := by
    rw [PA2PTE_eq]
    simp only [PGSIZE]
    omega
  exact Nat.or_lt_two_pow (Nat.or_lt_two_pow hppn hperm) (by decide)

theorem ends_mappagesLoop {last : ℕ} (h : Tree ram σ 2 root) (hn : 0 < n) (hv : v + n ≤ 2 ^ 26) (hpa : pa < 2 ^ 64)
    (hperm : perm < 2 ^ 64) (hfree : ∀ u, v ≤ u → u < v + n → σ.map root u &&& PTE_V = 0) (hlast : last = (v + n - 1) * PGSIZE) :
    Ends (mappagesLoop root last perm n (v * PGSIZE) pa) σ fun ok σ' =>
      Tree ram σ' 2 root ∧ Trade σ σ' (σ.pages 2 root) (σ'.pages 2 root) ∧
        ∃ k ≤ n, (ok = true ↔ k = n) ∧ σ'.map root = mapped (σ.map root) v k pa perm := by
  induction n generalizing v pa σ with
  | zero => omega
  | succ n ih =>
    have hva : v * PGSIZE < MAXVA := by
      simp only [PGSIZE, MAXVA]
      omega
    rw [mappagesLoop, ends_bind]
    refine (ends_walk_true h hva).mono fun r τ hr => ?_
    obtain ⟨hg, hslot⟩ := hr
    have hτ := hg.tree h
    have hmap : τ.map root = σ.map root := map_congr hg.word
    cases r with
    | none =>
      refine ends_pure.mpr ⟨hτ, hg.trade, 0, Nat.zero_le _, ?_, ?_⟩
      · simp
      · rw [mapped_zero, hmap]
    | some s =>
      obtain ⟨q, i⟩ := s
      have hs := hslot (q, i) rfl
      rw [Nat.mul_div_cancel _ (by decide)] at hs
      have hpte : τ.pte q i &&& PTE_V = 0 := by
        rw [← map_of_slot (by omega) hs, hmap]
        exact hfree v (by omega) (by omega)
      obtain ⟨hset, -, htrade, hmap'⟩ := hτ.set (by omega) hs (word_lt hpa hperm) rfl
      dsimp only
      rw [ends_bind, ends_get, if_neg (by simp [hpte]), ends_bind, ends_setPte]
      rw [hmap] at hmap'
      have htr := hg.trade.trans htrade
      by_cases hn0 : n = 0
      · subst hn0
        rw [if_pos (by rw [hlast, Nat.add_sub_cancel]), ends_pure]
        refine ⟨hset, htr, 1, le_rfl, by simp, ?_⟩
        rw [hmap', ← mapped_succ hpa, mapped_zero]
      · have hne : v * PGSIZE ≠ last := by
          rw [hlast]
          simp only [PGSIZE]
          omega
        have hnext : (v * PGSIZE + PGSIZE) % 2 ^ 64 = (v + 1) * PGSIZE := by
          simp only [PGSIZE]
          omega
        have hlast' : last = (v + 1 + n - 1) * PGSIZE := by
          rw [hlast, Nat.add_assoc v 1 n, Nat.add_comm 1 n]
        rw [if_neg hne, hnext]
        refine (ih hset (by omega) (by omega) (Nat.mod_lt _ (by decide)) (fun u hu hlt => ?_) hlast').mono fun ok σ' hend => ?_
        · rw [hmap', update_of_ne (by omega)]
          exact hfree u (by omega) (by omega)
        · obtain ⟨htree, htrade', k, hk, hok, hm⟩ := hend
          refine ⟨htree, htr.trans htrade', k + 1, by omega, by rw [hok]; omega, ?_⟩
          rw [hm, hmap', mapped_succ hpa]

/-- **`mappages`** maps the pages one by one, all of them if it returns 0. -/
theorem ends_mappages (h : Tree ram σ 2 root) (hn : 0 < n) (hv : v + n ≤ 2 ^ 26) (hpa : pa < 2 ^ 64)
    (hperm : perm < 2 ^ 64) (hfree : ∀ u, v ≤ u → u < v + n → σ.map root u &&& PTE_V = 0) :
    Ends (mappages root (v * PGSIZE) (n * PGSIZE) pa perm) σ fun ok σ' =>
      Tree ram σ' 2 root ∧ Trade σ σ' (σ.pages 2 root) (σ'.pages 2 root) ∧
        ∃ k ≤ n, (ok = true ↔ k = n) ∧ σ'.map root = mapped (σ.map root) v k pa perm := by
  have hlast : (v * PGSIZE + n * PGSIZE - PGSIZE) % 2 ^ 64 = (v + n - 1) * PGSIZE := by
    simp only [PGSIZE]
    omega
  rw [mappages, if_neg (by simp), if_neg (by simp), if_neg (by simp only [PGSIZE]; omega), Nat.mul_div_cancel _ (by decide)]
  exact ends_mappagesLoop h hn hv hpa hperm hfree hlast

/-- `mappages` of one page -/
theorem ends_mappage (h : Tree ram σ 2 root) (hv : v < 2 ^ 26) (hpa : pa < 2 ^ 64) (hperm : perm < 2 ^ 64)
    (hfree : σ.map root v &&& PTE_V = 0) : Ends (mappages root (v * PGSIZE) PGSIZE pa perm) σ fun ok σ' =>
      Tree ram σ' 2 root ∧ Trade σ σ' (σ.pages 2 root) (σ'.pages 2 root) ∧
        σ'.map root = if ok then update (σ.map root) v (PA2PTE pa ||| perm ||| PTE_V) else σ.map root := by
  have hend := ends_mappages (n := 1) (v := v) h (by decide) (by omega) hpa hperm fun u hu hlt => by
    obtain rfl : u = v := by omega
    exact hfree
  rw [Nat.one_mul] at hend
  refine hend.mono fun ok σ' hr => ?_
  obtain ⟨htree, htrade, k, hk, hok, hm⟩ := hr
  refine ⟨htree, htrade, ?_⟩
  cases ok with
  | true =>
    obtain rfl : k = 1 := hok.mp rfl
    rw [hm, ← mapped_succ hpa, mapped_zero]
    rfl
  | false =>
    obtain rfl : k = 0 := by
      have : k ≠ 1 := fun he => by simpa using hok.mpr he
      omega
    rw [hm, mapped_zero]
    rfl

/-! ## `uvmunmap` -/

/-- The map `m` without the `n` pages from `v` on. -/
def unmapped (m : ℕ → ℕ) (v n : ℕ) : ℕ → ℕ := fun u => if v ≤ u ∧ u < v + n then 0 else m u

/-- The pages that the `n` virtual pages from `v` on are mapped to. -/
def frames (m : ℕ → ℕ) (v n : ℕ) : List ℕ := (List.range' v n).map fun u => PTE2PA (m u)

theorem frames_congr (h : ∀ u, v ≤ u → u < v + n → m' u = m u) : frames m' v n = frames m v n := by
  refine List.map_congr_left fun u hu => ?_
  rw [List.mem_range'_1] at hu
  rw [h u hu.1 hu.2]

theorem frames_succ : frames m v (n + 1) = PTE2PA (m v) :: frames m (v + 1) n := by
  rw [frames, List.range'_succ, List.map_cons, frames]

theorem unmapped_succ : unmapped (update m v 0) (v + 1) n = unmapped m v (n + 1) := by
  funext u
  unfold unmapped
  by_cases hu : u = v
  · subst hu
    rw [if_neg (by omega), if_pos (by omega), update_self]
  · rw [update_of_ne hu]
    by_cases hin : v + 1 ≤ u ∧ u < v + 1 + n
    · rw [if_pos hin, if_pos (by omega)]
    · rw [if_neg hin, if_neg (by omega)]

/-- An entry that `uvmunmap` removes: it is valid, and not only that. -/
def Leaf (w : ℕ) : Prop := w &&& PTE_V ≠ 0 ∧ PTE_FLAGS w ≠ PTE_V

theorem Leaf.slot (h : Leaf (σ.map root v)) : ∃ q i, σ.slot 2 root v = some (q, i) := by
  cases hs : σ.slot 2 root v with
  | none =>
    have hv := h.1
    rw [map_of_none hs] at hv
    exact absurd (by decide) hv
  | some s => exact ⟨s.1, s.2, rfl⟩

section Unmap

variable {n : ℕ} {doFree : Bool}

/-- The pages that are freed. -/
def freed (doFree : Bool) (m : ℕ → ℕ) (v n : ℕ) : List ℕ := if doFree then frames m v n else []

/-- One round of `uvmunmap` -/
theorem ends_unmapOne (h : Tree ram σ 2 root) (hv : v < 2 ^ 26)
    (hnd : (σ.free ++ (freed doFree (σ.map root) v 1 ++ σ.pages 2 root)).Nodup)
    (hhas : ∀ f ∈ freed doFree (σ.map root) v 1, ram.Has f) (hs : σ.slot 2 root v = some (q, i)) :
    Ends (if doFree then kfree ram (PTE2PA (σ.pte q i)) else pure () : Code Unit) σ fun _ τ =>
      Ends (setPte q i 0) τ fun _ σ' => Tree ram σ' 2 root ∧ σ'.pages 2 root = σ.pages 2 root ∧
        Trade σ σ' (freed doFree (σ.map root) v 1 ++ σ.pages 2 root) (σ.pages 2 root) ∧ σ'.map root = update (σ.map root) v 0 := by
  have hpte : σ.map root v = σ.pte q i := map_of_slot (by omega) hs
  -- the page goes to the free list, which the tree does not notice
  have hfree : ∀ τ, Trade σ τ (freed doFree (σ.map root) v 1) [] → Ends (setPte q i 0) τ fun _ σ' =>
      Tree ram σ' 2 root ∧ σ'.pages 2 root = σ.pages 2 root ∧
        Trade σ σ' (freed doFree (σ.map root) v 1 ++ σ.pages 2 root) (σ.pages 2 root) ∧ σ'.map root = update (σ.map root) v 0 := by
    intro τ ht
    obtain ⟨hτ, hpages, hsame⟩ := h.traded ht hnd hhas
    have hs' : τ.slot 2 root v = some (q, i) := (hsame v).1.trans hs
    obtain ⟨hset, hpages', htrade, hmap⟩ := hτ.set (by omega) hs' (show 0 < 2 ^ 64 by decide) rfl
    rw [ends_setPte]
    refine ⟨hset, hpages'.trans hpages, ?_, ?_⟩
    · rw [hpages', hpages] at htrade
      exact ht.frame.trans htrade
    · rw [hmap, map_congr fun u => (hsame u).2]
  cases doFree with
  | false => exact ends_pure.mpr (hfree σ Trade.refl)
  | true =>
    have hone : freed true (σ.map root) v 1 = [PTE2PA (σ.pte q i)] := by
      rw [freed, if_pos rfl, frames_succ, hpte]
      rfl
    rw [if_pos rfl]
    refine ends_kfree (hhas _ (by rw [hone]; exact List.mem_singleton_self _)) fun τ ht => hfree τ ?_
    rwa [hone]

theorem freed_succ : freed doFree m v (n + 1) = freed doFree m v 1 ++ freed doFree m (v + 1) n := by
  cases doFree with
  | false => rfl
  | true =>
    simp only [freed, if_true, frames_succ]
    rfl

theorem freed_congr (h : ∀ u, v ≤ u → u < v + n → m' u = m u) : freed doFree m' v n = freed doFree m v n := by
  rw [freed, frames_congr h, freed]

theorem ends_uvmunmapLoop {stop : ℕ} (h : Tree ram σ 2 root) (hv : v + n ≤ 2 ^ 26) (hstop : stop = (v + n) * PGSIZE)
    (hleaf : ∀ u, v ≤ u → u < v + n → Leaf (σ.map root u))
    (hnd : (σ.free ++ (freed doFree (σ.map root) v n ++ σ.pages 2 root)).Nodup)
    (hhas : ∀ f ∈ freed doFree (σ.map root) v n, ram.Has f) :
    Ends (uvmunmapLoop ram root stop doFree n (v * PGSIZE)) σ fun _ σ' => Tree ram σ' 2 root ∧ σ'.pages 2 root = σ.pages 2 root ∧
      Trade σ σ' (freed doFree (σ.map root) v n ++ σ.pages 2 root) (σ.pages 2 root) ∧ σ'.map root = unmapped (σ.map root) v n := by
  induction n generalizing v σ with
  | zero =>
    have hnone : freed doFree (σ.map root) v 0 = [] := by cases doFree <;> rfl
    refine ends_pure.mpr ⟨h, rfl, ?_, ?_⟩
    · rw [hnone]
      exact Trade.refl
    · funext u
      exact (if_neg (by omega)).symm
  | succ n ih =>
    have hva : v * PGSIZE < MAXVA := by
      simp only [PGSIZE, MAXVA]
      omega
    have hlt : v * PGSIZE < stop := by
      rw [hstop]
      simp only [PGSIZE]
      omega
    have hleafv := hleaf v (by omega) (by omega)
    obtain ⟨q, i, hs⟩ := hleafv.slot
    have hpte : σ.map root v = σ.pte q i := map_of_slot (by omega) hs
    rw [hpte] at hleafv
    rw [freed_succ, List.append_assoc] at hnd
    rw [freed_succ] at hhas
    have hnd1 : (σ.free ++ (freed doFree (σ.map root) v 1 ++ σ.pages 2 root)).Nodup := by
      refine hnd.sublist ?_
      exact (List.Sublist.refl _).append ((List.Sublist.refl _).append (List.sublist_append_right _ _))
    rw [uvmunmapLoop, if_pos hlt, ends_bind, ends_walk hva, Nat.mul_div_cancel _ (by decide), hs]
    dsimp only
    rw [ends_bind, ends_get, if_neg hleafv.1, if_neg hleafv.2, ends_bind]
    refine (ends_unmapOne h (by omega) hnd1 (fun f hf => hhas f (List.mem_append_left _ hf)) hs).mono
      fun _ τ hτ => ?_
    rw [ends_bind]
    refine hτ.mono fun _ τ hτ => ?_
    obtain ⟨htree, hpages, htrade, hmap⟩ := hτ
    have hnext : v * PGSIZE + PGSIZE = (v + 1) * PGSIZE := (Nat.succ_mul v PGSIZE).symm
    have hrest : freed doFree (τ.map root) (v + 1) n = freed doFree (σ.map root) (v + 1) n := by
      rw [hmap]
      exact freed_congr fun u hu _ => update_of_ne (by omega) _ _
    -- what is still to be freed is on neither side of the trade
    have hframe : Trade σ τ (freed doFree (σ.map root) v 1 ++ (freed doFree (σ.map root) (v + 1) n ++ σ.pages 2 root))
        (freed doFree (τ.map root) (v + 1) n ++ τ.pages 2 root) := by
      rw [hrest, hpages]
      have hall : Trade σ τ (freed doFree (σ.map root) v 1 ++ σ.pages 2 root ++ freed doFree (σ.map root) (v + 1) n)
          (σ.pages 2 root ++ freed doFree (σ.map root) (v + 1) n) := htrade.frame
      refine hall.of_perm ?_ List.perm_append_comm
      rw [List.append_assoc]
      exact List.perm_append_comm.append_left _
    rw [hnext]
    refine (ih htree (by omega) (by rw [hstop]; congr 1; omega) (fun u hu hlt => ?_) (hframe.nodup hnd) fun f hf => ?_).mono
      fun _ σ' hend => ?_
    · rw [hmap, update_of_ne (by omega)]
      exact hleaf u (by omega) (by omega)
    · rw [hrest] at hf
      exact hhas f (List.mem_append_right _ hf)
    · obtain ⟨htree', hpages', htrade', hmap'⟩ := hend
      refine ⟨htree', hpages'.trans hpages, ?_, ?_⟩
      · rw [freed_succ, List.append_assoc]
        rw [hpages] at htrade'
        exact hframe.trans (hpages ▸ htrade')
      · rw [hmap', hmap, unmapped_succ]

/-- **`uvmunmap`** removes the entries of the pages and frees what they are mapped to. -/
theorem ends_uvmunmap (h : Tree ram σ 2 root) (hv : v + n ≤ 2 ^ 26) (hleaf : ∀ u, v ≤ u → u < v + n → Leaf (σ.map root u))
    (hnd : (σ.free ++ (freed doFree (σ.map root) v n ++ σ.pages 2 root)).Nodup)
    (hhas : ∀ f ∈ freed doFree (σ.map root) v n, ram.Has f) :
    Ends (uvmunmap ram root (v * PGSIZE) n doFree) σ fun _ σ' => Tree ram σ' 2 root ∧ σ'.pages 2 root = σ.pages 2 root ∧
      Trade σ σ' (freed doFree (σ.map root) v n ++ σ.pages 2 root) (σ.pages 2 root) ∧ σ'.map root = unmapped (σ.map root) v n := by
  have hstop : (v * PGSIZE + n * PGSIZE) % 2 ^ 64 = (v + n) * PGSIZE := by
    simp only [PGSIZE]
    omega
  rw [uvmunmap, if_neg (by simp)]
  exact ends_uvmunmapLoop h hv hstop hleaf hnd hhas

end Unmap

/-! ## `freewalk` -/

/-- The tables from the entries from `i` on. -/
def restOf (σ : Phys) (l p i : ℕ) : List ℕ := (List.range' i (512 - i)).flatMap (Radix.kids 512 child σ.pte l p)

theorem restOf_succ (hi : i < 512) : restOf σ l p i = Radix.kids 512 child σ.pte l p i ++ restOf σ l p (i + 1) := by
  have hlen : 512 - i = 512 - (i + 1) + 1 := by omega
  rw [restOf, hlen, List.range'_succ, List.flatMap_cons, restOf]

theorem pages_eq_restOf : σ.pages (l + 1) p = p :: restOf σ l p 0 := by
  rw [Phys.pages, Radix.pages_succ, List.range_eq_range', restOf]

/-- The words below entry `i`. -/
theorem word_kid (hi : i < 512) (hc : child (σ.pte p i) = some c) (hleaf : ∀ v, σ.word (l + 1) p v &&& PTE_V = 0) (v : ℕ) :
    σ.word l c v &&& PTE_V = 0 := by
  have hpos : 0 < 512 ^ (l + 1) := Nat.pow_pos (by decide)
  -- a key with digit `i` and the lower digits of `v`
  obtain ⟨u, hu⟩ : ∃ u, u = v % 512 ^ (l + 1) + 512 ^ (l + 1) * i := ⟨_, rfl⟩
  have hdigit : u / 512 ^ (l + 1) % 512 = i := by
    rw [hu, Nat.add_mul_div_left _ _ hpos, Nat.div_eq_of_lt (Nat.mod_lt _ hpos), Nat.zero_add, Nat.mod_eq_of_lt hi]
  have hlow : u % 512 ^ (l + 1) = v % 512 ^ (l + 1) := by
    rw [hu, Nat.add_mul_mod_self_left, Nat.mod_mod]
  have hword := hleaf u
  rw [Phys.word, Radix.word_succ_some (hdigit.symm ▸ hc), Radix.word, Radix.slot_digits hlow] at hword
  rw [Phys.word, Radix.word]
  exact hword

/-- What the loop of `freewalk` over the entries of `p` has left after `i` rounds. -/
structure Freeing (σ s : Phys) (l p i : ℕ) : Prop where
  trade : Trade σ s (σ.pages (l + 1) p) (p :: restOf σ l p i)
  pte : ∀ j, i ≤ j → s.pte p j = σ.pte p j
  mem : ∀ q ∈ restOf σ l p i, s.mem q = σ.mem q

theorem Freeing.kid (h : Tree ram σ (l + 1) p) (hf : Freeing σ s l p i) (hi : i < 512) (hc : child (σ.pte p i) = some c) :
    Tree ram s l c ∧ s.pages l c = σ.pages l c ∧ ∀ v, s.slot l c v = σ.slot l c v ∧ s.word l c v = σ.word l c v := by
  have hkids : restOf σ l p i = σ.pages l c ++ restOf σ l p (i + 1) := by rw [restOf_succ hi, Radix.kids_some hc]
  have hnd := hf.trade.nodup h.nodup
  rw [hkids] at hnd
  refine (h.kid hi hc).congr (fun q hq => hf.mem q ?_) ?_ fun q hq => ?_
  · rw [hkids]
    exact List.mem_append_left _ hq
  · refine hnd.sublist ((List.Sublist.refl _).append ?_)
    exact (List.sublist_append_left _ _).trans (List.sublist_cons_self _ _)
  · exact hf.trade.all h.has q (List.mem_append_left _ hq)

/-- The tables below entry `i` have been freed, and the entry cleared. -/
theorem Freeing.next {s' : Phys} (h : Tree ram σ (l + 1) p) (hf : Freeing σ s l p i) (hi : i < 512)
    (hc : child (σ.pte p i) = some c) (ht : Trade s s' (σ.pages l c) []) :
    Freeing σ (s'.setPage p (setLe (s'.mem p) (8 * i) 8 0)) l p (i + 1) := by
  have hkids : restOf σ l p i = σ.pages l c ++ restOf σ l p (i + 1) := by rw [restOf_succ hi, Radix.kids_some hc]
  have hnd := hf.trade.nodup h.nodup
  have hframe : Trade s s' (p :: restOf σ l p i) (p :: restOf σ l p (i + 1)) := by
    have hall : Trade s s' (σ.pages l c ++ p :: restOf σ l p (i + 1)) ([] ++ p :: restOf σ l p (i + 1)) := ht.frame
    rw [hkids]
    exact hall.of_perm List.perm_middle (List.Perm.refl _)
  have hdis : ∀ q ∈ p :: restOf σ l p (i + 1), s'.mem q = s.mem q := by
    intro q hq
    refine ht.mem q fun hin => ?_
    have hperm : (s.free ++ (p :: restOf σ l p i)).Perm ((s.free ++ σ.pages l c) ++ (p :: restOf σ l p (i + 1))) := by
      rw [hkids, List.append_assoc]
      exact List.perm_middle.symm.append_left _
    exact List.disjoint_of_nodup_append (hperm.nodup_iff.mp hnd) hin hq
  refine ⟨(hf.trade.trans hframe).trans (Trade.setPage List.mem_cons_self), fun j hj => ?_, fun q hq => ?_⟩
  · rw [pte_setPte (by decide), if_neg (by omega), ← hf.pte j (by omega)]
    exact pte_congr (hdis p List.mem_cons_self)
  · have hqp : q ≠ p := by
      rintro rfl
      have hnd' := (List.nodup_append.mp hnd).2.1
      rw [List.nodup_cons, hkids] at hnd'
      exact hnd'.1 (List.mem_append_right _ hq)
    rw [mem_setPage_of_ne hqp, hdis q (List.mem_cons_of_mem _ hq)]
    refine hf.mem q ?_
    rw [hkids]
    exact List.mem_append_right _ hq

theorem Freeing.skip (hf : Freeing σ s l p i) (hi : i < 512) (hc : child (σ.pte p i) = none) :
    Freeing σ s l p (i + 1) := by
  have hkids : restOf σ l p i = restOf σ l p (i + 1) := by rw [restOf_succ hi, Radix.kids_none hc, List.nil_append]
  exact ⟨hkids ▸ hf.trade, fun j hj => hf.pte j (by omega), hkids ▸ hf.mem⟩

/-- **`freewalk`** frees all tables of a tree without leaves. -/
theorem ends_freewalk (h : Tree ram σ l p) (hleaf : ∀ v, σ.word l p v &&& PTE_V = 0) :
    Ends (freewalk ram (l + 1) p) σ fun _ σ' => Trade σ σ' (σ.pages l p) [] := by
  induction l generalizing σ p with
  | zero =>
    have hall : ∀ i < 512, σ.pte p i &&& PTE_V = 0 := by
      intro i hi
      have hs : σ.slot 0 p i = some (p, i) := by rw [Phys.slot, Radix.slot, Nat.mod_eq_of_lt hi]
      have hword : σ.word 0 p i = σ.pte p i := Radix.word_some hs
      rw [← hword]
      exact hleaf i
    have hpages : σ.pages 0 p = [p] := Radix.pages_zero
    rw [freewalk, ends_bind]
    refine (Ends.forM_range (fun _ s => s = σ) 512 rfl fun i hi s hs => ?_).mono fun _ s hs => ?_
    · subst hs
      have hz := hall i hi
      rw [ends_bind, ends_get, if_neg fun he => he.1 hz, if_neg fun he => he hz, ends_pure]
    · subst hs
      refine ends_kfree (h.has p (List.mem_append_right _ Radix.self_mem)) fun σ' ht => ?_
      rwa [hpages]
  | succ l ih =>
    rw [freewalk, ends_bind]
    have hstart : Freeing σ σ l p 0 := ⟨pages_eq_restOf ▸ Trade.refl, fun _ _ => rfl, fun _ _ => rfl⟩
    refine (Ends.forM_range (fun i s => Freeing σ s l p i) 512 hstart fun i hi s hf => ?_).mono fun _ s hf => ?_
    · rw [ends_bind, ends_get, hf.pte i le_rfl]
      by_cases hv : σ.pte p i &&& PTE_V = 0
      · have hc : child (σ.pte p i) = none := if_neg fun he => he hv
        rw [if_neg fun he => he.1 hv, if_neg fun he => he hv, ends_pure]
        exact hf.skip hi hc
      · have hc : child (σ.pte p i) = some (PTE2PA (σ.pte p i)) := if_pos hv
        obtain ⟨htree, hpages, hsame⟩ := hf.kid h hi hc
        rw [if_pos ⟨hv, (h.inner.good hi).of_child hc⟩, ends_bind]
        refine (ih htree fun v => ?_).mono fun _ s' ht => ?_
        · rw [(hsame v).2]
          exact word_kid hi hc hleaf v
        · rw [ends_setPte]
          exact hf.next h hi hc (hpages ▸ ht)
    · have hend : restOf σ l p 512 = [] := rfl
      refine ends_kfree (h.has p (List.mem_append_right _ Radix.self_mem)) fun σ' ht => ?_
      have htrade := hf.trade
      rw [hend] at htrade
      exact htrade.trans ht

/-! ## An empty page table -/

theorem ends_uvmcreate (hnd : σ.free.Nodup) (hhas : ∀ q ∈ σ.free, ram.Has q) : Ends uvmcreate σ fun r σ' =>
    (r = none ∧ Trade σ σ' [] []) ∨ ∃ root, r = some root ∧ Tree ram σ' 2 root ∧ Trade σ σ' [] (σ'.pages 2 root) ∧
      σ'.map root = fun _ => 0 := by
  rw [uvmcreate, ends_bind]
  refine ends_kalloc (fun σ' ht => ends_pure.mpr (.inl ⟨rfl, ht⟩)) fun root τ hroot ht => ?_
  rw [ends_bind, ends_memset, ends_pure]
  obtain ⟨σ', hσ⟩ : ∃ σ', σ' = τ.setPage root fun _ => 0 := ⟨_, rfl⟩
  rw [← hσ]
  have hempty : ∀ i < 512, σ'.pte root i = 0 := by
    intro i _
    rw [hσ]
    exact pte_zero mem_setPage_self
  have hpages : σ'.pages 2 root = [root] := Radix.pages_empty child_zero hempty
  have htrade : Trade σ σ' [] [root] := ht.trans (hσ ▸ Trade.setPage (List.mem_singleton_self root))
  refine .inr ⟨root, rfl, ⟨?_, ?_, Radix.Inner.empty child_zero (.inl rfl) hempty⟩, hpages.symm ▸ htrade, funext fun v => ?_⟩
  · rw [hpages]
    exact htrade.nodup (by simpa using hnd)
  · rw [hpages]
    exact htrade.all (by simpa using hhas)
  · rw [Phys.map]
    split_ifs
    · exact Radix.word_empty (by decide) child_zero hempty
    · rfl

end Xv6Mlfq.Vm
