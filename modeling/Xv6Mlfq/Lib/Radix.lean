import Mathlib.Data.List.Flatten
import Mathlib.Data.List.Nodup
import Mathlib.Data.List.Perm.Basic
import Mathlib.Data.List.Range
import Mathlib.Data.Nat.ModEq

/-!
# Lib.Radix — trees of tables that are indexed by the digits of a key

A table has `fan` cells.  A cell of a table above the lowest level may point to a table of the level below; `child` says which.  The
cell for key `v` at level `l` is the digit `v / fan ^ l % fan`.

* `slot l p v`: the cell for `v` at the lowest level, if the tables on the way to it are there.
* `word zero l p v`: what is in it, `zero` if there is no such cell.
* `pages l p`: the tables of the tree, each as often as it is pointed to.
* `Inner good l p`: the cells above the lowest level are `good`.
* `Same`: two memories have the same tree.  `Same.of_agree`: if the tables have the same cells; `Same.leaf`: if one cell of the lowest
  level differs.
* `slot_inj`: different keys have different cells, if no table is there twice.
* `word_leaf`: a cell of the lowest level changes the word of its key.
* `pages_at`, `word_at`, `Inner.at`: what is left if the tree below one cell changes.
-/

namespace Radix

variable {P W : Type*} (fan : ℕ) (child : W → Option P) {v' : ℕ}

section Defs

variable (cell : P → ℕ → W)

/-- The cell of key `v` at the lowest level, from the table `p` at level `l` on. -/
def slot : ℕ → P → ℕ → Option (P × ℕ)
  | 0, p, v => some (p, v % fan)
  | l + 1, p, v => (child (cell p (v / fan ^ (l + 1) % fan))).bind fun q => slot l q v

/-- The word of key `v`. -/
def word (zero : W) (l : ℕ) (p : P) (v : ℕ) : W := ((slot fan child cell l p v).map fun s => cell s.1 s.2).getD zero

/-- The tables from `p` at level `l` on. -/
def pages : ℕ → P → List P
  | 0, p => [p]
  | l + 1, p => p :: (List.range fan).flatMap fun i => ((child (cell p i)).map (pages l)).getD []

/-- The tables from cell `i` of `p` on, which is at level `l + 1`. -/
def kids (l : ℕ) (p : P) (i : ℕ) : List P := ((child (cell p i)).map (pages fan child cell l)).getD []

/-- The cells above the lowest level are `good`. -/
def Inner (good : W → Prop) : ℕ → P → Prop
  | 0, _ => True
  | l + 1, p => ∀ i < fan, good (cell p i) ∧ ∀ c, child (cell p i) = some c → Inner good l c

end Defs

variable {fan child} {cell cell' : P → ℕ → W} {l i j v : ℕ} {p q c : P}

theorem pages_zero : pages fan child cell 0 p = [p] := rfl

theorem pages_succ : pages fan child cell (l + 1) p = p :: (List.range fan).flatMap (kids fan child cell l p) := rfl

theorem self_mem : p ∈ pages fan child cell l p := by
  cases l with
  | zero => exact List.mem_singleton_self p
  | succ l => exact List.mem_cons_self

theorem kids_some (h : child (cell p i) = some c) : kids fan child cell l p i = pages fan child cell l c := by
  rw [kids, h]
  rfl

theorem kids_none (h : child (cell p i) = none) : kids fan child cell l p i = [] := by
  rw [kids, h]
  rfl

theorem Inner.good {good : W → Prop} (h : Inner fan child cell good (l + 1) p) (hi : i < fan) : good (cell p i) := (h i hi).1

theorem Inner.kid {good : W → Prop} (h : Inner fan child cell good (l + 1) p) (hi : i < fan) (hc : child (cell p i) = some c) :
    Inner fan child cell good l c := (h i hi).2 c hc

theorem mem_pages_of_kid (hi : i < fan) (hc : child (cell p i) = some c) (hq : q ∈ pages fan child cell l c) :
    q ∈ pages fan child cell (l + 1) p := by
  rw [pages_succ]
  refine List.mem_cons_of_mem _ (List.mem_flatMap.mpr ⟨i, List.mem_range.mpr hi, ?_⟩)
  rwa [kids_some hc]

/-- A tree in which no table is there twice, by its parts. -/
theorem nodup_kid (h : (pages fan child cell (l + 1) p).Nodup) (hi : i < fan) (hc : child (cell p i) = some c) :
    (pages fan child cell l c).Nodup ∧ p ∉ pages fan child cell l c := by
  rw [pages_succ, List.nodup_cons, List.nodup_flatMap] at h
  obtain ⟨hp, hnd, -⟩ := h
  have hmem : i ∈ List.range fan := List.mem_range.mpr hi
  refine ⟨kids_some hc ▸ hnd i hmem, fun hpc => hp ?_⟩
  exact List.mem_flatMap.mpr ⟨i, hmem, (kids_some hc).symm ▸ hpc⟩

theorem disjoint_kids {c' : P} (h : (pages fan child cell (l + 1) p).Nodup) (hi : i < fan) (hj : j < fan) (hij : i ≠ j)
    (hc : child (cell p i) = some c) (hc' : child (cell p j) = some c') :
    (pages fan child cell l c).Disjoint (pages fan child cell l c') := by
  rw [pages_succ, List.nodup_cons, List.nodup_flatMap] at h
  have hsymm : Std.Symm (Function.onFun List.Disjoint (kids fan child cell l p)) := ⟨fun _ _ h => List.disjoint_symm h⟩
  have hdis := h.2.2.forall (List.mem_range.mpr hi) (List.mem_range.mpr hj) hij
  change (kids fan child cell l p i).Disjoint (kids fan child cell l p j) at hdis
  rw [kids_some hc, kids_some hc'] at hdis
  exact hdis

/-! ## Where a key is -/

theorem slot_mem (hfan : 0 < fan) (h : slot fan child cell l p v = some (q, j)) :
    q ∈ pages fan child cell l p ∧ j = v % fan := by
  induction l generalizing p with
  | zero =>
    cases h
    exact ⟨self_mem, rfl⟩
  | succ l ih =>
    obtain ⟨c, hc, hs⟩ := Option.bind_eq_some_iff.mp h
    obtain ⟨hq, hj⟩ := ih hs
    exact ⟨mem_pages_of_kid (Nat.mod_lt _ hfan) hc hq, hj⟩

/-- Keys that differ in a digit have different cells. -/
theorem slot_inj (hfan : 0 < fan) (hnd : (pages fan child cell l p).Nodup)
    (h : slot fan child cell l p v = some (q, j)) (h' : slot fan child cell l p v' = some (q, j)) :
    v % fan ^ (l + 1) = v' % fan ^ (l + 1) := by
  induction l generalizing p with
  | zero =>
    have hj := (slot_mem hfan h).2
    have hj' := (slot_mem hfan h').2
    rw [Nat.zero_add, Nat.pow_one, ← hj, hj']
  | succ l ih =>
    obtain ⟨c, hc, hs⟩ := Option.bind_eq_some_iff.mp h
    obtain ⟨c', hc', hs'⟩ := Option.bind_eq_some_iff.mp h'
    have hi : v / fan ^ (l + 1) % fan < fan := Nat.mod_lt _ hfan
    have hi' : v' / fan ^ (l + 1) % fan < fan := Nat.mod_lt _ hfan
    -- the highest digits agree, or the cells would be in different parts of the tree
    by_cases hd : v / fan ^ (l + 1) % fan = v' / fan ^ (l + 1) % fan
    · obtain rfl : c = c' := by
        rw [hd, hc'] at hc
        exact (Option.some_inj.mp hc).symm
      have hlow := ih (nodup_kid hnd hi hc).1 hs hs'
      rw [Nat.pow_succ fan (l + 1), Nat.mod_mul, Nat.mod_mul, hlow, hd]
    · exact absurd (slot_mem hfan hs').1 (disjoint_kids hnd hi hi' hd hc hc' (slot_mem hfan hs).1)

/-- The cell depends on the digits that a table of its level looks at. -/
theorem slot_digits (h : v % fan ^ (l + 1) = v' % fan ^ (l + 1)) :
    slot fan child cell l p v = slot fan child cell l p v' := by
  induction l generalizing p with
  | zero =>
    rw [Nat.zero_add, Nat.pow_one] at h
    rw [slot, slot, h]
  | succ l ih =>
    have hlow : v % fan ^ (l + 1) = v' % fan ^ (l + 1) := by
      rw [Nat.pow_succ fan (l + 1)] at h
      exact Nat.ModEq.of_mul_right _ h
    have hhigh : v / fan ^ (l + 1) % fan = v' / fan ^ (l + 1) % fan := by
      rw [← Nat.mod_mul_right_div_self, ← Nat.mod_mul_right_div_self, ← Nat.pow_succ, h]
    rw [slot, slot, hhigh]
    exact Option.bind_congr fun c _ => ih hlow

/-! ## The same tree in two memories -/

variable (fan child cell cell' l p) in
structure Same : Prop where
  pages : pages fan child cell' l p = pages fan child cell l p
  slot : ∀ v, slot fan child cell' l p v = slot fan child cell l p v
  inner : ∀ good, Inner fan child cell good l p → Inner fan child cell' good l p

theorem Same.zero : Same fan child cell cell' 0 p := ⟨rfl, fun _ => rfl, fun _ _ => trivial⟩

theorem kids_same (hcell : cell' p i = cell p i) (h : ∀ c, child (cell p i) = some c → Same fan child cell cell' l c) :
    kids fan child cell' l p i = kids fan child cell l p i := by
  cases hc : child (cell p i) with
  | none => rw [kids_none hc, kids_none (hcell ▸ hc)]
  | some c => rw [kids_some hc, kids_some (hcell ▸ hc), (h c hc).pages]

theorem slot_same (hcell : cell' p (v / fan ^ (l + 1) % fan) = cell p (v / fan ^ (l + 1) % fan))
    (h : ∀ c, child (cell p (v / fan ^ (l + 1) % fan)) = some c → Same fan child cell cell' l c) :
    slot fan child cell' (l + 1) p v = slot fan child cell (l + 1) p v := by
  rw [slot, slot, hcell]
  exact Option.bind_congr fun c hc => (h c hc).slot v

theorem Same.succ (hfan : 0 < fan) (hp : ∀ i < fan, cell' p i = cell p i)
    (h : ∀ i < fan, ∀ c, child (cell p i) = some c → Same fan child cell cell' l c) : Same fan child cell cell' (l + 1) p where
  pages := by
    rw [pages_succ, pages_succ]
    congr 1
    exact List.flatMap_congr fun i hi => kids_same (hp i (List.mem_range.mp hi)) (h i (List.mem_range.mp hi))
  slot := by
    intro v
    have hi : v / fan ^ (l + 1) % fan < fan := Nat.mod_lt _ hfan
    exact slot_same (hp _ hi) (h _ hi)
  inner := by
    intro good hin i hi
    rw [hp i hi]
    exact ⟨(hin i hi).1, fun c hc => (h i hi c hc).inner good ((hin i hi).2 c hc)⟩

/-- Memories that agree on the tables have the same tree. -/
theorem Same.of_agree (hfan : 0 < fan) (h : ∀ q ∈ Radix.pages fan child cell l p, ∀ i < fan, cell' q i = cell q i) :
    Same fan child cell cell' l p := by
  induction l generalizing p with
  | zero => exact Same.zero
  | succ l ih =>
    exact Same.succ hfan (h p self_mem) fun i hi c hc => ih fun q hq => h q (mem_pages_of_kid hi hc hq)

/-- A cell of the lowest level does not change the tree. -/
theorem Same.leaf (hfan : 0 < fan) (hnd : (Radix.pages fan child cell l p).Nodup)
    (hs : Radix.slot fan child cell l p v = some (q, j))
    (h : ∀ r ∈ Radix.pages fan child cell l p, ∀ i < fan, r = q ∧ i = j ∨ cell' r i = cell r i) :
    Same fan child cell cell' l p := by
  induction l generalizing p with
  | zero => exact Same.zero
  | succ l ih =>
    obtain ⟨c, hc, hs⟩ := Option.bind_eq_some_iff.mp hs
    have hd : v / fan ^ (l + 1) % fan < fan := Nat.mod_lt _ hfan
    have hq := (slot_mem hfan hs).1
    have hpq : p ≠ q := by
      rintro rfl
      exact (nodup_kid hnd hd hc).2 hq
    refine Same.succ hfan (fun i hi => (h p self_mem i hi).resolve_left fun he => hpq he.1) fun i hi c' hc' => ?_
    by_cases hid : i = v / fan ^ (l + 1) % fan
    · subst hid
      rw [hc] at hc'
      cases hc'
      exact ih (nodup_kid hnd hd hc).1 hs fun r hr => h r (mem_pages_of_kid hd hc hr)
    · refine Same.of_agree hfan fun r hr k hk => (h r (mem_pages_of_kid hi hc' hr) k hk).resolve_left ?_
      rintro ⟨rfl, -⟩
      exact disjoint_kids hnd hi hd hid hc' hc hr hq

/-! ## Words -/

section Words

variable {zero w : W} {v' : ℕ}

theorem word_some (h : slot fan child cell l p v = some (q, j)) : word fan child cell zero l p v = cell q j := by
  rw [word, h]
  rfl

theorem word_none (h : slot fan child cell l p v = none) : word fan child cell zero l p v = zero := by
  rw [word, h]
  rfl

theorem word_succ_some (h : child (cell p (v / fan ^ (l + 1) % fan)) = some c) :
    word fan child cell zero (l + 1) p v = word fan child cell zero l c v := by
  rw [word, slot, h]
  rfl

theorem word_succ_none (h : child (cell p (v / fan ^ (l + 1) % fan)) = none) : word fan child cell zero (l + 1) p v = zero := by
  rw [word, slot, h]
  rfl

theorem word_of_agree (hfan : 0 < fan) (h : ∀ q ∈ pages fan child cell l p, ∀ i < fan, cell' q i = cell q i) :
    word fan child cell' zero l p v = word fan child cell zero l p v := by
  have hsame := (Same.of_agree hfan h).slot v
  cases hs : slot fan child cell l p v with
  | none => rw [word_none hs, word_none (hsame.trans hs)]
  | some s =>
    obtain ⟨hq, hj⟩ := slot_mem hfan hs
    rw [word_some hs, word_some (hsame.trans hs), h _ hq _ (hj ▸ Nat.mod_lt _ hfan)]

/-- A cell of the lowest level holds the word of one key. -/
theorem word_leaf (hfan : 0 < fan) (hnd : (pages fan child cell l p).Nodup) (hs : slot fan child cell l p v = some (q, j))
    (hw : cell' q j = w) (h : ∀ r ∈ pages fan child cell l p, ∀ i < fan, r = q ∧ i = j ∨ cell' r i = cell r i) :
    word fan child cell' zero l p v' = if v' % fan ^ (l + 1) = v % fan ^ (l + 1) then w else word fan child cell zero l p v' := by
  have hsame := (Same.leaf hfan hnd hs h).slot v'
  by_cases hv : v' % fan ^ (l + 1) = v % fan ^ (l + 1)
  · have hs' : slot fan child cell' l p v' = some (q, j) := hsame.trans ((slot_digits hv).trans hs)
    rw [if_pos hv, word_some hs', hw]
  · rw [if_neg hv]
    cases hs' : slot fan child cell l p v' with
    | none => rw [word_none hs', word_none (hsame.trans hs')]
    | some s =>
      obtain ⟨r, i⟩ := s
      obtain ⟨hr, hi⟩ := slot_mem hfan hs'
      have hne : ¬ (r = q ∧ i = j) := by
        rintro ⟨rfl, rfl⟩
        exact hv (slot_inj hfan hnd hs' hs)
      rw [word_some hs', word_some (hsame.trans hs'), (h r hr i (hi ▸ Nat.mod_lt _ hfan)).resolve_left hne]

/-- An empty table points to nothing. -/
theorem pages_empty (hzero : child zero = none) (h : ∀ i < fan, cell p i = zero) : pages fan child cell l p = [p] := by
  cases l with
  | zero => rfl
  | succ l =>
    have hkids : (List.range fan).flatMap (kids fan child cell l p) = [] := by
      rw [List.flatMap_eq_nil_iff]
      intro i hi
      exact kids_none ((h i (List.mem_range.mp hi)).symm ▸ hzero)
    rw [pages_succ, hkids]

theorem word_empty (hfan : 0 < fan) (hzero : child zero = none) (h : ∀ i < fan, cell p i = zero) :
    word fan child cell zero l p v = zero := by
  cases l with
  | zero => exact (word_some rfl).trans (h _ (Nat.mod_lt _ hfan))
  | succ l => exact word_succ_none ((h _ (Nat.mod_lt _ hfan)).symm ▸ hzero)

theorem Inner.empty {good : W → Prop} (hzero : child zero = none) (hgood : good zero) (h : ∀ i < fan, cell p i = zero) :
    Inner fan child cell good l p := by
  cases l with
  | zero => trivial
  | succ l =>
    intro i hi
    rw [h i hi, hzero]
    exact ⟨hgood, nofun⟩

end Words

/-! ## A change below one cell -/

section At

variable {d : ℕ} (hd : d < fan) (hcell : ∀ i < fan, i ≠ d → cell' p i = cell p i)
  (hkids : ∀ i < fan, i ≠ d → ∀ c, child (cell p i) = some c → ∀ q ∈ pages fan child cell l c, ∀ j < fan, cell' q j = cell q j)
include hd hcell hkids

theorem pages_at : ∃ rest, (pages fan child cell (l + 1) p).Perm (kids fan child cell l p d ++ rest) ∧
    (pages fan child cell' (l + 1) p).Perm (kids fan child cell' l p d ++ rest) := by
  obtain ⟨pre, post, hsplit⟩ := List.append_of_mem (List.mem_range.mpr hd)
  have hnd : (pre ++ d :: post).Nodup := hsplit ▸ List.nodup_range
  have hne : ∀ i ∈ pre ++ post, i < fan ∧ i ≠ d := by
    intro i hi
    have hin : i ∈ d :: (pre ++ post) := List.mem_cons_of_mem _ hi
    refine ⟨List.mem_range.mp (hsplit ▸ List.perm_middle.symm.subset hin), ?_⟩
    rintro rfl
    exact (List.nodup_cons.mp (List.perm_middle.nodup_iff.mp hnd)).1 hi
  have hrest : (pre ++ post).flatMap (kids fan child cell' l p) = (pre ++ post).flatMap (kids fan child cell l p) := by
    refine List.flatMap_congr fun i hi => ?_
    obtain ⟨hi, hid⟩ := hne i hi
    exact kids_same (hcell i hi hid) fun c hc => Same.of_agree (by omega) (hkids i hi hid c hc)
  have hperm : ∀ f : ℕ → List P, (p :: (List.range fan).flatMap f).Perm (f d ++ (p :: (pre ++ post).flatMap f)) := by
    intro f
    rw [hsplit]
    refine (List.Perm.cons p (List.perm_middle.flatMap_right f)).trans ?_
    exact List.perm_middle.symm
  refine ⟨p :: (pre ++ post).flatMap (kids fan child cell l p), hperm _, ?_⟩
  rw [← hrest]
  exact hperm _

theorem word_at {zero : W} (hv : v / fan ^ (l + 1) % fan ≠ d) :
    word fan child cell' zero (l + 1) p v = word fan child cell zero (l + 1) p v := by
  have hi : v / fan ^ (l + 1) % fan < fan := Nat.mod_lt _ (by omega)
  have hsame := hcell _ hi hv
  cases hc : child (cell p (v / fan ^ (l + 1) % fan)) with
  | none => rw [word_succ_none hc, word_succ_none (hsame ▸ hc)]
  | some c => rw [word_succ_some hc, word_succ_some (hsame ▸ hc), word_of_agree (by omega) (hkids _ hi hv c hc)]

theorem Inner.at {good : W → Prop} (h : Inner fan child cell good (l + 1) p) (hgood : good (cell' p d))
    (hin : ∀ c, child (cell' p d) = some c → Inner fan child cell' good l c) : Inner fan child cell' good (l + 1) p := by
  intro i hi
  by_cases hid : i = d
  · subst hid
    exact ⟨hgood, hin⟩
  · rw [hcell i hi hid]
    refine ⟨(h i hi).1, fun c hc => ?_⟩
    exact (Same.of_agree (by omega) (hkids i hi hid c hc)).inner good ((h i hi).2 c hc)

end At

attribute [irreducible] slot word pages kids Inner

end Radix
