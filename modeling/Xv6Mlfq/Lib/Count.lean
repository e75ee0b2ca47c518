import Xv6Mlfq.Lib.Index
import Mathlib.Data.Fintype.BigOperators

/-!
# Lib.Count — sums and counts over a table, after the update of one entry

`sum_change`, `sum_update` and `count_update` say by how much a sum, or the number of entries with a property, changes when one entry
of a table does; stated without subtraction, for `omega`.
-/

namespace Tally

open Finset Function

variable {ι α : Type*} [Fintype ι]

/-- Two functions that differ at one index have sums that differ by the two values there. -/
theorem sum_change {κ : Type*} [DecidableEq κ] {S : Finset κ} {f g : κ → ℕ} {i : κ} (hi : i ∈ S)
    (hoff : ∀ j ∈ S, j ≠ i → g j = f j) : ∑ j ∈ S, g j + f i = ∑ j ∈ S, f j + g i := by
  have hrest : ∑ j ∈ S.erase i, g j = ∑ j ∈ S.erase i, f j :=
    sum_congr rfl fun j hj => hoff j (mem_of_mem_erase hj) (ne_of_mem_erase hj)
  rw [← add_sum_erase S g hi, ← add_sum_erase S f hi, hrest]
  omega

theorem sum_update [DecidableEq ι] (g : α → ℕ) (f : ι → α) (i : ι) (x : α) :
    ∑ j, g (update f i x j) + g (f i) = ∑ j, g (f j) + g x := by
  have hchange := sum_change (f := fun j => g (f j)) (g := fun j => g (update f i x j)) (mem_univ i) fun j _ hj => by
    rw [update_of_ne hj]
  rw [update_self] at hchange
  exact hchange

/-- The number of entries of `f` with property `P`. -/
def count (P : α → Prop) [DecidablePred P] (f : ι → α) : ℕ := (univ.filter fun j => P (f j)).card

variable (P : α → Prop) [DecidablePred P] {f : ι → α}

theorem count_eq_sum (f : ι → α) : count P f = ∑ j, if P (f j) then 1 else 0 := card_filter _ _

theorem count_update [DecidableEq ι] (f : ι → α) (i : ι) (x : α) :
    count P (update f i x) + (if P (f i) then 1 else 0) = count P f + if P x then 1 else 0 := by
  rw [count_eq_sum, count_eq_sum]
  exact sum_update (fun y => if P y then 1 else 0) f i x

theorem count_eq_zero (hf : ∀ i, ¬ P (f i)) : count P f = 0 := by
  rw [count, card_eq_zero, filter_eq_empty_iff]
  exact fun i _ => hf i

theorem count_pos {i : ι} (hi : P (f i)) : 0 < count P f :=
  card_pos.mpr ⟨i, mem_filter.mpr ⟨mem_univ i, hi⟩⟩

end Tally
