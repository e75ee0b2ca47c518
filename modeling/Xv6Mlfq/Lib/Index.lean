import Mathlib.Algebra.GroupWithZero.Nat
import Mathlib.Logic.Function.Basic

/-!
# Lib.Index — tables and their indices

A numeral of `Fin n` needs that `n` is not zero.  For the small types of which single elements are written, that is a fact with a
name, to which every definition with such a numeral refers.  `update_keeps` is about what an update of one entry leaves of all.
-/

namespace Index

instance ne_zero_one : NeZero 1 := ⟨Nat.one_ne_zero⟩

instance ne_zero_two : NeZero 2 := ⟨Nat.succ_ne_zero 1⟩

instance ne_zero_three : NeZero 3 := ⟨Nat.succ_ne_zero 2⟩

instance ne_zero_eight : NeZero 8 := ⟨Nat.succ_ne_zero 7⟩

instance ne_zero_sixteen : NeZero 16 := ⟨Nat.succ_ne_zero 15⟩

end Index

/-- A field that the new entry shares with the old one is the same in all entries. -/
theorem Function.update_keeps {ι α β : Type*} [DecidableEq ι] {f : ι → α} {i : ι} {v : α} {g : α → β} (h : g v = g (f i)) (j : ι) :
    g (Function.update f i v j) = g (f j) := by
  rcases eq_or_ne j i with rfl | hj
  · rw [Function.update_self, h]
  · rw [Function.update_of_ne hj]
