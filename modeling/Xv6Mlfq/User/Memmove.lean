import Mathlib.Logic.Function.Basic
import Mathlib.Tactic.Common

/-!
# Xv6Mlfq.User.Memmove — the two `memmove`s

`memmove` of `kernel/string.c` and of `user/ulib.c`.  They choose between the two loops by different tests; `Moved` is what both
leave (`memmove_moves`).
-/

namespace Xv6Mlfq.Memory

open Function

/-- `while(n-- > 0) *dst++ = *src++` -/
def copyUp (m : ℕ → UInt8) (dst src : ℕ) : ℕ → ℕ → UInt8
  | 0 => m
  | n + 1 => copyUp (update m dst (m src)) (dst + 1) (src + 1) n

/-- `dst += n; src += n; while(n-- > 0) *--dst = *--src` -/
def copyDown (m : ℕ → UInt8) (dst src : ℕ) : ℕ → ℕ → UInt8
  | 0 => m
  | n + 1 => copyDown (update m (dst + n) (m (src + n))) dst src n

/-- `memmove` of the kernel; `n` is unsigned, and neither range wraps at the end of memory. -/
def kernelMemmove (m : ℕ → UInt8) (dst src n : ℕ) : ℕ → UInt8 :=
  if n = 0 then m
  else if src < dst ∧ src + n > dst then copyDown m dst src n
  else copyUp m dst src n

/-- `memmove` of the user library, for an `n` that is not negative; neither range wraps. -/
def userMemmove (m : ℕ → UInt8) (dst src n : ℕ) : ℕ → UInt8 :=
  if src > dst then copyUp m dst src n else copyDown m dst src n

/-- The `n` bytes from `dst` are those that were at `src`, and no other byte has changed. -/
def Moved (m : ℕ → UInt8) (dst src n : ℕ) (m' : ℕ → UInt8) : Prop :=
  (∀ i < n, m' (dst + i) = m (src + i)) ∧ ∀ a, a < dst ∨ dst + n ≤ a → m' a = m a

variable {m : ℕ → UInt8} {d s n : ℕ}

/-- Upwards, a byte is read before it is overwritten unless the destination begins inside the source. -/
theorem moved_copyUp (h : d ≤ s ∨ s + n ≤ d) : Moved m d s n (copyUp m d s n) := by
  induction n generalizing m d s with
  | zero => exact ⟨nofun, fun _ _ => rfl⟩
  | succ n ih =>
    obtain ⟨hin, hout⟩ := ih (m := update m d (m s)) (d := d + 1) (s := s + 1) (by omega)
    refine ⟨fun i hi => ?_, fun a ha => ?_⟩
    · cases i with
      | zero => exact (hout d (by omega)).trans (update_self ..)
      | succ i =>
        have hstep := hin i (by omega)
        rw [update_of_ne (by omega)] at hstep
        rwa [show d + (i + 1) = d + 1 + i by omega, show s + (i + 1) = s + 1 + i by omega]
    · exact (hout a (by omega)).trans (update_of_ne (by omega) _ _)

/-- Downwards, unless the source begins inside the destination. -/
theorem moved_copyDown (h : s ≤ d ∨ d + n ≤ s) : Moved m d s n (copyDown m d s n) := by
  induction n generalizing m with
  | zero => exact ⟨nofun, fun _ _ => rfl⟩
  | succ n ih =>
    obtain ⟨hin, hout⟩ := ih (m := update m (d + n) (m (s + n))) (by omega)
    refine ⟨fun i hi => ?_, fun a ha => ?_⟩
    · by_cases hlast : i = n
      · rw [hlast]
        exact (hout (d + n) (by omega)).trans (update_self ..)
      · exact (hin i (by omega)).trans (update_of_ne (by omega) _ _)
    · exact (hout a (by omega)).trans (update_of_ne (by omega) _ _)

/-- **Overlapping moves.** -/
theorem memmove_moves (m : ℕ → UInt8) (dst src n : ℕ) :
    Moved m dst src n (kernelMemmove m dst src n) ∧ Moved m dst src n (userMemmove m dst src n) := by
  constructor
  · unfold kernelMemmove
    split_ifs with h0 hover
    · subst h0
      exact ⟨nofun, fun _ _ => rfl⟩
    · exact moved_copyDown (.inl (by omega))
    · exact moved_copyUp (by omega)
  · unfold userMemmove
    split_ifs with hlt
    · exact moved_copyUp (.inl (by omega))
    · exact moved_copyDown (.inl (by omega))

end Xv6Mlfq.Memory
