import Xv6Mlfq.Lib.Index
import Mathlib.Tactic.NormNum

/-!
# Lib.CInt — the machine integers of C used by counters

A C `int` is an integer of `[-2^31, 2^31)`, incremented in two's complement; `uint` and `uint64`
are naturals incremented modulo `2^32` and `2^64`.
-/

namespace CInt

/-- The largest `int`. -/
def intMax : ℤ := 2147483647

/-- `x++` on an `int`: it wraps at `intMax`. -/
def inc (x : ℤ) : ℤ := if x = intMax then -2147483648 else x + 1

/-- `x++` on a `uint`. -/
def incU32 (x : ℕ) : ℕ := (x + 1) % 2 ^ 32

/-- `x--` on a `uint`. -/
def decU32 (x : ℕ) : ℕ := (x + (2 ^ 32 - 1)) % 2 ^ 32

/-- `x - y` on a `uint`. -/
def subU32 (x y : ℕ) : ℕ := (x + (2 ^ 32 - y)) % 2 ^ 32

/-- `x++` on a `uint64`. -/
def incU64 (x : ℕ) : ℕ := (x + 1) % 2 ^ 64

/-- A `uint` assigned to an `int`. -/
def ofU32 (x : ℕ) : ℤ := if x < 2 ^ 31 then x else (x : ℤ) - 2 ^ 32

/-- An `int` as the `uint` of the same bytes. -/
def toU32 (x : ℤ) : ℕ := (x % 2 ^ 32).toNat

/-- The values of an `int`. -/
def IsInt (x : ℤ) : Prop := -2 ^ 31 ≤ x ∧ x < 2 ^ 31

instance (x : ℤ) : Decidable (IsInt x) := inferInstanceAs (Decidable (_ ∧ _))

theorem inc_of_ne {x : ℤ} (h : x ≠ intMax) : inc x = x + 1 := if_neg h

theorem inc_of_lt {x : ℤ} (h : x < intMax) : inc x = x + 1 := inc_of_ne (ne_of_lt h)

theorem incU32_of_lt {x : ℕ} (h : x + 1 < 2 ^ 32) : incU32 x = x + 1 := Nat.mod_eq_of_lt h

theorem decU32_incU32 {x : ℕ} (h : x < 2 ^ 32) : decU32 (incU32 x) = x := by
  unfold decU32 incU32
  omega

theorem incU64_of_lt {x : ℕ} (h : x + 1 < 2 ^ 64) : incU64 x = x + 1 := Nat.mod_eq_of_lt h

theorem ofU32_of_lt {x : ℕ} (h : x < 2 ^ 31) : ofU32 x = x := if_pos h

theorem toU32_lt (x : ℤ) : toU32 x < 2 ^ 32 := by
  unfold toU32
  omega

theorem ofU32_toU32 {x : ℤ} (hx : IsInt x) : ofU32 (toU32 x) = x := by
  unfold ofU32 toU32
  obtain ⟨h1, h2⟩ := hx
  split_ifs <;> omega

end CInt
