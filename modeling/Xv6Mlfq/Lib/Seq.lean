import Mathlib.Control.Basic
import Mathlib.Data.Option.Basic

/-!
# Xv6Mlfq.Lib.Seq — contracts of code sequences

Instructions `ι` with a contract each: `sig i a` is what holds after `i` where `a` held before it, and
`none` if `i` must not be executed at `a`.  `check` composes the contracts of a sequence.
-/

namespace Seq

variable {ι α : Type*} {sig : ι → α → Option α} {k : List ι}

/-- The contract of a sequence. -/
def check (sig : ι → α → Option α) : List ι → α → Option α
  | [], a => some a
  | i :: k, a => (sig i a).bind (check sig k)

@[simp] theorem check_nil (a : α) : check sig [] a = some a := rfl

@[simp] theorem check_cons (i : ι) (k : List ι) (a : α) :
    check sig (i :: k) a = (sig i a).bind (check sig k) := rfl

theorem check_cons_of {i : ι} {a b z : α} (h : sig i a = some b)
    (h' : check sig k b = some z) : check sig (i :: k) a = some z := by
  rw [check_cons, h, Option.bind_some, h']

theorem check_singleton (i : ι) (a : α) : check sig [i] a = sig i a := by
  rw [check_cons]
  cases sig i a <;> rfl

theorem check_append (k k' : List ι) (a : α) :
    check sig (k ++ k') a = (check sig k a).bind (check sig k') := by
  induction k generalizing a with
  | nil => rfl
  | cons i k ih =>
    rw [List.cons_append, check_cons, check_cons, Option.bind_assoc]
    exact congrArg _ (funext ih)

/-- Code is put before the rest of a sequence. -/
theorem check_append_of {k' : List ι} {a b z : α} (h : check sig k a = some b)
    (h' : check sig k' b = some z) : check sig (k ++ k') a = some z := by
  rw [check_append, h, Option.bind_some, h']

end Seq
