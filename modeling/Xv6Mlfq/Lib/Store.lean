import Mathlib.Data.List.Nodup

/-!
# Lib.Store — batches of writes to a store

A store is a function from addresses to values; a batch is a list of writes, applied from left to right.  A batch with one
write per address writes what it says (`apply_of_mem`) and nothing else (`apply_of_notMem`).
-/

namespace Store

open Function

variable {ι α : Type*} [DecidableEq ι]

/-- The store after a batch of writes. -/
def apply (ws : List (ι × α)) (d : ι → α) : ι → α := ws.foldl (fun d w => update d w.1 w.2) d

/-- The store after a sequence of batches. -/
def applyAll (ts : List (List (ι × α))) (d : ι → α) : ι → α := ts.foldl (fun d t => apply t d) d

variable {ws : List (ι × α)} {d : ι → α} {a : ι}

@[simp] theorem apply_cons {w : ι × α} : apply (w :: ws) d = apply ws (update d w.1 w.2) := rfl

theorem applyAll_concat {ts : List (List (ι × α))} : applyAll (ts ++ [ws]) d = apply ws (applyAll ts d) := by
  rw [applyAll, List.foldl_append]
  rfl

theorem apply_of_notMem (ha : a ∉ ws.map Prod.fst) : apply ws d a = d a := by
  induction ws generalizing d with
  | nil => rfl
  | cons w ws ih =>
    rw [List.map_cons, List.mem_cons, not_or] at ha
    rw [apply_cons, ih ha.2, update_of_ne ha.1]

theorem apply_of_mem {v : α} (hnd : (ws.map Prod.fst).Nodup) (ha : (a, v) ∈ ws) : apply ws d a = v := by
  induction ws generalizing d with
  | nil => cases ha
  | cons w ws ih =>
    rw [List.map_cons, List.nodup_cons] at hnd
    rw [apply_cons]
    rcases List.mem_cons.mp ha with rfl | ha
    · rw [apply_of_notMem hnd.1, update_self]
    · exact ih hnd.2 ha

end Store
