import Xv6Mlfq.Scan

/-!
# Xv6Mlfq.BoostLoop — `priority_boost` on one CPU

Only the boost test leads to `priority_boost` (`boosting_of_step`).  On one CPU nothing runs meanwhile
but interrupt handlers: `mlfq_ticks` stays zero, and the slots the loop has passed stay at priority 0
(`BoostLoop`).
-/

namespace Xv6Mlfq

open Lts

variable {i j : Slot}

/-- In `priority_boost`. -/
def Pc.boosting : Pc → Bool
  | .boostTick | .boost _ => true
  | _ => false

/-- `priority_boost` on one CPU: no tick is counted meanwhile, and the slots it has passed stay at
priority 0. -/
structure BoostLoop (s : Sys 1) : Prop where
  ticks : (s.cpu 0).boosting = true → s.mlfqTicks = 0
  done : ∀ i, s.cpu 0 = .boost i → ∀ j < i, (s.proc j).priority = 0

section OneCpu

variable {h : List (Sys 1 × Ev 1)} {s s' : Sys 1} {e : Ev 1}

/-- A section of `priority_boost` is made in `priority_boost`. -/
theorem boosting_of_boostSlot (hs : s.step e = some s') (ha : e.act = .boostSlot) :
    (s.cpu 0).boosting = true := by
  obtain ⟨c, a⟩ := e
  obtain rfl : c = 0 := Subsingleton.elim _ _
  obtain rfl : a = .boostSlot := ha
  have ht : Trans s 0 .boostSlot s' := trans_of_step hs
  cases ht with
  | boostSlot hpc _ => rw [hpc]; rfl

theorem boostLoop_of_ne (h : (s.cpu 0).boosting = false) : BoostLoop s := by
  refine ⟨fun h' => ?_, fun i hi => ?_⟩
  · rw [h] at h'; cases h'
  · rw [hi] at h; cases h

/-- The body of the loop leaves its slot at priority 0. -/
theorem priorityBoost_priority {p : Slot} (hq : (s.view p).Quantum) :
    (s.proc p).priorityBoost.priority = 0 := by
  by_cases hu : (s.proc p).state = .unused
  · rw [Proc.priorityBoost, if_neg (not_not.mpr hu)]
    exact (hq.zero hu).priority
  · rw [Proc.priorityBoost, if_pos hu]

theorem lt_of_nextSlot {k : Slot} (hn : nextSlot i = some k) (hj : j < k) : j < i ∨ j = i := by
  unfold nextSlot at hn
  split_ifs at hn with h
  cases hn
  simp only [Fin.lt_def, Fin.ext_iff] at hj ⊢
  omega

theorem last_of_nextSlot (hn : nextSlot i = none) (j : Slot) : j < i ∨ j = i := by
  unfold nextSlot at hn
  split_ifs at hn with h
  have := j.isLt
  simp only [Fin.lt_def, Fin.ext_iff, NPROC] at *
  omega

/-- After the section of slot `i` every slot up to `i` is at priority 0. -/
theorem BoostLoop.boosted (hL : BoostLoop s) (hq : ∀ p, (s.view p).Quantum)
    (hpc : s.cpu 0 = .boost i) (hj : j < i ∨ j = i) :
    (Function.update s.proc i (s.proc i).priorityBoost j).priority = 0 := by
  rcases hj with hj | rfl
  · rw [Function.update_of_ne (Fin.ne_of_lt hj)]
    exact hL.done i hpc j hj
  · rw [Function.update_self]
    exact priorityBoost_priority (hq j)

/-- A CPU comes to `priority_boost` by the boost test only. -/
theorem boosting_of_step (hs : s.step e = some s') (hb : (s'.cpu 0).boosting = true) :
    (s.cpu 0).boosting = true ∨
      (BOOST_INTERVAL ≤ s.mlfqTicks ∧ s'.mlfqTicks = 0 ∧ s'.cpu 0 = .boostTick) := by
  obtain ⟨c, a⟩ := e
  obtain rfl : c = 0 := Subsingleton.elim _ _
  have ht : Trans s 0 a s' := trans_of_step hs
  cases ht with
  | boostFire _ hm => exact .inr ⟨hm, rfl, by simp⟩
  | recordBoost hpc | boostSlot hpc _ => exact .inl (by rw [hpc]; rfl)
  | @scanMiss q i _ _ _ =>
    rcases scanNext_cases q i with ⟨q', i', hn, -⟩ | ⟨hn, -⟩ <;> simp [hn, Pc.boosting] at hb
  | timerIdle _ | wakeup _ _ | setprocpriorityBad _ _ _ _ | reparentSkip _ _ _ | waitSkip _ _ _ _ => exact .inl hb
  | _ hpc => simp [hpc, Pc.boosting] at hb

theorem BoostLoop.step (hL : BoostLoop s) (hq : ∀ p, (s.view p).Quantum) (hs : s.step e = some s') :
    BoostLoop s' := by
  cases hb' : (s'.cpu 0).boosting with
  | false => exact boostLoop_of_ne hb'
  | true =>
    rcases boosting_of_step hs hb' with hb | ⟨-, hm, hpc⟩
    · obtain ⟨c, a⟩ := e
      obtain rfl : c = 0 := Subsingleton.elim _ _
      have ht : Trans s 0 a s' := trans_of_step hs
      cases ht with
      | recordBoost _ =>
        refine ⟨fun _ => hL.ticks hb, fun i hi j hj => ?_⟩
        obtain rfl : 0 = i := by simpa using hi
        exact absurd hj (Nat.not_lt_zero _)
      | @boostSlot i hpc _ =>
        refine ⟨fun _ => hL.ticks hb, fun k hk j hj => hL.boosted hq hpc ?_⟩
        have hk : boostNext i = .boost k := by simpa using hk
        unfold boostNext at hk
        cases hn : nextSlot i <;> rw [hn] at hk <;> cases hk
        exact lt_of_nextSlot hn hj
      | timerIdle _ => exact ⟨hL.ticks, hL.done⟩
      | @wakeup j chan _ _ =>
        refine ⟨hL.ticks, fun i hi k hk => ?_⟩
        have hpr := hL.done i hi k hk
        show (Function.update s.proc j ((s.proc j).wakeup chan) k).priority = 0
        rcases eq_or_ne k j with rfl | hne
        · rw [Function.update_self, ((s.proc k).same_wakeup chan).priority]; exact hpr
        · rw [Function.update_of_ne hne]; exact hpr
      | setprocpriorityBad hpc _ _ _ => rw [hpc] at hb; cases hb
      | reparentSkip hpc _ _ => rw [hpc] at hb; cases hb
      | waitSkip hpc _ _ _ => rw [hpc] at hb; cases hb
      | _ hpc => rw [hpc] at hb; cases hb
    · refine ⟨fun _ => hm, fun i hi => ?_⟩
      rw [hpc] at hi; cases hi

theorem Reach.boostLoop (hr : Reach 1 h s) : BoostLoop s := by
  refine hr.inv_hist (I := fun _ s => BoostLoop s) (boostLoop_of_ne rfl) ?_
  intro h s e s' hr hL hs
  exact hL.step (fun p => Reach.quantum hr p) hs

end OneCpu

/-! ## A run to the first boost -/

/-- `initproc` forks a child into `proc[1]` and is charged a tick. -/
def forkAndTick : List (Ev 1) :=
  [⟨0, .boostTest⟩, ⟨0, .scanSlot⟩, ⟨0, .dispatch⟩, ⟨0, .resume⟩, ⟨0, .alloc 1 .ok⟩, ⟨0, .forkParent⟩,
    ⟨0, .forkReady⟩, ⟨0, .timer⟩, ⟨0, .charge⟩, ⟨0, .count⟩, ⟨0, .yield⟩]

/-- A pass of `n` checks; the process it selects raises `proc[j]`, whose pid is `pid`, to priority 0, and
is charged a tick. -/
def raiseAndTick (n : ℕ) (j : Slot) (pid : ℤ) : List (Ev 1) :=
  ⟨0, .boostTest⟩ :: List.replicate n ⟨0, .scanSlot⟩ ++
    [⟨0, .dispatch⟩, ⟨0, .resume⟩, ⟨0, .setprocpriority j pid 0⟩, ⟨0, .timer⟩, ⟨0, .charge⟩,
      ⟨0, .count⟩, ⟨0, .yield⟩]

/-- The child and `initproc` raise each other for 99 ticks; then the boost test calls
`priority_boost`. -/
def raiseToBoost : List (Ev 1) :=
  raiseAndTick 2 0 1 ++ (List.replicate 49 (raiseAndTick 1 1 2 ++ raiseAndTick 2 0 1)).flatten ++
    [⟨0, .boostTest⟩]

end Xv6Mlfq
