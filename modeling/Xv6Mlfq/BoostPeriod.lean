import Xv6Mlfq.BoostAccount
import Xv6Mlfq.BoostLoop
import Xv6Mlfq.Clock

/-!
# Xv6Mlfq.BoostPeriod — how far apart two boosts are

`last_boost_tick` is read from `ticks`, which CPU 0 alone increments; the boost itself is triggered by
`mlfq_ticks`, which every CPU that runs a process increments.  On one CPU every counted tick is one of
`ticks`, so two boosts record values at least `BOOST_INTERVAL` apart (`boost_period_one_cpu`).  With two
CPUs at work the boosts come twice as often (`not_boostPeriod_two`).
-/

namespace Xv6Mlfq

open CInt Lts

variable {C : ℕ}

/-- CPU `c` has taken a timer interrupt since the last increment of `ticks`. -/
def tookTimer (c : Fin C) : List (Sys C × Ev C) → Bool
  | [] => false
  | (_, e) :: h =>
    if e.act = .timer ∧ e.cpu.val = 0 then false else if e = ⟨c, .timer⟩ then true else tookTimer c h

/-- Each CPU takes at most one timer interrupt per increment of `ticks`. -/
def oncePerTick : List (Sys C × Ev C) → Bool
  | [] => true
  | (_, e) :: h =>
    oncePerTick h && !(e.act = .timer ∧ e.cpu.val ≠ 0 ∧ tookTimer e.cpu h = true)

/-- **The boost period** on `C` CPUs: two successive executions of `priority_boost` record values of
`last_boost_tick` at least `BOOST_INTERVAL` apart. -/
def BoostPeriod (C : ℕ) : Prop :=
  ∀ (h k : List (Sys C × Ev C)) (s1 t1 s2 t2 : Sys C) (c1 c2 : Fin C), Reach C h s1 →
    s1.step ⟨c1, .recordBoost⟩ = some t1 → Path Sys.step t1 k s2 →
    (∀ x ∈ k, x.2.act ≠ .recordBoost) → s2.step ⟨c2, .recordBoost⟩ = some t2 →
    oncePerTick (k ++ (s1, ⟨c1, .recordBoost⟩) :: h) = true →
    t1.lastBoostTick + BOOST_INTERVAL ≤ t2.lastBoostTick

/-! ## One CPU -/

section OneCpu

variable {h k : List (Sys 1 × Ev 1)} {s s' s1 t1 s2 t2 : Sys 1} {e : Ev 1}

/-- `ticks` counts the timer interrupts. -/
theorem ticks_step (hs : s.step e = some s') :
    s'.ticks = if e.act = .timer then incU32 s.ticks else s.ticks := by
  obtain ⟨c, a⟩ := e
  obtain rfl : c = 0 := Subsingleton.elim _ _
  have ht : Trans s 0 a s' := trans_of_step hs
  cases ht <;> rfl

theorem Reach.ticks (hr : Reach 1 h s) (hlt : acts .timer h < 2 ^ 32) : s.ticks = acts .timer h := by
  revert hlt
  refine hr.inv_hist (I := fun h s => acts .timer h < 2 ^ 32 → s.ticks = acts .timer h) (fun _ => rfl) ?_
  intro h s e s' _ ih hs hlt
  simp only [acts, total_cons] at hlt ih ⊢
  rw [ticks_step hs]
  by_cases ht : e.act = .timer
  · rw [if_pos ht] at hlt ⊢
    rw [if_pos ht, ih (by omega), incU32_of_lt (by omega)]
    omega
  · rw [if_neg ht] at hlt ⊢
    rw [if_neg ht, ih (by omega)]
    omega

theorem recordBoost_step (hs : s.step ⟨0, .recordBoost⟩ = some s') :
    s.cpu 0 = .boostTick ∧ s'.lastBoostTick = ofU32 s.ticks ∧ s'.mlfqTicks = s.mlfqTicks ∧
      s'.cpu 0 = .boost 0 := by
  have ht : Trans s 0 .recordBoost s' := trans_of_step hs
  cases ht with
  | recordBoost hpc => exact ⟨hpc, rfl, rfl, by simp⟩

theorem boostTick_of_step (hs : s.step e = some s') (hb : s'.cpu 0 = .boostTick) :
    s.cpu 0 = .boostTick ∨ BOOST_INTERVAL ≤ s.mlfqTicks := by
  obtain ⟨c, a⟩ := e
  obtain rfl : c = 0 := Subsingleton.elim _ _
  have ht : Trans s 0 a s' := trans_of_step hs
  cases ht with
  | boostFire _ hm => exact .inr hm
  | @boostSlot i _ _ =>
    have hb : boostNext i = .boostTick := by simpa using hb
    unfold boostNext at hb
    cases hn : nextSlot i <;> rw [hn] at hb <;> cases hb
  | @scanMiss q i _ _ _ =>
    rcases scanNext_cases q i with ⟨q', i', hn, -⟩ | ⟨hn, -⟩ <;> simp [hn] at hb
  | timerIdle _ | wakeup _ _ | setprocpriorityBad _ _ _ _ | reparentSkip _ _ _ | waitSkip _ _ _ _ => exact .inl hb
  | _ hpc => simp [hpc] at hb

/-- From one boost to the next, `BOOST_INTERVAL` ticks are taken. -/
theorem timers_until_boost (hw : Wf t1) (hm : t1.mlfqTicks = 0) (hpc : t1.cpu 0 = .boost 0)
    (hp : Path Sys.step t1 k s2) (hb : s2.cpu 0 = .boostTick) : BOOST_INTERVAL ≤ acts .timer k := by
  have hcur : t1.cur = none := by simp [Sys.cur, hpc]
  revert hb
  refine hp.inv_hist (I := fun k s => s.cpu 0 = .boostTick → BOOST_INTERVAL ≤ acts .timer k) ?_ ?_
  · intro hb
    rw [hpc] at hb; cases hb
  · intro k s e s' hp ih hs hb
    have hmono : acts .timer k ≤ acts .timer ((s, e) :: k) := by simp [acts]
    rcases boostTick_of_step hs hb with hs' | hle
    · exact (ih hs').trans hmono
    · -- the ticks counted since were charged, and the charged ones taken
      have h1 := mlfqTicks_le_charges hw hp
      have h2 := charges_le_timers hw hp
      have hc : t1.charged = 0 := by simp [Sys.charged, hcur]
      have ht : t1.trapped = 0 := by simp [Sys.trapped, hcur]
      omega

/-- **The boost period on one CPU**, for the first `2^31` ticks. -/
theorem boost_period_one_cpu (hr : Reach 1 h s1) (hs1 : s1.step ⟨0, .recordBoost⟩ = some t1)
    (hp : Path Sys.step t1 k s2) (hs2 : s2.step ⟨0, .recordBoost⟩ = some t2)
    (hlt : acts .timer (k ++ (s1, ⟨0, .recordBoost⟩) :: h) < 2 ^ 31) :
    t1.lastBoostTick + BOOST_INTERVAL ≤ t2.lastBoostTick := by
  have hr1 : Reach 1 ((s1, ⟨0, .recordBoost⟩) :: h) t1 := hr.snoc hs1
  obtain ⟨hpc1, hl1, hm1, hpc1'⟩ := recordBoost_step hs1
  obtain ⟨hpc2, hl2, -, -⟩ := recordBoost_step hs2
  have hm : t1.mlfqTicks = 0 := hm1.trans (hr.boostLoop.ticks (by rw [hpc1]; rfl))
  have htimers := timers_until_boost hr1.wf hm hpc1' hp hpc2
  have hsum : acts .timer (k ++ (s1, ⟨0, .recordBoost⟩) :: h) = acts .timer k + acts .timer h := by
    simp [acts, total_append]
  have ht1 := hr.ticks (by omega)
  have ht2 := Reach.ticks (hr1.trans hp) (by omega)
  rw [hl1, hl2, ofU32_of_lt (by omega), ofU32_of_lt (by omega), ht1, ht2, hsum]
  push_cast
  omega

/-- The first two boosts of a run on one CPU. -/
theorem boost_period_first : ∃ (h k : List (Sys 1 × Ev 1)) (s1 t1 s2 t2 : Sys 1), Reach 1 h s1 ∧
    s1.step ⟨0, .recordBoost⟩ = some t1 ∧ Path Sys.step t1 k s2 ∧
    s2.step ⟨0, .recordBoost⟩ = some t2 ∧ t1.lastBoostTick + BOOST_INTERVAL ≤ t2.lastBoostTick := by
  obtain ⟨h, s1, hr, hnext⟩ := exists_reach_of_replay (C := 1)
    (fun h s1 => ((s1.step ⟨0, .recordBoost⟩).any fun t1 =>
      (replay Sys.step [] t1 (List.replicate 64 ⟨0, .boostSlot⟩ ++ [⟨0, .scanSlot⟩, ⟨0, .dispatch⟩,
        ⟨0, .resume⟩, ⟨0, .timer⟩, ⟨0, .charge⟩, ⟨0, .count⟩, ⟨0, .yield⟩] ++ raiseToBoost)).any
        fun x => decide (acts .timer (x.1 ++ (s1, ⟨0, .recordBoost⟩) :: h) < 2 ^ 31 ∧
          (x.2.step ⟨0, .recordBoost⟩).isSome = true)) = true)
    (forkAndTick ++ raiseToBoost) (by decide +kernel)
  obtain ⟨t1, hs1, hrest⟩ := (Option.any_eq_true _ _).mp hnext
  obtain ⟨k, s2, hp, hlt, hsome⟩ := exists_path_of_replay
    (fun (k : List (Sys 1 × Ev 1)) (s2 : Sys 1) =>
      acts .timer (k ++ (s1, ⟨0, .recordBoost⟩) :: h) < 2 ^ 31 ∧
      (s2.step ⟨0, .recordBoost⟩).isSome = true) _ hrest
  obtain ⟨t2, hs2⟩ := Option.isSome_iff_exists.mp hsome
  exact ⟨h, k, s1, t1, s2, t2, hr, hs1, hp, hs2, boost_period_one_cpu hr hs1 hp hs2 hlt⟩

end OneCpu

/-! ## Two CPUs -/

/-- **The boost period fails on two CPUs**: both processes count their ticks, so the second boost comes
50 ticks after the first. -/
theorem not_boostPeriod_two : ¬ BoostPeriod 2 := by
  intro hbp
  obtain ⟨h, s1, hr, hnext⟩ := exists_reach_of_replay (C := 2)
    (fun h s1 => ((s1.step ⟨1, .recordBoost⟩).any fun t1 =>
      (replay Sys.step [] t1 (List.replicate 64 ⟨1, .boostSlot⟩ ++ selectOnTwo ++ ticksToBoost)).any
        fun x => decide ((∀ y ∈ x.1, y.2.act ≠ .recordBoost) ∧
          oncePerTick (x.1 ++ (s1, ⟨1, .recordBoost⟩) :: h) = true ∧
          ((x.2.step ⟨1, .recordBoost⟩).any fun t2 =>
            t2.lastBoostTick < t1.lastBoostTick + BOOST_INTERVAL) = true)) = true)
    (forkOnTwo ++ ticksToBoost) (by decide +kernel)
  obtain ⟨t1, hs1, hrest⟩ := (Option.any_eq_true _ _).mp hnext
  obtain ⟨k, s2, hp, hno, honce, hlast⟩ := exists_path_of_replay
    (fun (k : List (Sys 2 × Ev 2)) (s2 : Sys 2) => (∀ y ∈ k, y.2.act ≠ .recordBoost) ∧
      oncePerTick (k ++ (s1, ⟨1, .recordBoost⟩) :: h) = true ∧
      ((s2.step ⟨1, .recordBoost⟩).any fun t2 =>
        t2.lastBoostTick < t1.lastBoostTick + BOOST_INTERVAL) = true) _ hrest
  obtain ⟨t2, hs2, hlt⟩ := (Option.any_eq_true _ _).mp hlast
  have hle := hbp h k s1 t1 s2 t2 1 1 hr hs1 hp hno hs2 honce
  exact absurd (of_decide_eq_true hlt) (not_lt.mpr hle)

end Xv6Mlfq
