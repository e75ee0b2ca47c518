import Xv6Mlfq.Demotion

/-!
# Xv6Mlfq.Stats — the scheduling statistics of a process agree

`num_demoted`, `num_boosted`, `ticks_total` and `num_scheduled` are written by four functions in two
files.  `View.Stats` relates them: a demotion raises the priority by one and costs the slice of the
queue it leaves, a boost undoes one or two demotions and counts once, and a dispatch is charged at
most one tick.  It holds of every process that `setprocpriority` has left alone and none of whose
counters has wrapped.
-/

namespace Xv6Mlfq

open CInt Lts

/-- `setprocpriority` has targeted the process since its allocation. -/
def targeted : List (View × LAct) → Bool
  | [] => false
  | (_, .alloc .ok _) :: _ => false
  | (v, .setpriority pid _) :: h => v.proc.hasPid pid || targeted h
  | _ :: h => targeted h

/-- The section increments a counter that stands at the largest `int`. -/
def View.wraps (v : View) : LAct → Bool
  | .charge => v.proc.ticksTotal = intMax
  | .dispatch => v.proc.numScheduled = intMax
  | .yield => getTimeSlice v.proc.priority ≤ v.proc.ticksUsed ∧ v.proc.priority < 2 ∧
      v.proc.numDemoted = intMax
  | .boost => v.proc.state ≠ .unused ∧ v.proc.priority > 0 ∧ v.proc.numBoosted = intMax
  | _ => false

/-- A counter of the process has reached `2^31` since its allocation. -/
def wrapped : List (View × LAct) → Bool
  | [] => false
  | (_, .alloc .ok _) :: _ => false
  | (v, a) :: h => v.wraps a || wrapped h

/-- `1` if `b`, else `0`. -/
def bit (b : Bool) : ℤ := if b then 1 else 0

/-- The statistics of a process. -/
structure View.Stats (v : View) : Prop where
  boosts_le : v.proc.numBoosted ≤ v.proc.numDemoted - v.proc.priority
  le_boosts : v.proc.numDemoted - v.proc.priority ≤ 2 * v.proc.numBoosted
  cost : 2 * v.proc.numDemoted - v.proc.numBoosted - bit (v.proc.priority > 0) + v.proc.ticksUsed ≤
    v.proc.ticksTotal
  sched : v.proc.ticksTotal + bit v.thread.uncharged ≤ v.proc.numScheduled

section Local

variable {v v' : View} {a : LAct} {h : List (View × LAct)}

theorem targeted_tail (ht : targeted ((v, a) :: h) = false) (hne : ∀ pid, a ≠ .alloc .ok pid) :
    targeted h = false := by
  cases a with
  | alloc r pid =>
    cases r with
    | ok => exact absurd rfl (hne pid)
    | noMemory => exact ht
    | noCopy => exact ht
  | setpriority pid priority => exact (Bool.or_eq_false_iff.mp ht).2
  | _ => exact ht

theorem wrapped_tail (hw : wrapped ((v, a) :: h) = false) (hne : ∀ pid, a ≠ .alloc .ok pid) :
    v.wraps a = false ∧ wrapped h = false := by
  cases a with
  | alloc r pid =>
    cases r with
    | ok => exact absurd rfl (hne pid)
    | noMemory => exact ⟨rfl, hw⟩
    | noCopy => exact ⟨rfl, hw⟩
  | _ => exact Bool.or_eq_false_iff.mp hw

theorem bit_nonneg (b : Bool) : 0 ≤ bit b := by
  cases b <;> simp [bit]

theorem bit_le_bit {a b : Bool} (h : a = true → b = true) : bit a ≤ bit b := by
  cases a <;> cases b <;> simp_all [bit]

/-- A section that keeps the fields and charges or switches in nobody keeps the statistics. -/
theorem View.Stats.frame (hs : v.Stats) (hsame : v.proc.SameMlfq v'.proc)
    (hun : v'.thread.uncharged = true → v.thread.uncharged = true) : v'.Stats := by
  obtain ⟨h1, h2, h3, h4⟩ := hs
  have hb := bit_le_bit hun
  refine ⟨?_, ?_, ?_, ?_⟩ <;> simp only [hsame.priority, hsame.ticksUsed, hsame.ticksTotal,
    hsame.numScheduled, hsame.numDemoted, hsame.numBoosted]
  · exact h1
  · exact h2
  · exact h3
  · omega

/-- The used ticks can only be forgotten. -/
theorem View.Stats.reset (hs : v.Stats) (h0 : 0 ≤ v.proc.ticksUsed) :
    View.Stats { v with proc := { v.proc with ticksUsed := 0 } } := by
  obtain ⟨h1, h2, h3, h4⟩ := hs
  refine ⟨h1, h2, ?_, h4⟩
  show 2 * v.proc.numDemoted - v.proc.numBoosted - bit (v.proc.priority > 0) + 0 ≤ v.proc.ticksTotal
  omega

theorem View.Stats.boost (hs : v.Stats) (hv : v.Quantum) (hst : v.proc.state ≠ .unused)
    (hw : v.wraps .boost = false) :
    View.Stats { v with proc := { v.proc with
      numBoosted := if v.proc.priority > 0 then inc v.proc.numBoosted else v.proc.numBoosted
      priority := 0, ticksUsed := 0 } } := by
  obtain ⟨h1, h2, h3, h4⟩ := hs
  obtain ⟨hp0, hp2⟩ := hv.prio
  have ht := hv.ticks.1
  by_cases hp : v.proc.priority > 0
  · have hinc : inc v.proc.numBoosted = v.proc.numBoosted + 1 := by
      refine inc_of_ne fun h => ?_
      simp [wraps, hst, hp, h] at hw
    refine ⟨?_, ?_, ?_, h4⟩ <;> simp only [hp, if_true, hinc, bit] at h3 ⊢
    · omega
    · omega
    · simp at h3 ⊢; omega
  · have hz : v.proc.priority = 0 := by omega
    refine ⟨?_, ?_, ?_, h4⟩ <;> simp only [hz, bit] at h1 h2 h3 ⊢
    · simpa using h1
    · simpa using h2
    · simp at h3 ⊢; omega

theorem View.Stats.demote (hs : v.Stats) (hv : v.Quantum)
    (hge : getTimeSlice v.proc.priority ≤ v.proc.ticksUsed) (hp : v.proc.priority < 2)
    (hw : v.wraps .yield = false) :
    View.Stats ⟨{ v.proc with
      priority := inc v.proc.priority, numDemoted := inc v.proc.numDemoted, ticksUsed := 0
      state := .runnable }, .off .yield⟩ := by
  obtain ⟨h1, h2, h3, h4⟩ := hs
  have hp0 := hv.prio.1
  have hip : inc v.proc.priority = v.proc.priority + 1 := inc_of_lt (by unfold intMax; omega)
  have hid : inc v.proc.numDemoted = v.proc.numDemoted + 1 := by
    refine inc_of_ne fun h => ?_
    simp [wraps, hge, hp, h] at hw
  have hb := bit_nonneg v.thread.uncharged
  refine ⟨?_, ?_, ?_, ?_⟩ <;> simp only [hip, hid]
  · omega
  · omega
  · -- leaving queue 0 costs one tick, leaving queue 1 two
    have hcase : v.proc.priority = 0 ∨ v.proc.priority = 1 := by omega
    rcases hcase with hq | hq <;> rw [hq] at hge h3 ⊢ <;> simp [bit] at hge h3 ⊢ <;> omega
  · show v.proc.ticksTotal + 0 ≤ v.proc.numScheduled
    omega

/-- **One section keeps the statistics.** -/
theorem View.Effect.stats (hv : v.Quantum) (he : v.Effect a v')
    (ih : targeted h = false → wrapped h = false → v.proc.state ≠ .unused → v.Stats)
    (ht : targeted ((v, a) :: h) = false) (hw : wrapped ((v, a) :: h) = false)
    (hu : v'.proc.state ≠ .unused) : v'.Stats := by
  have past : (∀ pid, a ≠ .alloc .ok pid) → v.proc.state ≠ .unused → v.Stats := fun hne =>
    ih (targeted_tail ht hne) (wrapped_tail hw hne).2
  cases he with
  | quiet hq =>
    refine (past ?_ fun h => hu ((hq.unused_iff hv).mpr h)).frame hq.same hq.uncharged
    rintro pid rfl
    cases hq.starts
  | boost hst => exact (past (by simp) hst).boost hv hst (wrapped_tail hw (by simp)).1
  | dispatch hst =>
    obtain ⟨h1, h2, h3, h4⟩ := past (by simp) (by simp [hst])
    have hoff := hv.off.mpr (by simp [hst])
    have hinc : inc v.proc.numScheduled = v.proc.numScheduled + 1 := by
      refine inc_of_ne fun h => ?_
      have := (wrapped_tail hw (by simp)).1
      simp [wraps, h] at this
    refine ⟨h1, h2, h3, ?_⟩
    show v.proc.ticksTotal + bit v.thread.switchIn.uncharged ≤ inc v.proc.numScheduled
    rw [hinc]
    cases hth : v.thread <;> rw [hth] at hoff h4 <;> cases hoff
    simpa [bit, Thread.uncharged, Thread.switchIn] using h4
  | charge hth =>
    obtain ⟨h1, h2, h3, h4⟩ := past (by simp) (by simp [hv.running (by simp [hth, Thread.isOff])])
    have hit : inc v.proc.ticksTotal = v.proc.ticksTotal + 1 := by
      refine inc_of_ne fun h => ?_
      have := (wrapped_tail hw (by simp)).1
      simp [wraps, h] at this
    have hiu : inc v.proc.ticksUsed = v.proc.ticksUsed + 1 := by
      have h1 := hv.ticks.2
      have h2 := getTimeSlice_le v.proc.priority
      exact inc_of_lt (by unfold intMax; omega)
    refine ⟨h1, h2, ?_, ?_⟩ <;> simp only [Proc.mlfqCheckTimer, hit, hiu]
    · omega
    · simpa [hth, bit, Thread.uncharged] using h4
  | demote hth hge hp =>
    have hst := hv.running (by simp [hth, Thread.isOff])
    exact (past (by simp) (by simp [hst])).demote hv hge hp (wrapped_tail hw (by simp)).1
  | renew hth _ _ | sleep hth =>
    have hs := past (by simp) (by simp [hv.running (by simp [hth, Thread.isOff])])
    exact (hs.reset hv.ticks.1).frame ⟨rfl, rfl, rfl, rfl, rfl, rfl⟩ (by simp [Thread.uncharged])
  | @alloc r pid _ =>
    cases r with
    | ok => exact ⟨le_rfl, le_rfl, le_rfl, le_rfl⟩
    | noMemory => exact absurd rfl hu
    | noCopy => exact absurd rfl hu
  | free _ => exact absurd rfl hu
  | @setpriority pid priority hh _ _ =>
    have : v.proc.hasPid pid = false := (Bool.or_eq_false_iff.mp ht).1
    rw [hh] at this; cases this

end Local

variable {C : ℕ} {s : Sys C} {h : List (Sys C × Ev C)}

theorem Reach.stats (hr : Reach C h s) (p : Slot) (ht : targeted (slotHist p h) = false)
    (hw : wrapped (slotHist p h) = false) (hu : (s.proc p).state ≠ .unused) : (s.view p).Stats := by
  refine hr.inv_hist (I := fun h s => targeted (slotHist p h) = false →
    wrapped (slotHist p h) = false → (s.view p).proc.state ≠ .unused → (s.view p).Stats)
    (fun _ _ hu => ?_) ?_ ht hw hu
  · by_cases hp : p = initproc
    · subst hp; exact ⟨le_rfl, le_rfl, le_rfl, le_rfl⟩
    · exact absurd (by simp [Sys.view, boot, userinit, hp, procinit]) hu
  · intro h s e s' hr ih hs ht hw hu
    exact (slot_effect hr hs p).stats (Reach.quantum hr p) ih ht hw hu

/-- **The statistics agree** for every process that `setprocpriority` has not targeted since its
allocation and whose counters have not reached `2^31`. -/
theorem stats_consistent (hr : Reach C h s) (p : Slot) (hu : (s.proc p).state ≠ .unused)
    (ht : targeted (slotHist p h) = false) (hw : wrapped (slotHist p h) = false) :
    (s.proc p).numBoosted ≤ (s.proc p).numDemoted - (s.proc p).priority ∧
    (s.proc p).numDemoted - (s.proc p).priority ≤ 2 * (s.proc p).numBoosted ∧
    2 * (s.proc p).numDemoted - (s.proc p).numBoosted - (if (s.proc p).priority > 0 then 1 else 0) +
      (s.proc p).ticksUsed ≤ (s.proc p).ticksTotal ∧
    (s.proc p).ticksTotal ≤ (s.proc p).numScheduled := by
  obtain ⟨h1, h2, h3, h4⟩ := hr.stats p ht hw hu
  have hb := bit_nonneg (s.view p).thread.uncharged
  refine ⟨h1, h2, ?_, ?_⟩
  · simpa [bit, Sys.view] using h3
  · simp only [Sys.view] at h4 hb
    omega

/-- The statistics of `initproc` after its first demotion. -/
theorem stats_consistent_firstYield : ∃ (h : List (Sys 1 × Ev 1)) (s : Sys 1), Reach 1 h s ∧
    (s.proc initproc).priority = 1 ∧ (s.proc initproc).numDemoted = 1 ∧
    1 ≤ (s.proc initproc).ticksTotal ∧ (s.proc initproc).ticksTotal ≤ (s.proc initproc).numScheduled := by
  obtain ⟨h, s, hr, hp, hd, hb, ht, hu, htg, hw⟩ := exists_reach_of_replay (C := 1)
    (fun h s => (s.proc initproc).priority = 1 ∧ (s.proc initproc).numDemoted = 1 ∧
      (s.proc initproc).numBoosted = 0 ∧ (s.proc initproc).ticksUsed = 0 ∧
      (s.proc initproc).state ≠ .unused ∧ targeted (slotHist initproc h) = false ∧
      wrapped (slotHist initproc h) = false)
    (firstCharge ++ [⟨0, .count⟩, ⟨0, .yield⟩]) (by decide +kernel)
  obtain ⟨-, -, hcost, hsched⟩ := stats_consistent hr initproc hu htg hw
  rw [hp, hd, hb, ht] at hcost
  exact ⟨h, s, hr, hp, hd, hcost, hsched⟩

end Xv6Mlfq
