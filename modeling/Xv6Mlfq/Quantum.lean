import Xv6Mlfq.Life

/-!
# Xv6Mlfq.Quantum — priorities, quanta and free slots

`View.Quantum` bounds the priority and the used ticks of a slot by its queue, says when a quantum
can be seen exhausted, and that a free slot holds zeroes.  One lemma a kind of section
(`View.Quantum.step`), lifted to all runs of the layer by `Reach.quantum`.
-/

namespace Xv6Mlfq

open CInt Function Lts

/-! ## Time slices -/

theorem getTimeSlice_pos (q : ℤ) : 0 < getTimeSlice q := by
  unfold getTimeSlice; split_ifs <;> decide

theorem getTimeSlice_le (q : ℤ) : getTimeSlice q ≤ 4 := by
  unfold getTimeSlice; split_ifs <;> decide

@[simp] theorem getTimeSlice_zero : getTimeSlice 0 = 1 := rfl
@[simp] theorem getTimeSlice_one : getTimeSlice 1 = 2 := rfl
@[simp] theorem getTimeSlice_two : getTimeSlice 2 = 4 := rfl

/-! ## The scheduling fields of a slot -/

/-- `p'` has the scheduling fields of `p`. -/
structure Proc.SameMlfq (p p' : Proc) : Prop where
  priority : p'.priority = p.priority
  ticksUsed : p'.ticksUsed = p.ticksUsed
  ticksTotal : p'.ticksTotal = p.ticksTotal
  numScheduled : p'.numScheduled = p.numScheduled
  numDemoted : p'.numDemoted = p.numDemoted
  numBoosted : p'.numBoosted = p.numBoosted

/-- The scheduling fields are all zero. -/
structure Proc.ZeroMlfq (p : Proc) : Prop where
  priority : p.priority = 0
  ticksUsed : p.ticksUsed = 0
  ticksTotal : p.ticksTotal = 0
  numScheduled : p.numScheduled = 0
  numDemoted : p.numDemoted = 0
  numBoosted : p.numBoosted = 0

namespace Proc

variable (p : Proc)

theorem SameMlfq.zero {p p' : Proc} (h : p.SameMlfq p') (hz : p.ZeroMlfq) : p'.ZeroMlfq :=
  ⟨h.priority.trans hz.priority, h.ticksUsed.trans hz.ticksUsed, h.ticksTotal.trans hz.ticksTotal,
    h.numScheduled.trans hz.numScheduled, h.numDemoted.trans hz.numDemoted,
    h.numBoosted.trans hz.numBoosted⟩

theorem same_refl : p.SameMlfq p := ⟨rfl, rfl, rfl, rfl, rfl, rfl⟩

theorem same_wakeup (chan : Chan) : p.SameMlfq (p.wakeup chan) := by
  unfold wakeup
  split_ifs
  · exact ⟨rfl, rfl, rfl, rfl, rfl, rfl⟩
  · exact p.same_refl

theorem same_kill (pid : ℤ) : p.SameMlfq (p.kill pid) := by
  unfold kill
  split_ifs
  · exact ⟨rfl, rfl, rfl, rfl, rfl, rfl⟩
  · exact ⟨rfl, rfl, rfl, rfl, rfl, rfl⟩
  · exact p.same_refl

theorem zero_freeproc : p.freeproc.ZeroMlfq := ⟨rfl, rfl, rfl, rfl, rfl, rfl⟩

theorem zero_alloc (r : AllocResult) (pid : ℤ) : (p.alloc r pid).ZeroMlfq := by
  cases r <;> exact ⟨rfl, rfl, rfl, rfl, rfl, rfl⟩

/-- What `yield` does to the quantum: nothing, or the end of it. -/
theorem demote_cases : (p.ticksUsed < getTimeSlice p.priority ∧ p.demote = p) ∨
    (getTimeSlice p.priority ≤ p.ticksUsed ∧ p.priority < 2 ∧
      p.demote = { p with
        priority := inc p.priority, numDemoted := inc p.numDemoted, ticksUsed := 0 }) ∨
    (getTimeSlice p.priority ≤ p.ticksUsed ∧ 2 ≤ p.priority ∧ p.demote = { p with ticksUsed := 0 }) := by
  have hq : ((NMLFQ : ℤ) - 1) = 2 := by decide
  unfold demote
  rw [hq]
  split_ifs with hu hp
  · exact .inr (.inl ⟨hu, hp, rfl⟩)
  · exact .inr (.inr ⟨hu, not_lt.mp hp, rfl⟩)
  · exact .inl ⟨not_le.mp hu, rfl⟩

end Proc

/-! ## The invariant -/

/-- The thread is between the charge of `mlfq_check_timer` and the `yield` that follows it. -/
def Thread.beforeYield (t : Thread) : Prop := t = .charged ∨ t = .counted

/-- The quantum of a slot. -/
structure View.Quantum (v : View) : Prop where
  off : v.thread.isOff = true ↔ v.proc.state ≠ .running
  prio : 0 ≤ v.proc.priority ∧ v.proc.priority ≤ 2
  ticks : 0 ≤ v.proc.ticksUsed ∧ v.proc.ticksUsed ≤ getTimeSlice v.proc.priority
  full : v.proc.ticksUsed = getTimeSlice v.proc.priority → v.thread.beforeYield
  zero : v.proc.state = .unused → v.proc.ZeroMlfq

namespace View

variable {v v' : View} {a : LAct}

/-- Sections that keep the scheduling fields and free no slot. -/
theorem Quantum.frame (hv : v.Quantum) (hs : v.proc.SameMlfq v'.proc)
    (hoff : v'.thread.isOff = true ↔ v'.proc.state ≠ .running)
    (hfull : v.thread.beforeYield → v'.thread.beforeYield)
    (hz : v'.proc.state = .unused → v.proc.state = .unused) : v'.Quantum := by
  refine ⟨hoff, ?_, ?_, ?_, fun h => hs.zero (hv.zero (hz h))⟩
  · rw [hs.priority]; exact hv.prio
  · rw [hs.priority, hs.ticksUsed]; exact hv.ticks
  · rw [hs.priority, hs.ticksUsed]
    exact fun h => hfull (hv.full h)

/-- Sections that start a new quantum. -/
theorem Quantum.restart (hoff : v'.thread.isOff = true ↔ v'.proc.state ≠ .running)
    (hp : 0 ≤ v'.proc.priority ∧ v'.proc.priority ≤ 2) (ht : v'.proc.ticksUsed = 0)
    (hz : v'.proc.state = .unused → v'.proc.ZeroMlfq) : v'.Quantum := by
  have hpos := getTimeSlice_pos v'.proc.priority
  refine ⟨hoff, hp, ?_, ?_, hz⟩
  · rw [ht]; exact ⟨le_rfl, hpos.le⟩
  · rw [ht]; intro h; omega

/-- A thread that is not switched out belongs to a `RUNNING` process. -/
theorem Quantum.running (hv : v.Quantum) (h : v.thread.isOff = false) : v.proc.state = .running := by
  by_contra hne
  rw [hv.off.mpr hne] at h
  cases h

/-- The end of a quantum in `yield`. -/
theorem Quantum.yield (hv : v.Quantum) : View.Quantum ⟨v.proc.yield, .off .yield⟩ := by
  have hoff : (Thread.off .yield).isOff = true ↔ v.proc.yield.state ≠ .running :=
    iff_of_true rfl (by simp)
  obtain ⟨hp0, hp2⟩ := hv.prio
  rcases v.proc.demote_cases with ⟨hlt, hd⟩ | ⟨-, hp, hd⟩ | ⟨-, -, hd⟩
  · refine ⟨hoff, ?_, ?_, ?_, ?_⟩ <;> simp only [Proc.yield, hd]
    · exact hv.prio
    · exact hv.ticks
    · intro h; omega
    · intro h; cases h
  · refine .restart hoff ?_ ?_ ?_ <;> simp only [Proc.yield, hd]
    · rw [inc_of_lt (by unfold intMax; omega)]; omega
    · intro h; cases h
  · refine .restart hoff ?_ ?_ ?_ <;> simp only [Proc.yield, hd]
    · exact hv.prio
    · intro h; cases h

/-- The charge of a tick. -/
theorem Quantum.charge (hv : v.Quantum) (ht : v.thread = .trapped) :
    View.Quantum ⟨v.proc.mlfqCheckTimer, .charged⟩ := by
  have hst := hv.running (by simp [ht, Thread.isOff])
  have hlt : v.proc.ticksUsed < getTimeSlice v.proc.priority := by
    refine lt_of_le_of_ne hv.ticks.2 fun h => ?_
    rcases hv.full h with h | h <;> rw [ht] at h <;> cases h
  have hinc : inc v.proc.ticksUsed = v.proc.ticksUsed + 1 := by
    have := getTimeSlice_le v.proc.priority
    exact inc_of_lt (by unfold intMax; omega)
  have h0 := hv.ticks.1
  refine ⟨?_, hv.prio, ?_, fun _ => .inl rfl, ?_⟩ <;> simp only [Proc.mlfqCheckTimer]
  · simp [Thread.isOff, hst]
  · rw [hinc]; omega
  · intro h; rw [hst] at h; cases h

/-- **Every section keeps the quantum.** -/
theorem Quantum.step (hv : v.Quantum) (h : v.step a = some v') : v'.Quantum := by
  cases a <;> simp only [View.step, Option.some.injEq, Option.ite_none_right_eq_some] at h
  case none => exact h ▸ hv
  case boost =>
    subst h
    by_cases hu : v.proc.state = .unused
    · simpa [Proc.priorityBoost, hu] using hv
    · refine .restart (by simpa using hv.off) ?_ ?_ ?_ <;> simp [Proc.priorityBoost, hu]
  case dispatch =>
    obtain ⟨hst, rfl⟩ := h
    have hoff := hv.off.mpr (by simp [hst])
    obtain ⟨r, hr⟩ : ∃ r, v.thread = .off r := by
      cases ht : v.thread <;> simp [ht, Thread.isOff] at hoff
      exact ⟨_, rfl⟩
    refine ⟨by simp [hr, Thread.switchIn, Thread.isOff], hv.prio, hv.ticks, fun hf => ?_, by simp⟩
    rcases hv.full hf with h | h <;> rw [hr] at h <;> cases h
  case resume =>
    split at h <;> simp only [Option.some.injEq, reduceCtorEq] at h
    all_goals
      next ht =>
      subst h
      have hst := hv.running (by simp [ht, Thread.isOff])
      refine hv.frame ⟨rfl, rfl, rfl, rfl, rfl, rfl⟩ ?_ ?_ (by simp)
      · simp [hst, Thread.isOff]
      · simp [ht, Thread.beforeYield]
  case timer | trapExit =>
    obtain ⟨ht, rfl⟩ := h
    have hst := hv.running (by simp [ht, Thread.isOff])
    refine hv.frame (v.proc.same_refl) ?_ ?_ id
    · simp [hst, Thread.isOff]
    · simp [ht, Thread.beforeYield]
  case charge =>
    obtain ⟨ht, rfl⟩ := h
    exact hv.charge ht
  case count =>
    obtain ⟨ht, rfl⟩ := h
    have hst := hv.running (by simp [ht, Thread.isOff])
    refine hv.frame (v.proc.same_refl) ?_ (fun _ => .inr rfl) id
    simp [hst, Thread.isOff]
  case yield =>
    obtain ⟨-, rfl⟩ := h
    exact hv.yield
  case setkilled =>
    subst h
    exact hv.frame ⟨rfl, rfl, rfl, rfl, rfl, rfl⟩ hv.off id id
  case sleep chan =>
    obtain ⟨-, rfl⟩ := h
    exact .restart (by simp [Thread.isOff]) hv.prio rfl (by simp)
  case exit status =>
    obtain ⟨ht, rfl⟩ := h
    refine hv.frame ⟨rfl, rfl, rfl, rfl, rfl, rfl⟩ (by simp [Thread.isOff]) ?_ (by simp)
    simp [ht, Thread.beforeYield]
  case alloc r pid =>
    obtain ⟨hu, rfl⟩ := h
    have hz := v.proc.zero_alloc r pid
    have hoff := hv.off.mpr (by simp [hu])
    refine .restart ?_ (by simp [hz.priority]) hz.ticksUsed fun _ => hz
    by_cases hr : r = .ok
    · simp [hr, Thread.isOff, Proc.alloc]
    · simp [hr, hoff, Proc.alloc_state_of_fail]
  case ready =>
    obtain ⟨hu, rfl⟩ := h
    have hoff := hv.off.mpr (by simp [hu])
    exact hv.frame ⟨rfl, rfl, rfl, rfl, rfl, rfl⟩ (by simp [hoff]) id (by simp)
  case free =>
    obtain ⟨hz, rfl⟩ := h
    have hoff := hv.off.mpr (by simp [hz])
    exact .restart (by simp [hoff]) (by simp [Proc.freeproc]) rfl fun _ => v.proc.zero_freeproc
  case wakeup chan =>
    subst h
    refine hv.frame (v.proc.same_wakeup chan) (hv.off.trans ?_) id ?_
    all_goals rcases v.proc.wakeup_state chan with hs | ⟨hs, hs'⟩ <;> simp [*]
  case kill pid =>
    subst h
    refine hv.frame (v.proc.same_kill pid) (hv.off.trans ?_) id ?_
    all_goals rcases v.proc.kill_state pid with hs | ⟨hs, hs'⟩ <;> simp [*]
  case setpriority pid priority =>
    obtain ⟨⟨h0, h2⟩, rfl⟩ := h
    by_cases hh : v.proc.hasPid pid = true
    · have hu : v.proc.state ≠ .unused := by simp [Proc.hasPid] at hh; exact hh.2
      refine .restart (by simpa using hv.off) ?_ ?_ ?_ <;> simp [Proc.setprocpriority, hh, h0, h2, hu]
    · simpa [Proc.setprocpriority, hh] using hv
  case parent o =>
    subst h
    exact hv.frame ⟨rfl, rfl, rfl, rfl, rfl, rfl⟩ hv.off id id

theorem quantum_boot (C : ℕ) (p : Slot) : ((boot C).view p).Quantum := by
  have hoff := (wf_boot C).off p
  by_cases hp : p = initproc
  · subst hp
    exact .restart hoff (by simp [Sys.view, boot, userinit, Proc.allocproc])
      (by simp [Sys.view, boot, userinit, Proc.allocproc]) (by simp [Sys.view, boot, userinit])
  · refine .restart hoff ?_ ?_ fun _ => ⟨?_, ?_, ?_, ?_, ?_, ?_⟩ <;>
      simp [Sys.view, boot, userinit, hp, procinit, Proc.zero]

end View

variable {C : ℕ} {s : Sys C} {h : List (Sys C × Ev C)}

theorem Reach.quantum (hr : Reach C h s) (p : Slot) : (s.view p).Quantum :=
  (hr.view p).inv (View.quantum_boot C p) fun _ _ _ hv hs => hv.step hs

/-- **Priorities and quanta** in every reachable state of the layer. -/
theorem quantum_invariant (hr : Reach C h s) (i : Slot) :
    (0 ≤ (s.proc i).priority ∧ (s.proc i).priority ≤ NMLFQ - 1) ∧
    (0 ≤ (s.proc i).ticksUsed ∧ (s.proc i).ticksUsed ≤ getTimeSlice (s.proc i).priority) ∧
    ((s.proc i).ticksUsed = getTimeSlice (s.proc i).priority →
      (s.proc i).state = .running ∧
        ∃ c, s.cpu c = .run i ∧ (s.thread i = .charged ∨ s.thread i = .counted)) ∧
    ((s.proc i).state = .unused →
      (s.proc i).priority = 0 ∧ (s.proc i).ticksUsed = 0 ∧ (s.proc i).ticksTotal = 0 ∧
        (s.proc i).numScheduled = 0 ∧ (s.proc i).numDemoted = 0 ∧ (s.proc i).numBoosted = 0) := by
  have hq := hr.quantum i
  have h3 : ((NMLFQ : ℤ) - 1) = 2 := by decide
  refine ⟨by rw [h3]; exact hq.prio, hq.ticks, fun hfull => ?_, fun hu => ?_⟩
  · have ht : s.thread i = .charged ∨ s.thread i = .counted := hq.full hfull
    have hst : (s.proc i).state = .running := by
      refine hq.running ?_
      rcases ht with ht | ht <;> simp [Sys.view, ht, Thread.isOff]
    obtain ⟨c, hc⟩ := hr.wf.onCpu i hst
    exact ⟨hst, c, hc, ht⟩
  · have hz := hq.zero hu
    exact ⟨hz.priority, hz.ticksUsed, hz.ticksTotal, hz.numScheduled, hz.numDemoted, hz.numBoosted⟩

/-- `initproc` between its first charge and the `yield` that follows. -/
theorem quantum_invariant_firstCharge : ∃ h s, Reach 1 h s ∧
    (s.proc initproc).ticksUsed = getTimeSlice (s.proc initproc).priority ∧
    (s.proc initproc).state = .running ∧
    ∃ c, s.cpu c = .run initproc ∧ (s.thread initproc = .charged ∨ s.thread initproc = .counted) := by
  obtain ⟨h, s, hr, hfull⟩ := exists_reach_of_replay (C := 1)
    (fun _ s => (s.proc initproc).ticksUsed = getTimeSlice (s.proc initproc).priority) firstCharge
    (by decide +kernel)
  exact ⟨h, s, hr, hfull, (quantum_invariant hr initproc).2.2.1 hfull⟩

end Xv6Mlfq
