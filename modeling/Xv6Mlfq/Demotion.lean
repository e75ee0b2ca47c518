import Xv6Mlfq.Effect

/-!
# Xv6Mlfq.Demotion — a process is demoted exactly when its quantum is used up

`charged h` counts, on the history of a slot, the ticks charged since the current quantum of its
process started.  It is what `ticks_used` holds (`ticksUsed_eq_charged`), so the test of `yield` is
a test of the history: `demotion_exact`.
-/

namespace Xv6Mlfq

open CInt Lts

variable {p : Slot}

/-! ## Ticks of the current quantum -/

/-- The ticks charged to a process since its quantum started. -/
def charged : List (View × LAct) → ℕ
  | [] => 0
  | (v, a) :: h => if v.startsQuantum a then 0 else if a = .charge then charged h + 1 else charged h

/-- Since its allocation the process has given up the CPU by `yield` only with a part of its slice
used: it always slept before it had accumulated the slice. -/
def sleepsEarly : List (View × LAct) → Prop
  | [] => True
  | (_, .alloc .ok _) :: _ => True
  | (v, .yield) :: h => (charged h : ℤ) < getTimeSlice v.proc.priority ∧ sleepsEarly h
  | _ :: h => sleepsEarly h

section Local

variable {v v' : View} {a : LAct} {h : List (View × LAct)}

theorem charged_of_starts (hs : v.startsQuantum a = true) : charged ((v, a) :: h) = 0 := by
  simp [charged, hs]

theorem charged_of_quiet (hs : v.startsQuantum a = false) (hc : a ≠ .charge) :
    charged ((v, a) :: h) = charged h := by simp [charged, hs, hc]

/-- What is known of the past survives every section but the allocation. -/
theorem sleepsEarly_tail (hk : sleepsEarly ((v, a) :: h)) (hne : ∀ pid, a ≠ .alloc .ok pid) :
    sleepsEarly h := by
  cases a with
  | alloc r pid =>
    cases r with
    | ok => exact absurd rfl (hne pid)
    | noMemory => exact hk
    | noCopy => exact hk
  | yield => exact hk.2
  | _ => exact hk

/-- One section keeps `ticks_used` equal to the ticks charged. -/
theorem View.Effect.ticksUsed (hv : v.Quantum) (he : v.Effect a v')
    (ih : v.proc.state ≠ .unused → v.proc.ticksUsed = charged h)
    (hu : v'.proc.state ≠ .unused) : v'.proc.ticksUsed = charged ((v, a) :: h) := by
  cases he with
  | quiet hq =>
    rw [charged_of_quiet hq.starts hq.ne_charge, hq.same.ticksUsed]
    exact ih fun h => hu ((hq.unused_iff hv).mpr h)
  | boost hst => rw [charged_of_starts (by simp [startsQuantum, hst])]; rfl
  | dispatch hst =>
    rw [charged_of_quiet rfl (by simp)]
    exact ih (by simp [hst])
  | charge ht =>
    have hst := hv.running (by simp [ht, Thread.isOff])
    have hlt : v.proc.ticksUsed < intMax := by
      have h1 := hv.ticks.2
      have h2 := getTimeSlice_le v.proc.priority
      unfold intMax
      omega
    have hq : charged ((v, .charge) :: h) = charged h + 1 := by simp [charged, startsQuantum]
    show inc v.proc.ticksUsed = _
    rw [hq, inc_of_lt hlt, ih (by simp [hst])]
    push_cast
    rfl
  | demote _ hge _ | renew _ hge _ => rw [charged_of_starts (by simp [startsQuantum, hge])]; rfl
  | sleep _ => rw [charged_of_starts rfl]; rfl
  | @alloc r pid _ =>
    cases r with
    | ok => rw [charged_of_starts rfl]; rfl
    | noMemory => exact absurd rfl hu
    | noCopy => exact absurd rfl hu
  | free _ => exact absurd rfl hu
  | setpriority hh _ _ => rw [charged_of_starts (by simp [startsQuantum, hh])]; rfl

/-- One section demotes only a process that has used its slice. -/
theorem View.Effect.numDemoted (hv : v.Quantum) (he : v.Effect a v')
    (ht : v.proc.state ≠ .unused → v.proc.ticksUsed = charged h)
    (ih : sleepsEarly h → v.proc.state ≠ .unused → v.proc.numDemoted = 0)
    (hk : sleepsEarly ((v, a) :: h)) (hu : v'.proc.state ≠ .unused) : v'.proc.numDemoted = 0 := by
  have past := sleepsEarly_tail hk
  cases he with
  | quiet hq =>
    rw [hq.same.numDemoted]
    refine ih (past ?_) fun h => hu ((hq.unused_iff hv).mpr h)
    rintro pid rfl
    cases hq.starts
  | boost hst => exact ih (past (by simp)) hst
  | dispatch hst => exact ih (past (by simp)) (by simp [hst])
  | charge hth | renew hth _ _ | sleep hth => exact ih (past (by simp)) (by simp [hv.running (by simp [hth, Thread.isOff])])
  | demote hth hge _ =>
    have hst := hv.running (by simp [hth, Thread.isOff])
    have hlt : (charged h : ℤ) < getTimeSlice v.proc.priority := hk.1
    rw [← ht (by simp [hst])] at hlt
    exact absurd hge (not_le.mpr hlt)
  | @alloc r pid _ => exact (v.proc.zero_alloc r pid).numDemoted
  | free _ => rfl
  | setpriority hh _ _ =>
    refine ih (past (by simp)) fun h => ?_
    simp [Proc.hasPid, h] at hh

/-- **What a section can do to a priority**: leave it (and then it is no `yield` that finds a quantum
used up above the lowest queue), demote, boost, set it, or free the slot. -/
theorem View.Effect.priority_cases (hv : v.Quantum) (he : v.Effect a v') :
    (v'.proc.priority = v.proc.priority ∧
      ¬ (a = .yield ∧ v.proc.priority < 2 ∧ getTimeSlice v.proc.priority ≤ v.proc.ticksUsed)) ∨
    (a = .yield ∧ v.thread = .counted ∧ v.proc.priority < 2 ∧
      getTimeSlice v.proc.priority ≤ v.proc.ticksUsed ∧
      v'.proc.priority = v.proc.priority + 1 ∧ v'.proc.numDemoted = inc v.proc.numDemoted) ∨
    (a = .boost ∧ v'.proc.priority = 0) ∨
    (∃ pid priority, a = .setpriority pid priority ∧ v.proc.hasPid pid = true) ∨
    (a = .free ∧ v'.proc.state = .unused ∧ v'.proc.priority = 0) := by
  cases he with
  | quiet hq =>
    refine .inl ⟨hq.same.priority, ?_⟩
    rintro ⟨rfl, -, hge⟩
    have hst := hq.starts
    simp only [startsQuantum, decide_eq_false_iff_not] at hst
    exact hst hge
  | boost _ => exact .inr (.inr (.inl ⟨rfl, rfl⟩))
  | dispatch _ | charge _ | sleep _ => exact .inl ⟨rfl, by simp⟩
  | demote ht hge hp =>
    have hinc : inc v.proc.priority = v.proc.priority + 1 := inc_of_lt (by unfold intMax; omega)
    exact .inr (.inl ⟨rfl, ht, hp, hge, hinc, rfl⟩)
  | renew _ _ hp => exact .inl ⟨rfl, by omega⟩
  | @alloc r pid hu =>
    refine .inl ⟨?_, by simp⟩
    rw [(v.proc.zero_alloc r pid).priority, (hv.zero hu).priority]
  | free _ => exact .inr (.inr (.inr (.inr ⟨rfl, rfl, rfl⟩)))
  | @setpriority pid priority hh _ _ => exact .inr (.inr (.inr (.inl ⟨pid, priority, rfl, hh⟩)))

end Local

section Layer

variable {C : ℕ} {s s' : Sys C} {e : Ev C} {h : List (Sys C × Ev C)}

theorem slot_effect (hr : Reach C h s) (hs : s.step e = some s') (p : Slot) :
    (s.view p).Effect (s.project e p) (s'.view p) :=
  View.effect_of_step ((trans_of_step hs).view hr.wf p)

/-- **`ticks_used` is the number of ticks charged in the current quantum.** -/
theorem ticksUsed_eq_charged (hr : Reach C h s) (p : Slot) (hu : (s.proc p).state ≠ .unused) :
    (s.proc p).ticksUsed = charged (slotHist p h) := by
  refine hr.inv_hist (I := fun h s => (s.proc p).state ≠ .unused →
    (s.proc p).ticksUsed = charged (slotHist p h)) (fun hu => ?_) ?_ hu
  · by_cases hp : p = initproc
    · subst hp; rfl
    · exact absurd (by simp [boot, userinit, hp, procinit]) hu
  · intro h s e s' hr ih hs hu
    exact (slot_effect hr hs p).ticksUsed (Reach.quantum hr p) ih hu

theorem numDemoted_of_sleepsEarly (hr : Reach C h s) (p : Slot) (hk : sleepsEarly (slotHist p h))
    (hu : (s.proc p).state ≠ .unused) : (s.proc p).numDemoted = 0 := by
  refine hr.inv_hist (I := fun h s => sleepsEarly (slotHist p h) → (s.proc p).state ≠ .unused →
    (s.proc p).numDemoted = 0) (fun _ hu => ?_) ?_ hk hu
  · by_cases hp : p = initproc
    · subst hp; rfl
    · exact absurd (by simp [boot, userinit, hp, procinit]) hu
  · intro h s e s' hr ih hs hk hu
    exact (slot_effect hr hs p).numDemoted (Reach.quantum hr p) (ticksUsed_eq_charged hr p) ih hk hu

/-! ## The sections of the layer that change a priority -/

/-- `e` is a `yield` of `p`. -/
def YieldOf (s : Sys C) (e : Ev C) (p : Slot) : Prop := e.act = .yield ∧ s.cpu e.cpu = .run p

/-- `e` is the section of a `priority_boost` on `p`. -/
def BoostOf (s : Sys C) (e : Ev C) (p : Slot) : Prop := e.act = .boostSlot ∧ s.cpu e.cpu = .boost p

/-- `e` is the section of a successful `setprocpriority` on `p`. -/
def SetsPriority (s : Sys C) (e : Ev C) (p : Slot) : Prop :=
  ∃ pid priority, e.act = .setprocpriority p pid priority ∧ 0 ≤ priority ∧ priority ≤ 2 ∧
    (s.proc p).hasPid pid = true

theorem project_yield : s.project e p = .yield ↔ YieldOf s e p := by
  obtain ⟨c, a⟩ := e
  cases a <;> simp only [Sys.project, YieldOf] <;> (try split) <;> (try split_ifs) <;> simp_all

theorem project_boost : s.project e p = .boost ↔ BoostOf s e p := by
  obtain ⟨c, a⟩ := e
  cases a <;> simp only [Sys.project, BoostOf] <;> (try split) <;> (try split_ifs) <;> simp_all

theorem project_setpriority {pid priority : ℤ} :
    s.project e p = .setpriority pid priority ↔
      e.act = .setprocpriority p pid priority ∧ 0 ≤ priority ∧ priority ≤ 2 := by
  obtain ⟨c, a⟩ := e
  cases a <;> simp only [Sys.project] <;> (try split) <;> (try split_ifs) <;> simp_all <;> grind

theorem project_free (hf : s.project e p = .free) : e.act = .waitFree p := by
  obtain ⟨c, a⟩ := e
  cases a <;> simp only [Sys.project] at hf <;> (try split at hf) <;> (try split_ifs at hf) <;> simp_all

/-- The five cases of `View.Effect.priority_cases`, in terms of the layer. -/
theorem priority_step (hr : Reach C h s) (hs : s.step e = some s') (p : Slot) :
    ((s'.proc p).priority = (s.proc p).priority ∧
      ¬ (YieldOf s e p ∧ (s.proc p).priority < NMLFQ - 1 ∧
        (charged (slotHist p h) : ℤ) = getTimeSlice (s.proc p).priority)) ∨
    (YieldOf s e p ∧ (s.proc p).priority < NMLFQ - 1 ∧
      (charged (slotHist p h) : ℤ) = getTimeSlice (s.proc p).priority ∧
      (s'.proc p).priority = (s.proc p).priority + 1 ∧
      (s'.proc p).numDemoted = inc (s.proc p).numDemoted) ∨
    (BoostOf s e p ∧ (s'.proc p).priority = 0) ∨ SetsPriority s e p ∨
    (e.act = .waitFree p ∧ (s'.proc p).state = .unused ∧ (s'.proc p).priority = 0) := by
  have hv := hr.quantum p
  have h2 : ((NMLFQ : ℤ) - 1) = 2 := by decide
  -- a `yield` of `p` finds the slice used up iff it has been charged in this quantum
  have hfull : YieldOf s e p → ((charged (slotHist p h) : ℤ) = getTimeSlice (s.proc p).priority ↔
      getTimeSlice (s.proc p).priority ≤ (s.proc p).ticksUsed) := fun hy => by
    rw [← ticksUsed_eq_charged hr p (by simp [hr.wf.running e.cpu p hy.2])]
    exact ⟨fun h => h.ge, fun h => le_antisymm hv.ticks.2 h⟩
  rw [h2]
  rcases (slot_effect hr hs p).priority_cases hv with
    ⟨hpr, hno⟩ | ⟨ha, -, hlt, hge, hpr, hnd⟩ | ⟨ha, hpr⟩ | ⟨pid, priority, ha, hh⟩ | ⟨ha, hu, hpr⟩
  · refine .inl ⟨hpr, ?_⟩
    rintro ⟨hy, hlt, hc⟩
    exact hno ⟨project_yield.mpr hy, hlt, (hfull hy).mp hc⟩
  · have hy := project_yield.mp ha
    exact .inr (.inl ⟨hy, hlt, (hfull hy).mpr hge, hpr, hnd⟩)
  · exact .inr (.inr (.inl ⟨project_boost.mp ha, hpr⟩))
  · obtain ⟨hact, h0, hle⟩ := project_setpriority.mp ha
    exact .inr (.inr (.inr (.inl ⟨pid, priority, hact, h0, hle, hh⟩)))
  · exact .inr (.inr (.inr (.inr ⟨project_free ha, hu, hpr⟩)))

/-- **Demotion exactly on an exhausted quantum.**  A section raises the priority of `p`, other than by
`setprocpriority` on `p`, iff it is a `yield` of `p` above the lowest queue whose slice has been
charged since the quantum started; it then demotes by one level.  As long as the process exists no
other section changes its priority, only a boost and `setprocpriority` lower it, and a process that
always sleeps early has never been demoted. -/
theorem demotion_exact (hr : Reach C h s) (hs : s.step e = some s') (p : Slot) :
    ((s.proc p).priority < (s'.proc p).priority ∧ ¬ SetsPriority s e p ↔
      YieldOf s e p ∧ (s.proc p).priority < NMLFQ - 1 ∧
        (charged (slotHist p h) : ℤ) = getTimeSlice (s.proc p).priority) ∧
    ((s.proc p).priority < (s'.proc p).priority ∧ ¬ SetsPriority s e p →
      (s'.proc p).priority = (s.proc p).priority + 1 ∧
        (s'.proc p).numDemoted = inc (s.proc p).numDemoted) ∧
    ((s'.proc p).state ≠ .unused → (s'.proc p).priority ≠ (s.proc p).priority →
      YieldOf s e p ∨ BoostOf s e p ∨ SetsPriority s e p) ∧
    ((s'.proc p).state ≠ .unused → (s'.proc p).priority < (s.proc p).priority →
      BoostOf s e p ∨ SetsPriority s e p) ∧
    (sleepsEarly (slotHist p h) → (s.proc p).state ≠ .unused → (s.proc p).numDemoted = 0) := by
  have hp0 : 0 ≤ (s.proc p).priority := (hr.quantum p).prio.1
  have hearly := numDemoted_of_sleepsEarly hr p
  rcases priority_step hr hs p with
    ⟨hpr, hno⟩ | ⟨hy, hlt, hc, hpr, hnd⟩ | ⟨hb, hpr⟩ | hset | ⟨hf, hu, hpr⟩
  · exact ⟨iff_of_false (fun h => by omega) hno, fun h => by omega, fun _ h => absurd hpr h,
      fun _ h => by omega, hearly⟩
  · have hnset : ¬ SetsPriority s e p := by
      rintro ⟨pid, priority, hact, -⟩
      rw [hy.1] at hact; cases hact
    exact ⟨iff_of_true ⟨by omega, hnset⟩ ⟨hy, hlt, hc⟩, fun _ => ⟨hpr, hnd⟩, fun _ _ => .inl hy,
      fun _ h => by omega, hearly⟩
  · have hny : ¬ YieldOf s e p := fun hy => by
      have := hy.1.symm.trans hb.1
      cases this
    exact ⟨iff_of_false (fun h => by omega) fun h => hny h.1, fun h => by omega,
      fun _ _ => .inr (.inl hb), fun _ _ => .inl hb, hearly⟩
  · have hny : ¬ YieldOf s e p := fun hy => by
      obtain ⟨pid, priority, hact, -⟩ := hset
      rw [hy.1] at hact; cases hact
    exact ⟨iff_of_false (fun h => h.2 hset) fun h => hny h.1, fun h => absurd hset h.2,
      fun _ _ => .inr (.inr hset), fun _ _ => .inr hset, hearly⟩
  · have hny : ¬ YieldOf s e p := fun hy => by
      have := hy.1.symm.trans hf
      cases this
    exact ⟨iff_of_false (fun h => by omega) fun h => hny h.1, fun h => by omega,
      fun h => absurd hu h, fun h => absurd hu h, hearly⟩

/-- The first `yield` of `initproc` demotes it. -/
theorem demotion_exact_firstYield : ∃ (h : List (Sys 1 × Ev 1)) (s s' : Sys 1),
    Reach 1 h s ∧ s.step ⟨0, .yield⟩ = some s' ∧
    (s'.proc initproc).priority = (s.proc initproc).priority + 1 ∧
    (s'.proc initproc).numDemoted = inc (s.proc initproc).numDemoted := by
  obtain ⟨h, s, hr, hc, hlt, hch, hen⟩ := exists_reach_of_replay (C := 1)
    (fun h s => s.cpu 0 = .run initproc ∧ (s.proc initproc).priority < NMLFQ - 1 ∧
      (charged (slotHist initproc h) : ℤ) = getTimeSlice (s.proc initproc).priority ∧
      (s.step ⟨0, .yield⟩).isSome = true) (firstCharge ++ [⟨0, .count⟩]) (by decide +kernel)
  obtain ⟨s', hs⟩ := Option.isSome_iff_exists.mp hen
  obtain ⟨hiff, hby, -⟩ := demotion_exact hr hs initproc
  exact ⟨h, s, s', hr, hs, hby (hiff.mpr ⟨⟨rfl, hc⟩, hlt, hch⟩)⟩

end Layer

end Xv6Mlfq
