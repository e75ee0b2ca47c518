import Xv6Mlfq.Effect
import Xv6Mlfq.Scan

/-!
# Xv6Mlfq.RoundRobin — the order of two processes of one queue on one CPU

`scheduler` keeps no queue: every pass starts over at `proc[0]`.  So two processes of one queue take
turns only as far as the table order and the demotions make them:

* a process behind `b` in the table is not selected at the level of `b` while `b` waits there
  (`behind_step`);
* a process before `b` gets no second quantum at the level of `b`, unless its quantum is renewed
  there without a demotion (`View.Spent.step`): it sleeps, it is boosted, its priority is set, or it
  uses up a quantum of the lowest queue.

`not_roundRobin` is the last case: of two processes that only compute, the first one in the table
keeps the CPU.
-/

namespace Xv6Mlfq

open CInt Lts

variable {C : ℕ} {i : Slot}

/-- CPU `c` is about to dispatch `p` at priority `q` with an unused quantum. -/
def Sys.StartsQuantumAt (s : Sys C) (c : Fin C) (p : Slot) (q : Fin NMLFQ) : Prop :=
  s.cpu c = .selected p ∧ (s.proc p).priority = (q.val : ℤ) ∧ (s.proc p).ticksUsed = 0

instance (s : Sys C) (c : Fin C) (p : Slot) (q : Fin NMLFQ) : Decidable (s.StartsQuantumAt c p q) :=
  inferInstanceAs (Decidable (_ ∧ _))

/-- **Round-robin on one CPU**: after a dispatch of `a` that starts a quantum at priority `q`, as long
as `b` waits there, `a` is not dispatched to start another one. -/
def RoundRobin : Prop :=
  ∀ (h0 h : List (Sys 1 × Ev 1)) (s0 s1 s : Sys 1) (a b : Slot) (q : Fin NMLFQ), Reach 1 h0 s0 → a ≠ b →
    s0.StartsQuantumAt 0 a q → s0.step ⟨0, .dispatch⟩ = some s1 → Path Sys.step s1 h s →
    (∀ x ∈ h, x.1.RunnableAt b q) → s.RunnableAt b q → ¬ s.StartsQuantumAt 0 a q

/-! ## Behind a waiting process in the table -/

/-- The CPU has not gone past `b` at priority `q`. -/
def Behind (s : Sys 1) (b : Slot) (q : Fin NMLFQ) : Prop :=
  (∀ q' i, s.cpu 0 = .scan q' i → scanPos q' i ≤ scanPos q b) ∧
  (∀ i, s.cpu 0 = .selected i → ∃ q', s.RunnableAt i q' ∧ scanPos q' i ≤ scanPos q b)

section Behind

variable {s s' : Sys 1} {e : Ev 1} {b : Slot} {q : Fin NMLFQ}

/-- Away from the selection loop there is nothing to show. -/
theorem behind_of_ne (hscan : (s.cpu 0).scanning = false) (hsel : ∀ i, s.cpu 0 ≠ .selected i) :
    Behind s b q := by
  refine ⟨fun q' i h => ?_, fun i h => absurd h (hsel i)⟩
  rw [h] at hscan; cases hscan

theorem behind_of_run (h : s.cpu 0 = .run i) : Behind s b q :=
  behind_of_ne (by rw [h]; rfl) (by simp [h])

/-- The first position of a pass. -/
theorem behind_of_start (h : s.cpu 0 = .scan 0 0) : Behind s b q := by
  refine ⟨fun q' i h' => ?_, fun i h' => ?_⟩ <;> rw [h] at h' <;> cases h'
  exact Nat.zero_le _

theorem behind_step (hj : Behind s b q) (hb : s.RunnableAt b q) (hs : s.step e = some s') :
    Behind s' b q := by
  obtain ⟨c, a⟩ := e
  obtain rfl : c = 0 := Subsingleton.elim _ _
  have ht : Trans s 0 a s' := trans_of_step hs
  cases ht with
  | boostFire _ _ | recordBoost _ | yield _ _ _ | sleep _ _ _ | exit _ _ _ _ => exact behind_of_ne (by simp [Pc.scanning]) (by simp)
  | boostPass _ _ => exact behind_of_start (by simp)
  | @boostSlot i _ _ =>
    cases hn : nextSlot i with
    | some j =>
      have hnext : boostNext i = .boost j := by simp [boostNext, hn]
      exact behind_of_ne (by simp [hnext, Pc.scanning]) (by simp [hnext])
    | none => exact behind_of_start (by simp [boostNext, hn])
  | @scanHit q' i hpc _ hst hpr =>
    refine ⟨by simp, fun j hj' => ?_⟩
    obtain rfl : i = j := by simpa using hj'
    exact ⟨q', ⟨hst, hpr⟩, hj.1 q' i hpc⟩
  | @scanMiss q' i hpc _ hno =>
    have hle := hj.1 q' i hpc
    have hne : scanPos q' i ≠ scanPos q b := by
      intro heq
      obtain ⟨rfl, rfl⟩ := scanPos_inj heq
      exact hno hb
    rcases scanNext_cases q' i with ⟨q1, i1, hn, hpos⟩ | ⟨hn, -⟩
    · refine ⟨fun q2 i2 h2 => ?_, fun j hj' => ?_⟩
      · obtain ⟨rfl, rfl⟩ : q1 = q2 ∧ i1 = i2 := by simpa [hn] using h2
        omega
      · simp [hn] at hj'
    · exact behind_of_ne (by simp [hn, Pc.scanning]) (by simp [hn])
  | @dispatch i _ => exact behind_of_run (i := i) (by simp)
  | timerIdle hidle =>
    refine ⟨hj.1, fun i hi => ?_⟩
    rw [show s.cpu 0 = .selected i from hi] at hidle; cases hidle
  | wakeup hmay _ =>
    refine ⟨hj.1, fun i hi => ?_⟩
    rw [Sys.mayWake, show s.cpu 0 = .selected i from hi] at hmay; cases hmay
  | setprocpriorityBad hpc _ _ _ | reparentSkip hpc _ _ | waitSkip hpc _ _ _ => exact behind_of_run hpc
  | _ hpc => exact behind_of_run (by simpa using hpc)

/-- While `b` waits at priority `q`, every dispatch is of a process not behind it. -/
theorem behind_path {s1 : Sys 1} {h : List (Sys 1 × Ev 1)} (hrun : s1.cpu 0 = .run i)
    (hp : Path Sys.step s1 h s) (hb : ∀ x ∈ h, x.1.RunnableAt b q) : Behind s b q := by
  induction hp with
  | nil => exact behind_of_run hrun
  | @snoc h' z z' e' _ hs ih =>
    exact behind_step (ih fun x hx => hb x (List.mem_cons_of_mem _ hx))
      (hb (z, e') List.mem_cons_self) hs

end Behind

/-! ## A quantum that is not renewed -/

/-- The section starts a new quantum of the process other than by a demotion. -/
def View.renews (v : View) (a : LAct) : Bool :=
  v.startsQuantum a && !(a = .yield ∧ v.proc.priority < 2)

/-- The process has left priority `q` downwards, or still has its quantum there in use. -/
def View.Spent (q : ℤ) (v : View) : Prop :=
  v.proc.state = .unused ∨ v.proc.state = .zombie ∨ q < v.proc.priority ∨
    v.proc.priority = q ∧ (0 < v.proc.ticksUsed ∨ v.thread.uncharged = true)

theorem Thread.uncharged_of_isOff {t : Thread} (h : t.isOff = true) : t.uncharged = false := by
  cases t <;> first | rfl | cases h

namespace View

variable {v v' : View} {a : LAct} {q : ℤ}

/-- Sections that keep the quantum. -/
theorem Spent.frame (hk : v.Spent q) (hpr : v'.proc.priority = v.proc.priority)
    (htu : v'.proc.ticksUsed = v.proc.ticksUsed)
    (hu : v.proc.state = .unused → v'.proc.state = .unused)
    (hz : v.proc.state = .zombie → v'.proc.state = .zombie)
    (ht : v.thread.uncharged = true → v'.thread.uncharged = true) : v'.Spent q := by
  unfold Spent
  rw [hpr, htu]
  rcases hk with h | h | h | ⟨hp, h⟩
  · exact .inl (hu h)
  · exact .inr (.inl (hz h))
  · exact .inr (.inr (.inl h))
  · exact .inr (.inr (.inr ⟨hp, h.imp_right ht⟩))

theorem Spent.charge (hv : v.Quantum) (hk : v.Spent q) :
    View.Spent q ⟨v.proc.mlfqCheckTimer, .charged⟩ := by
  have hinc : inc v.proc.ticksUsed = v.proc.ticksUsed + 1 := by
    refine inc_of_lt ?_
    have h1 := hv.ticks.2
    have h2 := getTimeSlice_le v.proc.priority
    simp only [intMax]
    omega
  rcases hk with h | h | h | ⟨hp, -⟩
  · exact .inl h
  · exact .inr (.inl h)
  · exact .inr (.inr (.inl h))
  · refine .inr (.inr (.inr ⟨hp, .inl ?_⟩))
    show 0 < inc v.proc.ticksUsed
    have := hv.ticks.1
    omega

/-- **Without a renewal a process gets no second quantum at its level.** -/
theorem Spent.step (hv : v.Quantum) (hk : v.Spent q) (he : v.Effect a v')
    (hno : v.renews a = false) : v'.Spent q := by
  cases he with
  | quiet hq =>
    cases hq with
    | stay hs hst _ _ =>
      refine hk.frame hs.priority hs.ticksUsed ?_ ?_ id
      all_goals rcases hst with hst | ⟨hst, -⟩ <;> simp [hst]
    | go hs hst _ hun _ _ =>
      exact hk.frame hs.priority hs.ticksUsed (by simp [hst]) (by simp [hst]) fun _ => hun
    | count ht => exact hk.frame rfl rfl id id (by simp [ht, Thread.uncharged])
    | keep ht _ =>
      have hst := hv.running (by simp [ht, Thread.isOff])
      exact hk.frame rfl rfl (by simp [hst]) (by simp [hst]) (by simp [ht, Thread.uncharged])
    | exit _ => exact .inr (.inl rfl)
    | ready hu => exact hk.frame rfl rfl (by simp [hu]) (by simp [hu]) id
  | boost hu => simp [renews, startsQuantum, hu] at hno
  | dispatch hst =>
    refine hk.frame rfl rfl (by simp [hst]) (by simp [hst]) fun hu => ?_
    rw [Thread.uncharged_of_isOff (hv.off.mpr (by simp [hst]))] at hu
    cases hu
  | charge _ => exact hk.charge hv
  | demote ht _ hp =>
    have hst := hv.running (by simp [ht, Thread.isOff])
    have hle : q ≤ v.proc.priority := by
      simp only [Spent, hst, reduceCtorEq, false_or] at hk
      omega
    refine .inr (.inr (.inl ?_))
    show q < inc v.proc.priority
    rw [inc_of_lt (by simp only [intMax]; omega)]
    omega
  | renew _ hge hp =>
    -- a quantum of the lowest queue was used up
    simp [renews, startsQuantum, hge] at hno
    omega
  | sleep _ => cases hno
  | @alloc r pid _ =>
    refine .inl (Proc.alloc_state_of_fail _ _ fun hr => ?_)
    subst hr
    cases hno
  | free _ => exact .inl rfl
  | setpriority hh _ _ => simp [renews, startsQuantum, hh] at hno

end View

/-! ## Two processes of one queue -/

/-- A pass of `n` checks, and one tick of the process it selects. -/
def passAndTick (n : ℕ) : List (Ev 1) :=
  ⟨0, .boostTest⟩ :: List.replicate n ⟨0, .scanSlot⟩ ++
    [⟨0, .dispatch⟩, ⟨0, .resume⟩, ⟨0, .timer⟩, ⟨0, .charge⟩, ⟨0, .count⟩, ⟨0, .yield⟩]

/-- `initproc` forks a child into `proc[1]`; both compute until they are at priority 1. -/
def forkAndCompute : List (Ev 1) :=
  [⟨0, .boostTest⟩, ⟨0, .scanSlot⟩, ⟨0, .dispatch⟩, ⟨0, .resume⟩, ⟨0, .alloc 1 .ok⟩, ⟨0, .forkParent⟩,
    ⟨0, .forkReady⟩, ⟨0, .timer⟩, ⟨0, .charge⟩, ⟨0, .count⟩, ⟨0, .yield⟩] ++ passAndTick 2

/-- `initproc`, dispatched at priority 1, uses up its quantum there, and a pass selects its child. -/
def middleQuantum : List (Ev 1) :=
  [⟨0, .resume⟩, ⟨0, .timer⟩, ⟨0, .charge⟩, ⟨0, .count⟩, ⟨0, .yield⟩] ++ passAndTick 65 ++
  ⟨0, .boostTest⟩ :: List.replicate 66 ⟨0, .scanSlot⟩

section OneCpu

variable {h0 h : List (Sys 1 × Ev 1)} {s0 s1 s : Sys 1} {a b : Slot} {q : Fin NMLFQ}

/-- A dispatched process whose quantum is not renewed. -/
theorem spent_path (hr : Reach 1 h0 s1) (hk : (s1.view a).Spent q.val) (hp : Path Sys.step s1 h s)
    (hno : ∀ x ∈ slotHist a h, x.1.renews x.2 = false) : (s.view a).Spent q.val := by
  have hv := path_view hr.wf hp a
  have hq := hr.quantum a
  revert hno
  refine hv.inv_hist (I := fun k v => (∀ x ∈ k, x.1.renews x.2 = false) → v.Spent q.val) (fun _ => hk) ?_
  intro k v l v' hpath ih hs hno
  have hqv : v.Quantum := hpath.inv hq fun _ _ _ hq hs => hq.step hs
  exact (ih fun x hx => hno x (List.mem_cons_of_mem _ hx)).step hqv (View.effect_of_step hs)
    (hno (v, l) List.mem_cons_self)

/-- **When two processes of one queue take turns.**  On one CPU, if `a` is dispatched at priority `q`
to start a quantum and `b` waits there since, `a` starts no second quantum at `q` as long as `b` comes
before `a` in the table, or `a` has not slept, been boosted, had its priority set, or used up a quantum
of the lowest queue. -/
theorem round_robin_of_order_or_no_renewal (hr : Reach 1 h0 s0) (hstart : s0.StartsQuantumAt 0 a q)
    (hs : s0.step ⟨0, .dispatch⟩ = some s1) (hp : Path Sys.step s1 h s)
    (hb : ∀ x ∈ h, x.1.RunnableAt b q)
    (hcond : b < a ∨ ∀ x ∈ slotHist a h, x.1.renews x.2 = false) : ¬ s.StartsQuantumAt 0 a q := by
  obtain ⟨hsel, hpr, htu⟩ := hstart
  have hr1 : Reach 1 ((s0, ⟨0, .dispatch⟩) :: h0) s1 := hr.snoc hs
  -- the dispatch leaves `a` running with its quantum unused
  obtain ⟨hrun, hk⟩ : s1.cpu 0 = .run a ∧ (s1.view a).Spent q.val := by
    have ht : Trans s0 0 .dispatch s1 := trans_of_step hs
    cases ht with
    | @dispatch i hpc =>
      obtain rfl : a = i := by simpa [hsel] using hpc
      refine ⟨by simp, .inr (.inr (.inr ⟨?_, .inr ?_⟩))⟩
      · simpa [Sys.view, Proc.dispatch] using hpr
      · have hoff : (s0.thread a).isOff = true :=
          (hr.wf.off a).mpr (by simp [(hr.wf.selected 0 a hsel).2])
        cases hth : s0.thread a <;> rw [hth] at hoff <;> cases hoff
        simp [Sys.view, Thread.switchIn, Thread.uncharged]
  rintro ⟨hsel', hpr', htu'⟩
  have hw : Wf s := Reach.wf (hr1.trans hp)
  have hst := (hw.selected 0 a hsel').2
  rcases hcond with hlt | hno
  · obtain ⟨q', hrun', hle⟩ := (behind_path hrun hp hb).2 a hsel'
    have hq : q' = q := by
      have := hrun'.2.symm.trans hpr'
      exact Fin.ext (by exact_mod_cast this)
    subst hq
    rw [scanPos_le_iff] at hle
    simp only [Fin.lt_def, Fin.le_def] at hlt hle
    omega
  · have hk' := spent_path hr1 hk hp hno
    have hoff : (s.thread a).isOff = true := (hw.off a).mpr (by simp [hst])
    simp only [View.Spent, Sys.view, hst, hpr', htu', Thread.uncharged_of_isOff hoff] at hk'
    simp at hk'

/-- At priority 1 the child of `initproc` gets its turn: `initproc` is demoted. -/
theorem round_robin_middle_queue : ∃ (h0 h : List (Sys 1 × Ev 1)) (s0 s1 s : Sys 1), Reach 1 h0 s0 ∧
    s0.StartsQuantumAt 0 initproc 1 ∧ s0.step ⟨0, .dispatch⟩ = some s1 ∧ Path Sys.step s1 h s ∧
    (∀ x ∈ h, x.1.RunnableAt 1 1) ∧ s.cpu 0 = .selected 1 ∧ ¬ s.StartsQuantumAt 0 initproc 1 := by
  obtain ⟨h0, s0, hr, hstart, hnext⟩ := exists_reach_of_replay (C := 1)
    (fun _ s0 => s0.StartsQuantumAt 0 initproc 1 ∧
      ((s0.step ⟨0, .dispatch⟩).any fun s1 => (replay Sys.step [] s1 middleQuantum).any fun x =>
        decide ((∀ y ∈ x.1, y.1.RunnableAt 1 1) ∧ x.2.cpu 0 = .selected 1 ∧
          ∀ y ∈ slotHist initproc x.1, y.1.renews y.2 = false)) = true)
    (forkAndCompute ++ ⟨0, .boostTest⟩ :: List.replicate 65 ⟨0, .scanSlot⟩) (by decide +kernel)
  obtain ⟨s1, hs, hrun⟩ := (Option.any_eq_true _ _).mp hnext
  obtain ⟨h, s, hp, hb, hsel, hno⟩ := exists_path_of_replay
    (fun (h : List (Sys 1 × Ev 1)) (s : Sys 1) => (∀ y ∈ h, y.1.RunnableAt 1 1) ∧
      s.cpu 0 = .selected 1 ∧ ∀ y ∈ slotHist initproc h, y.1.renews y.2 = false) _ hrun
  exact ⟨h0, h, s0, s1, s, hr, hstart, hs, hp, hb, hsel,
    round_robin_of_order_or_no_renewal hr hstart hs hp hb (.inr hno)⟩

/-- `initproc` and its child compute until they are at priority 2, and a pass selects `initproc`. -/
def computeToLowest : List (Ev 1) :=
  forkAndCompute ++ passAndTick 65 ++ passAndTick 65 ++ passAndTick 66 ++ passAndTick 66 ++
  ⟨0, .boostTest⟩ :: List.replicate 129 ⟨0, .scanSlot⟩

/-- `initproc` uses up a quantum of the lowest queue, and the next pass selects it again. -/
def lowestQuantum : List (Ev 1) :=
  [⟨0, .resume⟩, ⟨0, .timer⟩, ⟨0, .charge⟩, ⟨0, .count⟩, ⟨0, .yield⟩] ++
  passAndTick 129 ++ passAndTick 129 ++ passAndTick 129 ++
  ⟨0, .boostTest⟩ :: List.replicate 129 ⟨0, .scanSlot⟩

/-- **Round-robin fails in the lowest queue**: `initproc` starts a second quantum at priority 2 while
its child waits there. -/
theorem not_roundRobin : ¬ RoundRobin := by
  intro hrr
  obtain ⟨h0, s0, hr, hstart, hnext⟩ := exists_reach_of_replay (C := 1)
    (fun _ s0 => s0.StartsQuantumAt 0 initproc 2 ∧
      ((s0.step ⟨0, .dispatch⟩).any fun s1 => (replay Sys.step [] s1 lowestQuantum).any fun x =>
        decide ((∀ y ∈ x.1, y.1.RunnableAt 1 2) ∧ x.2.RunnableAt 1 2 ∧
          x.2.StartsQuantumAt 0 initproc 2)) = true)
    computeToLowest (by decide +kernel)
  obtain ⟨s1, hs, hrun⟩ := (Option.any_eq_true _ _).mp hnext
  obtain ⟨h, s, hp, hb, hbs, hagain⟩ := exists_path_of_replay
    (fun (h : List (Sys 1 × Ev 1)) (s : Sys 1) => (∀ y ∈ h, y.1.RunnableAt 1 2) ∧
      s.RunnableAt 1 2 ∧ s.StartsQuantumAt 0 initproc 2) _ hrun
  exact hrr h0 h s0 s1 s initproc 1 2 hr (by decide) hstart hs hp hb hbs hagain

end OneCpu

end Xv6Mlfq
