import Xv6Mlfq.Quantum

/-!
# Xv6Mlfq.Scan — one pass of the selection loop of `scheduler`

A pass checks the slots in the order of `(priority, index)`, one `p->lock` section a check, while the
other CPUs change the table between two checks.  `Pass c s0 h s` is a pass of CPU `c` in progress: it
started in `s0`, the run since has history `h`, and it stands in `s` before its next check.

* `Pass.pos`: the pass stands at the position given by the number of its checks.
* `Pass.pos_le`: it has not gone past a process that was `RUNNABLE` at one priority all the time.
* `scan_selects`: what the check that ends a pass has selected.
-/

namespace Xv6Mlfq

open Function Lts

/-- In the selection loop. -/
def Pc.scanning : Pc → Bool
  | .scan _ _ => true
  | _ => false

/-- The number of checks a pass makes before it comes to slot `i` at priority `q`. -/
def scanPos (q : Fin NMLFQ) (i : Slot) : ℕ := q.val * NPROC + i.val

theorem scanPos_lt (q : Fin NMLFQ) (i : Slot) : scanPos q i < NMLFQ * NPROC := by
  have hq := q.isLt
  have hi := i.isLt
  simp only [scanPos, NMLFQ, NPROC] at *
  omega

/-- Positions are ordered by priority, then by index. -/
theorem scanPos_le_iff {q q' : Fin NMLFQ} {i i' : Slot} :
    scanPos q i ≤ scanPos q' i' ↔ q < q' ∨ q = q' ∧ i ≤ i' := by
  have hi := i.isLt
  have hi' := i'.isLt
  simp only [scanPos, NPROC, Fin.lt_def, Fin.le_def, Fin.ext_iff] at *
  omega

theorem scanPos_inj {q q' : Fin NMLFQ} {i i' : Slot} (h : scanPos q i = scanPos q' i') :
    q = q' ∧ i = i' := by
  have h1 := scanPos_le_iff.mp h.le
  have h2 := scanPos_le_iff.mp h.ge
  simp only [Fin.lt_def, Fin.le_def, Fin.ext_iff] at *
  omega

/-- A check that selects nothing moves the loop by one position, or ends the pass. -/
theorem scanNext_cases (q : Fin NMLFQ) (i : Slot) :
    (∃ q' i', scanNext q i = .scan q' i' ∧ scanPos q' i' = scanPos q i + 1) ∨
    (scanNext q i = .test ∧ scanPos q i + 1 = NMLFQ * NPROC) := by
  have hi := i.isLt
  have hq := q.isLt
  unfold scanNext nextSlot nextLevel
  by_cases h : i.val + 1 < NPROC
  · rw [dif_pos h]
    exact .inl ⟨q, ⟨i.val + 1, h⟩, rfl, by simp only [scanPos]; omega⟩
  · rw [dif_neg h]
    by_cases h' : q.val + 1 < NMLFQ
    · rw [dif_pos h']
      refine .inl ⟨⟨q.val + 1, h'⟩, 0, rfl, ?_⟩
      show (q.val + 1) * NPROC + 0 = q.val * NPROC + i.val + 1
      simp only [NPROC] at *
      omega
    · rw [dif_neg h']
      refine .inr ⟨rfl, ?_⟩
      simp only [scanPos, NMLFQ, NPROC] at *
      omega

variable {C : ℕ} {s s' s0 : Sys C} {c : Fin C} {e : Ev C} {h h₀ : List (Sys C × Ev C)} {q q0 : Fin NMLFQ}
  {i r : Slot}

/-- `RUNNABLE` at priority `q`. -/
def Sys.RunnableAt (s : Sys C) (r : Slot) (q : Fin NMLFQ) : Prop :=
  (s.proc r).state = .runnable ∧ (s.proc r).priority = (q.val : ℤ)

instance (s : Sys C) (r : Slot) (q : Fin NMLFQ) : Decidable (s.RunnableAt r q) :=
  inferInstanceAs (Decidable (_ ∧ _))

/-- A section moves no other CPU. -/
theorem Trans.cpu_of_ne {a : Act} {c' : Fin C} (ht : Trans s c a s') (hne : c' ≠ c) :
    s'.cpu c' = s.cpu c' := by
  cases ht <;> simp [hne]

/-- What a step does to a CPU in the selection loop. -/
theorem scan_step (hpc : s.cpu c = .scan q i) (hs : s.step e = some s') :
    (e ≠ ⟨c, .scanSlot⟩ ∧ s'.cpu c = .scan q i) ∨
    (e = ⟨c, .scanSlot⟩ ∧ s.RunnableAt i q ∧ s'.cpu c = .selected i) ∨
    (e = ⟨c, .scanSlot⟩ ∧ ¬ s.RunnableAt i q ∧ s'.cpu c = scanNext q i) := by
  obtain ⟨c', a⟩ := e
  have ht : Trans s c' a s' := trans_of_step hs
  by_cases hc : c = c'
  · subst hc
    cases ht with
    | scanHit hpc' _ hst hpr =>
      obtain ⟨rfl, rfl⟩ : q = _ ∧ i = _ := by simpa [hpc] using hpc'
      exact .inr (.inl ⟨rfl, ⟨hst, hpr⟩, by simp⟩)
    | scanMiss hpc' _ hno =>
      obtain ⟨rfl, rfl⟩ : q = _ ∧ i = _ := by simpa [hpc] using hpc'
      exact .inr (.inr ⟨rfl, hno, by simp⟩)
    | timerIdle _ | wakeup _ _ => exact .inl ⟨by simp, by simpa using hpc⟩
    | _ hpc' => rw [hpc] at hpc'; cases hpc'
  · exact .inl ⟨fun he => hc (congrArg Ev.cpu he).symm, (ht.cpu_of_ne hc).trans hpc⟩

/-! ## Passes -/

/-- A pass of CPU `c` in progress. -/
structure Pass (c : Fin C) (s0 : Sys C) (h : List (Sys C × Ev C)) (s : Sys C) : Prop where
  start : s0.cpu c = .scan 0 0
  path : Path Sys.step s0 h s
  before : ∀ x ∈ h, (x.1.cpu c).scanning = true
  now : (s.cpu c).scanning = true

/-- The checks a pass has made. -/
def checks (c : Fin C) (h : List (Sys C × Ev C)) : ℕ :=
  total (fun _ e => if e = ⟨c, .scanSlot⟩ then 1 else 0) h

section

variable (hp : Pass c s0 h s)
include hp

theorem Pass.at : ∃ q i, s.cpu c = .scan q i := by
  have hnow := hp.now
  cases hpc : s.cpu c with
  | scan q i => exact ⟨q, i, rfl⟩
  | _ => rw [hpc] at hnow; cases hnow

/-- **Induction over a pass.** -/
theorem Pass.inv {I : List (Sys C × Ev C) → Sys C → Prop} (h0 : I [] s0)
    (hstep : ∀ h s e s', Pass c s0 h s → I h s → s.step e = some s' →
      (s'.cpu c).scanning = true → I ((s, e) :: h) s') : I h s := by
  obtain ⟨hstart, hpath, hbefore, hnow⟩ := hp
  induction hpath with
  | nil => exact h0
  | @snoc h' z z' e' hpath hs ih =>
    have hb : ∀ x ∈ h', (x.1.cpu c).scanning = true := fun x hx =>
      hbefore x (List.mem_cons_of_mem _ hx)
    have hz : (z.cpu c).scanning = true := hbefore (z, e') List.mem_cons_self
    exact hstep _ _ _ _ ⟨hstart, hpath, hb, hz⟩ (ih hb hz) hs hnow

/-- A pass that has made `n` checks stands at the `n`-th position. -/
theorem Pass.pos (hpc : s.cpu c = .scan q i) : scanPos q i = checks c h := by
  refine hp.inv (I := fun h s => ∀ q i, s.cpu c = .scan q i → scanPos q i = checks c h) ?_ ?_ q i hpc
  · intro q i hpc
    obtain ⟨rfl, rfl⟩ : (0 : Fin NMLFQ) = q ∧ (0 : Slot) = i := by simpa [hp.start] using hpc
    rfl
  · intro h s e s' hp ih hs _ q' i' hpc'
    obtain ⟨q, i, hpc⟩ := hp.at
    have hpos := ih q i hpc
    simp only [checks, total_cons] at hpos ⊢
    rcases scan_step hpc hs with ⟨hne, hs'⟩ | ⟨-, -, hs'⟩ | ⟨rfl, -, hs'⟩
    · obtain ⟨rfl, rfl⟩ : q = q' ∧ i = i' := by simpa [hs'] using hpc'
      rw [if_neg hne]; omega
    · rw [hs'] at hpc'; cases hpc'
    · rw [if_pos rfl]
      rcases scanNext_cases q i with ⟨q1, i1, hn, hpos1⟩ | ⟨hn, -⟩ <;> rw [hs', hn] at hpc' <;>
        cases hpc'
      omega

/-- **The loop invariant of a pass**: it has not gone past a process that has been `RUNNABLE` at one
priority since it started. -/
theorem Pass.pos_le (hpc : s.cpu c = .scan q i)
    (hrun : ∀ x ∈ h, x.1.RunnableAt r q0) : scanPos q i ≤ scanPos q0 r := by
  refine hp.inv (I := fun h s => (∀ x ∈ h, x.1.RunnableAt r q0) → ∀ q i, s.cpu c = .scan q i →
    scanPos q i ≤ scanPos q0 r) ?_ ?_ hrun q i hpc
  · intro _ q i hpc
    obtain ⟨rfl, rfl⟩ : (0 : Fin NMLFQ) = q ∧ (0 : Slot) = i := by simpa [hp.start] using hpc
    exact Nat.zero_le _
  · intro h s e s' hp ih hs _ hrun q' i' hpc'
    obtain ⟨q, i, hpc⟩ := hp.at
    have hpos := ih (fun x hx => hrun x (List.mem_cons_of_mem _ hx)) q i hpc
    rcases scan_step hpc hs with ⟨-, hs'⟩ | ⟨-, -, hs'⟩ | ⟨-, hno, hs'⟩
    · obtain ⟨rfl, rfl⟩ : q = q' ∧ i = i' := by simpa [hs'] using hpc'
      exact hpos
    · rw [hs'] at hpc'; cases hpc'
    · -- the check was not that of `r` at `q0`, which would have ended the pass
      have hne : scanPos q i ≠ scanPos q0 r := by
        intro heq
        obtain ⟨rfl, rfl⟩ := scanPos_inj heq
        exact hno (hrun (s, e) List.mem_cons_self)
      rcases scanNext_cases q i with ⟨q1, i1, hn, hpos1⟩ | ⟨hn, -⟩ <;> rw [hs', hn] at hpc' <;>
        cases hpc'
      omega

/-- The check that ends a pass, with a process `RUNNABLE` at one priority all the time. -/
theorem Pass.selects (hrun : ∀ x ∈ h, x.1.RunnableAt r q0)
    (hr : s.RunnableAt r q0) (hs : s.step ⟨c, .scanSlot⟩ = some s')
    (hend : (s'.cpu c).scanning = false) :
    ∃ q i, s'.cpu c = .selected i ∧ s.RunnableAt i q ∧ (q < q0 ∨ q = q0 ∧ i ≤ r) := by
  obtain ⟨q, i, hpc⟩ := hp.at
  have hle := hp.pos_le hpc hrun
  rcases scan_step hpc hs with ⟨hne, -⟩ | ⟨-, hhit, hs'⟩ | ⟨-, hno, hs'⟩
  · exact absurd rfl hne
  · exact ⟨q, i, hs', hhit, scanPos_le_iff.mp hle⟩
  · exfalso
    have hne : scanPos q i ≠ scanPos q0 r := by
      intro heq
      obtain ⟨rfl, rfl⟩ := scanPos_inj heq
      exact hno hr
    have hlt := scanPos_lt q0 r
    rcases scanNext_cases q i with ⟨q1, i1, hn, -⟩ | ⟨hn, hlast⟩
    · rw [hs', hn] at hend; cases hend
    · omega

/-- A check selects only a process that is `RUNNABLE` at its moment, or ends the pass with nothing. -/
theorem Pass.ends (hs : s.step ⟨c, .scanSlot⟩ = some s')
    (hend : (s'.cpu c).scanning = false) :
    (∃ q i, s'.cpu c = .selected i ∧ s.RunnableAt i q) ∨ s'.cpu c = .test := by
  obtain ⟨q, i, hpc⟩ := hp.at
  rcases scan_step hpc hs with ⟨hne, -⟩ | ⟨-, hhit, hs'⟩ | ⟨-, -, hs'⟩
  · exact absurd rfl hne
  · exact .inl ⟨q, i, hs', hhit⟩
  · rcases scanNext_cases q i with ⟨q1, i1, hn, -⟩ | ⟨hn, -⟩
    · rw [hs', hn] at hend; cases hend
    · exact .inr (hs'.trans hn)

end

/-- The level of a process of a reachable state. -/
theorem Reach.exists_level (hr : Reach C h s) (i : Slot) :
    ∃ q : Fin NMLFQ, (s.proc i).priority = (q.val : ℤ) := by
  have hp := (hr.quantum i).prio
  refine ⟨⟨(s.proc i).priority.toNat, ?_⟩, ?_⟩
  · simp only [Sys.view, NMLFQ] at hp ⊢
    omega
  · simp only [Sys.view] at hp ⊢
    omega

/-- `i` is the `RUNNABLE` process least in `(priority, index)`. -/
def Sys.IsLeastRunnable (s : Sys C) (i : Slot) : Prop :=
  (s.proc i).state = .runnable ∧ ∀ j, (s.proc j).state = .runnable →
    (s.proc i).priority < (s.proc j).priority ∨
      (s.proc i).priority = (s.proc j).priority ∧ i ≤ j

theorem Sys.IsLeastRunnable.unique {j : Slot} (hi : s.IsLeastRunnable i) (hj : s.IsLeastRunnable j) :
    i = j := by
  have h1 := hi.2 j hj.1
  have h2 := hj.2 i hi.1
  simp only [Fin.le_def, Fin.ext_iff] at *
  omega

/-- The end of a pass during which the table did not change. -/
theorem Pass.static (hr : Reach C h₀ s0) (hp : Pass c s0 h s) (hst : ∀ x ∈ h, x.1.proc = s.proc)
    (hs : s.step ⟨c, .scanSlot⟩ = some s') (hend : (s'.cpu c).scanning = false) :
    (∀ i, s'.cpu c = .selected i ↔ s.IsLeastRunnable i) ∧
    (s'.cpu c = .test ↔ ∀ j, (s.proc j).state ≠ .runnable) := by
  -- every `RUNNABLE` process was so at its level during the whole pass
  have hsel : ∀ j, (s.proc j).state = .runnable → ∃ i, s'.cpu c = .selected i ∧
      ((s.proc i).state = .runnable ∧ ((s.proc i).priority < (s.proc j).priority ∨
        (s.proc i).priority = (s.proc j).priority ∧ i ≤ j)) := by
    intro j hj
    obtain ⟨q0, hq0⟩ := Reach.exists_level (hr.trans hp.path) j
    have hrun : ∀ x ∈ h, x.1.RunnableAt j q0 := fun x hx => by
      unfold Sys.RunnableAt; rw [hst x hx]; exact ⟨hj, hq0⟩
    obtain ⟨q, i, hs', hi, hle⟩ := hp.selects hrun ⟨hj, hq0⟩ hs hend
    refine ⟨i, hs', hi.1, ?_⟩
    rw [hi.2, hq0]
    rcases hle with hlt | ⟨heq, hle⟩
    · exact .inl (Int.ofNat_lt.mpr hlt)
    · exact .inr ⟨by rw [heq], hle⟩
  have hleast : ∀ i, s'.cpu c = .selected i → s.IsLeastRunnable i := by
    intro i hi
    refine ⟨?_, fun j hj => ?_⟩
    · rcases hp.ends hs hend with ⟨q, k, hk, hrun⟩ | ht
      · obtain rfl : k = i := by simpa [hk] using hi
        exact hrun.1
      · rw [hi] at ht; cases ht
    · obtain ⟨k, hk, -, hle⟩ := hsel j hj
      obtain rfl : k = i := by simpa [hk] using hi
      exact hle
  refine ⟨fun i => ⟨hleast i, fun hi => ?_⟩, fun ht j hj => ?_, fun hno => ?_⟩
  · obtain ⟨k, hk, -⟩ := hsel i hi.1
    rwa [(hleast k hk).unique hi] at hk
  · obtain ⟨k, hk, -⟩ := hsel j hj
    rw [ht] at hk; cases hk
  · rcases hp.ends hs hend with ⟨q, i, -, hrun⟩ | ht
    · exact absurd hrun.1 (hno i)
    · exact ht

/-- **Rule 1 under any interleaving.**  A pass in progress has made fewer than `NMLFQ * NPROC` checks,
so it ends.  If its next check ends it and `r` was `RUNNABLE` at priority `q` all the time, a process
has been selected that is `RUNNABLE` and not after `r` in the order of `(priority, index)`; the CPU
holds the lock of the selected process and no other.  If the table did not change, the selected
process is the least `RUNNABLE` one, and nothing is selected iff there is none. -/
theorem scan_selects (hr : Reach C h₀ s0) (hp : Pass c s0 h s)
    (hs : s.step ⟨c, .scanSlot⟩ = some s') :
    checks c h < NMLFQ * NPROC ∧
    ((s'.cpu c).scanning = false → ∀ r (q : Fin NMLFQ), (∀ x ∈ h, x.1.RunnableAt r q) →
      s.RunnableAt r q → ∃ i, s'.cpu c = .selected i ∧
        (s'.proc i).state = .runnable ∧ (s'.proc i).priority ≤ q.val ∧
        ((s'.proc i).priority = q.val → i ≤ r)) ∧
    (∀ j, s'.lock j = some c ↔ s'.cpu c = .selected j) ∧
    ((s'.cpu c).scanning = false → (∀ x ∈ h, x.1.proc = s.proc) →
      (∀ i, s'.cpu c = .selected i ↔ s.IsLeastRunnable i) ∧
      (s'.cpu c = .test ↔ ∀ j, (s.proc j).state ≠ .runnable)) := by
  have hw : Wf s' := Reach.wf ((hr.trans hp.path).snoc hs)
  obtain ⟨q1, i1, hpc⟩ := hp.at
  have hproc : s'.proc = s.proc := by
    cases trans_of_step hs <;> rfl
  refine ⟨?_, fun hend r q hrun hrun' => ?_, fun j => ⟨fun hj => ?_, fun hj => (hw.selected c j hj).1⟩,
    fun hend hst => hp.static hr hst hs hend⟩
  · rw [← hp.pos hpc]; exact scanPos_lt q1 i1
  · obtain ⟨q', i, hs', hi, hle⟩ := hp.selects hrun hrun' hs hend
    refine ⟨i, hs', ?_⟩
    rw [hproc, hi.1, hi.2]
    simp only [Fin.lt_def, Fin.ext_iff] at hle
    refine ⟨rfl, by omega, fun heq => ?_⟩
    rcases hle with hlt | ⟨-, hle⟩
    · omega
    · exact hle
  · rcases hw.lock c j hj with hsel | ⟨hrun, -⟩
    · exact hsel
    · exfalso
      rcases scan_step hpc hs with ⟨hne, -⟩ | ⟨-, -, hs'⟩ | ⟨-, -, hs'⟩
      · exact hne rfl
      · rw [hs'] at hrun; cases hrun
      · rcases scanNext_cases q1 i1 with ⟨q2, i2, hn, -⟩ | ⟨hn, -⟩ <;> rw [hs', hn] at hrun <;>
          cases hrun

/-- After its first demotion `initproc` waits at priority 1: a pass selects it at its 65th check. -/
theorem scan_selects_demoted : ∃ (h₀ h : List (Sys 1 × Ev 1)) (s0 s s' : Sys 1), Reach 1 h₀ s0 ∧
    Pass 0 s0 h s ∧ s.step ⟨0, .scanSlot⟩ = some s' ∧ checks 0 h = 64 ∧ ∃ i, s'.cpu 0 = .selected i ∧
      (s'.proc i).priority ≤ 1 ∧ ((s'.proc i).priority = 1 → i ≤ initproc) := by
  obtain ⟨h₀, s0, hr, hstart, hpass⟩ := exists_reach_of_replay (C := 1)
    (fun _ s0 => s0.cpu 0 = .scan 0 0 ∧ ((replay Sys.step [] s0 (List.replicate 64 ⟨0, .scanSlot⟩)).any
      fun x => decide ((∀ y ∈ x.1, (y.1.cpu 0).scanning = true ∧ y.1.RunnableAt initproc 1) ∧
        (x.2.cpu 0).scanning = true ∧ x.2.RunnableAt initproc 1 ∧ checks 0 x.1 = 64 ∧
        ((x.2.step ⟨0, .scanSlot⟩).any fun s' => (s'.cpu 0).scanning = false) = true)) = true)
    (firstCharge ++ [⟨0, .count⟩, ⟨0, .yield⟩, ⟨0, .boostTest⟩]) (by decide +kernel)
  obtain ⟨h, s, hpath, hall, hnow, hrun, hch, hend⟩ := exists_path_of_replay
    (fun (h : List (Sys 1 × Ev 1)) (s : Sys 1) => (∀ y ∈ h, (y.1.cpu 0).scanning = true ∧ y.1.RunnableAt initproc 1) ∧
      (s.cpu 0).scanning = true ∧ s.RunnableAt initproc 1 ∧ checks 0 h = 64 ∧
      ((s.step ⟨0, .scanSlot⟩).any fun s' => (s'.cpu 0).scanning = false) = true) _ hpass
  obtain ⟨s', hs, hend⟩ := (Option.any_eq_true _ _).mp hend
  have hp : Pass 0 s0 h s := ⟨hstart, hpath, fun x hx => (hall x hx).1, hnow⟩
  obtain ⟨i, hsel, -, hle, hidx⟩ := (scan_selects hr hp hs).2.1 (of_decide_eq_true hend) initproc 1
    (fun x hx => (hall x hx).2) hrun
  exact ⟨h₀, h, s0, s, s', hr, hp, hs, hch, i, hsel, hle, hidx⟩

end Xv6Mlfq
