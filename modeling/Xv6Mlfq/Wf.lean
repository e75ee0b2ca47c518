import Xv6Mlfq.Sections

/-!
# Xv6Mlfq.Wf — what every reachable state of the process layer satisfies

`Wf` relates the parts of `Sys`: the CPUs to the states of the processes they run, the threads, the
held locks and the children under construction in `fork`.  It is preserved by every section
(`Trans.wf`), so it holds in every run (`Reach.wf`).
-/

namespace Xv6Mlfq

open Function

variable {t : Thread} {i j : Slot} {p : Proc} {pc : Pc}

/-- The slot a process inside `fork` is setting up. -/
def ForkPc.child : ForkPc → Option Slot
  | .idle => none
  | .allocated np | .parented np => some np

/-- Switched out. -/
def Thread.isOff : Thread → Bool
  | .off _ => true
  | _ => false

/-- Switched in with `p->lock` still held. -/
def Thread.isResuming : Thread → Bool
  | .resuming _ => true
  | _ => false

/-- Switched in, outside `sched`. -/
def Thread.isOn : Thread → Bool
  | .normal | .trapped | .charged | .counted => true
  | _ => false

@[simp] theorem Thread.isOff_of_isOn (h : t.isOn = true) : t.isOff = false := by
  cases t <;> first | rfl | cases h

@[simp] theorem Thread.isResuming_of_isOn (h : t.isOn = true) :
    t.isResuming = false := by
  cases t <;> first | rfl | cases h

/-- Well-formed states. -/
structure Wf {C : ℕ} (s : Sys C) : Prop where
  /-- A process on a CPU is `RUNNING`. -/
  running : ∀ c i, s.cpu c = .run i → (s.proc i).state = .running
  /-- A `RUNNING` process is on a CPU. -/
  onCpu : ∀ i, (s.proc i).state = .running → ∃ c, s.cpu c = .run i
  /-- It is on one CPU. -/
  run_inj : ∀ c c' i, s.cpu c = .run i → s.cpu c' = .run i → c = c'
  /-- Exactly the processes that are not `RUNNING` are switched out. -/
  off : ∀ i, (s.thread i).isOff = true ↔ (s.proc i).state ≠ .running
  /-- A selected process is `RUNNABLE` and locked. -/
  selected : ∀ c i, s.cpu c = .selected i → s.lock i = some c ∧ (s.proc i).state = .runnable
  /-- A process that is being switched in is locked by its CPU. -/
  resuming : ∀ c i, s.cpu c = .run i → (s.thread i).isResuming = true → s.lock i = some c
  /-- No other `p->lock` is held. -/
  lock : ∀ c i, s.lock i = some c →
    s.cpu c = .selected i ∨ (s.cpu c = .run i ∧ (s.thread i).isResuming = true)
  /-- The child of an unfinished `fork` is `USED`, and it has one parent. -/
  child : ∀ i np, (s.forking i).child = some np → (s.proc np).state = .used
  child_inj : ∀ i i' np, (s.forking i).child = some np → (s.forking i').child = some np → i = i'
  /-- A process that can be scheduled again has not been through `exit`. -/
  noExit : ∀ i, (s.thread i = .off .exit ∨ s.thread i = .resuming .exit) →
    (s.proc i).state = .zombie ∨ (s.proc i).state = .unused

section Frame

variable {C : ℕ} {s s' : Sys C}

/-- **Frame rule**: sections that switch no thread, take no slot and keep no lock.  A state may go
from `SLEEPING` to `RUNNABLE`, a thread move within ordinary code and the timer path, a CPU within
`scheduler`. -/
theorem Wf.frame (hw : Wf s)
    (hst : ∀ i, (s'.proc i).state = (s.proc i).state ∨
      (s.proc i).state = .sleeping ∧ (s'.proc i).state = .runnable)
    (hth : ∀ i, s'.thread i = s.thread i ∨ (s.thread i).isOn = true ∧ (s'.thread i).isOn = true)
    (hfk : ∀ i, (s'.forking i).child = (s.forking i).child) (hlk : s'.lock = s.lock)
    (hcpu : ∀ c, s'.cpu c = s.cpu c ∨ (s.cpu c).idle = true ∧ (s'.cpu c).idle = true) : Wf s' := by
  have hrun : ∀ c i, s'.cpu c = .run i ↔ s.cpu c = .run i := fun c i => by
    rcases hcpu c with h | ⟨h, h'⟩
    · rw [h]
    · exact ⟨fun hr => by simp [hr, Pc.idle] at h', fun hr => by simp [hr, Pc.idle] at h⟩
  have hsel : ∀ c i, s'.cpu c = .selected i ↔ s.cpu c = .selected i := fun c i => by
    rcases hcpu c with h | ⟨h, h'⟩
    · rw [h]
    · exact ⟨fun hr => by simp [hr, Pc.idle] at h', fun hr => by simp [hr, Pc.idle] at h⟩
  have hrn : ∀ i, (s'.proc i).state = .running ↔ (s.proc i).state = .running := fun i => by
    rcases hst i with h | ⟨h, h'⟩
    · rw [h]
    · simp [h, h']
  have hoff : ∀ i, (s'.thread i).isOff = (s.thread i).isOff := fun i => by
    rcases hth i with h | ⟨h, h'⟩
    · rw [h]
    · simp [h, h']
  have hres : ∀ i, (s'.thread i).isResuming = (s.thread i).isResuming := fun i => by
    rcases hth i with h | ⟨h, h'⟩
    · rw [h]
    · simp [h, h']
  refine ⟨fun c i h => (hrn i).mpr (hw.running c i ((hrun c i).mp h)), fun i h => ?_,
    fun c c' i h h' => hw.run_inj c c' i ((hrun c i).mp h) ((hrun c' i).mp h'), fun i => ?_,
    fun c i h => ?_, fun c i h ht => ?_, fun c i h => ?_, fun i np h => ?_, fun i i' np h h' => ?_,
    fun i h => ?_⟩
  · obtain ⟨c, hc⟩ := hw.onCpu i ((hrn i).mp h)
    exact ⟨c, (hrun c i).mpr hc⟩
  · rw [hoff, hw.off, ne_eq, ne_eq, hrn]
  · obtain ⟨hl, hr⟩ := hw.selected c i ((hsel c i).mp h)
    refine ⟨by rw [hlk, hl], ?_⟩
    rcases hst i with h | ⟨h, -⟩
    · rw [h, hr]
    · rw [hr] at h; cases h
  · rw [hlk]
    exact hw.resuming c i ((hrun c i).mp h) (hres i ▸ ht)
  · rw [hlk] at h
    rw [hsel, hrun, hres]
    exact hw.lock c i h
  · have hu := hw.child i np (hfk i ▸ h)
    rcases hst np with h | ⟨h, -⟩
    · rw [h, hu]
    · rw [hu] at h; cases h
  · exact hw.child_inj i i' np (hfk i ▸ h) (hfk i' ▸ h')
  · have hex : s.thread i = .off .exit ∨ s.thread i = .resuming .exit := by
      rcases hth i with ht | ⟨-, ht⟩
      · rwa [ht] at h
      · rcases h with h | h <;> rw [h] at ht <;> cases ht
    rcases hst i with hs | ⟨hs, -⟩
    · rw [hs]; exact hw.noExit i hex
    · rcases hw.noExit i hex with h | h <;> rw [h] at hs <;> cases hs

/-- `sched`: the running process goes to a state other than `RUNNING`, its CPU back to `scheduler`. -/
theorem Wf.switchOut {c : Fin C} {r : Resume} (hw : Wf s)
    (hrun : s.cpu c = .run i) (hlk : s.lock i = none) (hst : p.state ≠ .running)
    (hex : r = .exit → p.state = .zombie) (hpc : pc.idle = true) :
    Wf (((s.setProc i p).setThread i (.off r)).setCpu c pc) := by
  have hri := hw.running c i hrun
  have hpcr : ∀ j, pc ≠ .run j := by rintro j rfl; cases hpc
  have hpcs : ∀ j, pc ≠ .selected j := by rintro j rfl; cases hpc
  have hone : ∀ c', s.cpu c' = .run i → c' = c := fun c' h => hw.run_inj c' c i h hrun
  constructor <;> simp only [Sys.setCpu, Sys.setThread, Sys.setProc, Function.update_apply]
  · intro c' j hj
    have := hw.running c' j
    grind
  · intro j hj
    have := hw.onCpu j
    grind
  · intro c1 c2 j h1 h2
    have := hw.run_inj c1 c2 j
    grind
  · intro j
    have := hw.off j
    grind [Thread.isOff]
  · intro c' j hj
    have := hw.selected c' j
    grind
  · intro c' j hj
    have := hw.resuming c' j
    grind
  · intro c' j hj
    have := hw.lock c' j
    grind
  · intro j np hj
    have := hw.child j np hj
    grind
  · exact hw.child_inj
  · intro j hj
    have := hw.noExit j
    grind

end Frame

section Step

variable {C : ℕ} {s s' : Sys C} {c : Fin C} {a : Act}

/-- The sections that change nothing but one slot, whose state at most goes from `SLEEPING` to
`RUNNABLE`. -/
theorem Wf.setProc (hw : Wf s)
    (hst : p.state = (s.proc j).state ∨ (s.proc j).state = .sleeping ∧ p.state = .runnable) :
    Wf (s.setProc j p) := by
  refine hw.frame (fun i => ?_) (fun _ => .inl rfl) (fun _ => rfl) rfl (fun _ => .inl rfl)
  by_cases hi : i = j
  · subst hi; simpa using hst
  · simp [hi]

/-- A step of a CPU within `scheduler`. -/
theorem Wf.setCpu (hw : Wf s) (h : (s.cpu c).idle = true) (hpc : pc.idle = true) :
    Wf (s.setCpu c pc) := by
  refine hw.frame (fun _ => .inl rfl) (fun _ => .inl rfl) (fun _ => rfl) rfl (fun c' => ?_)
  by_cases hc : c' = c
  · subst hc; exact .inr ⟨h, by simpa using hpc⟩
  · simp [hc]

/-- A step of a thread within ordinary code and the timer path. -/
theorem Wf.setThread (hw : Wf s) (h : (s.thread i).isOn = true)
    (ht : t.isOn = true) : Wf (s.setThread i t) := by
  refine hw.frame (fun _ => .inl rfl) (fun j => ?_) (fun _ => rfl) rfl (fun _ => .inl rfl)
  by_cases hj : j = i
  · subst hj; exact .inr ⟨h, by simpa using ht⟩
  · simp [hj]

/-- Well-formedness does not mention the counters. -/
theorem Wf.counters (hw : Wf s) {np b : ℤ} {m t : ℕ} :
    Wf { s with nextpid := np, mlfqTicks := m, ticks := t, lastBoostTick := b } :=
  hw.frame (fun _ => .inl rfl) (fun _ => .inl rfl) (fun _ => rfl) rfl (fun _ => .inl rfl)

theorem Wf.clockintr (hw : Wf s) : Wf (s.clockintr c) := hw.counters

theorem boostNext_idle (i : Slot) : (boostNext i).idle = true := by
  unfold boostNext; split <;> rfl

theorem scanNext_idle (q : Fin NMLFQ) (i : Slot) : (scanNext q i).idle = true := by
  unfold scanNext
  split
  · rfl
  · split <;> rfl

/-- The selection of a process takes its lock. -/
theorem Wf.select (hw : Wf s) (hpc : (s.cpu c).idle = true) (hlk : s.lock i = none)
    (hst : (s.proc i).state = .runnable) :
    Wf ((s.setLock i (some c)).setCpu c (.selected i)) := by
  have hnr : ∀ j, s.cpu c ≠ .run j := fun j h => by simp [h, Pc.idle] at hpc
  have hns : ∀ j, s.cpu c ≠ .selected j := fun j h => by simp [h, Pc.idle] at hpc
  refine ⟨?_, ?_, ?_, hw.off, ?_, ?_, ?_, hw.child, hw.child_inj, hw.noExit⟩ <;>
    simp only [Sys.setCpu, Sys.setLock, Function.update_apply]
  · intro c' j h
    exact hw.running c' j (by grind)
  · intro j h
    obtain ⟨c', hc'⟩ := hw.onCpu j h
    exact ⟨c', by grind⟩
  · intro c1 c2 j h1 h2
    exact hw.run_inj c1 c2 j (by grind) (by grind)
  · intro c' j h
    have := hw.selected c' j
    grind
  · intro c' j h ht
    have := hw.resuming c' j
    have := hw.running c' j
    grind
  · intro c' j h
    have := hw.lock c' j
    grind

/-- `swtch` to the selected process. -/
theorem Wf.switchIn (hw : Wf s) (hpc : s.cpu c = .selected i) :
    Wf (((s.setProc i (s.proc i).dispatch).setThread i (s.thread i).switchIn).setCpu c (.run i)) := by
  obtain ⟨hlk, hst⟩ := hw.selected c i hpc
  obtain ⟨r, hr⟩ : ∃ r, s.thread i = .off r := by
    have := (hw.off i).mpr (by simp [hst])
    cases ht : s.thread i <;> simp [ht, Thread.isOff] at this
    exact ⟨_, rfl⟩
  have hnr : ∀ c', s.cpu c' ≠ .run i := fun c' h => by simpa [hst] using hw.running c' i h
  have hnx : r ≠ .exit := by
    rintro rfl
    simpa [hst] using hw.noExit i (.inl hr)
  rw [hr]
  refine ⟨?_, ?_, ?_, ?_, ?_, ?_, ?_, ?_, hw.child_inj, ?_⟩ <;>
    simp only [Sys.setCpu, Sys.setThread, Sys.setProc, Function.update_apply, Thread.switchIn]
  · intro c' j h
    have := hw.running c' j
    grind [Proc.dispatch_state]
  · intro j h
    have := hw.onCpu j
    grind
  · intro c1 c2 j h1 h2
    have := hw.run_inj c1 c2 j
    grind
  · intro j
    have := hw.off j
    grind [Thread.isOff, Proc.dispatch_state]
  · intro c' j h
    have := hw.selected c' j
    grind
  · intro c' j h ht
    have := hw.resuming c' j
    grind
  · intro c' j h
    have := hw.lock c' j
    grind [Thread.isResuming]
  · intro j np h
    have := hw.child j np h
    grind
  · intro j h
    have := hw.noExit j
    grind

/-- The process releases the lock `scheduler` took. -/
theorem Wf.release (hw : Wf s) (hpc : s.cpu c = .run i)
    (ht : (s.thread i).isResuming = true) : Wf ((s.setThread i .normal).setLock i none) := by
  have hlk := hw.resuming c i hpc ht
  have hst := hw.running c i hpc
  refine ⟨hw.running, hw.onCpu, hw.run_inj, ?_, ?_, ?_, ?_, hw.child, hw.child_inj, ?_⟩ <;>
    simp only [Sys.setLock, Sys.setThread, Function.update_apply]
  · intro j
    have := hw.off j
    grind [Thread.isOff]
  · intro c' j h
    have := hw.selected c' j h
    grind
  · intro c' j h ht
    have := hw.resuming c' j
    grind [Thread.isResuming]
  · intro c' j h
    have := hw.lock c' j
    grind
  · intro j h
    have := hw.noExit j
    grind

/-- `allocproc` takes a free slot for `fork`. -/
theorem Wf.alloc (hw : Wf s)
    (hj : (s.proc j).state = .unused) (hlk : s.lock j = none) (hp : p.state = .used) :
    Wf (((s.setProc j p).setThread j (.off .forkret)).setForking i (.allocated j)) := by
  have hnr : ∀ c', s.cpu c' ≠ .run j := fun c' h => by simpa [hj] using hw.running c' j h
  refine ⟨?_, ?_, hw.run_inj, ?_, ?_, ?_, ?_, ?_, ?_, ?_⟩ <;>
    simp only [Sys.setForking, Sys.setThread, Sys.setProc, Function.update_apply]
  · intro c' k h
    have := hw.running c' k h
    grind
  · intro k h
    have := hw.onCpu k
    grind
  · intro k
    have := hw.off k
    grind [Thread.isOff]
  · intro c' k h
    have := hw.selected c' k h
    grind
  · intro c' k h ht
    have := hw.resuming c' k h
    grind
  · intro c' k h
    have := hw.lock c' k h
    grind
  · intro k np h
    have := hw.child k np
    grind [ForkPc.child]
  · intro k k' np h h'
    have := hw.child_inj k k' np
    have := hw.child k np
    have := hw.child k' np
    grind [ForkPc.child]
  · intro k h
    have := hw.noExit k
    grind

/-- `fork` makes its child `RUNNABLE`. -/
theorem Wf.ready (hw : Wf s) {np : Slot} (hi : (s.forking i).child = some np)
    (hp : p.state = .runnable) : Wf ((s.setProc np p).setForking i .idle) := by
  have hu := hw.child i np hi
  refine ⟨?_, ?_, hw.run_inj, ?_, ?_, hw.resuming, hw.lock, ?_, ?_, ?_⟩ <;>
    simp only [Sys.setForking, Sys.setProc, Function.update_apply]
  · intro c' k h
    have := hw.running c' k h
    grind
  · intro k h
    have := hw.onCpu k
    grind
  · intro k
    have := hw.off k
    grind
  · intro c' k h
    have := hw.selected c' k h
    grind
  · intro k np' h
    have := hw.child k np'
    have := hw.child_inj k i np'
    grind [ForkPc.child]
  · intro k k' np' h h'
    have := hw.child_inj k k' np'
    grind [ForkPc.child]
  · intro k h
    have := hw.noExit k h
    grind

/-- `wait` frees a zombie. -/
theorem Wf.free (hw : Wf s) (hj : (s.proc j).state = .zombie)
    (hp : p.state = .unused) : Wf (s.setProc j p) := by
  refine ⟨?_, ?_, hw.run_inj, ?_, ?_, hw.resuming, hw.lock, ?_, hw.child_inj, ?_⟩ <;>
    simp only [Sys.setProc, Function.update_apply]
  · intro c' k h
    have := hw.running c' k h
    grind
  · intro k h
    have := hw.onCpu k
    grind
  · intro k
    have := hw.off k
    grind
  · intro c' k h
    have := hw.selected c' k h
    grind
  · intro k np h
    have := hw.child k np h
    grind
  · intro k h
    have := hw.noExit k h
    grind

/-- Every section keeps the state well-formed. -/
theorem Trans.wf (hw : Wf s) (h : Trans s c a s') : Wf s' := by
  cases h with
  | boostFire hpc _ | recordBoost hpc => exact hw.counters.setCpu (by simp [hpc, Pc.idle]) rfl
  | boostPass hpc _ => exact hw.setCpu (by simp [hpc, Pc.idle]) rfl
  | boostSlot hpc _ =>
    exact (hw.setProc (.inl (by simp))).setCpu (by simp [hpc, Pc.idle]) (boostNext_idle _)
  | scanHit hpc hl hr _ => exact hw.select (by simp [hpc, Pc.idle]) hl hr
  | scanMiss hpc _ _ => exact hw.setCpu (by simp [hpc, Pc.idle]) (scanNext_idle _ _)
  | dispatch hpc => exact hw.switchIn hpc
  | resumeSleep hpc ht =>
    exact (hw.setProc (.inl (by simp))).release hpc (by simp [ht, Thread.isResuming])
  | resume hpc ht _ => exact hw.release hpc (by simp [ht, Thread.isResuming])
  | timerRun _ ht => exact hw.clockintr.setThread (by simp [ht, Thread.isOn]) rfl
  | timerIdle _ => exact hw.clockintr
  | charge _ ht _ => exact (hw.setProc (.inl (by simp))).setThread (by simp [ht, Thread.isOn]) rfl
  | count _ ht => exact hw.counters.setThread (by simp [ht, Thread.isOn]) rfl
  | yield hpc _ hl | sleep hpc _ hl | exit hpc _ hl _ => exact hw.switchOut hpc hl (by simp) (by simp) rfl
  | trapExit _ ht _ _ => exact hw.setThread (by simp [ht, Thread.isOn]) rfl
  | allocOk _ _ hl hu =>
    exact hw.counters.alloc hu hl (by simp [Proc.alloc])
  | allocFail _ _ _ hu hr =>
    exact hw.counters.setProc (.inl (by rw [Proc.alloc_state_of_fail _ _ hr, hu]))
  | @forkParent i np _ _ hk =>
    have hp : Wf (s.setProc np { s.proc np with parent := some i }) := hw.setProc (.inl rfl)
    refine hp.frame (fun _ => .inl rfl) (fun _ => .inl rfl) (fun k => ?_) rfl (fun _ => .inl rfl)
    by_cases hki : k = i
    · subst hki; simp [hk, ForkPc.child]
    · simp [hki]
  | forkReady _ _ hk _ => exact hw.ready (by simp [hk, ForkPc.child]) rfl
  | wakeup _ _ => exact hw.setProc (Proc.wakeup_state _ _)
  | kill _ _ _ => exact hw.setProc (Proc.kill_state _ _)
  | setkilled _ _ _ | setprocpriority _ _ _ _ _ => exact hw.setProc (.inl (by simp))
  | setprocpriorityBad _ _ _ _ | reparentSkip _ _ _ | waitSkip _ _ _ _ => exact hw
  | reparent _ _ _ => exact hw.setProc (.inl rfl)
  | waitFree _ _ _ _ hz => exact hw.free hz (by simp)

end Step

theorem wf_boot (C : ℕ) : Wf (boot C) := by
  have hst : ∀ i, ((boot C).proc i).state = .unused ∨ ((boot C).proc i).state = .runnable := by
    intro i
    by_cases hi : i = initproc
    · subst hi; exact .inr (by simp [boot, userinit])
    · exact .inl (by simp [boot, userinit, hi, procinit])
  refine ⟨?_, ?_, ?_, ?_, ?_, ?_, ?_, ?_, ?_, ?_⟩
  · intro c i h; cases h
  · intro i h
    rcases hst i with h' | h' <;> rw [h'] at h <;> cases h
  · intro c c' i h; cases h
  · intro i
    have hne : ((boot C).proc i).state ≠ .running := by
      rcases hst i with h | h <;> rw [h] <;> decide
    exact iff_of_true rfl hne
  · intro c i h; cases h
  · intro c i h; cases h
  · intro c i h; cases h
  · intro i np h; cases h
  · intro i i' np h; cases h
  · intro i h
    rcases h with h | h <;> cases h

/-- **Every reachable state is well-formed.** -/
theorem Reach.wf {C : ℕ} {h : List (Sys C × Ev C)} {s : Sys C} (hr : Reach C h s) : Wf s :=
  hr.inv (wf_boot C) fun _ _ _ hw hs => (trans_of_step hs).wf hw

end Xv6Mlfq
