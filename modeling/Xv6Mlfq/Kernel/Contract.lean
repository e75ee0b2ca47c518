import Xv6Mlfq.Lib.Seq
import Xv6Mlfq.Kernel.Machine

/-!
# Xv6Mlfq.Kernel.Contract — the locking discipline of each instruction

`Abs` is what a thread knows of its CPU: the locks it holds, innermost first, whether a `push_off` is
still without its lock, `c->proc`, the state of a process whose lock it holds, and the child it is
creating.  `Instr.sig` is the contract of an instruction: when it may be executed, and what the thread
knows after it.  Locks are taken in the order of their ranks.
-/

namespace Xv6Mlfq

open CInt Function

variable {C : ℕ} {A : Abs} {P : Prop} {p : Slot}

/-- The order in which locks are taken: those of the callers of `sleep` and `wakeup` first, then a
`p->lock`, then `pid_lock` in `allocpid`, and leaf locks. -/
def Lock.rank : Lock → ℕ
  | .wait | .ticks | .mlfq | .other _ => 0
  | .proc _ => 1
  | .pid => 2
  | .leaf _ => 3

@[simp] theorem rank_wait : Lock.wait.rank = 0 := rfl
@[simp] theorem rank_ticks : Lock.ticks.rank = 0 := rfl
@[simp] theorem rank_mlfq : Lock.mlfq.rank = 0 := rfl
@[simp] theorem rank_other (k : ℕ) : (Lock.other k).rank = 0 := rfl
@[simp] theorem rank_proc (i : Slot) : (Lock.proc i).rank = 1 := rfl
@[simp] theorem rank_pid : Lock.pid.rank = 2 := rfl
@[simp] theorem rank_leaf (k : ℕ) : (Lock.leaf k).rank = 3 := rfl

/-- What is known of the state of a process: its value, or that it is not `RUNNING`. -/
inductive Fact
  | is (st : ProcState)
  | off
  deriving DecidableEq, Repr

@[simp] def Fact.Holds : Fact → ProcState → Prop
  | .is st, st' => st' = st
  | .off, st' => st' ≠ .running

/-- What a thread knows. -/
structure Abs where
  held : List Lock
  /-- `push_off` calls whose lock is not yet taken, or already released. -/
  pend : ℕ
  cur : Option Slot
  know : Option (Slot × Fact)
  /-- The child between `allocproc` and `np->state = RUNNABLE` in `fork`. -/
  kid : Option Slot
  deriving DecidableEq, Repr

namespace Abs

/-- A thread that holds the locks `ls` and knows nothing else. -/
@[simp] def holding (me : Option Slot) (ls : List Lock) : Abs :=
  { held := ls, pend := 0, cur := me, know := none, kid := none }

/-- A thread that holds the locks `ls` and knows `f` of the state of `i`. -/
@[simp] def knowing (me : Option Slot) (ls : List Lock) (i : Slot) (f : Fact) : Abs :=
  { holding me ls with know := some (i, f) }

/-- A process just switched to. -/
@[simp] def entered (p : Slot) (kid : Option Slot) : Abs :=
  { knowing (some p) [.proc p] p (.is .running) with kid := kid }

/-- The scheduler thread just switched back to from `p`. -/
@[simp] def switched (p : Slot) : Abs := knowing (some p) [.proc p] p .off

/-- Exactly the locks `ls` are held, and no state is known. -/
@[simp] def Has (A : Abs) (ls : List Lock) : Prop := A.held = ls ∧ A.pend = 0 ∧ A.know = none

/-- Every lock held comes before those of rank `r`. -/
@[simp] def Below (A : Abs) (r : ℕ) : Prop := ∀ l ∈ A.held, l.rank < r


/-- Before `release l`: whenever its lock is free, the process on a CPU is `RUNNING` and the CPU
executes its thread. -/
@[simp] def MayRelease (A : Abs) (me : Option Slot) (l : Lock) : Prop :=
  A.pend = 0 ∧ l ∈ A.held ∧
    ∀ x ∈ A.know, l = .proc x.1 → A.cur = some x.1 → me ≠ none ∧ x.2 = .is .running


/-- After `release l`. -/
@[simp] def release (A : Abs) (l : Lock) : Abs :=
  { A with held := A.held.erase l, know := A.know.filter fun x => l ≠ .proc x.1 }

/-- Before `sched`: the process, with its own lock only, has given up the CPU. -/
@[simp] def MaySched (A : Abs) (p : Slot) : Prop :=
  A.held = [Lock.proc p] ∧ A.pend = 0 ∧
    (A.know = some (p, Fact.is .runnable) ∨ A.know = some (p, Fact.is .sleeping))


end Abs

open Abs

/-- The contract with precondition `P` that leads to `A`. -/
noncomputable def when (P : Prop) (A : Abs) : Option Abs :=
  open Classical in if P then some A else none

@[simp] theorem when_eq_some {B : Abs} : when P A = some B ↔ P ∧ A = B := by
  unfold when; split_ifs with h <;> simp [h]

@[simp] theorem when_pos (h : P) : when P A = some A := if_pos h

/-- The contract of an instruction of thread `me`. -/
@[simp] noncomputable def Instr.sig (me : Option Slot) (i : Instr) (A : Abs) : Option Abs :=
  match i with
  | .acquire l => when (A.pend = 0 ∧ A.Below l.rank) { A with held := l :: A.held }
  | .spin l => when (A.pend = 1 ∧ A.Below l.rank) { A with held := l :: A.held, pend := 0 }
  | .release l => when (A.MayRelease me l) (A.release l)
  | .popOff => when (A.pend = 1) { A with pend := 0 }
  | .intrOn | .intrOff | .sret | .hang => when (A.Has []) A
  | .setIntena _ => some A
  -- the scheduler thread
  | .scheduler | .boostFrom _ | .scanFrom _ _ => when (me = none ∧ A = holding none []) A
  | .boostTest => when (me = none ∧ A = holding none [.mlfq]) (holding none [])
  | .recordBoost => when (me = none ∧ A = holding none [.ticks]) A
  | .boostSlot i => when (me = none ∧ A = holding none [.proc i]) A
  | .scanSlot _ i => when (me = none ∧ A = holding none [.proc i]) (holding none [])
  | .dispatch i =>
    when (me = none ∧ A = knowing none [.proc i] i (.is .runnable))
      (knowing (some i) [.proc i] i (.is .running))
  | .swtch i => when (me = none ∧ A = knowing (some i) [.proc i] i (.is .running)) (switched i)
  | .clearProc => A.cur.bind fun i => when (me = none ∧ A = switched i) (holding none [.proc i])
  -- giving up the CPU
  | .yieldMark => me.bind fun p => when (A.Has [.proc p]) { A with know := some (p, .is .runnable) }
  | .sleepMark _ => me.bind fun p => when (A.Has [.proc p]) { A with know := some (p, .is .sleeping) }
  | .exitMark _ => me.bind fun p =>
    when (A = holding me [.proc p, .wait]) (knowing me [.proc p, .wait] p (.is .zombie))
  | .sched => me.bind fun p => when (A.MaySched p) { A with know := some (p, .is .running) }
  | .schedExit => me.bind fun p => when (A = knowing me [.proc p] p (.is .zombie)) (holding me [])
  | .zombieExit => none
  -- the data of one process, the counters
  | .tidy | .charge | .setkilled => me.bind fun p => when (.proc p ∈ A.held) A
  | .count => when (me ≠ none ∧ .mlfq ∈ A.held) A
  | .tick => when (.ticks ∈ A.held) A
  | .wakeupSlot _ j => when (.proc j ∈ A.held ∧ A.know = none) A
  | .freeproc j => when (me ≠ none ∧ A = knowing me [.proc j, .wait] j (.is .zombie) ∧ me ≠ some j)
      (holding me [.proc j, .wait])
  | .alloc j _ => when (me ≠ none ∧ A = knowing me [.proc j] j (.is .unused) ∧ me ≠ some j)
      (holding me [])
  | .setParent j => when (me ≠ none ∧ A.Has [.wait] ∧ A.kid = some j) A
  | .setRunnable j => when (me ≠ none ∧ A.Has [.proc j] ∧ A.kid = some j) { A with kid := none }
  -- control points of any thread
  | .wakeupFrom _ _ => when (A.pend = 0 ∧ A.know = none ∧ A.Below 1) A
  | .leafCalls => when (A.pend = 0 ∧ A.Below 3) A
  | .handler => when (A.Has []) A
  | .inHandler k => when (A.Has [.other k]) { A with held := [] }
  | .timerTail => when (A.Has [] ∧ A.cur = me) A
  -- control points of a process with no lock
  | .killFrom _ _ | .setpriority _ _ | .setpriorityFrom _ _ _ | .infoFrom _ | .infoNext _
  | .getpstat | .statFrom _ | .exitIfKilled | .exit _ | .allocFrom _ | .driver | .user =>
    when (me ≠ none ∧ A = holding me []) A
  -- control points of a process with locks, which they release
  | .killSlot _ j | .setprioritySlot _ _ j | .allocSlot j =>
    when (me ≠ none ∧ A = holding me [.proc j]) (holding me [])
  | .killedTest => me.bind fun p => when (A = holding me [.proc p]) (holding me [])
  | .reparentFrom _ => when (me ≠ none ∧ A = holding me [.wait]) A
  | .wakeParent _ | .waitFrom _ _ | .waitEnd _ => when (me ≠ none ∧ A = holding me [.wait]) (holding me [])
  | .waitSlot j => when (me ≠ none ∧ A = holding me [.proc j, .wait]) (holding me [])
  | .waitKilled => me.bind fun p => when (A = holding me [.proc p, .wait]) (holding me [])
  | .allocpid j => when (me ≠ none ∧ A = knowing me [.pid, .proc j] j (.is .unused) ∧ me ≠ some j)
      (holding me [])
  | .sysSleep _ | .sleepLoop _ _ => when (me ≠ none ∧ A = holding me [.ticks]) (holding me [])
  | .sleepKilled _ _ => me.bind fun p => when (A = holding me [.proc p, .ticks]) (holding me [])
  | .inDriver k => when (me ≠ none ∧ A = holding me [.other k]) (holding me [])

/-- The contract of the code of thread `me`. -/
noncomputable abbrev check (me : Option Slot) : List Instr → Abs → Option Abs := Seq.check (Instr.sig me)

/-! ## The functions -/

section Code

variable {me : Option Slot} {A : Abs}

theorem check_loop {f : Slot → Instr} (h : ∀ j, (f j).sig me A = some A) (i : Slot) :
    check me (loop f i) A = some A := by
  unfold loop
  split
  · rw [check, Seq.check_cons, h, Option.bind_some, Seq.check_nil]
  · rfl

theorem check_yieldCode (h : A.Has []) : check (some p) (yieldCode p) A = some A := by
  obtain ⟨held, pend, cur, know, kid⟩ := A
  obtain ⟨rfl, rfl, rfl⟩ := h
  simp [yieldCode]

theorem check_mlfqCheckTimerCode (h : A.Has []) :
    check (some p) (mlfqCheckTimerCode p) A = some A := by
  obtain ⟨held, pend, cur, know, kid⟩ := A
  obtain ⟨rfl, rfl, rfl⟩ := h
  simp [mlfqCheckTimerCode]

theorem check_sleepCode (p : Slot) (chan : Chan) {lk : Lock} (hlk : lk.rank = 0) :
    check (some p) (sleepCode p chan lk) (holding (some p) [lk]) = some (holding (some p) [lk]) := by
  have hne : lk ≠ .proc p := by rintro rfl; cases hlk
  simp [sleepCode, hlk, hne, hne.symm]

theorem check_clockintrCode (h : A.Has []) : check me clockintrCode A = some A := by
  obtain ⟨held, pend, cur, know, kid⟩ := A
  obtain ⟨rfl, rfl, rfl⟩ := h
  simp [clockintrCode]

theorem check_forkret (p : Slot) :
    check (some p) (forkret p) (entered p none) = some (holding (some p) []) := by
  simp [forkret, usertrapret]

theorem check_exitCode (p : Slot) (status : ℤ) :
    check (some p) (exitCode status) (holding (some p) []) = some (holding (some p) []) := by
  simp [exitCode]

theorem check_forkTail (p j : Slot) :
    check (some p) (forkTail j) { holding (some p) [.proc j] with kid := some j } =
      some (holding (some p) []) := by
  simp [forkTail]

theorem check_syscallTrap (p : Slot) (call : Call) :
    check (some p) (syscallTrap call) (holding (some p) []) = some (holding (some p) []) := by
  cases call <;> simp [syscallTrap, Call.code, usertrapret]

theorem check_faultTrap (p : Slot) :
    check (some p) (faultTrap p) (holding (some p) []) = some (holding (some p) []) := by
  simp [faultTrap, usertrapret]

theorem check_devintr (c : Fin C) (dev : Dev) (h : A.Has []) :
    check me (devintr c dev) A = some A := by
  cases dev with
  | timer =>
    unfold devintr
    split_ifs
    · exact check_clockintrCode h
    · rfl
  | device => exact (Seq.check_singleton _ _).trans (when_pos h)

theorem check_intrTrap (c : Fin C) (p : Slot) (dev : Dev) :
    check (some p) (intrTrap c p dev) (holding (some p) []) = some (holding (some p) []) := by
  have hA : (holding (some p) []).Has [] := by simp
  have hk : check (some p) [.exitIfKilled] (holding (some p) []) = some (holding (some p) []) := by simp
  have hu : check (some p) usertrapret (holding (some p) []) = some (holding (some p) []) := by
    simp [usertrapret]
  have hd := Seq.check_append_of (check_devintr c dev hA) hk
  cases dev with
  | timer =>
    have hy := Seq.check_append_of (check_mlfqCheckTimerCode (p := p) hA) (check_yieldCode hA)
    exact Seq.check_append_of (Seq.check_append_of hd hy) hu
  | device => exact Seq.check_append_of (Seq.check_append_of hd rfl) hu

/-- An interrupt in the kernel, of a thread that holds no lock. -/
theorem check_kerneltrap (c : Fin C) (dev : Dev) (h : A.Has []) (hc : A.cur = me) :
    check me (kerneltrap c dev) A = some A := by
  refine Seq.check_append_of (Seq.check_append_of (check_devintr c dev h) ?_)
    ((Seq.check_singleton _ _).trans (when_pos h))
  cases dev with
  | timer => exact (Seq.check_singleton _ _).trans (when_pos ⟨h, hc⟩)
  | device => rfl

end Code

end Xv6Mlfq
