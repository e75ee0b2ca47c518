import Xv6Mlfq.Lib.CInt

/-!
# Xv6Mlfq.Proc — `struct proc` and what each `p->lock` section does to it

`Proc` is the part of `struct proc` that the process layer reads and writes under `p->lock` (and
`parent`, under `wait_lock`).  The page-level fields (`kstack`, `sz`, `pagetable`, `trapframe`,
`context`), the open files and the name are written by the memory and file layers only.

Every function of `kernel/proc.c` and `kernel/trap.c` that writes the table does so slot by slot,
each slot under its own lock.  The definitions below are the bodies of these lock sections, one a
section: what one slot holds after it, as a function of what it held before.
-/

namespace Xv6Mlfq

open CInt

/-! ## `param.h` -/

def NPROC : ℕ := 64
def NCPU : ℕ := 8
def NMLFQ : ℕ := 3
def MLFQ_TICKS_0 : ℤ := 1
def MLFQ_TICKS_1 : ℤ := 2
def MLFQ_TICKS_2 : ℤ := 4
def BOOST_INTERVAL : ℕ := 100

instance : NeZero NPROC := ⟨by decide⟩
instance : NeZero NMLFQ := ⟨by decide⟩

/-- An index of the process table: the pointer `&proc[i]`. -/
abbrev Slot := Fin NPROC

/-- `enum procstate`. -/
inductive ProcState
  | unused | used | sleeping | runnable | running | zombie
  deriving DecidableEq, Repr

/-- A sleep channel: the address `&ticks`, a process (`wait` sleeps on its own `struct proc`), or
an address of another layer. -/
inductive Chan
  | null
  | ticks
  | proc (i : Slot)
  | other (addr : ℕ)
  deriving DecidableEq, Repr

/-- `struct proc`, process layer. -/
structure Proc where
  state : ProcState
  chan : Chan
  killed : ℤ
  xstate : ℤ
  pid : ℤ
  parent : Option Slot
  priority : ℤ
  ticksUsed : ℤ
  ticksTotal : ℤ
  lastRunTime : ℕ
  numScheduled : ℤ
  numDemoted : ℤ
  numBoosted : ℤ
  deriving DecidableEq, Repr

/-- `get_time_slice`. -/
def getTimeSlice (priority : ℤ) : ℤ :=
  if priority = 0 then MLFQ_TICKS_0
  else if priority = 1 then MLFQ_TICKS_1
  else if priority = 2 then MLFQ_TICKS_2
  else MLFQ_TICKS_2

/-- A slot of the table before `procinit`: static storage, all zero. -/
def Proc.zero : Proc :=
  { state := .unused, chan := .null, killed := 0, xstate := 0, pid := 0, parent := none,
    priority := 0, ticksUsed := 0, ticksTotal := 0, lastRunTime := 0, numScheduled := 0,
    numDemoted := 0, numBoosted := 0 }

namespace Proc

/-! ## Allocation and release of a slot -/

/-- `allocproc` after `found:`, up to its first fallible call. -/
def claim (pid : ℤ) (p : Proc) : Proc := { p with pid := pid, state := .used }

/-- `allocproc` after `found:`, when the trapframe and the page table could be allocated. -/
def allocproc (pid : ℤ) (p : Proc) : Proc :=
  { p.claim pid with
    priority := 0, ticksUsed := 0, ticksTotal := 0, lastRunTime := 0, numScheduled := 0,
    numDemoted := 0, numBoosted := 0 }

/-- `freeproc`. -/
def freeproc (p : Proc) : Proc :=
  { p with
    pid := 0, parent := none, chan := .null, killed := 0, xstate := 0, state := .unused,
    priority := 0, ticksUsed := 0, ticksTotal := 0, lastRunTime := 0, numScheduled := 0,
    numDemoted := 0, numBoosted := 0 }

/-- How the allocation of a process ends: `allocproc` returns 0 for want of memory, `allocproc`
returns the slot but `uvmcopy` fails in `fork`, or `fork` goes on. -/
inductive AllocResult
  | noMemory | noCopy | ok
  deriving DecidableEq, Repr

/-- The `p->lock` section of `allocproc` and `fork` that claims a free slot: the lock is held from
`found:` to the `release` in `fork`, or to the one after `freeproc`. -/
def alloc (r : AllocResult) (pid : ℤ) (p : Proc) : Proc :=
  match r with
  | .noMemory => (p.claim pid).freeproc
  | .noCopy => (p.allocproc pid).freeproc
  | .ok => p.allocproc pid

/-! ## The clock and the scheduler -/

/-- The `p->lock` section of `mlfq_check_timer`. -/
def mlfqCheckTimer (p : Proc) : Proc :=
  { p with ticksUsed := inc p.ticksUsed, ticksTotal := inc p.ticksTotal }

/-- The body of the loop of `priority_boost`. -/
def priorityBoost (p : Proc) : Proc :=
  if p.state ≠ .unused then
    { p with
      numBoosted := if p.priority > 0 then inc p.numBoosted else p.numBoosted
      priority := 0, ticksUsed := 0 }
  else p

/-- `scheduler` switching to the process it selected. -/
def dispatch (p : Proc) : Proc :=
  { p with state := .running, numScheduled := inc p.numScheduled }

/-- The part of `yield` that demotes a process whose time slice is used up. -/
def demote (p : Proc) : Proc :=
  if p.ticksUsed ≥ getTimeSlice p.priority then
    if p.priority < NMLFQ - 1 then
      { p with priority := inc p.priority, numDemoted := inc p.numDemoted, ticksUsed := 0 }
    else { p with ticksUsed := 0 }
  else p

/-- `yield`, up to `sched`. -/
def yield (p : Proc) : Proc := { p.demote with state := .runnable }

/-! ## Sleeping, exiting, and what other processes do to a slot -/

/-- `sleep`, up to `sched`. -/
def sleep (chan : Chan) (p : Proc) : Proc :=
  { p with ticksUsed := 0, chan := chan, state := .sleeping }

/-- `sleep`, after `sched`. -/
def tidy (p : Proc) : Proc := { p with chan := .null }

/-- `exit`, the section of its own lock, up to `sched`. -/
def exit (status : ℤ) (p : Proc) : Proc := { p with xstate := status, state := .zombie }

/-- The body of the loop of `wakeup`. -/
def wakeup (chan : Chan) (p : Proc) : Proc :=
  if p.state = .sleeping ∧ p.chan = chan then { p with state := .runnable } else p

/-- The body of the loop of `kill`. -/
def kill (pid : ℤ) (p : Proc) : Proc :=
  if p.pid = pid then
    { p with killed := 1, state := if p.state = .sleeping then .runnable else p.state }
  else p

/-- `setkilled`. -/
def setkilled (p : Proc) : Proc := { p with killed := 1 }

/-- `setprocpriority(pid, priority)` finds its process in this slot. -/
def hasPid (pid : ℤ) (p : Proc) : Bool := p.pid = pid ∧ p.state ≠ .unused

/-- The body of the loop of `setprocpriority`, once the argument has passed the range check. -/
def setprocpriority (pid priority : ℤ) (p : Proc) : Proc :=
  if p.hasPid pid then { p with priority := priority, ticksUsed := 0 } else p

/-! ## The state after a section -/

section State

variable (p : Proc)

@[simp] theorem freeproc_state : p.freeproc.state = .unused := rfl
@[simp] theorem allocproc_state (pid : ℤ) : (p.allocproc pid).state = .used := rfl
@[simp] theorem mlfqCheckTimer_state : p.mlfqCheckTimer.state = p.state := rfl
@[simp] theorem dispatch_state : p.dispatch.state = .running := rfl
@[simp] theorem yield_state : p.yield.state = .runnable := rfl
@[simp] theorem sleep_state (chan : Chan) : (p.sleep chan).state = .sleeping := rfl
@[simp] theorem tidy_state : p.tidy.state = p.state := rfl
@[simp] theorem exit_state (status : ℤ) : (p.exit status).state = .zombie := rfl
@[simp] theorem setkilled_state : p.setkilled.state = p.state := rfl

@[simp] theorem priorityBoost_state : p.priorityBoost.state = p.state := by
  unfold priorityBoost; split_ifs <;> rfl

@[simp] theorem setprocpriority_state (pid priority : ℤ) :
    (p.setprocpriority pid priority).state = p.state := by
  unfold setprocpriority; split_ifs <;> rfl

theorem alloc_state_of_fail {r : AllocResult} (pid : ℤ) (h : r ≠ .ok) :
    (p.alloc r pid).state = .unused := by
  cases r <;> first | rfl | exact absurd rfl h

/-- `wakeup` and `kill` move a state from `SLEEPING` to `RUNNABLE` or not at all. -/
theorem wakeup_state (chan : Chan) : (p.wakeup chan).state = p.state ∨
    p.state = .sleeping ∧ (p.wakeup chan).state = .runnable := by
  unfold wakeup
  split_ifs with h
  · exact .inr ⟨h.1, rfl⟩
  · exact .inl rfl

theorem kill_state (pid : ℤ) : (p.kill pid).state = p.state ∨
    p.state = .sleeping ∧ (p.kill pid).state = .runnable := by
  unfold kill
  split_ifs with hp hs
  · exact .inr ⟨hs, by simp⟩
  · exact .inl (by simp)
  · exact .inl rfl

end State

end Proc

end Xv6Mlfq
