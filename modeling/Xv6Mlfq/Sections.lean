import Xv6Mlfq.Lib.Path
import Xv6Mlfq.Proc

/-!
# Xv6Mlfq.Sections — the process layer with each lock section as one step

`Sys C` is the process layer on `C` CPUs between two lock sections, `step` what one section does.
A CPU is in `scheduler()` at one of its sections (`Pc`) or runs a process; a process thread is
switched out, in ordinary kernel or user code, or on the timer path of `usertrap`/`kerneltrap`
(`Thread`).  The loops over the table (`priority_boost`, the selection loop, `wakeup`, `kill`,
`setprocpriority`, `wait`, `reparent`) are one step a slot, so other CPUs act between two slots.

The only `p->lock` held from one step to the next is that of the process `scheduler` has selected:
it is taken by the scheduler thread and released by the process after `swtch` (`lock`).  A section of
another CPU on this slot waits for it (`lock j = none`).

Between sections a process in ordinary code (`normal`) may issue any section a system call or a
device interrupt can issue; the steps of `fork` after the allocation are kept in order by `forking`.
-/

namespace Xv6Mlfq

open CInt Function

/-- Where a switched-out process continues: `forkret`, or after `sched` in `yield`, `sleep` or `exit`
(where it must never continue). -/
inductive Resume
  | forkret | yield | sleep | exit
  deriving DecidableEq, Repr

/-- Where the kernel thread of a process stands. -/
inductive Thread
  /-- Switched out. -/
  | off (r : Resume)
  /-- Switched in by `scheduler`, `p->lock` not yet released. -/
  | resuming (r : Resume)
  /-- User code, a system call, or a device interrupt. -/
  | normal
  /-- In a timer interrupt, before `mlfq_check_timer`. -/
  | trapped
  /-- In `mlfq_check_timer`, after its `p->lock` section. -/
  | charged
  /-- After `mlfq_check_timer`, before `yield`. -/
  | counted
  deriving DecidableEq, Repr

/-- A process thread inside `fork`, after `allocproc` returned `np`. -/
inductive ForkPc
  | idle
  | allocated (np : Slot)
  | parented (np : Slot)
  deriving DecidableEq, Repr

/-- What a CPU is about to do. -/
inductive Pc
  /-- `scheduler`: `acquire(&mlfq_lock)` and the boost test. -/
  | test
  /-- `priority_boost`: record `last_boost_tick`. -/
  | boostTick
  /-- `priority_boost`: the loop, at slot `i`. -/
  | boost (i : Slot)
  /-- `scheduler`: the selection loop, at priority `q` and slot `i`. -/
  | scan (q : Fin NMLFQ) (i : Slot)
  /-- `scheduler`: out of the loop with `selected = &proc[i]`, its lock held. -/
  | selected (i : Slot)
  /-- `c->proc = &proc[i]`, running its thread. -/
  | run (i : Slot)
  deriving DecidableEq, Repr

/-- The process layer on `C` CPUs. -/
structure Sys (C : ℕ) where
  proc : Slot → Proc
  thread : Slot → Thread
  forking : Slot → ForkPc
  cpu : Fin C → Pc
  lock : Slot → Option (Fin C)
  nextpid : ℤ
  mlfqTicks : ℕ
  ticks : ℕ
  lastBoostTick : ℤ

/-- The lock sections. -/
inductive Act
  | boostTest | recordBoost | boostSlot | scanSlot | dispatch
  | resume | timer | charge | count | yield | trapExit
  | sleep (chan : Chan) | exit (status : ℤ)
  | alloc (j : Slot) (r : Proc.AllocResult) | forkParent | forkReady
  | wakeup (j : Slot) (chan : Chan) | kill (j : Slot) (pid : ℤ) | setkilled
  | setprocpriority (j : Slot) (pid priority : ℤ)
  | reparent (j : Slot) | waitFree (j : Slot)
  deriving DecidableEq, Repr

/-- A step: which CPU makes which section. -/
structure Ev (C : ℕ) where
  cpu : Fin C
  act : Act
  deriving DecidableEq

/-! ## Boot -/

/-- `procinit`. -/
def procinit : Slot → Proc := fun _ => { Proc.zero with state := .unused }

/-- `initproc`: `userinit` allocates the first slot of an empty table. -/
def initproc : Slot := 0

/-- `userinit`. -/
def userinit (pid : ℤ) (t : Slot → Proc) : Slot → Proc :=
  update t initproc { (t initproc).allocproc pid with state := .runnable }

/-- After `userinit`, with every CPU at the top of `scheduler`. -/
def boot (C : ℕ) : Sys C :=
  { proc := userinit 1 procinit
    thread := fun _ => .off .forkret
    forking := fun _ => .idle
    cpu := fun _ => .test
    lock := fun _ => none
    nextpid := 2, mlfqTicks := 0, ticks := 0, lastBoostTick := 0 }

/-! ## Loop counters of `scheduler` and `priority_boost` -/

/-- The next slot of the table, if the loop is not at its end. -/
def nextSlot (i : Slot) : Option Slot := if h : i.val + 1 < NPROC then some ⟨i.val + 1, h⟩ else none

/-- The next priority of the selection loop, if it is not at its end. -/
def nextLevel (q : Fin NMLFQ) : Option (Fin NMLFQ) :=
  if h : q.val + 1 < NMLFQ then some ⟨q.val + 1, h⟩ else none

/-- `priority_boost` after slot `i`. -/
def boostNext (i : Slot) : Pc :=
  match nextSlot i with
  | some j => .boost j
  | none => .scan 0 0

/-- The selection loop after slot `i` at priority `q`; with nothing selected at the end,
`scheduler` starts over. -/
def scanNext (q : Fin NMLFQ) (i : Slot) : Pc :=
  match nextSlot i with
  | some j => .scan q j
  | none =>
    match nextLevel q with
    | some q' => .scan q' 0
    | none => .test

/-- The CPU is in `scheduler` with no lock held, where it takes interrupts. -/
def Pc.idle : Pc → Bool
  | .test | .boostTick | .boost _ | .scan _ _ => true
  | .selected _ | .run _ => false

/-- `swtch` to a switched-out thread. -/
def Thread.switchIn : Thread → Thread
  | .off r => .resuming r
  | t => t

namespace Sys

variable {C : ℕ}

/-! ## Updates of one component -/

@[simps] def setProc (s : Sys C) (i : Slot) (p : Proc) : Sys C := { s with proc := update s.proc i p }
@[simps] def setThread (s : Sys C) (i : Slot) (t : Thread) : Sys C := { s with thread := update s.thread i t }
@[simps] def setForking (s : Sys C) (i : Slot) (k : ForkPc) : Sys C :=
  { s with forking := update s.forking i k }
@[simps] def setCpu (s : Sys C) (c : Fin C) (pc : Pc) : Sys C := { s with cpu := update s.cpu c pc }
@[simps] def setLock (s : Sys C) (i : Slot) (o : Option (Fin C)) : Sys C :=
  { s with lock := update s.lock i o }

/-- Process `i` may issue sections of a system call: its thread is in ordinary code, not inside
`fork`. -/
def InSyscall (s : Sys C) (i : Slot) : Prop := s.thread i = .normal ∧ s.forking i = .idle

instance (s : Sys C) (i : Slot) : Decidable (s.InSyscall i) :=
  inferInstanceAs (Decidable (_ ∧ _))

/-- CPU `c` may run the body of the loop of `wakeup` on slot `j`: as an interrupt of an idle CPU, or
on behalf of the running process, which skips its own slot. -/
def mayWake (s : Sys C) (c : Fin C) (j : Slot) : Bool :=
  match s.cpu c with
  | .run i => (s.thread i = .normal ∨ s.thread i = .trapped) ∧ j ≠ i
  | pc => pc.idle

/-- `clockintr`: only CPU 0 advances `ticks`. -/
@[simps] def clockintr (s : Sys C) (c : Fin C) : Sys C :=
  { s with ticks := if c.val = 0 then incU32 s.ticks else s.ticks }

/-! ## The sections -/

/-- One step of the sections of `scheduler` and `priority_boost`. -/
def schedulerStep (s : Sys C) (c : Fin C) : Act → Option (Sys C)
  | .boostTest =>
    match s.cpu c with
    | .test =>
      if s.mlfqTicks ≥ BOOST_INTERVAL then some ({ s with mlfqTicks := 0 }.setCpu c .boostTick)
      else some (s.setCpu c (.scan 0 0))
    | _ => none
  | .recordBoost =>
    match s.cpu c with
    | .boostTick => some ({ s with lastBoostTick := ofU32 s.ticks }.setCpu c (.boost 0))
    | _ => none
  | .boostSlot =>
    match s.cpu c with
    | .boost i =>
      if s.lock i = none then
        some ((s.setProc i (s.proc i).priorityBoost).setCpu c (boostNext i))
      else none
    | _ => none
  | .scanSlot =>
    match s.cpu c with
    | .scan q i =>
      if s.lock i = none then
        if (s.proc i).state = .runnable ∧ (s.proc i).priority = (q.val : ℤ) then
          some ((s.setLock i (some c)).setCpu c (.selected i))
        else some (s.setCpu c (scanNext q i))
      else none
    | _ => none
  | .dispatch =>
    match s.cpu c with
    | .selected i =>
      some (((s.setProc i (s.proc i).dispatch).setThread i (s.thread i).switchIn).setCpu c (.run i))
    | _ => none
  | _ => none

/-- One step of the process `i` that CPU `c` runs: the end of `sched`, the timer path, `sleep`,
`exit` and `fork`. -/
def processStep (s : Sys C) (c : Fin C) (i : Slot) : Act → Option (Sys C)
  | .resume =>
    match s.thread i with
    | .resuming .sleep =>
      some (((s.setProc i (s.proc i).tidy).setThread i .normal).setLock i none)
    | .resuming .yield | .resuming .forkret => some ((s.setThread i .normal).setLock i none)
    -- after `sched` in `exit`: `panic("zombie exit")`
    | _ => none
  | .charge =>
    if s.thread i = .trapped ∧ s.lock i = none then
      some ((s.setProc i (s.proc i).mlfqCheckTimer).setThread i .charged)
    else none
  | .count =>
    if s.thread i = .charged then
      some ({ s with mlfqTicks := incU64 s.mlfqTicks }.setThread i .counted)
    else none
  | .yield =>
    if s.thread i = .counted ∧ s.lock i = none then
      some (((s.setProc i (s.proc i).yield).setThread i (.off .yield)).setCpu c .test)
    else none
  | .trapExit =>
    -- `usertrap`: `if(killed(p)) exit(-1);` comes before `mlfq_check_timer`
    if s.thread i = .trapped ∧ s.forking i = .idle ∧ (s.proc i).killed ≠ 0 then
      some (s.setThread i .normal)
    else none
  | .sleep chan =>
    if s.InSyscall i ∧ s.lock i = none then
      some (((s.setProc i ((s.proc i).sleep chan)).setThread i (.off .sleep)).setCpu c .test)
    else none
  | .exit status =>
    -- `exit` of `initproc` is a panic
    if s.InSyscall i ∧ s.lock i = none ∧ i ≠ initproc then
      some (((s.setProc i ((s.proc i).exit status)).setThread i (.off .exit)).setCpu c .test)
    else none
  | .alloc j r =>
    if s.InSyscall i ∧ s.lock j = none ∧ (s.proc j).state = .unused then
      let s' := { s with nextpid := inc s.nextpid }.setProc j ((s.proc j).alloc r s.nextpid)
      match r with
      | .ok => some ((s'.setThread j (.off .forkret)).setForking i (.allocated j))
      | _ => some s'
    else none
  | .forkParent =>
    match s.forking i with
    | .allocated np =>
      if s.thread i = .normal then
        some ((s.setProc np { s.proc np with parent := some i }).setForking i (.parented np))
      else none
    | _ => none
  | .forkReady =>
    match s.forking i with
    | .parented np =>
      if s.thread i = .normal ∧ s.lock np = none then
        some ((s.setProc np { s.proc np with state := .runnable }).setForking i .idle)
      else none
    | _ => none
  | _ => none

/-- One step of a system call of process `i` on slot `j`. -/
def syscallStep (s : Sys C) (i : Slot) : Act → Option (Sys C)
  | .kill j pid =>
    if s.InSyscall i ∧ s.lock j = none then some (s.setProc j ((s.proc j).kill pid)) else none
  | .setkilled =>
    if s.InSyscall i ∧ s.lock i = none then some (s.setProc i (s.proc i).setkilled) else none
  | .setprocpriority j pid priority =>
    if s.InSyscall i ∧ s.lock j = none then
      if priority < 0 ∨ priority > 2 then some s
      else some (s.setProc j ((s.proc j).setprocpriority pid priority))
    else none
  | .reparent j =>
    if s.InSyscall i then
      if (s.proc j).parent = some i then
        some (s.setProc j { s.proc j with parent := some initproc })
      else some s
    else none
  | .waitFree j =>
    if s.InSyscall i ∧ s.lock j = none then
      if (s.proc j).parent = some i ∧ (s.proc j).state = .zombie then
        some (s.setProc j (s.proc j).freeproc)
      else some s
    else none
  | _ => none

/-- One lock section of CPU `c`. -/
def step (s : Sys C) (e : Ev C) : Option (Sys C) :=
  match e.act with
  | .timer =>
    match s.cpu e.cpu with
    | .run i =>
      if s.thread i = .normal then some ((s.clockintr e.cpu).setThread i .trapped) else none
    | pc => if pc.idle then some (s.clockintr e.cpu) else none
  | .wakeup j chan =>
    if s.mayWake e.cpu j ∧ s.lock j = none then some (s.setProc j ((s.proc j).wakeup chan)) else none
  | .boostTest | .recordBoost | .boostSlot | .scanSlot | .dispatch => s.schedulerStep e.cpu e.act
  | .kill .. | .setkilled | .setprocpriority .. | .reparent .. | .waitFree .. =>
    match s.cpu e.cpu with
    | .run i => s.syscallStep i e.act
    | _ => none
  | _ =>
    match s.cpu e.cpu with
    | .run i => s.processStep e.cpu i e.act
    | _ => none

end Sys

/-! ## Inversion

`Trans s c a s'` lists what section `a` of CPU `c` can do, with its guard: `step` inverted once. -/

inductive Trans {C : ℕ} (s : Sys C) (c : Fin C) : Act → Sys C → Prop
  | boostFire : s.cpu c = .test → BOOST_INTERVAL ≤ s.mlfqTicks →
      Trans s c .boostTest ({ s with mlfqTicks := 0 }.setCpu c .boostTick)
  | boostPass : s.cpu c = .test → s.mlfqTicks < BOOST_INTERVAL →
      Trans s c .boostTest (s.setCpu c (.scan 0 0))
  | recordBoost : s.cpu c = .boostTick →
      Trans s c .recordBoost ({ s with lastBoostTick := ofU32 s.ticks }.setCpu c (.boost 0))
  | boostSlot {i : Slot} : s.cpu c = .boost i → s.lock i = none →
      Trans s c .boostSlot ((s.setProc i (s.proc i).priorityBoost).setCpu c (boostNext i))
  | scanHit {q : Fin NMLFQ} {i : Slot} : s.cpu c = .scan q i → s.lock i = none →
      (s.proc i).state = .runnable → (s.proc i).priority = (q.val : ℤ) →
      Trans s c .scanSlot ((s.setLock i (some c)).setCpu c (.selected i))
  | scanMiss {q : Fin NMLFQ} {i : Slot} : s.cpu c = .scan q i → s.lock i = none →
      ¬ ((s.proc i).state = .runnable ∧ (s.proc i).priority = (q.val : ℤ)) →
      Trans s c .scanSlot (s.setCpu c (scanNext q i))
  | dispatch {i : Slot} : s.cpu c = .selected i →
      Trans s c .dispatch
        (((s.setProc i (s.proc i).dispatch).setThread i (s.thread i).switchIn).setCpu c (.run i))
  | resumeSleep {i : Slot} : s.cpu c = .run i → s.thread i = .resuming .sleep →
      Trans s c .resume (((s.setProc i (s.proc i).tidy).setThread i .normal).setLock i none)
  | resume {i : Slot} {r : Resume} : s.cpu c = .run i → s.thread i = .resuming r →
      r = .yield ∨ r = .forkret → Trans s c .resume ((s.setThread i .normal).setLock i none)
  | timerRun {i : Slot} : s.cpu c = .run i → s.thread i = .normal →
      Trans s c .timer ((s.clockintr c).setThread i .trapped)
  | timerIdle : (s.cpu c).idle = true → Trans s c .timer (s.clockintr c)
  | charge {i : Slot} : s.cpu c = .run i → s.thread i = .trapped → s.lock i = none →
      Trans s c .charge ((s.setProc i (s.proc i).mlfqCheckTimer).setThread i .charged)
  | count {i : Slot} : s.cpu c = .run i → s.thread i = .charged →
      Trans s c .count ({ s with mlfqTicks := incU64 s.mlfqTicks }.setThread i .counted)
  | yield {i : Slot} : s.cpu c = .run i → s.thread i = .counted → s.lock i = none →
      Trans s c .yield
        (((s.setProc i (s.proc i).yield).setThread i (.off .yield)).setCpu c .test)
  | trapExit {i : Slot} : s.cpu c = .run i → s.thread i = .trapped → s.forking i = .idle →
      (s.proc i).killed ≠ 0 → Trans s c .trapExit (s.setThread i .normal)
  | sleep {i : Slot} {chan : Chan} : s.cpu c = .run i → s.InSyscall i → s.lock i = none →
      Trans s c (.sleep chan)
        (((s.setProc i ((s.proc i).sleep chan)).setThread i (.off .sleep)).setCpu c .test)
  | exit {i : Slot} {status : ℤ} : s.cpu c = .run i → s.InSyscall i → s.lock i = none →
      i ≠ initproc → Trans s c (.exit status)
        (((s.setProc i ((s.proc i).exit status)).setThread i (.off .exit)).setCpu c .test)
  | allocOk {i j : Slot} : s.cpu c = .run i → s.InSyscall i → s.lock j = none →
      (s.proc j).state = .unused → Trans s c (.alloc j .ok)
        ((({ s with nextpid := inc s.nextpid }.setProc j ((s.proc j).alloc .ok s.nextpid)).setThread j
          (.off .forkret)).setForking i (.allocated j))
  | allocFail {i j : Slot} {r : Proc.AllocResult} : s.cpu c = .run i → s.InSyscall i →
      s.lock j = none → (s.proc j).state = .unused → r ≠ .ok → Trans s c (.alloc j r)
        ({ s with nextpid := inc s.nextpid }.setProc j ((s.proc j).alloc r s.nextpid))
  | forkParent {i np : Slot} : s.cpu c = .run i → s.thread i = .normal →
      s.forking i = .allocated np → Trans s c .forkParent
        ((s.setProc np { s.proc np with parent := some i }).setForking i (.parented np))
  | forkReady {i np : Slot} : s.cpu c = .run i → s.thread i = .normal →
      s.forking i = .parented np → s.lock np = none → Trans s c .forkReady
        ((s.setProc np { s.proc np with state := .runnable }).setForking i .idle)
  | wakeup {j : Slot} {chan : Chan} : s.mayWake c j = true → s.lock j = none →
      Trans s c (.wakeup j chan) (s.setProc j ((s.proc j).wakeup chan))
  | kill {i j : Slot} {pid : ℤ} : s.cpu c = .run i → s.InSyscall i → s.lock j = none →
      Trans s c (.kill j pid) (s.setProc j ((s.proc j).kill pid))
  | setkilled {i : Slot} : s.cpu c = .run i → s.InSyscall i → s.lock i = none →
      Trans s c .setkilled (s.setProc i (s.proc i).setkilled)
  | setprocpriority {i j : Slot} {pid priority : ℤ} : s.cpu c = .run i → s.InSyscall i →
      s.lock j = none → 0 ≤ priority → priority ≤ 2 → Trans s c (.setprocpriority j pid priority)
        (s.setProc j ((s.proc j).setprocpriority pid priority))
  | setprocpriorityBad {i j : Slot} {pid priority : ℤ} : s.cpu c = .run i → s.InSyscall i →
      s.lock j = none → priority < 0 ∨ priority > 2 → Trans s c (.setprocpriority j pid priority) s
  | reparent {i j : Slot} : s.cpu c = .run i → s.InSyscall i → (s.proc j).parent = some i →
      Trans s c (.reparent j) (s.setProc j { s.proc j with parent := some initproc })
  | reparentSkip {i j : Slot} : s.cpu c = .run i → s.InSyscall i → (s.proc j).parent ≠ some i →
      Trans s c (.reparent j) s
  | waitFree {i j : Slot} : s.cpu c = .run i → s.InSyscall i → s.lock j = none →
      (s.proc j).parent = some i → (s.proc j).state = .zombie →
      Trans s c (.waitFree j) (s.setProc j (s.proc j).freeproc)
  | waitSkip {i j : Slot} : s.cpu c = .run i → s.InSyscall i → s.lock j = none →
      ¬ ((s.proc j).parent = some i ∧ (s.proc j).state = .zombie) → Trans s c (.waitFree j) s

section Inversion

variable {C : ℕ} {s s' : Sys C} {c : Fin C} {i : Slot} {a : Act}

theorem trans_of_schedulerStep (h : s.schedulerStep c a = some s') : Trans s c a s' := by
  cases a <;> simp only [Sys.schedulerStep, reduceCtorEq] at h
  case boostTest =>
    split at h <;> [skip; cases h]
    next hpc =>
    split_ifs at h with hb <;> cases h
    · exact .boostFire hpc hb
    · exact .boostPass hpc (not_le.mp hb)
  case recordBoost =>
    split at h <;> cases h
    next hpc => exact .recordBoost hpc
  case boostSlot =>
    split at h <;> [skip; cases h]
    next i hpc =>
    split_ifs at h with hl
    cases h
    exact .boostSlot hpc hl
  case scanSlot =>
    split at h <;> [skip; cases h]
    next q i hpc =>
    split_ifs at h with hl hr <;> cases h
    · exact .scanHit hpc hl hr.1 hr.2
    · exact .scanMiss hpc hl hr
  case dispatch =>
    split at h <;> cases h
    next i hpc => exact .dispatch hpc

theorem trans_of_processStep (hpc : s.cpu c = .run i) (h : s.processStep c i a = some s') :
    Trans s c a s' := by
  cases a <;> simp only [Sys.processStep, reduceCtorEq] at h
  case resume =>
    split at h <;> cases h
    next ht => exact .resumeSleep hpc ht
    next ht => exact .resume hpc ht (.inl rfl)
    next ht => exact .resume hpc ht (.inr rfl)
  case charge =>
    split_ifs at h with hg
    cases h
    exact .charge hpc hg.1 hg.2
  case count =>
    split_ifs at h with hg
    cases h
    exact .count hpc hg
  case yield =>
    split_ifs at h with hg
    cases h
    exact .yield hpc hg.1 hg.2
  case trapExit =>
    split_ifs at h with hg
    cases h
    exact .trapExit hpc hg.1 hg.2.1 hg.2.2
  case sleep chan =>
    split_ifs at h with hg
    cases h
    exact .sleep hpc hg.1 hg.2
  case exit status =>
    split_ifs at h with hg
    cases h
    exact .exit hpc hg.1 hg.2.1 hg.2.2
  case alloc j r =>
    split_ifs at h with hg
    cases r <;> cases h
    · exact .allocFail hpc hg.1 hg.2.1 hg.2.2 (by decide)
    · exact .allocFail hpc hg.1 hg.2.1 hg.2.2 (by decide)
    · exact .allocOk hpc hg.1 hg.2.1 hg.2.2
  case forkParent =>
    split at h <;> [skip; cases h]
    next np hk =>
    split_ifs at h with hg
    cases h
    exact .forkParent hpc hg hk
  case forkReady =>
    split at h <;> [skip; cases h]
    next np hk =>
    split_ifs at h with hg
    cases h
    exact .forkReady hpc hg.1 hk hg.2

theorem trans_of_syscallStep (hpc : s.cpu c = .run i) (h : s.syscallStep i a = some s') :
    Trans s c a s' := by
  cases a <;> simp only [Sys.syscallStep, reduceCtorEq] at h
  case kill j pid =>
    split_ifs at h with hg
    cases h
    exact .kill hpc hg.1 hg.2
  case setkilled =>
    split_ifs at h with hg
    cases h
    exact .setkilled hpc hg.1 hg.2
  case setprocpriority j pid priority =>
    split_ifs at h with hg hb <;> cases h
    · exact .setprocpriorityBad hpc hg.1 hg.2 hb
    · rw [not_or, not_lt, not_lt] at hb
      exact .setprocpriority hpc hg.1 hg.2 hb.1 hb.2
  case reparent j =>
    split_ifs at h with hg hp <;> cases h
    · exact .reparent hpc hg hp
    · exact .reparentSkip hpc hg hp
  case waitFree j =>
    split_ifs at h with hg hp <;> cases h
    · exact .waitFree hpc hg.1 hg.2 hp.1 hp.2
    · exact .waitSkip hpc hg.1 hg.2 hp

/-- **Inversion of `step`.** -/
theorem trans_of_step {e : Ev C} (h : s.step e = some s') : Trans s e.cpu e.act s' := by
  obtain ⟨c, a⟩ := e
  cases a <;> simp only [Sys.step] at h
  case timer =>
    split at h
    next i hpc =>
      split_ifs at h with ht
      cases h
      exact .timerRun hpc ht
    next pc hpc =>
      split_ifs at h with hi
      cases h
      exact .timerIdle hi
  case wakeup j chan =>
    split_ifs at h with hg
    cases h
    exact .wakeup hg.1 hg.2
  case boostTest | recordBoost | boostSlot | scanSlot | dispatch => exact trans_of_schedulerStep h
  case kill | setkilled | setprocpriority | reparent | waitFree =>
    split at h <;> [skip; cases h]
    next i hpc => exact trans_of_syscallStep hpc h
  all_goals
    split at h <;> [skip; cases h]
    next i hpc => exact trans_of_processStep hpc h

end Inversion

/-- Runs of the process layer from boot, with their history. -/
abbrev Reach (C : ℕ) (h : List (Sys C × Ev C)) (s : Sys C) : Prop := Lts.Path Sys.step (boot C) h s

/-- How often the section `a` was made. -/
def acts {C : ℕ} (a : Act) (h : List (Sys C × Ev C)) : ℕ :=
  Lts.total (fun _ e => if e.act = a then 1 else 0) h

/-- A concrete run, found by evaluation. -/
theorem exists_reach_of_replay {C : ℕ} (P : List (Sys C × Ev C) → Sys C → Prop)
    [∀ h s, Decidable (P h s)] (es : List (Ev C))
    (hr : ((Lts.replay Sys.step [] (boot C) es).any fun x => decide (P x.1 x.2)) = true) :
    ∃ h s, Reach C h s ∧ P h s :=
  Lts.exists_path_of_replay P es hr

/-- On one CPU, `initproc` is dispatched from boot and charged its first tick. -/
def firstCharge : List (Ev 1) :=
  [⟨0, .boostTest⟩, ⟨0, .scanSlot⟩, ⟨0, .dispatch⟩, ⟨0, .resume⟩, ⟨0, .timer⟩, ⟨0, .charge⟩]

end Xv6Mlfq
