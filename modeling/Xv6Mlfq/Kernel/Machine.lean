import Xv6Mlfq.Kernel.Code

/-!
# Xv6Mlfq.Kernel.Machine — CPUs, spinlocks, interrupts and context switches

`Machine C` is the process layer on `C` CPUs between two instructions.  Each CPU runs its scheduler
thread or the kernel thread of a process; the code of every thread, saved or running, is part of the
state, so `swtch` is a change of the thread a CPU runs.  A step is one instruction of one CPU, or an
interrupt, which a CPU takes at any point at which its interrupt-enable bit is set.

`panic` is the loop it ends in, with what it reports kept in `panics`: the other CPUs go on, and so
do interrupts if they were enabled.
-/

namespace Xv6Mlfq

open CInt Function

/-- The calls of `panic` in `spinlock.c` and `proc.c`, and that of `kerneltrap` for the use of a null
`struct proc *`. -/
inductive Panic
  | acquire | release | popOffInterruptible | popOff
  | schedLock | schedLocks | schedRunning | schedInterruptible
  | initExiting | zombieExit | kerneltrap
  deriving DecidableEq, Repr

/-- `struct cpu`, with the interrupt-enable bit and the thread the CPU runs: that of a process, or its
scheduler thread. -/
structure Cpu where
  proc : Option Slot
  noff : ℕ
  intena : Bool
  intr : Bool
  thread : Option Slot
  deriving DecidableEq, Repr

structure Machine (C : ℕ) where
  mem : Mem
  holder : Lock → Option (Fin C)
  cpu : Fin C → Cpu
  /-- The scheduler thread of a CPU. -/
  schedCode : Fin C → List Instr
  /-- The kernel thread of a process. -/
  procCode : Slot → List Instr
  panics : List Panic

/-- A step: an instruction of a CPU, or an interrupt. -/
inductive Event (C : ℕ)
  | run (c : Fin C) (ch : Choice)
  | intr (c : Fin C) (dev : Dev)
  deriving DecidableEq

namespace Machine

variable {C : ℕ}

/-- After `userinit`, with every CPU at the top of `scheduler`. -/
def boot (C : ℕ) : Machine C :=
  { mem := { proc := userinit 1 procinit, nextpid := 2, mlfqTicks := 0, ticks := 0, lastBoostTick := 0 }
    holder := fun _ => none
    cpu := fun _ => { proc := none, noff := 0, intena := false, intr := false, thread := none }
    schedCode := fun _ => [.scheduler]
    procCode := forkret
    panics := [] }

/-! ## Threads -/

@[simps] def setMem (m : Machine C) (d : Mem) : Machine C := { m with mem := d }
@[simps] def setHolder (m : Machine C) (l : Lock) (o : Option (Fin C)) : Machine C :=
  { m with holder := update m.holder l o }
@[simps] def setCpu (m : Machine C) (c : Fin C) (x : Cpu) : Machine C := { m with cpu := update m.cpu c x }
@[simps] def setProcCode (m : Machine C) (i : Slot) (k : List Instr) : Machine C :=
  { m with procCode := update m.procCode i k }

/-- The code a CPU executes. -/
def code (m : Machine C) (c : Fin C) : List Instr :=
  match (m.cpu c).thread with
  | none => m.schedCode c
  | some p => m.procCode p

/-- The thread a CPU executes goes on with `k`. -/
def setCode (m : Machine C) (c : Fin C) (k : List Instr) : Machine C :=
  match (m.cpu c).thread with
  | none => { m with schedCode := update m.schedCode c k }
  | some p => { m with procCode := update m.procCode p k }

/-- `panic`. -/
def panic (m : Machine C) (c : Fin C) (x : Panic) (rest : List Instr) : Machine C :=
  { m with panics := x :: m.panics }.setCode c (.hang :: rest)

/-! ## Instructions -/

/-- `push_off`. -/
def pushOff (x : Cpu) : Cpu :=
  { x with intr := false, intena := if x.noff = 0 then x.intr else x.intena, noff := x.noff + 1 }

/-- `pop_off`, after its tests. -/
def popOff (x : Cpu) : Cpu :=
  { x with noff := x.noff - 1, intr := if x.noff - 1 = 0 ∧ x.intena then true else x.intr }

/-- The tests of `sched`. -/
def schedPanic (m : Machine C) (c : Fin C) : Option Panic :=
  match (m.cpu c).proc with
  | none => some .kerneltrap
  | some p =>
    if m.holder (.proc p) ≠ some c then some .schedLock
    else if (m.cpu c).noff ≠ 1 then some .schedLocks
    else if (m.mem.proc p).state = .running then some .schedRunning
    else if (m.cpu c).intr then some .schedInterruptible
    else none

/-- `sched`: save the thread with code `k` and continue the scheduler thread of the CPU. -/
def sched (m : Machine C) (c : Fin C) (k rest : List Instr) : Machine C :=
  match m.schedPanic c with
  | some x => m.panic c x rest
  | none =>
    (m.setCode c (.setIntena (m.cpu c).intena :: k)).setCpu c { m.cpu c with thread := none }

/-- Instructions that touch the CPU, a lock or another thread. -/
def prim (m : Machine C) (c : Fin C) (ch : Choice) (rest : List Instr) : Instr → Option (Machine C)
  | .acquire l =>
    let m := m.setCpu c (pushOff (m.cpu c))
    if m.holder l = some c then some (m.panic c .acquire rest)
    else some (m.setCode c (.spin l :: rest))
  | .spin l => if m.holder l = none then some ((m.setHolder l (some c)).setCode c rest) else none
  | .release l =>
    if m.holder l ≠ some c then some (m.panic c .release rest)
    else some ((m.setHolder l none).setCode c (.popOff :: rest))
  | .popOff =>
    if (m.cpu c).intr then some (m.panic c .popOffInterruptible rest)
    else if (m.cpu c).noff < 1 then some (m.panic c .popOff rest)
    else some ((m.setCpu c (popOff (m.cpu c))).setCode c rest)
  | .intrOn | .sret => some ((m.setCpu c { m.cpu c with intr := true }).setCode c rest)
  | .intrOff => some ((m.setCpu c { m.cpu c with intr := false }).setCode c rest)
  | .setIntena b => some ((m.setCpu c { m.cpu c with intena := b }).setCode c rest)
  | .dispatch i =>
    some (((m.setMem (m.mem.setProc i (m.mem.proc i).dispatch)).setCpu c
      { m.cpu c with proc := some i }).setCode c rest)
  | .swtch i => some ((m.setCode c rest).setCpu c { m.cpu c with thread := some i })
  | .clearProc => some ((m.setCpu c { m.cpu c with proc := none }).setCode c rest)
  | .sched => some (m.sched c rest rest)
  | .schedExit => some (m.sched c [.zombieExit] rest)
  | .zombieExit => some (m.panic c .zombieExit rest)
  | .exit status =>
    if (m.cpu c).proc = some initproc then some (m.panic c .initExiting rest)
    else some (m.setCode c (exitCode status ++ rest))
  | .alloc j pid =>
    match ch with
    | .alloc r =>
      let m' := m.setMem (m.mem.setProc j ((m.mem.proc j).alloc r pid))
      match r with
      | .ok => some ((m'.setProcCode j (forkret j)).setCode c (forkTail j ++ rest))
      | _ => some (m'.setCode c ([.leafCalls, .release (.proc j)] ++ rest))
    | _ => none
  | .user =>
    -- `uservec`: interrupts are off in `usertrap`
    let m' := m.setCpu c { m.cpu c with intr := false }
    match ch with
    | .syscall call => some (m'.setCode c (syscallTrap call ++ rest))
    | .fault => (m.cpu c).proc.map fun p => m'.setCode c (faultTrap p ++ rest)
    | _ => none
  | _ => none

/-- One instruction of CPU `c`. -/
def exec (m : Machine C) (c : Fin C) (ch : Choice) (i : Instr) (rest : List Instr) :
    Option (Machine C) :=
  match m.prim c ch rest i with
  | some m' => some m'
  | none => (i.expand (m.cpu c).proc ch m.mem).map fun r => (m.setMem r.1).setCode c (r.2 ++ rest)

/-- An interrupt of CPU `c`: `usertrap` from user code, `kerneltrap` from the kernel. -/
def interrupt (m : Machine C) (c : Fin C) (dev : Dev) : Option (Machine C) :=
  let m' := m.setCpu c { m.cpu c with intr := false }
  match m.code c with
  | .user :: rest => (m.cpu c).proc.map fun p => m'.setCode c (intrTrap c p dev ++ rest)
  | k => some (m'.setCode c (kerneltrap c dev ++ k))

def step (m : Machine C) : Event C → Option (Machine C)
  | .run c ch =>
    match m.code c with
    | i :: rest => m.exec c ch i rest
    | [] => none
  | .intr c dev => if (m.cpu c).intr then m.interrupt c dev else none

end Machine

/-- Runs of the machine from boot, with their history. -/
abbrev MachineReach (C : ℕ) (h : List (Machine C × Event C)) (m : Machine C) : Prop :=
  Lts.Path Machine.step (Machine.boot C) h m

/-- A concrete run, found by evaluation. -/
theorem exists_machineReach_of_replay {C : ℕ} (P : List (Machine C × Event C) → Machine C → Prop)
    [∀ h m, Decidable (P h m)] (es : List (Event C))
    (hr : ((Lts.replay Machine.step [] (Machine.boot C) es).any fun x => decide (P x.1 x.2)) = true) :
    ∃ h m, MachineReach C h m ∧ P h m :=
  Lts.exists_path_of_replay P es hr

/-- On two CPUs, CPU 0 has switched to `initproc`, which is about to release its lock; CPU 1 waits for
this lock in its selection loop. -/
def contended : List (Event 2) := List.replicate 13 (.run 0 .go) ++ List.replicate 9 (.run 1 .go)

end Xv6Mlfq
