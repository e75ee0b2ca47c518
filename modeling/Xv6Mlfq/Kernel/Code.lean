import Xv6Mlfq.Sections

/-!
# Xv6Mlfq.Kernel.Code — the code of the process layer, lock by lock

The kernel threads as lists of instructions.  An instruction is one lock operation, one access to the
shared data between two of them, or a control point: a loop at one slot, a test, a call.  Executing a
control point replaces it by the code it leads to (`Instr.expand`), so that a list of instructions is
the rest of what a thread has to do, its stack included.

What the data accesses do to a slot is taken from `Proc`.  Reads whose result only goes to the user
(`getprocinfo`, `getpstat`, `sys_uptime`) are left out; their locks are kept, and so are those under
which nothing of the process layer is called (`kalloc`, `filedup`, `idup`, `printf`: `leaf`).  The other
calls of other layers (files, pipes, the log, devices) are a sequence of sections of one lock of that
layer, in which they may call `wakeup`, `killed` and, in a process, `sleep` (`driver`, `handler`).
-/

namespace Xv6Mlfq

open CInt Function

/-- The spinlocks of the process layer, and those of the other layers: locks under which `sleep` and
`wakeup` are called, and locks that are always the last one taken. -/
inductive Lock
  | wait | ticks | mlfq | pid
  | proc (i : Slot)
  | other (k : ℕ) | leaf (k : ℕ)
  deriving DecidableEq, Repr

/-- The data shared by the threads. -/
structure Mem where
  proc : Slot → Proc
  nextpid : ℤ
  mlfqTicks : ℕ
  ticks : ℕ
  lastBoostTick : ℤ

@[simps] def Mem.setProc (d : Mem) (i : Slot) (p : Proc) : Mem := { d with proc := update d.proc i p }

/-- Instructions. -/
inductive Instr
  /- `spinlock.c`: `acquire` up to its loop, the loop, `release` up to `pop_off`, `pop_off` -/
  | acquire (l : Lock) | spin (l : Lock) | release (l : Lock) | popOff
  /- the interrupt-enable bit -/
  | intrOn | intrOff | sret
  /- `scheduler`, `priority_boost` -/
  | scheduler | boostTest | recordBoost | boostFrom (i : Slot) | boostSlot (i : Slot)
  | scanFrom (q : Fin NMLFQ) (i : Slot) | scanSlot (q : Fin NMLFQ) (i : Slot)
  | dispatch (i : Slot) | swtch (i : Slot) | clearProc
  /- `sched`, called by `yield` and `sleep`, and by `exit`; what follows it -/
  | sched | schedExit | setIntena (b : Bool) | zombieExit
  /- `yield`, `sleep`, `mlfq_check_timer`, `clockintr` -/
  | yieldMark | sleepMark (chan : Chan) | tidy | charge | count | tick
  /- `wakeup`, `kill`, `setprocpriority`: the loop at a slot, its body -/
  | wakeupFrom (chan : Chan) (j : Slot) | wakeupSlot (chan : Chan) (j : Slot)
  | killFrom (pid : ℤ) (j : Slot) | killSlot (pid : ℤ) (j : Slot)
  | setpriority (pid priority : ℤ)
  | setpriorityFrom (pid priority : ℤ) (j : Slot) | setprioritySlot (pid priority : ℤ) (j : Slot)
  /- `killed` before `exit`, `setkilled`, `exit`, `reparent` -/
  | exitIfKilled | killedTest | setkilled
  | exit (status : ℤ) | reparentFrom (j : Slot) | wakeParent (status : ℤ) | exitMark (status : ℤ)
  /- `wait` -/
  | waitFrom (j : Slot) (havekids : Bool) | waitSlot (j : Slot) | freeproc (j : Slot)
  | waitEnd (havekids : Bool) | waitKilled
  /- `allocproc` and `fork` -/
  | allocFrom (j : Slot) | allocSlot (j : Slot) | allocpid (j : Slot) | alloc (j : Slot) (pid : ℤ)
  | setParent (j : Slot) | setRunnable (j : Slot)
  /- `getprocinfo`, `getpstat` -/
  | infoFrom (j : Slot) | infoNext (j : Slot) | getpstat | statFrom (j : Slot)
  /- `sys_sleep` -/
  | sysSleep (n : ℕ) | sleepLoop (ticks0 n : ℕ) | sleepKilled (ticks0 n : ℕ)
  /- other layers, in a process and in an interrupt handler -/
  | leafCalls | driver | inDriver (k : ℕ) | handler | inHandler (k : ℕ)
  /- the end of `kerneltrap`, user code, the loop of `panic` -/
  | timerTail | user | hang
  deriving DecidableEq, Repr

/-- The system calls. -/
inductive Call
  | fork | exit (status : ℤ) | wait | kill (pid : ℤ) | sleep (n : ℤ) | uptime
  | setpriority (pid priority : ℤ) | getpinfo | getpstat | other
  deriving DecidableEq, Repr

/-- What an instruction leaves open: the next trap of user code, the outcome of allocations and of
`copyout`, and what other layers do. -/
inductive Choice
  | go
  | syscall (call : Call) | fault
  | alloc (r : Proc.AllocResult)
  | copyout (ok : Bool)
  | enter (k : ℕ) | wake (chan : Chan) | sleepOn (chan : Chan) | askKilled | leave
  deriving DecidableEq, Repr

/-! ## Functions -/

/-- A loop over the table after slot `i`. -/
def loop (f : Slot → Instr) (i : Slot) : List Instr :=
  match nextSlot i with
  | some j => [f j]
  | none => []

/-- `sleep(chan, lk)`. -/
def sleepCode (p : Slot) (chan : Chan) (lk : Lock) : List Instr :=
  [.acquire (.proc p), .release lk, .sleepMark chan, .sched, .tidy, .release (.proc p), .acquire lk]

/-- `yield()`. -/
def yieldCode (p : Slot) : List Instr :=
  [.acquire (.proc p), .yieldMark, .sched, .release (.proc p)]

/-- `mlfq_check_timer()`. -/
def mlfqCheckTimerCode (p : Slot) : List Instr :=
  [.acquire (.proc p), .charge, .release (.proc p), .acquire .mlfq, .count, .release .mlfq]

/-- `clockintr()`. -/
def clockintrCode : List Instr :=
  [.acquire .ticks, .tick, .wakeupFrom .ticks 0, .release .ticks]

/-- `usertrapret()`. -/
def usertrapret : List Instr := [.intrOff, .sret, .user]

/-- `forkret()`; `fsinit` is a call of another layer. -/
def forkret (p : Slot) : List Instr := [.release (.proc p), .driver] ++ usertrapret

/-- `fork`, from `filedup` on. -/
def forkTail (j : Slot) : List Instr :=
  [.leafCalls, .release (.proc j), .acquire .wait, .setParent j, .release .wait,
    .acquire (.proc j), .setRunnable j, .release (.proc j)]

/-- `syscall()`. -/
def Call.code : Call → List Instr
  | .fork => [.allocFrom 0]
  | .exit status => [.exit status]
  | .wait => [.acquire .wait, .waitFrom 0 false]
  | .kill pid => [.killFrom pid 0]
  | .sleep n => [.acquire .ticks, .sysSleep (if n < 0 then 0 else n.toNat)]
  | .uptime => [.acquire .ticks, .release .ticks]
  | .setpriority pid priority => [.setpriority pid priority]
  | .getpinfo => [.infoFrom 0]
  | .getpstat => [.getpstat]
  | .other => [.driver]

/-- `usertrap()` for a system call. -/
def syscallTrap (call : Call) : List Instr :=
  [.exitIfKilled, .intrOn] ++ call.code ++ [.exitIfKilled] ++ usertrapret

/-- `usertrap()` for an exception. -/
def faultTrap (p : Slot) : List Instr :=
  [.leafCalls, .acquire (.proc p), .setkilled, .release (.proc p), .exitIfKilled] ++ usertrapret

/-- Interrupts: the timer, or another device. -/
inductive Dev
  | timer | device
  deriving DecidableEq, Repr

/-- `devintr()` on CPU `c`: only CPU 0 calls `clockintr`. -/
def devintr {C : ℕ} (c : Fin C) : Dev → List Instr
  | .timer => if c.val = 0 then clockintrCode else []
  | .device => [.handler]

/-- `usertrap()` for an interrupt. -/
def intrTrap {C : ℕ} (c : Fin C) (p : Slot) (dev : Dev) : List Instr :=
  devintr c dev ++ [.exitIfKilled] ++
    (match dev with
      | .timer => mlfqCheckTimerCode p ++ yieldCode p
      | .device => []) ++ usertrapret

/-- `kerneltrap()`. -/
def kerneltrap {C : ℕ} (c : Fin C) (dev : Dev) : List Instr :=
  devintr c dev ++
    (match dev with
      | .timer => [.timerTail]
      | .device => []) ++ [.sret]

/-- `exit()`, after its test for `initproc`; closing the files is a call of another layer. -/
def exitCode (status : ℤ) : List Instr :=
  [.driver, .acquire .wait, .reparentFrom 0, .wakeParent status]

/-- The selection loop after slot `i` at priority `q`. -/
def scanNextCode (q : Fin NMLFQ) (i : Slot) : List Instr :=
  match nextSlot i with
  | some j => [.scanFrom q j]
  | none =>
    match nextLevel q with
    | some q' => [.scanFrom q' 0]
    | none => [.scheduler]

/-! ## Control points and data -/

/-- The instructions of `scheduler` and of interrupt handlers, and those common to all threads: what they
do to the data, and the code they lead to. -/
def Instr.expandAny (myproc : Option Slot) (ch : Choice) (d : Mem) : Instr → Option (Mem × List Instr)
  | .scheduler => some (d, [.intrOn, .acquire .mlfq, .boostTest])
  | .boostTest =>
    if d.mlfqTicks ≥ BOOST_INTERVAL then
      some ({ d with mlfqTicks := 0 }, [.release .mlfq, .acquire .ticks, .recordBoost, .release .ticks,
        .boostFrom 0, .scanFrom 0 0])
    else some (d, [.release .mlfq, .scanFrom 0 0])
  | .recordBoost => some ({ d with lastBoostTick := ofU32 d.ticks }, [])
  | .boostFrom i =>
    some (d, [.acquire (.proc i), .boostSlot i, .release (.proc i)] ++ loop .boostFrom i)
  | .boostSlot i => some (d.setProc i (d.proc i).priorityBoost, [])
  | .scanFrom q i => some (d, [.acquire (.proc i), .scanSlot q i])
  | .scanSlot q i =>
    if (d.proc i).state = .runnable ∧ (d.proc i).priority = (q.val : ℤ) then
      some (d, [.dispatch i, .swtch i, .clearProc, .release (.proc i), .scheduler])
    else some (d, .release (.proc i) :: scanNextCode q i)
  | .wakeupFrom chan j =>
    -- `if(p != myproc())`
    if myproc = some j then some (d, loop (.wakeupFrom chan) j)
    else some (d, [.acquire (.proc j), .wakeupSlot chan j, .release (.proc j)] ++ loop (.wakeupFrom chan) j)
  | .wakeupSlot chan j => some (d.setProc j ((d.proc j).wakeup chan), [])
  | .tick => some ({ d with ticks := incU32 d.ticks }, [])
  | .leafCalls =>
    match ch with
    | .enter k => some (d, [.acquire (.leaf k), .release (.leaf k), .leafCalls])
    | .leave => some (d, [])
    | _ => none
  | .handler =>
    match ch with
    | .enter k => some (d, [.acquire (.other k), .inHandler k, .handler])
    | .leave => some (d, [])
    | _ => none
  | .inHandler k =>
    match ch with
    | .enter k' => some (d, [.acquire (.leaf k'), .release (.leaf k'), .inHandler k])
    | .wake chan => some (d, [.wakeupFrom chan 0, .inHandler k])
    | .leave => some (d, [.release (.other k)])
    | _ => none
  | .timerTail =>
    match myproc with
    | some p =>
      if (d.proc p).state = .running then some (d, mlfqCheckTimerCode p ++ yieldCode p) else some (d, [])
    | none => some (d, [])
  | _ => none

/-- The instructions of process `p`. -/
def Instr.expandProc (p : Slot) (ch : Choice) (d : Mem) : Instr → Option (Mem × List Instr)
  | .yieldMark => some (d.setProc p (d.proc p).yield, [])
  | .sleepMark chan => some (d.setProc p ((d.proc p).sleep chan), [])
  | .tidy => some (d.setProc p (d.proc p).tidy, [])
  | .charge => some (d.setProc p (d.proc p).mlfqCheckTimer, [])
  | .count => some ({ d with mlfqTicks := incU64 d.mlfqTicks }, [])
  | .killFrom pid j => some (d, [.acquire (.proc j), .killSlot pid j])
  | .killSlot pid j =>
    if (d.proc j).pid = pid then some (d.setProc j ((d.proc j).kill pid), [.release (.proc j)])
    else some (d, .release (.proc j) :: loop (.killFrom pid) j)
  | .setpriority pid priority =>
    if priority < 0 ∨ priority > 2 then some (d, []) else some (d, [.setpriorityFrom pid priority 0])
  | .setpriorityFrom pid priority j => some (d, [.acquire (.proc j), .setprioritySlot pid priority j])
  | .setprioritySlot pid priority j =>
    if (d.proc j).hasPid pid then
      some (d.setProc j ((d.proc j).setprocpriority pid priority), [.release (.proc j)])
    else some (d, .release (.proc j) :: loop (.setpriorityFrom pid priority) j)
  | .exitIfKilled => some (d, [.acquire (.proc p), .killedTest])
  | .killedTest =>
    some (d, .release (.proc p) :: if (d.proc p).killed ≠ 0 then [.exit (-1)] else [])
  | .setkilled => some (d.setProc p (d.proc p).setkilled, [])
  | .reparentFrom j =>
    if (d.proc j).parent = some p then
      some (d.setProc j { d.proc j with parent := some initproc },
        .wakeupFrom (.proc initproc) 0 :: loop .reparentFrom j)
    else some (d, loop .reparentFrom j)
  | .wakeParent status =>
    some (d, [.wakeupFrom (match (d.proc p).parent with | some i => .proc i | none => .null) 0,
      .acquire (.proc p), .exitMark status, .release .wait, .schedExit])
  | .exitMark status => some (d.setProc p ((d.proc p).exit status), [])
  | .waitFrom j havekids =>
    if (d.proc j).parent = some p then some (d, [.acquire (.proc j), .waitSlot j])
    else
      some (d, match nextSlot j with
        | some k => [.waitFrom k havekids]
        | none => [.waitEnd havekids])
  | .waitSlot j =>
    if (d.proc j).state = .zombie then
      match ch with
      | .copyout true => some (d, [.leafCalls, .freeproc j, .release (.proc j), .release .wait])
      | .copyout false => some (d, [.release (.proc j), .release .wait])
      | _ => none
    else
      some (d, .release (.proc j) :: match nextSlot j with
        | some k => [.waitFrom k true]
        | none => [.waitEnd true])
  | .freeproc j => some (d.setProc j (d.proc j).freeproc, [])
  | .waitEnd havekids =>
    if havekids then some (d, [.acquire (.proc p), .waitKilled]) else some (d, [.release .wait])
  | .waitKilled =>
    some (d, .release (.proc p) :: if (d.proc p).killed ≠ 0 then [.release .wait]
      else sleepCode p (.proc p) .wait ++ [.waitFrom 0 false])
  | .allocFrom j => some (d, [.acquire (.proc j), .allocSlot j])
  | .allocSlot j =>
    if (d.proc j).state = .unused then some (d, [.acquire .pid, .allocpid j])
    else some (d, .release (.proc j) :: loop .allocFrom j)
  | .allocpid j => some ({ d with nextpid := inc d.nextpid }, [.release .pid, .leafCalls, .alloc j d.nextpid])
  | .setParent j => some (d.setProc j { d.proc j with parent := some p }, [])
  | .setRunnable j => some (d.setProc j { d.proc j with state := .runnable }, [])
  | .infoFrom j => some (d, [.acquire (.proc j), .release (.proc j), .infoNext j])
  | .infoNext j =>
    match ch with
    | .copyout ok => some (d, if ok then loop .infoFrom j else [])
    | _ => none
  | .getpstat =>
    match ch with
    | .alloc .ok => some (d, [.leafCalls, .acquire .ticks, .release .ticks, .acquire .mlfq, .release .mlfq,
        .statFrom 0, .leafCalls])
    -- `kalloc() == 0`
    | .alloc .noMemory => some (d, [.leafCalls])
    | _ => none
  | .statFrom j => some (d, [.acquire (.proc j), .release (.proc j)] ++ loop .statFrom j)
  | .sysSleep n => some (d, [.sleepLoop d.ticks n])
  | .sleepLoop ticks0 n =>
    -- `ticks - ticks0 < n`, unsigned
    if (d.ticks + 2 ^ 32 - ticks0) % 2 ^ 32 < n then some (d, [.acquire (.proc p), .sleepKilled ticks0 n])
    else some (d, [.release .ticks])
  | .sleepKilled ticks0 n =>
    some (d, .release (.proc p) :: if (d.proc p).killed ≠ 0 then [.release .ticks]
      else sleepCode p .ticks .ticks ++ [.sleepLoop ticks0 n])
  | .driver =>
    match ch with
    | .enter k => some (d, [.leafCalls, .acquire (.other k), .inDriver k, .driver])
    | .leave => some (d, [.leafCalls])
    | _ => none
  | .inDriver k =>
    match ch with
    | .enter k' => some (d, [.acquire (.leaf k'), .release (.leaf k'), .inDriver k])
    | .wake chan => some (d, [.wakeupFrom chan 0, .inDriver k])
    | .sleepOn chan => some (d, sleepCode p chan (.other k) ++ [.inDriver k])
    | .askKilled => some (d, [.acquire (.proc p), .release (.proc p), .inDriver k])
    | .leave => some (d, [.release (.other k)])
    | _ => none
  | _ => none

/-- What an instruction does to the data, and the code it leads to. -/
def Instr.expand (myproc : Option Slot) (ch : Choice) (d : Mem) (i : Instr) :
    Option (Mem × List Instr) :=
  match i.expandAny myproc ch d with
  | some r => some r
  | none => myproc.bind fun p => i.expandProc p ch d

end Xv6Mlfq
