import Xv6Mlfq.Wf
import Xv6Mlfq.Kernel.Machine

/-!
# Xv6Mlfq.Kernel.Position — which section the code of a thread is in

`Sys` says of a CPU and of a thread which section it is about to make; `Machine` has its code instead.
`Pos` is what `Sys` says of the thread that a CPU executes, and `Instr.wp` relates the two: `i.wp me Q x`
if a thread at `x` may execute `i`, and `Q` is so of where it stands afterwards.  `wp` is the same of
code; code from which a thread does not return (`exit`) asks nothing of what follows it.
-/

namespace Xv6Mlfq

variable {C : ℕ} {x : Pos} {l : Lock} {chan : Chan} {i : Slot}

/-- What a thread has found out and acts on: in `wait`, a process that is a child of its own, for as long
as `wait_lock` is held; in a timer interrupt, that it is on CPU 0. -/
inductive Hand
  | empty | child (j : Slot) | clock
  deriving DecidableEq, Repr

/-- What the process layer says of the thread on a CPU. -/
structure Pos where
  /-- The scheduler thread; `test` for a process. -/
  pc : Pc
  /-- The thread of a process; `normal` for the scheduler thread. -/
  th : Thread
  fk : ForkPc
  /-- Interrupts are enabled, or will be when the last lock is released. -/
  irq : Bool
  hand : Hand

namespace Pos

@[simp] def sched (pc : Pc) (irq : Bool) (hand : Hand) : Pos := ⟨pc, .normal, .idle, irq, hand⟩

@[simp] def proc (th : Thread) (fk : ForkPc) (irq : Bool) (hand : Hand) : Pos := ⟨.test, th, fk, irq, hand⟩

/-- In a system call, outside `fork` and with nothing in hand. -/
@[simp] def Calm (x : Pos) : Prop := x.th = .normal ∧ x.fk = .idle ∧ x.hand = .empty

/-- In the loop of `wait`. -/
@[simp] def InWait (x : Pos) : Prop := x.th = .normal ∧ x.fk = .idle

/-- Where `wakeup` may be called. -/
@[simp] def MayWake (x : Pos) : Prop := x.pc.idle = true ∧ (x.th = .normal ∨ x.th = .trapped)

/-- A lock is released neither between selecting a process and switching to it, nor after the switch
before `sched` has returned; `forkret` begins with its `release`. -/
@[simp] def MayRelease (x : Pos) : Prop :=
  x.pc.idle = true ∧ (x.th.isResuming = true → x.th = .resuming .forkret)

@[simp] def released (x : Pos) (l : Lock) : Pos :=
  { x with
    th := if x.th = .resuming .forkret then .normal else x.th
    hand := if l = .wait then .empty else x.hand }

/-- To release a lock other than `wait_lock` says nothing new of a thread past `sched`. -/
theorem released_eq (hx : x.th.isResuming = false) (hl : l ≠ .wait) :
    x.released l = x := by
  have hth : x.th ≠ .resuming .forkret := by
    intro he
    rw [he] at hx
    cases hx
  simp [hth, hl]

theorem isResuming_of_mayWake (hx : x.MayWake) : x.th.isResuming = false := by
  rcases hx.2 with he | he <;> rw [he] <;> rfl

end Pos

open Pos

/-- A thread at `x` may execute the instruction, and gets to a point of `Q` if it gets past it. -/
@[simp] def Instr.wp (me : Option Slot) (i : Instr) (Q : Pos → Prop) (x : Pos) : Prop :=
  match i with
  | .acquire _ | .spin _ | .popOff | .clearProc => Q x
  | .leafCalls => x.pc.idle = true ∧ x.th.isResuming = false ∧ Q x
  | .release l => x.MayRelease ∧ Q (x.released l)
  | .intrOn | .sret => x.th = .normal ∧ x.hand = .empty ∧ Q { x with irq := true }
  | .intrOff => Q { x with irq := false }
  -- the scheduler thread
  | .scheduler | .boostTest => x.pc = .test ∧ x.th = .normal ∧ x.hand = .empty ∧ Q { x with irq := true }
  | .recordBoost => x.pc = .boostTick ∧ Q { x with pc := .boost 0 }
  | .boostFrom i => x.pc = .boost i ∧ Q { x with pc := .scan 0 0 }
  | .boostSlot i => x.pc = .boost i ∧ Q { x with pc := boostNext i }
  | .scanFrom q i | .scanSlot q i =>
    x.pc = .scan q i ∧ x.th = .normal ∧ x.hand = .empty ∧ Q { x with pc := .test, irq := true }
  | .dispatch i => x.pc = .selected i ∧ Q { x with pc := .run i }
  -- back from the process, whose interrupt state the CPU has
  | .swtch i => x.pc = .run i ∧ x.hand = .empty ∧ ∀ b, Q { x with pc := .test, irq := b }
  -- giving up the CPU
  | .yieldMark => x.th = .counted ∧ Q { x with th := .off .yield }
  | .sleepMark _ => x.Calm ∧ Q { x with th := .off .sleep }
  | .exitMark _ => x.Calm ∧ me ≠ some initproc ∧ Q { x with th := .off .exit }
  | .sched => x.hand = .empty ∧
      (x.th = .off .yield ∧ Q { x with th := .normal } ∨
        x.th = .off .sleep ∧ Q { x with th := .resuming .sleep })
  | .setIntena b => x.th.isResuming = true ∧ x.hand = .empty ∧
      Q { x with irq := b, th := if x.th = .resuming .yield then .normal else x.th }
  | .tidy => x.th = .resuming .sleep ∧ Q { x with th := .normal }
  | .schedExit => x.th = .off .exit ∧ x.hand = .empty
  | .zombieExit => False
  | .hang => True
  -- the timer path
  | .tick =>
    match me with
    | none => x.pc.idle = true ∧ x.hand = .clock ∧ Q { x with hand := .empty }
    | some _ => x.th = .normal ∧ x.irq = false ∧ x.hand = .clock ∧ Q { x with th := .trapped, hand := .empty }
  | .timerTail =>
    match me with
    | none => Q x
    | some _ => x.th = .trapped ∧ x.irq = false ∧ x.hand = .empty ∧ Q { x with th := .normal }
  | .charge => x.th = .trapped ∧ x.irq = false ∧ Q { x with th := .charged }
  | .count => x.th = .charged ∧ x.irq = false ∧ Q { x with th := .counted }
  | .exitIfKilled | .killedTest =>
    (x.th = .normal ∨ x.th = .trapped) ∧ x.fk = .idle ∧ x.hand = .empty ∧ Q x
  -- other processes
  | .wakeupFrom _ _ | .handler | .inHandler _ => x.MayWake ∧ Q x
  | .wakeupSlot _ j => x.MayWake ∧ me ≠ some j ∧ Q x
  | .setpriorityFrom _ priority _ | .setprioritySlot _ priority _ =>
    0 ≤ priority ∧ priority ≤ 2 ∧ x.Calm ∧ Q x
  | .waitFrom _ _ | .waitEnd _ | .waitKilled => x.InWait ∧ Q { x with hand := .empty }
  | .waitSlot j => x.InWait ∧ x.hand = .child j ∧ Q { x with hand := .empty }
  | .freeproc j => x.InWait ∧ x.hand = .child j ∧ Q { x with hand := .empty }
  | .setParent j => x.th = .normal ∧ x.fk = .allocated j ∧ x.hand = .empty ∧ Q { x with fk := .parented j }
  | .setRunnable j => x.th = .normal ∧ x.fk = .parented j ∧ Q { x with fk := .idle }
  -- system calls
  | .killFrom _ _ | .killSlot _ _ | .setpriority _ _ | .setkilled | .reparentFrom _
  | .allocFrom _ | .allocSlot _ | .allocpid _ | .alloc _ _ | .infoFrom _ | .infoNext _ | .getpstat
  | .statFrom _ | .sysSleep _ | .sleepLoop _ _ | .sleepKilled _ _ | .driver | .inDriver _ => x.Calm ∧ Q x
  | .exit _ => x.Calm
  | .wakeParent _ => x.Calm ∧ me ≠ some initproc
  | .user => x.Calm ∧ x.irq = true ∧ Q x

/-- Code. -/
abbrev wp (me : Option Slot) (k : List Instr) (Q : Pos → Prop) : Pos → Prop := k.foldr (Instr.wp me) Q

/-! ## The functions -/

section Code

variable {me : Option Slot} {p j : Slot} {Q : Pos → Prop} {x : Pos} {fk : ForkPc} {irq : Bool}
  {hand : Hand}

theorem wp_append {k k' : List Instr} : wp me (k ++ k') Q x ↔ wp me k (wp me k' Q) x := by
  rw [wp, List.foldr_append]

theorem wp_loop {f : Slot → Instr} (h : ∀ j, (f j).wp me Q x) (hQ : Q x) (i : Slot) :
    wp me (loop f i) Q x := by
  unfold loop
  split
  · exact h _
  · exact hQ

/-- A section of a lock other than `wait_lock`. -/
theorem wp_release (me : Option Slot) (hpc : x.pc.idle = true) (hx : x.th.isResuming = false) (hl : l ≠ .wait)
    (hQ : Q x) : (Instr.release l).wp me Q x := by
  refine ⟨⟨hpc, fun he => ?_⟩, ?_⟩
  · rw [hx] at he
    cases he
  · rwa [released_eq hx hl]

/-- The body of the loop of `wakeup`. -/
theorem wp_wakeupBody (hx : x.MayWake) (hj : me ≠ some j) (hQ : Q x) :
    wp me [.acquire (.proc j), .wakeupSlot chan j, .release (.proc j)] Q x :=
  ⟨hx, hj, wp_release me hx.1 (isResuming_of_mayWake hx) (by simp) hQ⟩

theorem wp_scanNextCode {q : Fin NMLFQ} (hQ : Q (.sched .test true .empty)) :
    wp none (scanNextCode q i) Q (.sched (scanNext q i) irq .empty) := by
  unfold scanNextCode scanNext
  cases nextSlot i with
  | some j => simpa using hQ
  | none => cases nextLevel q <;> simpa using hQ

theorem wp_boostLoop (hQ : Q (.sched (.scan 0 0) irq hand)) :
    wp none (loop .boostFrom i) Q (.sched (boostNext i) irq hand) := by
  unfold loop boostNext
  cases nextSlot i <;> simpa using hQ

theorem wp_yieldCode (hQ : Q (proc .normal fk irq .empty)) :
    wp (some p) (yieldCode p) Q (proc .counted fk irq .empty) := by
  simpa [yieldCode, Pc.idle, Thread.isResuming] using hQ

theorem wp_mlfqCheckTimerCode (hQ : Q (proc .counted fk false .empty)) :
    wp (some p) (mlfqCheckTimerCode p) Q (proc .trapped fk false .empty) := by
  simpa [mlfqCheckTimerCode, Pc.idle, Thread.isResuming] using hQ

/-- The tick of a process, up to its return from `yield`. -/
theorem wp_tick (hQ : Q (proc .normal fk false .empty)) :
    wp (some p) (mlfqCheckTimerCode p ++ yieldCode p) Q (proc .trapped fk false .empty) :=
  wp_append.mpr (wp_mlfqCheckTimerCode (wp_yieldCode hQ))

theorem wp_sleepCode {lk : Lock} (hlk : lk ≠ .wait → hand = .empty)
    (hQ : Q (proc .normal .idle irq .empty)) :
    wp (some p) (sleepCode p chan lk) Q (proc .normal .idle irq hand) := by
  have hm : (if lk = .wait then .empty else hand) = .empty := by
    split_ifs with h
    · rfl
    · exact hlk h
  simpa [sleepCode, Pc.idle, Thread.isResuming, hm] using hQ

theorem wp_usertrapret (hQ : Q (proc .normal .idle true .empty)) :
    wp (some p) usertrapret Q (proc .normal .idle irq .empty) := by
  simpa [usertrapret] using hQ

theorem wp_forkret (hQ : Q (proc .normal .idle true .empty)) :
    wp (some p) (forkret p) Q (proc (.resuming .forkret) .idle irq .empty) := by
  refine wp_append.mpr ?_
  simpa [Pc.idle] using wp_usertrapret hQ

theorem wp_forkTail (hQ : Q (proc .normal .idle irq .empty)) :
    wp (some p) (forkTail j) Q (proc .normal (.allocated j) irq .empty) := by
  simpa [forkTail, Pc.idle, Thread.isResuming] using hQ

theorem wp_exitCode {status : ℤ} (hp : p ≠ initproc) :
    wp (some p) (exitCode status) Q (proc .normal .idle irq .empty) := by
  simpa [exitCode] using hp

theorem wp_syscallTrap (call : Call) (hQ : Q (proc .normal .idle true .empty)) :
    wp (some p) (syscallTrap call) Q (proc .normal .idle false .empty) := by
  refine wp_append.mpr ?_
  have hu : wp (some p) usertrapret Q (proc .normal .idle true .empty) := wp_usertrapret hQ
  cases call with
  | exit status => simp [Call.code]
  | _ => simpa [Call.code, Pc.idle, Thread.isResuming] using hu

theorem wp_faultTrap (hQ : Q (proc .normal .idle true .empty)) :
    wp (some p) (faultTrap p) Q (proc .normal .idle false .empty) := by
  refine wp_append.mpr ?_
  simpa [Pc.idle, Thread.isResuming] using wp_usertrapret (p := p) hQ

/-! Interrupts.  CPU 0 has its tick to count; on another CPU the process is on the timer path at once. -/

/-- Where a process stands that is interrupted by the timer. -/
def ticked {C : ℕ} (c : Fin C) (fk : ForkPc) : Pos :=
  if c.val = 0 then proc .normal fk false .clock else proc .trapped fk false .empty

theorem wp_clockintr (c : Fin C) (hQ : Q (proc .trapped fk false .empty)) :
    wp (some p) (devintr c .timer) Q (ticked c fk) := by
  unfold devintr ticked
  split_ifs
  · simpa [clockintrCode, Pc.idle, Thread.isResuming] using hQ
  · exact hQ

theorem wp_intrTrap (c : Fin C) (dev : Dev) (hQ : Q (proc .normal .idle true .empty)) :
    wp (some p) (intrTrap c p dev) Q
      (match dev with
        | .timer => ticked c .idle
        | .device => proc .normal .idle false .empty) := by
  cases dev with
  | timer =>
    refine wp_append.mpr (wp_append.mpr (wp_append.mpr (wp_clockintr c ?_)))
    exact ⟨.inr rfl, rfl, rfl, wp_tick (wp_usertrapret hQ)⟩
  | device => exact ⟨⟨rfl, .inl rfl⟩, .inl rfl, rfl, rfl, wp_usertrapret (p := p) hQ⟩

theorem wp_kerneltrap (c : Fin C) (dev : Dev) (hQ : Q (proc .normal fk true .empty)) :
    wp (some p) (kerneltrap c dev) Q
      (match dev with
        | .timer => ticked c fk
        | .device => proc .normal fk false .empty) := by
  cases dev with
  | timer =>
    refine wp_append.mpr (wp_append.mpr (wp_clockintr c ?_))
    exact ⟨rfl, rfl, rfl, rfl, rfl, hQ⟩
  | device => exact ⟨⟨rfl, .inl rfl⟩, rfl, rfl, hQ⟩

/-- An interrupt of a scheduler thread. -/
theorem wp_kerneltrap_sched (c : Fin C) (dev : Dev) {pc : Pc} (hpc : pc.idle = true)
    (hQ : Q (.sched pc true .empty)) :
    wp none (kerneltrap c dev) Q
      (.sched pc false (if dev = .timer ∧ c.val = 0 then .clock else .empty)) := by
  cases dev with
  | timer =>
    by_cases h0 : c.val = 0
    · simpa [kerneltrap, devintr, clockintrCode, h0, hpc, Thread.isResuming] using hQ
    · simpa [kerneltrap, devintr, h0] using hQ
  | device => simpa [kerneltrap, devintr, hpc] using hQ

end Code

end Xv6Mlfq
