import Xv6Mlfq.Kernel.Safe

/-!
# Xv6Mlfq.Kernel.Thread — one step of one thread

A thread is the scheduler thread of a CPU or the kernel thread of a process, `stack` what it has left to
do.  A step is an instruction of the thread that a CPU executes, or an interrupt.

* `Good.stack_of_ne`: it leaves the other threads alone, apart from a process that it creates.
* `Makes t x i`: in the step `x` of a run, thread `t` executes instruction `i`.
-/

namespace Xv6Mlfq

open CInt Function Abs Machine

/-- Threads. -/
inductive Tid (C : ℕ)
  | proc (p : Slot)
  | sched (c : Fin C)
  deriving DecidableEq, Repr

variable {C : ℕ} {m m' : Machine C} {A : Fin C → Abs} {K : Slot → Option Slot} {c : Fin C} {t : Tid C}
  {i : Instr} {k rest : List Instr} {e : Event C} {ch : Choice} {p j : Slot} {x : Cpu}

/-! ## Stacks -/

namespace Machine

/-- The code a thread has left. -/
def stack (m : Machine C) : Tid C → List Instr
  | .proc p => m.procCode p
  | .sched c => m.schedCode c

/-- The thread that a CPU executes. -/
def tid (m : Machine C) (c : Fin C) : Tid C :=
  match (m.cpu c).thread with
  | some p => .proc p
  | none => .sched c

theorem code_eq_stack : m.code c = m.stack (m.tid c) := by
  unfold code tid
  cases (m.cpu c).thread <;> rfl

theorem tid_of_some (h : (m.cpu c).thread = some p) : m.tid c = .proc p := by
  unfold tid
  rw [h]

theorem tid_of_none (h : (m.cpu c).thread = none) : m.tid c = .sched c := by
  unfold tid
  rw [h]

theorem thread_of_tid (h : m.tid c = .proc p) : (m.cpu c).thread = some p := by
  unfold tid at h
  split at h
  next hq => rw [hq, Tid.proc.inj h]
  next => cases h

theorem tid_congr (h : (m'.cpu c).thread = (m.cpu c).thread) : m'.tid c = m.tid c := by
  unfold tid
  rw [h]

@[simp] theorem tid_setCode (c' : Fin C) : (m.setCode c k).tid c' = m.tid c' := tid_congr (by rw [setCode_cpu])

@[simp] theorem tid_setMem (d : Mem) : (m.setMem d).tid c = m.tid c := rfl

@[simp] theorem tid_setHolder (l : Lock) (o : Option (Fin C)) : (m.setHolder l o).tid c = m.tid c := rfl

theorem stack_setCode (t : Tid C) : (m.setCode c k).stack t = if t = m.tid c then k else m.stack t := by
  cases ht : (m.cpu c).thread with
  | none =>
    rw [setCode_of_none ht, tid_of_none ht]
    cases t with
    | proc p => rfl
    | sched c' =>
      show update m.schedCode c k c' = _
      rw [update_apply]
      simp only [Tid.sched.injEq]
      rfl
  | some p =>
    rw [setCode_of_some ht, tid_of_some ht]
    cases t with
    | sched c' => rfl
    | proc q =>
      show update m.procCode p k q = _
      rw [update_apply]
      simp only [Tid.proc.injEq]
      rfl

/-- The stack of the thread that CPU `c` executes, after a step that leaves it there. -/
theorem stack_of_setCode (hth : (m'.cpu c).thread = (m.cpu c).thread) (ht : m.tid c = t) :
    (m'.setCode c k).stack t = k := by
  rw [stack_setCode, tid_congr hth, if_pos ht.symm]

theorem stack_setCode_of_ne (hth : (m'.cpu c).thread = (m.cpu c).thread) (hst : m'.stack t = m.stack t)
    (h : m.tid c ≠ t) : (m'.setCode c k).stack t = m.stack t := by
  rw [stack_setCode, tid_congr hth, if_neg h.symm, hst]

@[simp] theorem stack_setMem (d : Mem) (t : Tid C) : (m.setMem d).stack t = m.stack t := by cases t <;> rfl

@[simp] theorem stack_setHolder (l : Lock) (o : Option (Fin C)) (t : Tid C) :
    (m.setHolder l o).stack t = m.stack t := by cases t <;> rfl

@[simp] theorem stack_setCpu (c' : Fin C) (x : Cpu) (t : Tid C) : (m.setCpu c' x).stack t = m.stack t := by
  cases t <;> rfl

theorem stack_setProcCode_of_ne (h : t ≠ .proc j) : (m.setProcCode j k).stack t = m.stack t := by
  cases t with
  | sched => rfl
  | proc p => exact update_of_ne (fun he => h (congrArg Tid.proc he)) _ _

theorem thread_setCpu (hx : x.thread = (m.cpu c).thread) :
    ((m.setCpu c x).cpu c).thread = (m.cpu c).thread := by
  rw [setCpu_cpu, update_self, hx]

end Machine

theorem Machine.tid_setCpu (hx : x.thread = (m.cpu c).thread) : (m.setCpu c x).tid c = m.tid c :=
  tid_congr (thread_setCpu hx)

/-- Two CPUs never execute one thread. -/
theorem Owned.tid_inj (h : Owned m A K) {c' : Fin C} (ht : m.tid c' = m.tid c) : c' = c := by
  cases hp : (m.cpu c).thread with
  | some p =>
    rw [tid_of_some hp] at ht
    exact h.thread_inj hp (thread_of_tid ht)
  | none =>
    rw [tid_of_none hp] at ht
    cases hp' : (m.cpu c').thread with
    | some p => cases (tid_of_some hp').symm.trans ht
    | none => exact Tid.sched.inj ((tid_of_none hp').symm.trans ht)

/-- The CPU of a step. -/
def Event.cpu : Event C → Fin C
  | .run c _ => c
  | .intr c _ => c

/-! ## The process table -/

/-- `q` is the process of `p`, with the same parent and the same channel. -/
structure Proc.SameLinks (p q : Proc) : Prop where
  pid : q.pid = p.pid
  parent : q.parent = p.parent
  chan : q.chan = p.chan

namespace Proc

variable (p : Proc)

theorem links_priorityBoost : p.SameLinks p.priorityBoost := by
  unfold priorityBoost
  split_ifs <;> exact ⟨rfl, rfl, rfl⟩

theorem links_yield : p.SameLinks p.yield := by
  unfold yield demote
  split_ifs <;> exact ⟨rfl, rfl, rfl⟩

theorem links_wakeup (chan : Chan) : p.SameLinks (p.wakeup chan) := by
  unfold wakeup
  split_ifs <;> exact ⟨rfl, rfl, rfl⟩

theorem links_kill (pid : ℤ) : p.SameLinks (p.kill pid) := by
  unfold kill
  split_ifs <;> exact ⟨rfl, rfl, rfl⟩

theorem links_setprocpriority (pid priority : ℤ) : p.SameLinks (p.setprocpriority pid priority) := by
  unfold setprocpriority
  split_ifs <;> exact ⟨rfl, rfl, rfl⟩

end Proc

/-- Instruction `i` of thread `me` leaves `q` in slot `j`. -/
inductive Writes (d : Mem) (me : Option Slot) (ch : Choice) : Instr → Slot → Proc → Prop
  | boost {j : Slot} : Writes d me ch (.boostSlot j) j (d.proc j).priorityBoost
  | dispatch {j : Slot} : me = none → d.state j = .runnable → Writes d me ch (.dispatch j) j (d.proc j).dispatch
  | yield {p : Slot} : me = some p → d.state p = .running → Writes d me ch .yieldMark p (d.proc p).yield
  | sleep {p : Slot} {chan : Chan} : me = some p → d.state p = .running →
      Writes d me ch (.sleepMark chan) p ((d.proc p).sleep chan)
  | exit {p : Slot} {status : ℤ} : me = some p → d.state p = .running →
      Writes d me ch (.exitMark status) p ((d.proc p).exit status)
  | tidy {p : Slot} : me = some p → Writes d me ch .tidy p (d.proc p).tidy
  | charge {p : Slot} : me = some p → Writes d me ch .charge p (d.proc p).mlfqCheckTimer
  | setkilled {p : Slot} : me = some p → Writes d me ch .setkilled p (d.proc p).setkilled
  | wakeup {j : Slot} {chan : Chan} : Writes d me ch (.wakeupSlot chan j) j ((d.proc j).wakeup chan)
  | kill {j : Slot} {pid : ℤ} : (d.proc j).pid = pid → Writes d me ch (.killSlot pid j) j ((d.proc j).kill pid)
  | setprocpriority {j : Slot} {pid priority : ℤ} : (d.proc j).hasPid pid = true →
      Writes d me ch (.setprioritySlot pid priority j) j ((d.proc j).setprocpriority pid priority)
  | reparent {p j : Slot} : me = some p → (d.proc j).parent = some p →
      Writes d me ch (.reparentFrom j) j { d.proc j with parent := some initproc }
  | freeproc {j : Slot} : d.state j = .zombie → Writes d me ch (.freeproc j) j (d.proc j).freeproc
  | alloc {p j : Slot} {pid : ℤ} {r : Proc.AllocResult} : me = some p → j ≠ p → d.state j = .unused →
      ch = .alloc r → Writes d me ch (.alloc j pid) j ((d.proc j).alloc r pid)
  | setParent {p j : Slot} : me = some p → d.state j = .used →
      Writes d me ch (.setParent j) j { d.proc j with parent := some p }
  | setRunnable {p j : Slot} : me = some p → d.state j = .used →
      Writes d me ch (.setRunnable j) j { d.proc j with state := .runnable }

/-- How an instruction of thread `me` moves the state of process `j`. -/
inductive Shifts (me : Option Slot) (j : Slot) : Instr → ProcState → ProcState → Prop
  | dispatch : Shifts me j (.dispatch j) .runnable .running
  | yield : Shifts me j .yieldMark .running .runnable
  | sleep {chan : Chan} : Shifts me j (.sleepMark chan) .running .sleeping
  | exit {status : ℤ} : me = some j → Shifts me j (.exitMark status) .running .zombie
  | wakeup {i : Instr} : Shifts me j i .sleeping .runnable
  | freeproc : Shifts me j (.freeproc j) .zombie .unused
  | alloc {pid : ℤ} : Shifts me j (.alloc j pid) .unused .used
  | setRunnable : Shifts me j (.setRunnable j) .used .runnable

theorem Writes.shifts {d : Mem} {me : Option Slot} {q : Proc} (hw : Writes d me ch i j q) :
    q.state = d.state j ∨ Shifts me j i (d.state j) q.state := by
  cases hw with
  | dispatch _ hst => exact .inr (hst ▸ .dispatch)
  | yield _ hst => exact .inr (hst ▸ .yield)
  | sleep _ hst => exact .inr (hst ▸ .sleep)
  | exit ht hst => exact .inr (hst ▸ .exit ht)
  | freeproc hst => exact .inr (hst ▸ .freeproc)
  | setRunnable _ hst => exact .inr (hst ▸ .setRunnable)
  | @alloc p j pid r _ _ hst =>
    cases r with
    | ok => exact .inr (hst ▸ .alloc)
    | noMemory | noCopy => exact .inl hst.symm
  | wakeup => exact (Proc.wakeup_state (d.proc j) _).imp id fun he => by rw [Mem.state, he.1, he.2]; exact .wakeup
  | kill => exact (Proc.kill_state (d.proc j) _).imp id fun he => by rw [Mem.state, he.1, he.2]; exact .wakeup
  | _ => exact .inl (by simp)

/-- A process that knows nothing else of its state is `RUNNING`. -/
theorem Good.running_of_know (hg : Good m A K) (ht : (m.cpu c).thread = some p)
    (hk : (A c).know = none) : m.mem.state p = .running := by
  have hf := hg.owned.fits c
  exact (hf.running p (hf.own p ht)).resolve_right (by simp [hk])

/-- The child of an unfinished `fork`. -/
theorem Good.used_of_kid (hg : Good m A K) (ht : (m.cpu c).thread = some p)
    (hk : (A c).kid = some j) : m.mem.state j = .used := by
  refine hg.owned.children.used p j ?_
  rw [← hk, hg.owned.kid c, ht]
  rfl

theorem proc_setCode {f : Slot → Proc} (hp : m.mem.proc = f) : (m.setCode c k).mem.proc = f := by
  rw [setCode_mem, hp]

/-- **What a step does to the process table.** -/
theorem Good.table_executes (hg : Good m A K) (hc : m.code c = i :: rest) (hf : Executes m c ch rest i m') :
    m'.mem.proc = m.mem.proc ∨
      ∃ j q, Writes m.mem (m.cpu c).thread ch i j q ∧ m'.mem.proc = update m.mem.proc j q := by
  have hfit := hg.owned.fits c
  cases hf with
  | dispatch hme =>
    obtain ⟨-, hA⟩ := hg.needs hc rfl
    exact .inr ⟨_, _, .dispatch hme (hfit.know (_, .is .runnable) (by simp [hA])).2, proc_setCode rfl⟩
  | allocOk ht hjp hst hch | allocFail ht hjp hst hch hr => exact .inr ⟨_, _, .alloc ht hjp hst hch, proc_setCode rfl⟩
  | any hx =>
    cases i <;> simp only [Instr.expandAny, reduceCtorEq] at hx
    case boostSlot j =>
      cases hx
      exact .inr ⟨_, _, .boost, proc_setCode rfl⟩
    case wakeupSlot chan j =>
      cases hx
      exact .inr ⟨_, _, .wakeup, proc_setCode rfl⟩
    all_goals
      repeat' split at hx
      all_goals cases hx <;> exact .inl (proc_setCode rfl)
  | proc ht hx =>
    rw [ht]
    cases i <;> simp only [Instr.expandProc, reduceCtorEq] at hx
    case yieldMark =>
      cases hx
      exact .inr ⟨_, _, .yield rfl (hg.running_of_know ht (hg.at ht hc rfl).2.2), proc_setCode rfl⟩
    case sleepMark chan =>
      cases hx
      exact .inr ⟨_, _, .sleep rfl (hg.running_of_know ht (hg.at ht hc rfl).2.2), proc_setCode rfl⟩
    case exitMark status =>
      cases hx
      have hA := hg.at ht hc rfl
      exact .inr ⟨_, _, .exit rfl (hg.running_of_know ht (by simp [hA])), proc_setCode rfl⟩
    case tidy =>
      cases hx
      exact .inr ⟨_, _, .tidy rfl, proc_setCode rfl⟩
    case charge =>
      cases hx
      exact .inr ⟨_, _, .charge rfl, proc_setCode rfl⟩
    case setkilled =>
      cases hx
      exact .inr ⟨_, _, .setkilled rfl, proc_setCode rfl⟩
    case killSlot pid j =>
      split_ifs at hx with hpid <;> cases hx
      · exact .inr ⟨_, _, .kill hpid, proc_setCode rfl⟩
      · exact .inl (proc_setCode rfl)
    case setprioritySlot pid priority j =>
      split_ifs at hx with hpid <;> cases hx
      · exact .inr ⟨_, _, .setprocpriority hpid, proc_setCode rfl⟩
      · exact .inl (proc_setCode rfl)
    case reparentFrom j =>
      split_ifs at hx with hpar <;> cases hx
      · exact .inr ⟨_, _, .reparent rfl hpar, proc_setCode rfl⟩
      · exact .inl (proc_setCode rfl)
    case freeproc j =>
      cases hx
      obtain ⟨-, hA, -⟩ := hg.at ht hc rfl
      exact .inr ⟨_, _, .freeproc (hfit.know (j, .is .zombie) (by simp [hA])).2, proc_setCode rfl⟩
    case setParent j =>
      cases hx
      exact .inr ⟨_, _, .setParent rfl (hg.used_of_kid ht (hg.at ht hc rfl).2.2), proc_setCode rfl⟩
    case setRunnable j =>
      cases hx
      exact .inr ⟨_, _, .setRunnable rfl (hg.used_of_kid ht (hg.at ht hc rfl).2.2), proc_setCode rfl⟩
    all_goals
      repeat' split at hx
      all_goals cases hx <;> exact .inl (proc_setCode rfl)
  | swtch | sched | schedExit => exact .inl (by simp)
  | _ => exact .inl (proc_setCode rfl)

section

variable (hg : Good m A K) (hs : m.step e = some m')
include hg hs

theorem Good.table_step : m'.mem.proc = m.mem.proc ∨
    ∃ c ch i rest j q, e = .run c ch ∧ m.code c = i :: rest ∧ Writes m.mem (m.cpu c).thread ch i j q ∧
      m'.mem.proc = update m.mem.proc j q := by
  cases e with
  | run c ch =>
    obtain ⟨i, rest, hc, hf⟩ := hg.executes hs
    refine (hg.table_executes hc hf).imp id ?_
    rintro ⟨j, q, hw, hq⟩
    exact ⟨c, ch, i, rest, j, q, rfl, hc, hw, hq⟩
  | intr c dev =>
    obtain ⟨-, ht⟩ := hg.traps hs
    cases ht <;> exact .inl (proc_setCode rfl)

/-- What a step does to one slot. -/
theorem Good.slot_step (j : Slot) : m'.mem.proc j = m.mem.proc j ∨
    ∃ c ch i rest q, e = .run c ch ∧ m.code c = i :: rest ∧ Writes m.mem (m.cpu c).thread ch i j q ∧ m'.mem.proc j = q := by
  rcases hg.table_step hs with heq | ⟨c, ch, i, rest, j', q, he, hc, hw, heq⟩
  · exact .inl (by rw [heq])
  rw [heq]
  rcases eq_or_ne j j' with rfl | hne
  · exact .inr ⟨c, ch, i, rest, q, he, hc, hw, update_self ..⟩
  · exact .inl (update_of_ne hne ..)

theorem Good.state_step (j : Slot) : m'.mem.state j = m.mem.state j ∨
    ∃ c ch i rest, e = .run c ch ∧ m.code c = i :: rest ∧
      Shifts (m.cpu c).thread j i (m.mem.state j) (m'.mem.state j) := by
  rcases hg.slot_step hs j with heq | ⟨c, ch, i, rest, q, he, hc, hw, rfl⟩
  · exact .inl (congrArg Proc.state heq)
  · exact hw.shifts.imp id fun h => ⟨c, ch, i, rest, he, hc, h⟩

/-- A slot becomes free in `freeproc` only, or in a failed `fork` that has just claimed it. -/
theorem Good.free_step (hj : m.mem.state j ≠ .unused)
    (hj' : m'.mem.state j = .unused) : ∃ c ch rest, e = .run c ch ∧ m.code c = .freeproc j :: rest := by
  rcases hg.state_step hs j with he | ⟨c, ch, i, rest, rfl, hc, hsh⟩
  · exact absurd (he.symm.trans hj') hj
  rw [hj'] at hsh
  generalize m.mem.state j = a at hsh
  cases hsh
  exact ⟨c, ch, rest, rfl, hc⟩

end

end Xv6Mlfq
