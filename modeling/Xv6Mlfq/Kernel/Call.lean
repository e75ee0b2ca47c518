import Xv6Mlfq.Kernel.Thread

/-!
# Xv6Mlfq.Kernel.Call — calls in a run of the machine

A call of a thread lasts from the state in which its first instruction is on top of the stack to the state in
which the stack is what stood behind it; other threads, and interrupts of the thread itself, act in between.

* `made t x`: the instruction that thread `t` executes in step `x` of a run, if it acts in this step.
* `InCall t k rest m0 h m`: thread `t` has been in the call of `k` from `m0` to `m`.
* `Good.frame`: in a call, a step is one of the call itself, or the code of the call stays as it is below the
  interrupt handlers on top of it.
* `own t rest x`: the instruction of the call itself in step `x`, as opposed to that of a handler.
-/

namespace Xv6Mlfq

open CInt Function Abs Machine

variable {C : ℕ} {m m' : Machine C} {A : Fin C → Abs} {K : Slot → Option Slot} {c : Fin C} {t : Tid C}
  {i j : Instr} {u k core rest : List Instr} {e : Event C} {ch : Choice} {m0 : Machine C} {h₀ h : List (Machine C × Event C)}

/-- The instruction that thread `t` executes in a step. -/
def made (t : Tid C) (x : Machine C × Event C) : Option Instr :=
  match x.2 with
  | .run c _ => if x.1.tid c = t then (x.1.stack t).head? else none
  | .intr _ _ => none

/-- What the step chooses. -/
def Event.choice : Event C → Choice
  | .run _ ch => ch
  | .intr _ _ => .go

theorem made_of_ne (h : m.tid e.cpu ≠ t) : made t (m, e) = none := by
  cases e with
  | run c ch => exact if_neg h
  | intr c dev => rfl

theorem made_run (hc : m.code c = i :: rest) (ht : m.tid c = t) : made t (m, .run c ch) = some i := by
  rw [code_eq_stack, ht] at hc
  simp only [made, ht, if_true, hc, List.head?_cons]

/-- The instruction executed in a step. -/
def executed (x : Machine C × Event C) : Option Instr :=
  match x.2 with
  | .run c _ => (x.1.code c).head?
  | .intr _ _ => none

theorem executed_run (hc : m.code c = i :: rest) : executed (m, .run c ch) = some i := by
  simp only [executed, hc, List.head?_cons]

theorem exists_of_executed (hx : executed (m, e) = some i) : ∃ c ch rest, e = .run c ch ∧ m.code c = i :: rest := by
  cases e with
  | intr => cases hx
  | run c ch =>
    obtain ⟨rest, hc⟩ := List.head?_eq_some_iff.mp hx
    exact ⟨c, ch, rest, rfl, hc⟩

theorem executed_of_made {x : Machine C × Event C} (hx : made t x = some i) : executed x = some i := by
  obtain ⟨m, e⟩ := x
  cases e with
  | intr => cases hx
  | run c ch =>
    simp only [made] at hx
    split_ifs at hx with ht
    show (m.code c).head? = some i
    rwa [code_eq_stack, ht]

theorem exists_of_made {t : Tid C} (hx : made t (m, e) = some i) :
    ∃ c ch rest, e = .run c ch ∧ m.tid c = t ∧ m.code c = i :: rest := by
  obtain ⟨c, ch, rest, rfl, hc⟩ := exists_of_executed (executed_of_made hx)
  refine ⟨c, ch, rest, rfl, ?_, hc⟩
  by_contra ht
  rw [made_of_ne ht] at hx
  cases hx

/-- **What a step does to the stack of a thread**: nothing, an instruction of the thread, an interrupt of the thread,
or the creation of the process. -/
theorem Good.stack_step (hg : Good m A K) (hs : m.step e = some m') (t : Tid C) :
    m'.stack t = m.stack t ∨
    (∃ c ch i rest, e = .run c ch ∧ m.tid c = t ∧ m.code c = i :: rest ∧ Executes m c ch rest i m') ∨
    (∃ c dev, e = .intr c dev ∧ m.tid c = t ∧ Traps m c dev m') ∨
    ∃ j, t = .proc j ∧ m.mem.state j = .unused ∧ m'.stack t = forkret j := by
  cases e with
  | run c ch =>
    obtain ⟨i, rest, hc, hf⟩ := hg.executes hs
    by_cases ht : m.tid c = t
    · exact .inr (.inl ⟨c, ch, i, rest, rfl, ht, hc, hf⟩)
    cases hf with
    | @allocOk j p pid hp hjp hst hch =>
      by_cases htj : t = .proc j
      · refine .inr (.inr (.inr ⟨j, htj, hst, ?_⟩))
        subst htj
        rw [stack_setCode, if_neg fun he => ht he.symm]
        exact update_self ..
      · refine .inl (stack_setCode_of_ne rfl ?_ ht)
        rw [stack_setProcCode_of_ne htj, stack_setMem]
    | swtch | sched | schedExit =>
      rw [stack_setCpu]
      exact .inl (stack_setCode_of_ne rfl rfl ht)
    | initExiting | exit => exact .inl (stack_setCode_of_ne rfl (by cases t <;> rfl) ht)
    | spin | release | allocFail | any | proc => exact .inl (stack_setCode_of_ne rfl (by simp) ht)
    | _ => exact .inl (stack_setCode_of_ne (thread_setCpu rfl) (by simp) ht)
  | intr c dev =>
    obtain ⟨-, htr⟩ := hg.traps hs
    by_cases ht : m.tid c = t
    · exact .inr (.inr (.inl ⟨c, dev, rfl, ht, htr⟩))
    · cases htr <;> exact .inl (stack_setCode_of_ne (thread_setCpu rfl) (by simp) ht)

/-- The thread is not that of a free slot. -/
def Live (m : Machine C) (t : Tid C) : Prop := ∀ p, t = .proc p → Alive (m.mem.state p)

section

variable (hg : Good m A K) (hs : m.step e = some m')
include hg hs

/-- A step leaves the stacks of the other threads alone. -/
theorem Good.stack_of_ne (hl : Live m t) (ht : m.tid e.cpu ≠ t) :
    m'.stack t = m.stack t := by
  rcases hg.stack_step hs t with heq | ⟨c, ch, i, rest, rfl, ht', -⟩ | ⟨c, dev, rfl, ht', -⟩ | ⟨j, htj, hst, -⟩
  · exact heq
  · exact absurd ht' ht
  · exact absurd ht' ht
  · exact absurd hst (hl j htj).1

/-! ## Locks and CPUs -/

/-- A step leaves the other CPUs alone. -/
theorem Good.cpu_of_ne (hc : e.cpu ≠ c) : m'.cpu c = m.cpu c := by
  cases e with
  | intr c' dev =>
    obtain ⟨-, htr⟩ := hg.traps hs
    have hc' : c ≠ c' := Ne.symm hc
    cases htr <;> rw [setCode_cpu, setCpu_cpu, update_of_ne hc']
  | run c' ch =>
    obtain ⟨i, rest, -, hf⟩ := hg.executes hs
    have hc' : c ≠ c' := Ne.symm hc
    cases hf with
    | swtch | sched | schedExit => rw [setCpu_cpu, update_of_ne hc', setCode_cpu]
    | initExiting => rw [Machine.panic, setCode_cpu]
    | exit => rw [setCode_cpu]
    | spin | release | allocOk | allocFail | any | proc =>
      rw [setCode_cpu]
      rfl
    | dispatch =>
      rw [setCode_cpu, setCpu_cpu, update_of_ne hc']
      rfl
    | _ => rw [setCode_cpu, setCpu_cpu, update_of_ne hc']

theorem Good.tid_of_ne (hc : e.cpu ≠ c) : m'.tid c = m.tid c :=
  tid_congr (congrArg Cpu.thread (hg.cpu_of_ne hs hc))

/-- A lock stays with its holder until the holder releases it. -/
theorem Good.holder_step {l : Lock} (hl : m.holder l = some c) :
    m'.holder l = some c ∨ ∃ ch rest, e = .run c ch ∧ m.code c = .release l :: rest := by
  cases e with
  | intr c' dev =>
    obtain ⟨-, htr⟩ := hg.traps hs
    cases htr <;> exact .inl (by rwa [setCode_holder])
  | run c' ch =>
    obtain ⟨i, rest, hc, hf⟩ := hg.executes hs
    cases hf with
    | @spin l' hfree =>
      have hne : l ≠ l' := by
        rintro rfl
        cases hl.symm.trans hfree
      exact .inl (by rwa [setCode_holder, setHolder_holder, update_of_ne hne])
    | @release l' hown =>
      by_cases he : l = l'
      · subst he
        cases hl.symm.trans hown
        exact .inr ⟨ch, rest, rfl, hc⟩
      · exact .inl (by rwa [setCode_holder, setHolder_holder, update_of_ne he])
    | swtch | sched | schedExit => exact .inl (by rwa [setCpu_holder, setCode_holder])
    | initExiting => exact .inl (by rwa [Machine.panic, setCode_holder])
    | _ => exact .inl (by rwa [setCode_holder])

end

section

variable {l : Lock}

theorem Executes.eq_acquire (hf : Executes m c ch rest (.acquire l) m') :
    m' = (m.setCpu c (pushOff (m.cpu c))).setCode c (.spin l :: rest) := by
  cases hf with
  | acquire => rfl
  | any hx | proc _ hx => cases hx

theorem Executes.eq_spin (hf : Executes m c ch rest (.spin l) m') :
    m.holder l = none ∧ m' = (m.setHolder l (some c)).setCode c rest := by
  cases hf with
  | spin hl => exact ⟨hl, rfl⟩
  | any hx | proc _ hx => cases hx

theorem Executes.eq_release (hf : Executes m c ch rest (.release l) m') :
    m.holder l = some c ∧ m' = (m.setHolder l none).setCode c (.popOff :: rest) := by
  cases hf with
  | release hl => exact ⟨hl, rfl⟩
  | any hx | proc _ hx => cases hx

theorem Executes.eq_popOff (hf : Executes m c ch rest .popOff m') :
    m' = (m.setCpu c (Machine.popOff (m.cpu c))).setCode c rest := by
  cases hf with
  | popOff => rfl
  | any hx | proc _ hx => cases hx

end

/-- What a lock operation leads to. -/
def Instr.lockOp : Instr → Option (List Instr)
  | .acquire l => some [.spin l]
  | .spin _ => some []
  | .release _ => some [.popOff]
  | .popOff => some []
  | _ => none

/-- Lock operations leave the data alone, and the CPU in its thread. -/
theorem Executes.lockOp {k : List Instr} (hf : Executes m c ch rest i m') (hi : i.lockOp = some k)
    (ht : m.tid c = t) : m'.stack t = k ++ rest ∧ m'.mem = m.mem ∧ m'.tid c = t := by
  cases i with
  | acquire l =>
    cases hi
    rw [hf.eq_acquire]
    refine ⟨stack_of_setCode (thread_setCpu rfl) ht, by simp, ?_⟩
    rw [tid_setCode, tid_setCpu (x := pushOff (m.cpu c)) rfl, ht]
  | spin l =>
    cases hi
    rw [hf.eq_spin.2]
    exact ⟨stack_of_setCode rfl ht, by simp, by simpa using ht⟩
  | release l =>
    cases hi
    rw [hf.eq_release.2]
    exact ⟨stack_of_setCode rfl ht, by simp, by simpa using ht⟩
  | popOff =>
    cases hi
    rw [hf.eq_popOff]
    refine ⟨stack_of_setCode (thread_setCpu rfl) ht, by simp, ?_⟩
    rw [tid_setCode, tid_setCpu (x := Machine.popOff (m.cpu c)) rfl, ht]
  | _ => cases hi

/-- The instructions that only touch the CPU, or the process that the scheduler thread has selected. -/
def Instr.cpuOp : Instr → Bool
  | .intrOn | .sret | .intrOff | .setIntena _ | .dispatch _ | .swtch _ | .clearProc => true
  | _ => false

/-- What an instruction puts on the stack in its place. -/
inductive Pushes (m : Machine C) (c : Fin C) (ch : Choice) : Instr → List Instr → Prop
  | lockOp {i : Instr} {k : List Instr} : i.lockOp = some k → Pushes m c ch i k
  | cpuOp {i : Instr} : i.cpuOp = true → Pushes m c ch i []
  | sched {b : Bool} : Pushes m c ch .sched [.setIntena b]
  | initExiting {status : ℤ} : Pushes m c ch (.exit status) [.hang]
  | exit {status : ℤ} : Pushes m c ch (.exit status) (exitCode status)
  | allocOk {j : Slot} {pid : ℤ} : Pushes m c ch (.alloc j pid) (forkTail j)
  | allocFail {j : Slot} {pid : ℤ} : Pushes m c ch (.alloc j pid) [.leafCalls, .release (.proc j)]
  | syscall {call : Call} : ch = .syscall call → Pushes m c ch .user (syscallTrap call)
  | fault {p : Slot} : (m.cpu c).thread = some p → Pushes m c ch .user (faultTrap p)
  | any {i : Instr} {d : Mem} {k : List Instr} : i.expandAny (m.cpu c).proc ch m.mem = some (d, k) → Pushes m c ch i k
  | proc {i : Instr} {d : Mem} {k : List Instr} {p : Slot} : (m.cpu c).thread = some p →
      i.expandProc p ch m.mem = some (d, k) → Pushes m c ch i k

/-- The stack of a thread after one of its instructions.  A thread that has exited has nothing left. -/
theorem Executes.stack (hf : Executes m c ch rest i m') (ht : m.tid c = t) :
    (∃ k, m'.stack t = k ++ rest ∧ Pushes m c ch i k) ∨
      ∃ b, i = .schedExit ∧ m'.stack t = [.setIntena b, .zombieExit] := by
  cases hf with
  | acquire => exact .inl ⟨[_], stack_of_setCode (thread_setCpu rfl) ht, .lockOp rfl⟩
  | popOff => exact .inl ⟨[], stack_of_setCode (thread_setCpu rfl) ht, .lockOp rfl⟩
  | spin => exact .inl ⟨[], stack_of_setCode rfl ht, .lockOp rfl⟩
  | release => exact .inl ⟨[_], stack_of_setCode rfl ht, .lockOp rfl⟩
  | intrOn | sret | intrOff | setIntena | dispatch | clearProc =>
    exact .inl ⟨[], stack_of_setCode (thread_setCpu rfl) ht, .cpuOp rfl⟩
  | swtch =>
    refine .inl ⟨[], ?_, .cpuOp rfl⟩
    rw [stack_setCpu]
    exact stack_of_setCode rfl ht
  | sched =>
    refine .inl ⟨[.setIntena (m.cpu c).intena], ?_, .sched⟩
    rw [stack_setCpu]
    exact stack_of_setCode rfl ht
  | schedExit =>
    refine .inr ⟨(m.cpu c).intena, rfl, ?_⟩
    rw [stack_setCpu]
    exact stack_of_setCode rfl ht
  | initExiting => exact .inl ⟨[.hang], stack_of_setCode rfl ht, .initExiting⟩
  | exit => exact .inl ⟨_, stack_of_setCode rfl ht, .exit⟩
  | allocOk => exact .inl ⟨_, stack_of_setCode rfl ht, .allocOk⟩
  | allocFail => exact .inl ⟨_, stack_of_setCode rfl ht, .allocFail⟩
  | syscall _ hch => exact .inl ⟨_, stack_of_setCode (thread_setCpu rfl) ht, .syscall hch⟩
  | fault hp => exact .inl ⟨_, stack_of_setCode (thread_setCpu rfl) ht, .fault hp⟩
  | any hx => exact .inl ⟨_, stack_of_setCode rfl ht, .any hx⟩
  | proc hp hx => exact .inl ⟨_, stack_of_setCode rfl ht, .proc hp hx⟩

/-! ## Interrupt handlers -/

/-- The instructions of `kerneltrap` and of what it calls. -/
def Instr.inTrap : Instr → Bool
  | .acquire _ | .spin _ | .release _ | .popOff | .sret | .setIntena _ | .sched | .yieldMark | .charge
  | .count | .tick | .wakeupFrom _ _ | .wakeupSlot _ _ | .handler | .inHandler _ | .timerTail => true
  | _ => false

/-- Code of interrupt handlers, down to the return of the outermost one. -/
def Handler (u : List Instr) : Prop := (∀ i ∈ u, i.inTrap = true) ∧ (u = [] ∨ ∃ v, u = v ++ [.sret])

theorem Handler.nil : Handler [] := ⟨by simp, .inl rfl⟩

theorem Handler.append {v : List Instr} (hu : Handler u) (hv : ∀ i ∈ v, i.inTrap = true) (hne : u ≠ []) :
    Handler (v ++ u) := by
  obtain ⟨hall, hnil | ⟨w, rfl⟩⟩ := hu
  · exact absurd hnil hne
  · refine ⟨fun i hi => ?_, .inr ⟨v ++ w, by simp⟩⟩
    rcases List.mem_append.mp hi with hi | hi
    · exact hv i hi
    · exact hall i hi

theorem inTrap_loop {f : Slot → Instr} (hf : ∀ j, (f j).inTrap = true) (j : Slot) :
    ∀ i ∈ loop f j, i.inTrap = true := by
  unfold loop
  split
  · simpa using hf _
  · simp

theorem handler_kerneltrap (c : Fin C) (dev : Dev) : Handler (kerneltrap c dev) := by
  refine ⟨?_, .inr ⟨_, rfl⟩⟩
  cases dev with
  | device => simp [kerneltrap, devintr, Instr.inTrap]
  | timer =>
    unfold kerneltrap devintr
    split_ifs <;> simp [clockintrCode, Instr.inTrap]

/-- An instruction of a handler leads to instructions of the handler. -/
theorem Executes.inTrap (hf : Executes m c ch rest i m') (hi : i.inTrap = true) (ht : m.tid c = t) :
    ∃ x, m'.stack t = x ++ rest ∧ (∀ j ∈ x, j.inTrap = true) ∧ (i = .sret → x = []) := by
  cases hf with
  | acquire => exact ⟨[_], stack_of_setCode (thread_setCpu rfl) ht, by simp [Instr.inTrap], by simp⟩
  | spin => exact ⟨[], stack_of_setCode rfl ht, by simp, by simp⟩
  | release => exact ⟨[_], stack_of_setCode rfl ht, by simp [Instr.inTrap], by simp⟩
  | popOff | sret | setIntena => exact ⟨[], stack_of_setCode (thread_setCpu rfl) ht, by simp, by simp⟩
  | sched =>
    refine ⟨[.setIntena (m.cpu c).intena], ?_, by simp [Instr.inTrap], by simp⟩
    rw [stack_setCpu]
    exact stack_of_setCode rfl ht
  | any hx =>
    cases i <;> simp only [Instr.inTrap, Bool.false_eq_true] at hi <;>
      simp only [Instr.expandAny, reduceCtorEq, Option.some.injEq, Prod.mk.injEq] at hx
    case wakeupFrom chan j =>
      have hloop := inTrap_loop (f := .wakeupFrom chan) (fun _ => rfl) j
      split_ifs at hx <;> cases hx
      · exact ⟨_, stack_of_setCode rfl ht, hloop, by simp⟩
      · refine ⟨_, stack_of_setCode rfl ht, fun i hi => ?_, by simp⟩
        rcases List.mem_append.mp hi with hi | hi
        · simp only [List.mem_cons, List.not_mem_nil, or_false] at hi
          rcases hi with rfl | rfl | rfl <;> rfl
        · exact hloop i hi
    case handler | inHandler =>
      split at hx <;> cases hx <;>
        exact ⟨_, stack_of_setCode rfl ht, by simp [Instr.inTrap], by simp⟩
    case timerTail =>
      split at hx
      · split_ifs at hx <;> cases hx <;>
          exact ⟨_, stack_of_setCode rfl ht, by simp [mlfqCheckTimerCode, yieldCode, Instr.inTrap], by simp⟩
      · cases hx
        exact ⟨_, stack_of_setCode rfl ht, by simp, by simp⟩
    all_goals
      obtain ⟨rfl, rfl⟩ := hx
      exact ⟨[], stack_of_setCode rfl ht, by simp, by simp⟩
  | proc hp hx =>
    cases i <;> simp only [Instr.inTrap, Bool.false_eq_true] at hi <;>
      simp only [Instr.expandProc, reduceCtorEq, Option.some.injEq, Prod.mk.injEq] at hx
    all_goals
      obtain ⟨rfl, rfl⟩ := hx
      exact ⟨[], stack_of_setCode rfl ht, by simp, by simp⟩
  | _ => simp [Instr.inTrap] at hi

/-- A process ends its life in `exit` only. -/
theorem Good.alive_step (hg : Good m A K) (hs : m.step e = some m') {p : Slot} (ha : Alive (m.mem.state p))
    (hne : ∀ status, made (.proc p) (m, e) ≠ some (.exitMark status)) : Alive (m'.mem.state p) := by
  rcases hg.state_step hs p with he | ⟨c, ch, i, rest, rfl, hc, hsh⟩
  · rwa [he]
  generalize m.mem.state p = a at ha hsh
  generalize m'.mem.state p = b at hsh
  cases hsh with
  | exit ht => exact absurd (made_run hc (tid_of_some ht)) (hne _)
  | freeproc => exact absurd rfl ha.2
  | _ => simp [Alive]

theorem Good.live_step (hg : Good m A K) (hs : m.step e = some m') (hl : Live m t)
    (hne : ∀ status, made t (m, e) ≠ some (.exitMark status)) : Live m' t := by
  rintro p rfl
  exact hg.alive_step hs (hl p rfl) hne

theorem Good.frame_code (hg : Good m A K) (hs : m.step e = some m') (hl : Live m t) (hu : Handler u)
    (hst : m.stack t = u ++ i :: core ++ rest) (hi : i ≠ .user) :
    (∃ u', Handler u' ∧ m'.stack t = u' ++ i :: core ++ rest ∧
      ∀ j, made t (m, e) = some j → j.inTrap = true ∧ u ≠ []) ∨
    (u = [] ∧ ∃ c ch, e = .run c ch ∧ m.tid c = t ∧ m.code c = i :: (core ++ rest) ∧
      Executes m c ch (core ++ rest) i m') := by
  by_cases ht : m.tid e.cpu = t
  swap
  · refine .inl ⟨u, hu, ?_, fun j hj => ?_⟩
    · rw [hg.stack_of_ne hs hl ht, hst]
    · rw [made_of_ne ht] at hj
      cases hj
  cases e with
  | run c ch =>
    have ht' : m.tid c = t := ht
    obtain ⟨j, rest', hc, hf⟩ := hg.executes hs
    have hstack : j :: rest' = u ++ i :: core ++ rest := by rw [← hst, ← ht', ← code_eq_stack, hc]
    cases u with
    | nil =>
      obtain ⟨rfl, rfl⟩ := List.cons_eq_cons.mp hstack
      exact .inr ⟨rfl, c, ch, rfl, ht', hc, hf⟩
    | cons j' v =>
      obtain ⟨rfl, rfl⟩ := List.cons_eq_cons.mp hstack
      have hj := hu.1 j List.mem_cons_self
      obtain ⟨x, hx, hall, hsret⟩ := hf.inTrap hj ht'
      refine .inl ⟨x ++ v, ?_, by simpa using hx, fun j' hj' => ?_⟩
      · cases v with
        | nil =>
          -- the handler returns
          obtain ⟨-, hnil | ⟨w, hw⟩⟩ := hu
          · cases hnil
          · have hlast := congrArg List.getLast? hw
            simp only [List.getLast?_singleton, List.getLast?_concat, Option.some.injEq] at hlast
            rw [hsret hlast]
            exact .nil
        | cons k v =>
          refine Handler.append ⟨fun i hi => hu.1 i (List.mem_cons_of_mem _ hi), .inr ?_⟩ hall (by simp)
          obtain ⟨-, hnil | ⟨w, hw⟩⟩ := hu
          · cases hnil
          · cases w with
            | nil => cases hw
            | cons a w => exact ⟨w, (List.cons_eq_cons.mp hw).2⟩
      · rw [made_run hc ht'] at hj'
        cases hj'
        exact ⟨hj, by simp⟩
  | intr c dev =>
    have ht' : m.tid c = t := ht
    obtain ⟨-, htr⟩ := hg.traps hs
    cases htr with
    | @user p rest' hp hc =>
      rw [code_eq_stack, ht', hst] at hc
      cases u with
      | nil => exact absurd (List.cons_eq_cons.mp hc).1 hi
      | cons j v =>
        obtain rfl := (List.cons_eq_cons.mp hc).1
        cases hu.1 _ List.mem_cons_self
    | kernel =>
      refine .inl ⟨kerneltrap c dev ++ u, ?_, ?_, by simp [made]⟩
      · by_cases hne : u = []
        · rw [hne, List.append_nil]
          exact handler_kerneltrap c dev
        · exact hu.append (handler_kerneltrap c dev).1 hne
      · refine (stack_of_setCode (thread_setCpu (x := { m.cpu c with intr := false }) rfl) ht').trans ?_
        rw [code_eq_stack, ht', hst]
        simp

/-- **Frame rule**: a step of a machine in which thread `t` has `i :: core` left of a call is the instruction
`i` of the call, or it leaves the call as it is and at most a handler acts. -/
theorem Good.frame (hg : Good m A K) (hs : m.step e = some m') (hl : Live m t) (hu : Handler u)
    (hst : m.stack t = u ++ i :: core ++ rest) (hi : i ≠ .user) :
    (∃ u', Handler u' ∧ m'.stack t = u' ++ i :: core ++ rest ∧ Live m' t ∧
      ∀ j, made t (m, e) = some j → j.inTrap = true ∧ u ≠ []) ∨
    (u = [] ∧ ∃ c ch, e = .run c ch ∧ m.tid c = t ∧ m.code c = i :: (core ++ rest) ∧
      Executes m c ch (core ++ rest) i m' ∧ ((∀ status, i ≠ .exitMark status) → Live m' t)) := by
  rcases hg.frame_code hs hl hu hst hi with ⟨u', hu', hst', hmade⟩ | ⟨rfl, c, ch, rfl, ht, hc, hf⟩
  · refine .inl ⟨u', hu', hst', hg.live_step hs hl fun status hx => ?_, hmade⟩
    cases (hmade _ hx).1
  · refine .inr ⟨rfl, c, ch, rfl, ht, hc, hf, fun hne => hg.live_step hs hl fun status hx => ?_⟩
    exact hne status (Option.some.inj ((made_run hc ht).symm.trans hx))

/-- A call that has not returned has an instruction left. -/
theorem exists_cons_of_inside (hst : m.stack t = u ++ core ++ rest) (hnil : core = [] → u = [])
    (hlen : rest.length < (m.stack t).length) : ∃ i core', core = i :: core' := by
  refine List.exists_cons_of_ne_nil ?_
  rintro rfl
  simp only [hst, hnil rfl, List.append_nil, List.nil_append, lt_self_iff_false] at hlen

theorem eq_nil_of_returned (hst : m.stack t = u ++ core ++ rest) (hret : m.stack t = rest) : core = [] := by
  have hlen := congrArg List.length (hst.symm.trans hret)
  apply List.eq_nil_of_length_eq_zero
  simp only [List.length_append] at hlen
  omega

/-! ## Calls -/

/-- Thread `t` calls the code `k` in state `m0` and is in this call up to state `m`: what it has left stays longer
than what is left after the call. -/
structure InCall (t : Tid C) (k rest : List Instr) (m0 : Machine C) (h : List (Machine C × Event C))
    (m : Machine C) : Prop where
  live : Live m0 t
  start : m0.stack t = k ++ rest
  path : Lts.Path Machine.step m0 h m
  inside : ∀ x ∈ h, rest.length < (x.1.stack t).length

/-- Instructions of one CPU that leave nothing open. -/
def goOn (n : ℕ) : List (Event 1) := List.replicate n (.run 0 .go)

/-- A run of one CPU up to the first instruction of `initproc` in user space. -/
def initUser : List (Event 1) := goOn 15 ++ [.run 0 .leave, .run 0 .leave] ++ goOn 2

/-- A system call, up to its own code. -/
def trapTo (call : Call) : List (Event 1) := .run 0 (.syscall call) :: goOn 7

/-- What is left after a system call of `initproc`. -/
def afterSyscall : List Instr := .exitIfKilled :: usertrapret

/-- A call of `initproc` in a run of one CPU, found by evaluation: a run `es` to the call, a run `es'` from there. -/
theorem exists_inCall_of_replay (k rest : List Instr)
    (P : List (Machine 1 × Event 1) → Machine 1 → List (Machine 1 × Event 1) → Machine 1 → Prop)
    [∀ h₀ m0 h m, Decidable (P h₀ m0 h m)] (es es' : List (Event 1))
    (hr : ((Lts.replay Machine.step [] (Machine.boot 1) es).any fun x => (Lts.replay Machine.step [] x.2 es').any fun y =>
      decide ((x.2.mem.state initproc = .running ∧ x.2.procCode initproc = k ++ rest ∧
        ∀ z ∈ y.1, rest.length < (z.1.procCode initproc).length) ∧ P x.1 x.2 y.1 y.2)) = true) :
    ∃ h₀ m0 h m, MachineReach 1 h₀ m0 ∧ InCall (.proc initproc) k rest m0 h m ∧ P h₀ m0 h m := by
  obtain ⟨h₀, m0, h, m, hr0, hp, ⟨hst, hstart, hin⟩, hP⟩ := Lts.exists_paths_of_replay
    (fun h₀ m0 h m => (m0.mem.state initproc = .running ∧ m0.procCode initproc = k ++ rest ∧
      ∀ z ∈ h, rest.length < (z.1.procCode initproc).length) ∧ P h₀ m0 h m) es es' hr
  refine ⟨h₀, m0, h, m, hr0, ⟨?_, hstart, hp, hin⟩, hP⟩
  rintro p ⟨⟩
  rw [hst]
  simp [Alive]

/-- An interrupt handler is on top of the call that has `rest` behind it. -/
def Handling (t : Tid C) (rest : List Instr) (m : Machine C) : Prop :=
  .sret ∈ (m.stack t).take ((m.stack t).length - rest.length)

instance (t : Tid C) (rest : List Instr) (m : Machine C) : Decidable (Handling t rest m) :=
  inferInstanceAs (Decidable (_ ∈ _))

/-- The instruction of the call itself in a step, not of a handler. -/
def own (t : Tid C) (rest : List Instr) (x : Machine C × Event C) : Option Instr :=
  if Handling t rest x.1 then none else made t x

theorem handling_iff (hst : m.stack t = u ++ rest) : Handling t rest m ↔ .sret ∈ u := by
  unfold Handling
  rw [hst, List.length_append, Nat.add_sub_cancel, List.take_left]

/-- A step that leaves the call as it is, in the sense of the frame rule, is none of the call itself. -/
theorem own_eq_none (hu : Handler u) (hst : m.stack t = u ++ core ++ rest)
    (hmade : ∀ j, made t (m, e) = some j → j.inTrap = true ∧ u ≠ []) : own t rest (m, e) = none := by
  rw [own]
  split_ifs with hh
  · rfl
  · refine Option.eq_none_iff_forall_ne_some.mpr fun j hj => hh ?_
    obtain ⟨v, rfl⟩ := hu.2.resolve_left (hmade j hj).2
    rw [handling_iff hst]
    simp

theorem own_run (hc : m.code c = i :: (core ++ rest)) (ht : m.tid c = t) (hw : .sret ∉ i :: core) :
    own t rest (m, .run c ch) = some i := by
  rw [own, if_neg, made_run hc ht]
  rw [handling_iff (u := i :: core)]
  · exact hw
  · rw [← ht, ← code_eq_stack, hc]
    rfl

/-- A step in which the call does not change the data. -/
def Keeps (t : Tid C) (rest : List Instr) (x : Machine C × Event C) : Prop :=
  own t rest x ≠ none → ∀ m', x.1.step x.2 = some m' → m'.mem = x.1.mem

/-- **Induction over a call.** -/
theorem InCall.induct {I : List (Machine C × Event C) → Machine C → Prop}
    (hcall : InCall t k rest m0 h m) (hr : MachineReach C h₀ m0)
    (h0 : I [] m0) (hstep : ∀ h m e m' A K, Good m A K → I h m → rest.length < (m.stack t).length →
      m.step e = some m' → I ((m, e) :: h) m') : I h m := by
  obtain ⟨-, -, hp, hin⟩ := hcall
  induction hp with
  | nil => exact h0
  | @snoc h m m' e hp hs ih =>
    obtain ⟨A, K, hg⟩ := MachineReach.good (hr.trans hp)
    exact hstep h m e m' A K hg (ih fun x hx => hin x (List.mem_cons_of_mem _ hx)) (hin _ List.mem_cons_self) hs

/-! ## What is left of a call -/

section Rule

variable {X : Type} {W : Instr → (X → Prop) → X → Prop} {T : List (Machine C × Event C) → X → Prop} {D : X → Prop}

/-- How far a call has come, as a value `x`: `W i Q x` says that a call that has come to `x` may execute `i`, and that `Q`
is so of how far it has come when it gets past it; `T h x` is what the steps `h` of the call have to do with `x`. -/
structure CallRule (t : Tid C) (rest : List Instr) (W : Instr → (X → Prop) → X → Prop)
    (T : List (Machine C × Event C) → X → Prop) : Prop where
  inside {i Q x} : W i Q x → i ≠ .user ∧ i ≠ .sret ∧ i ≠ .schedExit ∧ ∀ status, i ≠ .exitMark status
  next {i Q x} : W i Q x → ∃ y, Q y
  other {h x z} : own t rest z = none → T h x → T (z :: h) x
  push {h' h m c ch i k Q x} : MachineReach C h' m → m.tid c = t → Pushes m c ch i k →
    own t rest (m, .run c ch) = some i → W i Q x → T h x → ∃ y, k.foldr W Q y ∧ T ((m, .run c ch) :: h) y

theorem CallRule.not_mem (R : CallRule t rest W T) {x : X} (hw : core.foldr W D x) : .sret ∉ core := by
  induction core generalizing x with
  | nil => simp
  | cons i core ih =>
    intro hmem
    rcases List.mem_cons.mp hmem with heq | hmem
    · exact (R.inside hw).2.1 heq.symm
    · obtain ⟨y, hy⟩ := R.next hw
      exact ih hy hmem

/-- **A call that has come to some `x`.** -/
theorem CallRule.phase (R : CallRule t rest W T) {x0 : X}
    (hr : MachineReach C h₀ m0) (hcall : InCall t k rest m0 h m)
    (hW : k.foldr W D x0) (hT : T [] x0) :
    Live m t ∧ ∃ u core x, Handler u ∧ (core = [] → u = []) ∧ m.stack t = u ++ core ++ rest ∧ core.foldr W D x ∧ T h x := by
  obtain ⟨hlive, hstart, hp, hin⟩ := hcall
  induction hp with
  | nil => exact ⟨hlive, [], k, x0, .nil, fun _ => rfl, hstart, hW, hT⟩
  | @snoc h m m' e hp hs ih =>
    obtain ⟨hlive, u, core, x, hu, hnil, hst, hw, ht⟩ := ih fun x hx => hin x (List.mem_cons_of_mem _ hx)
    have hlen := hin _ List.mem_cons_self
    have hr' := hr.trans hp
    obtain ⟨A, K, hg⟩ := MachineReach.good hr'
    obtain ⟨i, core, rfl⟩ := exists_cons_of_inside hst hnil hlen
    obtain ⟨huser, -, hsched, hexit⟩ := R.inside hw
    rcases hg.frame hs hlive hu hst huser with
      ⟨u', hu', hst', hlive', hmade⟩ | ⟨rfl, c, ch, rfl, htid, hc, hf, hlive'⟩
    · exact ⟨hlive', u', i :: core, x, hu', by simp, hst', hw, R.other (own_eq_none hu hst hmade) ht⟩
    · obtain ⟨k', hst', hk⟩ := (hf.stack htid).resolve_right fun ⟨b, hi, _⟩ => hsched hi
      obtain ⟨y, hy, hty⟩ := R.push hr' htid hk (own_run hc htid (R.not_mem hw)) hw ht
      refine ⟨hlive' hexit, [], k' ++ core, y, .nil, fun _ => rfl, ?_, ?_, hty⟩
      · simpa using hst'
      · rw [List.foldr_append]
        exact hy

/-- **A call that has returned.** -/
theorem CallRule.returned (R : CallRule t rest W T) {x0 : X}
    (hr : MachineReach C h₀ m0) (hcall : InCall t k rest m0 h m)
    (hW : k.foldr W D x0) (hT : T [] x0) (hret : m.stack t = rest) : ∃ x, D x ∧ T h x := by
  obtain ⟨-, u, core, x, -, -, hst, hw, ht⟩ := R.phase hr hcall hW hT
  obtain rfl := eq_nil_of_returned hst hret
  exact ⟨x, hw, ht⟩

end Rule

end Xv6Mlfq
