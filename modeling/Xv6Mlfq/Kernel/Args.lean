import Xv6Mlfq.Kernel.Search

/-!
# Xv6Mlfq.Kernel.Args — arguments on the stacks

Two kinds of instructions carry a pid: those of `kill` the one its caller asks for, and the end of `allocproc` the one
that `allocpid` returned.  `Leads` says where such an instruction comes from; every other instruction is `plain`.
-/

namespace Xv6Mlfq

open CInt Function Abs Machine

variable {C : ℕ} {m m' : Machine C} {A : Fin C → Abs} {K : Slot → Option Slot} {c : Fin C} {t : Tid C}
  {i x : Instr} {rest : List Instr} {e : Event C} {ch : Choice}

@[simp] theorem forall_loop {f : Slot → Instr} {j : Slot} {P : Instr → Prop} :
    (loop f j).Forall P ↔ ∀ k, nextSlot j = some k → P (f k) := by
  unfold loop
  split
  next k hk => simp [hk]
  next hk => simp [hk]

/-- Where the argument of instruction `x` comes from, when instruction `i` puts `x` on the stack. -/
def Leads (m : Machine C) (ch : Choice) (i x : Instr) : Prop :=
  match x with
  | .alloc j pid => i = .allocpid j ∧ pid = m.mem.nextpid
  | .killFrom pid _ => (∃ j, i = .killSlot pid j) ∨ ch = .syscall (.kill pid)
  | .killSlot pid j => i = .killFrom pid j
  | _ => True

/-- The instructions of `wait`, as opposed to those of `acquire`, `sleep` and the like. -/
def Instr.inWait : Instr → Bool
  | .waitFrom _ _ | .waitSlot _ | .waitEnd _ | .waitKilled | .freeproc _ => true
  | _ => false

/-- What an instruction puts on the stack: nothing of `wait` but in the call, and outside of user space no `user`. -/
theorem Pushes.sources {k : List Instr} (hp : Pushes m c ch i k) : k.Forall fun x => Leads m ch i x ∧
    (i.inWait = false → (i = .user → k ≠ syscallTrap .wait) → x.inWait = false ∧ (i ≠ .user → x ≠ .user)) := by
  cases hp with
  | lockOp hk => cases i <;> cases hk <;> simp [Leads, Instr.inWait]
  | @syscall call hch => cases call <;> simp [syscallTrap, Call.code, usertrapret, Leads, Instr.inWait, hch]
  | any hx =>
    cases i <;> simp only [Instr.expandAny, reduceCtorEq] at hx
    case scanSlot q j =>
      split_ifs at hx <;> cases hx
      · simp [Leads, Instr.inWait]
      · unfold scanNextCode
        split <;> [skip; split] <;> simp [Leads, Instr.inWait]
    all_goals
      repeat' split at hx
      all_goals cases hx <;> simp [mlfqCheckTimerCode, yieldCode, Leads, Instr.inWait]
  | proc _ hx =>
    cases i <;> simp only [Instr.expandProc, reduceCtorEq] at hx
    all_goals
      repeat' split at hx
      all_goals cases hx <;> simp [sleepCode, Leads, Instr.inWait]
  | _ => simp [exitCode, forkTail, faultTrap, usertrapret, Leads, Instr.inWait]

/-- The instructions with no such argument. -/
def Instr.plain : Instr → Bool
  | .alloc _ _ | .killFrom _ _ | .killSlot _ _ => false
  | _ => true

theorem plain_of_inTrap (hx : x.inTrap = true) : x.plain = true := by
  cases x <;> first | rfl | cases hx

theorem plain_forkret (p : Slot) : (forkret p).Forall (Instr.plain · = true) := by
  simp [forkret, usertrapret, Instr.plain]

theorem plain_intrTrap (c : Fin C) (p : Slot) (dev : Dev) : (intrTrap c p dev).Forall (Instr.plain · = true) := by
  cases dev with
  | device => simp [intrTrap, devintr, usertrapret, Instr.plain]
  | timer =>
    unfold intrTrap devintr
    split_ifs <;> simp [clockintrCode, mlfqCheckTimerCode, yieldCode, usertrapret, Instr.plain]

/-- Where an instruction with arguments comes from, in the stack of a thread that does not act. -/
theorem Good.mem_stack_of_ne (hg : Good m A K) (hs : m.step e = some m') (ht : m.tid e.cpu ≠ t)
    (hx : x ∈ m'.stack t) (hp : x.plain = false) : x ∈ m.stack t := by
  rcases hg.stack_step hs t with heq | ⟨c, ch, i, rest, rfl, ht', -⟩ | ⟨c, dev, rfl, ht', -⟩ | ⟨j, -, -, hst⟩
  · rwa [heq] at hx
  · exact absurd ht' ht
  · exact absurd ht' ht
  · rw [hst] at hx
    cases hp.symm.trans (List.forall_iff_forall_mem.mp (plain_forkret j) x hx)

/-- In the stack of a thread that is interrupted. -/
theorem Traps.mem_stack {dev : Dev} (htr : Traps m c dev m') (ht : m.tid c = t) (hx : x ∈ m'.stack t)
    (hp : x.plain = false) : x ∈ m.stack t := by
  cases htr with
  | @user p rest hth hc =>
    rw [stack_of_setCode (thread_setCpu (x := { m.cpu c with intr := false }) rfl) ht] at hx
    rcases List.mem_append.mp hx with hx | hx
    · cases hp.symm.trans (List.forall_iff_forall_mem.mp (plain_intrTrap c p dev) x hx)
    · rw [← ht, ← code_eq_stack, hc]
      exact List.mem_cons_of_mem _ hx
  | kernel =>
    rw [stack_of_setCode (thread_setCpu (x := { m.cpu c with intr := false }) rfl) ht] at hx
    rcases List.mem_append.mp hx with hx | hx
    · cases hp.symm.trans (plain_of_inTrap ((handler_kerneltrap c dev).1 x hx))
    · rwa [code_eq_stack, ht] at hx

/-- In the stack of the thread that executes an instruction. -/
theorem Executes.mem_stack (hf : Executes m c ch rest i m') (ht : m.tid c = t) (hx : x ∈ m'.stack t)
    (hp : x.plain = false) : x ∈ rest ∨ Leads m ch i x := by
  rcases hf.stack ht with ⟨k, hst, hk⟩ | ⟨b, -, hst⟩
  · rw [hst] at hx
    exact (List.mem_append.mp hx).symm.imp id fun hx => (List.forall_iff_forall_mem.mp hk.sources x hx).1
  · rw [hst] at hx
    simp only [List.mem_cons, List.not_mem_nil, or_false] at hx
    rcases hx with rfl | rfl <;> cases hp

end Xv6Mlfq
