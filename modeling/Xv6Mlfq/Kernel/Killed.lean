import Xv6Mlfq.Kernel.Pids

/-!
# Xv6Mlfq.Kernel.Killed — `kill` and the killed flag

`kill` looks for its pid in every slot, whatever the state of the slot, and a free slot has pid 0.  So `kill(0)` finds a
free slot, sets its flag and returns 0; `allocproc` does not clear the flag, and the next process in this slot is born
killed (`kill_zero_hits_free_slot`).

When no process calls `kill(0)`, free slots keep pid 0 and a clear flag (`Wiped`), and

* `InCall.kill`: a call of `kill` changes the process it names, or nothing;
* `MachineReach.killed`: a process whose flag is set was the target of `kill` or `setkilled` since its allocation.
-/

namespace Xv6Mlfq

open CInt Function Abs Machine

variable {C : ℕ} {m m0 m' : Machine C} {A : Fin C → Abs} {K : Slot → Option Slot} {c : Fin C} {t : Tid C}
  {p j : Slot} {i : Instr} {rest : List Instr} {e : Event C} {ch : Choice}
  {h h₀ : List (Machine C × Event C)} {pid : ℤ} {d : Mem} {me : Option Slot} {q : Proc}

/-! ## The process that a CPU executes -/

theorem thread_of_setCpu {m1 : Machine C} {c' : Fin C} {x : Cpu} {k : List Instr} (hm : m1.cpu = m.cpu)
    (hx : x.thread = (m.cpu c').thread) : (((m1.setCpu c' x).setCode c' k).cpu c).thread = (m.cpu c).thread := by
  rw [setCode_cpu, setCpu_cpu, hm, update_apply]
  split_ifs with he
  · rw [hx, he]
  · rfl

/-- A CPU comes to execute the thread of a process by `swtch`. -/
theorem Good.thread_step (hg : Good m A K) (hs : m.step e = some m') (ht : (m'.cpu c).thread = some p) :
    (m.cpu c).thread = some p ∨ m.mem.state p = .running := by
  cases e with
  | intr c' dev =>
    obtain ⟨-, htr⟩ := hg.traps hs
    cases htr
    all_goals
      rw [thread_of_setCpu (m := m)] at ht
      · exact .inl ht
      · rfl
      · rfl
  | run c' ch =>
    obtain ⟨i, rest, hc, hf⟩ := hg.executes hs
    cases hf with
    | @swtch j _ hst =>
      by_cases he : c = c'
      · subst he
        rw [setCpu_cpu, update_self] at ht
        cases ht
        exact .inr hst
      · rw [setCpu_cpu, update_of_ne he, setCode_cpu] at ht
        exact .inl ht
    | sched | schedExit =>
      by_cases he : c = c'
      · subst he
        rw [setCpu_cpu, update_self] at ht
        cases ht
      · rw [setCpu_cpu, update_of_ne he, setCode_cpu] at ht
        exact .inl ht
    | initExiting =>
      rw [Machine.panic, setCode_cpu] at ht
      exact .inl ht
    | spin | release | exit | allocOk | allocFail | any | proc =>
      rw [setCode_cpu] at ht
      exact .inl ht
    | _ =>
      rw [thread_of_setCpu (m := m)] at ht
      · exact .inl ht
      · rfl
      · rfl

/-- **A CPU executes no thread of a free slot.** -/
theorem MachineReach.thread_used (hr : MachineReach C h m) (ht : (m.cpu c).thread = some p) :
    m.mem.state p ≠ .unused := by
  induction hr generalizing c p with
  | nil => cases ht
  | @snoc h m m' e hr hs ih =>
    obtain ⟨A, K, hg⟩ := MachineReach.good hr
    intro hst'
    rcases hg.thread_step hs ht with ht' | hrun
    · obtain ⟨c', ch, rest, rfl, hc⟩ := hg.free_step hs (ih ht') hst'
      obtain ⟨-, hA, hne⟩ := hg.needs hc rfl
      have hz : m.mem.state p = .zombie := ((hg.owned.fits c').know (p, .is .zombie) (by simp [hA])).2
      exact hg.no_thread (by simp [hA]) (ne_of_eq_of_ne hz (by decide)) hne c ht'
    · obtain ⟨c', ch, rest, rfl, hc⟩ := hg.free_step hs (ne_of_eq_of_ne hrun (by decide)) hst'
      obtain ⟨-, hA, -⟩ := hg.needs hc rfl
      have hz : m.mem.state p = .zombie := ((hg.owned.fits c').know (p, .is .zombie) (by simp [hA])).2
      cases hrun.symm.trans hz

/-! ## Free slots -/

/-- No step of the run is a call of `kill(0)`. -/
def NoKillZero (h : List (Machine C × Event C)) : Prop := ∀ x ∈ h, x.2.choice ≠ .syscall (.kill 0)

instance (h : List (Machine C × Event C)) : Decidable (NoKillZero h) := inferInstanceAs (Decidable (∀ x ∈ h, _))

/-- The instructions of `kill(0)`. -/
def Instr.killsZero : Instr → Bool
  | .killFrom pid _ | .killSlot pid _ => pid = 0
  | _ => false

theorem plain_of_killsZero (hi : i.killsZero = true) : i.plain = false := by
  cases i <;> first | rfl | cases hi

theorem killsZero_of_leads {x : Instr} (hl : Leads m ch i x) (hx : x.killsZero = true)
    (hch : ch ≠ .syscall (.kill 0)) : i.killsZero = true := by
  cases x with
  | killFrom pid j =>
    obtain rfl : pid = 0 := by simpa [Instr.killsZero] using hx
    rcases hl with ⟨j', rfl⟩ | he
    · rfl
    · exact absurd he hch
  | killSlot pid j =>
    cases hl
    exact hx
  | _ => cases hx

/-- No thread is in `kill(0)`. -/
theorem MachineReach.not_killsZero (hr : MachineReach C h m) (hk : NoKillZero h) (t : Tid C) :
    ∀ x ∈ m.stack t, x.killsZero = false := by
  induction hr generalizing t with
  | nil =>
    intro x hx
    refine Bool.eq_false_iff.mpr fun hz => ?_
    cases t with
    | proc p =>
      cases (plain_of_killsZero hz).symm.trans (List.forall_iff_forall_mem.mp (plain_forkret p) x hx)
    | sched c =>
      obtain rfl : x = .scheduler := List.mem_singleton.mp hx
      cases hz
  | @snoc h m m' e hr hs ih =>
    obtain ⟨A, K, hg⟩ := MachineReach.good hr
    have ih' := ih fun x hx => hk x (List.mem_cons_of_mem _ hx)
    intro x hx
    refine Bool.eq_false_iff.mpr fun hz => ?_
    have hp := plain_of_killsZero hz
    by_cases ht : m.tid e.cpu = t
    swap
    · cases hz.symm.trans (ih' t x (hg.mem_stack_of_ne hs ht hx hp))
    cases e with
    | intr c dev => cases hz.symm.trans (ih' t x ((hg.traps hs).2.mem_stack ht hx hp))
    | run c ch =>
      obtain ⟨i, rest, hc, hf⟩ := hg.executes hs
      have hst : m.stack t = i :: rest := by rw [← hc, code_eq_stack]; exact congrArg _ ht.symm
      rcases hf.mem_stack ht hx hp with hx | hl
      · cases hz.symm.trans (ih' t x (by rw [hst]; exact List.mem_cons_of_mem _ hx))
      · have hi := killsZero_of_leads hl hz (hk (m, .run c ch) List.mem_cons_self)
        cases hi.symm.trans (ih' t i (by rw [hst]; exact List.mem_cons_self))

/-- Free slots have pid 0 and a clear flag. -/
def Wiped (m : Machine C) : Prop :=
  ∀ i, m.mem.state i = .unused → (m.mem.proc i).pid = 0 ∧ (m.mem.proc i).killed = 0

/-- `kill` with another argument than 0 hits no free slot. -/
theorem Wiped.used_of_kill (hw : Wiped m) (hr : MachineReach C h m) (hk : NoKillZero h)
    (hc : m.code c = .killSlot (m.mem.proc j).pid j :: rest) : m.mem.state j ≠ .unused := by
  intro hst
  have hz : (Instr.killSlot (m.mem.proc j).pid j).killsZero = true := by simp [Instr.killsZero, (hw j hst).1]
  have hmem : Instr.killSlot (m.mem.proc j).pid j ∈ m.stack (m.tid c) := by
    rw [← code_eq_stack, hc]
    exact List.mem_cons_self
  cases hz.symm.trans (hr.not_killsZero hk _ _ hmem)

/-- A write to a free slot leaves its pid and its flag alone, or clears them, or is `kill(0)`. -/
theorem Writes.wiped (hw : Writes d me ch i j q)
    (hq : q.state = .unused) (hme : ∀ p, me = some p → d.state p ≠ .unused) :
    (q.pid = 0 ∧ q.killed = 0) ∨ d.state j = .unused ∧
      ((q.pid = (d.proc j).pid ∧ q.killed = (d.proc j).killed) ∨ i = .killSlot (d.proc j).pid j) := by
  cases hw with
  | freeproc => exact .inl ⟨rfl, rfl⟩
  | @alloc p j pid r =>
    cases r with
    | ok => cases hq
    | noMemory | noCopy => exact .inl ⟨rfl, rfl⟩
  | boost =>
    refine .inr ⟨by simpa using hq, .inl ⟨(Proc.links_priorityBoost _).pid, ?_⟩⟩
    unfold Proc.priorityBoost
    split_ifs <;> rfl
  | wakeup =>
    rcases Proc.wakeup_state (d.proc j) _ with he | ⟨-, he⟩
    · refine .inr ⟨he.symm.trans hq, .inl ⟨(Proc.links_wakeup _ _).pid, ?_⟩⟩
      unfold Proc.wakeup
      split_ifs <;> rfl
    · cases he.symm.trans hq
  | kill hpid =>
    rcases Proc.kill_state (d.proc j) _ with he | ⟨-, he⟩
    · exact .inr ⟨he.symm.trans hq, .inr (by rw [hpid])⟩
    · cases he.symm.trans hq
  | setprocpriority hpid =>
    refine .inr ⟨by simpa using hq, .inl ⟨(Proc.links_setprocpriority _ _ _).pid, ?_⟩⟩
    rw [Proc.setprocpriority, if_pos hpid]
  | dispatch | yield | sleep | exit | setRunnable => cases hq
  | tidy ht | charge ht | setkilled ht => exact absurd (by simpa using hq) (hme _ ht)
  | reparent => exact .inr ⟨by simpa using hq, .inl ⟨rfl, rfl⟩⟩
  | setParent _ hst => cases hst.symm.trans (by simpa using hq)

theorem MachineReach.wiped (hr : MachineReach C h m) (hk : NoKillZero h) : Wiped m := by
  induction hr with
  | nil =>
    intro i hi
    obtain hne : i ≠ initproc := by
      rintro rfl
      cases hi
    have heq : (Machine.boot C).mem.proc i = procinit i := update_of_ne (f := procinit) hne _
    rw [heq]
    exact ⟨rfl, rfl⟩
  | @snoc h m m' e hr hs ih =>
    obtain ⟨A, K, hg⟩ := MachineReach.good hr
    have hk' : NoKillZero h := fun x hx => hk x (List.mem_cons_of_mem _ hx)
    intro j hj
    rcases hg.slot_step hs j with heq | ⟨c, ch, i, rest, q, rfl, hc, hw, heq⟩ <;> rw [Mem.state, heq] at hj <;> rw [heq]
    · exact ih hk' j hj
    rcases hw.wiped hj fun p ht => MachineReach.thread_used hr ht with hwiped | ⟨hst, ⟨hpid, hkilled⟩ | rfl⟩
    · exact hwiped
    · rw [hpid, hkilled]
      exact ih hk' j hst
    · exact absurd hst ((ih hk').used_of_kill hr hk' hc)

/-! ## The flag -/

/-- The step `x` sets the flag of process `j`: `kill(pid)` at its slot, or its own `setkilled`. -/
def Kills (x : Machine C × Event C) (j : Slot) (pid : ℤ) : Prop :=
  executed x = some (.killSlot pid j) ∨ made (.proc j) x = some .setkilled

instance (x : Machine C × Event C) (j : Slot) (pid : ℤ) : Decidable (Kills x j pid) :=
  inferInstanceAs (Decidable (_ ∨ _))

/-- What sets the flag of a process. -/
theorem Writes.killed (hw : Writes d me ch i j q)
    (hq : q.killed ≠ 0) : q.killed = (d.proc j).killed ∨ i = .killSlot (d.proc j).pid j ∨
      i = .setkilled ∧ me = some j := by
  cases hw with
  | freeproc => exact absurd rfl hq
  | @alloc p j pid r =>
    cases r with
    | ok => exact .inl rfl
    | noMemory | noCopy => exact absurd rfl hq
  | boost =>
    refine .inl ?_
    unfold Proc.priorityBoost
    split_ifs <;> rfl
  | yield =>
    refine .inl ?_
    unfold Proc.yield Proc.demote
    split_ifs <;> rfl
  | wakeup =>
    refine .inl ?_
    unfold Proc.wakeup
    split_ifs <;> rfl
  | kill hpid => exact .inr (.inl (by rw [hpid]))
  | setprocpriority hpid =>
    refine .inl ?_
    rw [Proc.setprocpriority, if_pos hpid]
  | setkilled ht => exact .inr (.inr ⟨rfl, ht⟩)
  | _ => exact .inl rfl

/-- **A process whose flag is set was killed since its allocation.** -/
theorem MachineReach.killed (hr : MachineReach C h m) (hk : NoKillZero h)
    (hj : m.mem.state j ≠ .unused) (hf : (m.mem.proc j).killed ≠ 0) :
    ∃ h1 h2 x, h = h2 ++ x :: h1 ∧ Kills x j (m.mem.proc j).pid ∧ ∀ y ∈ h2 ++ [x], y.1.mem.state j ≠ .unused := by
  induction hr with
  | nil =>
    obtain rfl : j = initproc := by
      by_contra hne
      exact hj (congrArg Proc.state (update_of_ne (f := procinit) hne _))
    exact absurd rfl hf
  | @snoc h m m' e hr hs ih =>
    obtain ⟨A, K, hg⟩ := MachineReach.good hr
    have hk' : NoKillZero h := fun x hx => hk x (List.mem_cons_of_mem _ hx)
    -- the flag of a process is clear when it is allocated
    have hold : (m'.mem.proc j).killed = (m.mem.proc j).killed → ∃ h1 h2 x, (m, e) :: h = h2 ++ x :: h1 ∧
        Kills x j (m'.mem.proc j).pid ∧ ∀ y ∈ h2 ++ [x], y.1.mem.state j ≠ .unused := by
      intro heq
      rw [heq] at hf
      have hst : m.mem.state j ≠ .unused := fun he => hf (MachineReach.wiped hr hk' j he).2
      rcases hg.pid_step hs hj with ⟨-, hpid⟩ | ⟨hst', -⟩
      · obtain ⟨h1, h2, x, rfl, hx, hlive⟩ := ih hk' hst hf
        refine ⟨h1, (m, e) :: h2, x, rfl, by rwa [hpid], fun y hy => ?_⟩
        rcases List.mem_cons.mp hy with rfl | hy
        · exact hst
        · exact hlive y hy
      · exact absurd hst' hst
    rcases hg.slot_step hs j with heq | ⟨c, ch, i, rest, q, rfl, hc, hw, hq⟩
    · exact hold (by rw [heq])
    rw [hq] at hf
    rcases hw.killed hf with hsame | hkill
    · exact hold (by rw [hq, hsame])
    have hst : m.mem.state j ≠ .unused := by
      rcases hkill with rfl | ⟨-, ht⟩
      · exact (MachineReach.wiped hr hk').used_of_kill hr hk' hc
      · exact MachineReach.thread_used hr ht
    refine ⟨h, [], _, rfl, ?_, by simpa using hst⟩
    rcases hg.pid_step hs hj with ⟨-, hpid⟩ | ⟨hst', -⟩
    · rw [hpid]
      rcases hkill with rfl | ⟨rfl, ht⟩
      · exact .inl (executed_run hc)
      · exact .inr (made_run hc (tid_of_some ht))
    · exact absurd hst' hst

/-- `initproc` calls `kill(0)`, which returns 0 though no process has pid 0, and then `fork`: the child, with pid 2, is born
killed, and nothing was ever done to kill it. -/
theorem kill_zero_hits_free_slot : ∃ h m, MachineReach 1 h m ∧ (∀ x ∈ h, ∀ j, ¬ Present 0 j x.1) ∧
    (∃ x ∈ h, x.2 = .run 0 (.syscall (.kill 0))) ∧ returned initproc h = [0] ∧
    Present 2 1 m ∧ (m.mem.proc 1).killed ≠ 0 ∧ ∀ x ∈ h, ¬ Kills x 1 2 :=
  exists_machineReach_of_replay
    (fun h m => (∀ x ∈ h, ∀ j, ¬ Present 0 j x.1) ∧ (∃ x ∈ h, x.2 = .run 0 (.syscall (.kill 0))) ∧
      returned initproc h = [0] ∧ Present 2 1 m ∧ (m.mem.proc 1).killed ≠ 0 ∧ ∀ x ∈ h, ¬ Kills x 1 2)
    (initUser ++ trapTo (.kill 0) ++ goOn 20 ++ trapTo .fork ++ goOn 15 ++
      [.run 0 .leave, .run 0 (.alloc .ok), .run 0 .leave] ++ goOn 12)
    (by decide +kernel)

/-! ## Calls -/

theorem killSearch (C : ℕ) (pid : ℤ) : Search C (.killFrom pid) (.killSlot pid) (·.pid = pid) (·.kill pid) where
  head := fun hf => by
    cases hf with
    | any hx => cases hx
    | proc _ hx =>
      cases hx
      rfl
  body := fun {m m' c ch rest j} hf => by
    cases hf with
    | any hx => cases hx
    | proc _ hx =>
      simp only [Instr.expandProc] at hx
      simp only [decide_eq_true_eq]
      split_ifs at hx ⊢ <;> cases hx <;> rfl
  head_ne := by simp [Instr.inTrap]
  body_ne := by simp [Instr.inTrap]
  returns_head := fun _ _ _ _ => rfl
  returns_body := fun _ _ _ _ => by simp [Instr.returns]

/-- What `kill(pid)` is for, over the steps `h` of one call by process `p` from state `m0` on. -/
structure KillCall (p : Slot) (pid : ℤ) (rest : List Instr) (m0 : Machine C) (h : List (Machine C × Event C)) :
    Prop where
  value : returned p h = [0] ∨ returned p h = [-1]
  /-- One step of the call hits the process with that pid; the others change nothing. -/
  success : returned p h = [0] → ∃ h1 h2 x m' j, h = h2 ++ x :: h1 ∧ own (.proc p) rest x ≠ none ∧
    x.1.step x.2 = some m' ∧ Present pid j x.1 ∧
    m'.mem = x.1.mem.setProc j { x.1.mem.proc j with
      killed := 1, state := if x.1.mem.state j = .sleeping then .runnable else x.1.mem.state j } ∧
    ∀ y ∈ h2 ++ h1, Keeps (.proc p) rest y
  /-- The call changes nothing, and no slot has had a process with that pid throughout. -/
  failure : returned p h = [-1] → (∀ x ∈ h, Keeps (.proc p) rest x) ∧ ∀ j, ∃ x ∈ h, ¬ Present pid j x.1
  present : ∀ j, Present pid j m0 → (∀ x ∈ h, x.1.mem.state j ≠ .unused) → returned p h = [0]

theorem InCall.kill (hr : MachineReach C h₀ m0) (hk : NoKillZero (h ++ h₀))
    (hcall : InCall (.proc p) [.killFrom pid 0] rest m0 h m) (hret : m.stack (.proc p) = rest) :
    KillCall p pid rest m0 h := by
  have hspec := hcall.search (killSearch C pid) hr hret
  -- a slot with this pid is not free: the argument is not 0
  have hne : pid ≠ 0 := by
    rintro rfl
    have hmem : Instr.killFrom 0 0 ∈ m0.stack (.proc p) := by
      rw [hcall.start]
      exact List.mem_cons_self
    cases hr.not_killsZero (fun x hx => hk x (List.mem_append_right _ hx)) _ _ hmem
  have hused : ∀ h1 x j, MachineReach C h1 x → NoKillZero h1 → (x.mem.proc j).pid = pid → Present pid j x := by
    intro h1 x j hr1 hk1 hpid
    exact ⟨fun hst => hne (hpid.symm.trans (hr1.wiped hk1 j hst).1), hpid⟩
  refine ⟨?_, fun hv => ?_, fun hv => ?_, fun j hpres hj => ?_⟩
  · rcases hspec with ⟨j, hf⟩ | ⟨-, hu⟩
    · exact .inl hf.value
    · exact .inr hu.value
  · rcases hspec with ⟨j, hf⟩ | ⟨-, hu⟩
    · obtain ⟨h1, h2, x, m', rfl, hown, hs, hhit, hmem, hkeep⟩ := hf.update
      have hpid : (x.1.mem.proc j).pid = pid := of_decide_eq_true hhit
      refine ⟨h1, h2, x, m', j, rfl, hown, hs, hused _ _ _ (hr.trans hcall.path.cut.1) ?_ hpid, ?_, hkeep⟩
      · exact fun y hy => hk y (by simp only [List.append_assoc, List.cons_append]; simp_all)
      · rw [hmem, Proc.kill, if_pos hpid]
        rfl
    · cases hv.symm.trans hu.value
  · rcases hspec with ⟨j, hf⟩ | ⟨hm, hu⟩
    · cases hv.symm.trans hf.value
    · refine ⟨hu.keeps, fun j => ?_⟩
      obtain ⟨x, hx, hmiss⟩ := hm j
      exact ⟨x, hx, fun hpres => of_decide_eq_false hmiss hpres.2⟩
  · rcases hspec with ⟨j, hf⟩ | ⟨hm, -⟩
    · exact hf.value
    · obtain ⟨x, hx, hmiss⟩ := hm j
      exact absurd (present_of_stay hr hcall.path hpres hj x hx).2 (of_decide_eq_false hmiss)

/-- Until `nextpid` overflows, there is a moment of the call to which its value is the answer. -/
theorem KillCall.instant (hspec : KillCall p pid rest m0 h) (hr : MachineReach C h₀ m0)
    (hp : Lts.Path Machine.step m0 h m) (hn : allocations (h ++ h₀) + 1 < 2 ^ 31 - 1) :
    ∃ x ∈ h, returned p h = [0] ↔ ∃ j, Present pid j x.1 := by
  rcases hspec.value with hv | hv
  · obtain ⟨h1, h2, x, m', j, rfl, -, -, hpres, -⟩ := hspec.success hv
    exact ⟨x, by simp, fun _ => ⟨j, hpres⟩, fun _ => hv⟩
  · have hmiss := (hspec.failure hv).2
    rw [hv]
    by_cases h0 : ∃ j, Present pid j m0
    · -- the process has gone during the call
      obtain ⟨j, hj⟩ := h0
      obtain ⟨⟨x, e⟩, hx, hne⟩ := hmiss j
      obtain ⟨h1, h2, y, rfl, hp1, -⟩ := hp.split hx
      have hle : allocations (h1 ++ h₀) ≤ allocations (h2 ++ (x, e) :: h1 ++ h₀) := List.Sublist.countP_le (by simp)
      have hgone := (present_or_gone hr hp1 (by omega) hj).resolve_left hne
      exact ⟨(x, e), hx, by simpa using hgone.table⟩
    · -- there was none when the call began
      obtain ⟨x, hx, -⟩ := hmiss 0
      obtain ⟨e, he⟩ := hp.first_mem (List.ne_nil_of_mem hx)
      exact ⟨_, he, by simpa using h0⟩

/-- **Kill hits only its target**, when no process calls `kill(0)`. -/
theorem kill_hits_target (hr : MachineReach C h m) (hk : NoKillZero h) :
    (∀ j, m.mem.state j ≠ .unused → (m.mem.proc j).killed ≠ 0 →
      ∃ h1 h2 x, h = h2 ++ x :: h1 ∧ Kills x j (m.mem.proc j).pid ∧ ∀ y ∈ h2 ++ [x], y.1.mem.state j ≠ .unused) ∧
    ∀ p pid rest m0 h1 h₀, h = h1 ++ h₀ → MachineReach C h₀ m0 → InCall (.proc p) [.killFrom pid 0] rest m0 h1 m →
      m.stack (.proc p) = rest → KillCall p pid rest m0 h1 ∧
        (allocations h + 1 < 2 ^ 31 - 1 → ∃ x ∈ h1, returned p h1 = [0] ↔ ∃ j, Present pid j x.1) := by
  refine ⟨fun j hj hf => hr.killed hk hj hf, ?_⟩
  rintro p pid rest m0 h1 h₀ rfl hr0 hcall hret
  have hspec := hcall.kill hr0 hk hret
  exact ⟨hspec, hspec.instant hr0 hcall.path⟩

/-- `initproc` kills itself. -/
theorem kill_hits_target_init : ∃ (h₀ : List (Machine 1 × Event 1)) (m0 : Machine 1) (h : List (Machine 1 × Event 1))
    (m : Machine 1), MachineReach 1 h₀ m0 ∧ InCall (.proc initproc) [.killFrom 1 0] afterSyscall m0 h m ∧
      NoKillZero (h ++ h₀) ∧ (m.mem.proc initproc).killed ≠ 0 ∧ (∃ x ∈ h ++ h₀, Kills x initproc 1) ∧
      KillCall initproc 1 afterSyscall m0 h ∧ returned initproc h = [0] := by
  obtain ⟨h₀, m0, h, m, hr0, hcall, hret, hk, hpres, hf, hpres0, hstay⟩ := exists_inCall_of_replay [.killFrom 1 0] afterSyscall
    (fun h₀ m0 h m => m.stack (.proc initproc) = afterSyscall ∧ NoKillZero (h ++ h₀) ∧ Present 1 initproc m ∧
      (m.mem.proc initproc).killed ≠ 0 ∧ Present 1 initproc m0 ∧ ∀ x ∈ h, x.1.mem.state initproc ≠ .unused)
    (initUser ++ trapTo (.kill 1)) (goOn 6) (by decide +kernel)
  obtain ⟨hflag, hcalls⟩ := kill_hits_target (hr0.trans hcall.path) hk
  obtain ⟨h1, h2, x, heq, hx, -⟩ := hflag initproc hpres.1 hf
  have hspec := (hcalls initproc 1 afterSyscall m0 h h₀ rfl hr0 hcall hret).1
  refine ⟨h₀, m0, h, m, hr0, hcall, hk, hf, ⟨x, ?_, ?_⟩, hspec, hspec.present initproc hpres0 hstay⟩
  · rw [heq]
    simp
  · rwa [hpres.2] at hx

end Xv6Mlfq
