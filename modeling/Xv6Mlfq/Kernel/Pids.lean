import Xv6Mlfq.Kernel.Args

/-!
# Xv6Mlfq.Kernel.Pids — pids identify processes

`allocpid` hands out numbers in order, one CPU at a time; `allocproc` then writes the number into the slot it has found,
or frees the slot again and the number is lost.  Until `nextpid` overflows, every number handed out is in one place at
most: in a slot, or on its way from `allocpid` to a slot in the code of one thread (`Pids`).

* `allocations h`: the pids allocated in a run, after that of `userinit`.
* `MachineReach.pids`: the invariant.
* `InCall.setprocpriority`: what a call of `setprocpriority` has done when it returns.
-/

namespace Xv6Mlfq

open CInt Function Abs Machine

variable {C : ℕ} {m m0 m' : Machine C} {A : Fin C → Abs} {K : Slot → Option Slot} {c : Fin C} {t : Tid C}
  {p j : Slot} {i : Instr} {rest k : List Instr} {e : Event C} {ch : Choice}
  {h h₀ : List (Machine C × Event C)} {v : ℤ} {q : Proc}

/-! ## Pids on their way to a slot -/

/-- The pid that an instruction will write into a slot. -/
def Instr.pid? : Instr → Option ℤ
  | .alloc _ pid => some pid
  | _ => none

/-- The pids that some code will write into slots. -/
def handed (k : List Instr) : List ℤ := k.filterMap Instr.pid?

theorem handed_append (k k' : List Instr) : handed (k ++ k') = handed k ++ handed k' := List.filterMap_append

theorem handed_eq_nil (hk : ∀ x ∈ k, x.plain = true) : handed k = [] := by
  refine List.filterMap_eq_nil_iff.mpr fun x hx => ?_
  have hp := hk x hx
  cases x <;> first | rfl | cases hp

/-- Only `allocpid` takes a pid. -/
theorem Pushes.handed (hp : Pushes m c ch i k) (hi : ∀ j, i ≠ .allocpid j) :
    Xv6Mlfq.handed k = [] := by
  refine List.filterMap_eq_nil_iff.mpr fun x hx => ?_
  have hl := (List.forall_iff_forall_mem.mp hp.sources x hx).1
  cases x with
  | alloc j v => exact absurd hl.1 (hi j)
  | _ => rfl

theorem Executes.handed (hf : Executes m c ch rest i m') (ht : m.tid c = t) (hi : ∀ j, i ≠ .allocpid j) :
    (Xv6Mlfq.handed (m'.stack t)).Sublist (Xv6Mlfq.handed rest) := by
  rcases hf.stack ht with ⟨k, hst, hk⟩ | ⟨b, -, hst⟩
  · rw [hst, handed_append, hk.handed hi]
    exact List.Sublist.refl _
  · rw [hst]
    exact List.nil_sublist _

theorem Executes.allocpid_eq (hf : Executes m c ch rest (.allocpid j) m') :
    m' = (m.setMem { m.mem with nextpid := inc m.mem.nextpid }).setCode c
      ([.release .pid, .leafCalls, .alloc j m.mem.nextpid] ++ rest) := by
  cases hf with
  | any hx => cases hx
  | proc _ hx =>
    cases hx
    rfl

theorem Executes.handed_allocpid (hf : Executes m c ch rest (.allocpid j) m') (ht : m.tid c = t) :
    Xv6Mlfq.handed (m'.stack t) = m.mem.nextpid :: Xv6Mlfq.handed rest := by
  have hst : m'.stack t = [.release .pid, .leafCalls, .alloc j m.mem.nextpid] ++ rest := by
    rw [hf.allocpid_eq]
    exact stack_of_setCode rfl ht
  rw [hst]
  rfl

theorem Traps.handed {dev : Dev} (htr : Traps m c dev m') (ht : m.tid c = t) :
    (Xv6Mlfq.handed (m'.stack t)).Sublist (Xv6Mlfq.handed (m.stack t)) := by
  have hst : m.stack t = m.code c := by rw [code_eq_stack, ht]
  cases htr with
  | @user p rest _ hc =>
    have hk := handed_eq_nil (List.forall_iff_forall_mem.mp (plain_intrTrap c p dev))
    rw [stack_of_setCode (thread_setCpu (x := { m.cpu c with intr := false }) rfl) ht, handed_append, hk, hst, hc]
    exact List.Sublist.refl _
  | kernel =>
    have hk := handed_eq_nil fun x hx => plain_of_inTrap ((handler_kerneltrap c dev).1 x hx)
    rw [stack_of_setCode (thread_setCpu (x := { m.cpu c with intr := false }) rfl) ht, handed_append, hk, hst]
    exact List.Sublist.refl _

/-- The pids handed out to a thread, after a step in which it does not call `allocpid`. -/
theorem Good.handed_step (hg : Good m A K) (hs : m.step e = some m')
    (hi : ∀ j, made t (m, e) ≠ some (.allocpid j)) : (handed (m'.stack t)).Sublist (handed (m.stack t)) := by
  rcases hg.stack_step hs t with heq | ⟨c, ch, i, rest, rfl, ht, hc, hf⟩ | ⟨c, dev, rfl, ht, htr⟩ | ⟨j, -, -, hst⟩
  · rw [heq]
  · have hst : m.stack t = i :: rest := by rw [← ht, ← code_eq_stack, hc]
    have hne : ∀ j, i ≠ .allocpid j := by
      rintro j rfl
      exact hi j (made_run hc ht)
    refine (hf.handed ht hne).trans ?_
    rw [hst]
    exact (List.sublist_cons_self i rest).filterMap _
  · exact htr.handed ht
  · rw [hst, handed_eq_nil (List.forall_iff_forall_mem.mp (plain_forkret j))]
    exact List.nil_sublist _

theorem Good.handed_of_ne (hg : Good m A K) (hs : m.step (.run c ch) = some m') (ht : t ≠ m.tid c) :
    (handed (m'.stack t)).Sublist (handed (m.stack t)) := by
  refine hg.handed_step hs fun j hj => ?_
  rw [made_of_ne ht.symm] at hj
  cases hj

/-- Every pid handed out is in one place at most: `place` says in which slot, or in which stack. -/
structure Pids (place : ℤ → Slot ⊕ Tid C) (m : Machine C) : Prop where
  table : ∀ i, m.mem.state i ≠ .unused →
    0 < (m.mem.proc i).pid ∧ (m.mem.proc i).pid < m.mem.nextpid ∧ place (m.mem.proc i).pid = .inl i
  stack : ∀ t, ∀ v ∈ handed (m.stack t), 0 < v ∧ v < m.mem.nextpid ∧ place v = .inr t
  nodup : ∀ t, (handed (m.stack t)).Nodup

variable {place : ℤ → Slot ⊕ Tid C}

theorem pids_boot (C : ℕ) : Pids (fun _ => .inl initproc) (Machine.boot C) := by
  have hnil : ∀ t, handed ((Machine.boot C).stack t) = [] := by
    intro t
    cases t with
    | proc p => exact handed_eq_nil (List.forall_iff_forall_mem.mp (plain_forkret p))
    | sched c => rfl
  refine ⟨fun i hi => ?_, fun t v hv => ?_, fun t => ?_⟩
  · obtain rfl : i = initproc := by
      by_contra hne
      exact hi (congrArg Proc.state (update_of_ne (f := procinit) hne _))
    exact ⟨Int.one_pos, one_lt_two, rfl⟩
  · rw [hnil] at hv
    cases hv
  · rw [hnil]
    exact List.nodup_nil

/-- A write leaves the pid of a process alone, or is the end of its allocation. -/
theorem Writes.pid {d : Mem} {me : Option Slot} (hw : Writes d me ch i j q)
    (hq : q.state ≠ .unused) : (d.state j ≠ .unused ∧ q.pid = (d.proc j).pid) ∨
      d.state j = .unused ∧ ∃ pid, i = .alloc j pid ∧ ch = .alloc .ok ∧ q.pid = pid := by
  cases hw with
  | @alloc p j pid r _ _ hst hch =>
    cases r with
    | ok => exact .inr ⟨hst, pid, rfl, hch, rfl⟩
    | noMemory | noCopy => exact absurd rfl hq
  | freeproc => exact absurd rfl hq
  | boost => exact .inl ⟨by simpa using hq, (Proc.links_priorityBoost _).pid⟩
  | wakeup =>
    refine .inl ⟨fun he => hq ?_, (Proc.links_wakeup _ _).pid⟩
    rcases Proc.wakeup_state (d.proc j) _ with hst | ⟨hst, -⟩
    · exact hst.trans he
    · cases he.symm.trans hst
  | kill =>
    refine .inl ⟨fun he => hq ?_, (Proc.links_kill _ _).pid⟩
    rcases Proc.kill_state (d.proc j) _ with hst | ⟨hst, -⟩
    · exact hst.trans he
    · cases he.symm.trans hst
  | setprocpriority => exact .inl ⟨by simpa using hq, (Proc.links_setprocpriority _ _ _).pid⟩
  | yield _ hst => exact .inl ⟨ne_of_eq_of_ne hst (by decide), (Proc.links_yield _).pid⟩
  | dispatch _ hst | sleep _ hst | exit _ hst | setParent _ hst | setRunnable _ hst =>
    exact .inl ⟨ne_of_eq_of_ne hst (by decide), rfl⟩
  | tidy | charge | setkilled | reparent => exact .inl ⟨by simpa using hq, rfl⟩

/-- The pids in the table, after a step. -/
theorem Good.pid_step (hg : Good m A K) (hs : m.step e = some m') (hj : m'.mem.state j ≠ .unused) :
    (m.mem.state j ≠ .unused ∧ (m'.mem.proc j).pid = (m.mem.proc j).pid) ∨
      m.mem.state j = .unused ∧
        ∃ c rest pid, e = .run c (.alloc .ok) ∧ m.code c = .alloc j pid :: rest ∧ (m'.mem.proc j).pid = pid := by
  rcases hg.slot_step hs j with heq | ⟨c, ch, i, rest, q, rfl, hc, hw, heq⟩ <;> rw [Mem.state, heq] at hj <;> rw [heq]
  · exact .inl ⟨hj, rfl⟩
  · rcases hw.pid hj with hp | ⟨hst, pid, rfl, rfl, hp⟩
    · exact .inl hp
    · exact .inr ⟨hst, c, rest, pid, rfl, hc, hp⟩

/-- Only `allocpid` changes `nextpid`. -/
theorem Executes.nextpid (hf : Executes m c ch rest i m') (hi : ∀ j, i ≠ .allocpid j) :
    m'.mem.nextpid = m.mem.nextpid := by
  cases hf with
  | any hx =>
    rw [setCode_mem, setMem_mem]
    cases i <;> simp only [Instr.expandAny, reduceCtorEq] at hx
    all_goals
      repeat' split at hx
      all_goals cases hx <;> rfl
  | proc _ hx =>
    rw [setCode_mem, setMem_mem]
    cases i <;> simp only [Instr.expandProc, reduceCtorEq] at hx
    case allocpid j => exact absurd rfl (hi j)
    all_goals
      repeat' split at hx
      all_goals cases hx <;> rfl
  | swtch | sched | schedExit => simp
  | _ => exact (congrArg Mem.nextpid (setCode_mem ..)).trans rfl

/-! ## Steps -/

section

variable {j : Slot}

/-- A step that allocates no pid and writes none into a slot. -/
theorem Pids.keep (hp : Pids place m) (hg : Good m A K) (hs : m.step e = some m')
    (hi : ∀ i, executed (m, e) = some i → (∀ j, i ≠ .allocpid j) ∧ ∀ j v, i ≠ .alloc j v) :
    m'.mem.nextpid = m.mem.nextpid ∧ Pids place m' := by
  have hnext : m'.mem.nextpid = m.mem.nextpid := by
    cases e with
    | run c ch =>
      obtain ⟨i, rest, hc, hf⟩ := hg.executes hs
      exact hf.nextpid (hi i (executed_run hc)).1
    | intr c dev =>
      obtain ⟨-, htr⟩ := hg.traps hs
      cases htr <;> exact (congrArg Mem.nextpid (setCode_mem ..)).trans rfl
  have hsub : ∀ t, (handed (m'.stack t)).Sublist (handed (m.stack t)) := by
    refine fun t => hg.handed_step hs fun j hj => ?_
    exact (hi _ (executed_of_made hj)).1 j rfl
  refine ⟨hnext, fun j hj => ?_, fun t v hv => ?_, fun t => (hp.nodup t).sublist (hsub t)⟩
  · rcases hg.pid_step hs hj with ⟨hst, hpid⟩ | ⟨-, c, rest, pid, rfl, hc, -⟩
    · rw [hpid, hnext]
      exact hp.table j hst
    · exact absurd rfl ((hi _ (executed_run hc)).2 j pid)
  · rw [hnext]
    exact hp.stack t v ((hsub t).subset hv)

/-- `allocpid` takes `nextpid`, which is in no slot and in no stack. -/
theorem Pids.allocpid (hp : Pids place m) (hg : Good m A K) (hc : m.code c = .allocpid j :: rest)
    (hs : m.step (.run c ch) = some m') (hn : m.mem.nextpid < intMax) (hpos : 0 < m.mem.nextpid) :
    m'.mem.nextpid = m.mem.nextpid + 1 ∧ Pids (update place m.mem.nextpid (.inr (m.tid c))) m' := by
  have hf := hg.executes_of_code hc hs
  have heq := hf.allocpid_eq
  have hnext : m'.mem.nextpid = m.mem.nextpid + 1 := by
    rw [heq, setCode_mem]
    exact inc_of_lt hn
  have hown : handed (m'.stack (m.tid c)) = m.mem.nextpid :: handed (m.stack (m.tid c)) := by
    rw [hf.handed_allocpid rfl, ← code_eq_stack, hc]
    rfl
  have hother := fun t (ht : t ≠ m.tid c) => hg.handed_of_ne hs ht
  have hold : ∀ v, v < m.mem.nextpid → update place m.mem.nextpid (.inr (m.tid c)) v = place v :=
    fun v hv => update_of_ne hv.ne _ _
  refine ⟨hnext, fun q hq => ?_, fun t v hv => ?_, fun t => ?_⟩
  · have hmem : m'.mem.proc = m.mem.proc := by rw [heq, setCode_mem]; rfl
    rw [Mem.state, hmem] at hq
    obtain ⟨h0, hlt, hpl⟩ := hp.table q hq
    rw [hmem, hnext, hold _ hlt]
    exact ⟨h0, by omega, hpl⟩
  · rw [hnext]
    by_cases ht : t = m.tid c
    · subst ht
      rw [hown] at hv
      rcases List.mem_cons.mp hv with rfl | hv
      · exact ⟨hpos, by omega, update_self ..⟩
      · obtain ⟨h0, hlt, hpl⟩ := hp.stack _ v hv
        exact ⟨h0, by omega, (hold v hlt).trans hpl⟩
    · obtain ⟨h0, hlt, hpl⟩ := hp.stack t v ((hother t ht).subset hv)
      exact ⟨h0, by omega, (hold v hlt).trans hpl⟩
  · by_cases ht : t = m.tid c
    · subst ht
      rw [hown]
      exact List.nodup_cons.mpr ⟨fun hv => absurd (hp.stack _ _ hv).2.1 (lt_irrefl _), hp.nodup _⟩
    · exact (hp.nodup t).sublist (hother t ht)

/-- The end of `allocproc` writes the pid into its slot; if it fails the pid is lost. -/
theorem Pids.alloc {pid : ℤ} (hp : Pids place m) (hg : Good m A K) (hc : m.code c = .alloc j pid :: rest)
    (hs : m.step (.run c ch) = some m') :
    m'.mem.nextpid = m.mem.nextpid ∧ Pids (if ch = .alloc .ok then update place pid (.inl j) else place) m' := by
  have hf := hg.executes_of_code hc hs
  have hnext : m'.mem.nextpid = m.mem.nextpid := hf.nextpid (by simp)
  have hst : handed (m.stack (m.tid c)) = pid :: handed rest := by
    rw [← code_eq_stack, hc]
    rfl
  have hown : (handed (m'.stack (m.tid c))).Sublist (handed rest) := hf.handed rfl (by simp)
  have hother := fun t (ht : t ≠ m.tid c) => hg.handed_of_ne hs ht
  obtain ⟨h0, hlt, hpl⟩ := hp.stack (m.tid c) pid (by rw [hst]; exact List.mem_cons_self)
  -- the pid is nowhere else
  have hold : ∀ v, v ≠ pid → (if ch = .alloc .ok then update place pid (.inl j) else place) v = place v := by
    intro v hv
    split_ifs
    · exact update_of_ne hv _ _
    · rfl
  refine ⟨hnext, fun q hq => ?_, fun t v hv => ?_, fun t => ?_⟩
  · rw [hnext]
    rcases hg.pid_step hs hq with ⟨hq', hpid⟩ | ⟨-, c', rest', pid', he, hc', hpid⟩
    · obtain ⟨h0', hlt', hpl'⟩ := hp.table q hq'
      have hne : (m.mem.proc q).pid ≠ pid := by
        intro heq
        rw [heq, hpl] at hpl'
        cases hpl'
      rw [hpid, hold _ hne]
      exact ⟨h0', hlt', hpl'⟩
    · cases he
      cases hc.symm.trans hc'
      rw [hpid, if_pos rfl, update_self]
      exact ⟨h0, hlt, rfl⟩
  · rw [hnext]
    have hv' : v ∈ handed (m.stack t) ∧ v ≠ pid := by
      by_cases ht : t = m.tid c
      · subst ht
        have hnd := hp.nodup (m.tid c)
        rw [hst] at hnd ⊢
        refine ⟨List.mem_cons_of_mem _ (hown.subset hv), ?_⟩
        rintro rfl
        exact (List.nodup_cons.mp hnd).1 (hown.subset hv)
      · refine ⟨(hother t ht).subset hv, ?_⟩
        rintro rfl
        have hpl' := (hp.stack t v ((hother t ht).subset hv)).2.2
        exact ht (Sum.inr.inj (hpl'.symm.trans hpl))
    rw [hold v hv'.2]
    exact hp.stack t v hv'.1
  · by_cases ht : t = m.tid c
    · subst ht
      have hnd := hp.nodup (m.tid c)
      rw [hst] at hnd
      exact (List.nodup_cons.mp hnd).2.sublist hown
    · exact (hp.nodup t).sublist (hother t ht)

end

/-! ## Runs -/

/-- An allocation of a pid. -/
def isAllocpid (x : Machine C × Event C) : Bool :=
  match executed x with
  | some (.allocpid _) => true
  | _ => false

theorem isAllocpid_iff {x : Machine C × Event C} : isAllocpid x = true ↔ ∃ j, executed x = some (.allocpid j) := by
  unfold isAllocpid
  split
  next j hj => simp [hj]
  next hne =>
    simp only [Bool.false_eq_true, false_iff, not_exists]
    exact hne

/-- The pids allocated in a run, after that of `userinit`. -/
def allocations (h : List (Machine C × Event C)) : ℕ := h.countP isAllocpid

/-- **Pids are unique until `nextpid` overflows.** -/
theorem MachineReach.pids (hr : MachineReach C h m) (hn : allocations h + 1 < 2 ^ 31 - 1) :
    m.mem.nextpid = allocations h + 2 ∧ ∃ place, Pids place m := by
  induction hr with
  | nil => exact ⟨rfl, _, pids_boot C⟩
  | @snoc h m m' e hr hs ih =>
    obtain ⟨A, K, hg⟩ := MachineReach.good hr
    by_cases hx : isAllocpid (m, e) = true
    · have hcount : allocations ((m, e) :: h) = allocations h + 1 := List.countP_cons_of_pos hx
      obtain ⟨hnext, place, hp⟩ := ih (by omega)
      obtain ⟨j, hj⟩ := isAllocpid_iff.mp hx
      obtain ⟨c, ch, rest, rfl, hc⟩ := exists_of_executed hj
      obtain ⟨hnext', hp'⟩ := hp.allocpid hg hc hs (by simp only [intMax]; omega) (by omega)
      exact ⟨by rw [hnext', hnext, hcount]; omega, _, hp'⟩
    · have hcount : allocations ((m, e) :: h) = allocations h := List.countP_cons_of_neg hx
      rw [hcount] at hn ⊢
      obtain ⟨hnext, place, hp⟩ := ih hn
      by_cases ha : ∃ j pid, executed (m, e) = some (.alloc j pid)
      · obtain ⟨j, pid, ha⟩ := ha
        obtain ⟨c, ch, rest, rfl, hc⟩ := exists_of_executed ha
        obtain ⟨hnext', hp'⟩ := hp.alloc hg hc hs
        exact ⟨hnext'.trans hnext, _, hp'⟩
      · obtain ⟨hnext', hp'⟩ := hp.keep hg hs fun i hi => ⟨fun j hj => hx (isAllocpid_iff.mpr ⟨j, hj ▸ hi⟩),
          fun j pid hj => ha ⟨j, pid, hj ▸ hi⟩⟩
        exact ⟨hnext'.trans hnext, _, hp'⟩

/-- A process keeps its pid. -/
theorem pid_eq_of_path (hr : MachineReach C h₀ m0) (hp : Lts.Path Machine.step m0 h m)
    (hj : ∀ x ∈ h, x.1.mem.state j ≠ .unused) (hm : m.mem.state j ≠ .unused) :
    (m.mem.proc j).pid = (m0.mem.proc j).pid := by
  induction hp with
  | nil => rfl
  | @snoc h m m' e hp hs ih =>
    obtain ⟨A, K, hg⟩ := MachineReach.good (hr.trans hp)
    have hm' : m.mem.state j ≠ .unused := hj _ List.mem_cons_self
    rcases hg.pid_step hs hm with ⟨-, hpid⟩ | ⟨hst, -⟩
    · exact hpid.trans (ih (fun x hx => hj x (List.mem_cons_of_mem _ hx)) hm')
    · exact absurd hst hm'

theorem Pids.unique (hp : Pids place m) {i : Slot} (hi : m.mem.state i ≠ .unused) (hj : m.mem.state j ≠ .unused)
    (heq : (m.mem.proc i).pid = (m.mem.proc j).pid) : i = j := by
  have hpi := (hp.table i hi).2.2
  rw [heq, (hp.table j hj).2.2] at hpi
  exact (Sum.inl.inj hpi).symm

/-- The process in slot `j` has pid `v`. -/
def Present (v : ℤ) (j : Slot) (m : Machine C) : Prop := m.mem.state j ≠ .unused ∧ (m.mem.proc j).pid = v

instance (v : ℤ) (j : Slot) (m : Machine C) : Decidable (Present v j m) := inferInstanceAs (Decidable (_ ∧ _))

/-- A process that stays keeps its pid. -/
theorem present_of_stay (hr : MachineReach C h₀ m0) (hp : Lts.Path Machine.step m0 h m)
    (hpres : Present v j m0) (hj : ∀ x ∈ h, x.1.mem.state j ≠ .unused) : ∀ x ∈ h, Present v j x.1 := by
  intro x hx
  obtain ⟨h1, h₂, y, rfl, hp1, -⟩ := hp.split hx
  have hst := hj x hx
  exact ⟨hst, (pid_eq_of_path hr hp1 (fun z hz => hj z (by simp [hz])) hst).trans hpres.2⟩

/-- Pid `v` has been handed out and is nowhere. -/
structure Gone (v : ℤ) (m : Machine C) : Prop where
  lt : v < m.mem.nextpid
  table : ∀ i, ¬ Present v i m
  stack : ∀ t, v ∉ handed (m.stack t)

/-- A pid does not come back. -/
theorem Gone.step (hgone : Gone v m) (hg : Good m A K) (hs : m.step e = some m')
    (hn : m.mem.nextpid ≤ m'.mem.nextpid) : Gone v m' := by
  refine ⟨hgone.lt.trans_le hn, ?_, fun t hv => ?_⟩
  · rintro i ⟨hi, hv⟩
    rcases hg.pid_step hs hi with ⟨hst, hpid⟩ | ⟨-, c, rest, pid, rfl, hc, hpid⟩
    · exact hgone.table i ⟨hst, hpid.symm.trans hv⟩
    · refine hgone.stack (m.tid c) ?_
      rw [← code_eq_stack, hc, ← hv, hpid]
      exact List.mem_cons_self
  · by_cases hm : ∃ j, made t (m, e) = some (.allocpid j)
    · obtain ⟨j, hm⟩ := hm
      obtain ⟨c, ch, rest, rfl, hc⟩ := exists_of_executed (executed_of_made hm)
      have ht : m.tid c = t := by
        by_contra hne
        cases (made_of_ne (e := .run c ch) hne).symm.trans hm
      rw [(hg.executes_of_code hc hs).handed_allocpid ht] at hv
      rcases List.mem_cons.mp hv with rfl | hv
      · exact lt_irrefl _ hgone.lt
      · refine hgone.stack t ?_
        rw [← ht, ← code_eq_stack, hc]
        exact hv
    · exact hgone.stack t ((hg.handed_step hs fun j hj => hm ⟨j, hj⟩).subset hv)

/-- A pid in a slot stays there until the slot is freed. -/
theorem Present.step (hp : Present v j m) (hP : Pids place m) (hg : Good m A K) (hs : m.step e = some m')
    (hn : m.mem.nextpid ≤ m'.mem.nextpid) : Present v j m' ∨ Gone v m' := by
  obtain ⟨hst, hv⟩ := hp
  obtain ⟨-, hlt, hpl⟩ := hP.table j hst
  rw [hv] at hlt hpl
  by_cases hst' : m'.mem.state j = .unused
  swap
  · rcases hg.pid_step hs hst' with ⟨-, hpid⟩ | ⟨he, -⟩
    · exact .inl ⟨hst', hpid.trans hv⟩
    · exact absurd he hst
  obtain ⟨c, ch, rest, rfl, hc⟩ := hg.free_step hs hst hst'
  refine .inr ⟨hlt.trans_le hn, ?_, fun t ht => ?_⟩
  · rintro i ⟨hi, hvi⟩
    rcases hg.pid_step hs hi with ⟨hi', hpid⟩ | ⟨-, c', rest', pid, he, hc', -⟩
    · obtain rfl := hP.unique hi' hst ((hpid.symm.trans hvi).trans hv.symm)
      exact hi hst'
    · cases he
      cases hc.symm.trans hc'
  · have hsub : (handed (m'.stack t)).Sublist (handed (m.stack t)) := by
      refine hg.handed_step hs fun j hj => ?_
      cases (executed_run hc).symm.trans (executed_of_made hj)
    have hpl' := (hP.stack t v (hsub.subset ht)).2.2
    cases hpl.symm.trans hpl'

/-- **A pid that has left its slot names no process.** -/
theorem present_or_gone (hr : MachineReach C h₀ m0) (hp : Lts.Path Machine.step m0 h m)
    (hn : allocations (h ++ h₀) + 1 < 2 ^ 31 - 1) (hj : Present v j m0) : Present v j m ∨ Gone v m := by
  induction hp with
  | nil => exact .inl hj
  | @snoc h m m' e hp hs ih =>
    have hle : allocations (h ++ h₀) ≤ allocations ((m, e) :: h ++ h₀) :=
      List.Sublist.countP_le (List.sublist_cons_self _ _)
    have hr' : MachineReach C (h ++ h₀) m := hr.trans hp
    obtain ⟨hnext, place, hP⟩ := hr'.pids (by omega)
    obtain ⟨hnext', -⟩ := MachineReach.pids (hr'.snoc hs) hn
    obtain ⟨A, K, hg⟩ := hr'.good
    have hmono : m.mem.nextpid ≤ m'.mem.nextpid := by
      rw [hnext, hnext']
      simp only [List.cons_append] at hle ⊢
      omega
    rcases ih (by omega) with hpres | hgone
    · exact hpres.step hP hg hs hmono
    · exact .inr (hgone.step hg hs hmono)

/-! ## `setprocpriority` -/

section

variable {pid priority : ℤ}

theorem setprocprioritySearch (C : ℕ) (pid priority : ℤ) :
    Search C (.setpriorityFrom pid priority) (.setprioritySlot pid priority) (·.hasPid pid)
      (·.setprocpriority pid priority) where
  head := fun hf => by
    cases hf with
    | any hx => cases hx
    | proc _ hx =>
      cases hx
      rfl
  body := fun {m m' c ch rest j} hf => by
    cases hf with
    | any hx => cases hx
    | proc _ hx =>
      simp only [Instr.expandProc] at hx
      split_ifs at hx ⊢ <;> cases hx <;> rfl
  head_ne := by simp [Instr.inTrap]
  body_ne := by simp [Instr.inTrap]
  returns_head := fun _ _ _ _ => rfl
  returns_body := fun _ _ _ _ => rfl

/-- The invariant of a call of `setprocpriority`: before the test of the argument, in the search, or refused. -/
inductive Setting (p : Slot) (pid priority : ℤ) (rest : List Instr) (h : List (Machine C × Event C))
    (m : Machine C) : Prop
  | test {u : List Instr} : Live m (.proc p) → Handler u →
      m.stack (.proc p) = u ++ [.setpriority pid priority] ++ rest → Unfound p rest [] h →
      Setting p pid priority rest h m
  | search : 0 ≤ priority → priority ≤ 2 → Searching p (.setpriorityFrom pid priority) (.setprioritySlot pid priority)
      (·.hasPid pid) (·.setprocpriority pid priority) rest h m → Setting p pid priority rest h m
  | refused : priority < 0 ∨ priority > 2 → m.stack (.proc p) = rest → Unfound p rest [-1] h →
      Setting p pid priority rest h m

/-- **A step in a call of `setprocpriority`.** -/
theorem Setting.step (hset : Setting p pid priority rest h m) (hg : Good m A K)
    (hlen : rest.length < (m.stack (.proc p)).length) (hs : m.step e = some m') :
    Setting p pid priority rest ((m, e) :: h) m' := by
  cases hset with
  | search h0 h2 hsr => exact .search h0 h2 (hsr.step (setprocprioritySearch C pid priority) hg hlen hs)
  | refused _ hst => exact absurd hlen (by rw [hst]; exact lt_irrefl _)
  | test hlive hu hst hn =>
    rcases hg.frame_proc hs hlive hu hst (by simp) with
      ⟨u', hu', hst', hlive', hkeep, hret⟩ | ⟨rfl, c, ch, rfl, ht, hc, hf, hlive'⟩
    · exact .test hlive' hu' hst' (hn.quiet hkeep hret)
    · have hlive' := hlive' (by simp)
      have hret : returns p (m, .run c ch) = if priority < 0 ∨ priority > 2 then some (-1) else none :=
        returns_run hc ht
      have hx : m' = m.setCode c (if priority < 0 ∨ priority > 2 then rest
          else .setpriorityFrom pid priority 0 :: rest) := by
        cases hf with
        | any hx => cases hx
        | proc _ hx =>
          simp only [Instr.expandProc] at hx
          split_ifs at hx ⊢ <;> cases hx <;> rfl
      have hkeep : Keeps (.proc p) rest (m, .run c ch) := keeps_of_mem_eq hs (by rw [hx, setCode_mem])
      have hst' := congrArg (fun m => m.stack (.proc p)) hx
      rw [stack_of_setCode rfl ht] at hst'
      by_cases hbad : priority < 0 ∨ priority > 2
      · rw [if_pos hbad] at hret hst'
        exact .refused hbad hst' (by simpa [hret] using hn.cons hkeep)
      · rw [if_neg hbad] at hret hst'
        refine .search (by omega) (by omega) ⟨hlive', [], [.setpriorityFrom pid priority 0], .nil, by simp, hst', ?_⟩
        exact .looking .head (by simp) (hn.quiet hkeep hret)

/-- **What a call of `setprocpriority` has done when it returns.** -/
theorem InCall.setprocpriority (hr : MachineReach C h₀ m0)
    (hcall : InCall (.proc p) [.setpriority pid priority] rest m0 h m) (hret : m.stack (.proc p) = rest) :
    0 ≤ priority ∧ priority ≤ 2 ∧ ((∃ j, Found p rest (·.hasPid pid) (·.setprocpriority pid priority) j h) ∨
      (∀ j, Missed (·.hasPid pid) h j) ∧ Unfound p rest [-1] h) ∨
    (priority < 0 ∨ priority > 2) ∧ Unfound p rest [-1] h := by
  have hinv : Setting p pid priority rest h m := by
    refine hcall.induct hr ?_ fun h m e m' A K hg hI hlen hs => hI.step hg hlen hs
    exact .test hcall.live .nil hcall.start ⟨by simp, rfl⟩
  cases hinv with
  | test _ _ hst =>
    rw [hret] at hst
    have hlen := congrArg List.length hst
    simp only [List.length_append, List.length_singleton] at hlen
    omega
  | search h0 h2 hsr => exact .inl ⟨h0, h2, hsr.returned hret⟩
  | refused hbad _ hn => exact .inr ⟨hbad, hn⟩

/-- What `setprocpriority(pid, priority)` is for, over the steps `h` of one call by process `p` from state `m0` on. -/
structure PriorityCall (p : Slot) (pid priority : ℤ) (rest : List Instr) (m0 : Machine C)
    (h : List (Machine C × Event C)) : Prop where
  value : returned p h = [0] ∨ returned p h = [-1]
  /-- One step of the call writes the two fields of the one process with that pid; the others change nothing. -/
  success : returned p h = [0] → 0 ≤ priority ∧ priority ≤ 2 ∧
    ∃ h1 h₂ x m' j, h = h₂ ++ x :: h1 ∧ own (.proc p) rest x ≠ none ∧ x.1.step x.2 = some m' ∧
      (∀ i, Present pid i x.1 ↔ i = j) ∧
      m'.mem = x.1.mem.setProc j { x.1.mem.proc j with priority := priority, ticksUsed := 0 } ∧
      ∀ y ∈ h₂ ++ h1, Keeps (.proc p) rest y
  failure : returned p h = [-1] → ∀ x ∈ h, Keeps (.proc p) rest x
  present : ∀ j, Present pid j m0 → (∀ x ∈ h, x.1.mem.state j ≠ .unused) → 0 ≤ priority → priority ≤ 2 →
    returned p h = [0]

theorem hasPid_iff : q.hasPid pid = true ↔ q.pid = pid ∧ q.state ≠ .unused := by
  simp [Proc.hasPid]

theorem InCall.priorityCall (hr : MachineReach C h₀ m0) (hn : allocations (h ++ h₀) + 1 < 2 ^ 31 - 1)
    (hcall : InCall (.proc p) [.setpriority pid priority] rest m0 h m) (hret : m.stack (.proc p) = rest) :
    PriorityCall p pid priority rest m0 h := by
  have hspec := hcall.setprocpriority hr hret
  refine ⟨?_, fun hv => ?_, fun hv => ?_, fun j hpres hj h0 h2 => ?_⟩
  · rcases hspec with ⟨-, -, ⟨j, hf⟩ | ⟨-, hu⟩⟩ | ⟨-, hu⟩
    · exact .inl hf.value
    · exact .inr hu.value
    · exact .inr hu.value
  · rcases hspec with ⟨h0, h2, ⟨j, hf⟩ | ⟨-, hu⟩⟩ | ⟨-, hu⟩
    · obtain ⟨h1, h₂, x, m', rfl, hown, hs, hhit, hmem, hkeep⟩ := hf.update
      refine ⟨h0, h2, h1, h₂, x, m', j, rfl, hown, hs, fun i => ?_, ?_, hkeep⟩
      · -- the pids in the table are distinct at this step
        have hpath : MachineReach C (h1 ++ h₀) x.1 := hr.trans hcall.path.cut.1
        have hle : allocations (h1 ++ h₀) ≤ allocations (h₂ ++ x :: h1 ++ h₀) :=
          List.Sublist.countP_le (by simp)
        obtain ⟨-, place, hp⟩ := hpath.pids (by omega)
        obtain ⟨hpid, hst⟩ := hasPid_iff.mp hhit
        constructor
        · rintro ⟨hi, hpi⟩
          exact hp.unique hi hst (hpi.trans hpid.symm)
        · rintro rfl
          exact ⟨hst, hpid⟩
      · rw [hmem, Proc.setprocpriority, if_pos hhit]
    · cases hv.symm.trans hu.value
    · cases hv.symm.trans hu.value
  · rcases hspec with ⟨-, -, ⟨j, hf⟩ | ⟨-, hu⟩⟩ | ⟨-, hu⟩
    · cases hv.symm.trans hf.value
    · exact hu.keeps
    · exact hu.keeps
  · rcases hspec with ⟨-, -, ⟨j, hf⟩ | ⟨hm, -⟩⟩ | ⟨hbad, -⟩
    · exact hf.value
    · obtain ⟨x, hx, hmiss⟩ := hm j
      obtain ⟨hst, hpid⟩ := present_of_stay hr hcall.path hpres hj x hx
      cases hmiss.symm.trans (hasPid_iff.mpr ⟨hpid, hst⟩)
    · omega

end

/-- **Pids identify processes**, and `setprocpriority` changes the process it names and no other. -/
theorem pids_identify (hr : MachineReach C h m) (hn : allocations h + 1 < 2 ^ 31 - 1) :
    (∀ i, m.mem.state i ≠ .unused → 0 < (m.mem.proc i).pid ∧ (m.mem.proc i).pid < m.mem.nextpid ∧
      ∀ j, m.mem.state j ≠ .unused → (m.mem.proc j).pid = (m.mem.proc i).pid → j = i) ∧
    ∀ p pid priority rest m0 h1 h₀, h = h1 ++ h₀ → MachineReach C h₀ m0 →
      InCall (.proc p) [.setpriority pid priority] rest m0 h1 m → m.stack (.proc p) = rest →
      PriorityCall p pid priority rest m0 h1 := by
  refine ⟨fun i hi => ?_, ?_⟩
  · obtain ⟨-, place, hp⟩ := hr.pids hn
    obtain ⟨h0, hlt, -⟩ := hp.table i hi
    exact ⟨h0, hlt, fun j hj heq => hp.unique hj hi heq⟩
  · rintro p pid priority rest m0 h1 h₀ rfl hr0 hcall hret
    exact hcall.priorityCall hr0 hn hret

/-- `initproc` gives itself the lowest priority. -/
theorem pids_identify_init : ∃ (h₀ : List (Machine 1 × Event 1)) (m0 : Machine 1) (h : List (Machine 1 × Event 1))
    (m : Machine 1), MachineReach 1 h₀ m0 ∧ InCall (.proc initproc) [.setpriority 1 2] afterSyscall m0 h m ∧
      m.stack (.proc initproc) = afterSyscall ∧ 0 < (m.mem.proc initproc).pid ∧
      PriorityCall initproc 1 2 afterSyscall m0 h ∧ returned initproc h = [0] := by
  obtain ⟨h₀, m0, h, m, hr0, hcall, hret, hn, hst, hpres, hstay⟩ := exists_inCall_of_replay [.setpriority 1 2]
    afterSyscall
    (fun h₀ m0 h m => m.stack (.proc initproc) = afterSyscall ∧ allocations (h ++ h₀) + 1 < 2 ^ 31 - 1 ∧
      m.mem.state initproc ≠ .unused ∧ Present 1 initproc m0 ∧ ∀ x ∈ h, x.1.mem.state initproc ≠ .unused)
    (initUser ++ trapTo (.setpriority 1 2)) (goOn 7) (by decide +kernel)
  obtain ⟨htable, hcalls⟩ := pids_identify (hr0.trans hcall.path) hn
  have hspec := hcalls initproc 1 2 afterSyscall m0 h h₀ rfl hr0 hcall hret
  exact ⟨h₀, m0, h, m, hr0, hcall, hret, (htable initproc hst).1, hspec,
    hspec.present initproc hpres hstay (by decide) (by decide)⟩

end Xv6Mlfq
