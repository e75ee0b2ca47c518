import Xv6Mlfq.Kernel.Call

/-!
# Xv6Mlfq.Kernel.Search — the search loops over the process table

`kill` and `setprocpriority` look for a process slot by slot, each slot under its lock, while other CPUs free and
allocate slots.

* `returned p h`: the values that the system calls of process `p` have come to return.
* `Search`: what the two loops have in common.
* `InCall.search`: what a call of such a loop has done when it returns.  Either one of its steps has found a slot that
  passes the test and updated it, and the call returns 0; or every slot has failed the test at one time or another
  during the call, and it returns -1.  It has changed nothing else.
-/

namespace Xv6Mlfq

open CInt Function Abs Machine

variable {C : ℕ} {m m0 m' : Machine C} {A : Fin C → Abs} {K : Slot → Option Slot} {c : Fin C} {p : Slot}
  {i : Instr} {u core rest : List Instr} {e : Event C} {ch : Choice} {h h0 : List (Machine C × Event C)}
  {F B : Slot → Instr} {hit : Proc → Bool} {upd : Proc → Proc}

theorem nextSlot_eq_some {i j : Slot} : nextSlot i = some j ↔ j.val = i.val + 1 := by
  unfold nextSlot
  have hj := j.isLt
  split_ifs with hi
  · rw [Option.some.injEq, Fin.ext_iff]
    exact eq_comm
  · simp only [false_iff]
    omega

theorem nextSlot_eq_none {i : Slot} : nextSlot i = none ↔ ∀ j, j ≤ i := by
  unfold nextSlot
  split_ifs with hi
  · simp only [false_iff, not_forall, not_le]
    exact ⟨⟨i.val + 1, hi⟩, Fin.lt_def.mpr (Nat.lt_succ_self _)⟩
  · simp only [true_iff]
    intro j
    have hj := j.isLt
    exact Fin.le_def.mpr (by omega)

theorem succ_eq_of_nextSlot_none {i : Slot} (hi : nextSlot i = none) : i.val + 1 = NPROC := by
  have hle := nextSlot_eq_none.mp hi ⟨NPROC - 1, by decide⟩
  have hlt := i.isLt
  rw [Fin.le_def] at hle
  simp only at hle
  omega

/-! ## Return values -/

/-- The value that `kill`, `setprocpriority` or `wait` returns to process `p`, at the instruction that decides on it. -/
def Instr.returns (p : Slot) (ch : Choice) (d : Mem) : Instr → Option ℤ
  | .killSlot pid j =>
    if (d.proc j).pid = pid then some 0 else if nextSlot j = none then some (-1) else none
  | .setpriority _ priority => if priority < 0 ∨ priority > 2 then some (-1) else none
  | .setprioritySlot pid _ j =>
    if (d.proc j).hasPid pid then some 0 else if nextSlot j = none then some (-1) else none
  | .waitSlot j =>
    if (d.proc j).state = .zombie then
      match ch with
      | .copyout true => some (d.proc j).pid
      | .copyout false => some (-1)
      | _ => none
    else none
  | .waitEnd havekids => if havekids then none else some (-1)
  | .waitKilled => if (d.proc p).killed ≠ 0 then some (-1) else none
  | _ => none

theorem Instr.returns_of_inTrap {d : Mem} (hi : i.inTrap = true) : i.returns p ch d = none := by
  cases i <;> first | rfl | cases hi

/-- The value decided on in a step. -/
def returns (p : Slot) (x : Machine C × Event C) : Option ℤ :=
  (made (.proc p) x).bind fun i => i.returns p x.2.choice x.1.mem

/-- The values returned to process `p`, the last one first. -/
def returned (p : Slot) (h : List (Machine C × Event C)) : List ℤ := h.filterMap (returns p)

theorem returns_run (hc : m.code c = i :: rest) (ht : m.tid c = .proc p) :
    returns p (m, .run c ch) = i.returns p ch m.mem := by
  rw [returns, made_run hc ht]
  rfl

theorem keeps_of_mem_eq {t : Tid C} (hs : m.step e = some m') (hmem : m'.mem = m.mem) : Keeps t rest (m, e) := by
  rintro - m'' hs'
  cases hs.symm.trans hs'
  exact hmem

/-- The frame rule for a call of process `p`: in a step that is not one of the call, the call changes nothing and comes
to no value. -/
theorem Good.frame_proc (hg : Good m A K) (hs : m.step e = some m') (hl : Live m (.proc p)) (hu : Handler u)
    (hst : m.stack (.proc p) = u ++ i :: core ++ rest) (hi : i ≠ .user) :
    (∃ u', Handler u' ∧ m'.stack (.proc p) = u' ++ i :: core ++ rest ∧ Live m' (.proc p) ∧
      Keeps (.proc p) rest (m, e) ∧ returns p (m, e) = none) ∨
    (u = [] ∧ ∃ c ch, e = .run c ch ∧ m.tid c = .proc p ∧ m.code c = i :: (core ++ rest) ∧
      Executes m c ch (core ++ rest) i m' ∧ ((∀ status, i ≠ .exitMark status) → Live m' (.proc p))) := by
  refine (hg.frame hs hl hu hst hi).imp ?_ id
  rintro ⟨u', hu', hst', hlive', hmade⟩
  refine ⟨u', hu', hst', hlive', ?_, ?_⟩
  · exact fun hown => absurd (own_eq_none hu hst hmade) hown
  · rw [returns, Option.bind_eq_none_iff]
    exact fun j hj => Instr.returns_of_inTrap (hmade j hj).1

/-! ## The loop -/

/-- A loop with head `F` and body `B` that updates the first slot to pass the test `hit`, and ends there. -/
structure Search (C : ℕ) (F B : Slot → Instr) (hit : Proc → Bool) (upd : Proc → Proc) : Prop where
  head : ∀ {m m' : Machine C} {c : Fin C} {ch : Choice} {rest : List Instr} {j : Slot},
    Executes m c ch rest (F j) m' → m' = m.setCode c (.acquire (.proc j) :: B j :: rest)
  body : ∀ {m m' : Machine C} {c : Fin C} {ch : Choice} {rest : List Instr} {j : Slot},
    Executes m c ch rest (B j) m' → m' =
      if hit (m.mem.proc j) then
        (m.setMem (m.mem.setProc j (upd (m.mem.proc j)))).setCode c (.release (.proc j) :: rest)
      else m.setCode c (.release (.proc j) :: (loop F j ++ rest))
  head_ne : ∀ j, (F j).inTrap = false ∧ F j ≠ .user ∧ ∀ status, F j ≠ .exitMark status
  body_ne : ∀ j, (B j).inTrap = false ∧ B j ≠ .user ∧ ∀ status, B j ≠ .exitMark status
  returns_head : ∀ p ch d j, (F j).returns p ch d = none
  returns_body : ∀ p ch d j, (B j).returns p ch d =
    if hit (d.proc j) then some 0 else if nextSlot j = none then some (-1) else none

/-- What is left of the loop when the slots before `j` have been examined. -/
inductive Looking (F B : Slot → Instr) : Slot → List Instr → Prop
  | head {j : Slot} : Looking F B j [F j]
  | acquire {j : Slot} : Looking F B j [.acquire (.proc j), B j]
  | spin {j : Slot} : Looking F B j [.spin (.proc j), B j]
  | body {j : Slot} : Looking F B j [B j]
  | release {i j : Slot} : Looking F B j [.release (.proc i), F j]
  | popOff {j : Slot} : Looking F B j [.popOff, F j]

/-- What is left of the loop after its last slot. -/
inductive Leaving : List Instr → Prop
  | release {j : Slot} : Leaving [.release (.proc j)]
  | popOff : Leaving [.popOff]
  | done : Leaving []

/-- The loop has not returned a value, and has changed nothing. -/
structure Unfound (p : Slot) (rest : List Instr) (v : List ℤ) (h : List (Machine C × Event C)) : Prop where
  keeps : ∀ x ∈ h, Keeps (.proc p) rest x
  value : returned p h = v

/-- Slot `j` fails the test at one time or another. -/
def Missed (hit : Proc → Bool) (h : List (Machine C × Event C)) (j : Slot) : Prop :=
  ∃ x ∈ h, hit (x.1.mem.proc j) = false

/-- A step of the call has updated slot `j`, which passed the test; the call has changed nothing else. -/
structure Found (p : Slot) (rest : List Instr) (hit : Proc → Bool) (upd : Proc → Proc) (j : Slot)
    (h : List (Machine C × Event C)) : Prop where
  update : ∃ h1 h2 x m', h = h2 ++ x :: h1 ∧ own (.proc p) rest x ≠ none ∧ x.1.step x.2 = some m' ∧
    hit (x.1.mem.proc j) = true ∧ m'.mem = x.1.mem.setProc j (upd (x.1.mem.proc j)) ∧
    ∀ y ∈ h2 ++ h1, Keeps (.proc p) rest y
  value : returned p h = [0]

/-- How far the loop has come: its slots before `j` have failed the test, or it is over. -/
inductive Progress (p : Slot) (F B : Slot → Instr) (hit : Proc → Bool) (upd : Proc → Proc) (rest : List Instr)
    (h : List (Machine C × Event C)) : List Instr → Prop
  | looking {j : Slot} {core : List Instr} : Looking F B j core → (∀ i < j, Missed hit h i) →
      Unfound p rest [] h → Progress p F B hit upd rest h core
  | found {j : Slot} {core : List Instr} : Leaving core → Found p rest hit upd j h →
      Progress p F B hit upd rest h core
  | failed {core : List Instr} : Leaving core → (∀ j, Missed hit h j) → Unfound p rest [-1] h →
      Progress p F B hit upd rest h core

/-- The invariant of a call of the loop. -/
structure Searching (p : Slot) (F B : Slot → Instr) (hit : Proc → Bool) (upd : Proc → Proc) (rest : List Instr)
    (h : List (Machine C × Event C)) (m : Machine C) : Prop where
  live : Live m (.proc p)
  state : ∃ u core, Handler u ∧ (core = [] → u = []) ∧ m.stack (.proc p) = u ++ core ++ rest ∧
    Progress p F B hit upd rest h core

section

variable {x : Machine C × Event C} {j : Slot} {v : List ℤ}

theorem Unfound.cons (hn : Unfound p rest v h) (hx : Keeps (.proc p) rest x) :
    Unfound p rest ((returns p x).toList ++ v) (x :: h) := by
  refine ⟨fun y hy => ?_, ?_⟩
  · rcases List.mem_cons.mp hy with rfl | hy
    · exact hx
    · exact hn.keeps y hy
  · show (x :: h).filterMap (returns p) = _
    rw [← hn.value, returned]
    cases hr : returns p x with
    | none => exact List.filterMap_cons_none hr
    | some => exact List.filterMap_cons_some hr

theorem Unfound.quiet (hn : Unfound p rest v h) (hx : Keeps (.proc p) rest x) (hr : returns p x = none) :
    Unfound p rest v (x :: h) := by
  simpa [hr] using hn.cons hx

theorem Found.quiet (hf : Found p rest hit upd j h) (hx : Keeps (.proc p) rest x) (hr : returns p x = none) :
    Found p rest hit upd j (x :: h) := by
  obtain ⟨⟨h1, h2, y, m', rfl, hy, hs, hhit, hmem, hk⟩, hret⟩ := hf
  refine ⟨⟨h1, x :: h2, y, m', rfl, hy, hs, hhit, hmem, fun z hz => ?_⟩, ?_⟩
  · rcases List.mem_cons.mp hz with rfl | hz
    · exact hx
    · exact hk z hz
  · rw [returned, List.filterMap_cons_none hr]
    exact hret

theorem Missed.cons (hm : Missed hit h j) : Missed hit (x :: h) j := by
  obtain ⟨y, hy, hrest⟩ := hm
  exact ⟨y, List.mem_cons_of_mem _ hy, hrest⟩

/-- A step that examines no slot. -/
theorem Progress.quiet (hp : Progress p F B hit upd rest h core)
    (hx : Keeps (.proc p) rest x) (hr : returns p x = none) : Progress p F B hit upd rest (x :: h) core := by
  cases hp with
  | looking hl hm hn => exact .looking hl (fun i hi => (hm i hi).cons) (hn.quiet hx hr)
  | found hl hf => exact .found hl (hf.quiet hx hr)
  | failed hl hm hn => exact .failed hl (fun j => (hm j).cons) (hn.quiet hx hr)

/-- The body of the loop at slot `j`. -/
theorem Search.searching_body (S : Search C F B hit upd) (hlive : Live m' (.proc p))
    (hs : m.step (.run c ch) = some m') (hf : Executes m c ch rest (B j) m') (ht : m.tid c = .proc p)
    (hc : m.code c = B j :: rest) (hm : ∀ i < j, Missed hit h i) (hn : Unfound p rest [] h) :
    Searching p F B hit upd rest ((m, .run c ch) :: h) m' := by
  have hret : returns p (m, .run c ch) = if hit (m.mem.proc j) then some 0
      else if nextSlot j = none then some (-1) else none := by
    rw [returns_run hc ht, S.returns_body]
  have hm' := S.body hf
  by_cases hhit : hit (m.mem.proc j) = true
  · rw [if_pos hhit] at hm' hret
    refine ⟨hlive, [], [.release (.proc j)], .nil, by simp, ?_, .found .release (j := j) ⟨?_, ?_⟩⟩
    · rw [hm']
      exact stack_of_setCode rfl ht
    · refine ⟨h, [], _, m', rfl, ?_, hs, hhit, by simp [hm'], by simpa using hn.keeps⟩
      have hstack : m.stack (.proc p) = [B j] ++ rest := by rw [← ht, ← code_eq_stack, hc]; rfl
      have hno : ¬ Handling (.proc p) rest m := by
        rw [handling_iff hstack, List.mem_singleton]
        exact fun he => by cases (S.body_ne j).1.symm.trans (congrArg Instr.inTrap he.symm)
      rw [own, if_neg hno, made_run hc ht]
      simp
    · rw [returned, List.filterMap_cons_some hret]
      exact congrArg _ hn.value
  · have hmiss : hit (m.mem.proc j) = false := by simpa using hhit
    rw [if_neg hhit] at hm' hret
    have hmem : m'.mem = m.mem := by rw [hm', setCode_mem]
    have hkeep : Keeps (.proc p) rest (m, .run c ch) := keeps_of_mem_eq hs hmem
    have hle : ∀ i ≤ j, Missed hit ((m, .run c ch) :: h) i := by
      intro i hi
      rcases hi.lt_or_eq with hlt | rfl
      · exact (hm i hlt).cons
      · exact ⟨_, List.mem_cons_self, hmiss⟩
    have hst : m'.stack (.proc p) = .release (.proc j) :: (loop F j ++ rest) := by
      rw [hm']
      exact stack_of_setCode rfl ht
    cases hnext : nextSlot j with
    | some k =>
      rw [if_neg (by simp [hnext])] at hret
      refine ⟨hlive, [], [.release (.proc j), F k], .nil, by simp, ?_, .looking .release (fun i hi => hle i ?_)
        (hn.quiet hkeep hret)⟩
      · rw [hst, loop, hnext]
        rfl
      · have hk := nextSlot_eq_some.mp hnext
        rw [Fin.lt_def] at hi
        exact Fin.le_def.mpr (by omega)
    | none =>
      rw [if_pos hnext] at hret
      refine ⟨hlive, [], [.release (.proc j)], .nil, by simp, ?_, .failed .release (fun i => hle i ?_) ?_⟩
      · rw [hst, loop, hnext]
        rfl
      · exact nextSlot_eq_none.mp hnext i
      · simpa [hret] using hn.cons hkeep

end

/-- **A step in a call of the loop.** -/
theorem Searching.step (S : Search C F B hit upd) (hsr : Searching p F B hit upd rest h m) (hg : Good m A K)
    (hlen : rest.length < (m.stack (.proc p)).length) (hs : m.step e = some m') :
    Searching p F B hit upd rest ((m, e) :: h) m' := by
  obtain ⟨hlive, u, core, hu, hnil, hst, hprog⟩ := hsr
  obtain ⟨i, core, rfl⟩ := exists_cons_of_inside hst hnil hlen
  have hi : i ≠ .user := by
    cases hprog with
    | @looking j _ hl => cases hl <;> first | exact (S.head_ne j).2.1 | exact (S.body_ne j).2.1 | simp
    | found hl | failed hl => cases hl <;> simp
  rcases hg.frame_proc hs hlive hu hst hi with
    ⟨u', hu', hst', hlive', hkeep, hret⟩ | ⟨rfl, c, ch, rfl, ht, hc, hf, hlive'⟩
  · exact ⟨hlive', u', i :: core, hu', by simp, hst', hprog.quiet hkeep hret⟩
  · have hmade : made (.proc p) (m, .run c ch) = some i := made_run hc ht
    have hlock : ∀ k, i.lockOp = some k → (Keeps (.proc p) rest (m, .run c ch) → returns p (m, .run c ch) = none →
        Progress p F B hit upd rest ((m, .run c ch) :: h) (k ++ core)) →
        Searching p F B hit upd rest ((m, .run c ch) :: h) m' := by
      intro k hk hnext
      obtain ⟨hst', hmem, -⟩ := hf.lockOp hk ht
      have hret : returns p (m, .run c ch) = none := by
        rw [returns_run hc ht]
        cases i <;> first | rfl | cases hk
      refine ⟨hlive' fun status he => by simp [he, Instr.lockOp] at hk, [], k ++ core, .nil, fun _ => rfl, ?_,
        hnext (keeps_of_mem_eq hs hmem) hret⟩
      simpa using hst'
    cases hprog with
    | @looking j _ hl hm hn =>
      have hm' : ∀ i < j, Missed hit ((m, .run c ch) :: h) i := fun i hi => (hm i hi).cons
      cases hl with
      | body => exact S.searching_body (hlive' (S.body_ne j).2.2) hs hf ht hc hm hn
      | head =>
        have heq := S.head hf
        have hret : returns p (m, .run c ch) = none := by rw [returns_run hc ht, S.returns_head]
        refine ⟨hlive' (S.head_ne j).2.2, [], [.acquire (.proc j), B j], .nil, by simp, ?_,
          .looking .acquire hm' (hn.quiet (keeps_of_mem_eq hs (by simp [heq])) hret)⟩
        rw [heq]
        exact stack_of_setCode rfl ht
      | acquire => exact hlock _ rfl fun hx hret => .looking .spin hm' (hn.quiet hx hret)
      | spin => exact hlock _ rfl fun hx hret => .looking .body hm' (hn.quiet hx hret)
      | release => exact hlock _ rfl fun hx hret => .looking .popOff hm' (hn.quiet hx hret)
      | popOff => exact hlock _ rfl fun hx hret => .looking .head hm' (hn.quiet hx hret)
    | found hl hfd =>
      cases hl with
      | release => exact hlock _ rfl fun hx hret => .found .popOff (hfd.quiet hx hret)
      | popOff => exact hlock _ rfl fun hx hret => .found .done (hfd.quiet hx hret)
    | failed hl hm hn =>
      cases hl with
      | release => exact hlock _ rfl fun hx hret => .failed .popOff (fun j => (hm j).cons) (hn.quiet hx hret)
      | popOff => exact hlock _ rfl fun hx hret => .failed .done (fun j => (hm j).cons) (hn.quiet hx hret)

/-- The loop when it has returned. -/
theorem Searching.returned (hsr : Searching p F B hit upd rest h m) (hret : m.stack (.proc p) = rest) :
    (∃ j, Found p rest hit upd j h) ∨ (∀ j, Missed hit h j) ∧ Unfound p rest [-1] h := by
  obtain ⟨-, u, core, -, -, hst, hprog⟩ := hsr
  cases hprog with
  | looking hl =>
    -- something of the loop would be left
    rw [hret] at hst
    have hlen := congrArg List.length hst
    have hpos : 0 < core.length := List.length_pos_of_ne_nil (by cases hl <;> simp)
    simp only [List.length_append] at hlen
    omega
  | found _ hf => exact .inl ⟨_, hf⟩
  | failed _ hm hn => exact .inr ⟨hm, hn⟩

/-- **What a call of the loop has done when it returns.** -/
theorem InCall.search (S : Search C F B hit upd) (hr : MachineReach C h0 m0)
    (hcall : InCall (.proc p) [F 0] rest m0 h m) (hret : m.stack (.proc p) = rest) :
    (∃ j, Found p rest hit upd j h) ∨ (∀ j, Missed hit h j) ∧ Unfound p rest [-1] h := by
  have hinv : Searching p F B hit upd rest h m := by
    refine hcall.induct hr ?_ fun h m e m' A K hg hI hlen hs => hI.step S hg hlen hs
    exact ⟨hcall.live, [], [F 0], .nil, by simp, hcall.start, .looking .head (by simp) ⟨by simp, rfl⟩⟩
  exact hinv.returned hret

end Xv6Mlfq
