import Xv6Mlfq.Kernel.Kin

/-!
# Xv6Mlfq.Kernel.Wait — every exit is waited for once

A process leaves `ZOMBIE` only when its parent, in a call of `wait`, frees it (`MachineReach.freed_in_wait`), and every exit
is followed by at most one such step (`MachineReach.exits_eq`).  `Instr.waits` says what is left of a call of `wait` in terms of how far it
has come (`Waited`): looking for a zombie, about to free the one it has found, or on its way out with or without one.
-/

namespace Xv6Mlfq

open Function Machine

variable {C : ℕ} {m m' : Machine C} {c : Fin C} {ch : Choice} {e : Event C} {i : Instr}
  {k core rest u : List Instr} {A : Fin C → Abs} {K : Slot → Option Slot} {p j : Slot}
  {h : List (Machine C × Event C)} {Q : Waited → Prop} {h2 : List (Machine C × Event C)}
  {x : Machine C × Event C}

/-! ## Parents -/

/-- A process has a live parent, or is being made by one. -/
theorem MachineReach.parent (hr : MachineReach C h m) (hj : j ≠ initproc) (hst : m.mem.state j ≠ .unused) :
    (∃ q, (m.mem.proc j).parent = some q ∧ Alive (m.mem.state q)) ∨
      (m.mem.proc j).parent = none ∧ m.mem.state j = .used ∧
        ∃ p, Alive (m.mem.state p) ∧ .setParent j ∈ m.procCode p := by
  obtain ⟨R, hk⟩ := hr.kin
  cases hp : (m.mem.proc j).parent with
  | some q => exact .inl ⟨q, rfl, hk.family.parent j q hp⟩
  | none =>
    obtain ⟨hu, p, hc⟩ := hk.family.orphan j hj hst hp
    have ha : Alive (m.mem.state p) := by
      apply hk.family.alive p <;> intro hR <;> rw [hR] at hc <;> cases hc
    refine .inr ⟨rfl, hu, p, ha, setParent_mem_of_kin (hk.code p ?_) hc⟩
    exact ha.1

/-- A zombie goes when its parent frees it. -/
theorem Good.unzombie (hg : Good m A K) (hs : m.step e = some m') (hj : m.mem.state j = .zombie)
    (hj' : m'.mem.state j ≠ .zombie) : ∃ c ch rest, e = .run c ch ∧ m.code c = .freeproc j :: rest := by
  rcases hg.state_step hs j with he | ⟨c, ch, i, rest, rfl, hc, hsh⟩
  · exact absurd (he.trans hj) hj'
  rw [hj] at hsh
  generalize m'.mem.state j = b at hsh
  cases hsh
  exact ⟨c, ch, rest, rfl, hc⟩

/-- Who frees a process is its parent. -/
theorem MachineReach.freed_by_parent (hr : MachineReach C h m) (hc : m.code c = .freeproc j :: rest) :
    ∃ p, m.tid c = .proc p ∧ (m.mem.proc j).parent = some p ∧ m.mem.state j = .zombie := by
  obtain ⟨A, K, hg⟩ := hr.good
  obtain ⟨R, hk⟩ := hr.kin
  obtain ⟨hme, -, -⟩ := hg.needs hc rfl
  obtain ⟨p, ht⟩ := Option.ne_none_iff_exists'.mp hme
  have hcode := hk.code p (hr.thread_used ht)
  rw [← code_of_some ht, hc] at hcode
  have hfact := hk.family.fact p
  rw [hcode.1] at hfact
  exact ⟨p, tid_of_some ht, hfact⟩

/-! ## Exits -/

/-- Process `j` becomes a zombie. -/
def exitsAt (j : Slot) (x : Machine C × Event C) : Bool :=
  match made (.proc j) x with
  | some (.exitMark _) => true
  | _ => false

/-- Process `j` is freed. -/
def freesAt (j : Slot) (x : Machine C × Event C) : Bool := executed x = some (.freeproc j)

/-- The exits of process `j`. -/
def exits (j : Slot) (h : List (Machine C × Event C)) : ℕ := h.countP (exitsAt j)

/-- How often process `j` has been freed. -/
def frees (j : Slot) (h : List (Machine C × Event C)) : ℕ := h.countP (freesAt j)

theorem exitsAt_iff :
    exitsAt j x = true ↔ ∃ status, made (.proc j) x = some (.exitMark status) := by
  unfold exitsAt
  split
  next status hx => simp [hx]
  next hx => simpa using fun status => hx status

theorem freesAt_iff : freesAt j x = true ↔ executed x = some (.freeproc j) := by
  simp [freesAt]

/-- A process becomes a zombie in its own `exit`. -/
theorem Good.zombify (hg : Good m A K) (hs : m.step e = some m') (hj : m.mem.state j ≠ .zombie)
    (hj' : m'.mem.state j = .zombie) : exitsAt j (m, e) = true := by
  rcases hg.state_step hs j with he | ⟨c, ch, i, rest, rfl, hc, hsh⟩
  · exact absurd (he.symm.trans hj') hj
  rw [hj'] at hsh
  generalize m.mem.state j = a at hsh
  cases hsh with
  | exit ht => exact exitsAt_iff.mpr ⟨_, made_run hc (tid_of_some ht)⟩

theorem Good.exitMark_step (hg : Good m A K) (hs : m.step e = some m') (hx : exitsAt j (m, e) = true) :
    m.mem.state j = .running ∧ m'.mem.state j = .zombie := by
  obtain ⟨status, hx⟩ := exitsAt_iff.mp hx
  obtain ⟨c, ch, rest, rfl, ht, hc⟩ := exists_of_made hx
  have ht := thread_of_tid ht
  have hk := hg.at ht hc rfl
  obtain ⟨d, k, hx, rfl⟩ := (hg.executes_of_code hc hs).expandProc ht rfl
  cases hx
  refine ⟨hg.running_of_know ht (by rw [hk]; rfl), ?_⟩
  simp [Mem.state, Mem.setProc, Proc.exit]

theorem MachineReach.freeproc_step (hr : MachineReach C h m) (hs : m.step e = some m') (hx : freesAt j (m, e) = true) :
    m.mem.state j = .zombie ∧ m'.mem.state j = .unused := by
  obtain ⟨A, K, hg⟩ := hr.good
  obtain ⟨c, ch, rest, rfl, hc⟩ := exists_of_executed (freesAt_iff.mp hx)
  obtain ⟨p, ht, -, hj⟩ := hr.freed_by_parent hc
  obtain ⟨d, k, hx, rfl⟩ := (hg.executes_of_code hc hs).expandProc (thread_of_tid ht) rfl
  cases hx
  exact ⟨hj, by simp [Mem.state, Mem.setProc, Proc.freeproc]⟩

/-- **Every exit but the last has been followed by one `freeproc`**, and the last one unless the process is a zombie. -/
theorem MachineReach.exits_eq (hr : MachineReach C h m) (j : Slot) :
    exits j h = frees j h + if m.mem.state j = .zombie then 1 else 0 := by
  induction hr with
  | nil =>
    have hboot : ∀ i, (userinit 1 procinit i).state ≠ .zombie := by decide
    have hj : (Machine.boot C).mem.state j ≠ .zombie := hboot j
    rw [if_neg hj]
    rfl
  | @snoc h m m' e hr hs ih =>
    have hr : MachineReach C h m := hr
    obtain ⟨A, K, hg⟩ := hr.good
    rw [exits, frees, List.countP_cons, List.countP_cons]
    simp only [exits, frees] at ih
    by_cases hx : exitsAt j (m, e) = true
    · obtain ⟨hrun, hz⟩ := hg.exitMark_step hs hx
      have hf : freesAt j (m, e) ≠ true := by
        intro hf
        cases hrun.symm.trans (hr.freeproc_step hs hf).1
      simp only [hrun, reduceCtorEq, if_false] at ih
      simp only [hx, hf, hz, if_true, ih]
      rfl
    · by_cases hf : freesAt j (m, e) = true
      · obtain ⟨hz, hu⟩ := hr.freeproc_step hs hf
        simp only [hz, if_true] at ih
        simp only [hx, hf, hu, reduceCtorEq, if_true, if_false, ih]
      · have hiff : m'.mem.state j = .zombie ↔ m.mem.state j = .zombie := by
          refine ⟨fun hz => ?_, fun hz => ?_⟩
          · by_contra hne
            exact hx (hg.zombify hs hne hz)
          · by_contra hne
            obtain ⟨c, ch, rest, rfl, hc⟩ := hg.unzombie hs hz hne
            exact hf (freesAt_iff.mpr (executed_run hc))
        simp only [hx, hf, hiff, ih]
        rfl

/-! ## A call of `wait` -/

/-- `wait()`. -/
abbrev waitCode : List Instr := Call.wait.code

/-- The zombie that a step of the call frees, with its pid. -/
def freesIn (p : Slot) (rest : List Instr) (x : Machine C × Event C) : Option (Slot × ℤ) :=
  match own (.proc p) rest x with
  | some (.freeproc j) => some (j, (x.1.mem.proc j).pid)
  | _ => none

/-- The zombies that the call has freed, the last one first. -/
def freed (p : Slot) (rest : List Instr) (h : List (Machine C × Event C)) : List (Slot × ℤ) :=
  h.filterMap (freesIn p rest)

/-- The call finds a zombie, and `copyout` of its status fails. -/
def copyFails (p : Slot) (rest : List Instr) (x : Machine C × Event C) : Bool :=
  match own (.proc p) rest x with
  | some (.waitSlot j) => x.1.mem.state j = .zombie ∧ x.2.choice = .copyout false
  | _ => false

/-- How far a call of `wait` has come: to no zombie yet; to a zombie, of pid `v`, whose status is copied out; to the end,
without a zombie or with one. -/
inductive Waited
  | calling | found (j : Slot) (v : ℤ) | failed | freed (j : Slot) (v : ℤ)

namespace Waited

def Done : Waited → Prop
  | failed | freed _ _ => True
  | _ => False

/-- The values returned. -/
def values : Waited → List ℤ
  | calling => []
  | found _ v | freed _ v => [v]
  | failed => [-1]

/-- The zombies freed. -/
def zombies : Waited → List (Slot × ℤ)
  | freed j v => [(j, v)]
  | _ => []

end Waited

/-- A call that has come to `x` may execute the instruction, and `Q` is so of how far it has come if it gets past it. -/
@[simp] def Instr.waits (i : Instr) (Q : Waited → Prop) (x : Waited) : Prop :=
  match i with
  | .acquire l | .spin l | .release l => (∀ j v, x = .found j v → ∃ k, l = .leaf k) ∧ Q x
  | .popOff | .leafCalls => Q x
  | .sleepMark _ | .sched | .setIntena _ | .tidy => x = .calling ∧ Q x
  | .waitFrom _ _ | .waitSlot _ | .waitEnd _ | .waitKilled => x = .calling ∧ ∀ y, y.Done → Q y
  | .freeproc j => ∃ v, x = .found j v ∧ Q (.freed j v)
  | _ => False

/-- Code. -/
abbrev waits (k : List Instr) (Q : Waited → Prop) : Waited → Prop := k.foldr Instr.waits Q

/-- What an instruction of the call does to how far it has come. -/
structure Waited.Next (p : Slot) (ch : Choice) (d : Mem) (i : Instr) (x y : Waited) : Prop where
  values : y.values = (i.returns p ch d).toList ++ x.values
  zombies : y.zombies = (match i with | .freeproc j => [(j, (d.proc j).pid)] | _ => []) ++ x.zombies
  copied : y ≠ .failed → x ≠ .failed ∧ ∀ j, i = .waitSlot j → d.state j = .zombie → ch ≠ .copyout false
  found : ∀ j v, y = .found j v → x = y ∧ (∀ j', i ≠ .freeproc j') ∨
    i = .waitSlot j ∧ d.state j = .zombie ∧ (d.proc j).pid = v
  stays : y = x ∨ i.inWait = true

theorem Waited.Next.refl {d : Mem} {x : Waited} (hi : i.returns p ch d = none) (hf : ∀ j, i ≠ .freeproc j)
    (hw : ∀ j, i = .waitSlot j → d.state j ≠ .zombie) : Next p ch d i x x := by
  refine ⟨by simp [hi], ?_, fun hx => ⟨hx, fun j hj hz => absurd hz (hw j hj)⟩, fun j v hx => .inl ⟨rfl, hf⟩, .inl rfl⟩
  cases i with
  | freeproc j => exact absurd rfl (hf j)
  | _ => rfl

/-- **A step of a call of `wait`.** -/
theorem Pushes.waits {x : Waited} (hp : Pushes m c ch i k) (ht : (m.cpu c).thread = some p)
    (hw : i.waits Q x) (hx : ∀ j v, x = .found j v → (m.mem.proc j).pid = v) :
    ∃ y, Xv6Mlfq.waits k Q y ∧ Waited.Next p ch m.mem i x y := by
  have keep {l : List Instr} (hl : Xv6Mlfq.waits l Q x) (hi : i.returns p ch m.mem = none) (hf : ∀ j, i ≠ .freeproc j)
      (hw : ∀ j, i = .waitSlot j → m.mem.state j ≠ .zombie) :
      ∃ y, Xv6Mlfq.waits l Q y ∧ Waited.Next p ch m.mem i x y := ⟨x, hl, .refl hi hf hw⟩
  cases hp with
  | lockOp hk =>
    cases i <;> cases hk <;> refine keep ?_ rfl (by simp) (by simp)
    · exact hw
    · exact hw.2
    · exact hw.2
    · exact hw
  | cpuOp hk =>
    cases i <;> cases hk <;> first | exact hw.elim | exact keep hw.2 rfl (by simp) (by simp)
  | sched => exact keep hw rfl (by simp) (by simp)
  | any hx =>
    cases i <;> simp only [Instr.waits] at hw <;>
      simp only [Instr.expandAny, reduceCtorEq] at hx
    case leafCalls =>
      refine keep ?_ rfl (by simp) (by simp)
      split at hx <;> cases hx
      · simpa using hw
      · exact hw
  | proc hp hk =>
    cases hp.symm.trans ht
    have hdone : ∀ j v, (Waited.freed j v).Done := fun _ _ => trivial
    cases i <;> simp only [Instr.waits] at hw <;>
      simp only [Instr.expandProc, reduceCtorEq, Option.some.injEq, Prod.mk.injEq] at hk
    case sleepMark | tidy =>
      obtain ⟨rfl, rfl⟩ := hk
      exact keep hw.2 rfl (by simp) (by simp)
    case waitFrom j b =>
      obtain ⟨rfl, hQ⟩ := hw
      refine keep ?_ rfl (by simp) (by simp)
      split_ifs at hk <;> cases hk
      · simpa using hQ
      · split <;> simpa using hQ
    case waitSlot j =>
      obtain ⟨rfl, hQ⟩ := hw
      by_cases hz : (m.mem.proc j).state = .zombie
      · rw [if_pos hz] at hk
        split at hk <;> cases hk
        · refine ⟨.found j (m.mem.proc j).pid, by simpa using hQ _ (hdone _ _), ?_⟩
          exact ⟨by simp [Instr.returns, hz, Waited.values], rfl, by simp, by simp [Mem.state, hz], .inr rfl⟩
        · refine ⟨.failed, by simpa using hQ .failed trivial, ?_⟩
          exact ⟨by simp [Instr.returns, hz, Waited.values], rfl, by simp, by simp, .inr rfl⟩
      · rw [if_neg hz] at hk
        cases hk
        refine keep ?_ (by simp [Instr.returns, hz]) (by simp) (by simpa using hz)
        split <;> simpa using hQ
    case waitEnd b =>
      obtain ⟨rfl, hQ⟩ := hw
      cases b <;> cases hk
      · refine ⟨.failed, by simpa using hQ .failed trivial, ?_⟩
        exact ⟨by simp [Instr.returns, Waited.values], rfl, by simp, by simp, .inr rfl⟩
      · exact keep (by simpa using hQ) rfl (by simp) (by simp)
    case waitKilled =>
      obtain ⟨rfl, hQ⟩ := hw
      obtain ⟨rfl, rfl⟩ := hk
      by_cases hkill : (m.mem.proc p).killed ≠ 0
      · rw [if_pos hkill]
        refine ⟨.failed, by simpa using hQ .failed trivial, ?_⟩
        exact ⟨by simp [Instr.returns, Waited.values, hkill], rfl, by simp, by simp, .inr rfl⟩
      · rw [if_neg hkill]
        refine keep ?_ (by simp [Instr.returns, hkill]) (by simp) (by simp)
        simpa [sleepCode] using hQ
    case freeproc j =>
      obtain ⟨v, rfl, hQ⟩ := hw
      obtain ⟨rfl, rfl⟩ := hk
      have hv := hx j v rfl
      refine ⟨.freed j v, hQ, ?_⟩
      exact ⟨rfl, by simp [Waited.zombies, hv], by simp, by simp, .inr rfl⟩
  | _ => exact hw.elim

/-- Who holds `p->lock` keeps the pid of `p`, until he frees it. -/
theorem Good.present_step {v : ℤ} (hg : Good m A K) (hs : m.step e = some m') (hp : Present v j m)
    (hl : m.holder (.proc j) = some c) (hn : ∀ ch rest, e = .run c ch → m.code c ≠ .freeproc j :: rest) :
    Present v j m' := by
  have hst : m'.mem.state j ≠ .unused := by
    intro hu
    obtain ⟨c', ch, rest, rfl, hc⟩ := hg.free_step hs hp.1 hu
    obtain ⟨-, hA, -⟩ := hg.needs hc rfl
    have hl' : m.holder (.proc j) = some c' := (hg.locked.agrees c' _).mpr (by simp [hA])
    cases hl.symm.trans hl'
    exact hn ch rest rfl hc
  rcases hg.pid_step hs hst with ⟨-, hpid⟩ | ⟨hu, -⟩
  · exact ⟨hst, hpid.trans hp.2⟩
  · exact absurd hu hp.1

/-- What the run so far says of a call that has come to `x`. -/
structure Tells (p : Slot) (rest : List Instr) (h : List (Machine C × Event C)) (m : Machine C) (u : List Instr)
    (x : Waited) : Prop where
  values : returned p h = x.values
  zombies : freed p rest h = x.zombies
  copied : x ≠ .failed → ∀ y ∈ h, copyFails p rest y = false
  found : ∀ j v, x = .found j v → u = [] ∧ Present v j m ∧ ∃ c, m.tid c = .proc p ∧ m.holder (.proc j) = some c
  awake : m.mem.state p = .sleeping → x = .calling

/-- The invariant of a call of `wait`. -/
structure WaitPhase (p : Slot) (rest : List Instr) (h : List (Machine C × Event C)) (m : Machine C) : Prop where
  live : Live m (.proc p)
  phase : ∃ u core x, Handler u ∧ (core = [] → u = []) ∧ m.stack (.proc p) = u ++ core ++ rest ∧
    waits core Waited.Done x ∧ Tells p rest h m u x

theorem Instr.exists_of_waits {x : Waited} (hw : i.waits Q x) : ∃ y, Q y := by
  cases i <;> simp only [Instr.waits] at hw
  case acquire | spin | release | sleepMark | sched | setIntena | tidy => exact ⟨_, hw.2⟩
  case popOff | leafCalls => exact ⟨_, hw⟩
  case waitFrom | waitSlot | waitEnd | waitKilled => exact ⟨.failed, hw.2 .failed trivial⟩
  case freeproc =>
    obtain ⟨v, -, hQ⟩ := hw
    exact ⟨_, hQ⟩

theorem not_mem_of_waits {x : Waited} (hw : waits core Q x) : .sret ∉ core := by
  induction core generalizing x with
  | nil => simp
  | cons i core ih =>
    intro hmem
    rcases List.mem_cons.mp hmem with rfl | hmem
    · exact hw
    · obtain ⟨y, hy⟩ := Instr.exists_of_waits hw
      exact ih hy hmem

theorem returned_cons : returned p (x :: h) = (returns p x).toList ++ returned p h := by
  unfold returned
  cases hx : returns p x <;> simp [hx]

theorem freed_cons : freed p rest (x :: h) = (freesIn p rest x).toList ++ freed p rest h := by
  unfold freed
  cases hx : freesIn p rest x <;> simp [hx]

section Step

variable {x y : Waited} {v : ℤ}

/-- A step that is none of the call. -/
theorem Tells.other (ht : Tells p rest h m u x) (hg : Good m A K) (hs : m.step e = some m')
    (hown : own (.proc p) rest (m, e) = none) (hret : returns p (m, e) = none)
    (hmade : ∀ i, made (.proc p) (m, e) = some i → i.inTrap = true) {u' : List Instr}
    (hfound : ∀ j v, x = .found j v → u' = [] ∧ Present v j m' ∧ ∃ c, m'.tid c = .proc p ∧ m'.holder (.proc j) = some c) :
    Tells p rest ((m, e) :: h) m' u' x where
  values := by rw [returned_cons, hret, ht.values]; rfl
  zombies := by
    have hf : freesIn p rest (m, e) = none := by rw [freesIn, hown]
    rw [freed_cons, hf, ht.zombies]
    rfl
  copied := by
    intro hx z hz
    rcases List.mem_cons.mp hz with rfl | hz
    · rw [copyFails, hown]
    · exact ht.copied hx z hz
  found := hfound
  awake := by
    intro hp
    rcases hg.sleeping_step hs hp with ⟨hst, -⟩ | ⟨chan, hm, -⟩
    · exact ht.awake hst
    · cases hmade _ hm

/-- A call that is about to free a zombie, after one of its instructions. -/
theorem Good.found_step (hg : Good m A K) (hs : m.step (.run c ch) = some m') (hc : m.code c = i :: rest)
    (ht : m.tid c = .proc p) (hf : Executes m c ch rest i m') (hp : Present v j m)
    (hl : m.holder (.proc j) = some c) (hi : i ≠ .freeproc j ∧ i ≠ .release (.proc j) ∧ i ≠ .sched ∧ i ≠ .schedExit) :
    Present v j m' ∧ ∃ c, m'.tid c = .proc p ∧ m'.holder (.proc j) = some c := by
  refine ⟨hg.present_step hs hp hl fun _ rest' _ hc' => ?_, c, hf.tid (thread_of_tid ht) hi.2.2, ?_⟩
  · exact hi.1 (List.cons_eq_cons.mp (hc.symm.trans hc')).1
  · rcases hg.holder_step hs hl with hl' | ⟨_, rest', -, hc'⟩
    · exact hl'
    · exact absurd (List.cons_eq_cons.mp (hc.symm.trans hc')).1 hi.2.1

/-- Instructions of `wait` are executed by a running process. -/
theorem Good.running_of_inWait (hg : Good m A K) (hc : m.code c = i :: rest) (ht : m.tid c = .proc p)
    (hi : i.inWait = true) (hn : ∀ j, i ≠ .freeproc j) : m.mem.state p = .running := by
  have ht := thread_of_tid ht
  refine hg.running_of_know ht ?_
  cases i <;> simp only [Instr.inWait, Bool.false_eq_true] at hi
  case waitKilled => rw [hg.at ht hc rfl]; rfl
  case freeproc j => exact absurd rfl (hn j)
  all_goals rw [(hg.at ht hc rfl).2]; rfl

/-- A step of the call. -/
theorem Tells.own (ht : Tells p rest h m [] x) (hg : Good m A K) (hs : m.step (.run c ch) = some m')
    (hc : m.code c = i :: (core ++ rest)) (htid : m.tid c = .proc p) (hw : waits (i :: core) Waited.Done x)
    (hf : Executes m c ch (core ++ rest) i m') (hn : Waited.Next p ch m.mem i x y) :
    Tells p rest ((m, .run c ch) :: h) m' [] y := by
  have hown : Xv6Mlfq.own (.proc p) rest (m, .run c ch) = some i := own_run hc htid (not_mem_of_waits hw)
  refine ⟨?_, ?_, fun hy z hz => ?_, fun j v hy => ⟨rfl, ?_⟩, fun hp => ?_⟩
  · rw [returned_cons, returns_run hc htid, ht.values, hn.values]
  · rw [freed_cons, ht.zombies, hn.zombies, freesIn, hown]
    cases i <;> rfl
  · obtain ⟨hx, hok⟩ := hn.copied hy
    rcases List.mem_cons.mp hz with rfl | hz
    · rw [copyFails, hown]
      cases i with
      | waitSlot j => exact decide_eq_false fun ⟨hz, hch⟩ => hok j rfl hz hch
      | _ => rfl
    · exact ht.copied hx z hz
  · rcases hn.found j v hy with ⟨rfl, hne⟩ | ⟨rfl, hz, hv⟩
    · subst hy
      obtain ⟨-, hpres, c', ht', hl⟩ := ht.found j v rfl
      obtain rfl : c' = c := hg.owned.tid_inj (ht'.trans htid.symm)
      refine hg.found_step hs hc htid hf hpres hl ⟨hne j, ?_, ?_, ?_⟩ <;> rintro rfl
      · obtain ⟨k, hk⟩ := hw.1 j v rfl
        cases hk
      · cases hw.1
      · exact hw
    · obtain ⟨-, hA⟩ := hg.needs hc rfl
      have hl : m.holder (.proc j) = some c := (hg.locked.agrees c _).mpr (by simp [hA])
      refine hg.found_step hs hc htid hf ⟨ne_of_eq_of_ne hz (by decide), hv⟩ hl (by simp)
  · by_cases hi : i.inWait = true
    · -- the process runs, and does not go to sleep here
      have hawake : m.mem.state p ≠ .sleeping := by
        intro hsl
        by_cases hfree : ∃ j, i = .freeproc j
        · obtain ⟨j, rfl⟩ := hfree
          obtain ⟨v, rfl, -⟩ := hw
          cases ht.awake hsl
        · cases hsl.symm.trans (hg.running_of_inWait hc htid hi fun j hj => hfree ⟨j, hj⟩)
      refine absurd hp (hg.not_sleeping_step hs hawake fun chan hm => ?_)
      rw [made_run hc htid] at hm
      cases hm
      cases hi
    · rw [hn.stays.resolve_right hi]
      rcases hg.sleeping_step hs hp with ⟨hst, -⟩ | ⟨chan, hm, -⟩
      · exact ht.awake hst
      · rw [made_run hc htid] at hm
        cases hm
        exact hw.1

theorem WaitPhase.own (hlive : (∀ status, i ≠ .exitMark status) → Live m' (.proc p)) (ht : Tells p rest h m [] x) (hg : Good m A K)
    (hs : m.step (.run c ch) = some m') (hc : m.code c = i :: (core ++ rest)) (htid : m.tid c = .proc p)
    (hw : waits (i :: core) Waited.Done x) (hf : Executes m c ch (core ++ rest) i m') :
    WaitPhase p rest ((m, .run c ch) :: h) m' := by
  obtain ⟨k, hst, hk⟩ : ∃ k, m'.stack (.proc p) = k ++ (core ++ rest) ∧ Pushes m c ch i k := by
    rcases hf.stack htid with hst | ⟨b, rfl, -⟩
    · exact hst
    · exact absurd hw id
  obtain ⟨y, hy, hn⟩ := hk.waits (thread_of_tid htid) hw fun j v hx => (ht.found j v hx).2.1.2
  refine ⟨hlive fun status he => ?_, [], k ++ core, y, .nil, fun _ => rfl, ?_, ?_, ?_⟩
  · subst he
    exact hw
  · simpa using hst
  · rw [waits, List.foldr_append]
    exact hy
  · exact ht.own hg hs hc htid hw hf hn

theorem WaitPhase.step (hp : WaitPhase p rest h m) (hg : Good m A K) (hlen : rest.length < (m.stack (.proc p)).length)
    (hs : m.step e = some m') : WaitPhase p rest ((m, e) :: h) m' := by
  obtain ⟨hlive, u, core, x, hu, hnil, hst, hw, ht⟩ := hp
  obtain ⟨i, core, rfl⟩ := exists_cons_of_inside hst hnil hlen
  have hi : i ≠ .user := by
    rintro rfl
    exact hw
  by_cases hx : ∃ j v, x = .found j v
  · obtain ⟨j, v, hx⟩ := hx
    obtain ⟨rfl, hpres, c, htid, hl⟩ := ht.found j v hx
    rcases hg.own_step hs htid hl hst hlive with
      ⟨hst', htid', hlive', keep, hne, hmade⟩ | ⟨ch, rfl, hc, hf, hlive'⟩
    · have hpres' := hg.present_step hs hpres hl fun ch rest he => absurd (by rw [he]; rfl) hne
      refine ⟨hlive', [], i :: core, x, .nil, by simp, hst'.trans hst, hw, ?_⟩
      refine ht.other hg hs (by simp [Xv6Mlfq.own, hmade]) (by simp [returns, hmade]) (by simp [hmade]) ?_
      intro j' v' hx'
      cases hx.symm.trans hx'
      exact ⟨rfl, hpres', c, htid', keep hl⟩
    · exact .own hlive' ht hg hs hc htid hw hf
  · rcases hg.frame hs hlive hu hst hi with
      ⟨u', hu', hst', hlive', hmade⟩ | ⟨rfl, c, ch, rfl, htid, hc, hf, hlive'⟩
    · have hret : returns p (m, e) = none := by
        rw [returns]
        cases hm : made (.proc p) (m, e) with
        | none => rfl
        | some i => exact Instr.returns_of_inTrap (hmade i hm).1
      exact ⟨hlive', u', i :: core, x, hu', by simp, hst', hw, ht.other hg hs (own_eq_none hu hst hmade) hret
        (fun i hm => (hmade i hm).1) fun j v hj => absurd ⟨j, v, hj⟩ hx⟩
    · exact .own hlive' ht hg hs hc htid hw hf

theorem InCall.waitPhase {m0 : Machine C} {h0 : List (Machine C × Event C)}
    (hcall : InCall (.proc p) waitCode rest m0 h m) (hr : MachineReach C h0 m0) : WaitPhase p rest h m := by
  refine hcall.induct hr ?_ fun h m e m' A K hg hp hlen hs => hp.step hg hlen hs
  refine ⟨hcall.live, [], waitCode, .calling, .nil, by simp [Call.code], hcall.start, ?_, rfl, rfl, by simp, by simp, by simp⟩
  simp [Call.code, waits]

/-- **What a call of `wait` has done when it returns.** -/
theorem WaitPhase.outcome (hp : WaitPhase p rest h m) (hret : m.stack (.proc p) = rest) :
    (returned p h = [-1] ∧ freed p rest h = []) ∨
      ∃ j v, returned p h = [v] ∧ freed p rest h = [(j, v)] ∧ ∀ y ∈ h, copyFails p rest y = false := by
  obtain ⟨-, u, core, x, -, -, hst, hw, ht⟩ := hp
  obtain rfl := eq_nil_of_returned hst hret
  cases x with
  | calling | found j v => exact absurd hw id
  | failed => exact .inl ⟨ht.values, ht.zombies⟩
  | freed j v => exact .inr ⟨j, v, ht.values, ht.zombies, ht.copied (by simp)⟩

/-- The call decides to free a zombie when it has its pid to return. -/
theorem WaitPhase.freeproc (hp : WaitPhase p rest h m) (hlen : rest.length < (m.stack (.proc p)).length)
    (hc : m.code c = .freeproc j :: k) (htid : m.tid c = .proc p) :
    returned p h = [(m.mem.proc j).pid] ∧ freed p rest h = [] ∧
      Xv6Mlfq.own (.proc p) rest (m, .run c ch) = some (.freeproc j) := by
  obtain ⟨-, u, core, x, hu, hnil, hst, hw, ht⟩ := hp
  rw [code_eq_stack, htid] at hc
  have hu' : u = [] := by
    cases u with
    | nil => rfl
    | cons i u =>
      rw [hst] at hc
      obtain ⟨rfl, -⟩ := List.cons_eq_cons.mp hc
      cases hu.1 _ List.mem_cons_self
  subst hu'
  cases core with
  | nil =>
    rw [hst] at hlen
    simp at hlen
  | cons i core =>
    obtain ⟨rfl, rfl⟩ := List.cons_eq_cons.mp (hst.symm.trans hc)
    have hown : Xv6Mlfq.own (.proc p) rest (m, .run c ch) = some (.freeproc j) :=
      own_run (by rw [code_eq_stack, htid, hst]; rfl) htid (not_mem_of_waits hw)
    obtain ⟨v, rfl, -⟩ := hw
    rw [ht.values, ht.zombies, (ht.found j v rfl).2.1.2]
    exact ⟨rfl, rfl, hown⟩

/-- A handler does not end a sleep. -/
theorem Instr.kin_nap_of_inTrap {Q : Role → Prop} (hi : i.inTrap = true) (hk : i.kin p Q .nap) : Q .nap := by
  cases i <;> simp only [Instr.inTrap, Bool.false_eq_true] at hi <;> simp at hk
  case acquire | spin | release => exact hk.2
  all_goals exact hk

theorem kin_nap_of_handler {Q : Role → Prop} (hu : ∀ i ∈ u, i.inTrap = true) (hk : kin p u Q .nap) : Q .nap := by
  induction u with
  | nil => exact hk
  | cons i u ih =>
    exact ih (fun j hj => hu j (List.mem_cons_of_mem _ hj)) (Instr.kin_nap_of_inTrap (hu i List.mem_cons_self) hk)

/-- What is left of `wait` is not what a process has left that sleeps elsewhere. -/
theorem not_kin_nap {Q : Role → Prop} (hw : waits core Waited.Done .calling) : ¬ kin p core Q .nap := by
  induction core with
  | nil => exact absurd hw id
  | cons i core ih =>
    intro hk
    cases i <;> simp only [waits, List.foldr_cons, Instr.waits] at hw <;> simp at hk
    case acquire | spin | release => exact ih hw.2 hk.2
    case popOff | leafCalls => exact ih hw hk
    case sched | setIntena | tidy => exact ih hw.2 hk

end Step

/-- **A process that sleeps in `wait` has no zombie child**, while nobody holds `wait_lock`. -/
theorem MachineReach.asleep_in_wait (hr : MachineReach C h m)
    (hp : WaitPhase p rest h2 m) (hst : m.mem.state p = .sleeping) (hl : m.holder .wait = none)
    (hj : (m.mem.proc j).parent = some p) : m.mem.state j ≠ .zombie := by
  obtain ⟨R, hk⟩ := hr.kin
  have hR : R p = .slept := by
    rcases hk.family.asleep p hst with hR | ⟨hR, -⟩
    · obtain ⟨-, u, core, x, hu, -, hstack, hw, ht⟩ := hp
      cases ht.awake hst
      have hcode := hk.code p (ne_of_eq_of_ne hst (by decide))
      rw [hR, show m.procCode p = m.stack (.proc p) from rfl, hstack, List.append_assoc] at hcode
      exact absurd (kin_append.mp (kin_nap_of_handler hu.1 (kin_append.mp hcode))) (not_kin_nap hw)
    · exact hR
  intro hz
  obtain ⟨-, q, n, i, hq, -⟩ := hk.family.heard p j (.inr ⟨hR, hst⟩) hj hz
  obtain ⟨c, -, hc⟩ := hk.holds q (by rw [hq]; rfl)
  cases hl.symm.trans hc

/-! ## The call that frees -/

/-- The run `h` has come to a call of `wait` by process `p`, whose steps are `h2`. -/
def Waiting (p : Slot) (rest : List Instr) (h2 h : List (Machine C × Event C)) (m : Machine C) : Prop :=
  ∃ h1 m1, h = h2 ++ h1 ∧ MachineReach C h1 m1 ∧ InCall (.proc p) waitCode rest m1 h2 m

theorem Waiting.waitPhase (hw : Waiting p rest h2 h m) : WaitPhase p rest h2 m := by
  obtain ⟨h1, m1, -, hr, hcall⟩ := hw
  exact hcall.waitPhase hr

/-- The code of `wait` stands in the stack of process `p` only as what is left of a call, or of a system call to come. -/
inductive WaitCalls (p : Slot) (h : List (Machine C × Event C)) (m : Machine C) : Prop
  | out : (∀ i ∈ m.stack (.proc p), i.inWait = false) → WaitCalls p h m
  | coming {u rest : List Instr} : m.stack (.proc p) = u ++ waitCode ++ rest → u ≠ [] →
      (∀ i ∈ u, i.inWait = false ∧ i ≠ .user) → (∀ i ∈ rest, i.inWait = false) → WaitCalls p h m
  | inside {rest : List Instr} {h2 : List (Machine C × Event C)} : Waiting p rest h2 h m →
      rest.length < (m.stack (.proc p)).length → (∀ i ∈ rest, i.inWait = false) → WaitCalls p h m

section WaitCalls

variable {x v : List Instr}

/-- A call goes on, or has returned. -/
theorem Waiting.step (hw : Waiting p rest h2 h m)
    (hlen : rest.length < (m.stack (.proc p)).length) (hrest : ∀ i ∈ rest, i.inWait = false) (hs : m.step e = some m') :
    WaitCalls p ((m, e) :: h) m' := by
  obtain ⟨h1, m1, rfl, hr, hcall⟩ := hw
  have hcall' : InCall (.proc p) waitCode rest m1 ((m, e) :: h2) m' := by
    refine ⟨hcall.live, hcall.start, .snoc hcall.path hs, fun x hx => ?_⟩
    rcases List.mem_cons.mp hx with rfl | hx
    · exact hlen
    · exact hcall.inside x hx
  have hwait : Waiting p rest ((m, e) :: h2) ((m, e) :: (h2 ++ h1)) m' := ⟨h1, m1, rfl, hr, hcall'⟩
  obtain ⟨-, u, core, x, -, hnil, hst, -⟩ := hwait.waitPhase
  by_cases hcore : core = []
  · rw [hnil hcore, hcore] at hst
    exact .out fun i hi => hrest i (by rwa [hst] at hi)
  · refine .inside hwait ?_ hrest
    have hpos := List.length_pos_iff.mpr hcore
    simp only [hst, List.length_append]
    omega

/-- A live process whose stack has changed at the top. -/
theorem WaitCalls.push (hw : WaitCalls p h m) (hr : MachineReach C h m) (hs : m.step e = some m')
    (ha' : Alive (m'.mem.state p)) (hst : m.stack (.proc p) = x ++ v) (hst' : m'.stack (.proc p) = k ++ v) (hx : x.length ≤ 1)
    (hk : k.Forall fun i => i.inWait = false ∧ (.user ∉ x → i ≠ .user)) : WaitCalls p ((m, e) :: h) m' := by
  have hk := List.forall_iff_forall_mem.mp hk
  cases hw with
  | inside hwait hlen hrest => exact hwait.step hlen hrest hs
  | out hout =>
    refine .out fun i hi => ?_
    rw [hst'] at hi
    rcases List.mem_append.mp hi with hi | hi
    · exact (hk i hi).1
    · exact hout i (by rw [hst]; exact List.mem_append_right _ hi)
  | @coming u rest hu hne hall hrest =>
    -- the top is not yet the call
    obtain ⟨u', rfl, rfl⟩ : ∃ u', u = x ++ u' ∧ v = u' ++ waitCode ++ rest := by
      rw [hst] at hu
      match x, u, hne, hx with
      | [], u, _, _ => exact ⟨u, rfl, hu⟩
      | [_], j :: u, _, _ =>
        obtain ⟨rfl, rfl⟩ := List.cons_eq_cons.mp hu
        exact ⟨u, rfl, rfl⟩
    have hall' : ∀ i ∈ k ++ u', i.inWait = false ∧ i ≠ .user := by
      intro i hi
      rcases List.mem_append.mp hi with hi | hi
      · exact ⟨(hk i hi).1, (hk i hi).2 fun hu => (hall _ (List.mem_append_left _ hu)).2 rfl⟩
      · exact hall i (List.mem_append_right _ hi)
    by_cases hnil : k ++ u' = []
    · obtain ⟨rfl, rfl⟩ := List.append_eq_nil_iff.mp hnil
      have hlen : rest.length < (m'.stack (.proc p)).length := by
        rw [hst']
        simp only [Call.code, List.nil_append, List.length_append, List.length_cons]
        omega
      refine .inside ⟨_, m', rfl, .snoc hr hs, ⟨fun q hq => ?_, by simpa using hst', .nil, by simp⟩⟩ hlen hrest
      cases hq
      exact ha'
    · exact .coming (by rw [hst']; simp) hnil hall' hrest

theorem WaitCalls.executes (hw : WaitCalls p h m) (hr : MachineReach C h m) (hs : m.step (.run c ch) = some m')
    (ha : Alive (m.mem.state p)) (ha' : Alive (m'.mem.state p)) (ht : m.tid c = .proc p) (hc : m.code c = i :: v)
    (hf : Executes m c ch v i m') : WaitCalls p ((m, .run c ch) :: h) m' := by
  have hst : m.stack (.proc p) = [i] ++ v := by rw [← ht, ← code_eq_stack, hc]; rfl
  obtain ⟨k, hst', hk⟩ : ∃ k, m'.stack (.proc p) = k ++ v ∧ Pushes m c ch i k := by
    rcases hf.stack ht with hst' | ⟨b, rfl, -⟩
    · exact hst'
    · cases hf with
      | schedExit hp hz =>
        cases hp.symm.trans (thread_of_tid ht)
        exact absurd hz ha.2
      | any hx | proc _ hx => cases hx
  by_cases hi : i.inWait = true
  · -- an instruction of `wait` is one of a call
    have hne : i.inWait ≠ false := by simp [hi]
    cases hw with
    | inside hwait hlen hrest => exact hwait.step hlen hrest hs
    | out hout => exact absurd (hout i (by rw [hst]; exact List.mem_cons_self)) hne
    | @coming u rest hu hnil hall =>
      cases u with
      | nil => exact absurd rfl hnil
      | cons j u =>
        obtain ⟨rfl, -⟩ := List.cons_eq_cons.mp (hst.symm.trans hu)
        exact absurd (hall _ List.mem_cons_self).1 hne
  by_cases hcall : i = .user ∧ k = syscallTrap .wait
  swap
  · refine hw.push hr hs ha' hst hst' le_rfl ?_
    refine hk.sources.imp fun x hx => ?_
    obtain ⟨hx, huser⟩ := hx.2 (by simpa using hi) fun hu hk => hcall ⟨hu, hk⟩
    exact ⟨hx, fun hu => huser fun he => hu (by simp [he])⟩
  obtain ⟨rfl, rfl⟩ := hcall
  cases hw with
  | inside hwait hlen hrest => exact hwait.step hlen hrest hs
  | @coming u rest hu hne hall =>
    cases u with
    | nil => exact absurd rfl hne
    | cons j u =>
      obtain ⟨rfl, -⟩ := List.cons_eq_cons.mp (hst.symm.trans hu)
      exact absurd rfl (hall _ List.mem_cons_self).2
  | out hout =>
    have hv : ∀ i ∈ v, i.inWait = false := fun i hi => hout i (by rw [hst]; exact List.mem_append_right _ hi)
    have hafter : ∀ i ∈ afterSyscall, i.inWait = false := by simp [afterSyscall, usertrapret, Instr.inWait]
    have hstack : m'.stack (.proc p) = [.exitIfKilled, .intrOn] ++ waitCode ++ (afterSyscall ++ v) := by
      rw [hst']
      simp [syscallTrap, afterSyscall]
    exact .coming hstack (by simp) (by simp [Instr.inWait]) (List.forall_mem_append.mpr ⟨hafter, hv⟩)

theorem inWait_of_inTrap (hi : i.inTrap = true) : i.inWait = false ∧ i ≠ .user := by
  cases i <;> simp_all [Instr.inTrap, Instr.inWait]

theorem WaitCalls.traps {dev : Dev} (hw : WaitCalls p h m) (hr : MachineReach C h m) (hs : m.step (.intr c dev) = some m')
    (ha' : Alive (m'.mem.state p)) (ht : m.tid c = .proc p) (htr : Traps m c dev m') :
    WaitCalls p ((m, .intr c dev) :: h) m' := by
  have hstack {k : List Instr} : ((m.setCpu c { m.cpu c with intr := false }).setCode c k).stack (.proc p) = k :=
    stack_of_setCode (thread_setCpu rfl) ht
  have hcode : m.stack (.proc p) = m.code c := by rw [code_eq_stack, ht]
  cases htr with
  | @user q v hq hc =>
    refine hw.push (x := [.user]) hr hs ha' (hcode.trans hc) hstack le_rfl ?_
    cases dev with
    | device => simp [intrTrap, devintr, usertrapret, Instr.inWait]
    | timer =>
      unfold intrTrap devintr
      split_ifs <;> simp [clockintrCode, mlfqCheckTimerCode, yieldCode, usertrapret, Instr.inWait]
  | kernel =>
    refine hw.push (x := []) hr hs ha' hcode hstack (by simp) (List.forall_iff_forall_mem.mpr fun i hi => ?_)
    have hi := inWait_of_inTrap ((handler_kerneltrap c dev).1 i hi)
    exact ⟨hi.1, fun _ => hi.2⟩

/-- **The code of `wait` is in calls of `wait`.** -/
theorem MachineReach.waits (hr : MachineReach C h m) (ha : Alive (m.mem.state p)) : WaitCalls p h m := by
  induction hr with
  | nil => exact .out (by simp [stack, Machine.boot, forkret, usertrapret, Instr.inWait])
  | @snoc h m m' e hr hs ih =>
    have hr : MachineReach C h m := hr
    obtain ⟨A, K, hg⟩ := hr.good
    by_cases hal : Alive (m.mem.state p)
    swap
    · -- a new process
      cases e with
      | intr c dev =>
        rcases hg.table_step hs with heq | ⟨_, _, _, _, _, _, he, -⟩
        · rw [Mem.state, heq] at ha
          exact absurd ha hal
        · cases he
      | run c ch =>
        obtain ⟨i, v, hc, hf⟩ := hg.executes hs
        have hu : m.mem.state p = .unused := by
          by_contra hu
          have hz : m.mem.state p = .zombie := by
            by_contra hz
            exact hal ⟨hu, hz⟩
          obtain ⟨c', ch', rest, he, hc'⟩ := hg.unzombie hs hz ha.2
          exact ha.1 (hr.freeproc_step hs (freesAt_iff.mpr (by rw [he]; exact executed_run hc'))).2
        obtain ⟨pid, -, hst⟩ := hg.born_step hc hf hu ha.1
        refine .out ?_
        rw [hst]
        simp [forkret, usertrapret, Instr.inWait]
    have hw := ih hal
    by_cases ht : m.tid e.cpu = .proc p
    · cases e with
      | run c ch =>
        obtain ⟨i, v, hc, hf⟩ := hg.executes hs
        exact hw.executes hr hs hal ha ht hc hf
      | intr c dev => exact hw.traps hr hs ha ht (hg.traps hs).2
    · have hlive : Live m (.proc p) := by
        rintro q ⟨⟩
        exact hal
      exact hw.push (x := []) (k := []) hr hs ha rfl (hg.stack_of_ne hs hlive ht) (by simp) (by simp)

end WaitCalls

/-- Who frees a zombie does so in a call of `wait` that returns its pid. -/
theorem MachineReach.freed_in_wait (hr : MachineReach C h m) (hs : m.step e = some m') (hj : m.mem.state j = .zombie)
    (hj' : m'.mem.state j ≠ .zombie) : ∃ p rest h2, (m.mem.proc j).parent = some p ∧ Waiting p rest h2 h m ∧
      own (.proc p) rest (m, e) = some (.freeproc j) ∧ returned p h2 = [(m.mem.proc j).pid] ∧ freed p rest h2 = [] := by
  obtain ⟨A, K, hg⟩ := hr.good
  obtain ⟨c, ch, v, rfl, hc⟩ := hg.unzombie hs hj hj'
  obtain ⟨p, ht, hpar, -⟩ := hr.freed_by_parent hc
  obtain ⟨R, hk⟩ := hr.kin
  have hstack : m.stack (.proc p) = .freeproc j :: v := by rw [← ht, ← code_eq_stack, hc]
  have hmem : .freeproc j ∈ m.stack (.proc p) := by rw [hstack]; exact List.mem_cons_self
  cases hr.waits (hk.family.parent j p hpar) with
  | out hout => cases hout _ hmem
  | @coming u rest hu hnil hall =>
    cases u with
    | nil => exact absurd rfl hnil
    | cons i u =>
      obtain ⟨rfl, -⟩ := List.cons_eq_cons.mp (hstack.symm.trans hu)
      cases (hall _ List.mem_cons_self).1
  | @inside rest h2 hwait hlen =>
    obtain ⟨hret, hfreed, hown⟩ := hwait.waitPhase.freeproc hlen hc ht
    exact ⟨p, rest, h2, hpar, hwait, hown, hret, hfreed⟩

/-- A `wait` that fails to copy out the status leaves everything as it is. -/
theorem MachineReach.copyFails_step (hr : MachineReach C h m) (hs : m.step e = some m')
    (hx : copyFails p rest (m, e) = true) : m'.mem = m.mem := by
  obtain ⟨A, K, hg⟩ := hr.good
  unfold copyFails at hx
  split at hx
  next j hown =>
    obtain ⟨hz, hch⟩ := of_decide_eq_true hx
    unfold own at hown
    split_ifs at hown
    obtain ⟨c, ch, v, rfl, ht, hc⟩ := exists_of_made hown
    have hz : (m.mem.proc j).state = .zombie := hz
    obtain ⟨d, k, hx, rfl⟩ := (hg.executes_of_code hc hs).expandProc (thread_of_tid ht) rfl
    rw [show ch = .copyout false from hch, Instr.expandProc, if_pos hz] at hx
    cases hx
    rw [setCode_mem]
    rfl
  next => cases hx

/-- What is so of parents, exits and calls of `wait` when the run `h` has come to `m`. -/
structure NoLostExit (h : List (Machine C × Event C)) (m : Machine C) : Prop where
  /- a process has a live parent, or is `USED` and in the `fork` of its parent -/
  parent : ∀ j, j ≠ initproc → m.mem.state j ≠ .unused →
    (∃ q, (m.mem.proc j).parent = some q ∧ Alive (m.mem.state q)) ∨
      (m.mem.proc j).parent = none ∧ m.mem.state j = .used ∧
        ∃ p, Alive (m.mem.state p) ∧ .setParent j ∈ m.procCode p
  /- a process asleep in `wait` has no zombie child, while `wait_lock` is free -/
  asleep : m.holder .wait = none → ∀ p rest h2, Waiting p rest h2 h m → m.mem.state p = .sleeping →
    ∀ j, (m.mem.proc j).parent = some p → m.mem.state j ≠ .zombie
  /- every exit but that of a zombie has been followed by one `freeproc` -/
  exits : ∀ j, exits j h = frees j h + if m.mem.state j = .zombie then 1 else 0
  /- the next step frees a zombie only in a `wait` of its parent that returns its pid and has freed nobody -/
  frees : ∀ j e m', m.step e = some m' → m.mem.state j = .zombie → m'.mem.state j ≠ .zombie →
    ∃ p rest h2, (m.mem.proc j).parent = some p ∧ Waiting p rest h2 h m ∧
      own (.proc p) rest (m, e) = some (.freeproc j) ∧ returned p h2 = [(m.mem.proc j).pid] ∧ freed p rest h2 = []
  /- a `wait` that has returned has returned -1 and freed nobody, or has returned the pid of the only one it freed, and
  no `copyout` has failed -/
  returns : ∀ p rest h2, Waiting p rest h2 h m → m.stack (.proc p) = rest →
    (returned p h2 = [-1] ∧ freed p rest h2 = []) ∨
      ∃ j v, returned p h2 = [v] ∧ freed p rest h2 = [(j, v)] ∧ ∀ y ∈ h2, copyFails p rest y = false
  /- a `copyout` that fails leaves the zombie in place -/
  copyout : ∀ p rest e m', m.step e = some m' → copyFails p rest (m, e) = true → m'.mem = m.mem

/-- **No orphan and no lost exit.** -/
theorem no_lost_exit (hr : MachineReach C h m) : NoLostExit h m where
  parent := fun _ hj hst => hr.parent hj hst
  asleep := fun hl _ _ _ hw hst _ hj => hr.asleep_in_wait hw.waitPhase hst hl hj
  exits := hr.exits_eq
  frees := fun _ _ _ hs hj hj' => hr.freed_in_wait hs hj hj'
  returns := fun _ _ _ hw hret => hw.waitPhase.outcome hret
  copyout := fun _ _ _ _ hs hx => hr.copyFails_step hs hx

/-- A run of one CPU: `initproc` forks, and has called `wait`. -/
def forkThenWait : List (Event 1) :=
  initUser ++ trapTo .fork ++ goOn 15 ++ [.run 0 .leave, .run 0 (.alloc .ok), .run 0 .leave] ++ goOn 20 ++ trapTo .wait

/-- From there, `wait` sleeps, the child exits and `wait` frees it. -/
def waitForChild : List (Event 1) :=
  goOn 107 ++ [.run 0 .leave, .run 0 .leave] ++ goOn 2 ++ [.run 0 (.syscall (.exit 0))] ++ goOn 8 ++
    [.run 0 .leave, .run 0 .leave] ++ goOn 478 ++ [.run 0 (.copyout true), .run 0 .leave] ++ goOn 5

theorem no_lost_exit_init : ∃ (h0 h : List (Machine 1 × Event 1)) (m0 m : Machine 1),
    MachineReach 1 h0 m0 ∧ InCall (.proc initproc) waitCode afterSyscall m0 h m ∧
      returned initproc h = [2] ∧ freed initproc afterSyscall h = [(1, 2)] ∧ NoLostExit (h ++ h0) m := by
  obtain ⟨h0, m0, h, m, hr, hcall, hret, hfreed⟩ := exists_inCall_of_replay waitCode afterSyscall
    (fun _ _ h _ => returned initproc h = [2] ∧ freed initproc afterSyscall h = [(1, 2)]) forkThenWait waitForChild
    (by decide +kernel)
  exact ⟨h0, h, m0, m, hr, hcall, hret, hfreed, no_lost_exit (hr.trans hcall.path)⟩

end Xv6Mlfq
