import Xv6Mlfq.Kernel.Contract

/-!
# Xv6Mlfq.Kernel.Expand — control points and data accesses keep to their contract

`Change` says what an instruction may do to the states of the processes, and what its thread knows
afterwards.  `expandAny_sound`, `expandProc_sound`: a control point leads to code whose contract is its own, and changes
states only in these ways.
-/

namespace Xv6Mlfq

open CInt Function

variable {q : Proc} {p : Slot}
open Abs

@[simp] def Mem.state (d : Mem) (i : Slot) : ProcState := (d.proc i).state

/-- What a thread may do to the state of any process whose lock it holds: `wakeup` and `kill`, or
`freeproc` in `wait`. -/
inductive Moves : ProcState → ProcState → Prop
  | wake : Moves .sleeping .runnable
  | free : Moves .zombie .unused

/-- The effect of an instruction of thread `me` other than `dispatch` and `allocproc`. -/
inductive Change (me : Option Slot) (A : Abs) (d : Mem) : Abs → Mem → Prop
  /-- No process stops running; the thread may have read a state. -/
  | quiet {d' : Mem} {κ : Option (Slot × Fact)}
      (state : ∀ j, d'.state j = d.state j ∨ .proc j ∈ A.held ∧ Moves (d.state j) (d'.state j))
      (know : ∀ x ∈ κ, .proc x.1 ∈ A.held ∧ x.2.Holds (d'.state x.1))
      (cur : κ = A.know ∨ ∀ p, A.cur = some p → me = some p ∧ d.state p = .running) :
      Change me A d { A with know := κ } d'
  /-- The process gives up the CPU. -/
  | leave {p : Slot} {q : Proc} (hme : me = some p) (held : .proc p ∈ A.held) (know : A.know = none)
      (st : q.state = .runnable ∨ q.state = .sleeping ∨ q.state = .zombie ∧ A.kid = none) :
      Change me A d { A with know := some (p, .is q.state) } (d.setProc p q)
  /-- `fork` makes the child runnable. -/
  | ready {p j : Slot} {q : Proc} (hme : me = some p) (kid : A.kid = some j) (held : .proc j ∈ A.held)
      (know : A.know = none) (st : q.state = .runnable) :
      Change me A d { A with kid := none } (d.setProc j q)

/-- What a thread knows fits the machine: `c->proc` is the process whose thread it is, or for the
scheduler thread one it is switching to or from; this process is `RUNNING` unless it is being switched;
and what the thread knows is so. -/
structure Fits (me myproc : Option Slot) (A : Abs) (d : Mem) : Prop where
  cur : A.cur = myproc
  own : ∀ p, me = some p → A.cur = some p
  between : ∀ p, me = none → A.cur = some p → ∃ f, A.know = some (p, f)
  running : ∀ p, A.cur = some p → d.state p = .running ∨ ∃ f, A.know = some (p, f)
  know : ∀ x ∈ A.know, .proc x.1 ∈ A.held ∧ x.2.Holds (d.state x.1)

section

variable {me myproc : Option Slot} {A B : Abs} {d d' : Mem} {i : Instr} {k : List Instr} {ch : Choice} {j : Slot}

theorem setProc_state (d : Mem) (j : Slot) (q : Proc) (i : Slot) :
    (d.setProc j q).state i = if i = j then q.state else d.state i := by
  rw [Mem.state, Mem.setProc_proc, update_apply]
  split_ifs <;> rfl

theorem setProc_state_self (d : Mem) (j : Slot) (q : Proc) : (d.setProc j q).state j = q.state := by
  rw [setProc_state, if_pos rfl]

theorem setProc_state_of_ne (d : Mem) (q : Proc) {i : Slot} (hi : i ≠ j) :
    (d.setProc j q).state i = d.state i := by
  rw [setProc_state, if_neg hi]

theorem setProc_state_eq (hq : q.state = d.state j) (i : Slot) :
    (d.setProc j q).state i = d.state i := by
  rw [setProc_state]
  split_ifs with hi
  · rw [hi, hq]
  · rfl

/-- No state changes. -/
theorem Fits.same (h : Fits me myproc A d) (hst : ∀ j, d'.state j = d.state j) : Change me A d A d' :=
  .quiet (fun j => .inl (hst j)) (fun x hx => by rw [hst]; exact h.know x hx) (.inl rfl)

/-- One process is moved by a thread that knows nothing of it. -/
theorem Change.move (hj : .proc j ∈ A.held)
    (hknow : A.know = none) (hq : q.state = d.state j ∨ Moves (d.state j) q.state) :
    Change me A d A (d.setProc j q) := by
  refine .quiet (fun i => ?_) (fun x hx => ?_) (.inl rfl)
  · by_cases hi : i = j
    · subst hi
      exact hq.imp (by simp) (fun hm => ⟨hj, by simpa using hm⟩)
    · exact .inl (by simp [hi])
  · rw [hknow] at hx; cases hx

/-- A state is read under the lock. -/
theorem Fits.learn (h : Fits me myproc A d) (hj : .proc j ∈ A.held) (hknow : A.know = none) :
    Change me A d { A with know := some (j, .is (d.state j)) } d := by
  refine .quiet (fun i => .inl rfl) (fun x hx => ?_) (.inr fun p hp => ?_)
  · obtain rfl := Option.some.inj hx
    exact ⟨hj, rfl⟩
  · refine ⟨?_, (h.running p hp).resolve_right (by simp [hknow])⟩
    cases hme : me with
    | none => simpa [hknow] using h.between p hme hp
    | some q => exact (h.own q hme).symm.trans hp

theorem check_scanNextCode (q : Fin NMLFQ) (i : Slot) :
    check none (scanNextCode q i) (holding none []) = some (holding none []) := by
  unfold scanNextCode
  split
  · simp
  · split <;> simp

/-- The body of the loop of `wakeup`, under locks that come before a `p->lock`. -/
theorem check_wakeupBody {chan : Chan} (hp : A.pend = 0) (hk : A.know = none)
    (hb : A.Below 1) :
    check me [.acquire (.proc j), .wakeupSlot chan j, .release (.proc j)] A = some A := by
  obtain ⟨held, pend, cur, know, kid⟩ := A
  subst hp hk
  have hb' : ∀ l ∈ held, l.rank = 0 := by simpa using hb
  simp [when_pos hb']

/-- A section of a leaf lock. -/
theorem check_leafSection {k : ℕ} (hp : A.pend = 0) (hb : A.Below 3) :
    check me [.acquire (.leaf k), .release (.leaf k)] A = some A := by
  obtain ⟨held, pend, cur, know, kid⟩ := A
  subst hp
  have hb' : ∀ l ∈ held, l.rank < 3 := hb
  cases know <;> simp [when_pos hb']

theorem expandAny_sound (h : Fits me myproc A d) (hs : i.sig me A = some B)
    (hx : i.expandAny myproc ch d = some (d', k)) :
    ∃ A', check me k A' = some B ∧ Change me A d A' d' := by
  cases i <;> simp only [Instr.expandAny, reduceCtorEq] at hx
  case scheduler | boostTest | recordBoost | scanFrom =>
    obtain ⟨⟨rfl, rfl⟩, rfl⟩ := when_eq_some.mp hs
    repeat' split at hx
    all_goals
      cases hx
      exact ⟨_, by simp, h.same fun _ => rfl⟩
  case boostFrom i =>
    obtain ⟨⟨rfl, rfl⟩, rfl⟩ := when_eq_some.mp hs
    cases hx
    exact ⟨_, Seq.check_append_of (by simp) (check_loop (by simp) i), h.same fun _ => rfl⟩
  case boostSlot i =>
    obtain ⟨⟨rfl, rfl⟩, rfl⟩ := when_eq_some.mp hs
    cases hx
    exact ⟨_, rfl, .move (by simp) rfl (.inl (by simp))⟩
  case scanSlot q i =>
    obtain ⟨⟨rfl, rfl⟩, rfl⟩ := when_eq_some.mp hs
    split_ifs at hx with hr <;> cases hx
    · refine ⟨_, ?_, h.learn (j := i) (by simp) rfl⟩
      simp [hr.1]
    · exact ⟨_, Seq.check_append_of (k := [_]) (by simp) (check_scanNextCode q i),
        h.same fun _ => rfl⟩
  case wakeupFrom chan j =>
    obtain ⟨hA, rfl⟩ := when_eq_some.mp hs
    have hloop : check me (loop (.wakeupFrom chan) j) A = some A :=
      check_loop (f := .wakeupFrom chan) (fun _ => when_pos hA) j
    split_ifs at hx <;> cases hx
    · exact ⟨_, hloop, h.same fun _ => rfl⟩
    · exact ⟨_, Seq.check_append_of (check_wakeupBody hA.1 hA.2.1 hA.2.2) hloop, h.same fun _ => rfl⟩
  case wakeupSlot chan j =>
    obtain ⟨⟨hj, hk⟩, rfl⟩ := when_eq_some.mp hs
    cases hx
    refine ⟨_, rfl, .move hj hk ((Proc.wakeup_state _ _).imp id fun hm => ?_)⟩
    rw [hm.2, Mem.state, hm.1]
    exact .wake
  case tick =>
    obtain ⟨-, rfl⟩ := when_eq_some.mp hs
    cases hx
    exact ⟨_, rfl, h.same fun _ => rfl⟩
  case leafCalls =>
    have hA := (when_eq_some.mp hs).1
    obtain rfl := (when_eq_some.mp hs).2
    split at hx <;> cases hx
    · exact ⟨_, Seq.check_append_of (k := [_, _]) (check_leafSection hA.1 hA.2) ((Seq.check_singleton _ _).trans hs),
        h.same fun _ => rfl⟩
    · exact ⟨_, rfl, h.same fun _ => rfl⟩
  case handler | inHandler =>
    obtain ⟨held, pend, cur, know, kid⟩ := A
    obtain ⟨⟨rfl, rfl, rfl⟩, rfl⟩ := when_eq_some.mp hs
    split at hx <;> cases hx <;> exact ⟨_, by simp, h.same fun _ => rfl⟩
  case timerTail =>
    obtain ⟨⟨hA, hc⟩, rfl⟩ := when_eq_some.mp hs
    split at hx
    next p =>
      obtain rfl : me = some p := hc.symm.trans h.cur
      split_ifs at hx <;> cases hx
      · exact ⟨_, Seq.check_append_of (check_mlfqCheckTimerCode hA) (check_yieldCode hA),
          h.same fun _ => rfl⟩
      · exact ⟨_, rfl, h.same fun _ => rfl⟩
    next =>
      cases hx
      exact ⟨_, rfl, h.same fun _ => rfl⟩

/-- The instructions of processes are for processes. -/
theorem sig_none_of_expandProc (hx : i.expandProc p ch d = some (d', k)) :
    i.sig none A = none := by
  cases i <;> first
    | (simp only [Instr.expandProc, reduceCtorEq] at hx; done)
    | simp [when]

theorem check_waitNext (p k : Slot) (havekids : Bool) :
    check (some p) (match nextSlot k with
      | some j => [.waitFrom j havekids]
      | none => [.waitEnd havekids]) (holding (some p) [.wait]) = some (holding (some p) []) := by
  split <;> simp

theorem expandProc_sound (h : Fits (some p) (some p) A d) (hs : i.sig (some p) A = some B)
    (hx : i.expandProc p ch d = some (d', k)) :
    ∃ A', check (some p) k A' = some B ∧ Change (some p) A d A' d' := by
  cases i <;> simp only [Instr.expandProc, reduceCtorEq] at hx <;>
    simp only [Instr.sig, Option.bind_some, when_eq_some, ne_eq, reduceCtorEq, not_false_eq_true, true_and] at hs
  -- the process gives up the CPU
  case yieldMark =>
    obtain ⟨⟨hh, -, hk⟩, rfl⟩ := hs
    cases hx
    have hm : .proc p ∈ A.held := hh ▸ List.mem_singleton_self _
    exact ⟨_, rfl, .leave (q := (d.proc p).yield) rfl hm hk (.inl rfl)⟩
  case sleepMark chan =>
    obtain ⟨⟨hh, -, hk⟩, rfl⟩ := hs
    cases hx
    have hm : .proc p ∈ A.held := hh ▸ List.mem_singleton_self _
    exact ⟨_, rfl, .leave (q := (d.proc p).sleep chan) rfl hm hk (.inr (.inl rfl))⟩
  case exitMark status =>
    obtain ⟨rfl, rfl⟩ := hs
    cases hx
    exact ⟨_, rfl, .leave (q := (d.proc p).exit status) rfl (List.mem_cons_self ..) rfl
      (.inr (.inr ⟨rfl, rfl⟩))⟩
  -- `fork` ends
  case setRunnable j =>
    obtain ⟨⟨⟨hh, -, hk⟩, hkid⟩, rfl⟩ := hs
    cases hx
    have hm : .proc j ∈ A.held := hh ▸ List.mem_singleton_self _
    exact ⟨_, rfl, .ready rfl hkid hm hk rfl⟩
  -- data other than states
  case tidy | charge | setkilled =>
    obtain ⟨-, rfl⟩ := hs
    cases hx
    exact ⟨_, rfl, h.same (setProc_state_eq (by simp))⟩
  case count =>
    obtain ⟨-, rfl⟩ := hs
    cases hx
    exact ⟨_, rfl, h.same fun _ => rfl⟩
  case setParent j =>
    obtain ⟨-, rfl⟩ := hs
    cases hx
    exact ⟨_, rfl, h.same (setProc_state_eq rfl)⟩
  case reparentFrom j =>
    obtain ⟨rfl, rfl⟩ := hs
    have hloop : check (some p) (loop .reparentFrom j) (holding (some p) [.wait]) =
        some (holding (some p) [.wait]) := check_loop (by simp) j
    split_ifs at hx <;> cases hx
    · exact ⟨_, Seq.check_append_of (k := [_]) (by simp) hloop, h.same (setProc_state_eq rfl)⟩
    · exact ⟨_, hloop, h.same fun _ => rfl⟩
  -- other processes are moved
  case killSlot pid j =>
    obtain ⟨rfl, rfl⟩ := hs
    split_ifs at hx <;> cases hx
    · refine ⟨_, by simp, .move (by simp) rfl ((Proc.kill_state _ _).imp id fun hm => ?_)⟩
      rw [hm.2, Mem.state, hm.1]
      exact .wake
    · exact ⟨_, Seq.check_append_of (k := [_]) (by simp) (check_loop (by simp) j), h.same fun _ => rfl⟩
  case setprioritySlot pid priority j =>
    obtain ⟨rfl, rfl⟩ := hs
    split_ifs at hx <;> cases hx
    · exact ⟨_, by simp, h.same (setProc_state_eq (by simp))⟩
    · exact ⟨_, Seq.check_append_of (k := [_]) (by simp) (check_loop (by simp) j), h.same fun _ => rfl⟩
  case freeproc j =>
    obtain ⟨⟨rfl, hne⟩, rfl⟩ := hs
    cases hx
    have hz : d.state j = .zombie := (h.know _ rfl).2
    refine ⟨_, rfl, .quiet (fun i => ?_) (by simp) (.inr fun q hq => ?_)⟩
    · by_cases hi : i = j
      · subst hi
        refine .inr ⟨by simp, ?_⟩
        rw [hz]
        simpa using Moves.free
      · exact .inl (by simp [hi])
    · refine ⟨hq, (h.running q hq).resolve_right ?_⟩
      rintro ⟨f, hf⟩
      cases hf
      exact hne hq
  -- states are read
  case waitSlot j =>
    obtain ⟨rfl, rfl⟩ := hs
    split_ifs at hx with hz
    · have hne : p ≠ j := by
        rintro rfl
        have hr := (h.running p rfl).resolve_right (by simp)
        rw [Mem.state, hz] at hr
        cases hr
      split at hx <;> cases hx
      · refine ⟨_, ?_, h.learn (j := j) (by simp) rfl⟩
        simp [hz, hne]
      · exact ⟨_, by simp, h.same fun _ => rfl⟩
    · cases hx
      exact ⟨_, Seq.check_append_of (k := [_]) (by simp) (check_waitNext p j true), h.same fun _ => rfl⟩
  case allocSlot j =>
    obtain ⟨rfl, rfl⟩ := hs
    split_ifs at hx with hu <;> cases hx
    · have hne : p ≠ j := by
        rintro rfl
        have hr := (h.running p rfl).resolve_right (by simp)
        rw [Mem.state, hu] at hr
        cases hr
      refine ⟨_, ?_, h.learn (j := j) (by simp) rfl⟩
      simp [hu, hne]
    · exact ⟨_, Seq.check_append_of (k := [_]) (by simp) (check_loop (by simp) j), h.same fun _ => rfl⟩
  -- control
  case killFrom | setpriorityFrom | allocFrom | infoFrom | exitIfKilled | sysSleep | wakeParent | setpriority | waitEnd |
      sleepLoop | getpstat | driver =>
    obtain ⟨rfl, rfl⟩ := hs
    repeat' split at hx
    all_goals cases hx <;> exact ⟨_, by simp, h.same fun _ => rfl⟩
  case statFrom j =>
    obtain ⟨rfl, rfl⟩ := hs
    cases hx
    exact ⟨_, Seq.check_append_of (by simp) (check_loop (by simp) j), h.same fun _ => rfl⟩
  case allocpid j =>
    obtain ⟨⟨rfl, hne⟩, rfl⟩ := hs
    cases hx
    have hpj : p ≠ j := fun e => hne (congrArg some e)
    exact ⟨_, by simp [hpj], h.same fun _ => rfl⟩
  case killedTest =>
    obtain ⟨rfl, rfl⟩ := hs
    cases hx
    refine ⟨_, ?_, h.same fun _ => rfl⟩
    split_ifs <;> simp
  case waitFrom j havekids =>
    obtain ⟨rfl, rfl⟩ := hs
    split_ifs at hx <;> cases hx
    · exact ⟨_, by simp, h.same fun _ => rfl⟩
    · exact ⟨_, check_waitNext p j havekids, h.same fun _ => rfl⟩
  case waitKilled =>
    obtain ⟨rfl, rfl⟩ := hs
    cases hx
    refine ⟨_, ?_, h.same fun _ => rfl⟩
    rw [← List.singleton_append]
    refine Seq.check_append_of (b := holding (some p) [.wait]) (by simp) ?_
    split_ifs
    · simp
    · exact Seq.check_append_of (check_sleepCode p _ rfl) (by simp)
  case sleepKilled ticks0 n =>
    obtain ⟨rfl, rfl⟩ := hs
    cases hx
    refine ⟨_, ?_, h.same fun _ => rfl⟩
    rw [← List.singleton_append]
    refine Seq.check_append_of (b := holding (some p) [.ticks]) (by simp) ?_
    split_ifs
    · simp
    · exact Seq.check_append_of (check_sleepCode p _ rfl) (by simp)
  case infoNext j =>
    obtain ⟨rfl, rfl⟩ := hs
    split at hx <;> cases hx
    refine ⟨_, ?_, h.same fun _ => rfl⟩
    split_ifs
    · exact check_loop (by simp) j
    · rfl
  case inDriver k =>
    obtain ⟨rfl, rfl⟩ := hs
    split at hx <;> cases hx
    case h_3 => exact ⟨_, Seq.check_append_of (check_sleepCode p _ rfl) (by simp), h.same fun _ => rfl⟩
    all_goals exact ⟨_, by simp, h.same fun _ => rfl⟩

end

end Xv6Mlfq
