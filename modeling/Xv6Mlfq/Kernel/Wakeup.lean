import Xv6Mlfq.Kernel.Killed

/-!
# Xv6Mlfq.Kernel.Wakeup — no lost wakeup

`sleep(chan, lk)` takes `p->lock` before it releases `lk`, and `wakeup(chan)` looks at a slot under its lock.  So a waker
that holds `lk` finds a sleeper that has not yet released `lk` not at all, one that has not yet switched out at a lock it
has to wait for, and every other one in its slot.

* `SleepPhase`: how far a call of `sleep` has come, and the lock that protects it there.
* `WakeCode`: how far a call of `wakeup` has come.
* `no_lost_wakeup`: the theorem, and what `wakeup` changes.
-/

namespace Xv6Mlfq

open CInt Function Abs Machine

variable {C n n' : ℕ} {m m0 m' : Machine C} {A : Fin C → Abs} {K : Slot → Option Slot} {c : Fin C}
  {t : Tid C} {p : Slot} {i : Instr} {u core rest : List Instr} {e : Event C} {ch : Choice}
  {h h0 : List (Machine C × Event C)} {chan : Chan} {lk l : Lock}

/-! ## What puts a process to sleep -/

theorem Writes.sleeping {d : Mem} {me : Option Slot} {j : Slot} {q : Proc} (hw : Writes d me ch i j q)
    (hq : q.state = .sleeping) : (d.state j = .sleeping ∧ (q.chan = (d.proc j).chan ∨ me = some j)) ∨
      ∃ chan, i = .sleepMark chan ∧ me = some j ∧ q.chan = chan := by
  cases hw with
  | @sleep p chan ht => exact .inr ⟨chan, rfl, ht, rfl⟩
  | boost => exact .inl ⟨by simpa using hq, .inl (Proc.links_priorityBoost _).chan⟩
  | wakeup =>
    rcases Proc.wakeup_state (d.proc j) _ with he | ⟨-, he⟩
    · exact .inl ⟨he.symm.trans hq, .inl (Proc.links_wakeup _ _).chan⟩
    · cases he.symm.trans hq
  | kill =>
    rcases Proc.kill_state (d.proc j) _ with he | ⟨-, he⟩
    · exact .inl ⟨he.symm.trans hq, .inl (Proc.links_kill _ _).chan⟩
    · cases he.symm.trans hq
  | setprocpriority => exact .inl ⟨by simpa using hq, .inl (Proc.links_setprocpriority _ _ _).chan⟩
  | tidy ht | charge ht | setkilled ht => exact .inl ⟨by simpa using hq, .inr ht⟩
  | reparent | setParent => exact .inl ⟨by simpa using hq, .inl rfl⟩
  | @alloc p j pid r => cases r <;> cases hq
  | dispatch | yield | exit | freeproc | setRunnable => cases hq

/-- A process that is asleep after a step was so before, on the same channel unless it acted itself, or it has just marked
itself. -/
theorem Good.sleeping_step (hg : Good m A K) (hs : m.step e = some m') (hp : m'.mem.state p = .sleeping) :
    (m.mem.state p = .sleeping ∧ ((m'.mem.proc p).chan = (m.mem.proc p).chan ∨ m.tid e.cpu = .proc p)) ∨
      ∃ chan, made (.proc p) (m, e) = some (.sleepMark chan) ∧ (m'.mem.proc p).chan = chan := by
  rcases hg.slot_step hs p with heq | ⟨c, ch, i, rest, q, rfl, hc, hw, heq⟩ <;> rw [Mem.state, heq] at hp
  · exact .inl ⟨hp, .inl (by rw [heq])⟩
  rw [heq]
  rcases hw.sleeping hp with ⟨hst, hchan⟩ | ⟨chan, rfl, ht, hchan⟩
  · exact .inl ⟨hst, hchan.imp id tid_of_some⟩
  · exact .inr ⟨chan, made_run hc (tid_of_some ht), hchan⟩

theorem Good.not_sleeping_step (hg : Good m A K) (hs : m.step e = some m') (hp : m.mem.state p ≠ .sleeping)
    (hm : ∀ chan, made (.proc p) (m, e) ≠ some (.sleepMark chan)) : m'.mem.state p ≠ .sleeping := by
  intro hp'
  rcases hg.sleeping_step hs hp' with ⟨hst, -⟩ | ⟨chan, hmade, -⟩
  · exact hp hst
  · exact hm chan hmade

/-! ## Sleeping -/

/-- What is left of `sleep` once `lk` is released. -/
abbrev fallAsleep (p : Slot) (chan : Chan) (lk : Lock) : List Instr :=
  [.sleepMark chan, .sched, .tidy, .release (.proc p), .acquire lk]

/-- What is left of `sleep` once `sched` has returned. -/
inductive AwakeCode (p : Slot) (lk : Lock) : List Instr → Prop
  | tidy : AwakeCode p lk [.tidy, .release (.proc p), .acquire lk]
  | release : AwakeCode p lk [.release (.proc p), .acquire lk]
  | popOff : AwakeCode p lk [.popOff, .acquire lk]
  | acquire : AwakeCode p lk [.acquire lk]
  | spin : AwakeCode p lk [.spin lk]
  | done : AwakeCode p lk []

/-- Process `p` has switched out in `sleep(chan, lk)`. -/
inductive Past (p : Slot) (chan : Chan) (lk : Lock) (rest : List Instr) (m : Machine C) : Prop
  | parked {b : Bool} : (m.mem.state p = .sleeping → (m.mem.proc p).chan = chan ∧ ∀ c, m.tid c ≠ .proc p) →
      m.stack (.proc p) = .setIntena b :: .tidy :: .release (.proc p) :: .acquire lk :: rest → Past p chan lk rest m
  | awake {u core : List Instr} : m.mem.state p ≠ .sleeping → Handler u → (core = [] → u = []) → AwakeCode p lk core →
      m.stack (.proc p) = u ++ core ++ rest → Past p chan lk rest m

/-- How far process `p` has come in `sleep(chan, lk)`: until it has switched out, its CPU holds `lk`, then `p->lock`. -/
inductive SleepPhase (p : Slot) (chan : Chan) (lk : Lock) (rest : List Instr) (m : Machine C) : Prop
  | called {c : Fin C} : m.tid c = .proc p → m.holder lk = some c →
      m.stack (.proc p) = .acquire (.proc p) :: .release lk :: (fallAsleep p chan lk ++ rest) →
      SleepPhase p chan lk rest m
  | spinning {c : Fin C} : m.tid c = .proc p → m.holder lk = some c →
      m.stack (.proc p) = .spin (.proc p) :: .release lk :: (fallAsleep p chan lk ++ rest) →
      SleepPhase p chan lk rest m
  | locked {c : Fin C} : m.tid c = .proc p → m.holder lk = some c → m.holder (.proc p) = some c → lk ≠ .proc p →
      m.stack (.proc p) = .release lk :: (fallAsleep p chan lk ++ rest) → SleepPhase p chan lk rest m
  | popOff {c : Fin C} : m.tid c = .proc p → m.holder (.proc p) = some c →
      m.stack (.proc p) = .popOff :: (fallAsleep p chan lk ++ rest) → SleepPhase p chan lk rest m
  | drowsy {c : Fin C} : m.tid c = .proc p → m.holder (.proc p) = some c →
      m.stack (.proc p) = fallAsleep p chan lk ++ rest → SleepPhase p chan lk rest m
  | marked {c : Fin C} : m.tid c = .proc p → m.holder (.proc p) = some c →
      (m.mem.state p = .sleeping → (m.mem.proc p).chan = chan) →
      m.stack (.proc p) = .sched :: .tidy :: .release (.proc p) :: .acquire lk :: rest → SleepPhase p chan lk rest m
  | past : Past p chan lk rest m → SleepPhase p chan lk rest m

/-- A CPU that holds a lock takes no interrupt. -/
theorem Good.not_intr (hg : Good m A K) (hl : m.holder l = some c) {dev : Dev} :
    m.step (.intr c dev) ≠ some m' := by
  intro hs
  obtain ⟨hi, -⟩ := hg.traps hs
  have hheld : l ∈ (A c).held := (hg.locked.agrees c l).mp hl
  rw [(hg.has_of_intr hi).1.1] at hheld
  cases hheld

/-- While a CPU holds a lock, its thread acts by its own instructions, and the other CPUs leave it and its locks alone. -/
theorem Good.own_step (hg : Good m A K) (hs : m.step e = some m') (ht : m.tid c = t) (hl : m.holder l = some c)
    (hst : m.stack t = i :: rest) (hlive : Live m t) :
    (m'.stack t = m.stack t ∧ m'.tid c = t ∧ Live m' t ∧ (∀ {l}, m.holder l = some c → m'.holder l = some c) ∧
      e.cpu ≠ c ∧ made t (m, e) = none) ∨
    ∃ ch, e = .run c ch ∧ m.code c = i :: rest ∧ Executes m c ch rest i m' ∧
      ((∀ status, i ≠ .exitMark status) → Live m' t) := by
  by_cases hc : e.cpu = c
  swap
  · have hne : m.tid e.cpu ≠ t := fun he => hc (hg.owned.tid_inj (he.trans ht.symm))
    refine .inl ⟨hg.stack_of_ne hs hlive hne, (hg.tid_of_ne hs hc).trans ht,
      hg.live_step hs hlive (by simp [made_of_ne hne]), fun hl => (hg.holder_step hs hl).resolve_right ?_, hc, made_of_ne hne⟩
    rintro ⟨ch, rest, rfl, -⟩
    exact hc rfl
  cases e with
  | intr c' dev =>
    cases hc
    exact absurd hs (hg.not_intr hl)
  | run c' ch =>
    cases hc
    obtain ⟨i', rest', hcode, hf⟩ := hg.executes hs
    have ht' : m.tid c' = t := ht
    have heq : i' :: rest' = i :: rest := by rw [← hcode, code_eq_stack, ht', hst]
    obtain ⟨rfl, rfl⟩ := List.cons_eq_cons.mp heq
    refine .inr ⟨ch, rfl, hcode, hf, fun hi => hg.live_step hs hlive fun status hx => ?_⟩
    exact hi status (Option.some.inj ((made_run hcode ht').symm.trans hx))

/-- The CPU that executes the thread of `p` from `setIntena` on holds `p->lock`. -/
theorem Good.holder_of_parked (hg : Good m A K) {b : Bool} {k : List Instr} (ht : m.tid c = .proc p)
    (hst : m.stack (.proc p) = .setIntena b :: .tidy :: k) : m.holder (.proc p) = some c := by
  have hc : m.code c = .setIntena b :: .tidy :: k := by rw [code_eq_stack, ht, hst]
  obtain ⟨B, hsig, hrest⟩ := hg.head hc
  cases hsig
  rw [thread_of_tid ht, check, Seq.check_cons] at hrest
  obtain ⟨B', htidy, -⟩ := Option.bind_eq_some_iff.mp hrest
  exact (hg.locked.agrees c _).mpr (when_eq_some.mp htidy).1

/-- **A step after the switch**: the process does not fall asleep again. -/
theorem Past.step (hp : Past p chan lk rest m) (hg : Good m A K) (hlive : Live m (.proc p))
    (hlen : rest.length < (m.stack (.proc p)).length) (hs : m.step e = some m') :
    Past p chan lk rest m' ∧ Live m' (.proc p) ∧ (m.mem.state p ≠ .sleeping → m'.mem.state p ≠ .sleeping) := by
  cases hp with
  | @parked b hfact hst =>
    by_cases hon : ∃ c, m.tid c = .proc p
    · obtain ⟨c, ht⟩ := hon
      have hawake : m.mem.state p ≠ .sleeping := fun he => (hfact he).2 c ht
      rcases hg.own_step hs ht (hg.holder_of_parked ht hst) hst hlive with
        ⟨hst', -, hlive', -, -, hmade⟩ | ⟨ch, rfl, hc, hf, hlive'⟩
      · have hawake' := hg.not_sleeping_step hs hawake (by simp [hmade])
        exact ⟨.parked (fun he => absurd he hawake') (hst'.trans hst), hlive', fun _ => hawake'⟩
      · have hmade : made (.proc p) (m, .run c ch) = some (.setIntena b) := made_run hc ht
        have hawake' := hg.not_sleeping_step hs hawake (by simp [hmade])
        refine ⟨.awake (u := []) hawake' .nil (by simp) .tidy ?_, hlive' (by simp), fun _ => hawake'⟩
        cases hf with
        | setIntena => exact stack_of_setCode (thread_setCpu rfl) ht
        | any hx => cases hx
        | proc _ hx => cases hx
    · -- the process is on no CPU
      have hoff : ∀ c, m.tid c ≠ .proc p := fun c hc => hon ⟨c, hc⟩
      have hmade : made (.proc p) (m, e) = none := made_of_ne (hoff _)
      refine ⟨.parked (b := b) (fun he => ?_) ((hg.stack_of_ne hs hlive (hoff _)).trans hst),
        hg.live_step hs hlive (by simp [hmade]), fun hne => hg.not_sleeping_step hs hne (by simp [hmade])⟩
      rcases hg.sleeping_step hs he with ⟨hsl, hchan⟩ | ⟨chan, hx, -⟩
      · refine ⟨(hchan.resolve_right (hoff _)).trans (hfact hsl).1, fun c hc => ?_⟩
        rcases hg.thread_step hs (thread_of_tid hc) with ht | hrun
        · exact hoff c (tid_of_some ht)
        · cases hsl.symm.trans hrun
      · cases hmade.symm.trans hx
  | @awake u core hst hu hnil hcore hstack =>
    obtain ⟨i, core, rfl⟩ := exists_cons_of_inside hstack hnil hlen
    have hi : i ≠ .user := by cases hcore <;> simp
    rcases hg.frame hs hlive hu hstack hi with
      ⟨u', hu', hst', hlive', hmade⟩ | ⟨rfl, c, ch, rfl, ht, hc, hf, hlive'⟩
    · have hawake' := hg.not_sleeping_step hs hst fun chan hx => by cases (hmade _ hx).1
      exact ⟨.awake hawake' hu' (by simp) hcore hst', hlive', fun _ => hawake'⟩
    · have hmade : made (.proc p) (m, .run c ch) = some i := made_run hc ht
      have hawake' : m'.mem.state p ≠ .sleeping := by
        refine hg.not_sleeping_step hs hst ?_
        rw [hmade]
        cases hcore <;> simp
      have hlive' : Live m' (.proc p) := hlive' (by cases hcore <;> simp)
      have next : ∀ core', AwakeCode p lk core' → m'.stack (.proc p) = core' ++ rest →
          Past p chan lk rest m' ∧ Live m' (.proc p) ∧ (m.mem.state p ≠ .sleeping → m'.mem.state p ≠ .sleeping) :=
        fun core' hcore' hst' => ⟨.awake (u := []) hawake' .nil (fun _ => rfl) hcore' hst', hlive', fun _ => hawake'⟩
      cases hcore with
      | tidy =>
        refine next _ .release ?_
        cases hf with
        | any hx => cases hx
        | proc _ hx =>
          cases hx
          exact stack_of_setCode rfl ht
      | release => exact next _ .popOff (hf.lockOp rfl ht).1
      | popOff => exact next _ .acquire (hf.lockOp rfl ht).1
      | acquire => exact next _ .spin (hf.lockOp rfl ht).1
      | spin => exact next _ .done (hf.lockOp rfl ht).1

/-- **A step in a call of `sleep`.** -/
theorem SleepPhase.step (hp : SleepPhase p chan lk rest m) (hg : Good m A K) (hlive : Live m (.proc p))
    (hlen : rest.length < (m.stack (.proc p)).length) (hs : m.step e = some m') :
    SleepPhase p chan lk rest m' ∧ Live m' (.proc p) := by
  cases hp with
  | past hpast =>
    obtain ⟨hpast', hlive', -⟩ := hpast.step hg hlive hlen hs
    exact ⟨.past hpast', hlive'⟩
  | @called c ht hl hst =>
    rcases hg.own_step hs ht hl hst hlive with
      ⟨hst', ht', hlive', keep, -⟩ | ⟨ch, rfl, -, hf, hlive'⟩
    · exact ⟨.called ht' (keep hl) (hst'.trans hst), hlive'⟩
    · obtain ⟨hst', -, ht'⟩ := hf.lockOp rfl ht
      refine ⟨.spinning ht' ?_ hst', hlive' (by simp)⟩
      rw [hf.eq_acquire, setCode_holder]
      exact hl
  | @spinning c ht hl hst =>
    rcases hg.own_step hs ht hl hst hlive with
      ⟨hst', ht', hlive', keep, -⟩ | ⟨ch, rfl, -, hf, hlive'⟩
    · exact ⟨.spinning ht' (keep hl) (hst'.trans hst), hlive'⟩
    · obtain ⟨hst', -, ht'⟩ := hf.lockOp rfl ht
      obtain ⟨hfree, heq⟩ := hf.eq_spin
      have hne : lk ≠ .proc p := by
        rintro rfl
        cases hl.symm.trans hfree
      refine ⟨.locked ht' ?_ ?_ hne hst', hlive' (by simp)⟩
      · rw [heq, setCode_holder, setHolder_holder, update_of_ne hne]
        exact hl
      · rw [heq, setCode_holder, setHolder_holder, update_self]
  | @locked c ht hl hl' hne hst =>
    rcases hg.own_step hs ht hl hst hlive with
      ⟨hst', ht', hlive', keep, -⟩ | ⟨ch, rfl, -, hf, hlive'⟩
    · exact ⟨.locked ht' (keep hl) (keep hl') hne (hst'.trans hst), hlive'⟩
    · obtain ⟨hst', -, ht'⟩ := hf.lockOp rfl ht
      refine ⟨.popOff ht' ?_ hst', hlive' (by simp)⟩
      rw [hf.eq_release.2, setCode_holder, setHolder_holder, update_of_ne hne.symm]
      exact hl'
  | @popOff c ht hl hst =>
    rcases hg.own_step hs ht hl hst hlive with
      ⟨hst', ht', hlive', keep, -⟩ | ⟨ch, rfl, -, hf, hlive'⟩
    · exact ⟨.popOff ht' (keep hl) (hst'.trans hst), hlive'⟩
    · obtain ⟨hst', -, ht'⟩ := hf.lockOp rfl ht
      refine ⟨.drowsy ht' ?_ hst', hlive' (by simp)⟩
      rw [hf.eq_popOff, setCode_holder]
      exact hl
  | @drowsy c ht hl hst =>
    rcases hg.own_step hs ht hl hst hlive with
      ⟨hst', ht', hlive', keep, -⟩ | ⟨ch, rfl, -, hf, hlive'⟩
    · exact ⟨.drowsy ht' (keep hl) (hst'.trans hst), hlive'⟩
    · refine ⟨?_, hlive' (by simp)⟩
      cases hf with
      | any hx => cases hx
      | proc hp hx =>
        cases hx
        obtain rfl := Option.some.inj (hp.symm.trans (thread_of_tid ht))
        refine .marked (by simpa using ht) (by simpa using hl) (fun _ => ?_) (stack_of_setCode rfl ht)
        simp [Proc.sleep]
  | @marked c ht hl hchan hst =>
    rcases hg.own_step hs ht hl hst hlive with
      ⟨hst', ht', hlive', keep, hc, hmade⟩ | ⟨ch, rfl, -, hf, hlive'⟩
    · refine ⟨.marked ht' (keep hl) (fun he => ?_) (hst'.trans hst), hlive'⟩
      rcases hg.sleeping_step hs he with ⟨hsl, hch⟩ | ⟨chan, hx, -⟩
      · exact (hch.resolve_right fun he => hc (hg.owned.tid_inj (he.trans ht.symm))).trans (hchan hsl)
      · cases hmade.symm.trans hx
    · refine ⟨.past ?_, hlive' (by simp)⟩
      cases hf with
      | any hx => cases hx
      | proc hp hx => cases hx
      | sched =>
        refine .parked (b := (m.cpu c).intena) (fun he => ⟨?_, fun c' hc' => ?_⟩) ?_
        · simpa using hchan (by simpa using he)
        · by_cases hcc : c' = c
          · subst hcc
            rw [tid_of_none (by simp)] at hc'
            cases hc'
          · rw [tid_congr (m := m) (by simp [hcc])] at hc'
            exact hcc (hg.owned.tid_inj (hc'.trans ht.symm))
        · rw [stack_setCpu]
          exact stack_of_setCode rfl ht

/-- Every caller of `sleep(chan, lk)` holds `lk`, which is no `p->lock`. -/
theorem Good.sleep_called (hg : Good m A K) (hlive : Live m (.proc p))
    (hst : m.stack (.proc p) = sleepCode p chan lk ++ rest) :
    ∃ c, m.tid c = .proc p ∧ m.holder lk = some c ∧ ∀ j, lk ≠ .proc j := by
  have hcode : m.procCode p = .acquire (.proc p) :: .release lk :: (fallAsleep p chan lk ++ rest) := hst
  by_cases hon : ∃ c, (m.cpu c).thread = some p
  · obtain ⟨c, ht⟩ := hon
    have hc : m.code c = .acquire (.proc p) :: .release lk :: (fallAsleep p chan lk ++ rest) := by
      rw [code_eq_stack, tid_of_some ht]
      exact hst
    obtain ⟨B, hsig, hrest⟩ := hg.head hc
    obtain ⟨⟨-, hbelow⟩, rfl⟩ := when_eq_some.mp hsig
    rw [check, Seq.check_cons] at hrest
    obtain ⟨B', hrel, hrest⟩ := Option.bind_eq_some_iff.mp hrest
    obtain ⟨⟨-, hmem, -⟩, rfl⟩ := when_eq_some.mp hrel
    rcases List.mem_cons.mp hmem with rfl | hmem
    · -- the mark needs `p->lock`, which would have been held before
      rw [ht, List.cons_append, Seq.check_cons] at hrest
      obtain ⟨B'', hmark, -⟩ := Option.bind_eq_some_iff.mp hrest
      have hheld := (when_eq_some.mp hmark).1.1
      simp only [Abs.release, List.erase_cons_head] at hheld
      have hlt := hbelow (.proc p) (by simp [hheld])
      simp at hlt
    · refine ⟨c, tid_of_some ht, (hg.locked.agrees c lk).mpr hmem, ?_⟩
      rintro j rfl
      have hlt := hbelow _ hmem
      simp at hlt
  · have hcheck := hg.coded.parked p (fun c hc => hon ⟨c, hc⟩) (hlive p rfl)
    rw [hcode, check, Seq.check_cons] at hcheck
    obtain ⟨B, hsig, -⟩ := Option.bind_eq_some_iff.mp hcheck
    simpa using (when_eq_some.mp hsig).1

/-! ## Waking -/

/-- What is left of `wakeup(chan)` when it has passed the slots before `n`. -/
inductive WakeCode (chan : Chan) : ℕ → List Instr → Prop
  | head {j : Slot} : WakeCode chan j [.wakeupFrom chan j]
  | acquire {j : Slot} : WakeCode chan j
      ([.acquire (.proc j), .wakeupSlot chan j, .release (.proc j)] ++ loop (.wakeupFrom chan) j)
  | spin {j : Slot} : WakeCode chan j
      ([.spin (.proc j), .wakeupSlot chan j, .release (.proc j)] ++ loop (.wakeupFrom chan) j)
  | slot {j : Slot} : WakeCode chan j ([.wakeupSlot chan j, .release (.proc j)] ++ loop (.wakeupFrom chan) j)
  | release {j : Slot} : WakeCode chan (j + 1) ([.release (.proc j)] ++ loop (.wakeupFrom chan) j)
  | popOff {j : Slot} : WakeCode chan (j + 1) ([.popOff] ++ loop (.wakeupFrom chan) j)
  | done : WakeCode chan NPROC []

theorem wakeCode_loop (chan : Chan) (j : Slot) : WakeCode chan (j + 1) (loop (.wakeupFrom chan) j) := by
  unfold loop
  cases hj : nextSlot j with
  | some k =>
    have hk := nextSlot_eq_some.mp hj
    rw [← hk]
    exact .head
  | none =>
    rw [succ_eq_of_nextSlot_none hj]
    exact .done

/-- What an instruction of `wakeup(chan)` does on CPU `c`, which has passed the slots before `n`, and `n'` afterwards. -/
inductive WakeStep (chan : Chan) (c : Fin C) (m m' : Machine C) : ℕ → ℕ → Prop
  | quiet {n : ℕ} : m'.mem = m.mem → WakeStep chan c m m' n n
  | skip {j : Slot} : m.tid c = .proc j → (m.code c).head? = some (.wakeupFrom chan j) → m'.mem = m.mem →
      WakeStep chan c m m' j (j + 1)
  | slot {j : Slot} : m.holder (.proc j) = some c → (m.code c).head? = some (.wakeupSlot chan j) →
      m'.mem = m.mem.setProc j ((m.mem.proc j).wakeup chan) → WakeStep chan c m m' j (j + 1)

/-- A CPU that knows no process state executes the thread of its process. -/
theorem Good.tid_of_proc (hg : Good m A K) (hk : (A c).know = none) (hp : (m.cpu c).proc = some p) :
    m.tid c = .proc p := by
  have hf := hg.owned.fits c
  have hcur : (A c).cur = some p := hf.cur.trans hp
  cases ht : (m.cpu c).thread with
  | none =>
    obtain ⟨f, hf'⟩ := hf.between p ht hcur
    cases hk.symm.trans hf'
  | some q =>
    rw [tid_of_some ht, Option.some.inj ((hf.own q ht).symm.trans hcur)]

/-- An instruction of `wakeup`. -/
theorem Good.wakeStep (hg : Good m A K) (hcode : WakeCode chan n (i :: core))
    (hc : m.code c = i :: (core ++ rest)) (hf : Executes m c ch (core ++ rest) i m') (ht : m.tid c = t) :
    ∃ n' core', WakeCode chan n' core' ∧ m'.stack t = core' ++ rest ∧ WakeStep chan c m m' n n' ∧ m'.tid c = t := by
  cases hcode with
  | @head j =>
    cases hf with
    | proc _ hx => cases hx
    | any hx =>
      simp only [Instr.expandAny] at hx
      split_ifs at hx with hj <;> cases hx
      · have htj : m.tid c = .proc j := hg.tid_of_proc (hg.needs hc rfl).2.1 hj
        exact ⟨_, _, wakeCode_loop chan j, stack_of_setCode rfl ht, .skip htj (by simp [hc]) (by simp), by simpa using ht⟩
      · exact ⟨_, _, .acquire, stack_of_setCode rfl ht, .quiet (by simp), by simpa using ht⟩
  | acquire =>
    obtain ⟨hst, hmem, ht'⟩ := hf.lockOp rfl ht
    exact ⟨_, _, .spin, hst, .quiet hmem, ht'⟩
  | spin =>
    obtain ⟨hst, hmem, ht'⟩ := hf.lockOp rfl ht
    exact ⟨_, _, .slot, hst, .quiet hmem, ht'⟩
  | release =>
    obtain ⟨hst, hmem, ht'⟩ := hf.lockOp rfl ht
    exact ⟨_, _, .popOff, hst, .quiet hmem, ht'⟩
  | @popOff j =>
    obtain ⟨hst, hmem, ht'⟩ := hf.lockOp rfl ht
    exact ⟨_, _, wakeCode_loop chan j, hst, .quiet hmem, ht'⟩
  | @slot j =>
    have hl : m.holder (.proc j) = some c := (hg.locked.agrees c _).mpr (hg.needs hc rfl).1
    cases hf with
    | proc _ hx => cases hx
    | any hx =>
      cases hx
      exact ⟨_, _, .release, stack_of_setCode rfl ht, .slot hl (by simp [hc]) (by simp), by simpa using ht⟩

/-- The instructions of `wakeup` are none of `user` and `exit`. -/
theorem WakeCode.head_ne (hcode : WakeCode chan n (i :: core)) : i ≠ .user ∧ ∀ status, i ≠ .exitMark status := by
  cases hcode <;> simp

/-- The step `x` of a call of `wakeup(chan)` changes nothing but the state of a process `SLEEPING` on `chan`, to
`RUNNABLE`. -/
def WakesOnly (chan : Chan) (x : Machine C × Event C) : Prop :=
  ∀ m', x.1.step x.2 = some m' → m'.mem = x.1.mem ∨ ∃ j, x.1.mem.state j = .sleeping ∧ (x.1.mem.proc j).chan = chan ∧
    m'.mem = x.1.mem.setProc j { x.1.mem.proc j with state := .runnable }

theorem WakeStep.wakesOnly (hw : WakeStep chan c m m' n n') (hs : m.step e = some m') :
    WakesOnly chan (m, e) := by
  intro m'' hs'
  obtain rfl := Option.some.inj (hs.symm.trans hs')
  cases hw with
  | quiet hmem | skip _ _ hmem => exact .inl hmem
  | @slot j _ _ hmem =>
    by_cases hj : (m.mem.proc j).state = .sleeping ∧ (m.mem.proc j).chan = chan
    · rw [Proc.wakeup, if_pos hj] at hmem
      exact .inr ⟨j, hj.1, hj.2, hmem⟩
    · rw [Proc.wakeup, if_neg hj] at hmem
      refine .inl (hmem.trans ?_)
      unfold Mem.setProc
      rw [update_eq_self]

/-- Thread `t` is in a call of `wakeup(chan)`, whose steps so far have changed what they may. -/
structure Waking (t : Tid C) (chan : Chan) (rest : List Instr) (h : List (Machine C × Event C)) (m : Machine C) :
    Prop where
  live : Live m t
  code : ∃ u n core, Handler u ∧ (core = [] → u = []) ∧ WakeCode chan n core ∧ m.stack t = u ++ core ++ rest
  only : ∀ x ∈ h, own t rest x ≠ none → WakesOnly chan x

theorem Waking.step (hw : Waking t chan rest h m) (hg : Good m A K) (hlen : rest.length < (m.stack t).length)
    (hs : m.step e = some m') : Waking t chan rest ((m, e) :: h) m' := by
  obtain ⟨hlive, ⟨u, n, core, hu, hnil, hcode, hst⟩, hall⟩ := hw
  obtain ⟨i, core, rfl⟩ := exists_cons_of_inside hst hnil hlen
  obtain ⟨huser, hexit⟩ := hcode.head_ne
  rcases hg.frame hs hlive hu hst huser with
    ⟨u', hu', hst', hlive', hmade⟩ | ⟨rfl, c, ch, rfl, ht, hc, hf, hlive'⟩
  · refine ⟨hlive', ⟨u', n, _, hu', by simp, hcode, hst'⟩, fun x hx hown => ?_⟩
    rcases List.mem_cons.mp hx with rfl | hx
    · exact absurd (own_eq_none hu hst hmade) hown
    · exact hall x hx hown
  · obtain ⟨n', core', hcode', hst', hw, -⟩ := hg.wakeStep hcode hc hf ht
    refine ⟨hlive' hexit, ⟨[], n', core', .nil, fun _ => rfl, hcode', hst'⟩, fun x hx hown => ?_⟩
    rcases List.mem_cons.mp hx with rfl | hx
    · exact hw.wakesOnly hs
    · exact hall x hx hown

/-- **What a call of `wakeup` changes.** -/
theorem InCall.waking (hr : MachineReach C h0 m0) (hcall : InCall t [.wakeupFrom chan 0] rest m0 h m) :
    Waking t chan rest h m := by
  refine hcall.induct hr ⟨hcall.live, ⟨[], _, _, .nil, by simp, .head, hcall.start⟩, by simp⟩ ?_
  exact fun h m e m' A K hg hw hlen hs => hw.step hg hlen hs

/-! ## The waker passes the sleeper's slot -/

/-- A process whose CPU holds `lk` or `p->lock` in a call of `sleep` is about to execute an instruction of `sleep`.  So
where another instruction is next on the CPU of the locks, the process has switched out. -/
theorem SleepPhase.past_of_head (hp : SleepPhase p chan lk rest m) (hg : Good m A K) (hl : m.holder lk = some c)
    (hself : m.tid c = .proc p ∨ m.holder (.proc p) = some c)
    (hi : (m.code c).head? = some (.wakeupFrom chan p) ∨ (m.code c).head? = some (.wakeupSlot chan p)) :
    Past p chan lk rest m := by
  -- the CPU of the sleeper is `c`, and its next instruction is one of `sleep`
  have off : ∀ {i : Instr} {k : List Instr}, m.tid c = .proc p → m.stack (.proc p) = i :: k →
      (i ≠ .wakeupFrom chan p ∧ i ≠ .wakeupSlot chan p) → False := by
    intro i k ht hst hne
    rw [code_eq_stack, ht, hst, List.head?_cons, Option.some_inj, Option.some_inj] at hi
    exact hi.elim hne.1 hne.2
  cases hp with
  | past hpast => exact hpast
  | called ht hl' hst | spinning ht hl' hst | locked ht hl' _ _ hst =>
    obtain rfl := Option.some.inj (hl.symm.trans hl')
    exact (off ht hst (by simp)).elim
  | @popOff c' ht hl' hst | @drowsy c' ht hl' hst | @marked c' ht hl' _ hst =>
    obtain rfl : c = c' := by
      rcases hself with ht' | hl''
      · exact hg.owned.tid_inj (ht'.trans ht.symm)
      · exact Option.some.inj (hl''.symm.trans hl')
    exact (off ht hst (by simp)).elim

/-- The instruction by which the waker passes the sleeper's slot leaves it awake. -/
theorem SleepPhase.awake_of_wakeStep (hp : SleepPhase p chan lk rest m) (hg : Good m A K)
    (hl : m.holder lk = some c) (hw : WakeStep chan c m m' n n') (hn : n ≤ p.val) (hn' : p.val < n') :
    Past p chan lk rest m ∧ m'.mem.state p ≠ .sleeping := by
  cases hw with
  | quiet => omega
  | @skip j ht hi hmem =>
    obtain rfl : j = p := Fin.ext (by omega)
    have hpast := hp.past_of_head hg hl (.inl ht) (.inl hi)
    refine ⟨hpast, ?_⟩
    rw [Mem.state, hmem]
    cases hpast with
    | parked hfact _ => exact fun hst => (hfact hst).2 c ht
    | awake hst => exact hst
  | @slot j hj hi hmem =>
    obtain rfl : j = p := Fin.ext (by omega)
    have hpast := hp.past_of_head hg hl (.inr hj) (.inr hi)
    refine ⟨hpast, ?_⟩
    rw [Mem.state, hmem, Mem.setProc_proc, update_self]
    intro hst
    rcases Proc.wakeup_state (m.mem.proc j) chan with he | ⟨-, he⟩
    · cases hpast with
      | parked hfact _ =>
        rw [Proc.wakeup, if_pos ⟨he.symm.trans hst, (hfact (he.symm.trans hst)).1⟩] at hst
        cases hst
      | awake hne => exact hne (he.symm.trans hst)
    · cases he.symm.trans hst

/-- Thread `t` is in a call of `wakeup(chan)` under `lk` while process `p` is in a call of `sleep(chan, lk)`: when the call
has passed the slot of `p`, the process is awake for good. -/
structure Sweep (p : Slot) (chan : Chan) (lk : Lock) (rest : List Instr) (t : Tid C) (rest' : List Instr)
    (m : Machine C) : Prop where
  phase : SleepPhase p chan lk rest m
  sleeper : Live m (.proc p)
  waker : Live m t
  holds : ∃ c, m.tid c = t ∧ m.holder lk = some c
  code : ∃ n core, WakeCode chan n core ∧ m.stack t = core ++ rest' ∧
    (p.val < n → Past p chan lk rest m ∧ m.mem.state p ≠ .sleeping)

/-- **A step while the waker passes over the slots.** -/
theorem Sweep.step {rest' : List Instr} (hw : Sweep p chan lk rest t rest' m) (hg : Good m A K)
    (hlk : ∀ j, lk ≠ .proc j) (hlen : rest.length < (m.stack (.proc p)).length)
    (hlen' : rest'.length < (m.stack t).length) (hs : m.step e = some m') : Sweep p chan lk rest t rest' m' := by
  obtain ⟨hphase, hlive, hwlive, ⟨c, ht, hl⟩, n, core, hcode, hst, hpassed⟩ := hw
  obtain ⟨hphase', hlive'⟩ := hphase.step hg hlive hlen hs
  -- a process that has been passed stays awake
  have stay : ∀ {n : ℕ}, (p.val < n → Past p chan lk rest m ∧ m.mem.state p ≠ .sleeping) → p.val < n →
      Past p chan lk rest m' ∧ m'.mem.state p ≠ .sleeping := by
    intro n hpassed hn
    obtain ⟨hpast, hne⟩ := hpassed hn
    obtain ⟨hpast', -, hne'⟩ := hpast.step hg hlive hlen hs
    exact ⟨hpast', hne' hne⟩
  obtain ⟨i, core, rfl⟩ := exists_cons_of_inside (u := []) hst (fun _ => rfl) hlen'
  obtain ⟨huser, hexit⟩ := hcode.head_ne
  rcases hg.own_step hs ht hl hst hwlive with ⟨hst', ht', hwlive', keep, -⟩ | ⟨ch, rfl, hc, hf, hwlive'⟩
  · exact ⟨hphase', hlive', hwlive', ⟨c, ht', keep hl⟩, n, _, hcode, hst'.trans hst, stay hpassed⟩
  · obtain ⟨n', core', hcode', hst', hstep, ht'⟩ := hg.wakeStep hcode hc hf ht
    refine ⟨hphase', hlive', hwlive' hexit, ⟨c, ht', ?_⟩, n', core', hcode', hst', fun hn' => ?_⟩
    · rcases hg.holder_step hs hl with hl' | ⟨ch, k, -, hrel⟩
      · exact hl'
      · -- `wakeup` releases the locks of slots only
        obtain ⟨rfl, -⟩ := List.cons_eq_cons.mp (hc.symm.trans hrel)
        cases hcode
        exact absurd rfl (hlk _)
    · by_cases hn : p.val < n
      · exact stay hpassed hn
      · obtain ⟨hpast, hne'⟩ := hphase.awake_of_wakeStep hg hl hstep (by omega) hn'
        exact ⟨(hpast.step hg hlive hlen hs).1, hne'⟩

/-- A call of `sleep`, up to its return. -/
theorem InCall.sleepPhase (hr : MachineReach C h0 m0) (hcall : InCall (.proc p) (sleepCode p chan lk) rest m0 h m) :
    SleepPhase p chan lk rest m ∧ Live m (.proc p) := by
  obtain ⟨A, K, hg⟩ := MachineReach.good hr
  obtain ⟨c, ht, hl, -⟩ := hg.sleep_called hcall.live hcall.start
  refine hcall.induct hr (I := fun _ m => SleepPhase p chan lk rest m ∧ Live m (.proc p))
    ⟨.called ht hl hcall.start, hcall.live⟩ ?_
  exact fun h m e m' A K hg hp hlen hs => hp.1.step hg hp.2 hlen hs

/-- The call of `wakeup` comes to its end. -/
theorem WakeCode.eq_nil (hcode : WakeCode chan n []) : n = NPROC := by
  generalize hk : ([] : List Instr) = k at hcode
  cases hcode with
  | done => rfl
  | _ => cases hk

/-- **No lost wakeup.**  A process calls `sleep(chan, lk)` with `lk` held, which it has held since it tested its condition.
So a `wakeup(chan)` under `lk` that starts after the test starts in the call; from its end until `sleep` returns the process
is not `SLEEPING`.  And a call of `wakeup(chan)` changes nothing but the state of processes `SLEEPING` on `chan`, to
`RUNNABLE`. -/
theorem no_lost_wakeup (hr : MachineReach C h0 m0) :
    (∀ p chan lk rest, Live m0 (.proc p) → m0.stack (.proc p) = sleepCode p chan lk ++ rest →
      ∃ c, m0.tid c = .proc p ∧ m0.holder lk = some c) ∧
    (∀ p chan lk rest h1 m1 t rest' h2 m2 h3 m3, InCall (.proc p) (sleepCode p chan lk) rest m0 h1 m1 →
      InCall t [.wakeupFrom chan 0] rest' m1 h2 m2 → m2.stack t = rest' → (∃ c, m1.tid c = t ∧ m1.holder lk = some c) →
      Lts.Path Machine.step m2 h3 m3 → (∀ x ∈ h3 ++ h2, rest.length < (x.1.stack (.proc p)).length) →
      m3.mem.state p ≠ .sleeping) ∧
    (∀ t chan rest h m, InCall t [.wakeupFrom chan 0] rest m0 h m →
      ∀ x ∈ h, own t rest x ≠ none → WakesOnly chan x) := by
  refine ⟨fun p chan lk rest hlive hst => ?_, ?_, fun t chan rest h m hcall => (hcall.waking hr).only⟩
  · obtain ⟨A, K, hg⟩ := MachineReach.good hr
    obtain ⟨c, ht, hl, -⟩ := hg.sleep_called hlive hst
    exact ⟨c, ht, hl⟩
  intro p chan lk rest h1 m1 t rest' h2 m2 h3 m3 hsleep hwake hdone hheld hafter hin
  obtain ⟨A, K, hg⟩ := MachineReach.good hr
  obtain ⟨-, -, -, hlk⟩ := hg.sleep_called hsleep.live hsleep.start
  obtain ⟨hphase, hlive⟩ := hsleep.sleepPhase hr
  have hr1 := hr.trans hsleep.path
  -- the waker passes over all slots
  have hsweep : Sweep p chan lk rest t rest' m2 := by
    have hin2 : ∀ x ∈ h2, rest.length < (x.1.stack (.proc p)).length := fun x hx => hin x (List.mem_append_right _ hx)
    refine hwake.induct hr1 (I := fun h m => (∀ x ∈ h, rest.length < (x.1.stack (.proc p)).length) →
      Sweep p chan lk rest t rest' m)
      (fun _ => ⟨hphase, hlive, hwake.live, hheld, _, _, .head, hwake.start, fun hn => absurd hn (Nat.not_lt_zero _)⟩) ?_ hin2
    intro h m e m' A K hg ih hlen' hs hin'
    exact (ih fun x hx => hin' x (List.mem_cons_of_mem _ hx)).step hg hlk (hin' _ List.mem_cons_self) hlen' hs
  obtain ⟨n, core, hcode, hst, hpassed⟩ := hsweep.code
  obtain rfl : core = [] := List.append_left_eq_self.mp (hst.symm.trans hdone)
  obtain ⟨hpast, hawake⟩ := hpassed (by rw [hcode.eq_nil]; exact p.isLt)
  -- and the process stays awake
  have hend : Past p chan lk rest m3 ∧ Live m3 (.proc p) ∧ m3.mem.state p ≠ .sleeping := by
    have hin3 : ∀ x ∈ h3, rest.length < (x.1.stack (.proc p)).length := fun x hx => hin x (List.mem_append_left _ hx)
    clear hin
    induction hafter with
    | nil => exact ⟨hpast, hsweep.sleeper, hawake⟩
    | @snoc h m m' e hp hs ih =>
      obtain ⟨hpast, hlive, hawake⟩ := ih fun x hx => hin3 x (List.mem_cons_of_mem _ hx)
      obtain ⟨A, K, hg⟩ := MachineReach.good ((hr1.trans hwake.path).trans hp)
      obtain ⟨hpast', hlive', hkeep⟩ := hpast.step hg hlive (hin3 _ List.mem_cons_self) hs
      exact ⟨hpast', hlive', hkeep hawake⟩
  exact hend.2.2

/-- `initproc` sleeps in `sleep(1)`, and the timer interrupt of the idle scheduler wakes it. -/
theorem no_lost_wakeup_clock : ∃ (h0 : List (Machine 1 × Event 1)) (m0 : Machine 1) (rest : List Instr)
    (h1 : List (Machine 1 × Event 1)) (m1 : Machine 1) (rest' : List Instr) (h2 : List (Machine 1 × Event 1))
    (m2 : Machine 1), MachineReach 1 h0 m0 ∧
      InCall (.proc initproc) (sleepCode initproc .ticks .ticks) rest m0 h1 m1 ∧ m1.mem.state initproc = .sleeping ∧
      InCall (.sched 0) [.wakeupFrom .ticks 0] rest' m1 h2 m2 ∧ m1.holder .ticks = some 0 ∧
      m2.mem.state initproc ≠ .sleeping := by
  let rest : List Instr := .sleepLoop 0 1 :: afterSyscall
  let rest' : List Instr := [.release .ticks, .timerTail, .sret, .acquire .mlfq, .boostTest]
  obtain ⟨h0, m0, h1, m1, hr0, hsleep, hsl, hnext⟩ := exists_inCall_of_replay (sleepCode initproc .ticks .ticks) rest
    (fun _ _ _ m1 => m1.mem.state initproc = .sleeping ∧ ((Lts.replay Machine.step [] m1 (goOn 384)).any fun y =>
      decide ((m1.stack (.sched 0) = .wakeupFrom .ticks 0 :: rest' ∧ y.2.stack (.sched 0) = rest' ∧
        m1.tid 0 = .sched 0 ∧ m1.holder .ticks = some 0) ∧ (∀ x ∈ y.1, rest'.length < (x.1.stack (.sched 0)).length) ∧
        ∀ x ∈ y.1, rest.length < (x.1.stack (.proc initproc)).length)) = true)
    (initUser ++ trapTo (.sleep 1) ++ goOn 9) (goOn 11 ++ [.intr 0 .timer] ++ goOn 3) (by decide +kernel)
  obtain ⟨h2, m2, hp2, ⟨hstart, hdone, ht, hl⟩, hin2, hin⟩ := Lts.exists_path_of_replay
    (fun h2 (m2 : Machine 1) => (m1.stack (.sched 0) = .wakeupFrom .ticks 0 :: rest' ∧ m2.stack (.sched 0) = rest' ∧
      m1.tid 0 = .sched 0 ∧ m1.holder .ticks = some 0) ∧ (∀ x ∈ h2, rest'.length < (x.1.stack (.sched 0)).length) ∧
      ∀ x ∈ h2, rest.length < (x.1.stack (.proc initproc)).length) _ hnext
  have hwake : InCall (.sched 0) [.wakeupFrom .ticks 0] rest' m1 h2 m2 := ⟨by simp [Live], hstart, hp2, hin2⟩
  refine ⟨h0, m0, rest, h1, m1, rest', h2, m2, hr0, hsleep, hsl, hwake, hl, ?_⟩
  exact (no_lost_wakeup hr0).2.1 _ _ _ _ _ _ _ _ _ _ _ _ hsleep hwake hdone ⟨0, ht, hl⟩ .nil (by simpa using hin)

end Xv6Mlfq
