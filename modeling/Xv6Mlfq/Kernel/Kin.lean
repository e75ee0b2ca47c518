import Xv6Mlfq.Kernel.Simulation
import Xv6Mlfq.Kernel.Family

/-!
# Xv6Mlfq.Kernel.Kin — the machine keeps to the roles

`Instr.kin p Q r` says that process `p` in role `r` may execute an instruction, and that `Q` is so of its role when it gets
past it; `kin` is the same of code.  `Kin m R` relates a machine to roles: the code of every process fits its role, and who
is in a role under `wait_lock` holds it.  Every step of the machine is a step of the family (`Kin.step`).
-/

namespace Xv6Mlfq

open CInt Function Abs Machine

variable {C : ℕ} {k : List Instr} {d : Mem} {me : Option Slot} {j q : Slot}

/-- The roles in which an interrupt may come. -/
@[simp] def Role.idle : Role → Bool
  | calm | nap | fork _ | born _ | slept | gone => true
  | _ => false

/-- The channel of a parent. -/
def parentChan : Option Slot → Chan
  | some i => .proc i
  | none => .null

/-- Process `p` in role `r` may execute the instruction, and is in a role of `Q` if it gets past it. -/
@[simp] def Instr.kin (p : Slot) (i : Instr) (Q : Role → Prop) (r : Role) : Prop :=
  match i with
  | .acquire l | .spin l =>
    if l = .wait then r = .calm ∧ (Q (.clear 0 NPROC) ∨ Q (.scan 0)) ∨ ∃ j, r = .fork j ∧ Q (.forkHeld j)
    else r.dozes = false ∧ Q r
  | .release l =>
    if l = .wait then
      (∃ n, r = .scan n ∧ Q .calm) ∨ r = .scan NPROC ∧ Q .doze ∨ (r = .gone ∨ ∃ j, r = .born j) ∧ Q r
    else r.dozes = false ∧ Q r
  | .popOff => r = .dozeOff ∧ Q .doze ∨ r.dozes = false ∧ Q r
  | .leafCalls => r.dozes = false ∧ Q r
  -- the handlers, and giving up the CPU
  | .intrOn | .intrOff | .sret | .setIntena _ | .sched | .yieldMark | .charge | .count | .tick | .handler | .inHandler _
  | .timerTail => r.idle = true ∧ Q r
  | .sleepMark chan => r = .calm ∧ Q .nap ∨ r = .doze ∧ chan = .proc p ∧ Q .slept
  | .tidy => r = .slept ∧ Q .calm ∨ r = .nap ∧ Q .nap
  | .sleepLoop _ _ | .inDriver _ => (r = .calm ∨ r = .nap) ∧ Q .calm
  -- `wakeup`, in `exit` or not
  | .wakeupFrom chan j => r.idle = true ∧ Q r ∨ (∃ n, r = .clear n j ∧ chan = .proc initproc ∧ Q (.clear n NPROC)) ∧ p ≠ initproc ∨
      ∃ o, r = .tell o j ∧ chan = parentChan o ∧ Q (.tell o NPROC)
  | .wakeupSlot chan j => r.idle = true ∧ Q r ∨ (∃ n, r = .clear n j ∧ chan = .proc initproc ∧ Q (.clear n (j + 1))) ∨
      ∃ o, r = .tell o j ∧ chan = parentChan o ∧ Q (.tell o (j + 1))
  -- `exit`
  | .exit _ | .hang => r = .calm
  | .reparentFrom j => p ≠ initproc ∧ r = .clear j NPROC ∧ Q (.clear NPROC NPROC)
  | .wakeParent _ => p ≠ initproc ∧ r = .clear NPROC NPROC
  | .exitMark _ => p ≠ initproc ∧ (∃ o, r = .tell o NPROC) ∧ Q .gone
  | .schedExit | .zombieExit => r = .gone
  -- `wait`
  | .waitFrom j _ => r = .scan j ∧ Q .calm
  | .waitSlot j => r = .look j ∧ Q .calm
  | .freeproc j => r = .found j ∧ Q (.scan 0)
  | .waitEnd _ | .waitKilled => r = .scan NPROC ∧ Q .calm
  -- `fork`
  | .setParent j => r = .forkHeld j ∧ Q (.born j)
  | .setRunnable j => r = .born j ∧ Q .calm
  -- other system calls
  | .killFrom _ _ | .killSlot _ _ | .setpriority _ _ | .setpriorityFrom _ _ _ | .setprioritySlot _ _ _ | .exitIfKilled
  | .killedTest | .setkilled | .allocFrom _ | .allocSlot _ | .allocpid _ | .alloc _ _ | .infoFrom _ | .infoNext _
  | .getpstat | .statFrom _ | .sysSleep _ | .sleepKilled _ _ | .driver | .user => r = .calm ∧ Q .calm
  -- the scheduler thread
  | .scheduler | .boostTest | .recordBoost | .boostFrom _ | .boostSlot _ | .scanFrom _ _ | .scanSlot _ _ | .dispatch _
  | .swtch _ | .clearProc => False

/-- Code. -/
abbrev kin (p : Slot) (k : List Instr) (Q : Role → Prop) : Role → Prop := k.foldr (Instr.kin p) Q

/-- What goes on between a machine and the roles of its processes. -/
structure Kin {C : ℕ} (m : Machine C) (R : Slot → Role) : Prop where
  family : Family m.mem.proc R
  code : ∀ p, m.mem.state p ≠ .unused → kin p (m.procCode p) (· = .calm) (R p)
  holds : ∀ p, (R p).holds = true → ∃ c, m.tid c = .proc p ∧ m.holder .wait = some c
  dozes : ∀ p, (R p).dozes = true → ∃ c, m.tid c = .proc p ∧ m.holder (.proc p) = some c

/-! ## The functions -/

section Code

variable {p j : Slot} {Q : Role → Prop} {r : Role}

theorem kin_append {k' : List Instr} : kin p (k ++ k') Q r ↔ kin p k (kin p k' Q) r := by
  rw [kin, List.foldr_append]

@[simp] theorem kin_loop {f : Slot → Instr} {i : Slot} : (loop f i).foldr (Instr.kin p) Q r ↔
    (∀ j, nextSlot i = some j → (f j).kin p Q r) ∧ (nextSlot i = none → Q r) := by
  unfold loop
  cases nextSlot i <;> simp

theorem kin_yieldCode (hr : r.idle = true) (hQ : Q r) : kin p (yieldCode p) Q r := by
  cases r <;> simp_all [yieldCode]

theorem kin_mlfqCheckTimerCode (hr : r.idle = true) (hQ : Q r) : kin p (mlfqCheckTimerCode p) Q r := by
  cases r <;> simp_all [mlfqCheckTimerCode]

theorem kin_clockintrCode (hr : r.idle = true) (hQ : Q r) : kin p clockintrCode Q r := by
  cases r <;> simp_all [clockintrCode]

/-- `sleep` in `wait`. -/
theorem kin_sleepCode_wait (hQ : Q (.scan 0)) : kin p (sleepCode p (.proc p) .wait) Q (.scan NPROC) := by
  simp [sleepCode, hQ]

/-- `sleep` elsewhere. -/
theorem kin_sleepCode {chan : Chan} {lk : Lock} (hlk : lk ≠ .wait) (hQ : Q .nap) : kin p (sleepCode p chan lk) Q .calm := by
  simp [sleepCode, hQ, hlk]

theorem kin_usertrapret (hQ : Q .calm) : kin p usertrapret Q .calm := by
  simp [usertrapret, hQ]

theorem kin_forkret (hQ : Q .calm) : kin p (forkret p) Q .calm := by
  simp [forkret, usertrapret, hQ]

theorem kin_forkTail (hQ : Q .calm) : kin p (forkTail j) Q (.fork j) := by
  simp [forkTail, hQ]

theorem kin_exitCode {status : ℤ} (hp : p ≠ initproc) : kin p (exitCode status) Q .calm := by
  simp [exitCode, hp]

theorem kin_syscallTrap (call : Call) (hQ : Q .calm) : kin p (syscallTrap call) Q .calm := by
  cases call <;> simp [syscallTrap, Call.code, usertrapret, hQ]

theorem kin_faultTrap (hQ : Q .calm) : kin p (faultTrap p) Q .calm := by
  simp [faultTrap, usertrapret, hQ]

theorem kin_devintr (c : Fin C) (dev : Dev) (hr : r.idle = true) (hQ : Q r) : kin p (devintr c dev) Q r := by
  cases dev with
  | timer =>
    unfold devintr
    split_ifs
    · exact kin_clockintrCode hr hQ
    · exact hQ
  | device => exact ⟨hr, hQ⟩

theorem kin_intrTrap (c : Fin C) (dev : Dev) (hQ : Q .calm) : kin p (intrTrap c p dev) Q .calm := by
  refine kin_append.mpr (kin_append.mpr (kin_append.mpr (kin_devintr c dev rfl ⟨rfl, ?_⟩)))
  cases dev with
  | timer => exact kin_append.mpr (kin_mlfqCheckTimerCode rfl (kin_yieldCode rfl (kin_usertrapret hQ)))
  | device => exact kin_usertrapret hQ

theorem kin_kerneltrap (c : Fin C) (dev : Dev) (hr : r.idle = true) (hQ : Q r) : kin p (kerneltrap c dev) Q r := by
  refine kin_append.mpr (kin_append.mpr (kin_devintr c dev hr ?_))
  cases dev with
  | timer => exact ⟨hr, hr, hQ⟩
  | device => exact ⟨hr, hQ⟩

theorem Role.creates_eq_some : r.creates = some j ↔ r = .fork j ∨ r = .forkHeld j := by
  cases r <;> simp

/-- A process that creates a child sets its parent before anything else changes. -/
theorem Instr.kin_creates {i : Instr} (h : i.kin p Q r) (hr : r.creates = some j) :
    i = .setParent j ∨ ∃ r', r'.creates = some j ∧ Q r' := by
  have keep : Q r → i = .setParent j ∨ ∃ r', r'.creates = some j ∧ Q r' := fun hQ => .inr ⟨r, hr, hQ⟩
  rcases Role.creates_eq_some.mp hr with rfl | rfl
  · cases i <;> simp only [Instr.kin, reduceCtorEq, Role.dozes, Role.idle, false_and, and_false, false_or, or_false,
      exists_false, true_and, Role.fork.injEq] at h
    case acquire l | spin l =>
      split_ifs at h
      · obtain ⟨j', rfl, hQ⟩ := h
        exact .inr ⟨_, rfl, hQ⟩
      · exact keep h
    case release l =>
      split_ifs at h
      exact keep h
    all_goals exact keep h
  · cases i <;> simp only [Instr.kin, reduceCtorEq, Role.dozes, Role.idle, false_and, and_false, false_or, or_false,
      exists_false, true_and, Role.forkHeld.injEq, Bool.false_eq_true] at h
    case acquire l | spin l | release l =>
      split_ifs at h
      exact keep h
    case setParent j' =>
      rw [h.1]
      exact .inl rfl
    all_goals exact keep h

/-! The loop of `wakeup` after slot `j`, in `exit`. -/

theorem kin_wakeupInit {n : ℕ} (hp : p ≠ initproc) (hQ : Q (.clear n NPROC)) :
    kin p (loop (.wakeupFrom (.proc initproc)) j) Q (.clear n (j + 1)) := by
  refine kin_loop.mpr ⟨fun k hk => .inr (.inl ⟨⟨n, ?_, rfl, hQ⟩, hp⟩), fun hn => ?_⟩
  · rw [nextSlot_eq_some.mp hk]
  · rwa [succ_eq_of_nextSlot_none hn]

theorem kin_wakeupParent {o : Option Slot} (hQ : Q (.tell o NPROC)) :
    kin p (loop (.wakeupFrom (parentChan o)) j) Q (.tell o (j + 1)) := by
  refine kin_loop.mpr ⟨fun k hk => .inr (.inr ⟨o, ?_, rfl, hQ⟩), fun hn => ?_⟩
  · rw [nextSlot_eq_some.mp hk]
  · rwa [succ_eq_of_nextSlot_none hn]

/-- The loop of `wait` after slot `j`. -/
theorem kin_waitNext {havekids : Bool} (hQ : kin p k Q .calm) :
    kin p ((match nextSlot j with | some i => [.waitFrom i havekids] | none => [.waitEnd havekids]) ++ k) Q
      (.scan (j + 1)) := by
  cases hn : nextSlot j with
  | some i => exact ⟨by rw [nextSlot_eq_some.mp hn], hQ⟩
  | none => exact ⟨by rw [succ_eq_of_nextSlot_none hn], hQ⟩

theorem Role.dozes_of_idle (hr : r.idle = true) : r.dozes = false := by
  cases r <;> simp_all

/-- A child whose parent is not set yet is about to get one. -/
theorem setParent_mem_of_kin (h : kin p k (· = .calm) r) (hr : r.creates = some j) :
    .setParent j ∈ k := by
  induction k generalizing r with
  | nil =>
    have hc : r = .calm := h
    rw [hc] at hr
    cases hr
  | cons i k ih =>
    rcases Instr.kin_creates h hr with rfl | ⟨r', hr', hk⟩
    · exact List.mem_cons_self
    · exact List.mem_cons_of_mem _ (ih hk hr')

end Code

/-! ## Instructions that keep the role -/

section Step

variable {C : ℕ} {m m' : Machine C} {A : Fin C → Abs} {K : Slot → Option Slot} {c : Fin C} {p : Slot} {i : Instr}
  {rest k : List Instr} {e : Event C} {ch : Choice} {R : Slot → Role} {Q : Role → Prop} {r : Role}
  {h : List (Machine C × Event C)}

/-- The instructions that may turn a process to another role. -/
def Instr.turns : Instr → Bool
  | .spin _ | .release _ | .popOff | .tidy | .sleepMark _ | .sleepLoop _ _ | .inDriver _ | .wakeupFrom _ _
  | .wakeupSlot _ _ | .exit _ | .reparentFrom _ | .wakeParent _ | .exitMark _ | .schedExit | .waitFrom _ _ | .waitSlot _
  | .freeproc _ | .alloc _ _ | .setParent _ | .setRunnable _ => true
  | _ => false

/-- The code that the other instructions lead to. -/
theorem Pushes.kin (hp : Pushes m c ch i k) (ht : (m.cpu c).thread = some p) (hmy : (m.cpu c).proc = some p)
    (hi : i.turns = false) (hk : i.kin p Q r) : kin p k Q r := by
  cases hp with
  | lockOp hl =>
    cases i <;> cases hl <;> first | exact hk | cases hi
  | cpuOp hcpu =>
    cases i <;> cases hcpu <;> simp only [Instr.kin] at hk
    all_goals exact hk.2
  | sched => exact hk
  | initExiting | exit | allocOk | allocFail => cases hi
  | syscall hch =>
    obtain ⟨rfl, hQ⟩ := hk
    exact kin_syscallTrap _ hQ
  | fault ht' =>
    obtain rfl := Option.some.inj (ht.symm.trans ht')
    obtain ⟨rfl, hQ⟩ := hk
    exact kin_faultTrap hQ
  | any hx =>
    cases i <;> simp only [Instr.expandAny, reduceCtorEq, Option.some.injEq, Prod.mk.injEq] at hx <;>
      simp only [Instr.kin] at hk
    case wakeupFrom | wakeupSlot => cases hi
    case tick =>
      obtain ⟨rfl, rfl⟩ := hx
      exact hk.2
    case leafCalls => split at hx <;> cases hx <;> simp [-Role.dozes, hk]
    case handler | inHandler =>
      obtain ⟨hr, hQ⟩ := hk
      split at hx <;> cases hx <;> cases r <;> simp_all
    case timerTail =>
      obtain ⟨hr, hQ⟩ := hk
      rw [hmy] at hx
      simp only at hx
      split_ifs at hx <;> cases hx
      · exact kin_append.mpr (kin_mlfqCheckTimerCode hr (kin_yieldCode hr hQ))
      · exact hQ
  | proc ht' hx =>
    obtain rfl := Option.some.inj (ht.symm.trans ht')
    cases i <;> simp only [Instr.expandProc, reduceCtorEq] at hx <;>
      simp only [Instr.turns, Bool.true_eq_false] at hi <;> simp only [Instr.kin] at hk
    case yieldMark | charge | count =>
      cases hx
      exact hk.2
    all_goals obtain ⟨rfl, hQ⟩ := hk
    case setkilled =>
      cases hx
      exact hQ
    case waitKilled =>
      cases hx
      split_ifs
      · simp [hQ]
      · exact ⟨rfl, kin_append.mpr (kin_sleepCode_wait ⟨rfl, hQ⟩)⟩
    case sleepKilled =>
      cases hx
      split_ifs
      · simp [hQ]
      · exact ⟨rfl, kin_append.mpr (kin_sleepCode (by simp) ⟨.inr rfl, hQ⟩)⟩
    all_goals
      repeat' split at hx
      all_goals cases hx <;> simp [hQ]

/-! ## Instructions that turn the role -/

/-- Process `p` executes instruction `i`: its step in the family, and the code it has left. -/
structure Turns (m m' : Machine C) (R R' : Slot → Role) (c : Fin C) (p : Slot) (i : Instr) : Prop where
  acts : Acts p m.mem.proc R m'.mem.proc R'
  code : kin p (m'.stack (.proc p)) (· = .calm) (R' p)
  others : ∀ q ≠ p, R' q = R q ∨ m.mem.state q = .unused ∧ R' q = .calm
  holds : (R' p).holds = true → (R p).holds = true ∧ i ≠ .release .wait ∨ i = .spin .wait
  dozes : (R' p).dozes = true → m.holder (.proc p) = some c ∧ i ≠ .release (.proc p)
  stays : i = .sched ∨ i = .schedExit → (R' p).idle = true
  born : ∀ q pid, i = .alloc q pid → m'.mem.state q ≠ .unused → R' q = .calm

/-- A turn to role `r`. -/
theorem Turns.of_update (hacts : Acts p m.mem.proc R m'.mem.proc (update R p r))
    (hcode : kin p (m'.stack (.proc p)) (· = .calm) r)
    (hholds : r.holds = true → (R p).holds = true ∧ i ≠ .release .wait ∨ i = .spin .wait)
    (hdozes : r.dozes = true → m.holder (.proc p) = some c ∧ i ≠ .release (.proc p))
    (hi : i ≠ .sched ∧ i ≠ .schedExit ∧ ∀ q pid, i ≠ .alloc q pid) : Turns m m' R (update R p r) c p i where
  stays := fun he => (he.elim hi.1 hi.2.1).elim
  born := fun q pid he => absurd he (hi.2.2 q pid)
  acts := hacts
  code := by rwa [update_self]
  others := fun q hq => .inl (update_of_ne hq _ _)
  holds := by rwa [update_self]
  dozes := by rwa [update_self]

/-- No turn. -/
theorem Turns.of_keep (hm : Mild m.mem.proc m'.mem.proc) (hcode : kin p (m'.stack (.proc p)) (· = .calm) (R p))
    (hholds : (R p).holds = true → i ≠ .release .wait)
    (hdozes : (R p).dozes = true → m.holder (.proc p) = some c ∧ i ≠ .release (.proc p))
    (hstays : i = .sched ∨ i = .schedExit → (R p).idle = true) (hi : ∀ q pid, i ≠ .alloc q pid) :
    Turns m m' R R c p i where
  stays := hstays
  born := fun q pid he => absurd he (hi q pid)
  acts := .quiet hm
  code := hcode
  others := fun _ _ => .inl rfl
  holds := fun hh => .inl ⟨hh, hholds hh⟩
  dozes := hdozes

/-- `sleep` returns to a process that is `RUNNING`. -/
theorem MachineReach.running_of_tidy (hr : MachineReach C h m) (ht : (m.cpu c).thread = some p)
    (hc : m.code c = .tidy :: rest) : m.mem.state p = .running := by
  obtain ⟨hs, s, H, hreach, href⟩ := hr.refines
  have hcode := href.code c
  rw [hc, ht] at hcode
  obtain ⟨hth, -⟩ : s.thread p = .resuming .sleep ∧ _ := hcode
  rw [← href.state]
  by_contra hne
  have hoff := (hreach.wf.off p).mpr hne
  rw [hth] at hoff
  cases hoff

section

variable (hr : MachineReach C h m) (hk : Kin m R) (hg : Good m A K) (ht : (m.cpu c).thread = some p)
  (hc : m.code c = i :: rest) (hf : Executes m c ch rest i m')

include hk hg ht in
theorem Kin.holder_of_dozes (hd : (R p).dozes = true) : m.holder (.proc p) = some c := by
  obtain ⟨c', ht', hl⟩ := hk.dozes p hd
  obtain rfl : c' = c := hg.owned.tid_inj (ht'.trans (tid_of_some ht).symm)
  exact hl

include hr hk ht hc in
/-- The code of the process fits its role. -/
theorem Kin.head : i.kin p (kin p rest (· = .calm)) (R p) := by
  have hcode := hk.code p (hr.thread_used ht)
  rwa [show m.procCode p = i :: rest by rw [← hc, code_eq_stack, tid_of_some ht]; rfl] at hcode

end

/-- After `wait_lock` is released in `wait`'s sleep, the mark is next. -/
theorem kin_doze (h : kin p k (· = .calm) .doze) : ∃ k', k = .sleepMark (.proc p) :: k' := by
  cases k with
  | nil => cases h
  | cons i k =>
    have hi : Instr.kin p i (kin p k (· = .calm)) .doze := h
    cases i <;> simp only [Instr.kin, reduceCtorEq, Role.dozes, Role.idle, false_and, and_false, false_or, or_false,
      exists_false, Bool.false_eq_true, true_and, Bool.true_eq_false] at hi
    case acquire | spin | release => split_ifs at hi
    case sleepMark chan =>
      rw [hi.1]
      exact ⟨k, rfl⟩

/-- Whoever takes `wait_lock` is `RUNNING`. -/
theorem Good.running_of_spin (hg : Good m A K) (ht : (m.cpu c).thread = some p) (hc : m.code c = .spin .wait :: rest) :
    m.mem.state p = .running := by
  obtain ⟨-, hbelow⟩ := hg.needs hc rfl
  refine hg.running_of_know ht (Option.eq_none_iff_forall_not_mem.mpr fun x hx => ?_)
  -- no lock comes before `wait_lock`
  have hlt := hbelow _ ((hg.owned.fits c).know x hx).1
  simp at hlt

/-- The slots that the other instructions write. -/
theorem Writes.mild {q : Proc} (hw : Writes d me ch i j q)
    (hi : i.turns = false) : Mild d.proc (update d.proc j q) := by
  cases hw with
  | boost => exact mild_update (Proc.links_priorityBoost _).parent (.inl ⟨by simp, fun _ => (Proc.links_priorityBoost _).chan⟩)
  | dispatch _ hst => exact mild_update rfl (.inr ⟨.inr (.inl hst), .inr rfl⟩)
  | yield _ hst => exact mild_update (Proc.links_yield _).parent (.inr ⟨.inr (.inr hst), .inl rfl⟩)
  | charge | setkilled => exact mild_update rfl (.inl ⟨rfl, fun _ => rfl⟩)
  | @kill j pid =>
    have hl := Proc.links_kill (d.proc j) pid
    refine mild_update hl.parent ((Proc.kill_state (d.proc j) pid).imp (fun he => ⟨he, fun _ => hl.chan⟩) ?_)
    rintro ⟨hs, he⟩
    exact ⟨.inl hs, .inl he⟩
  | setprocpriority =>
    exact mild_update (Proc.links_setprocpriority _ _ _).parent
      (.inl ⟨by simp, fun _ => (Proc.links_setprocpriority _ _ _).chan⟩)
  | _ => cases hi

/-- The instructions that turn a process by what they expand to. -/
def Instr.turnsByProc : Instr → Bool
  | .tidy | .sleepMark _ | .sleepLoop _ _ | .inDriver _ | .wakeParent _ | .exitMark _ | .reparentFrom _ | .waitFrom _ _
  | .waitSlot _ | .freeproc _ | .setParent _ | .setRunnable _ => true
  | _ => false

theorem Executes.expandProc (hf : Executes m c ch rest i m') (ht : (m.cpu c).thread = some p) (hi : i.turnsByProc = true) :
    ∃ d k, i.expandProc p ch m.mem = some (d, k) ∧ m' = (m.setMem d).setCode c (k ++ rest) := by
  cases hf with
  | proc ht' hx =>
    obtain rfl := Option.some.inj (ht.symm.trans ht')
    exact ⟨_, _, hx, rfl⟩
  | @any i _ _ hx => cases i <;> cases hi <;> cases hx
  | _ => cases hi

/-- An instruction that expands, and the role that the process turns to. -/
theorem Kin.turn_of_expand (ht : (m.cpu c).thread = some p) (r : Role)
    (hacts : Acts p m.mem.proc R d.proc (update R p r)) (hcode : kin p (k ++ rest) (· = .calm) r)
    (hholds : r.holds = true → (R p).holds = true) (hdozes : r.dozes = false)
    (hi : i ≠ .release .wait ∧ i ≠ .sched ∧ i ≠ .schedExit ∧ ∀ q pid, i ≠ .alloc q pid) :
    ∃ R', Turns m ((m.setMem d).setCode c (k ++ rest)) R R' c p i := by
  refine ⟨_, .of_update (r := r) (by rwa [setCode_mem]) ?_ (fun hh => .inl ⟨hholds hh, hi.1⟩) (fun hd => by cases hdozes.symm.trans hd) hi.2⟩
  rwa [stack_of_setCode (m := m.setMem d) rfl (tid_of_some ht)]

/-- An instruction that expands, after which the role is the same. -/
theorem Kin.keep_of_expand (ht : (m.cpu c).thread = some p)
    (hm : Mild m.mem.proc d.proc) (hcode : kin p (k ++ rest) (· = .calm) (R p)) (hdozes : (R p).dozes = false)
    (hi : i ≠ .release .wait ∧ i ≠ .sched ∧ i ≠ .schedExit ∧ ∀ q pid, i ≠ .alloc q pid) :
    ∃ R', Turns m ((m.setMem d).setCode c (k ++ rest)) R R' c p i :=
  turn_of_expand ht (R p) (by rw [update_eq_self]; exact .quiet hm) hcode id hdozes hi

section Turn

variable (hr : MachineReach C h m) (hk : Kin m R) (hg : Good m A K) (ht : (m.cpu c).thread = some p)
  (hc : m.code c = i :: rest) (hf : Executes m c ch rest i m')
include hr hk hg ht hc hf

/-- Lock operations. -/
theorem Kin.turn_lock (hi : i.lockOp = some k) :
    ∃ R', Turns m m' R R' c p i := by
  have hhead := hk.head hr ht hc
  obtain ⟨hst, hmem, -⟩ := hf.lockOp hi (tid_of_some ht)
  have hmild : Mild m.mem.proc m'.mem.proc := by
    rw [hmem]
    exact .refl _
  have hne : i ≠ .sched ∧ i ≠ .schedExit ∧ ∀ q pid, i ≠ .alloc q pid := by
    refine ⟨?_, ?_, fun q pid => ?_⟩ <;> rintro rfl <;> cases hi
  -- the role stays, or turns
  have keep : kin p (k ++ rest) (· = .calm) (R p) → ((R p).holds = true → i ≠ .release .wait) → (R p).dozes = false →
      ∃ R', Turns m m' R R' c p i := fun hkin hh hd =>
    ⟨R, .of_keep hmild (by rwa [hst]) hh (fun hd' => by cases hd.symm.trans hd') (fun hs => (hs.elim hne.1 hne.2.1).elim) hne.2.2⟩
  have turn : ∀ {r}, Acts p m.mem.proc R m.mem.proc (update R p r) → kin p (k ++ rest) (· = .calm) r →
      (r.holds = true → i = .spin .wait) → (r.dozes = true → m.holder (.proc p) = some c ∧ i ≠ .release (.proc p)) →
      ∃ R', Turns m m' R R' c p i := fun ha hkin hh hd =>
    ⟨_, .of_update (by rwa [hmem]) (by rwa [hst]) (fun hr => .inr (hh hr)) hd hne⟩
  cases i with
  | acquire l =>
    cases hi
    refine keep hhead (by simp) ?_
    simp only [Instr.kin] at hhead
    split_ifs at hhead with hl
    · rcases hhead with ⟨hp, -⟩ | ⟨j, hp, -⟩ <;> simp [hp]
    · exact hhead.1
  | spin l =>
    cases hi
    simp only [Instr.kin] at hhead
    split_ifs at hhead with hl
    · subst hl
      have hfree : ∀ q, (R q).holds = false := by
        intro q
        by_contra hq
        obtain ⟨c', -, hl⟩ := hk.holds q (by simpa using hq)
        cases hl.symm.trans hf.eq_spin.1
      have halive : Alive (m.mem.proc p).state := by
        have hrun : (m.mem.proc p).state = .running := hg.running_of_spin ht hc
        simp [hrun, Alive]
      rcases hhead with ⟨hp, hQ | hQ⟩ | ⟨j, hp, hQ⟩
      · exact turn (.lockExit hp halive hfree) hQ (fun _ => rfl) (by simp)
      · exact turn (.lockWait hp halive hfree) hQ (fun _ => rfl) (by simp)
      · exact turn (.lockFork hp hfree) hQ (fun _ => rfl) (by simp)
    · exact keep hhead.2 (by simp) hhead.1
  | release l =>
    cases hi
    simp only [Instr.kin] at hhead
    split_ifs at hhead with hl
    · subst hl
      rcases hhead with ⟨n, hp, hQ⟩ | ⟨hp, hQ⟩ | ⟨hp, hQ⟩
      · exact turn (.unlock hp) (.inr ⟨rfl, hQ⟩) (by simp) (by simp)
      · refine turn (.dozeOff hp) (.inl ⟨rfl, hQ⟩) (by simp) fun _ => ⟨?_, by simp⟩
        -- the mark needs `p->lock`
        obtain ⟨k', rfl⟩ := kin_doze hQ
        obtain ⟨B, hsig, hrest⟩ := hg.head hc
        obtain ⟨-, rfl⟩ := when_eq_some.mp hsig
        rw [ht, check, Seq.check_cons] at hrest
        obtain ⟨B', hmark, -⟩ := Option.bind_eq_some_iff.mp hrest
        have hheld : (A c).held.erase .wait = [.proc p] := (when_eq_some.mp hmark).1.1
        exact (hg.locked.agrees c _).mpr (List.mem_of_mem_erase (hheld ▸ List.mem_singleton_self _))
      · rcases hp with hp | ⟨j, hp⟩
        all_goals
          rw [hp] at hQ
          exact keep (by rw [hp]; exact .inr ⟨rfl, hQ⟩) (by simp [hp]) (by simp [hp])
    · exact keep (.inr hhead) (fun _ => by simp [hl]) hhead.1
  | popOff =>
    cases hi
    rcases hhead with ⟨hp, hQ⟩ | ⟨hd, hQ⟩
    · refine turn (.doze hp) hQ (by simp) fun _ => ⟨hk.holder_of_dozes hg ht (by rw [hp]; rfl), by simp⟩
    · exact keep hQ (by simp) hd
  | _ => cases hi

/-- Sleeping and waking up. -/
theorem Kin.turn_sleep (hi : i = .tidy ∨ (∃ chan, i = .sleepMark chan) ∨ (∃ ticks0 n, i = .sleepLoop ticks0 n) ∨ ∃ n, i = .inDriver n) :
    ∃ R', Turns m m' R R' c p i := by
  have hhead := hk.head hr ht hc
  obtain ⟨B, hsig, -⟩ := hg.head hc
  rw [ht] at hsig
  obtain ⟨d, k, hx, rfl⟩ := hf.expandProc ht (by rcases hi with rfl | ⟨chan, rfl⟩ | ⟨ticks0, n, rfl⟩ | ⟨n, rfl⟩ <;> rfl)
  rcases hi with rfl | ⟨chan, rfl⟩ | ⟨ticks0, n, rfl⟩ | ⟨n, rfl⟩
  · cases hx
    have hrun : (m.mem.proc p).state = .running := hr.running_of_tidy ht hc
    have hmild : Mild m.mem.proc (update m.mem.proc p (m.mem.proc p).tidy) :=
      mild_update rfl (.inl ⟨rfl, fun hs => by cases hrun.symm.trans hs⟩)
    rcases hhead with ⟨hp, hQ⟩ | ⟨hp, hQ⟩
    · exact turn_of_expand ht .calm (.rise (.inr hp) (by simp [hrun]) hmild) hQ (by simp) rfl (by simp)
    · exact keep_of_expand ht hmild (by rwa [hp]) (by simp [hp]) (by simp)
  · cases hx
    have hrun : (m.mem.proc p).state = .running := hg.running_of_know ht (when_eq_some.mp hsig).1.2.2
    rcases hhead with ⟨hp, hQ⟩ | ⟨hp, rfl, hQ⟩
    · exact turn_of_expand ht .nap (.nap hp hrun) hQ (by simp) rfl (by simp)
    · exact turn_of_expand ht .slept (.sleep hp hrun) hQ (by simp) rfl (by simp)
  -- the loops that call `sleep`
  all_goals
    obtain ⟨hrole, hQ⟩ := hhead
    have hrun : (m.mem.proc p).state = .running := hg.running_of_know ht (by simp [(when_eq_some.mp hsig).1.2])
    obtain ⟨rfl, hcode⟩ : d = m.mem ∧ kin p (k ++ rest) (· = .calm) .calm := by
      simp only [Instr.expandProc] at hx
      first
        | split_ifs at hx <;> cases hx <;> simp [hQ]
        | split at hx <;> cases hx <;> simp [sleepCode, hQ]
    rcases hrole with hp | hp
    · exact keep_of_expand ht (.refl _) (by rwa [hp]) (by simp [hp]) (by simp)
    · exact turn_of_expand ht .calm (.rise (.inl hp) (by simp [hrun]) (.refl _)) hcode (by simp) rfl (by simp)

/-- `wakeup`. -/
theorem Kin.turn_wakeup (hi : ∃ chan j, i = .wakeupFrom chan j ∨ i = .wakeupSlot chan j) : ∃ R', Turns m m' R R' c p i := by
  have hhead := hk.head hr ht hc
  obtain ⟨B, hsig, -⟩ := hg.head hc
  obtain ⟨chan, j, rfl | rfl⟩ := hi
  · obtain ⟨k, hm', hskip⟩ : ∃ k, m' = (m.setMem m.mem).setCode c (k ++ rest) ∧ (j = p ∧ k = loop (.wakeupFrom chan) j ∨
        k = [.acquire (.proc j), .wakeupSlot chan j, .release (.proc j)] ++ loop (.wakeupFrom chan) j) := by
      cases hf with
      | proc _ hx => cases hx
      | any hx =>
        simp only [Instr.expandAny, hg.thread_eq ht] at hx
        split_ifs at hx with hj <;> cases hx
        · exact ⟨_, rfl, .inl ⟨(Option.some.inj hj).symm, rfl⟩⟩
        · exact ⟨_, rfl, .inr rfl⟩
    subst hm'
    rcases hhead with ⟨hidle, hQ⟩ | ⟨⟨n, hp, rfl, hQ⟩, hne⟩ | ⟨o, hp, rfl, hQ⟩
    · have hd : (R p).dozes = false := Role.dozes_of_idle hidle
      have hloop : kin p (loop (.wakeupFrom chan) j ++ rest) (· = .calm) (R p) :=
        kin_append.mpr (kin_loop.mpr ⟨fun k _ => .inl ⟨hidle, hQ⟩, fun _ => hQ⟩)
      refine keep_of_expand ht (.refl _) ?_ hd (by simp)
      rcases hskip with ⟨-, rfl⟩ | rfl
      · exact hloop
      · exact ⟨hd, .inl ⟨hidle, hd, hloop⟩⟩
    · have hloop := kin_wakeupInit (j := j) hne hQ
      rcases hskip with ⟨rfl, rfl⟩ | rfl
      · exact turn_of_expand ht _ (.skipInit hp hne) (kin_append.mpr hloop) (by simp [hp]) rfl (by simp)
      · refine keep_of_expand ht (.refl _) ?_ (by simp [hp]) (by simp)
        rw [hp]
        exact ⟨by simp, .inr (.inl ⟨n, rfl, rfl, by simp, kin_append.mpr hloop⟩)⟩
    · have hloop := kin_wakeupParent (p := p) (j := j) hQ
      rcases hskip with ⟨rfl, rfl⟩ | rfl
      · exact turn_of_expand ht _ (.skipParent hp) (kin_append.mpr hloop) (by simp [hp]) rfl (by simp)
      · refine keep_of_expand ht (.refl _) ?_ (by simp [hp]) (by simp)
        rw [hp]
        exact ⟨by simp, .inr (.inr ⟨o, rfl, rfl, by simp, kin_append.mpr hloop⟩)⟩
  · have hm' : m' = (m.setMem (m.mem.setProc j ((m.mem.proc j).wakeup chan))).setCode c ([] ++ rest) := by
      cases hf with
      | proc _ hx => cases hx
      | any hx =>
        cases hx
        rfl
    subst hm'
    -- the process of the slot is not on its way to sleep, for this CPU has the lock of the slot
    have hdoze : (R p).holds = true → (R j).dozes = false := by
      intro hh
      by_contra hd
      obtain ⟨c', ht', hl⟩ := hk.dozes j (by simpa using hd)
      have hl' : m.holder (.proc j) = some c := (hg.locked.agrees c _).mpr (when_eq_some.mp hsig).1.1
      obtain rfl := Option.some.inj (hl.symm.trans hl')
      obtain rfl := Tid.proc.inj (ht'.symm.trans (tid_of_some ht))
      revert hh hd
      cases R j <;> simp
    rcases hhead with ⟨hidle, hQ⟩ | ⟨n, hp, rfl, hQ⟩ | ⟨o, hp, rfl, hQ⟩
    · exact keep_of_expand ht (mild_wakeup _ j chan) hQ (Role.dozes_of_idle hidle) (by simp)
    · exact turn_of_expand ht _ (.wakeInit hp (hdoze (by simp [hp]))) hQ (by simp [hp]) rfl (by simp)
    · refine turn_of_expand ht _ (.wakeParent hp ?_ (hdoze (by simp [hp]))) hQ (by simp [hp]) rfl (by simp)
      rintro q rfl
      rfl

/-- `exit`. -/
theorem Kin.turn_exit (hi : (∃ status, i = .exit status ∨ i = .wakeParent status ∨ i = .exitMark status) ∨ ∃ j, i = .reparentFrom j) :
    ∃ R', Turns m m' R R' c p i := by
  have hhead := hk.head hr ht hc
  rcases hi with ⟨status, rfl | rfl | rfl⟩ | ⟨j, rfl⟩
  · have hp : R p = .calm := hhead
    have hd : (R p).dozes = false := by simp [hp]
    cases hf with
    | any hx | proc _ hx => cases hx
    | initExiting =>
      refine ⟨R, .of_keep ?_ ?_ (by simp) (fun hd' => by cases hd.symm.trans hd') (by simp) (by simp)⟩
      · rw [Machine.panic, setCode_mem]
        exact .refl _
      · rw [show (m.panic c .initExiting rest).stack (.proc p) = .hang :: rest from stack_of_setCode rfl (tid_of_some ht)]
        exact hp
    | exit ht' hne =>
      obtain rfl := Option.some.inj (ht.symm.trans ht')
      refine ⟨R, .of_keep ?_ ?_ (by simp) (fun hd' => by cases hd.symm.trans hd') (by simp) (by simp)⟩
      · rw [setCode_mem]
        exact .refl _
      · rw [stack_of_setCode rfl (tid_of_some ht), hp]
        exact kin_append.mpr (kin_exitCode hne)
  · obtain ⟨hne, hp⟩ := hhead
    obtain ⟨d, k, hx, rfl⟩ := hf.expandProc ht rfl
    cases hx
    refine turn_of_expand ht _ (.tell hp) (.inr (.inr ⟨_, rfl, ?_, ?_⟩)) (by simp [hp]) rfl (by simp)
    · cases (m.mem.proc p).parent <;> rfl
    · simp [hne]
  · obtain ⟨hne, ⟨o, hp⟩, hQ⟩ := hhead
    have hA := hg.at ht hc rfl
    have hrun : (m.mem.proc p).state = .running := hg.running_of_know ht (by simp [hA])
    obtain ⟨d, k, hx, rfl⟩ := hf.expandProc ht rfl
    cases hx
    exact turn_of_expand ht .gone (.exit hp hne hrun) hQ (by simp) rfl (by simp)
  · obtain ⟨hne, hp, hQ⟩ := hhead
    have hloop : kin p (loop .reparentFrom j ++ rest) (· = .calm) (.clear (j + 1) NPROC) := by
      refine kin_append.mpr (kin_loop.mpr ⟨fun k hk' => ⟨hne, ?_, hQ⟩, fun hn => ?_⟩)
      · rw [nextSlot_eq_some.mp hk']
      · rwa [succ_eq_of_nextSlot_none hn]
    obtain ⟨d, k, hx, rfl⟩ := hf.expandProc ht rfl
    simp only [Instr.expandProc] at hx
    split_ifs at hx with hpar <;> cases hx
    · exact turn_of_expand ht _ (.reparent hp hne hpar) (.inr (.inl ⟨⟨_, rfl, rfl, hloop⟩, hne⟩))
        (by simp [hp]) rfl (by simp)
    · exact turn_of_expand ht _ (.pass hp hpar) hloop (by simp [hp]) rfl (by simp)

omit hg in
/-- `wait`. -/
theorem Kin.turn_wait (hi : ∃ j, (∃ havekids, i = .waitFrom j havekids) ∨ i = .waitSlot j ∨ i = .freeproc j) : ∃ R', Turns m m' R R' c p i := by
  have hhead := hk.head hr ht hc
  obtain ⟨d, k, hx, rfl⟩ := hf.expandProc ht (by obtain ⟨j, ⟨havekids, rfl⟩ | rfl | rfl⟩ := hi <;> rfl)
  obtain ⟨j, ⟨havekids, rfl⟩ | rfl | rfl⟩ := hi
  all_goals obtain ⟨hp, hQ⟩ := hhead
  · simp only [Instr.expandProc] at hx
    split_ifs at hx with hpar <;> cases hx
    · exact turn_of_expand ht _ (.look hp hpar) (by simp [hQ]) (by simp [hp]) rfl (by simp)
    · exact turn_of_expand ht _ (.other hp hpar) (kin_waitNext hQ) (by simp [hp]) rfl (by simp)
  · simp only [Instr.expandProc] at hx
    split_ifs at hx with hz
    · split at hx <;> cases hx
      · exact turn_of_expand ht _ (.find hp hz) (by simp [hQ]) (by simp [hp]) rfl (by simp)
      · exact turn_of_expand ht _ (.giveUp hp) (by simp [hQ]) (by simp [hp]) rfl (by simp)
    · cases hx
      exact turn_of_expand ht _ (.next hp hz) ⟨rfl, kin_waitNext hQ⟩ (by simp [hp]) rfl (by simp)
  · cases hx
    exact turn_of_expand ht _ (.freeproc hp) hQ (by simp [hp]) rfl (by simp)

/-- `fork`. -/
theorem Kin.turn_fork (hi : ∃ j, (∃ pid, i = .alloc j pid) ∨ i = .setParent j ∨ i = .setRunnable j) : ∃ R', Turns m m' R R' c p i := by
  have hhead := hk.head hr ht hc
  obtain ⟨j, ⟨pid, rfl⟩ | rfl | rfl⟩ := hi
  all_goals obtain ⟨hp, hQ⟩ := hhead
  · obtain ⟨p', ht', -, hjp, hst, hrun, -⟩ := hg.atAlloc hc
    obtain rfl := Option.some.inj (ht.symm.trans ht')
    cases hf with
    | any hx | proc _ hx => cases hx
    | allocOk =>
      refine ⟨update (update R j .calm) p (.fork j), ?_, ?_, fun q hq => ?_, ?_, ?_, by simp, ?_⟩
      · rw [setCode_mem]
        exact .alloc hp hrun hjp hst
      · rw [update_self, stack_of_setCode (m := (m.setMem _).setProcCode j (forkret j)) rfl (tid_of_some ht)]
        exact kin_append.mpr (kin_forkTail hQ)
      · rw [update_of_ne hq]
        rcases eq_or_ne q j with rfl | hqj
        · exact .inr ⟨hst, update_self ..⟩
        · exact .inl (update_of_ne hqj _ _)
      · simp
      · simp
      · rintro q pid' ⟨⟩ -
        rw [update_of_ne hjp, update_self]
    | @allocFail _ _ _ r _ _ _ _ hne =>
      refine ⟨R, ?_, ?_, fun _ _ => .inl rfl, by simp [hp], by simp [hp], by simp, ?_⟩
      · rw [setCode_mem]
        exact .allocFail hst hne
      · rw [stack_of_setCode (m := m.setMem (m.mem.setProc j ((m.mem.proc j).alloc r pid))) rfl (tid_of_some ht), hp]
        exact ⟨rfl, by simp, hQ⟩
      · rintro q pid' ⟨⟩ hu
        exact absurd (by simp [Mem.state, Proc.alloc_state_of_fail _ _ hne]) hu
  · obtain ⟨d, k, hx, rfl⟩ := hf.expandProc ht rfl
    cases hx
    exact turn_of_expand ht _ (.setParent hp) hQ (by simp [hp]) rfl (by simp)
  · obtain ⟨d, k, hx, rfl⟩ := hf.expandProc ht rfl
    cases hx
    exact turn_of_expand ht _ (.setRunnable hp) hQ (by simp) rfl (by simp)

/-- **Every instruction of a process is a step of the family.** -/
theorem Kin.turns : ∃ R', Turns m m' R R' c p i := by
  cases hi : i.turns with
  | false =>
    have hhead := hk.head hr ht hc
    have hmild : Mild m.mem.proc m'.mem.proc := by
      rcases hg.table_executes hc hf with heq | ⟨j, q, hw, heq⟩
      · rw [heq]
        exact .refl _
      · rw [heq]
        exact hw.mild hi
    have hrel : ∀ l, i ≠ .release l := by
      rintro l rfl
      cases hi
    refine ⟨R, .of_keep hmild ?_ (fun _ => hrel _) (fun hd => ⟨hk.holder_of_dozes hg ht hd, hrel _⟩) ?_ ?_⟩
    · rcases hf.stack (tid_of_some ht) with ⟨k, hst, hpush⟩ | ⟨b, rfl, -⟩
      · rw [hst]
        exact kin_append.mpr (hpush.kin ht (hg.thread_eq ht) hi hhead)
      · cases hi
    · rintro (rfl | rfl)
      · exact hhead.1
      · cases hi
    · rintro q pid rfl
      cases hi
  | true =>
    cases i <;> simp only [Instr.turns, Bool.false_eq_true] at hi
    case spin | release | popOff => exact hk.turn_lock hr hg ht hc hf rfl
    case tidy | sleepMark | sleepLoop | inDriver => exact hk.turn_sleep hr hg ht hc hf (by simp)
    case wakeupFrom | wakeupSlot => exact hk.turn_wakeup hr hg ht hc hf (by simp)
    case exit | wakeParent | exitMark | reparentFrom => exact hk.turn_exit hr hg ht hc hf (by simp)
    case waitFrom | waitSlot | freeproc => exact hk.turn_wait hr ht hc hf (by simp)
    case alloc | setParent | setRunnable => exact hk.turn_fork hr hg ht hc hf (by simp)
    case schedExit =>
      have hp : R p = .gone := hk.head hr ht hc
      cases hf with
      | any hx => cases hx
      | proc _ hx => cases hx
      | schedExit =>
        refine ⟨R, .of_keep ?_ ?_ (by simp) (by simp [hp]) (by simp [hp]) (by simp)⟩
        · rw [setCpu_mem, setCode_mem]
          exact .refl _
        · rw [stack_setCpu, stack_of_setCode rfl (tid_of_some ht), hp]
          exact ⟨rfl, rfl⟩

end Turn

/-! ## Steps -/

/-- The CPU goes on with the process. -/
theorem Executes.tid (hf : Executes m c ch rest i m') (ht : (m.cpu c).thread = some p) (hi : i ≠ .sched ∧ i ≠ .schedExit) :
    m'.tid c = .proc p := by
  refine tid_of_some ?_
  cases hf with
  | acquire | popOff | intrOn | sret | intrOff | setIntena | clearProc | syscall | fault =>
    rw [setCode_cpu, setCpu_cpu, update_self]
    exact ht
  | dispatch hn | swtch hn => cases hn.symm.trans ht
  | sched => exact absurd rfl hi.1
  | schedExit => exact absurd rfl hi.2
  | initExiting =>
    rw [Machine.panic, setCode_cpu]
    exact ht
  | spin | release | exit | allocOk | allocFail | any | proc =>
    rw [setCode_cpu]
    exact ht

/-- A slot comes to life in `alloc` only. -/
theorem Writes.born {q : Proc} (hw : Writes d me ch i j q)
    (hu : d.state j = .unused) (hu' : q.state ≠ .unused) : ∃ pid, i = .alloc j pid := by
  rcases hw.shifts with he | hsh
  · exact absurd (he.trans hu) hu'
  rw [hu] at hsh
  generalize q.state = b at hsh
  cases hsh with
  | @alloc pid => exact ⟨pid, rfl⟩

/-- A new process starts with `forkret`. -/
theorem Good.born_step (hg : Good m A K) (hc : m.code c = i :: rest) (hf : Executes m c ch rest i m')
    (hu : m.mem.state q = .unused) (hu' : m'.mem.state q ≠ .unused) :
    ∃ pid, i = .alloc q pid ∧ m'.stack (.proc q) = forkret q := by
  rcases hg.table_executes hc hf with heq | ⟨j, x, hw, heq⟩
  · rw [Mem.state, heq] at hu'
    exact absurd hu hu'
  have hqj : q = j := by
    by_contra hne
    rw [Mem.state, heq, update_of_ne hne] at hu'
    exact hu' hu
  subst hqj
  rw [Mem.state, heq, update_self] at hu'
  obtain ⟨pid, rfl⟩ := hw.born hu hu'
  refine ⟨pid, rfl, ?_⟩
  cases hf with
  | any hx | proc _ hx => cases hx
  | @allocOk j p _ ht hjp =>
    rw [stack_setCode, if_neg]
    · exact update_self ..
    · exact fun he => hjp (Tid.proc.inj (Eq.trans he (tid_of_some ht)))
  | allocFail _ _ _ _ hr =>
    rw [setCode_mem, setMem_mem] at heq
    have hx := congrFun heq q
    rw [Mem.setProc_proc, update_self, update_self] at hx
    rw [← hx] at hu'
    exact absurd (Proc.alloc_state_of_fail _ _ hr) hu'

/-- A process on another CPU keeps its locks. -/
theorem Good.keep_lock (hg : Good m A K) (hs : m.step e = some m') {l : Lock} (hq : m.tid e.cpu ≠ .proc q)
    (hl : ∃ c, m.tid c = .proc q ∧ m.holder l = some c) : ∃ c, m'.tid c = .proc q ∧ m'.holder l = some c := by
  obtain ⟨c', ht', hl⟩ := hl
  have hne : e.cpu ≠ c' := by
    rintro rfl
    exact hq ht'
  refine ⟨c', (hg.tid_of_ne hs hne).trans ht', ?_⟩
  rcases hg.holder_step hs hl with hl' | ⟨ch', k, rfl, -⟩
  · exact hl'
  · exact absurd rfl hne

/-- A process on another CPU keeps its code. -/
theorem Good.keep_code (hg : Good m A K) (hs : m.step e = some m') (hq : m.tid e.cpu ≠ .proc q)
    (hu : m.mem.state q ≠ .unused) : m'.procCode q = m.procCode q := by
  rcases hg.stack_step hs (.proc q) with heq | ⟨c', _, _, _, rfl, ht', -⟩ | ⟨_, _, rfl, ht', -⟩ | ⟨j, hj, hst, -⟩
  · exact heq
  · exact absurd ht' hq
  · exact absurd ht' hq
  · cases hj
    exact absurd hst hu

/-- **A step of a process**, from its turn. -/
theorem Kin.of_turns {R' : Slot → Role} (hk : Kin m R) (hg : Good m A K) (hs : m.step (.run c ch) = some m')
    (ht : (m.cpu c).thread = some p) (hc : m.code c = i :: rest) (hf : Executes m c ch rest i m')
    (htu : Turns m m' R R' c p i) : Kin m' R' := by
  have htp := tid_of_some ht
  have hother : ∀ q ≠ p, m.tid c ≠ .proc q := by
    intro q hq he
    exact hq (Tid.proc.inj (he.symm.trans htp))
  -- the CPU is still with `p` when `p` holds a lock
  have hstay : (R' p).holds = true ∨ (R' p).dozes = true → m'.tid c = .proc p := by
    intro hh
    refine hf.tid ht ?_
    rw [ne_eq, ne_eq, ← not_or]
    intro hi
    have hidle := htu.stays hi
    revert hh hidle
    cases R' p <;> simp
  have hown : ∀ {l}, m.holder l = some c → i ≠ .release l → m'.holder l = some c := by
    intro l hl hi
    rcases hg.holder_step hs hl with hl' | ⟨ch', k, -, hrel⟩
    · exact hl'
    · exact absurd (List.cons_eq_cons.mp (hc.symm.trans hrel)).1 hi
  -- the others had their roles before
  have hrole : ∀ {x : Role → Bool}, x .calm = false → ∀ q ≠ p, x (R' q) = true → x (R q) = true := by
    intro x hx q hqp hq
    rcases htu.others q hqp with he | ⟨-, he⟩
    · rwa [he] at hq
    · rw [he, hx] at hq
      cases hq
  refine ⟨htu.acts.family hk.family, fun q hq => ?_, fun q hq => ?_, fun q hq => ?_⟩
  all_goals rcases eq_or_ne q p with rfl | hqp
  · exact htu.code
  · by_cases hu : m.mem.state q = .unused
    · obtain ⟨pid, hi, hst⟩ := hg.born_step hc hf hu hq
      rw [htu.born q pid hi hq, show m'.procCode q = forkret q from hst]
      exact kin_forkret rfl
    · rw [(htu.others q hqp).resolve_right fun hx => hu hx.1, hg.keep_code hs (hother q hqp) hu]
      exact hk.code q hu
  · refine ⟨c, hstay (.inl hq), ?_⟩
    rcases htu.holds hq with ⟨hh, hi⟩ | rfl
    · obtain ⟨c', ht', hl⟩ := hk.holds q hh
      obtain rfl : c' = c := hg.owned.tid_inj (ht'.trans htp.symm)
      exact hown hl hi
    · rw [hf.eq_spin.2, setCode_holder, setHolder_holder, update_self]
  · exact hg.keep_lock hs (hother q hqp) (hk.holds q (hrole rfl q hqp hq))
  · obtain ⟨hl, hi⟩ := htu.dozes hq
    exact ⟨c, hstay (.inr hq), hown hl hi⟩
  · exact hg.keep_lock hs (hother q hqp) (hk.dozes q (hrole rfl q hqp hq))

/-- A step in which the process on the CPU, if any, is outside of `wait_lock` and keeps its role. -/
theorem Kin.of_quiet (hk : Kin m R) (hg : Good m A K) (hs : m.step e = some m') (hm : Mild m.mem.proc m'.mem.proc)
    (hp : ∀ p, m.tid e.cpu = .proc p → ((R p).holds = false ∧ (R p).dozes = false) ∧
      kin p (m'.stack (.proc p)) (· = .calm) (R p)) : Kin m' R := by
  refine ⟨hk.family.mild hm, fun q hq => ?_, fun q hq => ?_, fun q hq => ?_⟩
  · by_cases ht : m.tid e.cpu = .proc q
    · exact (hp q ht).2
    · have hu : m.mem.state q ≠ .unused := fun hu => hq ((hm.unused q).mpr hu)
      rw [hg.keep_code hs ht hu]
      exact hk.code q hu
  · exact hg.keep_lock hs (fun ht => Bool.eq_false_iff.mp (hp q ht).1.1 hq) (hk.holds q hq)
  · exact hg.keep_lock hs (fun ht => Bool.eq_false_iff.mp (hp q ht).1.2 hq) (hk.dozes q hq)

/-- **Every step of the machine keeps the relation to the family.** -/
theorem Kin.step (hr : MachineReach C h m) (hk : Kin m R) (hs : m.step e = some m') : ∃ R', Kin m' R' := by
  obtain ⟨A, K, hg⟩ := MachineReach.good hr
  cases e with
  | run c ch =>
    obtain ⟨i, rest, hc, hf⟩ := hg.executes hs
    cases ht : (m.cpu c).thread with
    | some p =>
      obtain ⟨R', htu⟩ := hk.turns hr hg ht hc hf
      exact ⟨R', hk.of_turns hg hs ht hc hf htu⟩
    | none =>
      -- the scheduler thread
      refine ⟨R, hk.of_quiet hg hs ?_ fun p hp => ?_⟩
      · obtain ⟨B, hsig, -⟩ := hg.head hc
        rw [ht] at hsig
        rcases hg.table_executes hc hf with heq | ⟨j, q, hw, heq⟩
        · rw [heq]
          exact .refl _
        · rw [heq]
          cases hi : i.turns with
          | false => exact hw.mild hi
          | true =>
            cases hw with
            | wakeup => exact mild_wakeup _ _ _
            | boost | dispatch | yield | charge | setkilled | kill | setprocpriority => cases hi
            | _ => simp [when] at hsig
      · rw [show (Event.run c ch).cpu = c from rfl, tid_of_none ht] at hp
        cases hp
  | intr c dev =>
    obtain ⟨-, htr⟩ := hg.traps hs
    refine ⟨R, hk.of_quiet hg hs ?_ fun p hp => ?_⟩
    · cases htr <;> exact (by simpa using Mild.refl _)
    · have hp' : m.tid c = .proc p := hp
      -- who holds a lock gets no interrupt
      have hno : ∀ {l}, ¬ ∃ c', m.tid c' = .proc p ∧ m.holder l = some c' := by
        rintro l ⟨c', ht', hl⟩
        obtain rfl : c' = c := hg.owned.tid_inj (ht'.trans hp'.symm)
        exact hg.not_intr hl hs
      have hfree : (R p).holds = false ∧ (R p).dozes = false :=
        ⟨Bool.eq_false_iff.mpr fun hh => hno (hk.holds p hh), Bool.eq_false_iff.mpr fun hd => hno (hk.dozes p hd)⟩
      have ht : (m.cpu c).thread = some p := thread_of_tid hp'
      have hcode := hk.code p (hr.thread_used ht)
      refine ⟨hfree, ?_⟩
      cases htr with
      | @user p' rest ht' hc =>
        obtain rfl := Option.some.inj (ht.symm.trans ht')
        obtain ⟨hcalm, hQ⟩ := hk.head hr ht hc
        rw [stack_of_setCode (thread_setCpu (x := { m.cpu c with intr := false }) rfl) hp', hcalm]
        exact kin_append.mpr (kin_intrTrap c dev hQ)
      | kernel =>
        have hidle : (R p).idle = true := by
          revert hfree
          cases R p <;> simp
        rw [stack_of_setCode (thread_setCpu (x := { m.cpu c with intr := false }) rfl) hp', code_eq_stack, hp']
        exact kin_append.mpr (kin_kerneltrap c dev hidle hcode)

theorem family_boot : Family (userinit 1 procinit) fun _ => .calm := by
  have hparent : ∀ j, (userinit 1 procinit j).parent = none := by decide
  have hunused : ∀ j ≠ initproc, (userinit 1 procinit j).state = .unused := by decide
  have hsleep : ∀ j, (userinit 1 procinit j).state ≠ .sleeping := by decide
  exact
    { free := fun j _ => hparent j
      init := by simp [userinit, Alive]
      parent := by simp [hparent]
      orphan := fun j hj hu => absurd (hunused j hj) hu
      alive := by simp
      child := by simp
      inj := by simp
      sole := by simp
      fact := fun _ => trivial
      asleep := fun p hp => absurd hp (hsleep p)
      heard := by simp [Dozing] }

theorem kin_boot (C : ℕ) : Kin (Machine.boot C) fun _ => .calm where
  family := family_boot
  code := fun p _ => kin_forkret rfl
  holds := by simp
  dozes := by simp

/-- **Every state of the machine is related to the family.** -/
theorem MachineReach.kin (hr : MachineReach C h m) : ∃ R, Kin m R := by
  induction hr with
  | nil => exact ⟨_, kin_boot C⟩
  | snoc hr hs ih =>
    obtain ⟨R, hk⟩ := ih
    exact hk.step hr hs

end Step

end Xv6Mlfq
