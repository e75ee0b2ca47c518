import Xv6Mlfq.Kernel.Position
import Xv6Mlfq.Kernel.Safe

/-!
# Xv6Mlfq.Kernel.Refine — the machine as the process layer of `Sections`

`Refines m s H` relates the machine, whose steps are instructions, to the process layer, whose steps are
lock sections: the shared data is the same, every thread stands where its code says, and a `p->lock` that
the process layer keeps from one section to the next is held in the machine.  `H` is what each CPU has in
hand.

Pids are left out.  The machine takes a pid before it knows whether the memory for the process suffices,
so two processes may be created in the other order than their pids were taken; no section looks at a pid
except to compare it with an argument.
-/

namespace Xv6Mlfq

open CInt Function Abs Machine

/-! ## The data, without pids -/

def Proc.anon (p : Proc) : Proc := { p with pid := 0 }

namespace Proc

variable {p q : Proc} {f : ForkPc}

theorem priorityBoost_anon (p : Proc) : p.priorityBoost.anon = p.anon.priorityBoost := by
  unfold priorityBoost anon
  split_ifs <;> rfl

theorem yield_anon (p : Proc) : p.yield.anon = p.anon.yield := by
  unfold yield demote anon
  split_ifs <;> rfl

theorem wakeup_anon (p : Proc) (chan : Chan) : (p.wakeup chan).anon = p.anon.wakeup chan := by
  unfold wakeup anon
  split_ifs <;> rfl

theorem alloc_anon (p : Proc) (r : AllocResult) (pid : ℤ) : (p.alloc r pid).anon = p.anon.alloc r 0 := by
  cases r <;> rfl

theorem kill_anon (p : Proc) : (p.kill p.pid).anon = p.anon.kill 0 := by
  unfold kill anon
  rw [if_pos rfl, if_pos rfl]

theorem setprocpriority_anon (hp : p.state ≠ .unused) (priority : ℤ) :
    (p.setprocpriority p.pid priority).anon = p.anon.setprocpriority 0 priority := by
  simp [setprocpriority, hasPid, anon, hp]

/-! `parent` is written under `wait_lock` and by `freeproc` only. -/

@[simp] theorem priorityBoost_parent (p : Proc) : p.priorityBoost.parent = p.parent := by
  unfold priorityBoost
  split_ifs <;> rfl

@[simp] theorem yield_parent (p : Proc) : p.yield.parent = p.parent := by
  unfold yield demote
  split_ifs <;> rfl

@[simp] theorem wakeup_parent (p : Proc) (chan : Chan) : (p.wakeup chan).parent = p.parent := by
  unfold wakeup
  split_ifs <;> rfl

@[simp] theorem kill_parent (p : Proc) (pid : ℤ) : (p.kill pid).parent = p.parent := by
  unfold kill
  split_ifs <;> rfl

@[simp] theorem setprocpriority_parent (p : Proc) (pid priority : ℤ) :
    (p.setprocpriority pid priority).parent = p.parent := by
  unfold setprocpriority
  split_ifs <;> rfl

end Proc

@[simps] def Mem.anon (d : Mem) : Mem := { d with proc := fun i => (d.proc i).anon, nextpid := 0 }

theorem Mem.anon_setProc (d : Mem) (i : Slot) (p : Proc) :
    (d.setProc i p).anon = d.anon.setProc i p.anon := by
  simp only [setProc, anon, Mem.mk.injEq, and_true]
  funext j
  rcases eq_or_ne j i with rfl | hj
  · simp
  · simp [hj]

/-- The shared data of the process layer. -/
@[simps] def Sys.mem {C : ℕ} (s : Sys C) : Mem :=
  { proc := s.proc, nextpid := s.nextpid, mlfqTicks := s.mlfqTicks, ticks := s.ticks,
    lastBoostTick := s.lastBoostTick }

variable {C : ℕ}

/-! ## Free slots and processes inside `fork` -/

/-- A free slot has no parent, and a process inside `fork` is alive. -/
structure Clean (s : Sys C) : Prop where
  parent : ∀ i, (s.proc i).state = .unused → (s.proc i).parent = none
  forking : ∀ i, s.forking i ≠ .idle → Alive (s.proc i).state

section Clean

variable {s s' : Sys C} {c : Fin C} {a : Act} {i : Slot} {p : Proc}

theorem Clean.setProc (h : Clean s) (hu : p.state = .unused → p.parent = none)
    (ha : s.forking i ≠ .idle → Alive p.state) : Clean (s.setProc i p) := by
  constructor <;> intro j hj <;> rcases eq_or_ne j i with rfl | hne
  · simpa using hu (by simpa using hj)
  · simpa [hne] using h.parent j (by simpa [hne] using hj)
  · simpa using ha hj
  · simpa [hne] using h.forking j hj

/-- A section that leaves the parent and does not end a life. -/
theorem Clean.setProc_keep (h : Clean s) (hp : p.parent = (s.proc i).parent)
    (hu : p.state = .unused → (s.proc i).state = .unused) (ha : Alive (s.proc i).state → Alive p.state) :
    Clean (s.setProc i p) :=
  h.setProc (fun hst => hp.trans (h.parent i (hu hst))) fun hf => ha (h.forking i hf)

theorem Clean.setForking (h : Clean s) (ha : Alive (s.proc i).state) :
    Clean (s.setForking i f) := by
  refine ⟨h.parent, fun j hj => ?_⟩
  rcases eq_or_ne j i with rfl | hne
  · exact ha
  · exact h.forking j (by simpa [hne] using hj)

theorem Clean.congr (h : Clean s) (hp : s'.proc = s.proc) (hf : s'.forking = s.forking) : Clean s' := by
  constructor
  · rw [hp]
    exact h.parent
  · rw [hp, hf]
    exact h.forking

theorem Trans.clean (hw : Wf s) (h : Clean s) (ht : Trans s c a s') : Clean s' := by
  have hlive : ∀ i, s.cpu c = .run i → Alive (s.proc i).state := fun i hi => by
    rw [hw.running c i hi]
    simp [Alive]
  have hwake : ∀ i q, (q.state = (s.proc i).state ∨ (s.proc i).state = .sleeping ∧ q.state = .runnable) →
      q.parent = (s.proc i).parent → Clean (s.setProc i q) := by
    intro i q hst hp
    rcases hst with hst | ⟨-, hst⟩
    · exact h.setProc_keep hp (by simp [hst]) (by simp [hst])
    · exact h.setProc_keep hp (by simp [hst]) (by simp [hst, Alive])
  cases ht
  case boostFire | boostPass | recordBoost | scanHit | scanMiss | resume | timerRun | timerIdle | count
    | trapExit => exact h.congr rfl rfl
  case setprocpriorityBad | reparentSkip | waitSkip => exact h
  case boostSlot i _ _ => exact (hwake i _ (.inl (by simp)) (by simp)).congr rfl rfl
  case resumeSleep i _ _ => exact (hwake i (s.proc i).tidy (.inl (by simp)) rfl).congr rfl rfl
  case charge i _ _ _ => exact (hwake i (s.proc i).mlfqCheckTimer (.inl (by simp)) rfl).congr rfl rfl
  case wakeup j chan _ _ => exact hwake j _ (Proc.wakeup_state _ chan) (by simp)
  case kill j pid _ _ _ => exact hwake j _ (Proc.kill_state _ pid) (by simp)
  case setkilled i _ _ _ => exact hwake i _ (.inl (by simp)) rfl
  case setprocpriority j pid priority _ _ _ _ _ => exact hwake j _ (.inl (by simp)) (by simp)
  case dispatch i _ =>
    exact (h.setProc_keep (i := i) (p := (s.proc i).dispatch) rfl (by simp) (by simp [Alive])).congr rfl rfl
  case yield i _ _ _ =>
    exact (h.setProc_keep (i := i) (p := (s.proc i).yield) (by simp) (by simp) (by simp [Alive])).congr rfl rfl
  case sleep i chan _ _ _ =>
    exact (h.setProc_keep (i := i) (p := (s.proc i).sleep chan) rfl (by simp) (by simp [Alive])).congr rfl rfl
  case exit i status _ hin _ _ =>
    exact (h.setProc (i := i) (p := (s.proc i).exit status) (by simp) fun hf => absurd hin.2 hf).congr rfl rfl
  case allocFail i j r _ _ _ hst hr =>
    refine (h.setProc (i := j) (p := (s.proc j).alloc r s.nextpid) (fun _ => ?_) fun hf => ?_).congr rfl rfl
    · cases r <;> first | rfl | exact absurd rfl hr
    · exact absurd hst (h.forking j hf).1
  case allocOk i j hpc _ _ hst =>
    have hc := h.setProc (i := j) (p := (s.proc j).allocproc s.nextpid) (by simp) (by simp [Alive])
    refine (hc.setForking (i := i) (f := .allocated j) ?_).congr rfl rfl
    simp only [Sys.setProc_proc, update_apply]
    split_ifs
    · simp [Alive]
    · exact hlive i hpc
  case forkParent i np hpc _ hf =>
    have hst := hw.child i np (by simp [hf, ForkPc.child])
    have hc := h.setProc (i := np) (p := { s.proc np with parent := some i }) (by simp [hst])
      (h.forking np)
    refine hc.setForking ?_
    simp only [Sys.setProc_proc, update_apply]
    split_ifs with he
    · exact he ▸ hlive i hpc
    · exact hlive i hpc
  case forkReady i np hpc _ _ _ =>
    have hc := h.setProc (i := np) (p := { s.proc np with state := .runnable }) (by simp) (by simp [Alive])
    refine hc.setForking ?_
    simp only [Sys.setProc_proc, update_apply]
    split_ifs
    · simp [Alive]
    · exact hlive i hpc
  case reparent i j _ _ hp =>
    refine h.setProc (fun hst => ?_) (h.forking j)
    rw [h.parent j hst] at hp
    cases hp
  case waitFree i j _ _ _ _ hz => exact h.setProc (fun _ => rfl) fun hf => absurd hz (h.forking j hf).2

theorem clean_boot (C : ℕ) : Clean (boot C) := by
  refine ⟨fun i hi => ?_, fun i hi => absurd rfl hi⟩
  rcases eq_or_ne i initproc with rfl | hne
  · simp [boot, userinit] at hi
  · simp [boot, userinit, procinit, Proc.zero, hne]

theorem Reach.clean {h : List (Sys C × Ev C)} (hr : Reach C h s) : Clean s := by
  refine (Lts.Path.inv (I := fun s => Wf s ∧ Clean s) hr ⟨wf_boot C, clean_boot C⟩ ?_).2
  rintro s e s' ⟨hw, hc⟩ hs
  exact ⟨(trans_of_step hs).wf hw, (trans_of_step hs).clean hw hc⟩

end Clean

/-! ## The relation -/

/-- What `pop_off` of the last lock leaves in the interrupt-enable bit. -/
def Cpu.irq (x : Cpu) : Bool := if x.noff = 0 then x.intr else x.intena

/-- On the timer path. -/
def Thread.onTimer : Thread → Bool
  | .trapped | .charged | .counted => true
  | _ => false

/-- Where a thread that is switched out, or not yet past `sched`, continues. -/
def Thread.resume : Thread → Option Resume
  | .off r | .resuming r => some r
  | _ => none

/-- What the CPU that executes the thread of `p` is about to do: once the process has given it up, in
the process layer it is back in `scheduler`. -/
def Thread.pc (p : Slot) : Thread → Pc
  | .off _ => .test
  | _ => .run p

/-- Where CPU `c`, executing thread `me`, stands. -/
def Sys.pos (s : Sys C) (c : Fin C) (me : Option Slot) (irq : Bool) (hand : Hand) : Pos :=
  match me with
  | none => .sched (s.cpu c) irq hand
  | some p => .proc (s.thread p) (s.forking p) irq hand

structure Refines (m : Machine C) (s : Sys C) (H : Fin C → Hand) : Prop where
  same : m.mem.anon = s.mem.anon
  cpu : ∀ c p, (m.cpu c).thread = some p → s.cpu c = (s.thread p).pc p
  lock : ∀ c j, s.lock j = some c → m.holder (.proc j) = some c
  irq : ∀ c p, (m.cpu c).thread = some p → (m.cpu c).irq = true → (s.thread p).onTimer = false
  child : ∀ c j, H c = .child j → m.holder .wait = some c ∧
    ∃ p, (m.cpu c).thread = some p ∧ (m.mem.proc j).parent = some p
  clock : ∀ c, H c = .clock → c.val = 0 ∧ (m.cpu c).irq = false
  code : ∀ c, wp (m.cpu c).thread (m.code c) (fun _ => True)
    (s.pos c (m.cpu c).thread (m.cpu c).irq (H c))
  /-- A scheduler thread that has switched to a process. -/
  back : ∀ c p, (m.cpu c).thread = some p → ∀ b, wp none (m.schedCode c) (fun _ => True) (.sched .test b .empty)
  /-- A process that is switched out. -/
  parked : ∀ i, (∀ c, (m.cpu c).thread ≠ some i) → Alive (m.mem.state i) →
    ∃ r, (s.thread i).resume = some r ∧
      ∀ b, wp (some i) (m.procCode i) (fun _ => True) (.proc (.resuming r) (s.forking i) b .empty)

section

variable {m m1 : Machine C} {s s' : Sys C} {H : Fin C → Hand} {A : Fin C → Abs}
  {K : Slot → Option Slot} {c : Fin C} {x : Cpu} {k : List Instr} {η : Hand}

/-! ## What the relation says of one process -/

section

variable (h : Refines m s H) (i : Slot)
include h i

theorem Refines.proc : (m.mem.proc i).anon = (s.proc i).anon :=
  congrFun (congrArg Mem.proc h.same) i

theorem Refines.state : (s.proc i).state = m.mem.state i :=
  (congrArg Proc.state (h.proc i)).symm

theorem Refines.priority : (s.proc i).priority = (m.mem.proc i).priority :=
  (congrArg Proc.priority (h.proc i)).symm

theorem Refines.parent : (s.proc i).parent = (m.mem.proc i).parent :=
  (congrArg Proc.parent (h.proc i)).symm

theorem Refines.killed : (s.proc i).killed = (m.mem.proc i).killed :=
  (congrArg Proc.killed (h.proc i)).symm

/-- The same section of one process on both sides. -/
theorem Refines.setProc {q : Proc} (hpq : p.anon = q.anon) :
    (m.mem.setProc i p).anon = (s.mem.setProc i q).anon := by
  rw [Mem.anon_setProc, Mem.anon_setProc, h.same, hpq]

end

/-! ## Steps -/

/-- A section of CPU `c`, executing thread `me`, leaves the other CPUs and threads where they are. -/
structure Only (s s' : Sys C) (c : Fin C) (me : Option Slot) : Prop where
  cpu : ∀ c' ≠ c, s'.cpu c' = s.cpu c'
  thread : ∀ i, me ≠ some i → s'.thread i = s.thread i
  forking : ∀ i, me ≠ some i → s'.forking i = s.forking i

namespace Only

variable {me : Option Slot} {i : Slot}

theorem of_eq (hc : s'.cpu = s.cpu) (ht : s'.thread = s.thread) (hf : s'.forking = s.forking) :
    Only s s' c me := ⟨fun _ _ => by rw [hc], fun _ _ => by rw [ht], fun _ _ => by rw [hf]⟩

theorem refl : Only s s c me := of_eq rfl rfl rfl

theorem setProc (h : Only s s' c me) : Only s (s'.setProc i p) c me :=
  ⟨h.cpu, h.thread, h.forking⟩

theorem setLock (h : Only s s' c me) {o : Option (Fin C)} : Only s (s'.setLock i o) c me :=
  ⟨h.cpu, h.thread, h.forking⟩

theorem setCpu (h : Only s s' c me) {pc : Pc} : Only s (s'.setCpu c pc) c me :=
  ⟨fun c' hc => (update_of_ne hc _ _).trans (h.cpu c' hc), h.thread, h.forking⟩

theorem setThread (h : Only s s' c (some i)) {t : Thread} : Only s (s'.setThread i t) c (some i) :=
  ⟨h.cpu, fun j hj => (update_of_ne (fun he => hj (congrArg some he.symm)) _ _).trans (h.thread j hj), h.forking⟩

theorem setForking (h : Only s s' c (some i)) : Only s (s'.setForking i f) c (some i) :=
  ⟨h.cpu, h.thread, fun j hj => (update_of_ne (fun he => hj (congrArg some he.symm)) _ _).trans (h.forking j hj)⟩

end Only

/-- What CPU `c` has in hand after a step to `m1`, and that the others still have what they had. -/
structure Hands (m m1 : Machine C) (H : Fin C → Hand) (c : Fin C) (irq : Bool) (η : Hand) : Prop where
  child : ∀ j, η = .child j → m1.holder .wait = some c ∧
    ∃ p, (m.cpu c).thread = some p ∧ (m1.mem.proc j).parent = some p
  clock : η = .clock → c.val = 0 ∧ irq = false
  kids : ∀ c' ≠ c, ∀ j, H c' = .child j → m1.holder .wait = some c' ∧
    (m1.mem.proc j).parent = (m.mem.proc j).parent

section

variable (h : Refines m s H)
include h

/-- The CPU puts down what it has in hand, or goes on having it. -/
theorem Refines.hands {irq : Bool}
    (hhand : η = .empty ∨ η = H c ∧ (H c = .clock → irq = false) ∧ ∀ j, H c = .child j → m1.holder .wait = some c)
    (hwait : ∀ c' ≠ c, m.holder .wait = some c' → m1.holder .wait = some c')
    (hpar : ∀ j, (m1.mem.proc j).parent = (m.mem.proc j).parent) : Hands m m1 H c irq η := by
  refine ⟨fun j hj => ?_, fun hcl => ?_, fun c' hc j hj => ⟨hwait c' hc (h.child c' j hj).1, hpar j⟩⟩
  · rcases hhand with he | ⟨he, -, hw⟩
    · cases he.symm.trans hj
    · rw [he] at hj
      rw [hpar]
      exact ⟨hw j hj, (h.child c j hj).2⟩
  · rcases hhand with he | ⟨he, hi, -⟩
    · cases he.symm.trans hcl
    · rw [he] at hcl
      exact ⟨(h.clock c hcl).1, hi hcl⟩

/-- It goes on having it. -/
theorem Refines.hand_same (he : η = H c) :
    η = H c ∧ (H c = .clock → (m.cpu c).irq = false) ∧ ∀ j, H c = .child j → m.holder .wait = some c :=
  ⟨he, fun hcl => (h.clock c hcl).2, fun j hj => (h.child c j hj).1⟩

section

variable (hg : Good m A K) (hcpu : m1.cpu = update m.cpu c x) (hth : x.thread = (m.cpu c).thread) (hs : m1.schedCode = m.schedCode)
include hg hcpu hth hs

/-- CPU `c` makes a section, or none, and goes on with `k` in the same thread. -/
theorem Refines.step
    (hp : ∀ c' i, (m.cpu c').thread = some i → m1.procCode i = m.procCode i)
    (hsame : m1.mem.anon = s'.mem.anon)
    (hothers : ∀ c' ≠ c, s'.cpu c' = s.cpu c' ∧
      ∀ i, (m.cpu c').thread = some i → s'.thread i = s.thread i ∧ s'.forking i = s.forking i)
    (hown : ∀ p, (m.cpu c).thread = some p → s'.cpu c = (s'.thread p).pc p ∧
      (x.irq = true → (s'.thread p).onTimer = false))
    (hlock : ∀ c' j, s'.lock j = some c' → m1.holder (.proc j) = some c') (hand : Hands m m1 H c x.irq η)
    (hpark : ∀ i, (∀ c, (m.cpu c).thread ≠ some i) → Alive (m1.mem.state i) →
      ∃ r, (s'.thread i).resume = some r ∧
        ∀ b, wp (some i) (m1.procCode i) (fun _ => True) (.proc (.resuming r) (s'.forking i) b .empty))
    (hk : wp (m.cpu c).thread k (fun _ => True) (s'.pos c (m.cpu c).thread x.irq η)) :
    Refines (m1.setCode c k) s' (update H c η) := by
  have hself : m1.cpu c = x := by rw [hcpu, update_self]
  have hne : ∀ c' ≠ c, m1.cpu c' = m.cpu c' := fun c' hc => by rw [hcpu, update_of_ne hc]
  have hth' : ∀ c', (m1.cpu c').thread = (m.cpu c').thread := by
    intro c'
    rcases eq_or_ne c' c with rfl | hc
    · rw [hself, hth]
    · rw [hne c' hc]
  have hinj : ∀ c' ≠ c, ∀ i, (m1.cpu c).thread = some i → (m1.cpu c').thread ≠ some i := by
    intro c' hc i hi hi'
    rw [hth'] at hi hi'
    exact hc (hg.owned.thread_inj hi hi')
  refine
    { same := by rwa [setCode_mem], cpu := fun c' p ht => ?_, lock := by rwa [setCode_holder]
      irq := fun c' p ht hi => ?_, child := fun c' j hj => ?_, clock := fun c' hc' => ?_, code := fun c' => ?_
      back := fun c' p ht => ?_, parked := fun i hi ha => ?_ }
  · rw [setCode_cpu, hth'] at ht
    rcases eq_or_ne c' c with rfl | hc
    · exact (hown p ht).1
    · obtain ⟨hcpu', hthr⟩ := hothers c' hc
      rw [hcpu', (hthr p ht).1]
      exact h.cpu c' p ht
  · rw [setCode_cpu, hth'] at ht
    rw [setCode_cpu] at hi
    rcases eq_or_ne c' c with rfl | hc
    · exact (hown p ht).2 (hself ▸ hi)
    · rw [((hothers c' hc).2 p ht).1]
      exact h.irq c' p ht (hne c' hc ▸ hi)
  · rw [setCode_holder, setCode_cpu, setCode_mem, hth']
    rcases eq_or_ne c' c with rfl | hc
    · exact hand.child j (by rwa [update_self] at hj)
    · rw [update_of_ne hc] at hj
      obtain ⟨hw, hpar⟩ := hand.kids c' hc j hj
      rw [hpar]
      exact ⟨hw, (h.child c' j hj).2⟩
  · rw [setCode_cpu]
    rcases eq_or_ne c' c with rfl | hc
    · rw [hself]
      exact hand.clock (by rwa [update_self] at hc')
    · rw [hne c' hc]
      exact h.clock c' (by rwa [update_of_ne hc] at hc')
  · rw [setCode_cpu, hth']
    rcases eq_or_ne c' c with rfl | hc
    · rwa [code_setCode_self, hself, update_self]
    · rw [code_setCode_of_ne hc (hinj c' hc), code_congr (hth' c') hs (hp c'), update_of_ne hc, hne c' hc]
      have hcode := h.code c'
      obtain ⟨hcpu', hthr⟩ := hothers c' hc
      cases ht : (m.cpu c').thread with
      | none =>
        rw [ht] at hcode
        simpa only [Sys.pos, hcpu'] using hcode
      | some i =>
        rw [ht] at hcode
        simpa only [Sys.pos, hthr i ht] using hcode
  · rw [setCode_cpu] at ht
    rw [schedCode_setCode ht, hs]
    exact h.back c' p (hth' c' ▸ ht)
  · rw [setCode_cpu] at hi
    rw [setCode_mem] at ha
    rw [procCode_setCode (hi c)]
    exact hpark i (fun c' => hth' c' ▸ hi c') ha

/-- CPU `c` makes a section by which no process begins or ends. -/
theorem Refines.keep (hp : m1.procCode = m.procCode)
    (hsame : m1.mem.anon = s'.mem.anon) (honly : Only s s' c (m.cpu c).thread)
    (hown : ∀ p, (m.cpu c).thread = some p → s'.cpu c = (s'.thread p).pc p ∧
      (x.irq = true → (s'.thread p).onTimer = false))
    (hlock : ∀ c' j, s'.lock j = some c' → m1.holder (.proc j) = some c') (hand : Hands m m1 H c x.irq η)
    (halive : ∀ i, (∀ c, (m.cpu c).thread ≠ some i) → Alive (m1.mem.state i) → Alive (m.mem.state i))
    (hk : wp (m.cpu c).thread k (fun _ => True) (s'.pos c (m.cpu c).thread x.irq η)) :
    Refines (m1.setCode c k) s' (update H c η) := by
  refine h.step hg hcpu hth hs (fun _ _ _ => by rw [hp]) hsame (fun c' hc => ⟨honly.cpu c' hc, fun i hi => ?_⟩)
    hown hlock hand (fun i hi ha => ?_) hk
  · have hne : (m.cpu c).thread ≠ some i := fun hi' => hc (hg.owned.thread_inj hi' hi)
    exact ⟨honly.thread i hne, honly.forking i hne⟩
  · rw [hp, honly.thread i (hi c), honly.forking i (hi c)]
    exact h.parked i hi (halive i hi ha)

/-- CPU `c` makes no section. -/
theorem Refines.stutter (hp : m1.procCode = m.procCode)
    (hm : m1.mem = m.mem)
    (hirq : ∀ p, (m.cpu c).thread = some p → x.irq = true → (s.thread p).onTimer = false)
    (hlock : ∀ c' j, s.lock j = some c' → m1.holder (.proc j) = some c')
    (hhand : η = .empty ∨ η = H c ∧ (H c = .clock → x.irq = false) ∧
      ∀ j, H c = .child j → m1.holder .wait = some c)
    (hwait : ∀ c' ≠ c, m.holder .wait = some c' → m1.holder .wait = some c')
    (hk : wp (m.cpu c).thread k (fun _ => True) (s.pos c (m.cpu c).thread x.irq η)) :
    Refines (m1.setCode c k) s (update H c η) :=
  h.keep hg hcpu hth hs hp (hm ▸ h.same) .refl (fun p hp => ⟨h.cpu c p hp, hirq p hp⟩) hlock
    (h.hands hhand hwait fun j => by rw [hm]) (fun i _ => hm ▸ id) hk

end

/-- CPU `c` accesses the data as a section does. -/
theorem Refines.act (hg : Good m A K) {d : Mem} (hsame : d.anon = s'.mem.anon)
    (honly : Only s s' c (m.cpu c).thread)
    (hown : ∀ p, (m.cpu c).thread = some p → s'.cpu c = (s'.thread p).pc p ∧
      ((m.cpu c).irq = true → (s'.thread p).onTimer = false))
    (hlock : ∀ c' j, s'.lock j = some c' → m.holder (.proc j) = some c')
    (hhand : η = .empty ∨ η = H c)
    (hpar : ∀ j, (d.proc j).parent = (m.mem.proc j).parent)
    (halive : ∀ i, (∀ c, (m.cpu c).thread ≠ some i) → Alive (d.state i) → Alive (m.mem.state i))
    (hk : wp (m.cpu c).thread k (fun _ => True) (s'.pos c (m.cpu c).thread (m.cpu c).irq η)) :
    Refines ((m.setMem d).setCode c k) s' (update H c η) :=
  h.keep hg (x := m.cpu c) (update_eq_self c m.cpu).symm rfl rfl rfl hsame honly hown hlock
    (h.hands (hhand.imp_right h.hand_same) (fun _ _ => id) hpar) halive hk

end

end

end Xv6Mlfq
