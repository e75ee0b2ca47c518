import Xv6Mlfq.Kernel.RefineSwitch

/-!
# Xv6Mlfq.Kernel.RefineSection — the data accesses of the machine are the sections

Each access to the shared data is a section of the process layer: the lock that the machine holds there is
one that the process layer finds free, and both change the data in the same way.
-/

namespace Xv6Mlfq

open CInt Function Abs Machine Pos

variable {C : ℕ} {m : Machine C} {s : Sys C} {H : Fin C → Hand} {A : Fin C → Abs} {K : Slot → Option Slot}
  {c : Fin C} {i : Instr} {k rest : List Instr} {p j : Slot} {a : Act} {q : Proc} {t : Thread} {d : Mem}
  {chan : Chan} {pid : ℤ} {ch : Choice}

/-! ## Kinds of sections -/

theorem setProc_parent (hq : q.parent = (d.proc j).parent) (i : Slot) :
    ((d.setProc j q).proc i).parent = (d.proc i).parent := by
  rcases eq_or_ne i j with rfl | hi
  · simpa using hq
  · simp [hi]

theorem setProc_alive (hq : Alive q.state → Alive (d.state j)) (i : Slot)
    (ha : Alive ((d.setProc j q).state i)) : Alive (d.state i) := by
  rw [setProc_state] at ha
  split_ifs at ha with hi
  · exact hi ▸ hq ha
  · exact ha

/-- `wakeup` and `kill` end no life. -/
theorem alive_of_wake {st st' : ProcState} (h : st' = st ∨ st = .sleeping ∧ st' = .runnable)
    (ha : Alive st') : Alive st := by
  rcases h with rfl | ⟨rfl, -⟩
  · exact ha
  · simp [Alive]

/-- What the code of a process says of where it stands. -/
theorem Refines.at (h : Refines m s H) (ht : (m.cpu c).thread = some p) (hc : m.code c = i :: rest) :
    i.wp (some p) (wp (some p) rest fun _ => True)
      (.proc (s.thread p) (s.forking p) (m.cpu c).irq (H c)) := by
  have hwp := h.head hc
  rwa [ht] at hwp

/-- What the code of a scheduler thread says of where it stands. -/
theorem Refines.atSched (h : Refines m s H) (ht : (m.cpu c).thread = none) (hc : m.code c = i :: rest) :
    i.wp none (wp none rest fun _ => True) (.sched (s.cpu c) (m.cpu c).irq (H c)) := by
  have hwp := h.head hc
  rwa [ht] at hwp

theorem Sys.mayWake_of_idle (hidle : (s.cpu c).idle = true) : s.mayWake c j = true := by
  unfold Sys.mayWake
  split
  next i hi => rw [hi] at hidle; cases hidle
  next => exact hidle

section Sections

variable (h : Refines m s H) (hg : Good m A K)

include h hg

/-- A slot whose lock the CPU holds can be accessed in the process layer. -/
theorem Refines.lock_none (hj : .proc j ∈ (A c).held) (hfree : ∀ j, s.lock j ≠ some c) : s.lock j = none := by
  cases hl : s.lock j with
  | none => rfl
  | some c' =>
    obtain rfl : c' = c := hg.locked.agrees.unique ((hg.locked.agrees c' _).mp (h.lock c' j hl)) hj
    exact absurd hl (hfree j)

/-- A process past `sched` runs in the process layer, and finds the locks free that it holds. -/
theorem Refines.running (hw : Wf s) (ht : (m.cpu c).thread = some p) (hth : s.thread p = t) (hon : t.isOn = true) : s.cpu c =
    .run p ∧ ∀ j, .proc j ∈ (A c).held → s.lock j = none := by
  subst hth
  refine ⟨h.cpu_run ht (Thread.isOff_of_isOn hon), fun j hj => h.lock_none hg hj ?_⟩
  refine hw.lock_ne (h.cpu_of_thread ht).1 fun i hi => ?_
  obtain rfl := (h.cpu_of_thread ht).2 i hi
  exact Thread.isResuming_of_isOn hon

/-- The scheduler thread keeps no lock outside the selection. -/
theorem Refines.lock_none_of_idle (hw : Wf s) (hidle : (s.cpu c).idle = true) (hj : .proc j ∈ (A c).held) : s.lock j = none := by
  refine h.lock_none hg hj (hw.lock_ne (fun i hi => ?_) fun i hi => ?_) <;> (rw [hi] at hidle; cases hidle)

/-- A section of slot `j`, after which the thread stands where it stood. -/
theorem Refines.slot (a : Act) (q' : Proc) (hstep : s.step ⟨c, a⟩ = some (s.setProc j q')) (hq : q.anon = q'.anon) (hpar :
    q.parent = (m.mem.proc j).parent) (halive : Alive q.state → Alive (m.mem.state j)) (hk : wp (m.cpu c).thread k (fun _ =>
    True) (s.pos c (m.cpu c).thread (m.cpu c).irq (H c))) : Simulates s ((m.setMem (m.mem.setProc j q)).setCode c k) :=
  ⟨_, _, .inr ⟨_, hstep⟩, h.act hg (h.setProc j hq) Only.refl.setProc
    (fun p hp => ⟨h.cpu c p hp, h.irq c p hp⟩) h.lock (.inr rfl) (setProc_parent hpar)
    (fun i _ => setProc_alive halive i) hk⟩

/-- A process gives up its CPU. -/
theorem Refines.leave (ht : (m.cpu c).thread = some p) (a : Act) (r : Resume) (q' : Proc) (hstep : s.step ⟨c, a⟩ = some
    (((s.setProc p q').setThread p (.off r)).setCpu c .test)) (hq : q.anon = q'.anon) (hpar : q.parent = (m.mem.proc p).parent)
    (hk : wp (some p) k (fun _ => True) (.proc (.off r) (s.forking p) (m.cpu c).irq (H c))) : Simulates s ((m.setMem
    (m.mem.setProc p q)).setCode c k) := by
  refine ⟨_, update H c (H c), .inr ⟨_, hstep⟩, h.act hg (h.setProc p hq)
    (ht ▸ Only.refl.setProc.setThread.setCpu) (fun p' hp => ?_) h.lock (.inr rfl) (setProc_parent hpar)
    (fun i hi ha => ?_) ?_⟩
  · obtain rfl : p = p' := Option.some.inj (ht.symm.trans hp)
    simp [Thread.pc, Thread.onTimer]
  · have hip : i ≠ p := fun he => hi c (he ▸ ht)
    rwa [setProc_state_of_ne _ _ hip] at ha
  · rw [ht]
    simpa [Sys.pos] using hk

/-- A process goes on at `t`; of the data, `d` changes only what `s'` changes. -/
theorem Refines.goto (ht : (m.cpu c).thread = some p) (a : Act) (t : Thread) (s' : Sys C) (η : Hand) (hstep : s.step ⟨c, a⟩ =
    some (s'.setThread p t)) (hsame : d.anon = s'.mem.anon) (hpar : ∀ j, (d.proc j).parent = (m.mem.proc j).parent) (halive : ∀
    j, Alive (d.state j) → Alive (m.mem.state j)) (honly : Only s s' c (some p)) (hfk : s'.forking = s.forking) (hlk : s'.lock =
    s.lock) (hrun : s'.cpu c = t.pc p) (hirq : (m.cpu c).irq = true → t.onTimer = false) (hη : η = .empty ∨ η = H c) (hk : wp
    (some p) k (fun _ => True) (.proc t (s.forking p) (m.cpu c).irq η)) : Simulates s ((m.setMem d).setCode c k) := by
  refine ⟨_, update H c η, .inr ⟨_, hstep⟩, h.act hg hsame (ht ▸ honly.setThread) (fun p' hp => ?_)
    (hlk ▸ h.lock) hη hpar (fun i _ => halive i) ?_⟩
  · obtain rfl : p = p' := Option.some.inj (ht.symm.trans hp)
    simpa [hrun] using hirq
  · rw [ht]
    simpa [Sys.pos, hfk] using hk

/-- A section under `wait_lock`, after which the process has nothing in hand. -/
theorem Refines.family (ht : (m.cpu c).thread = some p) (hwait : .wait ∈ (A c).held) (a : Act) (s' : Sys C) (q' : Proc) (hstep :
    s.step ⟨c, a⟩ = some s') (hmem : s'.mem = s.mem.setProc j q') (honly : Only s s' c (some p)) (hcpu : s'.cpu = s.cpu) (hth :
    s'.thread = s.thread) (hlk : s'.lock = s.lock) (hq : q.anon = q'.anon) (halive : Alive q.state → Alive (m.mem.state j)) (hk
    : wp (some p) k (fun _ => True) (.proc (s.thread p) (s'.forking p) (m.cpu c).irq .empty)) : Simulates s ((m.setMem
    (m.mem.setProc j q)).setCode c k) := by
  have hholder : m.holder .wait = some c := (hg.locked.agrees c _).mpr hwait
  refine ⟨s', update H c .empty, .inr ⟨_, hstep⟩, h.keep hg (x := m.cpu c) (update_eq_self c m.cpu).symm rfl
    rfl rfl (hmem ▸ h.setProc j hq) (ht ▸ honly) (fun p' hp => ?_) (hlk ▸ h.lock)
    ⟨by simp, by simp, fun c' hc' j' hj' => ?_⟩ (fun i _ => setProc_alive halive i) ?_⟩
  · rw [hcpu, hth]
    exact ⟨h.cpu c p' hp, h.irq c p' hp⟩
  · -- no other CPU has a child in hand
    exact absurd (Option.some.inj ((h.child c' j' hj').1.symm.trans hholder)) hc'
  · rw [ht]
    simpa [Sys.pos, hth] using hk

/-- A section of the scheduler thread, or of an interrupt of it. -/
theorem Refines.idle (ht : (m.cpu c).thread = none) (a : Act) (s' : Sys C) (η : Hand) (hstep : s.step ⟨c, a⟩ = some s') (hsame :
    d.anon = s'.mem.anon) (honly : Only s s' c none) (hlock : ∀ c' j, s'.lock j = some c' → m.holder (.proc j) = some c') (hη :
    η = .empty ∨ η = H c) (hpar : ∀ j, (d.proc j).parent = (m.mem.proc j).parent) (halive : ∀ j, Alive (d.state j) → Alive
    (m.mem.state j)) (hk : wp none k (fun _ => True) (.sched (s'.cpu c) (m.cpu c).irq η)) : Simulates s ((m.setMem d).setCode c
    k) := by
  refine ⟨s', update H c η, .inr ⟨_, hstep⟩, h.act hg hsame (ht ▸ honly) (fun p hp => ?_) hlock hη hpar
    (fun i _ => halive i) ?_⟩
  · cases ht.symm.trans hp
  · rw [ht]
    exact hk

/-! ## A process on itself -/

section

variable (hw : Wf s) (ht : (m.cpu c).thread = some p)
include hw ht

theorem Refines.charge (hc : m.code c = .charge :: rest) : Simulates s ((m.setMem
    (m.mem.setProc p (m.mem.proc p).mlfqCheckTimer)).setCode c rest) := by
  obtain ⟨(hth : s.thread p = .trapped), (hirq : (m.cpu c).irq = false), hQ⟩ := h.at ht hc
  obtain ⟨hrun, hlock⟩ := h.running hg hw ht hth rfl
  refine h.goto hg ht .charge .charged (s.setProc p (s.proc p).mlfqCheckTimer) _ ?_
    (h.setProc p (congrArg Proc.mlfqCheckTimer (h.proc p))) (setProc_parent rfl)
    (setProc_alive (q := (m.mem.proc p).mlfqCheckTimer) id) Only.refl.setProc rfl rfl hrun (by simp [hirq])
    (.inr rfl) hQ
  simp [Sys.step, Sys.processStep, hrun, hth, hlock p (hg.at ht hc rfl)]

theorem Refines.count (hc : m.code c = .count :: rest) : Simulates s ((m.setMem
    { m.mem with mlfqTicks := incU64 m.mem.mlfqTicks }).setCode c rest) := by
  obtain ⟨(hth : s.thread p = .charged), (hirq : (m.cpu c).irq = false), hQ⟩ := h.at ht hc
  obtain ⟨hrun, -⟩ := h.running hg hw ht hth rfl
  have hticks : m.mem.mlfqTicks = s.mlfqTicks := congrArg Mem.mlfqTicks h.same
  refine h.goto hg ht .count .counted { s with mlfqTicks := incU64 s.mlfqTicks } _ ?_ ?_ (fun _ => rfl)
    (fun _ => id) (.of_eq rfl rfl rfl) rfl rfl hrun (by simp [hirq]) (.inr rfl) hQ
  · simp [Sys.step, Sys.processStep, hrun, hth]
  · rw [hticks]
    exact congrArg (fun d : Mem => { d with mlfqTicks := incU64 s.mlfqTicks }) h.same

/-- `usertrap` finds the process killed, before `mlfq_check_timer`. -/
theorem Refines.trapExit (hth : s.thread p = .trapped) (hfk : s.forking p = .idle)
    (hkill : (m.mem.proc p).killed ≠ 0) (hk : wp (some p) k (fun _ => True) (.proc .normal .idle (m.cpu c).irq (H c))) :
    Simulates s (m.setCode c k) := by
  obtain ⟨hrun, -⟩ := h.running hg hw ht hth rfl
  refine h.goto hg ht .trapExit .normal s _ ?_ h.same (fun _ => rfl) (fun _ => id) .refl rfl rfl hrun
    (fun _ => rfl) (.inr rfl) (hfk ▸ hk)
  rw [← h.killed] at hkill
  simp [Sys.step, Sys.processStep, hrun, hth, hfk, hkill]

theorem Refines.yieldMark (hc : m.code c = .yieldMark :: rest) : Simulates s
    ((m.setMem (m.mem.setProc p (m.mem.proc p).yield)).setCode c rest) := by
  obtain ⟨(hth : s.thread p = .counted), hQ⟩ := h.at ht hc
  obtain ⟨hheld, -⟩ := hg.at ht hc rfl
  obtain ⟨hrun, hlock⟩ := h.running hg hw ht hth rfl
  refine h.leave hg ht .yield .yield (s.proc p).yield ?_ ?_ (by simp) hQ
  · simp [Sys.step, Sys.processStep, hrun, hth, hlock p (by simp [hheld])]
  · rw [Proc.yield_anon, Proc.yield_anon, h.proc]

theorem Refines.sleepMark (hc : m.code c = .sleepMark chan :: rest) :
    Simulates s ((m.setMem (m.mem.setProc p ((m.mem.proc p).sleep chan))).setCode c rest) := by
  obtain ⟨⟨(hth : s.thread p = .normal), (hfk : s.forking p = .idle), -⟩, hQ⟩ := h.at ht hc
  obtain ⟨hheld, -⟩ := hg.at ht hc rfl
  obtain ⟨hrun, hlock⟩ := h.running hg hw ht hth rfl
  refine h.leave hg ht (.sleep chan) .sleep ((s.proc p).sleep chan) ?_ (congrArg (Proc.sleep chan) (h.proc p))
    rfl hQ
  simp [Sys.step, Sys.processStep, Sys.InSyscall, hrun, hth, hfk, hlock p (by simp [hheld])]

theorem Refines.exitMark {status : ℤ} (hc : m.code c = .exitMark status :: rest) :
    Simulates s ((m.setMem (m.mem.setProc p ((m.mem.proc p).exit status))).setCode c rest) := by
  obtain ⟨⟨(hth : s.thread p = .normal), (hfk : s.forking p = .idle), -⟩, hne, hQ⟩ := h.at ht hc
  have hA := hg.at ht hc rfl
  obtain ⟨hrun, hlock⟩ := h.running hg hw ht hth rfl
  have hinit : p ≠ initproc := fun he => hne (congrArg some he)
  refine h.leave hg ht (.exit status) .exit ((s.proc p).exit status) ?_ (congrArg (Proc.exit status) (h.proc p))
    rfl hQ
  simp [Sys.step, Sys.processStep, Sys.InSyscall, hrun, hth, hfk, hinit, hlock p (by simp [hA])]

end

/-- `sched` has returned in `sleep`. -/
theorem Refines.tidy (ht : (m.cpu c).thread = some p) (hc : m.code c = .tidy :: rest) : Simulates s ((m.setMem (m.mem.setProc p
    (m.mem.proc p).tidy)).setCode c rest) := by
  obtain ⟨(hth : s.thread p = .resuming .sleep), hQ⟩ := h.at ht hc
  have hrun : s.cpu c = .run p := h.cpu_run ht (by rw [hth]; rfl)
  have hstep : s.step ⟨c, .resume⟩ =
      some (((s.setProc p (s.proc p).tidy).setThread p .normal).setLock p none) := by
    simp [Sys.step, Sys.processStep, hrun, hth]
  refine ⟨_, update H c (H c), .inr ⟨_, hstep⟩, h.act hg (h.setProc p (congrArg Proc.tidy (h.proc p)))
    (ht ▸ Only.refl.setProc.setThread.setLock) (fun p' hp => ?_) (fun c' j hj => h.lock c' j ?_)
    (.inr rfl) (setProc_parent rfl) (fun i _ => setProc_alive (q := (m.mem.proc p).tidy) id i) ?_⟩
  · obtain rfl : p = p' := Option.some.inj (ht.symm.trans hp)
    simp [Thread.pc, Thread.onTimer, hrun]
  · have hjp : j ≠ p := by
      rintro rfl
      simp at hj
    simpa [hjp] using hj
  · rw [ht]
    simpa [Sys.pos] using hQ

theorem Refines.setkilled (hw : Wf s) (ht : (m.cpu c).thread = some p) (hc : m.code c = .setkilled :: rest) : Simulates s
    ((m.setMem (m.mem.setProc p (m.mem.proc p).setkilled)).setCode c rest) := by
  obtain ⟨⟨(hth : s.thread p = .normal), (hfk : s.forking p = .idle), -⟩, hQ⟩ := h.at ht hc
  obtain ⟨hrun, hlock⟩ := h.running hg hw ht hth rfl
  refine h.slot hg .setkilled (s.proc p).setkilled ?_ (congrArg Proc.setkilled (h.proc p)) rfl id (ht ▸ hQ)
  simp [Sys.step, Sys.syscallStep, Sys.InSyscall, hrun, hth, hfk, hlock p (hg.at ht hc rfl)]

/-! ## A process on others -/

theorem Refines.killSlot (hw : Wf s) (ht : (m.cpu c).thread = some p) (hc : m.code c = .killSlot pid j :: rest) (hpid
    : (m.mem.proc j).pid = pid) : Simulates s ((m.setMem (m.mem.setProc j ((m.mem.proc j).kill pid))).setCode c (.release (.proc
    j) :: rest)) := by
  obtain ⟨⟨(hth : s.thread p = .normal), (hfk : s.forking p = .idle), (hH : H c = .empty)⟩, hQ⟩ := h.at ht hc
  obtain ⟨-, hA⟩ := hg.at ht hc rfl
  obtain ⟨hrun, hlock⟩ := h.running hg hw ht hth rfl
  subst hpid
  refine h.slot hg (.kill j (s.proc j).pid) ((s.proc j).kill (s.proc j).pid) ?_ ?_ (by simp)
    (alive_of_wake (Proc.kill_state _ _)) ?_
  · simp [Sys.step, Sys.syscallStep, Sys.InSyscall, hrun, hth, hfk, hlock j (by simp [hA])]
  · rw [Proc.kill_anon, Proc.kill_anon, h.proc]
  · rw [ht]
    simpa [Sys.pos, hth, hfk, hH, Pc.idle, Thread.isResuming] using hQ

theorem Refines.setprioritySlot {priority : ℤ} (hw : Wf s) (ht : (m.cpu c).thread = some p) (hc : m.code c =
    .setprioritySlot pid priority j :: rest) (hpid : (m.mem.proc j).hasPid pid = true) : Simulates s ((m.setMem (m.mem.setProc j
    ((m.mem.proc j).setprocpriority pid priority))).setCode c (.release (.proc j) :: rest)) := by
  obtain ⟨h0, h2, ⟨(hth : s.thread p = .normal), (hfk : s.forking p = .idle), (hH : H c = .empty)⟩, hQ⟩ :=
    h.at ht hc
  obtain ⟨-, hA⟩ := hg.at ht hc rfl
  obtain ⟨hrun, hlock⟩ := h.running hg hw ht hth rfl
  obtain ⟨hpid, hst⟩ : (m.mem.proc j).pid = pid ∧ (m.mem.proc j).state ≠ .unused := by
    simpa [Proc.hasPid] using hpid
  have hst' : (s.proc j).state ≠ .unused := by rwa [h.state]
  subst hpid
  refine h.slot hg (.setprocpriority j (s.proc j).pid priority)
    ((s.proc j).setprocpriority (s.proc j).pid priority) ?_ ?_ (by simp) ?_ ?_
  · simp [Sys.step, Sys.syscallStep, Sys.InSyscall, hrun, hth, hfk, hlock j (by simp [hA]), h0.not_gt, h2.not_gt]
  · rw [Proc.setprocpriority_anon hst, Proc.setprocpriority_anon hst', h.proc]
  · rw [Proc.setprocpriority_state]
    exact id
  · rw [ht]
    simpa [Sys.pos, hth, hfk, hH, Pc.idle, Thread.isResuming] using hQ

/-- `wakeup`, in a process or in an interrupt. -/
theorem Refines.wakeupSlot (hw : Wf s) (hc : m.code c = .wakeupSlot chan j :: rest) : Simulates s ((m.setMem
    (m.mem.setProc j ((m.mem.proc j).wakeup chan))).setCode c rest) := by
  obtain ⟨⟨hidle, hth⟩, hne, hQ⟩ := h.head hc
  obtain ⟨hheld, -⟩ := hg.needs hc rfl
  refine h.slot hg (.wakeup j chan) ((s.proc j).wakeup chan) ?_ ?_ (by simp)
    (alive_of_wake (Proc.wakeup_state _ _)) hQ
  · cases ht : (m.cpu c).thread with
    | none =>
      rw [ht] at hidle
      have hlock := h.lock_none_of_idle hg hw hidle hheld
      simp [Sys.step, Sys.mayWake_of_idle hidle, hlock]
    | some p =>
      rw [ht] at hth hne
      have hth : s.thread p = .normal ∨ s.thread p = .trapped := hth
      have hjp : j ≠ p := fun he => hne (congrArg some he.symm)
      have hon : (s.thread p).isOn = true := by rcases hth with he | he <;> rw [he] <;> rfl
      obtain ⟨hrun, hlock⟩ := h.running hg hw ht rfl hon
      simp [Sys.step, Sys.mayWake, hrun, hth, hjp, hlock j hheld]
  · rw [Proc.wakeup_anon, Proc.wakeup_anon, h.proc]

section

variable (hw : Wf s) (ht : (m.cpu c).thread = some p)
include hw ht

/-- `reparent` gives a child to `initproc`. -/
theorem Refines.reparentFrom (hc : m.code c = .reparentFrom j :: rest) (hpar :
    (m.mem.proc j).parent = some p) : Simulates s ((m.setMem (m.mem.setProc j
    { m.mem.proc j with parent := some initproc })).setCode c (.wakeupFrom (.proc initproc) 0 :: loop .reparentFrom j ++ rest)) := by
  obtain ⟨⟨(hth : s.thread p = .normal), (hfk : s.forking p = .idle), (hH : H c = .empty)⟩, hQ⟩ := h.at ht hc
  obtain ⟨-, hA⟩ := hg.at ht hc rfl
  obtain ⟨hrun, -⟩ := h.running hg hw ht hth rfl
  refine h.family hg ht (by simp [hA]) (.reparent j) (s.setProc j { s.proc j with parent := some initproc })
    { s.proc j with parent := some initproc } ?_ rfl Only.refl.setProc rfl rfl rfl
    (congrArg (fun q : Proc => { q with parent := some initproc }) (h.proc j)) id ?_
  · simp [Sys.step, Sys.syscallStep, Sys.InSyscall, hrun, hth, hfk, h.parent, hpar]
  · have hQ' : wp (some p) rest (fun _ => True) (.proc .normal .idle (m.cpu c).irq .empty) := by
      simpa [hth, hfk, hH] using hQ
    have hloop := wp_append.mpr (wp_loop (f := .reparentFrom) (fun _ => ⟨⟨rfl, rfl, rfl⟩, hQ'⟩) hQ' j)
    simpa [hth, hfk, Pc.idle] using hloop

theorem Refines.freeproc (hc : m.code c = .freeproc j :: rest) : Simulates s
    ((m.setMem (m.mem.setProc j (m.mem.proc j).freeproc)).setCode c rest) := by
  obtain ⟨⟨(hth : s.thread p = .normal), (hfk : s.forking p = .idle)⟩, (hH : H c = .child j), hQ⟩ := h.at ht hc
  obtain ⟨-, hA, -⟩ := hg.at ht hc rfl
  obtain ⟨hrun, hlock⟩ := h.running hg hw ht hth rfl
  have hz : (s.proc j).state = .zombie := by
    rw [h.state]
    exact ((hg.owned.fits c).know (j, .is .zombie) (by simp [hA])).2
  -- the child is still this process's: nobody else has held `wait_lock`
  obtain ⟨-, p', hp', hpar⟩ := h.child c j hH
  obtain rfl : p = p' := Option.some.inj (ht.symm.trans hp')
  refine h.family hg ht (by simp [hA]) (.waitFree j) (s.setProc j (s.proc j).freeproc) (s.proc j).freeproc ?_ rfl
    Only.refl.setProc rfl rfl rfl (congrArg Proc.freeproc (h.proc j)) (by simp [Alive]) ?_
  · simp [Sys.step, Sys.syscallStep, Sys.InSyscall, hrun, hth, hfk, hlock j (by simp [hA]), h.parent, hpar, hz]
  · simpa [hth, hfk] using hQ

theorem Refines.setParent (hc : m.code c = .setParent j :: rest) : Simulates s
    ((m.setMem (m.mem.setProc j { m.mem.proc j with parent := some p })).setCode c rest) := by
  obtain ⟨(hth : s.thread p = .normal), (hfk : s.forking p = .allocated j), (hH : H c = .empty), hQ⟩ :=
    h.at ht hc
  obtain ⟨-, ⟨hheld, -⟩, -⟩ := hg.at ht hc rfl
  obtain ⟨hrun, -⟩ := h.running hg hw ht hth rfl
  refine h.family hg ht (by simp [hheld]) .forkParent
    ((s.setProc j { s.proc j with parent := some p }).setForking p (.parented j))
    { s.proc j with parent := some p } ?_ rfl Only.refl.setProc.setForking rfl rfl rfl
    (congrArg (fun q : Proc => { q with parent := some p }) (h.proc j)) id ?_
  · simp [Sys.step, Sys.processStep, hrun, hth, hfk]
  · simpa [hH] using hQ

theorem Refines.setRunnable (hc : m.code c = .setRunnable j :: rest) : Simulates s
    ((m.setMem (m.mem.setProc j { m.mem.proc j with state := .runnable })).setCode c rest) := by
  obtain ⟨(hth : s.thread p = .normal), (hfk : s.forking p = .parented j), hQ⟩ := h.at ht hc
  obtain ⟨-, ⟨hheld, -⟩, -⟩ := hg.at ht hc rfl
  obtain ⟨hrun, hlock⟩ := h.running hg hw ht hth rfl
  have hused : m.mem.state j = .used := by
    rw [← h.state]
    exact hw.child p j (by rw [hfk]; rfl)
  have hstep : s.step ⟨c, .forkReady⟩ =
      some ((s.setProc j { s.proc j with state := .runnable }).setForking p .idle) := by
    simp [Sys.step, Sys.processStep, hrun, hth, hfk, hlock j (by simp [hheld])]
  refine ⟨_, update H c (H c), .inr ⟨_, hstep⟩, h.act hg
    (h.setProc j (congrArg (fun q : Proc => { q with state := .runnable }) (h.proc j)))
    (ht ▸ Only.refl.setProc.setForking) (fun p' hp => ⟨h.cpu c p' hp, h.irq c p' hp⟩) h.lock (.inr rfl)
    (setProc_parent rfl) (fun i _ => setProc_alive (fun _ => ?_) i) ?_⟩
  · rw [hused]
    simp [Alive]
  · rw [ht]
    simpa [Sys.pos] using hQ

end

/-! ## The scheduler thread -/

theorem Refines.boostTest (ht : (m.cpu c).thread = none) (hc : m.code c = .boostTest :: rest) (hx :
    Instr.boostTest.expandAny (m.cpu c).proc ch m.mem = some (d, k)) : Simulates s ((m.setMem d).setCode c (k ++ rest)) := by
  obtain ⟨(hpc : s.cpu c = .test), -, (hH : H c = .empty), hQ⟩ := h.atSched ht hc
  have hticks : m.mem.mlfqTicks = s.mlfqTicks := congrArg Mem.mlfqTicks h.same
  simp only [Instr.expandAny] at hx
  split_ifs at hx with hb <;> cases hx <;> rw [hticks] at hb
  · refine h.idle hg ht .boostTest ({ s with mlfqTicks := 0 }.setCpu c .boostTick) _ ?_ ?_ (Only.setCpu ?_) h.lock
      (.inr rfl) (fun _ => rfl) (fun _ => id) ?_
    · simp [Sys.step, Sys.schedulerStep, hpc, hb]
    · exact congrArg (fun d : Mem => { d with mlfqTicks := 0 }) h.same
    · exact .of_eq rfl rfl rfl
    · simpa [hpc, hH, Pc.idle, Thread.isResuming] using hQ
  · refine h.idle hg ht .boostTest (s.setCpu c (.scan 0 0)) _ ?_ h.same Only.refl.setCpu h.lock (.inr rfl)
      (fun _ => rfl) (fun _ => id) ?_
    · simp [Sys.step, Sys.schedulerStep, hpc, hb]
    · simpa [hpc, hH, Pc.idle, Thread.isResuming] using hQ

theorem Refines.recordBoost (ht : (m.cpu c).thread = none) (hc : m.code c = .recordBoost :: rest) : Simulates s ((m.setMem
    { m.mem with lastBoostTick := ofU32 m.mem.ticks }).setCode c rest) := by
  obtain ⟨(hpc : s.cpu c = .boostTick), hQ⟩ := h.atSched ht hc
  have hticks : m.mem.ticks = s.ticks := congrArg Mem.ticks h.same
  refine h.idle hg ht .recordBoost ({ s with lastBoostTick := ofU32 s.ticks }.setCpu c (.boost 0)) _ ?_ ?_
    (Only.setCpu ?_) h.lock (.inr rfl) (fun _ => rfl) (fun _ => id) ?_
  · simp [Sys.step, Sys.schedulerStep, hpc]
  · rw [hticks]
    exact congrArg (fun d : Mem => { d with lastBoostTick := ofU32 s.ticks }) h.same
  · exact .of_eq rfl rfl rfl
  · simpa using hQ

theorem Refines.boostSlot (hw : Wf s) (ht : (m.cpu c).thread = none) (hc : m.code c = .boostSlot j :: rest) : Simulates s
    ((m.setMem (m.mem.setProc j (m.mem.proc j).priorityBoost)).setCode c rest) := by
  obtain ⟨(hpc : s.cpu c = .boost j), hQ⟩ := h.atSched ht hc
  obtain ⟨-, hA⟩ := hg.needs hc rfl
  have hlock : s.lock j = none := h.lock_none_of_idle hg hw (by rw [hpc]; rfl) (by simp [hA])
  refine h.idle hg ht .boostSlot ((s.setProc j (s.proc j).priorityBoost).setCpu c (boostNext j)) _ ?_
    (h.setProc j ?_) Only.refl.setProc.setCpu h.lock (.inr rfl) (setProc_parent (by simp))
    (setProc_alive (by simp)) ?_
  · simp [Sys.step, Sys.schedulerStep, hpc, hlock]
  · rw [Proc.priorityBoost_anon, Proc.priorityBoost_anon, h.proc]
  · simpa using hQ

theorem Refines.scanSlot {q : Fin NMLFQ} (hw : Wf s) (ht : (m.cpu c).thread = none) (hc : m.code c = .scanSlot q j
    :: rest) (hx : (Instr.scanSlot q j).expandAny (m.cpu c).proc ch m.mem = some (d, k)) : Simulates s ((m.setMem d).setCode c
    (k ++ rest)) := by
  obtain ⟨(hpc : s.cpu c = .scan q j), -, (hH : H c = .empty), hQ⟩ := h.atSched ht hc
  obtain ⟨-, hA⟩ := hg.needs hc rfl
  have hheld : .proc j ∈ (A c).held := by simp [hA]
  have hlock := h.lock_none_of_idle hg hw (by rw [hpc]; rfl) hheld
  simp only [Instr.expandAny] at hx
  split_ifs at hx with hr <;> cases hx
  · refine h.idle hg ht .scanSlot ((s.setLock j (some c)).setCpu c (.selected j)) _ ?_ h.same
      Only.refl.setLock.setCpu (fun c' i hi => ?_) (.inr rfl) (fun _ => rfl) (fun _ => id) ?_
    · simp [Sys.step, Sys.schedulerStep, hpc, hlock, h.state, h.priority, hr]
    · rcases eq_or_ne i j with rfl | hij
      · obtain rfl : c = c' := by simpa using hi
        exact (hg.locked.agrees c _).mpr hheld
      · exact h.lock c' i (by simpa [hij] using hi)
    · simpa [hH, Pc.idle, Thread.isResuming] using hQ
  · refine h.idle hg ht .scanSlot (s.setCpu c (scanNext q j)) _ ?_ h.same Only.refl.setCpu h.lock (.inr rfl)
      (fun _ => rfl) (fun _ => id) ?_
    · simp [Sys.step, Sys.schedulerStep, hpc, hlock, h.state, h.priority, hr]
    · have hscan : wp none (scanNextCode q j ++ rest) (fun _ => True)
          (.sched (scanNext q j) (m.cpu c).irq .empty) :=
        wp_append.mpr (wp_scanNextCode (by simpa [hH] using hQ))
      simpa [hH, scanNext_idle, Thread.isResuming] using hscan

/-- `clockintr`, on CPU 0. -/
theorem Refines.tick (hw : Wf s) (hc : m.code c = .tick :: rest) : Simulates s ((m.setMem
    { m.mem with ticks := incU32 m.mem.ticks }).setCode c rest) := by
  have hticks : m.mem.ticks = s.ticks := congrArg Mem.ticks h.same
  have hsame : H c = .clock →
      ({ m.mem with ticks := incU32 m.mem.ticks } : Mem).anon = (s.clockintr c).mem.anon := by
    intro hH
    have hinc : (s.clockintr c).mem = { s.mem with ticks := incU32 s.ticks } := by
      simp [Sys.clockintr, Sys.mem, (h.clock c hH).1]
    rw [hticks, hinc]
    exact congrArg (fun d : Mem => { d with ticks := incU32 s.ticks }) h.same
  cases ht : (m.cpu c).thread with
  | none =>
    obtain ⟨(hidle : (s.cpu c).idle = true), hH, hQ⟩ := h.atSched ht hc
    refine h.idle hg ht .timer (s.clockintr c) .empty ?_ (hsame hH) (.of_eq rfl rfl rfl) h.lock (.inl rfl)
      (fun _ => rfl) (fun _ => id) hQ
    simp only [Sys.step]
    split
    next i hi => rw [hi] at hidle; cases hidle
    next => rw [if_pos hidle]
  | some p =>
    obtain ⟨(hth : s.thread p = .normal), (hirq : (m.cpu c).irq = false), hH, hQ⟩ := h.at ht hc
    obtain ⟨hrun, -⟩ := h.running hg hw ht hth rfl
    refine h.goto hg ht .timer .trapped (s.clockintr c) .empty ?_ (hsame hH) (fun _ => rfl) (fun _ => id)
      (.of_eq rfl rfl rfl) rfl rfl hrun (by simp [hirq]) (.inl rfl) hQ
    simp [Sys.step, hrun, hth]

end Sections

end Xv6Mlfq
