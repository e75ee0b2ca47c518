import Xv6Mlfq.Quantum
import Xv6Mlfq.Kernel.RefineSection

/-!
# Xv6Mlfq.Kernel.Simulation — every run of the machine is a run of the process layer

Every instruction of the machine is one section of the process layer or none, so whatever the machine
reaches, on any number of CPUs, the process layer reaches, up to pids (`MachineReach.refines`).  What holds
of every state of the process layer holds of the machine.
-/

namespace Xv6Mlfq

open CInt Function Abs Machine Pos

variable {C : ℕ} {m m' : Machine C} {s : Sys C} {H : Fin C → Hand} {A : Fin C → Abs}
  {K : Slot → Option Slot} {c : Fin C} {x : Cpu} {i : Instr} {k rest : List Instr} {p j : Slot} {d : Mem}
  {ch : Choice} {irq : Bool} {η : Hand} {pid : ℤ}

/-! ## Control points -/

theorem Sys.pos_of_calm (h : (s.pos c (some p) irq η).Calm) :
    s.pos c (some p) irq η = .proc .normal .idle irq .empty := by
  obtain ⟨hth, hfk, hη⟩ := h
  simp only [Sys.pos, Pos.proc] at hth hfk hη ⊢
  rw [hth, hfk, hη]

theorem Sys.pos_of_inWait (h : (s.pos c (some p) irq η).InWait) :
    s.pos c (some p) irq η = .proc .normal .idle irq η := by
  obtain ⟨hth, hfk⟩ := h
  simp only [Sys.pos, Pos.proc] at hth hfk ⊢
  rw [hth, hfk]

section Steps

variable (h : Refines m s H) (hg : Good m A K)

include h hg

/-- A control point of a system call. -/
theorem Refines.calm (ht : (m.cpu c).thread = some p) (hcalm : (s.pos c (some p) (m.cpu c).irq (H c)).Calm) (hk : wp (some p) k
    (fun _ => True) (.proc .normal .idle (m.cpu c).irq .empty)) : Simulates s (m.setCode c k) := by
  refine h.control hg ?_
  rw [ht, Sys.pos_of_calm hcalm]
  exact hk

/-- A control point of `wait`. -/
theorem Refines.inWait (ht : (m.cpu c).thread = some p) (hin : (s.pos c (some p) (m.cpu c).irq (H c)).InWait) (hk : wp (some p)
    k (fun _ => True) (.proc .normal .idle (m.cpu c).irq (H c))) : Simulates s (m.setCode c k) := by
  refine h.control hg ?_
  rw [ht, Sys.pos_of_inWait hin]
  exact hk

/-- `wait` has found a child. -/
theorem Refines.foundChild (ht : (m.cpu c).thread = some p) (hin : (s.pos c (some p) (m.cpu c).irq (H c)).InWait) (hpar :
    (m.mem.proc j).parent = some p) (hwait : m.holder .wait = some c) (hk : wp (some p) k (fun _ => True) (.proc .normal .idle
    (m.cpu c).irq (.child j))) : Simulates s (m.setCode c k) := by
  refine ⟨s, update H c (.child j), .inl rfl, h.keep hg (x := m.cpu c) (update_eq_self c m.cpu).symm rfl rfl rfl
    h.same .refl (fun q hq => ⟨h.cpu c q hq, h.irq c q hq⟩) h.lock
    ⟨fun j' hj => ?_, by simp, fun c' _ j' hj => ⟨(h.child c' j' hj).1, rfl⟩⟩ (fun _ _ => id) ?_⟩
  · obtain rfl := Hand.child.inj hj
    exact ⟨hwait, p, ht, hpar⟩
  · rw [ht, Sys.pos_of_inWait (η := .child j) hin]
    exact hk

/-- The control points and data accesses of a process. -/
theorem Refines.expandProc (hw : Wf s) (ht : (m.cpu c).thread = some p) (hc : m.code c = i :: rest) (hx : i.expandProc p ch
    m.mem = some (d, k)) : Simulates s ((m.setMem d).setCode c (k ++ rest)) := by
  have hwp := h.head hc
  obtain ⟨B, hsig, -⟩ := hg.head hc
  rw [ht] at hwp hsig
  cases i <;> simp only [Instr.expandProc, reduceCtorEq] at hx
  case killFrom | allocFrom | infoFrom | sysSleep | sleepLoop | getpstat | driver =>
    obtain ⟨hcalm, hQ⟩ := hwp
    rw [Sys.pos_of_calm hcalm] at hQ
    repeat' split at hx
    all_goals cases hx <;> exact h.calm hg ht hcalm (by simpa [Pc.idle, Thread.isResuming] using hQ)
  case setpriority pid priority =>
    obtain ⟨hcalm, hQ⟩ := hwp
    rw [Sys.pos_of_calm hcalm] at hQ
    split_ifs at hx with hp <;> cases hx
    · exact h.calm hg ht hcalm hQ
    · rw [not_or, not_lt, not_lt] at hp
      exact h.calm hg ht hcalm (by simpa [hp] using hQ)
  case statFrom j =>
    obtain ⟨hcalm, hQ⟩ := hwp
    rw [Sys.pos_of_calm hcalm] at hQ
    cases hx
    refine h.calm hg ht hcalm ?_
    simpa [Pc.idle, Thread.isResuming] using
      wp_append.mpr (wp_loop (f := .statFrom) (i := j) (fun _ => ⟨⟨rfl, rfl, rfl⟩, hQ⟩) hQ)
  case allocpid j =>
    obtain ⟨hcalm, hQ⟩ := hwp
    rw [Sys.pos_of_calm hcalm] at hQ
    cases hx
    refine ⟨s, _, .inl rfl, h.act hg h.same .refl (fun q hq => ⟨h.cpu c q hq, h.irq c q hq⟩) h.lock
      (.inr rfl) (fun _ => rfl) (fun _ _ => id) ?_⟩
    rw [ht, Sys.pos_of_calm hcalm]
    simpa [Pc.idle, Thread.isResuming] using hQ
  case infoNext j =>
    obtain ⟨hcalm, hQ⟩ := hwp
    rw [Sys.pos_of_calm hcalm] at hQ
    split at hx <;> cases hx
    refine h.calm hg ht hcalm (wp_append.mpr ?_)
    split_ifs
    · exact wp_loop (f := .infoFrom) (fun _ => ⟨⟨rfl, rfl, rfl⟩, hQ⟩) hQ j
    · exact hQ
  case inDriver n =>
    obtain ⟨hcalm, hQ⟩ := hwp
    rw [Sys.pos_of_calm hcalm] at hQ
    split at hx <;> cases hx
    case h_3 =>
      refine h.calm hg ht hcalm (wp_append.mpr (wp_append.mpr (wp_sleepCode (fun _ => rfl) ?_)))
      simpa using hQ
    all_goals exact h.calm hg ht hcalm (by simpa [Pc.idle, Thread.isResuming] using hQ)
  case sleepKilled ticks0 n =>
    obtain ⟨hcalm, hQ⟩ := hwp
    rw [Sys.pos_of_calm hcalm] at hQ
    cases hx
    refine h.calm hg ht hcalm ?_
    split_ifs
    · simpa [Pc.idle, Thread.isResuming] using hQ
    · have hsleep : wp (some p) (sleepCode p .ticks .ticks ++ .sleepLoop ticks0 n :: rest) (fun _ => True)
          (.proc .normal .idle (m.cpu c).irq .empty) :=
        wp_append.mpr (wp_sleepCode (fun _ => rfl) ⟨⟨rfl, rfl, rfl⟩, hQ⟩)
      simpa [Pc.idle, Thread.isResuming] using hsleep
  case allocSlot j =>
    obtain ⟨hcalm, hQ⟩ := hwp
    rw [Sys.pos_of_calm hcalm] at hQ
    split_ifs at hx <;> cases hx
    · exact h.calm hg ht hcalm (by simpa using hQ)
    · refine h.calm hg ht hcalm ?_
      have hloop := wp_append.mpr (wp_loop (f := .allocFrom) (fun _ => ⟨⟨rfl, rfl, rfl⟩, hQ⟩) hQ j)
      simpa [Pc.idle, Thread.isResuming] using hloop
  case killSlot pid j =>
    split_ifs at hx with hpid <;> cases hx
    · exact h.killSlot hg hw ht hc hpid
    · obtain ⟨hcalm, hQ⟩ := hwp
      rw [Sys.pos_of_calm hcalm] at hQ
      refine h.calm hg ht hcalm ?_
      have hloop := wp_append.mpr (wp_loop (f := .killFrom pid) (fun _ => ⟨⟨rfl, rfl, rfl⟩, hQ⟩) hQ j)
      simpa [Pc.idle, Thread.isResuming] using hloop
  case setpriorityFrom pid priority j =>
    obtain ⟨h0, h2, hcalm, hQ⟩ := hwp
    rw [Sys.pos_of_calm hcalm] at hQ
    cases hx
    exact h.calm hg ht hcalm (by simpa [h0, h2] using hQ)
  case setprioritySlot pid priority j =>
    split_ifs at hx with hpid <;> cases hx
    · exact h.setprioritySlot hg hw ht hc hpid
    · obtain ⟨h0, h2, hcalm, hQ⟩ := hwp
      rw [Sys.pos_of_calm hcalm] at hQ
      refine h.calm hg ht hcalm ?_
      have hloop := wp_append.mpr
        (wp_loop (f := .setpriorityFrom pid priority) (fun _ => ⟨h0, h2, ⟨rfl, rfl, rfl⟩, hQ⟩) hQ j)
      simpa [Pc.idle, Thread.isResuming] using hloop
  case reparentFrom j =>
    split_ifs at hx with hpar <;> cases hx
    · exact h.reparentFrom hg hw ht hc hpar
    · obtain ⟨hcalm, hQ⟩ := hwp
      rw [Sys.pos_of_calm hcalm] at hQ
      exact h.calm hg ht hcalm
        (wp_append.mpr (wp_loop (f := .reparentFrom) (fun _ => ⟨⟨rfl, rfl, rfl⟩, hQ⟩) hQ j))
  case wakeParent status =>
    obtain ⟨hcalm, hne⟩ := hwp
    cases hx
    have hinit : p ≠ initproc := fun he => hne (congrArg some he)
    exact h.calm hg ht hcalm (by simp [Pc.idle, Thread.isResuming, hinit])
  case exitIfKilled =>
    cases hx
    exact h.control hg (by rw [ht]; exact hwp)
  case killedTest =>
    obtain ⟨hth, (hfk : s.forking p = .idle), (hH : H c = .empty), hQ⟩ := hwp
    cases hx
    rcases hth with (hth : s.thread p = .normal) | (hth : s.thread p = .trapped)
    · refine h.control hg ?_
      rw [ht]
      split_ifs
      · simp [Sys.pos, hth, hfk, hH, Pc.idle, Thread.isResuming]
      · simpa [Sys.pos, hth, hfk, hH, Pc.idle, Thread.isResuming] using hQ
    · split_ifs with hkill
      · exact h.trapExit hg hw ht hth hfk hkill (by simp [hH, Pc.idle, Thread.isResuming])
      · refine h.control hg ?_
        rw [ht]
        simpa [Sys.pos, hth, hfk, hH, Pc.idle, Thread.isResuming] using hQ
  case waitFrom j havekids =>
    obtain ⟨hin, hQ⟩ := hwp
    rw [Sys.pos_of_inWait hin] at hQ
    have hwait : m.holder .wait = some c := by
      obtain ⟨⟨-, hA⟩, -⟩ := when_eq_some.mp hsig
      exact (hg.locked.agrees c _).mpr (by simp [hA])
    split_ifs at hx with hpar <;> cases hx
    · exact h.foundChild hg ht hin hpar hwait (by simpa using hQ)
    · refine h.inWait hg ht hin (wp_append.mpr ?_)
      split <;> simpa using hQ
  case waitSlot j =>
    obtain ⟨hin, (hH : H c = .child j), hQ⟩ := hwp
    rw [Sys.pos_of_inWait hin] at hQ
    split_ifs at hx
    · split at hx <;> cases hx
      · exact h.inWait hg ht hin (by simpa [hH, Pc.idle, Thread.isResuming] using hQ)
      · exact h.inWait hg ht hin (by simpa [hH, Pc.idle, Thread.isResuming] using hQ)
    · cases hx
      refine h.inWait hg ht hin ?_
      split <;> simpa [hH, Pc.idle, Thread.isResuming] using hQ
  case waitEnd havekids =>
    obtain ⟨hin, hQ⟩ := hwp
    rw [Sys.pos_of_inWait hin] at hQ
    split_ifs at hx <;> cases hx <;>
      exact h.inWait hg ht hin (by simpa [Pc.idle, Thread.isResuming] using hQ)
  case waitKilled =>
    obtain ⟨hin, hQ⟩ := hwp
    rw [Sys.pos_of_inWait hin] at hQ
    cases hx
    refine h.inWait hg ht hin ?_
    split_ifs
    · simpa [Pc.idle, Thread.isResuming] using hQ
    · have hsleep : wp (some p) (sleepCode p (.proc p) .wait ++ .waitFrom 0 false :: rest) (fun _ => True)
          (.proc .normal .idle (m.cpu c).irq (H c)) :=
        wp_append.mpr (wp_sleepCode (fun hne => absurd rfl hne) ⟨⟨rfl, rfl⟩, hQ⟩)
      simpa [Pc.idle, Thread.isResuming] using hsleep
  all_goals cases hx
  case setkilled => exact h.setkilled hg hw ht hc
  case charge => exact h.charge hg hw ht hc
  case count => exact h.count hg hw ht hc
  case yieldMark => exact h.yieldMark hg hw ht hc
  case sleepMark => exact h.sleepMark hg hw ht hc
  case tidy => exact h.tidy hg ht hc
  case exitMark => exact h.exitMark hg hw ht hc
  case freeproc => exact h.freeproc hg hw ht hc
  case setParent => exact h.setParent hg hw ht hc
  case setRunnable => exact h.setRunnable hg hw ht hc

/-- The control points and data accesses of the scheduler thread, of interrupt handlers and of any thread. -/
theorem Refines.expandAny (hw : Wf s) (hc : m.code c = i :: rest) (hx : i.expandAny (m.cpu c).proc ch m.mem = some (d, k)) :
    Simulates s ((m.setMem d).setCode c (k ++ rest)) := by
  have hwp := h.head hc
  have hf := hg.owned.fits c
  cases i
  case boostTest => exact h.boostTest hg (hg.needs hc rfl).1 hc hx
  case scanSlot => exact h.scanSlot hg hw (hg.needs hc rfl).1 hc hx
  all_goals simp only [Instr.expandAny, reduceCtorEq] at hx
  case scheduler =>
    have ht := (hg.needs hc rfl).1
    obtain ⟨(hpc : s.cpu c = .test), -, (hH : H c = .empty), hQ⟩ := h.atSched ht hc
    cases hx
    refine h.control hg ?_
    rw [ht]
    simpa [Sys.pos, hpc, hH] using hQ
  case recordBoost =>
    cases hx
    exact h.recordBoost hg (hg.needs hc rfl).1 hc
  case boostFrom j =>
    have ht := (hg.needs hc rfl).1
    obtain ⟨(hpc : s.cpu c = .boost j), hQ⟩ := h.atSched ht hc
    cases hx
    refine h.control hg ?_
    have hloop : wp none (loop .boostFrom j ++ rest) (fun _ => True)
        (.sched (boostNext j) (m.cpu c).irq (H c)) := wp_append.mpr (wp_boostLoop hQ)
    rw [ht]
    simpa [Sys.pos, hpc, boostNext_idle, Thread.isResuming] using hloop
  case boostSlot j =>
    cases hx
    exact h.boostSlot hg hw (hg.needs hc rfl).1 hc
  case scanFrom q j =>
    have ht := (hg.needs hc rfl).1
    cases hx
    exact h.control hg hwp
  case wakeupFrom chan j =>
    obtain ⟨hmay, hQ⟩ := hwp
    have hloop := wp_append.mpr (wp_loop (f := .wakeupFrom chan) (fun _ => ⟨hmay, hQ⟩) hQ j)
    split_ifs at hx with hp <;> cases hx
    · exact h.control hg hloop
    · have hne : (m.cpu c).thread ≠ some j := fun he => hp (hf.cur.symm.trans (hf.own j he))
      exact h.control hg (wp_wakeupBody hmay hne hloop)
  case wakeupSlot chan j =>
    cases hx
    exact h.wakeupSlot hg hw hc
  case tick =>
    cases hx
    exact h.tick hg hw hc
  case leafCalls =>
    obtain ⟨hpc, hth, hQ⟩ := hwp
    split at hx <;> cases hx
    · exact h.control hg (wp_release (m.cpu c).thread hpc hth (by simp) ⟨hpc, hth, hQ⟩)
    · exact h.control hg hQ
  case handler =>
    obtain ⟨hmay, hQ⟩ := hwp
    split at hx <;> cases hx
    · exact h.control hg ⟨hmay, hmay, hQ⟩
    · exact h.control hg hQ
  case inHandler n =>
    obtain ⟨hmay, hQ⟩ := hwp
    have hth := isResuming_of_mayWake hmay
    split at hx <;> cases hx
    · exact h.control hg (wp_release (m.cpu c).thread hmay.1 hth (by simp) ⟨hmay, hQ⟩)
    · exact h.control hg ⟨hmay, hmay, hQ⟩
    · exact h.control hg (wp_release (m.cpu c).thread hmay.1 hth (by simp) hQ)
  case timerTail =>
    obtain ⟨⟨hheld, hpend, hknow⟩, hcur⟩ := hg.needs hc rfl
    split at hx
    next p hp =>
      have ht : (m.cpu c).thread = some p := hcur.symm.trans (hf.cur.trans hp)
      obtain ⟨(hth : s.thread p = .trapped), (hirq : (m.cpu c).irq = false), (hH : H c = .empty), hQ⟩ := h.at ht hc
      have hst : (m.mem.proc p).state = .running :=
        (hf.running p (hf.cur.trans hp)).resolve_right (by simp [hknow])
      rw [if_pos hst] at hx
      cases hx
      have hpos : s.pos c (some p) (m.cpu c).irq (H c) = .proc .trapped (s.forking p) false .empty := by
        simp [Sys.pos, hth, hirq, hH]
      refine h.control hg ?_
      rw [ht, hpos]
      exact wp_append.mpr (wp_tick (by simpa [hirq, hH] using hQ))
    next hp =>
      cases hx
      have ht : (m.cpu c).thread = none := hcur.symm.trans (hf.cur.trans hp)
      exact h.control hg (by rw [ht] at hwp ⊢; exact hwp)

/-! ## New processes and threads -/

theorem Refines.dispatch (hc : m.code c = .dispatch j :: rest) : Simulates s (((m.setMem (m.mem.setProc j (m.mem.proc
    j).dispatch)).setCpu c { m.cpu c with proc := some j }).setCode c rest) := by
  obtain ⟨ht, hA⟩ := hg.needs hc rfl
  obtain ⟨(hpc : s.cpu c = .selected j), hQ⟩ := h.atSched ht hc
  have hst : m.mem.state j = .runnable := ((hg.owned.fits c).know (j, .is .runnable) (by simp [hA])).2
  have hidle := hg.no_thread (i := j) (c := c) (by simp [hA]) (by rw [hst]; simp) (by simp [ht])
  have hstep : s.step ⟨c, .dispatch⟩ =
      some (((s.setProc j (s.proc j).dispatch).setThread j (s.thread j).switchIn).setCpu c (.run j)) := by
    simp [Sys.step, Sys.schedulerStep, hpc]
  refine ⟨_, update H c (H c), .inr ⟨_, hstep⟩, h.step hg rfl rfl rfl (fun _ _ _ => rfl)
    (h.setProc j (congrArg Proc.dispatch (h.proc j))) (fun c' hc' => ⟨?_, fun i hi => ⟨?_, rfl⟩⟩)
    (fun p hp => ?_) h.lock (h.hands (.inr (h.hand_same rfl)) (fun _ _ => id) ?_) (fun i hi ha => ?_) ?_⟩
  · simp [hc']
  · have hij : i ≠ j := fun he => hidle c' (he ▸ hi)
    simp [hij]
  · cases ht.symm.trans hp
  · exact setProc_parent (q := (m.mem.proc j).dispatch) rfl
  · rcases eq_or_ne i j with rfl | hij
    · obtain ⟨r, hr, hk⟩ := h.parked i hi (by rw [hst]; simp [Alive])
      refine ⟨r, ?_, hk⟩
      cases hth : s.thread i <;> simp_all [Thread.resume, Thread.switchIn]
    · have ha' : Alive (m.mem.state i) := by
        have he := setProc_state_of_ne m.mem (m.mem.proc j).dispatch hij
        rwa [setCpu_mem, setMem_mem, he] at ha
      simpa [hij] using h.parked i hi ha'
  · rw [ht]
    simpa [Sys.pos, Cpu.irq] using hQ

/-- `allocproc` or `uvmcopy` runs out of memory. -/
theorem Refines.allocFail {r : Proc.AllocResult} (hw : Wf s) (hcl : Clean s) (hr : r ≠ .ok) (hc : m.code c = .alloc j
    pid :: rest) : Simulates s ((m.setMem (m.mem.setProc j ((m.mem.proc j).alloc r pid))).setCode c ([.leafCalls, .release
    (.proc j)] ++ rest)) := by
  obtain ⟨p, ht, hA, hjp, hst, -, -⟩ := hg.atAlloc hc
  obtain ⟨⟨(hth : s.thread p = .normal), (hfk : s.forking p = .idle), (hH : H c = .empty)⟩, hQ⟩ := h.at ht hc
  obtain ⟨hrun, hlock⟩ := h.running hg hw ht hth rfl
  have hst' : (s.proc j).state = .unused := (h.state j).trans hst
  have hstep : s.step ⟨c, .alloc j r⟩ =
      some ({ s with nextpid := inc s.nextpid }.setProc j ((s.proc j).alloc r s.nextpid)) := by
    cases r <;> simp_all [Sys.step, Sys.processStep, Sys.InSyscall]
  refine ⟨_, update H c (H c), .inr ⟨_, hstep⟩, h.act hg (h.setProc j ?_) (Only.setProc ?_)
    (fun p' hp => ⟨h.cpu c p' hp, h.irq c p' hp⟩) h.lock (.inr rfl) (setProc_parent ?_)
    (fun i _ => setProc_alive ?_ i) ?_⟩
  · rw [Proc.alloc_anon, Proc.alloc_anon, h.proc]
  · exact .of_eq rfl rfl rfl
  · -- `freeproc` clears the parent of a slot that has none
    have hpar : (m.mem.proc j).parent = none := (h.parent j).symm.trans (hcl.parent j hst')
    rw [hpar]
    cases r <;> first | rfl | exact absurd rfl hr
  · rw [Proc.alloc_state_of_fail _ pid hr]
    exact fun ha => absurd rfl ha.1
  · rw [ht]
    simpa [Sys.pos, hth, hfk, hH, Pc.idle, Thread.isResuming] using hQ

/-- `fork` claims a free slot and creates the thread of its process. -/
theorem Refines.alloc (hw : Wf s) (hcl : Clean s) (hc : m.code c = .alloc j pid :: rest) : Simulates s (((m.setMem
    (m.mem.setProc j ((m.mem.proc j).alloc .ok pid))).setProcCode j (forkret j)).setCode c (forkTail j ++ rest)) := by
  obtain ⟨p, ht, hA, hjp, hst, -, -⟩ := hg.atAlloc hc
  obtain ⟨⟨(hth : s.thread p = .normal), (hfk : s.forking p = .idle), (hH : H c = .empty)⟩, hQ⟩ := h.at ht hc
  obtain ⟨hrun, hlock⟩ := h.running hg hw ht hth rfl
  have hheld : .proc j ∈ (A c).held := by simp [hA]
  have hst' : (s.proc j).state = .unused := (h.state j).trans hst
  have hidle := hg.no_thread hheld (by rw [hst]; simp) fun he => hjp (Option.some.inj (he.symm.trans ht))
  -- a free slot has no `fork` under way
  have hfkj : s.forking j = .idle := by
    by_contra hne
    exact (hcl.forking j hne).1 hst'
  have hstep : s.step ⟨c, .alloc j .ok⟩ =
      some ((({ s with nextpid := inc s.nextpid }.setProc j ((s.proc j).alloc .ok s.nextpid)).setThread j
        (.off .forkret)).setForking p (.allocated j)) := by
    simp [Sys.step, Sys.processStep, Sys.InSyscall, hrun, hth, hfk, hlock j hheld, hst']
  refine ⟨_, update H c .empty, .inr ⟨_, hstep⟩, h.step hg (x := m.cpu c) (update_eq_self c m.cpu).symm rfl rfl
    (fun c' i hi => ?_) (h.setProc j ?_) (fun c' hc' => ⟨rfl, fun i hi => ⟨?_, ?_⟩⟩) (fun p' hp => ?_) h.lock
    (h.hands (.inl rfl) (fun _ _ => id) ?_) (fun i hi ha => ?_) ?_⟩
  · have hij : i ≠ j := fun he => hidle c' (he ▸ hi)
    simp [hij]
  · rw [Proc.alloc_anon, Proc.alloc_anon, h.proc]
  · have hij : i ≠ j := fun he => hidle c' (he ▸ hi)
    simp [hij]
  · have hip : i ≠ p := fun he => hc' (hg.owned.thread_inj ht (he ▸ hi))
    simp [hip]
  · obtain rfl : p = p' := Option.some.inj (ht.symm.trans hp)
    simp [hjp.symm, hth, hrun, Thread.pc, Thread.onTimer]
  · exact setProc_parent (q := (m.mem.proc j).alloc .ok pid) rfl
  · have hip : i ≠ p := fun he => hi c (he ▸ ht)
    rcases eq_or_ne i j with rfl | hij
    · refine ⟨.forkret, by simp [Thread.resume], fun b => ?_⟩
      have hnew : wp (some i) (forkret i) (fun _ => True) (.proc (.resuming .forkret) .idle b .empty) :=
        wp_forkret trivial
      simpa [hip, hfkj] using hnew
    · have ha' : Alive (m.mem.state i) := by
        have he := setProc_state_of_ne m.mem ((m.mem.proc j).alloc .ok pid) hij
        rwa [setProcCode_mem, setMem_mem, he] at ha
      simpa [hij, hip] using h.parked i hi ha'
  · rw [ht]
    have hQ' : wp (some p) rest (fun _ => True) (.proc .normal .idle (m.cpu c).irq .empty) := by
      simpa [hth, hfk, hH] using hQ
    simpa [Sys.pos, hjp.symm, hth] using wp_append.mpr (wp_forkTail (j := j) hQ')

/-! ## Traps -/

/-- `panic` touches nothing that the process layer has. -/
theorem Refines.panic (x : Panic) : Simulates s (m.panic c x rest) :=
  ⟨s, update H c .empty, .inl rfl, h.stutter hg (x := m.cpu c) (update_eq_self c m.cpu).symm rfl rfl rfl rfl
    (h.irq c) h.lock (.inl rfl) (fun _ _ => id) trivial⟩

/-- `exit`, up to its `driver`. -/
theorem Refines.exit {status : ℤ} (hinit : (m.cpu c).proc ≠ some initproc) (hc : m.code c = .exit status :: rest) : Simulates s
    (m.setCode c (exitCode status ++ rest)) := by
  have hwp := h.head hc
  obtain ⟨p, ht⟩ := Option.ne_none_iff_exists'.mp (hg.needs hc rfl).1
  have hf := hg.owned.fits c
  rw [ht] at hwp
  have hp : p ≠ initproc := by
    rintro rfl
    exact hinit (hf.cur.symm.trans (hf.own _ ht))
  exact h.calm hg ht hwp (wp_append.mpr (wp_exitCode hp))

/-- Interrupts are enabled. -/
theorem Refines.intrOn (hn : (m.cpu c).noff = 0) (hk : (s.pos c (m.cpu c).thread (m.cpu c).irq (H c)).th = .normal ∧ H c =
    .empty ∧ wp (m.cpu c).thread rest (fun _ => True) { s.pos c (m.cpu c).thread (m.cpu c).irq (H c) with irq := true }) :
    Simulates s ((m.setCpu c { m.cpu c with intr := true }).setCode c rest) := by
  obtain ⟨hth, hH, hQ⟩ := hk
  have hirq : ({ m.cpu c with intr := true } : Cpu).irq = true := if_pos hn
  refine h.setCpu hg rfl (fun p hp _ => ?_) (by simp [hH]) ?_
  · rw [hp] at hth
    have hth' : s.thread p = .normal := hth
    rw [hth']
    rfl
  · rw [hirq]
    cases ht : (m.cpu c).thread <;> simpa [ht, Sys.pos] using hQ

/-- Interrupts are disabled. -/
theorem Refines.intrOff (hn : (m.cpu c).noff = 0) (hk : wp (m.cpu c).thread k (fun _ => True) (s.pos c (m.cpu c).thread false (H
    c))) : Simulates s ((m.setCpu c { m.cpu c with intr := false }).setCode c k) := by
  have hirq : ({ m.cpu c with intr := false } : Cpu).irq = false := if_pos hn
  exact h.setCpu hg rfl (fun p _ hi => by rw [hirq] at hi; cases hi) (fun _ => hirq) (by rwa [hirq])

/-- User code traps into `usertrap`. -/
theorem Refines.user (hc : m.code c = .user :: rest) (hk : ∀ p, (m.cpu c).proc = some p → wp (some p) rest (fun _ => True)
    (.proc .normal .idle true .empty) → wp (some p) k (wp (some p) rest fun _ => True) (.proc .normal .idle false .empty)) :
    Simulates s ((m.setCpu c { m.cpu c with intr := false }).setCode c (k ++ rest)) := by
  obtain ⟨hme, hA⟩ := hg.needs hc rfl
  obtain ⟨p, ht⟩ := Option.ne_none_iff_exists'.mp hme
  have hf := hg.owned.fits c
  have hn : (m.cpu c).noff = 0 := by simp [hg.locked.noff c, hA]
  obtain ⟨⟨(hth : s.thread p = .normal), (hfk : s.forking p = .idle), (hH : H c = .empty)⟩,
    (hirq : (m.cpu c).irq = true), hQ⟩ := h.at ht hc
  rw [hth, hfk, hH, hirq] at hQ
  refine h.intrOff hg hn ?_
  rw [ht]
  simpa [Sys.pos, hth, hfk, hH] using wp_append.mpr (hk p (hf.cur.symm.trans (hf.own p ht)) hQ)

/-! ## Interrupts -/

section Interrupt

variable {dev : Dev}

/-- A CPU with interrupts enabled keeps no lock, and has nothing in hand. -/
theorem Refines.free_of_intr (hi : (m.cpu c).intr = true) : (m.cpu c).irq = true ∧ H c = .empty ∧ ∀ j, s.lock j ≠ some c := by
  obtain ⟨⟨hheld, -, -⟩, -⟩ := hg.has_of_intr hi
  have hirq : (m.cpu c).irq = true := (if_pos (hg.locked.intr c hi)).trans hi
  have hfree : ∀ l, m.holder l ≠ some c := by
    intro l hl
    have hmem : l ∈ (A c).held := (hg.locked.agrees c l).mp hl
    rw [hheld] at hmem
    cases hmem
  refine ⟨hirq, ?_, fun j hj => hfree _ (h.lock c j hj)⟩
  cases hH : H c with
  | empty => rfl
  | child j => exact absurd (h.child c j hH).1 (hfree _)
  | clock => cases hirq.symm.trans (h.clock c hH).2

/-- A process that can be interrupted is in ordinary code. -/
theorem Refines.normal_of_intr (hw : Wf s) (hi : (m.cpu c).intr = true) (ht : (m.cpu c).thread = some p) : s.thread p = .normal := by
  obtain ⟨hirq, -, hfree⟩ := h.free_of_intr hg hi
  obtain ⟨⟨-, -, hknow⟩, hcur⟩ := hg.has_of_intr hi
  have hrun : m.mem.state p = .running :=
    ((hg.owned.fits c).running p (hcur.trans ht)).resolve_right (by simp [hknow])
  have hoff : (s.thread p).isOff ≠ true := by
    rw [Ne, hw.off p, h.state p, hrun]
    simp
  have htimer := h.irq c p ht hirq
  have hres : (s.thread p).isResuming ≠ true := by
    intro hr
    exact hfree p (hw.resuming c p (h.cpu_run ht (by simpa using hoff)) hr)
  cases hth : s.thread p <;> simp_all [Thread.isOff, Thread.onTimer, Thread.isResuming]

/-- A scheduler thread that can be interrupted has selected no process. -/
theorem Refines.idle_of_intr (hw : Wf s) (hi : (m.cpu c).intr = true) (ht : (m.cpu c).thread = none) : (s.cpu c).idle = true := by
  obtain ⟨-, -, hfree⟩ := h.free_of_intr hg hi
  cases hpc : s.cpu c with
  | selected i => exact absurd (hw.selected c i hpc).1 (hfree i)
  | run i =>
    -- no CPU executes this process yet, so it is still locked
    have hrun := hw.running c i hpc
    have hoff : (s.thread i).isOff ≠ true := by
      rw [Ne, hw.off i, hrun]
      simp
    have hidle : ∀ c', (m.cpu c').thread ≠ some i := by
      intro c' ht'
      obtain rfl := hw.run_inj c' c i (h.cpu_run ht' (by simpa using hoff)) hpc
      cases ht.symm.trans ht'
    obtain ⟨r, hr, -⟩ := h.parked i hidle (by rw [← h.state i, hrun]; simp [Alive])
    refine absurd (hw.resuming c i hpc ?_) (hfree i)
    cases hth : s.thread i <;> simp_all [Thread.isOff, Thread.resume, Thread.isResuming]
  | _ => rfl

/-- An interrupt of a process.  On CPU 0 the section of the timer is `tick`; on another CPU there is
nothing to count and the process is on the timer path at once. -/
theorem Refines.trapProc (hw : Wf s) (dev : Dev) (hi : (m.cpu c).intr = true) (ht : (m.cpu c).thread = some p) (hk : wp (some p)
    k (fun _ => True) (match dev with | .timer => ticked c (s.forking p) | .device => .proc .normal (s.forking p) false .empty))
    : Simulates s ((m.setCpu c { m.cpu c with intr := false }).setCode c k) := by
  obtain ⟨-, hH, -⟩ := h.free_of_intr hg hi
  have hth := h.normal_of_intr hg hw hi ht
  have hrun : s.cpu c = .run p := h.cpu_run ht (by rw [hth]; rfl)
  have hirq : ({ m.cpu c with intr := false } : Cpu).irq = false := if_pos (hg.locked.intr c hi)
  cases dev with
  | device =>
    refine h.intrOff hg (hg.locked.intr c hi) ?_
    rw [ht]
    simpa [Sys.pos, hth, hH] using hk
  | timer =>
    unfold ticked at hk
    split_ifs at hk with h0
    · refine ⟨s, update H c .clock, .inl rfl, h.keep hg rfl rfl rfl rfl h.same .refl
        (fun q hq => ⟨h.cpu c q hq, fun he => by rw [hirq] at he; cases he⟩) h.lock
        ⟨by simp, fun _ => ⟨h0, hirq⟩, fun c' _ j hj => ⟨(h.child c' j hj).1, rfl⟩⟩ (fun _ _ => id) ?_⟩
      rw [ht, hirq]
      simpa [Sys.pos, hth] using hk
    · have hticks : s.clockintr c = s := by simp [Sys.clockintr, h0]
      have hstep : s.step ⟨c, .timer⟩ = some (s.setThread p .trapped) := by
        simp [Sys.step, hrun, hth, hticks]
      refine ⟨_, update H c .empty, .inr ⟨_, hstep⟩, h.keep hg rfl rfl rfl rfl h.same
        (ht ▸ Only.refl.setThread) (fun q hq => ?_) h.lock
        (h.hands (.inl rfl) (fun _ _ => id) fun _ => rfl) (fun _ _ => id) ?_⟩
      · obtain rfl : p = q := Option.some.inj (ht.symm.trans hq)
        refine ⟨by simpa [Thread.pc] using hrun, fun he => ?_⟩
        rw [hirq] at he
        cases he
      · rw [ht, hirq]
        simpa [Sys.pos] using hk

/-- An interrupt of a scheduler thread. -/
theorem Refines.trapSched (dev : Dev) (hi : (m.cpu c).intr = true) (ht : (m.cpu c).thread = none) (hk : wp none k (fun _ =>
    True) (.sched (s.cpu c) false (if dev = .timer ∧ c.val = 0 then .clock else .empty))) : Simulates s ((m.setCpu c
    { m.cpu c with intr := false }).setCode c k) := by
  have hirq : ({ m.cpu c with intr := false } : Cpu).irq = false := if_pos (hg.locked.intr c hi)
  refine ⟨s, update H c (if dev = .timer ∧ c.val = 0 then .clock else .empty), .inl rfl,
    h.keep hg rfl rfl rfl rfl h.same .refl (fun q hq => ?_) h.lock
    ⟨fun j hj => ?_, fun hcl => ?_, fun c' _ j hj => ⟨(h.child c' j hj).1, rfl⟩⟩ (fun _ _ => id) ?_⟩
  · cases ht.symm.trans hq
  · split_ifs at hj
  · split_ifs at hcl with h0
    exact ⟨h0.2, hirq⟩
  · rw [ht, hirq]
    exact hk

theorem Refines.trapped (hw : Wf s) (hi : (m.cpu c).intr = true) (ht : Traps m c dev m') : Simulates s m' := by
  obtain ⟨hirq, hH, -⟩ := h.free_of_intr hg hi
  cases ht with
  | @user q _ ht hc =>
    obtain ⟨⟨(hth : s.thread q = .normal), (hfk : s.forking q = .idle), -⟩, -, hQ⟩ := h.at ht hc
    rw [hth, hfk, hH, hirq] at hQ
    exact h.trapProc hg hw dev hi ht (hfk.symm ▸ wp_append.mpr (wp_intrTrap c dev hQ))
  | kernel =>
    have hcode := h.code c
    cases ht : (m.cpu c).thread with
    | none =>
      rw [ht, hirq, hH] at hcode
      exact h.trapSched hg dev hi ht
        (wp_append.mpr (wp_kerneltrap_sched c dev (h.idle_of_intr hg hw hi ht) hcode))
    | some p =>
      have hth := h.normal_of_intr hg hw hi ht
      rw [ht, hirq, hH, Sys.pos, hth] at hcode
      exact h.trapProc hg hw dev hi ht (wp_append.mpr (wp_kerneltrap c dev hcode))

end Interrupt

/-! ## The whole step -/

theorem Refines.executes (hw : Wf s) (hcl : Clean s) (hc : m.code c = i :: rest) (hf : Executes m c ch rest i m') :
    Simulates s m' := by
  have hwp := h.head hc
  cases hf with
  | acquire => exact h.sameIrq hg rfl (irq_pushOff _) hwp
  | spin hl => exact h.spin hg hc hl
  | release hl => exact h.release hg hw hc hl
  | popOff =>
    obtain ⟨hi, hn, -⟩ := hg.popOff hc
    exact h.sameIrq hg rfl (irq_popOff hi hn) hwp
  | intrOn | sret =>
    obtain ⟨hheld, hpend, -⟩ := hg.needs hc rfl
    have hn : (m.cpu c).noff = 0 := by simp [hg.locked.noff c, hheld, hpend]
    have hH : (s.pos c (m.cpu c).thread (m.cpu c).irq (H c)).hand = H c := by
      cases (m.cpu c).thread <;> rfl
    exact h.intrOn hg hn ⟨hwp.1, hH ▸ hwp.2.1, hwp.2.2⟩
  | intrOff =>
    obtain ⟨hheld, hpend, -⟩ := hg.needs hc rfl
    have hn : (m.cpu c).noff = 0 := by simp [hg.locked.noff c, hheld, hpend]
    refine h.intrOff hg hn ?_
    cases ht : (m.cpu c).thread <;> simpa [ht, Sys.pos] using hwp
  | setIntena =>
    obtain ⟨p, ht⟩ : ∃ p, (m.cpu c).thread = some p := by
      refine Option.ne_none_iff_exists'.mp fun ht => ?_
      rw [ht] at hwp
      cases hwp.1
    exact h.setIntena hg hw ht hc
  | dispatch => exact h.dispatch hg hc
  | swtch => exact h.swtch hg hw hc
  | clearProc => exact h.sameIrq hg rfl rfl hwp
  | sched ht =>
    obtain ⟨_, -, hheld, hpend, -⟩ := hg.atSched hc
    exact h.sched hg ht (by simp [hg.locked.noff c, hheld, hpend]) hc
  | schedExit ht hz => exact h.schedExit hg ht hz hc
  | initExiting => exact h.panic hg _
  | exit ht hp => exact h.exit hg (fun he => hp (Option.some.inj ((hg.thread_eq ht).symm.trans he))) hc
  | allocOk => exact h.alloc hg hw hcl hc
  | allocFail _ _ _ _ hr => exact h.allocFail hg hw hcl hr hc
  | syscall => exact h.user hg hc fun p _ hQ => wp_syscallTrap _ hQ
  | fault ht =>
    refine h.user hg hc fun q hq hQ => ?_
    obtain rfl := Option.some.inj ((hg.thread_eq ht).symm.trans hq)
    exact wp_faultTrap hQ
  | any hx => exact h.expandAny hg hw hc hx
  | proc ht hx => exact h.expandProc hg hw ht hc hx

/-- **Every step of the machine is a section of the process layer, or none.** -/
theorem Refines.simulates {e : Event C} (hw : Wf s) (hcl : Clean s) (hs : m.step e = some m') : Simulates s m' := by
  cases e with
  | run c ch =>
    obtain ⟨i, rest, hc, hf⟩ := hg.executes hs
    exact h.executes hg hw hcl hc hf
  | intr c dev =>
    obtain ⟨hi, ht⟩ := hg.traps hs
    exact h.trapped hg hw hi ht

end Steps

theorem refines_boot (C : ℕ) : Refines (Machine.boot C) (boot C) fun _ => .empty where
  same := rfl
  cpu := by simp [Machine.boot]
  lock := by simp [boot]
  irq := by simp [Machine.boot]
  child := by simp
  clock := by simp
  code := fun c => ⟨rfl, rfl, rfl, trivial⟩
  back := by simp [Machine.boot]
  parked := fun i _ _ => ⟨.forkret, rfl, fun b => wp_forkret trivial⟩

/-- **Every run of the machine is a run of the process layer**, up to pids. -/
theorem MachineReach.refines {h : List (Machine C × Event C)} (hr : MachineReach C h m) :
    ∃ h' s H, Reach C h' s ∧ Refines m s H := by
  obtain ⟨h', s, hr', H, hR⟩ := Lts.Path.simulate (R := fun m s => ∃ H, Refines m s H) hr ⟨_, refines_boot C⟩
    fun h m e m' h' s hp hp' ⟨H, hR⟩ hs => by
      obtain ⟨A, K, hg⟩ := MachineReach.good hp
      obtain ⟨s', H', hstep, hR'⟩ := hR.simulates hg (Reach.wf hp') (Reach.clean hp') hs
      exact ⟨s', hstep, H', hR'⟩
  exact ⟨h', s, H, hr', hR⟩

/-- What holds of every process in every state of the process layer, whatever its pid, holds of the
processes of the machine. -/
theorem MachineReach.transfer {h : List (Machine C × Event C)} {P : Proc → Prop} (hr : MachineReach C h m)
    (hanon : ∀ p, P p.anon ↔ P p) (hP : ∀ h s, Reach C h s → ∀ i, P (s.proc i)) (i : Slot) :
    P (m.mem.proc i) := by
  obtain ⟨h', s, H, hr', hR⟩ := hr.refines
  rw [← hanon, hR.proc i, hanon]
  exact hP h' s hr' i

/-- **Priorities and quanta of the machine.** -/
theorem MachineReach.quantum {h : List (Machine C × Event C)} (hr : MachineReach C h m) (i : Slot) :
    (0 ≤ (m.mem.proc i).priority ∧ (m.mem.proc i).priority ≤ NMLFQ - 1) ∧
      0 ≤ (m.mem.proc i).ticksUsed ∧ (m.mem.proc i).ticksUsed ≤ getTimeSlice (m.mem.proc i).priority :=
  hr.transfer (P := fun p => (0 ≤ p.priority ∧ p.priority ≤ NMLFQ - 1) ∧
    0 ≤ p.ticksUsed ∧ p.ticksUsed ≤ getTimeSlice p.priority) (fun _ => Iff.rfl)
    (fun _ _ hr' j => ⟨(hr'.quantum j).prio, (hr'.quantum j).ticks⟩) i

/-- **The machine refines the process layer**: up to pids, its data are those of a run of sections, whose locks it holds, and a process
on a CPU is in the section that it has there. -/
theorem kernel_refines {h : List (Machine C × Event C)} (hr : MachineReach C h m) : ∃ h' s, Reach C h' s ∧ m.mem.anon = s.mem.anon ∧
    (∀ c j, s.lock j = some c → m.holder (.proc j) = some c) ∧
    ∀ c p, (m.cpu c).thread = some p → s.cpu c = (s.thread p).pc p := by
  obtain ⟨h', s, H, hr', hR⟩ := hr.refines
  exact ⟨h', s, hr', hR.same, hR.lock, hR.cpu⟩

theorem kernel_refines_contended : ∃ h m h' s, MachineReach 2 h m ∧ m.holder (.proc initproc) = some 0 ∧
    (m.cpu 0).thread = some initproc ∧ Reach 2 h' s ∧ m.mem.anon = s.mem.anon ∧
    (∀ c j, s.lock j = some c → m.holder (.proc j) = some c) ∧ s.cpu 0 = (s.thread initproc).pc initproc := by
  obtain ⟨h, m, hr, hl, ht⟩ := exists_machineReach_of_replay (fun (_ : List (Machine 2 × Event 2)) m =>
    m.holder (.proc initproc) = some 0 ∧ (m.cpu 0).thread = some initproc) contended (by decide +kernel)
  obtain ⟨h', s, hr', hsame, hlock, hcpu⟩ := kernel_refines hr
  exact ⟨h, m, h', s, hr, hl, ht, hr', hsame, hlock, hcpu 0 initproc ht⟩

end Xv6Mlfq
