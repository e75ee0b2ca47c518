import Xv6Mlfq.Kernel.Refine

/-!
# Xv6Mlfq.Kernel.RefineSwitch — locks, interrupts and context switches make no section

To take or release a lock, to enable or disable interrupts and to switch threads is no section of the
process layer, with one exception: the process layer keeps the `p->lock` of a process it switches to until
`sched` has returned in this process, or `forkret` begins.
-/

namespace Xv6Mlfq

open CInt Function Abs Machine Pos

variable {C : ℕ} {m1 : Machine C}

/-- The process layer makes a section, or none, and is again where the machine is. -/
def Simulates (s : Sys C) (m' : Machine C) : Prop :=
  ∃ s' H', (s' = s ∨ ∃ e, s.step e = some s') ∧ Refines m' s' H'

section

variable {m m' : Machine C} {s s' : Sys C} {H : Fin C → Hand} {A : Fin C → Abs}
  {K : Slot → Option Slot} {c : Fin C} {x : Cpu} {i : Instr} {k rest : List Instr} {l : Lock} {p : Slot}

theorem irq_pushOff (x : Cpu) : (pushOff x).irq = x.irq := by
  simp [Cpu.irq, pushOff]

theorem irq_popOff (hi : x.intr = false) (hn : 0 < x.noff) : (popOff x).irq = x.irq := by
  simp only [Cpu.irq, popOff, hi, if_neg hn.ne']
  split_ifs <;> simp_all

theorem Refines.head (h : Refines m s H) (hc : m.code c = i :: rest) :
    i.wp (m.cpu c).thread (wp (m.cpu c).thread rest fun _ => True)
      (s.pos c (m.cpu c).thread (m.cpu c).irq (H c)) := by
  have hcode := h.code c
  rw [hc] at hcode
  exact hcode

section

variable (h : Refines m s H) (hg : Good m A K)
include h hg

/-- A change of the CPU alone. -/
theorem Refines.setCpu (hth : x.thread = (m.cpu c).thread)
    (hirq : ∀ p, (m.cpu c).thread = some p → x.irq = true → (s.thread p).onTimer = false)
    (hclock : H c = .clock → x.irq = false)
    (hk : wp (m.cpu c).thread k (fun _ => True) (s.pos c (m.cpu c).thread x.irq (H c))) :
    Simulates s ((m.setCpu c x).setCode c k) :=
  ⟨s, _, .inl rfl, h.stutter hg rfl hth rfl rfl rfl hirq h.lock
    (.inr ⟨rfl, hclock, fun j hj => (h.child c j hj).1⟩) (fun _ _ => id) hk⟩

/-- The interrupt state is as before, once the locks are released. -/
theorem Refines.sameIrq (hth : x.thread = (m.cpu c).thread)
    (hirq : x.irq = (m.cpu c).irq)
    (hk : wp (m.cpu c).thread k (fun _ => True) (s.pos c (m.cpu c).thread (m.cpu c).irq (H c))) :
    Simulates s ((m.setCpu c x).setCode c k) :=
  h.setCpu hg hth (hirq ▸ h.irq c) (fun hcl => hirq.trans (h.clock c hcl).2) (hirq ▸ hk)

/-- A control point. -/
theorem Refines.control
    (hk : wp (m.cpu c).thread k (fun _ => True) (s.pos c (m.cpu c).thread (m.cpu c).irq (H c))) :
    Simulates s (m.setCode c k) := by
  have hsim := h.sameIrq (x := m.cpu c) hg rfl rfl hk
  rwa [Machine.setCpu, update_eq_self] at hsim

theorem Refines.spin (hc : m.code c = .spin l :: rest)
    (hl : m.holder l = none) : Simulates s ((m.setHolder l (some c)).setCode c rest) := by
  -- a lock that is held is not the one taken
  have hkeep : ∀ c' l', m.holder l' = some c' → (m.setHolder l (some c)).holder l' = some c' := by
    intro c' l' hl'
    have hne : l' ≠ l := by
      rintro rfl
      cases hl.symm.trans hl'
    rw [setHolder_holder, update_of_ne hne, hl']
  exact ⟨s, _, .inl rfl, h.stutter hg (x := m.cpu c) (update_eq_self c m.cpu).symm rfl rfl rfl rfl (h.irq c)
    (fun c' j hj => hkeep c' _ (h.lock c' j hj)) (.inr ⟨rfl, fun hcl => (h.clock c hcl).2, fun j hj => hkeep c _ (h.child c j hj).1⟩)
    (fun c' _ => hkeep c' _) (h.head hc)⟩

end

/-- A CPU keeps a lock from one section to the next only while it switches to a process. -/
theorem Wf.lock_ne (hw : Wf s) (hsel : ∀ i, s.cpu c ≠ .selected i)
    (hres : ∀ i, s.cpu c = .run i → (s.thread i).isResuming = false) (j : Slot) : s.lock j ≠ some c := by
  intro hj
  rcases hw.lock c j hj with hs | ⟨hr, ht⟩
  · exact hsel j hs
  · rw [hres j hr] at ht
    cases ht

/-- Another CPU's lock is not the one released. -/
theorem holder_of_release {c' : Fin C} (hl : m.holder l = some c) (hc : c' ≠ c) (l' : Lock)
    (hl' : m.holder l' = some c') : (m.setHolder l none).holder l' = some c' := by
  have hne : l' ≠ l := by
    rintro rfl
    exact hc (Option.some.inj (hl'.symm.trans hl))
  rw [setHolder_holder, update_of_ne hne, hl']

section

variable (h : Refines m s H)
include h

/-- A child in hand is let go with `wait_lock`. -/
theorem Refines.hand_release (l : Lock) :
    (if l = .wait then .empty else H c) = .empty ∨ (if l = .wait then .empty else H c) = H c ∧
      (H c = .clock → (m.cpu c).irq = false) ∧
      ∀ j, H c = .child j → (m.setHolder l none).holder .wait = some c := by
  split_ifs with hl
  · exact .inl rfl
  · refine .inr ⟨rfl, fun hcl => (h.clock c hcl).2, fun j hj => ?_⟩
    rw [setHolder_holder, update_of_ne (Ne.symm hl)]
    exact (h.child c j hj).1

/-- `release`, by a thread that keeps no lock between sections. -/
theorem Refines.releaseQuiet (hg : Good m A K) (hl : m.holder l = some c)
    (hfree : ∀ j, s.lock j ≠ some c)
    (hk : wp (m.cpu c).thread k (fun _ => True)
      (s.pos c (m.cpu c).thread (m.cpu c).irq (if l = .wait then .empty else H c))) :
    Simulates s ((m.setHolder l none).setCode c k) := by
  have hkeep := fun c' (hc' : c' ≠ c) => holder_of_release hl hc'
  refine ⟨s, _, .inl rfl, h.stutter hg (x := m.cpu c) (update_eq_self c m.cpu).symm rfl rfl rfl rfl (h.irq c)
    (fun c' j hj => hkeep c' ?_ _ (h.lock c' j hj)) (h.hand_release l) (fun c' hc' => hkeep c' hc' _) hk⟩
  rintro rfl
  exact hfree j hj

/-- The CPU of a process that has not given it up. -/
theorem Refines.cpu_run (ht : (m.cpu c).thread = some p)
    (hoff : (s.thread p).isOff = false) : s.cpu c = .run p := by
  rw [h.cpu c p ht]
  cases hth : s.thread p <;> first | rfl | (rw [hth] at hoff; cases hoff)

/-- The CPU of a process has none selected, and runs no other. -/
theorem Refines.cpu_of_thread (ht : (m.cpu c).thread = some p) :
    (∀ j, s.cpu c ≠ .selected j) ∧ ∀ j, s.cpu c = .run j → j = p := by
  rw [h.cpu c p ht]
  constructor <;> intro j hj <;> cases hth : s.thread p <;> simp_all [Thread.pc]

/-- `sched` has returned in `yield`, or `forkret` begins: the process layer no longer keeps the lock. -/
theorem Refines.resume {η : Hand} {r : Resume}
    (hg : Good m A K) (hcpu : m1.cpu = update m.cpu c x) (hx : x.thread = (m.cpu c).thread)
    (hs : m1.schedCode = m.schedCode) (hp : m1.procCode = m.procCode) (hm : m1.mem = m.mem)
    (ht : (m.cpu c).thread = some p) (hth : s.thread p = .resuming r) (hr : r = .yield ∨ r = .forkret)
    (hlock : ∀ c' j, s.lock j = some c' → j ≠ p → m1.holder (.proc j) = some c')
    (hhand : η = .empty ∨ η = H c ∧ (H c = .clock → x.irq = false) ∧
      ∀ j, H c = .child j → m1.holder .wait = some c)
    (hwait : ∀ c' ≠ c, m.holder .wait = some c' → m1.holder .wait = some c')
    (hk : wp (some p) k (fun _ => True) (.proc .normal (s.forking p) x.irq η)) :
    Simulates s (m1.setCode c k) := by
  have hrun : s.cpu c = .run p := h.cpu_run ht (by rw [hth]; rfl)
  have hstep : s.step ⟨c, .resume⟩ = some ((s.setThread p .normal).setLock p none) := by
    rcases hr with rfl | rfl <;> simp [Sys.step, Sys.processStep, hrun, hth]
  refine ⟨_, update H c η, .inr ⟨_, hstep⟩, h.keep hg hcpu hx hs hp (hm ▸ h.same) (ht ▸ Only.refl.setThread.setLock)
    (fun q hq => ?_) (fun c' j hj => ?_) (h.hands hhand hwait fun j => by rw [hm]) (fun i _ => hm ▸ id) ?_⟩
  · obtain rfl : p = q := Option.some.inj (ht.symm.trans hq)
    simp [Thread.pc, Thread.onTimer, hrun]
  · have hjp : j ≠ p := by
      rintro rfl
      simp at hj
    exact hlock c' j (by simpa [hjp] using hj) hjp
  · rw [ht]
    simpa [Sys.pos] using hk

theorem Refines.release (hg : Good m A K) (hw : Wf s)
    (hc : m.code c = .release l :: rest) (hl : m.holder l = some c) :
    Simulates s ((m.setHolder l none).setCode c (.popOff :: rest)) := by
  obtain ⟨⟨hidle, hres⟩, hk⟩ := h.head hc
  cases ht : (m.cpu c).thread with
  | none =>
    rw [ht] at hidle hk
    refine h.releaseQuiet hg hl (hw.lock_ne (fun i hi => ?_) fun i hi => ?_) ?_
    · simp [Sys.pos, hi, Pc.idle] at hidle
    · simp [Sys.pos, hi, Pc.idle] at hidle
    · rw [ht]
      simpa [Sys.pos] using hk
  | some p =>
    rw [ht] at hres hk
    by_cases hth : s.thread p = .resuming .forkret
    · have hrun : s.cpu c = .run p := h.cpu_run ht (by rw [hth]; rfl)
      have hkeep := fun c' (hc' : c' ≠ c) => holder_of_release hl hc'
      refine h.resume hg (x := m.cpu c) (update_eq_self c m.cpu).symm rfl rfl rfl rfl ht hth (.inr rfl)
        (fun c' j hj hjp => hkeep c' ?_ _ (h.lock c' j hj)) (h.hand_release l) (fun c' hc' => hkeep c' hc' _) ?_
      · rintro rfl
        rcases hw.lock c' j hj with hs | ⟨hr, -⟩
        · cases hrun.symm.trans hs
        · exact hjp (Pc.run.inj (hr.symm.trans hrun))
      · simpa [Sys.pos, hth] using hk
    · refine h.releaseQuiet hg hl (hw.lock_ne (fun i hi => ?_) fun i hi => ?_) ?_
      · exact (h.cpu_of_thread ht).1 i hi
      · obtain rfl := (h.cpu_of_thread ht).2 i hi
        exact Bool.eq_false_iff.mpr fun he => hth (hres he)
      · rw [ht]
        simpa [Sys.pos, hth] using hk

/-- `sched` returns: `c->intena` is restored. -/
theorem Refines.setIntena {b : Bool} (hg : Good m A K) (hw : Wf s)
    (ht : (m.cpu c).thread = some p) (hc : m.code c = .setIntena b :: rest) :
    Simulates s ((m.setCpu c { m.cpu c with intena := b }).setCode c rest) := by
  obtain ⟨hres, hH, hk⟩ := h.head hc
  rw [ht] at hres hH hk
  have hH : H c = .empty := hH
  have hrun : s.cpu c = .run p := h.cpu_run ht (by cases hth : s.thread p <;> simp_all [Sys.pos, Thread.isOff, Thread.isResuming])
  have hheld := h.lock c p (hw.resuming c p hrun hres)
  have hn : (m.cpu c).noff ≠ 0 := by
    have hpos : 0 < (A c).held.length := List.length_pos_of_mem ((hg.locked.agrees c _).mp hheld)
    have hnoff := hg.locked.noff c
    omega
  have hirq : ({ m.cpu c with intena := b } : Cpu).irq = b := if_neg hn
  by_cases hth : s.thread p = .resuming .yield
  · refine h.resume hg rfl rfl rfl rfl rfl ht hth (.inl rfl) (fun c' j hj _ => h.lock c' j hj)
      (.inl hH) (fun _ _ => id) ?_
    rw [hirq]
    simpa [Sys.pos, hth] using hk
  · refine h.setCpu hg rfl (fun q hq _ => ?_) (by simp [hH]) ?_
    · obtain rfl : p = q := Option.some.inj (ht.symm.trans hq)
      cases hth : s.thread p <;> simp_all [Sys.pos, Thread.onTimer, Thread.isResuming]
    · rw [hirq, ht]
      simpa [Sys.pos, hth] using hk

/-- CPU `c` goes on in another thread. -/
theorem Refines.switch (hcpu : m1.cpu = update m.cpu c x)
    (hm : m1.mem = m.mem) (hh : m1.holder = m.holder) (hH : H c = .empty)
    (hcode : ∀ c' ≠ c, m1.code c' = m.code c') (hsched : ∀ c' ≠ c, m1.schedCode c' = m.schedCode c')
    (hnew : ∀ p, x.thread = some p → s.cpu c = (s.thread p).pc p ∧ (s.thread p).onTimer = false ∧
      ∀ b, wp none (m1.schedCode c) (fun _ => True) (.sched .test b .empty))
    (hk : wp x.thread (m1.code c) (fun _ => True) (s.pos c x.thread x.irq .empty))
    (hpark : ∀ i, (∀ c' ≠ c, (m.cpu c').thread ≠ some i) → x.thread ≠ some i → Alive (m.mem.state i) →
      ∃ r, (s.thread i).resume = some r ∧
        ∀ b, wp (some i) (m1.procCode i) (fun _ => True) (.proc (.resuming r) (s.forking i) b .empty)) :
    Refines m1 s H where
  same := hm ▸ h.same
  lock := hh ▸ h.lock
  cpu := fun c' p ht => by
    rcases eq_or_ne c' c with rfl | hc
    · rw [hcpu, update_self] at ht
      exact (hnew p ht).1
    · rw [hcpu, update_of_ne hc] at ht
      exact h.cpu c' p ht
  irq := fun c' p ht hi => by
    rcases eq_or_ne c' c with rfl | hc
    · rw [hcpu, update_self] at ht
      exact (hnew p ht).2.1
    · rw [hcpu, update_of_ne hc] at ht hi
      exact h.irq c' p ht hi
  clock := fun c' hc' => by
    have hc : c' ≠ c := by
      rintro rfl
      cases hH.symm.trans hc'
    rw [hcpu, update_of_ne hc]
    exact h.clock c' hc'
  child := fun c' j hj => by
    have hc : c' ≠ c := by
      rintro rfl
      cases hH.symm.trans hj
    rw [hh, hm, hcpu, update_of_ne hc]
    exact h.child c' j hj
  code := fun c' => by
    rcases eq_or_ne c' c with rfl | hc
    · rwa [hcpu, update_self, hH]
    · rw [hcode c' hc, hcpu, update_of_ne hc]
      exact h.code c'
  back := fun c' p ht => by
    rcases eq_or_ne c' c with rfl | hc
    · rw [hcpu, update_self] at ht
      exact (hnew p ht).2.2
    · rw [hcpu, update_of_ne hc] at ht
      rw [hsched c' hc]
      exact h.back c' p ht
  parked := fun i hi ha => by
    refine hpark i (fun c' hc => ?_) ?_ (hm ▸ ha)
    · simpa [hcpu, hc] using hi c'
    · simpa [hcpu] using hi c

theorem Refines.swtch {i : Slot} (hg : Good m A K) (hw : Wf s)
    (hc : m.code c = .swtch i :: rest) :
    Simulates s ((m.setCode c rest).setCpu c { m.cpu c with thread := some i }) := by
  obtain ⟨hpc, hH, hk⟩ := h.head hc
  obtain ⟨hme, hA⟩ := hg.needs hc rfl
  rw [hme] at hpc hH hk
  have hH : H c = .empty := hH
  have hcur : (A c).cur = some i := by simp [hA]
  have hst : m.mem.state i = .running := ((hg.owned.fits c).know (i, .is .running) (by simp [hA])).2
  have hidle : ∀ c', (m.cpu c').thread ≠ some i := by
    intro c' ht
    obtain rfl := hg.owned.inj _ _ i ((hg.owned.fits c').own i ht) hcur
    rw [hme] at ht
    cases ht
  -- the process is not switched out, so it is past `swtch` in the process layer
  obtain ⟨r, hr, hproc⟩ := h.parked i hidle (by rw [hst]; simp [Alive])
  have hth : s.thread i = .resuming r := by
    have hon : (s.thread i).isOff ≠ true := by
      rw [Ne, hw.off i, h.state i, hst]
      simp
    cases hth : s.thread i <;> simp_all [Thread.resume, Thread.isOff]
  rw [setCode_of_none hme]
  refine ⟨s, H, .inl rfl, h.switch rfl rfl rfl hH (fun c' hc' => ?_) (fun c' hc' => ?_) (fun p hp => ?_) ?_
    (fun j hj hji ha => ?_)⟩
  · simp [Machine.code, hc']
  · simp [hc']
  · obtain rfl : i = p := by simpa using hp
    rw [hth]
    exact ⟨by simpa [Thread.pc, Sys.pos] using hpc, rfl, by simpa [Sys.pos, hH] using hk⟩
  · simpa [Machine.code, Sys.pos, hth] using hproc _
  · refine h.parked j (fun c' => ?_) ha
    rcases eq_or_ne c' c with rfl | hc'
    · rw [hme]
      simp
    · exact hj c' hc'

/-- A process switches to the scheduler thread of its CPU. -/
theorem Refines.switchOut (hg : Good m A K)
    (ht : (m.cpu c).thread = some p) (hoff : (s.thread p).isOff = true) (hH : H c = .empty)
    (hk : Alive (m.mem.state p) → ∃ r, (s.thread p).resume = some r ∧
      ∀ b, wp (some p) k (fun _ => True) (.proc (.resuming r) (s.forking p) b .empty)) :
    Simulates s ((m.setCode c k).setCpu c { m.cpu c with thread := none }) := by
  have hpc : s.cpu c = .test := by
    rw [h.cpu c p ht]
    cases hth : s.thread p <;> simp_all [Thread.isOff, Thread.pc]
  rw [setCode_of_some ht]
  refine ⟨s, H, .inl rfl, h.switch rfl rfl rfl hH (fun c' hc' => ?_) (fun c' hc' => rfl) (by simp) ?_
    (fun j hj _ ha => ?_)⟩
  · cases ht' : (m.cpu c').thread with
    | none => simp [Machine.code, hc', ht']
    | some i =>
      have hip : i ≠ p := fun he => hc' (hg.owned.thread_inj ht (he ▸ ht'))
      simp [Machine.code, hc', ht', hip]
  · simpa [Machine.code, Sys.pos, hpc] using h.back c p ht _
  · rcases eq_or_ne j p with rfl | hjp
    · simpa using hk ha
    · have hidle : ∀ c', (m.cpu c').thread ≠ some j := by
        intro c'
        rcases eq_or_ne c' c with rfl | hc'
        · rw [ht]
          exact fun he => hjp (Option.some.inj he).symm
        · exact hj c' hc'
      simpa [hjp] using h.parked j hidle ha

/-- `sched` in `yield` and `sleep`. -/
theorem Refines.sched (hg : Good m A K)
    (ht : (m.cpu c).thread = some p) (hn : (m.cpu c).noff = 1) (hc : m.code c = .sched :: rest) :
    Simulates s ((m.setCode c (.setIntena (m.cpu c).intena :: rest)).setCpu c
      { m.cpu c with thread := none }) := by
  obtain ⟨hH, hk⟩ := h.head hc
  rw [ht] at hH hk
  have hirq : (m.cpu c).irq = (m.cpu c).intena := if_neg (by omega)
  rw [hirq] at hk
  rcases hk with ⟨hth, hk⟩ | ⟨hth, hk⟩
  · have hth' : s.thread p = .off .yield := hth
    refine h.switchOut hg ht (by rw [hth']; rfl) hH fun _ => ⟨.yield, by rw [hth']; rfl, fun b => ?_⟩
    have hH' : H c = .empty := hH
    simpa [Sys.pos, hH', Thread.isResuming] using hk
  · have hth' : s.thread p = .off .sleep := hth
    refine h.switchOut hg ht (by rw [hth']; rfl) hH fun _ => ⟨.sleep, by rw [hth']; rfl, fun b => ?_⟩
    have hH' : H c = .empty := hH
    simpa [Sys.pos, hH', Thread.isResuming] using hk

/-- `sched` in `exit`: the thread does not continue. -/
theorem Refines.schedExit (hg : Good m A K) (ht : (m.cpu c).thread = some p)
    (hz : m.mem.state p = .zombie) (hc : m.code c = .schedExit :: rest) :
    Simulates s ((m.setCode c k).setCpu c { m.cpu c with thread := none }) := by
  have hwp := h.head hc
  rw [ht] at hwp
  obtain ⟨(hth : s.thread p = .off .exit), (hH : H c = .empty)⟩ := hwp
  exact h.switchOut hg ht (by rw [hth]; rfl) hH fun ha => absurd hz ha.2

end

end

end Xv6Mlfq
