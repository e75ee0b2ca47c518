import Xv6Mlfq.Kernel.Invariant

/-!
# Xv6Mlfq.Kernel.Safe — every step keeps the invariant

`Executes` is a step of the machine inverted once, with what the invariant knows at each instruction: none of the panics but
that of `exit`.  There is one lemma for each instruction that touches a CPU, a lock or another thread; the others follow from
`expandAny_sound` and `expandProc_sound`.  `MachineReach.good`: the invariant holds in every state of every run, on any number
of CPUs.
-/

namespace Xv6Mlfq

open CInt Function Abs LockOrder Machine

variable {d : Mem} {p j : Slot} {q : Proc} {pid : ℤ} {dev : Dev}

section

variable {C : ℕ} {m m' m1 : Machine C} {A : Fin C → Abs} {A1 B : Abs} {K K' : Slot → Option Slot}
  {c : Fin C} {x : Cpu} {i : Instr} {k rest : List Instr} {l : Lock}

theorem Locked.setCode (h : Locked m A) : Locked (m.setCode c k) A :=
  ⟨by simpa using h.agrees, h.ordered, by simpa using h.noff, by simpa using h.intr⟩

theorem Owned.setCode (h : Owned m A K) : Owned (m.setCode c k) A K :=
  ⟨by simpa using h.fits, h.inj, by simpa using h.onCpu, by simpa using h.kid, by simpa using h.children⟩

/-- The contract of the first instruction. -/
theorem Good.head (h : Good m A K) (hc : m.code c = i :: rest) :
    ∃ B, i.sig (m.cpu c).thread (A c) = some B ∧
      check (m.cpu c).thread rest B = some (holding (m.cpu c).thread []) := by
  have hcode := h.coded.code c
  rw [hc] at hcode
  exact Option.bind_eq_some_iff.mp hcode

/-- What the first instruction asks for. -/
theorem Good.needs {P : Prop} {B : Abs} (h : Good m A K) (hc : m.code c = i :: rest)
    (hi : i.sig (m.cpu c).thread (A c) = when P B) : P := by
  obtain ⟨B', hsig, -⟩ := h.head hc
  exact (when_eq_some.mp (hi.symm.trans hsig)).1

theorem Good.at {P : Prop} {B : Abs} {p : Slot} (h : Good m A K) (ht : (m.cpu c).thread = some p)
    (hc : m.code c = i :: rest) (hi : i.sig (some p) (A c) = when P B) : P :=
  h.needs hc (by rw [ht, hi])

/-- A step of CPU `c` that changes no process state. -/
theorem Good.sameState (h : Good m A K) (hcpu : m1.cpu = update m.cpu c x)
    (hst : ∀ i, m1.mem.state i = m.mem.state i) (hs : m1.schedCode = m.schedCode) (hp : m1.procCode = m.procCode) (hpan : m1.panics = m.panics)
    (hth : x.thread = (m.cpu c).thread) (hl : Locked m1 (update A c A1))
    (hfit : Fits x.thread x.proc A1 m1.mem) (hcur : A1.cur = (A c).cur) (hkid : A1.kid = (A c).kid)
    (hk : check (m.cpu c).thread k A1 = some (holding (m.cpu c).thread [])) :
    Good (m1.setCode c k) (update A c A1) K := by
  have hth' : ∀ c', (m1.cpu c').thread = (m.cpu c').thread := by
    intro c'
    rcases eq_or_ne c' c with rfl | hc
    · simpa [hcpu] using hth
    · simp [hcpu, hc]
  refine ⟨hl.setCode, (h.owned.keep hcpu hst hth hfit hcur hkid).setCode, ?_, ?_⟩
  · exact h.coded.keep h.owned hth' hs hp (fun i _ ha => hst i ▸ ha) (fun _ _ => rfl) hk
  · rw [setCode_panics, hpan]
    exact h.panics

/-! ## Locks and interrupts -/

theorem Good.acquire (h : Good m A K) (hc : m.code c = .acquire l :: rest) :
    m.holder l ≠ some c ∧ Good ((m.setCpu c (pushOff (m.cpu c))).setCode c (.spin l :: rest))
      (update A c { A c with pend := 1 }) K := by
  obtain ⟨B, hsig, hrest⟩ := h.head hc
  obtain ⟨⟨hpend, hbelow⟩, rfl⟩ := when_eq_some.mp hsig
  have hf := h.owned.fits c
  refine ⟨fun hl => ?_, ?_⟩
  · exact absurd (hbelow l ((h.locked.agrees c l).mp hl)) (lt_irrefl _)
  refine h.sameState rfl (fun _ => rfl) rfl rfl rfl rfl ?_ ⟨hf.cur, hf.own, hf.between, hf.running, hf.know⟩ rfl rfl ?_
  · refine h.locked.step rfl ?_ (h.locked.ordered c) ?_ ?_
    · rw [update_eq_self (f := fun c => (A c).held)]
      exact h.locked.agrees
    · simp [pushOff, h.locked.noff c, hpend]
    · simp [pushOff]
  · rw [hpend] at hrest
    exact Seq.check_cons_of (when_pos ⟨rfl, hbelow⟩) hrest

theorem Good.spin (h : Good m A K) (hc : m.code c = .spin l :: rest) (hl : m.holder l = none) :
    Good ((m.setHolder l (some c)).setCode c rest)
      (update A c { A c with held := l :: (A c).held, pend := 0 }) K := by
  obtain ⟨B, hsig, hrest⟩ := h.head hc
  obtain ⟨⟨hpend, hbelow⟩, rfl⟩ := when_eq_some.mp hsig
  have hf := h.owned.fits c
  refine h.sameState (x := m.cpu c) (update_eq_self c m.cpu).symm (fun _ => rfl) rfl rfl rfl rfl ?_
    ⟨hf.cur, hf.own, hf.between, hf.running, fun y hy => ?_⟩ rfl rfl hrest
  · refine h.locked.step (x := m.cpu c) (update_eq_self c m.cpu).symm (h.locked.agrees.acquire hl)
      ((h.locked.ordered c).cons hbelow) ?_ (h.locked.intr c)
    simp [h.locked.noff c, hpend]
  · exact ⟨List.mem_cons_of_mem _ (hf.know y hy).1, (hf.know y hy).2⟩

/-- What a thread knows after `release`. -/
theorem Fits.release {me myproc : Option Slot} {a : Abs} (h : Fits me myproc a d)
    (ho : Ordered Lock.rank a.held) (hr : a.MayRelease me l) : Fits me myproc (a.release l) d where
  cur := h.cur
  own := h.own
  between := fun p hme hp => by
    obtain ⟨f, hf⟩ := h.between p hme hp
    refine ⟨f, ?_⟩
    have hne : l ≠ .proc p := fun he => (hr.2.2 _ hf he hp).1 hme
    simp [hf, hne]
  running := fun p hp => by
    rcases h.running p hp with hst | ⟨f, hf⟩
    · exact .inl hst
    by_cases he : l = .proc p
    · left
      have hrun := (hr.2.2 _ hf he hp).2
      have hst := (h.know _ hf).2
      rw [hrun] at hst
      exact hst
    · exact .inr ⟨f, by simp [hf, he]⟩
  know := fun y hy => by
    obtain ⟨hy, hne⟩ := Option.mem_filter_iff.mp hy
    obtain ⟨hheld, hst⟩ := h.know y hy
    refine ⟨?_, hst⟩
    rw [Abs.release, ho.nodup.mem_erase_iff]
    exact ⟨fun he => by simp [he] at hne, hheld⟩

theorem Good.release (h : Good m A K) (hc : m.code c = .release l :: rest) :
    m.holder l = some c ∧ Good ((m.setHolder l none).setCode c (.popOff :: rest))
      (update A c { (A c).release l with pend := 1 }) K := by
  obtain ⟨B, hsig, hrest⟩ := h.head hc
  obtain ⟨hr, rfl⟩ := when_eq_some.mp hsig
  have hf := (h.owned.fits c).release (h.locked.ordered c) hr
  obtain ⟨hpend, hheld, -⟩ := hr
  refine ⟨(h.locked.agrees c l).mpr hheld, ?_⟩
  refine h.sameState (x := m.cpu c) (update_eq_self c m.cpu).symm (fun _ => rfl) rfl rfl rfl rfl ?_
    ⟨hf.cur, hf.own, hf.between, hf.running, hf.know⟩ rfl rfl ?_
  · refine h.locked.step (x := m.cpu c) (update_eq_self c m.cpu).symm
      (h.locked.agrees.release (h.locked.ordered c).nodup hheld) ?_ ?_ (h.locked.intr c)
    · exact List.Pairwise.sublist List.erase_sublist (h.locked.ordered c)
    · have hpos := List.length_pos_of_mem hheld
      have hlen := List.length_erase_of_mem hheld
      have hn := h.locked.noff c
      show (m.cpu c).noff = ((A c).held.erase l).length + 1
      omega
  · refine Seq.check_cons_of (b := (A c).release l) ?_ hrest
    simp [hpend]

section Cpu

variable (h : Good m A K)

include h

theorem Good.popOff (hc : m.code c = .popOff :: rest) : (m.cpu c).intr = false ∧ 0 < (m.cpu c).noff ∧ Good ((m.setCpu c (popOff
    (m.cpu c))).setCode c rest) (update A c { A c with pend := 0 }) K := by
  obtain ⟨B, hsig, hrest⟩ := h.head hc
  obtain ⟨hpend, rfl⟩ := when_eq_some.mp hsig
  have hf := h.owned.fits c
  have hn := h.locked.noff c
  have hpos : 0 < (m.cpu c).noff := by omega
  have hi : (m.cpu c).intr = false := by
    by_contra hi
    have := h.locked.intr c (by simpa using hi)
    omega
  refine ⟨hi, hpos, ?_⟩
  refine h.sameState rfl (fun _ => rfl) rfl rfl rfl rfl ?_ ⟨hf.cur, hf.own, hf.between, hf.running, hf.know⟩ rfl rfl hrest
  refine h.locked.step rfl ?_ (h.locked.ordered c) ?_ ?_
  · rw [update_eq_self (f := fun c => (A c).held)]
    exact h.locked.agrees
  · simp [Machine.popOff, hn, hpend]
  · simp only [Machine.popOff, hi]
    split_ifs with hz <;> simp
    exact hz.1

/-- A change of the interrupt state alone. -/
theorem Good.setIntr (hth : x.thread = (m.cpu c).thread) (hproc : x.proc = (m.cpu c).proc) (hn : x.noff = (m.cpu c).noff) (hi :
    x.intr = true → (m.cpu c).noff = 0) (hk : check (m.cpu c).thread k (A c) = some (holding (m.cpu c).thread [])) : Good
    ((m.setCpu c x).setCode c k) A K := by
  rw [← update_eq_self c A]
  refine h.sameState rfl (fun _ => rfl) rfl rfl rfl hth ?_ ?_ rfl rfl hk
  · exact h.locked.keep rfl rfl rfl rfl hn hi
  · rw [hth, hproc]
    exact h.owned.fits c

/-! ## Process states -/

/-- A lock is held by one CPU. -/
theorem Good.excl {c' : Fin C} (hc : c' ≠ c) (hl : l ∈ (A c').held) : l ∉ (A c).held :=
  fun hl' => hc (h.locked.agrees.unique hl hl')

/-- A process that is not `RUNNING` is on no CPU but the one that holds its lock. -/
theorem Good.not_cur {i : Slot} (hheld : .proc i ∈ (A c).held) (hst : m.mem.state i ≠ .running) : ∀ c' ≠ c, (A c').cur ≠ some i := by
  intro c' hc' hcur
  rcases (h.owned.fits c').running i hcur with hr | ⟨f, hf⟩
  · exact hst hr
  · exact h.excl hc' ((h.owned.fits c').know _ hf).1 hheld

/-- Nor does any other CPU execute its thread. -/
theorem Good.no_thread {i : Slot} (hheld : .proc i ∈ (A c).held) (hst : m.mem.state i ≠ .running) (hc : (m.cpu c).thread ≠ some
    i) : ∀ c', (m.cpu c').thread ≠ some i := by
  intro c' ht
  rcases eq_or_ne c' c with rfl | hc'
  · exact hc ht
  · exact h.not_cur hheld hst c' hc' ((h.owned.fits c').own i ht)

/-- A step of CPU `c` that changes states only of processes whose lock it holds. -/
theorem Good.table (hcpu : m1.cpu = update m.cpu c x) (hh : m1.holder = m.holder) (hs : m1.schedCode = m.schedCode) (hp :
    m1.procCode = m.procCode) (hpan : m1.panics = m.panics) (hn : x.noff = (m.cpu c).noff) (hi : x.intr = (m.cpu c).intr) (hth :
    x.thread = (m.cpu c).thread) (hheld : B.held = (A c).held) (hpend : B.pend = (A c).pend) (hlock : ∀ i, m1.mem.state i ≠
    m.mem.state i → .proc i ∈ (A c).held) (hrun : ∀ i, (A c).cur ≠ some i → m.mem.state i = .running → m1.mem.state i =
    .running) (hfit : Fits x.thread x.proc B m1.mem) (hkid : B.kid = x.thread.bind K') (hK : ∀ i, (m.cpu c).thread ≠ some i → K'
    i = K i) (hinj : ∀ c' ≠ c, ∀ i, B.cur = some i → (A c').cur ≠ some i) (hon : ∀ i, m1.mem.state i = .running → B.cur = some i
    ∨ m.mem.state i = .running ∧ (A c).cur ≠ some i) (hch : Children m1.mem K') (hst : ∀ i, (∀ c, (m.cpu c).thread ≠ some i) →
    Alive (m1.mem.state i) → Alive (m.mem.state i)) (hk : check (m.cpu c).thread k B = some (holding (m.cpu c).thread [])) :
    Good (m1.setCode c k) (update A c B) K' := by
  have hth' : ∀ c', (m1.cpu c').thread = (m.cpu c').thread := by
    intro c'
    rcases eq_or_ne c' c with rfl | hc
    · simpa [hcpu] using hth
    · simp [hcpu, hc]
  refine ⟨?_, ?_, ?_, ?_⟩
  · exact (h.locked.keep hcpu hh hheld hpend hn (hi ▸ h.locked.intr c)).setCode
  · refine (h.owned.step hcpu ?_ hrun hfit hkid ?_ hinj hon hch).setCode
    · intro c' hc i hl
      by_contra hne
      exact h.excl hc hl (hlock i hne)
    · intro c' hc
      cases ht : (m.cpu c').thread with
      | none => rfl
      | some i => exact hK i fun ht' => hc (h.owned.thread_inj ht' ht)
  · exact h.coded.keep h.owned hth' hs hp hst hK hk
  · rw [setCode_panics, hpan]
    exact h.panics

end Cpu

/-- `Moves` starts and ends off the CPU, takes no child from `fork`, and ends no life. -/
theorem Moves.frame {st st' : ProcState} (h : st' = st ∨ Moves st st') :
    (st' = .running ↔ st = .running) ∧ (st = .used → st' = .used) ∧ (Alive st' ↔ Alive st) := by
  rcases h with rfl | h
  · simp
  · cases h <;> simp [Alive]

section Table

variable (h : Good m A K)

include h

/-- The process a CPU executes is not on another. -/
theorem Good.cur_inj : ∀ c' ≠ c, ∀ i, (A c).cur = some i → (A c').cur ≠ some i :=
  fun _ hc _ hi hi' => hc (h.owned.inj _ _ _ hi' hi)

/-- A data access that stops no process. -/
theorem Good.quiet {κ : Option (Slot × Fact)} (hst : ∀ j, d.state j = m.mem.state j ∨ .proc j ∈ (A c).held ∧ Moves
    (m.mem.state j) (d.state j)) (hknow : ∀ x ∈ κ, .proc x.1 ∈ (A c).held ∧ x.2.Holds (d.state x.1)) (hcur : κ = (A c).know ∨ ∀
    p, (A c).cur = some p → (m.cpu c).thread = some p ∧ m.mem.state p = .running) (hk : check (m.cpu c).thread k
    { A c with know := κ } = some (holding (m.cpu c).thread [])) : Good ((m.setMem d).setCode c k) (update A c
    { A c with know := κ }) K := by
  have hf := h.owned.fits c
  have hfr := fun i => Moves.frame ((hst i).imp id And.right)
  refine h.table (x := m.cpu c) (B := { A c with know := κ }) (update_eq_self c m.cpu).symm
    rfl rfl rfl rfl rfl rfl rfl rfl rfl (fun i hi => ((hst i).resolve_left hi).1)
    (fun i _ => (hfr i).1.mpr) ⟨hf.cur, hf.own, fun p hme hp => ?_, fun p hp => ?_, hknow⟩
    (h.owned.kid c) (fun _ _ => rfl) h.cur_inj (fun i hi => ?_) ⟨?_, h.owned.children.inj, ?_⟩
    (fun i _ => (hfr i).2.2.mp) hk
  · rcases hcur with rfl | hcur
    · exact hf.between p hme hp
    · rw [hme] at hcur
      cases (hcur p hp).1
  · rcases hcur with rfl | hcur
    · exact (hf.running p hp).imp (hfr p).1.mpr id
    · exact .inl ((hfr p).1.mpr (hcur p hp).2)
  · exact (em ((A c).cur = some i)).imp id fun hne => ⟨(hfr i).1.mp hi, hne⟩
  · exact fun i j hj => (hfr j).2.1 (h.owned.children.used i j hj)
  · exact fun i j hj => (hfr i).2.2.mpr (h.owned.children.alive i j hj)

/-- A process gives up its CPU: `yield`, `sleep` or `exit`, before `sched`. -/
theorem Good.leave (hme : (m.cpu c).thread = some p) (hheld : .proc p ∈ (A c).held) (hknow : (A c).know =
    none) (hq : q.state = .runnable ∨ q.state = .sleeping ∨ q.state = .zombie ∧ (A c).kid = none) (hk : check (m.cpu c).thread k
    { A c with know := some (p, .is q.state) } = some (holding (m.cpu c).thread [])) : Good ((m.setMem (m.mem.setProc p
    q)).setCode c k) (update A c { A c with know := some (p, .is q.state) }) K := by
  have hf := h.owned.fits c
  have hcur := hf.own p hme
  have hrun : m.mem.state p = .running := (hf.running p hcur).resolve_right (by simp [hknow])
  have hnr : q.state ≠ .running := by rcases hq with hq | hq | ⟨hq, -⟩ <;> simp [hq]
  have hself := setProc_state_self m.mem p q
  have hother := fun i (hi : i ≠ p) => setProc_state_of_ne m.mem q hi
  refine h.table (x := m.cpu c) (B := { A c with know := some (p, .is q.state) })
    (update_eq_self c m.cpu).symm rfl rfl rfl rfl rfl rfl rfl rfl rfl (fun i hi => ?_)
    (fun i hi hr => ?_) ⟨hf.cur, hf.own, fun i hi => ?_, fun i hi => ?_, fun y hy => ?_⟩
    (h.owned.kid c) (fun _ _ => rfl) h.cur_inj (fun i hi => ?_) ⟨fun i j hj => ?_,
      h.owned.children.inj, fun i j hj => ?_⟩ (fun i hi ha => ?_) hk
  · by_cases hip : i = p
    · exact hip ▸ hheld
    · exact absurd (hother i hip) hi
  · have hip : i ≠ p := fun he => hi (he ▸ hcur)
    exact (hother i hip).trans hr
  · rw [hme] at hi
    cases hi
  · obtain rfl : p = i := Option.some.inj (hcur.symm.trans hi)
    exact .inr ⟨_, rfl⟩
  · obtain rfl := Option.some.inj hy
    exact ⟨hheld, hself⟩
  · have hip : i ≠ p := fun he => hnr (hself.symm.trans (he ▸ hi))
    refine .inr ⟨(hother i hip).symm.trans hi, fun hi' => hip ?_⟩
    exact Option.some.inj (hi'.symm.trans hcur)
  · have hu := h.owned.children.used i j hj
    have hjp : j ≠ p := by
      rintro rfl
      cases hrun.symm.trans hu
    exact (hother j hjp).trans hu
  · by_cases hip : i = p
    · subst hip
      show Alive ((m.mem.setProc i q).state i)
      rw [hself]
      rcases hq with hq | hq | ⟨-, hkid⟩
      · simp [Alive, hq]
      · simp [Alive, hq]
      · -- an exiting process is not in `fork`
        have hK := h.owned.kid c
        rw [hme, hkid] at hK
        cases hK.trans hj
    · show Alive ((m.mem.setProc p q).state i)
      rw [hother i hip]
      exact h.owned.children.alive i j hj
  · have hip : i ≠ p := fun he => hi c (he ▸ hme)
    rw [← hother i hip]
    exact ha

/-- `fork` makes the child it has created runnable. -/
theorem Good.ready (hme : (m.cpu c).thread = some p) (hkid : (A c).kid = some j) (hheld : .proc j ∈ (A
    c).held) (hknow : (A c).know = none) (hq : q.state = .runnable) (hk : check (m.cpu c).thread k { A c with kid := none } =
    some (holding (m.cpu c).thread [])) : Good ((m.setMem (m.mem.setProc j q)).setCode c k) (update A c
    { A c with kid := none }) (update K p none) := by
  have hf := h.owned.fits c
  have hKp : K p = some j := by
    have hK := h.owned.kid c
    rw [hme, hkid] at hK
    exact hK.symm
  have hused := h.owned.children.used p j hKp
  have hself := setProc_state_self m.mem j q
  have hother := fun i (hi : i ≠ j) => setProc_state_of_ne m.mem q hi
  have hrun : ∀ i, (m.mem.setProc j q).state i = .running ↔ m.mem.state i = .running := by
    intro i
    by_cases hij : i = j
    · subst hij
      rw [hself, hq, hused]
      simp
    · rw [hother i hij]
  have halive : ∀ i, Alive ((m.mem.setProc j q).state i) ↔ Alive (m.mem.state i) := by
    intro i
    by_cases hij : i = j
    · subst hij
      rw [hself, hq, hused]
      simp [Alive]
    · rw [hother i hij]
  have hsub : ∀ a b, update K p none a = some b → a ≠ p ∧ K a = some b := by
    intro a b hb
    rcases eq_or_ne a p with rfl | hap
    · simp at hb
    · exact ⟨hap, by rwa [update_of_ne hap] at hb⟩
  refine h.table (x := m.cpu c) (B := { A c with kid := none })
    (update_eq_self c m.cpu).symm rfl rfl rfl rfl rfl rfl rfl rfl rfl (fun i hi => ?_)
    (fun i _ => (hrun i).mpr) ⟨hf.cur, hf.own, hf.between, fun i hi => ?_, fun y hy => ?_⟩
    ?_ (fun i hi => ?_) h.cur_inj (fun i hi => ?_) ⟨fun a b hb => ?_, fun a a' b hb hb' => ?_,
      fun a b hb => ?_⟩ (fun i _ => (halive i).mp) hk
  · by_cases hij : i = j
    · exact hij ▸ hheld
    · exact absurd (hother i hij) hi
  · exact (hf.running i hi).imp (hrun i).mpr id
  · rw [hknow] at hy
    cases hy
  · rw [hme]
    simp
  · have hip : i ≠ p := fun he => hi (he ▸ hme)
    exact update_of_ne hip _ _
  · exact (em ((A c).cur = some i)).imp id fun hne => ⟨(hrun i).mp hi, hne⟩
  · obtain ⟨hap, hb⟩ := hsub a b hb
    have hbj : b ≠ j := fun he => hap (h.owned.children.inj a p j (he ▸ hb) hKp)
    exact (hother b hbj).trans (h.owned.children.used a b hb)
  · exact h.owned.children.inj a a' b (hsub a b hb).2 (hsub a' b hb').2
  · exact (halive a).mpr (h.owned.children.alive a b (hsub a b hb).2)

/-- The effect of a control point or data access. -/
theorem Good.change (hch : Change (m.cpu c).thread (A c) m.mem A1 d) (hk : check (m.cpu c).thread k A1 = some (holding
    (m.cpu c).thread [])) : ∃ A' K', Good ((m.setMem d).setCode c k) A' K' := by
  cases hch with
  | quiet state know cur => exact ⟨_, _, h.quiet state know cur hk⟩
  | leave hme held know st => exact ⟨_, _, h.leave hme held know st hk⟩
  | ready hme kid held know st => exact ⟨_, _, h.ready hme kid held know st hk⟩

theorem Good.dispatch {i : Slot} (hc : m.code c = .dispatch i :: rest) : Good (((m.setMem (m.mem.setProc i (m.mem.proc
    i).dispatch)).setCpu c { m.cpu c with proc := some i }).setCode c rest) (update A c (knowing (some i) [.proc i] i (.is
    .running))) K := by
  obtain ⟨B, hsig, hrest⟩ := h.head hc
  obtain ⟨⟨hme, hA⟩, rfl⟩ := when_eq_some.mp hsig
  have hf := h.owned.fits c
  have hst : m.mem.state i = .runnable := (hf.know (i, .is .runnable) (by simp [hA])).2
  have hheld : .proc i ∈ (A c).held := by simp [hA]
  have hself : (m.mem.setProc i (m.mem.proc i).dispatch).state i = .running := setProc_state_self ..
  have hother := fun j (hj : j ≠ i) => setProc_state_of_ne m.mem (m.mem.proc i).dispatch hj
  have hfree := h.not_cur hheld (by rw [hst]; simp)
  refine h.table rfl rfl rfl rfl rfl rfl rfl rfl (by simp [hA]) (by simp [hA]) (fun j hj => ?_)
    (fun j _ hr => ?_) ⟨rfl, fun p hp => ?_, fun p _ hp => ?_, fun p hp => ?_, fun y hy => ?_⟩
    (by simp [hme]) (fun _ _ => rfl) (fun c' hc' j hj => ?_) (fun j hj => ?_)
    ⟨fun a b hb => ?_, h.owned.children.inj, fun a b hb => ?_⟩ (fun j _ ha => ?_) hrest
  · by_cases hji : j = i
    · exact hji ▸ hheld
    · exact absurd (hother j hji) hj
  · have hji : j ≠ i := by
      rintro rfl
      cases hst.symm.trans hr
    exact (hother j hji).trans hr
  · rw [hme] at hp
    cases hp
  · cases hp
    exact ⟨_, rfl⟩
  · cases hp
    exact .inl hself
  · cases hy
    exact ⟨List.mem_singleton_self _, hself⟩
  · cases hj
    exact hfree c' hc'
  · by_cases hji : j = i
    · exact .inl (hji ▸ rfl)
    · exact .inr ⟨(hother j hji).symm.trans hj, by simp [hA]⟩
  · have hu := h.owned.children.used a b hb
    have hbi : b ≠ i := by
      rintro rfl
      cases hst.symm.trans hu
    exact (hother b hbi).trans hu
  · by_cases hai : a = i
    · subst hai
      show Alive ((m.mem.setProc a (m.mem.proc a).dispatch).state a)
      rw [hself]
      simp [Alive]
    · show Alive ((m.mem.setProc i (m.mem.proc i).dispatch).state a)
      rw [hother a hai]
      exact h.owned.children.alive a b hb
  · by_cases hji : j = i
    · subst hji
      rw [hst]
      simp [Alive]
    · rw [← hother j hji]
      exact ha

theorem Good.clearProc (hc : m.code c = .clearProc :: rest) : ∃ A', Good ((m.setCpu c { m.cpu c with proc := none }).setCode c
    rest) A' K := by
  obtain ⟨B, hsig, hrest⟩ := h.head hc
  obtain ⟨i, hcur, hsig⟩ := Option.bind_eq_some_iff.mp hsig
  obtain ⟨⟨hme, hA⟩, rfl⟩ := when_eq_some.mp hsig
  have hf := h.owned.fits c
  have hoff : m.mem.state i ≠ .running := (hf.know (i, .off) (by simp [hA])).2
  refine ⟨_, h.table (B := holding none [.proc i]) rfl rfl rfl rfl rfl rfl rfl rfl (by simp [hA])
    (by simp [hA]) (fun j hj => absurd rfl hj) (fun j _ hr => hr)
    ⟨rfl, fun p hp => ?_, by simp, by simp, by simp⟩ (by simp [hme]) (fun _ _ => rfl) (by simp)
    (fun j hj => .inr ⟨hj, fun hj' => hoff ?_⟩) h.owned.children (fun _ _ ha => ha) hrest⟩
  · rw [hme] at hp
    cases hp
  · obtain rfl : i = j := Option.some.inj (hcur.symm.trans hj')
    exact hj

/-- Before the data of a free slot is written: the slot is `UNUSED`, its lock is held, and it is not
the caller's. -/
theorem Good.atAlloc (hc : m.code c = .alloc j pid :: rest) : ∃ p, (m.cpu c).thread = some p ∧ A c =
    knowing (some p) [.proc j] j (.is .unused) ∧ j ≠ p ∧ m.mem.state j = .unused ∧ m.mem.state p = .running ∧ check (some p)
    rest (holding (some p) []) = some (holding (some p) []) := by
  obtain ⟨B, hsig, hrest⟩ := h.head hc
  obtain ⟨⟨hme, hA, hne⟩, rfl⟩ := when_eq_some.mp hsig
  obtain ⟨p, hp⟩ := Option.ne_none_iff_exists'.mp hme
  rw [hp] at hA hne hrest
  have hf := h.owned.fits c
  have hjp : j ≠ p := fun he => hne (congrArg some he.symm)
  have hst : m.mem.state j = .unused := (hf.know (j, .is .unused) (by simp [hA])).2
  have hrun : m.mem.state p = .running := by
    refine (hf.running p (hf.own p hp)).resolve_right ?_
    rintro ⟨f, hf'⟩
    rw [hA] at hf'
    exact hjp (congrArg Prod.fst (Option.some.inj hf'))
  exact ⟨p, hp, hA, hjp, hst, hrun, hrest⟩

theorem Good.allocFail {r : Proc.AllocResult} (hr : r ≠ .ok) (hc : m.code c = .alloc j pid :: rest) : Good
    ((m.setMem (m.mem.setProc j ((m.mem.proc j).alloc r pid))).setCode c ([.leafCalls, .release (.proc j)] ++ rest)) (update A c
    { A c with know := none }) K := by
  obtain ⟨p, hp, hA, hjp, hst, hrun, hrest⟩ := h.atAlloc hc
  refine h.quiet (fun i => .inl ?_) (by simp) (.inr fun p' hp' => ?_) ?_
  · exact setProc_state_eq ((Proc.alloc_state_of_fail _ pid hr).trans hst.symm) i
  · obtain rfl : p = p' := by simpa [hA] using hp'
    exact ⟨hp, hrun⟩
  · rw [hp, hA]
    exact Seq.check_append_of (by simp) hrest

end Table

/-- A running process creates a child in a free slot. -/
theorem Children.create (h : Children d K) (hst : d.state j = .unused)
    (hrun : d.state p = .running) (hq : q.state = .used) :
    Children (d.setProc j q) (update K p (some j)) := by
  have hself := setProc_state_self d j q
  have hother := fun i (hi : i ≠ j) => setProc_state_of_ne d q hi
  have hused : ∀ a b, K a = some b → b ≠ j := by
    rintro a b hb rfl
    cases hst.symm.trans (h.used a b hb)
  refine ⟨fun a b hb => ?_, fun a a' b hb hb' => ?_, fun a b hb => ?_⟩
  · rcases eq_or_ne a p with rfl | ha
    · obtain rfl : j = b := by simpa using hb
      exact hself.trans hq
    · rw [update_of_ne ha] at hb
      exact (hother b (hused a b hb)).trans (h.used a b hb)
  · rcases eq_or_ne p a with rfl | ha <;> rcases eq_or_ne p a' with rfl | ha'
    · rfl
    · rw [update_self] at hb
      rw [update_of_ne ha'.symm] at hb'
      exact absurd (Option.some.inj hb).symm (hused a' b hb')
    · rw [update_self] at hb'
      rw [update_of_ne ha.symm] at hb
      exact absurd (Option.some.inj hb').symm (hused a b hb)
    · rw [update_of_ne ha.symm] at hb
      rw [update_of_ne ha'.symm] at hb'
      exact h.inj a a' b hb hb'
  · have hlive : Alive (d.state a) := by
      rcases eq_or_ne a p with rfl | ha
      · rw [hrun]
        simp [Alive]
      · rw [update_of_ne ha] at hb
        exact h.alive a b hb
    have haj : a ≠ j := by
      rintro rfl
      exact hlive.1 hst
    rwa [hother a haj]

/-! ## Inversion -/

/-- What instruction `i` of CPU `c`, with `rest` behind it, can do. -/
inductive Executes (m : Machine C) (c : Fin C) (ch : Choice) (rest : List Instr) : Instr → Machine C → Prop
  | acquire {l : Lock} : m.holder l ≠ some c →
      Executes m c ch rest (.acquire l) ((m.setCpu c (pushOff (m.cpu c))).setCode c (.spin l :: rest))
  | spin {l : Lock} : m.holder l = none →
      Executes m c ch rest (.spin l) ((m.setHolder l (some c)).setCode c rest)
  | release {l : Lock} : m.holder l = some c →
      Executes m c ch rest (.release l) ((m.setHolder l none).setCode c (.popOff :: rest))
  | popOff : Executes m c ch rest .popOff ((m.setCpu c (popOff (m.cpu c))).setCode c rest)
  | intrOn : Executes m c ch rest .intrOn ((m.setCpu c { m.cpu c with intr := true }).setCode c rest)
  | sret : Executes m c ch rest .sret ((m.setCpu c { m.cpu c with intr := true }).setCode c rest)
  | intrOff : Executes m c ch rest .intrOff ((m.setCpu c { m.cpu c with intr := false }).setCode c rest)
  | setIntena {b : Bool} :
      Executes m c ch rest (.setIntena b) ((m.setCpu c { m.cpu c with intena := b }).setCode c rest)
  | dispatch {j : Slot} : (m.cpu c).thread = none →
      Executes m c ch rest (.dispatch j) (((m.setMem (m.mem.setProc j (m.mem.proc j).dispatch)).setCpu c
        { m.cpu c with proc := some j }).setCode c rest)
  | swtch {j : Slot} : (m.cpu c).thread = none → m.mem.state j = .running →
      Executes m c ch rest (.swtch j) ((m.setCode c rest).setCpu c { m.cpu c with thread := some j })
  | clearProc : Executes m c ch rest .clearProc ((m.setCpu c { m.cpu c with proc := none }).setCode c rest)
  | sched {p : Slot} : (m.cpu c).thread = some p →
      Executes m c ch rest .sched ((m.setCode c (.setIntena (m.cpu c).intena :: rest)).setCpu c
        { m.cpu c with thread := none })
  | schedExit {p : Slot} : (m.cpu c).thread = some p → m.mem.state p = .zombie →
      Executes m c ch rest .schedExit ((m.setCode c [.setIntena (m.cpu c).intena, .zombieExit]).setCpu c
        { m.cpu c with thread := none })
  | initExiting {status : ℤ} : (m.cpu c).thread = some initproc →
      Executes m c ch rest (.exit status) (m.panic c .initExiting rest)
  | exit {status : ℤ} {p : Slot} : (m.cpu c).thread = some p → p ≠ initproc →
      Executes m c ch rest (.exit status) (m.setCode c (exitCode status ++ rest))
  | allocOk {j p : Slot} {pid : ℤ} : (m.cpu c).thread = some p → j ≠ p → m.mem.state j = .unused →
      ch = .alloc .ok → Executes m c ch rest (.alloc j pid)
        (((m.setMem (m.mem.setProc j ((m.mem.proc j).alloc .ok pid))).setProcCode j
          (forkret j)).setCode c (forkTail j ++ rest))
  | allocFail {j p : Slot} {pid : ℤ} {r : Proc.AllocResult} : (m.cpu c).thread = some p → j ≠ p →
      m.mem.state j = .unused → ch = .alloc r → r ≠ .ok → Executes m c ch rest (.alloc j pid)
        ((m.setMem (m.mem.setProc j ((m.mem.proc j).alloc r pid))).setCode c
          ([.leafCalls, .release (.proc j)] ++ rest))
  | syscall {call : Call} {p : Slot} : (m.cpu c).thread = some p → ch = .syscall call →
      Executes m c ch rest .user
        ((m.setCpu c { m.cpu c with intr := false }).setCode c (syscallTrap call ++ rest))
  | fault {p : Slot} : (m.cpu c).thread = some p → ch = .fault →
      Executes m c ch rest .user ((m.setCpu c { m.cpu c with intr := false }).setCode c (faultTrap p ++ rest))
  | any {i : Instr} {d : Mem} {k : List Instr} : i.expandAny (m.cpu c).proc ch m.mem = some (d, k) →
      Executes m c ch rest i ((m.setMem d).setCode c (k ++ rest))
  | proc {i : Instr} {d : Mem} {k : List Instr} {p : Slot} : (m.cpu c).thread = some p →
      i.expandProc p ch m.mem = some (d, k) → Executes m c ch rest i ((m.setMem d).setCode c (k ++ rest))

/-- What an interrupt of CPU `c` can do. -/
inductive Traps (m : Machine C) (c : Fin C) (dev : Dev) : Machine C → Prop
  | user {p : Slot} {rest : List Instr} : (m.cpu c).thread = some p → m.code c = .user :: rest →
      Traps m c dev ((m.setCpu c { m.cpu c with intr := false }).setCode c (intrTrap c p dev ++ rest))
  | kernel : Traps m c dev ((m.setCpu c { m.cpu c with intr := false }).setCode c (kerneltrap c dev ++ m.code c))

section Steps

variable (h : Good m A K)

include h

/-- `fork` claims a free slot and creates the thread of its process. -/
theorem Good.alloc (hc : m.code c = .alloc j pid :: rest) : ∃ A' K', Good (((m.setMem (m.mem.setProc j
    ((m.mem.proc j).alloc .ok pid))).setProcCode j (forkret j)).setCode c (forkTail j ++ rest)) A' K' := by
  obtain ⟨p, hp, hA, hjp, hst, hrun, hrest⟩ := h.atAlloc hc
  have hf := h.owned.fits c
  have hheld : .proc j ∈ (A c).held := by simp [hA]
  have hself : (m.mem.setProc j ((m.mem.proc j).alloc .ok pid)).state j = .used := setProc_state_self ..
  have hother := fun i (hi : i ≠ j) => setProc_state_of_ne m.mem ((m.mem.proc j).alloc .ok pid) hi
  -- nobody executes the thread of a free slot
  have hidle := h.no_thread hheld (by rw [hst]; simp) fun ht => hjp (Option.some.inj (ht.symm.trans hp))
  have hKj : K j = none := by
    cases hk : K j with
    | none => rfl
    | some b => exact absurd hst (h.owned.children.alive j b hk).1
  refine ⟨update A c { holding (some p) [.proc j] with kid := some j }, update K p (some j),
    Locked.setCode ?_, Owned.setCode ?_, ?_, ?_⟩
  · exact h.locked.keep (x := m.cpu c) (update_eq_self c m.cpu).symm rfl (by simp [hA]) (by simp [hA])
      rfl (h.locked.intr c)
  · refine h.owned.step (x := m.cpu c) (update_eq_self c m.cpu).symm (fun c' hc' i hi => ?_)
      (fun i _ hr => ?_) ⟨?_, ?_, ?_, fun i hi => ?_, by simp⟩ (by simp [hp]) (fun c' hc' => ?_)
      (fun c' hc' i hi => h.cur_inj c' hc' i ?_) (fun i hi => ?_)
      (h.owned.children.create hst hrun rfl)
    · exact hother i fun he => h.excl hc' hi (he ▸ hheld)
    · have hij : i ≠ j := by
        rintro rfl
        cases hst.symm.trans hr
      exact (hother i hij).trans hr
    · exact (hf.own p hp).symm.trans hf.cur
    · exact fun i hi => hp.symm.trans hi
    · simp [hp]
    · obtain rfl : p = i := by simpa using hi
      exact .inl ((hother p hjp.symm).trans hrun)
    · cases ht : (m.cpu c').thread with
      | none => rfl
      | some i =>
        have hip : i ≠ p := fun he => hc' (h.owned.thread_inj hp (he ▸ ht))
        exact update_of_ne hip _ _
    · rw [hA]
      exact hi
    · have hij : i ≠ j := by
        rintro rfl
        cases hself.symm.trans hi
      refine (em (some p = some i)).imp id fun hne => ⟨(hother i hij).symm.trans hi, ?_⟩
      rw [hA]
      exact hne
  · refine h.coded.step h.owned (fun _ => rfl) rfl (fun c' i hi => ?_) (fun i hi ha => ?_) ?_
    · have hij : i ≠ j := fun he => hidle c' (he ▸ hi)
      exact update_of_ne hij _ _
    · have hip : i ≠ p := fun he => hi c (he ▸ hp)
      rw [update_of_ne hip]
      rcases eq_or_ne i j with rfl | hij
      · rw [hKj]
        simpa using check_forkret i
      · have hlive : Alive (m.mem.state i) := hother i hij ▸ ha
        simpa [hij] using h.coded.parked i hi hlive
    · rw [hp]
      exact Seq.check_append_of (check_forkTail p j) hrest
  · rw [setCode_panics]
    exact h.panics

/-! ## Context switches -/

/-- The scheduler thread of CPU `c` switches to process `i`. -/
theorem Good.swtch {i : Slot} (hc : m.code c = .swtch i :: rest) : Good ((m.setCode c rest).setCpu c
    { m.cpu c with thread := some i }) (update A c (entered i (K i))) K := by
  obtain ⟨B, hsig, hrest⟩ := h.head hc
  obtain ⟨⟨hme, hA⟩, rfl⟩ := when_eq_some.mp hsig
  rw [hme] at hrest
  have hf := h.owned.fits c
  have hcur : (A c).cur = some i := by simp [hA]
  have hst : m.mem.state i = .running := (hf.know (i, .is .running) (by simp [hA])).2
  have hidle : ∀ c', (m.cpu c').thread ≠ some i := by
    intro c' ht
    obtain rfl := h.owned.inj _ _ i ((h.owned.fits c').own i ht) hcur
    rw [hme] at ht
    cases ht
  rw [setCode_of_none hme]
  refine ⟨?_, ?_, ?_, h.panics⟩
  · exact h.locked.keep rfl rfl (by simp [hA]) (by simp [hA]) rfl (h.locked.intr c)
  · refine h.owned.step rfl (fun _ _ _ _ => rfl) (fun _ _ hr => hr)
      ⟨hcur.symm.trans hf.cur, fun p hp => hp, by simp, fun p hp => ?_, fun y hy => ?_⟩ rfl
      (fun _ _ => rfl) (fun c' hc' j hj => h.cur_inj c' hc' j (hcur.trans hj)) (fun j hj => ?_)
      h.owned.children
    · exact .inr ⟨_, by rw [← Option.some.inj hp]; rfl⟩
    · obtain rfl := Option.some.inj hy
      exact ⟨List.mem_singleton_self _, hst⟩
    · exact (em (some i = some j)).imp id fun hne => ⟨hj, fun he => hne (hcur.symm.trans he)⟩
  · refine ⟨fun c' => ?_, fun c' j hj => ?_, fun j hj ha => ?_⟩
    · rcases eq_or_ne c' c with rfl | hc'
      · simpa [Machine.code] using h.coded.parked i hidle (by rw [hst]; simp [Alive])
      · simpa [Machine.code, hc'] using h.coded.code c'
    · rcases eq_or_ne c' c with rfl | hc'
      · obtain rfl : i = j := by simpa using hj
        simpa using hrest
      · simpa [hc'] using h.coded.back c' j (by simpa [hc'] using hj)
    · refine h.coded.parked j (fun c' => ?_) ha
      rcases eq_or_ne c' c with rfl | hc'
      · rw [hme]
        simp
      · simpa [hc'] using hj c'

/-- A process switches to the scheduler thread of its CPU. -/
theorem Good.switchOut (hme : (m.cpu c).thread = some p) (hheld : (A c).held = [.proc p]) (hpend : (A c).pend = 0)
    (hst : m.mem.state p ≠ .running) (hk : Alive (m.mem.state p) → check (some p) k (entered p (K p)) = some (holding (some p)
    [])) : Good ((m.setCode c k).setCpu c { m.cpu c with thread := none }) (update A c (switched p)) K := by
  have hf := h.owned.fits c
  have hcur := hf.own p hme
  rw [setCode_of_some hme]
  refine ⟨?_, ?_, ?_, h.panics⟩
  · exact h.locked.keep rfl rfl (by simp [hheld]) (by simp [hpend]) rfl (h.locked.intr c)
  · refine h.owned.step rfl (fun _ _ _ _ => rfl) (fun _ _ hr => hr)
      ⟨hcur.symm.trans hf.cur, by simp, fun i _ hi => ?_, fun i hi => ?_, fun y hy => ?_⟩ rfl
      (fun _ _ => rfl) (fun c' hc' j hj => h.cur_inj c' hc' j (hcur.trans hj)) (fun j hj => ?_)
      h.owned.children
    · exact ⟨_, by rw [← Option.some.inj hi]; rfl⟩
    · exact .inr ⟨_, by rw [← Option.some.inj hi]; rfl⟩
    · obtain rfl := Option.some.inj hy
      exact ⟨List.mem_singleton_self _, hst⟩
    · exact (em (some p = some j)).imp id fun hne => ⟨hj, fun he => hne (hcur.symm.trans he)⟩
  · refine ⟨fun c' => ?_, fun c' j hj => ?_, fun j hj ha => ?_⟩
    · rcases eq_or_ne c' c with rfl | hc'
      · simpa [Machine.code] using h.coded.back c' p hme
      · have hcode := h.coded.code c'
        cases ht : (m.cpu c').thread with
        | none => simpa [Machine.code, hc', ht] using hcode
        | some i =>
          have hip : i ≠ p := fun he => hc' (h.owned.thread_inj hme (he ▸ ht))
          simpa [Machine.code, hc', ht, hip] using hcode
    · rcases eq_or_ne c' c with rfl | hc'
      · simp at hj
      · exact h.coded.back c' j (by simpa [hc'] using hj)
    · rcases eq_or_ne j p with rfl | hjp
      · simpa using hk ha
      · have hparked := h.coded.parked j (fun c' => ?_) ha
        · simpa [hjp] using hparked
        · rcases eq_or_ne c' c with rfl | hc'
          · rw [hme]
            exact fun he => hjp (Option.some.inj he).symm
          · simpa [hc'] using hj c'

/-- None of the panics of `sched` is reached. -/
theorem Good.schedPanic (hme : (m.cpu c).thread = some p) (hheld : (A c).held = [.proc p]) (hpend : (A c).pend = 0)
    (hst : m.mem.state p ≠ .running) : m.schedPanic c = none := by
  have hf := h.owned.fits c
  have hproc : (m.cpu c).proc = some p := hf.cur.symm.trans (hf.own p hme)
  have hlock : m.holder (.proc p) = some c := (h.locked.agrees c _).mpr (by simp [hheld])
  have hn : (m.cpu c).noff = 1 := by simp [h.locked.noff c, hheld, hpend]
  have hi : (m.cpu c).intr = false := by
    by_contra hi
    have := h.locked.intr c (by simpa using hi)
    omega
  have hst' : (m.mem.proc p).state ≠ .running := hst
  simp [Machine.schedPanic, hproc, hlock, hn, hi, hst']

/-- Where `sched` is called in `yield` and `sleep`. -/
theorem Good.atSched (hc : m.code c = .sched :: rest) : ∃ p, (m.cpu c).thread = some p ∧ (A c).held = [.proc p] ∧
    (A c).pend = 0 ∧ m.mem.state p ≠ .running ∧ check (some p) rest (entered p (K p)) = some (holding (some p) []) := by
  obtain ⟨B, hsig, hrest⟩ := h.head hc
  obtain ⟨p, hme, hsig⟩ := Option.bind_eq_some_iff.mp hsig
  obtain ⟨⟨hheld, hpend, hknow⟩, rfl⟩ := when_eq_some.mp hsig
  have hf := h.owned.fits c
  have hkid : (A c).kid = K p := by rw [h.owned.kid c, hme]; rfl
  rw [hme, hheld, hpend, hf.own p hme, hkid] at hrest
  refine ⟨p, hme, hheld, hpend, ?_, hrest⟩
  rcases hknow with hk | hk
  all_goals
    have hs := (hf.know _ hk).2
    exact fun he => by cases he.symm.trans hs

/-- Where `sched` is called in `exit`. -/
theorem Good.atSchedExit (hc : m.code c = .schedExit :: rest) : ∃ p, (m.cpu c).thread = some p ∧ (A c).held = [.proc p] ∧
    (A c).pend = 0 ∧ m.mem.state p = .zombie := by
  obtain ⟨B, hsig, -⟩ := h.head hc
  obtain ⟨p, hme, hsig⟩ := Option.bind_eq_some_iff.mp hsig
  have hA := (when_eq_some.mp hsig).1
  exact ⟨p, hme, by simp [hA], by simp [hA], ((h.owned.fits c).know (p, .is .zombie) (by simp [hA])).2⟩

theorem Good.thread_eq (ht : (m.cpu c).thread = some p) : (m.cpu c).proc = some p :=
  (h.owned.fits c).cur.symm.trans ((h.owned.fits c).own p ht)

/-- The thread of an instruction of processes. -/
theorem Good.exists_thread (hc : m.code c = i :: rest) (hi : ∀ A, i.sig none A = none) :
    ∃ p, (m.cpu c).thread = some p := by
  obtain ⟨B, hsig, -⟩ := h.head hc
  refine Option.ne_none_iff_exists'.mp fun ht => ?_
  rw [ht, hi] at hsig
  cases hsig

theorem Good.executes_prim (hc : m.code c = i :: rest) (hs : m.prim c ch rest i = some m') :
    Executes m c ch rest i m' := by
  have hf := h.owned.fits c
  obtain ⟨B, hsig, -⟩ := h.head hc
  cases i <;> simp only [Machine.prim, reduceCtorEq, Option.some.injEq] at hs
  case acquire l =>
    have hl := (h.acquire hc).1
    rw [setCpu_holder, if_neg hl] at hs
    cases hs
    exact .acquire hl
  case spin l =>
    split_ifs at hs with hl
    cases hs
    exact .spin hl
  case release l =>
    have hl := (h.release hc).1
    rw [if_neg (not_not_intro hl)] at hs
    cases hs
    exact .release hl
  case popOff =>
    obtain ⟨hi, hn, -⟩ := h.popOff hc
    rw [if_neg (by simp [hi]), if_neg (by omega)] at hs
    cases hs
    exact .popOff
  case intrOn => exact hs ▸ .intrOn
  case sret => exact hs ▸ .sret
  case intrOff => exact hs ▸ .intrOff
  case setIntena b => exact hs ▸ .setIntena
  case dispatch j => exact hs ▸ .dispatch (when_eq_some.mp hsig).1.1
  case swtch j =>
    obtain ⟨ht, hA⟩ := (when_eq_some.mp hsig).1
    exact hs ▸ .swtch ht (hf.know (j, .is .running) (by simp [hA])).2
  case clearProc => exact hs ▸ .clearProc
  case sched =>
    subst hs
    obtain ⟨p, ht, hheld, hpend, hst, -⟩ := h.atSched hc
    rw [Machine.sched, h.schedPanic ht hheld hpend hst]
    exact .sched ht
  case schedExit =>
    subst hs
    obtain ⟨p, ht, hheld, hpend, hz⟩ := h.atSchedExit hc
    rw [Machine.sched, h.schedPanic ht hheld hpend fun he => by cases he.symm.trans hz]
    exact .schedExit ht hz
  case zombieExit => cases hsig
  case exit status =>
    obtain ⟨p, ht⟩ := h.exists_thread hc (by simp [when])
    rw [h.thread_eq ht] at hs
    split_ifs at hs with hinit <;> cases hs
    · cases hinit
      exact .initExiting ht
    · exact .exit ht fun he => hinit (congrArg some he)
  case alloc j pid =>
    obtain ⟨p, ht, -, hjp, hst, -, -⟩ := h.atAlloc hc
    split at hs <;> [skip; cases hs]
    next r =>
      split at hs
      next =>
        cases hs
        exact .allocOk ht hjp hst rfl
      next hr =>
        cases hs
        exact .allocFail ht hjp hst rfl hr
  case user =>
    obtain ⟨p, ht⟩ := h.exists_thread hc (by simp [when])
    split at hs
    next call =>
      cases hs
      exact .syscall ht rfl
    next =>
      obtain ⟨q, hq, rfl⟩ := Option.map_eq_some_iff.mp hs
      obtain rfl : p = q := Option.some.inj ((h.thread_eq ht).symm.trans hq)
      exact .fault ht rfl
    next => cases hs

/-- **Inversion of `step`**, for an instruction. -/
theorem Good.executes (hs : m.step (.run c ch) = some m') :
    ∃ i rest, m.code c = i :: rest ∧ Executes m c ch rest i m' := by
  simp only [Machine.step] at hs
  split at hs <;> [skip; cases hs]
  next i rest hc =>
  refine ⟨i, rest, hc, ?_⟩
  unfold Machine.exec at hs
  split at hs
  next hp =>
    cases hs
    exact h.executes_prim hc hp
  next =>
    obtain ⟨⟨d, k⟩, hx, rfl⟩ := Option.map_eq_some_iff.mp hs
    unfold Instr.expand at hx
    split at hx
    next hany =>
      cases hx
      exact .any hany
    next =>
      obtain ⟨p, hp, hx⟩ := Option.bind_eq_some_iff.mp hx
      obtain ⟨q, ht⟩ := h.exists_thread hc fun _ => sig_none_of_expandProc hx
      obtain rfl : q = p := Option.some.inj ((h.thread_eq ht).symm.trans hp)
      exact .proc ht hx

theorem Good.executes_of_code (hc : m.code c = i :: rest) (hs : m.step (.run c ch) = some m') :
    Executes m c ch rest i m' := by
  obtain ⟨i', rest', hc', hf⟩ := h.executes hs
  cases hc.symm.trans hc'
  exact hf

/-- **Inversion of `step`**, for an interrupt. -/
theorem Good.traps (hs : m.step (.intr c dev) = some m') :
    (m.cpu c).intr = true ∧ Traps m c dev m' := by
  simp only [Machine.step] at hs
  split_ifs at hs with hi
  refine ⟨hi, ?_⟩
  unfold Machine.interrupt at hs
  split at hs
  next rest hc =>
    obtain ⟨p, ht⟩ := h.exists_thread hc (by simp [when])
    obtain ⟨q, hq, rfl⟩ := Option.map_eq_some_iff.mp hs
    obtain rfl : p = q := Option.some.inj ((h.thread_eq ht).symm.trans hq)
    exact .user ht hc
  next =>
    cases hs
    exact .kernel

/-! ## Traps, and the whole step -/

/-- A CPU with interrupts enabled holds no lock. -/
theorem Good.has_of_intr (hi : (m.cpu c).intr = true) : (A c).Has [] ∧ (A c).cur = (m.cpu c).thread := by
  have hn := h.locked.noff c
  rw [h.locked.intr c hi] at hn
  have hf := h.owned.fits c
  have hheld : (A c).held = [] := List.eq_nil_of_length_eq_zero (by omega)
  have hknow : (A c).know = none := by
    cases hk : (A c).know with
    | none => rfl
    | some y => simpa [hheld] using (hf.know y hk).1
  refine ⟨⟨hheld, by omega, hknow⟩, ?_⟩
  cases ht : (m.cpu c).thread with
  | none =>
    cases hcur : (A c).cur with
    | none => rfl
    | some p => simpa [hknow] using hf.between p ht hcur
  | some p => exact hf.own p ht

/-- User code goes on in `usertrap`. -/
theorem Good.user (hp : (m.cpu c).thread = some p) (hc : m.code c = .user :: rest)
    (hk : check (some p) k (holding (some p) []) = some (holding (some p) [])) :
    Good ((m.setCpu c { m.cpu c with intr := false }).setCode c (k ++ rest)) A K := by
  obtain ⟨B, hsig, hrest⟩ := h.head hc
  obtain ⟨⟨-, hA⟩, rfl⟩ := when_eq_some.mp hsig
  refine h.setIntr rfl rfl rfl (by simp) ?_
  rw [hp, hA, hp] at hrest ⊢
  exact Seq.check_append_of hk hrest

theorem Good.trapped (hi : (m.cpu c).intr = true) (ht : Traps m c dev m') : Good m' A K := by
  cases ht with
  | user hp hc => exact h.user hp hc (check_intrTrap c _ dev)
  | kernel =>
    obtain ⟨hA, hcur⟩ := h.has_of_intr hi
    exact h.setIntr rfl rfl rfl (by simp) (Seq.check_append_of (check_kerneltrap c dev hA hcur) (h.coded.code c))

/-- The thread goes on in other code. -/
theorem Good.goOn (hk : check (m.cpu c).thread k (A c) = some (holding (m.cpu c).thread [])) : Good (m.setCode c k) A K := by
  have hg := h.setIntr (x := m.cpu c) rfl rfl rfl (h.locked.intr c) hk
  rwa [setCpu, update_eq_self] at hg

theorem Good.exit {status : ℤ} (hc : m.code c = .exit status :: rest) : Good (m.panic c .initExiting rest) A K ∧ Good (m.setCode
    c (exitCode status ++ rest)) A K := by
  obtain ⟨B, hsig, hrest⟩ := h.head hc
  obtain ⟨⟨hme, hA⟩, rfl⟩ := when_eq_some.mp hsig
  obtain ⟨p, hp⟩ := Option.ne_none_iff_exists'.mp hme
  constructor
  · have hg : Good { m with panics := .initExiting :: m.panics } A K :=
      { locked := ⟨h.locked.agrees, h.locked.ordered, h.locked.noff, h.locked.intr⟩
        owned := ⟨h.owned.fits, h.owned.inj, h.owned.onCpu, h.owned.kid, h.owned.children⟩
        coded := ⟨h.coded.code, h.coded.back, h.coded.parked⟩
        panics := fun x hx => (List.mem_cons.mp hx).elim id (h.panics x) }
    exact hg.goOn (Seq.check_cons_of (when_pos (by simp [hA])) hrest)
  · refine h.goOn (Seq.check_append_of ?_ hrest)
    rw [hA, hp]
    exact check_exitCode p status

theorem Good.executed {ch : Choice} (hc : m.code c = i :: rest) (hf : Executes m c ch rest i m') : ∃ A' K', Good m' A' K' := by
  obtain ⟨B, hsig, hrest⟩ := h.head hc
  cases hf with
  | acquire => exact ⟨_, _, (h.acquire hc).2⟩
  | spin hl => exact ⟨_, _, h.spin hc hl⟩
  | release => exact ⟨_, _, (h.release hc).2⟩
  | popOff => exact ⟨_, _, (h.popOff hc).2.2⟩
  | intrOn | sret =>
    obtain ⟨hA, rfl⟩ := when_eq_some.mp hsig
    refine ⟨_, _, h.setIntr rfl rfl rfl (fun _ => ?_) hrest⟩
    rw [h.locked.noff c, hA.1, hA.2.1]
    rfl
  | intrOff =>
    obtain ⟨-, rfl⟩ := when_eq_some.mp hsig
    exact ⟨_, _, h.setIntr rfl rfl rfl (by simp) hrest⟩
  | setIntena =>
    obtain rfl := Option.some.inj hsig
    exact ⟨_, _, h.setIntr rfl rfl rfl (h.locked.intr c) hrest⟩
  | dispatch => exact ⟨_, _, h.dispatch hc⟩
  | swtch => exact ⟨_, _, h.swtch hc⟩
  | clearProc =>
    obtain ⟨A', hg⟩ := h.clearProc hc
    exact ⟨A', K, hg⟩
  | sched ht =>
    obtain ⟨p, ht', hheld, hpend, hst, hrest⟩ := h.atSched hc
    exact ⟨_, _, h.switchOut ht' hheld hpend hst fun _ => Seq.check_cons_of rfl hrest⟩
  | schedExit ht hz =>
    obtain ⟨p, ht', hheld, hpend, hz⟩ := h.atSchedExit hc
    exact ⟨_, _, h.switchOut ht' hheld hpend (fun he => by cases he.symm.trans hz) fun ha => absurd hz ha.2⟩
  | initExiting => exact ⟨_, _, (h.exit hc).1⟩
  | exit => exact ⟨_, _, (h.exit hc).2⟩
  | allocOk => exact h.alloc hc
  | allocFail _ _ _ _ hr => exact ⟨_, _, h.allocFail hr hc⟩
  | syscall hp => exact ⟨_, _, h.user hp hc (check_syscallTrap _ _)⟩
  | fault hp => exact ⟨_, _, h.user hp hc (check_faultTrap _)⟩
  | any hx =>
    obtain ⟨A1, hk, hch⟩ := expandAny_sound (h.owned.fits c) hsig hx
    exact h.change hch (Seq.check_append_of hk hrest)
  | proc hp hx =>
    have hf := h.owned.fits c
    rw [h.thread_eq hp] at hf
    rw [hp] at hsig hrest hf
    obtain ⟨A1, hk, hch⟩ := expandProc_sound hf hsig hx
    exact h.change (hp ▸ hch) (hp ▸ Seq.check_append_of hk hrest)

/-- **Every step keeps the invariant.** -/
theorem Good.step {e : Event C} (hs : m.step e = some m') : ∃ A' K', Good m' A' K' := by
  cases e with
  | run c ch =>
    obtain ⟨i, rest, hc, hf⟩ := h.executes hs
    exact h.executed hc hf
  | intr c dev =>
    obtain ⟨hi, ht⟩ := h.traps hs
    exact ⟨_, _, h.trapped hi ht⟩

end Steps

theorem boot_state (C : ℕ) (i : Slot) : (Machine.boot C).mem.state i ≠ .running := by
  rcases eq_or_ne i initproc with rfl | hi
  · simp [Machine.boot, userinit]
  · simp [Machine.boot, userinit, procinit, hi]

theorem good_boot (C : ℕ) : Good (Machine.boot C) (fun _ => holding none []) fun _ => none where
  locked := ⟨fun c l => by simp [Machine.boot], fun _ => List.Pairwise.nil, fun _ => rfl, by simp [Machine.boot]⟩
  owned :=
    { fits := fun _ => ⟨rfl, by simp [Machine.boot], by simp, by simp, by simp⟩
      inj := by simp
      onCpu := fun i hi => absurd hi (boot_state C i)
      kid := fun _ => rfl
      children := ⟨by simp, by simp, by simp⟩ }
  coded :=
    { code := fun _ => (Seq.check_singleton _ _).trans (when_pos ⟨rfl, rfl⟩)
      back := by simp [Machine.boot]
      parked := fun i _ _ => check_forkret i }
  panics := by simp [Machine.boot]

/-- **The invariant holds throughout every run.** -/
theorem MachineReach.good {h : List (Machine C × Event C)} (hr : MachineReach C h m) :
    ∃ A K, Good m A K := by
  refine Lts.Path.inv (I := fun m => ∃ A K, Good m A K) hr ⟨_, _, good_boot C⟩ ?_
  rintro m e m' ⟨A, K, hg⟩ hs
  exact hg.step hs

end

end Xv6Mlfq
