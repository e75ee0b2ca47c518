import Xv6Mlfq.Lib.LockOrder
import Xv6Mlfq.Kernel.Expand

/-!
# Xv6Mlfq.Kernel.Invariant — locks, owners and code of the machine

The invariant has three parts, over what every CPU knows (`A`) and the child every process is creating
(`K`): the locks are held as known and in the order of their ranks (`Locked`); `c->proc` and the
process states fit what is known (`Owned`); the code of every thread, running or saved, keeps to its
contracts (`Coded`).  This module says what each part needs of a step.
-/

namespace Xv6Mlfq

open CInt Function Abs LockOrder

variable {C : ℕ} {p i : Slot} {c' : Fin C}

namespace Machine

variable (m : Machine C) {c : Fin C} (k : List Instr)

@[simp] theorem setCode_mem : (m.setCode c k).mem = m.mem := by unfold setCode; split <;> rfl
@[simp] theorem setCode_holder : (m.setCode c k).holder = m.holder := by unfold setCode; split <;> rfl
@[simp] theorem setCode_cpu : (m.setCode c k).cpu = m.cpu := by unfold setCode; split <;> rfl
@[simp] theorem setCode_panics : (m.setCode c k).panics = m.panics := by unfold setCode; split <;> rfl

variable {m k}

theorem setCode_of_none (h : (m.cpu c).thread = none) :
    m.setCode c k = { m with schedCode := update m.schedCode c k } := by
  unfold setCode; rw [h]

theorem setCode_of_some (h : (m.cpu c).thread = some p) :
    m.setCode c k = { m with procCode := update m.procCode p k } := by
  unfold setCode; rw [h]

/-! What the other threads execute after `setCode`. -/

@[simp] theorem code_setCode_self : (m.setCode c k).code c = k := by
  unfold code
  rw [setCode_cpu]
  cases ht : (m.cpu c).thread with
  | none => simp [setCode_of_none ht]
  | some p => simp [setCode_of_some ht]

theorem code_setCode_of_ne (hc : c' ≠ c)
    (hinj : ∀ i, (m.cpu c).thread = some i → (m.cpu c').thread ≠ some i) :
    (m.setCode c k).code c' = m.code c' := by
  unfold code
  rw [setCode_cpu]
  cases ht : (m.cpu c).thread with
  | none => simp [setCode_of_none ht, hc]
  | some p =>
    rw [setCode_of_some ht]
    split
    · rfl
    next i hi =>
      have hip : i ≠ p := fun he => hinj p ht (he ▸ hi)
      exact update_of_ne hip _ _

theorem schedCode_setCode (hi : (m.cpu c').thread = some i) :
    (m.setCode c k).schedCode c' = m.schedCode c' := by
  cases ht : (m.cpu c).thread with
  | none =>
    have hc : c' ≠ c := by
      rintro rfl
      cases ht.symm.trans hi
    rw [setCode_of_none ht]
    exact update_of_ne hc _ _
  | some p => rw [setCode_of_some ht]

theorem procCode_setCode (hi : (m.cpu c).thread ≠ some i) :
    (m.setCode c k).procCode i = m.procCode i := by
  cases ht : (m.cpu c).thread with
  | none => rw [setCode_of_none ht]
  | some p =>
    have hip : i ≠ p := fun he => hi (he ▸ ht)
    rw [setCode_of_some ht]
    exact update_of_ne hip _ _

theorem code_congr {m' : Machine C} (hth : (m'.cpu c').thread = (m.cpu c').thread)
    (hs : m'.schedCode = m.schedCode)
    (hp : ∀ i, (m.cpu c').thread = some i → m'.procCode i = m.procCode i) : m'.code c' = m.code c' := by
  unfold code
  rw [hth, hs]
  split
  · rfl
  next i hi => exact hp i hi

theorem code_of_some (h : (m.cpu c).thread = some p) : m.code c = m.procCode p := by
  unfold code; rw [h]

end Machine

/-- A process with a thread to continue. -/
def Alive (st : ProcState) : Prop := st ≠ .unused ∧ st ≠ .zombie

/-! ## The three parts -/

structure Locked (m : Machine C) (A : Fin C → Abs) : Prop where
  agrees : Agrees m.holder fun c => (A c).held
  ordered : ∀ c, Ordered Lock.rank (A c).held
  noff : ∀ c, (m.cpu c).noff = (A c).held.length + (A c).pend
  intr : ∀ c, (m.cpu c).intr = true → (m.cpu c).noff = 0

/-- The children being created: each by one process that is alive, and all `USED`. -/
structure Children (d : Mem) (K : Slot → Option Slot) : Prop where
  used : ∀ i j, K i = some j → d.state j = .used
  inj : ∀ i i' j, K i = some j → K i' = some j → i = i'
  alive : ∀ i j, K i = some j → Alive (d.state i)

structure Owned (m : Machine C) (A : Fin C → Abs) (K : Slot → Option Slot) : Prop where
  fits : ∀ c, Fits (m.cpu c).thread (m.cpu c).proc (A c) m.mem
  inj : ∀ c c' i, (A c).cur = some i → (A c').cur = some i → c = c'
  onCpu : ∀ i, m.mem.state i = .running → ∃ c, (A c).cur = some i
  kid : ∀ c, (A c).kid = (m.cpu c).thread.bind K
  children : Children m.mem K

structure Coded (m : Machine C) (A : Fin C → Abs) (K : Slot → Option Slot) : Prop where
  code : ∀ c, check (m.cpu c).thread (m.code c) (A c) = some (holding (m.cpu c).thread [])
  /-- A scheduler thread that has switched to a process. -/
  back : ∀ c i, (m.cpu c).thread = some i →
    check none (m.schedCode c) (switched i) = some (holding none [])
  /-- A process that is switched out. -/
  parked : ∀ i, (∀ c, (m.cpu c).thread ≠ some i) → Alive (m.mem.state i) →
    check (some i) (m.procCode i) (entered i (K i)) = some (holding (some i) [])

structure Good (m : Machine C) (A : Fin C → Abs) (K : Slot → Option Slot) : Prop where
  locked : Locked m A
  owned : Owned m A K
  coded : Coded m A K
  panics : ∀ x ∈ m.panics, x = .initExiting

section

variable {m m' m1 : Machine C} {A : Fin C → Abs} {A1 : Abs} {K K' : Slot → Option Slot} {c : Fin C}
  {x : Cpu} {k : List Instr}

/-! ## Locks -/

/-- A step of CPU `c` on its locks. -/
theorem Locked.step (h : Locked m A) (hcpu : m'.cpu = update m.cpu c x)
    (ha : Agrees m'.holder (update (fun c => (A c).held) c A1.held)) (ho : Ordered Lock.rank A1.held)
    (hn : x.noff = A1.held.length + A1.pend) (hi : x.intr = true → x.noff = 0) :
    Locked m' (update A c A1) := by
  refine ⟨?_, fun c' => ?_, fun c' => ?_, fun c' => ?_⟩
  · intro c' l
    rw [ha c' l]
    rcases eq_or_ne c' c with rfl | hc
    · simp
    · simp [hc]
  all_goals
    rcases eq_or_ne c' c with rfl | hc
    · simpa [hcpu] using by assumption
  · simpa [hc] using h.ordered c'
  · simpa [hcpu, hc] using h.noff c'
  · simpa [hcpu, hc] using h.intr c'

/-- A step of CPU `c` that leaves its locks alone. -/
theorem Locked.keep (h : Locked m A) (hcpu : m'.cpu = update m.cpu c x) (hh : m'.holder = m.holder)
    (hheld : A1.held = (A c).held) (hpend : A1.pend = (A c).pend) (hn : x.noff = (m.cpu c).noff)
    (hi : x.intr = true → (m.cpu c).noff = 0) : Locked m' (update A c A1) := by
  refine h.step hcpu ?_ ?_ ?_ ?_
  · rw [hh, hheld, update_eq_self (f := fun c => (A c).held)]
    exact h.agrees
  · rw [hheld]
    exact h.ordered c
  · rw [hn, hheld, hpend]
    exact h.noff c
  · rw [hn]
    exact hi

/-! ## Owners -/

/-- Another CPU's step keeps what a CPU knows. -/
theorem Fits.frame {me myproc : Option Slot} {a : Abs} {d d' : Mem} (h : Fits me myproc a d)
    (hk : ∀ i, .proc i ∈ a.held → d'.state i = d.state i)
    (hr : ∀ i, a.cur = some i → d.state i = .running → d'.state i = .running) :
    Fits me myproc a d' where
  cur := h.cur
  own := h.own
  between := h.between
  running := fun p hp => (h.running p hp).imp (hr p hp) id
  know := fun x hx => ⟨(h.know x hx).1, by rw [hk _ (h.know x hx).1]; exact (h.know x hx).2⟩

theorem Owned.step (h : Owned m A K) (hcpu : m'.cpu = update m.cpu c x)
    (hex : ∀ c' ≠ c, ∀ i, .proc i ∈ (A c').held → m'.mem.state i = m.mem.state i)
    (hrun : ∀ i, (A c).cur ≠ some i → m.mem.state i = .running → m'.mem.state i = .running)
    (hfit : Fits x.thread x.proc A1 m'.mem) (hkid : A1.kid = x.thread.bind K')
    (hK : ∀ c' ≠ c, (m.cpu c').thread.bind K' = (m.cpu c').thread.bind K)
    (hinj : ∀ c' ≠ c, ∀ i, A1.cur = some i → (A c').cur ≠ some i)
    (hon : ∀ i, m'.mem.state i = .running →
      A1.cur = some i ∨ m.mem.state i = .running ∧ (A c).cur ≠ some i)
    (hch : Children m'.mem K') : Owned m' (update A c A1) K' where
  children := hch
  fits := fun c' => by
    rcases eq_or_ne c' c with rfl | hc
    · simpa [hcpu] using hfit
    · rw [hcpu, update_of_ne hc, update_of_ne hc]
      refine (h.fits c').frame (hex c' hc) fun i hi => hrun i fun hi' => hc (h.inj _ _ i hi hi')
  kid := fun c' => by
    rcases eq_or_ne c' c with rfl | hc
    · simpa [hcpu] using hkid
    · rw [hcpu, update_of_ne hc, update_of_ne hc, hK c' hc]
      exact h.kid c'
  inj := fun c1 c2 i h1 h2 => by
    rcases eq_or_ne c c1 with rfl | hc1 <;> rcases eq_or_ne c c2 with rfl | hc2
    · rfl
    · rw [update_self] at h1
      rw [update_of_ne hc2.symm] at h2
      exact absurd h2 (hinj c2 hc2.symm i h1)
    · rw [update_self] at h2
      rw [update_of_ne hc1.symm] at h1
      exact absurd h1 (hinj c1 hc1.symm i h2)
    · rw [update_of_ne hc1.symm] at h1
      rw [update_of_ne hc2.symm] at h2
      exact h.inj c1 c2 i h1 h2
  onCpu := fun i hi => by
    rcases hon i hi with hcur | ⟨hr, hne⟩
    · exact ⟨c, by rwa [update_self]⟩
    · obtain ⟨c', hc'⟩ := h.onCpu i hr
      have hc : c' ≠ c := fun he => hne (he ▸ hc')
      exact ⟨c', by rwa [update_of_ne hc]⟩

/-- A step of CPU `c` that leaves the process states and `c->proc` alone. -/
theorem Owned.keep (h : Owned m A K) (hcpu : m'.cpu = update m.cpu c x)
    (hst : ∀ i, m'.mem.state i = m.mem.state i) (hth : x.thread = (m.cpu c).thread)
    (hfit : Fits x.thread x.proc A1 m'.mem) (hcur : A1.cur = (A c).cur) (hkid : A1.kid = (A c).kid) :
    Owned m' (update A c A1) K := by
  refine h.step hcpu (fun _ _ i _ => hst i) (fun i _ hi => (hst i).trans hi) hfit ?_ (fun _ _ => rfl)
    ?_ ?_ ⟨?_, h.children.inj, ?_⟩
  · rw [hkid, hth]
    exact h.kid c
  · exact fun c' hc i hi hi' => hc (h.inj _ _ i hi' (hcur ▸ hi))
  · intro i hi
    rw [hst] at hi
    rw [hcur]
    exact (em ((A c).cur = some i)).imp id fun hne => ⟨hi, hne⟩
  · intro i j hj
    rw [hst]
    exact h.children.used i j hj
  · intro i j hj
    rw [hst]
    exact h.children.alive i j hj

/-- Two CPUs never execute the thread of one process. -/
theorem Owned.thread_inj (h : Owned m A K) (hc : (m.cpu c).thread = some p)
    (hc' : (m.cpu c').thread = some p) : c' = c :=
  h.inj _ _ p ((h.fits c').own p hc') ((h.fits c).own p hc)

/-! ## Code -/

/-- CPU `c` goes on with `k`, in the same thread. -/
theorem Coded.step (h : Coded m A K) (hown : Owned m A K)
    (hth : ∀ c', (m1.cpu c').thread = (m.cpu c').thread) (hs : m1.schedCode = m.schedCode)
    (hp : ∀ c' i, (m.cpu c').thread = some i → m1.procCode i = m.procCode i)
    (hpark : ∀ i, (∀ c, (m.cpu c).thread ≠ some i) → Alive (m1.mem.state i) →
      check (some i) (m1.procCode i) (entered i (K' i)) = some (holding (some i) []))
    (hk : check (m.cpu c).thread k A1 = some (holding (m.cpu c).thread [])) :
    Coded (m1.setCode c k) (update A c A1) K' := by
  have hinj : ∀ c' ≠ c, ∀ i, (m1.cpu c).thread = some i → (m1.cpu c').thread ≠ some i := by
    intro c' hc i hi hi'
    rw [hth] at hi hi'
    exact hc (hown.thread_inj hi hi')
  refine ⟨fun c' => ?_, fun c' i hi => ?_, fun i hi ha => ?_⟩
  · rw [Machine.setCode_cpu, hth]
    rcases eq_or_ne c' c with rfl | hc
    · simpa using hk
    · rw [update_of_ne hc, Machine.code_setCode_of_ne hc (hinj c' hc), Machine.code_congr (hth c') hs (hp c')]
      exact h.code c'
  · rw [Machine.setCode_cpu] at hi
    rw [Machine.schedCode_setCode hi, hs]
    exact h.back c' i (hth c' ▸ hi)
  · rw [Machine.setCode_cpu] at hi
    rw [Machine.procCode_setCode (hi c)]
    rw [Machine.setCode_mem] at ha
    exact hpark i (fun c' => hth c' ▸ hi c') ha

/-- CPU `c` goes on with `k`, with no thread or process created or ended. -/
theorem Coded.keep (h : Coded m A K) (hown : Owned m A K)
    (hth : ∀ c', (m1.cpu c').thread = (m.cpu c').thread) (hs : m1.schedCode = m.schedCode)
    (hp : m1.procCode = m.procCode)
    (hst : ∀ i, (∀ c, (m.cpu c).thread ≠ some i) → Alive (m1.mem.state i) → Alive (m.mem.state i))
    (hK : ∀ i, (m.cpu c).thread ≠ some i → K' i = K i)
    (hk : check (m.cpu c).thread k A1 = some (holding (m.cpu c).thread [])) :
    Coded (m1.setCode c k) (update A c A1) K' := by
  refine h.step hown hth hs (fun _ _ _ => by rw [hp]) (fun i hi ha => ?_) hk
  rw [hp, hK i (hi c)]
  exact h.parked i hi (hst i hi ha)

end

end Xv6Mlfq
