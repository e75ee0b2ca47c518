import Xv6Mlfq.Kernel.Wakeup

/-!
# Xv6Mlfq.Kernel.Family — parents and children

What `fork`, `exit`, `wait` and `reparent` do to the process table, with the code of a process reduced to its part in
them (`Role`).  Parent pointers change only in roles that hold `wait_lock`, and so does the set of zombies.

* `Acts p f R f' R'`: a step of process `p` from table `f` and roles `R`.
* `Family f R`: the invariant.  No parent is `UNUSED` or `ZOMBIE`; a process without a parent is the child of an unfinished
  `fork`; a process that has fallen asleep in `wait` has no zombie child, unless `reparent` has just given it one and is
  about to wake it.
* `Acts.family`: every step keeps the invariant.
-/

namespace Xv6Mlfq

open Function

/-- The process table. -/
abbrev Table := Slot → Proc

/-- Where a process stands in the functions that touch parents. -/
inductive Role
  /- in none of them; in a `sleep` that `wait` has not called -/
  | calm | nap
  /- `fork`: the child is allocated; under `wait_lock`; its parent is set -/
  | fork (j : Slot) | forkHeld (j : Slot) | born (j : Slot)
  /- `exit`: the slots before `n` hold no child, and `wakeup(initproc)` has passed those before `i`; `wakeup` of the parent
  `o` has passed the slots before `i`; a zombie -/
  | clear (n i : ℕ) | tell (o : Option Slot) (i : ℕ) | gone
  /- `wait`: the slots before `n` hold no zombie child; at a child; at a zombie child -/
  | scan (n : ℕ) | look (j : Slot) | found (j : Slot)
  /- `sleep` in `wait`: `wait_lock` released, with `pop_off` to come; then; past the mark -/
  | dozeOff | doze | slept
  deriving DecidableEq, Repr

namespace Role

/-- The roles under `wait_lock`, as far as the family is concerned. -/
@[simp] def holds : Role → Bool
  | forkHeld _ | clear _ _ | tell _ _ | scan _ | look _ | found _ => true
  | _ => false

/-- Between the release of `wait_lock` and the mark. -/
@[simp] def dozes : Role → Bool
  | dozeOff | doze => true
  | _ => false

/-- The child of an unfinished `fork`. -/
@[simp] def child : Role → Option Slot
  | fork j | forkHeld j | born j => some j
  | _ => none

/-- The child whose parent is not set yet. -/
@[simp] def creates : Role → Option Slot
  | fork j | forkHeld j => some j
  | _ => none

end Role

/-- Process `q` has gone to sleep in `wait`. -/
def Dozing (f : Table) (R : Slot → Role) (q : Slot) : Prop :=
  (R q).dozes = true ∨ R q = .slept ∧ (f q).state = .sleeping

/-- What a role says of the table. -/
@[simp] def Role.Fact (f : Table) (R : Slot → Role) (p : Slot) : Role → Prop
  | born j => (f j).parent ≠ none
  | clear n _ => ∀ j : Slot, j.val < n → (f j).parent ≠ some p
  | tell o i => (f p).parent = o ∧ (∀ j, (f j).parent ≠ some p) ∧ ∀ q, o = some q → q.val < i → ¬ Dozing f R q
  | scan n => ∀ j : Slot, j.val < n → (f j).parent = some p → (f j).state ≠ .zombie
  | look j => (f j).parent = some p ∧ ∀ i < j, (f i).parent = some p → (f i).state ≠ .zombie
  | found j => (f j).parent = some p ∧ (f j).state = .zombie
  | _ => True

/-- The invariant. -/
structure Family (f : Table) (R : Slot → Role) : Prop where
  free : ∀ j, (f j).state = .unused → (f j).parent = none
  init : Alive (f initproc).state
  parent : ∀ j q, (f j).parent = some q → Alive (f q).state
  orphan : ∀ j, j ≠ initproc → (f j).state ≠ .unused → (f j).parent = none →
    (f j).state = .used ∧ ∃ p, (R p).creates = some j
  alive : ∀ p, R p ≠ .calm → R p ≠ .gone → Alive (f p).state
  child : ∀ p j, (R p).child = some j → (f j).state = .used
  inj : ∀ p q j, (R p).child = some j → (R q).child = some j → p = q
  sole : ∀ p q, (R p).holds = true → (R q).holds = true → p = q
  fact : ∀ p, (R p).Fact f R p
  asleep : ∀ p, (f p).state = .sleeping → R p = .nap ∨ R p = .slept ∧ (f p).chan = .proc p
  heard : ∀ q j, Dozing f R q → (f j).parent = some q → (f j).state = .zombie →
    q = initproc ∧ ∃ p n i, R p = .clear n i ∧ i ≤ q.val

/-! ## Steps -/

/-- Nobody's parent changes, and nobody comes or goes. -/
structure Steady (f f' : Table) : Prop where
  parent : ∀ j, (f' j).parent = (f j).parent
  unused : ∀ j, (f' j).state = .unused ↔ (f j).state = .unused
  used : ∀ j, (f' j).state = .used ↔ (f j).state = .used
  zombie : ∀ j, (f' j).state = .zombie ↔ (f j).state = .zombie

/-- Process `j` does not fall asleep. -/
def StaysAwake (f f' : Table) (j : Slot) : Prop :=
  (f' j).state = .sleeping → (f j).state = .sleeping ∧ (f' j).chan = (f j).chan

/-- Nobody falls asleep either. -/
structure Mild (f f' : Table) : Prop extends Steady f f' where
  awake : ∀ j, StaysAwake f f' j

/-- A step of process `p`. -/
inductive Acts (p : Slot) (f : Table) (R : Slot → Role) : Table → (Slot → Role) → Prop
  | quiet {f' : Table} : Mild f f' → Acts p f R f' R
  | rise {f' : Table} : R p = .nap ∨ R p = .slept → (f p).state ≠ .sleeping → Mild f f' →
      Acts p f R f' (update R p .calm)
  | nap {chan : Chan} : R p = .calm → (f p).state = .running →
      Acts p f R (update f p ((f p).sleep chan)) (update R p .nap)
  -- `fork`
  | alloc {j : Slot} {pid : ℤ} : R p = .calm → (f p).state = .running → j ≠ p → (f j).state = .unused →
      Acts p f R (update f j ((f j).alloc .ok pid)) (update (update R j .calm) p (.fork j))
  | allocFail {j : Slot} {pid : ℤ} {r : Proc.AllocResult} : (f j).state = .unused → r ≠ .ok →
      Acts p f R (update f j ((f j).alloc r pid)) R
  | lockFork {j : Slot} : R p = .fork j → (∀ q, (R q).holds = false) → Acts p f R f (update R p (.forkHeld j))
  | setParent {j : Slot} : R p = .forkHeld j →
      Acts p f R (update f j { f j with parent := some p }) (update R p (.born j))
  | setRunnable {j : Slot} : R p = .born j →
      Acts p f R (update f j { f j with state := .runnable }) (update R p .calm)
  -- `exit`
  | lockExit : R p = .calm → Alive (f p).state → (∀ q, (R q).holds = false) →
      Acts p f R f (update R p (.clear 0 NPROC))
  | reparent {j : Slot} : R p = .clear j NPROC → p ≠ initproc → (f j).parent = some p →
      Acts p f R (update f j { f j with parent := some initproc }) (update R p (.clear (j + 1) 0))
  | pass {j : Slot} : R p = .clear j NPROC → (f j).parent ≠ some p →
      Acts p f R f (update R p (.clear (j + 1) NPROC))
  | skipInit {n : ℕ} : R p = .clear n p → p ≠ initproc → Acts p f R f (update R p (.clear n (p + 1)))
  | wakeInit {n : ℕ} {j : Slot} : R p = .clear n j → (R j).dozes = false →
      Acts p f R (update f j ((f j).wakeup (.proc initproc))) (update R p (.clear n (j + 1)))
  | tell : R p = .clear NPROC NPROC → Acts p f R f (update R p (.tell (f p).parent 0))
  | skipParent {o : Option Slot} : R p = .tell o p → Acts p f R f (update R p (.tell o (p + 1)))
  | wakeParent {o : Option Slot} {j : Slot} {chan : Chan} : R p = .tell o j → (∀ q, o = some q → chan = .proc q) →
      (R j).dozes = false → Acts p f R (update f j ((f j).wakeup chan)) (update R p (.tell o (j + 1)))
  | exit {o : Option Slot} {status : ℤ} : R p = .tell o NPROC → p ≠ initproc → (f p).state = .running →
      Acts p f R (update f p ((f p).exit status)) (update R p .gone)
  -- `wait`
  | lockWait : R p = .calm → Alive (f p).state → (∀ q, (R q).holds = false) → Acts p f R f (update R p (.scan 0))
  | other {j : Slot} : R p = .scan j → (f j).parent ≠ some p → Acts p f R f (update R p (.scan (j + 1)))
  | look {j : Slot} : R p = .scan j → (f j).parent = some p → Acts p f R f (update R p (.look j))
  | next {j : Slot} : R p = .look j → (f j).state ≠ .zombie → Acts p f R f (update R p (.scan (j + 1)))
  | find {j : Slot} : R p = .look j → (f j).state = .zombie → Acts p f R f (update R p (.found j))
  | giveUp {j : Slot} : R p = .look j → Acts p f R f (update R p (.scan 0))
  | freeproc {j : Slot} : R p = .found j → Acts p f R (update f j (f j).freeproc) (update R p (.scan 0))
  | unlock {n : ℕ} : R p = .scan n → Acts p f R f (update R p .calm)
  | dozeOff : R p = .scan NPROC → Acts p f R f (update R p .dozeOff)
  | doze : R p = .dozeOff → Acts p f R f (update R p .doze)
  | sleep : R p = .doze → (f p).state = .running →
      Acts p f R (update f p ((f p).sleep (.proc p))) (update R p .slept)

variable {f f' : Table} {R R' : Slot → Role} {p q j : Slot} {r : Role} {g : Proc}

theorem Steady.refl (f : Table) : Steady f f := ⟨fun _ => rfl, fun _ => .rfl, fun _ => .rfl, fun _ => .rfl⟩

theorem Mild.refl (f : Table) : Mild f f := ⟨.refl f, fun _ hs => ⟨hs, rfl⟩⟩

theorem Steady.alive (h : Steady f f') : Alive (f' j).state ↔ Alive (f j).state := by
  simp only [Alive, ne_eq, h.unused, h.zombie]

/-- Only roles under `wait_lock` say that somebody is not asleep; the other facts are about parents and zombies. -/
theorem Role.Fact.keep (hr : r.Fact f R p) (hp : ∀ j, (f' j).parent = (f j).parent)
    (hz : ∀ j, (f' j).state = .zombie ↔ (f j).state = .zombie)
    (hd : r.holds = true → ∀ q, Dozing f' R' q → Dozing f R q) : r.Fact f' R' p := by
  cases r with
  | tell o i =>
    simp only [Role.Fact, hp] at hr ⊢
    exact ⟨hr.1, hr.2.1, fun q ho hi hq => hr.2.2 q ho hi (hd rfl q hq)⟩
  | born | clear | scan | look | found => simpa only [Role.Fact, hp, ne_eq, hz] using hr
  | _ => trivial

/-- Without `wait_lock` a process knows only that its child has a parent. -/
theorem Role.Fact.of_not_holds (hr : r.Fact f R p) (hh : r.holds = false)
    (hp : ∀ j, r = .born j → (f j).parent ≠ none → (f' j).parent ≠ none) : r.Fact f' R' p := by
  cases r with
  | born j => exact hp j rfl hr
  | clear | tell | scan | look | found => cases hh
  | _ => trivial

theorem dozing_update_of_ne (h : q ≠ p) : Dozing f (update R p r) q ↔ Dozing f R q := by
  unfold Dozing
  rw [update_of_ne h]

/-- **The invariant after a step in which nobody's parent changes and nobody comes or goes**, and only `p` turns to
another role.  If it goes to sleep, it does so under `wait_lock` and has no zombie child. -/
theorem Family.turn (h : Family f R) (hs : Steady f f') (hq : ∀ q ≠ p, StaysAwake f f' q)
    (halive : r ≠ .calm → r ≠ .gone → Alive (f p).state)
    (hchild : r.child = (R p).child) (hcreates : r.creates = (R p).creates)
    (hsole : r.holds = true → (R p).holds = true ∨ ∀ q, (R q).holds = false)
    (hdoze : Dozing f' (update R p r) p → Dozing f R p ∨
      (R p).holds = true ∧ ∀ j, (f j).parent = some p → (f j).state ≠ .zombie)
    (hfact : r.Fact f' (update R p r) p)
    (hasleep : (f' p).state = .sleeping → r = .nap ∨ r = .slept ∧ (f' p).chan = .proc p)
    (hheard : ∀ n i, R p = .clear n i → i ≤ initproc.val →
      (∃ n' i', r = .clear n' i' ∧ i' ≤ initproc.val) ∨ ¬ Dozing f' (update R p r) initproc) :
    Family f' (update R p r) := by
  have hd : ∀ q ≠ p, Dozing f' (update R p r) q → Dozing f R q := by
    intro q hne hdq
    rw [dozing_update_of_ne hne] at hdq
    exact hdq.imp id fun hsl => ⟨hsl.1, (hq q hne hsl.2).1⟩
  have hch : ∀ q, (update R p r q).child = (R q).child := update_keeps (g := Role.child) hchild
  have hcr : ∀ q, (update R p r q).creates = (R q).creates := update_keeps (g := Role.creates) hcreates
  have hal := (forall_update_iff R fun q x => x ≠ .calm → x ≠ .gone → Alive (f q).state).mpr ⟨halive, fun q _ => h.alive q⟩
  refine ⟨fun j hj => ?_, hs.alive.mpr h.init, fun j q hj => hs.alive.mpr (h.parent j q ((hs.parent j).symm.trans hj)),
    fun j hj hu hn => ?_, fun q hc hg => hs.alive.mpr (hal q hc hg), fun q j hj => (hs.used j).mpr ?_,
    fun q q' j hj hj' => ?_, fun q q' hqh hqh' => ?_, fun q => ?_,
    (forall_update_iff R fun q x => (f' q).state = .sleeping → x = .nap ∨ x = .slept ∧ (f' q).chan = .proc q).mpr
      ⟨hasleep, fun q hne hsl => ?_⟩, fun q j hdq hj hz => ?_⟩
  · exact (hs.parent j).trans (h.free j ((hs.unused j).mp hj))
  · obtain ⟨hused, q, hcq⟩ := h.orphan j hj (fun he => hu ((hs.unused j).mpr he)) ((hs.parent j).symm.trans hn)
    exact ⟨(hs.used j).mpr hused, q, (hcr q).trans hcq⟩
  · exact h.child q j ((hch q).symm.trans hj)
  · exact h.inj q q' j ((hch q).symm.trans hj) ((hch q').symm.trans hj')
  · -- the lock was with `p`, or with nobody
    have key : ∀ x ≠ p, (R x).holds = true → r.holds = true → False := by
      intro x hx hxh hr
      rcases hsole hr with hp | hnone
      · exact hx (h.sole x p hxh hp)
      · exact Bool.eq_false_iff.mp (hnone x) hxh
    rcases eq_or_ne q p with rfl | hne
    · rw [update_self] at hqh
      by_contra hne'
      rw [update_of_ne (Ne.symm hne')] at hqh'
      exact key q' (Ne.symm hne') hqh' hqh
    · rw [update_of_ne hne] at hqh
      rcases eq_or_ne q' p with rfl | hp'
      · rw [update_self] at hqh'
        exact (key q hne hqh hqh').elim
      · rw [update_of_ne hp'] at hqh'
        exact h.sole q q' hqh hqh'
  · rcases eq_or_ne q p with rfl | hne
    · rwa [update_self]
    · rw [update_of_ne hne]
      refine (h.fact q).keep hs.parent hs.zombie fun hqh x hdx => ?_
      rcases eq_or_ne x p with rfl | hx
      · exact (hdoze hdx).resolve_right fun hp => hne (h.sole q x hqh hp.1)
      · exact hd x hx hdx
  · obtain ⟨hsl', hchan⟩ := hq q hne hsl
    rw [hchan]
    exact h.asleep q hsl'
  · rw [hs.parent] at hj
    rw [hs.zombie] at hz
    have hdq' : Dozing f R q := by
      rcases eq_or_ne q p with rfl | hne
      · exact (hdoze hdq).resolve_right fun hp => hp.2 j hj hz
      · exact hd q hne hdq
    obtain ⟨rfl, p', n, i, hp', hi⟩ := h.heard q j hdq' hj hz
    refine ⟨rfl, ?_⟩
    rcases eq_or_ne p' p with rfl | hne
    · rcases hheard n i hp' hi with ⟨n', i', hr, hi'⟩ | hno
      · exact ⟨p', n', i', by rw [update_self, hr], hi'⟩
      · exact absurd hdq hno
    · exact ⟨p', n, i, by rw [update_of_ne hne, hp'], hi⟩

theorem Family.mild (h : Family f R) (hm : Mild f f') : Family f' R := by
  have hd : ∀ q, Dozing f' R q → Dozing f R q := fun q hq => hq.imp id fun hs => ⟨hs.1, (hm.awake q hs.2).1⟩
  have key := h.turn (p := initproc) (r := R initproc) hm.toSteady (fun q _ => hm.awake q) (h.alive initproc) rfl rfl
    .inl (fun hq => .inl (hd _ (by rwa [update_eq_self] at hq)))
    ((h.fact initproc).keep hm.parent hm.zombie fun _ q hq => hd q (by rwa [update_eq_self] at hq))
    (fun hs => by rw [(hm.awake _ hs).2]; exact h.asleep _ (hm.awake _ hs).1)
    (fun n i hi hle => .inl ⟨n, i, hi, hle⟩)
  rwa [update_eq_self] at key

/-- Who is asleep after a step in which `p` turns to a role that is not. -/
theorem Dozing.back (hr : r.dozes = false) (hne : r ≠ .slept)
    (hs : ∀ q, (f' q).state = .sleeping → (f q).state = .sleeping) (hq : Dozing f' (update R p r) q) : Dozing f R q := by
  have hqp : q ≠ p := by
    rintro rfl
    rcases hq with hq | ⟨hq, -⟩
    · rw [update_self, hr] at hq
      cases hq
    · rw [update_self] at hq
      exact hne hq
  rw [dozing_update_of_ne hqp] at hq
  exact hq.imp id fun hsl => ⟨hsl.1, hs q hsl.2⟩

/-- Whoever is not `p` is not under `wait_lock` when `p` is. -/
theorem Family.not_holds (h : Family f R) (hp : (R p).holds = true) (hq : q ≠ p) : (R q).holds = false := by
  by_contra hh
  exact hq (h.sole q p (by simpa using hh) hp)

/-- **The invariant after a step in which `p` writes slot `j`** and turns to another role, where nobody falls asleep, and nobody
dies but `p`, which has no children. -/
theorem Family.write (h : Family f R) (hnap : R p ≠ .nap ∧ R p ≠ .slept)
    (hdoze : r.dozes = false ∧ r ≠ .slept) (hsole : r.holds = true → (R p).holds = true)
    (halive : r ≠ .calm → r ≠ .gone → Alive (f p).state)
    -- the slot
    (hlive : (Alive (f j).state → Alive g.state) ∨
      j = p ∧ r = .gone ∧ p ≠ initproc ∧ ∀ k, (update f j g k).parent ≠ some p)
    (hfree : g.state = .unused → g.parent = none) (hparent : ∀ q, g.parent = some q → Alive (f q).state)
    (hawake : g.state = .sleeping → (f j).state = .sleeping ∧ g.chan = (f j).chan)
    -- children that are being created
    (horphan : g.state ≠ .unused → g.parent = none → g.state = .used ∧ ∃ x, (update R p r x).creates = some j)
    (hcreates : ∀ k ≠ j, (R p).creates = some k → r.creates = some k)
    (hchild : ∀ k ≠ j, r.child = some k → (R p).child = some k)
    (hnew : r.child = some j → g.state = .used ∧ ((R p).child = some j ∨ (f j).state ≠ .used))
    (hused : ∀ x ≠ p, (R x).child = some j → g.state = .used)
    -- zombies
    (hheard : ∀ q, Dozing f R q → g.parent = some q → g.state = .zombie →
      q = initproc ∧ ∃ x n i, update R p r x = .clear n i ∧ i ≤ q.val)
    (hclear : ∀ n i, R p = .clear n i → ∃ n', r = .clear n' 0)
    -- what the roles say
    (hself : r.Fact (update f j g) (update R p r) p)
    (hother : ∀ x ≠ p, (R x).Fact (update f j g) (update R p r) x) : Family (update f j g) (update R p r) := by
  have hsl := (forall_update_iff f fun x v => v.state = .sleeping → (f x).state = .sleeping ∧ v.chan = (f x).chan).mpr
    ⟨hawake, fun _ _ hs => ⟨hs, rfl⟩⟩
  have hd : ∀ q, Dozing (update f j g) (update R p r) q → Dozing f R q := fun q hq =>
    hq.back hdoze.1 hdoze.2 fun x hx => (hsl x hx).1
  have hal : ∀ x, x = initproc ∨ (∃ k, (update f j g k).parent = some x) ∨ update R p r x ≠ .gone →
      Alive (f x).state → Alive (update f j g x).state := by
    intro x hx ha
    rcases hlive with hl | ⟨rfl, rfl, hne, hkids⟩
    · exact (forall_update_iff f fun x v => Alive (f x).state → Alive v.state).mpr ⟨hl, fun _ _ => id⟩ x ha
    · have hxj : x ≠ j := by
        rintro rfl
        rcases hx with hx | ⟨k, hk⟩ | hx
        · exact hne hx
        · exact hkids k hk
        · exact hx (update_self ..)
      rwa [update_of_ne hxj]
  have hrole := (forall_update_iff R fun x v => v ≠ .calm → v ≠ .gone → Alive (f x).state).mpr ⟨halive, fun x _ => h.alive x⟩
  have hch := fun k hk => (forall_update_iff R fun x v => v.child = some k → (R x).child = some k).mpr
    ⟨hchild k hk, fun _ _ => id⟩
  have hnew' := (forall_update_iff R fun x v => v.child = some j →
    g.state = .used ∧ ((R x).child = some j ∨ (f j).state ≠ .used ∧ x = p)).mpr
      ⟨fun hc => (hnew hc).imp_right (Or.imp_right fun hu => ⟨hu, rfl⟩), fun x hx hc => ⟨hused x hx hc, .inl hc⟩⟩
  have hho := (forall_update_iff R fun x v => v.holds = true → (R x).holds = true).mpr ⟨hsole, fun _ _ => id⟩
  refine ⟨(forall_update_iff f fun _ v => v.state = .unused → v.parent = none).mpr ⟨hfree, fun k _ => h.free k⟩,
    hal _ (.inl rfl) h.init, fun k q hk => hal q (.inr (.inl ⟨k, hk⟩)) ?_, fun k hk hu hn => ?_,
    fun x hc hg => hal x (.inr (.inr hg)) (hrole x hc hg), fun x k hk => ?_, fun x x' k hk hk' => ?_,
    fun x x' hx hx' => h.sole x x' (hho x hx) (hho x' hx'),
    (forall_update_iff R fun x v => v.Fact (update f j g) (update R p r) x).mpr ⟨hself, hother⟩, fun x hs => ?_,
    fun q k hq hk hz => ?_⟩
  · exact (forall_update_iff f fun _ v => v.parent = some q → Alive (f q).state).mpr ⟨hparent q, fun k _ => h.parent k q⟩ k hk
  · rcases eq_or_ne k j with rfl | hkj
    · rw [update_self] at hu hn ⊢
      exact horphan hu hn
    · rw [update_of_ne hkj] at hu hn ⊢
      obtain ⟨hst, x, hx⟩ := h.orphan k hk hu hn
      refine ⟨hst, x, ?_⟩
      rcases eq_or_ne x p with rfl | hxp
      · rw [update_self]
        exact hcreates k hkj hx
      · rwa [update_of_ne hxp]
  · rcases eq_or_ne k j with rfl | hkj
    · rw [update_self]
      exact (hnew' x hk).1
    · rw [update_of_ne hkj]
      exact h.child x k (hch k hkj x hk)
  · rcases eq_or_ne k j with rfl | hkj
    · -- a child that `p` has just allocated was no child before
      rcases (hnew' x hk).2 with hx | ⟨hu, hxp⟩ <;> rcases (hnew' x' hk').2 with hx' | ⟨hu', hxp'⟩
      · exact h.inj x x' k hx hx'
      · exact absurd (h.child x k hx) hu'
      · exact absurd (h.child x' k hx') hu
      · rw [hxp, hxp']
    · exact h.inj x x' k (hch k hkj x hk) (hch k hkj x' hk')
  · have hx := hsl x hs
    have hxp : x ≠ p := by
      rintro rfl
      rcases h.asleep x hx.1 with he | ⟨he, -⟩
      · exact hnap.1 he
      · exact hnap.2 he
    rw [update_of_ne hxp, hx.2]
    exact h.asleep x hx.1
  · rcases eq_or_ne k j with rfl | hkj
    · rw [update_self] at hk hz
      exact hheard q (hd q hq) hk hz
    · rw [update_of_ne hkj] at hk hz
      obtain ⟨hinit, x, n, i, hx, hi⟩ := h.heard q k (hd q hq) hk hz
      refine ⟨hinit, ?_⟩
      rcases eq_or_ne x p with rfl | hxp
      · obtain ⟨n', hr⟩ := hclear n i hx
        exact ⟨x, n', 0, by rw [update_self, hr], Nat.zero_le _⟩
      · exact ⟨x, n, i, by rw [update_of_ne hxp, hx], hi⟩

/-- What the others know, if the slot keeps its parent and its process does not die or fall asleep. -/
theorem Role.Fact.write {r' : Role} (hr : r'.Fact f R q) (hdoze : r.dozes = false ∧ r ≠ .slept)
    (hpar : g.parent = (f j).parent) (hz : g.state = .zombie ↔ (f j).state = .zombie) (hs : g.state ≠ .sleeping) :
    r'.Fact (update f j g) (update R p r) q :=
  hr.keep (update_keeps (g := Proc.parent) hpar)
    ((forall_update_iff f fun k v => v.state = .zombie ↔ (f k).state = .zombie).mpr ⟨hz, fun _ _ => .rfl⟩)
    fun _ _ hq => hq.back hdoze.1 hdoze.2 <|
      (forall_update_iff f fun k v => v.state = .sleeping → (f k).state = .sleeping).mpr ⟨fun h => absurd h hs, fun _ _ => id⟩

section

variable (h : Family f R)
include h

/-- What they know if `p` holds `wait_lock`. -/
theorem Family.fact_of_holds (hp : (R p).holds = true)
    (hpar : (∃ x, (R x).child = some j) → (f j).parent ≠ none → g.parent ≠ none) :
    ∀ x ≠ p, (R x).Fact (update f j g) R' x := by
  refine fun x hxp => (h.fact x).of_not_holds (h.not_holds hp hxp) fun k hx => ?_
  exact (forall_update_iff f fun k v => (∃ x, (R x).child = some k) → (f k).parent ≠ none → v.parent ≠ none).mpr
    ⟨hpar, fun _ _ _ => id⟩ k ⟨x, by rw [hx]; rfl⟩

/-! ## The steps that write the table -/

theorem Family.setParent (hp : R p = .forkHeld j) :
    Family (update f j { f j with parent := some p }) (update R p (.born j)) := by
  have hused : (f j).state = .used := h.child p j (by rw [hp]; rfl)
  have halive : Alive (f p).state := h.alive p (by simp [hp]) (by simp [hp])
  refine h.write (by simp [hp]) (by simp) (by simp) (fun _ _ => halive) (.inl id) (by simp [hused])
    (by simpa using halive) (fun hs => ⟨hs, rfl⟩) (by simp) ?_ (by simp [hp]) (fun _ => ⟨hused, .inl (by rw [hp]; rfl)⟩)
    (fun _ _ _ => hused) (by simp [hused]) (by simp [hp]) (by simp) (h.fact_of_holds (by rw [hp]; rfl) (by simp))
  intro k hk hc
  rw [hp] at hc
  exact absurd (Option.some.inj hc).symm hk

theorem Family.setRunnable (hp : R p = .born j) :
    Family (update f j { f j with state := .runnable }) (update R p .calm) := by
  have hused : (f j).state = .used := h.child p j (by rw [hp]; rfl)
  have hpar : (f j).parent ≠ none := by
    have hfact := h.fact p
    rwa [hp] at hfact
  refine h.write (by simp [hp]) (by simp) (by simp) (by simp) (by simp [Alive]) (by simp)
    (fun q hq => h.parent j q hq) (by simp) (fun _ hn => absurd hn hpar) (by simp [hp]) (by simp) (by simp) ?_
    (by simp) (by simp [hp]) trivial fun x _ => (h.fact x).write (by simp) rfl (by simp [hused]) (by simp)
  exact fun x hxp hx => absurd (h.inj x p j hx (by rw [hp]; rfl)) hxp

theorem Family.reparent (hp : R p = .clear j NPROC) (hne : p ≠ initproc)
    (hpar : (f j).parent = some p) :
    Family (update f j { f j with parent := some initproc }) (update R p (.clear (j + 1) 0)) := by
  have halive : Alive (f p).state := h.alive p (by simp [hp]) (by simp [hp])
  have hholds : (R p).holds = true := by rw [hp]; rfl
  have hnu : (f j).state ≠ .unused := by
    intro hu
    cases hpar.symm.trans (h.free j hu)
  have hclear : ∀ k : Slot, k.val < j.val → (f k).parent ≠ some p := by
    have hfact := h.fact p
    rwa [hp] at hfact
  refine h.write (by simp [hp]) (by simp) (fun _ => hholds) (fun _ _ => halive) (.inl id) (fun hu => absurd hu hnu)
    (by simpa using h.init) (fun hs => ⟨hs, rfl⟩) (by simp) (by simp [hp]) (by simp) (by simp)
    (fun x _ hx => h.child x j hx) ?_ (fun n i _ => ⟨_, rfl⟩) (fun k hk => ?_) (h.fact_of_holds hholds (by simp))
  · rintro q - ⟨⟩ -
    exact ⟨rfl, p, _, 0, update_self .., Nat.zero_le _⟩
  · rcases eq_or_ne k j with rfl | hkj
    · simpa using hne.symm
    · rw [update_of_ne hkj]
      have hkj' := Fin.val_ne_of_ne hkj
      exact hclear k (by omega)

theorem Family.freeproc (hp : R p = .found j) :
    Family (update f j (f j).freeproc) (update R p (.scan 0)) := by
  obtain ⟨-, hz⟩ : (f j).parent = some p ∧ (f j).state = .zombie := by
    have hfact := h.fact p
    rwa [hp] at hfact
  have halive : Alive (f p).state := h.alive p (by simp [hp]) (by simp [hp])
  have hholds : (R p).holds = true := by rw [hp]; rfl
  have hchild : ∀ x, (R x).child ≠ some j := by
    intro x hx
    cases hz.symm.trans (h.child x j hx)
  exact h.write (by simp [hp]) (by simp) (fun _ => hholds) (fun _ _ => halive) (by simp [Alive, hz])
    (fun _ => rfl) (by simp [Proc.freeproc]) (by simp) (by simp) (by simp [hp]) (by simp) (by simp)
    (fun x _ hx => absurd hx (hchild x)) (by simp) (by simp [hp]) (by simp)
    (h.fact_of_holds hholds fun ⟨x, hx⟩ => absurd hx (hchild x))

/-- A slot with no process has no part in anything. -/
theorem Family.reset (hj : (f j).state = .unused) : Family f (update R j .calm) := by
  have hr : R j = .calm ∨ R j = .gone := by
    by_contra hne
    rw [not_or] at hne
    exact (h.alive j hne.1 hne.2).1 hj
  refine h.turn (.refl f) (fun q _ hs => ⟨hs, rfl⟩) (by simp) ?_ ?_ (by simp) (by simp [Dozing])
    (by simp) (by simp [hj]) ?_
  · rcases hr with hr | hr <;> simp [hr]
  · rcases hr with hr | hr <;> simp [hr]
  · intro n i hi
    rcases hr with hr | hr <;> cases hr.symm.trans hi

theorem Family.alloc {pid : ℤ} (hp : R p = .calm) (hrun : (f p).state = .running) (hjp : j ≠ p)
    (hj : (f j).state = .unused) :
    Family (update f j ((f j).alloc .ok pid)) (update (update R j .calm) p (.fork j)) := by
  have hp' : update R j .calm p = .calm := by rw [update_of_ne hjp.symm, hp]
  have hpar : ((f j).alloc .ok pid).parent = none := h.free j hj
  refine (h.reset hj).write (by simp [hp']) (by simp) (by simp) (by simp [hrun, Alive]) (by simp [Alive, hj])
    (fun _ => hpar) (by simp [hpar]) (by simp [Proc.alloc]) (fun _ _ => ⟨rfl, p, by simp⟩) (by simp [hp']) ?_
    (fun _ => ⟨rfl, .inr (by simp [hj])⟩) (fun _ _ _ => rfl) (by simp [hpar]) (by simp [hp']) trivial fun x _ =>
      ((h.reset hj).fact x).write (by simp) (hpar.trans (h.free j hj).symm) (by simp [hj, Proc.alloc]) (by simp [Proc.alloc])
  intro k hk hc
  exact absurd (Option.some.inj hc).symm hk

theorem Family.exit {o : Option Slot} {status : ℤ} (hp : R p = .tell o NPROC) (hne : p ≠ initproc)
    (hrun : (f p).state = .running) : Family (update f p ((f p).exit status)) (update R p .gone) := by
  obtain ⟨hpar, hkids, hawake⟩ : (f p).parent = o ∧ (∀ j, (f j).parent ≠ some p) ∧
      ∀ q, o = some q → q.val < NPROC → ¬ Dozing f R q := by
    have hfact := h.fact p
    rwa [hp] at hfact
  have hparent : ∀ k, (update f p ((f p).exit status) k).parent = (f k).parent := update_keeps (g := Proc.parent) (by rfl)
  refine h.write (by simp [hp]) (by simp) (by simp) (by simp) (.inr ⟨rfl, rfl, hne, fun k => ?_⟩) (by simp)
    (h.parent p) (by simp) (fun _ hn => ?_) (by simp [hp]) (by simp) (by simp) (fun x _ hx => ?_)
    (fun q hq hpq _ => ?_) (by simp [hp]) trivial (h.fact_of_holds (by rw [hp]; rfl) fun _ => id)
  · rw [hparent]
    exact hkids k
  · cases hrun.symm.trans (h.orphan p hne (by simp [hrun]) hn).1
  · cases hrun.symm.trans (h.child x p hx)
  · -- the parent of the new zombie has been woken
    exact absurd hq (hawake q (hpar.symm.trans hpq) q.isLt)

/-! ## The other steps -/

/-- A change of role that leaves the table alone. -/
theorem Family.change (hnap : R p ≠ .nap ∧ R p ≠ .slept) (hdoze : r.dozes = (R p).dozes)
    (hslept : r ≠ .slept) (halive : r ≠ .calm → r ≠ .gone → Alive (f p).state) (hchild : r.child = (R p).child)
    (hcreates : r.creates = (R p).creates) (hsole : r.holds = true → (R p).holds = true ∨ ∀ q, (R q).holds = false)
    (hclear : ∀ n i, R p = .clear n i → i ≤ initproc.val →
      (∃ n' i', r = .clear n' i' ∧ i' ≤ initproc.val) ∨ ¬ Dozing f (update R p r) initproc)
    (hfact : r.Fact f (update R p r) p) : Family f (update R p r) := by
  refine h.turn (.refl f) (fun q _ hs => ⟨hs, rfl⟩) halive hchild hcreates hsole (fun hd => ?_) hfact (fun hs => ?_) hclear
  · rw [Dozing, update_self, hdoze] at hd
    exact .inl (hd.imp id fun hs => absurd hs.1 hslept)
  · rcases h.asleep p hs with he | ⟨he, -⟩
    · exact absurd he hnap.1
    · exact absurd he hnap.2

end

/-- The roles in `exit` and `wait` under `wait_lock`. -/
@[simp] def Role.inLock : Role → Bool
  | clear _ _ | tell _ _ | scan _ | look _ | found _ => true
  | _ => false

/-- A change of role in `exit` or `wait` under `wait_lock`. -/
theorem Family.move (h : Family f R) (hp : (R p).inLock = true) (hr : r.inLock = true)
    (hclear : ∀ n i, R p = .clear n i → i ≤ initproc.val →
      (∃ n' i', r = .clear n' i' ∧ i' ≤ initproc.val) ∨ ¬ Dozing f (update R p r) initproc)
    (hfact : r.Fact f (update R p r) p) : Family f (update R p r) := by
  have plain : ∀ {x : Role}, x.inLock = true → x.holds = true ∧ x.dozes = false ∧ x.child = none ∧ x.creates = none ∧
      x ≠ .nap ∧ x ≠ .slept ∧ x ≠ .calm ∧ x ≠ .gone := by
    intro x
    cases x <;> simp
  obtain ⟨hph, hpd, hpc, hpcr, hpn, hps, hpcalm, hpgone⟩ := plain hp
  obtain ⟨-, hrd, hrc, hrcr, -, hrs, -, -⟩ := plain hr
  exact h.change ⟨hpn, hps⟩ (hrd.trans hpd.symm) hrs (fun _ _ => h.alive p hpcalm hpgone) (hrc.trans hpc.symm)
    (hrcr.trans hpcr.symm) (fun _ => .inl hph) hclear hfact

theorem steady_update (hpar : g.parent = (f j).parent) (hu : g.state = .unused ↔ (f j).state = .unused)
    (hus : g.state = .used ↔ (f j).state = .used) (hz : g.state = .zombie ↔ (f j).state = .zombie) : Steady f (update f j g) where
  parent := update_keeps (g := Proc.parent) hpar
  unused := (forall_update_iff f fun k v => v.state = .unused ↔ (f k).state = .unused).mpr ⟨hu, fun _ _ => .rfl⟩
  used := (forall_update_iff f fun k v => v.state = .used ↔ (f k).state = .used).mpr ⟨hus, fun _ _ => .rfl⟩
  zombie := (forall_update_iff f fun k v => v.state = .zombie ↔ (f k).state = .zombie).mpr ⟨hz, fun _ _ => .rfl⟩

/-- Whoever else falls asleep. -/
theorem staysAwake_update (hj : q = j → g.state = .sleeping → (f j).state = .sleeping ∧ g.chan = (f j).chan) :
    StaysAwake f (update f j g) q := by
  intro hs
  rcases eq_or_ne q j with rfl | hq
  · rw [update_self] at hs ⊢
    exact hj rfl hs
  · rw [update_of_ne hq] at hs ⊢
    exact ⟨hs, rfl⟩

/-- Falling asleep. -/
theorem steady_sleep {chan : Chan} (hrun : (f p).state = .running) : Steady f (update f p ((f p).sleep chan)) :=
  steady_update rfl (by simp [hrun]) (by simp [hrun]) (by simp [hrun])

/-- A slot whose process stays in its state, or becomes ready to run. -/
theorem mild_update (hpar : g.parent = (f j).parent)
    (hst : g.state = (f j).state ∧ ((f j).state = .sleeping → g.chan = (f j).chan) ∨
      ((f j).state = .sleeping ∨ (f j).state = .runnable ∨ (f j).state = .running) ∧
        (g.state = .runnable ∨ g.state = .running)) : Mild f (update f j g) := by
  refine ⟨steady_update hpar ?_ ?_ ?_, fun k => staysAwake_update fun _ hs => ?_⟩
  all_goals grind

/-- `wakeup` at slot `j` wakes whoever sleeps there on the channel. -/
theorem mild_wakeup (f : Table) (j : Slot) (chan : Chan) : Mild f (update f j ((f j).wakeup chan)) := by
  have hl := Proc.links_wakeup (f j) chan
  refine mild_update hl.parent ((Proc.wakeup_state (f j) chan).imp (fun he => ⟨he, fun _ => hl.chan⟩) ?_)
  rintro ⟨hs, he⟩
  exact ⟨.inl hs, .inl he⟩

/-- A process in `wait` whose slot `wakeup` passes is awake. -/
theorem Family.not_dozing (h : Family f R) (hj : (R j).dozes = false) :
    ¬ Dozing (update f j ((f j).wakeup (.proc j))) R j := by
  rintro (hd | ⟨hr, hs⟩)
  · cases hj.symm.trans hd
  · rw [update_self] at hs
    rcases Proc.wakeup_state (f j) (.proc j) with he | ⟨-, he⟩
    · have hchan := (h.asleep j (he.symm.trans hs)).resolve_left (by simp [hr])
      rw [Proc.wakeup, if_pos ⟨he.symm.trans hs, hchan.2⟩] at hs
      cases hs
    · cases he.symm.trans hs

/-- **Every step keeps the invariant.** -/
theorem Acts.family (ha : Acts p f R f' R') (h : Family f R) : Family f' R' := by
  have fact : ∀ {r : Role}, R p = r → r.Fact f R p := fun hp => hp ▸ h.fact p
  have alive : ∀ {r : Role}, R p = r → r ≠ .calm → r ≠ .gone → Alive (f p).state := fun hp hc hg =>
    h.alive p (hp ▸ hc) (hp ▸ hg)
  cases ha with
  | quiet hm => exact h.mild hm
  | rise hp hs hm =>
    refine (h.mild hm).turn (.refl _) (fun q _ hs => ⟨hs, rfl⟩) (by simp) ?_ ?_ (by simp)
      (by simp [Dozing]) trivial (fun hs' => absurd (hm.awake p hs').1 hs) ?_
    · rcases hp with hp | hp <;> simp [hp]
    · rcases hp with hp | hp <;> simp [hp]
    · intro n i hi
      rcases hp with hp | hp <;> cases hp.symm.trans hi
  | nap hp hrun =>
    exact h.turn (steady_sleep hrun) (fun q hq => staysAwake_update fun hqp => absurd hqp hq) (by simp [hrun, Alive])
      (by simp [hp]) (by simp [hp]) (by simp) (by simp [Dozing]) trivial (fun _ => .inl rfl) (by simp [hp])
  | alloc hp hrun hjp hj => exact h.alloc hp hrun hjp hj
  | @allocFail j pid r hj hr =>
    have hpar : ((f j).alloc r pid).parent = none := by cases r <;> first | rfl | exact absurd rfl hr
    have hst := Proc.alloc_state_of_fail (f j) pid hr
    exact h.mild ⟨steady_update (hpar.trans (h.free j hj).symm) (by simp [hst, hj]) (by simp [hst, hj]) (by simp [hst, hj]),
      fun k => staysAwake_update fun _ hs => by simp [hst] at hs⟩
  | lockFork hp hfree =>
    exact h.change (by simp [hp]) (by simp [hp]) (by simp) (fun _ _ => alive hp (by simp) (by simp))
      (by simp [hp]) (by simp [hp]) (fun _ => .inr hfree) (by simp [hp]) trivial
  | setParent hp => exact h.setParent hp
  | setRunnable hp => exact h.setRunnable hp
  | lockExit hp halive hfree | lockWait hp halive hfree =>
    exact h.change (by simp [hp]) (by simp [hp]) (by simp) (fun _ _ => halive)
      (by simp [hp]) (by simp [hp]) (fun _ => .inr hfree) (by simp [hp]) (by simp)
  | reparent hp hne hpar => exact h.reparent hp hne hpar
  | @pass j hp hpar =>
    refine h.move (by simp [hp]) rfl (fun n i hi hle => ?_) fun k hk => ?_
    · cases hp.symm.trans hi
      exact absurd hle (by decide)
    · rcases eq_or_ne k j with rfl | hkj
      · exact hpar
      · have hkj' := Fin.val_ne_of_ne hkj
        exact fact hp k (by omega)
  | @skipInit n hp hne =>
    refine h.move (by simp [hp]) rfl (fun n' i hi hle => .inl ⟨n, p + 1, rfl, ?_⟩) (fact hp)
    cases hp.symm.trans hi
    have hne' := Fin.val_ne_of_ne hne
    omega
  | @wakeInit n j hp hd =>
    have hm := mild_wakeup f j (.proc initproc)
    refine (h.mild hm).move (by simp [hp]) rfl (fun n' i hi hle => ?_) ?_
    · cases hp.symm.trans hi
      rcases eq_or_ne j initproc with rfl | hj
      · exact .inr fun hdi => h.not_dozing hd (hdi.back rfl (by simp) fun _ hs => hs)
      · have hj' := Fin.val_ne_of_ne hj
        exact .inl ⟨n, j + 1, rfl, by omega⟩
    · intro k hk
      rw [hm.parent]
      exact fact hp k hk
  | tell hp =>
    refine h.move (by simp [hp]) rfl (fun n i hi hle => ?_)
      ⟨rfl, fun j => fact hp j j.isLt, fun q _ hq => absurd hq (Nat.not_lt_zero _)⟩
    cases hp.symm.trans hi
    exact absurd hle (by decide)
  | @skipParent o hp =>
    obtain ⟨hpar, hkids, hawake⟩ := fact hp
    refine h.move (by simp [hp]) rfl (by simp [hp]) ⟨hpar, hkids, fun q ho hq hd => ?_⟩
    rcases eq_or_ne q p with rfl | hqp
    · simp [Dozing] at hd
    · have hqp' := Fin.val_ne_of_ne hqp
      exact hawake q ho (by omega) (hd.back rfl (by simp) fun _ hs => hs)
  | @wakeParent o j chan hp hchan hd =>
    have hm := mild_wakeup f j chan
    obtain ⟨hpar, hkids, hawake⟩ := fact hp
    refine (h.mild hm).move (by simp [hp]) rfl (by simp [hp]) ⟨(hm.parent p).trans hpar, fun k => ?_,
      fun q ho hq hdq => ?_⟩
    · rw [hm.parent]
      exact hkids k
    · have hdq' : Dozing _ R q := hdq.back rfl (by simp) fun _ hs => hs
      rcases eq_or_ne q j with rfl | hqj
      · rw [hchan q ho] at hdq'
        exact h.not_dozing hd hdq'
      · have hqj' := Fin.val_ne_of_ne hqj
        exact hawake q ho (by omega) (hdq'.imp id fun hs => ⟨hs.1, (hm.awake q hs.2).1⟩)
  | exit hp hne hrun => exact h.exit hp hne hrun
  | @other j hp hpar =>
    refine h.move (by simp [hp]) rfl (by simp [hp]) fun k hk hkp => ?_
    have hkj : k.val ≠ j.val := fun he => hpar (Fin.ext he ▸ hkp)
    exact fact hp k (by omega) hkp
  | look hp hpar => exact h.move (by simp [hp]) rfl (by simp [hp]) ⟨hpar, fact hp⟩
  | @next j hp hz =>
    refine h.move (by simp [hp]) rfl (by simp [hp]) fun k hk hkp => ?_
    rcases eq_or_ne k j with rfl | hkj
    · exact hz
    · have hkj' := Fin.val_ne_of_ne hkj
      exact (fact hp).2 k (Fin.lt_def.mpr (by omega)) hkp
  | find hp hz => exact h.move (by simp [hp]) rfl (by simp [hp]) ⟨(fact hp).1, hz⟩
  | giveUp hp => exact h.move (by simp [hp]) rfl (by simp [hp]) (by simp)
  | freeproc hp => exact h.freeproc hp
  | unlock hp =>
    exact h.change (by simp [hp]) (by simp [hp]) (by simp) (by simp) (by simp [hp])
      (by simp [hp]) (by simp) (by simp [hp]) trivial
  | dozeOff hp =>
    refine h.turn (.refl f) (fun q _ hs => ⟨hs, rfl⟩) (fun _ _ => alive hp (by simp) (by simp)) (by simp [hp])
      (by simp [hp]) (by simp) (fun _ => .inr ⟨by simp [hp], ?_⟩) trivial ?_ (by simp [hp])
    · exact fun j hj => fact hp j j.isLt hj
    · exact fun hs => absurd (h.asleep p hs) (by simp [hp])
  | doze hp =>
    exact h.change (by simp [hp]) (by simp [hp]) (by simp) (fun _ _ => alive hp (by simp) (by simp))
      (by simp [hp]) (by simp [hp]) (by simp) (by simp [hp]) trivial
  | sleep hp hrun =>
    exact h.turn (steady_sleep hrun) (fun q hq => staysAwake_update fun hqp => absurd hqp hq) (by simp [hrun, Alive])
      (by simp [hp]) (by simp [hp]) (by simp) (fun _ => .inl (.inl (by rw [hp]; rfl))) trivial
      (fun _ => .inr ⟨rfl, by simp [Proc.sleep]⟩) (by simp [hp])

end Xv6Mlfq
