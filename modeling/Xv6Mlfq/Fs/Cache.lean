import Xv6Mlfq.Lib.Count
import Xv6Mlfq.Param

/-!
# Xv6Mlfq.Fs.Cache — the buffer cache

`bio.c`, one step for each stretch under `bcache.lock`, each operation of a buffer's sleep-lock and each transfer of a block.
A user is a local variable of a kernel thread that holds a `struct buf *`; `Cache.use` is how far it has come in `bread` or
`brelse`.  All callers pass `ROOTDEV`: the kernel opens no other device.

* `Cache.op`: the steps; `CacheStep`: the same by cases.
* `Cache.Ok c pin`: the counts agree with the users and with `pin`, the pins of each buffer; no two buffers hold the same block.
-/

namespace Xv6Mlfq.Fs

open Function Tally

/-! ## The code -/

/-- `NBUF` -/
abbrev NBUF : ℕ := 30

def ROOTDEV : ℕ := 1

/-- `struct buf`; `owner` is who holds the sleep-lock. -/
structure Buf (U α : Type*) where
  valid : Bool
  dev : ℕ
  blockno : ℕ
  refcnt : ℕ
  owner : Option U
  data : α

/-- How far a user is: without a buffer, in `acquiresleep` of `bget`, in `bread` with the lock, back from `bread`, and in
`brelse` after `releasesleep`.  `dirty`: it has changed the data since it last wrote them. -/
inductive Use
  | out
  | waiting (i : Fin NBUF) | filling (i : Fin NBUF) | held (i : Fin NBUF) (dirty : Bool) | releasing (i : Fin NBUF)
  deriving DecidableEq, Repr

/-- The buffers, their list, most recently used first, and the disk. -/
structure Cache (U α : Type*) where
  buf : Fin NBUF → Buf U α
  lru : List (Fin NBUF)
  disk : ℕ → α
  use : U → Use

/-- The steps of a user. -/
inductive CacheOp (α : Type*)
  /- `bget` up to `acquiresleep`, `acquiresleep`, the rest of `bread` -/
  | bget (b : ℕ) | lock | fill
  /- an assignment to `b->data`, `bwrite` -/
  | modify (x : α) | bwrite
  /- `brelse`: `releasesleep`, the rest -/
  | unlock | brelse

variable {U α : Type*} {x : Buf U α} {y : Use} {d : ℕ → α} {e : Bool}

/-- `binit` -/
def binit (data : Fin NBUF → α) (disk : ℕ → α) : Cache U α where
  buf := fun i => { valid := false, dev := 0, blockno := 0, refcnt := 0, owner := none, data := data i }
  lru := (List.finRange NBUF).reverse
  disk := disk
  use := fun _ => .out

namespace Cache

@[simps] def setBuf (c : Cache U α) (i : Fin NBUF) (x : Buf U α) : Cache U α := { c with buf := update c.buf i x }

/-- The first loop of `bget`. -/
def cached (c : Cache U α) (b : ℕ) : Option (Fin NBUF) :=
  c.lru.find? fun i => (c.buf i).dev = ROOTDEV ∧ (c.buf i).blockno = b

/-- The second loop of `bget`. -/
def unused (c : Cache U α) : Option (Fin NBUF) := c.lru.reverse.find? fun i => (c.buf i).refcnt = 0

/-- `bpin` -/
def bpin (c : Cache U α) (i : Fin NBUF) : Cache U α := c.setBuf i { c.buf i with refcnt := (c.buf i).refcnt + 1 }

/-- `bunpin` -/
def bunpin (c : Cache U α) (i : Fin NBUF) : Cache U α := c.setBuf i { c.buf i with refcnt := (c.buf i).refcnt - 1 }

/-- `brelse`, after `releasesleep`. -/
def brelse (c : Cache U α) (i : Fin NBUF) : Cache U α :=
  let c' := c.setBuf i { c.buf i with refcnt := (c.buf i).refcnt - 1 }
  if (c'.buf i).refcnt = 0 then { c' with lru := i :: c.lru.erase i } else c'

variable [DecidableEq U]

@[simps] def setUse (c : Cache U α) (u : U) (x : Use) : Cache U α := { c with use := update c.use u x }

/-- `bget`, up to `acquiresleep`; `none` if it panics. -/
def bget (c : Cache U α) (u : U) (b : ℕ) : Option (Cache U α) :=
  match c.cached b with
  | some i => some ((c.setBuf i { c.buf i with refcnt := (c.buf i).refcnt + 1 }).setUse u (.waiting i))
  | none => c.unused.map fun i =>
    (c.setBuf i { c.buf i with dev := ROOTDEV, blockno := b, valid := false, refcnt := 1 }).setUse u (.waiting i)

/-- One step of user `u`. -/
def op (c : Cache U α) (u : U) : CacheOp α → Option (Cache U α)
  | .bget b => if c.use u = .out then c.bget u b else none
  | .lock =>
    match c.use u with
    | .waiting i =>
      if (c.buf i).owner = none then some ((c.setBuf i { c.buf i with owner := some u }).setUse u (.filling i)) else none
    | _ => none
  | .fill =>
    match c.use u with
    | .filling i =>
      if (c.buf i).valid then some (c.setUse u (.held i false))
      else some ((c.setBuf i { c.buf i with data := c.disk (c.buf i).blockno, valid := true }).setUse u (.held i false))
    | _ => none
  | .modify x =>
    match c.use u with
    | .held i _ => some ((c.setBuf i { c.buf i with data := x }).setUse u (.held i true))
    | _ => none
  | .bwrite =>
    match c.use u with
    | .held i _ =>
      some ({ c with disk := update c.disk (c.buf i).blockno (c.buf i).data }.setUse u (.held i false))
    | _ => none
  | .unlock =>
    match c.use u with
    | .held i _ => some ((c.setBuf i { c.buf i with owner := none }).setUse u (.releasing i))
    | _ => none
  | .brelse =>
    match c.use u with
    | .releasing i => some ((c.brelse i).setUse u .out)
    | _ => none

end Cache

/-! ## Steps by cases -/

section

variable {c c' : Cache U α} {u : U} {a : CacheOp α} {i : Fin NBUF}

/-- The steps of a user, by cases. -/
inductive CacheStep [DecidableEq U] (c : Cache U α) (u : U) : CacheOp α → Cache U α → Prop
  | hit {b : ℕ} {i : Fin NBUF} : c.use u = .out → c.cached b = some i →
      CacheStep c u (.bget b) ((c.setBuf i { c.buf i with refcnt := (c.buf i).refcnt + 1 }).setUse u (.waiting i))
  | recycle {b : ℕ} {i : Fin NBUF} : c.use u = .out → c.cached b = none → (c.buf i).refcnt = 0 →
      CacheStep c u (.bget b)
        ((c.setBuf i { c.buf i with dev := ROOTDEV, blockno := b, valid := false, refcnt := 1 }).setUse u (.waiting i))
  | lock {i : Fin NBUF} : c.use u = .waiting i → (c.buf i).owner = none →
      CacheStep c u .lock ((c.setBuf i { c.buf i with owner := some u }).setUse u (.filling i))
  | filled {i : Fin NBUF} : c.use u = .filling i → (c.buf i).valid = true → CacheStep c u .fill (c.setUse u (.held i false))
  | fill {i : Fin NBUF} : c.use u = .filling i → (c.buf i).valid = false →
      CacheStep c u .fill
        ((c.setBuf i { c.buf i with data := c.disk (c.buf i).blockno, valid := true }).setUse u (.held i false))
  | modify {i : Fin NBUF} {d : Bool} {x : α} : c.use u = .held i d →
      CacheStep c u (.modify x) ((c.setBuf i { c.buf i with data := x }).setUse u (.held i true))
  | bwrite {i : Fin NBUF} {d : Bool} : c.use u = .held i d →
      CacheStep c u .bwrite ({ c with disk := update c.disk (c.buf i).blockno (c.buf i).data }.setUse u (.held i false))
  | unlock {i : Fin NBUF} {d : Bool} : c.use u = .held i d →
      CacheStep c u .unlock ((c.setBuf i { c.buf i with owner := none }).setUse u (.releasing i))
  | brelse {i : Fin NBUF} : c.use u = .releasing i → CacheStep c u .brelse ((c.brelse i).setUse u .out)

theorem CacheStep.of_op [DecidableEq U] (hs : c.op u a = some c') : CacheStep c u a c' := by
  cases a with
  | bget b =>
    simp only [Cache.op] at hs
    split_ifs at hs with hu
    unfold Cache.bget at hs
    split at hs
    · rename_i i hi
      cases hs
      exact .hit hu hi
    · rename_i hnone
      obtain ⟨i, hi, rfl⟩ := Option.map_eq_some_iff.mp hs
      exact .recycle hu hnone (by simpa using List.find?_some hi)
  | lock =>
    simp only [Cache.op] at hs
    split at hs
    · rename_i i hi
      split_ifs at hs with ho
      cases hs
      exact .lock hi ho
    · cases hs
  | fill =>
    simp only [Cache.op] at hs
    split at hs
    · rename_i i hi
      split_ifs at hs with hv <;> cases hs
      · exact .filled hi hv
      · exact .fill hi (by simpa using hv)
    · cases hs
  | modify x =>
    simp only [Cache.op] at hs
    split at hs <;> cases hs
    exact .modify ‹_›
  | bwrite =>
    simp only [Cache.op] at hs
    split at hs <;> cases hs
    exact .bwrite ‹_›
  | unlock =>
    simp only [Cache.op] at hs
    split at hs <;> cases hs
    exact .unlock ‹_›
  | brelse =>
    simp only [Cache.op] at hs
    split at hs <;> cases hs
    exact .brelse ‹_›

@[simp] theorem Cache.brelse_buf : (c.brelse i).buf = update c.buf i { c.buf i with refcnt := (c.buf i).refcnt - 1 } := by
  unfold Cache.brelse
  simp only
  split_ifs <;> rfl

@[simp] theorem Cache.brelse_use : (c.brelse i).use = c.use := by
  unfold Cache.brelse
  simp only
  split_ifs <;> rfl

@[simp] theorem Cache.brelse_disk : (c.brelse i).disk = c.disk := by
  unfold Cache.brelse
  simp only
  split_ifs <;> rfl

/-- **A buffer in use is not recycled**: it keeps its block, and its contents once it has them are changed by `modify` only. -/
theorem CacheStep.block [DecidableEq U] (hs : CacheStep c u a c') {j : Fin NBUF} (hj : (c.buf j).refcnt ≠ 0) :
    (c'.buf j).dev = (c.buf j).dev ∧ (c'.buf j).blockno = (c.buf j).blockno := by
  cases hs with
  | @recycle b i hu hc hi =>
    have hji : j ≠ i := by
      rintro rfl
      exact hj hi
    simp [update_of_ne hji]
  | filled | bwrite => exact ⟨rfl, rfl⟩
  | @hit _ i | @lock i | @fill i | @modify i | @unlock i | @brelse i =>
    rcases eq_or_ne j i with rfl | hji
    · simp
    · simp [update_of_ne hji]

/-! ## Counts and identities -/

/-- The buffer a user has a reference to. -/
def Use.ref : Use → Option (Fin NBUF)
  | out => none
  | waiting i | filling i | held i _ | releasing i => some i

/-- The buffer whose lock a user holds. -/
def Use.locked : Use → Option (Fin NBUF)
  | filling i | held i _ => some i
  | _ => none

end

/-- The invariant of the cache, with the pins of each buffer. -/
structure Cache.Ok [Fintype U] (c : Cache U α) (pin : Fin NBUF → ℕ) : Prop where
  all : ∀ i, i ∈ c.lru
  uniq : ∀ i j, (c.buf i).dev = ROOTDEV → (c.buf j).dev = ROOTDEV → (c.buf i).blockno = (c.buf j).blockno → i = j
  refcnt : ∀ i, (c.buf i).refcnt = count (fun x => Use.ref x = some i) c.use + pin i
  owner : ∀ i u, (c.buf i).owner = some u ↔ (c.use u).locked = some i
  dev : ∀ i, (c.buf i).refcnt ≠ 0 → (c.buf i).dev = ROOTDEV
  valid : ∀ u i d, c.use u = .held i d → (c.buf i).valid = true

section Proofs

variable [Fintype U] {c c' : Cache U α} {u v : U} {a : CacheOp α} {i j : Fin NBUF} {b : ℕ} {pin : Fin NBUF → ℕ}

theorem Cache.ok_binit (data : Fin NBUF → α) (disk : ℕ → α) : (binit data disk : Cache U α).Ok fun _ => 0 where
  all := fun i => by simp [binit, List.mem_finRange]
  uniq := fun i j hi => by simp [binit, ROOTDEV] at hi
  refcnt := fun i => by
    rw [count_eq_zero _ fun _ => by simp [binit, Use.ref]]
    rfl
  owner := fun i u => by simp [binit, Use.locked]
  dev := fun i hi => absurd rfl hi
  valid := fun u i d hu => by simp [binit] at hu

namespace Cache.Ok

/-- A buffer somebody refers to. -/
theorem refcnt_of_ref (h : c.Ok pin) (hu : (c.use u).ref = some i) : (c.buf i).refcnt ≠ 0 := by
  have hpos := count_pos (fun x => Use.ref x = some i) (f := c.use) hu
  rw [h.refcnt i]
  omega

theorem refcnt_of_pin (h : c.Ok pin) (hp : pin i ≠ 0) : (c.buf i).refcnt ≠ 0 := by
  rw [h.refcnt i]
  omega

/-- `bget` finds the block if it is there. -/
theorem cached_ne_none (h : c.Ok pin) (hd : (c.buf i).dev = ROOTDEV) : c.cached (c.buf i).blockno ≠ none := by
  intro hn
  have := List.find?_eq_none.mp hn i (h.all i)
  simp [hd] at this

/-- Two users do not hold the lock of one buffer. -/
theorem locked_inj (h : c.Ok pin) (hu : (c.use u).locked = some i) (hv : (c.use v).locked = some i) : u = v :=
  Option.some.inj (((h.owner i u).mpr hu).symm.trans ((h.owner i v).mpr hv))

/-- A change of the pins of a buffer. -/
theorem repin (h : c.Ok pin) {n q : ℕ} (hi : (c.buf i).dev = ROOTDEV) (hn : n + pin i = (c.buf i).refcnt + q) :
    (c.setBuf i { c.buf i with refcnt := n }).Ok (update pin i q) := by
  have hother : ∀ j, ((update c.buf i { c.buf i with refcnt := n } j)).dev = (c.buf j).dev ∧
      (update c.buf i { c.buf i with refcnt := n } j).blockno = (c.buf j).blockno ∧
      (update c.buf i { c.buf i with refcnt := n } j).owner = (c.buf j).owner ∧
      (update c.buf i { c.buf i with refcnt := n } j).valid = (c.buf j).valid := fun j =>
    ⟨update_keeps (g := Buf.dev) (by rfl) j, update_keeps (g := Buf.blockno) (by rfl) j, update_keeps (g := Buf.owner) (by rfl) j,
      update_keeps (g := Buf.valid) (by rfl) j⟩
  refine ⟨h.all, fun j k => ?_, fun j => ?_, fun j v => ?_, fun j hj => ?_, fun v j d hv => ?_⟩
  · simp only [setBuf_buf, hother]
    exact h.uniq j k
  · have hold := h.refcnt j
    show (update c.buf i _ j).refcnt = count (fun x => Use.ref x = some j) c.use + update pin i q j
    rcases eq_or_ne j i with rfl | hji
    · rw [update_self, update_self]
      show n = _
      omega
    · rw [update_of_ne hji, update_of_ne hji, hold]
  · simp only [setBuf_buf, setBuf_use, hother]
    exact h.owner j v
  · simp only [setBuf_buf, hother] at hj ⊢
    rcases eq_or_ne j i with rfl | hji
    · exact hi
    · rw [update_of_ne hji] at hj
      exact h.dev j hj
  · simp only [setBuf_buf, hother]
    exact h.valid v j d hv

theorem bpin (h : c.Ok pin) (hi : (c.buf i).dev = ROOTDEV) : (c.bpin i).Ok (update pin i (pin i + 1)) :=
  h.repin hi (by omega)

theorem bunpin (h : c.Ok pin) (hp : pin i ≠ 0) : (c.bunpin i).Ok (update pin i (pin i - 1)) := by
  have hr := h.refcnt_of_pin hp
  exact h.repin (h.dev i hr) (by omega)

variable [DecidableEq U]

/-- A step of user `u` on buffer `i`, which it refers to before or after. -/
theorem set (h : c.Ok pin) {l : List (Fin NBUF)} (hall : ∀ j, j ∈ l)
    (hu : ∀ j ≠ i, (c.use u).ref ≠ some j) (hy : ∀ j ≠ i, y.ref ≠ some j)
    (huniq : x.dev = ROOTDEV → ∀ j ≠ i, (c.buf j).dev = ROOTDEV → (c.buf j).blockno ≠ x.blockno)
    (href : x.refcnt + (if (c.use u).ref = some i then 1 else 0) = (c.buf i).refcnt + if y.ref = some i then 1 else 0)
    (howner : ∀ v, x.owner = some v ↔ (update c.use u y v).locked = some i) (hdev : x.refcnt ≠ 0 → x.dev = ROOTDEV)
    (hvalid : ∀ v d, update c.use u y v = .held i d → x.valid = true) :
    ({ buf := update c.buf i x, lru := l, disk := d, use := update c.use u y } : Cache U α).Ok pin where
  all := hall
  uniq := by
    intro j k hj hk hb
    simp only at hj hk hb
    rcases eq_or_ne j i with rfl | hji <;> rcases eq_or_ne k j with hkj | hkj
    · exact hkj.symm
    · rw [update_self] at hj hb
      rw [update_of_ne hkj] at hk hb
      exact absurd hb.symm (huniq hj k hkj hk)
    · exact hkj.symm
    · rw [update_of_ne hji] at hj hb
      rcases eq_or_ne k i with rfl | hki
      · rw [update_self] at hk hb
        exact absurd hb (huniq hk j hji hj)
      · rw [update_of_ne hki] at hk hb
        exact h.uniq j k hj hk hb
  refcnt := by
    intro j
    have hup := count_update (fun z => Use.ref z = some j) c.use u y
    have hold := h.refcnt j
    simp only
    rcases eq_or_ne j i with rfl | hji
    · rw [update_self]
      omega
    · rw [update_of_ne hji]
      rw [if_neg (hu j hji), if_neg (hy j hji)] at hup
      omega
  owner := by
    intro j v
    simp only
    rcases eq_or_ne j i with rfl | hji
    · rw [update_self]
      exact howner v
    · rw [update_of_ne hji, h.owner j v]
      rcases eq_or_ne v u with rfl | hvu
      swap
      · rw [update_of_ne hvu]
      rw [update_self]
      have hlock : ∀ z : Use, z.ref ≠ some j → z.locked ≠ some j := by
        intro z hz hl
        cases z <;> simp_all [Use.ref, Use.locked]
      exact iff_of_false (hlock _ (hu j hji)) (hlock _ (hy j hji))
  dev := by
    intro j hj
    simp only at hj ⊢
    rcases eq_or_ne j i with rfl | hji
    · rw [update_self] at hj ⊢
      exact hdev hj
    · rw [update_of_ne hji] at hj ⊢
      exact h.dev j hj
  valid := by
    intro v j e hv
    simp only at hv ⊢
    rcases eq_or_ne j i with rfl | hji
    · rw [update_self]
      exact hvalid v e hv
    · rw [update_of_ne hji]
      rcases eq_or_ne v u with rfl | hvu
      · rw [update_self] at hv
        exact absurd (by rw [hv]; rfl) (hy j hji)
      · rw [update_of_ne hvu] at hv
        exact h.valid v j e hv

/-- A step keeps the invariant if it leaves block, count and reference alone. -/
theorem keep (h : c.Ok pin) (hu : (c.use u).ref = some i) (hy : y.ref = some i)
    (hx : x.dev = (c.buf i).dev ∧ x.blockno = (c.buf i).blockno ∧ x.refcnt = (c.buf i).refcnt)
    (howner : ∀ v, x.owner = some v ↔ (update c.use u y v).locked = some i)
    (hvalid : ∀ v d, update c.use u y v = .held i d → x.valid = true) :
    ({ buf := update c.buf i x, lru := c.lru, disk := d, use := update c.use u y } : Cache U α).Ok pin := by
  obtain ⟨hdev, hblock, hcount⟩ := hx
  have hroot : (c.buf i).dev = ROOTDEV := h.dev i (h.refcnt_of_ref hu)
  refine h.set h.all (fun j hj => ?_) (fun j hj => ?_) (fun _ j hj hjd hjb => ?_) ?_ howner (fun _ => hdev.trans hroot) hvalid
  · rw [hu]
    exact fun he => hj (Option.some.inj he).symm
  · rw [hy]
    exact fun he => hj (Option.some.inj he).symm
  · exact hj (h.uniq j i hjd hroot (hjb.trans hblock))
  · rw [hcount, if_pos hu, if_pos hy]

/-- The lock of a buffer, when its holder stays the same. -/
theorem owner_keep (h : c.Ok pin) (hy : y.locked = (c.use u).locked) (v : U) :
    (c.buf i).owner = some v ↔ (update c.use u y v).locked = some i := by
  rw [h.owner i v]
  rcases eq_or_ne v u with rfl | hvu
  · rw [update_self, hy]
  · rw [update_of_ne hvu]

/-- A user with the lock is the only one that has the buffer back from `bread`. -/
theorem held_of_locked (h : c.Ok pin) (hu : (c.use u).locked = some i)
    (hv : update c.use u y v = .held i e) : v = u := by
  by_contra hvu
  rw [update_of_ne hvu] at hv
  exact hvu (h.locked_inj (by rw [hv]; rfl) hu)

/-- **The steps of a user keep the invariant.** -/
theorem step (h : c.Ok pin) (hs : CacheStep c u a c') : c'.Ok pin := by
  cases hs with
  | @hit b i hu hc =>
    have hi := List.find?_some hc
    simp only [decide_eq_true_eq] at hi
    refine h.set h.all (by simp [hu, Use.ref]) (fun j hj => ?_) (fun _ j hj hjd hjb => ?_) ?_ (h.owner_keep (by simp [hu, Use.locked]))
      (fun _ => hi.1) (fun v d hv => ?_)
    · simpa [Use.ref] using hj.symm
    · exact hj (h.uniq j i hjd hi.1 hjb)
    · simp [hu, Use.ref]
    · rcases eq_or_ne v u with rfl | hvu
      · rw [update_self] at hv
        cases hv
      · rw [update_of_ne hvu] at hv
        exact h.valid v i d hv
  | @recycle b i hu hc hi =>
    have hnone : ∀ v, (c.use v).ref ≠ some i := fun v hv => h.refcnt_of_ref hv hi
    refine h.set h.all (by simp [hu, Use.ref]) (fun j hj => ?_) (fun _ j hj hjd hjb => ?_) ?_ (h.owner_keep (by simp [hu, Use.locked]))
      (fun _ => rfl) (fun v d hv => ?_)
    · simpa [Use.ref] using hj.symm
    · subst hjb
      exact h.cached_ne_none hjd hc
    · simp [hu, Use.ref, hi]
    · rcases eq_or_ne v u with rfl | hvu
      · rw [update_self] at hv
        cases hv
      · rw [update_of_ne hvu] at hv
        exact absurd (by rw [hv]; rfl) (hnone v)
  | @lock i hu ho =>
    refine h.keep (by rw [hu]; rfl) rfl ⟨rfl, rfl, rfl⟩ (fun v => ?_) (fun v d hv => ?_)
    · rcases eq_or_ne v u with rfl | hvu
      · simp [Use.locked]
      · rw [update_of_ne hvu, ← h.owner i v, ho]
        simpa using hvu.symm
    · rcases eq_or_ne v u with rfl | hvu
      · rw [update_self] at hv
        cases hv
      · rw [update_of_ne hvu] at hv
        exact h.valid v i d hv
  | @filled i hu hv =>
    have hbuf : c.buf = update c.buf i (c.buf i) := (update_eq_self i c.buf).symm
    have hk := h.keep (x := c.buf i) (y := .held i false) (d := c.disk) (u := u) (by rw [hu]; rfl) rfl ⟨rfl, rfl, rfl⟩
      (h.owner_keep (by rw [hu]; rfl)) (fun _ _ _ => hv)
    rw [← hbuf] at hk
    exact hk
  | @fill i hu hv =>
    exact h.keep (by rw [hu]; rfl) rfl ⟨rfl, rfl, rfl⟩ (h.owner_keep (by rw [hu]; rfl)) (fun _ _ _ => rfl)
  | @modify i d x hu =>
    exact h.keep (by rw [hu]; rfl) rfl ⟨rfl, rfl, rfl⟩ (h.owner_keep (by rw [hu]; rfl)) (fun _ _ _ => h.valid u i d hu)
  | @bwrite i d hu =>
    have hbuf : c.buf = update c.buf i (c.buf i) := (update_eq_self i c.buf).symm
    have hk := h.keep (x := c.buf i) (y := .held i false) (d := update c.disk (c.buf i).blockno (c.buf i).data) (u := u)
      (by rw [hu]; rfl) rfl ⟨rfl, rfl, rfl⟩ (h.owner_keep (by rw [hu]; rfl)) (fun _ _ _ => h.valid u i d hu)
    rw [← hbuf] at hk
    exact hk
  | @unlock i d hu =>
    refine h.keep (by rw [hu]; rfl) rfl ⟨rfl, rfl, rfl⟩ (fun v => ?_) (fun v e hv => ?_)
    · refine iff_of_false (by simp) ?_
      rcases eq_or_ne v u with rfl | hvu
      · simp [Use.locked]
      · rw [update_of_ne hvu]
        exact fun hv => hvu (h.locked_inj hv (by rw [hu]; rfl))
    · obtain rfl := h.held_of_locked (by rw [hu]; rfl) hv
      rw [update_self] at hv
      cases hv
  | @brelse i hu =>
    have hroot : (c.buf i).dev = ROOTDEV := h.dev i (h.refcnt_of_ref (by rw [hu]; rfl))
    have hpos := h.refcnt_of_ref (u := u) (i := i) (by rw [hu]; rfl)
    have hk : ∀ l : List (Fin NBUF), (∀ j, j ∈ l) →
        ({ buf := update c.buf i { c.buf i with refcnt := (c.buf i).refcnt - 1 }, lru := l, disk := c.disk,
           use := update c.use u .out } : Cache U α).Ok pin := by
      intro l hl
      refine h.set hl (fun j hj => ?_) (by simp [Use.ref]) (fun _ j hj hjd hjb => ?_) ?_ (h.owner_keep (by rw [hu]; rfl))
        (fun _ => hroot) (fun v d hv => ?_)
      · simpa [hu, Use.ref] using hj.symm
      · exact hj (h.uniq j i hjd hroot hjb)
      · simp only [hu, Use.ref, if_true, reduceCtorEq, if_false]
        omega
      · rcases eq_or_ne v u with rfl | hvu
        · rw [update_self] at hv
          cases hv
        · rw [update_of_ne hvu] at hv
          exact h.valid v i d hv
    unfold Cache.brelse
    simp only
    split_ifs
    · refine hk _ fun j => ?_
      rcases eq_or_ne j i with rfl | hji
      · exact List.mem_cons_self
      · exact List.mem_cons_of_mem _ ((List.mem_erase_of_ne hji).mpr (h.all j))
    · exact hk _ h.all

/-- What the data have been written to does not matter here. -/
theorem clean (h : c.Ok pin) {d : Bool} (hu : c.use u = .held i d) : (c.setUse u (.held i e)).Ok pin := by
  have hbuf : c.buf = update c.buf i (c.buf i) := (update_eq_self i c.buf).symm
  have hk := h.keep (x := c.buf i) (y := .held i e) (d := c.disk) (u := u) (by rw [hu]; rfl) rfl ⟨rfl, rfl, rfl⟩
    (h.owner_keep (by rw [hu]; rfl)) (fun _ _ _ => h.valid u i d hu)
  rw [← hbuf] at hk
  exact hk

end Cache.Ok

/-- The block of the buffer a user refers to. -/
def Cache.block (c : Cache U α) (u : U) : Option ℕ := (c.use u).ref.map fun i => (c.buf i).blockno

omit [Fintype U] in
theorem Cache.block_congr (hu : (c'.use u).ref = (c.use u).ref) (hb : ∀ j, (c'.buf j).blockno = (c.buf j).blockno) :
    c'.block u = c.block u := by
  simp only [Cache.block, hu, hb]

omit [Fintype U] in
theorem CacheStep.use_of_ne [DecidableEq U] (hs : CacheStep c u a c') (hv : v ≠ u) : c'.use v = c.use v := by
  cases hs <;> simp [update_of_ne hv]

/-- What becomes of the block of a user in its own step. -/
@[simp] def CacheOp.blockAfter (a : CacheOp α) (o : Option ℕ) : Option ℕ :=
  match a with
  | .bget b => some b
  | .brelse => none
  | _ => o

omit [Fintype U] in
theorem CacheStep.block_self [DecidableEq U] (hs : CacheStep c u a c') : c'.block u = a.blockAfter (c.block u) := by
  cases hs with
  | @hit b i hu hc =>
    have hi := List.find?_some hc
    simp only [decide_eq_true_eq] at hi
    simp [Cache.block, Use.ref, hi.2]
  | recycle | brelse => simp [Cache.block, Use.ref]
  | lock hu | filled hu | fill hu | modify hu | bwrite hu | unlock hu => simp [Cache.block, Use.ref, hu]

/-- A step leaves the blocks of the other users alone. -/
theorem Cache.Ok.block_of_ne [DecidableEq U] (h : c.Ok pin) (hs : CacheStep c u a c') (hv : v ≠ u) :
    c'.block v = c.block v := by
  unfold Cache.block
  rw [hs.use_of_ne hv]
  cases hr : (c.use v).ref with
  | none => rfl
  | some i => exact congrArg some (hs.block (h.refcnt_of_ref hr)).2

end Proofs

end Xv6Mlfq.Fs
