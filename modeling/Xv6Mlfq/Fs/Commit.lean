import Xv6Mlfq.Lib.Bytes
import Xv6Mlfq.Lib.Path
import Xv6Mlfq.Lib.Store
import Xv6Mlfq.Param
import Mathlib.Data.List.GetD

/-!
# Xv6Mlfq.Fs.Commit — the log on disk

`commit()` and `recover_from_log()` of `log.c`, one block write a step, on a machine that may crash between any two of them
and again during recovery.  The disk keeps what has been written; memory is lost.

* `step`: the block writes of `write_log`, `write_head`, `install_trans` and `recover_from_log`, in program order.
* `Recoverable G d F`: a recovery that runs to completion makes the home blocks of disk `d` equal to `F`.
* `crash_atomic`: they are those of the transactions whose commit point was passed, applied in order.
-/

namespace Xv6Mlfq.Fs

open Function Store

/-! ## The code -/

/-- Where the log lies: `log.start` and `log.size`. -/
structure Geometry where
  start : ℕ
  size : ℕ
  pos : 0 < size

/-- Block `b` belongs to the log. -/
def Geometry.InLog (G : Geometry) (b : ℕ) : Prop := G.start ≤ b ∧ b < G.start + G.size

instance (G : Geometry) (b : ℕ) : Decidable (G.InLog b) := inferInstanceAs (Decidable (_ ∧ _))

/-- `struct logheader`, in memory. -/
structure Header where
  n : ℕ
  block : ℕ → ℕ

/-- Blocks that can be read and written as a `struct logheader`. -/
class HeaderBlock (α : Type*) where
  /-- `lh->n` -/
  n : α → ℕ
  /-- `lh->block[i]` -/
  block : α → ℕ → ℕ
  /-- `lh->n = n`, and `lh->block[i] = block[i]` for `i < n` -/
  put : Header → α → α
  n_put : ∀ lh x, lh.n ≤ LOGSIZE → n (put lh x) = lh.n
  block_put : ∀ lh x i, lh.n ≤ LOGSIZE → i < lh.n → lh.block i < 2 ^ 32 → block (put lh x) i = lh.block i
  put_self : ∀ lh x, lh.n = n x → (∀ i < lh.n, lh.block i = block x i) → put lh x = x

/-- A transaction: new contents for distinct blocks outside the log, no more than the log can hold.  The number of a block is a
`uint`. -/
structure Txn (G : Geometry) (α : Type*) where
  writes : List (ℕ × α)
  nodup : (writes.map Prod.fst).Nodup
  home : ∀ b ∈ writes.map Prod.fst, ¬ G.InLog b
  uint : ∀ b ∈ writes.map Prod.fst, b < 2 ^ 32
  le : writes.length ≤ LOGSIZE
  lt : writes.length < G.size

/-- The block write to come, in `commit()` or `recover_from_log()`. -/
inductive Pc
  /- the machine is down; nothing is being committed -/
  | off | idle
  /- `write_log`; the `write_head` that commits; `install_trans`; the `write_head` that clears the log -/
  | writeLog (tail : ℕ) | writeHead | install (tail : ℕ) | clearHead
  deriving DecidableEq, Repr

variable {α : Type*} {b i : ℕ}

/-- The disk, `log.lh`, the contents of the blocks as the buffer cache has them when `commit` is called, and the program
counter. -/
structure LogState (α : Type*) where
  disk : ℕ → α
  lh : Header
  cache : ℕ → α
  pc : Pc

inductive LogEvent (G : Geometry) (α : Type*)
  /- `commit()` is called -/
  | commit (t : Txn G α)
  /- the next block write -/
  | write
  | crash
  /- the machine starts: `initlog` -/
  | boot

/-- The header of a transaction. -/
def Txn.header {G : Geometry} (t : Txn G α) : Header where
  n := t.writes.length
  block := fun i => (t.writes.map Prod.fst).getD i 0

namespace LogState

/-- `bwrite` -/
def bwrite (s : LogState α) (b : ℕ) (x : α) : LogState α := { s with disk := update s.disk b x }

/-- The loop of `write_log`. -/
def writeLogFrom (s : LogState α) (tail : ℕ) : LogState α :=
  { s with pc := if tail < s.lh.n then .writeLog tail else .writeHead }

/-- The loop of `install_trans`, and `log.lh.n = 0` after it. -/
def installFrom (s : LogState α) (tail : ℕ) : LogState α :=
  if tail < s.lh.n then { s with pc := .install tail } else { s with lh := { s.lh with n := 0 }, pc := .clearHead }

@[simp] theorem bwrite_disk {s : LogState α} {x : α} : (s.bwrite b x).disk = update s.disk b x := rfl

@[simp] theorem bwrite_lh {s : LogState α} {x : α} : (s.bwrite b x).lh = s.lh := rfl

variable [HeaderBlock α]

/-- `read_head` -/
def readHead (G : Geometry) (s : LogState α) : LogState α :=
  let x := s.disk G.start
  { s with lh := { n := HeaderBlock.n x, block := fun i => if i < HeaderBlock.n x then HeaderBlock.block x i else 0 } }

/-- `write_head` -/
def writeHead (G : Geometry) (s : LogState α) : LogState α :=
  s.bwrite G.start (HeaderBlock.put s.lh (s.disk G.start))

/-- The next block write. -/
def write (G : Geometry) (s : LogState α) : Option (LogState α) :=
  match s.pc with
  | .writeLog tail => some ((s.bwrite (G.start + tail + 1) (s.cache (s.lh.block tail))).writeLogFrom (tail + 1))
  | .writeHead => some ((s.writeHead G).installFrom 0)
  | .install tail => some ((s.bwrite (s.lh.block tail) (s.disk (G.start + tail + 1))).installFrom (tail + 1))
  | .clearHead => some { s.writeHead G with pc := .idle }
  | _ => none

/-- One step. -/
def step (G : Geometry) (s : LogState α) : LogEvent G α → Option (LogState α)
  | .commit t =>
    if s.pc = .idle then
      let s := { s with lh := t.header, cache := apply t.writes s.disk }
      some (if 0 < s.lh.n then s.writeLogFrom 0 else s)
    else none
  | .write => s.write G
  | .crash => if s.pc = .off then none else some { s with pc := .off }
  | .boot => if s.pc = .off then some ((s.readHead G).installFrom 0) else none

end LogState

/-! ## Runs -/

/-- The transaction that `log.lh` and the buffer cache hold. -/
def LogState.txn (s : LogState α) : List (ℕ × α) :=
  (List.range s.lh.n).map fun i => (s.lh.block i, s.cache (s.lh.block i))

variable {G : Geometry}

/-- A transaction whose commit point is passed in a step. -/
def committedAt (x : LogState α × LogEvent G α) : Option (List (ℕ × α)) :=
  match x.1.pc, x.2 with
  | .writeHead, .write => some x.1.txn
  | _, _ => none

/-- The transactions whose commit point has been passed, in order. -/
def committed (h : List (LogState α × LogEvent G α)) : List (List (ℕ × α)) := h.reverse.filterMap committedAt

/-- A transaction, other than the empty one, that is passed to `commit()` in a step. -/
def passedAt (x : LogState α × LogEvent G α) : Option (List (ℕ × α)) :=
  match x.2 with
  | .commit t => if t.writes = [] then none else some t.writes
  | _ => none

/-- The transactions passed to `commit()`, in order. -/
def passed (h : List (LogState α × LogEvent G α)) : List (List (ℕ × α)) := h.reverse.filterMap passedAt

def LogEvent.isCommit : LogEvent G α → Bool
  | .commit _ => true
  | _ => false

def LogEvent.isCrash : LogEvent G α → Bool
  | .crash => true
  | _ => false

/-- The machine that has not been started yet, with a disk whose log is empty. -/
structure Fresh [HeaderBlock α] (G : Geometry) (s : LogState α) : Prop where
  off : s.pc = .off
  empty : HeaderBlock.n (s.disk G.start) = 0

section Proofs

variable {s s' s0 : LogState α} {e : LogEvent G α} {h : List (LogState α × LogEvent G α)} {d F : ℕ → α} {tail b : ℕ} {t : Txn G α} {x : LogState α × LogEvent G α}

theorem committed_cons : committed (x :: h) = committed h ++ (committedAt x).toList := by
  unfold committed
  cases hx : committedAt x <;> simp [hx]

theorem passed_cons : passed (x :: h) = passed h ++ (passedAt x).toList := by
  unfold passed
  cases hx : passedAt x <;> simp [hx]

/-- `log.lh` and the buffer cache hold transaction `t`. -/
structure Loaded (s : LogState α) (t : Txn G α) : Prop where
  lh : s.lh = t.header
  cache : ∀ i (hi : i < t.writes.length), s.cache (t.writes.get ⟨i, hi⟩).1 = (t.writes.get ⟨i, hi⟩).2

theorem Txn.header_block (t : Txn G α) (hi : i < t.writes.length) :
    t.header.block i = (t.writes.get ⟨i, hi⟩).1 ∧ t.header.block i < 2 ^ 32 := by
  have heq : t.header.block i = (t.writes.get ⟨i, hi⟩).1 := by simp [Txn.header, hi]
  rw [heq]
  exact ⟨rfl, t.uint _ (List.mem_map_of_mem (List.get_mem _ _))⟩

theorem Loaded.block (hl : Loaded s t) (hi : i < t.writes.length) :
    s.lh.block i = (t.writes.get ⟨i, hi⟩).1 := by
  rw [hl.lh]
  exact (t.header_block hi).1

theorem Loaded.txn (hl : Loaded s t) : s.txn = t.writes := by
  apply List.ext_getElem
  · simp [LogState.txn, hl.lh, Txn.header]
  · intro i hi hi'
    simp only [LogState.txn, List.getElem_map, List.getElem_range]
    rw [hl.block hi', hl.cache i hi']
    rfl

/-! ## The order of transactions -/

/-- No transaction is passed to `commit()` after a crash. -/
def CommitsFirst (h : List (LogState α × LogEvent G α)) : Prop :=
  h.Pairwise fun x y => ¬ (x.2.isCommit = true ∧ y.2.isCrash = true)

/-- Between the call of `commit()` and the commit point. -/
def Pc.loading : Pc → Bool
  | writeLog _ | writeHead => true
  | _ => false

/-- How the transactions committed lie in those passed to `commit()`. -/
structure InOrder (h : List (LogState α × LogEvent G α)) (s : LogState α) : Prop where
  isPrefix : committed h <+: passed h
  loading : s.pc.loading = true → passed h = committed h ++ [s.txn]
  done : s.pc.loading = false → (∀ x ∈ h, x.2.isCrash = false) → passed h = committed h

theorem InOrder.of_eq (hpc : s.pc.loading = false) (he : passed h = committed h) : InOrder h s where
  isPrefix := he.symm ▸ List.prefix_rfl
  loading := by
    intro hl
    cases hl.symm.trans hpc
  done := fun _ _ => he

/-- A step in which no transaction is passed to `commit()` or committed. -/
theorem InOrder.quiet (ho : InOrder h s) (hc : committedAt (s, e) = none) (hp : passedAt (s, e) = none)
    (hl : s'.pc.loading = true → s.pc.loading = true ∧ s'.txn = s.txn)
    (hd : s'.pc.loading = false → e.isCrash = true ∨ s.pc.loading = false) : InOrder ((s, e) :: h) s' := by
  have hc' : committed ((s, e) :: h) = committed h := by rw [committed_cons, hc, Option.toList_none, List.append_nil]
  have hp' : passed ((s, e) :: h) = passed h := by rw [passed_cons, hp, Option.toList_none, List.append_nil]
  refine ⟨by rw [hc', hp']; exact ho.isPrefix, fun hl' => ?_, fun hl' hx => ?_⟩
  · obtain ⟨hload, htxn⟩ := hl hl'
    rw [hc', hp', htxn]
    exact ho.loading hload
  · rw [hc', hp']
    rcases hd hl' with hcrash | hload
    · cases hcrash.symm.trans (hx _ List.mem_cons_self)
    · exact ho.done hload fun x hx' => hx x (List.mem_cons_of_mem _ hx')

theorem InOrder.commit (ho : InOrder h s) (t : Txn G α) (hpc : s.pc = .idle) (hx : ∀ x ∈ h, x.2.isCrash = false)
    {s1 : LogState α} (hs1 : s1 = { s with lh := t.header, cache := apply t.writes s.disk }) :
    InOrder ((s, .commit t) :: h) (if 0 < s1.lh.n then s1.writeLogFrom 0 else s1) := by
  have heq := ho.done (by rw [hpc]; rfl) hx
  have hc : committedAt (s, .commit t) = none := by simp [committedAt]
  have hl : Loaded s1 t := by
    subst hs1
    exact ⟨rfl, fun i hi => apply_of_mem t.nodup (List.get_mem _ _)⟩
  have hn : s1.lh.n = t.writes.length := by rw [hl.lh]; rfl
  split_ifs with h0
  · have hne : t.writes ≠ [] := List.length_pos_iff.mp (by omega)
    have hpass : passed ((s, .commit t) :: h) = committed h ++ [t.writes] := by
      rw [passed_cons, heq]
      simp [passedAt, hne]
    have hcomm : committed ((s, .commit t) :: h) = committed h := by simp [committed_cons, hc]
    have hpc' : (s1.writeLogFrom 0).pc = .writeLog 0 := if_pos h0
    refine ⟨by rw [hpass, hcomm]; exact List.prefix_append _ _, fun _ => ?_, by simp [hpc', Pc.loading]⟩
    rw [hpass, hcomm, ← hl.txn]
    rfl
  · have hnil : t.writes = [] := List.eq_nil_of_length_eq_zero (by omega)
    have hpc' : s1.pc = .idle := by rw [hs1]; exact hpc
    refine .of_eq (by rw [hpc']; rfl) ?_
    rw [passed_cons, committed_cons, hc, heq]
    simp [passedAt, hnil]

theorem loading_installFrom : (s.installFrom tail).pc.loading = false := by
  unfold LogState.installFrom
  split_ifs <;> rfl

variable [HeaderBlock α]

/-! ## The log area -/

theorem Geometry.inLog_start : G.InLog G.start := by
  have := G.pos
  unfold Geometry.InLog
  omega

theorem Geometry.inLog_slot (ht : tail + 1 < G.size) : G.InLog (G.start + tail + 1) := by
  unfold Geometry.InLog
  omega

/-- A disk from which recovery makes `F` of the home blocks: those listed in the header have their contents in the log, the
others are in place. -/
structure Recoverable (G : Geometry) (d F : ℕ → α) : Prop where
  lt : HeaderBlock.n (d G.start) < G.size
  le : HeaderBlock.n (d G.start) ≤ LOGSIZE
  outside : ∀ i < HeaderBlock.n (d G.start), ¬ G.InLog (HeaderBlock.block (d G.start) i)
  logged : ∀ i < HeaderBlock.n (d G.start), d (G.start + i + 1) = F (HeaderBlock.block (d G.start) i)
  rest : ∀ b, ¬ G.InLog b → (∀ i < HeaderBlock.n (d G.start), HeaderBlock.block (d G.start) i ≠ b) → d b = F b

/-- The home blocks of the disk. -/
def Home (G : Geometry) (d F : ℕ → α) : Prop := ∀ b, ¬ G.InLog b → d b = F b

theorem recoverable_of_empty (hn : HeaderBlock.n (d G.start) = 0) (hF : Home G d F) : Recoverable G d F where
  lt := by
    rw [hn]
    exact G.pos
  le := by omega
  outside := by
    intro i hi
    omega
  logged := by
    intro i hi
    omega
  rest := fun b hb _ => hF b hb

theorem Recoverable.home (hr : Recoverable G d F) (hn : HeaderBlock.n (d G.start) = 0) : Home G d F := by
  intro b hb
  apply hr.rest b hb
  intro i hi
  omega

/-- Writing into the log, while it is empty. -/
theorem Recoverable.write_slot {x : α} (hr : Recoverable G d F) (hn : HeaderBlock.n (d G.start) = 0)
    (ht : tail + 1 < G.size) : HeaderBlock.n (update d (G.start + tail + 1) x G.start) = 0 ∧
      Recoverable G (update d (G.start + tail + 1) x) F := by
  have hstart : update d (G.start + tail + 1) x G.start = d G.start := by
    apply update_of_ne
    omega
  have hn' : HeaderBlock.n (update d (G.start + tail + 1) x G.start) = 0 := by rw [hstart, hn]
  refine ⟨hn', recoverable_of_empty hn' fun b hb => ?_⟩
  rw [update_of_ne, hr.home hn b hb]
  rintro rfl
  exact hb (Geometry.inLog_slot ht)

/-- Installing a block. -/
theorem Recoverable.install (hr : Recoverable G d F) (hi : i < HeaderBlock.n (d G.start)) :
    Recoverable G (update d (HeaderBlock.block (d G.start) i) (d (G.start + i + 1))) F := by
  have hlt := hr.lt
  have hout := hr.outside i hi
  have hlog : ∀ b, G.InLog b → update d (HeaderBlock.block (d G.start) i) (d (G.start + i + 1)) b = d b := by
    intro b hb
    apply update_of_ne
    rintro rfl
    exact hout hb
  have hstart := hlog _ Geometry.inLog_start
  refine ⟨by rwa [hstart], by rw [hstart]; exact hr.le, by rw [hstart]; exact hr.outside, ?_, ?_⟩
  · rw [hstart]
    intro k hk
    rw [hlog _ (Geometry.inLog_slot (by omega)), hr.logged k hk]
  · rw [hstart]
    intro b hb hne
    rw [update_of_ne (hne i hi).symm, hr.rest b hb hne]

/-- The header of transaction `t` reaches the disk. -/
theorem Recoverable.commit (hr : Recoverable G d F) (hn : HeaderBlock.n (d G.start) = 0) (t : Txn G α)
    (hlog : ∀ i (hi : i < t.writes.length), d (G.start + i + 1) = (t.writes.get ⟨i, hi⟩).2) :
    Recoverable G (update d G.start (HeaderBlock.put t.header (d G.start))) (apply t.writes F) := by
  have hput : HeaderBlock.n (HeaderBlock.put t.header (d G.start)) = t.writes.length :=
    HeaderBlock.n_put t.header _ t.le
  have hblock : ∀ i (hi : i < t.writes.length),
      HeaderBlock.block (HeaderBlock.put t.header (d G.start)) i = (t.writes.get ⟨i, hi⟩).1 := by
    intro i hi
    obtain ⟨hb, hlt⟩ := t.header_block hi
    rw [HeaderBlock.block_put t.header _ i t.le hi hlt, hb]
  have hmem : ∀ i (hi : i < t.writes.length), (t.writes.get ⟨i, hi⟩).1 ∈ t.writes.map Prod.fst := fun i hi =>
    List.mem_map_of_mem (List.get_mem _ _)
  have hlt := t.lt
  refine ⟨?_, ?_, ?_, ?_, ?_⟩ <;> rw [update_self, hput]
  · exact t.lt
  · exact t.le
  · intro i hi
    rw [hblock i hi]
    exact t.home _ (hmem i hi)
  · intro i hi
    rw [hblock i hi, update_of_ne (by omega), hlog i hi]
    exact (apply_of_mem t.nodup (List.get_mem _ _)).symm
  · intro b hb hne
    have hb' : b ∉ t.writes.map Prod.fst := by
      intro hmem
      obtain ⟨w, hw, rfl⟩ := List.mem_map.mp hmem
      obtain ⟨i, rfl⟩ := List.get_of_mem hw
      exact hne i.val i.isLt (hblock i.val i.isLt)
    rw [apply_of_notMem hb', update_of_ne, hr.home hn b hb]
    rintro rfl
    exact hb Geometry.inLog_start

/-- The log is cleared. -/
theorem Recoverable.clear {lh : Header} (hlh : lh.n = 0) (hF : Home G d F) :
    HeaderBlock.n (update d G.start (HeaderBlock.put lh (d G.start)) G.start) = 0 ∧
      Recoverable G (update d G.start (HeaderBlock.put lh (d G.start))) F := by
  have hn : HeaderBlock.n (update d G.start (HeaderBlock.put lh (d G.start)) G.start) = 0 := by
    rw [update_self, HeaderBlock.n_put _ _ (by omega), hlh]
  refine ⟨hn, recoverable_of_empty hn fun b hb => ?_⟩
  rw [update_of_ne, hF b hb]
  rintro rfl
  exact hb Geometry.inLog_start

/-! ## Every step -/

/-- The first blocks of transaction `t` are in the log. -/
def Copied (G : Geometry) (d : ℕ → α) (t : Txn G α) (tail : ℕ) : Prop :=
  ∀ i (hi : i < t.writes.length), i < tail → d (G.start + i + 1) = (t.writes.get ⟨i, hi⟩).2

/-- What is so at a point of the program. -/
def Phase (G : Geometry) (s : LogState α) (F : ℕ → α) : Prop :=
  match s.pc with
  | .off => True
  | .idle => HeaderBlock.n (s.disk G.start) = 0
  | .writeLog tail => HeaderBlock.n (s.disk G.start) = 0 ∧
      ∃ t : Txn G α, Loaded s t ∧ tail < t.writes.length ∧ Copied G s.disk t tail
  | .writeHead => HeaderBlock.n (s.disk G.start) = 0 ∧
      ∃ t : Txn G α, Loaded s t ∧ Copied G s.disk t t.writes.length
  | .install tail => s.lh.n = HeaderBlock.n (s.disk G.start) ∧
      (∀ i < s.lh.n, s.lh.block i = HeaderBlock.block (s.disk G.start) i) ∧ tail < s.lh.n ∧
      ∀ i < tail, s.disk (s.lh.block i) = F (s.lh.block i)
  | .clearHead => s.lh.n = 0 ∧ Home G s.disk F

/-- The invariant of the log. -/
structure LogInv (G : Geometry) (F : ℕ → α) (s : LogState α) : Prop where
  recoverable : Recoverable G s.disk F
  phase : Phase G s F

/-- Entering the loop of `install_trans`. -/
theorem LogInv.installFrom (hr : Recoverable G s.disk F) (hn : s.lh.n = HeaderBlock.n (s.disk G.start))
    (hblock : ∀ i < s.lh.n, s.lh.block i = HeaderBlock.block (s.disk G.start) i)
    (hdone : ∀ i < s.lh.n, i < tail → s.disk (s.lh.block i) = F (s.lh.block i)) : LogInv G F (s.installFrom tail) := by
  unfold LogState.installFrom
  split_ifs with ht
  · exact ⟨hr, hn, hblock, ht, fun i hi => hdone i (by omega) hi⟩
  · refine ⟨hr, rfl, fun b hb => ?_⟩
    by_cases hmem : ∃ i < s.lh.n, s.lh.block i = b
    · obtain ⟨i, hi, rfl⟩ := hmem
      exact hdone i hi (by omega)
    · refine hr.rest b hb fun i hi he => hmem ⟨i, by omega, ?_⟩
      rw [hblock i (by omega), he]

/-- Entering the loop of `write_log`. -/
theorem LogInv.writeLogFrom (hr : Recoverable G s.disk F) (hn : HeaderBlock.n (s.disk G.start) = 0)
    (hl : Loaded s t) (hc : Copied G s.disk t tail) : LogInv G F (s.writeLogFrom tail) := by
  have hlen : s.lh.n = t.writes.length := by rw [hl.lh]; rfl
  refine ⟨hr, ?_⟩
  unfold LogState.writeLogFrom Phase
  by_cases ht : tail < s.lh.n
  · simp only [if_pos ht]
    exact ⟨hn, t, ⟨hl.lh, hl.cache⟩, by omega, hc⟩
  · simp only [if_neg ht]
    exact ⟨hn, t, ⟨hl.lh, hl.cache⟩, fun i hi _ => hc i hi (by omega)⟩

theorem LogInv.commit (hi : LogInv G F s) (hpc : s.pc = .idle) (t : Txn G α) {s1 : LogState α}
    (hs1 : s1 = { s with lh := t.header, cache := apply t.writes s.disk }) :
    LogInv G F (if 0 < s1.lh.n then s1.writeLogFrom 0 else s1) := by
  subst hs1
  have hn := hi.phase
  rw [Phase, hpc] at hn
  split_ifs with h0
  · refine LogInv.writeLogFrom (t := t) hi.recoverable hn ⟨rfl, fun i hi => ?_⟩ fun i _ hi => by omega
    exact apply_of_mem t.nodup (List.get_mem _ _)
  · refine ⟨hi.recoverable, ?_⟩
    rw [Phase]
    simp only [hpc]
    exact hn

theorem LogInv.write (hi : LogInv G F s) (hs : s.write G = some s') (e : LogEvent G α) (he : e = .write) :
    LogInv G ((committedAt (s, e)).elim F (apply · F)) s' := by
  subst he
  have hph := hi.phase
  unfold LogState.write at hs
  unfold Phase at hph
  cases hpc : s.pc with
  | off | idle =>
    rw [hpc] at hs
    cases hs
  | writeLog tail =>
    rw [hpc] at hs hph
    cases hs
    obtain ⟨hn, t, hl, ht, hc⟩ := hph
    have hlt : tail + 1 < G.size := by
      have := t.lt
      omega
    obtain ⟨hn', hr'⟩ := hi.recoverable.write_slot (x := s.cache (s.lh.block tail)) hn hlt
    simp only [committedAt, hpc, Option.elim_none]
    refine LogInv.writeLogFrom (t := t) hr' hn' ⟨hl.lh, hl.cache⟩ fun i hi hit => ?_
    rw [LogState.bwrite_disk]
    rcases eq_or_ne i tail with rfl | hne
    · rw [update_self, hl.block hi, hl.cache i hi]
    · rw [update_of_ne (by omega), hc i hi (by omega)]
  | writeHead =>
    rw [hpc] at hs hph
    cases hs
    obtain ⟨hn, t, hl, hc⟩ := hph
    have hlh : s.lh = t.header := hl.lh
    simp only [committedAt, hpc, Option.elim_some, hl.txn]
    have hr' := hi.recoverable.commit hn t fun i hi => hc i hi hi
    rw [← hlh] at hr'
    have hle : s.lh.n ≤ LOGSIZE := by rw [hlh]; exact t.le
    refine LogInv.installFrom hr' ?_ ?_ (by simp)
    · rw [LogState.writeHead, LogState.bwrite_disk, LogState.bwrite_lh, update_self, HeaderBlock.n_put _ _ hle]
    · intro i hi
      have hlt : s.lh.block i < 2 ^ 32 := by
        rw [LogState.writeHead, LogState.bwrite_lh, hlh] at hi
        rw [hlh]
        exact (t.header_block hi).2
      rw [LogState.writeHead, LogState.bwrite_disk, LogState.bwrite_lh, update_self, HeaderBlock.block_put _ _ _ hle hi hlt]
  | install tail =>
    rw [hpc] at hs hph
    cases hs
    obtain ⟨hn, hblock, ht, hdone⟩ := hph
    simp only [committedAt, hpc, Option.elim_none]
    have hr' := hi.recoverable.install (i := tail) (by omega)
    rw [← hblock tail ht] at hr'
    have hout := hi.recoverable.outside tail (by omega)
    rw [← hblock tail ht] at hout
    have hstart : update s.disk (s.lh.block tail) (s.disk (G.start + tail + 1)) G.start = s.disk G.start := by
      apply update_of_ne
      intro he
      rw [← he] at hout
      exact hout Geometry.inLog_start
    refine LogInv.installFrom hr' ?_ ?_ ?_
    · rw [LogState.bwrite_disk, LogState.bwrite_lh, hstart, hn]
    · intro i hi
      rw [LogState.bwrite_disk, LogState.bwrite_lh, hstart, hblock i hi]
    · intro i hin hit
      rw [LogState.bwrite_disk, LogState.bwrite_lh]
      rcases eq_or_ne (s.lh.block i) (s.lh.block tail) with heq | hne
      · rw [heq, update_self, hi.recoverable.logged tail (by omega), hblock tail ht]
      · rw [update_of_ne hne]
        refine hdone i ?_
        have : i ≠ tail := fun he => hne (by rw [he])
        omega
  | clearHead =>
    rw [hpc] at hs hph
    cases hs
    obtain ⟨hlh, hF⟩ := hph
    obtain ⟨hn', hr'⟩ := Recoverable.clear hlh hF
    simp only [committedAt, hpc, Option.elim_none]
    exact ⟨hr', hn'⟩

theorem LogInv.step (hi : LogInv G F s) (hs : s.step G e = some s') :
    LogInv G ((committedAt (s, e)).elim F (apply · F)) s' := by
  cases e with
  | commit t =>
    simp only [LogState.step] at hs
    split_ifs at hs with hpc
    all_goals cases hs
    all_goals
      have := hi.commit hpc t rfl
      simp_all [committedAt]
  | write => exact hi.write hs _ rfl
  | crash =>
    simp only [LogState.step] at hs
    split_ifs at hs with hpc
    cases hs
    have hnone : committedAt (s, (.crash : LogEvent G α)) = none := by
      unfold committedAt
      split <;> simp_all
    rw [hnone]
    exact ⟨hi.recoverable, trivial⟩
  | boot =>
    simp only [LogState.step] at hs
    split_ifs at hs with hpc
    cases hs
    have hnone : committedAt (s, (.boot : LogEvent G α)) = none := by simp [committedAt, hpc]
    rw [hnone]
    exact LogInv.installFrom hi.recoverable rfl (fun i hi => if_pos hi) (by simp)

/-! ## Every run -/

/-- **The invariant of the log** along a run. -/
theorem logInv_of_path (hp : Lts.Path (LogState.step G) s0 h s) (h0 : Fresh G s0) :
    LogInv G (applyAll (committed h) s0.disk) s := by
  induction hp with
  | nil =>
    refine ⟨recoverable_of_empty h0.empty fun b _ => rfl, ?_⟩
    rw [Phase, h0.off]
    trivial
  | @snoc h s s' e hp hs ih =>
    have hnext := ih.step hs
    rw [committed_cons]
    cases hx : committedAt (s, e) with
    | none => simpa [hx] using hnext
    | some t => simpa [hx, applyAll_concat] using hnext

theorem InOrder.write (ho : InOrder h s) (hs : s.step G .write = some s') : InOrder ((s, .write) :: h) s' := by
  simp only [LogState.step, LogState.write] at hs
  have hpass : passedAt (s, (.write : LogEvent G α)) = none := rfl
  cases hpc : s.pc with
  | off | idle =>
    rw [hpc] at hs
    cases hs
  | writeLog tail =>
    rw [hpc] at hs
    cases hs
    refine ho.quiet (by simp [committedAt, hpc]) hpass (fun _ => ⟨by rw [hpc]; rfl, rfl⟩) fun hl => ?_
    unfold LogState.writeLogFrom at hl
    split_ifs at hl <;> cases hl
  | writeHead =>
    rw [hpc] at hs
    cases hs
    refine .of_eq loading_installFrom ?_
    rw [passed_cons, committed_cons, hpass, ho.loading (by rw [hpc]; rfl)]
    simp [committedAt, hpc]
  | install tail =>
    rw [hpc] at hs
    cases hs
    refine ho.quiet (by simp [committedAt, hpc]) hpass ?_ fun _ => .inr (by rw [hpc]; rfl)
    simp [loading_installFrom]
  | clearHead =>
    rw [hpc] at hs
    cases hs
    exact ho.quiet (by simp [committedAt, hpc]) hpass (by simp [Pc.loading]) fun _ => .inr (by rw [hpc]; rfl)

theorem InOrder.step (ho : InOrder h s) (hs : s.step G e = some s') (hc : CommitsFirst ((s, e) :: h)) :
    InOrder ((s, e) :: h) s' := by
  cases e with
  | write => exact ho.write hs
  | commit t =>
    simp only [LogState.step, Option.ite_none_right_eq_some, Option.some.injEq] at hs
    obtain ⟨hpc, rfl⟩ := hs
    refine ho.commit t hpc (fun x hx => ?_) rfl
    have := (List.pairwise_cons.mp hc).1 x hx
    simpa [LogEvent.isCommit] using this
  | crash =>
    simp only [LogState.step, Option.ite_none_left_eq_some, Option.some.injEq] at hs
    obtain ⟨hpc, rfl⟩ := hs
    refine ho.quiet ?_ rfl (by simp [Pc.loading]) fun _ => .inl rfl
    unfold committedAt
    split <;> simp_all
  | boot =>
    simp only [LogState.step, Option.ite_none_right_eq_some, Option.some.injEq] at hs
    obtain ⟨hpc, rfl⟩ := hs
    refine ho.quiet (by simp [committedAt, hpc]) rfl (by simp [loading_installFrom]) fun _ => .inr (by rw [hpc]; rfl)

/-- The transactions committed are the first of those passed to `commit()`. -/
theorem inOrder_of_path (hp : Lts.Path (LogState.step G) s0 h s) (h0 : Fresh G s0) (hc : CommitsFirst h) :
    InOrder h s := by
  induction hp with
  | nil => exact .of_eq (by rw [h0.off]; rfl) rfl
  | snoc hp hs ih => exact (ih (List.pairwise_cons.mp hc).2).step hs hc

/-- Recovery with an empty log writes nothing that is not there. -/
theorem recovery_of_empty {k : List (LogState α × LogEvent G α)} (hp : Lts.Path (LogState.step G) s k s')
    (hn : HeaderBlock.n (s.disk G.start) = 0) (hpc : s.pc = .idle) (hk : ∀ x ∈ k, x.2.isCommit = false) :
    s'.disk = s.disk := by
  have hinv : s'.disk = s.disk ∧ (s'.pc = .off ∨ s'.pc = .idle ∨ s'.pc = .clearHead ∧ s'.lh.n = 0) := by
    induction hp with
    | nil => exact ⟨rfl, .inr (.inl hpc)⟩
    | @snoc k s1 s' e hp hs ih =>
      obtain ⟨hdisk, hcase⟩ := ih fun x hx => hk x (List.mem_cons_of_mem _ hx)
      cases e with
      | commit t => cases hk _ List.mem_cons_self
      | crash =>
        simp only [LogState.step, Option.ite_none_left_eq_some, Option.some.injEq] at hs
        obtain ⟨-, rfl⟩ := hs
        exact ⟨hdisk, .inl rfl⟩
      | boot =>
        simp only [LogState.step, Option.ite_none_right_eq_some, Option.some.injEq] at hs
        obtain ⟨-, rfl⟩ := hs
        have h0 : (s1.readHead G).lh.n = 0 := by rw [LogState.readHead, hdisk, hn]
        rw [LogState.installFrom, if_neg (by omega)]
        exact ⟨hdisk, .inr (.inr ⟨rfl, rfl⟩)⟩
      | write =>
        simp only [LogState.step, LogState.write] at hs
        rcases hcase with hpc | hpc | ⟨hpc, hlh⟩ <;> rw [hpc] at hs <;> cases hs
        refine ⟨?_, .inr (.inl rfl)⟩
        have hput : HeaderBlock.put s1.lh (s1.disk G.start) = s1.disk G.start :=
          HeaderBlock.put_self _ _ (by rw [hlh, hdisk, hn]) (by simp [hlh])
        rw [← hdisk]
        show update s1.disk G.start (HeaderBlock.put s1.lh (s1.disk G.start)) = s1.disk
        rw [hput, update_eq_self]
  exact hinv.1

/-- **Crash atomicity.**  When no commit or recovery is going on, the log on disk is empty, the home blocks hold what the
transactions that passed their commit point have made of the initial disk, applied in order, and no further recovery changes
anything.  If no transaction was passed to `commit()` after a crash, those are the first ones that were passed. -/
theorem crash_atomic (hp : Lts.Path (LogState.step G) s0 h s) (h0 : Fresh G s0) (hidle : s.pc = .idle) :
    HeaderBlock.n (s.disk G.start) = 0 ∧ Home G s.disk (applyAll (committed h) s0.disk) ∧
      (CommitsFirst h → committed h = (passed h).take (committed h).length) ∧
      ∀ k s', Lts.Path (LogState.step G) s k s' → (∀ x ∈ k, x.2.isCommit = false) → s'.disk = s.disk := by
  have hi := logInv_of_path hp h0
  have hn : HeaderBlock.n (s.disk G.start) = 0 := by
    have hph := hi.phase
    rwa [Phase, hidle] at hph
  refine ⟨hn, hi.recoverable.home hn, fun hc => ?_, fun k s' hk hcommit => recovery_of_empty hk hn hidle hcommit⟩
  exact List.prefix_iff_eq_take.mp (inOrder_of_path hp h0 hc).isPrefix

end Proofs

/-! ## Blocks of bytes -/

/-- The bytes of a block. -/
def bytes (x : Fin 1024 → UInt8) (i : ℕ) : UInt8 := if hi : i < 1024 then x ⟨i, hi⟩ else 0

/-- `n` and `block[]` of `struct logheader`, one after the other. -/
def Header.word (lh : Header) : ℕ → ℕ
  | 0 => lh.n
  | i + 1 => lh.block i

/-- The block with the header written to it. -/
def Header.put (lh : Header) (x : Fin 1024 → UInt8) : Fin 1024 → UInt8 :=
  fun j => if j.val / 4 ≤ lh.n then (Bytes.le 4 (lh.word (j.val / 4))).getD (j.val % 4) 0 else x j

theorem Header.leAt_put (lh : Header) (x : Fin 1024 → UInt8) (hn : lh.n ≤ LOGSIZE) (hi : i ≤ lh.n) (hw : lh.word i < 2 ^ 32) :
    Bytes.leAt (bytes (lh.put x)) (4 * i) 4 = lh.word i := by
  have hslice : Bytes.slice (bytes (lh.put x)) (4 * i) 4 = Bytes.le 4 (lh.word i) := by
    refine List.ext_getElem (by simp) fun r hr hr' => ?_
    have hr4 : r < 4 := by simpa using hr
    have hlt : 4 * i + r < 1024 := by
      simp only [LOGSIZE, MAXOPBLOCKS] at hn
      omega
    have hdiv : (4 * i + r) / 4 = i := by omega
    have hmod : (4 * i + r) % 4 = r := by omega
    rw [← List.getD_eq_getElem _ 0 hr, ← List.getD_eq_getElem _ 0 hr', Bytes.getD_slice hr4, bytes, dif_pos hlt, Header.put]
    simp only [hdiv, hmod, if_pos hi]
  rw [Bytes.leAt, hslice, Bytes.ofLe_le_of_lt hw]

theorem Header.n_put (lh : Header) (x : Fin 1024 → UInt8) (hn : lh.n ≤ LOGSIZE) :
    Bytes.leAt (bytes (lh.put x)) 0 4 = lh.n :=
  lh.leAt_put x hn (Nat.zero_le _) (Nat.lt_of_le_of_lt hn (by decide))

theorem Header.block_put (lh : Header) (x : Fin 1024 → UInt8) (i : ℕ) (hn : lh.n ≤ LOGSIZE) (hi : i < lh.n)
    (hlt : lh.block i < 2 ^ 32) : Bytes.leAt (bytes (lh.put x)) (4 * (i + 1)) 4 = lh.block i :=
  lh.leAt_put x hn hi hlt

theorem Header.put_self (lh : Header) (x : Fin 1024 → UInt8) (hn : lh.n = Bytes.leAt (bytes x) 0 4)
    (hb : ∀ i < lh.n, lh.block i = Bytes.leAt (bytes x) (4 * (i + 1)) 4) : lh.put x = x := by
  funext j
  rw [Header.put]
  split_ifs with hle
  · have hword : lh.word (j.val / 4) = Bytes.leAt (bytes x) (4 * (j.val / 4)) 4 := by
      cases hk : j.val / 4 with
      | zero => exact hn
      | succ i => exact hb i (by omega)
    have hback := Bytes.le_ofLe (Bytes.slice (bytes x) (4 * (j.val / 4)) 4)
    rw [Bytes.length_slice] at hback
    have hj : 4 * (j.val / 4) + j.val % 4 = j.val := by omega
    rw [hword, Bytes.leAt, hback, Bytes.getD_slice (by omega), hj, bytes, dif_pos j.isLt]
  · rfl

/-- A block of the disk: `struct logheader` is at its start, and its words are little-endian. -/
instance : HeaderBlock (Fin 1024 → UInt8) where
  n := fun x => Bytes.leAt (bytes x) 0 4
  block := fun x i => Bytes.leAt (bytes x) (4 * (i + 1)) 4
  put := Header.put
  n_put := Header.n_put
  block_put := Header.block_put
  put_self := Header.put_self

/-! ## Blocks of words -/

/-- A block as an array of words. -/
abbrev Words := ℕ → ℕ

instance : HeaderBlock Words where
  n := fun x => x 0
  block := fun x i => x (i + 1)
  put := fun lh x j => if j = 0 then lh.n else if j ≤ lh.n then lh.block (j - 1) else x j
  n_put := fun _ _ _ => rfl
  block_put := by
    intro lh x i _ hi _
    have hle : i + 1 ≤ lh.n := hi
    simp [hle]
  put_self := by
    intro lh x hn hb
    funext j
    by_cases hj : j = 0
    · rw [if_pos hj, hn, hj]
    · by_cases hle : j ≤ lh.n
      · rw [if_neg hj, if_pos hle, hb (j - 1) (by omega), Nat.sub_add_cancel (by omega)]
      · rw [if_neg hj, if_neg hle]

/-- The log as `mkfs` places it. -/
def mkfsLog : Geometry := ⟨2, LOGSIZE, by decide⟩

/-- New contents for two blocks. -/
def twoBlocks : Txn mkfsLog Words where
  writes := [(50, fun _ => 7), (51, fun _ => 8)]
  nodup := by decide
  home := by decide
  uint := by decide
  le := by decide
  lt := by decide

/-- The disk of a new file system. -/
def zeroDisk : LogState Words := ⟨fun _ _ => 0, ⟨0, fun _ => 0⟩, fun _ _ => 0, .off⟩

/-- A crash when one of the blocks is installed, and another one during recovery. -/
def twoCrashes : List (LogEvent mkfsLog Words) :=
  [.boot, .write, .commit twoBlocks] ++ List.replicate 4 .write ++ [.crash, .boot, .write, .crash, .boot] ++
    List.replicate 3 .write

theorem crash_atomic_twice : ∃ (h : List (LogState Words × LogEvent mkfsLog Words)) (s : LogState Words),
    Lts.Path (LogState.step mkfsLog) zeroDisk h s ∧ s.pc = .idle ∧ s.disk 50 0 = 7 ∧ s.disk 51 0 = 8 ∧
      Home mkfsLog s.disk (applyAll (committed h) zeroDisk.disk) := by
  have hrun : ∃ (h : List (LogState Words × LogEvent mkfsLog Words)) (s : LogState Words),
      Lts.Path (LogState.step mkfsLog) zeroDisk h s ∧ (s.pc = .idle ∧ s.disk 50 0 = 7 ∧ s.disk 51 0 = 8) :=
    Lts.exists_path_of_replay (fun _ (s : LogState Words) => s.pc = .idle ∧ s.disk 50 0 = 7 ∧ s.disk 51 0 = 8)
      twoCrashes (by decide +kernel)
  obtain ⟨h, s, hp, hpc, h50, h51⟩ := hrun
  exact ⟨h, s, hp, hpc, h50, h51, (crash_atomic hp ⟨rfl, rfl⟩ hpc).2.1⟩

end Xv6Mlfq.Fs
