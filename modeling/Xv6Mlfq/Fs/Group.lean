import Xv6Mlfq.Fs.Cache
import Xv6Mlfq.Fs.Commit

/-!
# Xv6Mlfq.Fs.Group — operations, group commit and the buffer cache

`log.c` over `bio.c`, for any number of processes: `begin_op`, `log_write`, `end_op` and the code of `commit()`, one act for
each step of the buffer cache.  Processes call `bread`, change the data, call `bwrite` or `log_write` and `brelse` between, and
during, commits.

* `Blocks.step`: the steps.
* `account h`: what the operations of a run have written, and which buffers were pinned and unpinned for it.
* `Act.wp`: how far a commit has come, as a `Progress`; what is left of the code of `commit()` in terms of it.
-/

namespace Xv6Mlfq.Fs

open Function Tally

/-! ## The code -/

/-- The local variables of `commit()` and what it calls: `to`, `lbuf` and `buf` of `write_head`; `from` and `dbuf`. -/
inductive Tmp
  | log | home
  deriving DecidableEq, Repr

instance : Fintype Tmp := ⟨{.log, .home}, fun t => by cases t <;> decide⟩

/-- Who holds a `struct buf *`: a variable of a process, or one of `commit()`. -/
inductive User (P : Type) (K : ℕ)
  | client (p : P) (k : Fin K)
  | tmp (t : Tmp)
  deriving DecidableEq

instance {P : Type} [Fintype P] {K : ℕ} : Fintype (User P K) :=
  .ofEquiv ((P × Fin K) ⊕ Tmp)
    { toFun := Sum.elim (fun x => .client x.1 x.2) .tmp
      invFun := fun u => match u with
        | .client p k => .inl (p, k)
        | .tmp t => .inr t
      left_inv := by rintro (x | t) <;> rfl
      right_inv := by rintro (⟨p, k⟩ | t) <;> rfl }

/-- What `commit()` does, step by step. -/
inductive Act
  /- of `bread`, `bwrite` and `brelse` -/
  | bget (t : Tmp) (b : ℕ) | lock (t : Tmp) | fill (t : Tmp) | bwrite (t : Tmp) | unlock (t : Tmp) | brelse (t : Tmp)
  /- the two `memmove`s, the assignments of `write_head`, `bunpin` -/
  | copyToLog | copyToHome | putHead | bunpin
  /- the test of `commit`, the loops of `write_log` and `install_trans`, `log.lh.n = 0`, `log.committing = 0` -/
  | commit | writeLog (tail : ℕ) | install (tail : ℕ) | reset | done
  deriving DecidableEq, Repr

inductive BlockPanic
  | noBuffers | tooBig | outside | committing
  deriving DecidableEq, Repr

/-- The cache, `log.lh`, the rest of `struct log`, who is between `begin_op` and `end_op`, and the rest of `commit()`. -/
structure Blocks (P : Type) (K : ℕ) (α : Type) where
  cache : Cache (User P K) α
  lh : List ℕ
  outstanding : ℕ
  committing : Bool
  inOp : P → Bool
  todo : List Act
  panic : Option BlockPanic

inductive BlockEvent (P : Type) (K : ℕ) (α : Type)
  | client (p : P) (k : Fin K) (a : CacheOp α)
  | logWrite (p : P) (k : Fin K)
  | beginOp (p : P) | endOp (p : P)
  /- the next act of `commit()` -/
  | commit

variable {P : Type} {K : ℕ} {α : Type} [DecidableEq P]

/-- `bread` -/
def breadActs (t : Tmp) (b : ℕ) : List Act := [.bget t b, .lock t, .fill t]

/-- `brelse` -/
def brelseActs (t : Tmp) : List Act := [.unlock t, .brelse t]

/-- The body of the loop of `write_log`. -/
def writeLogActs (G : Geometry) (tail b : ℕ) : List Act :=
  breadActs .log (G.start + tail + 1) ++ breadActs .home b ++ [.copyToLog, .bwrite .log] ++ brelseActs .home ++ brelseActs .log

/-- `write_head` -/
def writeHeadActs (G : Geometry) : List Act := breadActs .log G.start ++ [.putHead, .bwrite .log] ++ brelseActs .log

/-- The body of the loop of `install_trans`. -/
def installActs (G : Geometry) (tail b : ℕ) : List Act :=
  breadActs .log (G.start + tail + 1) ++ breadActs .home b ++ [.copyToHome, .bwrite .home, .bunpin] ++ brelseActs .log ++
    brelseActs .home

/-- `commit` -/
def commitActs (G : Geometry) : List Act :=
  [.writeLog 0] ++ writeHeadActs G ++ [.install 0, .reset] ++ writeHeadActs G

namespace Blocks

/-- A step of the cache; `todo` is what is left of `commit()` after it. -/
def run (s : Blocks P K α) (u : User P K) (a : CacheOp α) (todo : List Act) : Option (Blocks P K α) :=
  match s.cache.op u a with
  | some c => some { s with cache := c, todo := todo }
  | none =>
    match a with
    | .bget _ => if s.cache.use u = .out then some { s with panic := some .noBuffers } else none
    | _ => none

/-- The tests of `log_write`. -/
def logWritePanic (G : Geometry) (s : Blocks P K α) : Option BlockPanic :=
  if s.lh.length ≥ LOGSIZE ∨ s.lh.length ≥ G.size - 1 then some .tooBig
  else if s.outstanding < 1 then some .outside
  else none

/-- `log_write` of buffer `i` by user `u`. -/
def logWrite (G : Geometry) (s : Blocks P K α) (u : User P K) (i : Fin NBUF) : Blocks P K α :=
  match s.logWritePanic G with
  | some x => { s with panic := some x }
  | none =>
    let b := (s.cache.buf i).blockno
    let c := s.cache.setUse u (.held i false)
    -- log absorption
    if b ∈ s.lh then { s with cache := c } else { s with cache := c.bpin i, lh := s.lh ++ [b] }

/-- `end_op`, up to the call of `commit`. -/
def endOp (s : Blocks P K α) (p : P) : Blocks P K α :=
  let s := { s with outstanding := s.outstanding - 1, inOp := update s.inOp p false }
  if s.committing then { s with panic := some .committing }
  else if s.outstanding = 0 then { s with committing := true, todo := [.commit, .done] }
  else s

variable [HeaderBlock α]

/-- `log.lh` as a `struct logheader`. -/
def header (s : Blocks P K α) : Header := ⟨s.lh.length, fun i => s.lh.getD i 0⟩

/-- An act of `commit()`. -/
def act (G : Geometry) (s : Blocks P K α) (rest : List Act) : Act → Option (Blocks P K α)
  | .bget t b => s.run (.tmp t) (.bget b) rest
  | .lock t => s.run (.tmp t) .lock rest
  | .fill t => s.run (.tmp t) .fill rest
  | .bwrite t => s.run (.tmp t) .bwrite rest
  | .unlock t => s.run (.tmp t) .unlock rest
  | .brelse t => s.run (.tmp t) .brelse rest
  | .copyToLog =>
    match s.cache.use (.tmp .home) with
    | .held i _ => s.run (.tmp .log) (.modify (s.cache.buf i).data) rest
    | _ => none
  | .copyToHome =>
    match s.cache.use (.tmp .log) with
    | .held i _ => s.run (.tmp .home) (.modify (s.cache.buf i).data) rest
    | _ => none
  | .putHead =>
    match s.cache.use (.tmp .log) with
    | .held i _ => s.run (.tmp .log) (.modify (HeaderBlock.put s.header (s.cache.buf i).data)) rest
    | _ => none
  | .bunpin =>
    match s.cache.use (.tmp .home) with
    | .held i _ => some { s with cache := s.cache.bunpin i, todo := rest }
    | _ => none
  | .commit => some { s with todo := if s.lh.length > 0 then commitActs G ++ rest else rest }
  | .writeLog tail =>
    some { s with todo := match s.lh[tail]? with
      | some b => writeLogActs G tail b ++ .writeLog (tail + 1) :: rest
      | none => rest }
  | .install tail =>
    some { s with todo := match s.lh[tail]? with
      | some b => installActs G tail b ++ .install (tail + 1) :: rest
      | none => rest }
  | .reset => some { s with lh := [], todo := rest }
  | .done => some { s with committing := false, todo := rest }

/-- One step; `panic` stops the machine. -/
def step (G : Geometry) (s : Blocks P K α) (e : BlockEvent P K α) : Option (Blocks P K α) :=
  if s.panic ≠ none then none
  else
    match e with
    | .client p k a => s.run (.client p k) a s.todo
    | .logWrite p k =>
      match s.cache.use (.client p k) with
      | .held i _ => if s.inOp p then some (s.logWrite G (.client p k) i) else none
      | _ => none
    | .beginOp p =>
      if s.inOp p = false ∧ s.committing = false ∧ s.lh.length + (s.outstanding + 1) * MAXOPBLOCKS ≤ LOGSIZE then
        some { s with outstanding := s.outstanding + 1, inOp := update s.inOp p true }
      else none
    | .endOp p => if s.inOp p then some (s.endOp p) else none
    | .commit =>
      match s.todo with
      | [] => none
      | a :: rest => s.act G rest a

/-- After `initlog`, with a disk that recovery has left. -/
def boot (data : Fin NBUF → α) (disk : ℕ → α) : Blocks P K α where
  cache := binit data disk
  lh := []
  outstanding := 0
  committing := false
  inOp := fun _ => false
  todo := []
  panic := none

end Blocks

/-! ## Steps by cases -/

section Cases

variable {G : Geometry} {s s' : Blocks P K α} {e : BlockEvent P K α} {u : User P K} {a : CacheOp α} {todo : List Act}

/-- A step of the cache by some user, or the panic of `bget`. -/
theorem Blocks.run_cases (hs : s.run u a todo = some s') :
    (∃ c', CacheStep s.cache u a c' ∧ s' = { s with cache := c', todo := todo }) ∨
      (s.cache.use u = .out ∧ ∃ b, a = .bget b) ∧ s' = { s with panic := some .noBuffers } := by
  unfold Blocks.run at hs
  split at hs
  · rename_i c hc
    cases hs
    exact .inl ⟨c, .of_op hc, rfl⟩
  · split at hs
    · split_ifs at hs with hu
      cases hs
      exact .inr ⟨⟨hu, _, rfl⟩, rfl⟩
    · cases hs

/-- The steps of the machine, by cases. -/
inductive BlockStep [HeaderBlock α] (G : Geometry) (s : Blocks P K α) : BlockEvent P K α → Blocks P K α → Prop
  | client {p : P} {k : Fin K} {a : CacheOp α} {c' : Cache (User P K) α} : s.panic = none →
      CacheStep s.cache (.client p k) a c' → BlockStep G s (.client p k a) { s with cache := c' }
  | clientPanic {p : P} {k : Fin K} {b : ℕ} : s.panic = none → s.cache.use (.client p k) = .out →
      BlockStep G s (.client p k (.bget b)) { s with panic := some .noBuffers }
  | logPanic {p : P} {k : Fin K} {i : Fin NBUF} {d : Bool} {q : BlockPanic} : s.panic = none →
      s.cache.use (.client p k) = .held i d → s.inOp p = true → s.logWritePanic G = some q →
      BlockStep G s (.logWrite p k) { s with panic := some q }
  | absorb {p : P} {k : Fin K} {i : Fin NBUF} {d : Bool} : s.panic = none →
      s.cache.use (.client p k) = .held i d → s.inOp p = true → s.logWritePanic G = none →
      (s.cache.buf i).blockno ∈ s.lh →
      BlockStep G s (.logWrite p k) { s with cache := s.cache.setUse (.client p k) (.held i false) }
  | append {p : P} {k : Fin K} {i : Fin NBUF} {d : Bool} : s.panic = none →
      s.cache.use (.client p k) = .held i d → s.inOp p = true → s.logWritePanic G = none →
      (s.cache.buf i).blockno ∉ s.lh →
      BlockStep G s (.logWrite p k)
        { s with
          cache := (s.cache.setUse (.client p k) (.held i false)).bpin i
          lh := s.lh ++ [(s.cache.buf i).blockno] }
  | beginOp {p : P} : s.panic = none → s.inOp p = false → s.committing = false →
      s.lh.length + (s.outstanding + 1) * MAXOPBLOCKS ≤ LOGSIZE →
      BlockStep G s (.beginOp p) { s with outstanding := s.outstanding + 1, inOp := update s.inOp p true }
  | endOp {p : P} : s.panic = none → s.inOp p = true → BlockStep G s (.endOp p) (s.endOp p)
  | act {act : Act} {rest : List Act} {s' : Blocks P K α} : s.panic = none → s.todo = act :: rest →
      s.act G rest act = some s' → BlockStep G s .commit s'

theorem BlockStep.of_step [HeaderBlock α] (hs : s.step G e = some s') : BlockStep G s e s' := by
  unfold Blocks.step at hs
  rw [Option.ite_none_left_eq_some] at hs
  obtain ⟨hpanic, hs⟩ := hs
  rw [not_not] at hpanic
  cases e with
  | client p k a =>
    rcases Blocks.run_cases hs with ⟨c', hc, rfl⟩ | ⟨⟨hu, b, rfl⟩, rfl⟩
    · exact .client hpanic hc
    · exact .clientPanic hpanic hu
  | logWrite p k =>
    simp only at hs
    split at hs
    swap
    · cases hs
    rename_i i d hu
    split_ifs at hs with hp
    cases hs
    unfold Blocks.logWrite
    cases hlw : s.logWritePanic G with
    | some q => exact .logPanic hpanic hu hp hlw
    | none =>
      simp only
      split_ifs with hb
      · exact .absorb hpanic hu hp hlw hb
      · exact .append hpanic hu hp hlw hb
  | beginOp p =>
    simp only at hs
    split_ifs at hs with hb
    cases hs
    exact .beginOp hpanic hb.1 hb.2.1 hb.2.2
  | endOp p =>
    simp only at hs
    split_ifs at hs with hp
    cases hs
    exact .endOp hpanic hp
  | commit =>
    simp only at hs
    split at hs
    · cases hs
    · exact .act hpanic ‹_› hs

end Cases

/-! ## What a run has done -/

/-- What the operations have written and which buffers were pinned for it, since the last commit. -/
structure Account (P : Type) where
  /-- The blocks that the operation a process is in has passed to `log_write`. -/
  current : P → List ℕ
  /-- The same of the operations that have ended. -/
  ended : List (List ℕ)
  /-- The buffers pinned by `log_write`, with their blocks, and those unpinned by `install_trans`. -/
  pins : List (Fin NBUF × ℕ)
  unpins : List (Fin NBUF × ℕ)

/-- The account after a step. -/
def Account.next (G : Geometry) (A : Account P) (x : Blocks P K α × BlockEvent P K α) : Account P :=
  match x.2 with
  | .client _ _ _ => A
  | .logWrite p k =>
    match x.1.cache.use (.client p k), x.1.logWritePanic G with
    | .held i _, none =>
      let b := (x.1.cache.buf i).blockno
      { A with
        current := update A.current p (b :: A.current p)
        pins := if b ∈ x.1.lh then A.pins else A.pins ++ [(i, b)] }
    | _, _ => A
  | .beginOp p => { A with current := update A.current p [] }
  | .endOp p => { A with ended := A.current p :: A.ended }
  | .commit =>
    match x.1.todo with
    | .bunpin :: _ =>
      match x.1.cache.use (.tmp .home) with
      | .held i _ => { A with unpins := A.unpins ++ [(i, (x.1.cache.buf i).blockno)] }
      | _ => A
    | .done :: _ => { A with ended := [], pins := [], unpins := [] }
    | _ => A

def account (G : Geometry) (h : List (Blocks P K α × BlockEvent P K α)) : Account P :=
  h.foldr (fun x A => A.next G x) ⟨fun _ => [], [], [], []⟩

/-! ## How far a commit has come -/

/-- How far a commit has come. -/
structure Progress where
  /-- Blocks copied to the log; blocks installed and unpinned. -/
  copied : ℕ
  unpinned : ℕ
  /-- The blocks its variables refer to. -/
  log : Option ℕ
  home : Option ℕ
  /-- The variable whose data it has changed and not written. -/
  dirty : Option Tmp
  /-- `*to` holds the next block to be written to the log. -/
  ready : Bool
  /-- The block to be unpinned is on disk. -/
  written : Bool
  /-- `log.lh.n` has been set to 0. -/
  cleared : Bool

namespace Progress

/-- Between two iterations of a loop. -/
def between (copied unpinned : ℕ) : Progress := ⟨copied, unpinned, none, none, none, false, false, false⟩

/-- At the end of `commit()`. -/
def finished (bs : List ℕ) : Progress := { between bs.length bs.length with cleared := decide (bs ≠ []) }

@[simp] def var (g : Progress) : Tmp → Option ℕ
  | .log => g.log
  | .home => g.home

@[simp] def setVar (g : Progress) (o : Option ℕ) : Tmp → Progress
  | .log => { g with log := o }
  | .home => { g with home := o }

theorem setVar_fields (g : Progress) (o : Option ℕ) (t : Tmp) :
    (g.setVar o t).unpinned = g.unpinned ∧ (g.setVar o t).cleared = g.cleared ∧ (g.setVar o t).var t = o := by
  cases t <;> simp

theorem setVar_of_ne (g : Progress) (o : Option ℕ) {t t' : Tmp} (ht : t' ≠ t) : (g.setVar o t).var t' = g.var t' := by
  cases t <;> cases t' <;> simp at ht ⊢

end Progress

/-- A commit of the blocks `bs` that has come to `g` may do the act. -/
@[simp] def Act.pre (G : Geometry) (bs : List ℕ) (g : Progress) : Act → Prop
  | .bget t _ => g.var t = none
  | .unlock _ => g.dirty = none
  | .bwrite .log => g.dirty = some .log ∧ (g.ready = true ∨ g.log = some G.start)
  | .bwrite .home => g.dirty = some .home ∧ g.cleared = false ∧ ∃ b, bs[g.unpinned]? = some b ∧ g.home = some b
  | .copyToLog => (∃ b, bs[g.copied]? = some b ∧ g.home = some b) ∧ g.log = some (G.start + g.copied + 1) ∧
      g.cleared = false ∧ g.dirty = none
  | .copyToHome => (∃ b, bs[g.unpinned]? = some b ∧ g.home = some b) ∧ g.log = some (G.start + g.unpinned + 1) ∧
      g.copied = bs.length ∧ g.cleared = false ∧ g.dirty = none ∧ g.ready = false
  | .putHead => g.log = some G.start ∧ g.ready = false ∧ g.dirty = none
  | .bunpin => (∃ b, bs[g.unpinned]? = some b ∧ g.home = some b) ∧ g.written = true
  | .commit => g = .between 0 0
  | .writeLog tail => g = .between tail 0 ∧ tail ≤ bs.length
  | .install tail => g = .between bs.length tail ∧ tail ≤ bs.length
  | .reset => g = .between bs.length bs.length ∧ bs ≠ []
  | .done => g = .finished bs
  | _ => True

/-- How far the commit has come after the act; `none` if it is over. -/
@[simp] def Act.post (bs : List ℕ) (g : Progress) : Act → Option Progress
  | .bget t b => some (g.setVar (some b) t)
  | .brelse t => some (g.setVar none t)
  | .bwrite .log =>
    some (if g.ready then { g with copied := g.copied + 1, ready := false, dirty := none } else { g with dirty := none })
  | .bwrite .home => some { g with written := true, dirty := none }
  | .copyToLog => some { g with ready := true, dirty := some .log }
  | .copyToHome => some { g with dirty := some .home }
  | .putHead => some { g with dirty := some .log }
  | .bunpin => some { g with unpinned := g.unpinned + 1, written := false }
  | .commit | .reset => some (.finished bs)
  | .writeLog _ => some (.between bs.length 0)
  | .install _ => some (.between bs.length bs.length)
  | .done => none
  | _ => some g

/-- Acts, backwards: `Q` is so of how far the commit has come after the act. -/
@[simp] def Act.wp (G : Geometry) (bs : List ℕ) (a : Act) (Q : Option Progress → Prop) (x : Option Progress) : Prop :=
  ∃ g, x = some g ∧ a.pre G bs g ∧ Q (a.post bs g)

/-- The acts that stand for others: a test, or a loop. -/
def Act.loop : Act → Bool
  | .commit | .writeLog _ | .install _ => true
  | _ => false

/-- How far the commit has come when the act has been executed; a loop has only been unfolded. -/
def Act.next (bs : List ℕ) (g : Progress) (a : Act) : Option Progress := if a.loop then some g else a.post bs g

/-- How far the commit has come after a step of the machine that does not panic. -/
def advance (bs : List ℕ) (x : Option Progress) (s : Blocks P K α) : BlockEvent P K α → Option Progress
  | .endOp _ => if s.outstanding = 1 then some (.between 0 0) else x
  | .commit =>
    match s.todo, x with
    | a :: _, some g => a.next bs g
    | _, _ => x
  | _ => x

section Code

variable {G : Geometry} {bs : List ℕ} {g : Progress} {Q : Option Progress → Prop} {tail : ℕ} {rest : List Act}

theorem wp_commit (hg : g = .between 0 0) (hQ : rest.foldr (Act.wp G bs) Q (some (.finished bs))) :
    (if bs.length > 0 then commitActs G ++ rest else rest).foldr (Act.wp G bs) Q (some g) := by
  subst hg
  split_ifs with hn
  · have hne : bs ≠ [] := List.ne_nil_of_length_pos hn
    simpa [commitActs, writeHeadActs, breadActs, brelseActs, Progress.between, Progress.finished, hne] using hQ
  · obtain rfl : bs = [] := List.eq_nil_of_length_eq_zero (by omega)
    exact hQ

theorem wp_writeLog (hg : g = .between tail 0) (ht : tail ≤ bs.length)
    (hQ : rest.foldr (Act.wp G bs) Q (some (.between bs.length 0))) :
    (match bs[tail]? with
      | some b => writeLogActs G tail b ++ Act.writeLog (tail + 1) :: rest
      | none => rest).foldr (Act.wp G bs) Q (some g) := by
  subst hg
  cases hb : bs[tail]? with
  | some b =>
    have hlt : tail < bs.length := (List.getElem?_eq_some_iff.mp hb).1
    simpa [writeLogActs, breadActs, brelseActs, Progress.between, hb] using ⟨hlt, hQ⟩
  | none =>
    have hle := List.getElem?_eq_none_iff.mp hb
    obtain rfl : tail = bs.length := by omega
    exact hQ

theorem wp_install (hg : g = .between bs.length tail) (ht : tail ≤ bs.length)
    (hQ : rest.foldr (Act.wp G bs) Q (some (.between bs.length bs.length))) :
    (match bs[tail]? with
      | some b => installActs G tail b ++ Act.install (tail + 1) :: rest
      | none => rest).foldr (Act.wp G bs) Q (some g) := by
  subst hg
  cases hb : bs[tail]? with
  | some b =>
    have hlt : tail < bs.length := (List.getElem?_eq_some_iff.mp hb).1
    simpa [installActs, breadActs, brelseActs, Progress.between, hb] using ⟨hlt, hQ⟩
  | none =>
    have hle := List.getElem?_eq_none_iff.mp hb
    obtain rfl : tail = bs.length := by omega
    exact hQ

end Code

end Xv6Mlfq.Fs
