import Xv6Mlfq.Fs.Group

/-!
# Xv6Mlfq.Fs.Operations — group commit keeps operations whole

`Inv` relates `log.lh`, the reference counts and the rest of `commit()` to what the run has done (`account`).  `group_commit`
says that operations and commits exclude each other, that a commit takes exactly the blocks of the operations that have ended
since the last one, and that it unpins exactly what they have pinned.
-/

namespace Xv6Mlfq.Fs

open Function Tally

variable {P : Type} {K : ℕ} {α : Type} {G : Geometry} {s s' : Blocks P K α} {e : BlockEvent P K α}
  {h : List (Blocks P K α × BlockEvent P K α)} {x : Option Progress} {p : P} {k : Fin K} {i : Fin NBUF}
  {u : User P K} {a : CacheOp α} {todo rest : List Act} {A : Account P} {b : ℕ} {d : Bool}
  {y : Fin NBUF × ℕ} {g g' : Progress} {t : Tmp} {data : Fin NBUF → α} {disk : ℕ → α}

/-! ## Pins -/

/-- How often each buffer occurs in a list of pins. -/
def pinCount (ps : List (Fin NBUF × ℕ)) (i : Fin NBUF) : ℕ := ps.countP fun y => y.1 = i

theorem pinCount_append (ps : List (Fin NBUF × ℕ)) (i : Fin NBUF) (b : ℕ) :
    pinCount (ps ++ [(i, b)]) = update (pinCount ps) i (pinCount ps i + 1) := by
  funext j
  unfold pinCount
  rcases eq_or_ne j i with rfl | hji
  · simp
  · rw [update_of_ne hji]
    simp [hji.symm]

theorem pinCount_cons (ps : List (Fin NBUF × ℕ)) (i : Fin NBUF) (b : ℕ) :
    update (pinCount ((i, b) :: ps)) i (pinCount ((i, b) :: ps) i - 1) = pinCount ps := by
  funext j
  unfold pinCount
  rcases eq_or_ne j i with rfl | hji
  · simp
  · rw [update_of_ne hji]
    simp [hji.symm]

theorem pinCount_ne_zero {ps : List (Fin NBUF × ℕ)} (hy : y ∈ ps) : pinCount ps y.1 ≠ 0 := by
  have : 0 < ps.countP fun z => z.1 = y.1 := List.countP_pos_iff.mpr ⟨y, hy, by simp⟩
  unfold pinCount
  omega

/-! ## The invariant -/

/-- The blocks of a list of pins. -/
def Account.blocks (A : Account P) : List ℕ := A.pins.map Prod.snd

/-- How many blocks the commit has unpinned. -/
def unpinned : Option Progress → ℕ
  | some g => g.unpinned
  | none => 0

/-- The pins that are left. -/
def Account.left (A : Account P) (x : Option Progress) : List (Fin NBUF × ℕ) := A.pins.drop (unpinned x)

/-- The block is one that an operation has passed to `log_write` since the last commit: one that has ended, or one that is
still going on. -/
def Account.Wrote (A : Account P) (inOp : P → Bool) (b : ℕ) : Prop :=
  (∃ bs ∈ A.ended, b ∈ bs) ∨ ∃ p, inOp p = true ∧ b ∈ A.current p

section Wrote

variable [DecidableEq P] {inOp : P → Bool} {c : ℕ}

theorem Account.wrote_logWrite (hp : inOp p = true) :
    ({ A with current := update A.current p (c :: A.current p) } : Account P).Wrote inOp b ↔ b = c ∨ A.Wrote inOp b := by
  unfold Account.Wrote
  constructor
  · rintro (hb | ⟨q, hq, hb⟩)
    · exact .inr (.inl hb)
    · rcases eq_or_ne q p with rfl | hqp
      · simp only [update_self, List.mem_cons] at hb
        rcases hb with rfl | hb
        · exact .inl rfl
        · exact .inr (.inr ⟨q, hq, hb⟩)
      · simp only [update_of_ne hqp] at hb
        exact .inr (.inr ⟨q, hq, hb⟩)
  · rintro (rfl | hb | ⟨q, hq, hb⟩)
    · exact .inr ⟨p, hp, by simp⟩
    · exact .inl hb
    · refine .inr ⟨q, hq, ?_⟩
      rcases eq_or_ne q p with rfl | hqp
      · simp [hb]
      · simpa [update_of_ne hqp] using hb

theorem Account.wrote_beginOp (hp : inOp p = false) :
    ({ A with current := update A.current p [] } : Account P).Wrote (update inOp p true) b ↔ A.Wrote inOp b := by
  refine or_congr_right (exists_congr fun q => ?_)
  rcases eq_or_ne q p with rfl | hqp
  · simp [hp]
  · simp [update_of_ne hqp]

theorem Account.wrote_endOp (hp : inOp p = true) :
    ({ A with ended := A.current p :: A.ended } : Account P).Wrote (update inOp p false) b ↔ A.Wrote inOp b := by
  unfold Account.Wrote
  constructor
  · rintro (⟨bs, hbs, hb⟩ | ⟨q, hq, hb⟩)
    · rcases List.mem_cons.mp hbs with rfl | hbs
      · exact .inr ⟨p, hp, hb⟩
      · exact .inl ⟨bs, hbs, hb⟩
    · rcases eq_or_ne q p with rfl | hqp
      · simp at hq
      · rw [update_of_ne hqp] at hq
        exact .inr ⟨q, hq, hb⟩
  · rintro (⟨bs, hbs, hb⟩ | ⟨q, hq, hb⟩)
    · exact .inl ⟨bs, List.mem_cons_of_mem _ hbs, hb⟩
    · rcases eq_or_ne q p with rfl | hqp
      · exact .inl ⟨_, List.mem_cons_self, hb⟩
      · exact .inr ⟨q, by rwa [update_of_ne hqp], hb⟩

end Wrote

/-- The state and what the run has done; `x` is how far the commit has come, if one is running. -/
structure Inv [Fintype P] (A : Account P) (G : Geometry) (s : Blocks P K α) (x : Option Progress) : Prop where
  code : s.todo.foldr (Act.wp G A.blocks) (· = none) x
  committing : s.committing = x.isSome
  lh : s.lh = if x.any Progress.cleared then [] else A.blocks
  unpins : A.unpins = A.pins.take (unpinned x)
  tmp : ∀ t, s.cache.block (.tmp t) = x.bind fun g => g.var t
  cache : s.cache.Ok (pinCount (A.left x))
  held : ∀ y ∈ A.left x, (s.cache.buf y.1).blockno = y.2
  nodup : A.blocks.Nodup
  wrote : ∀ b, b ∈ A.blocks ↔ A.Wrote s.inOp b
  outstanding : s.outstanding = count (· = true) s.inOp
  quiet : x.isSome = true → s.outstanding = 0
  noPanic : s.panic ≠ some .committing

section

variable [Fintype P]

/-- A process in an operation: no commit is running. -/
theorem Inv.none_of_inOp (hi : Inv A G s x) (hp : s.inOp p = true) : x = none := by
  have hpos := count_pos (· = true) (f := s.inOp) hp
  have hout := hi.outstanding
  cases x with
  | none => rfl
  | some g =>
    have := hi.quiet rfl
    omega

theorem Inv.panic {q : BlockPanic} (hi : Inv A G s x) (hq : q ≠ .committing) : Inv A G { s with panic := some q } x :=
  ⟨hi.code, hi.committing, hi.lh, hi.unpins, hi.tmp, hi.cache, hi.held, hi.nodup, hi.wrote, hi.outstanding, hi.quiet,
    by simpa using hq⟩

/-- A buffer that is pinned is in use. -/
theorem Inv.refcnt_of_left (hi : Inv A G s x) (hy : y ∈ A.left x) : (s.cache.buf y.1).refcnt ≠ 0 :=
  hi.cache.refcnt_of_pin (pinCount_ne_zero hy)

theorem Inv.left_eq (hi : Inv A G s x) : A.left x = A.pins.drop A.unpins.length := by
  rw [Account.left, hi.unpins, List.length_take]
  rcases le_total (unpinned x) A.pins.length with hle | hle
  · rw [min_eq_left hle]
  · rw [min_eq_right hle, List.drop_length, List.drop_of_length_le hle]

/-- The buffers that are pinned and not yet unpinned hold their blocks. -/
theorem Inv.pinned (hi : Inv A G s x) (hy : y ∈ A.pins.drop A.unpins.length) :
    (s.cache.buf y.1).dev = ROOTDEV ∧ (s.cache.buf y.1).blockno = y.2 ∧ (s.cache.buf y.1).refcnt ≠ 0 := by
  rw [← hi.left_eq] at hy
  have hr := hi.refcnt_of_left hy
  exact ⟨hi.cache.dev _ hr, hi.held y hy, hr⟩

/-- The act at the head of the commit. -/
theorem Inv.code_cons {act : Act} (hi : Inv A G s (some g)) (ht : s.todo = act :: rest) :
    act.pre G A.blocks g ∧ rest.foldr (Act.wp G A.blocks) (· = none) (act.post A.blocks g) := by
  have hc := hi.code
  rw [ht] at hc
  obtain ⟨g', hg, hpre, hpost⟩ := hc
  cases hg
  exact ⟨hpre, hpost⟩

/-- An act that is a test or a loop. -/
theorem Inv.unfold (hi : Inv A G s (some g))
    (hcode : todo.foldr (Act.wp G A.blocks) (· = none) (some g)) : Inv A G { s with todo := todo } (some g) :=
  ⟨hcode, hi.committing, hi.lh, hi.unpins, hi.tmp, hi.cache, hi.held, hi.nodup, hi.wrote, hi.outstanding, hi.quiet, hi.noPanic⟩

/-- The block about to be unpinned is the first of those left, and `dbuf` is the buffer that was pinned for it. -/
theorem Inv.next_unpin (hi : Inv A G s (some g)) (hu : s.cache.use (.tmp .home) = .held i d)
    (hb : A.blocks[g.unpinned]? = some b) (hh : g.home = some b) :
    A.pins[g.unpinned]? = some (i, b) ∧ (s.cache.buf i).blockno = b := by
  have hblock : (s.cache.buf i).blockno = b := by
    have := hi.tmp .home
    simp only [Cache.block, hu, Use.ref, Option.map_some, Option.bind_some, Progress.var, hh, Option.some.injEq] at this
    exact this
  simp only [Account.blocks, List.getElem?_map, Option.map_eq_some_iff] at hb
  obtain ⟨⟨j, b'⟩, hj, rfl⟩ := hb
  have hmem : (j, b') ∈ A.left (some g) := by
    refine List.mem_iff_getElem?.mpr ⟨0, ?_⟩
    rw [Account.left, List.getElem?_drop]
    exact hj
  have hji : j = i := by
    refine hi.cache.uniq j i (hi.cache.dev j (hi.refcnt_of_left hmem)) ?_ ?_
    · exact hi.cache.dev i (hi.cache.refcnt_of_ref (u := .tmp .home) (by rw [hu]; rfl))
    · rw [hi.held _ hmem, hblock]
  subst hji
  exact ⟨hj, hblock⟩

/-- `bunpin` in `install_trans`. -/
theorem Inv.bunpin (hi : Inv A G s (some g)) (hu : s.cache.use (.tmp .home) = .held i d)
    (hb : A.blocks[g.unpinned]? = some b) (hh : g.home = some b)
    (hcode : rest.foldr (Act.wp G A.blocks) (· = none) (some { g with unpinned := g.unpinned + 1, written := false })) :
    Inv { A with unpins := A.unpins ++ [(i, (s.cache.buf i).blockno)] } G
      { s with cache := s.cache.bunpin i, todo := rest } (some { g with unpinned := g.unpinned + 1, written := false }) := by
  obtain ⟨hpin, hblock⟩ := hi.next_unpin hu hb hh
  obtain ⟨hlt, hget⟩ := List.getElem?_eq_some_iff.mp hpin
  have hleft : A.left (some g) = (i, b) :: A.pins.drop (g.unpinned + 1) := by
    rw [Account.left, ← hget]
    exact List.drop_eq_getElem_cons hlt
  have hsame : ∀ j, ((s.cache.bunpin i).buf j).blockno = (s.cache.buf j).blockno := update_keeps (g := Buf.blockno) (by rfl)
  refine ⟨hcode, hi.committing, hi.lh, ?_, fun t => ?_, ?_, fun y hy => ?_, hi.nodup, hi.wrote,
    hi.outstanding, hi.quiet, hi.noPanic⟩
  · show A.unpins ++ _ = A.pins.take (g.unpinned + 1)
    rw [List.take_add_one, hpin, hblock, hi.unpins]
    rfl
  · have hb : (s.cache.bunpin i).block (.tmp t) = s.cache.block (.tmp t) := Cache.block_congr rfl hsame
    refine hb.trans ((hi.tmp t).trans ?_)
    cases t <;> rfl
  · have hp : pinCount (A.left (some g)) i ≠ 0 := by
      rw [hleft]
      exact pinCount_ne_zero (y := (i, b)) List.mem_cons_self
    have hok := hi.cache.bunpin hp
    rw [hleft, pinCount_cons] at hok
    exact hok
  · rw [hsame]
    refine hi.held y ?_
    rw [hleft]
    exact List.mem_cons_of_mem _ hy

/-- `log.lh.n = 0`. -/
theorem Inv.reset (hi : Inv A G s (some (.between A.blocks.length A.blocks.length))) (hne : A.blocks ≠ [])
    (hcode : rest.foldr (Act.wp G A.blocks) (· = none) (some (.finished A.blocks))) :
    Inv A G { s with lh := [], todo := rest } (some (.finished A.blocks)) := by
  refine ⟨hcode, hi.committing, ?_, hi.unpins, fun t => ?_, hi.cache, hi.held, hi.nodup, hi.wrote, hi.outstanding, hi.quiet, hi.noPanic⟩
  · simp [Progress.finished, hne]
  · rw [show s.cache.block (.tmp t) = _ from hi.tmp t]
    cases t <;> rfl

/-- `log.committing = 0`. -/
theorem Inv.done (hi : Inv A G s (some (.finished A.blocks))) :
    Inv { A with ended := [], pins := [], unpins := [] } G { s with committing := false, todo := [] } none := by
  have hleft : A.left (some (.finished A.blocks)) = [] := by
    rw [Account.left]
    exact List.drop_eq_nil_of_le (by simp [unpinned, Progress.finished, Progress.between, Account.blocks])
  have hop : ∀ p, s.inOp p ≠ true := by
    intro p hp
    have hpos := count_pos (· = true) (f := s.inOp) hp
    have hout := hi.outstanding
    have hquiet := hi.quiet rfl
    omega
  refine ⟨rfl, rfl, ?_, rfl, fun t => ?_, ?_, fun y hy => ?_, List.nodup_nil, fun b => ?_, hi.outstanding, by simp, hi.noPanic⟩
  · have hlh := hi.lh
    by_cases hne : A.pins = [] <;> simpa [Progress.finished, Account.blocks, hne] using hlh
  · rw [show s.cache.block (.tmp t) = _ from hi.tmp t]
    cases t <;> rfl
  · have hok := hi.cache
    rw [hleft] at hok
    exact hok
  · cases hy
  · refine iff_of_false (by simp [Account.blocks]) ?_
    rintro (⟨bs, hbs, -⟩ | ⟨p, hp, -⟩)
    · cases hbs
    · exact hop p hp

end

variable [DecidableEq P]

variable [Fintype P] {c' : Cache (User P K) α}

/-! ## Steps of processes -/

/-- A step of a client in the cache. -/
theorem Inv.client (hi : Inv A G s x) (hs : CacheStep s.cache (.client p k) a c') :
    Inv A G { s with cache := c' } x where
  code := hi.code
  committing := hi.committing
  lh := hi.lh
  unpins := hi.unpins
  tmp := fun t => (hi.cache.block_of_ne hs (by simp)).trans (hi.tmp t)
  cache := hi.cache.step hs
  held := fun y hy => (hs.block (hi.refcnt_of_left hy)).2.trans (hi.held y hy)
  nodup := hi.nodup
  wrote := hi.wrote
  outstanding := hi.outstanding
  quiet := hi.quiet
  noPanic := hi.noPanic

/-- `log_write` of a block that is in the log already. -/
theorem Inv.absorb (hi : Inv A G s x) (hu : s.cache.use (.client p k) = .held i d) (hp : s.inOp p = true)
    (hb : (s.cache.buf i).blockno ∈ s.lh) :
    Inv { A with current := update A.current p ((s.cache.buf i).blockno :: A.current p) } G
      { s with cache := s.cache.setUse (.client p k) (.held i false) } x where
  code := hi.code
  committing := hi.committing
  lh := hi.lh
  unpins := hi.unpins
  tmp := fun t => (Cache.block_congr (by simp) fun _ => rfl).trans (hi.tmp t)
  cache := hi.cache.clean hu
  held := hi.held
  nodup := hi.nodup
  wrote := by
    intro b
    rw [Account.wrote_logWrite hp, ← hi.wrote b]
    refine ⟨.inr, ?_⟩
    rintro (rfl | hb')
    · have hx := hi.none_of_inOp hp
      subst hx
      rwa [hi.lh] at hb
    · exact hb'
  outstanding := hi.outstanding
  quiet := hi.quiet
  noPanic := hi.noPanic

/-- `log_write` of a new block. -/
theorem Inv.append (hi : Inv A G s x) (hu : s.cache.use (.client p k) = .held i d) (hp : s.inOp p = true)
    (hb : (s.cache.buf i).blockno ∉ s.lh) :
    Inv { A with
        current := update A.current p ((s.cache.buf i).blockno :: A.current p)
        pins := A.pins ++ [(i, (s.cache.buf i).blockno)] } G
      { s with
        cache := (s.cache.setUse (.client p k) (.held i false)).bpin i
        lh := s.lh ++ [(s.cache.buf i).blockno] } x := by
  have hx := hi.none_of_inOp hp
  subst hx
  have hlh : s.lh = A.blocks := hi.lh
  have hcode : s.todo = [] := by
    cases htodo : s.todo with
    | nil => rfl
    | cons a rest =>
      have hc := hi.code
      rw [htodo] at hc
      obtain ⟨g, hg, -⟩ := hc
      cases hg
  have hdev : (s.cache.buf i).dev = ROOTDEV := hi.cache.dev i (hi.cache.refcnt_of_ref (u := .client p k) (by rw [hu]; rfl))
  have hblocks : Account.blocks { A with
      current := update A.current p ((s.cache.buf i).blockno :: A.current p)
      pins := A.pins ++ [(i, (s.cache.buf i).blockno)] } = A.blocks ++ [(s.cache.buf i).blockno] := by
    simp [Account.blocks]
  have hsame : ∀ j, (((s.cache.setUse (.client p k) (.held i false)).bpin i).buf j).blockno = (s.cache.buf j).blockno :=
    update_keeps (g := Buf.blockno) (by rfl)
  have htmp : ∀ t, ((s.cache.setUse (.client p k) (.held i false)).bpin i).use (.tmp t) = s.cache.use (.tmp t) := by
    intro t
    simp [Cache.bpin]
  refine ⟨?_, hi.committing, ?_, hi.unpins, fun t => (Cache.block_congr (congrArg Use.ref (htmp t)) hsame).trans (hi.tmp t), ?_, fun y hy => ?_,
    ?_, fun b => ?_, hi.outstanding, hi.quiet, hi.noPanic⟩
  · rw [hcode]
    rfl
  · rw [hblocks, hlh]
    rfl
  · have hok := (hi.cache.clean (e := false) hu).bpin (i := i) hdev
    rw [← pinCount_append _ i (s.cache.buf i).blockno] at hok
    exact hok
  · simp only [hsame]
    rcases List.mem_append.mp hy with hy | hy
    · exact hi.held y hy
    · rw [List.mem_singleton.mp hy]
  · rw [hblocks]
    refine List.nodup_append.mpr ⟨hi.nodup, by simp, fun b hb' c hc => ?_⟩
    rintro rfl
    rw [List.mem_singleton.mp hc, ← hlh] at hb'
    exact hb hb'
  · rw [hblocks, List.mem_append, List.mem_singleton, hi.wrote b, or_comm]
    exact (Account.wrote_logWrite hp).symm

/-- `begin_op` -/
theorem Inv.beginOp (hi : Inv A G s x) (hp : s.inOp p = false) (hc : s.committing = false) :
    Inv { A with current := update A.current p [] } G
      { s with outstanding := s.outstanding + 1, inOp := update s.inOp p true } x where
  code := hi.code
  committing := hi.committing
  lh := hi.lh
  unpins := hi.unpins
  tmp := hi.tmp
  cache := hi.cache
  held := hi.held
  nodup := hi.nodup
  wrote := fun b => (hi.wrote b).trans (Account.wrote_beginOp hp).symm
  outstanding := by
    have hup := count_update (· = true) s.inOp p true
    have hout := hi.outstanding
    simp only [hp, Bool.false_eq_true, if_false, if_true] at hup
    show s.outstanding + 1 = count (· = true) (update s.inOp p true)
    omega
  quiet := by
    intro hx
    cases hx.symm.trans (hi.committing.symm.trans hc)
  noPanic := hi.noPanic

/-- `end_op`.  The last operation to end starts a commit. -/
theorem Inv.endOp (hi : Inv A G s x) (hp : s.inOp p = true) :
    Inv { A with ended := A.current p :: A.ended } G (s.endOp p)
      (if s.outstanding = 1 then some (.between 0 0) else none) := by
  have hx := hi.none_of_inOp hp
  subst hx
  have hcommit : s.committing = false := hi.committing
  have hout : s.outstanding - 1 = count (· = true) (update s.inOp p false) := by
    have hup := count_update (· = true) s.inOp p false
    have hout := hi.outstanding
    simp only [hp, Bool.false_eq_true, if_false, if_true] at hup
    omega
  have hpos : 0 < s.outstanding := by
    rw [hi.outstanding]
    exact count_pos (· = true) (f := s.inOp) hp
  have hwrote := fun b => (hi.wrote b).trans (Account.wrote_endOp hp).symm
  unfold Blocks.endOp
  simp only [hcommit, Bool.false_eq_true, if_false]
  by_cases h1 : s.outstanding = 1
  · rw [if_pos h1, if_pos (by omega)]
    refine ⟨?_, rfl, hi.lh, hi.unpins, fun t => ?_, hi.cache, hi.held, hi.nodup, hwrote, hout, fun _ => ?_, hi.noPanic⟩
    · exact ⟨_, rfl, rfl, _, rfl, rfl, rfl⟩
    · rw [show (some (Progress.between 0 0)).bind (fun g => g.var t) = none by cases t <;> rfl]
      exact hi.tmp t
    · show s.outstanding - 1 = 0
      omega
  · rw [if_neg h1, if_neg (by omega)]
    exact ⟨hi.code, rfl, hi.lh, hi.unpins, hi.tmp, hi.cache, hi.held, hi.nodup, hwrote, hout, by simp, hi.noPanic⟩

/-! ## Acts of `commit()` -/

/-- A step of the cache by `commit()`. -/
theorem Inv.tmpStep (hi : Inv A G s (some g))
    (hs : CacheStep s.cache (.tmp t) a c') (hcode : rest.foldr (Act.wp G A.blocks) (· = none) (some g'))
    (hg : g'.unpinned = g.unpinned ∧ g'.cleared = g.cleared) (hvar : ∀ t' ≠ t, g'.var t' = g.var t')
    (hblock : c'.block (.tmp t) = g'.var t) : Inv A G { s with cache := c', todo := rest } (some g') := by
  have hleft : A.left (some g') = A.left (some g) := by
    simp only [Account.left, unpinned, hg.1]
  refine ⟨hcode, hi.committing, ?_, ?_, fun t' => ?_, ?_, fun y hy => ?_, hi.nodup, hi.wrote, hi.outstanding, hi.quiet, hi.noPanic⟩
  · have hlh := hi.lh
    simp only [Option.any_some, hg.2] at hlh ⊢
    exact hlh
  · rw [hi.unpins]
    simp only [unpinned, hg.1]
  · by_cases ht : t' = t
    · subst ht
      exact hblock
    · refine (hi.cache.block_of_ne hs (by simpa using ht)).trans ((hi.tmp t').trans ?_)
      exact (hvar t' ht).symm
  · rw [hleft]
    exact hi.cache.step hs
  · rw [hleft] at hy
    exact (hs.block (hi.refcnt_of_left hy)).2.trans (hi.held y hy)

/-- A step of the cache by `commit()`, or a panic. -/
theorem Inv.run (hi : Inv A G s (some g)) (hs : s.run (.tmp t) a rest = some s')
    (hpanic : s.panic = none) (hcode : rest.foldr (Act.wp G A.blocks) (· = none) (some g'))
    (hg : g'.unpinned = g.unpinned ∧ g'.cleared = g.cleared) (hvar : ∀ t' ≠ t, g'.var t' = g.var t')
    (hblock : g'.var t = a.blockAfter (g.var t)) : Inv A G s' (if s'.panic = none then some g' else some g) := by
  rcases Blocks.run_cases hs with ⟨c', hc, rfl⟩ | ⟨-, rfl⟩
  · rw [if_pos hpanic]
    refine hi.tmpStep hc hcode hg hvar (hc.block_self.trans ?_)
    rw [hblock, show s.cache.block (.tmp t) = g.var t from hi.tmp t]
  · exact hi.panic (by simp)

variable [HeaderBlock α]

/-- **An act of `commit()`.** -/
theorem Inv.act {act : Act} (hi : Inv A G s (some g)) (ht : s.todo = act :: rest)
    (hs : s.act G rest act = some s') (hpanic : s.panic = none) :
    Inv (A.next G (s, .commit)) G s' (if s'.panic = none then act.next A.blocks g else some g) := by
  obtain ⟨hpre, hpost⟩ := hi.code_cons ht
  have hA : (∀ i d, act = .bunpin → s.cache.use (.tmp .home) ≠ .held i d) → act ≠ .done → A.next G (s, .commit) = A := by
    intro hb hd
    simp only [Account.next, ht]
    cases act with
    | done => exact absurd rfl hd
    | bunpin =>
      simp only
      split
      · exact absurd ‹_› (hb _ _ rfl)
      · rfl
    | _ => rfl
  have hnil : s.lh = A.blocks ∨ g.cleared = true := by
    have hlh := hi.lh
    by_cases hc : g.cleared = true
    · exact .inr hc
    · exact .inl (by simpa [hc] using hlh)
  cases act with
  | bget t b =>
    rw [hA (by simp) (by simp)]
    obtain ⟨hun, hcl, hvar⟩ := g.setVar_fields (some b) t
    exact hi.run hs hpanic hpost ⟨hun, hcl⟩ (fun _ ht => g.setVar_of_ne _ ht) hvar
  | lock t | fill t | unlock t =>
    rw [hA (by simp) (by simp)]
    exact hi.run hs hpanic hpost ⟨rfl, rfl⟩ (fun _ _ => rfl) rfl
  | bwrite t =>
    rw [hA (by simp) (by simp)]
    cases t with
    | home => exact hi.run hs hpanic hpost ⟨rfl, rfl⟩ (fun t' _ => by cases t' <;> rfl) rfl
    | log =>
      refine hi.run hs hpanic hpost ?_ (fun t' _ => ?_) ?_
      · split_ifs <;> exact ⟨rfl, rfl⟩
      · split_ifs <;> cases t' <;> rfl
      · split_ifs <;> rfl
  | brelse t =>
    rw [hA (by simp) (by simp)]
    obtain ⟨hun, hcl, hvar⟩ := g.setVar_fields none t
    exact hi.run hs hpanic hpost ⟨hun, hcl⟩ (fun _ ht => g.setVar_of_ne _ ht) hvar
  | copyToLog | copyToHome | putHead =>
    rw [hA (by simp) (by simp)]
    simp only [Blocks.act] at hs
    split at hs
    · exact hi.run hs hpanic hpost ⟨rfl, rfl⟩ (fun t' _ => by cases t' <;> rfl) rfl
    · cases hs
  | bunpin =>
    obtain ⟨⟨b, hb, hh⟩, -⟩ := hpre
    simp only [Blocks.act] at hs
    split at hs
    · rename_i i d hu
      cases hs
      have hA' : A.next G (s, .commit) = { A with unpins := A.unpins ++ [(i, (s.cache.buf i).blockno)] } := by
        simp only [Account.next, ht, hu]
      rw [if_pos hpanic, hA']
      exact hi.bunpin hu hb hh hpost
    · cases hs
  | commit =>
    cases hs
    rw [if_pos hpanic, hA (by simp) (by simp)]
    have hlh : s.lh = A.blocks := by
      refine hnil.resolve_right ?_
      rw [show g = _ from hpre]
      simp [Progress.between]
    refine hi.unfold ?_
    rw [hlh]
    exact wp_commit hpre hpost
  | writeLog tail =>
    cases hs
    rw [if_pos hpanic, hA (by simp) (by simp)]
    obtain ⟨hg, hle⟩ := hpre
    have hlh : s.lh = A.blocks := by
      refine hnil.resolve_right ?_
      rw [hg]
      simp [Progress.between]
    refine hi.unfold ?_
    rw [hlh]
    exact wp_writeLog hg hle hpost
  | install tail =>
    cases hs
    rw [if_pos hpanic, hA (by simp) (by simp)]
    obtain ⟨hg, hle⟩ := hpre
    have hlh : s.lh = A.blocks := by
      refine hnil.resolve_right ?_
      rw [hg]
      simp [Progress.between]
    refine hi.unfold ?_
    rw [hlh]
    exact wp_install hg hle hpost
  | reset =>
    cases hs
    obtain ⟨rfl, hne⟩ := hpre
    rw [if_pos hpanic, hA (by simp) (by simp)]
    exact hi.reset hne hpost
  | done =>
    cases hs
    obtain rfl : g = .finished A.blocks := hpre
    have hrest : rest = [] := by
      cases rest with
      | nil => rfl
      | cons a rest =>
        obtain ⟨g, hg, -⟩ := hpost
        cases hg
    have hA' : A.next G (s, .commit) = { A with ended := [], pins := [], unpins := [] } := by
      simp only [Account.next, ht]
    rw [if_pos hpanic, hA', hrest]
    exact hi.done

/-! ## Runs -/

/-- **A step of the machine.** -/
theorem Inv.step (hi : Inv A G s x) (hs : s.step G e = some s') :
    Inv (A.next G (s, e)) G s' (if s'.panic = none then advance A.blocks x s e else x) := by
  have hsame : ∀ c : Prop, [Decidable c] → (if c then x else x) = x := fun c _ => ite_self x
  cases BlockStep.of_step hs with
  | client _ hc =>
    simp only [advance, hsame]
    exact hi.client hc
  | clientPanic =>
    simp only [advance, hsame]
    exact hi.panic (by simp)
  | @logPanic p k i d q _ hu hp hlw =>
    have hA : A.next G (s, .logWrite p k) = A := by simp only [Account.next, hu, hlw]
    rw [hA]
    simp only [advance, hsame]
    refine hi.panic ?_
    rintro rfl
    unfold Blocks.logWritePanic at hlw
    split_ifs at hlw <;> cases hlw
  | @absorb p k i d _ hu hp hlw hb =>
    have hA : A.next G (s, .logWrite p k) =
        { A with current := update A.current p ((s.cache.buf i).blockno :: A.current p) } := by
      simp only [Account.next, hu, hlw, if_pos hb]
    rw [hA]
    simp only [advance, hsame]
    exact hi.absorb hu hp hb
  | @append p k i d _ hu hp hlw hb =>
    have hA : A.next G (s, .logWrite p k) =
        { A with
          current := update A.current p ((s.cache.buf i).blockno :: A.current p)
          pins := A.pins ++ [(i, (s.cache.buf i).blockno)] } := by
      simp only [Account.next, hu, hlw, if_neg hb]
    rw [hA]
    simp only [advance, hsame]
    exact hi.append hu hp hb
  | @beginOp p _ hp hc =>
    simp only [advance, hsame]
    exact hi.beginOp hp hc
  | @endOp p hpanic hp =>
    have hend := hi.endOp hp
    have hx := hi.none_of_inOp hp
    subst hx
    have hpanic' : (s.endOp p).panic = none := by
      have hc : s.committing = false := hi.committing
      unfold Blocks.endOp
      simp only [hc, Bool.false_eq_true, if_false]
      split_ifs <;> exact hpanic
    rw [if_pos hpanic']
    exact hend
  | @act a rest s' hpanic ht hact =>
    have hc := hi.code
    rw [ht] at hc
    obtain ⟨g, rfl, -⟩ := hc
    have hinv := hi.act ht hact hpanic
    rwa [show advance A.blocks (some g) s .commit = a.next A.blocks g by simp only [advance, ht]]

/-- **The invariant of all runs.** -/
theorem inv_of_path (hp : Lts.Path (Blocks.step G) (Blocks.boot data disk) h s) :
    ∃ x, Inv (account G h) G s x := by
  induction hp with
  | nil =>
    refine ⟨none, rfl, rfl, rfl, rfl, fun t => rfl, ?_, fun y hy => ?_, List.nodup_nil, fun b => ?_, ?_, by simp, by simp [Blocks.boot]⟩
    · exact Cache.ok_binit data disk
    · cases hy
    · refine iff_of_false (by simp [Account.blocks, account]) ?_
      rintro (⟨bs, hbs, -⟩ | ⟨p, hp, -⟩)
      · cases hbs
      · cases hp
    · exact (count_eq_zero _ fun p => by simp [Blocks.boot]).symm
  | snoc hp hs ih =>
    obtain ⟨x, hi⟩ := ih
    exact ⟨_, hi.step hs⟩

/-- What holds of operations and commits in a run. -/
structure GroupCommit (G : Geometry) (h : List (Blocks P K α × BlockEvent P K α)) (s : Blocks P K α) : Prop where
  /-- While `commit()` runs no operation is outstanding, and nobody can call `log_write`. -/
  quiet : s.committing = true → s.outstanding = 0 ∧ (∀ p, s.inOp p = false) ∧ ∀ p k, s.step G (.logWrite p k) = none
  /-- When `commit()` is called, `log.lh` lists, once each, the blocks of the operations that have ended since the last commit,
  and for each of them one buffer has been pinned since then, and none unpinned. -/
  starts : s.todo = [.commit, .done] → s.lh.Nodup ∧ (∀ b, b ∈ s.lh ↔ ∃ bs ∈ (account G h).ended, b ∈ bs) ∧
    (account G h).pins.map Prod.snd = s.lh ∧ (account G h).unpins = []
  /-- When it returns, those buffers have been unpinned, once each. -/
  ends : s.todo = [.done] → (account G h).unpins = (account G h).pins
  /-- Until then they hold their blocks. -/
  pinned : ∀ y ∈ (account G h).pins.drop (account G h).unpins.length,
    (s.cache.buf y.1).dev = ROOTDEV ∧ (s.cache.buf y.1).blockno = y.2 ∧ (s.cache.buf y.1).refcnt ≠ 0
  noPanic : s.panic ≠ some .committing

/-- **Group commit keeps operations whole.** -/
theorem group_commit
    (hp : Lts.Path (Blocks.step G) (Blocks.boot data disk) h s) : GroupCommit G h s := by
  obtain ⟨x, hi⟩ := inv_of_path hp
  have hop : s.committing = true → ∀ p, s.inOp p = false := by
    intro hc p
    rw [Bool.eq_false_iff]
    intro hpin
    have hx := hi.none_of_inOp hpin
    rw [hi.committing, hx] at hc
    cases hc
  refine ⟨fun hc => ⟨hi.quiet (hi.committing ▸ hc), hop hc, fun p k => ?_⟩, fun ht => ?_, fun ht => ?_, fun y hy => ?_, hi.noPanic⟩
  · unfold Blocks.step
    split_ifs
    · rfl
    · simp only [hop hc p]
      split <;> rfl
  · have hcode := hi.code
    rw [ht] at hcode
    obtain ⟨g, rfl, rfl, -⟩ := hcode
    have hlh : s.lh = (account G h).blocks := hi.lh
    have hnone : ∀ p, s.inOp p = false := hop hi.committing
    refine ⟨hlh ▸ hi.nodup, fun b => ?_, hlh.symm, hi.unpins⟩
    rw [hlh, hi.wrote b]
    refine or_iff_left ?_
    rintro ⟨p, hp, -⟩
    cases hp.symm.trans (hnone p)
  · have hcode := hi.code
    rw [ht] at hcode
    obtain ⟨g, rfl, rfl, -⟩ := hcode
    rw [hi.unpins]
    exact List.take_of_length_le (by simp [unpinned, Progress.finished, Progress.between, Account.blocks])
  · exact hi.pinned hy

/-! ## Runs of a few processes -/

/-- Processes that have one buffer each, with blocks of words. -/
abbrev Small (n : ℕ) : Type := Blocks (Fin n) 1 Words

abbrev SmallEvent (n : ℕ) : Type := BlockEvent (Fin n) 1 Words

/-- A run from a disk of zeros, with the log where `mkfs` places it. -/
abbrev SmallRun {n : ℕ} : List (Small n × SmallEvent n) → Small n → Prop :=
  Lts.Path (Blocks.step mkfsLog) (Blocks.boot (fun _ _ => 0) fun _ _ => 0)

theorem exists_smallRun {n : ℕ} (Q : List (Small n × SmallEvent n) → Small n → Prop) [∀ h s, Decidable (Q h s)]
    (es : List (SmallEvent n)) (hr : ((Lts.replay (Blocks.step mkfsLog) [] (Blocks.boot (fun _ _ => 0) fun _ _ => 0) es).any
      fun x => decide (Q x.1 x.2)) = true) : ∃ h s, SmallRun h s ∧ Q h s :=
  Lts.exists_path_of_replay Q es hr

/-- Process `p` reads block `b` and changes it. -/
def changeBlock {n : ℕ} (p : Fin n) (b v : ℕ) : List (SmallEvent n) :=
  [.client p 0 (.bget b), .client p 0 .lock, .client p 0 .fill, .client p 0 (.modify fun _ => v)]

def relse {n : ℕ} (p : Fin n) : List (SmallEvent n) := [.client p 0 .unlock, .client p 0 .brelse]

/-- Two operations overlap, and both write block 50; the commit has come to its end. -/
def twoOps : List (SmallEvent 2) :=
  [.beginOp 0, .beginOp 1] ++ changeBlock 0 50 7 ++ .logWrite 0 0 :: relse 0 ++ changeBlock 1 50 8 ++ .logWrite 1 0 :: relse 1 ++
    .endOp 0 :: changeBlock 1 51 9 ++ .logWrite 1 0 :: relse 1 ++ .endOp 1 :: List.replicate 72 .commit

theorem group_commit_two : ∃ (h : List (Small 2 × SmallEvent 2)) (s : Small 2), SmallRun h s ∧ s.todo = [.done] ∧
    (account mkfsLog h).ended = [[51, 50], [50]] ∧ (account mkfsLog h).pins.map Prod.snd = [50, 51] ∧ s.cache.disk 50 0 = 8 ∧
    s.cache.disk 51 0 = 9 ∧ GroupCommit mkfsLog h s := by
  obtain ⟨h, s, hp, htodo, hended, hpins, h50, h51⟩ := exists_smallRun
    (fun h s => s.todo = [.done] ∧ (account mkfsLog h).ended = [[51, 50], [50]] ∧
      (account mkfsLog h).pins.map Prod.snd = [50, 51] ∧ s.cache.disk 50 0 = 8 ∧ s.cache.disk 51 0 = 9) twoOps (by decide +kernel)
  exact ⟨h, s, hp, htodo, hended, hpins, h50, h51, group_commit hp⟩

/-! ## References to buffers -/

/-- **Buffers are accounted for.**  A buffer has as many references as users and pins of the log; its sleep-lock is held by the user that
has it locked, and its data are valid for that user; no block is in two buffers. -/
theorem buffers_accounted (hp : Lts.Path (Blocks.step G) (Blocks.boot data disk) h s) :
    s.cache.Ok (pinCount ((account G h).pins.drop (account G h).unpins.length)) := by
  obtain ⟨x, hi⟩ := inv_of_path hp
  rw [← hi.left_eq]
  exact hi.cache

/-- While the second process has the block that both have written, there are its reference and that of the log. -/
theorem buffers_accounted_two : ∃ (h : List (Small 2 × SmallEvent 2)) (s : Small 2), SmallRun h s ∧
    s.cache.use (.client 1 0) = .held 0 false ∧ (s.cache.buf 0).blockno = 50 ∧ (s.cache.buf 0).refcnt = 2 := by
  obtain ⟨h, s, hp, hheld, hblock, hcount, hpin⟩ := exists_smallRun
    (fun h s => s.cache.use (.client 1 0) = .held 0 false ∧ (s.cache.buf 0).blockno = 50 ∧
      count (fun x => Use.ref x = some 0) s.cache.use = 1 ∧
      pinCount ((account mkfsLog h).pins.drop (account mkfsLog h).unpins.length) 0 = 1) (twoOps.take 14) (by decide +kernel)
  refine ⟨h, s, hp, hheld, hblock, ?_⟩
  rw [(buffers_accounted hp).refcnt 0, hpin, hcount]

end Xv6Mlfq.Fs
