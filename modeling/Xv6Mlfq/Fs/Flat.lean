import Xv6Mlfq.Fs.Operations

/-!
# Xv6Mlfq.Fs.Flat — the buffer cache and the log as a flat store of blocks

`flat disk h` is the store that the modifications of a run make of the initial disk, as if there were neither cache nor log.
`Data` relates it to the buffers, the disk and the copies in the log; `flat_store` says that `bread` returns what it holds.

A process must not touch the blocks of the log, must write what it has changed before it calls `brelse`, and must not change a
block that is being committed: `install_trans` would put the copy in the log over it (`bwrite_lost`).
-/

namespace Xv6Mlfq.Fs

open Function Tally

variable {P : Type} {K n : ℕ} {α : Type} {G : Geometry} {s s' : Blocks P K α} {e : BlockEvent P K α}
  {h : List (Blocks P K α × BlockEvent P K α)} {x : Option Progress} {p : P} {k : Fin K} {i j : Fin NBUF}
  {u : User P K} {a : CacheOp α} {c c' : Cache (User P K) α} {bs pend' : List ℕ} {F F' disk : ℕ → α}
  {pin : Fin NBUF → ℕ} {b : ℕ} {d : Bool} {g : Progress} {v : α} {rest : List Act}

/-! ## The flat store -/

/-- What a step does to the flat store. -/
def flatAt (z : Blocks P K α × BlockEvent P K α) (F : ℕ → α) : ℕ → α :=
  match z.2 with
  | .client p k (.modify v) =>
    match z.1.cache.use (.client p k) with
    | .held i _ => update F (z.1.cache.buf i).blockno v
    | _ => F
  | _ => F

/-- The last modification of each block in the run, or the initial contents. -/
def flat (disk : ℕ → α) (h : List (Blocks P K α × BlockEvent P K α)) : ℕ → α := h.foldr flatAt disk

/-- The block that a process has last asked `bread` for. -/
def asked [DecidableEq P] (p : P) (k : Fin K) : List (Blocks P K α × BlockEvent P K α) → Option ℕ
  | [] => none
  | (_, .client q l (.bget b)) :: h => if q = p ∧ l = k then some b else asked p k h
  | _ :: h => asked p k h

/-- What processes must keep to: no block of the log; every modification is followed by `log_write` or `bwrite`. -/
def Proper (G : Geometry) (z : Blocks P K α × BlockEvent P K α) : Prop :=
  match z.2 with
  | .client _ _ (.bget b) => ¬ G.InLog b
  | .client p k .unlock => ∀ i, z.1.cache.use (.client p k) ≠ .held i true
  | _ => True

/-- No block is modified while it is being committed. -/
def Apart (z : Blocks P K α × BlockEvent P K α) : Prop :=
  match z.2 with
  | .client p k (.modify _) => z.1.committing = true → ∀ i d, z.1.cache.use (.client p k) = .held i d →
      (z.1.cache.buf i).blockno ∉ z.1.lh
  | _ => True

instance (G : Geometry) (z : Blocks P K α × BlockEvent P K α) : Decidable (Proper G z) := by
  unfold Proper
  split <;> infer_instance

instance [DecidableEq P] (z : Blocks P K α × BlockEvent P K α) : Decidable (Apart z) := by
  unfold Apart
  split <;> infer_instance

/-! ## The invariant -/

/-- The buffer of a block, with its contents. -/
structure Cached (c : Cache (User P K) α) (i : Fin NBUF) (b : ℕ) : Prop where
  dev : (c.buf i).dev = ROOTDEV
  block : (c.buf i).blockno = b
  valid : (c.buf i).valid = true

/-- The cache, the disk and the flat store `F`; `pend` are the blocks that are in the log and not installed. -/
structure Base (G : Geometry) (F : ℕ → α) (pend : List ℕ) (c : Cache (User P K) α) : Prop where
  cached : ∀ i b, Cached c i b → ¬ G.InLog b → (c.buf i).data = F b
  disk : ∀ b, ¬ G.InLog b → c.disk b = F b ∨ ∃ i, Cached c i b ∧ (b ∈ pend ∨ ∃ u, c.use u = .held i true)
  log : ∀ i b, Cached c i b → G.InLog b → (c.buf i).data = c.disk b ∨ ∃ u, c.use u = .held i true
  clients : ∀ p k b, c.block (.client p k) = some b → ¬ G.InLog b

/-- The copies in the log, and what else a commit of the blocks `bs` has made of the cache. -/
structure Stage (G : Geometry) (F : ℕ → α) (bs : List ℕ) (c : Cache (User P K) α) (g : Progress) : Prop where
  copied : g.cleared = false → ∀ t < g.copied, ∀ b, bs[t]? = some b → c.disk (G.start + t + 1) = F b
  ready : g.ready = true → g.cleared = false ∧ g.log = some (G.start + g.copied + 1) ∧
    ∃ i b, c.use (.tmp .log) = .held i true ∧ bs[g.copied]? = some b ∧ (c.buf i).data = F b
  written : g.written = true → g.cleared = false ∧ ∀ b, bs[g.unpinned]? = some b → c.disk b = F b
  dirty : ∀ t i, c.use (.tmp t) = .held i true → g.dirty = some t

/-- The state and the flat store. -/
structure Data (G : Geometry) (F : ℕ → α) (bs : List ℕ) (c : Cache (User P K) α) (x : Option Progress) : Prop where
  base : Base G F (bs.drop (unpinned x)) c
  outside : ∀ b ∈ bs, ¬ G.InLog b
  fits : bs.length ≤ G.size - 1
  stage : ∀ g, x = some g → Stage G F bs c g

/-! ## Steps that change no data -/

/-- All but `modify` and `bwrite`; and none leaves modified data behind. -/
def CacheOp.Quiet (c : Cache (User P K) α) (u : User P K) : CacheOp α → Prop
  | .modify _ | .bwrite => False
  | .unlock => ∀ i, c.use u ≠ .held i true
  | _ => True

theorem cached_congr (hdev : (c'.buf j).dev = (c.buf j).dev) (hblock : (c'.buf j).blockno = (c.buf j).blockno)
    (hvalid : (c'.buf j).valid = (c.buf j).valid) : Cached c' j b ↔ Cached c j b :=
  ⟨fun h => ⟨hdev.symm.trans h.dev, hblock.symm.trans h.block, hvalid.symm.trans h.valid⟩,
    fun h => ⟨hdev.trans h.dev, hblock.trans h.block, hvalid.trans h.valid⟩⟩

section Quiet

variable [DecidableEq P]

theorem CacheStep.disk_of_quiet (hs : CacheStep c u a c') (ha : a.Quiet c u) : c'.disk = c.disk := by
  cases hs with
  | modify | bwrite => exact ha.elim
  | brelse => exact Cache.brelse_disk
  | _ => rfl

theorem CacheStep.dirty_of_quiet (hs : CacheStep c u a c') (ha : a.Quiet c u) (v : User P K) (j : Fin NBUF) :
    c'.use v = .held j true ↔ c.use v = .held j true := by
  rcases eq_or_ne v u with rfl | hvu
  swap
  · rw [hs.use_of_ne hvu]
  cases hs with
  | modify | bwrite => exact ha.elim
  | hit hu | recycle hu | lock hu | filled hu | fill hu | brelse hu => simp [hu]
  | unlock hu => simpa using ha j

/-- A buffer in use keeps its contents. -/
theorem CacheStep.cached_of_quiet (hs : CacheStep c u a c') (ha : a.Quiet c u) (hj : Cached c j b)
    (hr : (c.buf j).refcnt ≠ 0) : Cached c' j b ∧ (c'.buf j).data = (c.buf j).data := by
  obtain ⟨hdev, hblock, hvalid⟩ := hj
  obtain ⟨hdev', hblock'⟩ := hs.block hr
  suffices hv : (c'.buf j).valid = true ∧ (c'.buf j).data = (c.buf j).data from
    ⟨⟨hdev'.trans hdev, hblock'.trans hblock, hv.1⟩, hv.2⟩
  cases hs with
  | modify | bwrite => exact ha.elim
  | filled => exact ⟨hvalid, rfl⟩
  | @recycle b i _ _ hi =>
    have hji : j ≠ i := by
      rintro rfl
      exact hr hi
    simp [update_of_ne hji, hvalid]
  | @fill i _ hv =>
    have hji : j ≠ i := by
      rintro rfl
      cases hvalid.symm.trans hv
    simp [update_of_ne hji, hvalid]
  | @hit _ i | @lock i | @unlock i | @brelse i =>
    rcases eq_or_ne j i with rfl | hji
    · simp [hvalid]
    · simp [update_of_ne hji, hvalid]

variable [Fintype P]

/-- The contents of a buffer were there before, or are those on disk of a block that was nowhere in the cache. -/
theorem CacheStep.of_cached (hs : CacheStep c u a c') (ha : a.Quiet c u) (hok : c.Ok pin) (hj : Cached c' j b) :
    (Cached c j b ∧ (c'.buf j).data = (c.buf j).data) ∨ ((c'.buf j).data = c.disk b ∧ ∀ i, ¬ Cached c i b) := by
  obtain ⟨hdev, hblock, hvalid⟩ := hj
  cases hs with
  | modify | bwrite => exact ha.elim
  | filled => exact .inl ⟨⟨hdev, hblock, hvalid⟩, rfl⟩
  | @recycle b i =>
    have hji : j ≠ i := by
      rintro rfl
      simp at hvalid
    simp only [Cache.setUse_buf, Cache.setBuf_buf, update_of_ne hji] at hdev hblock hvalid
    exact .inl ⟨⟨hdev, hblock, hvalid⟩, by simp [update_of_ne hji]⟩
  | @fill i _ hv =>
    rcases eq_or_ne j i with rfl | hji
    · simp only [Cache.setUse_buf, Cache.setBuf_buf, update_self] at hdev hblock ⊢
      refine .inr ⟨by rw [hblock], fun i hi => ?_⟩
      obtain rfl := hok.uniq i j hi.dev hdev (hi.block.trans hblock.symm)
      cases hi.valid.symm.trans hv
    · simp only [Cache.setUse_buf, Cache.setBuf_buf, update_of_ne hji] at hdev hblock hvalid
      exact .inl ⟨⟨hdev, hblock, hvalid⟩, by simp [update_of_ne hji]⟩
  | @hit _ i | @lock i | @unlock i | @brelse i =>
    rcases eq_or_ne j i with rfl | hji
    · simp only [Cache.setUse_buf, Cache.setBuf_buf, Cache.brelse_buf, update_self] at hdev hblock hvalid
      exact .inl ⟨⟨hdev, hblock, hvalid⟩, by simp⟩
    · simp only [Cache.setUse_buf, Cache.setBuf_buf, Cache.brelse_buf, update_of_ne hji] at hdev hblock hvalid
      exact .inl ⟨⟨hdev, hblock, hvalid⟩, by simp [update_of_ne hji]⟩

omit [DecidableEq P] in
/-- A buffer that a user has back from `bread`. -/
theorem Cache.Ok.cached (hok : c.Ok pin) (hu : c.use u = .held i d) : Cached c i (c.buf i).blockno :=
  ⟨hok.dev i (hok.refcnt_of_ref (u := u) (by rw [hu]; rfl)), rfl, hok.valid u i d hu⟩

end Quiet

/-- What a commit has done is not affected by a step that leaves the log, the blocks committed and its own buffers alone. -/
theorem Stage.keep (hst : Stage G F bs c g) (hfits : bs.length ≤ G.size - 1)
    (hF : g.cleared = false → ∀ b ∈ bs, F' b = F b) (hlog : ∀ b, G.InLog b → c'.disk b = c.disk b)
    (hbs : g.cleared = false → ∀ b ∈ bs, c.disk b = F b → c'.disk b = F b)
    (huse : ∀ t i, c'.use (.tmp t) = .held i true ↔ c.use (.tmp t) = .held i true)
    (hdata : ∀ i, c.use (.tmp .log) = .held i true → (c'.buf i).data = (c.buf i).data) : Stage G F' bs c' g := by
  refine ⟨fun hcl t ht b hb => ?_, fun hr => ?_, fun hw => ?_, fun t i hu => hst.dirty t i ((huse t i).mp hu)⟩
  · have hlt := (List.getElem?_eq_some_iff.mp hb).1
    have hpos := G.pos
    rw [hF hcl b (List.mem_of_getElem? hb), hlog _ ⟨by omega, by omega⟩]
    exact hst.copied hcl t ht b hb
  · obtain ⟨hcl, hl, i, b, hu, hb, hv⟩ := hst.ready hr
    refine ⟨hcl, hl, i, b, (huse _ i).mpr hu, hb, ?_⟩
    rw [hdata i hu, hF hcl b (List.mem_of_getElem? hb), hv]
  · obtain ⟨hcl, hb⟩ := hst.written hw
    refine ⟨hcl, fun b hget => ?_⟩
    rw [hF hcl b (List.mem_of_getElem? hget)]
    exact hbs hcl b (List.mem_of_getElem? hget) (hb b hget)

section Steps

variable [DecidableEq P] [Fintype P] {pend : List ℕ}

/-- **Steps that change no data.** -/
theorem Base.quiet (hd : Base G F pend c) (hok : c.Ok pin) (hpin : ∀ i b, Cached c i b → b ∈ pend → (c.buf i).refcnt ≠ 0)
    (hs : CacheStep c u a c') (ha : a.Quiet c u) (hclient : ∀ p k b, u = .client p k → a = .bget b → ¬ G.InLog b) :
    Base G F pend c' := by
  have hdisk := hs.disk_of_quiet ha
  have hdirty := hs.dirty_of_quiet ha
  refine ⟨fun j b hj hb => ?_, fun b hb => ?_, fun j b hj hb => ?_, fun p k b hb => ?_⟩
  · rcases hs.of_cached ha hok hj with ⟨hj', heq⟩ | ⟨heq, hnone⟩
    · rw [heq]
      exact hd.cached j b hj' hb
    · rw [heq]
      exact (hd.disk b hb).resolve_right fun ⟨i, hi, _⟩ => hnone i hi
  · rw [hdisk]
    rcases hd.disk b hb with heq | ⟨i, hi, hwhy⟩
    · exact .inl heq
    · have hr : (c.buf i).refcnt ≠ 0 := by
        rcases hwhy with hmem | ⟨v, hv⟩
        · exact hpin i b hi hmem
        · exact hok.refcnt_of_ref (u := v) (by rw [hv]; rfl)
      refine .inr ⟨i, (hs.cached_of_quiet ha hi hr).1, ?_⟩
      simpa only [hdirty] using hwhy
  · simp only [hdisk, hdirty]
    rcases hs.of_cached ha hok hj with ⟨hj', heq⟩ | ⟨heq, -⟩
    · rw [heq]
      exact hd.log j b hj' hb
    · exact .inl heq
  · by_cases hu : .client p k = u
    · subst hu
      rw [hs.block_self] at hb
      cases a with
      | bget b' =>
        obtain rfl := Option.some.inj hb
        exact hclient p k _ rfl rfl
      | brelse => cases hb
      | _ => exact hd.clients p k b hb
    · rw [hok.block_of_ne hs hu] at hb
      exact hd.clients p k b hb

theorem Stage.quiet (hst : Stage G F bs c g) (hfits : bs.length ≤ G.size - 1) (hok : c.Ok pin)
    (hs : CacheStep c u a c') (ha : a.Quiet c u) : Stage G F bs c' g := by
  have hdisk := hs.disk_of_quiet ha
  refine hst.keep hfits (fun _ _ _ => rfl) (fun b _ => by rw [hdisk]) (fun _ b _ hb => by rwa [hdisk])
    (fun t i => hs.dirty_of_quiet ha _ i) fun i hu => ?_
  exact (hs.cached_of_quiet ha (hok.cached hu) (hok.refcnt_of_ref (u := .tmp .log) (by rw [hu]; rfl))).2

omit [Fintype P] in
/-- Who holds modified data when user `u` has set its own mark. -/
theorem dirty_setUse {e : Bool} {w : User P K} (hu : c.use u = .held i d)
    (hw : c.use w = .held j true) (hji : j ≠ i) : update c.use u (.held i e) w = .held j true := by
  have hwu : w ≠ u := by
    rintro rfl
    rw [hu] at hw
    cases hw
    exact hji rfl
  rwa [update_of_ne hwu]

omit [DecidableEq P] [Fintype P] in
/-- A step in which no buffer turns to another block, nor does any user. -/
theorem Base.of_same (hd : Base G F pend c)
    (hbuf : ∀ j, (c'.buf j).dev = (c.buf j).dev ∧ (c'.buf j).blockno = (c.buf j).blockno ∧ (c'.buf j).valid = (c.buf j).valid)
    (huse : ∀ w, (c'.use w).ref = (c.use w).ref) (hcached : ∀ j b, Cached c j b → ¬ G.InLog b → (c'.buf j).data = F' b)
    (hdisk : ∀ b, ¬ G.InLog b → c'.disk b = F' b ∨ ∃ j, Cached c j b ∧ (b ∈ pend' ∨ ∃ w, c'.use w = .held j true))
    (hlog : ∀ j b, Cached c j b → G.InLog b → (c'.buf j).data = c'.disk b ∨ ∃ w, c'.use w = .held j true) :
    Base G F' pend' c' := by
  have hiff : ∀ j b, Cached c' j b ↔ Cached c j b := fun j _ => cached_congr (hbuf j).1 (hbuf j).2.1 (hbuf j).2.2
  refine ⟨fun j b hj => hcached j b ((hiff j b).mp hj), fun b hb => ?_, fun j b hj => hlog j b ((hiff j b).mp hj), fun p k b hb => ?_⟩
  · simpa only [hiff] using hdisk b hb
  · rw [Cache.block_congr (huse _) fun j => (hbuf j).2.1] at hb
    exact hd.clients p k b hb

/-- **A modification**: the flat store changes at the block, or the block is one of the log. -/
theorem Base.modify (hd : Base G F pend c) (hok : c.Ok pin) (hu : c.use u = .held i d)
    (hF : ∀ b ≠ (c.buf i).blockno, F' b = F b) (hv : ¬ G.InLog (c.buf i).blockno → F' (c.buf i).blockno = v) :
    Base G F' pend ((c.setBuf i { c.buf i with data := v }).setUse u (.held i true)) := by
  have hi := hok.cached hu
  have hother : ∀ {j b}, Cached c j b → j ≠ i → b ≠ (c.buf i).blockno := by
    rintro j b hj hji rfl
    exact hji (hok.uniq j i hj.dev hi.dev hj.block)
  refine hd.of_same (fun j => ⟨update_keeps (g := Buf.dev) (by rfl) j, update_keeps (g := Buf.blockno) (by rfl) j,
    update_keeps (g := Buf.valid) (by rfl) j⟩) (update_keeps (f := c.use) (g := Use.ref) (by rw [hu]; rfl)) (fun j b hj hb => ?_)
    (fun b hb => ?_) fun j b hj hb => ?_
  · rcases eq_or_ne j i with rfl | hji
    · obtain rfl := hj.block
      simpa using (hv hb).symm
    · rw [hF b (hother hj hji)]
      simpa [update_of_ne hji] using hd.cached j b hj hb
  · by_cases hbi : b = (c.buf i).blockno
    · subst hbi
      exact .inr ⟨i, hi, .inr ⟨u, by simp⟩⟩
    · rw [hF b hbi]
      refine (hd.disk b hb).imp_right fun ⟨j, hj, hwhy⟩ => ⟨j, hj, hwhy.imp_right fun ⟨w, hw⟩ => ⟨w, ?_⟩⟩
      refine dirty_setUse hu hw ?_
      rintro rfl
      exact hbi hj.block.symm
  · rcases eq_or_ne j i with rfl | hji
    · exact .inr ⟨u, by simp⟩
    · refine (hd.log j b hj hb).imp (fun heq => ?_) fun ⟨w, hw⟩ => ⟨w, dirty_setUse hu hw hji⟩
      simpa [update_of_ne hji] using heq

/-- **A write to the disk.** -/
theorem Base.bwrite (hd : Base G F pend c) (hok : c.Ok pin) (hu : c.use u = .held i d) :
    Base G F pend ({ c with disk := update c.disk (c.buf i).blockno (c.buf i).data }.setUse u (.held i false)) := by
  have hi := hok.cached hu
  refine hd.of_same (fun _ => ⟨rfl, rfl, rfl⟩) (update_keeps (g := Use.ref) (by rw [hu]; rfl)) hd.cached (fun b hb => ?_)
    fun j b hj hb => ?_
  · by_cases hbi : b = (c.buf i).blockno
    · subst hbi
      exact .inl (by simpa using hd.cached i _ hi hb)
    · refine (hd.disk b hb).imp (fun heq => ?_) fun ⟨j, hj, hwhy⟩ => ⟨j, hj, hwhy.imp_right fun ⟨w, hw⟩ => ⟨w, ?_⟩⟩
      · simpa [update_of_ne hbi] using heq
      · refine dirty_setUse hu hw ?_
        rintro rfl
        exact hbi hj.block.symm
  · by_cases hbi : b = (c.buf i).blockno
    · obtain rfl := hok.uniq j i hj.dev hi.dev (hj.block.trans hbi)
      subst hbi
      exact .inl (by simp)
    · refine (hd.log j b hj hb).imp (fun heq => ?_) fun ⟨w, hw⟩ => ⟨w, dirty_setUse hu hw ?_⟩
      · simpa [update_of_ne hbi] using heq
      · rintro rfl
        exact hbi hj.block.symm

omit [Fintype P] in
/-- `log_write`: the data that were modified are in the log now. -/
theorem Base.logWrite (hd : Base G F pend c) (hu : c.use u = .held i d) (hsub : ∀ b ∈ pend, b ∈ pend')
    (hb : (c.buf i).blockno ∈ pend') (hclient : ¬ G.InLog (c.buf i).blockno) : Base G F pend' (c.setUse u (.held i false)) := by
  refine hd.of_same (fun _ => ⟨rfl, rfl, rfl⟩) (update_keeps (g := Use.ref) (by rw [hu]; rfl)) hd.cached (fun b hb' => ?_)
    fun j b hj hb' => ?_
  · refine (hd.disk b hb').imp_right fun ⟨j, hj, hwhy⟩ => ⟨j, hj, ?_⟩
    rcases hwhy with hmem | ⟨w, hw⟩
    · exact .inl (hsub b hmem)
    · rcases eq_or_ne j i with rfl | hji
      · obtain rfl := hj.block
        exact .inl hb
      · exact .inr ⟨w, dirty_setUse hu hw hji⟩
  · refine (hd.log j b hj hb').imp_right fun ⟨w, hw⟩ => ⟨w, dirty_setUse hu hw ?_⟩
    rintro rfl
    obtain rfl := hj.block
    exact hclient hb'

omit [DecidableEq P] [Fintype P] in
/-- What the counts are does not matter. -/
theorem Base.recount (hd : Base G F pend c) : Base G F pend (c.setBuf i { c.buf i with refcnt := n }) := by
  have hdata : ∀ j, ((c.setBuf i { c.buf i with refcnt := n }).buf j).data = (c.buf j).data := update_keeps (g := Buf.data) (by rfl)
  refine hd.of_same (fun j => ⟨update_keeps (g := Buf.dev) (by rfl) j, update_keeps (g := Buf.blockno) (by rfl) j,
    update_keeps (g := Buf.valid) (by rfl) j⟩) (fun _ => rfl) (fun j b hj hb => ?_) hd.disk fun j b hj hb => ?_
  · rw [hdata]
    exact hd.cached j b hj hb
  · rw [hdata]
    exact hd.log j b hj hb

omit [DecidableEq P] [Fintype P] in
/-- A block that is on disk need not be in the log any more. -/
theorem Base.installed (hd : Base G F pend c) (hsub : ∀ b ∈ pend, b ∉ pend' → c.disk b = F b) :
    Base G F pend' c := by
  refine ⟨hd.cached, fun b hb => ?_, hd.log, hd.clients⟩
  by_cases hmem : b ∈ pend ∧ b ∉ pend'
  · exact .inl (hsub b hmem.1 hmem.2)
  · refine (hd.disk b hb).imp_right fun ⟨j, hj, hwhy⟩ => ⟨j, hj, hwhy.imp_left fun hb' => ?_⟩
    by_contra hn
    exact hmem ⟨hb', hn⟩

end Steps

/-! ## Steps of processes -/

/-- The block of a buffer held. -/
theorem Cache.block_held (hu : c.use u = .held i d) : c.block u = some (c.buf i).blockno := by
  rw [Cache.block, hu]
  rfl

section Machine

variable [DecidableEq P] [Fintype P] {A : Account P} {t : Tmp}

omit [DecidableEq P] in
/-- The buffers of the blocks that are in the log and not installed are in use. -/
theorem Inv.refcnt_of_pending (hi : Inv A G s x) (hc : Cached s.cache i b) (hb : b ∈ A.blocks.drop (unpinned x)) :
    (s.cache.buf i).refcnt ≠ 0 := by
  have hmem : b ∈ (A.left x).map Prod.snd := by
    rwa [Account.left, List.map_drop]
  obtain ⟨y, hy, rfl⟩ := List.mem_map.mp hmem
  have hr := hi.refcnt_of_left hy
  have heq := hi.cache.uniq y.1 i (hi.cache.dev _ hr) hc.dev ((hi.held y hy).trans hc.block.symm)
  rwa [heq] at hr

theorem Data.quiet (hi : Inv A G s x) (hd : Data G F A.blocks s.cache x) (hs : CacheStep s.cache u a c')
    (ha : a.Quiet s.cache u) (hclient : ∀ p k b, u = .client p k → a = .bget b → ¬ G.InLog b) : Data G F A.blocks c' x :=
  ⟨hd.base.quiet hi.cache (fun _ _ hc hb => hi.refcnt_of_pending hc hb) hs ha hclient, hd.outside, hd.fits,
    fun g hg => (hd.stage g hg).quiet hd.fits hi.cache hs ha⟩

omit [DecidableEq P] in
/-- Two users that hold a buffer. -/
theorem Inv.held_ne {v : User P K} {e : Bool} (hi : Inv A G s x) (hu : s.cache.use u = .held i d) (hv : s.cache.use v = .held j e)
    (huv : u ≠ v) : i ≠ j := by
  rintro rfl
  exact huv (hi.cache.locked_inj (by rw [hu]; rfl) (by rw [hv]; rfl))

/-- A step of a process in the cache. -/
theorem Data.client (hi : Inv A G s x) (hd : Data G F A.blocks s.cache x) (hs : CacheStep s.cache (.client p k) a c')
    (hproper : Proper G (s, .client p k a)) (hapart : Apart (s, .client p k a)) :
    Data G (flatAt (s, .client p k a) F) A.blocks c' x := by
  cases a with
  | modify v =>
    cases hs with
    | @modify i d v hu =>
      have hflat : flatAt (s, .client p k (.modify v)) F = update F (s.cache.buf i).blockno v := by
        simp only [flatAt, hu]
      rw [hflat]
      refine ⟨hd.base.modify hi.cache hu (fun b hb => update_of_ne hb _ _) (fun _ => update_self _ _ _), hd.outside, hd.fits, ?_⟩
      rintro g rfl
      refine (hd.stage g rfl).keep hd.fits (fun hcl b hb => update_of_ne ?_ _ _) (fun _ _ => rfl) (fun _ _ _ hb => hb)
        (fun t i => by simp) (fun j hj => ?_)
      · -- the block is not one of those being committed
        rintro rfl
        have hlh : s.lh = A.blocks := by simpa [hcl] using hi.lh
        exact hapart hi.committing i d hu (hlh ▸ hb)
      · have hji := hi.held_ne hj hu (by simp)
        simp [update_of_ne hji]
  | bwrite =>
    cases hs with
    | @bwrite i d hu =>
      have hb := hd.base.clients p k _ (Cache.block_held hu)
      refine ⟨hd.base.bwrite hi.cache hu, hd.outside, hd.fits, ?_⟩
      rintro g rfl
      refine (hd.stage g rfl).keep hd.fits (fun _ _ _ => rfl) (fun b hin => ?_) (fun _ b _ heq => ?_) (fun t i => by simp)
        (fun _ _ => rfl)
      · refine update_of_ne ?_ _ _
        rintro rfl
        exact hb hin
      · by_cases hbi : b = (s.cache.buf i).blockno
        · subst hbi
          simpa [flatAt] using hd.base.cached i _ (hi.cache.cached hu) hb
        · simpa [flatAt, update_of_ne hbi] using heq
  | bget b => exact hd.quiet hi hs trivial fun _ _ _ _ hb => by cases hb; exact hproper
  | unlock => exact hd.quiet hi hs hproper (by simp)
  | lock | fill | brelse => exact hd.quiet hi hs trivial (by simp)

/-! ## Acts of `commit()` -/

omit [DecidableEq P] [Fintype P] in
theorem Data.setVar {o : Option ℕ} (hd : Data G F bs c (some g)) (hr : t = .log → g.ready = false) :
    Data G F bs c (some (g.setVar o t)) := by
  have hst := hd.stage g rfl
  cases t with
  | home => exact ⟨hd.base, hd.outside, hd.fits, by rintro _ ⟨⟩; exact ⟨hst.copied, hst.ready, hst.written, hst.dirty⟩⟩
  | log =>
    refine ⟨hd.base, hd.outside, hd.fits, ?_⟩
    rintro _ ⟨⟩
    refine ⟨hst.copied, fun hready => ?_, hst.written, hst.dirty⟩
    cases hready.symm.trans (hr rfl)

omit [DecidableEq P] in
/-- The block of a buffer that `commit()` holds. -/
theorem Inv.block_tmp (hi : Inv A G s (some g)) (hu : s.cache.use (.tmp t) = .held i d) :
    g.var t = some (s.cache.buf i).blockno :=
  (hi.tmp t).symm.trans (Cache.block_held hu)

omit [Fintype P] in
/-- What `commit()` has modified is written. -/
theorem Stage.clean (hst : Stage G F bs c g) (hdirty : g.dirty = some t) (t' : Tmp) (j : Fin NBUF) :
    update c.use (.tmp t) (.held i false) (.tmp t') ≠ .held j true := by
  intro hj
  by_cases htt : t' = t
  · simp [htt] at hj
  · rw [update_of_ne (by simpa using htt)] at hj
    exact htt (Option.some.inj ((hst.dirty _ _ hj).symm.trans hdirty))

/-- `bwrite(to)`, of a copy in the log or of the header. -/
theorem Data.bwriteLog (hi : Inv A G s (some g)) (hd : Data G F A.blocks s.cache (some g))
    (hpre : (Act.bwrite .log).pre G A.blocks g) (hs : CacheStep s.cache (.tmp .log) .bwrite c') :
    Data G F A.blocks c' ((Act.bwrite .log).post A.blocks g) := by
  obtain ⟨hdirty, hwhat⟩ := hpre
  cases hs with
  | @bwrite i d hu =>
    have hst := hd.stage g rfl
    have hlog : g.log = some (s.cache.buf i).blockno := hi.block_tmp hu
    have hpos := G.pos
    -- the blocks being committed are not written
    have hbs : ∀ b ∈ A.blocks, b ≠ (s.cache.buf i).blockno := by
      rintro b hb rfl
      refine hd.outside _ hb ?_
      rcases hwhat with hr | hh
      · obtain ⟨-, hl, j, b, -, hget, -⟩ := hst.ready hr
        rw [Option.some.inj (hlog.symm.trans hl)]
        have hlt := (List.getElem?_eq_some_iff.mp hget).1
        have hfits := hd.fits
        exact ⟨by omega, by omega⟩
      · rw [Option.some.inj (hlog.symm.trans hh)]
        exact ⟨le_rfl, by omega⟩
    have hwritten : ∀ b ∈ A.blocks, s.cache.disk b = F b → update s.cache.disk (s.cache.buf i).blockno (s.cache.buf i).data b = F b :=
      fun b hb heq => by rwa [update_of_ne (hbs b hb)]
    have hbase := hd.base.bwrite hi.cache hu
    simp only [Act.post]
    by_cases hr : g.ready = true
    · rw [if_pos hr]
      obtain ⟨hcl, hl, j, b, hu', hget, hdata⟩ := hst.ready hr
      rw [hu] at hu'
      cases hu'
      have hblock : (s.cache.buf i).blockno = G.start + g.copied + 1 := Option.some.inj (hlog.symm.trans hl)
      refine ⟨hbase, hd.outside, hd.fits, ?_⟩
      rintro g' ⟨⟩
      refine ⟨fun _ t ht b' hb' => ?_, by simp, fun hw => ?_, fun t j hj => absurd hj (hst.clean hdirty t j)⟩
      · show update s.cache.disk _ _ (G.start + t + 1) = F b'
        rw [hblock]
        by_cases htc : t = g.copied
        · subst htc
          cases hget.symm.trans hb'
          rw [update_self, hdata]
        · rw [update_of_ne (by omega)]
          exact hst.copied hcl t (by have : t < g.copied + 1 := ht; omega) b' hb'
      · obtain ⟨hcl', hw'⟩ := hst.written hw
        exact ⟨hcl', fun b' hb' => hwritten b' (List.mem_of_getElem? hb') (hw' b' hb')⟩
    · rw [if_neg hr]
      have hblock : (s.cache.buf i).blockno = G.start := Option.some.inj (hlog.symm.trans (hwhat.resolve_left hr))
      refine ⟨hbase, hd.outside, hd.fits, ?_⟩
      rintro g' ⟨⟩
      refine ⟨fun hcl t ht b' hb' => ?_, fun hr' => absurd hr' hr, fun hw => ?_, fun t j hj => absurd hj (hst.clean hdirty t j)⟩
      · show update s.cache.disk _ _ (G.start + t + 1) = F b'
        rw [hblock, update_of_ne (by omega)]
        exact hst.copied hcl t ht b' hb'
      · obtain ⟨hcl', hw'⟩ := hst.written hw
        exact ⟨hcl', fun b' hb' => hwritten b' (List.mem_of_getElem? hb') (hw' b' hb')⟩

/-- `bwrite(dbuf)` -/
theorem Data.bwriteHome (hi : Inv A G s (some g)) (hd : Data G F A.blocks s.cache (some g))
    (hpre : (Act.bwrite .home).pre G A.blocks g) (hs : CacheStep s.cache (.tmp .home) .bwrite c') :
    Data G F A.blocks c' ((Act.bwrite .home).post A.blocks g) := by
  obtain ⟨hdirty, hcl, b, hget, hhome⟩ := hpre
  cases hs with
  | @bwrite i d hu =>
    have hst := hd.stage g rfl
    obtain rfl : b = (s.cache.buf i).blockno := Option.some.inj (hhome.symm.trans (hi.block_tmp hu))
    have hb := hd.outside _ (List.mem_of_getElem? hget)
    refine ⟨hd.base.bwrite hi.cache hu, hd.outside, hd.fits, ?_⟩
    rintro g' ⟨⟩
    refine ⟨fun _ t ht b' hb' => ?_, fun hr => ?_, fun _ => ⟨hcl, fun b' hb' => ?_⟩, fun t j hj => absurd hj (hst.clean hdirty t j)⟩
    · have hlt := (List.getElem?_eq_some_iff.mp hb').1
      have hfits := hd.fits
      have hpos := G.pos
      show update s.cache.disk _ _ (G.start + t + 1) = F b'
      rw [update_of_ne]
      · exact hst.copied hcl t ht b' hb'
      · intro heq
        exact hb (heq ▸ ⟨by omega, by omega⟩)
    · obtain ⟨-, -, j, -, hj, -⟩ := hst.ready hr
      cases hdirty.symm.trans (hst.dirty _ _ hj)
    · cases hget.symm.trans hb'
      show update s.cache.disk _ _ (s.cache.buf i).blockno = _
      rw [update_self]
      exact hd.base.cached i _ (hi.cache.cached hu) hb

/-- What `commit()` has modified, after one more modification by variable `t`. -/
theorem Data.modifyTmp {g g' : Progress} (hi : Inv A G s (some g)) (hd : Data G F A.blocks s.cache (some g))
    (hs : CacheStep s.cache (.tmp t) (.modify v) c') (hdirty : g.dirty = none)
    (hv : ∀ b, g.var t = some b → ¬ G.InLog b → F b = v)
    (hg : g' = { g with dirty := some t, ready := g'.ready })
    (hready : g'.ready = true → t = .log ∧ g.cleared = false ∧ g.log = some (G.start + g.copied + 1) ∧
      ∃ b, A.blocks[g.copied]? = some b ∧ F b = v) : Data G F A.blocks c' (some g') := by
  cases hs with
  | @modify i d v hu =>
    have hst := hd.stage g rfl
    have hblock := hi.block_tmp hu
    have hk : g'.copied = g.copied ∧ g'.unpinned = g.unpinned ∧ g'.cleared = g.cleared ∧ g'.written = g.written ∧
        g'.dirty = some t ∧ g'.log = g.log := by
      rw [hg]
      exact ⟨rfl, rfl, rfl, rfl, rfl, rfl⟩
    obtain ⟨hcop, hunp, hcle, hwri, hdir, hlog⟩ := hk
    refine ⟨?_, hd.outside, hd.fits, ?_⟩
    · rw [show unpinned (some g') = unpinned (some g) from hunp]
      exact hd.base.modify hi.cache hu (fun _ _ => rfl) (hv _ hblock)
    · rintro g'' ⟨⟩
      refine ⟨?_, fun hr => ?_, ?_, fun t' j hj => ?_⟩
      · rw [hcop, hcle]
        exact hst.copied
      · obtain ⟨rfl, hcl, hl, b, hb, hF⟩ := hready hr
        rw [hcop, hcle, hlog]
        exact ⟨hcl, hl, i, b, by simp, hb, by simp [hF]⟩
      · rw [hunp, hcle, hwri]
        exact hst.written
      · by_cases htt : t' = t
        · rw [hdir, htt]
        · rw [Cache.setUse_use, update_of_ne (by simpa using htt)] at hj
          cases hdirty.symm.trans (hst.dirty _ _ hj)

omit [DecidableEq P] in
/-- The block that is copied next. -/
theorem Data.copy_eq (hi : Inv A G s (some g)) (hd : Data G F A.blocks s.cache (some g))
    (hu : s.cache.use (.tmp .home) = .held i d) (hget : b ∈ A.blocks) (hhome : g.home = some b) : F b = (s.cache.buf i).data := by
  obtain rfl : b = (s.cache.buf i).blockno := Option.some.inj (hhome.symm.trans (hi.block_tmp hu))
  exact (hd.base.cached i _ (hi.cache.cached hu) (hd.outside _ hget)).symm

omit [DecidableEq P] in
/-- The copy in the log that is installed next. -/
theorem Data.install_eq (hi : Inv A G s (some g)) (hd : Data G F A.blocks s.cache (some g))
    (hu : s.cache.use (.tmp .log) = .held i d) (hget : A.blocks[g.unpinned]? = some b)
    (hlog : g.log = some (G.start + g.unpinned + 1)) (hcop : g.copied = A.blocks.length) (hcl : g.cleared = false)
    (hdirty : g.dirty = none) : F b = (s.cache.buf i).data := by
  have hst := hd.stage g rfl
  have hblock : (s.cache.buf i).blockno = G.start + g.unpinned + 1 :=
    Option.some.inj ((hi.block_tmp hu).symm.trans hlog)
  have hlt := (List.getElem?_eq_some_iff.mp hget).1
  have hfits := hd.fits
  have hpos := G.pos
  rcases hd.base.log i _ (hi.cache.cached hu) (by rw [hblock]; exact ⟨by omega, by omega⟩) with heq | ⟨v, hv⟩
  · rw [heq, hblock]
    exact (hst.copied hcl _ (by omega) b hget).symm
  · obtain rfl := hi.cache.locked_inj (u := v) (v := .tmp .log) (by rw [hv]; rfl) (by rw [hu]; rfl)
    cases hdirty.symm.trans (hst.dirty _ _ hv)

omit [DecidableEq P] [Fintype P] in
/-- `bunpin(dbuf)` -/
theorem Data.bunpin (hd : Data G F bs c (some g)) (hw : g.written = true) :
    Data G F bs (c.setBuf i { c.buf i with refcnt := n })
      (some { g with unpinned := g.unpinned + 1, written := false }) := by
  have hst := hd.stage g rfl
  refine ⟨?_, hd.outside, hd.fits, ?_⟩
  · refine Base.recount (hd.base.installed fun b hb hb' => ?_)
    -- the block between the two lists is the one on disk
    obtain ⟨n, hn⟩ := List.mem_iff_getElem?.mp hb
    rw [List.getElem?_drop] at hn
    cases n with
    | zero => exact (hst.written hw).2 b hn
    | succ n =>
      refine absurd (List.mem_iff_getElem?.mpr ⟨n, ?_⟩) hb'
      rw [List.getElem?_drop, ← hn]
      congr 1
      show g.unpinned + 1 + n = g.unpinned + (n + 1)
      omega
  · rintro g' ⟨⟩
    refine ⟨hst.copied, fun hr => ?_, by simp, hst.dirty⟩
    obtain ⟨hcl, hl, j, b, hu, hb, hdata⟩ := hst.ready hr
    refine ⟨hcl, hl, j, b, hu, hb, ?_⟩
    rw [← hdata]
    exact update_keeps (g := Buf.data) (by rfl) j

omit [Fintype P] in
/-- A step of the cache by `commit()`, or a panic. -/
theorem Data.run {todo : List Act} {x' : Option Progress} (hd : Data G F bs s.cache (some g))
    (hs : s.run (.tmp t) a todo = some s') (hpanic : s.panic = none)
    (hstep : ∀ c', CacheStep s.cache (.tmp t) a c' → Data G F bs c' x') :
    Data G F bs s'.cache (if s'.panic = none then x' else some g) := by
  rcases Blocks.run_cases hs with ⟨c', hc, rfl⟩ | ⟨-, rfl⟩
  · rw [if_pos hpanic]
    exact hstep c' hc
  · exact hd

variable [HeaderBlock α] {data : Fin NBUF → α}

/-- **An act of `commit()`.** -/
theorem Data.act {act : Act} (hi : Inv A G s (some g)) (hd : Data G F A.blocks s.cache (some g))
    (ht : s.todo = act :: rest) (hs : s.act G rest act = some s') (hpanic : s.panic = none) :
    Data G F (A.next G (s, .commit)).blocks s'.cache (if s'.panic = none then act.next A.blocks g else some g) := by
  obtain ⟨hpre, -⟩ := hi.code_cons ht
  have hst := hd.stage g rfl
  have hready : ∀ {u}, u = .tmp .log → (∀ i, s.cache.use u ≠ .held i true) → g.ready = false := by
    rintro u rfl hu
    rw [Bool.eq_false_iff]
    intro hr
    obtain ⟨-, -, i, -, hui, -⟩ := hst.ready hr
    exact hu i hui
  rcases eq_or_ne act .done with rfl | hne
  · cases hs
    obtain rfl : g = .finished A.blocks := hpre
    have hnext : (A.next G (s, .commit)).blocks = [] := by simp only [Account.next, ht, Account.blocks, List.map_nil]
    rw [hnext, if_pos hpanic]
    refine ⟨?_, by simp, by simp, by simp [Act.next, Act.loop]⟩
    have hb := hd.base
    have hdrop : A.blocks.drop (unpinned (some (.finished A.blocks))) = [] := List.drop_eq_nil_of_le le_rfl
    rw [hdrop] at hb
    exact hb
  have hA : (A.next G (s, .commit)).blocks = A.blocks := by
    simp only [Account.next, ht]
    cases act with
    | done => exact absurd rfl hne
    | bunpin =>
      simp only
      split <;> rfl
    | _ => rfl
  rw [hA]
  cases act with
  | done => exact absurd rfl hne
  | bget t b =>
    refine hd.run hs hpanic fun c' hc => ?_
    refine (hd.quiet hi hc trivial (by simp)).setVar fun htl => hready (u := .tmp t) (by rw [htl]) fun i hu => ?_
    cases hc with
    | hit hu' | recycle hu' => cases hu.symm.trans hu'
  | lock t | fill t =>
    exact hd.run hs hpanic fun c' hc => hd.quiet hi hc trivial (by simp)
  | unlock t =>
    refine hd.run hs hpanic fun c' hc => hd.quiet hi hc (fun i hu => ?_) (by simp)
    cases (show g.dirty = none from hpre).symm.trans (hst.dirty t i hu)
  | brelse t =>
    refine hd.run hs hpanic fun c' hc => ?_
    refine (hd.quiet hi hc trivial (by simp)).setVar fun htl => hready (u := .tmp t) (by rw [htl]) fun i hu => ?_
    cases hc with
    | brelse hu' => cases hu.symm.trans hu'
  | bwrite t =>
    cases t with
    | log => exact hd.run hs hpanic fun c' hc => hd.bwriteLog hi hpre hc
    | home => exact hd.run hs hpanic fun c' hc => hd.bwriteHome hi hpre hc
  | copyToLog =>
    obtain ⟨⟨b, hget, hhome⟩, hlog, hcl, hdirty⟩ := hpre
    have hlt := (List.getElem?_eq_some_iff.mp hget).1
    have hfits := hd.fits
    have hpos := G.pos
    simp only [Blocks.act] at hs
    split at hs
    · rename_i i d hu
      have hF := hd.copy_eq hi hu (List.mem_of_getElem? hget) hhome
      refine hd.run hs hpanic fun c' hc => hd.modifyTmp hi hc hdirty (fun b' hb' hin => ?_) rfl fun _ => ?_
      · obtain rfl : G.start + g.copied + 1 = b' := Option.some.inj (hlog.symm.trans hb')
        exact absurd ⟨by omega, by omega⟩ hin
      · exact ⟨rfl, hcl, hlog, b, hget, hF⟩
    · cases hs
  | copyToHome =>
    obtain ⟨⟨b, hget, hhome⟩, hlog, hcop, hcl, hdirty, hr⟩ := hpre
    simp only [Blocks.act] at hs
    split at hs
    · rename_i i d hu
      have hF := hd.install_eq hi hu hget hlog hcop hcl hdirty
      refine hd.run hs hpanic fun c' hc => hd.modifyTmp hi hc hdirty (fun b' hb' _ => ?_) rfl fun hr' => ?_
      · obtain rfl : b = b' := Option.some.inj (hhome.symm.trans hb')
        exact hF
      · cases hr'.symm.trans hr
    · cases hs
  | putHead =>
    obtain ⟨hlog, hr, hdirty⟩ := hpre
    have hpos := G.pos
    simp only [Blocks.act] at hs
    split at hs
    · refine hd.run hs hpanic fun c' hc => hd.modifyTmp hi hc hdirty (fun b' hb' hin => ?_) rfl fun hr' => ?_
      · obtain rfl : G.start = b' := Option.some.inj (hlog.symm.trans hb')
        exact absurd ⟨le_rfl, by omega⟩ hin
      · cases hr'.symm.trans hr
    · cases hs
  | bunpin =>
    obtain ⟨-, hw⟩ := hpre
    simp only [Blocks.act] at hs
    split at hs
    · cases hs
      rw [if_pos hpanic]
      exact hd.bunpin hw
    · cases hs
  | commit | writeLog | install =>
    cases hs
    rw [if_pos hpanic]
    exact hd
  | reset =>
    cases hs
    obtain ⟨rfl, hne⟩ := hpre
    rw [if_pos hpanic]
    refine ⟨hd.base, hd.outside, hd.fits, ?_⟩
    rintro g' ⟨⟩
    refine ⟨?_, ?_, ?_, fun t i hu => ?_⟩
    · simp [Progress.finished, hne]
    · simp [Progress.finished, Progress.between]
    · simp [Progress.finished, Progress.between]
    · cases hst.dirty t i hu

/-! ## Runs -/

/-- **A step of the machine.** -/
theorem Data.step (hi : Inv A G s x) (hd : Data G F A.blocks s.cache x) (hs : s.step G e = some s') (hproper : Proper G (s, e))
    (hapart : Apart (s, e)) : Data G (flatAt (s, e) F) (A.next G (s, e)).blocks s'.cache
      (if s'.panic = none then advance A.blocks x s e else x) := by
  have hsame : ∀ c : Prop, [Decidable c] → (if c then x else x) = x := fun c _ => ite_self x
  cases BlockStep.of_step hs with
  | client _ hc =>
    simp only [advance, hsame]
    exact hd.client hi hc hproper hapart
  | clientPanic | @beginOp p _ hp hc =>
    simp only [advance, hsame]
    exact hd
  | @logPanic p k i d q _ hu hp hlw =>
    have hA : A.next G (s, .logWrite p k) = A := by simp only [Account.next, hu, hlw]
    rw [hA]
    simp only [advance, hsame]
    exact hd
  | @absorb p k i d _ hu hp hlw hb =>
    have hx := hi.none_of_inOp hp
    subst hx
    have hA : (A.next G (s, .logWrite p k)).blocks = A.blocks := by
      simp only [Account.next, hu, hlw, if_pos hb, Account.blocks]
    have hlh : s.lh = A.blocks := hi.lh
    rw [hA]
    simp only [advance, hsame]
    exact ⟨hd.base.logWrite hu (fun _ hb => hb) (hlh ▸ hb) (hd.base.clients p k _ (Cache.block_held hu)), hd.outside, hd.fits,
      by simp⟩
  | @append p k i d _ hu hp hlw hb =>
    have hx := hi.none_of_inOp hp
    subst hx
    have hA : (A.next G (s, .logWrite p k)).blocks = A.blocks ++ [(s.cache.buf i).blockno] := by
      simp only [Account.next, hu, hlw, if_neg hb, Account.blocks, List.map_append, List.map_cons, List.map_nil]
    have hlh : s.lh = A.blocks := hi.lh
    have hin := hd.base.clients p k _ (Cache.block_held hu)
    rw [hA]
    simp only [advance, hsame]
    refine ⟨Base.recount (hd.base.logWrite hu (fun b hb => ?_) ?_ hin), fun b hb => ?_, ?_, by simp⟩
    · exact List.mem_append_left _ hb
    · exact List.mem_append_right _ List.mem_cons_self
    · rcases List.mem_append.mp hb with hb | hb
      · exact hd.outside b hb
      · rwa [List.mem_singleton.mp hb]
    · unfold Blocks.logWritePanic at hlw
      split_ifs at hlw with h1 h2
      rw [hlh] at h1
      rw [List.length_append, List.length_singleton]
      omega
  | @endOp p hpanic hp =>
    have hx := hi.none_of_inOp hp
    subst hx
    have hc : s.committing = false := hi.committing
    have hcache : (s.endOp p).cache = s.cache := by
      unfold Blocks.endOp
      simp only [hc, Bool.false_eq_true, if_false]
      split_ifs <;> rfl
    have hbase : ∀ y, unpinned y = 0 → Base G F (A.blocks.drop (unpinned y)) s.cache := by
      intro y hy
      rw [hy]
      exact hd.base
    rw [hcache]
    refine ⟨hbase _ ?_, hd.outside, hd.fits, fun g hg => ?_⟩
    · simp only [advance]
      split_ifs <;> rfl
    · simp only [advance] at hg
      split_ifs at hg
      cases hg
      refine ⟨by simp [Progress.between], by simp [Progress.between], by simp [Progress.between], fun t i hu => ?_⟩
      cases (hi.tmp t).symm.trans (Cache.block_held hu)
  | @act a rest s' hpanic ht hact =>
    have hc := hi.code
    rw [ht] at hc
    obtain ⟨g, rfl, -⟩ := hc
    have hinv := hd.act hi ht hact hpanic
    rwa [show advance A.blocks (some g) s .commit = a.next A.blocks g by simp only [advance, ht]]

theorem data_of_path (hp : Lts.Path (Blocks.step G) (Blocks.boot data disk) h s)
    (hproper : ∀ z ∈ h, Proper G z) (hapart : ∀ z ∈ h, Apart z) :
    ∃ x, Inv (account G h) G s x ∧ Data G (flat disk h) (account G h).blocks s.cache x := by
  induction hp with
  | nil =>
    have hnil : Lts.Path (Blocks.step G) (Blocks.boot data disk) [] (Blocks.boot data disk : Blocks P K α) := .nil
    obtain ⟨x, hi⟩ := inv_of_path hnil
    have hx : x = none := Option.isNone_iff_eq_none.mp (by simpa [Blocks.boot] using hi.committing.symm)
    subst hx
    refine ⟨none, hi, ⟨⟨fun i b hi _ => ?_, fun b _ => .inl rfl, fun i b hi _ => ?_, fun p k b hb => ?_⟩, ?_, Nat.zero_le _, by simp⟩⟩
    · cases hi.dev
    · cases hi.dev
    · cases hb
    · simp [account, Account.blocks]
  | snoc hp hs ih =>
    obtain ⟨x, hi, hd⟩ := ih (fun z hz => hproper z (List.mem_cons_of_mem _ hz)) fun z hz => hapart z (List.mem_cons_of_mem _ hz)
    exact ⟨_, hi.step hs, hd.step hi hs (hproper _ List.mem_cons_self) (hapart _ List.mem_cons_self)⟩

/-- An act of `commit()` leaves the blocks of the processes alone. -/
theorem Inv.block_act {act : Act} (hi : Inv A G s x) (hs : s.act G rest act = some s') (p : P) (k : Fin K) :
    s'.cache.block (.client p k) = s.cache.block (.client p k) := by
  have hrun : ∀ {t : Tmp} {a : CacheOp α}, s.run (.tmp t) a rest = some s' →
      s'.cache.block (.client p k) = s.cache.block (.client p k) := by
    intro t a hs
    rcases Blocks.run_cases hs with ⟨c', hc, rfl⟩ | ⟨-, rfl⟩
    · exact hi.cache.block_of_ne hc (by simp)
    · rfl
  cases act with
  | bget | lock | fill | bwrite | unlock | brelse => exact hrun hs
  | copyToLog | copyToHome | putHead =>
    simp only [Blocks.act] at hs
    split at hs
    · exact hrun hs
    · cases hs
  | bunpin =>
    simp only [Blocks.act] at hs
    split at hs <;> cases hs
    exact Cache.block_congr rfl (update_keeps (g := Buf.blockno) (by rfl))
  | commit | writeLog | install | reset | done =>
    cases hs
    rfl

/-- What a process holds is what it has asked for. -/
theorem asked_of_path (hp : Lts.Path (Blocks.step G) (Blocks.boot data disk) h s)
    (hb : s.cache.block (.client p k) = some b) : asked p k h = some b := by
  induction hp generalizing b with
  | nil => cases hb
  | @snoc h s s' e hp hs ih =>
    obtain ⟨x, hi⟩ := inv_of_path hp
    cases BlockStep.of_step hs with
    | @client q l a c' _ hc =>
      by_cases hself : q = p ∧ l = k
      · obtain ⟨rfl, rfl⟩ := hself
        have hb' := hc.block_self
        rw [show c'.block (.client q l) = some b from hb] at hb'
        cases a with
        | bget b' =>
          simp only [asked, and_self, if_true]
          exact hb'.symm
        | brelse => cases hb'
        | _ => exact ih hb'.symm
      · have hne : (User.client p k : User P K) ≠ .client q l := by
          rintro ⟨⟩
          exact hself ⟨rfl, rfl⟩
        have hb' := ih ((hi.cache.block_of_ne hc hne).symm.trans hb)
        cases a with
        | bget b' => simpa only [asked, if_neg hself] using hb'
        | _ => exact hb'
    | @clientPanic q l b' _ hu =>
      have hself : ¬ (q = p ∧ l = k) := by
        rintro ⟨rfl, rfl⟩
        have hnone : s.cache.block (.client q l) = none := by rw [Cache.block, hu]; rfl
        cases hnone.symm.trans hb
      simpa only [asked, if_neg hself] using ih hb
    | logPanic => exact ih hb
    | @absorb q l i d _ hu =>
      have hblock : (s.cache.setUse (.client q l) (.held i false)).block (.client p k) = s.cache.block (.client p k) :=
        Cache.block_congr (update_keeps (g := Use.ref) (by rw [hu]; rfl) _) fun _ => rfl
      exact ih (hblock.symm.trans hb)
    | @append q l i d _ hu =>
      have hblock : ((s.cache.setUse (.client q l) (.held i false)).bpin i).block (.client p k) = s.cache.block (.client p k) :=
        Cache.block_congr (update_keeps (f := s.cache.use) (g := Use.ref) (by rw [hu]; rfl) _) (update_keeps (g := Buf.blockno) (by rfl))
      exact ih (hblock.symm.trans hb)
    | beginOp => exact ih hb
    | @endOp q =>
      refine ih (Eq.trans ?_ hb)
      unfold Blocks.endOp
      simp only
      split_ifs <;> rfl
    | act _ _ hact => exact ih ((hi.block_act hact p k).symm.trans hb)

/-- **The buffer cache and the log refine a flat store.**  What `bread` returns is what the last modification of the block has
left; no two buffers in use hold one block; and the buffer of a block that is in the log and not installed is not recycled. -/
theorem flat_store {data : Fin NBUF → α} (hp : Lts.Path (Blocks.step G) (Blocks.boot data disk) h s)
    (hproper : ∀ z ∈ h, Proper G z) (hapart : ∀ z ∈ h, Apart z) :
    (∀ p k i d, s.cache.use (.client p k) = .held i d →
      ∃ b, asked p k h = some b ∧ (s.cache.buf i).blockno = b ∧ (s.cache.buf i).data = flat disk h b) ∧
    (∀ i j, (s.cache.buf i).refcnt ≠ 0 → (s.cache.buf j).refcnt ≠ 0 → (s.cache.buf i).dev = (s.cache.buf j).dev →
      (s.cache.buf i).blockno = (s.cache.buf j).blockno → i = j) ∧
    ∀ y ∈ (account G h).pins.drop (account G h).unpins.length,
      (s.cache.buf y.1).dev = ROOTDEV ∧ (s.cache.buf y.1).blockno = y.2 ∧ (s.cache.buf y.1).refcnt ≠ 0 := by
  obtain ⟨x, hi, hd⟩ := data_of_path hp hproper hapart
  refine ⟨fun p k i d hu => ?_, fun i j hri hrj _ hb => ?_, fun y hy => hi.pinned hy⟩
  · have hblock := Cache.block_held hu
    refine ⟨_, asked_of_path hp hblock, rfl, ?_⟩
    exact hd.base.cached i _ (hi.cache.cached hu) (hd.base.clients p k _ hblock)
  · exact hi.cache.uniq i j (hi.cache.dev i hri) (hi.cache.dev j hrj) hb

end Machine

/-! ## Two processes -/

/-- Process 0 changes block 50 in an operation; after `n` acts of the commit process 1 changes it with `bwrite`; when the commit
is over it reads the block again. -/
def twoWriters (n : ℕ) : List (SmallEvent 2) :=
  .beginOp 0 :: changeBlock 0 50 1 ++ .logWrite 0 0 :: relse 0 ++ [.endOp 0] ++ List.replicate n .commit ++
    changeBlock 1 50 2 ++ .client 1 0 .bwrite :: relse 1 ++ List.replicate (46 - n) .commit ++
    [.client 1 0 (.bget 50), .client 1 0 .lock, .client 1 0 .fill]

/-- A block that is changed after the commit is as it was left. -/
theorem flat_store_two : ∃ (h : List (Small 2 × SmallEvent 2)) (s : Small 2) (i : Fin NBUF), SmallRun h s ∧
    s.cache.use (.client 1 0) = .held i false ∧ flat (fun _ _ => 0) h 50 0 = 2 ∧
    (s.cache.buf i).data = flat (fun _ _ => 0) h 50 := by
  obtain ⟨h, s, hp, ⟨i, hu⟩, hasked, hflat, hproper, hapart⟩ := exists_smallRun
    (fun h s => (∃ i, s.cache.use (.client 1 0) = .held i false) ∧ asked 1 0 h = some 50 ∧ flat (fun _ _ => 0) h 50 0 = 2 ∧
      (∀ z ∈ h, Proper mkfsLog z) ∧ ∀ z ∈ h, Apart z) (twoWriters 46) (by decide +kernel)
  obtain ⟨b, hb, -, hdata⟩ := (flat_store hp hproper hapart).1 1 0 i false hu
  cases hb.symm.trans hasked
  exact ⟨h, s, i, hp, hu, hflat, hdata⟩

/-- **A block that is changed with `bwrite` while it is being committed is lost.** -/
theorem bwrite_lost : ∃ (h : List (Small 2 × SmallEvent 2)) (s : Small 2) (i : Fin NBUF), SmallRun h s ∧
    (∀ z ∈ h, Proper mkfsLog z) ∧ s.panic = none ∧ asked 1 0 h = some 50 ∧ s.cache.use (.client 1 0) = .held i false ∧
    (s.cache.buf i).data 0 = 1 ∧ flat (fun _ _ => 0) h 50 0 = 2 := by
  obtain ⟨h, s, hp, i, hrest⟩ := exists_smallRun
    (fun h s => ∃ i, (∀ z ∈ h, Proper mkfsLog z) ∧ s.panic = none ∧ asked 1 0 h = some 50 ∧
      s.cache.use (.client 1 0) = .held i false ∧ (s.cache.buf i).data 0 = 1 ∧ flat (fun _ _ => 0) h 50 0 = 2)
    (twoWriters 22) (by decide +kernel)
  exact ⟨h, s, i, hp, hrest⟩

end Xv6Mlfq.Fs
