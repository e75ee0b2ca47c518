import Xv6Mlfq.Fs.Operations
import Mathlib.Algebra.BigOperators.Ring.Finset
import Mathlib.Algebra.Order.BigOperators.Group.Finset

/-!
# Xv6Mlfq.Fs.Reserve — the log space that `begin_op` reserves

`begin_op` reserves `MAXOPBLOCKS` blocks of `LOGSIZE` for an operation, but the first block of the log is its header, so that
`log_write` has one block less than is reserved: three operations of `MAXOPBLOCKS` blocks each do not fit
(`reservation_too_small`).  They do if each writes one block less (`reservation_suffices`).
-/

namespace Xv6Mlfq.Fs

open Function Tally

variable {P : Type} {K n : ℕ} {α : Type} [DecidableEq P] {G : Geometry} {s s' : Blocks P K α}
  {e : BlockEvent P K α} {h : List (Blocks P K α × BlockEvent P K α)} {p : P} {act : Act}

/-- The blocks that process `p` has passed to `log_write` since its last `begin_op`. -/
def opBlocks (p : P) : List (Blocks P K α × BlockEvent P K α) → List ℕ
  | [] => []
  | (_, .beginOp q) :: h => if q = p then [] else opBlocks p h
  | (s, .logWrite q k) :: h =>
    match s.cache.use (.client q k) with
    | .held i _ => if q = p then (s.cache.buf i).blockno :: opBlocks p h else opBlocks p h
    | _ => opBlocks p h
  | _ :: h => opBlocks p h

/-- Every operation of the run passes at most `n` distinct blocks to `log_write`. -/
def OpsWithin (n : ℕ) (h : List (Blocks P K α × BlockEvent P K α)) : Prop :=
  ∀ h', h' <:+ h → ∀ p, (opBlocks p h').toFinset.card ≤ n

theorem OpsWithin.tail {z : Blocks P K α × BlockEvent P K α} (ho : OpsWithin n (z :: h)) : OpsWithin n h :=
  fun h' hs => ho h' (hs.trans (List.suffix_cons z h))

variable [HeaderBlock α] {data : Fin NBUF → α} {disk : ℕ → α}

/-- Until it panics, the account says the same. -/
theorem current_eq (hp : Lts.Path (Blocks.step G) (Blocks.boot data disk) h s) (hpanic : s.panic = none) (p : P) :
    (account G h).current p = opBlocks p h := by
  induction hp with
  | nil => rfl
  | @snoc h s s' e hp hs ih =>
    show ((account G h).next G (s, e)).current p = _
    cases BlockStep.of_step hs with
    | client h0 => exact ih h0
    | clientPanic => cases hpanic
    | logPanic => cases hpanic
    | @absorb q k i d h0 hu _ hlw hb =>
      simp only [Account.next, hu, hlw, opBlocks, ← ih h0]
      split_ifs with hqp
      · rw [← hqp, update_self]
      · rw [update_of_ne (Ne.symm hqp)]
    | @append q k i d h0 hu _ hlw hb =>
      simp only [Account.next, hu, hlw, opBlocks, ← ih h0]
      split_ifs with hqp
      · rw [← hqp, update_self]
      · rw [update_of_ne (Ne.symm hqp)]
    | @beginOp q h0 =>
      simp only [Account.next, opBlocks, ← ih h0]
      split_ifs with hqp
      · rw [← hqp, update_self]
      · rw [update_of_ne (Ne.symm hqp)]
    | endOp h0 => exact ih h0
    | act h0 =>
      refine Eq.trans ?_ (ih h0)
      simp only [Account.next]
      split
      · split <;> rfl
      · rfl
      · rfl

/-- What an act of `commit()` leaves alone. -/
theorem Blocks.act_fields {rest : List Act} (hs : s.act G rest act = some s') :
    s'.outstanding = s.outstanding ∧ (s'.panic = s.panic ∨ s'.panic = some .noBuffers) := by
  have hrun : ∀ {u : User P K} {a : CacheOp α}, s.run u a rest = some s' →
      s'.outstanding = s.outstanding ∧ (s'.panic = s.panic ∨ s'.panic = some .noBuffers) := by
    intro u a hs
    rcases Blocks.run_cases hs with ⟨c', -, rfl⟩ | ⟨-, rfl⟩
    · exact ⟨rfl, .inl rfl⟩
    · exact ⟨rfl, .inr rfl⟩
  cases act with
  | bget | lock | fill | bwrite | unlock | brelse => exact hrun hs
  | copyToLog | copyToHome | putHead =>
    simp only [Blocks.act] at hs
    split at hs
    · exact hrun hs
    · cases hs
  | bunpin =>
    simp only [Blocks.act] at hs
    split at hs <;> cases hs
    exact ⟨rfl, .inl rfl⟩
  | commit | writeLog | install | reset | done =>
    cases hs
    exact ⟨rfl, .inl rfl⟩

/-- Only `log.committing = 0` ends a commit. -/
theorem Act.eq_done_of_next {bs : List ℕ} {g : Progress} (hn : act.next bs g = none) : act = .done := by
  cases act with
  | bwrite t => cases t <;> cases hn
  | done => rfl
  | _ => cases hn

variable [Fintype P]

/-- Between commits, a log without operations is empty. -/
theorem lh_eq_nil (hp : Lts.Path (Blocks.step G) (Blocks.boot data disk) h s) (hc : s.committing = false)
    (h0 : s.outstanding = 0) : s.lh = [] := by
  induction hp with
  | nil => rfl
  | @snoc h s s' e hp hs ih =>
    obtain ⟨x, hi⟩ := inv_of_path hp
    cases BlockStep.of_step hs with
    | client => exact ih hc h0
    | clientPanic => exact ih hc h0
    | @logPanic p | @absorb p | @append p =>
      have hpos := count_pos (· = true) (f := s.inOp) (i := p) ‹_›
      have hout := hi.outstanding
      simp only at h0
      omega
    | beginOp => cases h0
    | @endOp p _ hin =>
      have hx := hi.none_of_inOp hin
      subst hx
      have hcom : s.committing = false := hi.committing
      unfold Blocks.endOp at hc h0
      simp only [hcom, Bool.false_eq_true, if_false] at hc h0
      split_ifs at hc h0 with h1
      exact absurd h0 h1
    | @act act rest s' hpanic ht hact =>
      have hi' := hi.step hs
      have hcode := hi.code
      rw [ht] at hcode
      obtain ⟨g, rfl, -, -⟩ := hcode
      have hx := hi'.committing
      rw [hc] at hx
      split_ifs at hx with hp'
      · obtain rfl := Act.eq_done_of_next (Option.isNone_iff_eq_none.mp (by simpa [advance, ht] using hx.symm))
        have hlh := hi'.lh
        have hA : (account G h).next G (s, .commit) = { account G h with ended := [], pins := [], unpins := [] } := by
          simp only [Account.next, ht]
        rw [if_pos hp', hA] at hlh
        simpa [advance, ht, Act.next, Act.loop, Account.blocks] using hlh
      · cases hx

/-! ## Space left -/

/-- The blocks that a process may still add: none if it is in no operation, and otherwise what is missing in `MAXOPBLOCKS - 1`. -/
def room (inOp : Bool) (n : ℕ) : ℕ := if inOp then MAXOPBLOCKS - 1 - n else 0

/-- The blocks that the operations going on may still add. -/
def reserved (s : Blocks P K α) (h : List (Blocks P K α × BlockEvent P K α)) : ℕ :=
  ∑ p, room (s.inOp p) (opBlocks p h).toFinset.card

omit [HeaderBlock α] in
/-- A step of process `p`. -/
theorem reserved_step (s' : Blocks P K α) {h' : List (Blocks P K α × BlockEvent P K α)}
    (hq : ∀ q ≠ p, s'.inOp q = s.inOp q ∧ opBlocks q h' = opBlocks q h) :
    reserved s' h' + room (s.inOp p) (opBlocks p h).toFinset.card =
      reserved s h + room (s'.inOp p) (opBlocks p h').toFinset.card := by
  have hup := sum_update (fun y : Bool × ℕ => room y.1 y.2) (fun q => (s.inOp q, (opBlocks q h).toFinset.card)) p
    (s'.inOp p, (opBlocks p h').toFinset.card)
  have hf : update (fun q => (s.inOp q, (opBlocks q h).toFinset.card)) p (s'.inOp p, (opBlocks p h').toFinset.card) =
      fun q => (s'.inOp q, (opBlocks q h').toFinset.card) := by
    funext q
    rcases eq_or_ne q p with rfl | hne
    · rw [update_self]
    · rw [update_of_ne hne, (hq q hne).1, (hq q hne).2]
  rw [hf] at hup
  exact hup

omit [HeaderBlock α] in
theorem reserved_le (hs : s.outstanding = count (· = true) s.inOp) : reserved s h ≤ (MAXOPBLOCKS - 1) * s.outstanding := by
  rw [hs, count_eq_sum, Finset.mul_sum]
  refine Finset.sum_le_sum fun p _ => ?_
  unfold room
  split_ifs <;> omega

/-- While an operation is going on, the log has room for what the operations may still add. -/
theorem reservation (hp : Lts.Path (Blocks.step G) (Blocks.boot data disk) h s) (hG : G.size = LOGSIZE)
    (ho : OpsWithin (MAXOPBLOCKS - 1) h) :
    s.panic ≠ some .tooBig ∧ (s.panic = none → 0 < s.outstanding → s.lh.length + reserved s h ≤ LOGSIZE - 2) := by
  have hsize : LOGSIZE = 30 ∧ MAXOPBLOCKS = 10 := ⟨rfl, rfl⟩
  obtain ⟨hL, hM⟩ := hsize
  induction hp with
  | nil => exact ⟨by simp [Blocks.boot], fun _ h0 => absurd h0 (by simp [Blocks.boot])⟩
  | @snoc h s s' e hp hs ih =>
    obtain ⟨-, ih⟩ := ih ho.tail
    obtain ⟨x, hi⟩ := inv_of_path hp
    have hpos : ∀ p, s.inOp p = true → 0 < s.outstanding := by
      intro p hin
      rw [hi.outstanding]
      exact count_pos (· = true) (f := s.inOp) hin
    cases BlockStep.of_step hs with
    | client h0 => exact ⟨by simp [h0], fun _ hout => ih h0 hout⟩
    | clientPanic => exact ⟨by simp, by simp⟩
    | @logPanic p k i d q h0 hu hin hlw =>
      have hlen := ih h0 (hpos p hin)
      refine ⟨?_, by simp⟩
      unfold Blocks.logWritePanic at hlw
      rw [if_neg (by omega), if_neg (by have := hpos p hin; omega)] at hlw
      cases hlw
    | @absorb p k i d h0 hu hin hlw hb =>
      refine ⟨by simp [h0], fun _ hout => ?_⟩
      have hother : ∀ q ≠ p, s.inOp q = s.inOp q ∧ opBlocks q ((s, .logWrite p k) :: h) = opBlocks q h :=
        fun q hne => ⟨rfl, by simp only [opBlocks, hu, if_neg hne.symm]⟩
      have hself : opBlocks p ((s, .logWrite p k) :: h) = (s.cache.buf i).blockno :: opBlocks p h := by
        simp only [opBlocks, hu, if_true]
      have hres := reserved_step (s := s) { s with cache := s.cache.setUse (.client p k) (.held i false) } hother
      have hcard : (opBlocks p h).toFinset.card ≤ (opBlocks p ((s, .logWrite p k) :: h)).toFinset.card := by
        rw [hself, List.toFinset_cons]
        exact Finset.card_le_card (Finset.subset_insert _ _)
      have hlen := ih h0 hout
      simp only [hin, room, if_true] at hres
      show s.lh.length + _ ≤ _
      omega
    | @append p k i d h0 hu hin hlw hb =>
      refine ⟨by simp [h0], fun _ hout => ?_⟩
      have hother : ∀ q ≠ p, s.inOp q = s.inOp q ∧ opBlocks q ((s, .logWrite p k) :: h) = opBlocks q h :=
        fun q hne => ⟨rfl, by simp only [opBlocks, hu, if_neg hne.symm]⟩
      have hself : opBlocks p ((s, .logWrite p k) :: h) = (s.cache.buf i).blockno :: opBlocks p h := by
        simp only [opBlocks, hu, if_true]
      have hres := reserved_step (s := s)
        { s with
          cache := (s.cache.setUse (.client p k) (.held i false)).bpin i
          lh := s.lh ++ [(s.cache.buf i).blockno] } hother
      -- the block is new to the operation, too
      have hnew : (s.cache.buf i).blockno ∉ (opBlocks p h).toFinset := by
        intro hmem
        have hx := hi.none_of_inOp hin
        subst hx
        have hlh : s.lh = (account G h).blocks := hi.lh
        refine hb (hlh ▸ (hi.wrote _).mpr (.inr ⟨p, hin, ?_⟩))
        rw [current_eq hp h0 p]
        exact List.mem_toFinset.mp hmem
      have hcard : (opBlocks p ((s, .logWrite p k) :: h)).toFinset.card = (opBlocks p h).toFinset.card + 1 := by
        rw [hself, List.toFinset_cons, Finset.card_insert_of_notMem hnew]
      have hle := ho _ List.suffix_rfl p
      have hlen := ih h0 hout
      simp only [hin, room, if_true] at hres
      show (s.lh ++ [(s.cache.buf i).blockno]).length + _ ≤ _
      rw [List.length_append, List.length_singleton]
      omega
    | @beginOp p h0 hin hc hroom =>
      refine ⟨by simp [h0], fun _ _ => ?_⟩
      have hother : ∀ q ≠ p, update s.inOp p true q = s.inOp q ∧ opBlocks q ((s, .beginOp p) :: h) = opBlocks q h :=
        fun q hne => ⟨update_of_ne hne _ _, by simp only [opBlocks, if_neg hne.symm]⟩
      have hself : opBlocks p ((s, .beginOp p) :: h) = [] := by simp only [opBlocks, if_true]
      have hres := reserved_step (s := s)
        { s with outstanding := s.outstanding + 1, inOp := update s.inOp p true } hother
      have hle := reserved_le (h := h) hi.outstanding
      simp only [hin, room, hself, update_self, if_true, Bool.false_eq_true, if_false, List.toFinset_nil,
        Finset.card_empty] at hres
      rw [hM] at hroom hle hres
      show s.lh.length + _ ≤ _
      by_cases hout : s.outstanding = 0
      · have hnil : s.lh.length = 0 := by rw [lh_eq_nil hp hc hout, List.length_nil]
        omega
      · omega
    | @endOp p h0 hin =>
      have hx := hi.none_of_inOp hin
      subst hx
      have hc : s.committing = false := hi.committing
      have hfields : (s.endOp p).panic = none ∧ (s.endOp p).lh = s.lh ∧ (s.endOp p).inOp = update s.inOp p false := by
        unfold Blocks.endOp
        simp only [hc, Bool.false_eq_true, if_false]
        split_ifs <;> exact ⟨h0, rfl, rfl⟩
      refine ⟨by simp [hfields.1], fun _ _ => ?_⟩
      have hother : ∀ q ≠ p, (s.endOp p).inOp q = s.inOp q ∧ opBlocks q ((s, .endOp p) :: h) = opBlocks q h :=
        fun q hne => ⟨by rw [hfields.2.2, update_of_ne hne], rfl⟩
      have hres := reserved_step _ hother
      have hlen := ih h0 (hpos p hin)
      simp only [room, hfields.2.2, update_self, Bool.false_eq_true, if_false] at hres
      rw [hfields.2.1]
      omega
    | @act act rest s' h0 ht hact =>
      have hcode := hi.code
      rw [ht] at hcode
      obtain ⟨g, rfl, -⟩ := hcode
      obtain ⟨hout, hpanic⟩ := Blocks.act_fields hact
      have hquiet := hi.quiet rfl
      refine ⟨?_, fun _ hpos' => absurd hpos' (by omega)⟩
      rcases hpanic with hpanic | hpanic <;> rw [hpanic]
      · simp [h0]
      · simp

/-- **The reservation suffices** if every operation writes one block less than `begin_op` reserves. -/
theorem reservation_suffices (hp : Lts.Path (Blocks.step G) (Blocks.boot data disk) h s) (hG : G.size = LOGSIZE)
    (ho : OpsWithin (MAXOPBLOCKS - 1) h) : s.panic ≠ some .tooBig :=
  (reservation hp hG ho).1

/-! ## Three operations -/

section Three

/-- The step is a `log_write` of process `p`. -/
def BlockEvent.logWriteBy (p : P) : BlockEvent P K α → Bool
  | .logWrite q _ => q = p
  | _ => false

omit [HeaderBlock α] [Fintype P] in
theorem length_opBlocks_le (p : P) (h : List (Blocks P K α × BlockEvent P K α)) :
    (opBlocks p h).length ≤ h.countP fun x => x.2.logWriteBy p := by
  induction h with
  | nil => exact le_rfl
  | cons x h ih =>
    obtain ⟨s, e⟩ := x
    rw [List.countP_cons]
    cases e with
    | beginOp q =>
      refine le_trans ?_ (Nat.le_add_right _ _)
      simp only [opBlocks]
      by_cases hqp : q = p
      · rw [if_pos hqp]
        exact Nat.zero_le _
      · rwa [if_neg hqp]
    | logWrite q k =>
      have hby : (BlockEvent.logWrite q k : BlockEvent P K α).logWriteBy p = decide (q = p) := rfl
      simp only [opBlocks, hby, decide_eq_true_eq]
      by_cases hqp : q = p
      · simp only [if_pos hqp]
        split
        · exact Nat.succ_le_succ ih
        · exact ih.trans (Nat.le_add_right _ _)
      · simp only [if_neg hqp]
        split <;> exact ih
    | _ => exact ih.trans (Nat.le_add_right _ _)

omit [HeaderBlock α] [Fintype P] in
theorem OpsWithin.of_countP (hn : ∀ p, (h.countP fun x => x.2.logWriteBy p) ≤ n) : OpsWithin n h := by
  intro h' hs p
  calc (opBlocks p h').toFinset.card ≤ (opBlocks p h').length := List.toFinset_card_le _
    _ ≤ h'.countP _ := length_opBlocks_le p h'
    _ ≤ h.countP _ := hs.sublist.countP_le
    _ ≤ n := hn p

/-- A process changes block `b` and passes it to `log_write`. -/
def logBlock (p : Fin 3) (b : ℕ) : List (SmallEvent 3) := changeBlock p b 0 ++ [.logWrite p 0]

/-- Three operations start, and process `i` writes the blocks `j`. -/
def threeOps (l : List (Fin 3 × ℕ)) : List (SmallEvent 3) :=
  [.beginOp 0, .beginOp 1, .beginOp 2] ++ (l.map fun x => logBlock x.1 x.2 ++ relse x.1).flatten

/-- `n` blocks for each process. -/
def blocksOf (n : ℕ) : List (Fin 3 × ℕ) :=
  ((List.finRange 3).map fun p => (List.range n).map fun j => (p, 100 + 10 * p.val + j)).flatten

theorem reservation_suffices_three : ∃ (h : List (Small 3 × SmallEvent 3)) (s : Small 3), SmallRun h s ∧
    OpsWithin (MAXOPBLOCKS - 1) h ∧ s.lh.length = 27 ∧ s.panic ≠ some .tooBig := by
  obtain ⟨h, s, hp, hlen, hn⟩ := exists_smallRun
    (fun h s => s.lh.length = 27 ∧ ∀ p, (h.countP fun x => x.2.logWriteBy p) ≤ MAXOPBLOCKS - 1)
    (threeOps (blocksOf 9)) (by decide +kernel)
  exact ⟨h, s, hp, .of_countP hn, hlen, reservation_suffices hp rfl (.of_countP hn)⟩

/-- **The reservation is one block too small**: three operations of `MAXOPBLOCKS` blocks reach the panic. -/
theorem reservation_too_small : ∃ (h : List (Small 3 × SmallEvent 3)) (s : Small 3), SmallRun h s ∧
    OpsWithin MAXOPBLOCKS h ∧ s.panic = some .tooBig := by
  obtain ⟨h, s, hp, hpanic, hn⟩ := exists_smallRun
    (fun h s => s.panic = some .tooBig ∧ ∀ p, (h.countP fun x => x.2.logWriteBy p) ≤ MAXOPBLOCKS)
    (threeOps (blocksOf 10).dropLast ++ logBlock 2 129) (by decide +kernel)
  exact ⟨h, s, hp, .of_countP hn, hpanic⟩

end Three

end Xv6Mlfq.Fs
