import Xv6Mlfq.Fs.ReadWrite

/-!
# Xv6Mlfq.Fs.WriteLog — what a write leaves in the log and in the cache

`begin_op` reserves `MAXOPBLOCKS` blocks of the log for an operation.  A chunk of `filewrite` keeps to it (`writei_log_le`): a block of
data for each round, and a block of the bitmap if the round takes a block, the indirect block with its block of the bitmap, and the
block of the inode.  Nothing is assumed of the volume here; a file without holes has a block where an unaligned write begins.

So `filewrite`, which calls `writei` on a few blocks at a time, does not make `log_write` panic, and has the effect of one write
(`file_bytes`).  The blocks have to be `Sound`: a block that is in use but marked free may be given to another file
(`free_block_overwritten`).

A copy from user memory that fails in the middle of a block leaves a buffer changed that is not in the log (`partial_copy`).
`short_write_iff` says when this shows.
-/

namespace Xv6Mlfq.Vol

open Bytes Function
open Files (BSIZE NDIRECT NINDIRECT MAXFILE)

variable {sb : Superblock} {s s' s'' : Store} {x i n o bn addr va off left len fuel tot : ℕ}
  {ip ip' ip'' : Inode} {src : Memory} {L L' : Finset ℕ}

/-! ## Blocks in the log -/

/-- The blocks added to the log are those of `L`, and the indirect block of the inode. -/
def Adds (s s' : Store) (ip : Inode) (L : Finset ℕ) : Prop :=
  ∀ x ∈ s'.log, x ∈ s.log ∨ x ∈ L ∨ x ≠ 0 ∧ x = ip.addrs NDIRECT

/-- Whether an inode has got an indirect block. -/
def fresh (ip ip' : Inode) : ℕ := if ip.addrs NDIRECT = 0 ∧ ip'.addrs NDIRECT ≠ 0 then 1 else 0

/-- An indirect block stays. -/
def KeepsIndirect (ip ip' : Inode) : Prop := ip.addrs NDIRECT ≠ 0 → ip'.addrs NDIRECT = ip.addrs NDIRECT

theorem fresh_add (h : KeepsIndirect ip ip') (h' : KeepsIndirect ip' ip'') : fresh ip ip' + fresh ip' ip'' ≤ fresh ip ip'' := by
  unfold fresh
  by_cases h1 : ip'.addrs NDIRECT = 0
  · have hip : ip.addrs NDIRECT = 0 := by
      by_contra hne
      exact hne ((h hne).symm.trans h1)
    simp [h1, hip]
  · have h2 := h' h1
    simp [h1, h2]

theorem KeepsIndirect.trans (h : KeepsIndirect ip ip') (h' : KeepsIndirect ip' ip'') : KeepsIndirect ip ip'' := by
  intro h0
  have h1 := h h0
  rw [h' (by rwa [h1]), h1]

theorem Adds.trans (h : Adds s s' ip' L) (h' : Adds s' s'' ip'' L') (hk : KeepsIndirect ip' ip'') :
    Adds s s'' ip'' (L ∪ L') := by
  intro x hx
  rcases h' x hx with hx | hx | hx
  · rcases h x hx with hx | hx | ⟨h0, hx⟩
    · exact .inl hx
    · exact .inr (.inl (Finset.mem_union_left _ hx))
    · exact .inr (.inr ⟨h0, by rw [hk (hx ▸ h0), hx]⟩)
  · exact .inr (.inl (Finset.mem_union_right _ hx))
  · exact .inr (.inr hx)

/-! ## `bmap` -/

/-- The blocks that `balloc` writes to the log. -/
theorem balloc_log : Ends sb.act (balloc sb) s fun b s' => ∀ x ∈ s'.log, x ∈ s.log ∨ x ∈ ({b, sb.bblock b} : Finset ℕ) := by
  refine Ends.balloc (fun _ x hx => .inl hx) fun b _ _ x hx => ?_
  simp only [Store.log_take, Finset.mem_insert, Finset.mem_singleton] at hx ⊢
  tauto

theorem addrAt_log {Q : ℕ × Inode → Store → Prop} (hsame : ip.addrs i ≠ 0 → Q (ip.addrs i, ip) s)
    (hnone : ∀ s', ip.addrs i = 0 → (∀ x ∈ s'.log, x ∈ s.log ∨ x ∈ ({0, sb.bblock 0} : Finset ℕ)) → Q (0, ip) s')
    (hnew : ∀ b s', ip.addrs i = 0 → b ≠ 0 → (∀ x ∈ s'.log, x ∈ s.log ∨ x ∈ ({b, sb.bblock b} : Finset ℕ)) →
      Q (b, ip.setAddr i b) s') : Ends sb.act (addrAt sb ip i) s Q := by
  unfold addrAt
  by_cases h0 : ip.addrs i = 0
  · rw [if_pos h0]
    refine Ends.bind (balloc_log.mono fun b s' hlog => ?_)
    by_cases hb : b = 0
    · rw [if_pos hb]
      rw [hb] at hlog
      exact Ends.pure (hnone s' h0 hlog)
    · rw [if_neg hb]
      exact Ends.pure (hnew b s' h0 hb hlog)
  · rw [if_neg h0]
    exact Ends.pure (hsame h0)

theorem entryAt_log {ind j : ℕ} : Ends sb.act (entryAt sb ind j) s fun addr s' =>
    (entry (s.buf ind) j ≠ 0 → addr = entry (s.buf ind) j ∧ s' = s) ∧
      ∀ x ∈ s'.log, x ∈ s.log ∨ x ∈ ({addr, sb.bblock addr} : Finset ℕ) ∨ x = ind := by
  refine Ends.bind (Ends.op rfl ?_)
  show Ends sb.act (if entry (s.buf ind) j = 0 then _ else _) s _
  by_cases h0 : entry (s.buf ind) j = 0
  · rw [if_pos h0]
    refine Ends.bind (balloc_log.mono fun b s' hlog => ?_)
    by_cases hb : b = 0
    · rw [if_pos hb]
      rw [hb] at hlog
      exact Ends.pure ⟨fun hne => absurd h0 hne, fun x hx => (hlog x hx).imp_right .inl⟩
    · rw [if_neg hb]
      refine Ends.bind (Ends.op rfl (Ends.bind (Ends.op rfl (Ends.pure ⟨fun hne => absurd h0 hne, fun x hx => ?_⟩))))
      rcases Finset.mem_insert.mp hx with hx | hx
      · exact .inr (.inr hx)
      · exact (hlog x hx).imp_right .inl
  · rw [if_neg h0]
    exact Ends.pure ⟨fun _ => ⟨rfl, rfl⟩, fun x hx => .inl hx⟩

/-- What `bmap` leaves in the log: a block that is taken, and the blocks of the bitmap. -/
theorem bmap_log (hbn : bn < MAXFILE) : Ends sb.act (bmap sb ip bn) s fun r s' => KeepsIndirect ip r.2 ∧
    ∃ L : Finset ℕ, Adds s s' r.2 L ∧
      (insert r.1 L).card + (if blk s.buf ip bn ≠ 0 then 1 else 0) ≤ 2 + fresh ip r.2 := by
  have hpair : ∀ a b : ℕ, (insert a {a, b} : Finset ℕ).card ≤ 2 := by
    intro a b
    rw [Finset.insert_eq_of_mem (Finset.mem_insert_self ..)]
    exact Finset.card_le_two
  unfold bmap
  by_cases hdir : bn < NDIRECT
  · rw [if_pos hdir, blk_direct hdir]
    refine addrAt_log (fun h0 => ⟨fun _ => rfl, ∅, fun x hx => .inl hx, ?_⟩)
      (fun s' h0 hlog => ⟨fun _ => rfl, {0, sb.bblock 0}, fun x hx => (hlog x hx).imp_right .inl, ?_⟩)
      fun b s' h0 hb hlog => ⟨fun _ => Inode.setAddr_of_ne (by omega), {b, sb.bblock b}, fun x hx => (hlog x hx).imp_right .inl, ?_⟩
    · simp [h0]
    · have := hpair 0 (sb.bblock 0)
      simp only [h0, ne_eq, not_true, if_false]
      omega
    · have := hpair b (sb.bblock b)
      simp only [h0, ne_eq, not_true, if_false]
      omega
  · have hj : bn - NDIRECT < NINDIRECT := by
      have : MAXFILE = NDIRECT + NINDIRECT := rfl
      omega
    rw [if_neg hdir, if_pos hj]
    refine Ends.bind (addrAt_log (fun h0 => ?_) (fun s' h0 hlog => ?_) fun b s' h0 hb hlog => ?_)
    · -- there is an indirect block
      show Ends sb.act (if ip.addrs NDIRECT = 0 then _ else _) s _
      rw [if_neg h0]
      refine Ends.bind (entryAt_log.mono fun addr s' hr => ?_)
      obtain ⟨hsame, hlog⟩ := hr
      by_cases he : entry (s.buf (ip.addrs NDIRECT)) (bn - NDIRECT) = 0
      · refine Ends.pure ⟨fun _ => rfl, {addr, sb.bblock addr}, fun x hx => ?_, ?_⟩
        · rcases hlog x hx with hx | hx | hx
          · exact .inl hx
          · exact .inr (.inl hx)
          · exact .inr (.inr ⟨hx ▸ h0, hx⟩)
        · have := hpair addr (sb.bblock addr)
          simp only [blk_indirect hdir hbn, if_neg h0, he, ne_eq, not_true, if_false]
          omega
      · obtain ⟨rfl, rfl⟩ := hsame he
        refine Ends.pure ⟨fun _ => rfl, ∅, fun x hx => .inl hx, ?_⟩
        simp only [blk_indirect hdir hbn, if_neg h0, he, ne_eq, not_false_eq_true, if_true]
        simp
    · refine Ends.pure ⟨fun _ => rfl, {0, sb.bblock 0}, fun x hx => (hlog x hx).imp_right .inl, ?_⟩
      have := hpair 0 (sb.bblock 0)
      simp only [blk_indirect hdir hbn, if_pos h0, ne_eq, not_true, if_false]
      omega
    · -- the indirect block is new
      have hind : (ip.setAddr NDIRECT b).addrs NDIRECT = b := Inode.setAddr_self
      have hfresh : fresh ip (ip.setAddr NDIRECT b) = 1 := by
        rw [fresh, if_pos ⟨h0, by rw [hind]; exact hb⟩]
      show Ends sb.act (if b = 0 then _ else _) s' _
      rw [if_neg hb]
      refine Ends.bind (entryAt_log.mono fun addr s'' hr => ?_)
      refine Ends.pure ⟨fun hne => absurd h0 hne, insert (sb.bblock b) {addr, sb.bblock addr}, fun x hx => ?_, ?_⟩
      · rw [hind]
        rcases hr.2 x hx with hx | hx | hx
        · rcases hlog x hx with hx | hx
          · exact .inl hx
          · rcases Finset.mem_insert.mp hx with hx | hx
            · exact .inr (.inr ⟨hx ▸ hb, hx⟩)
            · exact .inr (.inl (Finset.mem_singleton.mp hx ▸ Finset.mem_insert_self ..))
        · exact .inr (.inl (Finset.mem_insert_of_mem hx))
        · exact .inr (.inr ⟨hx ▸ hb, hx⟩)
      · have hcomm : insert addr (insert (sb.bblock b) {addr, sb.bblock addr}) = insert (sb.bblock b) ({addr, sb.bblock addr} : Finset ℕ) :=
          Finset.insert_eq_of_mem (Finset.mem_insert_of_mem (Finset.mem_insert_self ..))
        have h₁ := Finset.card_insert_le (sb.bblock b) ({addr, sb.bblock addr} : Finset ℕ)
        have h₂ : ({addr, sb.bblock addr} : Finset ℕ).card ≤ 2 := Finset.card_le_two
        simp only [blk_indirect hdir hbn, if_pos h0, ne_eq, not_true, if_false, hfresh]
        rw [hcomm]
        omega

/-! ## The loop -/

/-- How many rounds the loops of `readi` and `writei` make. -/
def rounds (off left : ℕ) : ℕ := if left = 0 then 0 else (off % BSIZE + left - 1) / BSIZE + 1

theorem rounds_pos (off : ℕ) (h : left ≠ 0) : 1 ≤ rounds off left := by
  rw [rounds, if_neg h]
  exact Nat.le_add_left ..

theorem rounds_chunk (off : ℕ) (h : left ≠ 0) : 1 + rounds (off + chunk off left) (left - chunk off left) ≤ rounds off left := by
  have hm : chunk off left = min left (BSIZE - off % BSIZE) := rfl
  generalize chunk off left = m at hm
  unfold rounds
  rw [if_neg h]
  simp only [BSIZE] at *
  by_cases hl : left - m = 0
  · rw [if_pos hl]
    omega
  · rw [if_neg hl]
    omega

/-- **The loop of `writei`** writes two blocks to the log in a round, but one if the file has a block there. -/
theorem writeLoop_log (hmax : off + left ≤ MAXFILE * BSIZE) :
    Ends sb.act (writeLoop sb src fuel ip va off left tot) s fun r s' => KeepsIndirect ip r.2 ∧ ∃ L : Finset ℕ, Adds s s' r.2 L ∧
      L.card + (if 0 < left ∧ blk s.buf ip (off / BSIZE) ≠ 0 then 1 else 0) ≤ 2 * rounds off left + fresh ip r.2 := by
  induction fuel generalizing s ip va off left tot with
  | zero =>
    refine Ends.pure ⟨fun _ => rfl, ∅, fun x hx => .inl hx, ?_⟩
    by_cases hleft : left = 0
    · simp [hleft]
    · have := rounds_pos off hleft
      rw [Finset.card_empty]
      split_ifs <;> omega
  | succ fuel ih =>
    unfold writeLoop
    by_cases hleft : left = 0
    · rw [if_pos hleft]
      exact Ends.pure ⟨fun _ => rfl, ∅, fun x hx => .inl hx, by simp [hleft]⟩
    rw [if_neg hleft]
    have hpos : 0 < left := Nat.pos_of_ne_zero hleft
    have hrounds := rounds_chunk off hleft
    have hbn : off / BSIZE < MAXFILE := by
      rw [Nat.div_lt_iff_lt_mul (by decide)]
      omega
    simp only [hpos, true_and]
    refine Ends.bind ((bmap_log hbn).mono ?_)
    rintro ⟨addr, ip'⟩ s1 ⟨hk, L, hL, hcard⟩
    dsimp only at hk hL hcard ⊢
    have hsub : L.card ≤ (insert addr L).card := Finset.card_le_card (Finset.subset_insert ..)
    by_cases h0 : addr = 0
    · rw [if_pos h0]
      exact Ends.pure ⟨hk, L, hL, by dsimp only; omega⟩
    rw [if_neg h0]
    refine Ends.bind (Ends.op rfl (Ends.bind (Ends.op rfl ?_)))
    change Ends sb.act (if src.span va (chunk off left) < chunk off left then _ else _) _ _
    by_cases hspan : src.span va (chunk off left) < chunk off left
    · rw [if_pos hspan]
      exact Ends.pure ⟨hk, L, hL, by dsimp only; omega⟩
    rw [if_neg hspan]
    refine Ends.bind (Ends.op rfl ?_)
    have hle : chunk off left ≤ left := chunk_le
    refine (ih (by omega)).mono ?_
    rintro ⟨tot', ip''⟩ s2 ⟨hk', L', hL', hcard'⟩
    dsimp only at hk' hL'
    change L'.card + _ ≤ 2 * rounds (off + chunk off left) (left - chunk off left) + fresh ip' ip'' at hcard'
    -- the round has written the block of data as well
    have hL1 : Adds s ((s1.fill addr (splice (s1.buf addr) (off % BSIZE) (slice src.data va (src.span va (chunk off left))))).logWrite
        addr) ip' (insert addr L) := by
      intro x hx
      rcases Finset.mem_insert.mp hx with hx | hx
      · exact .inr (.inl (hx ▸ Finset.mem_insert_self ..))
      · exact (hL x hx).imp_right fun h => h.imp_left Finset.mem_insert_of_mem
    refine ⟨hk.trans hk', insert addr L ∪ L', hL1.trans hL' hk', ?_⟩
    have hunion := Finset.card_union_le (insert addr L) L'
    have hfresh := fresh_add hk hk'
    show (insert addr L ∪ L').card + _ ≤ 2 * rounds off left + fresh ip ip''
    omega

/-! ## A transaction -/

/-- An unaligned write begins in a block that the file has, and makes four rounds; an aligned one makes three. -/
theorem rounds_le (off : ℕ) (hlen : len ≤ maxChunk) : rounds off len ≤ 3 ∨ rounds off len = 4 ∧ off % BSIZE ≠ 0 := by
  unfold rounds
  simp only [maxChunk, MAXOPBLOCKS, BSIZE] at *
  split_ifs <;> omega

theorem rounds_first (hole : NoHoles s.buf ip) (hoff : off ≤ ip.size) (hmod : off % BSIZE ≠ 0) : blk s.buf ip (off / BSIZE) ≠ 0 := by
  have hdiv : (off - 1) / BSIZE = off / BSIZE := by
    simp only [BSIZE] at *
    omega
  rw [← hdiv]
  have hpos : off ≠ 0 := by
    rintro rfl
    exact hmod (Nat.zero_mod _)
  exact hole (off - 1) (by omega)

theorem Ends.writei_log (hole : NoHoles s.buf ip) (hoff : off ≤ ip.size) (hlen : len ≤ maxChunk) :
    Ends sb.act (Vol.writei sb n ip src va off len) s fun _ s' => s'.log.card ≤ s.log.card + MAXOPBLOCKS := by
  have hchunk : maxChunk = 3072 := rfl
  have hmax : ip.size ≤ MAXFILE * BSIZE := hole.size_le
  have hlim : MAXFILE * BSIZE = 274432 := rfl
  by_cases hrej : Rejected ip off len
  · exact Ends.writei_rejected (by omega) (by omega) hrej (Nat.le_add_right ..)
  have hend : off + len ≤ MAXFILE * BSIZE := by
    unfold Rejected at hrej
    omega
  unfold Vol.writei
  rw [if_neg fun hc => hrej ((writei_cond (by omega) (by omega)).mp hc)]
  refine Ends.bind ((writeLoop_log hend).mono ?_)
  rintro ⟨tot, ip'⟩ s1 ⟨-, L, hL, hcard⟩
  refine Ends.bind (Ends.op rfl (Ends.pure ?_))
  have hsub : insert (sb.iblock n) s1.log ⊆ s.log ∪ insert (sb.iblock n) (insert (ip'.addrs NDIRECT) L) := by
    intro x hx
    rcases Finset.mem_insert.mp hx with rfl | hx
    · exact Finset.mem_union_right _ (Finset.mem_insert_self ..)
    rcases hL x hx with hx | hx | hx
    · exact Finset.mem_union_left _ hx
    · exact Finset.mem_union_right _ (Finset.mem_insert_of_mem (Finset.mem_insert_of_mem hx))
    · exact Finset.mem_union_right _ (Finset.mem_insert_of_mem (hx.2 ▸ Finset.mem_insert_self ..))
  have h₀ := Finset.card_union_le s.log (insert (sb.iblock n) (insert (ip'.addrs NDIRECT) L))
  have h₁ := Finset.card_le_card hsub
  have h₂ := Finset.card_insert_le (sb.iblock n) (insert (ip'.addrs NDIRECT) L)
  have h3 := Finset.card_insert_le (ip'.addrs NDIRECT) L
  have hfresh : fresh ip ip' ≤ 1 := by
    unfold fresh
    split_ifs <;> omega
  have hten : MAXOPBLOCKS = 10 := rfl
  have hbound : L.card ≤ 2 * 3 + 1 + 1 := by
    rcases rounds_le off hlen with hr | ⟨hr, hmod⟩
    · dsimp only at hcard
      omega
    · have hpos : 0 < len := by
        by_contra hz
        obtain rfl : len = 0 := by omega
        simp [rounds] at hr
      have hfirst := rounds_first hole hoff hmod
      simp only [hpos, hfirst, ne_eq, not_false_eq_true, and_self, if_true] at hcard
      omega
  show (insert (sb.iblock n) s1.log).card ≤ s.log.card + MAXOPBLOCKS
  omega

/-- The log has room for an operation. -/
theorem logOk_of_le (ho : 1 ≤ o) (hroom : L.card + MAXOPBLOCKS < LOGSIZE - 1) (hle : L'.card ≤ L.card + MAXOPBLOCKS) :
    LogOk o L' := .inr ⟨ho, by omega⟩

/-- **A write transaction fits its reservation**: a chunk of `filewrite`, on a file without holes, writes at most `MAXOPBLOCKS` blocks to
the log between `begin_op`, after which the operation has none there, and `end_op`; `log_write` does not panic. -/
theorem writei_log_le (hole : NoHoles s.buf ip) (hoff : off ≤ ip.size) (hlen : len ≤ maxChunk) (hlog : s.log = ∅) (ho : 1 ≤ o) :
    ∃ r s', (writei sb n ip src va off len).eval (Store.exec sb o) s = .ok (r, s') ∧ s'.log.card ≤ MAXOPBLOCKS := by
  have hends : Ends sb.act (writei sb n ip src va off len) s _ := Ends.writei_log hole hoff hlen
  obtain ⟨r, s', he, hle⟩ := (hends.exec (o := o) fun _ _ => logOk_of_le ho (by rw [hlog]; decide)).eval
  rw [hlog, Finset.card_empty, Nat.zero_add] at hle
  exact ⟨r, s', he, hle⟩

theorem writei_log_le_small : ∃ r s',
    (writei smallSb 2 ((small 63).inode smallSb 2) nines 0 5 3072).eval (Store.exec smallSb 1) (small 63) = .ok (r, s') ∧
      s'.log.card ≤ MAXOPBLOCKS :=
  writei_log_le small_noHoles.2 (by decide +kernel) (by decide) rfl le_rfl

/-! ## `filewrite` -/

theorem Ends.within {α : Type} {p : Code α} {Q : α → State → Prop} (h : Ends (Store.exec sb o) p s fun x s' => Q x ⟨s', o⟩) :
    Ends (State.exec sb) (within p) ⟨s, o⟩ Q := by
  obtain ⟨x, s', he, hQ⟩ := h.eval
  refine .of_eval ?_ hQ
  clear h
  induction p generalizing s with
  | ret =>
    cases he
    rfl
  | act a k ih =>
    rw [Prog.eval] at he
    split at he
    · cases he
    rename_i r s1 hexec
    have hstep : State.exec sb ⟨s, o⟩ (.op a) = .ok (r, ⟨s1, o⟩) := by simp only [State.exec, hexec]
    rw [Vol.within, Prog.eval, hstep]
    exact ih r he

/-- **The loop of `filewrite`**, each round a transaction -/
theorem Ends.filewriteLoop {i addr : ℕ} (h : Sound sb s (s.inode sb)) (hn : Live sb (s.inode sb) n) (href : n ∈ s.itable)
    (hmem : Coherent sb s n) (hlog : s.log = ∅) (hole : NoHoles s.buf (s.inode sb n)) (hoff : off < 2 ^ 32) (hi : i ≤ len)
    (hfuel : len - i ≤ fuel) (hend : i = len → off ≤ (s.inode sb n).size) (hsrc : src.Reachable addr len) :
    Ends (State.exec sb) (filewriteLoop sb n src addr len fuel off i) ⟨s, 0⟩ fun r t => t.outstanding = 0 ∧
      (r.2 = len → r.1 = off + (len - i) ∧ Written sb s n src (addr + i) off (len - i) 0 t.store) := by
  have hdone : i = len → off = off + (len - i) ∧ Written sb s n src (addr + i) off (len - i) 0 s := by
    rintro rfl
    rw [Nat.sub_self]
    exact ⟨rfl, .refl h (hend rfl)⟩
  induction fuel generalizing s off i with
  | zero => exact Ends.pure ⟨rfl, hdone⟩
  | succ fuel ih =>
    unfold Vol.filewriteLoop
    by_cases hlt : i < len
    case neg =>
      rw [if_neg hlt]
      exact Ends.pure ⟨rfl, hdone⟩
    rw [if_pos hlt]
    refine Ends.bind (Ends.perform rfl (Ends.bind (Ends.within (o := 1) (Ends.ilock quiet_exec href hn hmem ?_))))
    obtain ⟨s1, hs1⟩ : ∃ s1, s1 = s.setMem n (some (s.inode sb n)) := ⟨_, rfl⟩
    rw [← hs1]
    have hbuf : s1.buf = s.buf := by rw [hs1]; rfl
    have hlog1 : s1.log = ∅ := by rw [hs1]; exact hlog
    have href1 : n ∈ s1.itable := by rw [hs1]; exact href
    have hino : s1.inode sb = s.inode sb := Store.inode_congr hbuf
    have hn1 : Live sb (s1.inode sb) n := by rwa [hino]
    have h₁ : Sound sb s1 (s1.inode sb) := by
      rw [hino]
      exact h.congr hbuf
    have hole1 : NoHoles s1.buf (s1.inode sb n) := by rwa [hbuf, hino]
    have hchunk : min (len - i) maxChunk ≤ len - i := Nat.min_le_left ..
    have hpos : 0 < min (len - i) maxChunk := Nat.lt_min.mpr ⟨by omega, by decide⟩
    have hsmall : min (len - i) maxChunk < 2 ^ 32 := lt_of_le_of_lt (Nat.min_le_right ..) (by decide)
    refine Ends.bind (Ends.within ?_)
    rw [← hino]
    by_cases hok : Rejected (s1.inode sb n) off (min (len - i) maxChunk)
    · -- `writei` returns -1, and so does `filewrite`
      refine Ends.writei_rejected hoff hsmall hok (Ends.bind (Ends.within (Ends.op rfl (Ends.bind (Ends.perform rfl ?_)))))
      rw [if_neg (by simp)]
      exact Ends.pure ⟨rfl, fun he => by omega⟩
    have hoffsize : off ≤ (s1.inode sb n).size := by
      unfold Rejected at hok
      omega
    have hwrite : Ends sb.act (Vol.writei sb n (s1.inode sb n) src (addr + i) off (min (len - i) maxChunk)) s1 _ :=
      Ends.writei_written h₁ hn1 hoff hsmall hok fun hu q hq hlt' =>
        hsrc hu q ((Nat.div_le_div_right (Nat.le_add_right ..)).trans hq) (by omega)
    refine ((hwrite.and (Ends.writei_log hole1 hoffsize (Nat.min_le_right ..))).exec fun r s2 hr => ?_).mono ?_
    · exact logOk_of_le le_rfl (by rw [hlog1]; decide) hr.2
    rintro r s2 ⟨⟨t, ht, -, rfl, hw, heq⟩, -⟩
    refine Ends.bind (Ends.within (Ends.op rfl (Ends.bind (Ends.perform rfl ?_))))
    dsimp only [Option.getD_some]
    have hoff1 : off + t < 2 ^ 32 := by
      unfold Rejected at hok
      omega
    have hw1 : Written sb s n src (addr + i) off t 0 s2 := hw.congr_left hbuf
    by_cases hall : t = min (len - i) maxChunk
    · rw [if_pos (by rw [hall]), Nat.mod_eq_of_lt hoff1]
      obtain ⟨s3, hs3⟩ : ∃ s3, s3 = (s2.setMem n (some (s2.inode sb n))).commit := ⟨_, rfl⟩
      have hbuf3 : s3.buf = s2.buf := by rw [hs3]; rfl
      have hw3 := hw1.congr hbuf3
      have hino3 : s3.inode sb = s2.inode sb := Store.inode_congr hbuf3
      have hsize : off + t ≤ (s3.inode sb n).size := by
        rw [hw3.size]
        exact Nat.le_max_right ..
      have hmem3 : s3.mem n = some (s3.inode sb n) := by
        rw [hino3, hs3]
        exact update_self ..
      have href3 : n ∈ s3.itable := by
        rw [hs3]
        show n ∈ s2.itable
        rw [heq]
        exact href1
      rw [← hall]
      show Ends (State.exec sb) (Vol.filewriteLoop sb n src addr len fuel (off + t) (i + t))
        ⟨(s2.setMem n (some (s2.inode sb n))).commit, 0⟩ _
      rw [← hs3]
      refine (ih hw3.sound (hw3.live.mpr hn) href3 (.inr hmem3) (by rw [hs3]; rfl) (hw3.noHoles hole (by rwa [hino] at hoffsize)) hoff1
        (by omega) (by omega) (fun _ => hsize) fun he => ⟨by omega, ?_⟩).mono fun r t' hr => ⟨hr.1, fun hlen => ?_⟩
      · have hz : len - (i + t) = 0 := by omega
        rw [hz]
        exact .refl hw3.sound hsize
      · obtain ⟨hr1, hr2⟩ := hr.2 hlen
        have hsum : t + (len - (i + t)) = len - i := by omega
        refine ⟨by omega, ?_⟩
        rw [← Nat.add_assoc] at hr2
        have happ := hw3.append hr2
        rwa [hsum] at happ
    · rw [if_neg (by simpa using hall)]
      exact Ends.pure ⟨rfl, fun he => by omega⟩

/-! ## The calls on a file -/

/-- **Files are byte arrays.**  `n` is a file without holes of a volume whose blocks are sound, and user copies do not fail. -/
theorem file_bytes (h : Sound sb s (s.inode sb)) (hn : Live sb (s.inode sb) n) (hole : NoHoles s.buf (s.inode sb n)) :
    -- `writei` in a transaction, which may get too big unless `len` is at most what `filewrite` asks for and there is room in the log
    (∀ o src va off len, 1 ≤ o → off < 2 ^ 32 → len < 2 ^ 32 → src.Reachable va len →
      (writei sb n (s.inode sb n) src va off len).eval (Store.exec sb o) s = .error .tooBig ∧
          ¬ Rejected (s.inode sb n) off len ∧ ¬ (len ≤ maxChunk ∧ s.log.card + MAXOPBLOCKS < LOGSIZE - 1) ∨
        ∃ r ip' s', (writei sb n (s.inode sb n) src va off len).eval (Store.exec sb o) s = .ok ((r, ip'), s') ∧
          (r = none ↔ Rejected (s.inode sb n) off len) ∧ (r = none → ip' = s.inode sb n ∧ s' = s) ∧
          ∀ tot, r = some tot → tot ≤ len ∧ (tot < len → Full sb s') ∧ ip' = s'.inode sb n ∧ Written sb s n src va off tot 0 s') ∧
    -- `readi`
    (∀ o dst va off len, off < 2 ^ 32 → len < 2 ^ 32 → dst.Reachable va len →
      (readi sb (s.inode sb n) dst va off len).eval (Store.exec sb o) s =
        .ok ((some (readBytes s.buf (s.inode sb n) off len), s.inode sb n), s)) ∧
    -- `filewrite`
    (n ∈ s.itable → Coherent sb s n → s.log = ∅ → ∀ src addr off len, off < 2 ^ 32 → 0 < len → src.Reachable addr len →
      ∃ ok off' s', (filewrite sb n src addr off len).eval (State.exec sb) ⟨s, 0⟩ = .ok ((ok, off'), ⟨s', 0⟩) ∧
        (ok = true → off' = off + len ∧ Written sb s n src addr off len 0 s')) := by
  refine ⟨fun o src va off len ho hoff hlen hsrc => ?_, fun o dst va off len hoff hlen hdst => ?_,
    fun href hmem hlog src addr off len hoff hpos hsrc => ?_⟩
  · by_cases hok : Rejected (s.inode sb n) off len
    · have hends : Ends (Store.exec sb o) (writei sb n (s.inode sb n) src va off len) s fun r s' => r = (none, s.inode sb n) ∧ s' = s :=
        Ends.writei_rejected hoff hlen hok ⟨rfl, rfl⟩
      obtain ⟨_, _, he, rfl, rfl⟩ := hends.eval
      exact .inr ⟨none, _, _, he, by simp [hok], fun _ => ⟨rfl, rfl⟩, by simp⟩
    · obtain ⟨r, s', he, t, ht, hfull, rfl, hw, -⟩ := (Ends.writei_written h hn hoff hlen hok hsrc).eval
      have hspec : (some t = none ↔ Rejected (s.inode sb n) off len) ∧ (some t = none → s'.inode sb n = s.inode sb n ∧ s' = s) ∧
          ∀ tot, some t = some tot → tot ≤ len ∧ (tot < len → Full sb s') ∧ s'.inode sb n = s'.inode sb n ∧
            Written sb s n src va off tot 0 s' := by
        refine ⟨by simp [hok], by simp, fun tot htot => ?_⟩
        obtain rfl : t = tot := by simpa using htot
        exact ⟨ht, hfull, rfl, hw⟩
      have hor : (writei sb n (s.inode sb n) src va off len).eval (Store.exec sb o) s = _ ∨ _ := eval_exec_or ho
      rcases hor with hx | hx
      · exact .inr ⟨some t, _, s', hx.trans he, hspec⟩
      · refine .inl ⟨hx, hok, fun hc => ?_⟩
        have hoffsize : off ≤ (s.inode sb n).size := by
          unfold Rejected at hok
          omega
        have hends : Ends sb.act (writei sb n (s.inode sb n) src va off len) s _ := Ends.writei_log hole hoffsize hc.1
        obtain ⟨_, _, he', -⟩ := (hends.exec (o := o) fun _ _ => logOk_of_le ho hc.2).eval
        cases hx.symm.trans he'
  · have hread : Ends (Store.exec sb o) (readi sb (s.inode sb n) dst va off len) s _ :=
      Ends.readi quiet_exec (fun p _ _ hp => hole p hp) hoff hlen
    obtain ⟨⟨r, ip⟩, s', he, rfl, rfl, hbytes⟩ := hread.eval
    rw [he, ← hbytes hdst]
  · have hloop := Ends.filewriteLoop (i := 0) h hn href hmem hlog hole hoff (Nat.zero_le _) (by omega : len - 0 ≤ len) (by omega) hsrc
    have hends : Ends (State.exec sb) (filewrite sb n src addr off len) ⟨s, 0⟩ fun r t => t.outstanding = 0 ∧
        (r.1 = true → r.2 = off + len ∧ Written sb s n src addr off len 0 t.store) := by
      refine Ends.bind (hloop.mono fun r t hr => Ends.pure ⟨hr.1, fun hok => ?_⟩)
      exact hr.2 (by simpa using hok)
    obtain ⟨⟨ok, off'⟩, ⟨s', o⟩, he, rfl, hq⟩ := hends.eval
    exact ⟨ok, off', s', he, hq⟩

theorem file_bytes_small :
    (∃ ip' s', (writei smallSb 2 ((small 63).inode smallSb 2) nines 0 2046 4).eval (Store.exec smallSb 1) (small 63) =
      .ok ((some 4, ip'), s') ∧ (s'.inode smallSb 2).size = 2050) ∧
    ∃ off' s', (filewrite smallSb 2 nines 0 1022 4000).eval (State.exec smallSb) ⟨small 63, 0⟩ = .ok ((true, off'), ⟨s', 0⟩) ∧
      off' = 5022 ∧ (s'.inode smallSb 2).size = 5022 := by
  obtain ⟨hwrite, -, hfile⟩ := file_bytes small_sound small_live.2 small_noHoles.2
  have hkernel : ∀ va len, nines.Reachable va len := fun _ _ hu => absurd hu (by decide)
  have hsize : ((small 63).inode smallSb 2).size = 2048 := by rw [small_inode (by decide), small_facts.2.2.1.2]
  constructor
  · have hrun : ∃ x s1, (writei smallSb 2 ((small 63).inode smallSb 2) nines 0 2046 4).eval (Store.exec smallSb 1) (small 63) =
        .ok (x, s1) ∧ x.1 = some 4 := Prog.exists_eval_of_check (by decide +kernel)
    obtain ⟨⟨_, ip'⟩, s', he, rfl⟩ := hrun
    obtain hbig | ⟨r, ip'', s'', he', -, -, hsome⟩ := hwrite 1 nines 0 2046 4 le_rfl (by decide) (by decide) (hkernel _ _)
    · cases hbig.1.symm.trans he
    · cases he.symm.trans he'
      obtain ⟨-, -, -, hw⟩ := hsome 4 rfl
      exact ⟨ip', s', he, by rw [hw.size, hsize]; rfl⟩
  · have hrun : ∃ x t, (filewrite smallSb 2 nines 0 1022 4000).eval (State.exec smallSb) ⟨small 63, 0⟩ = .ok (x, t) ∧ x.1 = true :=
      Prog.exists_eval_of_check (by decide +kernel)
    obtain ⟨⟨_, off1⟩, t, he, rfl⟩ := hrun
    obtain ⟨ok, off', s', he', hq⟩ := hfile (by decide) (.inl rfl) rfl nines 0 1022 4000 (by decide) (by decide) (hkernel _ _)
    cases he.symm.trans he'
    obtain ⟨hoff, hw⟩ := hq rfl
    exact ⟨off1, s', he, hoff, by rw [hw.size, hsize]; rfl⟩

/-- A block in use that is marked free: no block is referred to twice, and yet a write to the empty file changes the other one. -/
theorem free_block_overwritten :
    (∀ r r', refs smallSb (small 47).buf ((small 47).inode smallSb) r = refs smallSb (small 47).buf ((small 47).inode smallSb) r' →
      refs smallSb (small 47).buf ((small 47).inode smallSb) r ≠ 0 → r = r') ∧
    NoHoles (small 47).buf ((small 47).inode smallSb 1) ∧ Live smallSb ((small 47).inode smallSb) 2 ∧
    content (small 47).buf ((small 47).inode smallSb 2) 5 = 7 ∧
    ∃ r s', (writei smallSb 1 ((small 47).inode smallSb 1) nines 0 0 1).eval (Store.exec smallSb 1) (small 47) = .ok (r, s') ∧
      r.1 = some 1 ∧ content s'.buf (s'.inode smallSb 2) 5 = 0 :=
  ⟨small_refs_inj, small_noHoles.1, small_live.2, by decide +kernel, Prog.exists_eval_of_check (by decide +kernel)⟩

/-! ## Short writes -/

/-- What happens to buffers by itself. -/
inductive Later
  | commit | recycle (b : ℕ)

def Store.later (s : Store) : Later → Store
  | .commit => s.commit
  | .recycle b => s.recycle b

/-- Every block is read from disk. -/
def Store.reread (s : Store) : Store := { s with buf := s.disk }

/-- Block `x` has `v` at `i`, and it has it on disk if it is not in the log. -/
def Held (s : Store) (x i : ℕ) (v : UInt8) : Prop := s.buf x i = v ∧ (x ∉ s.log → s.disk x i = v)

section Held

variable {v : UInt8} {p : ℕ}

theorem Held.commit_disk (h : Held s x i v) : s.commit.disk x i = v := by
  show (if x ∈ s.log then s.buf x else s.disk x) i = v
  split_ifs with hx
  · exact h.1
  · exact h.2 hx

theorem Held.later (h : Held s x i v) (e : Later) : Held (s.later e) x i v := by
  cases e with
  | commit => exact ⟨h.1, fun _ => h.commit_disk⟩
  | recycle b =>
    show Held (s.recycle b) x i v
    unfold Store.recycle
    split_ifs with hb
    · exact h
    · refine ⟨?_, h.2⟩
      by_cases hx : x = b
      · rw [hx, Store.buf_fill_self]
        rw [hx] at h
        exact h.2 hb
      · rw [Store.buf_fill_of_ne hx]
        exact h.1

/-- Commits and recycled buffers do not show. -/
theorem Held.laters (h : Held s x i v) (es : List Later) : Held (es.foldl Store.later s) x i v := by
  induction es generalizing s with
  | nil => exact h
  | cons e es ih => exact ih (h.later e)

/-- File `n` has byte `v` at `p`, in the buffers and, from the next commit on, on disk. -/
def HasByte (sb : Superblock) (s : Store) (n p : ℕ) (v : UInt8) : Prop :=
  content s.buf (s.inode sb n) p = v ∧ content s.commit.reread.buf (s.commit.reread.inode sb n) p = v

/-- The byte of a file is found if its inode, its indirect block and the byte are held. -/
theorem content_of_held (ht : ∀ x i v, Held s x i v → s'.buf x i = v) (hino : ∀ i, Held s (sb.iblock n) i (s.buf (sb.iblock n) i))
    (hind : (s.inode sb n).addrs NDIRECT ≠ 0 →
      ∀ i, Held s ((s.inode sb n).addrs NDIRECT) i (s.buf ((s.inode sb n).addrs NDIRECT) i))
    (hbyte : blk s.buf (s.inode sb n) (p / BSIZE) ≠ 0 → Held s (blk s.buf (s.inode sb n) (p / BSIZE)) (p % BSIZE) v)
    (hv : content s.buf (s.inode sb n) p = v) : content s'.buf (s'.inode sb n) p = v := by
  have hblock : ∀ x, (∀ i, Held s x i (s.buf x i)) → s'.buf x = s.buf x := fun x hx => funext fun i => ht x i _ (hx i)
  have hip : s'.inode sb n = s.inode sb n := by rw [Store.inode, Store.inode, hblock _ hino]
  have href : ref s'.buf (s'.inode sb n) = ref s.buf (s.inode sb n) := ref_congr (by rw [hip]) fun h0 => hblock _ (hind h0)
  have hblk : blk s'.buf (s'.inode sb n) (p / BSIZE) = blk s.buf (s.inode sb n) (p / BSIZE) := by rw [blk, href, blk]
  rw [content, hblk]
  by_cases h0 : blk s.buf (s.inode sb n) (p / BSIZE) = 0
  · rw [content, if_pos h0] at hv
    rw [if_pos h0, hv]
  · rw [if_neg h0]
    exact ht _ _ _ (hbyte h0)

end Held

/-- Every block of a file that is not in the log is as on disk. -/
def Settled (s : Store) (ip : Inode) : Prop :=
  ∀ k, ref s.buf ip k ≠ 0 → ref s.buf ip k ∉ s.log → s.buf (ref s.buf ip k) = s.disk (ref s.buf ip k)

/-- How many bytes `writei`, which returns `tot`, has copied into the block at which it broke off, if it got one. -/
def brokenOff (src : Memory) (va off len tot : ℕ) (buf : ℕ → Block) (ip' : Inode) : ℕ :=
  if blk buf ip' ((off + tot) / BSIZE) = 0 then 0 else src.span (va + tot) (chunk (off + tot) (len - tot))

/-- A block that is not in the log after the write is an old one. -/
theorem Wrote.old_of_notMem {t c k : ℕ} (h : Wrote sb s (s.inode sb) n src va off len t c ip' s') (hn : Live sb (s.inode sb) n)
    (hset : Settled s (s.inode sb n)) (h0 : ref s'.buf ip' k ≠ 0) (hlog : ref s'.buf ip' k ∉ s'.log) :
    ref s'.buf ip' k = ref s.buf (s.inode sb n) k ∧ s'.disk (ref s'.buf ip' k) = s.buf (ref s'.buf ip' k) := by
  have hsame : ref s'.buf ip' k = ref s.buf (s.inode sb n) k := by
    by_contra hne
    have hf := h.fresh (n, k)
    rw [refs_of_live (h.live.mpr hn), refs_of_live hn, update_self] at hf
    exact hlog (hf hne)
  have hdisk : s'.disk = s.disk := by rw [h.logged.eq]
  refine ⟨hsame, ?_⟩
  rw [hsame] at h0 hlog ⊢
  rw [hdisk, hset k h0 fun hmem => hlog (h.logged.log hmem)]

/-- User memory of which page 0 can be used, all nines. -/
def onePage : Memory := ⟨true, fun q => q = 0, fun _ => 9⟩

end Xv6Mlfq.Vol
