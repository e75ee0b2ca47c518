import Xv6Mlfq.Fs.Dinode

/-!
# Xv6Mlfq.Fs.WriteLoop — the loop of `writei`

`Wrote` says what the loop has done when it ends: `t` bytes have been written, and `c` more bytes of a block that it did not finish, as
a copy from user memory may fail in the middle of a block.  `Wrote.append` puts rounds together, `Ends.writeLoop` is the loop.
-/

namespace Xv6Mlfq.Vol

open Bytes Function Refs
open Files (BSIZE NDIRECT NINDIRECT MAXFILE)

variable {sb : Superblock} {s s' s'' : Store} {x n m bn p va off left t c fuel len l : ℕ} {data : Block}
  {bs : List UInt8} {ip' ip'' : Inode} {ino : ℕ → Inode} {src : Memory}

/-! ## User copies -/

theorem copied_le (reach : ℕ → Bool) (fuel va len : ℕ) : copied reach fuel va len ≤ len := by
  induction fuel generalizing va len with
  | zero => exact Nat.zero_le _
  | succ fuel ih =>
    unfold copied
    split_ifs with h0 hr
    · exact Nat.zero_le _
    · have := ih ((va / PGSIZE + 1) * PGSIZE) (len - min (PGSIZE - va % PGSIZE) len)
      dsimp only
      omega
    · exact Nat.zero_le _

theorem Memory.span_le (src : Memory) (va len : ℕ) : src.span va len ≤ len := by
  unfold span
  split_ifs
  · exact copied_le ..
  · exact le_rfl

theorem copied_eq {reach : ℕ → Bool} (hfuel : len ≤ fuel)
    (hr : ∀ q, va / PGSIZE ≤ q → q * PGSIZE < va + len → reach q = true) : copied reach fuel va len = len := by
  induction fuel generalizing va len with
  | zero =>
    have : copied reach 0 va len = 0 := rfl
    omega
  | succ fuel ih =>
    unfold copied
    by_cases h0 : len = 0
    · rw [if_pos h0, h0]
    · have hpage : reach (va / PGSIZE) = true := hr _ le_rfl (by simp only [PGSIZE]; omega)
      have hrest : copied reach fuel ((va / PGSIZE + 1) * PGSIZE) (len - min (PGSIZE - va % PGSIZE) len) =
          len - min (PGSIZE - va % PGSIZE) len := by
        refine ih (by simp only [PGSIZE]; omega) fun q hq hlt => ?_
        simp only [PGSIZE] at hr hq hlt
        exact hr q (by omega) (by omega)
      rw [if_neg h0, if_pos hpage]
      dsimp only
      omega

/-- The pages of `len` bytes from `va` on can be used. -/
def Memory.Reachable (src : Memory) (va len : ℕ) : Prop :=
  src.user = true → ∀ q, va / PGSIZE ≤ q → q * PGSIZE < va + len → src.reach q = true

theorem Memory.Reachable.span_eq {va' : ℕ} (h : src.Reachable va len) (hva : va ≤ va') (hl : va' + l ≤ va + len) :
    src.span va' l = l := by
  unfold span
  split_ifs with hu
  · exact copied_eq le_rfl fun q hq hlt => h hu q ((Nat.div_le_div_right hva).trans hq) (by omega)
  · rfl

/-! ## Positions in blocks -/

section Positions

variable {l : ℕ}

theorem div_of_inside (hl : off % BSIZE + l ≤ BSIZE) (hp : off ≤ p ∧ p < off + l) : p / BSIZE = off / BSIZE := by
  simp only [BSIZE] at *
  omega

theorem mod_of_inside (hblk : p / BSIZE = off / BSIZE) (hp : off ≤ p) : p % BSIZE = off % BSIZE + (p - off) := by
  simp only [BSIZE] at *
  omega

theorem mod_of_outside (hblk : p / BSIZE = off / BSIZE) (hp : ¬ (off ≤ p ∧ p < off + l)) :
    p % BSIZE < off % BSIZE ∨ off % BSIZE + l ≤ p % BSIZE := by
  simp only [BSIZE] at *
  omega

/-- How much of a block the next round of a loop is about. -/
def chunk (off left : ℕ) : ℕ := min left (BSIZE - off % BSIZE)

theorem chunk_pos (off : ℕ) (h : left ≠ 0) : 0 < chunk off left := by
  simp only [chunk, BSIZE]
  omega

theorem chunk_le : chunk off left ≤ left := Nat.min_le_left ..

theorem chunk_fits : off % BSIZE + chunk off left ≤ BSIZE := by
  simp only [chunk, BSIZE]
  omega

end Positions

/-! ## A block of a file is written -/

section Fill

variable {ok : ℕ → Prop} (h : Sep ok (refs sb s.buf ino)) (hn : Live sb ino n)

include h hn

/-- The indirect blocks are as they were. -/
theorem ref_fillData (hm : Live sb ino m) : ref (s.fill (blk s.buf (ino n) bn) data).buf (ino m) = ref s.buf (ino m) := by
  refine ref_congr rfl fun hind => ?_
  rw [← ref_indirect s.buf] at hind ⊢
  refine Store.buf_fill_of_ne fun he => ?_
  exact key_ne bn (ref_inj h hm hn he hind).2.symm

theorem refs_fillData : refs sb (s.fill (blk s.buf (ino n) bn) data).buf ino = refs sb s.buf ino :=
  refs_congr (fun _ => Iff.rfl) fun _ hm => ref_fillData h hn hm

theorem content_fillData_of_ne (hm : Live sb ino m) (hmn : m ≠ n) :
    content (s.fill (blk s.buf (ino n) bn) data).buf (ino m) = content s.buf (ino m) := by
  have hblk : ∀ q, blk (s.fill (blk s.buf (ino n) bn) data).buf (ino m) q = blk s.buf (ino m) q := by
    intro q
    rw [blk, ref_fillData h hn hm, blk]
  refine content_eq (fun q hq => ⟨hblk q, Store.buf_fill_of_ne fun he => hmn (ref_inj h hm hn he hq).1⟩) fun q hq hq' => ?_
  rw [hblk] at hq'
  exact absurd hq hq'

variable (h0 : blk s.buf (ino n) bn ≠ 0)

include h0

theorem content_fillData (p : ℕ) : content (s.fill (blk s.buf (ino n) bn) data).buf (ino n) p =
    if p / BSIZE = bn then data (p % BSIZE) else content s.buf (ino n) p := by
  have hblk : ∀ q, blk (s.fill (blk s.buf (ino n) bn) data).buf (ino n) q = blk s.buf (ino n) q := by
    intro q
    rw [blk, ref_fillData h hn hn, blk]
  unfold content
  rw [hblk]
  by_cases hp : p / BSIZE = bn
  · rw [if_pos hp, hp, if_neg h0, Store.buf_fill_self]
  · rw [if_neg hp]
    split_ifs with hz
    · rfl
    · rw [Store.buf_fill_of_ne]
      intro he
      have := (ref_inj h hn hn he hz).2
      unfold key at this
      split_ifs at this <;> omega

end Fill

theorem Sound.fillData (h : Sound sb s ino) (hn : Live sb ino n) (h0 : blk s.buf (ino n) bn ≠ 0) :
    Sound sb (s.fill (blk s.buf (ino n) bn) data) ino := by
  have ht := h.taken hn h0
  have hused : ∀ x < sb.size, (s.fill (blk s.buf (ino n) bn) data).used sb x = s.used sb x :=
    fun x hx => Store.used_fill_of_ne (ht.1.bblock_ne hx)
  refine ⟨fun x hx hd => ?_, ?_⟩
  · rw [hused x hx]
    exact h.system x hx hd
  · rw [refs_fillData h.sep hn]
    exact h.sep.mono fun b hb => ⟨hb.1, by rw [hused b hb.1.2]; exact hb.2⟩

/-- Bytes written into a block of a file. -/
theorem content_splice {ok : ℕ → Prop} (h : Sep ok (refs sb s.buf ino)) (hn : Live sb ino n) (h0 : blk s.buf (ino n) (off / BSIZE) ≠ 0)
    (hlen : off % BSIZE + bs.length ≤ BSIZE) (p : ℕ) :
    content (s.fill (blk s.buf (ino n) (off / BSIZE)) (splice (s.buf (blk s.buf (ino n) (off / BSIZE))) (off % BSIZE) bs)).buf
      (ino n) p = if off ≤ p ∧ p < off + bs.length then bs.getD (p - off) 0 else content s.buf (ino n) p := by
  rw [content_fillData h hn h0]
  by_cases hp : p / BSIZE = off / BSIZE
  · rw [if_pos hp]
    have hcont : content s.buf (ino n) p = s.buf (blk s.buf (ino n) (off / BSIZE)) (p % BSIZE) := by
      rw [content, hp, if_neg h0]
    by_cases hin : off ≤ p ∧ p < off + bs.length
    · rw [if_pos hin, mod_of_inside hp hin.1, splice_inside (by omega)]
    · rw [if_neg hin, hcont, splice_outside (mod_of_outside hp hin)]
  · rw [if_neg hp, if_neg fun hin => hp (div_of_inside hlen hin)]

/-! ## The loop -/

/-- What the loop of `writei` has done: `t` bytes have been written, and `c` bytes of a block at which it broke off, which need not be in
the log. -/
structure Wrote (sb : Superblock) (s : Store) (ino : ℕ → Inode) (n : ℕ) (src : Memory) (va off left t c : ℕ) (ip' : Inode) (s' : Store) :
    Prop extends Kept sb {x | t < left ∧ x = blk s'.buf ip' ((off + t) / BSIZE)} s ino s' (update ino n ip') where
  le : t + c ≤ left
  bytes : ∀ p, content s'.buf ip' p = if off ≤ p ∧ p < off + (t + c) then src.data (va + (p - off)) else content s.buf (ino n) p
  others : ∀ m, Live sb ino m → m ≠ n → content s'.buf (ino m) = content s.buf (ino m)
  mapped : ∀ p, off ≤ p → p < off + t → blk s'.buf ip' (p / BSIZE) ≠ 0
  -- where it ended, and why: no block, or a copy that failed
  aligned : t < left → t = 0 ∨ (off + t) % BSIZE = 0
  stop : t < left → if blk s'.buf ip' ((off + t) / BSIZE) = 0 then c = 0 ∧ Full sb s'
    else c = src.span (va + t) (chunk (off + t) (left - t)) ∧ c < chunk (off + t) (left - t)
  exhausted : Exhausted sb s (ino n) (off / BSIZE) → t = 0
  zero : t = 0 → left = 0 ∨ Exhausted sb s (ino n) (off / BSIZE) ∨ src.span va (chunk off left) < chunk off left

theorem Wrote.withAddrs (h : Wrote sb s ino n src va off left t c ip' s') : ip' = (ino n).withAddrs ip'.addrs := by
  have hf := h.fields n
  rwa [update_self] at hf

/-- A block of the file stays. -/
theorem Wrote.keep_blk (h : Wrote sb s ino n src va off left t c ip' s') (hn : Live sb ino n) (h0 : blk s.buf (ino n) bn ≠ 0) :
    blk s'.buf ip' bn = blk s.buf (ino n) bn := by
  have hk := h.keep (n, key bn)
  rw [refs_of_live hn, refs_of_live (h.live.mpr hn), update_self] at hk
  exact hk h0

theorem Wrote.nil (h : Sound sb s ino) : Wrote sb s ino n src va off 0 0 0 (ino n) s where
  toKept := by
    rw [update_eq_self]
    exact .refl h
  le := le_rfl
  bytes := fun p => by rw [if_neg (by omega)]
  others := fun _ _ _ => rfl
  mapped := fun p hp hlt => by omega
  aligned := fun _ => .inl rfl
  stop := fun hlt => absurd hlt (lt_irrefl _)
  exhausted := fun _ => rfl
  zero := fun _ => .inl rfl

/-- A round that finds no block. -/
theorem Mapped.wrote_full (h : Mapped sb s ino n (off / BSIZE) 0 ip' s') (hn : Live sb ino n) :
    Wrote sb s ino n src va off left 0 0 ip' s' where
  toKept := h.grow.toKept.trans (.refl h.grow.sound) (Set.empty_subset _)
  le := Nat.zero_le _
  bytes := by
    intro p
    have hb := h.grow.bytes n hn
    rw [update_self] at hb
    rw [hb, if_neg (by omega)]
  others := by
    intro m hm hmn
    have hb := h.grow.bytes m hm
    rwa [update_of_ne hmn] at hb
  mapped := fun p hp hlt => by omega
  aligned := fun _ => .inl rfl
  stop := by
    intro _
    rw [Nat.add_zero, if_pos h.eq.symm]
    exact ⟨rfl, h.full rfl⟩
  exhausted := fun _ => rfl
  zero := fun _ => .inr (.inl (h.exhausted.mp rfl))

theorem Store.used_congr (h : s'.buf = s.buf) : s'.used sb = s.used sb := by
  funext x
  rw [used, used, h]

theorem Sound.congr (h : Sound sb s ino) (hbuf : s'.buf = s.buf) : Sound sb s' ino := by
  have hused : s'.used sb = s.used sb := Store.used_congr hbuf
  refine ⟨fun x hx hd => by rw [hused]; exact h.system x hx hd, ?_⟩
  rw [hbuf]
  exact h.sep.mono fun b hb => ⟨hb.1, by rw [hused]; exact hb.2⟩

/-- The buffer of a block of file `n` is filled. -/
theorem Kept.fillData {E : Set ℕ} (h : Sound sb s ino) (hn : Live sb ino n) (h0 : blk s.buf (ino n) bn ≠ 0)
    (hs : s' = { s with buf := s'.buf, log := s'.log }) (hbuf : s'.buf = (s.fill (blk s.buf (ino n) bn) data).buf)
    (hsub : s.log ⊆ s'.log)
    (hlog : blk s.buf (ino n) bn ∈ s'.log ∨ blk s.buf (ino n) bn ∈ E) : Kept sb E s ino s' ino := by
  have ht : Taken sb s (blk s.buf (ino n) bn) := h.taken hn h0
  have hrefs : refs sb s'.buf ino = refs sb s.buf ino := by rw [hbuf, refs_fillData h.sep hn]
  refine ⟨(h.fillData hn h0).congr hbuf, fun r _ => by rw [hrefs], fun r hr => absurd (by rw [hrefs]) hr, fun _ => rfl, fun _ => id,
    fun x hx hu => ?_, fun m hm => ?_, ⟨hs, hsub, fun x hx hE => ?_⟩⟩
  · rw [Store.used_congr hbuf, Store.used_fill_of_ne (ht.1.bblock_ne hx)]
    exact hu
  · rw [hbuf, Store.buf_fill_of_ne (ht.1.iblock_ne hm)]
  · rw [hbuf]
    refine Store.buf_fill_of_ne ?_
    rintro rfl
    exact hlog.elim hx hE

/-- A round that finds a block and copies `l` bytes into it. -/
theorem Mapped.wrote_block {addr : ℕ} (h : Mapped sb s ino n (off / BSIZE) addr ip' s') (hn : Live sb ino n) (h0 : addr ≠ 0)
    (hl : l ≤ chunk off left) (htc : t + c = l)
    (hs : s'' = { s' with buf := s''.buf, log := s''.log })
    (hbuf : s''.buf = (s'.fill addr (splice (s'.buf addr) (off % BSIZE) (slice src.data va l))).buf)
    (hsub : s'.log ⊆ s''.log) (hstop : t = left ∧ addr ∈ s''.log ∨ t = 0 ∧ c = src.span va (chunk off left) ∧ c < chunk off left) :
    Wrote sb s ino n src va off left t c ip' s'' := by
  have hn' : Live sb (update ino n ip') n := h.grow.live.mpr hn
  have hself : update ino n ip' n = ip' := update_self ..
  have haddr : addr = blk s'.buf (update ino n ip' n) (off / BSIZE) := by rw [hself]; exact h.eq
  have hb0 : blk s'.buf (update ino n ip' n) (off / BSIZE) ≠ 0 := haddr ▸ h0
  have hlen : off % BSIZE + (slice src.data va l).length ≤ BSIZE := by
    rw [length_slice]
    exact (Nat.add_le_add_left hl _).trans chunk_fits
  subst haddr
  have hblk : blk s''.buf ip' (off / BSIZE) = blk s'.buf (update ino n ip' n) (off / BSIZE) := by
    have href : ref s''.buf (update ino n ip' n) = ref s'.buf (update ino n ip' n) := by
      rw [hbuf]
      exact ref_fillData h.grow.sound.sep hn' hn'
    have hkey := congrFun href (key (off / BSIZE))
    rw [hself] at hkey ⊢
    exact hkey
  refine ⟨h.grow.toKept.trans (Kept.fillData h.grow.sound hn' hb0 hs hbuf hsub ?_) (Set.empty_subset _), ?_, fun p => ?_,
    fun m hm hmn => ?_, fun p hp hlt => ?_, fun hlt => ?_, fun hlt => ?_, fun hex => absurd (h.exhausted.mpr hex) h0, fun ht => ?_⟩
  · rcases hstop with ⟨-, hmem⟩ | ⟨rfl, hc, hlt⟩
    · exact .inl hmem
    · refine .inr ⟨?_, ?_⟩
      · exact lt_of_le_of_lt (Nat.zero_le _) (hlt.trans_le chunk_le)
      · rw [Nat.add_zero, hblk]
  · exact htc ▸ hl.trans chunk_le
  · have hcont := content_splice h.grow.sound.sep hn' hb0 hlen p
    have hold := h.grow.bytes n hn
    rw [hself] at hcont hold
    rw [hbuf, hself, hcont, length_slice, htc, hold]
    split_ifs with hin
    · rw [getD_slice (by omega)]
    · rfl
  · have hold := h.grow.bytes m hm
    rw [hbuf, ← hold]
    have hm' : Live sb (update ino n ip') m := h.grow.live.mpr hm
    rw [← update_of_ne hmn ip' ino]
    exact content_fillData_of_ne h.grow.sound.sep hn' hm' hmn
  · -- the bytes written are all in this block
    have hdiv : p / BSIZE = off / BSIZE := div_of_inside (l := l) (by rwa [length_slice] at hlen) ⟨hp, by omega⟩
    rw [hdiv, hblk]
    exact hb0
  · exact hstop.elim (fun ht => absurd hlt (by omega)) fun ht => .inl ht.1
  · rcases hstop with ⟨ht, -⟩ | ⟨rfl, ht⟩
    · omega
    · rw [Nat.add_zero, if_neg (by rw [hblk]; exact hb0)]
      exact ht
  · rcases hstop with ⟨ht', -⟩ | ⟨-, hc, hlt⟩
    · exact .inl (ht'.symm.trans ht)
    · exact .inr (.inr (hc ▸ hlt))

/-- Rounds, and then more rounds. -/
theorem Wrote.append {t' c' : ℕ} (h : Wrote sb s ino n src va off m m 0 ip' s') (hn : Live sb ino n) (hm : m = chunk off (m + l))
    (h' : Wrote sb s' (update ino n ip') n src (va + m) (off + m) l t' c' ip'' s'') :
    Wrote sb s ino n src va off (m + l) (m + t') c' ip'' s'' := by
  have hn' : Live sb (update ino n ip') n := h.live.mpr hn
  have hself : update ino n ip' n = ip' := update_self ..
  have hidem : update (update ino n ip') n ip'' = update ino n ip'' := update_idem ..
  have hbytes := h'.bytes
  have hkept := h'.toKept
  rw [hself] at hbytes
  rw [hidem] at hkept
  have e1 : va + (m + t') = va + m + t' := by omega
  have e2 : off + (m + t') = off + m + t' := by omega
  have e3 : m + l - (m + t') = l - t' := by omega
  have hkept' : Kept sb {x | m + t' < m + l ∧ x = blk s''.buf ip'' ((off + (m + t')) / BSIZE)} s' (update ino n ip') s''
      (update ino n ip'') := by
    rw [e2]
    simpa only [Nat.add_lt_add_iff_left] using hkept
  refine ⟨h.toKept.trans hkept' fun x hx => absurd hx.1 (lt_irrefl _), ?_, fun p => ?_, fun q hq hqn => ?_, fun p hp hlt => ?_,
    fun hlt => .inr ?_, fun hlt => ?_, fun hex => ?_, fun ht => ?_⟩
  · have := h'.le
    omega
  · rw [hbytes p, h.bytes p]
    by_cases h1 : off + m ≤ p ∧ p < off + m + (t' + c')
    · have hva : va + m + (p - (off + m)) = va + (p - off) := by omega
      rw [if_pos h1, if_pos (by omega), hva]
    · rw [if_neg h1]
      by_cases h2 : off ≤ p ∧ p < off + (m + 0)
      · rw [if_pos h2, if_pos (by omega)]
      · rw [if_neg h2, if_neg (by omega)]
  · have hq' := h'.others q (h.live.mpr hq) hqn
    rw [update_of_ne hqn] at hq'
    exact hq'.trans (h.others q hq hqn)
  · by_cases hpm : p < off + m
    · -- mapped before, and blocks are kept
      have hb := h.mapped p hp hpm
      rw [h'.keep_blk hn' (by rwa [hself]), hself]
      exact hb
    · exact h'.mapped p (by omega) (by omega)
  · -- a round that is not the last ends at the end of a block
    have hend : (off + m) % BSIZE = 0 := by
      simp only [chunk, BSIZE] at *
      omega
    rw [← Nat.add_assoc]
    rcases h'.aligned (by omega) with ht | ht
    · rwa [ht, Nat.add_zero]
    · exact ht
  · rw [e1, e2, e3]
    exact h'.stop (by omega)
  · -- a first round that writes nothing is the last
    have h0 := h.exhausted hex
    have hle := h'.le
    have hl : m + l = 0 := by
      by_contra hne
      have := chunk_pos off hne
      omega
    omega
  · left
    by_contra hne
    have := chunk_pos off hne
    omega

/-- **The loop of `writei`.** -/
theorem Ends.writeLoop {tot : ℕ} (h : Sound sb s ino) (hn : Live sb ino n) (hfuel : left ≤ fuel)
    (hmax : off + left ≤ MAXFILE * BSIZE) :
    Ends sb.act (writeLoop sb src fuel (ino n) va off left tot) s fun r s' =>
      ∃ t c, r.1 = tot + t ∧ Wrote sb s ino n src va off left t c r.2 s' := by
  induction fuel generalizing s ino va off left tot with
  | zero =>
    obtain rfl : left = 0 := by omega
    exact Ends.pure ⟨0, 0, rfl, .nil h⟩
  | succ fuel ih =>
    unfold Vol.writeLoop
    by_cases hleft : left = 0
    · rw [if_pos hleft, hleft]
      exact Ends.pure ⟨0, 0, rfl, .nil h⟩
    rw [if_neg hleft]
    have hbn : off / BSIZE < MAXFILE := by
      rw [Nat.div_lt_iff_lt_mul (by decide)]
      omega
    refine Ends.bind ((Ends.bmap h hn hbn).mono ?_)
    rintro ⟨addr, ip'⟩ s1 hm
    dsimp only at hm ⊢
    by_cases h0 : addr = 0
    · rw [if_pos h0]
      rw [h0] at hm
      exact Ends.pure ⟨0, 0, rfl, hm.wrote_full hn⟩
    rw [if_neg h0]
    refine Ends.bind (Ends.op rfl (Ends.bind (Ends.op rfl ?_)))
    change Ends sb.act (if src.span va (chunk off left) < chunk off left then _ else _) _ _
    by_cases hspan : src.span va (chunk off left) < chunk off left
    · rw [if_pos hspan]
      refine Ends.pure ⟨0, src.span va (chunk off left), rfl, ?_⟩
      exact hm.wrote_block hn h0 hspan.le (Nat.zero_add _) rfl rfl subset_rfl (.inr ⟨rfl, rfl, hspan⟩)
    · have hfull : src.span va (chunk off left) = chunk off left := le_antisymm (src.span_le ..) (not_lt.mp hspan)
      have hsum : chunk off left + (left - chunk off left) = left := Nat.add_sub_of_le chunk_le
      rw [if_neg hspan]
      refine Ends.bind (Ends.op rfl ?_)
      have hchunk : chunk off (chunk off left) = chunk off left := by
        simp only [chunk]
        omega
      have hw : Wrote sb s ino n src va off (chunk off left) (chunk off left) 0 ip'
          ((s1.fill addr (splice (s1.buf addr) (off % BSIZE) (slice src.data va (src.span va (chunk off left))))).logWrite addr) :=
        hm.wrote_block hn h0 (by rw [hchunk]) (Nat.add_zero _) rfl (by rw [hfull]; rfl) (Finset.subset_insert ..)
          (.inl ⟨rfl, Finset.mem_insert_self ..⟩)
      have hpos : 0 < chunk off left := chunk_pos off hleft
      have hself : update ino n ip' n = ip' := update_self ..
      change Ends sb.act (Vol.writeLoop sb src fuel ip' (va + chunk off left) (off + chunk off left) (left - chunk off left)
        (tot + chunk off left)) _ _
      rw [← hself]
      refine (ih hw.sound (hw.live.mpr hn) (by omega) (by omega)).mono ?_
      rintro r s2 ⟨t, c, htot, hw'⟩
      refine ⟨chunk off left + t, c, by omega, ?_⟩
      have happ := hw.append hn (by rw [hsum]) hw'
      rwa [hsum] at happ

end Xv6Mlfq.Vol
