import Xv6Mlfq.Fs.WriteLoop

/-!
# Xv6Mlfq.Fs.ReadWrite — files are byte arrays

`readi` returns the bytes of a file and writes nothing to the log (`Ends.readi`), also for `fileread`, which is not in a transaction;
`writei` replaces bytes (`Written`).  A read in a hole takes a block (`Ends.fileread_hole`).
-/

namespace Xv6Mlfq.Vol

open Bytes Function
open Files (BSIZE NDIRECT NINDIRECT MAXFILE)

variable {sb : Superblock} {s s' s'' : Store} {n m va off len tot addr b : ℕ} {ip ip' : Inode}
  {ino : ℕ → Inode} {src dst : Memory} {ex : Exec}

/-- Every block below the size of a file is there. -/
def NoHoles (buf : ℕ → Block) (ip : Inode) : Prop := ∀ p < ip.size, blk buf ip (p / BSIZE) ≠ 0

theorem NoHoles.size_le {buf : ℕ → Block} (h : NoHoles buf ip) : ip.size ≤ MAXFILE * BSIZE := by
  by_contra hlt
  refine h (MAXFILE * BSIZE) (not_le.mp hlt) (blk_of_ge ?_)
  rw [Nat.mul_div_cancel _ (by decide)]

/-! ## Reading -/

theorem slice_content {buf : ℕ → Block} {l : ℕ} (h0 : blk buf ip (off / BSIZE) ≠ 0) (hl : off % BSIZE + l ≤ BSIZE) :
    slice (buf (blk buf ip (off / BSIZE))) (off % BSIZE) l = slice (content buf ip) off l := by
  refine slice_congr fun i hi => ?_
  have hin : off ≤ off + i ∧ off + i < off + l := ⟨Nat.le_add_right .., by omega⟩
  have hdiv := div_of_inside hl hin
  rw [content, hdiv, if_neg h0, mod_of_inside hdiv hin.1, Nat.add_sub_cancel_left]

/-- **The loop of `readi`** on blocks that are there: nothing changes, also if a copy fails. -/
theorem Ends.readLoop {fuel left : ℕ} {acc : List UInt8} (hq : Quiet sb ex) (hfuel : left ≤ fuel)
    (hblk : ∀ p, off ≤ p → p < off + left → blk s.buf ip (p / BSIZE) ≠ 0) :
    Ends ex (readLoop sb dst fuel ip va off left acc) s fun r s' => r.2 = ip ∧ s' = s ∧
      (dst.Reachable va left → r.1 = some (acc ++ slice (content s.buf ip) off left)) := by
  induction fuel generalizing va off left acc with
  | zero =>
    obtain rfl : left = 0 := by omega
    exact Ends.pure ⟨rfl, rfl, fun _ => by simp [slice]⟩
  | succ fuel ih =>
    unfold Vol.readLoop
    by_cases hleft : left = 0
    · rw [if_pos hleft, hleft]
      exact Ends.pure ⟨rfl, rfl, fun _ => by simp [slice]⟩
    rw [if_neg hleft]
    have h0 : blk s.buf ip (off / BSIZE) ≠ 0 := hblk off le_rfl (by omega)
    refine Ends.bind (Ends.bmap_of_ne hq h0 ?_)
    dsimp only
    rw [if_neg h0]
    refine Ends.bind (Ends.op (hq rfl rfl) ?_)
    change Ends ex (if dst.span va (chunk off left) < chunk off left then _ else _) _ _
    have hle : chunk off left ≤ left := chunk_le
    by_cases hspan : dst.span va (chunk off left) < chunk off left
    · -- a copy fails
      rw [if_pos hspan]
      refine Ends.pure ⟨rfl, rfl, fun hdst => ?_⟩
      rw [hdst.span_eq le_rfl (by omega)] at hspan
      exact absurd hspan (lt_irrefl _)
    rw [if_neg hspan]
    have hpos : 0 < chunk off left := chunk_pos off hleft
    change Ends ex (Vol.readLoop sb dst fuel ip (va + chunk off left) (off + chunk off left) (left - chunk off left)
      (acc ++ slice (s.buf (blk s.buf ip (off / BSIZE))) (off % BSIZE) (chunk off left))) s _
    rw [slice_content h0 chunk_fits]
    refine (ih (by omega) fun p hp hlt => hblk p (by omega) (by omega)).mono ?_
    rintro r s' ⟨hip, hs, hbytes⟩
    refine ⟨hip, hs, fun hdst => ?_⟩
    rw [hbytes fun hu q hq hlt => hdst hu q ((Nat.div_le_div_right (Nat.le_add_right ..)).trans hq) (by omega), List.append_assoc,
      ← slice_add, Nat.add_sub_of_le hle]

/-- What `readi` returns. -/
def readBytes (buf : ℕ → Block) (ip : Inode) (off len : ℕ) : List UInt8 :=
  if ip.size < off ∨ 2 ^ 32 ≤ off + len then [] else slice (content buf ip) off (min (off + len) ip.size - off)

theorem wraps_iff (hoff : off < 2 ^ 32) (hlen : len < 2 ^ 32) : (off + len) % 2 ^ 32 < off ↔ 2 ^ 32 ≤ off + len := by
  omega

/-- **`readi`** of blocks that are there -/
theorem Ends.readi (hq : Quiet sb ex) (hblk : ∀ p, off ≤ p → p < off + len → p < ip.size → blk s.buf ip (p / BSIZE) ≠ 0)
    (hoff : off < 2 ^ 32) (hlen : len < 2 ^ 32) :
    Ends ex (readi sb ip dst va off len) s fun r s' => r.2 = ip ∧ s' = s ∧
      (dst.Reachable va len → r.1 = some (readBytes s.buf ip off len)) := by
  unfold Vol.readi readBytes
  simp only [wraps_iff hoff hlen]
  by_cases hbad : ip.size < off ∨ 2 ^ 32 ≤ off + len
  · rw [if_pos hbad, if_pos hbad]
    exact Ends.pure ⟨rfl, rfl, fun _ => rfl⟩
  · rw [if_neg hbad, if_neg hbad]
    have hcount : (if ip.size < off + len then ip.size - off else len) = min (off + len) ip.size - off := by
      split_ifs <;> omega
    rw [hcount]
    refine (Ends.readLoop hq le_rfl fun p hp hlt => hblk p hp (by omega) (by omega)).mono ?_
    rintro r s' ⟨hip, hs, hbytes⟩
    exact ⟨hip, hs, fun hdst => hbytes fun hu q hq hlt => hdst hu q hq (by omega)⟩

/-! ## Writing -/

/-- `writei` returns -1. -/
def Rejected (ip : Inode) (off len : ℕ) : Prop := ip.size < off ∨ 2 ^ 32 ≤ off + len ∨ MAXFILE * BSIZE < off + len

/-- `if(off > ip->size) ip->size = off` -/
def Inode.grown (ip : Inode) (off : ℕ) : Inode := if ip.size < off then { ip with size := off } else ip

theorem Inode.size_grown : (ip.grown off).size = max ip.size off := by
  unfold grown
  split_ifs with h
  · exact (Nat.max_eq_right h.le).symm
  · exact (Nat.max_eq_left (not_lt.mp h)).symm

theorem Inode.addrs_grown : (ip.grown off).addrs = ip.addrs := by
  unfold grown
  split_ifs <;> rfl

theorem Inode.type_grown : (ip.grown off).type = ip.type := by
  unfold grown
  split_ifs <;> rfl

theorem Inode.Fits.grown (h : ip.Fits) (hoff : off < 2 ^ 32) : (ip.grown off).Fits := by
  unfold Inode.grown
  split_ifs
  · exact ⟨h.type, h.major, h.minor, h.nlink, hoff, h.addrs, h.beyond⟩
  · exact h

theorem writei_cond (hoff : off < 2 ^ 32) (hlen : len < 2 ^ 32) :
    (ip.size < off ∨ (off + len) % 2 ^ 32 < off ∨ MAXFILE * BSIZE < (off + len) % 2 ^ 32) ↔ Rejected ip off len := by
  unfold Rejected
  simp only [MAXFILE, NDIRECT, NINDIRECT, BSIZE]
  omega

theorem Ends.writei_rejected {Q : Option ℕ × Inode → Store → Prop} (hoff : off < 2 ^ 32) (hlen : len < 2 ^ 32)
    (h : Rejected ip off len) (hQ : Q (none, ip) s) : Ends ex (writei sb n ip src va off len) s Q := by
  unfold Vol.writei
  rw [if_pos ((writei_cond hoff hlen).mpr h)]
  exact Ends.pure hQ

/-- **`writei`**: the loop, and the inode. -/
theorem Ends.writei (h : Sound sb s ino) (hn : Live sb ino n) (hoff : off < 2 ^ 32) (hlen : len < 2 ^ 32)
    (hok : ¬ Rejected (ino n) off len) :
    Ends sb.act (writei sb n (ino n) src va off len) s fun r s' => ∃ t c ip' s1, Wrote sb s ino n src va off len t c ip' s1 ∧
      r = (some t, ip'.grown (off + t)) ∧ s' = s1.iupdate sb n (ip'.grown (off + t)) := by
  unfold Vol.writei
  rw [if_neg fun hc => hok ((writei_cond hoff hlen).mp hc)]
  have hmax : off + len ≤ MAXFILE * BSIZE := by
    by_contra hlt
    exact hok (.inr (.inr (not_le.mp hlt)))
  refine Ends.bind ((Ends.writeLoop h hn le_rfl hmax).mono ?_)
  rintro ⟨tot, ip'⟩ s1 ⟨t, c, htot, hw⟩
  obtain rfl : tot = t := by simpa using htot
  exact Ends.bind (Ends.op rfl (Ends.pure ⟨tot, c, ip', s1, hw, rfl, rfl⟩))

theorem content_congr {buf buf' : ℕ → Block} (haddrs : ip'.addrs = ip.addrs)
    (hind : ip.addrs NDIRECT ≠ 0 → buf' (ip.addrs NDIRECT) = buf (ip.addrs NDIRECT))
    (hbuf : ∀ bn, blk buf ip bn ≠ 0 → buf' (blk buf ip bn) = buf (blk buf ip bn)) :
    content buf' ip' = content buf ip := by
  have hblk : ∀ bn, blk buf' ip' bn = blk buf ip bn := fun bn => by rw [blk, ref_congr haddrs hind, blk]
  refine content_eq (fun bn h0 => ⟨hblk bn, hbuf bn h0⟩) fun bn h0 h1 => ?_
  rw [hblk] at h1
  exact absurd h0 h1

/-- The inodes of memory, `ino`, are in their blocks but for inode `n`, which `iupdate` is called on: its blocks and its type are those of
memory. -/
structure Saves (sb : Superblock) (s : Store) (ino : ℕ → Inode) (n : ℕ) (d : Inode) : Prop where
  sound : Sound sb s ino
  inum : sb.Inum n
  fits : d.Fits
  others : ∀ m, sb.Inum m → m ≠ n → s.inode sb m = ino m
  addrs : d.addrs = (ino n).addrs
  type : d.type = (ino n).type

section Saves

variable {d : Inode} (h : Saves sb s ino n d)

include h

theorem Saves.inode_self : (s.iupdate sb n d).inode sb n = d := by rw [Store.inode_iupdate h.fits, update_self]

theorem Saves.inode_of_ne (hm : sb.Inum m) (hmn : m ≠ n) : (s.iupdate sb n d).inode sb m = ino m := by
  rw [Store.inode_iupdate h.fits, update_of_ne hmn, h.others m hm hmn]

theorem Saves.live : Live sb ((s.iupdate sb n d).inode sb) m ↔ Live sb ino m := by
  refine and_congr_right fun hm => ?_
  by_cases hmn : m = n
  · rw [hmn, h.inode_self, h.type]
  · rw [h.inode_of_ne hm hmn]

theorem Saves.addrs_eq (hm : sb.Inum m) : ((s.iupdate sb n d).inode sb m).addrs = (ino m).addrs := by
  by_cases hmn : m = n
  · rw [hmn, h.inode_self, h.addrs]
  · rw [h.inode_of_ne hm hmn]

/-- The blocks of files are not those of inodes. -/
theorem Saves.buf {k : ℕ} (hm : Live sb ino m) (h0 : ref s.buf (ino m) k ≠ 0) :
    (s.iupdate sb n d).buf (ref s.buf (ino m) k) = s.buf (ref s.buf (ino m) k) :=
  Store.buf_iupdate_of_data h.inum (h.sound.taken hm h0).1

theorem Saves.indirect (hm : Live sb ino m) (h0 : (ino m).addrs NDIRECT ≠ 0) :
    (s.iupdate sb n d).buf ((ino m).addrs NDIRECT) = s.buf ((ino m).addrs NDIRECT) := by
  rw [← ref_indirect s.buf] at h0 ⊢
  exact h.buf hm h0

theorem Saves.ref (hm : Live sb ino m) : ref (s.iupdate sb n d).buf ((s.iupdate sb n d).inode sb m) = ref s.buf (ino m) :=
  ref_congr (h.addrs_eq hm.1) (h.indirect hm)

theorem Saves.content (hm : Live sb ino m) : content (s.iupdate sb n d).buf ((s.iupdate sb n d).inode sb m) = content s.buf (ino m) :=
  content_congr (h.addrs_eq hm.1) (h.indirect hm) fun _ h0 => h.buf hm h0

theorem Saves.sound_iupdate : Sound sb (s.iupdate sb n d) ((s.iupdate sb n d).inode sb) := by
  refine ⟨fun x hx hd => ?_, ?_⟩
  · rw [Store.used_iupdate h.inum]
    exact h.sound.system x hx hd
  · rw [refs_congr (fun _ => h.live) fun m hm => h.ref hm]
    exact h.sound.sep.mono fun b hb => ⟨hb.1, by rw [Store.used_iupdate h.inum]; exact hb.2⟩

end Saves

/-- What a write of `t` bytes at `off`, and of `c` bytes more, has done; the inodes are those of the inode blocks. -/
structure Written (sb : Superblock) (s : Store) (n : ℕ) (src : Memory) (va off t c : ℕ) (s' : Store) : Prop where
  sound : Sound sb s' (s'.inode sb)
  size : (s'.inode sb n).size = max (s.inode sb n).size (off + t)
  type : (s'.inode sb n).type = (s.inode sb n).type
  bytes : ∀ p, content s'.buf (s'.inode sb n) p =
    if off ≤ p ∧ p < off + (t + c) then src.data (va + (p - off)) else content s.buf (s.inode sb n) p
  others : ∀ m, sb.Inum m → m ≠ n → s'.inode sb m = s.inode sb m
  contents : ∀ m, Live sb (s.inode sb) m → m ≠ n → content s'.buf (s'.inode sb m) = content s.buf (s.inode sb m)
  keep : ∀ bn, blk s.buf (s.inode sb n) bn ≠ 0 → blk s'.buf (s'.inode sb n) bn = blk s.buf (s.inode sb n) bn
  mapped : ∀ p, off ≤ p → p < off + t → blk s'.buf (s'.inode sb n) (p / BSIZE) ≠ 0

section Wrote

variable {t c : ℕ} (h : Wrote sb s (s.inode sb) n src va off len t c ip' s') (hn : Live sb (s.inode sb) n) (hmax : off + t < 2 ^ 32)

include h hn hmax

theorem Wrote.saves : Saves sb s' (update (s.inode sb) n ip') n (ip'.grown (off + t)) where
  sound := h.sound
  inum := hn.1
  fits := by
    have hf := h.fits n (s.fits_inode sb n)
    rw [update_self] at hf
    exact hf.grown hmax
  others := by
    intro m hm hmn
    rw [update_of_ne hmn, Store.inode, Store.inode, h.inode m hm]
  addrs := by rw [update_self, Inode.addrs_grown]
  type := by rw [update_self, Inode.type_grown]

/-- The inode is written to its block. -/
theorem Wrote.written : Written sb s n src va off t c (s'.iupdate sb n (ip'.grown (off + t))) := by
  have hs := h.saves hn hmax
  have hself : update (s.inode sb) n ip' n = ip' := update_self ..
  have hn' : Live sb (update (s.inode sb) n ip') n := h.live.mpr hn
  have href := hs.ref hn'
  have hcontent := hs.content hn'
  rw [hself] at href hcontent
  refine ⟨hs.sound_iupdate, ?_, ?_, fun p => ?_, fun m hm hmn => ?_, fun m hm hmn => ?_, fun bn h0 => ?_, fun p hp hlt => ?_⟩
  · rw [hs.inode_self, Inode.size_grown, h.withAddrs]
    rfl
  · rw [hs.inode_self, Inode.type_grown, h.withAddrs]
    rfl
  · rw [hcontent, h.bytes p]
  · rw [hs.inode_of_ne hm hmn, update_of_ne hmn]
  · rw [hs.content (h.live.mpr hm), update_of_ne hmn, h.others m hm hmn]
  · rw [blk, href]
    exact h.keep_blk hn h0
  · rw [blk, href]
    exact h.mapped p hp hlt

end Wrote

section Written

variable {t t' c : ℕ}

theorem Store.inode_congr (h : s'.buf = s.buf) : s'.inode sb = s.inode sb := by
  funext m
  rw [inode, inode, h]

theorem Written.congr (h : Written sb s n src va off t c s') (hbuf : s''.buf = s'.buf) : Written sb s n src va off t c s'' := by
  have hino : s''.inode sb = s'.inode sb := Store.inode_congr hbuf
  refine ⟨?_, ?_, ?_, ?_, ?_, ?_, ?_, ?_⟩ <;> rw [hino]
  · exact h.sound.congr hbuf
  · exact h.size
  · exact h.type
  · rw [hbuf]
    exact h.bytes
  · exact h.others
  · rw [hbuf]
    exact h.contents
  · rw [hbuf]
    exact h.keep
  · rw [hbuf]
    exact h.mapped

theorem Written.congr_left (h : Written sb s'' n src va off t c s') (hbuf : s''.buf = s.buf) : Written sb s n src va off t c s' := by
  obtain ⟨sound, size, type, bytes, others, contents, keep, mapped⟩ := h
  rw [Store.inode_congr hbuf] at size type bytes others contents keep
  rw [hbuf] at bytes contents keep
  exact ⟨sound, size, type, bytes, others, contents, keep, mapped⟩

theorem Written.live (h : Written sb s n src va off t c s') :
    Live sb (s'.inode sb) m ↔ Live sb (s.inode sb) m := by
  rw [Live, Live]
  refine and_congr_right fun hm => ?_
  by_cases hmn : m = n
  · rw [hmn, h.type]
  · rw [h.others m hm hmn]

theorem Written.refl (h : Sound sb s (s.inode sb)) (hoff : off ≤ (s.inode sb n).size) : Written sb s n src va off 0 0 s :=
  ⟨h, (Nat.max_eq_left hoff).symm, rfl, fun p => by rw [if_neg (by omega)], fun _ _ _ => rfl, fun _ _ _ => rfl, fun _ _ => rfl,
    fun p hp hlt => by omega⟩

theorem Written.append (h : Written sb s n src va off t 0 s') (h' : Written sb s' n src (va + t) (off + t) t' 0 s'') :
    Written sb s n src va off (t + t') 0 s'' where
  sound := h'.sound
  size := by
    rw [h'.size, h.size]
    omega
  type := h'.type.trans h.type
  bytes := by
    intro p
    rw [h'.bytes p, h.bytes p]
    by_cases h₁ : off + t ≤ p ∧ p < off + t + (t' + 0)
    · have hva : va + t + (p - (off + t)) = va + (p - off) := by omega
      rw [if_pos h₁, if_pos (by omega), hva]
    · rw [if_neg h₁]
      by_cases h₂ : off ≤ p ∧ p < off + (t + 0)
      · rw [if_pos h₂, if_pos (by omega)]
      · rw [if_neg h₂, if_neg (by omega)]
  others := fun m hm hmn => (h'.others m hm hmn).trans (h.others m hm hmn)
  contents := fun m hm hmn => (h'.contents m (h.live.mpr hm) hmn).trans (h.contents m hm hmn)
  keep := by
    intro bn h0
    rw [h'.keep bn (by rw [h.keep bn h0]; exact h0), h.keep bn h0]
  mapped := by
    intro p hp hlt
    by_cases hpt : p < off + t
    · have h0 := h.mapped p hp hpt
      rw [h'.keep _ h0]
      exact h0
    · exact h'.mapped p (by omega) (by omega)

/-- No holes come about, as a write begins at most at the end of the file. -/
theorem Written.noHoles (h : Written sb s n src va off t c s') (hole : NoHoles s.buf (s.inode sb n))
    (hoff : off ≤ (s.inode sb n).size) : NoHoles s'.buf (s'.inode sb n) := by
  intro p hp
  rw [h.size] at hp
  by_cases hlt : p < (s.inode sb n).size
  · rw [h.keep _ (hole p hlt)]
    exact hole p hlt
  · exact h.mapped p (by omega) (by omega)

end Written

/-- **`writei`**, if copies do not fail. -/
theorem Ends.writei_written (h : Sound sb s (s.inode sb)) (hn : Live sb (s.inode sb) n) (hoff : off < 2 ^ 32) (hlen : len < 2 ^ 32)
    (hok : ¬ Rejected (s.inode sb n) off len) (hsrc : src.Reachable va len) :
    Ends sb.act (Vol.writei sb n (s.inode sb n) src va off len) s fun r s' => ∃ t ≤ len, (t < len → Full sb s') ∧
      r = (some t, s'.inode sb n) ∧ Written sb s n src va off t 0 s' ∧ s' = { s with buf := s'.buf, log := s'.log } := by
  refine (Ends.writei h hn hoff hlen hok).mono ?_
  rintro r s' ⟨t, c, ip', s1, hw, rfl, rfl⟩
  have hle := hw.le
  have hmax : off + t < 2 ^ 32 := by
    unfold Rejected at hok
    omega
  -- no copy has failed
  have hstop : t < len → c = 0 ∧ Full sb s1 := by
    intro hlt
    have hchunk : chunk (off + t) (len - t) ≤ len - t := chunk_le
    have hend := hw.stop hlt
    split_ifs at hend
    · exact hend
    · rw [hsrc.span_eq (Nat.le_add_right ..) (by omega)] at hend
      omega
  obtain rfl : c = 0 := by
    rcases Nat.lt_or_ge t len with hlt | hge
    · exact (hstop hlt).1
    · omega
  refine ⟨t, by omega, fun hlt x hx => ?_, by rw [(hw.saves hn hmax).inode_self], hw.written hn hmax, ?_⟩
  · rw [Store.used_iupdate hn.1]
    exact (hstop hlt).2 x hx
  · rw [hw.logged.eq]
    rfl

/-! ## `fileread` -/

/-- The copy of an inode in memory is that of the inode block. -/
def Coherent (sb : Superblock) (s : Store) (n : ℕ) : Prop := s.mem n = none ∨ s.mem n = some (s.inode sb n)

theorem Ends.ilock {Q : Inode → Store → Prop} (hq : Quiet sb ex) (href : n ∈ s.itable) (hn : Live sb (s.inode sb) n)
    (hmem : Coherent sb s n) (h : Q (s.inode sb n) (s.setMem n (some (s.inode sb n)))) : Ends ex (Vol.op (.ilock n)) s Q := by
  have hact : sb.act s (.ilock n) = .ok (s.inode sb n, s.setMem n (some (s.inode sb n))) := by
    rcases hmem with hmem | hmem
    · simp only [Superblock.act, if_pos href, hmem, if_neg hn.2]
    · have hsame : s.setMem n (some (s.inode sb n)) = s := by rw [Store.setMem, ← hmem, update_eq_self]
      simp only [hsame, Superblock.act, if_pos href, hmem]
  exact Ends.op (hq hact rfl) h

theorem Coherent.setMem (h : Coherent sb s m) : Coherent sb (s.setMem n (some (s.inode sb n))) m := by
  show update s.mem n (some (s.inode sb n)) m = none ∨ update s.mem n (some (s.inode sb n)) m = some (s.inode sb m)
  by_cases hm : m = n
  · rw [hm, update_self]
    exact .inr rfl
  · rw [update_of_ne hm]
    exact h

/-- **`fileread`** of a file without holes: the inode is in memory, and nothing else changes. -/
theorem Ends.fileread (hq : Quiet sb ex) (href : n ∈ s.itable) (hn : Live sb (s.inode sb) n) (hmem : Coherent sb s n)
    (hole : NoHoles s.buf (s.inode sb n)) (hoff : off < 2 ^ 32) (hlen : len < 2 ^ 32) :
    Ends ex (fileread sb n dst addr off len) s fun _ s' => s' = s.setMem n (some (s.inode sb n)) := by
  refine Ends.bind (Ends.ilock hq href hn hmem ?_)
  refine Ends.bind ((Ends.readi (s := s.setMem n _) hq (fun p _ _ hp => hole p hp) hoff hlen).mono ?_)
  rintro ⟨r, ip⟩ s' ⟨rfl, rfl, -⟩
  refine Ends.bind (Ends.op (hq rfl rfl) (Ends.pure ?_))
  simp only [Store.setMem, update_idem]

/-- A byte in a hole is read: a block is allocated, and the log is written to. -/
theorem Ends.readi_hole (h : Sound sb s ino) (hn : Live sb ino n) (hdir : off / BSIZE < NDIRECT)
    (hole : (ino n).addrs (off / BSIZE) = 0) (hsize : off < (ino n).size) (hoff : off + 1 < 2 ^ 32) (hb : b < sb.size)
    (hfree : s.used sb b = false) :
    Ends sb.act (Vol.readi sb (ino n) dst va off 1) s fun _ s' => s'.log ≠ ∅ := by
  unfold Vol.readi
  rw [if_neg (by omega)]
  dsimp only
  rw [if_neg (by omega)]
  show Ends sb.act (if 1 = 0 then _ else Vol.bmap sb (ino n) (off / BSIZE) >>= _) s _
  rw [if_neg one_ne_zero]
  refine Ends.bind ?_
  unfold Vol.bmap
  rw [if_pos hdir]
  refine Ends.addrAt h hn hdir.le (fun h0 => absurd hole h0) (fun _ hall => absurd hall (not_full hb hfree)) fun x _ hx _ _ => ?_
  have hlog : (s.take sb x).log ≠ ∅ := Finset.insert_ne_empty _ _
  dsimp only
  rw [if_neg hx.pos.ne']
  refine Ends.bind (Ends.op rfl ?_)
  split_ifs
  · exact Ends.pure hlog
  · exact Ends.pure hlog

/-- **A byte in a hole is read by `fileread`**, outside of a transaction: `log_write` panics. -/
theorem fileread_hole (h : Sound sb s (s.inode sb)) (href : n ∈ s.itable) (hn : Live sb (s.inode sb) n)
    (hmem : Coherent sb s n) (hlog : s.log = ∅) (hdir : off / BSIZE < NDIRECT) (hole : (s.inode sb n).addrs (off / BSIZE) = 0)
    (hsize : off < (s.inode sb n).size) (hoff : off + 1 < 2 ^ 32) (hb : b < sb.size) (hfree : s.used sb b = false) :
    (fileread sb n dst addr off 1).eval (Store.exec sb 0) s = .error .outsideOfTrans := by
  have h' : Sound sb (s.setMem n (some (s.inode sb n))) (s.inode sb) := h.congr rfl
  have hends : Ends sb.act (fileread sb n dst addr off 1) s fun _ s' => s'.log ≠ ∅ :=
    Ends.bind (Ends.ilock quiet_act href hn hmem (Ends.bind
      ((Ends.readi_hole h' hn hdir hole hsize hoff hb hfree).mono fun _ _ hlog' => Ends.bind (Ends.op rfl (Ends.pure hlog')))))
  obtain ⟨r, s', he, hlog'⟩ := hends.eval
  exact eval_exec_outside he hlog hlog'

/-! ## A small volume -/

theorem small_inode_lt (n : ℕ) (hn : n < 16) : n / IPB + 2 < 3 := by
  simp only [IPB, BSIZE]
  omega

theorem small_bitmap_lt (b : ℕ) (hb : b < 20) : b / BPB + 3 < 4 := by
  simp only [BPB, BSIZE]
  omega

theorem small_size_lt : 20 < 2 ^ 31 := by decide

/-- Twenty blocks: the inodes in block 2, the bitmap in block 3, data from block 4 on. -/
def smallSb : Superblock where
  size := 20
  ninodes := 16
  inodestart := 2
  bmapstart := 3
  datastart := 4
  inode_lt := small_inode_lt
  bitmap_lt := small_bitmap_lt
  size_lt := small_size_lt

theorem small_inum (h : smallSb.Inum m) : m < 16 := by
  simp only [Superblock.Inum, Superblock.iblock, smallSb, IPB, BSIZE] at h
  omega

/-- Inode 1 is an empty file, inode 2 a file of two blocks, 4 and 5, full of sevens; `bitmap` is the first byte of the bitmap. -/
def small (bitmap : UInt8) : Store :=
  let blocks : ℕ → Block := fun b =>
    if b = 2 then
      putInode (putInode (fun _ => 0) 1 ⟨2, 0, 0, 1, 0, fun _ => 0⟩) 2 ⟨2, 0, 0, 1, 2048, fun i => if i < 2 then 4 + i else 0⟩
    else if b = 3 then fun i => if i = 0 then bitmap else 0
    else if b = 4 ∨ b = 5 then fun _ => 7
    else fun _ => 0
  ⟨blocks, blocks, ∅, [1, 2], fun _ => none⟩

section Small

variable {bitmap : UInt8}

/-- The blocks, types and sizes of the inodes, and the bitmap. -/
theorem small_facts : (∀ m : Fin 16, ∀ i : Fin 13, ((small 0).inode smallSb m).addrs i = if m = 2 ∧ i < 2 then 4 + i.val else 0) ∧
    (((small 0).inode smallSb 1).type = 2 ∧ ((small 0).inode smallSb 2).type = 2) ∧
    (((small 0).inode smallSb 1).size = 0 ∧ ((small 0).inode smallSb 2).size = 2048) ∧ ∀ x : Fin 6, (small 63).used smallSb x = true := by
  decide +kernel

/-- The inodes do not depend on the bitmap. -/
theorem small_inode (hm : m < 16) : (small bitmap).inode smallSb m = (small 0).inode smallSb m := by
  have hblk : smallSb.iblock m = 2 := by
    simp only [Superblock.iblock, smallSb, IPB, BSIZE]
    omega
  rw [Store.inode, Store.inode, hblk]
  rfl

theorem small_addrs (bitmap : UInt8) (m : Fin 16) (i : Fin 13) :
    ((small bitmap).inode smallSb m).addrs i = if m = 2 ∧ i < 2 then 4 + i.val else 0 := by
  rw [small_inode m.isLt]
  exact small_facts.1 m i

/-- The blocks in use are 4 and 5. -/
theorem small_refs (r : ℕ × ℕ) :
    refs smallSb (small bitmap).buf ((small bitmap).inode smallSb) r ≠ 0 →
      r.1 = 2 ∧ r.2 < 2 ∧ refs smallSb (small bitmap).buf ((small bitmap).inode smallSb) r = 4 + r.2 := by
  obtain ⟨m, k⟩ := r
  intro h
  by_cases hm : Live smallSb ((small bitmap).inode smallSb) m
  case neg => exact absurd (refs_of_not_live hm) h
  have haddrs := small_addrs bitmap ⟨m, small_inum hm.1⟩
  have hind : ((small bitmap).inode smallSb m).addrs NDIRECT = 0 := (haddrs 12).trans (if_neg fun hc => absurd hc.2 (by decide))
  rw [refs_of_live hm] at h ⊢
  unfold ref at h ⊢
  by_cases hk : k ≤ NDIRECT
  · have hki := haddrs ⟨k, by simp only [NDIRECT] at hk; omega⟩
    rw [if_pos hk] at h ⊢
    simp only [Fin.ext_iff, Fin.lt_def] at hki
    split_ifs at hki with hc
    · exact ⟨hc.1, hc.2, hki⟩
    · exact absurd hki h
  · rw [if_neg hk, if_pos (.inl hind)] at h
    exact absurd rfl h

theorem small_refs_inj (r r' : ℕ × ℕ) (he : refs smallSb (small bitmap).buf ((small bitmap).inode smallSb) r =
      refs smallSb (small bitmap).buf ((small bitmap).inode smallSb) r')
    (hr : refs smallSb (small bitmap).buf ((small bitmap).inode smallSb) r ≠ 0) : r = r' := by
  obtain ⟨h₁, -, h₂⟩ := small_refs r hr
  obtain ⟨h1', -, h2'⟩ := small_refs r' (he ▸ hr)
  exact Prod.ext (h₁.trans h1'.symm) (by omega)

theorem small_sound : Sound smallSb (small 63) ((small 63).inode smallSb) := by
  refine ⟨fun x hx hd => ?_, fun r hr => ?_, small_refs_inj⟩
  · exact small_facts.2.2.2 ⟨x, hd.trans (by decide)⟩
  · obtain ⟨-, hlt, heq⟩ := small_refs r hr
    rw [heq]
    exact ⟨⟨Nat.le_add_right .., (Nat.add_lt_add_left hlt 4).trans (by decide)⟩, small_facts.2.2.2 ⟨4 + r.2, Nat.add_lt_add_left hlt 4⟩⟩

theorem small_live : Live smallSb ((small bitmap).inode smallSb) 1 ∧ Live smallSb ((small bitmap).inode smallSb) 2 := by
  obtain ⟨h1, h2⟩ := small_facts.2.1
  refine ⟨⟨by decide, ?_⟩, ⟨by decide, ?_⟩⟩
  · rw [small_inode (by decide), h1]
    decide
  · rw [small_inode (by decide), h2]
    decide

theorem small_noHoles : NoHoles (small bitmap).buf ((small bitmap).inode smallSb 1) ∧
    NoHoles (small bitmap).buf ((small bitmap).inode smallSb 2) := by
  obtain ⟨h1, h2⟩ := small_facts.2.2.1
  refine ⟨fun p hp => ?_, fun p hp => ?_⟩
  · rw [small_inode (by decide), h1] at hp
    omega
  · rw [small_inode (by decide), h2] at hp
    have hlt : p / BSIZE < 2 := Nat.div_lt_of_lt_mul hp
    have haddr := small_addrs bitmap 2 ⟨p / BSIZE, hlt.trans (by decide)⟩
    rw [if_pos ⟨rfl, hlt⟩] at haddr
    rw [blk_direct (hlt.trans (by decide))]
    exact haddr ▸ (by omega)

end Small

/-- Kernel memory, all nines. -/
def nines : Memory := ⟨false, fun _ => false, fun _ => 9⟩

end Xv6Mlfq.Vol
