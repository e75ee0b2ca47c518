import Xv6Mlfq.Fs.Alloc

/-!
# Xv6Mlfq.Fs.Bmap — the blocks of a file

* `ref`, `refs`: the references to blocks that an inode, and that all inodes, have.  `Sound`: all are to blocks of the data area that are
  marked used, and none is referred to twice.
* `content`: the bytes of a file, zero where it has no block.
* `Kept`, `Grow`: free blocks have been zeroed and given to files, and no block of a file, or no byte, has changed.
* `Ends.bmap`: `bmap` gives a file a block.
-/

namespace Xv6Mlfq.Vol

open Bytes Function Refs
open Files (BSIZE NDIRECT NINDIRECT MAXFILE)

variable {sb : Superblock} {s s' s'' : Store} {b x i j k n bn : ℕ} {data : Block} {buf buf' : ℕ → Block}
  {ip ip' : Inode} {ino ino' ino'' : ℕ → Inode} {Q : ℕ × Inode → Store → Prop}

/-! ## References -/

/-- The references of an inode: its addresses, then the entries of its indirect block. -/
def ref (buf : ℕ → Block) (ip : Inode) (k : ℕ) : ℕ :=
  if k ≤ NDIRECT then ip.addrs k
  else if ip.addrs NDIRECT = 0 ∨ NDIRECT + NINDIRECT < k then 0
  else entry (buf (ip.addrs NDIRECT)) (k - NDIRECT - 1)

/-- Where the reference to block `bn` of a file is. -/
def key (bn : ℕ) : ℕ := if bn < NDIRECT then bn else bn + 1

/-- Block `bn` of a file, 0 if it has none. -/
def blk (buf : ℕ → Block) (ip : Inode) (bn : ℕ) : ℕ := ref buf ip (key bn)

/-- The bytes of a file, zero in a hole. -/
def content (buf : ℕ → Block) (ip : Inode) (p : ℕ) : UInt8 :=
  if blk buf ip (p / BSIZE) = 0 then 0 else buf (blk buf ip (p / BSIZE)) (p % BSIZE)

/-- An inode in use. -/
def Live (sb : Superblock) (ino : ℕ → Inode) (n : ℕ) : Prop := sb.Inum n ∧ (ino n).type ≠ 0

instance : Decidable (Live sb ino n) := inferInstanceAs (Decidable (_ ∧ _))

/-- The references of all inodes in use. -/
def refs (sb : Superblock) (buf : ℕ → Block) (ino : ℕ → Inode) (r : ℕ × ℕ) : ℕ :=
  if Live sb ino r.1 then ref buf (ino r.1) r.2 else 0

/-- A block of the data area that is marked used. -/
def Taken (sb : Superblock) (s : Store) (b : ℕ) : Prop := sb.Data b ∧ s.used sb b = true

/-- All blocks are used. -/
def Full (sb : Superblock) (s : Store) : Prop := ∀ x < sb.size, s.used sb x = true

/-- What the blocks have to do with each other; `ino` has the inodes as they are in memory. -/
structure Sound (sb : Superblock) (s : Store) (ino : ℕ → Inode) : Prop where
  system : ∀ x < sb.size, x < sb.datastart → s.used sb x = true
  sep : Sep (Taken sb s) (refs sb s.buf ino)

theorem key_ne (bn : ℕ) : key bn ≠ NDIRECT := by
  unfold key
  split_ifs <;> omega

theorem refs_of_live (h : Live sb ino n) : refs sb buf ino (n, k) = ref buf (ino n) k := if_pos h

theorem refs_of_not_live (h : ¬ Live sb ino n) : refs sb buf ino (n, k) = 0 := if_neg h

theorem refs_congr (hlive : ∀ m, Live sb ino' m ↔ Live sb ino m) (href : ∀ m, Live sb ino m → ref buf' (ino' m) = ref buf (ino m)) :
    refs sb buf' ino' = refs sb buf ino := by
  funext ⟨m, k⟩
  by_cases hm : Live sb ino m
  · rw [refs_of_live ((hlive m).mpr hm), refs_of_live hm, href m hm]
  · rw [refs_of_not_live fun hc => hm ((hlive m).mp hc), refs_of_not_live hm]

theorem ref_indirect (buf : ℕ → Block) (ip : Inode) : ref buf ip NDIRECT = ip.addrs NDIRECT := if_pos le_rfl

theorem blk_of_ge (h : MAXFILE ≤ bn) : blk buf ip bn = 0 := by
  have h' : NDIRECT + NINDIRECT ≤ bn := h
  have hkey : key bn = bn + 1 := if_neg (by omega)
  rw [blk, hkey, ref, if_neg (by omega), if_pos (.inr (by omega))]

theorem blk_direct (hdir : bn < NDIRECT) : blk buf ip bn = ip.addrs bn := by
  rw [blk, key, if_pos hdir, ref, if_pos (by omega)]

theorem blk_indirect (hdir : ¬ bn < NDIRECT) (hbn : bn < MAXFILE) :
    blk buf ip bn = if ip.addrs NDIRECT = 0 then 0 else entry (buf (ip.addrs NDIRECT)) (bn - NDIRECT) := by
  have hlt : bn < NDIRECT + NINDIRECT := hbn
  have hsub : bn + 1 - NDIRECT - 1 = bn - NDIRECT := by omega
  have hle : ¬ NDIRECT + NINDIRECT < bn + 1 := by omega
  rw [blk, key, if_neg hdir, ref, if_neg (by omega), hsub]
  simp only [hle, or_false]

/-- A reference depends on the inode and on its indirect block. -/
theorem ref_congr (haddrs : ip'.addrs = ip.addrs) (h : ip.addrs NDIRECT ≠ 0 → buf' (ip.addrs NDIRECT) = buf (ip.addrs NDIRECT)) :
    ref buf' ip' = ref buf ip := by
  funext k
  unfold ref
  rw [haddrs]
  by_cases h0 : ip.addrs NDIRECT = 0
  · simp [h0]
  · rw [h h0]

theorem entry_setEntry (hb : b < 2 ^ 32) : entry (setEntry data j b) i = if i = j then b else entry data i := by
  unfold entry setEntry
  by_cases hij : i = j
  · rw [if_pos hij, hij, leAt_setLe_self hb]
  · rw [if_neg hij, leAt_setLe_of_disjoint (by omega)]

/-! ## A reference is set -/

theorem Inode.setAddr_self : (ip.setAddr i b).addrs i = b := by simp [setAddr]

theorem Inode.setAddr_of_ne (h : j ≠ i) : (ip.setAddr i b).addrs j = ip.addrs j := by simp [setAddr, h]

theorem ref_setAddr (hi : i < NDIRECT) : ref buf (ip.setAddr i b) = update (ref buf ip) i b := by
  funext k
  have hind : (ip.setAddr i b).addrs NDIRECT = ip.addrs NDIRECT := Inode.setAddr_of_ne (by omega)
  by_cases hki : k = i
  · rw [hki, update_self, ref, if_pos (by omega)]
    exact Inode.setAddr_self
  · rw [update_of_ne hki]
    unfold ref
    rw [hind]
    split_ifs with h
    · exact Inode.setAddr_of_ne hki
    · rfl
    · rfl

theorem entry_zero : entry (fun _ => 0) j = 0 := by
  unfold entry leAt
  have hall : ∀ l : List UInt8, (∀ c ∈ l, c = 0) → ofLe l = 0 := by
    intro l
    induction l with
    | nil => exact fun _ => rfl
    | cons c l ih =>
      intro h
      rw [ofLe, h c List.mem_cons_self, ih fun c' hc' => h c' (List.mem_cons_of_mem _ hc')]
      rfl
  refine hall _ fun c hc => ?_
  obtain ⟨-, -, rfl⟩ := List.mem_map.mp hc
  rfl

theorem ref_setAddr_indirect (h0 : ip.addrs NDIRECT = 0) (hz : buf b = fun _ => 0) :
    ref buf (ip.setAddr NDIRECT b) = update (ref buf ip) NDIRECT b := by
  funext k
  have hind : (ip.setAddr NDIRECT b).addrs NDIRECT = b := Inode.setAddr_self
  by_cases hk : k = NDIRECT
  · rw [hk, update_self, ref_indirect, hind]
  · rw [update_of_ne hk]
    unfold ref
    rw [hind]
    by_cases hle : k ≤ NDIRECT
    · rw [if_pos hle, if_pos hle, Inode.setAddr_of_ne hk]
    · have hold : ip.addrs NDIRECT = 0 ∨ NDIRECT + NINDIRECT < k := .inl h0
      rw [if_neg hle, if_neg hle, if_pos hold, hz, entry_zero, ite_self]

theorem ref_setEntry (hind : ip.addrs NDIRECT ≠ 0) (hj : j < NINDIRECT) (hb : b < 2 ^ 32)
    (hbuf : buf' (ip.addrs NDIRECT) = setEntry (buf (ip.addrs NDIRECT)) j b) :
    ref buf' ip = update (ref buf ip) (NDIRECT + 1 + j) b := by
  funext k
  unfold ref
  rw [hbuf]
  by_cases hk : k = NDIRECT + 1 + j
  · have hsub : NDIRECT + 1 + j - NDIRECT - 1 = j := by omega
    rw [hk, update_self, if_neg (by omega), if_neg (by simp only [hind, false_or]; omega), hsub, entry_setEntry hb, if_pos rfl]
  · rw [update_of_ne hk]
    by_cases hle : k ≤ NDIRECT
    · rw [if_pos hle, if_pos hle]
    · have hne : k - NDIRECT - 1 ≠ j := by omega
      rw [if_neg hle, if_neg hle, entry_setEntry hb, if_neg hne]

/-! ## Files grow -/

/-- The values that the fields of an inode have in C. -/
structure Inode.Fits (d : Inode) : Prop where
  type : -2 ^ 15 ≤ d.type ∧ d.type < 2 ^ 15
  major : -2 ^ 15 ≤ d.major ∧ d.major < 2 ^ 15
  minor : -2 ^ 15 ≤ d.minor ∧ d.minor < 2 ^ 15
  nlink : -2 ^ 15 ≤ d.nlink ∧ d.nlink < 2 ^ 15
  size : d.size < 2 ^ 32
  addrs : ∀ i, d.addrs i < 2 ^ 32
  beyond : ∀ i, NDIRECT < i → d.addrs i = 0

def Inode.withAddrs (ip : Inode) (addrs : ℕ → ℕ) : Inode := { ip with addrs := addrs }

/-- Free blocks have been given to files: the blocks that a file had are its blocks still, and those that it has got are in the log.  The
buffers of `E` may have been changed without the log. -/
structure Kept (sb : Superblock) (E : Set ℕ) (s : Store) (ino : ℕ → Inode) (s' : Store) (ino' : ℕ → Inode) : Prop where
  sound : Sound sb s' ino'
  keep : ∀ r, refs sb s.buf ino r ≠ 0 → refs sb s'.buf ino' r = refs sb s.buf ino r
  fresh : ∀ r, refs sb s'.buf ino' r ≠ refs sb s.buf ino r → refs sb s'.buf ino' r ∈ s'.log
  fields : ∀ m, ino' m = (ino m).withAddrs (ino' m).addrs
  fits : ∀ m, (ino m).Fits → (ino' m).Fits
  used : ∀ x < sb.size, s.used sb x = true → s'.used sb x = true
  inode : ∀ m, sb.Inum m → s'.buf (sb.iblock m) = s.buf (sb.iblock m)
  logged : Logged E s s'

section Kept

variable {E E' : Set ℕ}

theorem Kept.live (h : Kept sb E s ino s' ino') : Live sb ino' n ↔ Live sb ino n := by
  have hf := h.fields n
  have ht : (ino' n).type = (ino n).type := by
    rw [hf]
    rfl
  rw [Live, Live, ht]

theorem Kept.refl (h : Sound sb s ino) : Kept sb E s ino s ino :=
  ⟨h, fun _ _ => rfl, fun _ hr => absurd rfl hr, fun _ => rfl, fun _ => id, fun _ _ => id, fun _ _ => rfl, .refl s⟩

theorem Kept.trans (h : Kept sb E s ino s' ino') (h' : Kept sb E' s' ino' s'' ino'') (hE : E ⊆ E') : Kept sb E' s ino s'' ino'' where
  sound := h'.sound
  keep := by
    intro r hr
    have h₁ := h.keep r hr
    rw [h'.keep r (h₁ ▸ hr), h₁]
  fresh := by
    intro r hr
    by_cases he : refs sb s''.buf ino'' r = refs sb s'.buf ino' r
    · rw [he] at hr ⊢
      exact h'.logged.log (h.fresh r hr)
    · exact h'.fresh r he
  fields := by
    intro m
    rw [h'.fields m, h.fields m]
    rfl
  fits := fun m hm => h'.fits m (h.fits m hm)
  used := fun x hx hu => h'.used x hx (h.used x hx hu)
  inode := fun m hm => (h'.inode m hm).trans (h.inode m hm)
  logged := h.logged.trans h'.logged hE

end Kept

/-- Free blocks have been zeroed and given to files. -/
structure Grow (sb : Superblock) (s : Store) (ino : ℕ → Inode) (s' : Store) (ino' : ℕ → Inode) : Prop extends
    Kept sb ∅ s ino s' ino' where
  bytes : ∀ m, Live sb ino m → content s'.buf (ino' m) = content s.buf (ino m)

theorem Grow.refl (h : Sound sb s ino) : Grow sb s ino s ino := ⟨.refl h, fun _ _ => rfl⟩

theorem Grow.trans (h : Grow sb s ino s' ino') (h' : Grow sb s' ino' s'' ino'') : Grow sb s ino s'' ino'' :=
  ⟨h.toKept.trans h'.toKept subset_rfl, fun m hm => (h'.bytes m (h.live.mpr hm)).trans (h.bytes m hm)⟩

/-- The bytes of a file, if the blocks that it had are as they were and those that it did not have are zero. -/
theorem content_eq (h : ∀ bn, blk buf ip bn ≠ 0 → blk buf' ip' bn = blk buf ip bn ∧ buf' (blk buf ip bn) = buf (blk buf ip bn))
    (h0 : ∀ bn, blk buf ip bn = 0 → blk buf' ip' bn ≠ 0 → buf' (blk buf' ip' bn) = fun _ => 0) :
    content buf' ip' = content buf ip := by
  funext p
  unfold content
  by_cases hz : blk buf ip (p / BSIZE) = 0
  · rw [if_pos hz]
    split_ifs with hz'
    · rfl
    · rw [h0 _ hz hz']
  · obtain ⟨hblk, hbuf⟩ := h _ hz
    rw [if_neg hz, hblk, if_neg hz, hbuf]

section Sep

variable {ok : ℕ → Prop} {m l : ℕ}

theorem ref_ok (h : Sep ok (refs sb buf ino)) (hn : Live sb ino n) (hk : ref buf (ino n) k ≠ 0) : ok (ref buf (ino n) k) := by
  rw [← refs_of_live hn] at hk ⊢
  exact h.ok _ hk

theorem ref_inj (h : Sep ok (refs sb buf ino)) (hn : Live sb ino n) (hm : Live sb ino m)
    (he : ref buf (ino n) k = ref buf (ino m) l) (hk : ref buf (ino n) k ≠ 0) : n = m ∧ k = l := by
  rw [← refs_of_live hn, ← refs_of_live hm] at he
  rw [← refs_of_live hn] at hk
  exact Prod.mk.inj (h.inj _ _ he hk)

/-- A zeroed block, `b`, that was not in use is hung into file `n` at reference `k`. -/
structure Hung (ok : ℕ → Prop) (sb : Superblock) (buf : ℕ → Block) (ino : ℕ → Inode) (n k b : ℕ) (ip' : Inode) (buf' : ℕ → Block) :
    Prop where
  live : Live sb ino n
  new : ¬ ok b
  none : ref buf (ino n) k = 0
  fields : ip' = (ino n).withAddrs ip'.addrs
  ref : Vol.ref buf' ip' = update (Vol.ref buf (ino n)) k b
  buf : ∀ x, ok x → x ≠ (ino n).addrs NDIRECT → buf' x = buf x
  zero : buf' b = fun _ => 0

section

variable (hh : Hung ok sb buf ino n k b ip' buf')
include hh

theorem Hung.live_iff : Live sb (update ino n ip') m ↔ Live sb ino m := by
  have htype : ip'.type = (ino n).type := by
    rw [hh.fields]
    rfl
  rw [Live, Live, update_keeps (g := Inode.type) htype]

theorem Hung.ref_of_ne (h : Sep ok (Vol.refs sb buf ino)) (hm : Live sb ino m) (hmn : m ≠ n) :
    Vol.ref buf' (ino m) = Vol.ref buf (ino m) := by
  refine ref_congr rfl fun h0 => ?_
  rw [← ref_indirect buf] at h0 ⊢
  refine hh.buf _ (ref_ok h hm h0) fun he => hmn ?_
  rw [← ref_indirect buf] at he
  exact (ref_inj h hm hh.live he h0).1

theorem Hung.refs_eq (h : Sep ok (refs sb buf ino)) :
    refs sb buf' (update ino n ip') = update (refs sb buf ino) (n, k) b := by
  funext ⟨m, l⟩
  by_cases hm : m = n
  · subst hm
    rw [refs_of_live (hh.live_iff.mpr hh.live), update_self, hh.ref]
    by_cases hl : l = k
    · rw [hl, update_self, update_self]
    · rw [update_of_ne hl, update_of_ne (by simp [hl]), refs_of_live hh.live]
  · rw [update_of_ne (by simp [hm])]
    by_cases hml : Live sb ino m
    · rw [refs_of_live (hh.live_iff.mpr hml), refs_of_live hml, update_of_ne hm, hh.ref_of_ne h hml hm]
    · rw [refs_of_not_live hml, refs_of_not_live fun hc => hml (hh.live_iff.mp hc)]

/-- No byte of any file changes. -/
theorem Hung.content_eq (h : Sep ok (refs sb buf ino)) (hm : Live sb ino m) :
    content buf' (update ino n ip' m) = content buf (ino m) := by
  -- the blocks that the file had are not its indirect block
  have hkeep : ∀ bn, blk buf (ino m) bn ≠ 0 → buf' (blk buf (ino m) bn) = buf (blk buf (ino m) bn) := by
    intro bn h0
    refine hh.buf _ (ref_ok h hm h0) fun he => ?_
    rw [← ref_indirect buf] at he
    exact key_ne bn (ref_inj h hm hh.live he h0).2
  by_cases hmn : m = n
  · subst hmn
    rw [update_self]
    refine Vol.content_eq (fun bn h0 => ⟨?_, hkeep bn h0⟩) fun bn h0 h1 => ?_
    · have hbk : key bn ≠ k := by
        intro he
        rw [blk, he] at h0
        exact h0 hh.none
      rw [blk, hh.ref, update_of_ne hbk, blk]
    · by_cases hbk : key bn = k
      · rw [blk, hh.ref, hbk, update_self, hh.zero]
      · rw [blk, hh.ref, update_of_ne hbk] at h1
        exact absurd h0 h1
  · rw [update_of_ne hmn]
    refine Vol.content_eq (fun bn h0 => ⟨?_, hkeep bn h0⟩) fun bn h0 h1 => ?_
    · rw [blk, hh.ref_of_ne h hm hmn, blk]
    · rw [blk, hh.ref_of_ne h hm hmn] at h1
      exact absurd h0 h1

end

end Sep

theorem Sound.taken (h : Sound sb s ino) (hn : Live sb ino n) (hk : ref s.buf (ino n) k ≠ 0) : Taken sb s (ref s.buf (ino n) k) :=
  ref_ok h.sep hn hk

theorem not_taken (hfree : s.used sb b = false) : ¬ Taken sb s b := by
  intro ht
  rw [ht.2] at hfree
  cases hfree

/-- A free block is hung into a file at reference `k`. -/
theorem Grow.hang (h : Sound sb s ino) (hb : sb.Data b) (hh : Hung (Taken sb s) sb s.buf ino n k b ip' s'.buf)
    (hfits : (ino n).Fits → ip'.Fits) (hused : ∀ x < sb.size, s'.used sb x = if x = b then true else s.used sb x)
    (hinode : ∀ m, sb.Inum m → s'.buf (sb.iblock m) = s.buf (sb.iblock m)) (hlogged : Logged ∅ s s') (hlog : b ∈ s'.log) :
    Grow sb s ino s' (update ino n ip') := by
  have hmono : ∀ x < sb.size, s.used sb x = true → s'.used sb x = true := by
    intro x hx hu
    rw [hused x hx, hu, ite_self]
  have htaken : ∀ x, Taken sb s x ∨ x = b → Taken sb s' x := by
    rintro x (⟨hx, hu⟩ | rfl)
    · exact ⟨hx, hmono x hx.2 hu⟩
    · exact ⟨hb, by rw [hused _ hb.2, if_pos rfl]⟩
  have hrefs := hh.refs_eq h.sep
  refine ⟨⟨⟨fun x hx hd => hmono x hx (h.system x hx hd), ?_⟩, fun r hr => ?_, fun r hr => ?_, fun m => ?_, fun m hm => ?_, hmono,
    hinode, hlogged⟩, fun m hm => hh.content_eq h.sep hm⟩
  · rw [hrefs]
    exact h.sep.set hh.new htaken
  · rw [hrefs]
    refine update_of_ne ?_ _ _
    rintro rfl
    rw [refs_of_live hh.live] at hr
    exact hr hh.none
  · rw [hrefs] at hr ⊢
    obtain rfl : r = (n, k) := by
      by_contra hne
      exact hr (update_of_ne hne ..)
    rw [update_self]
    exact hlog
  · by_cases hm : m = n
    · rw [hm, update_self]
      exact hh.fields
    · rw [update_of_ne hm]
      rfl
  · by_cases hmn : m = n
    · rw [hmn, update_self]
      rw [hmn] at hm
      exact hfits hm
    · rw [update_of_ne hmn]
      exact hm

/-! ## `bmap` -/

theorem Sound.data_of_free (h : Sound sb s ino) (hb : b < sb.size) (hfree : s.used sb b = false) : sb.Data b := by
  refine ⟨?_, hb⟩
  by_contra hlt
  rw [h.system b hb (not_le.mp hlt)] at hfree
  cases hfree

theorem Inode.Fits.setAddr (h : ip.Fits) (hi : i ≤ NDIRECT) (hb : b < 2 ^ 32) : (ip.setAddr i b).Fits := by
  refine ⟨h.type, h.major, h.minor, h.nlink, h.size, fun j => ?_, fun j hj => ?_⟩
  · by_cases hji : j = i
    · rw [hji, setAddr_self]
      exact hb
    · rw [setAddr_of_ne hji]
      exact h.addrs j
  · rw [setAddr_of_ne (by omega)]
    exact h.beyond j hj

theorem Superblock.Data.lt (hb : sb.Data b) : b < 2 ^ 32 := by
  have := sb.size_lt
  have := hb.2
  omega

theorem ref_takeAddr (h : Sound sb s ino) (hn : Live sb ino n) (hi : i ≤ NDIRECT) (h0 : (ino n).addrs i = 0) (hb : sb.Data b)
    (hfree : s.used sb b = false) : ref (s.take sb b).buf ((ino n).setAddr i b) = update (ref s.buf (ino n)) i b := by
  rcases Nat.lt_or_eq_of_le hi with hlt | rfl
  · -- the indirect block is not the one that is zeroed
    have hsame : ref (s.take sb b).buf (ino n) = ref s.buf (ino n) := by
      refine ref_congr rfl fun hind => ?_
      rw [← ref_indirect s.buf] at hind ⊢
      have ht := h.taken hn hind
      exact Store.buf_take_of_data hb ht.1 fun he => not_taken hfree (he ▸ ht)
    rw [ref_setAddr hlt, hsame]
  · rw [ref_setAddr_indirect h0 Store.buf_take_self]
    have hsame : ref (s.take sb b).buf (ino n) = ref s.buf (ino n) := ref_congr rfl fun hind => absurd h0 hind
    rw [hsame]

/-- A block is taken for an address of an inode. -/
theorem Grow.takeAddr (h : Sound sb s ino) (hn : Live sb ino n) (hi : i ≤ NDIRECT) (h0 : (ino n).addrs i = 0) (hb : sb.Data b)
    (hfree : s.used sb b = false) : Grow sb s ino (s.take sb b) (update ino n ((ino n).setAddr i b)) := by
  refine Grow.hang h hb ⟨hn, not_taken hfree, ?_, rfl, ref_takeAddr h hn hi h0 hb hfree, fun x hx _ => ?_, Store.buf_take_self⟩
    (fun hf => hf.setAddr hi hb.lt) (fun x hx => Store.used_take hb hx) (fun m hm => ?_) Store.logged_take
    (Finset.mem_insert_self ..)
  · rw [ref, if_pos hi, h0]
  · exact Store.buf_take_of_data hb hx.1 fun he => not_taken hfree (he ▸ hx)
  · exact Store.buf_take_of_ne (hb.iblock_ne hm) (sb.bblock_ne_iblock hm).symm

/-- A block taken for entry `j` of the indirect block `ind`. -/
def Store.takeEntry (sb : Superblock) (s : Store) (ind j b : ℕ) : Store :=
  ((s.take sb b).fill ind (setEntry (s.buf ind) j b)).logWrite ind

theorem ref_takeEntry (hind : ip.addrs NDIRECT ≠ 0) (hj : j < NINDIRECT) (hb : b < 2 ^ 32) :
    ref (s.takeEntry sb (ip.addrs NDIRECT) j b).buf ip = update (ref s.buf ip) (NDIRECT + 1 + j) b :=
  ref_setEntry hind hj hb Store.buf_fill_self

theorem Grow.takeEntry (h : Sound sb s ino) (hn : Live sb ino n) (hind : (ino n).addrs NDIRECT ≠ 0) (hj : j < NINDIRECT)
    (h0 : ref s.buf (ino n) (NDIRECT + 1 + j) = 0) (hb : sb.Data b) (hfree : s.used sb b = false) :
    Grow sb s ino (s.takeEntry sb ((ino n).addrs NDIRECT) j b) ino := by
  have ht : Taken sb s ((ino n).addrs NDIRECT) := by
    rw [← ref_indirect s.buf] at hind ⊢
    exact h.taken hn hind
  have hne : b ≠ (ino n).addrs NDIRECT := fun he => not_taken hfree (he ▸ ht)
  have hbuf : ∀ x, x ≠ (ino n).addrs NDIRECT → (s.takeEntry sb ((ino n).addrs NDIRECT) j b).buf x = (s.take sb b).buf x :=
    fun x hx => Store.buf_fill_of_ne hx
  have hgrow : Grow sb s ino (s.takeEntry sb ((ino n).addrs NDIRECT) j b) (update ino n (ino n)) := by
    refine Grow.hang h hb ⟨hn, not_taken hfree, h0, rfl, ?_, fun x hx hxi => ?_, ?_⟩ id (fun x hx => ?_) (fun m hm => ?_) ?_
      (Finset.mem_insert_of_mem (Finset.mem_insert_self ..))
    · exact ref_takeEntry hind hj hb.lt
    · rw [hbuf x hxi, Store.buf_take_of_data hb hx.1 fun he => not_taken hfree (he ▸ hx)]
    · rw [hbuf b hne, Store.buf_take_self]
    · rw [Store.takeEntry, Store.used_logWrite, Store.used_fill_of_ne (ht.1.bblock_ne hx), Store.used_take hb hx]
    · rw [hbuf _ (ht.1.iblock_ne hm), Store.buf_take_of_ne (hb.iblock_ne hm) (sb.bblock_ne_iblock hm).symm]
    · exact Store.logged_take.trans Logged.write subset_rfl
  rwa [update_eq_self] at hgrow

theorem Ends.addrAt (h : Sound sb s ino) (hn : Live sb ino n) (hi : i ≤ NDIRECT)
    (hsame : (ino n).addrs i ≠ 0 → Q ((ino n).addrs i, ino n) s) (hfull : (ino n).addrs i = 0 → Full sb s → Q (0, ino n) s)
    (hnew : ∀ b, (ino n).addrs i = 0 → sb.Data b → s.used sb b = false →
      Grow sb s ino (s.take sb b) (update ino n ((ino n).setAddr i b)) → Q (b, (ino n).setAddr i b) (s.take sb b)) :
    Ends sb.act (addrAt sb (ino n) i) s Q := by
  unfold Vol.addrAt
  by_cases h0 : (ino n).addrs i = 0
  · rw [if_pos h0]
    refine Ends.bind (Ends.balloc (fun hall => ?_) fun b hb hfree => ?_)
    · exact Ends.pure (hfull h0 hall)
    · have hdata := h.data_of_free hb hfree
      rw [if_neg hdata.pos.ne']
      exact Ends.pure (hnew b h0 hdata hfree (Grow.takeAddr h hn hi h0 hdata hfree))
  · rw [if_neg h0]
    exact Ends.pure (hsame h0)

theorem Ends.entryAt {Q : ℕ → Store → Prop} (h : Sound sb s ino) (hn : Live sb ino n) (hind : (ino n).addrs NDIRECT ≠ 0)
    (hj : j < NINDIRECT)
    (hsame : ref s.buf (ino n) (NDIRECT + 1 + j) ≠ 0 → Q (ref s.buf (ino n) (NDIRECT + 1 + j)) s)
    (hfull : ref s.buf (ino n) (NDIRECT + 1 + j) = 0 → Full sb s → Q 0 s)
    (hnew : ∀ b, ref s.buf (ino n) (NDIRECT + 1 + j) = 0 → sb.Data b → s.used sb b = false →
      Grow sb s ino (s.takeEntry sb ((ino n).addrs NDIRECT) j b) ino → Q b (s.takeEntry sb ((ino n).addrs NDIRECT) j b)) :
    Ends sb.act (entryAt sb ((ino n).addrs NDIRECT) j) s Q := by
  have href : ref s.buf (ino n) (NDIRECT + 1 + j) = entry (s.buf ((ino n).addrs NDIRECT)) j := by
    have hsub : NDIRECT + 1 + j - NDIRECT - 1 = j := by omega
    rw [ref, if_neg (by omega), if_neg (by simp only [hind, false_or]; omega), hsub]
  rw [href] at hsame
  refine Ends.bind (Ends.op rfl ?_)
  show Ends sb.act (if entry (s.buf ((ino n).addrs NDIRECT)) j = 0 then _ else _) s Q
  by_cases h0 : entry (s.buf ((ino n).addrs NDIRECT)) j = 0
  · rw [if_pos h0]
    refine Ends.bind (Ends.balloc (fun hall => ?_) fun b hb hfree => ?_)
    · exact Ends.pure (hfull (href.trans h0) hall)
    · have hdata := h.data_of_free hb hfree
      rw [if_neg hdata.pos.ne']
      refine Ends.bind (Ends.op rfl (Ends.bind (Ends.op rfl (Ends.pure ?_))))
      exact hnew b (href.trans h0) hdata hfree (Grow.takeEntry h hn hind hj (href.trans h0) hdata hfree)
  · rw [if_neg h0]
    exact Ends.pure (hsame h0)

/-- **`bmap`** of a block that the file has -/
theorem Ends.bmap_of_ne {ex : Exec} (hq : Quiet sb ex)
    (h0 : blk s.buf ip bn ≠ 0) (h : Q (blk s.buf ip bn, ip) s) : Ends ex (bmap sb ip bn) s Q := by
  have hbn : bn < MAXFILE := by
    by_contra hge
    exact h0 (blk_of_ge (not_lt.mp hge))
  unfold Vol.bmap
  by_cases hdir : bn < NDIRECT
  · rw [blk_direct hdir] at h0 h
    rw [if_pos hdir, Vol.addrAt, if_neg h0]
    exact Ends.pure h
  · have hlt : bn < NDIRECT + NINDIRECT := hbn
    rw [blk_indirect hdir hbn] at h0 h
    have hind : ip.addrs NDIRECT ≠ 0 := fun hz => h0 (if_pos hz)
    rw [if_neg hind] at h0 h
    rw [if_neg hdir, if_pos (by omega), Vol.addrAt, if_neg hind]
    refine Ends.bind (Ends.pure ?_)
    show Ends ex (if ip.addrs NDIRECT = 0 then _ else _) s Q
    rw [if_neg hind]
    refine Ends.bind (Ends.bind (Ends.op (hq rfl rfl) ?_))
    show Ends ex (if entry (s.buf (ip.addrs NDIRECT)) (bn - NDIRECT) = 0 then _ else _) s _
    rw [if_neg h0]
    exact Ends.pure (Ends.pure h)

/-- There is no block for block `bn` of a file: all are used, or one is free and two are needed. -/
def Exhausted (sb : Superblock) (s : Store) (ip : Inode) (bn : ℕ) : Prop :=
  blk s.buf ip bn = 0 ∧ (Full sb s ∨ NDIRECT ≤ bn ∧ ip.addrs NDIRECT = 0 ∧ ∃ b, ∀ x < sb.size, x ≠ b → s.used sb x = true)

theorem not_full (hb : b < sb.size) (hfree : s.used sb b = false) : ¬ Full sb s := by
  intro hall
  rw [hall b hb] at hfree
  cases hfree

/-- With `b` the indirect block, one more block is needed. -/
theorem full_take (hb : sb.Data b) (hfree : s.used sb b = false) :
    Full sb (s.take sb b) ↔ Full sb s ∨ ∃ b, ∀ x < sb.size, x ≠ b → s.used sb x = true := by
  constructor
  · refine fun hall => .inr ⟨b, fun x hx hxb => ?_⟩
    have hu := hall x hx
    rwa [Store.used_take hb hx, if_neg hxb] at hu
  · rintro (hall | ⟨b', hall⟩) x hx
    · exact absurd hall (not_full hb.2 hfree)
    · rw [Store.used_take hb hx]
      split_ifs with hxb
      · rfl
      · refine hall x hx fun hxb' => ?_
        -- `b` is the one that is free
        have hu := hall b hb.2 fun hbb' => hxb (hxb'.trans hbb'.symm)
        rw [hu] at hfree
        cases hfree

/-- What `bmap` on block `bn` of file `n` has done, with the address and the inode that it returns. -/
structure Mapped (sb : Superblock) (s : Store) (ino : ℕ → Inode) (n bn addr : ℕ) (ip' : Inode) (s' : Store) : Prop where
  grow : Grow sb s ino s' (update ino n ip')
  eq : addr = blk s'.buf ip' bn
  full : addr = 0 → Full sb s'
  exhausted : addr = 0 ↔ Exhausted sb s (ino n) bn

/-- The second half of `bmap`, once the indirect block is there. -/
theorem Mapped.entryAt (hn : Live sb ino n) (hdir : ¬ bn < NDIRECT) (hbn : bn < MAXFILE) (hgrow : Grow sb s ino s' ino')
    (hino : ino' = update ino n (ino' n)) (hind : (ino' n).addrs NDIRECT ≠ 0)
    (hex : Exhausted sb s (ino n) bn ↔ blk s'.buf (ino' n) bn = 0 ∧ Full sb s') :
    Ends sb.act (Vol.entryAt sb ((ino' n).addrs NDIRECT) (bn - NDIRECT)) s' fun addr s'' => Mapped sb s ino n bn addr (ino' n) s'' := by
  have hj : bn - NDIRECT < NINDIRECT := by
    have : MAXFILE = NDIRECT + NINDIRECT := rfl
    omega
  have hkey : key bn = NDIRECT + 1 + (bn - NDIRECT) := by
    rw [key, if_neg hdir]
    omega
  have hn' : Live sb ino' n := hgrow.live.mpr hn
  have hgrow1 : Grow sb s ino s' (update ino n (ino' n)) := by rwa [← hino]
  rw [blk, hkey] at hex
  refine Ends.entryAt hgrow.sound hn' hind hj (fun h0 => ?_) (fun h0 hall => ?_) fun b h0 hb hfree hgrow' => ?_
  · refine ⟨hgrow1, by rw [blk, hkey], fun hz => absurd hz h0, ?_⟩
    rw [hex]
    exact ⟨fun hz => absurd hz h0, fun hz => hz.1⟩
  · refine ⟨hgrow1, by rw [blk, hkey, h0], fun _ => hall, ?_⟩
    rw [hex]
    exact ⟨fun _ => ⟨h0, hall⟩, fun _ => rfl⟩
  · have hblk : blk (s'.takeEntry sb ((ino' n).addrs NDIRECT) (bn - NDIRECT) b).buf (ino' n) bn = b := by
      rw [blk, hkey, ref_takeEntry hind hj hb.lt, update_self]
    refine ⟨by rw [← hino]; exact hgrow.trans hgrow', hblk.symm, fun hz => absurd hz hb.pos.ne', ?_⟩
    rw [hex]
    exact ⟨fun hz => absurd hz hb.pos.ne', fun hz => absurd hz.2 (not_full hb.2 hfree)⟩

/-- **`bmap`** -/
theorem Ends.bmap (h : Sound sb s ino) (hn : Live sb ino n) (hbn : bn < MAXFILE) :
    Ends sb.act (bmap sb (ino n) bn) s fun r s' => Mapped sb s ino n bn r.1 r.2 s' := by
  have hself : update ino n (ino n) = ino := update_eq_self n ino
  have hrefl : Grow sb s ino s (update ino n (ino n)) := by
    rw [hself]
    exact .refl h
  unfold Vol.bmap
  by_cases hdir : bn < NDIRECT
  · have hex : Exhausted sb s (ino n) bn ↔ (ino n).addrs bn = 0 ∧ Full sb s := by
      rw [Exhausted, blk_direct hdir]
      exact and_congr_right fun _ => ⟨fun hc => hc.resolve_right fun hc => absurd hc.1 (not_le.mpr hdir), .inl⟩
    rw [if_pos hdir]
    refine Ends.addrAt h hn (by omega) (fun h0 => ?_) (fun h0 hall => ?_) fun b h0 hb hfree hgrow => ?_
    · refine ⟨hrefl, (blk_direct hdir).symm, fun hz => absurd hz h0, ?_⟩
      rw [hex]
      exact ⟨fun hz => absurd hz h0, fun hz => hz.1⟩
    · refine ⟨hrefl, by rw [blk_direct hdir, h0], fun _ => hall, ?_⟩
      rw [hex]
      exact ⟨fun _ => ⟨h0, hall⟩, fun _ => rfl⟩
    · refine ⟨hgrow, by rw [blk_direct hdir, Inode.setAddr_self], fun hz => absurd hz hb.pos.ne', ?_⟩
      rw [hex]
      exact ⟨fun hz => absurd hz hb.pos.ne', fun hz => absurd hz.2 (not_full hb.2 hfree)⟩
  · have hj : bn - NDIRECT < NINDIRECT := by
      have : MAXFILE = NDIRECT + NINDIRECT := rfl
      omega
    have hblk : (ino n).addrs NDIRECT = 0 → blk s.buf (ino n) bn = 0 := fun h0 => by rw [blk_indirect hdir hbn, if_pos h0]
    rw [if_neg hdir, if_pos hj]
    have hpair : ∀ {ip : Inode} {p : Code ℕ} {s' : Store}, Ends sb.act p s' (fun addr s'' => Mapped sb s ino n bn addr ip s'') →
        Ends sb.act (p >>= fun addr => Pure.pure (addr, ip)) s' fun r s'' => Mapped sb s ino n bn r.1 r.2 s'' := fun hp =>
      Ends.bind (hp.mono fun _ _ hm => Ends.pure hm)
    refine Ends.bind (Ends.addrAt h hn le_rfl (fun h0 => ?_) (fun h0 hall => ?_) fun b h0 hb hfree hgrow => ?_)
    · show Ends sb.act (if (ino n).addrs NDIRECT = 0 then _ else _) s _
      rw [if_neg h0]
      refine hpair (Mapped.entryAt hn hdir hbn (.refl h) hself.symm h0 ?_)
      exact and_congr_right fun _ => ⟨fun hc => hc.resolve_right fun hc => h0 hc.2.1, .inl⟩
    · exact Ends.pure ⟨hrefl, (hblk h0).symm, fun _ => hall, fun _ => ⟨hblk h0, .inl hall⟩, fun _ => rfl⟩
    · have hn1 : update ino n ((ino n).setAddr NDIRECT b) n = (ino n).setAddr NDIRECT b := update_self ..
      have hind : (update ino n ((ino n).setAddr NDIRECT b) n).addrs NDIRECT = b := by rw [hn1, Inode.setAddr_self]
      have hex : Exhausted sb s (ino n) bn ↔
          blk (s.take sb b).buf (update ino n ((ino n).setAddr NDIRECT b) n) bn = 0 ∧ Full sb (s.take sb b) := by
        have hblk' : blk (s.take sb b).buf (update ino n ((ino n).setAddr NDIRECT b) n) bn = blk s.buf (ino n) bn := by
          rw [hn1, blk, ref_takeAddr h hn le_rfl h0 hb hfree, update_of_ne (key_ne bn), blk]
        rw [hblk', full_take hb hfree]
        refine and_congr_right fun _ => or_congr_right ⟨fun hc => hc.2.2, fun hc => ⟨not_lt.mp hdir, h0, hc⟩⟩
      have hrest := Mapped.entryAt hn hdir hbn hgrow (by rw [hn1]) (by rw [hind]; exact hb.pos.ne') hex
      rw [hind, hn1] at hrest
      show Ends sb.act (if b = 0 then _ else _) _ _
      rw [if_neg hb.pos.ne']
      exact hpair hrest

end Xv6Mlfq.Vol
