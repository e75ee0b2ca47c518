import Mathlib.Algebra.Order.BigOperators.Group.Finset
import Xv6Mlfq.Fs.Dir
import Xv6Mlfq.Lib.Count

/-!
# Xv6Mlfq.Fs.Mkfs — the image that `mkfs` writes

`mkfs.c`, sector by sector: blocks and inodes are given out in order, `iappend` appends to a file, and at the end the size of the root
directory is rounded up and the bitmap is written.  A run of `mkfs` that dies, or in which an `assert` fails, is `none`.

* `Laid`: what holds of the sectors between two steps.  File `n` has `used n` blocks, its first `used n` references.
* `Yields`: what a run leads to if it does not die, and that it does not die if there is room.
* `Yields.iappend`: `iappend` appends.
-/

namespace Xv6Mlfq.Mkfs

open Bytes Function Refs Vol
open Files (BSIZE NDIRECT NINDIRECT MAXFILE)

/-! ## The program -/

def FSSIZE : ℕ := 2000

def T_FILE : ℤ := 2

def nlog : ℕ := LOGSIZE

def nbitmap : ℕ := FSSIZE / (BSIZE * 8) + 1

def ninodeblocks : ℕ := NINODES / IPB + 1

def nmeta : ℕ := 2 + nlog + ninodeblocks + nbitmap

def nblocks : ℕ := FSSIZE - nmeta

/-- `sb` -/
def mkfsSb : Superblock where
  size := FSSIZE
  ninodes := NINODES
  inodestart := 2 + nlog
  bmapstart := 2 + nlog + ninodeblocks
  datastart := nmeta
  inode_lt := by
    intro n hn
    simp only [NINODES, nlog, LOGSIZE, MAXOPBLOCKS, ninodeblocks, IPB, BSIZE] at *
    omega
  bitmap_lt := by
    intro b hb
    simp only [FSSIZE, nmeta, nlog, LOGSIZE, MAXOPBLOCKS, ninodeblocks, nbitmap, NINODES, IPB, BPB, BSIZE] at *
    omega
  size_lt := by decide

/-- The bytes of `sb`: `magic`, `size`, `nblocks`, `ninodes`, `nlog`, `logstart`, `inodestart`, `bmapstart`. -/
def sbBytes : List UInt8 :=
  [0x10203040, FSSIZE, nblocks, NINODES, nlog, 2, 2 + nlog, 2 + nlog + ninodeblocks].flatMap (le 4)

/-- The sectors of the image, `freeinode` and `freeblock`. -/
structure Image where
  sect : ℕ → Block
  freeinode : ℕ
  freeblock : ℕ

/-- `rsect`; the image has `FSSIZE` sectors, and a sector is read before it is written. -/
def rsect (im : Image) (sec : ℕ) : Option Block := if sec < FSSIZE then some (im.sect sec) else none

def wsect (im : Image) (sec : ℕ) (data : Block) : Image := { im with sect := update im.sect sec data }

def rinode (im : Image) (inum : ℕ) : Option Inode := do
  let data ← rsect im (mkfsSb.iblock inum)
  pure (getInode data (inum % IPB))

def winode (im : Image) (inum : ℕ) (din : Inode) : Option Image := do
  let data ← rsect im (mkfsSb.iblock inum)
  pure (wsect im (mkfsSb.iblock inum) (putInode data (inum % IPB) din))

def ialloc (im : Image) (type : ℤ) : Option (ℕ × Image) := do
  let im' ← winode { im with freeinode := im.freeinode + 1 } im.freeinode { Inode.zero with type := type, nlink := 1 }
  pure (im.freeinode, im')

/-- `din.addrs[i]` in `iappend`, a new block if it is 0 -/
def addrAt (im : Image) (din : Inode) (i : ℕ) : ℕ × Inode × Image :=
  if din.addrs i = 0 then (im.freeblock, din.setAddr i im.freeblock, { im with freeblock := im.freeblock + 1 })
  else (din.addrs i, din, im)

/-- `x` in `iappend` -/
def blockAt (im : Image) (din : Inode) (fbn : ℕ) : Option (ℕ × Inode × Image) :=
  if fbn < NDIRECT then some (addrAt im din fbn)
  else do
    let (ind, din, im) := addrAt im din NDIRECT
    let indirect ← rsect im ind
    if entry indirect (fbn - NDIRECT) = 0 then
      pure (im.freeblock, din,
        wsect { im with freeblock := im.freeblock + 1 } ind (setEntry indirect (fbn - NDIRECT) im.freeblock))
    else pure (entry indirect (fbn - NDIRECT), din, im)

/-- The loop of `iappend`, over the bytes that are left. -/
def iappendLoop : ℕ → Image → Inode → ℕ → List UInt8 → Option (Image × Inode × ℕ)
  | 0, im, din, off, _ => some (im, din, off)
  | fuel + 1, im, din, off, p =>
    if p.length = 0 then some (im, din, off)
    else if off / BSIZE < MAXFILE then do
      let (x, din, im) ← blockAt im din (off / BSIZE)
      let n1 := min p.length ((off / BSIZE + 1) * BSIZE - off)
      let buf ← rsect im x
      iappendLoop fuel (wsect im x (splice buf (off - off / BSIZE * BSIZE) (p.take n1))) din (off + n1) (p.drop n1)
    else none

def iappend (im : Image) (inum : ℕ) (p : List UInt8) : Option Image := do
  let din ← rinode im inum
  let (im, din, off) ← iappendLoop p.length im din din.size p
  winode im inum { din with size := off }

/-- `balloc`: the bitmap -/
def balloc (im : Image) (used : ℕ) : Option Image :=
  if used < BSIZE * 8 then some (wsect im mkfsSb.bmapstart ((List.range used).foldl setBit fun _ => 0)) else none

/-- A file given to `mkfs`: `argv[i]`, and what the calls of `read` return, until one returns 0. -/
structure Input where
  arg : List UInt8
  reads : List (List UInt8)
  string : 0 ∉ arg
  counts : ∀ bs ∈ reads, 0 < bs.length ∧ bs.length ≤ BSIZE

/-- The bytes of the file. -/
def Input.data (f : Input) : List UInt8 := f.reads.flatten

/-- `shortname`, without "user/" -/
def shortname (arg : List UInt8) : List UInt8 := if strncmp 5 arg [117, 115, 101, 114, 47] = 0 then arg.drop 5 else arg

/-- The name in the directory, without a leading '_' -/
def Input.name (f : Input) : List UInt8 := if (shortname f.arg).headD 0 = 95 then (shortname f.arg).tail else shortname f.arg

/-- The body of the loop over the files. -/
def addFile (rootino : ℕ) (im : Image) (f : Input) : Option Image :=
  if 47 ∈ shortname f.arg then none
  else do
    let (inum, im) ← ialloc im T_FILE
    let im ← iappend im rootino (dirent inum f.name)
    f.reads.foldlM (fun im bs => iappend im inum bs) im

/-- The image before the first `ialloc`. -/
def blank : Image where
  sect := update (fun _ _ => 0) 1 (splice (fun _ => 0) 0 sbBytes)
  freeinode := 1
  freeblock := nmeta

def mkfs (files : List Input) : Option Image := do
  let (rootino, im) ← ialloc blank T_DIR
  if rootino = ROOTINO then do
    let im ← iappend im rootino (dirent rootino [46])
    let im ← iappend im rootino (dirent rootino [46, 46])
    let im ← files.foldlM (addFile rootino) im
    let din ← rinode im rootino
    let im ← winode im rootino { din with size := (din.size / BSIZE + 1) * BSIZE }
    balloc im im.freeblock
  else none

/-! ## Runs -/

section Yields

variable {α β : Type} {p : Option α} {f : α → Option β} {fits fits' : Prop} {Q : α → Prop} {R : β → Prop}

/-- If the run does not die its result has `Q`, and if `fits` it does not die. -/
def Yields (p : Option α) (fits : Prop) (Q : α → Prop) : Prop := (∀ x, p = some x → Q x) ∧ (fits → ∃ x, p = some x)

theorem Yields.pure {x : α} (h : Q x) : Yields (some x) fits Q := by
  refine ⟨fun y hy => ?_, fun _ => ⟨x, rfl⟩⟩
  rw [← Option.some_inj.mp hy]
  exact h

theorem Yields.fail (h : ¬ fits) : Yields (none : Option α) fits Q := ⟨nofun, fun hf => absurd hf h⟩

theorem Yields.mono {Q' : α → Prop} (h : Yields p fits Q) (hfits : fits' → fits) (hQ : ∀ x, Q x → Q' x) : Yields p fits' Q' :=
  ⟨fun x hx => hQ x (h.1 x hx), fun hf => h.2 (hfits hf)⟩

theorem Yields.bind (h : Yields p fits Q) (hf : ∀ x, Q x → Yields (f x) fits R) : Yields (p >>= f) fits R := by
  refine ⟨fun y hy => ?_, fun hfit => ?_⟩
  · obtain ⟨x, hx, hy⟩ := Option.bind_eq_some_iff.mp hy
    exact (hf x (h.1 x hx)).1 y hy
  · obtain ⟨x, hx⟩ := h.2 hfit
    obtain ⟨y, hy⟩ := (hf x (h.1 x hx)).2 hfit
    exact ⟨y, Option.bind_eq_some_iff.mpr ⟨x, hx, hy⟩⟩

theorem Yields.rsect {im : Image} {sec : ℕ} (h : fits → sec < FSSIZE) :
    Yields (rsect im sec) fits fun data => data = im.sect sec ∧ sec < FSSIZE := by
  unfold Mkfs.rsect
  split_ifs with hlt
  · exact Yields.pure ⟨rfl, hlt⟩
  · exact Yields.fail fun hf => hlt (h hf)

end Yields

/-! ## The sectors -/

/-- The type of inode `n` when the first `k` inodes have been given out. -/
def typeAt (k n : ℕ) : ℤ := if n = 0 ∨ k ≤ n then 0 else if n = ROOTINO then T_DIR else T_FILE

/-- How many inodes the blocks of inodes have room for; `mkfs` does not stop at `NINODES`. -/
def ninum : ℕ := ninodeblocks * IPB

theorem inum_iff {n : ℕ} : mkfsSb.Inum n ↔ n < ninum := by
  simp only [Superblock.Inum, Superblock.iblock, mkfsSb, ninum, ninodeblocks, IPB, NINODES, BSIZE]
  omega

/-- The sectors, with the inodes `ino`.  File `n` has the bytes `bytes n` and the blocks `ref 0`, …, `ref (used n - 1)`; blocks have been
given out in order. -/
structure Laid (im : Image) (ino : ℕ → Inode) (bytes : ℕ → List UInt8) (used : ℕ → ℕ) : Prop where
  inodes : im.freeinode ≤ ninum
  type : ∀ n, mkfsSb.Inum n → (ino n).type = typeAt im.freeinode n
  fits : ∀ n, (ino n).Fits
  zero : ∀ b, im.freeblock ≤ b → im.sect b = fun _ => 0
  sep : Sep (fun b => nmeta ≤ b ∧ b < im.freeblock) (refs mkfsSb im.sect ino)
  onto : ∀ b, nmeta ≤ b → b < im.freeblock → ∃ r, refs mkfsSb im.sect ino r = b
  contents : ∀ n, Live mkfsSb ino n → ∀ i, content im.sect (ino n) i = (bytes n).getD i 0
  blocks : ∀ n, Live mkfsSb ino n → ∀ k, ref im.sect (ino n) k ≠ 0 ↔ k < used n
  count : im.freeblock = nmeta + ∑ n ∈ Finset.range im.freeinode, used n

variable {im im' : Image} {ino ino' : ℕ → Inode} {bytes : ℕ → List UInt8} {used : ℕ → ℕ} {n k b top : ℕ}
  {ip din : Inode} {p : List UInt8} {fits : Prop}

theorem live_iff (h : Laid im ino bytes used) : Live mkfsSb ino n ↔ 0 < n ∧ n < im.freeinode := by
  have hle := h.inodes
  have hT : T_DIR ≠ 0 ∧ T_FILE ≠ 0 := by decide
  constructor
  · rintro ⟨hn, ht⟩
    rw [h.type n hn, typeAt] at ht
    split_ifs at ht with hc
    all_goals first | exact absurd rfl ht | omega
  · intro hn
    have hlt : mkfsSb.Inum n := inum_iff.mpr (by omega)
    refine ⟨hlt, ?_⟩
    rw [h.type n hlt, typeAt, if_neg (by omega)]
    split_ifs
    · exact hT.1
    · exact hT.2

theorem Laid.nmeta_le (h : Laid im ino bytes used) : nmeta ≤ im.freeblock := by
  rw [h.count]
  exact Nat.le_add_right ..

/-- The next block is given to file `n`. -/
theorem Laid.hang {sect' : ℕ → Block} (h : Laid im ino bytes used)
    (hh : Hung (fun b => nmeta ≤ b ∧ b < im.freeblock) mkfsSb im.sect ino n (used n) im.freeblock ip sect') (hfits : ip.Fits)
    (hzero : ∀ b, im.freeblock < b → sect' b = im.sect b) :
    Laid ⟨sect', im.freeinode, im.freeblock + 1⟩ (update ino n ip) bytes (update used n (used n + 1)) where
  inodes := h.inodes
  type := by
    intro m hm
    by_cases hmn : m = n
    · rw [hmn, update_self, hh.fields]
      exact h.type n (hmn ▸ hm)
    · rw [update_of_ne hmn]
      exact h.type m hm
  fits := by
    intro m
    by_cases hmn : m = n
    · rw [hmn, update_self]
      exact hfits
    · rw [update_of_ne hmn]
      exact h.fits m
  zero := by
    intro b hb
    exact (hzero b hb).trans (h.zero b (Nat.le_of_succ_le hb))
  sep := by
    rw [hh.refs_eq h.sep]
    have := h.nmeta_le
    refine h.sep.set hh.new fun x hx => ?_
    show nmeta ≤ x ∧ x < im.freeblock + 1
    omega
  onto := by
    intro b hb hlt
    rw [hh.refs_eq h.sep]
    by_cases hnew : b = im.freeblock
    · exact ⟨(n, used n), by rw [update_self, hnew]⟩
    · obtain ⟨r, hr⟩ := h.onto b hb (lt_of_le_of_ne (Nat.le_of_lt_succ hlt) hnew)
      refine ⟨r, ?_⟩
      rw [update_of_ne, hr]
      rintro rfl
      rw [refs_of_live hh.live, hh.none] at hr
      have : 0 < nmeta := by decide
      omega
  contents := by
    intro m hm i
    have hm' := hh.live_iff.mp hm
    rw [hh.content_eq h.sep hm']
    exact h.contents m hm' i
  blocks := by
    intro m hm k
    have hm' := hh.live_iff.mp hm
    by_cases hmn : m = n
    · subst hmn
      rw [update_self, update_self, hh.ref]
      have hused := h.blocks m hm' k
      by_cases hk : k = used m
      · have := h.nmeta_le
        have : 0 < nmeta := by decide
        rw [hk, update_self]
        omega
      · rw [update_of_ne hk, hused]
        omega
    · rw [update_of_ne hmn, update_of_ne hmn, hh.ref_of_ne h.sep hm' hmn]
      exact h.blocks m hm' k
  count := by
    have hn := (live_iff h).mp hh.live
    have hsum := Tally.sum_change (g := update used n (used n + 1)) (Finset.mem_range.mpr hn.2) fun m _ hm => update_of_ne hm ..
    rw [update_self] at hsum
    show im.freeblock + 1 = nmeta + ∑ m ∈ Finset.range im.freeinode, update used n (used n + 1) m
    rw [h.count]
    omega

theorem wsect_of_ne {sec : ℕ} {data : Block} (h : b ≠ sec) : (wsect im sec data).sect b = im.sect b := update_of_ne h ..

/-! ## `iappend` -/

/-- How many blocks a file has when `c` of them hold its bytes. -/
def blocksFor (c : ℕ) : ℕ := if c ≤ NDIRECT then c else c + 1

/-- File `n` has been given blocks, so that it has `top` at least; its inode is `din`. -/
structure Step (im : Image) (ino : ℕ → Inode) (bytes : ℕ → List UInt8) (used : ℕ → ℕ) (n top : ℕ) (din : Inode) (im' : Image) : Prop where
  laid : Laid im' (update ino n din) bytes (update used n (max (used n) top))
  fields : din = (ino n).withAddrs din.addrs
  frame : ∀ b < nmeta, im'.sect b = im.sect b
  freeinode : im'.freeinode = im.freeinode

theorem Step.refl (h : Laid im ino bytes used) (htop : top ≤ used n) : Step im ino bytes used n top (ino n) im := by
  refine ⟨?_, rfl, fun _ _ => rfl, rfl⟩
  rwa [update_eq_self, Nat.max_eq_left htop, update_eq_self]

theorem Step.freeblock (hs : Step im ino bytes used n top din im') (h : Laid im ino bytes used)
    (hn : Live mkfsSb ino n) : im'.freeblock + used n = im.freeblock + max (used n) top := by
  have hsum := Tally.sum_change (g := update used n (max (used n) top)) (Finset.mem_range.mpr ((live_iff h).mp hn).2)
    fun m _ hm => update_of_ne hm ..
  rw [update_self] at hsum
  rw [hs.laid.count, h.count, hs.freeinode]
  omega

theorem Laid.addrAt {i a : ℕ} (h : Laid im ino bytes used) (hn : Live mkfsSb ino n) (hi : i ≤ NDIRECT)
    (hle : i ≤ used n) (hfree : im.freeblock ≤ FSSIZE) (he : addrAt im (ino n) i = (a, din, im')) :
    Step im ino bytes used n (i + 1) din im' ∧ a = din.addrs i ∧ im'.sect = im.sect ∧ (a < FSSIZE → im'.freeblock ≤ FSSIZE) := by
  have hpos : 0 < im.freeblock := lt_of_lt_of_le (by decide) h.nmeta_le
  have href : ref im.sect (ino n) i = (ino n).addrs i := if_pos hi
  have hblocks := h.blocks n hn i
  rw [href] at hblocks
  unfold Mkfs.addrAt at he
  by_cases h0 : (ino n).addrs i = 0
  · have hused : used n = i := by
      rw [h0] at hblocks
      omega
    have hnew : ref im.sect ((ino n).setAddr i im.freeblock) = update (ref im.sect (ino n)) i im.freeblock := by
      rcases Nat.lt_or_eq_of_le hi with hlt | rfl
      · exact ref_setAddr hlt
      · exact ref_setAddr_indirect h0 (h.zero _ le_rfl)
    have hlt : im.freeblock < 2 ^ 32 := lt_of_le_of_lt hfree (by decide)
    have hhung : Hung (fun b => nmeta ≤ b ∧ b < im.freeblock) mkfsSb im.sect ino n (used n) im.freeblock
        ((ino n).setAddr i im.freeblock) im.sect :=
      ⟨hn, fun hc => lt_irrefl _ hc.2, by rw [hused, href, h0], rfl, by rw [hused]; exact hnew, fun _ _ _ => rfl, h.zero _ le_rfl⟩
    rw [if_pos h0] at he
    obtain ⟨rfl, rfl, rfl⟩ : im.freeblock = a ∧ (ino n).setAddr i im.freeblock = din ∧
        ({ im with freeblock := im.freeblock + 1 } : Image) = im' := by simpa using he
    refine ⟨⟨?_, rfl, fun _ _ => rfl, rfl⟩, Inode.setAddr_self.symm, rfl, fun hlt => hlt⟩
    have hmax : max (used n) (i + 1) = used n + 1 := by omega
    rw [hmax]
    exact h.hang hhung ((h.fits n).setAddr hi hlt) fun _ _ => rfl
  · rw [if_neg h0] at he
    obtain ⟨rfl, rfl, rfl⟩ : (ino n).addrs i = a ∧ ino n = din ∧ im = im' := by simpa using he
    exact ⟨Step.refl h (hblocks.mp h0), rfl, rfl, fun _ => hfree⟩

/-- **The block** that `iappend` writes to. -/
theorem Yields.blockAt {fbn : ℕ} (h : Laid im ino bytes used) (hn : Live mkfsSb ino n) (hfbn : fbn < MAXFILE)
    (hle : blocksFor fbn ≤ used n) (hfree : im.freeblock ≤ FSSIZE) :
    Yields (blockAt im (ino n) fbn) (im.freeblock + max (used n) (blocksFor (fbn + 1)) ≤ FSSIZE + used n) fun r =>
      Step im ino bytes used n (blocksFor (fbn + 1)) r.2.1 r.2.2 ∧ r.1 = blk r.2.2.sect r.2.1 fbn ∧
        (r.1 < FSSIZE → r.2.2.freeblock ≤ FSSIZE) := by
  unfold Mkfs.blockAt
  by_cases hdir : fbn < NDIRECT
  · have hkey : key fbn = fbn := if_pos hdir
    have hb : blocksFor (fbn + 1) = fbn + 1 := if_pos (by omega)
    have hb' : blocksFor fbn = fbn := if_pos (by omega)
    obtain ⟨⟨a, din, im'⟩, he⟩ : ∃ r, addrAt im (ino n) fbn = r := ⟨_, rfl⟩
    obtain ⟨hstep, haddr, -, hroom⟩ := h.addrAt hn hdir.le (hb' ▸ hle) hfree he
    rw [if_pos hdir, hb, he]
    refine Yields.pure ⟨hstep, ?_, hroom⟩
    rw [haddr, blk, hkey, ref, if_pos hdir.le]
  · have hkey : key fbn = NDIRECT + 1 + (fbn - NDIRECT) := by
      rw [key, if_neg hdir]
      omega
    have hj : fbn - NDIRECT < NINDIRECT := by
      have : MAXFILE = NDIRECT + NINDIRECT := rfl
      omega
    have hb : blocksFor (fbn + 1) = key fbn + 1 := by
      rw [blocksFor, if_neg (by omega), key, if_neg hdir]
    have hb' : NDIRECT ≤ used n ∧ (fbn = NDIRECT ∨ key fbn ≤ used n) := by
      unfold blocksFor at hle
      rw [key, if_neg hdir]
      split_ifs at hle <;> omega
    obtain ⟨⟨ind, din, im1⟩, he⟩ : ∃ r, addrAt im (ino n) NDIRECT = r := ⟨_, rfl⟩
    obtain ⟨hstep, haddr, hsect, hroom⟩ := h.addrAt hn le_rfl hb'.1 hfree he
    have hself : update ino n din n = din := update_self ..
    have hn₁ : Live mkfsSb (update ino n din) n := by
      refine ⟨hn.1, ?_⟩
      rw [hself, hstep.fields]
      exact hn.2
    have hblocks := hstep.laid.blocks n hn₁
    rw [hself, update_self] at hblocks
    have hind0 : din.addrs NDIRECT ≠ 0 := by
      rw [← ref_indirect im1.sect, hblocks]
      omega
    have hind : nmeta ≤ ind ∧ ind < im1.freeblock := by
      have hok := ref_ok (k := NDIRECT) hstep.laid.sep hn₁ (by rw [hself, ref_indirect]; exact hind0)
      rwa [hself, ref_indirect, ← haddr] at hok
    have href : ref im1.sect din (key fbn) = entry (im1.sect ind) (fbn - NDIRECT) := by
      have hsub : NDIRECT + 1 + (fbn - NDIRECT) - NDIRECT - 1 = fbn - NDIRECT := by omega
      rw [hkey, ref, if_neg (by omega), if_neg (by simp only [hind0, false_or]; omega), hsub, haddr]
    have hcount := hstep.freeblock h hn
    rw [if_neg hdir, he, hb]
    dsimp only
    refine Yields.bind (Yields.rsect fun hfits => by omega) ?_
    rintro data ⟨rfl, hlt⟩
    have hfree1 := hroom hlt
    by_cases h0 : entry (im1.sect ind) (fbn - NDIRECT) = 0
    · -- a block for the entry
      have hused : update used n (max (used n) (NDIRECT + 1)) n = key fbn := by
        have hnot := hblocks (key fbn)
        rw [href, h0] at hnot
        rw [update_self]
        omega
      have hnew : ref (update im1.sect ind (setEntry (im1.sect ind) (fbn - NDIRECT) im1.freeblock)) din =
          update (ref im1.sect din) (key fbn) im1.freeblock := by
        rw [hkey]
        refine ref_setEntry hind0 hj (lt_of_le_of_lt hfree1 (by decide)) ?_
        rw [← haddr, update_self]
      have hhung : Hung (fun b => nmeta ≤ b ∧ b < im1.freeblock) mkfsSb im1.sect (update ino n din) n
          (update used n (max (used n) (NDIRECT + 1)) n) im1.freeblock din
          (update im1.sect ind (setEntry (im1.sect ind) (fbn - NDIRECT) im1.freeblock)) := by
        refine ⟨hn₁, fun hc => lt_irrefl _ hc.2, ?_, ?_, ?_, fun x _ hx => ?_, ?_⟩
        · rw [hself, hused, href, h0]
        · rw [hself]
          rfl
        · rw [hself, hused, hnew]
        · rw [hself, ← haddr] at hx
          exact update_of_ne hx ..
        · rw [update_of_ne (by omega)]
          exact hstep.laid.zero _ le_rfl
      have hlaid := hstep.laid.hang hhung (hself ▸ hstep.laid.fits n) fun b hb => update_of_ne (by omega) ..
      rw [update_idem, update_idem, hused] at hlaid
      rw [if_pos h0]
      refine Yields.pure ⟨⟨?_, hstep.fields, fun b hb => ?_, hstep.freeinode⟩, ?_, fun hx => hx⟩
      · have hmax : max (used n) (key fbn + 1) = key fbn + 1 := by
          rw [update_self] at hused
          omega
        rw [hmax]
        exact hlaid
      · show update im1.sect ind _ b = im.sect b
        rw [update_of_ne (by omega), hsect]
      · show im1.freeblock = ref (update im1.sect ind _) din (key fbn)
        rw [hnew, update_self]
    · have hlt : key fbn < used n := by
        have := (hblocks (key fbn)).mp (href ▸ h0)
        omega
      rw [if_neg h0]
      refine Yields.pure ⟨⟨?_, hstep.fields, hstep.frame, hstep.freeinode⟩, href.symm, fun _ => hfree1⟩
      have hmax : max (used n) (NDIRECT + 1) = max (used n) (key fbn + 1) := by omega
      rw [← hmax]
      exact hstep.laid

theorem key_lt_blocksFor (fbn : ℕ) : key fbn < blocksFor (fbn + 1) := by
  unfold key blocksFor
  split_ifs <;> omega

/-- The blocks that bytes need. -/
def nblk (len : ℕ) : ℕ := (len + BSIZE - 1) / BSIZE

theorem nblk_mono {l l' : ℕ} (h : l ≤ l') : nblk l ≤ nblk l' := by
  simp only [nblk, BSIZE]
  omega

theorem blocksFor_mono {c c' : ℕ} (h : c ≤ c') : blocksFor c ≤ blocksFor c' := by
  unfold blocksFor
  split_ifs <;> omega

/-- The image, as the kernel finds it. -/
def Image.store (im : Image) : Store := ⟨im.sect, im.sect, ∅, [], fun _ => none⟩

abbrev Image.inode (im : Image) : ℕ → Inode := im.store.inode mkfsSb

/-- Bytes are appended to file `n`, in one block. -/
theorem Laid.fill {x : ℕ} {bs : List UInt8} (h : Laid im ino bytes used) (hn : Live mkfsSb ino n)
    (hx : x = blk im.sect (ino n) ((bytes n).length / BSIZE)) (h0 : x ≠ 0) (hlen : (bytes n).length % BSIZE + bs.length ≤ BSIZE) :
    Laid (wsect im x (splice (im.sect x) ((bytes n).length % BSIZE) bs)) ino (update bytes n (bytes n ++ bs)) used := by
  have hsep : Sep (fun b => nmeta ≤ b ∧ b < im.freeblock) (refs mkfsSb im.store.buf ino) := h.sep
  subst hx
  have hblk : nmeta ≤ blk im.sect (ino n) ((bytes n).length / BSIZE) ∧ blk im.sect (ino n) ((bytes n).length / BSIZE) < im.freeblock :=
    ref_ok h.sep hn h0
  have href : ∀ {m : ℕ} (data : Block), Live mkfsSb ino m →
      ref (update im.sect (blk im.sect (ino n) ((bytes n).length / BSIZE)) data) (ino m) = ref im.sect (ino m) :=
    fun data hm => ref_fillData (s := im.store) hsep hn hm
  have hrefs : ∀ data, refs mkfsSb (update im.sect (blk im.sect (ino n) ((bytes n).length / BSIZE)) data) ino =
      refs mkfsSb im.sect ino := fun data => refs_fillData (s := im.store) hsep hn
  refine ⟨h.inodes, h.type, h.fits, fun b hb => ?_, ?_, fun b hb hlt => ?_, fun m hm i => ?_, fun m hm k => ?_, h.count⟩
  · rw [← h.zero b hb]
    exact update_of_ne (by have : im.freeblock ≤ b := hb; omega) ..
  · show Sep _ (refs mkfsSb (update im.sect _ _) ino)
    rw [hrefs]
    exact h.sep
  · show ∃ r, refs mkfsSb (update im.sect _ _) ino r = b
    rw [hrefs]
    exact h.onto b hb hlt
  · by_cases hmn : m = n
    · subst hmn
      rw [update_self]
      refine (content_splice (s := im.store) hsep hn h0 hlen i).trans ?_
      by_cases hin : (bytes m).length ≤ i ∧ i < (bytes m).length + bs.length
      · rw [if_pos hin, List.getD_append_right _ _ _ _ hin.1]
      · rw [if_neg hin]
        refine (h.contents m hm i).trans ?_
        rcases Nat.lt_or_ge i (bytes m).length with hi | hi
        · rw [List.getD_append _ _ _ _ hi]
        · rw [List.getD_eq_default _ _ hi, List.getD_eq_default]
          rw [List.length_append]
          omega
    · rw [update_of_ne hmn]
      refine (congrFun (content_fillData_of_ne (s := im.store) hsep hn hm hmn) i).trans ?_
      exact h.contents m hm i
  · show ref (update im.sect _ _) (ino m) k ≠ 0 ↔ k < used m
    rw [href _ hm]
    exact h.blocks m hm k

/-- What `iappend` of `p` to file `n` has done to the blocks, with the inode that it writes then. -/
structure Appended (im : Image) (ino : ℕ → Inode) (bytes : ℕ → List UInt8) (used : ℕ → ℕ) (n : ℕ) (p : List UInt8) (din : Inode)
    (im' : Image) : Prop where
  laid : Laid im' (update ino n din) (update bytes n (bytes n ++ p))
    (update used n (blocksFor (nblk ((bytes n).length + p.length))))
  fields : din = (ino n).withAddrs din.addrs
  frame : ∀ b < nmeta, im'.sect b = im.sect b
  freeinode : im'.freeinode = im.freeinode
  free : im'.freeblock ≤ FSSIZE

theorem Appended.nil (h : Laid im ino bytes used) (hused : used n = blocksFor (nblk (bytes n).length))
    (hfree : im.freeblock ≤ FSSIZE) : Appended im ino bytes used n [] (ino n) im := by
  refine ⟨?_, rfl, fun _ _ => rfl, rfl, hfree⟩
  rw [List.append_nil, List.length_nil, Nat.add_zero, ← hused, update_eq_self, update_eq_self, update_eq_self]
  exact h

/-- Rounds, and then more rounds. -/
theorem Appended.append {q : List UInt8} {din' : Inode} {im'' : Image} (h : Appended im ino bytes used n p din im')
    (h' : Appended im' (update ino n din) (update bytes n (bytes n ++ p)) (update used n (blocksFor (nblk ((bytes n).length + p.length)))) n q
      din' im'') : Appended im ino bytes used n (p ++ q) din' im'' := by
  refine ⟨?_, ?_, fun b hb => (h'.frame b hb).trans (h.frame b hb), h'.freeinode.trans h.freeinode, h'.free⟩
  · have hlaid := h'.laid
    rw [update_idem, update_idem, update_idem, update_self, List.length_append, List.append_assoc, Nat.add_assoc] at hlaid
    rwa [List.length_append]
  · have hfields := h'.fields
    rw [update_self] at hfields
    rw [hfields, h.fields]
    rfl

/-- **The loop of `iappend`** -/
theorem Yields.iappendLoop {fuel : ℕ} (h : Laid im ino bytes used) (hn : Live mkfsSb ino n)
    (hused : used n = blocksFor (nblk (bytes n).length)) (hfree : im.freeblock ≤ FSSIZE) (hfuel : p.length ≤ fuel) :
    Yields (iappendLoop fuel im (ino n) (bytes n).length p)
      ((bytes n).length + p.length ≤ MAXFILE * BSIZE ∧
        im.freeblock + blocksFor (nblk ((bytes n).length + p.length)) ≤ FSSIZE + used n) fun r =>
      Appended im ino bytes used n p r.2.1 r.1 ∧ r.2.2 = (bytes n).length + p.length := by
  induction fuel generalizing im ino bytes used p with
  | zero =>
    obtain rfl : p = [] := List.length_eq_zero_iff.mp (by omega)
    exact Yields.pure ⟨.nil h hused hfree, rfl⟩
  | succ fuel ih =>
    unfold Mkfs.iappendLoop
    by_cases hp : p.length = 0
    · obtain rfl : p = [] := List.length_eq_zero_iff.mp hp
      exact Yields.pure ⟨.nil h hused hfree, rfl⟩
    rw [if_neg hp]
    by_cases hfbn : (bytes n).length / BSIZE < MAXFILE
    case neg =>
      rw [if_neg hfbn]
      refine Yields.fail fun hfits => hfbn ?_
      rw [Nat.div_lt_iff_lt_mul (by decide)]
      omega
    rw [if_pos hfbn]
    -- the bytes of this round
    obtain ⟨n1, hn1⟩ : ∃ n1, n1 = min p.length (((bytes n).length / BSIZE + 1) * BSIZE - (bytes n).length) := ⟨_, rfl⟩
    have hround : 0 < n1 ∧ n1 ≤ p.length ∧ (bytes n).length % BSIZE + n1 ≤ BSIZE ∧
        nblk ((bytes n).length + n1) = (bytes n).length / BSIZE + 1 ∧
        (bytes n).length / BSIZE ≤ nblk (bytes n).length ∧ nblk (bytes n).length ≤ (bytes n).length / BSIZE + 1 := by
      simp only [nblk, BSIZE] at *
      omega
    obtain ⟨hpos, hle, hin, hnblk, hlo, hhi⟩ := hround
    have htop : max (used n) (blocksFor ((bytes n).length / BSIZE + 1)) = blocksFor (nblk ((bytes n).length + n1)) := by
      rw [hnblk, hused]
      exact Nat.max_eq_right (blocksFor_mono hhi)
    have hmono : blocksFor (nblk ((bytes n).length + n1)) ≤ blocksFor (nblk ((bytes n).length + p.length)) :=
      blocksFor_mono (nblk_mono (by omega))
    refine Yields.bind ((Yields.blockAt h hn hfbn (hused ▸ blocksFor_mono hlo) hfree).mono ?_ fun _ hr => hr) ?_
    · rintro ⟨-, hfits⟩
      rw [htop]
      omega
    rintro ⟨x, din, im1⟩ ⟨hstep, hx, hroom⟩
    dsimp only at hstep hx hroom ⊢
    have hcount := hstep.freeblock h hn
    have hlaid := hstep.laid
    rw [htop] at hcount hlaid
    have hself : update ino n din n = din := update_self ..
    have hn₁ : Live mkfsSb (update ino n din) n := by
      refine ⟨hn.1, ?_⟩
      rw [hself, hstep.fields]
      exact hn.2
    have hx' : x = blk im1.sect (update ino n din n) ((bytes n).length / BSIZE) := by rw [hself, hx]
    have h0 : x ≠ 0 := by
      rw [hx', blk, hlaid.blocks n hn₁, update_self, hnblk]
      exact key_lt_blocksFor _
    have hxlt : nmeta ≤ x ∧ x < im1.freeblock := by
      rw [hx'] at h0 ⊢
      exact ref_ok hlaid.sep hn₁ h0
    refine Yields.bind (Yields.rsect fun hfits => by omega) ?_
    rintro data ⟨rfl, hlt⟩
    have hmod : (bytes n).length - (bytes n).length / BSIZE * BSIZE = (bytes n).length % BSIZE := by
      simp only [BSIZE]
      omega
    have htake : (p.take n1).length = n1 := by
      rw [List.length_take]
      omega
    have hdrop : (p.drop n1).length = p.length - n1 := List.length_drop
    rw [← hn1, hmod]
    have hlen : (bytes n).length % BSIZE + (p.take n1).length ≤ BSIZE := by omega
    have hfill := hlaid.fill hn₁ hx' h0 hlen
    have hround : Appended im ino bytes used n (p.take n1) din
        (wsect im1 x (splice (im1.sect x) ((bytes n).length % BSIZE) (p.take n1))) := by
      refine ⟨?_, hstep.fields, fun b hb => ?_, hstep.freeinode, hroom hlt⟩
      · rw [htake]
        exact hfill
      · exact (update_of_ne (by omega) ..).trans (hstep.frame b hb)
    have hrest := ih (p := p.drop n1) hfill hn₁ (by rw [update_self, update_self, List.length_append, htake]) (hroom hlt) (by omega)
    rw [update_self, update_self, update_self, List.length_append, htake, hdrop] at hrest
    have hsum : (bytes n).length + n1 + (p.length - n1) = (bytes n).length + p.length := by omega
    rw [hsum] at hrest
    refine hrest.mono (fun hfits => ⟨hfits.1, ?_⟩) fun r hr => ⟨?_, hr.2⟩
    · show im1.freeblock + _ ≤ _
      omega
    · rw [← List.take_append_drop n1 p]
      refine hround.append ?_
      rw [htake]
      exact hr.1

/-! ## Inodes are written -/

/-- Inodes are written whose addresses and types are as they were. -/
theorem Laid.congr (h : Laid im ino bytes used) (hsect : ∀ b, nmeta ≤ b → im'.sect b = im.sect b)
    (hfreeinode : im'.freeinode = im.freeinode) (hfreeblock : im'.freeblock = im.freeblock)
    (haddrs : ∀ m, Live mkfsSb ino m → (ino' m).addrs = (ino m).addrs) (htype : ∀ m, mkfsSb.Inum m → (ino' m).type = (ino m).type)
    (hfits : ∀ m, (ino' m).Fits) : Laid im' ino' bytes used := by
  have hlive : ∀ m, Live mkfsSb ino' m ↔ Live mkfsSb ino m := fun m => and_congr_right fun hm => by rw [htype m hm]
  have hind : ∀ m, Live mkfsSb ino m → (ino m).addrs NDIRECT ≠ 0 →
      im'.sect ((ino m).addrs NDIRECT) = im.sect ((ino m).addrs NDIRECT) := by
    intro m hm h0
    rw [← ref_indirect im.sect] at h0 ⊢
    exact hsect _ (ref_ok h.sep hm h0).1
  have href : ∀ m, Live mkfsSb ino m → ref im'.sect (ino' m) = ref im.sect (ino m) := fun m hm => ref_congr (haddrs m hm) (hind m hm)
  have hrefs : refs mkfsSb im'.sect ino' = refs mkfsSb im.sect ino := refs_congr hlive href
  refine ⟨by rw [hfreeinode]; exact h.inodes, fun m hm => ?_, hfits, fun b hb => ?_, ?_, ?_, fun m hm i => ?_, fun m hm k => ?_, ?_⟩
  · rw [htype m hm, hfreeinode]
    exact h.type m hm
  · rw [hfreeblock] at hb
    rw [hsect b (h.nmeta_le.trans hb)]
    exact h.zero b hb
  · rw [hrefs, hfreeblock]
    exact h.sep
  · rw [hrefs, hfreeblock]
    exact h.onto
  · have hm' := (hlive m).mp hm
    rw [content_congr (haddrs m hm') (hind m hm') fun bn h0 => hsect _ (ref_ok h.sep hm' h0).1]
    exact h.contents m hm' i
  · have hm' := (hlive m).mp hm
    rw [href m hm']
    exact h.blocks m hm' k
  · rw [hfreeblock, hfreeinode]
    exact h.count

/-- The sectors between two calls of `iappend`: the inodes are those of their blocks, with the sizes of the files and a link. -/
structure Rest (im : Image) (bytes : ℕ → List UInt8) : Prop where
  laid : Laid im (im.inode) bytes fun n => blocksFor (nblk (bytes n).length)
  size : ∀ n, Live mkfsSb (im.inode) n → (im.inode n).size = (bytes n).length
  nlink : ∀ n, Live mkfsSb (im.inode) n → (im.inode n).nlink = 1
  free : im.freeblock ≤ FSSIZE
  super : im.sect 1 = splice (fun _ => 0) 0 sbBytes

theorem iblock_lt (hn : mkfsSb.Inum n) : 1 < mkfsSb.iblock n ∧ mkfsSb.iblock n < nmeta ∧ mkfsSb.iblock n < FSSIZE := by
  simp only [Superblock.Inum, Superblock.iblock, mkfsSb, NINODES, FSSIZE, nmeta, nlog, ninodeblocks, nbitmap, LOGSIZE, MAXOPBLOCKS, IPB, BSIZE] at *
  omega

theorem Laid.length_le (h : Laid im ino bytes used) (hn : Live mkfsSb ino n) (hused : used n = blocksFor (nblk (bytes n).length)) :
    (bytes n).length ≤ MAXFILE * BSIZE := by
  -- the last reference is not 0
  by_contra hlt
  have hblk : MAXFILE ≤ nblk (bytes n).length - 1 := by
    simp only [nblk, MAXFILE, NDIRECT, NINDIRECT, BSIZE] at *
    omega
  have hkey := key_lt_blocksFor (nblk (bytes n).length - 1)
  have hone : nblk (bytes n).length - 1 + 1 = nblk (bytes n).length := by
    have : 0 < MAXFILE := by decide
    omega
  rw [hone, ← hused] at hkey
  exact (h.blocks n hn _).mpr hkey (blk_of_ge hblk)

/-- `winode` of the inode of file `n`, with the other inodes as they are in their blocks. -/
theorem Yields.winode {d : Inode} (hn : mkfsSb.Inum n) (hd : d.Fits) :
    Yields (winode im n d) fits fun im' => im'.inode = update (im.inode) n d ∧
      (∀ b, b ≠ mkfsSb.iblock n → im'.sect b = im.sect b) ∧ im'.freeinode = im.freeinode ∧ im'.freeblock = im.freeblock := by
  refine Yields.bind (Yields.rsect fun _ => (iblock_lt hn).2.2) ?_
  rintro data ⟨rfl, -⟩
  refine Yields.pure ⟨?_, fun b hb => update_of_ne hb .., rfl, rfl⟩
  exact Store.inode_iupdate (s := im.store) hd

/-- The blocks that files need, with the metadata. -/
def need (k : ℕ) (bytes : ℕ → List UInt8) : ℕ := nmeta + ∑ n ∈ Finset.range k, blocksFor (nblk (bytes n).length)

/-- **`iappend`** appends to a file. -/
theorem Yields.iappend (h : Rest im bytes) (hn : 0 < n ∧ n < im.freeinode) :
    Yields (iappend im n p) ((bytes n).length + p.length ≤ MAXFILE * BSIZE ∧
      need im.freeinode (update bytes n (bytes n ++ p)) ≤ FSSIZE) fun im' =>
      Rest im' (update bytes n (bytes n ++ p)) ∧ im'.freeinode = im.freeinode := by
  have hlive : Live mkfsSb (im.inode) n := (live_iff h.laid).mpr hn
  have hused : (fun m => blocksFor (nblk (update bytes n (bytes n ++ p) m).length)) =
      update (fun m => blocksFor (nblk (bytes m).length)) n (blocksFor (nblk ((bytes n).length + p.length))) := by
    funext m
    by_cases hm : m = n
    · rw [hm, update_self, update_self, List.length_append]
    · rw [update_of_ne hm, update_of_ne hm]
  refine Yields.bind (Yields.bind (Yields.rsect fun _ => (iblock_lt hlive.1).2.2) ?_ : Yields _ _ fun din => din = im.inode n) ?_
  · rintro data ⟨rfl, -⟩
    exact Yields.pure rfl
  rintro din rfl
  rw [h.size n hlive]
  refine Yields.bind ((Yields.iappendLoop h.laid hlive rfl h.free le_rfl).mono (fun hfits => ⟨hfits.1, ?_⟩) fun _ hr => hr) ?_
  · have hsum := Tally.sum_change (f := fun m => blocksFor (nblk (bytes m).length))
      (g := fun m => blocksFor (nblk (update bytes n (bytes n ++ p) m).length)) (Finset.mem_range.mpr hn.2) fun m _ hm => by
        rw [update_of_ne hm]
    have hneed := hfits.2
    have hcount := h.laid.count
    rw [update_self, List.length_append] at hsum
    unfold need at hneed
    omega
  rintro ⟨im1, din, off⟩ ⟨happ, hoff⟩
  dsimp only at happ hoff ⊢
  subst hoff
  have hlaid := happ.laid
  have hself : update (im.inode) n din n = din := update_self ..
  have hn₁ : Live mkfsSb (update (im.inode) n din) n := (live_iff hlaid).mpr (by rw [happ.freeinode]; exact hn)
  have hlen := hlaid.length_le hn₁ (by rw [update_self, update_self, List.length_append])
  rw [update_self, List.length_append] at hlen
  have hdin := hself ▸ hlaid.fits n
  have hfits : ({ din with size := (bytes n).length + p.length } : Inode).Fits :=
    ⟨hdin.type, hdin.major, hdin.minor, hdin.nlink, lt_of_le_of_lt hlen (by decide), hdin.addrs, hdin.beyond⟩
  have hino1 : ∀ m, mkfsSb.Inum m → im1.inode m = im.inode m := by
    intro m hm
    show getInode (im1.sect _) _ = getInode (im.sect _) _
    rw [happ.frame _ (iblock_lt hm).2.1]
  refine (Yields.winode hlive.1 hfits).mono id ?_
  rintro im2 ⟨hino, hsect, hfreeinode, hfreeblock⟩
  have hlaid2 : Laid im2 (im2.inode) (update bytes n (bytes n ++ p))
      (update (fun m => blocksFor (nblk (bytes m).length)) n (blocksFor (nblk ((bytes n).length + p.length)))) := by
    refine hlaid.congr (fun b hb => hsect b ?_) hfreeinode hfreeblock (fun m hm => ?_) (fun m hm => ?_) fun m => Store.fits_inode ..
    · have := (iblock_lt hlive.1).2.1
      omega
    · rw [hino]
      by_cases hmn : m = n
      · rw [hmn, update_self, update_self]
      · rw [update_of_ne hmn, update_of_ne hmn, hino1 m hm.1]
    · rw [hino]
      by_cases hmn : m = n
      · rw [hmn, update_self, update_self]
      · rw [update_of_ne hmn, update_of_ne hmn, hino1 m hm]
  have hold : ∀ m, Live mkfsSb (im2.inode) m → Live mkfsSb (im.inode) m := by
    intro m hm
    have := (live_iff hlaid2).mp hm
    rw [hfreeinode, happ.freeinode] at this
    exact (live_iff h.laid).mpr this
  refine ⟨⟨by rw [hused]; exact hlaid2, fun m hm => ?_, fun m hm => ?_, by rw [hfreeblock]; exact happ.free, ?_⟩,
    hfreeinode.trans happ.freeinode⟩
  · rw [hino]
    by_cases hmn : m = n
    · rw [hmn, update_self, update_self, List.length_append]
    · rw [update_of_ne hmn, update_of_ne hmn, hino1 m hm.1]
      exact h.size m (hold m hm)
  · rw [hino]
    by_cases hmn : m = n
    · rw [hmn, update_self, happ.fields]
      exact h.nlink n hlive
    · rw [update_of_ne hmn, hino1 m hm.1]
      exact h.nlink m (hold m hm)
  · have := (iblock_lt hlive.1).1
    rw [hsect 1 (by omega), happ.frame 1 (by decide)]
    exact h.super

theorem ref_of_addrs_zero {sect : ℕ → Block} (h : ∀ i, ip.addrs i = 0) (k : ℕ) : ref sect ip k = 0 := by
  unfold ref
  rw [h NDIRECT]
  simp [h k]

theorem typeAt_succ (hk : n < k) : typeAt (k + 1) n = typeAt k n := by
  unfold typeAt
  have hiff : n = 0 ∨ k + 1 ≤ n ↔ n = 0 ∨ k ≤ n := by omega
  simp only [hiff]

/-- The next inode is given out, without blocks. -/
theorem Laid.newInode (h : Laid im ino bytes used) (hk : im.freeinode < ninum) (hpos : 0 < im.freeinode)
    (hsect : ∀ b, nmeta ≤ b → im'.sect b = im.sect b) (hfreeinode : im'.freeinode = im.freeinode + 1)
    (hfreeblock : im'.freeblock = im.freeblock) (hfits : ip.Fits) (haddrs : ∀ i, ip.addrs i = 0)
    (htype : ip.type = if im.freeinode = ROOTINO then T_DIR else T_FILE) :
    Laid im' (update ino im.freeinode ip) (update bytes im.freeinode []) (update used im.freeinode 0) := by
  have hnew : ¬ Live mkfsSb ino im.freeinode := fun hc => lt_irrefl _ ((live_iff h).mp hc).2
  have htypes : ∀ m, mkfsSb.Inum m → (update ino im.freeinode ip m).type = typeAt im'.freeinode m := by
    intro m hm
    rw [hfreeinode]
    by_cases hmk : m = im.freeinode
    · have hno : ¬ (im.freeinode = 0 ∨ im.freeinode + 1 ≤ im.freeinode) := by omega
      rw [hmk, update_self, htype, typeAt, if_neg hno]
    · rw [update_of_ne hmk, h.type m hm]
      rcases Nat.lt_or_gt_of_ne hmk with hlt | hgt
      · exact (typeAt_succ hlt).symm
      · rw [typeAt, typeAt, if_pos (.inr hgt.le), if_pos (.inr hgt)]
  have hlive : ∀ m, m ≠ im.freeinode → (Live mkfsSb (update ino im.freeinode ip) m ↔ Live mkfsSb ino m) := by
    intro m hm
    rw [Live, Live, update_of_ne hm]
  have hind : ∀ m, Live mkfsSb ino m → (ino m).addrs NDIRECT ≠ 0 →
      im'.sect ((ino m).addrs NDIRECT) = im.sect ((ino m).addrs NDIRECT) := by
    intro m hm h0
    rw [← ref_indirect im.sect] at h0 ⊢
    exact hsect _ (ref_ok h.sep hm h0).1
  have href : ∀ m, Live mkfsSb ino m → ref im'.sect (ino m) = ref im.sect (ino m) := fun m hm => ref_congr rfl (hind m hm)
  have hrefs : refs mkfsSb im'.sect (update ino im.freeinode ip) = refs mkfsSb im.sect ino := by
    funext x
    obtain ⟨m, k⟩ := x
    by_cases hmk : m = im.freeinode
    · subst hmk
      rw [refs_of_not_live hnew, refs, update_self, ref_of_addrs_zero haddrs, ite_self]
    · by_cases hm : Live mkfsSb ino m
      · rw [refs_of_live hm, refs_of_live ((hlive m hmk).mpr hm), update_of_ne hmk, href m hm]
      · rw [refs_of_not_live hm, refs_of_not_live fun hc => hm ((hlive m hmk).mp hc)]
  refine ⟨by omega, htypes, fun m => ?_, fun b hb => ?_, ?_, ?_, fun m hm i => ?_, fun m hm k => ?_, ?_⟩
  · by_cases hmk : m = im.freeinode
    · rw [hmk, update_self]
      exact hfits
    · rw [update_of_ne hmk]
      exact h.fits m
  · rw [hfreeblock] at hb
    rw [hsect b (h.nmeta_le.trans hb)]
    exact h.zero b hb
  · rw [hrefs, hfreeblock]
    exact h.sep
  · rw [hrefs, hfreeblock]
    exact h.onto
  · by_cases hmk : m = im.freeinode
    · rw [hmk, update_self, update_self, content, blk, ref_of_addrs_zero haddrs, if_pos rfl]
      rfl
    · have hm' := (hlive m hmk).mp hm
      rw [update_of_ne hmk, update_of_ne hmk, content_congr rfl (hind m hm') fun bn h0 => hsect _ (ref_ok h.sep hm' h0).1]
      exact h.contents m hm' i
  · by_cases hmk : m = im.freeinode
    · rw [hmk, update_self, update_self, ref_of_addrs_zero haddrs]
      omega
    · have hm' := (hlive m hmk).mp hm
      rw [update_of_ne hmk, update_of_ne hmk, href m hm']
      exact h.blocks m hm' k
  · have hsum : ∑ m ∈ Finset.range im.freeinode, update used im.freeinode 0 m = ∑ m ∈ Finset.range im.freeinode, used m :=
      Finset.sum_congr rfl fun m hm => update_of_ne (Finset.mem_range.mp hm).ne ..
    rw [hfreeblock, hfreeinode, Finset.sum_range_succ, update_self, hsum, h.count, Nat.add_zero]

/-- **`ialloc`** gives out the next inode. -/
theorem Yields.ialloc {type : ℤ} (h : Rest im bytes) (hk : im.freeinode < ninum) (hpos : 0 < im.freeinode)
    (htype : type = if im.freeinode = ROOTINO then T_DIR else T_FILE) :
    Yields (ialloc im type) fits fun r =>
      r.1 = im.freeinode ∧ Rest r.2 (update bytes im.freeinode []) ∧ r.2.freeinode = im.freeinode + 1 := by
  have hshort : -2 ^ 15 ≤ type ∧ type < 2 ^ 15 := by
    rw [htype]
    split_ifs <;> decide
  have hzero : -2 ^ 15 ≤ (0 : ℤ) ∧ (0 : ℤ) < 2 ^ 15 := by decide
  have hone : -2 ^ 15 ≤ (1 : ℤ) ∧ (1 : ℤ) < 2 ^ 15 := by decide
  have hfits : ({ Inode.zero with type := type, nlink := 1 } : Inode).Fits :=
    ⟨hshort, hzero, hzero, hone, Nat.two_pow_pos 32, fun _ => Nat.two_pow_pos 32, fun _ _ => rfl⟩
  refine Yields.bind (Yields.winode (inum_iff.mpr hk) hfits) ?_
  rintro im1 ⟨hino, hsect, hfreeinode, hfreeblock⟩
  have hiblock := iblock_lt (inum_iff.mpr hk)
  have hlaid : Laid im1 (im1.inode) (update bytes im.freeinode [])
      (update (fun n => blocksFor (nblk (bytes n).length)) im.freeinode 0) := by
    rw [hino]
    exact h.laid.newInode hk hpos (fun b hb => hsect b (by omega)) hfreeinode hfreeblock hfits (fun _ => rfl) htype
  have hused : (fun m => blocksFor (nblk (update bytes im.freeinode [] m).length)) =
      update (fun m => blocksFor (nblk (bytes m).length)) im.freeinode 0 := by
    funext m
    by_cases hm : m = im.freeinode
    · rw [hm, update_self, update_self]
      rfl
    · rw [update_of_ne hm, update_of_ne hm]
  have hold : ∀ m ≠ im.freeinode, Live mkfsSb (im1.inode) m → Live mkfsSb (im.inode) m := by
    intro m hmk hm
    have hlt := (live_iff hlaid).mp hm
    rw [hfreeinode] at hlt
    exact (live_iff h.laid).mpr ⟨hlt.1, by dsimp only at hlt; omega⟩
  refine Yields.pure ⟨rfl, ⟨by rw [hused]; exact hlaid, fun m hm => ?_, fun m hm => ?_, by rw [hfreeblock]; exact h.free, ?_⟩, hfreeinode⟩
  · rw [hino]
    by_cases hmk : m = im.freeinode
    · rw [hmk, update_self, update_self]
      rfl
    · rw [update_of_ne hmk, update_of_ne hmk]
      exact h.size m (hold m hmk hm)
  · rw [hino]
    by_cases hmk : m = im.freeinode
    · rw [hmk, update_self]
    · rw [update_of_ne hmk]
      exact h.nlink m (hold m hmk hm)
  · rw [hsect 1 (by omega)]
    exact h.super

end Xv6Mlfq.Mkfs
