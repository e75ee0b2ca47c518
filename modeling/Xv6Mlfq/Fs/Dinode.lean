import Xv6Mlfq.Fs.Bmap

/-!
# Xv6Mlfq.Fs.Dinode — inodes in their blocks

An inode is read back from its block as `iupdate` has written it (`Store.inode_iupdate`), and the other inodes of the block are as they
were.
-/

namespace Xv6Mlfq.Vol

open Bytes Function
open Files (BSIZE NDIRECT NINDIRECT MAXFILE toShort)

variable {sb : Superblock} {s : Store} {n m j k : ℕ} {d : Inode} {data : Block} {x : ℤ}

theorem toShort_of_fits (h : -2 ^ 15 ≤ x ∧ x < 2 ^ 15) : toShort ((x % 2 ^ 16).toNat : ℕ) = x := by
  unfold toShort
  omega

theorem toShort_range (x : ℤ) : -2 ^ 15 ≤ toShort x ∧ toShort x < 2 ^ 15 := by
  unfold toShort
  omega

theorem getInode_fits (data : Block) (k : ℕ) : (getInode data k).Fits := by
  refine ⟨toShort_range _, toShort_range _, toShort_range _, toShort_range _, leAt_lt, fun i => ?_, fun i hi => if_neg (by omega)⟩
  show (if i ≤ NDIRECT then leAt data (64 * k + 12 + 4 * i) 4 else 0) < 2 ^ 32
  split_ifs
  · exact leAt_lt
  · decide

@[simp] theorem length_shortBytes (x : ℤ) : (shortBytes x).length = 2 := length_le ..

/-- The addresses, as bytes. -/
theorem length_addrBytes : ((List.range (NDIRECT + 1)).flatMap fun i => le 4 (d.addrs i)).length = 52 := by
  simp [NDIRECT]

@[simp] theorem Inode.length_bytes (d : Inode) : d.bytes.length = 64 := by
  simp only [Inode.bytes, List.length_append, length_shortBytes, length_le, length_addrBytes]

section Fields

/-- A `short` among the bytes of an inode. -/
theorem shortAt_bytes (hx : -2 ^ 15 ≤ x ∧ x < 2 ^ 15) (pre post : List UInt8) :
    toShort (leAt (fun j => (pre ++ (shortBytes x ++ post)).getD j 0) pre.length 2 : ℕ) = x := by
  have hlt : (x % 2 ^ 16).toNat < 256 ^ 2 := by omega
  rw [shortBytes, leAt_append hlt, toShort_of_fits hx]

theorem addr_bytes (hd : d.Fits) {i : ℕ} (hi : i ≤ NDIRECT) : leAt (fun j => d.bytes.getD j 0) (12 + 4 * i) 4 = d.addrs i := by
  have hpre : (shortBytes d.type ++ shortBytes d.major ++ shortBytes d.minor ++ shortBytes d.nlink ++ le 4 d.size).length = 12 := by
    simp
  have hget : ∀ j < 4, d.bytes.getD (12 + 4 * i + j) 0 = (le 4 (d.addrs i)).getD j 0 := by
    intro j hj
    rw [Inode.bytes, List.getD_append_right _ _ _ _ (by omega), hpre]
    have hsub : 12 + 4 * i + j - 12 = 4 * i + j := by omega
    rw [hsub, getD_flatMap _ (fun _ _ => length_le ..) (by rw [List.length_range]; omega) hj]
    simp
  have hle : leAt (fun j => d.bytes.getD j 0) (12 + 4 * i) 4 = leAt (fun j => (le 4 (d.addrs i)).getD j 0) 0 4 :=
    leAt_congr fun j hj => by
      show d.bytes.getD (12 + 4 * i + j) 0 = (le 4 (d.addrs i)).getD (0 + j) 0
      rw [hget j hj, Nat.zero_add]
  have happend := leAt_append (m := 4) (hd.addrs i) [] []
  rw [List.nil_append, List.append_nil] at happend
  rw [hle]
  exact happend

end Fields

/-- An inode is read as it has been written. -/
theorem getInode_putInode (hd : d.Fits) : getInode (putInode data k d) k = d := by
  have hat : ∀ i m, i + m ≤ 64 → leAt (putInode data k d) (64 * k + i) m = leAt (fun j => d.bytes.getD j 0) i m := by
    intro i m h
    exact leAt_splice (by rwa [d.length_bytes])
  have htype : shortAt (putInode data k d) (64 * k) = d.type := by
    have h := shortAt_bytes hd.type [] (shortBytes d.major ++ shortBytes d.minor ++ shortBytes d.nlink ++ le 4 d.size ++
      (List.range (NDIRECT + 1)).flatMap fun i => le 4 (d.addrs i))
    rw [shortAt, ← Nat.add_zero (64 * k), hat 0 2 (by omega)]
    simpa only [Inode.bytes, List.append_assoc, List.nil_append, List.length_nil] using h
  have hmajor : shortAt (putInode data k d) (64 * k + 2) = d.major := by
    have h := shortAt_bytes hd.major (shortBytes d.type) (shortBytes d.minor ++ shortBytes d.nlink ++ le 4 d.size ++
      (List.range (NDIRECT + 1)).flatMap fun i => le 4 (d.addrs i))
    rw [shortAt, hat 2 2 (by omega)]
    simpa only [Inode.bytes, List.append_assoc, length_shortBytes] using h
  have hminor : shortAt (putInode data k d) (64 * k + 4) = d.minor := by
    have h := shortAt_bytes hd.minor (shortBytes d.type ++ shortBytes d.major) (shortBytes d.nlink ++ le 4 d.size ++
      (List.range (NDIRECT + 1)).flatMap fun i => le 4 (d.addrs i))
    rw [shortAt, hat 4 2 (by omega)]
    simpa only [Inode.bytes, List.append_assoc, List.length_append, length_shortBytes] using h
  have hnlink : shortAt (putInode data k d) (64 * k + 6) = d.nlink := by
    have h := shortAt_bytes hd.nlink (shortBytes d.type ++ shortBytes d.major ++ shortBytes d.minor) (le 4 d.size ++
      (List.range (NDIRECT + 1)).flatMap fun i => le 4 (d.addrs i))
    rw [shortAt, hat 6 2 (by omega)]
    simpa only [Inode.bytes, List.append_assoc, List.length_append, length_shortBytes] using h
  have hsize : leAt (putInode data k d) (64 * k + 8) 4 = d.size := by
    have h := leAt_append (m := 4) hd.size (shortBytes d.type ++ shortBytes d.major ++ shortBytes d.minor ++ shortBytes d.nlink)
      ((List.range (NDIRECT + 1)).flatMap fun i => le 4 (d.addrs i))
    rw [hat 8 4 (by omega)]
    simpa only [Inode.bytes, List.append_assoc, List.length_append, length_shortBytes] using h
  have haddrs : (fun i => if i ≤ NDIRECT then leAt (putInode data k d) (64 * k + 12 + 4 * i) 4 else 0) = d.addrs := by
    funext i
    by_cases hi : i ≤ NDIRECT
    · have hN : NDIRECT = 12 := rfl
      rw [if_pos hi, Nat.add_assoc, hat (12 + 4 * i) 4 (by omega), addr_bytes hd hi]
    · rw [if_neg hi, hd.beyond i (by omega)]
  unfold getInode
  rw [htype, hmajor, hminor, hnlink, hsize, haddrs]

theorem getInode_putInode_of_ne (h : j ≠ k) : getInode (putInode data k d) j = getInode data j := by
  have hat : ∀ i m, i + m ≤ 64 → leAt (putInode data k d) (64 * j + i) m = leAt data (64 * j + i) m := by
    intro i m hi
    exact leAt_splice_of_disjoint (by rw [d.length_bytes]; omega)
  have hN : NDIRECT = 12 := rfl
  unfold getInode shortAt
  have h0 := hat 0 2 (by omega)
  rw [Nat.add_zero] at h0
  have haddrs : (fun i => if i ≤ NDIRECT then leAt (putInode data k d) (64 * j + 12 + 4 * i) 4 else 0) =
      fun i => if i ≤ NDIRECT then leAt data (64 * j + 12 + 4 * i) 4 else 0 := by
    funext i
    by_cases hi : i ≤ NDIRECT
    · rw [if_pos hi, if_pos hi, Nat.add_assoc, hat (12 + 4 * i) 4 (by omega)]
    · rw [if_neg hi, if_neg hi]
  rw [h0, hat 2 2 (by omega), hat 4 2 (by omega), hat 6 2 (by omega), hat 8 4 (by omega), haddrs]

/-- What `iupdate` makes of the store. -/
def Store.iupdate (sb : Superblock) (s : Store) (n : ℕ) (d : Inode) : Store :=
  (s.fill (sb.iblock n) (putInode (s.buf (sb.iblock n)) (n % IPB) d)).logWrite (sb.iblock n)

theorem Store.fits_inode (sb : Superblock) (s : Store) (n : ℕ) : (s.inode sb n).Fits := getInode_fits ..

/-- **`iupdate`** writes one inode. -/
theorem Store.inode_iupdate (hd : d.Fits) : (s.iupdate sb n d).inode sb = update (s.inode sb) n d := by
  funext m
  by_cases hblk : sb.iblock m = sb.iblock n
  · have hbuf : (s.iupdate sb n d).buf (sb.iblock n) = putInode (s.buf (sb.iblock n)) (n % IPB) d := buf_fill_self
    rw [inode, hblk, hbuf]
    by_cases hm : m = n
    · rw [hm, update_self, getInode_putInode hd]
    · have hdiv : m / IPB = n / IPB := Nat.add_right_cancel hblk
      have hmod : m % IPB ≠ n % IPB := by
        intro he
        exact hm (by rw [← Nat.div_add_mod m IPB, hdiv, he, Nat.div_add_mod])
      rw [update_of_ne hm, getInode_putInode_of_ne hmod, inode, hblk]
  · have hm : m ≠ n := fun h => hblk (by rw [h])
    rw [update_of_ne hm]
    exact inode_fill_of_ne hblk

theorem Store.buf_iupdate_of_data {x : ℕ} (hn : sb.Inum n) (hx : sb.Data x) : (s.iupdate sb n d).buf x = s.buf x :=
  buf_fill_of_ne (hx.iblock_ne hn).symm

theorem Store.used_iupdate {x : ℕ} (hn : sb.Inum n) : (s.iupdate sb n d).used sb x = s.used sb x :=
  used_fill_of_ne (sb.bblock_ne_iblock hn)

end Xv6Mlfq.Vol
