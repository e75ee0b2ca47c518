import Xv6Mlfq.Lib.Index
import Mathlib.Data.Nat.Bitwise
import Mathlib.Data.Nat.ModEq

/-!
# Lib.Bytes — numbers as bytes, and bytes in memory

* `le n x`, `ofLe`: the `n` bytes of a number, the lowest first, and the number that bytes stand for.
* `slice`, `splice`: the bytes of a memory from an offset on, and bytes written there; memories are functions of the address.
* `leAt`, `setLe`: a number in memory.
* `testBit`, `setBit`, `clearBit`: the bits of a memory, eight in a byte.
-/

namespace Bytes

/-- The `n` lowest bytes of `x`, the lowest first. -/
def le : ℕ → ℕ → List UInt8
  | 0, _ => []
  | n + 1, x => UInt8.ofNat x :: le n (x / 256)

/-- The number that bytes stand for. -/
def ofLe : List UInt8 → ℕ
  | [] => 0
  | b :: bs => b.toNat + 256 * ofLe bs

@[simp] theorem length_le (n x : ℕ) : (le n x).length = n := by
  induction n generalizing x with
  | zero => rfl
  | succ n ih => simp [le, ih]

theorem ofLe_le (n x : ℕ) : ofLe (le n x) = x % 256 ^ n := by
  induction n generalizing x with
  | zero => simp [le, ofLe, Nat.mod_one]
  | succ n ih =>
    have hbyte : (UInt8.ofNat x).toNat = x % 256 := by simp
    rw [le, ofLe, ih, hbyte, Nat.pow_succ', Nat.mod_mul]

theorem ofLe_le_of_lt {n x : ℕ} (hx : x < 256 ^ n) : ofLe (le n x) = x := by
  rw [ofLe_le, Nat.mod_eq_of_lt hx]

theorem ofLe_lt (bs : List UInt8) : ofLe bs < 256 ^ bs.length := by
  induction bs with
  | nil => simp [ofLe]
  | cons b bs ih =>
    have hb : b.toNat < 256 := b.toNat_lt
    rw [ofLe, List.length_cons, Nat.pow_succ']
    omega

theorem le_ofLe (bs : List UInt8) : le bs.length (ofLe bs) = bs := by
  induction bs with
  | nil => rfl
  | cons b bs ih =>
    have hb : b.toNat < 256 := b.toNat_lt
    have hhead : UInt8.ofNat (b.toNat + 256 * ofLe bs) = b := by
      rw [← UInt8.toNat_inj, UInt8.toNat_ofNat']
      omega
    have htail : (b.toNat + 256 * ofLe bs) / 256 = ofLe bs := by omega
    rw [ofLe, List.length_cons, le, hhead, htail, ih]

/-! ## Memory -/

variable {b b' : ℕ → UInt8} {off off' n x i : ℕ} {bs : List UInt8} {m : ℕ} {α : Type} {f : α → List UInt8}

/-- The `n` bytes from `off` on. -/
def slice (b : ℕ → UInt8) (off n : ℕ) : List UInt8 := (List.range n).map fun i => b (off + i)

/-- The memory after `bs` has been written at `off`. -/
def splice (b : ℕ → UInt8) (off : ℕ) (bs : List UInt8) : ℕ → UInt8 :=
  fun i => if off ≤ i ∧ i < off + bs.length then bs.getD (i - off) 0 else b i

@[simp] theorem length_slice : (slice b off n).length = n := by simp [slice]

theorem slice_congr (h : ∀ i < n, b (off + i) = b' (off' + i)) : slice b off n = slice b' off' n :=
  List.map_congr_left fun i hi => h i (List.mem_range.mp hi)

theorem getD_slice (hi : i < n) : (slice b off n).getD i 0 = b (off + i) := by
  simp [slice, List.getD_eq_getElem?_getD, hi]

theorem slice_add : slice b off (n + m) = slice b off n ++ slice b (off + n) m := by
  simp [slice, List.range_add, Nat.add_assoc]

theorem splice_inside (hi : i < bs.length) : splice b off bs (off + i) = bs.getD i 0 := by
  rw [splice, if_pos ⟨by omega, by omega⟩, Nat.add_sub_cancel_left]

theorem splice_outside (hi : i < off ∨ off + bs.length ≤ i) : splice b off bs i = b i :=
  if_neg (by omega)

theorem splice_nil : splice b off [] = b := by
  funext i
  exact splice_outside (by rw [List.length_nil]; omega)

/-- Bytes written one after the other. -/
theorem splice_append {cs : List UInt8} : splice (splice b off bs) (off + bs.length) cs = splice b off (bs ++ cs) := by
  funext i
  rcases lt_or_ge i off with hlt | hge
  · rw [splice_outside (by omega), splice_outside (by omega), splice_outside (by omega)]
  · obtain ⟨k, rfl⟩ := Nat.exists_eq_add_of_le hge
    rcases lt_or_ge k bs.length with hk | hk
    · rw [splice_outside (by omega), splice_inside hk, splice_inside (by rw [List.length_append]; omega),
        List.getD_append _ _ _ _ hk]
    · obtain ⟨j, rfl⟩ := Nat.exists_eq_add_of_le hk
      rcases lt_or_ge j cs.length with hj | hj
      · rw [← Nat.add_assoc, splice_inside hj, Nat.add_assoc, splice_inside (by rw [List.length_append]; omega),
          List.getD_append_right _ _ _ _ (by omega), Nat.add_sub_cancel_left]
      · rw [splice_outside (by omega), splice_outside (by omega), splice_outside (by rw [List.length_append]; omega)]

theorem slice_splice_self : slice (splice b off bs) off bs.length = bs := by
  refine List.ext_getElem (by simp) fun i h1 h2 => ?_
  have hin : splice b off bs (off + i) = bs.getD i 0 := splice_inside h2
  simp [slice, hin, List.getD_eq_getElem?_getD, h2]

theorem slice_splice_of_disjoint (h : off' + n ≤ off ∨ off + bs.length ≤ off') :
    slice (splice b off bs) off' n = slice b off' n :=
  slice_congr fun i hi => splice_outside (by omega)

/-! ## Numbers in memory -/

/-- The number of `n` bytes at `off`. -/
def leAt (b : ℕ → UInt8) (off n : ℕ) : ℕ := ofLe (slice b off n)

/-- The memory after the `n` bytes of `x` have been written at `off`. -/
def setLe (b : ℕ → UInt8) (off n x : ℕ) : ℕ → UInt8 := splice b off (le n x)

theorem leAt_setLe_self (hx : x < 256 ^ n) : leAt (setLe b off n x) off n = x := by
  have h : slice (splice b off (le n x)) off (le n x).length = le n x := slice_splice_self
  rw [length_le] at h
  rw [leAt, setLe, h, ofLe_le_of_lt hx]

theorem leAt_setLe_of_disjoint (h : off' + m ≤ off ∨ off + n ≤ off') : leAt (setLe b off n x) off' m = leAt b off' m := by
  rw [leAt, setLe, slice_splice_of_disjoint (by rw [length_le]; exact h), leAt]

theorem leAt_lt : leAt b off n < 256 ^ n := by
  have := ofLe_lt (slice b off n)
  rwa [length_slice] at this

theorem leAt_congr (h : ∀ i < m, b (off + i) = b' (off' + i)) : leAt b off m = leAt b' off' m := by
  rw [leAt, slice_congr h, leAt]

theorem leAt_zero : leAt (fun _ => 0) off n = 0 := by
  induction n generalizing off with
  | zero => rfl
  | succ n ih =>
    have hcons : slice (fun _ => (0 : UInt8)) off (n + 1) = 0 :: slice (fun _ => 0) (off + 1) n := by
      rw [slice, slice, List.range_succ_eq_map, List.map_cons, List.map_map]
      rfl
    have hrest : ofLe (slice (fun _ => 0) (off + 1) n) = 0 := ih
    rw [leAt, hcons, ofLe, hrest]
    rfl

/-- A number in bytes that have been written. -/
theorem leAt_splice (h : i + m ≤ bs.length) : leAt (splice b off bs) (off + i) m = leAt (fun j => bs.getD j 0) i m := by
  refine leAt_congr fun j hj => ?_
  rw [Nat.add_assoc, splice_inside (by omega)]

theorem leAt_splice_of_disjoint (h : off' + m ≤ off ∨ off + bs.length ≤ off') :
    leAt (splice b off bs) off' m = leAt b off' m := by
  rw [leAt, slice_splice_of_disjoint h, leAt]

/-- A number between other bytes. -/
theorem leAt_append (hx : x < 256 ^ m) (pre post : List UInt8) :
    leAt (fun j => (pre ++ (le m x ++ post)).getD j 0) pre.length m = x := by
  have hslice : slice (fun j => (pre ++ (le m x ++ post)).getD j 0) pre.length m = le m x := by
    refine List.ext_getElem (by rw [length_slice, length_le]) fun j h1 h2 => ?_
    have hget : (pre ++ (le m x ++ post)).getD (pre.length + j) 0 = (le m x).getD j 0 := by
      rw [List.getD_append_right _ _ _ _ (by omega), Nat.add_sub_cancel_left, List.getD_append _ _ _ _ h2]
    have hj : j < m := by rwa [length_le] at h2
    rw [← List.getD_eq_getElem _ 0 h1, ← List.getD_eq_getElem _ 0 h2, getD_slice hj, hget]
  rw [leAt, hslice, ofLe_le_of_lt hx]

/-! ## Bits in memory -/

section Bits

open Function

variable {i j : ℕ}

/-- `1 << (i % 8)` -/
def mask (i : ℕ) : UInt8 := 1 <<< UInt8.ofNat (i % 8)

def testBit (b : ℕ → UInt8) (i : ℕ) : Bool := b (i / 8) &&& mask i ≠ 0

def setBit (b : ℕ → UInt8) (i : ℕ) : ℕ → UInt8 := update b (i / 8) (b (i / 8) ||| mask i)

def clearBit (b : ℕ → UInt8) (i : ℕ) : ℕ → UInt8 := update b (i / 8) (b (i / 8) &&& ~~~ mask i)

theorem toNat_mask (i : ℕ) : (mask i).toNat = 2 ^ (i % 8) := by
  have hall : ∀ k : Fin 8, ((1 : UInt8) <<< UInt8.ofNat k.val).toNat = 2 ^ k.val := by decide
  exact hall ⟨i % 8, Nat.mod_lt _ (by decide)⟩

theorem testBit_eq (b : ℕ → UInt8) (i : ℕ) : testBit b i = (b (i / 8)).toNat.testBit (i % 8) := by
  have hand : (b (i / 8) &&& mask i).toNat = ((b (i / 8)).toNat.testBit (i % 8)).toNat * 2 ^ (i % 8) := by
    rw [UInt8.toNat_and, toNat_mask, Nat.and_two_pow]
  have hzero : b (i / 8) &&& mask i = 0 ↔ (b (i / 8) &&& mask i).toNat = 0 := by
    rw [← UInt8.toNat_inj]
    rfl
  rw [testBit, Bool.eq_iff_iff, decide_eq_true_iff, Ne, hzero, hand]
  cases (b (i / 8)).toNat.testBit (i % 8) <;> simp

theorem testBit_setBit : testBit (setBit b i) j = if j = i then true else testBit b j := by
  rw [testBit_eq, testBit_eq, setBit]
  by_cases hbyte : j / 8 = i / 8
  · rw [hbyte, update_self, UInt8.toNat_or, toNat_mask, Nat.testBit_or, Nat.testBit_two_pow]
    by_cases hji : j = i
    · simp [hji]
    · have hmod : ¬ i % 8 = j % 8 := by omega
      simp [hji, hmod]
  · rw [update_of_ne hbyte, if_neg fun h => hbyte (by rw [h])]

end Bits

/-! ## Records one after the other -/

/-- A byte of records that all have the same length. -/
theorem getD_flatMap (l : List α) (hf : ∀ a ∈ l, (f a).length = m) {j : ℕ}
    (hi : i < l.length) (hj : j < m) : (l.flatMap f).getD (m * i + j) 0 = (f (l.get ⟨i, hi⟩)).getD j 0 := by
  induction l generalizing i with
  | nil => simp at hi
  | cons a l ih =>
    have ha : (f a).length = m := hf a List.mem_cons_self
    rw [List.flatMap_cons]
    match i with
    | 0 =>
      rw [List.getD_append _ _ _ _ (by omega)]
      simp
    | i + 1 =>
      rw [List.getD_append_right _ _ _ _ (by rw [ha, Nat.mul_add]; omega), ha]
      have hsub : m * (i + 1) + j - m = m * i + j := by rw [Nat.mul_add]; omega
      rw [hsub, ih (fun x hx => hf x (List.mem_cons_of_mem _ hx)) (by simpa using hi)]
      rfl

/-- One of a sequence of records of the same length. -/
theorem take_drop_flatMap {l : List α} {a : α} (hf : ∀ a, (f a).length = m)
    (h : l[i]? = some a) : ((l.flatMap f).drop (m * i)).take m = f a := by
  induction l generalizing i with
  | nil => simp at h
  | cons c l ih =>
    rw [List.flatMap_cons]
    match i with
    | 0 =>
      obtain rfl : c = a := by simpa using h
      rw [Nat.mul_zero, List.drop_zero, ← hf c, List.take_left]
    | i + 1 =>
      rw [Nat.mul_add, Nat.mul_one, Nat.add_comm, ← List.drop_drop, List.drop_left' (hf c)]
      exact ih (by simpa using h)

/-- A number of an array of `m`-byte numbers. -/
theorem leAt_flatMap {x : ℕ} {l : List ℕ} (hl : slice b off (m * l.length) = l.flatMap (le m)) (hi : l[i]? = some x)
    (hx : x < 256 ^ m) : leAt b (off + m * i) m = x := by
  have hlt : i < l.length := (List.getElem?_eq_some_iff.mp hi).1
  obtain ⟨d, hd⟩ := Nat.exists_eq_add_of_lt hlt
  have hlen : m * l.length = m * i + (m + m * d) := by
    rw [hd, Nat.mul_add, Nat.mul_add, Nat.mul_one]
    omega
  have hrec : slice b (off + m * i) m = le m x := by
    rw [← take_drop_flatMap (fun a => length_le m a) hi, ← hl, hlen, slice_add, List.drop_left' length_slice, slice_add,
      List.take_left' length_slice]
  rw [leAt, hrec, ofLe_le_of_lt hx]

end Bytes
