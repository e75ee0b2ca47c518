import Mathlib.Data.List.Basic
import Mathlib.Data.Nat.ModEq

/-!
# Lib.Ring — ring buffers with free-running counters

A ring of `n` cells with a read counter `r` and a write counter `w` that count modulo `M`, where `n` divides `M` (so that the
cell of a counter does not change when it wraps around) and is less than `M` (so that a full ring is not an empty one).

* `Holds M data r w q`: the ring holds the queue `q`.
* `Holds.write`, `Holds.push`, `Holds.put`: writing at `w` and moving on appends.
* `Holds.take`: reading at `r` removes the first.
* `Holds.left`, `Holds.pop`: what a counter in between holds, and moving `w` back.
* `Holds.full_iff`, `Holds.empty_iff`, `Holds.length_eq`: what the counters tell.
-/

namespace Ring

open Function

variable {α : Type*} {M n : ℕ} [NeZero n] {data : Fin n → α} {r w : ℕ} {q : List α} {x : α}

/-- The ring holds queue `q`, the oldest first. -/
structure Holds (M : ℕ) (data : Fin n → α) (r w : ℕ) (q : List α) : Prop where
  read_lt : r < M
  length_le : q.length ≤ n
  write_eq : w = (r + q.length) % M
  cell : ∀ k (hk : k < q.length), data (Fin.ofNat n (r + k)) = q.get ⟨k, hk⟩

/-- Counters that agree modulo `M` have the same cell. -/
theorem ofNat_mod (hdvd : n ∣ M) (a : ℕ) : Fin.ofNat n (a % M) = Fin.ofNat n a := by
  apply Fin.ext
  show a % M % n = a % n
  exact Nat.mod_mod_of_dvd a hdvd

/-- Two of the cells from a counter on are different, unless they are a round apart. -/
theorem ofNat_add_ne {a i j : ℕ} (hi : i < j) (hj : j < i + n) : Fin.ofNat n (a + i) ≠ Fin.ofNat n (a + j) := by
  intro he
  have hmod : (a + i) % n = (a + j) % n := congrArg Fin.val he
  have hsub : (a + j) - (a + i) = j - i := by omega
  have hdvd : n ∣ j - i := by
    rw [← hsub]
    exact (Nat.modEq_iff_dvd' (by omega)).mp hmod
  have := Nat.le_of_dvd (by omega) hdvd
  omega

theorem Holds.nil (hr : r < M) : Holds M data r r [] where
  read_lt := hr
  length_le := Nat.zero_le _
  write_eq := (Nat.mod_eq_of_lt hr).symm
  cell := by
    intro k hk
    cases hk

section

variable (hq : Holds M data r w q)
include hq

/-- The distance of the counters is the length of the queue. -/
theorem Holds.length_eq (hlt : n < M) : (w + (M - r)) % M = q.length := by
  have hr := hq.read_lt
  have hlen := hq.length_le
  rw [hq.write_eq, Nat.mod_add_mod]
  have hsum : r + q.length + (M - r) = q.length + M := by omega
  rw [hsum, Nat.add_mod_right, Nat.mod_eq_of_lt (by omega)]

theorem Holds.full_iff (hlt : n < M) : w = (r + n) % M ↔ q.length = n := by
  have hlen := hq.length_le
  constructor
  · intro he
    have hd := hq.length_eq hlt
    have hr := hq.read_lt
    rw [he, Nat.mod_add_mod, show r + n + (M - r) = n + M by omega, Nat.add_mod_right, Nat.mod_eq_of_lt hlt] at hd
    exact hd.symm
  · intro he
    rw [hq.write_eq, he]

theorem Holds.empty_iff (hlt : n < M) : r = w ↔ q = [] := by
  constructor
  · intro he
    have hd := hq.length_eq hlt
    have hr := hq.read_lt
    rw [← he, show r + (M - r) = M by omega, Nat.mod_self] at hd
    exact List.eq_nil_of_length_eq_zero hd.symm
  · intro he
    rw [hq.write_eq, he, List.length_nil, Nat.add_zero, Nat.mod_eq_of_lt hq.read_lt]

/-- Writing at `w` leaves a queue that does not fill the ring alone. -/
theorem Holds.write (hdvd : n ∣ M) (hroom : q.length < n) :
    Holds M (update data (Fin.ofNat n w) x) r w q where
  read_lt := hq.read_lt
  length_le := hq.length_le
  write_eq := hq.write_eq
  cell := by
    intro k hk
    rw [hq.write_eq, ofNat_mod hdvd, update_of_ne (ofNat_add_ne hk (by omega))]
    exact hq.cell k hk

/-- Moving `w` on appends what its cell holds. -/
theorem Holds.push (hdvd : n ∣ M) (hroom : q.length < n) (hx : data (Fin.ofNat n w) = x) :
    Holds M data r ((w + 1) % M) (q ++ [x]) where
  read_lt := hq.read_lt
  length_le := by
    rw [List.length_append, List.length_singleton]
    omega
  write_eq := by
    rw [hq.write_eq, List.length_append, List.length_singleton, Nat.mod_add_mod, Nat.add_assoc]
  cell := by
    intro k hk
    rcases Nat.lt_or_ge k q.length with hlt | hge
    · rw [hq.cell k hlt]
      simp [List.getElem_append_left, hlt]
    · rw [List.length_append, List.length_singleton] at hk
      obtain rfl : k = q.length := by omega
      rw [hq.write_eq, ofNat_mod hdvd] at hx
      rw [hx]
      simp

/-- Writing at `w` and moving on appends to a queue that does not fill the ring. -/
theorem Holds.put (hdvd : n ∣ M) (hroom : q.length < n) :
    Holds M (update data (Fin.ofNat n w) x) r ((w + 1) % M) (q ++ [x]) :=
  (hq.write hdvd hroom).push hdvd hroom (update_self _ _ _)

end

/-- Reading at `r` yields the first of the queue, and moving on removes it. -/
theorem Holds.take (hq : Holds M data r w (x :: q)) (hdvd : n ∣ M) :
    data (Fin.ofNat n r) = x ∧ Holds M data ((r + 1) % M) w q := by
  refine ⟨hq.cell 0 (by simp), Nat.mod_lt _ (by have := hq.read_lt; omega), ?_, ?_, fun k hk => ?_⟩
  · have := hq.length_le
    rw [List.length_cons] at this
    omega
  · rw [hq.write_eq, List.length_cons, Nat.mod_add_mod]
    congr 1
    omega
  · have hcell := hq.cell (k + 1) (by simpa using hk)
    rw [← ofNat_mod hdvd, Nat.mod_add_mod, ofNat_mod hdvd, show r + 1 + k = r + (k + 1) by omega, hcell]
    rfl

/-- A counter between `r` and `w` bounds a part of the queue. -/
theorem Holds.left {p : List α} (hq : Holds M data r w (q ++ p)) : Holds M data r ((r + q.length) % M) q where
  read_lt := hq.read_lt
  length_le := by
    have := hq.length_le
    rw [List.length_append] at this
    omega
  write_eq := rfl
  cell := by
    intro k hk
    rw [hq.cell k (by rw [List.length_append]; omega)]
    simp [List.getElem_append_left, hk]

/-- Moving `w` back removes the last of the queue. -/
theorem Holds.pop (hq : Holds M data r w (q ++ [x])) (hdvd : n ∣ M) :
    Holds M data r ((w + (M - 1)) % M) q ∧ data (Fin.ofNat n ((w + (M - 1)) % M)) = x := by
  have hr := hq.read_lt
  have hback : (w + (M - 1)) % M = (r + q.length) % M := by
    have hsum : r + (q.length + 1) + (M - 1) = r + q.length + M := by omega
    rw [hq.write_eq, Nat.mod_add_mod, List.length_append, List.length_singleton, hsum, Nat.add_mod_right]
  rw [hback]
  refine ⟨hq.left, ?_⟩
  rw [ofNat_mod hdvd, hq.cell q.length (by simp)]
  simp

end Ring
