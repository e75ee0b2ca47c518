import Mathlib.Data.List.Nodup

/-!
# Lib.Linked — doubly linked rings with a head

The nodes are the elements of `ι` and the head, `none`.  `Span next prev a l b`: the pointers lead from node `a` through `l` to
node `b`, and back; a ring is a list spanned from the head to the head.

* `Links.unlink`, `Links.push`: the assignments that take a node out and that put one in after the head.
* `scan`: a loop along one of the pointers until it is back at the head; on a ring it searches the list (`Span.scan`).
-/

namespace Linked

open Function

/-- The two pointers of each node. -/
structure Links (ι : Type*) where
  next : Option ι → Option ι
  prev : Option ι → Option ι

variable {ι : Type*} {v : Option ι}

def Span (next prev : Option ι → Option ι) : Option ι → List ι → Option ι → Prop
  | a, [], b => next a = b ∧ prev b = a
  | a, x :: l, b => next a = some x ∧ prev (some x) = a ∧ Span next prev (some x) l b

/-- The ring of a list. -/
def Links.Ring (k : Links ι) (l : List ι) : Prop := Span k.next k.prev none l none

/-- A loop that follows a pointer until it finds what it looks for or is at the head; `none` if it does neither in `fuel` turns. -/
def scan (move : Option ι → Option ι) (found : ι → Bool) : ℕ → Option ι → Option (Option ι)
  | 0, _ => none
  | _ + 1, none => some none
  | fuel + 1, some x => if found x then some (some x) else scan move found fuel (move (some x))

section

variable {next prev : Option ι → Option ι} {a b : Option ι} {x : ι} {l r : List ι}

theorem span_append : Span next prev a (l ++ x :: r) b ↔ Span next prev a l (some x) ∧ Span next prev (some x) r b := by
  induction l generalizing a with
  | nil => simp only [List.nil_append, Span, and_assoc]
  | cons y l ih => simp only [List.cons_append, Span, ih, and_assoc]

/-- The way back. -/
theorem Span.reverse (h : Span next prev a l b) : Span prev next b l.reverse a := by
  induction l generalizing a with
  | nil => exact ⟨h.2, h.1⟩
  | cons y l ih =>
    rw [List.reverse_cons, span_append]
    exact ⟨ih h.2.2, h.2.1, h.1⟩

theorem Span.prev_mem (h : Span next prev a l b) : prev b ∈ a :: l.map some := by
  induction l generalizing a with
  | nil => exact h.2 ▸ List.mem_cons_self
  | cons y l ih => exact List.mem_cons_of_mem _ (ih h.2.2)

theorem Span.scan (h : Span next prev a l none) {found : ι → Bool} {fuel : ℕ} (hf : l.length < fuel) :
    scan next found fuel (next a) = some (l.find? found) := by
  induction l generalizing a fuel with
  | nil =>
    obtain ⟨n, rfl⟩ := Nat.exists_eq_succ_of_ne_zero (Nat.ne_zero_of_lt hf)
    rw [h.1]
    rfl
  | cons y l ih =>
    obtain ⟨n, rfl⟩ := Nat.exists_eq_succ_of_ne_zero (Nat.ne_zero_of_lt hf)
    rw [h.1, Linked.scan, List.find?_cons, ih h.2.2 (Nat.lt_of_succ_lt_succ hf)]
    cases found y <;> rfl

variable [DecidableEq ι]

/-- Pointers of other nodes. -/
theorem Span.update (h : Span next prev a l b) {u u' v' : Option ι} (hu : u ∉ a :: l.map some) (hv : v ∉ b :: l.map some) :
    Span (update next u u') (update prev v v') a l b := by
  induction l generalizing a with
  | nil =>
    rw [List.map_nil, List.mem_singleton] at hu hv
    exact ⟨(update_of_ne (Ne.symm hu) ..).trans h.1, (update_of_ne (Ne.symm hv) ..).trans h.2⟩
  | cons y l ih =>
    rw [List.map_cons, List.mem_cons, not_or] at hu
    rw [List.map_cons, List.mem_cons, List.mem_cons, not_or, not_or] at hv
    refine ⟨(update_of_ne (Ne.symm hu.1) ..).trans h.1, (update_of_ne (Ne.symm hv.2.1) ..).trans h.2.1, ih h.2.2 hu.2 ?_⟩
    rw [List.mem_cons, not_or]
    exact ⟨hv.1, hv.2.2⟩

/-- The last pointers are led elsewhere. -/
theorem Span.divert (h : Span next prev a l b) (hd : (a :: l.map some).Nodup) (hv : v ∉ l.map some) :
    Span (Function.update next (prev b) v) (Function.update prev v (prev b)) a l v := by
  induction l generalizing a with
  | nil => exact ⟨by rw [h.2, update_self], by rw [update_self, h.2]⟩
  | cons y l ih =>
    rw [List.map_cons, List.nodup_cons] at hd
    rw [List.map_cons, List.mem_cons, not_or] at hv
    have hne : a ≠ prev b := fun he => hd.1 (he ▸ h.2.2.prev_mem)
    exact ⟨(update_of_ne hne ..).trans h.1, (update_of_ne (Ne.symm hv.1) ..).trans h.2.1, ih h.2.2 hd.2 hv.2⟩

end

variable [DecidableEq ι] {k : Links ι} {x : ι} {l r : List ι}

/-- Take `x` out: `x->next->prev = x->prev; x->prev->next = x->next`. -/
def Links.unlink (k : Links ι) (x : ι) : Links ι :=
  let k := { k with prev := update k.prev (k.next (some x)) (k.prev (some x)) }
  { k with next := update k.next (k.prev (some x)) (k.next (some x)) }

/-- Put `x` in: `x->next = head.next; x->prev = &head; head.next->prev = x; head.next = x`. -/
def Links.push (k : Links ι) (x : ι) : Links ι :=
  let k := { k with next := update k.next (some x) (k.next none) }
  let k := { k with prev := update k.prev (some x) none }
  let k := { k with prev := update k.prev (k.next none) (some x) }
  { k with next := update k.next none (some x) }

theorem Links.Ring.unlink (h : k.Ring (l ++ x :: r)) (hd : (l ++ x :: r).Nodup) : (k.unlink x).Ring (l ++ r) := by
  obtain ⟨hl, hr⟩ := span_append.mp h
  obtain ⟨hdl, hdr, hdisj⟩ := List.nodup_append.mp hd
  have hnone : (none :: l.map some).Nodup := List.nodup_cons.mpr ⟨by simp, hdl.map fun _ _ => Option.some.inj⟩
  -- `x->prev` is read when the pointer back to `x` has been changed
  have hk (hback : k.next (some x) ≠ some x) : k.unlink x =
      ⟨update k.next (k.prev (some x)) (k.next (some x)), update k.prev (k.next (some x)) (k.prev (some x))⟩ := by
    simp only [Links.unlink, update_of_ne hback.symm]
  cases r with
  | nil =>
    rw [hk (by rw [hr.1]; exact Option.some_ne_none x |>.symm), hr.1, List.append_nil]
    exact hl.divert hnone (by simp)
  | cons y r =>
    obtain ⟨hxy, hyr⟩ : x ∉ y :: r ∧ y ∉ r := ⟨(List.nodup_cons.mp hdr).1, (List.nodup_cons.mp (List.nodup_cons.mp hdr).2).1⟩
    have hyl : y ∉ l := fun hy => hdisj y hy y (List.mem_cons_of_mem _ List.mem_cons_self) rfl
    have hne : y ≠ x := (List.ne_of_not_mem_cons hxy).symm
    rw [hk (by rw [hr.1]; simpa using hne), hr.1]
    refine span_append.mpr ⟨hl.divert hnone (by simpa using hyl), hr.2.2.update (fun hm => ?_) (by simpa using hyr)⟩
    -- the node before `x` is the head or in `l`
    rcases List.mem_cons.mp hl.prev_mem with he | he
    · simp [he] at hm
    · obtain ⟨z, hz, he⟩ := List.mem_map.mp he
      rw [← he, ← List.map_cons, List.mem_map] at hm
      obtain ⟨z', hz', he'⟩ := hm
      cases he'
      exact hdisj z hz z (List.mem_cons_of_mem _ hz') rfl

theorem Links.Ring.push (h : k.Ring l) (hx : x ∉ l) (hd : l.Nodup) : (k.push x).Ring (x :: l) := by
  cases l with
  | nil => simp [Links.push, Links.Ring, Span, h.1]
  | cons y l =>
    obtain ⟨hn, hp, hs⟩ := h
    obtain ⟨hxy, hxl⟩ := not_or.mp (List.mem_cons.not.mp hx)
    have hk : k.push x = ⟨update (update k.next (some x) (some y)) none (some x), update (update k.prev (some x) none) (some y) (some x)⟩ := by
      simp [Links.push, hn]
    rw [hk]
    refine ⟨by simp, by simp [hxy], by simp, by simp, (hs.update ?_ ?_).update (by simp) ?_⟩
    · simpa [hxy] using hxl
    · simpa using hxl
    · simpa using (List.nodup_cons.mp hd).1

end Linked
