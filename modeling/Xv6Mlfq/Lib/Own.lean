import Mathlib.Data.List.Nodup

/-!
# Lib.Own — resources that are free or have one owner

`Parts free own`: a resource is not free exactly if some owner's list has it, no two owners have the same, and no list has one
twice.

* `Parts.give`, `Parts.release`: a free resource is given to an owner, an owner gives one up.
* `Parts.perm`: the order within a list does not matter.
-/

namespace Own

open Function

variable {O R : Type*} {free : R → Bool} {own : O → List R} {r : R} {o o' : O} {l : List R}

structure Parts (free : R → Bool) (own : O → List R) : Prop where
  taken : ∀ r, free r = false ↔ ∃ o, r ∈ own o
  unique : ∀ {r o o'}, r ∈ own o → r ∈ own o' → o = o'
  nodup : ∀ o, (own o).Nodup

theorem Parts.of_mem (hp : Parts free own) (hr : r ∈ own o) : free r = false := (hp.taken r).mpr ⟨o, hr⟩

theorem Parts.not_mem (hp : Parts free own) (hr : free r = true) : r ∉ own o := by
  intro hmem
  rw [hp.of_mem hmem] at hr
  cases hr

theorem Parts.empty : Parts (fun _ : R => true) (fun _ : O => []) where
  taken := by simp
  unique := by simp
  nodup := by simp

theorem Parts.perm {own' : O → List R} (hp : Parts free own) (hperm : ∀ o, (own' o).Perm (own o)) : Parts free own' where
  taken := by
    intro r
    rw [hp.taken]
    exact exists_congr fun o => (hperm o).mem_iff.symm
  unique := by
    intro r o o' hr hr'
    exact hp.unique ((hperm o).mem_iff.mp hr) ((hperm o').mem_iff.mp hr')
  nodup := by
    intro o
    exact (hperm o).nodup_iff.mpr (hp.nodup o)

variable [DecidableEq O] [DecidableEq R]

theorem Parts.give (hp : Parts free own) (hr : free r = true) :
    Parts (update free r false) (update own o (r :: own o)) where
  taken := by
    intro x
    rcases eq_or_ne x r with rfl | hx
    · simp only [update_self, true_iff]
      exact ⟨o, by simp⟩
    · rw [update_of_ne hx, hp.taken]
      refine exists_congr fun o' => ?_
      by_cases ho : o' = o
      · rw [ho, update_self, List.mem_cons, or_iff_right hx]
      · rw [update_of_ne ho]
  unique := by
    intro x a b ha hb
    have hother : ∀ c, c ≠ o → x ∈ update own o (r :: own o) c → x ∈ own c ∧ x ≠ r := by
      intro c hc hx
      rw [update_of_ne hc] at hx
      exact ⟨hx, fun he => hp.not_mem hr (he ▸ hx)⟩
    by_cases hao : a = o <;> by_cases hbo : b = o
    · rw [hao, hbo]
    · obtain ⟨hx, hne⟩ := hother b hbo hb
      rw [hao, update_self, List.mem_cons, or_iff_right hne] at ha
      exact absurd (hp.unique hx ha) hbo
    · obtain ⟨hx, hne⟩ := hother a hao ha
      rw [hbo, update_self, List.mem_cons, or_iff_right hne] at hb
      exact absurd (hp.unique hx hb) hao
    · exact hp.unique (hother a hao ha).1 (hother b hbo hb).1
  nodup := by
    intro c
    by_cases hc : c = o
    · rw [hc, update_self]
      exact List.nodup_cons.mpr ⟨hp.not_mem hr, hp.nodup o⟩
    · rw [update_of_ne hc]
      exact hp.nodup c

theorem Parts.release (hp : Parts free own) (hown : own o = r :: l) : Parts (update free r true) (update own o l) := by
  have hr : r ∈ own o := by rw [hown]; exact List.mem_cons_self
  have hnd : r ∉ l ∧ l.Nodup := List.nodup_cons.mp (hown ▸ hp.nodup o)
  -- what is left has `r` no more
  have hleft : ∀ c x, x ∈ update own o l c ↔ x ≠ r ∧ x ∈ own c := by
    intro c x
    by_cases hc : c = o
    · rw [hc, update_self, hown, List.mem_cons]
      constructor
      · intro hx
        exact ⟨fun he => hnd.1 (he ▸ hx), .inr hx⟩
      · rintro ⟨hne, hx⟩
        exact hx.resolve_left hne
    · rw [update_of_ne hc]
      exact ⟨fun hx => ⟨fun he => hc (hp.unique (he ▸ hx) hr), hx⟩, And.right⟩
  refine ⟨fun x => ?_, fun {x a b} ha hb => ?_, fun c => ?_⟩
  · rcases eq_or_ne x r with rfl | hx
    · simp [hleft]
    · rw [update_of_ne hx, hp.taken]
      exact exists_congr fun c => by rw [hleft, and_iff_right hx]
  · exact hp.unique ((hleft a x).mp ha).2 ((hleft b x).mp hb).2
  · by_cases hc : c = o
    · rw [hc, update_self]
      exact hnd.2
    · rw [update_of_ne hc]
      exact hp.nodup c

end Own
