import Mathlib.Data.Fintype.Lattice

/-!
# Xv6Mlfq.Lib.LockOrder — locks taken in the order of a rank

A table `holder` of who holds each lock, against the list of locks each thread holds.  If every thread
holds its locks in increasing rank and waits only for a lock of larger rank than those it holds, no
cycle of threads waits for one another.
-/

namespace LockOrder

open Function

variable {L T : Type*} {holder : L → Option T} {held : T → List L} {rank : L → ℕ} {t : T} {l : L}
  {ls : List L}

/-- The table and the lists agree. -/
def Agrees (holder : L → Option T) (held : T → List L) : Prop := ∀ t l, holder l = some t ↔ l ∈ held t

/-- A list of locks, the last one taken first. -/
def Ordered (rank : L → ℕ) (ls : List L) : Prop := ls.Pairwise fun l l' => rank l' < rank l

theorem Ordered.nodup (h : Ordered rank ls) : ls.Nodup := by
  refine List.nodup_iff_pairwise_ne.mpr (List.Pairwise.imp ?_ h)
  rintro a _ hlt rfl
  exact Nat.lt_irrefl _ hlt

theorem Ordered.cons (h : Ordered rank ls) (hl : ∀ l' ∈ ls, rank l' < rank l) :
    Ordered rank (l :: ls) :=
  List.Pairwise.cons hl h

namespace Agrees

theorem unique (h : Agrees holder held) {t' : T} (ht : l ∈ held t) (ht' : l ∈ held t') : t = t' :=
  Option.some.inj (((h t l).mpr ht).symm.trans ((h t' l).mpr ht'))

variable [DecidableEq L] [DecidableEq T]

theorem acquire (h : Agrees holder held) (hl : holder l = none) :
    Agrees (update holder l (some t)) (update held t (l :: held t)) := by
  intro t' l'
  rcases eq_or_ne l' l with rfl | hne
  · rcases eq_or_ne t' t with rfl | ht
    · simp
    · have hno : l' ∉ held t' := fun hm => by simp [(h t' l').mpr hm] at hl
      simp [ht, hno, ht.symm]
  · rcases eq_or_ne t' t with rfl | ht
    · simpa [hne] using h t' l'
    · simpa [hne, ht] using h t' l'

theorem release (h : Agrees holder held) (hnd : (held t).Nodup) (hl : l ∈ held t) :
    Agrees (update holder l none) (update held t ((held t).erase l)) := by
  intro t' l'
  rcases eq_or_ne t' t with rfl | ht
  · rcases eq_or_ne l' l with rfl | hne
    · simp [hnd.mem_erase_iff]
    · simpa [hne, hnd.mem_erase_iff] using h t' l'
  · rcases eq_or_ne l' l with rfl | hne
    · have hno : l' ∉ held t' := fun hm => ht (h.unique hm hl)
      simp [ht, hno]
    · simpa [hne, ht] using h t' l'

end Agrees

/-- The holder of `l` waits for `l'`. -/
def WaitsFor (holder : L → Option T) (wants : T → Option L) (l l' : L) : Prop :=
  ∃ t, holder l = some t ∧ wants t = some l'

/-- **No deadlock.** -/
theorem not_waitsFor_cycle {wants : T → Option L} (h : Agrees holder held)
    (hw : ∀ t l', wants t = some l' → ∀ l ∈ held t, rank l < rank l') (l : L) :
    ¬ Relation.TransGen (WaitsFor holder wants) l l := by
  intro hc
  have hlt : Relation.TransGen (· < ·) (rank l) (rank l) := by
    refine hc.lift rank ?_
    rintro a b ⟨t, ha, hb⟩
    exact hw t b hb a ((h t a).mp ha)
  rw [Relation.transGen_eq_self] at hlt
  exact Nat.lt_irrefl _ hlt

end LockOrder
