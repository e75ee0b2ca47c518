import Mathlib.Tactic.Common

/-!
# Lib.Exec — programs on a state that may fail

`Exec σ E α`: a program on states `σ` that returns an `α` or fails with an `E`.

* `Ends p s Q`: run from `s`, `p` comes to its end, and with `Q`.
* `ends_pure`, `ends_bind`, `ends_get`, `ends_set`: what this is for the parts of a program; a simp set.
* `Fails p s e`: it fails with `e`.  Both can be decided, by running the program.
* `Leaves p s Q`: if it comes to its end, then with `Q`.
* `Ends.forM_range`: a loop over the numbers below a bound, by its invariant.
-/

/-- A program on states `σ` that may fail. -/
abbrev Exec (σ E : Type) : Type → Type := StateT σ (Except E)

namespace Exec

variable {σ E α β : Type} {p : Exec σ E α} {f : α → Exec σ E β} {s s' : σ} {Q Q' : α → σ → Prop}
  {R : β → σ → Prop} {x : α} {e : E}

/-- Run from `s`, `p` comes to its end, and with `Q`. -/
def Ends (p : Exec σ E α) (s : σ) (Q : α → σ → Prop) : Prop := ∃ x s', p s = .ok (x, s') ∧ Q x s'

theorem Ends.eval (h : Ends p s Q) : ∃ x s', p s = .ok (x, s') ∧ Q x s' := h

theorem Ends.of_eval (h : Ends p s Q) (hp : p s = .ok (x, s')) : Q x s' := by
  obtain ⟨y, t, he, hq⟩ := h
  rw [hp] at he
  cases he
  exact hq

theorem ends_of_eval (hp : p s = .ok (x, s')) (hq : Q x s') : Ends p s Q := ⟨x, s', hp, hq⟩

instance [∀ x s', Decidable (Q x s')] : Decidable (Ends p s Q) :=
  match hp : p s with
  | .ok x => decidable_of_iff (Q x.1 x.2) ⟨ends_of_eval hp, fun h => h.of_eval hp⟩
  | .error e => isFalse fun h => by
    obtain ⟨x, s', he, -⟩ := h
    rw [hp] at he
    cases he

/-- Run from `s`, `p` fails with `e`. -/
def Fails (p : Exec σ E α) (s : σ) (e : E) : Prop := p s = .error e

instance [DecidableEq E] {e : E} : Decidable (Fails p s e) :=
  match hp : p s with
  | .ok x => isFalse fun h => by
    rw [Fails, hp] at h
    cases h
  | .error e' => decidable_of_iff (e' = e) (by rw [Fails, hp, Except.error.injEq])

theorem Ends.mono (h : Ends p s Q) (hQ : ∀ x s', Q x s' → Q' x s') : Ends p s Q' := by
  obtain ⟨x, s', he, hq⟩ := h
  exact ⟨x, s', he, hQ x s' hq⟩

theorem Ends.and (h : Ends p s Q) (h' : Ends p s Q') : Ends p s fun x s' => Q x s' ∧ Q' x s' := by
  obtain ⟨x, s', he, hq⟩ := h
  exact ⟨x, s', he, hq, h'.of_eval he⟩

@[simp] theorem ends_pure : Ends (pure x : Exec σ E α) s Q ↔ Q x s := by
  constructor
  · intro h
    exact h.of_eval rfl
  · intro h
    exact ⟨x, s, rfl, h⟩

theorem bind_ok {x : α × σ} (hp : p s = .ok x) : (p >>= f) s = f x.1 x.2 := by
  show (p s >>= fun x => f x.1 x.2) = _
  rw [hp]
  rfl

theorem bind_error (hp : p s = .error e) : (p >>= f) s = .error e := by
  show (p s >>= fun x => f x.1 x.2) = _
  rw [hp]
  rfl

@[simp] theorem ends_bind : Ends (p >>= f) s R ↔ Ends p s fun x s' => Ends (f x) s' R := by
  constructor
  · rintro ⟨y, s'', he, hr⟩
    cases hp : p s with
    | error e =>
      rw [bind_error hp] at he
      cases he
    | ok x =>
      rw [bind_ok hp] at he
      exact ⟨x.1, x.2, hp, y, s'', he, hr⟩
  · rintro ⟨x, s', hp, y, s'', hf, hr⟩
    exact ⟨y, s'', (bind_ok hp).trans hf, hr⟩

@[simp] theorem ends_get {Q : σ → σ → Prop} : Ends (get : Exec σ E σ) s Q ↔ Q s s := by
  constructor
  · intro h
    exact h.of_eval rfl
  · intro h
    exact ⟨s, s, rfl, h⟩

@[simp] theorem ends_set {t : σ} {Q : PUnit → σ → Prop} : Ends (set t : Exec σ E PUnit) s Q ↔ Q ⟨⟩ t := by
  constructor
  · intro h
    exact h.of_eval rfl
  · intro h
    exact ⟨⟨⟩, t, rfl, h⟩

@[simp] theorem ends_modify {g : σ → σ} {Q : PUnit → σ → Prop} : Ends (modify g : Exec σ E PUnit) s Q ↔ Q ⟨⟩ (g s) := by
  constructor
  · intro h
    exact h.of_eval rfl
  · intro h
    exact ⟨⟨⟩, g s, rfl, h⟩

/-- A loop over `0`, …, `n - 1`. -/
theorem Ends.forM_range {f : ℕ → Exec σ E PUnit} (I : ℕ → σ → Prop) (n : ℕ) (h0 : I 0 s)
    (hstep : ∀ i < n, ∀ s, I i s → Ends (f i) s fun _ s' => I (i + 1) s') :
    Ends (forM (List.range n) f) s fun _ s' => I n s' := by
  have key : ∀ k ≤ n, ∀ s, I (n - k) s → Ends (forM (List.range' (n - k) k) f) s fun _ s' => I n s' := by
    intro k
    induction k with
    | zero =>
      intro _ s hs
      exact ends_pure.mpr (by simpa using hs)
    | succ k ih =>
      intro hk s hs
      have hsucc : n - (k + 1) + 1 = n - k := by omega
      rw [List.range'_succ, List.forM_cons, ends_bind]
      refine (hstep (n - (k + 1)) (by omega) s hs).mono fun _ s' hs' => ?_
      rw [hsucc] at hs' ⊢
      exact ih (by omega) s' hs'
  have hall := key n (Nat.le_refl n) s (by simpa using h0)
  rwa [Nat.sub_self, ← List.range_eq_range'] at hall

/-- If `p`, run from `s`, comes to its end, then with `Q`. -/
def Leaves (p : Exec σ E α) (s : σ) (Q : α → σ → Prop) : Prop := ∀ x s', p s = .ok (x, s') → Q x s'

theorem Ends.leaves (h : Ends p s Q) : Leaves p s Q := fun _ _ => h.of_eval

theorem Leaves.pure (h : Q x s) : Leaves (pure x : Exec σ E α) s Q := (ends_pure.mpr h).leaves

theorem Leaves.throw : Leaves (throw e : Exec σ E α) s Q := by
  intro x s' h
  cases h

theorem Leaves.bind (h : Leaves p s fun x s' => Leaves (f x) s' R) : Leaves (p >>= f) s R := by
  intro y s'' he
  cases hp : p s with
  | error e =>
    rw [bind_error hp] at he
    cases he
  | ok x =>
    rw [bind_ok hp] at he
    exact h x.1 x.2 hp y s'' he

theorem Leaves.mono (h : Leaves p s Q) (hQ : ∀ x s', Q x s' → Q' x s') : Leaves p s Q' := fun x s' he => hQ x s' (h x s' he)

attribute [irreducible] Ends

end Exec
