import Xv6Mlfq.Lib.Index
import Mathlib.Algebra.Order.BigOperators.Group.List
import Mathlib.Algebra.Order.Group.Nat

/-!
# Lib.Path — runs of a labelled transition system, with their history

A system is a partial step function `step : σ → ε → Option σ` (`none`: the label is not enabled).
`Path step s0 h s` is a run from `s0` to `s`; `h` is its history, the list of `(state, label)` pairs
of the steps taken, newest first.  The states of the run are the first components of `h` and `s`.

* `Path.inv`, `Path.inv_hist`: the invariant rules (over states, over histories).
* `Path.trans`, `Path.split`, `Path.cut`: concatenation, and the run cut at one of its steps.
* `Path.map`: a step-preserving projection maps runs to runs.
* `Path.simulate`: forward simulation, with stuttering.
* `total`, `Path.potential`: costs summed along a run, and the potential rule.
* `replay`: a list of labels executed, so that a concrete run is found by evaluation.
-/

namespace Lts

variable {σ ε : Type*} {I : σ → Prop} {x : σ}

/-- A run from `s0`, indexed by its history (newest step first) and its last state. -/
inductive Path (step : σ → ε → Option σ) (s0 : σ) : List (σ × ε) → σ → Prop
  | nil : Path step s0 [] s0
  | snoc {h : List (σ × ε)} {s s' : σ} {e : ε} :
      Path step s0 h s → step s e = some s' → Path step s0 ((s, e) :: h) s'

variable {step : σ → ε → Option σ} {s0 s s' : σ} {h k : List (σ × ε)} {e : ε}

/-- **Invariant rule.** -/
theorem Path.inv (hp : Path step s0 h s) (h0 : I s0)
    (hstep : ∀ s e s', I s → step s e = some s' → I s') : I s := by
  induction hp with
  | nil => exact h0
  | snoc _ hs ih => exact hstep _ _ _ ih hs

/-- **Invariant rule** for a property of the history and the last state. -/
theorem Path.inv_hist {I : List (σ × ε) → σ → Prop} (hp : Path step s0 h s) (h0 : I [] s0)
    (hstep : ∀ h s e s', Path step s0 h s → I h s → step s e = some s' → I ((s, e) :: h) s') :
    I h s := by
  induction hp with
  | nil => exact h0
  | snoc hp hs ih => exact hstep _ _ _ _ hp ih hs

theorem Path.trans {t : σ} (hp : Path step s0 h s) (hq : Path step s k t) :
    Path step s0 (k ++ h) t := by
  induction hq with
  | nil => exact hp
  | snoc _ hs ih => exact .snoc ih hs

/-- A run cut at one of its steps. -/
theorem Path.split (hp : Path step s0 h s) (hx : (x, e) ∈ h) :
    ∃ h1 h2 y, h = h2 ++ (x, e) :: h1 ∧ Path step s0 h1 x ∧ step x e = some y ∧
      Path step y h2 s := by
  induction hp with
  | nil => cases hx
  | @snoc h' z z' e' hp hs ih =>
    rcases List.mem_cons.mp hx with heq | hmem
    · cases heq
      exact ⟨h', [], z', rfl, hp, hs, .nil⟩
    · obtain ⟨h1, h2, y, rfl, hp1, hy, hp2⟩ := ih hmem
      exact ⟨h1, (z, e') :: h2, y, rfl, hp1, hy, .snoc hp2 hs⟩

/-- A run cut at a given step of its history. -/
theorem Path.cut (hp : Path step s0 (k ++ (x, e) :: h) s) :
    Path step s0 h x ∧ ∃ y, step x e = some y ∧ Path step y k s := by
  induction k generalizing s with
  | nil =>
    cases hp with
    | snoc hp hs => exact ⟨hp, s, hs, .nil⟩
  | cons z k ih =>
    cases hp with
    | snoc hp hs =>
      obtain ⟨hx, y, hy, hk⟩ := ih hp
      exact ⟨hx, y, hy, .snoc hk hs⟩

/-- A run of at least one step begins with a step from its first state. -/
theorem Path.first_mem (hp : Path step s0 h s) (hne : h ≠ []) : ∃ e, (s0, e) ∈ h := by
  induction hp with
  | nil => exact absurd rfl hne
  | @snoc h' z z' e' hp hs ih =>
    cases hp with
    | nil => exact ⟨e', List.mem_cons_self⟩
    | snoc =>
      obtain ⟨e, he⟩ := ih (by simp)
      exact ⟨e, List.mem_cons_of_mem _ he⟩

section Map

variable {τ δ : Type*} {step' : τ → δ → Option τ} {f : σ → τ} {g : σ → ε → δ}

/-- **Projection rule**: if every step of the run is a step of the image system, the image of the
run is a run. -/
theorem Path.map (hp : Path step s0 h s) (h0 : I s0)
    (hI : ∀ s e s', I s → step s e = some s' → I s')
    (hstep : ∀ s e s', I s → step s e = some s' → step' (f s) (g s e) = some (f s')) :
    Path step' (f s0) (h.map fun x => (f x.1, g x.1 x.2)) (f s) := by
  induction hp with
  | nil => exact .nil
  | snoc hp hs ih => exact .snoc ih (hstep _ _ _ (hp.inv h0 hI) hs)

/-- **Forward simulation**: if every step of a run is a step of the other system or none, as far as `R`
can tell, then `R` relates its last state to one that the other system reaches. -/
theorem Path.simulate {R : σ → τ → Prop} {t0 : τ} (hp : Path step s0 h s) (h0 : R s0 t0)
    (hstep : ∀ h s e s' k t, Path step s0 h s → Path step' t0 k t → R s t → step s e = some s' →
      ∃ t', (t' = t ∨ ∃ d, step' t d = some t') ∧ R s' t') :
    ∃ k t, Path step' t0 k t ∧ R s t := by
  induction hp with
  | nil => exact ⟨[], t0, .nil, h0⟩
  | snoc hp hs ih =>
    obtain ⟨k, t, hq, hR⟩ := ih
    obtain ⟨t', ht | ⟨d, hd⟩, hR'⟩ := hstep _ _ _ _ _ _ hp hq hR hs
    · exact ⟨k, t, hq, ht ▸ hR'⟩
    · exact ⟨_, t', .snoc hq hd, hR'⟩

end Map

/-! ## Costs along a run -/

/-- The sum of a per-step cost over a history. -/
def total (f : σ → ε → ℕ) (h : List (σ × ε)) : ℕ := (h.map fun x => f x.1 x.2).sum

@[simp] theorem total_nil (f : σ → ε → ℕ) : total f ([] : List (σ × ε)) = 0 := rfl

@[simp] theorem total_cons (f : σ → ε → ℕ) (x : σ × ε) (h : List (σ × ε)) :
    total f (x :: h) = f x.1 x.2 + total f h := by simp [total]

theorem le_total_of_mem (f : σ → ε → ℕ) {x : σ × ε} (hx : x ∈ h) : f x.1 x.2 ≤ total f h :=
  List.single_le_sum (by simp) _ (List.mem_map_of_mem hx)

theorem total_append (f : σ → ε → ℕ) (h k : List (σ × ε)) :
    total f (h ++ k) = total f h + total f k := by simp [total]

theorem total_add (f g : σ → ε → ℕ) (h : List (σ × ε)) :
    total (fun s e => f s e + g s e) h = total f h + total g h := by
  induction h with
  | nil => rfl
  | cons x h ih => simp only [total_cons, ih]; omega

/-- **Potential rule**: if every step pays its cost `f` out of the potential `Φ` and its gain `g`, the
total cost of a run is at most the initial potential plus the total gain.  `Q` is what is known of
the steps of the run and `I` an invariant of such runs. -/
theorem Path.potential {Q : σ → ε → Prop} {Φ : σ → ℕ} {f g : σ → ε → ℕ}
    (hp : Path step s0 h s) (hQ : ∀ x ∈ h, Q x.1 x.2) (h0 : I s0)
    (hI : ∀ s e s', I s → Q s e → step s e = some s' → I s')
    (hpay : ∀ s e s', I s → Q s e → step s e = some s' → Φ s' + f s e ≤ Φ s + g s e) :
    I s ∧ Φ s + total f h ≤ Φ s0 + total g h := by
  induction hp with
  | nil => exact ⟨h0, by simp⟩
  | @snoc h' z z' e' _ hs ih =>
    obtain ⟨hz, hle⟩ := ih fun x hx => hQ x (List.mem_cons_of_mem _ hx)
    have hq : Q z e' := hQ (z, e') List.mem_cons_self
    refine ⟨hI z e' z' hz hq hs, ?_⟩
    have hstep := hpay z e' z' hz hq hs
    simp only [total_cons]
    omega

/-! ## Replaying a list of labels -/

/-- Execute a list of labels after the history `h`. -/
def replay (step : σ → ε → Option σ) : List (σ × ε) → σ → List ε → Option (List (σ × ε) × σ)
  | h, s, [] => some (h, s)
  | h, s, e :: es =>
    match step s e with
    | some s' => replay step ((s, e) :: h) s' es
    | none => none

theorem Path.of_replay {es : List ε} (hp : Path step s0 h s) (hr : replay step h s es = some (k, s')) :
    Path step s0 k s' := by
  induction es generalizing h s with
  | nil => cases hr; exact hp
  | cons e es ih =>
    simp only [replay] at hr
    split at hr
    next t ht => exact ih (.snoc hp ht) hr
    next => cases hr

/-- A replay that succeeds and passes a check is a run whose history and last state pass it. -/
theorem exists_path_of_replay (P : List (σ × ε) → σ → Prop) [∀ h s, Decidable (P h s)] (es : List ε)
    (hr : ((replay step [] s0 es).any fun x => decide (P x.1 x.2)) = true) :
    ∃ h s, Path step s0 h s ∧ P h s := by
  cases hx : replay step [] s0 es with
  | none => rw [hx] at hr; cases hr
  | some x =>
    rw [hx] at hr
    exact ⟨x.1, x.2, Path.of_replay .nil hx, of_decide_eq_true hr⟩

/-- Two replays, one after the other. -/
theorem exists_paths_of_replay (P : List (σ × ε) → σ → List (σ × ε) → σ → Prop)
    [∀ h s k t, Decidable (P h s k t)] (es es' : List ε)
    (hr : ((replay step [] s0 es).any fun x => (replay step [] x.2 es').any fun y =>
      decide (P x.1 x.2 y.1 y.2)) = true) :
    ∃ h s k t, Path step s0 h s ∧ Path step s k t ∧ P h s k t := by
  cases hx : replay step [] s0 es with
  | none => rw [hx] at hr; cases hr
  | some x =>
    rw [hx] at hr
    obtain ⟨k, t, hp, hP⟩ := exists_path_of_replay (fun k t => P x.1 x.2 k t) es' hr
    exact ⟨x.1, x.2, k, t, Path.of_replay .nil hx, hp, hP⟩

end Lts
