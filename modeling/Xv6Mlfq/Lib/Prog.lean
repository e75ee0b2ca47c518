import Xv6Mlfq.Lib.Path

/-!
# Lib.Prog — programs as trees of actions

A program performs actions and goes on according to their answers.  What an action does is given apart from the program, so that
the same program can be run on states of any kind.

* `Prog A R α`: programs over actions `A`, the answer of `a` being an `R a`; a monad.
* `Prog.wp spec`: the weakest precondition, from a specification of each action, over states or over ghost states.
* `eval`, `wp_total`: a program run by itself, every action doing one thing.
* `run`, `run_sound`: a program run by itself, with choices.
-/

/-- A program: it returns, or performs an action and goes on with the answer. -/
inductive Prog (A : Type) (R : A → Type) (α : Type) : Type
  | ret (x : α)
  | act (a : A) (k : R a → Prog A R α)

namespace Prog

open Function

variable {A : Type} {R : A → Type} {α β : Type} {p : Prog A R α}

def bind : Prog A R α → (α → Prog A R β) → Prog A R β
  | .ret x, f => f x
  | .act a k, f => .act a fun r => (k r).bind f

instance : Monad (Prog A R) where
  pure := .ret
  bind := Prog.bind

def perform (a : A) : Prog A R (R a) := .act a .ret

/-! ## Weakest preconditions -/

section Wp

variable {G : Type} (spec : (a : A) → (R a → G → Prop) → G → Prop) {Q Q' : α → G → Prop} {g : G}

/-- What has to hold of `g` for the program to end with `Q`. -/
def wp : Prog A R α → (α → G → Prop) → G → Prop
  | .ret x, Q => Q x
  | .act a k, Q => spec a fun r => (k r).wp Q

@[simp] theorem wp_pure (x : α) : (pure x : Prog A R α).wp spec Q = Q x := rfl

@[simp] theorem wp_perform (a : A) {Q : R a → G → Prop} : (perform a : Prog A R (R a)).wp spec Q = spec a Q := rfl

@[simp] theorem wp_bind (p : Prog A R α) (f : α → Prog A R β) {Q : β → G → Prop} :
    (p >>= f).wp spec Q = p.wp spec fun x => (f x).wp spec Q := by
  induction p with
  | ret x => rfl
  | act a k ih =>
    have hk : (fun r => (k r >>= f).wp spec Q) = fun r => (k r).wp spec fun x => (f x).wp spec Q := funext ih
    show spec a _ = spec a _
    exact congrArg (spec a) hk

/-- The specifications keep what follows from the postcondition. -/
def Mono : Prop := ∀ a (Q Q' : R a → G → Prop) g, (∀ r g, Q r g → Q' r g) → spec a Q g → spec a Q' g

variable {spec}

theorem wp_mono (hm : Mono spec) (hQ : ∀ x g, Q x g → Q' x g) (hp : p.wp spec Q g) : p.wp spec Q' g := by
  induction p generalizing g with
  | ret x => exact hQ x g hp
  | act a k ih => exact hm a _ _ g (fun r g' hr => ih r hr) hp

end Wp

/-! ## One program by itself -/

section Eval

variable {σ E : Type} (exec : σ → (a : A) → Except E (R a × σ))

/-- The program run from a state, up to its end or to an error. -/
def eval : Prog A R α → σ → Except E (α × σ)
  | .ret x, s => .ok (x, s)
  | .act a k, s =>
    match exec s a with
    | .error e => .error e
    | .ok (r, s') => (k r).eval s'

/-- The specification of an action by what it does, which is not an error. -/
def total (a : A) (Q : R a → σ → Prop) (s : σ) : Prop := ∃ r s', exec s a = .ok (r, s') ∧ Q r s'

variable {exec} {Q : α → σ → Prop} {s : σ}

theorem total_mono : Mono (total exec) := by
  rintro a Q Q' s hQ ⟨r, s', hs, hr⟩
  exact ⟨r, s', hs, hQ r s' hr⟩

/-- **Total correctness**: the weakest precondition says that the program comes to its end, and with `Q`. -/
theorem wp_total : p.wp (total exec) Q s ↔ ∃ x s', p.eval exec s = .ok (x, s') ∧ Q x s' := by
  induction p generalizing s with
  | ret x =>
    constructor
    · intro hq
      exact ⟨x, s, rfl, hq⟩
    · rintro ⟨y, s', he, hq⟩
      cases he
      exact hq
  | act a k ih =>
    constructor
    · rintro ⟨r, s1, hs, hk⟩
      obtain ⟨x, s', he, hq⟩ := (ih r).mp hk
      exact ⟨x, s', by rw [eval, hs]; exact he, hq⟩
    · rintro ⟨x, s', he, hq⟩
      rw [eval] at he
      split at he
      · cases he
      · rename_i r s1 hs
        exact ⟨r, s1, hs, (ih r).mpr ⟨x, s', he, hq⟩⟩

/-- A run that has been computed. -/
theorem exists_eval_of_check [∀ x s', Decidable (Q x s')]
    (h : (match p.eval exec s with | .ok (x, s') => decide (Q x s') | .error _ => false) = true) :
    ∃ x s', p.eval exec s = .ok (x, s') ∧ Q x s' := by
  split at h
  · rename_i x s' he
    exact ⟨x, s', he, of_decide_eq_true h⟩
  · cases h

end Eval

section Run

variable {σ E C : Type} [Inhabited C] (exec : σ → (a : A) → C → Option (Except E (R a × σ)))

/-- The program run with the given choices, one for each action; `none` if an action is not enabled, an error if one fails. -/
def run : Prog A R α → σ → List C → Option (Except E (α × σ))
  | .ret x, s, _ => some (.ok (x, s))
  | .act a k, s, cs =>
    match exec s a (cs.headD default) with
    | none => none
    | some (.error e) => some (.error e)
    | some (.ok (r, s')) => (k r).run s' cs.tail

/-- What an outcome may be: an error that is `safe`, or a result with `Q`. -/
def Outcome (safe : E → Prop) (Q : α → σ → Prop) : Option (Except E (α × σ)) → Prop
  | none => True
  | some (.error e) => safe e
  | some (.ok (x, s)) => Q x s

/-- The specification of an action by what it does. -/
def effect (safe : E → Prop) (a : A) (Q : R a → σ → Prop) (s : σ) : Prop := ∀ c, Outcome safe Q (exec s a c)

variable {exec} {safe : E → Prop} {Q : α → σ → Prop} {s : σ}

theorem Outcome.mono {Q' : α → σ → Prop} {o : Option (Except E (α × σ))} (ho : Outcome safe Q o)
    (hQ : ∀ x s, Q x s → Q' x s) : Outcome safe Q' o := by
  match o, ho with
  | none, _ => trivial
  | some (.error e), ho => exact ho
  | some (.ok (x, s)), ho => exact hQ x s ho

omit [Inhabited C] in
theorem effect_mono : Mono (effect exec safe) := by
  intro a Q Q' s hQ hs c
  exact (hs c).mono hQ

theorem run_sound (cs : List C) (hp : p.wp (effect exec safe) Q s) : Outcome safe Q (p.run exec s cs) := by
  induction p generalizing s cs with
  | ret x => exact hp
  | act a k ih =>
    have ha := hp (cs.headD default)
    unfold run
    split
    · trivial
    · rename_i e he
      rw [he] at ha
      exact ha
    · rename_i r s' he
      rw [he] at ha
      exact ih r cs.tail ha

end Run

end Prog
