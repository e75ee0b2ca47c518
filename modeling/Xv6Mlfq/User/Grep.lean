import Mathlib.Tactic.Common

/-!
# Xv6Mlfq.User.Grep — the matcher of `grep`

`match`, `matchhere` and `matchstar` of `grep.c`.  A string is the list of the characters before its NUL, so that a test for the NUL
is a test for the empty list.

* `items`: a pattern read from left to right; `Matches`: what a sequence of items matches, and before what.
* `match_iff`: the matcher decides that language.
-/

namespace Xv6Mlfq.Grep

/-! ## The code -/

/-- `matchstar(c, re, text)`, where `here` is `matchhere(re, _)`. -/
def matchstar (here : List Char → Bool) (c : Char) : List Char → Bool
  | [] => here []
  | t :: text => here (t :: text) || ((t == c || c == '.') && matchstar here c text)

def matchhere : List Char → List Char → Bool
  | [], _ => true
  | c :: '*' :: re, text => matchstar (fun text => matchhere re text) c text
  | ['$'], text => text.isEmpty
  | _ :: _, [] => false
  | c :: re, t :: text => (c == '.' || c == t) && matchhere re text

/-- The loop of `match`. -/
def matchFrom (re : List Char) : List Char → Bool
  | [] => matchhere re []
  | t :: text => matchhere re (t :: text) || matchFrom re text

def «match» : List Char → List Char → Bool
  | '^' :: re, text => matchhere re text
  | re, text => matchFrom re text

/-! ## The pattern language -/

/-- `c*`, `$` at the end, and a character or `.`. -/
inductive Item
  | star (c : Char) | atEnd | one (c : Char)

def items : List Char → List Item
  | [] => []
  | c :: '*' :: re => .star c :: items re
  | ['$'] => [.atEnd]
  | c :: re => .one c :: items re

/-- A character of a pattern stands for a character of the text. -/
def Stands (c t : Char) : Prop := c = '.' ∨ c = t

/-- The items match `sub` where `rest` follows it. -/
inductive Matches : List Item → (sub rest : List Char) → Prop
  | nil {rest : List Char} : Matches [] [] rest
  | atEnd : Matches [.atEnd] [] []
  | one {c t : Char} {is : List Item} {sub rest : List Char} : Stands c t → Matches is sub rest →
      Matches (.one c :: is) (t :: sub) rest
  | star {c : Char} {is : List Item} {run sub rest : List Char} : (∀ t ∈ run, Stands c t) → Matches is sub rest →
      Matches (.star c :: is) (run ++ sub) rest

/-- The items match at the beginning of the text. -/
def MatchesHere (is : List Item) (text : List Char) : Prop := ∃ sub rest, text = sub ++ rest ∧ Matches is sub rest

/-- A substring of the text is matched; with `^`, one at the beginning. -/
def Found : List Char → List Char → Prop
  | '^' :: re, text => MatchesHere (items re) text
  | re, text => ∃ before here, text = before ++ here ∧ MatchesHere (items re) here

/-! ## The matcher decides it -/

variable {c t : Char} {is : List Item} {re text : List Char} {here : List Char → Bool}

theorem matchstar_iff : matchstar here c text = true ↔
    ∃ run rest, text = run ++ rest ∧ (∀ t ∈ run, Stands c t) ∧ here rest = true := by
  induction text with
  | nil =>
    refine ⟨fun h => ⟨[], [], rfl, nofun, h⟩, ?_⟩
    rintro ⟨run, rest, he, -, h⟩
    obtain ⟨-, rfl⟩ := List.append_eq_nil_iff.mp he.symm
    exact h
  | cons t text ih =>
    simp only [matchstar, Bool.or_eq_true, Bool.and_eq_true, beq_iff_eq, ih]
    constructor
    · rintro (h | ⟨ht, run, rest, rfl, hrun, h⟩)
      · exact ⟨[], _, rfl, nofun, h⟩
      · refine ⟨t :: run, rest, rfl, List.forall_mem_cons.mpr ⟨?_, hrun⟩, h⟩
        exact ht.symm.imp id Eq.symm
    · rintro ⟨run, rest, he, hrun, h⟩
      cases run with
      | nil => exact .inl (he ▸ h)
      | cons t' run =>
        obtain ⟨rfl, rfl⟩ := List.cons_eq_cons.mp he
        obtain ⟨ht, hrun⟩ := List.forall_mem_cons.mp hrun
        exact .inr ⟨(ht.imp id Eq.symm).symm, run, rest, rfl, hrun, h⟩

theorem matchesHere_star : MatchesHere (.star c :: is) text ↔
    ∃ run rest, text = run ++ rest ∧ (∀ t ∈ run, Stands c t) ∧ MatchesHere is rest := by
  constructor
  · rintro ⟨_, rest, rfl, h⟩
    cases h with
    | @star _ _ run sub _ hrun h => exact ⟨run, sub ++ rest, List.append_assoc .., hrun, sub, rest, rfl, h⟩
  · rintro ⟨run, _, rfl, hrun, sub, rest, rfl, h⟩
    exact ⟨run ++ sub, rest, (List.append_assoc ..).symm, .star hrun h⟩

theorem matchesHere_one : MatchesHere (.one c :: is) (t :: text) ↔ Stands c t ∧ MatchesHere is text := by
  constructor
  · rintro ⟨_, rest, he, h⟩
    cases h with
    | one ht h =>
      obtain ⟨rfl, rfl⟩ := List.cons_eq_cons.mp he
      exact ⟨ht, _, rest, rfl, h⟩
  · rintro ⟨ht, sub, rest, rfl, h⟩
    exact ⟨t :: sub, rest, rfl, .one ht h⟩

theorem matchhere_iff : matchhere re text = true ↔ MatchesHere (items re) text := by
  fun_induction matchhere re text with
  | case1 text => exact iff_of_true rfl ⟨[], text, rfl, .nil⟩
  | case2 text c re ih => rw [items, matchstar_iff, matchesHere_star]; simp only [ih]
  | case3 text =>
    rw [items, List.isEmpty_iff]
    constructor
    · rintro rfl
      exact ⟨[], [], rfl, .atEnd⟩
    · rintro ⟨_, _, rfl, ⟨⟩⟩
      rfl
  | case4 c re hstar hend =>
    rw [items]
    refine iff_of_false nofun ?_
    · rintro ⟨_, _, he, ⟨⟩⟩
      cases he
    · exact hstar
    · exact hend
  | case5 c re t text hstar hend ih =>
    rw [items, matchesHere_one, ← ih]
    · simp [Stands]
    · exact hstar
    · exact hend

theorem matchFrom_iff : matchFrom re text = true ↔ ∃ before here, text = before ++ here ∧ MatchesHere (items re) here := by
  induction text with
  | nil =>
    rw [matchFrom, matchhere_iff]
    refine ⟨fun h => ⟨[], [], rfl, h⟩, ?_⟩
    rintro ⟨before, here, he, h⟩
    obtain ⟨-, rfl⟩ := List.append_eq_nil_iff.mp he.symm
    exact h
  | cons t text ih =>
    rw [matchFrom, Bool.or_eq_true, matchhere_iff, ih]
    constructor
    · rintro (h | ⟨before, here, rfl, h⟩)
      · exact ⟨[], _, rfl, h⟩
      · exact ⟨t :: before, here, rfl, h⟩
    · rintro ⟨before, here, he, h⟩
      cases before with
      | nil => exact .inl (he ▸ h)
      | cons t' before =>
        obtain ⟨rfl, rfl⟩ := List.cons_eq_cons.mp he
        exact .inr ⟨before, here, rfl, h⟩

/-- **The matcher decides its pattern language.** -/
theorem match_iff (re text : List Char) : «match» re text = true ↔ Found re text := by
  unfold «match» Found
  split
  · exact matchhere_iff
  · exact matchFrom_iff

example : «match» "^a.*b$".toList "axxb".toList = true := by decide

end Xv6Mlfq.Grep
