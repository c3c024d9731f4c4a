import Mathlib.Computability.RegularExpressions
import Mathlib.Tactic

/-!
# Searching with regular expressions

The pieces that patterns are written with, and the search for a pattern that has to end where the
text ends. What lies in front of a match is left open.
-/

namespace DcmAgent.Library.Regex

open RegularExpression Computability

variable {α : Type*} {a : α} {as : List α} {P Q : RegularExpression α} {x : List α}

/-- A bracket expression. -/
def oneOf (as : List α) : RegularExpression α := as.foldr (fun a P => char a + P) 0

def word (as : List α) : RegularExpression α := as.foldr (fun a P => char a * P) 1

/-- Once or more often. -/
def many (P : RegularExpression α) : RegularExpression α := P * star P

/-- Once or not at all. -/
def optional (P : RegularExpression α) : RegularExpression α := 1 + P

/-- The pattern matches an end of the text. -/
def search [DecidableEq α] (P : RegularExpression α) (x : List α) : Bool := x.tails.any P.rmatch

lemma mem_mul : x ∈ (P * Q).matches' ↔ ∃ y ∈ P.matches', ∃ z ∈ Q.matches', x = y ++ z := by
  simp only [matches'_mul, Language.mem_mul, eq_comm]

lemma mem_char_mul : x ∈ (char a * P).matches' ↔ ∃ y ∈ P.matches', x = a :: y := by
  rw [mem_mul]
  constructor
  · rintro ⟨_, rfl, y, hy, rfl⟩
    exact ⟨y, hy, rfl⟩
  · rintro ⟨y, hy, rfl⟩
    exact ⟨[a], rfl, y, hy, rfl⟩

lemma mem_oneOf : x ∈ (oneOf as).matches' ↔ ∃ a ∈ as, x = [a] := by
  induction as with
  | nil => simp [oneOf, RegularExpression.matches'_zero, Language.notMem_zero]
  | cons a as ih =>
    have hstep : x ∈ (oneOf (a :: as)).matches' ↔ x = [a] ∨ x ∈ (oneOf as).matches' := Iff.rfl
    rw [hstep, ih, List.exists_mem_cons_iff]

lemma mem_word : x ∈ (word as).matches' ↔ x = as := by
  induction as generalizing x with
  | nil => exact Language.mem_one x
  | cons a as ih =>
    rw [word, List.foldr_cons, mem_char_mul]
    constructor
    · rintro ⟨y, hy, rfl⟩
      rw [ih.mp hy]
    · rintro rfl
      exact ⟨as, ih.mpr rfl, rfl⟩

lemma mem_many_oneOf : x ∈ (many (oneOf as)).matches' ↔ x ≠ [] ∧ ∀ a ∈ x, a ∈ as := by
  rw [many, mem_mul, matches'_star]
  constructor
  · rintro ⟨y, hy, z, hz, rfl⟩
    obtain ⟨a, ha, rfl⟩ := mem_oneOf.mp hy
    obtain ⟨L, rfl, hL⟩ := Language.mem_kstar.mp hz
    refine ⟨by simp, List.forall_mem_cons.mpr ⟨ha, fun b hb => ?_⟩⟩
    obtain ⟨w, hw, hb⟩ := List.mem_flatten.mp hb
    obtain ⟨c, hc, rfl⟩ := mem_oneOf.mp (hL w hw)
    rwa [List.mem_singleton.mp hb]
  · rintro ⟨hne, hall⟩
    obtain ⟨a, x, rfl⟩ := List.exists_cons_of_ne_nil hne
    obtain ⟨ha, hx⟩ := List.forall_mem_cons.mp hall
    refine ⟨[a], mem_oneOf.mpr ⟨a, ha, rfl⟩, x, ?_, rfl⟩
    refine Language.mem_kstar.mpr ⟨x.map fun b => [b], ?_, ?_⟩
    · rw [← List.flatMap_def, List.flatMap_singleton']
    · intro y hy
      obtain ⟨b, hb, rfl⟩ := List.mem_map.mp hy
      exact mem_oneOf.mpr ⟨b, hx b hb, rfl⟩

lemma mem_optional : x ∈ (optional P).matches' ↔ x = [] ∨ x ∈ P.matches' := Iff.rfl

lemma search_iff [DecidableEq α] :
    search P x ↔ ∃ front, ∃ y ∈ P.matches', x = front ++ y := by
  rw [search, List.any_eq_true]
  constructor
  · rintro ⟨y, hy, hmatch⟩
    obtain ⟨front, rfl⟩ := (List.mem_tails y x).mp hy
    exact ⟨front, y, (rmatch_iff_matches' P y).mp hmatch, rfl⟩
  · rintro ⟨front, y, hy, rfl⟩
    exact ⟨y, (List.mem_tails _ _).mpr (List.suffix_append front y),
      (rmatch_iff_matches' P y).mpr hy⟩

end DcmAgent.Library.Regex
