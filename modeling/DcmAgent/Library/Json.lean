import Mathlib.Tactic

/-!
# JSON

The values of JSON over any type of numbers. A character stands for a byte.
-/

namespace DcmAgent.Library

inductive Json (ν : Type) where
  | null
  | bool (b : Bool)
  | number (x : ν)
  | string (s : List Char)
  | array (items : List (Json ν))
  | object (members : List (List Char × Json ν))

def decimal (z : ℤ) : List Char :=
  if z < 0 then '-' :: Nat.toDigits 10 z.natAbs else Nat.toDigits 10 z.natAbs

lemma exists_decimal_eq_cons (z : ℤ) :
    ∃ c t, decimal z = c :: t ∧ (c = '-' ∨ c.isDigit = true) := by
  unfold decimal
  split_ifs
  · exact ⟨'-', _, rfl, Or.inl rfl⟩
  · obtain ⟨c, t, h⟩ := List.exists_cons_of_ne_nil (Nat.toDigits_ne_nil (b := 10) (n := z.natAbs))
    refine ⟨c, t, h, Or.inr (Nat.isDigit_of_mem_toDigits (b := 10) (n := z.natAbs) ?_ ?_ ?_)⟩
    · decide
    · decide
    · exact h ▸ List.mem_cons_self

lemma isDigit_of_mem_toDigits {n : ℕ} {c : Char} (hc : c ∈ Nat.toDigits 10 n) :
    c.isDigit = true := Nat.isDigit_of_mem_toDigits (by decide) (by decide) hc

lemma mem_decimal {z : ℤ} {c : Char} (hc : c ∈ decimal z) : c = '-' ∨ c.isDigit = true := by
  unfold decimal at hc
  split_ifs at hc
  · rcases List.mem_cons.mp hc with rfl | hc
    · exact .inl rfl
    · exact .inr (isDigit_of_mem_toDigits hc)
  · exact .inr (isDigit_of_mem_toDigits hc)

lemma toDigits_injective : Function.Injective (Nat.toDigits 10) := fun n m h => by
  rw [← Nat.ofDigitChars_ten_toDigits (n := n), h, Nat.ofDigitChars_ten_toDigits]

lemma decimal_injective : Function.Injective decimal := by
  have hminus (n m : ℕ) : '-' :: Nat.toDigits 10 n ≠ Nat.toDigits 10 m := by
    intro h
    have hdigit := isDigit_of_mem_toDigits (n := m) (h ▸ List.mem_cons_self)
    simp at hdigit
  intro z w h
  unfold decimal at h
  split_ifs at h with hz hw hw
  · have := toDigits_injective (List.cons.inj h).2
    omega
  · exact absurd h (hminus _ _)
  · exact absurd h.symm (hminus _ _)
  · have := toDigits_injective h
    omega

end DcmAgent.Library
