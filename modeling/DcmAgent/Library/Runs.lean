import Mathlib.Tactic
import Mathlib.Computability.StateTransition

/-!
# Runs of a machine

A machine goes from a state to the next one until it halts. What every step keeps holds of all
states that it comes to, it halts in one state only, and up to there its states can be computed.
-/

namespace DcmAgent.Library

open StateTransition

variable {σ : Type*} {step : σ → Option σ} {a b c : σ}

lemma reaches_step (h : Reaches step a b) (hstep : step b = some c) : Reaches step a c :=
  h.tail hstep

/-- What every step keeps holds of every state that the machine comes to. -/
lemma invariant_of_reaches {P : σ → Prop} (h : Reaches step a b) (ha : P a)
    (hstep : ∀ s s', P s → step s = some s' → P s') : P b := by
  induction h with
  | refl => exact ha
  | tail _ hs ih => exact hstep _ _ ih hs

/-- The state that the machine halts in comes after all others. -/
lemma reaches_halt (h : Reaches step a b) (h' : Reaches step a c) (hc : step c = none) :
    Reaches step b c := by
  have hmem : c ∈ eval step a := mem_eval.mpr ⟨h', hc⟩
  rw [reaches_eval h] at hmem
  exact (mem_eval.mp hmem).1

/-- The machine halts in one state only. -/
lemma halt_unique (h : Reaches step a b) (h' : Reaches step a c) (hb : step b = none)
    (hc : step c = none) : b = c :=
  Part.mem_unique (mem_eval.mpr ⟨h, hb⟩) (mem_eval.mpr ⟨h', hc⟩)

/-- The state after at most `n` steps. -/
def stepsFrom (step : σ → Option σ) : ℕ → σ → σ
  | 0, s => s
  | n + 1, s => match step s with
    | none => s
    | some s' => stepsFrom step n s'

lemma reaches_stepsFrom (n : ℕ) (a : σ) : Reaches step a (stepsFrom step n a) := by
  induction n generalizing a with
  | zero => exact .refl
  | succ n ih =>
    rw [stepsFrom]
    cases hstep : step a with
    | none => exact .refl
    | some s => exact (ih s).head hstep

/-- A machine that halts comes only to the states up to there. -/
lemma exists_stepsFrom {n : ℕ} (hhalt : step (stepsFrom step n a) = none) (h : Reaches step a c) :
    ∃ k ≤ n, c = stepsFrom step k a := by
  induction n generalizing a with
  | zero =>
    exact ⟨0, le_rfl, (eval_maximal (mem_eval.mpr ⟨.refl, hhalt⟩)).mp h⟩
  | succ n ih =>
    rcases h.cases_head with rfl | ⟨b, hstep, hreach⟩
    · exact ⟨0, n.succ.zero_le, rfl⟩
    · have hstep : step a = some b := hstep
      simp only [stepsFrom, hstep] at hhalt
      obtain ⟨k, hk, rfl⟩ := ih hhalt hreach
      exact ⟨k + 1, Nat.succ_le_succ hk, by simp only [stepsFrom, hstep]⟩

end DcmAgent.Library
