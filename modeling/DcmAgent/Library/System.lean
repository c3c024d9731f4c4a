import Mathlib.Tactic

/-!
# Transition systems

A deterministic step function on labelled actions, the states that its runs reach when every
step respects a guard, and the rule that proves a property of all of them.
-/

namespace DcmAgent.Library

/-- An initial state and a partial step function; an action also fixes the outcome of whatever
the environment decides. -/
structure System (σ α : Type*) where
  init : σ
  next : σ → α → Option σ

namespace System

variable {σ α : Type*} (S : System σ α)

/-- The state after a list of actions. -/
def exec : σ → List α → Option σ
  | s, [] => some s
  | s, a :: as => (S.next s a).bind fun s' => exec s' as

/-- The states reached by the runs whose steps all respect the guard. -/
inductive Reachable (guard : σ → α → Prop) : σ → Prop where
  | init : Reachable guard S.init
  | step {s s' : σ} {a : α} : Reachable guard s → guard s a → S.next s a = some s' →
      Reachable guard s'

/-- The guard that allows every step. -/
def anyStep : σ → α → Prop := fun _ _ => True

variable {S} {guard : σ → α → Prop}

@[simp] lemma exec_nil (s : σ) : S.exec s [] = some s := rfl

@[simp] lemma exec_cons (s : σ) (a : α) (as : List α) :
    S.exec s (a :: as) = (S.next s a).bind fun s' => S.exec s' as := rfl

/-- What holds initially and is preserved by every allowed step holds of every reachable
state. -/
theorem Reachable.invariant {P : σ → Prop} (hinit : P S.init)
    (hstep : ∀ s a s', P s → guard s a → S.next s a = some s' → P s') {s : σ}
    (h : S.Reachable guard s) : P s := by
  induction h with
  | init => exact hinit
  | step _ hg hn ih => exact hstep _ _ _ ih hg hn

variable (S) (guard) in
/-- Every step of the list respects the guard, as far as the list can be executed. -/
def Respects : σ → List α → Prop
  | _, [] => True
  | s, a :: as => guard s a ∧ (S.next s a).elim True fun s' => Respects s' as

instance Respects.decidable [∀ s a, Decidable (guard s a)] :
    ∀ s as, Decidable (S.Respects guard s as)
  | _, [] => inferInstanceAs (Decidable True)
  | s, a :: as =>
    have : Decidable ((S.next s a).elim True fun s' => S.Respects guard s' as) :=
      match S.next s a with
      | none => inferInstanceAs (Decidable True)
      | some s' => Respects.decidable s' as
    inferInstanceAs (Decidable (_ ∧ _))

lemma Respects.mono {guard' : σ → α → Prop} (himp : ∀ s a, guard' s a → guard s a) {s : σ}
    {as : List α} (h : S.Respects guard' s as) : S.Respects guard s as := by
  induction as generalizing s with
  | nil => trivial
  | cons a as ih =>
    obtain ⟨hg, hr⟩ := h
    refine ⟨himp s a hg, ?_⟩
    cases hn : S.next s a with
    | none => trivial
    | some s' =>
      rw [hn] at hr
      exact ih hr

/-- A run whose steps respect the guard ends in a reachable state. -/
lemma Reachable.of_exec {s s' : σ} (hs : S.Reachable guard s) {as : List α}
    (hr : S.Respects guard s as) (h : S.exec s as = some s') : S.Reachable guard s' := by
  induction as generalizing s with
  | nil =>
    cases h
    exact hs
  | cons a as ih =>
    rw [exec_cons, Option.bind_eq_some_iff] at h
    obtain ⟨s₁, h₁, h₂⟩ := h
    obtain ⟨hg, hr⟩ := hr
    rw [h₁] at hr
    exact ih (hs.step hg h₁) hr h₂

/-- A property that a step keeps exactly when it respects the guard holds after a run exactly when
the whole run respects it. -/
theorem exec_iff_respects {I P : σ → Prop}
    (hinv : ∀ s a s', I s → S.next s a = some s' → I s')
    (hstep : ∀ s a s', I s → S.next s a = some s' → (P s' ↔ P s ∧ guard s a))
    {s s' : σ} {as : List α} (hs : I s) (h : S.exec s as = some s') :
    P s' ↔ P s ∧ S.Respects guard s as := by
  induction as generalizing s with
  | nil =>
    cases h
    simp [Respects]
  | cons a as ih =>
    rw [exec_cons, Option.bind_eq_some_iff] at h
    obtain ⟨s₁, h₁, h₂⟩ := h
    rw [ih (hinv s a s₁ hs h₁) h₂, hstep s a s₁ hs h₁, Respects, h₁, and_assoc]
    rfl

end System

end DcmAgent.Library
