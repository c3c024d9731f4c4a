import Mathlib.Tactic

/-!
# Recursions with a bound

A computation that calls itself is given a bound on the depth of its calls. `none` tells that the
bound has been too small, `some none` that the computation has ended with a failure. `Ends` is the
total correctness of such a computation; `Agrees` relates it to one that takes both for a failure,
and `Extends` to one with a larger bound.
-/

namespace DcmAgent.Library

abbrev Bounded := OptionT Option

namespace Bounded

variable {α β : Type} {x : Bounded α} {f : α → Bounded β} {fails fails' : Prop} {Q Q' : α → Prop}
  {R : β → Prop}

/-- A computation without calls. -/
def ofOption (o : Option α) : Bounded α := OptionT.mk (some o)

/-- A call below the bound. -/
def tooDeep : Bounded α := OptionT.mk none

/-- The computation ends, with a failure only if `fails` and with a result that satisfies `Q`. -/
def Ends (x : Bounded α) (fails : Prop) (Q : α → Prop) : Prop :=
  ∃ o, x.run = some o ∧ (o = none → fails) ∧ ∀ a ∈ o, Q a

lemma run_bind_of_none (h : x.run = some none) : (x >>= f).run = some none := by
  rw [OptionT.run_bind, h]
  rfl

lemma run_bind_of_some {a : α} (h : x.run = some (some a)) : (x >>= f).run = (f a).run := by
  rw [OptionT.run_bind, h]
  rfl

lemma run_bind_tooDeep (h : x.run = none) : (x >>= f).run = none := by
  rw [OptionT.run_bind, h]
  rfl

lemma Ends.pure {a : α} (h : Q a) : Ends (Pure.pure a) fails Q :=
  ⟨some a, rfl, by simp, by simpa using h⟩

lemma Ends.ofOption {o : Option α} (hfails : o = none → fails) (h : ∀ a ∈ o, Q a) :
    Ends (ofOption o) fails Q :=
  ⟨o, rfl, hfails, h⟩

lemma Ends.bind (hx : Ends x fails Q) (hf : ∀ a, Q a → Ends (f a) fails R) :
    Ends (x >>= f) fails R := by
  obtain ⟨o, ho, hfails, hQ⟩ := hx
  cases o with
  | none => exact ⟨none, run_bind_of_none ho, fun _ => hfails rfl, by simp⟩
  | some a =>
    obtain ⟨o', ho', h⟩ := hf a (hQ a rfl)
    exact ⟨o', (run_bind_of_some ho).trans ho', h⟩

lemma Ends.mono (hx : Ends x fails Q) (h : ∀ a, Q a → Q' a) : Ends x fails Q' := by
  obtain ⟨o, ho, hfails, hQ⟩ := hx
  exact ⟨o, ho, hfails, fun a ha => h a (hQ a ha)⟩

/-- The result is the one of the computation without a bound. -/
def Agrees (x : Bounded α) (y : Option α) : Prop := ∀ o, x.run = some o → y = o

lemma agrees_ofOption (o : Option α) : Agrees (ofOption o) o := fun _ h => Option.some.inj h

lemma agrees_pure (a : α) : Agrees (Pure.pure a) (some a) := fun _ h => Option.some.inj h

lemma agrees_tooDeep (y : Option α) : Agrees tooDeep y := fun _ h => nomatch h

lemma Agrees.bind {y : Option α} {g : α → Option β} (hx : Agrees x y)
    (hf : ∀ a, Agrees (f a) (g a)) : Agrees (x >>= f) (y.bind g) := by
  intro o h
  cases hrun : x.run with
  | none => simp [run_bind_tooDeep hrun] at h
  | some o' =>
    rw [hx o' hrun]
    cases o' with
    | none => simpa [run_bind_of_none hrun] using h
    | some a => exact hf a o ((run_bind_of_some hrun).symm.trans h)

/-- With a larger bound the computation still ends, and with the same result. -/
def Extends (x y : Bounded α) : Prop := ∀ o, x.run = some o → y.run = some o

lemma Extends.refl (x : Bounded α) : Extends x x := fun _ h => h

lemma extends_tooDeep (x : Bounded α) : Extends tooDeep x := fun _ h => nomatch h

lemma Extends.bind {y : Bounded α} {g : α → Bounded β} (hx : Extends x y)
    (hf : ∀ a, Extends (f a) (g a)) : Extends (x >>= f) (y >>= g) := by
  intro o h
  cases hrun : x.run with
  | none => simp [run_bind_tooDeep hrun] at h
  | some o' =>
    have hy := hx o' hrun
    cases o' with
    | none =>
      rw [run_bind_of_none hrun] at h
      rwa [run_bind_of_none hy]
    | some a =>
      rw [run_bind_of_some hrun] at h
      rw [run_bind_of_some hy]
      exact hf a o h

/-- A computation that ends agrees with its result. -/
lemma Ends.of_agrees {y : Option α} (hx : Ends x fails Q) (hy : Agrees x y) :
    x.run = some y ∧ (y = none → fails) ∧ ∀ a ∈ y, Q a := by
  obtain ⟨o, ho, h⟩ := hx
  obtain rfl := hy o ho
  exact ⟨ho, h⟩

end Bounded

end DcmAgent.Library
