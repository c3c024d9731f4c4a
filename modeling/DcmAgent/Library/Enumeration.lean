import Mathlib.Order.Bounds.Basic
import Mathlib.Data.List.Basic

/-!
# Enumerations

The elements of a set after a start, listed in order without a gap. A list goes on with the least
element that comes later.
-/

namespace DcmAgent.Library

variable {α : Type*} [LinearOrder α] {S : Set α} {start u : α} {l : List α}

/-- The list has the elements of the set from the start up to its own last element. -/
structure Enumerates (S : Set α) (start : α) (l : List α) : Prop where
  sorted : l.Pairwise (· < ·)
  mem_iff : ∀ t, t ∈ l ↔ t ∈ S ∧ start < t ∧ t ≤ l.getLastD start

namespace Enumerates

lemma nil : Enumerates S start [] := by
  refine ⟨List.Pairwise.nil, fun t => ?_⟩
  simp only [List.not_mem_nil, List.getLastD_nil, false_iff, not_and, not_le]
  intro _ h
  exact h

lemma le_getLastD (h : Enumerates S start l) : start ≤ l.getLastD start := by
  rcases List.mem_cons.mp (List.getLastD_mem_cons (l := l) (a := start)) with heq | hmem
  · exact heq.ge
  · exact ((h.mem_iff _).mp hmem).2.1.le

lemma snoc (h : Enumerates S start l) (hu : IsLeast {t | l.getLastD start < t ∧ t ∈ S} u) :
    Enumerates S start (l ++ [u]) := by
  obtain ⟨⟨hlast, hmem⟩, hleast⟩ := hu
  constructor
  · rw [List.pairwise_append]
    refine ⟨h.sorted, List.pairwise_singleton _ _, fun t ht v hv => ?_⟩
    obtain rfl := List.mem_singleton.mp hv
    exact ((h.mem_iff t).mp ht).2.2.trans_lt hlast
  · intro t
    rw [List.getLastD_concat, List.mem_append, List.mem_singleton, h.mem_iff]
    constructor
    · rintro (⟨hin, hstart, hle⟩ | rfl)
      · exact ⟨hin, hstart, hle.trans hlast.le⟩
      · exact ⟨hmem, h.le_getLastD.trans_lt hlast, le_rfl⟩
    · rintro ⟨hin, hstart, hle⟩
      by_cases hearly : t ≤ l.getLastD start
      · exact Or.inl ⟨hin, hstart, hearly⟩
      · exact Or.inr (hle.antisymm (hleast ⟨not_le.mp hearly, hin⟩))

end Enumerates

end DcmAgent.Library
