import Mathlib.Tactic

/-!
# Occurrences in a list

The leftmost non-overlapping occurrences of `w` cut a list into gaps. Joined by `w` the gaps give
the list back, and joined by another list they give the list with all of these occurrences
replaced.
-/

namespace DcmAgent.Library

variable {α : Type*} [DecidableEq α] {w s : List α} {c : α}

/-- The gaps, when the scan is still `k` elements inside the last occurrence. -/
def gaps (w : List α) : ℕ → List α → List (List α)
  | _, [] => [[]]
  | k + 1, _ :: s => gaps w k s
  | 0, c :: s =>
    if w.isPrefixOf (c :: s) then [] :: gaps w (w.length - 1) s
    else (gaps w 0 s).modifyHead (List.cons c)

/-- The number of the leftmost non-overlapping occurrences. -/
def occurrences (w s : List α) : ℕ := (gaps w 0 s).length - 1

/-- The list with these occurrences replaced. -/
def replaceAll (w r s : List α) : List α := r.intercalate (gaps w 0 s)

lemma gaps_ne_nil (w : List α) (k : ℕ) (s : List α) : gaps w k s ≠ [] := by
  fun_induction gaps w k s with
  | case1 => simp
  | case2 k c s ih => exact ih
  | case3 c s h ih => simp
  | case4 c s h ih => simpa using ih

lemma exists_gaps_eq_cons (w s : List α) : ∃ g gs, gaps w 0 s = g :: gs :=
  List.exists_cons_of_ne_nil (gaps_ne_nil w 0 s)

lemma length_gaps (w s : List α) : (gaps w 0 s).length = occurrences w s + 1 := by
  have := List.length_pos_iff.mpr (gaps_ne_nil w 0 s)
  unfold occurrences
  omega

/-- The rest of an occurrence is passed over. -/
lemma gaps_drop (w : List α) (k : ℕ) (s : List α) : gaps w k s = gaps w 0 (s.drop k) := by
  induction k generalizing s with
  | zero => rfl
  | succ k ih =>
    cases s with
    | nil => rfl
    | cons c s => exact ih s

lemma gaps_of_occurrence (hw : w ≠ []) (h : w <+: s) :
    gaps w 0 s = [] :: gaps w 0 (s.drop w.length) := by
  obtain ⟨n, hn⟩ : ∃ n, w.length = n + 1 :=
    ⟨w.length - 1, by have := List.length_pos_iff.mpr hw; omega⟩
  cases s with
  | nil => exact absurd (List.prefix_nil.mp h) hw
  | cons c s =>
    rw [gaps, if_pos (List.isPrefixOf_iff_prefix.mpr h), gaps_drop, hn]
    rfl

omit [DecidableEq α] in
lemma intercalate_modifyHead_cons (r : List α) (c : α) {gs : List (List α)} (hgs : gs ≠ []) :
    r.intercalate (gs.modifyHead (List.cons c)) = c :: r.intercalate gs := by
  match gs, hgs with
  | [g], _ => simp
  | g :: g' :: gs, _ => simp [List.intercalate_cons_cons]

omit [DecidableEq α] in
lemma intercalate_nil_cons (r : List α) {gs : List (List α)} (hgs : gs ≠ []) :
    r.intercalate ([] :: gs) = r ++ r.intercalate gs := by
  obtain ⟨g, gs, rfl⟩ := List.exists_cons_of_ne_nil hgs
  rw [List.intercalate_cons_cons, List.nil_append]

omit [DecidableEq α] in
lemma length_intercalate (r : List α) (gs : List (List α)) :
    (r.intercalate gs).length = gs.flatten.length + r.length * (gs.length - 1) := by
  induction gs with
  | nil => simp
  | cons g gs ih =>
    cases gs with
    | nil => simp
    | cons g' gs =>
      rw [List.intercalate_cons_cons, List.length_append, List.length_append, ih]
      simp only [List.flatten_cons, List.length_append, List.length_cons, Nat.add_sub_cancel]
      ring

/-- Between the gaps there are the occurrences and nothing else. -/
lemma intercalate_gaps (hw : w ≠ []) (k : ℕ) (s : List α) :
    w.intercalate (gaps w k s) = s.drop k := by
  fun_induction gaps w k s with
  | case1 k => simp
  | case2 k c s ih => exact ih
  | case3 c s hpre ih =>
    rw [intercalate_nil_cons w (gaps_ne_nil w _ s), ih, List.drop_zero]
    obtain ⟨a, w, rfl⟩ := List.exists_cons_of_ne_nil hw
    obtain ⟨rest, hrest⟩ := List.isPrefixOf_iff_prefix.mp hpre
    obtain ⟨rfl, rfl⟩ := List.cons.inj hrest
    simp
  | case4 c s hpre ih =>
    rw [intercalate_modifyHead_cons w c (gaps_ne_nil w 0 s), ih]
    rfl

/-- Replacing occurrences by themselves changes nothing. -/
theorem replaceAll_self (hw : w ≠ []) (s : List α) : replaceAll w w s = s :=
  intercalate_gaps hw 0 s

/-- Each replacement makes the same difference to the length. -/
theorem length_replaceAll (hw : w ≠ []) (r s : List α) :
    (replaceAll w r s).length + w.length * occurrences w s =
      s.length + r.length * occurrences w s := by
  have hs : s.length = (gaps w 0 s).flatten.length + w.length * occurrences w s := by
    conv_lhs => rw [← replaceAll_self hw s, replaceAll, length_intercalate]
    rfl
  rw [replaceAll, length_intercalate, hs, occurrences]
  ring

/-! ### Replacing -/

lemma replaceAll_nil (w r : List α) : replaceAll w r [] = [] := by
  simp [replaceAll, gaps]

lemma replaceAll_append_self (hw : w ≠ []) (r s : List α) :
    replaceAll w r (w ++ s) = r ++ replaceAll w r s := by
  rw [replaceAll, gaps_of_occurrence hw (List.prefix_append w s), List.drop_left,
    intercalate_nil_cons r (gaps_ne_nil w 0 s), replaceAll]

lemma replaceAll_cons (r : List α) (h : ¬w <+: c :: s) :
    replaceAll w r (c :: s) = c :: replaceAll w r s := by
  rw [replaceAll, gaps, if_neg fun hpre => h (List.isPrefixOf_iff_prefix.mp hpre),
    intercalate_modifyHead_cons r c (gaps_ne_nil w 0 s), replaceAll]

omit [DecidableEq α] in
/-- Induction along the occurrences of a word. -/
lemma occurrence_induction (hw : w ≠ []) {motive : List α → Prop} (nil : motive [])
    (occurrence : ∀ s, motive s → motive (w ++ s))
    (cons : ∀ a s, ¬w <+: a :: s → motive s → motive (a :: s)) (s : List α) : motive s := by
  induction hn : s.length using Nat.strong_induction_on generalizing s with
  | _ n ih =>
    cases s with
    | nil => exact nil
    | cons a s =>
      by_cases hpre : w <+: a :: s
      · obtain ⟨s', hs'⟩ := hpre
        have hpos := List.length_pos_iff.mpr hw
        rw [← hs', List.length_append] at hn
        rw [← hs']
        exact occurrence s' (ih s'.length (by omega) s' rfl)
      · rw [List.length_cons] at hn
        exact cons a s hpre (ih s.length (by omega) s rfl)

/-- What does not occur is not replaced. -/
lemma replaceAll_of_not_infix (r : List α) (h : ¬w <:+: s) : replaceAll w r s = s := by
  induction s with
  | nil => exact replaceAll_nil w r
  | cons a s ih =>
    rw [List.infix_cons_iff, not_or] at h
    rw [replaceAll_cons r h.1, ih h.2]

lemma mem_replaceAll {a : α} (hw : w ≠ []) {r : List α} (h : a ∈ replaceAll w r s) :
    a ∈ r ∨ a ∈ s := by
  induction s using occurrence_induction hw with
  | nil => simp [replaceAll_nil] at h
  | occurrence s ih =>
    rw [replaceAll_append_self hw] at h
    rcases List.mem_append.mp h with h | h
    · exact Or.inl h
    · exact (ih h).imp_right (List.mem_append_right w)
  | cons b s hpre ih =>
    rw [replaceAll_cons r hpre] at h
    rcases List.mem_cons.mp h with rfl | h
    · exact Or.inr List.mem_cons_self
    · exact (ih h).imp_right (List.mem_cons_of_mem b)

/-- No occurrence lies across an element that is not in the word. -/
lemma replaceAll_append_cons (hw : w ≠ []) (hc : c ∉ w) (r s t : List α) :
    replaceAll w r (s ++ c :: t) = replaceAll w r s ++ c :: replaceAll w r t := by
  induction s using occurrence_induction hw with
  | nil =>
    have hnot : ¬w <+: c :: t := by
      intro h
      obtain ⟨a, w, rfl⟩ := List.exists_cons_of_ne_nil hw
      obtain ⟨rfl, -⟩ := List.cons_prefix_cons.mp h
      exact hc List.mem_cons_self
    rw [List.nil_append, replaceAll_cons r hnot, replaceAll_nil, List.nil_append]
  | occurrence s ih =>
    rw [List.append_assoc, replaceAll_append_self hw, ih, replaceAll_append_self hw,
      List.append_assoc]
  | cons a s hpre ih =>
    have hnot : ¬w <+: a :: (s ++ c :: t) := by
      intro h
      rcases le_or_gt w.length (a :: s).length with hle | hlt
      · exact hpre (List.prefix_of_prefix_length_le h (List.prefix_append (a :: s) _) hle)
      · have hsub : (a :: s) ++ [c] <+: a :: (s ++ c :: t) := by simp
        have hcw := List.prefix_of_prefix_length_le hsub h (by simpa using hlt)
        exact hc (hcw.subset (by simp))
    rw [List.cons_append, replaceAll_cons r hnot, ih, replaceAll_cons r hpre, List.cons_append]

end DcmAgent.Library
