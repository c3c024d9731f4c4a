import Mathlib.Tactic

/-!
# Lists cut at separators

`List.splitOn` cuts a list at one separator. `runs` are the maximal parts without separators of a
kind. Functions that keep the cuts can be applied to the parts one by one.
-/

namespace DcmAgent.Library

variable {α : Type*} [DecidableEq α] {c : α} {p : α → Bool} {s t : List α}

/-- Induction along the cuts of a list at `c`. -/
lemma cut_induction (c : α) {motive : List α → Prop} (plain : ∀ s, c ∉ s → motive s)
    (cut : ∀ s t, c ∉ s → motive t → motive (s ++ c :: t)) (s : List α) : motive s := by
  induction hn : s.length using Nat.strong_induction_on generalizing s with
  | _ n ih =>
    by_cases hmem : c ∈ s
    · obtain ⟨a, b, rfl, ha⟩ := List.eq_append_cons_of_mem hmem
      apply cut a b ha
      apply ih b.length _ b rfl
      rw [← hn, List.length_append, List.length_cons]
      omega
    · exact plain s hmem

lemma mem_of_mem_splitOn {x : α} (ht : t ∈ s.splitOn c) (hx : x ∈ t) : x ∈ s ∧ x ≠ c := by
  induction s using cut_induction c with
  | plain s hs =>
    rw [List.splitOn_eq_singleton hs, List.mem_singleton] at ht
    subst ht
    exact ⟨hx, fun h => hs (h ▸ hx)⟩
  | cut a b ha ih =>
    rw [List.splitOn_append_cons_self_of_not_mem ha] at ht
    rcases List.mem_cons.mp ht with rfl | ht
    · exact ⟨List.mem_append_left _ hx, fun h => ha (h ▸ hx)⟩
    · obtain ⟨hmem, hne⟩ := ih ht
      exact ⟨List.mem_append_right _ (List.mem_cons_of_mem _ hmem), hne⟩

/-- What is not a separator is in one of the parts. -/
lemma exists_mem_splitOn {x : α} (hx : x ∈ s) (hne : x ≠ c) : ∃ t ∈ s.splitOn c, x ∈ t := by
  induction s using cut_induction c with
  | plain s hs =>
    rw [List.splitOn_eq_singleton hs]
    exact ⟨s, List.mem_singleton_self s, hx⟩
  | cut a b ha ih =>
    rw [List.splitOn_append_cons_self_of_not_mem ha]
    rcases List.mem_append.mp hx with hx | hx
    · exact ⟨a, List.mem_cons_self, hx⟩
    · rcases List.mem_cons.mp hx with rfl | hx
      · exact absurd rfl hne
      · obtain ⟨t, ht, hmem⟩ := ih hx
        exact ⟨t, List.mem_cons_of_mem _ ht, hmem⟩

lemma eq_of_splitOn_singleton (h : s.splitOn c = [t]) : s = t := by
  have hs : [c].intercalate (s.splitOn c) = s := List.intercalate_splitOn c
  rw [← hs, h, List.intercalate_singleton]

lemma eq_of_splitOn_pair {a b : List α} (h : s.splitOn c = [a, b]) : s = a ++ c :: b := by
  have hs : [c].intercalate (s.splitOn c) = s := List.intercalate_splitOn c
  rw [← hs, h]
  simp

lemma splitOn_pair {a b : List α} (ha : c ∉ a) (hb : c ∉ b) :
    (a ++ c :: b).splitOn c = [a, b] := by
  rw [List.splitOn_append_cons_self_of_not_mem ha, List.splitOn_eq_singleton hb]

/-! ### Functions on the parts -/

/-- The function works on both sides of a separator on its own. -/
structure KeepsCuts (c : α) (f : List α → List α) : Prop where
  append : ∀ s t, f (s ++ c :: t) = f s ++ c :: f t
  notMem : ∀ s, c ∉ s → c ∉ f s

namespace KeepsCuts

variable {f g : List α → List α}

omit [DecidableEq α] in
lemma comp (hg : KeepsCuts c g) (hf : KeepsCuts c f) : KeepsCuts c fun s => g (f s) where
  append s t := by rw [hf.append, hg.append]
  notMem s hs := hg.notMem _ (hf.notMem s hs)

omit [DecidableEq α] in
lemma foldl {β : Type*} {f : List α → β → List α} (l : List β)
    (h : ∀ x ∈ l, KeepsCuts c (f · x)) : KeepsCuts c fun s => l.foldl f s := by
  induction l with
  | nil => exact ⟨fun _ _ => rfl, fun _ hs => hs⟩
  | cons x l ih =>
    have hrest := ih fun y hy => h y (List.mem_cons_of_mem _ hy)
    exact hrest.comp (h x List.mem_cons_self)

omit [DecidableEq α] in
lemma map {f : α → α} (hf : ∀ x, f x = c ↔ x = c) : KeepsCuts c (List.map f) where
  append s t := by rw [List.map_append, List.map_cons, (hf c).mpr rfl]
  notMem s hs h := by
    obtain ⟨x, hx, heq⟩ := List.mem_map.mp h
    exact hs ((hf x).mp heq ▸ hx)

/-- The parts of the result are the results of the parts. -/
theorem splitOn (hf : KeepsCuts c f) (s : List α) : (f s).splitOn c = (s.splitOn c).map f := by
  induction s using cut_induction c with
  | plain s hs =>
    rw [List.splitOn_eq_singleton hs, List.splitOn_eq_singleton (hf.notMem s hs)]
    rfl
  | cut a b ha ih =>
    rw [hf.append, List.splitOn_append_cons_self_of_not_mem ha,
      List.splitOn_append_cons_self_of_not_mem (hf.notMem a ha), ih]
    rfl

/-- Without a separator in the result there is none in the argument. -/
lemma singleton (hf : KeepsCuts c f) (h : c ∉ f s) : s.splitOn c = [s] := by
  have hs := hf.splitOn s
  rw [List.splitOn_eq_singleton h] at hs
  obtain ⟨t, ht, -⟩ := List.map_eq_singleton_iff.mp hs.symm
  rw [ht, eq_of_splitOn_singleton ht]

lemma pair (hf : KeepsCuts c f) {a b : List α} (h : f s = a ++ c :: b) (ha : c ∉ a) (hb : c ∉ b) :
    ∃ x y, s.splitOn c = [x, y] ∧ f x = a ∧ f y = b := by
  have hs := hf.splitOn s
  rw [h, splitOn_pair ha hb] at hs
  obtain ⟨x, ys, hx, hfx, hys⟩ := List.map_eq_cons_iff.mp hs.symm
  obtain ⟨y, rfl, hfy⟩ := List.map_eq_singleton_iff.mp hys
  exact ⟨x, y, hx, hfx, hfy⟩

end KeepsCuts

/-! ### Runs -/

/-- The maximal parts, not empty, in which no element has the property. -/
def runs (p : α → Bool) (s : List α) : List (List α) := (s.splitOnP p).filter (· ≠ [])

omit [DecidableEq α] in
lemma flatten_splitOnP (p : α → Bool) (s : List α) :
    (s.splitOnP p).flatten = s.filter (!p ·) := by
  induction s with
  | nil => rfl
  | cons x s ih =>
    obtain ⟨t, ts, hts⟩ := List.exists_cons_of_ne_nil (List.splitOnP_ne_nil p s)
    rw [hts] at ih
    rw [List.splitOnP_cons_eq_if_modifyHead, hts]
    cases hx : p x
    · rw [List.filter_cons_of_pos (by simp [hx]), ← ih]
      rfl
    · rw [List.filter_cons_of_neg (by simp [hx]), ← ih]
      rfl

omit [DecidableEq α] in
/-- Together the runs are the list without what separates them. -/
lemma flatten_runs (p : α → Bool) (s : List α) : (runs p s).flatten = s.filter (!p ·) := by
  rw [runs, ← flatten_splitOnP]
  induction s.splitOnP p with
  | nil => rfl
  | cons t ts ih =>
    by_cases ht : t = []
    · simpa [ht] using ih
    · simpa [ht] using ih

omit [DecidableEq α] in
lemma ne_nil_of_mem_runs (h : t ∈ runs p s) : t ≠ [] := by
  simpa using (List.mem_filter.mp h).2

omit [DecidableEq α] in
lemma not_of_mem_runs {x : α} (h : t ∈ runs p s) (hx : x ∈ t) : p x = false := by
  have hmem : x ∈ s.filter (!p ·) := by
    rw [← flatten_runs]
    exact List.mem_flatten_of_mem h hx
  simpa using (List.mem_filter.mp hmem).2

/-- A list is cut into its runs after it has been cut at one of the separators. -/
lemma runs_splitOn (hc : p c = true) (s : List α) :
    runs p s = (s.splitOn c).flatMap (runs p) := by
  induction s using cut_induction c with
  | plain s hs => rw [List.splitOn_eq_singleton hs, List.flatMap_singleton]
  | cut a b ha ih =>
    rw [List.splitOn_append_cons_self_of_not_mem ha, List.flatMap_cons, ← ih, runs,
      List.splitOnP_append_cons a b hc, List.filter_append]
    rfl

omit [DecidableEq α] in
/-- Lists that are joined are shorter than before, unless each of them is alone. -/
lemma filter_flatten_eq_iff {l : List (List (List α))}
    (hl : ∀ ts ∈ l, ∀ t ∈ ts, t ≠ []) :
    (l.map List.flatten).filter (· ≠ []) = l.flatten ↔ ∀ ts ∈ l, ts.length ≤ 1 := by
  have hle : ∀ m : List (List (List α)), (∀ ts ∈ m, ∀ t ∈ ts, t ≠ []) →
      ((m.map List.flatten).filter (· ≠ [])).length ≤ m.flatten.length := by
    intro m hm
    induction m with
    | nil => simp
    | cons ts m ih =>
      have hrest := ih fun ts' h => hm ts' (List.mem_cons_of_mem _ h)
      cases ts with
      | nil => simpa using hrest
      | cons t ts =>
        have ht := hm _ List.mem_cons_self t List.mem_cons_self
        simp only [List.map_cons, List.flatten_cons]
        rw [List.filter_cons_of_pos (by simp [ht])]
        simp only [List.length_cons, List.length_append]
        omega
  induction l with
  | nil => simp
  | cons ts l ih =>
    have hl' : ∀ ts ∈ l, ∀ t ∈ ts, t ≠ [] := fun ts' h => hl ts' (List.mem_cons_of_mem _ h)
    have hlen := hle l hl'
    rw [List.forall_mem_cons]
    refine Iff.trans ?_ (and_congr_right fun _ => ih hl')
    cases ts with
    | nil => simp
    | cons t ts =>
      have ht := hl _ List.mem_cons_self t List.mem_cons_self
      simp only [List.map_cons, List.flatten_cons]
      rw [List.filter_cons_of_pos (by simp [ht])]
      cases ts with
      | nil => simp
      | cons t' ts =>
        refine iff_of_false (fun h => ?_) fun h => by simp at h
        have := congrArg List.length h
        simp only [List.length_cons, List.length_append, List.flatten_cons] at this
        omega

/-- To cut a list at one separator and delete the others gives its runs if and only if no part has
two of them. -/
theorem filter_splitOn_eq_runs_iff (hc : p c = true) (s : List α) :
    ((s.splitOn c).map (·.filter (!p ·))).filter (· ≠ []) = runs p s ↔
      ∀ t ∈ s.splitOn c, (runs p t).length ≤ 1 := by
  have hmap : (s.splitOn c).map (·.filter (!p ·)) =
      ((s.splitOn c).map (runs p)).map List.flatten := by
    rw [List.map_map]
    exact List.map_congr_left fun t _ => (flatten_runs p t).symm
  rw [hmap, runs_splitOn hc, List.flatMap_def, filter_flatten_eq_iff]
  · simp
  · intro ts hts t ht
    obtain ⟨q, -, rfl⟩ := List.mem_map.mp hts
    exact ne_nil_of_mem_runs ht

/-! ### Texts joined -/

section Join

variable {ι : Type*} {g : ι → List α} {l : List ι}

lemma splitOn_flatMap (c : α) (g : ι → List α) (l : List ι) :
    ((l.flatMap fun i => g i ++ [c]).splitOn c).dropLast = l.flatMap fun i => (g i).splitOn c := by
  induction l with
  | nil => rfl
  | cons i l ih =>
    rw [List.flatMap_cons, List.flatMap_cons, ← ih]
    have hne : (l.flatMap fun i => g i ++ [c]).splitOn c ≠ [] := List.splitOn_ne_nil _ _
    rw [← List.dropLast_append_of_ne_nil hne]
    congr 1
    induction g i using cut_induction c with
    | plain s hs =>
      rw [List.splitOn_eq_singleton hs, List.append_assoc, List.singleton_append,
        List.splitOn_append_cons_self_of_not_mem hs]
      rfl
    | cut a b ha ih =>
      rw [List.append_assoc, List.append_assoc, List.cons_append, ← List.append_assoc b,
        List.splitOn_append_cons_self_of_not_mem ha, ih,
        List.splitOn_append_cons_self_of_not_mem ha]
      rfl

lemma length_splitOn_pos (c : α) (s : List α) : 1 ≤ (s.splitOn c).length :=
  List.length_pos_of_ne_nil (List.splitOn_ne_nil c s)

/-- The parts belong to the elements one by one if and only if no text has a separator. -/
theorem forall₂_flatMap_splitOn_iff {R : List α → ι → Prop} :
    List.Forall₂ R (l.flatMap fun i => (g i).splitOn c) l ↔ ∀ i ∈ l, c ∉ g i ∧ R (g i) i := by
  have hle : ∀ m : List ι, m.length ≤ (m.flatMap fun i => (g i).splitOn c).length := by
    intro m
    induction m with
    | nil => simp
    | cons i m ih =>
      have hpos := length_splitOn_pos c (g i)
      rw [List.flatMap_cons, List.length_append, List.length_cons]
      omega
  induction l with
  | nil => simp
  | cons i l ih =>
    rw [List.forall_mem_cons, List.flatMap_cons]
    refine Iff.trans ?_ (and_congr_right fun _ => ih)
    constructor
    · intro h
      have hlen := h.length_eq
      have hpos := length_splitOn_pos c (g i)
      have hrest := hle l
      rw [List.length_append, List.length_cons] at hlen
      obtain ⟨s, hs⟩ := List.length_eq_one_iff.mp (show ((g i).splitOn c).length = 1 by omega)
      obtain rfl := eq_of_splitOn_singleton hs
      rw [hs, List.singleton_append, List.forall₂_cons] at h
      refine ⟨⟨fun hmem => ?_, h.1⟩, h.2⟩
      have hpart := mem_of_mem_splitOn (c := c) (hs ▸ List.mem_singleton_self _) hmem
      exact hpart.2 rfl
    · rintro ⟨⟨hc, hR⟩, h⟩
      rw [List.splitOn_eq_singleton hc, List.singleton_append]
      exact .cons hR h

end Join

end DcmAgent.Library
