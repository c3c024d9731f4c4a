import Mathlib.Tactic

/-!
# Directories

A directory is the list of its entries, names with what they lead to. `weight` counts the
characters of the names: renaming to a shorter name and removing an entry make it smaller, so what
only does these gives back the same directory only if it does nothing.
-/

namespace DcmAgent.Library

/-- Names are the same when their characters are. -/
instance lawfulBEqName : LawfulBEq (List Char) := inferInstance

abbrev Directory (α : Type) := List (List Char × α)

namespace Directory

variable {α : Type} {d d' : Directory α} {n m : List Char} {x : α}

def names (d : Directory α) : List (List Char) := d.map Prod.fst

def remove (d : Directory α) (n : List Char) : Directory α := d.filter fun p => p.1 ≠ n

/-- The entry replaces one of the same name. -/
def put (d : Directory α) (n : List Char) (x : α) : Directory α := d.remove n ++ [(n, x)]

/-- An entry that does not exist is not renamed. -/
def rename (d : Directory α) (n m : List Char) : Directory α :=
  match d.lookup n with
  | none => d
  | some x => (d.remove n).put m x

/-- The same entries, in any order. -/
def Same (d d' : Directory α) : Prop := d.Perm d'

def weight (d : Directory α) : ℕ := (d.map fun p => p.1.length + 1).sum

lemma Same.weight (h : Same d d') : d.weight = d'.weight := (h.map _).sum_eq

lemma mem_names_iff : n ∈ d.names ↔ ∃ x, (n, x) ∈ d := by
  simp [names]

lemma lookup_eq_none_iff : d.lookup n = none ↔ n ∉ d.names := by
  induction d with
  | nil => simp [names]
  | cons p d ih =>
    by_cases h : n = p.1
    · simp [names, h]
    · simpa [List.lookup_cons, names, h] using ih

lemma lookup_remove : (d.remove n).lookup m = if m = n then none else d.lookup m := by
  induction d with
  | nil => simp [remove]
  | cons p d ih =>
    obtain ⟨k, x⟩ := p
    rw [remove] at ih ⊢
    by_cases hk : k = n
    · rw [List.filter_cons_of_neg (by simpa using hk), ih]
      split_ifs with hm
      · rfl
      · rw [List.lookup_cons, beq_eq_false_iff_ne.mpr (hk ▸ hm)]
    · rw [List.filter_cons_of_pos (by simpa using hk), List.lookup_cons, List.lookup_cons, ih]
      by_cases hm : m = k
      · simp [hm, hk]
      · simp [beq_eq_false_iff_ne.mpr hm]

lemma lookup_put : (d.put n x).lookup m = if m = n then some x else d.lookup m := by
  rw [put, List.lookup_append, lookup_remove]
  by_cases hm : m = n
  · simp [hm]
  · rw [if_neg hm, if_neg hm, List.lookup_cons, beq_eq_false_iff_ne.mpr hm]
    simp

lemma rename_eq_self (h : n ∉ d.names) : d.rename n m = d := by
  rw [rename, lookup_eq_none_iff.mpr h]

/-! ### Weights -/

lemma weight_append (d d' : Directory α) : weight (d ++ d') = d.weight + d'.weight := by
  simp [weight]

lemma weight_filter_le (keep : List Char × α → Bool) (d : Directory α) :
    weight (d.filter keep) ≤ d.weight := by
  induction d with
  | nil => exact le_rfl
  | cons p d ih =>
    rw [List.filter_cons]
    split_ifs <;> simp only [weight, List.map_cons, List.sum_cons] at ih ⊢ <;> omega

/-- An entry that is not kept takes its name along. -/
lemma weight_filter_add_le (keep : List Char × α → Bool) (hmem : (n, x) ∈ d)
    (hkeep : keep (n, x) = false) : weight (d.filter keep) + (n.length + 1) ≤ d.weight := by
  induction d with
  | nil => cases hmem
  | cons p d ih =>
    have hle := weight_filter_le keep d
    rw [List.filter_cons]
    rcases List.mem_cons.mp hmem with rfl | hmem
    · rw [if_neg (by simp [hkeep])]
      simp only [weight, List.map_cons, List.sum_cons] at hle ⊢
      omega
    · have := ih hmem
      split_ifs <;> simp only [weight, List.map_cons, List.sum_cons] at this ⊢ <;> omega

lemma weight_put_le (d : Directory α) (n : List Char) (x : α) :
    (d.put n x).weight ≤ d.weight + (n.length + 1) := by
  have hle : (d.remove n).weight ≤ d.weight := weight_filter_le _ d
  rw [put, weight_append]
  simpa [weight] using hle

/-- Renaming to a shorter name. -/
lemma weight_rename_lt (hmem : n ∈ d.names) (hlen : m.length < n.length) :
    (d.rename n m).weight < d.weight := by
  obtain ⟨x, hx⟩ := mem_names_iff.mp hmem
  have hremove : (d.remove n).weight + (n.length + 1) ≤ d.weight :=
    weight_filter_add_le _ hx (by simp)
  rw [rename]
  split
  · rename_i hnone
    exact absurd hmem (lookup_eq_none_iff.mp hnone)
  · rename_i y _
    have := weight_put_le (d.remove n) m y
    omega

/-! ### Renaming every entry -/

/-- An entry gets the name that `f` tells. -/
def renameBy (f : List Char → Option (List Char)) (d : Directory α) (n : List Char) :
    Directory α :=
  match f n with
  | none => d
  | some m => d.rename n m

/-- The name of an entry once it has been renamed. -/
def newName (f : List Char → Option (List Char)) (n : List Char) : List Char := (f n).getD n

def newNames (f : List Char → Option (List Char)) (d : Directory α) : Directory α :=
  d.map fun p => (newName f p.1, p.2)

/-- Each entry has a new name of its own, which stays as it is. -/
structure Apart (f : List Char → Option (List Char)) (d : Directory α) : Prop where
  nodup : d.names.Nodup
  settled : ∀ n ∈ d.names, ∀ m, f n = some m → f m = none
  inj : ∀ n ∈ d.names, ∀ m ∈ d.names, newName f n = newName f m → n = m

variable {f : List Char → Option (List Char)} {l : List (List Char)}

lemma newName_of_none (h : f n = none) : newName f n = n := by rw [newName, h]; rfl

lemma newName_of_some (h : f n = some m) : newName f n = m := by rw [newName, h]; rfl

lemma remove_eq_self (h : n ∉ d.names) : d.remove n = d := by
  refine List.filter_eq_self.mpr ?_
  rintro ⟨k, x⟩ hmem
  refine decide_eq_true ?_
  rintro rfl
  exact h (mem_names_iff.mpr ⟨x, hmem⟩)

lemma names_remove : (d.remove n).names = d.names.filter fun k => k ≠ n := by
  rw [remove, names, names, List.filter_map]
  rfl

/-- An entry apart, the rest is what removing it leaves. -/
lemma perm_cons_remove (hnodup : d.names.Nodup) (h : d.lookup n = some x) :
    d.Perm ((n, x) :: d.remove n) := by
  induction d with
  | nil => cases h
  | cons p d ih =>
    obtain ⟨k, y⟩ := p
    rw [names, List.map_cons, List.nodup_cons] at hnodup
    rw [List.lookup_cons] at h
    by_cases hk : n = k
    · subst hk
      obtain rfl : y = x := by simpa using h
      have hself : remove d n = d := remove_eq_self hnodup.1
      rw [remove] at hself ⊢
      rw [List.filter_cons_of_neg (by simp), hself]
    · rw [beq_eq_false_iff_ne.mpr hk] at h
      rw [remove, List.filter_cons_of_pos (by simpa using Ne.symm hk)]
      exact ((ih hnodup.2 h).cons _).trans (.swap _ _ _)

/-- Nothing is replaced when the new name is not in use. -/
lemma perm_rename (h : d.lookup n = some x) (hm : m ∉ d.names) :
    (d.rename n m).Perm ((m, x) :: d.remove n) := by
  have hnot : m ∉ (d.remove n).names := by
    rw [names_remove]
    exact fun hmem => hm (List.mem_of_mem_filter hmem)
  rw [rename, h]
  simp only [put]
  rw [remove_eq_self hnot]
  exact List.perm_append_comm

lemma exists_lookup (h : n ∈ d.names) : ∃ x, d.lookup n = some x := by
  by_contra hno
  refine lookup_eq_none_iff.mp (Option.eq_none_iff_forall_not_mem.mpr fun x hx => ?_) h
  exact hno ⟨x, hx⟩

/-- The new name of an entry is not in use. -/
lemma Apart.notMem (h : Apart f d) (hn : n ∈ d.names) (hm : f n = some m) : m ∉ d.names := by
  intro hmem
  have hfm := h.settled n hn m hm
  have heq := h.inj n hn m hmem (by rw [newName_of_some hm, newName_of_none hfm])
  rw [heq, hfm] at hm
  cases hm

/-- Renaming one entry changes no new name. -/
lemma Apart.renameBy (h : Apart f d) (n : List Char) :
    Apart f (d.renameBy f n) ∧ ((d.renameBy f n).newNames f).Perm (d.newNames f) := by
  unfold Directory.renameBy
  cases hfn : f n with
  | none => exact ⟨h, .refl _⟩
  | some m =>
    by_cases hn : n ∈ d.names
    · obtain ⟨x, hx⟩ := exists_lookup hn
      have hm := h.notMem hn hfn
      have hfm := h.settled n hn m hfn
      have hsame : newName f m = newName f n := by
        rw [newName_of_some hfn, newName_of_none hfm]
      have hold := perm_cons_remove h.nodup hx
      have hnew := perm_rename hx hm
      have hnames : ∀ k, k ∈ (d.rename n m).names ↔ k = m ∨ k ∈ d.names ∧ k ≠ n := by
        intro k
        rw [names, (hnew.map Prod.fst).mem_iff, List.map_cons, List.mem_cons, ← names,
          names_remove, List.mem_filter, decide_eq_true_iff]
      refine ⟨⟨?_, ?_, ?_⟩, ?_⟩
      · rw [names, (hnew.map Prod.fst).nodup_iff, List.map_cons, List.nodup_cons, ← names,
          names_remove]
        exact ⟨fun hmem => hm (List.mem_of_mem_filter hmem), h.nodup.filter _⟩
      · intro k hk k' hk'
        rcases (hnames k).mp hk with rfl | ⟨hk, -⟩
        · rw [hfm] at hk'
          cases hk'
        · exact h.settled k hk k' hk'
      · intro k hk k' hk' heq
        rcases (hnames k).mp hk with hkm | ⟨hkd, hkn⟩ <;>
          rcases (hnames k').mp hk' with hkm' | ⟨hkd', hkn'⟩
        · rw [hkm, hkm']
        · rw [hkm, hsame] at heq
          exact absurd (h.inj n hn k' hkd' heq).symm hkn'
        · rw [hkm', hsame] at heq
          exact absurd (h.inj k hkd n hn heq) hkn
        · exact h.inj k hkd k' hkd' heq
      · refine (hnew.map _).trans ((hold.map _).trans ?_).symm
        rw [List.map_cons, List.map_cons]
        simp only [hsame]
        exact .refl _
    · simp only [rename_eq_self hn]
      exact ⟨h, .refl _⟩

lemma Apart.foldl_renameBy (h : Apart f d) (l : List (List Char)) :
    Apart f (l.foldl (Directory.renameBy f) d) ∧
      (newNames f (l.foldl (Directory.renameBy f) d)).Perm (d.newNames f) := by
  induction l generalizing d with
  | nil => exact ⟨h, .refl _⟩
  | cons n l ih =>
    obtain ⟨hstep, hperm⟩ := h.renameBy n
    obtain ⟨hall, hperm'⟩ := ih hstep
    exact ⟨hall, hperm'.trans hperm⟩

lemma mem_names_rename {k : List Char} (h : k ∈ (d.rename n m).names) :
    (k = m ∧ n ∈ d.names) ∨ k ∈ d.names ∧ (k = n → n ∉ d.names) := by
  by_cases hn : n ∈ d.names
  · obtain ⟨x, hx⟩ := exists_lookup hn
    have hput : k ∈ ((d.remove n).put m x).names := by rwa [rename, hx] at h
    rw [put, names, List.map_append, List.mem_append] at hput
    rcases hput with h | h
    · have h : k ∈ ((d.remove n).remove m).names := h
      rw [names_remove, List.mem_filter, names_remove, List.mem_filter] at h
      exact .inr ⟨h.1.1, fun hk => absurd hk (of_decide_eq_true h.1.2)⟩
    · exact .inl ⟨by simpa using h, hn⟩
  · rw [rename_eq_self hn] at h
    exact .inr ⟨h, fun _ => hn⟩

lemma nodup_rename (h : d.names.Nodup) : (d.rename n m).names.Nodup := by
  rw [rename]
  match d.lookup n with
  | none => exact h
  | some x =>
    have hkept : ((d.remove n).remove m).names.Nodup := by
      rw [names_remove, names_remove]
      exact (h.filter _).filter _
    have hnot : m ∉ ((d.remove n).remove m).names := by
      rw [names_remove]
      simp
    change ((d.remove n).put m x).names.Nodup
    rw [put, names, List.map_append, List.map_singleton, List.nodup_append]
    refine ⟨hkept, List.nodup_singleton m, fun k hk k' hk' heq => hnot ?_⟩
    obtain rfl : k = m := heq.trans (List.mem_singleton.mp hk')
    exact hk

lemma nodup_foldl_renameBy (h : d.names.Nodup) : (l.foldl (renameBy f) d).names.Nodup := by
  induction l generalizing d with
  | nil => exact h
  | cons n l ih =>
    refine ih ?_
    rw [renameBy]
    match f n with
    | none => exact h
    | some m => exact nodup_rename h

/-- A name in use after some entries have been renamed has been given, or it is an old one whose
turn has not been. -/
lemma mem_names_foldl_renameBy {P R : List Char → Prop}
    (hgiven : ∀ n m, P n → f n = some m → P m ∧ R m) (hP : ∀ k ∈ d.names, P k) :
    ∀ k ∈ (l.foldl (renameBy f) d).names,
      P k ∧ (R k ∨ k ∈ d.names ∧ (k ∈ l → f k = none)) := by
  induction l generalizing d with
  | nil => exact fun k hk => ⟨hP k hk, .inr ⟨hk, fun h => nomatch h⟩⟩
  | cons n l ih =>
    have hstep : ∀ k ∈ (d.renameBy f n).names,
        (P k ∧ R k) ∨ k ∈ d.names ∧ (k = n → f k = none) := by
      intro k hk
      rw [renameBy] at hk
      cases hn : f n with
      | none =>
        rw [hn] at hk
        exact .inr ⟨hk, fun h => h ▸ hn⟩
      | some m =>
        rw [hn] at hk
        rcases mem_names_rename hk with ⟨rfl, hmem⟩ | ⟨hmem, hne⟩
        · exact .inl (hgiven n _ (hP n hmem) hn)
        · exact .inr ⟨hmem, fun h => absurd (h ▸ hmem) (hne h)⟩
    have hPstep : ∀ k ∈ (d.renameBy f n).names, P k := fun k hk =>
      (hstep k hk).elim And.left fun h => hP k h.1
    intro k hk
    obtain ⟨hPk, hR | ⟨hmem, hl⟩⟩ := ih hPstep k hk
    · exact ⟨hPk, .inl hR⟩
    · refine ⟨hPk, ?_⟩
      rcases hstep k hmem with ⟨-, hR⟩ | ⟨hd, hkn⟩
      · exact .inl hR
      · exact .inr ⟨hd, fun h => (List.mem_cons.mp h).elim hkn hl⟩

/-- Once every entry has had its turn, each has its new name, and nothing else has happened. -/
lemma Apart.perm_foldl_renameBy (h : Apart f d) (hl : ∀ n ∈ d.names, n ∈ l) :
    (l.foldl (Directory.renameBy f) d).Perm (d.newNames f) := by
  have hdone : ∀ k ∈ (l.foldl (Directory.renameBy f) d).names, f k = none := by
    intro k hk
    obtain ⟨-, hR | ⟨hmem, hturn⟩⟩ := mem_names_foldl_renameBy
      (P := fun k => k ∈ d.names ∨ f k = none) (R := fun k => f k = none)
      (by
        rintro n m (hn | hn) hm
        · exact ⟨.inr (h.settled n hn m hm), h.settled n hn m hm⟩
        · rw [hn] at hm
          cases hm)
      (fun k hk => .inl hk) k hk
    · exact hR
    · exact hturn (hl k hmem)
  have hsame : newNames f (l.foldl (Directory.renameBy f) d) =
      l.foldl (Directory.renameBy f) d := by
    refine (List.map_congr_left ?_).trans (List.map_id _)
    rintro ⟨k, x⟩ hmem
    rw [newName_of_none (hdone k (mem_names_iff.mpr ⟨x, hmem⟩))]
    rfl
  rw [← hsame]
  exact (h.foldl_renameBy l).2

end Directory

/-! ### Loops that can only shrink -/

section Shrink

variable {σ ι : Type*} {step : σ → ι → σ} {acts : σ → ι → Prop} {w : σ → ℕ}

/-- A turn of the loop does nothing, or it makes the state smaller. -/
structure Shrinks (step : σ → ι → σ) (acts : σ → ι → Prop) (w : σ → ℕ) : Prop where
  idle : ∀ s i, ¬acts s i → step s i = s
  shrink : ∀ s i, acts s i → w (step s i) < w s

lemma Shrinks.foldl_le (h : Shrinks step acts w) (l : List ι) (s : σ) :
    w (l.foldl step s) ≤ w s := by
  induction l generalizing s with
  | nil => exact le_rfl
  | cons i l ih =>
    refine (ih (step s i)).trans ?_
    by_cases hi : acts s i
    · exact (h.shrink s i hi).le
    · rw [h.idle s i hi]

/-- The first turn that does something finds the state that the loop has started with. -/
lemma Shrinks.foldl_lt (h : Shrinks step acts w) {l : List ι} {s : σ} {i : ι} (hmem : i ∈ l)
    (hi : acts s i) : w (l.foldl step s) < w s := by
  induction l with
  | nil => cases hmem
  | cons j l ih =>
    by_cases hj : acts s j
    · exact (h.foldl_le l _).trans_lt (h.shrink s j hj)
    · rw [List.foldl_cons, h.idle s j hj]
      refine ih ((List.mem_cons.mp hmem).resolve_left ?_)
      rintro rfl
      exact hj hi

lemma Shrinks.foldl_eq (h : Shrinks step acts w) {l : List ι} {s : σ}
    (hidle : ∀ i ∈ l, ¬acts s i) : l.foldl step s = s := by
  induction l with
  | nil => rfl
  | cons i l ih =>
    rw [List.foldl_cons, h.idle s i (hidle i List.mem_cons_self)]
    exact ih fun j hj => hidle j (List.mem_cons_of_mem _ hj)

end Shrink

end DcmAgent.Library
