import Mathlib.Tactic
import DcmAgent.Library.Directory

/-!
# Loops that write entry by entry

`set` says what is under a name afterwards, whatever has been there. A loop whose turns each write
under one name leaves, under every name, what the last turn for this name has left.
-/

namespace DcmAgent.Library.Directory

variable {α σ ι : Type} {d : Directory α} {n m : List Char} {x : α} {o : Option α}

def set (d : Directory α) (n : List Char) (o : Option α) : Directory α :=
  match o with
  | none => d.remove n
  | some x => d.put n x

lemma lookup_set : (d.set n o).lookup m = if m = n then o else d.lookup m := by
  cases o with
  | none => exact lookup_remove
  | some x => exact lookup_put

lemma nodup_set (h : d.names.Nodup) : (d.set n o).names.Nodup := by
  have hremove : (d.remove n).names.Nodup := by
    rw [names_remove]
    exact h.filter _
  cases o with
  | none => exact hremove
  | some x =>
    rw [set, put, names, List.map_append, List.nodup_append]
    refine ⟨hremove, List.nodup_singleton _, ?_⟩
    rintro k hk k' hk' rfl
    obtain rfl := List.mem_singleton.mp hk'
    rw [← names, names_remove] at hk
    simpa using (List.mem_filter.mp hk).2

lemma lookup_eq_some_iff (h : d.names.Nodup) : d.lookup n = some x ↔ (n, x) ∈ d := by
  induction d with
  | nil => simp
  | cons p d ih =>
    obtain ⟨k, y⟩ := p
    rw [names, List.map_cons, List.nodup_cons] at h
    rw [List.lookup_cons, List.mem_cons]
    by_cases hk : n = k
    · subst hk
      rw [beq_self_eq_true]
      constructor
      · intro hy
        obtain rfl : y = x := by simpa using hy
        exact .inl rfl
      · rintro (heq | hmem)
        · rw [(Prod.mk.inj heq).2]
        · exact absurd (mem_names_iff.mpr ⟨x, hmem⟩) h.1
    · rw [beq_eq_false_iff_ne.mpr hk]
      refine (ih h.2).trans (iff_of_eq ?_)
      simp [hk]

lemma lookup_filter (keep : List Char → Bool) :
    (d.filter fun e => keep e.1).lookup n = if keep n then d.lookup n else none := by
  induction d with
  | nil => simp
  | cons p d ih =>
    obtain ⟨k, y⟩ := p
    by_cases hk : keep k
    · rw [List.filter_cons_of_pos (by exact hk), List.lookup_cons, List.lookup_cons, ih]
      by_cases hn : n = k
      · simp [hn, hk]
      · rw [beq_eq_false_iff_ne.mpr hn]
    · rw [List.filter_cons_of_neg (by exact hk), ih, List.lookup_cons]
      by_cases hn : n = k
      · simp [hn, hk]
      · rw [beq_eq_false_iff_ne.mpr hn]

/-! ### Loops -/

/-- A turn of the loop writes under the name of its entry, and nowhere else. -/
def Writes (step : σ → ι → σ) (dir : σ → Directory α) (name : ι → List Char)
    (write : ι → Option α → Option α) : Prop :=
  ∀ s i m, (dir (step s i)).lookup m =
    if m = name i then write i ((dir s).lookup m) else (dir s).lookup m

section Writes

variable {step : σ → ι → σ} {dir : σ → Directory α} {name : ι → List Char}
  {write : ι → Option α → Option α} {l : List ι} {s : σ} {i : ι}

lemma Writes.lookup_of_notMem (h : Writes step dir name write) (hm : m ∉ l.map name) :
    (dir (l.foldl step s)).lookup m = (dir s).lookup m := by
  induction l generalizing s with
  | nil => rfl
  | cons i l ih =>
    rw [List.map_cons, List.mem_cons, not_or] at hm
    rw [List.foldl_cons, ih hm.2, h, if_neg hm.1]

/-- With a turn for each name, an entry is what its turn has made of the one before. -/
theorem Writes.lookup_of_mem (h : Writes step dir name write) (hl : (l.map name).Nodup)
    (hi : i ∈ l) :
    (dir (l.foldl step s)).lookup (name i) = write i ((dir s).lookup (name i)) := by
  induction l generalizing s with
  | nil => cases hi
  | cons j l ih =>
    rw [List.map_cons, List.nodup_cons] at hl
    rw [List.foldl_cons]
    rcases List.mem_cons.mp hi with rfl | hmem
    · rw [h.lookup_of_notMem hl.1, h, if_pos rfl]
    · have hne : name i ≠ name j := fun heq => hl.1 (heq ▸ List.mem_map_of_mem hmem)
      rw [ih hl.2 hmem, h, if_neg hne]

end Writes

end DcmAgent.Library.Directory
