import Mathlib.Tactic
import DcmAgent.Library.CString

/-!
# Bytes of objects

A memory gives the byte at each offset of each object. Offsets are not bounded: those behind the
last byte of an object belong to whatever lies there. A buffer is a slice of an object.
-/

namespace DcmAgent.Library

/-- The bytes of the objects. -/
abbrev Memory (O : Type*) := O → ℕ → Char

/-- An array of characters inside an object. -/
structure Slice (O : Type*) where
  object : O
  offset : ℕ
  size : ℕ
  deriving DecidableEq, Repr

/-- The byte lies in the slice. -/
def Slice.Contains {O : Type*} (f : Slice O) (o : O) (i : ℕ) : Prop :=
  o = f.object ∧ f.offset ≤ i ∧ i < f.offset + f.size

/-- The terminated text of a string: what is before its first terminator, and one. -/
def terminated (s : List Char) : List Char := s.takeWhile (· ≠ nul) ++ [nul]

namespace Memory

variable {O : Type*} [DecidableEq O] {m m' : Memory O} {f g : Slice O} {s cs : List Char}
  {o : O} {i : ℕ}

/-- Write characters one after the other. -/
def store (m : Memory O) (f : Slice O) (cs : List Char) : Memory O := fun o i =>
  if o = f.object ∧ f.offset ≤ i ∧ i < f.offset + cs.length then cs.getD (i - f.offset) nul
  else m o i

/-- Write a text with its terminator, wherever it ends. -/
def strcpy (m : Memory O) (f : Slice O) (s : List Char) : Memory O := m.store f (terminated s)

/-- The first character at a slice. -/
def first (m : Memory O) (f : Slice O) : Char := m f.object f.offset

/-- Reading at the slice gives this text. -/
def Holds (m : Memory O) (f : Slice O) (s : List Char) : Prop :=
  ∀ i (h : i < (s ++ [nul]).length), m f.object (f.offset + i) = (s ++ [nul])[i]

instance (m : Memory O) (f : Slice O) (s : List Char) : Decidable (m.Holds f s) :=
  inferInstanceAs (Decidable (∀ i (_ : i < (s ++ [nul]).length), _))

/-- Nothing but the slice has changed. -/
def ChangesOnly (f : Slice O) (m m' : Memory O) : Prop :=
  ∀ o i, ¬f.Contains o i → m' o i = m o i

/-! ### One store -/

lemma store_of_not (h : ¬(o = f.object ∧ f.offset ≤ i ∧ i < f.offset + cs.length)) :
    m.store f cs o i = m o i := if_neg h

lemma store_apply (h : i < cs.length) : m.store f cs f.object (f.offset + i) = cs[i] := by
  rw [store, if_pos ⟨rfl, by omega, by omega⟩, Nat.add_sub_cancel_left]
  simp [h]

/-- A store that covers an earlier one. -/
lemma store_store {cs' : List Char} (h : cs.length ≤ cs'.length) :
    (m.store f cs).store f cs' = m.store f cs' := by
  funext o i
  by_cases hi : o = f.object ∧ f.offset ≤ i ∧ i < f.offset + cs'.length
  · rw [store, if_pos hi, store, if_pos hi]
  · rw [store_of_not hi, store_of_not hi, store_of_not]
    rintro ⟨ho, hle, hlt⟩
    exact hi ⟨ho, hle, by omega⟩

lemma length_terminated : (terminated s).length = (s.takeWhile (· ≠ nul)).length + 1 := by
  simp [terminated]

lemma terminated_of_notMem (h : nul ∉ s) : terminated s = s ++ [nul] := by
  rw [terminated, List.takeWhile_eq_self_iff.mpr]
  intro c hc
  exact decide_eq_true fun hnul => h (hnul ▸ hc)

/-- A copy ends at the first terminator. -/
lemma strcpy_takeWhile : m.strcpy f (s.takeWhile (· ≠ nul)) = m.strcpy f s := by
  rw [strcpy, terminated_of_notMem, strcpy, terminated]
  intro h
  simpa using List.mem_takeWhile_imp h

lemma strcpy_strcpy {s' : List Char}
    (h : (s.takeWhile (· ≠ nul)).length ≤ (s'.takeWhile (· ≠ nul)).length) :
    (m.strcpy f s).strcpy f s' = m.strcpy f s' := by
  apply store_store
  rw [length_terminated, length_terminated]
  exact Nat.succ_le_succ h

lemma holds_strcpy (h : nul ∉ s) : (m.strcpy f s).Holds f s := by
  intro i hi
  rw [strcpy, terminated_of_notMem h]
  exact store_apply hi

lemma first_strcpy_eq_nul_iff : (m.strcpy f s).first f = nul ↔ s.takeWhile (· ≠ nul) = [] := by
  have hfirst : (m.strcpy f s).first f = (terminated s).getD 0 nul := by
    rw [first, strcpy, store, if_pos ⟨rfl, le_rfl, by simp [terminated]⟩, Nat.sub_self]
  rw [hfirst, terminated]
  cases hs : s.takeWhile (· ≠ nul) with
  | nil => simp
  | cons c s' =>
    have hc : c ∈ s.takeWhile (· ≠ nul) := hs ▸ List.mem_cons_self
    simpa using List.mem_takeWhile_imp hc

/-! ### Frames -/

/-- What lies behind a slice. -/
def behind (f : Slice O) : Slice O := ⟨f.object, f.offset + f.size, 0⟩

lemma getElem_terminated_drop {n : ℕ} (hn : n ≤ s.length) (hi : i < (s.drop n ++ [nul]).length)
    (hi' : n + i < (s ++ [nul]).length) : (s.drop n ++ [nul])[i] = (s ++ [nul])[n + i] := by
  simp only [← List.drop_append_of_le_length hn, List.getElem_drop]

/-- A copy changes its slice only if it fits, or else what lies behind the slice is the rest of the
text already. -/
lemma changesOnly_strcpy_iff (hs : nul ∉ s) : ChangesOnly f m (m.strcpy f s) ↔
    s.length < f.size ∨ f.size ≤ s.length ∧ m.Holds (behind f) (s.drop f.size) := by
  constructor
  · intro h
    rcases lt_or_ge s.length f.size with hlen | hlen
    · exact Or.inl hlen
    refine Or.inr ⟨hlen, fun i hi => ?_⟩
    have hi' : f.size + i < (s ++ [nul]).length := by
      simp only [List.length_append, List.length_drop, List.length_singleton] at hi ⊢
      omega
    rw [getElem_terminated_drop hlen hi hi', ← holds_strcpy (m := m) (f := f) hs _ hi',
      behind, Nat.add_assoc]
    exact (h _ _ fun hin => by have := hin.2.2; omega).symm
  · intro h o i hi
    rw [strcpy, terminated_of_notMem hs]
    by_cases hin : o = f.object ∧ f.offset ≤ i ∧ i < f.offset + (s ++ [nul]).length
    · obtain ⟨rfl, hle, hlt⟩ := hin
      have hout : f.offset + f.size ≤ i := not_lt.mp fun hlt' => hi ⟨rfl, hle, hlt'⟩
      obtain ⟨j, rfl⟩ : ∃ j, i = f.offset + (f.size + j) := ⟨i - (f.offset + f.size), by omega⟩
      have hj : f.size + j < (s ++ [nul]).length := by omega
      rcases h with hlen | ⟨hlen, hholds⟩
      · simp only [List.length_append, List.length_singleton] at hj
        omega
      · have hj' : j < (s.drop f.size ++ [nul]).length := by
          simp only [List.length_append, List.length_drop, List.length_singleton] at hj ⊢
          omega
        rw [store_apply hj, ← getElem_terminated_drop hlen hj' hj, ← hholds j hj', behind,
          Nat.add_assoc]
    · exact store_of_not hin

omit [DecidableEq O] in
/-- What is read at a place is one text. -/
lemma Holds.unique (h : m.Holds f s) (h' : m.Holds g cs) (hs : nul ∉ s) (hcs : nul ∉ cs)
    (hobject : f.object = g.object) (hoffset : f.offset = g.offset) : s = cs := by
  have hle {s cs : List Char} {f g : Slice O} (h : m.Holds f s) (h' : m.Holds g cs)
      (hs : nul ∉ s) (hobject : f.object = g.object) (hoffset : f.offset = g.offset) :
      s.length ≤ cs.length := by
    by_contra hlt
    rw [not_le] at hlt
    have hf := h cs.length (by simp only [List.length_append, List.length_singleton]; omega)
    have hg := h' cs.length (by simp)
    rw [List.getElem_append_left hlt, hobject, hoffset, hg] at hf
    have hnul : s[cs.length] = nul := by simpa using hf.symm
    exact hs (hnul ▸ List.getElem_mem hlt)
  have hlen : s.length = cs.length :=
    (hle h h' hs hobject hoffset).antisymm (hle h' h hcs hobject.symm hoffset.symm)
  apply List.ext_getElem hlen
  intro i hi hi'
  have hf := h i (by simp only [List.length_append, List.length_singleton]; omega)
  have hg := h' i (by simp only [List.length_append, List.length_singleton]; omega)
  rw [List.getElem_append_left hi, hobject, hoffset, hg, List.getElem_append_left hi'] at hf
  exact hf.symm

omit [DecidableEq O] in
/-- A text outside the slice that has changed is still held. -/
lemma Holds.of_changesOnly (h : m.Holds g s) (hm : ChangesOnly f m m')
    (hdisjoint : g.object ≠ f.object ∨ g.offset + s.length < f.offset ∨
      f.offset + f.size ≤ g.offset) : m'.Holds g s := by
  intro i hi
  rw [hm, h i hi]
  rintro ⟨ho, hle, hlt⟩
  simp only [List.length_append, List.length_singleton] at hi
  rcases hdisjoint with hne | hbefore | hbehind
  · exact hne ho
  · omega
  · omega

end Memory

end DcmAgent.Library
