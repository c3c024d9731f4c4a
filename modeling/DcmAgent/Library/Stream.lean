import Mathlib.Tactic

/-!
# Output streams

A stream is what has been written to a file, with the position of the next character. Writing
replaces what is behind the position. `fgets` cuts a file into pieces that end with a line.
-/

namespace DcmAgent.Library

structure Stream where
  bytes : List Char
  pos : ℕ
  deriving DecidableEq, Repr

namespace Stream

def write (f : Stream) (s : List Char) : Stream :=
  ⟨f.bytes.take f.pos ++ s ++ f.bytes.drop (f.pos + s.length), f.pos + s.length⟩

/-- One character back, unless the stream is at its start. -/
def back (f : Stream) : Option Stream :=
  if f.pos = 0 then none else some { f with pos := f.pos - 1 }

/-- The stream at its end. -/
def ofText (b : List Char) : Stream := ⟨b, b.length⟩

@[simp] lemma bytes_ofText (b : List Char) : (ofText b).bytes = b := rfl

@[simp] lemma write_ofText (b s : List Char) : (ofText b).write s = ofText (b ++ s) := by
  simp [ofText, write]

lemma back_ofText {b : List Char} (h : b ≠ []) :
    (ofText b).back = some ⟨b, b.length - 1⟩ :=
  if_neg (List.length_pos_of_ne_nil h).ne'

/-- What is written after a step back replaces the last character. -/
lemma write_back {b s : List Char} (hs : s ≠ []) :
    write ⟨b, b.length - 1⟩ s = ofText (b.dropLast ++ s) := by
  have hlen := List.length_pos_of_ne_nil hs
  rw [write, List.drop_eq_nil_of_le (by simp only; omega), List.append_nil, ofText,
    List.dropLast_eq_take, List.length_append, List.length_take]
  simp

end Stream

/-! ### Lines -/

/-- The pieces that `fgets` returns: at most `size` characters, up to the end of a line. `room` is
what is left for the piece `acc`. -/
def piecesFrom (size room : ℕ) (acc : List Char) : List Char → List (List Char)
  | [] => if acc = [] then [] else [acc]
  | c :: text =>
    if c = '\n' ∨ room ≤ 1 then (acc ++ [c]) :: piecesFrom size size [] text
    else piecesFrom size (room - 1) (acc ++ [c]) text

def pieces (size : ℕ) (text : List Char) : List (List Char) := piecesFrom size size [] text

/-- The text consists of whole lines. -/
def Closed (text : List Char) : Prop := text = [] ∨ ∃ l, text = l ++ ['\n']

lemma piecesFrom_append_newline (size room : ℕ) (acc text text' : List Char) :
    piecesFrom size room acc (text ++ '\n' :: text') =
      piecesFrom size room acc (text ++ ['\n']) ++ pieces size text' := by
  induction text generalizing room acc with
  | nil => simp [piecesFrom, pieces]
  | cons c text ih =>
    simp only [List.cons_append, piecesFrom]
    split_ifs
    · rw [ih, List.cons_append]
    · exact ih _ _

/-- A line starts a piece. -/
lemma pieces_append {size : ℕ} {text : List Char} (h : Closed text) (text' : List Char) :
    pieces size (text ++ text') = pieces size text ++ pieces size text' := by
  rcases h with rfl | ⟨l, rfl⟩
  · rfl
  · rw [List.append_assoc, List.singleton_append]
    exact piecesFrom_append_newline size size [] l text'

lemma pieces_flatMap {ι : Type} {size : ℕ} {text : ι → List Char} (h : ∀ i, Closed (text i))
    (l : List ι) : pieces size (l.flatMap text) = l.flatMap fun i => pieces size (text i) := by
  induction l with
  | nil => rfl
  | cons i l ih => rw [List.flatMap_cons, pieces_append (h i), ih, List.flatMap_cons]

lemma flatten_piecesFrom (size room : ℕ) (acc text : List Char) :
    (piecesFrom size room acc text).flatten = acc ++ text := by
  induction text generalizing room acc with
  | nil =>
    rw [piecesFrom]
    split_ifs with h
    · simp [h]
    · simp
  | cons c text ih =>
    rw [piecesFrom]
    split_ifs
    · rw [List.flatten_cons, ih, List.append_assoc, List.nil_append, List.singleton_append]
    · rw [ih, List.append_assoc, List.singleton_append]

@[simp] lemma flatten_pieces (size : ℕ) (text : List Char) : (pieces size text).flatten = text :=
  flatten_piecesFrom size size [] text

lemma length_le_of_mem_piecesFrom {size room : ℕ} {acc text p : List Char}
    (hroom : acc.length + room ≤ size) (hpos : 0 < room) (h : p ∈ piecesFrom size room acc text) :
    p.length ≤ size := by
  induction text generalizing room acc with
  | nil =>
    rw [piecesFrom] at h
    split_ifs at h
    · cases h
    · obtain rfl := List.mem_singleton.mp h
      omega
  | cons c text ih =>
    rw [piecesFrom] at h
    split_ifs at h with hc
    · rcases List.mem_cons.mp h with rfl | h
      · simp only [List.length_append, List.length_singleton]
        omega
      · exact ih (by simp) (by omega) h
    · refine ih ?_ ?_ h
      · simp only [List.length_append, List.length_singleton]
        omega
      · omega

/-- A piece fits the buffer. -/
lemma length_le_of_mem_pieces {size : ℕ} {text p : List Char} (hpos : 0 < size)
    (h : p ∈ pieces size text) : p.length ≤ size :=
  length_le_of_mem_piecesFrom (by simp) hpos h

def textLinesFrom (acc : List Char) : List Char → List (List Char)
  | [] => if acc = [] then [] else [acc]
  | c :: text =>
    if c = '\n' then (acc ++ [c]) :: textLinesFrom [] text else textLinesFrom (acc ++ [c]) text

/-- The lines of a text, each with the character that ends it. -/
def textLines (text : List Char) : List (List Char) := textLinesFrom [] text

lemma flatMap_pieces_textLinesFrom (size : ℕ) (acc text : List Char) :
    (textLinesFrom acc text).flatMap (pieces size) = pieces size (acc ++ text) := by
  induction text generalizing acc with
  | nil =>
    rw [textLinesFrom]
    split_ifs with h
    · rw [h]
      rfl
    · simp
  | cons c text ih =>
    rw [textLinesFrom]
    split_ifs with h
    · have hclosed : Closed (acc ++ [c]) := .inr ⟨acc, by rw [h]⟩
      rw [List.flatMap_cons, ih, List.nil_append, ← pieces_append hclosed, List.append_assoc,
        List.singleton_append]
    · rw [ih, List.append_assoc, List.singleton_append]

/-- A line is not empty, and it ends with its first end. -/
lemma of_mem_textLinesFrom {acc text l : List Char} (hacc : '\n' ∉ acc)
    (h : l ∈ textLinesFrom acc text) : l ≠ [] ∧ '\n' ∉ l.dropLast := by
  induction text generalizing acc with
  | nil =>
    rw [textLinesFrom] at h
    split_ifs at h with hnil
    · cases h
    · obtain rfl := List.mem_singleton.mp h
      exact ⟨hnil, fun hmem => hacc (List.mem_of_mem_dropLast hmem)⟩
  | cons c text ih =>
    rw [textLinesFrom] at h
    split_ifs at h with hc
    · rcases List.mem_cons.mp h with rfl | h
      · exact ⟨by simp, by rwa [List.dropLast_concat]⟩
      · exact ih List.not_mem_nil h
    · refine ih ?_ h
      rw [List.mem_append, List.mem_singleton, not_or]
      exact ⟨hacc, Ne.symm hc⟩

lemma of_mem_textLines {text l : List Char} (h : l ∈ textLines text) :
    l ≠ [] ∧ '\n' ∉ l.dropLast :=
  of_mem_textLinesFrom List.not_mem_nil h

/-- The first piece of a line is what fits. -/
lemma head?_piecesFrom {size room : ℕ} {acc l : List Char} (hne : acc ++ l ≠ [])
    (hend : '\n' ∉ l.dropLast) :
    (piecesFrom size (room + 1) acc l).head? = some (acc ++ l.take (room + 1)) := by
  induction l generalizing room acc with
  | nil =>
    rw [List.append_nil] at hne
    rw [piecesFrom, if_neg hne, List.take_nil, List.append_nil]
    rfl
  | cons c l ih =>
    rw [piecesFrom, List.take_succ_cons]
    match l with
    | [] =>
      split_ifs
      · simp
      · simp [piecesFrom]
    | d :: l =>
      rw [List.dropLast_cons_cons, List.mem_cons, not_or] at hend
      match room with
      | 0 => simp
      | room + 1 =>
        rw [if_neg (by simpa using Ne.symm hend.1)]
        exact (ih (by simp) hend.2).trans (by simp)

lemma head?_pieces {size : ℕ} {l : List Char} (hpos : 0 < size) (hne : l ≠ [])
    (hend : '\n' ∉ l.dropLast) : (pieces size l).head? = some (l.take size) := by
  obtain ⟨size, rfl⟩ := Nat.exists_eq_add_of_lt hpos
  rw [Nat.zero_add]
  exact head?_piecesFrom hne hend

/-- A text is cut line by line. -/
lemma pieces_eq_flatMap (size : ℕ) (text : List Char) :
    pieces size text = (textLines text).flatMap (pieces size) :=
  (flatMap_pieces_textLinesFrom size [] text).symm

/-- The text up to the end of its first line. -/
def firstLine (text : List Char) : List Char := text.takeWhile (· ≠ '\n') ++ ['\n']

lemma firstLine_cons_of_ne {c : Char} (h : c ≠ '\n') (text : List Char) :
    firstLine (c :: text) = c :: firstLine text := by
  rw [firstLine, List.takeWhile_cons_of_pos (by simpa using h)]
  rfl

lemma firstLine_append {a : List Char} (h : '\n' ∉ a) (text : List Char) :
    firstLine (a ++ text) = a ++ firstLine text := by
  induction a with
  | nil => rfl
  | cons c a ih =>
    rw [List.mem_cons, not_or] at h
    rw [List.cons_append, firstLine_cons_of_ne (Ne.symm h.1), ih h.2]
    rfl

/-- The end of the text ends its last line. -/
lemma firstLine_append_newline (text : List Char) :
    firstLine (text ++ ['\n']) = firstLine text := by
  induction text with
  | nil => rfl
  | cons c text ih =>
    by_cases hc : c = '\n'
    · rw [hc]
      rfl
    · rw [List.cons_append, firstLine_cons_of_ne hc, firstLine_cons_of_ne hc, ih]

/-- The first piece is what fits of the first line. -/
lemma exists_piecesFrom_eq_cons (size room : ℕ) (acc text : List Char) :
    ∃ rest, piecesFrom size (room + 1) acc (text ++ ['\n']) =
      (acc ++ (firstLine text).take (room + 1)) :: rest := by
  induction text generalizing room acc with
  | nil => exact ⟨[], by simp [piecesFrom, firstLine]⟩
  | cons c text ih =>
    rw [List.cons_append, piecesFrom]
    by_cases hc : c = '\n'
    · have hpiece : (firstLine ('\n' :: text)).take (room + 1) = ['\n'] := by simp [firstLine]
      rw [if_pos (Or.inl hc), hc, hpiece]
      exact ⟨_, rfl⟩
    · rw [firstLine_cons_of_ne hc, List.take_succ_cons]
      cases room with
      | zero =>
        rw [if_pos (Or.inr le_rfl)]
        exact ⟨_, rfl⟩
      | succ room =>
        rw [if_neg (not_or.mpr ⟨hc, by omega⟩)]
        obtain ⟨rest, h⟩ := ih room (acc ++ [c])
        exact ⟨rest, by simpa using h⟩

end DcmAgent.Library
