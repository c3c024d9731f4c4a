import Mathlib.Tactic
import DcmAgent.Library.Json
import DcmAgent.Library.JsonText

/-!
# Reading JSON

What a text of JSON stands for. `Reads` relates a value to a text that starts with it and to the
rest of this text. Readers differ in the characters they accept within a string and in their
numbers.
-/

namespace DcmAgent.Library

open JsonText (isBlank isHexDigit)

variable {ν : Type}

/-! ### Readers -/

structure JsonReader (ν : Type) where
  /-- The characters that stand for themselves in a string. -/
  raw : Char → Bool
  raw_quote : raw '"' = false
  raw_backslash : raw '\\' = false
  numeral : List Char → ν → Prop
  ofInt : ℤ → ν
  numeral_decimal : ∀ z x, numeral (decimal z) x ↔ x = ofInt z

def isNumberChar (c : Char) : Bool := c.isDigit || c ∈ ['+', '-', '.', 'e', 'E']

def skipBlanks (t : List Char) : List Char := t.dropWhile isBlank

def hexValue (ds : List Char) : ℕ :=
  ds.foldl (fun n c => 16 * n +
    if c.isDigit then c.toNat - 48 else if c.isLower then c.toNat - 87 else c.toNat - 55) 0

/-- The bytes of a code point. -/
def utf8 (n : ℕ) : List Char :=
  let rest (k : ℕ) : Char := Char.ofNat (128 + n / 64 ^ k % 64)
  if n < 128 then [Char.ofNat n]
  else if n < 2048 then [Char.ofNat (192 + n / 64), rest 0]
  else if n < 65536 then [Char.ofNat (224 + n / 64 ^ 2), rest 1, rest 0]
  else [Char.ofNat (240 + n / 64 ^ 3), rest 2, rest 1, rest 0]

def IsUnit (ds : List Char) : Prop := ds.length = 4 ∧ ∀ c ∈ ds, isHexDigit c = true

/-- What stands behind a backslash, and what it stands for. -/
inductive Escape : List Char → List Char → Prop where
  | quote : Escape ['"'] ['"']
  | char {c d : Char} (h : (c, d) ∈ [('\\', '\\'), ('/', '/'), ('b', Char.ofNat 8),
      ('f', Char.ofNat 12), ('n', '\n'), ('r', '\r'), ('t', '\t')]) : Escape [c] [d]
  | unit {ds : List Char} (hds : IsUnit ds) (hplain : hexValue ds / 2048 ≠ 27) :
      Escape ('u' :: ds) (utf8 (hexValue ds))
  | pair {ds es : List Char} (hds : IsUnit ds) (hes : IsUnit es) (hhigh : hexValue ds / 1024 = 54)
      (hlow : hexValue es / 1024 = 55) :
      Escape ('u' :: ds ++ '\\' :: 'u' :: es)
        (utf8 (65536 + 1024 * (hexValue ds % 1024) + hexValue es % 1024))

variable (reader : JsonReader ν)

/-- The rest of a string, up to its closing quote. -/
inductive ReadsString : List Char → List Char → List Char → Prop where
  | nil (r : List Char) : ReadsString [] ('"' :: r) r
  | cons {c : Char} {s t r : List Char} (hc : reader.raw c = true) (h : ReadsString s t r) :
      ReadsString (c :: s) (c :: t) r
  | escape {e w s t r : List Char} (he : Escape e w) (h : ReadsString s t r) :
      ReadsString (w ++ s) ('\\' :: (e ++ t)) r

/-- A value, a member of an object, or what is between brackets. -/
inductive JsonPart (ν : Type) where
  | value (v : Json ν)
  | member (m : List Char × Json ν)
  | list (close : Char) (ps : List (JsonPart ν))

inductive Reads : JsonPart ν → List Char → List Char → Prop where
  | null (r : List Char) : Reads (.value .null) ("null".toList ++ r) r
  | true (r : List Char) : Reads (.value (.bool .true)) ("true".toList ++ r) r
  | false (r : List Char) : Reads (.value (.bool .false)) ("false".toList ++ r) r
  | number {x : ν} {t r : List Char} (hne : t ≠ []) (h : reader.numeral t x)
      (ht : ∀ c ∈ t, isNumberChar c = .true) (hr : ∀ c ∈ r.head?, isNumberChar c = .false) :
      Reads (.value (.number x)) (t ++ r) r
  | string {s t r : List Char} (h : ReadsString reader s t r) :
      Reads (.value (.string s)) ('"' :: t) r
  | emptyArray {t r : List Char} (h : skipBlanks t = ']' :: r) :
      Reads (.value (.array [])) ('[' :: t) r
  | array {items : List (Json ν)} {t r : List Char} (h : Reads (.list ']' (items.map .value)) t r) :
      Reads (.value (.array items)) ('[' :: t) r
  | emptyObject {t r : List Char} (h : skipBlanks t = '}' :: r) :
      Reads (.value (.object [])) ('{' :: t) r
  | object {members : List (List Char × Json ν)} {t r : List Char}
      (h : Reads (.list '}' (members.map .member)) t r) :
      Reads (.value (.object members)) ('{' :: t) r
  | member {k : List Char} {v : Json ν} {t t' t'' r : List Char} (hname : ReadsString reader k t t')
      (hcolon : skipBlanks t' = ':' :: t'') (h : Reads (.value v) (skipBlanks t'') r) :
      Reads (.member (k, v)) ('"' :: t) r
  | last {p : JsonPart ν} {close : Char} {t t' r : List Char} (h : Reads p (skipBlanks t) t')
      (hclose : skipBlanks t' = close :: r) : Reads (.list close [p]) t r
  | more {p : JsonPart ν} {ps : List (JsonPart ν)} {close : Char} {t t' t'' r : List Char}
      (h : Reads p (skipBlanks t) t') (hcomma : skipBlanks t' = ',' :: t'')
      (hrest : Reads (.list close ps) t'' r) : Reads (.list close (p :: ps)) t r

/-- The whole text is the value. -/
def IsDocument (t : List Char) (v : Json ν) : Prop :=
  ∃ r, Reads reader (.value v) (skipBlanks t) r ∧ skipBlanks r = []

variable {reader} {e w s t r rest : List Char} {c : Char}

/-! ### Strings -/

lemma utf8_length_le (n : ℕ) : (utf8 n).length ≤ 4 := by
  unfold utf8
  split_ifs <;> simp

lemma ne_quote_of_isHexDigit (hc : isHexDigit c = true) : c ≠ '"' := by
  rintro rfl
  exact absurd hc (by decide)

lemma IsUnit.notMem_quote (h : IsUnit s) : '"' ∉ s :=
  fun hmem => ne_quote_of_isHexDigit (h.2 _ hmem) rfl

/-- What is written with a backslash gets shorter. -/
lemma Escape.length_le (h : Escape e w) : w.length ≤ e.length := by
  cases h with
  | quote => exact le_rfl
  | char _ => exact le_rfl
  | unit hds _ =>
    rw [List.length_cons, hds.1]
    exact (utf8_length_le _).trans (by norm_num)
  | pair hds hes _ _ =>
    refine (utf8_length_le _).trans ?_
    simp only [List.length_append, List.length_cons, hds.1]
    omega

/-- A quote behind a backslash stands for itself. -/
lemma Escape.eq_quote (h : Escape e w) (hmem : '"' ∈ e) : e = ['"'] ∧ w = ['"'] := by
  cases h with
  | quote => exact ⟨rfl, rfl⟩
  | char h =>
    rw [List.mem_singleton] at hmem
    subst hmem
    simp at h
  | unit hds _ =>
    rcases List.mem_cons.mp hmem with h | h
    · cases h
    · exact absurd h hds.notMem_quote
  | pair hds hes _ _ =>
    simp only [List.cons_append, List.mem_cons, List.mem_append] at hmem
    rcases hmem with h | h | h | h | h
    · cases h
    · exact absurd h hds.notMem_quote
    · cases h
    · cases h
    · exact absurd h hes.notMem_quote

/-- What has been read in front of the closing quote: it is not shorter than the string, and a
quote in it stands for one further to the front. -/
lemma ReadsString.exists_read (h : ReadsString reader s t r) : ∃ x, t = x ++ '"' :: r ∧
    s.length ≤ x.length ∧ (x.length ≤ s.length → x = s ∧ ∀ c ∈ s, reader.raw c = true) ∧
    ∀ i : ℕ, x[i]? = some '"' → ∃ j < i, s[j]? = some '"' := by
  induction h with
  | nil r => exact ⟨[], rfl, le_rfl, fun _ => ⟨rfl, by simp⟩, by simp⟩
  | @cons c s t r hc _ ih =>
    obtain ⟨x, rfl, hle, heq, hquote⟩ := ih
    refine ⟨c :: x, rfl, by simpa using hle, fun hlen => ?_, fun i hi => ?_⟩
    · obtain ⟨rfl, hraw⟩ := heq (by simpa using hlen)
      exact ⟨rfl, List.forall_mem_cons.mpr ⟨hc, hraw⟩⟩
    · cases i with
      | zero =>
        obtain rfl : c = '"' := by simpa using hi
        rw [reader.raw_quote] at hc
        cases hc
      | succ i =>
        obtain ⟨j, hj, hsj⟩ := hquote i (by simpa using hi)
        exact ⟨j + 1, by omega, by simpa using hsj⟩
  | @escape e w s t r he _ ih =>
    obtain ⟨x, rfl, hle, -, hquote⟩ := ih
    have hlen := he.length_le
    refine ⟨'\\' :: (e ++ x), by simp, ?_, fun hlong => ?_, fun i hi => ?_⟩
    · simp only [List.length_append, List.length_cons]
      omega
    · simp only [List.length_append, List.length_cons] at hlong
      omega
    · cases i with
      | zero => simp at hi
      | succ i =>
        rw [List.getElem?_cons_succ] at hi
        by_cases hie : i < e.length
        · rw [List.getElem?_append_left hie] at hi
          obtain ⟨rfl, rfl⟩ := he.eq_quote (List.mem_of_getElem? hi)
          exact ⟨0, by omega, by simp⟩
        · rw [List.getElem?_append_right (by omega)] at hi
          obtain ⟨j, hj, hsj⟩ := hquote _ hi
          refine ⟨w.length + j, by omega, ?_⟩
          rw [List.getElem?_append_right (by omega), Nat.add_sub_cancel_left]
          exact hsj

/-- A string between quotes is read as itself if and only if its characters stand for themselves. -/
theorem readsString_iff : ReadsString reader s (s ++ '"' :: rest) r ↔
    (∀ c ∈ s, reader.raw c = true) ∧ r = rest := by
  constructor
  · intro h
    obtain ⟨x, hx, hle, heq, hquote⟩ := h.exists_read
    have hshort : x.length ≤ s.length := by
      by_contra hlong
      -- the first quote in `x` would stand for an earlier one
      have hget (i : ℕ) (hi : i < x.length) : x[i]? = (s ++ '"' :: rest)[i]? := by
        rw [hx, List.getElem?_append_left hi]
      have hend : x[s.length]? = some '"' := by
        rw [hget _ (by omega), List.getElem?_append_right le_rfl, Nat.sub_self]
        rfl
      have hex : ∃ i : ℕ, x[i]? = some '"' := ⟨s.length, hend⟩
      have hle' := Nat.find_min' hex hend
      obtain ⟨j, hj, hsj⟩ := hquote _ (Nat.find_spec hex)
      have hjs : j < s.length := by
        obtain ⟨hjs, -⟩ := List.getElem?_eq_some_iff.mp hsj
        exact hjs
      refine Nat.find_min hex hj ?_
      rw [hget j (by omega), List.getElem?_append_left hjs, hsj]
    obtain ⟨rfl, hraw⟩ := heq hshort
    have hrest := (List.append_cancel_left hx.symm)
    exact ⟨hraw, (List.cons.inj hrest).2⟩
  · rintro ⟨hraw, rfl⟩
    induction s with
    | nil => exact .nil r
    | cons c s ih =>
      rw [List.forall_mem_cons] at hraw
      exact .cons hraw.1 (ih hraw.2)

variable {k : List Char} {v : Json ν} {x : ν} {z : ℤ}

/-! ### Scalars -/

lemma skipBlanks_of_not_isBlank (hc : isBlank c = false) : skipBlanks (c :: t) = c :: t := by
  simp [skipBlanks, hc]

lemma reads_null_iff : Reads reader (.value .null) ("null".toList ++ rest) r ↔ r = rest := by
  constructor
  · intro h
    generalize htext : "null".toList ++ rest = text at h
    cases h with
    | null r => exact (List.append_cancel_left htext).symm
  · rintro rfl
    exact .null r

lemma reads_bool_iff (b : Bool) : Reads reader (.value (.bool b))
    ((if b then "true".toList else "false".toList) ++ rest) r ↔ r = rest := by
  constructor
  · intro h
    generalize htext : (if b then "true".toList else "false".toList) ++ rest = text at h
    cases h with
    | true r => exact (List.append_cancel_left htext).symm
    | false r => exact (List.append_cancel_left htext).symm
  · rintro rfl
    cases b
    · exact .false r
    · exact .true r

lemma isNumberChar_of_mem_decimal (hc : c ∈ decimal z) : isNumberChar c = true := by
  rcases mem_decimal hc with rfl | hdigit
  · decide
  · simp [isNumberChar, hdigit]

lemma decimal_ne_nil (z : ℤ) : decimal z ≠ [] := by
  obtain ⟨c, t, h, -⟩ := exists_decimal_eq_cons z
  simp [h]

/-- A number ends where the next character cannot be part of it. -/
lemma append_eq_of_isNumberChar {a b : List Char} (ha : ∀ c ∈ a, isNumberChar c = true)
    (hb : ∀ c ∈ b, isNumberChar c = true) (hr : ∀ c ∈ r.head?, isNumberChar c = false)
    (hrest : ∀ c ∈ rest.head?, isNumberChar c = false) (h : a ++ r = b ++ rest) :
    a = b ∧ r = rest := by
  have hnone : ∀ l : List Char, (∀ c ∈ l.head?, isNumberChar c = false) →
      l.takeWhile isNumberChar = [] := by
    intro l hl
    cases l with
    | nil => rfl
    | cons c l => rw [List.takeWhile_cons, hl c rfl]; rfl
  have htake := congrArg (List.takeWhile isNumberChar) h
  rw [List.takeWhile_append_of_pos ha, List.takeWhile_append_of_pos hb, hnone r hr,
    hnone rest hrest, List.append_nil, List.append_nil] at htake
  subst htake
  exact ⟨rfl, List.append_cancel_left h⟩

lemma reads_number_iff (hrest : ∀ c ∈ rest.head?, isNumberChar c = false) :
    Reads reader (.value (.number x)) (decimal z ++ rest) r ↔ x = reader.ofInt z ∧ r = rest := by
  constructor
  · intro h
    generalize htext : decimal z ++ rest = text at h
    cases h with
    | @number _ t r hne h ht hr =>
      obtain ⟨rfl, rfl⟩ := append_eq_of_isNumberChar ht
        (fun c hc => isNumberChar_of_mem_decimal hc) hr hrest htext.symm
      exact ⟨(reader.numeral_decimal z x).mp h, rfl⟩
  · rintro ⟨hx, rfl⟩
    exact .number (decimal_ne_nil z) ((reader.numeral_decimal z x).mpr hx)
      (fun c hc => isNumberChar_of_mem_decimal hc) hrest

lemma reads_string_iff : Reads reader (.value (.string s)) ('"' :: (s ++ '"' :: rest)) r ↔
    (∀ c ∈ s, reader.raw c = true) ∧ r = rest := by
  rw [← readsString_iff]
  constructor
  · intro h
    cases h with
    | string h => exact h
  · exact .string

/-- A quote opens a string, and nothing else. -/
lemma exists_string_of_reads (h : Reads reader (.value v) ('"' :: t) r) : ∃ s, v = .string s := by
  generalize htext : '"' :: t = text at h
  cases h with
  | null r => cases htext
  | true r => cases htext
  | false r => cases htext
  | number hne h ht hr =>
    obtain ⟨c, t, rfl⟩ := List.exists_cons_of_ne_nil hne
    obtain ⟨rfl, -⟩ := List.cons.inj htext
    exact absurd (ht '"' List.mem_cons_self) (by decide)
  | string h => exact ⟨_, rfl⟩
  | emptyArray h => cases htext
  | array h => cases htext
  | emptyObject h => cases htext
  | object h => cases htext

/-- No value starts with a closing bracket. -/
lemma not_reads_close (hc : c = ']' ∨ c = '}') : ¬Reads reader (.value v) (c :: t) r := by
  have hne : c ≠ '[' ∧ c ≠ '{' ∧ c ≠ '"' ∧ c ≠ 'n' ∧ c ≠ 't' ∧ c ≠ 'f' ∧
      isNumberChar c = false := by
    rcases hc with rfl | rfl <;> decide
  obtain ⟨h₁, h₂, h₃, h₄, h₅, h₆, h₇⟩ := hne
  intro h
  generalize htext : c :: t = text at h
  cases h with
  | null r => exact h₄ (List.cons.inj htext).1
  | true r => exact h₅ (List.cons.inj htext).1
  | false r => exact h₆ (List.cons.inj htext).1
  | number hne h ht hr =>
    obtain ⟨d, t, rfl⟩ := List.exists_cons_of_ne_nil hne
    obtain ⟨rfl, -⟩ := List.cons.inj htext
    rw [ht c List.mem_cons_self] at h₇
    cases h₇
  | string h => exact h₃ (List.cons.inj htext).1
  | emptyArray h => exact h₁ (List.cons.inj htext).1
  | array h => exact h₁ (List.cons.inj htext).1
  | emptyObject h => exact h₂ (List.cons.inj htext).1
  | object h => exact h₂ (List.cons.inj htext).1

/-! ### Containers -/

lemma reads_member_iff : Reads reader (.member (k, v)) ('"' :: (k ++ '"' :: rest)) r ↔
    (∀ c ∈ k, reader.raw c = true) ∧
      ∃ t, skipBlanks rest = ':' :: t ∧ Reads reader (.value v) (skipBlanks t) r := by
  constructor
  · intro h
    cases h with
    | member hname hcolon h =>
      obtain ⟨hraw, rfl⟩ := readsString_iff.mp hname
      exact ⟨hraw, _, hcolon, h⟩
  · rintro ⟨hraw, t, hcolon, h⟩
    exact .member (readsString_iff.mpr ⟨hraw, rfl⟩) hcolon h

variable {p q : JsonPart ν} {ps : List (JsonPart ν)} {close : Char}

lemma not_reads_list_nil : ¬Reads reader (.list close []) t r := nofun

lemma reads_list_singleton : Reads reader (.list close [p]) t r ↔
    ∃ t', Reads reader p (skipBlanks t) t' ∧ skipBlanks t' = close :: r := by
  constructor
  · intro h
    cases h with
    | last h hclose => exact ⟨_, h, hclose⟩
    | more _ _ hrest => exact absurd hrest not_reads_list_nil
  · rintro ⟨t', h, hclose⟩
    exact .last h hclose

lemma reads_list_cons : Reads reader (.list close (p :: q :: ps)) t r ↔
    ∃ t' t'', Reads reader p (skipBlanks t) t' ∧ skipBlanks t' = ',' :: t'' ∧
      Reads reader (.list close (q :: ps)) t'' r := by
  constructor
  · intro h
    cases h with
    | more h hcomma hrest => exact ⟨_, _, h, hcomma, hrest⟩
  · rintro ⟨t', t'', h, hcomma, hrest⟩
    exact .more h hcomma hrest

lemma reads_array_iff {items : List (Json ν)} (hne : items ≠ []) :
    Reads reader (.value (.array items)) ('[' :: t) r ↔
      Reads reader (.list ']' (items.map .value)) t r := by
  constructor
  · intro h
    cases h with
    | emptyArray h => exact absurd rfl hne
    | array h => exact h
  · exact .array

lemma reads_object_iff {members : List (List Char × Json ν)} (hne : members ≠ []) :
    Reads reader (.value (.object members)) ('{' :: t) r ↔
      Reads reader (.list '}' (members.map .member)) t r := by
  constructor
  · intro h
    cases h with
    | emptyObject h => exact absurd rfl hne
    | object h => exact h
  · exact .object

/-! ### Lists of parts -/

/-- What closes a list, or a comma. -/
def Follows (close : Char) (rest : List Char) : Prop :=
  ∃ d rest', rest = d :: rest' ∧ (d = ',' ∨ d = close)

/-- The texts with commas between them, and what closes the list. -/
def listText {ι : Type*} (g : ι → List Char) (close : Char) (l : List ι) : List Char :=
  (l.flatMap fun i => g i ++ [',']).dropLast ++ [close]

section ListText

variable {ι : Type*} {g : ι → List Char} {i j : ι} {l : List ι}

lemma listText_singleton : listText g close [i] = g i ++ [close] := by
  simp [listText]

lemma listText_cons : listText g close (i :: j :: l) = g i ++ ',' :: listText g close (j :: l) := by
  rw [listText, List.flatMap_cons, List.dropLast_append_of_ne_nil (by simp), listText]
  simp

/-- A list is read if and only if its elements are, one after the other. -/
theorem reads_listText_iff {part : ι → JsonPart ν} {ok : ι → Prop} (hl : l ≠ [])
    (hclose : isBlank close = false) (hstart : ∀ i ∈ l, ∃ c t, g i = c :: t ∧ isBlank c = false)
    (h : ∀ i ∈ l, ∀ rest r, Follows close rest →
      (Reads reader (part i) (g i ++ rest) r ↔ ok i ∧ r = rest)) :
    Reads reader (.list close (l.map part)) (listText g close l ++ rest) r ↔
      (∀ i ∈ l, ok i) ∧ r = rest := by
  have hskip : ∀ i ∈ l, ∀ rest, skipBlanks (g i ++ rest) = g i ++ rest := by
    intro i hi rest
    obtain ⟨c, t, hg, hc⟩ := hstart i hi
    rw [hg]
    exact skipBlanks_of_not_isBlank hc
  induction l with
  | nil => exact absurd rfl hl
  | cons i l ih =>
    have hi := h i List.mem_cons_self
    cases l with
    | nil =>
      rw [List.map_cons, List.map_nil, reads_list_singleton, listText_singleton, List.append_assoc,
        hskip i List.mem_cons_self]
      constructor
      · rintro ⟨t', hread, hend⟩
        obtain ⟨hok, rfl⟩ := (hi _ _ ⟨close, rest, rfl, Or.inr rfl⟩).mp hread
        have hend := (skipBlanks_of_not_isBlank hclose).symm.trans hend
        exact ⟨by simpa using hok, (List.cons.inj hend).2.symm⟩
      · rintro ⟨hok, rfl⟩
        refine ⟨[close] ++ r, (hi _ _ ⟨close, r, rfl, Or.inr rfl⟩).mpr ⟨?_, rfl⟩, ?_⟩
        · exact hok i List.mem_cons_self
        · exact skipBlanks_of_not_isBlank hclose
    | cons j l =>
      have hrec := ih (by simp) (fun k hk => hstart k (List.mem_cons_of_mem _ hk))
        (fun k hk => h k (List.mem_cons_of_mem _ hk))
        (fun k hk => hskip k (List.mem_cons_of_mem _ hk))
      rw [List.map_cons] at hrec
      rw [List.map_cons, List.map_cons, reads_list_cons, listText_cons, List.append_assoc,
        hskip i List.mem_cons_self, List.forall_mem_cons]
      have hcomma : isBlank ',' = false := by decide
      constructor
      · rintro ⟨t', t'', hread, hsep, hrest⟩
        obtain ⟨hok, rfl⟩ := (hi _ _ ⟨',', _, rfl, Or.inl rfl⟩).mp hread
        obtain ⟨-, rfl⟩ := List.cons.inj ((skipBlanks_of_not_isBlank hcomma).symm.trans hsep)
        obtain ⟨hall, heq⟩ := hrec.mp hrest
        exact ⟨⟨hok, hall⟩, heq⟩
      · rintro ⟨⟨hok, hall⟩, rfl⟩
        refine ⟨',' :: listText g close (j :: l) ++ r, listText g close (j :: l) ++ r,
          (hi _ _ ⟨',', _, rfl, Or.inl rfl⟩).mpr ⟨hok, rfl⟩, ?_, hrec.mpr ⟨hall, rfl⟩⟩
        exact skipBlanks_of_not_isBlank hcomma

end ListText

end DcmAgent.Library
