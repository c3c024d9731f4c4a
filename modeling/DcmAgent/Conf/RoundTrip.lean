import Mathlib.Tactic
import DcmAgent.Conf.Store
import DcmAgent.Library.Cuts
import DcmAgent.Library.JsonGrammar

/-!
# What is read back from the settings

The temporary file and the opt file are read line by line. `ReadsBack` says what a line stands for:
the line of an object is a member of a document, and in the line of a scalar the value is behind the
first `=`.
-/

namespace DcmAgent.Conf

open Library
open JsonText (isBlank)

variable {ν : Type}

/-! ### Reading a line -/

/-- The lines that have an end. -/
def lines (file : List Char) : List (List Char) := (file.splitOn '\n').dropLast

/-- What a scalar looks like outside of JSON. -/
def Yields (reader : JsonReader ν) : Json ν → List Char → Prop
  | .null, value => value = "null".toList
  | .bool b, value => value = boolText b
  | .number x, value => reader.numeral value x
  | .string s, value => value = s
  | _, _ => False

def ReadsBack (reader : JsonReader ν) (line : List Char) (m : List Char × Json ν) : Prop :=
  match m.2 with
  | .object _ => IsDocument reader ('{' :: line ++ ['}']) (.object [m])
  | v => ∃ value, line = m.1 ++ '=' :: value ∧ '=' ∉ m.1 ∧ Yields reader v value

/-- The objects, without what the second file leaves out. -/
def withoutUrl (members : List (List Char × Json ν)) : List (List Char × Json ν) :=
  members.filterMap fun m => match m.2 with
    | .object ms => some (m.1, .object (besidesUrl ms))
    | _ => none

/-- Every line of the files stands for a member, in their order. -/
def Restores (reader : JsonReader ν) (members : List (List Char × Json ν)) (f : Files) : Prop :=
  List.Forall₂ (ReadsBack reader) (lines f.out.bytes) members ∧
    List.Forall₂ (ReadsBack reader) (lines f.outOpt.bytes) (withoutUrl members)

/-! ### Documents -/

def IsScalar : Json ν → Prop
  | .array _ => False
  | .object _ => False
  | _ => True

/-- An object of strings. -/
def IsProfile (v : Json ν) : Prop :=
  ∃ entries : List (List Char × List Char), v = .object (entries.map fun e => (e.1, .string e.2))

/-- A scalar, or the telemetry profiles. -/
def IsSetting (m : List Char × Json ν) : Prop :=
  IsScalar m.2 ∨ m.1 = profileKey ∧ ∃ items, m.2 = .array items ∧ ∀ v ∈ items, IsProfile v

def IsSettings (m : List Char × Json ν) : Prop :=
  IsScalar m.2 ∨ ∃ ms, m.2 = .object ms ∧ ∀ m ∈ ms, IsSetting m

variable (valueint : ν → ℤ) (reader : JsonReader ν)

/-- The text is printed as it is, and stands for itself within one line. -/
def Plain (s : List Char) : Prop := ∀ c ∈ s, reader.raw c = true ∧ c ≠ '\n'

def PlainProfile (v : Json ν) : Prop :=
  ∃ entries : List (List Char × List Char), entries ≠ [] ∧
    v = .object (entries.map fun e => (e.1, .string e.2)) ∧
    ∀ e ∈ entries, Plain reader e.1 ∧ Plain reader e.2

/-- The number is the `int` that is printed for it. -/
def IsInt (x : ν) : Prop := x = reader.ofInt (valueint x)

def PlainSetting (m : List Char × Json ν) : Prop :=
  Plain reader m.1 ∧ (m.1 = urlKey → ∃ s, m.2 = .string s) ∧ match m.2 with
    | .number x => IsInt valueint reader x
    | .string s => Plain reader s
    | .array items => items ≠ [] ∧ ∀ v ∈ items, PlainProfile reader v
    | _ => True

/-- What is printed for the member can be read. -/
def Readable (m : List Char × Json ν) : Prop :=
  match m.2 with
  | .object ms => Plain reader m.1 ∧ besidesUrl ms ≠ [] ∧ ∀ m ∈ ms, PlainSetting valueint reader m
  | .number x => '\n' ∉ m.1 ∧ '=' ∉ m.1 ∧ IsInt valueint reader x
  | .string s => '\n' ∉ m.1 ∧ '=' ∉ m.1 ∧ '\n' ∉ s
  | _ => '\n' ∉ m.1 ∧ '=' ∉ m.1

variable {valueint reader}

/-! ### Pieces of the texts -/

section Texts

variable {ι : Type*} {g : ι → List Char} {close : Char} {l : List ι}

variable (g close) in
/-- What opens a list, its elements and what closes it. -/
lemma enclosed_eq (start : List Char) (hl : l ≠ []) (s : List Char) :
    (start ++ l.flatMap fun i => g i ++ [',']).dropLast ++ close :: s =
      start ++ (listText g close l ++ s) := by
  obtain ⟨i, l, rfl⟩ := List.exists_cons_of_ne_nil hl
  rw [List.dropLast_append_of_ne_nil (by simp), listText, List.append_assoc, List.append_assoc]
  rfl

lemma newline_notMem_listText (hclose : close ≠ '\n') :
    '\n' ∉ listText g close l ↔ ∀ i ∈ l, '\n' ∉ g i := by
  cases l with
  | nil => simpa [listText] using hclose.symm
  | cons i l =>
    induction l generalizing i with
    | nil => simp [listText_singleton, hclose.symm]
    | cons j l ih =>
      rw [listText_cons, List.forall_mem_cons, ← ih]
      simp

end Texts

lemma newline_notMem_quoted {s : List Char} : '\n' ∉ quoted s ↔ '\n' ∉ s := by
  simp [quoted]

lemma plain_iff {s : List Char} :
    Plain reader s ↔ (∀ c ∈ s, reader.raw c = true) ∧ '\n' ∉ s := by
  constructor
  · intro h
    exact ⟨fun c hc => (h c hc).1, fun hmem => (h _ hmem).2 rfl⟩
  · rintro ⟨hraw, hline⟩ c hc
    refine ⟨hraw c hc, ?_⟩
    rintro rfl
    exact hline hc

lemma newline_notMem_boolText (b : Bool) : '\n' ∉ boolText b := by
  cases b <;> decide

lemma newline_notMem_decimal (z : ℤ) : '\n' ∉ decimal z := by
  intro h
  rcases mem_decimal h with h | h
  · exact absurd h (by decide)
  · exact absurd h (by decide)

/-! ### Texts within a line -/

/-- The text has no newline, and with `rest` behind it the part is read from it. -/
def ReadsOn (reader : JsonReader ν) (part : JsonPart ν) (t rest r : List Char) : Prop :=
  '\n' ∉ t ∧ Reads reader part (t ++ rest) r

def StartsFilled (t : List Char) : Prop := ∃ c t', t = c :: t' ∧ isBlank c = false

variable {s t rest r k : List Char} {v : Json ν}

lemma StartsFilled.cons {c : Char} (hc : isBlank c = false) : StartsFilled (c :: t) :=
  ⟨c, t, rfl, hc⟩

lemma starts_quoted (s : List Char) : StartsFilled (quoted s ++ t) := .cons (by decide)

lemma readsOn_string : ReadsOn reader (.value (.string s)) (quoted s) rest r ↔
    Plain reader s ∧ r = rest := by
  have htext : quoted s ++ rest = '"' :: (s ++ '"' :: rest) := by simp [quoted]
  rw [ReadsOn, newline_notMem_quoted, htext, reads_string_iff, plain_iff]
  tauto

lemma readsOn_member {sep : List Char} (hsep : sep = [':'] ∨ sep = " : ".toList)
    (ht : StartsFilled t) : ReadsOn reader (.member (k, v)) (quoted k ++ (sep ++ t)) rest r ↔
      Plain reader k ∧ ReadsOn reader (.value v) t rest r := by
  have htext : quoted k ++ (sep ++ t) ++ rest = '"' :: (k ++ '"' :: (sep ++ (t ++ rest))) := by
    simp [quoted]
  have hline : '\n' ∉ sep := by rcases hsep with rfl | rfl <;> decide
  obtain ⟨c, t', rfl, hc⟩ := ht
  have hvalue : (∃ u, skipBlanks (sep ++ (c :: t' ++ rest)) = ':' :: u ∧
      Reads reader (.value v) (skipBlanks u) r) ↔ Reads reader (.value v) (c :: t' ++ rest) r := by
    have hskip : skipBlanks (c :: t' ++ rest) = c :: t' ++ rest := skipBlanks_of_not_isBlank hc
    have hcolon : ∃ u, skipBlanks (sep ++ (c :: t' ++ rest)) = ':' :: u ∧
        skipBlanks u = skipBlanks (c :: t' ++ rest) := by
      rcases hsep with rfl | rfl
      · exact ⟨_, rfl, rfl⟩
      · exact ⟨' ' :: (c :: t' ++ rest), rfl, rfl⟩
    obtain ⟨u, hu, hblanks⟩ := hcolon
    rw [hu]
    constructor
    · rintro ⟨w, hw, h⟩
      obtain ⟨-, rfl⟩ := List.cons.inj hw
      rwa [hblanks, hskip] at h
    · intro h
      exact ⟨u, rfl, by rwa [hblanks, hskip]⟩
  rw [ReadsOn, htext, reads_member_iff, hvalue, plain_iff, ReadsOn, List.mem_append,
    List.mem_append, not_or, not_or, newline_notMem_quoted]
  tauto

/-- A list is read within a line if and only if its elements are. -/
theorem readsOn_listText {ι : Type*} {g : ι → List Char} {close : Char} {l : List ι}
    {part : ι → JsonPart ν} {ok : ι → Prop} (hl : l ≠ []) (hclose : close = ']' ∨ close = '}')
    (hstart : ∀ i ∈ l, StartsFilled (g i)) (h : ∀ i ∈ l, ∀ rest r, Follows close rest →
      (ReadsOn reader (part i) (g i) rest r ↔ ok i ∧ r = rest)) :
    ReadsOn reader (.list close (l.map part)) (listText g close l) rest r ↔
      (∀ i ∈ l, ok i) ∧ r = rest := by
  have hnewline : close ≠ '\n' := by rcases hclose with rfl | rfl <;> decide
  have hblank : isBlank close = false := by rcases hclose with rfl | rfl <;> decide
  have hfree (hline : ∀ i ∈ l, '\n' ∉ g i) :
      Reads reader (.list close (l.map part)) (listText g close l ++ rest) r ↔
        (∀ i ∈ l, ok i) ∧ r = rest := by
    apply reads_listText_iff hl hblank hstart
    intro i hi rest r hrest
    rw [← h i hi rest r hrest, ReadsOn]
    exact (and_iff_right (hline i hi)).symm
  rw [ReadsOn, newline_notMem_listText hnewline]
  constructor
  · rintro ⟨hline, hread⟩
    exact (hfree hline).mp hread
  · intro hok
    have hline : ∀ i ∈ l, '\n' ∉ g i := fun i hi =>
      ((h i hi [close] [close] ⟨close, [], rfl, .inr rfl⟩).mpr ⟨hok.1 i hi, rfl⟩).1
    exact ⟨hline, (hfree hline).mpr hok⟩

lemma readsOn_array {items : List (Json ν)} (hne : items ≠ []) :
    ReadsOn reader (.value (.array items)) ('[' :: t) rest r ↔
      ReadsOn reader (.list ']' (items.map .value)) t rest r := by
  rw [ReadsOn, List.cons_append, reads_array_iff hne, ReadsOn, List.mem_cons, not_or]
  simp

lemma readsOn_object {members : List (List Char × Json ν)} (hne : members ≠ []) :
    ReadsOn reader (.value (.object members)) ('{' :: t) rest r ↔
      ReadsOn reader (.list '}' (members.map .member)) t rest r := by
  rw [ReadsOn, List.cons_append, reads_object_iff hne, ReadsOn, List.mem_cons, not_or]
  simp

/-- Without elements the bracket that opens a list is taken back. -/
lemma not_readsOn_close {c : Char} (hc : c = ']' ∨ c = '}') :
    ¬ReadsOn reader (.value v) (c :: t) rest r := fun h => not_reads_close hc h.2

/-! ### Telemetry profiles -/

def entrySep (name : List Char) : List Char :=
  if name = "header".toList ∨ name = "content".toList ∨ name = "type".toList then " : ".toList
  else [':']

/-- The text of an entry, without the comma. -/
def entryPart (e : List Char × List Char) : List Char :=
  quoted e.1 ++ (entrySep e.1 ++ quoted e.2)

lemma entryText_eq (e : List Char × List Char) :
    entryText (some e.1, (.string e.2 : Json ν)) = entryPart e ++ [','] := by
  rw [entryPart, ← List.append_assoc]
  rfl

lemma readsOn_entry {e : List Char × List Char} :
    ReadsOn reader (.member (e.1, .string e.2)) (entryPart e) rest r ↔
      (Plain reader e.1 ∧ Plain reader e.2) ∧ r = rest := by
  have hsep : entrySep e.1 = [':'] ∨ entrySep e.1 = " : ".toList := by
    unfold entrySep
    split_ifs
    · exact .inr rfl
    · exact .inl rfl
  have hstart : StartsFilled (quoted e.2) := .cons (by decide)
  rw [entryPart, readsOn_member hsep hstart, readsOn_string, and_assoc]

def profilePart (v : Json ν) : List Char :=
  ('{' :: (children v).flatMap entryText).dropLast ++ ['}']

lemma profileText_eq (v : Json ν) : profileText v = profilePart v ++ [','] := by
  simp [profileText, profilePart]

lemma children_profile (entries : List (List Char × List Char)) :
    (children (.object (entries.map fun e => (e.1, .string e.2)) : Json ν)).flatMap entryText =
      entries.flatMap fun e => entryPart e ++ [','] := by
  simp only [children, List.map_map, List.flatMap_map, Function.comp_apply]
  exact List.flatMap_congr fun e _ => entryText_eq e

lemma profile_eq {entries : List (List Char × List Char)} (hne : entries ≠ []) :
    ('{' :: entries.flatMap fun e => entryPart e ++ [',']).dropLast ++ ['}'] =
      '{' :: listText entryPart '}' entries := by
  have htext := enclosed_eq entryPart '}' ['{'] hne []
  rwa [List.append_nil] at htext

lemma starts_profilePart (hv : IsProfile v) : StartsFilled (profilePart v) := by
  obtain ⟨entries, rfl⟩ := hv
  rw [profilePart, children_profile]
  cases entries with
  | nil => exact .cons (by decide)
  | cons e entries =>
    rw [profile_eq (List.cons_ne_nil e entries)]
    exact .cons (by decide)

lemma readsOn_profile (hv : IsProfile v) :
    ReadsOn reader (.value v) (profilePart v) rest r ↔ PlainProfile reader v ∧ r = rest := by
  obtain ⟨entries, rfl⟩ := hv
  have hinj : Function.Injective fun e : List Char × List Char =>
      (e.1, (.string e.2 : Json ν)) := by
    rintro ⟨a, b⟩ ⟨a', b'⟩ h
    simpa using h
  have hplain : PlainProfile reader (.object (entries.map fun e => (e.1, .string e.2))) ↔
      entries ≠ [] ∧ ∀ e ∈ entries, Plain reader e.1 ∧ Plain reader e.2 := by
    constructor
    · rintro ⟨entries', hne, heq, hall⟩
      obtain rfl := List.map_injective_iff.mpr hinj (Json.object.inj heq)
      exact ⟨hne, hall⟩
    · rintro ⟨hne, hall⟩
      exact ⟨entries, hne, rfl, hall⟩
  rw [profilePart, children_profile, hplain]
  by_cases hne : entries = []
  · subst hne
    exact iff_of_false (not_readsOn_close (.inr rfl)) fun h => h.1.1 rfl
  · have hmembers : entries.map (fun e => (e.1, (.string e.2 : Json ν))) ≠ [] := by simpa using hne
    have hlist : ReadsOn reader (.list '}' (entries.map fun e => .member (e.1, .string e.2)))
        (listText entryPart '}' entries) rest r ↔
          (∀ e ∈ entries, Plain reader e.1 ∧ Plain reader e.2) ∧ r = rest := by
      apply readsOn_listText hne (.inr rfl) fun e _ => starts_quoted e.1
      intro e _ rest r _
      exact readsOn_entry
    rw [profile_eq hne, readsOn_object hmembers, List.map_map, and_iff_right hne]
    exact hlist

variable {m : List Char × Json ν}

/-! ### Members -/

variable (valueint) in
/-- What is behind the name of a member, without the comma. -/
def valuePart (m : List Char × Json ν) : List Char :=
  if m.1 = urlKey then quoted (text (valuestring m.2))
  else
    match m.2 with
    | .null => "null".toList
    | .bool b => boolText b
    | .number x => decimal (valueint x)
    | .string s => quoted s
    | .array items => ('[' :: items.flatMap profileText).dropLast ++ [']']
    | .object _ => []

variable (valueint) in
def memberPart (m : List Char × Json ν) : List Char := quoted m.1 ++ ([':'] ++ valuePart valueint m)

lemma memberText_eq (hm : IsSetting m) :
    memberText valueint m = memberPart valueint m ++ [','] := by
  obtain ⟨k, v⟩ := m
  rw [memberText, memberPart, valuePart]
  by_cases hurl : k = urlKey
  · rw [if_pos hurl, if_pos hurl]
    simp
  · rw [if_neg hurl, if_neg hurl]
    rcases hm with hscalar | ⟨rfl, items, rfl, -⟩
    · cases v with
      | null => simp
      | bool b => simp
      | number x => simp
      | string s => simp
      | array items => cases hscalar
      | object ms => cases hscalar
    · dsimp only
      rw [List.append_assoc (quoted profileKey), List.dropLast_append_of_ne_nil (by simp)]
      simp

lemma items_eq {items : List (Json ν)} (hne : items ≠ []) :
    ('[' :: items.flatMap profileText).dropLast ++ [']'] =
      '[' :: listText profilePart ']' items := by
  have htext := enclosed_eq (profilePart (ν := ν)) ']' ['['] hne []
  rw [List.append_nil] at htext
  rw [List.flatMap_congr fun v _ => profileText_eq v]
  exact htext

lemma starts_valuePart (hm : IsSetting m) : StartsFilled (valuePart valueint m) := by
  obtain ⟨k, v⟩ := m
  rw [valuePart]
  by_cases hurl : k = urlKey
  · rw [if_pos hurl]
    exact .cons (by decide)
  · rw [if_neg hurl]
    rcases hm with hscalar | ⟨rfl, items, rfl, -⟩
    · cases v with
      | null => exact .cons (by decide)
      | bool b => cases b <;> exact .cons (by decide)
      | number x =>
        obtain ⟨c, t, h, hc⟩ := exists_decimal_eq_cons (valueint x)
        refine ⟨c, t, h, ?_⟩
        rcases hc with rfl | hc
        · decide
        · cases hblank : isBlank c with
          | false => rfl
          | true =>
            simp only [isBlank, Bool.or_eq_true, decide_eq_true_eq] at hblank
            rcases hblank with ((rfl | rfl) | rfl) | rfl <;> exact absurd hc (by decide)
      | string s => exact .cons (by decide)
      | array items => cases hscalar
      | object ms => cases hscalar
    · cases items with
      | nil => exact .cons (by decide)
      | cons v items =>
        dsimp only
        rw [items_eq (List.cons_ne_nil v items)]
        exact .cons (by decide)

lemma head_of_follows (h : Follows '}' rest) : ∀ c ∈ rest.head?, isNumberChar c = false := by
  obtain ⟨d, rest', rfl, hd⟩ := h
  intro c hc
  obtain rfl : d = c := by simpa using hc
  rcases hd with rfl | rfl <;> decide

lemma readsOn_items {items : List (Json ν)} (hitems : ∀ v ∈ items, IsProfile v) :
    ReadsOn reader (.value (.array items)) (('[' :: items.flatMap profileText).dropLast ++ [']'])
      rest r ↔ (items ≠ [] ∧ ∀ v ∈ items, PlainProfile reader v) ∧ r = rest := by
  by_cases hne : items = []
  · subst hne
    exact iff_of_false (not_readsOn_close (.inl rfl)) fun h => h.1.1 rfl
  · rw [items_eq hne, readsOn_array hne, and_iff_right hne]
    apply readsOn_listText hne (.inl rfl) fun v hv => starts_profilePart (hitems v hv)
    intro v hv rest r _
    exact readsOn_profile (hitems v hv)

/-- The value of a member is read if and only if it is plain. -/
lemma readsOn_valuePart (hm : IsSetting m) (hrest : Follows '}' rest) :
    ReadsOn reader (.value m.2) (valuePart valueint m) rest r ↔
      ((m.1 = urlKey → ∃ s, m.2 = .string s) ∧ match m.2 with
        | .number x => IsInt valueint reader x
        | .string s => Plain reader s
        | .array items => items ≠ [] ∧ ∀ v ∈ items, PlainProfile reader v
        | _ => True) ∧ r = rest := by
  obtain ⟨k, v⟩ := m
  dsimp only
  rw [valuePart]
  by_cases hurl : k = urlKey
  · rw [if_pos hurl]
    have hkey : (k = urlKey → ∃ s, v = .string s) ↔ ∃ s, v = .string s := by simp [hurl]
    rw [hkey]
    by_cases hstring : ∃ s, v = .string s
    · obtain ⟨s, rfl⟩ := hstring
      have hs : (∃ s', (.string s : Json ν) = .string s') := ⟨s, rfl⟩
      rw [and_iff_right hs]
      exact readsOn_string
    · refine iff_of_false (fun h => hstring ?_) fun h => hstring h.1.1
      have hquote := h.2
      rw [quoted, List.cons_append, List.cons_append] at hquote
      exact exists_string_of_reads hquote
  · rw [if_neg hurl, and_iff_right fun h => absurd h hurl]
    rcases hm with hscalar | ⟨-, items, hv, hitems⟩
    · cases v with
      | null =>
        have hline : '\n' ∉ "null".toList := by decide
        rw [true_and, ← reads_null_iff]
        exact and_iff_right hline
      | bool b =>
        rw [true_and, ← reads_bool_iff b]
        exact and_iff_right (newline_notMem_boolText b)
      | number x =>
        rw [ReadsOn, and_iff_right (newline_notMem_decimal _),
          reads_number_iff (head_of_follows hrest)]
        rfl
      | string s => exact readsOn_string
      | array items => cases hscalar
      | object ms => cases hscalar
    · dsimp only at hv
      subst hv
      exact readsOn_items hitems

lemma readsOn_setting (hm : IsSetting m) (hrest : Follows '}' rest) :
    ReadsOn reader (.member m) (memberPart valueint m) rest r ↔
      PlainSetting valueint reader m ∧ r = rest := by
  rw [memberPart, readsOn_member (.inl rfl) (starts_valuePart hm),
    readsOn_valuePart hm hrest, ← and_assoc]
  rfl

/-! ### Lines -/

variable {k : List Char} {ms : List (List Char × Json ν)}

variable (valueint) in
def objectPart (ms : List (List Char × Json ν)) : List Char :=
  ('{' :: ms.flatMap (memberText valueint)).dropLast ++ ['}']

variable (valueint) in
/-- The line of an object, without the newline. -/
def objectLine (k : List Char) (ms : List (List Char × Json ν)) : List Char :=
  quoted k ++ ([':'] ++ objectPart valueint ms)

lemma objectText_eq : objectText valueint k ms = objectLine valueint k ms ++ ['\n'] := by
  rw [objectText, objectLine, objectPart, List.append_assoc (quoted k),
    List.dropLast_append_of_ne_nil (by simp)]
  simp

lemma objectPart_eq (hms : ∀ m ∈ ms, IsSetting m) (hne : ms ≠ []) :
    objectPart valueint ms = '{' :: listText (memberPart valueint) '}' ms := by
  have htext := enclosed_eq (memberPart valueint) '}' ['{'] hne []
  rw [List.append_nil] at htext
  rw [objectPart, List.flatMap_congr fun m hm => memberText_eq (hms m hm)]
  exact htext

lemma starts_objectPart (hms : ∀ m ∈ ms, IsSetting m) : StartsFilled (objectPart valueint ms) := by
  by_cases hne : ms = []
  · subst hne
    exact .cons (by decide)
  · rw [objectPart_eq hms hne]
    exact .cons (by decide)

lemma readsOn_objectPart (hms : ∀ m ∈ ms, IsSetting m) :
    ReadsOn reader (.value (.object ms)) (objectPart valueint ms) rest r ↔
      (ms ≠ [] ∧ ∀ m ∈ ms, PlainSetting valueint reader m) ∧ r = rest := by
  by_cases hne : ms = []
  · subst hne
    exact iff_of_false (not_readsOn_close (.inr rfl)) fun h => h.1.1 rfl
  · rw [objectPart_eq hms hne, readsOn_object hne, and_iff_right hne]
    apply readsOn_listText hne (.inr rfl) fun m _ => starts_quoted m.1
    intro m hm rest r hrest
    exact readsOn_setting (hms m hm) hrest

lemma readsOn_document {ok : Prop} (ht : StartsFilled t) (h : ∀ rest r, Follows '}' rest →
    (ReadsOn reader (.member m) t rest r ↔ ok ∧ r = rest)) :
    ReadsOn reader (.value (.object [m])) ('{' :: (t ++ ['}'])) rest r ↔ ok ∧ r = rest := by
  have hlist : ReadsOn reader (.list '}' ([m].map .member)) (listText (fun _ => t) '}' [m]) rest r ↔
      (∀ _m' ∈ [m], ok) ∧ r = rest := by
    apply readsOn_listText (List.cons_ne_nil m []) (.inr rfl) fun _ _ => ht
    intro m' hm' rest r hrest
    obtain rfl := List.mem_singleton.mp hm'
    exact h rest r hrest
  rw [readsOn_object (List.cons_ne_nil m [])]
  rw [listText_singleton] at hlist
  simpa using hlist

/-- The line of an object is read back if and only if the object has members and all its texts are
plain. -/
theorem readsBack_object_iff (hms : ∀ m ∈ ms, IsSetting m) :
    ('\n' ∉ objectLine valueint k ms ∧
      ReadsBack reader (objectLine valueint k ms) (k, .object ms)) ↔
      Plain reader k ∧ ms ≠ [] ∧ ∀ m ∈ ms, PlainSetting valueint reader m := by
  have hdocument : ∀ r, ReadsOn reader (.value (.object [(k, .object ms)]))
      ('{' :: (objectLine valueint k ms ++ ['}'])) [] r ↔
        (Plain reader k ∧ ms ≠ [] ∧ ∀ m ∈ ms, PlainSetting valueint reader m) ∧ r = [] := by
    intro r
    apply readsOn_document (starts_quoted k)
    intro rest r _
    rw [readsOn_member (.inl rfl) (starts_objectPart hms), readsOn_objectPart hms, ← and_assoc]
  constructor
  · rintro ⟨hline, r, hread, -⟩
    refine ((hdocument r).mp ⟨?_, ?_⟩).1
    · simpa using hline
    · rw [List.append_nil]
      exact hread
  · intro hok
    obtain ⟨hline, hread⟩ := (hdocument []).mpr ⟨hok, rfl⟩
    refine ⟨by simpa using hline, [], ?_, rfl⟩
    rw [List.append_nil] at hread
    exact hread

variable (valueint) in
/-- The value behind the `=` of a scalar. -/
def scalarText : Json ν → List Char
  | .null => "null".toList
  | .bool b => boolText b
  | .number x => decimal (valueint x)
  | .string s => s
  | _ => []

lemma readsBack_scalar_iff {v : Json ν} (hv : IsScalar v) :
    ('\n' ∉ k ++ '=' :: scalarText valueint v ∧
      ReadsBack reader (k ++ '=' :: scalarText valueint v) (k, v)) ↔
        Readable valueint reader (k, v) := by
  have hvalue (hread : ∀ line, ReadsBack reader line (k, v) ↔
      ∃ value, line = k ++ '=' :: value ∧ '=' ∉ k ∧ Yields reader v value) :
      ReadsBack reader (k ++ '=' :: scalarText valueint v) (k, v) ↔
        '=' ∉ k ∧ Yields reader v (scalarText valueint v) := by
    rw [hread]
    constructor
    · rintro ⟨value, heq, hk, hyields⟩
      obtain ⟨-, rfl⟩ := List.cons.inj (List.append_cancel_left heq)
      exact ⟨hk, hyields⟩
    · rintro ⟨hk, hyields⟩
      exact ⟨_, rfl, hk, hyields⟩
  have hnewline : ∀ value : List Char, '\n' ∉ k ++ '=' :: value ↔ '\n' ∉ k ∧ '\n' ∉ value := by
    intro value
    simp
  rw [hnewline]
  cases v with
  | null =>
    have hline : '\n' ∉ "null".toList := by decide
    rw [hvalue fun _ => Iff.rfl]
    simp [Readable, scalarText, Yields]
  | bool b =>
    have hline := newline_notMem_boolText b
    rw [hvalue fun _ => Iff.rfl]
    simp [Readable, scalarText, Yields, hline]
  | number x =>
    have hline := newline_notMem_decimal (valueint x)
    rw [hvalue fun _ => Iff.rfl, Yields, scalarText, reader.numeral_decimal]
    simp [Readable, IsInt, hline]
  | string s =>
    rw [hvalue fun _ => Iff.rfl]
    simp only [Readable, scalarText, Yields]
    tauto
  | array items => cases hv
  | object ms => cases hv

/-! ### The files -/

variable {members : List (List Char × Json ν)}

variable (valueint) in
/-- The line of a member, without the newline. -/
def itemLine (m : List Char × Json ν) : List Char :=
  match m.2 with
  | .object ms => objectLine valueint m.1 ms
  | v => m.1 ++ '=' :: scalarText valueint v

lemma itemLine_scalar {v : Json ν} (hv : IsScalar v) :
    itemLine valueint (k, v) = k ++ '=' :: scalarText valueint v := by
  cases v with
  | object ms => cases hv
  | array items => cases hv
  | null => rfl
  | bool b => rfl
  | number x => rfl
  | string s => rfl

lemma itemText_eq (hm : IsSettings m) :
    itemText valueint (some m.1, m.2) = itemLine valueint m ++ ['\n'] := by
  obtain ⟨k, v⟩ := m
  rcases hm with hscalar | ⟨ms, hv, -⟩
  · cases v with
    | null => simp [itemText, itemLine, scalarText, text]
    | bool b => simp [itemText, itemLine, scalarText, text]
    | number x => simp [itemText, itemLine, scalarText, text]
    | string s => simp [itemText, itemLine, scalarText, text]
    | array items => cases hscalar
    | object ms => cases hscalar
  · dsimp only at hv
    subst hv
    exact objectText_eq

lemma flatMap_itemTextOpt (members : List (List Char × Json ν)) :
    (members.flatMap fun m => itemTextOpt valueint (some m.1, m.2)) =
      (withoutUrl members).flatMap fun m => itemLine valueint m ++ ['\n'] := by
  induction members with
  | nil => rfl
  | cons m members ih =>
    obtain ⟨k, v⟩ := m
    rw [List.flatMap_cons, ih]
    cases v with
    | object ms =>
      have hline : objectText valueint k (besidesUrl ms) =
        itemLine valueint (k, .object (besidesUrl ms)) ++ ['\n'] := objectText_eq
      rw [show withoutUrl ((k, .object ms) :: members) =
        (k, .object (besidesUrl ms)) :: withoutUrl members from rfl, List.flatMap_cons, ← hline]
      rfl
    | null => rfl
    | bool b => rfl
    | number x => rfl
    | string s => rfl
    | array items => rfl

lemma mem_withoutUrl : m ∈ withoutUrl members ↔
    ∃ ms, (m.1, .object ms) ∈ members ∧ m.2 = .object (besidesUrl ms) := by
  rw [withoutUrl, List.mem_filterMap]
  constructor
  · rintro ⟨⟨k, v⟩, hmem, heq⟩
    cases v with
    | object ms =>
      obtain rfl := Option.some.inj heq
      exact ⟨ms, hmem, rfl⟩
    | null => cases heq
    | bool b => cases heq
    | number x => cases heq
    | string s => cases heq
    | array items => cases heq
  · rintro ⟨ms, hmem, heq⟩
    exact ⟨_, hmem, congrArg some (Prod.ext rfl heq.symm)⟩

lemma lines_eq {g : List Char × Json ν → List Char} {file : List Char}
    (h : file = members.flatMap fun m => g m ++ ['\n']) :
    lines file = members.flatMap fun m => (g m).splitOn '\n' := by
  rw [lines, h, splitOn_flatMap]

variable (valueint members) in
/-- The two files of the document. -/
def stored : Files :=
  filesOf (members.flatMap fun m => itemText valueint (some m.1, m.2))
    (members.flatMap fun m => itemTextOpt valueint (some m.1, m.2))

/-- Each line of the two files stands for its member if and only if everything in the document is
readable in the way it is printed. -/
lemma restores_stored_iff (hmembers : ∀ m ∈ members, IsSettings m) :
    Restores reader members (stored valueint members) ↔
      ∀ m ∈ members, Readable valueint reader m := by
  have hout : lines (stored valueint members).out.bytes =
      members.flatMap fun m => (itemLine valueint m).splitOn '\n' := by
    apply lines_eq
    simp only [stored, filesOf, Stream.ofText]
    exact List.flatMap_congr fun m hm => itemText_eq (hmembers m hm)
  have hopt : lines (stored valueint members).outOpt.bytes =
      (withoutUrl members).flatMap fun m => (itemLine valueint m).splitOn '\n' := by
    apply lines_eq
    rw [← flatMap_itemTextOpt]
    simp only [stored, filesOf, Stream.ofText]
  rw [Restores, hout, hopt, forall₂_flatMap_splitOn_iff, forall₂_flatMap_splitOn_iff]
  constructor
  · rintro ⟨hall, hobjects⟩ ⟨k, v⟩ hm
    rcases hmembers _ hm with hscalar | ⟨ms, hv, hms⟩
    · have hback := hall _ hm
      rw [itemLine_scalar hscalar] at hback
      exact (readsBack_scalar_iff hscalar).mp hback
    · dsimp only at hv
      subst hv
      have hkept := hobjects (k, .object (besidesUrl ms)) (mem_withoutUrl.mpr ⟨ms, hm, rfl⟩)
      obtain ⟨hk, -, hplain⟩ := (readsBack_object_iff hms).mp (hall _ hm)
      obtain ⟨-, hne, -⟩ := (readsBack_object_iff fun m hm => hms m (List.mem_of_mem_filter hm)).mp
        hkept
      exact ⟨hk, hne, hplain⟩
  · intro hreadable
    constructor
    · rintro ⟨k, v⟩ hm
      have hread := hreadable _ hm
      rcases hmembers _ hm with hscalar | ⟨ms, hv, hms⟩
      · rw [itemLine_scalar hscalar]
        exact (readsBack_scalar_iff hscalar).mpr hread
      · dsimp only at hv
        subst hv
        obtain ⟨hk, hne, hplain⟩ := hread
        refine (readsBack_object_iff hms).mpr ⟨hk, ?_, hplain⟩
        rintro rfl
        exact hne rfl
    · rintro ⟨k, v⟩ hm
      obtain ⟨ms, hmem, hv⟩ := mem_withoutUrl.mp hm
      dsimp only at hmem hv
      subst hv
      obtain ⟨hk, hne, hplain⟩ := hreadable _ hmem
      have hms : ∀ m ∈ ms, IsSetting m := by
        rcases hmembers _ hmem with hscalar | ⟨ms', heq, hms⟩
        · cases hscalar
        · obtain rfl := Json.object.inj heq
          exact hms
      exact (readsBack_object_iff fun m hm => hms m (List.mem_of_mem_filter hm)).mpr
        ⟨hk, hne, fun m hm => hplain m (List.mem_of_mem_filter hm)⟩

lemma eq_stored {env : Env} {f : Files}
    (h : dcmSettingStoreTempConf valueint env (some (.object members)) = some f) :
    f = stored valueint members := by
  rw [dcmSettingStoreTempConf_eq_some h]
  simp only [stored, children, List.flatMap_map]

/-- The calls on the files and for the memory succeed. -/
def Env.Succeeds (env : Env) : Prop :=
  env.opensConf ∧ env.opensTemp ∧ env.opensOpt ∧ env.tellsSize ∧ env.allocates ∧ env.reads

variable (valueint reader) in
/-- Whenever the function succeeds, the document is restored from its files. -/
def RoundTrips (env : Env) (members : List (List Char × Json ν)) : Prop :=
  ∀ f, dcmSettingStoreTempConf valueint env (some (.object members)) = some f →
    Restores reader members f

lemma named_of_isProfile {v : Json ν} (hv : IsProfile v) : named v = true := by
  obtain ⟨entries, rfl⟩ := hv
  simp [named, children]

lemma namedMember_of_isSetting (hm : IsSetting m) : namedMember m = true := by
  obtain ⟨k, v⟩ := m
  rcases hm with hscalar | ⟨-, items, hv, hitems⟩
  · cases v with
    | array items => cases hscalar
    | object ms => cases hscalar
    | null => simp [namedMember]
    | bool b => simp [namedMember]
    | number x => simp [namedMember]
    | string s => simp [namedMember]
  · dsimp only at hv
    subst hv
    have hall : items.all named = true :=
      List.all_eq_true.mpr fun v hv => named_of_isProfile (hitems v hv)
    simp [namedMember, hall]

lemma namedItem_of_isSettings (hm : IsSettings m) : namedItem (some m.1, m.2) = true := by
  obtain ⟨k, v⟩ := m
  rcases hm with hscalar | ⟨ms, hv, hms⟩
  · cases v with
    | array items => cases hscalar
    | object ms => cases hscalar
    | null => rfl
    | bool b => rfl
    | number x => rfl
    | string s => rfl
  · dsimp only at hv
    subst hv
    exact List.all_eq_true.mpr fun m hm => namedMember_of_isSetting (hms m hm)

/-- No name is missing, so only a call can fail. -/
lemma dcmSettingStoreTempConf_eq_stored {env : Env} (henv : env.Succeeds)
    (hmembers : ∀ m ∈ members, IsSettings m) :
    dcmSettingStoreTempConf valueint env (some (.object members)) =
      some (stored valueint members) := by
  have hfold := foldlM_filesOf (storeItem_filesOf valueint) (children (.object members)) [] []
  have hall : (children (.object members)).all namedItem = true := by
    rw [children, List.all_map, List.all_eq_true]
    exact fun m hm => namedItem_of_isSettings (hmembers m hm)
  rw [if_pos hall] at hfold
  unfold Env.Succeeds at henv
  unfold dcmSettingStoreTempConf
  rw [if_pos henv]
  simp only [stored, children, List.flatMap_map, List.nil_append] at hfold ⊢
  exact hfold

lemma Env.Succeeds.of_eq_some {env : Env} {doc : Option (Json ν)} {f : Files}
    (h : dcmSettingStoreTempConf valueint env doc = some f) : env.Succeeds := by
  unfold dcmSettingStoreTempConf at h
  split_ifs at h with henv
  exact henv

/-- Characters but quotes and backslashes stand for themselves, and numbers are integers. -/
def intReader : JsonReader ℤ where
  raw c := c ≠ '"' && c ≠ '\\'
  raw_quote := rfl
  raw_backslash := rfl
  numeral t x := t = decimal x
  ofInt := id
  numeral_decimal _ _ := decimal_injective.eq_iff.trans eq_comm

def profileEntries : List (List Char × List Char) :=
  [("header".toList, "SYS".toList), ("type".toList, "m.txt".toList)]

/-- A server and the settings of an upload, with one telemetry profile. -/
def profileDocument : List (List Char × Json ℤ) :=
  [("server".toList, .string "log".toList),
    ("settings".toList, .object [(urlKey, .string "u".toList), ("interval".toList, .number 900),
      (profileKey, .array [.object (profileEntries.map fun e => (e.1, .string e.2))])])]

lemma isSettings_profileDocument : ∀ m ∈ profileDocument, IsSettings m := by
  refine List.forall_mem_cons.mpr ⟨.inl trivial, List.forall_mem_singleton.mpr (.inr ⟨_, rfl, ?_⟩)⟩
  refine List.forall_mem_cons.mpr ⟨.inl trivial, List.forall_mem_cons.mpr ⟨.inl trivial, ?_⟩⟩
  exact List.forall_mem_singleton.mpr
    (.inr ⟨rfl, _, rfl, List.forall_mem_singleton.mpr ⟨profileEntries, rfl⟩⟩)

lemma readable_profileDocument : ∀ m ∈ profileDocument, Readable id intReader m := by
  have hplain {s : List Char} (h : s.all fun c => intReader.raw c && c ≠ '\n') :
      Plain intReader s := by
    intro c hc
    simpa using List.all_eq_true.mp h c hc
  refine List.forall_mem_cons.mpr ⟨⟨by decide, by decide, by decide⟩,
    List.forall_mem_singleton.mpr ⟨hplain (by decide), List.cons_ne_nil _ _, ?_⟩⟩
  refine List.forall_mem_cons.mpr ⟨⟨hplain (by decide), fun _ => ⟨_, rfl⟩, hplain (by decide)⟩, ?_⟩
  refine List.forall_mem_cons.mpr ⟨⟨hplain (by decide), fun h => absurd h (by decide), rfl⟩, ?_⟩
  refine List.forall_mem_singleton.mpr ⟨hplain (by decide), fun h => absurd h (by decide),
    List.cons_ne_nil _ _, List.forall_mem_singleton.mpr ?_⟩
  refine ⟨profileEntries, List.cons_ne_nil _ _, rfl, ?_⟩
  exact List.forall_mem_cons.mpr ⟨⟨hplain (by decide), hplain (by decide)⟩,
    List.forall_mem_singleton.mpr ⟨hplain (by decide), hplain (by decide)⟩⟩

end DcmAgent.Conf
