import Mathlib.Tactic
import DcmAgent.Cron.Parse
import DcmAgent.Library.CString
import DcmAgent.Library.Numbered
import DcmAgent.Library.Stream

/-!
# Property files

`dcmSettingGetValueFromFile` looks a key up in a file of lines `key=value`, and so does
`dcmUtilsGetFileEntry`. The first takes the first piece of a line that has the key anywhere and
the delimiter behind no comma, the second the first piece that starts with the key and `=`. An
access outside of a line or of the array for the value is `none`.
-/

namespace DcmAgent.Daemon.Properties

open Library
open Cron (strstr)

/-! ### `dcmSettingGetValueFromFile` -/

/-- The character at a place of a string, whose terminator may be read too. -/
def charAt (s : List Char) (i : ℤ) : Option Char :=
  if 0 ≤ i ∧ i ≤ s.length then some (s.getD i.toNat nul) else none

/-- `buf[strcspn(buf, c)] = 0`. -/
def cutAt (c : Char) (buf : List Char) : List Char := buf.takeWhile (· ≠ c)

/-- Where the value is copied to: an array that takes so many characters and the terminator, or the
array that the line is in. -/
inductive Destination where
  | array (room : ℕ)
  | buf
  deriving DecidableEq, Repr

/-- The text at a place of the line fits, or does not overlap with its copy. -/
def Destination.Takes : Destination → ℕ → List Char → Prop
  | .array room, _, text => text.length ≤ room
  | .buf, place, text => text.length < place

instance : ∀ (value : Destination) (place : ℕ) (text : List Char),
    Decidable (value.Takes place text)
  | .array room, _, text => inferInstanceAs (Decidable (text.length ≤ room))
  | .buf, place, text => inferInstanceAs (Decidable (text.length < place))

/-- `strcpy(value, tempStr)` -/
def strcpy (value : Destination) (tempStr : ℕ) (text : List Char) : Option (List Char) :=
  if value.Takes tempStr text then some text else none

/-- The value that a piece of the file gives, if it gives one. -/
def valueOf (key : List Char) (value : Destination) (delim piece : List Char) :
    Option (Option (List Char)) :=
  let buf := cutAt nul piece
  match strstr key buf with
  | none => some none
  | some _ =>
    let buf := cutAt ',' (cutAt '\n' (cutAt '\r' buf))
    match strstr delim buf with
    | none => some none
    | some pos =>
      let tempStr := pos + 1
      (charAt buf tempStr).bind fun first =>
        let tempStr := if first = '"' then tempStr + 1 else tempStr
        let last : ℤ := tempStr + (buf.drop tempStr).length - 1
        (charAt buf last).bind fun c =>
          let buf := if c = '"' then buf.take last.toNat else buf
          (strcpy value tempStr (buf.drop tempStr)).map some

/-- The loop over what `fgets` reads. -/
def searchPieces (key : List Char) (value : Destination) (delim : List Char) :
    List (List Char) → Option (Option (List Char))
  | [] => some none
  | piece :: rest =>
    match valueOf key value delim piece with
    | none => none
    | some none => searchPieces key value delim rest
    | some (some text) => some (some text)

/-- The characters that `fgets` reads at a time. -/
def execmdRoom : ℕ := 1023

/-- The result and the value, which is the `old` one when the file cannot be opened. -/
def dcmSettingGetValueFromFile (file : Option (List Char)) (key : List Char) (value : Destination)
    (old delim : List Char) : Option (ℤ × List Char) :=
  match file with
  | none => some (-1, old)
  | some text =>
    match searchPieces key value delim (pieces execmdRoom text) with
    | none => none
    | some none => some (-1, [])
    | some (some text) => some (0, text)

/-! ### `dcmUtilsGetFileEntry` -/

def entryOf (searchEntry piece : List Char) : Option (List Char) :=
  let line := cutAt nul piece
  if line.getD searchEntry.length nul = '=' ∧ searchEntry <+: line then
    some ((line.drop (searchEntry.length + 1)).takeWhile fun c => c ≠ '\r' && c ≠ '\n')
  else none

/-- `char line[512]`. -/
def entryRoom : ℕ := 511

def dcmUtilsGetFileEntry (file : Option (List Char)) (searchEntry : List Char) :
    Option (List Char) :=
  match file with
  | none => none
  | some text => (pieces entryRoom text).findSome? (entryOf searchEntry)

/-! ### What they are for -/

/-- A key as it is used: a word that leaves room for a value in a line. -/
structure Key where
  chars : List Char
  plain : ∀ c ∈ chars, c ≠ '=' ∧ c ≠ ',' ∧ c ≠ '\r' ∧ c ≠ '\n' ∧ c ≠ nul
  length_lt : chars.length < 500

/-- A line without what ends it. -/
def withoutEnd (line : List Char) : List Char :=
  let line := if line.getLast? = some '\n' then line.dropLast else line
  if line.getLast? = some '\r' then line.dropLast else line

/-- A text without the quotes around it. -/
def unquoted (v : List Char) : List Char :=
  if 2 ≤ v.length ∧ v.head? = some '"' ∧ v.getLast? = some '"' then v.tail.dropLast else v

/-- The line is `key=value`. -/
def IsEntry (key : Key) (line : List Char) : Prop := key.chars ++ ['='] <+: line

instance (key : Key) (line : List Char) : Decidable (IsEntry key line) := by
  unfold IsEntry; infer_instance

/-- The value of an entry, with its quotes. -/
def rawValue (key : Key) (line : List Char) : List Char :=
  (withoutEnd line).drop (key.chars.length + 1)

def lineValue (key : Key) (line : List Char) : Option (List Char) :=
  if IsEntry key line then some (unquoted (rawValue key line)) else none

/-- The first entry of a file with a key, with the number of its line. -/
def firstEntry (key : Key) (text : List Char) : Option (ℕ × List Char) :=
  (numbered (fun line => (lineValue key line).toList) 0 (textLines text)).head?

/-- What a piece gives, `none` when it cannot be copied. -/
def settingValue (key : Key) (value : Destination) (piece : List Char) :
    Option (Option (List Char)) :=
  match valueOf key.chars value ['='] piece with
  | none => some none
  | some found => found.map some

/-- What the pieces of a line give to the one function and to the other. -/
def settingValues (key : Key) (value : Destination) (line : List Char) :
    List (Option (List Char)) :=
  (pieces execmdRoom line).filterMap (settingValue key value)

def entryValues (key : Key) (line : List Char) : List (List Char) :=
  (pieces entryRoom line).filterMap (entryOf key.chars)

/-- The lines from which the functions have their values. -/
def settingLine (key : Key) (value : Destination) (text : List Char) : Option ℕ :=
  (numbered (settingValues key value) 0 (textLines text)).head?.map Prod.fst

def entryLine (key : Key) (text : List Char) : Option ℕ :=
  (numbered (entryValues key) 0 (textLines text)).head?.map Prod.fst

/-- The result for a value that has or has not been found. -/
def outcome : Option (List Char) → ℤ × List Char
  | none => (-1, [])
  | some value => (0, value)

/-- The first entry of the file is found, nothing outside of its line is read and nothing outside of
the array for the value is written, and the lookup of the other function finds the same, the quotes
aside. -/
structure FindsEntry (key : Key) (value : Destination) (text : List Char) : Prop where
  result : ∀ old, dcmSettingGetValueFromFile (some text) key.chars value old ['='] =
    some (outcome ((firstEntry key text).map Prod.snd))
  line : settingLine key value text = (firstEntry key text).map Prod.fst
  agrees : (dcmUtilsGetFileEntry (some text) key.chars).map unquoted =
    (firstEntry key text).map Prod.snd
  entryLine : entryLine key text = (firstEntry key text).map Prod.fst

/-- The one function stops at the piece: it has the key, and `=` in front of a comma or an end. -/
def Mentions (key : Key) (piece : List Char) : Prop :=
  key.chars <:+: cutAt nul piece ∧ '=' ∈ cutAt ',' (cutAt '\n' (cutAt '\r' (cutAt nul piece)))

/-- Where the text of a value begins in its entry. -/
def textPlace (key : Key) (v : List Char) : ℕ :=
  if v.head? = some '"' then key.chars.length + 1 + 1 else key.chars.length + 1

/-- The value has no character that cuts it, its quotes are a pair, its line fits, and so does its
copy. -/
structure Clean (key : Key) (value : Destination) (v : List Char) : Prop where
  plain : ∀ c ∈ v, c ≠ ',' ∧ c ≠ '\r' ∧ c ≠ nul
  quotes : v.head? = some '"' ↔ v.getLast? = some '"'
  pair : v ≠ ['"']
  fits : key.chars.length + 1 + v.length ≤ entryRoom
  copied : value.Takes (textPlace key v) (unquoted v)

/-- An entry has a clean value, and the pieces of any other line say nothing. -/
def Readable (key : Key) (value : Destination) (line : List Char) : Prop :=
  if IsEntry key line then Clean key value (rawValue key line)
  else (∀ piece ∈ pieces execmdRoom line, ¬Mentions key piece) ∧
    ∀ piece ∈ pieces entryRoom line, ¬IsEntry key (cutAt nul piece)

/-! ### Searching -/

lemma strstr_eq_none_iff {rep s : List Char} : strstr rep s = none ↔ ¬rep <:+: s := by
  induction s with
  | nil =>
    rw [Cron.strstr, List.infix_nil]
    split_ifs with h <;> simp [h]
  | cons c s ih =>
    rw [Cron.strstr, List.infix_cons_iff]
    split_ifs with h
    · simp [List.isPrefixOf_iff_prefix.mp h]
    · rw [Option.map_eq_none_iff, ih, not_or]
      exact (and_iff_right (mt List.isPrefixOf_iff_prefix.mpr h)).symm

lemma strstr_delim {a s : List Char} (h : '=' ∉ a) :
    strstr ['='] (a ++ '=' :: s) = some a.length := by
  induction a with
  | nil => simp [Cron.strstr]
  | cons c a ih =>
    rw [List.mem_cons, not_or] at h
    have hne : ¬(['='].isPrefixOf (c :: (a ++ '=' :: s)) = true) := by simpa using h.1
    rw [List.cons_append, Cron.strstr, if_neg hne, ih h.2]
    rfl

/-- What the code leaves of the text behind the delimiter. -/
def stripped (s : List Char) : List Char :=
  let s := if s.head? = some '"' then s.tail else s
  if s.getLast? = some '"' then s.dropLast else s

/-- The last character is cut off if it is a quote, and it is inside of the string even when there
is nothing behind the place. -/
lemma cut_last (value : Destination) (b u : List Char) (hb : b ≠ []) :
    ((charAt (b ++ u) (b.length + ((b ++ u).drop b.length).length - 1)).bind fun c =>
      let buf := if c = '"' then (b ++ u).take
        ((b.length + ((b ++ u).drop b.length).length - 1 : ℤ).toNat) else b ++ u
      (strcpy value b.length (buf.drop b.length)).map some) =
        (strcpy value b.length (if u.getLast? = some '"' then u.dropLast else u)).map some := by
  have hpos := List.length_pos_iff.mpr hb
  have hplace : ((b.length + ((b ++ u).drop b.length).length - 1 : ℤ)).toNat =
      (b ++ u).length - 1 := by
    rw [List.drop_left, List.length_append]
    omega
  have hinside : charAt (b ++ u) (b.length + ((b ++ u).drop b.length).length - 1) =
      some ((b ++ u).getD ((b ++ u).length - 1) nul) := by
    rw [charAt, hplace, if_pos]
    rw [List.drop_left, List.length_append]
    omega
  rw [hinside, Option.bind_some, hplace]
  dsimp only
  rw [← List.dropLast_eq_take]
  match u with
  | [] =>
    rw [List.append_nil]
    have hshort : b.dropLast.drop b.length = [] := by simp
    split_ifs <;> simp [hshort]
  | c :: u =>
    have hlast : (b ++ c :: u).getD ((b ++ c :: u).length - 1) nul =
        (c :: u).getLast (by simp) := by
      rw [List.getD_eq_getElem?_getD, ← List.getLast?_eq_getElem?,
        List.getLast?_append_of_ne_nil _ (by simp), List.getLast?_eq_some_getLast (by simp)]
      rfl
    rw [hlast, List.getLast?_eq_some_getLast (by simp)]
    by_cases hquote : (c :: u).getLast (by simp) = '"'
    · rw [if_pos hquote, if_pos (congrArg some hquote), List.dropLast_append_of_ne_nil (by simp),
        List.drop_left]
    · rw [if_neg hquote, if_neg (by simpa using hquote), List.drop_left]

/-- The piece of a line up to the first character that cuts it. -/
def uncut (piece : List Char) : List Char :=
  cutAt ',' (cutAt '\n' (cutAt '\r' (cutAt nul piece)))

/-- What stands behind the first `=`. -/
def behindDelim (buf : List Char) : List Char := (buf.dropWhile (· ≠ '=')).tail

instance (key : Key) (piece : List Char) : Decidable (Mentions key piece) := by
  unfold Mentions; infer_instance

/-- Where the text begins that is copied. -/
def copyPlace (buf : List Char) : ℕ :=
  if (behindDelim buf).head? = some '"' then (buf.takeWhile (· ≠ '=')).length + 1 + 1
  else (buf.takeWhile (· ≠ '=')).length + 1

/-- The accesses stay inside of the line. -/
lemma valueOf_eq (key : Key) (value : Destination) (piece : List Char) :
    valueOf key.chars value ['='] piece =
      if Mentions key piece then
        (strcpy value (copyPlace (uncut piece)) (stripped (behindDelim (uncut piece)))).map some
      else some none := by
  unfold valueOf
  dsimp only
  by_cases hkey : key.chars <:+: cutAt nul piece
  swap
  · rw [strstr_eq_none_iff.mpr hkey, if_neg fun h => hkey h.1]
  obtain ⟨i, hi⟩ := Option.ne_none_iff_exists'.mp (mt strstr_eq_none_iff.mp (not_not_intro hkey))
  rw [hi]
  dsimp only
  rw [← uncut]
  by_cases hdelim : '=' ∈ uncut piece
  swap
  · have hno : strstr ['='] (uncut piece) = none := by
      rw [strstr_eq_none_iff, List.singleton_infix_iff]
      exact hdelim
    rw [hno, if_neg fun h => hdelim h.2]
  rw [if_pos ⟨hkey, hdelim⟩]
  obtain ⟨a, t, heq, ha⟩ := List.eq_append_cons_of_mem hdelim
  rw [heq, strstr_delim ha]
  dsimp only
  have hbehind : behindDelim (a ++ '=' :: t) = t := by
    have hall : ∀ c ∈ a, decide (c ≠ '=') = true := fun c hc => decide_eq_true fun h => ha (h ▸ hc)
    rw [behindDelim, List.dropWhile_append_of_pos hall, List.dropWhile_cons_of_neg (by simp),
      List.tail_cons]
  have hfront : (a ++ '=' :: t).takeWhile (· ≠ '=') = a := by
    have hall : ∀ c ∈ a, decide (c ≠ '=') = true := fun c hc => decide_eq_true fun h => ha (h ▸ hc)
    rw [List.takeWhile_append_of_pos hall, List.takeWhile_cons_of_neg (by simp), List.append_nil]
  have hfirst : charAt (a ++ '=' :: t) ((a.length + 1 : ℕ) : ℤ) = some (t.headD nul) := by
    rw [charAt, if_pos]
    · rw [Int.toNat_natCast, List.getD_eq_getElem?_getD, List.getElem?_append_right (by omega),
        Nat.add_sub_cancel_left]
      cases t <;> rfl
    · rw [List.length_append, List.length_cons]
      omega
  have hsplit : a ++ '=' :: t = (a ++ ['=']) ++ t := by simp
  have hlen : (a ++ ['=']).length = a.length + 1 := by simp
  rw [hfirst, Option.bind_some, copyPlace, hfront, hbehind, stripped]
  by_cases hquote : t.head? = some '"'
  · obtain ⟨u, rfl⟩ : ∃ u, t = '"' :: u := by
      cases t with
      | nil => cases hquote
      | cons c u => exact ⟨u, by rw [Option.some.inj hquote]⟩
    have hsplit' : a ++ '=' :: '"' :: u = (a ++ ['=', '"']) ++ u := by simp
    have hlen' : (a ++ ['=', '"']).length = a.length + 1 + 1 := by simp
    rw [List.headD_cons, if_pos rfl, List.head?_cons, if_pos rfl, List.tail_cons, hsplit', ← hlen']
    exact cut_last value _ u (by simp)
  · have hhead : t.headD nul ≠ '"' := by
      cases t with
      | nil => decide
      | cons c u => exact fun h => hquote (congrArg some h)
    rw [if_neg hhead, if_neg hquote, if_neg hquote, hsplit, ← hlen]
    exact cut_last value (a ++ ['=']) t (by simp)

/-- What the one function makes of the first value, if there is one. -/
def copiedOutcome : Option (Option (List Char)) → Option (ℤ × List Char)
  | none => some (-1, [])
  | some none => none
  | some (some text) => some (0, text)

lemma settingValue_eq_none_iff {key : Key} {value : Destination} {piece : List Char} :
    settingValue key value piece = none ↔ ¬Mentions key piece := by
  rw [settingValue, valueOf_eq]
  split_ifs with h
  · cases strcpy value _ _ <;> simp [h]
  · simp [h]

lemma strcpy_eq_some_iff {value : Destination} {place : ℕ} {text v : List Char} :
    strcpy value place text = some v ↔ text = v ∧ value.Takes place v := by
  rw [strcpy, Option.ite_none_right_eq_some, Option.some.injEq, and_comm]
  exact and_congr_right fun h => by rw [h]

/-- The first value of the pieces. -/
lemma searchPieces_eq (key : Key) (value : Destination) (ps : List (List Char)) :
    searchPieces key.chars value ['='] ps =
      match (ps.filterMap (settingValue key value)).head? with
      | none => some none
      | some found => found.map some := by
  induction ps with
  | nil => rfl
  | cons piece ps ih =>
    rw [searchPieces, List.filterMap_cons, settingValue]
    match valueOf key.chars value ['='] piece with
    | none => rfl
    | some none => exact ih
    | some (some text) => rfl

lemma entryOf_eq (key : Key) (piece : List Char) : entryOf key.chars piece =
    if IsEntry key (cutAt nul piece) then
      some (((cutAt nul piece).drop (key.chars.length + 1)).takeWhile
        fun c => c ≠ '\r' && c ≠ '\n')
    else none := by
  have hiff : (cutAt nul piece).getD key.chars.length nul = '=' ∧ key.chars <+: cutAt nul piece ↔
      IsEntry key (cutAt nul piece) := by
    constructor
    · rintro ⟨hdelim, rest, hrest⟩
      rw [← hrest, List.getD_eq_getElem?_getD, List.getElem?_append_right le_rfl,
        Nat.sub_self] at hdelim
      match rest with
      | [] => exact absurd hdelim (by decide)
      | c :: rest =>
        obtain rfl : c = '=' := hdelim
        exact ⟨rest, by rw [← hrest]; simp⟩
    · rintro ⟨rest, hrest⟩
      rw [List.append_assoc, List.singleton_append] at hrest
      refine ⟨?_, ⟨_, hrest⟩⟩
      rw [← hrest, List.getD_eq_getElem?_getD, List.getElem?_append_right le_rfl, Nat.sub_self]
      rfl
  unfold entryOf
  dsimp only
  exact if_congr hiff rfl rfl

/-! ### The file -/

lemma dcmSettingGetValueFromFile_eq (key : Key) (value : Destination) (text old : List Char) :
    dcmSettingGetValueFromFile (some text) key.chars value old ['='] = copiedOutcome
      ((numbered (settingValues key value) 0 (textLines text)).head?.map Prod.snd) := by
  rw [dcmSettingGetValueFromFile, searchPieces_eq, ← List.head?_map, map_snd_numbered,
    pieces_eq_flatMap, List.filterMap_flatMap]
  unfold settingValues
  generalize ((textLines text).flatMap fun line =>
    (pieces execmdRoom line).filterMap (settingValue key value)).head? = found
  match found with
  | none => rfl
  | some none => rfl
  | some (some text) => rfl

/-- A copy that does not fit is no outcome. -/
lemma copiedOutcome_eq_iff {found : Option (Option (List Char))} {v : Option (List Char)} :
    copiedOutcome found = some (outcome v) ↔ found = v.map some := by
  match found, v with
  | none, none => simp [copiedOutcome, outcome]
  | none, some v => simp [copiedOutcome, outcome]
  | some none, none => simp [copiedOutcome]
  | some none, some v => simp [copiedOutcome]
  | some (some text), none => simp [copiedOutcome, outcome]
  | some (some text), some v => simp [copiedOutcome, outcome]

lemma dcmUtilsGetFileEntry_eq (key : Key) (text : List Char) :
    dcmUtilsGetFileEntry (some text) key.chars =
      (numbered (entryValues key) 0 (textLines text)).head?.map Prod.snd := by
  rw [dcmUtilsGetFileEntry, ← List.head?_filterMap, ← List.head?_map, map_snd_numbered,
    pieces_eq_flatMap, List.filterMap_flatMap]
  rfl

/-- What a line is to give to the one function, as its values are counted. -/
lemma map_some_firstEntry (key : Key) (text : List Char) :
    (firstEntry key text).map (Prod.map id some) =
      (numbered (fun line => (lineValue key line).toList.map some) 0 (textLines text)).head? := by
  rw [firstEntry, numbered_map, List.head?_map]

/-- The functions find the first entry exactly if each finds its line and its value. -/
lemma findsEntry_iff_numbered (key : Key) (value : Destination) (text : List Char) :
    FindsEntry key value text ↔
      (numbered (settingValues key value) 0 (textLines text)).head? =
          (firstEntry key text).map (Prod.map id some) ∧
        (numbered (fun line => (entryValues key line).map unquoted) 0 (textLines text)).head? =
          firstEntry key text := by
  have hpair {β : Type} (x y : Option (ℕ × β)) (hfst : x.map Prod.fst = y.map Prod.fst)
      (hsnd : x.map Prod.snd = y.map Prod.snd) : x = y := by
    cases x <;> cases y <;> simp_all [Prod.ext_iff]
  rw [numbered_map, List.head?_map]
  constructor
  · intro h
    refine ⟨hpair _ _ ?_ ?_, hpair _ _ ?_ ?_⟩
    · rw [Option.map_map]
      exact h.line
    · have hresult := h.result []
      rw [dcmSettingGetValueFromFile_eq, copiedOutcome_eq_iff, Option.map_map] at hresult
      rw [hresult, Option.map_map]
      rfl
    · rw [Option.map_map]
      exact h.entryLine
    · have hagrees := h.agrees
      rw [dcmUtilsGetFileEntry_eq, Option.map_map] at hagrees
      rw [Option.map_map]
      exact hagrees
  · rintro ⟨hsetting, hentry⟩
    refine ⟨fun old => ?_, ?_, ?_, ?_⟩
    · rw [dcmSettingGetValueFromFile_eq, hsetting, copiedOutcome_eq_iff, Option.map_map,
        Option.map_map]
      rfl
    · rw [settingLine, hsetting, Option.map_map]
      rfl
    · rw [dcmUtilsGetFileEntry_eq, ← hentry, Option.map_map, Option.map_map]
      rfl
    · rw [entryLine, ← hentry, Option.map_map]
      rfl

/-! ### Quotes -/

lemma mem_unquoted_iff {c : Char} {v : List Char} (hc : c ≠ '"') : c ∈ unquoted v ↔ c ∈ v := by
  rw [unquoted]
  split_ifs with h
  · obtain ⟨hlen, hhead, hlast⟩ := h
    match v with
    | [] => simp
    | [d] => simp at hlen
    | d :: e :: v =>
      obtain rfl := Option.some.inj hhead
      rw [List.tail_cons, List.mem_cons, or_iff_right hc]
      have hsplit := List.dropLast_append_getLast (List.cons_ne_nil e v)
      rw [List.getLast?_cons_cons, List.getLast?_eq_some_getLast (List.cons_ne_nil e v),
        Option.some.injEq] at hlast
      rw [hlast] at hsplit
      constructor
      · exact List.mem_of_mem_dropLast
      · intro hmem
        rw [← hsplit, List.mem_append, List.mem_singleton] at hmem
        exact hmem.resolve_right hc
  · rfl

lemma stripped_subset (s : List Char) : stripped s ⊆ s := by
  intro c hc
  unfold stripped at hc
  dsimp only at hc
  split_ifs at hc
  · exact List.mem_of_mem_tail (List.mem_of_mem_dropLast hc)
  · exact List.mem_of_mem_tail hc
  · exact List.mem_of_mem_dropLast hc
  · exact hc

/-- Quotes that are not a pair are cut off all the same. -/
lemma stripped_eq_unquoted_iff (v : List Char) : stripped v = unquoted v ↔
    (v.head? = some '"' ↔ v.getLast? = some '"') ∧ v ≠ ['"'] := by
  match v with
  | [] => simp [stripped, unquoted]
  | [c] =>
    by_cases hc : c = '"'
    · simp [stripped, unquoted, hc]
    · simp [stripped, unquoted, hc]
  | c :: d :: v =>
    have hne : c :: d :: v ≠ ['"'] := by simp
    rw [and_iff_left hne]
    by_cases hhead : c = '"' <;> by_cases hlast : (d :: v).getLast? = some '"'
    · simp [stripped, unquoted, hhead, hlast]
    · simp [stripped, unquoted, hhead, hlast]
    · have hshort : (c :: d :: v).dropLast ≠ c :: d :: v := fun h => by
        simpa using congrArg List.length h
      simpa [stripped, unquoted, hhead, hlast] using hshort
    · simp [stripped, unquoted, hhead, hlast]

/-- A text that is its own front part behind a character has that character everywhere. -/
lemma getElem?_of_eq_cons_dropLast {c : Char} {u : List Char} (h : u = c :: u.dropLast) {i : ℕ}
    (hi : i < u.length) : u[i]? = some c := by
  induction i with
  | zero =>
    rw [h]
    rfl
  | succ i ih =>
    have hshift : u[i + 1]? = u.dropLast[i]? := by
      conv_lhs => rw [h]
      exact List.getElem?_cons_succ
    rw [hshift, List.getElem?_dropLast, if_pos (by omega)]
    exact ih (by omega)

/-- A text that is cut off behind three characters or more has another text between its quotes. -/
lemma length_le_of_unquoted_take {v : List Char} {n : ℕ} (hn : 3 ≤ n)
    (h : unquoted (v.take n) = unquoted v) : v.length ≤ n := by
  by_contra hlong
  rw [not_le] at hlong
  have hlen := congrArg List.length h
  have htake : (v.take n).length = n := List.length_take_of_le hlong.le
  by_cases hv : 2 ≤ v.length ∧ v.head? = some '"' ∧ v.getLast? = some '"'
  · by_cases ht : 2 ≤ (v.take n).length ∧ (v.take n).head? = some '"' ∧
        (v.take n).getLast? = some '"'
    · rw [unquoted, unquoted, if_pos hv, if_pos ht] at hlen
      simp only [List.length_dropLast, List.length_tail, htake] at hlen
      omega
    · -- the text would consist of quotes
      rw [unquoted, unquoted, if_pos hv, if_neg ht] at h
      rw [unquoted, unquoted, if_pos hv, if_neg ht] at hlen
      simp only [List.length_dropLast, List.length_tail, htake] at hlen
      obtain ⟨w, hw⟩ : ∃ w, v = '"' :: w := by
        cases v with
        | nil => cases hv.2.1
        | cons c w => exact ⟨w, by rw [Option.some.inj hv.2.1]⟩
      obtain ⟨m, rfl⟩ := Nat.exists_eq_add_of_le' (Nat.one_le_of_lt hn)
      have hwlen : w.length = m + 2 := by
        have := congrArg List.length hw
        rw [List.length_cons] at this
        omega
      have hinner : v.take (m + 1) = w.take (m + 1) := by
        rw [h, hw, List.tail_cons, List.dropLast_eq_take, hwlen]
        rfl
      have hfront : v.take (m + 1) = '"' :: (v.take (m + 1)).dropLast := by
        rw [hinner, List.dropLast_take (by omega), Nat.add_sub_cancel, ← hinner, hw,
          List.take_succ_cons]
      have hend := getElem?_of_eq_cons_dropLast hfront (i := m) (by omega)
      refine ht ⟨by omega, by rw [hfront]; rfl, ?_⟩
      rw [List.getLast?_eq_getElem?, htake]
      exact hend
  · rw [unquoted, unquoted, if_neg hv] at hlen
    split_ifs at hlen
    · simp only [List.length_dropLast, List.length_tail, htake] at hlen
      omega
    · omega

/-! ### Entries -/

/-- A line and what ends it. -/
lemma withoutEnd_split (l : List Char) :
    ∃ e, l = withoutEnd l ++ e ∧ ∀ c ∈ e, c = '\r' ∨ c = '\n' := by
  have hcut (c : Char) (s : List Char) : ∃ e, s =
      (if s.getLast? = some c then s.dropLast else s) ++ e ∧ ∀ d ∈ e, d = c := by
    split_ifs with h
    · refine ⟨[c], ?_, by simp⟩
      obtain ⟨t, rfl⟩ := List.getLast?_eq_some_iff.mp h
      rw [List.dropLast_concat]
    · exact ⟨[], (List.append_nil s).symm, by simp⟩
  obtain ⟨e, he, hmem⟩ := hcut '\n' l
  obtain ⟨e', he', hmem'⟩ := hcut '\r' (if l.getLast? = some '\n' then l.dropLast else l)
  refine ⟨e' ++ e, ?_, fun c hc => ?_⟩
  · rw [withoutEnd, ← List.append_assoc, ← he', ← he]
  · rcases List.mem_append.mp hc with hc | hc
    · exact .inl (hmem' c hc)
    · exact .inr (hmem c hc)

lemma newline_notMem_withoutEnd {l : List Char} (hne : l ≠ []) (h : '\n' ∉ l.dropLast) :
    '\n' ∉ withoutEnd l := by
  have hfirst : '\n' ∉ (if l.getLast? = some '\n' then l.dropLast else l) := by
    split_ifs with hlast
    · exact h
    · intro hmem
      rw [← List.dropLast_append_getLast hne, List.mem_append, List.mem_singleton] at hmem
      rcases hmem with hmem | hmem
      · exact h hmem
      · exact hlast (by rw [List.getLast?_eq_some_getLast hne, ← hmem])
  intro hmem
  rw [withoutEnd] at hmem
  generalize (if l.getLast? = some '\n' then l.dropLast else l) = s at hfirst hmem
  split_ifs at hmem
  · exact hfirst (List.mem_of_mem_dropLast hmem)
  · exact hfirst hmem

/-- An entry is its key, the delimiter, its value and an end. -/
lemma entry_split {key : Key} {l : List Char} (h : IsEntry key l) :
    ∃ e, l = (key.chars ++ ['=']) ++ (rawValue key l ++ e) ∧ ∀ c ∈ e, c = '\r' ∨ c = '\n' := by
  obtain ⟨e, hl, he⟩ := withoutEnd_split l
  have hfront : key.chars ++ ['='] <+: withoutEnd l := by
    rcases List.prefix_or_prefix_of_prefix h ⟨e, hl.symm⟩ with hpre | ⟨x, hx⟩
    · exact hpre
    · obtain ⟨rest, hrest⟩ := h
      rw [hl, ← hx, List.append_assoc] at hrest
      have hxe := List.append_cancel_left hrest
      match hlast : x.getLast? with
      | none =>
        rw [List.getLast?_eq_none_iff.mp hlast, List.append_nil] at hx
        rw [hx]
      | some c =>
        have hdelim := congrArg List.getLast? hx
        rw [List.getLast?_append, hlast, List.getLast?_concat] at hdelim
        obtain rfl : c = '=' := Option.some.inj hdelim
        have hmem : '=' ∈ e := by
          rw [← hxe]
          exact List.mem_append_left _ (List.mem_of_getLast? hlast)
        rcases he _ hmem with h | h <;> exact absurd h (by decide)
  obtain ⟨v, hv⟩ := hfront
  have hraw : rawValue key l = v := by
    have hlen : (key.chars ++ ['=']).length = key.chars.length + 1 := by simp
    rw [rawValue, ← hv, ← hlen, List.drop_left]
  refine ⟨e, ?_, he⟩
  rw [hraw, ← List.append_assoc, hv]
  exact hl

/-- The characters that cut a value in the one function, and those that cut it in the other. -/
def kept (c : Char) : Bool := ((c ≠ nul && c ≠ '\r') && c ≠ '\n') && c ≠ ','

def inLine (c : Char) : Bool := c ≠ nul && (c ≠ '\r' && c ≠ '\n')

lemma uncut_eq (piece : List Char) : uncut piece = piece.takeWhile kept := by
  simp only [uncut, cutAt, List.takeWhile_takeWhile]
  congr 1
  funext c
  simp only [kept]
  grind

/-- The end of a line cuts, so that only the value counts. -/
lemma takeWhile_take_append {P : Char → Bool} {e : List Char} (he : ∀ c ∈ e, P c = false)
    (v : List Char) (n : ℕ) : ((v ++ e).take n).takeWhile P = (v.take n).takeWhile P := by
  have hend : (e.take (n - v.length)).takeWhile P = [] := by
    match h : e.take (n - v.length) with
    | [] => rfl
    | c :: rest =>
      have hc : c ∈ e := List.mem_of_mem_take (h ▸ List.mem_cons_self)
      rw [List.takeWhile_cons_of_neg (by simp [he c hc])]
  rw [List.take_append, List.takeWhile_append, hend]
  split_ifs with hall
  · rw [List.append_nil]
    exact ((List.takeWhile_prefix P).eq_of_length hall).symm
  · rfl

section Entry

variable {key : Key} {l : List Char} (hne : l ≠ []) (hend : '\n' ∉ l.dropLast)
  (hentry : IsEntry key l)

include hne hend hentry

/-- The first piece of an entry. -/
lemma exists_pieces_entry {size : ℕ} (hsize : 500 < size) : ∃ e rest,
    pieces size l = ((key.chars ++ ['=']) ++
      (rawValue key l ++ e).take (size - (key.chars.length + 1))) :: rest ∧
      ∀ c ∈ e, c = '\r' ∨ c = '\n' := by
  obtain ⟨e, hl, he⟩ := entry_split hentry
  have hhead := head?_pieces (by omega : 0 < size) hne hend
  obtain ⟨rest, hrest⟩ := List.head?_eq_some_iff.mp hhead
  refine ⟨e, rest, ?_, he⟩
  have hkey := key.length_lt
  have hlen : (key.chars ++ ['=']).length = key.chars.length + 1 := by simp
  rw [hrest]
  congr 1
  conv_lhs => rw [hl]
  rw [List.take_append, List.take_of_length_le (by omega), hlen]

lemma head?_settingValues (value : Destination) : (settingValues key value l).head? =
    some (strcpy value
      (textPlace key (((rawValue key l).take (execmdRoom - (key.chars.length + 1))).takeWhile kept))
      (stripped
        (((rawValue key l).take (execmdRoom - (key.chars.length + 1))).takeWhile kept))) := by
  obtain ⟨e, rest, hpieces, he⟩ := exists_pieces_entry hne hend hentry
    (by decide : 500 < execmdRoom)
  have hkept : ∀ c ∈ key.chars ++ ['='], kept c = true := by
    intro c hc
    rcases List.mem_append.mp hc with hc | hc
    · obtain ⟨-, h₁, h₂, h₃, h₄⟩ := key.plain c hc
      simp [kept, h₁, h₂, h₃, h₄]
    · obtain rfl := List.mem_singleton.mp hc
      decide
  have hcut : ∀ c ∈ e, kept c = false := by
    intro c hc
    rcases he c hc with rfl | rfl <;> decide
  have hnul : ∀ c ∈ key.chars ++ ['='], decide (c ≠ nul) = true := by
    intro c hc
    have := hkept c hc
    simp only [kept, Bool.and_eq_true] at this
    exact this.1.1.1
  have hno : '=' ∉ key.chars := fun h => (key.plain _ h).1 rfl
  generalize hw : (rawValue key l ++ e).take (execmdRoom - (key.chars.length + 1)) = w at hpieces
  have huncut : uncut ((key.chars ++ ['=']) ++ w) = (key.chars ++ ['=']) ++ w.takeWhile kept := by
    rw [uncut_eq, List.takeWhile_append_of_pos hkept]
  have hmentions : Mentions key ((key.chars ++ ['=']) ++ w) := by
    refine ⟨?_, ?_⟩
    · rw [cutAt, List.takeWhile_append_of_pos hnul, List.append_assoc]
      exact (List.prefix_append _ _).isInfix
    · rw [← uncut, huncut]
      simp
  have hbehind : behindDelim ((key.chars ++ ['=']) ++ w.takeWhile kept) = w.takeWhile kept := by
    have hall : ∀ c ∈ key.chars, decide (c ≠ '=') = true := fun c hc =>
      decide_eq_true (key.plain c hc).1
    rw [behindDelim, List.append_assoc, List.dropWhile_append_of_pos hall, List.singleton_append,
      List.dropWhile_cons_of_neg (by simp), List.tail_cons]
  have hplace : copyPlace ((key.chars ++ ['=']) ++ w.takeWhile kept) =
      textPlace key (w.takeWhile kept) := by
    have hall : ∀ c ∈ key.chars, decide (c ≠ '=') = true := fun c hc =>
      decide_eq_true (key.plain c hc).1
    rw [copyPlace, hbehind, List.append_assoc, List.takeWhile_append_of_pos hall,
      List.singleton_append, List.takeWhile_cons_of_neg (by simp), List.append_nil, textPlace]
  rw [settingValues, hpieces, List.filterMap_cons, settingValue, valueOf_eq, if_pos hmentions,
    huncut, hplace, hbehind, ← hw, takeWhile_take_append hcut]
  cases strcpy value _ _ <;> rfl

lemma head?_entryValues : (entryValues key l).head? =
    some (((rawValue key l).take (entryRoom - (key.chars.length + 1))).takeWhile inLine) := by
  obtain ⟨e, rest, hpieces, he⟩ := exists_pieces_entry hne hend hentry (by decide : 500 < entryRoom)
  have hnul : ∀ c ∈ key.chars ++ ['='], decide (c ≠ nul) = true := by
    intro c hc
    rcases List.mem_append.mp hc with hc | hc
    · exact decide_eq_true (key.plain c hc).2.2.2.2
    · obtain rfl := List.mem_singleton.mp hc
      decide
  have hcut : ∀ c ∈ e, inLine c = false := by
    intro c hc
    rcases he c hc with rfl | rfl <;> decide
  generalize hw : (rawValue key l ++ e).take (entryRoom - (key.chars.length + 1)) = w at hpieces
  have hline : cutAt nul ((key.chars ++ ['=']) ++ w) = (key.chars ++ ['=']) ++ cutAt nul w := by
    rw [cutAt, List.takeWhile_append_of_pos hnul, cutAt]
  have hlen : key.chars.length + 1 = (key.chars ++ ['=']).length := by simp
  have hvalue : (cutAt nul w).takeWhile (fun c => c ≠ '\r' && c ≠ '\n') = w.takeWhile inLine := by
    rw [cutAt, List.takeWhile_takeWhile]
    congr 1
    funext c
    simp only [inLine]
    grind
  have hfound : IsEntry key ((key.chars ++ ['=']) ++ cutAt nul w) := List.prefix_append _ _
  rw [entryValues, hpieces, List.filterMap_cons, entryOf_eq, hline, if_pos hfound, hlen,
    List.drop_left, hvalue, ← hw, ← hlen, takeWhile_take_append hcut]
  rfl

/-- The first pieces give the value of the entry exactly if it is clean. -/
lemma clean_iff (value : Destination) : Clean key value (rawValue key l) ↔
    (settingValues key value l).head? = some (some (unquoted (rawValue key l))) ∧
      ((entryValues key l).map unquoted).head? = some (unquoted (rawValue key l)) := by
  have hkey := key.length_lt
  have hline : '\n' ∉ rawValue key l := fun h =>
    newline_notMem_withoutEnd hne hend (List.mem_of_mem_drop h)
  rw [List.head?_map, head?_settingValues hne hend hentry, head?_entryValues hne hend hentry,
    Option.map_some, Option.some.injEq, Option.some.injEq, strcpy_eq_some_iff]
  generalize rawValue key l = v at hline ⊢
  constructor
  · intro h
    have hfits := h.fits
    have hkept : ∀ c ∈ v, kept c = true := by
      intro c hc
      obtain ⟨h₁, h₂, h₃⟩ := h.plain c hc
      have h₄ : c ≠ '\n' := fun heq => hline (heq ▸ hc)
      simp [kept, h₁, h₂, h₃, h₄]
    have hin : ∀ c ∈ v, inLine c = true := by
      intro c hc
      obtain ⟨-, h₂, h₃⟩ := h.plain c hc
      have h₄ : c ≠ '\n' := fun heq => hline (heq ▸ hc)
      simp [inLine, h₂, h₃, h₄]
    rw [entryRoom] at hfits
    rw [execmdRoom, entryRoom, List.take_of_length_le (by omega), List.take_of_length_le (by omega),
      List.takeWhile_eq_self_iff.mpr hkept, List.takeWhile_eq_self_iff.mpr hin]
    exact ⟨⟨(stripped_eq_unquoted_iff v).mpr ⟨h.quotes, h.pair⟩, h.copied⟩, rfl⟩
  · rintro ⟨⟨hsetting, hcopied⟩, hlookup⟩
    have hin : ∀ c ∈ v, c ≠ '\r' ∧ c ≠ nul := by
      intro c hc
      by_contra hcut
      have hquote : c ≠ '"' := by
        rintro rfl
        exact hcut (by decide)
      rw [← mem_unquoted_iff hquote, ← hlookup, mem_unquoted_iff hquote] at hc
      have := List.mem_takeWhile_imp hc
      simp only [inLine, Bool.and_eq_true, decide_eq_true_eq] at this
      exact hcut ⟨this.2.1, this.1⟩
    have hwhole : ∀ c ∈ v.take (entryRoom - (key.chars.length + 1)), inLine c = true := by
      intro c hc
      obtain ⟨h₂, h₃⟩ := hin c (List.mem_of_mem_take hc)
      have h₄ : c ≠ '\n' := fun heq => hline (heq ▸ List.mem_of_mem_take hc)
      simp [inLine, h₂, h₃, h₄]
    rw [List.takeWhile_eq_self_iff.mpr hwhole] at hlookup
    have hfits := length_le_of_unquoted_take (by rw [entryRoom]; omega) hlookup
    rw [entryRoom] at hfits
    have hcomma : ∀ c ∈ v, c ≠ ',' := by
      rintro c hc rfl
      rw [← mem_unquoted_iff (by decide), ← hsetting] at hc
      have := List.mem_takeWhile_imp (stripped_subset _ hc)
      simp [kept] at this
    have hkept : ∀ c ∈ v, kept c = true := by
      intro c hc
      obtain ⟨h₂, h₃⟩ := hin c hc
      have h₄ : c ≠ '\n' := fun heq => hline (heq ▸ hc)
      simp [kept, hcomma c hc, h₂, h₃, h₄]
    rw [execmdRoom, List.take_of_length_le (by omega), List.takeWhile_eq_self_iff.mpr hkept]
      at hsetting hcopied
    rw [stripped_eq_unquoted_iff] at hsetting
    refine ⟨fun c hc => ⟨hcomma c hc, hin c hc⟩, hsetting.1, hsetting.2, ?_, hcopied⟩
    rw [entryRoom]
    omega

end Entry

/-- A line that is no entry gives nothing exactly if its pieces say nothing. -/
lemma silent_iff {key : Key} {l : List Char} (value : Destination) :
    ((∀ piece ∈ pieces execmdRoom l, ¬Mentions key piece) ∧
      ∀ piece ∈ pieces entryRoom l, ¬IsEntry key (cutAt nul piece)) ↔
    (settingValues key value l).head? = none ∧ ((entryValues key l).map unquoted).head? = none := by
  rw [List.head?_eq_none_iff, List.head?_eq_none_iff, List.map_eq_nil_iff, settingValues,
    entryValues, List.filterMap_eq_nil_iff, List.filterMap_eq_nil_iff]
  refine and_congr (forall₂_congr fun piece _ => ?_) (forall₂_congr fun piece _ => ?_)
  · rw [settingValue_eq_none_iff]
  · rw [entryOf_eq, ite_eq_right_iff]
    simp

/-- A line gives its value, or nothing, to both functions exactly if it is readable. -/
lemma readable_iff {key : Key} {l : List Char} (value : Destination) (hne : l ≠ [])
    (hend : '\n' ∉ l.dropLast) :
    Readable key value l ↔ (settingValues key value l).head? = (lineValue key l).map some ∧
      ((entryValues key l).map unquoted).head? = lineValue key l := by
  rw [Readable, lineValue]
  split_ifs with hentry
  · exact clean_iff hne hend hentry value
  · exact silent_iff value

/-- The functions find the first entry of a file exactly if every line is readable, as far as none
in front of it is an entry. -/
theorem findsEntry_iff (key : Key) (value : Destination) (text : List Char) :
    FindsEntry key value text ↔
      ∀ before line behind, textLines text = before ++ line :: behind →
        (∀ l ∈ before, ¬IsEntry key l) → Readable key value line := by
  have hnone (l : List Char) : lineValue key l = none ↔ ¬IsEntry key l := by
    rw [lineValue]
    split_ifs with h <;> simp [h]
  have hsome (l : List Char) : (lineValue key l).toList.head? = lineValue key l := by
    cases lineValue key l <;> rfl
  rw [findsEntry_iff_numbered, map_some_firstEntry, firstEntry, head?_numbered_eq_iff,
    head?_numbered_eq_iff]
  simp only [List.head?_map, hsome, Option.map_eq_none_iff, hnone]
  simp only [← List.head?_map]
  constructor
  · rintro ⟨hsetting, hlookup⟩ before line behind hsplit hbefore
    have hmem : line ∈ textLines text := by
      rw [hsplit]
      exact List.mem_append_right _ List.mem_cons_self
    obtain ⟨hne, hend⟩ := of_mem_textLines hmem
    exact (readable_iff value hne hend).mpr
      ⟨hsetting before line behind hsplit hbefore, hlookup before line behind hsplit hbefore⟩
  · intro h
    have hline (before : List (List Char)) (line : List Char) (behind : List (List Char))
        (hsplit : textLines text = before ++ line :: behind)
        (hbefore : ∀ l ∈ before, ¬IsEntry key l) :
        (settingValues key value line).head? = (lineValue key line).map some ∧
          ((entryValues key line).map unquoted).head? = lineValue key line := by
      have hmem : line ∈ textLines text := by
        rw [hsplit]
        exact List.mem_append_right _ List.mem_cons_self
      obtain ⟨hne, hend⟩ := of_mem_textLines hmem
      exact (readable_iff value hne hend).mp (h before line behind hsplit hbefore)
    exact ⟨fun before line behind hsplit hbefore => (hline before line behind hsplit hbefore).1,
      fun before line behind hsplit hbefore => (hline before line behind hsplit hbefore).2⟩

/-- The key of maintenance. -/
def enableMaintenance : Key where
  chars := "ENABLE_MAINTENANCE".toList
  plain := by simp [nul]
  length_lt := by decide

/-- A comment turns maintenance on. -/
theorem comment_found :
    (dcmSettingGetValueFromFile (some "#ENABLE_MAINTENANCE=false\n".toList)
        enableMaintenance.chars .buf [] ['=']).map Prod.fst = some 0 ∧
      ¬FindsEntry enableMaintenance .buf "#ENABLE_MAINTENANCE=false\n".toList := by
  have hrun : dcmSettingGetValueFromFile (some "#ENABLE_MAINTENANCE=false\n".toList)
      enableMaintenance.chars .buf [] ['='] = some (0, "false".toList) := by decide +kernel
  have hnone : firstEntry enableMaintenance "#ENABLE_MAINTENANCE=false\n".toList = none := by
    decide +kernel
  refine ⟨by rw [hrun]; rfl, fun h => ?_⟩
  have hresult := h.result []
  rw [hrun, hnone] at hresult
  exact absurd hresult (by decide)

-- `cRdkPath` has 80 bytes
example : dcmSettingGetValueFromFile (some ("RDK_PATH=".toList ++ List.replicate 80 'a'))
    "RDK_PATH".toList (.array 79) [] ['='] = none := by decide +kernel

end DcmAgent.Daemon.Properties
