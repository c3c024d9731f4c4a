import Mathlib.Tactic
import DcmAgent.Conf.Store

/-!
# The upload flag

`read_dcm_upload_flag` takes the first piece of the stored file that mentions the name of the flag,
wherever that is, and looks for `true` behind the first `=`. Names and strings are stored as they
are, so the first mention can be in the line of another member.
-/

namespace DcmAgent.Conf

open Library

variable {ν : Type} {valueint : ν → ℤ}

/-! ### The reader -/

def flagName : List Char := "urn:settings:LogUploadSettings:upload".toList

/-- The size of the array for a line, without the end of the string. -/
def lineSize : ℕ := 512 - 1

def isSpace (c : Char) : Bool := c = ' ' ∨ '\t' ≤ c ∧ c ≤ '\r'

def mentions (line : List Char) : Bool := flagName <:+: line

/-- Behind blanks and quotes there is `true`, in letters of either case. -/
def affirms (value : List Char) : Bool :=
  ((value.dropWhile fun c => isSpace c ∨ c = '"').take 4).map Char.toLower = "true".toList

/-- The value is what follows the first `=`. -/
def readsTrue (line : List Char) : Bool :=
  match line.dropWhile (· ≠ '=') with
  | [] => false
  | _ :: value => affirms value

/-- The result for a file, or without one. -/
def readDcmUploadFlag : Option (List Char) → Bool
  | none => true
  | some file =>
    match (pieces lineSize file).find? mentions with
    | none => false
    | some line => readsTrue line

/-! ### What is to hold -/

/-- The first member of the document with the name of the flag. -/
def flag (doc : Json ν) : Option (Json ν) :=
  ((children doc).find? fun m => m.1 = some flagName).map Prod.snd

def isTrue : Option (Json ν) → Bool
  | some (.bool true) => true
  | _ => false

/-- The reader finds what is in the document. -/
def Agrees (f : Files) (doc : Json ν) : Prop :=
  readDcmUploadFlag (some f.out.bytes) = isTrue (flag doc)

/-! ### The condition -/

/-- The members in front of the flag, or all of them. -/
def before (doc : Json ν) : List (Option (List Char) × Json ν) :=
  (children doc).takeWhile fun m => m.1 ≠ some flagName

variable (valueint)

/-- The first piece that mentions the name of the flag in the lines of some members. -/
def firstMention (items : List (Option (List Char) × Json ν)) : Option (List Char) :=
  (items.flatMap fun item => pieces lineSize (itemText valueint item)).find? mentions

/-- The line of the flag does not read as `true` unless it is. Of a string and of an object only
what fits in the array counts. An array has no line, so the search goes on. -/
def OwnLine (after : List (Option (List Char) × Json ν)) : Json ν → Prop
  | .null | .bool _ | .number _ => True
  | .string s => affirms ((firstLine s).take (lineSize - (flagName.length + 1))) = false
  | .object members =>
    readsTrue ((firstLine (objectText valueint flagName members)).take lineSize) = false
  | .array _ => ∀ line ∈ firstMention valueint after, readsTrue line = false

/-- Nothing mentions the flag before its own line, or what does happens to say the same. -/
inductive Undisturbed (doc : Json ν) : Prop
  | quiet (before : firstMention valueint (before doc) = none)
      (own : ∀ v after, children doc = Conf.before doc ++ (some flagName, v) :: after →
        OwnLine valueint after v)
  | echo {line : List Char} (before : firstMention valueint (before doc) = some line)
      (same : readsTrue line = isTrue (flag doc))

variable {valueint}

/-! ### The first mention -/

lemma closed_itemText (item : Option (List Char) × Json ν) : Closed (itemText valueint item) := by
  obtain ⟨name, v⟩ := item
  cases v with
  | null => exact Or.inr ⟨text name ++ "=null".toList, by simp [itemText]⟩
  | bool b => exact Or.inr ⟨_, rfl⟩
  | number x => exact Or.inr ⟨_, rfl⟩
  | string s => exact Or.inr ⟨_, rfl⟩
  | array items => exact Or.inl rfl
  | object members =>
    refine Or.inr ⟨(quoted (text name) ++ ":\x7b".toList ++
      members.flatMap (memberText valueint)).dropLast ++ ['}'], ?_⟩
    simp [itemText, objectText]

lemma firstMention_append (items items' : List (Option (List Char) × Json ν)) :
    firstMention valueint (items ++ items') =
      (firstMention valueint items).or (firstMention valueint items') := by
  rw [firstMention, List.flatMap_append, List.find?_append]
  rfl

lemma newline_not_mem_flagName : '\n' ∉ flagName := by decide +kernel

lemma length_flagName : flagName.length = 37 := by decide +kernel

lemma equals_not_mem_flagName : '=' ∉ flagName := by decide +kernel

/-! ### The line of the flag -/

variable (valueint) in
/-- What the reader finds in the lines of some members. -/
def found (items : List (Option (List Char) × Json ν)) : Bool :=
  (firstMention valueint items).elim false readsTrue

lemma found_eq_false {items : List (Option (List Char) × Json ν)} :
    found valueint items = false ↔
      ∀ line ∈ firstMention valueint items, readsTrue line = false := by
  unfold found
  cases firstMention valueint items <;> simp

lemma readDcmUploadFlag_flatMap (items : List (Option (List Char) × Json ν)) :
    readDcmUploadFlag (some (items.flatMap (itemText valueint))) = found valueint items := by
  rw [readDcmUploadFlag, pieces_flatMap closed_itemText, found, firstMention]
  cases (items.flatMap fun item => pieces lineSize (itemText valueint item)).find? mentions <;> rfl

/-- What fits in the array of a line that begins with `a` is read, if `a` mentions the flag. -/
lemma found_cons {item : Option (List Char) × Json ν} {a t : List Char}
    (htext : itemText valueint item = a ++ t ++ ['\n']) (ha : '\n' ∉ a)
    (hlen : a.length ≤ lineSize) (hname : flagName <:+: a)
    (after : List (Option (List Char) × Json ν)) :
    found valueint (item :: after) = readsTrue (a ++ (firstLine t).take (lineSize - a.length)) := by
  obtain ⟨rest, hpieces⟩ := exists_piecesFrom_eq_cons lineSize (lineSize - 1) [] (a ++ t)
  rw [firstLine_append ha, List.nil_append, show lineSize - 1 + 1 = lineSize from rfl,
    List.take_append, List.take_of_length_le hlen] at hpieces
  have hmentions : mentions (a ++ (firstLine t).take (lineSize - a.length)) = true :=
    decide_eq_true (hname.trans (List.prefix_append _ _).isInfix)
  rw [found, firstMention, List.flatMap_cons, htext, pieces, hpieces, List.cons_append,
    List.find?_cons_of_pos hmentions]
  rfl

/-- The value is what follows the name and `=`. -/
lemma readsTrue_flagName (value : List Char) :
    readsTrue (flagName ++ '=' :: value) = affirms value := by
  have hdrop : (flagName ++ '=' :: value).dropWhile (· ≠ '=') = '=' :: value := by
    rw [List.dropWhile_append_of_pos, List.dropWhile_cons_of_neg (by decide)]
    intro c hc
    exact decide_eq_true fun heq => equals_not_mem_flagName (heq ▸ hc)
  rw [readsTrue, hdrop]

lemma of_isDigit {c : Char} (h : c.isDigit = true) :
    ¬(isSpace c ∨ c = '"') ∧ c.toLower ≠ 't' := by
  have hbounds : 48 ≤ c.toNat ∧ c.toNat ≤ 57 := by
    simpa [Char.isDigit, UInt32.le_iff_toNat_le] using h
  rw [← Char.ofNat_toNat c]
  generalize c.toNat = n at hbounds
  obtain ⟨hle, hge⟩ := hbounds
  interval_cases n <;> decide

/-- The first character of a number is not skipped, and is not the one of `true`. -/
lemma of_number {c : Char} (h : c = '-' ∨ c.isDigit = true) :
    ¬(isSpace c ∨ c = '"') ∧ c.toLower ≠ 't' := by
  rcases h with rfl | h
  · decide
  · exact of_isDigit h

lemma affirms_number {c : Char} (h : c = '-' ∨ c.isDigit = true) (s : List Char) :
    affirms (c :: s) = false := by
  obtain ⟨hskip, hlower⟩ := of_number h
  rw [affirms, List.dropWhile_cons_of_neg (by simpa using hskip)]
  refine decide_eq_false fun heq => hlower ?_
  rw [List.take_succ_cons, List.map_cons] at heq
  exact (List.cons.inj heq).1

lemma newline_not_mem_number {c : Char} (h : c = '-' ∨ c.isDigit = true) : '\n' ∉ [c] := by
  intro hmem
  rw [← List.mem_singleton.mp hmem] at h
  exact (of_number h).1 (Or.inl rfl)

/-- A value that is stored behind `=`. -/
lemma found_scalar {v : Json ν} {a t : List Char}
    (htext : itemText valueint (some flagName, v) = flagName ++ '=' :: (a ++ t) ++ ['\n'])
    (ha : '\n' ∉ a) (hlen : a.length ≤ lineSize - (flagName.length + 1))
    (after : List (Option (List Char) × Json ν)) :
    found valueint ((some flagName, v) :: after) =
      affirms (a ++ (firstLine t).take (lineSize - (flagName.length + 1) - a.length)) := by
  have hline : (flagName ++ '=' :: a).length = flagName.length + 1 + a.length := by
    rw [List.length_append, List.length_cons]
    omega
  have hroom : flagName.length + 1 ≤ lineSize := by rw [length_flagName, lineSize]; decide
  rw [found_cons (a := flagName ++ '=' :: a) (t := t) (by simpa using htext)
    (by simp [newline_not_mem_flagName, ha]) (by omega) (List.prefix_append _ _).isInfix after,
    List.append_assoc, List.cons_append, readsTrue_flagName, hline, Nat.sub_add_eq]

lemma exists_objectText_eq (members : List (List Char × Json ν)) :
    ∃ t, objectText valueint flagName members = '"' :: flagName ++ t ++ ['\n'] := by
  refine ⟨'"' :: (":\x7b".toList ++ members.flatMap (memberText valueint)).dropLast ++ ['}'], ?_⟩
  have hassoc : quoted flagName ++ ":\x7b".toList ++ members.flatMap (memberText valueint) =
      ('"' :: flagName ++ ['"']) ++ (":\x7b".toList ++ members.flatMap (memberText valueint)) := by
    simp [quoted]
  rw [objectText, hassoc, List.dropLast_append_of_ne_nil (by simp)]
  simp

/-- The reader finds a flag whose line comes first as `OwnLine` says. -/
lemma found_flag (v : Json ν) (after : List (Option (List Char) × Json ν)) :
    found valueint ((some flagName, v) :: after) = isTrue (some v) ↔ OwnLine valueint after v := by
  cases v with
  | null =>
    refine iff_of_true ?_ trivial
    rw [found_scalar (a := "null".toList) (t := []) rfl (by decide) (by decide +kernel)]
    change _ = false
    decide +kernel
  | bool b =>
    refine iff_of_true ?_ trivial
    rw [found_scalar (a := boolText b) (t := []) (by simp [itemText, text])
      (by cases b <;> decide) (by cases b <;> decide +kernel)]
    cases b with
    | false => change _ = false; decide +kernel
    | true => change _ = true; decide +kernel
  | number x =>
    refine iff_of_true ?_ trivial
    obtain ⟨c, t, hdecimal, hc⟩ := exists_decimal_eq_cons (valueint x)
    rw [found_scalar (a := [c]) (t := t) (by simp [itemText, text, hdecimal])
      (newline_not_mem_number hc) (by rw [length_flagName, lineSize]; simp)]
    exact affirms_number hc _
  | string s =>
    rw [found_scalar (a := []) (t := s) (by simp [itemText, text]) (by simp) (by simp)]
    rfl
  | array items => exact found_eq_false
  | object members =>
    obtain ⟨t, ht⟩ := @exists_objectText_eq _ valueint members
    have hquoted : '\n' ∉ '"' :: flagName ∧ ('"' :: flagName).length ≤ lineSize := by
      decide +kernel
    have hline : (firstLine (objectText valueint flagName members)).take lineSize =
        '"' :: flagName ++ (firstLine t).take (lineSize - ('"' :: flagName).length) := by
      rw [ht, List.append_assoc, firstLine_append hquoted.1, List.take_append,
        List.take_of_length_le hquoted.2, firstLine_append_newline]
    have htext : itemText valueint (some flagName, .object members) =
        '"' :: flagName ++ t ++ ['\n'] := ht
    rw [OwnLine, found_cons htext hquoted.1 hquoted.2 (List.suffix_cons _ _).isInfix after, hline]
    rfl

/-! ### The agreement -/

/-- The first member with the name of the flag follows the members in front of it. -/
lemma flag_cases (doc : Json ν) :
    (flag doc = none ∧ children doc = before doc) ∨
      ∃ v after, flag doc = some v ∧ children doc = before doc ++ (some flagName, v) :: after := by
  unfold flag before
  generalize children doc = items
  induction items with
  | nil => exact Or.inl ⟨rfl, rfl⟩
  | cons m items ih =>
    by_cases hname : m.1 = some flagName
    · refine Or.inr ⟨m.2, items, ?_, ?_⟩
      · rw [List.find?_cons_of_pos (by simpa using hname)]
        rfl
      · rw [List.takeWhile_cons_of_neg (by simpa using hname), ← hname]
        rfl
    · rw [List.find?_cons_of_neg (by simpa using hname),
        List.takeWhile_cons_of_pos (by simpa using hname)]
      rcases ih with ⟨hflag, hitems⟩ | ⟨v, after, hflag, hitems⟩
      · exact Or.inl ⟨hflag, congrArg (m :: ·) hitems⟩
      · exact Or.inr ⟨v, after, hflag, congrArg (m :: ·) hitems⟩

lemma agrees_iff_found {env : Env} {doc : Json ν} {f : Files}
    (h : dcmSettingStoreTempConf valueint env (some doc) = some f) :
    Agrees f doc ↔ found valueint (children doc) = isTrue (flag doc) := by
  rw [Agrees, dcmSettingStoreTempConf_eq_some h]
  exact Eq.congr (readDcmUploadFlag_flatMap (children doc)) rfl

/-- A mention in front of the flag decides. -/
lemma found_of_mention {items : List (Option (List Char) × Json ν)} {line : List Char}
    (h : firstMention valueint items = some line) (items' : List (Option (List Char) × Json ν)) :
    found valueint (items ++ items') = readsTrue line := by
  rw [found, firstMention_append, h]
  rfl

lemma found_of_quiet {items : List (Option (List Char) × Json ν)}
    (h : firstMention valueint items = none) (items' : List (Option (List Char) × Json ν)) :
    found valueint (items ++ items') = found valueint items' := by
  rw [found, firstMention_append, h]
  rfl

lemma exists_eq_before_append (doc : Json ν) : ∃ items, children doc = before doc ++ items :=
  ⟨_, (List.takeWhile_append_dropWhile).symm⟩

/-- The flag of the file agrees with the document exactly if nothing disturbs its line: what is
written before it does not mention the flag, or what does mention it says the same. -/
theorem agrees_iff {env : Env} {doc : Json ν} {f : Files}
    (h : dcmSettingStoreTempConf valueint env (some doc) = some f) :
    Agrees f doc ↔ Undisturbed valueint doc := by
  rw [agrees_iff_found h]
  cases hbefore : firstMention valueint (before doc) with
  | some line =>
    obtain ⟨items, hitems⟩ := exists_eq_before_append doc
    rw [hitems, found_of_mention hbefore]
    constructor
    · exact Undisturbed.echo hbefore
    · intro hundisturbed
      cases hundisturbed with
      | quiet hquiet _ => rw [hbefore] at hquiet; cases hquiet
      | echo hecho hsame =>
        rw [hbefore] at hecho
        cases hecho
        exact hsame
  | none =>
    have hown : ∀ v after, children doc = before doc ++ (some flagName, v) :: after →
        (found valueint (children doc) = isTrue (some v) ↔ OwnLine valueint after v) := by
      intro v after hdoc
      rw [hdoc, found_of_quiet hbefore]
      exact found_flag v after
    rcases flag_cases doc with ⟨hflag, hdoc⟩ | ⟨v, after, hflag, hdoc⟩
    · have hfound : found valueint (children doc) = false := by
        rw [hdoc, found, hbefore]
        rfl
      rw [hflag, hfound]
      refine iff_of_true rfl (.quiet hbefore fun v after heq => ?_)
      rw [hdoc] at heq
      exact absurd (List.self_eq_append_right.mp heq) (List.cons_ne_nil _ _)
    · rw [hflag, hown v after hdoc]
      constructor
      · intro hline
        refine .quiet hbefore fun v' after' heq => ?_
        rw [hdoc, List.append_cancel_left_eq] at heq
        cases heq
        exact hline
      · intro hundisturbed
        cases hundisturbed with
        | quiet _ hline => exact hline v after hdoc
        | echo hecho _ => rw [hbefore] at hecho; cases hecho

/-- Nothing fails. -/
def calm : Env := ⟨true, true, true, true, true, true⟩

/-- The flag behind another scalar. -/
def plainDoc : Json ℤ := .object [("period".toList, .number 15), (flagName, .bool true)]

theorem agrees_plainDoc : ∃ f, dcmSettingStoreTempConf id calm (some plainDoc) = some f ∧
    Agrees f plainDoc := by
  have hstore : dcmSettingStoreTempConf id calm (some plainDoc) =
      some (filesOf ((children plainDoc).flatMap (itemText id)) []) := by decide +kernel
  refine ⟨_, hstore, (agrees_iff hstore).mpr (.quiet (by decide +kernel) ?_)⟩
  intro v after heq
  have hbefore : before plainDoc = [(some "period".toList, .number 15)] := rfl
  rw [hbefore] at heq
  cases heq
  trivial

/-- A longer name in front of the flag. -/
def longerDoc : Json ℤ :=
  .object [(flagName ++ "Retry".toList, .bool true), (flagName, .bool false)]

theorem longer_name_read : ∃ f, dcmSettingStoreTempConf id calm (some longerDoc) = some f ∧
    ¬Agrees f longerDoc := by
  refine ⟨filesOf ((children longerDoc).flatMap (itemText id)) [], by decide +kernel, ?_⟩
  unfold Agrees
  decide +kernel

end DcmAgent.Conf
