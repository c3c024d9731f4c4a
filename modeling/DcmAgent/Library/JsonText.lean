import Mathlib.Data.List.TakeWhile
import Mathlib.Tactic

/-!
# JSON texts

The grammar of JSON as an automaton with a stack. It reads a text character by character and keeps
the texts of the members of the document. A character stands for a byte.
-/

namespace DcmAgent.Library.JsonText

/-! ### The grammar -/

inductive Container where
  | object
  | array
  deriving DecidableEq, Repr

inductive Literal where
  | true
  | false
  | null
  deriving DecidableEq, Repr

def Literal.text : Literal → List Char
  | .true => ['t', 'r', 'u', 'e']
  | .false => ['f', 'a', 'l', 's', 'e']
  | .null => ['n', 'u', 'l', 'l']

/-- How far a number has been read. -/
inductive NumberPart where
  | minus
  | zero
  | digits
  | point
  | fraction
  | mark
  | sign
  | exponent
  deriving DecidableEq, Repr

/-- How far a character of a string has been read. -/
inductive StringPart where
  | plain
  | escape
  | hex (more : ℕ)
  deriving DecidableEq, Repr

/-- What a text has come to, and so what may follow. -/
inductive Mode where
  | value
  | firstItem
  | firstMember
  | name
  | colon
  | after
  | string (isName : Bool) (part : StringPart)
  | number (part : NumberPart)
  | literal (w : Literal) (read : ℕ)
  deriving DecidableEq, Repr

/-- A place in a text: the containers around it are on the stack, the innermost first. -/
structure Place where
  mode : Mode
  stack : List Container
  deriving DecidableEq, Repr

def isBlank (c : Char) : Bool := c = ' ' || c = '\t' || c = '\n' || c = '\r'

def isHexDigit (c : Char) : Bool :=
  c.isDigit || ('a' ≤ c && c ≤ 'f') || ('A' ≤ c && c ≤ 'F')

def NumberPart.next (part : NumberPart) (c : Char) : Option NumberPart :=
  match part with
  | .minus => if c = '0' then some .zero else if c.isDigit then some .digits else none
  | .zero =>
    if c = '.' then some .point else if c = 'e' ∨ c = 'E' then some .mark else none
  | .digits =>
    if c.isDigit then some .digits
    else if c = '.' then some .point
    else if c = 'e' ∨ c = 'E' then some .mark
    else none
  | .point => if c.isDigit then some .fraction else none
  | .fraction =>
    if c.isDigit then some .fraction else if c = 'e' ∨ c = 'E' then some .mark else none
  | .mark =>
    if c = '+' ∨ c = '-' then some .sign else if c.isDigit then some .exponent else none
  | .sign => if c.isDigit then some .exponent else none
  | .exponent => if c.isDigit then some .exponent else none

/-- Whether a number may end here. -/
def NumberPart.isEnd : NumberPart → Bool
  | .zero | .digits | .fraction | .exponent => true
  | .minus | .point | .mark | .sign => false

/-- Whether a value may end here. -/
def Mode.isEnd : Mode → Bool
  | .after => true
  | .number part => part.isEnd
  | _ => false

def beginValue (stack : List Container) (c : Char) : Option Place :=
  if c = '{' then some ⟨.firstMember, .object :: stack⟩
  else if c = '[' then some ⟨.firstItem, .array :: stack⟩
  else if c = '"' then some ⟨.string false .plain, stack⟩
  else if c = 't' then some ⟨.literal .true 1, stack⟩
  else if c = 'f' then some ⟨.literal .false 1, stack⟩
  else if c = 'n' then some ⟨.literal .null 1, stack⟩
  else if c = '-' then some ⟨.number .minus, stack⟩
  else if c = '0' then some ⟨.number .zero, stack⟩
  else if c.isDigit then some ⟨.number .digits, stack⟩
  else none

def endValue (stack : List Container) (c : Char) : Option Place :=
  if isBlank c then some ⟨.after, stack⟩
  else
    match stack with
    | [] => none
    | .object :: rest =>
      if c = ',' then some ⟨.name, .object :: rest⟩
      else if c = '}' then some ⟨.after, rest⟩
      else none
    | .array :: rest =>
      if c = ',' then some ⟨.value, .array :: rest⟩
      else if c = ']' then some ⟨.after, rest⟩
      else none

def closeEmpty (container : Container) (stack : List Container) : Option Place :=
  match stack with
  | [] => none
  | top :: rest => if top = container then some ⟨.after, rest⟩ else none

def StringPart.step (isName : Bool) (part : StringPart) (c : Char) : Option Mode :=
  match part with
  | .plain =>
    if c = '"' then some (if isName then .colon else .after)
    else if c = '\\' then some (.string isName .escape)
    else if c.toNat < 32 then none
    else some (.string isName .plain)
  | .escape =>
    if c = 'u' then some (.string isName (.hex 3))
    else if c ∈ ['"', '\\', '/', 'b', 'f', 'n', 'r', 't'] then some (.string isName .plain)
    else none
  | .hex more =>
    if isHexDigit c then
      some (.string isName (match more with | 0 => .plain | more + 1 => .hex more))
    else none

def Place.step (p : Place) (c : Char) : Option Place :=
  match p.mode with
  | .value => if isBlank c then some p else beginValue p.stack c
  | .firstItem =>
    if isBlank c then some p
    else if c = ']' then closeEmpty .array p.stack
    else beginValue p.stack c
  | .firstMember =>
    if isBlank c then some p
    else if c = '}' then closeEmpty .object p.stack
    else if c = '"' then some ⟨.string true .plain, p.stack⟩
    else none
  | .name =>
    if isBlank c then some p
    else if c = '"' then some ⟨.string true .plain, p.stack⟩
    else none
  | .colon =>
    if isBlank c then some p else if c = ':' then some ⟨.value, p.stack⟩ else none
  | .after => endValue p.stack c
  | .string isName part => (part.step isName c).map (⟨·, p.stack⟩)
  | .number part =>
    match part.next c with
    | some part => some ⟨.number part, p.stack⟩
    | none => if part.isEnd then endValue p.stack c else none
  | .literal w read =>
    if w.text[read]? = some c then
      some ⟨if read + 1 = w.text.length then .after else .literal w (read + 1), p.stack⟩
    else none

/-- Whether a character ends a member of the document. -/
def Place.endsMember (p : Place) (c : Char) : Bool :=
  p.stack = [.object] && p.mode.isEnd && (c = ',' || c = '}')

/-- A place with the members of the document before it and the text of the one it is in. -/
structure Scan where
  place : Place
  members : List (List Char)
  text : List Char
  deriving DecidableEq, Repr

def Scan.step (s : Scan) (c : Char) : Option Scan :=
  (s.place.step c).map fun p =>
    if s.place.endsMember c then ⟨p, s.members ++ [s.text], []⟩
    else if s.place.stack = [] then ⟨p, s.members, []⟩
    else ⟨p, s.members, s.text ++ [c]⟩

def scanFrom (s : Scan) (text : List Char) : Option Scan := text.foldlM Scan.step s

def Scan.start : Scan := ⟨⟨.value, []⟩, [], []⟩

def scan (text : List Char) : Option Scan := scanFrom .start text

def Scan.accepts (s : Scan) : Bool := s.place.stack = [] && s.place.mode.isEnd

def isText (text : List Char) : Bool := (scan text).any Scan.accepts

def opensObject (text : List Char) : Bool := (text.dropWhile isBlank).head? = some '{'

/-- The texts of the members of a document that is an object. -/
def members (text : List Char) : Option (List (List Char)) :=
  (scan text).bind fun s => if s.accepts ∧ opensObject text then some s.members else none

example : members " \x7b\"a\": [1, \x7b\x7d], \"b\":2e0\x7d".toList =
    some ["\"a\": [1, \x7b\x7d]".toList, " \"b\":2e0".toList] := by decide +kernel

/-! ### Reading on -/

lemma scanFrom_cons (s : Scan) (c : Char) (text : List Char) :
    scanFrom s (c :: text) = (s.step c).bind fun s => scanFrom s text := rfl

lemma scanFrom_append (s : Scan) (front rest : List Char) :
    scanFrom s (front ++ rest) = (scanFrom s front).bind fun s => scanFrom s rest :=
  List.foldlM_append

/-- A text that is read is read up to every place. -/
lemma scanFrom_append_eq_some {s s' : Scan} {front rest : List Char} :
    scanFrom s (front ++ rest) = some s' ↔
      ∃ t, scanFrom s front = some t ∧ scanFrom t rest = some s' := by
  rw [scanFrom_append, Option.bind_eq_some_iff]

lemma scanFrom_cons_eq_some {s s' : Scan} {c : Char} {text : List Char} :
    scanFrom s (c :: text) = some s' ↔
      ∃ t, s.step c = some t ∧ scanFrom t text = some s' := by
  rw [scanFrom_cons, Option.bind_eq_some_iff]

lemma place_of_step {s s' : Scan} {c : Char} (h : s.step c = some s') :
    s.place.step c = some s'.place := by
  obtain ⟨p, hp, rfl⟩ := Option.map_eq_some_iff.mp h
  rw [hp]
  split_ifs <;> rfl

lemma members_of_step {s s' : Scan} {c : Char} (h : s.step c = some s') :
    s'.members = s.members ++ if s.place.endsMember c then [s.text] else [] := by
  obtain ⟨p, hp, rfl⟩ := Option.map_eq_some_iff.mp h
  split_ifs <;> simp

lemma step_of_place {s : Scan} {c : Char} {p : Place} (h : s.place.step c = some p) :
    ∃ s', s.step c = some s' ∧ s'.place = p := by
  refine ⟨_, Option.map_eq_some_iff.mpr ⟨p, h, rfl⟩, ?_⟩
  split_ifs <;> rfl

/-- The members that a text has come to stay. -/
lemma members_prefix {s s' : Scan} {text : List Char} (h : scanFrom s text = some s') :
    s.members <+: s'.members := by
  induction text generalizing s with
  | nil =>
    obtain rfl := Option.some.inj h
    exact List.prefix_rfl
  | cons c text ih =>
    obtain ⟨t, ht, htext⟩ := scanFrom_cons_eq_some.mp h
    refine List.IsPrefix.trans ?_ (ih htext)
    rw [members_of_step ht]
    exact List.prefix_append _ _

lemma members_eq_some {text : List Char} {ms : List (List Char)} :
    members text = some ms ↔
      ∃ s, scan text = some s ∧ s.accepts = true ∧ opensObject text = true ∧ s.members = ms := by
  rw [members, Option.bind_eq_some_iff]
  simp [and_assoc]

/-! ### Places -/

lemma NumberPart.next_eq_none {c : Char} (hdigit : c.isDigit = false)
    (hmark : c ∉ ['.', 'e', 'E', '+', '-']) (part : NumberPart) : part.next c = none := by
  have hzero : c ≠ '0' := by
    rintro rfl
    exact absurd hdigit (by decide)
  simp only [List.mem_cons, List.not_mem_nil, or_false, not_or] at hmark
  cases part <;> simp [NumberPart.next, hdigit, hmark, hzero]

/-- What a character that belongs to no number does behind one. -/
lemma step_number {part : NumberPart} {stack : List Container} {c : Char}
    (hdigit : c.isDigit = false) (hmark : c ∉ ['.', 'e', 'E', '+', '-']) :
    Place.step ⟨.number part, stack⟩ c = if part.isEnd then endValue stack c else none := by
  simp only [Place.step, part.next_eq_none hdigit hmark]

lemma step_literal_eq (w : Literal) (read : ℕ) (stack : List Container) (c : Char) :
    Place.step ⟨.literal w read, stack⟩ c =
      if w.text[read]? = some c then
        some ⟨if read + 1 = w.text.length then .after else .literal w (read + 1), stack⟩
      else none := rfl

lemma step_literal {w : Literal} {read : ℕ} {stack : List Container} {c : Char}
    (hc : c ∉ ['t', 'r', 'u', 'e', 'f', 'a', 'l', 's', 'n']) :
    Place.step ⟨.literal w read, stack⟩ c = none := by
  rw [step_literal_eq, if_neg]
  intro hread
  apply hc
  have hmem := List.mem_of_getElem? hread
  cases w <;> simp only [Literal.text, List.mem_cons, List.not_mem_nil] at hmem ⊢ <;> tauto

lemma Literal.ne_of_read {w : Literal} {read : ℕ} (h : w.text[read]? = some 'u') :
    w.text[read + 1]? ≠ some 'r' := by
  intro hnext
  have hlt := (List.getElem?_eq_some_iff.mp h).1
  cases w <;> simp only [Literal.text, List.length_cons, List.length_nil] at hlt <;>
    interval_cases read <;> simp [Literal.text] at h hnext

/-- A place of a document where its object may be closed. -/
structure Place.Closable (p : Place) : Prop where
  stack : p.stack = [.object]
  mode : p.mode = .firstMember ∨ p.mode.isEnd = true

lemma Place.Closable.step {p : Place} (h : p.Closable) : p.step '}' = some ⟨.after, []⟩ := by
  obtain ⟨mode, stack⟩ := p
  obtain ⟨rfl, rfl | hend⟩ := h
  · decide
  · cases mode with
    | after => decide
    | number part =>
      rw [step_number (by decide) (by decide)]
      exact (if_pos hend).trans (by decide)
    | _ => cases hend

/-- Only there does the brace end the text. -/
lemma closable_of_step {p q : Place} (h : p.step '}' = some q) (hstack : q.stack = [])
    (hend : q.mode.isEnd = true) : p.Closable := by
  obtain ⟨mode, stack⟩ := p
  have hvalue (h : endValue stack '}' = some q) : stack = [.object] := by
    match stack with
    | [] => cases h
    | .array :: rest => cases h
    | .object :: rest =>
      obtain rfl : rest = [] := (congrArg Place.stack (Option.some.inj h)).trans hstack
      rfl
  cases mode with
  | value => cases h
  | firstItem => cases h
  | firstMember =>
    match stack with
    | [] => cases h
    | .array :: rest => cases h
    | .object :: rest =>
      obtain rfl : rest = [] := (congrArg Place.stack (Option.some.inj h)).trans hstack
      exact ⟨rfl, .inl rfl⟩
  | name => cases h
  | colon => cases h
  | after => exact ⟨hvalue h, .inr rfl⟩
  | string isName part =>
    cases part with
    | plain =>
      obtain rfl := Option.some.inj h
      cases hend
    | escape => cases h
    | hex more => cases h
  | number part =>
    rw [step_number (by decide) (by decide)] at h
    split_ifs at h with hpart
    exact ⟨hvalue h, .inr hpart⟩
  | literal w read => rw [step_literal (by decide)] at h; cases h

/-- Two letters that begin no number and stand in no other word of the grammar are in a string. -/
lemma string_of_step {p q r : Place} (h₁ : p.step 'u' = some q) (h₂ : q.step 'r' = some r) :
    ∃ isName, p.mode = .string isName .plain := by
  obtain ⟨mode, stack⟩ := p
  have hvalue (h : endValue stack 'u' = some q) : False := by
    match stack with
    | [] => cases h
    | .array :: rest => cases h
    | .object :: rest => cases h
  cases mode with
  | value => cases h₁
  | firstItem => cases h₁
  | firstMember => cases h₁
  | name => cases h₁
  | colon => cases h₁
  | after => exact (hvalue h₁).elim
  | string isName part =>
    cases part with
    | plain => exact ⟨isName, rfl⟩
    | escape =>
      obtain rfl := Option.some.inj h₁
      cases h₂
    | hex more => cases h₁
  | number part =>
    rw [step_number (by decide) (by decide)] at h₁
    split_ifs at h₁
    exact (hvalue h₁).elim
  | literal w read =>
    rw [step_literal_eq] at h₁
    split_ifs at h₁ with hread hlen
    · obtain rfl := Option.some.inj h₁
      cases stack with
      | nil => cases h₂
      | cons top rest => cases top <;> cases h₂
    · obtain rfl := Option.some.inj h₁
      rw [step_literal_eq, if_neg (Literal.ne_of_read hread)] at h₂
      cases h₂

/-- Behind a comma and a quote, the text is in a name or behind a string. -/
lemma isEnd_of_step {p q r : Place} {isName : Bool} (hstack : p.stack = [.object])
    (h₁ : p.step ',' = some q) (h₂ : q.step '"' = some r)
    (hr : r.mode = .string isName .plain) : p.mode.isEnd = true := by
  obtain ⟨mode, stack⟩ := p
  obtain rfl : stack = [.object] := hstack
  cases mode with
  | value => cases h₁
  | firstItem => cases h₁
  | firstMember => cases h₁
  | name => cases h₁
  | colon => cases h₁
  | after => rfl
  | string n part =>
    cases part with
    | plain =>
      obtain rfl := Option.some.inj h₁
      obtain rfl := Option.some.inj h₂
      cases n <;> cases hr
    | escape => cases h₁
    | hex more => cases h₁
  | number part =>
    rw [step_number (by decide) (by decide)] at h₁
    split_ifs at h₁ with hpart
    exact hpart
  | literal w read => rw [step_literal (by decide)] at h₁; cases h₁

/-- What may stand behind a member of an object. -/
lemma mode_of_endValue {q : Place} {c : Char} (h : endValue [.object] c = some q) :
    q.mode = .after ∨ c = ',' ∧ q.mode = .name := by
  rw [endValue] at h
  split_ifs at h with hblank hcomma hbrace <;> obtain rfl := Option.some.inj h
  · exact .inl rfl
  · exact .inr ⟨hcomma, rfl⟩
  · exact .inl rfl

lemma not_string_of_endValue {stack : List Container} {q : Place} {c : Char}
    (h : endValue stack c = some q) (isName : Bool) (part : StringPart) :
    q.mode ≠ .string isName part := by
  unfold endValue at h
  split at h
  · obtain rfl := Option.some.inj h
    exact Mode.noConfusion
  · split at h
    · cases h
    all_goals
      split_ifs at h <;> obtain rfl := Option.some.inj h <;> exact Mode.noConfusion

lemma Place.Closable.opens {p q r : Place} {c d : Char} {isName : Bool} (h : p.Closable)
    (h₁ : p.step c = some q) (h₂ : q.step d = some r) (hr : r.mode = .string isName .plain) :
    p.mode = .firstMember ∨ c = ',' ∧ d = '"' := by
  -- no string begins behind a value
  have hno (hq : q.mode = .after ∨ ∃ part, q.mode = .number part) : False := by
    obtain ⟨mode, stack⟩ := q
    rcases hq with rfl | ⟨part, rfl⟩
    · exact not_string_of_endValue h₂ _ _ hr
    · simp only [Place.step] at h₂
      split at h₂
      · obtain rfl := Option.some.inj h₂
        cases hr
      · split_ifs at h₂
        exact not_string_of_endValue h₂ _ _ hr
  have hname (hend : endValue [.object] c = some q) : c = ',' ∧ d = '"' := by
    rcases mode_of_endValue hend with hq | ⟨hc, hq⟩
    · exact (hno (.inl hq)).elim
    · refine ⟨hc, ?_⟩
      obtain ⟨mode, stack⟩ := q
      obtain rfl : mode = .name := hq
      simp only [Place.step] at h₂
      split_ifs at h₂ with hblank hquote
      · obtain rfl := Option.some.inj h₂
        cases hr
      · exact hquote
  obtain ⟨mode, stack⟩ := p
  obtain ⟨rfl, rfl | hend⟩ := h
  · exact .inl rfl
  · right
    cases mode with
    | after => exact hname h₁
    | number part =>
      simp only [Place.step] at h₁
      split at h₁
      · obtain rfl := Option.some.inj h₁
        exact (hno (.inr ⟨_, rfl⟩)).elim
      · split_ifs at h₁
        exact hname h₁
    | _ => cases hend

/-- A character that ends a member begins no string. -/
lemma endsMember_of_string {p q : Place} {c : Char} {isName : Bool} {part : StringPart}
    (h : p.step c = some q) (hq : q.mode = .string isName part) : p.endsMember c = false := by
  by_contra hends
  rw [Bool.not_eq_false, Place.endsMember, Bool.and_eq_true, Bool.and_eq_true] at hends
  obtain ⟨⟨-, hend⟩, hc⟩ := hends
  have hc : c = ',' ∨ c = '}' := by simpa using hc
  obtain ⟨mode, stack⟩ := p
  cases mode with
  | after => exact not_string_of_endValue h _ _ hq
  | number n =>
    rw [step_number (by rcases hc with rfl | rfl <;> decide)
      (by rcases hc with rfl | rfl <;> decide)] at h
    split_ifs at h
    exact not_string_of_endValue h _ _ hq
  | _ => cases hend

/-- Closing the object where it may be closed gives the members up to the string that follows. -/
lemma Place.Closable.members {s t u z : Scan} {c d : Char} {isName : Bool}
    (h : s.place.Closable) (h₁ : s.step c = some t) (h₂ : t.step d = some u)
    (hu : u.place.mode = .string isName .plain) (hz : s.step '}' = some z) :
    z.members = u.members := by
  have hd := endsMember_of_string (place_of_step h₂) hu
  rw [members_of_step h₂, members_of_step h₁, members_of_step hz, hd]
  rcases h.opens (place_of_step h₁) (place_of_step h₂) hu with hfirst | ⟨rfl, -⟩
  · simp [Place.endsMember, hfirst, Mode.isEnd]
  · simp [Place.endsMember]

/-! ### The opening of a document -/

/-- Where a text of one object may come to behind the first name or behind the object. -/
structure Place.Inside (p : Place) : Prop where
  after : p.stack = [] → p.mode = .after
  deep : p.mode = .firstMember → 2 ≤ p.stack.length

lemma inside_beginValue {stack : List Container} {c : Char} {q : Place} (hne : stack ≠ [])
    (h : beginValue stack c = some q) : q.Inside := by
  have hlen := List.length_pos_iff.mpr hne
  unfold beginValue at h
  split_ifs at h <;> obtain rfl := Option.some.inj h
  case pos => exact ⟨fun hnil => absurd hnil (List.cons_ne_nil _ _), fun _ => Nat.succ_le_succ hlen⟩
  case pos => exact ⟨fun hnil => absurd hnil (List.cons_ne_nil _ _), Mode.noConfusion⟩
  all_goals exact ⟨fun hnil => absurd hnil hne, Mode.noConfusion⟩

lemma inside_endValue {stack : List Container} {c : Char} {q : Place}
    (h : endValue stack c = some q) : q.Inside := by
  unfold endValue at h
  split at h
  · obtain rfl := Option.some.inj h
    exact ⟨fun _ => rfl, Mode.noConfusion⟩
  · split at h
    · cases h
    all_goals
      split_ifs at h <;> obtain rfl := Option.some.inj h
      · exact ⟨fun hnil => absurd hnil (List.cons_ne_nil _ _), Mode.noConfusion⟩
      · exact ⟨fun _ => rfl, Mode.noConfusion⟩

lemma Place.Inside.step {p q : Place} {c : Char} (h : p.Inside) (hstep : p.step c = some q) :
    q.Inside := by
  obtain ⟨mode, stack⟩ := p
  have hne (hmode : mode ≠ .after) : stack ≠ [] := fun hnil => hmode (h.after hnil)
  have hkeep (hmode : mode ≠ .after) (m : Mode) (hm : m ≠ .firstMember) :
      Place.Inside ⟨m, stack⟩ := ⟨fun hnil => absurd hnil (hne hmode), fun heq => absurd heq hm⟩
  have hclose {container : Container} (hstep : closeEmpty container stack = some q) :
      q.Inside := by
    unfold closeEmpty at hstep
    split at hstep
    · cases hstep
    · split_ifs at hstep
      obtain rfl := Option.some.inj hstep
      exact ⟨fun _ => rfl, Mode.noConfusion⟩
  cases mode with
  | value =>
    simp only [Place.step] at hstep
    split_ifs at hstep
    · exact Option.some.inj hstep ▸ h
    · exact inside_beginValue (hne Mode.noConfusion) hstep
  | firstItem =>
    simp only [Place.step] at hstep
    split_ifs at hstep
    · exact Option.some.inj hstep ▸ h
    · exact hclose hstep
    · exact inside_beginValue (hne Mode.noConfusion) hstep
  | firstMember =>
    simp only [Place.step] at hstep
    split_ifs at hstep
    · exact Option.some.inj hstep ▸ h
    · exact hclose hstep
    · exact Option.some.inj hstep ▸ hkeep Mode.noConfusion _ Mode.noConfusion
  | name =>
    simp only [Place.step] at hstep
    split_ifs at hstep
    · exact Option.some.inj hstep ▸ h
    · exact Option.some.inj hstep ▸ hkeep Mode.noConfusion _ Mode.noConfusion
  | colon =>
    simp only [Place.step] at hstep
    split_ifs at hstep
    · exact Option.some.inj hstep ▸ h
    · exact Option.some.inj hstep ▸ hkeep Mode.noConfusion _ Mode.noConfusion
  | after => exact inside_endValue hstep
  | string isName part =>
    obtain ⟨m, hm, rfl⟩ := Option.map_eq_some_iff.mp hstep
    refine hkeep Mode.noConfusion _ ?_
    rintro rfl
    cases part <;> simp only [StringPart.step] at hm <;> split_ifs at hm <;>
      simp at hm
  | number part =>
    simp only [Place.step] at hstep
    split at hstep
    · exact Option.some.inj hstep ▸ hkeep Mode.noConfusion _ Mode.noConfusion
    · split_ifs at hstep
      exact inside_endValue hstep
  | literal w read =>
    rw [step_literal_eq] at hstep
    split_ifs at hstep
    · exact Option.some.inj hstep ▸ hkeep Mode.noConfusion _ Mode.noConfusion
    · exact Option.some.inj hstep ▸ hkeep Mode.noConfusion _ Mode.noConfusion

lemma Place.Inside.scanFrom {s s' : Scan} {text : List Char} (h : s.place.Inside)
    (hscan : scanFrom s text = some s') : s'.place.Inside := by
  induction text generalizing s with
  | nil => exact Option.some.inj hscan ▸ h
  | cons c text ih =>
    obtain ⟨t, ht, htext⟩ := scanFrom_cons_eq_some.mp hscan
    exact ih (h.step (place_of_step ht)) htext

/-- Blanks change nothing where a document or an object begins. -/
lemma scanFrom_blanks {s : Scan} {blanks : List Char} (hblanks : ∀ c ∈ blanks, isBlank c = true)
    (hmode : s.place.mode = .value ∨ s.place.mode = .firstMember) :
    ∃ s', scanFrom s blanks = some s' ∧ s'.place = s.place ∧ s'.members = s.members := by
  induction blanks generalizing s with
  | nil => exact ⟨s, rfl, rfl, rfl⟩
  | cons c blanks ih =>
    have hstep : s.place.step c = some s.place := by
      rcases hmode with hmode | hmode <;> rw [Place.step, hmode] <;>
        exact if_pos (hblanks c List.mem_cons_self)
    obtain ⟨t, ht, hplace⟩ := step_of_place hstep
    obtain ⟨s', hs', hplace', hmembers⟩ :=
      ih (s := t) (fun d hd => hblanks d (List.mem_cons_of_mem _ hd)) (hplace ▸ hmode)
    refine ⟨s', scanFrom_cons_eq_some.mpr ⟨t, ht, hs'⟩, hplace'.trans hplace, ?_⟩
    rw [hmembers, members_of_step ht, if_neg, List.append_nil]
    rcases hmode with hmode | hmode <;> simp [Place.endsMember, hmode, Mode.isEnd]

/-- The brace that opens the object of a document, with blanks around it. -/
def Opening (text : List Char) : Prop :=
  ∃ before behind : List Char, (∀ c ∈ before, isBlank c = true) ∧
    (∀ c ∈ behind, isBlank c = true) ∧ text = before ++ '{' :: behind

lemma scan_brace {blanks : List Char} (hblanks : ∀ c ∈ blanks, isBlank c = true) :
    ∃ s, scan (blanks ++ ['{']) = some s ∧ s.place = ⟨.firstMember, [.object]⟩ ∧
      s.members = [] := by
  obtain ⟨s, hs, hplace, hmembers⟩ := scanFrom_blanks (s := .start) hblanks (.inl rfl)
  have hstep : s.place.step '{' = some ⟨.firstMember, [.object]⟩ := by rw [hplace]; rfl
  obtain ⟨t, ht, htplace⟩ := step_of_place hstep
  refine ⟨t, scanFrom_append_eq_some.mpr ⟨s, hs, ?_⟩, htplace, ?_⟩
  · exact scanFrom_cons_eq_some.mpr ⟨t, ht, rfl⟩
  · rw [members_of_step ht, hplace, hmembers]
    rfl

lemma Opening.scan {text : List Char} (h : Opening text) :
    ∃ s, scan text = some s ∧ s.place = ⟨.firstMember, [.object]⟩ ∧ s.members = [] := by
  obtain ⟨before, behind, hbefore, hbehind, rfl⟩ := h
  obtain ⟨s, hs, hplace, hmembers⟩ := scan_brace hbefore
  obtain ⟨t, ht, htplace, htmembers⟩ :=
    scanFrom_blanks (s := s) hbehind (.inr (congrArg Place.mode hplace))
  refine ⟨t, ?_, htplace.trans hplace, htmembers.trans hmembers⟩
  rw [List.append_cons]
  exact scanFrom_append_eq_some.mpr ⟨s, hs, ht⟩

lemma eq_blanks_append (text : List Char) :
    ∃ blanks rest : List Char, text = blanks ++ rest ∧ (∀ c ∈ blanks, isBlank c = true) ∧
      (∀ c ∈ rest.head?, isBlank c = false) ∧ text.dropWhile isBlank = rest := by
  refine ⟨text.takeWhile isBlank, _, List.takeWhile_append_dropWhile.symm,
    fun c hc => List.mem_takeWhile_imp hc, ?_, rfl⟩
  intro c hc
  have hhead := List.head?_dropWhile_not isBlank text
  rw [Option.mem_def.mp hc] at hhead
  simpa using hhead

/-- A document that has come to a container has its brace behind it. -/
lemma exists_brace {text rest : List Char} {s : Scan} (hopens : opensObject (text ++ rest))
    (hscan : scan text = some s) (hstack : s.place.stack ≠ []) :
    ∃ before tail, text = before ++ '{' :: tail ∧ ∀ c ∈ before, isBlank c = true := by
  obtain ⟨before, tail, rfl, hbefore, hhead, hdrop⟩ := eq_blanks_append text
  cases tail with
  | nil =>
    obtain ⟨t, ht, htplace, -⟩ := scanFrom_blanks (s := .start) hbefore (.inl rfl)
    rw [List.append_nil, scan, ht] at hscan
    rw [← Option.some.inj hscan, htplace] at hstack
    exact absurd rfl hstack
  | cons c tail =>
    refine ⟨before, tail, ?_, hbefore⟩
    have hopen : (((before ++ c :: tail) ++ rest).dropWhile isBlank).head? = some '{' := by
      simpa [opensObject] using hopens
    rw [List.append_assoc, List.dropWhile_append_of_pos hbefore, List.cons_append,
      List.dropWhile_cons_of_neg (by simpa using hhead c rfl)] at hopen
    rw [Option.some.inj hopen]

lemma opensObject_brace {before tail : List Char} (h : ∀ c ∈ before, isBlank c = true) :
    opensObject (before ++ '{' :: tail) = true := by
  rw [opensObject, List.dropWhile_append_of_pos h]
  rfl

/-- Nothing else of a document comes to the place behind its brace. -/
lemma opening_of_scan {text rest : List Char} {s : Scan} (hopens : opensObject (text ++ rest))
    (hscan : scan text = some s) (hplace : s.place = ⟨.firstMember, [.object]⟩) :
    Opening text := by
  obtain ⟨before, tail, rfl, hbefore⟩ :=
    exists_brace hopens hscan (by rw [hplace]; exact List.cons_ne_nil _ _)
  obtain ⟨t, ht, htplace, -⟩ := scan_brace hbefore
  rw [List.append_cons] at hscan
  obtain ⟨t', ht', hscan⟩ := scanFrom_append_eq_some.mp hscan
  obtain rfl : t = t' := Option.some.inj (ht.symm.trans ht')
  obtain ⟨behind, tail, rfl, hbehind, hhead', -⟩ := eq_blanks_append tail
  obtain ⟨u, hu, huplace, -⟩ := scanFrom_blanks (s := t) hbehind
    (.inr (congrArg Place.mode htplace))
  cases tail with
  | nil => exact ⟨before, behind, hbefore, hbehind, by rw [List.append_nil]⟩
  | cons d tail =>
    obtain ⟨u', hu', hscan⟩ := scanFrom_append_eq_some.mp hscan
    obtain rfl : u = u' := Option.some.inj (hu.symm.trans hu')
    obtain ⟨v, hv, hscan⟩ := scanFrom_cons_eq_some.mp hscan
    have hstep := place_of_step hv
    rw [huplace, htplace, Place.step] at hstep
    have hinside : v.place.Inside := by
      simp only [hhead' d rfl, Bool.false_eq_true, if_false] at hstep
      split_ifs at hstep
      · rw [← Option.some.inj hstep]
        exact ⟨fun _ => rfl, Mode.noConfusion⟩
      · rw [← Option.some.inj hstep]
        exact ⟨fun hnil => absurd hnil (List.cons_ne_nil _ _), Mode.noConfusion⟩
    have hdeep := (hinside.scanFrom hscan).deep (congrArg Place.mode hplace)
    rw [hplace] at hdeep
    exact absurd hdeep (by decide)

/-! ### Characters -/

/-- No text has a character that ends a string of C. -/
lemma step_nul (p : Place) : p.step (Char.ofNat 0) = none := by
  obtain ⟨mode, stack⟩ := p
  have hvalue : endValue stack (Char.ofNat 0) = none := by
    match stack with
    | [] => rfl
    | .array :: rest => rfl
    | .object :: rest => rfl
  cases mode with
  | after => exact hvalue
  | string isName part => cases part <;> rfl
  | number part =>
    rw [step_number (by decide) (by decide), hvalue, ite_self]
  | literal w read => exact step_literal (by decide)
  | _ => rfl

lemma notMem_of_scanFrom {s s' : Scan} {text : List Char} (h : scanFrom s text = some s') :
    Char.ofNat 0 ∉ text := by
  intro hmem
  obtain ⟨front, rest, rfl⟩ := List.append_of_mem hmem
  obtain ⟨t, -, ht⟩ := scanFrom_append_eq_some.mp h
  obtain ⟨u, hu, -⟩ := scanFrom_cons_eq_some.mp ht
  have hstep := place_of_step hu
  rw [step_nul] at hstep
  cases hstep

end DcmAgent.Library.JsonText
