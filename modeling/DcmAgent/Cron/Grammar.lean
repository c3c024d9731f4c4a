import Mathlib.Tactic
import DcmAgent.Cron.Numeric
import DcmAgent.Library.Cuts

/-!
# The grammar of cron patterns

The texts that are cron patterns, and what their characters look like. `dcmCronParseExp` accepts
more texts than these: it deletes white space, leaves out empty pieces, takes a plus sign in front
of a number, and replaces names wherever they occur, also within a number.
-/

namespace DcmAgent.Cron

open Library

variable {k : FieldKind} {f p r t item expression : List Char} {c d : Char}

/-! ### The grammar -/

def IsNumber (t : List Char) : Prop := t ≠ [] ∧ ∀ c ∈ t, c.isDigit = true

/-- The name of a value, in any letter case. The months have a word for 0, which is no name. -/
def IsName (k : FieldKind) (t : List Char) : Prop := dcmCronParseToUpper t ∈ k.words.drop k.min

def IsTerm (k : FieldKind) (t : List Char) : Prop := IsNumber t ∨ IsName k t

/-- `*`, `n` or `n-m`. -/
def IsRange (term : List Char → Prop) (r : List Char) : Prop :=
  r = ['*'] ∨ term r ∨ ∃ lo hi, term lo ∧ term hi ∧ r = lo ++ '-' :: hi

def IsItem (term : List Char → Prop) (item : List Char) : Prop :=
  IsRange term item ∨ ∃ r step, IsRange term r ∧ IsNumber step ∧ item = r ++ '/' :: step

def IsField (term : List Char → Prop) (f : List Char) : Prop :=
  ∀ item ∈ f.splitOn ',', IsItem term item

/-- The fields from the minutes on. A question mark stands for all days. -/
structure FromMinutes (minutes hours dom mon dow : List Char) : Prop where
  minutes : IsField (IsTerm sixtieths) minutes
  hours : IsField (IsTerm hoursOfDay) hours
  daysOfMonth : dom = ['?'] ∨ IsField (IsTerm daysOfMonth) dom
  months : IsField (IsTerm months) mon
  daysOfWeek : dow = ['?'] ∨ IsField (IsTerm daysOfWeek) dow

/-- Five fields, or six. -/
inductive IsSentence : List (List Char) → Prop where
  | five {minutes hours dom mon dow : List Char} (h : FromMinutes minutes hours dom mon dow) :
      IsSentence [minutes, hours, dom, mon, dow]
  | six {seconds minutes hours dom mon dow : List Char}
      (hseconds : IsField (IsTerm sixtieths) seconds)
      (h : FromMinutes minutes hours dom mon dow) :
      IsSentence [seconds, minutes, hours, dom, mon, dow]

/-- The fields that white space separates are a sentence, and they are what the parser reads. -/
structure Strict (expression : List Char) : Prop where
  fields : dcmCronParseStrSplit expression ' ' = runs isSpace expression
  sentence : IsSentence (runs isSpace expression)

/-! ### The lexical condition -/

/-- What stands between the separators of a field. -/
def parts (f : List Char) : List (List Char) :=
  (f.splitOn ',').flatMap fun item => (item.splitOn '/').flatMap (·.splitOn '-')

/-- The part is not empty, and if there is a letter in it, then it has three characters. -/
def TidyPart (p : List Char) : Prop := p ≠ [] ∧ (p.any Char.isAlpha = true → p.length = 3)

/-- There is no plus sign, and no letter in a step. -/
structure Tidy (f : List Char) : Prop where
  plus : '+' ∉ f
  parts : ∀ p ∈ parts f, TidyPart p
  steps : ∀ item ∈ f.splitOn ',', ∀ step ∈ (item.splitOn '/').tail, step.any Char.isAlpha = false

instance decidableTidyPart (p : List Char) : Decidable (TidyPart p) :=
  inferInstanceAs (Decidable (_ ∧ _))

instance decidableTidy (f : List Char) : Decidable (Tidy f) :=
  decidable_of_iff ('+' ∉ f ∧ (∀ p ∈ DcmAgent.Cron.parts f, TidyPart p) ∧
      ∀ item ∈ f.splitOn ',', ∀ step ∈ (item.splitOn '/').tail, step.any Char.isAlpha = false)
    ⟨fun h => ⟨h.1, h.2.1, h.2.2⟩, fun h => ⟨h.plus, h.parts, h.steps⟩⟩

/-- No other white space stands between two characters that are not separated by a blank. -/
structure Clean (expression : List Char) : Prop where
  blanks : ∀ s ∈ expression.splitOn ' ', (runs isSpace s).length ≤ 1
  tidy : ∀ f ∈ runs isSpace expression, Tidy f

/-! ### Letters -/

lemma toUpper_of_not_isAlpha (hc : c.isAlpha = false) : c.toUpper = c := by
  rw [Char.toUpper, dif_neg]
  simpa [Char.isAlpha, Char.isLower] using (Bool.or_eq_false_iff.mp hc).2

lemma isUpper_toUpper (hc : c.isAlpha = true) : c.toUpper.isUpper = true := by
  rw [Char.toUpper]
  split_ifs with hlower
  · have hval : ('A'.val - 'a'.val).toNat = 4294967264 := rfl
    obtain ⟨hge, hle⟩ := hlower
    rw [UInt32.le_iff_toNat_le] at hge hle
    simp only [Char.isUpper, ge_iff_le, UInt32.le_iff_toNat_le, UInt32.toNat_add, hval,
      decide_eq_true_eq]
    have ha : 'a'.val.toNat = 97 := rfl
    have hz : 'z'.val.toNat = 122 := rfl
    have hA : 'A'.val.toNat = 65 := rfl
    have hZ : 'Z'.val.toNat = 90 := rfl
    omega
  · simp only [Char.isAlpha, Bool.or_eq_true] at hc
    refine hc.resolve_right fun h => hlower ?_
    simpa [Char.isLower] using h

lemma isAlpha_of_isUpper (hc : c.isUpper = true) : c.isAlpha = true := by
  simp [Char.isAlpha, hc]

lemma isAlpha_toUpper : c.toUpper.isAlpha = c.isAlpha := by
  cases hc : c.isAlpha
  · rw [toUpper_of_not_isAlpha hc, hc]
  · exact isAlpha_of_isUpper (isUpper_toUpper hc)

lemma toUpper_eq_iff (hd : d.isAlpha = false) : c.toUpper = d ↔ c = d := by
  constructor
  · rintro rfl
    rw [isAlpha_toUpper] at hd
    exact (toUpper_of_not_isAlpha hd).symm
  · rintro rfl
    exact toUpper_of_not_isAlpha hd

/-! ### Sentences are clean -/

/-- What is known of the characters of a term. -/
structure Plain (t : List Char) : Prop where
  ne_nil : t ≠ []
  isAlphanum : ∀ c ∈ t, c.isAlphanum = true
  length : t.any Char.isAlpha = true → t.length = 3

lemma Plain.notMem (h : Plain t) (hc : c.isAlphanum = false) : c ∉ t := by
  intro hmem
  rw [h.isAlphanum c hmem] at hc
  cases hc

lemma any_isAlpha_eq_false : t.any Char.isAlpha = false ↔ ∀ c ∈ t, c.isAlpha = false := by
  simp

lemma not_isAlpha_of_isDigit (hc : c.isDigit = true) : c.isAlpha = false := by
  have hdigit := toNat_of_isDigit hc
  have hnat : c.val.toNat = c.toNat := rfl
  simp [Char.isAlpha, Char.isUpper, Char.isLower, UInt32.le_iff_toNat_le, hnat]
  omega

lemma IsNumber.not_isAlpha (h : IsNumber t) : t.any Char.isAlpha = false :=
  any_isAlpha_eq_false.mpr fun c hc => not_isAlpha_of_isDigit (h.2 c hc)

lemma IsNumber.plain (h : IsNumber t) : Plain t where
  ne_nil := h.1
  isAlphanum c hc := by simp [Char.isAlphanum, h.2 c hc]
  length hletter := by
    rw [h.not_isAlpha] at hletter
    cases hletter

lemma IsName.plain (hk : ∀ w ∈ k.words, IsWord w) (h : IsName k t) : Plain t := by
  have hword : IsWord (dcmCronParseToUpper t) := hk _ (List.mem_of_mem_drop h)
  have hlen : t.length = 3 := by
    rw [← hword.length_eq, dcmCronParseToUpper, List.length_map]
  refine ⟨List.ne_nil_of_length_pos (by omega), fun c hc => ?_, fun _ => hlen⟩
  have hupper := hword.isUpper _ (List.mem_map_of_mem hc)
  have halpha : c.isAlpha = true := isAlpha_toUpper ▸ isAlpha_of_isUpper hupper
  simp [Char.isAlphanum, halpha]

lemma IsTerm.plain (hk : ∀ w ∈ k.words, IsWord w) (h : IsTerm k t) : Plain t :=
  h.elim IsNumber.plain (IsName.plain hk)

section Tidy

variable {term : List Char → Prop} (hterm : ∀ t, term t → Plain t)

include hterm

lemma IsRange.splitOn_minus (h : IsRange term r) :
    ∀ p ∈ r.splitOn '-', TidyPart p := by
  have hplain : ∀ t, term t → TidyPart t := fun t ht => ⟨(hterm t ht).ne_nil, (hterm t ht).length⟩
  rcases h with rfl | h | ⟨lo, hi, hlo, hhi, rfl⟩
  · decide
  · rw [List.splitOn_eq_singleton ((hterm r h).notMem (by decide))]
    simpa using hplain r h
  · rw [splitOn_pair ((hterm lo hlo).notMem (by decide)) ((hterm hi hhi).notMem (by decide))]
    intro p hp
    rcases List.mem_pair.mp hp with rfl | rfl
    · exact hplain p hlo
    · exact hplain p hhi

/-- The characters of a range. -/
lemma IsRange.notMem (h : IsRange term r) (hc : c.isAlphanum = false) (hne : c ≠ '*' ∧ c ≠ '-') :
    c ∉ r := by
  rcases h with rfl | h | ⟨lo, hi, hlo, hhi, rfl⟩
  · simpa using hne.1
  · exact (hterm r h).notMem hc
  · intro hmem
    rcases List.mem_append.mp hmem with h | h
    · exact (hterm lo hlo).notMem hc h
    · rcases List.mem_cons.mp h with h | h
      · exact hne.2 h
      · exact (hterm hi hhi).notMem hc h

lemma IsItem.splitOn_slash (h : IsItem term item) : ∃ r steps,
    item.splitOn '/' = r :: steps ∧ IsRange term r ∧ ∀ step ∈ steps, IsNumber step := by
  rcases h with h | ⟨r, step, h, hstep, rfl⟩
  · have hno := h.notMem hterm (c := '/') (by decide) (by decide)
    exact ⟨item, [], List.splitOn_eq_singleton hno, h, by simp⟩
  · have hno := h.notMem hterm (c := '/') (by decide) (by decide)
    refine ⟨r, [step], splitOn_pair hno (hstep.plain.notMem (by decide)), h, ?_⟩
    simpa using hstep

lemma IsItem.notMem_plus (h : IsItem term item) : '+' ∉ item := by
  rcases h with h | ⟨r, step, h, hstep, rfl⟩
  · exact h.notMem hterm (by decide) (by decide)
  · intro hmem
    rcases List.mem_append.mp hmem with hmem | hmem
    · exact h.notMem hterm (by decide) (by decide) hmem
    · rcases List.mem_cons.mp hmem with heq | hmem
      · cases heq
      · exact hstep.plain.notMem (by decide) hmem

lemma IsField.tidy (h : IsField term f) : Tidy f where
  plus hmem := by
    obtain ⟨item, hitem, hmem⟩ := @exists_mem_splitOn _ _ ',' _ _ hmem (by decide)
    exact (h item hitem).notMem_plus hterm hmem
  parts p hp := by
    obtain ⟨item, hitem, hp⟩ := List.mem_flatMap.mp hp
    obtain ⟨r', hr', hp⟩ := List.mem_flatMap.mp hp
    obtain ⟨r, steps, heq, hr, hsteps⟩ := (h item hitem).splitOn_slash hterm
    rw [heq] at hr'
    rcases List.mem_cons.mp hr' with rfl | hr'
    · exact hr.splitOn_minus hterm p hp
    · have hnum := (hsteps r' hr').plain
      rw [List.splitOn_eq_singleton (hnum.notMem (by decide)), List.mem_singleton] at hp
      subst hp
      exact ⟨hnum.ne_nil, hnum.length⟩
  steps item hitem step hstep := by
    obtain ⟨r, steps, heq, hr, hsteps⟩ := (h item hitem).splitOn_slash hterm
    rw [heq] at hstep
    exact (hsteps step hstep).not_isAlpha

end Tidy

lemma tidy_questionMark : Tidy ['?'] := ⟨by decide, by decide, by decide⟩

end DcmAgent.Cron
