import Mathlib.Tactic
import DcmAgent.Cron.Parse

/-!
# Cron expressions and their text

The abstract cron expressions: what they stand for, and how they are written. A field is a list of
items, an item is a span with or without a step. The values of the months and the days of the week
can be written by name.
-/

namespace DcmAgent.Cron

/-- The least and the greatest value of a field, and its words: the word `i` stands for `i`. -/
structure FieldKind where
  min : ℕ
  max : ℕ
  words : List (List Char)

def sixtieths : FieldKind := ⟨0, 59, []⟩

def hoursOfDay : FieldKind := ⟨0, 23, []⟩

def daysOfMonth : FieldKind := ⟨1, 31, []⟩

def months : FieldKind := ⟨1, 12, monthsArr⟩

/-- Sunday is 0 or 7. -/
def daysOfWeek : FieldKind := ⟨0, 7, daysArr⟩

variable {k : FieldKind}

/-- A value in the range of its field. If it is written by name, then in any letter case. -/
structure Value (k : FieldKind) where
  val : ℕ
  spelling : Option (List Char)
  min_le : k.min ≤ val
  le_max : val ≤ k.max
  spelled : ∀ s ∈ spelling, k.words[val]? = some (s.map Char.toUpper)

inductive Span (k : FieldKind) where
  | all
  | single (v : Value k)
  | range (v w : Value k) (le : v.val ≤ w.val)

structure Item (k : FieldKind) where
  span : Span k
  step : Option ℕ
  step_pos : ∀ d ∈ step, 0 < d

structure FieldExp (k : FieldKind) where
  items : List (Item k)
  ne_nil : items ≠ []

/-- A cron expression with five fields, or with six. The days of the month and those of the week can
be left open. -/
structure CronExp where
  seconds : Option (FieldExp sixtieths)
  minutes : FieldExp sixtieths
  hours : FieldExp hoursOfDay
  daysOfMonth : Option (FieldExp daysOfMonth)
  months : FieldExp months
  daysOfWeek : Option (FieldExp daysOfWeek)

/-! ### Texts -/

def decimal (n : ℕ) : List Char := (Nat.repr n).toList

def Value.text (v : Value k) : List Char := v.spelling.getD (decimal v.val)

section

variable (f : Value k → List Char)

/-- The text of a span, when the values are written by `f`. -/
def Span.textWith : Span k → List Char
  | .all => ['*']
  | .single v => f v
  | .range v w _ => f v ++ '-' :: f w

def Item.textWith (i : Item k) : List Char :=
  i.span.textWith f ++ i.step.elim [] fun d => '/' :: decimal d

def FieldExp.textWith (x : FieldExp k) : List Char :=
  [','].intercalate (x.items.map fun i => i.textWith f)

end

def FieldExp.text (x : FieldExp k) : List Char := x.textWith Value.text

/-- A field that can be left open. -/
def dayText (x : Option (FieldExp k)) : List Char := x.elim ['?'] FieldExp.text

def CronExp.texts (x : CronExp) : List (List Char) :=
  x.seconds.toList.map FieldExp.text ++
    [x.minutes.text, x.hours.text, dayText x.daysOfMonth, x.months.text, dayText x.daysOfWeek]

def CronExp.render (x : CronExp) : List Char := [' '].intercalate x.texts

/-! ### Meanings -/

/-- The first and the last value of a span. With a step, a single value goes on to the greatest
value of the field. -/
def Item.bounds (i : Item k) : ℕ × ℕ :=
  match i.span with
  | .all => (k.min, k.max)
  | .single v => (v.val, if i.step.isSome then k.max else v.val)
  | .range v w _ => (v.val, w.val)

def Item.Hits (i : Item k) (n : ℕ) : Prop :=
  i.bounds.1 ≤ n ∧ n ≤ i.bounds.2 ∧ i.step.getD 1 ∣ n - i.bounds.1

def FieldExp.Hits (x : FieldExp k) (n : ℕ) : Prop := ∃ i ∈ x.items, i.Hits n

def dayHits (x : Option (FieldExp k)) (n : ℕ) : Prop :=
  x.elim (k.min ≤ n ∧ n ≤ k.max) fun x => x.Hits n

/-- The bit sets of a parsed pattern are the sets that the expression stands for. Without a field
for them, the seconds are 0; months are stored from zero. -/
structure CronExp.Denotes (x : CronExp) (e : DcmCronExpr) : Prop where
  seconds : ∀ n, dcmCronParseGetBit e.seconds n = true ↔ x.seconds.elim (n = 0) (·.Hits n)
  minutes : ∀ n, dcmCronParseGetBit e.minutes n = true ↔ x.minutes.Hits n
  hours : ∀ n, dcmCronParseGetBit e.hours n = true ↔ x.hours.Hits n
  daysOfMonth : ∀ n, dcmCronParseGetBit e.daysOfMonth n = true ↔ dayHits x.daysOfMonth n
  months : ∀ n, dcmCronParseGetBit e.months n = true ↔ x.months.Hits (n + 1)
  daysOfWeek : ∀ n, dcmCronParseGetBit e.daysOfWeek n = true ↔
    ∃ d, dayHits x.daysOfWeek d ∧ n = d % 7

/-- No step is larger than an `int`. -/
def FieldExp.StepsFit (x : FieldExp k) : Prop := ∀ i ∈ x.items, ∀ d ∈ i.step, (d : ℤ) ≤ intMax

structure CronExp.StepsFit (x : CronExp) : Prop where
  seconds : ∀ f ∈ x.seconds, f.StepsFit
  minutes : x.minutes.StepsFit
  hours : x.hours.StepsFit
  daysOfMonth : ∀ f ∈ x.daysOfMonth, f.StepsFit
  months : x.months.StepsFit
  daysOfWeek : ∀ f ∈ x.daysOfWeek, f.StepsFit

end DcmAgent.Cron
