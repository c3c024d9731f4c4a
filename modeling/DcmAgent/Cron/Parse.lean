import Mathlib.Tactic

/-!
# The parser of cron patterns

A pattern has five or six fields, separated by blanks. Each field is a list of numbers, ranges and
steps that `dcmCronParseSetNumberHits` turns into a bit set; month and weekday names are replaced
by numbers before that. The parser writes into its target as it goes, also when it fails later.
-/

namespace DcmAgent.Cron

/-! ### Bit sets -/

/-- An array of bytes that holds a bit set. -/
abbrev Bits := List (BitVec 8)

def dcmCronParseGetBit (rbyte : Bits) (idx : ℕ) : Bool :=
  (rbyte.getD (idx / 8) 0).getLsbD (idx % 8)

def dcmCronParseSetBit (rbyte : Bits) (idx : ℕ) : Bits :=
  rbyte.modify (idx / 8) fun b => b ||| (1#8 <<< (idx % 8))

def dcmCronParseDelBit (rbyte : Bits) (idx : ℕ) : Bits :=
  rbyte.modify (idx / 8) fun b => b &&& ~~~(1#8 <<< (idx % 8))

/-- A parsed pattern. -/
structure DcmCronExpr where
  seconds : Bits
  minutes : Bits
  hours : Bits
  daysOfWeek : Bits
  daysOfMonth : Bits
  months : Bits
  deriving DecidableEq, Repr

/-- The pattern with all bits clear. -/
def DcmCronExpr.zero : DcmCronExpr where
  seconds := List.replicate 8 0
  minutes := List.replicate 8 0
  hours := List.replicate 3 0
  daysOfWeek := List.replicate 1 0
  daysOfMonth := List.replicate 4 0
  months := List.replicate 2 0

/-! ### Strings -/

def cronMaxStrLenToSplit : ℕ := 256

def intMax : ℤ := 2147483647

def isSpace (c : Char) : Bool :=
  c = ' ' ∨ (9 ≤ c.toNat ∧ c.toNat ≤ 13)

def dcmCronParseToUpper (str : List Char) : List Char := str.map Char.toUpper

/-- The digits at the start of a string, as a number behind `acc`, and the rest. -/
def readDigits (acc : ℤ) : List Char → ℤ × List Char
  | [] => (acc, [])
  | c :: s => if c.isDigit then readDigits (10 * acc + (c.toNat - 48)) s else (acc, c :: s)

/-- `strtol` with base 10: the number and the unread rest. Without a digit nothing is read. -/
def strtol (str : List Char) : ℤ × List Char :=
  let s := str.dropWhile isSpace
  let negative := s.head? = some '-'
  let s := if s.head? = some '-' ∨ s.head? = some '+' then s.tail else s
  if s.head?.any Char.isDigit then
    let (l, rest) := readDigits 0 s
    (if negative then -l else l, rest)
  else (0, str)

/-- A number from 0 to `INT_MAX` that takes up the whole string. -/
def dcmCronParseParseUint (str : List Char) : Option ℕ :=
  let (l, rest) := strtol str
  if rest ≠ [] ∨ l < 0 ∨ l > intMax then none else some l.toNat

/-- The filling pass of the split: `buf` is the current piece. -/
def splitPieces (del : Char) : List Char → List Char → List (List Char)
  | [], buf => if buf.length > 0 then [buf] else []
  | c :: s, buf =>
    if c = del then
      if buf.length > 0 then buf :: splitPieces del s [] else splitPieces del s buf
    else if isSpace c then splitPieces del s buf
    else splitPieces del s (buf ++ [c])

/-- The pieces between the delimiters, without white space and without empty pieces; none when the
string is too long. -/
def dcmCronParseStrSplit (str : List Char) (del : Char) : List (List Char) :=
  if str.length ≥ cronMaxStrLenToSplit then [] else splitPieces del str []

/-- The position of the first occurrence of `rep`. -/
def strstr (rep : List Char) : List Char → Option ℕ
  | [] => if rep = [] then some 0 else none
  | c :: s => if rep.isPrefixOf (c :: s) then some 0 else (strstr rep s).map (· + 1)

/-- The counting pass of the replacement; each round moves on by at least one character. -/
def countOccurrences (rep : List Char) : ℕ → List Char → ℕ
  | 0, _ => 0
  | fuel + 1, ins =>
    match strstr rep ins with
    | none => 0
    | some i => countOccurrences rep fuel (ins.drop (i + rep.length)) + 1

/-- The replacing pass, for the counted number of occurrences. -/
def replaceOccurrences (rep with' : List Char) : ℕ → List Char → List Char
  | 0, orig => orig
  | count + 1, orig =>
    match strstr rep orig with
    | none => orig
    | some i => orig.take i ++ with' ++
        replaceOccurrences rep with' count (orig.drop (i + rep.length))

def dcmCronParseStrReplace (orig rep with' : List Char) : List Char :=
  replaceOccurrences rep with' (countOccurrences rep (orig.length + 1) orig) orig

/-- Replace the `i`-th word by the number `i`, one word after the other. -/
def dcmCronParseReplaceOrdinals (value : List Char) (arr : List (List Char)) : List Char :=
  arr.zipIdx.foldl (fun cur p => dcmCronParseStrReplace cur p.1 (Nat.repr p.2).toList) value

def daysArr : List (List Char) :=
  ["SUN".toList, "MON".toList, "TUE".toList, "WED".toList, "THU".toList, "FRI".toList,
    "SAT".toList]

def monthsArr : List (List Char) :=
  ["FOO".toList, "JAN".toList, "FEB".toList, "MAR".toList, "APR".toList, "MAY".toList,
    "JUN".toList, "JUL".toList, "AUG".toList, "SEP".toList, "OCT".toList, "NOV".toList,
    "DEC".toList]

/-! ### Fields -/

/-- The bounds of a range as they are written. -/
def readRange (field : List Char) (min max : ℕ) : Option (ℕ × ℕ) :=
  if field = ['*'] then some (min, max - 1)
  else if '-' ∉ field then (dcmCronParseParseUint field).map fun val => (val, val)
  else match dcmCronParseStrSplit field '-' with
    | [lo, hi] => do
      let lo ← dcmCronParseParseUint lo
      let hi ← dcmCronParseParseUint hi
      some (lo, hi)
    | _ => none

/-- The bounds of a range, if it lies within `min` and `max - 1`. -/
def dcmCronParseGetRange (field : List Char) (min max : ℕ) : Option (ℕ × ℕ) :=
  (readRange field min max).bind fun res =>
    if res.1 ≥ max ∨ res.2 ≥ max then none
    else if res.1 < min ∨ res.2 < min then none
    else if res.1 > res.2 then none
    else some res

/-- Set the bits `i1, i1 + delta, …` up to `hi`, with the 32-bit counter of the loop. -/
def fillRange (hi delta : ℕ) : ℕ → ℕ → Bits → Bits
  | 0, _, target => target
  | fuel + 1, i1, target =>
    if i1 ≤ hi then
      fillRange hi delta fuel ((i1 + delta) % 2 ^ 32) (dcmCronParseSetBit target i1)
    else target

/-- The bounds and the step of one item of a field. -/
def itemRange (item : List Char) (min max : ℕ) : Option ((ℕ × ℕ) × ℕ) :=
  if '/' ∉ item then
    -- not an incrementer, so it must be a range
    (dcmCronParseGetRange item min max).map fun range => (range, 1)
  else
    match dcmCronParseStrSplit item '/' with
    | [first, step] => do
      let range ← dcmCronParseGetRange first min max
      let range := if '-' ∉ first then (range.1, max - 1) else range
      let delta ← dcmCronParseParseUint step
      if delta = 0 then none else some (range, delta)
    | _ => none

/-- The items in order, up to the first bad one. -/
def setItems (min max : ℕ) : List (List Char) → Bits → Bool × Bits
  | [], target => (true, target)
  | item :: items, target =>
    match itemRange item min max with
    | none => (false, target)
    | some (range, delta) =>
      setItems min max items (fillRange range.2 delta max range.1 target)

def dcmCronParseSetNumberHits (value : List Char) (target : Bits) (min max : ℕ) : Bool × Bits :=
  let fields := dcmCronParseStrSplit value ','
  if fields = [] then (false, target) else setItems min max fields target

/-- Move bit `i` to bit `i - 1`. -/
def rotateBit (targ : Bits) (i : ℕ) : Bits :=
  if dcmCronParseGetBit targ i then
    dcmCronParseDelBit (dcmCronParseSetBit targ (i - 1)) i
  else targ

def dcmCronParseSetMonths (value : List Char) (targ : Bits) : Bool × Bits :=
  let replaced := dcmCronParseReplaceOrdinals (dcmCronParseToUpper value) monthsArr
  let r := dcmCronParseSetNumberHits replaced targ 1 13
  -- rotate the months to the front
  (r.1, (List.range' 1 12).foldl rotateBit r.2)

/-- A field that consists of a question mark stands for all days. -/
def questionMark (field : List Char) : List Char := if field = ['?'] then ['*'] else field

def dcmCronParseSetDaysOfWeek (field : List Char) (targ : Bits) : Bool × Bits :=
  let replaced :=
    dcmCronParseReplaceOrdinals (dcmCronParseToUpper (questionMark field)) daysArr
  let r := dcmCronParseSetNumberHits replaced targ 0 8
  -- Sunday is 0 or 7
  (r.1,
    if dcmCronParseGetBit r.2 7 then dcmCronParseDelBit (dcmCronParseSetBit r.2 0) 7 else r.2)

def cronMaxDaysOfMonth : ℕ := 32

def dcmCronParseSetDaysOfMonth (field : List Char) (targ : Bits) : Bool × Bits :=
  dcmCronParseSetNumberHits (questionMark field) targ 1 cronMaxDaysOfMonth

/-! ### Patterns -/

/-- Continue with the next field unless the last one was bad. -/
def andThen (r : Bool × DcmCronExpr) (next : DcmCronExpr → Bool × DcmCronExpr) :
    Bool × DcmCronExpr :=
  if r.1 then next r.2 else r

def setSeconds (field : Option (List Char)) (e : DcmCronExpr) : Bool × DcmCronExpr :=
  match field with
  | some field =>
    let r := dcmCronParseSetNumberHits field e.seconds 0 60
    (r.1, { e with seconds := r.2 })
  | none => (true, { e with seconds := e.seconds.set 0 1 })

def setMinutes (field : List Char) (e : DcmCronExpr) : Bool × DcmCronExpr :=
  let r := dcmCronParseSetNumberHits field e.minutes 0 60
  (r.1, { e with minutes := r.2 })

def setHours (field : List Char) (e : DcmCronExpr) : Bool × DcmCronExpr :=
  let r := dcmCronParseSetNumberHits field e.hours 0 24
  (r.1, { e with hours := r.2 })

def setDaysOfMonth (field : List Char) (e : DcmCronExpr) : Bool × DcmCronExpr :=
  let r := dcmCronParseSetDaysOfMonth field e.daysOfMonth
  (r.1, { e with daysOfMonth := r.2 })

def setMonths (field : List Char) (e : DcmCronExpr) : Bool × DcmCronExpr :=
  let r := dcmCronParseSetMonths field e.months
  (r.1, { e with months := r.2 })

def setDaysOfWeek (field : List Char) (e : DcmCronExpr) : Bool × DcmCronExpr :=
  let r := dcmCronParseSetDaysOfWeek field e.daysOfWeek
  (r.1, { e with daysOfWeek := r.2 })

/-- The fields one after the other; a pattern of five fields has none for the seconds. -/
def parseFields (seconds : Option (List Char))
    (minutes hours daysOfMonth months daysOfWeek : List Char) : Bool × DcmCronExpr :=
  let r := setSeconds seconds .zero
  let r := andThen r (setMinutes minutes)
  let r := andThen r (setHours hours)
  let r := andThen r (setDaysOfMonth daysOfMonth)
  let r := andThen r (setMonths months)
  andThen r (setDaysOfWeek daysOfWeek)

/-- Parse a pattern into `target`. The flag says whether the pattern is accepted. -/
def dcmCronParseExp (expression : List Char) (target : DcmCronExpr) : Bool × DcmCronExpr :=
  match dcmCronParseStrSplit expression ' ' with
  | [minutes, hours, daysOfMonth, months, daysOfWeek] =>
    parseFields none minutes hours daysOfMonth months daysOfWeek
  | [seconds, minutes, hours, daysOfMonth, months, daysOfWeek] =>
    parseFields (some seconds) minutes hours daysOfMonth months daysOfWeek
  | _ => (false, target)

end DcmAgent.Cron
