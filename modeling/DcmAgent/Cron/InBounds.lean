import Mathlib.Tactic
import DcmAgent.Cron.Accepted

/-!
# The bits that the parser sets

The parser once more, with its arrays and its counters watched: a bit outside its array, a 32-bit
counter that wraps and a loop that does not end are `none`.
-/

namespace DcmAgent.Cron

/-! ### The watched parser -/

def setBitIn (rbyte : Bits) (idx : ℕ) : Option Bits :=
  if idx / 8 < rbyte.length then some (dcmCronParseSetBit rbyte idx) else none

def delBitIn (rbyte : Bits) (idx : ℕ) : Option Bits :=
  if idx / 8 < rbyte.length then some (dcmCronParseDelBit rbyte idx) else none

def fillRangeIn (hi delta : ℕ) : ℕ → ℕ → Bits → Option Bits
  | 0, i1, target => if i1 ≤ hi then none else some target
  | fuel + 1, i1, target =>
    if i1 ≤ hi then
      if i1 + delta < 2 ^ 32 then
        (setBitIn target i1).bind (fillRangeIn hi delta fuel (i1 + delta))
      else none
    else some target

def setItemsIn (min max : ℕ) : List (List Char) → Bits → Option (Bool × Bits)
  | [], target => some (true, target)
  | item :: items, target =>
    match itemRange item min max with
    | none => some (false, target)
    | some (range, delta) =>
      (fillRangeIn range.2 delta max range.1 target).bind (setItemsIn min max items)

def setNumberHitsIn (value : List Char) (target : Bits) (min max : ℕ) : Option (Bool × Bits) :=
  let fields := dcmCronParseStrSplit value ','
  if fields = [] then some (false, target) else setItemsIn min max fields target

def rotateBitIn (targ : Bits) (i : ℕ) : Option Bits :=
  if dcmCronParseGetBit targ i then
    (setBitIn targ (i - 1)).bind fun targ => delBitIn targ i
  else some targ

def setMonthsIn (value : List Char) (targ : Bits) : Option (Bool × Bits) :=
  let replaced := dcmCronParseReplaceOrdinals (dcmCronParseToUpper value) monthsArr
  (setNumberHitsIn replaced targ 1 13).bind fun r =>
    ((List.range' 1 12).foldlM rotateBitIn r.2).map (r.1, ·)

def setDaysOfWeekIn (field : List Char) (targ : Bits) : Option (Bool × Bits) :=
  let replaced :=
    dcmCronParseReplaceOrdinals (dcmCronParseToUpper (questionMark field)) daysArr
  (setNumberHitsIn replaced targ 0 8).bind fun r =>
    if dcmCronParseGetBit r.2 7 then
      ((setBitIn r.2 0).bind fun targ => delBitIn targ 7).map (r.1, ·)
    else some r

def setDaysOfMonthIn (field : List Char) (targ : Bits) : Option (Bool × Bits) :=
  setNumberHitsIn (questionMark field) targ 1 cronMaxDaysOfMonth

def andThenIn (r : Option (Bool × DcmCronExpr))
    (next : DcmCronExpr → Option (Bool × DcmCronExpr)) : Option (Bool × DcmCronExpr) :=
  r.bind fun r => if r.1 then next r.2 else some r

def setSecondsIn (field : Option (List Char)) (e : DcmCronExpr) : Option (Bool × DcmCronExpr) :=
  match field with
  | some field =>
    (setNumberHitsIn field e.seconds 0 60).map fun r => (r.1, { e with seconds := r.2 })
  | none =>
    if 0 < e.seconds.length then some (true, { e with seconds := e.seconds.set 0 1 }) else none

def setMinutesIn (field : List Char) (e : DcmCronExpr) : Option (Bool × DcmCronExpr) :=
  (setNumberHitsIn field e.minutes 0 60).map fun r => (r.1, { e with minutes := r.2 })

def setHoursIn (field : List Char) (e : DcmCronExpr) : Option (Bool × DcmCronExpr) :=
  (setNumberHitsIn field e.hours 0 24).map fun r => (r.1, { e with hours := r.2 })

def setDayOfMonthFieldIn (field : List Char) (e : DcmCronExpr) : Option (Bool × DcmCronExpr) :=
  (setDaysOfMonthIn field e.daysOfMonth).map fun r => (r.1, { e with daysOfMonth := r.2 })

def setMonthFieldIn (field : List Char) (e : DcmCronExpr) : Option (Bool × DcmCronExpr) :=
  (setMonthsIn field e.months).map fun r => (r.1, { e with months := r.2 })

def setDayOfWeekFieldIn (field : List Char) (e : DcmCronExpr) : Option (Bool × DcmCronExpr) :=
  (setDaysOfWeekIn field e.daysOfWeek).map fun r => (r.1, { e with daysOfWeek := r.2 })

def parseFieldsIn (seconds : Option (List Char))
    (minutes hours daysOfMonth months daysOfWeek : List Char) : Option (Bool × DcmCronExpr) :=
  let r := setSecondsIn seconds .zero
  let r := andThenIn r (setMinutesIn minutes)
  let r := andThenIn r (setHoursIn hours)
  let r := andThenIn r (setDayOfMonthFieldIn daysOfMonth)
  let r := andThenIn r (setMonthFieldIn months)
  andThenIn r (setDayOfWeekFieldIn daysOfWeek)

def dcmCronParseExpIn (expression : List Char) (target : DcmCronExpr) :
    Option (Bool × DcmCronExpr) :=
  match dcmCronParseStrSplit expression ' ' with
  | [minutes, hours, daysOfMonth, months, daysOfWeek] =>
    parseFieldsIn none minutes hours daysOfMonth months daysOfWeek
  | [seconds, minutes, hours, daysOfMonth, months, daysOfWeek] =>
    parseFieldsIn (some seconds) minutes hours daysOfMonth months daysOfWeek
  | _ => some (false, target)

/-! ### Nothing is left out -/

lemma setBitIn_eq {r : Bits} {i : ℕ} (hi : i < 8 * r.length) :
    setBitIn r i = some (dcmCronParseSetBit r i) := if_pos (by omega)

lemma delBitIn_eq {r : Bits} {i : ℕ} (hi : i < 8 * r.length) :
    delBitIn r i = some (dcmCronParseDelBit r i) := if_pos (by omega)

/-- The loop ends within its array, and no counter comes near the end of its range. -/
lemma fillRangeIn_eq {hi delta fuel i1 : ℕ} {target : Bits} (hlen : hi < 8 * target.length)
    (hfuel : hi < i1 + fuel) (hhi : (hi : ℤ) ≤ intMax) (hdelta : 0 < delta)
    (hdelta' : (delta : ℤ) ≤ intMax) :
    fillRangeIn hi delta fuel i1 target = some (fillRange hi delta fuel i1 target) := by
  induction fuel generalizing i1 target with
  | zero =>
    rw [fillRangeIn, fillRange, if_neg (by omega)]
  | succ fuel ih =>
    rw [fillRangeIn, fillRange]
    by_cases hle : i1 ≤ hi
    · have hwrap : i1 + delta < 2 ^ 32 := by
        simp only [intMax] at hhi hdelta'
        omega
      rw [if_pos hle, if_pos hle, if_pos hwrap, setBitIn_eq (by omega), Option.bind_some,
        Nat.mod_eq_of_lt hwrap]
      apply ih
      · rwa [length_dcmCronParseSetBit]
      · omega
    · rw [if_neg hle, if_neg hle]

lemma le_of_parseUint {str : List Char} {n : ℕ} (h : dcmCronParseParseUint str = some n) :
    (n : ℤ) ≤ intMax := by
  rw [dcmCronParseParseUint] at h
  obtain ⟨l, rest⟩ := strtol str
  simp only at h
  split_ifs at h with hno
  obtain rfl := Option.some.inj h
  omega

/-- A step is a number that `dcmCronParseParseUint` reads. -/
lemma delta_le_of_itemRange {item : List Char} {min max delta : ℕ} {range : ℕ × ℕ}
    (h : itemRange item min max = some (range, delta)) : (delta : ℤ) ≤ intMax := by
  rw [itemRange] at h
  split_ifs at h with hslash
  · split at h
    · rename_i first step _
      simp only [Option.bind_eq_bind, Option.bind_eq_some_iff] at h
      obtain ⟨_, -, delta', hstep, h⟩ := h
      split_ifs at h
      all_goals
        obtain ⟨-, rfl⟩ := Prod.mk.inj (Option.some.inj h)
        exact le_of_parseUint hstep
    · cases h
  · obtain ⟨_, -, heq⟩ := Option.map_eq_some_iff.mp h
    obtain ⟨-, rfl⟩ := Prod.mk.inj heq
    decide

lemma setItemsIn_eq {min max : ℕ} {target : Bits} (hlen : max ≤ 8 * target.length)
    (hmax : (max : ℤ) ≤ intMax) (items : List (List Char)) :
    setItemsIn min max items target = some (setItems min max items target) := by
  induction items generalizing target with
  | nil => rfl
  | cons item items ih =>
    rw [setItemsIn, setItems]
    cases hitem : itemRange item min max with
    | none => rfl
    | some r =>
      obtain ⟨⟨lo, hi⟩, delta⟩ := r
      obtain ⟨-, hle, hhi, hpos⟩ := itemRange_eq_some hitem
      have hfill : fillRangeIn hi delta max lo target = some (fillRange hi delta max lo target) :=
        fillRangeIn_eq (by omega) (by omega) (by omega) hpos (delta_le_of_itemRange hitem)
      simp only [hfill, Option.bind_some]
      apply ih
      rwa [length_fillRange]

lemma setNumberHitsIn_eq {target : Bits} {min max : ℕ} (value : List Char)
    (hlen : max ≤ 8 * target.length) (hmax : (max : ℤ) ≤ intMax) :
    setNumberHitsIn value target min max =
      some (dcmCronParseSetNumberHits value target min max) := by
  simp only [setNumberHitsIn, dcmCronParseSetNumberHits]
  split_ifs
  · rfl
  · exact setItemsIn_eq hlen hmax _

lemma rotateBitIn_eq {targ : Bits} {i : ℕ} (hi : i < 8 * targ.length) :
    rotateBitIn targ i = some (rotateBit targ i) := by
  rw [rotateBitIn, rotateBit]
  split_ifs
  · rw [setBitIn_eq (by omega), Option.bind_some, delBitIn_eq]
    rwa [length_dcmCronParseSetBit]
  · rfl

lemma foldlM_rotateBitIn {targ : Bits} {is : List ℕ} (his : ∀ i ∈ is, i < 8 * targ.length) :
    is.foldlM rotateBitIn targ = some (is.foldl rotateBit targ) := by
  induction is generalizing targ with
  | nil => rfl
  | cons i is ih =>
    rw [List.foldlM_cons, rotateBitIn_eq (his i List.mem_cons_self), List.foldl_cons]
    apply ih
    intro j hj
    rw [length_rotateBit]
    exact his j (List.mem_cons_of_mem _ hj)

lemma setMonthsIn_eq {targ : Bits} (value : List Char) (hlen : targ.length = 2) :
    setMonthsIn value targ = some (dcmCronParseSetMonths value targ) := by
  simp only [setMonthsIn, dcmCronParseSetMonths]
  rw [setNumberHitsIn_eq _ (by rw [hlen]; norm_num) (by decide), Option.bind_some,
    foldlM_rotateBitIn]
  · rfl
  · intro i hi
    rw [length_dcmCronParseSetNumberHits, hlen]
    have := (List.mem_range'_1.mp hi).2
    omega

lemma setDaysOfWeekIn_eq {targ : Bits} (field : List Char) (hlen : targ.length = 1) :
    setDaysOfWeekIn field targ = some (dcmCronParseSetDaysOfWeek field targ) := by
  simp only [setDaysOfWeekIn, dcmCronParseSetDaysOfWeek]
  rw [setNumberHitsIn_eq _ (by rw [hlen]) (by decide), Option.bind_some]
  generalize dcmCronParseReplaceOrdinals (dcmCronParseToUpper (questionMark field)) daysArr =
    replaced
  have hlen' := (length_dcmCronParseSetNumberHits replaced targ 0 8).trans hlen
  split_ifs
  · rw [setBitIn_eq (by rw [hlen']; norm_num), Option.bind_some,
      delBitIn_eq (by rw [length_dcmCronParseSetBit, hlen']; norm_num)]
    rfl
  · rfl

lemma setDaysOfMonthIn_eq {targ : Bits} (field : List Char) (hlen : targ.length = 4) :
    setDaysOfMonthIn field targ = some (dcmCronParseSetDaysOfMonth field targ) :=
  setNumberHitsIn_eq _ (by rw [hlen]; decide) (by decide)

/-- The arrays have their sizes. -/
structure DcmCronExpr.Sized (e : DcmCronExpr) : Prop where
  seconds : e.seconds.length = 8
  minutes : e.minutes.length = 8
  hours : e.hours.length = 3
  daysOfWeek : e.daysOfWeek.length = 1
  daysOfMonth : e.daysOfMonth.length = 4
  months : e.months.length = 2

/-- One field more, in arrays that have their sizes. -/
lemma andThenIn_eq {r : Option (Bool × DcmCronExpr)} {r' : Bool × DcmCronExpr}
    {next : DcmCronExpr → Bool × DcmCronExpr}
    {nextIn : DcmCronExpr → Option (Bool × DcmCronExpr)}
    (hr : r = some r' ∧ r'.2.Sized)
    (h : ∀ e : DcmCronExpr, e.Sized → nextIn e = some (next e) ∧ (next e).2.Sized) :
    andThenIn r nextIn = some (andThen r' next) ∧ (andThen r' next).2.Sized := by
  obtain ⟨rfl, hsized⟩ := hr
  rw [andThenIn, Option.bind_some, andThen]
  split_ifs
  · exact h _ hsized
  · exact ⟨rfl, hsized⟩

lemma length_dcmCronParseSetMonths (value : List Char) (targ : Bits) :
    (dcmCronParseSetMonths value targ).2.length = targ.length := by
  have hfold (is : List ℕ) (r : Bits) : (is.foldl rotateBit r).length = r.length := by
    induction is generalizing r with
    | nil => rfl
    | cons i is ih => rw [List.foldl_cons, ih, length_rotateBit]
  simp only [dcmCronParseSetMonths]
  rw [hfold, length_dcmCronParseSetNumberHits]

lemma length_dcmCronParseSetDaysOfWeek (field : List Char) (targ : Bits) :
    (dcmCronParseSetDaysOfWeek field targ).2.length = targ.length := by
  simp only [dcmCronParseSetDaysOfWeek]
  split_ifs
  · rw [length_dcmCronParseDelBit, length_dcmCronParseSetBit, length_dcmCronParseSetNumberHits]
  · rw [length_dcmCronParseSetNumberHits]

variable {e : DcmCronExpr}

lemma sized_zero : DcmCronExpr.zero.Sized := ⟨rfl, rfl, rfl, rfl, rfl, rfl⟩

lemma setSecondsIn_eq (field : Option (List Char)) :
    setSecondsIn field .zero = some (setSeconds field .zero) ∧
      (setSeconds field .zero).2.Sized := by
  cases field with
  | none => exact ⟨rfl, { sized_zero with seconds := rfl }⟩
  | some field =>
    rw [setSecondsIn, setNumberHitsIn_eq field (by decide) (by decide)]
    exact ⟨rfl, { sized_zero with seconds := length_dcmCronParseSetNumberHits _ _ _ _ }⟩

lemma setMinutesIn_eq (field : List Char) (he : e.Sized) :
    setMinutesIn field e = some (setMinutes field e) ∧ (setMinutes field e).2.Sized := by
  rw [setMinutesIn, setNumberHitsIn_eq field (by rw [he.minutes]; norm_num) (by decide)]
  exact ⟨rfl, { he with
    minutes := (length_dcmCronParseSetNumberHits _ _ _ _).trans he.minutes }⟩

lemma setHoursIn_eq (field : List Char) (he : e.Sized) :
    setHoursIn field e = some (setHours field e) ∧ (setHours field e).2.Sized := by
  rw [setHoursIn, setNumberHitsIn_eq field (by rw [he.hours]) (by decide)]
  exact ⟨rfl, { he with hours := (length_dcmCronParseSetNumberHits _ _ _ _).trans he.hours }⟩

lemma setDayOfMonthFieldIn_eq (field : List Char) (he : e.Sized) :
    setDayOfMonthFieldIn field e = some (setDaysOfMonth field e) ∧
      (setDaysOfMonth field e).2.Sized := by
  rw [setDayOfMonthFieldIn, setDaysOfMonthIn_eq field he.daysOfMonth]
  exact ⟨rfl, { he with
    daysOfMonth := (length_dcmCronParseSetNumberHits _ _ _ _).trans he.daysOfMonth }⟩

lemma setMonthFieldIn_eq (field : List Char) (he : e.Sized) :
    setMonthFieldIn field e = some (setMonths field e) ∧ (setMonths field e).2.Sized := by
  rw [setMonthFieldIn, setMonthsIn_eq field he.months]
  exact ⟨rfl, { he with months := (length_dcmCronParseSetMonths _ _).trans he.months }⟩

lemma setDayOfWeekFieldIn_eq (field : List Char) (he : e.Sized) :
    setDayOfWeekFieldIn field e = some (setDaysOfWeek field e) ∧
      (setDaysOfWeek field e).2.Sized := by
  rw [setDayOfWeekFieldIn, setDaysOfWeekIn_eq field he.daysOfWeek]
  exact ⟨rfl, { he with
    daysOfWeek := (length_dcmCronParseSetDaysOfWeek _ _).trans he.daysOfWeek }⟩

lemma parseFieldsIn_eq (seconds : Option (List Char))
    (minutes hours daysOfMonth months daysOfWeek : List Char) :
    parseFieldsIn seconds minutes hours daysOfMonth months daysOfWeek =
      some (parseFields seconds minutes hours daysOfMonth months daysOfWeek) := by
  have h₁ := setSecondsIn_eq seconds
  have h₂ := andThenIn_eq h₁ fun e he => setMinutesIn_eq minutes he
  have h₃ := andThenIn_eq h₂ fun e he => setHoursIn_eq hours he
  have h₄ := andThenIn_eq h₃ fun e he => setDayOfMonthFieldIn_eq daysOfMonth he
  have h₅ := andThenIn_eq h₄ fun e he => setMonthFieldIn_eq months he
  exact (andThenIn_eq h₅ fun e he => setDayOfWeekFieldIn_eq daysOfWeek he).1

lemma dcmCronParseExpIn_eq (expression : List Char) (target : DcmCronExpr) :
    dcmCronParseExpIn expression target = some (dcmCronParseExp expression target) := by
  rw [dcmCronParseExpIn, dcmCronParseExp]
  match dcmCronParseStrSplit expression ' ' with
  | [_, _, _, _, _] => exact parseFieldsIn_eq _ _ _ _ _ _
  | [_, _, _, _, _, _] => exact parseFieldsIn_eq _ _ _ _ _ _
  | [] | [_] | [_, _] | [_, _, _] | [_, _, _, _] | _ :: _ :: _ :: _ :: _ :: _ :: _ :: _ => rfl

/-! ### What is set -/

/-- Only bits in `[lo, hi)` are set. -/
def OnlyBits (r : Bits) (lo hi : ℕ) : Prop :=
  ∀ i, dcmCronParseGetBit r i = true → lo ≤ i ∧ i < hi

structure DcmCronExpr.InRange (e : DcmCronExpr) : Prop where
  seconds : OnlyBits e.seconds 0 60
  minutes : OnlyBits e.minutes 0 60
  hours : OnlyBits e.hours 0 24
  daysOfMonth : OnlyBits e.daysOfMonth 1 32
  months : OnlyBits e.months 0 12
  daysOfWeek : OnlyBits e.daysOfWeek 0 7

lemma onlyBits_replicate (n lo hi : ℕ) : OnlyBits (List.replicate n 0) lo hi := by
  intro i hi
  simp [dcmCronParseGetBit, List.getD_eq_getElem?_getD, List.getElem?_replicate] at hi
  split_ifs at hi <;> simp at hi

lemma onlyBits_fillRange {hi delta fuel i1 lo max : ℕ} {target : Bits}
    (h : OnlyBits target lo max) (hlen : hi < 8 * target.length) (hlo : lo ≤ i1) (hmax : hi < max)
    (hhi : (hi : ℤ) ≤ intMax) (hdelta : (delta : ℤ) ≤ intMax) :
    OnlyBits (fillRange hi delta fuel i1 target) lo max := by
  induction fuel generalizing i1 target with
  | zero => exact h
  | succ fuel ih =>
    rw [fillRange]
    split_ifs with hle
    · have hwrap : (i1 + delta) % 2 ^ 32 = i1 + delta := by
        simp only [intMax] at hhi hdelta
        omega
      rw [hwrap]
      apply ih
      · intro j hj
        rw [getBit_setBit (by omega), Bool.or_eq_true, decide_eq_true_iff] at hj
        rcases hj with hj | rfl
        · exact h j hj
        · omega
      · rwa [length_dcmCronParseSetBit]
      · omega
    · exact h

lemma onlyBits_setItems {min max : ℕ} {target : Bits} (h : OnlyBits target min max)
    (hlen : max ≤ 8 * target.length) (hmax : (max : ℤ) ≤ intMax) (items : List (List Char)) :
    OnlyBits (setItems min max items target).2 min max := by
  induction items generalizing target with
  | nil => exact h
  | cons item items ih =>
    rw [setItems]
    cases hitem : itemRange item min max with
    | none => exact h
    | some r =>
      obtain ⟨⟨lo, hi⟩, delta⟩ := r
      obtain ⟨hmin, hle, hhi, -⟩ := itemRange_eq_some hitem
      apply ih
      · exact onlyBits_fillRange h (by dsimp only; omega) hmin hhi (by dsimp only; omega)
          (delta_le_of_itemRange hitem)
      · rwa [length_fillRange]

lemma onlyBits_dcmCronParseSetNumberHits {min max : ℕ} {target : Bits}
    (h : OnlyBits target min max) (hlen : max ≤ 8 * target.length) (hmax : (max : ℤ) ≤ intMax)
    (value : List Char) : OnlyBits (dcmCronParseSetNumberHits value target min max).2 min max := by
  simp only [dcmCronParseSetNumberHits]
  split_ifs
  · exact h
  · exact onlyBits_setItems h hlen hmax _

/-- The months move down by one, into the place that the first of them has left free. -/
lemma onlyBits_foldl_rotateBit {r : Bits} {n : ℕ} (h : OnlyBits r 1 (n + 1))
    (hn : n < 8 * r.length) : OnlyBits ((List.range' 1 n).foldl rotateBit r) 0 n := by
  -- after `m` rounds the bits from `m` on are as before, those below have been set again
  have key : ∀ m, m ≤ n → ((List.range' 1 m).foldl rotateBit r).length = r.length ∧
      ∀ k, dcmCronParseGetBit ((List.range' 1 m).foldl rotateBit r) k = true →
        k < m ∨ m < k ∧ k ≤ n := by
    intro m hm
    induction m with
    | zero =>
      refine ⟨rfl, fun k hk => ?_⟩
      have := h k hk
      omega
    | succ m ih =>
      obtain ⟨hlen, hbits⟩ := ih (by omega)
      rw [List.range'_1_concat, List.foldl_append, List.foldl_cons, List.foldl_nil]
      refine ⟨by rw [length_rotateBit, hlen], fun k hk => ?_⟩
      rw [getBit_rotateBit (by omega), Bool.and_eq_true, Bool.or_eq_true, Bool.and_eq_true,
        decide_eq_true_iff, decide_eq_true_iff] at hk
      obtain ⟨hk | ⟨-, hk⟩, hne⟩ := hk
      · have := hbits k hk
        omega
      · omega
  intro k hk
  have := (key n le_rfl).2 k hk
  omega

lemma onlyBits_dcmCronParseSetMonths {targ : Bits} (h : OnlyBits targ 1 13)
    (hlen : targ.length = 2) (value : List Char) :
    OnlyBits (dcmCronParseSetMonths value targ).2 0 12 := by
  simp only [dcmCronParseSetMonths]
  apply onlyBits_foldl_rotateBit
  · exact onlyBits_dcmCronParseSetNumberHits h (by rw [hlen]; norm_num) (by decide) _
  · rw [length_dcmCronParseSetNumberHits, hlen]
    norm_num

lemma onlyBits_dcmCronParseSetDaysOfWeek {targ : Bits} (h : OnlyBits targ 0 8)
    (hlen : targ.length = 1) (field : List Char) :
    OnlyBits (dcmCronParseSetDaysOfWeek field targ).2 0 7 := by
  simp only [dcmCronParseSetDaysOfWeek]
  generalize dcmCronParseReplaceOrdinals (dcmCronParseToUpper (questionMark field)) daysArr =
    replaced
  have hbits := onlyBits_dcmCronParseSetNumberHits h (by rw [hlen]) (by decide) replaced
  have hlen' := (length_dcmCronParseSetNumberHits replaced targ 0 8).trans hlen
  split_ifs with hsunday
  · intro j hj
    rw [getBit_delBit (by rw [length_dcmCronParseSetBit, hlen']; norm_num),
      getBit_setBit (by rw [hlen']; norm_num), Bool.and_eq_true, Bool.or_eq_true,
      decide_eq_true_iff, decide_eq_true_iff] at hj
    obtain ⟨hj | rfl, hne⟩ := hj
    · have := hbits j hj
      omega
    · omega
  · intro j hj
    have hlt := hbits j hj
    have hne : j ≠ 7 := by
      rintro rfl
      exact hsunday hj
    omega

/-! ### Patterns -/

lemma onlyBits_setSeconds (field : Option (List Char)) :
    OnlyBits (setSeconds field .zero).2.seconds 0 60 := by
  cases field with
  | some field =>
    exact onlyBits_dcmCronParseSetNumberHits (onlyBits_replicate 8 0 60) (by decide) (by decide) _
  | none =>
    intro i hi
    have heq : (setSeconds none .zero).2.seconds = dcmCronParseSetBit (List.replicate 8 0) 0 := by
      decide
    rw [heq, getBit_setBit (by decide), Bool.or_eq_true, decide_eq_true_iff] at hi
    rcases hi with hi | rfl
    · exact onlyBits_replicate 8 0 60 i hi
    · decide

lemma inRange_parseFields {seconds : Option (List Char)}
    {minutes hours daysOfMonth months daysOfWeek : List Char}
    (h : (parseFields seconds minutes hours daysOfMonth months daysOfWeek).1 = true) :
    (parseFields seconds minutes hours daysOfMonth months daysOfWeek).2.InRange := by
  rw [(fieldsAccepted h).eq]
  exact
    { seconds := onlyBits_setSeconds seconds
      minutes := onlyBits_dcmCronParseSetNumberHits (onlyBits_replicate 8 0 60) (by decide)
        (by decide) minutes
      hours := onlyBits_dcmCronParseSetNumberHits (onlyBits_replicate 3 0 24) (by decide)
        (by decide) hours
      daysOfMonth := onlyBits_dcmCronParseSetNumberHits (onlyBits_replicate 4 1 32) (by decide)
        (by decide) _
      months := onlyBits_dcmCronParseSetMonths (onlyBits_replicate 2 1 13) rfl months
      daysOfWeek := onlyBits_dcmCronParseSetDaysOfWeek (onlyBits_replicate 1 0 8) rfl daysOfWeek }

lemma inRange_of_accepted {expression : List Char} {target : DcmCronExpr}
    (h : (dcmCronParseExp expression target).1 = true) :
    (dcmCronParseExp expression target).2.InRange := by
  unfold dcmCronParseExp at h ⊢
  split at h
  · exact inRange_parseFields h
  · exact inRange_parseFields h
  · cases h

/-- **Parsed patterns.** Whatever the text, the parser stays in its arrays and its loops end with
no counter wrapped. What it accepts has a bit in each of its six sets, and only bits in the range
of each. -/
theorem dcmCronParseExp_inBounds (expression : List Char) (target : DcmCronExpr) :
    dcmCronParseExpIn expression target = some (dcmCronParseExp expression target) ∧
      ((dcmCronParseExp expression target).1 = true →
        (dcmCronParseExp expression target).2.WellFormed ∧
          (dcmCronParseExp expression target).2.InRange) :=
  ⟨dcmCronParseExpIn_eq expression target,
    fun h => ⟨wellFormed_of_accepted h, inRange_of_accepted h⟩⟩

/-- Every second Sunday of a list with the greatest step. -/
theorem greatest_step_inBounds :
    (dcmCronParseExp "0/2147483647 0 ? JAN-DEC 7".toList .zero).2.InRange :=
  ((dcmCronParseExp_inBounds _ .zero).2 (by decide +kernel)).2

end DcmAgent.Cron
