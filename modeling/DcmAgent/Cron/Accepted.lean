import Mathlib.Tactic
import DcmAgent.Cron.Parse

/-!
# Accepted patterns

What the parser guarantees of a pattern that it accepts: each of its bit sets has a bit in the
range of its field.
-/

namespace DcmAgent.Cron

/-! ### Bit sets -/

@[simp] lemma length_dcmCronParseSetBit (r : Bits) (i : ℕ) :
    (dcmCronParseSetBit r i).length = r.length := by simp [dcmCronParseSetBit]

@[simp] lemma length_dcmCronParseDelBit (r : Bits) (i : ℕ) :
    (dcmCronParseDelBit r i).length = r.length := by simp [dcmCronParseDelBit]

lemma getLsbD_one_shiftLeft : ∀ a b : Fin 8, (1#8 <<< a.val).getLsbD b.val = decide (b = a) := by
  decide

/-- The mask of bit `i` within its byte. -/
lemma getLsbD_mask {i j : ℕ} (hb : i / 8 = j / 8) :
    (1#8 <<< (i % 8)).getLsbD (j % 8) = decide (j = i) := by
  have h := getLsbD_one_shiftLeft ⟨i % 8, Nat.mod_lt _ (by norm_num)⟩
    ⟨j % 8, Nat.mod_lt _ (by norm_num)⟩
  rw [h]
  exact decide_eq_decide.mpr (Fin.mk.inj_iff.trans (by omega))

/-- Changing the byte of bit `i`. -/
lemma getBit_modify {r : Bits} {i : ℕ} (hi : i < 8 * r.length) (f : BitVec 8 → BitVec 8) (j : ℕ) :
    dcmCronParseGetBit (r.modify (i / 8) f) j =
      if i / 8 = j / 8 then (f (r.getD (j / 8) 0)).getLsbD (j % 8)
      else dcmCronParseGetBit r j := by
  split_ifs with hb
  · have hj : j / 8 < r.length := by omega
    simp [dcmCronParseGetBit, List.getD_eq_getElem?_getD, hb, hj]
  · simp [dcmCronParseGetBit, List.getD_eq_getElem?_getD, hb]

lemma getBit_setBit {r : Bits} {i : ℕ} (hi : i < 8 * r.length) (j : ℕ) :
    dcmCronParseGetBit (dcmCronParseSetBit r i) j =
      (dcmCronParseGetBit r j || decide (j = i)) := by
  rw [dcmCronParseSetBit, getBit_modify hi]
  split_ifs with hb
  · rw [BitVec.getLsbD_or, getLsbD_mask hb, dcmCronParseGetBit]
  · have hne : j ≠ i := fun h => hb (by rw [h])
    simp [hne]

lemma getBit_delBit {r : Bits} {i : ℕ} (hi : i < 8 * r.length) (j : ℕ) :
    dcmCronParseGetBit (dcmCronParseDelBit r i) j =
      (dcmCronParseGetBit r j && decide (j ≠ i)) := by
  have hmod : j % 8 < 8 := Nat.mod_lt _ (by norm_num)
  rw [dcmCronParseDelBit, getBit_modify hi]
  split_ifs with hb
  · rw [BitVec.getLsbD_and, BitVec.getLsbD_not, getLsbD_mask hb, dcmCronParseGetBit]
    simp [hmod]
  · have hne : j ≠ i := fun h => hb (by rw [h])
    simp [hne]

/-- A bit set is determined by the bits that it has room for. -/
lemma getBit_iff_of_lt {bits : Bits} {P : ℕ → Prop}
    (hlow : ∀ n : Fin (8 * bits.length), dcmCronParseGetBit bits n = true ↔ P n)
    (hhigh : ∀ n, P n → n < 8 * bits.length) (n : ℕ) :
    dcmCronParseGetBit bits n = true ↔ P n := by
  by_cases hn : n < 8 * bits.length
  · exact hlow ⟨n, hn⟩
  · refine iff_of_false ?_ fun hP => hn (hhigh n hP)
    have hge : bits.length ≤ n / 8 := by omega
    simp [dcmCronParseGetBit, List.getD_eq_getElem?_getD, hge]

/-- The set has a bit in `[lo, hi)`. -/
def HasBit (r : Bits) (lo hi : ℕ) : Prop := ∃ i, lo ≤ i ∧ i < hi ∧ dcmCronParseGetBit r i = true

/-! ### Fields -/

lemma length_fillRange (hi delta fuel i1 : ℕ) (target : Bits) :
    (fillRange hi delta fuel i1 target).length = target.length := by
  induction fuel generalizing i1 target with
  | zero => rfl
  | succ fuel ih =>
    rw [fillRange]
    split_ifs
    · rw [ih, length_dcmCronParseSetBit]
    · rfl

/-- Filling keeps the bits that are set. -/
lemma getBit_fillRange {hi : ℕ} {target : Bits} (hlen : hi < 8 * target.length)
    (delta fuel i1 : ℕ) {j : ℕ} (hj : dcmCronParseGetBit target j = true) :
    dcmCronParseGetBit (fillRange hi delta fuel i1 target) j = true := by
  induction fuel generalizing i1 target with
  | zero => exact hj
  | succ fuel ih =>
    rw [fillRange]
    split_ifs with h
    · refine ih (by rwa [length_dcmCronParseSetBit]) _ ?_
      rw [getBit_setBit (by omega), hj, Bool.true_or]
    · exact hj

/-- Filling sets the first bit of the range. -/
lemma getBit_fillRange_first {lo hi : ℕ} {target : Bits} (hlen : hi < 8 * target.length)
    (hle : lo ≤ hi) (delta : ℕ) {fuel : ℕ} (hfuel : 0 < fuel) :
    dcmCronParseGetBit (fillRange hi delta fuel lo target) lo = true := by
  obtain ⟨fuel, rfl⟩ : ∃ k, fuel = k + 1 := ⟨fuel - 1, by omega⟩
  rw [fillRange, if_pos hle]
  refine getBit_fillRange (by rwa [length_dcmCronParseSetBit]) _ _ _ ?_
  rw [getBit_setBit (by omega)]
  simp

lemma dcmCronParseGetRange_eq_some {field : List Char} {min max : ℕ} {res : ℕ × ℕ}
    (h : dcmCronParseGetRange field min max = some res) :
    min ≤ res.1 ∧ res.1 ≤ res.2 ∧ res.2 < max := by
  rw [dcmCronParseGetRange, Option.bind_eq_some_iff] at h
  obtain ⟨res', -, h⟩ := h
  split_ifs at h
  obtain rfl := Option.some.inj h
  omega

lemma itemRange_eq_some {item : List Char} {min max lo hi delta : ℕ}
    (h : itemRange item min max = some ((lo, hi), delta)) :
    min ≤ lo ∧ lo ≤ hi ∧ hi < max ∧ 0 < delta := by
  rw [itemRange] at h
  split_ifs at h with hslash
  · split at h
    · rename_i first step _
      simp only [Option.bind_eq_bind, Option.bind_eq_some_iff] at h
      obtain ⟨⟨lo', hi'⟩, hrange, delta', -, h⟩ := h
      have := dcmCronParseGetRange_eq_some hrange
      split_ifs at h <;> simp only [Option.some.injEq, Prod.mk.injEq] at h <;> omega
    · cases h
  · obtain ⟨range, hrange, heq⟩ := Option.map_eq_some_iff.mp h
    obtain ⟨rfl, rfl⟩ := Prod.mk.inj heq
    have := dcmCronParseGetRange_eq_some hrange
    omega

lemma length_setItems (min max : ℕ) (items : List (List Char)) (target : Bits) :
    (setItems min max items target).2.length = target.length := by
  induction items generalizing target with
  | nil => rfl
  | cons item items ih =>
    rw [setItems]
    split
    · rfl
    · rw [ih, length_fillRange]

lemma getBit_setItems {min max : ℕ} {target : Bits} (hlen : max ≤ 8 * target.length)
    (items : List (List Char)) {j : ℕ} (hj : dcmCronParseGetBit target j = true) :
    dcmCronParseGetBit (setItems min max items target).2 j = true := by
  induction items generalizing target with
  | nil => exact hj
  | cons item items ih =>
    rw [setItems]
    split
    · exact hj
    · rename_i range delta hrange
      obtain ⟨lo, hi⟩ := range
      have := itemRange_eq_some hrange
      refine ih (by rwa [length_fillRange]) ?_
      exact getBit_fillRange (by dsimp only; omega) _ _ _ hj

/-- A field that is accepted sets a bit in its range. -/
lemma hasBit_dcmCronParseSetNumberHits {value : List Char} {target : Bits} {min max : ℕ}
    (hlen : max ≤ 8 * target.length)
    (h : (dcmCronParseSetNumberHits value target min max).1 = true) :
    HasBit (dcmCronParseSetNumberHits value target min max).2 min max := by
  rw [dcmCronParseSetNumberHits] at h ⊢
  by_cases hne : dcmCronParseStrSplit value ',' = []
  · simp [hne] at h
  obtain ⟨item, items, hitems⟩ := List.exists_cons_of_ne_nil hne
  simp only [hitems, reduceCtorEq, if_false, setItems] at h ⊢
  split at h
  · cases h
  · rename_i range delta hrange
    obtain ⟨lo, hi⟩ := range
    obtain ⟨hmin, hle, hmax, -⟩ := itemRange_eq_some hrange
    have hhi : hi < 8 * target.length := by omega
    refine ⟨lo, hmin, by omega, ?_⟩
    refine getBit_setItems (by rwa [length_fillRange]) items ?_
    exact getBit_fillRange_first hhi hle delta (by omega)

lemma length_dcmCronParseSetNumberHits (value : List Char) (target : Bits) (min max : ℕ) :
    (dcmCronParseSetNumberHits value target min max).2.length = target.length := by
  simp only [dcmCronParseSetNumberHits]
  split_ifs
  · rfl
  · exact length_setItems _ _ _ _

/-! ### Months and days -/

@[simp] lemma length_rotateBit (r : Bits) (i : ℕ) : (rotateBit r i).length = r.length := by
  unfold rotateBit
  split_ifs <;> simp

lemma getBit_rotateBit {r : Bits} {i : ℕ} (hi : i < 8 * r.length) (j : ℕ) :
    dcmCronParseGetBit (rotateBit r i) j =
      ((dcmCronParseGetBit r j || (dcmCronParseGetBit r i && decide (j = i - 1))) &&
        decide (j ≠ i)) := by
  unfold rotateBit
  split_ifs with h
  · rw [getBit_delBit (by simpa using hi), getBit_setBit (by omega), h, Bool.true_and]
  · have hf : dcmCronParseGetBit r i = false := by simpa using h
    by_cases hj : j = i
    · simp [hj, hf]
    · simp [hf, hj]

/-- Rotating the bits `1, …, n` shifts them down by one. -/
lemma getBit_foldl_rotateBit {r : Bits} {n : ℕ} (hn : n < 8 * r.length) {j : ℕ} (hj : j < n)
    (hbit : dcmCronParseGetBit r (j + 1) = true) :
    dcmCronParseGetBit ((List.range' 1 n).foldl rotateBit r) j = true := by
  -- the bits that have not been reached are as before
  have key : ∀ m, m ≤ n → ((List.range' 1 m).foldl rotateBit r).length = r.length ∧
      (∀ k, m < k → dcmCronParseGetBit ((List.range' 1 m).foldl rotateBit r) k =
        dcmCronParseGetBit r k) ∧
      (j < m → dcmCronParseGetBit ((List.range' 1 m).foldl rotateBit r) j = true) := by
    intro m hm
    induction m with
    | zero => simp
    | succ m ih =>
      obtain ⟨hlen, hrest, hdone⟩ := ih (by omega)
      rw [List.range'_1_concat, List.foldl_append, List.foldl_cons, List.foldl_nil]
      refine ⟨by rw [length_rotateBit, hlen], fun k hk => ?_, fun hjm => ?_⟩
      · rw [getBit_rotateBit (by omega), hrest k (by omega)]
        have h₁ : k ≠ 1 + m - 1 := by omega
        have h₂ : k ≠ 1 + m := by omega
        simp [h₂]
        omega
      · rw [getBit_rotateBit (by omega)]
        have h₂ : j ≠ 1 + m := by omega
        by_cases hjm' : j < m
        · simp [hdone hjm', h₂]
        · obtain rfl : j = m := by omega
          rw [hrest (1 + j) (by omega), Nat.add_comm 1 j, hbit]
          simp
  exact (key n le_rfl).2.2 hj

lemma hasBit_dcmCronParseSetMonths {value : List Char} {targ : Bits} (hlen : targ.length = 2)
    (h : (dcmCronParseSetMonths value targ).1 = true) :
    HasBit (dcmCronParseSetMonths value targ).2 0 12 := by
  simp only [dcmCronParseSetMonths] at h ⊢
  generalize dcmCronParseReplaceOrdinals (dcmCronParseToUpper value) monthsArr = replaced at h ⊢
  obtain ⟨i, hlo, hhi, hbit⟩ := hasBit_dcmCronParseSetNumberHits (by rw [hlen]; norm_num) h
  obtain ⟨j, rfl⟩ : ∃ j, i = j + 1 := ⟨i - 1, by omega⟩
  refine ⟨j, Nat.zero_le _, by omega, getBit_foldl_rotateBit ?_ (by omega) hbit⟩
  rw [length_dcmCronParseSetNumberHits, hlen]
  norm_num

lemma hasBit_dcmCronParseSetDaysOfWeek {field : List Char} {targ : Bits} (hlen : targ.length = 1)
    (h : (dcmCronParseSetDaysOfWeek field targ).1 = true) :
    HasBit (dcmCronParseSetDaysOfWeek field targ).2 0 7 := by
  simp only [dcmCronParseSetDaysOfWeek] at h ⊢
  generalize dcmCronParseReplaceOrdinals (dcmCronParseToUpper (questionMark field)) daysArr =
    replaced at h ⊢
  obtain ⟨i, -, hhi, hbit⟩ := hasBit_dcmCronParseSetNumberHits (by rw [hlen]) h
  have hlen' := (length_dcmCronParseSetNumberHits replaced targ 0 8).trans hlen
  split_ifs with hsunday
  · refine ⟨0, le_rfl, by norm_num, ?_⟩
    rw [getBit_delBit (by rw [length_dcmCronParseSetBit, hlen']; norm_num),
      getBit_setBit (by rw [hlen']; norm_num)]
    simp
  · refine ⟨i, Nat.zero_le _, ?_, hbit⟩
    by_contra hi
    obtain rfl : i = 7 := by omega
    exact hsunday hbit

lemma hasBit_dcmCronParseSetDaysOfMonth {field : List Char} {targ : Bits} (hlen : targ.length = 4)
    (h : (dcmCronParseSetDaysOfMonth field targ).1 = true) :
    HasBit (dcmCronParseSetDaysOfMonth field targ).2 1 32 :=
  hasBit_dcmCronParseSetNumberHits (by rw [hlen]; rfl) h

/-! ### Patterns -/

/-- Every set has a bit in the range of its field. -/
structure DcmCronExpr.WellFormed (e : DcmCronExpr) : Prop where
  seconds : HasBit e.seconds 0 60
  minutes : HasBit e.minutes 0 60
  hours : HasBit e.hours 0 24
  daysOfMonth : HasBit e.daysOfMonth 1 32
  months : HasBit e.months 0 12
  daysOfWeek : HasBit e.daysOfWeek 0 7

lemma andThen_eq_true {r : Bool × DcmCronExpr} {next : DcmCronExpr → Bool × DcmCronExpr} :
    (andThen r next).1 = true ↔ r.1 = true ∧ (next r.2).1 = true := by
  unfold andThen
  split_ifs with h <;> simp [h]

lemma andThen_snd {r : Bool × DcmCronExpr} {next : DcmCronExpr → Bool × DcmCronExpr}
    (h : r.1 = true) : (andThen r next).2 = (next r.2).2 := by rw [andThen, if_pos h]

lemma hasBit_setSeconds {field : Option (List Char)} (h : (setSeconds field .zero).1 = true) :
    HasBit (setSeconds field .zero).2.seconds 0 60 := by
  cases field with
  | some field => exact hasBit_dcmCronParseSetNumberHits (by decide) h
  | none => exact ⟨0, le_rfl, by norm_num, by decide⟩

lemma setSeconds_snd (field : Option (List Char)) :
    ∃ s, (setSeconds field .zero).2 = { DcmCronExpr.zero with seconds := s } := by
  cases field <;> exact ⟨_, rfl⟩

/-- What the fields of an accepted pattern give, each in its own cleared array. -/
structure FieldsAccepted (seconds : Option (List Char))
    (minutes hours daysOfMonth months daysOfWeek : List Char) : Prop where
  eq : (parseFields seconds minutes hours daysOfMonth months daysOfWeek).2 =
    { seconds := (setSeconds seconds .zero).2.seconds
      minutes := (dcmCronParseSetNumberHits minutes DcmCronExpr.zero.minutes 0 60).2
      hours := (dcmCronParseSetNumberHits hours DcmCronExpr.zero.hours 0 24).2
      daysOfMonth := (dcmCronParseSetDaysOfMonth daysOfMonth DcmCronExpr.zero.daysOfMonth).2
      months := (dcmCronParseSetMonths months DcmCronExpr.zero.months).2
      daysOfWeek := (dcmCronParseSetDaysOfWeek daysOfWeek DcmCronExpr.zero.daysOfWeek).2 }
  seconds : (setSeconds seconds .zero).1 = true
  minutes : (dcmCronParseSetNumberHits minutes DcmCronExpr.zero.minutes 0 60).1 = true
  hours : (dcmCronParseSetNumberHits hours DcmCronExpr.zero.hours 0 24).1 = true
  daysOfMonth : (dcmCronParseSetDaysOfMonth daysOfMonth DcmCronExpr.zero.daysOfMonth).1 = true
  months : (dcmCronParseSetMonths months DcmCronExpr.zero.months).1 = true
  daysOfWeek : (dcmCronParseSetDaysOfWeek daysOfWeek DcmCronExpr.zero.daysOfWeek).1 = true

lemma fieldsAccepted {seconds : Option (List Char)}
    {minutes hours daysOfMonth months daysOfWeek : List Char}
    (h : (parseFields seconds minutes hours daysOfMonth months daysOfWeek).1 = true) :
    FieldsAccepted seconds minutes hours daysOfMonth months daysOfWeek := by
  simp only [parseFields] at h
  obtain ⟨h₅, h₆⟩ := andThen_eq_true.mp h
  obtain ⟨h₄, h₅'⟩ := andThen_eq_true.mp h₅
  obtain ⟨h₃, h₄'⟩ := andThen_eq_true.mp h₄
  obtain ⟨h₂, h₃'⟩ := andThen_eq_true.mp h₃
  obtain ⟨h₁, h₂'⟩ := andThen_eq_true.mp h₂
  have hparse := @andThen_snd _ (setDaysOfWeek daysOfWeek) h₅
  simp only [andThen_snd h₄, andThen_snd h₃, andThen_snd h₂, andThen_snd h₁]
    at h₂' h₃' h₄' h₅' h₆ hparse
  obtain ⟨s, hs⟩ := setSeconds_snd seconds
  simp only [hs, setMinutes, setHours, setDaysOfMonth, setMonths, setDaysOfWeek]
    at h₂' h₃' h₄' h₅' h₆ hparse
  refine ⟨?_, h₁, h₂', h₃', h₄', h₅', h₆⟩
  rw [hs]
  exact hparse

lemma wellFormed_parseFields {seconds : Option (List Char)}
    {minutes hours daysOfMonth months daysOfWeek : List Char}
    (h : (parseFields seconds minutes hours daysOfMonth months daysOfWeek).1 = true) :
    (parseFields seconds minutes hours daysOfMonth months daysOfWeek).2.WellFormed := by
  have hfields := fieldsAccepted h
  rw [hfields.eq]
  exact
    { seconds := hasBit_setSeconds hfields.seconds
      minutes := hasBit_dcmCronParseSetNumberHits (by decide) hfields.minutes
      hours := hasBit_dcmCronParseSetNumberHits (by decide) hfields.hours
      daysOfMonth := hasBit_dcmCronParseSetDaysOfMonth rfl hfields.daysOfMonth
      months := hasBit_dcmCronParseSetMonths rfl hfields.months
      daysOfWeek := hasBit_dcmCronParseSetDaysOfWeek rfl hfields.daysOfWeek }

/-- An accepted pattern is well formed, whatever the target held before. -/
theorem wellFormed_of_accepted {expression : List Char} {target : DcmCronExpr}
    (h : (dcmCronParseExp expression target).1 = true) :
    (dcmCronParseExp expression target).2.WellFormed := by
  unfold dcmCronParseExp at h ⊢
  split at h
  · exact wellFormed_parseFields h
  · exact wellFormed_parseFields h
  · cases h

end DcmAgent.Cron
