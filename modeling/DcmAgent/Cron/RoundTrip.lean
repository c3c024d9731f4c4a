import Mathlib
import DcmAgent.Cron.Numeric

/-!
# Parsing what has been rendered

The parser accepts the text of a cron expression that is not too long, and its bit sets are what
the expression stands for. The one thing that it refuses is a step that is no `int`.
-/

namespace DcmAgent.Cron

variable {k : FieldKind} {c : Char} {n : ℕ} {ts : List Token}

/-! ### Tokens of a field -/

def Value.tokens (v : Value k) : List Token :=
  if v.spelling.isSome then [.word v.val] else (decimal v.val).map .char

def Span.tokens : Span k → List Token
  | .all => [.char '*']
  | .single v => v.tokens
  | .range v w _ => v.tokens ++ .char '-' :: w.tokens

def Item.tokens (i : Item k) : List Token :=
  i.span.tokens ++ i.step.elim [] fun d => .char '/' :: (decimal d).map .char

def FieldExp.tokens (x : FieldExp k) : List Token :=
  [.char ','].intercalate (x.items.map Item.tokens)

/-- Three capital letters each, no two alike, and no more than a hundred. -/
structure FieldKind.HasWords (k : FieldKind) : Prop where
  isWord : ∀ w ∈ k.words, IsWord w
  nodup : k.words.Nodup
  length_le : k.words.length ≤ 100

lemma spell_chars (words : List (List Char)) (n : ℕ) (s : List Char) :
    spell words n (s.map .char) = s := by
  induction s with
  | nil => rfl
  | cons c s ih => simp [Token.spell, ih]

lemma map_intercalate {α β : Type*} {h : List α → List β} (hnil : h [] = [])
    (happend : ∀ a b, h (a ++ b) = h a ++ h b) (sep : List α) (ps : List (List α)) :
    h (sep.intercalate ps) = (h sep).intercalate (ps.map h) := by
  induction ps with
  | nil => simpa using hnil
  | cons p ps ih =>
    cases ps with
    | nil => simp
    | cons q ps =>
      rw [List.map_cons] at ih
      rw [List.intercalate_cons_cons, happend, happend, ih, List.map_cons, List.map_cons,
        List.intercalate_cons_cons]

/-- The tokens are spelled like the values. -/
lemma spell_tokens {words : List (List Char)} {f : Value k → List Char}
    (hf : ∀ v : Value k, spell words n v.tokens = f v) (x : FieldExp k) :
    spell words n x.tokens = x.textWith f := by
  have hspan : ∀ s : Span k, spell words n s.tokens = s.textWith f := by
    intro s
    cases s with
    | all => rfl
    | single v => exact hf v
    | range v w le =>
      simp only [Span.tokens, Span.textWith, spell_append, spell_cons, hf]
      rfl
  have hitem : ∀ i : Item k, spell words n i.tokens = i.textWith f := by
    rintro ⟨s, step, hpos⟩
    cases step with
    | none => simp [Item.tokens, Item.textWith, hspan]
    | some d =>
      simp only [Item.tokens, Item.textWith, spell_append, hspan, Option.elim_some, spell_cons,
        spell_chars]
      rfl
  rw [FieldExp.tokens, map_intercalate spell_nil (fun _ _ => spell_append), List.map_map]
  congr 1
  exact List.map_congr_left fun i _ => hitem i

lemma toUpper_of_isDigit (hc : c.isDigit = true) : c.toUpper = c := by
  have hdigit := toNat_of_isDigit hc
  have hge : ¬(c.val ≥ 'a'.val ∧ c.val ≤ 'z'.val) := by
    simp only [ge_iff_le, UInt32.le_iff_toNat_le]
    intro h
    have h' : 97 ≤ c.toNat := h.1
    omega
  rw [Char.toUpper, dif_neg hge]

lemma toUpper_decimal (n : ℕ) : (decimal n).map Char.toUpper = decimal n := by
  refine (List.map_congr_left fun c hc => ?_).trans (List.map_id _)
  exact toUpper_of_isDigit (isDigit_of_mem_decimal hc)

/-- Only the values are written in different cases. -/
lemma toUpper_textWith (f : Value k → List Char) (x : FieldExp k) :
    (x.textWith f).map Char.toUpper = x.textWith fun v => (f v).map Char.toUpper := by
  have hitem : ∀ i : Item k,
      (i.textWith f).map Char.toUpper = i.textWith fun v => (f v).map Char.toUpper := by
    rintro ⟨s, step, hpos⟩
    have hstep : (step.elim [] fun d => '/' :: decimal d).map Char.toUpper =
        step.elim [] fun d => '/' :: decimal d := by
      cases step with
      | none => rfl
      | some d =>
        rw [Option.elim_some, List.map_cons, toUpper_decimal]
        rfl
    rw [Item.textWith, Item.textWith, List.map_append, hstep]
    congr 1
    cases s with
    | all => rfl
    | single v => rfl
    | range v w le =>
      rw [Span.textWith, List.map_append, List.map_cons]
      rfl
  rw [FieldExp.textWith, map_intercalate (h := List.map Char.toUpper) rfl
    (fun _ _ => List.map_append), List.map_map]
  have hcomma : [','].map Char.toUpper = [','] := by decide
  rw [hcomma]
  congr 1
  exact List.map_congr_left fun i _ => hitem i

/-! ### Names -/

lemma spell_value_tokens (v : Value k) :
    spell k.words 0 v.tokens = v.text.map Char.toUpper := by
  cases hspell : v.spelling with
  | none => simp [Value.tokens, Value.text, hspell, spell_chars, toUpper_decimal]
  | some s =>
    have hword := v.spelled s hspell
    simp [Value.tokens, Value.text, hspell, Token.spell, hword]

lemma spell_value_tokens_number (v : Value k) :
    spell k.words k.words.length v.tokens = v.number := by
  cases hspell : v.spelling with
  | none => simp [Value.tokens, Value.number, hspell, spell_chars]
  | some s =>
    obtain ⟨hlt, -⟩ := List.getElem?_eq_some_iff.mp (v.spelled s hspell)
    simp [Value.tokens, Value.number, hspell, Token.spell, hlt]

lemma Spaced.chars {words : List (List Char)} {s : List Char} (hs : ∀ c ∈ s, c.isUpper = false)
    (hts : Spaced words ts) : Spaced words (s.map .char ++ ts) := by
  induction s with
  | nil => exact hts
  | cons c s ih =>
    exact .char (hs c List.mem_cons_self) (ih fun c hc => hs c (List.mem_cons_of_mem _ hc))

lemma not_isUpper_decimal (n : ℕ) : ∀ c ∈ decimal n, c.isUpper = false := fun _ hc =>
  not_isUpper_of_isDigit (isDigit_of_mem_decimal hc)

lemma Value.spaced (v : Value k) (hstart : ∀ j, ts.head? ≠ some (.word j))
    (hts : Spaced k.words ts) : Spaced k.words (v.tokens ++ ts) := by
  cases hspell : v.spelling with
  | none =>
    have htokens : v.tokens = (decimal v.val).map .char := by simp [Value.tokens, hspell]
    rw [htokens]
    exact hts.chars (not_isUpper_decimal v.val)
  | some s =>
    obtain ⟨hlt, -⟩ := List.getElem?_eq_some_iff.mp (v.spelled s hspell)
    have htokens : v.tokens = [.word v.val] := by simp [Value.tokens, hspell]
    rw [htokens]
    exact .word hlt hstart hts

lemma Item.spaced (i : Item k) (hstart : ∀ j, ts.head? ≠ some (.word j))
    (hts : Spaced k.words ts) : Spaced k.words (i.tokens ++ ts) := by
  obtain ⟨s, step, hpos⟩ := i
  rw [Item.tokens, List.append_assoc]
  dsimp only
  generalize hrest : (step.elim [] fun d => Token.char '/' :: (decimal d).map .char) ++ ts = rest
  have hstart' : ∀ j, rest.head? ≠ some (.word j) := by
    subst hrest
    cases step with
    | none => exact hstart
    | some d => simp
  have hts' : Spaced k.words rest := by
    subst hrest
    cases step with
    | none => exact hts
    | some d => exact .char (by decide) (hts.chars (not_isUpper_decimal d))
  cases s with
  | all => exact .char (by decide) hts'
  | single v => exact v.spaced hstart' hts'
  | range v w le =>
    rw [Span.tokens, List.append_assoc]
    exact v.spaced (by simp) (.char (by decide) (w.spaced hstart' hts'))

/-- Values are separated by other characters. -/
lemma spaced_tokens (x : FieldExp k) : Spaced k.words x.tokens := by
  rw [FieldExp.tokens]
  induction x.items with
  | nil => exact .nil
  | cons i items ih =>
    cases items with
    | nil =>
      have h : Spaced k.words (i.tokens ++ []) := i.spaced (by simp) .nil
      simpa using h
    | cons j items =>
      rw [List.map_cons, List.map_cons, List.intercalate_cons_cons, List.append_assoc]
      exact i.spaced (by simp) (.char (by decide) ih)

/-- No number is longer than the name that it replaces. -/
lemma FieldExp.length_number_le (hk : k.HasWords) (x : FieldExp k) :
    (x.textWith Value.number).length ≤ x.text.length := by
  have htext : x.text.length = (spell k.words 0 x.tokens).length := by
    rw [spell_tokens spell_value_tokens, ← toUpper_textWith, List.length_map, FieldExp.text]
  rw [htext, ← spell_tokens spell_value_tokens_number]
  have hspaced := spaced_tokens x
  generalize x.tokens = ts at hspaced
  induction hspaced with
  | nil => exact le_rfl
  | char _ _ ih => simpa [Token.spell] using ih
  | @word i ts hi _ _ ih =>
    have hword : ((Token.word i).spell k.words 0).length = 3 := by
      rw [spell_word hi (Nat.zero_le i)]
      exact (hk.isWord _ (List.getElem_mem hi)).length_eq
    have hnumber : ((Token.word i).spell k.words k.words.length).length ≤ 2 := by
      have hspell : (Token.word i).spell k.words k.words.length = decimal i := if_pos hi
      have hle := hk.length_le
      rw [hspell, decimal, Nat.toList_repr, Nat.length_toDigits_le_iff (by norm_num) (by norm_num)]
      omega
    simp only [spell_cons, List.length_append]
    omega

/-- The names of a field are replaced by their numbers. -/
theorem dcmCronParseReplaceOrdinals_text (hk : k.HasWords) (x : FieldExp k) :
    dcmCronParseReplaceOrdinals (dcmCronParseToUpper x.text) k.words =
      x.textWith Value.number := by
  have hupper : dcmCronParseToUpper x.text = spell k.words 0 x.tokens := by
    rw [dcmCronParseToUpper, FieldExp.text, toUpper_textWith,
      spell_tokens spell_value_tokens]
  rw [hupper, dcmCronParseReplaceOrdinals_spell hk.isWord hk.nodup (spaced_tokens x),
    spell_tokens spell_value_tokens_number]

/-! ### Characters -/

/-- A letter of a name is no space and no question mark. -/
lemma plain_of_isUpper (hc : c.toUpper.isUpper = true) : isSpace c = false ∧ c ≠ '?' := by
  have hlow : c.toNat < 65 → c.toUpper.isUpper = false := by
    intro hlt
    have hno : ¬(c.val ≥ 'a'.val ∧ c.val ≤ 'z'.val) := by
      simp only [ge_iff_le, UInt32.le_iff_toNat_le]
      intro h
      have h' : 97 ≤ c.toNat := h.1
      omega
    rw [Char.toUpper, dif_neg hno]
    by_contra hupper
    simp [Char.isUpper, UInt32.le_iff_toNat_le] at hupper
    omega
  have hge : 65 ≤ c.toNat := by
    by_contra hlt
    exact Bool.false_ne_true ((hlow (not_le.mp hlt)).symm.trans hc)
  have hblank : c ≠ ' ' := by
    rintro rfl
    simp at hge
  refine ⟨?_, ?_⟩
  · simp only [isSpace, hblank, false_or, decide_eq_false_iff_not]
    omega
  · rintro rfl
    simp at hge

lemma plain_of_isDigit (hc : c.isDigit = true) : isSpace c = false ∧ c ≠ '?' := by
  refine ⟨not_isSpace_of_isDigit hc, ?_⟩
  rintro rfl
  simp at hc

lemma FieldExp.plain_text (hk : ∀ w ∈ k.words, IsWord w) (x : FieldExp k) :
    ∀ c ∈ x.text, isSpace c = false ∧ c ≠ '?' := by
  apply x.forall_mem_textWith _ (fun _ => plain_of_isDigit) (by decide) (by decide) (by decide)
    (by decide)
  intro v c hc
  cases hspell : v.spelling with
  | none =>
    rw [Value.text, hspell] at hc
    exact plain_of_isDigit (isDigit_of_mem_decimal hc)
  | some s =>
    obtain ⟨hlt, hword⟩ := List.getElem?_eq_some_iff.mp (v.spelled s hspell)
    rw [Value.text, hspell] at hc
    have hupper := (hk _ (List.getElem_mem hlt)).isUpper c.toUpper
    rw [hword] at hupper
    exact plain_of_isUpper (hupper (List.mem_map_of_mem hc))

/-! ### Fields -/

lemma getBit_replicate (m n : ℕ) : dcmCronParseGetBit (List.replicate m 0#8) n = false := by
  rw [dcmCronParseGetBit, List.getD_eq_getElem?_getD, List.getElem?_replicate]
  split_ifs <;> simp

/-- A field of numbers is written without names. -/
lemma FieldExp.text_eq_number (hk : k.words = []) (x : FieldExp k) :
    x.text = x.textWith Value.number := by
  have hvalue : (Value.text : Value k → List Char) = Value.number := by
    funext v
    cases hspell : v.spelling with
    | none => simp [Value.text, Value.number, hspell]
    | some s =>
      have hword := v.spelled s hspell
      simp [hk] at hword
  rw [FieldExp.text, hvalue]

lemma FieldExp.Hits.bounds (hk : k.Fits) {x : FieldExp k} (h : x.Hits n) :
    k.min ≤ n ∧ n ≤ k.max := by
  obtain ⟨i, -, h₁, h₂, -⟩ := h
  have := i.bounds_spec hk
  omega

/-- The bit set of a text of numbers. -/
lemma parse_number (hk : k.Fits) (x : FieldExp k) (hsteps : x.StepsFit)
    (hlen : (x.textWith Value.number).length < cronMaxStrLenToSplit) {m : ℕ} (hm : k.max < 8 * m) :
    ∃ bits, dcmCronParseSetNumberHits (x.textWith Value.number) (List.replicate m 0#8) k.min
        (k.max + 1) = (true, bits) ∧ bits.length = m ∧
      ∀ n, dcmCronParseGetBit bits n = true ↔ x.Hits n := by
  have htarget : k.max < 8 * (List.replicate m 0#8).length := by simpa using hm
  obtain ⟨hok, hbits⟩ := dcmCronParseSetNumberHits_textWith hk x hsteps hlen htarget
  refine ⟨_, Prod.ext hok rfl, ?_, ?_⟩
  · rw [length_dcmCronParseSetNumberHits, List.length_replicate]
  · intro n
    rw [hbits n, getBit_replicate]
    simp

/-- The bit set of a field that has no names. -/
lemma parse_plain_field (hk : k.Fits) (hwords : k.words = []) (x : FieldExp k)
    (hsteps : x.StepsFit) (hlen : x.text.length < cronMaxStrLenToSplit) {m : ℕ}
    (hm : k.max < 8 * m) :
    ∃ bits, dcmCronParseSetNumberHits x.text (List.replicate m 0#8) k.min (k.max + 1) =
        (true, bits) ∧ ∀ n, dcmCronParseGetBit bits n = true ↔ x.Hits n := by
  rw [x.text_eq_number hwords] at hlen ⊢
  obtain ⟨bits, hparse, -, hbits⟩ := parse_number hk x hsteps hlen hm
  exact ⟨bits, hparse, hbits⟩

/-- Rotating the bits `1, …, m` shifts them down by one. -/
lemma getBit_foldl_rotateBit_eq {r : Bits} {m : ℕ} (hm : m < 8 * r.length)
    (h0 : dcmCronParseGetBit r 0 = false) (j : ℕ) :
    dcmCronParseGetBit ((List.range' 1 m).foldl rotateBit r) j =
      if j < m then dcmCronParseGetBit r (j + 1)
      else if j = m then false else dcmCronParseGetBit r j := by
  have hlength : ∀ m, ((List.range' 1 m).foldl rotateBit r).length = r.length := by
    intro m
    induction m with
    | zero => rfl
    | succ m ih =>
      rw [List.range'_1_concat, List.foldl_append, List.foldl_cons, List.foldl_nil,
        length_rotateBit, ih]
  induction m generalizing j with
  | zero =>
    rcases Nat.eq_zero_or_pos j with rfl | hj
    · simpa using h0
    · simp [hj.ne']
  | succ m ih =>
    rw [List.range'_1_concat, List.foldl_append, List.foldl_cons, List.foldl_nil,
      getBit_rotateBit (by rw [hlength]; omega), ih (by omega), ih (by omega)]
    by_cases hj : j < m
    · simp [hj, show j < m + 1 by omega, show j ≠ 1 + m by omega, show j ≠ m by omega]
    · by_cases hjm : j = m
      · subst hjm
        simp [Nat.add_comm 1 j]
      · by_cases hjm' : j = m + 1
        · simp [hjm', Nat.add_comm 1 m]
        · simp [hj, hjm, hjm', show ¬j < m + 1 by omega, show j ≠ 1 + m by omega]

lemma isWord_of_all {words : List (List Char)}
    (h : (words.all fun w => decide (w.length = 3) && w.all Char.isUpper) = true) :
    ∀ w ∈ words, IsWord w := by
  intro w hw
  have hw := List.all_eq_true.mp h w hw
  rw [Bool.and_eq_true, decide_eq_true_eq, List.all_eq_true] at hw
  exact ⟨hw.1, hw.2⟩

lemma hasWords_months : months.HasWords :=
  ⟨isWord_of_all (by decide), by decide, by decide⟩

lemma hasWords_daysOfWeek : daysOfWeek.HasWords :=
  ⟨isWord_of_all (by decide), by decide, by decide⟩

lemma parse_months (x : FieldExp months) (hsteps : x.StepsFit)
    (hlen : x.text.length < cronMaxStrLenToSplit) :
    ∃ bits, dcmCronParseSetMonths x.text (List.replicate 2 0#8) = (true, bits) ∧
      ∀ n, dcmCronParseGetBit bits n = true ↔ x.Hits (n + 1) := by
  have hk : months.Fits := ⟨by decide, by decide⟩
  obtain ⟨bits, hparse, hlength, hbits⟩ := parse_number hk x hsteps
    ((x.length_number_le hasWords_months).trans_lt hlen) (m := 2) (by decide)
  have hreplaced : dcmCronParseReplaceOrdinals (dcmCronParseToUpper x.text) monthsArr = _ :=
    dcmCronParseReplaceOrdinals_text hasWords_months x
  have hno : ∀ n, n = 0 ∨ 12 < n → ¬x.Hits n := by
    intro n hn h
    have := h.bounds hk
    simp only [months] at this
    omega
  have h0 : dcmCronParseGetBit bits 0 = false := by
    rw [← Bool.not_eq_true, hbits]
    exact hno 0 (Or.inl rfl)
  refine ⟨(List.range' 1 12).foldl rotateBit bits, ?_, ?_⟩
  · change dcmCronParseSetNumberHits _ _ 1 13 = _ at hparse
    rw [dcmCronParseSetMonths, hreplaced, hparse]
  · intro n
    rw [getBit_foldl_rotateBit_eq (by omega) h0]
    split_ifs with hlt heq
    · exact hbits (n + 1)
    · simpa using hno (n + 1) (by omega)
    · rw [hbits]
      exact iff_of_false (hno n (by omega)) (hno (n + 1) (by omega))

/-- A field that is left open is read as a field of all values. -/
lemma questionMark_dayText (hk : ∀ w ∈ k.words, IsWord w) {x : Option (FieldExp k)}
    (hsteps : ∀ f ∈ x, f.StepsFit) (hlen : (dayText x).length < cronMaxStrLenToSplit) :
    ∃ y : FieldExp k, questionMark (dayText x) = y.text ∧ y.StepsFit ∧
      y.text.length < cronMaxStrLenToSplit ∧ ∀ n, y.Hits n ↔ dayHits x n := by
  cases x with
  | none =>
    refine ⟨⟨[⟨.all, none, by simp⟩], by simp⟩, rfl, ?_, hlen, ?_⟩
    · simp [FieldExp.StepsFit]
    · intro n
      simp [FieldExp.Hits, Item.Hits, Item.bounds, dayHits]
  | some y =>
    have hne : y.text ≠ ['?'] := by
      intro h
      exact (y.plain_text hk '?' (by simp [h])).2 rfl
    exact ⟨y, if_neg hne, hsteps y rfl, hlen, fun n => Iff.rfl⟩

lemma parse_daysOfMonth {x : Option (FieldExp daysOfMonth)} (hsteps : ∀ f ∈ x, f.StepsFit)
    (hlen : (dayText x).length < cronMaxStrLenToSplit) :
    ∃ bits, dcmCronParseSetDaysOfMonth (dayText x) (List.replicate 4 0#8) = (true, bits) ∧
      ∀ n, dcmCronParseGetBit bits n = true ↔ dayHits x n := by
  obtain ⟨y, htext, hfit, hylen, hhits⟩ :=
    questionMark_dayText (isWord_of_all (by decide)) hsteps hlen
  obtain ⟨bits, hparse, hbits⟩ := parse_plain_field (k := daysOfMonth) ⟨by decide, by decide⟩ rfl y
    hfit hylen (m := 4) (by decide)
  refine ⟨bits, ?_, fun n => (hbits n).trans (hhits n)⟩
  rw [dcmCronParseSetDaysOfMonth, htext]
  exact hparse

lemma parse_daysOfWeek {x : Option (FieldExp daysOfWeek)} (hsteps : ∀ f ∈ x, f.StepsFit)
    (hlen : (dayText x).length < cronMaxStrLenToSplit) :
    ∃ bits, dcmCronParseSetDaysOfWeek (dayText x) (List.replicate 1 0#8) = (true, bits) ∧
      ∀ n, dcmCronParseGetBit bits n = true ↔ ∃ d, dayHits x d ∧ n = d % 7 := by
  have hk : daysOfWeek.Fits := ⟨by decide, by decide⟩
  obtain ⟨y, htext, hfit, hylen, hhits⟩ :=
    questionMark_dayText hasWords_daysOfWeek.isWord hsteps hlen
  obtain ⟨bits, hparse, hlength, hbits⟩ := parse_number hk y hfit
    ((y.length_number_le hasWords_daysOfWeek).trans_lt hylen) (m := 1) (by decide)
  have hreplaced : dcmCronParseReplaceOrdinals (dcmCronParseToUpper y.text) daysArr = _ :=
    dcmCronParseReplaceOrdinals_text hasWords_daysOfWeek y
  change dcmCronParseSetNumberHits _ _ 0 8 = _ at hparse
  have hseven : ∀ n, dcmCronParseGetBit bits n = true → n ≤ 7 := by
    intro n hn
    exact (((hbits n).mp hn).bounds hk).2
  simp only [dcmCronParseSetDaysOfWeek, htext, hreplaced, hparse]
  refine ⟨_, rfl, ?_⟩
  intro n
  simp only [← hhits, ← hbits]
  split_ifs with hsunday
  · rw [getBit_delBit (by rw [length_dcmCronParseSetBit, hlength]; norm_num),
      getBit_setBit (by rw [hlength]; norm_num)]
    simp only [Bool.and_eq_true, Bool.or_eq_true, decide_eq_true_eq]
    constructor
    · rintro ⟨hn | rfl, hne⟩
      · have := hseven n hn
        exact ⟨n, hn, by omega⟩
      · exact ⟨7, hsunday, rfl⟩
    · rintro ⟨d, hd, rfl⟩
      have := hseven d hd
      by_cases hd7 : d = 7
      · exact ⟨Or.inr (by omega), by omega⟩
      · rw [Nat.mod_eq_of_lt (by omega)]
        exact ⟨Or.inl hd, hd7⟩
  · constructor
    · intro hn
      have hne : n ≠ 7 := fun h => hsunday (h ▸ hn)
      have := hseven n hn
      exact ⟨n, hn, by omega⟩
    · rintro ⟨d, hd, rfl⟩
      have hne : d ≠ 7 := fun h => hsunday (h ▸ hd)
      have := hseven d hd
      rwa [Nat.mod_eq_of_lt (by omega)]

/-! ### Expressions -/

lemma FieldExp.text_ne_nil (hk : ∀ w ∈ k.words, IsWord w) (x : FieldExp k) : x.text ≠ [] := by
  have hvalue : ∀ v : Value k, v.text ≠ [] := by
    intro v h
    cases hspell : v.spelling with
    | none =>
      rw [Value.text, hspell] at h
      exact decimal_ne_nil _ h
    | some s =>
      obtain ⟨hlt, hword⟩ := List.getElem?_eq_some_iff.mp (v.spelled s hspell)
      rw [Value.text, hspell] at h
      have hne := (hk _ (List.getElem_mem hlt)).ne_nil
      rw [hword, show s = [] from h] at hne
      exact hne rfl
  have hspan : ∀ s : Span k, s.textWith Value.text ≠ [] := by
    intro s
    cases s with
    | all => simp [Span.textWith]
    | single v => exact hvalue v
    | range v w le => simp [Span.textWith]
  obtain ⟨i, items, hitems⟩ := List.exists_cons_of_ne_nil x.ne_nil
  intro h
  have hle : (i.textWith Value.text).length ≤ x.text.length :=
    length_le_intercalate (List.mem_map_of_mem (hitems ▸ List.mem_cons_self))
  rw [h, List.length_nil, Nat.le_zero, List.length_eq_zero_iff, Item.textWith,
    List.append_eq_nil_iff] at hle
  exact hspan i.span hle.1

lemma FieldExp.isPiece (hk : ∀ w ∈ k.words, IsWord w) (x : FieldExp k) : IsPiece ' ' x.text := by
  refine ⟨x.text_ne_nil hk, ?_⟩
  intro c hc
  have hspace := (x.plain_text hk c hc).1
  refine ⟨?_, hspace⟩
  rintro rfl
  exact Bool.false_ne_true (hspace.symm.trans (by decide))

lemma isPiece_dayText (hk : ∀ w ∈ k.words, IsWord w) (x : Option (FieldExp k)) :
    IsPiece ' ' (dayText x) := by
  cases x with
  | none => exact ⟨by simp [dayText], by simp [dayText]; decide⟩
  | some x => exact x.isPiece hk

lemma CronExp.isPiece (x : CronExp) : ∀ p ∈ x.texts, IsPiece ' ' p := by
  have hplain : ∀ w ∈ ([] : List (List Char)), IsWord w := by simp
  intro p hp
  simp only [CronExp.texts, List.mem_append, List.mem_map, Option.mem_toList, List.mem_cons,
    List.not_mem_nil, or_false] at hp
  rcases hp with ⟨f, -, rfl⟩ | rfl | rfl | rfl | rfl | rfl
  · exact f.isPiece hplain
  · exact x.minutes.isPiece hplain
  · exact x.hours.isPiece hplain
  · exact isPiece_dayText hplain _
  · exact x.months.isPiece hasWords_months.isWord
  · exact isPiece_dayText hasWords_daysOfWeek.isWord _

lemma getBit_second_zero (n : ℕ) :
    dcmCronParseGetBit (DcmCronExpr.zero.seconds.set 0 1) n = true ↔ n = 0 := by
  have hlow : ∀ n : Fin 64, dcmCronParseGetBit (DcmCronExpr.zero.seconds.set 0 1) n = true ↔
      n.val = 0 := by decide
  by_cases hn : n < 64
  · exact hlow ⟨n, hn⟩
  · refine iff_of_false ?_ (by omega)
    have hge : 8 ≤ n / 8 := by omega
    simp [dcmCronParseGetBit, DcmCronExpr.zero, List.getD_eq_getElem?_getD, hge]

/-- **Parsing undoes rendering.** The text of a cron expression of fewer than 256 characters, none
of whose steps is too large for an `int`, is accepted, and each bit set is what its field stands
for. -/
theorem dcmCronParseExp_render (x : CronExp) (hsteps : x.StepsFit)
    (hlen : x.render.length < 256) (target : DcmCronExpr) :
    (dcmCronParseExp x.render target).1 = true ∧ x.Denotes (dcmCronParseExp x.render target).2 := by
  have hsplit : dcmCronParseStrSplit x.render ' ' = x.texts :=
    dcmCronParseStrSplit_intercalate x.isPiece hlen
  have hlens : ∀ p ∈ x.texts, p.length < cronMaxStrLenToSplit := fun p hp =>
    (length_le_intercalate hp).trans_lt hlen
  obtain ⟨minutes, hminutes, hminutesBits⟩ := parse_plain_field (k := sixtieths)
    ⟨by decide, by decide⟩ rfl x.minutes hsteps.minutes (hlens _ (by simp [CronExp.texts]))
    (m := 8) (by decide)
  obtain ⟨hours, hhours, hhoursBits⟩ := parse_plain_field (k := hoursOfDay)
    ⟨by decide, by decide⟩ rfl x.hours hsteps.hours (hlens _ (by simp [CronExp.texts]))
    (m := 3) (by decide)
  obtain ⟨days, hdays, hdaysBits⟩ := parse_daysOfMonth hsteps.daysOfMonth
    (hlens _ (by simp [CronExp.texts]))
  obtain ⟨months, hmonths, hmonthsBits⟩ := parse_months x.months hsteps.months
    (hlens _ (by simp [CronExp.texts]))
  obtain ⟨weekdays, hweekdays, hweekdaysBits⟩ := parse_daysOfWeek hsteps.daysOfWeek
    (hlens _ (by simp [CronExp.texts]))
  change dcmCronParseSetNumberHits _ DcmCronExpr.zero.minutes 0 60 = _ at hminutes
  change dcmCronParseSetNumberHits _ DcmCronExpr.zero.hours 0 24 = _ at hhours
  change dcmCronParseSetDaysOfMonth _ DcmCronExpr.zero.daysOfMonth = _ at hdays
  change dcmCronParseSetMonths _ DcmCronExpr.zero.months = _ at hmonths
  change dcmCronParseSetDaysOfWeek _ DcmCronExpr.zero.daysOfWeek = _ at hweekdays
  -- the fields do not share anything, so each of them starts from an empty set
  have hfields : ∀ (text : Option (List Char)) (seconds : Bits),
      setSeconds text .zero = (true, { DcmCronExpr.zero with seconds := seconds }) →
      parseFields text x.minutes.text x.hours.text (dayText x.daysOfMonth) x.months.text
        (dayText x.daysOfWeek) = (true, ⟨seconds, minutes, hours, weekdays, days, months⟩) := by
    intro text seconds hseconds
    simp [parseFields, andThen, hseconds, setMinutes, hminutes, setHours, hhours, setDaysOfMonth,
      hdays, setMonths, hmonths, setDaysOfWeek, hweekdays]
  have hparse : ∃ seconds, dcmCronParseExp x.render target =
      (true, ⟨seconds, minutes, hours, weekdays, days, months⟩) ∧
      ∀ n, dcmCronParseGetBit seconds n = true ↔ x.seconds.elim (n = 0) (·.Hits n) := by
    cases hx : x.seconds with
    | none =>
      refine ⟨DcmCronExpr.zero.seconds.set 0 1, ?_, getBit_second_zero⟩
      simp only [dcmCronParseExp, hsplit, CronExp.texts, hx, Option.toList_none, List.map_nil,
        List.nil_append]
      exact hfields none _ rfl
    | some f =>
      obtain ⟨seconds, hseconds, hsecondsBits⟩ := parse_plain_field (k := sixtieths)
        ⟨by decide, by decide⟩ rfl f (hsteps.seconds f hx)
        (hlens _ (by simp [CronExp.texts, hx])) (m := 8) (by decide)
      change dcmCronParseSetNumberHits _ DcmCronExpr.zero.seconds 0 60 = _ at hseconds
      refine ⟨seconds, ?_, hsecondsBits⟩
      simp only [dcmCronParseExp, hsplit, CronExp.texts, hx, Option.toList_some, List.map_cons,
        List.map_nil, List.singleton_append]
      exact hfields (some f.text) _ (by simp [setSeconds, hseconds])
  obtain ⟨seconds, hparse, hsecondsBits⟩ := hparse
  rw [hparse]
  exact ⟨rfl, hsecondsBits, hminutesBits, hhoursBits, hdaysBits, hmonthsBits, hweekdaysBits⟩

/-- All values of a field. -/
def FieldExp.star (k : FieldKind) : FieldExp k := ⟨[⟨.all, none, by simp⟩], by simp⟩

/-- From January to March, every second day of the week from Monday on. -/
def namedExp : CronExp where
  seconds := none
  minutes := ⟨[⟨.single ⟨5, none, by decide, by decide, by simp⟩, some 20, by simp⟩], by simp⟩
  hours := .star _
  daysOfMonth := none
  months := ⟨[⟨.range ⟨1, some "jan".toList, by decide, by decide, by decide⟩
    ⟨3, some "Mar".toList, by decide, by decide, by decide⟩ (by decide), none, by simp⟩], by simp⟩
  daysOfWeek := some ⟨[⟨.single ⟨1, some "MON".toList, by decide, by decide, by decide⟩, some 2,
    by simp⟩], by simp⟩

theorem parse_namedExp :
    namedExp.render = "5/20 * ? jan-Mar MON/2".toList ∧
      (dcmCronParseExp namedExp.render .zero).1 = true ∧
      namedExp.Denotes (dcmCronParseExp namedExp.render .zero).2 := by
  refine ⟨by decide +kernel, dcmCronParseExp_render namedExp ?_ (by decide +kernel) .zero⟩
  constructor <;> simp [namedExp, FieldExp.star, FieldExp.StepsFit, intMax]

/-- A step that is no `int`: the text has 20 characters, and is refused. -/
theorem huge_step_refused :
    ∃ x : CronExp, x.render = "*/2147483648 * * * *".toList ∧ x.render.length < 256 ∧
      (dcmCronParseExp x.render .zero).1 = false := by
  refine ⟨⟨none, ⟨[⟨.all, some 2147483648, by simp⟩], by simp⟩, .star _, some (.star _), .star _,
    some (.star _)⟩, ?_⟩
  decide +kernel

end DcmAgent.Cron
