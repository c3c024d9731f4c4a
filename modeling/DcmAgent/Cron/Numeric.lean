import Mathlib.Tactic
import DcmAgent.Cron.Accepted
import DcmAgent.Cron.Words

/-!
# Fields without names

The parser splits the text of a field at the places where the text has been put together, and reads
each number back. The bits that it sets are those that the field stands for.
-/

namespace DcmAgent.Cron

variable {k : FieldKind} {del c : Char} {s p buf : List Char} {ps : List (List Char)} {n : ℕ}

/-! ### Pieces -/

/-- A piece of a text that is split at `del`. -/
structure IsPiece (del : Char) (p : List Char) : Prop where
  ne_nil : p ≠ []
  plain : ∀ c ∈ p, c ≠ del ∧ isSpace c = false

lemma splitPieces_append (hp : ∀ c ∈ p, c ≠ del ∧ isSpace c = false) :
    splitPieces del (p ++ s) buf = splitPieces del s (buf ++ p) := by
  induction p generalizing buf with
  | nil => simp
  | cons c p ih =>
    obtain ⟨hdel, hspace⟩ := hp c List.mem_cons_self
    rw [List.cons_append, splitPieces, if_neg hdel, hspace, if_neg (by simp),
      ih fun c hc => hp c (List.mem_cons_of_mem _ hc)]
    simp

lemma splitPieces_last (hp : IsPiece del p) : splitPieces del p [] = [p] := by
  have h := @splitPieces_append del [] p [] hp.plain
  have hpos := List.length_pos_iff.mpr hp.ne_nil
  rw [List.append_nil, List.nil_append] at h
  rw [h, splitPieces, if_pos hpos]

lemma splitPieces_intercalate (hps : ∀ p ∈ ps, IsPiece del p) :
    splitPieces del ([del].intercalate ps) [] = ps := by
  induction ps with
  | nil => simp [splitPieces]
  | cons p ps ih =>
    have hp := hps p List.mem_cons_self
    cases ps with
    | nil => simpa using splitPieces_last hp
    | cons q ps =>
      have hpos := List.length_pos_iff.mpr hp.ne_nil
      rw [List.intercalate_cons_cons, List.append_assoc, splitPieces_append hp.plain,
        List.nil_append, List.singleton_append, splitPieces, if_pos rfl, if_pos hpos,
        ih fun p hp => hps p (List.mem_cons_of_mem _ hp)]

/-- A text that is short enough is split into its pieces. -/
lemma dcmCronParseStrSplit_intercalate (hps : ∀ p ∈ ps, IsPiece del p)
    (hlen : ([del].intercalate ps).length < cronMaxStrLenToSplit) :
    dcmCronParseStrSplit ([del].intercalate ps) del = ps := by
  rw [dcmCronParseStrSplit, if_neg (not_le.mpr hlen), splitPieces_intercalate hps]

lemma dcmCronParseStrSplit_two {p q : List Char} (hp : IsPiece del p) (hq : IsPiece del q)
    (hlen : (p ++ del :: q).length < cronMaxStrLenToSplit) :
    dcmCronParseStrSplit (p ++ del :: q) del = [p, q] := by
  have htext : [del].intercalate [p, q] = p ++ del :: q := by simp [List.intercalate]
  rw [← htext] at hlen ⊢
  apply dcmCronParseStrSplit_intercalate _ hlen
  simp [hp, hq]

/-! ### Numbers -/

lemma ne_of_isDigit (hc : c.isDigit = true) : c ≠ '*' ∧ c ≠ '-' ∧ c ≠ '/' ∧ c ≠ ',' ∧ c ≠ '+' := by
  refine ⟨?_, ?_, ?_, ?_, ?_⟩ <;> rintro rfl <;> simp at hc

lemma toNat_of_isDigit (hc : c.isDigit = true) : 48 ≤ c.toNat ∧ c.toNat ≤ 57 := by
  simpa [Char.isDigit, UInt32.le_iff_toNat_le] using hc

lemma not_isSpace_of_isDigit (hc : c.isDigit = true) : isSpace c = false := by
  have hdigit := toNat_of_isDigit hc
  have hblank : c ≠ ' ' := by
    rintro rfl
    simp at hc
  simp only [isSpace, hblank, false_or, decide_eq_false_iff_not]
  omega

lemma readDigits_eq {ds : List Char} (hds : ∀ c ∈ ds, c.isDigit = true) (acc : ℕ) :
    readDigits acc ds = (((Nat.ofDigitChars 10 ds acc : ℕ) : ℤ), []) := by
  induction ds generalizing acc with
  | nil => simp [readDigits]
  | cons c ds ih =>
    have hc := hds c List.mem_cons_self
    have hge := (toNat_of_isDigit hc).1
    have hacc : (10 * (acc : ℤ) + (c.toNat - 48)) = ((10 * acc + (c.toNat - 48) : ℕ) : ℤ) := by
      omega
    rw [readDigits, if_pos hc, hacc, ih fun c hc => hds c (List.mem_cons_of_mem _ hc)]
    simp [Nat.ofDigitChars_cons]

lemma strtol_decimal (n : ℕ) : strtol (decimal n) = ((n : ℤ), []) := by
  obtain ⟨c, ds, hds⟩ := List.exists_cons_of_ne_nil (decimal_ne_nil n)
  have hdigits : ∀ d ∈ c :: ds, d.isDigit = true := by
    intro d hd
    rw [← hds] at hd
    exact isDigit_of_mem_decimal hd
  have hc := hdigits c List.mem_cons_self
  obtain ⟨-, hminus, -, -, hplus⟩ := ne_of_isDigit hc
  have hread : readDigits ((0 : ℕ) : ℤ) (c :: ds) = ((n : ℤ), []) := by
    rw [readDigits_eq hdigits, ← hds, decimal, Nat.toList_repr, Nat.ofDigitChars_ten_toDigits]
  rw [Nat.cast_zero] at hread
  simp [strtol, hds, not_isSpace_of_isDigit hc, hminus, hplus, hc, hread]

/-- A number is read back unless it is too large. -/
lemma dcmCronParseParseUint_decimal (hn : (n : ℤ) ≤ intMax) :
    dcmCronParseParseUint (decimal n) = some n := by
  simp [dcmCronParseParseUint, strtol_decimal, hn]

lemma isPiece_decimal (n : ℕ) (hdel : del = '-' ∨ del = '/' ∨ del = ',') :
    IsPiece del (decimal n) := by
  refine ⟨decimal_ne_nil n, ?_⟩
  intro c hc
  have hdigit := isDigit_of_mem_decimal hc
  obtain ⟨-, hminus, hslash, hcomma, -⟩ := ne_of_isDigit hdigit
  refine ⟨?_, not_isSpace_of_isDigit hdigit⟩
  rcases hdel with rfl | rfl | rfl <;> assumption

lemma notMem_decimal (hc : c = '-' ∨ c = '/') : c ∉ decimal n := by
  intro h
  obtain ⟨-, hminus, hslash, -, -⟩ := ne_of_isDigit (isDigit_of_mem_decimal h)
  rcases hc with rfl | rfl
  · exact hminus rfl
  · exact hslash rfl

/-! ### Items -/

/-- A value as a number. -/
def Value.number (v : Value k) : List Char := decimal v.val

/-- The bounds of a span as they are written. -/
def Span.bounds : Span k → ℕ × ℕ
  | .all => (k.min, k.max)
  | .single v => (v.val, v.val)
  | .range v w _ => (v.val, w.val)

/-- The greatest value is an `int`. -/
def FieldKind.Fits (k : FieldKind) : Prop := k.min ≤ k.max ∧ (k.max : ℤ) ≤ intMax

lemma readRange_textWith (hk : k.Fits) (x : Span k)
    (hlen : (x.textWith Value.number).length < cronMaxStrLenToSplit) :
    readRange (x.textWith Value.number) k.min (k.max + 1) = some x.bounds := by
  have hfits : ∀ v : Value k, (v.val : ℤ) ≤ intMax := by
    intro v
    have := v.le_max
    have := hk.2
    omega
  cases x with
  | all => simp [Span.textWith, readRange, Span.bounds]
  | single v =>
    have hne : decimal v.val ≠ ['*'] := by
      intro h
      have hstar : '*' ∈ decimal v.val := by simp [h]
      exact (ne_of_isDigit (isDigit_of_mem_decimal hstar)).1 rfl
    change readRange (decimal v.val) k.min (k.max + 1) = some (v.val, v.val)
    rw [readRange, if_neg hne, if_pos (notMem_decimal (Or.inl rfl)),
      dcmCronParseParseUint_decimal (hfits v)]
    rfl
  | range v w le =>
    have hminus : '-' ∈ decimal v.val ++ '-' :: decimal w.val := by simp
    have hne : decimal v.val ++ '-' :: decimal w.val ≠ ['*'] := by
      intro h
      rw [h] at hminus
      simp at hminus
    change readRange (decimal v.val ++ '-' :: decimal w.val) k.min (k.max + 1) = some (v.val, w.val)
    change (decimal v.val ++ '-' :: decimal w.val).length < cronMaxStrLenToSplit at hlen
    rw [readRange, if_neg hne, if_neg (not_not.mpr hminus), dcmCronParseStrSplit_two
      (isPiece_decimal _ (Or.inl rfl)) (isPiece_decimal _ (Or.inl rfl)) hlen]
    simp [dcmCronParseParseUint_decimal, hfits]

lemma Span.bounds_spec (hk : k.Fits) (x : Span k) :
    k.min ≤ x.bounds.1 ∧ x.bounds.1 ≤ x.bounds.2 ∧ x.bounds.2 ≤ k.max := by
  cases x with
  | all => exact ⟨le_rfl, hk.1, le_rfl⟩
  | single v => exact ⟨v.min_le, le_rfl, v.le_max⟩
  | range v w le => exact ⟨v.min_le, le, w.le_max⟩

lemma dcmCronParseGetRange_textWith (hk : k.Fits) (x : Span k)
    (hlen : (x.textWith Value.number).length < cronMaxStrLenToSplit) :
    dcmCronParseGetRange (x.textWith Value.number) k.min (k.max + 1) = some x.bounds := by
  obtain ⟨h₁, h₂, h₃⟩ := x.bounds_spec hk
  rw [dcmCronParseGetRange, readRange_textWith hk x hlen, Option.bind_some, if_neg (by omega),
    if_neg (by omega), if_neg (by omega)]

section Characters

variable {P : Char → Prop} {f : Value k → List Char} (hf : ∀ v, ∀ c ∈ f v, P c)
  (hdigit : ∀ c : Char, c.isDigit = true → P c)

include hf

/-- The characters of a span. -/
lemma Span.forall_mem_textWith (hstar : P '*') (hminus : P '-') (x : Span k) :
    ∀ c ∈ x.textWith f, P c := by
  intro c hc
  cases x with
  | all => exact List.mem_singleton.mp hc ▸ hstar
  | single v => exact hf v c hc
  | range v w le =>
    rcases List.mem_append.mp hc with hc | hc
    · exact hf v c hc
    · rcases List.mem_cons.mp hc with rfl | hc
      · exact hminus
      · exact hf w c hc

include hdigit

lemma Item.forall_mem_textWith (hstar : P '*') (hminus : P '-') (hslash : P '/') (i : Item k) :
    ∀ c ∈ i.textWith f, P c := by
  obtain ⟨x, step, hpos⟩ := i
  intro c hc
  rcases List.mem_append.mp hc with hc | hc
  · exact x.forall_mem_textWith hf hstar hminus c hc
  · cases step with
    | none => cases hc
    | some d =>
      rcases List.mem_cons.mp hc with rfl | hc
      · exact hslash
      · exact hdigit c (isDigit_of_mem_decimal hc)

end Characters

lemma Span.plain (x : Span k) : ∀ c ∈ x.textWith Value.number,
    c ≠ '/' ∧ c ≠ ',' ∧ isSpace c = false := by
  refine x.forall_mem_textWith (P := fun c => c ≠ '/' ∧ c ≠ ',' ∧ isSpace c = false) ?_
    (by decide) (by decide)
  intro v c hc
  have hdigit := isDigit_of_mem_decimal hc
  obtain ⟨-, -, hslash, hcomma, -⟩ := ne_of_isDigit hdigit
  exact ⟨hslash, hcomma, not_isSpace_of_isDigit hdigit⟩

lemma Span.textWith_ne_nil (x : Span k) : x.textWith Value.number ≠ [] := by
  cases x with
  | all => simp [Span.textWith]
  | single v => exact decimal_ne_nil v.val
  | range v w le => simp [Span.textWith]

lemma Span.minus_mem_iff (x : Span k) :
    '-' ∈ x.textWith Value.number ↔ ∃ v w le, x = .range v w le := by
  cases x with
  | all => simp [Span.textWith]
  | single v => simpa [Span.textWith, Value.number] using notMem_decimal (Or.inl rfl)
  | range v w le => simpa [Span.textWith] using le

lemma Span.isPiece (x : Span k) (hdel : del = '/' ∨ del = ',') :
    IsPiece del (x.textWith Value.number) := by
  refine ⟨x.textWith_ne_nil, ?_⟩
  intro c hc
  obtain ⟨hslash, hcomma, hspace⟩ := x.plain c hc
  refine ⟨?_, hspace⟩
  rcases hdel with rfl | rfl <;> assumption

/-- The bounds and the step of an item are read back. -/
lemma itemRange_textWith (hk : k.Fits) (i : Item k) (hstep : ∀ d ∈ i.step, (d : ℤ) ≤ intMax)
    (hlen : (i.textWith Value.number).length < cronMaxStrLenToSplit) :
    itemRange (i.textWith Value.number) k.min (k.max + 1) = some (i.bounds, i.step.getD 1) := by
  obtain ⟨x, step, hpos⟩ := i
  have hx : (x.textWith Value.number).length < cronMaxStrLenToSplit := by
    simp only [Item.textWith, List.length_append] at hlen
    omega
  cases step with
  | none =>
    have hslash : '/' ∉ x.textWith Value.number := fun h => (x.plain _ h).1 rfl
    have hbounds : Item.bounds ⟨x, none, hpos⟩ = x.bounds := by
      cases x <;> simp [Item.bounds, Span.bounds]
    have htext : Item.textWith Value.number ⟨x, none, hpos⟩ = x.textWith Value.number := by
      simp [Item.textWith]
    rw [htext, itemRange, if_pos hslash, dcmCronParseGetRange_textWith hk x hx, hbounds]
    rfl
  | some d =>
    have htext : Item.textWith Value.number ⟨x, some d, hpos⟩ =
        x.textWith Value.number ++ '/' :: decimal d := rfl
    rw [htext] at hlen ⊢
    have hsplit := dcmCronParseStrSplit_two (x.isPiece (Or.inl rfl))
      (isPiece_decimal d (Or.inr (Or.inl rfl))) hlen
    have hbounds : (if '-' ∉ x.textWith Value.number then (x.bounds.1, k.max) else x.bounds) =
        Item.bounds ⟨x, some d, hpos⟩ := by
      split_ifs with hminus <;> rw [Span.minus_mem_iff] at hminus
      · obtain ⟨v, w, le, rfl⟩ := hminus
        rfl
      · cases x with
        | all => rfl
        | single v => rfl
        | range v w le => exact absurd ⟨v, w, le, rfl⟩ hminus
    have hd : d ≠ 0 := (hpos d rfl).ne'
    rw [itemRange, if_neg (by simp), hsplit]
    simp only [dcmCronParseGetRange_textWith hk x hx, Option.bind_eq_bind, Option.bind_some,
      dcmCronParseParseUint_decimal (hstep d rfl), hd, if_false, Nat.add_sub_cancel]
    rw [hbounds]
    rfl

lemma Item.bounds_spec (hk : k.Fits) (i : Item k) :
    k.min ≤ i.bounds.1 ∧ i.bounds.1 ≤ i.bounds.2 ∧ i.bounds.2 ≤ k.max := by
  obtain ⟨x, step, -⟩ := i
  cases x with
  | all => exact ⟨le_rfl, hk.1, le_rfl⟩
  | single v =>
    have := v.le_max
    refine ⟨v.min_le, ?_⟩
    simp only [Item.bounds]
    split_ifs <;> omega
  | range v w le => exact ⟨v.min_le, le, w.le_max⟩

/-! ### The bits -/

/-- The loop over a range sets every `delta`-th bit of it. -/
lemma getBit_fillRange_iff {hi delta fuel i : ℕ} {target : Bits} (hlen : hi < 8 * target.length)
    (hfuel : hi < i + fuel) (hhi : (hi : ℤ) ≤ intMax) (hdelta : 0 < delta)
    (hdelta' : (delta : ℤ) ≤ intMax) (j : ℕ) :
    dcmCronParseGetBit (fillRange hi delta fuel i target) j = true ↔
      dcmCronParseGetBit target j = true ∨ i ≤ j ∧ j ≤ hi ∧ delta ∣ j - i := by
  induction fuel generalizing i target with
  | zero =>
    rw [fillRange]
    have hno : ¬(i ≤ j ∧ j ≤ hi ∧ delta ∣ j - i) := by omega
    simp [hno]
  | succ fuel ih =>
    rw [fillRange]
    split_ifs with hle
    · have hwrap : (i + delta) % 2 ^ 32 = i + delta := by
        simp only [intMax] at hhi hdelta'
        omega
      rw [hwrap, ih (by rwa [length_dcmCronParseSetBit]) (by omega), getBit_setBit (by omega),
        Bool.or_eq_true, decide_eq_true_eq, or_assoc]
      apply or_congr_right
      constructor
      · rintro (rfl | ⟨h₁, h₂, m, hm⟩)
        · exact ⟨le_rfl, hle, by simp⟩
        · exact ⟨by omega, h₂, m + 1, by rw [Nat.mul_add]; omega⟩
      · rintro ⟨h₁, h₂, m, hm⟩
        cases m with
        | zero => exact Or.inl (by omega)
        | succ m =>
          rw [Nat.mul_add] at hm
          exact Or.inr ⟨by omega, h₂, m, by omega⟩
    · have hno : ¬(i ≤ j ∧ j ≤ hi ∧ delta ∣ j - i) := by omega
      simp [hno]

/-- The items set the bits that they stand for. -/
lemma setItems_textWith (hk : k.Fits) {items : List (Item k)} {target : Bits}
    (hsteps : ∀ i ∈ items, ∀ d ∈ i.step, (d : ℤ) ≤ intMax)
    (hlens : ∀ i ∈ items, (i.textWith Value.number).length < cronMaxStrLenToSplit)
    (htarget : k.max < 8 * target.length) :
    let r := setItems k.min (k.max + 1) (items.map fun i => i.textWith Value.number) target
    r.1 = true ∧ ∀ n, dcmCronParseGetBit r.2 n = true ↔
      dcmCronParseGetBit target n = true ∨ ∃ i ∈ items, i.Hits n := by
  induction items generalizing target with
  | nil => simp [setItems]
  | cons i items ih =>
    have hstep := hsteps i List.mem_cons_self
    have hbounds := i.bounds_spec hk
    have hrange := itemRange_textWith hk i hstep (hlens i List.mem_cons_self)
    have hpos : 0 < i.step.getD 1 := by
      cases h : i.step with
      | none => simp
      | some d => exact i.step_pos d h
    have hfits : ((i.step.getD 1 : ℕ) : ℤ) ≤ intMax := by
      cases h : i.step with
      | none => simp [intMax]
      | some d => exact hstep d h
    have hmax := hk.2
    have hrest := @ih (fillRange i.bounds.2 (i.step.getD 1) (k.max + 1) i.bounds.1 target)
      (fun i hi => hsteps i (List.mem_cons_of_mem _ hi))
      (fun i hi => hlens i (List.mem_cons_of_mem _ hi)) (by rwa [length_fillRange])
    simp only [List.map_cons, setItems, hrange]
    refine ⟨hrest.1, ?_⟩
    intro n
    rw [hrest.2, getBit_fillRange_iff (by omega) (by omega) (by omega) hpos hfits]
    simp only [List.mem_cons, exists_eq_or_imp, or_assoc]
    rfl

lemma Item.isPiece (i : Item k) : IsPiece ',' (i.textWith Value.number) := by
  constructor
  · intro h
    exact i.span.textWith_ne_nil (List.append_eq_nil_iff.mp h).1
  · have hdigit : ∀ c : Char, c.isDigit = true → c ≠ ',' ∧ isSpace c = false := by
      intro c hc
      exact ⟨(ne_of_isDigit hc).2.2.2.1, not_isSpace_of_isDigit hc⟩
    apply Item.forall_mem_textWith _ hdigit (by decide) (by decide) (by decide)
    intro v c hc
    exact hdigit c (isDigit_of_mem_decimal hc)

lemma mem_intercalate (hc : c ∈ [del].intercalate ps) : c = del ∨ ∃ p ∈ ps, c ∈ p := by
  induction ps with
  | nil => simp at hc
  | cons q ps ih =>
    cases ps with
    | nil => exact Or.inr ⟨q, List.mem_cons_self, by simpa using hc⟩
    | cons q' ps =>
      rw [List.intercalate_cons_cons, List.append_assoc, List.mem_append, List.mem_append,
        List.mem_singleton] at hc
      rcases hc with hc | rfl | hc
      · exact Or.inr ⟨q, List.mem_cons_self, hc⟩
      · exact Or.inl rfl
      · rcases ih hc with rfl | ⟨p, hp, hc⟩
        · exact Or.inl rfl
        · exact Or.inr ⟨p, List.mem_cons_of_mem _ hp, hc⟩

lemma FieldExp.forall_mem_textWith {P : Char → Prop} {f : Value k → List Char}
    (hf : ∀ v, ∀ c ∈ f v, P c) (hdigit : ∀ c : Char, c.isDigit = true → P c) (hstar : P '*')
    (hminus : P '-') (hslash : P '/') (hcomma : P ',') (x : FieldExp k) :
    ∀ c ∈ x.textWith f, P c := by
  intro c hc
  rcases mem_intercalate hc with rfl | ⟨p, hp, hc⟩
  · exact hcomma
  · obtain ⟨i, -, rfl⟩ := List.mem_map.mp hp
    exact i.forall_mem_textWith hf hdigit hstar hminus hslash c hc

lemma length_le_intercalate (hp : p ∈ ps) : p.length ≤ ([del].intercalate ps).length := by
  induction ps with
  | nil => cases hp
  | cons q ps ih =>
    cases ps with
    | nil =>
      obtain rfl := List.mem_singleton.mp hp
      simp
    | cons q' ps =>
      rw [List.intercalate_cons_cons, List.length_append, List.length_append]
      rcases List.mem_cons.mp hp with rfl | hp
      · omega
      · have := ih hp
        omega

/-- A field written with numbers is accepted, and sets the bits that it stands for. -/
theorem dcmCronParseSetNumberHits_textWith (hk : k.Fits) (x : FieldExp k) (hsteps : x.StepsFit)
    (hlen : (x.textWith Value.number).length < cronMaxStrLenToSplit) {target : Bits}
    (htarget : k.max < 8 * target.length) :
    let r := dcmCronParseSetNumberHits (x.textWith Value.number) target k.min (k.max + 1)
    r.1 = true ∧ ∀ n, dcmCronParseGetBit r.2 n = true ↔
      dcmCronParseGetBit target n = true ∨ x.Hits n := by
  have hsplit : dcmCronParseStrSplit (x.textWith Value.number) ',' =
      x.items.map fun i => i.textWith Value.number := by
    apply dcmCronParseStrSplit_intercalate _ hlen
    intro p hp
    obtain ⟨i, -, rfl⟩ := List.mem_map.mp hp
    exact i.isPiece
  have hne : (x.items.map fun i => i.textWith Value.number) ≠ [] := by simpa using x.ne_nil
  simp only [dcmCronParseSetNumberHits, hsplit, hne, if_false]
  apply setItems_textWith hk hsteps _ htarget
  intro i hi
  exact (length_le_intercalate (List.mem_map_of_mem hi)).trans_lt hlen

end DcmAgent.Cron
