import Mathlib.Tactic
import DcmAgent.Cron.Grammar
import DcmAgent.Cron.Replace
import DcmAgent.Cron.RoundTrip
import DcmAgent.Cron.Split

/-!
# Accepted patterns and the grammar

Which of the accepted patterns are sentences of the grammar. A part of a field that has no letter
stays as it is when names are replaced; of the others, those of three characters are replaced as a
whole or not at all. So the numbers that are read are numbers or names of the input.
-/

namespace DcmAgent.Cron

open Library

variable {k : FieldKind} {f p q r t w item value expression : List Char} {c del : Char}
  {min max n : ℕ} {bits : Bits} {target : DcmCronExpr} {words fields : List (List Char)}
  {minutes hours dom mon dow : List Char}

/-! ### Numbers that are accepted -/

lemma isDigit_of_readDigits {acc : ℤ} (h : (readDigits acc t).2 = []) :
    ∀ c ∈ t, c.isDigit = true := by
  induction t generalizing acc with
  | nil => simp
  | cons d t ih =>
    rw [readDigits] at h
    split_ifs at h with hd
    rw [List.forall_mem_cons]
    exact ⟨hd, ih h⟩

lemma readDigits_nonneg {acc : ℤ} (hacc : 0 ≤ acc) (t : List Char) :
    0 ≤ (readDigits acc t).1 := by
  induction t generalizing acc with
  | nil => exact hacc
  | cons d t ih =>
    rw [readDigits]
    split_ifs with hd
    · have := (toNat_of_isDigit hd).1
      exact ih (by omega)
    · exact hacc

/-- A text that neither is empty nor has white space or a plus sign. -/
structure Unsigned (t : List Char) : Prop where
  ne_nil : t ≠ []
  not_isSpace : ∀ c ∈ t, isSpace c = false
  plus : '+' ∉ t

/-- A number that is accepted consists of digits, unless it is a zero with a minus sign. -/
lemma Unsigned.isNumber (ht : Unsigned t) (h : dcmCronParseParseUint t = some n)
    (hminus : '-' ∈ t → n ≠ 0) : IsNumber t := by
  obtain ⟨c, s, rfl⟩ := List.exists_cons_of_ne_nil ht.ne_nil
  have hdrop : (c :: s).dropWhile isSpace = c :: s := by
    rw [List.dropWhile_cons, ht.not_isSpace c List.mem_cons_self]
    rfl
  have hplus : c ≠ '+' := by
    rintro rfl
    exact ht.plus List.mem_cons_self
  simp only [dcmCronParseParseUint, strtol, hdrop, List.head?_cons, Option.some.injEq, hplus,
    or_false] at h
  by_cases hc : c = '-'
  · -- the number is not above zero
    subst hc
    exfalso
    have hn := hminus List.mem_cons_self
    have hpos := readDigits_nonneg le_rfl s
    simp only [if_true, List.tail_cons] at h
    split_ifs at h with hdigit hbad hbad
    · obtain rfl := Option.some.inj h
      rw [not_or, not_or] at hbad
      omega
    · simp at hbad
  · simp only [hc, if_false, List.head?_cons, Option.any_some] at h
    split_ifs at h with hdigit hbad hbad
    · rw [not_or, not_not] at hbad
      exact ⟨List.cons_ne_nil c s, isDigit_of_readDigits hbad.1⟩
    · simp at hbad

/-! ### Fields that are accepted -/

/-- A number that the parser reads, and not below the range of its field. -/
def IsNumberFrom (min : ℕ) (t : List Char) : Prop :=
  IsNumber t ∧ ∃ n, dcmCronParseParseUint t = some n ∧ min ≤ n

/-- Without white space and empty pieces the split is that of the list. -/
lemma dcmCronParseStrSplit_eq_splitOn (hspace : ∀ c ∈ t, isSpace c = false)
    (hne : ∀ p ∈ t.splitOn del, p ≠ []) (hsome : dcmCronParseStrSplit t del ≠ []) :
    dcmCronParseStrSplit t del = t.splitOn del := by
  have hlen : ¬t.length ≥ cronMaxStrLenToSplit := by
    intro hlong
    rw [dcmCronParseStrSplit, if_pos hlong] at hsome
    exact hsome rfl
  have hmap : (t.splitOn del).map (·.filter (!isSpace ·)) = t.splitOn del := by
    refine (List.map_congr_left fun p hp => ?_).trans (List.map_id _)
    apply List.filter_eq_self.mpr
    intro c hc
    simpa using hspace c (mem_of_mem_splitOn hp hc).1
  rw [dcmCronParseStrSplit, if_neg hlen, splitPieces_eq_stripped, strippedPieces, hmap,
    List.filter_eq_self]
  simpa using hne

/-- The parts of an unsigned text. -/
lemma Unsigned.part (ht : Unsigned t) (hne : ∀ p ∈ t.splitOn del, p ≠ []) :
    ∀ p ∈ t.splitOn del, Unsigned p := by
  intro p hp
  refine ⟨hne p hp, fun c hc => ht.not_isSpace c (mem_of_mem_splitOn hp hc).1, fun hplus => ?_⟩
  exact ht.plus (mem_of_mem_splitOn hp hplus).1

lemma isRange_of_accepted (hr : Unsigned r) (hne : ∀ p ∈ r.splitOn '-', p ≠ [])
    {res : ℕ × ℕ} (h : dcmCronParseGetRange r min max = some res) :
    IsRange (IsNumberFrom min) r := by
  obtain ⟨res', hread, hbounds⟩ := Option.bind_eq_some_iff.mp h
  split_ifs at hbounds with _ hmin
  rw [readRange] at hread
  split_ifs at hread with hstar hminus
  · exact Or.inl hstar
  · split at hread
    · rename_i lo hi hsplit
      have hpair := dcmCronParseStrSplit_eq_splitOn hr.not_isSpace hne (by rw [hsplit]; simp)
      rw [hsplit] at hpair
      simp only [Option.bind_eq_bind, Option.bind_eq_some_iff] at hread
      obtain ⟨n, hn, m, hm, heq⟩ := hread
      obtain rfl := Option.some.inj heq
      have hpart := hr.part hne
      rw [← hpair] at hpart
      have hnot : ∀ p ∈ [lo, hi], '-' ∉ p := by
        intro p hp hmem
        rw [hpair] at hp
        exact (mem_of_mem_splitOn hp hmem).2 rfl
      have hlo := (hpart lo (by simp)).isNumber hn fun hmem => absurd hmem (hnot lo (by simp))
      have hhi := (hpart hi (by simp)).isNumber hm fun hmem => absurd hmem (hnot hi (by simp))
      refine Or.inr (Or.inr ⟨lo, hi, ⟨hlo, n, hn, ?_⟩, ⟨hhi, m, hm, ?_⟩,
        eq_of_splitOn_pair hpair.symm⟩)
      · dsimp only at hmin
        omega
      · dsimp only at hmin
        omega
    · cases hread
  · obtain ⟨n, hn, rfl⟩ := Option.map_eq_some_iff.mp hread
    have hnum := hr.isNumber hn fun hmem => absurd hmem hminus
    dsimp only at hmin
    exact Or.inr (Or.inl ⟨hnum, n, hn, by omega⟩)

lemma isItem_of_accepted (hitem : Unsigned item)
    (hne : ∀ r ∈ item.splitOn '/', ∀ p ∈ r.splitOn '-', p ≠ []) {res : (ℕ × ℕ) × ℕ}
    (h : itemRange item min max = some res) : IsItem (IsNumberFrom min) item := by
  have hhalf : ∀ r ∈ item.splitOn '/', r ≠ [] := by
    rintro r hr rfl
    exact hne [] hr [] (by simp) rfl
  rw [itemRange] at h
  split_ifs at h with hslash
  · split at h
    · rename_i first step hsplit
      have hpair := dcmCronParseStrSplit_eq_splitOn hitem.not_isSpace hhalf (by rw [hsplit]; simp)
      rw [hsplit] at hpair
      have hpart := hitem.part hhalf
      rw [← hpair] at hpart hne
      simp only [Option.bind_eq_bind, Option.bind_eq_some_iff] at h
      obtain ⟨range, hrange, delta, hdelta, heq⟩ := h
      have hzero : delta ≠ 0 := by
        rintro rfl
        cases heq
      have hfirst := isRange_of_accepted (hpart first (by simp)) (hne first (by simp)) hrange
      have hstep := (hpart step (by simp)).isNumber hdelta fun _ => hzero
      exact Or.inr ⟨first, step, hfirst, hstep, eq_of_splitOn_pair hpair.symm⟩
    · cases h
  · obtain ⟨range, hrange, -⟩ := Option.map_eq_some_iff.mp h
    rw [List.splitOn_eq_singleton hslash] at hne
    exact Or.inl (isRange_of_accepted hitem (hne item (by simp)) hrange)

lemma itemRange_of_setItems {items : List (List Char)}
    (h : (setItems min max items bits).1 = true) :
    ∀ item ∈ items, ∃ res, itemRange item min max = some res := by
  induction items generalizing bits with
  | nil => simp
  | cons item items ih =>
    rw [setItems] at h
    split at h
    · cases h
    · rename_i range delta hrange
      rw [List.forall_mem_cons]
      exact ⟨⟨_, hrange⟩, ih h⟩

/-- A field that is accepted is one of the grammar, if it has no white space and no plus sign, and
no part of it is empty. -/
lemma isField_of_accepted (hvalue : Unsigned value) (hne : ∀ p ∈ parts value, p ≠ [])
    (h : (dcmCronParseSetNumberHits value bits min max).1 = true) :
    IsField (IsNumberFrom min) value := by
  have hne' : ∀ item ∈ value.splitOn ',', ∀ r ∈ item.splitOn '/', ∀ p ∈ r.splitOn '-', p ≠ [] :=
    fun item hitem r hr p hp =>
      hne p (List.mem_flatMap.mpr ⟨item, hitem, List.mem_flatMap.mpr ⟨r, hr, hp⟩⟩)
  have hitems : ∀ item ∈ value.splitOn ',', item ≠ [] := by
    rintro item hitem rfl
    exact hne' [] hitem [] (by simp) [] (by simp) rfl
  rw [dcmCronParseSetNumberHits] at h
  split_ifs at h with hnil
  rw [dcmCronParseStrSplit_eq_splitOn hvalue.not_isSpace hitems hnil] at h
  intro item hitem
  obtain ⟨res, hres⟩ := itemRange_of_setItems h item hitem
  exact isItem_of_accepted (hvalue.part hitems item hitem) (hne' item hitem) hres

/-! ### Names that are replaced -/

/-- The text of a field with its names replaced. -/
def ordinals (words : List (List Char)) (t : List Char) : List Char :=
  dcmCronParseReplaceOrdinals (dcmCronParseToUpper t) words

lemma isAlpha_of_mem_word (hw : IsWord w) (hc : c ∈ w) : c.isAlpha = true :=
  isAlpha_of_isUpper (hw.isUpper c hc)

/-- Names and numbers do not lie across a separator. -/
lemma keepsCuts_ordinals (hwords : ∀ w ∈ words, IsWord w) (hc : c.isAlphanum = false) :
    KeepsCuts c (ordinals words) := by
  obtain ⟨halpha, hdigit⟩ := Bool.or_eq_false_iff.mp hc
  have hupper : KeepsCuts c dcmCronParseToUpper := KeepsCuts.map fun x => toUpper_eq_iff halpha
  have hreplace : ∀ x ∈ words.zipIdx, KeepsCuts c
      fun cur => dcmCronParseStrReplace cur x.1 (Nat.repr x.2).toList := by
    intro x hx
    have hword := hwords x.1 (List.fst_mem_of_mem_zipIdx hx)
    have hcw : c ∉ x.1 := by
      intro hmem
      rw [isAlpha_of_mem_word hword hmem] at halpha
      cases halpha
    have hcd : c ∉ (Nat.repr x.2).toList := by
      intro hmem
      rw [isDigit_of_mem_decimal hmem] at hdigit
      cases hdigit
    simp only [dcmCronParseStrReplace_eq hword.ne_nil]
    exact ⟨replaceAll_append_cons hword.ne_nil hcw _,
      fun s hs hmem => (mem_replaceAll hword.ne_nil hmem).elim hcd hs⟩
  exact (KeepsCuts.foldl _ hreplace).comp hupper

/-- A text in which no word occurs stays as it is. -/
lemma dcmCronParseReplaceOrdinals_of_not_infix (hwords : ∀ w ∈ words, IsWord w)
    (h : ∀ w ∈ words, ¬w <:+: q) : dcmCronParseReplaceOrdinals q words = q := by
  have hfold : ∀ l : List (List Char × ℕ), (∀ x ∈ l, x.1 ∈ words) →
      l.foldl (fun cur x => dcmCronParseStrReplace cur x.1 (Nat.repr x.2).toList) q = q := by
    intro l hl
    induction l with
    | nil => rfl
    | cons x l ih =>
      rw [List.forall_mem_cons] at hl
      rw [List.foldl_cons, dcmCronParseStrReplace_eq (hwords _ hl.1).ne_nil,
        replaceAll_of_not_infix _ (h _ hl.1), ih hl.2]
  exact hfold _ fun x hx => List.fst_mem_of_mem_zipIdx hx

lemma ordinals_of_not_isAlpha (hwords : ∀ w ∈ words, IsWord w) (hp : p.any Char.isAlpha = false) :
    ordinals words p = p := by
  rw [any_isAlpha_eq_false] at hp
  have hupper : dcmCronParseToUpper p = p :=
    (List.map_congr_left fun c hc => toUpper_of_not_isAlpha (hp c hc)).trans (List.map_id _)
  rw [ordinals, hupper]
  apply dcmCronParseReplaceOrdinals_of_not_infix hwords
  intro w hw hocc
  obtain ⟨c, w', rfl⟩ := List.exists_cons_of_ne_nil (hwords w hw).ne_nil
  have halpha := isAlpha_of_mem_word (hwords _ hw) List.mem_cons_self
  rw [hp c (hocc.subset List.mem_cons_self)] at halpha
  cases halpha

/-- Of three characters either all are replaced, or none. -/
lemma ordinals_of_length (hwords : ∀ w ∈ words, IsWord w) (hnodup : words.Nodup)
    (hp : p.length = 3) :
    (∃ i, ∃ hi : i < words.length, dcmCronParseToUpper p = words[i] ∧
      ordinals words p = decimal i) ∨ ordinals words p = dcmCronParseToUpper p := by
  have hlen : (dcmCronParseToUpper p).length = 3 := by rw [dcmCronParseToUpper, List.length_map, hp]
  by_cases hmem : dcmCronParseToUpper p ∈ words
  · obtain ⟨i, hi, heq⟩ := List.getElem_of_mem hmem
    refine Or.inl ⟨i, hi, heq.symm, ?_⟩
    have hspaced : Spaced words [.word i] := .word hi (by simp) .nil
    have hspell := dcmCronParseReplaceOrdinals_spell hwords hnodup hspaced
    have hword : spell words 0 [.word i] = words[i] := by
      rw [spell_cons, spell_word hi (Nat.zero_le _), spell_nil, List.append_nil]
    have hnumber : spell words words.length [.word i] = decimal i := by
      rw [spell_cons, spell_nil, List.append_nil]
      exact if_pos hi
    rw [hword, heq, hnumber] at hspell
    exact hspell
  · right
    apply dcmCronParseReplaceOrdinals_of_not_infix hwords
    intro w hw hocc
    have heq : w = dcmCronParseToUpper p :=
      hocc.eq_of_length ((hwords w hw).length_eq.trans hlen.symm)
    exact hmem (heq ▸ hw)

lemma not_isAlphanum_of_isSpace (hc : isSpace c = true) : c.isAlphanum = false := by
  have hnat : c.val.toNat = c.toNat := rfl
  have hcode : c.toNat = 32 ∨ 9 ≤ c.toNat ∧ c.toNat ≤ 13 := by
    rcases of_decide_eq_true hc with rfl | h
    · exact Or.inl rfl
    · exact Or.inr h
  simp [Char.isAlphanum, Char.isAlpha, Char.isUpper, Char.isLower, Char.isDigit,
    UInt32.le_iff_toNat_le, hnat]
  omega

lemma IsRange.mono {term term' : List Char → Prop} (hterm : ∀ t, term t → term' t)
    (h : IsRange term r) : IsRange term' r := by
  rcases h with h | h | ⟨lo, hi, hlo, hhi, h⟩
  · exact Or.inl h
  · exact Or.inr (Or.inl (hterm r h))
  · exact Or.inr (Or.inr ⟨lo, hi, hterm lo hlo, hterm hi hhi, h⟩)

lemma IsItem.mono {term term' : List Char → Prop} (hterm : ∀ t, term t → term' t)
    (h : IsItem term item) : IsItem term' item := by
  rcases h with h | ⟨r, step, h, hstep, heq⟩
  · exact Or.inl (h.mono hterm)
  · exact Or.inr ⟨r, step, h.mono hterm, hstep, heq⟩

/-! ### From the replaced text back to the input -/

section Back

variable (hk : k.HasWords)

include hk

/-- What a part with letters becomes. -/
lemma ordinals_part (hp : TidyPart p) : p.any Char.isAlpha = false ∧ ordinals k.words p = p ∨
    (∃ i, ∃ hi : i < k.words.length, dcmCronParseToUpper p = k.words[i] ∧
      ordinals k.words p = decimal i) ∨
    ∃ c ∈ ordinals k.words p, c.isAlpha = true := by
  cases hletter : p.any Char.isAlpha
  · exact Or.inl ⟨rfl, ordinals_of_not_isAlpha hk.isWord hletter⟩
  · right
    rcases ordinals_of_length hk.isWord hk.nodup (hp.2 hletter) with h | h
    · exact Or.inl h
    · obtain ⟨c, hc, halpha⟩ := List.any_eq_true.mp hletter
      exact Or.inr ⟨c.toUpper, by rw [h]; exact List.mem_map_of_mem hc,
        isAlpha_toUpper.trans halpha⟩

lemma eq_star_of_ordinals (hp : TidyPart p) (h : ordinals k.words p = ['*']) : p = ['*'] := by
  rcases ordinals_part hk hp with ⟨-, heq⟩ | ⟨i, -, -, heq⟩ | ⟨c, hc, halpha⟩
  · exact heq.symm.trans h
  · have hstar : '*' ∈ decimal i := by simp [← heq, h]
    have hdigit := isDigit_of_mem_decimal hstar
    exact absurd hdigit (by decide)
  · rw [h, List.mem_singleton] at hc
    subst hc
    exact absurd halpha (by decide)

lemma isTerm_of_ordinals (hp : TidyPart p) (h : IsNumberFrom k.min (ordinals k.words p)) :
    IsTerm k p := by
  obtain ⟨hnum, n, hn, hmin⟩ := h
  rcases ordinals_part hk hp with ⟨-, heq⟩ | ⟨i, hi, hword, heq⟩ | ⟨c, hc, halpha⟩
  · exact Or.inl (heq ▸ hnum)
  · right
    have hfits : (i : ℤ) ≤ intMax := by
      have := hk.length_le
      unfold intMax
      omega
    rw [heq, dcmCronParseParseUint_decimal hfits] at hn
    obtain rfl := Option.some.inj hn
    rw [IsName, hword]
    exact List.mem_drop_iff_getElem.mpr ⟨i - k.min, by omega, by congr 1; omega⟩
  · rw [not_isAlpha_of_isDigit (hnum.2 c hc)] at halpha
    cases halpha

lemma ordinals_ne_nil (hp : TidyPart p) : ordinals k.words p ≠ [] := by
  rcases ordinals_part hk hp with ⟨-, heq⟩ | ⟨i, -, -, heq⟩ | ⟨c, hc, -⟩
  · rw [heq]
    exact hp.1
  · rw [heq]
    exact decimal_ne_nil i
  · exact List.ne_nil_of_mem hc

lemma isRange_of_ordinals (hr : ∀ p ∈ r.splitOn '-', TidyPart p)
    (h : IsRange (IsNumberFrom k.min) (ordinals k.words r)) : IsRange (IsTerm k) r := by
  have hcuts : KeepsCuts '-' (ordinals k.words) := keepsCuts_ordinals hk.isWord (by decide)
  rcases h with h | h | ⟨lo, hi, hlo, hhi, h⟩
  · have hsingle := @KeepsCuts.singleton _ _ _ r _ hcuts (by rw [h]; decide)
    rw [hsingle] at hr
    exact Or.inl (eq_star_of_ordinals hk (hr r (by simp)) h)
  · have hsingle := @KeepsCuts.singleton _ _ _ r _ hcuts (h.1.plain.notMem (by decide))
    rw [hsingle] at hr
    exact Or.inr (Or.inl (isTerm_of_ordinals hk (hr r (by simp)) h))
  · obtain ⟨x, y, hpair, rfl, rfl⟩ := hcuts.pair h (hlo.1.plain.notMem (by decide))
      (hhi.1.plain.notMem (by decide))
    rw [hpair] at hr
    have hx := isTerm_of_ordinals hk (hr x (by simp)) hlo
    have hy := isTerm_of_ordinals hk (hr y (by simp)) hhi
    exact Or.inr (Or.inr ⟨x, y, hx, hy, eq_of_splitOn_pair hpair⟩)

lemma isItem_of_ordinals (hitem : ∀ r ∈ item.splitOn '/', ∀ p ∈ r.splitOn '-', TidyPart p)
    (hsteps : ∀ step ∈ (item.splitOn '/').tail, step.any Char.isAlpha = false)
    (h : IsItem (IsNumberFrom k.min) (ordinals k.words item)) : IsItem (IsTerm k) item := by
  have hcuts : KeepsCuts '/' (ordinals k.words) := keepsCuts_ordinals hk.isWord (by decide)
  have hplain : ∀ t, IsNumberFrom k.min t → Plain t := fun t ht => ht.1.plain
  rcases h with h | ⟨r, step, h, hstep, heq⟩
  · have hno := h.notMem hplain (c := '/') (by decide) (by decide)
    rw [hcuts.singleton hno] at hitem
    exact Or.inl (isRange_of_ordinals hk (hitem item (by simp)) h)
  · have hno := h.notMem hplain (c := '/') (by decide) (by decide)
    obtain ⟨x, y, hpair, rfl, rfl⟩ := hcuts.pair heq hno (hstep.plain.notMem (by decide))
    rw [hpair] at hitem hsteps
    rw [ordinals_of_not_isAlpha hk.isWord (hsteps y (by simp))] at hstep
    have hx := isRange_of_ordinals hk (hitem x (by simp)) h
    exact Or.inr ⟨x, y, hx, hstep, eq_of_splitOn_pair hpair⟩

lemma parts_ordinals (f : List Char) :
    parts (ordinals k.words f) = (parts f).map (ordinals k.words) := by
  have hcuts : ∀ c : Char, c.isAlphanum = false → KeepsCuts c (ordinals k.words) :=
    fun c hc => keepsCuts_ordinals hk.isWord hc
  have hminus (t : List Char) : (ordinals k.words t).splitOn '-' = _ :=
    (hcuts '-' (by decide)).splitOn t
  have hslash (t : List Char) : (ordinals k.words t).splitOn '/' = _ :=
    (hcuts '/' (by decide)).splitOn t
  have hcomma (t : List Char) : (ordinals k.words t).splitOn ',' = _ :=
    (hcuts ',' (by decide)).splitOn t
  simp only [parts, hcomma, hslash, hminus, List.flatMap_map, List.map_flatMap]

/-- A tidy field whose names and numbers are accepted is one of the grammar. -/
theorem isField_of_ordinals (hf : Tidy f) (hspace : ∀ c ∈ f, isSpace c = false)
    (h : (dcmCronParseSetNumberHits (ordinals k.words f) bits k.min max).1 = true) :
    IsField (IsTerm k) f := by
  have hne : ∀ p ∈ parts (ordinals k.words f), p ≠ [] := by
    intro p hp
    rw [parts_ordinals hk] at hp
    obtain ⟨q, hq, rfl⟩ := List.mem_map.mp hp
    exact ordinals_ne_nil hk (hf.parts q hq)
  have hunsigned : Unsigned (ordinals k.words f) := by
    refine ⟨fun hnil => ?_, fun c hc => ?_, ?_⟩
    · rw [hnil] at hne
      exact hne [] (by decide) rfl
    · by_contra hc'
      rw [Bool.not_eq_false] at hc'
      have hno : c ∉ f := by
        intro hmem
        rw [hspace c hmem] at hc'
        cases hc'
      exact (keepsCuts_ordinals hk.isWord (not_isAlphanum_of_isSpace hc')).notMem f hno hc
    · exact (keepsCuts_ordinals hk.isWord (by decide)).notMem f hf.plus
  have hcuts : KeepsCuts ',' (ordinals k.words) := keepsCuts_ordinals hk.isWord (by decide)
  have hfield := isField_of_accepted hunsigned hne h
  rw [IsField, hcuts.splitOn, List.forall_mem_map] at hfield
  intro item hitem
  refine isItem_of_ordinals hk (fun r hr p hp => ?_) (hf.steps item hitem) (hfield item hitem)
  exact hf.parts p (List.mem_flatMap.mpr ⟨item, hitem, List.mem_flatMap.mpr ⟨r, hr, hp⟩⟩)

end Back

/-- A field without names. -/
lemma isField_of_numbers (hf : Tidy f) (hspace : ∀ c ∈ f, isSpace c = false)
    (h : (dcmCronParseSetNumberHits f bits min max).1 = true) : IsField (IsTerm k) f := by
  have hne : f ≠ [] := by
    rintro rfl
    exact (hf.parts [] (by decide)).1 rfl
  have hfield := isField_of_accepted ⟨hne, hspace, hf.plus⟩ (fun p hp => (hf.parts p hp).1) h
  exact fun item hitem => (hfield item hitem).mono fun t ht => Or.inl ht.1

/-! ### Patterns -/

lemma FromMinutes.tidy (h : FromMinutes minutes hours dom mon dow) :
    ∀ f ∈ [minutes, hours, dom, mon, dow], Tidy f := by
  have hnumber : ∀ k : FieldKind, k.words = [] → ∀ t, IsTerm k t → Plain t := by
    intro k hk t ht
    exact ht.plain (by simp [hk])
  have hday : ∀ {term : List Char → Prop} {f : List Char}, (∀ t, term t → Plain t) →
      f = ['?'] ∨ IsField term f → Tidy f := by
    rintro term f hterm (rfl | hf)
    · exact tidy_questionMark
    · exact hf.tidy hterm
  have hmonths := h.months.tidy fun t ht => ht.plain hasWords_months.isWord
  have hdow := hday (fun t ht => ht.plain hasWords_daysOfWeek.isWord) h.daysOfWeek
  simp only [List.forall_mem_cons, List.not_mem_nil, false_implies, implies_true, and_true]
  exact ⟨h.minutes.tidy (hnumber _ rfl), h.hours.tidy (hnumber _ rfl),
    hday (hnumber _ rfl) h.daysOfMonth, hmonths, hdow⟩

lemma IsSentence.tidy (h : IsSentence fields) : ∀ f ∈ fields, Tidy f := by
  cases h with
  | five h => exact h.tidy
  | six hseconds h =>
    rw [List.forall_mem_cons]
    exact ⟨hseconds.tidy fun t ht => ht.plain (by simp [sixtieths]), h.tidy⟩

/-- A field as the parser gets it, of which nothing has been left out. -/
structure TidyField (f : List Char) : Prop extends Tidy f where
  not_isSpace : ∀ c ∈ f, isSpace c = false

lemma questionMark_of_ne {f : List Char} (hf : f ≠ ['?']) : questionMark f = f := if_neg hf

lemma dcmCronParseSetMonths_fst (value : List Char) (targ : Bits) :
    (dcmCronParseSetMonths value targ).1 =
      (dcmCronParseSetNumberHits (ordinals months.words value) targ months.min 13).1 := by
  simp only [dcmCronParseSetMonths, ordinals, months]

lemma dcmCronParseSetDaysOfWeek_fst (field : List Char) (targ : Bits) :
    (dcmCronParseSetDaysOfWeek field targ).1 =
      (dcmCronParseSetNumberHits (ordinals daysOfWeek.words (questionMark field)) targ
        daysOfWeek.min 8).1 := by
  simp only [dcmCronParseSetDaysOfWeek, ordinals, daysOfWeek]

lemma fromMinutes_of_accepted {seconds : Option (List Char)}
    (h : FieldsAccepted seconds minutes hours dom mon dow)
    (htidy : ∀ f ∈ [minutes, hours, dom, mon, dow], TidyField f) :
    FromMinutes minutes hours dom mon dow := by
  simp only [List.forall_mem_cons, List.not_mem_nil, false_implies, implies_true, and_true] at htidy
  obtain ⟨hminutes, hhours, hdom, hmon, hdow⟩ := htidy
  have hmonths := h.months
  rw [dcmCronParseSetMonths_fst] at hmonths
  refine ⟨isField_of_numbers hminutes.toTidy hminutes.not_isSpace h.minutes,
    isField_of_numbers hhours.toTidy hhours.not_isSpace h.hours, ?_,
    isField_of_ordinals hasWords_months hmon.toTidy hmon.not_isSpace hmonths, ?_⟩
  · rw [or_iff_not_imp_left]
    intro hne
    have haccepted := h.daysOfMonth
    rw [dcmCronParseSetDaysOfMonth, questionMark_of_ne hne] at haccepted
    exact isField_of_numbers hdom.toTidy hdom.not_isSpace haccepted
  · rw [or_iff_not_imp_left]
    intro hne
    have haccepted := h.daysOfWeek
    rw [dcmCronParseSetDaysOfWeek_fst, questionMark_of_ne hne] at haccepted
    exact isField_of_ordinals hasWords_daysOfWeek hdow.toTidy hdow.not_isSpace haccepted

/-- The fields of an accepted pattern are a sentence if they are tidy. -/
lemma isSentence_of_accepted (h : (dcmCronParseExp expression target).1 = true)
    (htidy : ∀ f ∈ dcmCronParseStrSplit expression ' ', TidyField f) :
    IsSentence (dcmCronParseStrSplit expression ' ') := by
  rw [dcmCronParseExp] at h
  split at h
  · rename_i hsplit
    rw [hsplit] at htidy ⊢
    exact .five (fromMinutes_of_accepted (fieldsAccepted h) htidy)
  · rename_i hsplit
    rw [hsplit, List.forall_mem_cons] at htidy
    rw [hsplit]
    have hfields := fieldsAccepted h
    refine .six ?_ (fromMinutes_of_accepted hfields htidy.2)
    exact isField_of_numbers htidy.1.toTidy htidy.1.not_isSpace hfields.seconds
  · cases h

/-- The split of an accepted pattern deletes white space only beside its fields if and only if no
piece has other white space inside. -/
lemma fields_eq_runs_iff (h : (dcmCronParseExp expression target).1 = true) :
    dcmCronParseStrSplit expression ' ' = runs isSpace expression ↔
      ∀ s ∈ expression.splitOn ' ', (runs isSpace s).length ≤ 1 := by
  have hlen : ¬expression.length ≥ cronMaxStrLenToSplit := by
    intro hlong
    rw [dcmCronParseExp, dcmCronParseStrSplit, if_pos hlong] at h
    cases h
  rw [dcmCronParseStrSplit, if_neg hlen, splitPieces_eq_stripped, strippedPieces]
  exact filter_splitOn_eq_runs_iff (by decide) expression

/-- An accepted pattern is a sentence of the grammar if and only if it is clean. -/
theorem strict_iff_clean {expression : List Char} {target : DcmCronExpr}
    (h : (dcmCronParseExp expression target).1 = true) : Strict expression ↔ Clean expression := by
  constructor
  · intro hstrict
    exact ⟨(fields_eq_runs_iff h).mp hstrict.fields, hstrict.sentence.tidy⟩
  · intro hclean
    have hfields := (fields_eq_runs_iff h).mpr hclean.blanks
    have htidy : ∀ f ∈ dcmCronParseStrSplit expression ' ', TidyField f := by
      intro f hf
      rw [hfields] at hf
      exact ⟨hclean.tidy f hf, fun c hc => not_of_mem_runs hf hc⟩
    refine ⟨hfields, ?_⟩
    rw [← hfields]
    exact isSentence_of_accepted h htidy

theorem weekdays_strict : Strict "*/15 3-5 ? jan MON-fri".toList := by
  have haccepted : (dcmCronParseExp "*/15 3-5 ? jan MON-fri".toList .zero).1 = true := by decide
  exact (strict_iff_clean haccepted).mpr ⟨by decide, by decide⟩

/-- The name behind the digit is read as another digit, so the pattern is one of November. -/
theorem january_misread :
    (dcmCronParseExp "0 5 1 1JAN *".toList .zero).1 = true ∧
      (dcmCronParseExp "0 5 1 1JAN *".toList .zero).2 =
        (dcmCronParseExp "0 5 1 11 *".toList .zero).2 ∧
      ¬Strict "0 5 1 1JAN *".toList := by
  have haccepted : (dcmCronParseExp "0 5 1 1JAN *".toList .zero).1 = true := by decide
  refine ⟨haccepted, by decide +kernel, fun h => ?_⟩
  have hclean := (strict_iff_clean haccepted).mp h
  exact absurd (hclean.tidy "1JAN".toList (by decide)).parts (by decide)

end DcmAgent.Cron
