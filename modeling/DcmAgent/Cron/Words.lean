import Mathlib
import DcmAgent.Cron.Render

/-!
# Names in cron patterns

`dcmCronParseReplaceOrdinals` replaces one word after the other by its number. A text is seen as a
list of tokens, single characters and words; after `n` rounds the first `n` words are spelled as
numbers. Words do not follow each other, so no occurrence of a word lies across two tokens.
-/

namespace DcmAgent.Cron

inductive Token where
  | char (c : Char)
  | word (i : ℕ)
  deriving DecidableEq

/-- The text of a token after `n` rounds. -/
def Token.spell (words : List (List Char)) (n : ℕ) : Token → List Char
  | .char c => [c]
  | .word i => if i < n then decimal i else words.getD i []

def spell (words : List (List Char)) (n : ℕ) (ts : List Token) : List Char :=
  ts.flatMap (Token.spell words n)

/-- Three capital letters. -/
structure IsWord (w : List Char) : Prop where
  length_eq : w.length = 3
  isUpper : ∀ c ∈ w, c.isUpper = true

/-- No word follows a word, and the other characters are not capital letters. -/
inductive Spaced (words : List (List Char)) : List Token → Prop where
  | nil : Spaced words []
  | char {c : Char} {ts : List Token} (hc : c.isUpper = false) (hts : Spaced words ts) :
      Spaced words (.char c :: ts)
  | word {i : ℕ} {ts : List Token} (hi : i < words.length)
      (hstart : ∀ j, ts.head? ≠ some (.word j)) (hts : Spaced words ts) :
      Spaced words (.word i :: ts)

variable {words : List (List Char)} {n k i : ℕ} {ts pre post : List Token} {rep w s : List Char}
  {c : Char}

@[simp] lemma spell_nil : spell words n [] = [] := rfl

@[simp] lemma spell_cons (t : Token) :
    spell words n (t :: ts) = t.spell words n ++ spell words n ts := rfl

lemma spell_word (hi : i < words.length) (hn : n ≤ i) :
    (Token.word i).spell words n = words[i] := by
  simp [Token.spell, hi, hn]

lemma spell_append : spell words n (pre ++ post) = spell words n pre ++ spell words n post := by
  simp [spell]

lemma Spaced.of_append (h : Spaced words (pre ++ post)) : Spaced words post := by
  induction pre with
  | nil => exact h
  | cons t pre ih =>
    cases h with
    | char _ hts => exact ih hts
    | word _ _ hts => exact ih hts

/-- A text that does not start with a word does not start with a capital letter. -/
lemma Spaced.head_not_isUpper (h : Spaced words ts) (hstart : ∀ j, ts.head? ≠ some (.word j)) :
    ∀ c ∈ (spell words n ts).head?, c.isUpper = false := by
  cases h with
  | nil => simp
  | char hc _ => simpa [Token.spell] using hc
  | @word i _ _ _ _ => exact absurd rfl (hstart i)

/-! ### The search for a word -/

section Search

variable (hrep : IsWord rep)

include hrep

lemma IsWord.ne_nil : rep ≠ [] := by
  intro h
  simpa [h] using hrep.length_eq

lemma strstr_nil : strstr rep [] = none := if_neg hrep.ne_nil

lemma strstr_cons_of_not_isUpper (hc : c.isUpper = false) :
    strstr rep (c :: s) = (strstr rep s).map (· + 1) := by
  have hno : rep.isPrefixOf (c :: s) = false := by
    cases rep with
    | nil => exact absurd rfl hrep.ne_nil
    | cons r rep =>
      have hr : r.isUpper = true := hrep.isUpper r List.mem_cons_self
      have hne : r ≠ c := by
        rintro rfl
        exact Bool.false_ne_true (hc.symm.trans hr)
      simp [List.isPrefixOf, hne]
  rw [strstr, hno]
  rfl

/-- Characters that are no capital letters are passed over. -/
lemma strstr_append_of_not_isUpper {p : List Char} (hp : ∀ c ∈ p, c.isUpper = false) :
    strstr rep (p ++ s) = (strstr rep s).map (· + p.length) := by
  induction p with
  | nil => simp
  | cons c p ih =>
    rw [List.cons_append, strstr_cons_of_not_isUpper hrep (hp c List.mem_cons_self),
      ih fun c hc => hp c (List.mem_cons_of_mem _ hc), Option.map_map]
    rfl

lemma strstr_self : strstr rep (rep ++ s) = some 0 := by
  cases rep with
  | nil => exact absurd rfl hrep.ne_nil
  | cons r rep => simp [strstr]

/-- So is another word, which `rep` cannot start in. -/
lemma strstr_append_word (hw : IsWord w) (hne : rep ≠ w) (hs : ∀ c ∈ s.head?, c.isUpper = false) :
    strstr rep (w ++ s) = (strstr rep s).map (· + w.length) := by
  obtain ⟨r₁, r₂, r₃, rfl⟩ := List.length_eq_three.mp hrep.length_eq
  obtain ⟨w₁, w₂, w₃, rfl⟩ := List.length_eq_three.mp hw.length_eq
  have h₂ : r₂.isUpper = true := hrep.isUpper r₂ (by simp)
  have h₃ : r₃.isUpper = true := hrep.isUpper r₃ (by simp)
  have hne' : ∀ c ∈ s.head?, r₂ ≠ c ∧ r₃ ≠ c := by
    intro c hc
    have hc := hs c hc
    constructor
    · rintro rfl
      exact Bool.false_ne_true (hc.symm.trans h₂)
    · rintro rfl
      exact Bool.false_ne_true (hc.symm.trans h₃)
  cases s with
  | nil => simp_all [strstr, List.isPrefixOf]
  | cons c s =>
    obtain ⟨hc₂, hc₃⟩ := hne' c rfl
    simp_all [strstr, List.isPrefixOf, Option.map_map, Function.comp_def]

end Search

/-! ### The digits of a number -/

lemma isDigit_of_mem_decimal (hc : c ∈ decimal n) : c.isDigit = true := by
  rw [decimal, Nat.toList_repr] at hc
  exact Nat.isDigit_of_mem_toDigits (by norm_num) (by norm_num) hc

lemma decimal_ne_nil (n : ℕ) : decimal n ≠ [] := by
  rw [decimal, Nat.toList_repr]
  exact Nat.toDigits_ne_nil

lemma not_isUpper_of_isDigit (hc : c.isDigit = true) : c.isUpper = false := by
  by_contra hupper
  simp [Char.isDigit, Char.isUpper, UInt32.le_iff_toNat_le] at hc hupper
  omega

/-- No token is empty. -/
lemma Spaced.length_le (hwords : ∀ w ∈ words, IsWord w) (h : Spaced words ts) (n : ℕ) :
    ts.length ≤ (spell words n ts).length := by
  induction h with
  | nil => simp
  | char _ _ ih =>
    simp only [spell_cons, Token.spell, List.length_append, List.length_cons, List.length_nil]
    omega
  | @word i _ hi _ _ ih =>
    have hne : (Token.word i).spell words n ≠ [] := by
      by_cases hin : i < n
      · have hspell : (Token.word i).spell words n = decimal i := if_pos hin
        rw [hspell]
        exact decimal_ne_nil i
      · rw [spell_word hi (not_lt.mp hin)]
        exact (hwords _ (List.getElem_mem hi)).ne_nil
    have hpos := List.length_pos_iff.mpr hne
    simp only [spell_cons, List.length_append, List.length_cons]
    omega

/-! ### One word -/

section Replace

variable (hwords : ∀ w ∈ words, IsWord w) (hnodup : words.Nodup) (hk : k < words.length)

include hwords hnodup hk

/-- Tokens other than the word `k` are passed over. -/
lemma strstr_spell_append (hts : Spaced words (pre ++ post)) (hpre : .word k ∉ pre) :
    strstr words[k] (spell words k (pre ++ post)) =
      (strstr words[k] (spell words k post)).map (· + (spell words k pre).length) := by
  have hrep : IsWord words[k] := hwords _ (List.getElem_mem hk)
  induction pre with
  | nil => simp
  | cons t pre ih =>
    rw [List.cons_append] at hts
    have hpre' : .word k ∉ pre := fun h => hpre (List.mem_cons_of_mem _ h)
    rw [List.cons_append, spell_cons, spell_cons, List.length_append]
    cases hts with
    | @char c _ hc hts =>
      rw [strstr_append_of_not_isUpper hrep (by simpa [Token.spell] using hc), ih hts hpre',
        Option.map_map]
      congr 1
      funext m
      simp only [Function.comp_apply]
      omega
    | @word i _ hi hstart hts =>
      have hskip : strstr words[k] ((Token.word i).spell words k ++ spell words k (pre ++ post)) =
          (strstr words[k] (spell words k (pre ++ post))).map
            (· + ((Token.word i).spell words k).length) := by
        by_cases hik : i < k
        · have hspell : (Token.word i).spell words k = decimal i := if_pos hik
          rw [hspell]
          apply strstr_append_of_not_isUpper hrep
          intro c hc
          exact not_isUpper_of_isDigit (isDigit_of_mem_decimal hc)
        · have hne : words[k] ≠ words[i] := by
            intro heq
            have hki : k = i := (List.Nodup.getElem_inj_iff hnodup).mp heq
            exact hpre (by simp [hki])
          rw [spell_word hi (not_lt.mp hik)]
          exact strstr_append_word hrep (hwords _ (List.getElem_mem hi)) hne
            (hts.head_not_isUpper hstart)
      rw [hskip, ih hts hpre', Option.map_map]
      congr 1
      funext m
      simp only [Function.comp_apply]
      omega

lemma strstr_spell_of_notMem (hts : Spaced words ts) (hno : .word k ∉ ts) :
    strstr words[k] (spell words k ts) = none := by
  have h := @strstr_spell_append words k ts [] hwords hnodup hk (by simpa using hts) hno
  rw [List.append_nil, spell_nil, strstr_nil (hwords _ (List.getElem_mem hk))] at h
  exact h

/-- The first occurrence. -/
lemma strstr_spell_word (hts : Spaced words (pre ++ .word k :: post)) (hpre : .word k ∉ pre) :
    strstr words[k] (spell words k (pre ++ .word k :: post)) = some (spell words k pre).length := by
  rw [strstr_spell_append hwords hnodup hk hts hpre, spell_cons,
    spell_word hk le_rfl, strstr_self (hwords _ (List.getElem_mem hk))]
  simp

omit hwords hnodup in
/-- The text behind it. -/
lemma drop_spell_word : (spell words k (pre ++ .word k :: post)).drop
    ((spell words k pre).length + words[k].length) = spell words k post := by
  rw [spell_append, spell_cons, spell_word hk le_rfl, ← List.append_assoc,
    ← List.length_append, List.drop_left]

lemma countOccurrences_spell {fuel : ℕ} (hts : Spaced words ts)
    (hfuel : ts.count (.word k) < fuel) :
    countOccurrences words[k] fuel (spell words k ts) = ts.count (.word k) := by
  induction fuel generalizing ts with
  | zero => omega
  | succ fuel ih =>
    rw [countOccurrences]
    by_cases hmem : .word k ∈ ts
    · obtain ⟨pre, post, rfl, hpre⟩ := List.eq_append_cons_of_mem hmem
      rw [List.count_append, List.count_cons_self, List.count_eq_zero_of_not_mem hpre] at hfuel ⊢
      rw [strstr_spell_word hwords hnodup hk hts hpre]
      dsimp only
      have hpost : Spaced words post :=
        @Spaced.of_append _ (pre ++ [.word k]) _ (by simpa using hts)
      rw [drop_spell_word hk, ih hpost (by omega)]
      omega
    · rw [strstr_spell_of_notMem hwords hnodup hk hts hmem, List.count_eq_zero_of_not_mem hmem]

omit hwords hnodup hk in
lemma spell_succ_of_notMem (hno : .word k ∉ ts) : spell words (k + 1) ts = spell words k ts := by
  induction ts with
  | nil => rfl
  | cons t ts ih =>
    rw [spell_cons, spell_cons, ih fun h => hno (List.mem_cons_of_mem _ h)]
    congr 1
    cases t with
    | char c => rfl
    | word i =>
      have hne : i ≠ k := by
        rintro rfl
        exact hno List.mem_cons_self
      simp only [Token.spell]
      exact if_congr (by omega) rfl rfl

lemma replaceOccurrences_spell {count : ℕ} (hts : Spaced words ts)
    (hcount : ts.count (.word k) = count) :
    replaceOccurrences words[k] (decimal k) count (spell words k ts) = spell words (k + 1) ts := by
  induction count generalizing ts with
  | zero =>
    have hno : .word k ∉ ts := List.count_eq_zero.mp hcount
    rw [replaceOccurrences, spell_succ_of_notMem hno]
  | succ count ih =>
    have hmem : .word k ∈ ts := List.count_pos_iff.mp (by omega)
    obtain ⟨pre, post, rfl, hpre⟩ := List.eq_append_cons_of_mem hmem
    rw [List.count_append, List.count_cons_self, List.count_eq_zero_of_not_mem hpre] at hcount
    have hpost : Spaced words post := @Spaced.of_append _ (pre ++ [.word k]) _ (by simpa using hts)
    have hspell : (Token.word k).spell words (k + 1) = decimal k := if_pos (by omega)
    rw [replaceOccurrences, strstr_spell_word hwords hnodup hk hts hpre]
    dsimp only
    rw [drop_spell_word hk, ih hpost (by omega), spell_append, List.take_left,
      spell_append, spell_cons, spell_succ_of_notMem hpre, hspell, List.append_assoc]

lemma dcmCronParseStrReplace_spell (hts : Spaced words ts) :
    dcmCronParseStrReplace (spell words k ts) words[k] (decimal k) = spell words (k + 1) ts := by
  have hlen := hts.length_le hwords k
  have hle := List.count_le_length (a := .word k) (l := ts)
  rw [dcmCronParseStrReplace, countOccurrences_spell hwords hnodup hk hts (by omega)]
  exact replaceOccurrences_spell hwords hnodup hk hts rfl

end Replace

/-! ### All words -/

/-- After all rounds every word is spelled as its number. -/
theorem dcmCronParseReplaceOrdinals_spell (hwords : ∀ w ∈ words, IsWord w) (hnodup : words.Nodup)
    (hts : Spaced words ts) :
    dcmCronParseReplaceOrdinals (spell words 0 ts) words = spell words words.length ts := by
  -- the rounds that are left, from the word `k` on
  have hrounds : ∀ rest k, words.drop k = rest → k ≤ words.length →
      (rest.zipIdx k).foldl (fun cur p => dcmCronParseStrReplace cur p.1 (decimal p.2))
        (spell words k ts) = spell words words.length ts := by
    intro rest
    induction rest with
    | nil =>
      intro k hdrop hk
      have hle : words.length ≤ k := List.drop_eq_nil_iff.mp hdrop
      rw [show k = words.length by omega]
      rfl
    | cons w rest ih =>
      intro k hdrop hk
      have hlt : k < words.length := by
        by_contra hge
        rw [List.drop_eq_nil_of_le (by omega)] at hdrop
        cases hdrop
      rw [List.drop_eq_getElem_cons hlt] at hdrop
      obtain ⟨rfl, hrest⟩ := List.cons.inj hdrop
      rw [List.zipIdx_cons, List.foldl_cons]
      dsimp only
      rw [dcmCronParseStrReplace_spell hwords hnodup hlt hts]
      exact ih (k + 1) hrest hlt
  exact hrounds words 0 rfl (Nat.zero_le _)

end DcmAgent.Cron
