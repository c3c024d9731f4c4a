import Mathlib.Tactic
import DcmAgent.Cron.Parse
import DcmAgent.Library.Occurrences

/-!
# The replacement of words

`dcmCronParseStrReplace` counts the occurrences of a word, allocates the result and fills it. The
size is computed with the 32-bit lengths of the word and of its replacement, whose difference is
unsigned, and only then widened to `size_t`.
-/

namespace DcmAgent.Cron

open Library

/-- What `dcmCronParseStrReplace` passes to `malloc`, with a `size_t` of `w` bits. -/
def dcmCronParseStrReplaceSize (w : ℕ) (orig rep with' : List Char) : BitVec w :=
  let lenRep : BitVec 32 := .ofNat 32 rep.length
  let lenWith : BitVec 32 := .ofNat 32 with'.length
  let count : BitVec 32 := .ofNat 32 (countOccurrences rep (orig.length + 1) orig)
  BitVec.ofNat w orig.length + ((lenWith - lenRep) * count).setWidth w + 1

/-- The difference of the lengths that the replacements make. -/
def growth (orig rep with' : List Char) : ℤ :=
  ((with'.length : ℤ) - rep.length) * occurrences rep orig

variable {rep with' orig s : List Char}

/-! ### The passes -/

lemma gaps_of_strstr_none (h : strstr rep s = none) : gaps rep 0 s = [s] := by
  induction s with
  | nil => rfl
  | cons c s ih =>
    rw [strstr] at h
    split_ifs at h with hpre
    rw [gaps, if_neg hpre, ih (Option.map_eq_none_iff.mp h)]
    rfl

/-- The first occurrence ends the first gap. -/
lemma gaps_of_strstr_some (hrep : rep ≠ []) {i : ℕ} (h : strstr rep s = some i) :
    gaps rep 0 s = s.take i :: gaps rep 0 (s.drop (i + rep.length)) := by
  induction s generalizing i with
  | nil => cases (if_neg hrep).symm.trans h
  | cons c s ih =>
    rw [strstr] at h
    split_ifs at h with hpre
    · obtain rfl := Option.some.inj h
      rw [gaps_of_occurrence hrep (List.isPrefixOf_iff_prefix.mp hpre), Nat.zero_add]
      rfl
    · obtain ⟨i, hi, rfl⟩ := Option.map_eq_some_iff.mp h
      rw [gaps, if_neg hpre, ih hi, Nat.add_right_comm]
      rfl

lemma occurrences_of_strstr_none (h : strstr rep s = none) : occurrences rep s = 0 := by
  rw [occurrences, gaps_of_strstr_none h]
  rfl

lemma occurrences_of_strstr_some (hrep : rep ≠ []) {i : ℕ} (h : strstr rep s = some i) :
    occurrences rep s = occurrences rep (s.drop (i + rep.length)) + 1 := by
  rw [occurrences, gaps_of_strstr_some hrep h, List.length_cons, length_gaps]
  rfl

lemma countOccurrences_eq (hrep : rep ≠ []) {fuel : ℕ} (hfuel : s.length < fuel) :
    countOccurrences rep fuel s = occurrences rep s := by
  induction fuel generalizing s with
  | zero => exact absurd hfuel (Nat.not_lt_zero _)
  | succ fuel ih =>
    rw [countOccurrences]
    cases h : strstr rep s with
    | none => exact (occurrences_of_strstr_none h).symm
    | some i =>
      cases s with
      | nil => cases (if_neg hrep).symm.trans h
      | cons c s =>
        rw [List.length_cons] at hfuel
        have hpos := List.length_pos_iff.mpr hrep
        have hlt : ((c :: s).drop (i + rep.length)).length < fuel := by
          rw [List.length_drop, List.length_cons]
          omega
        rw [occurrences_of_strstr_some hrep h]
        exact congrArg (· + 1) (ih hlt)

lemma replaceOccurrences_eq (hrep : rep ≠ []) (with' : List Char) {count : ℕ}
    (hcount : count = occurrences rep s) :
    replaceOccurrences rep with' count s = replaceAll rep with' s := by
  induction count generalizing s with
  | zero =>
    cases h : strstr rep s with
    | none =>
      rw [replaceOccurrences, replaceAll, gaps_of_strstr_none h, List.intercalate_singleton]
    | some i =>
      rw [occurrences_of_strstr_some hrep h] at hcount
      cases hcount
  | succ count ih =>
    rw [replaceOccurrences]
    cases h : strstr rep s with
    | none =>
      rw [occurrences_of_strstr_none h] at hcount
      cases hcount
    | some i =>
      rw [occurrences_of_strstr_some hrep h] at hcount
      obtain ⟨g, gs, hgs⟩ := exists_gaps_eq_cons rep (s.drop (i + rep.length))
      have hrest := ih (Nat.succ.inj hcount)
      rw [replaceAll, hgs] at hrest
      rw [replaceAll, gaps_of_strstr_some hrep h, hgs, List.intercalate_cons_cons, ← hrest]

/-- The result has all leftmost non-overlapping occurrences replaced. -/
theorem dcmCronParseStrReplace_eq (hrep : rep ≠ []) (orig with' : List Char) :
    dcmCronParseStrReplace orig rep with' = replaceAll rep with' orig := by
  have hcount := countOccurrences_eq hrep (Nat.lt_succ_self orig.length)
  exact replaceOccurrences_eq hrep with' hcount

/-! ### The size -/

/-- The length of the result. -/
lemma length_dcmCronParseStrReplace (hrep : rep ≠ []) (orig with' : List Char) :
    ((dcmCronParseStrReplace orig rep with').length : ℤ) =
      orig.length + growth orig rep with' := by
  have h := length_replaceAll hrep with' orig
  rw [← dcmCronParseStrReplace_eq hrep] at h
  have h' : ((dcmCronParseStrReplace orig rep with').length : ℤ) +
      rep.length * occurrences rep orig = orig.length + with'.length * occurrences rep orig := by
    exact_mod_cast h
  rw [growth, sub_mul]
  omega

/-- The difference of the lengths, times the number of occurrences, in 32 bits. -/
lemma dcmCronParseStrReplaceSize_eq (w : ℕ) (hrep : rep ≠ []) (orig with' : List Char) :
    dcmCronParseStrReplaceSize w orig rep with' =
      .ofNat w orig.length + (BitVec.ofInt 32 (growth orig rep with')).setWidth w + 1 := by
  have hcount := countOccurrences_eq hrep (Nat.lt_succ_self orig.length)
  rw [growth, sub_eq_add_neg, BitVec.ofInt_mul, BitVec.ofInt_add, BitVec.ofInt_neg,
    ← BitVec.sub_eq_add_neg]
  simp only [dcmCronParseStrReplaceSize, hcount, BitVec.ofInt_natCast]

/-- With 32 bits the sum wraps as a whole. -/
lemma toNat_size_32 (hrep : rep ≠ []) (orig with' : List Char) :
    ((dcmCronParseStrReplaceSize 32 orig rep with').toNat : ℤ) =
      (orig.length + growth orig rep with' + 1) % 2 ^ 32 := by
  have h : dcmCronParseStrReplaceSize 32 orig rep with' =
      .ofInt 32 (orig.length + growth orig rep with' + 1) := by
    rw [dcmCronParseStrReplaceSize_eq 32 hrep, BitVec.setWidth_eq, BitVec.ofInt_add,
      BitVec.ofInt_add, BitVec.ofInt_natCast]
    rfl
  rw [h, BitVec.toNat_ofInt]
  omega

/-- With 64 bits only the growth wraps. -/
lemma toNat_size_64 (hrep : rep ≠ []) {orig : List Char} (horig : orig.length < 2 ^ 31)
    (with' : List Char) :
    ((dcmCronParseStrReplaceSize 64 orig rep with').toNat : ℤ) =
      orig.length + growth orig rep with' % 2 ^ 32 + 1 := by
  have hone : (1 : BitVec 64).toNat = 1 := rfl
  rw [dcmCronParseStrReplaceSize_eq 64 hrep]
  simp only [BitVec.toNat_add, BitVec.toNat_setWidth, BitVec.toNat_ofInt, BitVec.toNat_ofNat, hone]
  omega

/-- The size is that of the result if and only if the computation of it does not wrap: with 32
bits the whole sum, with 64 bits the growth, which is below zero for a shorter replacement. -/
theorem dcmCronParseStrReplace_allocates_iff {w : ℕ} (hw : w = 32 ∨ w = 64)
    {orig rep with' : List Char} (hrep : rep ≠ [])
    (hlen : ∀ s ∈ [orig, rep, with'], s.length < 2 ^ 31) :
    ((dcmCronParseStrReplaceSize w orig rep with').toNat =
          (dcmCronParseStrReplace orig rep with').length + 1 ∧
        dcmCronParseStrReplace orig rep with' = replaceAll rep with' orig) ↔
      (w = 32 → orig.length + growth orig rep with' + 1 < 2 ^ 32) ∧
        (w = 64 → 0 ≤ growth orig rep with' ∧ growth orig rep with' < 2 ^ 32) := by
  have horig := hlen orig (by simp)
  have hresult := length_dcmCronParseStrReplace hrep orig with'
  have hstring := dcmCronParseStrReplace_eq hrep orig with'
  rw [and_iff_left hstring]
  rcases hw with rfl | rfl
  · have hsize := toNat_size_32 hrep orig with'
    generalize growth orig rep with' = g at *
    constructor
    · intro h
      refine ⟨fun _ => ?_, fun h64 => absurd h64 (by decide)⟩
      omega
    · intro h
      have := h.1 rfl
      omega
  · have hsize := toNat_size_64 hrep horig with'
    generalize growth orig rep with' = g at *
    constructor
    · intro h
      refine ⟨fun h32 => absurd h32 (by decide), fun _ => ?_⟩
      omega
    · intro h
      have := h.2 rfl
      omega

theorem monday_allocates_32 :
    (dcmCronParseStrReplaceSize 32 "MON".toList "MON".toList "1".toList).toNat =
        (dcmCronParseStrReplace "MON".toList "MON".toList "1".toList).length + 1 ∧
      dcmCronParseStrReplace "MON".toList "MON".toList "1".toList =
        replaceAll "MON".toList "1".toList "MON".toList :=
  (dcmCronParseStrReplace_allocates_iff (.inl rfl) (by decide) (by decide)).mpr
    ⟨fun _ => by decide, fun h => absurd h (by decide)⟩

/-- With 64 bits the size for one shorter character is 4 GiB too large. -/
theorem monday_overallocates_64 :
    ¬((dcmCronParseStrReplaceSize 64 "MON".toList "MON".toList "1".toList).toNat =
        (dcmCronParseStrReplace "MON".toList "MON".toList "1".toList).length + 1 ∧
      dcmCronParseStrReplace "MON".toList "MON".toList "1".toList =
        replaceAll "MON".toList "1".toList "MON".toList) := by
  decide

/-- The words that the parser replaces are longer than their numbers, so with 64 bits the size is
right just where there is nothing to replace. -/
theorem ordinals_allocate_iff {p : List Char × ℕ}
    (hp : p ∈ daysArr.zipIdx ++ monthsArr.zipIdx) (horig : orig.length < 2 ^ 31) :
    (dcmCronParseStrReplaceSize 64 orig p.1 (Nat.repr p.2).toList).toNat =
        (dcmCronParseStrReplace orig p.1 (Nat.repr p.2).toList).length + 1 ↔
      occurrences p.1 orig = 0 := by
  have hshort : ((Nat.repr p.2).toList).length < p.1.length ∧ p.1.length < 2 ^ 31 := by
    revert p
    decide
  have hrep : p.1 ≠ [] := List.ne_nil_of_length_pos (by omega)
  have hsize := toNat_size_64 hrep horig (Nat.repr p.2).toList
  have hresult := length_dcmCronParseStrReplace hrep orig (Nat.repr p.2).toList
  constructor
  · intro h
    by_contra hsome
    have hneg : growth orig p.1 (Nat.repr p.2).toList < 0 :=
      mul_neg_of_neg_of_pos (by omega) (by omega)
    omega
  · intro hnone
    have hzero : growth orig p.1 (Nat.repr p.2).toList = 0 := by
      rw [growth, hnone, Nat.cast_zero, mul_zero]
    omega

end DcmAgent.Cron
