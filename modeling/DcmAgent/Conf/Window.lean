import Mathlib.Tactic
import DcmAgent.Conf.Maintenance
import DcmAgent.Cron.Numeric
import DcmAgent.Cron.Accepted

/-!
# The maintenance window and the parser

For a pattern with one minute and one hour, the file of the maintenance window is compared with what
the parser of cron patterns reads. Both see the same digits when the first two pieces of the text
are the fields for minutes and hours; the parser leaves white space and empty items out, though,
which `atoi` stops at.
-/

namespace DcmAgent.Conf

open Library Cron
open Upload (atoi leadingInteger)

variable {s f text blanks sign digits rest more : List Char} {c : Char} {m h min max : ℕ}

/-! ### Numbers at the start of a text -/

/-- White space, a sign if there is one, digits as far as they go, and the rest. -/
structure Shape (s blanks sign digits rest : List Char) : Prop where
  eq : s = blanks ++ (sign ++ (digits ++ rest))
  blank : ∀ c ∈ blanks, Cron.isSpace c = true
  sign_eq : sign = [] ∧
      (∀ c ∈ (digits ++ rest).head?, Cron.isSpace c = false ∧ c ≠ '-' ∧ c ≠ '+') ∨
    sign = ['+'] ∨ sign = ['-']
  digit : ∀ c ∈ digits, c.isDigit = true
  stop : ∀ c ∈ rest.head?, c.isDigit = false

abbrev value (digits : List Char) : ℕ := Nat.ofDigitChars 10 digits 0

def signed (sign : List Char) (n : ℕ) : ℤ := if sign = ['-'] then -n else n

/-- The number that a text starts with, which is 0 without digits. -/
def Spells (s : List Char) (z : ℤ) : Prop :=
  ∃ blanks sign digits rest, Shape s blanks sign digits rest ∧ z = signed sign (value digits)

lemma head_dropWhile {p : Char → Bool} (s : List Char) :
    ∀ c ∈ (s.dropWhile p).head?, p c = false := by
  intro c hc
  have := List.head?_dropWhile_not p s
  rw [Option.mem_def.mp hc] at this
  simpa using this

lemma exists_shape (s : List Char) :
    ∃ blanks sign digits rest, Shape s blanks sign digits rest := by
  have hs : s = s.takeWhile Cron.isSpace ++ s.dropWhile Cron.isSpace :=
    List.takeWhile_append_dropWhile.symm
  have hblank : ∀ c ∈ s.takeWhile Cron.isSpace, Cron.isSpace c = true := fun c hc =>
    List.mem_takeWhile_imp hc
  have hhead := head_dropWhile (p := Cron.isSpace) s
  generalize s.takeWhile Cron.isSpace = blanks at hs hblank
  generalize s.dropWhile Cron.isSpace = t at hs hhead
  subst hs
  have hdigits (t : List Char) : t.takeWhile Char.isDigit ++ t.dropWhile Char.isDigit = t :=
    List.takeWhile_append_dropWhile
  have hdigit (t : List Char) : ∀ c ∈ t.takeWhile Char.isDigit, c.isDigit = true := fun c hc =>
    List.mem_takeWhile_imp hc
  by_cases hsign : t.head? = some '+' ∨ t.head? = some '-'
  · obtain ⟨c, u, rfl⟩ : ∃ c u, t = c :: u := by
      cases t with
      | nil => simp at hsign
      | cons c u => exact ⟨c, u, rfl⟩
    refine ⟨blanks, [c], u.takeWhile Char.isDigit, u.dropWhile Char.isDigit, ?_, hblank, .inr ?_,
      hdigit u, head_dropWhile u⟩
    · rw [hdigits]
      rfl
    · simpa using hsign
  · refine ⟨blanks, [], t.takeWhile Char.isDigit, t.dropWhile Char.isDigit, ?_, hblank,
      .inl ⟨rfl, ?_⟩, hdigit t, head_dropWhile t⟩
    · rw [hdigits]
      rfl
    · rw [hdigits]
      intro c hc
      push Not at hsign
      rw [Option.mem_def] at hc
      rw [hc] at hsign
      exact ⟨hhead c hc, fun h => hsign.2 (h ▸ rfl), fun h => hsign.1 (h ▸ rfl)⟩

lemma takeWhile_digits (hdigit : ∀ c ∈ digits, c.isDigit = true)
    (hstop : ∀ c ∈ rest.head?, c.isDigit = false) :
    (digits ++ rest).takeWhile Char.isDigit = digits := by
  rw [List.takeWhile_append_of_pos hdigit]
  cases rest with
  | nil => simp
  | cons c rest => simp [hstop c rfl]

lemma foldl_digits (hdigit : ∀ c ∈ digits, c.isDigit = true) (n : ℕ) :
    digits.foldl (fun (n : ℤ) c => 10 * n + (c.toNat - '0'.toNat)) n =
      Nat.ofDigitChars 10 digits n := by
  induction digits generalizing n with
  | nil => simp
  | cons c digits ih =>
    have hge := (toNat_of_isDigit (hdigit c List.mem_cons_self)).1
    have hstep : 10 * (n : ℤ) + (c.toNat - '0'.toNat) = ((10 * n + (c.toNat - 48) : ℕ) : ℤ) := by
      have hzero : '0'.toNat = 48 := rfl
      rw [hzero]
      omega
    rw [List.foldl_cons, hstep, ih fun c hc => hdigit c (List.mem_cons_of_mem _ hc),
      Nat.ofDigitChars_cons]
    rfl

lemma Shape.leadingInteger_eq (hs : Shape s blanks sign digits rest) :
    leadingInteger s = signed sign (value digits) := by
  have hread : ((digits ++ rest).takeWhile Char.isDigit).foldl
      (fun (n : ℤ) c => 10 * n + (c.toNat - '0'.toNat)) 0 = (value digits : ℤ) := by
    rw [takeWhile_digits hs.digit hs.stop]
    exact foldl_digits hs.digit 0
  have hdrop (t : List Char) (ht : ∀ c ∈ t.head?, Cron.isSpace c = false) :
      (blanks ++ t).dropWhile Cron.isSpace = t := by
    rw [List.dropWhile_append_of_pos hs.blank]
    cases t with
    | nil => rfl
    | cons c t => simp [ht c rfl]
  rw [hs.eq, leadingInteger]
  rcases hs.sign_eq with ⟨rfl, hhead⟩ | rfl | rfl
  · rw [List.nil_append, hdrop _ fun c hc => (hhead c hc).1]
    split
    · rename_i heq
      exact absurd rfl (hhead '-' (by rw [heq]; rfl)).2.1
    · rename_i heq
      exact absurd rfl (hhead '+' (by rw [heq]; rfl)).2.2
    · exact hread
  · rw [hdrop _ (by simp [Cron.isSpace])]
    exact hread
  · rw [hdrop _ (by simp [Cron.isSpace])]
    simp only [List.cons_append, List.nil_append, hread]
    rfl

lemma spells_iff {z : ℤ} : Spells s z ↔ leadingInteger s = z := by
  constructor
  · rintro ⟨blanks, sign, digits, rest, hs, rfl⟩
    exact hs.leadingInteger_eq
  · rintro rfl
    obtain ⟨blanks, sign, digits, rest, hs⟩ := exists_shape s
    exact ⟨blanks, sign, digits, rest, hs, hs.leadingInteger_eq⟩

lemma value_lt (hdigit : ∀ c ∈ digits, c.isDigit = true) : value digits < 10 ^ digits.length := by
  induction digits with
  | nil => simp [value]
  | cons c digits ih =>
    obtain ⟨hc, hdigits⟩ := List.forall_mem_cons.mp hdigit
    obtain ⟨-, hlt⟩ := toNat_of_isDigit hc
    have hzero : '0'.toNat = 48 := rfl
    have hle : c.toNat - '0'.toNat ≤ 9 := by omega
    have hdigit := Nat.mul_le_mul_left (10 ^ digits.length) hle
    have hrest : Nat.ofDigitChars 10 digits 0 < 10 ^ digits.length := ih hdigits
    rw [value, Nat.ofDigitChars_cons, Nat.ofDigitChars_eq_ofDigitChars_zero, List.length_cons,
      pow_succ]
    simp only [Nat.mul_zero, Nat.zero_add]
    omega

/-- Three characters do not spell a number outside of `int`. -/
lemma atoi_eq_leadingInteger (h : s.length < 4) : atoi s = leadingInteger s := by
  obtain ⟨blanks, sign, digits, rest, hs⟩ := exists_shape s
  have hlen : digits.length ≤ 3 := by
    have := congrArg List.length hs.eq
    simp only [List.length_append] at this
    omega
  have hpow : 10 ^ digits.length ≤ 10 ^ 3 := Nat.pow_le_pow_right (by norm_num) hlen
  have hlt := value_lt hs.digit
  have hbounds : -1000 < leadingInteger s ∧ leadingInteger s < 1000 := by
    rw [hs.leadingInteger_eq, signed]
    split_ifs <;> omega
  rw [atoi, min_eq_right (by omega), max_eq_right (by omega)]
  exact Int.bmod_eq_of_le (by norm_num; omega) (by norm_num; omega)

/-! ### The first number of a field -/

/-- What is left of a text without its white space. -/
abbrev strip (s : List Char) : List Char := s.filter fun c => !Cron.isSpace c

/-- The piece before the first delimiter, if it is more than white space, and those behind it. -/
lemma splitPieces_eq (del : Char) (s buf : List Char) :
    splitPieces del s buf =
      (if buf ++ strip (s.takeWhile (· ≠ del)) = [] then []
        else [buf ++ strip (s.takeWhile (· ≠ del))]) ++
        splitPieces del (s.dropWhile (· ≠ del)).tail [] := by
  induction s generalizing buf with
  | nil => by_cases hbuf : buf = [] <;> simp [splitPieces, hbuf, List.length_pos_iff]
  | cons c s ih =>
    rw [splitPieces]
    by_cases hdel : c = del
    · by_cases hbuf : buf = [] <;> simp [hdel, hbuf, List.length_pos_iff]
    · rw [if_neg hdel, List.takeWhile_cons_of_pos (by simpa using hdel),
        List.dropWhile_cons_of_pos (by simpa using hdel), strip, List.filter_cons]
      cases hspace : Cron.isSpace c
      · simpa using ih (buf ++ [c])
      · simpa using ih buf

/-- The first piece of a text without white space that does not start with the delimiter. -/
lemma exists_split {del : Char} (hs : ∀ c ∈ s, Cron.isSpace c = false)
    (hhead : ∀ c ∈ s.head?, c ≠ del)
    (hne : s ≠ []) (hlen : s.length < cronMaxStrLenToSplit) :
    ∃ ps, dcmCronParseStrSplit s del = s.takeWhile (· ≠ del) :: ps := by
  have hstrip : strip (s.takeWhile (· ≠ del)) = s.takeWhile (· ≠ del) := by
    rw [strip, List.filter_eq_self]
    intro d hd
    rw [hs d ((List.takeWhile_prefix _).subset hd)]
    rfl
  have hne' : s.takeWhile (· ≠ del) ≠ [] := by
    obtain ⟨c, t, rfl⟩ := List.exists_cons_of_ne_nil hne
    rw [List.takeWhile_cons_of_pos (by simpa using hhead c rfl)]
    exact List.cons_ne_nil _ _
  rw [dcmCronParseStrSplit, if_neg (not_le.mpr hlen), splitPieces_eq, List.nil_append, hstrip,
    if_neg hne']
  exact ⟨_, rfl⟩

/-- The text starts with a number: a sign if there is one, and digits. -/
structure Leads (s sign digits rest : List Char) : Prop where
  eq : s = sign ++ (digits ++ rest)
  plain : ∀ c ∈ s, Cron.isSpace c = false
  sign_eq : sign = [] ∨ sign = ['+'] ∨ sign = ['-']
  digit : ∀ c ∈ digits, c.isDigit = true
  ne_nil : digits ≠ []
  stop : ∀ c ∈ rest.head?, c.isDigit = false

lemma Leads.ne_nil' (h : Leads s sign digits rest) : s ≠ [] := by
  rw [h.eq]
  simp [h.ne_nil]

/-- The first characters of a number are neither commas nor slashes. -/
lemma Leads.ne_of_mem (h : Leads s sign digits rest) {del : Char}
    (hdel : del = ',' ∨ del = '/' ∨ del = '-' ∧ sign ≠ ['-']) : ∀ c ∈ sign ++ digits, c ≠ del := by
  intro c hc
  rcases List.mem_append.mp hc with hc | hc
  · rcases h.sign_eq with rfl | rfl | rfl
    · cases hc
    · obtain rfl := List.mem_singleton.mp hc
      rcases hdel with rfl | rfl | ⟨rfl, -⟩ <;> decide
    · obtain rfl := List.mem_singleton.mp hc
      rcases hdel with rfl | rfl | ⟨-, hne⟩
      · decide
      · decide
      · exact absurd rfl hne
  · obtain ⟨-, hminus, hslash, hcomma, -⟩ := ne_of_isDigit (h.digit c hc)
    rcases hdel with rfl | rfl | ⟨rfl, -⟩
    · exact hcomma
    · exact hslash
    · exact hminus

/-- The first piece starts with the same number. -/
lemma Leads.takeWhile (h : Leads s sign digits rest) {del : Char}
    (hdel : ∀ c ∈ sign ++ digits, c ≠ del) :
    Leads (s.takeWhile (· ≠ del)) sign digits (rest.takeWhile (· ≠ del)) := by
  have heq : s.takeWhile (· ≠ del) = sign ++ (digits ++ rest.takeWhile (· ≠ del)) := by
    rw [h.eq, ← List.append_assoc, List.takeWhile_append_of_pos, List.append_assoc]
    intro c hc
    simpa using hdel c hc
  refine ⟨heq, fun c hc => h.plain c ((List.takeWhile_prefix _).subset hc), h.sign_eq, h.digit,
    h.ne_nil, ?_⟩
  intro c hc
  apply h.stop
  cases hrest : rest with
  | nil => simp [hrest] at hc
  | cons d rest =>
    rw [hrest, List.takeWhile_cons] at hc
    split_ifs at hc
    · exact hc
    · cases hc

lemma Leads.exists_split (h : Leads s sign digits rest) {del : Char}
    (hdel : ∀ c ∈ sign ++ digits, c ≠ del) (hlen : s.length < cronMaxStrLenToSplit) :
    ∃ p ps, dcmCronParseStrSplit s del = p :: ps ∧ p.length < cronMaxStrLenToSplit ∧
      Leads p sign digits (rest.takeWhile (· ≠ del)) := by
  have hhead : ∀ c ∈ s.head?, c ≠ del := by
    intro c hc
    have hmem : c ∈ sign ++ digits := by
      rw [h.eq, ← List.append_assoc, List.head?_append_of_ne_nil _ (by simp [h.ne_nil])] at hc
      exact List.mem_of_head? hc
    exact hdel c hmem
  obtain ⟨ps, hps⟩ := Conf.exists_split h.plain hhead h.ne_nil' hlen
  exact ⟨_, ps, hps, (List.takeWhile_prefix _).length_le.trans_lt hlen, h.takeWhile hdel⟩

lemma readDigits_append (hdigit : ∀ c ∈ digits, c.isDigit = true)
    (hstop : ∀ c ∈ rest.head?, c.isDigit = false) (acc : ℕ) :
    readDigits acc (digits ++ rest) = (((Nat.ofDigitChars 10 digits acc : ℕ) : ℤ), rest) := by
  induction digits generalizing acc with
  | nil =>
    cases rest with
    | nil => simp [readDigits]
    | cons c rest => simp [readDigits, hstop c rfl]
  | cons c digits ih =>
    have hc := hdigit c List.mem_cons_self
    have hge := (toNat_of_isDigit hc).1
    have hacc : (10 * (acc : ℤ) + (c.toNat - 48)) = ((10 * acc + (c.toNat - 48) : ℕ) : ℤ) := by
      omega
    rw [List.cons_append, readDigits, if_pos hc, hacc,
      ih fun c hc => hdigit c (List.mem_cons_of_mem _ hc), Nat.ofDigitChars_cons]
    rfl

/-- The number that is read is the one in front. -/
lemma Leads.parseUint (h : Leads s sign digits rest) (hsign : sign ≠ ['-']) {n : ℕ}
    (hn : dcmCronParseParseUint s = some n) : n = value digits := by
  have hdrop : s.dropWhile Cron.isSpace = s := by
    obtain ⟨c, t, rfl⟩ := List.exists_cons_of_ne_nil h.ne_nil'
    simp [h.plain c List.mem_cons_self]
  obtain ⟨c, ds, hc⟩ := List.exists_cons_of_ne_nil h.ne_nil
  have hdigit := h.digit c (hc ▸ List.mem_cons_self)
  obtain ⟨-, hminus, -, -, hplus⟩ := ne_of_isDigit hdigit
  have hread : readDigits 0 (digits ++ rest) = ((value digits : ℤ), rest) :=
    readDigits_append h.digit h.stop 0
  have hhead : (digits ++ rest).head? = some c := by rw [hc]; rfl
  have hstrtol : strtol s = ((value digits : ℤ), rest) := by
    rw [strtol, hdrop]
    rcases h.sign_eq with rfl | rfl | rfl
    · rw [h.eq, List.nil_append, hhead]
      simp [hminus, hplus, hdigit, hread, hhead]
    · rw [h.eq]
      simp [hdigit, hread, hhead]
    · exact absurd rfl hsign
  rw [dcmCronParseParseUint, hstrtol] at hn
  dsimp only at hn
  split_ifs at hn
  exact (Option.some.inj hn).symm

/-- The number in front is the lower bound of the range. -/
lemma Leads.readRange (h : Leads s sign digits rest) (hlen : s.length < cronMaxStrLenToSplit)
    {res : ℕ × ℕ} (hres : Cron.readRange s min max = some res) : res.1 = value digits := by
  have hstar : s ≠ ['*'] := by
    obtain ⟨c, ds, hc⟩ := List.exists_cons_of_ne_nil h.ne_nil
    have hdigit := h.digit c (hc ▸ List.mem_cons_self)
    rw [h.eq, hc]
    rcases h.sign_eq with rfl | rfl | rfl
    · intro heq
      exact (ne_of_isDigit hdigit).1 (List.cons.inj heq).1
    · simp
    · simp
  rw [Cron.readRange, if_neg hstar] at hres
  by_cases hminus : '-' ∉ s
  · rw [if_pos hminus] at hres
    obtain ⟨n, hn, rfl⟩ := Option.map_eq_some_iff.mp hres
    refine h.parseUint ?_ hn
    rintro rfl
    exact hminus (by rw [h.eq]; simp)
  · rw [if_neg hminus] at hres
    have hsplit : ∃ p ps sign' rest', dcmCronParseStrSplit s '-' = p :: ps ∧
        Leads p sign' digits rest' ∧ sign' ≠ ['-'] := by
      by_cases hsign : sign = ['-']
      · -- nothing stands in front of the first delimiter
        have hs : s = '-' :: (digits ++ rest) := by rw [h.eq, hsign]; rfl
        have htail : Leads (digits ++ rest) [] digits rest :=
          ⟨rfl, fun c hc => h.plain c (hs ▸ List.mem_cons_of_mem _ hc), .inl rfl, h.digit, h.ne_nil,
            h.stop⟩
        have hlen' : (digits ++ rest).length < cronMaxStrLenToSplit := by
          rw [hs, List.length_cons] at hlen
          omega
        have hsame : dcmCronParseStrSplit s '-' = dcmCronParseStrSplit (digits ++ rest) '-' := by
          rw [dcmCronParseStrSplit, dcmCronParseStrSplit, if_neg (not_le.mpr hlen),
            if_neg (not_le.mpr hlen'), hs, splitPieces, if_pos rfl, if_neg (by simp)]
        obtain ⟨p, ps, hps, -, hleads⟩ := htail.exists_split
          (htail.ne_of_mem (.inr (.inr ⟨rfl, by simp⟩))) hlen'
        exact ⟨p, ps, [], _, hsame.trans hps, hleads, by simp⟩
      · obtain ⟨p, ps, hps, -, hleads⟩ :=
          h.exists_split (h.ne_of_mem (.inr (.inr ⟨rfl, hsign⟩))) hlen
        exact ⟨p, ps, sign, _, hps, hleads, hsign⟩
    obtain ⟨p, ps, sign', rest', hps, hleads, hne⟩ := hsplit
    rw [hps] at hres
    rcases ps with _ | ⟨q, _ | ⟨q', ps⟩⟩
    · cases hres
    · simp only [Option.bind_eq_bind, Option.bind_eq_some_iff] at hres
      obtain ⟨lo, hlo, hi, -, heq⟩ := hres
      obtain rfl := Option.some.inj heq
      exact hleads.parseUint hne hlo
    · cases hres

lemma Leads.getRange (h : Leads s sign digits rest) (hlen : s.length < cronMaxStrLenToSplit)
    {res : ℕ × ℕ} (hres : dcmCronParseGetRange s min max = some res) : res.1 = value digits := by
  rw [dcmCronParseGetRange, Option.bind_eq_some_iff] at hres
  obtain ⟨res', hread, hres⟩ := hres
  split_ifs at hres
  obtain rfl := Option.some.inj hres
  exact h.readRange hlen hread

lemma Leads.itemRange (h : Leads s sign digits rest) (hlen : s.length < cronMaxStrLenToSplit)
    {range : ℕ × ℕ} {delta : ℕ} (hres : Cron.itemRange s min max = some (range, delta)) :
    range.1 = value digits := by
  unfold Cron.itemRange at hres
  by_cases hslash : '/' ∉ s
  · rw [if_pos hslash] at hres
    obtain ⟨range', hrange, heq⟩ := Option.map_eq_some_iff.mp hres
    obtain ⟨rfl, -⟩ := Prod.mk.inj heq
    exact h.getRange hlen hrange
  · rw [if_neg hslash] at hres
    obtain ⟨p, ps, hps, hlen', hleads⟩ := h.exists_split (h.ne_of_mem (.inr (.inl rfl))) hlen
    rw [hps] at hres
    rcases ps with _ | ⟨q, _ | ⟨q', ps⟩⟩
    · cases hres
    · simp only [Option.bind_eq_bind, Option.bind_eq_some_iff] at hres
      obtain ⟨range', hrange, delta', -, hres⟩ := hres
      have hlo := hleads.getRange hlen' hrange
      split_ifs at hres <;> simp only [Option.some.injEq, Prod.mk.injEq] at hres <;>
        rw [← hres.1] <;> exact hlo
    · cases hres

/-- The number in front is one of the values that the field stands for. -/
lemma Leads.getBit (h : Leads f sign digits rest) {target : Bits} (hmax : max ≤ 8 * target.length)
    (haccept : (dcmCronParseSetNumberHits f target min max).1 = true) :
    dcmCronParseGetBit (dcmCronParseSetNumberHits f target min max).2 (value digits) = true := by
  have hlen : f.length < cronMaxStrLenToSplit := by
    by_contra hlong
    rw [dcmCronParseSetNumberHits, dcmCronParseStrSplit, if_pos (not_lt.mp hlong)] at haccept
    cases haccept
  obtain ⟨p, ps, hps, hlen', hleads⟩ := h.exists_split (h.ne_of_mem (.inl rfl)) hlen
  rw [dcmCronParseSetNumberHits, hps, if_neg (List.cons_ne_nil _ _), setItems] at haccept ⊢
  cases hrange : Cron.itemRange p min max with
  | none =>
    rw [hrange] at haccept
    cases haccept
  | some res =>
    obtain ⟨⟨lo, hi⟩, delta⟩ := res
    obtain ⟨-, hle, hlt, -⟩ := itemRange_eq_some hrange
    have hlo := hleads.itemRange hlen' hrange
    dsimp only at hlo ⊢
    rw [← hlo]
    refine getBit_setItems (by rwa [length_fillRange]) ps ?_
    exact getBit_fillRange_first (by omega) hle delta (by omega)

/-! ### One piece -/

/-- The piece starts with a number whose digits do not go on behind white space. -/
def Starts (piece : List Char) : Prop :=
  ∃ blanks sign digits rest, Shape piece blanks sign digits rest ∧ sign ≠ ['-'] ∧ digits ≠ [] ∧
    ∀ c ∈ (strip rest).head?, c.isDigit = false

/-- Without white space, more digits may follow. -/
lemma Shape.leads (hs : Shape s blanks sign digits rest) (hne : digits ≠ []) :
    Leads (strip s) sign (digits ++ (strip rest).takeWhile Char.isDigit)
      ((strip rest).dropWhile Char.isDigit) := by
  have hkeep (t : List Char) (ht : ∀ c ∈ t, Cron.isSpace c = false) : strip t = t :=
    List.filter_eq_self.mpr fun c hc => by rw [ht c hc]; rfl
  have hblank : strip blanks = [] := List.filter_eq_nil_iff.mpr fun c hc => by
    rw [hs.blank c hc]
    simp
  have hsign : strip sign = sign := by
    refine hkeep sign ?_
    rcases hs.sign_eq with ⟨rfl, -⟩ | rfl | rfl <;> simp [Cron.isSpace]
  have hdigits : strip digits = digits :=
    hkeep digits fun c hc => not_isSpace_of_isDigit (hs.digit c hc)
  refine ⟨?_, ?_, ?_, ?_, ?_, head_dropWhile _⟩
  · rw [hs.eq, strip, List.filter_append, List.filter_append, List.filter_append, ← strip, ← strip,
      ← strip, ← strip, hblank, hsign, hdigits, List.append_assoc, List.takeWhile_append_dropWhile,
      List.nil_append]
  · intro c hc
    simpa using (List.mem_filter.mp hc).2
  · rcases hs.sign_eq with ⟨h, -⟩ | h | h
    · exact .inl h
    · exact .inr (.inl h)
    · exact .inr (.inr h)
  · intro c hc
    rcases List.mem_append.mp hc with hc | hc
    · exact hs.digit c hc
    · exact List.mem_takeWhile_imp hc
  · simp [hne]

lemma value_append (ds more : List Char) :
    value (ds ++ more) = 10 ^ more.length * value ds + value more := by
  rw [value, Nat.ofDigitChars_append, Nat.ofDigitChars_eq_ofDigitChars_zero]

/-- More digits change a number other than 0. -/
lemma value_append_eq_self {ds more : List Char} (hmore : more ≠ [])
    (h : value (ds ++ more) = value ds) : value ds = 0 := by
  have hpow : 10 ≤ 10 ^ more.length :=
    Nat.le_self_pow (List.length_pos_iff.mpr hmore).ne' 10
  have := Nat.mul_le_mul_right (value ds) hpow
  rw [value_append] at h
  omega

/-- For a field that stands for one value, the piece spells it exactly if it starts with the number,
or the value is 0. -/
lemma leadingInteger_eq_iff {target : Bits} (hmax : max ≤ 8 * target.length)
    (haccept : (dcmCronParseSetNumberHits (strip s) target min max).1 = true)
    (hbits : ∀ i, dcmCronParseGetBit (dcmCronParseSetNumberHits (strip s) target min max).2 i =
      true → i = m) :
    leadingInteger s = m ↔ Starts s ∨ m = 0 := by
  have hvalue : ∀ {blanks sign digits rest}, Shape s blanks sign digits rest → digits ≠ [] →
      value (digits ++ (strip rest).takeWhile Char.isDigit) = m := fun hs hne =>
    hbits _ ((hs.leads hne).getBit hmax haccept)
  constructor
  · intro h
    obtain ⟨blanks, sign, digits, rest, hs⟩ := exists_shape s
    rw [hs.leadingInteger_eq] at h
    by_contra hno
    push Not at hno
    obtain ⟨hstarts, hm⟩ := hno
    have hne : digits ≠ [] := by
      rintro rfl
      simp [signed, value] at h
      omega
    have hv := hvalue hs hne
    have hplus : sign ≠ ['-'] := by
      rintro rfl
      rw [signed, if_pos rfl] at h
      omega
    rw [signed, if_neg hplus, Nat.cast_inj] at h
    have hmore : (strip rest).takeWhile Char.isDigit ≠ [] := by
      intro hnil
      refine hstarts ⟨blanks, sign, digits, rest, hs, hplus, hne, ?_⟩
      have := head_dropWhile (p := Char.isDigit) (strip rest)
      rwa [← List.takeWhile_append_dropWhile (p := Char.isDigit) (l := strip rest), hnil,
        List.nil_append]
    exact hm (h ▸ value_append_eq_self hmore (hv.trans h.symm))
  · rintro (⟨blanks, sign, digits, rest, hs, hplus, hne, hstop⟩ | rfl)
    · have hv := hvalue hs hne
      have hnil : (strip rest).takeWhile Char.isDigit = [] := by
        cases hrest : strip rest with
        | nil => rfl
        | cons c t => simp [hstop c (by rw [hrest]; rfl)]
      rw [hnil, List.append_nil] at hv
      rw [hs.leadingInteger_eq, signed, if_neg hplus, hv]
    · obtain ⟨blanks, sign, digits, rest, hs⟩ := exists_shape s
      have hzero : value digits = 0 := by
        by_cases hne : digits = []
        · rw [hne]
          rfl
        · have hv := hvalue hs hne
          rw [value_append] at hv
          have hpos : 0 < 10 ^ ((strip rest).takeWhile Char.isDigit).length := by positivity
          exact (Nat.mul_eq_zero.mp (Nat.eq_zero_of_add_eq_zero_right hv)).resolve_left hpos.ne'
      rw [hs.leadingInteger_eq, hzero, signed]
      split_ifs <;> rfl

/-! ### The pattern -/

/-- The file tells this hour and minute, and nothing is stored outside of the arrays. -/
def Saves (text timeZone : List Char) (m h : ℕ) : Prop :=
  dcmSettingSaveMaintenance true text timeZone =
    some (0, some (maintenanceConf h m timeZone))

/-- There are five fields, and the first two pieces of the text are the fields for minutes and
hours: no blank stands before them, and a single one between them. -/
def Aligned (text : List Char) : Prop :=
  (dcmCronParseStrSplit text ' ').length = 5 ∧ strip (firstPiece text) ≠ [] ∧
    strip (secondPiece text) ≠ []

/-- The pieces fit. If they are the fields for minutes and hours, they start with the numbers unless
these are 0; otherwise they happen to be the same numbers. -/
structure ReadsAlike (text : List Char) (m h : ℕ) : Prop where
  fits : PiecesFit text
  aligned : Aligned text →
    (Starts (firstPiece text) ∨ m = 0) ∧ (Starts (secondPiece text) ∨ h = 0)
  shifted : ¬Aligned text → Spells (firstPiece text) m ∧ Spells (secondPiece text) h

lemma saves_iff_leadingInteger (htext : nul ∉ text) (timeZone : List Char) :
    Saves text timeZone m h ↔ PiecesFit text ∧ leadingInteger (firstPiece text) = m ∧
      leadingInteger (secondPiece text) = h := by
  rw [Saves, dcmSettingSaveMaintenance_eq htext]
  constructor
  · intro heq
    split_ifs at heq with hfit
    rw [atoi_eq_leadingInteger hfit.1, atoi_eq_leadingInteger hfit.2] at heq
    obtain ⟨hhr, hmn⟩ := maintenanceConf_inj (Option.some.inj (Prod.mk.inj (Option.some.inj heq)).2)
    exact ⟨hfit, hmn, hhr⟩
  · rintro ⟨hfit, hmn, hhr⟩
    rw [if_pos hfit, atoi_eq_leadingInteger hfit.1, atoi_eq_leadingInteger hfit.2, hmn, hhr]

lemma Aligned.split (h : Aligned text) : ∃ daysOfMonth months daysOfWeek,
    dcmCronParseStrSplit text ' ' =
      [strip (firstPiece text), strip (secondPiece text), daysOfMonth, months, daysOfWeek] := by
  obtain ⟨hlen, hfirst, hsecond⟩ := h
  have hsplit : dcmCronParseStrSplit text ' ' = splitPieces ' ' text [] := by
    rw [dcmCronParseStrSplit] at hlen ⊢
    by_cases hlong : text.length ≥ cronMaxStrLenToSplit
    · rw [if_pos hlong] at hlen
      cases hlen
    · rw [if_neg hlong]
  rw [hsplit] at hlen ⊢
  rw [splitPieces_eq, splitPieces_eq, List.nil_append, ← firstPiece, if_neg hfirst,
    List.nil_append, ← firstPiece, ← secondPiece, if_neg hsecond] at hlen ⊢
  simp only [List.singleton_append, List.length_cons] at hlen ⊢
  generalize splitPieces _ _ _ = ps at hlen ⊢
  obtain ⟨p, q, r, rfl⟩ := List.length_eq_three.mp (show ps.length = 3 by omega)
  exact ⟨p, q, r, rfl⟩

/-- The bits of a pattern without seconds are those of the fields for minutes and hours. -/
lemma parseFields_time {minutes hours daysOfMonth months daysOfWeek : List Char}
    (haccept : (parseFields none minutes hours daysOfMonth months daysOfWeek).1 = true) :
    ((dcmCronParseSetNumberHits minutes DcmCronExpr.zero.minutes 0 60).1 = true ∧
        (parseFields none minutes hours daysOfMonth months daysOfWeek).2.minutes =
          (dcmCronParseSetNumberHits minutes DcmCronExpr.zero.minutes 0 60).2) ∧
      (dcmCronParseSetNumberHits hours DcmCronExpr.zero.hours 0 24).1 = true ∧
        (parseFields none minutes hours daysOfMonth months daysOfWeek).2.hours =
          (dcmCronParseSetNumberHits hours DcmCronExpr.zero.hours 0 24).2 := by
  simp only [parseFields] at haccept ⊢
  obtain ⟨h₅, h₆⟩ := andThen_eq_true.mp haccept
  obtain ⟨h₄, -⟩ := andThen_eq_true.mp h₅
  obtain ⟨h₃, -⟩ := andThen_eq_true.mp h₄
  obtain ⟨h₂, h₃'⟩ := andThen_eq_true.mp h₃
  obtain ⟨h₁, h₂'⟩ := andThen_eq_true.mp h₂
  rw [andThen_snd h₅]
  simp only [andThen_snd h₄, andThen_snd h₃, andThen_snd h₂, andThen_snd h₁] at h₃' ⊢
  exact ⟨⟨h₂', rfl⟩, h₃', rfl⟩

/-- The file agrees with the parser exactly if both read the first two pieces alike. -/
theorem saves_iff_readsAlike {target : DcmCronExpr} (htext : nul ∉ text)
    (haccept : (dcmCronParseExp text target).1 = true)
    (hminutes : ∀ i, dcmCronParseGetBit (dcmCronParseExp text target).2.minutes i = true ↔ i = m)
    (hhours : ∀ i, dcmCronParseGetBit (dcmCronParseExp text target).2.hours i = true ↔ i = h)
    (timeZone : List Char) : Saves text timeZone m h ↔ ReadsAlike text m h := by
  rw [saves_iff_leadingInteger htext]
  by_cases haligned : Aligned text
  · have hnumbers : (leadingInteger (firstPiece text) = m ↔ Starts (firstPiece text) ∨ m = 0) ∧
        (leadingInteger (secondPiece text) = h ↔ Starts (secondPiece text) ∨ h = 0) := by
      obtain ⟨daysOfMonth, months, daysOfWeek, hsplit⟩ := haligned.split
      rw [dcmCronParseExp, hsplit] at haccept hminutes hhours
      dsimp only at haccept hminutes hhours
      obtain ⟨⟨hmin, hmin'⟩, hhour, hhour'⟩ := parseFields_time haccept
      rw [hmin'] at hminutes
      rw [hhour'] at hhours
      exact ⟨leadingInteger_eq_iff (by decide) hmin fun i hi => (hminutes i).mp hi,
        leadingInteger_eq_iff (by decide) hhour fun i hi => (hhours i).mp hi⟩
    rw [hnumbers.1, hnumbers.2]
    exact ⟨fun ⟨hfit, hread⟩ => ⟨hfit, fun _ => hread, fun hno => absurd haligned hno⟩,
      fun hread => ⟨hread.fits, hread.aligned haligned⟩⟩
  · rw [← spells_iff, ← spells_iff]
    exact ⟨fun ⟨hfit, hread⟩ => ⟨hfit, fun hyes => absurd hyes haligned, fun _ => hread⟩,
      fun hread => ⟨hread.fits, hread.shifted haligned⟩⟩

theorem saves_plain : Saves "3 10 * * *".toList "EST".toList 3 10 := by
  refine (saves_iff_readsAlike (by decide +kernel)
    (show (dcmCronParseExp _ .zero).1 = true by decide +kernel)
    (getBit_iff_of_lt (by decide +kernel) (by rintro n rfl; decide +kernel))
    (getBit_iff_of_lt (by decide +kernel) (by rintro n rfl; decide +kernel)) _).mpr ?_
  have hminute : Starts ['3'] := by
    refine ⟨[], [], ['3'], [], ⟨rfl, by simp, .inl ⟨rfl, ?_⟩, by simp, by simp⟩, by simp, by simp,
      by simp⟩
    intro c hc
    obtain rfl := Option.some.inj hc
    decide
  have hhour : Starts ['1', '0'] := by
    refine ⟨[], [], ['1', '0'], [], ⟨rfl, by simp, .inl ⟨rfl, ?_⟩, by simp, by simp⟩, by simp,
      by simp, by simp⟩
    intro c hc
    obtain rfl := Option.some.inj hc
    decide
  refine ⟨by decide +kernel, fun _ => ⟨.inl ?_, .inl ?_⟩, fun hno => absurd ?_ hno⟩
  · rwa [show firstPiece "3 10 * * *".toList = ['3'] by decide +kernel]
  · rwa [show secondPiece "3 10 * * *".toList = ['1', '0'] by decide +kernel]
  · unfold Aligned
    decide +kernel

/-- With seconds in front, the file tells the minute for the hour and the second for the minute. -/
theorem seconds_for_minutes :
    (dcmCronParseExp "0 30 2 * * *".toList .zero).1 = true ∧
      (∀ i, dcmCronParseGetBit (dcmCronParseExp "0 30 2 * * *".toList .zero).2.minutes i = true ↔
        i = 30) ∧
      (∀ i, dcmCronParseGetBit (dcmCronParseExp "0 30 2 * * *".toList .zero).2.hours i = true ↔
        i = 2) ∧
      ¬Saves "0 30 2 * * *".toList "EST".toList 30 2 := by
  refine ⟨by decide +kernel,
    getBit_iff_of_lt (by decide +kernel) (by rintro n rfl; decide +kernel),
    getBit_iff_of_lt (by decide +kernel) (by rintro n rfl; decide +kernel), ?_⟩
  unfold Saves
  decide +kernel

end DcmAgent.Conf
