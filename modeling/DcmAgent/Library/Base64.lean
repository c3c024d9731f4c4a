import Mathlib.Tactic

/-!
# Base 64

The encoding of bytes in base 64 with padding, by groups of three bytes, and a decoder that takes
canonical texts only.
-/

namespace DcmAgent.Library.Base64

def alphabet : List Char :=
  "ABCDEFGHIJKLMNOPQRSTUVWXYZabcdefghijklmnopqrstuvwxyz0123456789+/".toList

def digit (k : ℕ) : Char := alphabet.getD k '='

def value (c : Char) : Option ℕ := alphabet.findIdx? (· = c)

lemma value_digit : ∀ k < 64, value (digit k) = some k := by decide +kernel

lemma digit_ne_pad : ∀ k < 64, digit k ≠ '=' := by decide +kernel

def encode : List UInt8 → List Char
  | [] => []
  | [a] => [digit (a.toNat / 4), digit (a.toNat % 4 * 16), '=', '=']
  | [a, b] =>
    [digit (a.toNat / 4), digit (a.toNat % 4 * 16 + b.toNat / 16), digit (b.toNat % 16 * 4), '=']
  | a :: b :: c :: rest =>
    digit (a.toNat / 4) :: digit (a.toNat % 4 * 16 + b.toNat / 16) ::
      digit (b.toNat % 16 * 4 + c.toNat / 64) :: digit (c.toNat % 64) :: encode rest

/-- Two characters of the alphabet in front of two pads. -/
def decodeOne (w x : Char) : Option (List UInt8) := do
  let w ← value w
  let x ← value x
  if x % 16 = 0 then some [UInt8.ofNat (w * 4 + x / 16)] else none

/-- Three characters in front of one pad. -/
def decodeTwo (w x y : Char) : Option (List UInt8) := do
  let w ← value w
  let x ← value x
  let y ← value y
  if y % 4 = 0 then some [UInt8.ofNat (w * 4 + x / 16), UInt8.ofNat (x % 16 * 16 + y / 4)]
  else none

def decodeThree (w x y z : Char) : Option (List UInt8) := do
  let w ← value w
  let x ← value x
  let y ← value y
  let z ← value z
  some [UInt8.ofNat (w * 4 + x / 16), UInt8.ofNat (x % 16 * 16 + y / 4),
    UInt8.ofNat (y % 4 * 64 + z)]

def decode : List Char → Option (List UInt8)
  | [] => some []
  | w :: x :: y :: z :: rest =>
    if z = '=' ∧ rest = [] then if y = '=' then decodeOne w x else decodeTwo w x y
    else (decodeThree w x y z).bind fun group => (decode rest).map (group ++ ·)
  | _ => none

variable (a b c : UInt8)

lemma toNat_lt (a : UInt8) : a.toNat < 256 := a.toNat_lt_size

lemma decodeOne_digits :
    decodeOne (digit (a.toNat / 4)) (digit (a.toNat % 4 * 16)) = some [a] := by
  have ha := toNat_lt a
  have hbyte : a.toNat / 4 * 4 + a.toNat % 4 * 16 / 16 = a.toNat := by omega
  simp only [decodeOne, value_digit _ (show a.toNat / 4 < 64 by omega),
    value_digit _ (show a.toNat % 4 * 16 < 64 by omega), Option.bind_eq_bind, Option.bind_some,
    hbyte, UInt8.ofNat_toNat]
  exact if_pos (by omega)

lemma decodeTwo_digits :
    decodeTwo (digit (a.toNat / 4)) (digit (a.toNat % 4 * 16 + b.toNat / 16))
      (digit (b.toNat % 16 * 4)) = some [a, b] := by
  have ha := toNat_lt a
  have hb := toNat_lt b
  have hfirst : a.toNat / 4 * 4 + (a.toNat % 4 * 16 + b.toNat / 16) / 16 = a.toNat := by omega
  have hsecond : (a.toNat % 4 * 16 + b.toNat / 16) % 16 * 16 + b.toNat % 16 * 4 / 4 = b.toNat := by
    omega
  simp only [decodeTwo, value_digit _ (show a.toNat / 4 < 64 by omega),
    value_digit _ (show a.toNat % 4 * 16 + b.toNat / 16 < 64 by omega),
    value_digit _ (show b.toNat % 16 * 4 < 64 by omega), Option.bind_eq_bind, Option.bind_some,
    hfirst, hsecond, UInt8.ofNat_toNat]
  exact if_pos (by omega)

lemma decodeThree_digits :
    decodeThree (digit (a.toNat / 4)) (digit (a.toNat % 4 * 16 + b.toNat / 16))
      (digit (b.toNat % 16 * 4 + c.toNat / 64)) (digit (c.toNat % 64)) = some [a, b, c] := by
  have ha := toNat_lt a
  have hb := toNat_lt b
  have hc := toNat_lt c
  have hfirst : a.toNat / 4 * 4 + (a.toNat % 4 * 16 + b.toNat / 16) / 16 = a.toNat := by omega
  have hsecond : (a.toNat % 4 * 16 + b.toNat / 16) % 16 * 16 +
      (b.toNat % 16 * 4 + c.toNat / 64) / 4 = b.toNat := by omega
  have hthird : (b.toNat % 16 * 4 + c.toNat / 64) % 4 * 64 + c.toNat % 64 = c.toNat := by omega
  simp only [decodeThree, value_digit _ (show a.toNat / 4 < 64 by omega),
    value_digit _ (show a.toNat % 4 * 16 + b.toNat / 16 < 64 by omega),
    value_digit _ (show b.toNat % 16 * 4 + c.toNat / 64 < 64 by omega),
    value_digit _ (show c.toNat % 64 < 64 by omega), Option.bind_eq_bind, Option.bind_some,
    hfirst, hsecond, hthird, UInt8.ofNat_toNat]

/-- The decoder gives the bytes back. -/
lemma decode_encode (bytes : List UInt8) : decode (encode bytes) = some bytes := by
  induction bytes using encode.induct with
  | case1 => rfl
  | case2 a =>
    rw [encode, decode, if_pos ⟨rfl, rfl⟩, if_pos rfl, decodeOne_digits]
  | case3 a b =>
    have hpad : digit (b.toNat % 16 * 4) ≠ '=' := digit_ne_pad _ (by omega)
    rw [encode, decode, if_pos ⟨rfl, rfl⟩, if_neg hpad, decodeTwo_digits]
  | case4 a b c rest ih =>
    have hpad : digit (c.toNat % 64) ≠ '=' := digit_ne_pad _ (by omega)
    rw [encode, decode, if_neg fun h => hpad h.1, decodeThree_digits, ih]
    rfl

lemma length_encode (bytes : List UInt8) :
    (encode bytes).length = 4 * ((bytes.length + 2) / 3) := by
  induction bytes using encode.induct with
  | case1 => rfl
  | case2 a => simp [encode]
  | case3 a b => simp [encode]
  | case4 a b c rest ih =>
    simp only [encode, List.length_cons, ih]
    omega

/-- The first group and the others. -/
lemma encode_take_drop {bytes : List UInt8} (hne : bytes ≠ []) :
    encode bytes = encode (bytes.take 3) ++ encode (bytes.drop 3) ∧
      (encode (bytes.take 3)).length = 4 := by
  match bytes, hne with
  | [a], _ => simp [encode]
  | [a, b], _ => simp [encode]
  | a :: b :: c :: rest, _ => simp [encode]

lemma isBase64_encode {bytes : List UInt8} : ∀ c ∈ encode bytes, c ∈ alphabet ∨ c = '=' := by
  have hdigit (k : ℕ) : digit k ∈ alphabet ∨ digit k = '=' := by
    rw [digit, List.getD_eq_getElem?_getD]
    cases h : alphabet[k]? with
    | none => exact .inr rfl
    | some c => exact .inl (List.mem_of_getElem? h)
  induction bytes using encode.induct with
  | case1 => simp [encode]
  | case2 a => simp [encode, hdigit]
  | case3 a b => simp [encode, hdigit]
  | case4 a b c rest ih =>
    intro d hd
    simp only [encode, List.mem_cons] at hd
    rcases hd with rfl | rfl | rfl | rfl | hd
    · exact hdigit _
    · exact hdigit _
    · exact hdigit _
    · exact hdigit _
    · exact ih d hd

end DcmAgent.Library.Base64
