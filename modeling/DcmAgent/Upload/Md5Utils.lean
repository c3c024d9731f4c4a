import Mathlib.Algebra.Order.Floor.Div
import Mathlib.Tactic
import DcmAgent.Library.Base64
import DcmAgent.Library.CString

/-!
# The digests of an archive

`calculate_file_md5` and `calculate_file_sha256` read a file block by block into a streaming hash
and write the digest as text. A write outside of an array is `none`.
-/

namespace DcmAgent.Upload

open Library

/-! ### Base 64 -/

/-- `SIZE_MAX + 1` -/
def sizeRange : ℕ := 2 ^ 64

/-- A byte string in memory, which is no longer than `PTRDIFF_MAX`. -/
structure ByteString where
  bytes : List UInt8
  length_lt : bytes.length < 2 ^ 63

def base64Chars : List Char :=
  "ABCDEFGHIJKLMNOPQRSTUVWXYZabcdefghijklmnopqrstuvwxyz0123456789+/".toList

/-- Three bytes, those behind the last being read as zero. -/
def tripleAt (input : List UInt8) (i : ℕ) : ℕ :=
  let length := input.length
  let a := if i < length then (input.getD i 0).toNat else 0
  let b := if i + 1 < length then (input.getD (i + 1) 0).toNat else 0
  let c := if i + 2 < length then (input.getD (i + 2) 0).toNat else 0
  (a <<< 16) ||| (b <<< 8) ||| c

/-- One round of the loop. -/
def encodeGroup {n : ℕ} (input : List UInt8) (output : CBuffer n) (i j : ℕ) :
    Option (CBuffer n) := do
  let triple := tripleAt input i
  let c₀ ← base64Chars[(triple >>> 18) &&& 0x3F]?
  let output ← output.set j c₀
  let c₁ ← base64Chars[(triple >>> 12) &&& 0x3F]?
  let output ← output.set (j + 1) c₁
  let c₂ ← if i + 1 < input.length then base64Chars[(triple >>> 6) &&& 0x3F]? else some '='
  let output ← output.set (j + 2) c₂
  let c₃ ← if i + 2 < input.length then base64Chars[triple &&& 0x3F]? else some '='
  output.set (j + 3) c₃

/-- The groups from `i` on, to be written from `j` on. -/
def encodeLoop {n : ℕ} (input : List UInt8) : ℕ → CBuffer n → ℕ → ℕ → Option (CBuffer n)
  | 0, _, _, _ => none
  | fuel + 1, output, i, j =>
    if i < input.length then
      (encodeGroup input output i j).bind fun output => encodeLoop input fuel output (i + 3) (j + 4)
    else some output

/-- What the function returns, and what it leaves in `output`. -/
def base64Encode {n : ℕ} (input : ByteString) (output : CBuffer n) : Option (Bool × CBuffer n) :=
  let length := input.bytes.length
  let outputLength := (length + 2) % sizeRange / 3 * 4 % sizeRange
  if outputLength ≥ n then some (false, output)
  else do
    let output ← encodeLoop input.bytes (length + 1) output 0 0
    let output ← output.set outputLength nul
    some (true, output)

example : (base64Encode ⟨[77, 97], by decide⟩ (.fill 5 'x')).map (fun r => (r.1, r.2.chars)) =
    some (true, "TWE=".toList ++ [nul]) := by decide +kernel

lemma base64Chars_getElem : ∀ k < 64, base64Chars[k]? = some (Base64.digit k) := by decide +kernel

/-- The character of a sextet. -/
lemma sextet_eq (triple k : ℕ) :
    base64Chars[(triple >>> k) &&& 0x3F]? = some (Base64.digit (triple / 2 ^ k % 64)) := by
  rw [Nat.shiftRight_eq_div_pow, Nat.and_two_pow_sub_one_eq_mod _ 6]
  exact base64Chars_getElem _ (Nat.mod_lt _ (by norm_num))

lemma last_sextet_eq (triple : ℕ) :
    base64Chars[triple &&& 0x3F]? = some (Base64.digit (triple % 64)) := by
  have h := sextet_eq triple 0
  rwa [Nat.shiftRight_zero, pow_zero, Nat.div_one] at h

lemma triple_eq {a b c : ℕ} (hb : b < 256) (hc : c < 256) :
    (a <<< 16) ||| (b <<< 8) ||| c = a * 65536 + b * 256 + c := by
  have hlow : b <<< 8 ||| c = b * 256 + c := by
    rw [← Nat.shiftLeft_add_eq_or_of_lt (show c < 2 ^ 8 from hc), Nat.shiftLeft_eq]
  rw [Nat.or_assoc, hlow, ← Nat.shiftLeft_add_eq_or_of_lt (by omega), Nat.shiftLeft_eq]
  omega

variable (before rest : List UInt8)

/-- A byte of the group, in a string that ends with `rest`. -/
lemma byteAt_eq (k : ℕ) :
    (if before.length + k < (before ++ rest).length then
      ((before ++ rest).getD (before.length + k) 0).toNat else 0) = (rest.getD k 0).toNat := by
  have hget : (before ++ rest).getD (before.length + k) 0 = rest.getD k 0 := by
    rw [List.getD_eq_getElem?_getD, List.getElem?_append_right (Nat.le_add_right _ _),
      Nat.add_sub_cancel_left, List.getD_eq_getElem?_getD]
  rw [hget, List.length_append]
  split_ifs with h
  · rfl
  · rw [List.getD_eq_getElem?_getD, List.getElem?_eq_none (by omega)]
    rfl

lemma tripleAt_eq : tripleAt (before ++ rest) before.length =
    (rest.getD 0 0).toNat * 65536 + (rest.getD 1 0).toNat * 256 + (rest.getD 2 0).toNat := by
  have h₀ := byteAt_eq before rest 0
  rw [Nat.add_zero] at h₀
  simp only [tripleAt, h₀, byteAt_eq]
  exact triple_eq (Base64.toNat_lt _) (Base64.toNat_lt _)

/-- Four characters are replaced, one after the other. -/
lemma set_four {n : ℕ} {b : CBuffer n} {front tail : List Char} {d₀ d₁ d₂ d₃ : Char}
    (h : b.chars = front ++ d₀ :: d₁ :: d₂ :: d₃ :: tail) (c₀ c₁ c₂ c₃ : Char) :
    ∃ b₀ b₁ b₂ b₃ : CBuffer n, b.set front.length c₀ = some b₀ ∧
      b₀.set (front.length + 1) c₁ = some b₁ ∧ b₁.set (front.length + 2) c₂ = some b₂ ∧
      b₂.set (front.length + 3) c₃ = some b₃ ∧
      b₃.chars = front ++ c₀ :: c₁ :: c₂ :: c₃ :: tail := by
  obtain ⟨b₀, h₀, hb₀⟩ := CBuffer.set_of_chars h c₀
  rw [List.append_cons] at hb₀
  obtain ⟨b₁, h₁, hb₁⟩ := CBuffer.set_of_chars hb₀ c₁
  rw [List.append_cons] at hb₁
  obtain ⟨b₂, h₂, hb₂⟩ := CBuffer.set_of_chars hb₁ c₂
  rw [List.append_cons] at hb₂
  obtain ⟨b₃, h₃, hb₃⟩ := CBuffer.set_of_chars hb₂ c₃
  refine ⟨b₀, b₁, b₂, b₃, h₀, ?_, ?_, ?_, ?_⟩
  · simpa using h₁
  · simpa using h₂
  · simpa using h₃
  · simpa using hb₃

lemma encodeGroup_of_triple {n : ℕ} {input : List UInt8} {i t : ℕ} (ht : tripleAt input i = t)
    (output : CBuffer n) (j : ℕ) :
    encodeGroup input output i j =
      (output.set j (Base64.digit (t / 2 ^ 18 % 64))).bind fun output =>
        (output.set (j + 1) (Base64.digit (t / 2 ^ 12 % 64))).bind fun output =>
          (output.set (j + 2)
            (if i + 1 < input.length then Base64.digit (t / 2 ^ 6 % 64) else '=')).bind
              fun output => output.set (j + 3)
                (if i + 2 < input.length then Base64.digit (t % 64) else '=') := by
  have h₁₈ := sextet_eq t 18
  have h₁₂ := sextet_eq t 12
  have h₆ := sextet_eq t 6
  have h₀ := last_sextet_eq t
  rw [encodeGroup, ht]
  simp only [h₁₈, h₁₂, h₆, h₀, Option.bind_eq_bind, Option.bind_some]
  split_ifs <;> rfl

/-- A group is encoded in its place. -/
lemma encodeGroup_eq {n : ℕ} {output : CBuffer n} {front tail : List Char}
    {d₀ d₁ d₂ d₃ : Char} (hne : rest ≠ [])
    (hout : output.chars = front ++ d₀ :: d₁ :: d₂ :: d₃ :: tail) :
    ∃ output', encodeGroup (before ++ rest) output before.length front.length = some output' ∧
      output'.chars = front ++ (Base64.encode (rest.take 3) ++ tail) := by
  have hlength : (before ++ rest).length = before.length + rest.length := List.length_append
  have htriple := tripleAt_eq before rest
  rcases rest with _ | ⟨a, _ | ⟨b, _ | ⟨c, rest⟩⟩⟩
  · exact absurd rfl hne
  · -- one byte is left
    have ha := Base64.toNat_lt a
    obtain ⟨b₀, b₁, b₂, b₃, h₀, h₁, h₂, h₃, hb₃⟩ := set_four hout
      (Base64.digit (a.toNat / 4)) (Base64.digit (a.toNat % 4 * 16)) '=' '='
    refine ⟨b₃, ?_, by simpa [Base64.encode] using hb₃⟩
    replace htriple : tripleAt (before ++ [a]) before.length = a.toNat * 65536 := by
      simpa using htriple
    have hfirst : a.toNat * 65536 / 2 ^ 18 % 64 = a.toNat / 4 := by omega
    have hsecond : a.toNat * 65536 / 2 ^ 12 % 64 = a.toNat % 4 * 16 := by omega
    rw [List.length_singleton] at hlength
    rw [encodeGroup_of_triple htriple, hfirst, hsecond, if_neg (by omega), if_neg (by omega), h₀,
      Option.bind_some, h₁, Option.bind_some, h₂, Option.bind_some, h₃]
  · -- two bytes are left
    have ha := Base64.toNat_lt a
    have hb := Base64.toNat_lt b
    obtain ⟨b₀, b₁, b₂, b₃, h₀, h₁, h₂, h₃, hb₃⟩ := set_four hout
      (Base64.digit (a.toNat / 4)) (Base64.digit (a.toNat % 4 * 16 + b.toNat / 16))
      (Base64.digit (b.toNat % 16 * 4)) '='
    refine ⟨b₃, ?_, by simpa [Base64.encode] using hb₃⟩
    replace htriple : tripleAt (before ++ [a, b]) before.length =
        a.toNat * 65536 + b.toNat * 256 := by simpa using htriple
    have hfirst : (a.toNat * 65536 + b.toNat * 256) / 2 ^ 18 % 64 = a.toNat / 4 := by omega
    have hsecond : (a.toNat * 65536 + b.toNat * 256) / 2 ^ 12 % 64 =
        a.toNat % 4 * 16 + b.toNat / 16 := by omega
    have hthird : (a.toNat * 65536 + b.toNat * 256) / 2 ^ 6 % 64 = b.toNat % 16 * 4 := by omega
    simp only [List.length_cons, List.length_nil] at hlength
    rw [encodeGroup_of_triple htriple, hfirst, hsecond, hthird, if_pos (by omega),
      if_neg (by omega), h₀, Option.bind_some, h₁, Option.bind_some, h₂, Option.bind_some, h₃]
  · -- a whole group
    have ha := Base64.toNat_lt a
    have hb := Base64.toNat_lt b
    have hc := Base64.toNat_lt c
    obtain ⟨b₀, b₁, b₂, b₃, h₀, h₁, h₂, h₃, hb₃⟩ := set_four hout
      (Base64.digit (a.toNat / 4)) (Base64.digit (a.toNat % 4 * 16 + b.toNat / 16))
      (Base64.digit (b.toNat % 16 * 4 + c.toNat / 64)) (Base64.digit (c.toNat % 64))
    refine ⟨b₃, ?_, by simpa [Base64.encode] using hb₃⟩
    replace htriple : tripleAt (before ++ a :: b :: c :: rest) before.length =
        a.toNat * 65536 + b.toNat * 256 + c.toNat := by simpa using htriple
    have hfirst : (a.toNat * 65536 + b.toNat * 256 + c.toNat) / 2 ^ 18 % 64 = a.toNat / 4 := by
      omega
    have hsecond : (a.toNat * 65536 + b.toNat * 256 + c.toNat) / 2 ^ 12 % 64 =
        a.toNat % 4 * 16 + b.toNat / 16 := by omega
    have hthird : (a.toNat * 65536 + b.toNat * 256 + c.toNat) / 2 ^ 6 % 64 =
        b.toNat % 16 * 4 + c.toNat / 64 := by omega
    have hfourth : (a.toNat * 65536 + b.toNat * 256 + c.toNat) % 64 = c.toNat % 64 := by omega
    simp only [List.length_cons] at hlength
    rw [encodeGroup_of_triple htriple, hfirst, hsecond, hthird, hfourth, if_pos (by omega),
      if_pos (by omega), h₀, Option.bind_some, h₁, Option.bind_some, h₂, Option.bind_some, h₃]

/-- The loop encodes the rest of the bytes behind what it has written. -/
lemma encodeLoop_eq {n fuel : ℕ} {output : CBuffer n} {front tail : List Char}
    (hfuel : rest.length < fuel) (hout : output.chars = front ++ tail)
    (hlen : (Base64.encode rest).length ≤ tail.length) :
    ∃ output', encodeLoop (before ++ rest) fuel output before.length front.length = some output' ∧
      output'.chars = front ++ (Base64.encode rest ++ tail.drop (Base64.encode rest).length) := by
  induction fuel generalizing output front tail before rest with
  | zero => omega
  | succ fuel ih =>
    rw [encodeLoop]
    by_cases hne : rest = []
    · subst hne
      rw [if_neg (by simp)]
      exact ⟨output, rfl, hout⟩
    · have hpos := List.length_pos_iff.mpr hne
      obtain ⟨hsplit, hfour⟩ := Base64.encode_take_drop hne
      rw [hsplit, List.length_append, hfour] at hlen
      obtain ⟨d₀, d₁, d₂, d₃, tail, rfl⟩ : ∃ d₀ d₁ d₂ d₃ t, tail = d₀ :: d₁ :: d₂ :: d₃ :: t := by
        match tail, hlen with
        | d₀ :: d₁ :: d₂ :: d₃ :: t, _ => exact ⟨d₀, d₁, d₂, d₃, t, rfl⟩
        | [], h | [_], h | [_, _], h | [_, _, _], h =>
          simp only [List.length_cons, List.length_nil] at h
          omega
      obtain ⟨output', hgroup, hout'⟩ := encodeGroup_eq before rest hne hout
      rw [if_pos (by rw [List.length_append]; omega), hgroup, Option.bind_some]
      rw [← List.append_assoc] at hout'
      have hdrop : (d₀ :: d₁ :: d₂ :: d₃ :: tail).drop (Base64.encode rest).length =
          tail.drop (Base64.encode (rest.drop 3)).length := by
        rw [hsplit, List.length_append, hfour, Nat.add_comm]
        rfl
      by_cases hlong : 3 ≤ rest.length
      · have htake : (rest.take 3).length = 3 := by
          rw [List.length_take]
          omega
        have hnext := ih (before ++ rest.take 3) (rest.drop 3)
          (by rw [List.length_drop]; omega) hout'
          (by simp only [List.length_cons] at hlen; omega)
        rw [List.append_assoc, List.take_append_drop, List.length_append, htake,
          List.length_append, hfour] at hnext
        obtain ⟨output'', hloop, hout''⟩ := hnext
        refine ⟨output'', hloop, ?_⟩
        rw [hout'', hdrop, hsplit, List.append_assoc, List.append_assoc]
      · -- the last group
        have hnil : rest.drop 3 = [] := List.drop_eq_nil_of_le (by omega)
        refine ⟨output', ?_, ?_⟩
        · obtain ⟨fuel, rfl⟩ : ∃ k, fuel = k + 1 := ⟨fuel - 1, by omega⟩
          rw [encodeLoop, if_neg (by rw [List.length_append]; omega)]
        · rw [hout', hdrop, hsplit, hnil, List.append_assoc]
          simp [Base64.encode]

lemma nul_notMem_encode (bytes : List UInt8) : nul ∉ Base64.encode bytes := by
  intro hmem
  rcases Base64.isBase64_encode _ hmem with h | h
  · exact absurd h (by decide +kernel)
  · exact absurd h (by decide)

lemma outputLength_eq (input : ByteString) :
    (input.bytes.length + 2) % sizeRange / 3 * 4 % sizeRange =
      (Base64.encode input.bytes).length := by
  have h := input.length_lt
  rw [Base64.length_encode, sizeRange, Nat.mod_eq_of_lt (by omega), Nat.mod_eq_of_lt (by omega),
    Nat.mul_comm]

/-- What the function does, in terms of the encoding. -/
lemma base64Encode_eq {n : ℕ} (input : ByteString) (output : CBuffer n) :
    (n ≤ (Base64.encode input.bytes).length ∧ base64Encode input output = some (false, output)) ∨
      (Base64.encode input.bytes).length < n ∧ ∃ output' : CBuffer n,
        base64Encode input output = some (true, output') ∧
          output'.chars = Base64.encode input.bytes ++
            nul :: output.chars.drop ((Base64.encode input.bytes).length + 1) := by
  simp only [base64Encode, outputLength_eq]
  by_cases hsize : n ≤ (Base64.encode input.bytes).length
  · exact .inl ⟨hsize, if_pos hsize⟩
  · right
    rw [if_neg hsize]
    refine ⟨not_le.mp hsize, ?_⟩
    have hlen : output.chars.length = n := output.length_eq
    obtain ⟨output', hloop, hout'⟩ := encodeLoop_eq [] input.bytes
      (Nat.lt_succ_self _) (show output.chars = [] ++ output.chars from rfl) (by omega)
    obtain ⟨d, tail, htail⟩ :
        ∃ d t, output.chars.drop (Base64.encode input.bytes).length = d :: t :=
      List.exists_cons_of_ne_nil (by rw [Ne, List.drop_eq_nil_iff]; omega)
    rw [List.nil_append, htail] at hout'
    obtain ⟨output'', hset, hout''⟩ := CBuffer.set_of_chars hout' nul
    refine ⟨output'', ?_, ?_⟩
    · rw [List.nil_append] at hloop
      simp only [List.length_nil] at hloop
      simp only [hloop, Option.bind_eq_bind, Option.bind_some, hset]
    · rw [hout'', ← List.drop_drop, htail]
      rfl

/-- **Base 64.** Whatever the bytes and the size of the array, the encoder stays in its array. It
succeeds exactly when four characters for each group of three bytes and the terminator fit, and
then it writes just these, which a decoder takes for the bytes. -/
theorem base64Encode_spec {n : ℕ} (input : ByteString) (output : CBuffer n) :
    ∃ ok output', base64Encode input output = some (ok, output') ∧
      (ok = true ↔ 4 * (input.bytes.length ⌈/⌉ 3) < n) ∧
      (ok = true → output'.str.length = 4 * (input.bytes.length ⌈/⌉ 3) ∧
        Base64.decode output'.str = some input.bytes ∧
        output'.chars = output'.str ++ nul :: output.chars.drop (output'.str.length + 1)) ∧
      (ok = false → output' = output) := by
  have hceil : (Base64.encode input.bytes).length = 4 * (input.bytes.length ⌈/⌉ 3) := by
    rw [Base64.length_encode, Nat.ceilDiv_eq_add_pred_div]
    rfl
  rcases base64Encode_eq input output with ⟨hsize, heq⟩ | ⟨hsize, output', heq, hchars⟩
  · refine ⟨false, output, heq, ?_, fun h => absurd h (by decide), fun _ => rfl⟩
    rw [← hceil]
    exact iff_of_false (by decide) (by omega)
  · have hstr : output'.str = Base64.encode input.bytes := by
      rw [CBuffer.str, hchars, List.takeWhile_append_of_pos]
      · simp
      · intro c hc
        exact decide_eq_true fun h => nul_notMem_encode _ (h ▸ hc)
    refine ⟨true, output', heq, ?_, fun _ => ?_, fun h => absurd h (by decide)⟩
    · rw [← hceil]
      exact iff_of_true rfl hsize
    · rw [hstr]
      exact ⟨hceil, Base64.decode_encode _, hchars⟩

/-! ### Digests -/

/-- A hash that takes its input in pieces. -/
structure StreamingHash (size : ℕ) where
  Ctx : Type
  init : Ctx
  update : Ctx → List UInt8 → Ctx
  final : Ctx → List UInt8
  digest : List UInt8 → List UInt8
  final_foldl : ∀ blocks : List (List UInt8),
    final (blocks.foldl update init) = digest blocks.flatten
  length_digest : ∀ bytes, (digest bytes).length = size

/-- How a file is read: the blocks that `fread` delivers until it delivers nothing, and whether
`ferror` reports an error then. Without an error, that is the end of the file. -/
structure Reading (content : List UInt8) where
  blocks : List (List UInt8)
  error : Bool
  length_block : ∀ b ∈ blocks, 0 < b.length ∧ b.length ≤ 8192
  isPrefix : blocks.flatten <+: content
  complete : error = false → blocks.flatten = content

/-- The text of the MD5 digest; `opens` tells whether the file can be opened. -/
def calculateFileMd5 {n : ℕ} {content : List UInt8} (md5 : StreamingHash 16) (opens : Bool)
    (file : Reading content) (md5Base64 : CBuffer n) : Option (Bool × CBuffer n) :=
  if n < 25 then some (false, md5Base64)
  else if opens = false then some (false, md5Base64)
  else
    let mdCtx := file.blocks.foldl md5.update md5.init
    let md5Binary := md5.final mdCtx
    if h : md5Binary.length < 2 ^ 63 then base64Encode ⟨md5Binary, h⟩ md5Base64 else none

/-- The two digits of `%02x`. -/
def hexByte (b : UInt8) : List Char :=
  [Nat.digitChar (b.toNat / 16), Nat.digitChar (b.toNat % 16)]

/-- `snprintf` into an array from a place on: as much of the text as fits, and the terminator. -/
def snprintfAt {n : ℕ} (output : CBuffer n) (at' : ℕ) (text : List Char) : Option (CBuffer n) :=
  if at' ≥ n then some output
  else
    (text.take (n - at' - 1) ++ [nul]).zipIdx.foldlM (fun output p => output.set (at' + p.2) p.1)
      output

def calculateFileSha256 {n : ℕ} {content : List UInt8} (sha256 : StreamingHash 32) (opens : Bool)
    (file : Reading content) (sha256Hex : CBuffer n) : Option (Bool × CBuffer n) :=
  if n < 65 then some (false, sha256Hex)
  else if opens = false then some (false, sha256Hex)
  else
    let mdCtx := file.blocks.foldl sha256.update sha256.init
    if file.error then some (false, sha256Hex)
    else do
      let sha256Binary := sha256.final mdCtx
      let output ← sha256Binary.zipIdx.foldlM
        (fun output p => snprintfAt output (p.2 * 2) (hexByte p.1)) sha256Hex
      let output ← output.set (sha256Binary.length * 2) nul
      some (true, output)

lemma snprintfAt_hexByte {n : ℕ} {output : CBuffer n} {front tail : List Char} {d₀ d₁ d₂ : Char}
    (h : output.chars = front ++ d₀ :: d₁ :: d₂ :: tail) (b : UInt8) :
    ∃ output', snprintfAt output front.length (hexByte b) = some output' ∧
      output'.chars = front ++ (hexByte b ++ nul :: tail) := by
  have hlen : front.length + (tail.length + 3) = n := by
    rw [← output.length_eq, h]
    simp
  obtain ⟨b₀, h₀, hb₀⟩ := CBuffer.set_of_chars h (Nat.digitChar (b.toNat / 16))
  rw [List.append_cons] at hb₀
  obtain ⟨b₁, h₁, hb₁⟩ := CBuffer.set_of_chars hb₀ (Nat.digitChar (b.toNat % 16))
  rw [List.append_cons] at hb₁
  obtain ⟨b₂, h₂, hb₂⟩ := CBuffer.set_of_chars hb₁ nul
  have htake : (hexByte b).take (n - front.length - 1) = hexByte b :=
    List.take_of_length_le (show 2 ≤ _ by omega)
  refine ⟨b₂, ?_, by simpa [hexByte] using hb₂⟩
  rw [snprintfAt, if_neg (by omega), htake]
  simp only [List.length_append, List.length_singleton, Nat.add_assoc] at h₁ h₂
  simp [hexByte, List.zipIdx_cons, h₀, h₁, h₂]

/-- The digits of the bytes, one behind the other. -/
lemma foldlM_snprintfAt {n : ℕ} {output : CBuffer n} {front tail : List Char} {k : ℕ}
    (bytes : List UInt8) (hfront : front.length = k * 2) (h : output.chars = front ++ tail)
    (hlen : 2 * bytes.length < tail.length) :
    ∃ output' tail', (bytes.zipIdx k).foldlM
        (fun output p => snprintfAt output (p.2 * 2) (hexByte p.1)) output = some output' ∧
      output'.chars = front ++ (bytes.flatMap hexByte ++ tail') ∧
      tail'.length = tail.length - 2 * bytes.length := by
  induction bytes generalizing output front tail k with
  | nil => exact ⟨output, tail, rfl, h, rfl⟩
  | cons b bytes ih =>
    rw [List.length_cons] at hlen
    obtain ⟨d₀, d₁, d₂, tail, rfl⟩ : ∃ d₀ d₁ d₂ t, tail = d₀ :: d₁ :: d₂ :: t := by
      rcases tail with _ | ⟨d₀, _ | ⟨d₁, _ | ⟨d₂, t⟩⟩⟩
      · simp at hlen
      · simp only [List.length_cons, List.length_nil] at hlen
        omega
      · simp only [List.length_cons, List.length_nil] at hlen
        omega
      · exact ⟨d₀, d₁, d₂, t, rfl⟩
    obtain ⟨output', hout', hchars⟩ := snprintfAt_hexByte h b
    rw [← List.append_assoc] at hchars
    simp only [List.length_cons] at hlen
    obtain ⟨output'', tail', hrest, hchars', hlen'⟩ := ih (k := k + 1)
      (by rw [List.length_append, hfront]; simp [hexByte]; omega) hchars
      (by rw [List.length_cons]; omega)
    refine ⟨output'', tail', ?_, ?_, ?_⟩
    · rw [List.zipIdx_cons, List.foldlM_cons, ← hfront, hout']
      exact hrest
    · rw [hchars', List.flatMap_cons, List.append_assoc, List.append_assoc]
    · simp only [List.length_cons] at hlen' ⊢
      omega

lemma nul_notMem_hex (bytes : List UInt8) : nul ∉ bytes.flatMap hexByte := by
  have hdigit : ∀ k < 16, Nat.digitChar k ≠ nul := by decide
  intro hmem
  obtain ⟨b, -, hb⟩ := List.mem_flatMap.mp hmem
  have hlt := Base64.toNat_lt b
  rcases List.mem_cons.mp hb with h | h
  · exact hdigit _ (by omega) h.symm
  · exact hdigit _ (by omega) (List.mem_singleton.mp h).symm

variable {content : List UInt8} (file : Reading content)

/-- The MD5 digest covers the blocks that have been read, whether or not they are the file. -/
lemma calculateFileMd5_eq {n : ℕ} (md5 : StreamingHash 16) (opens : Bool) (output : CBuffer n)
    (hsize : 25 ≤ n) :
    (opens = false ∧ calculateFileMd5 md5 opens file output = some (false, output)) ∨
      opens = true ∧ ∃ output' : CBuffer n,
        calculateFileMd5 md5 opens file output = some (true, output') ∧
          output'.str = Base64.encode (md5.digest file.blocks.flatten) := by
  cases opens with
  | false =>
    refine .inl ⟨rfl, ?_⟩
    rw [calculateFileMd5, if_neg (by omega), if_pos rfl]
  | true =>
    refine .inr ⟨rfl, ?_⟩
    have hlength := md5.length_digest file.blocks.flatten
    rw [← md5.final_foldl] at hlength ⊢
    have hfits : (md5.final (file.blocks.foldl md5.update md5.init)).length < 2 ^ 63 := by
      rw [hlength]
      norm_num
    rw [calculateFileMd5, if_neg (by omega), if_neg (by decide), dif_pos hfits]
    have hencoded := Base64.length_encode (md5.final (file.blocks.foldl md5.update md5.init))
    rw [hlength] at hencoded
    rcases base64Encode_eq ⟨_, hfits⟩ output with ⟨hsmall, -⟩ | ⟨-, output', heq, hchars⟩
    · simp only [hencoded] at hsmall
      omega
    · refine ⟨output', heq, ?_⟩
      rw [CBuffer.str, hchars, List.takeWhile_append_of_pos]
      · simp
      · intro c hc
        exact decide_eq_true fun h => nul_notMem_encode _ (h ▸ hc)

/-- The SHA-256 digest is given up after a read error. -/
lemma calculateFileSha256_eq {n : ℕ} (sha256 : StreamingHash 32) (opens : Bool)
    (output : CBuffer n) (hsize : 65 ≤ n) :
    ((opens = false ∨ file.error = true) ∧
        calculateFileSha256 sha256 opens file output = some (false, output)) ∨
      (opens = true ∧ file.error = false) ∧ ∃ output' : CBuffer n,
        calculateFileSha256 sha256 opens file output = some (true, output') ∧
          output'.str = (sha256.digest content).flatMap hexByte := by
  cases opens with
  | false =>
    refine .inl ⟨.inl rfl, ?_⟩
    rw [calculateFileSha256, if_neg (by omega), if_pos rfl]
  | true =>
    cases herror : file.error with
    | true =>
      refine .inl ⟨.inr rfl, ?_⟩
      rw [calculateFileSha256, if_neg (by omega), if_neg (by decide), if_pos herror]
    | false =>
      refine .inr ⟨⟨rfl, rfl⟩, ?_⟩
      have hdigest := sha256.final_foldl file.blocks
      rw [file.complete herror] at hdigest
      have hlength := sha256.length_digest content
      obtain ⟨output', tail', hfold, hchars, htail⟩ := foldlM_snprintfAt (k := 0)
        (sha256.digest content) rfl (show output.chars = [] ++ output.chars from rfl)
        (by have := output.length_eq; omega)
      have hout := output.length_eq
      obtain ⟨d, t, rfl⟩ := List.exists_cons_of_length_pos (l := tail') (by omega)
      rw [List.nil_append] at hchars
      obtain ⟨output'', hset, hchars'⟩ := CBuffer.set_of_chars hchars nul
      have hhex : ((sha256.digest content).flatMap hexByte).length = 32 * 2 := by
        rw [List.length_flatMap]
        simp [hexByte, hlength]
      refine ⟨output'', ?_, ?_⟩
      · rw [calculateFileSha256, if_neg (by omega), if_neg (by decide), if_neg (by simp [herror])]
        rw [hhex] at hset
        simp only [hdigest, hlength, hfold, hset, Option.bind_eq_bind, Option.bind_some]
      · rw [CBuffer.str, hchars', List.takeWhile_append_of_pos]
        · simp
        · intro c hc
          exact decide_eq_true fun h => nul_notMem_hex _ (h ▸ hc)

/-- The two digests of one reading: a success is the digest of the whole file, and one succeeds
exactly when the other does. -/
def DigestsAgree {m n : ℕ} (md5 : StreamingHash 16) (sha256 : StreamingHash 32) (opens : Bool)
    (file : Reading content) (md5Base64 : CBuffer m) (sha256Hex : CBuffer n) : Prop :=
  ∃ ok₁ out₁ ok₂ out₂,
    calculateFileMd5 md5 opens file md5Base64 = some (ok₁, out₁) ∧
    calculateFileSha256 sha256 opens file sha256Hex = some (ok₂, out₂) ∧
    (ok₁ = true → out₁.str = Base64.encode (md5.digest content)) ∧
    (ok₂ = true → out₂.str = (sha256.digest content).flatMap hexByte) ∧
    (ok₁ = true ↔ ok₂ = true)

/-- **The two digests.** For arrays of the sizes that the functions ask for, the digests agree
exactly when the file cannot be opened or is read without an error. -/
theorem digestsAgree_iff {m n : ℕ} (md5 : StreamingHash 16) (sha256 : StreamingHash 32)
    (opens : Bool) {md5Base64 : CBuffer m} {sha256Hex : CBuffer n} (hm : 25 ≤ m) (hn : 65 ≤ n) :
    DigestsAgree md5 sha256 opens file md5Base64 sha256Hex ↔
      (opens = true → file.error = false) := by
  constructor
  · rintro ⟨ok₁, out₁, ok₂, out₂, h₁, h₂, -, -, hiff⟩ rfl
    by_contra herror
    rw [Bool.not_eq_false] at herror
    rcases calculateFileMd5_eq file md5 true md5Base64 hm with ⟨hno, -⟩ | ⟨-, output', heq, -⟩
    · cases hno
    rcases calculateFileSha256_eq file sha256 true sha256Hex hn with ⟨-, heq'⟩ | ⟨⟨-, hno⟩, -⟩
    · obtain ⟨rfl, -⟩ := Prod.mk.inj (Option.some.inj (h₁.symm.trans heq))
      obtain ⟨rfl, -⟩ := Prod.mk.inj (Option.some.inj (h₂.symm.trans heq'))
      exact absurd (hiff.mp rfl) (by decide)
    · rw [herror] at hno
      cases hno
  · intro hread
    rcases calculateFileMd5_eq file md5 opens md5Base64 hm with ⟨hno, heq⟩ |
      ⟨hopens, out₁, heq, hstr⟩
    · rcases calculateFileSha256_eq file sha256 opens sha256Hex hn with ⟨-, heq'⟩ | ⟨⟨hyes, -⟩, -⟩
      · exact ⟨false, _, false, _, heq, heq', fun h => absurd h (by decide),
          fun h => absurd h (by decide), Iff.rfl⟩
      · rw [hno] at hyes
        cases hyes
    · have herror := hread hopens
      rcases calculateFileSha256_eq file sha256 opens sha256Hex hn with
        ⟨hno | hno, -⟩ | ⟨-, out₂, heq', hstr'⟩
      · rw [hno] at hopens
        cases hopens
      · rw [hno] at herror
        cases herror
      · refine ⟨true, out₁, true, out₂, heq, heq', fun _ => ?_, fun _ => hstr', Iff.rfl⟩
        rw [hstr, file.complete herror]

/-! ### A file that cannot be read -/

def md5OfNothing : List UInt8 :=
  [0xd4, 0x1d, 0x8c, 0xd9, 0x8f, 0x00, 0xb2, 0x04, 0xe9, 0x80, 0x09, 0x98, 0xec, 0xf8, 0x42, 0x7e]

def sha256OfNothing : List UInt8 :=
  [0xe3, 0xb0, 0xc4, 0x42, 0x98, 0xfc, 0x1c, 0x14, 0x9a, 0xfb, 0xf4, 0xc8, 0x99, 0x6f, 0xb9, 0x24,
    0x27, 0xae, 0x41, 0xe4, 0x64, 0x9b, 0x93, 0x4c, 0xa4, 0x95, 0x99, 0x1b, 0x78, 0x52, 0xb8, 0x55]

/-- A hash with its value for the empty input. -/
def hashOfNothing (value : List UInt8) : StreamingHash value.length where
  Ctx := Unit
  init := ()
  update _ _ := ()
  final _ := value
  digest _ := value
  final_foldl _ := rfl
  length_digest _ := rfl

/-- Nothing is read, at the end of the file or after an error. -/
def readNothing (content : List UInt8) (error : Bool) (h : error = false → content = []) :
    Reading content where
  blocks := []
  error := error
  length_block := by simp
  isPrefix := List.nil_prefix
  complete herror := (h herror).symm

/-- A file that cannot be read at all has the MD5 digest of the empty file. -/
theorem unreadable_file_digest :
    (calculateFileMd5 (hashOfNothing md5OfNothing) true
        (readNothing [97] true (by decide)) (.fill 64 nul)).map (fun r => (r.1, r.2.str)) =
      some (true, "1B2M2Y8AsgTpgAmY7PhCfg==".toList) ∧
    ¬DigestsAgree (hashOfNothing md5OfNothing) (hashOfNothing sha256OfNothing) true
      (readNothing [97] true (by decide)) (.fill 64 nul) (.fill 65 nul) := by
  refine ⟨by decide +kernel, ?_⟩
  rintro ⟨ok₁, out₁, ok₂, out₂, h₁, h₂, -, -, hiff⟩
  have hmd5 : (calculateFileMd5 (hashOfNothing md5OfNothing) true
      (readNothing [97] true (by decide)) (.fill 64 nul)).map (·.1) = some true := by
    decide +kernel
  have hsha256 : (calculateFileSha256 (hashOfNothing sha256OfNothing) true
      (readNothing [97] true (by decide)) (.fill 65 nul)).map (·.1) = some false := by
    decide +kernel
  rw [h₁] at hmd5
  rw [h₂] at hsha256
  obtain rfl := Option.some.inj hmd5
  obtain rfl := Option.some.inj hsha256
  exact absurd (hiff.mp rfl) (by decide)

/-! ### A file of two blocks -/

/-- A hash that collects its input and looks the digest up. -/
def hashOfTable (size : ℕ) (table : List (List UInt8 × List UInt8)) : StreamingHash size where
  Ctx := List UInt8
  init := []
  update ctx block := ctx ++ block
  final ctx := ((table.lookup ctx).getD []).takeD size 0
  digest bytes := ((table.lookup bytes).getD []).takeD size 0
  final_foldl blocks := by
    have h : ∀ ctx : List UInt8, blocks.foldl (fun ctx block => ctx ++ block) ctx =
        ctx ++ blocks.flatten := by
      induction blocks with
      | nil => simp
      | cons block blocks ih => simp [ih]
    rw [h, List.nil_append]
  length_digest _ := List.takeD_length ..

/-- The letters a, b and c. -/
def abc : List UInt8 := [97, 98, 99]

def md5Table : List (List UInt8 × List UInt8) :=
  [([], md5OfNothing),
    (abc, [0x90, 0x01, 0x50, 0x98, 0x3c, 0xd2, 0x4f, 0xb0, 0xd6, 0x96, 0x3f, 0x7d, 0x28, 0xe1, 0x7f,
      0x72])]

def sha256Table : List (List UInt8 × List UInt8) :=
  [([], sha256OfNothing),
    (abc, [0xba, 0x78, 0x16, 0xbf, 0x8f, 0x01, 0xcf, 0xea, 0x41, 0x41, 0x40, 0xde, 0x5d, 0xae, 0x22,
      0x23, 0xb0, 0x03, 0x61, 0xa3, 0x96, 0x17, 0x7a, 0x9c, 0xb4, 0x10, 0xff, 0x61, 0xf2, 0x00,
      0x15, 0xad])]

/-- The file is read in two blocks. -/
def readAbc : Reading abc where
  blocks := [[97, 98], [99]]
  error := false
  length_block := by decide
  isPrefix := by decide
  complete _ := rfl

theorem abc_digests :
    DigestsAgree (hashOfTable 16 md5Table) (hashOfTable 32 sha256Table) true readAbc
      (.fill 64 nul) (.fill 65 nul) :=
  (digestsAgree_iff _ _ _ true (by decide) (by decide)).mpr fun _ => rfl

end DcmAgent.Upload
