import Mathlib.Tactic

/-!
# The ustar format

Blocks of 512 bytes: a header, the data of the entry padded to whole blocks, and at the end two
blocks of zeros. `readTar` is a reader that verifies the checksum of every header.
-/

namespace DcmAgent.Library.Ustar

abbrev Bytes := List UInt8

/-! ### Byte arrays -/

/-- An array of `n` bytes. -/
structure Field (n : ℕ) where
  bytes : Bytes
  length_eq : bytes.length = n
  deriving DecidableEq, Repr

namespace Field

variable {n : ℕ}

/-- The array after `memset(f, b, n)`. -/
def fill (n : ℕ) (b : UInt8) : Field n := ⟨List.replicate n b, by simp⟩

/-- The array of one byte. -/
def byte (b : UInt8) : Field 1 := ⟨[b], rfl⟩

/-- The array after `snprintf(f, n, "%s", s)`. -/
def snprintf (f : Field n) (s : Bytes) : Field n where
  bytes := (s.take (n - 1) ++ 0 :: f.bytes.drop ((s.take (n - 1)).length + 1)).take n
  length_eq := by
    have := f.length_eq
    simp only [List.length_take, List.length_append, List.length_cons, List.length_drop]
    omega

/-- The array after `strncpy(f, s, k)`. -/
def strncpy (f : Field n) (s : Bytes) (k : ℕ) : Field n where
  bytes := ((s ++ List.replicate k 0).take k ++ f.bytes.drop k).take n
  length_eq := by
    have := f.length_eq
    simp only [List.length_take, List.length_append, List.length_replicate, List.length_drop]
    omega

/-- The bytes before the first zero. -/
def str (f : Field n) : Bytes := f.bytes.takeWhile (· ≠ 0)

/-- The first `n` bytes, and what follows them. -/
def read (n : ℕ) (b : Bytes) : Option (Field n × Bytes) :=
  if h : n ≤ b.length then some (⟨b.take n, List.length_take_of_le h⟩, b.drop n) else none

@[simp] lemma length_bytes (f : Field n) : f.bytes.length = n := f.length_eq

@[simp] lemma read_append (f : Field n) (rest : Bytes) :
    read n (f.bytes ++ rest) = some (f, rest) := by
  obtain ⟨bytes, rfl⟩ := f
  simp [read]

lemma read_bind {β : Type} (f : Field n) (rest : Bytes) (k : Field n × Bytes → Option β) :
    (read n (f.bytes ++ rest) >>= k) = k (f, rest) := by
  rw [read_append]
  rfl

lemma length_str_le (f : Field n) : f.str.length ≤ n :=
  (List.takeWhile_prefix _).length_le.trans f.length_eq.le

/-- The text before a zero. -/
lemma str_of_bytes {f : Field n} {s rest : Bytes} (h : f.bytes = s ++ 0 :: rest) (hs : 0 ∉ s) :
    f.str = s := by
  have hne : ∀ b ∈ s, decide (b ≠ 0) = true := fun b hb => decide_eq_true fun h0 => hs (h0 ▸ hb)
  rw [str, h, List.takeWhile_append_of_pos hne]
  simp

/-- The copy of a text into a zeroed array, which keeps its last byte. -/
lemma strncpy_fill_zero (s : Bytes) (hn : 0 < n) :
    ∃ rest, ((fill n 0).strncpy s (n - 1)).bytes = s.take (n - 1) ++ 0 :: rest := by
  have hdrop : (fill n 0).bytes.drop (n - 1) = [0] := by
    rw [fill, List.drop_replicate, Nat.sub_sub_self hn]
    rfl
  have hlen : ((s ++ List.replicate (n - 1) 0).take (n - 1) ++ [(0 : UInt8)]).length ≤ n := by
    simp only [List.length_append, List.length_take, List.length_replicate, List.length_singleton]
    omega
  have hcut : (s ++ List.replicate (n - 1) (0 : UInt8)).take (n - 1) =
      s.take (n - 1) ++ List.replicate (n - 1 - s.length) 0 := by
    rw [List.take_append, List.take_replicate, min_eq_left (Nat.sub_le _ _)]
  refine ⟨List.replicate (n - 1 - s.length) 0, ?_⟩
  simp only [strncpy, hdrop]
  rw [List.take_of_length_le hlen, hcut, List.append_assoc, ← List.replicate_succ',
    List.replicate_succ]

lemma snprintf_bytes (f : Field n) {s : Bytes} (hs : s.length < n) :
    ∃ rest, (f.snprintf s).bytes = s ++ 0 :: rest := by
  obtain ⟨m, rfl⟩ : ∃ m, n = s.length + 1 + m := ⟨n - (s.length + 1), by omega⟩
  have htake : s.take (s.length + 1 + m - 1) = s := List.take_of_length_le (by omega)
  have hcut (rest : Bytes) : (s ++ 0 :: rest).take (s.length + 1 + m) = s ++ 0 :: rest.take m := by
    rw [Nat.add_assoc, List.take_length_add_append, Nat.add_comm 1 m, List.take_succ_cons]
  simp only [snprintf, htake, hcut]
  exact ⟨_, rfl⟩

/-- What is printed is cut off where the array ends. -/
lemma snprintf_take (f : Field n) (s : Bytes) : f.snprintf s = f.snprintf (s.take (n - 1)) := by
  simp only [snprintf, List.take_take, min_self]

end Field

/-! ### Octal numbers -/

def isOctal (b : UInt8) : Bool := 48 ≤ b ∧ b ≤ 55

def octalDigit (d : ℕ) : UInt8 := UInt8.ofNat (48 + d % 8)

/-- The last `k` octal digits of a number. -/
def lowDigits : ℕ → ℕ → Bytes
  | 0, _ => []
  | k + 1, v => lowDigits k (v / 8) ++ [octalDigit v]

/-- The text of a number under `%0ko`: at least `k` digits, and as many as it has. -/
def octal (k v : ℕ) : Bytes := lowDigits (max k (Nat.log 8 v + 1)) v

/-- The number that octal digits denote. -/
def digitsValue (digits : Bytes) : ℕ := digits.foldl (fun v d => 8 * v + (d.toNat - 48)) 0

/-- The number in a numeric field: octal digits, ended by a zero or a space. -/
def octalValue (b : Bytes) : Option ℕ :=
  match b.dropWhile isOctal with
  | t :: _ => if t = 0 ∨ t = 32 then some (digitsValue (b.takeWhile isOctal)) else none
  | [] => none

@[simp] lemma length_lowDigits (k v : ℕ) : (lowDigits k v).length = k := by
  induction k generalizing v with
  | zero => rfl
  | succ k ih => simp [lowDigits, ih]

lemma toNat_octalDigit (d : ℕ) : (octalDigit d).toNat = 48 + d % 8 := by
  have hlt : d % 8 < 8 := Nat.mod_lt _ (by norm_num)
  rw [octalDigit, UInt8.toNat_ofNat']
  exact Nat.mod_eq_of_lt (by omega)

lemma isOctal_octalDigit (d : ℕ) : isOctal (octalDigit d) = true := by
  have hlt : d % 8 < 8 := Nat.mod_lt _ (by norm_num)
  simp only [isOctal, decide_eq_true_eq, UInt8.le_iff_toNat_le, toNat_octalDigit]
  exact ⟨Nat.le_add_right _ _, Nat.add_le_add_left (Nat.lt_succ_iff.mp hlt) 48⟩

lemma isOctal_of_mem_lowDigits {k v : ℕ} {b : UInt8} (h : b ∈ lowDigits k v) :
    isOctal b = true := by
  induction k generalizing v with
  | zero => exact absurd h List.not_mem_nil
  | succ k ih =>
    rcases List.mem_append.mp h with hlow | hlast
    · exact ih hlow
    · obtain rfl := List.mem_singleton.mp hlast
      exact isOctal_octalDigit v

lemma digitsValue_append_singleton (digits : Bytes) (d : UInt8) :
    digitsValue (digits ++ [d]) = 8 * digitsValue digits + (d.toNat - 48) := by
  simp [digitsValue]

lemma digitsValue_lowDigits (k v : ℕ) : digitsValue (lowDigits k v) = v % 8 ^ k := by
  induction k generalizing v with
  | zero => simp [lowDigits, digitsValue, Nat.mod_one]
  | succ k ih =>
    rw [lowDigits, digitsValue_append_singleton, ih, toNat_octalDigit, Nat.add_sub_cancel_left,
      pow_succ', Nat.mod_mul]
    exact Nat.add_comm _ _

lemma digitsValue_lt {digits : Bytes} (h : ∀ d ∈ digits, isOctal d = true) :
    digitsValue digits < 8 ^ digits.length := by
  induction digits using List.reverseRecOn with
  | nil => simp [digitsValue]
  | append_singleton digits d ih =>
    have hlow := ih fun d hd => h d (List.mem_append_left _ hd)
    have hd := h d (List.mem_append_right _ (List.mem_singleton_self d))
    simp only [isOctal, decide_eq_true_eq, UInt8.le_iff_toNat_le] at hd
    have hd' : d.toNat ≤ 55 := hd.2
    rw [digitsValue_append_singleton, List.length_append, List.length_singleton, pow_succ]
    omega

/-- The leading digits of a number are those of the number without its last digits. -/
lemma take_lowDigits (a b v : ℕ) : (lowDigits (a + b) v).take a = lowDigits a (v / 8 ^ b) := by
  induction b generalizing v with
  | zero => simp [List.take_of_length_le]
  | succ b ih =>
    rw [← Nat.add_assoc, lowDigits, List.take_append_of_le_length (by simp), ih,
      Nat.div_div_eq_div_mul, pow_succ']

/-- The number that is left of `v` in a field of `k` digits. -/
def leading (k v : ℕ) : ℕ := v / 8 ^ (Nat.log 8 v + 1 - k)

lemma leading_lt (k v : ℕ) : leading k v < 8 ^ k := by
  have hv : v < 8 ^ (Nat.log 8 v + 1) := Nat.lt_pow_succ_log_self (by norm_num) v
  rw [leading, Nat.div_lt_iff_lt_mul (by positivity), ← pow_add]
  exact hv.trans_le (Nat.pow_le_pow_right (by norm_num) (by omega))

lemma log_lt_of_lt {k v : ℕ} (hk : 0 < k) (h : v < 8 ^ k) : Nat.log 8 v + 1 ≤ k := by
  rcases Nat.eq_zero_or_pos v with rfl | hv
  · rw [Nat.log_zero_right]
    exact hk
  · exact (Nat.log_lt_iff_lt_pow (by norm_num) hv.ne').mpr h

lemma leading_of_lt {k v : ℕ} (hk : 0 < k) (h : v < 8 ^ k) : leading k v = v := by
  rw [leading, Nat.sub_eq_zero_of_le (log_lt_of_lt hk h), pow_zero, Nat.div_one]

/-- A number of at most `k` digits is printed in `k` digits. -/
lemma octal_of_lt {k v : ℕ} (hk : 0 < k) (h : v < 8 ^ k) : octal k v = lowDigits k v := by
  rw [octal, max_eq_left (log_lt_of_lt hk h)]

lemma octal_take (k v : ℕ) : (octal k v).take k = lowDigits k (leading k v) := by
  obtain ⟨b, hb⟩ := Nat.exists_eq_add_of_le (le_max_left k (Nat.log 8 v + 1))
  rw [octal, hb, take_lowDigits, leading]
  congr 3
  omega

lemma octalValue_append {digits : Bytes} (rest : Bytes) (h : ∀ d ∈ digits, isOctal d = true) :
    octalValue (digits ++ 0 :: rest) = some (digitsValue digits) := by
  unfold octalValue
  rw [List.dropWhile_append_of_pos h, List.takeWhile_append_of_pos h]
  simp [isOctal]

lemma octalValue_lt {b : Bytes} {v : ℕ} (h : octalValue b = some v) : v < 8 ^ (b.length - 1) := by
  unfold octalValue at h
  split at h
  · next t rest hrest =>
    split_ifs at h
    obtain rfl := Option.some.inj h
    have hlen : (b.takeWhile isOctal).length + (rest.length + 1) = b.length := by
      rw [← List.length_cons, ← hrest, ← List.length_append, List.takeWhile_append_dropWhile]
    refine (digitsValue_lt (List.all_eq_true.mp List.all_takeWhile)).trans_le ?_
    exact Nat.pow_le_pow_right (by norm_num) (by omega)
  · cases h

/-- A number printed into an array, read back. -/
lemma octalValue_snprintf {n : ℕ} (f : Field n) (v : ℕ) (hn : 1 < n) :
    octalValue (f.snprintf (octal (n - 1) v)).bytes = some (leading (n - 1) v) := by
  have hlen : (lowDigits (n - 1) (leading (n - 1) v)).length < n := by
    rw [length_lowDigits]
    omega
  obtain ⟨rest, hrest⟩ := f.snprintf_bytes hlen
  rw [Field.snprintf_take, octal_take, hrest,
    octalValue_append rest fun _ => isOctal_of_mem_lowDigits, digitsValue_lowDigits,
    Nat.mod_eq_of_lt (leading_lt _ _)]

/-! ### Headers -/

def blockSize : ℕ := 512

/-- The block before the data of an entry. -/
structure Header where
  name : Field 100
  mode : Field 8
  uid : Field 8
  gid : Field 8
  size : Field 12
  mtime : Field 12
  checksum : Field 8
  typeflag : UInt8
  linkname : Field 100
  magic : Field 6
  version : Field 2
  uname : Field 32
  gname : Field 32
  devmajor : Field 8
  devminor : Field 8
  namePrefix : Field 155
  pad : Field 12
  deriving DecidableEq, Repr

namespace Header

def toBytes (h : Header) : Bytes :=
  h.name.bytes ++ (h.mode.bytes ++ (h.uid.bytes ++ (h.gid.bytes ++ (h.size.bytes ++
    (h.mtime.bytes ++ (h.checksum.bytes ++ ((Field.byte h.typeflag).bytes ++
      (h.linkname.bytes ++ (h.magic.bytes ++ (h.version.bytes ++ (h.uname.bytes ++
        (h.gname.bytes ++ (h.devmajor.bytes ++ (h.devminor.bytes ++ (h.namePrefix.bytes ++
          h.pad.bytes)))))))))))))))

def ofBytes (b : Bytes) : Option Header := do
  let (name, b) ← Field.read 100 b
  let (mode, b) ← Field.read 8 b
  let (uid, b) ← Field.read 8 b
  let (gid, b) ← Field.read 8 b
  let (size, b) ← Field.read 12 b
  let (mtime, b) ← Field.read 12 b
  let (checksum, b) ← Field.read 8 b
  let (typeflag, b) ← Field.read 1 b
  let (linkname, b) ← Field.read 100 b
  let (magic, b) ← Field.read 6 b
  let (version, b) ← Field.read 2 b
  let (uname, b) ← Field.read 32 b
  let (gname, b) ← Field.read 32 b
  let (devmajor, b) ← Field.read 8 b
  let (devminor, b) ← Field.read 8 b
  let (namePrefix, b) ← Field.read 155 b
  let (pad, _) ← Field.read 12 b
  pure { name, mode, uid, gid, size, mtime, checksum, typeflag := typeflag.bytes.headI, linkname,
         magic, version, uname, gname, devmajor, devminor, namePrefix, pad }

/-- The sum of the bytes, with spaces in place of the checksum. -/
def sum (h : Header) : ℕ :=
  ({ h with checksum := .fill 8 32 }.toBytes.map UInt8.toNat).sum

/-- The name of the entry, with the part that is kept in the prefix field. -/
def path (h : Header) : Bytes :=
  if h.namePrefix.str = [] then h.name.str else h.namePrefix.str ++ 47 :: h.name.str

def ustarMagic : Bytes := [117, 115, 116, 97, 114, 0]

/-- The magic is there, and the checksum is right. -/
def Verified (h : Header) : Prop :=
  h.magic.bytes = ustarMagic ∧ octalValue h.checksum.bytes = some h.sum

instance (h : Header) : Decidable h.Verified := inferInstanceAs (Decidable (_ ∧ _))

@[simp] lemma length_toBytes (h : Header) : h.toBytes.length = blockSize := by
  simp [toBytes, blockSize]

lemma ofBytes_toBytes (h : Header) : ofBytes h.toBytes = some h := by
  have hpad : Field.read 12 h.pad.bytes = some (h.pad, []) := by
    simpa using h.pad.read_append []
  unfold ofBytes toBytes
  iterate 16 refine (Field.read_bind _ _ _).trans ?_
  exact congrArg (· >>= _) hpad

end Header

/-- A header block that is read: its checksum is verified, and it has a size. -/
def readHeader (b : Bytes) : Option (Header × ℕ) := do
  guard (b.length = blockSize)
  let h ← Header.ofBytes b
  guard h.Verified
  let size ← octalValue h.size.bytes
  pure (h, size)

lemma readHeader_toBytes {h : Header} (hh : h.Verified) {size : ℕ}
    (hsize : octalValue h.size.bytes = some size) : readHeader h.toBytes = some (h, size) := by
  simp [readHeader, Header.ofBytes_toBytes, hh, hsize]

lemma length_of_readHeader {b : Bytes} {h : Header} {size : ℕ}
    (hread : readHeader b = some (h, size)) : b.length = blockSize := by
  by_contra hne
  simp [readHeader, hne] at hread

lemma size_lt_of_readHeader {b : Bytes} {h : Header} {size : ℕ}
    (hread : readHeader b = some (h, size)) : size < 8 ^ 11 := by
  simp only [readHeader, Option.bind_eq_bind, Option.bind_eq_some_iff, Option.pure_def,
    Option.some.injEq] at hread
  obtain ⟨-, -, header, -, -, -, value, hvalue, heq⟩ := hread
  obtain ⟨rfl, rfl⟩ := Prod.mk.inj heq
  exact (octalValue_lt hvalue).trans_eq (by rw [header.size.length_eq])

/-! ### Archives -/

/-- The bytes after `n` bytes of data that fill the last block. -/
def padding (n : ℕ) : ℕ := (blockSize - n % blockSize) % blockSize

/-- The bytes of the blocks that hold `n` bytes of data. -/
def padded (n : ℕ) : ℕ := n + padding n

def endBlocks : Bytes := List.replicate (2 * blockSize) 0

structure Entry where
  path : Bytes
  typeflag : UInt8
  linkname : Bytes
  content : Bytes
  deriving DecidableEq, Repr

def Header.entry (h : Header) (content : Bytes) : Entry :=
  ⟨h.path, h.typeflag, h.linkname.str, content⟩

def readEntries : ℕ → Bytes → Option (List Entry)
  | 0, _ => none
  | fuel + 1, b =>
    match readHeader (b.take blockSize) with
    | none => if b = endBlocks then some [] else none
    | some (h, size) => do
      let data := b.drop blockSize
      guard (padded size ≤ data.length)
      let entries ← readEntries fuel (data.drop (padded size))
      pure (h.entry (data.take size) :: entries)

/-- The entries of an archive. -/
def readTar (b : Bytes) : Option (List Entry) := readEntries (b.length + 1) b

/-- What a writer has written for one entry: the header, and what follows it. -/
structure Record where
  header : Bytes
  body : Bytes
  deriving DecidableEq, Repr

namespace Record

def empty : Record := ⟨[], []⟩

def bytes (r : Record) : Bytes := r.header ++ r.body

/-- Nothing is written, or the header is read back and as many blocks follow it as it declares. -/
def Framed (r : Record) : Prop :=
  r = empty ∨ ∃ h size, readHeader r.header = some (h, size) ∧ r.body.length = padded size

/-- The entry that a reader finds. -/
def entry (r : Record) : Option Entry :=
  (readHeader r.header).map fun p => p.1.entry (r.body.take p.2)

end Record

lemma readHeader_zeros : readHeader (endBlocks.take blockSize) = none := by decide +kernel

lemma readEntries_end {fuel : ℕ} (h : 0 < fuel) : readEntries fuel endBlocks = some [] := by
  cases fuel with
  | zero => exact absurd h (lt_irrefl 0)
  | succ fuel => simp [readEntries, readHeader_zeros]

lemma readEntries_record {fuel size : ℕ} {h : Header} {r : Record} {rest : Bytes}
    (hread : readHeader r.header = some (h, size)) (hbody : r.body.length = padded size) :
    readEntries (fuel + 1) (r.bytes ++ rest) =
      (readEntries fuel rest).map (h.entry (r.body.take size) :: ·) := by
  have hlen := length_of_readHeader hread
  have htake : (r.bytes ++ rest).take blockSize = r.header := by
    rw [Record.bytes, List.append_assoc, List.take_left' hlen]
  have hdrop : (r.bytes ++ rest).drop blockSize = r.body ++ rest := by
    rw [Record.bytes, List.append_assoc, List.drop_left' hlen]
  have hsize : size ≤ r.body.length := hbody ▸ Nat.le_add_right _ _
  have hrest : (r.body ++ rest).drop (padded size) = rest := List.drop_left' hbody
  have hfits : padded size ≤ (r.body ++ rest).length := by
    rw [List.length_append, hbody]
    exact Nat.le_add_right _ _
  simp only [readEntries, htake, hread, hdrop, hrest, hfits, List.take_append_of_le_length hsize]
  cases readEntries fuel rest <;> rfl

lemma readEntries_records {records : List Record} {fuel : ℕ} (h : ∀ r ∈ records, r.Framed)
    (hfuel : (records.flatMap Record.bytes).length < fuel) :
    readEntries fuel (records.flatMap Record.bytes ++ endBlocks) =
      some (records.filterMap Record.entry) := by
  induction records generalizing fuel with
  | nil => exact readEntries_end hfuel
  | cons r records ih =>
    have htail : ∀ r ∈ records, r.Framed := fun r hr => h r (List.mem_cons_of_mem _ hr)
    rw [List.flatMap_cons, List.length_append] at hfuel
    rw [List.flatMap_cons, List.append_assoc]
    rcases h r List.mem_cons_self with rfl | ⟨header, size, hread, hbody⟩
    · have hentry : Record.empty.entry = none := rfl
      rw [List.filterMap_cons, hentry]
      exact ih htail (by simpa [Record.empty, Record.bytes] using hfuel)
    · have hentry : r.entry = some (header.entry (r.body.take size)) := by
        rw [Record.entry, hread]
        rfl
      have hlen : blockSize ≤ r.bytes.length := by
        rw [Record.bytes, List.length_append, length_of_readHeader hread]
        exact Nat.le_add_right _ _
      cases fuel with
      | zero => exact absurd hfuel (Nat.not_lt_zero _)
      | succ fuel =>
        have hrest : (records.flatMap Record.bytes).length < fuel := by
          unfold blockSize at hlen
          omega
        rw [readEntries_record hread hbody, ih htail hrest, List.filterMap_cons, hentry]
        rfl

/-- An archive of framed records is read. -/
lemma readTar_records {records : List Record} (h : ∀ r ∈ records, r.Framed) :
    readTar (records.flatMap Record.bytes ++ endBlocks) =
      some (records.filterMap Record.entry) := by
  apply readEntries_records h
  rw [List.length_append]
  omega

/-- No entry is longer than the largest number of a size field. -/
lemma length_content_lt {fuel : ℕ} {b : Bytes} {entries : List Entry}
    (h : readEntries fuel b = some entries) : ∀ e ∈ entries, e.content.length < 8 ^ 11 := by
  induction fuel generalizing b entries with
  | zero => cases h
  | succ fuel ih =>
    rw [readEntries] at h
    split at h
    · split_ifs at h
      obtain rfl := Option.some.inj h
      exact fun e he => absurd he List.not_mem_nil
    · next header size hread =>
      simp only [Option.bind_eq_bind, Option.bind_eq_some_iff, Option.pure_def,
        Option.some.injEq] at h
      obtain ⟨-, -, rest, hrest, rfl⟩ := h
      have hhead : ((b.drop blockSize).take size).length < 8 ^ 11 :=
        (List.length_take_le _ _).trans_lt (size_lt_of_readHeader hread)
      exact List.forall_mem_cons.mpr ⟨hhead, ih hrest⟩

end DcmAgent.Library.Ustar
