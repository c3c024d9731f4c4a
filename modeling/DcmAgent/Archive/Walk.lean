import Mathlib.Tactic
import DcmAgent.Archive.Writer

/-!
# What a walk writes

The header of an entry is read back, the records of a walk are those of the files and links that it
visits, and a file leaves blocks that fit its header exactly when as many bytes arrive as `fstat`
has announced.
-/

namespace DcmAgent.Archive

open Library.Ustar

variable {filename name dirpath : Bytes} {st : Stat} {linkTarget : Option Bytes} {run : FileRun}
  {write : GzWrite}

/-! ### Headers -/

lemma sum_lt (h : Header) : h.sum < 8 ^ 6 := by
  have hle : ∀ v ∈ ({ h with checksum := .fill 8 32 } : Header).toBytes.map UInt8.toNat,
      v ≤ 255 := by
    intro v hv
    obtain ⟨b, -, rfl⟩ := List.mem_map.mp hv
    exact Nat.le_of_lt_succ b.toNat_lt
  have hsum := List.sum_le_card_nsmul _ _ hle
  rw [List.length_map, Header.length_toBytes] at hsum
  exact hsum.trans_lt (by decide)

lemma verified_tarHeader (filename : Bytes) (st : Stat) (linkTarget : Option Bytes) :
    (tarHeader filename st linkTarget).Verified := by
  constructor
  · rw [tarHeader, calculateTarChecksum, unsignedHeader]
    split_ifs <;> rfl
  · set h := unsignedHeader filename st linkTarget with hh
    have hlen : (octal 6 h.sum).length < 8 := by
      rw [octal_of_lt (by norm_num) (sum_lt h), length_lowDigits]
      norm_num
    obtain ⟨rest, hrest⟩ := Field.snprintf_bytes (.fill 8 32) hlen
    have hsum : (tarHeader filename st linkTarget).sum = h.sum := rfl
    have hfield : (tarHeader filename st linkTarget).checksum.bytes = octal 6 h.sum ++ 0 :: rest :=
      hrest
    rw [hsum, hfield, octal_of_lt (by norm_num) (sum_lt h),
      octalValue_append rest fun _ => isOctal_of_mem_lowDigits, digitsValue_lowDigits,
      Nat.mod_eq_of_lt (sum_lt h)]

/-- The size that a header declares: none for a link, and what is left of the size of a file in
eleven octal digits. -/
def declaredSize (st : Stat) : ℕ :=
  if st.kind = .symlink then 0 else leading 11 (unsignedLong st.size)

lemma octalValue_size_tarHeader (filename : Bytes) (st : Stat) (linkTarget : Option Bytes) :
    octalValue (tarHeader filename st linkTarget).size.bytes = some (declaredSize st) := by
  rw [tarHeader, calculateTarChecksum, unsignedHeader, declaredSize]
  split_ifs with hlink
  · exact octalValue_snprintf zeroHeader.size 0 (by norm_num)
  · exact octalValue_snprintf zeroHeader.size _ (by norm_num)

lemma readHeader_tarHeader (filename : Bytes) (st : Stat) (linkTarget : Option Bytes) :
    readHeader (tarHeader filename st linkTarget).toBytes =
      some (tarHeader filename st linkTarget, declaredSize st) :=
  readHeader_toBytes (verified_tarHeader _ _ _) (octalValue_size_tarHeader _ _ _)

lemma typeflag_tarHeader (filename : Bytes) (st : Stat) (linkTarget : Option Bytes) :
    (tarHeader filename st linkTarget).typeflag =
      if st.kind = .symlink then symlinkType else regularType := by
  unfold tarHeader calculateTarChecksum unsignedHeader
  split_ifs <;> rfl

/-! ### Bytes that arrive -/

/-- The number of bytes that a write of `n` bytes leaves in the archive. -/
def GzWrite.landed : GzWrite → ℕ → ℕ
  | .full, n => n
  | .failed k, n => min k n

lemma length_gzwrite (write : GzWrite) (b : Bytes) :
    (gzwrite write b).2.length = write.landed b.length := by
  cases write <;> simp [gzwrite, GzWrite.landed]

/-- The bytes that are read before the end or the first failing write, as far as they land. -/
def landedReads : List (Bytes × GzWrite) → ℕ
  | [] => 0
  | (buffer, .full) :: reads => if buffer = [] then 0 else buffer.length + landedReads reads
  | (buffer, .failed k) :: _ => min k buffer.length

/-- Everything that is read is written. -/
def readsEnd : List (Bytes × GzWrite) → Bool
  | [] => true
  | (buffer, .full) :: reads => buffer = [] || readsEnd reads
  | (buffer, .failed _) :: _ => buffer = []

/-- The number of bytes behind the header of a file. -/
def FileRun.bodyLength (run : FileRun) : ℕ :=
  if run.header = .full ∧ run.fdopen then
    if readsEnd run.reads then
      landedReads run.reads + run.pad.landed (padding (landedReads run.reads))
    else landedReads run.reads
  else 0

lemma copyData_ok (reads : List (Bytes × GzWrite)) : (copyData reads).1 = readsEnd reads := by
  induction reads with
  | nil => rfl
  | cons r reads ih =>
    obtain ⟨buffer, write⟩ := r
    by_cases hempty : buffer = []
    · cases write <;> simp [copyData, readsEnd, hempty]
    · cases write <;> simp [copyData, readsEnd, gzwrite, hempty, ih]

lemma length_copyData (reads : List (Bytes × GzWrite)) :
    (copyData reads).2.length = landedReads reads := by
  induction reads with
  | nil => rfl
  | cons r reads ih =>
    obtain ⟨buffer, write⟩ := r
    by_cases hempty : buffer = []
    · cases write <;> simp [copyData, landedReads, hempty]
    · cases write <;> simp [copyData, landedReads, gzwrite, hempty, ih]

/-- The file can be opened, and is a regular one. -/
def FileRun.Entered (run : FileRun) (st : Stat) : Prop :=
  run.opened = true ∧ run.fstat = some st ∧ st.kind = .regular

/-- The bytes behind the header of a file. -/
def FileRun.body (run : FileRun) : Bytes :=
  if run.header = .full ∧ run.fdopen then
    if (copyData run.reads).1 then
      (copyData run.reads).2 ++
        (gzwrite run.pad (List.replicate (padding (copyData run.reads).2.length) 0)).2
    else (copyData run.reads).2
  else []

lemma length_body (run : FileRun) : run.body.length = run.bodyLength := by
  unfold FileRun.body FileRun.bodyLength
  rw [copyData_ok]
  split_ifs
  · rw [List.length_append, length_gzwrite, List.length_replicate, length_copyData]
  · exact length_copyData run.reads
  · rfl

lemma addFileToTar_of_not_entered (h : ∀ st, ¬run.Entered st) :
    (addFileToTar name run).2 = .empty := by
  unfold addFileToTar
  by_cases hopened : run.opened = true
  · rw [if_neg (not_not.mpr hopened)]
    cases hst : run.fstat with
    | none => rfl
    | some st =>
      have hkind : st.kind ≠ .regular := fun hkind => h st ⟨hopened, hst, hkind⟩
      simp [hkind]
  · rw [if_pos hopened]

lemma addFileToTar_of_entered (h : run.Entered st) :
    (addFileToTar name run).2 =
      ⟨(gzwrite run.header (tarHeader name st none).toBytes).2, run.body⟩ := by
  obtain ⟨hopened, hst, hkind⟩ := h
  unfold addFileToTar FileRun.body
  simp only [hopened, hst, hkind, not_true, if_false, ne_eq, writeTarHeader]
  cases run.header with
  | failed k => simp [gzwrite]
  | full =>
    cases run.fdopen with
    | false => simp [gzwrite]
    | true =>
      cases hend : (copyData run.reads).1 with
      | false => simp [gzwrite]
      | true =>
        by_cases hpad : 0 < padding (copyData run.reads).2.length
        · simp [gzwrite, hpad]
        · have hzero : padding (copyData run.reads).2.length = 0 := Nat.eq_zero_of_not_pos hpad
          cases run.pad <;> simp [gzwrite, hzero]

/-! ### Framed records -/

/-- The header of a file does not arrive at all, or it arrives and as many blocks follow as it
declares. -/
def FileRun.Sound (run : FileRun) : Prop :=
  ∀ st, run.Entered st →
    run.header.landed blockSize = 0 ∨
      run.header.landed blockSize = blockSize ∧ run.bodyLength = padded (declaredSize st)

lemma gzwrite_eq_nil {b : Bytes} (h : write.landed b.length = 0) : (gzwrite write b).2 = [] := by
  rw [← length_gzwrite] at h
  exact List.length_eq_zero_iff.mp h

lemma gzwrite_eq_self {b : Bytes} (h : write.landed b.length = b.length) :
    (gzwrite write b).2 = b := by
  cases write with
  | full => rfl
  | failed k => exact List.take_of_length_le (min_eq_right_iff.mp h)

lemma body_of_header_failed (h : run.header ≠ .full) : run.body = [] := by
  unfold FileRun.body
  exact if_neg fun hfull => h hfull.1

/-- A header that arrives in part cannot be read. -/
lemma readHeader_gzwrite {h : Header} {size : ℕ}
    (hread : readHeader (gzwrite write (tarHeader name st linkTarget).toBytes).2 = some (h, size)) :
    write.landed blockSize = blockSize ∧ h = tarHeader name st linkTarget ∧
      size = declaredSize st := by
  have hlen := length_gzwrite write (tarHeader name st linkTarget).toBytes
  rw [length_of_readHeader hread, Header.length_toBytes] at hlen
  have hself := gzwrite_eq_self (b := (tarHeader name st linkTarget).toBytes)
    (by rw [Header.length_toBytes]; exact hlen.symm)
  simp only [hself, readHeader_tarHeader, Option.some.injEq, Prod.mk.injEq] at hread
  exact ⟨hlen.symm, hread.1.symm, hread.2.symm⟩

lemma landed_of_framed {body : Bytes}
    (h : Record.Framed ⟨(gzwrite write (tarHeader name st linkTarget).toBytes).2, body⟩) :
    write.landed blockSize = 0 ∧ body = [] ∨
      write.landed blockSize = blockSize ∧ body.length = padded (declaredSize st) := by
  rcases h with hempty | ⟨header, size, hread, hbody⟩
  · obtain ⟨hheader, hbody⟩ := Record.mk.inj hempty
    have hlen := length_gzwrite write (tarHeader name st linkTarget).toBytes
    rw [hheader, Header.length_toBytes] at hlen
    exact Or.inl ⟨hlen.symm, hbody⟩
  · obtain ⟨hfull, -, rfl⟩ := readHeader_gzwrite hread
    exact Or.inr ⟨hfull, hbody⟩

lemma framed_of_landed {body : Bytes}
    (h : write.landed blockSize = 0 ∧ body = [] ∨
      write.landed blockSize = blockSize ∧ body.length = padded (declaredSize st)) :
    Record.Framed ⟨(gzwrite write (tarHeader name st linkTarget).toBytes).2, body⟩ := by
  have hlen := Header.length_toBytes (tarHeader name st linkTarget)
  rcases h with ⟨hnone, rfl⟩ | ⟨hfull, hbody⟩
  · rw [gzwrite_eq_nil (hlen ▸ hnone)]
    exact Or.inl rfl
  · rw [gzwrite_eq_self (by rw [hlen]; exact hfull)]
    exact Or.inr ⟨_, _, readHeader_tarHeader _ _ _, hbody⟩

lemma framed_addFileToTar_iff : (addFileToTar name run).2.Framed ↔ run.Sound := by
  constructor
  · intro h st hentered
    rw [addFileToTar_of_entered hentered] at h
    rcases landed_of_framed h with ⟨hnone, -⟩ | ⟨hfull, hbody⟩
    · exact Or.inl hnone
    · exact Or.inr ⟨hfull, length_body run ▸ hbody⟩
  · intro h
    by_cases hentered : ∃ st, run.Entered st
    · obtain ⟨st, hentered⟩ := hentered
      rw [addFileToTar_of_entered hentered]
      apply framed_of_landed
      rcases h st hentered with hnone | ⟨hfull, hbody⟩
      · have hfailed : run.header ≠ .full := by
          intro hfull
          rw [hfull] at hnone
          exact absurd hnone (by decide)
        exact Or.inl ⟨hnone, body_of_header_failed hfailed⟩
      · exact Or.inr ⟨hfull, (length_body run).trans hbody⟩
    · rw [addFileToTar_of_not_entered (not_exists.mp hentered)]
      exact Or.inl rfl

lemma framed_linkRecord_iff {mode : ℕ} {mtime : ℤ} {target : Bytes} :
    (linkRecord name mode mtime target write).Framed ↔
      write.landed blockSize = 0 ∨ write.landed blockSize = blockSize := by
  have hnone : padded (declaredSize (symlinkStat mode mtime)) = 0 := by
    simp [declaredSize, symlinkStat, padded, padding]
  constructor
  · intro h
    rcases landed_of_framed h with ⟨hzero, -⟩ | ⟨hfull, -⟩
    · exact Or.inl hzero
    · exact Or.inr hfull
  · intro h
    apply framed_of_landed
    rcases h with hzero | hfull
    · exact Or.inl ⟨hzero, rfl⟩
    · exact Or.inr ⟨hfull, hnone.symm⟩

/-! ### The entries that are visited -/

/-- A file or a link that the walk writes a record for. -/
inductive Visit
  | file (arcname : Bytes) (run : FileRun)
  | link (arcname : Bytes) (mode : ℕ) (mtime : ℤ) (target : Bytes) (write : GzWrite)

def Visit.record : Visit → Record
  | .file arcname run => (addFileToTar arcname run).2
  | .link arcname mode mtime target write => linkRecord arcname mode mtime target write

def Visit.Sound : Visit → Prop
  | .file _ run => run.Sound
  | .link _ _ _ _ write => write.landed blockSize = 0 ∨ write.landed blockSize = blockSize

lemma Visit.framed_record_iff (v : Visit) : v.record.Framed ↔ v.Sound := by
  cases v with
  | file arcname run => exact framed_addFileToTar_iff
  | link arcname mode mtime target write => exact framed_linkRecord_iff

section Walk

variable (basePath excludeFile : Bytes)

/-- The files and links that a walk visits when every directory can be opened. -/
def Listing.visits (dirpath : Bytes) : Listing → List Visit
  | .done => []
  | .unknown _ rest => rest.visits dirpath
  | .other _ rest => rest.visits dirpath
  | .file name run rest =>
    if Skipped excludeFile dirpath name then rest.visits dirpath
    else .file (arcname basePath (fullpath dirpath name)) run :: rest.visits dirpath
  | .link name mode mtime target write rest =>
    if Skipped excludeFile dirpath name then rest.visits dirpath
    else
      (target.map fun target =>
        Visit.link (arcname basePath (fullpath dirpath name)) mode mtime target write).toList ++
          rest.visits dirpath
  | .directory name _ entries rest =>
    if Skipped excludeFile dirpath name then rest.visits dirpath
    else entries.visits (fullpath dirpath name) ++ rest.visits dirpath

/-- Every directory that the walk comes to can be opened. -/
def Listing.Opens (dirpath : Bytes) : Listing → Prop
  | .done => True
  | .unknown _ rest => rest.Opens dirpath
  | .other _ rest => rest.Opens dirpath
  | .file _ _ rest => rest.Opens dirpath
  | .link _ _ _ _ _ rest => rest.Opens dirpath
  | .directory name opened entries rest =>
    (¬Skipped excludeFile dirpath name →
      opened = true ∧ entries.Opens (fullpath dirpath name)) ∧ rest.Opens dirpath

variable {basePath excludeFile} {listing : Listing}

lemma addEntries_of_opens (h : listing.Opens excludeFile dirpath) :
    addEntries basePath excludeFile dirpath listing =
      (0, (listing.visits basePath excludeFile dirpath).map Visit.record) := by
  induction listing generalizing dirpath with
  | done => rfl
  | unknown _ rest ih => exact ih h
  | other _ rest ih => exact ih h
  | file name run rest ih =>
    rw [addEntries, Listing.visits, ih h]
    split_ifs <;> rfl
  | link name mode mtime target write rest ih =>
    cases target <;>
    · rw [addEntries, Listing.visits, ih h]
      split_ifs <;> rfl
  | directory name opened entries rest ihEntries ihRest =>
    rw [addEntries, Listing.visits, ihRest h.2]
    split_ifs with hskip hopened
    · rfl
    · rw [ihEntries (h.1 hskip).2]
      simp
    · exact absurd (h.1 hskip).1 hopened

/-- A walk that returns 0 has opened every directory. -/
lemma opens_of_addEntries (h : (addEntries basePath excludeFile dirpath listing).1 = 0) :
    listing.Opens excludeFile dirpath := by
  induction listing generalizing dirpath with
  | done => trivial
  | unknown _ rest ih => exact ih h
  | other _ rest ih => exact ih h
  | file name run rest ih =>
    apply ih
    rw [addEntries] at h
    split_ifs at h <;> exact h
  | link name mode mtime target write rest ih =>
    apply ih
    cases target <;>
    · rw [addEntries] at h
      split_ifs at h <;> exact h
  | directory name opened entries rest ihEntries ihRest =>
    rw [addEntries] at h
    split_ifs at h with hskip hopened
    · exact ⟨fun hno => absurd hskip hno, ihRest h⟩
    · have hentries : (addEntries basePath excludeFile (fullpath dirpath name) entries).1 = 0 := by
        by_contra hne
        simp [hne] at h
      simp only [hentries, ne_eq, not_true, if_false] at h
      exact ⟨fun _ => ⟨hopened, ihEntries hentries⟩, ihRest h⟩
    · exact absurd h (by decide)

end Walk

end DcmAgent.Archive
