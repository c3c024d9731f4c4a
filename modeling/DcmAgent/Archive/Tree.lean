import Mathlib.Tactic
import DcmAgent.Archive.Framing

/-!
# Directory trees

A tree of files, links and directories in the order of `readdir`, what the walk finds in it when no
call fails, and the entries that an archive of it should have. A path of 512 characters and more is
cut, and what the file system has at the cut path is given from outside.
-/

namespace DcmAgent.Archive

open Library.Ustar

/-! ### Trees -/

structure Text where
  bytes : Bytes
  nonzero : 0 ∉ bytes
  deriving DecidableEq

structure FileName extends Text where
  nonempty : bytes ≠ []
  slash : 47 ∉ bytes
  not_dot : ¬IsDot bytes
  deriving DecidableEq

inductive Tree
  | nil
  | file (name : FileName) (mode : ℕ) (mtime : ℤ) (content : Bytes) (rest : Tree)
  | link (name : FileName) (mode : ℕ) (mtime : ℤ) (target : Text) (rest : Tree)
  | directory (name : FileName) (entries rest : Tree)

/-- A slash and a name for each step. -/
def pathOf (names : List FileName) : Bytes := names.flatMap fun n => 47 :: n.bytes

/-- The path in an archive. -/
def relativePath (names : List FileName) : Bytes := (pathOf names).tail

section Expected

variable (sourceDir archive : Bytes)

/-- The entries of an archive of the tree, without the archive itself. -/
def Tree.expected (names : List FileName) : Tree → List Entry
  | .nil => []
  | .file name _ _ content rest =>
    if sourceDir ++ pathOf (names ++ [name]) = archive then rest.expected names
    else ⟨relativePath (names ++ [name]), regularType, [], content⟩ :: rest.expected names
  | .link name _ _ target rest =>
    if sourceDir ++ pathOf (names ++ [name]) = archive then rest.expected names
    else ⟨relativePath (names ++ [name]), symlinkType, target.bytes, []⟩ :: rest.expected names
  | .directory name entries rest =>
    if sourceDir ++ pathOf (names ++ [name]) = archive then rest.expected names
    else entries.expected (names ++ [name]) ++ rest.expected names

end Expected

/-! ### What the walk finds -/

/-- The content is read in the given pieces, and no call fails. -/
def FileRun.ofContent (chunks : List Bytes) (mode : ℕ) (mtime : ℤ) (content : Bytes) :
    FileRun where
  opened := true
  fstat := some ⟨.regular, mode, mtime, content.length⟩
  header := .full
  fdopen := true
  reads := chunks.map fun c => (c, .full)
  pad := .full

/-- A file that can be read has one of the contents, and no call fails for it. -/
def FileRun.Reads (chunks : Bytes → List Bytes) (contents : Set Bytes) (run : FileRun) : Prop :=
  ∀ st, run.Entered st →
    ∃ mode mtime, ∃ content ∈ contents, run = .ofContent (chunks content) mode mtime content

def Visit.Reads (chunks : Bytes → List Bytes) (contents : Set Bytes) : Visit → Prop
  | .file _ run => run.Reads chunks contents
  | .link _ _ _ _ write => write = .full

/-- The pieces in which contents are read, and what is at the paths that have been cut: the only
regular files are those of the tree. -/
structure FileSystem (contents : Set Bytes) where
  chunks : Bytes → List Bytes
  flatten_chunks : ∀ content, (chunks content).flatten = content
  nonempty_chunks : ∀ content, [] ∉ chunks content
  fileAt : Bytes → FileRun
  fileAt_reads : ∀ path, (fileAt path).Reads chunks contents
  opened : Bytes → Bool
  directoryAt : Bytes → Listing
  directoryAt_reads : ∀ basePath excludeFile path,
    ∀ v ∈ (directoryAt path).visits basePath excludeFile path, v.Reads chunks contents

variable {contents : Set Bytes}

section Listing

variable (sourceDir : Bytes) (fs : FileSystem contents)

def Tree.listing (names : List FileName) : Tree → Listing
  | .nil => .done
  | .file name mode mtime content rest =>
    let path := sourceDir ++ pathOf (names ++ [name])
    .file name.bytes
      (if path.length < maxPathLength then .ofContent (fs.chunks content) mode mtime content
        else fs.fileAt (path.take (maxPathLength - 1)))
      (rest.listing names)
  | .link name mode mtime target rest =>
    .link name.bytes mode mtime (some target.bytes) .full (rest.listing names)
  | .directory name entries rest =>
    let path := sourceDir ++ pathOf (names ++ [name])
    if path.length < maxPathLength then
      .directory name.bytes true (entries.listing (names ++ [name])) (rest.listing names)
    else
      .directory name.bytes (fs.opened (path.take (maxPathLength - 1)))
        (fs.directoryAt (path.take (maxPathLength - 1))) (rest.listing names)

end Listing

/-! ### Paths -/

variable {sourceDir archive : Bytes} {names : List FileName} {name : FileName}

lemma pathOf_append (names : List FileName) (name : FileName) :
    pathOf (names ++ [name]) = pathOf names ++ 47 :: name.bytes := by
  simp [pathOf]

lemma pathOf_eq (names : List FileName) (name : FileName) :
    pathOf (names ++ [name]) = 47 :: relativePath (names ++ [name]) := by
  unfold relativePath
  cases names with
  | nil => simp [pathOf]
  | cons n names => simp [pathOf]

lemma zero_notMem_relativePath (names : List FileName) : 0 ∉ relativePath names := by
  intro hmem
  obtain ⟨n, -, hn⟩ := List.mem_flatMap.mp (List.mem_of_mem_tail hmem)
  rcases List.mem_cons.mp hn with h47 | hname
  · exact absurd h47 (by decide)
  · exact n.nonzero hname

lemma relativePath_ne_nil (names : List FileName) (name : FileName) :
    relativePath (names ++ [name]) ≠ [] := by
  unfold relativePath
  have hname := name.nonempty
  cases names with
  | nil => simpa [pathOf] using hname
  | cons n names => simp [pathOf]

lemma fullpath_pathOf (sourceDir : Bytes) (names : List FileName) (name : FileName) :
    fullpath (sourceDir ++ pathOf names) name.bytes =
      (sourceDir ++ pathOf (names ++ [name])).take (maxPathLength - 1) := by
  rw [fullpath, List.append_assoc, pathOf_append]

/-- The part of a path that is left behind the base path when the path has been cut. -/
lemma arcname_take (basePath path : Bytes) :
    arcname basePath ((basePath ++ 47 :: path).take (maxPathLength - 1)) =
      path.take (maxPathLength - 2 - basePath.length) := by
  have hdrop : ((basePath ++ 47 :: path).take (maxPathLength - 1)).drop basePath.length =
      (47 :: path).take (maxPathLength - 1 - basePath.length) := by
    rw [List.drop_take, List.drop_left]
  rw [arcname, hdrop]
  obtain h0 | ⟨k, hk⟩ : maxPathLength - 1 - basePath.length = 0 ∨
      ∃ k, maxPathLength - 1 - basePath.length = k + 1 := by
    cases maxPathLength - 1 - basePath.length with
    | zero => exact Or.inl rfl
    | succ k => exact Or.inr ⟨k, rfl⟩
  · have h0' : maxPathLength - 2 - basePath.length = 0 := by omega
    rw [h0, h0']
    rfl
  · have hk' : maxPathLength - 2 - basePath.length = k := by omega
    rw [hk, hk', List.take_succ_cons]
    rfl

lemma arcname_fullpath (sourceDir : Bytes) (names : List FileName) (name : FileName) :
    arcname sourceDir (fullpath (sourceDir ++ pathOf names) name.bytes) =
      (relativePath (names ++ [name])).take (maxPathLength - 2 - sourceDir.length) := by
  rw [fullpath_pathOf, pathOf_eq, arcname_take]

/-! ### Entries of headers -/

variable {filename : Bytes} {st : Stat} {linkTarget : Option Bytes}

lemma str_strncpy_zero {n : ℕ} (hn : 0 < n) {s : Bytes} (hs : 0 ∉ s) :
    ((Field.fill n 0).strncpy s (n - 1)).str = s.take (n - 1) := by
  obtain ⟨rest, hrest⟩ := Field.strncpy_fill_zero s hn
  exact Field.str_of_bytes hrest fun h => hs (List.mem_of_mem_take h)

lemma length_str_strncpy_zero {n : ℕ} (hn : 0 < n) (s : Bytes) :
    ((Field.fill n 0).strncpy s (n - 1)).str.length ≤ min (n - 1) s.length := by
  obtain ⟨rest, hrest⟩ := Field.strncpy_fill_zero s hn
  have hstop : (0 :: rest).takeWhile (fun b : UInt8 => decide (b ≠ 0)) = [] := by simp
  rw [← List.length_take, Field.str, hrest, List.takeWhile_append, hstop, List.append_nil]
  split_ifs
  · exact le_rfl
  · exact (List.takeWhile_prefix _).length_le

lemma str_fill_zero {n : ℕ} : (Field.fill n 0).str = [] := by
  cases n with
  | zero => rfl
  | succ n => simp [Field.str, Field.fill, List.replicate_succ]

lemma path_tarHeader (filename : Bytes) (st : Stat) (linkTarget : Option Bytes) :
    (tarHeader filename st linkTarget).path =
      ((Field.fill 100 0).strncpy filename (100 - 1)).str := by
  have hpre : (tarHeader filename st linkTarget).namePrefix = .fill 155 0 := by
    unfold tarHeader calculateTarChecksum unsignedHeader
    split_ifs <;> rfl
  have hname : (tarHeader filename st linkTarget).name =
      (Field.fill 100 0).strncpy filename (100 - 1) := by
    unfold tarHeader calculateTarChecksum unsignedHeader
    split_ifs <;> rfl
  rw [Header.path, hpre, str_fill_zero, if_pos rfl, hname]

lemma entry_tarHeader_file (h : st.kind ≠ .symlink) (content : Bytes) :
    (tarHeader filename st linkTarget).entry content =
      ⟨((Field.fill 100 0).strncpy filename (100 - 1)).str, regularType, [], content⟩ := by
  have htype : (tarHeader filename st linkTarget).typeflag = regularType := by
    rw [typeflag_tarHeader, if_neg h]
  have hlink : (tarHeader filename st linkTarget).linkname = .fill 100 0 := by
    unfold tarHeader calculateTarChecksum unsignedHeader
    rw [if_neg h]
    rfl
  rw [Header.entry, path_tarHeader, htype, hlink, str_fill_zero]

lemma entry_tarHeader_link {target : Bytes} (h : st.kind = .symlink) (content : Bytes) :
    (tarHeader filename st (some target)).entry content =
      ⟨((Field.fill 100 0).strncpy filename (100 - 1)).str, symlinkType,
        ((Field.fill 100 0).strncpy target (100 - 1)).str, content⟩ := by
  have htype : (tarHeader filename st (some target)).typeflag = symlinkType := by
    rw [typeflag_tarHeader, if_pos h]
  have hlink : (tarHeader filename st (some target)).linkname =
      (Field.fill 100 0).strncpy target (100 - 1) := by
    unfold tarHeader calculateTarChecksum unsignedHeader
    rw [if_pos h]
    rfl
  rw [Header.entry, path_tarHeader, htype, hlink]

/-! ### Entries of visits -/

lemma unsignedLong_of_lt {n : ℕ} (h : n < 8 ^ 11) : unsignedLong n = n := by
  have hlt : (n : ℤ) < 2 ^ 64 := by
    have : (n : ℤ) < 8 ^ 11 := by exact_mod_cast h
    exact this.trans (by norm_num)
  rw [unsignedLong, Int.emod_eq_of_lt (Int.natCast_nonneg n) hlt, Int.toNat_natCast]

lemma declaredSize_of_lt {mode n : ℕ} {mtime : ℤ} (h : n < 8 ^ 11) :
    declaredSize ⟨.regular, mode, mtime, n⟩ = n := by
  rw [declaredSize, if_neg (by simp), unsignedLong_of_lt h, leading_of_lt (by norm_num) h]

lemma copyData_full {chunks : List Bytes} (h : [] ∉ chunks) :
    copyData (chunks.map fun c => (c, .full)) = (true, chunks.flatten) := by
  induction chunks with
  | nil => rfl
  | cons c chunks ih =>
    have hc : c ≠ [] := fun hc => h (hc ▸ List.mem_cons_self)
    simp [copyData, gzwrite, hc, ih fun hmem => h (List.mem_cons_of_mem _ hmem)]

/-- The record of a file that is read without a fault. -/
lemma record_ofContent (fs : FileSystem contents) (arcname : Bytes) (mode : ℕ) (mtime : ℤ)
    (content : Bytes) :
    (Visit.file arcname (.ofContent (fs.chunks content) mode mtime content)).record =
      ⟨(tarHeader arcname ⟨.regular, mode, mtime, content.length⟩ none).toBytes,
        content ++ List.replicate (padding content.length) 0⟩ := by
  have hentered : (FileRun.ofContent (fs.chunks content) mode mtime content).Entered
      ⟨.regular, mode, mtime, content.length⟩ := ⟨rfl, rfl, rfl⟩
  have hcopy := copyData_full (fs.nonempty_chunks content)
  rw [fs.flatten_chunks] at hcopy
  rw [Visit.record, addFileToTar_of_entered hentered, FileRun.body]
  simp [FileRun.ofContent, hcopy, gzwrite]

lemma entry_ofContent (fs : FileSystem contents) {arcname content : Bytes} {mode : ℕ} {mtime : ℤ}
    (h : content.length < 8 ^ 11) :
    (Visit.file arcname (.ofContent (fs.chunks content) mode mtime content)).record.entry =
      some ⟨((Field.fill 100 0).strncpy arcname (100 - 1)).str, regularType, [], content⟩ := by
  rw [record_ofContent, Record.entry, readHeader_tarHeader, declaredSize_of_lt h]
  simp only [Option.map_some, List.take_left]
  rw [entry_tarHeader_file (by simp)]

lemma entry_link {arcname target : Bytes} {mode : ℕ} {mtime : ℤ} :
    (Visit.link arcname mode mtime target .full).record.entry =
      some ⟨((Field.fill 100 0).strncpy arcname (100 - 1)).str, symlinkType,
        ((Field.fill 100 0).strncpy (target.take (pathMax - 1)) (100 - 1)).str, []⟩ := by
  have hrecord : (Visit.link arcname mode mtime target .full).record =
      ⟨(tarHeader arcname (symlinkStat mode mtime) (some (target.take (pathMax - 1)))).toBytes,
        []⟩ := rfl
  rw [hrecord, Record.entry, readHeader_tarHeader]
  simp only [Option.map_some, List.take_nil]
  rw [entry_tarHeader_link rfl]

/-- Whatever is visited at a cut path, the record of it is framed. -/
lemma framed_of_reads {fs : FileSystem contents} {v : Visit} (h : v.Reads fs.chunks contents)
    (hsmall : ∀ c ∈ contents, c.length < 8 ^ 11) : v.record.Framed := by
  cases v with
  | link arcname mode mtime target write =>
    obtain rfl : write = .full := h
    exact framed_linkRecord_iff.mpr (Or.inr rfl)
  | file arcname run =>
    by_cases hentered : ∃ st, run.Entered st
    · obtain ⟨st, hentered⟩ := hentered
      obtain ⟨mode, mtime, content, hmem, rfl⟩ := h st hentered
      rw [record_ofContent]
      refine Or.inr ⟨_, _, readHeader_tarHeader _ _ _, ?_⟩
      rw [declaredSize_of_lt (hsmall content hmem), List.length_append, List.length_replicate,
        padded]
    · rw [Visit.record, addFileToTar_of_not_entered (not_exists.mp hentered)]
      exact Or.inl rfl

def Visit.arcname : Visit → Bytes
  | .file arcname _ => arcname
  | .link arcname _ _ _ _ => arcname

/-- The visit leaves no record. -/
def Visit.Silent : Visit → Prop
  | .file _ run => ∀ st, ¬run.Entered st
  | .link _ _ _ _ _ => False

/-- A visit that is not silent brings in an entry, whose names fit their fields. -/
lemma entry_of_reads {fs : FileSystem contents} {v : Visit} (h : v.Reads fs.chunks contents)
    (hsmall : ∀ c ∈ contents, c.length < 8 ^ 11) :
    v.Silent ∧ v.record.entry = none ∨
      ¬v.Silent ∧ ∃ e, v.record.entry = some e ∧ e.path.length ≤ min (100 - 1) v.arcname.length ∧
        e.linkname.length ≤ 100 - 1 := by
  cases v with
  | link arcname mode mtime target write =>
    obtain rfl : write = .full := h
    refine Or.inr ⟨id, _, entry_link, length_str_strncpy_zero (by norm_num) _, ?_⟩
    exact (length_str_strncpy_zero (by norm_num) _).trans (min_le_left _ _)
  | file arcname run =>
    by_cases hentered : ∃ st, run.Entered st
    · obtain ⟨st, hentered⟩ := hentered
      obtain ⟨mode, mtime, content, hmem, rfl⟩ := h st hentered
      refine Or.inr ⟨fun hsilent => hsilent st hentered, _,
        entry_ofContent fs (hsmall content hmem), length_str_strncpy_zero (by norm_num) _,
        Nat.zero_le _⟩
    · have hsilent := not_exists.mp hentered
      refine Or.inl ⟨hsilent, ?_⟩
      rw [Visit.record, addFileToTar_of_not_entered hsilent]
      rfl

end DcmAgent.Archive
