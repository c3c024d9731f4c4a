import Mathlib.Data.List.DropRight
import Mathlib.Tactic
import DcmAgent.Backup.Engine
import DcmAgent.Library.CString
import DcmAgent.Library.Numbered
import DcmAgent.Library.Stream

/-!
# The special files

`special_files_load_config` reads the list of the special files, one path in a line. The file is
read with `fgets` into an array, so a line that does not fit the array is read in several pieces
and each of them is taken for a line.
-/

namespace DcmAgent.Backup

open Library

def maxSpecialFiles : ℕ := 32

inductive SpecialFileOperation where
  | copy
  | move
  deriving DecidableEq, Repr

structure SpecialFileEntry where
  sourcePath : List Char
  destinationPath : List Char
  operation : SpecialFileOperation
  conditionalCheck : List Char
  deriving DecidableEq, Repr

/-- The entries in use, which are not more than the array has room for. -/
structure SpecialFilesConfig where
  entries : List SpecialFileEntry
  configLoaded : Bool
  count_le : entries.length ≤ maxSpecialFiles

inductive LoadResult where
  | success
  | errorInvalidParam
  | errorConfig
  deriving DecidableEq, Repr

def isWhite (c : Char) : Bool := c = ' ' || c = '\t' || c = '\r' || c = '\n'

/-- `strrchr(path, '/') + 1`, the whole path without a slash. -/
def afterLastSlash (path : List Char) : List Char := path.rtakeWhile (· ≠ '/')

/-- What `strncpy` leaves of a path in an array of an entry. -/
def storedPath (path : List Char) : List Char := path.take (pathMax - 1)

/-- The entry that the body of the loop makes from what `fgets` left in the array. -/
def entryOfLine (line : List Char) : Option SpecialFileEntry :=
  let trimmed := (line.takeWhile (· ≠ nul)).dropWhile isWhite
  if trimmed = [] ∨ trimmed.head? = some '#' then none
  else
    let trimmed := trimmed.rdropWhile isWhite
    if trimmed = [] then none
    else
      some {
        sourcePath := storedPath trimmed
        destinationPath := storedPath (afterLastSlash trimmed)
        operation := .copy
        conditionalCheck := [] }

def SpecialFilesConfig.push (config : SpecialFilesConfig) (entry : SpecialFileEntry)
    (h : config.entries.length < maxSpecialFiles) : SpecialFilesConfig where
  entries := config.entries ++ [entry]
  configLoaded := config.configLoaded
  count_le := by simpa using h

/-- `char line[512]`, the last character being the terminator. -/
def lineRoom : ℕ := 511

/-- `while (fgets(line, sizeof(line), fp) && config->count < MAX_SPECIAL_FILES)`. -/
def readEntries : List (List Char) → SpecialFilesConfig → SpecialFilesConfig
  | [], config => config
  | line :: rest, config =>
    if h : config.entries.length < maxSpecialFiles then
      match entryOfLine line with
      | none => readEntries rest config
      | some entry => readEntries rest (config.push entry h)
    else config

/-- The result and the configuration, of which nothing is written where a pointer is null. `fopen`
gives the content of a file that can be opened. -/
def specialFilesLoadConfig (fopen : List Char → Option (List Char))
    (config : Option SpecialFilesConfig) (configFile : Option (List Char)) :
    LoadResult × Option SpecialFilesConfig :=
  match config, configFile with
  | some _, some path =>
    let config : SpecialFilesConfig := ⟨[], false, Nat.zero_le _⟩
    match fopen path with
    | none => (.errorConfig, some config)
    | some text =>
      let config := readEntries (pieces lineRoom text) config
      (.success, some { config with configLoaded := true })
  | config, _ => (.errorInvalidParam, config)

/-! ### What a line says -/

/-- A line without the blanks at its ends. -/
def content (line : List Char) : List Char := (line.dropWhile isWhite).rdropWhile isWhite

/-- A line that is blank or a comment. -/
def Ignored (line : List Char) : Prop := content line = [] ∨ (content line).head? = some '#'

instance : DecidablePred Ignored :=
  fun line => inferInstanceAs (Decidable (content line = [] ∨ (content line).head? = some '#'))

/-- The entry that a line stands for. -/
def configuredEntry (line : List Char) : Option SpecialFileEntry :=
  if Ignored line then none
  else some ⟨content line, afterLastSlash (content line), .copy, []⟩

/-- The entries that the pieces of a line give. -/
def lineEntries (line : List Char) : List SpecialFileEntry :=
  (pieces lineRoom line).filterMap entryOfLine

/-- The entries of a file, each with the number of its line. -/
def configuredEntries (text : List Char) : List (ℕ × SpecialFileEntry) :=
  (numbered (fun line => (configuredEntry line).toList) 0 (textLines text)).take maxSpecialFiles

/-- The entries that are read, each with the number of the line that it is made from. -/
def readLineEntries (text : List Char) : List (ℕ × SpecialFileEntry) :=
  (numbered lineEntries 0 (textLines text)).take maxSpecialFiles

/-- The configuration is loaded, each entry from the line that it stands in. -/
def ReadsConfigured (fopen : List Char → Option (List Char)) (path text : List Char) : Prop :=
  ∀ config, ∃ loaded, specialFilesLoadConfig fopen (some config) (some path) =
      (.success, some loaded) ∧
    loaded.entries = (configuredEntries text).map Prod.snd ∧
    (readLineEntries text).map Prod.fst = (configuredEntries text).map Prod.fst

/-- A line that the pieces do not change: where nothing is configured no piece says anything, and
an entry lies in one piece. -/
def WholeLine (line : List Char) : Prop :=
  if Ignored line then ∀ piece ∈ pieces lineRoom line, Ignored (piece.takeWhile (· ≠ nul))
  else ∃ piece ∈ pieces lineRoom line, content (piece.takeWhile (· ≠ nul)) = content line

instance : DecidablePred WholeLine :=
  fun line => inferInstanceAs (Decidable (if Ignored line then _ else _))

/-! ### One line -/

def inked (s : List Char) : List Char := s.filter fun c => !isWhite c

lemma inked_dropWhile (s : List Char) : inked (s.dropWhile isWhite) = inked s := by
  induction s with
  | nil => rfl
  | cons c s ih =>
    by_cases hc : isWhite c
    · rw [List.dropWhile_cons_of_pos hc, ih, inked, inked,
        List.filter_cons_of_neg (by simpa using hc)]
    · rw [List.dropWhile_cons_of_neg hc]

lemma inked_reverse (s : List Char) : inked s.reverse = (inked s).reverse :=
  List.filter_reverse

/-- What is not blank stays. -/
lemma inked_content (line : List Char) : inked (content line) = inked line := by
  have hback (s : List Char) : inked (s.rdropWhile isWhite) = inked s := by
    rw [List.rdropWhile, inked_reverse, inked_dropWhile, inked_reverse, List.reverse_reverse]
  rw [content, hback, inked_dropWhile]

lemma inked_eq_nil_iff {s : List Char} : inked s = [] ↔ ∀ c ∈ s, isWhite c = true := by
  simp [inked, List.filter_eq_nil_iff]

lemma content_eq_nil_iff {line : List Char} : content line = [] ↔ inked line = [] := by
  constructor
  · intro h
    rw [← inked_content, h]
    rfl
  · intro h
    rw [content, List.rdropWhile_eq_nil_iff]
    exact fun c hc => inked_eq_nil_iff.mp h c ((List.dropWhile_suffix _).subset hc)

lemma content_eq_nil_iff_dropWhile {line : List Char} :
    content line = [] ↔ line.dropWhile isWhite = [] := by
  rw [content_eq_nil_iff, inked_eq_nil_iff, List.dropWhile_eq_nil_iff]

lemma head?_content (line : List Char) :
    (content line).head? = (line.dropWhile isWhite).head? := by
  obtain ⟨tail, htail⟩ := List.rdropWhile_prefix isWhite (line.dropWhile isWhite)
  change content line ++ tail = _ at htail
  match h : content line with
  | [] => rw [content_eq_nil_iff_dropWhile.mp h]
  | c :: s =>
    rw [← htail, h]
    rfl

/-- The array holds whatever the entry can. -/
lemma entryOfLine_eq {line : List Char} (hlen : line.length < pathMax) :
    entryOfLine line = configuredEntry (line.takeWhile (· ≠ nul)) := by
  have hcontent : (content (line.takeWhile (· ≠ nul))).length ≤ pathMax - 1 := by
    have hcut := (List.takeWhile_prefix (l := line) (· ≠ nul)).length_le
    have hfront := (List.dropWhile_suffix (l := line.takeWhile (· ≠ nul)) isWhite).length_le
    have hback := (List.rdropWhile_prefix isWhite
      ((line.takeWhile (· ≠ nul)).dropWhile isWhite)).length_le
    rw [content]
    omega
  have hname : (afterLastSlash (content (line.takeWhile (· ≠ nul)))).length ≤ pathMax - 1 :=
    (List.rtakeWhile_suffix _ _).length_le.trans hcontent
  unfold entryOfLine configuredEntry Ignored
  simp only [head?_content, content_eq_nil_iff_dropWhile]
  split_ifs with h hnil
  · rfl
  · exact absurd (content_eq_nil_iff_dropWhile.mp hnil) (fun h' => h (.inl h'))
  · have hsource : storedPath (content (line.takeWhile (· ≠ nul))) = _ :=
      List.take_of_length_le hcontent
    have hdestination : storedPath (afterLastSlash (content (line.takeWhile (· ≠ nul)))) = _ :=
      List.take_of_length_le hname
    rw [content] at hsource hdestination
    rw [hsource, hdestination]
    rfl

lemma configuredEntry_eq_none_iff {line : List Char} :
    configuredEntry line = none ↔ Ignored line := by
  rw [configuredEntry, ite_eq_left_iff]
  simp

lemma configuredEntry_congr {line line' : List Char} (h : content line = content line') :
    configuredEntry line = configuredEntry line' := by
  have hignored : Ignored line ↔ Ignored line' := by simp only [Ignored, h]
  exact if_congr hignored rfl (by rw [h])

lemma content_eq_of_configuredEntry {line line' : List Char} {entry : SpecialFileEntry}
    (h : configuredEntry line = some entry) (h' : configuredEntry line' = some entry) :
    content line = content line' := by
  have hsource {l : List Char} (hl : configuredEntry l = some entry) :
      content l = entry.sourcePath := by
    rw [configuredEntry] at hl
    split_ifs at hl
    rw [← Option.some.inj hl]
  rw [hsource h, hsource h']

lemma lineEntries_eq (line : List Char) : lineEntries line =
    (pieces lineRoom line).filterMap fun piece => configuredEntry (piece.takeWhile (· ≠ nul)) := by
  refine List.filterMap_congr fun piece hpiece => entryOfLine_eq ?_
  have hroom : piece.length ≤ lineRoom := length_le_of_mem_pieces (by decide) hpiece
  exact hroom.trans_lt (by decide)

/-- A piece without characters other than blanks gives nothing. -/
lemma configuredEntry_eq_none_of_inked {piece : List Char} (h : inked piece = []) :
    configuredEntry (piece.takeWhile (· ≠ nul)) = none := by
  rw [configuredEntry_eq_none_iff, Ignored, content_eq_nil_iff, inked_eq_nil_iff]
  exact .inl fun c hc => inked_eq_nil_iff.mp h c ((List.takeWhile_prefix _).subset hc)

/-- Where a piece gives the entry of its line, the other pieces are blank. -/
lemma lineEntries_of_piece {line piece : List Char} (hpiece : piece ∈ pieces lineRoom line)
    (hcontent : content (piece.takeWhile (· ≠ nul)) = content line) (hline : ¬ Ignored line) :
    lineEntries line = (configuredEntry line).toList := by
  obtain ⟨before, behind, hsplit⟩ := List.append_of_mem hpiece
  have hall : inked line = inked before.flatten ++ (inked piece ++ inked behind.flatten) := by
    have hflat := flatten_pieces lineRoom line
    rw [hsplit, List.flatten_append, List.flatten_cons] at hflat
    rw [← hflat, inked, List.filter_append, List.filter_append]
    rfl
  have hle : (inked line).length ≤ (inked piece).length := by
    rw [← inked_content, ← hcontent, inked_content]
    exact ((List.takeWhile_prefix _).sublist.filter _).length_le
  have hnone {ps : List (List Char)} (h : (inked ps.flatten).length = 0) :
      ps.filterMap (fun piece => configuredEntry (piece.takeWhile (· ≠ nul))) = [] := by
    rw [List.filterMap_eq_nil_iff]
    intro p hp
    refine configuredEntry_eq_none_of_inked (inked_eq_nil_iff.mpr fun c hc => ?_)
    exact inked_eq_nil_iff.mp (List.length_eq_zero_iff.mp h) c
      (List.mem_flatten.mpr ⟨p, hp, hc⟩)
  have hlen := congrArg List.length hall
  rw [List.length_append, List.length_append] at hlen
  obtain ⟨entry, hentry⟩ := Option.ne_none_iff_exists'.mp
    (mt configuredEntry_eq_none_iff.mp hline)
  have hpieceEntry := (configuredEntry_congr hcontent).trans hentry
  rw [lineEntries_eq, hsplit, List.filterMap_append, List.filterMap_cons, hpieceEntry, hentry,
    hnone (by omega), hnone (by omega)]
  rfl

/-- The first entry of a line decides about the others. -/
lemma lineEntries_of_head {line : List Char}
    (h : (lineEntries line).head? = configuredEntry line) :
    lineEntries line = (configuredEntry line).toList := by
  match hentry : configuredEntry line with
  | none =>
    rw [hentry] at h
    exact List.head?_eq_none_iff.mp h
  | some entry =>
    rw [hentry, lineEntries_eq] at h
    obtain ⟨piece, hpiece, hgives⟩ := List.mem_filterMap.mp (List.mem_of_head? h)
    rw [← hentry]
    refine lineEntries_of_piece hpiece (content_eq_of_configuredEntry hgives hentry) fun hline => ?_
    rw [configuredEntry_eq_none_iff.mpr hline] at hentry
    cases hentry

lemma wholeLine_iff {line : List Char} :
    WholeLine line ↔ lineEntries line = (configuredEntry line).toList := by
  rw [WholeLine]
  split_ifs with hline
  · rw [configuredEntry_eq_none_iff.mpr hline, Option.toList_none, lineEntries_eq,
      List.filterMap_eq_nil_iff]
    exact forall₂_congr fun _ _ => configuredEntry_eq_none_iff.symm
  · constructor
    · rintro ⟨piece, hpiece, hcontent⟩
      exact lineEntries_of_piece hpiece hcontent hline
    · intro h
      obtain ⟨entry, hentry⟩ := Option.ne_none_iff_exists'.mp
        (mt configuredEntry_eq_none_iff.mp hline)
      have hmem : entry ∈ lineEntries line := by
        rw [h, hentry]
        exact List.mem_singleton_self entry
      rw [lineEntries_eq] at hmem
      obtain ⟨piece, hpiece, hgives⟩ := List.mem_filterMap.mp hmem
      exact ⟨piece, hpiece, content_eq_of_configuredEntry hgives hentry⟩

/-! ### The file -/

lemma entries_readEntries (ps : List (List Char)) (config : SpecialFilesConfig) :
    (readEntries ps config).entries =
      (config.entries ++ ps.filterMap entryOfLine).take maxSpecialFiles := by
  have hfull (config : SpecialFilesConfig) (l : List SpecialFileEntry)
      (h : ¬ config.entries.length < maxSpecialFiles) :
      (config.entries ++ l).take maxSpecialFiles = config.entries := by
    rw [List.take_append_of_le_length (by omega), List.take_of_length_le config.count_le]
  induction ps generalizing config with
  | nil =>
    rw [readEntries, List.filterMap_nil, List.append_nil, List.take_of_length_le config.count_le]
  | cons line ps ih =>
    rw [readEntries]
    split_ifs with h
    · match hentry : entryOfLine line with
      | none =>
        rw [List.filterMap_cons_none hentry]
        exact ih config
      | some entry =>
        rw [List.filterMap_cons_some hentry]
        refine (ih (config.push entry h)).trans ?_
        rw [SpecialFilesConfig.push, List.append_assoc, List.singleton_append]
    · exact (hfull config _ h).symm

/-- What the loop reads is what the lines give. -/
lemma entries_readEntries_pieces (text : List Char) :
    (readEntries (pieces lineRoom text) ⟨[], false, Nat.zero_le _⟩).entries =
      (readLineEntries text).map Prod.snd := by
  rw [entries_readEntries, List.nil_append, readLineEntries, List.map_take, map_snd_numbered,
    pieces_eq_flatMap, List.filterMap_flatMap]
  rfl

lemma readsConfigured_iff_numbered {fopen : List Char → Option (List Char)} {path text : List Char}
    (hopen : fopen path = some text) :
    ReadsConfigured fopen path text ↔ readLineEntries text = configuredEntries text := by
  have hload (config : SpecialFilesConfig) :
      specialFilesLoadConfig fopen (some config) (some path) =
        (.success, some { readEntries (pieces lineRoom text) ⟨[], false, Nat.zero_le _⟩ with
          configLoaded := true }) := by
    rw [specialFilesLoadConfig, hopen]
  constructor
  · intro h
    obtain ⟨loaded, hloaded, hentries, hlines⟩ := h ⟨[], false, Nat.zero_le _⟩
    rw [hload, Prod.mk.injEq, Option.some.injEq] at hloaded
    rw [← hloaded.2, entries_readEntries_pieces] at hentries
    rw [List.zip_of_prod hlines hentries]
    exact (List.zip_of_prod rfl rfl).symm
  · intro h config
    refine ⟨_, hload config, ?_, by rw [h]⟩
    rw [← h]
    exact entries_readEntries_pieces text

/-- The entries are those of the configuration exactly if no line that is read falls into pieces
that say something else. -/
theorem readsConfigured_iff {fopen : List Char → Option (List Char)} {path text : List Char}
    (hopen : fopen path = some text) :
    ReadsConfigured fopen path text ↔
      ∀ before line behind, textLines text = before ++ line :: behind →
        (before.filterMap configuredEntry).length < maxSpecialFiles → WholeLine line := by
  rw [readsConfigured_iff_numbered hopen, readLineEntries, configuredEntries, take_numbered_eq_iff]
  · simp only [wholeLine_iff, ← List.filterMap_eq_flatMap_toList]
  · intro l h
    refine lineEntries_of_head ?_
    rw [h]
    cases configuredEntry l <;> rfl

/-- A comment, a path, a blank line and another path. -/
def versionFile : List Char := "# special files\n/version.txt\n\n  /tmp/disk_cleanup.log \n".toList

theorem readsConfigured_versionFile :
    ReadsConfigured (fun _ => some versionFile) [] versionFile := by
  refine (readsConfigured_iff rfl).mpr fun before line behind hsplit _ => ?_
  have hline : line ∈ textLines versionFile := by
    rw [hsplit]
    exact List.mem_append_cons_self
  have hlines : ∀ line ∈ textLines versionFile, WholeLine line := by decide +kernel
  exact hlines line hline

/-- A comment whose end is taken for the path of a file that is moved away. -/
def longComment : List Char :=
  '#' :: (List.replicate 510 ' ' ++ "/tmp/disk_cleanup.log\n".toList)

theorem longComment_not_readsConfigured :
    ¬ ReadsConfigured (fun _ => some longComment) [] longComment := by
  intro h
  have hlines : (readLineEntries longComment).map Prod.fst = [] := by
    obtain ⟨-, -, -, hlines⟩ := h ⟨[], false, Nat.zero_le _⟩
    rw [hlines]
    decide +kernel
  revert hlines
  decide +kernel

end DcmAgent.Backup
