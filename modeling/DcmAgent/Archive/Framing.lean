import Mathlib.Tactic
import DcmAgent.Archive.Walk

/-!
# The archive under faults

The size in a header is the one of `fstat`, and the bytes behind it are those that were read and
written later. An archive that is reported as complete can be read when the two agree for every
file, and a failed one leaves nothing behind.
-/

namespace DcmAgent.Archive

open Library.Ustar

variable {ctx : RuntimeContext} {session : SessionState} {sourceDir : Bytes} {run : ArchiveRun}

/-- The archive consists of framed records, and the two end blocks are there. -/
def ArchiveFile.WellFramed (a : ArchiveFile) : Prop :=
  (∀ r ∈ a.records, r.Framed) ∧ a.eofBlocks = endBlocks

lemma ArchiveFile.WellFramed.readTar {a : ArchiveFile} (h : a.WellFramed) :
    readTar a.bytes = some (a.records.filterMap Record.entry) := by
  rw [ArchiveFile.bytes, h.2]
  exact readTar_records h.1

/-- No call fails that the creation of an archive at the path reports. -/
structure ArchiveRun.CompletesAt (archive sourceDir : Bytes) (run : ArchiveRun) : Prop where
  dirExists : run.dirExists = true
  timestamp : run.timestamp ≠ none
  gzopen : run.gzopen = true
  opened : run.opened = true
  opens : run.entries.Opens archive sourceDir
  eof : run.eof = .full
  gzclose : run.gzclose = true
  fileExists : run.fileExists = true

section Options

variable (ctx) (session) (sourceDir) (outputDir : Option Bytes) (namePrefix : Bytes)

/-- The name of the archive that a run creates. -/
def ArchiveRun.filename (run : ArchiveRun) : Bytes :=
  generateArchiveNameAt ctx.macAddress namePrefix (run.timestamp.getD [])

lemma createArchiveWithOptions_of_completes
    (h : run.CompletesAt (archivePath (outputDir.getD sourceDir) (run.filename ctx namePrefix))
      sourceDir) :
    createArchiveWithOptions ctx session sourceDir outputDir namePrefix run =
      (0,
        { session with archiveFile := (run.filename ctx namePrefix).take (maxFilenameLength - 1) },
        some ⟨(run.entries.visits sourceDir (archivePath (outputDir.getD sourceDir)
          (run.filename ctx namePrefix)) sourceDir).map Visit.record, endBlocks⟩) := by
  obtain ⟨timestamp, hts⟩ := Option.ne_none_iff_exists'.mp h.timestamp
  have hname : run.filename ctx namePrefix =
      generateArchiveNameAt ctx.macAddress namePrefix timestamp := by
    rw [ArchiveRun.filename, hts]
    rfl
  have hwalk := @addEntries_of_opens _ sourceDir _ _ h.opens
  rw [hname] at hwalk ⊢
  simp only [createArchiveWithOptions, h.dirExists, hts, h.gzopen, h.eof, h.gzclose, h.fileExists,
    addDirectoryToTar, h.opened, gzwrite, not_true, if_false, hwalk, if_true, ne_eq]

/-- Whatever fails, the session keeps its archive. -/
lemma createArchiveWithOptions_of_not_completes
    (h : ¬run.CompletesAt (archivePath (outputDir.getD sourceDir) (run.filename ctx namePrefix))
      sourceDir) :
    ∃ archive, createArchiveWithOptions ctx session sourceDir outputDir namePrefix run =
        (-1, session, archive) ∧
      (run.removeFile = true → archive = none) := by
  unfold createArchiveWithOptions
  by_cases hdir : run.dirExists = true
  swap
  · exact ⟨none, if_pos hdir, fun _ => rfl⟩
  rw [if_neg (not_not.mpr hdir)]
  cases hts : run.timestamp with
  | none => exact ⟨none, rfl, fun _ => rfl⟩
  | some timestamp =>
    have hname : generateArchiveNameAt ctx.macAddress namePrefix timestamp =
        run.filename ctx namePrefix := by
      rw [ArchiveRun.filename, hts]
      rfl
    simp only [hname]
    by_cases hgz : run.gzopen = true
    swap
    · exact ⟨none, if_pos hgz, fun _ => rfl⟩
    rw [if_neg (not_not.mpr hgz)]
    generalize hwalk : addDirectoryToTar sourceDir (archivePath (outputDir.getD sourceDir)
      (run.filename ctx namePrefix)) sourceDir run.opened run.entries = walk
    obtain ⟨ret, records⟩ := walk
    by_cases hret : ret = 0 ∧ run.eof = .full ∧ run.gzclose = true
    · obtain ⟨rfl, heof, hclose⟩ := hret
      have hexists : ¬run.fileExists = true := by
        intro hexists
        unfold addDirectoryToTar at hwalk
        by_cases hopened : run.opened = true
        · rw [if_neg (not_not.mpr hopened)] at hwalk
          have hopens := opens_of_addEntries (congrArg Prod.fst hwalk)
          exact h ⟨hdir, hts ▸ Option.some_ne_none _, hgz, hopened, hopens, heof, hclose, hexists⟩
        · rw [if_pos hopened] at hwalk
          cases hwalk
      refine ⟨none, ?_, fun _ => rfl⟩
      simp [gzwrite, heof, hclose, hexists]
    · refine ⟨if run.fileExists ∧ ¬run.removeFile then
        some ⟨records, (gzwrite run.eof endBlocks).2⟩ else none, ?_, ?_⟩
      · cases heof : run.eof with
        | failed k => cases hclose : run.gzclose <;> simp [gzwrite]
        | full =>
          cases hclose : run.gzclose with
          | false => simp [gzwrite]
          | true =>
            have hne : ret ≠ 0 := fun hzero => hret ⟨hzero, heof, hclose⟩
            simp [gzwrite, hne]
      · intro hremove
        simp [hremove]

end Options

/-- The path of the archive that a run creates. -/
def ArchiveRun.path (ctx : RuntimeContext) (sourceDir : Bytes) (run : ArchiveRun) : Bytes :=
  archivePath sourceDir
    (generateArchiveNameAt ctx.macAddress logsPrefix (run.timestamp.getD []))

/-- No call fails that `create_archive` reports. -/
abbrev ArchiveRun.Completes (ctx : RuntimeContext) (sourceDir : Bytes) (run : ArchiveRun) : Prop :=
  run.CompletesAt (run.path ctx sourceDir) sourceDir

/-- The files and links of the walk. -/
def ArchiveRun.visits (ctx : RuntimeContext) (sourceDir : Bytes) (run : ArchiveRun) : List Visit :=
  run.entries.visits sourceDir (run.path ctx sourceDir) sourceDir

variable (session) in
lemma createArchive_of_completes (h : run.Completes ctx sourceDir) :
    ∃ archiveFile, createArchive ctx session sourceDir run =
      (0, { session with archiveFile },
        some ⟨(run.visits ctx sourceDir).map Visit.record, endBlocks⟩) :=
  ⟨_, createArchiveWithOptions_of_completes ctx session sourceDir none logsPrefix h⟩

variable (session) in
lemma createArchive_of_not_completes (h : ¬run.Completes ctx sourceDir) :
    ∃ archive, createArchive ctx session sourceDir run = (-1, session, archive) ∧
      (run.removeFile = true → archive = none) :=
  createArchiveWithOptions_of_not_completes ctx session sourceDir none logsPrefix h

/-- An archive that is reported as complete can be read, and one that failed is gone. -/
structure Reported (ctx : RuntimeContext) (session : SessionState) (sourceDir : Bytes)
    (run : ArchiveRun) : Prop where
  complete : (createArchive ctx session sourceDir run).1 = 0 →
    ∃ a, (createArchive ctx session sourceDir run).2.2 = some a ∧ a.WellFramed ∧
      ∃ entries, readTar a.bytes = some entries
  failed : (createArchive ctx session sourceDir run).1 = -1 → run.removeFile = true →
    (createArchive ctx session sourceDir run).2.2 = none ∧
      (createArchive ctx session sourceDir run).2.1 = session

lemma wellFramed_iff {visits : List Visit} :
    ArchiveFile.WellFramed ⟨visits.map Visit.record, endBlocks⟩ ↔ ∀ v ∈ visits, v.Sound := by
  simp only [ArchiveFile.WellFramed, List.forall_mem_map, Visit.framed_record_iff, and_true]

/-- The result of `create_archive` is right exactly if every file of a walk without a reported error
has been read to the size in its header. -/
theorem reported_iff : Reported ctx session sourceDir run ↔
    (run.Completes ctx sourceDir → ∀ v ∈ run.visits ctx sourceDir, v.Sound) := by
  by_cases h : run.Completes ctx sourceDir
  · obtain ⟨archiveFile, hrun⟩ := createArchive_of_completes session h
    constructor
    · intro hreported _
      obtain ⟨a, ha, hframed, -⟩ := hreported.complete (by rw [hrun])
      rw [hrun] at ha
      obtain rfl := Option.some.inj ha
      exact wellFramed_iff.mp hframed
    · intro hsound
      have hframed := wellFramed_iff.mpr (hsound h)
      refine ⟨fun _ => ⟨_, by rw [hrun], hframed, _, hframed.readTar⟩, fun hret => ?_⟩
      rw [hrun] at hret
      cases hret
  · obtain ⟨archive, hrun, hremoved⟩ := createArchive_of_not_completes session h
    constructor
    · exact fun _ hcompletes => absurd hcompletes h
    · intro _
      refine ⟨fun hret => ?_, fun _ hremove => ?_⟩
      · rw [hrun] at hret
        cases hret
      · rw [hrun]
        exact ⟨hremoved hremove, rfl⟩

/-- A log file that is empty when `fstat` is called, and has one byte when it is read. -/
def growingFile : FileRun where
  opened := true
  fstat := some ⟨.regular, 0o644, 0, 0⟩
  header := .full
  fdopen := true
  reads := [([65], .full)]
  pad := .full

def growingRun : ArchiveRun where
  dirExists := true
  timestamp := some [48]
  gzopen := true
  opened := true
  entries := .file [97] growingFile .done
  eof := .full
  gzclose := true
  fileExists := true
  removeFile := true

/-- The archive is reported as complete, and no reader gets through it. -/
theorem growing_file_misframed :
    ¬Reported ⟨[65]⟩ ⟨[]⟩ [47, 108] growingRun ∧
      (createArchive ⟨[65]⟩ ⟨[]⟩ [47, 108] growingRun).1 = 0 ∧
      (createArchive ⟨[65]⟩ ⟨[]⟩ [47, 108] growingRun).2.2.map (fun a => readTar a.bytes) =
        some none := by
  have hret : (createArchive ⟨[65]⟩ ⟨[]⟩ [47, 108] growingRun).1 = 0 := by decide +kernel
  have hread : (createArchive ⟨[65]⟩ ⟨[]⟩ [47, 108] growingRun).2.2.map
      (fun a => readTar a.bytes) = some none := by decide +kernel
  refine ⟨fun h => ?_, hret, hread⟩
  obtain ⟨a, ha, -, entries, hentries⟩ := h.complete hret
  rw [ha, Option.map_some, hentries] at hread
  cases hread

end DcmAgent.Archive
