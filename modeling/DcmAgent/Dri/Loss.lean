import Mathlib.Tactic
import DcmAgent.Dri.Upload
import DcmAgent.Usb.Loss

/-!
# DRI logs that are kept

The directory is removed when one upload has succeeded. The walk has passed over the files that
could not be added, and whatever has appeared behind it is not in the archive.
-/

namespace DcmAgent.Dri

open Library.Ustar Archive Upload
open Usb (Inside Stores inside_iff)

variable {env : Env} {session : SessionState} {tree : Tree} {files : List LogFile} {f : LogFile}
  {a : ArchiveFile}

/-! ### What is promised -/

/-- Every file that was there is still there, or its content is in an archive that has been
uploaded. -/
def KeepsDri (env : Env) (session : SessionState) (tree : Tree) : Prop :=
  ∀ f ∈ regularFiles [] tree ++ env.arrivals,
    f ∈ (rebootUpload env session tree).2.2.1 ∨
      ∃ a ∈ (rebootUpload env session tree).2.2.2, Inside a f.content

/-! ### The condition -/

variable (env) (session) (tree)

def mainArchive : Bytes := env.prevLogPath ++ 47 :: session.archiveFile

def driArchive : Bytes := env.driLogPath ++ 47 :: archiveFilename env

/-- The main logs are uploaded, with success or without. -/
structure Starts : Prop where
  fits : (mainArchive env session).length < maxPathLength
  uploads : shouldUpload env = true

def mainUpload : ℤ × SessionState :=
  uploadArchive env.ctx env.mainOutcomes env.mainExists env.mainSize (mainArchive env session)
    session

/-- The DRI logs are to be uploaded. -/
structure Reaches : Prop extends Starts env session where
  includeDri : env.includeDri = true
  dirExists : env.dirExists = true
  path_ne : env.driLogPath ≠ []
  stillExists : env.stillExists = true

/-- The archive is created, and its path fits. -/
structure Creates : Prop extends Reaches env session where
  completes : (driRun env tree).CompletesAt
    (archivePath env.driLogPath (archiveFilename env)) env.driLogPath
  short : (driArchive env).length < maxPathLength

/-- The upload ends in success. -/
structure Succeeds : Prop extends Creates env session tree where
  driExists : env.driExists = true
  driSize : 0 < env.driSize
  cycle : (executeUploadCycle env.ctx env.driOutcomes
    { (mainUpload env session).2.toSessionState with
      directAttempts := 0, codebigAttempts := 0 }).1 = true

/-- The files and links of the walk. -/
def visits : List Visit :=
  (driRun env tree).entries.visits env.driLogPath
    (archivePath env.driLogPath (archiveFilename env)) env.driLogPath

/-- The ways in which a file is kept. -/
inductive Safe (f : LogFile) : Prop
  | stays (mem : f ∈ regularFiles [] tree)
      (whole : Reaches env session → opensArchive env = true →
        filePath env f ≠ archivePath env.driLogPath (archiveFilename env))
      (left : Succeeds env session tree → env.removes f.path = false)
  | arrives (mem : f ∈ env.arrivals)
      (besides : Creates env session tree → filePath env f = driArchive env →
        env.removesArchive = false)
      (left : Succeeds env session tree → env.removes f.path = false)
  | archived {arcname : Bytes} {run : FileRun} (succeeds : Succeeds env session tree)
      (whole : (driArchive env).length < maxFilenameLength)
      (visited : .file arcname run ∈ visits env tree) (stores : Stores run f.content)
  | besides {a : ArchiveFile} (succeeds : Succeeds env session tree)
      (cut : maxFilenameLength ≤ (driArchive env).length)
      (found : env.archiveAt ((driArchive env).take (maxFilenameLength - 1)) = some a)
      (inside : Inside a f.content)
  | main {a : ArchiveFile} (starts : Starts env session)
      (succeeds : (mainUpload env session).1 = 0)
      (found : env.archiveAt (mainUpload env session).2.archiveFile = some a)
      (inside : Inside a f.content)

variable {env} {session} {tree}

/-! ### The parts -/

lemma mem_removeDirectory :
    f ∈ removeDirectory env files ↔ f ∈ files ∧ env.removes f.path = false := by
  simp [removeDirectory]

lemma mem_removeFile {path : Bytes} :
    f ∈ removeFile env path files ↔
      f ∈ files ∧ (filePath env f = path → env.removesArchive = false) := by
  rw [removeFile, List.mem_filter, decide_eq_true_iff, not_and, Bool.not_eq_true]

lemma mem_besidesArchive :
    f ∈ besidesArchive env files ↔
      f ∈ files ∧ (opensArchive env = true →
        filePath env f ≠ archivePath env.driLogPath (archiveFilename env)) := by
  rw [besidesArchive, List.mem_filter, decide_eq_true_iff, not_and]

lemma uploadArchive_eq_zero {ctx : Upload.RuntimeContext} {outcomes : ℕ → Outcome}
    {fileExists : Bool} {fileSize : ℤ} {path : Bytes} :
    (uploadArchive ctx outcomes fileExists fileSize path session).1 = 0 ↔
      fileExists = true ∧ 0 < fileSize ∧
        (executeUploadCycle ctx outcomes session.toSessionState).1 = true := by
  rw [uploadArchive]
  by_cases hexists : ¬fileExists
  · rw [if_pos hexists]
    exact iff_of_false (by simp) fun h => hexists h.1
  rw [if_neg hexists]
  by_cases hsize : fileSize ≤ 0
  · rw [if_pos hsize]
    exact iff_of_false (by simp) fun h => hsize.not_gt h.2.1
  rw [if_neg hsize]
  cases hcycle : (executeUploadCycle ctx outcomes session.toSessionState).1 <;>
    simp [hcycle, not_not.mp hexists, not_le.mp hsize]

/-- The session leads to the archive as far as its path fits. -/
lemma archiveFile_uploadArchive {ctx : Upload.RuntimeContext} {outcomes : ℕ → Outcome}
    {fileExists : Bool} {fileSize : ℤ} {path : Bytes}
    (h : (uploadArchive ctx outcomes fileExists fileSize path session).1 = 0) :
    (uploadArchive ctx outcomes fileExists fileSize path session).2.archiveFile =
      path.take (maxFilenameLength - 1) := by
  obtain ⟨hexists, hsize, -⟩ := uploadArchive_eq_zero.mp h
  rw [uploadArchive, if_neg (not_not.mpr hexists), if_neg (not_le.mpr hsize)]

lemma take_archiveFilename : (archiveFilename env).take (maxFilenameLength - 1) =
    archiveFilename env := by
  rw [archiveFilename, ArchiveRun.filename, generateArchiveNameAt, List.take_take, min_self]

lemma createDriArchive_of_completes (hpath : env.driLogPath ≠ []) (hexists : env.stillExists = true)
    (h : (driRun env tree).CompletesAt
      (archivePath env.driLogPath (archiveFilename env)) env.driLogPath) :
    createDriArchive env session tree =
      (0, { session with archiveFile := archiveFilename env },
        some ⟨(visits env tree).map Visit.record, endBlocks⟩,
        besidesArchive env (regularFiles [] tree)) := by
  have hat : (driRun env tree).CompletesAt (archivePath ((some env.driLogPath).getD env.driLogPath)
      ((driRun env tree).filename ⟨env.macAddress⟩ driPrefix)) env.driLogPath := h
  have hrun := createArchiveWithOptions_of_completes ⟨env.macAddress⟩ ⟨session.archiveFile⟩
    env.driLogPath (some env.driLogPath) driPrefix hat
  have hname : (driRun env tree).filename ⟨env.macAddress⟩ driPrefix = archiveFilename env := rfl
  rw [hname, take_archiveFilename] at hrun
  rw [createDriArchive, if_neg hpath, if_neg (not_not.mpr hexists), hrun]
  rfl

lemma createDriArchive_of_not_completes (hpath : env.driLogPath ≠ [])
    (hexists : env.stillExists = true)
    (h : ¬(driRun env tree).CompletesAt
      (archivePath env.driLogPath (archiveFilename env)) env.driLogPath) :
    ∃ session' archive, createDriArchive env session tree =
      (-1, session', archive, besidesArchive env (regularFiles [] tree)) := by
  have hat : ¬(driRun env tree).CompletesAt (archivePath ((some env.driLogPath).getD env.driLogPath)
      ((driRun env tree).filename ⟨env.macAddress⟩ driPrefix)) env.driLogPath := h
  obtain ⟨archive, hrun, -⟩ := createArchiveWithOptions_of_not_completes ⟨env.macAddress⟩
    ⟨session.archiveFile⟩ env.driLogPath (some env.driLogPath) driPrefix hat
  refine ⟨session, archive, ?_⟩
  rw [createDriArchive, if_neg hpath, if_neg (not_not.mpr hexists), hrun]

/-! ### The DRI part -/

/-- What the DRI part leaves and uploads. -/
lemma mem_uploadDri (hreach : Reaches env session) :
    (f ∈ (uploadDri env (mainUpload env session).2 tree).1 ↔
        (f ∈ besidesArchive env (regularFiles [] tree) ∨ f ∈ env.arrivals) ∧
          (Creates env session tree → filePath env f = driArchive env →
            env.removesArchive = false) ∧
          (Succeeds env session tree → env.removes f.path = false)) ∧
      ∀ a, a ∈ (uploadDri env (mainUpload env session).2 tree).2 ↔
        Succeeds env session tree ∧
          (if (driArchive env).length < maxFilenameLength then
            a = ⟨(visits env tree).map Visit.record, endBlocks⟩
          else env.archiveAt ((driArchive env).take (maxFilenameLength - 1)) = some a) := by
  have hnever (h : ¬Creates env session tree) : ¬Succeeds env session tree :=
    fun hsucceeds => h hsucceeds.toCreates
  rw [uploadDri]
  by_cases hcompletes : (driRun env tree).CompletesAt
      (archivePath env.driLogPath (archiveFilename env)) env.driLogPath
  swap
  · have hcreates : ¬Creates env session tree := fun h => hcompletes h.completes
    obtain ⟨s, archive, hrun⟩ := createDriArchive_of_not_completes
      hreach.path_ne hreach.stillExists hcompletes
    rw [hrun]
    simp [hcreates, hnever hcreates]
  rw [createDriArchive_of_completes hreach.path_ne hreach.stillExists hcompletes]
  dsimp only
  have hpath : env.driLogPath ++ 47 :: archiveFilename env = driArchive env := rfl
  rw [if_neg (by simp), hpath]
  by_cases hlong : maxPathLength ≤ (driArchive env).length
  · have hcreates : ¬Creates env session tree := fun h => hlong.not_gt h.short
    rw [if_pos hlong]
    simp [hcreates, hnever hcreates]
  have hcreates : Creates env session tree := ⟨hreach, hcompletes, not_le.mp hlong⟩
  rw [if_neg hlong]
  generalize hrun :
    uploadArchive env.ctx env.driOutcomes env.driExists env.driSize (driArchive env) _ = run
  have hsucceeds : run.1 = 0 ↔ Succeeds env session tree := by
    rw [← hrun, uploadArchive_eq_zero]
    exact ⟨fun h => ⟨hcreates, h.1, h.2.1, h.2.2⟩, fun h => ⟨h.driExists, h.driSize, h.cycle⟩⟩
  by_cases hret : run.1 = 0
  · have hfile : run.2.archiveFile = (driArchive env).take (maxFilenameLength - 1) := by
      rw [← hrun] at hret ⊢
      exact archiveFile_uploadArchive hret
    have hwhole : run.2.archiveFile = driArchive env ↔
        (driArchive env).length < maxFilenameLength := by
      rw [hfile, List.take_eq_self_iff]
      exact Nat.le_sub_one_iff_lt (by decide)
    rw [if_pos hret]
    have hdone := hsucceeds.mp hret
    constructor
    · rw [mem_removeFile, mem_removeDirectory, List.mem_append]
      simp [hcreates, hdone]
      tauto
    · intro a
      simp only [hwhole, hdone, true_and, Option.mem_toList]
      split_ifs
      · simp [eq_comm]
      · rw [hfile]
  · have hdone : ¬Succeeds env session tree := fun h => hret (hsucceeds.mpr h)
    rw [if_neg hret]
    constructor
    · rw [mem_removeFile, List.mem_append]
      simp [hcreates, hdone]
    · simp [hdone]

/-- Without a directory there is no DRI upload. -/
lemma uploadDri_of_missing (h : env.driLogPath = [] ∨ env.stillExists = false) :
    uploadDri env session tree = (regularFiles [] tree ++ env.arrivals, []) := by
  rw [uploadDri, createDriArchive]
  by_cases hpath : env.driLogPath = []
  · rw [if_pos hpath]
    rfl
  · rw [if_neg hpath, if_pos (by simp [h.resolve_left hpath])]
    rfl

lemma Creates.opensArchive (h : Creates env session tree) : opensArchive env = true := by
  have htime := Option.isSome_iff_ne_none.mpr h.completes.timestamp
  exact decide_eq_true ⟨h.completes.dirExists, htime, h.completes.gzopen⟩

/-- The path of the archive is not cut. -/
lemma Creates.archivePath_eq (h : Creates env session tree) :
    archivePath env.driLogPath (archiveFilename env) = driArchive env :=
  List.take_of_length_le (Nat.le_sub_one_of_lt h.short)

/-! ### The upload phase -/

lemma rebootUpload_of_not_starts (h : ¬Starts env session) :
    (rebootUpload env session tree).2.2 = (regularFiles [] tree ++ env.arrivals, []) := by
  rw [rebootUpload]
  by_cases hfits : maxPathLength ≤ (env.prevLogPath ++ 47 :: session.archiveFile).length
  · rw [if_pos hfits]
  · rw [if_neg hfits, if_pos fun huploads => h ⟨not_le.mp hfits, huploads⟩]

lemma rebootUpload_of_starts (h : Starts env session) :
    (rebootUpload env session tree).2.2 =
      let uploaded := if (mainUpload env session).1 = 0 then
        (env.archiveAt (mainUpload env session).2.archiveFile).toList else []
      if env.includeDri ∧ env.dirExists then
        ((uploadDri env (mainUpload env session).2 tree).1,
          uploaded ++ (uploadDri env (mainUpload env session).2 tree).2)
      else (regularFiles [] tree ++ env.arrivals, uploaded) := by
  have hfits : ¬maxPathLength ≤ (env.prevLogPath ++ 47 :: session.archiveFile).length :=
    not_le.mpr h.fits
  rw [rebootUpload, if_neg hfits, if_neg (not_not.mpr h.uploads)]
  dsimp only
  by_cases hdri : env.includeDri = true ∧ env.dirExists = true
  · rw [if_pos hdri, if_pos hdri]
    rfl
  · rw [if_neg hdri, if_neg hdri]
    rfl

/-- Where the DRI logs are not uploaded, only the main archive can be. -/
lemma rebootUpload_of_not_reaches (h : ¬Reaches env session) :
    (rebootUpload env session tree).2.2.1 = regularFiles [] tree ++ env.arrivals ∧
      ∀ a, a ∈ (rebootUpload env session tree).2.2.2 ↔
        Starts env session ∧ (mainUpload env session).1 = 0 ∧
          env.archiveAt (mainUpload env session).2.archiveFile = some a := by
  by_cases hstarts : Starts env session
  swap
  · rw [rebootUpload_of_not_starts hstarts]
    simp [hstarts]
  rw [rebootUpload_of_starts hstarts]
  by_cases hdri : env.includeDri = true ∧ env.dirExists = true
  · have hmissing : env.driLogPath = [] ∨ env.stillExists = false := by
      by_contra hno
      push Not at hno
      exact h ⟨hstarts, hdri.1, hdri.2, hno.1, by simpa using hno.2⟩
    dsimp only
    rw [if_pos hdri, uploadDri_of_missing hmissing]
    simp [hstarts]
  · dsimp only
    rw [if_neg hdri]
    simp [hstarts]

lemma mem_rebootUpload_files :
    f ∈ (rebootUpload env session tree).2.2.1 ↔
      (f ∈ regularFiles [] tree ∧ (Reaches env session → opensArchive env = true →
          filePath env f ≠ archivePath env.driLogPath (archiveFilename env)) ∨
        f ∈ env.arrivals) ∧
      (Creates env session tree → filePath env f = driArchive env → env.removesArchive = false) ∧
      (Succeeds env session tree → env.removes f.path = false) := by
  by_cases hreach : Reaches env session
  · rw [rebootUpload_of_starts hreach.toStarts]
    dsimp only
    rw [if_pos ⟨hreach.includeDri, hreach.dirExists⟩, (mem_uploadDri hreach).1]
    simp [mem_besidesArchive, hreach]
  · have hcreates : ¬Creates env session tree := fun h => hreach h.toReaches
    have hsucceeds : ¬Succeeds env session tree := fun h => hreach h.toReaches
    rw [(rebootUpload_of_not_reaches hreach).1]
    simp [hreach, hcreates, hsucceeds]

lemma mem_rebootUpload_uploaded :
    a ∈ (rebootUpload env session tree).2.2.2 ↔
      (Starts env session ∧ (mainUpload env session).1 = 0 ∧
        env.archiveAt (mainUpload env session).2.archiveFile = some a) ∨
      (Succeeds env session tree ∧
        (if (driArchive env).length < maxFilenameLength then
            a = ⟨(visits env tree).map Visit.record, endBlocks⟩
          else env.archiveAt ((driArchive env).take (maxFilenameLength - 1)) = some a)) := by
  by_cases hreach : Reaches env session
  · rw [rebootUpload_of_starts hreach.toStarts]
    dsimp only
    rw [if_pos ⟨hreach.includeDri, hreach.dirExists⟩, List.mem_append,
      (mem_uploadDri (f := ⟨[], []⟩) hreach).2]
    refine or_congr_left ?_
    split_ifs with hret <;> simp [hret, hreach.toStarts]
  · have hsucceeds : ¬Succeeds env session tree := fun h => hreach h.toReaches
    rw [(rebootUpload_of_not_reaches hreach).2]
    simp [hsucceeds]

lemma kept_iff :
    (f ∈ (rebootUpload env session tree).2.2.1 ∨
        ∃ a ∈ (rebootUpload env session tree).2.2.2, Inside a f.content) ↔
      Safe env session tree f := by
  simp only [mem_rebootUpload_files, mem_rebootUpload_uploaded]
  constructor
  · rintro (⟨⟨hmem, hwhole⟩ | hmem, hbesides, hleft⟩ | ⟨a, ⟨hstarts, hret, hfound⟩ | ⟨hdone, ha⟩,
      hinside⟩)
    · exact .stays hmem hwhole hleft
    · exact .arrives hmem hbesides hleft
    · exact .main hstarts hret hfound hinside
    · by_cases hwhole : (driArchive env).length < maxFilenameLength
      · rw [if_pos hwhole] at ha
        subst ha
        obtain ⟨arcname, run, hvisited, hstores⟩ := inside_iff.mp hinside
        exact .archived hdone hwhole hvisited hstores
      · rw [if_neg hwhole] at ha
        exact .besides hdone (not_lt.mp hwhole) ha hinside
  · intro hsafe
    cases hsafe with
    | stays mem whole left =>
      refine Or.inl ⟨Or.inl ⟨mem, whole⟩, fun hcreates hpath => ?_, left⟩
      exact absurd (hpath.trans hcreates.archivePath_eq.symm)
        (whole hcreates.toReaches hcreates.opensArchive)
    | arrives mem besides left => exact Or.inl ⟨Or.inr mem, besides, left⟩
    | archived succeeds whole visited stores =>
      exact Or.inr ⟨_, Or.inr ⟨succeeds, by rw [if_pos whole]⟩, inside_iff.mpr
        ⟨_, _, visited, stores⟩⟩
    | besides succeeds cut found inside =>
      exact Or.inr ⟨_, Or.inr ⟨succeeds, by rwa [if_neg cut.not_gt]⟩, inside⟩
    | main starts succeeds found inside =>
      exact Or.inr ⟨_, Or.inl ⟨starts, succeeds, found⟩, inside⟩

def oneName : FileName where
  bytes := [97]
  nonzero := by decide
  nonempty := by decide
  slash := by decide
  not_dot := by decide

def oneLog : Tree := .file oneName 0o644 0 [65] .nil

def unreadable : FileRun where
  opened := false
  fstat := none
  header := .full
  fdopen := true
  reads := []
  pad := .full

/-- The main archive is not there, and the log cannot be opened; nothing else fails. -/
def openFails : Env where
  ctx := ⟨1, 1⟩
  macAddress := [65]
  dcmFlag := 0
  uploadOnReboot := true
  isScheduledReboot := false
  disableUnscheduledUpload := false
  prevLogPath := [47, 112]
  mainExists := false
  mainSize := 0
  mainOutcomes _ := ⟨.failed, 0, 0⟩
  includeDri := true
  driLogPath := [47, 100]
  dirExists := true
  stillExists := true
  walk := ⟨fun _ => true, fun _ => unreadable, fun _ => true, fun _ => .full, fun _ => true,
    fun _ => .done⟩
  archive := ⟨true, some [48], true, true, .done, .full, true, true, true⟩
  driExists := true
  driSize := 1
  driOutcomes _ := ⟨.success, 200, 0⟩
  arrivals := []
  archiveAt _ := none
  removes _ := true
  removesArchive := true

def directSession : SessionState := ⟨⟨.direct, .none, 0, 0, 0, 0, false, false⟩, []⟩

/-- A first attempt that succeeds ends the cycle. -/
lemma executeUploadCycle_of_success {ctx : Upload.RuntimeContext} {outcomes : ℕ → Outcome}
    {s : Upload.SessionState} (hpath : s.primary ≠ .none) (h : (outcomes 0).result = .success) :
    (executeUploadCycle ctx outcomes s).1 = true := by
  rw [executeUploadCycle, attemptUpload, retryUpload, singleAttemptUpload_eq outcomes _ hpath]
  simp [h]

lemma succeeds_openFails : Succeeds openFails directSession oneLog where
  fits := by decide +kernel
  uploads := by decide
  includeDri := rfl
  dirExists := rfl
  path_ne := by decide
  stillExists := rfl
  completes := ⟨rfl, Option.some_ne_none _, rfl, rfl, trivial, rfl, rfl, rfl⟩
  short := by decide +kernel
  driExists := rfl
  driSize := by decide
  cycle := by
    rw [mainUpload, uploadArchive, if_pos (by decide)]
    exact executeUploadCycle_of_success (by decide) rfl

/-- No path is cut, and none is that of the archive. -/
def Clear (sourceDir archive : Bytes) (names : List FileName) : Tree → Prop
  | .nil => True
  | .file name _ _ _ rest =>
    ((sourceDir ++ pathOf (names ++ [name])).length < maxPathLength ∧
      sourceDir ++ pathOf (names ++ [name]) ≠ archive) ∧ Clear sourceDir archive names rest
  | .link _ _ _ _ rest => Clear sourceDir archive names rest
  | .directory name entries rest =>
    ((sourceDir ++ pathOf (names ++ [name])).length < maxPathLength ∧
      sourceDir ++ pathOf (names ++ [name]) ≠ archive) ∧
      Clear sourceDir archive (names ++ [name]) entries ∧ Clear sourceDir archive names rest

lemma path_ne_of_clear {sourceDir archive : Bytes} {names : List FileName}
    (hclear : Clear sourceDir archive names tree) (hf : f ∈ regularFiles names tree) :
    sourceDir ++ pathOf f.path ≠ archive := by
  induction tree generalizing names with
  | nil => cases hf
  | file name mode mtime content rest ih =>
    rcases List.mem_cons.mp hf with rfl | hf
    · exact hclear.1.2
    · exact ih hclear.2 hf
  | link name mode mtime target rest ih => exact ih hclear hf
  | directory name entries rest ihEntries ihRest =>
    rcases List.mem_append.mp hf with hf | hf
    · exact ihEntries hclear.2.1 hf
    · exact ihRest hclear.2.2 hf

/-- A walk that finds every entry comes to every file. -/
lemma mem_visits_found {sourceDir archive : Bytes} {walk : Walk} {names : List FileName}
    (hclear : Clear sourceDir archive names tree) (hfinds : ∀ names, walk.finds names = true)
    (hf : f ∈ regularFiles names tree) :
    ∃ arcname, Visit.file arcname (walk.adds f.path) ∈
      (found sourceDir walk names tree).visits sourceDir archive (sourceDir ++ pathOf names) := by
  induction tree generalizing names with
  | nil => cases hf
  | file name mode mtime content rest ih =>
    have hskip : ¬Skipped archive (sourceDir ++ pathOf names) name.bytes := fun h =>
      hclear.1.2 ((skipped_iff hclear.1.1).mp h)
    rw [found, if_pos (hfinds _), Listing.visits, if_neg hskip]
    rcases List.mem_cons.mp hf with rfl | hf
    · exact ⟨_, List.mem_cons_self⟩
    · obtain ⟨arcname, hmem⟩ := ih hclear.2 hf
      exact ⟨arcname, List.mem_cons_of_mem _ hmem⟩
  | link name mode mtime target rest ih =>
    obtain ⟨arcname, hmem⟩ := ih hclear hf
    refine ⟨arcname, ?_⟩
    rw [found, if_pos (hfinds _), Listing.visits]
    split_ifs
    · exact hmem
    · exact List.mem_append_right _ hmem
    · exact List.mem_append_right _ hmem
  | directory name entries rest ihEntries ihRest =>
    have hskip : ¬Skipped archive (sourceDir ++ pathOf names) name.bytes := fun h =>
      hclear.1.2 ((skipped_iff hclear.1.1).mp h)
    rw [found, if_pos (hfinds _), if_pos hclear.1.1, Listing.visits, if_neg hskip,
      fullpath_of_lt hclear.1.1]
    rcases List.mem_append.mp hf with hf | hf
    · obtain ⟨arcname, hmem⟩ := ihEntries hclear.2.1 hf
      exact ⟨arcname, List.mem_append_left _ hmem⟩
    · obtain ⟨arcname, hmem⟩ := ihRest hclear.2.2 hf
      exact ⟨arcname, List.mem_append_right _ hmem⟩

/-- The logs are kept when nothing appears behind the walk, and every file is found and added
whole. -/
theorem keepsDri_of_adds (harrivals : env.arrivals = [])
    (hclear : Clear env.driLogPath (archivePath env.driLogPath (archiveFilename env)) [] tree)
    (hfinds : ∀ names, env.walk.finds names = true)
    (hadds : ∀ f ∈ regularFiles [] tree, Stores (env.walk.adds f.path) f.content)
    (hshort : (driArchive env).length < maxFilenameLength) : KeepsDri env session tree := by
  intro f hf
  rw [harrivals, List.append_nil] at hf
  rw [kept_iff]
  have hne := path_ne_of_clear hclear hf
  by_cases hsucceeds : Succeeds env session tree
  · obtain ⟨arcname, hmem⟩ := mem_visits_found hclear hfinds hf
    rw [pathOf, List.flatMap_nil, List.append_nil] at hmem
    exact .archived hsucceeds hshort hmem (hadds f hf)
  · exact .stays hf (fun _ _ => hne) fun h => absurd h hsucceeds

end DcmAgent.Dri
