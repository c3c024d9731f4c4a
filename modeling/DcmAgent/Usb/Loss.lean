import Mathlib.Tactic
import DcmAgent.Archive.Tree
import DcmAgent.Usb.Upload

/-!
# Logs that an upload to a USB drive keeps

The temporary directory is removed whether or not its files are in the archive, so a file that has
been moved is kept only where the cleanup leaves it or the archive on the drive has its content.
-/

namespace DcmAgent.Usb

open Library.Ustar Archive

variable {env : Env} {logPath tempDir files : List LogFile} {f g : LogFile} {c : Bytes}

/-! ### What is promised -/

/-- The archive has a regular file with this content. -/
def Inside (a : ArchiveFile) (c : Bytes) : Prop :=
  ∃ r ∈ a.records, ∃ h size, readHeader r.header = some (h, size) ∧ h.typeflag = regularType ∧
    size = c.length ∧ c <+: r.body

/-- The content is in `LOG_PATH`, in the temporary directory or in the archive on the drive. -/
def Present (o : Outcome) (c : Bytes) : Prop :=
  (∃ f ∈ o.logPath, f.content = c) ∨ (∃ f ∈ o.tempDir, f.content = c) ∨
    ∃ a, o.usb = some a ∧ Inside a c

/-- No content of `LOG_PATH` is lost. -/
def KeepsLogs (env : Env) (logPath : Directory) (tempDir : List LogFile) : Prop :=
  ∀ f ∈ logPath.files, Present (usbLogUploadExecute env logPath.files tempDir).2 f.content

/-! ### The condition -/

/-- The upload comes to `move_log_files`, and `LOG_PATH` can be read. -/
structure Starts (env : Env) (macAddress timestamp : Bytes) : Prop where
  mounted : env.validateUsbMountPoint = 0
  logDirectory : env.createUsbLogDirectory = 0
  mac : env.macAddress = some macAddress
  time : env.timestamp = some timestamp
  mac_ne : macAddress ≠ []
  tempDirectory : env.createTemporaryDirectory = 0
  opendir : env.opendir = true

def Moved (env : Env) (f : LogFile) : Prop := env.opens f.name = true ∧ env.renames f.name = true

/-- The file is in the temporary directory when the archive is created. -/
def Staged (env : Env) (logPath tempDir : List LogFile) (f : LogFile) : Prop :=
  f ∈ logPath ∧ Moved env f ∨ f ∈ tempDir ∧ ∀ g ∈ logPath, Moved env g → g.name ≠ f.name

/-- The header arrives whole and declares the size of the content, and the blocks behind it begin
with the content. -/
def Stores (run : FileRun) (c : Bytes) : Prop :=
  ∃ st, run.Entered st ∧ run.header.landed blockSize = blockSize ∧ declaredSize st = c.length ∧
    c <+: run.body

/-- The archive is created and copied whole. -/
structure Arrives (env : Env) (sourceDir macAddress : Bytes) : Prop where
  stat : env.stat = true
  completes : env.archive.Completes ⟨macAddress⟩ sourceDir
  copied : env.copy = ⟨true, true, true, true⟩

/-- The directory that is archived. -/
def sourceDir (macAddress timestamp : Bytes) : Bytes :=
  temporaryDirectory (generateArchiveNameAt macAddress logsPrefix timestamp)

/-- The ways in which a content is kept. -/
inductive Safe (env : Env) (macAddress timestamp : Bytes) (logPath tempDir : List LogFile)
    (c : Bytes) : Prop
  | stays {f : LogFile} (mem : f ∈ logPath) (moved : ¬Moved env f) (content : f.content = c)
  | remains {f : LogFile} (staged : Staged env logPath tempDir f)
      (left : env.removes f.name = false)
      (name : env.stat = true → some f.name ≠ openedArchive env macAddress)
      (content : f.content = c)
  | archived {f : LogFile} {run : FileRun}
      (arrives : Arrives env (sourceDir macAddress timestamp) macAddress)
      (staged : Staged env logPath tempDir f)
      (name : some f.name ≠ openedArchive env macAddress)
      (visited : ¬Skipped (env.archive.path ⟨macAddress⟩ (sourceDir macAddress timestamp))
        (sourceDir macAddress timestamp) f.name)
      (added : env.adds f = some run) (stores : Stores run c)
  | besides {arcname : Bytes} {run : FileRun}
      (arrives : Arrives env (sourceDir macAddress timestamp) macAddress)
      (visited : .file arcname run ∈ env.archive.visits ⟨macAddress⟩
        (sourceDir macAddress timestamp))
      (stores : Stores run c)

/-! ### Moving -/

lemma mem_place {tempDir : List LogFile} :
    g ∈ place tempDir f ↔ g = f ∨ g ∈ tempDir ∧ g.name ≠ f.name := by
  simp [place, or_comm]

lemma mem_moveEntries_logPath :
    f ∈ (moveEntries env files tempDir).1 ↔ f ∈ files ∧ ¬Moved env f := by
  induction files generalizing tempDir with
  | nil => simp [moveEntries]
  | cons g files ih =>
    rw [moveEntries, Moved]
    split_ifs with hopens hrenames <;> simp only [List.mem_cons, ih, Moved]
    · constructor
      · exact fun h => ⟨Or.inr h.1, h.2⟩
      · rintro ⟨rfl | hmem, hmoved⟩
        · exact absurd ⟨hopens, hrenames⟩ hmoved
        · exact ⟨hmem, hmoved⟩
    · constructor
      · rintro (rfl | h)
        · exact ⟨Or.inl rfl, fun h => hrenames h.2⟩
        · exact ⟨Or.inr h.1, h.2⟩
      · rintro ⟨rfl | hmem, hmoved⟩
        · exact Or.inl rfl
        · exact Or.inr ⟨hmem, hmoved⟩
    · constructor
      · rintro (rfl | h)
        · exact ⟨Or.inl rfl, fun h => hopens h.1⟩
        · exact ⟨Or.inr h.1, h.2⟩
      · rintro ⟨rfl | hmem, hmoved⟩
        · exact Or.inl rfl
        · exact Or.inr ⟨hmem, hmoved⟩

/-- The temporary directory after the move: a file that was there may have been replaced. -/
lemma mem_moveEntries_tempDir (hnodup : (files.map LogFile.name).Nodup) :
    f ∈ (moveEntries env files tempDir).2 ↔ Staged env files tempDir f := by
  induction files generalizing tempDir with
  | nil => simp [moveEntries, Staged]
  | cons g files ih =>
    rw [List.map_cons, List.nodup_cons] at hnodup
    obtain ⟨hnew, hnodup⟩ := hnodup
    by_cases hmoved : Moved env g
    · have hstep :
          moveEntries env (g :: files) tempDir = moveEntries env files (place tempDir g) := by
        rw [moveEntries, if_pos hmoved.1, if_pos hmoved.2]
      have hother : ∀ h ∈ files, Moved env h → h.name ≠ g.name := fun h hmem _ heq =>
        hnew (heq ▸ List.mem_map_of_mem hmem)
      rw [hstep, ih hnodup, Staged, Staged, mem_place, List.forall_mem_cons, List.mem_cons]
      constructor
      · rintro (⟨hmem, hf⟩ | ⟨rfl | ⟨htemp, hne⟩, hrest⟩)
        · exact Or.inl ⟨Or.inr hmem, hf⟩
        · exact Or.inl ⟨Or.inl rfl, hmoved⟩
        · exact Or.inr ⟨htemp, fun _ => Ne.symm hne, hrest⟩
      · rintro (⟨rfl | hmem, hf⟩ | ⟨htemp, hne, hrest⟩)
        · exact Or.inr ⟨Or.inl rfl, hother⟩
        · exact Or.inl ⟨hmem, hf⟩
        · exact Or.inr ⟨Or.inr ⟨htemp, Ne.symm (hne hmoved)⟩, hrest⟩
    · have hstep :
          (moveEntries env (g :: files) tempDir).2 = (moveEntries env files tempDir).2 := by
        rw [moveEntries]
        split_ifs with hopens hrenames
        · exact absurd ⟨hopens, hrenames⟩ hmoved
        · rfl
        · rfl
      rw [hstep, ih hnodup, Staged, Staged, List.forall_mem_cons, List.mem_cons]
      constructor
      · rintro (⟨hmem, hf⟩ | ⟨htemp, hrest⟩)
        · exact Or.inl ⟨Or.inr hmem, hf⟩
        · exact Or.inr ⟨htemp, fun hg => absurd hg hmoved, hrest⟩
      · rintro (⟨rfl | hmem, hf⟩ | ⟨htemp, -, hrest⟩)
        · exact absurd hf hmoved
        · exact Or.inl ⟨hmem, hf⟩
        · exact Or.inr ⟨htemp, hrest⟩

/-! ### The archive -/

variable {basePath excludeFile dirpath macAddress timestamp : Bytes}

lemma mem_visits_listing {v : Visit} :
    v ∈ (listing env files).visits basePath excludeFile dirpath ↔
      (∃ f ∈ files, ∃ run, env.adds f = some run ∧ ¬Skipped excludeFile dirpath f.name ∧
        v = .file (arcname basePath (fullpath dirpath f.name)) run) ∨
      v ∈ env.archive.entries.visits basePath excludeFile dirpath := by
  induction files with
  | nil => simp [listing]
  | cons f files ih =>
    rw [listing]
    cases hadds : env.adds f with
    | none => simp [Listing.visits, ih, hadds]
    | some run =>
      rw [Listing.visits]
      split_ifs with hskip
      · simp [ih, hadds, hskip]
      · simp [ih, hadds, hskip, or_assoc]

lemma opens_listing : (listing env files).Opens excludeFile dirpath ↔
    env.archive.entries.Opens excludeFile dirpath := by
  induction files with
  | nil => rfl
  | cons f files ih =>
    rw [listing]
    cases env.adds f with
    | none => exact ih
    | some run => exact ih

lemma completes_archiveRun {ctx : RuntimeContext} {sourceDir : Bytes} :
    (archiveRun env macAddress tempDir).Completes ctx sourceDir ↔
      env.archive.Completes ctx sourceDir := by
  constructor
  · intro h
    exact ⟨h.dirExists, h.timestamp, h.gzopen, h.opened, opens_listing.mp h.opens, h.eof, h.gzclose,
      h.fileExists⟩
  · intro h
    exact ⟨h.dirExists, h.timestamp, h.gzopen, h.opened, opens_listing.mpr h.opens, h.eof,
      h.gzclose, h.fileExists⟩

lemma holds_record_iff {v : Visit} :
    (∃ h size, readHeader v.record.header = some (h, size) ∧ h.typeflag = regularType ∧
        size = c.length ∧ c <+: v.record.body) ↔
      ∃ arcname run, v = .file arcname run ∧ Stores run c := by
  cases v with
  | link arcname mode mtime target write =>
    constructor
    · rintro ⟨h, size, hread, htype, -⟩
      obtain ⟨-, rfl, -⟩ := readHeader_gzwrite hread
      have hlink : (symlinkStat mode mtime).kind = .symlink := rfl
      rw [typeflag_tarHeader, if_pos hlink] at htype
      exact absurd htype (by decide)
    · rintro ⟨_, _, heq, -⟩
      cases heq
  | file arcname run =>
    constructor
    · rintro ⟨h, size, hread, -, hsize, hbody⟩
      by_cases hentered : ∃ st, run.Entered st
      · obtain ⟨st, hentered⟩ := hentered
        rw [Visit.record, addFileToTar_of_entered hentered] at hread hbody
        obtain ⟨hfull, -, rfl⟩ := readHeader_gzwrite hread
        exact ⟨arcname, run, rfl, st, hentered, hfull, hsize, hbody⟩
      · rw [Visit.record, addFileToTar_of_not_entered (not_exists.mp hentered)] at hread
        cases hread
    · rintro ⟨_, _, heq, st, hentered, hfull, hsize, hbody⟩
      obtain ⟨rfl, rfl⟩ := Visit.file.inj heq
      have hself := gzwrite_eq_self (b := (tarHeader arcname st none).toBytes)
        (by rw [Header.length_toBytes]; exact hfull)
      have hkind : st.kind ≠ .symlink := by
        rw [hentered.2.2]
        simp
      rw [Visit.record, addFileToTar_of_entered hentered, hself]
      refine ⟨_, _, readHeader_tarHeader _ _ _, ?_, hsize, hbody⟩
      rw [typeflag_tarHeader, if_neg hkind]

lemma inside_iff {visits : List Visit} :
    Inside ⟨visits.map Visit.record, endBlocks⟩ c ↔
      ∃ arcname run, .file arcname run ∈ visits ∧ Stores run c := by
  constructor
  · rintro ⟨r, hr, hholds⟩
    obtain ⟨v, hv, rfl⟩ := List.mem_map.mp hr
    obtain ⟨arcname, run, rfl, hstores⟩ := holds_record_iff.mp hholds
    exact ⟨arcname, run, hv, hstores⟩
  · rintro ⟨arcname, run, hv, hstores⟩
    exact ⟨_, List.mem_map_of_mem hv, holds_record_iff.mpr ⟨arcname, run, rfl, hstores⟩⟩

lemma copyFileAndDelete_eq_some {archive : Option ArchiveFile} {a : ArchiveFile} :
    (copyFileAndDelete env archive).2 = some a ↔
      env.copy = ⟨true, true, true, true⟩ ∧ archive = some a := by
  unfold copyFileAndDelete
  obtain ⟨fopenSource, fopenDest, copied, flushed⟩ := env.copy
  cases fopenSource <;> cases fopenDest <;> cases copied <;> cases flushed <;> simp

/-- What the archive on the drive has been made of. -/
lemma usb_createUsbLogArchive {sourceDir : Bytes} {a : ArchiveFile} :
    (createUsbLogArchive env sourceDir macAddress tempDir).2.2 = some a ↔
      Arrives env sourceDir macAddress ∧
        a = ⟨((archiveRun env macAddress tempDir).visits ⟨macAddress⟩ sourceDir).map Visit.record,
          endBlocks⟩ := by
  unfold createUsbLogArchive
  by_cases hstat : env.stat = true
  swap
  · rw [if_pos hstat]
    exact iff_of_false (by simp) fun h => hstat h.1.stat
  rw [if_neg (not_not.mpr hstat)]
  by_cases hcompletes : (archiveRun env macAddress tempDir).Completes ⟨macAddress⟩ sourceDir
  · obtain ⟨archiveFile, hrun⟩ := createArchive_of_completes ⟨[]⟩ hcompletes
    have hcopy : (copyFileAndDelete env (some ⟨((archiveRun env macAddress tempDir).visits
          ⟨macAddress⟩ sourceDir).map Visit.record, endBlocks⟩)).2 = some a ↔
        Arrives env sourceDir macAddress ∧
          a = ⟨((archiveRun env macAddress tempDir).visits ⟨macAddress⟩ sourceDir).map Visit.record,
            endBlocks⟩ := by
      rw [copyFileAndDelete_eq_some]
      constructor
      · rintro ⟨hcopied, heq⟩
        exact ⟨⟨hstat, completes_archiveRun.mp hcompletes, hcopied⟩, (Option.some.inj heq).symm⟩
      · rintro ⟨harrives, rfl⟩
        exact ⟨harrives.copied, rfl⟩
    simp only [hrun, ne_eq, not_true, if_false]
    split_ifs <;> exact hcopy
  · obtain ⟨archive, hrun, -⟩ := createArchive_of_not_completes ⟨[]⟩ hcompletes
    simp only [hrun]
    exact iff_of_false (by simp) fun h => hcompletes (completes_archiveRun.mpr h.1.completes)

lemma tempDir_createUsbLogArchive {sourceDir : Bytes} :
    f ∈ (createUsbLogArchive env sourceDir macAddress tempDir).2.1 ↔
      f ∈ tempDir ∧ (env.stat = true → some f.name ≠ openedArchive env macAddress) := by
  have hbesides : f ∈ besidesArchive env macAddress tempDir ↔
      f ∈ tempDir ∧ some f.name ≠ openedArchive env macAddress := by
    simp [besidesArchive]
  unfold createUsbLogArchive
  by_cases hstat : env.stat = true
  · rw [if_neg (not_not.mpr hstat), imp_iff_right hstat, ← hbesides]
    dsimp only
    split_ifs <;> rfl
  · rw [if_pos hstat]
    exact (and_iff_left fun h => absurd h hstat).symm

/-! ### The upload -/

lemma execute_of_starts (h : Starts env macAddress timestamp) :
    (usbLogUploadExecute env logPath tempDir).2 =
      ⟨(moveEntries env logPath tempDir).1,
        cleanupTemporaryFiles env (createUsbLogArchive env (sourceDir macAddress timestamp)
          macAddress (moveEntries env logPath tempDir).2).2.1,
        (createUsbLogArchive env (sourceDir macAddress timestamp) macAddress
          (moveEntries env logPath tempDir).2).2.2⟩ := by
  have hopendir : ¬¬env.opendir = true := not_not.mpr h.opendir
  simp only [usbLogUploadExecute, h.mounted, h.logDirectory, h.mac, h.time, h.mac_ne,
    h.tempDirectory, ne_eq, not_true, if_false, moveLogFiles, hopendir]
  rfl

/-- An upload that fails before the move leaves the logs where they are. -/
lemma execute_of_not_starts (h : ∀ macAddress timestamp, ¬Starts env macAddress timestamp) :
    (usbLogUploadExecute env logPath tempDir).2.logPath = logPath := by
  unfold usbLogUploadExecute
  by_cases hmounted : env.validateUsbMountPoint = 0
  swap
  · rw [if_pos hmounted]
  rw [if_neg (not_not.mpr hmounted)]
  by_cases hdirectory : env.createUsbLogDirectory = 0
  swap
  · rw [if_pos hdirectory]
  rw [if_neg (not_not.mpr hdirectory)]
  cases hmac : env.macAddress with
  | none => rfl
  | some macAddress =>
    cases htime : env.timestamp with
    | none => rfl
    | some timestamp =>
      dsimp only
      by_cases hmacne : macAddress = []
      · rw [if_pos hmacne]
      rw [if_neg hmacne]
      by_cases htemp : env.createTemporaryDirectory = 0
      swap
      · rw [if_pos htemp]
      have hopendir : ¬env.opendir = true := fun hopendir =>
        h macAddress timestamp ⟨hmounted, hdirectory, hmac, htime, hmacne, htemp, hopendir⟩
      rw [if_neg (not_not.mpr htemp), moveLogFiles, if_pos hopendir]
      rfl

lemma present_of_not_starts (h : ∀ macAddress timestamp, ¬Starts env macAddress timestamp)
    (hf : f ∈ logPath) : Present (usbLogUploadExecute env logPath tempDir).2 f.content := by
  refine Or.inl ⟨f, ?_, rfl⟩
  rw [execute_of_not_starts h]
  exact hf

lemma present_iff {logPath : Directory} (h : Starts env macAddress timestamp) :
    Present (usbLogUploadExecute env logPath.files tempDir).2 c ↔
      Safe env macAddress timestamp logPath.files tempDir c := by
  have htemp {f : LogFile} : f ∈ cleanupTemporaryFiles env (createUsbLogArchive env
      (sourceDir macAddress timestamp) macAddress (moveEntries env logPath.files tempDir).2).2.1 ↔
        (Staged env logPath.files tempDir f ∧
          (env.stat = true → some f.name ≠ openedArchive env macAddress)) ∧
        env.removes f.name = false := by
    rw [cleanupTemporaryFiles, List.mem_filter, tempDir_createUsbLogArchive,
      mem_moveEntries_tempDir logPath.nodup]
    simp
  rw [Present, execute_of_starts h]
  constructor
  · rintro (⟨f, hf, rfl⟩ | ⟨f, hf, rfl⟩ | ⟨a, ha, hinside⟩)
    · obtain ⟨hmem, hmoved⟩ := mem_moveEntries_logPath.mp hf
      exact .stays hmem hmoved rfl
    · obtain ⟨⟨hstaged, hname⟩, hleft⟩ := htemp.mp hf
      exact .remains hstaged hleft hname rfl
    · obtain ⟨harrives, rfl⟩ := usb_createUsbLogArchive.mp ha
      obtain ⟨arcname, run, hvisit, hstores⟩ := inside_iff.mp hinside
      rcases mem_visits_listing.mp hvisit with ⟨f, hf, run', hadds, hskip, heq⟩ | hother
      · obtain ⟨-, rfl⟩ := Visit.file.inj heq
        have hbesides := List.mem_filter.mp hf
        exact .archived harrives ((mem_moveEntries_tempDir logPath.nodup).mp hbesides.1)
          (by simpa using hbesides.2) hskip hadds hstores
      · exact .besides harrives hother hstores
  · intro hsafe
    cases hsafe with
    | stays mem moved content =>
      exact Or.inl ⟨_, mem_moveEntries_logPath.mpr ⟨mem, moved⟩, content⟩
    | remains staged left name content =>
      exact Or.inr (Or.inl ⟨_, htemp.mpr ⟨⟨staged, name⟩, left⟩, content⟩)
    | archived arrives staged name visited added stores =>
      refine Or.inr (Or.inr ⟨_, usb_createUsbLogArchive.mpr ⟨arrives, rfl⟩, inside_iff.mpr
        ⟨_, _, mem_visits_listing.mpr (Or.inl ⟨_, ?_, _, added, visited, rfl⟩), stores⟩⟩)
      refine List.mem_filter.mpr ⟨(mem_moveEntries_tempDir logPath.nodup).mpr staged, ?_⟩
      simpa using name
    | besides arrives visited stores =>
      exact Or.inr (Or.inr ⟨_, usb_createUsbLogArchive.mpr ⟨arrives, rfl⟩, inside_iff.mpr
        ⟨_, _, mem_visits_listing.mpr (Or.inr visited), stores⟩⟩)

/-- **No log is lost on the way to the drive** exactly if, in every run that starts, each log is in
one of the ways of `Safe` kept: in `LOG_PATH`, on the drive or in the archive. -/
theorem keepsLogs_iff {logPath : Directory} :
    KeepsLogs env logPath tempDir ↔
      ∀ macAddress timestamp, Starts env macAddress timestamp →
        ∀ f ∈ logPath.files, Safe env macAddress timestamp logPath.files tempDir f.content := by
  constructor
  · intro hkeeps macAddress timestamp hstarts f hf
    exact (present_iff hstarts).mp (hkeeps f hf)
  · intro hsafe f hf
    by_cases hstarts : ∃ macAddress timestamp, Starts env macAddress timestamp
    · obtain ⟨macAddress, timestamp, hstarts⟩ := hstarts
      exact (present_iff hstarts).mpr (hsafe macAddress timestamp hstarts f hf)
    · exact present_of_not_starts (by simpa using hstarts) hf

/-- The drive is mounted and the log is moved, and the archive cannot be created. -/
def gzopenFails : Env where
  validateUsbMountPoint := 0
  createUsbLogDirectory := 0
  macAddress := some [65]
  timestamp := some [48]
  createTemporaryDirectory := 0
  opendir := true
  opens _ := true
  renames _ := true
  stat := true
  archive := ⟨true, some [48], false, true, .done, .full, true, true, true⟩
  adds _ := none
  copy := ⟨true, true, true, true⟩
  removes _ := true

def oneLog : Directory := ⟨[⟨[97], [65]⟩], by decide⟩

/-- The log is in none of the three places. -/
theorem moved_log_lost : ¬KeepsLogs gzopenFails oneLog [] := by
  have hlost : (usbLogUploadExecute gzopenFails oneLog.files []).2 = ⟨[], [], none⟩ := by rfl
  intro h
  have hpresent := h ⟨[97], [65]⟩ List.mem_cons_self
  rw [hlost] at hpresent
  rcases hpresent with ⟨f, hf, -⟩ | ⟨f, hf, -⟩ | ⟨a, ha, -⟩
  · exact absurd hf List.not_mem_nil
  · exact absurd hf List.not_mem_nil
  · cases ha

/-! ### Uploads without a fault -/

/-- A file that is read and written without a fault is stored. -/
lemma stores_ofContent {chunks : List Bytes} (hchunks : [] ∉ chunks) {mode : ℕ} {mtime : ℤ}
    (hsize : chunks.flatten.length < 8 ^ 11) :
    Stores (.ofContent chunks mode mtime chunks.flatten) chunks.flatten := by
  refine ⟨⟨.regular, mode, mtime, chunks.flatten.length⟩, ⟨rfl, rfl, rfl⟩, rfl,
    declaredSize_of_lt hsize, ?_⟩
  rw [FileRun.body]
  simp [FileRun.ofContent, copyData_full hchunks]

/-- The logs are kept when the archive arrives and every file that was moved is in it. -/
theorem keepsLogs_of_arrives {logPath : Directory}
    (h : ∀ macAddress timestamp, Starts env macAddress timestamp →
      Arrives env (sourceDir macAddress timestamp) macAddress ∧
      ∀ f ∈ logPath.files, Moved env f → some f.name ≠ openedArchive env macAddress ∧
        ¬Skipped (env.archive.path ⟨macAddress⟩ (sourceDir macAddress timestamp))
          (sourceDir macAddress timestamp) f.name ∧
        ∃ chunks mode mtime, [] ∉ chunks ∧ chunks.flatten = f.content ∧
          f.content.length < 8 ^ 11 ∧
          env.adds f = some (.ofContent chunks mode mtime f.content)) :
    KeepsLogs env logPath tempDir := by
  intro f hf
  by_cases hstarts : ∃ macAddress timestamp, Starts env macAddress timestamp
  · obtain ⟨macAddress, timestamp, hstarts⟩ := hstarts
    obtain ⟨harrives, hadded⟩ := h macAddress timestamp hstarts
    refine (present_iff hstarts).mpr ?_
    by_cases hmoved : Moved env f
    · obtain ⟨hname, hskip, chunks, mode, mtime, hchunks, hflat, hsize, hadds⟩ :=
        hadded f hf hmoved
      rw [← hflat] at hadds hsize
      rw [← hflat]
      exact .archived harrives (Or.inl ⟨hf, hmoved⟩) hname hskip hadds
        (stores_ofContent hchunks hsize)
    · exact .stays hf hmoved rfl
  · exact present_of_not_starts (by simpa using hstarts) hf

end DcmAgent.Usb
