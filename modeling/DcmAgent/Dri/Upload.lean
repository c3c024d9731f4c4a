import Mathlib.Tactic
import DcmAgent.Archive.RoundTrip
import DcmAgent.Upload.Engine

/-!
# The upload of the DRI logs

`reboot_upload` uploads the archive of the main logs, then it archives `dri_log_path`, uploads that
archive and removes the directory. The files below the directory are kept here, and which archives
have been uploaded with success. The results of the calls are given from outside; the attempts of
an upload are run by the upload engine.
-/

namespace DcmAgent.Dri

open Library.Ustar Archive Upload

/-- A regular file below a directory, with the names that lead to it. -/
structure LogFile where
  path : List FileName
  content : Bytes

def regularFiles (names : List FileName) : Tree → List LogFile
  | .nil => []
  | .file name _ _ content rest => ⟨names ++ [name], content⟩ :: regularFiles names rest
  | .link _ _ _ _ rest => regularFiles names rest
  | .directory name entries rest =>
    regularFiles (names ++ [name]) entries ++ regularFiles names rest

/-- What the calls of a walk do with the entry that the names lead to. -/
structure Walk where
  /-- `readdir` returns the entry, and `fstatat` succeeds. -/
  finds : List FileName → Bool
  adds : List FileName → FileRun
  readlink : List FileName → Bool
  writesLink : List FileName → GzWrite
  opens : List FileName → Bool
  /-- The directory at a path that has been cut. -/
  directoryAt : Bytes → Listing

/-- What a walk over the tree finds. -/
def found (sourceDir : Bytes) (walk : Walk) (names : List FileName) : Tree → Listing
  | .nil => .done
  | .file name _ _ _ rest =>
    if walk.finds (names ++ [name]) then
      .file name.bytes (walk.adds (names ++ [name])) (found sourceDir walk names rest)
    else .unknown name.bytes (found sourceDir walk names rest)
  | .link name mode mtime target rest =>
    if walk.finds (names ++ [name]) then
      .link name.bytes mode mtime
        (if walk.readlink (names ++ [name]) then some target.bytes else none)
        (walk.writesLink (names ++ [name])) (found sourceDir walk names rest)
    else .unknown name.bytes (found sourceDir walk names rest)
  | .directory name entries rest =>
    let path := sourceDir ++ pathOf (names ++ [name])
    if walk.finds (names ++ [name]) then
      .directory name.bytes (walk.opens (names ++ [name]))
        (if path.length < maxPathLength then found sourceDir walk (names ++ [name]) entries
          else walk.directoryAt (path.take (maxPathLength - 1)))
        (found sourceDir walk names rest)
    else .unknown name.bytes (found sourceDir walk names rest)

structure SessionState extends Upload.SessionState where
  archiveFile : Bytes

/-- The context and the results of the calls. `arrivals` are the files that appear behind the walk;
`archive.entries` is not used. -/
structure Env where
  ctx : Upload.RuntimeContext
  macAddress : Bytes
  dcmFlag : ℤ
  uploadOnReboot : Bool
  isScheduledReboot : Bool
  disableUnscheduledUpload : Bool
  prevLogPath : Bytes
  mainExists : Bool
  mainSize : ℤ
  mainOutcomes : ℕ → Outcome
  includeDri : Bool
  driLogPath : Bytes
  dirExists : Bool
  stillExists : Bool
  walk : Walk
  archive : ArchiveRun
  driExists : Bool
  driSize : ℤ
  driOutcomes : ℕ → Outcome
  arrivals : List LogFile
  /-- The archive that any other path leads to. -/
  archiveAt : Bytes → Option ArchiveFile
  /-- `emptyFolder` removes the file. -/
  removes : List FileName → Bool
  removesArchive : Bool

variable (env : Env)

def shouldUpload : Bool :=
  env.dcmFlag = 0 ∨ env.uploadOnReboot ∨
    (¬env.isScheduledReboot ∧ ¬env.disableUnscheduledUpload)

def filePath (f : LogFile) : Bytes := env.driLogPath ++ pathOf f.path

/-! ### `upload_archive` -/

def uploadArchive (ctx : Upload.RuntimeContext) (outcomes : ℕ → Outcome) (fileExists : Bool)
    (fileSize : ℤ) (archivePath : Bytes) (session : SessionState) : ℤ × SessionState :=
  if ¬fileExists then (-1, session)
  else if fileSize ≤ 0 then (-1, session)
  else
    let archiveFile := archivePath.take (maxFilenameLength - 1)
    let (uploadSuccess, cycle) := executeUploadCycle ctx outcomes session.toSessionState
    (if uploadSuccess then 0 else -1, ⟨cycle.session, archiveFile⟩)

/-! ### `create_dri_archive` -/

/-- The bytes of `DRI_Logs`. -/
def driPrefix : Bytes := [68, 82, 73, 95, 76, 111, 103, 115]

def archiveFilename : Bytes := env.archive.filename ⟨env.macAddress⟩ driPrefix

def driRun (tree : Tree) : ArchiveRun :=
  { env.archive with entries := found env.driLogPath env.walk [] tree }

def opensArchive : Bool :=
  env.archive.dirExists ∧ env.archive.timestamp.isSome ∧ env.archive.gzopen

/-- A file at the path of the archive is truncated. -/
def besidesArchive (files : List LogFile) : List LogFile :=
  files.filter fun f =>
    ¬(opensArchive env ∧ filePath env f = archivePath env.driLogPath (archiveFilename env))

/-- The value returned, the session, the archive, and the other files. -/
def createDriArchive (session : SessionState) (tree : Tree) :
    ℤ × SessionState × Option ArchiveFile × List LogFile :=
  if env.driLogPath = [] then (-1, session, none, regularFiles [] tree)
  else if ¬env.stillExists then (-1, session, none, regularFiles [] tree)
  else
    let (ret, ⟨archiveFile⟩, archive) := createArchiveWithOptions ⟨env.macAddress⟩
      ⟨session.archiveFile⟩ env.driLogPath (some env.driLogPath) driPrefix (driRun env tree)
    (ret, { session with archiveFile := archiveFile }, archive,
      besidesArchive env (regularFiles [] tree))

/-! ### `reboot_upload` -/

def removeDirectory (files : List LogFile) : List LogFile :=
  files.filter fun f => ¬env.removes f.path

def removeFile (path : Bytes) (files : List LogFile) : List LogFile :=
  files.filter fun f => ¬(filePath env f = path ∧ env.removesArchive)

/-- The part for the DRI logs: the files that are left, and the archives that have been uploaded
with success. -/
def uploadDri (session : SessionState) (tree : Tree) : List LogFile × List ArchiveFile :=
  let driSession := { session with directAttempts := 0, codebigAttempts := 0 }
  let (driRet, driSession, archive, files) := createDriArchive env driSession tree
  let files := files ++ env.arrivals
  if driRet ≠ 0 then (files, [])
  else
    let driArchive := env.driLogPath ++ 47 :: driSession.archiveFile
    if maxPathLength ≤ driArchive.length then (files, [])
    else
      let (driRet, driSession) := uploadArchive env.ctx env.driOutcomes env.driExists env.driSize
        driArchive driSession
      if driRet = 0 then
        (removeFile env driArchive (removeDirectory env files),
          -- a path that is too long for the session is cut
          (if driSession.archiveFile = driArchive then archive
            else env.archiveAt driSession.archiveFile).toList)
      else (removeFile env driArchive files, [])

/-- The value returned, the session, the files below `dri_log_path`, and the archives that have been
uploaded with success. -/
def rebootUpload (session : SessionState) (tree : Tree) :
    ℤ × SessionState × List LogFile × List ArchiveFile :=
  let archivePath := env.prevLogPath ++ 47 :: session.archiveFile
  let files := regularFiles [] tree ++ env.arrivals
  if maxPathLength ≤ archivePath.length then (-1, session, files, [])
  else if ¬shouldUpload env then
    (0, { session with archiveFile := archivePath.take (maxFilenameLength - 1) }, files, [])
  else
    let (ret, session) := uploadArchive env.ctx env.mainOutcomes env.mainExists env.mainSize
      archivePath session
    let uploaded := if ret = 0 then (env.archiveAt session.archiveFile).toList else []
    if env.includeDri ∧ env.dirExists then
      let (files, driUploaded) := uploadDri env session tree
      (ret, session, files, uploaded ++ driUploaded)
    else (ret, session, files, uploaded)

end DcmAgent.Dri
