import Mathlib.Tactic
import DcmAgent.Archive.Framing

/-!
# The upload to a USB drive

`usb_log_upload_execute` moves the regular files of `LOG_PATH` to a temporary directory, archives
that, copies the archive to the drive and removes the directory. The results of the calls are given
from outside.
-/

namespace DcmAgent.Usb

open Library.Ustar Archive

/-- A regular file. -/
structure LogFile where
  name : Bytes
  content : Bytes
  deriving DecidableEq, Repr

/-- The regular files of a directory in the order of `readdir`. -/
structure Directory where
  files : List LogFile
  nodup : (files.map LogFile.name).Nodup

/-- The calls of `copy_file_and_delete`. The result of the last `fclose` is `flushed`. -/
structure CopyRun where
  fopenSource : Bool
  fopenDest : Bool
  copied : Bool
  flushed : Bool
  deriving DecidableEq, Repr

/-- What the calls return. `archive.entries` is what the walk over the temporary directory finds
besides regular files. -/
structure Env where
  validateUsbMountPoint : ℤ
  createUsbLogDirectory : ℤ
  macAddress : Option Bytes
  timestamp : Option Bytes
  createTemporaryDirectory : ℤ
  opendir : Bool
  /-- The entry of `LOG_PATH` can be opened, and `fstat` finds a regular file. -/
  opens : Bytes → Bool
  renames : Bytes → Bool
  stat : Bool
  archive : ArchiveRun
  /-- The calls of `add_file_to_tar`, if `readdir` and `fstatat` find the file. -/
  adds : LogFile → Option FileRun
  copy : CopyRun
  /-- The file is gone after the cleanup. -/
  removes : Bytes → Bool

/-- The directories at the end, and the archive on the drive. -/
structure Outcome where
  logPath : List LogFile
  tempDir : List LogFile
  usb : Option ArchiveFile

def usbLogErrorGeneral : ℤ := 1

/-! ### `move_log_files` -/

/-- The directory after `rename` has put the file there. -/
def place (tempDir : List LogFile) (f : LogFile) : List LogFile :=
  tempDir.filter (fun g => g.name ≠ f.name) ++ [f]

/-- The loop over the entries: what stays, and the temporary directory. -/
def moveEntries (env : Env) : List LogFile → List LogFile → List LogFile × List LogFile
  | [], tempDir => ([], tempDir)
  | f :: files, tempDir =>
    if env.opens f.name then
      if env.renames f.name then moveEntries env files (place tempDir f)
      else
        let (logPath, tempDir) := moveEntries env files tempDir
        (f :: logPath, tempDir)
    else
      let (logPath, tempDir) := moveEntries env files tempDir
      (f :: logPath, tempDir)

def moveLogFiles (env : Env) (logPath tempDir : List LogFile) :
    ℤ × List LogFile × List LogFile :=
  if ¬env.opendir then (-2, logPath, tempDir) else (0, moveEntries env logPath tempDir)

def cleanupTemporaryFiles (env : Env) (tempDir : List LogFile) : List LogFile :=
  tempDir.filter fun f => ¬env.removes f.name

/-! ### `create_usb_log_archive` -/

/-- What the walk over the temporary directory finds. The archive itself, which it passes over, is
left out. -/
def listing (env : Env) : List LogFile → Listing
  | [] => env.archive.entries
  | f :: files =>
    match env.adds f with
    | none => .unknown f.name (listing env files)
    | some run => .file f.name run (listing env files)

/-- The name of the archive in the temporary directory, once it is open for writing. -/
def openedArchive (env : Env) (macAddress : Bytes) : Option Bytes :=
  if env.archive.dirExists ∧ env.archive.gzopen then
    env.archive.timestamp.map (generateArchiveNameAt macAddress logsPrefix)
  else none

/-- The regular files when the archive has been opened: a file of its name is truncated. -/
def besidesArchive (env : Env) (macAddress : Bytes) (tempDir : List LogFile) : List LogFile :=
  tempDir.filter fun f => some f.name ≠ openedArchive env macAddress

def archiveRun (env : Env) (macAddress : Bytes) (tempDir : List LogFile) : ArchiveRun :=
  { env.archive with entries := listing env (besidesArchive env macAddress tempDir) }

/-- The value returned, and the file on the drive if it is the whole archive. -/
def copyFileAndDelete (env : Env) (archive : Option ArchiveFile) : ℤ × Option ArchiveFile :=
  if ¬env.copy.fopenSource then (-1, none)
  else if ¬env.copy.fopenDest then (-1, none)
  else if ¬env.copy.copied then (-1, none)
  else (0, if env.copy.flushed then archive else none)

/-- The session is empty before, and it has the name of the archive afterwards. -/
def createUsbLogArchive (env : Env) (sourceDir macAddress : Bytes) (tempDir : List LogFile) :
    ℤ × List LogFile × Option ArchiveFile :=
  if ¬env.stat then (-2, tempDir, none)
  else
    let (result, _, archive) :=
      createArchive ⟨macAddress⟩ ⟨[]⟩ sourceDir (archiveRun env macAddress tempDir)
    let tempDir := besidesArchive env macAddress tempDir
    if result ≠ 0 then (3, tempDir, none)
    else
      let (ret, usb) := copyFileAndDelete env archive
      if ret ≠ 0 then (3, tempDir, usb) else (0, tempDir, usb)

/-! ### `usb_log_upload_execute` -/

/-- The text before the extension. -/
def beforeExtension : Bytes → Bytes
  | [] => []
  | c :: s => if [46, 116, 103, 122] <+: c :: s then [] else c :: beforeExtension s

/-- `/opt/tmpusb/` and the name of the archive without its extension. -/
def temporaryDirectory (logFile : Bytes) : Bytes :=
  [47, 111, 112, 116, 47, 116, 109, 112, 117, 115, 98, 47] ++ beforeExtension logFile

def usbLogUploadExecute (env : Env) (logPath tempDir : List LogFile) : ℤ × Outcome :=
  if env.validateUsbMountPoint ≠ 0 then (env.validateUsbMountPoint, ⟨logPath, tempDir, none⟩)
  else if env.createUsbLogDirectory ≠ 0 then (env.createUsbLogDirectory, ⟨logPath, tempDir, none⟩)
  else
    match env.macAddress, env.timestamp with
    | some macAddress, some timestamp =>
      if macAddress = [] then (usbLogErrorGeneral, ⟨logPath, tempDir, none⟩)
      else
        let sourceDir := temporaryDirectory (generateArchiveNameAt macAddress logsPrefix timestamp)
        if env.createTemporaryDirectory ≠ 0 then
          (env.createTemporaryDirectory, ⟨logPath, tempDir, none⟩)
        else
          let (ret, logPath, tempDir) := moveLogFiles env logPath tempDir
          if ret ≠ 0 then (ret, ⟨logPath, cleanupTemporaryFiles env tempDir, none⟩)
          else
            let (ret, tempDir, usb) := createUsbLogArchive env sourceDir macAddress tempDir
            (ret, ⟨logPath, cleanupTemporaryFiles env tempDir, usb⟩)
    | _, _ => (usbLogErrorGeneral, ⟨logPath, tempDir, none⟩)

end DcmAgent.Usb
