import Mathlib.Tactic
import DcmAgent.Library.Ustar

/-!
# The archive writer

`create_archive` of `archive_manager.c`. What the calls of the operating system and of zlib return
is given from outside: a `Listing` is what one walk over a directory finds, entry by entry, in the
order of `readdir`.
-/

namespace DcmAgent.Archive

open Library.Ustar

/-! ### One write -/

/-- What a call of `gzwrite` does: it succeeds, or it fails after some of the bytes. -/
inductive GzWrite
  | full
  | failed (landed : ℕ)
  deriving DecidableEq, Repr

/-- Whether the call returns the number of bytes, and the bytes that are in the archive. -/
def gzwrite : GzWrite → Bytes → Bool × Bytes
  | .full, b => (true, b)
  | .failed landed, b => (false, b.take landed)

/-! ### `write_tar_header` -/

inductive FileKind
  | regular
  | symlink
  | other
  deriving DecidableEq, Repr

structure Stat where
  kind : FileKind
  mode : ℕ
  mtime : ℤ
  size : ℕ
  deriving DecidableEq, Repr

/-- The conversion to `unsigned long`. -/
def unsignedLong (z : ℤ) : ℕ := (z % 2 ^ 64).toNat

def zeroHeader : Header where
  name := .fill _ 0
  mode := .fill _ 0
  uid := .fill _ 0
  gid := .fill _ 0
  size := .fill _ 0
  mtime := .fill _ 0
  checksum := .fill _ 0
  typeflag := 0
  linkname := .fill _ 0
  magic := .fill _ 0
  version := .fill _ 0
  uname := .fill _ 0
  gname := .fill _ 0
  devmajor := .fill _ 0
  devminor := .fill _ 0
  namePrefix := .fill _ 0
  pad := .fill _ 0

def regularType : UInt8 := 48

def symlinkType : UInt8 := 50

/-- The header before its checksum is written. -/
def unsignedHeader (filename : Bytes) (st : Stat) (linkTarget : Option Bytes) : Header :=
  let header : Header :=
    { zeroHeader with
      name := zeroHeader.name.strncpy filename (100 - 1)
      mode := zeroHeader.mode.snprintf (octal 7 (st.mode &&& 0o777))
      uid := zeroHeader.uid.snprintf (octal 7 0)
      gid := zeroHeader.gid.snprintf (octal 7 0)
      mtime := zeroHeader.mtime.snprintf (octal 11 (unsignedLong st.mtime))
      magic := ⟨Header.ustarMagic, rfl⟩
      version := ⟨[48, 48], rfl⟩ }
  if st.kind = .symlink then
    { header with
      typeflag := symlinkType
      size := header.size.snprintf (octal 11 0)
      linkname := linkTarget.elim header.linkname fun t => header.linkname.strncpy t (100 - 1) }
  else
    { header with
      typeflag := regularType
      size := header.size.snprintf (octal 11 (unsignedLong st.size)) }

/-- The checksum field is filled with spaces when the sum is taken. -/
def calculateTarChecksum (header : Header) : Header × ℕ :=
  ({ header with checksum := .fill 8 32 }, header.sum)

def tarHeader (filename : Bytes) (st : Stat) (linkTarget : Option Bytes) : Header :=
  let (header, checksum) := calculateTarChecksum (unsignedHeader filename st linkTarget)
  { header with checksum := header.checksum.snprintf (octal 6 checksum) }

/-- The value returned, and what is in the archive. -/
def writeTarHeader (write : GzWrite) (filename : Bytes) (st : Stat) (linkTarget : Option Bytes) :
    ℤ × Bytes :=
  let (ok, landed) := gzwrite write (tarHeader filename st linkTarget).toBytes
  (if ok then 0 else -1, landed)

/-! ### `add_file_to_tar` -/

/-- What the calls for one regular file return. A read that delivers nothing ends the loop. -/
structure FileRun where
  opened : Bool
  fstat : Option Stat
  header : GzWrite
  fdopen : Bool
  reads : List (Bytes × GzWrite)
  pad : GzWrite
  deriving DecidableEq, Repr

/-- The loop over `fread`: whether it comes to its end, and what is in the archive. -/
def copyData : List (Bytes × GzWrite) → Bool × Bytes
  | [] => (true, [])
  | (buffer, write) :: reads =>
    if buffer = [] then (true, [])
    else
      let (ok, landed) := gzwrite write buffer
      if ok then
        let (ok, data) := copyData reads
        (ok, landed ++ data)
      else (false, landed)

def addFileToTar (arcname : Bytes) (run : FileRun) : ℤ × Record :=
  if ¬run.opened then (-1, .empty)
  else
    match run.fstat with
    | none => (-1, .empty)
    | some st =>
      if st.kind ≠ .regular then (0, .empty)
      else
        let (ret, header) := writeTarHeader run.header arcname st none
        if ret ≠ 0 then (-1, ⟨header, []⟩)
        else if ¬run.fdopen then (-1, ⟨header, []⟩)
        else
          let (ok, data) := copyData run.reads
          if ¬ok then (-1, ⟨header, data⟩)
          else if 0 < padding data.length then
            let (ok, pad) := gzwrite run.pad (List.replicate (padding data.length) 0)
            (if ok then 0 else -1, ⟨header, data ++ pad⟩)
          else (0, ⟨header, data⟩)

/-! ### `add_directory_to_tar` -/

def maxPathLength : ℕ := 512

def pathMax : ℕ := 4096

/-- What a walk over a directory finds. -/
inductive Listing
  | done
  /-- `fstatat` fails. -/
  | unknown (name : Bytes) (rest : Listing)
  /-- Neither a directory nor a symbolic link nor a regular file. -/
  | other (name : Bytes) (rest : Listing)
  | file (name : Bytes) (run : FileRun) (rest : Listing)
  | link (name : Bytes) (mode : ℕ) (mtime : ℤ) (target : Option Bytes) (write : GzWrite)
      (rest : Listing)
  | directory (name : Bytes) (opened : Bool) (entries rest : Listing)
  deriving DecidableEq, Repr

def IsDot (name : Bytes) : Prop := name = [46] ∨ name = [46, 46]

instance (name : Bytes) : Decidable (IsDot name) := inferInstanceAs (Decidable (_ ∨ _))

def fullpath (dirpath name : Bytes) : Bytes := (dirpath ++ 47 :: name).take (maxPathLength - 1)

/-- The path without the base path and one slash. -/
def arcname (basePath path : Bytes) : Bytes :=
  match path.drop basePath.length with
  | [] => []
  | c :: rest => if c = 47 then rest else c :: rest

/-- The entries that the walk passes over before it looks at them. -/
def Skipped (excludeFile dirpath name : Bytes) : Prop :=
  IsDot name ∨ fullpath dirpath name = excludeFile

instance (excludeFile dirpath name : Bytes) : Decidable (Skipped excludeFile dirpath name) :=
  inferInstanceAs (Decidable (_ ∨ _))

def symlinkStat (mode : ℕ) (mtime : ℤ) : Stat := ⟨.symlink, mode, mtime, 0⟩

def linkRecord (arcname : Bytes) (mode : ℕ) (mtime : ℤ) (target : Bytes) (write : GzWrite) :
    Record :=
  ⟨(writeTarHeader write arcname (symlinkStat mode mtime) (target.take (pathMax - 1))).2, []⟩

section Walk

variable (basePath excludeFile : Bytes)

/-- The loop over the entries of an open directory. -/
def addEntries (dirpath : Bytes) : Listing → ℤ × List Record
  | .done => (0, [])
  | .unknown _ rest => addEntries dirpath rest
  | .other _ rest => addEntries dirpath rest
  | .file name run rest =>
    if Skipped excludeFile dirpath name then addEntries dirpath rest
    else
      let (_, record) := addFileToTar (arcname basePath (fullpath dirpath name)) run
      let (ret, records) := addEntries dirpath rest
      (ret, record :: records)
  | .link name mode mtime target write rest =>
    if Skipped excludeFile dirpath name then addEntries dirpath rest
    else
      match target with
      | none => addEntries dirpath rest
      | some target =>
        let record := linkRecord (arcname basePath (fullpath dirpath name)) mode mtime target write
        let (ret, records) := addEntries dirpath rest
        (ret, record :: records)
  | .directory name opened entries rest =>
    if Skipped excludeFile dirpath name then addEntries dirpath rest
    else if ¬opened then (-1, [])
    else
      let (ret, records) := addEntries (fullpath dirpath name) entries
      if ret ≠ 0 then (-1, records)
      else
        let (ret, records') := addEntries dirpath rest
        (ret, records ++ records')

def addDirectoryToTar (dirpath : Bytes) (opened : Bool) (entries : Listing) : ℤ × List Record :=
  if ¬opened then (-1, []) else addEntries basePath excludeFile dirpath entries

end Walk

/-! ### `create_archive` -/

def maxFilenameLength : ℕ := 256

structure RuntimeContext where
  macAddress : Bytes

structure SessionState where
  archiveFile : Bytes
  deriving DecidableEq, Repr

/-- The archive on the disk: what is written for the entries, and at the end. -/
structure ArchiveFile where
  records : List Record
  eofBlocks : Bytes
  deriving DecidableEq, Repr

def ArchiveFile.bytes (a : ArchiveFile) : Bytes := a.records.flatMap Record.bytes ++ a.eofBlocks

/-- The name `<MAC>_<prefix>_<timestamp>.tgz`; at most 31 characters of the address are used, and
its colons are left out. -/
def generateArchiveNameAt (macAddress namePrefix timestamp : Bytes) : Bytes :=
  let macClean := (macAddress.filter (· ≠ 58)).take (32 - 1)
  (macClean ++ 95 :: namePrefix ++ 95 :: timestamp ++ [46, 116, 103, 122]).take
    (maxFilenameLength - 1)

/-- What the calls of `create_archive` return. `timestamp` is absent when the time cannot be
formatted. -/
structure ArchiveRun where
  dirExists : Bool
  timestamp : Option Bytes
  gzopen : Bool
  opened : Bool
  entries : Listing
  eof : GzWrite
  gzclose : Bool
  fileExists : Bool
  removeFile : Bool
  deriving DecidableEq, Repr

def archivePath (targetDir archiveFilename : Bytes) : Bytes := fullpath targetDir archiveFilename

/-- The value returned, the session, and the archive if there is one. -/
def createArchiveWithOptions (ctx : RuntimeContext) (session : SessionState)
    (sourceDir : Bytes) (outputDir : Option Bytes) (namePrefix : Bytes) (run : ArchiveRun) :
    ℤ × SessionState × Option ArchiveFile :=
  if ¬run.dirExists then (-1, session, none)
  else
    match run.timestamp with
    | none => (-1, session, none)
    | some timestamp =>
      let archiveFilename := generateArchiveNameAt ctx.macAddress namePrefix timestamp
      let archivePath := archivePath (outputDir.getD sourceDir) archiveFilename
      if ¬run.gzopen then (-1, session, none)
      else
        let (ret, records) :=
          addDirectoryToTar sourceDir archivePath sourceDir run.opened run.entries
        let (ok, eofBlocks) := gzwrite run.eof endBlocks
        let ret := if ok then ret else -1
        let ret := if run.gzclose then ret else -1
        if ret ≠ 0 then
          (-1, session,
            if run.fileExists ∧ ¬run.removeFile then some ⟨records, eofBlocks⟩ else none)
        else if run.fileExists then
          (0, { session with archiveFile := archiveFilename.take (maxFilenameLength - 1) },
            some ⟨records, eofBlocks⟩)
        else (-1, session, none)

def logsPrefix : Bytes := [76, 111, 103, 115]

def createArchive (ctx : RuntimeContext) (session : SessionState) (sourceDir : Bytes)
    (run : ArchiveRun) : ℤ × SessionState × Option ArchiveFile :=
  createArchiveWithOptions ctx session sourceDir none logsPrefix run

end DcmAgent.Archive
