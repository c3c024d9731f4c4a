import Mathlib.Tactic
import DcmAgent.Library.Stream
import DcmAgent.Strategies.Collect

/-!
# The workflow of the DCM strategy

The logs are copied to `DCM_LOG_PATH` and get timestamps there. The directories that are listed in
the file `dcm_upload` follow, each under its last name, and the list is emptied. The directory is
archived, uploaded and removed. Directories list their entries in the order of `readdir`. The copies
write their paths with `snprintf` and do not look whether they have been cut; a run in which one
would be cut has no result here.
-/

namespace DcmAgent.Strategies

open Library
open Reboot (Name Fits pathOf CopyCalls plainCopy isDirectory PackCalls collectPcapLogs capturedAt
  createArchive StrategyHandler executeStrategyWorkflow runPhases)

namespace Dcm

/-! ### Copying trees -/

/-- What the calls do below a directory. -/
structure TreeCalls where
  copy : List Name → CopyCalls
  opens : List Name → Bool
  creates : List Name → Bool

mutual

/-- An entry is copied over what is at the destination. No directory can be created where there is
a file. -/
def copyNode (calls : TreeCalls) (dirs : List Name) (n : Name) : Node → Option Node → Option Node
  | .directory entries, none =>
    if calls.creates (dirs ++ [n]) then
      some (.directory
        (if calls.opens (dirs ++ [n]) then copyEntries calls (dirs ++ [n]) entries [] else []))
    else none
  | .directory entries, some (.directory dest) =>
    some (.directory
      (if calls.opens (dirs ++ [n]) then copyEntries calls (dirs ++ [n]) entries dest else dest))
  | .directory _, some x => some x
  | .regular content, old => ((calls.copy dirs).copyFile n (.regular content) old).2
  | .other, old => ((calls.copy dirs).copyFile n .other old).2
termination_by x => sizeOf x

/-- The loop of `copy_dir_recursive`. -/
def copyEntries (calls : TreeCalls) (dirs : List Name) :
    List (Name × Node) → List (Name × Node) → List (Name × Node)
  | [], dest => dest
  | (n, x) :: src, dest =>
    copyEntries calls dirs src
      (Directory.set dest n (copyNode calls dirs n x (dest.lookup n)))
termination_by src => sizeOf src

end

mutual

/-- The paths of an entry and of its copy fit their arrays, and those of what is below. -/
def nodeFits (src dest : List Char) (n : Name) : Node → Bool
  | .directory entries =>
    Fits src n ∧ Fits dest n ∧ entriesFit (pathOf src n) (pathOf dest n) entries
  | _ => Fits src n ∧ Fits dest n
termination_by x => sizeOf x

def entriesFit (src dest : List Char) : List (Name × Node) → Bool
  | [] => true
  | (n, x) :: entries => nodeFits src dest n x && entriesFit src dest entries
termination_by entries => sizeOf entries

end

/-- The destination of `copy_dir_recursive` afterwards. -/
def copyDirRecursive (calls : TreeCalls) (src dest : Directory Node) : Directory Node :=
  if calls.opens [] then copyEntries calls [] src dest else dest

/-! ### The state -/

/-- `LOG_PATH` and `DCM_LOG_PATH`, the stored prefix, and the archive of the session. `packed` is
the directory that has been archived, `sent` the one whose archive has been handed to the upload. -/
structure State where
  logs : Option (Directory Node)
  dcm : Option (Directory Node)
  timestampPrefix : List Char
  archiveFile : Name
  packed : Option (Directory Node)
  sent : Option (Directory Node)

/-- The paths and the flags of the context, and what the calls of a run return. The lines of the
list are numbered. -/
structure Env extends PackCalls where
  logPath : List Char
  dcmLogPath : List Char
  uploadOnReboot : Bool
  unlinks : List Name → Bool
  setupRemove : RemoveCalls
  createsDcm : Bool
  opensLogs : Bool
  tree : TreeCalls
  uploadFlag : Bool
  timestamp : Option (List Char)
  readdir : Directory Node → Option (List Name)
  renames : Name → Bool
  opensList : Bool
  /-- The directory at a path. -/
  listed : List Char → Option (Directory Node)
  createsBatch : ℕ → Bool
  batch : ℕ → TreeCalls
  truncates : Bool
  upload : ℤ
  opensToClear : Bool
  removesPcap : Name → Bool
  cleanupRemove : RemoveCalls

variable (env : Env)

/-! ### The setup -/

/-- The entries of `LOG_PATH` that are copied: all but some, or all but the directories. -/
def selects (e : Name × Node) : Bool :=
  if env.uploadOnReboot then ¬shouldExcludeFile e.1 else ¬isDirectory e.2

/-- `copy_all_files_to_dcm` or `copy_opt_logs_files`. -/
def populate (logs : Option (Directory Node)) (dest : Directory Node) : Directory Node :=
  match logs with
  | none => dest
  | some l => if env.opensLogs then copyEntries env.tree [] (l.filter (selects env)) dest else dest

def addTimestampToFiles (d : Directory Node) : Directory Node :=
  match env.timestamp with
  | none => d
  | some timestamp =>
    match env.readdir d with
    | none => d
    | some entries =>
      entries.foldl (Reboot.renameEntry env.renames (Reboot.stampedName env.dcmLogPath timestamp)) d

/-! ### The list -/

def listName : Name := "dcm_upload".toList

/-- What `fgets` has read, up to a zero and without the newline. -/
def listLine (piece : List Char) : List Char :=
  let line := piece.takeWhile (· ≠ Char.ofNat 0)
  if line.getLast? = some '\n' then line.dropLast else line

/-- What is behind the last slash. -/
def baseName (line : List Char) : Name := (line.reverse.takeWhile (· ≠ '/')).reverse

/-- `DCM_LOG_PATH` itself and its parent are there already. -/
def leadsBelow (b : Name) : Bool := b ≠ [] ∧ b ≠ ".".toList ∧ b ≠ "..".toList

/-- A listed directory is copied, unless there is something with its name. -/
def addBatch (d : Directory Node) (p : List Char × ℕ) : Directory Node :=
  let line := listLine p.1
  if line = [] then d
  else
    match env.listed line with
    | none => d
    | some entries =>
      let b := baseName line
      if ¬leadsBelow b then d
      else
        match d.lookup b with
        | some _ => d
        | none =>
          if env.createsBatch p.2 then
            d.set b (some (.directory (copyDirRecursive (env.batch p.2) entries [])))
          else d

/-- The size of the array for a line, without the zero. -/
def lineSize : ℕ := 511

def listLines (content : List Char) : List (List Char × ℕ) := (pieces lineSize content).zipIdx

/-- `LOG_PATH` and `DCM_LOG_PATH` afterwards: the list is emptied in any case. -/
def processDcmUploadList (l d : Directory Node) : Directory Node × Directory Node :=
  match l.lookup listName with
  | some (.regular content) =>
    if env.opensList then
      (if env.truncates then l.set listName (some (.regular [])) else l,
        (listLines content).foldl (addBatch env) d)
    else (l, d)
  | _ => (l, d)

def dcmSetup (s : State) : ℤ × State :=
  match createDirectory env.createsDcm (removeDirectory env.setupRemove s.dcm).2 with
  | none => (-1, { s with dcm := none })
  | some d =>
    let d := populate env s.logs d
    if ¬env.uploadFlag then (-1, { s with dcm := some d })
    else
      let d := addTimestampToFiles env d
      let s := { s with timestampPrefix := env.timestamp.getD s.timestampPrefix }
      if env.uploadOnReboot then (0, { s with dcm := some d })
      else
        let r := processDcmUploadList env (s.logs.getD []) d
        (0, { s with logs := s.logs.map fun _ => r.1, dcm := some r.2 })

/-! ### Archive, upload and cleanup -/

def dcmArchive (s : State) : ℤ × State :=
  match s.dcm with
  | none => (-1, s)
  | some d =>
    let packed := collectPcapLogs env.toPackCalls s.logs d
    let (ret, d, archiveFile) :=
      createArchive env.toPackCalls env.dcmLogPath s.archiveFile packed
    (ret, { s with
      dcm := some d
      archiveFile := archiveFile
      packed := if ret = 0 then some packed else s.packed })

/-- A name of at least six characters that ends with `.pcap`. -/
def isPacketCapture (n : Name) : Bool := 5 < n.length ∧ ".pcap".toList <:+ n

def clearOldPacketCaptures (l : Directory Node) : Directory Node :=
  if env.opensToClear then
    l.filter fun p => ¬(isPacketCapture p.1 ∧ Fits env.logPath p.1 ∧ env.removesPcap p.1)
  else l

/-- `join_path` has enough room. -/
def joinFits (dir name : List Char) : Bool :=
  dir.length + (if dir.getLast? = some '/' then 0 else 1) + name.length + 1 ≤ Archive.maxPathLength

/-- Packet captures are cleared whether the upload succeeds or not. -/
def dcmUpload (s : State) : ℤ × State :=
  if ¬joinFits env.dcmLogPath s.archiveFile then (-1, s)
  else
    let logs := if env.includePcap then s.logs.map (clearOldPacketCaptures env) else s.logs
    (env.upload, { s with sent := s.packed, logs := logs })

def dcmCleanup (_uploadSuccess : Bool) (s : State) : ℤ × State :=
  let r := removeDirectory env.cleanupRemove s.dcm
  (if r.1 then 0 else -1, { s with dcm := r.2 })

def dcmStrategyHandler : StrategyHandler State where
  setupPhase := dcmSetup env
  archivePhase := dcmArchive env
  uploadPhase := dcmUpload env
  cleanupPhase := dcmCleanup env

def State.cleanupOldArchives (s : State) : State :=
  { s with logs := s.logs.map (Reboot.cleanupOldArchives env.unlinks []) }

/-! ### What belongs into the archive -/

/-- An entry of `DCM_LOG_PATH` once the logs have been copied there. -/
def populatedAt (logs : Option (Directory Node)) (n : Name) (old : Option Node) : Option Node :=
  match (logs.getD []).lookup n with
  | none => old
  | some x => if env.opensLogs ∧ selects env (n, x) then copyNode env.tree [] n x old else old

/-- A line is the path of a directory with this name, and a directory can be created for it. -/
def Delivers (b : Name) (p : List Char × ℕ) : Bool :=
  listLine p.1 ≠ [] ∧ (env.listed (listLine p.1)).isSome ∧ baseName (listLine p.1) = b ∧
    leadsBelow b ∧ env.createsBatch p.2

def batchOf (p : List Char × ℕ) : Node :=
  .directory (copyDirRecursive (env.batch p.2) ((env.listed (listLine p.1)).getD []) [])

/-- The content of the list, if it is read. -/
def listContent (logs : Option (Directory Node)) : List Char :=
  match (logs.getD []).lookup listName with
  | some (.regular content) => if ¬env.uploadOnReboot ∧ env.opensList then content else []
  | _ => []

/-- No path is cut when the entries of `LOG_PATH` and the listed directories are copied. -/
def PathsFit (logs : Option (Directory Node)) : Bool :=
  entriesFit env.logPath env.dcmLogPath ((logs.getD []).filter (selects env)) ∧
    ∀ p ∈ listLines (listContent env logs),
      entriesFit (listLine p.1) (pathOf env.dcmLogPath (baseName (listLine p.1)))
        ((env.listed (listLine p.1)).getD [])

/-- A run that finds the two directories and the prefix that an earlier run has stored. -/
def dcmWorkflow (timestampPrefix : List Char) (logs dcm : Option (Directory Node)) :
    Option (ℤ × State) :=
  if PathsFit env (logs.map (Reboot.cleanupOldArchives env.unlinks [])) then
    some (executeStrategyWorkflow (State.cleanupOldArchives env) (dcmStrategyHandler env)
      ⟨logs, dcm, timestampPrefix, [], none, none⟩)
  else none

/-- The first of the listed directories with a name. -/
def batchAt (logs : Option (Directory Node)) (b : Name) : Option Node :=
  ((listLines (listContent env logs)).find? (Delivers env b)).map (batchOf env)

/-- `LOG_PATH` once the list has been read. -/
def listRead (logs : Option (Directory Node)) : Option (Directory Node) :=
  if env.uploadOnReboot then logs
  else logs.map fun l => (processDcmUploadList env l []).1

variable {env} {s : State} {logs dcm : Option (Directory Node)} {l d : Directory Node} {n b : Name}

/-! ### Copying -/

lemma copyEntries_eq_foldl (calls : TreeCalls) (dirs : List Name) (src dest : Directory Node) :
    copyEntries calls dirs src dest = src.foldl (fun dest e =>
      Directory.set dest e.1 (copyNode calls dirs e.1 e.2 (dest.lookup e.1))) dest := by
  induction src generalizing dest with
  | nil => rw [copyEntries, List.foldl_nil]
  | cons e src ih =>
    obtain ⟨n, x⟩ := e
    rw [copyEntries, List.foldl_cons, ih]

lemma lookup_copyEntries {calls : TreeCalls} {dirs : List Name} {src dest : Directory Node}
    (hsrc : src.names.Nodup) : (copyEntries calls dirs src dest).lookup n =
      match src.lookup n with
      | none => dest.lookup n
      | some x => copyNode calls dirs n x (dest.lookup n) := by
  have hwrites : Directory.Writes (fun (dest : Directory Node) (e : Name × Node) =>
      dest.set e.1 (copyNode calls dirs e.1 e.2 (dest.lookup e.1))) id Prod.fst
        fun e old => copyNode calls dirs e.1 e.2 old := by
    rintro dest ⟨m, x⟩ k
    simp only [id, Directory.lookup_set]
    by_cases hk : k = m
    · rw [if_pos hk, if_pos hk, hk]
    · rw [if_neg hk, if_neg hk]
  rw [copyEntries_eq_foldl]
  cases hlook : src.lookup n with
  | none => exact hwrites.lookup_of_notMem (Directory.lookup_eq_none_iff.mp hlook)
  | some x => exact hwrites.lookup_of_mem hsrc ((Directory.lookup_eq_some_iff hsrc).mp hlook)

lemma lookup_populate (hlogs : ∀ l, logs = some l → l.names.Nodup) :
    (populate env logs d).lookup n = populatedAt env logs n (d.lookup n) := by
  cases logs with
  | none => rfl
  | some l =>
    have hl := hlogs l rfl
    have hfilter : (Directory.names (l.filter (selects env))).Nodup :=
      (List.filter_sublist.map Prod.fst).nodup hl
    rw [populate, populatedAt, Option.getD_some]
    by_cases hopens : env.opensLogs
    · rw [if_pos hopens, lookup_copyEntries hfilter]
      cases hlook : l.lookup n with
      | none =>
        have hnone : (l.filter (selects env)).lookup n = none := by
          rw [Directory.lookup_eq_none_iff] at hlook ⊢
          exact fun h => hlook ((List.filter_sublist.map Prod.fst).subset h)
        rw [hnone]
      | some x =>
        have hmem := (Directory.lookup_eq_some_iff hl).mp hlook
        by_cases hsel : selects env (n, x)
        · have hsome : (l.filter (selects env)).lookup n = some x :=
            (Directory.lookup_eq_some_iff hfilter).mpr (List.mem_filter.mpr ⟨hmem, hsel⟩)
          rw [hsome]
          dsimp only
          rw [if_pos ⟨hopens, hsel⟩]
        · have hnone : (l.filter (selects env)).lookup n = none := by
            rw [Directory.lookup_eq_none_iff]
            intro h
            obtain ⟨y, hy⟩ := Directory.mem_names_iff.mp h
            obtain ⟨hy, hsely⟩ := List.mem_filter.mp hy
            have heq := (Directory.lookup_eq_some_iff hl).mpr hy
            obtain rfl := Option.some.inj (hlook.symm.trans heq)
            exact hsel hsely
          rw [hnone]
          dsimp only
          rw [if_neg fun h => hsel h.2]
    · rw [if_neg hopens]
      cases l.lookup n with
      | none => rfl
      | some x => exact (if_neg fun h => hopens h.1).symm

/-! ### The list -/

/-- Nothing changes under the other names. -/
lemma lookup_addBatch_of_ne {p : List Char × ℕ} (hb : baseName (listLine p.1) ≠ b) :
    (addBatch env d p).lookup b = d.lookup b := by
  rw [addBatch]
  by_cases hline : listLine p.1 = []
  · rw [if_pos hline]
  rw [if_neg hline]
  cases env.listed (listLine p.1) with
  | none => rfl
  | some entries =>
    dsimp only
    by_cases hbelow : ¬leadsBelow (baseName (listLine p.1))
    · rw [if_pos hbelow]
    rw [if_neg hbelow]
    cases d.lookup (baseName (listLine p.1)) with
    | some x => rfl
    | none =>
      dsimp only
      split_ifs
      · rw [Directory.lookup_set, if_neg hb.symm]
      · rfl

/-- What is there already stays. -/
lemma lookup_addBatch_of_some {p : List Char × ℕ} {x : Node} (hx : d.lookup b = some x) :
    (addBatch env d p).lookup b = some x := by
  by_cases hb : baseName (listLine p.1) = b
  · subst hb
    rw [addBatch]
    by_cases hline : listLine p.1 = []
    · rw [if_pos hline, hx]
    rw [if_neg hline]
    cases env.listed (listLine p.1) with
    | none => exact hx
    | some entries =>
      dsimp only
      by_cases hbelow : ¬leadsBelow (baseName (listLine p.1))
      · rw [if_pos hbelow, hx]
      rw [if_neg hbelow, hx]
      exact hx
  · rw [lookup_addBatch_of_ne hb, hx]

lemma lookup_addBatch_of_none {p : List Char × ℕ} (hnone : d.lookup b = none) :
    (addBatch env d p).lookup b = if Delivers env b p then some (batchOf env p) else none := by
  by_cases hb : baseName (listLine p.1) = b
  · subst hb
    rw [addBatch, Delivers, batchOf]
    by_cases hline : listLine p.1 = []
    · rw [if_pos hline, hnone]
      simp [hline]
    rw [if_neg hline]
    cases hlisted : env.listed (listLine p.1) with
    | none => simp [hnone]
    | some entries =>
      dsimp only
      by_cases hbelow : ¬leadsBelow (baseName (listLine p.1))
      · rw [if_pos hbelow, hnone]
        simp [hbelow]
      rw [if_neg hbelow, hnone]
      dsimp only
      by_cases hcreates : env.createsBatch p.2
      · rw [if_pos hcreates, Directory.lookup_set, if_pos rfl]
        simp [hline, hcreates, not_not.mp hbelow]
      · rw [if_neg hcreates, hnone]
        simp [hcreates]
  · rw [lookup_addBatch_of_ne hb, hnone]
    simp [Delivers, hb]

/-- The first directory with a name is the one that is copied. -/
theorem lookup_foldl_addBatch (lines : List (List Char × ℕ)) :
    (lines.foldl (addBatch env) d).lookup b =
      (d.lookup b).or ((lines.find? (Delivers env b)).map (batchOf env)) := by
  induction lines generalizing d with
  | nil => simp
  | cons p lines ih =>
    rw [List.foldl_cons, ih]
    cases hlook : d.lookup b with
    | some x =>
      rw [lookup_addBatch_of_some hlook]
      rfl
    | none =>
      rw [lookup_addBatch_of_none hlook, List.find?_cons]
      by_cases hdelivers : Delivers env b p
      · simp [hdelivers]
      · simp [hdelivers]

variable (env l) in
lemma fst_processDcmUploadList (d d' : Directory Node) :
    (processDcmUploadList env l d).1 = (processDcmUploadList env l d').1 := by
  rw [processDcmUploadList, processDcmUploadList]
  cases l.lookup listName with
  | none => rfl
  | some x =>
    cases x with
    | regular content =>
      dsimp only
      split_ifs <;> rfl
    | directory entries => rfl
    | other => rfl

lemma snd_processDcmUploadList (h : ¬env.uploadOnReboot) : (processDcmUploadList env
    (logs.getD []) d).2 = (listLines (listContent env logs)).foldl (addBatch env) d := by
  rw [processDcmUploadList, listContent]
  cases (logs.getD []).lookup listName with
  | none => rfl
  | some x =>
    cases x with
    | regular content =>
      dsimp only
      by_cases hopens : env.opensList
      · have hread : ¬env.uploadOnReboot ∧ env.opensList := ⟨h, hopens⟩
        rw [if_pos hopens, if_pos hread]
      · rw [if_neg hopens, if_neg fun h => hopens h.2]
        rfl
    | directory entries => rfl
    | other => rfl

lemma lookup_listRead (hn : n ≠ listName) :
    ((listRead env logs).getD []).lookup n = (logs.getD []).lookup n := by
  rw [listRead]
  by_cases hreboot : env.uploadOnReboot
  · rw [if_pos hreboot]
  rw [if_neg hreboot]
  cases logs with
  | none => rfl
  | some l =>
    rw [Option.map_some, Option.getD_some, Option.getD_some, processDcmUploadList]
    cases l.lookup listName with
    | none => rfl
    | some x =>
      cases x with
      | regular content =>
        dsimp only
        split_ifs
        · rw [Directory.lookup_set, if_neg hn]
        · rfl
        · rfl
      | directory entries => rfl
      | other => rfl

/-- The list is emptied when it is read. -/
lemma lookup_listRead_list {content : List Char}
    (hlist : (logs.getD []).lookup listName = some (.regular content))
    (hread : ¬env.uploadOnReboot ∧ env.opensList ∧ env.truncates) :
    ((listRead env logs).getD []).lookup listName = some (.regular []) := by
  obtain ⟨hreboot, hopens, htruncates⟩ := hread
  rw [listRead, if_neg hreboot]
  cases logs with
  | none => cases hlist
  | some l =>
    rw [Option.getD_some] at hlist
    rw [Option.map_some, Option.getD_some, processDcmUploadList, hlist]
    dsimp only
    rw [if_pos hopens, if_pos htruncates, Directory.lookup_set, if_pos rfl]

/-! ### The phases one by one -/

/-- What the setup leaves alone. -/
def State.frame (s : State) : Name × Option (Directory Node) × Option (Directory Node) :=
  (s.archiveFile, s.packed, s.sent)

/-- How a setup can end. -/
inductive SetupRule (env : Env) (s : State) : ℤ × State → Prop where
  | failed (s') (hlogs : s'.logs = s.logs) (hframe : s'.frame = s.frame) : SetupRule env s (-1, s')
  | done (s' d) (hlogs : s'.logs = listRead env s.logs) (hframe : s'.frame = s.frame)
      (hd : createDirectory env.createsDcm (removeDirectory env.setupRemove s.dcm).2 = some d)
      (hdcm : s'.dcm = some ((listLines (listContent env s.logs)).foldl (addBatch env)
        (addTimestampToFiles env (populate env s.logs d)))) : SetupRule env s (0, s')

variable (env s) in
lemma SetupRule.of_dcmSetup : SetupRule env s (dcmSetup env s) := by
  rw [dcmSetup]
  cases hcreate : createDirectory env.createsDcm (removeDirectory env.setupRemove s.dcm).2 with
  | none => exact .failed _ rfl rfl
  | some d =>
    dsimp only
    by_cases hflag : ¬env.uploadFlag
    · rw [if_pos hflag]
      exact .failed _ rfl rfl
    rw [if_neg hflag]
    by_cases hreboot : env.uploadOnReboot
    · rw [if_pos hreboot]
      refine .done _ d ?_ rfl hcreate ?_
      · exact (if_pos hreboot).symm
      · have hcontent : listContent env s.logs = [] := by
          rw [listContent]
          cases (s.logs.getD []).lookup listName with
          | none => rfl
          | some x =>
            cases x with
            | regular content => exact if_neg fun h => h.1 hreboot
            | directory entries => rfl
            | other => rfl
        rw [hcontent]
        rfl
    · rw [if_neg hreboot]
      refine .done _ d ?_ rfl hcreate ?_
      · rw [listRead, if_neg hreboot]
        cases s.logs with
        | none => rfl
        | some l => exact congrArg some (fst_processDcmUploadList env l _ _)
      · exact congrArg some (snd_processDcmUploadList hreboot)

lemma logs_dcmArchive (env : Env) (s : State) : (dcmArchive env s).2.logs = s.logs := by
  rw [dcmArchive]
  cases s.dcm <;> rfl

lemma sent_dcmArchive (env : Env) (s : State) : (dcmArchive env s).2.sent = s.sent := by
  rw [dcmArchive]
  cases s.dcm <;> rfl

lemma packed_dcmArchive (h : (dcmArchive env s).1 = 0) :
    (dcmArchive env s).2.packed = s.dcm.map (collectPcapLogs env.toPackCalls s.logs) := by
  rw [dcmArchive] at h ⊢
  cases hdcm : s.dcm with
  | none =>
    rw [hdcm] at h
    cases h
  | some d =>
    rw [hdcm] at h
    exact if_pos h

/-- Only what has been archived is uploaded. -/
lemma packed_of_sent_dcmUpload (hsent : s.sent = none) (h : (dcmUpload env s).2.sent = some d) :
    s.packed = some d := by
  rw [dcmUpload] at h
  by_cases hfits : ¬joinFits env.dcmLogPath s.archiveFile
  · rw [if_pos hfits] at h
    exact absurd (hsent.symm.trans h) (by simp)
  · rw [if_neg hfits] at h
    exact h

/-- Only packet captures go from `LOG_PATH`. -/
lemma lookup_dcmUpload (hn : ¬(env.includePcap ∧ isPacketCapture n)) :
    ((dcmUpload env s).2.logs.getD []).lookup n = (s.logs.getD []).lookup n := by
  rw [dcmUpload]
  by_cases hfits : ¬joinFits env.dcmLogPath s.archiveFile
  · rw [if_pos hfits]
  rw [if_neg hfits]
  dsimp only
  by_cases hpcap : env.includePcap
  · rw [if_pos hpcap]
    cases s.logs with
    | none => rfl
    | some l =>
      rw [Option.map_some, Option.getD_some, Option.getD_some, clearOldPacketCaptures]
      split_ifs
      · have hfilter := Directory.lookup_filter (d := l) (n := n) fun m =>
          ¬(isPacketCapture m ∧ Fits env.logPath m ∧ env.removesPcap m)
        rw [hfilter, if_pos]
        simp only [decide_eq_true_eq]
        exact fun h => hn ⟨hpcap, h.1⟩
      · rfl
  · rw [if_neg hpcap]

/-! ### Runs -/

lemma nodup_cleaned (hlogs : ∀ l, logs = some l → l.names.Nodup) :
    ∀ l, logs.map (Reboot.cleanupOldArchives env.unlinks []) = some l →
      (Directory.names l).Nodup := by
  intro l hl
  obtain ⟨l', hl', rfl⟩ := Option.map_eq_some_iff.mp hl
  exact (names_cleanupOldArchives _ _ l').nodup (hlogs l' hl')

variable (env s) in
/-- No phase touches the other files of `LOG_PATH`. -/
lemma lookup_runPhases (hlist : n ≠ listName) (hpcap : ¬(env.includePcap ∧ isPacketCapture n)) :
    ((runPhases (dcmStrategyHandler env) s).2.2.logs.getD []).lookup n =
      (s.logs.getD []).lookup n := by
  have hkeep := Reboot.runPhases_preserves (dcmStrategyHandler env)
    (fun s => (s.logs.getD []).lookup n) (fun s => by
      change ((dcmArchive env s).2.logs.getD []).lookup n = _
      rw [logs_dcmArchive]) (fun s => lookup_dcmUpload hpcap) s
  refine hkeep.trans ?_
  change ((dcmSetup env s).2.logs.getD []).lookup n = _
  have hrule := SetupRule.of_dcmSetup env s
  generalize dcmSetup env s = r at hrule ⊢
  cases hrule with
  | failed s' hlogs _ => rw [hlogs]
  | done s' d hlogs _ _ _ =>
    rw [hlogs]
    exact lookup_listRead hlist

/-- What is archived and uploaded, and what is in `LOG_PATH` then. -/
lemma sent_runPhases (hsent : s.sent = none) (hlogs : ∀ l, s.logs = some l → l.names.Nodup)
    (h : (runPhases (dcmStrategyHandler env) s).2.2.sent = some d) :
    (∃ p, (∀ n, p.lookup n = populatedAt env s.logs n
        (((removeDirectory env.setupRemove s.dcm).2.getD []).lookup n)) ∧
      ∀ n, d.lookup n = capturedAt env.toPackCalls (listRead env s.logs) n
        (((addTimestampToFiles env p).lookup n).or (batchAt env s.logs n))) ∧
      ∀ n, ¬(env.includePcap ∧ isPacketCapture n) →
        ((runPhases (dcmStrategyHandler env) s).2.2.logs.getD []).lookup n =
          ((listRead env s.logs).getD []).lookup n := by
  have hrule := SetupRule.of_dcmSetup env s
  have hframe : (dcmSetup env s).2.sent = none := by
    generalize dcmSetup env s = r at hrule ⊢
    cases hrule with
    | failed s' _ hframe => exact (congrArg (·.2.2) hframe).trans hsent
    | done s' d _ hframe _ _ => exact (congrArg (·.2.2) hframe).trans hsent
  simp only [runPhases] at h ⊢
  split_ifs at h ⊢ with hsetup harchive
  · exact absurd (hframe.symm.trans h) (by simp)
  · have hnone := (sent_dcmArchive env (dcmSetup env s).2).trans hframe
    exact absurd (hnone.symm.trans h) (by simp)
  · have hnone := (sent_dcmArchive env (dcmSetup env s).2).trans hframe
    have hpacked : (dcmArchive env (dcmSetup env s).2).2.packed =
        (dcmSetup env s).2.dcm.map
          (collectPcapLogs env.toPackCalls (dcmSetup env s).2.logs) :=
      packed_dcmArchive (not_not.mp harchive)
    have hkept : ∀ n, ¬(env.includePcap ∧ isPacketCapture n) →
        ((dcmUpload env (dcmArchive env (dcmSetup env s).2).2).2.logs.getD []).lookup n =
          ((dcmSetup env s).2.logs.getD []).lookup n := by
      intro n hn
      rw [lookup_dcmUpload hn, logs_dcmArchive]
    have hd := hpacked.symm.trans (packed_of_sent_dcmUpload hnone h)
    have hzero := not_not.mp hsetup
    change (dcmSetup env s).1 = 0 at hzero
    change (∃ p, _) ∧ ∀ n, _ → ((dcmUpload env (dcmArchive env (dcmSetup env s).2).2).2.logs.getD
      []).lookup n = _
    generalize dcmSetup env s = r at hrule hzero hd hkept ⊢
    cases hrule with
    | failed s' _ _ => cases hzero
    | done s' d₀ hlogs' _ hd₀ hdcm =>
      rw [hdcm, hlogs'] at hd
      obtain rfl := Option.some.inj hd
      refine ⟨⟨populate env s.logs d₀, fun n => ?_, fun n => ?_⟩, fun n hn => ?_⟩
      · rw [lookup_populate hlogs, eq_of_createDirectory hd₀]
      · rw [Reboot.lookup_collectPcapLogs, lookup_foldl_addBatch]
        rfl
      · rw [hkept n hn, hlogs']

def plainTree : TreeCalls := ⟨fun _ => plainCopy, fun _ => true, fun _ => true⟩

/-- All calls succeed, but for the time, which cannot be told. -/
def sampleEnv : Env where
  logPath := "/opt/logs".toList
  dcmLogPath := "/tmp/DCM".toList
  uploadOnReboot := false
  includePcap := false
  unlinks _ := true
  setupRemove := ⟨fun _ => true, true, true⟩
  createsDcm := true
  opensLogs := true
  tree := plainTree
  uploadFlag := true
  timestamp := none
  readdir d := some d.names
  renames _ := true
  opensList := true
  listed p := if p = "/a/batch".toList then some [("a.log".toList, .regular [])]
    else if p = "/b/batch".toList then some [("b.log".toList, .regular [])] else none
  createsBatch _ := true
  batch _ := plainTree
  truncates := true
  opensForPcap := true
  modTime _ := none
  pcapCopy := plainCopy
  archiveName := some "A84A_Logs_11-25-25-02-30PM.tgz".toList
  archive _ := (0, some .other)
  upload := -1
  opensToClear := true
  removesPcap _ := true
  cleanupRemove := ⟨fun _ => true, true, true⟩

def sampleLogs : Directory Node := [("messages.txt".toList, .regular []),
  (listName, .regular "/a/batch\n/b/batch\n".toList)]

end Dcm

end DcmAgent.Strategies
