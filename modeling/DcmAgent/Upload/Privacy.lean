import Mathlib
import DcmAgent.Archive.Writer
import DcmAgent.Upload.Blocks

/-!
# Privacy

On a media client whose user does not share, a run is to clear the logs instead of uploading them.
The decision is one of the early checks, and `uploadlogsnow` is dispatched before them.
-/

namespace DcmAgent.Upload

open Archive (maxPathLength)

/-! ### Clearing the logs -/

/-- What a path leads to. A regular file may not be open to writing. -/
inductive FileNode where
  | regular (content : List Char) (writable : Bool)
  | directory
  | symlink
  | special
  deriving DecidableEq, Repr

/-- Open for writing with truncation, without following a link. -/
def FileNode.truncate : FileNode → FileNode
  | .regular _ true => .regular [] true
  | node => node

/-- The files of a device: the entries of the log directory, if it is one, the file that the path
of the lock leads to, and the others. -/
structure Files where
  logPath : List Char
  logPath_lt : logPath.length < maxPathLength
  logDir : Option (List (List Char × FileNode))
  listable : Bool
  lockFile : Option (List Char)
  elsewhere : List Char → Option FileNode

/-- An entry of the log directory. -/
def Files.node (fs : Files) (name : List Char) : Option FileNode :=
  fs.logDir.bind (·.lookup name)

def truncateEntry (name : List Char) (entries : List (List Char × FileNode)) :
    List (List Char × FileNode) :=
  entries.map fun e => if e.1 = name then (e.1, e.2.truncate) else e

/-- Truncate what a path leads to. The log directory itself is not truncated. -/
def Files.truncate (fs : Files) (path : List Char) : Files :=
  if path.take (fs.logPath.length + 1) = fs.logPath ++ ['/'] then
    { fs with logDir := fs.logDir.map (truncateEntry (path.drop (fs.logPath.length + 1))) }
  else if path = fs.logPath then fs
  else
    { fs with
      elsewhere := fun p => if p = path then (fs.elsewhere p).map .truncate else fs.elsewhere p }

def isHidden (name : List Char) : Prop := name.head? = some '.'

instance (name : List Char) : Decidable (isHidden name) := inferInstanceAs (Decidable (_ = _))

/-- The turn of the loop for a name. The path is cut off. -/
def clearEntry (fs : Files) (name : List Char) : Files :=
  if isHidden name then fs
  else fs.truncate ((fs.logPath ++ '/' :: name).take (maxPathLength - 1))

def enforcePrivacy (fs : Files) : Files :=
  match fs.logDir with
  | none => fs
  | some entries => if ¬fs.listable then fs else (entries.map (·.1)).foldl clearEntry fs

/-- The lock is opened with truncation. -/
def acquireLock (fs : Files) : Files := { fs with lockFile := some [] }

/-! ### Requests -/

/-- A workflow opens its archive after the set-up. -/
def workflowArchives (env : RunEnv) (strategy : Strategy) : Prop :=
  (getStrategyHandler env strategy).isSome ∧ env.setupOk ∧ env.archive ≠ .refused

def strategyArchives (env : RunEnv) (ctx : Context) : Prop :=
  match earlyChecks ctx with
  | .privacyAbort => False
  | .rrd => False
  | strategy => workflowArchives env strategy

/-- `uploadlogsnow` opens its archive for the files it has copied. -/
def uploadlogsnowArchives (env : RunEnv) : Prop :=
  env.dcmDirCreated ∧ 0 < env.copiedFiles ∧ env.archive ≠ .refused

/-- The request creates an archive, which may stay incomplete. -/
def Request.Archives (env : RunEnv) (r : Request) : Prop :=
  env.lockAcquired ∧ env.parametersLoaded ∧
    if (r.context env).uploadlogsnowMode then uploadlogsnowArchives env
    else env.systemValid ∧ strategyArchives env (r.context env)

/-- The request passes the lock and the validation, which `uploadlogsnow` does without. -/
def Request.Validated (env : RunEnv) (r : Request) : Prop :=
  env.lockAcquired ∧ env.parametersLoaded ∧ ¬(r.context env).uploadlogsnowMode ∧ env.systemValid

/-- The files after a validated request that has been aborted for privacy; what the workflows do to
them is not told here. -/
def Request.files (env : RunEnv) (r : Request) (fs : Files) : Option Files :=
  if earlyChecks (r.context env) = .privacyAbort then some (enforcePrivacy (acquireLock fs))
  else none

/-! ### What is to hold -/

def doNotShare : List Char := "do_not_share".toList

/-- The flag of the context, from the parameter if it can be read. -/
def loadPrivacyMode (privacyMode : Option (List Char)) : Bool :=
  privacyMode.any fun mode => mode.map Char.toLower = doNotShare

/-- A media client that does not share, letter case aside. -/
structure DoesNotShare (env : RunEnv) (mode : List Char) : Prop where
  deviceType : env.deviceType.map Char.toLower = "mediaclient".toList
  privacyMode : mode.map Char.toLower = doNotShare
  loaded : env.privacyDoNotShare = loadPrivacyMode (some mode)

/-- The log files are empty, those aside that cannot be opened. -/
def Cleared (fs : Files) : Prop :=
  ∀ name content, fs.node name = some (.regular content true) → ¬isHidden name → content = []

/-- Nothing else has been truncated. -/
structure OthersKept (fs fs' : Files) : Prop where
  elsewhere : fs'.elsewhere = fs.elsewhere
  lockFile : ∀ content ∈ fs.lockFile, fs'.lockFile = some content
  hidden : ∀ name, isHidden name → fs'.node name = fs.node name
  other : ∀ name, (∀ content, fs.node name ≠ some (.regular content true)) →
    fs'.node name = fs.node name

/-- No path is attempted, no archive created, and a validated request clears the logs and nothing
else. -/
structure Private (env : RunEnv) (fs : Files) (r : Request) : Prop where
  cycles : ∀ c ∈ (r.exec env).2.cycles, c.attempted = []
  archives : ¬r.Archives env
  cleared : r.Validated env → ∃ fs' ∈ r.files env fs, Cleared fs' ∧ OthersKept fs fs'

/-- `uploadlogsnow` with files to copy and an archive that can be opened, past the lock and the
context. -/
def UploadsNow (env : RunEnv) (r : Request) : Prop :=
  (r.context env).uploadlogsnowMode ∧ env.lockAcquired ∧ env.parametersLoaded ∧
    uploadlogsnowArchives env

/-- The lock is empty, and each log file is empty or has a path that fits, in a directory that can
be listed. -/
structure Clearable (fs : Files) : Prop where
  lockFile : ∀ content ∈ fs.lockFile, content = []
  logs : ∀ name content, fs.node name = some (.regular content true) → ¬isHidden name →
    content = [] ∨ fs.listable ∧ fs.logPath.length + 1 + name.length < maxPathLength

variable {env : RunEnv} {fs : Files} {r : Request} {name : List Char} {mode : List Char}
  {entries : List (List Char × FileNode)} {names : List (List Char)}

/-! ### The entries of the log directory -/

@[simp] lemma truncate_truncate (node : FileNode) : node.truncate.truncate = node.truncate := by
  cases node with
  | regular content writable => cases writable <;> rfl
  | _ => rfl

lemma lookup_truncateEntry (n : List Char) : (truncateEntry n entries).lookup name =
    if name = n then (entries.lookup name).map .truncate else entries.lookup name := by
  induction entries with
  | nil => simp [truncateEntry]
  | cons e entries ih =>
    have ih' : (entries.map fun e => if e.1 = n then (e.1, e.2.truncate) else e).lookup name =
        if name = n then (entries.lookup name).map .truncate else entries.lookup name := ih
    simp only [truncateEntry, List.map_cons]
    by_cases he : name = e.1
    · subst he
      by_cases hn : e.1 = n <;> simp [hn, List.lookup]
    · have hne : (name == e.1) = false := by simpa using he
      by_cases hn : e.1 = n
      · subst hn
        simp [List.lookup, hne, ih', he]
      · simp [List.lookup, hne, ih', hn]

/-- The name that the path buffer has room for. -/
def cutName (fs : Files) (name : List Char) : List Char :=
  name.take (maxPathLength - 1 - (fs.logPath.length + 1))

lemma clearEntry_eq (fs : Files) (name : List Char) : clearEntry fs name =
    if ¬isHidden name ∧ fs.logPath.length + 1 < maxPathLength then
      { fs with logDir := fs.logDir.map (truncateEntry (cutName fs name)) }
    else fs := by
  unfold clearEntry
  by_cases hhidden : isHidden name
  · rw [if_pos hhidden, if_neg fun h => h.1 hhidden]
  rw [if_neg hhidden]
  by_cases hlen : fs.logPath.length + 1 < maxPathLength
  · have hpath : (fs.logPath ++ '/' :: name).take (maxPathLength - 1) =
        (fs.logPath ++ ['/']) ++ cutName fs name := by
      rw [List.append_cons, List.take_append, List.take_of_length_le, cutName,
        List.length_append, List.length_singleton]
      simp only [List.length_append, List.length_singleton]
      omega
    have hlength : (fs.logPath ++ ['/']).length = fs.logPath.length + 1 := by simp
    rw [if_pos ⟨hhidden, hlen⟩, hpath, Files.truncate, ← hlength, List.take_left, if_pos rfl,
      List.drop_left]
  · have hpath : (fs.logPath ++ '/' :: name).take (maxPathLength - 1) = fs.logPath := by
      have := fs.logPath_lt
      rw [List.take_append_of_le_length (by omega), List.take_of_length_le (by omega)]
    rw [if_neg fun h => hlen h.2, hpath, Files.truncate, if_neg, if_pos rfl]
    intro h
    simpa using congrArg List.length h

/-- The loop gets to a name: one that it does not skip is cut off to it. -/
def Reaches (fs : Files) (names : List (List Char)) (name : List Char) : Prop :=
  fs.logPath.length + 1 < maxPathLength ∧ ∃ m ∈ names, ¬isHidden m ∧ cutName fs m = name

open Classical in
lemma node_clearEntry (fs : Files) (m name : List Char) : (clearEntry fs m).node name =
    if Reaches fs [m] name then (fs.node name).map .truncate else fs.node name := by
  rw [clearEntry_eq]
  by_cases h : ¬isHidden m ∧ fs.logPath.length + 1 < maxPathLength
  · have hreaches : Reaches fs [m] name ↔ name = cutName fs m := by
      simp [Reaches, h.1, h.2, eq_comm]
    rw [if_pos h]
    simp only [Files.node, Option.bind_map, Function.comp_def, lookup_truncateEntry, hreaches]
    by_cases hname : name = cutName fs m
    · simp only [if_pos hname]
      cases fs.logDir <;> rfl
    · simp only [if_neg hname]
  · rw [if_neg h, if_neg]
    rintro ⟨hlen, m', hm', hhidden, -⟩
    rw [List.mem_singleton.mp hm'] at hhidden
    exact h ⟨hhidden, hlen⟩

@[simp] lemma logPath_clearEntry : (clearEntry fs name).logPath = fs.logPath := by
  rw [clearEntry_eq]
  split_ifs <;> rfl

@[simp] lemma elsewhere_clearEntry : (clearEntry fs name).elsewhere = fs.elsewhere := by
  rw [clearEntry_eq]
  split_ifs <;> rfl

@[simp] lemma lockFile_clearEntry : (clearEntry fs name).lockFile = fs.lockFile := by
  rw [clearEntry_eq]
  split_ifs <;> rfl

/-- What the loop does, over all names. -/
structure ClearedBy (names : List (List Char)) (fs fs' : Files) : Prop where
  logPath : fs'.logPath = fs.logPath
  elsewhere : fs'.elsewhere = fs.elsewhere
  lockFile : fs'.lockFile = fs.lockFile
  reached : ∀ name, Reaches fs names name → fs'.node name = (fs.node name).map .truncate
  notReached : ∀ name, ¬Reaches fs names name → fs'.node name = fs.node name

lemma clearedBy_foldl (names : List (List Char)) (fs : Files) :
    ClearedBy names fs (names.foldl clearEntry fs) := by
  induction names generalizing fs with
  | nil => exact ⟨rfl, rfl, rfl, fun name h => by simp [Reaches] at h, fun _ _ => rfl⟩
  | cons m names ih =>
    obtain ⟨hpath, helse, hlock, hreached, hnot⟩ := ih (clearEntry fs m)
    have hcons (name : List Char) :
        Reaches fs (m :: names) name ↔ Reaches fs [m] name ∨ Reaches fs names name := by
      simp only [Reaches, List.exists_mem_cons_iff, List.not_mem_nil, false_and, exists_false,
        or_false, and_or_left]
    have hsame (name : List Char) :
        Reaches (clearEntry fs m) names name ↔ Reaches fs names name := by
      simp [Reaches, cutName]
    refine ⟨by simpa using hpath, by simpa using helse, by simpa using hlock, ?_, ?_⟩
    · intro name h
      rw [List.foldl_cons]
      by_cases hrest : Reaches fs names name
      · rw [hreached name ((hsame name).mpr hrest), node_clearEntry]
        split_ifs
        · cases fs.node name <;> simp
        · rfl
      · rw [hnot name (hrest ∘ (hsame name).mp), node_clearEntry,
          if_pos (((hcons name).mp h).resolve_right hrest)]
    · intro name h
      rw [hcons, not_or] at h
      rw [List.foldl_cons, hnot name (h.2 ∘ (hsame name).mp), node_clearEntry, if_neg h.1]

/-- A name that is reached is not hidden, and its path fits. -/
lemma Reaches.fits (h : Reaches fs names name) :
    ¬isHidden name ∧ fs.logPath.length + 1 + name.length < maxPathLength := by
  obtain ⟨hlen, m, -, hhidden, rfl⟩ := h
  constructor
  · intro hdot
    apply hhidden
    rw [isHidden, cutName] at hdot
    cases m with
    | nil => simp at hdot
    | cons c m =>
      cases hk : maxPathLength - 1 - (fs.logPath.length + 1) with
      | zero => simp [hk] at hdot
      | succ k => simpa [hk, isHidden] using hdot
  · simp only [cutName, List.length_take]
    omega

/-- Every entry whose path fits is reached. -/
lemma reaches_of_fits (hmem : name ∈ names) (hhidden : ¬isHidden name)
    (hfits : fs.logPath.length + 1 + name.length < maxPathLength) : Reaches fs names name := by
  refine ⟨by omega, name, hmem, hhidden, ?_⟩
  exact List.take_of_length_le (by omega)

lemma mem_names_of_lookup {node : FileNode} (h : entries.lookup name = some node) :
    name ∈ entries.map (·.1) := by
  induction entries with
  | nil => simp at h
  | cons e entries ih =>
    by_cases he : name = e.1
    · simp [he]
    · have hne : (name == e.1) = false := by simpa using he
      rw [List.lookup, hne] at h
      exact List.mem_cons_of_mem _ (ih h)

/-- The loop goes over the entries of a directory that can be listed. -/
lemma enforcePrivacy_spec (fs : Files) : ∃ names, ClearedBy names fs (enforcePrivacy fs) ∧
    (∀ name ∈ names, fs.listable) ∧
      ∀ name node, fs.node name = some node → fs.listable → name ∈ names := by
  have hnone : ClearedBy [] fs fs := clearedBy_foldl [] fs
  unfold enforcePrivacy
  cases hdir : fs.logDir with
  | none => exact ⟨[], hnone, by simp, by simp [Files.node, hdir]⟩
  | some entries =>
    by_cases hlist : fs.listable
    · refine ⟨entries.map (·.1), by simpa [hlist] using clearedBy_foldl _ fs, fun _ _ => hlist, ?_⟩
      intro name node hnode _
      rw [Files.node, hdir] at hnode
      exact mem_names_of_lookup hnode
    · exact ⟨[], by simpa [hlist] using hnone, by simp, by simp [hlist]⟩

lemma truncate_eq_regular_iff {node : FileNode} {content : List Char} :
    node.truncate = .regular content true ↔ content = [] ∧ ∃ c, node = .regular c true := by
  cases node with
  | regular c writable => cases writable <;> simp [FileNode.truncate, eq_comm]
  | _ => simp [FileNode.truncate]

lemma truncate_eq_self {node : FileNode} (h : ∀ content, node ≠ .regular content true) :
    node.truncate = node := by
  cases node with
  | regular content writable =>
    cases writable with
    | false => rfl
    | true => exact absurd rfl (h content)
  | _ => rfl

/-- The loop clears the log files and nothing else, exactly when they can be cleared. -/
lemma cleared_iff_clearable (fs : Files) :
    Cleared (enforcePrivacy (acquireLock fs)) ∧ OthersKept fs (enforcePrivacy (acquireLock fs)) ↔
      Clearable fs := by
  obtain ⟨names, ⟨-, helse, hlock, hreached, hnot⟩, hlisted, hnames⟩ :=
    enforcePrivacy_spec (acquireLock fs)
  have hnode (name : List Char) : (acquireLock fs).node name = fs.node name := rfl
  constructor
  · rintro ⟨hcleared, hkept⟩
    constructor
    · intro content hcontent
      have hsome := hkept.lockFile content hcontent
      rw [hlock] at hsome
      exact (Option.some.inj hsome).symm
    · intro name content hname hhidden
      by_cases hr : Reaches (acquireLock fs) names name
      · obtain ⟨m, hm, -⟩ := hr.2
        exact Or.inr ⟨hlisted m hm, hr.fits.2⟩
      · exact Or.inl (hcleared name content ((hnot name hr).trans hname) hhidden)
  · intro h
    refine ⟨?_, helse, ?_, ?_, ?_⟩
    · intro name content hname hhidden
      by_cases hr : Reaches (acquireLock fs) names name
      · rw [hreached name hr, Option.map_eq_some_iff] at hname
        obtain ⟨node, -, hnode⟩ := hname
        exact (truncate_eq_regular_iff.mp hnode).1
      · rw [hnot name hr] at hname
        rcases h.logs name content hname hhidden with hempty | ⟨hlist, hfits⟩
        · exact hempty
        · exact absurd (reaches_of_fits (hnames name _ hname hlist) hhidden hfits) hr
    · intro content hcontent
      rw [hlock, h.lockFile content hcontent]
      rfl
    · intro name hhidden
      exact hnot name fun hr => hr.fits.1 hhidden
    · intro name hother
      by_cases hr : Reaches (acquireLock fs) names name
      · rw [hreached name hr, hnode]
        cases hname : fs.node name with
        | none => rfl
        | some node =>
          rw [Option.map_some, truncate_eq_self]
          intro content heq
          exact hother content (heq ▸ hname)
      · exact hnot name hr

/-! ### Requests of those who do not share -/

lemma DoesNotShare.isPrivacyMode (h : DoesNotShare env mode) (r : Request) :
    isPrivacyMode (r.context env) = true := by
  have hdevice : (r.context env).deviceType = env.deviceType := by
    cases r with
    | run params => rfl
    | execute argv =>
      simp only [Request.context, parseArgs]
      split_ifs <;> rfl
  have hprivacy : (r.context env).privacyDoNotShare = env.privacyDoNotShare := by
    cases r with
    | run params => rfl
    | execute argv =>
      simp only [Request.context, parseArgs]
      split_ifs <;> rfl
  have hne : env.deviceType ≠ [] := by
    intro hnil
    have := h.deviceType
    rw [hnil] at this
    exact absurd this (by decide)
  rw [Upload.isPrivacyMode, hdevice, hprivacy, if_neg, h.loaded]
  · simp [loadPrivacyMode, h.privacyMode]
  · rintro (hnil | hother)
    · exact hne hnil
    · exact hother h.deviceType

/-- The early checks abort such a request, unless it uploads a file of the RRD. -/
lemma DoesNotShare.earlyChecks (h : DoesNotShare env mode)
    (hrrd : (r.context env).rrdFlag ≠ 1) :
    earlyChecks (r.context env) = .privacyAbort := by
  rw [Upload.earlyChecks, if_neg hrrd, if_pos (h.isPrivacyMode r)]

/-- Only `uploadlogsnow` gets to the engine, with its archive. -/
lemma DoesNotShare.cycles (h : DoesNotShare env mode) (hrrd : (r.context env).rrdFlag ≠ 1)
    (hnow : ¬UploadsNow env r) : (r.exec env).2.cycles = [] := by
  have hcheck := h.earlyChecks hrrd
  cases r with
  | run params =>
    simp only [Request.context] at hcheck
    simp only [Request.exec, uploadstblogsRun, runStrategy, hcheck]
    split_ifs <;> rfl
  | execute argv =>
    simp only [Request.context] at hcheck
    simp only [UploadsNow, Request.context, uploadlogsnowArchives] at hnow
    simp only [Request.exec, uploadstblogsExecute, runStrategy, hcheck]
    by_cases hlock : env.lockAcquired
    · by_cases hparams : env.parametersLoaded
      · by_cases hmode : (parseArgs argv (initContext env).2.1).uploadlogsnowMode
        · have hinit : (initContext env).1 = true := hparams
          simp only [hlock, hinit, hmode, not_true_eq_false, if_false, if_true]
          unfold executeUploadlogsnowWorkflow
          by_cases hdir : env.dcmDirCreated
          · simp only [hdir, not_true_eq_false, if_false]
            by_cases harchive : env.archive = .complete
            · have hcopied : ¬0 < env.copiedFiles := fun hpos =>
                hnow ⟨hmode, hlock, hparams, hdir, hpos, by simp [harchive]⟩
              split_ifs
              · rfl
              · rfl
              all_goals omega
            · simp only [RunEnv.archiveOk, harchive, decide_false]
              split_ifs <;> first | rfl | contradiction
          · simp [hdir, RunState.start]
        · simp only [hmode]
          split_ifs <;> first | rfl | contradiction
      · have hinit : (initContext env).1 = false := by simpa [initContext] using hparams
        simp [hlock, hinit, RunState.start]
    · simp [hlock, RunState.start]

lemma DoesNotShare.archives_iff (h : DoesNotShare env mode)
    (hrrd : (r.context env).rrdFlag ≠ 1) : r.Archives env ↔ UploadsNow env r := by
  simp only [Request.Archives, UploadsNow, strategyArchives, h.earlyChecks hrrd, and_false]
  by_cases hmode : (r.context env).uploadlogsnowMode <;> simp [hmode]

/-- **Privacy.** For a media client that does not share, a request other than of the RRD keeps the
logs private exactly when it is no `uploadlogsnow` that creates an archive, and finds the log files
in a state to be cleared if it is validated. -/
theorem private_iff (env : RunEnv) (fs : Files) (r : Request) (mode : List Char)
    (hshare : DoesNotShare env mode) (hrrd : (r.context env).rrdFlag ≠ 1) :
    Private env fs r ↔ ¬UploadsNow env r ∧ (r.Validated env → Clearable fs) := by
  have hfiles : r.files env fs = some (enforcePrivacy (acquireLock fs)) :=
    if_pos (hshare.earlyChecks hrrd)
  have hcleared : (∃ fs' ∈ r.files env fs, Cleared fs' ∧ OthersKept fs fs') ↔ Clearable fs := by
    simp only [hfiles, Option.mem_some_iff, exists_eq_left', cleared_iff_clearable]
  constructor
  · intro h
    exact ⟨(hshare.archives_iff hrrd).not.mp h.archives, fun hval => hcleared.mp (h.cleared hval)⟩
  · rintro ⟨hnow, hclear⟩
    refine ⟨?_, (hshare.archives_iff hrrd).not.mpr hnow, fun hval => hcleared.mpr (hclear hval)⟩
    simp [hshare.cycles hrrd hnow]

/-- A media client that does not share. -/
def RunEnv.notSharing : RunEnv :=
  { RunEnv.working [.success] with
    deviceType := "Mediaclient".toList
    privacyDoNotShare := true }

lemma notSharing_doesNotShare : DoesNotShare .notSharing "Do_Not_Share".toList :=
  ⟨by decide +kernel, by decide +kernel, by decide +kernel⟩

/-- Two log files, one of them hidden. -/
def logFiles : Files where
  logPath := "/opt/logs".toList
  logPath_lt := by decide
  logDir := some [("receiver.log".toList, .regular "boot".toList true),
    (".seen".toList, .regular "1".toList true)]
  listable := true
  lockFile := some []
  elsewhere := fun _ => none

/-- An upload on demand is aborted, and the log is cleared. -/
theorem ondemand_private :
    Private .notSharing logFiles (.run ondemandParams) := by
  apply (private_iff _ _ _ _ notSharing_doesNotShare (by decide)).mpr
  constructor
  · rintro ⟨hmode, -⟩
    exact absurd hmode (by decide)
  · intro _
    constructor
    · intro content hcontent
      exact (Option.some.inj hcontent).symm
    · intro name content hname _
      refine Or.inr ⟨rfl, ?_⟩
      have hmem : name ∈ ["receiver.log".toList, ".seen".toList] := mem_names_of_lookup hname
      simp only [List.mem_cons, List.not_mem_nil, or_false] at hmem
      rcases hmem with rfl | rfl <;> decide

/-- The same device archives its logs and uploads them when told to do it now. -/
theorem uploadlogsnow_not_private :
    DoesNotShare .notSharing "Do_Not_Share".toList ∧
      (Request.context .notSharing
        (.execute ["logupload".toList, "uploadlogsnow".toList])).rrdFlag ≠ 1 ∧
      ¬Private .notSharing logFiles (.execute ["logupload".toList, "uploadlogsnow".toList]) := by
  refine ⟨notSharing_doesNotShare, by decide +kernel, fun h => h.archives ?_⟩
  refine ⟨rfl, rfl, ?_⟩
  rw [if_pos (by decide +kernel)]
  exact ⟨rfl, by decide +kernel, by decide +kernel⟩

end DcmAgent.Upload
