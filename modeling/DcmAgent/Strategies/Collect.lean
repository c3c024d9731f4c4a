import Mathlib.Tactic
import DcmAgent.Library.Copying
import DcmAgent.Reboot.Workflow

/-!
# Collecting logs

The strategies that leave `LOG_PATH` alone copy the logs to a directory of their own, archive that
directory, and remove it. What `copyFiles` and `emptyFolder` do is given from outside.
-/

namespace DcmAgent.Strategies

open Library
open Reboot (Name Fits pathOf CopyCalls plainCopy isDirectory)
open Archive (maxPathLength)

abbrev Node := Reboot.Node

/-! ### Calls -/

/-- What the calls of `remove_directory` do: `clears` tells the entries that `emptyFolder` removes,
whatever it returns. -/
structure RemoveCalls where
  clears : Name → Bool
  empties : Bool
  rmdirs : Bool

/-- Only an empty directory is removed. -/
def removeDirectory (calls : RemoveCalls) (d : Option (Directory Node)) :
    Bool × Option (Directory Node) :=
  match d with
  | none => (true, none)
  | some d =>
    let d := d.filter fun p => ¬calls.clears p.1
    if ¬calls.empties then (false, some d)
    else if d.isEmpty ∧ calls.rmdirs then (true, none)
    else (false, some d)

/-- A directory that is there already is left as it is. -/
def createDirectory (creates : Bool) (d : Option (Directory Node)) : Option (Directory Node) :=
  match d with
  | none => if creates then some [] else none
  | some d => some d

/-- A directory that is created is empty. -/
lemma eq_of_createDirectory {creates : Bool} {d : Option (Directory Node)} {d' : Directory Node}
    (h : createDirectory creates d = some d') : d' = d.getD [] := by
  cases d with
  | none =>
    rw [createDirectory] at h
    split_ifs at h
    exact (Option.some.inj h).symm
  | some d => exact (Option.some.inj h).symm

/-! ### Copying -/

/-- The files copied so far, and the destination. -/
def copyEntry (calls : CopyCalls) (selects : Name → Node → Bool) (s : ℕ × Directory Node)
    (e : Name × Node) : ℕ × Directory Node :=
  if selects e.1 e.2 then
    let r := calls.copyFile e.1 e.2 (s.2.lookup e.1)
    (if r.1 then s.1 + 1 else s.1, s.2.set e.1 r.2)
  else s

/-- What is under a name of the destination once the source has been copied. -/
def copied (calls : CopyCalls) (selects : Name → Node → Bool) (src : Directory Node) (n : Name)
    (old : Option Node) : Option Node :=
  match src.lookup n with
  | none => old
  | some x => if selects n x then (calls.copyFile n x old).2 else old

/-- `.log` or `.txt` somewhere in the name. -/
def shouldCollectFile (n : Name) : Bool :=
  n ≠ [] ∧ n ≠ ".".toList ∧ n ≠ "..".toList ∧
    ((Cron.strstr ".log".toList n).isSome ∨ (Cron.strstr ".txt".toList n).isSome)

/-- The entries of `LOG_PATH` that are not copied with the others. -/
def shouldExcludeFile (n : Name) : Bool :=
  n ∈ ["dcm".toList, "PreviousLogs_backup".toList, "PreviousLogs".toList]

/-- The size of the arrays for the paths. -/
def collectPathLength : ℕ := 2048

/-- The entries that `collect_files_from_dir` copies. -/
def collects (srcDir destDir : List Char) (filter : Name → Bool) (n : Name) (x : Node) : Bool :=
  ¬isDirectory x ∧ filter n ∧ (pathOf srcDir n).length < collectPathLength ∧
    (pathOf destDir n).length < collectPathLength

/-- The number of files, and the destination. The source directory exists; `entries` is what
`readdir` returns, if it can be opened. -/
def collectFilesFromDir (calls : CopyCalls) (srcDir destDir : List Char) (filter : Name → Bool)
    (entries : Option (List (Name × Node))) (dest : Directory Node) : ℤ × Directory Node :=
  match entries with
  | none => (-1, dest)
  | some entries =>
    let r := entries.foldl (copyEntry calls (collects srcDir destDir filter)) (0, dest)
    (r.1, r.2)

/-! ### What they leave -/

variable {calls : CopyCalls} {selects : Name → Node → Bool} {src dest : Directory Node}
  {entries : List (Name × Node)} {n : Name} {k : ℕ}

variable (calls selects) in
lemma copyEntry_writes : Directory.Writes (copyEntry calls selects) Prod.snd Prod.fst
    fun e old => if selects e.1 e.2 then (calls.copyFile e.1 e.2 old).2 else old := by
  rintro ⟨k, d⟩ ⟨n, x⟩ m
  rw [copyEntry]
  by_cases hsel : selects n x
  · simp only [if_pos hsel, Directory.lookup_set]
    by_cases hm : m = n
    · rw [if_pos hm, if_pos hm, hm]
    · rw [if_neg hm, if_neg hm]
  · simp only [if_neg hsel, ite_self]

/-- `readdir` returns the entries of the source once, in any order. -/
theorem lookup_foldl_copyEntry (hsrc : src.names.Nodup) (hentries : entries.Perm src) :
    (entries.foldl (copyEntry calls selects) (k, dest)).2.lookup n =
      copied calls selects src n (dest.lookup n) := by
  have hwrites := copyEntry_writes calls selects
  have hnames : (entries.map Prod.fst).Perm src.names := hentries.map _
  rw [copied]
  cases hlook : src.lookup n with
  | none =>
    refine hwrites.lookup_of_notMem fun hmem => ?_
    exact Directory.lookup_eq_none_iff.mp hlook (hnames.mem_iff.mp hmem)
  | some x =>
    have hmem := hentries.mem_iff.mpr ((Directory.lookup_eq_some_iff hsrc).mp hlook)
    exact hwrites.lookup_of_mem (hnames.nodup_iff.mpr hsrc) hmem

/-- What is in the destination has been there before, or it has been copied. -/
lemma of_isSome_copied {old : Option Node} (hsrc : src.names.Nodup)
    (h : (copied calls selects src n old).isSome) :
    old.isSome ∨ ∃ x, (n, x) ∈ src ∧ selects n x = true := by
  rw [copied] at h
  cases hlook : src.lookup n with
  | none =>
    rw [hlook] at h
    exact .inl h
  | some x =>
    rw [hlook] at h
    dsimp only at h
    by_cases hsel : selects n x
    · exact .inr ⟨x, (Directory.lookup_eq_some_iff hsrc).mp hlook, hsel⟩
    · rw [if_neg hsel] at h
      exact .inl h

/-- Stale archives apart, no name changes. -/
lemma names_cleanupOldArchives (unlinks : List Name → Bool) (dirs : List Name)
    (d : Directory Node) :
    List.Sublist ((Reboot.cleanupOldArchives unlinks dirs d).map Prod.fst) (d.map Prod.fst) := by
  induction d with
  | nil =>
    rw [Reboot.cleanupOldArchives]
  | cons p d ih =>
    obtain ⟨m, x⟩ := p
    cases x with
    | regular content =>
      rw [Reboot.cleanupOldArchives]
      split_ifs
      · exact ih.cons _
      · exact ih.cons_cons _
    | directory entries =>
      rw [Reboot.cleanupOldArchives]
      exact ih.cons_cons _
    | other =>
      rw [Reboot.cleanupOldArchives]
      exact ih.cons_cons _

lemma cleanupOldArchives_eq_self {unlinks : List Name → Bool} {dirs : List Name}
    {d : Directory Node}
    (h : ∀ e ∈ d, isDirectory e.2 = false ∧ Reboot.isOldArchive e.1 = false) :
    Reboot.cleanupOldArchives unlinks dirs d = d := by
  induction d with
  | nil => rw [Reboot.cleanupOldArchives]
  | cons p d ih =>
    obtain ⟨m, x⟩ := p
    rw [List.forall_mem_cons] at h
    cases x with
    | regular content =>
      rw [Reboot.cleanupOldArchives, ih h.2, if_neg (by simp [h.1.2])]
    | directory entries => exact absurd h.1.1 (by simp [isDirectory])
    | other => rw [Reboot.cleanupOldArchives, ih h.2]

/-- A directory that is listed as it is. -/
lemma perm_of_some_eq {d entries : Directory Node} (h : some d = some entries) : entries.Perm d :=
  .of_eq (Option.some.inj h).symm

/-- What is left of a directory that should have been removed is what `emptyFolder` has not
removed. -/
lemma lookup_removeDirectory {removes : RemoveCalls} {d : Option (Directory Node)}
    {rest : Directory Node} (h : (removeDirectory removes d).2 = some rest) :
    (removeDirectory removes d).1 = false ∧ ∃ d', d = some d' ∧
      ∀ n, rest.lookup n = if removes.clears n then none else d'.lookup n := by
  cases d with
  | none => cases h
  | some d =>
    have hlook : ∀ n, (d.filter fun p => ¬removes.clears p.1).lookup n =
        if removes.clears n then none else d.lookup n := by
      intro n
      have hfilter := Directory.lookup_filter (d := d) (n := n) fun m => ¬removes.clears m
      rw [hfilter]
      by_cases hn : removes.clears n
      · simp [hn]
      · simp [hn]
    rw [removeDirectory] at h ⊢
    by_cases hempties : ¬removes.empties
    · rw [if_pos hempties] at h ⊢
      obtain rfl := Option.some.inj h
      exact ⟨rfl, d, rfl, hlook⟩
    · rw [if_neg hempties] at h ⊢
      split_ifs at h ⊢ with hempty
      obtain rfl := Option.some.inj h
      exact ⟨rfl, d, rfl, hlook⟩

lemma mem_names_iff_lookup {d : Directory Node} : n ∈ d.names ↔ (d.lookup n).isSome := by
  rw [← Option.ne_none_iff_isSome, ne_eq, Directory.lookup_eq_none_iff, not_not]

/-- What has not been removed has been there before. -/
lemma mem_of_removeDirectory {removes : RemoveCalls} {d : Option (Directory Node)}
    (h : n ∈ ((removeDirectory removes d).2.getD []).names) :
    n ∈ (d.getD []).names ∧ ¬removes.clears n := by
  cases hrest : (removeDirectory removes d).2 with
  | none =>
    rw [hrest] at h
    cases h
  | some rest =>
    obtain ⟨-, d', rfl, hlook⟩ := lookup_removeDirectory hrest
    have hn : n ∈ rest.names := by rwa [hrest] at h
    rw [mem_names_iff_lookup, hlook] at hn
    by_cases hclears : removes.clears n
    · rw [if_pos hclears] at hn
      cases hn
    · rw [if_neg hclears] at hn
      exact ⟨mem_names_iff_lookup.mpr hn, hclears⟩

lemma removeDirectory_none_iff {removes : RemoveCalls} {d : Option (Directory Node)} :
    (removeDirectory removes d).2 = none ↔ (removeDirectory removes d).1 = true := by
  cases d with
  | none => simp [removeDirectory]
  | some d =>
    rw [removeDirectory]
    by_cases hempties : ¬removes.empties
    · simp [hempties]
    · rw [if_neg hempties]
      split_ifs <;> simp

end DcmAgent.Strategies
