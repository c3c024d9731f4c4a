import Mathlib.Tactic
import DcmAgent.Library.TreeWalk
import DcmAgent.Reboot.Workflow

/-!
# The functions that call themselves on directories

`add_directory_to_tar`, `cleanup_old_archives`, `remove_directory_recursive` and
`copy_dir_recursive` open a directory by its path and call themselves with the path of an entry,
which they build in an array of 512 characters. `snprintf` cuts a path that does not fit, and none
of them looks at its result before the call.
-/

namespace DcmAgent.Upload

open Library FileTree
open Archive (maxPathLength)
open Reboot (isOldArchive)

abbrev Path := List Char

/-- The path of an entry in an array of 512 characters. -/
def entryPath (dir : Path) (name : List Char) : Path :=
  (dir ++ '/' :: name).take (maxPathLength - 1)

/-! ### `add_directory_to_tar` -/

/-- The files that have been handed to the archive, with their names there. -/
structure TarState where
  tree : FileTree
  added : List (Path × Path)

/-- The name of an entry in the archive. -/
def archiveName (basePath fullpath : Path) : Path :=
  let arcname := fullpath.drop basePath.length
  if arcname.head? = some '/' then arcname.tail else arcname

def tarWalker (cwd : Loc) (basePath : Path) (excludeFile : Option Path) :
    Walker TarState Path where
  cwd := cwd
  size := maxPathLength
  path := id
  tree := TarState.tree
  missing _ s := (-1, s)
  child _ dirpath name kind :=
    let fullpath := entryPath dirpath name
    if excludeFile = some fullpath then none
    else if kind = .dir then some fullpath
    else none
  pass dirpath _ name kind r :=
    let fullpath := entryPath dirpath name
    if excludeFile = some fullpath then r
    else if kind = .regular then
      (r.1, { r.2 with added := r.2.added ++ [(fullpath, archiveName basePath fullpath)] })
    else r
  back _ value r := if value ≠ 0 then (false, -1, r.2) else (true, r)
  finish _ r := (0, r.2)

def addDirectoryToTar (cwd : Loc) (fuel : ℕ) (dirpath basePath : Path) (excludeFile : Option Path)
    (t : FileTree) : Option (WalkOutcome TarState) :=
  (tarWalker cwd basePath excludeFile).walk fuel dirpath ⟨t, []⟩

/-! ### `cleanup_old_archives` -/

/-- The value is the number of archives removed. -/
def cleanupWalker (cwd : Loc) : Walker FileTree Path where
  cwd := cwd
  size := maxPathLength
  path := id
  tree := id
  missing _ s := (-1, s)
  child _ logPath name kind := if kind = .dir then some (entryPath logPath name) else none
  pass logPath l name kind r :=
    if kind = .regular ∧ isOldArchive name ∧ (logPath ++ '/' :: name).length < maxPathLength ∧
        (l ++ [name], .regular) ∈ r.2 then
      (r.1 + 1, r.2.erase (l ++ [name]))
    else r
  back _ value r := (true, if value > 0 then r.1 + value else r.1, r.2)
  finish _ r := r

def cleanupOldArchives (cwd : Loc) (fuel : ℕ) (logPath : Path) (t : FileTree) :
    Option (WalkOutcome FileTree) := (cleanupWalker cwd).walk fuel logPath t

/-! ### `remove_directory_recursive` -/

/-- The value of a call on a file system, and the tree afterwards. -/
def called (t : FileTree) (o : Option FileTree) : ℤ × FileTree :=
  match o with
  | none => (-1, t)
  | some t' => (0, t')

/-- Every entry is tried as a directory first. What cannot be opened is no directory, so `remove`
is `unlink` there. -/
def removeWalker (cwd : Loc) : Walker FileTree Path where
  cwd := cwd
  size := maxPathLength
  path := id
  tree := id
  missing path t := called t (t.unlink cwd path)
  child _ path name _ := some (entryPath path name)
  pass _ _ _ _ r := r
  back filepath value r := (true, 0, if value ≠ 0 then (r.2.unlink cwd filepath).getD r.2 else r.2)
  finish path r := called r.2 (r.2.rmdir cwd path)

def removeDirectoryRecursive (cwd : Loc) (fuel : ℕ) (path : Path) (t : FileTree) :
    Option (WalkOutcome FileTree) := (removeWalker cwd).walk fuel path t

/-! ### `copy_dir_recursive` -/

/-- The results of the calls on the destination, which lies outside of the tree. -/
structure CopyEnv where
  createDirectory : Path → Bool
  copyFile : Path → Path → Bool

/-- The value is the number of files copied. -/
def copyWalker (cwd : Loc) (env : CopyEnv) : Walker FileTree (Path × Path) where
  cwd := cwd
  size := maxPathLength
  path := Prod.fst
  tree := id
  missing _ t := (-1, t)
  child _ dirs name kind :=
    if kind = .dir ∧ env.createDirectory (entryPath dirs.2 name) then
      some (entryPath dirs.1 name, entryPath dirs.2 name)
    else none
  pass dirs _ name kind r :=
    if kind ≠ .dir ∧ env.copyFile (entryPath dirs.1 name) (entryPath dirs.2 name) then
      (r.1 + 1, r.2)
    else r
  back _ value r := (true, if value > 0 then r.1 + value else r.1, r.2)
  finish _ r := r

def copyDirRecursive (cwd : Loc) (env : CopyEnv) (fuel : ℕ) (srcDir destDir : Path)
    (t : FileTree) : Option (WalkOutcome FileTree) :=
  (copyWalker cwd env).walk fuel (srcDir, destDir) t

/-! ### What they share -/

variable {cwd : Loc} {basePath : Path} {excludeFile : Option Path} {env : CopyEnv}

lemma tarWalker_shrinks : (tarWalker cwd basePath excludeFile).Shrinks where
  missing _ _ := List.Subset.refl _
  pass _ _ _ _ _ := by
    simp only [tarWalker]
    split_ifs <;> exact List.Subset.refl _
  back _ _ _ := by
    simp only [tarWalker]
    split_ifs <;> exact List.Subset.refl _
  finish _ _ := List.Subset.refl _

lemma cleanupWalker_shrinks : (cleanupWalker cwd).Shrinks where
  missing _ _ := List.Subset.refl _
  pass _ _ _ _ _ := by
    simp only [cleanupWalker]
    split_ifs
    · exact erase_subset _ _
    · exact List.Subset.refl _
  back _ _ _ := List.Subset.refl _
  finish _ _ := List.Subset.refl _

lemma called_subset {t : FileTree} {o : Option FileTree} (h : ∀ t' ∈ o, t' ⊆ t) :
    (called t o).2 ⊆ t := by
  cases o with
  | none => exact List.Subset.refl _
  | some t' => exact h t' rfl

lemma unlink_subset {t t' : FileTree} {p : Path} (h : t.unlink cwd p = some t') : t' ⊆ t := by
  obtain ⟨l, -, -, rfl⟩ := unlink_eq_some h
  exact erase_subset t l

lemma rmdir_subset {t t' : FileTree} {p : Path} (h : t.rmdir cwd p = some t') : t' ⊆ t := by
  obtain ⟨l, -, -, rfl, -⟩ := rmdir_eq_some h
  exact erase_subset t l

lemma removeWalker_shrinks : (removeWalker cwd).Shrinks where
  missing _ _ := called_subset fun _ h => unlink_subset h
  pass _ _ _ _ _ := List.Subset.refl _
  back filepath value r := by
    simp only [removeWalker]
    split_ifs
    · cases h : r.2.unlink cwd filepath with
      | none => exact List.Subset.refl _
      | some t' => exact unlink_subset h
    · exact List.Subset.refl _
  finish _ _ := called_subset fun _ h => rmdir_subset h

lemma copyWalker_shrinks : (copyWalker cwd env).Shrinks where
  missing _ _ := List.Subset.refl _
  pass _ _ _ _ _ := by
    simp only [copyWalker]
    split_ifs <;> exact List.Subset.refl _
  back _ _ _ := List.Subset.refl _
  finish _ _ := List.Subset.refl _

lemma tarWalker_buildsPaths : (tarWalker cwd basePath excludeFile).BuildsPaths := by
  intro s a n k b h
  simp only [tarWalker] at h
  split_ifs at h
  exact (Option.some.inj h).symm

lemma cleanupWalker_buildsPaths : (cleanupWalker cwd).BuildsPaths := by
  intro s a n k b h
  simp only [cleanupWalker] at h
  split_ifs at h
  exact (Option.some.inj h).symm

lemma removeWalker_buildsPaths : (removeWalker cwd).BuildsPaths := fun _ _ _ _ _ h =>
  (Option.some.inj h).symm

lemma copyWalker_buildsPaths : (copyWalker cwd env).BuildsPaths := by
  intro s a n k b h
  simp only [copyWalker] at h
  split_ifs at h
  obtain rfl := Option.some.inj h
  rfl

/-- The function ends, and each call on a directory goes down. -/
def GoesDown {σ : Type} (f : ℕ → Option (WalkOutcome σ)) : Prop :=
  ∃ fuel o, f fuel = some o ∧ ∀ c ∈ o.calls, Descends c

/-- All four do, from the same directory. -/
structure AllGoDown (t : FileTree) (cwd : Loc) (p : Path) : Prop where
  tar : ∀ basePath excludeFile,
    GoesDown fun fuel => addDirectoryToTar cwd fuel p basePath excludeFile t
  cleanup : GoesDown fun fuel => cleanupOldArchives cwd fuel p t
  remove : GoesDown fun fuel => removeDirectoryRecursive cwd fuel p t
  copy : ∀ env destDir, GoesDown fun fuel => copyDirRecursive cwd env fuel p destDir t

lemma exists_height (t : FileTree) : ∃ height, ∀ e ∈ t, e.1.length ≤ height := by
  refine ⟨(t.map fun e => e.1.length).foldr max 0, fun e he => ?_⟩
  exact List.le_max_of_le' 0 (List.mem_map_of_mem he) le_rfl

/-- A walk from a path that fits, when no name is cut to nothing or to dots. -/
lemma goesDown_of_namesLeft {σ α : Type} {w : Walker σ α} {t : FileTree} {p : Path} {a : α} {s : σ}
    (hshrinks : w.Shrinks) (hpaths : w.BuildsPaths) (hwf : t.WellFormed)
    (hleft : NamesLeft w.size t w.cwd p) (hp : p.length < w.size) (ha : w.path a = p)
    (hs : w.tree s = t) : GoesDown fun fuel => w.walk fuel a s := by
  by_cases hne : p = []
  · have hnone : openDir (w.tree s) w.cwd (w.path a) = none := by rw [ha, hne]; rfl
    refine ⟨1, ⟨(w.missing a s).1, (w.missing a s).2, []⟩, ?_, by simp⟩
    simp only [Walker.walk, hnone]
  obtain ⟨height, hheight⟩ := exists_height t
  have hbelow : Below p w.size (w.path a) := ⟨[], by simp, by simp [pathTo, ha], by rwa [ha]⟩
  obtain ⟨o, ho, hcalls, -⟩ := w.walk_ends hshrinks hpaths hwf hleft hne height hbelow
    (by rw [hs]; exact List.Subset.refl t)
    fun l _ e he => (hheight e he).trans (Nat.le_add_left _ _)
  exact ⟨height + 1, o, ho, hcalls⟩

theorem allGoDown_of_namesLeft {t : FileTree} {p : Path} (hwf : t.WellFormed)
    (hp : p.length < maxPathLength) (hleft : NamesLeft maxPathLength t cwd p) :
    AllGoDown t cwd p where
  tar _ _ :=
    goesDown_of_namesLeft tarWalker_shrinks tarWalker_buildsPaths hwf hleft hp rfl rfl
  cleanup :=
    goesDown_of_namesLeft cleanupWalker_shrinks cleanupWalker_buildsPaths hwf hleft hp rfl rfl
  remove :=
    goesDown_of_namesLeft removeWalker_shrinks removeWalker_buildsPaths hwf hleft hp rfl rfl
  copy _ _ :=
    goesDown_of_namesLeft copyWalker_shrinks copyWalker_buildsPaths hwf hleft hp rfl rfl

end DcmAgent.Upload
