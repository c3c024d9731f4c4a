import Mathlib.Tactic
import DcmAgent.Archive.Writer
import DcmAgent.Cron.Parse
import DcmAgent.Library.Copying

/-!
# The archive phase

The reboot and the DCM strategy archive a directory in place. `collect_pcap_logs` copies the newest
packet capture of `LOG_PATH` there, and `create_archive` leaves the archive there. What the calls
return is given from outside.
-/

namespace DcmAgent.Reboot

open Library
open Archive (maxPathLength)

abbrev Name := List Char

/-- What an entry leads to. -/
inductive Node where
  | regular (content : List Char)
  | directory (entries : List (Name × Node))
  | other

def isDirectory : Node → Bool
  | .directory _ => true
  | _ => false

/-! ### Paths -/

def pathOf (dir name : List Char) : List Char := dir ++ '/' :: name

/-- The path of an entry fits its array. -/
def Fits (dir name : List Char) : Prop := (pathOf dir name).length < maxPathLength

instance (dir name : List Char) : Decidable (Fits dir name) := by
  unfold Fits; infer_instance

/-! ### Calls -/

/-- What `copyFiles` returns for an entry and what is at the destination afterwards, from what has
been there. A failed call can leave anything. -/
structure CopyCalls where
  copyFile : Name → Node → Option Node → Bool × Option Node
  regular : ∀ n content old, (copyFile n (.regular content) old).1 = true →
    (copyFile n (.regular content) old).2 = some (.regular content)

/-- Regular files are copied, and nothing else. -/
def plainCopy : CopyCalls where
  copyFile _ x old := match x with
    | .regular content => (true, some (.regular content))
    | _ => (false, old)
  regular _ _ _ _ := rfl

/-- The flag for packet captures, and what the calls of the archive phase return. -/
structure PackCalls where
  includePcap : Bool
  opensForPcap : Bool
  /-- The time of a regular file. -/
  modTime : Name → Option ℤ
  pcapCopy : CopyCalls
  archiveName : Option Name
  /-- What is at the path of the archive afterwards. -/
  archive : Directory Node → ℤ × Option Node

variable (calls : PackCalls)

/-! ### `collect_pcap_logs` -/

/-- The newest regular file with `.pcap` in its name. -/
def newestPcap (l : Directory Node) : Option Name :=
  (l.foldl (fun newest e =>
    if ¬isDirectory e.2 ∧ (Cron.strstr ".pcap".toList e.1).isSome then
      match calls.modTime e.1 with
      | none => newest
      | some t => if newest.1 < t then (t, some e.1) else newest
    else newest) ((0 : ℤ), (none : Option Name))).2

def collectPcapLogs (logs : Option (Directory Node)) (d : Directory Node) : Directory Node :=
  match logs with
  | none => d
  | some l =>
    if ¬(calls.includePcap ∧ calls.opensForPcap) then d
    else
      match (newestPcap calls l).bind fun n => (l.lookup n).map (n, ·) with
      | none => d
      | some (n, x) => d.set n (calls.pcapCopy.copyFile n x (d.lookup n)).2

/-- The newest packet capture comes on top. -/
def capturedAt (logs : Option (Directory Node)) (n : Name) (old : Option Node) : Option Node :=
  match (logs.getD []).lookup n with
  | none => old
  | some x =>
    if calls.includePcap ∧ calls.opensForPcap ∧ newestPcap calls (logs.getD []) = some n then
      (calls.pcapCopy.copyFile n x old).2
    else old

variable {calls}

lemma lookup_collectPcapLogs (logs : Option (Directory Node)) (d : Directory Node) (n : Name) :
    (collectPcapLogs calls logs d).lookup n = capturedAt calls logs n (d.lookup n) := by
  cases logs with
  | none => rfl
  | some l =>
    rw [collectPcapLogs, capturedAt, Option.getD_some]
    by_cases hopens : ¬(calls.includePcap ∧ calls.opensForPcap)
    · rw [if_pos hopens]
      cases l.lookup n with
      | none => rfl
      | some x => exact (if_neg fun h => hopens ⟨h.1, h.2.1⟩).symm
    rw [if_neg hopens]
    cases hnewest : newestPcap calls l with
    | none =>
      rw [Option.bind_none]
      cases l.lookup n with
      | none => rfl
      | some x => exact (if_neg (by simp)).symm
    | some m =>
      rw [Option.bind_some]
      cases hm : l.lookup m with
      | none =>
        rw [Option.map_none]
        cases hn : l.lookup n with
        | none => rfl
        | some x =>
          refine (if_neg ?_).symm
          rintro ⟨-, -, h⟩
          obtain rfl := Option.some.inj h
          rw [hm] at hn
          cases hn
      | some y =>
        rw [Option.map_some]
        dsimp only
        rw [Directory.lookup_set]
        by_cases hn : n = m
        · subst hn
          rw [if_pos rfl, hm]
          exact (if_pos ⟨(not_not.mp hopens).1, (not_not.mp hopens).2, rfl⟩).symm
        · rw [if_neg hn]
          cases l.lookup n with
          | none => rfl
          | some x =>
            refine (if_neg ?_).symm
            rintro ⟨-, -, h⟩
            exact hn (Option.some.inj h).symm

/-! ### `create_archive` -/

/-- The last part of the path that is opened, which `snprintf` cuts to the size of its array. -/
def archiveEntry (dir name : List Char) : Name :=
  ((pathOf dir name).take (maxPathLength - 1)).drop (dir.length + 1)

lemma archiveEntry_of_fits {dir name : List Char} (h : Fits dir name) :
    archiveEntry dir name = name := by
  have hlen : (pathOf dir name).length ≤ maxPathLength - 1 := Nat.le_sub_one_of_lt h
  have hsplit : pathOf dir name = (dir ++ ['/']) ++ name := by simp [pathOf]
  rw [archiveEntry, List.take_of_length_le hlen, hsplit]
  exact List.drop_left' (by simp)

variable (calls) in
/-- The value returned, the directory, and the archive of the session. Nothing can be opened under
an empty name. -/
def createArchive (dir : List Char) (archiveFile : Name) (d : Directory Node) :
    ℤ × Directory Node × Name :=
  match calls.archiveName with
  | none => (-1, d, archiveFile)
  | some name =>
    if archiveEntry dir name = [] then (-1, d, archiveFile)
    else
      let r := calls.archive d
      (if r.1 = 0 then 0 else -1, d.set (archiveEntry dir name) r.2,
        if r.1 = 0 then name else archiveFile)

/-- The session gets the name of an archive that has been created. -/
lemma archiveFile_createArchive (dir : List Char) (archiveFile : Name) (d : Directory Node) :
    (createArchive calls dir archiveFile d).1 ≠ 0 ∧
        (createArchive calls dir archiveFile d).2.2 = archiveFile ∨
      (createArchive calls dir archiveFile d).1 = 0 ∧
        calls.archiveName = some (createArchive calls dir archiveFile d).2.2 := by
  rw [createArchive]
  cases calls.archiveName with
  | none => exact Or.inl ⟨by simp, rfl⟩
  | some name =>
    by_cases hnil : archiveEntry dir name = []
    · simp [hnil]
    · by_cases hret : (calls.archive d).1 = 0
      · simp [hnil, hret]
      · simp [hnil, hret]

end DcmAgent.Reboot
