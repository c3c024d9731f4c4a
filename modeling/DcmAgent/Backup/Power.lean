import Mathlib.Tactic
import Mathlib.Data.List.TakeWhile
import DcmAgent.Backup.CutOff

/-!
# Where the power is lost

A file takes two operations to move, its copy and its removal. Counting the files that a pass lists
before another one tells whether the power lasts until that one.
-/

namespace DcmAgent.Backup

open Library

variable {config : BackupConfig} {env : Env} {stage : Stage} {source dest : Where}
  {sExt dExt : List Char} {m : Machine} {d : Disk} {r n : Name} {c : List Char}

/-- The file of the source directory would be moved. -/
def Moves (config : BackupConfig) (source dest : Where) (sExt dExt : List Char) (d : Disk)
    (x : Name) : Prop :=
  ∃ r c, x = sExt ++ r ∧ (passTransfer config source dest sExt dExt).Movable (entries d) r c

open Classical in
/-- How many files a pass would move before it comes to the name. -/
noncomputable def movesBefore (config : BackupConfig) (env : Env) (stage : Stage)
    (source dest : Where) (sExt dExt : List Char) (n : Name) (d : Disk) : ℕ :=
  (((env.readdir stage source d).takeWhile (· ≠ n)).toFinset.filter
    (Moves config source dest sExt dExt d)).card

/-- The power is lost before that file is moved, but for some operations on it. -/
def Early (config : BackupConfig) (env : Env) (stage : Stage) (source dest : Where)
    (sExt dExt : List Char) (n : Name) (extra : ℕ) (d : Disk) : Prop :=
  ∃ k, env.power stage = some k ∧
    k ≤ 2 * movesBefore config env stage source dest sExt dExt n d + extra

/-- A file that is moved makes no other file one that can be moved, nor one that cannot. -/
lemma moves_of_ne {x y : Name} (hmov : (passTransfer config source dest sExt dExt).Movable
    (entries m.disk) r c) (hne : y ≠ x)
    (h : Moves config source dest sExt dExt m.disk y) :
    Moves config source dest sExt dExt ((m.disk.insert (dest, dExt ++ r)
      (.written (m.disk.lookup (dest, dExt ++ r)) c)).erase (source, x)) y := by
  obtain ⟨r', c', rfl, helig, hread⟩ := h
  refine ⟨r', c', rfl, helig, ?_⟩
  have hdst : (source, sExt ++ r') ≠ (dest, dExt ++ r) :=
    (passTransfer config source dest sExt dExt).disjoint r' r hmov.1
  have hkeep : Finmap.lookup (source, sExt ++ r') ((m.disk.insert (dest, dExt ++ r)
      (.written (m.disk.lookup (dest, dExt ++ r)) c)).erase (source, x)) =
        m.disk.lookup (source, sExt ++ r') := by
    rw [Finmap.lookup_erase_ne (by simpa using hne), Finmap.lookup_insert_of_ne _ hdst]
  exact (congrArg (·.bind Node.content?) hkeep).trans hread

section Count

variable (henv : env.Reliable) (hready : Ready config source dest sExt dExt m.disk)

include henv hready

/-- What one entry makes of the disk and of the power. -/
lemma processEntry_power (stage : Stage) {k : ℕ} (hpower : m.power = some k) (x : Name) :
    let m' := processEntry config env stage source dest .move sExt dExt m x
    ¬Moves config source dest sExt dExt m.disk x ∧ m' = m ∨
      ∃ r c, x = sExt ++ r ∧
        (passTransfer config source dest sExt dExt).Movable (entries m.disk) r c ∧
        (k < 2 ∧ m'.power = some 0 ∧ m'.disk.lookup (source, x) = m.disk.lookup (source, x) ∨
          ∃ j, k = j + 2 ∧ m' = ⟨(m.disk.insert (dest, dExt ++ r)
            (.written (m.disk.lookup (dest, dExt ++ r)) c)).erase (source, x), some j⟩) := by
  intro m'
  by_cases hmoves : Moves config source dest sExt dExt m.disk x
  · right
    obtain ⟨r, c, rfl, hmov⟩ := hmoves
    refine ⟨r, c, rfl, hmov, ?_⟩
    have hc : (m.disk.lookup (source, sExt ++ r)).bind Node.content? = some c := hmov.2
    have heq : m' = (m.op (copyTo (source, sExt ++ r) (dest, dExt ++ r))).op
        fun d => d.erase (source, sExt ++ r) :=
      (processEntry_of_content hmov.1.1 hc).trans
        (performOperation_reliable henv hc (hready r c hmov.1.1 hc).2)
    have hcopy : copyTo (source, sExt ++ r) (dest, dExt ++ r) m.disk =
        m.disk.insert (dest, dExt ++ r) (.written (m.disk.lookup (dest, dExt ++ r)) c) := by
      simp [copyTo, hc]
    have hne : (source, sExt ++ r) ≠ (dest, dExt ++ r) :=
      (passTransfer config source dest sExt dExt).disjoint r r hmov.1
    rcases k with - | - | j
    · rw [Machine.op_some_zero hpower, Machine.op_some_zero hpower] at heq
      rw [heq]
      exact .inl ⟨by omega, hpower, rfl⟩
    · have hop : m.op (copyTo (source, sExt ++ r) (dest, dExt ++ r)) =
          ⟨m.disk.insert (dest, dExt ++ r) (.written (m.disk.lookup (dest, dExt ++ r)) c),
            some 0⟩ := by
        simp [Machine.op, hpower, hcopy]
      rw [hop, Machine.op_some_zero rfl] at heq
      rw [heq]
      exact .inl ⟨by omega, rfl, Finmap.lookup_insert_of_ne _ hne⟩
    · refine .inr ⟨j, rfl, ?_⟩
      rw [heq]
      simp [Machine.op, hpower, hcopy]
  · left
    refine ⟨hmoves, ?_⟩
    rcases processEntry_cases config env stage source dest .move sExt dExt m x with
      heq | ⟨r, c, hx, htests, hc, -⟩
    · exact heq
    · exact absurd ⟨r, c, hx, (hready r c htests hc).1, hc⟩ hmoves

end Count

open Classical in
/-- The power that is left after some entries, by induction on them. -/
lemma foldl_power (stage : Stage) (henv : env.Reliable) (l : List Name) (extra : ℕ) :
    ∀ (m : Machine) (k : ℕ), Ready config source dest sExt dExt m.disk → m.power = some k →
      k ≤ 2 * (l.toFinset.filter (Moves config source dest sExt dExt m.disk)).card + extra →
      ∃ j ≤ extra, (l.foldl (processEntry config env stage source dest .move sExt dExt) m).power =
        some j := by
  induction l with
  | nil =>
    intro m k _ hpower hle
    exact ⟨k, by simpa using hle, hpower⟩
  | cons x l ih =>
    intro m k hready hpower hle
    rw [List.foldl_cons]
    rw [List.toFinset_cons, Finset.filter_insert] at hle
    rcases processEntry_power henv hready stage hpower x with
      ⟨hnot, heq⟩ | ⟨r, c, hx, hmov, ⟨-, hzero, -⟩ | ⟨j, rfl, heq⟩⟩
    · rw [if_neg hnot] at hle
      rw [heq]
      exact ih m k hready hpower hle
    · rw [foldl_off l hzero]
      exact ⟨0, Nat.zero_le _, hzero⟩
    · rw [if_pos ⟨r, c, hx, hmov⟩] at hle
      refine ih _ j ?_ (by rw [heq]) ?_
      · rw [heq, hx]
        exact (hready.insert hmov.1 _).erase _
      · rw [heq]
        have hsub : insert x (l.toFinset.filter (Moves config source dest sExt dExt m.disk)) ⊆
            insert x (l.toFinset.filter (Moves config source dest sExt dExt ((m.disk.insert
              (dest, dExt ++ r) (.written (m.disk.lookup (dest, dExt ++ r)) c)).erase
                (source, x)))) := by
          intro y hy
          by_cases hyx : y = x
          · exact hyx ▸ Finset.mem_insert_self _ _
          · have hy' := Finset.mem_filter.mp ((Finset.mem_insert.mp hy).resolve_left hyx)
            exact Finset.mem_insert_of_mem (Finset.mem_filter.mpr
              ⟨hy'.1, moves_of_ne hmov hyx hy'.2⟩)
        have hcard := (Finset.card_le_card hsub).trans (Finset.card_insert_le _ _)
        dsimp only
        omega

section Early

variable (henv : env.Reliable)

include henv

/-- Other entries change nothing there. -/
lemma lookup_processEntry_of_ne {x : Name} {l : Loc}
    (hready : Ready config source dest sExt dExt m.disk)
    (hl : ∀ r, x = sExt ++ r → (passTransfer config source dest sExt dExt).eligible r →
      l ≠ (source, x) ∧ l ≠ (dest, dExt ++ r)) :
    (processEntry config env stage source dest .move sExt dExt m x).disk.lookup l =
      m.disk.lookup l := by
  rcases processEntry_cases config env stage source dest .move sExt dExt m x with
    heq | ⟨r, c, rfl, htests, hc, heq⟩
  · rw [heq]
  · obtain ⟨helig, hwrite⟩ := hready r c htests hc
    obtain ⟨hsrc, hdst⟩ := hl r rfl helig
    have hcopy : (copyTo (source, sExt ++ r) (dest, dExt ++ r) m.disk).lookup l =
        m.disk.lookup l := by
      simp only [copyTo, hc]
      exact Finmap.lookup_insert_of_ne _ hdst
    rw [heq, performOperation_reliable henv hc hwrite]
    have hop : (m.op (copyTo (source, sExt ++ r) (dest, dExt ++ r))).disk.lookup l =
        m.disk.lookup l := by
      rcases m.op_cases (copyTo (source, sExt ++ r) (dest, dExt ++ r)) with ⟨hsame, -⟩ | hdone
      · rw [hsame]
      · rw [hdone, hcopy]
    rcases (m.op (copyTo (source, sExt ++ r) (dest, dExt ++ r))).op_cases
      (fun d => d.erase (source, sExt ++ r)) with ⟨hsame, -⟩ | hdone
    · rw [hsame, hop]
    · rw [hdone, Finmap.lookup_erase_ne hsrc, hop]

lemma lookup_foldl_of_ne (stage : Stage) {l : Loc} {n : Name} (hl : ∀ x r, x ≠ n → x = sExt ++ r →
    (passTransfer config source dest sExt dExt).eligible r →
      l ≠ (source, x) ∧ l ≠ (dest, dExt ++ r)) (xs : List Name) (hxs : ∀ x ∈ xs, x ≠ n) :
    ∀ m, Ready config source dest sExt dExt m.disk →
      let m' := xs.foldl (processEntry config env stage source dest .move sExt dExt) m
      Ready config source dest sExt dExt m'.disk ∧ m'.disk.lookup l = m.disk.lookup l := by
  induction xs with
  | nil => exact fun m hm => ⟨hm, rfl⟩
  | cons x xs ih =>
    intro m hready
    have hready' := (processEntry_between stage henv hready Transfer.Partial.refl x).1
    obtain ⟨hm', heq⟩ := ih (fun y hy => hxs y (List.mem_cons_of_mem _ hy)) _ hready'
    exact ⟨hm', heq.trans (lookup_processEntry_of_ne henv hready
      fun r => hl x r (hxs x List.mem_cons_self))⟩

/-- When the power is lost that early, the entry is as it was. With one operation more, only its
source is. -/
lemma lookup_early {l : Loc} {extra : ℕ} (hready : Ready config source dest sExt dExt d)
    (hearly : Early config env stage source dest sExt dExt n extra d)
    (hl : ∀ x r, x ≠ n → x = sExt ++ r → (passTransfer config source dest sExt dExt).eligible r →
      l ≠ (source, x) ∧ l ≠ (dest, dExt ++ r))
    (hextra : extra = 0 ∨ extra = 1 ∧ l = (source, n) ∧
      Moves config source dest sExt dExt d n) :
    (backupAndRecoverLogs config env stage source dest .move sExt dExt d).lookup l =
      d.lookup l := by
  obtain ⟨k, hpower, hle⟩ := hearly
  unfold backupAndRecoverLogs
  rw [henv.opens]
  split_ifs with hlong hopen
  · rfl
  · rfl
  · obtain ⟨j, hj, hleft⟩ := foldl_power stage henv
      ((env.readdir stage source d).takeWhile (· ≠ n)) extra ⟨d, env.power stage⟩ k hready hpower
      hle
    obtain ⟨hready', hsame⟩ := lookup_foldl_of_ne henv stage hl
      ((env.readdir stage source d).takeWhile (· ≠ n))
      (fun x hx => by simpa using List.mem_takeWhile_imp hx) ⟨d, env.power stage⟩ hready
    have hsplit := List.takeWhile_append_dropWhile (p := fun x => decide (x ≠ n))
      (l := env.readdir stage source d)
    rw [← hsplit, List.foldl_append]
    generalize ((env.readdir stage source d).takeWhile fun x => decide (x ≠ n)).foldl
      (processEntry config env stage source dest .move sExt dExt) ⟨d, env.power stage⟩ = m at *
    rcases hextra with rfl | ⟨rfl, rfl, hmoves⟩
    · obtain rfl : j = 0 := by omega
      rw [foldl_off _ hleft]
      exact hsame
    · cases hrest : (env.readdir stage source d).dropWhile (fun x => decide (x ≠ n)) with
      | nil => exact hsame
      | cons y rest =>
        obtain rfl : y = n := by
          have hhead := List.head?_dropWhile_not (fun x => decide (x ≠ n))
            (env.readdir stage source d)
          rw [hrest] at hhead
          simpa using hhead
        have hmoves' : Moves config source dest sExt dExt m.disk y := by
          obtain ⟨r, c, rfl, helig, hread⟩ := hmoves
          exact ⟨r, c, rfl, helig, (congrArg (·.bind Node.content?) hsame).trans hread⟩
        rw [List.foldl_cons]
        rcases processEntry_power henv hready' stage hleft y with
          ⟨hnot, -⟩ | ⟨r, c, -, -, ⟨-, hzero, hsrc⟩ | ⟨i, rfl, -⟩⟩
        · exact absurd hmoves' hnot
        · rw [foldl_off _ hzero, hsrc]
          exact hsame
        · omega

end Early

end DcmAgent.Backup
