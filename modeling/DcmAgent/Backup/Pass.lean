import Mathlib.Tactic
import DcmAgent.Backup.Engine
import DcmAgent.Library.Transfer

/-!
# One pass over a directory

A pass is a transfer: the file `sExt ++ r` of the source directory goes to `dExt ++ r` of the
destination. `Tests` are the tests of the code that only look at the name.
-/

namespace DcmAgent.Backup

open Library

variable {config : BackupConfig} {env : Env} {stage : Stage} {source dest : Where}
  {op : BackupOperationType} {sExt dExt : List Char} {m : Machine} {d d' : Disk} {r n : Name}
  {c : List Char}

/-! ### One entry -/

/-- The tests on the name of the file `sExt ++ r`. -/
structure Tests (config : BackupConfig) (source dest : Where) (sExt dExt r : List Char) : Prop where
  notDot : ¬IsDot (sExt ++ r)
  notActive : sExt ++ r ≠ backupLogsLog ∧ sExt ++ r ≠ backupLogsLog0
  sourceFits : (config.slash source ++ (sExt ++ r)).length < pathMax
  destFits : (config.slash dest ++ dExt ++ r).length < pathMax

lemma remainingPath_append (source sExt r : List Char) :
    remainingPath source sExt (sExt ++ r) = r := by
  rw [remainingPath, ← List.append_assoc, if_pos (List.prefix_append _ _), List.drop_left]

lemma processFile_append (h : (config.slash dest ++ dExt ++ r).length < pathMax) :
    processFile config env stage source dest op sExt dExt m (sExt ++ r) c =
      performOperation env stage op m (source, sExt ++ r) (dest, dExt ++ r) c := by
  rw [processFile, if_pos (List.prefix_append _ _), remainingPath_append]
  exact if_neg (not_le.mpr h)

lemma processEntry_of_otherName (h : ¬sExt <+: n) :
    processEntry config env stage source dest op sExt dExt m n = m := by
  unfold processEntry processFile
  split_ifs <;> try rfl
  split <;> rfl

lemma processEntry_of_not_tests (h : ¬Tests config source dest sExt dExt r) :
    processEntry config env stage source dest op sExt dExt m (sExt ++ r) = m := by
  unfold processEntry
  split_ifs with hdot hactive hsource <;> try rfl
  split
  · rfl
  · rw [processFile, if_pos (List.prefix_append _ _), remainingPath_append]
    refine if_pos ?_
    by_contra hdest
    exact h ⟨hdot, not_or.mp hactive, not_le.mp hsource, not_le.mp hdest⟩

lemma processEntry_of_no_content (h : (m.disk.lookup (source, n)).bind Node.content? = none) :
    processEntry config env stage source dest op sExt dExt m n = m := by
  unfold processEntry
  rw [h]
  split_ifs <;> rfl

lemma processEntry_of_content (h : Tests config source dest sExt dExt r)
    (hc : (m.disk.lookup (source, sExt ++ r)).bind Node.content? = some c) :
    processEntry config env stage source dest op sExt dExt m (sExt ++ r) =
      performOperation env stage op m (source, sExt ++ r) (dest, dExt ++ r) c := by
  unfold processEntry
  rw [if_neg h.notDot, if_neg (not_or.mpr h.notActive), if_neg (not_le.mpr h.sourceFits), hc]
  exact processFile_append h.destFits

/-- An entry is left alone, or it is operated on. -/
lemma processEntry_cases (config : BackupConfig) (env : Env) (stage : Stage) (source dest : Where)
    (op : BackupOperationType) (sExt dExt : List Char) (m : Machine) (n : Name) :
    processEntry config env stage source dest op sExt dExt m n = m ∨
      ∃ r c, n = sExt ++ r ∧ Tests config source dest sExt dExt r ∧
        (m.disk.lookup (source, sExt ++ r)).bind Node.content? = some c ∧
        processEntry config env stage source dest op sExt dExt m n =
          performOperation env stage op m (source, sExt ++ r) (dest, dExt ++ r) c := by
  by_cases hpre : sExt <+: n
  · obtain ⟨r, rfl⟩ := hpre
    by_cases htests : Tests config source dest sExt dExt r
    · cases hc : (m.disk.lookup (source, sExt ++ r)).bind Node.content? with
      | none => exact Or.inl (processEntry_of_no_content hc)
      | some c => exact Or.inr ⟨r, c, rfl, htests, hc, processEntry_of_content htests hc⟩
    · exact Or.inl (processEntry_of_not_tests htests)
  · exact Or.inl (processEntry_of_otherName hpre)

/-! ### The transfer of a pass -/

lemma Node.written_written (o : Option Node) (c : List Char) :
    Node.written (some (Node.written o c)) c = Node.written o c := by
  rcases o with - | (_ | _ | _ | _ | _) <;> rfl

/-- The file `sExt ++ r` goes to `dExt ++ r`. In one directory a file is left out when its
destination has the prefix of the sources. -/
def passTransfer (config : BackupConfig) (source dest : Where) (sExt dExt : List Char) :
    Transfer Name Loc Node (List Char) where
  src r := (source, sExt ++ r)
  dst r := (dest, dExt ++ r)
  eligible r := Tests config source dest sExt dExt r ∧ ¬IsDot (dExt ++ r) ∧
    (source = dest → ¬sExt <+: dExt ++ r)
  read := Node.content?
  write := Node.written
  src_injective r r' h := List.append_cancel_left (Prod.mk.inj h).2
  dst_injective r r' h := List.append_cancel_left (Prod.mk.inj h).2
  disjoint r r' h heq := by
    obtain ⟨hwhere, hname⟩ := Prod.mk.inj heq
    exact h.2.2 hwhere ⟨r, hname⟩
  write_write := Node.written_written

/-- The entries of a disk. -/
def entries (d : Disk) (l : Loc) : Option Node := d.lookup l

lemma entries_insert (d : Disk) (l : Loc) (v : Node) :
    entries (d.insert l v) = Function.update (entries d) l (some v) := by
  funext k
  by_cases h : k = l
  · subst h
    simp [entries]
  · simp [entries, Function.update_of_ne h, Finmap.lookup_insert_of_ne _ h]

lemma entries_erase (d : Disk) (l : Loc) :
    entries (d.erase l) = Function.update (entries d) l none := by
  funext k
  by_cases h : k = l
  · subst h
    simp [entries]
  · simp [entries, Function.update_of_ne h, Finmap.lookup_erase_ne h]

/-- Every file that passes the tests can be moved. -/
def Ready (config : BackupConfig) (source dest : Where) (sExt dExt : List Char) (d : Disk) : Prop :=
  ∀ r c, Tests config source dest sExt dExt r →
    (d.lookup (source, sExt ++ r)).bind Node.content? = some c →
      (passTransfer config source dest sExt dExt).eligible r ∧ Writable d (dest, dExt ++ r)

lemma Writable.insert {l k : Loc} (h : Writable d l) (o : Option Node) :
    Writable (d.insert k (Node.written o c)) l := by
  obtain ⟨hdot, hdir, hother⟩ := h
  refine ⟨hdot, ?_⟩
  by_cases heq : l = k
  · subst heq
    rw [Finmap.lookup_insert]
    rcases o with - | (_ | _ | _ | _ | _) <;> simp [Node.written]
  · rw [Finmap.lookup_insert_of_ne _ heq]
    exact ⟨hdir, hother⟩

lemma Writable.erase {l : Loc} (h : Writable d l) (k : Loc) : Writable (d.erase k) l := by
  obtain ⟨hdot, hdir, hother⟩ := h
  refine ⟨hdot, ?_⟩
  by_cases heq : l = k
  · subst heq
    simp
  · rw [Finmap.lookup_erase_ne heq]
    exact ⟨hdir, hother⟩

lemma Ready.insert (h : Ready config source dest sExt dExt d)
    (hr : (passTransfer config source dest sExt dExt).eligible r) (o : Option Node) :
    Ready config source dest sExt dExt (d.insert (dest, dExt ++ r) (Node.written o c)) := by
  intro r' c' htests hc
  have hne : (source, sExt ++ r') ≠ (dest, dExt ++ r) :=
    (passTransfer config source dest sExt dExt).disjoint r' r hr
  rw [Finmap.lookup_insert_of_ne _ hne] at hc
  obtain ⟨helig, hwrite⟩ := h r' c' htests hc
  exact ⟨helig, hwrite.insert o⟩

lemma Ready.erase (h : Ready config source dest sExt dExt d) (k : Loc) :
    Ready config source dest sExt dExt (d.erase k) := by
  intro r' c' htests hc
  by_cases heq : (source, sExt ++ r') = k
  · subst heq
    simp at hc
  · rw [Finmap.lookup_erase_ne heq] at hc
    obtain ⟨helig, hwrite⟩ := h r' c' htests hc
    exact ⟨helig, hwrite.erase k⟩

/-! ### Reliable passes -/

/-- Every operation succeeds as long as there is power. -/
structure Env.Reliable (env : Env) : Prop where
  opens : ∀ stage, env.openFails stage = false
  copies : ∀ stage n, env.copy stage n = .ok
  removes : ∀ stage n, env.removeFails stage n = false
  touches : env.touchFails = false

lemma Machine.op_cases (m : Machine) (f : Disk → Disk) :
    (m.op f).disk = m.disk ∧ (m.op f).power = some 0 ∨ (m.op f).disk = f m.disk := by
  unfold Machine.op
  split
  · exact Or.inr rfl
  · rename_i h
    exact Or.inl ⟨rfl, h⟩
  · exact Or.inr rfl

lemma Machine.op_none (h : m.power = none) (f : Disk → Disk) : m.op f = ⟨f m.disk, none⟩ := by
  simp [Machine.op, h]

lemma Machine.op_some_zero (h : m.power = some 0) (f : Disk → Disk) : m.op f = m := by
  simp [Machine.op, h]

/-- The copy of an operation that succeeds. -/
def copyTo (src dst : Loc) (d : Disk) : Disk :=
  match (d.lookup src).bind Node.content? with
  | some c => d.insert dst (.written (d.lookup dst) c)
  | none => d

lemma performOperation_reliable (hrel : env.Reliable) {src dst : Loc}
    (hc : (m.disk.lookup src).bind Node.content? = some c) (hwrite : Writable m.disk dst) :
    performOperation env stage .move m src dst c =
      (m.op (copyTo src dst)).op fun d => d.erase src := by
  simp only [performOperation, copyFiles, if_pos hwrite, hrel.copies, hrel.removes, if_true,
    Bool.false_eq_true, if_false]
  congr 1
  unfold Machine.op
  split <;> simp [copyTo, hc]

section Reliable

variable (hrel : env.Reliable)

include hrel

variable (stage) in
/-- One entry continues a transfer. -/
lemma processEntry_between {f : Loc → Option Node}
    (hready : Ready config source dest sExt dExt m.disk)
    (hpart : (passTransfer config source dest sExt dExt).Partial f (entries m.disk)) (n : Name) :
    let m' := processEntry config env stage source dest .move sExt dExt m n
    Ready config source dest sExt dExt m'.disk ∧
      (passTransfer config source dest sExt dExt).Partial f (entries m'.disk) := by
  intro m'
  rcases processEntry_cases config env stage source dest .move sExt dExt m n with
    heq | ⟨r, c, -, htests, hc, heq⟩
  · rw [show m' = m from heq]
    exact ⟨hready, hpart⟩
  · obtain ⟨helig, hwrite⟩ := hready r c htests hc
    rw [show m' = _ from heq, performOperation_reliable hrel hc hwrite]
    have hmov : (passTransfer config source dest sExt dExt).Movable (entries m.disk) r c :=
      ⟨helig, hc⟩
    -- the state after the copy
    have hcopy := hpart.copy hmov
    have hdisk : copyTo (source, sExt ++ r) (dest, dExt ++ r) m.disk =
        m.disk.insert (dest, dExt ++ r) (.written (m.disk.lookup (dest, dExt ++ r)) c) := by
      simp [copyTo, hc]
    rcases m.op_cases (copyTo (source, sExt ++ r) (dest, dExt ++ r)) with
      ⟨hsame, hpower⟩ | hdone
    · rw [Machine.op_some_zero hpower, hsame]
      exact ⟨hready, hpart⟩
    · rw [hdisk] at hdone
      have hready' := hready.insert helig (c := c) (m.disk.lookup (dest, dExt ++ r))
      rcases (m.op (copyTo (source, sExt ++ r) (dest, dExt ++ r))).op_cases
        (fun d => d.erase (source, sExt ++ r)) with ⟨hsame, -⟩ | herase
      · rw [hsame, hdone, entries_insert]
        exact ⟨hready', hcopy⟩
      · rw [herase, hdone, entries_erase, entries_insert]
        exact ⟨hready'.erase _, hcopy.remove (hpart.movable hmov) (hpart.copied hmov)⟩

variable (stage) in
theorem backupAndRecoverLogs_between (hready : Ready config source dest sExt dExt d) :
    (passTransfer config source dest sExt dExt).Partial (entries d)
      (entries (backupAndRecoverLogs config env stage source dest .move sExt dExt d)) := by
  unfold backupAndRecoverLogs
  rw [hrel.opens]
  split_ifs with hlong hopen
  · exact Transfer.Partial.refl
  · cases hopen
  · have hfold : ∀ (l : List Name) (m : Machine), Ready config source dest sExt dExt m.disk →
        (passTransfer config source dest sExt dExt).Partial (entries d) (entries m.disk) →
        (passTransfer config source dest sExt dExt).Partial (entries d) (entries
          (l.foldl (processEntry config env stage source dest .move sExt dExt) m).disk) := by
      intro l
      induction l with
      | nil => exact fun m _ hm => hm
      | cons n l ih =>
        intro m hm hpart
        obtain ⟨hm', hpart'⟩ := processEntry_between stage hrel hm hpart n
        exact ih _ hm' hpart'
    exact hfold _ ⟨d, _⟩ hready Transfer.Partial.refl

/-- What becomes of the two entries of a file that is moved. -/
def MovedPair (p p' : Option Node × Option Node) : Prop :=
  p.1.bind Node.content? = none ∧ p' = p ∨
    ∃ c, p.1.bind Node.content? = some c ∧ p' = (none, some (.written p.2 c))

omit hrel in
lemma movedPair_trans (p q s : Option Node × Option Node) (h : MovedPair p q)
    (h' : MovedPair q s) : MovedPair p s := by
  rcases h with ⟨-, rfl⟩ | ⟨c, hc, rfl⟩
  · exact h'
  · rcases h' with ⟨-, rfl⟩ | ⟨c', hc', -⟩
    · exact Or.inr ⟨c, hc, rfl⟩
    · cases hc'

lemma processEntry_of_movable (hpower : m.power = none)
    (hready : Ready config source dest sExt dExt m.disk)
    (htests : Tests config source dest sExt dExt r)
    (hc : (m.disk.lookup (source, sExt ++ r)).bind Node.content? = some c) :
    processEntry config env stage source dest .move sExt dExt m (sExt ++ r) =
      ⟨(m.disk.insert (dest, dExt ++ r) (.written (m.disk.lookup (dest, dExt ++ r)) c)).erase
        (source, sExt ++ r), none⟩ := by
  have hwrite := (hready r c htests hc).2
  rw [processEntry_of_content htests hc, performOperation_reliable hrel hc hwrite,
    Machine.op_none hpower, Machine.op_none rfl]
  simp [copyTo, hc]

variable (stage) in
/-- What is seen of a pass at one of its files. -/
lemma processEntry_seenAt (hr : (passTransfer config source dest sExt dExt).eligible r) :
    SeenAt (processEntry config env stage source dest .move sExt dExt)
      (fun m => Ready config source dest sExt dExt m.disk ∧ m.power = none)
      (fun m => (entries m.disk (source, sExt ++ r), entries m.disk (dest, dExt ++ r)))
      MovedPair (sExt ++ r) := by
  have hdisjoint : ∀ r r', (passTransfer config source dest sExt dExt).eligible r' →
      (source, sExt ++ r) ≠ (dest, dExt ++ r') :=
    (passTransfer config source dest sExt dExt).disjoint
  constructor
  · intro m n hm
    rcases processEntry_cases config env stage source dest .move sExt dExt m n with
      heq | ⟨r', c, rfl, htests, hc, -⟩
    · rwa [heq]
    · rw [processEntry_of_movable hrel hm.2 hm.1 htests hc]
      exact ⟨(hm.1.insert (hm.1 r' c htests hc).1 _).erase _, rfl⟩
  · intro m n hm hne
    rcases processEntry_cases config env stage source dest .move sExt dExt m n with
      heq | ⟨r', c, rfl, htests, hc, -⟩
    · rw [heq]
    · have hne' : r ≠ r' := fun h => hne (by rw [h])
      have helig := (hm.1 r' c htests hc).1
      have hsrc : (source, sExt ++ r) ≠ (source, sExt ++ r') := by simpa using hne'
      have hdst : (dest, dExt ++ r) ≠ (dest, dExt ++ r') := by simpa using hne'
      rw [processEntry_of_movable hrel hm.2 hm.1 htests hc, entries_erase, entries_insert,
        Function.update_of_ne hsrc, Function.update_of_ne (hdisjoint r r' helig),
        Function.update_of_ne (hdisjoint r' r hr).symm, Function.update_of_ne hdst]
  · intro m hm
    cases hc : (m.disk.lookup (source, sExt ++ r)).bind Node.content? with
    | none =>
      rw [processEntry_of_no_content hc]
      exact Or.inl ⟨hc, rfl⟩
    | some c =>
      rw [processEntry_of_movable hrel hm.2 hm.1 hr.1 hc, entries_erase, entries_insert,
        Function.update_self, Function.update_of_ne (hdisjoint r r hr).symm,
        Function.update_self]
      exact Or.inr ⟨c, hc, rfl⟩

/-- With power to the end, every file that can be moved is moved. -/
theorem backupAndRecoverLogs_complete (hpower : env.power stage = none)
    (hready : Ready config source dest sExt dExt d) :
    (passTransfer config source dest sExt dExt).Complete (entries d)
      (entries (backupAndRecoverLogs config env stage source dest .move sExt dExt d)) := by
  refine ⟨fun r c hr => ?_, (backupAndRecoverLogs_between stage hrel hready).frame⟩
  have htests : Tests config source dest sExt dExt r := hr.1.1
  have hopen : ¬pathMax ≤ (config.slash source ++ sExt).length := by
    have := htests.sourceFits
    simp only [List.length_append] at this ⊢
    omega
  have hmem : sExt ++ r ∈ env.readdir stage source d := by
    refine env.complete stage source d _ (Finmap.mem_iff.mpr ?_)
    cases hl : d.lookup (source, sExt ++ r) with
    | none =>
      have := hr.2
      simp [passTransfer, entries, hl] at this
    | some v => exact ⟨v, rfl⟩
  unfold backupAndRecoverLogs
  rw [hrel.opens, if_neg hopen, if_neg Bool.false_ne_true]
  have hseen := processEntry_seenAt stage hrel hr.1
  have hstart : Ready config source dest sExt dExt (Machine.mk d (env.power stage)).disk ∧
      (Machine.mk d (env.power stage)).power = none := ⟨hready, hpower⟩
  rcases hseen.foldl_mem movedPair_trans hstart hmem with ⟨hnone, -⟩ | ⟨c', hc', hpair⟩
  · have := hr.2.symm.trans hnone
    cases this
  · obtain rfl : c' = c := Option.some.inj (hc'.symm.trans hr.2)
    obtain ⟨hsrc, hdst⟩ := Prod.mk.inj hpair
    exact ⟨hsrc, hdst⟩

end Reliable

end DcmAgent.Backup
