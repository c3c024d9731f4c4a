import Mathlib.Tactic
import DcmAgent.Backup.Finish

/-!
# Logs that are lost

`LOG_PATH` is wiped whatever became of the files there. A log is kept when its copy has succeeded,
or when the wiping does not remove it.
-/

namespace DcmAgent.Backup

open Library

variable {config : BackupConfig} {env env' : Env} {stage : Stage} {source dest : Where}
  {sExt dExt : List Char} {m : Machine} {d d' : Disk} {l : Loc} {n r x : Name} {c : List Char}

/-! ### Passes that may fail -/

/-- What an operation with enough power makes of the disk. -/
inductive Performed (env : Env) (stage : Stage) (src dst : Loc) (c : List Char) (d : Disk) :
    Disk → Prop
  | nothing (h : ¬(Writable d dst ∧ env.copy stage src.2 = .ok)) : Performed env stage src dst c d d
  | spoiled {left : List Char} (hwrite : Writable d dst)
      (hcopy : env.copy stage src.2 = .failed (some left)) :
      Performed env stage src dst c d (d.insert dst (.written (d.lookup dst) left))
  | copied (hwrite : Writable d dst) (hcopy : env.copy stage src.2 = .ok) :
      Performed env stage src dst c d (d.insert dst (.written (d.lookup dst) c))
  | moved (hwrite : Writable d dst) (hcopy : env.copy stage src.2 = .ok) :
      Performed env stage src dst c d ((d.insert dst (.written (d.lookup dst) c)).erase src)

lemma performOperation_performed (env : Env) (stage : Stage) (hpower : m.power = none)
    (src dst : Loc) (c : List Char) :
    (performOperation env stage .move m src dst c).power = none ∧
      Performed env stage src dst c m.disk (performOperation env stage .move m src dst c).disk := by
  simp only [performOperation, copyFiles, Machine.op_none hpower]
  by_cases hwrite : Writable m.disk dst
  · rw [if_pos hwrite]
    cases hcopy : env.copy stage src.2 with
    | ok =>
      dsimp only
      rw [if_pos rfl, Machine.op_none rfl]
      refine ⟨rfl, ?_⟩
      dsimp only
      split_ifs
      · exact .copied hwrite hcopy
      · exact .moved hwrite hcopy
    | failed left =>
      cases left with
      | none => exact ⟨rfl, .nothing fun h => by cases hcopy.symm.trans h.2⟩
      | some left => exact ⟨rfl, .spoiled hwrite hcopy⟩
  · rw [if_neg hwrite]
    exact ⟨rfl, .nothing fun h => hwrite h.1⟩

/-- An entry is left alone, or it is operated on. -/
lemma processEntry_performed (config : BackupConfig) (env : Env) (stage : Stage)
    (source dest : Where) (sExt dExt : List Char) (hpower : m.power = none) (n : Name) :
    let m' := processEntry config env stage source dest .move sExt dExt m n
    m'.power = none ∧ (m'.disk = m.disk ∨ ∃ r c, n = sExt ++ r ∧
      Tests config source dest sExt dExt r ∧
      (m.disk.lookup (source, sExt ++ r)).bind Node.content? = some c ∧
      Performed env stage (source, sExt ++ r) (dest, dExt ++ r) c m.disk m'.disk) := by
  intro m'
  rcases processEntry_cases config env stage source dest .move sExt dExt m n with
    heq | ⟨r, c, hn, htests, hc, heq⟩
  · exact ⟨by rw [show m' = m from heq, hpower], .inl (by rw [show m' = m from heq])⟩
  · obtain ⟨hpower', hperf⟩ := performOperation_performed env stage hpower (source, sExt ++ r)
      (dest, dExt ++ r) c
    rw [← heq] at hpower' hperf
    exact ⟨hpower', .inr ⟨r, c, hn, htests, hc, hperf⟩⟩

/-- What one entry keeps, a pass keeps. -/
lemma backupAndRecoverLogs_induction {P : Disk → Prop} (hpower : env.power stage = none) (hd : P d)
    (hstep : ∀ m n, m.power = none → P m.disk →
      P (processEntry config env stage source dest .move sExt dExt m n).disk) :
    P (backupAndRecoverLogs config env stage source dest .move sExt dExt d) := by
  have hfold : ∀ (l : List Name) (m : Machine), m.power = none → P m.disk →
      P (l.foldl (processEntry config env stage source dest .move sExt dExt) m).disk := by
    intro l
    induction l with
    | nil => exact fun m _ hm => hm
    | cons n l ih =>
      intro m hm hP
      exact ih _ (processEntry_performed config env stage source dest sExt dExt hm n).1
        (hstep m n hm hP)
  unfold backupAndRecoverLogs
  split_ifs
  · exact hd
  · exact hd
  · exact hfold _ ⟨d, env.power stage⟩ hpower hd

/-! ### What a pass leaves alone -/

/-- The same entries can be written to, and nothing but the destinations has changed there. -/
lemma writable_insert_iff (h : Writable d l) (o : Option Node) (k : Loc) :
    Writable (d.insert l (.written o c)) k ↔ Writable d k := by
  by_cases hk : k = l
  · subst hk
    exact iff_of_true (h.insert o) h
  · rw [Writable, Writable, Finmap.lookup_insert_of_ne _ hk]

lemma writable_erase_iff (h : (d.lookup l).bind Node.content? = some c) (k : Loc) :
    Writable (d.erase l) k ↔ Writable d k := by
  by_cases hk : k = l
  · subst hk
    have hdir : d.lookup k ≠ some .directory := fun heq => by rw [heq] at h; cases h
    have hother : d.lookup k ≠ some .other := fun heq => by rw [heq] at h; cases h
    simp [Writable, hdir, hother]
  · rw [Writable, Writable, Finmap.lookup_erase_ne hk]

lemma content_insert (o : Option Node) :
    ((d.insert l (.written o c)).lookup l).bind Node.content? = some c := by
  rw [Finmap.lookup_insert]
  rcases o with - | (_ | _ | _ | _ | _) <;> rfl

lemma Performed.writable_iff {src dst : Loc} (h : Performed env stage src dst c d d')
    (hc : (d.lookup src).bind Node.content? = some c) (k : Loc) :
    Writable d' k ↔ Writable d k := by
  cases h with
  | nothing => rfl
  | spoiled hwrite => exact writable_insert_iff hwrite _ k
  | copied hwrite => exact writable_insert_iff hwrite _ k
  | moved hwrite =>
    have hsrc : ∃ c', ((d.insert dst (.written (d.lookup dst) c)).lookup src).bind Node.content? =
        some c' := by
      by_cases heq : src = dst
      · subst heq
        exact ⟨c, content_insert _⟩
      · rw [Finmap.lookup_insert_of_ne _ heq]
        exact ⟨c, hc⟩
    obtain ⟨c', hsrc⟩ := hsrc
    rw [writable_erase_iff hsrc]
    exact writable_insert_iff hwrite _ k

/-- Entries other than the two of the file stay. -/
lemma Performed.lookup_of_ne {src dst : Loc} (h : Performed env stage src dst c d d')
    (hsrc : l ≠ src) (hdst : l ≠ dst) : d'.lookup l = d.lookup l := by
  cases h with
  | nothing => rfl
  | spoiled => rw [Finmap.lookup_insert_of_ne _ hdst]
  | copied => rw [Finmap.lookup_insert_of_ne _ hdst]
  | moved => rw [Finmap.lookup_erase_ne hsrc, Finmap.lookup_insert_of_ne _ hdst]

lemma writable_pass (hpower : env.power stage = none) (k : Loc) :
    Writable (backupAndRecoverLogs config env stage source dest .move sExt dExt d) k ↔
      Writable d k := by
  refine backupAndRecoverLogs_induction (P := fun d' => Writable d' k ↔ Writable d k) hpower
    Iff.rfl ?_
  intro m n hm hP
  rcases (processEntry_performed config env stage source dest sExt dExt hm n).2 with
    heq | ⟨r, c, -, -, hc, hperf⟩
  · rw [heq]
    exact hP
  · exact (hperf.writable_iff hc k).trans hP

lemma lookup_log_pass (hpower : env.power stage = none) (n : Name) :
    (backupAndRecoverLogs config env stage .prev .prev .move sExt dExt d).lookup (.log, n) =
      d.lookup (.log, n) := by
  refine backupAndRecoverLogs_induction (P := fun d' => d'.lookup (.log, n) = d.lookup (.log, n))
    hpower rfl ?_
  intro m k hm hP
  rcases (processEntry_performed config env stage .prev .prev sExt dExt hm k).2 with
    heq | ⟨r, c, -, -, -, hperf⟩
  · rw [heq]
    exact hP
  · exact (hperf.lookup_of_ne (by simp) (by simp)).trans hP

/-! ### The pass that moves the logs -/

/-- The log is copied to the prefix. -/
structure Copies (config : BackupConfig) (env : Env) (dExt : List Char) (d : Disk) (n : Name) :
    Prop where
  opens : env.openFails .move = false
  tests : Tests config .log .prev [] dExt n
  copy : env.copy .move n = .ok
  writable : Writable d (.prev, dExt ++ n)

/-- What becomes of a log that is copied: its entry, and the entry of its copy. -/
def CopiedPair (p p' : Option Node × Option Node) : Prop :=
  p.1.bind Node.content? = none ∧ p' = p ∨
    ∃ c, p.1.bind Node.content? = some c ∧ (p'.1 = p.1 ∨ p'.1 = none) ∧
      p'.2.bind Node.content? = some c

lemma copiedPair_trans (p q s : Option Node × Option Node) (h : CopiedPair p q)
    (h' : CopiedPair q s) : CopiedPair p s := by
  rcases h with ⟨-, rfl⟩ | ⟨c, hc, hlog, hprev⟩
  · exact h'
  · rcases h' with ⟨-, rfl⟩ | ⟨c', hc', hlog', hprev'⟩
    · exact .inr ⟨c, hc, hlog, hprev⟩
    · rcases hlog with hlog | hlog
      · rw [hlog] at hc' hlog'
        exact .inr ⟨c, hc, hlog', Option.some.inj (hc'.symm.trans hc) ▸ hprev'⟩
      · rw [hlog] at hc'
        cases hc'

lemma log_ne_prev (n x : Name) : ((.log, n) : Loc) ≠ (.prev, x) := by simp

/-- Another log goes to another name. -/
lemma moveEntry_of_ne (config : BackupConfig) (env : Env) (stage : Stage) (dExt : List Char)
    (hpower : m.power = none) (hne : n ≠ r) :
    let m' := processEntry config env stage .log .prev .move [] dExt m n
    m'.disk.lookup (.log, r) = m.disk.lookup (.log, r) ∧
      m'.disk.lookup (.prev, dExt ++ r) = m.disk.lookup (.prev, dExt ++ r) := by
  intro m'
  rcases (processEntry_performed config env stage .log .prev [] dExt hpower n).2 with
    heq | ⟨r', c, hn, -, -, hperf⟩
  · rw [show m'.disk = m.disk from heq]
    exact ⟨rfl, rfl⟩
  · have hne' : r ≠ r' := fun h => hne (hn.trans h.symm)
    exact ⟨hperf.lookup_of_ne (by simpa using hne') (log_ne_prev _ _),
      hperf.lookup_of_ne (log_ne_prev _ _).symm (by simpa using hne')⟩

/-- What is seen of the pass at a log that is copied. -/
lemma moveEntry_seenAt (h : Copies config env dExt d n) :
    SeenAt (processEntry config env .move .log .prev .move [] dExt)
      (fun m => m.power = none ∧ Writable m.disk (.prev, dExt ++ n))
      (fun m => (m.disk.lookup (.log, n), m.disk.lookup (.prev, dExt ++ n))) CopiedPair n := by
  constructor
  · intro m k hm
    obtain ⟨hpower, hdisk⟩ := processEntry_performed config env .move .log .prev [] dExt hm.1 k
    refine ⟨hpower, ?_⟩
    rcases hdisk with heq | ⟨r, c, -, -, hc, hperf⟩
    · rw [heq]
      exact hm.2
    · exact (hperf.writable_iff hc _).mpr hm.2
  · intro m k hm hne
    obtain ⟨hlog, hprev⟩ := moveEntry_of_ne config env .move dExt hm.1 hne
    rw [hlog, hprev]
  · intro m hm
    cases hc : (m.disk.lookup (.log, n)).bind Node.content? with
    | none =>
      rw [processEntry_of_no_content hc]
      exact .inl ⟨hc, rfl⟩
    | some c =>
      refine .inr ⟨c, hc, ?_⟩
      have hentry : processEntry config env .move .log .prev .move [] dExt m n =
          performOperation env .move .move m (.log, n) (.prev, dExt ++ n) c :=
        processEntry_of_content h.tests hc
      dsimp only
      rw [hentry]
      have hperf := (performOperation_performed env .move hm.1 (.log, n) (.prev, dExt ++ n) c).2
      generalize (performOperation env .move .move m (.log, n) (.prev, dExt ++ n) c).disk = d'
        at hperf ⊢
      cases hperf with
      | nothing hnot => exact absurd ⟨hm.2, h.copy⟩ hnot
      | spoiled _ hcopy => cases hcopy.symm.trans h.copy
      | copied =>
        rw [Finmap.lookup_insert_of_ne _ (log_ne_prev _ _)]
        exact ⟨.inl rfl, content_insert _⟩
      | moved =>
        rw [Finmap.lookup_erase, Finmap.lookup_erase_ne (log_ne_prev _ _).symm]
        exact ⟨.inr rfl, content_insert _⟩

/-- The name is among those of the directory. -/
lemma mem_readdir (hc : (d.lookup (source, n)).bind Node.content? = some c) :
    n ∈ env.readdir stage source d :=
  env.complete stage source d n (mem_of_content hc)

section MoveLogs

variable (hpower : env.power .move = none)

include hpower

/-- A log that is copied is in `PreviousLogs`. -/
lemma content_of_copies (h : Copies config env dExt d n)
    (hc : (d.lookup (.log, n)).bind Node.content? = some c) :
    ((moveLogs config env dExt d).lookup (.prev, dExt ++ n)).bind Node.content? = some c := by
  have hopen : ¬pathMax ≤ (config.slash .log ++ []).length := by
    have := h.tests.sourceFits
    simp only [List.length_append, List.length_nil] at this ⊢
    omega
  rw [moveLogs, backupAndRecoverLogs, if_neg hopen, h.opens, if_neg Bool.false_ne_true]
  have hstart : (Machine.mk d (env.power .move)).power = none ∧
      Writable (Machine.mk d (env.power .move)).disk (.prev, dExt ++ n) := ⟨hpower, h.writable⟩
  rcases (moveEntry_seenAt h).foldl_mem copiedPair_trans hstart (mem_readdir hc) with
    ⟨hnone, -⟩ | ⟨c', hc', -, hprev⟩
  · cases hc.symm.trans hnone
  · exact Option.some.inj (hc'.symm.trans hc) ▸ hprev

/-- A log that is not copied stays. -/
lemma lookup_log_of_not_copies (h : ¬Copies config env dExt d n) :
    (moveLogs config env dExt d).lookup (.log, n) = d.lookup (.log, n) := by
  rw [moveLogs]
  by_cases hopen : env.openFails .move = true
  · rw [backupAndRecoverLogs, if_pos hopen, ite_self]
  refine (backupAndRecoverLogs_induction (P := fun d' =>
    d'.lookup (.log, n) = d.lookup (.log, n) ∧ ∀ k, Writable d' k ↔ Writable d k)
    hpower ⟨rfl, fun _ => Iff.rfl⟩ ?_).1
  intro m k hm hP
  rcases (processEntry_performed config env .move .log .prev [] dExt hm k).2 with
    heq | ⟨r, c, -, htests, hc, hperf⟩
  · rw [heq]
    exact hP
  · refine ⟨?_, fun k => (hperf.writable_iff hc k).trans (hP.2 k)⟩
    rw [← hP.1]
    generalize (processEntry config env .move .log .prev .move [] dExt m k).disk = d' at hperf ⊢
    cases hperf with
    | nothing => rfl
    | spoiled => rw [Finmap.lookup_insert_of_ne _ (log_ne_prev _ _)]
    | copied => rw [Finmap.lookup_insert_of_ne _ (log_ne_prev _ _)]
    | moved hwrite hcopy =>
      have hne : n ≠ r := by
        rintro rfl
        exact h ⟨by simpa using hopen, htests, hcopy, (hP.2 _).mp hwrite⟩
      rw [Finmap.lookup_erase_ne (by simpa using hne),
        Finmap.lookup_insert_of_ne _ (log_ne_prev _ _)]

end MoveLogs

/-! ### Wiping -/

/-- The wiping removes the entry. -/
structure Wiped (config : BackupConfig) (env : Env) (n : Name) : Prop where
  opens : env.openFails .wipe = false
  notDot : ¬IsDot n
  fits : (config.slash .log ++ n).length < pathMax
  removes : env.removeFails .wipe n = false

section Wipe

variable (hpower : m.power = none)

include hpower

lemma wipeEntry_power (config : BackupConfig) (env : Env) (n : Name) :
    (wipeEntry config env m n).power = none := by
  unfold wipeEntry
  split_ifs
  · exact hpower
  · exact hpower
  · rw [Machine.op_none hpower]
  · rw [Machine.op_none hpower]

lemma wipeEntry_of_wiped (h : Wiped config env n) :
    (wipeEntry config env m n).disk = m.disk.erase (.log, n) := by
  rw [wipeEntry, if_neg h.notDot, if_neg (not_le.mpr h.fits), Machine.op_none hpower, h.removes]
  rfl

lemma wipeEntry_of_not_wiped (hopens : env.openFails .wipe = false) (h : ¬Wiped config env n) :
    (wipeEntry config env m n).disk = m.disk := by
  unfold wipeEntry
  split_ifs with hdot hlong hfails
  · rfl
  · rfl
  · rw [Machine.op_none hpower]
  · exact absurd ⟨hopens, hdot, not_le.mp hlong, by simpa using hfails⟩ h

end Wipe

lemma lookup_wipeEntry_of_ne (hne : x ≠ n) :
    (wipeEntry config env m n).disk.lookup (.log, x) = m.disk.lookup (.log, x) := by
  rcases wipeEntry_cases config env m n with heq | heq
  · rw [heq]
  · rw [heq, Finmap.lookup_erase_ne (by simpa using hne)]

/-- The wiping leaves nothing of an entry that it removes. -/
lemma lookup_wipeLogPath_of_wiped (hpower : env.power .wipe = none) (h : Wiped config env n) :
    (wipeLogPath config env d).lookup (.log, n) = none := by
  have hfold : ∀ (l : List Name) (m : Machine), m.power = none →
      n ∈ l ∨ m.disk.lookup (.log, n) = none →
      (l.foldl (wipeEntry config env) m).disk.lookup (.log, n) = none := by
    intro l
    induction l with
    | nil =>
      rintro m - (hmem | hnone)
      · cases hmem
      · exact hnone
    | cons k l ih =>
      intro m hm hnone
      apply ih _ (wipeEntry_power hm config env k)
      by_cases hk : n = k
      · subst hk
        rw [wipeEntry_of_wiped hm h]
        exact .inr (Finmap.lookup_erase _ _)
      · rw [lookup_wipeEntry_of_ne hk]
        exact hnone.imp_left fun hmem => (List.mem_cons.mp hmem).resolve_left hk
  rw [wipeLogPath, h.opens, if_neg Bool.false_ne_true]
  refine hfold _ _ hpower ?_
  by_cases hmem : (.log, n) ∈ d
  · exact .inl (env.complete _ _ _ _ hmem)
  · exact .inr (Finmap.lookup_eq_none.mpr hmem)

lemma lookup_wipeLogPath_of_not_wiped (hpower : env.power .wipe = none)
    (h : ¬Wiped config env n) :
    (wipeLogPath config env d).lookup (.log, n) = d.lookup (.log, n) := by
  rw [wipeLogPath]
  cases hopens : env.openFails .wipe with
  | true => rfl
  | false =>
    rw [if_neg Bool.false_ne_true]
    have hfold : ∀ (l : List Name) (m : Machine), m.power = none →
        (l.foldl (wipeEntry config env) m).disk.lookup (.log, n) = m.disk.lookup (.log, n) := by
      intro l
      induction l with
      | nil => exact fun m _ => rfl
      | cons k l ih =>
        intro m hm
        rw [List.foldl_cons, ih _ (wipeEntry_power hm config env k)]
        by_cases hk : n = k
        · subst hk
          rw [wipeEntry_of_not_wiped hm hopens h]
        · exact lookup_wipeEntry_of_ne hk
    exact hfold _ _ hpower

/-! ### A run -/

/-- The prefix that the logs get. -/
def Level.ext : Level → List Char
  | .base => []
  | .bak1 => Backup.bak1
  | .bak2 => Backup.bak2
  | .bak3 | .full => Backup.bak3

/-- The disk when the logs are moved. -/
def makeRoom (config : BackupConfig) (env : Env) (d : Disk) : Disk :=
  match level d with
  | .full => rotate config env d
  | _ => d

lemma backupLogs_eq (config : BackupConfig) (env : Env) (d : Disk) :
    backupLogs config env d = moveLogs config env (level d).ext (makeRoom config env d) := by
  rw [backupLogs, makeRoom]
  cases level d <;> rfl

/-- What the passes that make room keep. -/
lemma makeRoom_induction {P : Disk → Prop} (hd : P d)
    (hpass : ∀ stage sExt dExt d, P d →
      P (backupAndRecoverLogs config env stage .prev .prev .move sExt dExt d)) :
    P (makeRoom config env d) := by
  rw [makeRoom]
  cases level d with
  | full => exact hpass _ _ _ _ (hpass _ _ _ _ (hpass _ _ _ _ hd))
  | base | bak1 | bak2 | bak3 => exact hd

/-- The content can be read somewhere. -/
def Present (d : Disk) (c : List Char) : Prop := ∃ l, (d.lookup l).bind Node.content? = some c

/-- The content of every regular file of `LOG_PATH` is still there after the run. -/
def KeepsLogs (config : BackupConfig) (env : Env) (d : Disk) : Prop :=
  ∀ n c, d.lookup (.log, n) = some (.regular c) →
    Present (backupExecuteHddDisabledStrategy config env d).2 c

lemma content_touched {o : Option Node} (h : o.bind Node.content? = some c) : touched o = o := by
  rcases o with - | (_ | _ | _ | _ | _)
  · cases h
  · rfl
  · rfl
  · rfl
  · rfl
  · cases h

/-- The end of a run loses nothing in `PreviousLogs`. -/
lemma content_finish (h : (d.lookup (.prev, n)).bind Node.content? = some c) :
    ((finish config env d).lookup (.prev, n)).bind Node.content? = some c := by
  by_cases hn : n = lastReboot
  · subst hn
    rcases lookup_finish_marker config env d with heq | heq
    · rw [heq, h]
    · rw [heq, content_touched h, h]
  · rw [lookup_finish_of_ne config env d hn, h]

lemma lookup_log_touchLastReboot (env : Env) (d : Disk) (n : Name) :
    (touchLastReboot env d).lookup (.log, n) = d.lookup (.log, n) := by
  rcases touchLastReboot_cases env d with heq | heq
  · rw [heq]
  · rw [heq, lookup_touch_of_ne d (log_ne_prev _ _)]

section Run

variable (hpower : ∀ stage, env.power stage = none)

include hpower

lemma copies_makeRoom_iff : Copies config env dExt (makeRoom config env d) n ↔
    Copies config env dExt d n := by
  have hwrite : ∀ k, Writable (makeRoom config env d) k ↔ Writable d k := by
    refine fun k => makeRoom_induction (P := fun d' => Writable d' k ↔ Writable d k) Iff.rfl ?_
    exact fun stage sExt dExt d' h => (writable_pass (hpower stage) k).trans h
  exact ⟨fun h => ⟨h.opens, h.tests, h.copy, (hwrite _).mp h.writable⟩,
    fun h => ⟨h.opens, h.tests, h.copy, (hwrite _).mpr h.writable⟩⟩

lemma lookup_log_makeRoom (n : Name) :
    (makeRoom config env d).lookup (.log, n) = d.lookup (.log, n) :=
  makeRoom_induction (P := fun d' => d'.lookup (.log, n) = d.lookup (.log, n)) rfl
    fun stage _ _ _ h => (lookup_log_pass (hpower stage) n).trans h

/-- A log is kept when it is copied, or not wiped. -/
lemma present_of_safe (hfits : config.Fits)
    (h : Wiped config env n → Copies config env (level d).ext d n)
    (hc : d.lookup (.log, n) = some (.regular c)) :
    Present (backupExecuteHddDisabledStrategy config env d).2 c := by
  rw [backupExecuteHddDisabledStrategy_eq hfits, backupLogs_eq]
  have hroom : (makeRoom config env d).lookup (.log, n) = d.lookup (.log, n) :=
    lookup_log_makeRoom hpower n
  by_cases hcopies : Copies config env (level d).ext d n
  · have hread : ((makeRoom config env d).lookup (.log, n)).bind Node.content? = some c := by
      rw [hroom, hc]
      rfl
    exact ⟨_, content_finish (content_of_copies (hpower .move)
      ((copies_makeRoom_iff hpower).mpr hcopies) hread)⟩
  · refine ⟨(.log, n), ?_⟩
    rw [finish, lookup_wipeLogPath_of_not_wiped (hpower .wipe) fun hwiped => hcopies (h hwiped),
      lookup_log_touchLastReboot, lookup_log_of_not_copies (hpower .move)
        ((copies_makeRoom_iff hpower).not.mpr hcopies), hroom, hc]
    rfl

end Run

/-! ### Lost contents -/

/-- The content can only be read from this log. -/
def OnlyAt (n : Name) (c : List Char) (d : Disk) : Prop :=
  ∀ l, (d.lookup l).bind Node.content? = some c → l = (.log, n)

/-- No copy that fails leaves the content. -/
def LeavesNot (env : Env) (c : List Char) : Prop :=
  ∀ stage n, env.copy stage n ≠ .failed (some c)

/-- Contents come from the source, or from a copy that fails. -/
lemma Performed.onlyAt {src dst : Loc} {c' : List Char} (h : Performed env stage src dst c' d d')
    (hleft : LeavesNot env c) (honly : OnlyAt n c d)
    (hcopied : Writable d dst → env.copy stage src.2 = .ok → c' ≠ c) : OnlyAt n c d' := by
  have hwritten : ∀ c₁, c₁ ≠ c → OnlyAt n c (d.insert dst (.written (d.lookup dst) c₁)) := by
    intro c₁ hne l hl
    by_cases heq : l = dst
    · subst heq
      rw [content_insert] at hl
      exact absurd (Option.some.inj hl) hne
    · rw [Finmap.lookup_insert_of_ne _ heq] at hl
      exact honly l hl
  cases h with
  | nothing => exact honly
  | spoiled _ hcopy =>
    refine hwritten _ ?_
    rintro rfl
    exact hleft stage src.2 hcopy
  | copied hwrite hcopy => exact hwritten _ (hcopied hwrite hcopy)
  | moved hwrite hcopy =>
    intro l hl
    by_cases heq : l = src
    · subst heq
      rw [Finmap.lookup_erase] at hl
      cases hl
    · rw [Finmap.lookup_erase_ne heq] at hl
      exact hwritten _ (hcopied hwrite hcopy) l hl

lemma content_of_touched {o : Option Node} (hne : c ≠ [])
    (h : (touched o).bind Node.content? = some c) : o.bind Node.content? = some c := by
  rcases o with - | (_ | _ | _ | _ | _)
  · exact absurd (Option.some.inj h).symm hne
  · exact h
  · exact h
  · exact h
  · exact h
  · exact absurd (Option.some.inj h).symm hne

section Lost

variable (hpower : ∀ stage, env.power stage = none) (hleft : LeavesNot env c)

include hpower hleft

lemma onlyAt_pass (h : OnlyAt n c d) :
    OnlyAt n c (backupAndRecoverLogs config env stage .prev .prev .move sExt dExt d) := by
  refine backupAndRecoverLogs_induction (hpower stage) h fun m k hm hP => ?_
  rcases (processEntry_performed config env stage .prev .prev sExt dExt hm k).2 with
    heq | ⟨r, c', -, -, hc, hperf⟩
  · rw [heq]
    exact hP
  · refine hperf.onlyAt hleft hP fun _ _ => ?_
    rintro rfl
    exact log_ne_prev _ _ (hP _ hc).symm

lemma onlyAt_moveLogs (hcopies : ¬Copies config env dExt d n) (h : OnlyAt n c d) :
    OnlyAt n c (moveLogs config env dExt d) := by
  rw [moveLogs]
  by_cases hopen : env.openFails .move = true
  · rwa [backupAndRecoverLogs, if_pos hopen, ite_self]
  refine (backupAndRecoverLogs_induction (P := fun d' =>
    OnlyAt n c d' ∧ ∀ k, Writable d' k ↔ Writable d k)
    (hpower .move) ⟨h, fun _ => Iff.rfl⟩ ?_).1
  intro m k hm hP
  rcases (processEntry_performed config env .move .log .prev [] dExt hm k).2 with
    heq | ⟨r, c', -, htests, hc, hperf⟩
  · rw [heq]
    exact hP
  · refine ⟨hperf.onlyAt hleft hP.1 fun hwrite hcopy => ?_,
      fun k => (hperf.writable_iff hc k).trans (hP.2 k)⟩
    rintro rfl
    obtain rfl : r = n := (Prod.mk.inj (hP.1 _ hc)).2
    exact hcopies ⟨by simpa using hopen, htests, hcopy, (hP.2 _).mp hwrite⟩

/-- A log that is wiped and not copied is lost, when its content is nowhere else. -/
lemma not_present_of_lost (hfits : config.Fits) (hwiped : Wiped config env n)
    (hcopies : ¬Copies config env (level d).ext d n) (hne : c ≠ []) (honly : OnlyAt n c d) :
    ¬Present (backupExecuteHddDisabledStrategy config env d).2 c := by
  rw [backupExecuteHddDisabledStrategy_eq hfits, backupLogs_eq]
  have hroom : OnlyAt n c (makeRoom config env d) :=
    makeRoom_induction honly fun _ _ _ _ h => onlyAt_pass hpower hleft h
  have hmoved := onlyAt_moveLogs hpower hleft ((copies_makeRoom_iff hpower).not.mpr hcopies) hroom
  rintro ⟨⟨w, x⟩, hl⟩
  cases w with
  | prev =>
    dsimp only at hl
    have hbefore : ((moveLogs config env (level d).ext (makeRoom config env d)).lookup
        (.prev, x)).bind Node.content? = some c := by
      by_cases hx : x = lastReboot
      · subst hx
        rcases lookup_finish_marker config env
          (moveLogs config env (level d).ext (makeRoom config env d)) with heq | heq
        · rwa [heq] at hl
        · rw [heq] at hl
          exact content_of_touched hne hl
      · rwa [lookup_finish_of_ne _ _ _ hx] at hl
    exact log_ne_prev _ _ (hmoved _ hbefore).symm
  | log =>
    dsimp only at hl
    by_cases hx : x = n
    · subst hx
      rw [finish, lookup_wipeLogPath_of_wiped (hpower .wipe) hwiped] at hl
      cases hl
    · cases hv : (finish config env (moveLogs config env (level d).ext
          (makeRoom config env d))).lookup (.log, x) with
      | none =>
        rw [hv] at hl
        cases hl
      | some v =>
        rw [hv] at hl
        have hbefore := lookup_finish_log config env _ hv
        refine hx (Prod.mk.inj (hmoved (.log, x) ?_)).2
        rw [hbefore]
        exact hl

end Lost

/-! ### Whatever the files contain -/

/-- The entry without its content. -/
def Node.kind : Node → Node
  | .regular _ => .regular []
  | .symlink _ => .symlink []
  | v => v

/-- The same entries, with any contents. -/
def SameKinds (d d' : Disk) : Prop :=
  ∀ l, (d'.lookup l).map Node.kind = (d.lookup l).map Node.kind

/-- The same operations fail. -/
structure SameFailures (env env' : Env) : Prop where
  opens : env'.openFails = env.openFails
  copies : ∀ stage n, env'.copy stage n = .ok ↔ env.copy stage n = .ok
  removes : env'.removeFails = env.removeFails
  touches : env'.touchFails = env.touchFails
  power : env'.power = env.power

lemma kind_eq_iff {o o' : Option Node} (h : o'.map Node.kind = o.map Node.kind) :
    (o' = some .directory ↔ o = some .directory) ∧ (o' = some .other ↔ o = some .other) ∧
      (o' = none ∨ o' = some .dangling ↔ o = none ∨ o = some .dangling) ∧
      ((∃ c, o' = some (.regular c)) → ∃ c, o = some (.regular c)) := by
  rcases o with - | (_ | _ | _ | _ | _) <;> rcases o' with - | (_ | _ | _ | _ | _) <;>
    simp_all [Node.kind]

lemma SameKinds.writable_iff (h : SameKinds d d') (l : Loc) : Writable d' l ↔ Writable d l := by
  obtain ⟨hdir, hother, -, -⟩ := kind_eq_iff (h l)
  simp only [Writable, Ne, hdir, hother]

lemma filePresentCheck_eq_false_iff :
    filePresentCheck d l = false ↔ d.lookup l = none ∨ d.lookup l = some .dangling := by
  unfold filePresentCheck
  rcases d.lookup l with - | (_ | _ | _ | _ | _) <;> simp

lemma SameKinds.filePresentCheck (h : SameKinds d d') (l : Loc) :
    filePresentCheck d' l = filePresentCheck d l := by
  rw [Bool.eq_iff_iff, ← not_iff_not, Bool.not_eq_true, Bool.not_eq_true,
    filePresentCheck_eq_false_iff, filePresentCheck_eq_false_iff]
  exact (kind_eq_iff (h l)).2.2.1

lemma SameKinds.level (h : SameKinds d d') : level d' = level d := by
  simp only [Backup.level, h.filePresentCheck]

lemma SameKinds.exists_regular (h : SameKinds d d') (hc : d'.lookup l = some (.regular c)) :
    ∃ c, d.lookup l = some (.regular c) :=
  (kind_eq_iff (h l)).2.2.2 ⟨c, hc⟩

lemma Copies.of_same (hsame : SameFailures env env') (hkinds : SameKinds d d')
    (h : Copies config env dExt d n) : Copies config env' dExt d' n :=
  ⟨by rw [hsame.opens, h.opens], h.tests, (hsame.copies _ _).mpr h.copy,
    (hkinds.writable_iff _).mpr h.writable⟩

lemma Wiped.of_same (hsame : SameFailures env env') (h : Wiped config env' n) :
    Wiped config env n :=
  ⟨by rw [← hsame.opens, h.opens], h.notDot, h.fits, by rw [← hsame.removes, h.removes]⟩

/-- A content that is nowhere on the disk. -/
lemma exists_content (d : Disk) : ∃ c : List Char, c ≠ [] ∧
    ∀ l, (d.lookup l).bind Node.content? ≠ some c := by
  obtain ⟨N, hN⟩ : ∃ N, ∀ l c, (d.lookup l).bind Node.content? = some c → c.length ≤ N := by
    let length (l : Loc) : ℕ := (((d.lookup l).bind Node.content?).getD []).length
    refine ⟨d.keys.sup length, fun l c hc => ?_⟩
    have hle : length l ≤ d.keys.sup length :=
      Finset.le_sup (Finmap.mem_keys.mpr (mem_of_content hc))
    rwa [show length l = c.length by simp only [length, hc, Option.getD_some]] at hle
  refine ⟨List.replicate (N + 1) 'x', by simp, fun l hl => ?_⟩
  have hle := hN l _ hl
  rw [List.length_replicate] at hle
  omega

/-- The environment, with copies that leave nothing when they fail. -/
def Env.clean (env : Env) : Env :=
  { env with copy := fun stage n =>
      match env.copy stage n with
      | .ok => .ok
      | .failed _ => .failed none }

lemma Env.sameFailures_clean (env : Env) : SameFailures env env.clean := by
  refine ⟨rfl, fun stage n => ?_, rfl, rfl, rfl⟩
  dsimp only [Env.clean]
  cases env.copy stage n <;> simp

lemma Env.leavesNot_clean (env : Env) (c : List Char) : LeavesNot env.clean c := by
  intro stage n h
  dsimp only [Env.clean] at h
  cases hcopy : env.copy stage n <;> simp [hcopy] at h

/-- The logs are kept, whatever the files contain, exactly if every log that is wiped is copied. No
two links share their target, so a copy through one link does not change another file. -/
theorem currentLogs_kept_iff (hpower : ∀ stage, env.power stage = none) :
    (∀ env' d', SameFailures env env' → SameKinds d d' → KeepsLogs config env' d') ↔
      (config.Fits → ∀ n c, d.lookup (.log, n) = some (.regular c) → Wiped config env n →
        Copies config env (level d).ext d n) := by
  constructor
  · intro hkeeps hfits n c hc hwiped
    by_contra hcopies
    -- only the log has the new content
    obtain ⟨c', hne, hnew⟩ := exists_content d
    have hkinds : SameKinds d (d.insert (.log, n) (.regular c')) := by
      intro l
      by_cases hl : l = (.log, n)
      · subst hl
        rw [Finmap.lookup_insert, hc]
        rfl
      · rw [Finmap.lookup_insert_of_ne _ hl]
    have honly : OnlyAt n c' (d.insert (.log, n) (.regular c')) := by
      intro l hl
      by_contra hl'
      rw [Finmap.lookup_insert_of_ne _ hl'] at hl
      exact hnew l hl
    have hkept := hkeeps env.clean _ env.sameFailures_clean hkinds n c' (Finmap.lookup_insert _)
    have hpower' : ∀ stage, env.clean.power stage = none := hpower
    refine not_present_of_lost hpower' (env.leavesNot_clean c') hfits
      ⟨hwiped.opens, hwiped.notDot, hwiped.fits, hwiped.removes⟩ (fun h => hcopies ?_) hne honly
      hkept
    rw [hkinds.level] at h
    exact ⟨h.opens, h.tests, (env.sameFailures_clean.copies _ _).mp h.copy,
      (hkinds.writable_iff _).mp h.writable⟩
  · intro hsafe env' d' hsame hkinds n c hc
    by_cases hfits : config.Fits
    · refine present_of_safe (fun stage => by rw [hsame.power, hpower]) hfits (fun hwiped => ?_) hc
      obtain ⟨c', hc'⟩ := hkinds.exists_regular hc
      rw [hkinds.level]
      exact (hsafe hfits n c' hc' (hwiped.of_same hsame)).of_same hsame hkinds
    · have hlong : pathMax ≤ config.prevLogPath.length + 19 ∨
          pathMax ≤ config.logPath.length + 2 := by
        by_contra hshort
        exact hfits ⟨by omega, by omega⟩
      have hstays : (backupExecuteHddDisabledStrategy config env' d').2 = d' := by
        unfold backupExecuteHddDisabledStrategy
        split_ifs
        · rfl
        · rfl
        · omega
        · omega
      rw [hstays]
      exact ⟨(.log, n), by rw [hc]; rfl⟩

/-- Only the system log is there. -/
def sysLogDisk : Disk := (∅ : Disk).insert (.log, sysLog) (.regular ['a'])

lemma lookup_sysLogDisk (l : Loc) :
    sysLogDisk.lookup l = if l = (.log, sysLog) then some (.regular ['a']) else none := by
  split_ifs with h
  · rw [h]
    exact Finmap.lookup_insert _
  · exact (Finmap.lookup_insert_of_ne _ h).trans (Finmap.lookup_empty _)

def appTxt : Name := "app.txt".toList

/-- The system log and another one are there. -/
def appDisk : Disk := sysLogDisk.insert (.log, appTxt) (.regular ['b'])

lemma lookup_appDisk_app : appDisk.lookup (.log, appTxt) = some (.regular ['b']) :=
  Finmap.lookup_insert _

lemma lookup_appDisk_of_ne {l : Loc} (h : l ≠ (.log, appTxt)) :
    appDisk.lookup l = if l = (.log, sysLog) then some (.regular ['a']) else none := by
  rw [appDisk, Finmap.lookup_insert_of_ne _ h, lookup_sysLogDisk]

lemma lookup_appDisk_prev (x : Name) : appDisk.lookup (.prev, x) = none := by
  rw [lookup_appDisk_of_ne (log_ne_prev _ _).symm, if_neg (log_ne_prev _ _).symm]

/-- The original of the other log cannot be removed, and `messages.txt` cannot be created. -/
noncomputable def Env.withoutTouch : Env :=
  { Env.withCopies fun _ _ => .ok with
    removeFails := fun _ n => n = appTxt
    touchFails := true }

lemma copies_appDisk (hn : n = sysLog ∨ n = appTxt) :
    Copies prevConfig Env.withoutTouch [] appDisk n := by
  have hfree : appDisk.lookup (.prev, [] ++ n) ≠ some .directory ∧
      appDisk.lookup (.prev, [] ++ n) ≠ some .other := by
    rw [lookup_appDisk_prev]
    exact ⟨nofun, nofun⟩
  rcases hn with rfl | rfl
  · exact ⟨rfl, ⟨by decide, by decide, by decide, by decide⟩, rfl, by decide, hfree⟩
  · exact ⟨rfl, ⟨by decide, by decide, by decide, by decide⟩, rfl, by decide, hfree⟩

theorem keepsLogs_appDisk : KeepsLogs prevConfig Env.withoutTouch appDisk := by
  have hsame : SameFailures Env.withoutTouch Env.withoutTouch :=
    ⟨rfl, fun _ _ => Iff.rfl, rfl, rfl, rfl⟩
  refine (currentLogs_kept_iff fun _ => rfl).mpr (fun _ n c hc _ => ?_) _ _ hsame fun _ => rfl
  have hlevel : level appDisk = .base := by
    rw [level, filePresentCheck, lookup_appDisk_prev]
    rfl
  rw [hlevel]
  refine copies_appDisk ?_
  by_cases hn : n = appTxt
  · exact Or.inr hn
  · rw [lookup_appDisk_of_ne fun h => hn (Prod.mk.inj h).2] at hc
    split_ifs at hc with h
    exact Or.inl (Prod.mk.inj h).2

theorem sysLog_lost :
    ¬KeepsLogs prevConfig (Env.withCopies fun _ _ => .failed none) sysLogDisk := by
  have hleft : LeavesNot (Env.withCopies fun _ _ => .failed none) ['a'] := fun _ _ => nofun
  have honly : OnlyAt sysLog ['a'] sysLogDisk := by
    intro l hl
    by_contra hne
    rw [lookup_sysLogDisk, if_neg hne] at hl
    cases hl
  intro hkeeps
  refine not_present_of_lost (fun _ => rfl) hleft ⟨by decide, by decide⟩
    ⟨rfl, by decide, by decide, rfl⟩ (fun h => ?_) (by simp) honly
    (hkeeps sysLog ['a'] (Finmap.lookup_insert _))
  cases h.copy

end DcmAgent.Backup
