import Mathlib.Tactic
import DcmAgent.Backup.Loss

/-!
# Runs that are cut off

A run that loses the power does nothing afterwards, not even in its later passes. A pass that was
cut off and is started again ends as if it had never been cut off.
-/

namespace DcmAgent.Backup

open Library

variable {config : BackupConfig} {env e e' : Env} {stage : Stage} {source dest : Where}
  {sExt dExt dExt' : List Char} {m : Machine} {d d' : Disk} {r n : Name} {c : List Char}

/-! ### Environments -/

/-- Everything succeeds, and there is power to the end. -/
structure Env.Uncut (env : Env) : Prop where
  reliable : env.Reliable
  power : ∀ stage, env.power stage = none

/-- Everything succeeds until the power is lost, and nothing is done afterwards. -/
structure Env.CutOff (env : Env) : Prop where
  reliable : env.Reliable
  off : ∀ s t : Stage, s.index < t.index → env.power s ≠ none → env.power t = some 0

lemma Env.CutOff.power_none (h : env.CutOff) {s t : Stage} (hlt : s.index < t.index)
    (ht : env.power t = none) : env.power s = none := by
  by_contra hs
  have hoff := h.off s t hlt hs
  rw [ht] at hoff
  cases hoff

lemma Env.CutOff.power_before (h : env.CutOff) (hpower : env.power .rotate3 = none) (s : Stage)
    (hs : s.index < Stage.move.index) : env.power s = none := by
  by_cases hs3 : s = .rotate3
  · rw [hs3]
    exact hpower
  · refine h.power_none (t := .rotate3) ?_ hpower
    cases s <;> simp_all [Stage.index]

/-! ### Without power -/

lemma processEntry_off (hpower : m.power = some 0) (n : Name) :
    processEntry config env stage source dest .move sExt dExt m n = m := by
  rcases processEntry_cases config env stage source dest .move sExt dExt m n with
    heq | ⟨r, c, -, -, -, heq⟩
  · exact heq
  · rw [heq, performOperation]
    dsimp only
    rw [Machine.op_some_zero hpower, Machine.op_some_zero hpower, ite_self]

lemma foldl_off (l : List Name) (hpower : m.power = some 0) :
    l.foldl (processEntry config env stage source dest .move sExt dExt) m = m := by
  induction l with
  | nil => rfl
  | cons n l ih => rw [List.foldl_cons, processEntry_off hpower, ih]

lemma backupAndRecoverLogs_off (hpower : env.power stage = some 0) :
    backupAndRecoverLogs config env stage source dest .move sExt dExt d = d := by
  unfold backupAndRecoverLogs
  rw [foldl_off _ hpower]
  split_ifs <;> rfl

lemma wipeEntry_off (hpower : m.power = some 0) (n : Name) : wipeEntry config env m n = m := by
  unfold wipeEntry
  split_ifs
  · rfl
  · rfl
  · exact Machine.op_some_zero hpower _
  · exact Machine.op_some_zero hpower _

lemma finish_off (htouch : env.power .touch = some 0) (hwipe : env.power .wipe = some 0) :
    finish config env d = d := by
  have hfold : ∀ (l : List Name) (m : Machine), m.power = some 0 →
      l.foldl (wipeEntry config env) m = m := by
    intro l
    induction l with
    | nil => exact fun _ _ => rfl
    | cons n l ih =>
      intro m hm
      rw [List.foldl_cons, wipeEntry_off hm, ih m hm]
  have htouched : touchLastReboot env d = d := by
    rw [touchLastReboot, Machine.op_some_zero htouch]
  rw [finish, htouched, wipeLogPath, hfold _ _ hwipe, ite_self]

/-! ### Passes to the end -/

lemma entries_injective (h : entries d = entries d') : d = d' :=
  Finmap.ext_lookup fun l => congrFun h l

/-- A pass has one result, whatever the order of the entries. -/
lemma pass_unique (he : e.Reliable) (he' : e'.Reliable) (hpower : e.power stage = none)
    (hpower' : e'.power stage = none) (hready : Ready config source dest sExt dExt d) :
    backupAndRecoverLogs config e stage source dest .move sExt dExt d =
      backupAndRecoverLogs config e' stage source dest .move sExt dExt d :=
  entries_injective ((backupAndRecoverLogs_complete he hpower hready).unique
    (backupAndRecoverLogs_complete he' hpower' hready))

/-- A pass that was cut off is completed by the next one. -/
lemma pass_resumed (henv : env.Reliable) (he : e.Reliable) (he' : e'.Reliable)
    (hpower : e.power stage = none) (hpower' : e'.power stage = none)
    (hready : Ready config source dest sExt dExt d)
    (hready' : Ready config source dest sExt dExt
      (backupAndRecoverLogs config env stage source dest .move sExt dExt d)) :
    backupAndRecoverLogs config e stage source dest .move sExt dExt
        (backupAndRecoverLogs config env stage source dest .move sExt dExt d) =
      backupAndRecoverLogs config e' stage source dest .move sExt dExt d :=
  entries_injective (((backupAndRecoverLogs_between stage henv hready).complete
    (backupAndRecoverLogs_complete he hpower hready')).unique
      (backupAndRecoverLogs_complete he' hpower' hready))

lemma regular_pass (stage : Stage) (henv : env.Reliable)
    (hready : Ready config source .prev sExt dExt d) (hreg : Regular d) :
    Regular (backupAndRecoverLogs config env stage source .prev .move sExt dExt d) :=
  hreg.of_partial (backupAndRecoverLogs_between stage henv hready)

/-! ### The end of a run -/

/-- The same `PreviousLogs`. -/
def SamePrev (d d' : Disk) : Prop := ∀ n, d.lookup (.prev, n) = d'.lookup (.prev, n)

lemma Regular.of_samePrev (h : Regular d) (hsame : SamePrev d' d) : Regular d' :=
  fun n v hv => h n v ((hsame n).symm.trans hv)

lemma lookup_finish_uncut (he : e.Uncut) (d : Disk) (n : Name) :
    (finish config e d).lookup (.prev, n) =
      if n = lastReboot then touched (d.lookup (.prev, n)) else d.lookup (.prev, n) := by
  split_ifs with hn
  · subst hn
    exact lookup_finish_marker_complete he.reliable (he.power .touch) d
  · exact lookup_finish_of_ne config e d hn

lemma SamePrev.finish (h : SamePrev d d') (he : e.Uncut) (he' : e'.Uncut) :
    SamePrev (finish config e d) (finish config e' d') := by
  intro n
  rw [lookup_finish_uncut he, lookup_finish_uncut he', h n]

/-- The marker that was touched before is touched again. -/
lemma finish_finish (env : Env) (h : SamePrev d (finish config env d')) (he : e.Uncut)
    (he' : e'.Uncut) : SamePrev (Backup.finish config e d) (Backup.finish config e' d') := by
  intro n
  rw [lookup_finish_uncut he, lookup_finish_uncut he', h n]
  split_ifs with hn
  · subst hn
    rcases lookup_finish_marker config env d' with heq | heq
    · rw [heq]
    · rw [heq, touched_touched]
  · exact lookup_finish_of_ne config env d' hn

lemma Regular.finish (h : Regular d) : Regular (finish config env d) := by
  intro n v hv
  by_cases hn : n = lastReboot
  · subst hn
    rcases lookup_finish_marker config env d with heq | heq
    · exact h _ v (heq.symm.trans hv)
    · rw [heq] at hv
      cases hl : d.lookup (.prev, lastReboot) with
      | none =>
        rw [hl] at hv
        exact ⟨[], (Option.some.inj hv).symm⟩
      | some w =>
        obtain ⟨c, rfl⟩ := h _ w hl
        rw [hl] at hv
        exact ⟨c, (Option.some.inj hv).symm⟩
  · rw [lookup_finish_of_ne config env d hn] at hv
    exact h n v hv

/-! ### The pass that moves the logs -/

section Resumed

variable (hreg : Regular d) (hext : dExt = [] ∨ 3 ≤ dExt.length) (henv : env.CutOff)

include hreg hext henv

/-- When all logs have been moved nothing is left to move, to a prefix that is not shorter. -/
lemma none_movable (hpower : env.power .move = none) (hlen : dExt.length ≤ dExt'.length) :
    ∀ r c, ¬(passTransfer config .log .prev [] dExt').Movable
      (entries (finish config env (moveLogs config env dExt d))) r c := by
  rintro r c ⟨⟨htests, -, -⟩, hread⟩
  have hcomplete := backupAndRecoverLogs_complete henv.reliable hpower
    (ready_move config hreg hext)
  refine hcomplete.none_movable r c ⟨⟨⟨htests.notDot, htests.notActive, htests.sourceFits, ?_⟩,
    not_isDot_append htests.notDot hext, fun heq => by cases heq⟩, ?_⟩
  · have hfits := htests.destFits
    simp only [List.length_append] at hfits ⊢
    omega
  · have hread' : ((finish config env (moveLogs config env dExt d)).lookup (.log, [] ++ r)).bind
        Node.content? = some c := hread
    cases hv : (finish config env (moveLogs config env dExt d)).lookup (.log, [] ++ r) with
    | none =>
      rw [hv] at hread'
      cases hread'
    | some v =>
      rw [hv] at hread'
      change ((moveLogs config env dExt d).lookup (.log, [] ++ r)).bind Node.content? = some c
      rw [lookup_finish_log config env _ hv]
      exact hread'

/-- The next run moves what is left. -/
lemma moveLogs_resumed (config : BackupConfig) (hext' : dExt' = [] ∨ 3 ≤ dExt'.length)
    (hlen : dExt.length ≤ dExt'.length) (hsame : dExt' = dExt ∨ env.power .move = none)
    (he : e.Uncut) (he' : e'.Uncut) :
    SamePrev
      (finish config e (moveLogs config e dExt' (finish config env (moveLogs config env dExt d))))
      (finish config e' (moveLogs config e' dExt d)) := by
  have hready : Ready config .log .prev [] dExt d := ready_move _ hreg hext
  have hmoved : Regular (moveLogs config env dExt d) := regular_pass _ henv.reliable hready hreg
  by_cases hpower : env.power .move = none
  · have hmoved' : Regular (finish config env (moveLogs config env dExt d)) := hmoved.finish
    have hrest := backupAndRecoverLogs_complete he.reliable (he.power .move)
      (ready_move config hmoved' hext')
    have hframe := hrest.frame.eq (none_movable hreg hext henv hpower hlen)
    have hdone : moveLogs config env dExt d = moveLogs config e' dExt d :=
      pass_unique henv.reliable he'.reliable hpower (he'.power _) hready
    rw [← hdone]
    exact finish_finish env (fun n => congrFun hframe (.prev, n)) he he'
  · have hfinish : finish config env (moveLogs config env dExt d) = moveLogs config env dExt d :=
      finish_off (henv.off .move .touch (by decide) hpower)
        (henv.off .move .wipe (by decide) hpower)
    obtain rfl : dExt' = dExt := hsame.resolve_right hpower
    rw [hfinish]
    have hagain : moveLogs config e dExt' (moveLogs config env dExt' d) =
        moveLogs config e' dExt' d :=
      pass_resumed henv.reliable he.reliable he'.reliable (he.power _) (he'.power _) hready
        (ready_move _ hmoved hext)
    rw [hagain]
    exact SamePrev.finish (fun _ => rfl) he he'

end Resumed

/-! ### One run -/

/-- The disk after a run. -/
def afterRun (config : BackupConfig) (env : Env) (d : Disk) : Disk :=
  (backupExecuteHddDisabledStrategy config env d).2

lemma afterRun_eq (hfits : config.Fits) (env : Env) (d : Disk) : afterRun config env d =
    finish config env (moveLogs config env (level d).ext (makeRoom config env d)) := by
  rw [afterRun, backupExecuteHddDisabledStrategy_eq hfits, backupLogs_eq]

lemma Level.ext_cases (l : Level) : l.ext = [] ∧ l = .base ∨ l ≠ .base ∧ l.ext.length = 5 := by
  cases l with
  | base => exact .inl ⟨rfl, rfl⟩
  | bak1 | bak2 | bak3 | full => exact .inr ⟨nofun, rfl⟩

lemma Level.ext_or (l : Level) : l.ext = [] ∨ 3 ≤ l.ext.length := by
  rcases l.ext_cases with ⟨h, -⟩ | ⟨-, h⟩
  · exact .inl h
  · exact .inr (by omega)

lemma level_eq_base_iff : level d = .base ↔ filePresentCheck d (.prev, sysLog) = false := by
  unfold level
  split_ifs with h <;> simp_all

lemma makeRoom_of_ne (h : level d ≠ .full) : makeRoom config env d = d := by
  unfold makeRoom
  split
  · rename_i heq
    exact absurd heq h
  · rfl

lemma makeRoom_of_full (h : level d = .full) : makeRoom config env d = rotate config env d := by
  rw [makeRoom, h]

/-! ### Rotating -/

/-- No new names of the first prefix come up while its files are moved. -/
lemma Single.of_partial (h : Single d)
    (hpart : (passTransfer config .prev .prev bak1 []).Partial (entries d) (entries d')) :
    Single d' := by
  intro r hr
  obtain ⟨v, hv⟩ := Finmap.mem_iff.mp hr
  rcases partial_cases hpart (.prev, bak1 ++ r) with heq | ⟨r', c, hname, hmov, -⟩ |
    ⟨r', c, -, -, heq⟩
  · exact h r (Finmap.mem_iff.mpr ⟨v, heq.symm.trans hv⟩)
  · exact absurd ⟨r, (Prod.mk.inj hname).2⟩ (hmov.1.2.2 rfl)
  · cases heq.symm.trans hv

section Rotate

variable (hreg : Regular d) (hsingle : Single d)

include hreg hsingle

/-- Room is made in one way. -/
lemma rotate_unique (config : BackupConfig) (he : e.Reliable) (he' : e'.Reliable)
    (hpower : ∀ s : Stage, s.index < Stage.move.index → e.power s = none)
    (hpower' : ∀ s : Stage, s.index < Stage.move.index → e'.power s = none) :
    rotate config e d = rotate config e' d ∧ Regular (rotate config e d) := by
  have hfirst := pass_unique he he' (hpower .rotate1 (by decide)) (hpower' .rotate1 (by decide))
    (ready_rotate1 config hreg hsingle)
  have hreg₁ := regular_pass .rotate1 he (ready_rotate1 config hreg hsingle)
    hreg
  have hsecond := pass_unique he he' (hpower .rotate2 (by decide)) (hpower' .rotate2 (by decide))
    (ready_rotate2 config hreg₁)
  have hreg₂ := regular_pass .rotate2 he (ready_rotate2 config hreg₁) hreg₁
  have hthird := pass_unique he he' (hpower .rotate3 (by decide)) (hpower' .rotate3 (by decide))
    (ready_rotate3 config hreg₂)
  refine ⟨?_, regular_pass _ he (ready_rotate3 config hreg₂) hreg₂⟩
  simp only [rotate]
  rw [hthird, hsecond, hfirst]

end Rotate

end DcmAgent.Backup
