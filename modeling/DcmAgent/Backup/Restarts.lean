import Mathlib.Tactic
import DcmAgent.Backup.Power

/-!
# Runs that are started again

When the power is lost the next run starts from what is there, and chooses its branch by the system
logs of `PreviousLogs`. It goes on where the last run was cut off only if it takes the same branch
again, or if nothing is left to do.
-/

namespace DcmAgent.Backup

open Library

variable {config : BackupConfig} {env e e' : Env} {stage : Stage} {source : Where}
  {sExt dExt : List Char} {d d' d₀ : Disk} {n : Name} {c : List Char}

/-! ### Levels -/

lemma ext_ne_lastReboot (l : Level) : l.ext ++ sysLog ≠ lastReboot := by
  cases l <;> decide

lemma level_eq_full_iff : level d = .full ↔
    ∀ l : Level, filePresentCheck d (.prev, l.ext ++ sysLog) = true := by
  constructor
  · intro h l
    unfold level at h
    split_ifs at h with h₀ h₁ h₂ h₃
    cases l <;> simpa [Level.ext] using by assumption
  · intro h
    have h₀ := h .base
    have h₁ := h .bak1
    have h₂ := h .bak2
    have h₃ := h .bak3
    simp only [Level.ext, List.nil_append] at h₀ h₁ h₂ h₃
    simp [level, h₀, h₁, h₂, h₃]

/-- The level is the first one without the system log. -/
lemma filePresentCheck_level (h : level d ≠ .full) :
    filePresentCheck d (.prev, (level d).ext ++ sysLog) = false := by
  unfold level at h ⊢
  split_ifs at h ⊢ with h₀ h₁ h₂ h₃ <;> simp_all [Level.ext]

/-- The level stays when the system log does not come to it and none is removed. -/
lemma level_eq_of_keeps (h : level d ≠ .full)
    (hkeeps : ∀ l : Level, filePresentCheck d (.prev, l.ext ++ sysLog) = true →
      filePresentCheck d' (.prev, l.ext ++ sysLog) = true)
    (hmissing : filePresentCheck d' (.prev, (level d).ext ++ sysLog) = false) :
    level d' = level d := by
  have h₀ := hkeeps .base
  have h₁ := hkeeps .bak1
  have h₂ := hkeeps .bak2
  have h₃ := hkeeps .bak3
  simp only [Level.ext, List.nil_append] at h₀ h₁ h₂ h₃
  unfold level at h hmissing ⊢
  split_ifs at h hmissing ⊢ <;> simp_all [Level.ext]

/-- A pass removes only its sources. -/
lemma filePresentCheck_of_partial (hreg : Regular d)
    (hpart : (passTransfer config source .prev sExt dExt).Partial (entries d) (entries d'))
    (hsource : ∀ r, ((.prev, n) : Loc) ≠ (source, sExt ++ r))
    (h : filePresentCheck d (.prev, n) = true) : filePresentCheck d' (.prev, n) = true := by
  rcases partial_cases hpart (.prev, n) with heq | ⟨r, c, -, -, heq⟩ | ⟨r, c, hname, -, -⟩
  · rw [filePresentCheck, show d'.lookup (.prev, n) = d.lookup (.prev, n) from heq]
    exact h
  · have hwritten : Node.written (entries d (.prev, n)) c = .regular c := hreg.written
    rw [hwritten] at heq
    rw [filePresentCheck, show d'.lookup (.prev, n) = some (.regular c) from heq]
  · exact absurd hname (hsource r)

lemma level_eq_bak3 (h : level d = .bak3)
    (hkeeps : ∀ l : Level, filePresentCheck d (.prev, l.ext ++ sysLog) = true →
      filePresentCheck d' (.prev, l.ext ++ sysLog) = true)
    (hnot : level d' ≠ .full) : level d' = .bak3 := by
  have hne : level d ≠ .full := by
    rw [h]
    decide
  refine (level_eq_of_keeps hne hkeeps ?_).trans h
  rw [h]
  by_contra hpresent
  refine hnot (level_eq_full_iff.mpr fun l => ?_)
  unfold level at h
  split_ifs at h with h₀ h₁ h₂ h₃
  cases l with
  | base => exact hkeeps .base (by simpa [Level.ext] using h₀)
  | bak1 => exact hkeeps .bak1 (by simpa [Level.ext] using h₁)
  | bak2 => exact hkeeps .bak2 (by simpa [Level.ext] using h₂)
  | bak3 | full => simpa [Level.ext] using hpresent

/-- The system log of a level can be moved to the level before it. -/
lemma movable_sysLog (hfits : config.Fits) (hreg : Regular d)
    (hexts : sExt = bak1 ∧ dExt = [] ∨ sExt = bak2 ∧ dExt = bak1 ∨ sExt = bak3 ∧ dExt = bak2)
    (h : filePresentCheck d (.prev, sExt ++ sysLog) = true) :
    ∃ c, (passTransfer config .prev .prev sExt dExt).Movable (entries d) sysLog c := by
  obtain ⟨c, hc⟩ : ∃ c, d.lookup (.prev, sExt ++ sysLog) = some (.regular c) := by
    cases hv : d.lookup (.prev, sExt ++ sysLog) with
    | none =>
      rw [filePresentCheck, hv] at h
      cases h
    | some v =>
      obtain ⟨c, rfl⟩ := hreg _ v hv
      exact ⟨c, rfl⟩
  have hprev := hfits.prev
  have hlog : sysLog.length = 12 := rfl
  refine ⟨c, ⟨⟨?_, ?_, ?_, ?_⟩, ?_, fun _ => ?_⟩, ?_⟩
  · rcases hexts with ⟨rfl, rfl⟩ | ⟨rfl, rfl⟩ | ⟨rfl, rfl⟩ <;> decide
  · rcases hexts with ⟨rfl, rfl⟩ | ⟨rfl, rfl⟩ | ⟨rfl, rfl⟩ <;> decide
  · rcases hexts with ⟨rfl, rfl⟩ | ⟨rfl, rfl⟩ | ⟨rfl, rfl⟩ <;>
      simp only [BackupConfig.slash, List.length_append, List.length_cons, List.length_nil,
        length_bak1, length_bak2, length_bak3, hlog] <;> omega
  · rcases hexts with ⟨rfl, rfl⟩ | ⟨rfl, rfl⟩ | ⟨rfl, rfl⟩ <;>
      simp only [BackupConfig.slash, List.length_append, List.length_cons, List.length_nil,
        length_bak1, length_bak2, hlog] <;> omega
  · rcases hexts with ⟨rfl, rfl⟩ | ⟨rfl, rfl⟩ | ⟨rfl, rfl⟩ <;> decide
  · rcases hexts with ⟨rfl, rfl⟩ | ⟨rfl, rfl⟩ | ⟨rfl, rfl⟩ <;> decide
  · change (d.lookup (.prev, sExt ++ sysLog)).bind Node.content? = some c
    rw [hc]
    rfl

/-- What a pass that rotates does with the system logs. -/
lemma rotated_sysLog (hfits : config.Fits) (hreg : Regular d)
    (hexts : sExt = bak1 ∧ dExt = [] ∨ sExt = bak2 ∧ dExt = bak1 ∨ sExt = bak3 ∧ dExt = bak2)
    (hcomplete : (passTransfer config .prev .prev sExt dExt).Complete (entries d) (entries d'))
    (h : filePresentCheck d (.prev, sExt ++ sysLog) = true) :
    filePresentCheck d' (.prev, dExt ++ sysLog) = true ∧
      filePresentCheck d' (.prev, sExt ++ sysLog) = false := by
  obtain ⟨c, hc⟩ := movable_sysLog hfits hreg hexts h
  obtain ⟨hsrc, hdst⟩ := hcomplete.item _ _ hc
  have hwritten : Node.written (entries d (.prev, dExt ++ sysLog)) c = .regular c := hreg.written
  constructor
  · rw [filePresentCheck, show d'.lookup (.prev, dExt ++ sysLog) =
      some (.written (entries d (.prev, dExt ++ sysLog)) c) from hdst, hwritten]
  · rw [filePresentCheck, show d'.lookup (.prev, sExt ++ sysLog) = none from hsrc]

/-! ### Cuts that are recovered from -/

/-- Some `messages.txt` is not there, and the logs do not bring it. -/
def Missing (config : BackupConfig) (d : Disk) : Prop :=
  ∃ l : Level, filePresentCheck d (.prev, l.ext ++ sysLog) = false ∧
    ∀ x, (level d).ext ++ x = l.ext ++ sysLog →
      ¬Moves config .log .prev [] (level d).ext d x

/-- The power is lost before `messages.txt` is copied, or after all logs have been moved. -/
def CutInMove (config : BackupConfig) (env : Env) (d : Disk) : Prop :=
  Early config env .move .log .prev [] (level d).ext sysLog 0 d ∨
    env.power .move = none ∧ Missing config d

/-- A run that rotates may also lose the power before `bak1_messages.txt` is removed, and then not
before it has rotated all files. -/
def Recoverable (config : BackupConfig) (env : Env) (d : Disk) : Prop :=
  if level d = .full then
    Early config env .rotate1 .prev .prev bak1 [] (bak1 ++ sysLog) 1 d ∨
      env.power .rotate3 = none ∧ CutInMove config env (makeRoom config env d)
  else CutInMove config env d

lemma Early.power_ne {extra : ℕ} (h : Early config env stage source dest sExt dExt n extra d) :
    env.power stage ≠ none := by
  obtain ⟨k, hk, -⟩ := h
  rw [hk]
  exact Option.some_ne_none k

section Recover

variable (hfits : config.Fits) (hreg : Regular d) (henv : env.CutOff)

include hreg henv

/-- Moving the logs removes no system log of `PreviousLogs`. -/
lemma filePresentCheck_finish (config : BackupConfig) (l : Level)
    (h : filePresentCheck d (.prev, l.ext ++ sysLog) = true) :
    filePresentCheck (finish config env (moveLogs config env (level d).ext d))
      (.prev, l.ext ++ sysLog) = true := by
  have hpart := backupAndRecoverLogs_between .move henv.reliable
    (ready_move config hreg (level d).ext_or)
  rw [filePresentCheck, lookup_finish_of_ne _ _ _ (ext_ne_lastReboot l)]
  exact filePresentCheck_of_partial hreg hpart (fun r => (log_ne_prev _ _).symm) h

/-- The level after the logs have been moved, or after the move has been cut off. -/
lemma level_of_cutInMove (hlevel : level d ≠ .full) (h : CutInMove config env d) :
    let next := level (finish config env (moveLogs config env (level d).ext d))
    next = level d ∨ env.power .move = none ∧ next ≠ .full := by
  intro next
  have hready : Ready config .log .prev [] (level d).ext d := ready_move _ hreg (level d).ext_or
  have hpart := backupAndRecoverLogs_between .move henv.reliable hready
  rcases h with hearly | ⟨hpower, l, hmissing, hno⟩
  · left
    have hpower := hearly.power_ne
    have hfinish : finish config env (moveLogs config env (level d).ext d) =
        moveLogs config env (level d).ext d :=
      finish_off (henv.off .move .touch (by decide) hpower)
        (henv.off .move .wipe (by decide) hpower)
    refine level_eq_of_keeps hlevel (filePresentCheck_finish hreg henv config) ?_
    · have hsame : (moveLogs config env (level d).ext d).lookup (.prev, (level d).ext ++ sysLog) =
          d.lookup (.prev, (level d).ext ++ sysLog) := by
        refine lookup_early henv.reliable hready hearly (fun x r hx hr _ => ?_) (.inl rfl)
        subst hr
        exact ⟨(log_ne_prev _ _).symm, by simpa using Ne.symm hx⟩
      rw [hfinish, filePresentCheck, hsame]
      exact filePresentCheck_level hlevel
  · right
    refine ⟨hpower, fun hfull => ?_⟩
    have hpresent := level_eq_full_iff.mp hfull l
    rw [filePresentCheck, lookup_finish_of_ne _ _ _ (ext_ne_lastReboot l)] at hpresent
    rcases partial_cases hpart (.prev, l.ext ++ sysLog) with heq | ⟨r, c, hname, hmov, -⟩ |
      ⟨r, c, hname, -, -⟩
    · rw [show (moveLogs config env (level d).ext d).lookup (.prev, l.ext ++ sysLog) =
        d.lookup (.prev, l.ext ++ sysLog) from heq] at hpresent
      exact absurd (hpresent.symm.trans hmissing) (by decide)
    · exact hno r (Prod.mk.inj hname).2.symm ⟨r, c, rfl, hmov⟩
    · exact log_ne_prev _ _ hname.symm

include hfits

/-- The level after all files have been rotated. -/
lemma level_rotate (hsingle : Single d) (hfull : level d = .full)
    (hpower : ∀ s : Stage, s.index < Stage.move.index → env.power s = none) :
    level (rotate config env d) = .bak3 := by
  have hall := level_eq_full_iff.mp hfull
  have h₀ : filePresentCheck d (.prev, sysLog) = true := hall .base
  have h₁ : filePresentCheck d (.prev, bak1 ++ sysLog) = true := hall .bak1
  have h₂ : filePresentCheck d (.prev, bak2 ++ sysLog) = true := hall .bak2
  have h₃ : filePresentCheck d (.prev, bak3 ++ sysLog) = true := hall .bak3
  have hready₁ : Ready config .prev .prev bak1 [] d := ready_rotate1 _ hreg hsingle
  have hc₁ := backupAndRecoverLogs_complete henv.reliable (hpower .rotate1 (by decide)) hready₁
  have hreg₁ := regular_pass .rotate1 henv.reliable hready₁ hreg
  rw [rotate]
  generalize backupAndRecoverLogs config env .rotate1 .prev .prev .move bak1 [] d = d₁
    at hc₁ hreg₁ ⊢
  have hfirst : ∀ (sExt : List Char), ¬bak1 <+: sExt ++ sysLog →
      filePresentCheck d (.prev, sExt ++ sysLog) = true →
      filePresentCheck d₁ (.prev, sExt ++ sysLog) = true := fun sExt hne =>
    filePresentCheck_of_partial hreg hc₁.toPartial fun r h => hne ⟨r, (Prod.mk.inj h).2.symm⟩
  have h₀' := (rotated_sysLog hfits hreg (.inl ⟨rfl, rfl⟩) hc₁ h₁).1
  have h₂' := hfirst bak2 (by decide) h₂
  have h₃' := hfirst bak3 (by decide) h₃
  have hready₂ : Ready config .prev .prev bak2 bak1 d₁ := ready_rotate2 _ hreg₁
  have hc₂ := backupAndRecoverLogs_complete henv.reliable (hpower .rotate2 (by decide)) hready₂
  have hreg₂ := regular_pass .rotate2 henv.reliable hready₂ hreg₁
  generalize backupAndRecoverLogs config env .rotate2 .prev .prev .move bak2 bak1 d₁ = d₂
    at hc₂ hreg₂ ⊢
  have hsecond : ∀ (sExt : List Char), ¬bak2 <+: sExt ++ sysLog →
      filePresentCheck d₁ (.prev, sExt ++ sysLog) = true →
      filePresentCheck d₂ (.prev, sExt ++ sysLog) = true := fun sExt hne =>
    filePresentCheck_of_partial hreg₁ hc₂.toPartial fun r h => hne ⟨r, (Prod.mk.inj h).2.symm⟩
  have h₀'' := hsecond [] (by decide) h₀'
  have h₁'' := (rotated_sysLog hfits hreg₁ (.inr (.inl ⟨rfl, rfl⟩)) hc₂ h₂').1
  have h₃'' := hsecond bak3 (by decide) h₃'
  have hready₃ : Ready config .prev .prev bak3 bak2 d₂ := ready_rotate3 _ hreg₂
  have hc₃ := backupAndRecoverLogs_complete henv.reliable (hpower .rotate3 (by decide)) hready₃
  generalize backupAndRecoverLogs config env .rotate3 .prev .prev .move bak3 bak2 d₂ = d₃ at hc₃ ⊢
  have hthird : ∀ (sExt : List Char), ¬bak3 <+: sExt ++ sysLog →
      filePresentCheck d₂ (.prev, sExt ++ sysLog) = true →
      filePresentCheck d₃ (.prev, sExt ++ sysLog) = true := fun sExt hne =>
    filePresentCheck_of_partial hreg₂ hc₃.toPartial fun r h => hne ⟨r, (Prod.mk.inj h).2.symm⟩
  have h₀₃ := hthird [] (by decide) h₀''
  have h₁₃ := hthird bak1 (by decide) h₁''
  obtain ⟨h₂₃, h₃₃⟩ := rotated_sysLog hfits hreg₂ (.inr (.inr ⟨rfl, rfl⟩)) hc₃ h₃''
  rw [List.nil_append] at h₀₃
  simp [level, h₀₃, h₁₃, h₂₃, h₃₃]

/-- A run that is cut off before it has removed `bak1_messages.txt` rotates when it is started
again. -/
lemma level_of_early (hsingle : Single d) (hfull : level d = .full)
    (hearly : Early config env .rotate1 .prev .prev bak1 [] (bak1 ++ sysLog) 1 d) :
    level (backupAndRecoverLogs config env .rotate1 .prev .prev .move bak1 [] d) = .full := by
  have hall := level_eq_full_iff.mp hfull
  have hready : Ready config .prev .prev bak1 [] d := ready_rotate1 _ hreg hsingle
  have hpart := backupAndRecoverLogs_between .rotate1 henv.reliable hready
  refine level_eq_full_iff.mpr fun l => ?_
  have hkept (hne : ¬bak1 <+: l.ext ++ sysLog) := filePresentCheck_of_partial hreg hpart
    (fun r h => hne ⟨r, (Prod.mk.inj h).2.symm⟩) (hall l)
  cases l with
  | bak1 =>
    have hmoves : Moves config .prev .prev bak1 [] d (bak1 ++ sysLog) := by
      obtain ⟨c, hc⟩ := movable_sysLog hfits hreg (.inl ⟨rfl, rfl⟩) (hall .bak1)
      exact ⟨sysLog, c, rfl, hc⟩
    have hsame := lookup_early henv.reliable hready hearly (fun x r hx hr helig => by
      subst hr
      refine ⟨by simpa using Ne.symm hx, fun h => helig.2.2 rfl ?_⟩
      rw [← (Prod.mk.inj h).2]
      exact List.prefix_append _ _) (.inr ⟨rfl, rfl, hmoves⟩)
    have hpresent : filePresentCheck (backupAndRecoverLogs config env .rotate1 .prev .prev .move
        bak1 [] d) (.prev, bak1 ++ sysLog) = filePresentCheck d (.prev, bak1 ++ sysLog) := by
      rw [filePresentCheck, hsame]
      rfl
    exact hpresent.trans (hall .bak1)
  | base | bak2 | bak3 | full => exact hkept (by decide)

end Recover

/-! ### Going on -/

section Cut

variable (hreg : Regular d) (henv : env.CutOff)

include hreg henv

/-- Rotating goes on when it was cut off while the first files were rotated. -/
lemma rotate_resumed (config : BackupConfig) (hsingle : Single d) (he : e.Uncut) (he' : e'.Uncut) :
    let d₁ := backupAndRecoverLogs config env .rotate1 .prev .prev .move bak1 [] d
    Regular d₁ ∧ Single d₁ ∧ rotate config e d₁ = rotate config e' d := by
  intro d₁
  have hpart := backupAndRecoverLogs_between .rotate1 henv.reliable
    (ready_rotate1 config hreg hsingle)
  have hreg₁ : Regular d₁ := hreg.of_partial hpart
  have hsingle₁ : Single d₁ := hsingle.of_partial hpart
  refine ⟨hreg₁, hsingle₁, ?_⟩
  have hfirst := pass_resumed henv.reliable he.reliable he'.reliable (he.power .rotate1)
    (he'.power .rotate1) (ready_rotate1 config hreg hsingle)
    (ready_rotate1 _ hreg₁ hsingle₁)
  have hreg₂ := regular_pass .rotate1 he'.reliable
    (ready_rotate1 config hreg hsingle) hreg
  have hsecond := pass_unique he.reliable he'.reliable (he.power .rotate2) (he'.power .rotate2)
    (ready_rotate2 config hreg₂)
  have hreg₃ := regular_pass .rotate2 he'.reliable
    (ready_rotate2 config hreg₂) hreg₂
  have hthird := pass_unique he.reliable he'.reliable (he.power .rotate3) (he'.power .rotate3)
    (ready_rotate3 config hreg₃)
  simp only [rotate]
  rw [hfirst, hsecond, hthird]

end Cut

/-- The run after a run that is cut off takes the branch that goes on with it, or nothing is left
to do for it. -/
def Resumes (config : BackupConfig) (env : Env) (d : Disk) : Prop :=
  let next := level (afterRun config env d)
  if level d = .full then
    env.power .rotate1 ≠ none ∧ next = .full ∨ env.power .rotate3 = none ∧ next = .bak3
  else next = level d ∨ env.power .move = none ∧ next ≠ .full

/-- `PreviousLogs` can be rotated again and again. -/
structure Sound (d : Disk) : Prop where
  regular : Regular d
  single : level d = .full → Single d

lemma rotate_off (henv : env.CutOff) (hpower : env.power .rotate1 ≠ none) :
    rotate config env d = backupAndRecoverLogs config env .rotate1 .prev .prev .move bak1 [] d := by
  simp only [rotate]
  rw [backupAndRecoverLogs_off (henv.off .rotate1 .rotate2 (by decide) hpower),
    backupAndRecoverLogs_off (henv.off .rotate1 .rotate3 (by decide) hpower)]

/-- A run that is cut off while the first files are rotated. -/
lemma afterRun_of_cut (hfits : config.Fits) (henv : env.CutOff) (hfull : level d = .full)
    (hpower : env.power .rotate1 ≠ none) : afterRun config env d =
      backupAndRecoverLogs config env .rotate1 .prev .prev .move bak1 [] d := by
  rw [afterRun_eq hfits, makeRoom_of_full hfull, rotate_off henv hpower, moveLogs,
    backupAndRecoverLogs_off (henv.off .rotate1 .move (by decide) hpower),
    finish_off (henv.off .rotate1 .touch (by decide) hpower)
      (henv.off .rotate1 .wipe (by decide) hpower)]

/-- The next run has the result that the run would have had. -/
theorem afterRun_resumed (hfits : config.Fits) (h : Sound d) (henv : env.CutOff)
    (hresumes : Resumes config env d) (he : e.Uncut) (he' : e'.Uncut) :
    Sound (afterRun config env d) ∧
      SamePrev (afterRun config e (afterRun config env d)) (afterRun config e' d) := by
  have hreg := h.regular
  unfold Resumes at hresumes
  by_cases hfull : level d = .full
  · rw [if_pos hfull] at hresumes
    have hsingle := h.single hfull
    rcases hresumes with ⟨hpower, hnext⟩ | ⟨hpower, hnext⟩
    · -- the run is cut off while the first files are rotated
      obtain ⟨hreg₁, hsingle₁, hrotate⟩ := rotate_resumed hreg henv config hsingle he he'
      rw [afterRun_of_cut hfits henv hfull hpower] at hnext ⊢
      refine ⟨⟨hreg₁, fun _ => hsingle₁⟩, ?_⟩
      rw [afterRun_eq hfits, afterRun_eq hfits, makeRoom_of_full hnext, makeRoom_of_full hfull,
        hnext, hfull, hrotate]
      have hmove : moveLogs config e bak3 (rotate config e' d) =
          moveLogs config e' bak3 (rotate config e' d) :=
        pass_unique he.reliable he'.reliable (he.power _) (he'.power _)
          (ready_move _ (rotate_unique hreg hsingle config he'.reliable he'.reliable
            (fun s _ => he'.power s) fun s _ => he'.power s).2 (.inr (by decide)))
      exact SamePrev.finish (fun n => by rw [show Level.full.ext = bak3 from rfl, hmove]) he he'
    · -- all files are rotated
      have hbefore := henv.power_before hpower
      obtain ⟨hrotate, hreg'⟩ := rotate_unique hreg hsingle config henv.reliable
        he'.reliable hbefore fun s _ => he'.power s
      have hafter : afterRun config env d =
          finish config env (moveLogs config env bak3 (rotate config env d)) := by
        rw [afterRun_eq hfits, makeRoom_of_full hfull, hfull]
        rfl
      rw [hafter] at hnext ⊢
      have hext : bak3 = [] ∨ 3 ≤ bak3.length := .inr (by decide)
      refine ⟨⟨(regular_pass _ henv.reliable (ready_move _ hreg' hext) hreg').finish,
        fun hcontra => by rw [hnext] at hcontra; cases hcontra⟩, ?_⟩
      have hresumed := moveLogs_resumed hreg' hext henv config hext le_rfl (.inl rfl) he
        he'
      rw [afterRun_eq hfits, afterRun_eq hfits, makeRoom_of_full hfull, hfull, hnext,
        makeRoom_of_ne (by rw [hnext]; decide), ← hrotate]
      exact hresumed
  · rw [if_neg hfull] at hresumes
    have hafter : afterRun config env d =
        finish config env (moveLogs config env (level d).ext d) := by
      rw [afterRun_eq hfits, makeRoom_of_ne hfull]
    have hnext : level (afterRun config env d) ≠ .full := by
      rcases hresumes with heq | ⟨-, hne⟩
      · rwa [heq]
      · exact hne
    have hlen : (level d).ext.length ≤ (level (afterRun config env d)).ext.length := by
      rcases (level d).ext_cases with ⟨heq, -⟩ | ⟨hne, hlen⟩
      · rw [heq]
        exact Nat.zero_le _
      · have hpresent : filePresentCheck d (.prev, sysLog) = true := by
          simpa using mt level_eq_base_iff.mpr hne
        have hpresent' := filePresentCheck_finish hreg henv config .base hpresent
        rcases (level (afterRun config env d)).ext_cases with ⟨-, hbase⟩ | ⟨-, hlen'⟩
        · rw [level_eq_base_iff, hafter] at hbase
          cases hpresent'.symm.trans hbase
        · omega
    have hresumed := moveLogs_resumed hreg (level d).ext_or henv config
      (level (afterRun config env d)).ext_or hlen
      (hresumes.imp (fun heq => by rw [heq]) And.left) he he'
    refine ⟨⟨?_, fun hcontra => absurd hcontra hnext⟩, ?_⟩
    · rw [hafter]
      exact (regular_pass _ henv.reliable (ready_move _ hreg (level d).ext_or) hreg).finish
    · rw [afterRun_eq hfits e, makeRoom_of_ne hnext, afterRun_eq hfits e', makeRoom_of_ne hfull]
      rw [← hafter] at hresumed
      exact hresumed

/-! ### Many cuts -/

lemma resumes_of_recoverable (hfits : config.Fits) (h : Sound d) (henv : env.CutOff)
    (hrec : Recoverable config env d) : Resumes config env d := by
  unfold Recoverable at hrec
  unfold Resumes
  by_cases hfull : level d = .full
  · rw [if_pos hfull] at hrec ⊢
    have hsingle := h.single hfull
    rcases hrec with hearly | ⟨hpower, hmove⟩
    · left
      have hpower := hearly.power_ne
      refine ⟨hpower, ?_⟩
      rw [afterRun_of_cut hfits henv hfull hpower]
      exact level_of_early hfits h.regular henv hsingle hfull hearly
    · right
      refine ⟨hpower, ?_⟩
      have hbefore := henv.power_before hpower
      have hlevel := level_rotate hfits h.regular henv hsingle hfull hbefore
      have hreg := (rotate_unique h.regular hsingle config henv.reliable henv.reliable
        hbefore hbefore).2
      rw [makeRoom_of_full hfull] at hmove
      rw [afterRun_eq hfits, makeRoom_of_full hfull, hfull]
      have hnext := level_of_cutInMove hreg henv (by rw [hlevel]; decide) hmove
      have hkeeps := filePresentCheck_finish hreg henv config
      rw [hlevel] at hnext hkeeps
      rcases hnext with hnext | ⟨-, hnext⟩
      · exact hnext
      · exact level_eq_bak3 hlevel hkeeps hnext
  · rw [if_neg hfull] at hrec ⊢
    rw [afterRun_eq hfits, makeRoom_of_ne hfull]
    exact level_of_cutInMove h.regular henv hfull hrec

/-- What complete runs have left, from an empty directory on, each after a boot that logged to
`messages.txt`. -/
inductive Earlier (config : BackupConfig) : Disk → Prop
  | start {d : Disk} (hempty : ∀ n, d.lookup (.prev, n) = none) : Earlier config d
  | run {d d₁ : Disk} {e : Env} {c : List Char} (h : Earlier config d) (hprev : SamePrev d₁ d)
      (hmessages : d₁.lookup (.log, sysLog) = some (.regular c)) (he : e.Uncut) :
      Earlier config (afterRun config e d₁)

/-- A run is cut off and started again, and again. -/
inductive Interrupted (config : BackupConfig) (d : Disk) : Disk → Prop
  | start : Interrupted config d d
  | cut {d₁ : Disk} {env : Env} (h : Interrupted config d d₁) (henv : env.CutOff)
      (hrec : Recoverable config env d₁) : Interrupted config d (afterRun config env d₁)

lemma Performed.regular {src : Loc} (h : Performed env stage src (.prev, n) c d d')
    (hreg : Regular d) : Regular d' := by
  have hinsert : ∀ c, Regular (d.insert (.prev, n) (.written (d.lookup (.prev, n)) c)) := by
    intro c x v hv
    by_cases hx : x = n
    · subst hx
      rw [Finmap.lookup_insert, hreg.written] at hv
      exact ⟨c, (Option.some.inj hv).symm⟩
    · rw [Finmap.lookup_insert_of_ne _ (by simpa using hx)] at hv
      exact hreg x v hv
  cases h with
  | nothing => exact hreg
  | spoiled => exact hinsert _
  | copied => exact hinsert _
  | moved =>
    intro x v hv
    by_cases hx : ((.prev, x) : Loc) = src
    · subst hx
      rw [Finmap.lookup_erase] at hv
      cases hv
    · rw [Finmap.lookup_erase_ne hx] at hv
      exact hinsert c x v hv

lemma afterRun_of_not_fits (h : ¬config.Fits) (env : Env) (d : Disk) :
    afterRun config env d = d := by
  have hlong : pathMax ≤ config.prevLogPath.length + 19 ∨
      pathMax ≤ config.logPath.length + 2 := by
    by_contra hshort
    exact h ⟨by omega, by omega⟩
  unfold afterRun backupExecuteHddDisabledStrategy
  split_ifs
  · rfl
  · rfl
  · omega
  · omega

/-- Complete runs leave only regular files, whatever the names. -/
lemma Earlier.regular (h : Earlier config d) : Regular d := by
  induction h with
  | start hempty =>
    intro n v hv
    cases (hempty n).symm.trans hv
  | @run d d₁ e c h hprev hmessages he ih =>
    by_cases hfits : config.Fits
    · have hpass : ∀ stage source sExt dExt d, Regular d →
          Regular (backupAndRecoverLogs config e stage source .prev .move sExt dExt d) := by
        intro stage source sExt dExt d hd
        refine backupAndRecoverLogs_induction (he.power stage) hd fun m n hm hP => ?_
        rcases (processEntry_performed config e stage source .prev sExt dExt hm n).2 with
          heq | ⟨r, c, -, -, -, hperf⟩
        · rwa [heq]
        · exact hperf.regular hP
      rw [afterRun_eq hfits]
      refine (hpass _ _ _ _ _ (makeRoom_induction (ih.of_samePrev hprev) ?_)).finish
      exact fun stage sExt dExt d hd => hpass stage .prev sExt dExt d hd
    · rw [afterRun_of_not_fits hfits]
      exact ih.of_samePrev hprev

/-- A complete run has one result, whatever the order of the entries. -/
lemma afterRun_unique (hfits : config.Fits) (h : Sound d) (he : e.Uncut) (he' : e'.Uncut) :
    SamePrev (afterRun config e d) (afterRun config e' d) := by
  -- a run that loses the power at once leaves everything as it was
  obtain ⟨env, henv, hoff⟩ : ∃ env : Env, env.Reliable ∧ ∀ stage, env.power stage = some 0 :=
    ⟨{ e with power := fun _ => some 0 }, ⟨he.reliable.opens, he.reliable.copies,
      he.reliable.removes, he.reliable.touches⟩, fun _ => rfl⟩
  have hcut : env.CutOff := ⟨henv, fun s t _ _ => hoff t⟩
  have hsame : afterRun config env d = d := by
    have hroom : makeRoom config env d = d := by
      refine makeRoom_induction (P := fun d' => d' = d) rfl ?_
      rintro stage sExt dExt d' rfl
      exact backupAndRecoverLogs_off (hoff stage)
    rw [afterRun_eq hfits, hroom, moveLogs, backupAndRecoverLogs_off (hoff _),
      finish_off (hoff _) (hoff _)]
  have hresumes : Resumes config env d := by
    unfold Resumes
    rw [hsame]
    split_ifs with hfull
    · exact .inl ⟨by simp [hoff], hfull⟩
    · exact .inl rfl
  have hresumed := (afterRun_resumed hfits h hcut hresumes he he').2
  rwa [hsame] at hresumed

/-- Each cut keeps the result that a run to the end will have, by induction on the cuts. -/
lemma Interrupted.result (hfits : config.Fits) (h : Interrupted config d d') (hd : Sound d)
    (he : e.Uncut) (he' : e'.Uncut) :
    Sound d' ∧ SamePrev (afterRun config e d') (afterRun config e' d) := by
  induction h with
  | start => exact ⟨hd, afterRun_unique hfits hd he he'⟩
  | cut h henv hrec ih =>
    obtain ⟨hd₁, hsame⟩ := ih
    obtain ⟨hd₂, hresumed⟩ := afterRun_resumed hfits hd₁ henv
      (resumes_of_recoverable hfits hd₁ henv hrec) he he
    exact ⟨hd₂, fun n => (hresumed n).trans (hsame n)⟩

/-- However often a run is cut off, one that comes to its end leaves what a single run would have
left, when every cut can be recovered from. -/
theorem afterRun_interrupted (hearlier : Earlier config d₀) (hprev : SamePrev d d₀)
    (hsingle : level d = .full → Single d) (h : Interrupted config d d') (he : e.Uncut)
    (he' : e'.Uncut) : SamePrev (afterRun config e d') (afterRun config e' d) := by
  by_cases hfits : config.Fits
  · exact (h.result hfits ⟨hearlier.regular.of_samePrev hprev, hsingle⟩ he he').2
  · have hsame : d' = d := by
      induction h with
      | start => rfl
      | cut h henv hrec ih => rw [afterRun_of_not_fits hfits, ih]
    rw [hsame, afterRun_of_not_fits hfits, afterRun_of_not_fits hfits]
    exact fun _ => rfl

/-- The environment that lists this entry first, and loses the power after these operations of the
move. -/
noncomputable def Env.cutMove (first : Name) (k : ℕ) : Env :=
  { Env.withCopies fun _ _ => .ok with
    readdir := fun stage w d => first :: (Env.withCopies fun _ _ => .ok).readdir stage w d
    complete := fun stage w d n h =>
      List.mem_cons_of_mem _ ((Env.withCopies fun _ _ => .ok).complete stage w d n h)
    power := fun stage =>
      match stage with
      | .rotate1 | .rotate2 | .rotate3 => none
      | .move => some k
      | .touch | .wipe => some 0 }

lemma reliable_cutMove (first : Name) (k : ℕ) : (Env.cutMove first k).Reliable :=
  ⟨fun _ => rfl, fun _ _ => rfl, fun _ _ => rfl, rfl⟩

lemma cutOff_cutMove (first : Name) (k : ℕ) : (Env.cutMove first k).CutOff := by
  refine ⟨reliable_cutMove first k, fun s t hlt hs => ?_⟩
  cases s <;> cases t <;> simp_all [Env.cutMove, Stage.index]

lemma uncut_withCopies : (Env.withCopies fun _ _ => .ok).Uncut :=
  ⟨reliable_withCopies, fun _ => rfl⟩

lemma level_appDisk : level appDisk = .base := by
  rw [level, filePresentCheck, lookup_appDisk_prev]
  rfl

lemma regular_appDisk : Regular appDisk := by
  intro n v hv
  cases (lookup_appDisk_prev n).symm.trans hv

lemma movable_appDisk (hn : n = appTxt ∨ n = sysLog) :
    ∃ c, (passTransfer prevConfig .log .prev [] []).Movable (entries appDisk) n c := by
  rcases hn with rfl | rfl
  · refine ⟨['b'], ⟨⟨by decide, by decide, by decide, by decide⟩, by decide, nofun⟩, ?_⟩
    change (appDisk.lookup (.log, appTxt)).bind Node.content? = some ['b']
    rw [lookup_appDisk_app]
    rfl
  · refine ⟨['a'], ⟨⟨by decide, by decide, by decide, by decide⟩, by decide, nofun⟩, ?_⟩
    change (appDisk.lookup (.log, sysLog)).bind Node.content? = some ['a']
    rw [lookup_appDisk_of_ne (by decide), if_pos rfl]
    rfl

/-- The power is lost between the copy of the other log and its removal. -/
theorem afterRun_cut_app : SamePrev
    (afterRun prevConfig (Env.withCopies fun _ _ => .ok)
      (afterRun prevConfig (Env.cutMove appTxt 1) appDisk))
    (afterRun prevConfig (Env.withCopies fun _ _ => .ok) appDisk) := by
  have hearly : Early prevConfig (Env.cutMove appTxt 1) .move .log .prev [] [] sysLog 0
      appDisk := by
    refine ⟨1, rfl, ?_⟩
    have hpos : 0 < movesBefore prevConfig (Env.cutMove appTxt 1) .move .log .prev [] [] sysLog
        appDisk := by
      classical
      obtain ⟨c, hc⟩ := movable_appDisk (.inl rfl)
      refine Finset.card_pos.mpr ⟨appTxt, Finset.mem_filter.mpr ⟨?_, appTxt, c, rfl, hc⟩⟩
      have hcons : (Env.cutMove appTxt 1).readdir .move .log appDisk =
          appTxt :: (Env.withCopies fun _ _ => .ok).readdir .move .log appDisk := rfl
      rw [hcons, List.takeWhile_cons_of_pos (by decide)]
      simp
    omega
  have hrec : Recoverable prevConfig (Env.cutMove appTxt 1) appDisk := by
    rw [Recoverable, level_appDisk, if_neg (by decide), CutInMove, level_appDisk]
    exact .inl hearly
  exact afterRun_interrupted (.start lookup_appDisk_prev) (fun _ => rfl)
    (fun hfull => by rw [level_appDisk] at hfull; cases hfull)
    (.cut .start (cutOff_cutMove _ _) hrec) uncut_withCopies uncut_withCopies

/-- The system log has been moved, and the other one has not. -/
lemma afterRun_cut_sysLog : afterRun prevConfig (Env.cutMove sysLog 2) appDisk =
    (appDisk.insert (.prev, sysLog) (.regular ['a'])).erase (.log, sysLog) := by
  have hfits : prevConfig.Fits := ⟨by decide, by decide⟩
  have hready : Ready prevConfig .log .prev [] [] appDisk := ready_move _ regular_appDisk (.inl rfl)
  rw [afterRun_eq hfits, makeRoom_of_ne (by rw [level_appDisk]; decide), level_appDisk,
    finish_off rfl rfl, moveLogs, backupAndRecoverLogs, if_neg (by decide),
    (reliable_cutMove sysLog 2).opens, if_neg Bool.false_ne_true]
  have hcons : (Env.cutMove sysLog 2).readdir .move .log appDisk =
      sysLog :: (Env.withCopies fun _ _ => .ok).readdir .move .log appDisk := rfl
  rw [hcons, List.foldl_cons]
  obtain ⟨c, hc⟩ := movable_appDisk (.inr rfl)
  rcases @processEntry_power prevConfig (Env.cutMove sysLog 2) .log .prev [] [] ⟨appDisk, some 2⟩
    (reliable_cutMove sysLog 2) hready .move _ rfl sysLog with
    ⟨hnot, -⟩ | ⟨r, c', hr, hmov, ⟨hlt, -⟩ | ⟨j, hj, heq⟩⟩
  · exact absurd ⟨sysLog, c, rfl, hc⟩ hnot
  · omega
  · obtain rfl : j = 0 := by omega
    obtain rfl : sysLog = r := hr
    have hpower : (Env.cutMove sysLog 2).power .move = some 2 := rfl
    rw [hpower]
    have hlevel : Level.ext .base = [] := rfl
    rw [hlevel, heq, foldl_off _ rfl]
    have hread : (appDisk.lookup (.log, sysLog)).bind Node.content? = some c' := hmov.2
    rw [lookup_appDisk_of_ne (by decide), if_pos rfl] at hread
    obtain rfl : ['a'] = c' := Option.some.inj hread
    dsimp only
    rw [List.nil_append, lookup_appDisk_prev]
    rfl

/-- The other log of the boot comes to the next level, when the power is lost after `messages.txt`
has been moved. -/
theorem afterRun_cut_differs : Earlier prevConfig appDisk ∧ (Env.cutMove sysLog 2).CutOff ∧
    ¬SamePrev
      (afterRun prevConfig (Env.withCopies fun _ _ => .ok)
        (afterRun prevConfig (Env.cutMove sysLog 2) appDisk))
      (afterRun prevConfig (Env.withCopies fun _ _ => .ok) appDisk) := by
  refine ⟨.start lookup_appDisk_prev, cutOff_cutMove _ _, fun hsame => ?_⟩
  have hfits : prevConfig.Fits := ⟨by decide, by decide⟩
  have hne : appTxt ≠ lastReboot := by decide
  have happ := hsame appTxt
  rw [afterRun_cut_sysLog] at happ
  generalize hd : (appDisk.insert (.prev, sysLog) (.regular ['a'])).erase (.log, sysLog) = d at happ
  have hprev : ∀ x, d.lookup (.prev, x) = if x = sysLog then some (.regular ['a']) else none := by
    intro x
    rw [← hd, Finmap.lookup_erase_ne (log_ne_prev _ _).symm]
    split_ifs with hx
    · subst hx
      exact Finmap.lookup_insert _
    · rw [Finmap.lookup_insert_of_ne _ (by simpa using hx)]
      exact lookup_appDisk_prev x
  have hreg : Regular d := by
    intro n v hv
    rw [hprev] at hv
    split_ifs at hv
    exact ⟨['a'], (Option.some.inj hv).symm⟩
  have hlevel : level d = .bak1 := by
    have hbase : filePresentCheck d (.prev, sysLog) = true := by
      rw [filePresentCheck, hprev, if_pos rfl]
    have hbak1 : filePresentCheck d (.prev, bak1 ++ sysLog) = false := by
      rw [filePresentCheck, hprev, if_neg (by decide)]
    simp only [level, hbase, hbak1]
    rfl
  rw [afterRun_eq hfits, afterRun_eq hfits, makeRoom_of_ne (by rw [hlevel]; decide),
    makeRoom_of_ne (by rw [level_appDisk]; decide), hlevel, level_appDisk,
    lookup_finish_of_ne _ _ _ hne, lookup_finish_of_ne _ _ _ hne] at happ
  -- an uninterrupted run moves the log to the first level
  obtain ⟨c, hc⟩ := movable_appDisk (.inl rfl)
  have hready : Ready prevConfig .log .prev [] [] appDisk := ready_move _ regular_appDisk (.inl rfl)
  have hcomplete := backupAndRecoverLogs_complete uncut_withCopies.reliable
    (uncut_withCopies.power .move) hready
  have hmoved := (hcomplete.item appTxt c hc).2
  -- the interrupted one does not
  have hready' : Ready prevConfig .log .prev [] bak1 d := ready_move _ hreg (.inr (by decide))
  have hpart := backupAndRecoverLogs_between .move uncut_withCopies.reliable hready'
  rcases partial_cases hpart (.prev, appTxt) with heq | ⟨r, c, hname, -, -⟩ | ⟨r, c, hname, -, -⟩
  · have hnone : d.lookup (.prev, appTxt) = none := by
      rw [hprev, if_neg (by decide)]
    cases hmoved.symm.trans (happ.symm.trans (heq.trans hnone))
  · exact absurd ⟨r, (Prod.mk.inj hname).2.symm⟩ (by decide : ¬bak1 <+: appTxt)
  · cases (Prod.mk.inj hname).1

end DcmAgent.Backup
