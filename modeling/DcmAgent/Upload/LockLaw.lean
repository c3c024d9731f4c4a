import Mathlib.Tactic
import DcmAgent.Upload.Lock

/-!
# What the upload lock guarantees

`LockLaw` is what the lock is there for: one holder at a time, the holder's data untouched by the
other calls, and a free lock in the end. It holds in every run in which a call zeroes the context
only while no other call holds the lock, and opens the lock file only while no other call is
between its own opening and its last use of the descriptor (`Orderly`). It fails in runs that do
not respect this.
-/

namespace DcmAgent.Upload

open Library

variable {T C : Type*} [DecidableEq T] [Zero C] {s s' : LockState T C} {t : T} {e : LockEvent C}

/-- Thread `t` can start a call and acquire the lock, with no step of another thread. -/
def LockState.CanAcquire (s : LockState T C) (t : T) : Prop :=
  ∃ (es : List (LockEvent C)) (s' : LockState T C),
    (lockSystem T C).exec s (es.map (t, ·)) = some s' ∧ s'.pc t = .holding

/-- At most one call holds the lock, no step of another call changes the descriptor or the
context of the holder, and when all calls have returned the lock is free and can be acquired. -/
structure LockLaw (guard : LockState T C → T × LockEvent C → Prop) (s : LockState T C) :
    Prop where
  exclusive : ∀ t t', (s.pc t).Holds → (s.pc t').Holds → t = t'
  untouched : ∀ t t' e s', (s.pc t).Holds → t' ≠ t → guard s (t', e) →
    lockStep s (t', e) = some s' → s'.lockFd = s.lockFd ∧ s'.ctx = s.ctx
  free : (∀ t, s.pc t = .outside) → s.holder = none ∧ ∀ t, s.CanAcquire t

/-- The runs in which the statics are not written under another call's feet. -/
def Orderly (s : LockState T C) : T × LockEvent C → Prop
  | (t, .clearContext) => ∀ t' ≠ t, ¬(s.pc t').Holds
  | (t, .openLock _) => ∀ t' ≠ t, ¬(s.pc t').UsesLockFd
  | _ => True

instance [Fintype T] (s : LockState T C) (a : T × LockEvent C) : Decidable (Orderly s a) := by
  obtain ⟨t, e⟩ := a
  unfold Orderly
  split <;> infer_instance

/-! ### The invariant -/

/-- No descriptor of the lock file is open and nobody has the lock. -/
def LockState.Clean (s : LockState T C) : Prop := s.holder = none ∧ s.openFds = ∅

/-- What the shared state looks like while a call is at `pc`. -/
def LockState.Agrees (s : LockState T C) : Pc → Prop
  | .opened =>
    (s.lockFd = none ∧ s.Clean) ∨ (s.holder = none ∧ ∃ fd, s.lockFd = some fd ∧ s.openFds = {fd})
  | .locking | .closing => s.holder = none ∧ ∃ fd, s.lockFd = some fd ∧ s.openFds = {fd}
  | .holding | .releasing | .releaseClosing =>
    ∃ fd, s.lockFd = some fd ∧ s.openFds = {fd} ∧ s.holder = some fd
  | .resetting | .releaseResetting => s.Clean
  | .outside | .entered | .opening | .refused => True

/-- At most one call uses the descriptor, and the shared state fits where it is. -/
structure LockInv (s : LockState T C) : Prop where
  unique : ∀ t t', (s.pc t).UsesLockFd → (s.pc t').UsesLockFd → t = t'
  agrees : ∀ t, s.Agrees (s.pc t)
  clean : (∀ t, ¬(s.pc t).UsesLockFd) → s.Clean

omit [DecidableEq T] [Zero C] in
lemma LockState.agrees_of_not_usesLockFd {pc : Pc} (h : ¬pc.UsesLockFd) : s.Agrees pc := by
  cases pc <;> simp [Pc.UsesLockFd, LockState.Agrees] at h ⊢

lemma Pc.Holds.usesLockFd {pc : Pc} (h : pc.Holds) : pc.UsesLockFd := by
  cases pc <;> simp [Pc.Holds, Pc.UsesLockFd] at h ⊢

omit [DecidableEq T] [Zero C] in
lemma LockState.closeLockFd_clean {fd : ℕ} (hfd : s.lockFd = some fd) (hopen : s.openFds = {fd})
    (hholder : s.holder = none ∨ s.holder = some fd) : s.closeLockFd.Clean := by
  rcases hholder with h | h <;> simp [LockState.closeLockFd, LockState.Clean, hfd, hopen, h]

omit [DecidableEq T] [Zero C] in
@[simp] lemma LockState.closeLockFd_pc (s : LockState T C) : s.closeLockFd.pc = s.pc := by
  unfold LockState.closeLockFd
  split <;> rfl

omit [Zero C] in
@[simp] lemma LockState.goto_pc_self (s : LockState T C) (t : T) (pc : Pc) :
    (s.goto t pc).pc t = pc := by simp [LockState.goto]

omit [Zero C] in
lemma LockState.goto_pc_of_ne (s : LockState T C) {t t' : T} (h : t' ≠ t) (pc : Pc) :
    (s.goto t pc).pc t' = s.pc t' := by simp [LockState.goto, h]

omit [Zero C] in
@[simp] lemma LockState.goto_lockFd (s : LockState T C) (t : T) (pc : Pc) :
    (s.goto t pc).lockFd = s.lockFd := rfl

omit [Zero C] in
@[simp] lemma LockState.goto_openFds (s : LockState T C) (t : T) (pc : Pc) :
    (s.goto t pc).openFds = s.openFds := rfl

omit [Zero C] in
@[simp] lemma LockState.goto_holder (s : LockState T C) (t : T) (pc : Pc) :
    (s.goto t pc).holder = s.holder := rfl

omit [Zero C] in
@[simp] lemma LockState.goto_ctx (s : LockState T C) (t : T) (pc : Pc) :
    (s.goto t pc).ctx = s.ctx := rfl

/-- A step outside the use of the descriptor: the lock is not touched. -/
structure OutsideStep (s s' : LockState T C) (t : T) (e : LockEvent C) : Prop where
  before : ¬(s.pc t).UsesLockFd
  after : ¬(s'.pc t).UsesLockFd
  lockFd : s'.lockFd = s.lockFd
  openFds : s'.openFds = s.openFds
  holder : s'.holder = s.holder
  ctx : e ≠ .clearContext → s'.ctx = s.ctx

/-- The opening of the lock file. -/
structure OpenStep (s s' : LockState T C) (t : T) (e : LockEvent C) : Prop where
  event : ∃ fd, e = .openLock fd
  before : ¬(s.pc t).UsesLockFd
  after : (s'.pc t).UsesLockFd
  agrees : s.Clean → s'.Agrees (s'.pc t)

/-- A step that uses the descriptor of the call. -/
structure InsideStep (s s' : LockState T C) (t : T) : Prop where
  before : (s.pc t).UsesLockFd
  agrees : s.Agrees (s.pc t) → s'.Agrees (s'.pc t)
  clean : s.Agrees (s.pc t) → ¬(s'.pc t).UsesLockFd → s'.Clean

/-- What a step can do. -/
lemma lockStep_cases (h : lockStep s (t, e) = some s') :
    (∀ t' ≠ t, s'.pc t' = s.pc t') ∧
      (OutsideStep s s' t e ∨
        OpenStep s s' t e ∨
        InsideStep s s' t) := by
  cases e with
  | call nullParams =>
    cases hpc : s.pc t <;> simp only [lockStep, hpc, reduceCtorEq, Option.some.injEq] at h
    subst h
    refine ⟨fun t' ht' => s.goto_pc_of_ne ht' _, Or.inl ?_⟩
    constructor <;> simp [hpc, Pc.UsesLockFd]
    split_ifs <;> simp
  | clearContext =>
    cases hpc : s.pc t <;> simp only [lockStep, hpc, reduceCtorEq, Option.some.injEq] at h
    subst h
    refine ⟨fun t' ht' => s.goto_pc_of_ne ht' _, Or.inl ?_⟩
    constructor <;> simp [hpc, Pc.UsesLockFd]
  | openLock fd =>
    cases hpc : s.pc t <;> cases fd <;> simp only [lockStep, hpc, reduceCtorEq] at h
    · obtain rfl := Option.some.inj h
      refine ⟨fun t' ht' => s.goto_pc_of_ne ht' _, Or.inr (Or.inl ⟨⟨_, rfl⟩, ?_, ?_, ?_⟩)⟩
      · simp [hpc, Pc.UsesLockFd]
      · simp [Pc.UsesLockFd]
      · intro hclean
        rw [LockState.goto_pc_self]
        exact Or.inl ⟨rfl, hclean⟩
    · split_ifs at h
      obtain rfl := Option.some.inj h
      refine ⟨fun t' ht' => s.goto_pc_of_ne ht' _, Or.inr (Or.inl ⟨⟨_, rfl⟩, ?_, ?_, ?_⟩)⟩
      · simp [hpc, Pc.UsesLockFd]
      · simp [Pc.UsesLockFd]
      · rintro ⟨hfree, hopen⟩
        simp [LockState.Agrees, hfree, hopen]
  | testOpened =>
    cases hpc : s.pc t <;> simp only [lockStep, hpc, reduceCtorEq, Option.some.injEq] at h
    subst h
    refine ⟨fun t' ht' => s.goto_pc_of_ne ht' _, Or.inr (Or.inr ⟨by simp [hpc, Pc.UsesLockFd],
      ?_, ?_⟩)⟩
    · rw [hpc]
      rintro (⟨hnone, -⟩ | ⟨hfree, fd, hfd, hopen⟩)
      · simp [hnone, LockState.Agrees]
      · simp [hfd, LockState.Agrees, hfree, hopen]
    · rw [hpc]
      rintro (⟨-, hclean⟩ | ⟨hfree, fd, hfd, hopen⟩)
      · exact fun _ => hclean
      · simp [hfd, Pc.UsesLockFd]
  | flock fails =>
    cases hpc : s.pc t <;> simp only [lockStep, hpc, reduceCtorEq] at h
    split_ifs at h with hgrant <;> obtain rfl := Option.some.inj h
    · refine ⟨fun t' ht' => s.goto_pc_of_ne ht' _, Or.inr (Or.inr ⟨by simp [hpc, Pc.UsesLockFd],
        ?_, by simp [Pc.UsesLockFd]⟩)⟩
      rw [hpc]
      rintro ⟨-, fd, hfd, hopen⟩
      simp [LockState.Agrees, hfd, hopen]
    · refine ⟨fun t' ht' => s.goto_pc_of_ne ht' _, Or.inr (Or.inr ⟨by simp [hpc, Pc.UsesLockFd],
        ?_, by simp [Pc.UsesLockFd]⟩)⟩
      rw [hpc]
      simp [LockState.Agrees]
  | closeFailed =>
    cases hpc : s.pc t <;> simp only [lockStep, hpc, reduceCtorEq, Option.some.injEq] at h
    subst h
    refine ⟨fun t' ht' => by simp [LockState.goto_pc_of_ne _ ht'], Or.inr (Or.inr
      ⟨by simp [hpc, Pc.UsesLockFd], ?_, by simp [Pc.UsesLockFd]⟩)⟩
    rw [hpc]
    rintro ⟨hfree, fd, hfd, hopen⟩
    rw [LockState.goto_pc_self]
    exact LockState.closeLockFd_clean hfd hopen (Or.inl hfree)
  | resetFailed =>
    cases hpc : s.pc t <;> simp only [lockStep, hpc, reduceCtorEq, Option.some.injEq] at h
    subst h
    refine ⟨fun t' ht' => s.goto_pc_of_ne ht' _, Or.inr (Or.inr
      ⟨by simp [hpc, Pc.UsesLockFd], by simp [LockState.Agrees], ?_⟩)⟩
    rw [hpc]
    exact fun hclean _ => hclean
  | returnFailed =>
    cases hpc : s.pc t <;> simp only [lockStep, hpc, reduceCtorEq, Option.some.injEq] at h
    subst h
    refine ⟨fun t' ht' => s.goto_pc_of_ne ht' _, Or.inl ?_⟩
    constructor <;> simp [hpc, Pc.UsesLockFd]
  | writeContext c =>
    cases hpc : s.pc t <;> simp only [lockStep, hpc, reduceCtorEq, Option.some.injEq] at h
    subst h
    exact ⟨fun _ _ => rfl, Or.inr (Or.inr ⟨by simp [hpc, Pc.UsesLockFd], fun ha => ha,
      by simp [hpc, Pc.UsesLockFd]⟩)⟩
  | enterRelease =>
    cases hpc : s.pc t <;> simp only [lockStep, hpc, reduceCtorEq, Option.some.injEq] at h
    subst h
    refine ⟨fun t' ht' => s.goto_pc_of_ne ht' _, Or.inr (Or.inr
      ⟨by simp [hpc, Pc.UsesLockFd], ?_, by simp [Pc.UsesLockFd]⟩)⟩
    simp [hpc, LockState.Agrees]
  | testRelease =>
    cases hpc : s.pc t <;> simp only [lockStep, hpc, reduceCtorEq, Option.some.injEq] at h
    subst h
    refine ⟨fun t' ht' => s.goto_pc_of_ne ht' _, Or.inr (Or.inr
      ⟨by simp [hpc, Pc.UsesLockFd], ?_, ?_⟩)⟩
    all_goals
      rw [hpc]
      rintro ⟨fd, hfd, hopen, hholder⟩
      simp [hfd, LockState.Agrees, Pc.UsesLockFd, hopen, hholder]
  | closeReleased =>
    cases hpc : s.pc t <;> simp only [lockStep, hpc, reduceCtorEq, Option.some.injEq] at h
    subst h
    refine ⟨fun t' ht' => by simp [LockState.goto_pc_of_ne _ ht'], Or.inr (Or.inr
      ⟨by simp [hpc, Pc.UsesLockFd], ?_, by simp [Pc.UsesLockFd]⟩)⟩
    rw [hpc]
    rintro ⟨fd, hfd, hopen, hholder⟩
    rw [LockState.goto_pc_self]
    exact LockState.closeLockFd_clean hfd hopen (Or.inr hholder)
  | resetReleased =>
    cases hpc : s.pc t <;> simp only [lockStep, hpc, reduceCtorEq, Option.some.injEq] at h
    subst h
    refine ⟨fun t' ht' => s.goto_pc_of_ne ht' _, Or.inr (Or.inr
      ⟨by simp [hpc, Pc.UsesLockFd], by simp [LockState.Agrees], ?_⟩)⟩
    rw [hpc]
    exact fun hclean _ => hclean

omit [DecidableEq T] [Zero C] in
/-- The invariant when at most one call, that of `t`, uses the descriptor. -/
lemma LockInv.of_alone (halone : ∀ t' ≠ t, ¬(s.pc t').UsesLockFd) (hagrees : s.Agrees (s.pc t))
    (hclean : ¬(s.pc t).UsesLockFd → s.Clean) : LockInv s where
  unique t₁ t₂ h₁ h₂ := by
    have h₁' : t₁ = t := by_contra fun hne => halone t₁ hne h₁
    have h₂' : t₂ = t := by_contra fun hne => halone t₂ hne h₂
    rw [h₁', h₂']
  agrees t' := by
    by_cases ht : t' = t
    · rwa [ht]
    · exact LockState.agrees_of_not_usesLockFd (halone t' ht)
  clean hn := hclean (hn t)

/-- An orderly step keeps the invariant. -/
lemma LockInv.step (hinv : LockInv s) (hg : Orderly s (t, e)) (h : lockStep s (t, e) = some s') :
    LockInv s' := by
  obtain ⟨hother, hout | hopen | hin⟩ := lockStep_cases h
  · -- the use of the descriptor is the same as before, for every call
    have huse : ∀ t', (s'.pc t').UsesLockFd ↔ (s.pc t').UsesLockFd := by
      intro t'
      by_cases ht : t' = t
      · subst ht
        exact iff_of_false hout.after hout.before
      · rw [hother t' ht]
    have hclean : s'.Clean ↔ s.Clean := by
      rw [LockState.Clean, LockState.Clean, hout.holder, hout.openFds]
    have hagrees : ∀ pc, s'.Agrees pc ↔ s.Agrees pc := by
      intro pc
      cases pc <;>
        simp only [LockState.Agrees, LockState.Clean, hout.lockFd, hout.openFds, hout.holder]
    refine ⟨fun t₁ t₂ h₁ h₂ => hinv.unique _ _ ((huse _).mp h₁) ((huse _).mp h₂), fun t' => ?_,
      fun hn => hclean.mpr (hinv.clean fun t' ht' => hn t' ((huse t').mpr ht'))⟩
    by_cases ht : t' = t
    · subst ht
      exact LockState.agrees_of_not_usesLockFd hout.after
    · rw [hother t' ht, hagrees]
      exact hinv.agrees t'
  · -- nobody else uses the descriptor when the lock file is opened
    obtain ⟨fd, rfl⟩ := hopen.event
    have halone : ∀ t' ≠ t, ¬(s.pc t').UsesLockFd := hg
    have hclean : s.Clean := hinv.clean fun t' => by
      by_cases ht : t' = t
      · rw [ht]
        exact hopen.before
      · exact halone t' ht
    refine .of_alone (fun t' ht' => ?_) (hopen.agrees hclean) (absurd hopen.after)
    rw [hother t' ht']
    exact halone t' ht'
  · have halone : ∀ t' ≠ t, ¬(s'.pc t').UsesLockFd := fun t' ht' huse => by
      rw [hother t' ht'] at huse
      exact ht' (hinv.unique _ _ huse hin.before)
    exact .of_alone halone (hin.agrees (hinv.agrees t)) (hin.clean (hinv.agrees t))

omit [DecidableEq T] in
lemma lockInv_lockInit : LockInv (lockInit : LockState T C) where
  unique t t' h := by simp [lockInit, Pc.UsesLockFd] at h
  agrees t := trivial
  clean _ := ⟨rfl, rfl⟩

/-! ### The law -/

/-- While a call holds the lock, an orderly step of another call changes neither static. -/
lemma LockInv.untouched (hinv : LockInv s) {t' : T} (ht : (s.pc t).Holds) (hne : t' ≠ t)
    (hg : Orderly s (t', e)) (h : lockStep s (t', e) = some s') :
    s'.lockFd = s.lockFd ∧ s'.ctx = s.ctx := by
  obtain ⟨-, hout | hopen | hin⟩ := lockStep_cases h
  · refine ⟨hout.lockFd, hout.ctx fun he => ?_⟩
    subst he
    exact hg t hne.symm ht
  · obtain ⟨fd, rfl⟩ := hopen.event
    exact absurd ht.usesLockFd (hg t hne.symm)
  · exact absurd (hinv.unique _ _ hin.before ht.usesLockFd) hne

/-- From a state with a free lock, a call gets it. -/
lemma LockState.Clean.canAcquire (hclean : s.Clean) (ht : s.pc t = .outside) : s.CanAcquire t := by
  refine ⟨[.call false, .clearContext, .openLock (some 0), .testOpened, .flock false],
    ⟨Function.update s.pc t .holding, some 0, 0, {0}, some 0⟩, ?_, by simp⟩
  obtain ⟨hfree, hopen⟩ := hclean
  simp [lockSystem, lockStep, LockState.goto, LockState.Grants, ht, hfree, hopen]

/-- **The upload lock.** Every run of orderly steps respects the lock. -/
theorem lockLaw_of_orderly (h : (lockSystem T C).Reachable Orderly s) : LockLaw Orderly s := by
  have hinv : LockInv s := h.invariant lockInv_lockInit fun _ _ _ hi hg hn => hi.step hg hn
  exact
    { exclusive := fun t t' ht ht' => hinv.unique t t' ht.usesLockFd ht'.usesLockFd
      untouched := fun t t' e s' ht hne hg hn => hinv.untouched ht hne hg hn
      free := fun hout => by
        have hclean : s.Clean := hinv.clean fun t => by simp [hout t, Pc.UsesLockFd]
        exact ⟨hclean.1, fun t => hclean.canAcquire (hout t)⟩ }

/-- One call that acquires the lock. -/
def acquireRun : List (Bool × LockEvent ℕ) :=
  [(true, .call false), (true, .clearContext), (true, .openLock (some 5)), (true, .testOpened),
    (true, .flock false), (true, .writeContext 7)]

/-- A second call that finds the lock taken, and the release of the first one after it. -/
def refuseRun : List (Bool × LockEvent ℕ) :=
  [(false, .call false), (false, .clearContext), (false, .openLock (some 6)),
    (false, .testOpened), (false, .flock false), (false, .closeFailed), (false, .resetFailed),
    (false, .returnFailed), (true, .enterRelease), (true, .testRelease)]

/-- Two calls that both open the lock file before either calls `flock`. -/
def doubleRun : List (Bool × LockEvent ℕ) :=
  [(true, .call false), (true, .clearContext), (false, .call false), (false, .clearContext),
    (true, .openLock (some 5)), (true, .testOpened), (false, .openLock (some 6)),
    (false, .testOpened), (true, .flock false), (false, .flock false)]

/-- Two calls after each other: the second one acquires the lock that the first one released. -/
def serialRun : List (Bool × LockEvent ℕ) :=
  acquireRun ++
    [(true, .enterRelease), (true, .testRelease), (true, .closeReleased), (false, .call false),
      (true, .resetReleased), (false, .clearContext), (false, .openLock (some 5)),
      (false, .testOpened), (false, .flock false)]

theorem lockLaw_of_orderly_serial :
    ∃ s : LockState Bool ℕ, (lockSystem Bool ℕ).exec lockInit serialRun = some s ∧
      (s.pc false).Holds ∧ LockLaw Orderly s :=
  ⟨_, rfl, by decide, lockLaw_of_orderly (.of_exec .init
    (show (lockSystem Bool ℕ).Respects Orderly lockInit serialRun by decide) rfl)⟩

/-- Two calls hold the lock at once; a call zeroes the context of the holder; a refused call
leaves the lock taken for ever. -/
theorem lock_statics_shared :
    (∃ s, (lockSystem Bool ℕ).exec lockInit doubleRun = some s ∧
        (s.pc true).Holds ∧ (s.pc false).Holds ∧ ¬LockLaw System.anyStep s) ∧
      (∃ s s', (lockSystem Bool ℕ).exec lockInit acquireRun = some s ∧ (s.pc true).Holds ∧
        (lockSystem Bool ℕ).exec s (refuseRun.take 2) = some s' ∧ s'.ctx ≠ s.ctx) ∧
      ∃ s, (lockSystem Bool ℕ).exec lockInit (acquireRun ++ refuseRun) = some s ∧
        (∀ t, s.pc t = .outside) ∧ s.holder = some 5 := by
  refine ⟨⟨_, rfl, by decide, by decide, fun hlaw => ?_⟩,
    ⟨_, _, rfl, by decide, rfl, by decide⟩, ⟨_, rfl, by decide, by decide⟩⟩
  exact absurd (hlaw.exclusive true false trivial trivial) (by decide)

end DcmAgent.Upload
