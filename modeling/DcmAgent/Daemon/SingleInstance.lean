import Mathlib.Tactic
import DcmAgent.Daemon.PidFile

/-!
# One daemon at a time

The PID file keeps a second daemon out as long as starts and stops do not overlap and the process id
in the file is not given away (`Serial`). The file is removed while its daemon is still alive, and
nothing keeps two starts from passing the check together.
-/

namespace DcmAgent.Daemon

open Library

variable {fs : ProcFs} {others : Pid → Bool} {file : Option (List Char)} {s s' : PidState}
  {p q : Pid} {proc proc' : Option Proc} {text : List Char}

/-! ### Phases -/

/-- Between the opening of the file for reading and the writing of the process id. -/
def Starting : Option Proc → Prop
  | some (.daemon (.reading _)) | some (.daemon (.checking _)) | some (.daemon .opening)
  | some (.daemon (.writing _)) => True
  | _ => False

/-- In `dcmDaemonMainUnInit`. -/
def Stopping : Option Proc → Prop
  | some (.daemon .closing) | some (.daemon .removing) | some (.daemon .exiting) => True
  | _ => False

/-- The check has returned `DCM_SUCCESS`. -/
def Succeeded : Option Proc → Prop
  | some (.daemon .running) | some (.daemon .closing) | some (.daemon .removing)
  | some (.daemon .exiting) => True
  | _ => False

/-- The daemon has succeeded and not yet removed the file. -/
def Owner : Option Proc → Prop
  | some (.daemon .running) | some (.daemon .closing) | some (.daemon .removing) => True
  | _ => False

/-- The name in the file was not there. -/
def Passed : Option Proc → Prop
  | some (.daemon .opening) | some (.daemon (.writing _)) => True
  | proc => Succeeded proc

/-! ### The law -/

/-- One daemon at a time, and only a daemon keeps another one from starting. -/
structure SingleInstance (fs : ProcFs) (guard : PidState → Pid × PidEvent → Prop) (s : PidState) :
    Prop where
  exclusive : ∀ p q, Succeeded (s.procs p) → Succeeded (s.procs q) → p = q
  refused : ∀ p e s', guard s (p, e) → pidStep fs s (p, e) = some s' →
    s.procs p ≠ some (.daemon .refused) → s'.procs p = some (.daemon .refused) →
    ∃ q pc, q ≠ p ∧ s.procs q = some (.daemon pc)

/-- A text that is in the PID file, or that a start has read from it. -/
def PidState.Holds (s : PidState) (text : List Char) : Prop :=
  (∃ i, s.link = some i ∧ fgets 32 (s.contents i) = some text) ∨
    ∃ p, s.procs p = some (.daemon (.checking text))

/-- Starts and stops do not overlap, the process id in the file is not given away, the file can be
written, and no daemon dies while it is empty. -/
def Serial (fs : ProcFs) (s : PidState) : Pid × PidEvent → Prop
  | (p, .spawn _) => ∀ text, s.Holds text → fs.owner text ≠ some p
  | (p, .openRead) => ∀ q, q ≠ p → ¬Starting (s.procs q) ∧ ¬Stopping (s.procs q)
  | (p, .stop) => ∀ q, q ≠ p → ¬Starting (s.procs q)
  | (_, .openWrite ok) => ok = true
  | (p, .die) => ∀ i, s.procs p ≠ some (.daemon (.writing i))
  | _ => True

/-- What the file holds at first names nothing. -/
def Stale (fs : ProcFs) (others : Pid → Bool) (file : Option (List Char)) : Prop :=
  ∀ content ∈ file, ∃ text, fgets 32 content = some text ∧
    ¬fs.present (pidInit others file) text

/-! ### The invariant -/

/-- Two processes at once. -/
structure Compatible (proc proc' : Option Proc) : Prop where
  passed : ¬(Passed proc ∧ Passed proc')
  starting : ¬(Starting proc ∧ (Starting proc' ∨ Stopping proc'))
  starting' : ¬(Starting proc' ∧ Stopping proc)

/-- A text that names a process that is alive names a daemon that has succeeded, and it is the name
of every owner. -/
structure Right (fs : ProcFs) (s : PidState) (text : List Char) : Prop where
  other : fs.other text = false
  named : ∀ p, fs.owner text = some p → (s.procs p).isSome → Succeeded (s.procs p)
  owned : ∀ p, Owner (s.procs p) → text = pidText p

/-- What holds of the file while a process is where it is. -/
def Agrees (fs : ProcFs) (s : PidState) : Option Proc → Prop
  | some (.daemon (.reading i)) => s.link = some i
  | some (.daemon (.writing i)) => s.link = some i ∧ s.contents i = []
  | some (.daemon (.checking text)) => Right fs s text
  | some (.daemon .running) | some (.daemon .closing) | some (.daemon .removing) => s.link ≠ none
  | _ => True

structure PidInv (fs : ProcFs) (s : PidState) : Prop where
  compatible : ∀ p q, p ≠ q → Compatible (s.procs p) (s.procs q)
  agrees : ∀ p, Agrees fs s (s.procs p)
  file : ∀ i, s.link = some i → (∃ p, s.procs p = some (.daemon (.writing i))) ∨
    ∃ text, fgets 32 (s.contents i) = some text ∧ Right fs s text

/-- A process that has nothing to do with the file. -/
def Idle (proc : Option Proc) : Prop := ¬Passed proc ∧ ¬Starting proc

lemma Succeeded.passed (h : Succeeded proc) : Passed proc := by
  unfold Passed
  split
  · trivial
  · trivial
  · exact h

lemma Stopping.succeeded (h : Stopping proc) : Succeeded proc := by
  unfold Stopping at h
  split at h
  · trivial
  · trivial
  · trivial
  · exact h.elim

lemma Owner.succeeded (h : Owner proc) : Succeeded proc := by
  unfold Owner at h
  split at h
  · trivial
  · trivial
  · trivial
  · exact h.elim

lemma Succeeded.isSome (h : Succeeded proc) : proc.isSome := by
  cases proc with
  | none => exact h.elim
  | some proc => rfl

lemma Compatible.symm (h : Compatible proc proc') : Compatible proc' proc where
  passed hb := h.passed hb.symm
  starting := by
    rintro ⟨hs, hs' | hstop⟩
    · exact h.starting ⟨hs', Or.inl hs⟩
    · exact h.starting' ⟨hs, hstop⟩
  starting' hb := h.starting ⟨hb.1, Or.inr hb.2⟩

/-- A process that starts after the check leaves the others idle. -/
lemma Compatible.idle (h : Compatible proc proc') (hp : Passed proc)
    (hs : Starting proc ∨ Stopping proc) : Idle proc' := by
  refine ⟨fun hp' => h.passed ⟨hp, hp'⟩, fun hs' => ?_⟩
  rcases hs with hs | hstop
  · exact h.starting ⟨hs, Or.inl hs'⟩
  · exact h.starting' ⟨hs', hstop⟩

lemma agrees_of_idle (h : Idle proc) : Agrees fs s proc := by
  unfold Agrees
  split
  · exact absurd trivial h.2
  · exact absurd trivial h.2
  · exact absurd trivial h.2
  · exact absurd trivial h.1
  · exact absurd trivial h.1
  · exact absurd trivial h.1
  · trivial

/-- The name of an owner is there. -/
lemma Right.present (h : Right fs s text) (hp : Owner (s.procs p)) : fs.present s text := by
  have halive := hp.succeeded.isSome
  rw [ProcFs.present, h.owned p hp, fs.owner_pidText]
  simp [halive]

/-- A text stays right when processes die and owners remove the file. -/
lemma Right.mono (h : Right fs s text)
    (halive : ∀ p, fs.owner text = some p → (s'.procs p).isSome → (s.procs p).isSome)
    (hsucceeded : ∀ p, (s'.procs p).isSome → Succeeded (s.procs p) → Succeeded (s'.procs p))
    (howner : ∀ p, Owner (s'.procs p) → Owner (s.procs p)) : Right fs s' text where
  other := h.other
  named p hp hsome := hsucceeded p hsome (h.named p hp (halive p hp hsome))
  owned p hp := h.owned p (howner p hp)

/-! ### Steps -/

/-- What a step can do. -/
inductive PidRule (fs : ProcFs) (s : PidState) (p : Pid) : PidEvent → PidState → Prop
  | spawn (daemon : Bool) (hp : s.procs p = none) :
      PidRule fs s p (.spawn daemon)
        (s.setProc p (some (if daemon then .daemon .start else .other)))
  | noFile (hp : s.procs p = some (.daemon .start)) (hlink : s.link = none) :
      PidRule fs s p .openRead (s.goto p .opening)
  | openRead {i : ℕ} (hp : s.procs p = some (.daemon .start)) (hlink : s.link = some i) :
      PidRule fs s p .openRead (s.goto p (.reading i))
  | read {i : ℕ} (garbage : List Char) (hp : s.procs p = some (.daemon (.reading i))) :
      PidRule fs s p (.read garbage) (s.goto p (.checking ((fgets 32 (s.contents i)).getD garbage)))
  | refuse {text : List Char} (hp : s.procs p = some (.daemon (.checking text)))
      (hpresent : fs.present s text) : PidRule fs s p .check (s.goto p .refused)
  | pass {text : List Char} (hp : s.procs p = some (.daemon (.checking text)))
      (hpresent : ¬fs.present s text) : PidRule fs s p .check (s.goto p .opening)
  | openWrite (hp : s.procs p = some (.daemon .opening)) :
      PidRule fs s p (.openWrite true) (s.truncate p)
  | openFails (hp : s.procs p = some (.daemon .opening)) :
      PidRule fs s p (.openWrite false) (s.goto p .refused)
  | write {i : ℕ} (hp : s.procs p = some (.daemon (.writing i))) :
      PidRule fs s p .write { s.goto p .running with
        contents := Function.update s.contents i (overwrite (s.contents i) (pidText p)) }
  | stop (hp : s.procs p = some (.daemon .running)) : PidRule fs s p .stop (s.goto p .closing)
  | fileGone (hp : s.procs p = some (.daemon .closing)) (hlink : s.link = none) :
      PidRule fs s p .findFile (s.goto p .exiting)
  | findFile (hp : s.procs p = some (.daemon .closing)) (hlink : s.link ≠ none) :
      PidRule fs s p .findFile (s.goto p .removing)
  | remove (hp : s.procs p = some (.daemon .removing)) :
      PidRule fs s p .remove { s.goto p .exiting with link := none }
  | die {proc : Proc} (hp : s.procs p = some proc) : PidRule fs s p .die (s.setProc p none)

lemma pidRule_of_pidStep {e : PidEvent} (h : pidStep fs s (p, e) = some s') :
    PidRule fs s p e s' := by
  unfold pidStep at h
  dsimp only at h
  split at h
  case h_1 daemon hp =>
    cases h
    exact .spawn daemon hp
  case h_2 hp =>
    cases h
    cases hlink : s.link with
    | none => exact .noFile hp hlink
    | some i => exact .openRead hp hlink
  case h_3 garbage hp =>
    cases h
    exact .read garbage hp
  case h_4 text hp =>
    cases h
    by_cases hpresent : fs.present s text
    · rw [if_pos hpresent]
      exact .refuse hp hpresent
    · rw [if_neg hpresent]
      exact .pass hp hpresent
  case h_5 ok hp =>
    cases h
    cases ok with
    | false => exact .openFails hp
    | true => exact .openWrite hp
  case h_6 hp =>
    cases h
    exact .write hp
  case h_7 hp =>
    cases h
    exact .stop hp
  case h_8 hp =>
    cases h
    by_cases hlink : s.link = none
    · rw [if_pos hlink]
      exact .fileGone hp hlink
    · rw [if_neg hlink]
      exact .findFile hp hlink
  case h_9 hp =>
    cases h
    exact .remove hp
  case h_10 proc hp =>
    cases h
    exact .die hp
  case h_11 => cases h

/-! ### Steps that leave the file alone -/

@[simp] lemma setProc_procs_self (s : PidState) (p : Pid) (proc : Option Proc) :
    (s.setProc p proc).procs p = proc := by simp [PidState.setProc]

lemma setProc_procs_of_ne (s : PidState) (h : q ≠ p) (proc : Option Proc) :
    (s.setProc p proc).procs q = s.procs q := by simp [PidState.setProc, h]

lemma Right.setProc (h : Right fs s text)
    (halive : fs.owner text = some p → proc.isSome → (s.procs p).isSome)
    (hsucceeded : proc.isSome → Succeeded (s.procs p) → Succeeded proc)
    (howner : Owner proc → Owner (s.procs p)) : Right fs (s.setProc p proc) text := by
  refine h.mono (fun q => ?_) (fun q => ?_) (fun q => ?_)
  · by_cases hq : q = p
    · rw [hq, setProc_procs_self]
      exact halive
    · rw [setProc_procs_of_ne s hq]
      exact fun _ => id
  · by_cases hq : q = p
    · rw [hq, setProc_procs_self]
      exact hsucceeded
    · rw [setProc_procs_of_ne s hq]
      exact fun _ => id
  · by_cases hq : q = p
    · rw [hq, setProc_procs_self]
      exact howner
    · rw [setProc_procs_of_ne s hq]
      exact id

lemma agrees_setProc (h : Agrees fs s proc')
    (hright : ∀ text, proc' = some (.daemon (.checking text)) → Right fs s text →
      Right fs (s.setProc p proc) text) : Agrees fs (s.setProc p proc) proc' := by
  unfold Agrees at h ⊢
  split at h
  · exact h
  · exact h
  · exact hright _ rfl h
  · exact h
  · exact h
  · exact h
  · trivial

/-- A step of `p` alone. -/
lemma PidInv.setProc (h : PidInv fs s) (hwriting : ∀ i, s.procs p ≠ some (.daemon (.writing i)))
    (hcompatible : ∀ q, q ≠ p → Compatible proc (s.procs q))
    (hagrees : Agrees fs (s.setProc p proc) proc)
    (hright : ∀ text, s.Holds text → Right fs s text → Right fs (s.setProc p proc) text) :
    PidInv fs (s.setProc p proc) where
  compatible q q' hne := by
    by_cases hq : q = p
    · rw [hq, setProc_procs_self, setProc_procs_of_ne s (hq ▸ hne.symm)]
      exact hcompatible q' (hq ▸ hne.symm)
    · rw [setProc_procs_of_ne s hq]
      by_cases hq' : q' = p
      · rw [hq', setProc_procs_self]
        exact (hcompatible q hq).symm
      · rw [setProc_procs_of_ne s hq']
        exact h.compatible q q' hne
  agrees q := by
    by_cases hq : q = p
    · rw [hq, setProc_procs_self]
      exact hagrees
    · rw [setProc_procs_of_ne s hq]
      exact agrees_setProc (h.agrees q) fun text htext => hright text (Or.inr ⟨q, htext⟩)
  file i hi := by
    rcases h.file i hi with ⟨q, hq⟩ | ⟨text, htext, htrue⟩
    · have hne : q ≠ p := fun heq => hwriting i (heq ▸ hq)
      exact Or.inl ⟨q, by rw [setProc_procs_of_ne s hne, hq]⟩
    · exact Or.inr ⟨text, htext, hright text (Or.inl ⟨i, hi, htext⟩) htrue⟩

lemma Compatible.mono (h : Compatible proc proc') {new : Option Proc}
    (hpassed : Passed new → Passed proc) (hstarting : Starting new → Starting proc)
    (hstopping : Stopping new → Stopping proc) : Compatible new proc' where
  passed hb := h.passed ⟨hpassed hb.1, hb.2⟩
  starting hb := h.starting ⟨hstarting hb.1, hb.2⟩
  starting' hb := h.starting' ⟨hb.1, hstopping hb.2⟩

lemma Idle.compatible (h : Idle proc) (proc' : Option Proc) : Compatible proc proc' where
  passed hb := h.1 hb.1
  starting hb := h.2 hb.1
  starting' hb := h.1 hb.2.succeeded.passed

lemma Passed.cases (h : Passed proc) :
    Starting proc ∨ Stopping proc ∨ proc = some (.daemon .running) := by
  unfold Passed Succeeded at h
  split at h
  · exact Or.inl trivial
  · exact Or.inl trivial
  · split at h
    · exact Or.inr (Or.inr rfl)
    · exact Or.inr (Or.inl trivial)
    · exact Or.inr (Or.inl trivial)
    · exact Or.inr (Or.inl trivial)
    · exact h.elim

/-- A start that is not one yet, seen from another process. -/
lemma compatible_of_not_busy (h : ¬Starting proc' ∧ ¬Stopping proc')
    (hpassed : Passed proc → ¬Passed proc') (hstopping : ¬Stopping proc) :
    Compatible proc proc' where
  passed hb := hpassed hb.1 hb.2
  starting hb := hb.2.elim h.1 h.2
  starting' hb := hstopping hb.2

/-! ### Steps that change the file -/

lemma PidInv.of_idle (hidle : ∀ q, q ≠ p → Idle (s'.procs q)) (hagrees : Agrees fs s' (s'.procs p))
    (hfile : ∀ i, s'.link = some i → s'.procs p = some (.daemon (.writing i)) ∨
      ∃ text, fgets 32 (s'.contents i) = some text ∧ Right fs s' text) : PidInv fs s' where
  compatible q q' hne := by
    by_cases hq : q = p
    · exact ((hidle q' (hq ▸ hne.symm)).compatible _).symm
    · exact (hidle q hq).compatible _
  agrees q := by
    by_cases hq : q = p
    · exact hq ▸ hagrees
    · exact agrees_of_idle (hidle q hq)
  file i hi := (hfile i hi).imp_left fun hp => ⟨p, hp⟩

/-! ### The invariant in a serial run -/

lemma stale_start (hstale : Stale fs others file) : PidInv fs (pidInit others file) := by
  have hidle : ∀ q, Idle ((pidInit others file).procs q) := by
    intro q
    rw [pidInit]
    dsimp only
    split
    · exact ⟨not_false, not_false⟩
    · exact ⟨not_false, not_false⟩
  refine ⟨fun p q _ => (hidle p).compatible _, fun p => agrees_of_idle (hidle p), fun i hi => ?_⟩
  cases file with
  | none => cases hi
  | some content =>
    obtain ⟨text, htext, habsent⟩ := hstale content rfl
    refine Or.inr ⟨text, htext, ?_, fun p hp hsome => ?_, fun p hp => ?_⟩
    · cases hother : fs.other text with
      | false => rfl
      | true => exact absurd (by rw [ProcFs.present, hother]; rfl) habsent
    · exact absurd (by rw [ProcFs.present, hp]; simp [hsome]) habsent
    · exact absurd hp.succeeded.passed (hidle p).1

lemma Right.goto (h : Right fs s text) {pc pc' : PidPc} (hp : s.procs p = some (.daemon pc))
    (hsucceeded : Succeeded (some (.daemon pc)) → Succeeded (some (.daemon pc')))
    (howner : Owner (some (.daemon pc')) → Owner (some (.daemon pc))) :
    Right fs (s.goto p pc') text :=
  h.setProc (fun _ _ => by rw [hp]; rfl) (fun _ hs => hsucceeded (hp ▸ hs))
    (fun ho => by rw [hp]; exact howner ho)

/-- A daemon goes on, and leaves the file alone. -/
lemma PidInv.goto (h : PidInv fs s) {pc pc' : PidPc} (hp : s.procs p = some (.daemon pc))
    (hwriting : ∀ i, pc ≠ .writing i)
    (hcompatible : ∀ q, q ≠ p → Compatible (some (.daemon pc')) (s.procs q))
    (hagrees : Agrees fs (s.goto p pc') (some (.daemon pc')))
    (hsucceeded : Succeeded (some (.daemon pc)) → Succeeded (some (.daemon pc')))
    (howner : Owner (some (.daemon pc')) → Owner (some (.daemon pc))) :
    PidInv fs (s.goto p pc') := by
  refine h.setProc (fun i hi => ?_) hcompatible hagrees fun text _ hright => ?_
  · rw [hp, Option.some_inj, Proc.daemon.injEq] at hi
    exact hwriting i hi
  · exact hright.goto hp hsucceeded howner

lemma PidInv.compatible_of (h : PidInv fs s) {pc : PidPc} (hp : s.procs p = some (.daemon pc))
    (hq : q ≠ p) : Compatible (some (.daemon pc)) (s.procs q) :=
  hp ▸ h.compatible p q hq.symm

lemma PidInv.agrees_of (h : PidInv fs s) {pc : PidPc} (hp : s.procs p = some (.daemon pc)) :
    Agrees fs s (some (.daemon pc)) := hp ▸ h.agrees p

/-- While a daemon changes the file the others are idle. -/
lemma PidInv.idle_of (h : PidInv fs s) {pc : PidPc} (hp : s.procs p = some (.daemon pc))
    (hpassed : Passed (some (.daemon pc)))
    (hbusy : Starting (some (.daemon pc)) ∨ Stopping (some (.daemon pc))) (hq : q ≠ p)
    (new : Option Proc) : Idle ((s.setProc p new).procs q) := by
  rw [setProc_procs_of_ne s hq]
  exact (h.compatible_of hp hq).idle hpassed hbusy

/-- What a start reads is right, since nobody else is writing. -/
lemma PidInv.right_of_reading (h : PidInv fs s) {i : ℕ}
    (hp : s.procs p = some (.daemon (.reading i))) (garbage : List Char) :
    Right fs s ((fgets 32 (s.contents i)).getD garbage) := by
  rcases h.file i (h.agrees_of hp) with ⟨q, hq⟩ | ⟨text, htext, hright⟩
  · have hne : q ≠ p := by
      rintro rfl
      rw [hp] at hq
      cases hq
    have hcompatible := h.compatible_of hp hne
    rw [hq] at hcompatible
    exact absurd ⟨trivial, Or.inl trivial⟩ hcompatible.starting
  · rw [htext]
    exact hright

/-- When the name is not there nobody else has passed. -/
lemma PidInv.not_passed (h : PidInv fs s) (hp : s.procs p = some (.daemon (.checking text)))
    (habsent : ¬fs.present s text) (hq : q ≠ p) : ¬Passed (s.procs q) := by
  have hcompatible := h.compatible_of hp hq
  intro hpassed
  rcases hpassed.cases with hstarting | hstopping | hrunning
  · exact hcompatible.starting ⟨trivial, Or.inl hstarting⟩
  · exact hcompatible.starting ⟨trivial, Or.inr hstopping⟩
  · have hright : Right fs s text := h.agrees_of hp
    exact habsent (hright.present (p := q) (by rw [hrunning]; trivial))

lemma truncate_spec (s : PidState) (p : Pid) : ∃ i,
    (s.truncate p).procs = (s.goto p (.writing i)).procs ∧ (s.truncate p).link = some i ∧
      (s.truncate p).contents i = [] := by
  unfold PidState.truncate
  cases hlink : s.link with
  | none => exact ⟨s.fresh, rfl, rfl, Function.update_self ..⟩
  | some i => exact ⟨i, rfl, hlink, Function.update_self ..⟩

lemma PidInv.step (h : PidInv fs s) {e : PidEvent} (hserial : Serial fs s (p, e))
    (hstep : pidStep fs s (p, e) = some s') : PidInv fs s' := by
  cases pidRule_of_pidStep hstep with
  | spawn daemon hp =>
    have hidle : Idle (some (if daemon then Proc.daemon .start else .other)) := by
      cases daemon <;> exact ⟨not_false, not_false⟩
    refine h.setProc (fun i hi => ?_) (fun q _ => hidle.compatible _) (agrees_of_idle hidle)
      fun text hholds hright => hright.setProc ?_ ?_ ?_
    · rw [hp] at hi
      cases hi
    · exact fun hp' => absurd hp' (hserial text hholds)
    · rw [hp]
      exact fun _ => False.elim
    · exact fun ho => absurd ho.succeeded.passed hidle.1
  | noFile hp hlink =>
    refine h.goto hp (by simp) (fun q hq => ?_) trivial False.elim id
    refine compatible_of_not_busy (hserial q hq) (fun _ hpassed => ?_) not_false
    rcases hpassed.cases with hstarting | hstopping | hrunning
    · exact (hserial q hq).1 hstarting
    · exact (hserial q hq).2 hstopping
    · exact h.agrees_of hrunning hlink
  | openRead hp hlink =>
    refine h.goto hp (by simp) (fun q hq => ?_) hlink False.elim id
    exact compatible_of_not_busy (hserial q hq) (fun hpassed => False.elim hpassed) not_false
  | read garbage hp =>
    refine h.goto hp (by simp) (fun q hq => ?_) ?_ id id
    · exact (h.compatible_of hp hq).mono id (fun _ => trivial) id
    · exact (h.right_of_reading hp garbage).goto hp id id
  | refuse hp hpresent =>
    have hidle : Idle (some (.daemon .refused)) := ⟨not_false, not_false⟩
    exact h.goto hp (by simp) (fun q _ => hidle.compatible _) trivial id id
  | pass hp hpresent =>
    refine h.goto hp (by simp) (fun q hq => ?_) trivial id id
    have hcompatible := h.compatible_of hp hq
    exact ⟨fun hb => h.not_passed hp hpresent hq hb.2,
      fun hb => hcompatible.starting ⟨trivial, hb.2⟩, fun hb => False.elim hb.2⟩
  | openWrite hp =>
    obtain ⟨i, hprocs, hlink, hcontents⟩ := truncate_spec s p
    have hself : (s.truncate p).procs p = some (.daemon (.writing i)) := by
      rw [hprocs]
      exact setProc_procs_self s p _
    refine PidInv.of_idle (p := p) (fun q hq => ?_) ?_ (fun j hj => Or.inl ?_)
    · rw [hprocs]
      exact h.idle_of hp trivial (Or.inl trivial) hq _
    · rw [hself]
      exact ⟨hlink, hcontents⟩
    · rw [hself, Option.some.inj (hlink.symm.trans hj)]
  | openFails hp => cases hserial
  | @write i hp =>
    obtain ⟨hlink, hcontents⟩ := h.agrees_of hp
    have hidle : ∀ q, q ≠ p → Idle ((s.goto p .running).procs q) := fun q hq =>
      h.idle_of hp trivial (Or.inl trivial) hq _
    have hself : (s.goto p .running).procs p = some (.daemon .running) := setProc_procs_self s p _
    refine PidInv.of_idle (p := p) hidle ?_ (fun j hj => Or.inr ⟨pidText p, ?_, ?_⟩)
    · change Agrees fs _ ((s.goto p .running).procs p)
      rw [hself]
      exact fun hnone => absurd (hlink.symm.trans hnone) (Option.some_ne_none i)
    · obtain rfl : i = j := Option.some.inj (hlink.symm.trans hj)
      change fgets 32 (Function.update s.contents i _ i) = _
      rw [Function.update_self, hcontents, overwrite, List.drop_nil, List.append_nil]
      exact fgets_pidText p
    · refine ⟨fs.other_pidText p, fun q hq _ => ?_, fun q hq => ?_⟩
      · obtain rfl : p = q := Option.some.inj ((fs.owner_pidText p).symm.trans hq)
        change Succeeded ((s.goto p .running).procs p)
        rw [hself]
        trivial
      · by_contra hne
        have hqp : q ≠ p := fun heq => hne (by rw [heq])
        exact (hidle q hqp).1 hq.succeeded.passed
  | stop hp =>
    refine h.goto hp (by simp) (fun q hq => ?_) (h.agrees_of hp) (fun _ => trivial)
      (fun _ => trivial)
    have hcompatible := h.compatible_of hp hq
    exact ⟨fun hb => hcompatible.passed ⟨trivial, hb.2⟩, fun hb => False.elim hb.1,
      fun hb => hserial q hq hb.1⟩
  | fileGone hp hlink => exact absurd hlink (h.agrees_of hp)
  | findFile hp hlink =>
    refine h.goto hp (by simp) (fun q hq => ?_) hlink (fun _ => trivial) (fun _ => trivial)
    exact (h.compatible_of hp hq).mono (fun _ => trivial) id (fun _ => trivial)
  | remove hp =>
    refine PidInv.of_idle (p := p) (fun q hq => ?_) ?_ (fun i hi => ?_)
    · exact h.idle_of hp trivial (Or.inr trivial) hq _
    · change Agrees fs _ ((s.goto p .exiting).procs p)
      rw [PidState.goto, setProc_procs_self]
      trivial
    · cases hi
  | die hp =>
    have hidle : Idle none := ⟨not_false, not_false⟩
    refine h.setProc hserial (fun q _ => hidle.compatible _) trivial
      fun text _ hright => hright.setProc ?_ ?_ ?_
    · exact fun _ hsome => absurd hsome (by simp)
    · exact fun hsome => absurd hsome (by simp)
    · exact False.elim

/-! ### The law in a serial run -/

lemma Succeeded.exists_daemon (h : Succeeded proc) : ∃ pc, proc = some (.daemon pc) := by
  unfold Succeeded at h
  split at h
  · exact ⟨_, rfl⟩
  · exact ⟨_, rfl⟩
  · exact ⟨_, rfl⟩
  · exact ⟨_, rfl⟩
  · exact h.elim

/-- A right text that is there names another daemon. -/
lemma Right.exists_daemon (h : Right fs s text) (hpresent : fs.present s text)
    (hp : ¬Succeeded (s.procs p)) : ∃ q pc, q ≠ p ∧ s.procs q = some (.daemon pc) := by
  rw [ProcFs.present, h.other, Bool.false_or] at hpresent
  cases howner : fs.owner text with
  | none =>
    rw [howner] at hpresent
    exact absurd hpresent Bool.false_ne_true
  | some q =>
    rw [howner] at hpresent
    have hsucceeded := h.named q howner hpresent
    obtain ⟨pc, hq⟩ := hsucceeded.exists_daemon
    refine ⟨q, pc, ?_, hq⟩
    rintro rfl
    exact hp hsucceeded

lemma goto_procs_self (s : PidState) (p : Pid) (pc : PidPc) :
    (s.goto p pc).procs p = some (.daemon pc) := setProc_procs_self s p _

lemma goto_procs_of_ne (s : PidState) (h : q ≠ p) (pc : PidPc) :
    (s.goto p pc).procs q = s.procs q := setProc_procs_of_ne s h _

/-- A step of one process leaves the others where they are. -/
lemma PidRule.procs_of_ne {e : PidEvent} (h : PidRule fs s p e s') (hq : q ≠ p) :
    s'.procs q = s.procs q := by
  cases h with
  | openWrite hp =>
    obtain ⟨i, hprocs, -, -⟩ := truncate_spec s p
    rw [hprocs]
    exact goto_procs_of_ne s hq _
  | spawn daemon hp => exact setProc_procs_of_ne s hq _
  | noFile hp hlink => exact goto_procs_of_ne s hq _
  | openRead hp hlink => exact goto_procs_of_ne s hq _
  | read garbage hp => exact goto_procs_of_ne s hq _
  | refuse hp hpresent => exact goto_procs_of_ne s hq _
  | pass hp hpresent => exact goto_procs_of_ne s hq _
  | openFails hp => exact goto_procs_of_ne s hq _
  | write hp => exact goto_procs_of_ne s hq _
  | stop hp => exact goto_procs_of_ne s hq _
  | fileGone hp hlink => exact goto_procs_of_ne s hq _
  | findFile hp hlink => exact goto_procs_of_ne s hq _
  | remove hp => exact goto_procs_of_ne s hq _
  | die hp => exact setProc_procs_of_ne s hq _

/-- A run has left a process where it was when none of its steps is that process's. -/
lemma procs_of_exec {as : List (Pid × PidEvent)}
    (h : (pidSystem fs others file).exec s as = some s') (hq : ∀ a ∈ as, q ≠ a.1) :
    s'.procs q = s.procs q := by
  induction as generalizing s with
  | nil =>
    cases h
    rfl
  | cons a as ih =>
    rw [System.exec_cons, Option.bind_eq_some_iff] at h
    obtain ⟨s₁, h₁, h₂⟩ := h
    rw [ih h₂ fun a ha => hq a (List.mem_cons_of_mem _ ha)]
    exact (pidRule_of_pidStep h₁).procs_of_ne (hq a List.mem_cons_self)

/-- Only the check, or a file that cannot be opened, refuses a start. -/
lemma refused_cases {e : PidEvent} (h : PidRule fs s p e s')
    (hrefused : s'.procs p = some (.daemon .refused)) :
    (∃ text, s.procs p = some (.daemon (.checking text)) ∧ fs.present s text) ∨
      e = .openWrite false := by
  cases h with
  | refuse hp hpresent => exact Or.inl ⟨_, hp, hpresent⟩
  | openFails hp => exact Or.inr rfl
  | spawn daemon hp =>
    rw [setProc_procs_self] at hrefused
    cases daemon <;> cases hrefused
  | openWrite hp =>
    obtain ⟨i, hprocs, -, -⟩ := truncate_spec s p
    rw [hprocs, goto_procs_self] at hrefused
    cases hrefused
  | write hp =>
    change (s.goto p .running).procs p = _ at hrefused
    rw [goto_procs_self] at hrefused
    cases hrefused
  | remove hp =>
    change (s.goto p .exiting).procs p = _ at hrefused
    rw [goto_procs_self] at hrefused
    cases hrefused
  | die hp =>
    rw [setProc_procs_self] at hrefused
    cases hrefused
  | noFile hp hlink => rw [goto_procs_self] at hrefused; cases hrefused
  | openRead hp hlink => rw [goto_procs_self] at hrefused; cases hrefused
  | read garbage hp => rw [goto_procs_self] at hrefused; cases hrefused
  | pass hp hpresent => rw [goto_procs_self] at hrefused; cases hrefused
  | stop hp => rw [goto_procs_self] at hrefused; cases hrefused
  | fileGone hp hlink => rw [goto_procs_self] at hrefused; cases hrefused
  | findFile hp hlink => rw [goto_procs_self] at hrefused; cases hrefused

/-- Along a serial run that starts with a stale file there is one daemon at a time, and a start is
refused for another daemon only. -/
theorem singleInstance_of_serial (hstale : Stale fs others file)
    (h : (pidSystem fs others file).Reachable (Serial fs) s) :
    SingleInstance fs (Serial fs) s := by
  have hinv : PidInv fs s :=
    h.invariant (stale_start hstale) fun s a s' hs hguard hnext => hs.step hguard hnext
  refine ⟨fun p q hp hq => ?_, fun p e s' hguard hstep _ hrefused => ?_⟩
  · by_contra hne
    exact (hinv.compatible p q hne).passed ⟨hp.passed, hq.passed⟩
  · rcases refused_cases (pidRule_of_pidStep hstep) hrefused with ⟨text, hp, hpresent⟩ | rfl
    · have hright : Right fs s text := hinv.agrees_of hp
      exact hright.exists_daemon hpresent (by rw [hp]; exact not_false)
    · cases hguard

/-! ### Runs -/

/-- The process ids, and two names of other entries. -/
def sampleProcFs : ProcFs where
  owner text :=
    if h : Nat.ofDigitChars 10 text 0 < 2 ^ 22 + 1 then
      if pidText ⟨_, h⟩ = text then some ⟨_, h⟩ else none
    else none
  other text := text = [] ∨ text = "self".toList
  owner_pidText p := by
    have hread : Nat.ofDigitChars 10 (pidText p) 0 = p := Nat.ofDigitChars_ten_toDigits
    have hlt : Nat.ofDigitChars 10 (pidText p) 0 < 2 ^ 22 + 1 := hread ▸ p.isLt
    have hself : (⟨_, hlt⟩ : Pid) = p := Fin.ext hread
    rw [dif_pos hlt, hself, if_pos rfl]
  other_pidText p := by
    refine decide_eq_false ?_
    rintro (hnil | hself)
    · exact Nat.toDigits_ne_nil hnil
    · have hmem : 's' ∈ pidText p := hself ▸ List.mem_cons_self
      exact absurd (Nat.isDigit_of_mem_toDigits (by decide) (by decide) hmem) (by decide)

/-- A daemon that starts when there is no file. -/
def startRun (p : Pid) : List (Pid × PidEvent) :=
  [(p, .spawn true), (p, .openRead), (p, .openWrite true), (p, .write)]

/-- Two daemons that look for the file before either has made it. -/
def overlapRun : List (Pid × PidEvent) :=
  [(1, .spawn true), (2, .spawn true), (1, .openRead), (2, .openRead), (1, .openWrite true),
    (1, .write), (2, .openWrite true), (2, .write)]

/-- A daemon that is killed, and one that then starts and finds its file. -/
def handoverRun : List (Pid × PidEvent) :=
  startRun 1 ++ [(1, .die), (2, .spawn true), (2, .openRead), (2, .read []), (2, .check),
    (2, .openWrite true), (2, .write)]

/-- A start that finds the process id of a daemon that has died, now of another program. -/
def reuseRun : List (Pid × PidEvent) := [(1, .spawn true), (1, .openRead), (1, .read [])]

lemma not_holds_none (text : List Char) : ¬(pidInit (fun _ => false) none).Holds text := by
  rintro (⟨i, hi, -⟩ | ⟨p, hp⟩)
  · cases hi
  · cases hp

/-- The guards of the second start: the file names the first daemon only, and that one is gone. -/
lemma serial_handoverRun : (pidSystem sampleProcFs (fun _ => false) none).Respects
    (Serial sampleProcFs) (pidInit (fun _ => false) none) handoverRun := by
  refine ⟨fun text hholds => absurd hholds (not_holds_none text), fun q hq => ?_, rfl, trivial,
    fun i => ?_, ?_, fun q hq => ?_, trivial, trivial, rfl, trivial, trivial⟩
  · rw [setProc_procs_of_ne _ hq]
    exact ⟨not_false, not_false⟩
  · rw [goto_procs_self]
    simp
  · rintro text (⟨i, hi, htext⟩ | ⟨p, hp⟩)
    · cases hi
      have hone : pidText 1 = text := Option.some.inj ((fgets_pidText 1).symm.trans htext)
      rw [← hone, sampleProcFs.owner_pidText]
      decide
    · by_cases hp1 : p = 1
      · subst hp1
        cases hp
      · have hrun : (pidSystem sampleProcFs (fun _ => false) none).exec
            (pidInit (fun _ => false) none) (startRun 1 ++ [(1, .die)]) = some _ := rfl
        have hnone := procs_of_exec (q := p) hrun (by simp [startRun, hp1])
        exact absurd (hnone.symm.trans hp) (Option.some_ne_none _).symm
  · by_cases hq1 : q = 1
    · subst hq1
      exact ⟨not_false, not_false⟩
    · have hrun : (pidSystem sampleProcFs (fun _ => false) none).exec
          (pidInit (fun _ => false) none) (startRun 1 ++ [(1, .die), (2, .spawn true)]) =
            some _ := rfl
      rw [procs_of_exec hrun (by simp [startRun, hq1, hq])]
      exact ⟨not_false, not_false⟩

theorem single_instance_handover : ∃ s,
    (pidSystem sampleProcFs (fun _ => false) none).exec (pidInit (fun _ => false) none)
      handoverRun = some s ∧ s.procs 2 = some (.daemon .running) ∧
        SingleInstance sampleProcFs (Serial sampleProcFs) s := by
  have hstale : Stale sampleProcFs (fun _ => false) none := by simp [Stale]
  exact ⟨_, rfl, rfl, singleInstance_of_serial hstale
    (System.Reachable.of_exec .init serial_handoverRun rfl)⟩

/-- Two daemons run, and another one is refused with no daemon around. -/
theorem overlap_and_reuse :
    (∃ s, (pidSystem sampleProcFs (fun _ => false) none).exec (pidInit (fun _ => false) none)
      overlapRun = some s ∧ ¬SingleInstance sampleProcFs System.anyStep s) ∧
    ∃ s, (pidSystem sampleProcFs (· = 7) (some "7".toList)).exec
      (pidInit (· = 7) (some "7".toList)) reuseRun = some s ∧
        ¬SingleInstance sampleProcFs System.anyStep s := by
  refine ⟨⟨_, rfl, fun h => ?_⟩, ⟨_, rfl, fun h => ?_⟩⟩
  · exact absurd (h.exclusive 1 2 trivial trivial) (by decide)
  · obtain ⟨q, pc, hq, hdaemon⟩ := h.refused 1 .check _ trivial rfl (by decide) (by decide +kernel)
    rw [goto_procs_of_ne _ hq, goto_procs_of_ne _ hq, setProc_procs_of_ne _ hq, pidInit] at hdaemon
    dsimp only at hdaemon
    split at hdaemon <;> cases hdaemon

end DcmAgent.Daemon
