import Mathlib.Tactic
import DcmAgent.Library.System

/-!
# The main loop of the daemon

Callbacks of the bus set the path of the configuration and ask for it to be processed. The main
loop tests the request, parses the configuration, and only then clears the request. The parser is
given a pointer to the path, and reads it twice: for the settings, and for the files of the other
modules after the log uploads.
-/

namespace DcmAgent.Daemon

open Library

def dcmConfSize : ℕ := 128

/-! ### The loop -/

/-- What happens to the configuration, in order: the callbacks, and what the parser reads. -/
inductive ConfEvent where
  | setConf (path : List Char)
  | procConf
  | opened (path : List Char)
  | stored (path : List Char)
  deriving DecidableEq, Repr

/-- Where the main loop is. A parse that has begun keeps the path of its settings. -/
inductive LoopPc where
  | sleeping
  | starting
  | parsing (path : List Char)
  | parsed
  deriving DecidableEq, Repr

/-- The handle of the bus, with the main loop and what has happened. -/
structure MainLoop where
  schedJob : Bool
  confPath : List Char
  pc : LoopPc
  log : List ConfEvent
  deriving DecidableEq

/-- The steps of the callbacks and of the main loop. A callback may come without a path, and a
document may be refused. -/
inductive LoopAction where
  | rbusSetConf (path : Option (List Char))
  | rbusProcConf
  | schedJobStatus
  | jsonInit (ok : Bool)
  | storeTempConf
  | schedResetStatus
  deriving DecidableEq, Repr

def rbusSetConf (s : MainLoop) (path : Option (List Char)) : MainLoop :=
  match path with
  | none => s
  | some path =>
    { s with confPath := path.take (dcmConfSize - 1), log := s.log ++ [.setConf path] }

def rbusProcConf (s : MainLoop) : MainLoop :=
  { s with schedJob := true, log := s.log ++ [.procConf] }

def loopStep (s : MainLoop) (a : LoopAction) : Option MainLoop :=
  match s.pc, a with
  | _, .rbusSetConf path => some (rbusSetConf s path)
  | _, .rbusProcConf => some (rbusProcConf s)
  | .sleeping, .schedJobStatus =>
    some (if s.schedJob then { s with pc := .starting } else s)
  | .starting, .jsonInit ok =>
    let pc := if ok then .parsing s.confPath else .parsed
    some { s with pc := pc, log := s.log ++ [.opened s.confPath] }
  | .parsing _, .storeTempConf =>
    some { s with pc := .parsed, log := s.log ++ [.stored s.confPath] }
  | .parsed, .schedResetStatus => some { s with schedJob := false, pc := .sleeping }
  | _, _ => none

def loopSystem : System MainLoop LoopAction where
  init := ⟨false, [], .sleeping, []⟩
  next := loopStep

/-! ### Served requests -/

/-- The path of the last callback that had one. -/
def lastPath (log : List ConfEvent) : Option (List Char) :=
  log.foldl (fun p e => match e with | .setConf path => some path | _ => p) none

/-- A parse with this path has begun after the last request; it has read the last path set before
it, and has read no other path since. -/
def ServedBy (log : List ConfEvent) (path : List Char) : Prop :=
  ∃ before after, log = before ++ .opened path :: after ∧ .procConf ∉ after ∧
    (∀ p ∈ lastPath before, path = p) ∧ ∀ p, .stored p ∈ after → p = path

/-- Whenever the loop sleeps without a request, all requests have been served. -/
def NoneLost (s : MainLoop) : Prop :=
  s.pc = .sleeping → s.schedJob = false → .procConf ∈ s.log → ∃ path, ServedBy s.log path

/-- No request comes between the begin of a parse and the reset; a parse begins with a path that
has not been cut off, and reads the same path twice. -/
def KeepsRequests (s : MainLoop) (a : LoopAction) : Prop :=
  match s.pc, a with
  | .parsing _, .rbusProcConf => False
  | .parsed, .rbusProcConf => False
  | .starting, .jsonInit _ => ∀ p ∈ lastPath s.log, p.length < dcmConfSize
  | .parsing path, .storeTempConf => s.confPath = path
  | _, _ => True

instance (s : MainLoop) (a : LoopAction) : Decidable (KeepsRequests s a) := by
  unfold KeepsRequests
  split <;> infer_instance

/-! ### The steps -/

variable {s s' : MainLoop} {a : LoopAction} {log before after : List ConfEvent}
  {path q : List Char}

/-- The rules of the loop. -/
inductive LoopRule (s : MainLoop) : LoopAction → MainLoop → Prop where
  | rbusSetConf (path : Option (List Char)) : LoopRule s (.rbusSetConf path) (rbusSetConf s path)
  | rbusProcConf : LoopRule s .rbusProcConf (rbusProcConf s)
  | idle : s.pc = .sleeping → s.schedJob = false → LoopRule s .schedJobStatus s
  | start : s.pc = .sleeping → s.schedJob = true →
      LoopRule s .schedJobStatus { s with pc := .starting }
  | jsonInit (ok : Bool) : s.pc = .starting → LoopRule s (.jsonInit ok)
      { s with
        pc := if ok then .parsing s.confPath else .parsed
        log := s.log ++ [.opened s.confPath] }
  | storeTempConf (path : List Char) : s.pc = .parsing path → LoopRule s .storeTempConf
      { s with pc := .parsed, log := s.log ++ [.stored s.confPath] }
  | schedResetStatus : s.pc = .parsed →
      LoopRule s .schedResetStatus { s with schedJob := false, pc := .sleeping }

lemma LoopRule.of_loopStep (h : loopStep s a = some s') : LoopRule s a s' := by
  unfold loopStep at h
  split at h
  case h_3 hpc =>
    obtain rfl := Option.some.inj h
    split_ifs with hjob
    · exact .start hpc hjob
    · exact .idle hpc (by simpa using hjob)
  case h_7 => cases h
  all_goals obtain rfl := Option.some.inj h
  · exact .rbusSetConf _
  · exact .rbusProcConf
  · exact .jsonInit _ ‹_›
  · exact .storeTempConf _ ‹_›
  · exact .schedResetStatus ‹_›

@[simp] lemma lastPath_nil : lastPath [] = none := rfl

@[simp] lemma lastPath_append (e : ConfEvent) : lastPath (log ++ [e]) =
    match e with
    | .setConf path => some path
    | _ => lastPath log := by
  simp [lastPath]

/-! ### Runs that keep the requests -/

lemma ServedBy.append (h : ServedBy log path) {e : ConfEvent} (he : e ≠ .procConf)
    (hstored : ∀ p, e = .stored p → p = path) : ServedBy (log ++ [e]) path := by
  obtain ⟨before, after, rfl, hproc, hlast, hsame⟩ := h
  refine ⟨before, after ++ [e], by simp, ?_, hlast, ?_⟩
  · simp [hproc, he.symm]
  · intro p hp
    rcases List.mem_append.mp hp with hp | hp
    · exact hsame p hp
    · exact hstored p (List.mem_singleton.mp hp).symm

lemma servedBy_opened (h : ∀ p ∈ lastPath log, path = p) :
    ServedBy (log ++ [.opened path]) path :=
  ⟨log, [], rfl, by simp, h, by simp⟩

/-- What holds in every run: the path is the last one set, cut off, and the loop only leaves its
sleep for a request. -/
structure LoopInv (s : MainLoop) : Prop where
  path : ∀ p ∈ lastPath s.log, s.confPath = p.take (dcmConfSize - 1)
  asked : s.pc ≠ .sleeping ∨ s.schedJob = true → .procConf ∈ s.log

/-- What holds when every step keeps the requests. -/
structure ServedInv (s : MainLoop) : Prop where
  sleeping : NoneLost s
  parsing : ∀ path, s.pc = .parsing path → ServedBy s.log path
  parsed : s.pc = .parsed → ∃ path, ServedBy s.log path

lemma LoopInv.step (h : LoopInv s) (hstep : LoopRule s a s') : LoopInv s' := by
  cases hstep with
  | rbusSetConf path =>
    cases path with
    | none => exact h
    | some path => exact ⟨by simp [rbusSetConf], fun hs => by simp [rbusSetConf, h.asked hs]⟩
  | rbusProcConf =>
    refine ⟨?_, by simp [rbusProcConf]⟩
    simpa [rbusProcConf] using h.path
  | idle => exact h
  | start hpc hjob => exact ⟨h.path, fun _ => h.asked (Or.inr hjob)⟩
  | jsonInit ok hpc =>
    refine ⟨?_, fun _ => by simp [h.asked (Or.inl (by simp [hpc]))]⟩
    simpa using h.path
  | storeTempConf path hpc =>
    refine ⟨?_, fun _ => by simp [h.asked (Or.inl (by simp [hpc]))]⟩
    simpa using h.path
  | schedResetStatus hpc => exact ⟨h.path, by simp⟩

lemma ServedInv.step (h : ServedInv s) (hinv : LoopInv s) (hguard : KeepsRequests s a)
    (hstep : LoopRule s a s') : ServedInv s' := by
  cases hstep with
  | rbusSetConf path =>
    cases path with
    | none => exact h
    | some path =>
      have happend {q} (hq : ServedBy s.log q) : ServedBy (s.log ++ [.setConf path]) q :=
        hq.append (by simp) (by simp)
      refine ⟨?_, fun q hpc => happend (h.parsing q hpc), fun hpc => ?_⟩
      · intro hpc hjob hproc
        obtain ⟨q, hq⟩ := h.sleeping hpc hjob (by simpa [rbusSetConf] using hproc)
        exact ⟨q, happend hq⟩
      · obtain ⟨q, hq⟩ := h.parsed hpc
        exact ⟨q, happend hq⟩
  | rbusProcConf =>
    refine ⟨?_, fun q hpc => ?_, fun hpc => ?_⟩
    · intro _ hjob
      cases hjob
    · replace hpc : s.pc = .parsing q := hpc
      simp [KeepsRequests, hpc] at hguard
    · replace hpc : s.pc = .parsed := hpc
      simp [KeepsRequests, hpc] at hguard
  | idle => exact h
  | start hpc => exact ⟨by simp [NoneLost], by simp, by simp⟩
  | jsonInit ok hpc =>
    have hserved : ServedBy (s.log ++ [.opened s.confPath]) s.confPath := by
      apply servedBy_opened
      intro p hp
      simp only [KeepsRequests, hpc] at hguard
      have hfits := hguard p hp
      rw [hinv.path p hp, List.take_of_length_le (by omega)]
    refine ⟨?_, fun q hq => ?_, fun _ => ⟨_, hserved⟩⟩
    · cases ok <;> simp [NoneLost]
    · cases ok with
      | false => simp at hq
      | true =>
        obtain rfl : s.confPath = q := by simpa using hq
        exact hserved
  | storeTempConf path hpc =>
    simp only [KeepsRequests, hpc] at hguard
    refine ⟨by simp [NoneLost], by simp, fun _ => ⟨path, ?_⟩⟩
    apply (h.parsing path hpc).append (by simp)
    intro p hp
    rw [← ConfEvent.stored.inj hp, hguard]
  | schedResetStatus hpc =>
    refine ⟨fun _ _ _ => h.parsed hpc, by simp, by simp⟩

lemma loopInv_init : LoopInv loopSystem.init := ⟨by simp [loopSystem], by simp [loopSystem]⟩

lemma servedInv_init : ServedInv loopSystem.init :=
  ⟨by simp [NoneLost, loopSystem], by simp [loopSystem], by simp [loopSystem]⟩

/-! ### Runs that lose a request -/

/-- Every parse has been followed by a request. -/
def Fresh (log : List ConfEvent) : Prop :=
  ∀ before path after, log = before ++ .opened path :: after → .procConf ∈ after

lemma Fresh.append (h : Fresh log) {e : ConfEvent} (he : ∀ path, e ≠ .opened path) :
    Fresh (log ++ [e]) := by
  intro before path after heq
  rcases List.eq_nil_or_concat after with rfl | ⟨after', e', rfl⟩
  · obtain ⟨-, h⟩ := List.append_inj' heq rfl
    exact absurd (List.singleton_inj.mp h) (he path)
  · rw [List.concat_eq_append, ← List.cons_append, ← List.append_assoc] at heq
    obtain ⟨hlog, -⟩ := List.append_inj' heq rfl
    simp [h before path after' hlog]

lemma fresh_procConf : Fresh (log ++ [.procConf]) := by
  intro before path after heq
  rcases List.eq_nil_or_concat after with rfl | ⟨after', e', rfl⟩
  · obtain ⟨-, h⟩ := List.append_inj' heq rfl
    simp at h
  · rw [List.concat_eq_append, ← List.cons_append, ← List.append_assoc] at heq
    obtain ⟨-, h⟩ := List.append_inj' heq rfl
    simp [List.singleton_inj.mp h]

/-- The parse of this path is the only one since a request. -/
def OnlyParse (log : List ConfEvent) (path : List Char) : Prop :=
  ∃ before after, log = before ++ .opened path :: after ∧ Fresh before ∧ ∀ p, .opened p ∉ after

lemma OnlyParse.append (h : OnlyParse log path) {e : ConfEvent} (he : ∀ p, e ≠ .opened p) :
    OnlyParse (log ++ [e]) path := by
  obtain ⟨before, after, rfl, hfresh, hno⟩ := h
  refine ⟨before, after ++ [e], by simp, hfresh, ?_⟩
  intro p hp
  rcases List.mem_append.mp hp with hp | hp
  · exact hno p hp
  · exact he p (List.mem_singleton.mp hp).symm

/-- What serves the last request is that parse. -/
lemma servedBy_only (hfresh : Fresh before) (hno : ∀ p, .opened p ∉ after)
    (h : ServedBy (before ++ .opened path :: after) q) :
    (∀ p ∈ lastPath before, path = p) ∧ ∀ p, .stored p ∈ after → p = path := by
  obtain ⟨before', after', heq, hproc, hlast, hsame⟩ := h
  rcases List.append_eq_append_iff.mp heq with ⟨x, rfl, hx⟩ | ⟨x, rfl, hx⟩
  · cases x with
    | nil =>
      obtain ⟨hpath, rfl⟩ := List.cons.inj hx
      obtain rfl := ConfEvent.opened.inj hpath
      exact ⟨by simpa using hlast, hsame⟩
    | cons e x =>
      obtain ⟨-, rfl⟩ := List.cons.inj hx
      exact absurd (by simp) (hno q)
  · cases x with
    | nil =>
      obtain ⟨hpath, rfl⟩ := List.cons.inj hx
      obtain rfl := ConfEvent.opened.inj hpath
      exact ⟨by simpa using hlast, hsame⟩
    | cons e x =>
      obtain ⟨rfl, rfl⟩ := List.cons.inj hx
      exact absurd (by simp [hfresh before' q x rfl]) hproc

/-- A request that no parse follows is not served. -/
lemma not_servedBy_procConf (hno : ∀ p, .opened p ∉ after) :
    ¬ServedBy (before ++ .procConf :: after) q := by
  rintro ⟨before', after', heq, hproc, -⟩
  rcases List.append_eq_append_iff.mp heq with ⟨x, rfl, hx⟩ | ⟨x, rfl, hx⟩
  · cases x with
    | nil => simp at hx
    | cons e x =>
      obtain ⟨-, rfl⟩ := List.cons.inj hx
      exact absurd (by simp) (hno q)
  · cases x with
    | nil => simp at hx
    | cons e x =>
      obtain ⟨-, rfl⟩ := List.cons.inj hx
      exact absurd (by simp) hproc

/-- In every run, a parse is the only one since a request. -/
structure FreshInv (s : MainLoop) : Prop where
  waiting : s.pc = .sleeping → s.schedJob = true → Fresh s.log
  starting : s.pc = .starting → Fresh s.log
  parsing : ∀ path, s.pc = .parsing path → OnlyParse s.log path

lemma FreshInv.append (h : FreshInv s) {e : ConfEvent} (he : ∀ p, e ≠ .opened p)
    {confPath : List Char} : FreshInv { s with confPath := confPath, log := s.log ++ [e] } :=
  ⟨fun hpc hjob => (h.waiting hpc hjob).append he, fun hpc => (h.starting hpc).append he,
    fun path hpc => (h.parsing path hpc).append he⟩

lemma FreshInv.step (h : FreshInv s) (hstep : LoopRule s a s') : FreshInv s' := by
  cases hstep with
  | rbusSetConf path =>
    cases path with
    | none => exact h
    | some path => exact h.append (by simp)
  | rbusProcConf =>
    refine ⟨fun _ _ => fresh_procConf, fun _ => fresh_procConf, fun path hpc => ?_⟩
    exact (h.parsing path hpc).append (by simp)
  | idle => exact h
  | start hpc hjob => exact ⟨by simp, fun _ => h.waiting hpc hjob, by simp⟩
  | jsonInit ok hpc =>
    refine ⟨by cases ok <;> simp, by cases ok <;> simp, fun path hpath => ?_⟩
    cases ok with
    | false => simp at hpath
    | true =>
      obtain rfl : s.confPath = path := by simpa using hpath
      exact ⟨s.log, [], rfl, h.starting hpc, by simp⟩
  | storeTempConf path hpc => exact ⟨by simp, by simp, by simp⟩
  | schedResetStatus hpc => exact ⟨by simp, by simp, by simp⟩

lemma freshInv_init : FreshInv loopSystem.init :=
  ⟨by simp [loopSystem], by simp [loopSystem], by simp [loopSystem]⟩

/-- After a step that does not keep the requests, the loop can go to sleep without having served
the last one. -/
lemma exists_lost (hinv : LoopInv s) (hfresh : FreshInv s) (hno : ¬KeepsRequests s a)
    (hstep : LoopRule s a s') :
    ∃ as s'', loopSystem.exec s' as = some s'' ∧ ¬NoneLost s'' := by
  cases hstep with
  | rbusProcConf =>
    cases hpc : s.pc with
    | parsing path =>
      refine ⟨[.storeTempConf, .schedResetStatus], ⟨false, s.confPath, .sleeping,
        s.log ++ .procConf :: [.stored s.confPath]⟩, ?_, ?_⟩
      · simp [loopSystem, rbusProcConf, loopStep, hpc]
      · intro h
        obtain ⟨q, hq⟩ := h rfl rfl (by simp)
        exact not_servedBy_procConf (by simp) hq
    | parsed =>
      refine ⟨[.schedResetStatus], ⟨false, s.confPath, .sleeping, s.log ++ [.procConf]⟩, ?_, ?_⟩
      · simp [loopSystem, rbusProcConf, loopStep, hpc]
      · intro h
        obtain ⟨q, hq⟩ := h rfl rfl (by simp)
        exact not_servedBy_procConf (by simp) hq
    | _ => simp [KeepsRequests, hpc] at hno
  | jsonInit ok hpc =>
    simp only [KeepsRequests, hpc, not_forall, not_lt] at hno
    obtain ⟨p, hp, hlen⟩ := hno
    have hcut : s.confPath ≠ p := by
      intro h
      have := congrArg List.length (h ▸ hinv.path p hp)
      simp only [List.length_take, dcmConfSize] at this hlen
      omega
    have hasked := hinv.asked (Or.inl (by simp [hpc]))
    have hlost {after : List ConfEvent} (hno : ∀ p, .opened p ∉ after) :
        ¬NoneLost ⟨false, s.confPath, .sleeping, s.log ++ .opened s.confPath :: after⟩ := by
      intro h
      obtain ⟨q, hq⟩ := h rfl rfl (by simp [hasked])
      exact hcut ((servedBy_only (hfresh.starting hpc) hno hq).1 p hp)
    cases ok with
    | false =>
      exact ⟨[.schedResetStatus], _, rfl, hlost (by simp)⟩
    | true =>
      refine ⟨[.storeTempConf, .schedResetStatus], ⟨false, s.confPath, .sleeping,
        s.log ++ .opened s.confPath :: [.stored s.confPath]⟩, ?_, hlost (by simp)⟩
      simp [loopSystem, loopStep]
  | storeTempConf path hpc =>
    simp only [KeepsRequests, hpc] at hno
    obtain ⟨before, after, hlog, hbefore, hafter⟩ := hfresh.parsing path hpc
    refine ⟨[.schedResetStatus], ⟨false, s.confPath, .sleeping,
      before ++ .opened path :: (after ++ [.stored s.confPath])⟩, ?_, ?_⟩
    · simp [loopSystem, loopStep, hlog]
    · intro h
      have hasked := hinv.asked (Or.inl (by simp [hpc]))
      obtain ⟨q, hq⟩ := h rfl rfl (by simpa [hlog] using hasked)
      have hsame := (servedBy_only hbefore (by simpa using hafter) hq).2
      exact hno (hsame s.confPath (by simp))
  | _ => simp_all [KeepsRequests]

/-! ### Every request -/

/-- **No lost request.** In every run whose steps keep the requests, the loop never sleeps without
a request before the last one has been served; and after a step that does not keep them some run
goes on to a request that is lost. -/
theorem none_lost (s : MainLoop) :
    (loopSystem.Reachable KeepsRequests s → NoneLost s) ∧
      ∀ a s', loopSystem.Reachable System.anyStep s → ¬KeepsRequests s a →
        loopStep s a = some s' → ∃ as s'', loopSystem.exec s' as = some s'' ∧ ¬NoneLost s'' := by
  constructor
  · intro hs
    have hinv : LoopInv s ∧ ServedInv s := by
      apply hs.invariant (P := fun s => LoopInv s ∧ ServedInv s) ⟨loopInv_init, servedInv_init⟩
      intro _ _ _ h hguard hstep
      have hrule := LoopRule.of_loopStep hstep
      exact ⟨h.1.step hrule, h.2.step h.1 hguard hrule⟩
    exact hinv.2.sleeping
  · intro a s' hs hno hstep
    have hinv : LoopInv s ∧ FreshInv s := by
      apply hs.invariant (P := fun s => LoopInv s ∧ FreshInv s) ⟨loopInv_init, freshInv_init⟩
      intro _ _ _ h _ hstep
      have hrule := LoopRule.of_loopStep hstep
      exact ⟨h.1.step hrule, h.2.step hrule⟩
    exact exists_lost hinv.1 hinv.2 hno (.of_loopStep hstep)

def confPathA : List Char := "/nvram/a.conf".toList

/-- A second request comes between the test of the first one and its parse. -/
theorem request_before_parse_served :
    ∃ s ∈ loopSystem.exec loopSystem.init
        [.rbusSetConf (some confPathA), .rbusProcConf, .schedJobStatus, .rbusProcConf,
          .jsonInit true, .storeTempConf, .schedResetStatus],
      s.pc = .sleeping ∧ s.schedJob = false ∧ ∃ path, ServedBy s.log path := by
  have hrun : ∃ s ∈ loopSystem.exec loopSystem.init
      [.rbusSetConf (some confPathA), .rbusProcConf, .schedJobStatus, .rbusProcConf,
        .jsonInit true, .storeTempConf, .schedResetStatus],
      s.pc = .sleeping ∧ s.schedJob = false ∧ .procConf ∈ s.log := by decide +kernel
  obtain ⟨s, hs, hpc, hjob, hproc⟩ := hrun
  have hkeeps : loopSystem.Respects KeepsRequests loopSystem.init
      [.rbusSetConf (some confPathA), .rbusProcConf, .schedJobStatus, .rbusProcConf,
        .jsonInit true, .storeTempConf, .schedResetStatus] := by decide +kernel
  exact ⟨s, hs, hpc, hjob, (none_lost s).1 (System.Reachable.init.of_exec hkeeps hs) hpc hjob hproc⟩

/-- A second request comes while the first one is processed, and the reset clears both. -/
theorem request_during_parse_lost :
    ∃ s ∈ loopSystem.exec loopSystem.init
        [.rbusSetConf (some confPathA), .rbusProcConf, .schedJobStatus, .jsonInit true,
          .rbusProcConf, .storeTempConf, .schedResetStatus], ¬NoneLost s := by
  refine ⟨⟨false, confPathA, .sleeping, [.setConf confPathA, .procConf, .opened confPathA] ++
    .procConf :: [.stored confPathA]⟩, by decide +kernel, ?_⟩
  intro h
  obtain ⟨q, hq⟩ := h rfl rfl (by simp)
  exact not_servedBy_procConf (by simp) hq

end DcmAgent.Daemon
