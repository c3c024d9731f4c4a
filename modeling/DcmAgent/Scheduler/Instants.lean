import Mathlib.Tactic
import DcmAgent.Scheduler.Thread
import DcmAgent.Cron.Sound

/-!
# An instant for every callback

After one start, each call of the callback takes the instant that the thread has waited for. The
search that finds it may give up after four years, and `-1` is then taken as the time to wait for;
or it may end at a midnight that does not match.
-/

namespace DcmAgent.Scheduler

open Library Cron

variable {s s' s₁ : DCMScheduler} {a : Action} {currentTime clock start : ℤ} {now : Timespec}
  {pDcmCB : Bool} {expr : DcmCronExpr} {fired : List Firing} {instants : List ℤ}

/-! ### Instants of the callbacks -/

/-- The instant is in the pattern, after the start and not after the call. -/
structure Takes (expr : DcmCronExpr) (start : ℤ) (t : ℤ) (f : Firing) : Prop where
  mtch : Matches expr t
  after : start < nsecPerSec * t
  before : nsecPerSec * t ≤ f.clock

/-- Each call of the callback can be given an instant of its own. -/
def OwnInstants (expr : DcmCronExpr) (start : ℤ) (fired : List Firing) : Prop :=
  ∃ instants : List ℤ, instants.Nodup ∧ List.Forall₂ (Takes expr start) instants fired

/-- The matching instants after the start, up to a time. -/
noncomputable def instantsUpTo (expr : DcmCronExpr) (start time : ℤ) : Finset ℤ :=
  (Finset.Ioc (start / nsecPerSec) (time / nsecPerSec)).filter (Matches expr)

lemma mem_instantsUpTo {t time : ℤ} : t ∈ instantsUpTo expr start time ↔
    Matches expr t ∧ start < nsecPerSec * t ∧ nsecPerSec * t ≤ time := by
  simp only [instantsUpTo, nsecPerSec, Finset.mem_filter, Finset.mem_Ioc]
  constructor
  · rintro ⟨⟨h₁, h₂⟩, hmatch⟩
    exact ⟨hmatch, by omega, by omega⟩
  · rintro ⟨hmatch, h₁, h₂⟩
    exact ⟨⟨by omega, by omega⟩, hmatch⟩

lemma instantsUpTo_start : instantsUpTo expr start start = ∅ := by
  rw [instantsUpTo, Finset.Ioc_self, Finset.filter_empty]

/-- The calls up to a time are no more than the instants up to it. -/
lemma OwnInstants.length_le (h : OwnInstants expr start fired) (time : ℤ) :
    (fired.filter fun f => f.clock ≤ time).length ≤ (instantsUpTo expr start time).card := by
  obtain ⟨instants, hnodup, htakes⟩ := h
  have hown : ∃ own : List ℤ, own.Sublist instants ∧
      own.length = (fired.filter fun f => f.clock ≤ time).length ∧
        ∀ t ∈ own, t ∈ instantsUpTo expr start time := by
    clear hnodup
    induction htakes with
    | nil => exact ⟨[], List.Sublist.refl _, rfl, by simp⟩
    | @cons t f instants fired htake _ ih =>
      obtain ⟨own, hsub, hlen, hmem⟩ := ih
      by_cases hf : f.clock ≤ time
      · have ht : t ∈ instantsUpTo expr start time :=
          mem_instantsUpTo.mpr ⟨htake.mtch, htake.after, htake.before.trans hf⟩
        exact ⟨t :: own, hsub.cons_cons t, by simp [hf, hlen], by simpa [ht] using hmem⟩
      · exact ⟨own, hsub.cons t, by simp [hf, hlen], hmem⟩
  obtain ⟨own, hsub, hlen, hmem⟩ := hown
  rw [← hlen, ← List.toFinset_card_of_nodup (hsub.nodup hnodup)]
  apply Finset.card_le_card
  intro t ht
  exact hmem t (List.mem_toFinset.mp ht)

/-! ### Runs after one start -/

/-- A start that is successful. -/
def Starts (s : DCMScheduler) (a : Action) : Prop :=
  match a with
  | .startJob (some pattern) => (dcmCronParseExp pattern s.parseData).1 = true
  | _ => False

instance (s : DCMScheduler) (a : Action) : Decidable (Starts s a) :=
  decidable_of_iff ((match a with
    | .startJob (some pattern) => (dcmCronParseExp pattern s.parseData).1
    | _ => false) = true) (by unfold Starts; split <;> simp)

def NoStart (s : DCMScheduler) (a : Action) : Prop := ¬Starts s a

instance (s : DCMScheduler) (a : Action) : Decidable (NoStart s a) :=
  inferInstanceAs (Decidable ¬_)

/-- The thread computes a deadline. -/
def Schedules (s : DCMScheduler) (a : Action) : Prop :=
  s.startSched = true ∧ s.terminated = false ∧
    (s.pc = .locking ∧ a = .lock ∨ s.pc = .condWait ∧ a = .waitReturns .zero)

instance (s : DCMScheduler) (a : Action) : Decidable (Schedules s a) := by
  unfold Schedules
  infer_instance

/-- A deadline is only computed when the search for it does not give up and no later day is a stale
stop. -/
def FindsInstant (s : DCMScheduler) (a : Action) : Prop :=
  Schedules s a → dcmCronParseGetNext s.parseData (s.clock / nsecPerSec) ≠ -1 ∧
    NoStale s.parseData (s.clock / nsecPerSec)

/-- The runs from the successful start of a job. -/
def startedSystem (s₁ : DCMScheduler) (pattern : List Char) : System DCMScheduler Action where
  init := (dcmSchedStartJob s₁ (some pattern)).2
  next := schedStep

/-- Nothing has been started yet, and the thread has not come to a timed wait. -/
structure Idle (s : DCMScheduler) : Prop where
  startSched : s.startSched = false
  waiting : ∀ ct now, s.pc ≠ .timedWait ct now
  fired : s.fired = []
  nonneg : 0 ≤ s.clock

lemma Idle.goto (h : Idle s) {pc : Pc} (hpc : ∀ ct now, pc ≠ .timedWait ct now) :
    Idle { s with pc := pc } :=
  ⟨h.startSched, hpc, h.fired, h.nonneg⟩

lemma Idle.schedule (h : Idle s) : Idle s.schedule := by
  unfold DCMScheduler.schedule
  split_ifs with hterm hstart
  · exact h.goto (by simp)
  · exact absurd (h.startSched.symm.trans hstart) (by simp)
  · exact h.goto (by simp)

lemma Idle.awaitStart (h : Idle s) : Idle s.awaitStart := by
  unfold DCMScheduler.awaitStart
  split_ifs
  · exact h.goto (by simp)
  · exact h.schedule

lemma Idle.step (h : Idle s) (hno : NoStart s a) (hstep : schedStep s a = some s') : Idle s' := by
  cases a with
  | lock =>
    simp only [schedStep] at hstep
    split_ifs at hstep <;> obtain rfl := Option.some.inj hstep
    · exact h.goto (by simp)
    · exact h.awaitStart
  | waitReturns n =>
    simp only [schedStep] at hstep
    split at hstep
    · split_ifs at hstep <;> obtain rfl := Option.some.inj hstep
      · exact h.awaitStart
      · exact h.goto (by simp)
    · rename_i ct now hpc
      exact absurd hpc (h.waiting ct now)
    · cases hstep
  | startJob pattern =>
    obtain rfl := Option.some.inj hstep
    cases pattern with
    | none => exact h
    | some pattern =>
      simp only [dcmSchedStartJob]
      split_ifs with hacc
      · exact absurd hacc hno
      · exact ⟨rfl, h.waiting, h.fired, h.nonneg⟩
  | stopJob =>
    obtain rfl := Option.some.inj hstep
    exact ⟨rfl, h.waiting, h.fired, h.nonneg⟩
  | removeJob =>
    obtain rfl := Option.some.inj hstep
    exact ⟨rfl, h.waiting, h.fired, h.nonneg⟩
  | tick d =>
    obtain rfl := Option.some.inj hstep
    exact ⟨h.startSched, h.waiting, h.fired, add_nonneg h.nonneg (Nat.cast_nonneg d)⟩

lemma idle_dcmSchedAddJob (hclock : 0 ≤ clock) : Idle (dcmSchedAddJob clock pDcmCB) :=
  ⟨rfl, by simp [dcmSchedAddJob], rfl, hclock⟩

/-! ### The invariant -/

/-- The calls have taken `instants`, and a pending deadline belongs to a later one. -/
structure InstantInv (expr : DcmCronExpr) (start : ℤ) (instants : List ℤ) (s : DCMScheduler) :
    Prop where
  data : s.startSched = true → s.parseData = expr
  nonneg : 0 ≤ start
  clock : start ≤ s.clock
  takes : List.Forall₂ (Takes expr start) instants s.fired
  sorted : instants.Pairwise (· < ·)
  passed : ∀ t ∈ instants, nsecPerSec * t ≤ s.clock
  pending : ∀ ct now, s.pc = .timedWait ct now → Matches expr now.tvSec ∧ 0 ≤ now.tvNsec ∧
    start < nsecPerSec * now.tvSec ∧ ∀ t ∈ instants, t < now.tvSec

lemma InstantInv.goto (h : InstantInv expr start instants s) {pc : Pc}
    (hpc : ∀ ct now, pc ≠ .timedWait ct now) :
    InstantInv expr start instants { s with pc := pc } :=
  ⟨h.data, h.nonneg, h.clock, h.takes, h.sorted, h.passed,
    fun ct now heq => absurd heq (hpc ct now)⟩

/-- The deadline belongs to the next firing. -/
lemma InstantInv.schedule (hwf : expr.WellFormed) (h : InstantInv expr start instants s)
    (hfinds : s.startSched = true → s.terminated = false →
      dcmCronParseGetNext s.parseData (s.clock / nsecPerSec) ≠ -1 ∧
        NoStale s.parseData (s.clock / nsecPerSec)) :
    InstantInv expr start instants s.schedule := by
  unfold DCMScheduler.schedule
  split_ifs with hterm hstart
  · exact h.goto (by simp)
  · have hdata := h.data hstart
    obtain ⟨hne, hstale⟩ := hfinds hstart (by simpa using hterm)
    rw [hdata] at hne hstale
    have hclock := h.clock
    have hnonneg := h.nonneg
    simp only [nsecPerSec] at hne hstale
    obtain ⟨hlater, hmatch⟩ := soundAt_of_noStale hwf (by omega) hstale hne
    refine ⟨h.data, hnonneg, hclock, h.takes, h.sorted, h.passed, ?_⟩
    intro ct now heq
    obtain ⟨-, rfl⟩ := Pc.timedWait.inj heq
    simp only [clockGettime, nsecPerSec, hdata, add_sub_cancel]
    refine ⟨hmatch, by omega, by omega, ?_⟩
    intro t ht
    have := h.passed t ht
    simp only [nsecPerSec] at this
    omega
  · exact h.goto (by simp)

lemma InstantInv.awaitStart (hwf : expr.WellFormed) (h : InstantInv expr start instants s)
    (hfinds : s.startSched = true → s.terminated = false →
      dcmCronParseGetNext s.parseData (s.clock / nsecPerSec) ≠ -1 ∧
        NoStale s.parseData (s.clock / nsecPerSec)) :
    InstantInv expr start instants s.awaitStart := by
  unfold DCMScheduler.awaitStart
  split_ifs
  · exact h.goto (by simp)
  · exact h.schedule hwf hfinds

/-- A call takes the instant of the deadline. -/
lemma InstantInv.afterWait (h : InstantInv expr start instants s) {n : WaitResult}
    (hpc : s.pc = .timedWait currentTime now) (hpassed : n = .etimedout → now.toNsec ≤ s.clock) :
    ∃ instants', InstantInv expr start instants' (s.afterWait n currentTime now) := by
  unfold DCMScheduler.afterWait
  split_ifs with hterm hn
  · exact ⟨instants, h.goto (by simp)⟩
  · unfold DCMScheduler.callback
    split_ifs with hcb
    · obtain ⟨hmatch, hnsec, hafter, hlater⟩ := h.pending _ _ hpc
      have hbefore : nsecPerSec * now.tvSec ≤ s.clock := by
        have := hpassed hn
        simp only [Timespec.toNsec] at this
        omega
      refine ⟨instants ++ [now.tvSec], h.data, h.nonneg, h.clock, ?_, ?_, ?_, by simp⟩
      · exact List.rel_append h.takes (.cons ⟨hmatch, hafter, hbefore⟩ .nil)
      · rw [List.pairwise_append]
        exact ⟨h.sorted, List.pairwise_singleton _ _, by simpa using hlater⟩
      · intro t ht
        rcases List.mem_append.mp ht with ht | ht
        · exact h.passed t ht
        · obtain rfl := List.mem_singleton.mp ht
          exact hbefore
    · exact ⟨instants, h.goto (by simp)⟩
  · exact ⟨instants, h.goto (by simp)⟩

/-- One step keeps the invariant, with another instant if it calls the callback. -/
lemma InstantInv.step (hwf : expr.WellFormed) (h : InstantInv expr start instants s)
    (hno : NoStart s a) (hfinds : FindsInstant s a) (hstep : schedStep s a = some s') :
    ∃ instants', InstantInv expr start instants' s' := by
  cases a with
  | lock =>
    simp only [schedStep] at hstep
    split_ifs at hstep with hpc <;> obtain rfl := Option.some.inj hstep
    · exact ⟨instants, h.goto (by simp)⟩
    · refine ⟨instants, h.awaitStart hwf ?_⟩
      intro hstart hterm
      exact hfinds ⟨hstart, hterm, Or.inl ⟨hpc, rfl⟩⟩
  | waitReturns n =>
    simp only [schedStep] at hstep
    split at hstep
    · rename_i hpc
      split_ifs at hstep with hn <;> obtain rfl := Option.some.inj hstep
      · refine ⟨instants, h.awaitStart hwf ?_⟩
        intro hstart hterm
        exact hfinds ⟨hstart, hterm, Or.inr ⟨hpc, by rw [hn]⟩⟩
      · exact ⟨instants, h.goto (by simp)⟩
    · rename_i ct now hpc
      cases n with
      | zero =>
        simp only [DCMScheduler.timedWaitReturns] at hstep
        split_ifs at hstep <;> obtain rfl := Option.some.inj hstep
        · rw [← hpc]
          exact ⟨instants, h⟩
        · exact h.afterWait hpc (by simp)
      | etimedout =>
        simp only [DCMScheduler.timedWaitReturns] at hstep
        split_ifs at hstep with hpassed
        obtain rfl := Option.some.inj hstep
        exact h.afterWait hpc fun _ => hpassed
      | error =>
        obtain rfl := Option.some.inj hstep
        exact ⟨instants, h.goto (by simp)⟩
    · cases hstep
  | startJob pattern =>
    obtain rfl := Option.some.inj hstep
    refine ⟨instants, ?_⟩
    cases pattern with
    | none => exact h
    | some pattern =>
      simp only [dcmSchedStartJob]
      split_ifs with hacc
      · exact absurd hacc hno
      · exact ⟨by simp, h.nonneg, h.clock, h.takes, h.sorted, h.passed, h.pending⟩
  | stopJob =>
    obtain rfl := Option.some.inj hstep
    exact ⟨instants, by simp [dcmSchedStopJob], h.nonneg, h.clock, h.takes, h.sorted, h.passed,
      h.pending⟩
  | removeJob =>
    obtain rfl := Option.some.inj hstep
    exact ⟨instants, by simp [dcmSchedRemoveJob], h.nonneg, h.clock, h.takes, h.sorted, h.passed,
      h.pending⟩
  | tick d =>
    obtain rfl := Option.some.inj hstep
    have hclock := h.clock
    refine ⟨instants, h.data, h.nonneg, by dsimp only; omega, h.takes, h.sorted, ?_, h.pending⟩
    intro t ht
    have := h.passed t ht
    dsimp only
    omega

lemma instantInv_init (hidle : Idle s) {pattern : List Char}
    (hacc : (dcmCronParseExp pattern s.parseData).1 = true) :
    InstantInv (dcmCronParseExp pattern s.parseData).2 s.clock []
      (dcmSchedStartJob s (some pattern)).2 := by
  simp only [dcmSchedStartJob, hacc, if_true]
  refine ⟨fun _ => rfl, hidle.nonneg, le_rfl, ?_, List.Pairwise.nil, by simp, ?_⟩
  · simp [hidle.fired]
  · intro ct now hpc
    exact absurd hpc (hidle.waiting ct now)

/-- **An instant for every callback.** In every run after one successful start, in which no deadline
is computed from a search that gives up or that a stale stop may end, each call of the callback has
a matching instant of its own, after the start and not after the call; so the calls up to a time are
no more than the instants up to it. -/
theorem own_instants (hclock : 0 ≤ clock)
    (hs₁ : (schedSystem clock pDcmCB).Reachable NoStart s₁) {pattern : List Char}
    (hacc : (dcmCronParseExp pattern s₁.parseData).1 = true)
    (hs : (startedSystem s₁ pattern).Reachable (fun s a => NoStart s a ∧ FindsInstant s a) s) :
    OwnInstants (dcmCronParseExp pattern s₁.parseData).2 s₁.clock s.fired ∧
      ∀ time, (s.fired.filter fun f => f.clock ≤ time).length ≤
        (instantsUpTo (dcmCronParseExp pattern s₁.parseData).2 s₁.clock time).card := by
  have hidle : Idle s₁ := hs₁.invariant (idle_dcmSchedAddJob hclock)
    fun _ _ _ h hno hstep => h.step hno hstep
  have hinv : ∃ instants,
      InstantInv (dcmCronParseExp pattern s₁.parseData).2 s₁.clock instants s := by
    refine hs.invariant (P := fun s => ∃ instants, InstantInv _ s₁.clock instants s)
      ⟨[], instantInv_init hidle hacc⟩ ?_
    rintro s a s' ⟨instants, h⟩ ⟨hno, hfinds⟩ hstep
    exact h.step (wellFormed_of_accepted hacc) hno hfinds hstep
  obtain ⟨instants, hinv⟩ := hinv
  have hown : OwnInstants (dcmCronParseExp pattern s₁.parseData).2 s₁.clock s.fired :=
    ⟨instants, hinv.sorted.imp ne_of_lt, hinv.takes⟩
  exact ⟨hown, hown.length_le⟩

/-- Two quarters of an hour. -/
theorem instant_of_each_quarter :
    ∃ s ∈ (startedSystem (dcmSchedAddJob 0 true) "*/15 * * * *".toList).exec
        (startedSystem (dcmSchedAddJob 0 true) "*/15 * * * *".toList).init
        [.lock, .tick 900000000000, .waitReturns .etimedout, .lock, .tick 900000000000,
          .waitReturns .etimedout],
      s.fired.length = 2 ∧ OwnInstants quarters 0 s.fired ∧
        ∀ time, (s.fired.filter fun f => f.clock ≤ time).length ≤
          (instantsUpTo quarters 0 time).card := by
  have hrun : ∃ s ∈ (startedSystem (dcmSchedAddJob 0 true) "*/15 * * * *".toList).exec
      (startedSystem (dcmSchedAddJob 0 true) "*/15 * * * *".toList).init
      [.lock, .tick 900000000000, .waitReturns .etimedout, .lock, .tick 900000000000,
        .waitReturns .etimedout], s.fired.length = 2 := by decide +kernel
  have hquarters : (startedSystem (dcmSchedAddJob 0 true) "*/15 * * * *".toList).Respects
      (fun s a => NoStart s a ∧ (Schedules s a → s.parseData = quarters ∧
        dcmCronParseGetNext s.parseData (s.clock / nsecPerSec) ≠ -1))
      (startedSystem (dcmSchedAddJob 0 true) "*/15 * * * *".toList).init
      [.lock, .tick 900000000000, .waitReturns .etimedout, .lock, .tick 900000000000,
        .waitReturns .etimedout] := by decide +kernel
  have hfinds : ∀ s a, (NoStart s a ∧ (Schedules s a → s.parseData = quarters ∧
      dcmCronParseGetNext s.parseData (s.clock / nsecPerSec) ≠ -1)) →
        NoStart s a ∧ FindsInstant s a := by
    rintro s a ⟨hno, hfinds⟩
    refine ⟨hno, ?_⟩
    intro hsched
    obtain ⟨hdata, hne⟩ := hfinds hsched
    refine ⟨hne, ?_⟩
    intro z _ hstale
    rw [hdata] at hstale
    exact hstale.1 (nextDay_eq_self_iff.mpr (dayIn_quarters z))
  obtain ⟨s, hs, hlen⟩ := hrun
  exact ⟨s, hs, hlen, @own_instants _ _ 0 true le_rfl System.Reachable.init _
    (by decide +kernel) (System.Reachable.init.of_exec (hquarters.mono hfinds) hs)⟩

/-- No day from 2023-02-15 to 2023-05-14 is the fifteenth and a Monday. -/
lemma not_dayIn_fifteenth : ∀ z ∈ Finset.Icc (19403 : ℤ) 19491,
    ¬DayIn (dcmCronParseExp "0 5 15 * 1".toList .zero).2 z := by
  decide +kernel

/-- The thirtieth of February: the search gives up, and the callback is called at once. And
five o'clock on the fifteenth, if it is a Monday: the callback is called at midnight. -/
theorem callback_without_instant :
    (∃ s ∈ (startedSystem (dcmSchedAddJob 0 true) "0 0 30 2 *".toList).exec
        (startedSystem (dcmSchedAddJob 0 true) "0 0 30 2 *".toList).init
        [.lock, .waitReturns .etimedout],
      s.fired.length = 1 ∧
        ¬OwnInstants (dcmCronParseExp "0 0 30 2 *".toList .zero).2 0 s.fired) ∧
      ∃ s ∈ (startedSystem (dcmSchedAddJob 1676437200000000000 true) "0 5 15 * 1".toList).exec
          (startedSystem (dcmSchedAddJob 1676437200000000000 true) "0 5 15 * 1".toList).init
          [.lock, .tick 7671600000000000, .waitReturns .etimedout],
        s.fired.length = 1 ∧
          ¬OwnInstants (dcmCronParseExp "0 5 15 * 1".toList .zero).2 1676437200000000000
            s.fired := by
  constructor
  · have hrun : ∃ s ∈ (startedSystem (dcmSchedAddJob 0 true) "0 0 30 2 *".toList).exec
        (startedSystem (dcmSchedAddJob 0 true) "0 0 30 2 *".toList).init
        [.lock, .waitReturns .etimedout],
        s.fired.length = 1 ∧ (s.fired.filter fun f => f.clock ≤ 0).length = 1 := by decide +kernel
    obtain ⟨s, hs, hlen, hfilter⟩ := hrun
    refine ⟨s, hs, hlen, ?_⟩
    intro hown
    have hle := hown.length_le 0
    rw [hfilter, instantsUpTo_start] at hle
    exact absurd hle (by norm_num)
  · have hrun : ∃ s ∈ (startedSystem (dcmSchedAddJob 1676437200000000000 true)
        "0 5 15 * 1".toList).exec
          (startedSystem (dcmSchedAddJob 1676437200000000000 true) "0 5 15 * 1".toList).init
          [.lock, .tick 7671600000000000, .waitReturns .etimedout],
        s.fired.length = 1 ∧
          (s.fired.filter fun f => f.clock ≤ 1684108800000000000).length = 1 := by decide +kernel
    have hhour : ¬InSet (dcmCronParseExp "0 5 15 * 1".toList .zero).2.hours
        (gmtime 1684108800).hour := by decide +kernel
    have hday := not_dayIn_fifteenth
    obtain ⟨s, hs, hlen, hfilter⟩ := hrun
    refine ⟨s, hs, hlen, ?_⟩
    generalize (dcmCronParseExp "0 5 15 * 1".toList .zero).2 = expr at hhour hday ⊢
    intro hown
    have hle := hown.length_le 1684108800000000000
    rw [hfilter, Nat.one_le_iff_ne_zero, Finset.card_ne_zero] at hle
    obtain ⟨t, ht⟩ := hle
    obtain ⟨hmatch, hafter, hbefore⟩ := mem_instantsUpTo.mp ht
    simp only [nsecPerSec] at hafter hbefore
    by_cases hend : t = 1684108800
    · exact hhour (hend ▸ hmatch.hour)
    · exact hday (t / 86400) (Finset.mem_Icc.mpr (by omega)) (matches_iff.mp hmatch).2.1

end DcmAgent.Scheduler
