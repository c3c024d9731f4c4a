import Mathlib.Tactic
import DcmAgent.Library.Directory
import DcmAgent.Library.System

/-!
# Waiting for a sentinel

`wait_for_sentinel` looks for a file, puts a watch on its directory, looks again, and then reads
the events of the watch until a deadline. Files appear and vanish in between; the notification of a
file comes some time after the file, and a full queue drops it.
-/

namespace DcmAgent.Reboot.Sentinel

open Library

abbrev Name := List Char

/-- Where the waiter is. -/
inductive Pc where
  | start
  /-- The first look has found nothing. -/
  | absent
  | initialised
  /-- The watch is set. -/
  | watched
  | rechecked
  /-- At the head of the loop. -/
  | loop
  | selecting
  | readable
  /-- A call to set up the watch has failed; returns -1. -/
  | failed
  /-- Returns -1. -/
  | gaveUp
  /-- Returns 0. -/
  | found
  deriving DecidableEq, Repr

def Pc.watching : Pc → Bool
  | .watched | .rechecked | .loop | .selecting | .readable => true
  | _ => false

def Pc.returned : Pc → Bool
  | .failed | .gaveUp | .found => true
  | _ => false

/-- The files of the directory, those whose notification is still to come, and the queue of the
watch, in which an event without a name is an overflow. `dropped` tells whether an event of the
sentinel has been dropped. -/
structure State where
  pc : Pc
  files : List Name
  inFlight : List Name
  queue : List (Option Name)
  dropped : Bool
  deriving DecidableEq, Repr

/-- What becomes of an event: a queue that ends with the same event keeps one of them. -/
inductive Delivery where
  | queued
  | merged
  | dropped
  deriving DecidableEq, Repr

inductive Selected where
  | ready
  | interrupted
  | nothing
  | error
  deriving DecidableEq, Repr

/-- The steps of the directory, and those of the waiter with what its calls return. -/
inductive Action where
  /-- The file is created or renamed into the directory. -/
  | appear (n : Name)
  | vanish (n : Name)
  | notify (n : Name) (delivery : Delivery)
  | access
  | inotifyInit (ok : Bool)
  | addWatch (ok : Bool)
  | recheck
  | setDeadline (ok : Bool)
  | checkDeadline (passed : Bool)
  | select (selected : Selected)
  /-- As many events are read; none if the call fails. -/
  | read (events : ℕ)
  deriving DecidableEq, Repr

variable (sentinel : Name)

/-- The event of a file reaches the watch. -/
def State.deliver (s : State) (n : Name) : Delivery → Option State
  | .queued => some { s with queue := s.queue ++ [some n] }
  | .merged => if s.queue.getLast? = some (some n) then some s else none
  | .dropped => some {
      s with
      queue := if s.queue.getLast? = some none then s.queue else s.queue ++ [none]
      dropped := s.dropped || n = sentinel }

/-- `access`, at one of the two places. -/
def State.look (s : State) (otherwise : Pc) : State :=
  { s with pc := if sentinel ∈ s.files then .found else otherwise }

/-- The events that have been read. -/
def State.scan (s : State) (events : ℕ) : State :=
  { s with
    pc := if some sentinel ∈ s.queue.take events then .found else .loop
    queue := s.queue.drop events }

/-- The sentinel does not vanish, and nothing is of interest once the function has returned. -/
def next (s : State) (a : Action) : Option State :=
  if s.pc.returned then none
  else
    match a, s.pc with
    | .appear n, _ => some { s with files := n :: s.files, inFlight := s.inFlight ++ [n] }
    | .vanish n, _ =>
      if n = sentinel then none else some { s with files := s.files.filter (· ≠ n) }
    | .notify n delivery, _ =>
      if n ∈ s.inFlight then
        let s := { s with inFlight := s.inFlight.erase n }
        if s.pc.watching then s.deliver sentinel n delivery else some s
      else none
    | .access, .start => some (s.look sentinel .absent)
    | .inotifyInit ok, .absent => some { s with pc := if ok then .initialised else .failed }
    | .addWatch ok, .initialised => some { s with pc := if ok then .watched else .failed }
    | .recheck, .watched => some (s.look sentinel .rechecked)
    | .setDeadline ok, .rechecked => some { s with pc := if ok then .loop else .gaveUp }
    | .checkDeadline passed, .loop => some { s with pc := if passed then .gaveUp else .selecting }
    | .select .ready, .selecting => some { s with pc := .readable }
    | .select .interrupted, .selecting => some { s with pc := .loop }
    | .select .nothing, .selecting => if s.queue = [] then some { s with pc := .loop } else none
    | .select .error, .selecting => some { s with pc := .gaveUp }
    | .read events, .readable =>
      if s.queue.length < events then none else some (s.scan sentinel events)
    | _, _ => none

/-- The waiter and the directory, from the call on. -/
def system (files : List Name) : System State Action where
  init := ⟨.start, files, [], [], false⟩
  next := next sentinel

/-! ### The law -/

/-- It gives up only without the sentinel, and it finds only the sentinel. -/
structure Sound (s : State) : Prop where
  gaveUp : s.pc = .gaveUp → sentinel ∉ s.files
  found : s.pc = .found → sentinel ∈ s.files

/-- The event of the sentinel is on its way to the waiter, or it has been dropped. -/
def Pending (s : State) : Prop :=
  sentinel ∈ s.inFlight ∨ some sentinel ∈ s.queue ∨ s.dropped = true

/-- The step leaves the loop without the sentinel. -/
def Action.GivesUp (a : Action) : Prop :=
  a = .setDeadline false ∨ a = .checkDeadline true ∨ a = .select .error

/-- The waiter does not give up while the event of the sentinel is pending. -/
def Awaits (s : State) (a : Action) : Prop := a.GivesUp → ¬Pending sentinel s

instance (s : State) : Decidable (Pending sentinel s) := by
  unfold Pending; infer_instance

instance (a : Action) : Decidable a.GivesUp := by
  unfold Action.GivesUp; infer_instance

instance (s : State) (a : Action) : Decidable (Awaits sentinel s a) := by
  unfold Awaits; infer_instance

/-- Behind the second look. -/
def Pc.waits : Pc → Bool
  | .rechecked | .loop | .selecting | .readable => true
  | _ => false

/-- Every event has its file, and behind the second look every sentinel has its event. -/
structure Inv (s : State) : Prop where
  named : Pending sentinel s → sentinel ∈ s.files
  covered : s.pc.waits = true → sentinel ∈ s.files → Pending sentinel s

variable {sentinel} {s s' : State} {a : Action} {n : Name}

lemma Inv.init (files : List Name) : Inv sentinel (system sentinel files).init := by
  refine ⟨?_, fun h => absurd h (by simp [system, Pc.waits])⟩
  rintro (h | h | h) <;> cases h

lemma not_returned_of_next (h : next sentinel s a = some s') : s.pc.returned = false := by
  by_contra hpc
  unfold next at h
  rw [if_pos (by simpa using hpc)] at h
  cases h

/-! ### The directory -/

lemma Inv.appear (h : Inv sentinel s) (n : Name) :
    Inv sentinel { s with files := n :: s.files, inFlight := s.inFlight ++ [n] } := by
  refine ⟨?_, fun hpc hmem => ?_⟩
  · rintro (hmem | hmem | hmem)
    · rcases List.mem_append.mp hmem with hmem | hmem
      · exact List.mem_cons_of_mem _ (h.named (.inl hmem))
      · exact List.mem_cons.mpr (.inl (List.mem_singleton.mp hmem))
    · exact List.mem_cons_of_mem _ (h.named (.inr (.inl hmem)))
    · exact List.mem_cons_of_mem _ (h.named (.inr (.inr hmem)))
  · rcases List.mem_cons.mp hmem with rfl | hmem
    · exact .inl (List.mem_append_right _ (List.mem_singleton_self _))
    · rcases h.covered hpc hmem with hmem | hmem
      · exact .inl (List.mem_append_left _ hmem)
      · exact .inr hmem

lemma Inv.vanish (h : Inv sentinel s) (hn : n ≠ sentinel) :
    Inv sentinel { s with files := s.files.filter (· ≠ n) } := by
  have hfiles : sentinel ∈ s.files.filter (· ≠ n) ↔ sentinel ∈ s.files := by
    simp [List.mem_filter, Ne.symm hn]
  exact ⟨fun hp => hfiles.mpr (h.named hp), fun hpc hmem => h.covered hpc (hfiles.mp hmem)⟩

/-- A notification without a watch is lost, when the second look is still to come. -/
lemma Inv.unwatched (h : Inv sentinel s) (hpc : s.pc.watching = false) (n : Name) :
    Inv sentinel { s with inFlight := s.inFlight.erase n } := by
  refine ⟨?_, fun hwaits => ?_⟩
  · rintro (hmem | hmem)
    · exact h.named (.inl (List.mem_of_mem_erase hmem))
    · exact h.named (.inr hmem)
  · cases hs : s.pc <;> simp [hs, Pc.watching, Pc.waits] at hpc hwaits

/-- A notification that is delivered is pending as before. -/
lemma Inv.deliver (h : Inv sentinel s) (hn : n ∈ s.inFlight) {delivery : Delivery}
    (hdeliver : State.deliver sentinel { s with inFlight := s.inFlight.erase n } n delivery =
      some s') : Inv sentinel s' ∧ s'.pc = s.pc := by
  have hkept (hmem : sentinel ∈ s.inFlight) : sentinel ∈ s.inFlight.erase n ∨ n = sentinel := by
    by_cases heq : n = sentinel
    · exact .inr heq
    · exact .inl ((List.mem_erase_of_ne (Ne.symm heq)).mpr hmem)
  have hfile (heq : n = sentinel) : sentinel ∈ s.files := h.named (.inl (heq ▸ hn))
  cases delivery with
  | queued =>
    obtain rfl := Option.some.inj hdeliver
    refine ⟨⟨?_, fun hpc hmem => ?_⟩, rfl⟩
    · rintro (hmem | hmem | hmem)
      · exact h.named (.inl (List.mem_of_mem_erase hmem))
      · rcases List.mem_append.mp hmem with hmem | hmem
        · exact h.named (.inr (.inl hmem))
        · exact hfile (Option.some.inj (List.mem_singleton.mp hmem)).symm
      · exact h.named (.inr (.inr hmem))
    · rcases h.covered hpc hmem with hmem | hmem | hmem
      · rcases hkept hmem with hmem | rfl
        · exact .inl hmem
        · exact .inr (.inl (List.mem_append_right _ (List.mem_singleton_self _)))
      · exact .inr (.inl (List.mem_append_left _ hmem))
      · exact .inr (.inr hmem)
  | merged =>
    rw [State.deliver] at hdeliver
    split_ifs at hdeliver with hlast
    obtain rfl := Option.some.inj hdeliver
    refine ⟨⟨?_, fun hpc hmem => ?_⟩, rfl⟩
    · rintro (hmem | hmem)
      · exact h.named (.inl (List.mem_of_mem_erase hmem))
      · exact h.named (.inr hmem)
    · rcases h.covered hpc hmem with hmem | hmem
      · rcases hkept hmem with hmem | rfl
        · exact .inl hmem
        · exact .inr (.inl (List.mem_of_getLast? hlast))
      · exact .inr hmem
  | dropped =>
    obtain rfl := Option.some.inj hdeliver
    have hqueue : some sentinel ∈ (if s.queue.getLast? = some none then s.queue
        else s.queue ++ [none]) ↔ some sentinel ∈ s.queue := by
      split_ifs <;> simp
    refine ⟨⟨?_, fun hpc hmem => ?_⟩, rfl⟩
    · rintro (hmem | hmem | hmem)
      · exact h.named (.inl (List.mem_of_mem_erase hmem))
      · exact h.named (.inr (.inl (hqueue.mp hmem)))
      · rcases (Bool.or_eq_true _ _).mp hmem with hmem | hmem
        · exact h.named (.inr (.inr hmem))
        · exact hfile (of_decide_eq_true hmem)
    · rcases h.covered hpc hmem with hmem | hmem | hmem
      · rcases hkept hmem with hmem | heq
        · exact .inl hmem
        · exact .inr (.inr ((Bool.or_eq_true _ _).mpr (.inr (decide_eq_true heq))))
      · exact .inr (.inl (hqueue.mpr hmem))
      · exact .inr (.inr ((Bool.or_eq_true _ _).mpr (.inl hmem)))

/-! ### The waiter -/

/-- A step that is not behind the second look keeps the invariant. -/
lemma Inv.move (h : Inv sentinel s) {pc : Pc} (hpc : pc.waits = true → s.pc.waits = true) :
    Inv sentinel { s with pc := pc } :=
  ⟨h.named, fun hwaits hmem => h.covered (hpc hwaits) hmem⟩

/-- Behind a look that has found nothing there is no sentinel. -/
lemma Inv.look (h : Inv sentinel s) (otherwise : Pc) :
    Inv sentinel (s.look sentinel otherwise) := by
  refine ⟨h.named, fun hwaits hmem => ?_⟩
  rw [State.look] at hwaits hmem
  rw [if_pos hmem] at hwaits
  cases hwaits

/-- Events that are read without the sentinel leave its event behind. -/
lemma Inv.scan (h : Inv sentinel s) (hpc : s.pc.waits = true) (events : ℕ) :
    Inv sentinel (s.scan sentinel events) := by
  refine ⟨?_, fun hwaits hmem => ?_⟩
  · rintro (hmem | hmem | hmem)
    · exact h.named (.inl hmem)
    · exact h.named (.inr (.inl (List.mem_of_mem_drop hmem)))
    · exact h.named (.inr (.inr hmem))
  · have hnot : some sentinel ∉ s.queue.take events := by
      intro htake
      rw [State.scan] at hwaits
      rw [if_pos htake] at hwaits
      cases hwaits
    rcases h.covered hpc hmem with hmem | hmem | hmem
    · exact .inl hmem
    · rw [← List.take_append_drop events s.queue, List.mem_append] at hmem
      exact .inr (.inl (hmem.resolve_left hnot))
    · exact .inr (.inr hmem)

lemma sound_of_not_returned (h : s.pc.returned = false) : Sound sentinel s := by
  constructor <;> intro hpc <;> rw [hpc] at h <;> cases h

lemma sound_failed : Sound sentinel { s with pc := .failed } := by
  constructor <;> intro hpc <;> cases hpc

lemma sound_look {otherwise : Pc} (h : otherwise.returned = false) :
    Sound sentinel (s.look sentinel otherwise) := by
  by_cases hmem : sentinel ∈ s.files
  · refine ⟨fun hpc => ?_, fun _ => hmem⟩
    rw [State.look, if_pos hmem] at hpc
    cases hpc
  · refine sound_of_not_returned ?_
    rw [State.look, if_neg hmem]
    exact h

lemma Inv.sound_scan (h : Inv sentinel s) (events : ℕ) :
    Sound sentinel (s.scan sentinel events) := by
  by_cases hmem : some sentinel ∈ s.queue.take events
  · refine ⟨fun hpc => ?_, fun _ => h.named (.inr (.inl (List.mem_of_mem_take hmem)))⟩
    rw [State.scan, if_pos hmem] at hpc
    cases hpc
  · refine sound_of_not_returned ?_
    rw [State.scan, if_neg hmem]
    rfl

/-- Behind the second look, giving up is right exactly if no event is pending. -/
lemma Inv.sound_gaveUp (h : Inv sentinel s) (hpc : s.pc.waits = true) :
    Sound sentinel { s with pc := .gaveUp } ↔ ¬Pending sentinel s := by
  constructor
  · intro hsound hpending
    exact hsound.gaveUp rfl (h.named hpending)
  · intro hno
    exact ⟨fun _ hmem => hno (h.covered hpc hmem), fun hpc => by cases hpc⟩

/-! ### Steps -/

/-- A step that does not give up is right. -/
lemma iff_of_not_givesUp (hsound : Sound sentinel s') (ha : ¬a.GivesUp) :
    Sound sentinel s' ↔ Awaits sentinel s a :=
  iff_of_true hsound fun hgives => absurd hgives ha

lemma iff_of_givesUp (h : Inv sentinel s) (hpc : s.pc.waits = true) (ha : a.GivesUp) :
    Sound sentinel { s with pc := .gaveUp } ↔ Awaits sentinel s a :=
  ⟨fun hsound _ => (h.sound_gaveUp hpc).mp hsound,
    fun hawaits => (h.sound_gaveUp hpc).mpr (hawaits ha)⟩

/-- What a step keeps, and when it is right. -/
lemma Inv.next (h : Inv sentinel s) (hnext : next sentinel s a = some s') :
    Inv sentinel s' ∧ (Sound sentinel s' ↔ Awaits sentinel s a) := by
  have hrun := not_returned_of_next hnext
  have hquiet (hpc : s'.pc = s.pc) : Sound sentinel s' := sound_of_not_returned (hpc ▸ hrun)
  unfold Sentinel.next at hnext
  rw [if_neg (by simp [hrun])] at hnext
  split at hnext
  case h_1 n => -- appear
    obtain rfl := Option.some.inj hnext
    exact ⟨h.appear n, iff_of_not_givesUp (hquiet rfl) (by simp [Action.GivesUp])⟩
  case h_2 n => -- vanish
    split_ifs at hnext with hn
    obtain rfl := Option.some.inj hnext
    exact ⟨h.vanish hn, iff_of_not_givesUp (hquiet rfl) (by simp [Action.GivesUp])⟩
  case h_3 n delivery => -- notify
    dsimp only at hnext
    split_ifs at hnext with hn hwatch
    · obtain ⟨hinv, hpc⟩ := h.deliver hn hnext
      exact ⟨hinv, iff_of_not_givesUp (hquiet hpc) (by simp [Action.GivesUp])⟩
    · obtain rfl := Option.some.inj hnext
      exact ⟨h.unwatched (Bool.eq_false_iff.mpr hwatch) n,
        iff_of_not_givesUp (hquiet rfl) (by simp [Action.GivesUp])⟩
  case h_4 => -- access
    obtain rfl := Option.some.inj hnext
    exact ⟨h.look _, iff_of_not_givesUp (sound_look rfl) (by simp [Action.GivesUp])⟩
  case h_5 ok _ => -- inotifyInit
    obtain rfl := Option.some.inj hnext
    refine ⟨h.move (by cases ok <;> simp [Pc.waits]),
      iff_of_not_givesUp ?_ (by simp [Action.GivesUp])⟩
    cases ok
    · exact sound_failed
    · exact sound_of_not_returned rfl
  case h_6 ok _ => -- addWatch
    obtain rfl := Option.some.inj hnext
    refine ⟨h.move (by cases ok <;> simp [Pc.waits]),
      iff_of_not_givesUp ?_ (by simp [Action.GivesUp])⟩
    cases ok
    · exact sound_failed
    · exact sound_of_not_returned rfl
  case h_7 => -- recheck
    obtain rfl := Option.some.inj hnext
    exact ⟨h.look _, iff_of_not_givesUp (sound_look rfl) (by simp [Action.GivesUp])⟩
  case h_8 ok hpc => -- setDeadline
    obtain rfl := Option.some.inj hnext
    refine ⟨h.move fun _ => by rw [hpc]; rfl, ?_⟩
    cases ok
    · exact iff_of_givesUp h (by rw [hpc]; rfl) (.inl rfl)
    · exact iff_of_not_givesUp (sound_of_not_returned rfl) (by simp [Action.GivesUp])
  case h_9 passed hpc => -- checkDeadline
    obtain rfl := Option.some.inj hnext
    refine ⟨h.move fun _ => by rw [hpc]; rfl, ?_⟩
    cases passed
    · exact iff_of_not_givesUp (sound_of_not_returned rfl) (by simp [Action.GivesUp])
    · exact iff_of_givesUp h (by rw [hpc]; rfl) (.inr (.inl rfl))
  case h_10 hpc => -- select, ready
    obtain rfl := Option.some.inj hnext
    exact ⟨h.move fun _ => by rw [hpc]; rfl,
      iff_of_not_givesUp (sound_of_not_returned rfl) (by simp [Action.GivesUp])⟩
  case h_11 hpc => -- select, interrupted
    obtain rfl := Option.some.inj hnext
    exact ⟨h.move fun _ => by rw [hpc]; rfl,
      iff_of_not_givesUp (sound_of_not_returned rfl) (by simp [Action.GivesUp])⟩
  case h_12 hpc => -- select, nothing
    split_ifs at hnext
    obtain rfl := Option.some.inj hnext
    exact ⟨h.move fun _ => by rw [hpc]; rfl,
      iff_of_not_givesUp (sound_of_not_returned rfl) (by simp [Action.GivesUp])⟩
  case h_13 hpc => -- select, error
    obtain rfl := Option.some.inj hnext
    exact ⟨h.move (fun hwaits => by cases hwaits),
      iff_of_givesUp h (by rw [hpc]; rfl) (.inr (.inr rfl))⟩
  case h_14 events hpc => -- read
    split_ifs at hnext
    obtain rfl := Option.some.inj hnext
    exact ⟨h.scan (by rw [hpc]; rfl) events,
      iff_of_not_givesUp (h.sound_scan events) (by simp [Action.GivesUp])⟩
  case h_15 => cases hnext

/-! ### Runs -/

/-- A run is right, wherever it ends, exactly if the waiter does not give up in it while the event
of the sentinel is pending. -/
theorem sound_iff {files : List Name} {as : List Action}
    (h : (system sentinel files).exec (system sentinel files).init as = some s) :
    Sound sentinel s ↔
      (system sentinel files).Respects (Awaits sentinel) (system sentinel files).init as := by
  have hstep : ∀ s a s', Inv sentinel s → (system sentinel files).next s a = some s' →
      (Sound sentinel s' ↔ Sound sentinel s ∧ Awaits sentinel s a) := by
    intro s a s' hs hnext
    rw [and_iff_right (sound_of_not_returned (not_returned_of_next hnext))]
    exact (hs.next hnext).2
  have hinit : Sound sentinel (system sentinel files).init := sound_of_not_returned rfl
  rw [System.exec_iff_respects (fun s a s' hs hnext => (hs.next hnext).1) hstep (Inv.init files) h,
    and_iff_right hinit]

/-- The steps up to the loop. -/
def setUp : List Action :=
  [.access, .inotifyInit true, .addWatch true, .recheck, .setDeadline true]

/-- The sentinel appears while the waiter is selecting. -/
def foundRun : List Action :=
  setUp ++ [.checkDeadline false, .appear "flag".toList, .notify "flag".toList .queued,
    .select .ready, .read 1]

theorem sound_foundRun : (system "flag".toList []).exec (system "flag".toList []).init foundRun =
      some ⟨.found, ["flag".toList], [], [], false⟩ ∧
    Sound "flag".toList ⟨.found, ["flag".toList], [], [], false⟩ := by
  have hrun : (system "flag".toList []).exec (system "flag".toList []).init foundRun =
      some ⟨.found, ["flag".toList], [], [], false⟩ := by decide
  exact ⟨hrun, (sound_iff hrun).mpr (by decide)⟩

/-- The sentinel appears behind the last `select`, and its event is in the queue when the deadline
has passed. -/
def missedRun : List Action :=
  setUp ++ [.checkDeadline false, .select .nothing, .appear "flag".toList,
    .notify "flag".toList .queued, .checkDeadline true]

theorem missedRun_not_sound :
    (system "flag".toList []).exec (system "flag".toList []).init missedRun =
      some ⟨.gaveUp, ["flag".toList], [], [some "flag".toList], false⟩ ∧
    ¬Sound "flag".toList ⟨.gaveUp, ["flag".toList], [], [some "flag".toList], false⟩ :=
  ⟨by decide, fun h => h.gaveUp rfl List.mem_cons_self⟩

end DcmAgent.Reboot.Sentinel
