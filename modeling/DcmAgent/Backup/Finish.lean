import Mathlib.Tactic
import DcmAgent.Backup.Pass

/-!
# The passes of a run

What the passes need of the disk to be reliable (`Ready`), and what the marker and the wiping of
`LOG_PATH` do to the two directories.
-/

namespace DcmAgent.Backup

open Library

variable {config : BackupConfig} {env env' : Env} {d d' : Disk} {dExt : List Char} {n r : Name}
  {c : List Char}

/-! ### Previous logs -/

/-- All entries of `PreviousLogs` are regular files. -/
def Regular (d : Disk) : Prop := ∀ n v, d.lookup (.prev, n) = some v → ∃ c, v = .regular c

lemma Regular.writable (h : Regular d) (hdot : ¬IsDot n) : Writable d (.prev, n) := by
  refine ⟨hdot, fun hdir => ?_, fun hother => ?_⟩
  · obtain ⟨c, hc⟩ := h n _ hdir
    cases hc
  · obtain ⟨c, hc⟩ := h n _ hother
    cases hc

lemma Regular.written (h : Regular d) : Node.written (d.lookup (.prev, n)) c = .regular c := by
  cases hl : d.lookup (.prev, n) with
  | none => rfl
  | some v =>
    obtain ⟨c', rfl⟩ := h n v hl
    rfl

lemma not_isDot_append (hdot : ¬IsDot r) (hext : dExt = [] ∨ 3 ≤ dExt.length) :
    ¬IsDot (dExt ++ r) := by
  rcases hext with rfl | hlen
  · exact hdot
  · rintro (h | h | h) <;>
      · have := congrArg List.length h
        simp only [List.length_append, List.length_cons, List.length_nil] at this
        omega

variable (config) in
lemma ready_move (h : Regular d) (hext : dExt = [] ∨ 3 ≤ dExt.length) :
    Ready config .log .prev [] dExt d := by
  intro r c htests _
  have hdot : ¬IsDot (dExt ++ r) := not_isDot_append htests.notDot hext
  exact ⟨⟨htests, hdot, fun hwhere => by cases hwhere⟩, h.writable hdot⟩

/-- No file of the first level would be moved to a name of that level, or to no name. -/
def Single (d : Disk) : Prop :=
  ∀ r, (Where.prev, bak1 ++ r) ∈ d → ¬IsDot r ∧ ¬bak1 <+: r

lemma mem_of_content {l : Loc} (h : (d.lookup l).bind Node.content? = some c) : l ∈ d := by
  rw [Finmap.mem_iff]
  cases hl : d.lookup l with
  | none => simp [hl] at h
  | some v => exact ⟨v, rfl⟩

variable (config) in
lemma ready_rotate1 (h : Regular d) (hsingle : Single d) :
    Ready config .prev .prev bak1 [] d := by
  intro r c htests hc
  obtain ⟨hdot, hpre⟩ := hsingle r (mem_of_content hc)
  exact ⟨⟨htests, hdot, fun _ => hpre⟩, h.writable hdot⟩

lemma not_bak2_prefix (r : Name) : ¬bak2 <+: bak1 ++ r := by
  rintro ⟨t, ht⟩
  simp [bak1, bak2] at ht

lemma not_bak3_prefix (r : Name) : ¬bak3 <+: bak2 ++ r := by
  rintro ⟨t, ht⟩
  simp [bak2, bak3] at ht

lemma length_bak1 : bak1.length = 5 := rfl

lemma length_bak2 : bak2.length = 5 := rfl

lemma length_bak3 : bak3.length = 5 := rfl

variable (config) in
lemma ready_rotate2 (h : Regular d) : Ready config .prev .prev bak2 bak1 d := by
  intro r c htests hc
  have hdot : ¬IsDot (bak1 ++ r) := by
    rintro (h | h | h) <;> simp [bak1] at h
  exact ⟨⟨htests, hdot, fun _ => not_bak2_prefix r⟩, h.writable hdot⟩

variable (config) in
lemma ready_rotate3 (h : Regular d) : Ready config .prev .prev bak3 bak2 d := by
  intro r c htests hc
  have hdot : ¬IsDot (bak2 ++ r) := by
    rintro (h | h | h) <;> simp [bak2] at h
  exact ⟨⟨htests, hdot, fun _ => not_bak3_prefix r⟩, h.writable hdot⟩

section Partial

variable {source : Where} {sExt : List Char}
  (h : (passTransfer config source .prev sExt dExt).Partial (entries d) (entries d'))

include h

/-- What a pass can make of an entry: it stays, it is written, or it is removed. -/
lemma partial_cases (l : Loc) :
    entries d' l = entries d l ∨
      (∃ r c, l = (.prev, dExt ++ r) ∧
        (passTransfer config source .prev sExt dExt).Movable (entries d) r c ∧
        entries d' l = some (.written (entries d l) c)) ∨
      (∃ r c, l = (source, sExt ++ r) ∧
        (passTransfer config source .prev sExt dExt).Movable (entries d) r c ∧
        entries d' l = none) := by
  by_cases hk : ∀ r c, (passTransfer config source .prev sExt dExt).Movable (entries d) r c →
      l ≠ (source, sExt ++ r) ∧ l ≠ (.prev, dExt ++ r)
  · exact Or.inl (h.frame l hk)
  · push Not at hk
    obtain ⟨r, c, hr, hkey⟩ := hk
    by_cases hs : l = (source, sExt ++ r)
    · subst hs
      rcases h.item r c hr with ⟨hsrc, -⟩ | ⟨hsrc, -⟩ | ⟨hsrc, -⟩
      · exact Or.inl hsrc
      · exact Or.inl hsrc
      · exact Or.inr (Or.inr ⟨r, c, rfl, hr, hsrc⟩)
    · have hd := hkey hs
      subst hd
      rcases h.item r c hr with ⟨-, hdst⟩ | ⟨-, hdst⟩ | ⟨-, hdst⟩
      · exact Or.inl hdst
      · exact Or.inr (Or.inl ⟨r, c, rfl, hr, hdst⟩)
      · exact Or.inr (Or.inl ⟨r, c, rfl, hr, hdst⟩)

lemma Regular.of_partial (hreg : Regular d) : Regular d' := by
  intro n v hv
  rcases partial_cases h (.prev, n) with heq | ⟨r, c, -, -, heq⟩ | ⟨r, c, -, -, heq⟩
  · exact hreg n v (heq.symm.trans hv)
  · have hv' : some (Node.written (d.lookup (.prev, n)) c) = some v := heq.symm.trans hv
    rw [hreg.written] at hv'
    exact ⟨c, (Option.some.inj hv').symm⟩
  · cases heq.symm.trans hv

end Partial

/-! ### The end of a run -/

/-- The marker and the wiping. -/
def finish (config : BackupConfig) (env : Env) (d : Disk) : Disk :=
  wipeLogPath config env (touchLastReboot env d)

lemma wipeEntry_cases (config : BackupConfig) (env : Env) (m : Machine) (n : Name) :
    (wipeEntry config env m n).disk = m.disk ∨
      (wipeEntry config env m n).disk = m.disk.erase (.log, n) := by
  unfold wipeEntry
  split_ifs
  · exact Or.inl rfl
  · exact Or.inl rfl
  · rcases m.op_cases fun d => d with ⟨h, -⟩ | h <;> exact Or.inl h
  · rcases m.op_cases fun d => d.erase (.log, n) with ⟨h, -⟩ | h
    · exact Or.inl h
    · exact Or.inr h

/-- Wiping only removes entries of `LOG_PATH`. -/
lemma lookup_wipeLogPath (config : BackupConfig) (env : Env) (d : Disk) :
    (∀ n, (wipeLogPath config env d).lookup (.prev, n) = d.lookup (.prev, n)) ∧
      ∀ n v, (wipeLogPath config env d).lookup (.log, n) = some v →
        d.lookup (.log, n) = some v := by
  have hfold : ∀ (l : List Name) (m : Machine),
      (∀ n, (l.foldl (wipeEntry config env) m).disk.lookup (.prev, n) =
        m.disk.lookup (.prev, n)) ∧
      ∀ n v, (l.foldl (wipeEntry config env) m).disk.lookup (.log, n) = some v →
        m.disk.lookup (.log, n) = some v := by
    intro l
    induction l with
    | nil => exact fun m => ⟨fun _ => rfl, fun _ _ h => h⟩
    | cons n l ih =>
      intro m
      obtain ⟨hprev, hlog⟩ := ih (wipeEntry config env m n)
      rcases wipeEntry_cases config env m n with heq | heq
      · rw [heq] at hprev hlog
        exact ⟨hprev, hlog⟩
      · rw [heq] at hprev hlog
        refine ⟨fun k => ?_, fun k v hv => ?_⟩
        · rw [List.foldl_cons, hprev, Finmap.lookup_erase_ne (by simp)]
        · have hv' := hlog k v hv
          by_cases hk : k = n
          · subst hk
            simp at hv'
          · rwa [Finmap.lookup_erase_ne (by simpa using hk)] at hv'
  unfold wipeLogPath
  split_ifs
  · exact ⟨fun _ => rfl, fun _ _ h => h⟩
  · exact hfold _ ⟨d, env.power .wipe⟩

/-- The entry of the marker after a run has touched it. -/
def touched : Option Node → Option Node
  | none => some (.regular [])
  | some .dangling => some (.symlink [])
  | some v => some v

lemma touched_touched (o : Option Node) : touched (touched o) = touched o := by
  rcases o with - | (_ | _ | _ | _ | _) <;> rfl

lemma lookup_touch_self (d : Disk) (l : Loc) : (touch d l).lookup l = touched (d.lookup l) := by
  unfold touch
  cases h : d.lookup l with
  | none => simp [touched]
  | some v => cases v <;> simp [touched, h]

lemma lookup_touch_of_ne (d : Disk) {l k : Loc} (hne : k ≠ l) :
    (touch d l).lookup k = d.lookup k := by
  unfold touch
  split
  · rw [Finmap.lookup_insert_of_ne _ hne]
  · rw [Finmap.lookup_insert_of_ne _ hne]
  · rfl

/-- The marker is touched, or nothing is done. -/
lemma touchLastReboot_cases (env : Env) (d : Disk) :
    touchLastReboot env d = d ∨ touchLastReboot env d = touch d (.prev, lastReboot) := by
  unfold touchLastReboot
  cases env.touchFails
  · rcases Machine.op_cases ⟨d, env.power .touch⟩ fun d => touch d (.prev, lastReboot) with
      ⟨h, -⟩ | h
    · exact Or.inl h
    · exact Or.inr h
  · rcases Machine.op_cases ⟨d, env.power .touch⟩ fun d => d with ⟨h, -⟩ | h <;> exact Or.inl h

lemma touchLastReboot_complete (hrel : env.Reliable) (hpower : env.power .touch = none)
    (d : Disk) : touchLastReboot env d = touch d (.prev, lastReboot) := by
  unfold touchLastReboot
  rw [hrel.touches, Machine.op_none hpower]
  rfl

/-- Everything in `PreviousLogs` but the marker. -/
lemma lookup_finish_of_ne (config : BackupConfig) (env : Env) (d : Disk) (h : n ≠ lastReboot) :
    (finish config env d).lookup (.prev, n) = d.lookup (.prev, n) := by
  rw [finish, (lookup_wipeLogPath config env _).1]
  rcases touchLastReboot_cases env d with heq | heq
  · rw [heq]
  · rw [heq, lookup_touch_of_ne d (by simpa using h)]

lemma lookup_finish_marker (config : BackupConfig) (env : Env) (d : Disk) :
    (finish config env d).lookup (.prev, lastReboot) = d.lookup (.prev, lastReboot) ∨
      (finish config env d).lookup (.prev, lastReboot) =
        touched (d.lookup (.prev, lastReboot)) := by
  rw [finish, (lookup_wipeLogPath config env _).1]
  rcases touchLastReboot_cases env d with heq | heq
  · rw [heq]
    exact Or.inl rfl
  · rw [heq, lookup_touch_self]
    exact Or.inr rfl

lemma lookup_finish_marker_complete (hrel : env.Reliable) (hpower : env.power .touch = none)
    (d : Disk) : (finish config env d).lookup (.prev, lastReboot) =
      touched (d.lookup (.prev, lastReboot)) := by
  rw [finish, (lookup_wipeLogPath config env _).1, touchLastReboot_complete hrel hpower,
    lookup_touch_self]

/-- No log appears at the end of a run. -/
lemma lookup_finish_log (config : BackupConfig) (env : Env) (d : Disk) {v : Node}
    (h : (finish config env d).lookup (.log, n) = some v) : d.lookup (.log, n) = some v := by
  have hlog := (lookup_wipeLogPath config env (touchLastReboot env d)).2 n v h
  rcases touchLastReboot_cases env d with heq | heq
  · rwa [heq] at hlog
  · rwa [heq, lookup_touch_of_ne d (by simp)] at hlog

/-! ### A whole run -/

/-- The paths of the configuration pass the tests on their lengths. -/
structure BackupConfig.Fits (config : BackupConfig) : Prop where
  prev : config.prevLogPath.length + 19 < pathMax
  log : config.logPath.length + 2 < pathMax

lemma backupExecuteHddDisabledStrategy_eq (hfits : config.Fits) (env : Env) (d : Disk) :
    backupExecuteHddDisabledStrategy config env d =
      (.success, finish config env (backupLogs config env d)) := by
  have hprev := hfits.prev
  have hlog := hfits.log
  rw [backupExecuteHddDisabledStrategy, if_neg (by omega), if_neg (by omega)]
  exact if_neg (by omega)

/-! ### Environments -/

/-- Every entry is read once, and only these copies fail. -/
noncomputable def Env.withCopies (copy : Stage → Name → CopyOutcome) : Env where
  readdir _ w d := (d.keys.toList.filter fun l => l.1 = w).map Prod.snd
  complete _ w d n h := by simpa [Finmap.mem_keys] using h
  openFails _ := false
  copy := copy
  removeFails _ _ := false
  touchFails := false
  power _ := none

def prevConfig : BackupConfig := ⟨"/opt/logs".toList, "/opt/logs/PreviousLogs".toList⟩

lemma reliable_withCopies : (Env.withCopies fun _ _ => .ok).Reliable :=
  ⟨fun _ => rfl, fun _ _ => rfl, fun _ _ => rfl, rfl⟩

end DcmAgent.Backup
