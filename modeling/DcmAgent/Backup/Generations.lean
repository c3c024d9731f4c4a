import Mathlib.Tactic
import DcmAgent.Backup.Finish

/-!
# Generations of backups

A run puts the logs of a boot on a shelf with four slots, which the prefixes of the names tell
apart. When the shelf is full, every slot takes what is in the next one. The files of the first slot
are replaced only where the second has files of the same names.
-/

namespace DcmAgent.Backup

open Library

/-- The files of a boot by their names. -/
abbrev Generation := Name → Option (List Char)

inductive Slot where
  | base
  | bak1
  | bak2
  | bak3
  deriving DecidableEq, Repr

def Slot.ext : Slot → List Char
  | .base => []
  | .bak1 => Backup.bak1
  | .bak2 => Backup.bak2
  | .bak3 => Backup.bak3

abbrev Shelf := Slot → Generation

def Generation.empty : Generation := fun _ => none

/-- The files of both, those of the first where the names are the same. -/
def onTop (g h : Generation) : Generation := fun n => (g n).or (h n)

/-- The slot that a name in `PreviousLogs` belongs to, and the name there. -/
def slotOf (x : Name) : Slot × Name :=
  if bak1 <+: x then (.bak1, x.drop 5)
  else if bak2 <+: x then (.bak2, x.drop 5)
  else if bak3 <+: x then (.bak3, x.drop 5)
  else (.base, x)

/-- The name has no prefix of a slot. -/
def Unprefixed (n : Name) : Prop := ¬bak1 <+: n ∧ ¬bak2 <+: n ∧ ¬bak3 <+: n

/-- The files have names that can be stored. -/
def Storable (config : BackupConfig) (g : Generation) : Prop :=
  ∀ n c, g n = some c → Unprefixed n ∧ ¬IsDot n ∧ n ≠ backupLogsLog ∧ n ≠ backupLogsLog0 ∧
    (config.slash .prev ++ bak1 ++ n).length < pathMax

/-- `PreviousLogs` is the shelf, but for the marker. -/
structure Stores (d : Disk) (a : Shelf) : Prop where
  lookup : ∀ x, x ≠ lastReboot →
    d.lookup (.prev, x) = (a (slotOf x).1 (slotOf x).2).map Node.regular
  marker : ∀ c, a .base lastReboot = some c → d.lookup (.prev, lastReboot) = some (.regular c)
  regular : Regular d

variable {config : BackupConfig} {env : Env} {stage : Stage} {d d' : Disk} {a : Shelf}
  {g : Generation} {s t : Slot} {x r n : Name} {c : List Char}

/-! ### Slots -/

lemma slotOf_append_of_ne (hs : s ≠ .base) (r : Name) : slotOf (s.ext ++ r) = (s, r) := by
  cases s with
  | base => exact absurd rfl hs
  | bak1 => simp [slotOf, Slot.ext, bak1]
  | bak2 => simp [slotOf, Slot.ext, bak1, bak2]
  | bak3 => simp [slotOf, Slot.ext, bak1, bak2, bak3]

lemma slotOf_of_unprefixed (h : Unprefixed r) : slotOf r = (.base, r) := by
  rw [slotOf, if_neg h.1, if_neg h.2.1, if_neg h.2.2]

lemma slotOf_append (h : Unprefixed r) : slotOf (s.ext ++ r) = (s, r) := by
  by_cases hs : s = .base
  · subst hs
    exact slotOf_of_unprefixed h
  · exact slotOf_append_of_ne hs r

lemma ext_append_slotOf (x : Name) : (slotOf x).1.ext ++ (slotOf x).2 = x := by
  unfold slotOf
  split_ifs with h₁ h₂ h₃
  · obtain ⟨r, rfl⟩ := h₁
    rfl
  · obtain ⟨r, rfl⟩ := h₂
    rfl
  · obtain ⟨r, rfl⟩ := h₃
    rfl
  · rfl

lemma ext_append_ne_lastReboot (hs : s ≠ .base) (r : Name) : s.ext ++ r ≠ lastReboot := by
  intro h
  have hslot := slotOf_append_of_ne hs r
  rw [h] at hslot
  have hbase : (slotOf lastReboot).1 = .base := by decide
  rw [hslot] at hbase
  exact hs hbase

lemma eq_ext_append (h : slotOf x = (s, r)) : x = s.ext ++ r := by
  have hx := ext_append_slotOf x
  rw [h] at hx
  exact hx.symm

/-! ### One pass -/

/-- The directory that files come from: a slot, or `LOG_PATH`. -/
def whereOf : Option Slot → Where
  | none => .log
  | some _ => .prev

def extOf : Option Slot → List Char
  | none => []
  | some s => s.ext

/-- The shelf once the files have been taken from there. -/
def without (a : Shelf) : Option Slot → Shelf
  | none => a
  | some s => Function.update a s Generation.empty

section Pass

variable {f : Option Slot} (hf : ∀ s ∈ f, s ≠ .base ∧ s ≠ t ∧ a s = g)
  (h : (passTransfer config (whereOf f) .prev (extOf f) t.ext).Complete (entries d) (entries d'))
  (hmov : ∀ r c, (passTransfer config (whereOf f) .prev (extOf f) t.ext).Movable (entries d) r c ↔
    g r = some c)
  (hg : Storable config g) (ha : Stores d a)

include h hmov

include ha in
/-- What is moved is there afterwards. -/
lemma lookup_moved (hr : g r = some c) :
    d'.lookup (.prev, t.ext ++ r) = some (.regular c) := by
  have hdst : d'.lookup (.prev, t.ext ++ r) =
      some (Node.written (d.lookup (.prev, t.ext ++ r)) c) := (h.item r c ((hmov r c).mpr hr)).2
  rw [hdst, ha.regular.written]

include hf hg in
/-- A name is left alone when no file comes to it or goes from it. -/
lemma lookup_kept (hx : ∀ s ∈ f, (slotOf x).1 = s → g (slotOf x).2 = none)
    (hxt : (slotOf x).1 = t → g (slotOf x).2 = none) :
    d'.lookup (.prev, x) = d.lookup (.prev, x) := by
  refine h.frame (.prev, x) fun r c hr => ?_
  have hgr := (hmov r c).mp hr
  constructor
  · intro heq
    cases f with
    | none => cases (Prod.mk.inj heq).1
    | some s =>
      have hslot := slotOf_append_of_ne (hf s rfl).1 r
      have hxs : x = s.ext ++ r := (Prod.mk.inj heq).2
      rw [← hxs] at hslot
      have hnone := hx s rfl (by rw [hslot])
      rw [hslot, hgr] at hnone
      cases hnone
  · intro heq
    have hslot := slotOf_append (s := t) (hg r c hgr).1
    have hxt' : x = t.ext ++ r := (Prod.mk.inj heq).2
    rw [← hxt'] at hslot
    have hnone := hxt (by rw [hslot])
    rw [hslot, hgr] at hnone
    cases hnone

include hf hg ha

/-- A pass puts the files on top of what is in the slot. -/
theorem stores_pass : Stores d' (Function.update (without a f) t (onTop g (a t))) := by
  refine ⟨fun x hx => ?_, fun c hc => ?_, ha.regular.of_partial h.toPartial⟩
  · have hold := ha.lookup x hx
    have hkept := lookup_kept (x := x) hf h hmov hg
    obtain ⟨⟨u, r⟩, hu⟩ : ∃ p, slotOf x = p := ⟨_, rfl⟩
    have hxr := eq_ext_append hu
    rw [hu] at hold hkept ⊢
    dsimp only at hold hkept ⊢
    by_cases hut : u = t
    · subst hut
      rw [Function.update_self]
      cases hgr : g r with
      | none =>
        rw [hkept (fun _ _ _ => hgr) (fun _ => hgr), hold]
        simp [onTop, hgr]
      | some c =>
        rw [hxr, lookup_moved h hmov ha hgr]
        simp [onTop, hgr]
    · rw [Function.update_of_ne hut]
      cases f with
      | none => exact (hkept (fun s hs => nomatch hs) fun heq => absurd heq hut).trans hold
      | some s =>
        obtain ⟨-, -, has⟩ := hf s rfl
        rw [without]
        by_cases hus : u = s
        · subst hus
          rw [Function.update_self]
          rw [has] at hold
          cases hgr : g r with
          | none =>
            rw [hkept (fun _ _ _ => hgr) (fun _ => hgr), hold, hgr]
            rfl
          | some c =>
            have hsrc : d'.lookup (.prev, u.ext ++ r) = none :=
              (h.item r c ((hmov r c).mpr hgr)).1
            rw [hxr, hsrc]
            rfl
        · rw [Function.update_of_ne hus]
          refine (hkept (fun s' hs' heq => ?_) fun heq => absurd heq hut).trans hold
          obtain rfl := Option.some.inj hs'
          exact absurd heq hus
  · have hslot : slotOf lastReboot = (.base, lastReboot) := by decide
    have hkept := lookup_kept (x := lastReboot) hf h hmov hg
    rw [hslot] at hkept
    have hnosrc : ∀ s ∈ f, Slot.base = s → g lastReboot = none :=
      fun s hs heq => absurd heq.symm (hf s hs).1
    by_cases ht : t = .base
    · subst ht
      rw [Function.update_self] at hc
      cases hgr : g lastReboot with
      | none =>
        rw [hkept hnosrc fun _ => hgr]
        refine ha.marker c ?_
        rw [onTop, hgr] at hc
        exact hc
      | some c' =>
        rw [onTop, hgr] at hc
        obtain rfl : c' = c := Option.some.inj hc
        exact lookup_moved h hmov ha hgr
    · rw [Function.update_of_ne (Ne.symm ht)] at hc
      rw [hkept hnosrc fun heq => absurd heq.symm ht]
      refine ha.marker c ?_
      cases f with
      | none => exact hc
      | some s =>
        rw [without, Function.update_of_ne (Ne.symm (hf s rfl).1)] at hc
        exact hc

end Pass

/-! ### Rotating -/

lemma length_ext (s : Slot) : s.ext = [] ∧ s = .base ∨ s.ext.length = 5 := by
  cases s with
  | base => exact .inl ⟨rfl, rfl⟩
  | bak1 => exact .inr rfl
  | bak2 => exact .inr rfl
  | bak3 => exact .inr rfl

lemma not_isDot_ext (hr : ¬IsDot r) (s : Slot) : ¬IsDot (s.ext ++ r) := by
  refine not_isDot_append hr ?_
  rcases length_ext s with ⟨h, -⟩ | h
  · exact .inl h
  · exact .inr (by omega)

lemma length_path_le (s : Slot) (p r : List Char) :
    (p ++ (s.ext ++ r)).length ≤ (p ++ Backup.bak1 ++ r).length := by
  have hbak1 : Backup.bak1.length = 5 := rfl
  simp only [List.length_append]
  rcases length_ext s with ⟨h, -⟩ | h
  · rw [h, List.length_nil]
    omega
  · omega

section Rotate

variable (hs : s ≠ .base) (hst : s ≠ t) (ha : Stores d a) (hg : Storable config (a s))

include hs hst ha hg

/-- What can be moved is what is stored in the slot. -/
lemma movable_rotate : (passTransfer config .prev .prev s.ext t.ext).Movable (entries d) r c ↔
    a s r = some c := by
  have hold := ha.lookup (s.ext ++ r) (ext_append_ne_lastReboot hs r)
  rw [slotOf_append_of_ne hs r] at hold
  constructor
  · rintro ⟨-, hread⟩
    have hread' : (d.lookup (.prev, s.ext ++ r)).bind Node.content? = some c := hread
    rw [hold] at hread'
    cases hr : a s r with
    | none => simp [hr] at hread'
    | some c' => simpa [hr, Node.content?] using hread'
  · intro hr
    obtain ⟨hplain, hdot, hlog, hlog', hlen⟩ := hg r c hr
    have hfirst : s.ext ++ r ≠ backupLogsLog ∧ s.ext ++ r ≠ backupLogsLog0 := by
      have hslot := slotOf_append_of_ne hs r
      refine ⟨fun h => ?_, fun h => ?_⟩
      · have hbase : (slotOf backupLogsLog).1 = .base := by decide
        rw [← h, hslot] at hbase
        exact hs hbase
      · have hbase : (slotOf backupLogsLog0).1 = .base := by decide
        rw [← h, hslot] at hbase
        exact hs hbase
    refine ⟨⟨⟨not_isDot_ext hdot s, hfirst, ?_, ?_⟩, not_isDot_ext hdot t, fun _ => ?_⟩, ?_⟩
    · exact (length_path_le s _ r).trans_lt hlen
    · rw [List.append_assoc]
      exact (length_path_le t _ r).trans_lt hlen
    · rintro ⟨r', hr'⟩
      have hslot := slotOf_append (s := t) hplain
      rw [← hr', slotOf_append_of_ne hs r'] at hslot
      exact hst (Prod.mk.inj hslot).1
    · change (d.lookup (.prev, s.ext ++ r)).bind Node.content? = some c
      rw [hold, hr]
      rfl

lemma ready_rotate : Ready config .prev .prev s.ext t.ext d := by
  intro r c htests hc
  have hr : a s r = some c := by
    have hold := ha.lookup (s.ext ++ r) (ext_append_ne_lastReboot hs r)
    rw [slotOf_append_of_ne hs r] at hold
    rw [hold] at hc
    cases hr : a s r with
    | none => simp [hr] at hc
    | some c' => simpa [hr, Node.content?] using hc
  have helig := ((movable_rotate hs hst ha hg).mpr hr).1
  exact ⟨helig, ha.regular.writable helig.2.1⟩

/-- A slot is moved on top of another one. -/
lemma stores_rotate (hrel : env.Reliable) (hpower : env.power stage = none) :
    let d' := backupAndRecoverLogs config env stage .prev .prev .move s.ext t.ext d
    Stores d' (Function.update (Function.update a s Generation.empty) t (onTop (a s) (a t))) ∧
      ∀ n, d'.lookup (.log, n) = d.lookup (.log, n) := by
  have hcomplete := backupAndRecoverLogs_complete hrel hpower (ready_rotate hs hst ha hg)
  refine ⟨stores_pass (f := some s) ?_ hcomplete (fun r c => movable_rotate hs hst ha hg) hg ha,
    fun n => ?_⟩
  · intro s' hs'
    obtain rfl := Option.some.inj hs'
    exact ⟨hs, hst, rfl⟩
  · exact hcomplete.frame (.log, n) fun r c _ => ⟨by simp [passTransfer], by simp [passTransfer]⟩

end Rotate

/-- The shelf after the three passes that make room. -/
def shifted (a : Shelf) : Shelf
  | .base => onTop (a .bak1) (a .base)
  | .bak1 => a .bak2
  | .bak2 => a .bak3
  | .bak3 => Generation.empty

lemma onTop_empty (g : Generation) : onTop g Generation.empty = g := by
  funext n
  simp [onTop, Generation.empty]

lemma stores_rotate_all (hrel : env.Reliable) (hpower : ∀ stage, env.power stage = none)
    (ha : Stores d a) (hg : ∀ s, Storable config (a s)) :
    Stores (rotate config env d) (shifted a) ∧
      ∀ n, (rotate config env d).lookup (.log, n) = d.lookup (.log, n) := by
  obtain ⟨h₁, hlog₁⟩ := stores_rotate (s := .bak1) (t := .base) (by decide) (by decide) ha
    (hg .bak1) hrel (hpower .rotate1)
  obtain ⟨h₂, hlog₂⟩ := stores_rotate (s := .bak2) (t := .bak1) (by decide) (by decide) h₁
    (hg .bak2) hrel (hpower .rotate2)
  obtain ⟨h₃, hlog₃⟩ := stores_rotate (s := .bak3) (t := .bak2) (by decide) (by decide) h₂
    (hg .bak3) hrel (hpower .rotate3)
  refine ⟨?_, fun n => (hlog₃ n).trans ((hlog₂ n).trans (hlog₁ n))⟩
  convert h₃ using 1
  · rfl
  · funext s
    cases s with
    | base => rfl
    | bak1 => exact (onTop_empty _).symm
    | bak2 => exact (onTop_empty _).symm
    | bak3 => rfl

/-! ### Storing a generation -/

/-- The first slot without the system log. -/
def levelOf (a : Shelf) : Level :=
  if a .base sysLog = none then .base
  else if a .bak1 sysLog = none then .bak1
  else if a .bak2 sysLog = none then .bak2
  else if a .bak3 sysLog = none then .bak3
  else .full

/-- A generation is put on top of the first slot without the system log. When all slots have one,
room is made first. -/
def store (a : Shelf) (g : Generation) : Shelf :=
  match levelOf a with
  | .base => Function.update a .base (onTop g (a .base))
  | .bak1 => Function.update a .bak1 (onTop g (a .bak1))
  | .bak2 => Function.update a .bak2 (onTop g (a .bak2))
  | .bak3 => Function.update a .bak3 (onTop g (a .bak3))
  | .full => Function.update (shifted a) .bak3 g

/-- The logs of a boot, but for the active ones. -/
def moved (logs : Generation) : Generation := fun n =>
  if n = backupLogsLog ∨ n = backupLogsLog0 then none else logs n

/-- The logs have the system log among them, and names without a prefix that fit the paths. -/
structure Bootable (config : BackupConfig) (logs : Generation) : Prop where
  messages : logs sysLog ≠ none
  names : ∀ n c, logs n = some c → Unprefixed n ∧ ¬IsDot n ∧
    (config.slash .log ++ n).length < pathMax ∧ (config.slash .prev ++ bak1 ++ n).length < pathMax

/-- `LOG_PATH` holds these logs, all of them regular files. The entry of `PreviousLogs`, which lies
inside it, is left out. -/
def HoldsLogs (d : Disk) (logs : Generation) : Prop :=
  ∀ n, d.lookup (.log, n) = (logs n).map Node.regular

section Move

variable {logs : Generation} (hlogs : HoldsLogs d logs) (hboot : Bootable config logs)

lemma moved_eq_some (h : moved logs n = some c) :
    logs n = some c ∧ n ≠ backupLogsLog ∧ n ≠ backupLogsLog0 := by
  unfold moved at h
  split_ifs at h with hactive
  exact ⟨h, not_or.mp hactive⟩

include hboot in
lemma storable_moved : Storable config (moved logs) := by
  intro n c h
  obtain ⟨hn, hlog, hlog0⟩ := moved_eq_some h
  obtain ⟨hplain, hdot, -, hfits⟩ := hboot.names n c hn
  exact ⟨hplain, hdot, hlog, hlog0, hfits⟩

include hlogs hboot

lemma movable_move : (passTransfer config .log .prev [] t.ext).Movable (entries d) r c ↔
    moved logs r = some c := by
  have hold : d.lookup (.log, [] ++ r) = (logs r).map Node.regular := hlogs r
  constructor
  · rintro ⟨⟨htests, -⟩, hread⟩
    have hread' : (d.lookup (.log, [] ++ r)).bind Node.content? = some c := hread
    rw [hold] at hread'
    have hactive : ¬(r = backupLogsLog ∨ r = backupLogsLog0) := not_or.mpr htests.notActive
    rw [moved, if_neg hactive]
    cases hr : logs r with
    | none => simp [hr] at hread'
    | some c' => simpa [hr, Node.content?] using hread'
  · intro h
    obtain ⟨hr, hlog, hlog0⟩ := moved_eq_some h
    obtain ⟨-, hdot, hsource, hfits⟩ := hboot.names r c hr
    refine ⟨⟨⟨hdot, ⟨hlog, hlog0⟩, hsource, ?_⟩, not_isDot_ext hdot t, fun h => by cases h⟩, ?_⟩
    · rw [List.append_assoc]
      exact (length_path_le t _ r).trans_lt hfits
    · change (d.lookup (.log, [] ++ r)).bind Node.content? = some c
      rw [hold, hr]
      rfl

/-- The logs are moved on top of a slot. -/
lemma stores_move (ha : Stores d a) (hrel : env.Reliable) (hpower : env.power .move = none)
    (t : Slot) : Stores (moveLogs config env t.ext d)
      (Function.update a t (onTop (moved logs) (a t))) := by
  have hext : t.ext = [] ∨ 3 ≤ t.ext.length := by
    rcases length_ext t with ⟨h, -⟩ | h
    · exact .inl h
    · exact .inr (by omega)
  have hready : Ready config .log .prev [] t.ext d := ready_move config ha.regular hext
  have hcomplete := backupAndRecoverLogs_complete hrel hpower hready
  exact stores_pass (f := none) (fun s hs => nomatch hs) hcomplete
    (fun r c => movable_move hlogs hboot) (storable_moved hboot) ha

end Move

lemma unprefixed_sysLog : Unprefixed sysLog := by
  unfold Unprefixed
  decide

lemma filePresentCheck_slot (ha : Stores d a) (s : Slot) :
    filePresentCheck d (.prev, s.ext ++ sysLog) = (a s sysLog).isSome := by
  have hne : s.ext ++ sysLog ≠ lastReboot := by
    by_cases hs : s = .base
    · subst hs
      decide
    · exact ext_append_ne_lastReboot hs sysLog
  rw [filePresentCheck, ha.lookup _ hne, slotOf_append unprefixed_sysLog]
  cases a s sysLog <;> rfl

lemma level_eq (ha : Stores d a) : level d = levelOf a := by
  have hbase := filePresentCheck_slot ha .base
  have hbak1 := filePresentCheck_slot ha .bak1
  have hbak2 := filePresentCheck_slot ha .bak2
  have hbak3 := filePresentCheck_slot ha .bak3
  simp only [Slot.ext, List.nil_append] at hbase hbak1 hbak2 hbak3
  rw [level, hbase, hbak1, hbak2, hbak3]
  simp only [Option.not_isSome_iff_eq_none]
  rfl

/-- A run stores the logs of the boot. -/
theorem stores_backupLogs {logs : Generation} (hlogs : HoldsLogs d logs)
    (hboot : Bootable config logs) (ha : Stores d a) (hg : ∀ s, Storable config (a s))
    (hrel : env.Reliable) (hpower : ∀ stage, env.power stage = none) :
    Stores (backupLogs config env d) (store a (moved logs)) := by
  have hmove := stores_move hlogs hboot ha hrel (hpower .move)
  rw [backupLogs, level_eq ha, store]
  cases levelOf a with
  | base => exact hmove .base
  | bak1 => exact hmove .bak1
  | bak2 => exact hmove .bak2
  | bak3 => exact hmove .bak3
  | full =>
    obtain ⟨hrotated, hlog⟩ := stores_rotate_all hrel hpower ha hg
    have hlogs' : HoldsLogs (rotate config env d) logs := fun n => (hlog n).trans (hlogs n)
    have hlast := stores_move hlogs' hboot hrotated hrel (hpower .move) .bak3
    rwa [show shifted a .bak3 = Generation.empty from rfl, onTop_empty] at hlast

/-! ### A run -/

/-- The marker and the wiping leave the shelf alone. -/
lemma stores_finish (ha : Stores d a) : Stores (finish config env d) a := by
  refine ⟨fun x hx => ?_, fun c hc => ?_, fun n v hv => ?_⟩
  · rw [lookup_finish_of_ne config env d hx]
    exact ha.lookup x hx
  · have hmarker := ha.marker c hc
    rcases lookup_finish_marker config env d with h | h
    · rw [h, hmarker]
    · rw [h, hmarker]
      rfl
  · by_cases hn : n = lastReboot
    · subst hn
      rcases lookup_finish_marker config env d with h | h
      · exact ha.regular lastReboot v (h.symm.trans hv)
      · rw [h] at hv
        cases hl : d.lookup (.prev, lastReboot) with
        | none =>
          rw [hl] at hv
          exact ⟨[], (Option.some.inj hv).symm⟩
        | some w =>
          obtain ⟨c, rfl⟩ := ha.regular lastReboot w hl
          rw [hl] at hv
          exact ⟨c, (Option.some.inj hv).symm⟩
    · rw [lookup_finish_of_ne config env d hn] at hv
      exact ha.regular n v hv

end DcmAgent.Backup
