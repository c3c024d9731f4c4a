import Mathlib.Tactic
import DcmAgent.Backup.Generations

/-!
# Boot after boot

Every boot brings its logs in `LOG_PATH` and runs the strategy. The last four generations are in the
slots of the shelf, but the first slot also keeps what older boots have left there.
-/

namespace DcmAgent.Backup

open Library

variable {config : BackupConfig} {d : Disk} {a : Shelf} {g : Generation} {n : Name} {c : List Char}

/-- The disk after some boots, each with its logs in `LOG_PATH`, and what they moved, from the first
boot on. -/
inductive Boots (config : BackupConfig) : List Generation → Disk → Prop
  | start {d : Disk} (hempty : ∀ n, d.lookup (.prev, n) = none) : Boots config [] d
  | boot {gens : List Generation} {d d₁ : Disk} {logs : Generation} {env : Env}
      (h : Boots config gens d) (hprev : ∀ n, d₁.lookup (.prev, n) = d.lookup (.prev, n))
      (hlogs : HoldsLogs d₁ logs) (hboot : Bootable config logs) (hrel : env.Reliable)
      (hpower : ∀ stage, env.power stage = none) :
      Boots config (gens ++ [moved logs]) (backupExecuteHddDisabledStrategy config env d₁).2

/-- All generations on top of each other, the last one above. -/
def pile (gens : List Generation) : Generation :=
  gens.foldl (fun h g => onTop g h) Generation.empty

/-- The shelf with these generations in the slots behind the first. -/
def shelf (base : Generation) (gens : List Generation) : Shelf
  | .base => base
  | .bak1 => gens[0]?.getD Generation.empty
  | .bak2 => gens[1]?.getD Generation.empty
  | .bak3 => gens[2]?.getD Generation.empty

/-- The last four generations, from the oldest on. -/
def lastShelf (gens : List Generation) : Shelf :=
  shelf (gens[gens.length - 4]?.getD Generation.empty) (gens.drop (gens.length - 4 + 1))

/-- What the runs leave: the first slot has the oldest of these on top of all before it. -/
def keptShelf (gens : List Generation) : Shelf :=
  shelf (pile (gens.take (gens.length - 4 + 1))) (gens.drop (gens.length - 4 + 1))

variable {gens olds : List Generation}

lemma pile_append (gens : List Generation) (g : Generation) :
    pile (gens ++ [g]) = onTop g (pile gens) := by
  rw [pile, List.foldl_append]
  rfl

lemma pile_singleton (g : Generation) : pile [g] = g := onTop_empty g

/-- A name is in the pile when one of the generations has it. -/
lemma pile_eq_none_iff : pile gens n = none ↔ ∀ g ∈ gens, g n = none := by
  induction gens using List.reverseRecOn with
  | nil => simp [pile, Generation.empty]
  | append_singleton gens g ih =>
    rw [pile_append, onTop, Option.or_eq_none_iff, ih]
    simp only [List.mem_append, List.mem_singleton, or_imp, forall_and, forall_eq]
    exact and_comm

lemma keptShelf_append (h : olds ≠ []) (x y z : Generation) :
    keptShelf (olds ++ [x, y, z]) = shelf (pile olds) [x, y, z] := by
  have hlen : (olds ++ [x, y, z]).length - 4 + 1 = olds.length := by
    have := List.length_pos_iff.mpr h
    simp only [List.length_append, List.length_cons, List.length_nil]
    omega
  rw [keptShelf, hlen, List.take_left, List.drop_left]

/-- A shelf with all slots taken moves on by one. -/
lemma store_full {base x y z : Generation} (hbase : base sysLog ≠ none) (hx : x sysLog ≠ none)
    (hy : y sysLog ≠ none) (hz : z sysLog ≠ none) (g : Generation) :
    store (shelf base [x, y, z]) g = shelf (onTop x base) [y, z, g] := by
  have hlevel : levelOf (shelf base [x, y, z]) = .full := by
    simp [levelOf, shelf, hbase, hx, hy, hz]
  rw [store, hlevel]
  funext s
  cases s <;> rfl

/-- A boot adds its generation to what the runs leave. -/
lemma store_keptShelf (h : ∀ g ∈ gens, g sysLog ≠ none) (g : Generation) :
    store (keptShelf gens) g = keptShelf (gens ++ [g]) := by
  match gens, h with
  | [], _ =>
    funext s
    cases s <;> rfl
  | [g₀], h =>
    have hlevel : levelOf (keptShelf [g₀]) = .bak1 := by
      simp_all [levelOf, keptShelf, shelf, pile_singleton, Generation.empty]
    rw [store, hlevel]
    funext s
    cases s with
    | bak1 => exact onTop_empty g
    | base | bak2 | bak3 => rfl
  | [g₀, g₁], h =>
    have hlevel : levelOf (keptShelf [g₀, g₁]) = .bak2 := by
      simp_all [levelOf, keptShelf, shelf, pile_singleton, Generation.empty]
    rw [store, hlevel]
    funext s
    cases s with
    | bak2 => exact onTop_empty g
    | base | bak1 | bak3 => rfl
  | [g₀, g₁, g₂], h =>
    have hlevel : levelOf (keptShelf [g₀, g₁, g₂]) = .bak3 := by
      simp_all [levelOf, keptShelf, shelf, pile_singleton, Generation.empty]
    rw [store, hlevel]
    funext s
    cases s with
    | bak3 => exact onTop_empty g
    | base | bak1 | bak2 => rfl
  | g₀ :: g₁ :: g₂ :: g₃ :: rest, h =>
    obtain ⟨olds, x, y, z, holds, hgens⟩ : ∃ olds x y z, olds ≠ [] ∧
        g₀ :: g₁ :: g₂ :: g₃ :: rest = olds ++ [x, y, z] := by
      have hthree : ((g₀ :: g₁ :: g₂ :: g₃ :: rest).drop (rest.length + 1)).length = 3 := by
        simp only [List.length_drop, List.length_cons]
        omega
      obtain ⟨x, y, z, hlast⟩ := List.length_eq_three.mp hthree
      refine ⟨(g₀ :: g₁ :: g₂ :: g₃ :: rest).take (rest.length + 1), x, y, z, by simp, ?_⟩
      rw [← hlast, List.take_append_drop]
    rw [hgens] at h ⊢
    have hbase : pile olds sysLog ≠ none := by
      rw [Ne, pile_eq_none_iff]
      obtain ⟨o, os, rfl⟩ := List.exists_cons_of_ne_nil holds
      exact fun hnone => h o (by simp) (hnone o (by simp))
    rw [keptShelf_append holds, store_full hbase (h x (by simp)) (h y (by simp)) (h z (by simp)),
      ← pile_append, List.append_assoc, ← keptShelf_append (by simp)]
    rw [List.append_assoc]
    rfl

/-! ### Runs -/

lemma Boots.bootable (h : Boots config gens d) (hg : g ∈ gens) :
    ∃ logs, g = moved logs ∧ Bootable config logs := by
  induction h with
  | start => cases hg
  | boot h hprev hlogs hboot hrel hpower ih =>
    rcases List.mem_append.mp hg with hg | hg
    · exact ih hg
    · exact ⟨_, List.mem_singleton.mp hg, hboot⟩

lemma moved_sysLog (logs : Generation) : moved logs sysLog = logs sysLog :=
  if_neg (by decide)

lemma Boots.sysLog_ne_none (h : Boots config gens d) (hg : g ∈ gens) : g sysLog ≠ none := by
  obtain ⟨logs, rfl, hboot⟩ := h.bootable hg
  rw [moved_sysLog]
  exact hboot.messages

lemma Boots.storable (h : Boots config gens d) (hg : g ∈ gens) : Storable config g := by
  obtain ⟨logs, rfl, hboot⟩ := h.bootable hg
  exact storable_moved hboot

lemma storable_empty : Storable config Generation.empty := by
  intro n c h
  cases h

lemma storable_pile (h : ∀ g ∈ gens, Storable config g) : Storable config (pile gens) := by
  induction gens using List.reverseRecOn with
  | nil => exact storable_empty
  | append_singleton gens g ih =>
    intro n c hc
    rw [pile_append, onTop, Option.or_eq_some_iff] at hc
    rcases hc with hc | ⟨-, hc⟩
    · exact h g (by simp) n c hc
    · exact ih (fun g hg => h g (List.mem_append_left _ hg)) n c hc

lemma storable_getD (h : ∀ g ∈ gens, Storable config g) (i : ℕ) :
    Storable config (gens[i]?.getD Generation.empty) := by
  cases hi : gens[i]? with
  | none => exact storable_empty
  | some g => exact h g (List.mem_of_getElem? hi)

lemma Boots.storable_keptShelf (h : Boots config gens d) (s : Slot) :
    Storable config (keptShelf gens s) := by
  have hdrop : ∀ g ∈ gens.drop (gens.length - 4 + 1), Storable config g :=
    fun g hg => h.storable (List.mem_of_mem_drop hg)
  cases s with
  | base => exact storable_pile fun g hg => h.storable (List.mem_of_mem_take hg)
  | bak1 => exact storable_getD hdrop 0
  | bak2 => exact storable_getD hdrop 1
  | bak3 => exact storable_getD hdrop 2

lemma Stores.of_prev {d₁ : Disk} (ha : Stores d a)
    (hprev : ∀ n, d₁.lookup (.prev, n) = d.lookup (.prev, n)) : Stores d₁ a :=
  ⟨fun x hx => (hprev x).trans (ha.lookup x hx), fun c hc => (hprev _).trans (ha.marker c hc),
    fun n v hv => ha.regular n v ((hprev n).symm.trans hv)⟩

/-- Every run adds its generation to what the runs before it have left. -/
theorem Boots.stores (hfits : config.Fits) (h : Boots config gens d) :
    Stores d (keptShelf gens) := by
  induction h with
  | start hempty =>
    have hnone : ∀ s n, keptShelf [] s n = none := by
      intro s n
      cases s <;> rfl
    refine ⟨fun x _ => ?_, fun c hc => ?_, fun n v hv => ?_⟩
    · rw [hempty, hnone]
      rfl
    · rw [hnone] at hc
      cases hc
    · rw [hempty] at hv
      cases hv
  | boot h hprev hlogs hboot hrel hpower ih =>
    rw [backupExecuteHddDisabledStrategy_eq hfits,
      ← store_keptShelf fun g hg => h.sysLog_ne_none hg]
    exact stores_finish (stores_backupLogs hlogs hboot (ih.of_prev hprev) h.storable_keptShelf
      hrel hpower)

/-- After any boots `PreviousLogs` holds the last four generations, each in its slot, just when the
oldest of them has all the names that the generations before it had. The files of those are never
removed: they stay where the oldest one has no file of the same name. -/
theorem lastGenerations_iff (hfits : config.Fits) (h : Boots config gens d) :
    Stores d (lastShelf gens) ↔
      ∀ g ∈ gens.take (gens.length - 4), ∀ k ∈ gens[gens.length - 4]?, ∀ n, n ≠ lastReboot →
        g n ≠ none → k n ≠ none := by
  have hkept := h.stores hfits
  cases hk : gens[gens.length - 4]? with
  | none =>
    obtain rfl : gens = [] := by
      have := List.getElem?_eq_none_iff.mp hk
      exact List.eq_nil_of_length_eq_zero (by omega)
    exact iff_of_true hkept fun g hg => by cases hg
  | some k =>
    have htake : gens.take (gens.length - 4 + 1) = gens.take (gens.length - 4) ++ [k] := by
      rw [List.take_add_one, hk]
      rfl
    have hlast : lastShelf gens = shelf k (gens.drop (gens.length - 4 + 1)) := by
      rw [lastShelf, hk]
      rfl
    rw [keptShelf, htake, pile_append] at hkept
    rw [hlast]
    constructor
    · intro h' g hg k' hk' n hn hgn
      obtain rfl : k = k' := Option.some.inj hk'
      obtain ⟨c, hc⟩ := Option.ne_none_iff_exists'.mp hgn
      have hslot : slotOf n = (.base, n) :=
        slotOf_of_unprefixed (h.storable (List.mem_of_mem_take hg) n c hc).1
      have heq := (hkept.lookup n hn).symm.trans (h'.lookup n hn)
      rw [hslot] at heq
      have hsame : onTop k (pile (gens.take (gens.length - 4))) n = k n :=
        Option.map_injective (fun _ _ h => Node.regular.inj h) heq
      intro hkn
      rw [onTop, hkn, Option.none_or, pile_eq_none_iff] at hsame
      exact hgn (hsame g hg)
    · intro hall
      have hbase : ∀ n, n ≠ lastReboot →
          onTop k (pile (gens.take (gens.length - 4))) n = k n := by
        intro n hn
        rw [onTop]
        cases hkn : k n with
        | some c => rfl
        | none =>
          rw [Option.none_or, pile_eq_none_iff]
          intro g hg
          by_contra hgn
          exact hall g hg k rfl n hn hgn hkn
      refine ⟨fun x hx => ?_, fun c hc => ?_, hkept.regular⟩
      · rw [hkept.lookup x hx]
        obtain ⟨⟨s, r⟩, hsr⟩ : ∃ p, slotOf x = p := ⟨_, rfl⟩
        have hxr := eq_ext_append hsr
        rw [hsr]
        cases s with
        | base =>
          rw [show x = r from hxr] at hx
          exact congrArg _ (hbase r hx)
        | bak1 | bak2 | bak3 => rfl
      · refine hkept.marker c ?_
        have hc' : k lastReboot = some c := hc
        change onTop k _ lastReboot = some c
        rw [onTop, hc']
        rfl

/-! ### Runs exist -/

/-- The generation with these files. -/
def filesOf (files : List (Name × List Char)) : Generation := fun n => files.lookup n

lemma filesOf_cons (p : Name × List Char) (files : List (Name × List Char)) (n : Name) :
    filesOf (p :: files) n = if n = p.1 then some p.2 else filesOf files n := by
  obtain ⟨m, c⟩ := p
  rw [filesOf, List.lookup_cons]
  by_cases hn : n = m
  · simp [hn]
  · rw [if_neg hn, beq_eq_false_iff_ne.mpr hn]
    rfl

lemma mem_of_filesOf {files : List (Name × List Char)} (h : filesOf files n = some c) :
    (n, c) ∈ files := by
  induction files with
  | nil => cases h
  | cons p files ih =>
    rw [filesOf_cons] at h
    split_ifs at h with hn
    · subst hn
      obtain rfl := Option.some.inj h
      exact List.mem_cons_self
    · exact List.mem_cons_of_mem _ (ih h)

lemma exists_erased (d : Disk) (ls : List Loc) : ∃ d' : Disk,
    (∀ l ∈ ls, d'.lookup l = none) ∧ ∀ l ∉ ls, d'.lookup l = d.lookup l := by
  induction ls with
  | nil => exact ⟨d, by simp, fun l _ => rfl⟩
  | cons k ls ih =>
    obtain ⟨d', hnone, hsame⟩ := ih
    refine ⟨d'.erase k, fun l hl => ?_, fun l hl => ?_⟩
    · by_cases hk : l = k
      · subst hk
        exact Finmap.lookup_erase _ _
      · rw [Finmap.lookup_erase_ne hk]
        exact hnone l ((List.mem_cons.mp hl).resolve_left hk)
    · obtain ⟨hk, hl⟩ := not_or.mp (mt List.mem_cons.mpr hl)
      rw [Finmap.lookup_erase_ne hk]
      exact hsame l hl

lemma exists_inserted (d : Disk) (files : List (Name × List Char)) :
    ∃ d' : Disk, (∀ n, d'.lookup (.prev, n) = d.lookup (.prev, n)) ∧
      ∀ n, d'.lookup (.log, n) = ((filesOf files n).map Node.regular).or (d.lookup (.log, n)) := by
  induction files with
  | nil => exact ⟨d, fun _ => rfl, fun _ => rfl⟩
  | cons p files ih =>
    obtain ⟨d', hprev, hlog⟩ := ih
    refine ⟨d'.insert (.log, p.1) (.regular p.2), fun n => ?_, fun n => ?_⟩
    · rw [Finmap.lookup_insert_of_ne _ (by simp)]
      exact hprev n
    · rw [filesOf_cons]
      split_ifs with hn
      · subst hn
        simp
      · rw [Finmap.lookup_insert_of_ne _ (by simpa using hn), hlog]

/-- A boot may find any files in `LOG_PATH`. -/
lemma exists_holdsLogs (d : Disk) (files : List (Name × List Char)) :
    ∃ d₁ : Disk, (∀ n, d₁.lookup (.prev, n) = d.lookup (.prev, n)) ∧
      HoldsLogs d₁ (filesOf files) := by
  obtain ⟨d', hnone, hsame⟩ := exists_erased d (d.keys.toList.filter fun l => l.1 = .log)
  obtain ⟨d₁, hprev, hlog⟩ := exists_inserted d' files
  refine ⟨d₁, fun n => ?_, fun n => ?_⟩
  · rw [hprev, hsame _ (by simp)]
  · have hnone' : d'.lookup (.log, n) = none := by
      by_cases hd : (.log, n) ∈ d
      · exact hnone _ (by simpa [Finmap.mem_keys] using hd)
      · rw [hsame _ (by simpa [Finmap.mem_keys] using hd)]
        exact Finmap.lookup_eq_none.mpr hd
    rw [hlog, hnone', Option.or_none]

lemma exists_boots {boots : List (List (Name × List Char))}
    (h : ∀ files ∈ boots, Bootable config (filesOf files)) :
    ∃ d, Boots config (boots.map fun files => moved (filesOf files)) d := by
  induction boots using List.reverseRecOn with
  | nil => exact ⟨∅, .start fun n => Finmap.lookup_empty _⟩
  | append_singleton boots files ih =>
    obtain ⟨d, hd⟩ := ih fun files hf => h files (List.mem_append_left _ hf)
    obtain ⟨d₁, hprev, hlogs⟩ := exists_holdsLogs d files
    rw [List.map_append]
    exact ⟨_, hd.boot hprev hlogs (h files (by simp)) reliable_withCopies fun _ => rfl⟩

/-- The first boot logs to a file that the later ones do not have. -/
def manyBoots : List (List (Name × List Char)) :=
  [(sysLog, "0".toList), ("app.txt".toList, "app".toList)] ::
    List.replicate 4 [(sysLog, "1".toList)]

def plainBoots : List (List (Name × List Char)) :=
  [(sysLog, "0".toList)] ::
    List.replicate 4 [(sysLog, "1".toList), ("app.txt".toList, "app".toList)]

lemma bootable_filesOf {files : List (Name × List Char)} (hmessages : filesOf files sysLog ≠ none)
    (hnames : ∀ p ∈ files, (¬bak1 <+: p.1 ∧ ¬bak2 <+: p.1 ∧ ¬bak3 <+: p.1) ∧ ¬IsDot p.1 ∧
      (config.slash .log ++ p.1).length < pathMax ∧
      (config.slash .prev ++ bak1 ++ p.1).length < pathMax) : Bootable config (filesOf files) :=
  ⟨hmessages, fun n c h => hnames (n, c) (mem_of_filesOf h)⟩

theorem app_kept : ∃ d, Boots prevConfig (plainBoots.map fun files => moved (filesOf files)) d ∧
    Stores d (lastShelf (plainBoots.map fun files => moved (filesOf files))) := by
  obtain ⟨d, hd⟩ := @exists_boots prevConfig plainBoots fun files hf =>
    bootable_filesOf (by revert files; decide) (by revert files; decide)
  refine ⟨d, hd, (lastGenerations_iff ⟨by decide, by decide⟩ hd).mpr ?_⟩
  intro g hg k hk n _ hgn
  obtain rfl : g = moved (filesOf [(sysLog, "0".toList)]) := List.mem_singleton.mp hg
  obtain rfl := Option.some.inj hk
  have hsys : n = sysLog := by
    by_contra hne
    refine hgn ?_
    rw [moved, filesOf_cons, if_neg hne]
    split_ifs <;> rfl
  subst hsys
  decide

theorem app_not_dropped : ∃ d,
    Boots prevConfig (manyBoots.map fun files => moved (filesOf files)) d ∧
      ¬Stores d (lastShelf (manyBoots.map fun files => moved (filesOf files))) := by
  obtain ⟨d, hd⟩ := @exists_boots prevConfig manyBoots fun files hf =>
    bootable_filesOf (by revert files; decide) (by revert files; decide)
  refine ⟨d, hd, fun hlast => ?_⟩
  have hkept := hd.stores ⟨by decide, by decide⟩
  have heq := (hkept.lookup "app.txt".toList (by decide)).symm.trans (hlast.lookup _ (by decide))
  exact absurd heq (by decide)

end DcmAgent.Backup
