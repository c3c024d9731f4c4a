import Mathlib.Tactic
import DcmAgent.Library.Keyed
import DcmAgent.Reboot.Timestamps
import DcmAgent.Strategies.Collect

/-!
# Where the logs of a boot end

A run of the reboot strategy whose setup has succeeded gives the logs a timestamp, archives them,
takes the timestamps off again, and moves the logs to the permanent backup, whatever the archive and
the upload have come to. Each of these steps can fail for some of the logs. By their names without
the timestamp the logs stay what they are, so no renaming replaces a log by another one; a log can
only get lost in the end, when it could not be moved and the directory is wiped.
-/

namespace DcmAgent.Reboot

open Library
open Library.Directory (keyed)
open Archive (maxFilenameLength)

variable {env : Env} {timestamp n m k : Name} {x : Node} {d d' L : Directory Node} {s : State}

/-! ### Names without the timestamp -/

/-- The name of a log without the timestamp of the run. -/
def base (timestamp n : Name) : Name :=
  if StampedBefore timestamp n then n.drop timestamp.length else n

lemma base_stamped (hn : n ≠ []) : base timestamp (timestamp ++ n) = n := by
  rw [base, if_pos, List.drop_left]
  refine ⟨List.prefix_append _ _, fun heq => hn ?_⟩
  exact List.append_right_eq_self.mp heq

lemma base_of_not (h : ¬StampedBefore timestamp n) : base timestamp n = n := if_neg h

lemma eq_or_of_base (h : base timestamp k = n) : k = n ∨ k = timestamp ++ n := by
  rw [base] at h
  split_ifs at h with hstamped
  · obtain ⟨⟨m, rfl⟩, -⟩ := hstamped
    rw [List.drop_left] at h
    exact Or.inr (by rw [h])
  · exact Or.inl h

/-- The names of the logs, none of which has the timestamp already. -/
structure Unstamped (timestamp : Name) (L : Directory Node) : Prop extends WellFormed L where
  unstamped : ∀ n ∈ L.names, ¬StampedBefore timestamp n

lemma Unstamped.of_perm (h : Unstamped timestamp L) (hperm : d.Perm L) : Unstamped timestamp d := by
  have hmem : ∀ n, n ∈ d.names ↔ n ∈ L.names := fun n => (hperm.map Prod.fst).mem_iff
  refine ⟨⟨(hperm.map Prod.fst).nodup_iff.mpr h.nodup, ?_⟩, fun n hn => ?_⟩
  · rw [hmem]
    exact h.nonempty
  · exact h.unstamped n ((hmem n).mp hn)

lemma keyed_of_unstamped (h : Unstamped timestamp d) : d.keyed (base timestamp) = d := by
  refine (List.map_congr_left fun p hp => ?_).trans (List.map_id _)
  rw [base_of_not (h.unstamped _ (Directory.mem_names_iff.mpr ⟨p.2, hp⟩))]
  rfl

/-! ### Renaming -/

/-- The loops over the directory, for names that keep their base. -/
lemma perm_keyed_renameEach {newName : Name → Option Name} (hL : Unstamped timestamp L)
    (hkey : ∀ n m, newName n = some m → base timestamp n ∈ L.names →
      base timestamp m = base timestamp n) (loop : Loop)
    (h : (d.keyed (base timestamp)).Perm L) :
    ((renameEach env loop newName d).keyed (base timestamp)).Perm L := by
  have hstep : ∀ (l : List Name) (d : Directory Node), (d.keyed (base timestamp)).Perm L →
      ((l.foldl (renameEntry (env.renames loop) newName) d).keyed (base timestamp)).Perm L := by
    intro l
    induction l with
    | nil => exact fun d h => h
    | cons n l ih =>
      intro d h
      refine ih _ ?_
      unfold renameEntry
      cases hnew : newName n with
      | none => exact h
      | some m =>
        dsimp only
        split_ifs
        · have hnodup := (hL.of_perm h).nodup
          refine (Directory.perm_keyed_rename hnodup fun hn => hkey n m hnew ?_).trans h
          have hmem : base timestamp n ∈ (d.keyed (base timestamp)).names := by
            rw [Directory.names_keyed]
            exact List.mem_map_of_mem hn
          exact (h.map Prod.fst).mem_iff.mp hmem
        · exact h
  rw [renameEach]
  cases env.readdir loop d with
  | none => exact h
  | some entries => exact hstep entries d h

lemma perm_keyed_stamped (hL : Unstamped timestamp L) (htime : env.timestamp = some timestamp)
    (statics : Statics) (h : (d.keyed (base timestamp)).Perm L) :
    ((stamped env statics d).keyed (base timestamp)).Perm L := by
  rw [stamped, addTimestampToFiles, htime]
  refine perm_keyed_renameEach hL (fun n m hnew hmem => ?_) _ h
  obtain ⟨rfl, hplain⟩ := stampedName_eq_some hnew
  have hbase : base timestamp n = n := base_of_not fun hstamped => hplain.1 (Or.inr hstamped.1)
  rw [hbase] at hmem ⊢
  exact base_stamped fun heq => hL.nonempty (heq ▸ hmem)

lemma perm_keyed_unstamped (hL : Unstamped timestamp L) (hpos : 0 < timestamp.length)
    (hle : timestamp.length ≤ 19) {statics : Statics}
    (hstatics : statics.timestampPrefix = timestamp) (h : (d.keyed (base timestamp)).Perm L) :
    ((removeTimestampFromFiles env statics d).keyed (base timestamp)).Perm L := by
  rw [removeTimestampFromFiles, hstatics]
  refine perm_keyed_renameEach hL (fun n m hnew hmem => ?_) _ h
  obtain ⟨rfl, hne⟩ := originalName_eq_some hpos hle hnew
  rw [base_stamped hne] at hmem ⊢
  exact base_of_not (hL.unstamped _ hmem)

/-- The calls that take the timestamp off the name succeed. -/
structure Restores (env : Env) (timestamp n : Name) : Prop where
  reads : ∀ d, env.readdir .removeTimestamp d ≠ none
  renames : env.renames .removeTimestamp (timestamp ++ n) = true
  fits : Fits env.prevLogPath (timestamp ++ n)

/-- Then it is taken off. -/
lemma stamped_notMem (hL : Unstamped timestamp L) (hpos : 0 < timestamp.length)
    (hle : timestamp.length ≤ 19) (hhead : timestamp.head? ≠ some '.') {statics : Statics}
    (hstatics : statics.timestampPrefix = timestamp) (h : (d.keyed (base timestamp)).Perm L)
    (hn : n ≠ []) (hrestores : Restores env timestamp n) :
    timestamp ++ n ∉ (removeTimestampFromFiles env statics d).names := by
  obtain ⟨entries, hread⟩ := Option.ne_none_iff_exists'.mp (hrestores.reads d)
  obtain ⟨f, hf⟩ : ∃ f : Name → Option Name, f = fun n =>
      if env.renames .removeTimestamp n then originalName env timestamp n else none := ⟨_, rfl⟩
  have hstep : renameEntry (env.renames .removeTimestamp) (originalName env timestamp) =
      Directory.renameBy f := by
    funext d n
    rw [hf]
    unfold renameEntry Directory.renameBy
    by_cases hren : env.renames .removeTimestamp n
    · simp only [hren, if_true]
      cases originalName env timestamp n <;> rfl
    · simp only [hren, Bool.false_eq_true, if_false]
      cases originalName env timestamp n <;> rfl
  have hbases : ∀ k ∈ d.names, base timestamp k ∈ L.names := by
    intro k hk
    refine (h.map Prod.fst).mem_iff.mp ?_
    have hmem := List.mem_map_of_mem (f := base timestamp) hk
    rwa [← Directory.names_keyed] at hmem
  intro hmem
  rw [removeTimestampFromFiles, hstatics, renameEach, hread, hstep] at hmem
  obtain ⟨-, hnot | ⟨hold, hturn⟩⟩ := Directory.mem_names_foldl_renameBy
    (P := fun k => base timestamp k ∈ L.names) (R := fun k => ¬StampedBefore timestamp k)
    (by
      intro k m hk hm
      have hm : originalName env timestamp k = some m := by
        simp only [hf] at hm
        split_ifs at hm
        exact hm
      obtain ⟨rfl, hne⟩ := originalName_eq_some hpos hle hm
      rw [base_stamped hne] at hk
      rw [base_of_not (hL.unstamped _ hk)]
      exact ⟨hk, hL.unstamped _ hk⟩) hbases _ hmem
  · exact hnot ⟨List.prefix_append _ _, fun heq => hn (List.append_right_eq_self.mp heq)⟩
  · have hnone := hturn (env.complete _ d entries _ hread hold)
    rw [hf] at hnone
    simp only [hrestores.renames, if_true] at hnone
    rw [originalName_stamped hhead hpos hn hrestores.fits] at hnone
    cases hnone

/-! ### The archive -/

/-- The archive phase leaves the logs alone. What it adds, the archive and packet captures, has
names of its own. -/
structure Adds (timestamp : Name) (d d' : Directory Node) : Prop where
  nodup : d'.names.Nodup
  kept : ∀ n ∈ d.names, d'.lookup n = d.lookup n
  added : ∀ n ∈ d'.names, n ∉ d.names →
    n ≠ [] ∧ ¬StampedBefore timestamp n ∧ timestamp ++ n ∉ d.names

/-- With what has been added, the names without the timestamp are apart still. -/
lemma Adds.unstamped (h : Adds timestamp d d')
    (hd : Unstamped timestamp (d.keyed (base timestamp))) :
    Unstamped timestamp (d'.keyed (base timestamp)) := by
  have hapart : ∀ n ∈ d'.names, ∀ m ∈ d'.names, m ∉ d.names →
      base timestamp n = base timestamp m → n = m := by
    intro n hn m hm hmnew heq
    obtain ⟨-, hm', hnot⟩ := h.added m hm hmnew
    rw [base_of_not hm'] at heq
    by_cases hnold : n ∈ d.names
    · rcases eq_or_of_base heq with rfl | rfl
      · rfl
      · exact absurd hnold hnot
    · rwa [base_of_not (h.added n hn hnold).2.1] at heq
  have hold : ∀ n ∈ d.names, base timestamp n ∈ (d.keyed (base timestamp)).names := by
    intro n hn
    rw [Directory.names_keyed]
    exact List.mem_map_of_mem hn
  refine ⟨⟨?_, ?_⟩, ?_⟩
  · rw [Directory.names_keyed]
    refine List.Nodup.map_on (fun n hn m hm heq => ?_) h.nodup
    by_cases hmold : m ∈ d.names
    · by_cases hnold : n ∈ d.names
      · exact Directory.eq_of_key hd.nodup hnold hmold heq
      · exact (hapart m hm n hn hnold heq.symm).symm
    · exact hapart n hn m hm hmold heq
  · rw [Directory.names_keyed]
    intro hmem
    obtain ⟨n, hn, heq⟩ := List.mem_map.mp hmem
    by_cases hnold : n ∈ d.names
    · exact hd.nonempty (heq ▸ hold n hnold)
    · obtain ⟨hne, hn', -⟩ := h.added n hn hnold
      rw [base_of_not hn'] at heq
      exact hne heq
  · rw [Directory.names_keyed]
    intro b hb
    obtain ⟨n, hn, rfl⟩ := List.mem_map.mp hb
    by_cases hnold : n ∈ d.names
    · exact hd.unstamped _ (hold n hnold)
    · obtain ⟨-, hn', -⟩ := h.added n hn hnold
      rwa [base_of_not hn']

lemma Adds.refl (h : d.names.Nodup) : Adds timestamp d d :=
  ⟨h, fun _ _ => rfl, fun _ hn hnot => absurd hn hnot⟩

lemma mem_names_set {o : Option Node} (h : n ∈ (d.set m o).names) : n = m ∨ n ∈ d.names := by
  by_contra hno
  obtain ⟨hne, hnot⟩ := not_or.mp hno
  refine Directory.lookup_eq_none_iff.mp ?_ h
  rw [Directory.lookup_set, if_neg hne, Directory.lookup_eq_none_iff.mpr hnot]

/-- A name that none of the logs has, with the timestamp or without it. -/
structure OwnName (timestamp : Name) (d : Directory Node) (n : Name) : Prop where
  ne_nil : n ≠ []
  unstamped : ¬StampedBefore timestamp n
  notMem : n ∉ d.names

lemma OwnName.notMem_stamped (h : OwnName timestamp L m)
    (hperm : (d.keyed (base timestamp)).Perm L) : m ∉ d.names ∧ timestamp ++ m ∉ d.names := by
  have hbase : ∀ k ∈ d.names, base timestamp k ∈ L.names := by
    intro k hk
    refine (hperm.map Prod.fst).mem_iff.mp ?_
    have hmem := List.mem_map_of_mem (f := base timestamp) hk
    rwa [← Directory.names_keyed] at hmem
  constructor
  · intro hm
    have hmem := hbase m hm
    rw [base_of_not h.unstamped] at hmem
    exact h.notMem hmem
  · intro hm
    have hmem := hbase _ hm
    rw [base_stamped h.ne_nil] at hmem
    exact h.notMem hmem

lemma Adds.set (h : Adds timestamp d d') (hm : OwnName timestamp L m)
    (hperm : (d.keyed (base timestamp)).Perm L) (o : Option Node) :
    Adds timestamp d (d'.set m o) := by
  obtain ⟨hnot, hnot'⟩ := hm.notMem_stamped hperm
  refine ⟨Directory.nodup_set h.nodup, fun n hn => ?_, fun n hn hnew => ?_⟩
  · have hne : n ≠ m := fun heq => hnot (heq ▸ hn)
    rw [Directory.lookup_set, if_neg hne, h.kept n hn]
  · rcases mem_names_set hn with rfl | hn
    · exact ⟨hm.ne_nil, hm.unstamped, hnot'⟩
    · exact h.added n hn hnew

/-- What the archive phase puts to the logs `d` has names of its own, and the session has room for
the path of the archive. -/
structure Packs (env : Env) (timestamp : Name) (d : Directory Node) : Prop where
  archive : ∀ n, env.archiveName = some n → OwnName timestamp d n ∧ '/' ∉ n ∧
    (pathOf env.prevLogPath n).length < maxFilenameLength
  capture : ∀ n, env.includePcap = true →
    newestPcap env.toPackCalls (env.logs.getD []) = some n → OwnName timestamp d n

lemma Packs.collectPcapLogs (h : Packs env timestamp L) (hadds : Adds timestamp d d')
    (hperm : (d.keyed (base timestamp)).Perm L) :
    Adds timestamp d (collectPcapLogs env.toPackCalls env.logs d') := by
  cases hlogs : env.logs with
  | none => exact hadds
  | some l =>
    rw [Reboot.collectPcapLogs]
    by_cases hopens : ¬(env.includePcap ∧ env.opensForPcap)
    · rwa [if_pos hopens]
    rw [if_neg hopens]
    cases hnewest : newestPcap env.toPackCalls l with
    | none => exact hadds
    | some n =>
      rw [Option.bind_some]
      cases l.lookup n with
      | none => exact hadds
      | some x =>
        refine hadds.set (h.capture n (not_not.mp hopens).1 ?_) hperm _
        rw [hlogs]
        exact hnewest

lemma fits_of_lt (h : (pathOf env.prevLogPath n).length < maxFilenameLength) :
    Fits env.prevLogPath n := h.trans (by decide)

lemma Packs.createArchive (h : Packs env timestamp L) (hadds : Adds timestamp d d')
    (hperm : (d.keyed (base timestamp)).Perm L) (archiveFile : Name) :
    Adds timestamp d (createArchive env.toPackCalls env.prevLogPath archiveFile d').2.1 := by
  rw [Reboot.createArchive]
  cases hname : env.archiveName with
  | none => exact hadds
  | some n =>
    obtain ⟨hown, -, hlen⟩ := h.archive n hname
    dsimp only
    rw [archiveEntry_of_fits (fits_of_lt hlen), if_neg hown.ne_nil]
    exact hadds.set hown hperm _

/-- The archive of the session is none of the logs. -/
def Archived (env : Env) (d : Directory Node) (archiveFile : Name) : Prop :=
  env.prevLogPath ++ ['/'] <+: archiveFile →
    archiveFile.drop (env.prevLogPath.length + 1) ∉ d.names

lemma archived_nil (env : Env) (d : Directory Node) : Archived env d [] := by
  rintro ⟨rest, h⟩
  simp at h

lemma Packs.archived (h : Packs env timestamp L) (hperm : (d.keyed (base timestamp)).Perm L)
    (hname : env.archiveName = some n) : Archived env d n ∧
      Archived env d ((pathOf env.prevLogPath n).take (maxFilenameLength - 1)) := by
  obtain ⟨hown, hslash, hlen⟩ := h.archive n hname
  constructor
  · intro hstart
    exact absurd (hstart.subset (by simp)) hslash
  · intro _
    have hsplit : pathOf env.prevLogPath n = (env.prevLogPath ++ ['/']) ++ n := by simp [pathOf]
    rw [List.take_of_length_le (Nat.le_sub_one_of_lt hlen), hsplit,
      List.drop_left' (by simp)]
    exact (hown.notMem_stamped hperm).1

/-! ### Moving and wiping -/

lemma lookup_moveEntry (env : Env) (permLogPath : List Char)
    (dirs : Directory Node × Directory Node) (n k : Name) :
    (moveEntry env permLogPath dirs n).1.lookup k =
        (if k = n ∧ Moves env permLogPath k then none else dirs.1.lookup k) ∧
      (moveEntry env permLogPath dirs n).2.lookup k =
        if k = n ∧ Moves env permLogPath k then (dirs.1.lookup k).or (dirs.2.lookup k)
        else dirs.2.lookup k := by
  unfold moveEntry
  cases hn : dirs.1.lookup n with
  | none =>
    by_cases hk : k = n
    · subst hk
      simp [hn]
    · simp [hk]
  | some x =>
    dsimp only
    by_cases hmoves : Moves env permLogPath n
    · rw [if_pos hmoves, Directory.lookup_remove, Directory.lookup_put]
      by_cases hk : k = n
      · subst hk
        simp [hmoves, hn]
      · simp [hk]
    · rw [if_neg hmoves]
      by_cases hk : k = n
      · subst hk
        simp [hmoves]
      · simp [hk]

/-- An entry that has its turn is moved if it can be. -/
lemma lookup_foldl_moveEntry (env : Env) (permLogPath : List Char) (entries : List Name) (k : Name)
    (dirs : Directory Node × Directory Node) :
    (entries.foldl (moveEntry env permLogPath) dirs).1.lookup k =
        (if k ∈ entries ∧ Moves env permLogPath k then none else dirs.1.lookup k) ∧
      (entries.foldl (moveEntry env permLogPath) dirs).2.lookup k =
        if k ∈ entries ∧ Moves env permLogPath k then (dirs.1.lookup k).or (dirs.2.lookup k)
        else dirs.2.lookup k := by
  induction entries generalizing dirs with
  | nil => simp
  | cons n entries ih =>
    obtain ⟨hsrc, hdest⟩ := ih (moveEntry env permLogPath dirs n)
    obtain ⟨hsrc', hdest'⟩ := lookup_moveEntry env permLogPath dirs n k
    rw [List.foldl_cons, hsrc, hdest, hsrc', hdest']
    by_cases hmoves : Moves env permLogPath k
    · by_cases hk : k = n
      · subst hk
        simp [hmoves]
      · simp [hk, hmoves]
    · simp [hmoves]

/-- An entry that stays in a directory that is wiped. -/
def Wiped (env : Env) (permLogPath : List Char) (k : Name) : Prop :=
  env.createsDirectory = true ∧ env.clears k = true ∧
    (¬Moves env permLogPath k ∨ ∃ d, env.readdir .move d = none)

/-- An entry is moved, or it stays unless it is wiped. -/
lemma moved_or_stays (env : Env) (hcreates : env.createsDirectory = true) (permLogPath : List Char)
    (backup : Directory Node) (hk : d.lookup k = some x) :
    (moveDirectoryContents env permLogPath d backup).2.lookup k = some x ∨
      (cleanDirectory env (moveDirectoryContents env permLogPath d backup).1).lookup k = some x ∨
        Wiped env permLogPath k := by
  have hclean : ∀ d' : Directory Node, d'.lookup k = some x →
      (cleanDirectory env d').lookup k = some x ∨ env.clears k = true := by
    intro d' hd'
    have hfilter := Directory.lookup_filter (d := d') (n := k) fun n => decide ¬env.clears n = true
    rw [cleanDirectory, hfilter]
    by_cases hclears : env.clears k
    · exact Or.inr hclears
    · left
      rw [if_pos (by simp [hclears]), hd']
  rw [moveDirectoryContents]
  cases hread : env.readdir .move d with
  | none =>
    exact Or.inr ((hclean d hk).imp_right fun hclears => ⟨hcreates, hclears, Or.inr ⟨d, hread⟩⟩)
  | some entries =>
    have hmem : k ∈ d.names := by
      by_contra hnot
      rw [Directory.lookup_eq_none_iff.mpr hnot] at hk
      cases hk
    obtain ⟨hsrc, hdest⟩ := lookup_foldl_moveEntry env permLogPath entries k (d, backup)
    dsimp only
    by_cases hmoves : Moves env permLogPath k
    · left
      rw [hdest, if_pos ⟨env.complete _ d entries k hread hmem, hmoves⟩, hk]
      rfl
    · rw [if_neg fun h => hmoves h.2] at hsrc
      exact Or.inr ((hclean _ (hsrc.trans hk)).imp_right fun hclears =>
        ⟨hcreates, hclears, Or.inl hmoves⟩)

/-! ### The phases of a run -/

/-- A setup that succeeds has given the logs their timestamps, and has stored the path of the
permanent backup. -/
lemma rebootSetup_done (h : (rebootSetup env s).1 = 0) :
    ∃ d time, s.prev = some d ∧ env.permTimestamp = some time ∧ (rebootSetup env s).2 =
      { s with
        statics := (addTimestampToFiles env { s.statics with
          permLogPath := pathOf env.logPath time } (refreshPrev env d)).1
        prev := some (addTimestampToFiles env { s.statics with
          permLogPath := pathOf env.logPath time } (refreshPrev env d)).2
        backups := fun p => if env.expired p then [] else s.backups p } := by
  obtain ⟨statics, prev, backups, archiveFile⟩ := s
  rw [rebootSetup] at h ⊢
  by_cases hdone : ¬env.backupLogsDone
  · rw [if_pos hdone] at h
    cases h
  · rw [if_neg hdone] at h ⊢
    cases prev with
    | none => cases h
    | some d =>
      dsimp only at h ⊢
      by_cases hlogs : ¬hasLogFiles d
      · rw [if_pos hlogs] at h
        cases h
      · rw [if_neg hlogs] at h ⊢
        cases htime : env.permTimestamp with
        | none =>
          rw [htime] at h
          cases h
        | some time =>
          rw [htime] at h
          dsimp only at h ⊢
          split_ifs at h ⊢
          · exact ⟨d, time, rfl, rfl, rfl⟩
          · exact absurd h (by simp)
          · exact absurd h (by simp)
          · exact absurd h (by simp)

/-- After a setup that has succeeded, the later phases leave the logs where they are. -/
lemma prev_runPhases {s' : State} (hsetup : rebootSetup env s = (0, s')) (hprev : s'.prev = some d)
    (hfile : s'.archiveFile = []) (hnodup : d.names.Nodup) (hpacks : Packs env timestamp L)
    (hperm : (d.keyed (base timestamp)).Perm L) :
    ∃ s₂ d', (runPhases (rebootStrategyHandler env) s).2.2 = s₂ ∧ s₂.statics = s'.statics ∧
      s₂.prev = some d' ∧ Adds timestamp d d' ∧ Archived env d s₂.archiveFile := by
  obtain ⟨s₁, hs₁⟩ : ∃ s₁, s₁ = (rebootArchive env s').2 := ⟨_, rfl⟩
  have hstatics : s₁.statics = s'.statics := by rw [hs₁, statics_rebootArchive]
  obtain ⟨d', hprev₁, hadds⟩ : ∃ d', s₁.prev = some d' ∧ Adds timestamp d d' := by
    have hcollect := hpacks.collectPcapLogs (Adds.refl hnodup) hperm
    refine ⟨_, ?_, hpacks.createArchive hcollect hperm s'.archiveFile⟩
    rw [hs₁, rebootArchive, hprev]
  have hfile₁ : (rebootArchive env s').1 ≠ 0 ∧ s₁.archiveFile = [] ∨
      (rebootArchive env s').1 = 0 ∧ env.archiveName = some s₁.archiveFile := by
    rw [hs₁, rebootArchive, hprev, ← hfile]
    exact archiveFile_createArchive _ _ _
  have harchived : Archived env d s₁.archiveFile := by
    rcases hfile₁ with ⟨-, hnil⟩ | ⟨-, hname⟩
    · rw [hnil]
      exact archived_nil env d
    · exact (hpacks.archived hperm hname).1
  have hstart : (rebootStrategyHandler env).setupPhase s = (0, s') := hsetup
  rw [runPhases, hstart, if_neg (by simp)]
  dsimp only
  by_cases harchive : ((rebootStrategyHandler env).archivePhase s').1 ≠ 0
  · rw [if_pos harchive]
    exact ⟨s₁, d', hs₁.symm, hstatics, hprev₁, hadds, harchived⟩
  · rw [if_neg harchive]
    change ∃ s₂ d', (rebootUpload env (rebootArchive env s').2).2 = s₂ ∧ _
    rw [← hs₁]
    rcases rebootUpload_snd env s₁ with hend | hend
    · exact ⟨s₁, d', hend, hstatics, hprev₁, hadds, harchived⟩
    · refine ⟨_, d', hend, hstatics, hprev₁, hadds, ?_⟩
      obtain ⟨-, hname⟩ := hfile₁.resolve_left fun h => harchive h.1
      exact (hpacks.archived hperm hname).2

/-- How the cleanup phase ends for the directory `d` whose archive and timestamps are gone. -/
inductive CleanupRule (env : Env) (s : State) (d : Directory Node) : State → Prop where
  | failed (s') (hcreates : env.createsDirectory = false) (hprev : s'.prev = some d) :
    CleanupRule env s d s'
  | moved (s') (hcreates : env.createsDirectory = true)
      (hprev : s'.prev = some (cleanDirectory env (moveDirectoryContents env s.statics.permLogPath d
        (s.backups s.statics.permLogPath)).1))
      (hbackups : s'.backups s.statics.permLogPath = (moveDirectoryContents env
        s.statics.permLogPath d (s.backups s.statics.permLogPath)).2) : CleanupRule env s d s'

variable (env) in
lemma CleanupRule.of_rebootCleanup (hprev : s.prev = some d) (hperm : s.statics.permLogPath ≠ [])
    (b : Bool) : CleanupRule env s
      (removeTimestampFromFiles env s.statics (removeArchive env s.archiveFile d))
      (rebootCleanup env b s).2 := by
  rw [rebootCleanup, hprev, Option.map_some]
  cases hcreates : env.createsDirectory with
  | false =>
    rw [if_pos (by simp [createDirectory, hcreates])]
    exact .failed _ hcreates rfl
  | true =>
    rw [if_neg (by simp [createDirectory, hperm, hcreates])]
    exact .moved _ hcreates rfl (Function.update_self _ _ _)

/-- The cleanup phase of a run that has stored its timestamp takes it off again. -/
lemma exists_restored (hL : Unstamped timestamp (d.keyed (base timestamp)))
    (hpos : 0 < timestamp.length) (hle : timestamp.length ≤ 19)
    (hhead : timestamp.head? ≠ some '.') {statics : Statics}
    (hstatics : statics.timestampPrefix = timestamp) (hadds : Adds timestamp d d')
    {archiveFile : List Char} (harchive : Archived env d archiveFile)
    (hn : (n, x) ∈ d.keyed (base timestamp)) :
    ∃ k, (k = n ∨ k = timestamp ++ n ∧ ¬Restores env timestamp n) ∧
      (removeTimestampFromFiles env statics (removeArchive env archiveFile d')).lookup k =
        some x := by
  obtain ⟨d₁, hd₁⟩ : ∃ d₁, d₁ = removeArchive env archiveFile d' := ⟨_, rfl⟩
  have hunstamped := hadds.unstamped hL
  have hlook₁ : ∀ n ∈ d.names, d₁.lookup n = d.lookup n := by
    intro n hn
    rw [hd₁, removeArchive]
    split_ifs with hremoves
    · have hne : n ≠ archiveFile.drop (env.prevLogPath.length + 1) := fun heq =>
        harchive hremoves.1 (heq ▸ hn)
      rw [Directory.lookup_remove, if_neg hne, hadds.kept n hn]
    · exact hadds.kept n hn
  have hsub : d₁.Sublist d' := by
    rw [hd₁, removeArchive]
    split_ifs
    · exact List.filter_sublist
    · exact List.Sublist.refl _
  have hunstamped₁ : Unstamped timestamp (d₁.keyed (base timestamp)) := by
    have hnames : ((d₁.keyed (base timestamp)).names).Sublist (d'.keyed (base timestamp)).names :=
      (hsub.map _).map _
    exact ⟨⟨hnames.nodup hunstamped.nodup, fun h => hunstamped.nonempty (hnames.subset h)⟩,
      fun n hn => hunstamped.unstamped n (hnames.subset hn)⟩
  -- the names get shorter or stay
  obtain ⟨d₂, hd₂⟩ : ∃ d₂, d₂ = removeTimestampFromFiles env statics d₁ := ⟨_, rfl⟩
  have hperm₂ : (d₂.keyed (base timestamp)).Perm (d₁.keyed (base timestamp)) := by
    rw [hd₂]
    exact perm_keyed_unstamped hunstamped₁ hpos hle hstatics (.refl _)
  have hmem : (n, x) ∈ d₁.keyed (base timestamp) := by
    obtain ⟨k, hk, hlook⟩ := (Directory.mem_keyed (Directory.nodup_of_keyed hL.nodup)).mp hn
    refine (Directory.mem_keyed (Directory.nodup_of_keyed hunstamped₁.nodup)).mpr ⟨k, hk, ?_⟩
    rw [hlook₁ k, hlook]
    by_contra hnot
    rw [Directory.lookup_eq_none_iff.mpr hnot] at hlook
    cases hlook
  have hnodup₂ := Directory.nodup_of_keyed (hunstamped₁.of_perm hperm₂).nodup
  obtain ⟨k, hk, hlook⟩ := (Directory.mem_keyed hnodup₂).mp (hperm₂.mem_iff.mpr hmem)
  rw [← hd₁, ← hd₂]
  refine ⟨k, ?_, hlook⟩
  refine (eq_or_of_base hk).imp_right fun hstamped => ⟨hstamped, fun hrestores => ?_⟩
  have hne : n ≠ [] := fun heq => hL.nonempty (heq ▸ Directory.mem_names_iff.mpr ⟨x, hn⟩)
  refine stamped_notMem hunstamped₁ hpos hle hhead hstatics (.refl _) hne hrestores ?_
  rw [← hd₂, ← hstamped]
  by_contra hnot
  rw [Directory.lookup_eq_none_iff.mpr hnot] at hlook
  cases hlook

/-! ### Whole runs -/

lemma stamp_not_prefix (t : ℤ) : ¬stamp t <+: "backup_logs.log.0".toList := by
  rintro ⟨rest, hrest⟩
  have hdash : (stamp t ++ rest)[2]? = some '-' := rfl
  rw [hrest] at hdash
  exact absurd hdash (by decide)

/-- The old archive and the log of `backup_logs` do not matter. -/
lemma unstamped_refreshPrev {t : ℤ} (h : Unstamped (stamp t) d) (env : Env) :
    Unstamped (stamp t) (refreshPrev env (cleanupOldArchives env.unlinks [] d)) := by
  have hsub : ∀ d' : Directory Node, d'.names.Sublist d.names → Unstamped (stamp t) d' :=
    fun d' hsub => ⟨⟨hsub.nodup h.nodup, fun hmem => h.nonempty (hsub.subset hmem)⟩,
      fun n hn => h.unstamped n (hsub.subset hn)⟩
  have hclean := Strategies.names_cleanupOldArchives env.unlinks [] d
  obtain ⟨d', hd'⟩ : ∃ d', d' = if env.removesOldTar then
      Directory.remove (cleanupOldArchives env.unlinks [] d) "logs.tar.gz".toList
      else cleanupOldArchives env.unlinks [] d := ⟨_, rfl⟩
  have hold : Unstamped (stamp t) d' := by
    refine hsub d' ?_
    rw [hd']
    split_ifs
    · exact (List.filter_sublist.map _).trans hclean
    · exact hclean
  simp only [refreshPrev, ← hd']
  cases env.backupLogsLog with
  | none => exact hold
  | some x =>
    have hmem : ∀ n ∈ (d'.put "backup_logs.log.0".toList x).names,
        n = "backup_logs.log.0".toList ∨ n ∈ d'.names := by
      intro n hn
      by_contra hno
      obtain ⟨hne, hnot⟩ := not_or.mp hno
      refine Directory.lookup_eq_none_iff.mp ?_ hn
      rw [Directory.lookup_put, if_neg hne, Directory.lookup_eq_none_iff.mpr hnot]
    refine ⟨⟨Directory.nodup_set (o := some x) hold.nodup, fun hnil => ?_⟩, fun n hn => ?_⟩
    · exact (hmem _ hnil).elim (by simp) hold.nonempty
    · rcases hmem n hn with rfl | hn
      · exact fun hstamped => stamp_not_prefix t hstamped.1
      · exact hold.unstamped n hn

section Run

variable {t : ℤ} (hd : Unstamped (stamp t) d) (htime : env.timestamp = some (stamp t))
  {time : List Char} (hperm : env.permTimestamp = some time) {statics : Statics}
  {backups : List Char → Directory Node}
  (hsetup : (rebootSetup env (State.cleanupOldArchives env ⟨statics, some d, backups, []⟩)).1 = 0)
  (hpacks : Packs env (stamp t) (refreshPrev env (cleanupOldArchives env.unlinks [] d)))

include hd htime hperm hsetup hpacks

/-- The logs have their timestamps in between, and the cleanup phase finds them. -/
lemma exists_cleanupRule :
    ∃ s₂ d₂, s₂.statics.permLogPath = pathOf env.logPath time ∧
      CleanupRule env s₂ d₂ (rebootWorkflow env statics (some d) backups).2 ∧
      ∀ n x, (refreshPrev env (cleanupOldArchives env.unlinks [] d)).lookup n = some x →
        ∃ k, (k = n ∨ k = stamp t ++ n ∧ ¬Restores env (stamp t) n) ∧ d₂.lookup k = some x := by
  obtain ⟨d₁, hd₁⟩ : ∃ d₁, d₁ = refreshPrev env (cleanupOldArchives env.unlinks [] d) := ⟨_, rfl⟩
  have hunstamped := unstamped_refreshPrev hd env
  rw [← hd₁] at hunstamped hpacks ⊢
  have hstamped := perm_keyed_stamped hunstamped htime statics
    (.of_eq (keyed_of_unstamped hunstamped))
  obtain ⟨d', time', hprev, htime', hstate⟩ := rebootSetup_done hsetup
  obtain rfl : time' = time := Option.some.inj (htime'.symm.trans hperm)
  obtain rfl : cleanupOldArchives env.unlinks [] d = d' := Option.some.inj hprev
  rw [← hd₁] at hstate
  have hnodup := Directory.nodup_of_keyed (hunstamped.of_perm hstamped).nodup
  obtain ⟨s₂, d₂, hphases, hstatics, hprev₂, hadds, harchive⟩ :=
    prev_runPhases (Prod.ext hsetup hstate) rfl rfl hnodup hpacks hstamped
  have hprefix : s₂.statics.timestampPrefix = stamp t := by
    rw [hstatics, addTimestampToFiles, htime]
    rfl
  have hpath : s₂.statics.permLogPath = pathOf env.logPath time' := by
    rw [hstatics, addTimestampToFiles, htime]
    rfl
  have hnil : s₂.statics.permLogPath ≠ [] := by
    rw [hpath]
    exact pathOf_ne_nil _ _
  obtain ⟨b, hend⟩ : ∃ b, (rebootWorkflow env statics (some d) backups).2 =
      (rebootCleanup env b s₂).2 := by
    rw [rebootWorkflow, executeStrategyWorkflow_snd, hphases]
    exact ⟨(runPhases (rebootStrategyHandler env)
      (State.cleanupOldArchives env ⟨statics, some d, backups, []⟩)).2.1, rfl⟩
  have hrule := CleanupRule.of_rebootCleanup env hprev₂ hnil b
  rw [← hend] at hrule
  refine ⟨s₂, _, hpath, hrule, fun n x hn => ?_⟩
  have hmem : (n, x) ∈ (stamped env statics d₁).keyed (base (stamp t)) := by
    refine hstamped.mem_iff.mpr ?_
    exact (Directory.lookup_eq_some_iff hunstamped.nodup).mp hn
  refine exists_restored (hunstamped.of_perm hstamped) ?_ ?_ (head_stamp t) hprefix
    hadds harchive hmem
  · rw [length_stamp]
    omega
  · rw [length_stamp]
    omega

end Run

/-- **Where the logs of a boot end.** After a run whose setup has succeeded, from a directory in
which no name starts with the timestamp of this minute, each log is in the permanent backup or where
it has been, and under its own name unless the timestamp could not be taken off; or it could not be
moved, and the directory has been wiped. -/
theorem rebootWorkflow_keeps {t : ℤ} (hd : Unstamped (stamp t) d)
    (htime : env.timestamp = some (stamp t)) {time : List Char}
    (hperm : env.permTimestamp = some time) {statics : Statics}
    {backups : List Char → Directory Node}
    (hsetup : (rebootSetup env (State.cleanupOldArchives env ⟨statics, some d, backups, []⟩)).1 = 0)
    (hpacks : Packs env (stamp t) (refreshPrev env (cleanupOldArchives env.unlinks [] d)))
    {ret : ℤ} (h : rebootWorkflow env statics (some d) backups = (ret, s))
    (hn : (refreshPrev env (cleanupOldArchives env.unlinks [] d)).lookup n = some x) :
    ∃ k, (k = n ∨ k = stamp t ++ n ∧ ¬Restores env (stamp t) n) ∧
      ((s.backups (pathOf env.logPath time)).lookup k = some x ∨
        (s.prev.getD []).lookup k = some x ∨ Wiped env (pathOf env.logPath time) k) := by
  obtain ⟨s₂, d₂, hpath, hrule, hrestored⟩ := exists_cleanupRule hd htime hperm hsetup hpacks
  obtain ⟨k, hname, hlook⟩ := hrestored n x hn
  refine ⟨k, hname, ?_⟩
  rw [h] at hrule
  rw [← hpath]
  cases hrule with
  | failed hcreates hprev =>
    rw [hprev]
    exact Or.inr (Or.inl hlook)
  | moved hcreates hprev hbackups =>
    rw [hprev, hbackups]
    exact moved_or_stays env hcreates _ _ hlook

lemma packs_messages (backupLogsDone : Bool) : Packs (.succeeding backupLogsDone)
    (stamp 1764517500) (refreshPrev (.succeeding backupLogsDone) messages) := by
  have hrefresh : refreshPrev (.succeeding backupLogsDone) messages = messages := rfl
  rw [hrefresh]
  refine ⟨?_, fun n hpcap => nomatch hpcap⟩
  rintro n ⟨⟩
  refine ⟨⟨by simp, ?_, by decide +kernel⟩, by decide +kernel, ?_⟩
  · rw [stamp_afternoon]
    decide +kernel
  · change (pathOf "/opt/logs/PreviousLogs".toList _).length < maxFilenameLength
    decide +kernel

/-- Every call succeeds: the log keeps its name, and it is not wiped. -/
theorem rebootWorkflow_messages :
    (rebootSetup (.succeeding true) (State.cleanupOldArchives (.succeeding true)
        ⟨.init, some messages, fun _ => [], []⟩)).1 = 0 ∧
      (((rebootWorkflow (.succeeding true) .init (some messages) fun _ => []).2.backups
          "/opt/logs/11-30-25-03-45PM-logbackup".toList).lookup "messages.txt".toList =
            some (.regular ['a']) ∨
        ((rebootWorkflow (.succeeding true) .init (some messages)
            fun _ => []).2.prev.getD []).lookup "messages.txt".toList =
          some (.regular ['a'])) := by
  have hclean := cleanupOldArchives_messages (Env.succeeding true).unlinks
  have hunstamped : Unstamped (stamp 1764517500) messages := by
    refine ⟨⟨by decide +kernel, by decide +kernel⟩, ?_⟩
    rw [stamp_afternoon]
    decide +kernel
  have hsetup : (rebootSetup (.succeeding true) (State.cleanupOldArchives (.succeeding true)
      ⟨.init, some messages, fun _ => [], []⟩)).1 = 0 := by
    rw [State.cleanupOldArchives, Option.map_some, hclean]
    decide +kernel
  have hpacks : Packs (.succeeding true) (stamp 1764517500) (refreshPrev (.succeeding true)
      (cleanupOldArchives (Env.succeeding true).unlinks [] messages)) := by
    rw [hclean]
    exact packs_messages true
  have hlook : (refreshPrev (.succeeding true) (cleanupOldArchives (Env.succeeding true).unlinks []
      messages)).lookup "messages.txt".toList = some (.regular ['a']) := by
    rw [hclean]
    rfl
  obtain ⟨k, hk, hkeeps⟩ := rebootWorkflow_keeps hunstamped (congrArg some stamp_afternoon.symm) rfl
    hsetup hpacks (Prod.eta (rebootWorkflow (.succeeding true) .init (some messages)
      fun _ => [])).symm hlook
  have hrestores : Restores (.succeeding true) (stamp 1764517500) "messages.txt".toList := by
    refine ⟨fun _ => Option.some_ne_none _, rfl, ?_⟩
    rw [stamp_afternoon]
    decide +kernel
  obtain rfl := hk.resolve_right fun h => h.2 hrestores
  refine ⟨hsetup, hkeeps.imp_right fun h => h.resolve_right ?_⟩
  rintro ⟨-, -, hmoves | ⟨d, hread⟩⟩
  · exact hmoves (by decide +kernel)
  · cases hread

end DcmAgent.Reboot
