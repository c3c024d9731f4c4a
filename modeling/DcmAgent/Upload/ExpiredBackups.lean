import Mathlib.Tactic
import DcmAgent.Upload.OldBackups

/-!
# Which backups are removed

An entry of `LOG_PATH` has expired when it is no link, is older than the age that is given, and has
one of the two forms of names. The code takes what its regular expression accepts, what it can open,
and what is older than a time that it computes with the type `int`. A backup that it takes is
removed as a whole, and nothing else is, unless a link in a backup leads back.
-/

namespace DcmAgent.Upload.OldBackups

open Library LinkTree
open FileTree (Proper)
open Archive (maxPathLength)

/-- An entry that has to go. -/
structure Expired (env : Env) (maxAgeDays : ℤ) (t : LinkTree) (d : Loc) (name : List Char) :
    Prop where
  isEntry : ∃ node, t.node (d ++ [name]) = some node ∧ ∀ target, node ≠ .link target
  old : t.mtime (d ++ [name]) < env.now - maxAgeDays * 24 * 60 * 60
  isBackupName : IsBackupName name

/-- The expired backups are gone, and every other entry is as before, with all that lies in it. -/
def RemovesExpired (env : Env) (maxAgeDays : ℤ) (d : Loc) (t s : LinkTree) : Prop :=
  ∀ name l, d ++ [name] <+: l →
    (Expired env maxAgeDays t d name → s.node l = none) ∧
      (¬Expired env maxAgeDays t d name → s.node l = t.node l ∧ s.mtime l = t.mtime l)

/-- The code waits when it opens the entry. -/
def Waits (env : Env) (t : LinkTree) (d : Loc) (name : List Char) : Prop :=
  isTimestampedBackup name = true ∧ openAt env t (d ++ [name]) = .waits

instance (env : Env) (t : LinkTree) (d : Loc) (name : List Char) :
    Decidable (Waits env t d name) := by
  unfold Waits; infer_instance

/-- The code comes to the entry, and can open it. -/
structure Opens (env : Env) (t : LinkTree) (d : Loc) (name : List Char) : Prop where
  reached : name ∈ (t.children d).takeWhile fun m => ¬Waits env t d m
  opened : ∃ node, openAt env t (d ++ [name]) = .fd (d ++ [name]) node

/-- What the code takes for a backup that has to go. -/
structure Taken (env : Env) (maxAgeDays : ℤ) (t : LinkTree) (d : Loc) (name : List Char) :
    Prop where
  accepted : isTimestampedBackup name = true
  opens : Opens env t d name
  old : t.mtime (d ++ [name]) < cutoff env.now maxAgeDays

/-- The paths fit. -/
structure PathsFit (env : Env) (maxAgeDays : ℤ) (t : LinkTree) (d : Loc) (logPath : Path) :
    Prop where
  entry : ∀ name ∈ t.children d, (pathTo logPath [name]).length < maxPathLength
  below : ∀ name, Taken env maxAgeDays t d name → FitBelow t env.cwd logPath name

/-- No path below a backup that is taken leads to another place in `LOG_PATH`, or to the way there.
Without links it leads down. -/
def NoWayBack (env : Env) (maxAgeDays : ℤ) (t : LinkTree) (d : Loc) (logPath : Path) : Prop :=
  ∀ name, Taken env maxAgeDays t d name → ∀ l, Named t env.cwd logPath name l →
    l ∉ way t env.cwd logPath ∧ (d <+: l → d ++ [name] <+: l)

/-- When the code takes what has expired. -/
structure TakesExpired (env : Env) (maxAgeDays : ℤ) (t : LinkTree) (d : Loc) : Prop where
  /-- The expired backups have the ending that the expression knows. -/
  ending : ∀ name, Expired env maxAgeDays t d name → ¬∃ x, IsTimestamp x ∧ name = x ++ ['-']
  opens : ∀ name, Expired env maxAgeDays t d name → Opens env t d name
  /-- The time that the code computes makes no difference. -/
  cutoff : ∀ name, Expired env maxAgeDays t d name ∨ Taken env maxAgeDays t d name →
    (t.mtime (d ++ [name]) < cutoff env.now maxAgeDays ↔
      t.mtime (d ++ [name]) < env.now - maxAgeDays * 24 * 60 * 60)
  /-- What is taken has the timestamp at the start of its name and the ending. -/
  named : ∀ name, Taken env maxAgeDays t d name → ∃ x, IsTimestamp x ∧ name = x ++ logbackup

variable {env : Env} {maxAgeDays : ℤ} {t₀ t s : LinkTree} {d l : Loc} {k fuel : ℕ} {logPath : Path}
  {name m : List Char} {names done : List (List Char)}

/-! ### What is taken -/

/-- The type `int` is wide enough for ages up to 68 years. -/
lemma cutoff_eq (h₀ : 0 ≤ maxAgeDays) (h : maxAgeDays ≤ 24855) :
    cutoff env.now maxAgeDays = env.now - maxAgeDays * 24 * 60 * 60 := by
  rw [cutoff, Int.bmod_eq_of_le (by omega) (by omega)]

/-- What has been opened is an entry and no link. -/
lemma openAt_eq_fd {node : Node} (h : openAt env t d = .fd l node) :
    l = d ∧ t.node d = some node ∧ ∀ target, node ≠ .link target := by
  unfold openAt at h
  match hx : t.node d with
  | none =>
    rw [hx] at h
    cases h
  | some (.link target) =>
    rw [hx] at h
    cases h
  | some .dir =>
    rw [hx] at h
    cases ho : env.opens d <;> rw [ho] at h <;> cases h
    exact ⟨rfl, rfl, fun target h => nomatch h⟩
  | some .file =>
    rw [hx] at h
    cases ho : env.opens d <;> rw [ho] at h <;> cases h
    exact ⟨rfl, rfl, fun target h => nomatch h⟩

lemma Taken.isEntry (h : Taken env maxAgeDays t d name) :
    ∃ node, t.node (d ++ [name]) = some node ∧ ∀ target, node ≠ .link target := by
  obtain ⟨node, hopened⟩ := h.opens.opened
  exact ⟨node, (openAt_eq_fd hopened).2⟩

/-- The code takes what has expired exactly if the condition holds. -/
lemma takesExpired_iff :
    (∀ name, Taken env maxAgeDays t d name ↔ Expired env maxAgeDays t d name) ↔
      TakesExpired env maxAgeDays t d := by
  constructor
  · intro h
    refine ⟨fun name he => ?_, fun name he => ((h name).mpr he).opens, fun name hor => ?_,
      fun name ht => ?_⟩
    · rintro ⟨x, hx, rfl⟩
      exact not_isTimestampedBackup_dash x ((h _).mpr he).accepted
    · have he : Expired env maxAgeDays t d name := hor.elim id (h name).mp
      exact iff_of_true ((h name).mpr he).old he.old
    · exact isBackupName_and_isTimestampedBackup_iff.mp ⟨((h name).mp ht).isBackupName, ht.accepted⟩
  · intro h name
    constructor
    · intro ht
      exact ⟨ht.isEntry, (h.cutoff name (.inr ht)).mp ht.old,
        (isBackupName_and_isTimestampedBackup_iff.mpr (h.named name ht)).1⟩
    · intro he
      refine ⟨?_, h.opens name he, (h.cutoff name (.inl he)).mpr he.old⟩
      obtain ⟨x, hx, hname | hname⟩ := he.isBackupName
      · exact absurd ⟨x, hx, hname⟩ (h.ending name he)
      · exact hname ▸ hx.isTimestampedBackup

/-! ### The loop -/

/-- The entries that can go with some of the backups. -/
def Goes (env : Env) (maxAgeDays : ℤ) (t : LinkTree) (d : Loc) (logPath : Path)
    (done : List (List Char)) (l : Loc) : Prop :=
  ∃ name ∈ done, Taken env maxAgeDays t d name ∧ Named t env.cwd logPath name l

lemma name_unique (hn : d ++ [name] <+: l) (hm : d ++ [m] <+: l) : name = m := by
  have hpre : d ++ [name] <+: d ++ [m] := List.prefix_of_prefix_length_le hn hm (by simp)
  have heq : d ++ [name] = d ++ [m] := hpre.eq_of_length (by simp)
  simpa using heq

lemma pathTo_singleton (logPath : Path) (name : List Char) :
    pathTo logPath [name] = logPath ++ '/' :: name := by
  simp [pathTo]

/-- The entry whose turn it is has had none. -/
lemma turn_of_split (hwf : t.WellFormed) (hsplit : t.children d = done ++ name :: names) :
    name ∈ t.children d ∧ ∀ m ∈ done, m ≠ name := by
  have hnodup := hwf.nodup_children d
  rw [hsplit] at hnodup
  exact ⟨by simp [hsplit], fun m hm =>
    (List.nodup_append.mp hnodup).2.2 m hm name List.mem_cons_self⟩

section Loop

variable (hd : t₀.resolve env.cwd logPath = some (d, k))
  (hfits : PathsFit env maxAgeDays t₀ d logPath) (hback : NoWayBack env maxAgeDays t₀ d logPath)

include hback in
/-- The way to `LOG_PATH` stays. -/
lemma not_goes_of_mem_way :
    ∀ l ∈ way t₀ env.cwd logPath, ¬Goes env maxAgeDays t₀ d logPath done l := by
  rintro l hl ⟨name, -, htaken, hnamed⟩
  exact (hback name htaken l hnamed).1 hl

include hback in
/-- Another entry is as before. -/
lemma same_of_erases (ht : Erases (Goes env maxAgeDays t₀ d logPath done) t₀ t)
    (hname : ∀ m ∈ done, Taken env maxAgeDays t₀ d m → m ≠ name) (hl : d ++ [name] <+: l) :
    t.node l = t₀.node l ∧ t.mtime l = t₀.mtime l := by
  have hdl : d <+: l := (List.prefix_append d [name]).trans hl
  constructor
  · refine (ht.node l).resolve_right ?_
    rintro ⟨-, m, hm, htaken, hnamed⟩
    exact hname m hm htaken (name_unique ((hback m htaken l hnamed).2 hdl) hl)
  · refine (ht.mtime l).resolve_right ?_
    rintro ⟨a, m, hm, htaken, hnamed⟩
    have hlong : l <+: l ++ [a] := List.prefix_append l [a]
    exact hname m hm htaken
      (name_unique ((hback m htaken _ hnamed).2 (hdl.trans hlong)) (hl.trans hlong))

include hd hfits hback in
/-- An entry is opened as if nothing had gone. -/
lemma openNoFollow_eq (hwf₀ : t₀.WellFormed) (hmem : name ∈ t₀.children d)
    (ht : Erases (Goes env maxAgeDays t₀ d logPath done) t₀ t) (hwf : t.WellFormed)
    (hname : ∀ m ∈ done, m ≠ name) :
    openNoFollow env t (entryPath logPath name) = openAt env t₀ (d ++ [name]) := by
  have hsame := (same_of_erases hback ht (fun m hm _ => hname m hm) List.prefix_rfl).1
  have hthere : t.node (d ++ [] ++ [name]) ≠ none := by
    rw [List.append_nil, hsame]
    exact mem_children.mp hmem
  have hproper : Proper name := hwf₀.proper d name (mem_children.mp hmem)
  have hres : t.resolve env.cwd logPath = some (d, k) :=
    (ht.resolve (not_goes_of_mem_way hback)).trans hd
  have hlocate := locate_below hwf hres (List.forall_mem_nil _) hproper hthere
  have hlen := hfits.entry name hmem
  rw [pathTo_singleton] at hlen
  rw [pathTo, List.flatMap_nil, List.append_nil, List.append_nil] at hlocate
  rw [openNoFollow, entryPath, List.take_of_length_le (by omega), hlocate]
  simp only [openAt, hsame]

include hd hfits hback in
/-- A backup that is taken goes as a whole, and nothing else does. -/
lemma removeBackup_spec (hfuel : maxPathLength ≤ fuel)
    (htaken : Taken env maxAgeDays t₀ d name) (hmem : name ∈ done) (hproper : Proper name)
    (hlen : (pathTo logPath [name]).length < maxPathLength)
    (ht : Erases (Goes env maxAgeDays t₀ d logPath done) t₀ t) (hwf : t.WellFormed) {node : Node}
    (hnode : t.node (d ++ [name]) = some node) (hnolink : ∀ target, node ≠ .link target) :
    ∃ r, removeBackup env fuel (pathTo logPath [name]) node t = some r ∧
      Erases (Named t₀ env.cwd logPath name) t r.2 ∧ r.2.WellFormed ∧
      r.2.node (d ++ [name]) = none := by
  have hway : ∀ l ∈ way t₀ env.cwd logPath, ¬Goes env maxAgeDays t₀ d logPath done l :=
    not_goes_of_mem_way hback
  have hnil : ∀ m ∈ ([] : List (List Char)), Proper m := List.forall_mem_nil _
  rw [removeBackup]
  by_cases hdir : node = .dir
  · have hremoves : Removes env t₀ (Goes env maxAgeDays t₀ d logPath done) d logPath name
        (removeDirectoryRecursive env fuel) [] :=
      removeDirectoryRecursive_removes hd hproper (fun l hl => ⟨name, hmem, htaken, hl⟩) hway
        (hfits.below name htaken) hnil hlen (by omega)
    obtain ⟨r, hrun, hr, hwfr, hgone⟩ := hremoves t ht hwf
    refine ⟨r, by rw [if_pos hdir, hrun], hr, hwfr, hgone.resolve_right ?_⟩
    rintro ⟨-, target, hlink⟩
    exact hnolink target (Option.some.inj (hnode.symm.trans hlink))
  · have hthere : t.node (d ++ [name]) ≠ none := by simp [hnode]
    have hunlink : t.unlink env.now env.cwd (pathTo logPath [name]) =
        some (t.erase env.now (d ++ [name])) :=
      (calls_below hd hproper hway hnil ht hwf hthere).1 (by simp [hnode, hdir])
    obtain ⟨hr, hwfr⟩ := erases_of_call hproper hnil ht hwf (.inl hunlink)
    rw [if_neg hdir, hunlink]
    exact ⟨_, rfl, hr, hwfr, by simp [resultOf]⟩

/-- Once the loop has dealt with some of the entries. -/
structure Progress (env : Env) (maxAgeDays : ℤ) (t₀ : LinkTree) (d : Loc) (logPath : Path)
    (done : List (List Char)) (t : LinkTree) : Prop where
  erases : Erases (Goes env maxAgeDays t₀ d logPath done) t₀ t
  wf : t.WellFormed
  gone : ∀ m ∈ done, Taken env maxAgeDays t₀ d m → t.node (d ++ [m]) = none

/-- An entry stays that is not taken. -/
lemma Progress.skip (h : Progress env maxAgeDays t₀ d logPath done t)
    (hname : ¬Taken env maxAgeDays t₀ d name) :
    Progress env maxAgeDays t₀ d logPath (done ++ [name]) t where
  erases := h.erases.mono fun _ ⟨m, hm, hgoes⟩ => ⟨m, List.mem_append_left _ hm, hgoes⟩
  wf := h.wf
  gone := List.forall_mem_append.mpr
    ⟨h.gone, List.forall_mem_singleton.mpr fun htaken => absurd htaken hname⟩

/-- An entry is removed that is taken. -/
lemma Progress.remove (h : Progress env maxAgeDays t₀ d logPath done t)
    (hname : Taken env maxAgeDays t₀ d name)
    (hs : Erases (Named t₀ env.cwd logPath name) t s) (hwf : s.WellFormed)
    (hgone : s.node (d ++ [name]) = none) :
    Progress env maxAgeDays t₀ d logPath (done ++ [name]) s where
  erases := by
    refine (h.erases.mono ?_).trans (hs.mono ?_)
    · exact fun _ ⟨m, hm, hgoes⟩ => ⟨m, List.mem_append_left _ hm, hgoes⟩
    · exact fun l hl => ⟨name, by simp, hname, hl⟩
  wf := hwf
  gone := List.forall_mem_append.mpr
    ⟨fun m hm htaken => hs.node_eq_none (h.gone m hm htaken),
      List.forall_mem_singleton.mpr fun _ => hgone⟩

include hd hfits hback in
/-- One turn of the loop, when `open` does not wait. -/
lemma cleanupEntries_step (hwf₀ : t₀.WellFormed) (hfuel : maxPathLength ≤ fuel)
    (hsplit : t₀.children d = done ++ name :: names) (hdone : ∀ m ∈ done, ¬Waits env t₀ d m)
    (hname : ¬Waits env t₀ d name) (h : Progress env maxAgeDays t₀ d logPath done t)
    (removed : ℤ) :
    ∃ removed' t', Progress env maxAgeDays t₀ d logPath (done ++ [name]) t' ∧
      cleanupEntries env fuel logPath (cutoff env.now maxAgeDays) (name :: names) removed t =
        cleanupEntries env fuel logPath (cutoff env.now maxAgeDays) names removed' t' := by
  obtain ⟨hmem, hnew⟩ := turn_of_split hwf₀ hsplit
  rw [cleanupEntries]
  by_cases haccepted : isTimestampedBackup name = true
  · rw [if_pos haccepted, openNoFollow_eq hd hfits hback hwf₀ hmem h.erases h.wf hnew]
    cases hat : openAt env t₀ (d ++ [name]) with
    | failed =>
      refine ⟨removed, t, h.skip fun htaken => ?_, rfl⟩
      obtain ⟨node, hopened⟩ := htaken.opens.opened
      rw [hat] at hopened
      cases hopened
    | waits => exact absurd ⟨haccepted, hat⟩ hname
    | fd l node =>
      obtain ⟨rfl, hnode, hnolink⟩ := openAt_eq_fd hat
      have hsame := same_of_erases hback h.erases (fun m hm _ => hnew m hm) List.prefix_rfl
      have hlen := hfits.entry name hmem
      have hpath : entryPath logPath name = pathTo logPath [name] := by
        rw [pathTo_singleton] at hlen ⊢
        exact List.take_of_length_le (by omega)
      dsimp only
      rw [hsame.2, hpath]
      split_ifs with hold
      · have htaken : Taken env maxAgeDays t₀ d name := by
          refine ⟨haccepted, ⟨?_, node, hat⟩, hold⟩
          rw [hsplit, List.takeWhile_append_of_pos (by simpa using hdone),
            List.takeWhile_cons_of_pos (by simpa using hname)]
          simp
        obtain ⟨r, hrun, hr, hwfr, hgone⟩ := removeBackup_spec hd hfits hback hfuel htaken
          (by simp) (hwf₀.proper d name (mem_children.mp hmem)) hlen
          (h.erases.mono fun _ ⟨m, hm, hgoes⟩ => ⟨m, List.mem_append_left [name] hm, hgoes⟩) h.wf
          (hsame.1.trans hnode) hnolink
        exact ⟨_, _, h.remove htaken hr hwfr hgone, by rw [hrun, Option.bind_some]⟩
      · exact ⟨removed, t, h.skip fun htaken => hold htaken.old, rfl⟩
  · rw [if_neg haccepted]
    exact ⟨removed, t, h.skip fun htaken => haccepted htaken.accepted, rfl⟩

include hd hfits hback in
/-- The loop comes to an end, or to an entry where it waits. -/
theorem cleanupEntries_spec (hwf₀ : t₀.WellFormed) (hfuel : maxPathLength ≤ fuel)
    (hsplit : t₀.children d = done ++ names) (hdone : ∀ m ∈ done, ¬Waits env t₀ d m)
    (h : Progress env maxAgeDays t₀ d logPath done t) (removed : ℤ) :
    ∃ out, cleanupEntries env fuel logPath (cutoff env.now maxAgeDays) names removed t = some out ∧
      Progress env maxAgeDays t₀ d logPath (t₀.children d) out.2 := by
  induction names generalizing done t removed with
  | nil =>
    rw [List.append_nil] at hsplit
    exact ⟨_, rfl, hsplit ▸ h⟩
  | cons name names ih =>
    by_cases hname : Waits env t₀ d name
    · obtain ⟨hmem, hnew⟩ := turn_of_split hwf₀ hsplit
      rw [cleanupEntries, if_pos hname.1,
        openNoFollow_eq hd hfits hback hwf₀ hmem h.erases h.wf hnew, hname.2]
      refine ⟨_, rfl, h.erases.mono fun l ⟨m, hm, hgoes⟩ => ⟨m, by simp [hsplit, hm], hgoes⟩, h.wf,
        fun m _ htaken => ?_⟩
      -- no entry after the one where it waits is taken
      have hreached := htaken.opens.reached
      rw [hsplit, List.takeWhile_append_of_pos (by simpa using hdone),
        List.takeWhile_cons_of_neg (by simpa using hname), List.append_nil] at hreached
      exact h.gone m hreached htaken
    · obtain ⟨removed', t', h', hstep⟩ :=
        cleanupEntries_step hd hfits hback hwf₀ hfuel hsplit hdone hname h removed
      rw [hstep]
      refine ih (by simp [hsplit]) ?_ h' removed'
      exact List.forall_mem_append.mpr ⟨hdone, List.forall_mem_singleton.mpr hname⟩

end Loop

/-- What is taken is gone afterwards, with all that lies in it, and the rest is as before. -/
lemma cleanupOldLogBackups_spec (hwf : t.WellFormed) (hd : t.openDir env.cwd logPath = some d)
    (hfits : PathsFit env maxAgeDays t d logPath) (hback : NoWayBack env maxAgeDays t d logPath)
    (hfuel : maxPathLength ≤ fuel) :
    ∃ out, cleanupOldLogBackups env fuel logPath maxAgeDays t = some out ∧
      ∀ name l, d ++ [name] <+: l →
        (Taken env maxAgeDays t d name → out.2.node l = none) ∧
          (¬Taken env maxAgeDays t d name →
            out.2.node l = t.node l ∧ out.2.mtime l = t.mtime l) := by
  obtain ⟨⟨e, k⟩, hres, rfl⟩ := Option.map_eq_some_iff.mp hd
  have hstart : Progress env maxAgeDays t e logPath [] t :=
    ⟨.refl _ t, hwf, fun m hm => absurd hm List.not_mem_nil⟩
  obtain ⟨out, hrun, hout⟩ := cleanupEntries_spec hres hfits hback hwf hfuel
    (List.nil_append (t.children e)).symm (List.forall_mem_nil _) hstart 0
  refine ⟨out, by rw [cleanupOldLogBackups, hd]; exact hrun, ?_⟩
  intro name l hl
  constructor
  · intro htaken
    have hgone := hout.gone name ((List.takeWhile_sublist _).subset htaken.opens.reached) htaken
    obtain ⟨ns, rfl⟩ := hl
    exact hout.wf.node_append hgone (by simp) ns
  · intro hno
    refine same_of_erases hback hout.erases (fun m _ htaken => ?_) hl
    rintro rfl
    exact hno htaken

/-- The expired backups are removed, and nothing else is, exactly if the condition holds. -/
theorem removesExpired_iff (hwf : t.WellFormed) (hd : t.openDir env.cwd logPath = some d)
    (hfits : PathsFit env maxAgeDays t d logPath) (hback : NoWayBack env maxAgeDays t d logPath)
    (hfuel : maxPathLength ≤ fuel) :
    (∃ out, cleanupOldLogBackups env fuel logPath maxAgeDays t = some out ∧
        RemovesExpired env maxAgeDays d t out.2) ↔
      TakesExpired env maxAgeDays t d := by
  obtain ⟨out, hrun, hspec⟩ := cleanupOldLogBackups_spec hwf hd hfits hback hfuel
  rw [← takesExpired_iff, hrun]
  constructor
  · rintro ⟨out', hout', hremoves⟩ name
    obtain rfl := Option.some.inj hout'
    constructor
    · intro htaken
      by_contra hexpired
      obtain ⟨node, hnode, -⟩ := htaken.isEntry
      have hsame := ((hremoves name _ List.prefix_rfl).2 hexpired).1
      rw [(hspec name _ List.prefix_rfl).1 htaken, hnode] at hsame
      cases hsame
    · intro hexpired
      by_contra htaken
      obtain ⟨node, hnode, -⟩ := hexpired.isEntry
      have hsame := ((hspec name _ List.prefix_rfl).2 htaken).1
      rw [(hremoves name _ List.prefix_rfl).1 hexpired, hnode] at hsame
      cases hsame
  · intro h
    exact ⟨out, rfl, fun name l hl => ⟨fun hexpired => (hspec name l hl).1 ((h name).mpr hexpired),
      fun hexpired => (hspec name l hl).2 fun htaken => hexpired ((h name).mp htaken)⟩⟩

/-- A backup without links leads nowhere else. -/
lemma noWayBack_of_noLinks (hwf : t.WellFormed) (hd : t.openDir env.cwd logPath = some d)
    (hlinks : ∀ name, Taken env maxAgeDays t d name → ∀ l target, d ++ [name] <+: l →
      t.node l ≠ some (.link target))
    (hway : ∀ name, Taken env maxAgeDays t d name → ∀ l ∈ way t env.cwd logPath,
      ¬d ++ [name] <+: l) : NoWayBack env maxAgeDays t d logPath := by
  rintro name htaken l ⟨ns, hns, hl, -⟩
  obtain ⟨⟨e, k⟩, hres, rfl⟩ := Option.map_eq_some_iff.mp hd
  obtain ⟨node, hnode, -⟩ := htaken.isEntry
  have hproper : Proper name := hwf.proper e name (by simp [hnode])
  have heq := locate_of_noLinks hres (hlinks name htaken) hproper hns hl
  have hbelow : e ++ [name] <+: l := ⟨ns, by simp [heq]⟩
  exact ⟨fun hmem => hway name htaken l hmem hbelow, fun _ => hbelow⟩

/-- The paths below it are those of the entries. -/
lemma fitBelow_of_noLinks (hd : t.openDir env.cwd logPath = some d)
    (hlinks : ∀ l target, d ++ [name] <+: l → t.node l ≠ some (.link target)) (hname : Proper name)
    (hlen : ∀ l ∈ t.nodes.map Prod.fst,
      (pathTo logPath (l.drop d.length)).length < maxPathLength) :
    FitBelow t env.cwd logPath name := by
  intro ns hns e m he hm
  obtain ⟨⟨e', k⟩, hres, rfl⟩ := Option.map_eq_some_iff.mp hd
  obtain rfl := openDir_of_noLinks hres hlinks hname hns he
  have hfits := hlen _ (node_ne_none_iff.mp (mem_children.mp hm))
  rwa [List.append_assoc, List.drop_left] at hfits

/-! ### Backups from 1970 -/

def logDir : Loc := ["opt".toList, "logs".toList]

/-- `/opt/logs` with some entries. -/
def logsWith (entries : List (Loc × Node)) : LinkTree where
  nodes := (["opt".toList], .dir) :: (logDir, .dir) :: entries.map fun e => (logDir ++ e.1, e.2)
  mtime _ := 0

/-- Much later, on 2025-11-30 at 15:45. -/
def lateEnv : Env := ⟨[], 1764517500, fun _ => .opened⟩

def lateName : List Char := "11-30-25-03-45PM".toList

lemma isTimestamp_lateName : IsTimestamp lateName :=
  ⟨"11".toList, "30".toList, "25".toList, "03".toList, "45".toList, 'P', by simp [IsDigits],
    by simp [IsDigits], by simp [IsDigits], by simp [IsDigits], by simp [IsDigits], .inr rfl, rfl⟩

/-- A file in a backup, and one that is none. -/
def expiredLogs : LinkTree :=
  logsWith [
    ([lateName ++ logbackup], .dir),
    ([lateName ++ logbackup, "messages.txt".toList], .file),
    (["messages.txt".toList], .file)]

lemma children_expiredLogs :
    expiredLogs.children logDir = [lateName ++ logbackup, "messages.txt".toList] := by
  decide +kernel

lemma eq_of_taken_expiredLogs (h : Taken lateEnv 3 expiredLogs logDir name) :
    name = lateName ++ logbackup := by
  have hmem : name ∈ expiredLogs.children logDir :=
    (List.takeWhile_sublist _).subset h.opens.reached
  rw [children_expiredLogs] at hmem
  rcases List.mem_cons.mp hmem with rfl | hmem
  · rfl
  · have haccepted := h.accepted
    rw [List.mem_singleton.mp hmem] at haccepted
    exact absurd haccepted (by decide +kernel)

theorem expiredLogs_removed : ∃ out,
    cleanupOldLogBackups lateEnv maxPathLength "/opt/logs".toList 3 expiredLogs = some out ∧
      RemovesExpired lateEnv 3 logDir expiredLogs out.2 := by
  have hwf : expiredLogs.WellFormed := wellFormed_of_forall (by decide +kernel) (by decide +kernel)
  have hd : expiredLogs.openDir lateEnv.cwd "/opt/logs".toList = some logDir := by decide +kernel
  have hlinks : ∀ name l target, logDir ++ [name] <+: l →
      expiredLogs.node l ≠ some (.link target) :=
    fun _ l target _ => noLinks_of_forall (by decide +kernel) l target
  have hentry : ∀ name, Expired lateEnv 3 expiredLogs logDir name →
      name ∈ [lateName ++ logbackup, "messages.txt".toList] := by
    intro name h
    obtain ⟨node, hnode, -⟩ := h.isEntry
    rw [← children_expiredLogs, mem_children, hnode]
    exact Option.some_ne_none node
  refine (removesExpired_iff hwf hd ?_ ?_ le_rfl).mpr ?_
  · refine ⟨by decide +kernel, fun name h => ?_⟩
    rw [eq_of_taken_expiredLogs h]
    exact fitBelow_of_noLinks hd (hlinks _) (by decide +kernel) (by decide +kernel)
  · refine noWayBack_of_noLinks hwf hd (fun name _ => hlinks name) fun name h => ?_
    rw [eq_of_taken_expiredLogs h]
    decide +kernel
  · refine ⟨fun name h => ?_, fun name h => ?_, fun name _ => ?_, fun name h => ?_⟩
    · rintro ⟨x, -, rfl⟩
      have hlast : ∀ n ∈ [lateName ++ logbackup, "messages.txt".toList], n.getLast? ≠ some '-' := by
        decide +kernel
      exact hlast _ (hentry _ h) (List.getLast?_concat ..)
    · rcases List.mem_cons.mp (hentry name h) with rfl | hmem
      · exact ⟨by decide +kernel, .dir, by decide +kernel⟩
      · rw [List.mem_singleton.mp hmem]
        exact ⟨by decide +kernel, .file, by decide +kernel⟩
    · rw [cutoff_eq (by decide) (by decide)]
    · exact ⟨lateName, isTimestamp_lateName, eq_of_taken_expiredLogs h⟩

/-- A backup with the other ending. -/
def dashLogs : LinkTree := logsWith [([lateName ++ ['-']], .dir)]

/-- It has expired, and stays. -/
theorem dashLogs_not_removed : dashLogs.WellFormed ∧
    dashLogs.openDir lateEnv.cwd "/opt/logs".toList = some logDir ∧
    PathsFit lateEnv 3 dashLogs logDir "/opt/logs".toList ∧
    NoWayBack lateEnv 3 dashLogs logDir "/opt/logs".toList ∧
    ¬∃ out, cleanupOldLogBackups lateEnv maxPathLength "/opt/logs".toList 3 dashLogs = some out ∧
      RemovesExpired lateEnv 3 logDir dashLogs out.2 := by
  have hwf : dashLogs.WellFormed := wellFormed_of_forall (by decide +kernel) (by decide +kernel)
  have hd : dashLogs.openDir lateEnv.cwd "/opt/logs".toList = some logDir := by decide +kernel
  have hnone : ∀ name, ¬Taken lateEnv 3 dashLogs logDir name := by
    intro name h
    have hmem : name ∈ dashLogs.children logDir :=
      (List.takeWhile_sublist _).subset h.opens.reached
    have hchildren : dashLogs.children logDir = [lateName ++ ['-']] := by decide +kernel
    rw [hchildren, List.mem_singleton] at hmem
    exact not_isTimestampedBackup_dash lateName (hmem ▸ h.accepted)
  have hfits : PathsFit lateEnv 3 dashLogs logDir "/opt/logs".toList :=
    ⟨by decide +kernel, fun name h => absurd h (hnone name)⟩
  have hback : NoWayBack lateEnv 3 dashLogs logDir "/opt/logs".toList :=
    fun name h => absurd h (hnone name)
  refine ⟨hwf, hd, hfits, hback, ?_⟩
  rintro ⟨out, hrun, hremoves⟩
  obtain ⟨out', hrun', hspec⟩ := cleanupOldLogBackups_spec hwf hd hfits hback le_rfl
  obtain rfl : out = out' := Option.some.inj (hrun.symm.trans hrun')
  have hnode : dashLogs.node (logDir ++ [lateName ++ ['-']]) = some .dir := by decide +kernel
  have hexpired : Expired lateEnv 3 dashLogs logDir (lateName ++ ['-']) :=
    { isEntry := ⟨.dir, hnode, fun target h => nomatch h⟩
      old := by decide
      isBackupName := ⟨lateName, isTimestamp_lateName, .inl rfl⟩ }
  have hgone := (hremoves _ _ List.prefix_rfl).1 hexpired
  rw [((hspec _ _ List.prefix_rfl).2 (hnone _)).1, hnode] at hgone
  cases hgone

/-- A link in a backup leads to a directory that is no backup, and what lies there is removed. -/
example :
    (cleanupOldLogBackups lateEnv maxPathLength "/opt/logs".toList 3 (logsWith [
      ([lateName ++ logbackup], .dir),
      ([lateName ++ logbackup, "last".toList], .link "../kept".toList),
      (["kept".toList], .dir),
      (["kept".toList, "messages.txt".toList], .file)])).map (fun out => (out.1, out.2.nodes)) =
    some (some 1, (logsWith [(["kept".toList], .dir)]).nodes) := by
  decide +kernel

end DcmAgent.Upload.OldBackups
