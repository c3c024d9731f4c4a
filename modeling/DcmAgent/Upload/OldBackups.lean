import Mathlib.Tactic
import DcmAgent.Library.LinkTree
import DcmAgent.Upload.BackupNames
import DcmAgent.Upload.TreeWalks

/-!
# Old log backups

`cleanup_old_log_backups` goes through `LOG_PATH` and removes the entries with names of backups that
are too old. A directory is removed by `remove_directory_recursive`, which opens every entry below
it by its path, through symbolic links as well.

No call on a path fails when the tree allows it. The clock stands still while the function runs.
-/

namespace DcmAgent.Upload.OldBackups

open Library LinkTree
open FileTree (Proper)
open Archive (maxPathLength)

/-! ### `remove_directory_recursive` -/

/-- What `open` does with an entry that is no link. -/
inductive OpenResult where
  | opened
  | failed
  | waits
  deriving DecidableEq, Repr

structure Env where
  cwd : Loc
  now : ℤ
  opens : Loc → OpenResult

/-- The value of a call on a file system, and the tree afterwards. -/
def resultOf (t : LinkTree) (o : Option LinkTree) : ℤ × LinkTree :=
  match o with
  | none => (-1, t)
  | some t' => (0, t')

/-- Every entry is tried as a directory first. -/
def removeEntry (env : Env) (call : Path → LinkTree → Option (ℤ × LinkTree)) (path : Path)
    (t : LinkTree) (name : List Char) : Option LinkTree :=
  let filepath := entryPath path name
  (call filepath t).map fun r =>
    if r.1 ≠ 0 then (r.2.unlink env.now env.cwd filepath).getD r.2 else r.2

/-- A call; `none` when the bound on the depth of the calls is too small. -/
def removeDirectoryRecursive (env : Env) : ℕ → Path → LinkTree → Option (ℤ × LinkTree)
  | 0, _, _ => none
  | fuel + 1, path, t =>
    match t.openDir env.cwd path with
    | none => some (resultOf t (t.remove env.now env.cwd path))
    | some dir =>
      ((t.children dir).foldlM (removeEntry env (removeDirectoryRecursive env fuel) path) t).map
        fun t => resultOf t (t.rmdir env.now env.cwd path)

/-! ### `cleanup_old_log_backups` -/

/-- A file descriptor is an entry that has been opened. -/
inductive Descriptor where
  | fd (l : Loc) (node : Node)
  | failed
  | waits
  deriving DecidableEq, Repr

/-- With `O_NOFOLLOW`, a link cannot be opened. -/
def openAt (env : Env) (t : LinkTree) (l : Loc) : Descriptor :=
  match t.node l with
  | none => .failed
  | some (.link _) => .failed
  | some node =>
    match env.opens l with
    | .opened => .fd l node
    | .failed => .failed
    | .waits => .waits

def openNoFollow (env : Env) (t : LinkTree) (path : Path) : Descriptor :=
  match t.locate env.cwd path with
  | none => .failed
  | some l => openAt env t l

/-- Computed with the type `int`, except for the last step. -/
def cutoff (now maxAgeDays : ℤ) : ℤ := now - (maxAgeDays * 24 * 60 * 60).bmod (2 ^ 32)

def removeBackup (env : Env) (fuel : ℕ) (fullpath : Path) (node : Node) (t : LinkTree) :
    Option (ℤ × LinkTree) :=
  if node = .dir then removeDirectoryRecursive env fuel fullpath t
  else some (resultOf t (t.unlink env.now env.cwd fullpath))

/-- The loop. The value is the number of backups removed; there is none when `open` waits. -/
def cleanupEntries (env : Env) (fuel : ℕ) (logPath : Path) (cutoff : ℤ) :
    List (List Char) → ℤ → LinkTree → Option (Option ℤ × LinkTree)
  | [], removed, t => some (some removed, t)
  | name :: names, removed, t =>
    if isTimestampedBackup name then
      match openNoFollow env t (entryPath logPath name) with
      | .failed => cleanupEntries env fuel logPath cutoff names removed t
      | .waits => some (none, t)
      | .fd l node =>
        if t.mtime l < cutoff then
          (removeBackup env fuel (entryPath logPath name) node t).bind fun r =>
            cleanupEntries env fuel logPath cutoff names (if r.1 = 0 then removed + 1 else removed)
              r.2
        else cleanupEntries env fuel logPath cutoff names removed t
    else cleanupEntries env fuel logPath cutoff names removed t

def cleanupOldLogBackups (env : Env) (fuel : ℕ) (logPath : Path) (maxAgeDays : ℤ) (t : LinkTree) :
    Option (Option ℤ × LinkTree) :=
  match t.openDir env.cwd logPath with
  | none => some (some (-1), t)
  | some dir =>
    cleanupEntries env fuel logPath (cutoff env.now maxAgeDays) (t.children dir) 0 t

/-! ### What `remove_directory_recursive` does -/

/-- An entry that is named by a path below a backup, through links as well. -/
def Named (t : LinkTree) (cwd : Loc) (logPath : Path) (name : List Char) (l : Loc) : Prop :=
  ∃ ns, (∀ m ∈ ns, Proper m) ∧ t.locate cwd (pathTo logPath (name :: ns)) = some l ∧
    t.node l ≠ none

/-- The paths below a backup fit. -/
def FitBelow (t : LinkTree) (cwd : Loc) (logPath : Path) (name : List Char) : Prop :=
  ∀ ns, (∀ m ∈ ns, Proper m) → ∀ e m, t.openDir cwd (pathTo logPath (name :: ns)) = some e →
    m ∈ t.children e → (pathTo logPath (name :: ns ++ [m])).length < maxPathLength

variable {env : Env} {t₀ t s : LinkTree} {d : Loc} {k fuel : ℕ} {logPath path : Path}
  {name m : List Char} {ns : List (List Char)} {Q : Loc → Prop}

lemma resultOf_erases {o : Option LinkTree} (hwf : t.WellFormed)
    (h : ∀ t' ∈ o, Erases Q t t' ∧ t'.WellFormed) :
    Erases Q t (resultOf t o).2 ∧ (resultOf t o).2.WellFormed := by
  cases o with
  | none => exact ⟨.refl Q t, hwf⟩
  | some t' => exact h t' rfl

section Removal

variable (hd : t₀.resolve env.cwd logPath = some (d, k)) (hname : Proper name)
  (hQ : ∀ l, Named t₀ env.cwd logPath name l → Q l)
  (hway : ∀ l ∈ way t₀ env.cwd logPath, ¬Q l)
  (hfit : FitBelow t₀ env.cwd logPath name)

/-- What a path names in a tree with fewer entries. -/
lemma Named.of_locate (hns : ∀ m ∈ ns, Proper m) (ht : Erases Q t₀ t) (l : Loc)
    (hl : t.locate env.cwd (pathTo logPath (name :: ns)) = some l) (hthere : t.node l ≠ none) :
    Named t₀ env.cwd logPath name l := by
  refine ⟨ns, hns, locate_mono ht.sub hl, ?_⟩
  obtain ⟨x, hx⟩ := Option.ne_none_iff_exists'.mp hthere
  rw [ht.sub l x hx]
  exact Option.some_ne_none x

omit hd hname hQ hway hfit in
lemma proper_append (hns : ∀ a ∈ ns, Proper a) (hm : Proper m) : ∀ a ∈ ns ++ [m], Proper a := by
  intro a ha
  rcases List.mem_append.mp ha with ha | ha
  · exact hns a ha
  · exact List.mem_singleton.mp ha ▸ hm

omit hd hname hQ hway hfit in
lemma children_sub (h : Erases Q t s) {e : Loc} (hm : m ∈ s.children e) :
    m ∈ t.children e := by
  refine mem_children.mpr fun hnone => mem_children.mp hm ?_
  exact h.node_eq_none hnone

omit hQ hfit in
include hd hname hway in
/-- Calls on an entry below a backup, by its own path. -/
lemma calls_below (hns : ∀ m ∈ ns, Proper m) (ht : Erases Q t₀ t)
    (hwf : t.WellFormed) (hthere : t.node (d ++ name :: ns) ≠ none) :
    (t.node (d ++ name :: ns) ≠ some .dir →
      t.unlink env.now env.cwd (pathTo logPath (name :: ns)) =
        some (t.erase env.now (d ++ name :: ns))) ∧
    (t.rmdir env.now env.cwd (pathTo logPath (name :: ns)) =
      if t.node (d ++ name :: ns) = some .dir ∧ t.children (d ++ name :: ns) = [] then
        some (t.erase env.now (d ++ name :: ns))
      else none) ∧
    (t.node (d ++ name :: ns) = some .dir →
      t.openDir env.cwd (pathTo logPath (name :: ns)) = some (d ++ name :: ns)) ∧
    (t.node (d ++ name :: ns) = some .file →
      t.openDir env.cwd (pathTo logPath (name :: ns)) = none) := by
  have hres : t.resolve env.cwd logPath = some (d, k) := (ht.resolve hway).trans hd
  have hall : ∀ m ∈ name :: ns, Proper m := List.forall_mem_cons.mpr ⟨hname, hns⟩
  obtain ⟨names, last, hnames⟩ : ∃ names last, name :: ns = names ++ [last] :=
    ⟨_, _, (List.dropLast_append_getLast (List.cons_ne_nil name ns)).symm⟩
  rw [hnames, ← List.append_assoc] at hthere ⊢
  rw [hnames] at hall
  have hnames' : ∀ m ∈ names, Proper m := fun m hm => hall m (List.mem_append_left _ hm)
  have hlast : Proper last := hall last (by simp)
  refine ⟨fun hdir => ?_, ?_, fun hdir => ?_, fun hfile => ?_⟩
  · rw [pathTo_append]
    exact unlink_below hwf hres hnames' hlast hthere hdir
  · rw [pathTo_append]
    exact rmdir_below hwf hres hnames' hlast hthere
  · have hopen := openDir_below hwf hres hall (.inr (by rwa [← List.append_assoc]))
    rwa [← List.append_assoc] at hopen
  · exact openDir_below_file hwf hres hnames' hlast hthere hfile

omit hd hQ hway hfit in
include hname in
/-- Calls on a path below a backup, wherever it leads. -/
lemma erases_of_call (hns : ∀ m ∈ ns, Proper m)
    (ht : Erases Q t₀ t) (hwf : t.WellFormed)
    (h : t.unlink env.now env.cwd (pathTo logPath (name :: ns)) = some s ∨
      t.rmdir env.now env.cwd (pathTo logPath (name :: ns)) = some s) :
    Erases (Named t₀ env.cwd logPath name) t s ∧ s.WellFormed := by
  have hnamed : ∀ l, t.locate env.cwd (pathTo logPath (name :: ns)) = some l → t.node l ≠ none →
      Named t₀ env.cwd logPath name l := Named.of_locate hns ht
  have hall : ∀ m ∈ name :: ns, Proper m := List.forall_mem_cons.mpr ⟨hname, hns⟩
  rcases h with h | h
  · exact Erases.unlink hwf h hnamed
  · obtain ⟨names, last, hnames⟩ : ∃ names last, name :: ns = names ++ [last] :=
      ⟨_, _, (List.dropLast_append_getLast (List.cons_ne_nil name ns)).symm⟩
    rw [hnames, pathTo_append] at h hnamed
    exact Erases.rmdir hwf (hall last (by simp [hnames])) h hnamed

/-- A call with the path of an entry below a backup removes the entry, unless that is a link. Then
the call fails when it does not. -/
def Removes (env : Env) (t₀ : LinkTree) (Q : Loc → Prop) (d : Loc) (logPath : Path)
    (name : List Char) (call : Path → LinkTree → Option (ℤ × LinkTree))
    (ns : List (List Char)) : Prop :=
  ∀ t, Erases Q t₀ t → t.WellFormed →
    ∃ r, call (pathTo logPath (name :: ns)) t = some r ∧
      Erases (Named t₀ env.cwd logPath name) t r.2 ∧ r.2.WellFormed ∧
      (r.2.node (d ++ name :: ns) = none ∨
        r.1 ≠ 0 ∧ ∃ target, t.node (d ++ name :: ns) = some (.link target))

omit hfit in
include hd hname hQ hway in
/-- After the call, the link is removed as well. -/
lemma removeEntry_spec {call : Path → LinkTree → Option (ℤ × LinkTree)}
    (hcall : Removes env t₀ Q d logPath name call (ns ++ [m])) (hns : ∀ a ∈ ns, Proper a)
    (hm : Proper m) (hpath : entryPath (pathTo logPath (name :: ns)) m =
      pathTo logPath (name :: (ns ++ [m])))
    (ht : Erases Q t₀ t) (hwf : t.WellFormed) :
    ∃ s, removeEntry env call (pathTo logPath (name :: ns)) t m = some s ∧
      Erases (Named t₀ env.cwd logPath name) t s ∧ s.WellFormed ∧
      s.node (d ++ name :: (ns ++ [m])) = none := by
  have hall := proper_append hns hm
  obtain ⟨⟨v, s⟩, hrun, hts, hwfs, hgone⟩ := hcall t ht hwf
  have ht₀s := ht.trans (hts.mono hQ)
  simp only [removeEntry, hpath, hrun, Option.map_some]
  by_cases hthere : s.node (d ++ name :: (ns ++ [m])) = none
  · split_ifs
    · cases hunlink : s.unlink env.now env.cwd (pathTo logPath (name :: (ns ++ [m]))) with
      | none => exact ⟨s, rfl, hts, hwfs, hthere⟩
      | some s' =>
        obtain ⟨hss', hwfs'⟩ := erases_of_call hname hall ht₀s hwfs (.inl hunlink)
        exact ⟨s', rfl, hts.trans hss', hwfs', hss'.node_eq_none hthere⟩
    · exact ⟨s, rfl, hts, hwfs, hthere⟩
  · obtain ⟨hv, target, hlink⟩ := hgone.resolve_left hthere
    have hlinks : s.node (d ++ name :: (ns ++ [m])) = some (.link target) :=
      hlink ▸ (hts.node _).resolve_right fun h => hthere h.1
    have hunlink := (calls_below hd hname hway hall ht₀s hwfs hthere).1 (by simp [hlinks])
    obtain ⟨hss', hwfs'⟩ := erases_of_call hname hall ht₀s hwfs (.inl hunlink)
    rw [if_pos hv, hunlink]
    exact ⟨_, rfl, hts.trans hss', hwfs', by simp⟩

include hd hname hQ hway hfit

/-- The loop over the entries of a directory leaves none of them. -/
lemma removeEntries_spec {call : Path → LinkTree → Option (ℤ × LinkTree)}
    (hns : ∀ m ∈ ns, Proper m)
    (hcall : ∀ m, Proper m → (pathTo logPath (name :: ns ++ [m])).length < maxPathLength →
      Removes env t₀ Q d logPath name call (ns ++ [m]))
    (ht : Erases Q t₀ t) (hwf : t.WellFormed) {e : Loc}
    (hopen : t.openDir env.cwd (pathTo logPath (name :: ns)) = some e) :
    ∃ s, (t.children e).foldlM (removeEntry env call (pathTo logPath (name :: ns))) t = some s ∧
      Erases (Named t₀ env.cwd logPath name) t s ∧ s.WellFormed ∧
      ∀ m ∈ t.children e, s.node (d ++ name :: (ns ++ [m])) = none := by
  have hloop : ∃ s, (t.children e).foldlM
      (removeEntry env call (pathTo logPath (name :: ns))) t = some s ∧
      (Erases (Named t₀ env.cwd logPath name) t s ∧ s.WellFormed) ∧
      (∀ m, t.node (d ++ name :: (ns ++ [m])) = none →
        s.node (d ++ name :: (ns ++ [m])) = none) ∧
      ∀ m ∈ t.children e, s.node (d ++ name :: (ns ++ [m])) = none := by
    refine foldlM_done (I := fun s => Erases (Named t₀ env.cwd logPath name) t s ∧ s.WellFormed)
      (G := fun m s => s.node (d ++ name :: (ns ++ [m])) = none) ?_ ⟨.refl _ t, hwf⟩
    rintro m hm s ⟨hts, hwfs⟩
    have hproper : Proper m := hwf.proper e m (mem_children.mp hm)
    have hfits := hfit ns hns e m (openDir_mono ht.sub hopen) (children_sub ht hm)
    have hpath : entryPath (pathTo logPath (name :: ns)) m =
        pathTo logPath (name :: (ns ++ [m])) := by
      rw [entryPath, ← pathTo_append]
      exact List.take_of_length_le (by omega)
    obtain ⟨s', hrun, hss', hwfs', hgone⟩ := removeEntry_spec hd hname hQ hway
      (hcall m hproper hfits) hns hproper hpath (ht.trans (hts.mono hQ)) hwfs
    exact ⟨s', hrun, ⟨hts.trans hss', hwfs'⟩, hgone, fun j hj => hss'.node_eq_none hj⟩
  obtain ⟨s, hrun, ⟨hts, hwfs⟩, -, hempty⟩ := hloop
  exact ⟨s, hrun, hts, hwfs, hempty⟩

theorem removeDirectoryRecursive_removes (hns : ∀ m ∈ ns, Proper m)
    (hlen : (pathTo logPath (name :: ns)).length < maxPathLength)
    (hfuel : maxPathLength ≤ fuel + (pathTo logPath (name :: ns)).length) :
    Removes env t₀ Q d logPath name (removeDirectoryRecursive env fuel) ns := by
  induction fuel generalizing ns with
  | zero => omega
  | succ fuel ih =>
    intro t ht hwf
    rw [removeDirectoryRecursive]
    cases hopen : t.openDir env.cwd (pathTo logPath (name :: ns)) with
    | none =>
      have hr := resultOf_erases (o := t.remove env.now env.cwd (pathTo logPath (name :: ns))) hwf
        fun s hs => erases_of_call hname hns ht hwf
          ((Option.or_eq_some_iff.mp hs).imp_right And.right)
      refine ⟨_, rfl, hr.1, hr.2, .inl ?_⟩
      by_cases hthere : t.node (d ++ name :: ns) = none
      · exact hr.1.node_eq_none hthere
      · obtain ⟨hunlink, -, hdir, -⟩ := calls_below hd hname hway hns ht hwf hthere
        have hnodir : t.node (d ++ name :: ns) ≠ some .dir := by
          intro h
          rw [hdir h] at hopen
          cases hopen
        rw [remove, hunlink hnodir]
        simp [resultOf]
    | some e =>
      obtain ⟨s, hrun, hts, hwfs, hempty⟩ := removeEntries_spec hd hname hQ hway hfit
        hns
        (fun m hm hfits => ih (proper_append hns hm) hfits (by
          rw [← List.cons_append, pathTo_append, List.length_append, List.length_cons]
          omega)) ht hwf hopen
      have ht₀s := ht.trans (hts.mono hQ)
      have hr := resultOf_erases (o := s.rmdir env.now env.cwd (pathTo logPath (name :: ns))) hwfs
        fun s' hs' => erases_of_call hname hns ht₀s hwfs (.inr hs')
      refine ⟨resultOf s (s.rmdir env.now env.cwd (pathTo logPath (name :: ns))),
        congrArg (Option.map _) hrun, hts.trans hr.1, hr.2, ?_⟩
      by_cases hthere : s.node (d ++ name :: ns) = none
      · exact .inl (hr.1.node_eq_none hthere)
      · obtain ⟨x, hx⟩ := Option.ne_none_iff_exists'.mp hthere
        have hxt := hts.sub _ x hx
        have htthere : t.node (d ++ name :: ns) ≠ none := by simp [hxt]
        obtain ⟨-, -, hdir, hfile⟩ := calls_below hd hname hway hns ht hwf htthere
        have hrmdir := (calls_below hd hname hway hns ht₀s hwfs hthere).2.1
        cases x with
        | dir =>
          -- the directory that has been opened is the entry itself, and it is empty
          have he : e = d ++ name :: ns := Option.some.inj (hopen.symm.trans (hdir hxt))
          have hchildren : s.children (d ++ name :: ns) = [] := by
            refine List.eq_nil_iff_forall_not_mem.mpr fun m hm => ?_
            have hm' := children_sub hts hm
            rw [← he] at hm'
            refine mem_children.mp hm ?_
            rw [List.append_assoc]
            exact hempty m hm'
          rw [if_pos ⟨hx, hchildren⟩] at hrmdir
          rw [hrmdir]
          simp [resultOf]
        | file =>
          rw [hfile hxt] at hopen
          cases hopen
        | link target =>
          rw [if_neg (by simp [hx])] at hrmdir
          rw [hrmdir]
          exact .inr ⟨by simp [resultOf], target, hxt⟩

end Removal

end DcmAgent.Upload.OldBackups
