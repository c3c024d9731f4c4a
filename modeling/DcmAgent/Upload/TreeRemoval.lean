import Mathlib.Tactic
import DcmAgent.Upload.TreeWalks

/-!
# Names that are cut to nothing or to dots

An entry whose name is cut to nothing or to dots is removed by no call, since its own path does not
fit; nor are the directories on the way to it, which are never empty. So
`remove_directory_recursive` comes to it, and its call there does not go down.
-/

namespace DcmAgent.Upload

open Library FileTree
open Archive (maxPathLength)

variable {t s s' : FileTree} {cwd b l way : Loc} {p q n : Path} {ns : List (List Char)}
  {k : FileKind}

/-! ### What stays -/

/-- The entries on the way down are all there. -/
def Keeps (t : FileTree) (way : Loc) (s : FileTree) : Prop := ∀ e ∈ t, e.1 <+: way → e ∈ s

/-- Whatever lies on the way to an entry is a directory with an entry on the way. -/
lemma exists_next (hwf : t.WellFormed) (hway : (way, k) ∈ t) (hl : l <+: way) (hne : l ≠ way) :
    ∃ m k', (l ++ [m], k') ∈ t ∧ l ++ [m] <+: way := by
  induction way using List.reverseRecOn generalizing k with
  | nil => exact absurd (List.prefix_nil.mp hl) hne
  | append_singleton way m ih =>
    rcases List.prefix_concat_iff.mp hl with h | h
    · exact absurd h hne
    · by_cases hlast : l = way
      · subst hlast
        exact ⟨m, k, hway, List.prefix_rfl⟩
      · have hparent : (way, .dir) ∈ t := by
          refine (hwf.parent way m k hway).resolve_left ?_
          rintro rfl
          exact hlast (List.prefix_nil.mp h)
        obtain ⟨m', k', hmem, hpre⟩ := ih hparent h hlast
        exact ⟨m', k', hmem, hpre.trans (List.prefix_append _ _)⟩

/-- Removing what is not at the end of the way, and is no directory or an empty one. -/
lemma keeps_erase (hwf : t.WellFormed) (hway : (way, k) ∈ t) (hsub : s ⊆ t) (hkeeps : Keeps t way s)
    (hne : l ≠ way)
    (hentry : ((l, .regular) ∈ s ∨ (l, .other) ∈ s) ∨ s.children l = []) :
    Keeps t way (s.erase l) := by
  intro e he hpre
  refine mem_erase.mpr ⟨hkeeps e he hpre, ?_⟩
  rintro rfl
  obtain ⟨m, k', hmem, hpre'⟩ := exists_next hwf hway hpre hne
  rcases hentry with hfile | hempty
  · -- what has an entry is a directory
    have hdir := (hwf.parent _ m k' hmem).resolve_left (hwf.ne_nil e he)
    rcases hfile with hfile | hfile
    · cases hwf.kind _ _ _ hdir (hsub hfile)
    · cases hwf.kind _ _ _ hdir (hsub hfile)
  · have hchild := mem_children.mpr (hkeeps _ hmem hpre')
    rw [hempty] at hchild
    cases hchild

/-- The way can be followed while it is there. -/
lemma foldlM_enter_of_keeps {ns : List (List Char)} (hdots : dotDot ∉ ns) {l₀ : Loc}
    (hl : ns.foldlM (enter t) l₀ = some l) : l₀ <+: l ∧
      ((∀ e ∈ t, e.1 <+: l → e ∈ s) → ns.foldlM (enter s) l₀ = some l) := by
  induction ns generalizing l₀ with
  | nil =>
    obtain rfl : l₀ = l := Option.some.inj hl
    exact ⟨List.prefix_rfl, fun _ => rfl⟩
  | cons n ns ih =>
    rw [List.mem_cons, not_or] at hdots
    rw [List.foldlM_cons] at hl
    obtain ⟨l₁, hl₁, hl⟩ := Option.bind_eq_some_iff.mp hl
    obtain ⟨hpre, hfollow⟩ := ih hdots.2 hl
    have hstep : l₀ <+: l₁ ∧ ((∀ e ∈ t, e.1 <+: l → e ∈ s) → enter s l₀ n = some l₁) := by
      unfold enter at hl₁ ⊢
      split_ifs at hl₁ with h₁ h₂ h₃
      · obtain rfl := Option.some.inj hl₁
        exact ⟨List.prefix_rfl, fun _ => if_pos h₁⟩
      · exact absurd h₂.symm hdots.1
      · obtain rfl := Option.some.inj hl₁
        refine ⟨List.prefix_append _ _, fun hkeeps => ?_⟩
        rw [if_neg h₁, if_neg h₂, if_pos (hkeeps _ h₃ hpre)]
    refine ⟨hstep.1.trans hpre, fun hkeeps => ?_⟩
    rw [List.foldlM_cons, hstep.2 hkeeps]
    exact hfollow hkeeps

lemma openDir_of_keeps (hdots : dotDot ∉ components p) (hl : openDir t cwd p = some l)
    (hpre : l <+: way) (hkeeps : Keeps t way s) : openDir s cwd p = some l := by
  unfold openDir at hl ⊢
  split_ifs at hl with hp
  rw [if_neg hp]
  exact (foldlM_enter_of_keeps hdots hl).2 fun e he h => hkeeps e he (h.trans hpre)

/-- Where a path below another one leads. -/
lemma openDir_pathTo (hp : openDir t cwd p = some b) (hns : ∀ n ∈ ns, Proper n)
    (hl : openDir t cwd (pathTo p ns) = some l) : l = b ++ ns := by
  induction ns using List.reverseRecOn generalizing l with
  | nil =>
    rw [pathTo, List.flatMap_nil, List.append_nil, hp] at hl
    rw [List.append_nil]
    exact (Option.some.inj hl).symm
  | append_singleton ns n ih =>
    have hn := hns n (by simp)
    rw [pathTo_append] at hl
    have hne : pathTo p ns ≠ [] := by simp [pathTo, ne_nil_of_openDir hp]
    rw [openDir_append hne hn.slash] at hl
    obtain ⟨l', hl', hl⟩ := Option.bind_eq_some_iff.mp hl
    obtain rfl := ih (fun m hm => hns m (by simp [hm])) hl'
    rw [enter_of_proper hn] at hl
    split_ifs at hl
    rw [← List.append_assoc]
    exact (Option.some.inj hl).symm

lemma length_pathTo (p : Path) (ns : List (List Char)) :
    (pathTo p ns).length = p.length + (ns.map fun n => n.length + 1).sum := by
  simp [pathTo, List.length_flatMap]

/-! ### Calls on paths below -/

/-- Nothing, or dots, is left of the name. -/
def CutAway (q m : Path) : Prop :=
  Library.cutName maxPathLength q m = [] ∨ Library.cutName maxPathLength q m = dot ∨
    Library.cutName maxPathLength q m = dotDot

/-- An entry below `p` whose name is cut to nothing or to dots. -/
structure Lost (t : FileTree) (cwd b : Loc) (p : Path) (ns : List (List Char)) (n : Path)
    (k : FileKind) : Prop where
  wf : t.WellFormed
  opens : openDir t cwd p = some b
  noDots : dotDot ∉ components p
  proper : ∀ m ∈ ns, Proper m
  length : (pathTo p ns).length < maxPathLength
  opensDir : openDir t cwd (pathTo p ns) = some (b ++ ns)
  mem : (n, k) ∈ t.children (b ++ ns)
  cut : CutAway (pathTo p ns) n

/-- A path that leads down from `p` by some names, and fits. -/
def Honest (p q : Path) : Prop :=
  ∃ ms, ms ≠ [] ∧ (∀ m ∈ ms, Proper m) ∧ q = pathTo p ms ∧ q.length < maxPathLength

/-- There is no slash at the end. -/
lemma Honest.trim (hq : Honest p q) : (q.reverse.dropWhile (· = '/')).reverse = q := by
  obtain ⟨ms, hne, hms, rfl, -⟩ := hq
  obtain ⟨ms, m, rfl⟩ := (List.eq_nil_or_concat ms).resolve_left hne
  rw [List.concat_eq_append, pathTo_append]
  have hm := hms m (by simp)
  obtain ⟨m', c, rfl⟩ := (List.eq_nil_or_concat m).resolve_left hm.ne_nil
  have hc : c ≠ '/' := fun heq => hm.slash (by simp [heq])
  simp [hc]

lemma honest_entryPath {ms : List (List Char)} {m : Path} (hms : ∀ m ∈ ms, Proper m)
    (hm : Proper m) (hcut : ¬CutAway (pathTo p ms) m) : Honest p (entryPath (pathTo p ms) m) := by
  rw [CutAway, not_or, not_or] at hcut
  refine ⟨ms ++ [Library.cutName maxPathLength (pathTo p ms) m], by simp, ?_, ?_, ?_⟩
  · intro m' hm'
    rcases List.mem_append.mp hm' with hm' | hm'
    · exact hms m' hm'
    · rw [List.mem_singleton.mp hm']
      exact proper_cutName hm hcut
  · rw [pathTo_append]
    exact take_path hcut.1
  · rw [entryPath, List.length_take, maxPathLength]
    omega

/-- The path in the array when the name is cut away: that of the directory, or it ends with a slash
or dots. -/
lemma entryPath_of_cutAway {m : Path} (hlen : q.length < maxPathLength) :
    (entryPath q m = q ∧ q.length + 1 = maxPathLength) ∨
      entryPath q m = q ++ '/' :: Library.cutName maxPathLength q m := by
  by_cases hfull : q.length + 1 = maxPathLength
  · refine .inl ⟨?_, hfull⟩
    rw [entryPath, ← hfull, Nat.add_sub_cancel, List.take_left]
  · refine .inr ?_
    obtain ⟨j, hj⟩ : ∃ j, maxPathLength - 1 = q.length + (j + 1) :=
      ⟨maxPathLength - 2 - q.length, by omega⟩
    rw [entryPath, hj, List.take_length_add_append, List.take_succ_cons, Library.cutName,
      show maxPathLength - 2 - q.length = j by omega]

/-- Such a path does not lead down. -/
lemma length_le_of_cutAway {m : Path} {l' : Loc} (hlen : q.length < maxPathLength)
    (hcut : CutAway q m) (hm : Proper m) (hl : openDir t cwd q = some l)
    (hl' : openDir t cwd (entryPath q m) = some l') : l'.length ≤ l.length := by
  rcases entryPath_of_cutAway (m := m) hlen with ⟨heq, -⟩ | heq
  · rw [heq, hl] at hl'
    exact (congrArg List.length (Option.some.inj hl')).ge
  · have hslash : '/' ∉ Library.cutName maxPathLength q m := fun hmem =>
      hm.slash (List.mem_of_mem_take hmem)
    rw [heq, openDir_append (ne_nil_of_openDir hl) hslash, hl, Option.bind_some] at hl'
    rcases hcut with hc | hc | hc <;> rw [hc] at hl'
    · exact (congrArg List.length (Option.some.inj hl')).ge
    · exact (congrArg List.length (Option.some.inj hl')).ge
    · rw [← Option.some.inj hl']
      exact (List.dropLast_prefix l).length_le

/-- But it can be opened. -/
lemma exists_openDir_of_cutAway {m : Path} (hlen : q.length < maxPathLength)
    (hcut : CutAway q m) (hm : Proper m) (hl : openDir t cwd q = some l) :
    ∃ l', openDir t cwd (entryPath q m) = some l' := by
  rcases entryPath_of_cutAway (m := m) hlen with ⟨heq, -⟩ | heq
  · exact ⟨l, by rwa [heq]⟩
  · have hslash : '/' ∉ Library.cutName maxPathLength q m := fun hmem =>
      hm.slash (List.mem_of_mem_take hmem)
    rw [heq, openDir_append (ne_nil_of_openDir hl) hslash, hl, Option.bind_some]
    rcases hcut with hc | hc | hc <;> rw [hc] <;> exact ⟨_, rfl⟩

lemma exists_openDir_prefix {ms' : List (List Char)} (hp : p ≠ []) (hns : ∀ m ∈ ns ++ ms', Proper m)
    (hl : openDir t cwd (pathTo p (ns ++ ms')) = some l) :
    ∃ l', openDir t cwd (pathTo p ns) = some l' := by
  induction ms' using List.reverseRecOn generalizing l with
  | nil => exact ⟨l, by rwa [List.append_nil] at hl⟩
  | append_singleton ms' m ih =>
    rw [← List.append_assoc] at hl hns
    rw [pathTo_append, openDir_append (by simp [pathTo, hp]) (hns m (by simp)).slash] at hl
    obtain ⟨l', hl', -⟩ := Option.bind_eq_some_iff.mp hl
    exact ih (fun m hm => hns m (List.mem_append_left _ hm)) hl'

section Lost

variable (h : Lost t cwd b p ns n k)

include h

lemma Lost.mem_way : (b ++ ns ++ [n], k) ∈ t := mem_children.mp h.mem

lemma Lost.proper_name : Proper n := h.wf.proper _ _ _ h.mem_way

/-- Its own path does not fit. -/
lemma Lost.long : maxPathLength ≤ (pathTo p (ns ++ [n])).length := by
  have hshort : (Library.cutName maxPathLength (pathTo p ns) n).length < n.length := by
    by_contra hno
    have hwhole : Library.cutName maxPathLength (pathTo p ns) n = n :=
      (List.take_prefix _ _).eq_of_length_le (not_lt.mp hno)
    have hcut := h.cut
    rw [CutAway, hwhole] at hcut
    rcases hcut with h₁ | h₁ | h₁
    · exact h.proper_name.ne_nil h₁
    · exact h.proper_name.ne_dot h₁
    · exact h.proper_name.ne_dotDot h₁
  have hlen := h.length
  rw [Library.cutName, List.length_take] at hshort
  rw [pathTo_append, List.length_append, List.length_cons]
  omega

lemma Lost.keeps_honest (hs : s ⊆ t) (hq : Honest p q) (hl : locate s cwd q = some l) :
    l ≠ b ++ ns ++ [n] := by
  obtain ⟨ms, hne, hms, rfl, hlen⟩ := hq
  obtain ⟨ms, m, rfl⟩ := (List.eq_nil_or_concat ms).resolve_left hne
  have hp : pathTo p ms ≠ [] := by simp [pathTo, ne_nil_of_openDir h.opens]
  rw [List.concat_eq_append] at *
  rw [pathTo_append, locate_append hp (hms m (by simp))] at hl
  obtain ⟨l', hl', rfl⟩ := Option.map_eq_some_iff.mp hl
  obtain rfl := openDir_pathTo h.opens (fun m hm => hms m (by simp [hm])) (openDir_mono hs hl')
  rintro heq
  rw [List.append_assoc, List.append_assoc] at heq
  have hlong := h.long
  rw [← List.append_cancel_left heq] at hlong
  omega

lemma Lost.keeps_unlink (hs : s ⊆ t) (hkeeps : Keeps t (b ++ ns ++ [n]) s) (hq : Honest p q)
    (hu : unlink s cwd q = some s') : Keeps t (b ++ ns ++ [n]) s' := by
  obtain ⟨l, hl, hkind, rfl⟩ := unlink_eq_some hu
  exact keeps_erase h.wf h.mem_way hs hkeeps (h.keeps_honest hs hq hl) (.inl hkind)

lemma Lost.keeps_rmdir (hs : s ⊆ t) (hkeeps : Keeps t (b ++ ns ++ [n]) s) (hq : Honest p q)
    (hr : rmdir s cwd q = some s') : Keeps t (b ++ ns ++ [n]) s' := by
  obtain ⟨l, -, hempty, rfl, hl⟩ := rmdir_eq_some hr
  rw [hq.trim] at hl
  exact keeps_erase h.wf h.mem_way hs hkeeps (h.keeps_honest hs hq hl) (.inr hempty)

/-- The call for one entry of a directory, with what follows on it. -/
lemma Lost.keeps_entry {fuel : ℕ} {ms : List (List Char)} {m : Path} {o : WalkOutcome FileTree}
    (hcall : ∀ {q s o}, Honest p q → s ⊆ t → Keeps t (b ++ ns ++ [n]) s →
      (removeWalker cwd).walk fuel q s = some o → (∀ c ∈ o.calls, Descends c) →
        Keeps t (b ++ ns ++ [n]) o.state)
    (hms : ∀ m ∈ ms, Proper m) (hlen : (pathTo p ms).length < maxPathLength)
    (hl : openDir t cwd (pathTo p ms) = some l) (hm : Proper m) (hs : s ⊆ t)
    (hkeeps : Keeps t (b ++ ns ++ [n]) s)
    (hwalk : (removeWalker cwd).walk fuel (entryPath (pathTo p ms) m) s = some o)
    (hdesc : Descends (l, openDir s cwd (entryPath (pathTo p ms) m)))
    (hcalls : ∀ c ∈ o.calls, Descends c) :
    Keeps t (b ++ ns ++ [n]) o.state ∧ ∀ s', s' ⊆ t → Keeps t (b ++ ns ++ [n]) s' →
      Keeps t (b ++ ns ++ [n]) ((s'.unlink cwd (entryPath (pathTo p ms) m)).getD s') := by
  have hlose : Honest p (entryPath (pathTo p ms) m) ∨
      openDir s cwd (entryPath (pathTo p ms) m) = none ∧
        ∀ s', locate s' cwd (entryPath (pathTo p ms) m) = none := by
    by_cases hcut : CutAway (pathTo p ms) m
    · have hnone : openDir s cwd (entryPath (pathTo p ms) m) = none := by
        by_contra hopen
        obtain ⟨l', hl'⟩ := Option.ne_none_iff_exists'.mp hopen
        have hle := length_le_of_cutAway hlen hcut hm hl (openDir_mono hs hl')
        have hlt : l.length < l'.length := (hdesc l' hl').2
        omega
      rcases entryPath_of_cutAway (m := m) hlen with ⟨heq, -⟩ | heq
      · -- the directory itself, which is not the one that the walk has started from
        refine .inl ⟨ms, ?_, hms, heq, by rwa [heq]⟩
        rintro rfl
        rw [heq, pathTo, List.flatMap_nil, List.append_nil,
          openDir_of_keeps h.noDots h.opens ?_ hkeeps] at hnone
        · cases hnone
        · rw [List.append_assoc]
          exact List.prefix_append _ _
      · refine .inr ⟨hnone, fun s' => ?_⟩
        rw [heq]
        exact locate_append_of_not (fun hmem => hm.slash (List.mem_of_mem_take hmem)) hcut
    · exact .inl (honest_entryPath hms hm hcut)
  rcases hlose with hhonest | ⟨hnone, hlocate⟩
  · refine ⟨hcall hhonest hs hkeeps hwalk hcalls, fun s' hs' hkeeps' => ?_⟩
    cases hu : s'.unlink cwd (entryPath (pathTo p ms) m) with
    | none => exact hkeeps'
    | some s'' => exact h.keeps_unlink hs' hkeeps' hhonest hu
  · have hunlink : ∀ s' : FileTree, s'.unlink cwd (entryPath (pathTo p ms) m) = none := by
      intro s'
      rw [unlink, hlocate s']
      rfl
    constructor
    · cases fuel with
      | zero => cases hwalk
      | succ fuel =>
        rw [Walker.walk] at hwalk
        have hnone' : openDir ((removeWalker cwd).tree s) (removeWalker cwd).cwd
            ((removeWalker cwd).path (entryPath (pathTo p ms) m)) = none := hnone
        rw [hnone'] at hwalk
        obtain rfl := Option.some.inj hwalk
        have hmissing : ((removeWalker cwd).missing (entryPath (pathTo p ms) m) s).2 = s := by
          change (called s (s.unlink cwd (entryPath (pathTo p ms) m))).2 = s
          rw [hunlink s]
          rfl
        dsimp only
        rwa [hmissing]
    · intro s' _ hkeeps'
      rwa [hunlink s']

omit h in
/-- A turn of the loop: the call, and what follows. -/
lemma visit_removeWalker {call : Path → FileTree → Option (WalkOutcome FileTree)} {m : Path}
    {es : List (List Char × FileKind)} {r : ℤ × FileTree} {res : Bool × WalkOutcome FileTree}
    (hvisit : (removeWalker cwd).visit call q l ((m, k) :: es) r = some res) :
    ∃ o res', call (entryPath q m) r.2 = some o ∧
      (removeWalker cwd).visit call q l es (0, if o.value ≠ 0 then
        (o.state.unlink cwd (entryPath q m)).getD o.state else o.state) = some res' ∧
      res.2.state = res'.2.state ∧
      res.2.calls = (l, openDir r.2 cwd (entryPath q m)) :: o.calls ++ res'.2.calls := by
  rw [Walker.visit] at hvisit
  obtain ⟨o, ho, hvisit⟩ := Option.bind_eq_some_iff.mp hvisit
  obtain ⟨res', hres', rfl⟩ := Option.map_eq_some_iff.mp hvisit
  exact ⟨o, res', ho, hres', rfl, rfl⟩

omit h in
lemma afterCall_subset (o : WalkOutcome FileTree) (filepath : Path) :
    (if o.value ≠ 0 then (o.state.unlink cwd filepath).getD o.state else o.state) ⊆ o.state :=
  removeWalker_shrinks.back filepath o.value ((0 : ℤ), o.state)

lemma Lost.keeps_visit {fuel : ℕ} {ms : List (List Char)}
    (hcall : ∀ {q s o}, Honest p q → s ⊆ t → Keeps t (b ++ ns ++ [n]) s →
      (removeWalker cwd).walk fuel q s = some o → (∀ c ∈ o.calls, Descends c) →
        Keeps t (b ++ ns ++ [n]) o.state)
    (hms : ∀ m ∈ ms, Proper m) (hlen : (pathTo p ms).length < maxPathLength)
    (hl : openDir t cwd (pathTo p ms) = some l) {es : List (List Char × FileKind)}
    (hes : ∀ e ∈ es, Proper e.1) {r : ℤ × FileTree} (hs : r.2 ⊆ t)
    (hkeeps : Keeps t (b ++ ns ++ [n]) r.2) {res : Bool × WalkOutcome FileTree}
    (hvisit : (removeWalker cwd).visit ((removeWalker cwd).walk fuel) (pathTo p ms) l es r =
      some res)
    (hcalls : ∀ c ∈ res.2.calls, Descends c) : Keeps t (b ++ ns ++ [n]) res.2.state := by
  induction es generalizing r res with
  | nil =>
    obtain rfl := Option.some.inj hvisit
    exact hkeeps
  | cons e es ih =>
    obtain ⟨m, k'⟩ := e
    obtain ⟨o, res', ho, hres', hstate, hrecords⟩ := visit_removeWalker hvisit
    rw [hrecords] at hcalls
    obtain ⟨hkeeps', hback⟩ := h.keeps_entry hcall hms hlen hl (hes _ List.mem_cons_self) hs hkeeps
      ho (hcalls _ (by simp)) fun c hc => hcalls c (by simp [hc])
    have hsub := List.Subset.trans (Walker.walk_subset removeWalker_shrinks ho) hs
    rw [hstate]
    refine ih (fun e he => hes e (List.mem_cons_of_mem _ he)) ?_ ?_ hres'
      fun c hc => hcalls c (by simp [hc])
    · exact List.Subset.trans (afterCall_subset o _) hsub
    · dsimp only
      split_ifs
      · exact hback _ hsub hkeeps'
      · exact hkeeps'

/-- A walk from below leaves the way as it is. -/
lemma Lost.keeps_walk {fuel : ℕ} {o : WalkOutcome FileTree} (hq : Honest p q) (hs : s ⊆ t)
    (hkeeps : Keeps t (b ++ ns ++ [n]) s) (hwalk : (removeWalker cwd).walk fuel q s = some o)
    (hcalls : ∀ c ∈ o.calls, Descends c) : Keeps t (b ++ ns ++ [n]) o.state := by
  induction fuel generalizing q s o with
  | zero => cases hwalk
  | succ fuel ih =>
    rw [Walker.walk] at hwalk
    obtain ⟨ms, hne, hms, hqms, hlen⟩ := id hq
    cases hl : openDir s cwd q with
    | none =>
      have hl' : openDir ((removeWalker cwd).tree s) (removeWalker cwd).cwd
          ((removeWalker cwd).path q) = none := hl
      rw [hl'] at hwalk
      obtain rfl := Option.some.inj hwalk
      change Keeps _ _ (called s (s.unlink cwd q)).2
      cases hu : s.unlink cwd q with
      | none => exact hkeeps
      | some s' => exact h.keeps_unlink hs hkeeps hq hu
    | some l =>
      have hl' : openDir ((removeWalker cwd).tree s) (removeWalker cwd).cwd
          ((removeWalker cwd).path q) = some l := hl
      rw [hl'] at hwalk
      obtain ⟨⟨done, o'⟩, hvisit, rfl⟩ := Option.map_eq_some_iff.mp hwalk
      have hes : ∀ e ∈ s.children l, Proper e.1 := fun e he =>
        h.wf.proper l e.1 e.2 (hs (mem_children.mp he))
      subst hqms
      have hrecords : ∀ c ∈ o'.calls, Descends c := by
        cases done <;> exact hcalls
      have hkeeps' := h.keeps_visit ih hms hlen (openDir_mono hs hl) hes hs hkeeps hvisit hrecords
      cases done with
      | false => exact hkeeps'
      | true =>
        change Keeps _ _ (called o'.state (o'.state.rmdir cwd (pathTo p ms))).2
        have hsub := List.Subset.trans (Walker.visit_subset removeWalker_shrinks
          (fun b s o ho => Walker.walk_subset removeWalker_shrinks ho) hvisit) hs
        cases hr : o'.state.rmdir cwd (pathTo p ms) with
        | none => exact hkeeps'
        | some s' => exact h.keeps_rmdir hsub hkeeps' hq hr

/-- The loop comes to an entry on the way, whose call does not go down. -/
lemma Lost.not_visit {fuel : ℕ} {ms : List (List Char)} {c : Path} {kc : FileKind}
    (hms : ∀ m ∈ ms, Proper m) (hlen : (pathTo p ms).length < maxPathLength)
    (hl : openDir t cwd (pathTo p ms) = some l) {es : List (List Char × FileKind)}
    (hes : ∀ e ∈ es, Proper e.1) (hc : (c, kc) ∈ es)
    (hon : ∀ s o, s ⊆ t → Keeps t (b ++ ns ++ [n]) s →
      (removeWalker cwd).walk fuel (entryPath (pathTo p ms) c) s = some o →
        Descends (l, openDir s cwd (entryPath (pathTo p ms) c)) →
          ¬∀ c ∈ o.calls, Descends c)
    {r : ℤ × FileTree} (hs : r.2 ⊆ t) (hkeeps : Keeps t (b ++ ns ++ [n]) r.2)
    {res : Bool × WalkOutcome FileTree}
    (hvisit : (removeWalker cwd).visit ((removeWalker cwd).walk fuel) (pathTo p ms) l es r =
      some res) : ¬∀ c ∈ res.2.calls, Descends c := by
  intro hcalls
  induction es generalizing r res with
  | nil => cases hc
  | cons e es ih =>
    obtain ⟨m, k'⟩ := e
    obtain ⟨o, res', ho, hres', -, hrecords⟩ := visit_removeWalker hvisit
    rw [hrecords] at hcalls
    have hdesc := hcalls _ (List.mem_append_left _ List.mem_cons_self)
    have hcalls' : ∀ c ∈ o.calls, Descends c := fun c hc => hcalls c (by simp [hc])
    rcases List.mem_cons.mp hc with heq | hc
    · obtain ⟨rfl, rfl⟩ := Prod.mk.inj heq
      exact hon _ o hs hkeeps ho hdesc hcalls'
    · obtain ⟨hkeeps', hback⟩ := h.keeps_entry
        (fun hq hs hk hw hd => h.keeps_walk hq hs hk hw hd) hms hlen hl
        (hes _ List.mem_cons_self) hs hkeeps ho hdesc hcalls'
      have hsub := List.Subset.trans (Walker.walk_subset removeWalker_shrinks ho) hs
      refine ih (fun e he => hes e (List.mem_cons_of_mem _ he)) hc
        (List.Subset.trans (afterCall_subset o _) hsub) ?_ hres' fun c hc => hcalls c (by simp [hc])
      dsimp only
      split_ifs
      · exact hback _ hsub hkeeps'
      · exact hkeeps'

lemma Lost.noDots_pathTo {ms : List (List Char)} (hms : ∀ m ∈ ms, Proper m) :
    dotDot ∉ components (pathTo p ms) := by
  rw [components_pathTo fun m hm => (hms m hm).slash, List.mem_append, not_or]
  exact ⟨h.noDots, fun hmem => (hms _ hmem).ne_dotDot rfl⟩

/-- From a directory on the way, if the call for the next entry does not go down. -/
lemma Lost.not_walk_step {fuel : ℕ} {ms : List (List Char)} {c : Path} {kc : FileKind}
    (hms : ∀ m ∈ ms, Proper m) (hlen : (pathTo p ms).length < maxPathLength)
    (hl : openDir t cwd (pathTo p ms) = some (b ++ ms)) (hc : (c, kc) ∈ t.children (b ++ ms))
    (hpre : b ++ ms ++ [c] <+: b ++ ns ++ [n])
    (hon : ∀ fuel s o, s ⊆ t → Keeps t (b ++ ns ++ [n]) s →
      (removeWalker cwd).walk fuel (entryPath (pathTo p ms) c) s = some o →
        Descends (b ++ ms, openDir s cwd (entryPath (pathTo p ms) c)) →
          ¬∀ c ∈ o.calls, Descends c)
    (hs : s ⊆ t) (hkeeps : Keeps t (b ++ ns ++ [n]) s) {o : WalkOutcome FileTree}
    (hwalk : (removeWalker cwd).walk fuel (pathTo p ms) s = some o) :
    ¬∀ c ∈ o.calls, Descends c := by
  have hl' : openDir ((removeWalker cwd).tree s) (removeWalker cwd).cwd
      ((removeWalker cwd).path (pathTo p ms)) = some (b ++ ms) :=
    openDir_of_keeps (h.noDots_pathTo hms) hl ((List.prefix_append _ _).trans hpre) hkeeps
  cases fuel with
  | zero => cases hwalk
  | succ fuel =>
    rw [Walker.walk, hl'] at hwalk
    obtain ⟨⟨done, o'⟩, hvisit, rfl⟩ := Option.map_eq_some_iff.mp hwalk
    have hes : ∀ e ∈ s.children (b ++ ms), Proper e.1 := fun e he =>
      h.wf.proper _ e.1 e.2 (hs (mem_children.mp he))
    have hmem : (c, kc) ∈ s.children (b ++ ms) :=
      mem_children.mpr (hkeeps _ (mem_children.mp hc) hpre)
    have hnot := h.not_visit hms hlen hl hes hmem (hon fuel) hs hkeeps hvisit
    cases done <;> exact hnot

/-- From every directory on the way some call does not go down. -/
lemma Lost.not_walk {fuel : ℕ} {ms ms' : List (List Char)} (hns : ns = ms ++ ms') (hs : s ⊆ t)
    (hkeeps : Keeps t (b ++ ns ++ [n]) s) {o : WalkOutcome FileTree}
    (hwalk : (removeWalker cwd).walk fuel (pathTo p ms) s = some o) :
    ¬∀ c ∈ o.calls, Descends c := by
  induction ms' generalizing ms fuel s o with
  | nil =>
    rw [List.append_nil] at hns
    subst hns
    refine h.not_walk_step h.proper h.length h.opensDir h.mem List.prefix_rfl ?_ hs hkeeps hwalk
    intro _ s o _ hkeeps _ hdesc _
    have hl : openDir s cwd (pathTo p ns) = some (b ++ ns) :=
      openDir_of_keeps (h.noDots_pathTo h.proper) h.opensDir (List.prefix_append _ _) hkeeps
    obtain ⟨l', hl'⟩ := exists_openDir_of_cutAway h.length h.cut h.proper_name hl
    have hle := length_le_of_cutAway h.length h.cut h.proper_name hl hl'
    have hlt : (b ++ ns).length < l'.length := (hdesc l' hl').2
    omega
  | cons c ms' ih =>
    have hns' : ns = ms ++ [c] ++ ms' := by rw [hns]; simp
    have hproper : ∀ m ∈ ms ++ [c], Proper m := fun m hm =>
      h.proper m (hns' ▸ List.mem_append_left _ hm)
    have hp := ne_nil_of_openDir h.opens
    have hopens := h.opensDir
    rw [hns'] at hopens
    obtain ⟨l, hl⟩ := exists_openDir_prefix hp (fun m hm => h.proper m (hns' ▸ hm)) hopens
    obtain ⟨l', hl'⟩ := exists_openDir_prefix hp hproper hl
    obtain rfl := openDir_pathTo h.opens (fun m hm => hproper m (List.mem_append_left _ hm)) hl'
    have hlen : (pathTo p (ms ++ [c])).length < maxPathLength := by
      have hle := h.length
      rw [hns', length_pathTo, List.map_append, List.sum_append] at hle
      rw [length_pathTo]
      omega
    have hlen' : (pathTo p ms).length < maxPathLength := by
      rw [pathTo_append, List.length_append] at hlen
      omega
    have hentry : entryPath (pathTo p ms) c = pathTo p (ms ++ [c]) := by
      rw [entryPath, pathTo_append, List.take_of_length_le]
      rw [pathTo_append] at hlen
      omega
    have hdir : (b ++ ms ++ [c], .dir) ∈ t := by
      rw [pathTo_append, openDir_append (by simp [pathTo, hp]) (hproper c (by simp)).slash, hl',
        Option.bind_some, enter_of_proper (hproper c (by simp))] at hl
      by_contra hno
      rw [if_neg hno] at hl
      cases hl
    refine h.not_walk_step (fun m hm => hproper m (List.mem_append_left _ hm)) hlen' hl'
      (mem_children.mpr hdir) ?_ ?_ hs hkeeps hwalk
    · exact ⟨ms' ++ [n], by simp [hns']⟩
    · intro fuel s o hs hkeeps hw _
      rw [hentry] at hw
      exact ih hns' hs hkeeps hw

lemma Lost.not_allGoDown : ¬AllGoDown t cwd p := by
  intro hall
  obtain ⟨fuel, o, ho, hcalls⟩ := hall.remove
  have ho' : (removeWalker cwd).walk fuel (pathTo p []) t = some o := by
    rw [pathTo, List.flatMap_nil, List.append_nil]
    exact ho
  exact h.not_walk rfl (List.Subset.refl t) (fun e he _ => he) ho' hcalls

end Lost

/-- All four go down if no name is cut to nothing or to dots; and if they do, no name is, unless the
path that they start from has `..` in it. -/
theorem allGoDown_iff_namesLeft (hwf : t.WellFormed) (hp : p.length < maxPathLength) :
    (NamesLeft maxPathLength t cwd p → AllGoDown t cwd p) ∧
      (dotDot ∉ components p → AllGoDown t cwd p → NamesLeft maxPathLength t cwd p) := by
  refine ⟨allGoDown_of_namesLeft hwf hp, ?_⟩
  intro hdots hall hne ns hns hlen l hl n k hmem
  by_contra hno
  have hcut : CutAway (pathTo p ns) n := by
    rw [CutAway]
    tauto
  have hstart : pathTo p [] = p := by simp [pathTo]
  obtain ⟨b, hb⟩ : ∃ b, openDir t cwd (pathTo p []) = some b := exists_openDir_prefix hne hns hl
  rw [hstart] at hb
  obtain rfl := openDir_pathTo hb hns hl
  have hlost : Lost t cwd b p ns n k := ⟨hwf, hb, hdots, hns, hlen, hl, hmem, hcut⟩
  exact hlost.not_allGoDown hall

/-- One directory in the other. -/
def chain (ns : List (List Char)) : FileTree :=
  (List.range ns.length).map fun i => (ns.take (i + 1), .dir)

lemma mem_chain : (l, k) ∈ chain ns ↔ l <+: ns ∧ l ≠ [] ∧ k = .dir := by
  rw [chain, List.mem_map]
  constructor
  · rintro ⟨i, hi, heq⟩
    obtain ⟨rfl, rfl⟩ := Prod.mk.inj heq
    refine ⟨List.take_prefix _ _, ?_, rfl⟩
    have hne : ns ≠ [] := by
      rintro rfl
      simp at hi
    simpa using hne
  · rintro ⟨hpre, hne, rfl⟩
    have hpos := List.length_pos_iff.mpr hne
    refine ⟨l.length - 1, ?_, ?_⟩
    · have := hpre.length_le
      rw [List.mem_range]
      omega
    · rw [Nat.sub_add_cancel hpos, ← List.prefix_iff_eq_take.mp hpre]

lemma wellFormed_chain (hns : ∀ n ∈ ns, Proper n) : (chain ns).WellFormed where
  ne_nil e he := (mem_chain.mp he).2.1
  proper l n k h := hns n ((mem_chain.mp h).1.subset (by simp))
  parent l n k h := by
    by_cases hl : l = []
    · exact .inl hl
    · exact .inr (mem_chain.mpr ⟨(List.prefix_append _ _).trans (mem_chain.mp h).1, hl, rfl⟩)
  kind l k k' h h' := (mem_chain.mp h).2.2.trans (mem_chain.mp h').2.2.symm

/-- `/logs` with a log and a directory that has logs itself. -/
def logTree : FileTree :=
  [(["logs".toList], .dir), (["logs".toList, "app.log".toList], .regular),
    (["logs".toList, "old".toList], .dir),
    (["logs".toList, "old".toList, "app.log".toList], .regular)]

lemma mem_logTree (h : (l, k) ∈ logTree) :
    (l = ["logs".toList] ∧ k = .dir) ∨ (l = ["logs".toList, "app.log".toList] ∧ k = .regular) ∨
      (l = ["logs".toList, "old".toList] ∧ k = .dir) ∨
        (l = ["logs".toList, "old".toList, "app.log".toList] ∧ k = .regular) := by
  simpa [logTree] using h

lemma wellFormed_logTree : logTree.WellFormed where
  ne_nil e he := by
    rcases mem_logTree he with ⟨h, -⟩ | ⟨h, -⟩ | ⟨h, -⟩ | ⟨h, -⟩ <;> simp [h]
  proper l n k h := by
    rcases mem_logTree h with ⟨h, -⟩ | ⟨h, -⟩ | ⟨h, -⟩ | ⟨h, -⟩
    all_goals
      have hlast := congrArg List.getLast? h
      rw [List.getLast?_concat] at hlast
      rw [Option.some.inj hlast]
      decide +kernel
  parent l n k h := by
    rcases mem_logTree h with ⟨h, -⟩ | ⟨h, -⟩ | ⟨h, -⟩ | ⟨h, -⟩
    all_goals
      have hinit := congrArg List.dropLast h
      rw [List.dropLast_concat] at hinit
      rw [hinit]
      simp [logTree]
  kind l k k' h h' := by
    rcases mem_logTree h with ⟨rfl, rfl⟩ | ⟨rfl, rfl⟩ | ⟨rfl, rfl⟩ | ⟨rfl, rfl⟩
    all_goals
      rw [eq_comm]
      simpa [logTree] using h'

theorem allGoDown_logs : AllGoDown logTree [] "/logs".toList ∧
    NamesLeft maxPathLength logTree [] "/logs".toList := by
  have hwf := wellFormed_logTree
  have hleft : NamesLeft maxPathLength logTree [] "/logs".toList := by
    intro _ ns hns _ l hl n k hmem
    have hb : openDir logTree [] "/logs".toList = some ["logs".toList] := by decide +kernel
    obtain rfl := openDir_pathTo hb hns hl
    rcases mem_logTree (mem_children.mp hmem) with ⟨h, -⟩ | ⟨h, -⟩ | ⟨h, -⟩ | ⟨h, -⟩
    · simp at h
    all_goals
      have hlast := congrArg List.getLast? h
      have hinit := congrArg List.dropLast h
      rw [List.getLast?_concat] at hlast
      rw [List.dropLast_concat, List.singleton_append] at hinit
      rw [Option.some.inj hlast, (List.cons.inj hinit).2]
      decide +kernel
  have hlen : "/logs".toList.length < maxPathLength := by decide +kernel
  exact ⟨(allGoDown_iff_namesLeft hwf hlen).1 hleft,
    (allGoDown_iff_namesLeft hwf hlen).2 (by decide +kernel)
      ((allGoDown_iff_namesLeft hwf hlen).1 hleft)⟩

/-- A directory with a path of 511 characters, and one in it. -/
def deepNames : List (List Char) :=
  ["logs".toList, List.replicate 250 'a', List.replicate 254 'b', "c".toList]

/-- The call for the innermost directory opens the one around it. -/
theorem deep_directory_opened_again :
    (chain deepNames).WellFormed ∧ "/logs".toList.length < maxPathLength ∧
      ¬AllGoDown (chain deepNames) [] "/logs".toList := by
  have hwf : (chain deepNames).WellFormed := wellFormed_chain (by decide +kernel)
  refine ⟨hwf, by decide +kernel, fun hall => ?_⟩
  have hlost : Lost (chain deepNames) [] ["logs".toList] "/logs".toList
      [List.replicate 250 'a', List.replicate 254 'b'] "c".toList .dir :=
    { wf := hwf
      opens := by decide +kernel
      noDots := by decide +kernel
      proper := by decide +kernel
      length := by decide +kernel
      opensDir := by decide +kernel
      mem := mem_children.mpr (mem_chain.mpr ⟨by decide +kernel,
        by decide +kernel, rfl⟩)
      cut := .inl (by decide +kernel) }
  exact hlost.not_allGoDown hall

end DcmAgent.Upload
