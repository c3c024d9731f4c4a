import Mathlib.Tactic
import DcmAgent.Library.FileTree

/-!
# Walks over trees of files

A walker opens a directory and calls itself for some of the entries. It builds the path of an entry
in an array, so a long path is cut. The walk is given a bound on the depth of its calls; every call
is recorded with the directory that it starts from and the one that it opens. When no name is cut to
nothing or to dots, a call goes down in the tree, and the walk ends.
-/

namespace DcmAgent.Library

open FileTree

/-- The value returned, the state, and the calls with the directories that are opened. -/
structure WalkOutcome (σ : Type) where
  value : ℤ
  state : σ
  calls : List (Loc × Option Loc)

/-- A recursive function on directories: `σ` is the state, `α` the arguments of a call, and the
value is the one that the function accumulates. -/
structure Walker (σ α : Type) where
  cwd : Loc
  /-- The size of the array for the path of an entry. -/
  size : ℕ
  path : α → List Char
  tree : σ → FileTree
  /-- The directory cannot be opened. -/
  missing : α → σ → ℤ × σ
  /-- The arguments of the call for an entry. -/
  child : σ → α → List Char → FileKind → Option α
  /-- An entry without a call. -/
  pass : α → Loc → List Char → FileKind → ℤ × σ → ℤ × σ
  /-- After a call, with its arguments and its value: whether the loop goes on. -/
  back : α → ℤ → ℤ × σ → Bool × ℤ × σ
  /-- After the last entry. -/
  finish : α → ℤ × σ → ℤ × σ

namespace Walker

variable {σ α : Type} (w : Walker σ α)

/-- The loop over the entries, and whether it has reached the last one. -/
def visit (call : α → σ → Option (WalkOutcome σ)) (a : α) (l : Loc) :
    List (List Char × FileKind) → ℤ × σ → Option (Bool × WalkOutcome σ)
  | [], r => some (true, ⟨r.1, r.2, []⟩)
  | (n, k) :: es, r =>
    match w.child r.2 a n k with
    | none => visit call a l es (w.pass a l n k r)
    | some b =>
      (call b r.2).bind fun o =>
        let record := (l, openDir (w.tree r.2) w.cwd (w.path b))
        let (goesOn, r') := w.back b o.value (r.1, o.state)
        if goesOn then
          (visit call a l es r').map fun (done, o') =>
            (done, { o' with calls := record :: o.calls ++ o'.calls })
        else some (false, ⟨r'.1, r'.2, record :: o.calls⟩)

/-- A call; `none` when the bound is too small. -/
def walk : ℕ → α → σ → Option (WalkOutcome σ)
  | 0, _, _ => none
  | fuel + 1, a, s =>
    match openDir (w.tree s) w.cwd (w.path a) with
    | none => some ⟨(w.missing a s).1, (w.missing a s).2, []⟩
    | some l =>
      (w.visit (walk fuel) a l ((w.tree s).children l) (0, s)).map fun (done, o) =>
        if done then
          ⟨(w.finish a (o.value, o.state)).1, (w.finish a (o.value, o.state)).2, o.calls⟩
        else o

/-- Entries can go, and none can come. -/
structure Shrinks : Prop where
  missing : ∀ a s, w.tree (w.missing a s).2 ⊆ w.tree s
  pass : ∀ a l n k r, w.tree (w.pass a l n k r).2 ⊆ w.tree r.2
  back : ∀ b v r, w.tree (w.back b v r).2.2 ⊆ w.tree r.2
  finish : ∀ a r, w.tree (w.finish a r).2 ⊆ w.tree r.2

/-- The path of an entry is what `snprintf` leaves in the array. -/
def BuildsPaths : Prop :=
  ∀ s a n k b, w.child s a n k = some b →
    w.path b = (w.path a ++ '/' :: n).take (w.size - 1)

end Walker

/-! ### Paths below a directory -/

/-- The path of what lies below a path. -/
def pathTo (p : List Char) (ns : List (List Char)) : List Char := p ++ ns.flatMap ('/' :: ·)

/-- What is left of the name of an entry. -/
def cutName (size : ℕ) (p n : List Char) : List Char := n.take (size - 2 - p.length)

/-- No name below the path is cut to nothing or to dots. The empty path leads nowhere. -/
def NamesLeft (size : ℕ) (t : FileTree) (cwd : Loc) (p : List Char) : Prop :=
  p ≠ [] → ∀ ns : List (List Char), (∀ n ∈ ns, Proper n) → (pathTo p ns).length < size →
    ∀ l, openDir t cwd (pathTo p ns) = some l → ∀ n k, (n, k) ∈ t.children l →
      cutName size (pathTo p ns) n ≠ [] ∧ cutName size (pathTo p ns) n ≠ dot ∧
        cutName size (pathTo p ns) n ≠ dotDot

/-- If the call opens a directory, that lies below. -/
def Descends (c : Loc × Option Loc) : Prop := ∀ l ∈ c.2, c.1 <+: l ∧ c.1.length < l.length

variable {σ α : Type} {w : Walker σ α} {t s : FileTree} {cwd l : Loc} {p n : List Char}
  {ns : List (List Char)} {size : ℕ} {k : FileKind}

lemma pathTo_append (p : List Char) (ns : List (List Char)) (n : List Char) :
    pathTo p (ns ++ [n]) = pathTo p ns ++ '/' :: n := by
  simp [pathTo]

lemma components_pathTo (hns : ∀ n ∈ ns, '/' ∉ n) (p : List Char) :
    components (pathTo p ns) = components p ++ ns := by
  induction ns using List.reverseRecOn with
  | nil => simp [pathTo]
  | append_singleton ns n ih =>
    rw [pathTo_append, components_append (hns n (by simp)),
      ih fun m hm => hns m (List.mem_append_left _ hm), List.append_assoc]

/-- The path in the array, when something is left of the name. -/
lemma take_path (h : cutName size p n ≠ []) :
    (p ++ '/' :: n).take (size - 1) = p ++ '/' :: cutName size p n := by
  have hlen : p.length + 1 < size - 1 := by
    by_contra hno
    refine h ?_
    rw [cutName, show size - 2 - p.length = 0 by omega, List.take_zero]
  obtain ⟨m, hm⟩ : ∃ m, size - 1 = p.length + (m + 1) := ⟨size - 2 - p.length, by omega⟩
  rw [hm, List.take_length_add_append, List.take_succ_cons, cutName,
    show size - 2 - p.length = m by omega]

lemma proper_cutName (hn : Proper n) (h : cutName size p n ≠ [] ∧ cutName size p n ≠ dot ∧
    cutName size p n ≠ dotDot) : Proper (cutName size p n) :=
  ⟨h.1, h.2.1, h.2.2, fun hmem => hn.slash (List.mem_of_mem_take hmem)⟩

lemma enter_of_proper (hn : Proper n) :
    enter t l n = if (l ++ [n], .dir) ∈ t then some (l ++ [n]) else none := by
  rw [enter, if_neg (not_or.mpr ⟨hn.ne_nil, hn.ne_dot⟩), if_neg hn.ne_dotDot]

/-- A path that can be opened is not empty. -/
lemma ne_nil_of_openDir (h : openDir t cwd p = some l) : p ≠ [] := by
  rintro rfl
  cases h

/-! ### The walk goes down -/

/-- The path leads down from `p` by proper names, and it fits. -/
def Below (p : List Char) (size : ℕ) (q : List Char) : Prop :=
  ∃ ns, (∀ n ∈ ns, Proper n) ∧ q = pathTo p ns ∧ q.length < size

/-- The path of an entry leads down, and what it opens lies one level deeper. -/
lemma Below.child (hleft : NamesLeft size t cwd p) (hp : p ≠ []) {q : List Char}
    (hq : Below p size q) (hl : openDir t cwd q = some l) (hmem : (n, k) ∈ t.children l)
    (hn : Proper n) :
    Below p size ((q ++ '/' :: n).take (size - 1)) ∧
      ∀ l', openDir t cwd ((q ++ '/' :: n).take (size - 1)) = some l' →
        ∃ m, l' = l ++ [m] := by
  obtain ⟨ns, hns, rfl, hlen⟩ := hq
  have hcut := hleft hp ns hns hlen l hl n k hmem
  have hproper := proper_cutName hn hcut
  rw [take_path hcut.1]
  refine ⟨⟨ns ++ [cutName size (pathTo p ns) n], ?_, (pathTo_append _ _ _).symm, ?_⟩, ?_⟩
  · intro m hm
    rcases List.mem_append.mp hm with hm | hm
    · exact hns m hm
    · rwa [List.mem_singleton.mp hm]
  · rw [← take_path hcut.1, List.length_take]
    omega
  · intro l' hl'
    rw [openDir_append (ne_nil_of_openDir hl) hproper.slash, hl, Option.bind_some,
      enter_of_proper hproper] at hl'
    split_ifs at hl'
    exact ⟨_, (Option.some.inj hl').symm⟩

/-- The loop ends, if every call does. -/
lemma Walker.visit_ends (hshrinks : w.Shrinks) {call : α → σ → Option (WalkOutcome σ)} {a : α}
    {es : List (List Char × FileKind)} {r : ℤ × σ} (hr : w.tree r.2 ⊆ t)
    (hcall : ∀ s b n k, (n, k) ∈ es → w.child s a n k = some b → ∀ s', w.tree s' ⊆ t →
      Descends (l, openDir (w.tree s') w.cwd (w.path b)) ∧ ∃ o, call b s' = some o ∧
        (∀ c ∈ o.calls, Descends c) ∧ w.tree o.state ⊆ t) :
    ∃ res, w.visit call a l es r = some res ∧ (∀ c ∈ res.2.calls, Descends c) ∧
      w.tree res.2.state ⊆ t := by
  induction es generalizing r with
  | nil => exact ⟨_, rfl, by simp, hr⟩
  | cons e es ih =>
    obtain ⟨n, k⟩ := e
    have htail : ∀ {r : ℤ × σ}, w.tree r.2 ⊆ t → ∃ res, w.visit call a l es r = some res ∧
        (∀ c ∈ res.2.calls, Descends c) ∧ w.tree res.2.state ⊆ t := fun hr =>
      ih hr fun s b n k hmem => hcall s b n k (List.mem_cons_of_mem _ hmem)
    rw [Walker.visit]
    cases hchild : w.child r.2 a n k with
    | none => exact htail (List.Subset.trans (hshrinks.pass a l n k r) hr)
    | some b =>
      obtain ⟨hdesc, o, ho, hcalls, hsub⟩ := hcall _ b n k List.mem_cons_self hchild r.2 hr
      have hback := List.Subset.trans (hshrinks.back b o.value (r.1, o.state)) hsub
      simp only [ho, Option.bind_some]
      split_ifs
      · obtain ⟨res, hres, hcalls', hsub'⟩ := htail hback
        rw [hres]
        refine ⟨_, rfl, ?_, hsub'⟩
        intro c hc
        rcases List.mem_append.mp hc with hc | hc
        · rcases List.mem_cons.mp hc with rfl | hc
          · exact hdesc
          · exact hcalls c hc
        · exact hcalls' c hc
      · exact ⟨_, rfl, List.forall_mem_cons.mpr ⟨hdesc, hcalls⟩, hback⟩

/-- The call ends, if those for the entries do. -/
lemma Walker.walk_succ_ends (hshrinks : w.Shrinks) {fuel : ℕ} {a : α} {s : σ}
    (hs : w.tree s ⊆ t)
    (hcall : ∀ l, openDir (w.tree s) w.cwd (w.path a) = some l → ∀ s' b n k,
      (n, k) ∈ (w.tree s).children l → w.child s' a n k = some b → ∀ s', w.tree s' ⊆ t →
        Descends (l, openDir (w.tree s') w.cwd (w.path b)) ∧ ∃ o, w.walk fuel b s' = some o ∧
          (∀ c ∈ o.calls, Descends c) ∧ w.tree o.state ⊆ t) :
    ∃ o, w.walk (fuel + 1) a s = some o ∧ (∀ c ∈ o.calls, Descends c) ∧ w.tree o.state ⊆ t := by
  rw [Walker.walk]
  cases hl : openDir (w.tree s) w.cwd (w.path a) with
  | none => exact ⟨_, rfl, by simp, List.Subset.trans (hshrinks.missing a s) hs⟩
  | some l =>
    obtain ⟨⟨done, o⟩, ho, hcalls, hsub⟩ :=
      Walker.visit_ends (r := ((0 : ℤ), s)) hshrinks hs (hcall l hl)
    dsimp only
    rw [ho]
    cases done with
    | true =>
      exact ⟨_, rfl, hcalls, List.Subset.trans (hshrinks.finish a (o.value, o.state)) hsub⟩
    | false => exact ⟨_, rfl, hcalls, hsub⟩

/-- Every call goes down, so the walk ends when no entry is left below. -/
theorem Walker.walk_ends (hshrinks : w.Shrinks) (hpaths : w.BuildsPaths) (hwf : t.WellFormed)
    (hleft : NamesLeft w.size t w.cwd p) (hp : p ≠ []) (height : ℕ) {a : α} {s : σ}
    (ha : Below p w.size (w.path a)) (hs : w.tree s ⊆ t)
    (hheight : ∀ l, openDir t w.cwd (w.path a) = some l →
      ∀ e ∈ t, e.1.length ≤ l.length + height) :
    ∃ o, w.walk (height + 1) a s = some o ∧ (∀ c ∈ o.calls, Descends c) ∧ w.tree o.state ⊆ t := by
  induction height generalizing a s with
  | zero =>
    refine Walker.walk_succ_ends hshrinks hs ?_
    intro l hl _ b n k hmem
    have hlen := hheight l (openDir_mono hs hl) _ (hs (mem_children.mp hmem))
    rw [List.length_append, List.length_singleton] at hlen
    omega
  | succ height ih =>
    refine Walker.walk_succ_ends hshrinks hs ?_
    intro l hl s₀ b n k hmem hb s' hs'
    have hl' := openDir_mono hs hl
    have hmem' := hs (mem_children.mp hmem)
    obtain ⟨hbelow, hopens⟩ :=
      ha.child hleft hp hl' (mem_children.mpr hmem') (hwf.proper l n k hmem')
    rw [← hpaths s₀ a n k b hb] at hbelow hopens
    constructor
    · intro l' hopen
      obtain ⟨m, rfl⟩ := hopens l' (openDir_mono hs' hopen)
      exact ⟨List.prefix_append _ _, by simp⟩
    · refine ih hbelow hs' ?_
      intro l' hopen e he
      obtain ⟨m, rfl⟩ := hopens l' hopen
      have hlen := hheight l hl' e he
      rw [List.length_append, List.length_singleton]
      omega

/-- No entry comes while a walk runs. -/
lemma Walker.visit_subset (hshrinks : w.Shrinks) {call : α → σ → Option (WalkOutcome σ)}
    (hcall : ∀ b s o, call b s = some o → w.tree o.state ⊆ w.tree s) {a : α}
    {es : List (List Char × FileKind)} {r : ℤ × σ} {res : Bool × WalkOutcome σ}
    (h : w.visit call a l es r = some res) : w.tree res.2.state ⊆ w.tree r.2 := by
  induction es generalizing r res with
  | nil =>
    obtain rfl := Option.some.inj h
    exact List.Subset.refl _
  | cons e es ih =>
    obtain ⟨n, k⟩ := e
    rw [Walker.visit] at h
    cases hchild : w.child r.2 a n k with
    | none =>
      rw [hchild] at h
      exact List.Subset.trans (ih h) (hshrinks.pass a l n k r)
    | some b =>
      rw [hchild] at h
      obtain ⟨o, ho, h⟩ := Option.bind_eq_some_iff.mp h
      have hback := List.Subset.trans (hshrinks.back b o.value (r.1, o.state)) (hcall b _ o ho)
      dsimp only at h
      split_ifs at h
      · obtain ⟨res', hres', rfl⟩ := Option.map_eq_some_iff.mp h
        have hrest := ih hres'
        exact List.Subset.trans hrest hback
      · obtain rfl := Option.some.inj h
        exact hback

lemma Walker.walk_subset (hshrinks : w.Shrinks) {fuel : ℕ} {a : α} {s : σ} {o : WalkOutcome σ}
    (h : w.walk fuel a s = some o) : w.tree o.state ⊆ w.tree s := by
  induction fuel generalizing a s o with
  | zero => cases h
  | succ fuel ih =>
    rw [Walker.walk] at h
    cases hl : openDir (w.tree s) w.cwd (w.path a) with
    | none =>
      rw [hl] at h
      obtain rfl := Option.some.inj h
      exact hshrinks.missing a s
    | some l =>
      rw [hl] at h
      obtain ⟨⟨done, o'⟩, ho', rfl⟩ := Option.map_eq_some_iff.mp h
      have hsub := Walker.visit_subset hshrinks (fun b s o ho => ih ho) ho'
      cases done with
      | true => exact List.Subset.trans (hshrinks.finish a (o'.value, o'.state)) hsub
      | false => exact hsub

end DcmAgent.Library
