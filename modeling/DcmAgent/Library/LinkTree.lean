import Mathlib.Tactic
import DcmAgent.Library.TreeWalk

/-!
# Trees of files with symbolic links

The entries of a tree, and the time at which each was changed last. A path is followed through the
links on its way, at most 40 of them. The last name of a path is followed when a directory is
opened, and it is not when an entry is removed.

`Erases Q t s` says that `s` is `t` without some of the entries in `Q`. `way` lists the entries that
are looked up when a path is followed: where these stay, the path leads to the same place.
-/

namespace DcmAgent.Library

open FileTree (Proper components base dot dotDot components_append base_append)

/-- Whatever is no directory and no link is a file. -/
inductive Node where
  | dir
  | file
  | link (target : List Char)
  deriving DecidableEq, Repr

structure LinkTree where
  nodes : List (Loc × Node)
  mtime : Loc → ℤ

namespace LinkTree

variable {t s r : LinkTree} {cwd l l' d : Loc} {p n : List Char} {ns ms : List (List Char)}
  {k : ℕ} {x : Node} {now : ℤ} {Q R : Loc → Prop}

def node (t : LinkTree) (l : Loc) : Option Node := t.nodes.lookup l

/-- The names in a directory. -/
def children (t : LinkTree) (l : Loc) : List (List Char) :=
  t.nodes.filterMap fun e => if e.1.dropLast = l then e.1.getLast? else none

/-- Each entry has a proper name, is there once, and lies in a directory. -/
structure WellFormed (t : LinkTree) : Prop where
  nodup : (t.nodes.map Prod.fst).Nodup
  ne_nil : t.node [] = none
  proper : ∀ l n, t.node (l ++ [n]) ≠ none → Proper n
  parent : ∀ l n, t.node (l ++ [n]) ≠ none → l = [] ∨ t.node l = some .dir

/-! ### Paths -/

def maxLinks : ℕ := 40

/-- Follow the components from a directory. A link is left to `jump`. -/
def steps (t : LinkTree) (k : ℕ) (jump : List (List Char) → Loc → Option (Loc × ℕ)) :
    List (List Char) → Loc → Option (Loc × ℕ)
  | [], l => some (l, k)
  | n :: ns, l =>
    if n = [] ∨ n = dot then steps t k jump ns l
    else if n = dotDot then steps t k jump ns l.dropLast
    else
      match t.node (l ++ [n]) with
      | some .dir => steps t k jump ns (l ++ [n])
      | some (.link target) => jump (components target ++ ns) (base l target)
      | _ => none

/-- The directory at the end, and how many more links can be followed. -/
def follow (t : LinkTree) : ℕ → List (List Char) → Loc → Option (Loc × ℕ)
  | 0 => steps t 0 fun _ _ => none
  | k + 1 => steps t (k + 1) (follow t k)

def resolve (t : LinkTree) (cwd : Loc) (p : List Char) : Option (Loc × ℕ) :=
  if p = [] then none else follow t maxLinks (components p) (base cwd p)

/-- The directory that `opendir` opens. -/
def openDir (t : LinkTree) (cwd : Loc) (p : List Char) : Option Loc :=
  (resolve t cwd p).map Prod.fst

/-- The entry that a path names, whether it is there or not. -/
def locate (t : LinkTree) (cwd : Loc) (p : List Char) : Option Loc :=
  match (components p).getLast? with
  | none => none
  | some n =>
    if n = [] ∨ n = dot ∨ n = dotDot then none
    else (follow t maxLinks (components p).dropLast (base cwd p)).map fun r => r.1 ++ [n]

/-! ### Removing -/

/-- The directory has been changed with it. -/
def erase (t : LinkTree) (now : ℤ) (l : Loc) : LinkTree where
  nodes := t.nodes.filter fun e => e.1 ≠ l
  mtime := Function.update t.mtime l.dropLast now

/-- The tree afterwards, unless the call fails. -/
def unlink (t : LinkTree) (now : ℤ) (cwd : Loc) (p : List Char) : Option LinkTree :=
  (locate t cwd p).bind fun l =>
    match t.node l with
    | none => none
    | some .dir => none
    | some _ => some (t.erase now l)

/-- Slashes at the end do no harm. -/
def rmdir (t : LinkTree) (now : ℤ) (cwd : Loc) (p : List Char) : Option LinkTree :=
  (locate t cwd (p.reverse.dropWhile (· = '/')).reverse).bind fun l =>
    if t.node l = some .dir ∧ t.children l = [] then some (t.erase now l) else none

/-- `remove` tries `unlink` first. -/
def remove (t : LinkTree) (now : ℤ) (cwd : Loc) (p : List Char) : Option LinkTree :=
  (t.unlink now cwd p).or (t.rmdir now cwd p)

/-! ### Following -/

lemma follow_nil : follow t k [] l = some (l, k) := by
  cases k <;> rfl

lemma follow_cons : follow t k (n :: ns) l =
    if n = [] ∨ n = dot then follow t k ns l
    else if n = dotDot then follow t k ns l.dropLast
    else
      match t.node (l ++ [n]), k with
      | some .dir, k => follow t k ns (l ++ [n])
      | some (.link target), k + 1 => follow t k (components target ++ ns) (base l target)
      | _, _ => none := by
  cases k <;> simp only [follow, steps] <;> cases t.node (l ++ [n]) with
  | none => rfl
  | some x => cases x <;> rfl

/-- To follow components, fewer are left from another directory, or fewer links. -/
lemma follow_induct {P : ℕ → List (List Char) → Loc → Prop} (nil : ∀ k l, P k [] l)
    (cons : ∀ k n ns l, (∀ l', P k ns l') → (∀ ns l', k ≠ 0 → P (k - 1) ns l') → P k (n :: ns) l)
    (k : ℕ) (ns : List (List Char)) (l : Loc) : P k ns l := by
  induction k generalizing ns l with
  | zero =>
    induction ns generalizing l with
    | nil => exact nil 0 l
    | cons n ns ih => exact cons 0 n ns l ih fun _ _ h => absurd rfl h
  | succ k ihk =>
    induction ns generalizing l with
    | nil => exact nil (k + 1) l
    | cons n ns ih => exact cons (k + 1) n ns l ih fun ns l' _ => ihk ns l'

lemma follow_append (t : LinkTree) (k : ℕ) (ns ms : List (List Char)) (l : Loc) :
    follow t k (ns ++ ms) l = (follow t k ns l).bind fun r => follow t r.2 ms r.1 := by
  induction k, ns, l using follow_induct with
  | nil k l => rw [follow_nil]; rfl
  | cons k n ns l ih ihk =>
    rw [List.cons_append, follow_cons, follow_cons]
    split_ifs
    · exact ih l
    · exact ih _
    · match t.node (l ++ [n]), k with
      | some .dir, k => exact ih _
      | some (.link target), k + 1 =>
        change follow t k (components target ++ (ns ++ ms)) _ = _
        rw [← List.append_assoc]
        exact ihk _ _ k.succ_ne_zero
      | some (.link target), 0 => rfl
      | some .file, k => rfl
      | none, k => rfl

/-- What is found in a tree with fewer entries is found in the whole tree. -/
lemma follow_mono (h : ∀ l x, s.node l = some x → t.node l = some x) {r : Loc × ℕ}
    (hs : follow s k ns l = some r) : follow t k ns l = some r := by
  induction k, ns, l using follow_induct with
  | nil k l => rwa [follow_nil] at hs ⊢
  | cons k n ns l ih ihk =>
    rw [follow_cons] at hs ⊢
    split_ifs at hs ⊢
    · exact ih l hs
    · exact ih _ hs
    · match hnode : s.node (l ++ [n]), k with
      | some .dir, k =>
        rw [hnode] at hs
        rw [h _ _ hnode]
        exact ih _ hs
      | some (.link target), k + 1 =>
        rw [hnode] at hs
        rw [h _ _ hnode]
        exact ihk _ _ k.succ_ne_zero hs
      | some (.link target), 0 =>
        rw [hnode] at hs
        cases hs
      | some .file, k =>
        rw [hnode] at hs
        cases hs
      | none, k =>
        rw [hnode] at hs
        cases hs

/-! ### The way of a path -/

def waySteps (t : LinkTree) (jump : List (List Char) → Loc → List Loc) :
    List (List Char) → Loc → List Loc
  | [], _ => []
  | n :: ns, l =>
    if n = [] ∨ n = dot then waySteps t jump ns l
    else if n = dotDot then waySteps t jump ns l.dropLast
    else
      (l ++ [n]) :: match t.node (l ++ [n]) with
        | some .dir => waySteps t jump ns (l ++ [n])
        | some (.link target) => jump (components target ++ ns) (base l target)
        | _ => []

def followWay (t : LinkTree) : ℕ → List (List Char) → Loc → List Loc
  | 0 => waySteps t fun _ _ => []
  | k + 1 => waySteps t (followWay t k)

/-- The entries that are looked up. -/
def way (t : LinkTree) (cwd : Loc) (p : List Char) : List Loc :=
  followWay t maxLinks (components p) (base cwd p)

lemma followWay_cons : followWay t k (n :: ns) l =
    if n = [] ∨ n = dot then followWay t k ns l
    else if n = dotDot then followWay t k ns l.dropLast
    else
      (l ++ [n]) :: match t.node (l ++ [n]), k with
        | some .dir, k => followWay t k ns (l ++ [n])
        | some (.link target), k + 1 => followWay t k (components target ++ ns) (base l target)
        | _, _ => [] := by
  cases k <;> simp only [followWay, waySteps] <;> cases t.node (l ++ [n]) with
  | none => rfl
  | some x => cases x <;> rfl

/-- A path leads to the same place when the entries on its way are the same. -/
lemma follow_congr (h : ∀ l' ∈ followWay t k ns l, s.node l' = t.node l') :
    follow s k ns l = follow t k ns l := by
  induction k, ns, l using follow_induct with
  | nil k l => rw [follow_nil, follow_nil]
  | cons k n ns l ih ihk =>
    rw [followWay_cons] at h
    rw [follow_cons, follow_cons]
    split_ifs at h ⊢
    · exact ih l h
    · exact ih _ h
    · obtain ⟨hnode, h⟩ := List.forall_mem_cons.mp h
      rw [hnode]
      match hx : t.node (l ++ [n]), k with
      | some .dir, k =>
        rw [hx] at h
        exact ih _ h
      | some (.link target), k + 1 =>
        rw [hx] at h
        exact ihk _ _ k.succ_ne_zero h
      | some (.link target), 0 => rfl
      | some .file, k => rfl
      | none, k => rfl

lemma resolve_congr (h : ∀ l ∈ way t cwd p, s.node l = t.node l) :
    resolve s cwd p = resolve t cwd p := by
  rw [resolve, resolve, follow_congr h]

/-! ### Paths below a directory -/

lemma resolve_pathTo (hp : p ≠ []) (hns : ∀ n ∈ ns, '/' ∉ n) :
    resolve t cwd (pathTo p ns) = (resolve t cwd p).bind fun r => follow t r.2 ns r.1 := by
  have hne : pathTo p ns ≠ [] := by simp [pathTo, hp]
  rw [resolve, resolve, if_neg hne, if_neg hp, components_pathTo hns, follow_append]
  rw [pathTo, base_append hp]

lemma openDir_mono (h : ∀ l x, s.node l = some x → t.node l = some x)
    (hs : openDir s cwd p = some l) : openDir t cwd p = some l := by
  obtain ⟨r, hr, rfl⟩ := Option.map_eq_some_iff.mp hs
  unfold resolve at hr
  split_ifs at hr with hp
  rw [openDir, resolve, if_neg hp, follow_mono h hr]
  rfl

lemma locate_mono (h : ∀ l x, s.node l = some x → t.node l = some x)
    (hs : locate s cwd p = some l) : locate t cwd p = some l := by
  unfold locate at hs ⊢
  match hlast : (components p).getLast? with
  | none =>
    rw [hlast] at hs
    cases hs
  | some n =>
    rw [hlast] at hs
    dsimp only at hs ⊢
    split_ifs at hs ⊢
    obtain ⟨r, hr, rfl⟩ := Option.map_eq_some_iff.mp hs
    rw [follow_mono h hr]
    rfl

lemma locate_append (hp : p ≠ []) (hn : Proper n) :
    locate t cwd (p ++ '/' :: n) = (openDir t cwd p).map fun d => d ++ [n] := by
  rw [locate, components_append hn.slash, base_append hp, openDir, resolve, if_neg hp,
    Option.map_map, List.getLast?_concat, List.dropLast_concat]
  simp only [hn.ne_nil, hn.ne_dot, hn.ne_dotDot, or_self, if_false]
  rfl

lemma follow_singleton (hn : Proper n) (hnode : t.node (l ++ [n]) = none ∨
    t.node (l ++ [n]) = some .file) : follow t k [n] l = none := by
  rw [follow_cons, if_neg (not_or.mpr ⟨hn.ne_nil, hn.ne_dot⟩), if_neg hn.ne_dotDot]
  rcases hnode with h | h <;> rw [h]

/-- Directories are followed by their names. -/
lemma WellFormed.follow_dirs (hwf : t.WellFormed)
    (hdir : ns = [] ∨ t.node (l ++ ns) = some .dir) : follow t k ns l = some (l ++ ns, k) := by
  induction ns using List.reverseRecOn with
  | nil => rw [follow_nil, List.append_nil]
  | append_singleton ns n ih =>
    replace hdir := hdir.resolve_left (by simp)
    rw [← List.append_assoc] at hdir
    have hthere : t.node (l ++ ns ++ [n]) ≠ none := by
      rw [hdir]
      exact Option.some_ne_none _
    have hproper := hwf.proper (l ++ ns) n hthere
    have hparent : ns = [] ∨ t.node (l ++ ns) = some .dir := by
      refine (hwf.parent (l ++ ns) n hthere).imp_left fun h => ?_
      exact (List.append_eq_nil_iff.mp h).2
    rw [follow_append, ih hparent, Option.bind_some, follow_cons,
      if_neg (not_or.mpr ⟨hproper.ne_nil, hproper.ne_dot⟩), if_neg hproper.ne_dotDot, hdir]
    change follow t k [] (l ++ ns ++ [n]) = _
    rw [follow_nil, List.append_assoc]

/-- What lies below an entry goes with it. -/
lemma WellFormed.node_append (hwf : t.WellFormed) (h : t.node l = none) (hl : l ≠ [])
    (ns : List (List Char)) : t.node (l ++ ns) = none := by
  induction ns using List.reverseRecOn with
  | nil => rwa [List.append_nil]
  | append_singleton ns n ih =>
    by_contra hne
    rw [← List.append_assoc] at hne
    rcases hwf.parent _ n hne with hnil | hdir
    · exact hl (List.append_eq_nil_iff.mp hnil).1
    · rw [ih] at hdir
      cases hdir

lemma node_ne_none_iff : t.node l ≠ none ↔ l ∈ t.nodes.map Prod.fst := by
  rw [node, Ne, List.lookup_eq_none_iff, List.mem_map]
  push Not
  constructor
  · rintro ⟨e, he, hl⟩
    exact ⟨e, he, (by simpa using hl : l = e.1).symm⟩
  · rintro ⟨e, he, rfl⟩
    exact ⟨e, he, by simp⟩

lemma mem_children : n ∈ t.children l ↔ t.node (l ++ [n]) ≠ none := by
  rw [node_ne_none_iff, children, List.mem_filterMap, List.mem_map]
  constructor
  · rintro ⟨e, he, hn⟩
    split_ifs at hn with hl
    exact ⟨e, he, by rw [← hl, List.dropLast_append_getLast? _ hn]⟩
  · rintro ⟨e, he, hl⟩
    exact ⟨e, he, by simp [hl]⟩

lemma WellFormed.nodup_children (hwf : t.WellFormed) (l : Loc) : (t.children l).Nodup := by
  have hmap : t.children l = (t.nodes.map Prod.fst).filterMap fun l' =>
      if l'.dropLast = l then l'.getLast? else none := by
    rw [List.filterMap_map]
    rfl
  rw [hmap]
  refine hwf.nodup.filterMap fun a b n ha hb => ?_
  rw [Option.mem_def] at ha hb
  split_ifs at ha hb with hal hbl
  rw [← List.dropLast_append_getLast? _ ha, ← List.dropLast_append_getLast? _ hb, hal, hbl]

/-- A tree that lists every entry with a proper name, once, and with its directory. -/
lemma wellFormed_of_forall (hnodup : (t.nodes.map Prod.fst).Nodup)
    (h : ∀ l ∈ t.nodes.map Prod.fst, l ≠ [] ∧ (∀ n ∈ l, Proper n) ∧
      (l.dropLast = [] ∨ t.node l.dropLast = some .dir)) : t.WellFormed where
  nodup := hnodup
  ne_nil := by
    by_contra hnil
    exact (h [] (node_ne_none_iff.mp hnil)).1 rfl
  proper l n hthere := (h _ (node_ne_none_iff.mp hthere)).2.1 n (by simp)
  parent l n hthere := by
    have hparent := (h _ (node_ne_none_iff.mp hthere)).2.2
    rwa [List.dropLast_concat] at hparent

/-! ### Without links -/

lemma noLinks_of_forall (h : ∀ e ∈ t.nodes, e.2 = .dir ∨ e.2 = .file) (l : Loc)
    (target : List Char) : t.node l ≠ some (.link target) := by
  intro hl
  obtain ⟨before, after, hnodes, -⟩ := List.lookup_eq_some_iff.mp hl
  have hmem : (l, Node.link target) ∈ t.nodes := by simp [hnodes]
  rcases h _ hmem with h | h <;> cases h

/-- Where there are no links, a path of names leads down. -/
lemma follow_of_noLinks (hlinks : ∀ l' target, l <+: l' → t.node l' ≠ some (.link target))
    (hns : ∀ m ∈ ns, Proper m) {r : Loc × ℕ} (h : follow t k ns l = some r) : r.1 = l ++ ns := by
  induction ns generalizing l with
  | nil =>
    rw [follow_nil] at h
    rw [← Option.some.inj h, List.append_nil]
  | cons n ns ih =>
    obtain ⟨hn, hns⟩ := List.forall_mem_cons.mp hns
    rw [follow_cons, if_neg (not_or.mpr ⟨hn.ne_nil, hn.ne_dot⟩), if_neg hn.ne_dotDot] at h
    match hx : t.node (l ++ [n]) with
    | some .dir =>
      rw [hx] at h
      have hbelow : ∀ l' target, l ++ [n] <+: l' → t.node l' ≠ some (.link target) :=
        fun l' target hl' => hlinks l' target ((List.prefix_append l [n]).trans hl')
      rw [ih hbelow hns h, List.append_assoc, List.singleton_append]
    | some (.link target) => exact absurd hx (hlinks _ target (List.prefix_append l [n]))
    | some .file =>
      rw [hx] at h
      cases h
    | none =>
      rw [hx] at h
      cases h

/-- Below an entry where there are none. -/
lemma openDir_of_noLinks (hd : resolve t cwd p = some (d, k))
    (hlinks : ∀ l target, d ++ [n] <+: l → t.node l ≠ some (.link target)) (hn : Proper n)
    (hns : ∀ m ∈ ns, Proper m) (h : openDir t cwd (pathTo p (n :: ns)) = some l) :
    l = d ++ n :: ns := by
  have hp : p ≠ [] := by
    rintro rfl
    cases hd
  obtain ⟨r, hr, rfl⟩ := Option.map_eq_some_iff.mp h
  rw [resolve_pathTo hp (List.forall_mem_cons.mpr ⟨hn.slash, fun m hm => (hns m hm).slash⟩), hd,
    Option.bind_some, follow_cons, if_neg (not_or.mpr ⟨hn.ne_nil, hn.ne_dot⟩),
    if_neg hn.ne_dotDot] at hr
  match hx : t.node (d ++ [n]) with
  | some .dir =>
    rw [hx] at hr
    rw [follow_of_noLinks hlinks hns hr, List.append_assoc, List.singleton_append]
  | some (.link target) => exact absurd hx (hlinks _ target List.prefix_rfl)
  | some .file =>
    rw [hx] at hr
    cases hr
  | none =>
    rw [hx] at hr
    cases hr

lemma locate_of_noLinks (hd : resolve t cwd p = some (d, k))
    (hlinks : ∀ l target, d ++ [n] <+: l → t.node l ≠ some (.link target)) (hn : Proper n)
    (hns : ∀ m ∈ ns, Proper m) (h : locate t cwd (pathTo p (n :: ns)) = some l) :
    l = d ++ n :: ns := by
  have hp : p ≠ [] := by
    rintro rfl
    cases hd
  induction ns using List.reverseRecOn with
  | nil =>
    have hpath : pathTo p [n] = p ++ '/' :: n := by simp [pathTo]
    rw [hpath, locate_append hp hn, openDir, hd] at h
    exact (Option.some.inj h).symm
  | append_singleton ns m =>
    have hpath : pathTo p (n :: (ns ++ [m])) = pathTo p (n :: ns) ++ '/' :: m :=
      pathTo_append p (n :: ns) m
    have hne : pathTo p (n :: ns) ≠ [] := by simp [pathTo]
    rw [hpath, locate_append hne (hns m (by simp))] at h
    obtain ⟨e, he, rfl⟩ := Option.map_eq_some_iff.mp h
    rw [openDir_of_noLinks hd hlinks hn (fun a ha => hns a (List.mem_append_left _ ha)) he]
    simp

/-! ### What removing keeps -/

@[simp] lemma node_erase : (t.erase now d).node l = if l = d then none else t.node l := by
  rw [node, erase, node]
  dsimp only
  induction t.nodes with
  | nil => simp
  | cons e es ih =>
    by_cases he : e.1 = d
    · rw [List.filter_cons_of_neg (by simpa using he), ih]
      split_ifs with hl
      · rfl
      · rw [List.lookup_cons, beq_eq_false_iff_ne.mpr (he ▸ hl)]
    · rw [List.filter_cons_of_pos (by simpa using he), List.lookup_cons, List.lookup_cons, ih]
      by_cases hl : l = e.1
      · simp [hl, he]
      · rw [beq_eq_false_iff_ne.mpr hl]

/-- The tree without some of the entries in `Q`. -/
structure Erases (Q : Loc → Prop) (t s : LinkTree) : Prop where
  node : ∀ l, s.node l = t.node l ∨ s.node l = none ∧ Q l
  mtime : ∀ l, s.mtime l = t.mtime l ∨ ∃ n, Q (l ++ [n])

lemma Erases.refl (Q : Loc → Prop) (t : LinkTree) : Erases Q t t where
  node _ := .inl rfl
  mtime _ := .inl rfl

lemma Erases.trans (h : Erases Q t s) (h' : Erases Q s r) : Erases Q t r where
  node l := by
    rcases h'.node l with hs | hs
    · rw [hs]
      exact h.node l
    · exact .inr hs
  mtime l := by
    rcases h'.mtime l with hs | hs
    · rw [hs]
      exact h.mtime l
    · exact .inr hs

lemma Erases.mono (h : Erases Q t s) (hQ : ∀ l, Q l → R l) : Erases R t s where
  node l := (h.node l).imp_right fun hl => ⟨hl.1, hQ l hl.2⟩
  mtime l := (h.mtime l).imp_right fun ⟨n, hn⟩ => ⟨n, hQ _ hn⟩

lemma Erases.sub (h : Erases Q t s) (l : Loc) (x : Node) (hx : s.node l = some x) :
    t.node l = some x := by
  rcases h.node l with hl | hl
  · rwa [hl] at hx
  · rw [hl.1] at hx
    cases hx

lemma Erases.node_eq_none (h : Erases Q t s) (hl : t.node l = none) : s.node l = none := by
  cases hs : s.node l with
  | none => rfl
  | some x => rw [h.sub l x hs] at hl; cases hl

lemma Erases.erase (t : LinkTree) (now : ℤ) (hd : d ≠ []) (hQ : Q d) :
    Erases Q t (t.erase now d) where
  node l := by
    rw [node_erase]
    split_ifs with hl
    · exact .inr ⟨rfl, hl ▸ hQ⟩
    · exact .inl rfl
  mtime l := by
    by_cases hl : l = d.dropLast
    · refine .inr ⟨d.getLast hd, ?_⟩
      rwa [hl, List.dropLast_append_getLast]
    · exact .inl (Function.update_of_ne hl _ _)

lemma Erases.resolve (h : Erases Q t s) (hway : ∀ l ∈ way t cwd p, ¬Q l) :
    resolve s cwd p = resolve t cwd p :=
  resolve_congr fun l hl => (h.node l).resolve_right fun hQ => hway l hl hQ.2

/-- An entry can go when nothing lies in it. -/
lemma WellFormed.erase (hwf : t.WellFormed) (hd : t.node d = some .dir → t.children d = []) :
    (t.erase now d).WellFormed where
  nodup := hwf.nodup.sublist (List.filter_sublist.map _)
  ne_nil := by rw [node_erase, hwf.ne_nil, ite_self]
  proper l n h := hwf.proper l n fun hnone => h (by rw [node_erase, hnone, ite_self])
  parent l n h := by
    have hthere : t.node (l ++ [n]) ≠ none := fun hnone => h (by rw [node_erase, hnone, ite_self])
    refine (hwf.parent l n hthere).imp_right fun hdir => ?_
    rw [node_erase, if_neg, hdir]
    rintro rfl
    have hmem := mem_children.mpr hthere
    rw [hd hdir] at hmem
    cases hmem

lemma unlink_eq_some (h : t.unlink now cwd p = some s) :
    ∃ l, locate t cwd p = some l ∧ t.node l ≠ none ∧ t.node l ≠ some .dir ∧
      s = t.erase now l := by
  obtain ⟨l, hl, h⟩ := Option.bind_eq_some_iff.mp h
  refine ⟨l, hl, ?_⟩
  match hx : t.node l with
  | none => rw [hx] at h; cases h
  | some .dir => rw [hx] at h; cases h
  | some .file =>
    rw [hx] at h
    exact ⟨by simp, by simp, (Option.some.inj h).symm⟩
  | some (.link target) =>
    rw [hx] at h
    exact ⟨by simp, by simp, (Option.some.inj h).symm⟩

lemma rmdir_eq_some (h : t.rmdir now cwd p = some s) :
    ∃ l, locate t cwd (p.reverse.dropWhile (· = '/')).reverse = some l ∧
      t.node l = some .dir ∧ t.children l = [] ∧ s = t.erase now l := by
  obtain ⟨l, hl, h⟩ := Option.bind_eq_some_iff.mp h
  split_ifs at h with hdir
  exact ⟨l, hl, hdir.1, hdir.2, (Option.some.inj h).symm⟩

lemma WellFormed.ne_nil_of_node (hwf : t.WellFormed) (h : t.node l ≠ none) : l ≠ [] := by
  rintro rfl
  exact h hwf.ne_nil

lemma Erases.unlink (hwf : t.WellFormed) (h : t.unlink now cwd p = some s)
    (hQ : ∀ l, locate t cwd p = some l → t.node l ≠ none → Q l) :
    Erases Q t s ∧ s.WellFormed := by
  obtain ⟨l, hl, hthere, hdir, rfl⟩ := unlink_eq_some h
  exact ⟨.erase t now (hwf.ne_nil_of_node hthere) (hQ l hl hthere),
    hwf.erase fun h => absurd h hdir⟩

/-- The slashes at the end of a path. -/
lemma trim_append (hn : Proper n) (p : List Char) :
    ((p ++ '/' :: n).reverse.dropWhile (· = '/')).reverse = p ++ '/' :: n := by
  obtain ⟨m, c, rfl⟩ : ∃ m c, n = m ++ [c] :=
    ⟨_, _, (List.dropLast_append_getLast hn.ne_nil).symm⟩
  have hc : c ≠ '/' := fun h => hn.slash (by simp [h])
  simp [hc]

lemma Erases.rmdir (hwf : t.WellFormed) (hn : Proper n)
    (h : t.rmdir now cwd (p ++ '/' :: n) = some s)
    (hQ : ∀ l, locate t cwd (p ++ '/' :: n) = some l → t.node l ≠ none → Q l) :
    Erases Q t s ∧ s.WellFormed := by
  obtain ⟨l, hl, hdir, hempty, rfl⟩ := rmdir_eq_some h
  rw [trim_append hn] at hl
  have hthere : t.node l ≠ none := by
    rw [hdir]
    exact Option.some_ne_none _
  exact ⟨.erase t now (hwf.ne_nil_of_node hthere) (hQ l hl hthere), hwf.erase fun _ => hempty⟩

/-! ### Entries below a directory -/

section Below

variable (hwf : t.WellFormed) (hd : resolve t cwd p = some (d, k))
  (hns : ∀ m ∈ ns, Proper m)

include hwf hd hns

lemma resolve_below (hdir : ns = [] ∨ t.node (d ++ ns) = some .dir) :
    resolve t cwd (pathTo p ns) = some (d ++ ns, k) := by
  have hp : p ≠ [] := by
    rintro rfl
    cases hd
  rw [resolve_pathTo hp fun m hm => (hns m hm).slash, hd, Option.bind_some,
    hwf.follow_dirs hdir]

lemma openDir_below (hdir : ns = [] ∨ t.node (d ++ ns) = some .dir) :
    openDir t cwd (pathTo p ns) = some (d ++ ns) := by
  rw [openDir, resolve_below hwf hd hns hdir]
  rfl

end Below

section Below

variable (hwf : t.WellFormed) (hd : resolve t cwd p = some (d, k))
  (hns : ∀ m ∈ ns, Proper m) (hn : Proper n) (hthere : t.node (d ++ ns ++ [n]) ≠ none)

include hwf hd hns hn hthere

/-- An entry is found by its path. -/
lemma locate_below : locate t cwd (pathTo p ns ++ '/' :: n) = some (d ++ ns ++ [n]) := by
  have hdir : ns = [] ∨ t.node (d ++ ns) = some .dir :=
    (hwf.parent _ n hthere).imp_left fun h => (List.append_eq_nil_iff.mp h).2
  have hp : pathTo p ns ≠ [] := by
    rintro h
    have hopen := openDir_below hwf hd hns hdir
    rw [h] at hopen
    cases hopen
  rw [locate_append hp hn, openDir_below hwf hd hns hdir]
  rfl

lemma unlink_below (hdir : t.node (d ++ ns ++ [n]) ≠ some .dir) :
    t.unlink now cwd (pathTo p ns ++ '/' :: n) = some (t.erase now (d ++ ns ++ [n])) := by
  rw [unlink, locate_below hwf hd hns hn hthere]
  change (match t.node (d ++ ns ++ [n]) with
    | none => none
    | some .dir => none
    | some _ => some (t.erase now (d ++ ns ++ [n]))) = _
  match hx : t.node (d ++ ns ++ [n]) with
  | none => exact absurd hx hthere
  | some .dir => exact absurd hx hdir
  | some .file => rfl
  | some (.link target) => rfl

lemma rmdir_below : t.rmdir now cwd (pathTo p ns ++ '/' :: n) =
    if t.node (d ++ ns ++ [n]) = some .dir ∧ t.children (d ++ ns ++ [n]) = [] then
      some (t.erase now (d ++ ns ++ [n]))
    else none := by
  rw [rmdir, trim_append hn, locate_below hwf hd hns hn hthere]
  rfl

/-- A file is no directory. -/
lemma openDir_below_file (hfile : t.node (d ++ ns ++ [n]) = some .file) :
    openDir t cwd (pathTo p (ns ++ [n])) = none := by
  have hdir : ns = [] ∨ t.node (d ++ ns) = some .dir :=
    (hwf.parent _ n hthere).imp_left fun h => (List.append_eq_nil_iff.mp h).2
  have hp : p ≠ [] := by
    rintro rfl
    cases hd
  have hall : ∀ m ∈ ns ++ [n], '/' ∉ m := by
    intro m hm
    rcases List.mem_append.mp hm with hm | hm
    · exact (hns m hm).slash
    · exact List.mem_singleton.mp hm ▸ hn.slash
  rw [openDir, resolve_pathTo hp hall, hd, Option.bind_some, follow_append,
    hwf.follow_dirs hdir, Option.bind_some, follow_singleton hn (.inr hfile)]
  rfl

end Below

end LinkTree

/-! ### Loops that can fail -/

/-- A loop that keeps an invariant, and that does with each item what the rest of it leaves done. -/
lemma foldlM_done {σ ι : Type*} {step : σ → ι → Option σ} {I : σ → Prop} {G : ι → σ → Prop}
    {l : List ι} {s : σ} (hstep : ∀ i ∈ l, ∀ s, I s → ∃ s', step s i = some s' ∧ I s' ∧ G i s' ∧
      ∀ j, G j s → G j s') (hs : I s) :
    ∃ s', l.foldlM step s = some s' ∧ I s' ∧ (∀ j, G j s → G j s') ∧ ∀ i ∈ l, G i s' := by
  induction l generalizing s with
  | nil => exact ⟨s, rfl, hs, fun _ h => h, fun i hi => nomatch hi⟩
  | cons i l ih =>
    obtain ⟨s₁, hs₁, hI, hdone, hkeeps⟩ := hstep i List.mem_cons_self s hs
    obtain ⟨s', hs', hI', hkeeps', hall⟩ :=
      ih (fun j hj => hstep j (List.mem_cons_of_mem _ hj)) hI
    refine ⟨s', ?_, hI', fun j hj => hkeeps' j (hkeeps j hj), ?_⟩
    · rw [List.foldlM_cons, hs₁]
      exact hs'
    · exact List.forall_mem_cons.mpr ⟨hkeeps' i hdone, hall⟩

end DcmAgent.Library
