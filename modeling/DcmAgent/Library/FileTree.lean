import Mathlib.Tactic
import DcmAgent.Library.Directory

/-!
# Trees of files

A tree lists its entries, the names on the way from the root with what they lead to. There are no
symbolic links. A path is followed from the root or from the working directory, and the calls on
paths succeed whenever the tree allows.
-/

namespace DcmAgent.Library

abbrev Loc := List (List Char)

inductive FileKind where
  | dir
  | regular
  | other
  deriving DecidableEq, Repr

instance lawfulBEqEntry : LawfulBEq (Loc × FileKind) := inferInstance

abbrev FileTree := List (Loc × FileKind)

namespace FileTree

variable {t s : FileTree} {cwd l l' : Loc} {p n : List Char} {k : FileKind}

def dot : List Char := ['.']

def dotDot : List Char := ['.', '.']

/-- The name of an entry. -/
structure Proper (n : List Char) : Prop where
  ne_nil : n ≠ []
  ne_dot : n ≠ dot
  ne_dotDot : n ≠ dotDot
  slash : '/' ∉ n

instance (n : List Char) : Decidable (Proper n) :=
  decidable_of_iff (n ≠ [] ∧ n ≠ dot ∧ n ≠ dotDot ∧ '/' ∉ n)
    ⟨fun h => ⟨h.1, h.2.1, h.2.2.1, h.2.2.2⟩,
      fun h => ⟨h.ne_nil, h.ne_dot, h.ne_dotDot, h.slash⟩⟩

/-- Each entry has a proper name and one kind, and lies in a directory. -/
structure WellFormed (t : FileTree) : Prop where
  ne_nil : ∀ e ∈ t, e.1 ≠ []
  proper : ∀ l n k, (l ++ [n], k) ∈ t → Proper n
  parent : ∀ l n k, (l ++ [n], k) ∈ t → l = [] ∨ (l, .dir) ∈ t
  kind : ∀ l k k', (l, k) ∈ t → (l, k') ∈ t → k = k'

/-! ### Paths -/

/-- The texts between the slashes. -/
def components : List Char → List (List Char)
  | [] => [[]]
  | c :: p =>
    if c = '/' then [] :: components p
    else
      match components p with
      | [] => [[c]]
      | n :: ns => (c :: n) :: ns

/-- Follow one component from a directory. -/
def enter (t : FileTree) (l : Loc) (n : List Char) : Option Loc :=
  if n = [] ∨ n = dot then some l
  else if n = dotDot then some l.dropLast
  else if (l ++ [n], .dir) ∈ t then some (l ++ [n])
  else none

/-- Where a path starts. -/
def base (cwd : Loc) (p : List Char) : Loc := if p.head? = some '/' then [] else cwd

/-- The directory that `opendir` opens. -/
def openDir (t : FileTree) (cwd : Loc) (p : List Char) : Option Loc :=
  if p = [] then none else (components p).foldlM (enter t) (base cwd p)

/-- The entry that a path names, whether it is there or not. -/
def locate (t : FileTree) (cwd : Loc) (p : List Char) : Option Loc :=
  match (components p).getLast? with
  | none => none
  | some n =>
    if n = [] ∨ n = dot ∨ n = dotDot then none
    else ((components p).dropLast.foldlM (enter t) (base cwd p)).map (· ++ [n])

/-- The entries of a directory. -/
def children (t : FileTree) (l : Loc) : List (List Char × FileKind) :=
  t.filterMap fun e => e.1.getLast?.bind fun n => if e.1.dropLast = l then some (n, e.2) else none

/-! ### Removing -/

def erase (t : FileTree) (l : Loc) : FileTree := t.filter fun e => e.1 ≠ l

/-- The tree afterwards, unless the call fails. -/
def unlink (t : FileTree) (cwd : Loc) (p : List Char) : Option FileTree :=
  (locate t cwd p).bind fun l =>
    if (l, .regular) ∈ t ∨ (l, .other) ∈ t then some (t.erase l) else none

/-- Slashes at the end do no harm. -/
def rmdir (t : FileTree) (cwd : Loc) (p : List Char) : Option FileTree :=
  (locate t cwd (p.reverse.dropWhile (· = '/')).reverse).bind fun l =>
    if (l, .dir) ∈ t ∧ t.children l = [] then some (t.erase l) else none

/-! ### Entries and paths -/

lemma components_ne_nil (p : List Char) : components p ≠ [] := by
  cases p with
  | nil => simp [components]
  | cons c p =>
    rw [components]
    split_ifs
    · simp
    · split <;> simp

lemma components_of_notMem (hn : '/' ∉ n) : components n = [n] := by
  induction n with
  | nil => rfl
  | cons c n ih =>
    rw [List.mem_cons, not_or] at hn
    rw [components, if_neg (Ne.symm hn.1), ih hn.2]

lemma components_append (hn : '/' ∉ n) :
    components (p ++ '/' :: n) = components p ++ [n] := by
  induction p with
  | nil => simp [components, components_of_notMem hn]
  | cons c p ih =>
    rw [List.cons_append, components, components, ih]
    split_ifs
    · rfl
    · obtain ⟨m, ms, hms⟩ := List.exists_cons_of_ne_nil (components_ne_nil p)
      rw [hms]
      rfl

lemma base_append (hp : p ≠ []) (q : List Char) : base cwd (p ++ q) = base cwd p := by
  obtain ⟨c, p, rfl⟩ := List.exists_cons_of_ne_nil hp
  rfl

/-- The path of an entry is followed to its directory first. -/
lemma openDir_append (hp : p ≠ []) (hn : '/' ∉ n) :
    openDir t cwd (p ++ '/' :: n) = (openDir t cwd p).bind fun l => enter t l n := by
  rw [openDir, if_neg (by simp), openDir, if_neg hp, components_append hn, base_append hp,
    List.foldlM_append]
  simp

lemma locate_append (hp : p ≠ []) (hn : Proper n) :
    locate t cwd (p ++ '/' :: n) = (openDir t cwd p).map (· ++ [n]) := by
  rw [locate, components_append hn.slash, base_append hp, openDir, if_neg hp]
  simp [hn.ne_nil, hn.ne_dot, hn.ne_dotDot]

/-- A path that ends with a slash or a dot names no entry. -/
lemma locate_append_of_not (hn : '/' ∉ n) (hnot : n = [] ∨ n = dot ∨ n = dotDot) :
    locate t cwd (p ++ '/' :: n) = none := by
  rw [locate, components_append hn]
  simp [hnot]

lemma mem_children : (n, k) ∈ t.children l ↔ (l ++ [n], k) ∈ t := by
  rw [children, List.mem_filterMap]
  constructor
  · rintro ⟨⟨l', k'⟩, hmem, h⟩
    obtain ⟨m, hm, h⟩ := Option.bind_eq_some_iff.mp h
    split_ifs at h with hl
    obtain ⟨rfl, rfl⟩ := Prod.mk.inj (Option.some.inj h)
    rwa [← hl, List.dropLast_append_getLast? _ hm]
  · intro hmem
    exact ⟨_, hmem, by simp⟩

lemma mem_erase {e : Loc × FileKind} : e ∈ t.erase l ↔ e ∈ t ∧ e.1 ≠ l := by
  rw [erase, List.mem_filter, decide_eq_true_iff]

lemma enter_mono (h : s ⊆ t) (hs : enter s l n = some l') : enter t l n = some l' := by
  unfold enter at hs ⊢
  split_ifs at hs with h₁ h₂ h₃
  · rwa [if_pos h₁]
  · rwa [if_neg h₁, if_pos h₂]
  · rw [if_neg h₁, if_neg h₂, if_pos (h h₃)]
    exact hs

lemma foldlM_enter_mono (h : s ⊆ t) {ns : List (List Char)}
    (hs : ns.foldlM (enter s) l = some l') : ns.foldlM (enter t) l = some l' := by
  induction ns generalizing l with
  | nil => exact hs
  | cons n ns ih =>
    rw [List.foldlM_cons] at hs ⊢
    obtain ⟨m, hm, hs⟩ := Option.bind_eq_some_iff.mp hs
    exact Option.bind_eq_some_iff.mpr ⟨m, enter_mono h hm, ih hs⟩

/-- What can be opened in a smaller tree is the same directory of the larger one. -/
lemma openDir_mono (h : s ⊆ t) (hs : openDir s cwd p = some l) : openDir t cwd p = some l := by
  unfold openDir at hs ⊢
  split_ifs at hs with hp
  rw [if_neg hp]
  exact foldlM_enter_mono h hs

lemma erase_subset (t : FileTree) (l : Loc) : t.erase l ⊆ t := fun _ h => (mem_erase.mp h).1

lemma unlink_eq_some (h : unlink t cwd p = some s) :
    ∃ l, locate t cwd p = some l ∧ ((l, .regular) ∈ t ∨ (l, .other) ∈ t) ∧ s = t.erase l := by
  obtain ⟨l, hl, h⟩ := Option.bind_eq_some_iff.mp h
  split_ifs at h with hkind
  exact ⟨l, hl, hkind, (Option.some.inj h).symm⟩

lemma rmdir_eq_some (h : rmdir t cwd p = some s) :
    ∃ l, (l, .dir) ∈ t ∧ t.children l = [] ∧ s = t.erase l ∧
      locate t cwd (p.reverse.dropWhile (· = '/')).reverse = some l := by
  obtain ⟨l, hl, h⟩ := Option.bind_eq_some_iff.mp h
  split_ifs at h with hdir
  exact ⟨l, hdir.1, hdir.2, (Option.some.inj h).symm, hl⟩

end FileTree

end DcmAgent.Library
