import Mathlib.Tactic
import DcmAgent.Reboot.Timestamps

/-!
# Timestamps of logs that are uploaded now

`add_timestamp_to_files_uploadlogsnow` puts the timestamp in front of the names of a directory, the
names that have one already and two special logs apart. A script has told the names with a
timestamp by a shell pattern; here they are searched by hand.
-/

namespace DcmAgent.Reboot.UploadLogsNow

open Library

/-- What the calls return: the time, unless it cannot be told, the entries of a directory, and
whether an entry can be renamed. -/
structure Calls where
  now : Option ℤ
  readdir : Directory Node → Option (List Name)
  complete : ∀ d entries n, readdir d = some entries → n ∈ d.names → n ∈ entries
  renames : Name → Bool

/-- A text that starts with a dash, two digits, `AM` or `PM`, and a dash. -/
def ampmAt (s : List Char) : Bool :=
  match s with
  | '-' :: c :: c' :: x :: 'M' :: '-' :: _ => c.isDigit && c'.isDigit && (x = 'A' || x = 'P')
  | _ => false

/-- The loop over the positions of a name, whose bound is `filename_len - 6`. -/
def hasAmpm (n : Name) : Bool :=
  6 < n.length && (List.range (n.length - 6)).any fun i => ampmAt (n.drop i)

def rebootLog : Name := "reboot.log".toList

def ablReason : Name := "ABLReason.txt".toList

/-- The name is passed over. -/
def Passed (timestamp n : Name) : Prop :=
  (n.head? = some '.' ∨ n = "..".toList ∨ timestamp <+: n) ∨
    hasAmpm n = true ∨ n = rebootLog ∨ n = ablReason

instance (timestamp n : Name) : Decidable (Passed timestamp n) := by
  unfold Passed; infer_instance

def newName (path timestamp n : Name) : Option Name :=
  if Passed timestamp n then none
  else if Fits path n ∧ Fits path (timestamp ++ n) then some (timestamp ++ n)
  else none

/-- The errors so far, and the directory. -/
def renameEntry (calls : Calls) (path timestamp : Name) (s : ℕ × Directory Node) (n : Name) :
    ℕ × Directory Node :=
  match newName path timestamp n with
  | none => s
  | some m =>
    if calls.renames n ∧ n ∈ s.2.names then (s.1, s.2.rename n m) else (s.1 + 1, s.2)

/-- The result, the stored prefix, and the directory. -/
def addTimestampToFilesUploadlogsnow (calls : Calls) (path : Option Name)
    (timestampPrefix : List Char) (dir : Option (Directory Node)) :
    ℤ × List Char × Option (Directory Node) :=
  match path, dir with
  | some path, some d =>
    match calls.now with
    | none => (-1, timestampPrefix, some d)
    | some t =>
      match calls.readdir d with
      | none => (-1, stamp t, some d)
      | some entries =>
        let s := entries.foldl (renameEntry calls path (stamp t)) (0, d)
        (if 0 < s.1 then -1 else 0, stamp t, some s.2)
  | _, dir => (-1, timestampPrefix, dir)

/-! ### The names of the script -/

/-- The shell pattern `.*-[0-9][0-9][AP]M-.*`. -/
def matchesPattern (n : Name) : Bool := n.tails.any ampmAt

/-- The names that stay as they are. -/
def Kept (timestamp n : Name) : Prop :=
  n.head? = some '.' ∨ timestamp <+: n ∨ matchesPattern n = true ∨ n = rebootLog ∨ n = ablReason

instance (timestamp n : Name) : Decidable (Kept timestamp n) := by
  unfold Kept; infer_instance

/-- The directory has the files that it has had, under the names that they are to have. -/
def RenamesRight (calls : Calls) (path timestamp : Name) (d : Directory Node) : Prop :=
  ∀ timestampPrefix, ∃ d',
    (addTimestampToFilesUploadlogsnow calls (some path) timestampPrefix (some d)).2.2 = some d' ∧
      d'.Same (d.map fun p => (if Kept timestamp p.1 then p.1 else timestamp ++ p.1, p.2))

/-- The calls succeed, and the paths of the files that are renamed fit. -/
structure Smooth (calls : Calls) (path : Name) (t : ℤ) (d : Directory Node) : Prop where
  now : calls.now = some t
  reads : calls.readdir d ≠ none
  renames : ∀ n, calls.renames n = true
  nodup : d.names.Nodup
  fits : ∀ n ∈ d.names, ¬ Passed (stamp t) n → Fits path (stamp t ++ n)

variable {calls : Calls} {path timestamp n m : Name} {d : Directory Node} {t : ℤ}

/-! ### The search -/

lemma ampmAt_iff {s : List Char} : ampmAt s = true ↔ ∃ c c' x v,
    s = '-' :: c :: c' :: x :: 'M' :: '-' :: v ∧
      c.isDigit = true ∧ c'.isDigit = true ∧ (x = 'A' ∨ x = 'P') := by
  unfold ampmAt
  split
  · rename_i c c' x v
    simp only [Bool.and_eq_true, Bool.or_eq_true, decide_eq_true_eq]
    constructor
    · rintro ⟨⟨hc, hc'⟩, hx⟩
      exact ⟨c, c', x, v, rfl, hc, hc', hx⟩
    · rintro ⟨_, _, _, _, heq, hc, hc', hx⟩
      simp only [List.cons.injEq, true_and] at heq
      obtain ⟨rfl, rfl, rfl, -⟩ := heq
      exact ⟨⟨hc, hc'⟩, hx⟩
  · rename_i hno
    refine iff_of_false Bool.false_ne_true ?_
    rintro ⟨c, c', x, v, heq, -⟩
    exact hno c c' x v heq

/-- A match ends in front of the last character, or it is at the end. -/
lemma ampmAt_dropLast_iff {s : List Char} :
    ampmAt s.dropLast = true ↔ ampmAt s = true ∧ 6 < s.length := by
  constructor
  · intro h
    obtain ⟨c, c', x, v, heq, hc, hc', hx⟩ := ampmAt_iff.mp h
    have hne : s ≠ [] := by
      rintro rfl
      cases heq
    have hs := List.dropLast_append_getLast hne
    rw [heq] at hs
    refine ⟨ampmAt_iff.mpr ⟨c, c', x, v ++ [s.getLast hne], hs.symm, hc, hc', hx⟩, ?_⟩
    rw [← hs]
    simp
  · rintro ⟨h, hlen⟩
    obtain ⟨c, c', x, v, rfl, hc, hc', hx⟩ := ampmAt_iff.mp h
    match v with
    | [] => exact absurd hlen (by simp)
    | y :: v => exact ampmAt_iff.mpr ⟨c, c', x, (y :: v).dropLast, rfl, hc, hc', hx⟩

lemma matchesPattern_iff : matchesPattern n = true ↔ ∃ i, ampmAt (n.drop i) = true := by
  rw [matchesPattern, List.any_eq_true]
  constructor
  · rintro ⟨s, hs, h⟩
    refine ⟨n.length - s.length, ?_⟩
    rwa [← List.suffix_iff_eq_drop.mp ((List.mem_tails _ _).mp hs)]
  · rintro ⟨i, h⟩
    exact ⟨_, (List.mem_tails _ _).mpr (List.drop_suffix i n), h⟩

/-- The pattern as it is written. -/
lemma matchesPattern_iff_exists : matchesPattern n = true ↔ ∃ u c c' x v,
    n = u ++ '-' :: c :: c' :: x :: 'M' :: '-' :: v ∧
      c.isDigit = true ∧ c'.isDigit = true ∧ (x = 'A' ∨ x = 'P') := by
  rw [matchesPattern_iff]
  constructor
  · rintro ⟨i, h⟩
    obtain ⟨c, c', x, v, heq, hdigits⟩ := ampmAt_iff.mp h
    exact ⟨n.take i, c, c', x, v, by rw [← heq, List.take_append_drop], hdigits⟩
  · rintro ⟨u, c, c', x, v, rfl, hdigits⟩
    refine ⟨u.length, ?_⟩
    rw [List.drop_left]
    exact ampmAt_iff.mpr ⟨c, c', x, v, rfl, hdigits⟩

/-- The search does not see a match at the very end of the name. -/
lemma hasAmpm_eq (n : Name) : hasAmpm n = matchesPattern n.dropLast := by
  rw [Bool.eq_iff_iff, matchesPattern_iff, hasAmpm, Bool.and_eq_true, List.any_eq_true,
    decide_eq_true_eq]
  simp only [List.mem_range, ← List.dropLast_drop_eq_drop_dropLast, ampmAt_dropLast_iff,
    List.length_drop]
  constructor
  · rintro ⟨-, i, hi, h⟩
    exact ⟨i, h, by omega⟩
  · rintro ⟨i, h, hi⟩
    exact ⟨by omega, i, by omega, h⟩

/-! ### The loop -/

lemma newName_of_passed (h : Passed timestamp n) : newName path timestamp n = none := if_pos h

lemma newName_eq_some (h : newName path timestamp n = some m) :
    m = timestamp ++ n ∧ ¬ Passed timestamp n := by
  unfold newName at h
  split_ifs at h with hpassed hfits
  exact ⟨(Option.some.inj h).symm, hpassed⟩

lemma newName_of_not_passed (h : ¬ Passed timestamp n) (hfits : Fits path (timestamp ++ n)) :
    newName path timestamp n = some (timestamp ++ n) := by
  have hshort : Fits path n := by
    rw [Fits, pathOf, List.length_append, List.length_cons] at hfits ⊢
    rw [List.length_append] at hfits
    omega
  rw [newName, if_neg h, if_pos ⟨hshort, hfits⟩]

lemma newName_stamped : newName path timestamp (timestamp ++ n) = none :=
  newName_of_passed (.inl (.inr (.inr (List.prefix_append _ _))))

lemma newName_eq (h : Smooth calls path t d) (hn : n ∈ d.names) :
    Directory.newName (newName path (stamp t)) n =
      if Passed (stamp t) n then n else stamp t ++ n := by
  split_ifs with hpassed
  · exact Directory.newName_of_none (newName_of_passed hpassed)
  · exact Directory.newName_of_some (newName_of_not_passed hpassed (h.fits n hn hpassed))

/-- Counting apart, an entry gets its new name. -/
lemma renameEntry_snd (hrenames : ∀ n, calls.renames n = true) (s : ℕ × Directory Node) (n : Name) :
    (renameEntry calls path timestamp s n).2 = s.2.renameBy (newName path timestamp) n := by
  unfold renameEntry Directory.renameBy
  match newName path timestamp n with
  | none => rfl
  | some m =>
    by_cases hn : n ∈ s.2.names
    · simp [hrenames n, hn]
    · simp [hn, Directory.rename_eq_self hn]

lemma foldl_renameEntry_snd (hrenames : ∀ n, calls.renames n = true) (l : List Name)
    (s : ℕ × Directory Node) :
    (l.foldl (renameEntry calls path timestamp) s).2 =
      l.foldl (Directory.renameBy (newName path timestamp)) s.2 := by
  induction l generalizing s with
  | nil => rfl
  | cons n l ih => rw [List.foldl_cons, List.foldl_cons, ih, renameEntry_snd hrenames]

/-- Each entry has its turn. -/
lemma exists_foldl_eq (h : Smooth calls path t d) : ∃ l : List Name, (∀ n ∈ d.names, n ∈ l) ∧
    ∀ timestampPrefix,
      (addTimestampToFilesUploadlogsnow calls (some path) timestampPrefix (some d)).2.2 =
        some (l.foldl (Directory.renameBy (newName path (stamp t))) d) := by
  obtain ⟨l, hl⟩ := Option.ne_none_iff_exists'.mp h.reads
  refine ⟨l, fun n hn => calls.complete d l n hl hn, fun timestampPrefix => ?_⟩
  simp only [addTimestampToFilesUploadlogsnow, h.now, hl]
  rw [foldl_renameEntry_snd h.renames]

lemma renamesRight_iff_same (h : Smooth calls path t d) : ∃ l : List Name,
    (∀ n ∈ d.names, n ∈ l) ∧ (RenamesRight calls path (stamp t) d ↔
      (l.foldl (Directory.renameBy (newName path (stamp t))) d).Same
        (d.map fun p => (if Kept (stamp t) p.1 then p.1 else stamp t ++ p.1, p.2))) := by
  obtain ⟨l, hl, heq⟩ := exists_foldl_eq h
  refine ⟨l, hl, fun hright => ?_, fun hsame timestampPrefix => ⟨_, heq timestampPrefix, hsame⟩⟩
  obtain ⟨d', hd', hsame⟩ := hright []
  rw [heq, Option.some.injEq] at hd'
  rwa [hd']

/-! ### Which names stay -/

lemma passed_iff : Passed timestamp n ↔ n.head? = some '.' ∨ timestamp <+: n ∨
    matchesPattern n.dropLast = true ∨ n = rebootLog ∨ n = ablReason := by
  have hdots : n = "..".toList → n.head? = some '.' := by
    rintro rfl
    rfl
  rw [Passed, hasAmpm_eq]
  tauto

lemma matchesPattern_of_dropLast (h : matchesPattern n.dropLast = true) :
    matchesPattern n = true := by
  obtain ⟨u, c, c', x, v, heq, hdigits⟩ := matchesPattern_iff_exists.mp h
  have hne : n ≠ [] := by
    rintro rfl
    simp at heq
  have hn := List.dropLast_append_getLast hne
  rw [heq] at hn
  exact matchesPattern_iff_exists.mpr ⟨u, c, c', x, v ++ [n.getLast hne], by simpa using hn.symm,
    hdigits⟩

lemma Passed.kept (h : Passed timestamp n) : Kept timestamp n := by
  rcases passed_iff.mp h with h | h | h | h
  · exact .inl h
  · exact .inr (.inl h)
  · exact .inr (.inr (.inl (matchesPattern_of_dropLast h)))
  · exact .inr (.inr (.inr h))

/-- A name that stays is passed over, unless its only match is at its end. -/
lemma Kept.passed (h : Kept timestamp n)
    (hend : n.head? ≠ some '.' → ¬ timestamp <+: n → matchesPattern n = true →
      matchesPattern n.dropLast = true) : Passed timestamp n := by
  rw [passed_iff]
  by_cases hdot : n.head? = some '.'
  · exact .inl hdot
  by_cases hstamp : timestamp <+: n
  · exact .inr (.inl hstamp)
  rcases h with h | h | h | h
  · exact absurd h hdot
  · exact absurd h hstamp
  · exact .inr (.inr (.inl (hend hdot hstamp h)))
  · exact .inr (.inr (.inr h))

/-! ### The directory afterwards -/

/-- No name that is to change has its only match of the pattern at its end. -/
def Inner (timestamp : Name) (d : Directory Node) : Prop :=
  ∀ n ∈ d.names, n.head? ≠ some '.' → ¬ timestamp <+: n → matchesPattern n = true →
    matchesPattern n.dropLast = true

/-- The new names are not in use. -/
def Free (timestamp : Name) (d : Directory Node) : Prop :=
  ∀ n ∈ d.names, ¬ Kept timestamp n → timestamp ++ n ∉ d.names

lemma apart_newName (h : Smooth calls path t d) (hinner : Inner (stamp t) d)
    (hfree : Free (stamp t) d) : Directory.Apart (newName path (stamp t)) d := by
  have hne : ∀ n ∈ d.names, ∀ m ∈ d.names, ¬ Passed (stamp t) n → stamp t ++ n ≠ m := by
    rintro n hn m hm hpassed rfl
    exact hfree n hn (fun hkept => hpassed (hkept.passed (hinner n hn))) hm
  refine ⟨h.nodup, ?_, ?_⟩
  · intro n hn m hm
    obtain ⟨rfl, -⟩ := newName_eq_some hm
    exact newName_stamped
  · intro n hn m hm heq
    rw [newName_eq h hn, newName_eq h hm] at heq
    split_ifs at heq with hpn hpm hpm
    · exact heq
    · exact absurd heq.symm (hne m hm n hn hpm)
    · exact absurd heq (hne n hn m hm hpn)
    · exact List.append_cancel_left heq

/-- The names are those of the script. -/
lemma newNames_eq (h : Smooth calls path t d) (hinner : Inner (stamp t) d) :
    d.newNames (newName path (stamp t)) =
      d.map fun p => (if Kept (stamp t) p.1 then p.1 else stamp t ++ p.1, p.2) := by
  refine List.map_congr_left ?_
  rintro ⟨n, x⟩ hmem
  have hn : n ∈ d.names := Directory.mem_names_iff.mpr ⟨x, hmem⟩
  have hiff : Passed (stamp t) n ↔ Kept (stamp t) n :=
    ⟨Passed.kept, fun hkept => hkept.passed (hinner n hn)⟩
  simp only [newName_eq h hn, hiff]

/-- A name whose only match is at its end gets the timestamp in front of it. -/
lemma inner_of_same {l : List Name} (h : Smooth calls path t d) (hl : ∀ n ∈ d.names, n ∈ l)
    (hsame : (l.foldl (Directory.renameBy (newName path (stamp t))) d).Same
      (d.map fun p => (if Kept (stamp t) p.1 then p.1 else stamp t ++ p.1, p.2))) :
    Inner (stamp t) d := by
  intro n hn hdot hstamp hmatch
  by_contra hlast
  have hpassed : ¬ Passed (stamp t) n := by
    rw [passed_iff]
    rintro (h | h | h | rfl | rfl)
    · exact hdot h
    · exact hstamp h
    · exact hlast h
    · exact absurd hmatch (by decide)
    · exact absurd hmatch (by decide)
  have hkept : Kept (stamp t) n := .inr (.inr (.inl hmatch))
  obtain ⟨x, hx⟩ := Directory.mem_names_iff.mp hn
  have hmem : n ∈ (l.foldl (Directory.renameBy (newName path (stamp t))) d).names := by
    refine Directory.mem_names_iff.mpr ⟨x, hsame.mem_iff.mpr (List.mem_map.mpr ⟨(n, x), hx, ?_⟩)⟩
    rw [if_pos hkept]
  obtain ⟨-, hgiven | ⟨-, hturn⟩⟩ := Directory.mem_names_foldl_renameBy
    (P := fun _ => True) (R := fun m => stamp t <+: m)
    (fun k m _ hm => ⟨trivial, (newName_eq_some hm).1 ▸ List.prefix_append _ _⟩)
    (fun _ _ => trivial) n hmem
  · exact hstamp hgiven
  · rw [newName_of_not_passed hpassed (h.fits n hn hpassed)] at hturn
    cases hturn (hl n hn)

/-- Names stay different, so none is given twice. -/
lemma free_of_same {l : List Name} (h : Smooth calls path t d)
    (hsame : (l.foldl (Directory.renameBy (newName path (stamp t))) d).Same
      (d.map fun p => (if Kept (stamp t) p.1 then p.1 else stamp t ++ p.1, p.2))) :
    Free (stamp t) d := by
  intro n hn hkept hmem
  have hnodup := Directory.nodup_foldl_renameBy (f := newName path (stamp t)) (l := l) h.nodup
  rw [Directory.names, (hsame.map Prod.fst).nodup_iff, List.map_map] at hnodup
  obtain ⟨x, hx⟩ := Directory.mem_names_iff.mp hn
  obtain ⟨y, hy⟩ := Directory.mem_names_iff.mp hmem
  have hstamped : Kept (stamp t) (stamp t ++ n) := .inr (.inl (List.prefix_append _ _))
  have heq := List.inj_on_of_nodup_map hnodup hx hy (by simp [hkept, hstamped])
  have hlen := congrArg List.length (congrArg Prod.fst heq)
  simp [length_stamp] at hlen

/-- The right files are renamed, and none is lost, exactly if no name has its only match of the
pattern at its end and no new name is in use. -/
theorem renamesRight_iff (h : Smooth calls path t d) :
    RenamesRight calls path (stamp t) d ↔ Inner (stamp t) d ∧ Free (stamp t) d := by
  obtain ⟨l, hl, heq⟩ := renamesRight_iff_same h
  rw [heq]
  constructor
  · intro hsame
    exact ⟨inner_of_same h hl hsame, free_of_same h hsame⟩
  · rintro ⟨hinner, hfree⟩
    rw [← newNames_eq h hinner]
    exact (apart_newName h hinner hfree).perm_foldl_renameBy hl

/-- Every call succeeds. -/
def Calls.succeeding (t : ℤ) : Calls where
  now := some t
  readdir d := some d.names
  complete d entries n hentries hn := by
    rw [← Option.some.inj hentries]
    exact hn
  renames _ := true

lemma smooth_succeeding (hnodup : d.names.Nodup) (hfits : ∀ n ∈ d.names, n.length < 400) :
    Smooth (.succeeding t) "/tmp/DCM".toList t d := by
  refine ⟨rfl, Option.some_ne_none _, fun _ => rfl, hnodup, fun n hn _ => ?_⟩
  have := hfits n hn
  have hpath : "/tmp/DCM".toList.length = 8 := by decide
  rw [Fits, pathOf, List.length_append, List.length_cons, List.length_append, length_stamp, hpath,
    Archive.maxPathLength]
  omega

/-- A log, and one with a timestamp. -/
def someLogs : Directory Node :=
  [("messages.txt".toList, .regular ['a']), ("11-29-25-03-45AM-wifi.txt".toList, .regular ['b'])]

theorem renamesRight_someLogs :
    RenamesRight (.succeeding 1764517500) "/tmp/DCM".toList (stamp 1764517500) someLogs := by
  refine (renamesRight_iff (smooth_succeeding (by decide) (by decide))).mpr ⟨?_, ?_⟩
  · unfold Inner
    rw [stamp_afternoon]
    decide
  · unfold Free
    rw [stamp_afternoon]
    decide

/-- A name that ends with a timestamp gets a second one. -/
theorem endStamp_renamed :
    Smooth (.succeeding 1764517500) "/tmp/DCM".toList 1764517500
      [("core-12PM-".toList, .regular ['a'])] ∧
    ¬ RenamesRight (.succeeding 1764517500) "/tmp/DCM".toList (stamp 1764517500)
      [("core-12PM-".toList, .regular ['a'])] := by
  refine ⟨smooth_succeeding (by decide) (by decide), fun h => ?_⟩
  obtain ⟨d', hd', hsame⟩ := h []
  have hnames := (hsame.map Prod.fst).mem_iff (a := "core-12PM-".toList)
  rw [stamp_afternoon] at hnames
  have hmem : "core-12PM-".toList ∈ d'.map Prod.fst := hnames.mpr (by decide)
  have hrun : (addTimestampToFilesUploadlogsnow (.succeeding 1764517500) (some "/tmp/DCM".toList)
      [] (some [("core-12PM-".toList, .regular ['a'])])).2.2.map Directory.names =
        some ["11-30-25-03-45PM-core-12PM-".toList] := by decide +kernel
  rw [hd', Option.map_some, Option.some.injEq] at hrun
  change "core-12PM-".toList ∈ d'.names at hmem
  rw [hrun] at hmem
  exact absurd hmem (by decide)

end DcmAgent.Reboot.UploadLogsNow
