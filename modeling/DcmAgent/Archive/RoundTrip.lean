import Mathlib.Tactic
import DcmAgent.Archive.Tree

/-!
# Archives of trees, read back

Names and link targets are cut to 99 bytes, paths to 511 and sizes to eleven octal digits, so an
archive has the entries of the tree exactly when none of them is longer.
-/

namespace DcmAgent.Archive

open Library.Ustar

variable {contents : Set Bytes} {sourceDir archive : Bytes} {names : List FileName}
  {name : FileName} {tree : Tree} {fs : FileSystem contents}

/-! ### The condition -/

/-- The entry fits the path of the walk and the fields of a header. -/
structure Fits (sourceDir : Bytes) (e : Entry) : Prop where
  fullpath : sourceDir.length + 1 + e.path.length < maxPathLength
  name : e.path.length ≤ 100 - 1
  linkname : e.linkname.length ≤ 100 - 1
  size : e.content.length < 8 ^ 11

/-- Nothing is found at the cut paths of directories. -/
def Tree.Quiet (sourceDir archive : Bytes) (fs : FileSystem contents) (names : List FileName) :
    Tree → Prop
  | .nil => True
  | .file _ _ _ _ rest => rest.Quiet sourceDir archive fs names
  | .link _ _ _ _ rest => rest.Quiet sourceDir archive fs names
  | .directory name entries rest =>
    let path := sourceDir ++ pathOf (names ++ [name])
    let cut := path.take (maxPathLength - 1)
    (if path.length < maxPathLength then
        path = archive ∨ entries.Quiet sourceDir archive fs (names ++ [name])
      else
        Skipped archive (sourceDir ++ pathOf names) name.bytes ∨
          ∀ v ∈ (fs.directoryAt cut).visits sourceDir archive cut, v.Silent) ∧
      rest.Quiet sourceDir archive fs names

/-! ### What the walk visits -/

lemma length_path (sourceDir : Bytes) (names : List FileName) (name : FileName) :
    (sourceDir ++ pathOf (names ++ [name])).length =
      sourceDir.length + 1 + (relativePath (names ++ [name])).length := by
  rw [pathOf_eq, List.length_append, List.length_cons]
  omega

lemma fullpath_of_lt (h : (sourceDir ++ pathOf (names ++ [name])).length < maxPathLength) :
    fullpath (sourceDir ++ pathOf names) name.bytes = sourceDir ++ pathOf (names ++ [name]) := by
  rw [fullpath_pathOf]
  exact List.take_of_length_le (Nat.le_pred_of_lt h)

lemma skipped_iff (h : (sourceDir ++ pathOf (names ++ [name])).length < maxPathLength) :
    Skipped archive (sourceDir ++ pathOf names) name.bytes ↔
      sourceDir ++ pathOf (names ++ [name]) = archive := by
  rw [Skipped, fullpath_of_lt h]
  exact or_iff_right name.not_dot

lemma mem_expected_file {mode : ℕ} {mtime : ℤ} {content : Bytes} {rest : Tree} {e : Entry}
    (he : e ∈ rest.expected sourceDir archive names) :
    e ∈ (Tree.file name mode mtime content rest).expected sourceDir archive names := by
  rw [Tree.expected]
  split_ifs
  · exact he
  · exact List.mem_cons_of_mem _ he

lemma mem_expected_link {mode : ℕ} {mtime : ℤ} {target : Text} {rest : Tree} {e : Entry}
    (he : e ∈ rest.expected sourceDir archive names) :
    e ∈ (Tree.link name mode mtime target rest).expected sourceDir archive names := by
  rw [Tree.expected]
  split_ifs
  · exact he
  · exact List.mem_cons_of_mem _ he

lemma mem_expected_directory {entries rest : Tree} {e : Entry}
    (he : e ∈ rest.expected sourceDir archive names) :
    e ∈ (Tree.directory name entries rest).expected sourceDir archive names := by
  rw [Tree.expected]
  split_ifs
  · exact he
  · exact List.mem_append_right _ he

/-- What is visited is read: its content is one of the expected entries'. -/
lemma visits_reads (hcontents : ∀ e ∈ tree.expected sourceDir archive names, e.content ∈ contents) :
    ∀ v ∈ (tree.listing sourceDir fs names).visits sourceDir archive (sourceDir ++ pathOf names),
      v.Reads fs.chunks contents := by
  induction tree generalizing names with
  | nil => exact fun v hv => absurd hv List.not_mem_nil
  | file name mode mtime content rest ih =>
    have hrest := ih fun e he => hcontents e (mem_expected_file he)
    rw [Tree.listing, Listing.visits]
    by_cases hskip : Skipped archive (sourceDir ++ pathOf names) name.bytes
    · rw [if_pos hskip]
      exact hrest
    · rw [if_neg hskip]
      refine List.forall_mem_cons.mpr ⟨?_, hrest⟩
      by_cases hfits : (sourceDir ++ pathOf (names ++ [name])).length < maxPathLength
      · rw [if_pos hfits]
        have hne := mt (skipped_iff hfits).mpr hskip
        intro st _
        refine ⟨mode, mtime, content, ?_, rfl⟩
        rw [Tree.expected, if_neg hne] at hcontents
        exact hcontents _ List.mem_cons_self
      · rw [if_neg hfits]
        exact fs.fileAt_reads _
  | link name mode mtime target rest ih =>
    have hrest := ih fun e he => hcontents e (mem_expected_link he)
    rw [Tree.listing, Listing.visits]
    split_ifs
    · exact hrest
    · exact List.forall_mem_cons.mpr ⟨rfl, hrest⟩
  | directory name entries rest ihEntries ihRest =>
    have hrest := ihRest fun e he => hcontents e (mem_expected_directory he)
    rw [Tree.listing]
    by_cases hfits : (sourceDir ++ pathOf (names ++ [name])).length < maxPathLength
    · rw [if_pos hfits, Listing.visits]
      by_cases hskip : Skipped archive (sourceDir ++ pathOf names) name.bytes
      · rw [if_pos hskip]
        exact hrest
      · have hne := mt (skipped_iff hfits).mpr hskip
        rw [if_neg hskip, fullpath_of_lt hfits]
        refine List.forall_mem_append.mpr ⟨ihEntries fun e he => hcontents e ?_, hrest⟩
        rw [Tree.expected, if_neg hne]
        exact List.mem_append_left _ he
    · rw [if_neg hfits, Listing.visits, fullpath_pathOf]
      split_ifs
      · exact hrest
      · exact List.forall_mem_append.mpr ⟨fs.directoryAt_reads _ _ _, hrest⟩

/-- The path of a walk is the base path, or it lies below it and may have been cut. -/
def Below (basePath path : Bytes) : Prop :=
  path = basePath ∨ ∃ q, path = (basePath ++ 47 :: q).take (maxPathLength - 1)

lemma below_fullpath {basePath dirpath : Bytes} (h : Below basePath dirpath) (name : Bytes) :
    ∃ q, fullpath dirpath name = (basePath ++ 47 :: q).take (maxPathLength - 1) := by
  rcases h with rfl | ⟨q, rfl⟩
  · exact ⟨name, rfl⟩
  · by_cases hlen : (basePath ++ 47 :: q).length ≤ maxPathLength - 1
    · refine ⟨q ++ 47 :: name, ?_⟩
      rw [fullpath, List.take_of_length_le hlen, List.append_assoc, List.cons_append]
    · refine ⟨q, ?_⟩
      have hcut : ((basePath ++ 47 :: q).take (maxPathLength - 1)).length = maxPathLength - 1 :=
        List.length_take_of_le (le_of_not_ge hlen)
      exact List.take_left' hcut

/-- No name in the archive is longer than what is left of 510 characters behind the base path. -/
lemma length_arcname_le {basePath excludeFile dirpath : Bytes} {listing : Listing}
    (h : Below basePath dirpath) :
    ∀ v ∈ listing.visits basePath excludeFile dirpath,
      v.arcname.length ≤ maxPathLength - 2 - basePath.length := by
  have hhead {d : Bytes} (hd : Below basePath d) (name : Bytes) :
      (arcname basePath (fullpath d name)).length ≤ maxPathLength - 2 - basePath.length := by
    obtain ⟨q, hq⟩ := below_fullpath hd name
    rw [hq, arcname_take]
    exact List.length_take_le _ _
  induction listing generalizing dirpath with
  | done => exact fun v hv => absurd hv List.not_mem_nil
  | unknown _ rest ih => exact ih h
  | other _ rest ih => exact ih h
  | file name run rest ih =>
    rw [Listing.visits]
    split_ifs
    · exact ih h
    · exact List.forall_mem_cons.mpr ⟨hhead h name, ih h⟩
  | link name mode mtime target write rest ih =>
    rw [Listing.visits]
    split_ifs
    · exact ih h
    · refine List.forall_mem_append.mpr ⟨fun v hv => ?_, ih h⟩
      obtain ⟨_, -, rfl⟩ := Option.map_eq_some_iff.mp (Option.mem_toList.mp hv)
      exact hhead h name
  | directory name opened entries rest ihEntries ihRest =>
    rw [Listing.visits]
    split_ifs
    · exact ihRest h
    · exact List.forall_mem_append.mpr
        ⟨ihEntries (Or.inr (below_fullpath h name)), ihRest h⟩

/-! ### The entries of an archive -/

lemma expected_path : ∀ e ∈ tree.expected sourceDir archive names,
    e.path ≠ [] ∧ (pathOf names).length ≤ e.path.length := by
  have hpath (names : List FileName) (name : FileName) :
      relativePath (names ++ [name]) ≠ [] ∧
        (pathOf names).length ≤ (relativePath (names ++ [name])).length := by
    have heq := pathOf_eq names name
    rw [pathOf_append] at heq
    have hlen := congrArg List.length heq
    simp only [List.length_append, List.length_cons] at hlen
    exact ⟨relativePath_ne_nil names name, by omega⟩
  induction tree generalizing names with
  | nil => exact fun e he => absurd he List.not_mem_nil
  | file name mode mtime content rest ih =>
    rw [Tree.expected]
    split_ifs
    · exact ih
    · exact List.forall_mem_cons.mpr ⟨hpath names name, ih⟩
  | link name mode mtime target rest ih =>
    rw [Tree.expected]
    split_ifs
    · exact ih
    · exact List.forall_mem_cons.mpr ⟨hpath names name, ih⟩
  | directory name entries rest ihEntries ihRest =>
    rw [Tree.expected]
    split_ifs
    · exact ihRest
    · refine List.forall_mem_append.mpr ⟨fun e he => ?_, ihRest⟩
      obtain ⟨hne, hlen⟩ := ihEntries e he
      refine ⟨hne, le_trans ?_ hlen⟩
      rw [pathOf_append, List.length_append]
      exact Nat.le_add_right _ _

/-- The entries that the records of visits are read back as. -/
def entriesOf (visits : List Visit) : List Entry := visits.filterMap fun v => v.record.entry

/-- The cut path of a directory brings in entries unless nothing is found there. -/
lemma entriesOf_eq_nil_iff (hsmall : ∀ c ∈ contents, c.length < 8 ^ 11) {visits : List Visit}
    (h : ∀ v ∈ visits, v.Reads fs.chunks contents) :
    entriesOf visits = [] ↔ ∀ v ∈ visits, v.Silent := by
  rw [entriesOf, List.filterMap_eq_nil_iff]
  refine forall₂_congr fun v hv => ?_
  rcases entry_of_reads (h v hv) hsmall with ⟨hsilent, hnone⟩ | ⟨hnot, e, he, -⟩
  · exact ⟨fun _ => hsilent, fun _ => hnone⟩
  · rw [he]
    exact ⟨fun hnone => absurd hnone (Option.some_ne_none e), fun hsilent => absurd hsilent hnot⟩

lemma append_eq_append_iff_of_sublist {α : Type*} {e e' f f' : List α} (h : e.Sublist f)
    (h' : e'.Sublist f') : f ++ f' = e ++ e' ↔ f = e ∧ f' = e' := by
  constructor
  · intro heq
    have hlen := congrArg List.length heq
    simp only [List.length_append] at hlen
    have hle := h.length_le
    have hle' := h'.length_le
    exact ⟨(h.eq_of_length (by omega)).symm, (h'.eq_of_length (by omega)).symm⟩
  · rintro ⟨rfl, rfl⟩
    rfl

/-- An entry that fits is the one that is read back. -/
lemma field_of_fits {e : Entry} (h : Fits sourceDir e)
    (hpath : e.path = relativePath (names ++ [name])) :
    ((Field.fill 100 0).strncpy
      (arcname sourceDir (fullpath (sourceDir ++ pathOf names) name.bytes)) (100 - 1)).str =
        e.path := by
  have hfull := h.fullpath
  have hcut : (relativePath (names ++ [name])).take (maxPathLength - 2 - sourceDir.length) =
      relativePath (names ++ [name]) := by
    rw [← hpath]
    exact List.take_of_length_le (by omega)
  rw [arcname_fullpath, hcut, str_strncpy_zero (by norm_num) (zero_notMem_relativePath _), ← hpath]
  exact List.take_of_length_le h.name

/-- When the entries fit, they are all in the archive, and nothing else is if nothing is found at
cut paths. -/
lemma entriesOf_visits (harchive : archive.length < maxPathLength)
    (hsmall : ∀ c ∈ contents, c.length < 8 ^ 11)
    (hfits : ∀ e ∈ tree.expected sourceDir archive names, Fits sourceDir e) :
    (tree.expected sourceDir archive names).Sublist (entriesOf
        ((tree.listing sourceDir fs names).visits sourceDir archive (sourceDir ++ pathOf names))) ∧
      (entriesOf ((tree.listing sourceDir fs names).visits sourceDir archive
          (sourceDir ++ pathOf names)) = tree.expected sourceDir archive names ↔
        tree.Quiet sourceDir archive fs names) := by
  induction tree generalizing names with
  | nil => exact ⟨List.Sublist.refl _, iff_of_true rfl trivial⟩
  | file name mode mtime content rest ih =>
    obtain ⟨hsub, hiff⟩ := ih fun e he => hfits e (mem_expected_file he)
    rw [Tree.listing, Listing.visits, Tree.expected, Tree.Quiet]
    by_cases heq : sourceDir ++ pathOf (names ++ [name]) = archive
    · have hlt : (sourceDir ++ pathOf (names ++ [name])).length < maxPathLength := heq ▸ harchive
      rw [if_pos heq, if_pos ((skipped_iff hlt).mpr heq)]
      exact ⟨hsub, hiff⟩
    · rw [Tree.expected, if_neg heq] at hfits
      have hhead := hfits _ List.mem_cons_self
      have hlt : (sourceDir ++ pathOf (names ++ [name])).length < maxPathLength := by
        rw [length_path]
        exact hhead.fullpath
      rw [if_neg heq, if_neg (mt (skipped_iff hlt).mp heq), if_pos hlt, entriesOf,
        List.filterMap_cons, entry_ofContent fs hhead.size, field_of_fits hhead rfl]
      exact ⟨hsub.cons_cons _, (List.cons_inj_right _).trans hiff⟩
  | link name mode mtime target rest ih =>
    obtain ⟨hsub, hiff⟩ := ih fun e he => hfits e (mem_expected_link he)
    rw [Tree.listing, Listing.visits, Tree.expected, Tree.Quiet]
    by_cases heq : sourceDir ++ pathOf (names ++ [name]) = archive
    · have hlt : (sourceDir ++ pathOf (names ++ [name])).length < maxPathLength := heq ▸ harchive
      rw [if_pos heq, if_pos ((skipped_iff hlt).mpr heq)]
      exact ⟨hsub, hiff⟩
    · rw [Tree.expected, if_neg heq] at hfits
      have hhead := hfits _ List.mem_cons_self
      have hlt : (sourceDir ++ pathOf (names ++ [name])).length < maxPathLength := by
        rw [length_path]
        exact hhead.fullpath
      have hlink : target.bytes.length ≤ 100 - 1 := hhead.linkname
      have htarget : target.bytes.take (pathMax - 1) = target.bytes :=
        List.take_of_length_le (hlink.trans (by decide))
      have hstr : ((Field.fill 100 0).strncpy target.bytes (100 - 1)).str = target.bytes := by
        rw [str_strncpy_zero (by norm_num) target.nonzero]
        exact List.take_of_length_le hlink
      rw [if_neg heq, if_neg (mt (skipped_iff hlt).mp heq), Option.map_some, Option.toList_some,
        List.singleton_append, entriesOf, List.filterMap_cons, entry_link, field_of_fits hhead rfl,
        htarget, hstr]
      exact ⟨hsub.cons_cons _, (List.cons_inj_right _).trans hiff⟩
  | directory name entries rest ihEntries ihRest =>
    obtain ⟨hsub, hiff⟩ := ihRest fun e he => hfits e (mem_expected_directory he)
    rw [Tree.listing, Tree.expected, Tree.Quiet]
    by_cases hlt : (sourceDir ++ pathOf (names ++ [name])).length < maxPathLength
    · rw [if_pos hlt, if_pos hlt, Listing.visits]
      by_cases heq : sourceDir ++ pathOf (names ++ [name]) = archive
      · rw [if_pos heq, if_pos ((skipped_iff hlt).mpr heq)]
        exact ⟨hsub, hiff.trans (and_iff_right (Or.inl heq)).symm⟩
      · rw [if_neg heq, if_neg (mt (skipped_iff hlt).mp heq), fullpath_of_lt hlt, entriesOf,
          List.filterMap_append]
        rw [Tree.expected, if_neg heq] at hfits
        obtain ⟨hsub', hiff'⟩ := ihEntries fun e he => hfits e (List.mem_append_left _ he)
        refine ⟨hsub'.append hsub, (append_eq_append_iff_of_sublist hsub' hsub).trans ?_⟩
        exact and_congr (hiff'.trans (or_iff_right heq).symm) hiff
    · have heq : sourceDir ++ pathOf (names ++ [name]) ≠ archive := fun heq => hlt (heq ▸ harchive)
      -- a directory with a cut path has no entry that fits
      have hnone : entries.expected sourceDir archive (names ++ [name]) = [] := by
        refine List.eq_nil_iff_forall_not_mem.mpr fun e he => hlt ?_
        have hfull := (hfits e (by
          rw [Tree.expected, if_neg heq]
          exact List.mem_append_left _ he)).fullpath
        have hlen := (expected_path e he).2
        rw [List.length_append]
        omega
      rw [if_neg hlt, if_neg hlt, if_neg heq, hnone, List.nil_append, Listing.visits,
        fullpath_pathOf]
      by_cases hskip : Skipped archive (sourceDir ++ pathOf names) name.bytes
      · rw [if_pos hskip]
        exact ⟨hsub, hiff.trans (and_iff_right (Or.inl hskip)).symm⟩
      · rw [if_neg hskip, entriesOf, List.filterMap_append]
        refine ⟨hsub.trans (List.sublist_append_right _ _), ?_⟩
        have hnil := entriesOf_eq_nil_iff hsmall (fs.directoryAt_reads sourceDir archive
          ((sourceDir ++ pathOf (names ++ [name])).take (maxPathLength - 1)))
        refine (append_eq_append_iff_of_sublist (List.nil_sublist _) hsub).trans ?_
        exact and_congr (hnil.trans (or_iff_right hskip).symm) hiff

/-! ### Reading an archive back -/

variable {ctx : RuntimeContext} {session : SessionState} {timestamp : Bytes}

/-- The contents that belong in the archive. -/
def Tree.archived (sourceDir archive : Bytes) (tree : Tree) : Set Bytes :=
  {c | ∃ e ∈ tree.expected sourceDir archive [], e.content = c}

/-- The archive that is written at a given time. -/
def archiveAt (ctx : RuntimeContext) (sourceDir timestamp : Bytes) : Bytes :=
  archivePath sourceDir (generateArchiveNameAt ctx.macAddress logsPrefix timestamp)

/-- The calls that do not concern the tree. -/
structure Calls where
  dirExists : Bool
  gzopen : Bool
  gzclose : Bool
  fileExists : Bool
  removeFile : Bool

/-- The run of `create_archive` over a tree that can be read. -/
def treeRun (sourceDir timestamp : Bytes) (calls : Calls) (fs : FileSystem contents)
    (tree : Tree) : ArchiveRun where
  dirExists := calls.dirExists
  timestamp := some timestamp
  gzopen := calls.gzopen
  opened := true
  entries := tree.listing sourceDir fs []
  eof := .full
  gzclose := calls.gzclose
  fileExists := calls.fileExists
  removeFile := calls.removeFile

/-- An archive that is created successfully is read back as the entries of the tree. -/
def RoundTrip (ctx : RuntimeContext) (session : SessionState) (sourceDir archive : Bytes)
    (run : ArchiveRun) (tree : Tree) : Prop :=
  (createArchive ctx session sourceDir run).1 = 0 →
    ∃ a, (createArchive ctx session sourceDir run).2.2 = some a ∧ endBlocks <:+ a.bytes ∧
      ∃ entries, readTar a.bytes = some entries ∧
        entries.Perm (tree.expected sourceDir archive [])

lemma length_archiveAt : (archiveAt ctx sourceDir timestamp).length < maxPathLength :=
  (List.length_take_le _ _).trans_lt (by decide)

section Created

variable {calls : Calls}
  {fs : FileSystem (tree.archived sourceDir (archiveAt ctx sourceDir timestamp))}

lemma created_iff (h : (treeRun sourceDir timestamp calls fs tree).Completes ctx sourceDir) :
    RoundTrip ctx session sourceDir (archiveAt ctx sourceDir timestamp)
        (treeRun sourceDir timestamp calls fs tree) tree ↔
      ∃ entries, readTar (ArchiveFile.bytes ⟨((treeRun sourceDir timestamp calls fs tree).visits ctx
          sourceDir).map Visit.record, endBlocks⟩) = some entries ∧
        entries.Perm (tree.expected sourceDir (archiveAt ctx sourceDir timestamp) []) := by
  obtain ⟨archiveFile, hrun⟩ := createArchive_of_completes session h
  rw [RoundTrip, hrun]
  constructor
  · intro hround
    obtain ⟨a, ha, -, hread⟩ := hround rfl
    obtain rfl := Option.some.inj ha
    exact hread
  · intro hread _
    exact ⟨_, rfl, List.suffix_append _ _, hread⟩

lemma visits_treeRun : (treeRun sourceDir timestamp calls fs tree).visits ctx sourceDir =
    (tree.listing sourceDir fs []).visits sourceDir (archiveAt ctx sourceDir timestamp)
      (sourceDir ++ pathOf []) := by
  rw [pathOf, List.flatMap_nil, List.append_nil]
  rfl

lemma reads_treeRun : ∀ v ∈ (treeRun sourceDir timestamp calls fs tree).visits ctx sourceDir,
    v.Reads fs.chunks (tree.archived sourceDir (archiveAt ctx sourceDir timestamp)) := by
  rw [visits_treeRun]
  exact visits_reads fun e he => ⟨e, he, rfl⟩

lemma readTar_treeRun
    (hsmall : ∀ c ∈ tree.archived sourceDir (archiveAt ctx sourceDir timestamp),
      c.length < 8 ^ 11) :
    readTar (ArchiveFile.bytes ⟨((treeRun sourceDir timestamp calls fs tree).visits ctx
          sourceDir).map Visit.record, endBlocks⟩) =
      some (entriesOf ((treeRun sourceDir timestamp calls fs tree).visits ctx sourceDir)) := by
  have hframed : ∀ r ∈ ((treeRun sourceDir timestamp calls fs tree).visits ctx sourceDir).map
      Visit.record, r.Framed :=
    List.forall_mem_map.mpr fun v hv => framed_of_reads (reads_treeRun v hv) hsmall
  rw [ArchiveFile.bytes, readTar_records hframed, List.filterMap_map]
  rfl

/-- Every entry that comes from the tree has names that fit. -/
lemma fits_of_mem_entriesOf
    (hsmall : ∀ c ∈ tree.archived sourceDir (archiveAt ctx sourceDir timestamp),
      c.length < 8 ^ 11) {e : Entry}
    (he : e ∈ tree.expected sourceDir (archiveAt ctx sourceDir timestamp) [])
    (hmem : e ∈ entriesOf ((treeRun sourceDir timestamp calls fs tree).visits ctx sourceDir)) :
    Fits sourceDir e := by
  obtain ⟨v, hv, hentry⟩ := List.mem_filterMap.mp hmem
  have harcname := length_arcname_le (Or.inl rfl) v hv
  rcases entry_of_reads (reads_treeRun v hv) hsmall with ⟨-, hnone⟩ | ⟨-, e', he', hpath, hlink⟩
  · rw [hnone] at hentry
    cases hentry
  · obtain rfl := Option.some.inj (he'.symm.trans hentry)
    obtain ⟨hname, hlen⟩ := le_min_iff.mp hpath
    have hne := List.length_pos_of_ne_nil (expected_path _ he).1
    exact ⟨by omega, hname, hlink, hsmall _ ⟨_, he, rfl⟩⟩

/-- An archive is read back as the tree exactly when no name, target, path or size is too long for
it, and nothing is found where the path of a directory has been cut. -/
theorem roundTrip_iff :
    RoundTrip ctx session sourceDir (archiveAt ctx sourceDir timestamp)
        (treeRun sourceDir timestamp calls fs tree) tree ↔
      ((treeRun sourceDir timestamp calls fs tree).Completes ctx sourceDir →
        (∀ e ∈ tree.expected sourceDir (archiveAt ctx sourceDir timestamp) [],
          Fits sourceDir e) ∧
        tree.Quiet sourceDir (archiveAt ctx sourceDir timestamp) fs []) := by
  by_cases hcompletes : (treeRun sourceDir timestamp calls fs tree).Completes ctx sourceDir
  swap
  · obtain ⟨archive, hrun, -⟩ := createArchive_of_not_completes session hcompletes
    refine iff_of_true (fun hret => ?_) fun h => absurd h hcompletes
    rw [hrun] at hret
    cases hret
  rw [created_iff hcompletes, imp_iff_right hcompletes]
  by_cases hsmall : ∀ c ∈ tree.archived sourceDir (archiveAt ctx sourceDir timestamp),
      c.length < 8 ^ 11
  · rw [readTar_treeRun hsmall]
    constructor
    · rintro ⟨entries, hread, hperm⟩
      obtain rfl := Option.some.inj hread
      have hfits : ∀ e ∈ tree.expected sourceDir (archiveAt ctx sourceDir timestamp) [],
          Fits sourceDir e := fun e he => fits_of_mem_entriesOf hsmall he (hperm.mem_iff.mpr he)
      obtain ⟨hsub, hiff⟩ := entriesOf_visits length_archiveAt hsmall hfits
      rw [← visits_treeRun] at hsub hiff
      exact ⟨hfits, hiff.mp (hsub.eq_of_length hperm.length_eq.symm).symm⟩
    · rintro ⟨hfits, hquiet⟩
      obtain ⟨-, hiff⟩ := entriesOf_visits length_archiveAt hsmall hfits
      rw [← visits_treeRun] at hiff
      exact ⟨_, rfl, List.Perm.of_eq (hiff.mpr hquiet)⟩
  · -- a size with more than eleven digits is not read back
    have hlong : ∃ e ∈ tree.expected sourceDir (archiveAt ctx sourceDir timestamp) [],
        ¬e.content.length < 8 ^ 11 := by
      by_contra hno
      refine hsmall ?_
      rintro c ⟨e, he, rfl⟩
      by_contra hsize
      exact hno ⟨e, he, hsize⟩
    obtain ⟨e, he, hsize⟩ := hlong
    refine iff_of_false ?_ fun h => hsize (h.1 e he).size
    rintro ⟨entries, hread, hperm⟩
    exact hsize (length_content_lt hread e (hperm.mem_iff.mpr he))

end Created

/-- A file name of 100 characters. -/
def longName : FileName where
  bytes := List.replicate 100 97
  nonzero := by decide
  nonempty := by decide
  slash := by decide
  not_dot := by decide

def longNameTree : Tree := .file longName 0o644 0 [65] .nil

/-- A file system in which no path is cut. -/
def plainFileSystem (contents : Set Bytes) : FileSystem contents where
  chunks content := if content = [] then [] else [content]
  flatten_chunks content := by split_ifs with h <;> simp [h]
  nonempty_chunks content := by
    split_ifs with h
    · exact List.not_mem_nil
    · exact fun hmem => h (List.mem_singleton.mp hmem).symm
  fileAt _ := ⟨false, none, .full, false, [], .full⟩
  fileAt_reads _ _ hentered := absurd hentered.1 (by decide)
  opened _ := false
  directoryAt _ := .done
  directoryAt_reads _ _ _ v hv := absurd hv List.not_mem_nil

/-- `create_archive` for the directory `/l` with one file. -/
def longNameRun : ArchiveRun :=
  treeRun [47, 108] [48] ⟨true, true, true, true, true⟩
    (plainFileSystem (longNameTree.archived [47, 108] (archiveAt ⟨[65]⟩ [47, 108] [48])))
    longNameTree

/-- The last character of the name is lost. -/
theorem long_name_cut :
    ¬RoundTrip ⟨[65]⟩ ⟨[]⟩ [47, 108] (archiveAt ⟨[65]⟩ [47, 108] [48]) longNameRun
      longNameTree := by
  have hread : (createArchive ⟨[65]⟩ ⟨[]⟩ [47, 108] longNameRun).2.2.map
      (fun a => readTar a.bytes) =
        some (some [⟨List.replicate 99 97, regularType, [], [65]⟩]) := by decide +kernel
  intro h
  obtain ⟨a, ha, -, entries, hentries, hperm⟩ := h (by decide +kernel)
  rw [ha, Option.map_some, hentries] at hread
  obtain rfl := Option.some.inj (Option.some.inj hread)
  exact absurd hperm (by decide)

end DcmAgent.Archive
