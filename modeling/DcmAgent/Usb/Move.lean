import Mathlib.Tactic
import DcmAgent.Upload.Md5Utils
import DcmAgent.Usb.Upload

/-!
# Moving a file to another device

`copy_file_and_delete` copies a file in blocks and removes it. What `fwrite` takes may stay in a
buffer until the file is closed, and the result of closing it is not looked at.
-/

namespace DcmAgent.Usb.Move

open Upload (Reading)

abbrev Path := List Char

/-- The files, by their paths. -/
abbrev Disk := Path → Option (List UInt8)

/-- What the calls return. `accepted i` is what `fwrite` returns for block `i`. Whatever is
buffered, the file has a front part of what has been taken once it is closed, which is `stored`
bytes long. -/
structure Calls where
  opensSource : Bool
  opensDest : Bool
  reading : (content : List UInt8) → Reading content
  accepted : ℕ → ℕ
  stored : ℕ
  unlinksSource : Bool
  unlinksDest : Bool

/-- The loop from block `i` on: what has been taken, and whether each block has been. -/
def writeBlocks (accepted : ℕ → ℕ) : ℕ → List (List UInt8) → List UInt8 × Bool
  | _, [] => ([], true)
  | i, block :: blocks =>
    if accepted i ≠ block.length then (block.take (accepted i), false)
    else
      let r := writeBlocks accepted (i + 1) blocks
      (block ++ r.1, r.2)

def copyFileAndDelete (calls : Calls) (sourcePath destPath : Option Path) (disk : Disk) :
    ℤ × Disk :=
  match sourcePath, destPath with
  | some source, some dest =>
    if disk source = none ∨ calls.opensSource = false then (-1, disk)
    else if calls.opensDest = false then (-1, disk)
    else
      -- the mode "wb" empties the file
      let disk := Function.update disk dest (some [])
      let reading := calls.reading ((disk source).getD [])
      let (taken, complete) := writeBlocks calls.accepted 0 reading.blocks
      let disk := Function.update disk dest (some (taken.take calls.stored))
      if complete = false ∨ reading.error = true then
        (-1, if calls.unlinksDest then Function.update disk dest none else disk)
      else (0, if calls.unlinksSource then Function.update disk source none else disk)
  | _, _ => (-1, disk)

/-! ### What it is for -/

/-- The source is removed only if the destination has its bytes, and after a failure the source is
there and nothing partial is, if that can be removed. -/
structure KeepsData (calls : Calls) (source dest : Path) (disk : Disk) : Prop where
  removed : ∀ content, disk source = some content →
    (copyFileAndDelete calls (some source) (some dest) disk).2 source = none →
      (copyFileAndDelete calls (some source) (some dest) disk).2 dest = some content
  failed : (copyFileAndDelete calls (some source) (some dest) disk).1 = -1 →
    (copyFileAndDelete calls (some source) (some dest) disk).2 source = disk source ∧
      (calls.unlinksDest = true →
        (copyFileAndDelete calls (some source) (some dest) disk).2 dest = none ∨
        (copyFileAndDelete calls (some source) (some dest) disk).2 dest = disk dest)

/-- The whole content is read, and `fwrite` takes each block. -/
structure TakesAll (calls : Calls) (content : List UInt8) : Prop where
  reads : (calls.reading content).error = false
  writes : ∀ i block, (calls.reading content).blocks[i]? = some block →
    calls.accepted i = block.length

/-- What is buffered reaches the file. A file that is copied to itself has been emptied, and it is
to stay. -/
def Flushes (calls : Calls) (source dest : Path) (disk : Disk) : Prop :=
  ∀ content, disk source = some content → calls.opensSource = true → calls.opensDest = true →
    if source = dest then
      if (calls.reading []).error then content = [] ∧ calls.unlinksDest = false
      else calls.unlinksSource = false
    else TakesAll calls content → calls.unlinksSource = true → content.length ≤ calls.stored

variable {calls : Calls} {source dest : Path} {disk : Disk} {content : List UInt8}

/-! ### The loop -/

lemma writeBlocks_snd_iff (accepted : ℕ → ℕ) (i : ℕ) (blocks : List (List UInt8)) :
    (writeBlocks accepted i blocks).2 = true ↔
      ∀ j block, blocks[j]? = some block → accepted (i + j) = block.length := by
  induction blocks generalizing i with
  | nil => simp [writeBlocks]
  | cons block blocks ih =>
    rw [writeBlocks]
    split_ifs with h
    · refine iff_of_false (by simp) fun hall => h ?_
      exact hall 0 block rfl
    · rw [ih]
      constructor
      · intro hall j b hb
        match j with
        | 0 =>
          obtain rfl := Option.some.inj hb
          exact not_not.mp h
        | j + 1 =>
          have := hall j b hb
          rwa [Nat.add_right_comm] at this
      · intro hall j b hb
        have := hall (j + 1) b hb
        rwa [← Nat.add_assoc, Nat.add_right_comm] at this

lemma writeBlocks_fst {accepted : ℕ → ℕ} {i : ℕ} {blocks : List (List UInt8)}
    (h : (writeBlocks accepted i blocks).2 = true) :
    (writeBlocks accepted i blocks).1 = blocks.flatten := by
  induction blocks generalizing i with
  | nil => rfl
  | cons block blocks ih =>
    rw [writeBlocks] at h ⊢
    split_ifs at h ⊢ with hne
    rw [List.flatten_cons, ← ih h]

lemma takesAll_iff : TakesAll calls content ↔ (calls.reading content).error = false ∧
    (writeBlocks calls.accepted 0 (calls.reading content).blocks).2 = true := by
  rw [writeBlocks_snd_iff]
  simp only [Nat.zero_add]
  exact ⟨fun h => ⟨h.reads, h.writes⟩, fun h => ⟨h.1, h.2⟩⟩

instance : Decidable (TakesAll calls content) := decidable_of_iff _ takesAll_iff.symm

/-- All that has been taken is the content. -/
lemma TakesAll.taken (h : TakesAll calls content) :
    (writeBlocks calls.accepted 0 (calls.reading content).blocks).1 = content := by
  obtain ⟨herror, hall⟩ := takesAll_iff.mp h
  rw [writeBlocks_fst hall]
  exact (calls.reading content).complete herror

/-! ### The outcomes -/

/-- Nothing happens when a file cannot be opened. -/
lemma copyFileAndDelete_of_not_opened
    (h : disk source = none ∨ calls.opensSource = false ∨ calls.opensDest = false) :
    copyFileAndDelete calls (some source) (some dest) disk = (-1, disk) := by
  rw [copyFileAndDelete]
  by_cases hsource : disk source = none ∨ calls.opensSource = false
  · exact if_pos hsource
  · have hdest : calls.opensDest = false := by tauto
    rw [if_neg hsource, if_pos hdest]

/-- What the two files come to, with `now` the content that the reads find. -/
lemma copyFileAndDelete_of_opened (hcontent : disk source = some content)
    (hsource : calls.opensSource = true) (hdest : calls.opensDest = true) {now : List UInt8}
    (hnow : (Function.update disk dest (some []) source).getD [] = now) :
    copyFileAndDelete calls (some source) (some dest) disk =
      let disk := Function.update disk dest
        (some ((writeBlocks calls.accepted 0 (calls.reading now).blocks).1.take calls.stored))
      if TakesAll calls now then
        (0, if calls.unlinksSource then Function.update disk source none else disk)
      else (-1, if calls.unlinksDest then Function.update disk dest none else disk) := by
  have hopens : ¬(disk source = none ∨ calls.opensSource = false) := by
    rw [hcontent, hsource]
    simp
  rw [copyFileAndDelete, if_neg hopens, if_neg (by rw [hdest]; simp)]
  subst hnow
  simp only [Function.update_idem]
  by_cases hall : TakesAll calls ((Function.update disk dest (some []) source).getD [])
  · obtain ⟨herror, hwrites⟩ := takesAll_iff.mp hall
    rw [if_pos hall, if_neg (by rw [herror, hwrites]; simp)]
  · rw [if_neg hall, if_pos]
    by_contra hno
    rw [not_or, Bool.not_eq_false, Bool.not_eq_true] at hno
    exact hall (takesAll_iff.mpr ⟨hno.2, hno.1⟩)

/-- The file has been emptied, and reading it finds nothing. -/
lemma blocks_reading_nil (calls : Calls) : (calls.reading []).blocks = [] := by
  have hflat := List.prefix_nil.mp (calls.reading []).isPrefix
  match hblocks : (calls.reading []).blocks with
  | [] => rfl
  | block :: blocks =>
    have hpos := (calls.reading []).length_block block (by rw [hblocks]; exact List.mem_cons_self)
    rw [hblocks, List.flatten_cons, List.append_eq_nil_iff] at hflat
    rw [hflat.1] at hpos
    exact absurd hpos.1 (Nat.lt_irrefl 0)

lemma takesAll_nil_iff : TakesAll calls [] ↔ (calls.reading []).error = false := by
  rw [takesAll_iff, blocks_reading_nil]
  simp [writeBlocks]

/-! ### The law -/

lemma keepsData_of_not_opened
    (h : disk source = none ∨ calls.opensSource = false ∨ calls.opensDest = false) :
    KeepsData calls source dest disk := by
  have hrun : copyFileAndDelete calls (some source) (some dest) disk = (-1, disk) :=
    copyFileAndDelete_of_not_opened h
  refine ⟨fun content hcontent hnone => ?_, fun _ => ?_⟩
  · rw [hrun] at hnone
    exact absurd (hcontent.symm.trans hnone) (by simp)
  · rw [hrun]
    exact ⟨rfl, fun _ => .inr rfl⟩

/-- Between two files, all that can go wrong is that the end of the content gets lost when the
file is closed. -/
lemma keepsData_iff_of_ne (hne : source ≠ dest) (hcontent : disk source = some content)
    (hsource : calls.opensSource = true) (hdest : calls.opensDest = true) :
    KeepsData calls source dest disk ↔
      (TakesAll calls content → calls.unlinksSource = true → content.length ≤ calls.stored) := by
  have hnow : (Function.update disk dest (some []) source).getD [] = content := by
    rw [Function.update_of_ne hne, hcontent]
    rfl
  have hrun := copyFileAndDelete_of_opened hcontent hsource hdest hnow
  by_cases hall : TakesAll calls content
  · rw [if_pos hall, hall.taken] at hrun
    constructor
    · intro h _ hunlink
      have hremoved := h.removed content hcontent
      rw [hrun] at hremoved
      simp only [hunlink, if_true, Function.update_self, forall_const,
        Function.update_of_ne hne.symm, Option.some.injEq, List.take_eq_self_iff] at hremoved
      exact hremoved
    · intro h
      refine ⟨fun content' hcontent' hnone => ?_, fun hret => ?_⟩
      · obtain rfl := Option.some.inj (hcontent.symm.trans hcontent')
        rw [hrun] at hnone ⊢
        by_cases hunlink : calls.unlinksSource = true
        · simp [hunlink, Function.update_of_ne hne.symm, h hall hunlink]
        · simp [hunlink, Function.update_of_ne hne, hcontent] at hnone
      · rw [hrun] at hret
        exact absurd hret (by simp)
  · rw [if_neg hall] at hrun
    refine iff_of_true ⟨fun content' hcontent' hnone => ?_, fun _ => ?_⟩ fun h => absurd h hall
    · rw [hrun] at hnone
      split_ifs at hnone
      · simp [Function.update_of_ne hne, hcontent] at hnone
      · simp [Function.update_of_ne hne, hcontent] at hnone
    · rw [hrun]
      refine ⟨?_, fun hunlink => .inl ?_⟩
      · split_ifs
        · simp [Function.update_of_ne hne]
        · simp [Function.update_of_ne hne]
      · simp [hunlink]

/-- A file that is copied to itself is lost, unless it is not removed. -/
lemma keepsData_iff_of_eq (hcontent : disk source = some content)
    (hsource : calls.opensSource = true) (hdest : calls.opensDest = true) :
    KeepsData calls source source disk ↔
      if (calls.reading []).error then content = [] ∧ calls.unlinksDest = false
      else calls.unlinksSource = false := by
  have hnow : (Function.update disk source (some []) source).getD [] = [] := by simp
  have hrun := copyFileAndDelete_of_opened hcontent hsource hdest hnow
  rw [blocks_reading_nil, writeBlocks, List.take_nil] at hrun
  by_cases herror : (calls.reading []).error = true
  · have hall : ¬ TakesAll calls [] := by
      rw [takesAll_nil_iff, herror]
      simp
    rw [if_neg hall] at hrun
    rw [if_pos herror]
    constructor
    · intro h
      have hfailed := h.failed
      rw [hrun] at hfailed
      cases hunlink : calls.unlinksDest with
      | false => simpa [hunlink, hcontent, eq_comm] using hfailed
      | true => simp [hunlink, hcontent] at hfailed
    · rintro ⟨rfl, hunlink⟩
      rw [hunlink] at hrun
      refine ⟨fun content' _ hnone => ?_, fun _ => ?_⟩
      · rw [hrun] at hnone
        simp at hnone
      · rw [hrun, hcontent, hunlink]
        simp
  · have hall : TakesAll calls [] := takesAll_nil_iff.mpr (Bool.eq_false_iff.mpr herror)
    rw [if_pos hall] at hrun
    rw [if_neg herror]
    constructor
    · intro h
      have hremoved := h.removed content hcontent
      rw [hrun] at hremoved
      cases hunlink : calls.unlinksSource with
      | false => rfl
      | true => simp [hunlink] at hremoved
    · intro hunlink
      rw [hunlink] at hrun
      refine ⟨fun content' _ hnone => ?_, fun hret => ?_⟩
      · rw [hrun] at hnone
        simp at hnone
      · rw [hrun] at hret
        simp at hret

/-- No data is lost exactly if what is buffered reaches the file when it is closed. -/
theorem keepsData_iff (calls : Calls) (source dest : Path) (disk : Disk) :
    KeepsData calls source dest disk ↔ Flushes calls source dest disk := by
  match hcontent : disk source with
  | none =>
    refine iff_of_true (keepsData_of_not_opened (.inl hcontent)) fun content h => ?_
    exact absurd (hcontent.symm.trans h) (by simp)
  | some content =>
    by_cases hsource : calls.opensSource = true
    swap
    · refine iff_of_true (keepsData_of_not_opened (.inr (.inl ?_))) fun _ _ h => absurd h hsource
      exact Bool.eq_false_iff.mpr hsource
    by_cases hdest : calls.opensDest = true
    swap
    · refine iff_of_true (keepsData_of_not_opened (.inr (.inr ?_))) fun _ _ _ h => absurd h hdest
      exact Bool.eq_false_iff.mpr hdest
    have hflushes : Flushes calls source dest disk ↔
        if source = dest then
          if (calls.reading []).error then content = [] ∧ calls.unlinksDest = false
          else calls.unlinksSource = false
        else TakesAll calls content → calls.unlinksSource = true →
          content.length ≤ calls.stored := by
      constructor
      · intro h
        exact h content hcontent hsource hdest
      · intro h content' hcontent' _ _
        obtain rfl := Option.some.inj (hcontent.symm.trans hcontent')
        exact h
    rw [hflushes]
    by_cases heq : source = dest
    · subst heq
      rw [if_pos rfl]
      exact keepsData_iff_of_eq hcontent hsource hdest
    · rw [if_neg heq]
      exact keepsData_iff_of_ne heq hcontent hsource hdest

/-! ### The archive on the drive -/

/-- The calls as the upload to the drive sees them. -/
def Calls.copyRun (calls : Calls) (content : List UInt8) : CopyRun where
  fopenSource := calls.opensSource
  fopenDest := calls.opensDest
  copied := TakesAll calls content
  flushed := content.length ≤ calls.stored

/-- The upload has the result of the copy, and its archive is whole if the destination is. -/
theorem copyFileAndDelete_copyRun {env : Env} (archive : Option Archive.ArchiveFile)
    (henv : env.copy = calls.copyRun content) (hne : source ≠ dest)
    (hcontent : disk source = some content) :
    let run := copyFileAndDelete calls (some source) (some dest) disk
    Usb.copyFileAndDelete env archive =
      (run.1, if run.1 = 0 ∧ run.2 dest = some content then archive else none) := by
  dsimp only
  rw [Usb.copyFileAndDelete, henv, Calls.copyRun]
  dsimp only
  by_cases hsource : calls.opensSource = true
  swap
  · rw [Bool.not_eq_true] at hsource
    rw [copyFileAndDelete_of_not_opened (.inr (.inl hsource)), hsource]
    simp
  by_cases hdest : calls.opensDest = true
  swap
  · rw [Bool.not_eq_true] at hdest
    rw [copyFileAndDelete_of_not_opened (.inr (.inr hdest)), hsource, hdest]
    simp
  have hnow : (Function.update disk dest (some []) source).getD [] = content := by
    rw [Function.update_of_ne hne, hcontent]
    rfl
  rw [copyFileAndDelete_of_opened hcontent hsource hdest hnow]
  by_cases hall : TakesAll calls content
  · have hheld : (if calls.unlinksSource = true then
        Function.update (Function.update disk dest (some (content.take calls.stored))) source none
        else Function.update disk dest (some (content.take calls.stored))) dest =
          some (content.take calls.stored) := by
      split_ifs
      · rw [Function.update_of_ne hne.symm, Function.update_self]
      · rw [Function.update_self]
    simp only [if_pos hall, hall.taken, hheld]
    simp [hsource, hdest, hall, List.take_eq_self_iff]
  · dsimp only
    rw [if_neg hall]
    simp [hsource, hdest, hall]

/-- Files of one block are read. -/
def readBlock (content : List UInt8) : Reading content :=
  if hnil : content = [] then Upload.readNothing content false fun _ => hnil
  else if hlen : content.length ≤ 8192 then
    { blocks := [content]
      error := false
      length_block := by simpa using ⟨List.length_pos_iff.mpr hnil, hlen⟩
      isPrefix := by simp
      complete := by simp }
  else Upload.readNothing content true (by simp)

/-- The drive is full: `fwrite` takes the block, which does not reach the file. -/
def fullDrive : Calls where
  opensSource := true
  opensDest := true
  reading := readBlock
  accepted _ := 3
  stored := 0
  unlinksSource := true
  unlinksDest := true

/-- An archive, and no file on the drive. -/
def archiveDisk : Disk := fun path =>
  if path = "/opt/tmpusb/logs.tgz".toList then some [1, 2, 3] else none

theorem fullDrive_loses :
    (copyFileAndDelete fullDrive (some "/opt/tmpusb/logs.tgz".toList)
        (some "/mnt/usb/logs.tgz".toList) archiveDisk).1 = 0 ∧
      ¬ KeepsData fullDrive "/opt/tmpusb/logs.tgz".toList "/mnt/usb/logs.tgz".toList
        archiveDisk := by
  refine ⟨by decide +kernel, fun h => ?_⟩
  have hremoved := h.removed [1, 2, 3] (by decide) (by decide +kernel)
  exact absurd hremoved (by decide +kernel)

end DcmAgent.Usb.Move
