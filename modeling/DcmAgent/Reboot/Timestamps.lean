import Mathlib.Tactic
import DcmAgent.Backup.Enabled
import DcmAgent.Reboot.Aborted

/-!
# Timestamps in front of names

`add_timestamp_to_files` puts a timestamp in front of the names of a directory, and
`remove_timestamp_from_files` cuts it off again. The second cannot tell the names that the first has
changed from those that have started with the timestamp before.
-/

namespace DcmAgent.Reboot

open Library
open Archive (maxPathLength)
open Backup.Enabled (digit twoDigits hour12)

variable {env : Env} {timestamp n m : Name} {d : Directory Node}

/-- `%m-%d-%y-%I-%M%p-`. -/
def stamp (t : ℤ) : List Char :=
  let tm := gmtime t
  twoDigits (tm.mon + 1) ++ '-' :: twoDigits tm.mday ++ '-' :: twoDigits (tm.year % 100) ++
    '-' :: twoDigits (hour12 tm.hour) ++ '-' :: twoDigits tm.min ++
    [if tm.hour < 12 then 'A' else 'P', 'M', '-']

/-- Names are different, and none is empty. -/
structure WellFormed (d : Directory Node) : Prop where
  nodup : d.names.Nodup
  nonempty : [] ∉ d.names

/-- `add_timestamp_to_files` changes the name. -/
def Plain (timestamp n : Name) : Prop :=
  ¬(n.head? = some '.' ∨ timestamp <+: n) ∧
    ¬("bak1_".toList <+: n ∨ "bak2_".toList <+: n ∨ "bak3_".toList <+: n)

instance (timestamp n : Name) : Decidable (Plain timestamp n) := by
  unfold Plain; infer_instance

/-- The calls succeed, and the paths fit. -/
structure Smooth (env : Env) (timestamp : Name) (d : Directory Node) : Prop where
  timestamp_eq : env.timestamp = some timestamp
  reads : ∀ loop d, env.readdir loop d ≠ none
  renames : ∀ loop n, env.renames loop n = true
  fits : ∀ n ∈ d.names, Fits env.prevLogPath n
  fits_stamped : ∀ n ∈ d.names, Plain timestamp n → Fits env.prevLogPath (timestamp ++ n)

/-- The directory with timestamps, and the directory without them. -/
def stamped (env : Env) (statics : Statics) (d : Directory Node) : Directory Node :=
  (addTimestampToFiles env statics d).2

def unstamped (env : Env) (statics : Statics) (d : Directory Node) : Directory Node :=
  removeTimestampFromFiles env (addTimestampToFiles env statics d).1 (stamped env statics d)

/-- The directory is as before, and in between every file has been there. -/
structure Undone (env : Env) (statics : Statics) (d : Directory Node) : Prop where
  back : (unstamped env statics d).Same d
  apart : ((stamped env statics d).map Prod.snd).Perm (d.map Prod.snd)

/-- The name has more than the timestamp to it, and starts with that. -/
def StampedBefore (timestamp n : Name) : Prop := timestamp <+: n ∧ n ≠ timestamp

/-! ### Names -/

lemma head_stamp (t : ℤ) : (stamp t).head? ≠ some '.' := by
  have hbounds := (gmtime_bounds t).2.2.2.2
  have hmonth : ((gmtime t).mon + 1) / 10 = 0 ∨ ((gmtime t).mon + 1) / 10 = 1 := by omega
  have hhead : (stamp t).head? = some (digit (((gmtime t).mon + 1) / 10)) := rfl
  rw [hhead]
  rcases hmonth with h | h <;> rw [h] <;> decide

lemma length_stamp (t : ℤ) : (stamp t).length = 17 := rfl

/-- What the loops over the entries do to a name. -/
lemma stampedName_eq (hfits : Fits env.prevLogPath n)
    (hstamped : Plain timestamp n → Fits env.prevLogPath (timestamp ++ n)) :
    stampedName env.prevLogPath timestamp n =
      if Plain timestamp n then some (timestamp ++ n) else none := by
  unfold stampedName
  by_cases h₁ : n.head? = some '.' ∨ timestamp <+: n
  · rw [if_pos h₁, if_neg fun h : Plain timestamp n => h.1 h₁]
  · rw [if_neg h₁]
    by_cases h₂ : "bak1_".toList <+: n ∨ "bak2_".toList <+: n ∨ "bak3_".toList <+: n
    · rw [if_pos h₂, if_neg fun h : Plain timestamp n => h.2 h₂]
    · have hplain : Plain timestamp n := ⟨h₁, h₂⟩
      rw [if_neg h₂, if_pos ⟨hfits, hstamped hplain⟩, if_pos hplain]

lemma stampedName_eq_some (h : stampedName env.prevLogPath timestamp n = some m) :
    m = timestamp ++ n ∧ Plain timestamp n := by
  rw [stampedName] at h
  split_ifs at h with h₁ h₂
  exact ⟨(Option.some.inj h).symm, h₁, h₂⟩

lemma stampedName_stamped : stampedName env.prevLogPath timestamp (timestamp ++ n) = none := by
  rw [stampedName, if_pos (.inr (List.prefix_append _ _))]

/-- A name that starts with the timestamp is cut. -/
lemma originalName_stamped (hhead : timestamp.head? ≠ some '.') (hpos : 0 < timestamp.length)
    (hn : n ≠ []) (hfits : Fits env.prevLogPath (timestamp ++ n)) :
    originalName env timestamp (timestamp ++ n) = some n := by
  have hlen : timestamp.length < (timestamp ++ n).length := by
    have := List.length_pos_iff.mpr hn
    rw [List.length_append]
    omega
  have hcut : cutPos timestamp (timestamp ++ n) = some timestamp.length := by
    rw [cutPos, if_pos ⟨hpos, hlen⟩, if_pos (List.prefix_append _ _)]
  have hshort : Fits env.prevLogPath n := by
    rw [Fits, pathOf, List.length_append] at hfits ⊢
    rw [List.length_cons, List.length_append] at hfits
    rw [List.length_cons]
    omega
  have hhead' : (timestamp ++ n).head? ≠ some '.' := by
    obtain ⟨c, cs, rfl⟩ := List.exists_cons_of_length_pos hpos
    exact hhead
  rw [originalName, if_neg hhead', hcut]
  simp only [List.drop_left]
  rw [if_pos ⟨hpos, hlen, hfits, hshort⟩]

/-- No other name is, when the timestamp is short. -/
lemma originalName_eq_some (hpos : 0 < timestamp.length) (hle : timestamp.length ≤ 19)
    (h : originalName env timestamp n = some m) : n = timestamp ++ m ∧ m ≠ [] := by
  unfold originalName at h
  split_ifs at h
  split at h
  · cases h
  · rename_i cut hcut
    split_ifs at h with hfits
    obtain rfl := Option.some.inj h
    unfold cutPos at hcut
    by_cases hlong : 0 < timestamp.length ∧ timestamp.length < n.length
    · rw [if_pos hlong] at hcut
      split_ifs at hcut with hpre
      obtain rfl := Option.some.inj hcut
      obtain ⟨s, rfl⟩ := hpre
      rw [List.drop_left]
      refine ⟨rfl, ?_⟩
      rintro rfl
      simp at hlong
    · -- the search for a timestamp is for longer names
      rw [if_neg hlong, if_neg (by omega)] at hcut
      cases hcut

/-! ### The loops -/

/-- Each entry has its turn. -/
lemma renameEach_eq (h : Smooth env timestamp d) (loop : Loop) (f : Name → Option Name)
    (d' : Directory Node) :
    ∃ l : List Name, (∀ n ∈ d'.names, n ∈ l) ∧
      renameEach env loop f d' = l.foldl (Directory.renameBy f) d' := by
  obtain ⟨l, hl⟩ := Option.ne_none_iff_exists'.mp (h.reads loop d')
  have hstep : renameEntry (env.renames loop) f = Directory.renameBy f := by
    funext d n
    unfold renameEntry Directory.renameBy
    cases f n with
    | none => rfl
    | some m => exact if_pos (h.renames loop n)
  refine ⟨l, fun n hn => env.complete loop d' l n hl hn, ?_⟩
  rw [renameEach, hl, hstep]

lemma stamped_eq (h : Smooth env timestamp d) (statics : Statics) :
    ∃ l : List Name, (∀ n ∈ d.names, n ∈ l) ∧
      stamped env statics d =
        l.foldl (Directory.renameBy (stampedName env.prevLogPath timestamp)) d := by
  have heq : stamped env statics d =
      renameEach env .addTimestamp (stampedName env.prevLogPath timestamp) d := by
    rw [stamped, addTimestampToFiles, h.timestamp_eq]
  rw [heq]
  exact renameEach_eq h _ _ _

lemma unstamped_eq (h : Smooth env timestamp d) (statics : Statics) :
    ∃ l : List Name, (∀ n ∈ (stamped env statics d).names, n ∈ l) ∧
      unstamped env statics d =
        l.foldl (Directory.renameBy (originalName env timestamp)) (stamped env statics d) := by
  have heq : unstamped env statics d =
      renameEach env .removeTimestamp (originalName env timestamp) (stamped env statics d) := by
    rw [unstamped, addTimestampToFiles, removeTimestampFromFiles, h.timestamp_eq]
    rfl
  rw [heq]
  exact renameEach_eq h _ _ _

/-! ### Directories without the timestamp -/

section Fresh

variable (h : Smooth env timestamp d) (hd : WellFormed d)
  (hno : ∀ n ∈ d.names, ¬StampedBefore timestamp n)

include h

lemma newName_stampedName (hn : n ∈ d.names) :
    Directory.newName (stampedName env.prevLogPath timestamp) n =
      if Plain timestamp n then timestamp ++ n else n := by
  rw [Directory.newName, stampedName_eq (h.fits n hn) (h.fits_stamped n hn)]
  split_ifs <;> rfl

include hd hno

lemma apart_stampedName : Directory.Apart (stampedName env.prevLogPath timestamp) d := by
  have hne : ∀ n ∈ d.names, ∀ m ∈ d.names, timestamp ++ n ≠ m := by
    rintro n hn m hm rfl
    refine hno _ hm ⟨List.prefix_append _ _, fun heq => hd.nonempty ?_⟩
    rwa [List.append_right_eq_self.mp heq] at hn
  refine ⟨hd.nodup, ?_, ?_⟩
  · intro n hn m hm
    obtain ⟨rfl, -⟩ := stampedName_eq_some hm
    exact stampedName_stamped
  · intro n hn m hm heq
    rw [newName_stampedName h hn, newName_stampedName h hm] at heq
    split_ifs at heq
    · exact List.append_cancel_left heq
    · exact absurd heq (hne n hn m hm)
    · exact absurd heq.symm (hne m hm n hn)
    · exact heq

lemma perm_stamped (statics : Statics) :
    (stamped env statics d).Perm (d.newNames (stampedName env.prevLogPath timestamp)) := by
  obtain ⟨l, hl, heq⟩ := stamped_eq h statics
  rw [heq]
  exact (apart_stampedName h hd hno).perm_foldl_renameBy hl

variable (hhead : timestamp.head? ≠ some '.') (hpos : 0 < timestamp.length)
  (hle : timestamp.length ≤ 19)

include hhead hpos hle

/-- Cutting the timestamp off is the inverse of putting it in front. -/
lemma newName_originalName (hn : n ∈ d.names) :
    Directory.newName (originalName env timestamp)
      (Directory.newName (stampedName env.prevLogPath timestamp) n) = n := by
  rw [newName_stampedName h hn]
  have hne : n ≠ [] := fun heq => hd.nonempty (heq ▸ hn)
  by_cases hplain : Plain timestamp n
  · rw [if_pos hplain]
    exact Directory.newName_of_some
      (originalName_stamped hhead hpos hne (h.fits_stamped n hn hplain))
  · rw [if_neg hplain]
    refine Directory.newName_of_none ?_
    by_contra hsome
    obtain ⟨m, hm⟩ := Option.ne_none_iff_exists'.mp hsome
    obtain ⟨rfl, hne'⟩ := originalName_eq_some hpos hle hm
    exact hno _ hn ⟨List.prefix_append _ _, fun heq => hne' (List.append_right_eq_self.mp heq)⟩

lemma apart_originalName (statics : Statics) :
    Directory.Apart (originalName env timestamp) (stamped env statics d) := by
  have hperm := perm_stamped h hd hno statics
  have hnames : ∀ k ∈ (stamped env statics d).names, ∃ n ∈ d.names,
      Directory.newName (stampedName env.prevLogPath timestamp) n = k := by
    intro k hk
    obtain ⟨x, hx⟩ := Directory.mem_names_iff.mp hk
    obtain ⟨⟨n, y⟩, hmem, heq⟩ := List.mem_map.mp (hperm.mem_iff.mp hx)
    exact ⟨n, Directory.mem_names_iff.mpr ⟨y, hmem⟩, congrArg Prod.fst heq⟩
  refine ⟨?_, ?_, ?_⟩
  · obtain ⟨l, -, heq⟩ := stamped_eq h statics
    rw [heq]
    exact ((apart_stampedName h hd hno).foldl_renameBy l).1.nodup
  · intro k hk m hm
    obtain ⟨n, hn, rfl⟩ := hnames k hk
    obtain rfl : n = m := by
      rw [← newName_originalName h hd hno hhead hpos hle hn, Directory.newName_of_some hm]
    by_contra hsome
    obtain ⟨m', hm'⟩ := Option.ne_none_iff_exists'.mp hsome
    obtain ⟨rfl, hne⟩ := originalName_eq_some hpos hle hm'
    exact hno _ hn ⟨List.prefix_append _ _, fun heq => hne (List.append_right_eq_self.mp heq)⟩
  · intro k hk k' hk' heq
    obtain ⟨n, hn, rfl⟩ := hnames k hk
    obtain ⟨n', hn', rfl⟩ := hnames k' hk'
    rw [newName_originalName h hd hno hhead hpos hle hn,
      newName_originalName h hd hno hhead hpos hle hn'] at heq
    rw [heq]

lemma undone_of_fresh (statics : Statics) : Undone env statics d := by
  have hperm := perm_stamped h hd hno statics
  obtain ⟨l, hl, heq⟩ := unstamped_eq h statics
  constructor
  · have hback := (apart_originalName h hd hno hhead hpos hle
      statics).perm_foldl_renameBy hl
    rw [← heq] at hback
    refine hback.trans ((hperm.map _).trans (.of_eq ?_))
    rw [Directory.newNames, List.map_map]
    refine (List.map_congr_left ?_).trans (List.map_id _)
    rintro ⟨n, x⟩ hmem
    have hn := Directory.mem_names_iff.mpr ⟨x, hmem⟩
    simp [newName_originalName h hd hno hhead hpos hle hn]
  · refine (hperm.map Prod.snd).trans (.of_eq ?_)
    rw [Directory.newNames, List.map_map]
    rfl

end Fresh

/-! ### Directories with the timestamp -/

/-- The name with the timestamp in front of it some more times. -/
def Piled (timestamp n m : Name) : Prop := ∃ j, m = (List.replicate j timestamp).flatten ++ n

lemma Piled.append (h : Piled timestamp n m) : Piled timestamp n (timestamp ++ m) := by
  obtain ⟨j, rfl⟩ := h
  exact ⟨j + 1, by rw [List.replicate_succ, List.flatten_cons, List.append_assoc]⟩

lemma Piled.length_le (h : Piled timestamp n m) : n.length ≤ m.length := by
  obtain ⟨j, rfl⟩ := h
  rw [List.length_append]
  exact Nat.le_add_left _ _

/-- It is the name itself, or there is one with one timestamp less, which has it still. -/
lemma Piled.eq_or (h : Piled timestamp n m) (hn : timestamp <+: n) :
    m = n ∨ ∃ k, m = timestamp ++ k ∧ timestamp <+: k ∧ n.length ≤ k.length := by
  obtain ⟨_ | j, rfl⟩ := h
  · exact .inl rfl
  · refine .inr ⟨(List.replicate j timestamp).flatten ++ n, ?_, ?_, Piled.length_le ⟨j, rfl⟩⟩
    · rw [List.replicate_succ, List.flatten_cons, List.append_assoc]
    · cases j with
      | zero => exact hn
      | succ j =>
        rw [List.replicate_succ, List.flatten_cons, List.append_assoc]
        exact List.prefix_append _ _

section Stale

variable (h : Smooth env timestamp d) (hn : n ∈ d.names) (hstale : StampedBefore timestamp n)
  (hlongest : ∀ m ∈ d.names, StampedBefore timestamp m → m.length ≤ n.length)
  (hhead : timestamp.head? ≠ some '.') (hpos : 0 < timestamp.length)
  (hle : timestamp.length ≤ 19)

include h hstale hlongest hpos

/-- No longer pile is there after the first loop. -/
lemma eq_of_piled_stamped (statics : Statics) (hm : m ∈ (stamped env statics d).names)
    (hpiled : Piled timestamp n m) : m = n := by
  obtain ⟨l, -, heq⟩ := stamped_eq h statics
  rw [heq] at hm
  rcases hpiled.eq_or hstale.1 with hmn | ⟨k, rfl, hpre, hlen⟩
  · exact hmn
  · obtain ⟨-, hgiven | ⟨hmem, -⟩⟩ := Directory.mem_names_foldl_renameBy
      (P := fun _ => True) (R := fun m => ∃ n, m = timestamp ++ n ∧ Plain timestamp n)
      (fun n m _ hm => ⟨trivial, n, stampedName_eq_some hm⟩) (fun _ _ => trivial) _ hm
    · obtain ⟨k', hk, hplain⟩ := hgiven
      rw [← List.append_cancel_left hk] at hplain
      exact absurd (Or.inr hpre) hplain.1
    · have hkpos : 0 < k.length := hpos.trans_le hpre.length_le
      have hlt : (timestamp ++ k).length ≤ n.length := hlongest _ hmem ⟨List.prefix_append _ _,
        fun heq => by simp [List.append_right_eq_self.mp heq] at hkpos⟩
      rw [List.length_append] at hlt
      omega

include hn hhead hle

/-- Its name is cut, and no other entry gets it. -/
lemma not_undone_of_stale (statics : Statics) : ¬Undone env statics d := by
  intro hundone
  have hmem : n ∈ (unstamped env statics d).names := by
    obtain ⟨x, hx⟩ := Directory.mem_names_iff.mp hn
    exact Directory.mem_names_iff.mpr ⟨x, hundone.back.mem_iff.mpr hx⟩
  obtain ⟨l, hl, heq⟩ := unstamped_eq h statics
  rw [heq] at hmem
  obtain ⟨-, hne | ⟨hmem, hturn⟩⟩ := Directory.mem_names_foldl_renameBy
    (P := fun m => Piled timestamp n m → m = n) (R := fun m => m ≠ n)
    (by
      intro k m hk hm
      obtain ⟨rfl, -⟩ := originalName_eq_some hpos hle hm
      have hpiled : ¬Piled timestamp n m := by
        intro hpiled
        have hlen := hpiled.length_le
        rw [← hk hpiled.append, List.length_append] at hlen
        omega
      exact ⟨fun hm => absurd hm hpiled, fun hm => hpiled (hm ▸ ⟨0, rfl⟩)⟩)
    (fun m hm hpiled => eq_of_piled_stamped h hstale hlongest hpos statics hm hpiled) n hmem
  · exact hne rfl
  · obtain ⟨s, hs⟩ := hstale.1
    have hsne : s ≠ [] := by
      rintro rfl
      exact hstale.2 (by rw [← hs, List.append_nil])
    have hcut : originalName env timestamp n = some s := by
      rw [← hs] at hn ⊢
      exact originalName_stamped hhead hpos hsne (h.fits _ hn)
    rw [hturn (hl n hmem)] at hcut
    cases hcut

end Stale

/-- The longest of the names with a property. -/
lemma exists_longest {l : List Name} {P : Name → Prop} (h : ∃ n ∈ l, P n) :
    ∃ n ∈ l, P n ∧ ∀ m ∈ l, P m → m.length ≤ n.length := by
  classical
  obtain ⟨n, hn, hP⟩ := h
  obtain ⟨k, hk, hmax⟩ := (l.toFinset.filter P).exists_max_image List.length
    ⟨n, by simp [hn, hP]⟩
  rw [Finset.mem_filter, List.mem_toFinset] at hk
  exact ⟨k, hk.1, hk.2, fun m hm hPm => hmax m (by simp [hm, hPm])⟩

/-- Removing the timestamps undoes adding them exactly if no name has started with the timestamp
before. -/
theorem undone_iff {t : ℤ} (h : Smooth env (stamp t) d) (hd : WellFormed d) (statics : Statics) :
    Undone env statics d ↔ ∀ n ∈ d.names, ¬StampedBefore (stamp t) n := by
  have hpos : 0 < (stamp t).length := by rw [length_stamp]; omega
  have hle : (stamp t).length ≤ 19 := by rw [length_stamp]; omega
  constructor
  · intro hundone
    by_contra hno
    push Not at hno
    obtain ⟨n, hn, hstale, hlongest⟩ := exists_longest hno
    exact not_undone_of_stale h hn hstale hlongest (head_stamp t) hpos hle statics hundone
  · intro hno
    exact undone_of_fresh h hd hno (head_stamp t) hpos hle statics

instance (timestamp n : Name) : Decidable (StampedBefore timestamp n) := by
  unfold StampedBefore; infer_instance

/-- Two logs, one of them with the timestamp of this minute. -/
def twins : Directory Node :=
  [("messages.txt".toList, .regular ['a']),
    ("11-30-25-03-45PM-messages.txt".toList, .regular ['b'])]

/-- 2025-11-30 15:45:00 UTC. -/
lemma stamp_afternoon : stamp 1764517500 = "11-30-25-03-45PM-".toList := by decide +kernel

lemma smooth_succeeding (hfits : ∀ n ∈ d.names, n.length < 400) :
    Smooth (.succeeding true) (stamp 1764517500) d := by
  have hpath : (Env.succeeding true).prevLogPath.length = 22 := by decide +kernel
  refine ⟨congrArg some stamp_afternoon.symm, fun _ _ => Option.some_ne_none _, fun _ _ => rfl, ?_,
    ?_⟩
  · intro n hn
    have := hfits n hn
    rw [Fits, pathOf, List.length_append, List.length_cons, hpath, maxPathLength]
    omega
  · intro n hn _
    have := hfits n hn
    rw [Fits, pathOf, List.length_append, List.length_cons, List.length_append, length_stamp, hpath,
      maxPathLength]
    omega

/-- Three logs, one of them with the timestamp of another minute. -/
def stampedLogs : Directory Node :=
  [("messages.txt".toList, .regular ['a']), ("11-29-25-09-10AM-app.log".toList, .regular ['b']),
    ("app.log".toList, .regular ['c'])]

theorem undone_stampedLogs : Undone (.succeeding true) .init stampedLogs := by
  refine (undone_iff (t := 1764517500) (smooth_succeeding (by decide +kernel)) ?_ .init).mpr ?_
  · exact ⟨by decide +kernel, by decide +kernel⟩
  · rw [stamp_afternoon]
    decide +kernel

/-- One log replaces the other, and the name of what is left is cut. -/
theorem twins_merged :
    Smooth (.succeeding true) (stamp 1764517500) twins ∧ WellFormed twins ∧
      ¬Undone (.succeeding true) .init twins := by
  refine ⟨smooth_succeeding (by decide +kernel), ⟨by decide +kernel, by decide +kernel⟩, ?_⟩
  intro hundone
  have hlen := hundone.apart.length_eq
  rw [List.length_map, List.length_map] at hlen
  exact absurd hlen (by decide +kernel)

end DcmAgent.Reboot
