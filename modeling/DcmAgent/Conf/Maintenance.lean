import Mathlib.Tactic
import DcmAgent.Library.CString
import DcmAgent.Library.Json
import DcmAgent.Upload.Run

/-!
# The maintenance window

`dcmSettingSaveMaintenance` writes the start of the maintenance window to a file. It takes minute
and hour from the text of a cron pattern itself: the characters before the first blank and those
before the second go to two arrays of four characters, whose ends it does not look at. A store
outside of its array has no defined behaviour, nor has reading an array without a terminator; both
are `none`.
-/

namespace DcmAgent.Conf

open Library
open Upload (atoi)

/-- The loop over the pattern. `ptr` is an offset in one of the arrays. -/
structure Copying where
  buffhr : CBuffer 4
  buffmin : CBuffer 4
  atHour : Bool
  ptr : ℕ
  count : ℕ

def Copying.init : Copying := ⟨.fill 4 nul, .fill 4 nul, false, 0, 0⟩

/-- `*ptr++ = c`. -/
def Copying.store (s : Copying) (c : Char) : Option Copying :=
  if s.atHour then (s.buffhr.set s.ptr c).map fun b => { s with buffhr := b, ptr := s.ptr + 1 }
  else (s.buffmin.set s.ptr c).map fun b => { s with buffmin := b, ptr := s.ptr + 1 }

def copyFields : List Char → Copying → Option Copying
  | [], s => some s
  | c :: text, s =>
    if c = ' ' then
      let count := s.count + 1
      if count > 1 then some { s with count }
      else copyFields text { s with count, atHour := true, ptr := 0 }
    else (s.store c).bind (copyFields text)

/-- `atoi` of an array, if a terminator ends the text in it. -/
def readNumber (b : CBuffer 4) : Option ℤ := if nul ∈ b.chars then some (atoi b.str) else none

def maintenanceConf (startHr startMin : ℤ) (tzMode : List Char) : List Char :=
  "start_hr=\"".toList ++ decimal startHr ++ "\"\n".toList ++
    ("start_min=\"".toList ++ decimal startMin ++ "\"\n".toList) ++
    ("tz_mode=\"".toList ++ tzMode ++ "\"\n".toList)

/-- The value returned and the file, if that can be opened. -/
def dcmSettingSaveMaintenance (fopen : Bool) (cronptr timeZone : List Char) :
    Option (ℤ × Option (List Char)) :=
  if ¬fopen then some (-1, none)
  else do
    let s ← copyFields cronptr .init
    let startHr ← readNumber s.buffhr
    let startMin ← readNumber s.buffmin
    return (0, some (maintenanceConf startHr startMin timeZone))

/-- A number with the quotation mark behind it. -/
lemma decimal_quote_inj {z w : ℤ} {s t : List Char}
    (h : decimal z ++ '"' :: s = decimal w ++ '"' :: t) : z = w ∧ s = t := by
  have hcut (z : ℤ) (s : List Char) : (decimal z ++ '"' :: s).takeWhile (· ≠ '"') = decimal z := by
    rw [List.takeWhile_append_of_pos, List.takeWhile_cons_of_neg (by simp), List.append_nil]
    intro c hc
    refine decide_eq_true ?_
    rintro rfl
    rcases mem_decimal hc with h | h <;> simp at h
  have heq : decimal z = decimal w := by rw [← hcut z s, h, hcut]
  rw [heq] at h
  exact ⟨decimal_injective heq, (List.cons.inj (List.append_cancel_left h)).2⟩

/-- The file tells the hour and the minute. -/
lemma maintenanceConf_inj {hr hr' mn mn' : ℤ} {tz : List Char}
    (h : maintenanceConf hr mn tz = maintenanceConf hr' mn' tz) : hr = hr' ∧ mn = mn' := by
  have hquote : "\"\n".toList = ['"', '\n'] := by decide +kernel
  unfold maintenanceConf at h
  generalize "start_hr=\"".toList = hourLabel, "start_min=\"".toList = minuteLabel,
    "tz_mode=\"".toList = zoneLabel at h
  simp only [List.append_assoc, hquote, List.cons_append, List.nil_append] at h
  obtain ⟨hhr, h⟩ := decimal_quote_inj (List.append_cancel_left h)
  obtain ⟨hmn, -⟩ := decimal_quote_inj (List.append_cancel_left (List.cons.inj h).2)
  exact ⟨hhr, hmn⟩

/-! ### The two pieces -/

/-- The text before the first blank. -/
def firstPiece (text : List Char) : List Char := text.takeWhile (· ≠ ' ')

/-- The text between the first two blanks. -/
def secondPiece (text : List Char) : List Char := firstPiece (text.dropWhile (· ≠ ' ')).tail

variable {text piece q : List Char} {s : Copying} {c : Char}

lemma firstPiece_cons (hc : c ≠ ' ') : firstPiece (c :: text) = c :: firstPiece text := by
  simp [firstPiece, hc]

lemma secondPiece_cons (hc : c ≠ ' ') : secondPiece (c :: text) = secondPiece text := by
  simp [secondPiece, hc]

@[simp] lemma firstPiece_blank : firstPiece (' ' :: text) = [] := by simp [firstPiece]

@[simp] lemma secondPiece_blank : secondPiece (' ' :: text) = firstPiece text := by
  simp [secondPiece]

/-- No character can be stored behind the end. -/
lemma set_eq_none {b : CBuffer 4} {i : ℕ} (hi : 4 ≤ i) : b.set i c = none := if_neg (by omega)

/-- The characters of the hour. -/
lemma copyFields_hour (text : List Char) (hhour : s.atHour = true) (hcount : s.count = 1)
    (hfilled : s.buffhr.Filled q) (hptr : s.ptr = q.length) :
    ((q ++ firstPiece text).length ≤ 4 → ∃ s', copyFields text s = some s' ∧
        s'.buffhr.Filled (q ++ firstPiece text) ∧ s'.buffmin = s.buffmin) ∧
      (4 < (q ++ firstPiece text).length → copyFields text s = none) := by
  induction text generalizing s q with
  | nil =>
    have hle := hfilled.length_le
    have hnil : q ++ firstPiece [] = q := List.append_nil q
    rw [hnil]
    exact ⟨fun _ => ⟨s, rfl, hfilled, rfl⟩, fun hlt => by omega⟩
  | cons c text ih =>
    by_cases hc : c = ' '
    · subst hc
      have hle := hfilled.length_le
      rw [firstPiece_blank, List.append_nil, copyFields, if_pos rfl, hcount]
      exact ⟨fun _ => ⟨_, rfl, hfilled, rfl⟩, fun hlt => by omega⟩
    · rw [firstPiece_cons hc, copyFields, if_neg hc, Copying.store, if_pos hhour, hptr]
      by_cases hroom : q.length < 4
      · obtain ⟨b, hb, hfilled'⟩ := hfilled.set hroom c
        rw [hb, Option.map_some, Option.bind_some]
        have hstep := ih (s := { s with buffhr := b, ptr := q.length + 1 }) hhour hcount hfilled'
          (by rw [List.length_append, List.length_singleton])
        rwa [List.append_assoc, List.singleton_append] at hstep
      · rw [set_eq_none (by omega), Option.map_none, Option.bind_none, List.length_append,
          List.length_cons]
        exact ⟨fun hle => by omega, fun _ => rfl⟩

/-- The characters of the minute, and then those of the hour. -/
lemma copyFields_minute (text : List Char) (hhour : s.atHour = false) (hcount : s.count = 0)
    (hfilled : s.buffmin.Filled q) (hptr : s.ptr = q.length) (hempty : s.buffhr.Filled []) :
    ((q ++ firstPiece text).length ≤ 4 ∧ (secondPiece text).length ≤ 4 →
        ∃ s', copyFields text s = some s' ∧ s'.buffmin.Filled (q ++ firstPiece text) ∧
          s'.buffhr.Filled (secondPiece text)) ∧
      (4 < (q ++ firstPiece text).length ∨ 4 < (secondPiece text).length →
        copyFields text s = none) := by
  induction text generalizing s q with
  | nil =>
    have hle := hfilled.length_le
    have hnil : q ++ firstPiece [] = q := List.append_nil q
    rw [hnil]
    refine ⟨fun _ => ⟨s, rfl, hfilled, hempty⟩, ?_⟩
    rintro (hlt | hlt)
    · omega
    · cases hlt
  | cons c text ih =>
    by_cases hc : c = ' '
    · subst hc
      have hle := hfilled.length_le
      rw [firstPiece_blank, secondPiece_blank, List.append_nil, copyFields, if_pos rfl, hcount,
        if_neg (by omega)]
      obtain ⟨hfit, hlong⟩ := copyFields_hour text (q := [])
        (s := { s with count := 0 + 1, atHour := true, ptr := 0 }) rfl rfl hempty rfl
      constructor
      · rintro ⟨-, hlen⟩
        obtain ⟨s', hs', hhr, hmin⟩ := hfit hlen
        exact ⟨s', hs', hmin ▸ hfilled, hhr⟩
      · rintro (hlt | hlt)
        · omega
        · exact hlong hlt
    · rw [firstPiece_cons hc, secondPiece_cons hc, copyFields, if_neg hc, Copying.store, hhour,
        if_neg Bool.false_ne_true, hptr]
      by_cases hroom : q.length < 4
      · obtain ⟨b, hb, hfilled'⟩ := hfilled.set hroom c
        rw [hb, Option.map_some, Option.bind_some]
        have hstep := ih (s := { s with buffmin := b, ptr := q.length + 1 }) hhour hcount hfilled'
          (by rw [List.length_append, List.length_singleton]) hempty
        rwa [List.append_assoc, List.singleton_append, hhour] at hstep
      · rw [set_eq_none (by omega), Option.map_none, Option.bind_none, List.length_append,
          List.length_cons]
        exact ⟨fun h => by omega, fun _ => rfl⟩

lemma readNumber_eq {b : CBuffer 4} (h : b.Filled q) (hq : nul ∉ q) :
    readNumber b = if q.length < 4 then some (atoi q) else none := by
  rw [readNumber, h.str_eq hq]
  exact if_congr (h.nul_mem_iff hq) rfl rfl

lemma notMem_firstPiece (h : nul ∉ text) : nul ∉ firstPiece text := fun hmem =>
  h ((List.takeWhile_prefix _).subset hmem)

lemma notMem_secondPiece (h : nul ∉ text) : nul ∉ secondPiece text := by
  refine notMem_firstPiece fun hmem => h ?_
  exact (List.dropWhile_suffix _).subset (List.mem_of_mem_tail hmem)

/-- Each array has room for three characters and a terminator. -/
def PiecesFit (text : List Char) : Prop :=
  (firstPiece text).length < 4 ∧ (secondPiece text).length < 4

instance (text : List Char) : Decidable (PiecesFit text) := by
  unfold PiecesFit; infer_instance

/-- What the file says is read off the first two pieces. -/
theorem dcmSettingSaveMaintenance_eq (htext : nul ∉ text) (timeZone : List Char) :
    dcmSettingSaveMaintenance true text timeZone =
      if PiecesFit text then
        some (0, some (maintenanceConf (atoi (secondPiece text)) (atoi (firstPiece text)) timeZone))
      else none := by
  have ha := notMem_firstPiece htext
  have hb := notMem_secondPiece htext
  obtain ⟨hfit, hlong⟩ := copyFields_minute text (s := .init) (q := []) rfl rfl
    (CBuffer.filled_fill 4) rfl (CBuffer.filled_fill 4)
  rw [List.nil_append] at hfit hlong
  rw [dcmSettingSaveMaintenance, if_neg (by simp)]
  by_cases hlen : (firstPiece text).length ≤ 4 ∧ (secondPiece text).length ≤ 4
  · obtain ⟨s, hs, hmin, hhr⟩ := hfit hlen
    rw [hs, Option.bind_eq_bind, Option.bind_some, readNumber_eq hmin ha, readNumber_eq hhr hb]
    by_cases h₁ : (firstPiece text).length < 4
    · by_cases h₂ : (secondPiece text).length < 4
      · rw [if_pos h₁, if_pos h₂, if_pos ⟨h₁, h₂⟩]
        rfl
      · rw [if_neg h₂, if_neg fun h : PiecesFit text => h₂ h.2]
        rfl
    · rw [if_neg h₁, if_neg fun h : PiecesFit text => h₁ h.1]
      split_ifs <;> rfl
  · have hnot : ¬PiecesFit text := fun h => hlen ⟨h.1.le, h.2.le⟩
    rw [hlong (by omega), if_neg hnot]
    rfl

end DcmAgent.Conf
