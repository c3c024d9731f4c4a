import Mathlib.Tactic
import DcmAgent.Backup.Enabled
import DcmAgent.Library.Regex

/-!
# The names of old log backups

`is_timestamped_backup` searches a name for a regular expression, which is not anchored at the start
of the name. Of the two endings that the comment above the expression lists, it knows one.
-/

namespace DcmAgent.Upload.OldBackups

open Library Regex RegularExpression
open Backup.Enabled (digit twoDigits hour12)

def digits : RegularExpression Char := many (oneOf "0123456789".toList)

def logbackup : List Char := "-logbackup".toList

/-- `[0-9]+-` and the rest. -/
def group (P : RegularExpression Char) : RegularExpression Char := digits * (char '-' * P)

/-- `[0-9]+-[0-9]+-[0-9]+-[0-9]+-[0-9]+[AP]M(-logbackup)?$`. -/
def pattern : RegularExpression Char :=
  group (group (group (group (digits *
    (oneOf "AP".toList * (char 'M' * optional (word logbackup)))))))

def isTimestampedBackup (filename : List Char) : Bool := search pattern filename

/-- What `reboot_setup` calls the directory of a backup: `%m-%d-%y-%I-%M%p-logbackup`. -/
def permTimestamp (now : ℤ) : List Char :=
  let tm := gmtime now
  twoDigits (tm.mon + 1) ++ '-' :: (twoDigits tm.mday ++ '-' :: (twoDigits (tm.year % 100) ++
    '-' :: (twoDigits (hour12 tm.hour) ++ '-' :: (twoDigits tm.min ++
      (if tm.hour < 12 then 'A' else 'P') :: 'M' :: logbackup))))

/-! ### Names with a timestamp -/

def IsDigits (x : List Char) : Prop := x ≠ [] ∧ ∀ c ∈ x, c ∈ "0123456789".toList

/-- Five groups of digits, and a half of the day. -/
def IsTimestamp (x : List Char) : Prop :=
  ∃ month day year hour minute half,
    IsDigits month ∧ IsDigits day ∧ IsDigits year ∧ IsDigits hour ∧ IsDigits minute ∧
      (half = 'A' ∨ half = 'P') ∧
      x = month ++ '-' :: (day ++ '-' :: (year ++ '-' :: (hour ++ '-' :: (minute ++ [half, 'M']))))

/-- The two forms that the source lists. -/
def IsBackupName (name : List Char) : Prop :=
  ∃ x, IsTimestamp x ∧ (name = x ++ ['-'] ∨ name = x ++ logbackup)

variable {x y name : List Char}

lemma mem_digits : x ∈ digits.matches' ↔ IsDigits x := mem_many_oneOf

lemma mem_group {P : RegularExpression Char} :
    x ∈ (group P).matches' ↔ ∃ g, IsDigits g ∧ ∃ y ∈ P.matches', x = g ++ '-' :: y := by
  rw [group, mem_mul]
  constructor
  · rintro ⟨g, hg, z, hz, rfl⟩
    obtain ⟨y, hy, rfl⟩ := mem_char_mul.mp hz
    exact ⟨g, mem_digits.mp hg, y, hy, rfl⟩
  · rintro ⟨g, hg, y, hy, rfl⟩
    exact ⟨g, mem_digits.mpr hg, _, mem_char_mul.mpr ⟨y, hy, rfl⟩, rfl⟩

lemma mem_half : x ∈ (oneOf "AP".toList).matches' ↔ ∃ c, (c = 'A' ∨ c = 'P') ∧ x = [c] := by
  rw [mem_oneOf]
  simp

lemma mem_pattern : y ∈ pattern.matches' ↔ ∃ x, IsTimestamp x ∧ (y = x ∨ y = x ++ logbackup) := by
  constructor
  · intro h
    obtain ⟨month, hmonth, _, h₁, rfl⟩ := mem_group.mp h
    obtain ⟨day, hday, _, h₂, rfl⟩ := mem_group.mp h₁
    obtain ⟨year, hyear, _, h₃, rfl⟩ := mem_group.mp h₂
    obtain ⟨hour, hhour, _, h₄, rfl⟩ := mem_group.mp h₃
    obtain ⟨minute, hminute, _, h₅, rfl⟩ := mem_mul.mp h₄
    obtain ⟨_, hhalf, _, h₆, rfl⟩ := mem_mul.mp h₅
    obtain ⟨half, hap, rfl⟩ := mem_half.mp hhalf
    obtain ⟨e, h₇, rfl⟩ := mem_char_mul.mp h₆
    refine ⟨_, ⟨month, day, year, hour, minute, half, hmonth, hday, hyear, hhour,
      mem_digits.mp hminute, hap, rfl⟩, ?_⟩
    rcases mem_optional.mp h₇ with rfl | hword
    · exact .inl (by simp)
    · rw [mem_word.mp hword]
      exact .inr (by simp)
  · rintro ⟨_, ⟨month, day, year, hour, minute, half, hmonth, hday, hyear, hhour, hminute, hhalf,
      rfl⟩, hy⟩
    obtain ⟨e, he, rfl⟩ : ∃ e ∈ (optional (word logbackup)).matches', y = month ++ '-' :: (day ++
        '-' :: (year ++ '-' :: (hour ++ '-' :: (minute ++ ([half] ++ 'M' :: e))))) := by
      rcases hy with rfl | rfl
      · exact ⟨[], mem_optional.mpr (.inl rfl), by simp⟩
      · exact ⟨logbackup, mem_optional.mpr (.inr (mem_word.mpr rfl)), by simp⟩
    refine mem_group.mpr ⟨month, hmonth, _, mem_group.mpr ⟨day, hday, _, mem_group.mpr ⟨year,
      hyear, _, mem_group.mpr ⟨hour, hhour, _, ?_, rfl⟩, rfl⟩, rfl⟩, rfl⟩
    exact mem_mul.mpr ⟨minute, mem_digits.mpr hminute, _, mem_mul.mpr ⟨[half],
      mem_half.mpr ⟨half, hhalf, rfl⟩, _, mem_char_mul.mpr ⟨e, he, rfl⟩, rfl⟩, rfl⟩

/-- What the code takes for the name of a backup. -/
lemma isTimestampedBackup_iff : isTimestampedBackup name ↔
    ∃ front x, IsTimestamp x ∧ (name = front ++ x ∨ name = front ++ (x ++ logbackup)) := by
  rw [isTimestampedBackup, search_iff]
  constructor
  · rintro ⟨front, y, hy, rfl⟩
    obtain ⟨x, hx, rfl | rfl⟩ := mem_pattern.mp hy
    · exact ⟨front, y, hx, .inl rfl⟩
    · exact ⟨front, x, hx, .inr rfl⟩
  · rintro ⟨front, x, hx, rfl | rfl⟩
    · exact ⟨front, x, mem_pattern.mpr ⟨x, hx, .inl rfl⟩, rfl⟩
    · exact ⟨front, _, mem_pattern.mpr ⟨x, hx, .inr rfl⟩, rfl⟩

lemma IsTimestamp.getLast? (hx : IsTimestamp x) : x.getLast? = some 'M' := by
  obtain ⟨month, day, year, hour, minute, half, -, -, -, -, -, -, rfl⟩ := hx
  simp [List.getLast?_cons, List.getLast?_append]

/-- The form that the expression does not know. -/
lemma not_isTimestampedBackup_dash (x : List Char) : ¬isTimestampedBackup (x ++ ['-']) := by
  rw [isTimestampedBackup_iff]
  rintro ⟨front, y, hy, h | h⟩
  · have hlast := congrArg List.getLast? h
    rw [List.getLast?_concat, List.getLast?_append, hy.getLast?] at hlast
    cases hlast
  · have hlast := congrArg List.getLast? h
    rw [List.getLast?_concat, List.getLast?_append, List.getLast?_append] at hlast
    cases hlast

lemma IsTimestamp.isTimestampedBackup (hx : IsTimestamp x) : isTimestampedBackup (x ++ logbackup) :=
  isTimestampedBackup_iff.mpr ⟨[], x, hx, .inr rfl⟩

/-- Where the expression and the comment agree. -/
lemma isBackupName_and_isTimestampedBackup_iff :
    IsBackupName name ∧ isTimestampedBackup name ↔ ∃ x, IsTimestamp x ∧ name = x ++ logbackup := by
  constructor
  · rintro ⟨⟨x, hx, rfl | rfl⟩, h⟩
    · exact absurd h (not_isTimestampedBackup_dash x)
    · exact ⟨x, hx, rfl⟩
  · rintro ⟨x, hx, rfl⟩
    exact ⟨⟨x, hx, .inr rfl⟩, hx.isTimestampedBackup⟩

/-! ### The names that `reboot_setup` gives -/

lemma isDigits_twoDigits {n : ℤ} (hn : n < 100) : IsDigits (twoDigits n) := by
  have hall : ∀ i < 10, Nat.digitChar i ∈ "0123456789".toList := by decide
  refine ⟨by simp [twoDigits], ?_⟩
  intro c hc
  rcases List.mem_cons.mp hc with rfl | hc
  · exact hall _ (by omega)
  · rw [List.mem_singleton.mp hc]
    exact hall _ (by omega)

lemma hour12_lt (hour : ℤ) : hour12 hour < 100 := by
  unfold hour12
  split_ifs <;> omega

/-- A backup of `reboot_setup` has the name of a backup, and the expression knows it. -/
theorem permTimestamp_eq (now : ℤ) : ∃ x, IsTimestamp x ∧ permTimestamp now = x ++ logbackup := by
  obtain ⟨-, hmin, -, hmday, hmon⟩ := gmtime_bounds now
  refine ⟨_, ⟨_, _, _, _, _, if (gmtime now).hour < 12 then 'A' else 'P',
    isDigits_twoDigits (n := (gmtime now).mon + 1) (by omega),
    isDigits_twoDigits (n := (gmtime now).mday) (by omega),
    isDigits_twoDigits (n := (gmtime now).year % 100) (by omega),
    isDigits_twoDigits (hour12_lt (gmtime now).hour),
    isDigits_twoDigits (n := (gmtime now).min) (by omega), ?_, rfl⟩, ?_⟩
  · split_ifs
    · exact .inl rfl
    · exact .inr rfl
  · simp [permTimestamp]

end DcmAgent.Upload.OldBackups
