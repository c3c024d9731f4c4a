import Mathlib.Tactic
import DcmAgent.Library.Calendar

/-!
# Days of the week in a year

From March to the August of the next year, the months of 31 days start on every day of the week.
So any two years in a row have every day of the month on every day of the week.
-/

namespace DcmAgent.Library

/-- The months from March to February follow in a fixed distance. -/
lemma monthStart_march {m : ℤ} (h₀ : 0 ≤ m) (h₁ : m < 12) (y : ℤ) :
    monthStart (12 * y + 2 + m) = monthStart (12 * y + 2) + (153 * m + 2) / 5 := by
  simp only [monthStart]
  rw [show (12 * y + 2 + m - 2) / 12 = y by omega, show (12 * y + 2 + m - 2) % 12 = m by omega,
    show (12 * y + 2 - 2) / 12 = y by omega, show (12 * y + 2 - 2) % 12 = 0 by omega]
  omega

lemma monthStart_next_march (y : ℤ) :
    monthStart (12 * (y + 1) + 2) = monthStart (12 * y + 2) + 365 ∨
      monthStart (12 * (y + 1) + 2) = monthStart (12 * y + 2) + 366 := by
  have hleap := leapDays_succ y
  simp only [monthStart]
  rw [show (12 * (y + 1) + 2 - 2) / 12 = y + 1 by omega,
    show (12 * (y + 1) + 2 - 2) % 12 = 0 by omega, show (12 * y + 2 - 2) / 12 = y by omega,
    show (12 * y + 2 - 2) % 12 = 0 by omega]
  omega

/-- A month of 31 days that starts on a given day of the week. -/
structure LongMonth (y r k : ℤ) : Prop where
  lo : 12 * y ≤ k
  hi : k < 12 * (y + 2)
  len : monthStart (k + 1) = monthStart k + 31
  start : monthStart k % 7 = r

lemma longMonth_march {y m r : ℤ} (h₀ : 0 ≤ m) (h₁ : m < 11)
    (hlen : (153 * (m + 1) + 2) / 5 = (153 * m + 2) / 5 + 31)
    (hr : (monthStart (12 * y + 2) + (153 * m + 2) / 5) % 7 = r) :
    LongMonth y r (12 * y + 2 + m) := by
  refine ⟨by omega, by omega, ?_, ?_⟩
  · rw [add_assoc, monthStart_march (by omega) (by omega), monthStart_march h₀ (by omega), hlen]
    ring
  · rw [monthStart_march h₀ (by omega), hr]

/-- The same, with the month counted from the second March. -/
lemma longMonth_next_march {y m r : ℤ} (h₀ : 0 ≤ m) (h₁ : m < 10)
    (hlen : (153 * (m + 1) + 2) / 5 = (153 * m + 2) / 5 + 31)
    (hr : (monthStart (12 * (y + 1) + 2) + (153 * m + 2) / 5) % 7 = r) :
    LongMonth y r (12 * (y + 1) + 2 + m) := by
  obtain ⟨-, -, hlen', hstart⟩ := longMonth_march h₀ (by omega) hlen hr
  exact ⟨by omega, by omega, hlen', hstart⟩

theorem exists_longMonth (y : ℤ) {r : ℤ} (h₀ : 0 ≤ r) (h₇ : r < 7) : ∃ k, LongMonth y r k := by
  obtain ⟨s, hs⟩ : ∃ s, monthStart (12 * y + 2) = s := ⟨_, rfl⟩
  have hcases : (r - s) % 7 = 0 ∨ (r - s) % 7 = 1 ∨ (r - s) % 7 = 2 ∨ (r - s) % 7 = 3 ∨
      (r - s) % 7 = 4 ∨ (r - s) % 7 = 5 ∨ (r - s) % 7 = 6 := by omega
  -- the next year is needed for one day of the week only
  rcases hcases with h | h | h | h | h | h | h
  · exact ⟨_, longMonth_march (m := 0) (by omega) (by omega) (by omega) (by omega)⟩
  · rcases monthStart_next_march y with hnext | hnext
    · exact ⟨_, longMonth_next_march (m := 0) (by omega) (by omega) (by omega) (by omega)⟩
    · exact ⟨_, longMonth_next_march (m := 5) (by omega) (by omega) (by omega) (by omega)⟩
  · exact ⟨_, longMonth_march (m := 9) (by omega) (by omega) (by omega) (by omega)⟩
  · exact ⟨_, longMonth_march (m := 4) (by omega) (by omega) (by omega) (by omega)⟩
  · exact ⟨_, longMonth_march (m := 7) (by omega) (by omega) (by omega) (by omega)⟩
  · exact ⟨_, longMonth_march (m := 2) (by omega) (by omega) (by omega) (by omega)⟩
  · exact ⟨_, longMonth_march (m := 5) (by omega) (by omega) (by omega) (by omega)⟩

/-- Every day of the month falls on every day of the week within two years. -/
theorem exists_mday_wday (y : ℤ) {d w : ℤ} (hd₁ : 1 ≤ d) (hd₃₁ : d ≤ 31) (hw₀ : 0 ≤ w)
    (hw₇ : w < 7) :
    ∃ z, 12 * y ≤ monthOf z ∧ monthOf z < 12 * (y + 2) ∧ mdayOf z = d ∧ wdayOf z = w := by
  obtain ⟨k, hlo, hhi, hlen, hstart⟩ :=
    exists_longMonth y (r := (w - (d - 1) - 4) % 7) (by omega) (by omega)
  have hmonth : monthOf (monthStart k + (d - 1)) = k := by
    rw [monthOf_mday hd₁ hd₃₁, if_pos (by omega)]
  refine ⟨monthStart k + (d - 1), by omega, by omega, ?_, ?_⟩
  · rw [mdayOf, hmonth]
    ring
  · rw [wdayOf]
    omega

end DcmAgent.Library
