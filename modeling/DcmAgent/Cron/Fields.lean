import Mathlib.Tactic
import DcmAgent.Cron.Accepted
import DcmAgent.Cron.Next

/-!
# Field operations on times

Between two operations the calendar is the broken-down form of a time. This file says what the
operations of the search do to that time: `resetTimes` for the resets, and `NextUnit` for the
search of a second, a minute or an hour.
-/

namespace DcmAgent.Cron

open Library

variable {t : ℤ} {rs : List Field}

/-- The value is in the bit set. -/
def InSet (bits : Bits) (v : ℤ) : Prop := dcmCronParseGetBit bits v.toNat = true

instance (bits : Bits) (v : ℤ) : Decidable (InSet bits v) := by
  unfold InSet; infer_instance

/-! ### Dates -/

/-- The years that the search from a date can cross are in the range of `tm_year`. -/
def InCalendar (date : ℤ) : Prop := (gmtime date).year + 10 < 2 ^ 31

instance (date : ℤ) : Decidable (InCalendar date) := by
  unfold InCalendar; infer_instance

lemma dcmCronParseTime_eq_some (h : (gmtime t).year < 2 ^ 31) :
    dcmCronParseTime t = some (gmtime t) := if_pos h

lemma dcmCronParseTime_eq_none (h : ¬(gmtime t).year < 2 ^ 31) : dcmCronParseTime t = none :=
  if_neg h

lemma InCalendar.time (h : InCalendar t) : dcmCronParseTime t = some (gmtime t) := by
  unfold InCalendar at h
  exact dcmCronParseTime_eq_some (by omega)

/-! ### Resets -/

/-- The fields that the search resets. -/
def Field.IsLow : Field → Prop
  | .second | .minute | .hourOfDay | .dayOfMonth => True
  | _ => False

/-- The time with a field at its minimum. -/
def resetTime (t : ℤ) : Field → ℤ
  | .second => t - t % 60
  | .minute => t - 60 * (t / 60 % 60)
  | .hourOfDay => t - 3600 * (t / 3600 % 24)
  | .dayOfMonth => t - 86400 * (mdayOf (t / 86400) - 1)
  | _ => t

/-- The time after the resets, in order. -/
def resetTimes (t : ℤ) (rs : List Field) : ℤ := rs.foldl resetTime t

lemma normalize_eq (calendar : Tm) :
    normalize calendar = (decide (timegm calendar ≠ -1), gmtime (timegm calendar)) := rfl

lemma timegm_putField_second (t v : ℤ) :
    timegm (putField (gmtime t) .second v) = t + 1 * (v - t / 1 % 60) := by
  have h := timegm_gmtime t
  simp only [timegm, gmtime, putField] at h ⊢
  omega

lemma timegm_putField_minute (t v : ℤ) :
    timegm (putField (gmtime t) .minute v) = t + 60 * (v - t / 60 % 60) := by
  have h := timegm_gmtime t
  simp only [timegm, gmtime, putField] at h ⊢
  omega

lemma timegm_putField_hour (t v : ℤ) :
    timegm (putField (gmtime t) .hourOfDay v) = t + 3600 * (v - t / 3600 % 24) := by
  have h := timegm_gmtime t
  simp only [timegm, gmtime, putField] at h ⊢
  omega

lemma timegm_putField_mday (t v : ℤ) :
    timegm (putField (gmtime t) .dayOfMonth v) = t + 86400 * (v - mdayOf (t / 86400)) := by
  have h := timegm_gmtime t
  simp only [timegm, gmtime, putField] at h ⊢
  omega

lemma dcmCronParseResetMin_eq {f : Field} (hf : f.IsLow) (t : ℤ) :
    dcmCronParseResetMin (gmtime t) f =
      (decide (resetTime t f ≠ -1), gmtime (resetTime t f)) := by
  have h : timegm (putField (gmtime t) f (if f = .dayOfMonth then 1 else 0)) = resetTime t f := by
    cases f <;> simp only [Field.IsLow] at hf
    · simp only [reduceCtorEq, if_false, timegm_putField_second, resetTime]
      omega
    · simp only [reduceCtorEq, if_false, timegm_putField_minute, resetTime]
      omega
    · simp only [reduceCtorEq, if_false, timegm_putField_hour, resetTime]
      omega
    · simp only [if_true, timegm_putField_mday, resetTime]
      omega
  rw [dcmCronParseResetMin, normalize_eq, h]

/-- The parts of a time, and its day, after some fields have been reset. -/
structure ResetSpec (rs : List Field) (t r : ℤ) : Prop where
  sec : r % 60 = if Field.second ∈ rs then 0 else t % 60
  min : r / 60 % 60 = if Field.minute ∈ rs then 0 else t / 60 % 60
  hour : r / 3600 % 24 = if Field.hourOfDay ∈ rs then 0 else t / 3600 % 24
  day : r / 86400 =
    if Field.dayOfMonth ∈ rs then monthStart (monthOf (t / 86400)) else t / 86400

lemma resetSpec_resetTime {f : Field} (hf : f.IsLow) (t : ℤ) :
    ResetSpec [f] t (resetTime t f) := by
  cases f <;> simp only [Field.IsLow] at hf
  · constructor <;> simp [resetTime] <;> omega
  · constructor <;> simp [resetTime] <;> omega
  · constructor <;> simp [resetTime] <;> omega
  · constructor <;> simp [resetTime, mdayOf] <;> omega

lemma resetSpec_resetTimes (hrs : ∀ f ∈ rs, f.IsLow) (t : ℤ) :
    ResetSpec rs t (resetTimes t rs) := by
  induction rs generalizing t with
  | nil => constructor <;> simp [resetTimes]
  | cons f rs ih =>
    have h₁ := resetSpec_resetTime (hrs f List.mem_cons_self) t
    have h₂ := ih (fun g hg => hrs g (List.mem_cons_of_mem _ hg)) (resetTime t f)
    change ResetSpec (f :: rs) t (resetTimes (resetTime t f) rs)
    refine ⟨?_, ?_, ?_, ?_⟩
    · rw [h₂.sec, h₁.sec]
      by_cases h : Field.second = f <;> simp [h]
    · rw [h₂.min, h₁.min]
      by_cases h : Field.minute = f <;> simp [h]
    · rw [h₂.hour, h₁.hour]
      by_cases h : Field.hourOfDay = f <;> simp [h]
    · rw [h₂.day, h₁.day]
      by_cases h : Field.dayOfMonth = f <;> simp [h]

lemma monthStart_monthOf_nonneg {z : ℤ} (hz : 0 ≤ z) : 0 ≤ monthStart (monthOf z) := by
  have h := monthStart_strictMono.monotone (monthOf_mono hz)
  have h0 : monthStart (monthOf 0) = 0 := by decide
  omega

lemma ResetSpec.nonneg {r : ℤ} (h : ResetSpec rs t r) (ht : 0 ≤ t) : 0 ≤ r := by
  have hday : 0 ≤ r / 86400 := by
    rw [h.day]
    split_ifs
    · exact monthStart_monthOf_nonneg (by omega)
    · omega
  omega

lemma dcmCronParseResetAllMin_eq (hrs : ∀ f ∈ rs, f.IsLow) {t : ℤ} (ht : 0 ≤ t) :
    dcmCronParseResetAllMin (gmtime t) rs = (true, gmtime (resetTimes t rs)) := by
  induction rs generalizing t with
  | nil => rfl
  | cons f rs ih =>
    have hf := hrs f List.mem_cons_self
    have h0 := (resetSpec_resetTime hf t).nonneg ht
    have hne : decide (resetTime t f ≠ -1) = true := decide_eq_true (by omega)
    rw [dcmCronParseResetAllMin, dcmCronParseResetMin_eq hf, hne]
    exact ih (fun g hg => hrs g (List.mem_cons_of_mem _ hg)) h0

/-- The resets that are made without an error. -/
lemma checked_dcmCronParseResetAllMin (hrs : ∀ f ∈ rs, f.IsLow) {t : ℤ} {cal : Tm}
    (h : checked (dcmCronParseResetAllMin (gmtime t) rs) = some cal) :
    cal = gmtime (resetTimes t rs) := by
  induction rs generalizing t with
  | nil => exact (Option.some.inj h).symm
  | cons f rs ih =>
    rw [dcmCronParseResetAllMin, dcmCronParseResetMin_eq (hrs f List.mem_cons_self)] at h
    by_cases hne : resetTime t f ≠ -1
    · rw [decide_eq_true hne] at h
      exact ih (fun g hg => hrs g (List.mem_cons_of_mem _ hg)) h
    · rw [decide_eq_false hne] at h
      cases h

/-! ### Seconds, minutes and hours -/

/-- The first unit from `q` on whose number is in the set, counting the units through. -/
structure NextUnit (bits : Bits) (n q w : ℤ) : Prop where
  le : q ≤ w
  lt : w < q + n
  mem : InSet bits (w % n)
  skip : ∀ x, q ≤ x → x < w → ¬InSet bits (x % n)

/-- The number of a unit determines it among `n` units. -/
lemma NextUnit.toNat_eq_iff {bits : Bits} {n q w : ℤ} (h : NextUnit bits n q w) :
    (q % n).toNat = (w % n).toNat ↔ w = q := by
  have hle := h.le
  have hlt := h.lt
  have h₁ := Int.emod_nonneg q (show n ≠ 0 by omega)
  have h₂ := Int.emod_nonneg w (show n ≠ 0 by omega)
  constructor
  · intro heq
    have hmod : q ≡ w [ZMOD n] := by
      unfold Int.ModEq
      omega
    have := Int.eq_zero_of_dvd_of_nonneg_of_lt (by omega) (by omega) hmod.dvd
    omega
  · rintro rfl
    rfl

/-- A field that counts units of `u` seconds up to `n`, together with the field above it. -/
structure UnitField (f nf : Field) (u : ℤ) (n : ℕ) : Prop where
  u_pos : 0 < u
  n_pos : 0 < n
  isLow : f.IsLow
  put : ∀ t v, timegm (putField (gmtime t) f v) = t + u * (v - t / u % n)
  add : ∀ t, dcmCronParseAddToField (gmtime t) nf 1 =
    (decide (t + u * n ≠ -1), gmtime (t + u * n))
  reset : ∀ t, resetTime t f = t - u * (t / u % n)

lemma unitField_second : UnitField .second .minute 1 60 where
  u_pos := by norm_num
  n_pos := by norm_num
  isLow := trivial
  put := timegm_putField_second
  add t := by
    have h : timegm { gmtime t with min := (gmtime t).min + 1 } = t + 1 * (60 : ℕ) := by
      have h := timegm_gmtime t
      simp only [timegm, gmtime] at h ⊢
      omega
    rw [dcmCronParseAddToField, normalize_eq, h]
  reset t := by
    simp only [resetTime]
    omega

lemma unitField_minute : UnitField .minute .hourOfDay 60 60 where
  u_pos := by norm_num
  n_pos := by norm_num
  isLow := trivial
  put := timegm_putField_minute
  add t := by
    have h : timegm { gmtime t with hour := (gmtime t).hour + 1 } = t + 60 * (60 : ℕ) := by
      have h := timegm_gmtime t
      simp only [timegm, gmtime] at h ⊢
      omega
    rw [dcmCronParseAddToField, normalize_eq, h]
  reset _ := rfl

lemma dcmCronParseAddToField_second (t : ℤ) :
    dcmCronParseAddToField (gmtime t) .second 1 = (decide (t + 1 ≠ -1), gmtime (t + 1)) := by
  have hsec : timegm { gmtime t with sec := (gmtime t).sec + 1 } = t + 1 := by
    have h := timegm_gmtime t
    simp only [timegm] at h ⊢
    omega
  rw [dcmCronParseAddToField, normalize_eq, hsec]

lemma dcmCronParseAddToField_day (t : ℤ) :
    normalize { gmtime t with mday := (gmtime t).mday + 1 } =
      (decide (t + 86400 ≠ -1), gmtime (t + 86400)) := by
  have h : timegm { gmtime t with mday := (gmtime t).mday + 1 } = t + 86400 := by
    have h := timegm_gmtime t
    simp only [timegm, gmtime] at h ⊢
    omega
  rw [normalize_eq, h]

lemma unitField_hour : UnitField .hourOfDay .dayOfWeek 3600 24 where
  u_pos := by norm_num
  n_pos := by norm_num
  isLow := trivial
  put := timegm_putField_hour
  add t := dcmCronParseAddToField_day t
  reset _ := rfl

lemma checked_eq_some {b : Bool} {c c' : Tm} (h : checked (b, c) = some c') :
    b = true ∧ c' = c := by
  unfold checked at h
  split_ifs at h with hb
  exact ⟨hb, (Option.some.inj h).symm⟩

lemma nextSetBit_eq_some {bits : Bits} {max v w : ℕ}
    (h : dcmCronParseNextSetBit bits max v = some w) :
    v ≤ w ∧ w < max ∧ dcmCronParseGetBit bits w = true ∧
      ∀ x, v ≤ x → x < w → dcmCronParseGetBit bits x = false := by
  obtain ⟨hbit, hmem, hskip⟩ := List.find?_range'_eq_some.mp h
  rw [List.mem_range'_1] at hmem
  exact ⟨hmem.1, by omega, hbit, fun x hv hx => by simpa using hskip x hv hx⟩

lemma nextSetBit_eq_none {bits : Bits} {max v : ℕ}
    (h : dcmCronParseNextSetBit bits max v = none) {x : ℕ} (hv : v ≤ x) (hx : x < max) :
    dcmCronParseGetBit bits x = false := by
  rw [dcmCronParseNextSetBit, List.find?_eq_none] at h
  have := h x (by rw [List.mem_range'_1]; omega)
  simpa using this

/-! The unit `q` has the number `v`, so the unit `q - v + x` has the number `x % n`. -/

section Place

variable {bits : Bits} {n v : ℕ} {q : ℤ} (hv : q % n = v)

include hv

lemma place_emod (x : ℤ) : (q - v + x) % n = x % n := by
  obtain ⟨k, hk⟩ : ∃ k, q - v = n * k := ⟨q / n, by
    have := Int.emod_add_mul_ediv q n
    omega⟩
  rw [hk, Int.add_comm, Int.add_mul_emod_self_left]

lemma place_toNat {x : ℕ} (hx : x < n) : ((q - v + x) % n).toNat = x := by
  rw [place_emod hv, Int.emod_eq_of_lt (by omega) (by omega), Int.toNat_natCast]

lemma place_wrap_emod (x : ℤ) : (q - v + (n + x)) % n = x % n := by
  rw [place_emod hv, Int.add_comm, Int.add_emod_right]

lemma place_wrap_toNat {x : ℕ} (hx : x < n) : ((q - v + (n + x)) % n).toNat = x := by
  rw [place_wrap_emod hv, Int.emod_eq_of_lt (by omega) (by omega), Int.toNat_natCast]

/-- The unit that the first search finds. -/
lemma nextUnit_of_found {next : ℕ} (h : dcmCronParseNextSetBit bits n v = some next) :
    NextUnit bits n q (q - v + next) := by
  obtain ⟨hle, hlt, hbit, hskip⟩ := nextSetBit_eq_some h
  refine ⟨by omega, by omega, ?_, fun x hx hxw => ?_⟩
  · rw [InSet, place_toNat hv hlt]
    exact hbit
  · obtain ⟨y, rfl⟩ : ∃ y : ℕ, x = q - v + y := ⟨(x - (q - v)).toNat, by omega⟩
    rw [InSet, place_toNat hv (by omega), hskip y (by omega) (by omega)]
    exact Bool.false_ne_true

/-- The unit that the second search finds, after the roll-over. -/
lemma nextUnit_of_wrapped {next : ℕ} (hnone : dcmCronParseNextSetBit bits n v = none)
    (h : dcmCronParseNextSetBit bits n 0 = some next) :
    next < v ∧ NextUnit bits n q (q - v + (n + next)) := by
  obtain ⟨-, hlt, hbit, hskip⟩ := nextSetBit_eq_some h
  have hnext : next < v := by
    by_contra hge
    rw [nextSetBit_eq_none hnone (by omega) hlt] at hbit
    cases hbit
  have hvn : (v : ℤ) < n := hv ▸ Int.emod_lt_of_pos q (by omega)
  refine ⟨hnext, by omega, by omega, ?_, fun x hx hxw => ?_⟩
  · rw [InSet, place_wrap_toNat hv hlt]
    exact hbit
  · obtain ⟨y, rfl⟩ : ∃ y : ℕ, x = q - v + y := ⟨(x - (q - v)).toNat, by omega⟩
    by_cases hy : y < n
    · rw [InSet, place_toNat hv hy, nextSetBit_eq_none hnone (by omega) hy]
      exact Bool.false_ne_true
    · obtain ⟨z, rfl⟩ : ∃ z : ℕ, y = n + z := ⟨y - n, by omega⟩
      rw [InSet, Nat.cast_add, place_wrap_toNat hv (by omega),
        hskip z (by omega) (by omega)]
      exact Bool.false_ne_true

end Place

/-- In a set that is not empty the second search finds a bit. -/
lemma exists_nextSetBit_zero {bits : Bits} {n : ℕ} (hbits : HasBit bits 0 n) :
    ∃ next, dcmCronParseNextSetBit bits n 0 = some next := by
  obtain ⟨i, -, hi, hbit⟩ := hbits
  cases h : dcmCronParseNextSetBit bits n 0 with
  | some next => exact ⟨next, rfl⟩
  | none =>
    rw [nextSetBit_eq_none h (Nat.zero_le i) hi] at hbit
    cases hbit

lemma exists_nextUnit {bits : Bits} {n : ℕ} (hn : 0 < n) (hbits : HasBit bits 0 n) (q : ℤ) :
    ∃ w, NextUnit bits n q w := by
  have hpos : 0 ≤ q % n := Int.emod_nonneg q (by omega)
  obtain ⟨v, hv⟩ : ∃ v : ℕ, q % n = v := ⟨(q % n).toNat, by omega⟩
  cases hfirst : dcmCronParseNextSetBit bits n v with
  | some next => exact ⟨_, nextUnit_of_found hv hfirst⟩
  | none =>
    obtain ⟨next, hnext⟩ := exists_nextSetBit_zero hbits
    exact ⟨_, (nextUnit_of_wrapped hv hfirst hnext).2⟩

lemma NextUnit.unique {bits : Bits} {n q w w' : ℤ} (h : NextUnit bits n q w)
    (h' : NextUnit bits n q w') : w = w' := by
  by_contra hne
  rcases lt_or_gt_of_ne hne with hlt | hlt
  · exact h'.skip w h.le hlt h.mem
  · exact h.skip w' h'.le hlt h'.mem

lemma moveField_unit {f nf : Field} {u : ℤ} {n : ℕ} (hU : UnitField f nf u n)
    (hrs : ∀ f ∈ rs, f.IsLow) {val : ℕ} {cal : Tm}
    (h : moveField (gmtime t) f val rs = some cal) :
    cal = gmtime (resetTimes (t + u * (val - t / u % n)) rs) := by
  obtain ⟨c, hc, hcal⟩ := Option.bind_eq_some_iff.mp h
  rw [dcmCronParseSetField, normalize_eq, hU.put] at hc
  obtain ⟨-, rfl⟩ := checked_eq_some hc
  exact checked_dcmCronParseResetAllMin hrs hcal

/-- The search of a second, a minute or an hour. -/
theorem dcmCronParseFindNext_unit {f nf : Field} {u : ℤ} {n : ℕ} (hU : UnitField f nf u n)
    {bits : Bits} (hbits : HasBit bits 0 n) (hrs : ∀ f ∈ rs, f.IsLow) {next : ℕ} {cal : Tm}
    (h : dcmCronParseFindNext bits n (t / u % n).toNat (gmtime t) f nf rs = some (next, cal)) :
    ∃ w, NextUnit bits n (t / u) w ∧ next = (w % n).toNat ∧
      cal = gmtime (if w = t / u then t else resetTimes (t + u * (w - t / u)) rs) := by
  have hn : (0 : ℤ) < n := by exact_mod_cast hU.n_pos
  have hv0 : 0 ≤ t / u % n := Int.emod_nonneg _ (by omega)
  have hvn : t / u % n < n := Int.emod_lt_of_pos _ hn
  obtain ⟨v, hv⟩ : ∃ v : ℕ, t / u % n = v := ⟨(t / u % n).toNat, by omega⟩
  rw [hv, Int.toNat_natCast, dcmCronParseFindNext] at h
  split at h
  · rename_i next' hfound
    obtain ⟨hle, hlt, -, -⟩ := nextSetBit_eq_some hfound
    refine ⟨_, nextUnit_of_found hv hfound, ?_⟩
    rw [place_toNat hv hlt]
    split_ifs at h with hne
    · obtain ⟨c, hc, heq⟩ := Option.map_eq_some_iff.mp h
      obtain ⟨rfl, rfl⟩ := Prod.mk.inj heq
      have hshift : t + u * (t / u - v + next' - t / u) = t + u * (next' - t / u % n) := by
        rw [hv]
        ring
      rw [if_neg (by omega), hshift]
      exact ⟨rfl, moveField_unit hU hrs hc⟩
    · obtain ⟨rfl, rfl⟩ := Prod.mk.inj (Option.some.inj h)
      rw [if_pos (by omega)]
      exact ⟨rfl, rfl⟩
  · -- the roll-over: the unit is advanced by `n` and set to zero before the second search
    rename_i hnone
    obtain ⟨next', hfound⟩ := exists_nextSetBit_zero hbits
    obtain ⟨-, hlt, -, -⟩ := nextSetBit_eq_some hfound
    obtain ⟨hnext, hunit⟩ := nextUnit_of_wrapped hv hnone hfound
    have hadd : ∀ x : ℤ, (t + u * x) / u = t / u + x := fun x =>
      Int.add_mul_ediv_left t x hU.u_pos.ne'
    obtain ⟨c₁, h₁, h⟩ := Option.bind_eq_some_iff.mp h
    rw [hU.add] at h₁
    obtain ⟨-, rfl⟩ := checked_eq_some h₁
    obtain ⟨c₂, h₂, h⟩ := Option.bind_eq_some_iff.mp h
    have hreset : resetTime (t + u * n) f = t + u * (n - v) := by
      rw [hU.reset, hadd, Int.add_emod_right, hv]
      ring
    rw [dcmCronParseResetMin_eq hU.isLow, hreset] at h₂
    obtain ⟨-, rfl⟩ := checked_eq_some h₂
    simp only [hfound, ne_eq, (show next' ≠ v by omega), not_false_eq_true, if_true] at h
    obtain ⟨c, hc, heq⟩ := Option.map_eq_some_iff.mp h
    obtain ⟨rfl, rfl⟩ := Prod.mk.inj heq
    have hzero : (t + u * (n - v)) / u % n = 0 := by
      rw [hadd, show t / u + ((n : ℤ) - v) = t / u - v + (n + 0) by ring, place_wrap_emod hv,
        Int.zero_emod]
    have hshift : t + u * (t / u - v + (n + next') - t / u) =
        t + u * (n - v) + u * (next' - (t + u * (n - v)) / u % n) := by
      rw [hzero]
      ring
    refine ⟨_, hunit, (place_wrap_toNat hv hlt).symm, ?_⟩
    rw [if_neg (by omega), hshift]
    exact moveField_unit hU hrs hc

end DcmAgent.Cron
