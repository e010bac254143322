import RapidLog.Backend
import RapidLog.Lib.Int64

/-!
# Timestamps

`timestamp.rs` with the feature `tsc_clock`. A message carries the ticks of the time stamp counter,
and the worker turns them into nanoseconds since the epoch with a calibration that the first message
makes: the length of a tick, and an offset.

Integer arithmetic panics or wraps as the build profile says (`OnOverflow`); a division by zero
panics in every build.
-/

namespace RapidLog

structure TscCalibration where
  offsetNs : Int64
  periodPs : UInt64
  deriving DecidableEq, Repr

/-- What `calibrate_tsc` reads, in this order. -/
structure CalibrationReadings where
  tsc1 : UInt64
  wall1 : UInt64
  tsc2 : UInt64
  wall2 : UInt64
  deriving DecidableEq, Repr

def calibrateTsc (mode : OnOverflow) (r : CalibrationReadings) : Option TscCalibration :=
  -- `wrapping_sub`
  let tscDelta := r.tsc2 - r.tsc1
  -- `saturating_sub`
  let wallDelta := max (r.wall2.toNat - r.wall1.toNat) 1
  if tscDelta = 0 then none
  else do
    -- the products are of type `u128`, which they fit
    let periodPs := UInt64.ofNat (wallDelta * 1000 / tscDelta.toNat)
    let nsCorrection := Int64.ofNat (r.tsc1.toNat * periodPs.toNat / 1000)
    let offsetNs ← Int64.subWith mode (.ofNat r.wall1.toNat) nsCorrection
    return { offsetNs, periodPs }

/-- A call of `to_display_nanos`, and what it reads if it has to: the readings of a calibration, and
the system time. -/
structure DisplayCall where
  raw : UInt64
  readings : CalibrationReadings
  systemTimeNs : UInt64

/-- `to_display_nanos`. `cell` is `TSC_STATE`, and is returned as the call leaves it. -/
def toDisplayNanos (mode : OnOverflow) (cell : Option TscCalibration) (call : DisplayCall) :
    Option (UInt64 × Option TscCalibration) := do
  let cal ← cell.or (calibrateTsc mode call.readings)
  if cal.periodPs = 0 then return (call.systemTimeNs, some cal)
  let nsSinceCal := Int64.ofNat (call.raw.toNat * cal.periodPs.toNat / 1000)
  let displayNs ← Int64.addWith mode cal.offsetNs nsSinceCal
  return (displayNs.toUInt64, some cal)

example (mode : OnOverflow) :
    toDisplayNanos mode none ⟨3_000, ⟨1_000, 5_000_000, 4_000, 5_001_000⟩, 0⟩ =
      some (5_000_666, some ⟨4_999_667, 333⟩) := by
  cases mode <;> rfl

section Calibration

variable {mode : OnOverflow} {r : CalibrationReadings} {cal : TscCalibration}

/-- The nanoseconds that pass in `raw` ticks. -/
def TscCalibration.elapsedNs (cal : TscCalibration) (raw : UInt64) : ℕ :=
  raw.toNat * cal.periodPs.toNat / 1000

/-- The length of a tick that the readings give, as far as it fits in 64 bits. -/
def CalibrationReadings.periodPs (r : CalibrationReadings) : UInt64 :=
  .ofNat (max (r.wall2.toNat - r.wall1.toNat) 1 * 1000 / (r.tsc2 - r.tsc1).toNat)

/-- Calibration fails when the counter has not moved, or the offset overflows. -/
theorem calibrateTsc_eq_some_iff :
    calibrateTsc mode r = some cal ↔ r.tsc2 - r.tsc1 ≠ 0 ∧ cal.periodPs = r.periodPs ∧
      Int64.subWith mode (.ofNat r.wall1.toNat) (.ofNat (cal.elapsedNs r.tsc1)) =
        some cal.offsetNs := by
  by_cases hzero : r.tsc2 - r.tsc1 = 0
  · simp [calibrateTsc, hzero]
  · have hrun : calibrateTsc mode r =
        (Int64.subWith mode (.ofNat r.wall1.toNat)
          (.ofNat (r.tsc1.toNat * r.periodPs.toNat / 1000))).bind fun offsetNs =>
            some { offsetNs, periodPs := r.periodPs } :=
      if_neg hzero
    rw [hrun, Option.bind_eq_some_iff]
    constructor
    · rintro ⟨offsetNs, hsub, h⟩
      cases h
      exact ⟨hzero, rfl, hsub⟩
    · rintro ⟨-, hperiod, hsub⟩
      rw [TscCalibration.elapsedNs, hperiod] at hsub
      exact ⟨cal.offsetNs, hsub, by rw [← hperiod]⟩

/-- Once there is a calibration with a positive period, a call only adds. -/
theorem toDisplayNanos_of_pos (hperiod : 0 < cal.periodPs) (call : DisplayCall) :
    toDisplayNanos mode (some cal) call =
      (Int64.addWith mode cal.offsetNs (.ofNat (cal.elapsedNs call.raw))).map fun displayNs =>
        (displayNs.toUInt64, some cal) := by
  have hne : cal.periodPs ≠ 0 := UInt64.pos_iff_ne_zero.mp hperiod
  show (if cal.periodPs = 0 then _ else _) = _
  rw [if_neg hne, Option.map_eq_bind]
  rfl

/-- The call that calibrates goes on as if the calibration had been there. -/
theorem toDisplayNanos_none {call : DisplayCall} (h : calibrateTsc mode call.readings = some cal) :
    toDisplayNanos mode none call = toDisplayNanos mode (some cal) call := by
  unfold toDisplayNanos
  rw [Option.none_or, h]
  rfl

end Calibration

namespace CalibrationReadings

variable {r : CalibrationReadings} {raw : UInt64}

/-- The nanoseconds that `raw` ticks make, as far as they fit in 64 bits. -/
def elapsedNs (r : CalibrationReadings) (raw : UInt64) : ℕ :=
  raw.toNat * r.periodPs.toNat / 1000 % 2 ^ 64

/-- The wall clock less the time that the counter stands for, as far as it fits in 64 bits. -/
def offsetNs (r : CalibrationReadings) : ℕ :=
  (r.wall1.toNat + 2 ^ 64 - r.elapsedNs r.tsc1) % 2 ^ 64

/-- The counter moves between its readings, and no sum or difference crosses `2 ^ 63`: where the
wall clock and the time of the counter are on two sides of it they are at least `2 ^ 63` apart, and
the offset and the time since are no two numbers on the same side with a sum on the other. -/
structure Regular (r : CalibrationReadings) (raw : UInt64) : Prop where
  ticks : r.tsc1 ≠ r.tsc2
  wall_early : r.wall1.toNat < 2 ^ 63 → 2 ^ 63 ≤ r.elapsedNs r.tsc1 →
    r.wall1.toNat + 2 ^ 63 < r.elapsedNs r.tsc1
  wall_late : r.elapsedNs r.tsc1 < 2 ^ 63 → 2 ^ 63 ≤ r.wall1.toNat →
    r.elapsedNs r.tsc1 + 2 ^ 63 ≤ r.wall1.toNat
  sum_low : r.offsetNs < 2 ^ 63 → r.elapsedNs raw < 2 ^ 63 →
    r.offsetNs + r.elapsedNs raw < 2 ^ 63
  sum_high : 2 ^ 63 ≤ r.offsetNs → 2 ^ 63 ≤ r.elapsedNs raw →
    2 ^ 63 + 2 ^ 64 ≤ r.offsetNs + r.elapsedNs raw

end CalibrationReadings

section Failures

variable {r : CalibrationReadings} {cal : TscCalibration}

theorem elapsedNs_mod (h : cal.periodPs = r.periodPs) (raw : UInt64) :
    cal.elapsedNs raw % 2 ^ 64 = r.elapsedNs raw := by
  rw [TscCalibration.elapsedNs, h, CalibrationReadings.elapsedNs]

theorem calibrateTsc_isSome_iff :
    (calibrateTsc .panics r).isSome ↔ r.tsc1 ≠ r.tsc2 ∧
      Int64.InRange ((Int64.ofNat r.wall1.toNat).toInt -
        (Int64.ofNat (r.tsc1.toNat * r.periodPs.toNat / 1000)).toInt) := by
  have hticks : r.tsc2 - r.tsc1 ≠ 0 ↔ r.tsc1 ≠ r.tsc2 := by
    rw [Ne, UInt64.sub_eq_iff_eq_add, UInt64.zero_add, eq_comm]
  rw [Option.isSome_iff_exists]
  constructor
  · rintro ⟨cal, hcal⟩
    obtain ⟨hne, hperiod, hsub⟩ := calibrateTsc_eq_some_iff.mp hcal
    refine ⟨hticks.mp hne, ?_⟩
    rw [← hperiod]
    exact Int64.subWith_panics_isSome_iff.mp (Option.isSome_of_eq_some hsub)
  · rintro ⟨hne, hin⟩
    obtain ⟨offsetNs, hsub⟩ := Option.isSome_iff_exists.mp (Int64.subWith_panics_isSome_iff.mpr hin)
    exact ⟨⟨offsetNs, r.periodPs⟩, calibrateTsc_eq_some_iff.mpr ⟨hticks.mpr hne, rfl, hsub⟩⟩

theorem offsetNs_of_calibrateTsc {mode : OnOverflow} (h : calibrateTsc mode r = some cal) :
    cal.offsetNs = .ofNat r.offsetNs := by
  obtain ⟨-, hperiod, hsub⟩ := calibrateTsc_eq_some_iff.mp h
  rw [Int64.eq_sub_of_subWith hsub, Int64.ofNat_sub_ofNat, elapsedNs_mod hperiod,
    CalibrationReadings.offsetNs, Nat.mod_eq_of_lt r.wall1.toNat_lt]

theorem toDisplayNanos_some_isSome_iff (hcal : calibrateTsc .panics r = some cal)
    (call : DisplayCall) :
    (toDisplayNanos .panics (some cal) call).isSome ↔
      Int64.InRange ((Int64.ofNat r.offsetNs).toInt +
        (Int64.ofNat (r.elapsedNs call.raw)).toInt) := by
  obtain ⟨-, hperiod, -⟩ := calibrateTsc_eq_some_iff.mp hcal
  have hresidue : Int64.ofNat (cal.elapsedNs call.raw) = .ofNat (r.elapsedNs call.raw) := by
    rw [← elapsedNs_mod hperiod, Int64.ofNat_residue]
  by_cases hzero : cal.periodPs = 0
  · -- the system time is shown, and the sum would have been that with zero
    have hshown : toDisplayNanos .panics (some cal) call = some (call.systemTimeNs, some cal) :=
      if_pos hzero
    have helapsed : r.elapsedNs call.raw = 0 := by
      rw [CalibrationReadings.elapsedNs, ← hperiod, hzero, UInt64.toNat_zero, Nat.mul_zero,
        Nat.zero_div, Nat.zero_mod]
    rw [hshown, helapsed]
    refine iff_of_true rfl ?_
    rw [show (Int64.ofNat 0).toInt = 0 from rfl, add_zero]
    exact Int64.inRange_toInt _
  · rw [toDisplayNanos_of_pos (UInt64.pos_iff_ne_zero.mpr hzero), Option.isSome_map,
      Int64.addWith_panics_isSome_iff, offsetNs_of_calibrateTsc hcal, hresidue]

end Failures

/-- The first message is shown without a panic exactly when the counter has moved and no sum crosses
the limit of an `i64`. -/
theorem toDisplayNanos_isSome_iff (call : DisplayCall) :
    (toDisplayNanos .panics none call).isSome ↔ call.readings.Regular call.raw := by
  set r := call.readings with hr
  have hwall : r.wall1.toNat % 2 ^ 64 = r.wall1.toNat := Nat.mod_eq_of_lt r.wall1.toNat_lt
  have helapsed : r.tsc1.toNat * r.periodPs.toNat / 1000 % 2 ^ 64 = r.elapsedNs r.tsc1 := rfl
  have hoffset : r.offsetNs % 2 ^ 64 = r.offsetNs := Nat.mod_mod _ _
  have hraw : r.elapsedNs call.raw % 2 ^ 64 = r.elapsedNs call.raw := Nat.mod_mod _ _
  -- a panic is one of the calibration, or one of the sum after it
  have hsplit : (toDisplayNanos .panics none call).isSome ↔ (calibrateTsc .panics r).isSome ∧
      Int64.InRange ((Int64.ofNat r.offsetNs).toInt +
        (Int64.ofNat (r.elapsedNs call.raw)).toInt) := by
    cases hcal : calibrateTsc .panics r with
    | none =>
      have hnone : toDisplayNanos .panics none call = none := by
        rw [toDisplayNanos, Option.none_or, ← hr, hcal]
        rfl
      simp [hnone]
    | some cal => simp [toDisplayNanos_none hcal, toDisplayNanos_some_isSome_iff hcal call]
  rw [hsplit, calibrateTsc_isSome_iff, Int64.inRange_sub_ofNat_iff, Int64.inRange_add_ofNat_iff,
    hwall, helapsed, hoffset, hraw]
  constructor
  · rintro ⟨⟨hticks, hearly, hlate⟩, hlow, hhigh⟩
    exact ⟨hticks, hearly, hlate, hlow, hhigh⟩
  · intro h
    exact ⟨⟨h.ticks, h.wall_early, h.wall_late⟩, h.sum_low, h.sum_high⟩

/-- A counter that shows the same ticks twice makes the first message panic. -/
theorem toDisplayNanos_stopped :
    ¬ ∀ call : DisplayCall, (toDisplayNanos .panics none call).isSome := by
  intro h
  exact absurd (h ⟨0, ⟨0, 0, 0, 0⟩, 0⟩) (by decide)

end RapidLog
