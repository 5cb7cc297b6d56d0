import Netfilum.Client.Convert

namespace Netfilum

open Rust

/-!
# Times in ticks

Windows counts a time in ticks of 100 nanoseconds from the start of 1601, in 64 bits; the
wire has signed seconds from the Unix epoch and nanoseconds.

* `exactTicks` — the number of ticks of a time on the wire, with no limit.
* `windowsTime_saturates` — the conversion to ticks gives this number, moved to the nearest
  end where it does not fit; `windowsTime_overflow` — or it panics.
* `windowsTime_of_wireTime`, `wireTime_of_windowsTime` — each conversion undoes the other.
* `times_inverse_monotone` — both, and that later times have more ticks.
-/

/-- The ticks from the start of 1601 to a time, with no limit. -/
def exactTicks (value : FileTimeValue) : Int :=
  (value.secs.toInt + windowsEpochOffsetSecs.toInt) * windowsTicksPerSecond.toNat
    + (value.nanos.toNat / 100 : Nat)

/-- The epoch shift stays in `i64`; below it always does. -/
def ShiftFits (value : FileTimeValue) : Prop :=
  value.secs.toInt + windowsEpochOffsetSecs.toInt < 2 ^ 63

instance (value : FileTimeValue) : Decidable (ShiftFits value) :=
  inferInstanceAs (Decidable (_ < _))

/-- Whether a time argument asks for anything to be set. -/
def Requested (time : UInt64) : Prop := time ≠ 0 ∧ time ≠ UInt64.ofNat (2 ^ 64 - 1)

instance (time : UInt64) : Decidable (Requested time) := inferInstanceAs (Decidable (_ ∧ _))

/-- The seconds from 1601 to 1970. -/
theorem toInt_windowsEpochOffsetSecs : windowsEpochOffsetSecs.toInt = 11644473600 := by decide

/-- The ticks of a second. -/
theorem toNat_windowsTicksPerSecond : windowsTicksPerSecond.toNat = 10000000 := by decide

/-- The exact number of ticks. -/
theorem exactTicks_eq (value : FileTimeValue) :
    exactTicks value
      = (value.secs.toInt + 11644473600) * 10000000 + (value.nanos.toNat / 100 : Nat) := by
  unfold exactTicks
  rw [toInt_windowsEpochOffsetSecs, toNat_windowsTicksPerSecond]
  rfl

/-- The seconds can be shifted where the sum is in range. -/
theorem shiftFits_iff (value : FileTimeValue) :
    ShiftFits value ↔ value.secs.toInt + 11644473600 < 2 ^ 63 := by
  unfold ShiftFits
  rw [toInt_windowsEpochOffsetSecs]

/-! ### To ticks -/

/-- A time before 1601 has a negative sum. -/
theorem before_1601_iff (value : FileTimeValue) :
    value.secs < -windowsEpochOffsetSecs ↔ value.secs.toInt + 11644473600 < 0 := by
  have hneg : (-windowsEpochOffsetSecs).toInt = -11644473600 := by decide
  rw [Int64.lt_iff_toInt_lt, hneg]
  omega

/-- Before 1601 there are no ticks. -/
theorem windowsTime_early {value : FileTimeValue} (h : value.secs.toInt + 11644473600 < 0) :
    windowsTimeFromWire (some value) = .ok 0 := if_pos ((before_1601_iff value).mpr h)

/-- From 1601 on the shift is a checked addition. -/
theorem windowsTime_late {value : FileTimeValue} (h : 0 ≤ value.secs.toInt + 11644473600) :
    windowsTimeFromWire (some value) = (addChecked value.secs windowsEpochOffsetSecs).map
      fun sum => saturatingAdd (saturatingMul sum.toUInt64 windowsTicksPerSecond)
        (value.nanos.toUInt64 / 100) := by
  have hafter : ¬ value.secs < -windowsEpochOffsetSecs := by
    rw [before_1601_iff]
    omega
  unfold windowsTimeFromWire
  dsimp only
  rw [if_neg hafter]
  cases addChecked value.secs windowsEpochOffsetSecs <;> rfl

/-- **The shift panics** where it does not fit. -/
theorem windowsTime_overflow {value : FileTimeValue} (h : ¬ ShiftFits value) :
    windowsTimeFromWire (some value) = .error "attempt to add with overflow" := by
  have hover : ¬ (-2 ^ 63 ≤ value.secs.toInt + windowsEpochOffsetSecs.toInt ∧
      value.secs.toInt + windowsEpochOffsetSecs.toInt < 2 ^ 63) := fun hfits => h hfits.2
  rw [shiftFits_iff] at h
  rw [windowsTime_late (by omega)]
  unfold addChecked
  rw [if_neg hover]
  rfl

/-- Where the shift fits, the ticks are the exact ones up to the largest `u64`. -/
theorem windowsTime_fits {value : FileTimeValue} (h : 0 ≤ value.secs.toInt + 11644473600)
    (hfits : ShiftFits value) :
    ∃ time, windowsTimeFromWire (some value) = .ok time ∧
      (time.toNat : Int) = min (exactTicks value) (2 ^ 64 - 1) := by
  have hrange : -2 ^ 63 ≤ value.secs.toInt + windowsEpochOffsetSecs.toInt ∧
      value.secs.toInt + windowsEpochOffsetSecs.toInt < 2 ^ 63 := by
    refine ⟨?_, hfits⟩
    rw [toInt_windowsEpochOffsetSecs]
    omega
  have hsum : addChecked value.secs windowsEpochOffsetSecs
      = .ok (value.secs + windowsEpochOffsetSecs) := if_pos hrange
  rw [windowsTime_late h, hsum]
  refine ⟨_, rfl, ?_⟩
  have hint : (value.secs + windowsEpochOffsetSecs).toInt
      = value.secs.toInt + 11644473600 := by
    rw [toInt_add hrange.1 hrange.2, toInt_windowsEpochOffsetSecs]
  have hnat := toNat_toUInt64 (a := value.secs + windowsEpochOffsetSecs) (by omega)
  have hnanos : (value.nanos.toUInt64 / 100).toNat = value.nanos.toNat / 100 := by
    rw [UInt64.toNat_div, UInt32.toNat_toUInt64]
    rfl
  rw [toNat_saturatingAdd, toNat_saturatingMul, toNat_windowsTicksPerSecond, hnanos, exactTicks_eq]
  omega

/-- **The conversion to ticks saturates** at both ends. -/
theorem windowsTime_saturates {value : FileTimeValue} (hnanos : value.nanos.toNat < 10 ^ 9)
    (hfits : ShiftFits value) :
    ∃ time, windowsTimeFromWire (some value) = .ok time ∧
      (time.toNat : Int) = max 0 (min (exactTicks value) (2 ^ 64 - 1)) := by
  have hexact := exactTicks_eq value
  by_cases h : value.secs.toInt + 11644473600 < 0
  · -- a second that has not passed outweighs all nanoseconds
    refine ⟨0, windowsTime_early h, ?_⟩
    show (0 : Int) = _
    omega
  · obtain ⟨time, hok, htime⟩ := windowsTime_fits (by omega) hfits
    exact ⟨time, hok, by omega⟩

/-- Later times have at least as many ticks. -/
theorem exactTicks_le {value value' : FileTimeValue} (hnanos : value.nanos.toNat < 10 ^ 9)
    (h : value.secs < value'.secs ∨ value.secs = value'.secs ∧ value.nanos ≤ value'.nanos) :
    exactTicks value ≤ exactTicks value' := by
  rw [exactTicks_eq, exactTicks_eq]
  rcases h with hlt | ⟨heq, hle⟩
  · have := Int64.lt_iff_toInt_lt.mp hlt
    omega
  · have := UInt32.le_iff_toNat_le.mp hle
    rw [heq]
    omega

/-! ### From ticks -/

/-- What is not asked for is no time. -/
theorem wireTime_of_not_requested {time : UInt64} (h : ¬ Requested time) :
    wireTimeFromWindows time = none := by
  unfold wireTimeFromWindows
  exact if_pos (Decidable.not_not.mp fun hno => h (not_or.mp hno))

/-- A requested time on the wire: its whole seconds from the Unix epoch, and the rest. -/
theorem wireTime_of_requested {time : UInt64} (h : Requested time) :
    ∃ value, wireTimeFromWindows time = some value ∧
      value.secs.toInt = (time.toNat / 10000000 : Nat) - 11644473600 ∧
      value.nanos.toNat = time.toNat % 10000000 * 100 := by
  have hno : ¬ (time = 0 ∨ time = UInt64.ofNat (2 ^ 64 - 1)) := not_or.mpr h
  have hlt : time.toNat < 2 ^ 64 := time.toNat_lt
  have hquot : (time / windowsTicksPerSecond).toNat = time.toNat / 10000000 :=
    UInt64.toNat_div time windowsTicksPerSecond
  have hint : (time / windowsTicksPerSecond).toInt64.toInt = (time.toNat / 10000000 : Nat) := by
    rw [toInt_toInt64 (by omega), hquot]
  have hoffset := toInt_windowsEpochOffsetSecs
  have hrem : (time % windowsTicksPerSecond * 100).toNat = time.toNat % 10000000 * 100 := by
    rw [UInt64.toNat_mul, UInt64.toNat_mod]
    exact Nat.mod_eq_of_lt (show time.toNat % 10000000 * 100 < 2 ^ 64 by omega)
  refine ⟨_, if_neg hno, ?_, ?_⟩
  · show ((time / windowsTicksPerSecond).toInt64 - windowsEpochOffsetSecs).toInt = _
    rw [toInt_sub (by omega) (by omega), hint, hoffset]
  · show (time % windowsTicksPerSecond * 100).toUInt32.toNat = _
    rw [UInt64.toNat_toUInt32, hrem]
    exact Nat.mod_eq_of_lt (show time.toNat % 10000000 * 100 < 2 ^ 32 by omega)

/-- The ticks of the wire's form of a number of ticks are that number. -/
theorem exactTicks_wireTime {time : UInt64} {value : FileTimeValue} (h : Requested time)
    (hwire : wireTimeFromWindows time = some value) : exactTicks value = time.toNat := by
  obtain ⟨value', hwire', hsecs, hnanos⟩ := wireTime_of_requested h
  rw [hwire] at hwire'
  cases hwire'
  rw [exactTicks_eq, hsecs, hnanos]
  omega

/-- **From ticks to the wire and back.** -/
theorem windowsTime_of_wireTime {time : UInt64} (h : Requested time) :
    windowsTimeFromWire (wireTimeFromWindows time) = .ok time := by
  obtain ⟨value, hwire, hsecs, hnanos⟩ := wireTime_of_requested h
  have hlt : time.toNat < 2 ^ 64 := time.toNat_lt
  have hexact := exactTicks_wireTime h hwire
  have hfits : ShiftFits value := (shiftFits_iff value).mpr (by omega)
  obtain ⟨result, hok, hresult⟩ := windowsTime_fits (by omega) hfits
  have heq : result = time := UInt64.toNat_inj.mp (by omega)
  rw [hwire, hok, heq]

/-- **From the wire to ticks and back.**  What is less than a tick is lost. -/
theorem wireTime_of_windowsTime {value : FileTimeValue} (hnanos : value.nanos.toNat < 10 ^ 9)
    (hpos : 0 < exactTicks value) (hlt : exactTicks value < 2 ^ 64 - 1) :
    (windowsTimeFromWire (some value)).map wireTimeFromWindows
      = .ok (some { value with nanos := value.nanos / 100 * 100 }) := by
  have hexact := exactTicks_eq value
  have hfits : ShiftFits value := (shiftFits_iff value).mpr (by omega)
  obtain ⟨time, hok, htime⟩ := windowsTime_fits (by omega) hfits
  have hzero : (0 : UInt64).toNat = 0 := rfl
  have hmax : (UInt64.ofNat (2 ^ 64 - 1)).toNat = 2 ^ 64 - 1 := by decide
  have hreq : Requested time :=
    ⟨fun h => by rw [h] at htime; omega, fun h => by rw [h] at htime; omega⟩
  obtain ⟨value', hwire, hsecs', hnanos'⟩ := wireTime_of_requested hreq
  have hround : (value.nanos / 100 * 100).toNat = value.nanos.toNat / 100 * 100 := by
    rw [UInt32.toNat_mul, UInt32.toNat_div]
    exact Nat.mod_eq_of_lt (show value.nanos.toNat / 100 * 100 < 2 ^ 32 by omega)
  have hsecs : value'.secs = value.secs := Int64.toInt_inj.mp (by omega)
  have hrest : value'.nanos = value.nanos / 100 * 100 := UInt32.toNat_inj.mp (by omega)
  rw [hok]
  show Except.ok (wireTimeFromWindows time) = _
  rw [hwire, ← hsecs, ← hrest]

/-! ### All together -/

/-- **Time conversions are inverse and order-preserving.**  Every number of ticks that stands
    for a time comes back from the wire; every time on the wire whose ticks stand for a time
    comes back with its nanoseconds rounded down to whole ticks; and later times have at
    least as many ticks, as long as the shift by the epoch fits: the exact number, or the
    nearest that there is. -/
theorem times_inverse_monotone :
    (∀ time : UInt64, time ≠ 0 → time ≠ UInt64.ofNat (2 ^ 64 - 1) →
      ∃ value, wireTimeFromWindows time = some value ∧ value.nanos.toNat < 10 ^ 9 ∧
        windowsTimeFromWire (wireTimeFromWindows time) = .ok time)
    ∧ (∀ value : FileTimeValue, value.nanos.toNat < 10 ^ 9 →
      0 < exactTicks value → exactTicks value < 2 ^ 64 - 1 →
        (windowsTimeFromWire (some value)).map wireTimeFromWindows
          = .ok (some { value with nanos := value.nanos / 100 * 100 }))
    ∧ (∀ value value' : FileTimeValue, value.nanos.toNat < 10 ^ 9 → value'.nanos.toNat < 10 ^ 9 →
      ShiftFits value → ShiftFits value' →
      (value.secs < value'.secs ∨ value.secs = value'.secs ∧ value.nanos ≤ value'.nanos) →
        ∃ time time', windowsTimeFromWire (some value) = .ok time ∧
          windowsTimeFromWire (some value') = .ok time' ∧ time ≤ time' ∧
          (time.toNat : Int) = max 0 (min (exactTicks value) (2 ^ 64 - 1)) ∧
          (time'.toNat : Int) = max 0 (min (exactTicks value') (2 ^ 64 - 1))) := by
  refine ⟨?_, fun value => wireTime_of_windowsTime, ?_⟩
  · intro time hzero hmax
    obtain ⟨value, hwire, -, hnanos⟩ := wireTime_of_requested ⟨hzero, hmax⟩
    exact ⟨value, hwire, by omega, windowsTime_of_wireTime ⟨hzero, hmax⟩⟩
  · intro value value' hnanos hnanos' hfits hfits' hle
    obtain ⟨time, hok, htime⟩ := windowsTime_saturates hnanos hfits
    obtain ⟨time', hok', htime'⟩ := windowsTime_saturates hnanos' hfits'
    have hticks := exactTicks_le hnanos hle
    exact ⟨time, time', hok, hok', UInt64.le_iff_toNat_le.mpr (by omega), htime, htime'⟩

/-- The first tick of 1601, a time after the epoch, and two times on either side of 1601. -/
theorem times_inverse_monotone_near_1601 :
    windowsTimeFromWire (wireTimeFromWindows 1) = .ok 1 ∧
      (windowsTimeFromWire (some ⟨1, 250⟩)).map wireTimeFromWindows = .ok (some ⟨1, 200⟩) ∧
      ∃ time time', windowsTimeFromWire (some ⟨-11644473601, 999999999⟩) = .ok time ∧
        windowsTimeFromWire (some ⟨-11644473600, 300⟩) = .ok time' ∧ time ≤ time' := by
  obtain ⟨value, -, -, hback⟩ := times_inverse_monotone.1 1 (by decide) (by decide)
  obtain ⟨time, time', hok, hok', hle, -⟩ := times_inverse_monotone.2.2
    ⟨-11644473601, 999999999⟩ ⟨-11644473600, 300⟩ (by decide) (by decide) (by decide) (by decide)
    (.inl (by decide))
  exact ⟨hback, times_inverse_monotone.2.1 ⟨1, 250⟩ (by decide) (by decide) (by decide),
    time, time', hok, hok', hle⟩

end Netfilum
