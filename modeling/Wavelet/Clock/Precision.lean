import Mathlib.Logic.Function.Iterate
import Mathlib.Order.Monotone.Basic
import Wavelet.Lib.Steps
import Wavelet.Runtime.EventDriver

/-!
# The precision clock

`PrecisionClock` of `precision_clock.rs`: the wall time is the monotonic time since a
baseline, and a resync replaces the baseline. A measurement brackets a reading of the wall
clock with two of the monotonic clock and takes it to lie in the middle. All delays between
readings are arbitrary; the clocks themselves neither drift nor are adjusted.
-/

namespace Wavelet

/-- The clocks of the operating system: what each shows at the `i`-th reading of either. -/
structure Os where
  instantNow : Nat → Nat
  nowUtc : Nat → Int
  steady : Monotone instantNow
  sameRate : ∀ i j, nowUtc j - nowUtc i = (instantNow j : Int) - instantNow i

/-- The targets that the defaults tell apart. -/
inductive Platform where
  | linux
  | windows
  | macos
  | other
  deriving DecidableEq, Repr

structure PrecisionClock where
  baseWallTime : Int
  baseInstant : Nat
  lastResync : Nat
  resyncInterval : Nat
  measurementThreshold : Nat
  maxMeasurementRetries : Nat
  isAccurate : Bool
  deriving DecidableEq, Repr

/-- `best_measurement`. -/
structure Measurement where
  estimatedInstant : Nat
  wallTime : Int
  variance : Nat
  deriving DecidableEq, Repr

namespace Os

variable (os : Os)

/-- One attempt: the three readings from the `i`-th on. -/
def measurement (i : Nat) : Measurement :=
  let instantBefore := os.instantNow i
  let wallTime := os.nowUtc (i + 1)
  let instantAfter := os.instantNow (i + 2)
  let measurementVariance := instantAfter - instantBefore
  ⟨instantBefore + measurementVariance / 2, wallTime, measurementVariance⟩

/-- The `for` loop over the attempts, from the `i`-th reading on. A measurement within the
threshold ends it. -/
def measure (threshold : Nat) : Nat → Nat → Option Measurement → Nat → Option Measurement × Nat
  | 0, i, best, _ => (best, i)
  | attempts + 1, i, best, bestVariance =>
    let m := os.measurement i
    if m.variance < bestVariance then
      if m.variance ≤ threshold then (some m, i + 3)
      else measure threshold attempts (i + 3) (some m) m.variance
    else measure threshold attempts (i + 3) best bestVariance

/-- What the wall clock shows when the monotonic clock shows `t`. -/
def utcAt (t : Nat) : Int := os.nowUtc 0 + (t - os.instantNow 0)

theorem nowUtc_eq (i : Nat) : os.nowUtc i = os.utcAt (os.instantNow i) := by
  have rate := os.sameRate 0 i
  unfold utcAt
  omega

theorem utcAt_mono {t u : Nat} (le : t ≤ u) : os.utcAt t ≤ os.utcAt u := by
  unfold utcAt
  omega

end Os

namespace PrecisionClock

def defaultMeasurementThreshold : Platform → Nat
  | .linux => 500
  | .windows => 2000
  | .macos => 1000
  | .other => 1500

def defaultMaxRetries : Platform → Nat
  | .linux => 5
  | .windows => 20
  | .macos => 10
  | .other => 15

/-- 3600 seconds. -/
def defaultResyncInterval : Nat := 3600 * 10 ^ 9

/-- One second, which no accepted measurement takes. -/
def worstVariance : Nat := 10 ^ 9

variable (os : Os)

/-- A clock together with the readings taken so far. -/
abbrev Ticking := PrecisionClock × Nat

def resyncWithQualityControl (s : Ticking) : Ticking :=
  match os.measure s.1.measurementThreshold s.1.maxMeasurementRetries s.2 none worstVariance with
  | (some m, i) =>
    ({ s.1 with
        baseWallTime := m.wallTime
        baseInstant := m.estimatedInstant
        lastResync := m.estimatedInstant
        isAccurate := decide (m.variance ≤ s.1.measurementThreshold) }, i)
  | (none, i) =>
    let nowInstant := os.instantNow i
    ({ s.1 with
        baseWallTime := os.nowUtc (i + 1)
        baseInstant := nowInstant
        lastResync := nowInstant
        isAccurate := false }, i + 2)

def resync (s : Ticking) : Ticking := resyncWithQualityControl os s

def withConfig (resyncInterval measurementThreshold maxRetries i : Nat) : Ticking :=
  resyncWithQualityControl os
    ({ baseWallTime := os.nowUtc i
       baseInstant := os.instantNow (i + 1)
       lastResync := os.instantNow (i + 2)
       resyncInterval := resyncInterval
       measurementThreshold := measurementThreshold
       maxMeasurementRetries := maxRetries
       isAccurate := false }, i + 3)

def new (platform : Platform) (i : Nat) : Ticking :=
  withConfig os defaultResyncInterval (defaultMeasurementThreshold platform) (defaultMaxRetries platform) i

/-- An automatic resync is due; `duration_since` is 0 for a later instant. -/
def Due (clock : PrecisionClock) (now : Nat) : Prop := clock.resyncInterval ≤ now - clock.lastResync

instance (clock : PrecisionClock) (now : Nat) : Decidable (clock.Due now) :=
  inferInstanceAs (Decidable (_ ≤ _))

def checkAndResync (s : Ticking) (now : Nat) : Ticking :=
  if s.1.Due now then resyncWithQualityControl os s else s

def cycleTime (s : Ticking) : CycleTime × Ticking :=
  let nowInstant := os.instantNow s.2
  let s := checkAndResync os (s.1, s.2 + 1) nowInstant
  let elapsedSinceBaseline := nowInstant - s.1.baseInstant
  (⟨nowInstant, s.1.baseWallTime + elapsedSinceBaseline⟩, s)

/-- The calls of a program. -/
inductive Call where
  | cycleTime
  | resync
  deriving DecidableEq, Repr

def call (s : Ticking) : Call → Ticking
  | .cycleTime => (cycleTime os s).2
  | .resync => resync os s

end PrecisionClock

/-- The `Clock` of a real-time run. -/
def precision (os : Os) : Clock PrecisionClock.Ticking := ⟨PrecisionClock.cycleTime os⟩

/-! ## Where a baseline comes from -/

theorem Os.measure_spec (os : Os) {threshold attempts i i' bestVariance : Nat}
    {best result : Option Measurement}
    (h : os.measure threshold attempts i best bestVariance = (result, i')) :
    i ≤ i' ∧ (result = best ∨
      ∃ j, i ≤ j ∧ j + 3 ≤ i' ∧ result = some (os.measurement j) ∧
      (os.measurement j).variance < bestVariance) := by
  induction attempts generalizing i best bestVariance with
  | zero =>
    cases h
    exact ⟨Nat.le_refl _, .inl rfl⟩
  | succ attempts ih =>
    simp only [measure] at h
    split at h
    · rename_i better
      split at h
      · cases h
        exact ⟨Nat.le_add_right _ _, .inr ⟨i, Nat.le_refl _, Nat.le_refl _, rfl, better⟩⟩
      · obtain ⟨later, kept | ⟨j, from_, until_, same, smaller⟩⟩ := ih h
        · exact ⟨by omega, .inr ⟨i, Nat.le_refl _, later, kept, better⟩⟩
        · exact ⟨by omega, .inr ⟨j, by omega, until_, same, Nat.lt_trans smaller better⟩⟩
    · obtain ⟨later, kept | ⟨j, from_, until_, same, smaller⟩⟩ := ih h
      · exact ⟨by omega, .inl kept⟩
      · exact ⟨by omega, .inr ⟨j, by omega, until_, same, smaller⟩⟩

namespace PrecisionClock

variable {os : Os}

/-- The baseline of the clock rests on readings from `first` on: on an accepted measurement,
or on the two readings of the fallback. -/
inductive Based (os : Os) (first : Nat) : Ticking → Prop
  | measured (j) {clock : PrecisionClock} {readings : Nat} : first ≤ j → j + 3 ≤ readings →
      clock.baseWallTime = os.nowUtc (j + 1) → clock.baseInstant = (os.measurement j).estimatedInstant →
      (os.measurement j).variance < worstVariance →
      clock.isAccurate = decide ((os.measurement j).variance ≤ clock.measurementThreshold) →
      Based os first (clock, readings)
  | fallback (j) {clock : PrecisionClock} {readings : Nat} : first ≤ j → j + 2 ≤ readings →
      clock.baseWallTime = os.nowUtc (j + 1) → clock.baseInstant = os.instantNow j →
      clock.isAccurate = false →
      Based os first (clock, readings)

theorem resync_based (os : Os) (s : Ticking) : Based os s.2 (resyncWithQualityControl os s) := by
  unfold resyncWithQualityControl
  obtain ⟨later, kept | ⟨j, from_, until_, same, small⟩⟩ :=
    os.measure_spec
      (rfl : os.measure s.1.measurementThreshold s.1.maxMeasurementRetries s.2 none worstVariance = (_, _))
  · split
    · rename_i m i measured
      rw [measured] at kept
      cases kept
    · rename_i i measured
      rw [measured] at later
      exact .fallback i later (Nat.le_refl _) rfl rfl rfl
  · split
    · rename_i m i measured
      rw [measured] at until_ same
      cases same
      exact .measured j from_ until_ rfl rfl small rfl
    · rename_i i measured
      rw [measured] at same
      cases same

theorem Based.mono {first first' readings readings' : Nat} {clock : PrecisionClock}
    (based : Based os first (clock, readings)) (before : first' ≤ first)
    (later : readings ≤ readings') : Based os first' (clock, readings') := by
  cases based with
  | measured j from_ until_ wall instant small accurate =>
    exact .measured j (Nat.le_trans before from_) (Nat.le_trans until_ later) wall instant small accurate
  | fallback j from_ until_ wall instant accurate =>
    exact .fallback j (Nat.le_trans before from_) (Nat.le_trans until_ later) wall instant accurate

/-- The estimated instant lies inside the bracket. -/
theorem estimatedInstant_le (os : Os) (j : Nat) :
    (os.measurement j).estimatedInstant ≤ os.instantNow (j + 2) := by
  have bracket := os.steady (Nat.le_add_right j 2)
  simp only [Os.measurement]
  omega

/-- The baseline lies before every later reading. -/
theorem Based.baseInstant_le {first i : Nat} {s : Ticking} (based : Based os first s) (later : s.2 ≤ i + 1) :
    s.1.baseInstant ≤ os.instantNow i := by
  cases based with
  | measured j from_ until_ wall instant small accurate =>
    rw [instant]
    exact Nat.le_trans (estimatedInstant_le os j) (os.steady (by simp only at later; omega))
  | fallback j from_ until_ wall instant accurate =>
    rw [instant]
    exact os.steady (by simp only at later; omega)

/-- The baseline's wall time is not older than the readings before the resync. -/
theorem Based.le_baseWallTime {first i : Nat} {s : Ticking} (based : Based os first s) (earlier : i ≤ first) :
    os.utcAt (os.instantNow i) ≤ s.1.baseWallTime := by
  have wall : ∃ j, first ≤ j ∧ s.1.baseWallTime = os.nowUtc (j + 1) := by
    cases based with
    | measured j from_ until_ wall => exact ⟨j, from_, wall⟩
    | fallback j from_ until_ wall => exact ⟨j, from_, wall⟩
  obtain ⟨j, from_, wall⟩ := wall
  rw [wall, Os.nowUtc_eq]
  exact os.utcAt_mono (os.steady (by omega))

/-! ## The error of a baseline -/

/-- How far the baseline's wall time is ahead of its instant. -/
def error (os : Os) (clock : PrecisionClock) : Int := clock.baseWallTime - os.utcAt clock.baseInstant

/-- Where the error of a clock comes from. The baseline is the measurement at some earlier
reading, whose wall clock was read in the second half of the bracket at the latest; or it is
the pair of readings of the fallback, the second some time after the first. -/
inductive Err (os : Os) (s : Ticking) : Prop
  | half (j) : j + 3 ≤ s.2 → s.1.baseWallTime = (os.measurement j).wallTime →
      s.1.baseInstant = (os.measurement j).estimatedInstant → (os.measurement j).variance < worstVariance →
      s.1.isAccurate = decide ((os.measurement j).variance ≤ s.1.measurementThreshold) →
      s.1.error os = (os.instantNow (j + 1) : Int) - (os.measurement j).estimatedInstant →
      2 * s.1.error os ≤ (os.measurement j).variance + 1 → Err os s
  | delay (j) : j + 2 ≤ s.2 → s.1.baseWallTime = os.nowUtc (j + 1) →
      s.1.baseInstant = os.instantNow j → s.1.isAccurate = false →
      s.1.error os = (os.instantNow (j + 1) : Int) - os.instantNow j → Err os s

theorem Based.err {first : Nat} {s : Ticking} (based : Based os first s) : Err os s := by
  cases based with
  | measured j from_ until_ wall instant small accurate =>
    have up : os.instantNow (j + 1) ≤ os.instantNow (j + 2) := os.steady (Nat.le_succ _)
    have down : os.instantNow j ≤ os.instantNow (j + 1) := os.steady (Nat.le_succ _)
    have shown := os.nowUtc_eq (j + 1)
    refine .half j until_ wall instant small accurate ?_ ?_
    · simp only [error, wall, instant, shown, Os.utcAt]
      omega
    · simp only [error, wall, instant, Os.measurement, shown, Os.utcAt] at *
      omega
  | fallback j from_ until_ wall instant accurate =>
    refine .delay j until_ wall instant accurate ?_
    have shown := os.nowUtc_eq (j + 1)
    simp only [error, wall, instant, shown, Os.utcAt]
    omega

/-! ## Two readings in a row -/

theorem Based.readings {first : Nat} {s : Ticking} (based : Based os first s) : first ≤ s.2 := by
  cases based with
  | measured j from_ until_ => exact Nat.le_trans from_ (Nat.le_trans (Nat.le_add_right _ _) until_)
  | fallback j from_ until_ => exact Nat.le_trans from_ (Nat.le_trans (Nat.le_add_right _ _) until_)

theorem withConfig_based (os : Os) (resyncInterval measurementThreshold maxRetries i : Nat) :
    Based os 0 (withConfig os resyncInterval measurementThreshold maxRetries i) :=
  (resync_based os _).mono (Nat.zero_le _) (Nat.le_refl _)

/-- A call keeps the baseline, or takes one with its own readings. -/
theorem checkAndResync_based {first : Nat} {s : Ticking} (based : Based os first s) (now : Nat) :
    Based os first (checkAndResync os s now) := by
  unfold checkAndResync
  split
  · exact (resync_based os s).mono based.readings (Nat.le_refl _)
  · exact based

theorem cycleTime_based {first : Nat} {s : Ticking} (based : Based os first s) :
    Based os first (cycleTime os s).2 :=
  checkAndResync_based (based.mono (Nat.le_refl _) (Nat.le_succ _)) _

theorem call_based {first : Nat} {s : Ticking} (based : Based os first s) (c : Call) :
    Based os first (call os s c) := by
  cases c with
  | cycleTime => exact cycleTime_based based
  | resync => exact (resync_based os s).mono based.readings (Nat.le_refl _)

theorem calls_based {first : Nat} {s : Ticking} (based : Based os first s) (calls : List Call) :
    Based os first (calls.foldl (call os) s) :=
  Steps.foldl_inv (p := Based os first) (fun _ c _ good => call_based good c) based

theorem cycleTime_readings (os : Os) (s : Ticking) : s.2 < (cycleTime os s).2.2 := by
  show s.2 < (checkAndResync os (s.1, s.2 + 1) (os.instantNow s.2)).2
  unfold checkAndResync
  split
  · exact (resync_based os (s.1, s.2 + 1)).readings
  · exact Nat.lt_succ_self _

/-- A reading is at most the time of a later one, and the error of the baseline. -/
theorem unixTime_le {s : Ticking} {t : Nat} (now : os.instantNow s.2 ≤ t)
    (base : (cycleTime os s).2.1.baseInstant ≤ t) :
    (cycleTime os s).1.unixTime ≤ os.utcAt t + (cycleTime os s).2.1.error os := by
  have shown : (cycleTime os s).1.unixTime =
      (cycleTime os s).2.1.baseWallTime + (os.instantNow s.2 - (cycleTime os s).2.1.baseInstant : Nat) := rfl
  rw [shown]
  simp only [error, Os.utcAt]
  omega

/-- A reading is at least the wall time of its baseline. -/
theorem baseWallTime_le (os : Os) (s : Ticking) :
    (cycleTime os s).2.1.baseWallTime ≤ (cycleTime os s).1.unixTime :=
  Int.le_add_of_nonneg_right (Int.natCast_nonneg _)

theorem resyncs_readings (os : Os) (n : Nat) (s : Ticking) : s.2 ≤ ((resync os)^[n] s).2 := by
  induction n with
  | zero => exact Nat.le_refl _
  | succ n ih =>
    rw [Function.iterate_succ', Function.comp_apply]
    exact Nat.le_trans ih (resync_based os _).readings

/-- After a resync since the readings of `s` the baseline of the next call is a new one. -/
theorem cycleTime_fresh {resyncs : Nat} {s : Ticking}
    (resynced : 0 < resyncs ∨ ((resync os)^[resyncs] s).1.Due (os.instantNow ((resync os)^[resyncs] s).2)) :
    Based os s.2 (cycleTime os ((resync os)^[resyncs] s)).2 := by
  cases resyncs with
  | zero =>
    have due : s.1.Due (os.instantNow s.2) := resynced.resolve_left (Nat.lt_irrefl 0)
    show Based os s.2 (checkAndResync os (s.1, s.2 + 1) (os.instantNow s.2))
    rw [checkAndResync, if_pos due]
    exact (resync_based os (s.1, s.2 + 1)).mono (Nat.le_succ _) (Nat.le_refl _)
  | succ n =>
    rw [Function.iterate_succ', Function.comp_apply]
    exact cycleTime_based ((resync_based os _).mono (resyncs_readings os n s) (Nat.le_refl _))

/-- Without one the baseline stays, and only more time has passed since. -/
theorem unixTime_mono (s : Ticking) (instant : os.instantNow s.2 ≤ os.instantNow (cycleTime os s).2.2)
    (fresh : ¬ (cycleTime os s).2.1.Due (os.instantNow (cycleTime os s).2.2)) :
    (cycleTime os s).1.unixTime ≤ (cycleTime os (cycleTime os s).2).1.unixTime := by
  have kept : (cycleTime os (cycleTime os s).2).2.1 = (cycleTime os s).2.1 := by
    show (checkAndResync os ((cycleTime os s).2.1, (cycleTime os s).2.2 + 1)
        (os.instantNow (cycleTime os s).2.2)).1 = _
    rw [checkAndResync, if_neg fresh]
  have before : (cycleTime os s).1.unixTime =
      (cycleTime os s).2.1.baseWallTime + (os.instantNow s.2 - (cycleTime os s).2.1.baseInstant : Nat) := rfl
  have after : (cycleTime os (cycleTime os s).2).1.unixTime =
      (cycleTime os (cycleTime os s).2).2.1.baseWallTime +
      (os.instantNow (cycleTime os s).2.2 - (cycleTime os (cycleTime os s).2).2.1.baseInstant : Nat) := rfl
  rw [before, after, kept]
  omega

/-- How a reading compares with the one before, which left the clock as `s`. Without a
resync in between neither time goes back. With one the unix time goes back at most by the
error of the baseline that was replaced. -/
structure Slips (os : Os) (s : Ticking) (resynced : Prop) (before after : CycleTime) : Prop where
  instant : before.instant ≤ after.instant
  steady : ¬ resynced → before.unixTime ≤ after.unixTime
  bounded : before.unixTime ≤ after.unixTime + max 0 (s.1.error os)
  err : Err os s

/-- A clock that has been called in whatever way is read, resynced so many times and read
again. -/
theorem precision_time_slips (os : Os) (resyncInterval measurementThreshold maxRetries i : Nat)
    (calls : List Call) (resyncs : Nat) :
    let s := calls.foldl (call os) (withConfig os resyncInterval measurementThreshold maxRetries i)
    let first := cycleTime os s
    let again := (resync os)^[resyncs] first.2
    let second := cycleTime os again
    Slips os first.2 (0 < resyncs ∨ again.1.Due second.1.instant) first.1 second.1 := by
  intro s first again second
  have based : Based os 0 first.2 := cycleTime_based (calls_based (withConfig_based ..) calls)
  have readings : s.2 < first.2.2 := cycleTime_readings os s
  have later : first.2.2 ≤ again.2 := resyncs_readings os resyncs first.2
  have instant : first.1.instant ≤ second.1.instant := os.steady (by omega)
  have steady : ¬ (0 < resyncs ∨ again.1.Due second.1.instant) → first.1.unixTime ≤ second.1.unixTime := by
    intro unsynced
    obtain ⟨none, fresh⟩ := not_or.mp unsynced
    have same : again = first.2 := by
      show (resync os)^[resyncs] first.2 = first.2
      rw [Nat.eq_zero_of_not_pos none]
      rfl
    simp only [second, same] at fresh ⊢
    exact unixTime_mono s (os.steady (Nat.le_of_lt readings)) fresh
  refine ⟨instant, steady, ?_, based.err⟩
  by_cases resynced : 0 < resyncs ∨ again.1.Due second.1.instant
  · have fresh : Based os first.2.2 second.2 := cycleTime_fresh resynced
    have upper : first.1.unixTime ≤ os.utcAt (os.instantNow first.2.2) + first.2.1.error os :=
      unixTime_le (os.steady (by omega)) (based.baseInstant_le (Nat.le_succ _))
    have lower : os.utcAt (os.instantNow first.2.2) ≤ second.2.1.baseWallTime :=
      fresh.le_baseWallTime (Nat.le_refl _)
    have shown : second.2.1.baseWallTime ≤ second.1.unixTime := baseWallTime_le os again
    omega
  · have forward := steady resynced
    omega

/-- A run on Linux with the defaults: the wall clock is read at the end of the first bracket
of 100 ns, and the resync after an hour measures without delay. -/
def lateRead : Os where
  instantNow i := if i < 4 then 0 else if i < 6 then 100 else if i = 6 then 3600000000049 else 3600000000050
  nowUtc i :=
    (if i < 4 then 0 else if i < 6 then 100 else if i = 6 then 3600000000049 else 3600000000050 : Nat)
  steady i j le := by
    dsimp only
    split_ifs <;> omega
  sameRate i j := by simp

/-- The automatic resync takes the unix time back by 49 ns, although the replaced baseline
was within the threshold. -/
theorem lateRead_goes_back :
    let s := PrecisionClock.new lateRead .linux 0
    let first := cycleTime lateRead s
    let second := cycleTime lateRead first.2
    s.1.isAccurate = true ∧ first.1 = ⟨3600000000049, 3600000000099⟩ ∧
      second.1 = ⟨3600000000050, 3600000000050⟩ := by
  decide

end PrecisionClock

end Wavelet
