import DpdkCr.Units.Measure
import Mathlib.Data.List.Induction

/-!
# Performance counters

`measure` and `measure_count` add to the counters of a loop, `measure_output` moves them
to the totals and prints a line. Only `measure` compares the number of iterations with
`APP_STATS`, and it compares for equality.

## Main definitions

* `measure`, `measureCount`, `measureOutput`, `measureDebug` — the macros
* `MeasureWorld` — the counters and the reports so far
* `KeepsCounters` — nothing is lost, and reports are in time

## Main results

* `accounts_run` — totals and counters add up to what was counted
* `reports_call_iff` — when one call of `measure` reports in time
* `keepsCounters_iff` — the same for a whole run
-/

namespace DpdkCr

/-! ### The macros -/

/-- The variables of `measure_init`, without the time. -/
structure Counters where
  mIter : UInt64
  mCount : UInt64
  mBytes : UInt64
  mTotal : UInt64
  mTotalBytes : UInt64
  deriving DecidableEq, Repr

/-- What a printed line says, without the times and rates. -/
structure ReportLine where
  iter : List UInt8
  count : UInt64
  total : UInt64
  totalBytes : UInt64
  deriving DecidableEq, Repr

def measureInit : Counters := ⟨0, 0, 0, 0, 0⟩

/-- `measure_count`. -/
def measureCount (m : Counters) (val bytesVal : UInt64) : Counters :=
  { m with
    mIter := m.mIter + 1
    mCount := m.mCount + val
    mBytes := m.mBytes + bytesVal }

/-- `measure_debug`: the line alone. -/
def measureDebug (m : Counters) : ReportLine :=
  ⟨toSiMeasure m.mIter.toNat, m.mCount, m.mTotal, m.mTotalBytes⟩

/-- `measure_output`: the line, after the totals and before the reset. -/
def measureOutput (m : Counters) : Counters × ReportLine :=
  let m := { m with
    mTotal := m.mTotal + m.mCount
    mTotalBytes := m.mTotalBytes + m.mBytes }
  ({ m with mIter := 0, mCount := 0, mBytes := 0 }, measureDebug m)

/-- `measure`. -/
def measure (appStats : UInt64) (m : Counters) (val bytesVal : UInt64) :
    Counters × Option ReportLine :=
  let m := measureCount m val bytesVal
  if m.mIter = appStats then
    let (m, line) := measureOutput m
    (m, some line)
  else (m, none)

/-! ### Runs -/

/-- The calls that a program makes after `measure_init`. -/
inductive MeasureCall
  | measure (val bytesVal : UInt64)
  | measureCount (val bytesVal : UInt64)
  | measureOutput
  | measureDebug
  deriving DecidableEq, Repr

namespace MeasureCall

def val : MeasureCall → UInt64
  | measure val _ | measureCount val _ => val
  | measureOutput | measureDebug => 0

def bytesVal : MeasureCall → UInt64
  | measure _ bytesVal | measureCount _ bytesVal => bytesVal
  | measureOutput | measureDebug => 0

end MeasureCall

/-- The counters, the reports so far and the iterations since the last one. -/
structure MeasureWorld where
  counters : Counters
  reports : List ReportLine
  since : ℕ

namespace MeasureWorld

/-- One call. A line of `measure_debug` is no report. -/
def call (appStats : UInt64) (w : MeasureWorld) : MeasureCall → MeasureWorld
  | .measure val bytesVal =>
    let (m, line) := measure appStats w.counters val bytesVal
    ⟨m, w.reports ++ line.toList, line.elim (w.since + 1) fun _ => 0⟩
  | .measureCount val bytesVal =>
    ⟨measureCount w.counters val bytesVal, w.reports, w.since + 1⟩
  | .measureOutput =>
    let (m, line) := measureOutput w.counters
    ⟨m, w.reports ++ [line], 0⟩
  | .measureDebug => w

/-- The calls in turn, from `measure_init` on. -/
def run (appStats : UInt64) (calls : List MeasureCall) : MeasureWorld :=
  calls.foldl (call appStats) ⟨measureInit, [], 0⟩

end MeasureWorld

open MeasureWorld

/-- The sum of all counted values. -/
def counted (calls : List MeasureCall) : ℕ := (calls.map fun call => call.val.toNat).sum

/-- The sum of all byte values. -/
def countedBytes (calls : List MeasureCall) : ℕ := (calls.map fun call => call.bytesVal.toNat).sum

/-- A call of `measure` from `w` to `v` reports if the iterations are `APP_STATS` or more,
and leaves less. -/
structure Reports (appStats : UInt64) (w v : MeasureWorld) : Prop where
  emits : appStats.toNat ≤ w.since + 1 →
    (∃ line, v.reports = w.reports ++ [line]) ∧ v.counters.mIter = 0
  below : v.counters.mIter < appStats

/-- Nothing that is counted is lost, modulo `2 ^ 64`, and no report is. -/
structure KeepsCounters (appStats : UInt64) (calls : List MeasureCall) : Prop where
  counts : ∀ before, before <+: calls →
    (run appStats before).counters.mTotal + (run appStats before).counters.mCount =
      .ofNat (counted before)
  bytes : ∀ before, before <+: calls →
    (run appStats before).counters.mTotalBytes + (run appStats before).counters.mBytes =
      .ofNat (countedBytes before)
  reports : ∀ before val bytesVal, before ++ [.measure val bytesVal] <+: calls →
    Reports appStats (run appStats before) (run appStats (before ++ [.measure val bytesVal]))

/-! ### Accounting -/

section Accounts

variable {appStats val bytesVal : UInt64} {m : Counters} {w : MeasureWorld} {call : MeasureCall}
variable {calls : List MeasureCall}

theorem run_concat :
    run appStats (calls ++ [call]) = (run appStats calls).call appStats call := by
  rw [run, List.foldl_append]
  rfl

theorem counted_concat : counted (calls ++ [call]) = counted calls + call.val.toNat := by
  rw [counted, List.map_append, List.sum_append, List.map_singleton, List.sum_singleton, counted]

theorem countedBytes_concat :
    countedBytes (calls ++ [call]) = countedBytes calls + call.bytesVal.toNat := by
  rw [countedBytes, List.map_append, List.sum_append, List.map_singleton, List.sum_singleton,
    countedBytes]

/-- What has been counted in all. -/
def Counters.counted (m : Counters) : UInt64 := m.mTotal + m.mCount

def Counters.countedBytes (m : Counters) : UInt64 := m.mTotalBytes + m.mBytes

theorem counted_measureCount : (measureCount m val bytesVal).counted = m.counted + val :=
  (UInt64.add_assoc m.mTotal m.mCount val).symm

theorem countedBytes_measureCount :
    (measureCount m val bytesVal).countedBytes = m.countedBytes + bytesVal :=
  (UInt64.add_assoc m.mTotalBytes m.mBytes bytesVal).symm

/-- The reset comes after the counters have been added to the totals. -/
theorem counted_measureOutput : (measureOutput m).1.counted = m.counted := UInt64.add_zero _

theorem countedBytes_measureOutput : (measureOutput m).1.countedBytes = m.countedBytes :=
  UInt64.add_zero _

/-- `measure` counts, and dumps if that is due. -/
theorem measure_eq_of_due (due : m.mIter + 1 = appStats) :
    measure appStats m val bytesVal =
      ((measureOutput (measureCount m val bytesVal)).1,
        some (measureOutput (measureCount m val bytesVal)).2) :=
  if_pos due

theorem measure_eq_of_not_due (early : m.mIter + 1 ≠ appStats) :
    measure appStats m val bytesVal = (measureCount m val bytesVal, none) :=
  if_neg early

theorem call_measure_of_due (due : w.counters.mIter + 1 = appStats) :
    w.call appStats (.measure val bytesVal) =
      ⟨(measureOutput (measureCount w.counters val bytesVal)).1,
        w.reports ++ [(measureOutput (measureCount w.counters val bytesVal)).2], 0⟩ := by
  rw [MeasureWorld.call, measure_eq_of_due due]
  rfl

theorem call_measure_of_not_due (early : w.counters.mIter + 1 ≠ appStats) :
    w.call appStats (.measure val bytesVal) =
      ⟨measureCount w.counters val bytesVal, w.reports, w.since + 1⟩ := by
  simp only [MeasureWorld.call, measure_eq_of_not_due early, Option.toList_none, List.append_nil]
  rfl

/-- A call adds its values, whichever counters they end up in. -/
theorem counted_call (appStats : UInt64) (w : MeasureWorld) (call : MeasureCall) :
    (w.call appStats call).counters.counted = w.counters.counted + call.val ∧
      (w.call appStats call).counters.countedBytes = w.counters.countedBytes + call.bytesVal := by
  cases call with
  | measure val bytesVal =>
      by_cases due : w.counters.mIter + 1 = appStats
      · rw [call_measure_of_due due, counted_measureOutput, countedBytes_measureOutput]
        exact ⟨counted_measureCount, countedBytes_measureCount⟩
      · rw [call_measure_of_not_due due]
        exact ⟨counted_measureCount, countedBytes_measureCount⟩
  | measureCount val bytesVal => exact ⟨counted_measureCount, countedBytes_measureCount⟩
  | measureOutput =>
      exact ⟨counted_measureOutput.trans (UInt64.add_zero _).symm,
        countedBytes_measureOutput.trans (UInt64.add_zero _).symm⟩
  | measureDebug => exact ⟨(UInt64.add_zero _).symm, (UInt64.add_zero _).symm⟩

theorem mIter_succ (counts : w.counters.mIter = .ofNat w.since) :
    w.counters.mIter + 1 = .ofNat (w.since + 1) := by
  rw [counts, UInt64.ofNat_add]
  rfl

/-- The iterations are counted from the last report on. -/
theorem mIter_call (counts : w.counters.mIter = .ofNat w.since) (call : MeasureCall) :
    (w.call appStats call).counters.mIter = .ofNat (w.call appStats call).since := by
  have next := mIter_succ counts
  cases call with
  | measure val bytesVal =>
      by_cases due : w.counters.mIter + 1 = appStats
      · rw [call_measure_of_due due]
        rfl
      · rw [call_measure_of_not_due due]
        exact next
  | measureCount val bytesVal => exact next
  | measureOutput => rfl
  | measureDebug => exact counts

/-- What the counters hold after some calls. -/
structure Accounts (calls : List MeasureCall) (w : MeasureWorld) : Prop where
  counts : w.counters.counted = .ofNat (counted calls)
  bytes : w.counters.countedBytes = .ofNat (countedBytes calls)
  iterations : w.counters.mIter = .ofNat w.since

/-- Totals and counters add up to what was counted, at any point of any run. -/
theorem accounts_run (appStats : UInt64) (calls : List MeasureCall) :
    Accounts calls (run appStats calls) := by
  induction calls using List.reverseRecOn with
  | nil => exact ⟨rfl, rfl, rfl⟩
  | append_singleton calls call ih =>
      obtain ⟨values, bytes⟩ := counted_call appStats (run appStats calls) call
      rw [run_concat]
      refine ⟨?_, ?_, mIter_call ih.iterations call⟩
      · rw [values, ih.counts, counted_concat, UInt64.ofNat_add, UInt64.ofNat_toNat]
      · rw [bytes, ih.bytes, countedBytes_concat, UInt64.ofNat_add, UInt64.ofNat_toNat]

end Accounts

/-! ### Reporting -/

section Reporting

variable {appStats val bytesVal : UInt64} {w : MeasureWorld}

/-- The iterations have not passed the threshold when `measure` comes to compare them. -/
def OnTime (appStats : UInt64) (since : ℕ) : Prop :=
  since < appStats.toNat ∨ appStats ≠ 0 ∧ appStats = .ofNat (since + 1)

/-- A call of `measure` reports in time if the threshold has not been passed before it. -/
theorem reports_call_iff (counts : w.counters.mIter = .ofNat w.since) :
    Reports appStats w (w.call appStats (.measure val bytesVal)) ↔ OnTime appStats w.since := by
  have next := mIter_succ counts
  by_cases due : w.counters.mIter + 1 = appStats
  · -- the report comes, and what is left is below any threshold but zero
    rw [call_measure_of_due due]
    constructor
    · intro reports
      exact .inr ⟨UInt64.pos_iff_ne_zero.mp reports.below, due.symm.trans next⟩
    · intro timely
      refine ⟨fun _ => ⟨⟨_, rfl⟩, rfl⟩, UInt64.pos_iff_ne_zero.mpr ?_⟩
      rintro rfl
      rcases timely with before | after
      · exact absurd before (Nat.not_lt_zero _)
      · exact after.1 rfl
  · rw [call_measure_of_not_due due]
    constructor
    · intro reports
      -- a report was not due, so none was needed
      refine .inl (Nat.lt_of_succ_lt (Nat.lt_of_not_le fun reached => ?_))
      obtain ⟨⟨line, added⟩, -⟩ := reports.emits reached
      exact List.cons_ne_nil _ _ (List.self_eq_append_right.mp added)
    · intro timely
      have before : w.since < appStats.toNat :=
        timely.resolve_right fun after => due (next.trans after.2.symm)
      have whole : (UInt64.ofNat (w.since + 1)).toNat = w.since + 1 :=
        UInt64.toNat_ofNat_of_lt' (Nat.lt_of_le_of_lt before appStats.toNat_lt)
      have below : w.since + 1 < appStats.toNat := by
        refine Nat.lt_of_le_of_ne before fun same => due (next.trans ?_)
        rw [same, UInt64.ofNat_toNat]
      refine ⟨fun reached => absurd below (Nat.not_lt_of_le reached), ?_⟩
      change w.counters.mIter + 1 < appStats
      rwa [next, UInt64.lt_iff_toNat_lt, whole]

/-- **Reports come as long as no threshold is passed.** Counts are never lost, and a run
reports in time if and only if none of its calls of `measure` finds that
`measure_count` has taken the iterations past `APP_STATS`. -/
theorem keepsCounters_iff (appStats : UInt64) (calls : List MeasureCall) :
    KeepsCounters appStats calls ↔
      ∀ before val bytesVal, before ++ [.measure val bytesVal] <+: calls →
        OnTime appStats (run appStats before).since := by
  have reports (before : List MeasureCall) (val bytesVal : UInt64) :
      Reports appStats (run appStats before) (run appStats (before ++ [.measure val bytesVal])) ↔
        OnTime appStats (run appStats before).since := by
    rw [run_concat]
    exact reports_call_iff (accounts_run appStats before).iterations
  constructor
  · intro keeps before val bytesVal inside
    exact (reports before val bytesVal).mp (keeps.reports before val bytesVal inside)
  · intro timely
    exact ⟨fun before _ => (accounts_run appStats before).counts,
      fun before _ => (accounts_run appStats before).bytes,
      fun before val bytesVal inside =>
        (reports before val bytesVal).mpr (timely before val bytesVal inside)⟩

/-- Iterations that are only counted are not reported. -/
theorem since_replicate (k : ℕ) :
    (run appStats (List.replicate k (.measureCount val bytesVal))).since = k := by
  induction k with
  | zero => rfl
  | succ k ih =>
      rw [List.replicate_succ', run_concat]
      exact congrArg Nat.succ ih

/-- A million iterations are only counted, and the next one misses the threshold. -/
theorem not_keepsCounters_late :
    ¬ KeepsCounters 1000000
      (List.replicate 1000000 (.measureCount 32 2048) ++ [.measure 32 2048]) := by
  intro keeps
  have reports := keeps.reports _ 32 2048 List.prefix_rfl
  rw [run_concat, reports_call_iff (accounts_run _ _).iterations, since_replicate] at reports
  rcases reports with before | after
  · exact absurd before (lt_irrefl _)
  · exact absurd after.2 (by decide)

end Reporting

end DpdkCr
