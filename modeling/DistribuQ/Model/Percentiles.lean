import DistribuQ.Model.Retry
import Mathlib.Algebra.BigOperators.Group.List.Basic

/-! `calculate_percentiles` of `benchmarks/load_test.py` in exact arithmetic. -/

namespace DistribuQ

/-- The report, in milliseconds. -/
structure Percentiles where
  min : ℚ := 0
  p50 : ℚ := 0
  p90 : ℚ := 0
  p95 : ℚ := 0
  p99 : ℚ := 0
  max : ℚ := 0
  mean : ℚ := 0
  stddev : ℚ := 0

namespace Percentiles

/-- `round(x, 2)` -/
def round2 (x : ℚ) : ℚ := Retry.roundHalfEven (x * 100) / 100

/-- The index that `percentile` reads in a list of `n` values. -/
def index (n : ℕ) (p : ℚ) : ℕ :=
  let idx := ⌈p / 100 * n⌉ - 1
  (Max.max 0 (Min.min ((n : Int) - 1) idx)).toNat

/-- The inner `percentile`; an index out of range raises `IndexError`. -/
def percentile (sortedVals : List ℚ) (p : ℚ) : Option ℚ := sortedVals[index sortedVals.length p]?

/-- `calculate_percentiles`, with `math.sqrt`. -/
def calculatePercentiles (sqrt : ℚ → ℚ) (values : List ℚ) : Option Percentiles :=
  if values.isEmpty then some {} else do
    let sortedVals := values.mergeSort
    let n := sortedVals.length
    let mean : ℚ := sortedVals.sum / n
    let variance : ℚ := if n > 1 then (sortedVals.map fun x => (x - mean) ^ 2).sum / n else 0
    let stddev := sqrt variance
    some {
      min := round2 (← sortedVals[0]?)
      p50 := round2 (← percentile sortedVals 50)
      p90 := round2 (← percentile sortedVals 90)
      p95 := round2 (← percentile sortedVals 95)
      p99 := round2 (← percentile sortedVals 99)
      max := round2 (← sortedVals[n - 1]?)
      mean := round2 mean
      stddev := round2 stddev }

end Percentiles
end DistribuQ
