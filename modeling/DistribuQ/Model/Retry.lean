import DistribuQ.Model.Schema
import Mathlib.Algebra.Order.Round
import Mathlib.Data.Rat.Floor
import Mathlib.Tactic.Linarith
import Mathlib.Tactic.Positivity

/-! `worker/retry.py` in exact arithmetic. -/

namespace DistribuQ

/-- A value of `random.random()`. -/
structure Draw where
  val : ℚ
  nonneg : 0 ≤ val
  le_one : val ≤ 1

instance : Inhabited Draw := ⟨⟨0, le_refl 0, zero_le_one⟩⟩

namespace Retry

def uniform (a b : ℚ) (u : Draw) : ℚ := a + (b - a) * u.val

def computeBackoffDelay (attempt : Int) (baseDelay maxDelay : ℚ) (jitter : Bool) (u : Draw) : ℚ :=
  let attempt := if attempt < 1 then 1 else attempt
  let delay := min maxDelay (baseDelay * 2 ^ (attempt - 1).toNat)
  let delay := if jitter then delay + uniform 0 (1 / 2 * delay) u else delay
  min maxDelay delay

/-- `timedelta` keeps whole microseconds and rounds half to even. -/
def roundHalfEven (q : ℚ) : Int :=
  let f := ⌊q⌋
  if q - f < 1 / 2 then f
  else if 1 / 2 < q - f then f + 1
  else if f % 2 = 0 then f else f + 1

def datetimeMin : Time := -62135596800 * 1000000

/-- The number a JSON value is in Python's arithmetic; `None` times a number, or the `min` of a
number and a string or list, raises `TypeError`. -/
def number? : Json → Option ℚ
  | .num q => some q
  | .bool b => some (if b then 1 else 0)
  | _ => none

/-- `compute_next_retry_at` with the default `max_delay` and `jitter`; `none` when it raises. -/
def computeNextRetryAt (now : Time) (attempt : Int) (baseDelay : Json) (u : Draw) : Option Time := do
  let b ← number? baseDelay
  let t := now + roundHalfEven (computeBackoffDelay attempt b 300 true u * 1000000)
  -- an addition that would leave `datetime.min` raises `OverflowError`; no delay exceeds `max_delay`
  if datetimeMin ≤ t then some t else none

theorem roundHalfEven_nonneg {q : ℚ} (h : 0 ≤ q) : 0 ≤ roundHalfEven q := by
  have hf : 0 ≤ ⌊q⌋ := Int.floor_nonneg.mpr h
  unfold roundHalfEven
  dsimp only
  split_ifs <;> omega

theorem roundHalfEven_mono {q q' : ℚ} (h : q ≤ q') : roundHalfEven q ≤ roundHalfEven q' := by
  have hfloor : ⌊q⌋ ≤ ⌊q'⌋ := Int.floor_mono h
  unfold roundHalfEven
  dsimp only
  rcases hfloor.lt_or_eq with hlt | heq
  · split_ifs <;> omega
  · rw [← heq]
    split_ifs <;> first | omega | (exfalso; linarith)

end Retry
end DistribuQ
