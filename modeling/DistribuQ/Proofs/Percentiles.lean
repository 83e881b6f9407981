import DistribuQ.Model.Percentiles
import DistribuQ.Library.Ranks

/-! The percentiles of `calculate_percentiles` are nearest-rank percentiles. -/

namespace DistribuQ
namespace Percentiles
open Ranks
variable {values values' l : List ℚ} {n : ℕ} {p q v w : ℚ} {sqrt : ℚ → ℚ}

/-- The clamp changes nothing: the index is the rank less one. -/
theorem index_add_one (hn : 0 < n) (hp : 0 < p) (hp' : p ≤ 100) :
    ((index n p : ℕ) : Int) + 1 = ⌈p / 100 * n⌉ := by
  have hcast : (0 : ℚ) < n := by exact_mod_cast hn
  have hlow : 0 < ⌈p / 100 * n⌉ := Int.ceil_pos.mpr (by positivity)
  have hhigh : ⌈p / 100 * n⌉ ≤ n := by
    refine Int.ceil_le.mpr ?_
    have hle : p / 100 ≤ 1 := by linarith
    have hmul := mul_le_mul_of_nonneg_right hle hcast.le
    rwa [one_mul] at hmul
  unfold index
  dsimp only
  omega

theorem index_lt (hn : 0 < n) (p : ℚ) : index n p < n := by
  unfold index
  dsimp only
  omega

theorem index_mono (h : p ≤ q) (n : ℕ) : index n p ≤ index n q := by
  have hmul : p / 100 * n ≤ q / 100 * n := mul_le_mul_of_nonneg_right (by linarith) (Nat.cast_nonneg n)
  have hceil := Int.ceil_le_ceil hmul
  unfold index
  dsimp only
  omega

/-- Up to the index there are fewer elements than the percentage asks for. -/
theorem index_lt_iff (hn : 0 < n) (hp : 0 < p) (hp' : p ≤ 100) (k : ℕ) : index n p < k ↔ p / 100 * n ≤ k := by
  have hindex := index_add_one hn hp hp'
  rw [← Int.cast_natCast (R := ℚ) k, ← Int.ceil_le]
  omega

theorem exists_percentile (hl : l ≠ []) (p : ℚ) : ∃ v, percentile l p = some v := by
  have hlt : index l.length p < l.length := index_lt (List.length_pos_iff.mpr hl) p
  exact ⟨_, List.getElem?_eq_getElem hlt⟩

/-- Of a sorted list it is the least element that at least `p` percent of the elements do not exceed. -/
theorem isLeast_percentile (hl : l.Pairwise (· ≤ ·)) (hp : 0 < p) (hp' : p ≤ 100)
    (h : percentile l p = some v) :
    IsLeast {x | x ∈ l ∧ p / 100 * l.length ≤ l.countP (· ≤ x)} v := by
  obtain ⟨hk, rfl⟩ := List.getElem?_eq_some_iff.mp h
  have hpos : 0 < l.length := Nat.zero_lt_of_lt hk
  have hleast := isLeast_getElem hl hk
  simp only [index_lt_iff hpos hp hp'] at hleast
  exact hleast

theorem getElem?_mono (hl : l.Pairwise (· ≤ ·)) {i j : ℕ} (hij : i ≤ j) (hv : l[i]? = some v)
    (hw : l[j]? = some w) : v ≤ w := by
  obtain ⟨hi, rfl⟩ := List.getElem?_eq_some_iff.mp hv
  obtain ⟨hj, rfl⟩ := List.getElem?_eq_some_iff.mp hw
  exact hl.rel_get_of_le (a := ⟨i, hi⟩) (b := ⟨j, hj⟩) hij

theorem percentile_mono (hl : l.Pairwise (· ≤ ·)) (h : p ≤ q) (hv : percentile l p = some v)
    (hw : percentile l q = some w) : v ≤ w :=
  getElem?_mono hl (index_mono h _) hv hw

theorem round2_mono (h : v ≤ w) : round2 v ≤ round2 w := by
  have hround := Retry.roundHalfEven_mono (mul_le_mul_of_nonneg_right h (by norm_num : (0 : ℚ) ≤ 100))
  exact div_le_div_of_nonneg_right (Int.cast_le.mpr hround) (by norm_num)

theorem mergeSort_ne_nil (h : values ≠ []) : values.mergeSort ≠ [] := by
  rwa [ne_eq, ← List.length_eq_zero_iff, List.length_mergeSort, List.length_eq_zero_iff]

theorem mergeSort_congr (h : values.Perm values') : values.mergeSort = values'.mergeSort := by
  have hperm : values.mergeSort.Perm values'.mergeSort :=
    (List.mergeSort_perm _ _).trans (h.trans (List.mergeSort_perm _ _).symm)
  exact hperm.eq_of_pairwise' (List.pairwise_mergeSort' _ values) (List.pairwise_mergeSort' _ values')

theorem calculatePercentiles_congr (h : values.Perm values') :
    calculatePercentiles sqrt values = calculatePercentiles sqrt values' := by
  unfold calculatePercentiles
  rw [mergeSort_congr h, h.isEmpty_eq]

/-- `v` is the least value that at least `p` percent of the values do not exceed. -/
def IsNearestRank (values : List ℚ) (p v : ℚ) : Prop :=
  IsLeast {x | x ∈ values ∧ p / 100 * values.length ≤ values.countP (· ≤ x)} v

/-- The smallest value, the four nearest ranks and the largest value. -/
structure Selects (values : List ℚ) (v : Percentiles) : Prop where
  min : IsLeast {x | x ∈ values} v.min
  p50 : IsNearestRank values 50 v.p50
  p90 : IsNearestRank values 90 v.p90
  p95 : IsNearestRank values 95 v.p95
  p99 : IsNearestRank values 99 v.p99
  max : IsGreatest {x | x ∈ values} v.max

/-- Each of these fields of `r` is that of `v`, rounded. -/
structure Rounds (r v : Percentiles) : Prop where
  min : r.min = round2 v.min
  p50 : r.p50 = round2 v.p50
  p90 : r.p90 = round2 v.p90
  p95 : r.p95 = round2 v.p95
  p99 : r.p99 = round2 v.p99
  max : r.max = round2 v.max

structure Ordered (v : Percentiles) : Prop where
  min_le : v.min ≤ v.p50
  p50_le : v.p50 ≤ v.p90
  p90_le : v.p90 ≤ v.p95
  p95_le : v.p95 ≤ v.p99
  p99_le : v.p99 ≤ v.max

theorem Rounds.ordered {r v : Percentiles} (h : r.Rounds v) (hv : v.Ordered) : r.Ordered where
  min_le := by rw [h.min, h.p50]; exact round2_mono hv.min_le
  p50_le := by rw [h.p50, h.p90]; exact round2_mono hv.p50_le
  p90_le := by rw [h.p90, h.p95]; exact round2_mono hv.p90_le
  p95_le := by rw [h.p95, h.p99]; exact round2_mono hv.p95_le
  p99_le := by rw [h.p99, h.max]; exact round2_mono hv.p99_le

theorem isNearestRank_percentile (hp : 0 < p) (hp' : p ≤ 100)
    (h : percentile values.mergeSort p = some v) : IsNearestRank values p v := by
  have hperm := List.mergeSort_perm values (· ≤ ·)
  have hleast := isLeast_percentile (List.pairwise_mergeSort' _ values) hp hp' h
  simp only [hperm.mem_iff, hperm.length_eq, hperm.countP_eq] at hleast
  exact hleast

theorem isLeast_getElem_zero (hl : l.Pairwise (· ≤ ·)) (h : l[0]? = some v) :
    IsLeast {x | x ∈ l} v := by
  refine ⟨List.mem_of_getElem? h, fun w hw => ?_⟩
  obtain ⟨j, hj⟩ := List.mem_iff_getElem?.mp hw
  exact getElem?_mono hl (Nat.zero_le j) h hj

theorem isGreatest_getElem_last (hl : l.Pairwise (· ≤ ·)) (h : l[l.length - 1]? = some v) :
    IsGreatest {x | x ∈ l} v := by
  refine ⟨List.mem_of_getElem? h, fun w hw => ?_⟩
  obtain ⟨j, hj⟩ := List.mem_iff_getElem?.mp hw
  obtain ⟨hlt, _⟩ := List.getElem?_eq_some_iff.mp hj
  exact getElem?_mono hl (Nat.le_sub_one_of_lt hlt) hj h

/-- From a list with a value in it the report selects, in order, and rounds what it has selected. -/
theorem exists_selected (sqrt : ℚ → ℚ) (hne : values ≠ []) :
    ∃ v r, Selects values v ∧ v.Ordered ∧ calculatePercentiles sqrt values = some r ∧ r.Rounds v := by
  have hl : values.mergeSort.Pairwise (· ≤ ·) := List.pairwise_mergeSort' _ values
  have hpos : 0 < values.mergeSort.length := List.length_pos_iff.mpr (mergeSort_ne_nil hne)
  have hlast : values.mergeSort.length - 1 < values.mergeSort.length := Nat.sub_lt hpos one_pos
  have hmin := List.getElem?_eq_getElem hpos
  have hmax := List.getElem?_eq_getElem hlast
  obtain ⟨v₅₀, h₅₀⟩ := exists_percentile (mergeSort_ne_nil hne) 50
  obtain ⟨v₉₀, h₉₀⟩ := exists_percentile (mergeSort_ne_nil hne) 90
  obtain ⟨v₉₅, h₉₅⟩ := exists_percentile (mergeSort_ne_nil hne) 95
  obtain ⟨v₉₉, h₉₉⟩ := exists_percentile (mergeSort_ne_nil hne) 99
  let v : Percentiles :=
    { min := values.mergeSort[0], p50 := v₅₀, p90 := v₉₀, p95 := v₉₅, p99 := v₉₉,
      max := values.mergeSort[values.mergeSort.length - 1] }
  have hselects : Selects values v := by
    have hmem (x : ℚ) : x ∈ values.mergeSort ↔ x ∈ values := (List.mergeSort_perm _ _).mem_iff
    constructor
    · simpa only [hmem] using isLeast_getElem_zero hl hmin
    · exact isNearestRank_percentile (by norm_num) (by norm_num) h₅₀
    · exact isNearestRank_percentile (by norm_num) (by norm_num) h₉₀
    · exact isNearestRank_percentile (by norm_num) (by norm_num) h₉₅
    · exact isNearestRank_percentile (by norm_num) (by norm_num) h₉₉
    · simpa only [hmem] using isGreatest_getElem_last hl hmax
  have hordered : v.Ordered := by
    constructor
    · exact getElem?_mono hl (Nat.zero_le _) hmin h₅₀
    · exact percentile_mono hl (by norm_num) h₅₀ h₉₀
    · exact percentile_mono hl (by norm_num) h₉₀ h₉₅
    · exact percentile_mono hl (by norm_num) h₉₅ h₉₉
    · exact getElem?_mono hl (Nat.le_sub_one_of_lt (index_lt hpos 99)) h₉₉ hmax
  have hempty : values.isEmpty = false := by simpa using hne
  have hreport : ∃ r, calculatePercentiles sqrt values = some r ∧ r.Rounds v := by
    simp only [calculatePercentiles, hempty, hmin, h₅₀, h₉₀, h₉₅, h₉₉, hmax, Option.bind_eq_bind,
      Option.bind_some]
    exact ⟨_, rfl, rfl, rfl, rfl, rfl, rfl, rfl⟩
  obtain ⟨r, hr, hrounds⟩ := hreport
  exact ⟨v, r, hselects, hordered, hr, hrounds⟩

/-- What the published report rests on. -/
structure NearestRank : Prop where
  index_lt (n : ℕ) (p : ℚ) : 0 < n → 0 < p → p ≤ 100 → index n p < n ∧ (index n p : Int) = ⌈p / 100 * n⌉ - 1
  least (values : List ℚ) (p : ℚ) : values ≠ [] → 0 < p → p ≤ 100 →
    ∃ v, percentile values.mergeSort p = some v ∧ IsNearestRank values p v
  /-- The report never fails; its fields are the selected values, rounded, and in order before the rounding
  and after it. -/
  reported (sqrt : ℚ → ℚ) (values : List ℚ) : values ≠ [] →
    ∃ v r, Selects values v ∧ v.Ordered ∧ calculatePercentiles sqrt values = some r ∧ r.Rounds v ∧ r.Ordered
  empty (sqrt : ℚ → ℚ) : ∃ r, calculatePercentiles sqrt [] = some r ∧ r.Ordered
  order_free (sqrt : ℚ → ℚ) (values values' : List ℚ) : values.Perm values' →
    calculatePercentiles sqrt values = calculatePercentiles sqrt values'

theorem nearestRank : NearestRank where
  index_lt n p hn hp hp' := ⟨Percentiles.index_lt hn p, eq_sub_of_add_eq (index_add_one hn hp hp')⟩
  least values p hne hp hp' := by
    obtain ⟨v, hv⟩ := exists_percentile (mergeSort_ne_nil hne) p
    exact ⟨v, hv, isNearestRank_percentile hp hp' hv⟩
  reported sqrt values hne := by
    obtain ⟨v, r, hselects, hordered, hr, hrounds⟩ := exists_selected sqrt hne
    exact ⟨v, r, hselects, hordered, hr, hrounds, hrounds.ordered hordered⟩
  empty _ := ⟨{}, rfl, le_rfl, le_rfl, le_rfl, le_rfl, le_rfl⟩
  order_free _ _ _ := calculatePercentiles_congr

end Percentiles
end DistribuQ
