import DistribuQ.Model.Retry

/-! The delays between the attempts of a job, for any jitter. -/

namespace DistribuQ
namespace Retry
variable {attempt n m : Int} {b M : ℚ} {jitter jitter' : Bool} {u u' : Draw}

/-- The delay before an attempt without cap and jitter. -/
def uncapped (b : ℚ) (attempt : Int) : ℚ := b * 2 ^ (max attempt 1 - 1).toNat

/-- The jitter, as a factor. -/
def factor (jitter : Bool) (u : Draw) : ℚ := if jitter then 1 + u.val / 2 else 1

theorem one_le_factor : 1 ≤ factor jitter u := by
  have hu := u.nonneg
  unfold factor
  split_ifs <;> linarith

theorem factor_le : factor jitter u ≤ 3 / 2 := by
  have hu := u.le_one
  unfold factor
  split_ifs <;> linarith

theorem computeBackoffDelay_eq (attempt : Int) (b M : ℚ) (jitter : Bool) (u : Draw) :
    computeBackoffDelay attempt b M jitter u = min M (min M (uncapped b attempt) * factor jitter u) := by
  have hclamp : (if attempt < 1 then 1 else attempt) = max attempt 1 := by
    split_ifs <;> omega
  unfold computeBackoffDelay uniform uncapped factor
  dsimp only
  rw [hclamp]
  congr 1
  split_ifs <;> ring

theorem computeBackoffDelay_le : computeBackoffDelay attempt b M jitter u ≤ M := by
  rw [computeBackoffDelay_eq]
  exact min_le_left _ _

theorem uncapped_nonneg (hb : 0 ≤ b) : 0 ≤ uncapped b attempt := by
  unfold uncapped
  positivity

/-- Every later attempt doubles the delay at least. -/
theorem two_mul_uncapped_le (hb : 0 ≤ b) (hn : 1 ≤ n) (h : n < m) : 2 * uncapped b n ≤ uncapped b m := by
  obtain ⟨k, hk⟩ : ∃ k, (max m 1 - 1).toNat = (max n 1 - 1).toNat + (k + 1) :=
    ⟨(m - n - 1).toNat, by omega⟩
  have hpow : (1 : ℚ) ≤ 2 ^ k := one_le_pow₀ one_le_two
  have hbn : 0 ≤ b * 2 ^ (max n 1 - 1).toNat := uncapped_nonneg hb
  unfold uncapped
  rw [hk]
  calc 2 * (b * 2 ^ (max n 1 - 1).toNat) = b * 2 ^ (max n 1 - 1).toNat * 2 * 1 := by ring
    _ ≤ b * 2 ^ (max n 1 - 1).toNat * 2 * 2 ^ k := mul_le_mul_of_nonneg_left hpow (by linarith)
    _ = b * 2 ^ ((max n 1 - 1).toNat + (k + 1)) := by ring

theorem le_computeBackoffDelay (hb : 0 ≤ b) (hM : 0 ≤ M) :
    min M (uncapped b attempt) ≤ computeBackoffDelay attempt b M jitter u := by
  have hd : 0 ≤ min M (uncapped b attempt) := le_min hM (uncapped_nonneg hb)
  rw [computeBackoffDelay_eq]
  exact le_min (min_le_left _ _) (le_mul_of_one_le_right hd one_le_factor)

theorem computeBackoffDelay_nonneg (hb : 0 ≤ b) (hM : 0 ≤ M) : 0 ≤ computeBackoffDelay attempt b M jitter u :=
  (le_min hM (uncapped_nonneg hb)).trans (le_computeBackoffDelay hb hM)

theorem computeBackoffDelay_le_jitter (hb : 0 ≤ b) (hM : 0 ≤ M) :
    computeBackoffDelay attempt b M jitter u ≤ min M (3 / 2 * uncapped b attempt) := by
  have hd : 0 ≤ min M (uncapped b attempt) := le_min hM (uncapped_nonneg hb)
  rw [computeBackoffDelay_eq]
  refine min_le_min le_rfl ?_
  calc min M (uncapped b attempt) * factor jitter u ≤ min M (uncapped b attempt) * (3 / 2) :=
        mul_le_mul_of_nonneg_left factor_le hd
    _ ≤ uncapped b attempt * (3 / 2) := mul_le_mul_of_nonneg_right (min_le_right _ _) (by norm_num)
    _ = 3 / 2 * uncapped b attempt := mul_comm _ _

/-- Half of a delay is less than what the next attempt adds to it. -/
theorem computeBackoffDelay_mono (hb : 0 ≤ b) (hM : 0 ≤ M) (hn : 1 ≤ n) (h : n < m) :
    computeBackoffDelay n b M jitter u ≤ computeBackoffDelay m b M jitter' u' := by
  have hdouble := two_mul_uncapped_le hb hn h
  have hpos : 0 ≤ uncapped b n := uncapped_nonneg hb
  calc computeBackoffDelay n b M jitter u ≤ min M (3 / 2 * uncapped b n) :=
        computeBackoffDelay_le_jitter hb hM
    _ ≤ min M (uncapped b m) := min_le_min le_rfl (by linarith)
    _ ≤ computeBackoffDelay m b M jitter' u' := le_computeBackoffDelay hb hM

theorem computeBackoffDelay_eq_max (hb : 0 ≤ b) (hM : 0 ≤ M) (h : M ≤ uncapped b attempt) :
    computeBackoffDelay attempt b M jitter u = M := by
  have hle : min M (uncapped b attempt) ≤ computeBackoffDelay attempt b M jitter u :=
    le_computeBackoffDelay hb hM
  rw [min_eq_left h] at hle
  exact le_antisymm computeBackoffDelay_le hle

theorem computeNextRetryAt_eq_some {base : Json} {now t : Time} :
    computeNextRetryAt now attempt base u = some t ↔ ∃ b, number? base = some b ∧ datetimeMin ≤ t ∧
      t = now + roundHalfEven (computeBackoffDelay attempt b 300 true u * 1000000) := by
  simp only [computeNextRetryAt, Option.bind_eq_bind, Option.bind_eq_some_iff, Option.ite_none_right_eq_some,
    Option.some.injEq]
  refine exists_congr fun b => and_congr_right fun _ => ?_
  constructor
  · rintro ⟨hmin, rfl⟩
    exact ⟨hmin, rfl⟩
  · rintro ⟨hmin, rfl⟩
    exact ⟨hmin, rfl⟩

theorem sub_of_computeNextRetryAt {base : Json} {now t : Time} (hbase : number? base = some b)
    (h : computeNextRetryAt now n base u = some t) :
    t - now = roundHalfEven (computeBackoffDelay n b 300 true u * 1000000) := by
  obtain ⟨_, hb, -, rfl⟩ := computeNextRetryAt_eq_some.mp h
  cases hbase.symm.trans hb
  exact add_sub_cancel_left _ _

/-- How long `compute_next_retry_at` waits does not shrink from one attempt to a later one. -/
theorem computeNextRetryAt_mono {base : Json} {now now' t t' : Time} (hbase : number? base = some b)
    (hb : 0 ≤ b) (hn : 1 ≤ n) (h : n < m) (ht : computeNextRetryAt now n base u = some t)
    (ht' : computeNextRetryAt now' m base u' = some t') : t - now ≤ t' - now' := by
  have hdelay : computeBackoffDelay n b 300 true u ≤ computeBackoffDelay m b 300 true u' :=
    computeBackoffDelay_mono hb (by norm_num) hn h
  rw [sub_of_computeNextRetryAt hbase ht, sub_of_computeNextRetryAt hbase ht']
  exact roundHalfEven_mono (mul_le_mul_of_nonneg_right hdelay (by norm_num))

/-- The delays grow with the attempts and stay within the cap, whatever the jitter. -/
structure BackoffGrows (b M : ℚ) : Prop where
  between (n : Int) (jitter : Bool) (u : Draw) :
    min M (b * 2 ^ (max n 1 - 1).toNat) ≤ computeBackoffDelay n b M jitter u ∧
      computeBackoffDelay n b M jitter u ≤ min M (3 / 2 * (b * 2 ^ (max n 1 - 1).toNat))
  mono (n m : Int) (jitter jitter' : Bool) (u u' : Draw) : 1 ≤ n → n < m →
    computeBackoffDelay n b M jitter u ≤ computeBackoffDelay m b M jitter' u'
  capped (n : Int) (jitter : Bool) (u : Draw) : 1 ≤ n → M ≤ b * 2 ^ (n - 1).toNat →
    computeBackoffDelay n b M jitter u = M
  /-- The attempts of a job whose payload sets the delay. -/
  retries (base : Json) (n m : Int) (now now' t t' : Time) (u u' : Draw) : number? base = some b →
    1 ≤ n → n < m → computeNextRetryAt now n base u = some t → computeNextRetryAt now' m base u' = some t' →
    t - now ≤ t' - now'

theorem backoffGrows (b M : ℚ) (hb : 0 ≤ b) (hM : 0 ≤ M) : BackoffGrows b M where
  between _ _ _ := ⟨le_computeBackoffDelay hb hM, computeBackoffDelay_le_jitter hb hM⟩
  mono _ _ _ _ _ _ hn h := computeBackoffDelay_mono hb hM hn h
  capped n _ _ hn h := by
    refine computeBackoffDelay_eq_max hb hM ?_
    rwa [uncapped, max_eq_left hn]
  retries _ _ _ _ _ _ _ _ _ hbase hn h ht ht' := computeNextRetryAt_mono hbase hb hn h ht ht'

/-- The defaults. -/
theorem backoffGrows_defaults : BackoffGrows 1 300 := backoffGrows 1 300 zero_le_one (by norm_num)

end Retry
end DistribuQ
