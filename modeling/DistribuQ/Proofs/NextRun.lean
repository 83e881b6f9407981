import Mathlib.Order.Interval.Set.UnorderedInterval
import DistribuQ.Proofs.Dispatch

/-! The next run of a rule against the instant it is computed from: `croniter` is given the wall clock of
`after`, and what it returns is taken for UTC. -/

/-- The first time after one start is the first after another when none lies between the two. -/
theorem isLeast_iff_of_uIoc {α : Type*} [LinearOrder α] {p : α → Prop} {a b n : α}
    (h : IsLeast {m | p m ∧ b < m} n) : IsLeast {m | p m ∧ a < m} n ↔ ∀ m ∈ Set.uIoc a b, ¬ p m := by
  obtain ⟨⟨hn, hbn⟩, hleast⟩ := h
  constructor
  · rintro ⟨⟨-, han⟩, hleast'⟩ m hm hp
    rcases Set.mem_uIoc.mp hm with ⟨ham, hmb⟩ | ⟨hbm, hma⟩
    · exact absurd (hleast' ⟨hp, ham⟩) (not_le.mpr (hmb.trans_lt hbn))
    · exact absurd (hleast ⟨hp, hbm⟩) (not_le.mpr (hma.trans_lt han))
  · intro hnone
    have han : a < n := by
      by_contra hna
      exact hnone n (Set.mem_uIoc.mpr (.inr ⟨hbn, not_lt.mp hna⟩)) hn
    refine ⟨⟨hn, han⟩, fun m ⟨hp, ham⟩ => ?_⟩
    by_contra hmn
    refine hnone m (Set.mem_uIoc.mpr (.inl ⟨ham, ?_⟩)) hp
    by_contra hmb
    exact hmn (hleast ⟨hp, not_le.mp hmb⟩)

namespace DistribuQ
open Recurrence

/-- `get_next` returns the first time after the start that the rule matches. -/
def Croniter.First (cron : Croniter) (isMatch : String → Time → Prop) : Prop :=
  ∀ rule start next, cron.getNext rule start = some next → IsLeast {m | isMatch rule m ∧ start < m} next

namespace Recurrence

/-- `compute_next_run` again and again, each time from its last result. -/
def nextRuns (cron : Croniter) (now : DateTime) (rule : String) : Nat → DateTime → Except PyException DateTime
  | 0, after => .ok after
  | n + 1, after => computeNextRun cron now rule (some after) >>= nextRuns cron now rule n

/-- The next runs of a rule after one instant that is written with two offsets. -/
structure MovesForward (cron : Croniter) (isMatch : String → Time → Prop) (rule : String)
    (after after' next next' : DateTime) : Prop where
  later : after.instant < next.instant
  same : next'.instant = next.instant
  interval : every <+: Text.strip rule.toList → ∃ d, parseInterval rule = .ok (some d) ∧
    next = ⟨after.wall + d, after.utcOffset⟩ ∧ ∀ (now : DateTime) (n : Nat), after.InRange (n * d) →
      nextRuns cron now rule n after = .ok ⟨after.wall + n * d, after.utcOffset⟩
  cron : ¬ every <+: Text.strip rule.toList →
    IsLeast {m | isMatch (String.ofList (Text.strip rule.toList)) m ∧ after.instant < m} next.instant

/-- The rule matches no time between an instant and what the clock shows then. -/
def Unmatched (isMatch : String → Time → Prop) (rule : String) (d : DateTime) : Prop :=
  ∀ m ∈ Set.uIoc d.instant d.wall, ¬ isMatch (String.ofList (Text.strip rule.toList)) m

section
variable {cron : Croniter} {isMatch : String → Time → Prop} {rule : String} {d : Time}
  {now now' after after' next next' : DateTime}

theorem instant_add (hnext : next = ⟨after.wall + d, after.utcOffset⟩) : next.instant = after.instant + d := by
  subst hnext
  exact add_sub_right_comm _ _ _

theorem pos_of_parseInterval (h : parseInterval rule = .ok (some d)) : 0 < d := by
  obtain ⟨x, -, hx⟩ := parseInterval_eq_some.mp h
  obtain ⟨_, _, _, _, -, -, -, -, -, hpos⟩ := intervalOf_eq_ok.mp hx
  exact hpos

theorem isLeast_of_computeNextRun (hcron : cron.First isMatch) (hevery : ¬ every <+: Text.strip rule.toList)
    (h : computeNextRun cron now rule (some after) = .ok next) :
    IsLeast {m | isMatch (String.ofList (Text.strip rule.toList)) m ∧ after.wall < m} next.instant := by
  unfold computeNextRun at h
  dsimp only at h
  rw [if_neg hevery, nextRunFromCron] at h
  split_ifs at h
  split at h
  · next hnext =>
    cases h
    rw [DateTime.instant, Option.getD_some, sub_zero]
    exact hcron _ _ _ hnext
  · cases h

theorem nextRuns_interval (hevery : every <+: Text.strip rule.toList) (hd : parseInterval rule = .ok (some d))
    {n : Nat} (hfirst : Retry.datetimeMin ≤ after.wall + d) (hlast : after.InRange (n * d)) :
    nextRuns cron now rule n after = .ok ⟨after.wall + n * d, after.utcOffset⟩ := by
  have hpos : 0 < d := pos_of_parseInterval hd
  induction n generalizing after with
  | zero => simp [nextRuns]
  | succ n ih =>
    have hsum : after.wall + d + n * d = after.wall + (n + 1 : Nat) * d := by
      push_cast
      ring
    have hrest : 0 ≤ n * d := mul_nonneg (Int.natCast_nonneg n) hpos.le
    obtain ⟨hmin, hmax⟩ := hlast
    rw [← hsum] at hmin hmax
    have hnext : computeNextRun cron now rule (some after) = .ok ⟨after.wall + d, after.utcOffset⟩ :=
      (computeNextRun_of_every hevery).mpr
        ⟨d, hd, add_eq_ok.mpr ⟨⟨hfirst, (le_add_of_nonneg_right hrest).trans hmax⟩, rfl⟩⟩
    rw [nextRuns, hnext, ← hsum]
    have hfirst' : Retry.datetimeMin ≤ after.wall + d + d := by linarith
    exact @ih ⟨after.wall + d, after.utcOffset⟩ hfirst' ⟨hmin, hmax⟩

end

/-- For a cron rule this holds where the rule matches no time between the instant and the wall clock. -/
theorem movesForward_iff {cron : Croniter} {isMatch : String → Time → Prop} {rule : String}
    {now now' after after' next next' : DateTime} (hcron : cron.First isMatch)
    (hinstant : after'.instant = after.instant)
    (h : computeNextRun cron now rule (some after) = .ok next)
    (h' : computeNextRun cron now' rule (some after') = .ok next') :
    MovesForward cron isMatch rule after after' next next' ↔
      every <+: Text.strip rule.toList ∨ Unmatched isMatch rule after ∧ Unmatched isMatch rule after' := by
  by_cases hevery : every <+: Text.strip rule.toList
  · refine iff_of_true ?_ (.inl hevery)
    obtain ⟨d, hd, hadd⟩ := (computeNextRun_of_every hevery).mp h
    obtain ⟨d', hd', hadd'⟩ := (computeNextRun_of_every hevery).mp h'
    obtain rfl : d' = d := by
      rw [hd] at hd'
      cases hd'
      rfl
    rw [Option.getD_some] at hadd hadd'
    obtain ⟨hrange, hnext⟩ := add_eq_ok.mp hadd
    obtain ⟨-, hnext'⟩ := add_eq_ok.mp hadd'
    have hpos : 0 < d' := pos_of_parseInterval hd
    refine ⟨?_, ?_, fun _ => ⟨d', hd, hnext, fun now n hlast => nextRuns_interval hevery hd hrange.1 hlast⟩,
      fun hnot => absurd hevery hnot⟩
    · rw [instant_add hnext]
      exact lt_add_of_pos_right _ hpos
    · rw [instant_add hnext, instant_add hnext', hinstant]
  · have hleast := isLeast_of_computeNextRun hcron hevery h
    have hleast' := isLeast_of_computeNextRun hcron hevery h'
    have hfirst := isLeast_iff_of_uIoc (a := after.instant) hleast
    have hfirst' := isLeast_iff_of_uIoc (a := after'.instant) hleast'
    constructor
    · intro hmoves
      have hnext := hmoves.cron hevery
      refine .inr ⟨hfirst.mp hnext, hfirst'.mp ?_⟩
      rwa [hinstant, hmoves.same]
    · rintro (hpos | ⟨hnone, hnone'⟩)
      · exact absurd hpos hevery
      · have hnext := hfirst.mpr hnone
        have hnext' := hfirst'.mpr hnone'
        rw [hinstant] at hnext'
        exact ⟨hnext.1.2, hnext'.unique hnext, fun hpos => absurd hpos hevery, fun _ => hnext⟩

theorem isLeast_dvd {k : ℤ} (hk : 0 < k) (a : ℤ) : IsLeast {m | k ∣ m ∧ a < m} ((a / k + 1) * k) := by
  refine ⟨⟨dvd_mul_left _ _, Int.lt_ediv_add_one_mul_self a hk⟩, ?_⟩
  rintro _ ⟨⟨c, rfl⟩, hlt⟩
  rw [mul_comm]
  exact mul_le_mul_of_nonneg_left (Int.ediv_lt_of_lt_mul hk (mul_comm k c ▸ hlt)) hk.le

theorem everyMinute_first :
    everyMinute.First fun rule m => rule = "* * * * *" ∧ (60000000 : Int) ∣ m := by
  intro rule start next h
  change (if rule = "* * * * *" then some ((start / 60000000 + 1) * 60000000) else none) = some next at h
  by_cases hrule : rule = "* * * * *"
  · rw [if_pos hrule] at h
    cases h
    obtain ⟨⟨hdvd, hlt⟩, hleast⟩ := isLeast_dvd (k := 60000000) (by decide) start
    exact ⟨⟨⟨hrule, hdvd⟩, hlt⟩, fun m hm => hleast ⟨hm.1.2, hm.2⟩⟩
  · rw [if_neg hrule] at h
    cases h

/-- Ten seconds past a minute, and the same instant half a minute later on the wall. -/
theorem movesForward_minute : MovesForward everyMinute (fun rule m => rule = "* * * * *" ∧ (60000000 : Int) ∣ m)
    "* * * * *" ⟨10000000, some 0⟩ ⟨40000000, some 30000000⟩ ⟨60000000, some 0⟩ ⟨60000000, some 0⟩ := by
  have hnext : computeNextRun everyMinute ⟨0, some 0⟩ "* * * * *" (some ⟨10000000, some 0⟩) =
      .ok ⟨60000000, some 0⟩ := rfl
  have hnext' : computeNextRun everyMinute ⟨0, some 0⟩ "* * * * *" (some ⟨40000000, some 30000000⟩) =
      .ok ⟨60000000, some 0⟩ := rfl
  have hinstant : DateTime.instant ⟨40000000, some 30000000⟩ = DateTime.instant ⟨10000000, some 0⟩ := rfl
  refine (movesForward_iff everyMinute_first hinstant hnext hnext').mpr (.inr ⟨?_, ?_⟩)
  · rintro m hm -
    have hself : m ∈ Set.uIoc (10000000 : Int) 10000000 := hm
    simp at hself
  · rintro m hm ⟨-, k, rfl⟩
    have hbetween : (60000000 * k : Int) ∈ Set.uIoc (10000000 : Int) 40000000 := hm
    rw [Set.mem_uIoc] at hbetween
    omega

/-- Noon five hours behind UTC: the next run is at one minute past noon in UTC. -/
theorem not_movesForward : ¬ ∀ (cron : Croniter) (isMatch : String → Time → Prop) (rule : String)
    (now now' after after' next next' : DateTime), cron.First isMatch → after.utcOffset.isSome →
    after'.utcOffset.isSome → after'.instant = after.instant →
    computeNextRun cron now rule (some after) = .ok next →
      computeNextRun cron now' rule (some after') = .ok next' →
    MovesForward cron isMatch rule after after' next next' := by
  intro h
  have hmoves := h everyMinute _ "* * * * *" ⟨0, some 0⟩ ⟨0, some 0⟩ ⟨43200000000, some (-18000000000)⟩
    ⟨43200000000, some (-18000000000)⟩ ⟨43260000000, some 0⟩ ⟨43260000000, some 0⟩
      everyMinute_first rfl rfl rfl rfl rfl
  exact absurd hmoves.later (by decide)

end Recurrence
end DistribuQ
