import DistribuQ.Proofs.Queues

/-! What a promotion moves, in which order it is delivered, and how promotions compose. -/

namespace DistribuQ
namespace Redis
variable {r r' : Redis} {q : Queue} {n n' : Time} {j : Uuid}

/-- What the next `k` pops from the right end of a list deliver. -/
def rpops (q : Queue) : ℕ → Redis → List Uuid
  | 0, _ => []
  | k + 1, r =>
    match r.rpop q with
    | (r', some j) => j :: rpops q k r'
    | (_, none) => []

theorem rpops_succ_of_some (k : ℕ) (h : r.rpop q = (r', some j)) : rpops q (k + 1) r = j :: rpops q k r' := by
  simp only [rpops, h]

theorem rpops_succ_of_none (k : ℕ) (h : r.rpop q = (r', none)) : rpops q (k + 1) r = [] := by
  simp only [rpops, h]

/-- A list that is pushed at its left end is delivered from its right end. -/
theorem rpops_eq (k : ℕ) (r : Redis) : rpops q k r = ((r.lists q).reverse).take k := by
  induction k generalizing r with
  | zero => rw [rpops, List.take_zero]
  | succ k ih =>
    cases h : r.rpop q with
    | mk r' o =>
      cases o with
      | none => rw [rpops_succ_of_none k h, lists_of_rpop_eq_none h, List.reverse_nil, List.take_nil]
      | some j =>
        rw [rpops_succ_of_some k h, ih, (rpop_eq_some h).1, List.reverse_append, List.reverse_singleton,
          List.singleton_append, List.take_succ_cons]

theorem promoteScheduled_eq (r : Redis) (q : Queue) (n : Time) : r.promoteScheduled q n =
    ({ r.setList q ((r.scheduled.rangeTo n).reverse ++ r.lists q) with scheduled := r.scheduled.above n },
      r.scheduled.rangeTo n) := by
  unfold promoteScheduled
  dsimp only
  rw [foldl_promote, SortedSet.foldl_remove_rangeTo]

theorem lists_promoteScheduled (r : Redis) (q : Queue) (n : Time) : (r.promoteScheduled q n).1.lists =
    Function.update r.lists q ((r.scheduled.rangeTo n).reverse ++ r.lists q) := by
  rw [promoteScheduled_eq]
  rfl

/-- A promotion after an earlier one does what it would have done alone. -/
theorem promoteScheduled_promoteScheduled (r : Redis) (q : Queue) (h : n ≤ n') :
    ((r.promoteScheduled q n).1.promoteScheduled q n').1 = (r.promoteScheduled q n').1 ∧
      (r.promoteScheduled q n').2 =
        (r.promoteScheduled q n).2 ++ ((r.promoteScheduled q n).1.promoteScheduled q n').2 := by
  have hrange := r.scheduled.rangeTo_eq_append h
  have habove := r.scheduled.above_above h
  simp only [promoteScheduled_eq]
  refine ⟨?_, hrange⟩
  rw [habove, hrange]
  simp only [setList, Function.update_self, Function.update_idem, List.reverse_append, List.append_assoc]

/-- Nothing is due at the time of a promotion that has just been made. -/
theorem promoteScheduled_self (r : Redis) (q : Queue) (n : Time) :
    (r.promoteScheduled q n).1.promoteScheduled q n = ((r.promoteScheduled q n).1, []) := by
  obtain ⟨hsame, happend⟩ := promoteScheduled_promoteScheduled r q (le_refl n)
  refine Prod.ext (hsame.trans rfl) ?_
  simpa only [List.self_eq_append_right] using happend

/-- `promote_due_scheduled_jobs` moves exactly what is due, once, and the jobs that wait already are delivered
before it; how often it is polled makes no difference. -/
theorem promoteScheduled_exact (r : Redis) (target : Queue) (n : Time) :
    let r' := (r.promoteScheduled target n).1
    let promoted := (r.promoteScheduled target n).2
    let due := r.scheduled.entries.filter fun e => e.2 ≤ n
    r'.scheduled.entries = r.scheduled.entries.filter (fun e => n < e.2) ∧
      promoted = due.map Prod.fst ∧ due.Pairwise ScoreLe ∧ promoted.Nodup ∧
      r'.lists target = promoted.reverse ++ r.lists target ∧ (∀ q ≠ target, r'.lists q = r.lists q) ∧
      r'.processing = r.processing ∧ r'.events = r.events ∧
      (∀ k, rpops target k r' = ((r.lists target).reverse ++ promoted).take k) ∧
      (∀ n', n ≤ n' → (r'.promoteScheduled target n').1 = (r.promoteScheduled target n').1 ∧
        (r.promoteScheduled target n').2 = promoted ++ (r'.promoteScheduled target n').2) ∧
      r'.promoteScheduled target n = (r', []) := by
  dsimp only
  have hlists : (r.promoteScheduled target n).1.lists target =
      (r.promoteScheduled target n).2.reverse ++ r.lists target := by
    rw [lists_promoteScheduled, Function.update_self]
    rfl
  refine ⟨?_, rfl, ?_, r.scheduled.nodup_rangeTo n, hlists, ?_, ?_, ?_, ?_, ?_, promoteScheduled_self r target n⟩
  · rw [promoteScheduled_eq]
    rfl
  · exact r.scheduled.sorted.sublist List.filter_sublist
  · intro q hq
    rw [lists_promoteScheduled, Function.update_of_ne hq]
  · rw [promoteScheduled_eq]
    rfl
  · rw [promoteScheduled_eq]
    rfl
  · intro k
    rw [rpops_eq, hlists, List.reverse_append, List.reverse_reverse]
  · intro n' h
    exact promoteScheduled_promoteScheduled r target h

end Redis
end DistribuQ
