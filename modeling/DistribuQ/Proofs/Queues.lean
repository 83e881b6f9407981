import DistribuQ.Proofs.Tokens

/-! What the Redis commands do to the ready lists, the scheduled set and `queue:processing`. -/

namespace DistribuQ
namespace Redis
variable {r r' : Redis} {q q' : Queue} {i j : Uuid}

theorem lists_setList (l : List Uuid) : (r.setList q l).lists = Function.update r.lists q l := rfl

theorem rpop_eq_some (h : r.rpop q = (r', some j)) : r.lists q = r'.lists q ++ [j] ∧
    r' = r.setList q (r.lists q).dropLast := by
  unfold rpop at h
  split at h
  · cases h
  · rename_i i hi
    cases h
    refine ⟨?_, rfl⟩
    rw [lists_setList, Function.update_self]
    exact (List.dropLast_append_getLast? j hi).symm

theorem rpop_eq_none (h : r.rpop q = (r', none)) : r' = r := by
  unfold rpop at h
  split at h <;> cases h
  rfl

theorem rpoplpush_eq_some (h : r.rpoplpush q = (r', some j)) :
    ∃ r₁, r.rpop q = (r₁, some j) ∧ r' = r₁.lpushProcessing j := by
  unfold rpoplpush at h
  split at h
  · cases h
  · rename_i r₁ i hr
    cases h
    exact ⟨r₁, hr, rfl⟩

theorem rpoplpush_eq_none (h : r.rpoplpush q = (r', none)) : r' = r := by
  unfold rpoplpush at h
  split at h
  · rename_i r₁ hr
    cases h
    exact rpop_eq_none hr
  · cases h

theorem brpop_eq_some {qs : List Queue} (h : r.brpop qs = (r', some (q, j))) : r.rpop q = (r', some j) := by
  induction qs with
  | nil => cases h
  | cons q' qs ih =>
    unfold brpop at h
    split at h
    · rename_i hr
      cases h
      exact hr
    · exact ih h

theorem brpop_eq_none {qs : List Queue} (h : r.brpop qs = (r', none)) : r' = r := by
  induction qs with
  | nil => cases h; rfl
  | cons q' qs ih =>
    unfold brpop at h
    split at h
    · cases h
    · exact ih h

theorem mem_lists_of_rpop {o : Option Uuid} (h : r.rpop q' = (r', o)) (hi : i ∈ r'.lists q) :
    i ∈ r.lists q := by
  cases o with
  | none =>
    rwa [rpop_eq_none h] at hi
  | some j =>
    obtain ⟨_, rfl⟩ := rpop_eq_some h
    rw [lists_setList] at hi
    by_cases hq : q = q'
    · subst hq
      rw [Function.update_self] at hi
      exact List.mem_of_mem_dropLast hi
    · rwa [Function.update_of_ne hq] at hi

theorem mem_lists_of_rpoplpush {o : Option Uuid} (h : r.rpoplpush q' = (r', o)) (hi : i ∈ r'.lists q) :
    i ∈ r.lists q := by
  cases o with
  | none => rwa [rpoplpush_eq_none h] at hi
  | some j =>
    obtain ⟨r₁, hr, rfl⟩ := rpoplpush_eq_some h
    exact mem_lists_of_rpop hr hi

theorem mem_lists_of_brpop {qs : List Queue} {o : Option (Queue × Uuid)} (h : r.brpop qs = (r', o))
    (hi : i ∈ r'.lists q) : i ∈ r.lists q := by
  rcases o with _ | ⟨q', j⟩
  · rwa [brpop_eq_none h] at hi
  · exact mem_lists_of_rpop (brpop_eq_some h) hi

theorem mem_of_rpop (h : r.rpop q = (r', some j)) : j ∈ r.lists q := by
  rw [(rpop_eq_some h).1]
  exact List.mem_append_right _ (List.mem_singleton_self j)

theorem scheduled_rpop {o : Option Uuid} (h : r.rpop q = (r', o)) : r'.scheduled = r.scheduled := by
  cases o with
  | none => rw [rpop_eq_none h]
  | some j => rw [(rpop_eq_some h).2, setList]

theorem scheduled_rpoplpush {o : Option Uuid} (h : r.rpoplpush q = (r', o)) :
    r'.scheduled = r.scheduled := by
  cases o with
  | none => rw [rpoplpush_eq_none h]
  | some j =>
    obtain ⟨r₁, hr, rfl⟩ := rpoplpush_eq_some h
    exact (scheduled_rpop hr :)

theorem scheduled_brpop {qs : List Queue} {o : Option (Queue × Uuid)} (h : r.brpop qs = (r', o)) :
    r'.scheduled = r.scheduled := by
  rcases o with _ | ⟨q', j⟩
  · rw [brpop_eq_none h]
  · exact scheduled_rpop (brpop_eq_some h)

theorem processing_rpop {o : Option Uuid} (h : r.rpop q = (r', o)) : r'.processing = r.processing := by
  cases o with
  | none => rw [rpop_eq_none h]
  | some j => rw [(rpop_eq_some h).2, setList]

theorem processing_brpop {qs : List Queue} {o : Option (Queue × Uuid)} (h : r.brpop qs = (r', o)) :
    r'.processing = r.processing := by
  rcases o with _ | ⟨q', j⟩
  · rw [brpop_eq_none h]
  · exact processing_rpop (brpop_eq_some h)

theorem processing_rpoplpush :
    (r.rpoplpush q).1.processing = (r.rpoplpush q).2.toList ++ r.processing := by
  generalize h : r.rpoplpush q = x
  obtain ⟨r', o⟩ := x
  cases o with
  | none =>
    rw [rpoplpush_eq_none h]
    rfl
  | some j =>
    obtain ⟨r₁, hr, rfl⟩ := rpoplpush_eq_some h
    exact congrArg (j :: ·) (processing_rpop hr)

theorem lists_of_rpop_eq_none (h : r.rpop q = (r', none)) : r.lists q = [] := by
  unfold rpop at h
  split at h
  · rename_i hl
    exact List.getLast?_eq_none_iff.mp hl
  · cases h

/-- The loop of `PROMOTE_SCHEDULED_LUA`, over whatever ids. -/
theorem foldl_promote (js : List Uuid) (r : Redis) :
    js.foldl (fun r j => (r.zrem j).lpush q j) r =
      { r.setList q (js.reverse ++ r.lists q) with scheduled := js.foldl SortedSet.remove r.scheduled } := by
  induction js generalizing r with
  | nil => simp [setList]
  | cons j js ih =>
    rw [List.foldl_cons, ih]
    simp [lpush, zrem, setList]

theorem promote_eq (js : List Uuid) (r : Redis) : let r' := js.foldl (fun r j => (r.zrem j).lpush q j) r
    r'.lists = Function.update r.lists q (js.reverse ++ r.lists q) ∧
      r'.scheduled = js.foldl SortedSet.remove r.scheduled ∧ r'.processing = r.processing := by
  dsimp only
  rw [foldl_promote]
  exact ⟨rfl, rfl, rfl⟩

end Redis

namespace Call
variable {env : Env} {ch : Choice} {st st' : Store} {c : Call} {q : Queue} {j : Uuid}

/-- An id comes into a ready list by a push or a promotion. -/
theorem mem_lists_of_run {x : c.Ret} (h : c.run env ch st = some (st', x)) (hj : j ∈ st'.redis.lists q) :
    j ∈ st.redis.lists q ∨ c.token? = some (.push q j) ∨
      ∃ t, c = .promoteScheduled q t ∧ j ∈ st.redis.scheduled.rangeTo t := by
  have hset {q' : Queue} {l : List Uuid} (hj : j ∈ (st.redis.setList q' l).lists q)
      (hl : q' = q → j ∈ l → j ∈ st.redis.lists q ∨ c.token? = some (.push q j)) :
      j ∈ st.redis.lists q ∨ c.token? = some (.push q j) := by
    rw [Redis.lists_setList] at hj
    by_cases hq : q' = q
    · subst hq
      rw [Function.update_self] at hj
      exact hl rfl hj
    · rw [Function.update_of_ne (Ne.symm hq)] at hj
      exact .inl hj
  cases c <;> simp only [run, Option.some.injEq, Option.map_eq_some_iff, Prod.exists] at h
  case lpush q' i =>
    cases h
    refine (hset hj fun hq hi => ?_).imp_right .inl
    subst hq
    rcases List.mem_cons.mp hi with rfl | hi
    · exact .inr rfl
    · exact .inl hi
  case rpush q' i =>
    cases h
    refine (hset hj fun hq hi => ?_).imp_right .inl
    subst hq
    rcases List.mem_append.mp hi with hi | hi
    · exact .inl hi
    · cases List.mem_singleton.mp hi
      exact .inr rfl
  case lrem q' i =>
    cases h
    refine (hset hj fun hq hi => ?_).imp_right .inl
    subst hq
    exact .inl (List.mem_of_mem_filter hi)
  case promoteScheduled q' t =>
    cases h
    obtain ⟨hl, _⟩ := Redis.promote_eq (q := q') (st.redis.scheduled.rangeTo t) st.redis
    have hj : j ∈ (Function.update st.redis.lists q' _) q := hl ▸ hj
    by_cases hq : q' = q
    · subst hq
      rw [Function.update_self] at hj
      rcases List.mem_append.mp hj with hj | hj
      · exact .inr (.inr ⟨t, rfl, List.mem_reverse.mp hj⟩)
      · exact .inl hj
    · rw [Function.update_of_ne (Ne.symm hq)] at hj
      exact .inl hj
  case rpoplpush =>
    cases h
    exact .inl (Redis.mem_lists_of_rpoplpush rfl hj)
  case brpop =>
    cases h
    exact .inl (Redis.mem_lists_of_brpop rfl hj)
  case scheduleNextOccurrence | createJob =>
    obtain ⟨_, _, _, h⟩ := h
    cases h
    exact .inl hj
  case moveToDeadLetter =>
    obtain ⟨_, _, h⟩ := h
    cases h
    exact .inl hj
  all_goals
    cases h
    exact .inl hj

theorem mem_scheduled_of_run {x : c.Ret} {e : Uuid × Time} (h : c.run env ch st = some (st', x))
    (he : e ∈ st'.redis.scheduled.entries) :
    e ∈ st.redis.scheduled.entries ∨ c.token? = some (.schedule e.1 e.2) := by
  cases c <;> simp only [run, Option.some.injEq, Option.map_eq_some_iff, Prod.exists] at h
  case zadd i t =>
    cases h
    rcases SortedSet.mem_entries_add.mp he with rfl | ⟨he, _⟩
    · exact .inr rfl
    · exact .inl he
  case zrem i =>
    cases h
    exact .inl (SortedSet.mem_entries_remove.mp he).1
  case promoteScheduled q' t =>
    cases h
    obtain ⟨_, hs, _⟩ := Redis.promote_eq (q := q') (st.redis.scheduled.rangeTo t) st.redis
    have he : e ∈ (List.foldl SortedSet.remove st.redis.scheduled _).entries := hs ▸ he
    exact .inl (SortedSet.mem_entries_foldl_remove.mp he).1
  case rpoplpush q' =>
    cases h
    have hs : (st.redis.rpoplpush q').1.scheduled = st.redis.scheduled := Redis.scheduled_rpoplpush rfl
    exact .inl (hs ▸ he)
  case brpop qs =>
    cases h
    have hs : (st.redis.brpop qs).1.scheduled = st.redis.scheduled := Redis.scheduled_brpop rfl
    exact .inl (hs ▸ he)
  case scheduleNextOccurrence | createJob =>
    obtain ⟨_, _, _, h⟩ := h
    cases h
    exact .inl he
  case moveToDeadLetter =>
    obtain ⟨_, _, h⟩ := h
    cases h
    exact .inl he
  all_goals
    cases h
    exact .inl he

theorem processing_of_run {x : c.Ret} (h : c.run env ch st = some (st', x)) (hc : c.tracks = false) :
    st'.redis.processing = st.redis.processing := by
  cases c <;> simp only [run, Option.some.injEq, Option.map_eq_some_iff, Prod.exists] at h
  case rpoplpush | lpushProcessing | lremProcessing => cases hc
  case brpop =>
    cases h
    exact Redis.processing_brpop rfl
  case promoteScheduled q t =>
    cases h
    exact (Redis.promote_eq (q := q) (st.redis.scheduled.rangeTo t) st.redis).2.2
  case scheduleNextOccurrence | createJob =>
    obtain ⟨_, _, _, h⟩ := h
    cases h
    rfl
  case moveToDeadLetter =>
    obtain ⟨_, _, h⟩ := h
    cases h
    rfl
  all_goals
    cases h
    rfl

theorem mem_lists_of_reserved (h : run env ch st (.rpoplpush q) = some (st', some j)) :
    j ∈ st.redis.lists q := by
  simp only [run, Option.some.injEq, Prod.mk.injEq] at h
  obtain ⟨r₁, hr, _⟩ := Redis.rpoplpush_eq_some (Prod.ext rfl h.2)
  exact Redis.mem_of_rpop hr

theorem mem_lists_of_popped {qs : List Queue} (h : run env ch st (.brpop qs) = some (st', some (q, j))) :
    j ∈ st.redis.lists q := by
  simp only [run, Option.some.injEq, Prod.mk.injEq] at h
  exact Redis.mem_of_rpop (Redis.brpop_eq_some (Prod.ext rfl h.2))

end Call
end DistribuQ
