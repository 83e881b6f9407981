import DistribuQ.Library.Transition

/-! Linearization of one call in a run: an operation whose moves lie among those of others takes effect, and
gets its answer, at one moment between its first move and its last. -/

namespace Transition
variable {S A D R : Type*}

/-- Among the moves of `tr` there is one before which the atomic operation would give the answer `r`, and on
`view` the moves of the call have together just the effect that it would have there. -/
def Linearizes (own : A → Prop) (view : S → D) (atomic : S → D × R) (step : S → A → Option S)
    (tr : List (S × A)) (r : R) : Prop :=
  ∃ (i : ℕ) (x : S × A), tr[i]? = some x ∧ (atomic x.1).2 = r ∧ (¬ own x.2 → (atomic x.1).1 = view x.1) ∧
    ∀ (k : ℕ) (y : S × A), tr[k]? = some y → own y.2 →
      (step y.1 y.2).map view = some (if k = i then (atomic y.1).1 else view y.1)

variable {own : A → Prop} {view : S → D} {atomic : S → D × R} {step : S → A → Option S}
  {tr : List (S × A)} {s s' : S} {a : A} {r : R}

/-- A call whose last move does all that the operation does is linearized there. -/
theorem Linearizes.of_last (htr : ∀ y ∈ tr, own y.2 → (step y.1 y.2).map view = some (view y.1))
    (ha : own a) (hs : step s a = some s') (h : atomic s = (view s', r)) :
    Linearizes own view atomic step (tr ++ [(s, a)]) r := by
  refine ⟨tr.length, (s, a), List.getElem?_concat_length, congrArg Prod.snd h, absurd ha, fun k y hy hown => ?_⟩
  rcases getElem?_append_cases hy with hy | ⟨rfl, rfl⟩
  · have hlt : k < tr.length := (List.getElem?_eq_some_iff.mp hy).1
    rw [if_neg (Nat.ne_of_lt hlt)]
    exact htr y (List.mem_of_getElem? hy) hown
  · rw [if_pos rfl, hs, Option.map_some]
    exact congrArg some (congrArg Prod.fst h).symm

/-- An answer that the operation never gives is no answer of a linearized call. -/
theorem Linearizes.exists_answer (h : Linearizes own view atomic step tr r) : ∃ x ∈ tr, (atomic x.1).2 = r := by
  obtain ⟨i, x, hx, hr, _⟩ := h
  exact ⟨x, List.mem_of_getElem? hx, hr⟩

end Transition
