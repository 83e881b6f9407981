import DistribuQ.Library.Tally

/-! Runs of a deterministic step function under actions, restricted to the moves that a
predicate on state and action allows, and the induction rules for them. -/

namespace Transition
variable {S A : Type*}

/-- `Run ok step s₀ tr s`: from `s₀` the moves of `tr` lead to `s`; each entry of `tr` is an action
with the state it started from, and each satisfies `ok` there. -/
inductive Run (ok : S → A → Prop) (step : S → A → Option S) (s₀ : S) : List (S × A) → S → Prop
  | nil : Run ok step s₀ [] s₀
  | snoc {tr : List (S × A)} {s s' : S} {a : A} :
      Run ok step s₀ tr s → ok s a → step s a = some s' → Run ok step s₀ (tr ++ [(s, a)]) s'

def Reachable (ok : S → A → Prop) (step : S → A → Option S) (s₀ s : S) : Prop :=
  ∃ tr, Run ok step s₀ tr s

variable {ok ok' : S → A → Prop} {step : S → A → Option S} {s₀ s s' : S} {tr tr' : List (S × A)} {a : A}

theorem Reachable.refl : Reachable ok step s₀ s₀ := ⟨[], .nil⟩

theorem Reachable.next (h : Reachable ok step s₀ s) (ha : ok s a) (hs : step s a = some s') :
    Reachable ok step s₀ s' := by
  obtain ⟨tr, h⟩ := h
  exact ⟨_, h.snoc ha hs⟩

theorem Run.reachable (h : Run ok step s₀ tr s) : Reachable ok step s₀ s := ⟨tr, h⟩

theorem Run.append (h : Run ok step s₀ tr s) (h' : Run ok step s tr' s') :
    Run ok step s₀ (tr ++ tr') s' := by
  induction h' with
  | nil => simpa only [List.append_nil] using h
  | snoc _ ha hs ih =>
    rw [← List.append_assoc]
    exact ih.snoc ha hs

theorem Reachable.trans (h : Reachable ok step s₀ s) (h' : Reachable ok step s s') :
    Reachable ok step s₀ s' := by
  obtain ⟨_, h⟩ := h
  obtain ⟨_, h'⟩ := h'
  exact (h.append h').reachable

/-- What holds at the start and is kept by every allowed move holds at the end of a run. -/
theorem Run.invariant {I : S → Prop} (h : Run ok step s₀ tr s) (h₀ : I s₀)
    (hstep : ∀ s a s', I s → ok s a → step s a = some s' → I s') : I s := by
  induction h with
  | nil => exact h₀
  | snoc _ ha hs ih => exact hstep _ _ _ ih ha hs

theorem Reachable.invariant {I : S → Prop} (h : Reachable ok step s₀ s) (h₀ : I s₀)
    (hstep : ∀ s a s', I s → ok s a → step s a = some s' → I s') : I s := by
  obtain ⟨tr, h⟩ := h
  exact h.invariant h₀ hstep

/-- The same, where something is known already of every reachable state. -/
theorem Reachable.invariant_with {I J : S → Prop} (h : Reachable ok step s₀ s)
    (hJ : ∀ s, Reachable ok step s₀ s → J s) (h₀ : I s₀)
    (hstep : ∀ s a s', J s → I s → ok s a → step s a = some s' → I s') : I s := by
  obtain ⟨tr, h⟩ := h
  induction h with
  | nil => exact h₀
  | snoc h ha hs ih =>
    have hknown := hJ _ h.reachable
    exact hstep _ _ _ hknown ih ha hs

/-- The same for a relation between the moves made so far and the state they lead to. -/
theorem Run.invariant_trace {I : List (S × A) → S → Prop} (h : Run ok step s₀ tr s) (h₀ : I [] s₀)
    (hstep : ∀ tr s a s', Run ok step s₀ tr s → I tr s → ok s a → step s a = some s' →
      I (tr ++ [(s, a)]) s') : I tr s := by
  induction h with
  | nil => exact h₀
  | snoc h ha hs ih => exact hstep _ _ _ _ h ih ha hs

/-- A run whose moves satisfy `ok'` wherever an invariant holds is a run under `ok'`. -/
theorem Run.strengthen {I : S → Prop} (h : Run ok step s₀ tr s) (h₀ : I s₀)
    (hstep : ∀ s a s', I s → ok s a → step s a = some s' → I s')
    (hok : ∀ s a, I s → ok s a → ok' s a) : Run ok' step s₀ tr s := by
  induction h with
  | nil => exact .nil
  | snoc h ha hs ih =>
    -- the invariant holds where the last move starts, by the run up to it
    exact ih.snoc (hok _ _ (h.invariant h₀ hstep) ha) hs

theorem Run.mono (h : Run ok step s₀ tr s) (hok : ∀ s a, ok s a → ok' s a) :
    Run ok' step s₀ tr s :=
  h.strengthen (I := fun _ => True) trivial (fun _ _ _ _ _ _ => trivial) fun s a _ => hok s a

theorem Reachable.mono (h : Reachable ok step s₀ s) (hok : ∀ s a, ok s a → ok' s a) :
    Reachable ok' step s₀ s := by
  obtain ⟨tr, h⟩ := h
  exact (h.mono hok).reachable

theorem Run.of_forall_mem (h : Run ok step s₀ tr s) (hok : ∀ x ∈ tr, ok' x.1 x.2) :
    Run ok' step s₀ tr s := by
  induction h with
  | nil => exact .nil
  | snoc _ _ hs ih =>
    refine (ih fun x hx => hok x (List.mem_append_left _ hx)).snoc ?_ hs
    exact hok _ (List.mem_append_right _ List.mem_cons_self)

theorem Run.of_mem (h : Run ok step s₀ tr s) : ∀ x ∈ tr, ok x.1 x.2 ∧ ∃ s', step x.1 x.2 = some s' := by
  induction h with
  | nil => exact fun x hx => absurd hx List.not_mem_nil
  | snoc _ ha hs ih =>
    intro x hx
    rcases List.mem_append.mp hx with hx | hx
    · exact ih x hx
    · obtain rfl := List.mem_singleton.mp hx
      exact ⟨ha, _, hs⟩

/-- A run passes through the state in which each of its moves is made. -/
theorem Run.through (h : Run ok step s₀ tr s) {x : S × A} (hx : x ∈ tr) :
    Reachable ok step s₀ x.1 ∧ Reachable ok step x.1 s := by
  induction h with
  | nil => cases hx
  | snoc hrun ha hs ih =>
    rcases List.mem_append.mp hx with hx | hx
    · obtain ⟨hbefore, hafter⟩ := ih hx
      exact ⟨hbefore, hafter.next ha hs⟩
    · obtain rfl := List.mem_singleton.mp hx
      exact ⟨hrun.reachable, Reachable.refl.next ha hs⟩

def total (g : S → A → Nat) (tr : List (S × A)) : Nat := tally (fun x => g x.1 x.2) tr

/-- If every move balances a quantity of the state against two weights, so does a run. -/
theorem Run.balance {f : S → Nat} {g g' : S → A → Nat} (h : Run ok step s₀ tr s)
    (hstep : ∀ s a s', ok s a → step s a = some s' → f s' + g s a = f s + g' s a) :
    f s + total g tr = f s₀ + total g' tr := by
  induction h with
  | nil => rfl
  | snoc _ ha hs ih =>
    have := hstep _ _ _ ha hs
    simp only [total, tally_append, tally_cons, tally_nil] at ih ⊢
    omega

theorem Run.total_eq_zero {g : S → A → Nat} (h : Run ok step s₀ tr s) (hg : ∀ s a, ok s a → g s a = 0) :
    total g tr = 0 := by
  induction h with
  | nil => rfl
  | snoc _ ha _ ih =>
    have := hg _ _ ha
    simp only [total, tally_append, tally_cons, tally_nil] at ih ⊢
    omega

/-! Running a list of actions. -/

variable (ok step) [∀ s a, Decidable (ok s a)]

def exec : S → List A → Option S
  | s, [] => some s
  | s, a :: as => if ok s a then (step s a).bind fun s' => exec s' as else none

omit [∀ s a, Decidable (ok s a)] in
/-- The trace of a list of actions, up to the first that is not enabled. -/
def trace : S → List A → List (S × A)
  | _, [] => []
  | s, a :: as => (s, a) :: ((step s a).map fun s' => trace s' as).getD []

variable {ok step}

theorem run_exec {as : List A} (h : exec ok step s as = some s') :
    Run ok step s (trace step s as) s' := by
  induction as generalizing s with
  | nil =>
    obtain rfl : s = s' := by simpa only [exec, Option.some.injEq] using h
    exact .nil
  | cons a as ih =>
    rw [exec] at h
    split_ifs at h with ha
    obtain ⟨s₁, hs, h⟩ := Option.bind_eq_some_iff.mp h
    rw [trace, hs, Option.map_some, Option.getD_some]
    exact (Run.nil.snoc ha hs).append (ih h)

theorem run_get (as : List A) (h : (exec ok step s as).isSome = true) :
    Run ok step s (trace step s as) ((exec ok step s as).get h) :=
  run_exec (Option.some_get h).symm

theorem reachable_exec {as : List A} (h : exec ok step s as = some s') : Reachable ok step s s' :=
  (run_exec h).reachable

theorem exists_run_of_exec (as : List A) (p : List (S × A) → S → Bool)
    (h : (exec ok step s as).any (p (trace step s as)) = true) :
    ∃ tr s', Run ok step s tr s' ∧ p tr s' = true := by
  obtain ⟨s', hs, hp⟩ := (Option.any_eq_true _ _).mp h
  exact ⟨_, s', run_exec hs, hp⟩

theorem exists_reachable_of_exec (as : List A) (p : S → Bool) (h : (exec ok step s as).any p = true) :
    ∃ s', Reachable ok step s s' ∧ p s' = true := by
  obtain ⟨_, s', hrun, hp⟩ := exists_run_of_exec as (fun _ => p) h
  exact ⟨s', hrun.reachable, hp⟩

end Transition
