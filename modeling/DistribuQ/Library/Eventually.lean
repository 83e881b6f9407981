import DistribuQ.Library.Transition
import Mathlib.Order.WellFounded

/-! Total correctness of one party that moves by itself. Whatever allowed moves it makes, it comes to
a stop, and there a postcondition holds of its moves and its state. -/

namespace Transition
variable {S A : Type*}

inductive Eventually (stop : S → Prop) (ok : S → A → Prop) (step : S → A → Option S) :
    S → (List (S × A) → S → Prop) → Prop
  | done {s : S} {Q : List (S × A) → S → Prop} : stop s → Q [] s → Eventually stop ok step s Q
  | move {s : S} {Q : List (S × A) → S → Prop} : ¬ stop s → (∃ a s', ok s a ∧ step s a = some s') →
      (∀ a s', ok s a → step s a = some s' →
        Eventually stop ok step s' fun tr => Q ((s, a) :: tr)) → Eventually stop ok step s Q

/-- The allowed moves of a party that has not stopped. -/
def Going (stop : S → Prop) (ok : S → A → Prop) (s : S) (a : A) : Prop := ¬ stop s ∧ ok s a

instance (stop : S → Prop) (ok : S → A → Prop) [DecidablePred stop] [∀ s a, Decidable (ok s a)]
    (s : S) (a : A) :
    Decidable (Going stop ok s a) :=
  inferInstanceAs (Decidable (¬ stop s ∧ ok s a))

variable {stop : S → Prop} {ok : S → A → Prop} {step : S → A → Option S} {s s' : S} {a : A}
  {Q Q' : List (S × A) → S → Prop} {tr : List (S × A)}

theorem Run.cons (ha : ok s a) (hs : step s a = some s') {s₁ : S} (h : Run ok step s' tr s₁) :
    Run ok step s ((s, a) :: tr) s₁ :=
  (Run.nil.snoc ha hs).append h

/-- A run that is not empty starts with a move. -/
theorem Run.cons_cases (h : Run ok step s tr s') : tr = [] ∧ s' = s ∨
    ∃ a s₁ tr', tr = (s, a) :: tr' ∧ ok s a ∧ step s a = some s₁ ∧ Run ok step s₁ tr' s' := by
  induction h with
  | nil => exact .inl ⟨rfl, rfl⟩
  | snoc _ ha hs ih =>
    rcases ih with ⟨rfl, rfl⟩ | ⟨b, s₁, tr', rfl, hb, hs₁, h⟩
    · exact .inr ⟨_, _, [], rfl, ha, hs, .nil⟩
    · exact .inr ⟨b, s₁, _, rfl, hb, hs₁, h.snoc ha hs⟩

theorem Eventually.mono (h : Eventually stop ok step s Q) (hQ : ∀ tr s', Q tr s' → Q' tr s') :
    Eventually stop ok step s Q' := by
  induction h generalizing Q' with
  | done hstop hq => exact .done hstop (hQ _ _ hq)
  | move hstop hgo _ ih =>
    refine .move hstop hgo fun a s' ha hs => ih a s' ha hs fun tr s₁ hq => ?_
    exact hQ _ _ hq

theorem Eventually.of_run (h : Eventually stop ok step s Q) (hrun : Run (Going stop ok) step s tr s')
    (hstop : stop s') : Q tr s' := by
  induction h generalizing tr with
  | done hs hq =>
    rcases hrun.cons_cases with ⟨rfl, rfl⟩ | ⟨_, _, _, rfl, ha, _, _⟩
    · exact hq
    · exact absurd hs ha.1
  | move hs _ _ ih =>
    rcases hrun.cons_cases with ⟨rfl, rfl⟩ | ⟨a, s₁, tr', rfl, ha, hstep, hrun'⟩
    · exact absurd hstop hs
    · exact ih a s₁ ha.2 hstep hrun'

theorem Eventually.exists_run (h : Eventually stop ok step s Q) :
    ∃ tr s', Run (Going stop ok) step s tr s' ∧ stop s' ∧ Q tr s' := by
  induction h with
  | done hs hq => exact ⟨[], _, .nil, hs, hq⟩
  | move hs hgo _ ih =>
    obtain ⟨a, s', ha, hstep⟩ := hgo
    obtain ⟨tr, s₁, hrun, hstop, hq⟩ := ih a s' ha hstep
    exact ⟨_, s₁, hrun.cons ⟨hs, ha⟩ hstep, hstop, hq⟩

/-- Where the postcondition comes down to a condition known beforehand, it holds at the end if and
only if the condition does. -/
theorem eventually_iff {c : Prop} (h : Eventually stop ok step s fun tr s' => Q tr s' ↔ c) :
    Eventually stop ok step s Q ↔ c := by
  constructor
  · intro hq
    obtain ⟨tr, s', hrun, hstop, hiff⟩ := h.exists_run
    exact hiff.mp (hq.of_run hrun hstop)
  · intro hc
    exact h.mono fun tr s' hiff => hiff.mpr hc

/-- A party stops if each of its moves makes a variant smaller, and what its moves keep holds then. -/
theorem Eventually.of_variant {R : Type*} {r : R → R → Prop} (hwf : WellFounded r) (μ : S → R)
    {I : List (S × A) → S → Prop} (h₀ : I [] s)
    (hgo : ∀ tr s, I tr s → ¬ stop s → ∃ a s', ok s a ∧ step s a = some s')
    (hstep : ∀ tr s a s', I tr s → ¬ stop s → ok s a → step s a = some s' →
      I (tr ++ [(s, a)]) s' ∧ r (μ s') (μ s)) :
    Eventually stop ok step s fun tr s' => stop s' ∧ I tr s' := by
  have key (n : R) : ∀ (tr : List (S × A)) (s : S), μ s = n → I tr s →
      Eventually stop ok step s fun tr' s' => stop s' ∧ I (tr ++ tr') s' := by
    induction n using hwf.induction with
    | _ n ih =>
      rintro tr s rfl hI
      by_cases hs : stop s
      · refine .done hs ⟨hs, ?_⟩
        rwa [List.append_nil]
      · refine .move hs (hgo tr s hI hs) fun a s' ha hstep' => ?_
        obtain ⟨hI', hr⟩ := hstep tr s a s' hI hs ha hstep'
        refine (ih _ hr _ s' rfl hI').mono fun tr' s₁ h => ?_
        rwa [List.append_assoc] at h
  exact key _ [] s rfl h₀

end Transition
