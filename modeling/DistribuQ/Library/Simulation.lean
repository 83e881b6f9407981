import DistribuQ.Library.Transition
import Mathlib.Logic.Relation

/-! Forward simulation of a step function by the moves of an abstract system, and abstract systems that are made
of objects each of which moves by itself. -/

namespace Transition
variable {S A T : Type*}

/-- From states of which `K` is known, an abstract state that `R` relates to the one before a move can go on to
one that `R` relates to the one after it. -/
def Simulates (ok : S → A → Prop) (step : S → A → Option S) (K : S → Prop) (next : T → T → Prop)
    (R : S → T → Prop) : Prop :=
  ∀ s a s' t, K s → R s t → ok s a → step s a = some s' → ∃ t', next t t' ∧ R s' t'

variable {ok : S → A → Prop} {step : S → A → Option S} {K : S → Prop} {next : T → T → Prop} {R : S → T → Prop}
  {s₀ s s' : S} {t₀ t : T}

theorem Simulates.run (h : Simulates ok step K next R) (hK : ∀ s, Reachable ok step s₀ s → K s) (h₀ : R s₀ t₀)
    (hs : Reachable ok step s₀ s) : ∃ t, Relation.ReflTransGen next t₀ t ∧ R s t := by
  refine hs.invariant_with (I := fun s => ∃ t, Relation.ReflTransGen next t₀ t ∧ R s t) hK ⟨t₀, .refl, h₀⟩ ?_
  rintro s a s' hknown ⟨t, hpath, hR⟩ ha hstep
  obtain ⟨t', hnext, hR'⟩ := h s a s' t hknown hR ha hstep
  exact ⟨t', hpath.tail hnext, hR'⟩

/-- What the abstract moves keep holds of an abstract state of every reachable one. -/
theorem Simulates.invariant (h : Simulates ok step K next R) (hK : ∀ s, Reachable ok step s₀ s → K s)
    {J : T → Prop} (hJ : ∀ t t', J t → next t t' → J t') (h₀ : R s₀ t₀) (hJ₀ : J t₀)
    (hs : Reachable ok step s₀ s) : ∃ t, J t ∧ R s t := by
  obtain ⟨t, hpath, hR⟩ := h.run hK h₀ hs
  refine ⟨t, ?_, hR⟩
  clear hR
  induction hpath with
  | refl => exact hJ₀
  | tail _ hnext ih => exact hJ _ _ ih hnext

/-- A run, seen through a part of the state that each move leaves alone or takes one step of its own. -/
theorem Run.project {B : Type*} {ok' : T → B → Prop} {step' : T → B → Option T} {f : S → T} (g : S → A → Option B)
    {tr : List (S × A)} (h : Run ok step s₀ tr s)
    (hstep : ∀ s a s', ok s a → step s a = some s' → g s a = none ∧ f s' = f s ∨
      ∃ b, g s a = some b ∧ ok' (f s) b ∧ step' (f s) b = some (f s')) :
    Run ok' step' (f s₀) (tr.filterMap fun x => (g x.1 x.2).map fun b => (f x.1, b)) (f s) := by
  induction h with
  | nil => exact .nil
  | @snoc tr s s' a _ ha hs ih =>
    rw [List.filterMap_append]
    rcases hstep s a s' ha hs with ⟨hnone, hsame⟩ | ⟨b, hb, hok, hmove⟩
    · rw [hsame]
      simpa [hnone] using ih
    · simpa [hb] using ih.snoc hok hmove

/-- Each object makes a move or stays as it is. -/
def Each {ι X : Type*} (move : X → X → Prop) (b b' : ι → X) : Prop := ∀ i, Relation.ReflGen move (b i) (b' i)

end Transition
