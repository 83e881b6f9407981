import DistribuQ.Library.Transition
import Mathlib.Data.Nat.Nth

/-! Effects that each have a cause of their own: from counts that hold in every prefix of a run to a map
from the moves that show an effect to earlier moves that cause it, and where nothing is left owing to a
matching of the two. Causes and effects are sorted by a label, that of the party they belong to. -/

/-- `f` takes every effect to a cause with the same label before it, no two effects to one cause. -/
structure Causes {κ : Type*} (cause effect : κ → ℕ → Prop) (f : ℕ → ℕ) : Prop where
  before : ∀ c i, effect c i → f i < i
  cause : ∀ c i, effect c i → cause c (f i)
  distinct : Set.InjOn f {i | ∃ c, effect c i}

section
variable {κ : Type*} {cause effect : κ → ℕ → Prop}

open Classical in
theorem nth_mem_of_lt_count {p : ℕ → Prop} {m n : ℕ} (h : m < Nat.count p n) : p (Nat.nth p m) :=
  Nat.nth_mem m fun hf => h.trans_le (Nat.count_le_card hf n)

open Classical in
theorem exists_count_eq {p : ℕ → Prop} {m n : ℕ} (h : m < Nat.count p n) :
    ∃ i < n, p i ∧ Nat.count p i = m := by
  have hlt := Nat.nth_lt_of_lt_count h
  refine ⟨Nat.nth p m, hlt, nth_mem_of_lt_count h, ?_⟩
  exact Nat.count_nth fun hf => h.trans_le (Nat.count_le_card hf n)

open Classical in
/-- The effect with `m` effects of its label before it goes to the cause with `m` causes before it. -/
theorem Causes.exists (hcause : ∀ c c' i, cause c i → cause c' i → c = c')
    (heffect : ∀ c c' i, effect c i → effect c' i → c = c')
    (h : ∀ c i, effect c i → Nat.count (effect c) i < Nat.count (cause c) i) :
    ∃ f, Causes cause effect f ∧
      ∀ c n, Nat.count (cause c) n ≤ Nat.count (effect c) n →
        ∀ k < n, cause c k → ∃ i < n, effect c i ∧ f i = k := by
  have hnth (i : ℕ) : ∃ k, ∀ c, effect c i → k = Nat.nth (cause c) (Nat.count (effect c) i) := by
    by_cases hi : ∃ c, effect c i
    · obtain ⟨c, hc⟩ := hi
      refine ⟨Nat.nth (cause c) (Nat.count (effect c) i), fun c' hc' => ?_⟩
      rw [heffect c c' i hc hc']
    · exact ⟨0, fun c hc => absurd ⟨c, hc⟩ hi⟩
  choose f hf using hnth
  have hmem (c : κ) (i : ℕ) (hi : effect c i) : cause c (f i) := by
    rw [hf i c hi]
    exact nth_mem_of_lt_count (h c i hi)
  have hcount (c : κ) (i : ℕ) (hi : effect c i) :
      Nat.count (cause c) (f i) = Nat.count (effect c) i := by
    rw [hf i c hi]
    exact Nat.count_nth fun hfin => (h c i hi).trans_le (Nat.count_le_card hfin i)
  refine ⟨f, ⟨fun c i hi => ?_, hmem, ?_⟩, ?_⟩
  · rw [hf i c hi]
    exact Nat.nth_lt_of_lt_count (h c i hi)
  · rintro i ⟨c, hi⟩ i' ⟨c', hi'⟩ heq
    obtain rfl : c = c' := hcause c c' (f i) (hmem c i hi) (heq ▸ hmem c' i' hi')
    apply Nat.count_injective hi hi'
    rw [← hcount c i hi, heq, hcount c i' hi']
  · intro c n hle k hk hc
    have hlt : Nat.count (cause c) k < Nat.count (effect c) n :=
      (Nat.count_strict_mono hc hk).trans_le hle
    obtain ⟨i, hi, heff, hm⟩ := exists_count_eq hlt
    refine ⟨i, hi, heff, ?_⟩
    rw [hf i c heff, hm, Nat.nth_count hc]

end

/-- The entry at a position of a list satisfies `p`. -/
def EntryAt {α : Type*} (l : List α) (p : α → Prop) (i : ℕ) : Prop := ∃ a ∈ l[i]?, p a

section
variable {α : Type*} {l : List α} {p : α → Prop} {i : ℕ}

theorem EntryAt.lt (h : EntryAt l p i) : i < l.length := by
  obtain ⟨a, ha, _⟩ := h
  exact (List.getElem?_eq_some_iff.mp ha).1

theorem count_entryAt (l : List α) (p : α → Prop) [DecidablePred p] [DecidablePred (EntryAt l p)]
    (n : ℕ) :
    Nat.count (EntryAt l p) n = tally (fun a => indicator (p a)) (l.take n) := by
  induction n with
  | zero => rw [Nat.count_zero, List.take_zero, tally_nil]
  | succ n ih =>
    rw [Nat.count_succ, ih, List.take_add_one, tally_append]
    cases hn : l[n]? with
    | none => simp [EntryAt, hn]
    | some a => simp [EntryAt, hn, indicator]

end

namespace Transition
variable {S A κ : Type*} {ok : S → A → Prop} {step : S → A → Option S} {s₀ s : S} {tr : List (S × A)}

/-- The state before each move is reached by the moves before it. -/
theorem Run.take (h : Run ok step s₀ tr s) {i : ℕ} {x : S × A} (hi : tr[i]? = some x) :
    Run ok step s₀ (tr.take i) x.1 ∧ ok x.1 x.2 := by
  induction h with
  | nil => simp at hi
  | @snoc tr s s' a h ha hs ih =>
    rcases getElem?_append_cases hi with hi | ⟨rfl, rfl⟩
    · rw [List.take_append_of_le_length (List.getElem?_eq_some_iff.mp hi).1.le]
      exact ih hi
    · rw [List.take_left]
      exact ⟨h, ha⟩

/-- The inequality that goes with `Run.balance`. -/
theorem Run.balance_le {f : S → ℕ} {g g' : S → A → ℕ} (h : Run ok step s₀ tr s)
    (hstep : ∀ s a s', ok s a → step s a = some s' → f s' + g s a ≤ f s + g' s a) :
    f s + total g tr ≤ f s₀ + total g' tr := by
  induction h with
  | nil => exact le_rfl
  | snoc _ ha hs ih =>
    have := hstep _ _ _ ha hs
    simp only [total, tally_append, tally_cons, tally_nil] at ih ⊢
    omega

variable (cause effect : κ → S → A → Prop) (owed : κ → S → ℕ) [∀ c s a, Decidable (cause c s a)]
  [∀ c s a, Decidable (effect c s a)]

/-- A move belongs to one party; what it causes the party owes, until a move shows the effect. -/
structure Owing (ok : S → A → Prop) (step : S → A → Option S) (s₀ : S) : Prop where
  cause_unique : ∀ c c' s a, cause c s a → cause c' s a → c = c'
  effect_unique : ∀ c c' s a, effect c s a → effect c' s a → c = c'
  init : ∀ c, owed c s₀ = 0
  owing : ∀ c s a, ok s a → effect c s a → 0 < owed c s
  step_le : ∀ c s a s', ok s a → step s a = some s' →
    owed c s' + indicator (effect c s a) ≤ owed c s + indicator (cause c s a)

variable {cause effect owed}

theorem Owing.total_le (hO : Owing cause effect owed ok step s₀) (h : Run ok step s₀ tr s) (c : κ) :
    owed c s + total (fun s a => indicator (effect c s a)) tr ≤
      total (fun s a => indicator (cause c s a)) tr := by
  have hle := h.balance_le (hO.step_le c)
  rwa [hO.init, Nat.zero_add] at hle

/-- Every effect in a run has a cause of its own before it; where there are no more causes than effects,
every cause has its effect. -/
theorem Owing.exists_causes (hO : Owing cause effect owed ok step s₀) (h : Run ok step s₀ tr s) :
    ∃ f, Causes (fun c => EntryAt tr fun x => cause c x.1 x.2)
        (fun c => EntryAt tr fun x => effect c x.1 x.2) f ∧
      ∀ c, total (fun s a => indicator (cause c s a)) tr ≤
          total (fun s a => indicator (effect c s a)) tr →
        ∀ k, EntryAt tr (fun x => cause c x.1 x.2) k →
          ∃ i, EntryAt tr (fun x => effect c x.1 x.2) i ∧ f i = k := by
  classical
  have hcause (c c' : κ) (i : ℕ) (h : EntryAt tr (fun x => cause c x.1 x.2) i)
      (h' : EntryAt tr (fun x => cause c' x.1 x.2) i) : c = c' := by
    obtain ⟨x, hx, hc⟩ := h
    obtain ⟨x', hx', hc'⟩ := h'
    cases hx.symm.trans hx'
    exact hO.cause_unique c c' _ _ hc hc'
  have heffect (c c' : κ) (i : ℕ) (h : EntryAt tr (fun x => effect c x.1 x.2) i)
      (h' : EntryAt tr (fun x => effect c' x.1 x.2) i) : c = c' := by
    obtain ⟨x, hx, hc⟩ := h
    obtain ⟨x', hx', hc'⟩ := h'
    cases hx.symm.trans hx'
    exact hO.effect_unique c c' _ _ hc hc'
  have hcount (c : κ) (i : ℕ) (hi : EntryAt tr (fun x => effect c x.1 x.2) i) :
      Nat.count (EntryAt tr fun x => effect c x.1 x.2) i <
        Nat.count (EntryAt tr fun x => cause c x.1 x.2) i := by
    obtain ⟨x, hx, hc⟩ := hi
    -- the party still owes something where it shows the effect
    obtain ⟨hrun, hok⟩ := h.take hx
    have hle := hO.total_le hrun c
    have hpos := hO.owing c _ _ hok hc
    rw [count_entryAt, count_entryAt]
    simp only [total] at hle
    omega
  obtain ⟨f, hf, honto⟩ := Causes.exists hcause heffect hcount
  refine ⟨f, hf, fun c hle k hk => ?_⟩
  have hle' : Nat.count (EntryAt tr fun x => cause c x.1 x.2) tr.length ≤
      Nat.count (EntryAt tr fun x => effect c x.1 x.2) tr.length := by
    rw [count_entryAt, count_entryAt, List.take_length]
    exact hle
  obtain ⟨i, _, hi, heq⟩ := honto c tr.length hle' k hk.lt hk
  exact ⟨i, hi, heq⟩

end Transition
