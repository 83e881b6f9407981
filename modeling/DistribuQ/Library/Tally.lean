import Mathlib.Data.List.Basic

/-! Sums over a list of components of which one is replaced at a time: the accounting of a
quantity that is spread over several processes. -/

/-- 1 where a proposition holds, else 0. -/
def indicator (p : Prop) [Decidable p] : Nat := if p then 1 else 0

@[simp] theorem indicator_pos {p : Prop} [Decidable p] (h : p) : indicator p = 1 := if_pos h

@[simp] theorem indicator_neg {p : Prop} [Decidable p] (h : ¬ p) : indicator p = 0 := if_neg h

theorem indicator_le_one {p : Prop} [Decidable p] : indicator p ≤ 1 := by
  unfold indicator
  split_ifs <;> decide

theorem indicator_mono {p q : Prop} [Decidable p] [Decidable q] (h : p → q) :
    indicator p ≤ indicator q := by
  by_cases hp : p
  · exact Nat.le_of_eq ((indicator_pos hp).trans (indicator_pos (h hp)).symm)
  · rw [indicator_neg hp]
    exact Nat.zero_le _

theorem indicator_congr {p q : Prop} [Decidable p] [Decidable q] (h : p ↔ q) :
    indicator p = indicator q := by
  by_cases hp : p
  · rw [indicator_pos hp, indicator_pos (h.mp hp)]
  · rw [indicator_neg hp, indicator_neg (mt h.mpr hp)]

def tally {α : Type*} (f : α → Nat) : List α → Nat
  | [] => 0
  | a :: l => f a + tally f l

section
variable {α : Type*} {f : α → Nat} {l : List α} {i j : Nat} {a b : α}

@[simp] theorem tally_nil : tally f [] = 0 := rfl

@[simp] theorem tally_cons : tally f (a :: l) = f a + tally f l := rfl

@[simp] theorem tally_append (l l' : List α) : tally f (l ++ l') = tally f l + tally f l' := by
  induction l with
  | nil => rw [List.nil_append, tally_nil, Nat.zero_add]
  | cons c l ih => rw [List.cons_append, tally_cons, tally_cons, ih, Nat.add_assoc]

theorem tally_add (g : α → Nat) : tally (fun a => f a + g a) l = tally f l + tally g l := by
  induction l with
  | nil => rfl
  | cons c l ih =>
    simp only [tally_cons, ih]
    omega

/-- Replacing one component moves the sum by what it had and what it has. -/
theorem tally_set (h : l[i]? = some a) : tally f (l.set i b) + f a = tally f l + f b := by
  induction l generalizing i with
  | nil => simp at h
  | cons c l ih =>
    cases i with
    | zero =>
      obtain rfl : c = a := by simpa using h
      simp only [List.set_cons_zero, tally_cons]
      omega
    | succ i =>
      have := ih (i := i) (by simpa using h)
      simp only [List.set_cons_succ, tally_cons]
      omega

theorem le_tally (h : l[i]? = some a) : f a ≤ tally f l := by
  induction l generalizing i with
  | nil => simp at h
  | cons c l ih =>
    rw [tally_cons]
    cases i with
    | zero =>
      obtain rfl : c = a := by simpa using h
      omega
    | succ i =>
      have := ih (i := i) (by simpa using h)
      omega

theorem add_le_tally (hij : i ≠ j) (hi : l[i]? = some a) (hj : l[j]? = some b) :
    f a + f b ≤ tally f l := by
  induction l generalizing i j with
  | nil => simp at hi
  | cons c l ih =>
    rw [tally_cons]
    match i, j with
    | 0, 0 => exact absurd rfl hij
    | 0, j + 1 =>
      obtain rfl : c = a := by simpa using hi
      have := le_tally (f := f) (l := l) (i := j) (by simpa using hj)
      omega
    | i + 1, 0 =>
      obtain rfl : c = b := by simpa using hj
      have := le_tally (f := f) (l := l) (i := i) (by simpa using hi)
      omega
    | i + 1, j + 1 =>
      have := ih (i := i) (j := j) (by omega) (by simpa using hi) (by simpa using hj)
      omega

/-- A sum of at most one comes from one component at most. -/
theorem eq_of_tally_le_one (h : tally f l ≤ 1) (ha : a ∈ l) (hb : b ∈ l) (hfa : 0 < f a) (hfb : 0 < f b) :
    a = b := by
  obtain ⟨i, hi⟩ := List.mem_iff_getElem?.mp ha
  obtain ⟨j, hj⟩ := List.mem_iff_getElem?.mp hb
  by_cases hij : i = j
  · subst hij
    exact Option.some.inj (hi.symm.trans hj)
  · have := add_le_tally (f := f) hij hi hj
    omega

theorem tally_pos : 0 < tally f l ↔ ∃ a ∈ l, 0 < f a := by
  induction l with
  | nil => simp
  | cons c l ih =>
    rw [tally_cons, List.exists_mem_cons_iff, ← ih]
    omega

theorem tally_eq_zero (h : ∀ a ∈ l, f a = 0) : tally f l = 0 := by
  by_contra hne
  obtain ⟨a, ha, hpos⟩ := tally_pos.mp (Nat.pos_of_ne_zero hne)
  exact absurd (h a ha) (by omega)

theorem tally_le_tally {g : α → Nat} (h : ∀ a ∈ l, f a ≤ g a) : tally f l ≤ tally g l := by
  induction l with
  | nil => exact Nat.le_refl _
  | cons c l ih =>
    have hc := h c List.mem_cons_self
    have hl := ih fun a ha => h a (List.mem_cons_of_mem c ha)
    simp only [tally_cons]
    omega

theorem tally_map {β : Type*} (g : β → Nat) (k : α → β) : tally g (l.map k) = tally (fun a => g (k a)) l := by
  induction l with
  | nil => rfl
  | cons c l ih => rw [List.map_cons, tally_cons, tally_cons, ih]

/-- What is true of one element at most counts once. -/
theorem tally_indicator_le {P : α → Prop} [DecidablePred P] {q : Prop} [Decidable q] (hl : l.Nodup)
    (hP : ∀ a b, P a → P b → a = b) (hq : ∀ a, P a → q) : tally (fun a => indicator (P a)) l ≤ indicator q := by
  by_cases hnone : ∃ a ∈ l, P a
  · obtain ⟨a, ha, hpa⟩ := hnone
    rw [indicator_pos (hq a hpa)]
    induction l with
    | nil => cases ha
    | cons c l ih =>
      obtain ⟨hc, hl⟩ := List.nodup_cons.mp hl
      rw [tally_cons]
      rcases List.mem_cons.mp ha with rfl | ha
      · have hzero : tally (fun a => indicator (P a)) l = 0 :=
          tally_eq_zero fun b hb => indicator_neg fun hpb => hc (hP a b hpa hpb ▸ hb)
        have hone := indicator_le_one (p := P a)
        omega
      · have hzero : indicator (P c) = 0 := indicator_neg fun hpc => hc (hP a c hpa hpc ▸ ha)
        have hone := ih hl ha
        omega
  · rw [tally_eq_zero fun a ha => indicator_neg fun hpa => hnone ⟨a, ha, hpa⟩]
    exact Nat.zero_le _

theorem getElem?_set_cases (h : (l.set i b)[j]? = some a) :
    (j = i ∧ a = b) ∨ (j ≠ i ∧ l[j]? = some a) := by
  rw [List.getElem?_set] at h
  split_ifs at h with hij hlt
  · exact .inl ⟨hij.symm, by simpa using h.symm⟩
  · exact .inr ⟨fun e => hij e.symm, h⟩

theorem getElem?_append_cases {c : α} (h : (l ++ [c])[j]? = some a) :
    l[j]? = some a ∨ (j = l.length ∧ a = c) := by
  rw [List.getElem?_append] at h
  split_ifs at h with hlt
  · exact .inl h
  · have := List.getElem?_eq_some_iff.mp h
    obtain ⟨hj, ha⟩ := this
    simp only [List.length_singleton] at hj
    refine .inr ⟨by omega, ?_⟩
    simpa using ha.symm

end
