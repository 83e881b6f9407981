import Mathlib.Data.List.Basic
import Mathlib.Logic.Function.Basic

/-! Regular expressions with capture groups as a backtracking matcher tries them: `run` lists the ways to match,
in the order of their priority, and `Matches` says what each of them is. -/

/-- `ι` names the groups. -/
inductive Regex (ι α : Type*)
  | one (p : α → Bool)
  /-- `p+`, greedy. -/
  | many (p : α → Bool)
  | seq (r s : Regex ι α)
  /-- `(?:r)?`, greedy. -/
  | opt (r : Regex ι α)
  | group (i : ι) (r : Regex ι α)
  /-- A test on all that is left, which takes nothing. -/
  | assert (ok : List α → Bool)

namespace Regex
variable {ι α : Type*}

/-- What each group has matched. -/
abbrev Captures (ι α : Type*) := ι → Option (List α)

/-- What `p+` can leave of a text, the shortest first. -/
def manyRests (p : α → Bool) : List α → List (List α)
  | [] => []
  | a :: l => if p a then manyRests p l ++ [l] else []

theorem mem_manyRests {p : α → Bool} {l rest : List α} :
    rest ∈ manyRests p l ↔ ∃ w, l = w ++ rest ∧ w ≠ [] ∧ ∀ a ∈ w, p a = true := by
  induction l with
  | nil =>
    refine iff_of_false List.not_mem_nil ?_
    rintro ⟨w, hw, hne, -⟩
    exact hne (List.append_eq_nil_iff.mp hw.symm).1
  | cons a l ih =>
    unfold manyRests
    constructor
    · intro h
      split_ifs at h with ha
      · rcases List.mem_append.mp h with h | h
        · obtain ⟨w, rfl, -, hw⟩ := ih.mp h
          exact ⟨a :: w, rfl, List.cons_ne_nil _ _, List.forall_mem_cons.mpr ⟨ha, hw⟩⟩
        · obtain rfl := List.mem_singleton.mp h
          exact ⟨[a], rfl, List.cons_ne_nil _ _, List.forall_mem_singleton.mpr ha⟩
      · cases h
    · rintro ⟨w, hw, hne, hp⟩
      cases w with
      | nil => exact absurd rfl hne
      | cons b w =>
        obtain ⟨rfl, rfl⟩ := List.cons.inj hw
        obtain ⟨ha, hw⟩ := List.forall_mem_cons.mp hp
        rw [if_pos ha, List.mem_append]
        cases w with
        | nil => exact .inr (List.mem_singleton_self _)
        | cons c w => exact .inl (ih.mpr ⟨c :: w, rfl, List.cons_ne_nil _ _, hw⟩)

/-- Where a text is cut behind the letters of one kind at its start. -/
theorem cut_unique {p : α → Bool} {u u' v v' : List α} (h : u ++ v = u' ++ v') (hu : ∀ a ∈ u, p a = true)
    (hu' : ∀ a ∈ u', p a = true) (hv : ∀ a ∈ v.head?, p a = false) (hv' : ∀ a ∈ v'.head?, p a = false) :
    u = u' ∧ v = v' := by
  have hstop {v : List α} (hv : ∀ a ∈ v.head?, p a = false) : v.takeWhile p = [] := by
    cases v with
    | nil => rfl
    | cons a v => rw [List.takeWhile_cons, hv a rfl, if_neg Bool.false_ne_true]
  have htake := congrArg (List.takeWhile p) h
  rw [List.takeWhile_append_of_pos hu, List.takeWhile_append_of_pos hu', hstop hv, hstop hv', List.append_nil,
    List.append_nil] at htake
  exact ⟨htake, List.append_cancel_left (htake ▸ h)⟩

variable [DecidableEq ι]

/-- The ways to match at the start of a text: the captures, and what is left. -/
def run : Regex ι α → Captures ι α → List α → List (Captures ι α × List α)
  | one _, _, [] => []
  | one p, g, a :: l => if p a then [(g, l)] else []
  | many p, g, l => (manyRests p l).map fun rest => (g, rest)
  | seq r s, g, l => (run r g l).flatMap fun x => run s x.1 x.2
  | opt r, g, l => run r g l ++ [(g, l)]
  | group i r, g, l =>
    (run r g l).map fun x => (Function.update x.1 i (some (l.take (l.length - x.2.length))), x.2)
  | assert ok, g, l => if ok l then [(g, l)] else []

/-- `re.match`: the captures of the first way to match. -/
def match? (r : Regex ι α) (l : List α) : Option (Captures ι α) :=
  (r.run (fun _ => none) l).head?.map Prod.fst

/-- The expression matches `w` where `rest` follows, and the captures change from `g` to `g'`. -/
def Matches : Regex ι α → Captures ι α → List α → List α → Captures ι α → Prop
  | one p, g, w, _, g' => (∃ a, p a = true ∧ w = [a]) ∧ g' = g
  | many p, g, w, _, g' => (w ≠ [] ∧ ∀ a ∈ w, p a = true) ∧ g' = g
  | seq r s, g, w, rest, g' =>
    ∃ u v g₁, w = u ++ v ∧ Matches r g u (v ++ rest) g₁ ∧ Matches s g₁ v rest g'
  | opt r, g, w, rest, g' => Matches r g w rest g' ∨ w = [] ∧ g' = g
  | group i r, g, w, rest, g' => ∃ g₁, Matches r g w rest g₁ ∧ g' = Function.update g₁ i (some w)
  | assert ok, g, w, rest, g' => (ok rest = true ∧ w = []) ∧ g' = g

theorem mem_run {r : Regex ι α} {g g' : Captures ι α} {l rest : List α} :
    (g', rest) ∈ r.run g l ↔ ∃ w, l = w ++ rest ∧ r.Matches g w rest g' := by
  induction r generalizing g g' l rest with
  | one p =>
    cases l with
    | nil => simp [run, Matches]
    | cons a l =>
      simp only [run, Matches]
      constructor
      · intro h
        split_ifs at h with hp
        · cases List.mem_singleton.mp h
          exact ⟨[a], rfl, ⟨a, hp, rfl⟩, rfl⟩
        · cases h
      · rintro ⟨w, hw, ⟨b, hb, rfl⟩, rfl⟩
        obtain ⟨rfl, rfl⟩ := List.cons.inj hw
        rw [if_pos hb]
        exact List.mem_singleton_self _
  | many p =>
    simp only [run, Matches, List.mem_map, Prod.mk.injEq]
    constructor
    · rintro ⟨_, h, rfl, rfl⟩
      obtain ⟨w, hw, hmany⟩ := mem_manyRests.mp h
      exact ⟨w, hw, hmany, rfl⟩
    · rintro ⟨w, hw, hmany, rfl⟩
      exact ⟨rest, mem_manyRests.mpr ⟨w, hw, hmany⟩, rfl, rfl⟩
  | seq r s ihr ihs =>
    simp only [run, Matches, List.mem_flatMap, Prod.exists]
    constructor
    · rintro ⟨g₁, l₁, hr, hs⟩
      obtain ⟨u, rfl, hu⟩ := ihr.mp hr
      obtain ⟨v, rfl, hv⟩ := ihs.mp hs
      exact ⟨u ++ v, (List.append_assoc _ _ _).symm, u, v, g₁, rfl, hu, hv⟩
    · rintro ⟨_, rfl, u, v, g₁, rfl, hu, hv⟩
      exact ⟨g₁, v ++ rest, ihr.mpr ⟨u, List.append_assoc _ _ _, hu⟩, ihs.mpr ⟨v, rfl, hv⟩⟩
  | opt r ih =>
    simp only [run, Matches, List.mem_append, List.mem_singleton, Prod.mk.injEq, ih]
    constructor
    · rintro (⟨w, rfl, h⟩ | ⟨rfl, rfl⟩)
      · exact ⟨w, rfl, .inl h⟩
      · exact ⟨[], rfl, .inr ⟨rfl, rfl⟩⟩
    · rintro ⟨w, rfl, h | ⟨rfl, rfl⟩⟩
      · exact .inl ⟨w, rfl, h⟩
      · exact .inr ⟨rfl, rfl⟩
  | group i r ih =>
    simp only [run, Matches, List.mem_map, Prod.mk.injEq, Prod.exists]
    -- what the group captures is the part of the text in front of what is left
    have htake (w rest : List α) : (w ++ rest).take ((w ++ rest).length - rest.length) = w := by
      rw [List.length_append, Nat.add_sub_cancel, List.take_left]
    constructor
    · rintro ⟨g₁, _, h, rfl, rfl⟩
      obtain ⟨w, rfl, hw⟩ := ih.mp h
      exact ⟨w, rfl, g₁, hw, by rw [htake]⟩
    · rintro ⟨w, rfl, g₁, hw, rfl⟩
      exact ⟨g₁, rest, ih.mpr ⟨w, rfl, hw⟩, by rw [htake], rfl⟩
  | assert ok =>
    simp only [run, Matches]
    constructor
    · intro h
      split_ifs at h with hok
      · cases List.mem_singleton.mp h
        exact ⟨[], rfl, ⟨hok, rfl⟩, rfl⟩
      · cases h
    · rintro ⟨_, rfl, ⟨hok, rfl⟩, rfl⟩
      rw [List.nil_append, if_pos hok]
      exact List.mem_singleton_self _

theorem matches_of_match? {r : Regex ι α} {l : List α} {g : Captures ι α} (h : r.match? l = some g) :
    ∃ w rest, l = w ++ rest ∧ r.Matches (fun _ => none) w rest g := by
  obtain ⟨⟨_, rest⟩, hhead, rfl⟩ := Option.map_eq_some_iff.mp h
  obtain ⟨w, hw⟩ := mem_run.mp (List.mem_of_mem_head? hhead)
  exact ⟨w, rest, hw⟩

theorem isSome_match? {r : Regex ι α} {l : List α} :
    (r.match? l).isSome ↔ ∃ w rest g, l = w ++ rest ∧ r.Matches (fun _ => none) w rest g := by
  constructor
  · intro h
    obtain ⟨g, hg⟩ := Option.isSome_iff_exists.mp h
    obtain ⟨w, rest, hw⟩ := matches_of_match? hg
    exact ⟨w, rest, g, hw⟩
  · rintro ⟨w, rest, g, hw⟩
    have hne : r.run (fun _ => none) l ≠ [] := List.ne_nil_of_mem (mem_run.mpr ⟨w, hw⟩)
    rw [match?, Option.isSome_map, List.isSome_head?]
    simpa using hne

end Regex
