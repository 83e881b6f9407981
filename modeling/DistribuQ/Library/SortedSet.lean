import Mathlib.Data.List.Sort
import Mathlib.Order.Lattice
import Mathlib.Data.List.Nodup
import Mathlib.Data.List.Perm.Subperm
import Mathlib.Data.List.Count

/-! Sorted sets: members with a score each, kept in the order of their scores, and members with
equal scores in their own order. -/

def ScoreLe {α σ : Type*} [LinearOrder α] [LinearOrder σ] (x y : α × σ) : Prop :=
  x.2 < y.2 ∨ x.2 = y.2 ∧ x.1 ≤ y.1

section
variable {α σ : Type*} [LinearOrder α] [LinearOrder σ]

instance : DecidableRel (@ScoreLe α σ _ _) := fun _ _ =>
  inferInstanceAs (Decidable (_ ∨ _))

instance : Std.Total (@ScoreLe α σ _ _) := ⟨fun x y => by
  rcases lt_trichotomy x.2 y.2 with h | h | h
  · exact .inl (.inl h)
  · rcases le_total x.1 y.1 with h' | h'
    · exact .inl (.inr ⟨h, h'⟩)
    · exact .inr (.inr ⟨h.symm, h'⟩)
  · exact .inr (.inl h)⟩

instance : IsTrans (α × σ) ScoreLe := ⟨by
  rintro x y z (h | ⟨h, h'⟩) (k | ⟨k, k'⟩)
  · exact .inl (h.trans k)
  · exact .inl (k ▸ h)
  · exact .inl (h ▸ k)
  · exact .inr ⟨h.trans k, h'.trans k'⟩⟩

theorem ScoreLe.antisymm {x y : α × σ} (h : ScoreLe x y) (h' : ScoreLe y x) : x = y := by
  rcases h with h | ⟨h, k⟩
  · rcases h' with h' | ⟨h', _⟩
    · exact absurd h' h.asymm
    · exact absurd h' h.ne'
  · rcases h' with h' | ⟨_, k'⟩
    · exact absurd h h'.ne'
    · exact Prod.ext (le_antisymm k k') h

end

structure SortedSet (α σ : Type*) [LinearOrder α] [LinearOrder σ] where
  entries : List (α × σ)
  sorted : entries.Pairwise ScoreLe
  nodup : (entries.map Prod.fst).Nodup

namespace SortedSet
variable {α σ : Type*} [LinearOrder α] [LinearOrder σ]

def empty : SortedSet α σ := ⟨[], .nil, List.nodup_nil⟩

def members (z : SortedSet α σ) : List α := z.entries.map Prod.fst

/-- `ZREM` -/
def remove (z : SortedSet α σ) (a : α) : SortedSet α σ where
  entries := z.entries.filter fun e => e.1 ≠ a
  sorted := z.sorted.sublist List.filter_sublist
  nodup := z.nodup.sublist (List.filter_sublist.map _)

theorem not_mem_members_remove (z : SortedSet α σ) (a : α) : a ∉ (z.remove a).members := by
  simp [members, remove]

/-- `ZADD`: a new member, or a new score for a member. -/
def add (z : SortedSet α σ) (a : α) (s : σ) : SortedSet α σ where
  entries := (z.remove a).entries.orderedInsert ScoreLe (a, s)
  sorted := (z.remove a).sorted.orderedInsert _ _
  nodup := by
    have hp := (List.perm_orderedInsert ScoreLe (a, s) (z.remove a).entries).map Prod.fst
    refine hp.nodup_iff.mpr (List.nodup_cons.mpr ⟨?_, (z.remove a).nodup⟩)
    exact z.not_mem_members_remove a

/-- `ZRANGEBYSCORE -inf s`: the members with a score of at most `s`, in order. -/
def rangeTo (z : SortedSet α σ) (s : σ) : List α :=
  (z.entries.filter fun e => e.2 ≤ s).map Prod.fst

theorem mem_members {z : SortedSet α σ} {a : α} : a ∈ z.members ↔ ∃ s, (a, s) ∈ z.entries := by
  simp [members]

theorem mem_rangeTo {z : SortedSet α σ} {s : σ} {a : α} :
    a ∈ z.rangeTo s ↔ ∃ s' ≤ s, (a, s') ∈ z.entries := by
  simp only [rangeTo, List.mem_map, List.mem_filter, decide_eq_true_eq, Prod.exists,
    exists_and_right, exists_eq_right]
  exact ⟨fun ⟨s', h, hs⟩ => ⟨s', hs, h⟩, fun ⟨s', hs, h⟩ => ⟨s', h, hs⟩⟩

theorem nodup_members (z : SortedSet α σ) : z.members.Nodup := z.nodup

theorem nodup_rangeTo (z : SortedSet α σ) (s : σ) : (z.rangeTo s).Nodup :=
  z.nodup.sublist (List.filter_sublist.map _)

theorem mem_entries_remove {z : SortedSet α σ} {a : α} {e : α × σ} :
    e ∈ (z.remove a).entries ↔ e ∈ z.entries ∧ e.1 ≠ a := by
  simp [remove]

theorem mem_entries_add {z : SortedSet α σ} {a : α} {s : σ} {e : α × σ} :
    e ∈ (z.add a s).entries ↔ e = (a, s) ∨ e ∈ z.entries ∧ e.1 ≠ a := by
  rw [add, List.mem_orderedInsert, mem_entries_remove]

@[simp] theorem mem_members_add {z : SortedSet α σ} {a b : α} {s : σ} :
    b ∈ (z.add a s).members ↔ b = a ∨ b ∈ z.members := by
  simp only [mem_members, mem_entries_add]
  constructor
  · rintro ⟨s', h | ⟨h, -⟩⟩
    · exact .inl (congrArg Prod.fst h)
    · exact .inr ⟨s', h⟩
  · rintro (rfl | ⟨s', h⟩)
    · exact ⟨s, .inl rfl⟩
    · by_cases hb : b = a
      · exact ⟨s, .inl (by rw [hb])⟩
      · exact ⟨s', .inr ⟨h, hb⟩⟩

theorem count_members (z : SortedSet α σ) (a : α) : z.members.count a = if a ∈ z.members then 1 else 0 :=
  z.nodup_members.count

theorem count_rangeTo (z : SortedSet α σ) (s : σ) (a : α) :
    (z.rangeTo s).count a = if a ∈ z.rangeTo s then 1 else 0 :=
  (z.nodup_rangeTo s).count

theorem mem_members_of_rangeTo {z : SortedSet α σ} {s : σ} {a : α} (h : a ∈ z.rangeTo s) :
    a ∈ z.members := by
  obtain ⟨s', _, h⟩ := mem_rangeTo.mp h
  exact mem_members.mpr ⟨s', h⟩

theorem mem_entries_foldl_remove {z : SortedSet α σ} {as : List α} {e : α × σ} :
    e ∈ (as.foldl remove z).entries ↔ e ∈ z.entries ∧ e.1 ∉ as := by
  induction as generalizing z with
  | nil => simp
  | cons a as ih =>
    rw [List.foldl_cons, ih, mem_entries_remove, List.mem_cons, not_or, and_assoc]

theorem mem_members_foldl_remove {z : SortedSet α σ} {as : List α} {a : α} :
    a ∈ (as.foldl remove z).members ↔ a ∈ z.members ∧ a ∉ as := by
  simp only [mem_members, mem_entries_foldl_remove, exists_and_right]

theorem nodup_entries (z : SortedSet α σ) : z.entries.Nodup := .of_map Prod.fst z.nodup

theorem score_unique {z : SortedSet α σ} {a : α} {s s' : σ} (h : (a, s) ∈ z.entries)
    (h' : (a, s') ∈ z.entries) : s = s' :=
  congrArg Prod.snd (List.inj_on_of_nodup_map z.nodup h h' rfl)

/-- A sorted set is given by its entries alone, however it came to have them. -/
theorem eq_of_mem_entries {z z' : SortedSet α σ} (h : ∀ e, e ∈ z.entries ↔ e ∈ z'.entries) : z = z' := by
  have hperm : z.entries.Perm z'.entries :=
    (List.perm_ext_iff_of_nodup z.nodup_entries z'.nodup_entries).mpr h
  have heq : z.entries = z'.entries :=
    hperm.eq_of_pairwise (fun _ _ _ _ hxy hyx => hxy.antisymm hyx) z.sorted z'.sorted
  cases z
  cases z'
  cases heq
  rfl

/-- What is left when the members with a score of at most `s` are taken out. -/
def above (z : SortedSet α σ) (s : σ) : SortedSet α σ where
  entries := z.entries.filter fun e => s < e.2
  sorted := z.sorted.sublist List.filter_sublist
  nodup := z.nodup.sublist (List.filter_sublist.map _)

theorem mem_entries_above {z : SortedSet α σ} {s : σ} {e : α × σ} :
    e ∈ (z.above s).entries ↔ e ∈ z.entries ∧ s < e.2 := by
  simp [above]

theorem mem_rangeTo_of_mem {z : SortedSet α σ} {s : σ} {e : α × σ} (he : e ∈ z.entries) :
    e.1 ∈ z.rangeTo s ↔ e.2 ≤ s := by
  rw [mem_rangeTo]
  constructor
  · rintro ⟨s', hs, h⟩
    rwa [score_unique he h]
  · intro hs
    exact ⟨e.2, hs, he⟩

theorem foldl_remove_rangeTo (z : SortedSet α σ) (s : σ) :
    (z.rangeTo s).foldl remove z = z.above s := by
  apply eq_of_mem_entries
  intro e
  rw [mem_entries_foldl_remove, mem_entries_above]
  refine and_congr_right fun he => ?_
  rw [mem_rangeTo_of_mem he, not_le]

theorem above_above (z : SortedSet α σ) {s s' : σ} (h : s ≤ s') : (z.above s).above s' = z.above s' := by
  apply eq_of_mem_entries
  intro e
  rw [mem_entries_above, mem_entries_above, mem_entries_above, and_assoc]
  refine and_congr_right fun _ => ?_
  exact and_iff_right_of_imp h.trans_lt

/-- In a list sorted by score the entries up to `s'` are those up to `s` and then those between. -/
theorem filter_le_of_sorted {l : List (α × σ)} (hl : l.Pairwise ScoreLe) {s s' : σ} (h : s ≤ s') :
    l.filter (fun e => e.2 ≤ s') =
      l.filter (fun e => e.2 ≤ s) ++ (l.filter fun e => s < e.2).filter fun e => e.2 ≤ s' := by
  induction hl with
  | nil => rfl
  | @cons e l he hl ih =>
    by_cases hs : e.2 ≤ s
    · simp [hs, hs.trans h, ih]
    · -- every entry after `e` has a score above `s` too
      have hlater (e' : α × σ) (h' : e' ∈ l) : s < e'.2 := by
        refine (not_le.mp hs).trans_le ?_
        rcases he e' h' with hlt | ⟨heq, _⟩
        · exact hlt.le
        · exact heq.le
      have hnil : l.filter (fun e => e.2 ≤ s) = [] :=
        List.filter_eq_nil_iff.mpr fun e' h' => by simpa using hlater e' h'
      rw [hnil, List.nil_append] at ih
      simp only [List.filter_cons, hs, not_le.mp hs, hnil, decide_false, decide_true, ih,
        Bool.false_eq_true, if_false, if_true, List.nil_append]

theorem rangeTo_eq_append (z : SortedSet α σ) {s s' : σ} (h : s ≤ s') :
    z.rangeTo s' = z.rangeTo s ++ (z.above s).rangeTo s' := by
  unfold rangeTo above
  rw [filter_le_of_sorted z.sorted h, List.map_append]

theorem mem_entries_foldl_add {z : SortedSet α σ} {es : List (α × σ)} (h : (es.map Prod.fst).Nodup)
    {e : α × σ} : e ∈ (es.foldl (fun z x => z.add x.1 x.2) z).entries ↔
      e ∈ es ∨ e ∈ z.entries ∧ e.1 ∉ es.map Prod.fst := by
  induction es generalizing z with
  | nil => simp
  | cons x es ih =>
    obtain ⟨hx, hes⟩ := List.nodup_cons.mp h
    rw [List.foldl_cons, ih hes, mem_entries_add, List.mem_cons, List.map_cons, List.mem_cons, not_or]
    -- a later entry with the key of `x` would be a second one
    have hkey : e = x → e.1 ∉ es.map Prod.fst := by
      rintro rfl
      exact hx
    tauto

end SortedSet
