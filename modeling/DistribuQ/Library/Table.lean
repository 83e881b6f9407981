import Mathlib.Data.List.Basic
import Mathlib.Data.List.Nodup
import Mathlib.Data.List.Count
import Mathlib.Data.List.Sort
import Mathlib.Data.Fintype.EquivFin

/-! Tables of rows under a primary key: `SELECT`, `INSERT`, `UPDATE .. WHERE` and
`DELETE .. WHERE`, with the effect of each on the row stored under one key. -/

/-- Rows no two of which have the same key. -/
structure Table {κ ρ : Type*} (key : ρ → κ) where
  rows : List ρ
  nodup : (rows.map key).Nodup

namespace Table
variable {κ ρ : Type*} {key : ρ → κ}

def empty : Table key := ⟨[], List.nodup_nil⟩

def single (r : ρ) : Table key := ⟨[r], List.nodup_singleton (key r)⟩

/-- The rows a `WHERE` clause selects, in table order. -/
def select (t : Table key) (p : ρ → Bool) : List ρ := t.rows.filter p

/-- Every row that `p` selects is rewritten by `f`, which keeps the key. -/
def update (t : Table key) (p : ρ → Bool) (f : ρ → ρ) (hf : ∀ r, key (f r) = key r) : Table key where
  rows := t.rows.map fun r => if p r then f r else r
  nodup := by
    have hkey : key ∘ (fun r => if p r then f r else r) = key := by
      funext r
      by_cases hp : p r <;> simp [hp, hf]
    rw [List.map_map, hkey]
    exact t.nodup

theorem update_congr {t : Table key} {p p' : ρ → Bool} {f : ρ → ρ} {hf : ∀ r, key (f r) = key r}
    (h : ∀ r ∈ t.rows, p r = p' r) : t.update p f hf = t.update p' f hf := by
  have hrows : t.rows.map (fun r => if p r then f r else r) = t.rows.map fun r => if p' r then f r else r :=
    List.map_congr_left fun r hr => by rw [h r hr]
  unfold update
  congr

theorem update_eq_self {t : Table key} {p : ρ → Bool} {f : ρ → ρ} {hf : ∀ r, key (f r) = key r}
    (h : ∀ r ∈ t.rows, p r = false) : t.update p f hf = t := by
  have hrows : t.rows.map (fun r => if p r then f r else r) = t.rows := by
    refine (List.map_congr_left fun r hr => ?_).trans (List.map_id _)
    rw [h r hr]
    rfl
  cases t
  unfold update
  congr

def delete (t : Table key) (p : ρ → Bool) : Table key where
  rows := t.rows.filter fun r => !p r
  nodup := t.nodup.sublist (List.filter_sublist.map key)

variable [DecidableEq κ]

def find? (t : Table key) (k : κ) : Option ρ := t.rows.find? fun r => key r = k

theorem find?_eq_some (t : Table key) {k : κ} {r : ρ} :
    t.find? k = some r ↔ r ∈ t.rows ∧ key r = k := by
  constructor
  · intro h
    exact ⟨List.mem_of_find?_eq_some h, by simpa using List.find?_some h⟩
  · rintro ⟨hr, rfl⟩
    have key_inj := List.inj_on_of_nodup_map t.nodup
    cases h : t.find? (key r) with
    | none => exact absurd (List.find?_eq_none.mp h r hr) (by simp)
    | some r' =>
      have hk : key r' = key r := by simpa using List.find?_some h
      rw [key_inj (List.mem_of_find?_eq_some h) hr hk]

theorem key_of_find? {t : Table key} {k : κ} {r : ρ} (h : t.find? k = some r) : key r = k :=
  (t.find?_eq_some.mp h).2

theorem find?_eq_none (t : Table key) {k : κ} : t.find? k = none ↔ ∀ r ∈ t.rows, key r ≠ k := by
  simp [find?, List.find?_eq_none]

theorem exists_find?_eq_none [Infinite κ] (t : Table key) : ∃ k, t.find? k = none := by
  obtain ⟨k, hk⟩ := Infinite.exists_notMem_finset (t.rows.map key).toFinset
  refine ⟨k, t.find?_eq_none.mpr fun r hr hkey => hk ?_⟩
  rw [List.mem_toFinset, ← hkey]
  exact List.mem_map_of_mem hr

def insert (t : Table key) (r : ρ) (h : t.find? (key r) = none) : Table key where
  rows := t.rows ++ [r]
  nodup := by
    rw [List.map_append, List.map_cons, List.map_nil]
    refine List.nodup_append.mpr ⟨t.nodup, List.nodup_singleton _, ?_⟩
    intro a ha b hb
    obtain ⟨r', hr', rfl⟩ := List.mem_map.mp ha
    rw [List.mem_singleton.mp hb]
    exact t.find?_eq_none.mp h r' hr'

theorem find?_update (t : Table key) (p : ρ → Bool) (f : ρ → ρ) (hf : ∀ r, key (f r) = key r) (k : κ) :
    (t.update p f hf).find? k = (t.find? k).map fun r => if p r then f r else r := by
  have hkey : (fun r => decide (key (if p r then f r else r) = k)) = fun r => decide (key r = k) := by
    funext r
    by_cases hp : p r <;> simp [hp, hf]
  simp only [find?, update, List.find?_map, Function.comp_def, hkey]

theorem find?_insert (t : Table key) (r : ρ) (h : t.find? (key r) = none) (k : κ) :
    (t.insert r h).find? k = if key r = k then some r else t.find? k := by
  by_cases hk : key r = k
  · subst hk
    simp only [if_true]
    exact (find?_eq_some _).mpr ⟨List.mem_append_right _ (List.mem_singleton_self r), rfl⟩
  · simp only [find?, insert, List.find?_append, if_neg hk]
    simp [hk]

theorem perm_cons_delete (t : Table key) {k : κ} {r : ρ} (h : t.find? k = some r) :
    t.rows.Perm (r :: (t.delete fun r => key r = k).rows) := by
  have hmem {r' : ρ} : r' ∈ (t.delete fun r => key r = k).rows ↔ r' ∈ t.rows ∧ key r' ≠ k := by
    simp [delete]
  obtain ⟨hr, hk⟩ := t.find?_eq_some.mp h
  have hrows : t.rows.Nodup := .of_map key t.nodup
  have hnodup : (r :: (t.delete fun r => key r = k).rows).Nodup :=
    List.nodup_cons.mpr ⟨fun hr' => (hmem.mp hr').2 hk, hrows.filter _⟩
  refine (List.perm_ext_iff_of_nodup hrows hnodup).mpr fun r' => ?_
  rw [List.mem_cons, hmem]
  constructor
  · intro hr'
    by_cases hk' : key r' = k
    · exact .inl (List.inj_on_of_nodup_map t.nodup hr' hr (hk'.trans hk.symm))
    · exact .inr ⟨hr', hk'⟩
  · rintro (rfl | ⟨hr', -⟩)
    · exact hr
    · exact hr'

/-- The rows of a query without `ORDER BY`: those whose keys `order` lists come first, as it lists them. -/
def inOrder (key : ρ → κ) (order : List κ) (rows : List ρ) : List ρ :=
  rows.insertionSort fun r r' => order.idxOf (key r) ≤ order.idxOf (key r')

theorem perm_inOrder (order : List κ) (rows : List ρ) : (inOrder key order rows).Perm rows :=
  List.perm_insertionSort _ _

/-- Any order of the rows is the one for its own list of keys. -/
theorem inOrder_map {rows l : List ρ} (h : l.Perm rows) (hrows : (rows.map key).Nodup) :
    inOrder key (l.map key) rows = l := by
  have hl : (l.map key).Nodup := (h.map key).nodup_iff.mpr hrows
  have hsorted : l.Pairwise fun r r' => (l.map key).idxOf (key r) ≤ (l.map key).idxOf (key r') := by
    refine List.pairwise_iff_getElem.mpr fun i j hi hj hij => ?_
    have hidx {k : ℕ} (hk : k < l.length) : (l.map key).idxOf (key l[k]) = k := by
      have hlt : k < (l.map key).length := by rwa [List.length_map]
      have hget : (l.map key)[k] = key l[k] := List.getElem_map key
      rw [← hget]
      exact hl.idxOf_getElem k _
    rw [hidx hi, hidx hj]
    exact hij.le
  refine ((perm_inOrder _ _).trans h.symm).eq_of_pairwise (fun r r' hr hr' hle hge => ?_)
    (List.pairwise_insertionSort _ _) hsorted
  have hr := (perm_inOrder _ _).mem_iff.mp hr
  have hkey : key r = key r' := by
    refine (List.idxOf_inj ?_).mp (le_antisymm hle hge)
    exact List.mem_map_of_mem (h.mem_iff.mpr hr)
  exact List.inj_on_of_nodup_map hrows hr (h.mem_iff.mp hr') hkey

theorem mem_select (t : Table key) (p : ρ → Bool) {r : ρ} :
    r ∈ t.select p ↔ t.find? (key r) = some r ∧ p r := by
  rw [select, List.mem_filter, find?_eq_some]
  simp

omit [DecidableEq κ] in
theorem nodup_select (t : Table key) (p : ρ → Bool) : ((t.select p).map key).Nodup :=
  t.nodup.sublist (List.filter_sublist.map key)

theorem count_select (t : Table key) (p : ρ → Bool) (k : κ) :
    ((t.select p).map key).count k = if (t.find? k).any p then 1 else 0 := by
  cases h : t.find? k with
  | none =>
    simp only [Option.any_none, Bool.false_eq_true, if_false]
    refine List.count_eq_zero_of_not_mem fun hk => ?_
    obtain ⟨r, hr, rfl⟩ := List.mem_map.mp hk
    rw [((t.mem_select p).mp hr).1] at h
    exact absurd h (Option.some_ne_none r)
  | some r =>
    obtain rfl := key_of_find? h
    by_cases hp : p r
    · simp only [Option.any_some, hp, if_true]
      exact List.count_eq_one_of_mem (t.nodup_select p)
        (List.mem_map_of_mem ((t.mem_select p).mpr ⟨h, hp⟩))
    · simp only [Option.any_some, hp]
      refine List.count_eq_zero_of_not_mem fun hk => hp ?_
      obtain ⟨r', hr', hkey⟩ := List.mem_map.mp hk
      obtain ⟨hfind, hp'⟩ := (t.mem_select p).mp hr'
      rw [hkey, h] at hfind
      rwa [Option.some.inj hfind]

end Table
