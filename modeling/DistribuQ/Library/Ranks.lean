import Mathlib.Data.List.Sort
import Mathlib.Data.List.Perm.Basic
import Mathlib.Data.List.Pairwise
import Mathlib.Data.List.Count
import Mathlib.Data.List.Flatten
import Mathlib.Data.Prod.Lex
import Mathlib.Order.Bounds.Basic

/-! Where an element stands in a sorted list, by the counts of the elements below it: the nearest rank of a
percentage, and the pages of several sorted lists of the same elements. -/

namespace Ranks
variable {α β : Type*}

/-- A property that an element of the list passes on to the ones before it holds of as many as come first. -/
theorem lt_countP_iff {p : α → Bool} {l : List α} (hl : l.Pairwise fun a b => p b = true → p a = true) {i : ℕ}
    (hi : i < l.length) : i < l.countP p ↔ p l[i] = true := by
  induction l generalizing i with
  | nil => cases hi
  | cons a l ih =>
    obtain ⟨ha, hl⟩ := List.pairwise_cons.mp hl
    rw [List.countP_cons]
    by_cases hp : p a = true
    · rw [if_pos hp]
      cases i with
      | zero => simp [hp]
      | succ i =>
        rw [Nat.succ_lt_succ_iff, ih hl (Nat.lt_of_succ_lt_succ hi), List.getElem_cons_succ]
    · have hnone : l.countP p = 0 := List.countP_eq_zero.mpr fun b hb hpb => hp (ha b hb hpb)
      rw [if_neg hp, hnone]
      refine iff_of_false (Nat.not_lt_zero i) fun hpi => ?_
      cases i with
      | zero => exact hp hpi
      | succ i => exact hp (ha _ (List.getElem_mem _) hpi)

section
variable [LinearOrder β] (key : α → β)

abbrev Sorted (l : List α) : Prop := l.Pairwise fun a b => key a ≤ key b

/-- How many elements come before `x` in every sorted order. -/
def below (l : List α) (x : α) : ℕ := l.countP fun y => key y < key x

/-- How many elements come up to and with `x`, where those with the same key come first. -/
def upto (l : List α) (x : α) : ℕ := l.countP fun y => key y ≤ key x

variable {key} {l l' : List α} {x y : α} {i : ℕ}

theorem below_perm (h : l.Perm l') : below key l x = below key l' x := h.countP_eq _

theorem upto_perm (h : l.Perm l') : upto key l x = upto key l' x := h.countP_eq _

theorem below_mono (h : key x ≤ key y) : below key l x ≤ below key l y :=
  List.countP_mono_left fun _ _ hz => decide_eq_true ((of_decide_eq_true hz).trans_le h)

theorem below_lt_length (hx : x ∈ l) : below key l x < l.length :=
  List.countP_lt_length_iff.mpr ⟨x, hx, by simp⟩

theorem Sorted.below_le (h : Sorted key l) (hi : i < l.length) : below key l l[i] ≤ i := by
  have hclosed : l.Pairwise fun a b => decide (key b < key l[i]) = true → decide (key a < key l[i]) = true :=
    h.imp fun hab hb => decide_eq_true (hab.trans_lt (of_decide_eq_true hb))
  refine Nat.le_of_not_lt fun hlt => ?_
  exact lt_irrefl _ (of_decide_eq_true ((lt_countP_iff hclosed hi).mp hlt))

/-- The elements up to a bound come first. -/
theorem Sorted.lt_countP_le_iff (h : Sorted key l) (hi : i < l.length) (v : β) :
    i < l.countP (fun y => key y ≤ v) ↔ key l[i] ≤ v := by
  have hclosed : l.Pairwise fun a b => decide (key b ≤ v) = true → decide (key a ≤ v) = true :=
    h.imp fun hab hb => decide_eq_true (hab.trans (of_decide_eq_true hb))
  rw [lt_countP_iff hclosed hi, decide_eq_true_eq]

theorem Sorted.lt_upto (h : Sorted key l) (hi : i < l.length) : i < upto key l l[i] :=
  (h.lt_countP_le_iff hi _).mpr le_rfl

end

/-- The element at index `k` is the least one that more than `k` elements do not exceed. -/
theorem isLeast_getElem [LinearOrder α] {l : List α} (h : l.Pairwise (· ≤ ·)) {k : ℕ} (hk : k < l.length) :
    IsLeast {v | v ∈ l ∧ k < l.countP (· ≤ v)} l[k] := by
  have hsorted : Sorted id l := h
  refine ⟨⟨List.getElem_mem hk, hsorted.lt_upto hk⟩, fun v hv => ?_⟩
  obtain ⟨_, hv⟩ := hv
  exact (hsorted.lt_countP_le_iff hk v).mp hv

/-! Pages. -/

/-- Page `i`, of `n` elements. -/
def page (n i : ℕ) (l : List α) : List α := (l.drop (n * i)).take n

theorem mem_page {n : ℕ} {l : List α} {k : ℕ} {x : α} (hn : 0 < n) (hx : l[k]? = some x) :
    x ∈ page n (k / n) l := by
  obtain ⟨hk, rfl⟩ := List.getElem?_eq_some_iff.mp hx
  have hle : n * (k / n) ≤ k := Nat.mul_div_le k n
  have hlt : k < n * (k / n) + n := Nat.lt_mul_div_succ k hn
  rw [page, List.mem_take_iff_getElem]
  refine ⟨k - n * (k / n), ?_, ?_⟩
  · rw [List.length_drop]
    omega
  · rw [List.getElem_drop]
    congr 1
    omega

/-- If the number of an element's page is known from the element, a page is what has its number. -/
theorem page_eq_filter {n : ℕ} {l : List α} {f : α → ℕ}
    (hf : ∀ k (hk : k < l.length), f l[k] = k / n) (hn : 0 < n) (i : ℕ) :
    page n i l = l.filter fun x => f x = i := by
  have hsplit : l = l.take (n * i) ++ (page n i l ++ (l.drop (n * i)).drop n) := by
    rw [page, List.take_append_drop, List.take_append_drop]
  have hbefore : (l.take (n * i)).filter (fun x => f x = i) = [] := by
    refine List.filter_eq_nil_iff.mpr fun x hx hfx => ?_
    obtain ⟨k, hk, rfl⟩ := List.mem_take_iff_getElem.mp hx
    rw [decide_eq_true_eq, hf, Nat.div_eq_iff hn] at hfx
    rw [Nat.mul_comm] at hfx
    omega
  have hafter : ((l.drop (n * i)).drop n).filter (fun x => f x = i) = [] := by
    refine List.filter_eq_nil_iff.mpr fun x hx hfx => ?_
    rw [List.drop_drop] at hx
    obtain ⟨k, hk, rfl⟩ := List.mem_drop_iff_getElem.mp hx
    rw [decide_eq_true_eq, hf, Nat.div_eq_iff hn, Nat.mul_comm] at hfx
    omega
  have hpage : (page n i l).filter (fun x => f x = i) = page n i l := by
    refine List.filter_eq_self.mpr fun x hx => ?_
    obtain ⟨k, hk, rfl⟩ := List.mem_take_iff_getElem.mp hx
    rw [List.length_drop] at hk
    rw [List.getElem_drop, decide_eq_true_eq, hf, Nat.div_eq_iff hn, Nat.mul_comm]
    omega
  conv_rhs => rw [hsplit, List.filter_append, List.filter_append, hbefore, hafter, hpage]
  simp

theorem flatMap_filter_perm (f : α → ℕ) (l : List α) (K : ℕ) :
    ((List.range K).flatMap fun i => l.filter fun x => f x = i).Perm (l.filter fun x => f x < K) := by
  induction K with
  | zero => simp
  | succ K ih =>
    rw [List.range_succ, List.flatMap_append, List.flatMap_singleton]
    have hlow : (l.filter fun x => f x < K) = (l.filter fun x => f x < K + 1).filter fun x => f x < K := by
      rw [List.filter_filter]
      refine List.filter_congr fun x _ => ?_
      rw [← Bool.decide_and, decide_eq_decide]
      omega
    have hlast : (l.filter fun x => f x = K) =
        (l.filter fun x => f x < K + 1).filter fun x => !decide (f x < K) := by
      rw [List.filter_filter]
      refine List.filter_congr fun x _ => ?_
      rw [← decide_not, ← Bool.decide_and, decide_eq_decide]
      omega
    refine (ih.append_right _).trans ?_
    rw [hlow, hlast]
    exact List.filter_append_perm _ _

section
variable [LinearOrder β] {key : α → β} {rows l : List α} {n K : ℕ} {ls : ℕ → List α} {x : α}

/-- No border between two pages falls between elements with the same key. -/
def Unbroken (key : α → β) (n : ℕ) (rows : List α) : Prop :=
  ∀ x ∈ rows, below key rows x / n = (upto key rows x - 1) / n

/-- The first `K` pages, each taken from an order of its own. -/
def pages (n : ℕ) (ls : ℕ → List α) (K : ℕ) : List α := (List.range K).flatMap fun i => page n i (ls i)

theorem page_of_unbroken (h : Unbroken key n rows) (hn : 0 < n) (hl : Sorted key l) (hp : l.Perm rows) (i : ℕ) :
    page n i l = l.filter fun x => below key rows x / n = i := by
  refine page_eq_filter (f := fun x => below key rows x / n) (fun k hk => ?_) hn i
  have hunbroken := h l[k] (hp.mem_iff.mp (List.getElem_mem hk))
  have hle := hl.below_le hk
  have hlt := hl.lt_upto hk
  rw [below_perm hp] at hle
  rw [upto_perm hp] at hlt
  -- `k` lies between two places on the same page
  refine le_antisymm (Nat.div_le_div_right hle) ?_
  rw [hunbroken]
  exact Nat.div_le_div_right (by omega)

theorem pages_perm (h : Unbroken key n rows) (hn : 0 < n) (hls : ∀ i, Sorted key (ls i) ∧ (ls i).Perm rows)
    (hK : rows.length ≤ n * K) : (pages n ls K).Perm rows := by
  have hpage (i : ℕ) : (page n i (ls i)).Perm (rows.filter fun x => below key rows x / n = i) := by
    rw [page_of_unbroken h hn (hls i).1 (hls i).2]
    exact (hls i).2.filter _
  have hall : (rows.filter fun x => below key rows x / n < K) = rows := by
    refine List.filter_eq_self.mpr fun x hx => decide_eq_true ?_
    exact Nat.div_lt_of_lt_mul ((below_lt_length hx).trans_le hK)
  have hperm := flatMap_filter_perm (fun x => below key rows x / n) rows K
  rw [hall] at hperm
  exact (List.Perm.flatMap_left _ fun i _ => hpage i).trans hperm

theorem pages_sorted (h : Unbroken key n rows) (hn : 0 < n) (hls : ∀ i, Sorted key (ls i) ∧ (ls i).Perm rows) :
    Sorted key (pages n ls K) := by
  refine List.pairwise_flatMap.mpr ⟨fun i _ => (hls i).1.sublist ?_, ?_⟩
  · exact (List.take_sublist _ _).trans (List.drop_sublist _ _)
  · refine List.pairwise_lt_range.imp fun hij x hx y hy => ?_
    rw [page_of_unbroken h hn (hls _).1 (hls _).2, List.mem_filter, decide_eq_true_eq] at hx hy
    refine le_of_not_gt fun hyx => ?_
    have hle : below key rows y / n ≤ below key rows x / n := Nat.div_le_div_right (below_mono hyx.le)
    rw [hx.2, hy.2] at hle
    exact absurd hij (not_lt.mpr hle)

theorem countP_and_ne [DecidableEq α] {p : α → Bool} (hrows : rows.Nodup) (hx : x ∈ rows) (hp : p x = true) :
    (rows.countP fun y => p y && decide (y ≠ x)) + 1 = rows.countP p := by
  have hperm := List.perm_cons_erase hx
  have hnone : x ∉ rows.erase x := hrows.not_mem_erase
  rw [hperm.countP_eq, hperm.countP_eq, List.countP_cons, List.countP_cons, if_pos hp]
  have hcongr : (rows.erase x).countP (fun y => p y && decide (y ≠ x)) = (rows.erase x).countP p := by
    refine List.countP_congr fun y hy => ?_
    have hne : y ≠ x := fun h => hnone (h ▸ hy)
    simp [hne]
  rw [hcongr]
  simp

variable (key) in
/-- Among the elements with its key `x` can stand first, and it can stand last. -/
theorem exists_sorted_getElem? (hrows : rows.Nodup) (hx : x ∈ rows) (last : Bool) :
    ∃ l, Sorted key l ∧ l.Perm rows ∧
      l[if last then upto key rows x - 1 else below key rows x]? = some x := by
  classical
  -- the order by the key, and among equal keys by whether an element is `x`
  let tie (y : α) : ℕ := if y = x then last.toNat else (!last).toNat
  let key' (y : α) : β ×ₗ ℕ := toLex (key y, tie y)
  let l := rows.mergeSort fun a b => key' a ≤ key' b
  have hperm : l.Perm rows := List.mergeSort_perm _ _
  have hsorted : Sorted key' l := by
    have htrans (a b c : α) (hab : decide (key' a ≤ key' b) = true) (hbc : decide (key' b ≤ key' c) = true) :
        decide (key' a ≤ key' c) = true :=
      decide_eq_true ((of_decide_eq_true hab).trans (of_decide_eq_true hbc))
    have htotal (a b : α) : (decide (key' a ≤ key' b) || decide (key' b ≤ key' a)) = true := by
      simpa using le_total (key' a) (key' b)
    exact (List.pairwise_mergeSort htrans htotal rows).imp of_decide_eq_true
  have hkey : Sorted key l :=
    hsorted.imp fun hab => (Prod.Lex.toLex_le_toLex.mp hab).elim le_of_lt fun h => h.1.le
  obtain ⟨k, hk, hkx⟩ := List.mem_iff_getElem.mp (hperm.mem_iff.mpr hx)
  have hget : l[k]? = some x := List.getElem?_eq_some_iff.mpr ⟨hk, hkx⟩
  have hle := hsorted.below_le hk
  have hlt := hsorted.lt_upto hk
  rw [hkx, below_perm hperm] at hle
  rw [hkx, upto_perm hperm] at hlt
  have hupto : upto key' rows x = below key' rows x + 1 := by
    refine (countP_and_ne hrows hx (decide_eq_true le_rfl)).symm.trans (congrArg (· + 1) ?_)
    refine List.countP_congr fun y _ => ?_
    rw [Bool.and_eq_true, decide_eq_true_eq, decide_eq_true_eq, decide_eq_true_eq, lt_iff_le_and_ne]
    refine and_congr_right fun _ => not_congr ⟨fun h => h ▸ rfl, fun h => ?_⟩
    have htie : tie y = tie x := congrArg (fun z => (ofLex z).2) h
    by_contra hne
    simp only [tie, if_neg hne, if_pos] at htie
    cases last <;> cases htie
  refine ⟨l, hkey, hperm, Eq.trans (congrArg (l[·]?) ?_) hget⟩
  cases last with
  | false =>
    have hbelow : below key' rows x = below key rows x := by
      refine List.countP_congr fun y _ => ?_
      simp only [decide_eq_true_eq, key', tie, Prod.Lex.toLex_lt_toLex]
      split_ifs <;> simp
    rw [if_neg Bool.false_ne_true]
    omega
  | true =>
    have hall : upto key' rows x = upto key rows x := by
      refine List.countP_congr fun y _ => ?_
      simp only [decide_eq_true_eq, key', tie, Prod.Lex.toLex_le_toLex]
      split_ifs <;> simp [le_iff_lt_or_eq]
    rw [if_pos rfl]
    omega

variable (key) in
/-- The pages taken together have every element once, whatever the orders, exactly if no border falls between
equal keys. -/
theorem unbroken_iff (hrows : rows.Nodup) (hn : 0 < n) : Unbroken key n rows ↔
    ∀ ls : ℕ → List α, (∀ i, Sorted key (ls i) ∧ (ls i).Perm rows) → ∀ K, rows.length ≤ n * K →
      (pages n ls K).Perm rows ∧ Sorted key (pages n ls K) := by
  refine ⟨fun h ls hls K hK => ⟨pages_perm h hn hls hK, pages_sorted h hn hls⟩, fun h x hx => ?_⟩
  obtain ⟨first, hfirst, hpfirst, hget⟩ := exists_sorted_getElem? key hrows hx false
  obtain ⟨last, hlast, hplast, hget'⟩ := exists_sorted_getElem? key hrows hx true
  rw [if_neg Bool.false_ne_true] at hget
  rw [if_pos rfl] at hget'
  by_contra hne
  -- `x` is on the one page in the one order, and on the other page in the other
  let ls (i : ℕ) : List α := if i = below key rows x / n then first else last
  have hls (i : ℕ) : Sorted key (ls i) ∧ (ls i).Perm rows := by
    by_cases hi : i = below key rows x / n
    · rw [show ls i = first from if_pos hi]
      exact ⟨hfirst, hpfirst⟩
    · rw [show ls i = last from if_neg hi]
      exact ⟨hlast, hplast⟩
  have hx₁ : x ∈ page n (below key rows x / n) (ls (below key rows x / n)) := by
    rw [show ls (below key rows x / n) = first from if_pos rfl]
    exact mem_page hn hget
  have hx₂ : x ∈ page n ((upto key rows x - 1) / n) (ls ((upto key rows x - 1) / n)) := by
    rw [show ls ((upto key rows x - 1) / n) = last from if_neg (Ne.symm hne)]
    exact mem_page hn hget'
  have hK : rows.length ≤ n * (rows.length + 1) := (Nat.le_succ _).trans (Nat.le_mul_of_pos_left _ hn)
  have hlow : below key rows x / n < rows.length + 1 :=
    (Nat.div_le_self _ _).trans_lt (Nat.lt_succ_of_lt (below_lt_length hx))
  have hhigh : (upto key rows x - 1) / n < rows.length + 1 :=
    (Nat.div_le_self _ _).trans_lt (Nat.lt_succ_of_le ((Nat.sub_le _ _).trans List.countP_le_length))
  have hnodup : (pages n ls (rows.length + 1)).Nodup := (h ls hls _ hK).1.nodup_iff.mpr hrows
  have hdisjoint := (List.nodup_flatMap.mp hnodup).2
  have hsymm : Std.Symm (Function.onFun List.Disjoint fun i => page n i (ls i)) :=
    ⟨fun _ _ h _ hy hx => h hx hy⟩
  exact hdisjoint.forall (List.mem_range.mpr hlow) (List.mem_range.mpr hhigh) hne hx₁ hx₂

end

end Ranks
