import DistribuQ.Library.Transition
import Mathlib.Algebra.Order.Group.Multiset

/-! What passes through a component in a run: the order in which a queue gives up what it takes in, and
values that are waiting or taken and at every moment one or the other. -/

namespace Transition
variable {S A α : Type*}

/-- The values that the moves of a run yield, in their order. -/
def flow (g : S → A → List α) (tr : List (S × A)) : List α := tr.flatMap fun x => g x.1 x.2

variable {g : S → A → List α} {tr tr' : List (S × A)} {s : S} {a : A}

@[simp] theorem flow_nil : flow g [] = [] := rfl

@[simp] theorem flow_append : flow g (tr ++ tr') = flow g tr ++ flow g tr' := List.flatMap_append

@[simp] theorem flow_cons : flow g ((s, a) :: tr) = g s a ++ flow g tr := rfl

theorem map_flow {β : Type*} (f : α → β) : (flow g tr).map f = flow (fun s a => (g s a).map f) tr := by
  rw [flow, flow, List.map_flatMap]

theorem count_flow [DecidableEq α] (b : α) : (flow g tr).count b = total (fun s a => (g s a).count b) tr := by
  induction tr with
  | nil => rfl
  | cons x tr ih =>
    rw [flow_cons, List.count_append, ih]
    rfl

theorem tally_flow (f : α → Nat) : tally f (flow g tr) = total (fun s a => tally f (g s a)) tr := by
  induction tr with
  | nil => rfl
  | cons x tr ih =>
    rw [flow_cons, tally_append, ih]
    rfl

variable {ok : S → A → Prop} {step : S → A → Option S} {s₀ : S}

/-- First in, first out. -/
theorem Run.first_out {queue : S → List α} {ins outs : S → A → List α} (h : Run ok step s₀ tr s)
    (hstep : ∀ s a s', ok s a → step s a = some s' → outs s a ++ queue s' = queue s ++ ins s a) :
    flow outs tr ++ queue s = queue s₀ ++ flow ins tr := by
  induction h with
  | nil => simp
  | @snoc tr s s' a _ ha hs ih =>
    calc flow outs (tr ++ [(s, a)]) ++ queue s' = flow outs tr ++ (outs s a ++ queue s') := by simp
      _ = flow outs tr ++ queue s ++ ins s a := by rw [hstep s a s' ha hs, List.append_assoc]
      _ = queue s₀ ++ flow ins (tr ++ [(s, a)]) := by rw [ih]; simp

/-- A queue that drops some of what it takes in still gives up the rest in its order, each once. -/
theorem Run.out_sublist {queue : S → List α} {ins outs : S → A → List α} (h : Run ok step s₀ tr s)
    (hstep : ∀ s a s', ok s a → step s a = some s' → (outs s a ++ queue s').Sublist (queue s ++ ins s a)) :
    (flow outs tr ++ queue s).Sublist (queue s₀ ++ flow ins tr) := by
  induction h with
  | nil => simp
  | @snoc tr s s' a _ ha hs ih =>
    have hlast : (flow outs tr ++ (outs s a ++ queue s')).Sublist (flow outs tr ++ (queue s ++ ins s a)) :=
      (hstep s a s' ha hs).append_left _
    have hall := hlast.trans ((List.append_assoc _ _ _).symm ▸ ih.append_right (ins s a))
    simpa using hall

end Transition

/-- Values that wait, and those that have been taken and are still held. -/
structure Custody (α : Type*) where
  waiting : Multiset α
  taken : Multiset α

namespace Custody
open Transition
variable {α : Type*} {c c' : Custody α} {as : List α}

/-- Values come to wait, and a reserve takes one in a single move. -/
inductive Step : List α → Custody α → Custody α → Prop
  | push (as : List α) (w t : Multiset α) : Step as ⟨w, t⟩ ⟨w + as, t⟩
  | reserve (a : α) (w t : Multiset α) : Step [] ⟨a ::ₘ w, t⟩ ⟨w, a ::ₘ t⟩

def all (c : Custody α) : Multiset α := c.waiting + c.taken

theorem Step.rest (c : Custody α) : Step [] c c := by
  have h := Step.push [] c.waiting c.taken
  rwa [Multiset.coe_nil, add_zero] at h

theorem Step.all_eq (h : Step as c c') : c'.all = c.all + as := by
  cases h with
  | push w t => exact add_right_comm _ _ _
  | reserve a w t => simp [all]

/-- Nothing is lost and nothing made in a run that makes such moves only. -/
theorem all_of_run {S A : Type*} {ok : S → A → Prop} {step : S → A → Option S} {s₀ s : S}
    {tr : List (S × A)} {custody : S → Custody α} {ins : S → A → List α} (h : Run ok step s₀ tr s)
    (hstep : ∀ s a s', ok s a → step s a = some s' → Step (ins s a) (custody s) (custody s')) :
    (custody s).all = (custody s₀).all + flow ins tr := by
  induction h with
  | nil => simp
  | @snoc tr s s' a _ ha hs ih =>
    have hall := (hstep s a s' ha hs).all_eq
    rw [hall, ih, flow_append, ← Multiset.coe_add, add_assoc, flow_cons, flow_nil, List.append_nil]

end Custody
