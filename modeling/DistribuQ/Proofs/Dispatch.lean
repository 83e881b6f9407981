import DistribuQ.Model.Api
import DistribuQ.Proofs.Spellings

/-! Two recognisers of an interval rule: the prefix test of `compute_next_run`, which sees the case of a letter,
and the expression of `parse_interval`, which does not. -/

namespace DistribuQ
open Recurrence

namespace Text
variable {c : Char} {s t spaces : List Char}

theorem split_of_spaces (h : ∀ c ∈ spaces, isSpace c = true) : split (spaces ++ s) = split s := by
  induction spaces with
  | nil => rfl
  | cons c spaces ih =>
    obtain ⟨hc, hspaces⟩ := List.forall_mem_cons.mp h
    have hnone (d : Char) (hd : d ∈ ([] : List Char)) : isSpace d = false := absurd hd List.not_mem_nil
    have hcut : (c :: (spaces ++ s)).splitOnP isSpace = [] :: (spaces ++ s).splitOnP isSpace :=
      List.splitOnP_append_cons_of_forall_mem hnone c hc _
    rw [List.cons_append, split, hcut, ← ih hspaces]
    rfl

theorem split_of_field (hne : s ≠ []) (hs : ∀ c ∈ s, isSpace c = false) : split s = [s] := by
  rw [split, List.splitOnP_eq_singleton hs, List.filter_cons_of_pos (by simpa using hne)]
  rfl

theorem split_append (hne : s ≠ []) (hs : ∀ c ∈ s, isSpace c = false) (hc : isSpace c = true) :
    split (s ++ c :: t) = s :: split t := by
  rw [split, List.splitOnP_append_cons_of_forall_mem hs c hc, List.filter_cons_of_pos (by simpa using hne)]
  rfl

theorem isSpace_of_forall₂ {letters w : List Char} (hletters : ∀ l ∈ letters, isSpace l = false)
    (h : List.Forall₂ (fun l c => ignoreCase l c = true) letters w) : ∀ c ∈ w, isSpace c = false := by
  induction h with
  | nil => exact fun c hc => absurd hc List.not_mem_nil
  | cons hc _ ih =>
    obtain ⟨hl, hletters⟩ := List.forall_mem_cons.mp hletters
    exact List.forall_mem_cons.mpr ⟨isSpace_of_ignoreCase hl hc, ih hletters⟩

end Text

/-- It raises on a string of 2, 3, 4 or more than 7 fields, and on none; an alias such as `@daily` is one field. -/
def Croniter.Strict (cron : Croniter) : Prop :=
  ∀ rule start, (Text.split rule.toList).length ∉ [1, 5, 6, 7] → cron.getNext rule start = none

namespace Recurrence

/-- What the dispatcher does with a rule that stands for the interval `d`. -/
structure Dispatches (cron : Croniter) (rule : String) (d : Time) (after : DateTime) : Prop where
  computed (now : DateTime) : computeNextRun cron now rule (some after) = .ok ⟨after.wall + d, after.utcOffset⟩
  valid (now : DateTime) : now.utcOffset = some 0 → now.InRange d → isValidRecurrenceRule cron now rule = true
  submitted {req : JobCreateRequest} {st : Store} (ch : Choice) :
    req.recurrenceRule = some rule → DateTime.InRange ⟨st.clock, some 0⟩ d →
    (Submit.next (.validate req)).bind (fun op => op.exec (Env.ofCroniter cron) ch st) = some (st, .create req)

structure DispatchLaw (cron : Croniter) : Prop where
  /-- The prefix test lets an interval rule pass when it is written in lower case. -/
  dispatches_iff {rule : String} {d : Time} {after : DateTime} : parseInterval rule = .ok (some d) →
    after.utcOffset.isSome → after.InRange d →
    (Dispatches cron rule d after ↔ every <+: Text.strip rule.toList)
  parsed {now next : DateTime} {rule : String} {after : Option DateTime} : every <+: Text.strip rule.toList →
    computeNextRun cron now rule after = .ok next → ∃ d, parseInterval rule = .ok (some d)

section
variable {cron : Croniter} {now after next : DateTime} {rule : String} {d : Time} {x : Spelling}

theorem Spelling.text_ne_nil (x : Spelling) : x.text ≠ [] := fun h =>
  x.ne_nil (List.append_eq_nil_iff.mp (List.append_eq_nil_iff.mp h).2).1

theorem nextRunFromInterval_eq_ok {o : Option DateTime} : nextRunFromInterval now rule o = .ok next ↔
    ∃ d, parseInterval rule = .ok (some d) ∧ (o.getD now).add d = .ok next := by
  rw [nextRunFromInterval, bind_eq_ok]
  constructor
  · rintro ⟨_ | d, hd, h⟩
    · cases h
    · exact ⟨d, hd, h⟩
  · rintro ⟨d, hd, h⟩
    exact ⟨some d, hd, h⟩

theorem strip_ne_nil (h : every <+: Text.strip rule.toList) : Text.strip rule.toList ≠ [] := by
  intro hnil
  rw [hnil] at h
  exact absurd (List.prefix_nil.mp h) (by decide)

/-- A rule that the prefix test lets pass is an interval rule or none. -/
theorem computeNextRun_of_every {o : Option DateTime} (h : every <+: Text.strip rule.toList) :
    computeNextRun cron now rule o = .ok next ↔
      ∃ d, parseInterval rule = .ok (some d) ∧ (o.getD now).add d = .ok next := by
  rw [computeNextRun, if_neg (strip_ne_nil h), if_pos h, nextRunFromInterval_eq_ok]
  simp only [parseInterval_strip]

theorem add_eq_ok : after.add d = .ok next ↔ after.InRange d ∧ next = ⟨after.wall + d, after.utcOffset⟩ := by
  unfold DateTime.add
  split_ifs with h
  · simp [h, eq_comm]
  · simp [h]

theorem Spelling.isSpace_word (x : Spelling) : ∀ c ∈ x.word, Text.isSpace c = false := by
  refine Text.isSpace_of_forall₂ (fun l hl => ?_) x.every
  have hevery : (Recurrence.every.all fun l => !Text.isSpace l) = true := by decide
  simpa using List.all_eq_true.mp hevery l hl

/-- An interval rule is two fields. -/
theorem Spelling.split_text (x : Spelling) (hlast : ∀ c ∈ x.text.getLast?, Text.isSpace c = false) :
    Text.split x.text = [x.word, x.parts.text groups] := by
  have hword : x.word ≠ [] := by
    intro hnil
    have hlength := x.every.length_eq
    rw [hnil] at hlength
    cases hlength
  have hparts : x.parts.text groups ≠ [] := by
    intro hnil
    rw [text, hnil, List.append_nil, List.getLast?_append_of_ne_nil _ x.ne_nil] at hlast
    obtain ⟨c, hc⟩ := Option.isSome_iff_exists.mp (List.getLast?_isSome.mpr x.ne_nil)
    exact Bool.false_ne_true ((hlast c hc).symm.trans (x.isSpace c (List.mem_of_getLast? hc)))
  obtain ⟨c, spaces, hspaces⟩ := List.exists_cons_of_ne_nil x.ne_nil
  have hspace := x.isSpace
  rw [hspaces, List.forall_mem_cons] at hspace
  rw [text, hspaces, List.cons_append, Text.split_append hword x.isSpace_word hspace.1,
    Text.split_of_spaces hspace.2, Text.split_of_field hparts Parts.isSpace_of_text]

theorem computeNextRun_of_not_every {o : Option DateTime} (hcron : cron.Strict)
    (h : ¬ every <+: Text.strip rule.toList) (hd : parseInterval rule = .ok (some d)) :
    computeNextRun cron now rule o = .error .croniter := by
  obtain ⟨x, hx, -⟩ := parseInterval_eq_some.mp hd
  have hfields : (Text.split (String.ofList x.text).toList).length ∉ [1, 5, 6, 7] := by
    rw [String.toList_ofList, x.split_text (hx ▸ Text.isSpace_strip_getLast rule.toList)]
    show 2 ∉ [1, 5, 6, 7]
    decide
  rw [computeNextRun, if_neg (hx ▸ x.text_ne_nil), if_neg h, hx, nextRunFromCron, hcron _ _ hfields]

end

theorem dispatchLaw {cron : Croniter} (hcron : cron.Strict) : DispatchLaw cron where
  dispatches_iff {rule d after} hd haware hrange := by
    constructor
    · intro h
      by_contra hevery
      have hcomputed := h.computed after
      rw [computeNextRun_of_not_every hcron hevery hd] at hcomputed
      cases hcomputed
    · intro hevery
      have hnow {now : DateTime} (hrange : now.InRange d) :
          computeNextRun cron now rule none = .ok ⟨now.wall + d, now.utcOffset⟩ :=
        (computeNextRun_of_every hevery).mpr ⟨d, hd, add_eq_ok.mpr ⟨hrange, rfl⟩⟩
      refine ⟨fun now => ?_, fun now _ hrange => ?_, fun {req st} ch hreq hrange => ?_⟩
      · exact (computeNextRun_of_every hevery).mpr ⟨d, hd, add_eq_ok.mpr ⟨hrange, rfl⟩⟩
      · rw [isValidRecurrenceRule, hnow hrange]
      · have hne : rule ≠ "" := by
          rintro rfl
          exact strip_ne_nil hevery rfl
        simp only [Submit.next, hreq]
        rw [if_pos hne]
        simp [Op.exec, Call.isLocal, Call.run, Env.ofCroniter, hnow hrange]
  parsed hevery h := by
    obtain ⟨d, hd, -⟩ := (computeNextRun_of_every hevery).mp h
    exact ⟨d, hd⟩

/-- The real one on `* * * * *`, and on the rules that it raises on. -/
def everyMinute : Croniter where
  getNext rule start := if rule = "* * * * *" then some ((start / 60000000 + 1) * 60000000) else none

theorem everyMinute_strict : everyMinute.Strict := by
  intro rule start hfields
  refine if_neg ?_
  rintro rfl
  exact hfields (by decide)

theorem dispatches_seconds : Dispatches everyMinute "@every 30s" 30000000 ⟨0, some 0⟩ :=
  ((dispatchLaw everyMinute_strict).dispatches_iff rfl rfl (by decide)).mpr (by decide)

/-- In capitals the rule goes to `croniter`. -/
theorem not_dispatches : ¬ ∀ (cron : Croniter) (rule : String) (d : Time) (after : DateTime), cron.Strict →
    parseInterval rule = .ok (some d) → after.utcOffset.isSome → after.InRange d →
      Dispatches cron rule d after := by
  intro h
  have hdispatches := h everyMinute "@EVERY 30s" 30000000 ⟨0, some 0⟩ everyMinute_strict rfl rfl (by decide)
  have hcomputed := hdispatches.computed ⟨0, some 0⟩
  cases hcomputed

end Recurrence
end DistribuQ
