import DistribuQ.Model.Recurrence
namespace DistribuQ
namespace Text
variable {c l : Char} {s : List Char}

theorem isSpace_strip_head (s : List Char) : ∀ c ∈ (strip s).head?, isSpace c = false := by
  intro c hc
  obtain ⟨t, ht⟩ := List.rdropWhile_prefix isSpace (s.dropWhile isSpace)
  have hhead : c ∈ (s.dropWhile isSpace).head? := by
    rw [← ht]
    exact List.mem_head?_append_of_mem_head? hc
  have hnot := List.head?_dropWhile_not isSpace s
  rwa [Option.mem_def.mp hhead] at hnot

theorem isSpace_strip_getLast (s : List Char) : ∀ c ∈ (strip s).getLast?, isSpace c = false := by
  intro c hc
  obtain ⟨hne, rfl⟩ := List.mem_getLast?_eq_getLast hc
  exact eq_false_of_ne_true (List.rdropWhile_last_not isSpace (s.dropWhile isSpace) hne)

theorem strip_eq_self (hhead : ∀ c ∈ s.head?, isSpace c = false) (hlast : ∀ c ∈ s.getLast?, isSpace c = false) :
    strip s = s := by
  have hdrop : s.dropWhile isSpace = s := by
    cases s with
    | nil => rfl
    | cons c s => rw [List.dropWhile_cons, hhead c rfl, if_neg Bool.false_ne_true]
  rw [strip, hdrop]
  refine List.rdropWhile_eq_self_iff.mpr fun hne => ?_
  rw [hlast _ (List.getLast_mem_getLast? hne)]
  exact Bool.false_ne_true

@[simp] theorem strip_strip (s : List Char) : strip (strip s) = strip s :=
  strip_eq_self (isSpace_strip_head s) (isSpace_strip_getLast s)

theorem eq_of_toLower (h : c.toLower = l) : c = l ∨ (65 ≤ c.toNat ∧ c.toNat ≤ 90) ∧ c.toNat + 32 = l.toNat := by
  unfold Char.toLower at h
  split_ifs at h with hupper
  · have hcode : 65 ≤ c.val.toNat ∧ c.val.toNat ≤ 90 := hupper
    refine .inr ⟨hcode, ?_⟩
    rw [← h]
    show c.val.toNat + 32 = (c.val + 32).toNat
    rw [UInt32.toNat_add, show (32 : UInt32).toNat = 32 from rfl]
    omega
  · exact .inl h

theorem isSpace_of_ignoreCase (hl : isSpace l = false) (h : ignoreCase l c = true) : isSpace c = false := by
  have hupper : ∀ n < 91, 65 ≤ n → isSpaceCode n = false := by decide
  simp only [ignoreCase, Bool.or_eq_true, Bool.and_eq_true, decide_eq_true_eq] at h
  rcases h with h | ⟨-, rfl⟩
  · rcases eq_of_toLower h with rfl | ⟨hcode, -⟩
    · exact hl
    · exact hupper c.toNat (Nat.lt_succ_of_le hcode.2) hcode.1
  · decide

/-- No digit is whitespace. -/
theorem isSpace_of_isDecimal (h : isDecimal c = true) : isSpace c = false := by
  have hzeros : ∀ z ∈ zeros, ∀ k < 10, isSpaceCode (z + k) = false := by decide
  obtain ⟨z, hz⟩ := Option.isSome_iff_exists.mp (Option.isSome_map.symm.trans h)
  have hbounds := List.find?_some hz
  simp only [Bool.and_eq_true, decide_eq_true_eq] at hbounds
  have hspace := hzeros z (List.mem_of_find?_eq_some hz) (c.toNat - z) (by omega)
  rwa [Nat.add_sub_cancel' hbounds.1] at hspace

end Text

namespace Recurrence

namespace Group

def letter : Group → Char
  | days => 'd'
  | hours => 'h'
  | minutes => 'm'
  | seconds => 's'

/-- What the letter matches. -/
def forms : Group → List Char
  | days => ['d', 'D']
  | hours => ['h', 'H']
  | minutes => ['m', 'M']
  | seconds => ['s', 'S', 'ſ']

theorem mem_forms {i : Group} {c : Char} (h : Text.ignoreCase i.letter c = true) : c ∈ i.forms := by
  have hcode {u : Char} (hu : c.toNat + 32 = u.toNat + 32) : c = u :=
    Char.toNat_inj.mp (Nat.add_right_cancel hu)
  simp only [Text.ignoreCase, Bool.or_eq_true, Bool.and_eq_true, decide_eq_true_eq] at h
  rcases h with h | ⟨hs, rfl⟩
  · rcases Text.eq_of_toLower h with rfl | ⟨-, h⟩
    · cases i <;> decide
    · cases i with
      | days => exact .tail _ (hcode (u := 'D') h ▸ .head _)
      | hours => exact .tail _ (hcode (u := 'H') h ▸ .head _)
      | minutes => exact .tail _ (hcode (u := 'M') h ▸ .head _)
      | seconds => exact .tail _ (hcode (u := 'S') h ▸ .head _)
  · cases i <;> first | decide | cases hs

theorem letter_unique {i j : Group} {c : Char} (hi : Text.ignoreCase i.letter c = true)
    (hj : Text.ignoreCase j.letter c = true) : i = j := by
  have hcommon : (i.forms.any fun c => j.forms.contains c) = true → i = j := by
    cases i <;> cases j <;> decide
  exact hcommon (List.any_eq_true.mpr ⟨c, mem_forms hi, List.contains_iff_mem.mpr (mem_forms hj)⟩)

theorem isDecimal_of_letter {i : Group} {c : Char} (h : Text.ignoreCase i.letter c = true) :
    Text.isDecimal c = false := by
  have hforms : (i.forms.all fun c => !Text.isDecimal c) = true := by
    cases i <;> decide
  have hc := List.all_eq_true.mp hforms c (mem_forms h)
  rwa [Bool.not_eq_true'] at hc

theorem isSpace_of_letter {i : Group} {c : Char} (h : Text.ignoreCase i.letter c = true) :
    Text.isSpace c = false :=
  Text.isSpace_of_ignoreCase (by cases i <;> decide) h

end Group

/-- `<digits>l`, as a rule spells it. -/
structure Part (i : Group) where
  digits : List Char
  unit : Char
  ne_nil : digits ≠ []
  decimal : ∀ d ∈ digits, Text.isDecimal d = true
  letter : Text.ignoreCase i.letter unit = true

def Part.text {i : Group} (p : Part i) : List Char := p.digits ++ [p.unit]

/-- The parts that a rule spells. -/
abbrev Parts := (i : Group) → Option (Part i)

namespace Parts
variable {x y : Parts}

def of (days : Option (Part .days)) (hours : Option (Part .hours)) (minutes : Option (Part .minutes))
    (seconds : Option (Part .seconds)) : Parts
  | .days => days
  | .hours => hours
  | .minutes => minutes
  | .seconds => seconds

def textOf (x : Parts) (i : Group) : List Char := ((x i).map Part.text).getD []

def text (x : Parts) (is : List Group) : List Char := is.flatMap x.textOf

theorem textOf_isInfix {is : List Group} {i : Group} (x : Parts) (h : i ∈ is) : x.textOf i <:+: x.text is := by
  obtain ⟨before, behind, rfl⟩ := List.append_of_mem h
  exact ⟨x.text before, x.text behind, by simp [text]⟩

def captures (x : Parts) : Regex.Captures Group Char := fun i => (x i).map Part.digits

@[simp] theorem text_cons (x : Parts) (i : Group) (is : List Group) :
    x.text (i :: is) = x.textOf i ++ x.text is := rfl

theorem textOf_of_none {i : Group} (h : x i = none) : x.textOf i = [] := by
  rw [textOf, h]
  rfl

theorem textOf_of_some {i : Group} {p : Part i} (h : x i = some p) : x.textOf i = p.digits ++ [p.unit] := by
  rw [textOf, h]
  rfl

/-- The first letter that is no digit stands for one of the parts. -/
theorem letter_of_dropWhile {is : List Group} {c : Char}
    (h : c ∈ ((x.text is).dropWhile Text.isDecimal).head?) : ∃ i ∈ is, Text.ignoreCase i.letter c = true := by
  induction is with
  | nil => cases h
  | cons i is ih =>
    rw [text_cons] at h
    cases hx : x i with
    | none =>
      rw [textOf_of_none hx, List.nil_append] at h
      obtain ⟨j, hj, hletter⟩ := ih h
      exact ⟨j, .tail _ hj, hletter⟩
    | some p =>
      rw [textOf_of_some hx, List.append_assoc, List.dropWhile_append_of_pos p.decimal, List.singleton_append,
        List.dropWhile_cons, Group.isDecimal_of_letter p.letter, if_neg Bool.false_ne_true] at h
      cases h
      exact ⟨i, .head _, p.letter⟩

theorem not_text_of_part {i : Group} {is : List Group} {p : Part i} {l : List Char} (hi : i ∉ is) :
    x.text is ≠ p.text ++ l := by
  intro h
  have hletter : p.unit ∈ ((x.text is).dropWhile Text.isDecimal).head? := by
    rw [h, Part.text, List.append_assoc, List.dropWhile_append_of_pos p.decimal, List.singleton_append,
      List.dropWhile_cons, Group.isDecimal_of_letter p.letter, if_neg Bool.false_ne_true]
    rfl
  obtain ⟨j, hj, hunit⟩ := letter_of_dropWhile hletter
  exact hi (Group.letter_unique p.letter hunit ▸ hj)

/-- A text is read as parts in one way. -/
theorem captures_of_text {is : List Group} (hnodup : is.Nodup) (h : x.text is = y.text is) :
    ∀ i ∈ is, x.captures i = y.captures i := by
  induction is with
  | nil => simp
  | cons i is ih =>
    obtain ⟨hi, hnodup⟩ := List.nodup_cons.mp hnodup
    rw [text_cons, text_cons] at h
    rw [List.forall_mem_cons]
    cases hx : x i with
    | none =>
      rw [textOf_of_none hx, List.nil_append] at h
      cases hy : y i with
      | none =>
        rw [textOf_of_none hy, List.nil_append] at h
        exact ⟨by rw [captures, captures, hx, hy], ih hnodup h⟩
      | some q =>
        rw [textOf_of_some hy] at h
        exact absurd h (not_text_of_part hi)
    | some p =>
      rw [textOf_of_some hx] at h
      cases hy : y i with
      | none =>
        rw [textOf_of_none hy, List.nil_append] at h
        exact absurd h.symm (not_text_of_part hi)
      | some q =>
        rw [textOf_of_some hy, List.append_assoc, List.append_assoc] at h
        obtain ⟨hdigits, hrest⟩ := Regex.cut_unique h p.decimal q.decimal
          (by rintro _ ⟨⟩; exact Group.isDecimal_of_letter p.letter)
          (by rintro _ ⟨⟩; exact Group.isDecimal_of_letter q.letter)
        refine ⟨?_, ih hnodup (List.cons.inj hrest).2⟩
        rw [captures, captures, hx, hy, Option.map_some, Option.map_some, hdigits]

theorem isSpace_of_text {is : List Group} : ∀ c ∈ x.text is, Text.isSpace c = false := by
  intro c hc
  obtain ⟨i, -, hc⟩ := List.mem_flatMap.mp hc
  cases hx : x i with
  | none => exact absurd (textOf_of_none hx ▸ hc) List.not_mem_nil
  | some p =>
    rcases List.mem_append.mp (textOf_of_some hx ▸ hc) with hc | hc
    · exact Text.isSpace_of_isDecimal (p.decimal c hc)
    · exact List.mem_singleton.mp hc ▸ Group.isSpace_of_letter p.letter

end Parts

def groups : List Group := [.days, .hours, .minutes, .seconds]

theorem mem_groups (i : Group) : i ∈ groups := by
  cases i <;> decide

/-- An interval rule without the whitespace around it. -/
structure Spelling where
  word : List Char
  spaces : List Char
  parts : Parts
  every : List.Forall₂ (fun l c => Text.ignoreCase l c = true) every word
  ne_nil : spaces ≠ []
  isSpace : ∀ c ∈ spaces, Text.isSpace c = true

namespace Spelling

def text (x : Spelling) : List Char := x.word ++ (x.spaces ++ x.parts.text groups)

/-- Where nothing but a newline follows, a text is read in one way. -/
theorem captures_of_text {x y : Spelling} (h : x.text = y.text) : x.parts.captures = y.parts.captures := by
  have hlength : x.word.length = y.word.length := x.every.length_eq.symm.trans y.every.length_eq
  obtain ⟨-, h⟩ := List.append_inj h hlength
  have hhead (z : Parts) : ∀ c ∈ (z.text groups).head?, Text.isSpace c = false :=
    fun c hc => Parts.isSpace_of_text c (List.mem_of_mem_head? hc)
  obtain ⟨-, h⟩ := Regex.cut_unique h x.isSpace y.isSpace (hhead x.parts) (hhead y.parts)
  funext i
  exact Parts.captures_of_text (by decide) h i (mem_groups i)

end Spelling

theorem matches_literal {letters w rest : List Char} {r : Regex Group Char} {g g' : Regex.Captures Group Char} :
    (literal letters r).Matches g w rest g' ↔
      ∃ u v, w = u ++ v ∧ List.Forall₂ (fun l c => Text.ignoreCase l c = true) letters u ∧
        r.Matches g v rest g' := by
  induction letters generalizing w with
  | nil =>
    constructor
    · exact fun h => ⟨[], w, rfl, .nil, h⟩
    · rintro ⟨_, v, rfl, ⟨⟩, h⟩
      exact h
  | cons l letters ih =>
    constructor
    · rintro ⟨_, v, _, rfl, ⟨⟨c, hc, rfl⟩, rfl⟩, h⟩
      obtain ⟨u, v, rfl, hu, h⟩ := ih.mp h
      exact ⟨c :: u, v, rfl, .cons hc hu, h⟩
    · rintro ⟨_, v, rfl, hu, h⟩
      cases hu with
      | @cons _ c _ u hc hu => exact ⟨[c], u ++ v, g, rfl, ⟨⟨c, hc, rfl⟩, rfl⟩, ih.mpr ⟨u, v, rfl, hu, h⟩⟩

theorem matches_part {i : Group} {w rest : List Char} {g g' : Regex.Captures Group Char} (hg : g i = none) :
    (part i i.letter).Matches g w rest g' ↔
      ∃ o : Option (Part i), w = (o.map Part.text).getD [] ∧ g' = Function.update g i (o.map Part.digits) := by
  constructor
  · rintro (⟨ds, _, _, rfl, ⟨_, ⟨⟨hne, hds⟩, rfl⟩, rfl⟩, ⟨c, hc, rfl⟩, rfl⟩ | ⟨rfl, rfl⟩)
    · exact ⟨some ⟨ds, c, hne, hds, hc⟩, rfl, rfl⟩
    · exact ⟨none, rfl, (Function.update_eq_self_iff.mpr hg.symm).symm⟩
  · rintro ⟨o, rfl, rfl⟩
    cases o with
    | none => exact .inr ⟨rfl, Function.update_eq_self_iff.mpr hg.symm⟩
    | some p =>
      exact .inl ⟨p.digits, [p.unit], _, rfl, ⟨g, ⟨⟨p.ne_nil, p.decimal⟩, rfl⟩, rfl⟩,
        ⟨p.unit, p.letter, rfl⟩, rfl⟩

theorem matches_dollar {w rest : List Char} {g g' : Regex.Captures Group Char} :
    dollar.Matches g w rest g' ↔ (rest = [] ∨ rest = ['\n']) ∧ w = [] ∧ g' = g := by
  simp [dollar, Regex.Matches, and_assoc]

theorem matches_intervalRe {w rest : List Char} {g : Regex.Captures Group Char} :
    intervalRe.Matches (fun _ => none) w rest g ↔
      ∃ x : Spelling, w = x.text ∧ g = x.parts.captures ∧ (rest = [] ∨ rest = ['\n']) := by
  constructor
  · intro h
    obtain ⟨word, _, rfl, hword, spaces, _, _, rfl, ⟨⟨hne, hspaces⟩, rfl⟩, h⟩ := matches_literal.mp h
    obtain ⟨_, _, _, rfl, hdays, _, _, _, rfl, hhours, _, _, _, rfl, hminutes, _, _, _, rfl, hseconds, h⟩ := h
    obtain ⟨od, rfl, rfl⟩ := matches_part rfl |>.mp hdays
    obtain ⟨oh, rfl, rfl⟩ := matches_part rfl |>.mp hhours
    obtain ⟨om, rfl, rfl⟩ := matches_part rfl |>.mp hminutes
    obtain ⟨os, rfl, rfl⟩ := matches_part rfl |>.mp hseconds
    obtain ⟨hrest, rfl, rfl⟩ := matches_dollar.mp h
    refine ⟨⟨word, spaces, .of od oh om os, hword, hne, hspaces⟩, rfl, ?_, hrest⟩
    funext i
    cases i <;> rfl
  · rintro ⟨x, rfl, rfl, hrest⟩
    refine matches_literal.mpr ⟨x.word, _, rfl, x.every, x.spaces, _, _, rfl, ⟨⟨x.ne_nil, x.isSpace⟩, rfl⟩, ?_⟩
    refine ⟨_, _, _, rfl, matches_part rfl |>.mpr ⟨x.parts .days, rfl, rfl⟩, ?_⟩
    refine ⟨_, _, _, rfl, matches_part rfl |>.mpr ⟨x.parts .hours, rfl, rfl⟩, ?_⟩
    refine ⟨_, _, _, rfl, matches_part rfl |>.mpr ⟨x.parts .minutes, rfl, rfl⟩, ?_⟩
    refine ⟨_, _, _, rfl, matches_part rfl |>.mpr ⟨x.parts .seconds, rfl, rfl⟩, ?_⟩
    refine matches_dollar.mpr ⟨hrest, rfl, ?_⟩
    funext i
    cases i <;> rfl

section
variable {rule : String} {x : Spelling} {d : Time}

theorem eq_text_of_match? {s : List Char} {m : Regex.Captures Group Char}
    (h : intervalRe.match? (Text.strip s) = some m) :
    ∃ x : Spelling, Text.strip s = x.text ∧ m = x.parts.captures := by
  obtain ⟨w, rest, hs, hw⟩ := Regex.matches_of_match? h
  obtain ⟨x, rfl, rfl, rfl | rfl⟩ := matches_intervalRe.mp hw
  · exact ⟨x, hs.trans (List.append_nil _), rfl⟩
  · -- no newline is left at the end
    have hlast := Text.isSpace_strip_getLast s '\n' (by rw [hs, List.getLast?_concat]; rfl)
    exact absurd hlast (by decide)

theorem match?_text {s : List Char} (h : Text.strip s = x.text) :
    intervalRe.match? (Text.strip s) = some x.parts.captures := by
  have hmatch : intervalRe.Matches (fun _ => none) x.text [] x.parts.captures :=
    matches_intervalRe.mpr ⟨x, rfl, rfl, .inl rfl⟩
  obtain ⟨m, hm⟩ := Option.isSome_iff_exists.mp
    (Regex.isSome_match?.mpr ⟨_, _, _, h.trans (List.append_nil _).symm, hmatch⟩)
  obtain ⟨y, hy, rfl⟩ := eq_text_of_match? hm
  rw [hm, Spelling.captures_of_text (h.symm.trans hy)]

theorem parseInterval_text (h : Text.strip rule.toList = x.text) :
    parseInterval rule = (intervalOf rule x.parts.captures).map some := by
  rw [parseInterval, match?_text h]

theorem parseInterval_of_not_text (h : ∀ x : Spelling, Text.strip rule.toList ≠ x.text) :
    parseInterval rule = .ok none := by
  unfold parseInterval
  cases hm : intervalRe.match? (Text.strip rule.toList) with
  | none => rfl
  | some m =>
    obtain ⟨x, hx, -⟩ := eq_text_of_match? hm
    exact absurd hx (h x)

theorem parseInterval_eq_none :
    parseInterval rule = .ok none ↔ ∀ x : Spelling, Text.strip rule.toList ≠ x.text := by
  refine ⟨fun h x hx => ?_, parseInterval_of_not_text⟩
  rw [parseInterval_text hx] at h
  cases hm : intervalOf rule x.parts.captures <;> rw [hm] at h <;> cases h

theorem exists_text_of_ne_none (h : parseInterval rule ≠ .ok none) :
    ∃ x : Spelling, Text.strip rule.toList = x.text := by
  by_contra hx
  exact h (parseInterval_of_not_text fun x hx' => hx ⟨x, hx'⟩)

theorem parseInterval_eq_some : parseInterval rule = .ok (some d) ↔
    ∃ x : Spelling, Text.strip rule.toList = x.text ∧ intervalOf rule x.parts.captures = .ok d := by
  constructor
  · intro h
    obtain ⟨x, hx⟩ := exists_text_of_ne_none (by rw [h]; rintro ⟨⟩)
    refine ⟨x, hx, ?_⟩
    rw [parseInterval_text hx] at h
    cases hm : intervalOf rule x.parts.captures with
    | error e =>
      rw [hm] at h
      cases h
    | ok d' =>
      rw [hm] at h
      cases h
      rfl
  · rintro ⟨x, hx, h⟩
    rw [parseInterval_text hx, h]
    rfl

theorem parseInterval_eq_error : (∃ e, parseInterval rule = .error e) ↔
    ∃ x : Spelling, Text.strip rule.toList = x.text ∧ ∀ d, intervalOf rule x.parts.captures ≠ .ok d := by
  constructor
  · rintro ⟨e, h⟩
    obtain ⟨x, hx⟩ := exists_text_of_ne_none (by rw [h]; rintro ⟨⟩)
    refine ⟨x, hx, fun d hd => ?_⟩
    rw [parseInterval_text hx, hd] at h
    cases h
  · rintro ⟨x, hx, hraises⟩
    rw [parseInterval_text hx]
    cases hm : intervalOf rule x.parts.captures with
    | error e => exact ⟨e, rfl⟩
    | ok d => exact absurd hm (hraises d)

theorem bind_eq_ok {α β : Type} {e : Except PyException α} {f : α → Except PyException β} {b : β} :
    (e >>= f) = .ok b ↔ ∃ a, e = .ok a ∧ f a = .ok b := by
  cases e with
  | error e =>
    constructor
    · intro h
      cases h
    · rintro ⟨_, ⟨⟩, _⟩
  | ok a =>
    constructor
    · exact fun h => ⟨a, rfl, h⟩
    · rintro ⟨_, ⟨⟩, h⟩
      exact h

theorem intervalOf_eq_ok {m : Regex.Captures Group Char} : intervalOf rule m = .ok d ↔
    ∃ days hours minutes seconds, groupInt m .days = .ok days ∧ groupInt m .hours = .ok hours ∧
      groupInt m .minutes = .ok minutes ∧ groupInt m .seconds = .ok seconds ∧
      timedelta days hours minutes seconds = .ok d ∧ 0 < d := by
  simp only [intervalOf, bind_eq_ok]
  constructor
  · rintro ⟨days, hdays, hours, hhours, minutes, hminutes, seconds, hseconds, total, htotal, h⟩
    split_ifs at h with hpos
    cases h
    exact ⟨days, hours, minutes, seconds, hdays, hhours, hminutes, hseconds, htotal, not_le.mp hpos⟩
  · rintro ⟨days, hours, minutes, seconds, hdays, hhours, hminutes, hseconds, htotal, hpos⟩
    exact ⟨days, hdays, hours, hhours, minutes, hminutes, seconds, hseconds, d, htotal,
      if_neg (not_le.mpr hpos)⟩

/-- `compute_next_run` and `parse_interval` both strip the rule. -/
theorem parseInterval_strip {o : Option Time} :
    parseInterval (String.ofList (Text.strip rule.toList)) = .ok o ↔ parseInterval rule = .ok o := by
  cases o with
  | none => simp only [parseInterval_eq_none, String.toList_ofList, Text.strip_strip]
  | some d => simp only [parseInterval_eq_some, String.toList_ofList, Text.strip_strip, intervalOf_eq_ok]

end

end Recurrence
end DistribuQ
