import DistribuQ.Proofs.Spellings

/-! The grammar of an interval rule, and `parse_interval` against it. -/

namespace DistribuQ
namespace Text
variable {c l : Char} {ds : List Char}

theorem decimal?_of_isDigit (h : c.isDigit = true) : decimal? c = some (c.toNat - '0'.toNat) := by
  obtain ⟨h0, h9⟩ : 48 ≤ c.toNat ∧ c.toNat ≤ 57 := Char.isDigit_iff_toNat.mp h
  have hzero : zeros.find? (fun z => z ≤ c.toNat && c.toNat < z + 10) = some 0x30 := by
    refine List.find?_cons_of_pos ?_
    simp only [Bool.and_eq_true, decide_eq_true_eq]
    omega
  rw [decimal?, hzero]
  rfl

theorem isDecimal_of_isDigit (h : c.isDigit = true) : isDecimal c = true := by
  rw [isDecimal, decimal?_of_isDigit h]
  rfl

theorem isDigit_of_isDecimal (hascii : c.toNat < 128) (h : isDecimal c = true) : c.isDigit = true := by
  have hzeros : ∀ z ∈ zeros, z = 0x30 ∨ 128 ≤ z := by decide
  obtain ⟨z, hz⟩ := Option.isSome_iff_exists.mp (Option.isSome_map.symm.trans h)
  have hbounds := List.find?_some hz
  simp only [Bool.and_eq_true, decide_eq_true_eq] at hbounds
  rcases hzeros z (List.mem_of_find?_eq_some hz) with rfl | hz
  · exact Char.isDigit_iff_toNat.mpr ⟨hbounds.1, Nat.le_of_lt_succ hbounds.2⟩
  · omega

theorem int_of_isDigit (h : ∀ d ∈ ds, d.isDigit = true) (hlength : ds.length ≤ maxStrDigits) :
    int ds = .ok (Nat.ofDigitChars 10 ds 0) := by
  rw [int, if_neg (not_lt.mpr hlength), Nat.ofDigitChars_eq_foldl]
  refine congrArg _ (List.foldl_ext _ _ _ fun n c hc => ?_)
  rw [decimal?_of_isDigit (h c hc), Option.getD_some]

theorem ignoreCase_of_toLower (h : c.toLower = l) : ignoreCase l c = true := by
  simp [ignoreCase, h]

theorem toLower_of_ignoreCase (hascii : c.toNat < 128) (h : ignoreCase l c = true) : c.toLower = l := by
  simp only [ignoreCase, Bool.or_eq_true, Bool.and_eq_true, decide_eq_true_eq] at h
  refine h.resolve_right ?_
  rintro ⟨-, rfl⟩
  exact absurd hascii (by decide)

theorem forall₂_of_map_toLower (w : List Char) :
    List.Forall₂ (fun l c => ignoreCase l c = true) (w.map Char.toLower) w := by
  induction w with
  | nil => exact .nil
  | cons c w ih => exact .cons (ignoreCase_of_toLower rfl) ih

theorem map_toLower_of_forall₂ {letters w : List Char} (hascii : ∀ c ∈ w, c.toNat < 128)
    (h : List.Forall₂ (fun l c => ignoreCase l c = true) letters w) : w.map Char.toLower = letters := by
  induction h with
  | nil => rfl
  | cons hc _ ih =>
    obtain ⟨hascii, hw⟩ := List.forall_mem_cons.mp hascii
    rw [List.map_cons, toLower_of_ignoreCase hascii hc, ih hw]

theorem strip_isInfix (s : List Char) : strip s <:+: s := by
  have hright : strip s <+: s.dropWhile isSpace := List.rdropWhile_prefix isSpace _
  exact hright.isInfix.trans (List.dropWhile_suffix isSpace).isInfix

end Text

namespace Recurrence

/-- `<digits>l` or nothing, and the number it stands for; `unit` holds of the ways to write `l`. -/
inductive PartDenotes (unit : Char → Prop) : List Char → Nat → Prop
  | absent : PartDenotes unit [] 0
  | written {ds : List Char} {c : Char} : ds ≠ [] → (∀ d ∈ ds, d.isDigit = true) → unit c →
    PartDenotes unit (ds ++ [c]) (Nat.ofDigitChars 10 ds 0)

/-- A stripped interval rule and its length in seconds; `unit l` holds of the ways to write the letter `l`. -/
inductive Denotes (unit : Char → Char → Prop) : List Char → Nat → Prop
  | rule {word spaces days hours minutes seconds : List Char} {d h m s : Nat} :
    word.map Char.toLower = every → spaces ≠ [] → (∀ c ∈ spaces, Text.isSpace c = true) →
    days ++ (hours ++ (minutes ++ seconds)) ≠ [] →
    PartDenotes (unit 'd') days d → PartDenotes (unit 'h') hours h →
    PartDenotes (unit 'm') minutes m → PartDenotes (unit 's') seconds s →
    Denotes unit (word ++ (spaces ++ (days ++ (hours ++ (minutes ++ seconds)))))
      (86400 * d + 3600 * h + 60 * m + s)

/-- Beyond `timedelta.max`, in seconds. -/
def timedeltaLimit : Nat := 86400 * 1000000000

/-- An ASCII rule whose runs of digits `int()` converts. -/
structure Readable (rule : String) : Prop where
  ascii : ∀ c ∈ rule.toList, c.toNat < 128
  runs : ∀ ds, ds <:+: rule.toList → (∀ d ∈ ds, d.isDigit = true) → ds.length ≤ Text.maxStrDigits

def renderPart (n : Option Nat) (l : String) : String := (n.map fun n => toString n ++ l).getD ""

/-- A rule for these numbers; a part that is zero may be left out. -/
def render (days hours minutes seconds : Option Nat) : String :=
  "@every " ++
    (renderPart days "d" ++ (renderPart hours "h" ++ (renderPart minutes "m" ++ renderPart seconds "s")))

/-- `parse_interval` accepts the rules of the grammar, with the letters written in these ways. -/
structure ParsesIntervals (unit : Char → Char → Prop) : Prop where
  accepts {rule : String} {delta : Time} : Readable rule →
    (parseInterval rule = .ok (some delta) ↔
      ∃ n, Denotes unit (Text.strip rule.toList) n ∧ 0 < n ∧ n < timedeltaLimit ∧ delta = seconds n)
  raises {rule : String} : Readable rule →
    ((∃ e, parseInterval rule = .error e) ↔
      ∃ n, Denotes unit (Text.strip rule.toList) n ∧ (n = 0 ∨ timedeltaLimit ≤ n))
  rejects {rule : String} : Readable rule →
    (parseInterval rule = .ok none ↔ ∀ n, ¬ Denotes unit (Text.strip rule.toList) n)
  rendered (d h m s : Option Nat) {n : Nat} :
    n = 86400 * d.getD 0 + 3600 * h.getD 0 + 60 * m.getD 0 + s.getD 0 → 0 < n → n < timedeltaLimit →
    parseInterval (render d h m s) = .ok (some (seconds n))

namespace Part
variable {i : Group}

/-- What a part stands for. -/
def number (o : Option (Part i)) : Nat := o.elim 0 fun p => Nat.ofDigitChars 10 p.digits 0

theorem of_denotes {t : List Char} {n : Nat} (h : PartDenotes (fun c => c.toLower = i.letter) t n) :
    ∃ o : Option (Part i), t = (o.map Part.text).getD [] ∧ n = number o := by
  cases h with
  | absent => exact ⟨none, rfl, rfl⟩
  | @written ds c hne hds hc =>
    have hdecimal : ∀ d ∈ ds, Text.isDecimal d = true := fun d hd => Text.isDecimal_of_isDigit (hds d hd)
    exact ⟨some ⟨ds, c, hne, hdecimal, Text.ignoreCase_of_toLower hc⟩, rfl, rfl⟩

theorem denotes (o : Option (Part i)) (hascii : ∀ c ∈ (o.map Part.text).getD [], c.toNat < 128) :
    PartDenotes (fun c => c.toLower = i.letter) ((o.map Part.text).getD []) (number o) := by
  cases o with
  | none => exact .absent
  | some p =>
    refine .written p.ne_nil (fun d hd => ?_) ?_
    · exact Text.isDigit_of_isDecimal (hascii d (List.mem_append_left _ hd)) (p.decimal d hd)
    · exact Text.toLower_of_ignoreCase (hascii p.unit (List.mem_append_right _ (.head _))) p.letter

end Part

namespace Spelling
variable {x : Spelling} {s : List Char} {n : Nat} {rule : String} {delta : Time}

/-- The length that a spelling stands for. -/
def length (x : Spelling) : Nat :=
  86400 * Part.number (x.parts .days) + 3600 * Part.number (x.parts .hours) +
    60 * Part.number (x.parts .minutes) + Part.number (x.parts .seconds)

/-- The digits of every part are ones that `int()` converts. -/
def Bounded (x : Spelling) : Prop :=
  ∀ i, ∀ p ∈ x.parts i, (∀ d ∈ p.digits, d.isDigit = true) ∧ p.digits.length ≤ Text.maxStrDigits

theorem text_eq (x : Spelling) : x.text = x.word ++ (x.spaces ++ (x.parts.textOf .days ++
    (x.parts.textOf .hours ++ (x.parts.textOf .minutes ++ x.parts.textOf .seconds)))) := by
  simp [text, Parts.text, groups]

theorem of_denotes (h : Denotes (fun l c => c.toLower = l) s n) :
    ∃ x : Spelling, s = x.text ∧ n = x.length := by
  cases h with
  | @rule word spaces _ _ _ _ _ _ _ _ hword hne hspaces _ hdays hhours hminutes hseconds =>
    obtain ⟨od, rfl, rfl⟩ := Part.of_denotes (i := .days) hdays
    obtain ⟨oh, rfl, rfl⟩ := Part.of_denotes (i := .hours) hhours
    obtain ⟨om, rfl, rfl⟩ := Part.of_denotes (i := .minutes) hminutes
    obtain ⟨os, rfl, rfl⟩ := Part.of_denotes (i := .seconds) hseconds
    let x : Spelling := ⟨word, spaces, .of od oh om os, hword ▸ Text.forall₂_of_map_toLower word, hne, hspaces⟩
    exact ⟨x, (text_eq x).symm, rfl⟩

theorem denotes (x : Spelling) (hascii : ∀ c ∈ x.text, c.toNat < 128)
    (hlast : ∀ c ∈ x.text.getLast?, Text.isSpace c = false) :
    Denotes (fun l c => c.toLower = l) x.text x.length := by
  rw [text_eq] at hascii hlast ⊢
  simp only [List.forall_mem_append] at hascii
  obtain ⟨hword, -, hdays, hhours, hminutes, hseconds⟩ := hascii
  refine .rule ?_ x.ne_nil x.isSpace ?_ (Part.denotes _ hdays) (Part.denotes _ hhours) (Part.denotes _ hminutes)
    (Part.denotes _ hseconds)
  · exact Text.map_toLower_of_forall₂ hword x.every
  · intro hnil
    rw [hnil, List.append_nil] at hlast
    obtain ⟨c, hc⟩ := Option.isSome_iff_exists.mp (List.getLast?_isSome.mpr x.ne_nil)
    have hspace := x.isSpace c (List.mem_of_getLast? hc)
    rw [hlast c (by rw [List.getLast?_append, hc]; rfl)] at hspace
    exact Bool.false_ne_true hspace

theorem groupInt_of_bounded (h : x.Bounded) (i : Group) :
    groupInt x.parts.captures i = .ok (Part.number (x.parts i)) := by
  rw [groupInt, Parts.captures]
  cases hx : x.parts i with
  | none => rfl
  | some p => exact Text.int_of_isDigit (h i p hx).1 (h i p hx).2

end Spelling

theorem seconds_pos {n : Nat} : 0 < DistribuQ.seconds n ↔ 0 < n := by
  show (0 : Int) < 1000000 * (n : Int) ↔ 0 < n
  omega

theorem timedelta_eq_ok {days hours minutes seconds : Nat} {delta : Time} :
    timedelta days hours minutes seconds = .ok delta ↔
      86400 * days + 3600 * hours + 60 * minutes + seconds < timedeltaLimit ∧
      delta = DistribuQ.seconds (86400 * days + 3600 * hours + 60 * minutes + seconds) := by
  unfold timedelta
  dsimp only
  generalize 86400 * days + 3600 * hours + 60 * minutes + seconds = n
  have hlimit : n / 86400 ≤ 999999999 ↔ n < timedeltaLimit := by
    rw [timedeltaLimit]
    omega
  rw [← hlimit]
  split_ifs with h
  · simp [h, eq_comm]
  · simp [h]
  · simp [h]

theorem Spelling.intervalOf_eq_ok {x : Spelling} {rule : String} {delta : Time} (h : x.Bounded) :
    intervalOf rule x.parts.captures = .ok delta ↔ 0 < x.length ∧ x.length < timedeltaLimit ∧
      delta = seconds x.length := by
  rw [Recurrence.intervalOf_eq_ok]
  simp only [groupInt_of_bounded h]
  constructor
  · rintro ⟨_, _, _, _, ⟨⟩, ⟨⟩, ⟨⟩, ⟨⟩, htotal, hpos⟩
    obtain ⟨hlimit, rfl⟩ := timedelta_eq_ok.mp htotal
    exact ⟨seconds_pos.mp hpos, hlimit, rfl⟩
  · rintro ⟨hpos, hlimit, rfl⟩
    exact ⟨_, _, _, _, rfl, rfl, rfl, rfl, timedelta_eq_ok.mpr ⟨hlimit, rfl⟩, seconds_pos.mpr hpos⟩

section
variable {i : Group} {d h m s : Option Nat} {l : String}

def Part.ofNat (i : Group) (n : Nat) : Part i where
  digits := Nat.toDigits 10 n
  unit := i.letter
  ne_nil := Nat.toDigits_ne_nil
  decimal _ hc := Text.isDecimal_of_isDigit (Nat.isDigit_of_mem_toDigits (by decide) (by decide) hc)
  letter := Text.ignoreCase_of_toLower (by cases i <;> rfl)

def Spelling.rendered (d h m s : Option Nat) : Spelling where
  word := Recurrence.every
  spaces := [' ']
  parts := .of (d.map (Part.ofNat .days)) (h.map (Part.ofNat .hours)) (m.map (Part.ofNat .minutes))
    (s.map (Part.ofNat .seconds))
  every := Text.forall₂_of_map_toLower Recurrence.every
  ne_nil := List.cons_ne_nil _ _
  isSpace := List.all_eq_true.mp (by decide)

theorem Part.number_ofNat (o : Option Nat) : Part.number (o.map (Part.ofNat i)) = o.getD 0 := by
  cases o with
  | none => rfl
  | some n => exact Nat.ofDigitChars_ten_toDigits

theorem toList_renderPart (o : Option Nat) (hl : l.toList = [i.letter]) :
    (renderPart o l).toList = ((o.map (Part.ofNat i)).map Part.text).getD [] := by
  cases o with
  | none => rfl
  | some n =>
    show (toString n ++ l).toList = Nat.toDigits 10 n ++ [i.letter]
    rw [String.toList_append, hl, Nat.toString_eq_ofList_toDigits, String.toList_ofList]

theorem toList_render : (render d h m s).toList = (Spelling.rendered d h m s).text := by
  rw [Spelling.text_eq, render]
  simp only [String.toList_append, toList_renderPart (i := .days) (l := "d") d rfl,
    toList_renderPart (i := .hours) (l := "h") h rfl, toList_renderPart (i := .minutes) (l := "m") m rfl,
    toList_renderPart (i := .seconds) (l := "s") s rfl]
  rfl

theorem Spelling.length_rendered :
    (rendered d h m s).length = 86400 * d.getD 0 + 3600 * h.getD 0 + 60 * m.getD 0 + s.getD 0 := by
  rw [length, rendered]
  simp only [Parts.of, Part.number_ofNat]

theorem Spelling.bounded_rendered (hlimit : (rendered d h m s).length < timedeltaLimit) :
    (rendered d h m s).Bounded := by
  intro i p hp
  rw [length_rendered, timedeltaLimit] at hlimit
  obtain ⟨n, hn, rfl⟩ : ∃ n < 10 ^ 14, p = Part.ofNat i n := by
    cases i <;> (obtain ⟨n, rfl, rfl⟩ := Option.map_eq_some_iff.mp hp; exact ⟨n, by simp at hlimit; omega, rfl⟩)
  refine ⟨fun c hc => Nat.isDigit_of_mem_toDigits (by decide) (by decide) hc, ?_⟩
  exact (Nat.length_toDigits_le_iff (by decide) (by decide)).mpr
    (hn.trans_le (Nat.pow_le_pow_right (by decide) (by decide)))

theorem Spelling.length_of_text_nil {x : Spelling} (h : x.parts.text groups = []) : x.length = 0 := by
  have hnone (i : Group) : x.parts i = none := by
    have htext := List.flatMap_eq_nil_iff.mp h i (mem_groups i)
    cases hi : x.parts i with
    | none => rfl
    | some p =>
      rw [Parts.textOf_of_some hi] at htext
      exact absurd htext (List.append_ne_nil_of_right_ne_nil _ (List.cons_ne_nil _ _))
  rw [length, hnone, hnone, hnone, hnone]
  rfl

theorem Spelling.strip_rendered (hpos : 0 < (rendered d h m s).length) :
    Text.strip (rendered d h m s).text = (rendered d h m s).text := by
  have hne : (rendered d h m s).parts.text groups ≠ [] := fun hnil => hpos.ne' (length_of_text_nil hnil)
  refine Text.strip_eq_self (by rintro _ ⟨⟩; rfl) fun c hc => ?_
  rw [text, ← List.append_assoc, List.getLast?_append_of_ne_nil _ hne] at hc
  exact Parts.isSpace_of_text c (List.mem_of_getLast? hc)

end

section
variable {rule : String}

theorem Readable.bounded {x : Spelling} (h : Readable rule) (hx : Text.strip rule.toList = x.text) :
    x.Bounded := by
  intro i p hp
  have hsub : p.digits <:+: rule.toList := by
    refine List.IsInfix.trans ?_ (Text.strip_isInfix _)
    rw [hx]
    have htext : p.digits <:+: x.parts.textOf i := by
      rw [Parts.textOf_of_some hp]
      exact (List.prefix_append _ _).isInfix
    exact htext.trans ((x.parts.textOf_isInfix (mem_groups i)).trans
      ⟨x.word ++ x.spaces, [], by simp [Spelling.text]⟩)
  have hdigits : ∀ d ∈ p.digits, d.isDigit = true :=
    fun d hd => Text.isDigit_of_isDecimal (h.ascii d (hsub.subset hd)) (p.decimal d hd)
  exact ⟨hdigits, h.runs p.digits hsub hdigits⟩

/-- The grammar and the spellings of the code have the same texts and lengths. -/
theorem Readable.denotes_iff (h : Readable rule) {n : Nat} :
    Denotes (fun l c => c.toLower = l) (Text.strip rule.toList) n ↔
      ∃ x : Spelling, Text.strip rule.toList = x.text ∧ n = x.length := by
  constructor
  · exact Spelling.of_denotes
  · rintro ⟨x, hx, rfl⟩
    have hlast := Text.isSpace_strip_getLast rule.toList
    rw [hx] at hlast ⊢
    exact x.denotes (fun c hc => h.ascii c ((Text.strip_isInfix _).subset (hx ▸ hc))) hlast

theorem parsesIntervals : ParsesIntervals fun l c => c.toLower = l where
  accepts h := by
    simp only [h.denotes_iff, parseInterval_eq_some]
    constructor
    · rintro ⟨x, hx, hd⟩
      exact ⟨_, ⟨x, hx, rfl⟩, (Spelling.intervalOf_eq_ok (h.bounded hx)).mp hd⟩
    · rintro ⟨_, ⟨x, hx, rfl⟩, hd⟩
      exact ⟨x, hx, (Spelling.intervalOf_eq_ok (h.bounded hx)).mpr hd⟩
  raises h := by
    simp only [h.denotes_iff, parseInterval_eq_error]
    constructor
    · rintro ⟨x, hx, hraises⟩
      refine ⟨_, ⟨x, hx, rfl⟩, ?_⟩
      by_contra hrange
      obtain ⟨hne, hlimit⟩ := not_or.mp hrange
      exact hraises _ ((Spelling.intervalOf_eq_ok (h.bounded hx)).mpr
        ⟨Nat.pos_of_ne_zero hne, not_le.mp hlimit, rfl⟩)
    · rintro ⟨_, ⟨x, hx, rfl⟩, hrange⟩
      refine ⟨x, hx, fun d hd => ?_⟩
      obtain ⟨hpos, hlimit, -⟩ := (Spelling.intervalOf_eq_ok (h.bounded hx)).mp hd
      omega
  rejects h := by
    simp only [h.denotes_iff, parseInterval_eq_none]
    constructor
    · rintro hnone n ⟨x, hx, -⟩
      exact hnone x hx
    · exact fun hnone x hx => hnone _ ⟨x, hx, rfl⟩
  rendered d h m s n hn hpos hlimit := by
    rw [← Spelling.length_rendered] at hn
    subst hn
    refine parseInterval_eq_some.mpr ⟨Spelling.rendered d h m s, ?_, ?_⟩
    · rw [toList_render, Spelling.strip_rendered hpos]
    · exact (Spelling.intervalOf_eq_ok (Spelling.bounded_rendered hlimit)).mpr ⟨hpos, hlimit, rfl⟩

end

section
variable {unit : Char → Char → Prop} {p : Char → Prop} {s t : List Char} {l : Char} {n : Nat}

theorem getLast?_append_of (hs : ∀ c ∈ s.getLast?, p c) (ht : ∀ c ∈ t.getLast?, p c) :
    ∀ c ∈ (s ++ t).getLast?, p c := by
  cases t with
  | nil => rwa [List.append_nil]
  | cons c t => rwa [List.getLast?_append_of_ne_nil _ (List.cons_ne_nil c t)]

theorem PartDenotes.unit_of_getLast? (h : PartDenotes (unit l) s n) (hl : l ∈ ['d', 'h', 'm', 's']) :
    ∀ c ∈ s.getLast?, ∃ l ∈ ['d', 'h', 'm', 's'], unit l c := by
  cases h with
  | absent => rintro _ ⟨⟩
  | written _ _ hc =>
    intro c hlast
    rw [List.getLast?_concat] at hlast
    cases hlast
    exact ⟨l, hl, hc⟩

/-- A rule ends in a letter. -/
theorem Denotes.unit_of_getLast? (h : Denotes unit s n) :
    ∀ c ∈ s.getLast?, ∃ l ∈ ['d', 'h', 'm', 's'], unit l c := by
  cases h with
  | rule _ _ _ hne hdays hhours hminutes hseconds =>
    rw [← List.append_assoc, List.getLast?_append_of_ne_nil _ hne]
    exact getLast?_append_of (hdays.unit_of_getLast? (by decide)) (getLast?_append_of
      (hhours.unit_of_getLast? (by decide)) (getLast?_append_of (hminutes.unit_of_getLast? (by decide))
        (hseconds.unit_of_getLast? (by decide))))

end

/-- A capital S is a letter for the code. -/
theorem not_parsesIntervals : ¬ ParsesIntervals fun l c => c = l := by
  intro h
  have hascii : ("@every 10S".toList.all fun c => decide (c.toNat < 128)) = true := by decide
  have hreadable : Readable "@every 10S" :=
    ⟨fun c hc => of_decide_eq_true (List.all_eq_true.mp hascii c hc),
      fun _ hds _ => hds.length_le.trans (by decide)⟩
  have hparse : parseInterval "@every 10S" = .ok (some 10000000) := rfl
  obtain ⟨n, hn, -⟩ := (h.accepts hreadable).mp hparse
  obtain ⟨l, hl, rfl⟩ := hn.unit_of_getLast? 'S' rfl
  exact absurd hl (by decide)

end Recurrence
end DistribuQ
