import DistribuQ.Model.Api
import DistribuQ.Model.Columns

/-! What the model of a request lets through against what the columns of `jobs` hold. -/

namespace DistribuQ

namespace PyJson
mutual

theorem storable_iff : (v : PyJson) →
    (v.storable = true ↔ (∀ s ∈ v.strings, PyStr.storable s = true) ∧ ∀ q ∈ v.numbers, q.isSome = true)
  | .null | .bool _ => by simp [storable, strings, numbers]
  | .num q => by simp [storable, strings, numbers]
  | .str s => by simp [storable, strings, numbers]
  | .arr xs => by
    rw [storable, strings, numbers]
    exact storableItems_iff xs
  | .obj kvs => by
    rw [storable, strings, numbers]
    exact storableMembers_iff kvs

theorem storableItems_iff : (xs : List PyJson) → (storableItems xs = true ↔
    (∀ s ∈ stringsOfItems xs, PyStr.storable s = true) ∧ ∀ q ∈ numbersOfItems xs, q.isSome = true)
  | [] => by simp [storableItems, stringsOfItems, numbersOfItems]
  | x :: xs => by
    rw [storableItems, stringsOfItems, numbersOfItems, Bool.and_eq_true, storable_iff x, storableItems_iff xs,
      List.forall_mem_append, List.forall_mem_append]
    exact and_and_and_comm

theorem storableMembers_iff : (kvs : List (PyStr × PyJson)) → (storableMembers kvs = true ↔
    (∀ s ∈ stringsOfMembers kvs, PyStr.storable s = true) ∧ ∀ q ∈ numbersOfMembers kvs, q.isSome = true)
  | [] => by simp [storableMembers, stringsOfMembers, numbersOfMembers]
  | (k, x) :: kvs => by
    rw [storableMembers, stringsOfMembers, numbersOfMembers, Bool.and_eq_true, Bool.and_eq_true, storable_iff x,
      storableMembers_iff kvs, List.forall_mem_cons, List.forall_mem_append, List.forall_mem_append]
    exact (and_congr_right fun _ => and_and_and_comm).trans and_assoc.symm

end
end PyJson

theorem Timestamptz.holds (now : Timestamptz) : SqlType.timestamptz.holds (.timestamptz now.time) = true :=
  Bool.and_eq_true_iff.mpr ⟨decide_eq_true now.lower, decide_eq_true now.upper⟩

section
variable {id : Uuid} {now : Timestamptz}

/-- Every default of the table passes the checks of its column. -/
theorem holds_default : ∀ c ∈ jobsColumns, ∀ d ∈ c.default, c.holds (d.eval id now) = true := by
  simp only [jobsColumns, List.forall_mem_cons]
  refine ⟨?_, ?_, ?_, ?_, ?_, ?_, ?_, ?_, ?_, ?_, ?_, ?_, ?_, ?_, ?_, ?_,
    fun _ h => absurd h List.not_mem_nil⟩ <;>
    rintro d ⟨⟩ <;> first | rfl | exact Bool.and_eq_true_iff.mpr ⟨now.holds, rfl⟩

/-- Every status that a row takes is in the list of the `CHECK`. -/
theorem holds_status (status : JobStatus) :
    ∀ c ∈ jobsColumns, c.name = "status" → c.holds (.text status.text) = true := by
  simp only [jobsColumns, List.forall_mem_cons]
  refine ⟨?_, ?_, ?_, ?_, ?_, ?_, ?_, ?_, ?_, ?_, ?_, ?_, ?_, ?_, ?_, ?_,
    fun _ h => absurd h List.not_mem_nil⟩ <;>
    intro hname <;> first | exact absurd hname (by decide) | (cases status <;> rfl)

variable {jobType : String} {payload : PyJson} {priority : Int} {maxAttempts : Nat} {scheduledFor : Option Time}
  {recurrenceRule : Option String}

/-- The columns that `create_job` leaves out do not fail. -/
theorem insertable_createJobValues :
    Insertable (createJobValues jobType payload priority maxAttempts scheduledFor recurrenceRule) id now ↔
      SqlType.text.holds (.text jobType) = true ∧ SqlType.jsonb.holds (.jsonb payload) = true ∧
      SqlType.smallint.holds (.integer priority) = true ∧ SqlType.int.holds (.integer maxAttempts) = true ∧
      (∀ t ∈ scheduledFor, SqlType.timestamptz.holds (.timestamptz t) = true) ∧
      ∀ rule ∈ recurrenceRule, SqlType.text.holds (.text rule) = true := by
  simp only [Insertable, jobsColumns, List.forall_mem_cons]
  constructor
  · rintro ⟨-, htype, hpayload, -, hpriority, -, hmax, -, hscheduled, hrule, -⟩
    refine ⟨(Bool.and_eq_true_iff.mp htype).1, (Bool.and_eq_true_iff.mp hpayload).1,
      (Bool.and_eq_true_iff.mp hpriority).1, (Bool.and_eq_true_iff.mp hmax).1, ?_, ?_⟩
    · rintro t rfl
      exact (Bool.and_eq_true_iff.mp hscheduled).1
    · rintro rule rfl
      exact (Bool.and_eq_true_iff.mp hrule).1
  · rintro ⟨htype, hpayload, hpriority, hmax, hscheduled, hrule⟩
    refine ⟨rfl, Bool.and_eq_true_iff.mpr ⟨htype, rfl⟩, Bool.and_eq_true_iff.mpr ⟨hpayload, rfl⟩, rfl,
      Bool.and_eq_true_iff.mpr ⟨hpriority, rfl⟩, rfl, Bool.and_eq_true_iff.mpr ⟨hmax, rfl⟩, rfl, ?_, ?_,
      rfl, rfl, rfl, rfl, Bool.and_eq_true_iff.mpr ⟨now.holds, rfl⟩, Bool.and_eq_true_iff.mpr ⟨now.holds, rfl⟩,
      fun _ h => absurd h List.not_mem_nil⟩
    · cases scheduledFor with
      | none => rfl
      | some t => exact Bool.and_eq_true_iff.mpr ⟨hscheduled t rfl, rfl⟩
    · cases recurrenceRule with
      | none => rfl
      | some rule => exact Bool.and_eq_true_iff.mpr ⟨hrule rule rfl, rfl⟩

/-- The row that the model of `create_job` inserts has these values. -/
theorem values_toJob (workerName : WorkerId → String) (new : NewJob) :
    (new.toJob now.time id).values workerName = jobsColumns.map fun c =>
      (c.name, inserted (createJobValues new.type (.obj (Json.membersToPython new.payload)) new.priority
        new.maxAttempts new.scheduledFor new.recurrenceRule) id now c) := rfl

end

namespace Columns

/-- What the table can hold of a request. -/
structure Fits (req : JobCreateRequest) : Prop where
  priority : -32768 ≤ req.priority ∧ req.priority ≤ 32767
  type : '\x00' ∉ req.type.toList
  rule : ∀ rule ∈ req.recurrenceRule, '\x00' ∉ rule.toList
  strings : ∀ s ∈ (PyJson.obj req.payload).strings, PyStr.storable s = true
  numbers : ∀ q ∈ (PyJson.obj req.payload).numbers, q.isSome = true

theorem holds_text {s : String} : SqlType.text.holds (.text s) = true ↔ '\x00' ∉ s.toList := by
  simp [SqlType.holds]

/-- A `datetime` is within a day of its wall clock. -/
theorem holds_toTimestamptz (d : PyDateTime) (session : SessionZone) :
    SqlType.timestamptz.holds (.timestamptz (d.toTimestamptz session.toZone)) = true := by
  have hmin : (-62135596800000000 : Int) ≤ d.wall := d.min_le
  have hmax : d.wall ≤ (253402300799999999 : Int) := d.le_max
  have hoffset : -86400000000 < d.utcOffset.getD (session.localOffset d.wall) ∧
      d.utcOffset.getD (session.localOffset d.wall) < 86400000000 := by
    cases ho : d.utcOffset with
    | none => exact ⟨session.lower d.wall, session.upper d.wall⟩
    | some o => exact ⟨d.offset_lower o ho, d.offset_upper o ho⟩
  refine Bool.and_eq_true_iff.mpr ⟨decide_eq_true ?_, decide_eq_true ?_⟩ <;>
    rw [DateTime.toTimestamptz, DateTime.instantIn] <;> linarith [hoffset.1, hoffset.2]

theorem insertable_iff (cron : Croniter) (now : DateTime) (session : SessionZone) (req : JobCreateRequest)
    {given : List (String × Value)} (h : submitJob cron now session req = some given) (id : Uuid)
    (time : Timestamptz) :
    Insertable given id time ↔ Fits req := by
  unfold submitJob at h
  split_ifs at h
  cases h
  have hmax : SqlType.int.holds (.integer req.maxAttempts) = true := by
    have hle := req.maxAttempts_le
    simp only [SqlType.holds, Bool.and_eq_true, decide_eq_true_eq]
    omega
  have hscheduled : ∀ t ∈ req.scheduledFor.map fun d => d.toTimestamptz session.toZone,
      SqlType.timestamptz.holds (.timestamptz t) = true := by
    intro t ht
    obtain ⟨d, -, rfl⟩ := Option.map_eq_some_iff.mp ht
    exact holds_toTimestamptz d session
  rw [insertable_createJobValues]
  constructor
  · rintro ⟨htype, hpayload, hpriority, -, -, hrule⟩
    obtain ⟨hlower, hupper⟩ := Bool.and_eq_true_iff.mp hpriority
    obtain ⟨hstrings, hnumbers⟩ := (PyJson.storable_iff _).mp hpayload
    exact ⟨⟨of_decide_eq_true hlower, of_decide_eq_true hupper⟩, holds_text.mp htype,
      fun rule hr => holds_text.mp (hrule rule hr), hstrings, hnumbers⟩
  · intro hfits
    exact ⟨holds_text.mpr hfits.type, (PyJson.storable_iff _).mpr ⟨hfits.strings, hfits.numbers⟩,
      Bool.and_eq_true_iff.mpr ⟨decide_eq_true hfits.priority.1, decide_eq_true hfits.priority.2⟩,
      hmax, hscheduled, fun rule hr => holds_text.mpr (hfits.rule rule hr)⟩

/-- A croniter that knows no rule, for requests that have none. -/
def noCron : Croniter := ⟨fun _ _ => none⟩

def utcSession : SessionZone where
  localOffset _ := 0
  offsetAt _ := 0
  lower _ := by decide
  upper _ := by decide

theorem insertable_high : Insertable (createJobValues "email" (.obj []) 10 3 none none) 1
    ⟨0, by decide, by decide⟩ :=
  (insertable_iff noCron ⟨0, some 0⟩ utcSession { type := "email", priority := 10 } rfl 1 _).mpr
    ⟨by decide, by decide, (by rintro _ ⟨⟩), fun _ h => absurd h List.not_mem_nil,
      fun _ h => absurd h List.not_mem_nil⟩

/-- A priority of 100000 passes the model of the request. -/
theorem not_insertable : ¬ ∀ (cron : Croniter) (now : DateTime) (session : SessionZone) (req : JobCreateRequest)
    (given : List (String × Value)), submitJob cron now session req = some given →
    ∀ (id : Uuid) (time : Timestamptz), Insertable given id time := by
  intro h
  have hinsert := h noCron ⟨0, some 0⟩ utcSession { type := "email", priority := 100000 } _ rfl 1
    ⟨0, by decide, by decide⟩
  exact absurd (hinsert ⟨"priority", .smallint, true, some (.value (.integer 0)), none⟩
    (by simp [jobsColumns])) (by decide)

end Columns
end DistribuQ
