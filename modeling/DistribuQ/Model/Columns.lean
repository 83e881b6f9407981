import DistribuQ.Model.Recurrence

/-! The columns of the table `jobs` in `db/schema.sql` and the values that they hold, with the values that a
request to `submit_job` puts into them. -/

namespace DistribuQ

/-- A Python string by its code points, which may be surrogates. -/
abbrev PyStr := List (Fin 0x110000)

/-- What `json.loads` returns; `num none` is `NaN` or an infinity. -/
inductive PyJson
  | null
  | bool (b : Bool)
  | num (q : Option ℚ)
  | str (s : PyStr)
  | arr (xs : List PyJson)
  | obj (kvs : List (PyStr × PyJson))

namespace PyJson

/-! The strings of a value, its keys with them, and its numbers. -/

mutual

def strings : PyJson → List PyStr
  | .null | .bool _ | .num _ => []
  | .str s => [s]
  | .arr xs => stringsOfItems xs
  | .obj kvs => stringsOfMembers kvs

def stringsOfItems : List PyJson → List PyStr
  | [] => []
  | x :: xs => x.strings ++ stringsOfItems xs

def stringsOfMembers : List (PyStr × PyJson) → List PyStr
  | [] => []
  | (k, x) :: kvs => k :: (x.strings ++ stringsOfMembers kvs)

end

mutual

def numbers : PyJson → List (Option ℚ)
  | .null | .bool _ | .str _ => []
  | .num q => [q]
  | .arr xs => numbersOfItems xs
  | .obj kvs => numbersOfMembers kvs

def numbersOfItems : List PyJson → List (Option ℚ)
  | [] => []
  | x :: xs => x.numbers ++ numbersOfItems xs

def numbersOfMembers : List (PyStr × PyJson) → List (Option ℚ)
  | [] => []
  | (_, x) :: kvs => x.numbers ++ numbersOfMembers kvs

end

end PyJson

theorem toNat_lt (c : Char) : c.toNat < 0x110000 := by
  rcases c.valid with h | ⟨-, h⟩
  · exact lt_trans h (by decide)
  · exact h

def PyStr.ofString (s : String) : PyStr := s.toList.map fun c => ⟨c.toNat, toNat_lt c⟩

mutual

def Json.toPython : Json → PyJson
  | .null => .null
  | .bool b => .bool b
  | .num q => .num (some q)
  | .str s => .str (PyStr.ofString s)
  | .arr xs => .arr (Json.itemsToPython xs)
  | .obj kvs => .obj (Json.membersToPython kvs)

def Json.itemsToPython : List Json → List PyJson
  | [] => []
  | x :: xs => x.toPython :: Json.itemsToPython xs

def Json.membersToPython : List (String × Json) → List (PyStr × PyJson)
  | [] => []
  | (k, x) :: kvs => (PyStr.ofString k, x.toPython) :: Json.membersToPython kvs

end

/-- A time that `TIMESTAMPTZ` holds, from 4714 BC to AD 294276. -/
structure Timestamptz where
  time : Time
  lower : -210866803200000000 ≤ time
  upper : time < 9224318016000000000

/-- A `datetime` of Python. -/
structure PyDateTime extends DateTime where
  min_le : Retry.datetimeMin ≤ wall
  le_max : wall ≤ datetimeMax
  offset_lower : ∀ o ∈ utcOffset, -86400000000 < o
  offset_upper : ∀ o ∈ utcOffset, o < 86400000000

/-- The zone of a database session, less than a day from UTC. -/
structure SessionZone extends Zone where
  lower : ∀ t, -86400000000 < localOffset t
  upper : ∀ t, localOffset t < 86400000000

/-- A value on its way into a column. -/
inductive Value
  | null
  | uuid (u : Uuid)
  | text (s : String)
  | jsonb (v : PyJson)
  | integer (n : Int)
  | timestamptz (t : Time)

inductive SqlType
  | uuid | text | jsonb | smallint | int | timestamptz

namespace PyStr

def isHigh (c : Fin 0x110000) : Bool := 0xD800 ≤ c.val && c.val < 0xDC00

def isLow (c : Fin 0x110000) : Bool := 0xDC00 ≤ c.val && c.val < 0xE000

/-- Every surrogate is half of a pair. -/
def paired : PyStr → Bool
  | [] => true
  | [c] => !isHigh c && !isLow c
  | c :: d :: s => if isHigh c then isLow d && paired s else !isLow c && paired (d :: s)

/-- `JSONB` has no NUL and no surrogate on its own. -/
def storable (s : PyStr) : Bool := !s.contains 0 && paired s

end PyStr

/-! What `JSONB` holds: JSON has no `NaN` and no infinity. -/

mutual

def PyJson.storable : PyJson → Bool
  | .null | .bool _ => true
  | .num q => q.isSome
  | .str s => PyStr.storable s
  | .arr xs => PyJson.storableItems xs
  | .obj kvs => PyJson.storableMembers kvs

def PyJson.storableItems : List PyJson → Bool
  | [] => true
  | x :: xs => x.storable && PyJson.storableItems xs

def PyJson.storableMembers : List (PyStr × PyJson) → Bool
  | [] => true
  | (k, x) :: kvs => PyStr.storable k && (x.storable && PyJson.storableMembers kvs)

end

namespace SqlType

/-- The values of a type. -/
def holds : SqlType → Value → Bool
  | .uuid, .uuid _ => true
  | .text, .text s => !s.toList.contains '\x00'
  | .jsonb, .jsonb v => v.storable
  | .smallint, .integer n => -32768 ≤ n && n ≤ 32767
  | .int, .integer n => -2147483648 ≤ n && n ≤ 2147483647
  | .timestamptz, .timestamptz t => -210866803200000000 ≤ t && t < 9224318016000000000
  | _, _ => false

end SqlType

inductive Default
  | value (v : Value)
  | genRandomUuid
  | now

def Default.eval (id : Uuid) (now : Timestamptz) : Default → Value
  | .value v => v
  | .genRandomUuid => .uuid id
  | .now => .timestamptz now.time

structure Column where
  name : String
  type : SqlType
  notNull : Bool
  default : Option Default := none
  /-- The list of a `CHECK (.. IN (..))`. -/
  check : Option (List String) := none

namespace Column

def checks (c : Column) (v : Value) : Bool :=
  match c.check, v with
  | some allowed, .text s => allowed.contains s
  | _, _ => true

def holds (c : Column) (v : Value) : Bool :=
  match v with
  | .null => !c.notNull
  | v => c.type.holds v && c.checks v

end Column

/-- `CREATE TABLE jobs` -/
def jobsColumns : List Column := [
  ⟨"id", .uuid, true, some .genRandomUuid, none⟩,
  ⟨"type", .text, true, none, none⟩,
  ⟨"payload", .jsonb, true, some (.value (.jsonb (.obj []))), none⟩,
  ⟨"status", .text, true, some (.value (.text "PENDING")),
    some ["PENDING", "RUNNING", "SUCCESS", "FAILED", "RETRYING", "DEAD_LETTER"]⟩,
  ⟨"priority", .smallint, true, some (.value (.integer 0)), none⟩,
  ⟨"attempts", .int, true, some (.value (.integer 0)), none⟩,
  ⟨"max_attempts", .int, true, some (.value (.integer 3)), none⟩,
  ⟨"next_retry_at", .timestamptz, false, none, none⟩,
  ⟨"scheduled_for", .timestamptz, false, none, none⟩,
  ⟨"recurrence_rule", .text, false, none, none⟩,
  ⟨"result", .jsonb, false, none, none⟩,
  ⟨"error", .text, false, none, none⟩,
  ⟨"locked_by", .text, false, none, none⟩,
  ⟨"locked_at", .timestamptz, false, none, none⟩,
  ⟨"created_at", .timestamptz, true, some .now, none⟩,
  ⟨"updated_at", .timestamptz, true, some .now, none⟩]

/-- What an `INSERT` of these columns puts into one of them. -/
def inserted (given : List (String × Value)) (id : Uuid) (now : Timestamptz) (c : Column) : Value :=
  (given.lookup c.name).getD ((c.default.map (Default.eval id now)).getD .null)

/-- The `INSERT` does not fail on a value. -/
def Insertable (given : List (String × Value)) (id : Uuid) (now : Timestamptz) : Prop :=
  ∀ c ∈ jobsColumns, c.holds (inserted given id now c) = true

/-- The columns and values of the `INSERT` in `create_job`. -/
def createJobValues (jobType : String) (payload : PyJson) (priority : Int) (maxAttempts : Nat)
    (scheduledFor : Option Time) (recurrenceRule : Option String) : List (String × Value) := [
  ("type", .text jobType),
  ("payload", .jsonb payload),
  ("priority", .integer priority),
  ("max_attempts", .integer maxAttempts),
  ("scheduled_for", (scheduledFor.map Value.timestamptz).getD .null),
  ("recurrence_rule", (recurrenceRule.map Value.text).getD .null),
  ("status", .text "PENDING")]

def JobStatus.text : JobStatus → String
  | .pending => "PENDING"
  | .running => "RUNNING"
  | .success => "SUCCESS"
  | .failed => "FAILED"
  | .retrying => "RETRYING"
  | .deadLetter => "DEAD_LETTER"

/-- The columns of a row. -/
def Job.values (workerName : WorkerId → String) (j : Job) : List (String × Value) := [
  ("id", .uuid j.id),
  ("type", .text j.type),
  ("payload", .jsonb (.obj (Json.membersToPython j.payload))),
  ("status", .text j.status.text),
  ("priority", .integer j.priority),
  ("attempts", .integer j.attempts),
  ("max_attempts", .integer j.maxAttempts),
  ("next_retry_at", (j.nextRetryAt.map Value.timestamptz).getD .null),
  ("scheduled_for", (j.scheduledFor.map Value.timestamptz).getD .null),
  ("recurrence_rule", (j.recurrenceRule.map Value.text).getD .null),
  ("result", (j.result.map fun v => Value.jsonb v.toPython).getD .null),
  ("error", (j.error.map Value.text).getD .null),
  ("locked_by", (j.lockedBy.map fun w => Value.text (workerName w)).getD .null),
  ("locked_at", (j.lockedAt.map Value.timestamptz).getD .null),
  ("created_at", .timestamptz j.createdAt),
  ("updated_at", .timestamptz j.updatedAt)]

namespace Columns

/-- A request body that `JobCreateRequest` accepts, with its values as Python has them. -/
structure JobCreateRequest where
  type : String
  payload : List (PyStr × PyJson) := []
  priority : Int := 0
  maxAttempts : Nat := 3
  scheduledFor : Option PyDateTime := none
  recurrenceRule : Option String := none
  type_ne : type ≠ "" := by decide
  one_le_maxAttempts : 1 ≤ maxAttempts := by decide
  maxAttempts_le : maxAttempts ≤ 50 := by decide

/-- `if job_req.recurrence_rule and not is_valid_recurrence_rule(job_req.recurrence_rule)` -/
def refuses (cron : Croniter) (now : DateTime) (req : JobCreateRequest) : Bool :=
  match req.recurrenceRule with
  | some rule => rule ≠ "" && !Recurrence.isValidRecurrenceRule cron now rule
  | none => false

/-- What `submit_job` has `create_job` insert; `none` when it answers 400. -/
def submitJob (cron : Croniter) (now : DateTime) (session : SessionZone) (req : JobCreateRequest) :
    Option (List (String × Value)) :=
  if refuses cron now req then none
  else some (createJobValues req.type (.obj req.payload) req.priority req.maxAttempts
    (req.scheduledFor.map fun d => d.toTimestamptz session.toZone) req.recurrenceRule)

end Columns
end DistribuQ
