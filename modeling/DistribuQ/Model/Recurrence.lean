import DistribuQ.Library.Regex
import DistribuQ.Model.Text
import DistribuQ.Model.DateTime

/-! `worker/recurrence.py`. -/

namespace DistribuQ

/-- What `croniter(rule, start).get_next(datetime)` returns for a naive start; `none` when either raises. -/
structure Croniter where
  getNext : String → Time → Option Time

/-- The last microsecond of the year 9999. -/
def datetimeMax : Time := 253402300799999999

namespace DateTime

/-- A naive value is taken for UTC. -/
def instant (d : DateTime) : Time := d.wall - d.utcOffset.getD 0

/-- The sums that `datetime` can hold. -/
def InRange (d : DateTime) (delta : Time) : Prop :=
  Retry.datetimeMin ≤ d.wall + delta ∧ d.wall + delta ≤ datetimeMax

instance (d : DateTime) (delta : Time) : Decidable (d.InRange delta) := inferInstanceAs (Decidable (_ ∧ _))

/-- `datetime + timedelta`, which moves the clock on the wall and keeps the offset. -/
def add (d : DateTime) (delta : Time) : Except PyException DateTime :=
  if d.InRange delta then .ok ⟨d.wall + delta, d.utcOffset⟩
  else .error (.overflowError "date value out of range")

end DateTime

/-- `timedelta(days=.., hours=.., minutes=.., seconds=..)`. -/
def timedelta (days hours minutes seconds : Nat) : Except PyException Time :=
  let total := 86400 * days + 3600 * hours + 60 * minutes + seconds
  let d := total / 86400
  if d ≤ 999999999 then .ok (DistribuQ.seconds total)
  else if d ≤ 2147483647 then .error (.overflowError s!"days={d}; must have magnitude <= 999999999")
  else .error (.overflowError "Python int too large to convert to C int")

namespace Recurrence

inductive Group
  | days | hours | minutes | seconds
  deriving DecidableEq

/-- Letters one after the other, then `r`. -/
def literal (letters : List Char) (r : Regex Group Char) : Regex Group Char :=
  letters.foldr (fun l r => .seq (.one (Text.ignoreCase l)) r) r

/-- `(?:(?P<i>\d+)l)?` -/
def part (i : Group) (l : Char) : Regex Group Char :=
  .opt (.seq (.group i (.many Text.isDecimal)) (.one (Text.ignoreCase l)))

/-- `$`, which stands before a newline at the end of the text too. -/
def dollar : Regex Group Char := .assert fun rest => rest.isEmpty || rest == ['\n']

def every : List Char := ['@', 'e', 'v', 'e', 'r', 'y']

/-- `_INTERVAL_RE`; a match starts where `^` stands. -/
def intervalRe : Regex Group Char :=
  literal every (.seq (.many Text.isSpace) (.seq (part .days 'd') (.seq (part .hours 'h')
    (.seq (part .minutes 'm') (.seq (part .seconds 's') dollar)))))

/-- `int(m.group(i) or 0)` -/
def groupInt (m : Regex.Captures Group Char) (i : Group) : Except PyException Nat :=
  match m i with
  | some ds => Text.int ds
  | none => .ok 0

/-- The rest of `parse_interval`, for a rule that matches. -/
def intervalOf (rule : String) (m : Regex.Captures Group Char) : Except PyException Time := do
  let days ← groupInt m .days
  let hours ← groupInt m .hours
  let minutes ← groupInt m .minutes
  let seconds ← groupInt m .seconds
  let total ← timedelta days hours minutes seconds
  if total ≤ 0 then .error (.valueError s!"Invalid interval rule '{rule}': total duration must be positive")
  else .ok total

def parseInterval (rule : String) : Except PyException (Option Time) :=
  match intervalRe.match? (Text.strip rule.toList) with
  | none => .ok none
  | some m => (intervalOf rule m).map some

def nextRunFromInterval (now : DateTime) (rule : String) (after : Option DateTime) :
    Except PyException DateTime := do
  match ← parseInterval rule with
  | none => .error (.valueError s!"Rule '{rule}' is not a valid interval rule")
  | some delta => (after.getD now).add delta

/-- The offset is taken off and the result is labelled as UTC. -/
def nextRunFromCron (cron : Croniter) (now : DateTime) (rule : String) (after : Option DateTime) :
    Except PyException DateTime :=
  match cron.getNext rule (after.getD now).wall with
  | some next => .ok ⟨next, some 0⟩
  | none => .error .croniter

/-- `now` is `datetime.now(timezone.utc)`. -/
def computeNextRun (cron : Croniter) (now : DateTime) (rule : String) (after : Option DateTime) :
    Except PyException DateTime :=
  let stripped := Text.strip rule.toList
  if stripped = [] then .error (.valueError "recurrence_rule must not be empty")
  else if every <+: stripped then nextRunFromInterval now (String.ofList stripped) after
  else nextRunFromCron cron now (String.ofList stripped) after

def isValidRecurrenceRule (cron : Croniter) (now : DateTime) (rule : String) : Bool :=
  match computeNextRun cron now rule none with
  | .ok _ => true
  | .error _ => false

end Recurrence

/-- The settings of processes that have this `croniter`; their clock is in UTC. -/
def Env.ofCroniter (cron : Croniter) : Env where
  computeNextRun rule clock :=
    match Recurrence.computeNextRun cron ⟨clock, some 0⟩ rule none with
    | .ok next => some next.instant
    | .error _ => none

end DistribuQ
