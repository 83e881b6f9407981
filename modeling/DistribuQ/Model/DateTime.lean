import DistribuQ.Model.Api
import DistribuQ.Model.Scheduler

/-! `datetime` values with and without a UTC offset, and the two routes that the `scheduled_for` of a request
takes into the scheduled set. Elsewhere in the model a `scheduled_for` is the instant that both routes make
of it. -/

namespace DistribuQ

/-- What a clock on the wall shows and, unless the value is naive, its offset from UTC. -/
structure DateTime where
  wall : Int
  utcOffset : Option Int

/-- The offset that a time zone gives to a wall time, and the one it has at an instant. -/
structure Zone where
  localOffset : Int → Int
  offsetAt : Time → Int

/-- The local zones of the API process and of the scheduler process, and the zone of the database sessions. -/
structure Zones where
  api : Zone
  scheduler : Zone
  session : Zone

namespace DateTime

/-- The instant of a value, where a naive one is taken to be in `zone`. -/
def instantIn (d : DateTime) (zone : Zone) : Time := d.wall - d.utcOffset.getD (zone.localOffset d.wall)

/-- `datetime.timestamp()` in a process with this local zone. -/
def timestamp (d : DateTime) (process : Zone) : Time := d.instantIn process

/-- What a `TIMESTAMPTZ` column stores of a value. -/
def toTimestamptz (d : DateTime) (session : Zone) : Time := d.instantIn session

/-- What is read back. -/
def ofTimestamptz (t : Time) (session : Zone) : DateTime := ⟨t + session.offsetAt t, some (session.offsetAt t)⟩

/-- The local zone of a process is nothing to a value from the database. -/
theorem timestamp_ofTimestamptz (t : Time) (session process : Zone) :
    (ofTimestamptz t session).timestamp process = t :=
  Int.add_sub_cancel t (session.offsetAt t)

end DateTime

/-- `submit_job` for a request with a `scheduled_for`, when `create_job` and `schedule_job` return; `id` is the
new row's. -/
def submitScheduled (z : Zones) (st : Store) (id : Uuid) (req : JobCreateRequest) (scheduledFor : DateTime) :
    Option Store := do
  let column := scheduledFor.toTimestamptz z.session
  let (db, row) ← st.db.createJob st.clock id { req.toNewJob with scheduledFor := some column }
  some { st with db := db, redis := st.redis.zadd row.id (scheduledFor.timestamp z.api) }

namespace Scheduler

/-- The loop of `sync_from_db`, with the `datetime` values that it reads. -/
def syncFromColumns (z : Zones) (r : Redis) (pendingJobs : List ScheduledJob) : Redis :=
  pendingJobs.foldl (fun r j =>
    r.zadd j.id ((DateTime.ofTimestamptz j.scheduledFor z.session).timestamp z.scheduler)) r

end Scheduler
end DistribuQ
