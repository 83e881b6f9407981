import DistribuQ.Model.Schema

/-! `list_jobs` of `api/main.py`. -/

namespace DistribuQ

/-- The query parameters that `list_jobs` accepts. -/
structure ListQuery where
  status : Option JobStatus := none
  type : Option String := none
  limit : Nat := 50
  offset : Nat := 0
  one_le_limit : 1 ≤ limit := by decide
  limit_le : limit ≤ 100 := by decide

namespace ListQuery

/-- The `WHERE` clause; an empty type is no filter. -/
def selects (q : ListQuery) (r : Job) : Bool :=
  q.status.all (fun s => r.status = s) && q.type.all fun t => t = "" || r.type = t

/-- The query for page `i` of a listing. -/
def nextPage (q : ListQuery) (i : Nat) : ListQuery := { q with offset := q.limit * i }

end ListQuery

/-- `ORDER BY created_at DESC LIMIT limit OFFSET offset`; rows created at the same time come as `order` has
them. -/
def Database.listJobs (db : Database) (q : ListQuery) (order : List Uuid) : List Job :=
  let rows := Table.inOrder Job.id order (db.jobs.select q.selects)
  ((rows.insertionSort fun r r' => r'.createdAt ≤ r.createdAt).drop q.offset).take q.limit

end DistribuQ
