import Inference.Json

/-!
# Inference.JobStore — the SQL statements of `system/job_store.py`

One row of `synthx.inference_jobs` is a `Row` with every column of the table.  Each method of
`JobStore` is one statement that maps every row to its new value, so `onRow` gives the new row
and `exec` the new table with what the method returns.  Comparisons with a NULL column are not
true, which is why `leaseLive` and `due` match on `leaseUntil`.  Times are microseconds, the
resolution of `timestamptz`; `lease` and `retry` stand for `seconds * interval '1 second'`.

The main lemma is `onRow_cases`: what one statement can do to one row, guards included.
-/

namespace Inference

/-- A UUID by its 128-bit value, which is also how PostgreSQL orders it. -/
abbrev Uuid := ℕ

namespace JobStore

inductive Status where
  | queued
  | running
  | succeeded
  | failed
deriving DecidableEq, Repr

/-- A row of `synthx.inference_jobs`; a nullable column is an `Option`. -/
structure Row where
  jobId : Uuid
  projectId : String
  userId : String
  model : String
  spec : Json
  specSha256 : String
  status : Status
  attemptId : Option Uuid
  attempts : ℕ
  leaseUntil : Option ℤ
  nextAttemptAt : ℤ
  deadlineAt : ℤ
  result : Option Json
  error : Option Json
  snapshotId : Option String
  createdAt : ℤ
  updatedAt : ℤ
deriving DecidableEq, Repr

/-- `status` is one of the two final ones. -/
def Row.terminal (r : Row) : Bool := r.status == .succeeded || r.status == .failed

/-- A row as the backend inserts it: queued, with no lease and no result. -/
def Row.Inserted (r : Row) : Prop := r.status = .queued ∧ r.leaseUntil = none ∧ r.result = none

/-- `lease_until > now()`. -/
def Row.leaseLive (r : Row) (now : ℤ) : Bool :=
  match r.leaseUntil with
  | some l => decide (now < l)
  | none => false

/-- `lease_until <= now()`. -/
def Row.leaseLapsed (r : Row) (now : ℤ) : Bool :=
  match r.leaseUntil with
  | some l => decide (l ≤ now)
  | none => false

/-- The `WHERE` of `claim`. -/
def due (now : ℤ) (job : Option Uuid) (r : Row) : Bool :=
  (job.isNone || job == some r.jobId) && decide (now < r.deadlineAt) &&
    ((r.status == .queued && decide (r.nextAttemptAt ≤ now)) ||
      (r.status == .running && r.leaseLapsed now))

/-- The `WHERE` shared by `renew`, `complete` and `defer`. -/
def fenced (now : ℤ) (job attempt : Uuid) (r : Row) : Bool :=
  r.jobId == job && r.attemptId == some attempt && r.status == .running && r.leaseLive now &&
    decide (now < r.deadlineAt)

/-- The `WHERE` of `expire_deadlines`. -/
def overdue (now : ℤ) (r : Row) : Bool :=
  (r.status == .queued || r.status == .running) && decide (r.deadlineAt ≤ now)

/-- `ORDER BY next_attempt_at, created_at, job_id`. -/
def Row.before (a b : Row) : Bool :=
  decide (a.nextAttemptAt < b.nextAttemptAt) || (a.nextAttemptAt == b.nextAttemptAt &&
    (decide (a.createdAt < b.createdAt) || (a.createdAt == b.createdAt && decide (a.jobId < b.jobId))))

/-- `ORDER BY … LIMIT 1`. -/
def first : List Row → Option Row
  | [] => none
  | r :: rs => match first rs with
    | none => some r
    | some b => if b.before r then some b else some r

/-- The `candidate` CTE of `claim`; `FOR UPDATE SKIP LOCKED` passes over the rows whose lock
another transaction holds. -/
def candidate (rows : List Row) (now : ℤ) (job : Option Uuid) (locked : List Uuid) :
    Option Row :=
  first (rows.filter fun r => due now job r && !locked.contains r.jobId)

/-- The `SET` of `claim`. -/
def Row.claimed (r : Row) (now lease : ℤ) (attempt : Uuid) : Row :=
  { r with status := .running, attemptId := some attempt, attempts := r.attempts + 1,
           leaseUntil := some (min (now + lease) r.deadlineAt), updatedAt := now }

/-- The `SET` of `renew`. -/
def Row.renewed (r : Row) (now lease : ℤ) : Row :=
  { r with leaseUntil := some (min (now + lease) r.deadlineAt), updatedAt := now }

/-- The `SET` of `complete`. -/
def Row.completed (r : Row) (now : ℤ) (result error : Option Json) : Row :=
  { r with status := if error.isNone then .succeeded else .failed, result := result,
           error := error, leaseUntil := none, updatedAt := now }

/-- The `SET` of `defer`. -/
def Row.deferred (r : Row) (now retry : ℤ) (error : Json) : Row :=
  { r with status := .queued, leaseUntil := none, nextAttemptAt := now + retry,
           error := some error, updatedAt := now }

/-- The error `expire_deadlines` stores. -/
def deadlineError : Json :=
  .obj [("code", .str "deadline_exceeded"), ("message", .str "job deadline exceeded")]

/-- The `SET` of `expire_deadlines`. -/
def Row.expired (r : Row) (now : ℤ) : Row :=
  { r with status := .failed, leaseUntil := none, error := some deadlineError, updatedAt := now }

/-- A call of `JobStore` with its arguments; `claim` also carries the UUID it draws and the rows
other transactions have locked. -/
inductive Op where
  | claim (job : Option Uuid) (lease : ℤ) (attempt : Uuid) (locked : List Uuid)
  | renew (job attempt : Uuid) (lease : ℤ)
  | complete (job attempt : Uuid) (result error : Option Json)
  | defer (job attempt : Uuid) (error : Json) (retry : ℤ)
  | expireDeadlines
deriving DecidableEq, Repr

/-- What a call returns: the claimed row, `rowcount == 1`, or `rowcount`. -/
inductive Resp where
  | row (r : Option Row)
  | bool (b : Bool)
  | count (n : ℕ)
deriving DecidableEq, Repr

/-- The new value of row `r` under the statement `op` on the table `rows` at `now()`. -/
def onRow (rows : List Row) (now : ℤ) (op : Op) (r : Row) : Row :=
  match op with
  | .claim job lease attempt locked =>
    match candidate rows now job locked with
    | some c => if r.jobId = c.jobId then r.claimed now lease attempt else r
    | none => r
  | .renew job attempt lease => if fenced now job attempt r then r.renewed now lease else r
  | .complete job attempt result error =>
    if fenced now job attempt r then r.completed now result error else r
  | .defer job attempt error retry =>
    if fenced now job attempt r then r.deferred now retry error else r
  | .expireDeadlines => if overdue now r then r.expired now else r

/-- What the statement returns. -/
def resp (rows : List Row) (now : ℤ) : Op → Resp
  | .claim job lease attempt locked =>
    .row ((candidate rows now job locked).map fun c => c.claimed now lease attempt)
  | .renew job attempt _ | .complete job attempt _ _ | .defer job attempt _ _ =>
    .bool ((rows.filter (fenced now job attempt)).length == 1)
  | .expireDeadlines => .count (rows.filter (overdue now)).length

/-- One atomic statement: the new table and the returned value. -/
def exec (rows : List Row) (now : ℤ) (op : Op) : List Row × Resp :=
  (rows.map (onRow rows now op), resp rows now op)

/-- `PRIMARY KEY (job_id)`. -/
def Keyed (rows : List Row) : Prop := (rows.map Row.jobId).Nodup

/-! ## One statement, one row -/

@[simp] theorem onRow_jobId (rows : List Row) (now : ℤ) (op : Op) (r : Row) :
    (onRow rows now op r).jobId = r.jobId := by
  cases op with
  | claim job lease attempt locked =>
    simp only [onRow]
    split
    · split <;> rfl
    · rfl
  | renew => simp only [onRow]; split <;> rfl
  | complete => simp only [onRow]; split <;> rfl
  | defer => simp only [onRow]; split <;> rfl
  | expireDeadlines => simp only [onRow]; split <;> rfl

theorem keyed_exec {rows : List Row} {now : ℤ} {op : Op} (h : Keyed rows) :
    Keyed (exec rows now op).1 := by
  have hm : (exec rows now op).1.map Row.jobId = rows.map Row.jobId := by
    simp [exec, Function.comp_def]
  rwa [Keyed, hm]

theorem first_mem {rows : List Row} {r : Row} (h : first rows = some r) : r ∈ rows := by
  induction rows generalizing r with
  | nil => simp [first] at h
  | cons a rs ih =>
    simp only [first] at h
    split at h
    · rename_i hn
      simp only [Option.some.injEq] at h
      simp [h]
    · rename_i b hb
      split at h <;> simp only [Option.some.injEq] at h
      · exact List.mem_cons_of_mem _ (h ▸ ih hb)
      · simp [h]

theorem candidate_mem {rows : List Row} {now : ℤ} {job : Option Uuid} {locked : List Uuid}
    {c : Row} (h : candidate rows now job locked = some c) : c ∈ rows ∧ due now job c := by
  have hm := List.mem_filter.mp (first_mem h)
  simp only [Bool.and_eq_true] at hm
  exact ⟨hm.1, hm.2.1⟩

theorem Keyed.eq_of_jobId {rows : List Row} (h : Keyed rows) {a b : Row} (ha : a ∈ rows)
    (hb : b ∈ rows) (hj : a.jobId = b.jobId) : a = b :=
  List.inj_on_of_nodup_map h ha hb hj

/-- The row count of a fenced update is one exactly when some row passes the fence. -/
theorem fenced_count {rows : List Row} (h : Keyed rows) (now : ℤ) (job attempt : Uuid) :
    ((rows.filter (fenced now job attempt)).length == 1) = true ↔
      ∃ r ∈ rows, fenced now job attempt r = true := by
  have hle : (rows.filter (fenced now job attempt)).length ≤ 1 := by
    by_contra hgt
    obtain ⟨a, b, l, hl⟩ : ∃ a b l, rows.filter (fenced now job attempt) = a :: b :: l := by
      match hm : rows.filter (fenced now job attempt) with
      | [] => simp [hm] at hgt
      | [a] => simp [hm] at hgt
      | a :: b :: l => exact ⟨a, b, l, rfl⟩
    have hk : ((rows.filter (fenced now job attempt)).map Row.jobId).Nodup :=
      h.sublist (List.filter_sublist.map _)
    have hj : ∀ r ∈ rows.filter (fenced now job attempt), r.jobId = job := by
      intro r hr
      have := (List.mem_filter.mp hr).2
      simp only [fenced, Bool.and_eq_true, beq_iff_eq] at this
      exact this.1.1.1.1
    rw [hl] at hk hj
    simp [hj a, hj b] at hk
  constructor
  · intro hc
    have hc' : (rows.filter (fenced now job attempt)).length = 1 := by simpa using hc
    obtain ⟨r, hr⟩ := List.length_eq_one_iff.mp hc'
    have : r ∈ rows.filter (fenced now job attempt) := by simp [hr]
    exact ⟨r, (List.mem_filter.mp this).1, (List.mem_filter.mp this).2⟩
  · rintro ⟨r, hr, hf⟩
    have : 0 < (rows.filter (fenced now job attempt)).length :=
      List.length_pos_of_mem (List.mem_filter.mpr ⟨hr, hf⟩)
    have h1 : (rows.filter (fenced now job attempt)).length = 1 := by omega
    simp [h1]

/-- **What one statement can do to one row**, with the guard it passed and the value returned. -/
theorem onRow_cases {rows : List Row} (hk : Keyed rows) (now : ℤ) (op : Op) {r : Row}
    (hr : r ∈ rows) :
    onRow rows now op r = r ∨
    (∃ job lease a locked, op = .claim job lease a locked ∧ due now job r ∧
      onRow rows now op r = r.claimed now lease a ∧
      resp rows now op = .row (some (r.claimed now lease a))) ∨
    (∃ a lease, op = .renew r.jobId a lease ∧ fenced now r.jobId a r ∧
      onRow rows now op r = r.renewed now lease ∧ resp rows now op = .bool true) ∨
    (∃ a res err, op = .complete r.jobId a res err ∧ fenced now r.jobId a r ∧
      onRow rows now op r = r.completed now res err ∧ resp rows now op = .bool true) ∨
    (∃ a err retry, op = .defer r.jobId a err retry ∧ fenced now r.jobId a r ∧
      onRow rows now op r = r.deferred now retry err ∧ resp rows now op = .bool true) ∨
    (op = .expireDeadlines ∧ overdue now r ∧ onRow rows now op r = r.expired now) := by
  have hjob : ∀ {job a : Uuid}, fenced now job a r = true → job = r.jobId := by
    intro job a hf
    simp only [fenced, Bool.and_eq_true, beq_iff_eq] at hf
    exact hf.1.1.1.1.symm
  cases op with
  | claim job lease a locked =>
    cases hc : candidate rows now job locked with
    | none => exact .inl (by simp only [onRow, hc])
    | some c =>
      obtain ⟨hcm, hdue⟩ := candidate_mem hc
      by_cases hj : r.jobId = c.jobId
      · obtain rfl := hk.eq_of_jobId hr hcm hj
        exact .inr (.inl ⟨job, lease, a, locked, rfl, hdue, by simp only [onRow, hc, if_true],
          by simp only [resp, hc, Option.map_some]⟩)
      · exact .inl (by simp only [onRow, hc, if_neg hj])
  | renew job a lease =>
    by_cases hf : fenced now job a r
    · obtain rfl := hjob hf
      exact .inr (.inr (.inl ⟨a, lease, rfl, hf, by simp only [onRow, hf, if_true],
        congrArg Resp.bool ((fenced_count hk now r.jobId a).mpr ⟨r, hr, hf⟩)⟩))
    · exact .inl (by simp only [onRow, if_neg hf])
  | complete job a res err =>
    by_cases hf : fenced now job a r
    · obtain rfl := hjob hf
      exact .inr (.inr (.inr (.inl ⟨a, res, err, rfl, hf, by simp only [onRow, hf, if_true],
        congrArg Resp.bool ((fenced_count hk now r.jobId a).mpr ⟨r, hr, hf⟩)⟩)))
    · exact .inl (by simp only [onRow, if_neg hf])
  | defer job a err retry =>
    by_cases hf : fenced now job a r
    · obtain rfl := hjob hf
      exact .inr (.inr (.inr (.inr (.inl ⟨a, err, retry, rfl, hf, by simp only [onRow, hf, if_true],
        congrArg Resp.bool ((fenced_count hk now r.jobId a).mpr ⟨r, hr, hf⟩)⟩))))
    · exact .inl (by simp only [onRow, if_neg hf])
  | expireDeadlines =>
    by_cases ho : overdue now r
    · exact .inr (.inr (.inr (.inr (.inr ⟨rfl, ho, by simp only [onRow, ho, if_true]⟩))))
    · exact .inl (by simp only [onRow, if_neg ho])

/-- A terminal row passes no guard, so no statement changes it. -/
theorem onRow_terminal {rows : List Row} (hk : Keyed rows) (now : ℤ) (op : Op) {r : Row}
    (hr : r ∈ rows) (ht : r.terminal = true) : onRow rows now op r = r := by
  have hs : r.status ≠ .queued ∧ r.status ≠ .running := by
    revert ht; unfold Row.terminal; cases r.status <;> simp
  rcases onRow_cases hk now op hr with h | ⟨job, lease, a, locked, -, hd, -⟩ |
    ⟨a, lease, -, hf, -⟩ | ⟨a, res, err, -, hf, -⟩ | ⟨a, err, retry, -, hf, -⟩ | ⟨-, ho, -⟩
  · exact h
  · simp [due, hs] at hd
  · simp [fenced, hs] at hf
  · simp [fenced, hs] at hf
  · simp [fenced, hs] at hf
  · simp [overdue, hs] at ho

end JobStore

end Inference
