import Inference.GatewayEntries
import Inference.RowInvariant

/-!
# Inference.Durable — what the table says of a job, with any number of gateways at work

Any number of gateways share one table, each with its own lock, clocks and tasks; a gateway that dies
is one that takes no further step.  Every statement of every gateway may raise before or after the
database applied it, leases lapse and are claimed by others, the workers answer whenever they like.

* `Fleet.step`: the gateways of `Inference.JobGateway` over one table.
* `Moves`: what a step of one gateway does to the table and to its tasks.
* `Sourced`: what a gateway knows of the rows behind its tasks.
* **`rows_explained`**: every row has its explanation: a result was computed by a worker for the spec
  of this row in the attempt of this row; a final error is the deadline, a wrong fingerprint or an
  error of that attempt that must not be retried; a waiting job carries at most an error to retry.
-/

namespace Inference.JobGateway

open Inference.Lib Inference.JobStore

/-! ## Gateways over one table -/

/-- The table, the clock of the database and the gateways, which see both through `Fleet.view`. -/
structure Fleet where
  rows : List Row
  now : ℤ
  gateways : ℕ → Sys

/-- Gateway `g` before the table as it is now. -/
def Fleet.view (F : Fleet) (g : ℕ) : Sys := { F.gateways g with rows := F.rows, now := F.now }

inductive Act where
  /-- the backend inserts a job -/
  | insert (r : Row)
  /-- a step of gateway `g`, of somebody with one of its tasks, or of the clocks -/
  | gateway (g : ℕ) (e : Event)
deriving DecidableEq, Repr

/-- The event is no other gateway's and not the backend's. -/
def Event.own : Event → Bool
  | .foreign _ | .insert _ => false
  | _ => true

def Fleet.step (cfg : ℕ → Settings) (F : Fleet) : Act → Option Fleet
  | .insert r =>
    if r.Untouched ∧ r.jobId ∉ F.rows.map Row.jobId then some { F with rows := F.rows ++ [r] }
    else none
  | .gateway g e =>
    if e.own then (JobGateway.step (cfg g) (F.view g) e).map fun t =>
      ⟨t.rows, t.now, Function.update F.gateways g t⟩
    else none

structure Fleet.Init (F : Fleet) : Prop where
  keyed : Keyed F.rows
  untouched : ∀ r ∈ F.rows, r.Untouched
  gateways : ∀ g, JobGateway.Init (F.gateways g)

/-! ## What a row says -/

/-- The `input_data` of an attempt. -/
def taskData (spec : Json) (attempt : Uuid) : Json :=
  .obj [("kind", .str "synthx_v73"), ("spec", spec), ("attempt_id", .str (uuidText attempt))]

/-- Task `x` is an attempt at the job of row `r`, whose spec has the fingerprint of the row. -/
structure Made.Runs (cfg : Settings) (x : Made) (r : Row) : Prop where
  jobId : x.jobId = r.jobId
  inputData : x.task.inputData = taskData r.spec x.attemptId
  fingerprint : cfg.fingerprint r.spec = some r.specSha256

/-- An error after which the job is tried again. -/
def Retryable (error : Json) : Prop :=
  ∃ code ∈ retryableErrors, ∃ message, error = errorJson code message

/-- Why a failed row has its error. -/
inductive FailedBy (cfg : ℕ → Settings) (F : Fleet) (r : Row) : Prop where
  /-- `expire_deadlines` found the job overdue -/
  | deadline (error : r.error = some deadlineError) (overdue : r.deadlineAt ≤ F.now)
  /-- `_enqueue` refused the row -/
  | fingerprint (g : ℕ) (f : String) (found : (cfg g).fingerprint r.spec = some f)
      (differs : f ≠ r.specSha256)
      (error : r.error = some (errorJson "invalid_spec" "spec fingerprint mismatch"))
  /-- the attempt of the row failed, with an error that is not to be retried -/
  | attempt (g : ℕ) (x : Made) (made : x ∈ (F.gateways g).made) (runs : x.Runs (cfg g) r)
      (attempt : r.attemptId = some x.attemptId) (failed : x.task.status = .failed)
      (error : r.error = some (errorJson (orText x.task.errorCode "worker_error")
        (orText x.task.error "inference failed")))
      (final : orText x.task.errorCode "worker_error" ∉ retryableErrors)

/-- The explanation of a row; `A` relates the data of a task to the answers of the workers. -/
structure Explained (cfg : ℕ → Settings) (A : Json → Json → Prop) (F : Fleet) (r : Row) : Prop where
  waiting : r.terminal = false → r.result = none ∧ ∀ e ∈ r.error, Retryable e
  succeeded : r.status = .succeeded → r.error = none ∧ ∃ g, ∃ x ∈ (F.gateways g).made,
    x.Runs (cfg g) r ∧ r.attemptId = some x.attemptId ∧ x.task.status = .done ∧
      A (taskData r.spec x.attemptId) x.task.result ∧ r.result = resultColumn x.task.result
  failed : r.status = .failed → r.result = none ∧ FailedBy cfg F r

/-- A result is reported only as an answer to the data of the task. -/
def Answered (A : Json → Json → Prop) (F : Fleet) : Act → Prop
  | .gateway g (.task i (.markDone v)) =>
    ∀ x, (F.gateways g).made[i]? = some x → A x.task.inputData v
  | _ => True

/-! ## One step of one gateway -/

/-- The statements a gateway issues, with what it reports. -/
inductive Issues (cfg : Settings) (s : Sys) : Op → Prop where
  | claim (job : Option Uuid) (lease : ℤ) (a : Uuid) (locked : List Uuid) :
      Issues cfg s (.claim job lease a locked)
  | renew (job a : Uuid) (lease : ℤ) : Issues cfg s (.renew job a lease)
  | expire : Issues cfg s .expireDeadlines
  | reject (row : Row) (a : Uuid) (k : Cont) (hpc : s.pc = .enqueueReject row a k) :
      Issues cfg s (.complete row.jobId a none
        (some (errorJson "invalid_spec" "spec fingerprint mismatch")))
  | overload (row : Row) (a : Uuid) (k : Cont) (hpc : s.pc = .enqueueOverload row a k) :
      Issues cfg s (.defer row.jobId a (errorJson "overloaded" "task queue is full")
        cfg.retrySeconds)
  | complete (it : Item) (rest : List Item) (x : Made) (hpc : s.pc = .visitComplete it rest)
      (hx : s.made[it.2.task]? = some x) :
      Issues cfg s (.complete it.1 it.2.attemptId (resultColumn x.task.result) none)
  | report (it : Item) (rest : List Item) (x : Made) (hpc : s.pc = .visitReport it rest)
      (hx : s.made[it.2.task]? = some x) :
      Issues cfg s (reportOp cfg it.1 it.2.attemptId x.task)

/-- What a step does to the tasks: nothing, a method of one of them, or a new one. -/
def MakesTo (s : Sys) (e : Event) (made : List Made) : Prop :=
  made = s.made ∨
  (∃ i m, (∀ v, m = .markDone v → e = .task i m) ∧ made = (s.call i m).made) ∨
  ∃ row a k taskId, s.pc = .enqueuePut row a k ∧
    made = s.made ++ [⟨newTask s row a taskId, row.jobId, a⟩]

/-- What a step of a gateway does to the table and to its tasks. -/
structure Moves (cfg : Settings) (s : Sys) (e : Event) (t : Sys) : Prop where
  rows : t.rows = s.rows ∨ ∃ op, Issues cfg s op ∧ t.rows = (exec s.rows s.now op).1
  now : s.now ≤ t.now
  made : MakesTo s e t.made

section Moves

variable {cfg : Settings} {s t : Sys} {e : Event}

theorem Moves.goto (pc : Pc) (active : List Item) :
    Moves cfg s e { s with active := active, pc := pc } :=
  ⟨.inl rfl, le_rfl, .inl rfl⟩

theorem Moves.query {io : Io} {op : Op} {k : Resp → Pc} (h : Issues cfg s op) :
    Moves cfg s e (s.query io op k) := by
  unfold Sys.query
  split
  · exact ⟨.inl rfl, le_rfl, .inl rfl⟩
  · exact ⟨.inr ⟨op, h, rfl⟩, le_rfl, .inl rfl⟩
  · exact ⟨.inr ⟨op, h, rfl⟩, le_rfl, .inl rfl⟩

/-- `poll` only ever fails a task. -/
theorem Moves.fails (i : ℕ) (error : String) (code : Option String) (pc : Pc) :
    Moves cfg s e { s.call i (.markFailed error code) with pc := pc } :=
  ⟨.inl rfl, le_rfl, .inr (.inl ⟨i, _, by simp, rfl⟩)⟩

theorem advance_moves {io : Io} (hs : advance cfg s io = some t) :
    Moves cfg s (.advance io) t := by
  cases hpc : s.pc with
  | free => simp [advance, hpc] at hs
  | submitGet job | submitGate job | submitReturn job | enqueue row a k | enqueueRecord job a i k
  | visitDel it rest | visitAge it rest | visitRenewed it rest | fill =>
    simp only [advance, hpc, Option.some.injEq] at hs
    exact hs ▸ .goto _ _
  | visit rest =>
    cases rest <;> simp only [advance, hpc, Option.some.injEq] at hs <;> exact hs ▸ .goto _ _
  | submitClaim job | pollClaim left =>
    simp only [advance, hpc, Option.some.injEq] at hs
    exact hs ▸ .query (.claim _ _ _ _)
  | enqueueReject row a k =>
    simp only [advance, hpc, Option.some.injEq] at hs
    exact hs ▸ .query (.reject row a k hpc)
  | enqueueOverload row a k =>
    simp only [advance, hpc, Option.some.injEq] at hs
    exact hs ▸ .query (.overload row a k hpc)
  | pollExpire =>
    simp only [advance, hpc, Option.some.injEq] at hs
    exact hs ▸ .query .expire
  | visitRenew it rest =>
    simp only [advance, hpc, Option.some.injEq] at hs
    exact hs ▸ .query (.renew _ _ _)
  | visitLost it rest =>
    simp only [advance, hpc, Option.some.injEq] at hs
    exact hs ▸ .fails _ _ _ _
  | enqueuePut row a k =>
    simp only [advance, hpc, Option.some.injEq] at hs
    subst hs
    split
    · exact .goto _ _
    · exact ⟨.inl rfl, le_rfl, .inr (.inr ⟨row, a, k, io.taskId, hpc, rfl⟩)⟩
  | visitExpired it rest =>
    simp only [advance, hpc] at hs
    obtain ⟨x, hx, rfl⟩ := Option.map_eq_some_iff.mp hs
    split
    · exact .fails _ _ _ _
    · exact .goto _ _
  | visitDone it rest | visitFailed it rest =>
    simp only [advance, hpc] at hs
    obtain ⟨x, hx, rfl⟩ := Option.map_eq_some_iff.mp hs
    exact .goto _ _
  | visitComplete it rest =>
    simp only [advance, hpc] at hs
    obtain ⟨x, hx, rfl⟩ := Option.map_eq_some_iff.mp hs
    exact .query (.complete it rest x hpc hx)
  | visitReport it rest =>
    simp only [advance, hpc] at hs
    obtain ⟨x, hx, rfl⟩ := Option.map_eq_some_iff.mp hs
    exact .query (.report it rest x hpc hx)

theorem step_moves (hown : e.own = true) (hs : step cfg s e = some t) : Moves cfg s e t := by
  cases e with
  | foreign op | insert r => simp [Event.own] at hown
  | tick now mono wall =>
    obtain rfl := Option.some.inj hs
    exact ⟨.inl rfl, Int.le_add_of_nonneg_right (Int.natCast_nonneg _), .inl rfl⟩
  | stop =>
    obtain rfl := Option.some.inj hs
    exact ⟨.inl rfl, le_rfl, .inl rfl⟩
  | task i m =>
    obtain rfl := Option.some.inj hs
    exact ⟨.inl rfl, le_rfl, .inr (.inl ⟨i, m, fun _ _ => rfl, rfl⟩)⟩
  | submit job | poll =>
    simp only [step] at hs
    split at hs
    · obtain rfl := Option.some.inj hs
      exact .goto _ _
    · cases hs
  | advance io => exact advance_moves hs

end Moves

/-! ## What a gateway knows of the rows behind its tasks -/

/-- The table has a row of the same job, with the spec as it is here. -/
def Of (rows : List Row) (row : Row) : Prop := ∃ r ∈ rows, r.SameJob row

/-- Task `i` has ended with this status. -/
def EndedAs (made : List Made) (i : ℕ) (status : TaskStatus) : Prop :=
  ∃ x, made[i]? = some x ∧ x.task.status = status ∧ x.task.terminal = true

def Pc.Knows (cfg : Settings) (rows : List Row) (made : List Made) : Pc → Prop
  | .enqueue row _ _ => Of rows row
  | .enqueuePut row _ _ | .enqueueOverload row _ _ =>
    Of rows row ∧ cfg.fingerprint row.spec = some row.specSha256
  | .enqueueReject row _ _ =>
    Of rows row ∧ ∃ f, cfg.fingerprint row.spec = some f ∧ f ≠ row.specSha256
  | .visitComplete it _ => EndedAs made it.2.task .done
  | .visitReport it _ => EndedAs made it.2.task .failed
  | _ => True

/-- Every row of the one table is in the other, with the job it was. -/
def Continues (old new : List Row) : Prop := ∀ r ∈ old, ∃ x ∈ new, x.SameJob r

/-- No task disappears, changes hands or leaves a final status. -/
def Grows (old new : List Made) : Prop :=
  ∀ (i : ℕ) (x : Made), old[i]? = some x → ∃ y : Made, new[i]? = some y ∧ y.jobId = x.jobId ∧
    y.attemptId = x.attemptId ∧ Task.Evolves x.task y.task

structure Sourced (cfg : Settings) (A : Json → Json → Prop) (s : Sys) : Prop where
  wf : Wf s
  runs : ∀ x ∈ s.made, ∃ r ∈ s.rows, x.Runs cfg r
  answers : ∀ x ∈ s.made, x.task.status = .done → A x.task.inputData x.task.result
  knows : s.pc.Knows cfg s.rows s.made

section Growth

theorem Continues.refl (rows : List Row) : Continues rows rows := fun r hr => ⟨r, hr, .refl r⟩

theorem continues_exec {rows : List Row} (hk : Keyed rows) (now : ℤ) (op : Op) :
    Continues rows (exec rows now op).1 :=
  fun _ hr => ⟨_, List.mem_map_of_mem hr, onRow_sameJob hk hr⟩

theorem continues_append (rows rest : List Row) : Continues rows (rows ++ rest) :=
  fun r hr => ⟨r, List.mem_append_left _ hr, .refl r⟩

theorem Of.later {old new : List Row} {row : Row} (h : Of old row) (hc : Continues old new) :
    Of new row := by
  obtain ⟨r, hr, hsame⟩ := h
  obtain ⟨x, hx, hxr⟩ := hc r hr
  exact ⟨x, hx, hxr.trans hsame⟩

theorem Grows.refl (made : List Made) : Grows made made := fun _ x hx => ⟨x, hx, rfl, rfl, .refl _⟩

theorem Grows.mem {old new : List Made} (h : Grows old new) {x : Made} (hx : x ∈ old) :
    ∃ y ∈ new, y.jobId = x.jobId ∧ y.attemptId = x.attemptId ∧ Task.Evolves x.task y.task := by
  obtain ⟨i, hi⟩ := List.getElem?_of_mem hx
  obtain ⟨y, hy, hrest⟩ := h i x hi
  exact ⟨y, List.mem_of_getElem? hy, hrest⟩

/-- A task that ended is still there as it was. -/
theorem Grows.ended {old new : List Made} (h : Grows old new) {x : Made} (hx : x ∈ old)
    (hend : x.task.terminal = true) : x ∈ new := by
  obtain ⟨y, hy, hj, ha, hev⟩ := h.mem hx
  have hyx : y = x := by
    cases x
    cases y
    exact Made.mk.injEq .. ▸ ⟨hev.final hend, hj, ha⟩
  exact hyx ▸ hy

theorem MakesTo.grows {s : Sys} {e : Event} {made : List Made} (h : MakesTo s e made) :
    Grows s.made made := by
  rcases h with rfl | ⟨i, m, -, rfl⟩ | ⟨row, a, k, taskId, -, rfl⟩
  · exact .refl _
  · intro j x hx
    simp only [Sys.call, List.getElem?_modify, hx]
    by_cases hij : i = j
    · exact ⟨_, rfl, by simp [hij], by simp [hij], by simpa [hij] using Task.call_evolves _ _ _ _⟩
    · exact ⟨x, by simp [hij], rfl, rfl, .refl _⟩
  · intro j x hx
    have hlt := (List.getElem?_eq_some_iff.mp hx).1
    exact ⟨x, by rw [List.getElem?_append_left hlt]; exact hx, rfl, rfl, .refl _⟩

theorem EndedAs.later {old new : List Made} {i : ℕ} {status : TaskStatus}
    (h : EndedAs old i status) (hg : Grows old new) : EndedAs new i status := by
  obtain ⟨x, hx, hst, hend⟩ := h
  obtain ⟨y, hy, -, -, hev⟩ := hg i x hx
  have hfinal := hev.final hend
  exact ⟨y, hy, hfinal ▸ hst, hfinal ▸ hend⟩

theorem Pc.Knows.later {cfg : Settings} {rows rows' : List Row} {made made' : List Made} {pc : Pc}
    (h : pc.Knows cfg rows made) (hc : Continues rows rows') (hg : Grows made made') :
    pc.Knows cfg rows' made' := by
  cases pc with
  | enqueue row a k => exact Of.later h hc
  | enqueuePut row a k | enqueueOverload row a k => exact ⟨Of.later h.1 hc, h.2⟩
  | enqueueReject row a k => exact ⟨Of.later h.1 hc, h.2⟩
  | visitComplete it rest => exact EndedAs.later h hg
  | visitReport it rest => exact EndedAs.later h hg
  | _ => trivial

end Growth

section Knows

variable {cfg : Settings} {A : Json → Json → Prop} {s t : Sys} {e : Event}

theorem knows_next (k : Cont) (rows : List Row) (made : List Made) : k.next.Knows cfg rows made := by
  cases k with
  | submit job => trivial
  | poll left => cases left <;> trivial

theorem knows_query {io : Io} {op : Op} {k : Resp → Pc} {rows : List Row} {made : List Made}
    (h : ∀ r, (k r).Knows cfg rows made) : (s.query io op k).pc.Knows cfg rows made := by
  unfold Sys.query
  split
  · trivial
  · trivial
  · exact h _

/-- A claimed row is a row of the table. -/
theorem knows_claim {io : Io} {job : Option Uuid} {k : Cont} {other : Pc}
    (hother : other.Knows cfg s.rows s.made) :
    (s.query io (.claim job cfg.leaseSeconds io.attempt io.locked)
      fun | .row (some r) => .enqueue r io.attempt k | _ => other).pc.Knows cfg s.rows s.made := by
  unfold Sys.query
  split
  · trivial
  · trivial
  · simp only [JobStore.exec, resp]
    cases hc : candidate s.rows s.now job io.locked with
    | none => exact hother
    | some c => exact ⟨c, (candidate_mem hc).1, rfl, rfl, rfl, rfl⟩

/-- **What the lock holder knows at its next point**, of the rows and tasks as they were. -/
theorem advance_knows {io : Io} (h : s.pc.Knows cfg s.rows s.made) (hs : advance cfg s io = some t) :
    t.pc.Knows cfg s.rows s.made := by
  cases hpc : s.pc with
  | free => simp [advance, hpc] at hs
  | submitGet job =>
    simp only [advance, hpc, Option.some.injEq] at hs
    subst hs
    dsimp only
    split
    · trivial
    · split <;> trivial
  | submitGate job =>
    simp only [advance, hpc, Option.some.injEq] at hs
    subst hs
    dsimp only
    split <;> trivial
  | submitClaim job =>
    simp only [advance, hpc, Option.some.injEq] at hs
    exact hs ▸ knows_claim trivial
  | pollClaim left =>
    simp only [advance, hpc, Option.some.injEq] at hs
    exact hs ▸ knows_claim trivial
  | submitReturn job =>
    simp only [advance, hpc, Option.some.injEq] at hs
    exact hs ▸ trivial
  | enqueue row a k =>
    simp only [advance, hpc, Option.some.injEq] at hs
    subst hs
    rw [hpc] at h
    dsimp only
    cases hf : cfg.fingerprint row.spec with
    | none => trivial
    | some f =>
      dsimp only
      split
      next hne => exact ⟨h, f, hf, hne⟩
      next heq => exact ⟨h, by rw [hf, not_not.mp heq]⟩
  | enqueueReject row a k | enqueueOverload row a k =>
    simp only [advance, hpc, Option.some.injEq] at hs
    exact hs ▸ knows_query fun _ => knows_next k _ _
  | enqueuePut row a k =>
    simp only [advance, hpc, Option.some.injEq] at hs
    subst hs
    rw [hpc] at h
    split
    · exact h
    · trivial
  | enqueueRecord job a i k =>
    simp only [advance, hpc, Option.some.injEq] at hs
    exact hs ▸ knows_next k _ _
  | pollExpire =>
    simp only [advance, hpc, Option.some.injEq] at hs
    exact hs ▸ knows_query fun _ => trivial
  | visit rest =>
    cases rest <;> simp only [advance, hpc, Option.some.injEq] at hs <;> exact hs ▸ trivial
  | visitExpired it rest =>
    simp only [advance, hpc] at hs
    obtain ⟨x, hx, rfl⟩ := Option.map_eq_some_iff.mp hs
    split <;> trivial
  | visitDone it rest =>
    simp only [advance, hpc] at hs
    obtain ⟨x, hx, rfl⟩ := Option.map_eq_some_iff.mp hs
    dsimp only
    split
    next hdone => exact ⟨x, hx, hdone, by simp [Task.terminal, hdone, TaskStatus.terminal]⟩
    next => trivial
  | visitFailed it rest =>
    simp only [advance, hpc] at hs
    obtain ⟨x, hx, rfl⟩ := Option.map_eq_some_iff.mp hs
    dsimp only
    split
    next hfailed => exact ⟨x, hx, hfailed, by simp [Task.terminal, hfailed, TaskStatus.terminal]⟩
    next => trivial
  | visitComplete it rest | visitReport it rest =>
    simp only [advance, hpc] at hs
    obtain ⟨x, hx, rfl⟩ := Option.map_eq_some_iff.mp hs
    exact knows_query fun _ => trivial
  | visitRenew it rest =>
    simp only [advance, hpc, Option.some.injEq] at hs
    subst hs
    refine knows_query fun r => ?_
    split <;> trivial
  | visitAge it rest =>
    simp only [advance, hpc, Option.some.injEq] at hs
    subst hs
    dsimp only
    split <;> trivial
  | visitDel it rest | visitRenewed it rest | visitLost it rest =>
    simp only [advance, hpc, Option.some.injEq] at hs
    exact hs ▸ trivial
  | fill =>
    simp only [advance, hpc, Option.some.injEq] at hs
    exact hs ▸ knows_next _ _ _

theorem step_knows (hown : e.own = true) (h : s.pc.Knows cfg s.rows s.made)
    (hs : step cfg s e = some t) : t.pc.Knows cfg s.rows s.made := by
  cases e with
  | foreign op | insert r => simp [Event.own] at hown
  | tick _ _ _ | stop | task _ _ =>
    obtain rfl := Option.some.inj hs
    exact h
  | submit job | poll =>
    simp only [step] at hs
    split at hs
    · obtain rfl := Option.some.inj hs
      trivial
    · cases hs
  | advance io => exact advance_knows h hs

end Knows

section Sourced

variable {cfg : Settings} {A : Json → Json → Prop} {s t : Sys} {e : Event}

theorem Made.Runs.later {x y : Made} {r r' : Row} (h : x.Runs cfg r) (hj : y.jobId = x.jobId)
    (ha : y.attemptId = x.attemptId) (hdata : y.task.inputData = x.task.inputData)
    (hr : r'.SameJob r) : y.Runs cfg r' where
  jobId := hj.trans (h.jobId.trans hr.jobId.symm)
  inputData := by rw [hdata, h.inputData, ha, hr.spec]
  fingerprint := by rw [hr.spec, hr.specSha256, h.fingerprint]

theorem Sourced.runs_later (h : Sourced cfg A s) {rows : List Row} (hc : Continues s.rows rows)
    {x : Made} (hx : x ∈ s.made) : ∃ r ∈ rows, x.Runs cfg r := by
  obtain ⟨r, hr, hruns⟩ := h.runs x hx
  obtain ⟨r', hr', hsame⟩ := hc r hr
  exact ⟨r', hr', hruns.later rfl rfl rfl hsame⟩

/-- Whatever others do to the table. -/
theorem Sourced.others (h : Sourced cfg A s) {rows : List Row} (hc : Continues s.rows rows)
    (now : ℤ) : Sourced cfg A { s with rows := rows, now := now } where
  wf := h.wf.move (.refl _) rfl (.refl _) h.wf.record
  runs := fun _ hx => h.runs_later hc hx
  answers := h.answers
  knows := h.knows.later hc (.refl _)

/-- The tasks after a step: made for a row, and `DONE` only with an answer. -/
theorem Sourced.makesTo (h : Sourced cfg A s)
    (hA : ∀ i v, e = .task i (.markDone v) →
      ∀ x, s.made[i]? = some x → A x.task.inputData v)
    {made : List Made} (hm : MakesTo s e made) {x : Made} (hx : x ∈ made) :
    (∃ r ∈ s.rows, x.Runs cfg r) ∧ (x.task.status = .done → A x.task.inputData x.task.result) := by
  rcases hm with rfl | ⟨i, m, hmethod, rfl⟩ | ⟨row, a, k, taskId, hpc, rfl⟩
  · exact ⟨h.runs x hx, h.answers x hx⟩
  · obtain ⟨j, hj⟩ := List.getElem?_of_mem hx
    simp only [Sys.call, List.getElem?_modify] at hj
    obtain ⟨y, hy, hyx⟩ := Option.map_eq_some_iff.mp hj
    have hmem := List.mem_of_getElem? hy
    by_cases hij : i = j
    · simp only [hij, if_true] at hyx
      subst hyx
      have hev := Task.call_evolves y.task m s.mono s.wall
      obtain ⟨r, hr, hruns⟩ := h.runs y hmem
      refine ⟨⟨r, hr, hruns.later rfl rfl hev.inputData (.refl r)⟩, fun hdone => ?_⟩
      by_cases hbefore : y.task.status = .done
      · have hsame := hev.final (by simp [Task.terminal, hbefore, TaskStatus.terminal])
        rw [hsame]
        exact h.answers y hmem hbefore
      · obtain ⟨v, hv, hresult⟩ := Task.call_done hbefore hdone
        have hansw := hA i v (hv ▸ hmethod v hv) y (hij ▸ hy)
        rw [hev.inputData, hresult]
        exact hansw
    · simp only [hij, if_false] at hyx
      exact hyx ▸ ⟨h.runs y hmem, h.answers y hmem⟩
  · rcases List.mem_append.mp hx with hold | hnew
    · exact ⟨h.runs x hold, h.answers x hold⟩
    · -- the new task is made for the row that was claimed
      obtain rfl := List.mem_singleton.mp hnew
      have hknows := h.knows
      rw [hpc] at hknows
      obtain ⟨⟨r, hr, hsame⟩, hf⟩ := hknows
      refine ⟨⟨r, hr, hsame.jobId.symm, ?_, ?_⟩, fun hdone => by cases hdone⟩
      · simp only [newTask, taskData, hsame.spec]
      · rw [hsame.spec, hsame.specSha256, hf]

/-- **Step lemma** for one gateway. -/
theorem Sourced.step (hk : Keyed s.rows) (h : Sourced cfg A s) (hown : e.own = true)
    (hA : ∀ i v, e = .task i (.markDone v) → ∀ x, s.made[i]? = some x → A x.task.inputData v)
    (hs : JobGateway.step cfg s e = some t) : Sourced cfg A t := by
  have hmoves := step_moves hown hs
  have hc : Continues s.rows t.rows := by
    rcases hmoves.rows with hrows | ⟨op, -, hrows⟩
    · exact hrows ▸ .refl _
    · exact hrows ▸ continues_exec hk _ _
  refine ⟨wf_step h.wf hs, fun x hx => ?_, fun x hx => ?_, ?_⟩
  · obtain ⟨r, hr, hruns⟩ := (h.makesTo hA hmoves.made hx).1
    obtain ⟨r', hr', hsame⟩ := hc r hr
    exact ⟨r', hr', hruns.later rfl rfl rfl hsame⟩
  · exact (h.makesTo hA hmoves.made hx).2
  · exact (step_knows hown h.knows hs).later hc hmoves.made.grows

end Sourced

/-! ## Every row has its explanation -/

/-- The tasks of every gateway have grown, and the clock of the database has not gone back. -/
structure Fleet.Later (F F' : Fleet) : Prop where
  now : F.now ≤ F'.now
  grows : ∀ g, Grows (F.gateways g).made (F'.gateways g).made

section Explained

variable {cfg : ℕ → Settings} {A : Json → Json → Prop} {F F' : Fleet} {r : Row}

theorem FailedBy.later (h : FailedBy cfg F r) (hl : F.Later F') : FailedBy cfg F' r := by
  cases h with
  | deadline error overdue => exact .deadline error (overdue.trans hl.now)
  | fingerprint g f found differs error => exact .fingerprint g f found differs error
  | attempt g x made runs attempt failed error final =>
    have hend : x.task.terminal = true := by simp [Task.terminal, failed, TaskStatus.terminal]
    exact .attempt g x ((hl.grows g).ended made hend) runs attempt failed error final

theorem Explained.later (h : Explained cfg A F r) (hl : F.Later F') : Explained cfg A F' r where
  waiting := h.waiting
  succeeded := fun hs => by
    obtain ⟨herr, g, x, hx, hruns, ha, hdone, hrest⟩ := h.succeeded hs
    have hend : x.task.terminal = true := by simp [Task.terminal, hdone, TaskStatus.terminal]
    exact ⟨herr, g, x, (hl.grows g).ended hx hend, hruns, ha, hdone, hrest⟩
  failed := fun hf => ⟨(h.failed hf).1, (h.failed hf).2.later hl⟩

theorem explained_untouched (h : r.Untouched) : Explained cfg A F r := by
  obtain ⟨hs, -, -, hresult, herror, -⟩ := h
  exact ⟨fun _ => ⟨hresult, by simp [herror]⟩, by simp [hs], by simp [hs]⟩

/-- A row that is claimed or renewed waits as before. -/
theorem Explained.waits (h : Explained cfg A F r) (hopen : r.terminal = false) {r' : Row}
    (hs : r'.status = .running) (hresult : r'.result = r.result) (herror : r'.error = r.error) :
    Explained cfg A F r' where
  waiting := fun _ => by rw [hresult, herror]; exact h.waiting hopen
  succeeded := by simp [hs]
  failed := by simp [hs]

theorem open_of_running (h : r.status = .running) : r.terminal = false := by
  simp [Row.terminal, h]

theorem open_of_due {now : ℤ} {job : Option Uuid} (h : due now job r = true) :
    r.terminal = false := by
  cases hs : r.status <;> simp [due, Row.terminal, hs] at h ⊢

theorem open_of_overdue {now : ℤ} (h : overdue now r = true) : r.terminal = false := by
  cases hs : r.status <;> simp [overdue, Row.terminal, hs] at h ⊢

variable {g : ℕ} {a : Uuid} (hk : Keyed F.rows) (hr : r ∈ F.rows)
  (hsrc : Sourced (cfg g) A (F.view g))
include hk hr hsrc

/-- The entry that is visited has a task made for its job and attempt, and for the row of the job. -/
theorem Sourced.visited {it : Item} {x : Made} (hit : it ∈ (F.view g).pc.pending)
    (hx : (F.view g).made[it.2.task]? = some x) (hj : it.1 = r.jobId) :
    x ∈ (F.gateways g).made ∧ x.attemptId = it.2.attemptId ∧ x.Runs (cfg g) r := by
  obtain ⟨y, hy, hyj, hya⟩ := hsrc.wf.entries it.1 it.2 (hsrc.wf.pending it hit)
  obtain rfl : x = y := Option.some.inj (hx.symm.trans hy)
  have hmem := List.mem_of_getElem? hx
  obtain ⟨r', hr', hruns⟩ := hsrc.runs x hmem
  obtain rfl : r' = r := hk.eq_of_jobId hr' hr (hruns.jobId.symm.trans (hyj.trans hj))
  exact ⟨hmem, hya, hruns⟩

/-- **A completed row is explained** by what the gateway that completed it knew. -/
theorem explained_complete {now : ℤ} {result error : Option Json}
    (hissued : Issues (cfg g) (F.view g) (.complete r.jobId a result error))
    (hfenced : fenced now r.jobId a r = true) :
    Explained cfg A F (r.completed now result error) := by
  have hattempt : r.attemptId = some a := by
    simp only [fenced, Bool.and_eq_true, beq_iff_eq] at hfenced
    exact hfenced.1.1.1.2
  have hknows := hsrc.knows
  generalize hop : Op.complete r.jobId a result error = op at hissued
  cases hissued with
  | claim | renew | expire | overload => cases hop
  | reject row a' k hpc =>
    simp only [Op.complete.injEq] at hop
    obtain ⟨hj, -, rfl, rfl⟩ := hop
    rw [hpc] at hknows
    obtain ⟨⟨r', hr', hsame⟩, f, hf, hne⟩ := hknows
    obtain rfl : r' = r := hk.eq_of_jobId hr' hr (hsame.jobId.trans hj.symm)
    refine ⟨by simp [Row.completed, Row.terminal], by simp [Row.completed], fun _ => ⟨rfl, ?_⟩⟩
    exact .fingerprint g f (by rw [← hf, ← hsame.spec]; rfl)
      (by rw [← hsame.specSha256] at hne; exact hne) rfl
  | complete it rest x hpc hx =>
    simp only [Op.complete.injEq] at hop
    obtain ⟨hj, ha, rfl, rfl⟩ := hop
    rw [hpc] at hknows
    obtain ⟨y, hy, hdone, -⟩ := hknows
    obtain rfl : x = y := Option.some.inj (hx.symm.trans hy)
    obtain ⟨hmem, hxa, hruns⟩ := hsrc.visited hk hr
      (by rw [hpc]; exact List.mem_cons_self) hx hj.symm
    refine ⟨by simp [Row.completed, Row.terminal], fun _ => ⟨rfl, g, x, hmem, ?_, ?_, hdone, ?_, rfl⟩,
      by simp [Row.completed]⟩
    · exact hruns.later rfl rfl rfl ⟨rfl, rfl, rfl, rfl⟩
    · rw [hxa, ← ha]
      exact hattempt
    · have hansw := hsrc.answers x hmem hdone
      rw [hruns.inputData] at hansw
      exact hansw
  | report it rest x hpc hx =>
    simp only [reportOp] at hop
    split at hop
    · cases hop
    next hfinal =>
      simp only [Op.complete.injEq] at hop
      obtain ⟨hj, ha, rfl, rfl⟩ := hop
      rw [hpc] at hknows
      obtain ⟨y, hy, hfailed, -⟩ := hknows
      obtain rfl : x = y := Option.some.inj (hx.symm.trans hy)
      obtain ⟨hmem, hxa, hruns⟩ := hsrc.visited hk hr
        (by rw [hpc]; exact List.mem_cons_self) hx hj.symm
      refine ⟨by simp [Row.completed, Row.terminal], by simp [Row.completed], fun _ => ⟨rfl, ?_⟩⟩
      exact .attempt g x hmem (hruns.later rfl rfl rfl ⟨rfl, rfl, rfl, rfl⟩)
        (by rw [hxa, ← ha]; exact hattempt) hfailed rfl hfinal

omit hk hr hsrc in
/-- **A deferred row is explained**: its error is one to retry. -/
theorem explained_defer {now retry : ℤ} {error : Json}
    (hissued : Issues (cfg g) (F.view g) (.defer r.jobId a error retry))
    (hwait : r.result = none) : Explained cfg A F (r.deferred now retry error) := by
  have hretry : Retryable error := by
    generalize hop : Op.defer r.jobId a error retry = op at hissued
    cases hissued with
    | claim | renew | expire | reject | complete => cases hop
    | overload row a' k hpc =>
      simp only [Op.defer.injEq] at hop
      exact ⟨"overloaded", by simp [retryableErrors], _, hop.2.2.1⟩
    | report it rest x hpc hx =>
      simp only [reportOp] at hop
      split at hop
      next hmem =>
        simp only [Op.defer.injEq] at hop
        exact ⟨_, hmem, _, hop.2.2.1⟩
      · cases hop
  refine ⟨fun _ => ⟨hwait, ?_⟩, by simp [Row.deferred], by simp [Row.deferred]⟩
  intro e he
  obtain rfl := Option.some.inj he
  exact hretry

/-- **One statement of gateway `g`, one row.** -/
theorem Explained.onRow {op : Op} (h : Explained cfg A F r) (hissued : Issues (cfg g) (F.view g) op) :
    Explained cfg A F (onRow F.rows F.now op r) := by
  rcases onRow_cases hk F.now op hr with hu | ⟨job, lease, a, locked, -, hd, hu, -⟩ |
    ⟨a, lease, -, hf, hu, -⟩ | ⟨a, res, err, rfl, hf, hu, -⟩ | ⟨a, err, retry, rfl, hf, hu, -⟩ |
    ⟨-, ho, hu⟩ <;> rw [hu]
  · exact h
  · exact h.waits (open_of_due hd) rfl rfl rfl
  · have hs : r.status = .running := running_of_fenced hf
    exact h.waits (open_of_running hs) hs rfl rfl
  · exact explained_complete hk hr hsrc hissued hf
  · exact explained_defer hissued (h.waiting (open_of_running (running_of_fenced hf))).1
  · have hoverdue : r.deadlineAt ≤ F.now := by
      simp only [overdue, Bool.and_eq_true, decide_eq_true_eq] at ho
      exact ho.2
    exact ⟨by simp [Row.expired, Row.terminal], by simp [Row.expired],
      fun _ => ⟨(h.waiting (open_of_overdue ho)).1, .deadline rfl hoverdue⟩⟩

end Explained

structure Fleet.Inv (cfg : ℕ → Settings) (A : Json → Json → Prop) (F : Fleet) : Prop where
  keyed : Keyed F.rows
  sourced : ∀ g, Sourced (cfg g) A (F.view g)
  explained : ∀ r ∈ F.rows, Explained cfg A F r

section Fleet

variable {cfg : ℕ → Settings} {A : Json → Json → Prop} {F F' : Fleet}

theorem Fleet.Init.inv (h : F.Init) : F.Inv cfg A where
  keyed := h.keyed
  sourced := fun g => by
    obtain ⟨hmade, hactive, hpc⟩ := h.gateways g
    refine ⟨wf_init ⟨hmade, hactive, hpc⟩, ?_, ?_, ?_⟩
    · simp [Fleet.view, hmade]
    · simp [Fleet.view, hmade]
    · simp only [Fleet.view, hpc]
      trivial
  explained := fun r hr => explained_untouched (h.untouched r hr)

theorem Fleet.Inv.insert (h : F.Inv cfg A) {r : Row} (hr : r.Untouched)
    (hnew : r.jobId ∉ F.rows.map Row.jobId) : Fleet.Inv cfg A { F with rows := F.rows ++ [r] } where
  keyed := by
    have := h.keyed
    simp only [Keyed, List.map_append, List.map_singleton] at this ⊢
    exact List.nodup_append.mpr ⟨this, List.nodup_singleton _, by simpa using hnew⟩
  sourced := fun g => (h.sourced g).others (continues_append _ _) _
  explained := fun x hx => by
    rcases List.mem_append.mp hx with hold | hlast
    · exact (h.explained x hold).later ⟨le_rfl, fun _ => .refl _⟩
    · obtain rfl := List.mem_singleton.mp hlast
      exact explained_untouched hr

/-- **Step lemma.** -/
theorem Fleet.Inv.step {act : Act} (hA : Answered A F act) (h : F.Inv cfg A)
    (hs : Fleet.step cfg F act = some F') : F'.Inv cfg A := by
  cases act with
  | insert r =>
    simp only [Fleet.step] at hs
    split at hs
    next hr =>
      obtain rfl := Option.some.inj hs
      exact h.insert hr.1 hr.2
    · cases hs
  | gateway g e =>
    simp only [Fleet.step] at hs
    split at hs
    next hown =>
      obtain ⟨t, ht, rfl⟩ := Option.map_eq_some_iff.mp hs
      have hmoves := step_moves hown ht
      have hansw : ∀ i v, e = .task i (.markDone v) →
          ∀ x, (F.view g).made[i]? = some x → A x.task.inputData v := by
        rintro i v rfl
        exact hA
      have hsource := (h.sourced g).step h.keyed hown hansw ht
      have hlater : F.Later ⟨t.rows, t.now, Function.update F.gateways g t⟩ := by
        refine ⟨hmoves.now, fun g' => ?_⟩
        by_cases hg : g' = g
        · subst hg
          simp only [Function.update_self]
          exact hmoves.made.grows
        · simpa [Function.update_of_ne hg] using Grows.refl _
      have hkc : Keyed t.rows ∧ Continues F.rows t.rows := by
        rcases hmoves.rows with hrows | ⟨op, -, hrows⟩
        · exact hrows ▸ ⟨h.keyed, .refl _⟩
        · exact hrows ▸ ⟨keyed_exec h.keyed, continues_exec h.keyed _ _⟩
      refine ⟨hkc.1, fun g' => ?_, fun r hr => ?_⟩
      · by_cases hg : g' = g
        · subst hg
          simpa [Fleet.view] using hsource
        · simpa [Fleet.view, Function.update_of_ne hg] using (h.sourced g').others hkc.2 t.now
      · rcases hmoves.rows with hrows | ⟨op, hissued, hrows⟩
        · have hold : r ∈ F.rows := by
            rw [hrows] at hr
            exact hr
          exact (h.explained r hold).later hlater
        · rw [hrows] at hr
          obtain ⟨r₀, hr₀, rfl⟩ := List.mem_map.mp hr
          exact ((h.explained r₀ hr₀).onRow h.keyed hr₀ (h.sourced g) hissued).later hlater
    · cases hs

end Fleet

/-- **Every row is explained.**  Any number of gateways work on one table, die at any moment, lose
their leases and have any of their statements raise before or after the database applied it; the
workers answer as `A` says.  Then in every state reached, a succeeded row holds what some gateway's
task, made for the spec and the attempt of this very row, was answered; a failed row is past its
deadline, does not have the fingerprint it claims, or holds an error of that attempt that is not to be
retried; a waiting or running row holds no result and at most an error to retry. -/
theorem rows_explained (cfg : ℕ → Settings) (A : Json → Json → Prop) {F₀ F : Fleet}
    {acts : List Act} (h₀ : F₀.Init) (hA : Meets (Fleet.step cfg) (Answered A) F₀ acts)
    (h : Lib.exec (Fleet.step cfg) F₀ acts = some F) : ∀ r ∈ F.rows, Explained cfg A F r :=
  (exec_inv_meets (P := Fleet.Inv cfg A) (fun _ _ _ hC hP hs => hP.step hC hs) hA h₀.inv h).explained

/-- One job and two gateways. -/
def takeoverStart : Fleet where
  rows := [reclaimRow]
  now := 0
  gateways := fun _ => { reclaimStart with rows := [] }

/-- Gateway 0 claims the job and dies, its lease lapses, gateway 1 takes over and completes. -/
def takeoverRun : List Act :=
  (submitSteps 501).map (.gateway 0) ++ .gateway 1 (.tick 200 200 200) ::
    (submitSteps 502).map (.gateway 1) ++
      (.task 0 (.markDone (.str "ok")) :: .poll :: List.replicate 5 (.advance {})).map (.gateway 1)

theorem rows_explained_takeover : ∃ F r,
    Lib.exec (Fleet.step fun _ => twoSlots) takeoverStart takeoverRun = some F ∧ r ∈ F.rows ∧
      r.status = .succeeded ∧ r.attemptId = some 502 ∧
      Explained (fun _ => twoSlots) (fun _ v => v = .str "ok") F r := by
  have hview : (Lib.exec (Fleet.step fun _ => twoSlots) takeoverStart takeoverRun).map (fun F =>
      F.rows.map fun r => (r.status, r.attemptId)) = some [(.succeeded, some 502)] := by
    decide +kernel
  obtain ⟨F, hF, hrows⟩ := Option.map_eq_some_iff.mp hview
  obtain ⟨r, rest, hr, hstatus, -⟩ := List.map_eq_cons_iff.mp hrows
  have hmem : r ∈ F.rows := hr ▸ List.mem_cons_self
  have hanswered : ∀ act ∈ takeoverRun, ∀ F, Answered (fun _ v => v = Json.str "ok") F act := by
    intro act hact F
    simp only [takeoverRun, submitSteps, List.map_cons, List.map_replicate,
      List.cons_append, List.mem_append, List.mem_cons, List.mem_replicate] at hact
    rcases hact with rfl | (⟨-, rfl⟩ | rfl | rfl | ⟨-, rfl⟩) | rfl | rfl | ⟨-, rfl⟩ <;>
      simp [Answered]
  have hinit : takeoverStart.Init :=
    ⟨List.nodup_singleton _, by simp [takeoverStart, reclaimRow, Row.Untouched],
      fun _ => ⟨rfl, rfl, rfl⟩⟩
  simp only [Prod.mk.injEq] at hstatus
  exact ⟨F, r, hF, hmem, hstatus.1, hstatus.2,
    rows_explained _ _ hinit (meets_of_forall hanswered _) hF r hmem⟩

end Inference.JobGateway
