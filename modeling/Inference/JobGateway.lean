import Inference.JobStore
import Inference.Task
import Inference.Lib.Run
import Inference.Lib.Dict

/-!
# Inference.JobGateway — `submit` and `poll` of `system/job_gateway.py`

One gateway with its `_active` dictionary, the job table it shares with other gateways, and the
tasks it has put on the queue.  Whoever holds the gateway lock is at a program point `Pc`; each
statement, each read of a task and each clock reading is a step, and each statement may raise
before or after its effect.  Between the steps workers run task methods, time passes and other
gateways run their own statements.

* `Owned`: a non-terminal task this gateway queued is the one `_active` records for its job.
* `RecordsIdle`: an attempt recorded in `_active` never replaces a task that is still open.
* `no_orphan`: `Owned` and the `max_inflight` bound hold whenever the lock is free, in every run
  whose steps meet `RecordsIdle`, and in every run when `max_inflight` is one.
* `reclaimRun`: with `max_inflight = 2` a lapsed lease claimed again orphans the first attempt.
-/

namespace Inference.JobGateway

open Inference.Lib Inference.JobStore

/-- The constructor's arguments; `fingerprint` is the SHA-256 of the canonical dump of a spec,
`none` where encoding it raises. -/
structure Settings where
  leaseSeconds : ℤ
  renewInterval : ℤ
  retrySeconds : ℤ
  maxInflight : ℕ
  fingerprint : Json → Option String

/-- `RETRYABLE_ERRORS`. -/
def retryableErrors : List String :=
  ["overloaded", "worker_busy", "already_running", "transport_error", "in_progress",
    "storage_unavailable", "socket_unavailable", "storage_error", "worker_unavailable",
    "worker_error"]

/-- `value or default` on an optional string. -/
def orText (value : Option String) (default : String) : String :=
  match value with
  | some s => if s = "" then default else s
  | none => default

/-- An error as the gateway stores it. -/
def errorJson (code message : String) : Json := .obj [("code", .str code), ("message", .str message)]

/-- A task put on the queue, with the claim it was made for. -/
structure Made where
  task : Task
  jobId : Uuid
  attemptId : Uuid
deriving DecidableEq, Repr

/-- A value of `_active`: the task (by its place in the list of tasks made), its attempt and the
time of the last renewal. -/
structure Active where
  task : ℕ
  attemptId : Uuid
  renewed : ℤ
deriving DecidableEq, Repr

/-- What follows `_enqueue`: the end of `submit`, or the remaining claims of `poll`. -/
inductive Cont where
  | submit (job : Uuid)
  | poll (left : ℕ)
deriving DecidableEq, Repr

/-- An item of the list `poll` walks over. -/
abbrev Item := Uuid × Active

/-- Program points of the lock holder; `free` when there is none. -/
inductive Pc where
  | free
  /-- `row = self.store.get(job_id)` -/
  | submitGet (job : Uuid)
  /-- `if len(self._active) < self.max_inflight and not self._stop.is_set()` -/
  | submitGate (job : Uuid)
  /-- `claimed = self.store.claim(job_id=job_id, …)` -/
  | submitClaim (job : Uuid)
  /-- `return self.store.get(job_id)` -/
  | submitReturn (job : Uuid)
  /-- `if fingerprint != row["spec_sha256"]` -/
  | enqueue (row : Row) (attempt : Uuid) (k : Cont)
  /-- `self.store.complete(…, error={"code": "invalid_spec", …})` -/
  | enqueueReject (row : Row) (attempt : Uuid) (k : Cont)
  /-- `self.queue.put(task, timeout=0)` -/
  | enqueuePut (row : Row) (attempt : Uuid) (k : Cont)
  /-- `self.store.defer(…, {"code": "overloaded", …}, …)` -/
  | enqueueOverload (row : Row) (attempt : Uuid) (k : Cont)
  /-- `self._active[job_id] = (task, attempt_id, time.monotonic())` -/
  | enqueueRecord (job attempt : Uuid) (task : ℕ) (k : Cont)
  /-- `self.store.expire_deadlines()` -/
  | pollExpire
  /-- the `for` over `list(self._active.items())` -/
  | visit (rest : List Item)
  /-- `if task.is_expired(): task.mark_failed(…)` -/
  | visitExpired (it : Item) (rest : List Item)
  /-- `if task.status == TaskStatus.DONE` -/
  | visitDone (it : Item) (rest : List Item)
  /-- `self.store.complete(job_id, attempt_id, result=task.result)` -/
  | visitComplete (it : Item) (rest : List Item)
  /-- `elif task.status == TaskStatus.FAILED` -/
  | visitFailed (it : Item) (rest : List Item)
  /-- `self.store.defer(…)` or `self.store.complete(…, error=error)` -/
  | visitReport (it : Item) (rest : List Item)
  /-- `del self._active[job_id]` -/
  | visitDel (it : Item) (rest : List Item)
  /-- `elif time.monotonic() - renewed >= self.renew_interval` -/
  | visitAge (it : Item) (rest : List Item)
  /-- `if self.store.renew(…)` -/
  | visitRenew (it : Item) (rest : List Item)
  /-- `self._active[job_id] = (task, attempt_id, time.monotonic())` -/
  | visitRenewed (it : Item) (rest : List Item)
  /-- `task.mark_failed("execution lease lost", "lease_lost")` -/
  | visitLost (it : Item) (rest : List Item)
  /-- `range(self.max_inflight - len(self._active))` -/
  | fill
  /-- `row = self.store.claim(…)` with `left` claims to go after this one -/
  | pollClaim (left : ℕ)
deriving DecidableEq, Repr

/-- The gateway, the table, the tasks it made and the clocks: `now` is the database's `now()`. -/
structure Sys where
  rows : List Row
  made : List Made
  active : List Item
  pc : Pc
  stop : Bool
  now : ℤ
  mono : ℤ
  wall : ℤ
deriving DecidableEq, Repr

/-- Where an exception strikes a call of the store. -/
inductive Fault where
  | before
  | after
deriving DecidableEq, Repr

/-- What the environment answers during one step: an exception, the UUID a claim draws, the rows
other transactions have locked, whether the queue is full, and the new task's identity. -/
structure Io where
  fault : Option Fault := none
  attempt : Uuid := 0
  locked : List Uuid := []
  full : Bool := false
  taskId : String := ""
deriving DecidableEq, Repr

inductive Event where
  /-- time passes; the wall clock may be set to anything -/
  | tick (now mono : ℕ) (wall : ℤ)
  /-- a statement of another gateway -/
  | foreign (op : Op)
  /-- the backend inserts a job -/
  | insert (r : Row)
  /-- somebody calls a method of a queued task -/
  | task (i : ℕ) (m : Task.Method)
  /-- `stop` sets the flag -/
  | stop
  /-- a thread takes the lock for `submit` -/
  | submit (job : Uuid)
  /-- a thread takes the lock for `poll` -/
  | poll
  /-- the lock holder takes one step -/
  | advance (io : Io)
deriving DecidableEq, Repr

/-- A method of task `i`, as its lock makes it appear. -/
def Sys.call (s : Sys) (i : ℕ) (m : Task.Method) : Sys :=
  { s with made := s.made.modify i fun x => { x with task := x.task.call m s.mono s.wall } }

/-- One call of the store: an exception frees the lock. -/
def Sys.query (s : Sys) (io : Io) (op : Op) (k : Resp → Pc) : Sys :=
  match io.fault with
  | some .before => { s with pc := .free }
  | some .after => { s with rows := (exec s.rows s.now op).1, pc := .free }
  | none => { s with rows := (exec s.rows s.now op).1, pc := k (exec s.rows s.now op).2 }

/-- `result if result is not None else None` as a column. -/
def resultColumn (r : Json) : Option Json := if r.isNone then none else some r

/-- Back from `_enqueue`. -/
def Cont.next : Cont → Pc
  | .submit job => .submitReturn job
  | .poll 0 => .free
  | .poll (left + 1) => .pollClaim left

/-- `str(uuid)`. -/
def uuidText (u : Uuid) : String :=
  let h := (List.range 32).map fun i => Nat.digitChar (u / 16 ^ (31 - i) % 16)
  String.ofList (h.take 8 ++ '-' :: (h.drop 8).take 4 ++ '-' :: (h.drop 12).take 4 ++
    '-' :: (h.drop 16).take 4 ++ '-' :: h.drop 20)

/-- The task `_enqueue` creates for a claimed row. -/
def newTask (s : Sys) (row : Row) (attempt : Uuid) (taskId : String) : Task where
  inputData := .obj [("kind", .str "synthx_v73"), ("spec", row.spec),
    ("attempt_id", .str (uuidText attempt))]
  taskId := taskId
  creationTime := s.wall
  deadline := some (s.mono + max 0 (row.deadlineAt - s.wall))

/-- The statement that reports a failed task, and whether it is a `defer`. -/
def reportOp (cfg : Settings) (job attempt : Uuid) (t : Task) : Op :=
  let code := orText t.errorCode "worker_error"
  let error := errorJson code (orText t.error "inference failed")
  if code ∈ retryableErrors then .defer job attempt error cfg.retrySeconds
  else .complete job attempt none (some error)

/-- One step of the lock holder. -/
def advance (cfg : Settings) (s : Sys) (io : Io) : Option Sys :=
  match s.pc with
  | .free => none
  | .submitGet job => some { s with
      pc := if io.fault.isSome then .free
            else if s.rows.any fun r => r.jobId == job then .submitGate job else .free }
  | .submitGate job => some { s with
      pc := if s.active.length < cfg.maxInflight && !s.stop then .submitClaim job
            else .submitReturn job }
  | .submitClaim job => some (s.query io (.claim (some job) cfg.leaseSeconds io.attempt io.locked)
      fun | .row (some r) => .enqueue r io.attempt (.submit job) | _ => .submitReturn job)
  | .submitReturn _ => some { s with pc := .free }
  | .enqueue row a k => some { s with pc := match cfg.fingerprint row.spec with
      | none => .free
      | some f => if f ≠ row.specSha256 then .enqueueReject row a k else .enqueuePut row a k }
  | .enqueueReject row a k => some (s.query io
      (.complete row.jobId a none (some (errorJson "invalid_spec" "spec fingerprint mismatch")))
      fun _ => k.next)
  | .enqueuePut row a k => some (if io.full then { s with pc := .enqueueOverload row a k }
      else { s with made := s.made ++ [⟨newTask s row a io.taskId, row.jobId, a⟩],
                    pc := .enqueueRecord row.jobId a s.made.length k })
  | .enqueueOverload row a k => some (s.query io
      (.defer row.jobId a (errorJson "overloaded" "task queue is full") cfg.retrySeconds)
      fun _ => k.next)
  | .enqueueRecord job a i k => some { s with
      active := Dict.set job ⟨i, a, s.mono⟩ s.active, pc := k.next }
  | .pollExpire => some (s.query io .expireDeadlines fun _ => .visit s.active)
  | .visit [] => some { s with pc := .fill }
  | .visit (it :: rest) => some { s with pc := .visitExpired it rest }
  | .visitExpired it rest =>
    (s.made[it.2.task]?).map fun x =>
      if x.task.isExpired s.mono
      then { s.call it.2.task (.markFailed "job deadline exceeded" (some "deadline_exceeded")) with
             pc := .visitDone it rest }
      else { s with pc := .visitDone it rest }
  | .visitDone it rest =>
    (s.made[it.2.task]?).map fun x => { s with
      pc := if x.task.status = .done then .visitComplete it rest else .visitFailed it rest }
  | .visitComplete it rest =>
    (s.made[it.2.task]?).map fun x => s.query io
      (.complete it.1 it.2.attemptId (resultColumn x.task.result) none) fun _ => .visitDel it rest
  | .visitFailed it rest =>
    (s.made[it.2.task]?).map fun x => { s with
      pc := if x.task.status = .failed then .visitReport it rest else .visitAge it rest }
  | .visitReport it rest =>
    (s.made[it.2.task]?).map fun x => s.query io (reportOp cfg it.1 it.2.attemptId x.task)
      fun _ => .visitDel it rest
  | .visitDel it rest => some { s with active := Dict.del it.1 s.active, pc := .visit rest }
  | .visitAge it rest => some { s with
      pc := if cfg.renewInterval ≤ s.mono - it.2.renewed then .visitRenew it rest else .visit rest }
  | .visitRenew it rest => some (s.query io (.renew it.1 it.2.attemptId cfg.leaseSeconds)
      fun | .bool true => .visitRenewed it rest | _ => .visitLost it rest)
  | .visitRenewed it rest => some { s with
      active := Dict.set it.1 ⟨it.2.task, it.2.attemptId, s.mono⟩ s.active, pc := .visit rest }
  | .visitLost it rest => some { s.call it.2.task
      (.markFailed "execution lease lost" (some "lease_lost")) with pc := .visitDel it rest }
  | .fill => some { s with pc := (Cont.poll (cfg.maxInflight - s.active.length)).next }
  | .pollClaim left => some (s.query io (.claim none cfg.leaseSeconds io.attempt io.locked)
      fun | .row (some r) => .enqueue r io.attempt (.poll left) | _ => .free)

def step (cfg : Settings) (s : Sys) : Event → Option Sys
  | .tick now mono wall => some { s with now := s.now + now, mono := s.mono + mono, wall := wall }
  | .foreign op => some { s with rows := (exec s.rows s.now op).1 }
  | .insert r => some { s with rows := s.rows ++ [r] }
  | .task i m => some (s.call i m)
  | .stop => some { s with stop := true }
  | .submit job => if s.pc = .free then some { s with pc := .submitGet job } else none
  | .poll => if s.pc = .free then some { s with pc := .pollExpire } else none
  | .advance io => advance cfg s io

/-- A new gateway: nothing made, nothing tracked. -/
def Init (s : Sys) : Prop := s.made = [] ∧ s.active = [] ∧ s.pc = .free

/-! ## What the lock holder knows -/

/-- Task `x` is what `_active` records for its job, with its own attempt. -/
def Tracked (s : Sys) (i : ℕ) (x : Made) : Prop :=
  ∃ e, Dict.get? x.jobId s.active = some e ∧ e.task = i ∧ e.attemptId = x.attemptId

/-- Every non-terminal task this gateway put on the queue is tracked. -/
def Owned (s : Sys) : Prop :=
  ∀ (i : ℕ) (x : Made), s.made[i]? = some x → x.task.terminal = false → Tracked s i x

/-- The non-terminal tasks this gateway put on the queue. -/
def openTasks (s : Sys) : List Made := s.made.filter fun x => !x.task.terminal

/-- The task at place `i` has ended. -/
def Ended (s : Sys) (i : ℕ) : Prop := ∀ x : Made, s.made[i]? = some x → x.task.terminal = true

/-- The job is not tracked, or its tracked task has ended. -/
def Quiescent (s : Sys) (job : Uuid) : Prop :=
  ∀ e, Dict.get? job s.active = some e → Ended s e.task

/-- The task that is on the queue and about to be recorded. -/
def Pc.recording : Pc → Option ℕ
  | .enqueueRecord _ _ i _ => some i
  | _ => none

/-- Entries the continuation may still add to `_active`. -/
def Cont.reserve : Cont → ℕ
  | .submit _ => 1
  | .poll left => left + 1

/-- Entries the lock holder may still add to `_active`. -/
def Pc.reserve : Pc → ℕ
  | .submitClaim _ => 1
  | .enqueue _ _ k | .enqueueReject _ _ k | .enqueuePut _ _ k | .enqueueOverload _ _ k
  | .enqueueRecord _ _ _ k => k.reserve
  | .pollClaim left => left + 1
  | _ => 0

/-- Items of the walk whose entry has not been touched yet. -/
def Pc.pending : Pc → List Item
  | .visit rest => rest
  | .visitExpired it rest | .visitDone it rest | .visitComplete it rest | .visitFailed it rest
  | .visitReport it rest | .visitDel it rest | .visitAge it rest | .visitRenew it rest
  | .visitRenewed it rest | .visitLost it rest => it :: rest
  | _ => []

/-- What is true of the tasks at each point. -/
def Pc.Ok (s : Sys) : Pc → Prop
  | .visitComplete it _ | .visitReport it _ | .visitDel it _ => Ended s it.2.task
  | .enqueueRecord job a i _ => ∃ x : Made, s.made[i]? = some x ∧ x.jobId = job ∧ x.attemptId = a
  | _ => True

structure Inv (cfg : Settings) (s : Sys) : Prop where
  keys : Dict.Keys s.active
  tracked : ∀ (i : ℕ) (x : Made), s.made[i]? = some x → x.task.terminal = false →
    s.pc.recording = some i ∨ Tracked s i x
  room : s.active.length + s.pc.reserve ≤ cfg.maxInflight
  pendingKeys : Dict.Keys s.pc.pending
  pending : ∀ it ∈ s.pc.pending, Dict.get? it.1 s.active = some it.2
  ok : s.pc.Ok s

theorem inv_init {cfg : Settings} {s : Sys} (h : Init s) : Inv cfg s := by
  obtain ⟨hm, ha, hpc⟩ := h
  refine ⟨by simp [ha, Dict.Keys], fun i x hx => by simp [hm] at hx, by simp [ha, hpc, Pc.reserve],
    by simp [hpc, Pc.pending, Dict.Keys], fun it hit => by simp [hpc, Pc.pending] at hit, ?_⟩
  rw [hpc]
  trivial

/-! ## Steps of the others -/

/-- Every task made so far is still there for the same claim, and has only evolved. -/
def Progress (old new : List Made) : Prop :=
  ∀ (i : ℕ) (y : Made), new[i]? = some y → ∃ x : Made, old[i]? = some x ∧ x.jobId = y.jobId ∧
    x.attemptId = y.attemptId ∧ Task.Evolves x.task y.task

theorem Progress.refl (l : List Made) : Progress l l := fun _ y hy => ⟨y, hy, rfl, rfl, .refl _⟩

theorem progress_call (s : Sys) (i : ℕ) (m : Task.Method) : Progress s.made (s.call i m).made := by
  intro j y hy
  simp only [Sys.call, List.getElem?_modify] at hy
  obtain ⟨x, hx, hxy⟩ := Option.map_eq_some_iff.mp hy
  refine ⟨x, hx, ?_⟩
  split at hxy <;> subst hxy
  · exact ⟨rfl, rfl, Task.call_evolves _ _ _ _⟩
  · exact ⟨rfl, rfl, .refl _⟩

/-- An open task was open before. -/
theorem Progress.open_before {old new : List Made} (h : Progress old new) {i : ℕ} {y : Made}
    (hy : new[i]? = some y) (hopen : y.task.terminal = false) :
    ∃ x : Made, old[i]? = some x ∧ x.task.terminal = false ∧ x.jobId = y.jobId ∧
      x.attemptId = y.attemptId := by
  obtain ⟨x, hx, hj, ha, hev⟩ := h i y hy
  refine ⟨x, hx, ?_, hj, ha⟩
  by_contra hc
  have := hev.terminal (by simpa using hc)
  simp [hopen] at this

section Stable

variable {s t : Sys} (hp : Progress s.made t.made)
include hp

theorem Ended.stable {i : ℕ} (h : Ended s i) : Ended t i := by
  intro y hy
  obtain ⟨x, hx, -, -, hev⟩ := hp i y hy
  exact hev.terminal (h x hx)

theorem Pc.Ok.stable (hlen : t.made.length = s.made.length) {pc : Pc} (h : pc.Ok s) : pc.Ok t := by
  cases pc with
  | visitComplete it rest => exact Ended.stable hp h
  | visitReport it rest => exact Ended.stable hp h
  | visitDel it rest => exact Ended.stable hp h
  | enqueueRecord job a i k =>
    obtain ⟨x, hx, hj, ha⟩ := h
    have hlt : i < t.made.length := hlen ▸ (List.getElem?_eq_some_iff.mp hx).1
    obtain ⟨x', hx', hj', ha', -⟩ := hp i _ (List.getElem?_eq_getElem hlt)
    obtain rfl := Option.some.inj (hx.symm.trans hx')
    exact ⟨_, List.getElem?_eq_getElem hlt, hj'.symm.trans hj, ha'.symm.trans ha⟩
  | _ => trivial

/-- **Stability.**  The invariant survives whatever others do to the tasks and the table. -/
theorem Inv.stable {cfg : Settings} (h : Inv cfg s) (hlen : t.made.length = s.made.length)
    (ha : t.active = s.active) (hpc : t.pc = s.pc) : Inv cfg t := by
  refine ⟨ha ▸ h.keys, fun i y hy hopen => ?_, by rw [ha, hpc]; exact h.room, by
    rw [hpc]; exact h.pendingKeys, by rw [hpc, ha]; exact h.pending, by
    rw [hpc]; exact h.ok.stable hp hlen⟩
  obtain ⟨x, hx, hxo, hj, hatt⟩ := hp.open_before hy hopen
  rw [hpc]
  refine (h.tracked i x hx hxo).imp id fun ⟨e, he, hei, hea⟩ => ?_
  exact ⟨e, by rw [ha, ← hj]; exact he, hei, hea.trans hatt⟩

end Stable

/-! ## Steps of the lock holder -/

section Moves

variable {cfg : Settings} {s : Sys}

/-- Moving to another point with tasks and `_active` as they are. -/
theorem Inv.goto (h : Inv cfg s) (hrec : s.pc.recording = none) (rows : List Row) {pc : Pc}
    (hroom : s.active.length + pc.reserve ≤ cfg.maxInflight)
    (hkeys : Dict.Keys pc.pending) (hpend : ∀ it ∈ pc.pending, Dict.get? it.1 s.active = some it.2)
    (hok : pc.Ok s) : Inv cfg { s with rows := rows, pc := pc } :=
  ⟨h.keys, fun i x hx hopen => .inr ((h.tracked i x hx hopen).resolve_left (by simp [hrec])),
    hroom, hkeys, hpend, by cases pc <;> exact hok⟩

/-- The same for a point with no entries left to visit. -/
theorem Inv.gotoIdle (h : Inv cfg s) (hrec : s.pc.recording = none) (rows : List Row) {pc : Pc}
    (hroom : s.active.length + pc.reserve ≤ cfg.maxInflight) (hnil : pc.pending = [])
    (hok : pc.Ok s) : Inv cfg { s with rows := rows, pc := pc } :=
  h.goto hrec rows hroom (hnil ▸ List.nodup_nil) (hnil ▸ List.forall_mem_nil _) hok

theorem Inv.tracked_le (h : Inv cfg s) : s.active.length ≤ cfg.maxInflight :=
  (Nat.le_add_right _ _).trans h.room

/-- The lock may be released at every point but the one that records a new task. -/
theorem Inv.release (h : Inv cfg s) (hrec : s.pc.recording = none) (rows : List Row) :
    Inv cfg { s with rows := rows, pc := .free } :=
  h.gotoIdle hrec rows h.tracked_le rfl trivial

/-- A call of the store raises and frees the lock, or goes on. -/
theorem Inv.query (h : Inv cfg s) (hrec : s.pc.recording = none) {io : Io} {op : Op}
    {k : Resp → Pc} (hk : io.fault = none →
      Inv cfg { s with rows := (exec s.rows s.now op).1, pc := k (exec s.rows s.now op).2 }) :
    Inv cfg (s.query io op k) := by
  unfold Sys.query
  split
  · exact h.release hrec s.rows
  · exact h.release hrec _
  · rename_i hf
    exact hk hf

theorem Cont.reserve_next (k : Cont) : k.next.reserve ≤ k.reserve - 1 := by
  cases k with
  | submit job => simp [Cont.next, Pc.reserve]
  | poll left => cases left <;> simp [Cont.next, Cont.reserve, Pc.reserve]

theorem Cont.pending_next (k : Cont) : k.next.pending = [] := by
  cases k with
  | submit job => rfl
  | poll left => cases left <;> rfl

theorem Cont.ok_next (k : Cont) : k.next.Ok s := by
  cases k with
  | submit job => trivial
  | poll left => cases left <;> trivial

theorem Cont.recording_next (k : Cont) : k.next.recording = none := by
  cases k with
  | submit job => rfl
  | poll left => cases left <;> rfl

/-- `_enqueue` returns without a new task. -/
theorem Inv.skip (h : Inv cfg s) (hrec : s.pc.recording = none) (rows : List Row) {k : Cont}
    (hres : s.pc.reserve = k.reserve) : Inv cfg { s with rows := rows, pc := k.next } := by
  refine h.goto hrec rows ?_ (by rw [k.pending_next]; exact List.nodup_nil)
    (by rw [k.pending_next]; nofun) k.ok_next
  have h1 := h.room
  have h2 := k.reserve_next
  omega

/-- The new task is recorded: it is tracked from here on, and replaces no open one. -/
theorem Inv.record (h : Inv cfg s) {job a : Uuid} {i : ℕ} {k : Cont}
    (hpc : s.pc = .enqueueRecord job a i k) (hq : Quiescent s job) (mono : ℤ) :
    Inv cfg { s with active := Dict.set job ⟨i, a, mono⟩ s.active, pc := k.next } := by
  have hok := h.ok
  rw [hpc] at hok
  obtain ⟨x, hx, hj, ha⟩ := hok
  refine ⟨h.keys.set _ _, fun j y hy hopen => .inr ?_, ?_, by
    rw [k.pending_next]; exact List.nodup_nil, by rw [k.pending_next]; nofun, k.ok_next⟩
  · by_cases hji : j = i
    · subst hji
      obtain rfl := Option.some.inj (hx.symm.trans hy)
      exact ⟨⟨j, a, mono⟩, by simp only [hj, Dict.get?_set_self], rfl, ha.symm⟩
    · have hrec : s.pc.recording ≠ some j := by
        rw [hpc]
        simpa [Pc.recording] using Ne.symm hji
      obtain ⟨e, he, hei, hea⟩ := (h.tracked j y hy hopen).resolve_left hrec
      have hne : y.jobId ≠ job := by
        -- the entry that would be replaced belongs to a task that has ended
        intro hc
        have hended := hq e (hc ▸ he) y (hei ▸ hy)
        simp [hopen] at hended
      exact ⟨e, by rw [Dict.get?_set_of_ne hne]; exact he, hei, hea⟩
  · have h1 := h.room
    have h2 := k.reserve_next
    have h3 := Dict.length_set_le job (⟨i, a, mono⟩ : Active) s.active
    rw [hpc] at h1
    simp only [Pc.reserve] at h1
    have h4 : 1 ≤ k.reserve := by cases k <;> simp [Cont.reserve]
    simp only
    omega

/-- The task is put on the queue: only it is untracked, until it is recorded. -/
theorem Inv.put (h : Inv cfg s) {row : Row} {a : Uuid} {k : Cont} (hpc : s.pc = .enqueuePut row a k)
    (t : Task) : Inv cfg { s with made := s.made ++ [⟨t, row.jobId, a⟩],
                                  pc := .enqueueRecord row.jobId a s.made.length k } := by
  have hold : ∀ (j : ℕ) (y : Made), j ≠ s.made.length →
      (s.made ++ [⟨t, row.jobId, a⟩])[j]? = some y → s.made[j]? = some y := by
    intro j y hne hy
    rw [List.getElem?_append] at hy
    split at hy
    · exact hy
    · obtain ⟨hlt, -⟩ := List.getElem?_eq_some_iff.mp hy
      simp only [List.length_cons, List.length_nil] at hlt
      omega
  refine ⟨h.keys, fun j y hy hopen => ?_, ?_, List.nodup_nil, nofun,
    ⟨⟨t, row.jobId, a⟩, by simp, rfl, rfl⟩⟩
  · by_cases hj : j = s.made.length
    · left
      rw [hj, Pc.recording]
    · right
      have := h.tracked j y (hold j y hj hy) hopen
      rw [hpc] at this
      exact this.resolve_left (by simp [Pc.recording])
  · have := h.room
    rwa [hpc] at this

/-- A renewed entry keeps its task and attempt. -/
theorem Inv.renewed (h : Inv cfg s) {it : Item} {rest : List Item}
    (hpc : s.pc = .visitRenewed it rest) (mono : ℤ) :
    Inv cfg { s with active := Dict.set it.1 ⟨it.2.task, it.2.attemptId, mono⟩ s.active,
                     pc := .visit rest } := by
  have hpend := h.pending
  have hkeys := h.pendingKeys
  rw [hpc] at hpend hkeys
  have hit : Dict.get? it.1 s.active = some it.2 := hpend it List.mem_cons_self
  have hnd : it.1 ∉ rest.map Prod.fst ∧ (rest.map Prod.fst).Nodup := by
    simpa [Dict.Keys, Pc.pending] using hkeys
  refine ⟨h.keys.set _ _, fun i x hx hopen => .inr ?_, ?_, hnd.2, fun jt hjt => ?_, trivial⟩
  · obtain ⟨e, he, hei, hea⟩ := (h.tracked i x hx hopen).resolve_left (by simp [hpc, Pc.recording])
    by_cases hj : x.jobId = it.1
    · obtain rfl := Option.some.inj (he.symm.trans (hj ▸ hit))
      exact ⟨⟨it.2.task, it.2.attemptId, mono⟩, by simp only [hj, Dict.get?_set_self], hei, hea⟩
    · exact ⟨e, by rw [Dict.get?_set_of_ne hj]; exact he, hei, hea⟩
  · have h1 := h.room
    simp only [Dict.length_set_of_get? hit, Pc.reserve]
    omega
  · have hne : jt.1 ≠ it.1 := fun hc => hnd.1 (hc ▸ List.mem_map_of_mem hjt)
    rw [Dict.get?_set_of_ne hne]
    exact hpend jt (List.mem_cons_of_mem _ hjt)

/-- Deleting the entry of a task that has ended orphans nothing. -/
theorem Inv.del (h : Inv cfg s) {it : Item} {rest : List Item} (hpc : s.pc = .visitDel it rest) :
    Inv cfg { s with active := Dict.del it.1 s.active, pc := .visit rest } := by
  have hpend := h.pending
  have hkeys := h.pendingKeys
  have hended := h.ok
  rw [hpc] at hpend hkeys hended
  have hit : Dict.get? it.1 s.active = some it.2 := hpend it List.mem_cons_self
  have hnd : it.1 ∉ rest.map Prod.fst ∧ (rest.map Prod.fst).Nodup := by
    simpa [Dict.Keys, Pc.pending] using hkeys
  refine ⟨h.keys.del _, fun i x hx hopen => .inr ?_, ?_, hnd.2, fun jt hjt => ?_, trivial⟩
  · obtain ⟨e, he, hei, hea⟩ := (h.tracked i x hx hopen).resolve_left (by simp [hpc, Pc.recording])
    have hj : x.jobId ≠ it.1 := by
      intro hj
      -- the entry under this job is the ended task's own
      obtain rfl := Option.some.inj (he.symm.trans (hj ▸ hit))
      have := hended x (hei ▸ hx)
      simp [hopen] at this
    exact ⟨e, by rw [Dict.get?_del_of_ne hj]; exact he, hei, hea⟩
  · have h1 := h.room
    have h2 := (Dict.del_sublist it.1 s.active).length_le
    simp only [Pc.reserve]
    omega
  · have hne : jt.1 ≠ it.1 := fun hc => hnd.1 (hc ▸ List.mem_map_of_mem hjt)
    rw [Dict.get?_del_of_ne hne]
    exact hpend jt (List.mem_cons_of_mem _ hjt)

end Moves

/-! ## Claims -/

/-- An attempt is recorded only when the task recorded for its job before, if any, has ended. -/
def RecordsIdle (s : Sys) : Event → Prop
  | .advance _ => ∀ job a i k, s.pc = .enqueueRecord job a i k → Quiescent s job
  | _ => True

section Claims

variable {cfg : Settings} {s : Sys}

/-- A claim by this gateway, found or not. -/
theorem Inv.claim (h : Inv cfg s) (hrec : s.pc.recording = none) {job : Option Uuid} {io : Io}
    {k : Cont} {other : Pc} (hres : s.pc.reserve = k.reserve)
    (hother : ∀ rows, Inv cfg { s with rows := rows, pc := other }) :
    Inv cfg (s.query io (.claim job cfg.leaseSeconds io.attempt io.locked)
      fun | .row (some r) => .enqueue r io.attempt k | _ => other) := by
  refine h.query hrec fun hf => ?_
  simp only [JobStore.exec, resp]
  cases hc : candidate s.rows s.now job io.locked with
  | none => exact hother _
  | some c =>
    simp only [Option.map_some]
    refine h.gotoIdle hrec _ ?_ rfl trivial
    have := h.room
    simp only [Pc.reserve]
    omega

/-- With one slot, an attempt is recorded only when nothing is tracked. -/
theorem Inv.recordsIdle_of_one (h : Inv cfg s) (hone : cfg.maxInflight = 1) (e : Event) :
    RecordsIdle s e := by
  cases e with
  | advance io =>
    intro job a i k hpc e he
    have hroom := h.room
    have hk : 1 ≤ k.reserve := by cases k <;> simp [Cont.reserve]
    rw [hpc] at hroom
    simp only [Pc.reserve] at hroom
    have hnil : s.active = [] := List.length_eq_zero_iff.mp (by omega)
    simp [hnil, Dict.get?] at he
  | _ => trivial

end Claims

/-- **The lock holder's step.** -/
theorem advance_inv {cfg : Settings} {s t : Sys} {io : Io} (hC : RecordsIdle s (.advance io))
    (h : Inv cfg s) (hs : advance cfg s io = some t) : Inv cfg t := by
  have hroom := h.room
  have hle := h.tracked_le
  have hpend := h.pending
  have hkeys := h.pendingKeys
  have hok := h.ok
  cases hpc : s.pc with
  | free => simp [advance, hpc] at hs
  | submitGet job =>
    simp only [advance, hpc, Option.some.injEq] at hs
    subst hs
    have hrec : s.pc.recording = none := by rw [hpc]; rfl
    split
    · exact h.release hrec s.rows
    · split
      · exact h.gotoIdle hrec s.rows hle rfl trivial
      · exact h.release hrec s.rows
  | submitGate job =>
    simp only [advance, hpc, Option.some.injEq] at hs
    subst hs
    have hrec : s.pc.recording = none := by rw [hpc]; rfl
    split
    · rename_i hlt
      simp only [Bool.and_eq_true, decide_eq_true_eq] at hlt
      exact h.gotoIdle hrec s.rows hlt.1 rfl trivial
    · exact h.gotoIdle hrec s.rows hle rfl trivial
  | submitClaim job =>
    simp only [advance, hpc, Option.some.injEq] at hs
    subst hs
    have hrec : s.pc.recording = none := by rw [hpc]; rfl
    refine h.claim hrec (by rw [hpc]; rfl) fun rows => ?_
    exact h.gotoIdle hrec rows hle rfl trivial
  | submitReturn job =>
    simp only [advance, hpc, Option.some.injEq] at hs
    subst hs
    exact h.release (by rw [hpc]; rfl) s.rows
  | enqueue row a k =>
    simp only [advance, hpc, Option.some.injEq] at hs
    subst hs
    have hrec : s.pc.recording = none := by rw [hpc]; rfl
    rw [hpc] at hroom
    split
    · exact h.release hrec s.rows
    · split
      · exact h.gotoIdle hrec s.rows hroom rfl trivial
      · exact h.gotoIdle hrec s.rows hroom rfl trivial
  | enqueueReject row a k =>
    simp only [advance, hpc, Option.some.injEq] at hs
    subst hs
    have hrec : s.pc.recording = none := by rw [hpc]; rfl
    exact h.query hrec fun _ => h.skip hrec _ (by rw [hpc]; rfl)
  | enqueuePut row a k =>
    simp only [advance, hpc, Option.some.injEq] at hs
    subst hs
    have hrec : s.pc.recording = none := by rw [hpc]; rfl
    split
    · rw [hpc] at hroom
      exact h.gotoIdle hrec s.rows hroom rfl trivial
    · exact h.put hpc _
  | enqueueOverload row a k =>
    simp only [advance, hpc, Option.some.injEq] at hs
    subst hs
    have hrec : s.pc.recording = none := by rw [hpc]; rfl
    exact h.query hrec fun _ => h.skip hrec _ (by rw [hpc]; rfl)
  | enqueueRecord job a i k =>
    simp only [advance, hpc, Option.some.injEq] at hs
    subst hs
    exact h.record hpc (hC job a i k hpc) s.mono
  | pollExpire =>
    simp only [advance, hpc, Option.some.injEq] at hs
    subst hs
    have hrec : s.pc.recording = none := by rw [hpc]; rfl
    refine h.query hrec fun _ => h.goto hrec _ hle h.keys
      (fun it hit => Dict.get?_of_mem h.keys hit) trivial
  | visit rest =>
    have hrec : s.pc.recording = none := by rw [hpc]; rfl
    rw [hpc] at hpend hkeys
    cases rest with
    | nil =>
      simp only [advance, hpc, Option.some.injEq] at hs
      subst hs
      exact h.gotoIdle hrec s.rows hle rfl trivial
    | cons it rest =>
      simp only [advance, hpc, Option.some.injEq] at hs
      subst hs
      exact h.goto hrec s.rows hle hkeys hpend trivial
  | visitExpired it rest =>
    simp only [advance, hpc] at hs
    obtain ⟨x, hx, rfl⟩ := Option.map_eq_some_iff.mp hs
    have hrec : s.pc.recording = none := by rw [hpc]; rfl
    rw [hpc] at hpend hkeys
    have hgo : Inv cfg { s with pc := .visitDone it rest } :=
      h.goto hrec s.rows hle hkeys hpend trivial
    split
    · refine Inv.stable ?_ hgo (by simp [Sys.call]) rfl rfl
      exact progress_call s _ _
    · exact hgo
  | visitDone it rest =>
    simp only [advance, hpc] at hs
    obtain ⟨x, hx, rfl⟩ := Option.map_eq_some_iff.mp hs
    have hrec : s.pc.recording = none := by rw [hpc]; rfl
    rw [hpc] at hpend hkeys
    split
    · rename_i hd
      refine h.goto hrec s.rows hle hkeys hpend fun y hy => ?_
      obtain rfl := Option.some.inj (hx.symm.trans hy)
      simp [Task.terminal, hd, TaskStatus.terminal]
    · exact h.goto hrec s.rows hle hkeys hpend trivial
  | visitComplete it rest =>
    simp only [advance, hpc] at hs
    obtain ⟨x, hx, rfl⟩ := Option.map_eq_some_iff.mp hs
    have hrec : s.pc.recording = none := by rw [hpc]; rfl
    rw [hpc] at hpend hkeys hok
    exact h.query hrec fun _ => h.goto hrec _ hle hkeys hpend hok
  | visitFailed it rest =>
    simp only [advance, hpc] at hs
    obtain ⟨x, hx, rfl⟩ := Option.map_eq_some_iff.mp hs
    have hrec : s.pc.recording = none := by rw [hpc]; rfl
    rw [hpc] at hpend hkeys
    split
    · rename_i hd
      refine h.goto hrec s.rows hle hkeys hpend fun y hy => ?_
      obtain rfl := Option.some.inj (hx.symm.trans hy)
      simp [Task.terminal, hd, TaskStatus.terminal]
    · exact h.goto hrec s.rows hle hkeys hpend trivial
  | visitReport it rest =>
    simp only [advance, hpc] at hs
    obtain ⟨x, hx, rfl⟩ := Option.map_eq_some_iff.mp hs
    have hrec : s.pc.recording = none := by rw [hpc]; rfl
    rw [hpc] at hpend hkeys hok
    exact h.query hrec fun _ => h.goto hrec _ hle hkeys hpend hok
  | visitDel it rest =>
    simp only [advance, hpc, Option.some.injEq] at hs
    subst hs
    exact h.del hpc
  | visitAge it rest =>
    simp only [advance, hpc, Option.some.injEq] at hs
    subst hs
    have hrec : s.pc.recording = none := by rw [hpc]; rfl
    rw [hpc] at hpend hkeys
    split
    · exact h.goto hrec s.rows hle hkeys hpend trivial
    · exact h.goto hrec s.rows hle hkeys.of_cons
        (fun jt hjt => hpend jt (List.mem_cons_of_mem _ hjt)) trivial
  | visitRenew it rest =>
    simp only [advance, hpc, Option.some.injEq] at hs
    subst hs
    have hrec : s.pc.recording = none := by rw [hpc]; rfl
    rw [hpc] at hpend hkeys
    refine h.query hrec fun _ => ?_
    split
    · exact h.goto hrec _ hle hkeys hpend trivial
    · exact h.goto hrec _ hle hkeys hpend trivial
  | visitRenewed it rest =>
    simp only [advance, hpc, Option.some.injEq] at hs
    subst hs
    exact h.renewed hpc s.mono
  | visitLost it rest =>
    simp only [advance, hpc, Option.some.injEq] at hs
    subst hs
    have hrec : s.pc.recording = none := by rw [hpc]; rfl
    have hst := h.stable (progress_call s it.2.task
      (.markFailed "execution lease lost" (some "lease_lost"))) (by simp [Sys.call]) rfl rfl
    rw [hpc] at hpend hkeys
    refine hst.goto hrec s.rows (by simp only [Pc.reserve, Sys.call]; omega) hkeys hpend ?_
    intro y hy
    simp only [Sys.call, List.getElem?_modify_eq] at hy
    obtain ⟨x, -, rfl⟩ := Option.map_eq_some_iff.mp hy
    exact Task.markFailed_terminal x.task s.wall _ _
  | fill =>
    simp only [advance, hpc, Option.some.injEq] at hs
    subst hs
    have hrec : s.pc.recording = none := by rw [hpc]; rfl
    refine h.goto hrec s.rows ?_ (by rw [Cont.pending_next]; exact List.nodup_nil)
      (by rw [Cont.pending_next]; exact List.forall_mem_nil _) (Cont.ok_next _)
    have := Cont.reserve_next (.poll (cfg.maxInflight - s.active.length))
    simp only [Cont.reserve] at this
    omega
  | pollClaim left =>
    simp only [advance, hpc, Option.some.injEq] at hs
    subst hs
    have hrec : s.pc.recording = none := by rw [hpc]; rfl
    exact h.claim hrec (by rw [hpc]; rfl) fun rows => h.release hrec rows

/-- **Step lemma.** -/
theorem step_inv {cfg : Settings} {s t : Sys} {e : Event} (hC : RecordsIdle s e) (h : Inv cfg s)
    (hs : step cfg s e = some t) : Inv cfg t := by
  cases e with
  | tick _ _ _ | foreign _ | insert _ | stop =>
    obtain rfl := Option.some.inj hs
    refine Inv.stable ?_ h rfl rfl rfl
    exact .refl _
  | task i m =>
    obtain rfl := Option.some.inj hs
    exact h.stable (progress_call s i m) (by simp [Sys.call]) rfl rfl
  | submit _ | poll =>
    simp only [step] at hs
    split at hs
    · rename_i hpc
      obtain rfl := Option.some.inj hs
      have hroom := h.room
      exact h.goto (by rw [hpc]; rfl) s.rows (by simp only [Pc.reserve]; omega) List.nodup_nil
        nofun trivial
    · simp at hs
  | advance io => exact advance_inv hC h hs

/-! ## No orphaned attempt -/

/-- Distinct open tasks are tracked under distinct jobs, so there are no more of them than
entries. -/
theorem openTasks_le {s : Sys} (howned : Owned s) :
    (openTasks s).length ≤ s.active.length := by
  have hinj : ∀ (i j : ℕ) (x y : Made), s.made[i]? = some x → s.made[j]? = some y →
      x.task.terminal = false → y.task.terminal = false → x.jobId = y.jobId → i = j := by
    intro i j x y hx hy hxo hyo hj
    obtain ⟨e, he, hei, -⟩ := howned i x hx hxo
    obtain ⟨f, hf, hfj, -⟩ := howned j y hy hyo
    rw [hj] at he
    obtain rfl := Option.some.inj (he.symm.trans hf)
    exact hei.symm.trans hfj
  have hnd : ((openTasks s).map Made.jobId).Nodup := by
    rw [List.Nodup, List.pairwise_map, openTasks, List.pairwise_filter]
    refine List.pairwise_iff_getElem.mpr fun i j hi hj hlt hxo hyo heq => ?_
    have := hinj i j _ _ (List.getElem?_eq_getElem hi) (List.getElem?_eq_getElem hj)
      (by simpa using hxo) (by simpa using hyo) heq
    omega
  have hle := Dict.length_le_of_get? (d := s.active) hnd (fun job hjob => by
    obtain ⟨x, hx, rfl⟩ := List.mem_map.mp hjob
    obtain ⟨hm, hopen⟩ := List.mem_filter.mp hx
    obtain ⟨i, hi⟩ := List.getElem?_of_mem hm
    obtain ⟨e, he, -⟩ := howned i x hi (by simpa using hopen)
    exact ⟨e, he⟩)
  simpa using hle

theorem Inv.owned {cfg : Settings} {s : Sys} (h : Inv cfg s) (hfree : s.pc = .free) : Owned s :=
  fun i x hx hopen => (h.tracked i x hx hopen).resolve_left (by simp [hfree, Pc.recording])

/-- **No orphaned attempt.**  In every run in which a recorded attempt never replaces a task that
is still open, and in every run when `max_inflight` is one: whenever the lock is free, each
non-terminal task the gateway queued is the one `_active` records for its job with its own
attempt, and there are at most `max_inflight` of them. -/
theorem no_orphan {cfg : Settings} {s₀ s : Sys} {es : List Event} (h₀ : Init s₀)
    (hC : cfg.maxInflight = 1 ∨ Meets (step cfg) RecordsIdle s₀ es)
    (h : Lib.exec (step cfg) s₀ es = some s) (hfree : s.pc = .free) :
    Owned s ∧ (openTasks s).length ≤ cfg.maxInflight := by
  have hinv : Inv cfg s := by
    rcases hC with hone | hmeets
    · exact exec_inv (fun u e v hu huv => step_inv (hu.recordsIdle_of_one hone e) hu huv)
        (inv_init h₀) h
    · exact exec_inv_meets (fun u e v hc hu huv => step_inv hc hu huv) hmeets (inv_init h₀) h
  have howned := hinv.owned hfree
  have hroom := hinv.room
  have hle := openTasks_le howned
  exact ⟨howned, by omega⟩

/-- A gateway that keeps two jobs in flight. -/
def twoSlots : Settings where
  leaseSeconds := 120
  renewInterval := 30
  retrySeconds := 5
  maxInflight := 2
  fingerprint := fun _ => some "f"

def reclaimRow : Row where
  jobId := 7
  projectId := "p"
  userId := "u"
  model := "v7_3_full"
  spec := .null
  specSha256 := "f"
  status := .queued
  attemptId := none
  attempts := 0
  leaseUntil := none
  nextAttemptAt := 0
  deadlineAt := 1000
  result := none
  error := none
  snapshotId := none
  createdAt := 0
  updatedAt := 0

def reclaimStart : Sys where
  rows := [reclaimRow]
  made := []
  active := []
  pc := .free
  stop := false
  now := 0
  mono := 0
  wall := 0

/-- `submit` of the job by the thread that holds the lock, start to end. -/
def submitSteps (attempt : Uuid) : List Event :=
  .submit 7 :: List.replicate 7 (.advance { attempt := attempt })

/-- The job is submitted, its lease lapses unrenewed, and it is submitted again. -/
def reclaimRun : List Event := submitSteps 501 ++ .tick 200 200 200 :: submitSteps 502

/-- The first attempt's task is still open, and `_active` no longer knows it. -/
theorem reclaimRun_orphans : Init reclaimStart ∧
    ∃ s, Lib.exec (step twoSlots) reclaimStart reclaimRun = some s ∧ s.pc = .free ∧ ¬ Owned s := by
  refine ⟨⟨rfl, rfl, rfl⟩, ?_⟩
  have hview : (Lib.exec (step twoSlots) reclaimStart reclaimRun).map (fun s =>
      (s.pc, s.active, (s.made.map Made.jobId)[0]?, s.made.map fun x => x.task.terminal)) =
      some (.free, [(7, ⟨1, 502, 200⟩)], some 7, [false, false]) := by
    decide +kernel
  obtain ⟨s, hs, hv⟩ := Option.map_eq_some_iff.mp hview
  simp only [Prod.mk.injEq] at hv
  obtain ⟨hpc, hactive, hjob, hterm⟩ := hv
  refine ⟨s, hs, hpc, fun howned => ?_⟩
  rw [List.getElem?_map, Option.map_eq_some_iff] at hjob
  obtain ⟨x, hx, hxj⟩ := hjob
  have hopen : x.task.terminal = false := by
    have := congrArg (fun l => l[0]?) hterm
    simpa [hx] using this
  obtain ⟨e, he, hei, -⟩ := howned 0 x hx hopen
  rw [hactive, hxj] at he
  simp only [Dict.get?, if_true, Option.some.injEq] at he
  simp [← he] at hei

theorem no_orphan_oneSlot : ∃ s, Lib.exec (step { twoSlots with maxInflight := 1 }) reclaimStart
    (submitSteps 501) = some s ∧ (openTasks s).length = 1 ∧ Owned s := by
  have hview : (Lib.exec (step { twoSlots with maxInflight := 1 }) reclaimStart
      (submitSteps 501)).map (fun s => (s.pc, (openTasks s).length)) = some (.free, 1) := by
    decide +kernel
  obtain ⟨s, hs, hv⟩ := Option.map_eq_some_iff.mp hview
  simp only [Prod.mk.injEq] at hv
  exact ⟨s, hs, hv.2, (no_orphan ⟨rfl, rfl, rfl⟩ (.inl rfl) hs hv.1).1⟩

end Inference.JobGateway
