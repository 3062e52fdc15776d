import Inference.Task
import Inference.Lib.Run

/-!
# Inference.Pool.Process — `GrpcWorker._process` of `system/grpc_worker_pool.py`

The dispatch thread of one proxy takes a batch through filtering, the stub call, reconciliation and
the exception handlers.  `Pc` is a program point of `_process` with its local variables, `next` the
statement there: what it reads is a `View`, what the stub and the retry handler answer an `Io`, and
it calls at most one method of one task.  Between two statements anybody may change the tasks, stop
the proxy or let time pass.

* `Pc.held`: the tasks the call still answers for.
* `next_moves`: every case of `next` with the condition it found.
* `Moves.settles`: a statement drops a task only when it has ended or another proxy has accepted it,
  the sweep for omitted results excepted.
* `Moves.measure`: every statement brings the call closer to its return.
-/

namespace Inference.Pool

open Inference.Lib

/-- `grpc.StatusCode`. -/
inductive StatusCode where
  | ok | cancelled | unknown | invalidArgument | deadlineExceeded | notFound | alreadyExists
  | permissionDenied | resourceExhausted | failedPrecondition | aborted | outOfRange
  | unimplemented | internal | unavailable | dataLoss | unauthenticated
deriving DecidableEq, Repr

/-- `inference_pb2.TaskResult`. -/
structure TaskResult where
  taskId : String
  success : Bool
  resultJson : String := ""
  error : String := ""
  errorCode : String := ""
deriving DecidableEq, Repr

/-- An exception other than `RpcError`: `isinstance(exc, ValueError)` and `str(exc)`. -/
structure Exc where
  isValueError : Bool
  text : String
deriving DecidableEq, Repr

/-- How the call of `ProcessBatch` ends. -/
inductive Outcome where
  | response (results : List TaskResult)
  | rpcError (code : StatusCode) (text : String)
  | raised (e : Exc)
deriving DecidableEq, Repr

/-- The kinds that are never handed to another worker. -/
def durableKinds : List String := ["synthx_v73", "synthx_text_v123", "synthx_text_refinement"]

/-- `isinstance(task.input_data, dict) and task.input_data.get("kind") in (…)`. -/
def durable (t : Task) : Bool :=
  match t.inputData.get? "kind" with
  | some (.str k) => durableKinds.contains k
  | _ => false

/-- The `retry_allowed` argument of `_finish_or_retry`, evaluated anew for every task. -/
inductive Allow where
  /-- `self._retry_on_stop` -/
  | removed
  /-- the local variable `retry_allowed` -/
  | fixed (b : Bool)
  /-- `self._stop.is_set() and self._retry_on_stop and isinstance(exc, ValueError)` -/
  | locally (isValueError : Bool)
deriving DecidableEq, Repr

/-- Program points of `_process`; tasks are named by their index. -/
inductive Pc where
  /-- `if task.status in (DONE, FAILED)` in the first loop -/
  | filter (rest acc : List ℕ)
  /-- `if task.is_expired()` in the first loop -/
  | filterExpired (i : ℕ) (rest acc : List ℕ)
  /-- `if not active_batch`, then `if self._stop.is_set()` -/
  | checkStop (batch : List ℕ)
  /-- `task.mark_processing()` -/
  | marking (rest batch : List ℕ)
  /-- `remaining_time = task.remaining_seconds()` -/
  | building (rest batch : List ℕ) (times : List ℤ)
  /-- `if rpc_timeout <= 0` -/
  | timeout (batch : List ℕ) (times : List ℤ)
  /-- `task.mark_failed("request deadline exceeded", …)` for every task -/
  | expireAll (rest : List ℕ)
  /-- `self._stub.ProcessBatch(…)` is called -/
  | call (batch : List ℕ)
  /-- and has not returned -/
  | inflight (batch : List ℕ)
  /-- `for result in response.results` -/
  | reconcile (results : List TaskResult) (batch : List ℕ)
  /-- the loop over the batch that fails omitted results -/
  | sweep (rest : List ℕ)
  /-- `retiring = …` -/
  | rpcError (code : StatusCode) (text : String) (batch : List ℕ)
  /-- `retry_allowed = …` -/
  | rpcRetiring (code : StatusCode) (text : String) (retiring : Bool) (batch : List ℕ)
  /-- the next call of `_finish_or_retry` -/
  | finish (rest : List ℕ) (text : String) (allow : Allow)
  /-- `if task.status in (DONE, FAILED)` -/
  | finishStatus (i : ℕ) (allowed : Bool) (rest : List ℕ) (text : String) (allow : Allow)
  /-- the deadline, then the kind, then `if retry_allowed` -/
  | finishExpired (i : ℕ) (allowed : Bool) (rest : List ℕ) (text : String) (allow : Allow)
  /-- `self._retry_handler(task, self.worker_id)` -/
  | handler (i : ℕ) (rest : List ℕ) (text : String) (allow : Allow)
  /-- `task.mark_failed(…)` -/
  | finishFail (i : ℕ) (error : String) (code : Option String) (rest : List ℕ) (text : String)
      (allow : Allow)
  | returned
deriving DecidableEq, Repr

/-- What a statement can read. -/
structure View where
  tasks : ℕ → Task
  stop : Bool
  retryOnStop : Bool
  mono : ℤ

/-- What the stub and the retry handler answer; a handler that raises answers `none`. -/
structure Io where
  outcome : Outcome := .response []
  handler : Option Bool := some false
deriving DecidableEq, Repr

/-- `task_map.get(task_id)`: the last task of the batch with that ID. -/
def taskMap (tasks : ℕ → Task) (batch : List ℕ) (id : String) : Option ℕ :=
  batch.reverse.find? fun i => (tasks i).taskId == id

/-- `max(remaining_times) if remaining_times else 35.0`. -/
def rpcTimeout (times : List ℤ) : ℤ := times.max?.getD 35

def Allow.eval (v : View) : Allow → Bool
  | .removed => v.retryOnStop
  | .fixed b => b
  | .locally isValueError => v.stop && v.retryOnStop && isValueError

def deadlineText : String := "request deadline exceeded"

/-- `result.error_code or None`. -/
def orNone (s : String) : Option String := if s = "" then none else some s

/-- One statement: the method it calls, if any, and the point after it.  `loads` is `json.loads`. -/
def next (loads : String → Except Exc Json) (v : View) (io : Io) :
    Pc → Option (Option (ℕ × Task.Method) × Pc)
  | .filter [] acc => some (none, .checkStop acc)
  | .filter (i :: rest) acc =>
    some (none, if (v.tasks i).terminal then .filter rest acc else .filterExpired i rest acc)
  | .filterExpired i rest acc =>
    if (v.tasks i).isExpired v.mono
    then some (some (i, .markFailed deadlineText (some "deadline_exceeded")), .filter rest acc)
    else some (none, .filter rest (acc ++ [i]))
  | .checkStop batch =>
    some (none, if batch.isEmpty then .returned
      else if v.stop then .finish batch "worker removed" .removed else .marking batch batch)
  | .marking [] batch => some (none, .building batch batch [])
  | .marking (i :: rest) batch => some (some (i, .markProcessing), .marking rest batch)
  | .building [] batch times => some (none, .timeout batch times)
  | .building (i :: rest) batch times =>
    some (none, .building rest batch (times ++ ((v.tasks i).remainingSeconds v.mono).toList))
  | .timeout batch times =>
    some (none, if rpcTimeout times ≤ 0 then .expireAll batch else .call batch)
  | .expireAll [] => some (none, .returned)
  | .expireAll (i :: rest) =>
    some (some (i, .markFailed deadlineText (some "deadline_exceeded")), .expireAll rest)
  | .call batch => some (none, .inflight batch)
  | .inflight batch => some (none, match io.outcome with
      | .response results => .reconcile results batch
      | .rpcError code text => .rpcError code text batch
      | .raised e => .finish batch e.text (.locally e.isValueError))
  | .reconcile [] batch => some (none, .sweep batch)
  | .reconcile (r :: rs) batch =>
    match taskMap v.tasks batch r.taskId with
    | none => some (none, .reconcile rs batch)
    | some i =>
      if r.success then
        match loads r.resultJson with
        | .ok value => some (some (i, .markDone value), .reconcile rs batch)
        | .error e => some (none, .finish batch e.text (.locally e.isValueError))
      else some (some (i, .markFailed r.error (orNone r.errorCode)), .reconcile rs batch)
  | .sweep [] => some (none, .returned)
  | .sweep (i :: rest) =>
    if durable (v.tasks i) && !(v.tasks i).terminal
    then some (some (i, .markFailed "worker omitted task result" (some "transport_error")),
      .sweep rest)
    else some (none, .sweep rest)
  | .rpcError code text batch =>
    some (none, if code = .deadlineExceeded then .expireAll batch
      else .rpcRetiring code text (v.stop && v.retryOnStop) batch)
  | .rpcRetiring code text retiring batch =>
    some (none, .finish batch text (.fixed ((code == .unavailable && (!v.stop || retiring)) ||
      (code == .cancelled && retiring))))
  | .finish [] _ _ => some (none, .returned)
  | .finish (i :: rest) text allow => some (none, .finishStatus i (allow.eval v) rest text allow)
  | .finishStatus i allowed rest text allow =>
    some (none, if (v.tasks i).terminal then .finish rest text allow
      else .finishExpired i allowed rest text allow)
  | .finishExpired i allowed rest text allow =>
    some (none, if (v.tasks i).isExpired v.mono
      then .finishFail i deadlineText (some "deadline_exceeded") rest text allow
      else if durable (v.tasks i) then .finishFail i text (some "transport_error") rest text allow
      else if allowed then .handler i rest text allow
      else .finishFail i text none rest text allow)
  | .handler i rest text allow =>
    some (none, if io.handler = some true then .finish rest text allow
      else .finishFail i text none rest text allow)
  | .finishFail i error code rest text allow =>
    some (some (i, .markFailed error code), .finish rest text allow)
  | .returned => none

/-- The tasks the call still answers for. -/
def Pc.held : Pc → List ℕ
  | .filter rest acc => acc ++ rest
  | .filterExpired i rest acc => acc ++ i :: rest
  | .checkStop batch | .marking _ batch | .building _ batch _ | .timeout batch _ | .call batch
  | .inflight batch | .reconcile _ batch | .rpcError _ _ batch | .rpcRetiring _ _ _ batch => batch
  | .expireAll rest | .sweep rest | .finish rest _ _ => rest
  | .finishStatus i _ rest _ _ | .finishExpired i _ rest _ _ | .handler i rest _ _
  | .finishFail i _ _ rest _ _ => i :: rest
  | .returned => []

/-- The tasks after a statement. -/
def applyCall (tasks : ℕ → Task) (mono wall : ℤ) : Option (ℕ × Task.Method) → ℕ → Task
  | none => tasks
  | some (i, m) => Function.update tasks i ((tasks i).call m mono wall)

theorem applyCall_evolves (tasks : ℕ → Task) (mono wall : ℤ) (c : Option (ℕ × Task.Method))
    (i : ℕ) : Task.Evolves (tasks i) (applyCall tasks mono wall c i) := by
  cases c with
  | none => exact .refl _
  | some p =>
    obtain ⟨k, m⟩ := p
    by_cases h : i = k
    · subst h
      simp only [applyCall, Function.update_self]
      exact Task.call_evolves _ _ _ _
    · simp only [applyCall, Function.update_of_ne h]
      exact .refl _

/-- The task another proxy accepts in this statement. -/
def handed (io : Io) : Pc → List ℕ
  | .handler i _ _ _ => if io.handler = some true then [i] else []
  | _ => []

/-- A bound on the statements to come when the response has at most `n` entries. -/
def Pc.measure (n : ℕ) : Pc → ℕ
  | .filter rest acc => 2 * rest.length + 7 * (acc.length + rest.length) + n + 10
  | .filterExpired _ rest acc => 2 * rest.length + 7 * (acc.length + rest.length + 1) + n + 11
  | .checkStop batch => 7 * batch.length + n + 9
  | .marking rest batch => rest.length + 6 * batch.length + n + 8
  | .building rest batch _ => rest.length + 5 * batch.length + n + 7
  | .timeout batch _ => 5 * batch.length + n + 6
  | .expireAll rest | .sweep rest => rest.length + 1
  | .call batch => 5 * batch.length + n + 5
  | .inflight batch => 5 * batch.length + n + 4
  | .reconcile results batch => results.length + 5 * batch.length + 2
  | .rpcError _ _ batch => 5 * batch.length + 3
  | .rpcRetiring _ _ _ batch => 5 * batch.length + 2
  | .finish rest _ _ => 5 * rest.length + 1
  | .finishStatus _ _ rest _ _ => 5 * rest.length + 5
  | .finishExpired _ _ rest _ _ => 5 * rest.length + 4
  | .handler _ rest _ _ => 5 * rest.length + 3
  | .finishFail _ _ _ rest _ _ => 5 * rest.length + 2
  | .returned => 0

/-! ## The map of the batch -/

section TaskMap

variable {tasks : ℕ → Task} {batch : List ℕ} {id : String}

theorem taskMap_some {i : ℕ} (h : taskMap tasks batch id = some i) :
    i ∈ batch ∧ (tasks i).taskId = id :=
  ⟨by simpa using List.mem_of_find?_eq_some h, by simpa using List.find?_some h⟩

theorem taskMap_none (h : taskMap tasks batch id = none) : ∀ i ∈ batch, (tasks i).taskId ≠ id := by
  intro i hi
  have := List.find?_eq_none.mp h i (by simpa using hi)
  simpa using this

end TaskMap

/-! ## One statement -/

/-- What one statement can do, with the condition it found. -/
inductive Moves (loads : String → Except Exc Json) (v : View) (io : Io) :
    Pc → Option (ℕ × Task.Method) → Pc → Prop
  | filterNil (acc : List ℕ) : Moves loads v io (.filter [] acc) none (.checkStop acc)
  | filterEnded {i : ℕ} (rest acc : List ℕ) (h : (v.tasks i).terminal = true) :
    Moves loads v io (.filter (i :: rest) acc) none (.filter rest acc)
  | filterOpen {i : ℕ} (rest acc : List ℕ) (h : (v.tasks i).terminal = false) :
    Moves loads v io (.filter (i :: rest) acc) none (.filterExpired i rest acc)
  | filterLate {i : ℕ} (rest acc : List ℕ) (h : (v.tasks i).isExpired v.mono = true) :
    Moves loads v io (.filterExpired i rest acc)
      (some (i, .markFailed deadlineText (some "deadline_exceeded"))) (.filter rest acc)
  | filterLive {i : ℕ} (rest acc : List ℕ) (h : (v.tasks i).isExpired v.mono = false) :
    Moves loads v io (.filterExpired i rest acc) none (.filter rest (acc ++ [i]))
  | checkEmpty : Moves loads v io (.checkStop []) none .returned
  | checkStopped {batch : List ℕ} (hne : batch ≠ []) (h : v.stop = true) :
    Moves loads v io (.checkStop batch) none (.finish batch "worker removed" .removed)
  | checkLive {batch : List ℕ} (hne : batch ≠ []) (h : v.stop = false) :
    Moves loads v io (.checkStop batch) none (.marking batch batch)
  | markNil (batch : List ℕ) : Moves loads v io (.marking [] batch) none (.building batch batch [])
  | mark (i : ℕ) (rest batch : List ℕ) :
    Moves loads v io (.marking (i :: rest) batch) (some (i, .markProcessing)) (.marking rest batch)
  | buildNil (batch : List ℕ) (times : List ℤ) :
    Moves loads v io (.building [] batch times) none (.timeout batch times)
  | build (i : ℕ) (rest batch : List ℕ) (times : List ℤ) :
    Moves loads v io (.building (i :: rest) batch times) none
      (.building rest batch (times ++ ((v.tasks i).remainingSeconds v.mono).toList))
  | timeoutLate (batch : List ℕ) {times : List ℤ} (h : rpcTimeout times ≤ 0) :
    Moves loads v io (.timeout batch times) none (.expireAll batch)
  | timeoutLive (batch : List ℕ) {times : List ℤ} (h : 0 < rpcTimeout times) :
    Moves loads v io (.timeout batch times) none (.call batch)
  | expireNil : Moves loads v io (.expireAll []) none .returned
  | expire (i : ℕ) (rest : List ℕ) : Moves loads v io (.expireAll (i :: rest))
      (some (i, .markFailed deadlineText (some "deadline_exceeded"))) (.expireAll rest)
  | call (batch : List ℕ) : Moves loads v io (.call batch) none (.inflight batch)
  | response (batch : List ℕ) {results : List TaskResult} (h : io.outcome = .response results) :
    Moves loads v io (.inflight batch) none (.reconcile results batch)
  | rpcError (batch : List ℕ) {code : StatusCode} {text : String}
      (h : io.outcome = .rpcError code text) :
    Moves loads v io (.inflight batch) none (.rpcError code text batch)
  | raised (batch : List ℕ) {e : Exc} (h : io.outcome = .raised e) :
    Moves loads v io (.inflight batch) none (.finish batch e.text (.locally e.isValueError))
  | reconcileNil (batch : List ℕ) : Moves loads v io (.reconcile [] batch) none (.sweep batch)
  | unknown {r : TaskResult} (rs : List TaskResult) {batch : List ℕ}
      (h : taskMap v.tasks batch r.taskId = none) :
    Moves loads v io (.reconcile (r :: rs) batch) none (.reconcile rs batch)
  | decoded {r : TaskResult} (rs : List TaskResult) {batch : List ℕ} {i : ℕ} {value : Json}
      (h : taskMap v.tasks batch r.taskId = some i) (hs : r.success = true)
      (hl : loads r.resultJson = .ok value) :
    Moves loads v io (.reconcile (r :: rs) batch) (some (i, .markDone value)) (.reconcile rs batch)
  | undecodable {r : TaskResult} (rs : List TaskResult) {batch : List ℕ} {i : ℕ} {e : Exc}
      (h : taskMap v.tasks batch r.taskId = some i) (hs : r.success = true)
      (hl : loads r.resultJson = .error e) :
    Moves loads v io (.reconcile (r :: rs) batch) none
      (.finish batch e.text (.locally e.isValueError))
  | unsuccessful {r : TaskResult} (rs : List TaskResult) {batch : List ℕ} {i : ℕ}
      (h : taskMap v.tasks batch r.taskId = some i) (hs : r.success = false) :
    Moves loads v io (.reconcile (r :: rs) batch)
      (some (i, .markFailed r.error (orNone r.errorCode))) (.reconcile rs batch)
  | sweepNil : Moves loads v io (.sweep []) none .returned
  | omitted {i : ℕ} (rest : List ℕ) (hd : durable (v.tasks i) = true)
      (h : (v.tasks i).terminal = false) :
    Moves loads v io (.sweep (i :: rest))
      (some (i, .markFailed "worker omitted task result" (some "transport_error"))) (.sweep rest)
  | sweepSkip {i : ℕ} (rest : List ℕ)
      (h : durable (v.tasks i) = false ∨ (v.tasks i).terminal = true) :
    Moves loads v io (.sweep (i :: rest)) none (.sweep rest)
  | rpcDeadline (text : String) (batch : List ℕ) :
    Moves loads v io (.rpcError .deadlineExceeded text batch) none (.expireAll batch)
  | rpcRetiring {code : StatusCode} (text : String) (batch : List ℕ) (h : code ≠ .deadlineExceeded) :
    Moves loads v io (.rpcError code text batch) none
      (.rpcRetiring code text (v.stop && v.retryOnStop) batch)
  | rpcAllowed (code : StatusCode) (text : String) (retiring : Bool) (batch : List ℕ) :
    Moves loads v io (.rpcRetiring code text retiring batch) none
      (.finish batch text (.fixed ((code == .unavailable && (!v.stop || retiring)) ||
        (code == .cancelled && retiring))))
  | finishNil (text : String) (allow : Allow) :
    Moves loads v io (.finish [] text allow) none .returned
  | finish (i : ℕ) (rest : List ℕ) (text : String) (allow : Allow) :
    Moves loads v io (.finish (i :: rest) text allow) none
      (.finishStatus i (allow.eval v) rest text allow)
  | finishEnded {i : ℕ} (allowed : Bool) (rest : List ℕ) (text : String) (allow : Allow)
      (h : (v.tasks i).terminal = true) :
    Moves loads v io (.finishStatus i allowed rest text allow) none (.finish rest text allow)
  | finishOpen {i : ℕ} (allowed : Bool) (rest : List ℕ) (text : String) (allow : Allow)
      (h : (v.tasks i).terminal = false) :
    Moves loads v io (.finishStatus i allowed rest text allow) none
      (.finishExpired i allowed rest text allow)
  | late {i : ℕ} (allowed : Bool) (rest : List ℕ) (text : String) (allow : Allow)
      (h : (v.tasks i).isExpired v.mono = true) :
    Moves loads v io (.finishExpired i allowed rest text allow) none
      (.finishFail i deadlineText (some "deadline_exceeded") rest text allow)
  | kept {i : ℕ} (allowed : Bool) (rest : List ℕ) (text : String) (allow : Allow)
      (h : (v.tasks i).isExpired v.mono = false) (hd : durable (v.tasks i) = true) :
    Moves loads v io (.finishExpired i allowed rest text allow) none
      (.finishFail i text (some "transport_error") rest text allow)
  | retry {i : ℕ} (rest : List ℕ) (text : String) (allow : Allow)
      (h : (v.tasks i).isExpired v.mono = false) (hd : durable (v.tasks i) = false) :
    Moves loads v io (.finishExpired i true rest text allow) none (.handler i rest text allow)
  | noRetry {i : ℕ} (rest : List ℕ) (text : String) (allow : Allow)
      (h : (v.tasks i).isExpired v.mono = false) (hd : durable (v.tasks i) = false) :
    Moves loads v io (.finishExpired i false rest text allow) none
      (.finishFail i text none rest text allow)
  | accepted (i : ℕ) (rest : List ℕ) (text : String) (allow : Allow) (h : io.handler = some true) :
    Moves loads v io (.handler i rest text allow) none (.finish rest text allow)
  | refused (i : ℕ) (rest : List ℕ) (text : String) (allow : Allow) (h : io.handler ≠ some true) :
    Moves loads v io (.handler i rest text allow) none (.finishFail i text none rest text allow)
  | fail (i : ℕ) (error : String) (code : Option String) (rest : List ℕ) (text : String)
      (allow : Allow) : Moves loads v io (.finishFail i error code rest text allow)
      (some (i, .markFailed error code)) (.finish rest text allow)

section Next

variable {loads : String → Except Exc Json} {v : View} {io : Io} {pc pc' : Pc}
  {c : Option (ℕ × Task.Method)}

/-- Only `return` ends the call. -/
theorem next_isSome (loads : String → Except Exc Json) (v : View) (io : Io)
    (hpc : pc ≠ .returned) : ∃ c pc', next loads v io pc = some (c, pc') := by
  cases pc with
  | returned => exact absurd rfl hpc
  | filter rest acc => cases rest <;> exact ⟨_, _, rfl⟩
  | filterExpired i rest acc => simp only [next]; split <;> exact ⟨_, _, rfl⟩
  | marking rest batch => cases rest <;> exact ⟨_, _, rfl⟩
  | building rest batch times => cases rest <;> exact ⟨_, _, rfl⟩
  | expireAll rest => cases rest <;> exact ⟨_, _, rfl⟩
  | reconcile results batch =>
    cases results with
    | nil => exact ⟨_, _, rfl⟩
    | cons r rs =>
      simp only [next]
      split
      · exact ⟨_, _, rfl⟩
      · split
        · split <;> exact ⟨_, _, rfl⟩
        · exact ⟨_, _, rfl⟩
  | sweep rest =>
    cases rest with
    | nil => exact ⟨_, _, rfl⟩
    | cons i rest => simp only [next]; split <;> exact ⟨_, _, rfl⟩
  | finish rest text allow => cases rest <;> exact ⟨_, _, rfl⟩
  | _ => exact ⟨_, _, rfl⟩

/-- **Inversion.**  `next` makes the moves of the list and no others. -/
theorem next_moves (h : next loads v io pc = some (c, pc')) : Moves loads v io pc c pc' := by
  cases pc with
  | returned => simp [next] at h
  | filter rest acc =>
    cases rest with
    | nil =>
      obtain ⟨rfl, rfl⟩ := by simpa [next] using h
      exact .filterNil acc
    | cons i rest =>
      simp only [next, Option.some.injEq, Prod.mk.injEq] at h
      obtain ⟨rfl, rfl⟩ := h
      split
      · rename_i ht
        exact .filterEnded rest acc ht
      · rename_i ht
        exact .filterOpen rest acc (by simpa using ht)
  | filterExpired i rest acc =>
    simp only [next] at h
    split at h <;> simp only [Option.some.injEq, Prod.mk.injEq] at h <;> obtain ⟨rfl, rfl⟩ := h
    · rename_i ht
      exact .filterLate rest acc ht
    · rename_i ht
      exact .filterLive rest acc (by simpa using ht)
  | checkStop batch =>
    simp only [next, Option.some.injEq, Prod.mk.injEq] at h
    obtain ⟨rfl, rfl⟩ := h
    cases batch with
    | nil => exact .checkEmpty
    | cons i rest =>
      cases hstop : v.stop with
      | true => exact .checkStopped (by simp) hstop
      | false => exact .checkLive (by simp) hstop
  | marking rest batch =>
    cases rest with
    | nil =>
      obtain ⟨rfl, rfl⟩ := by simpa [next] using h
      exact .markNil batch
    | cons i rest =>
      obtain ⟨rfl, rfl⟩ := by simpa [next] using h
      exact .mark i rest batch
  | building rest batch times =>
    cases rest with
    | nil =>
      obtain ⟨rfl, rfl⟩ := by simpa [next] using h
      exact .buildNil batch times
    | cons i rest =>
      obtain ⟨rfl, rfl⟩ := by simpa [next] using h
      exact .build i rest batch times
  | timeout batch times =>
    simp only [next, Option.some.injEq, Prod.mk.injEq] at h
    obtain ⟨rfl, rfl⟩ := h
    split
    · rename_i ht
      exact .timeoutLate batch ht
    · rename_i ht
      exact .timeoutLive batch (by omega)
  | expireAll rest =>
    cases rest with
    | nil =>
      obtain ⟨rfl, rfl⟩ := by simpa [next] using h
      exact .expireNil
    | cons i rest =>
      obtain ⟨rfl, rfl⟩ := by simpa [next] using h
      exact .expire i rest
  | call batch =>
    obtain ⟨rfl, rfl⟩ := by simpa [next] using h
    exact .call batch
  | inflight batch =>
    simp only [next, Option.some.injEq, Prod.mk.injEq] at h
    obtain ⟨rfl, rfl⟩ := h
    split
    · rename_i ho
      exact .response batch ho
    · rename_i ho
      exact .rpcError batch ho
    · rename_i ho
      exact .raised batch ho
  | reconcile results batch =>
    cases results with
    | nil =>
      obtain ⟨rfl, rfl⟩ := by simpa [next] using h
      exact .reconcileNil batch
    | cons r rs =>
      simp only [next] at h
      split at h
      · rename_i hm
        obtain ⟨rfl, rfl⟩ := by simpa using h
        exact .unknown rs hm
      · rename_i i hm
        split at h
        · rename_i hs
          split at h
          · rename_i hl
            obtain ⟨rfl, rfl⟩ := by simpa using h
            exact .decoded rs hm hs hl
          · rename_i hl
            obtain ⟨rfl, rfl⟩ := by simpa using h
            exact .undecodable rs hm hs hl
        · rename_i hs
          obtain ⟨rfl, rfl⟩ := by simpa using h
          exact .unsuccessful rs hm (by simpa using hs)
  | sweep rest =>
    cases rest with
    | nil =>
      obtain ⟨rfl, rfl⟩ := by simpa [next] using h
      exact .sweepNil
    | cons i rest =>
      simp only [next] at h
      split at h
      · rename_i hd
        obtain ⟨rfl, rfl⟩ := by simpa using h
        simp only [Bool.and_eq_true, Bool.not_eq_true'] at hd
        exact .omitted rest hd.1 hd.2
      · rename_i hd
        obtain ⟨rfl, rfl⟩ := by simpa using h
        refine .sweepSkip rest ?_
        cases hdur : durable (v.tasks i) <;> simp_all
  | rpcError code text batch =>
    simp only [next, Option.some.injEq, Prod.mk.injEq] at h
    obtain ⟨rfl, rfl⟩ := h
    split
    · rename_i hc
      subst hc
      exact .rpcDeadline text batch
    · rename_i hc
      exact .rpcRetiring text batch hc
  | rpcRetiring code text retiring batch =>
    obtain ⟨rfl, rfl⟩ := by simpa only [next, Option.some.injEq, Prod.mk.injEq] using h
    exact .rpcAllowed code text retiring batch
  | finish rest text allow =>
    cases rest with
    | nil =>
      obtain ⟨rfl, rfl⟩ := by simpa [next] using h
      exact .finishNil text allow
    | cons i rest =>
      obtain ⟨rfl, rfl⟩ := by simpa [next] using h
      exact .finish i rest text allow
  | finishStatus i allowed rest text allow =>
    simp only [next, Option.some.injEq, Prod.mk.injEq] at h
    obtain ⟨rfl, rfl⟩ := h
    split
    · rename_i ht
      exact .finishEnded allowed rest text allow ht
    · rename_i ht
      exact .finishOpen allowed rest text allow (by simpa using ht)
  | finishExpired i allowed rest text allow =>
    simp only [next, Option.some.injEq, Prod.mk.injEq] at h
    obtain ⟨rfl, rfl⟩ := h
    split
    · rename_i ht
      exact .late allowed rest text allow ht
    · rename_i ht
      have ht' : (v.tasks i).isExpired v.mono = false := by simpa using ht
      split
      · rename_i hd
        exact .kept allowed rest text allow ht' hd
      · rename_i hd
        have hd' : durable (v.tasks i) = false := by simpa using hd
        cases allowed with
        | true => exact .retry rest text allow ht' hd'
        | false => exact .noRetry rest text allow ht' hd'
  | handler i rest text allow =>
    simp only [next, Option.some.injEq, Prod.mk.injEq] at h
    obtain ⟨rfl, rfl⟩ := h
    split
    · rename_i ha
      exact .accepted i rest text allow ha
    · rename_i ha
      exact .refused i rest text allow ha
  | finishFail i error code rest text allow =>
    obtain ⟨rfl, rfl⟩ := by simpa [next] using h
    exact .fail i error code rest text allow

/-- No task is taken on. -/
theorem Moves.held (h : Moves loads v io pc c pc') : pc'.held.Sublist pc.held := by
  cases h <;> simp [Pc.held]

theorem call_markFailed_terminal (t : Task) (e : String) (code : Option String) (mono wall : ℤ) :
    (t.call (.markFailed e code) mono wall).terminal = true := Task.markFailed_terminal t wall e code

theorem call_markDone_terminal (t : Task) (r : Json) (mono wall : ℤ) :
    (t.call (.markDone r) mono wall).terminal = true := Task.markDone_terminal t wall r

/-- A statement lets go of a task only when the task has ended, when another proxy has accepted
it, or in the sweep, which passes over omitted results of the kinds it does not know. -/
theorem Moves.settles (h : Moves loads v io pc c pc') (wall : ℤ) {i : ℕ} (hi : i ∈ pc.held) :
    i ∈ pc'.held ∨ (applyCall v.tasks v.mono wall c i).terminal = true ∨ i ∈ handed io pc ∨
      ∃ rest, pc = .sweep (i :: rest) ∧ durable (v.tasks i) = false := by
  have hfail : ∀ (k : ℕ) (e : String) (code : Option String), k = i →
      (applyCall v.tasks v.mono wall (some (k, .markFailed e code)) i).terminal = true := by
    rintro k e code rfl
    simp [applyCall, call_markFailed_terminal]
  cases h with
  | filterEnded rest acc ht =>
    simp only [Pc.held, List.mem_append, List.mem_cons] at hi ⊢
    rcases hi with hi | rfl | hi
    · exact .inl (.inl hi)
    · exact .inr (.inl ht)
    · exact .inl (.inr hi)
  | filterLate rest acc ht =>
    simp only [Pc.held, List.mem_append, List.mem_cons] at hi ⊢
    rcases hi with hi | rfl | hi
    · exact .inl (.inl hi)
    · exact .inr (.inl (hfail _ _ _ rfl))
    · exact .inl (.inr hi)
  | expire k rest =>
    rcases List.mem_cons.mp hi with rfl | hi
    · exact .inr (.inl (hfail _ _ _ rfl))
    · exact .inl hi
  | omitted rest hd ht =>
    rcases List.mem_cons.mp hi with rfl | hi
    · exact .inr (.inl (hfail _ _ _ rfl))
    · exact .inl hi
  | sweepSkip rest hskip =>
    rcases List.mem_cons.mp hi with rfl | hi
    · rcases hskip with hd | ht
      · exact .inr (.inr (.inr ⟨rest, rfl, hd⟩))
      · exact .inr (.inl ht)
    · exact .inl hi
  | finishEnded allowed rest text allow ht =>
    rcases List.mem_cons.mp hi with rfl | hi
    · exact .inr (.inl ht)
    · exact .inl hi
  | accepted k rest text allow ha =>
    rcases List.mem_cons.mp hi with rfl | hi
    · exact .inr (.inr (.inl (by simp [handed, ha])))
    · exact .inl hi
  | fail k error code rest text allow =>
    rcases List.mem_cons.mp hi with rfl | hi
    · exact .inr (.inl (hfail _ _ _ rfl))
    · exact .inl hi
  | checkEmpty | expireNil | sweepNil | finishNil => simp [Pc.held] at hi
  | _ => exact .inl (by simpa [Pc.held] using hi)

/-- **Measure.**  Every statement of the call whose stub answers `o` brings it closer to its
return. -/
theorem Moves.measure (h : Moves loads v io pc c pc') {n : ℕ}
    (hn : ∀ results, io.outcome = .response results → results.length ≤ n) :
    pc'.measure n < pc.measure n := by
  cases h with
  | response batch ho =>
    have := hn _ ho
    simp only [Pc.measure]
    omega
  | _ =>
    simp only [Pc.measure, List.length_append, List.length_cons, List.length_nil]
    omega

end Next

end Inference.Pool
