import Inference.Encoding
import Inference.Lib.Dict
import Inference.Pool.Process

/-!
# Inference.Servicer — `WorkerServicer.ProcessBatch` of `system/grpc_worker_server.py`

One call of the RPC.  Every `time.monotonic()` is the next reading of `clock` and every
`context.is_active()` the next of `active`; nothing is assumed of either.  Times are of any type with
the operations that the code uses, so that the floats of the source are an instance.

* `waitLoop`: the simulated wait, which drops tasks as they expire.
* `Accounted`: where a result of the simulation comes from.
* **`one_result_per_task`**: one result for each task, and what a success has found.
-/

namespace Inference.Servicer

open Inference.Lib
open Inference.Pool (TaskResult Exc)

/-- `inference_pb2.TaskRequest` -/
structure TaskRequest (τ : Type) where
  taskId : String
  inputJson : String
  remainingSeconds : Option τ

/-- The values that one call reads, in order. -/
structure Readings (τ : Type) where
  /-- `time.monotonic()` -/
  clock : ℕ → τ
  /-- `context.is_active()` -/
  active : ℕ → Bool

/-- What the interpreter does with JSON. -/
structure Interpreter where
  /-- `json.loads` -/
  loads : String → Except Exc Json
  /-- `x * x` for a float -/
  squareFloat : String → String
  /-- `json.dumps` -/
  dumps : Json → Except Exc String

/-! ### The computation -/

variable (py : Interpreter) (workerId : ℤ)

/-- `x * x` -/
def square : Json → Except Exc Json
  | .int n => .ok (.int (n * n))
  | .bool b => .ok (.int b.toNat)
  | .float text => .ok (.float (py.squareFloat text))
  | .str _ => .error ⟨false, "can't multiply sequence by non-int of type 'str'"⟩
  | .arr _ => .error ⟨false, "can't multiply sequence by non-int of type 'list'"⟩
  | .obj _ => .error ⟨false, "unsupported operand type(s) for *: 'dict' and 'dict'"⟩
  | .null => .error ⟨false, "unsupported operand type(s) for *: 'NoneType' and 'NoneType'"⟩

/-- The `try` block of the last loop. -/
def predict (inputJson : String) : Except Exc String := do
  let inputData ← py.loads inputJson
  let x := (inputData.get? "x").getD (.int 0)
  let prediction ← square py x
  py.dumps (.obj [("prediction", prediction), ("worker_id", .int workerId)])

variable {τ : Type}

/-- The result of that block or of its handler. -/
def computed (t : TaskRequest τ) : TaskResult :=
  match predict py workerId t.inputJson with
  | .ok text => { taskId := t.taskId, success := true, resultJson := text }
  | .error e => { taskId := t.taskId, success := false, error := e.text }

def timedOut (t : TaskRequest τ) : TaskResult where
  taskId := t.taskId
  success := false
  error := "request deadline exceeded"
  errorCode := "deadline_exceeded"

def injectedFailure (t : TaskRequest τ) : TaskResult where
  taskId := t.taskId
  success := false
  error := "Worker-" ++ toString workerId ++ ": injected failure"

/-! ### `_process_batch` -/

section Simulation

variable [Add τ] [Sub τ] [Zero τ] [LE τ] [DecidableLE τ] (r : Readings τ)

/-- The dict of deadlines; the last task with an ID decides. -/
def deadlines (received : τ) (requests : List (TaskRequest τ)) : List (String × Option τ) :=
  requests.foldl (fun d t => Dict.set t.taskId (t.remainingSeconds.map (received + ·)) d) []

variable (d : List (String × Option τ))

/-- `deadlines[t.task_id]` -/
def deadlineOf (t : TaskRequest τ) : Option τ := (Dict.get? t.taskId d).getD none

/-- `deadline is not None and now >= deadline` -/
def isExpired (now : τ) (t : TaskRequest τ) : Bool :=
  match deadlineOf d t with
  | none => false
  | some deadline => deadline ≤ now

/-- The first loop: the results, the tasks that go on, and the next reading. -/
def firstPass : (i : ℕ) → List (TaskRequest τ) → List TaskResult × List (TaskRequest τ) × ℕ
  | i, [] => ([], [], i)
  | i, t :: ts =>
    -- a task without a deadline takes no reading
    let rest := firstPass (if (deadlineOf d t).isSome then i + 1 else i) ts
    if isExpired d (r.clock i) t then (timedOut t :: rest.1, rest.2.1, rest.2.2)
    else (rest.1, t :: rest.2.1, rest.2.2)

/-- The last loop: the results, and the next reading. -/
def lastPass : (i : ℕ) → List (TaskRequest τ) → List TaskResult × ℕ
  | i, [] => ([], i)
  | i, t :: ts =>
    let rest := lastPass (if (deadlineOf d t).isSome then i + 1 else i) ts
    ((if isExpired d (r.clock i) t then timedOut t else computed py workerId t) :: rest.1, rest.2)

/-- A response. -/
structure Reply where
  results : List TaskResult
  /-- for the record: the reading that ended the simulated wait -/
  waitEnd : Option ℕ
  /-- for the record: the readings taken -/
  readings : ℕ

/-- The `while True` loop and what follows it; `none` when it has not ended after `fuel` turns. -/
def waitLoop (finishAt : τ) : (fuel i k : ℕ) → (active : List (TaskRequest τ)) →
    (results : List TaskResult) → Option Reply
  | 0, _, _, _, _ => none
  | fuel + 1, i, k, active, results =>
    if !r.active k then some ⟨results, none, i⟩
    else
      let now := r.clock i
      let results := results ++ (active.filter (isExpired d now)).map timedOut
      let remaining := active.filter fun t => !isExpired d now t
      if remaining.isEmpty then some ⟨results, none, i + 1⟩
      else if finishAt - r.clock (i + 1) ≤ 0 then
        let last := lastPass py workerId r d (i + 2) remaining
        some ⟨results ++ last.1, some (i + 1), last.2⟩
      else waitLoop finishAt fuel (i + 2) (k + 1) remaining results

/-- `_process_batch` without a backend; `wait n` is `total_ms / 1000.0` for `n` tasks. -/
def simulate (injected : Bool) (wait : ℕ → τ) (fuel : ℕ) (requests : List (TaskRequest τ)) :
    Option Reply :=
  let d := deadlines (r.clock 0) requests
  let (results, active, i) := firstPass r d 1 requests
  if active.isEmpty then some ⟨results, none, i⟩
  else if injected then some ⟨results ++ active.map (injectedFailure workerId), none, i⟩
  else waitLoop py workerId r d (r.clock i + wait active.length) fuel (i + 1) 0 active results

/-- `finish_at`, where the wait begins. -/
def finishAt (wait : ℕ → τ) (requests : List (TaskRequest τ)) : τ :=
  let first := firstPass r (deadlines (r.clock 0) requests) 1 requests
  r.clock first.2.2 + wait first.2.1.length

end Simulation

/-! ### `_process_backend` -/

/-- What `self.backend.process` raises: a `WorkerError`, or any other `Exception`. -/
inductive Raised where
  | worker (code message : String)
  | other
deriving DecidableEq, Repr

/-- A backend whose calls return values of any type, the calls numbered. -/
structure Backend (τ ν : Type) where
  process : ℕ → Json → (deadline : Option τ) → Except Raised ν
  /-- `json.dumps` of what it returned; `none` when that raises -/
  dumps : ν → Option String

variable {ν : Type}

def unexpected (t : TaskRequest τ) : TaskResult where
  taskId := t.taskId
  success := false
  error := "unexpected worker failure"
  errorCode := "worker_error"

/-- One turn of the loop. -/
def backendResult [Add τ] (b : Backend τ ν) (received : τ) (k : ℕ) (t : TaskRequest τ) : TaskResult :=
  match py.loads t.inputJson with
  | .error e =>
    if e.isValueError then
      { taskId := t.taskId, success := false, error := "input_json must be valid JSON"
        errorCode := "invalid_spec" }
    else unexpected t
  | .ok payload =>
    match b.process k payload (t.remainingSeconds.map (received + ·)) with
    | .error (.worker code message) =>
      { taskId := t.taskId, success := false, error := message, errorCode := code }
    | .error .other => unexpected t
    | .ok value =>
      match b.dumps value with
      | some text => { taskId := t.taskId, success := true, resultJson := text }
      | none => unexpected t

def processBackend [Add τ] (b : Backend τ ν) (received : τ) (requests : List (TaskRequest τ)) :
    List TaskResult :=
  requests.zipIdx.map fun p => backendResult py b received p.2 p.1

/-! ### `ProcessBatch` -/

def busy (t : TaskRequest τ) : TaskResult where
  taskId := t.taskId
  success := false
  error := "adapter is updating"
  errorCode := "worker_busy"

/-- The globals of the module and the draw.  `UpdateConfig` may set them between two reads, so each
read has its own value. -/
structure Settings (τ : Type) where
  /-- `_failure_rate` -/
  failureRates : τ × τ
  /-- `_inference_latency_ms` -/
  latencies : τ × τ
  /-- `random.random()` -/
  draw : τ

namespace Settings

variable [Zero τ] [LT τ] [DecidableLT τ] (s : Settings τ)

/-- `_failure_rate > 0 and random.random() < _failure_rate` -/
def injected : Bool := 0 < s.failureRates.1 && s.draw < s.failureRates.2

/-- `total_ms / 1000.0` -/
def wait [Add τ] [Mul τ] [Div τ] [NatCast τ] [OfScientific τ] (n : ℕ) : τ :=
  (s.latencies.1 + n * (s.latencies.2 * 0.2)) / 1000.0

end Settings

/-- `ProcessBatch`; `gate` is what `enter` answers, where there is a gate. -/
def processBatch [Add τ] [Sub τ] [Mul τ] [Div τ] [Zero τ] [NatCast τ] [OfScientific τ] [LE τ] [LT τ]
    [DecidableLE τ] [DecidableLT τ] (backend : Option (Backend τ ν)) (gate : Option Bool)
    (s : Settings τ) (r : Readings τ) (fuel : ℕ) (requests : List (TaskRequest τ)) :
    Option (List TaskResult) :=
  if gate = some false then some (requests.map busy)
  else match backend with
    | some b => some (processBackend py b (r.clock 0) requests)
    | none => (simulate py workerId r s.injected s.wait fuel requests).map Reply.results

/-! ### The IDs -/

@[simp] theorem taskId_timedOut (t : TaskRequest τ) : (timedOut t).taskId = t.taskId := rfl

@[simp] theorem taskId_injectedFailure (t : TaskRequest τ) :
    (injectedFailure workerId t).taskId = t.taskId := rfl

variable {py workerId}

@[simp] theorem taskId_computed (t : TaskRequest τ) :
    (computed py workerId t).taskId = t.taskId := by
  unfold computed
  split <;> rfl

@[simp] theorem taskId_backendResult [Add τ] (b : Backend τ ν) (received : τ) (k : ℕ)
    (t : TaskRequest τ) : (backendResult py b received k t).taskId = t.taskId := by
  unfold backendResult
  split
  · split <;> rfl
  · split
    · rfl
    · rfl
    · split <;> rfl

theorem processBackend_ids [Add τ] (b : Backend τ ν) (received : τ)
    (requests : List (TaskRequest τ)) :
    (processBackend py b received requests).map TaskResult.taskId =
      requests.map TaskRequest.taskId := by
  rw [processBackend, List.map_map]
  have hid : TaskResult.taskId ∘ (fun p : TaskRequest τ × ℕ => backendResult py b received p.2 p.1) =
      TaskRequest.taskId ∘ Prod.fst := by
    funext p
    exact taskId_backendResult b received p.2 p.1
  rw [hid, ← List.map_map, List.zipIdx_map_fst]

/-- The deadline of an ID is that of the last task with it. -/
theorem get?_deadlines [Add τ] (received : τ) (requests : List (TaskRequest τ)) (id : String) :
    Dict.get? id (deadlines received requests) =
      (requests.reverse.find? fun t => t.taskId = id).map
        fun t => t.remainingSeconds.map (received + ·) := by
  induction requests using List.reverseRecOn with
  | nil => rfl
  | append_singleton requests t ih =>
    rw [deadlines, List.foldl_append, List.reverse_append, List.reverse_singleton,
      List.singleton_append, List.find?_cons]
    by_cases hid : t.taskId = id
    · subst hid
      simp
    · rw [List.foldl_cons, List.foldl_nil, Dict.get?_set_of_ne (Ne.symm hid)]
      have hfalse : decide (t.taskId = id) = false := decide_eq_false hid
      rw [hfalse]
      exact ih

section Simulation

variable [LE τ] {r : Readings τ} {d : List (String × Option τ)}

/-! ### Where results come from -/

variable (py workerId r d) in
/-- The origin of a result, in a call that has taken `n` readings. -/
inductive Accounted (requests : List (TaskRequest τ)) (waitEnd : Option ℕ) (n : ℕ) :
    TaskResult → Prop
  | timedOut (t : TaskRequest τ) (ht : t ∈ requests) (j : ℕ) (deadline : τ)
      (hdeadline : deadlineOf d t = some deadline) (hj : j < n) (hpassed : deadline ≤ r.clock j) :
      Accounted requests waitEnd n (timedOut t)
  | injected (t : TaskRequest τ) (ht : t ∈ requests) :
      Accounted requests waitEnd n (injectedFailure workerId t)
  | computed (t : TaskRequest τ) (ht : t ∈ requests) (e j : ℕ) (hend : waitEnd = some e) (hj : e < j)
      (hin : ∀ deadline, deadlineOf d t = some deadline → ¬ deadline ≤ r.clock j) :
      Accounted requests waitEnd n (computed py workerId t)

variable (py workerId r d) in
/-- The state of a call between two readings. -/
structure Pending (requests : List (TaskRequest τ)) (i : ℕ) (active : List (TaskRequest τ))
    (results : List TaskResult) : Prop where
  ids : (results.map TaskResult.taskId ++ active.map TaskRequest.taskId).Perm
    (requests.map TaskRequest.taskId)
  mem : ∀ t ∈ active, t ∈ requests
  accounted : ∀ waitEnd n, i ≤ n → ∀ res ∈ results,
    Accounted py workerId r d requests waitEnd n res

variable {requests active : List (TaskRequest τ)} {results : List TaskResult} {i : ℕ}

variable (py workerId r d) in
/-- A response to the requests: a part of the tasks has a result, all of them as long as the caller
is there. -/
structure Answers (requests : List (TaskRequest τ)) (reply : Reply) : Prop where
  subperm : (reply.results.map TaskResult.taskId).Subperm (requests.map TaskRequest.taskId)
  perm : (∀ k, r.active k = true) →
    (reply.results.map TaskResult.taskId).Perm (requests.map TaskRequest.taskId)
  accounted : ∀ res ∈ reply.results,
    Accounted py workerId r d requests reply.waitEnd reply.readings res

/-- Nothing is left to do. -/
theorem Pending.answers (hp : Pending py workerId r d requests i [] results) :
    Answers py workerId r d requests ⟨results, none, i⟩ where
  subperm := by simpa using hp.ids.subperm
  perm _ := by simpa using hp.ids
  accounted := hp.accounted none i (le_refl i)

/-- The caller has gone. -/
theorem Pending.abandoned {k : ℕ} (hk : r.active k = false)
    (hp : Pending py workerId r d requests i active results) :
    Answers py workerId r d requests ⟨results, none, i⟩ where
  subperm := (List.sublist_append_left _ _).subperm.trans hp.ids.subperm
  perm hactive := by
    rw [hactive k] at hk
    cases hk
  accounted := hp.accounted none i (le_refl i)

/-- Between two readings nothing happens. -/
theorem Pending.later {j : ℕ} (hp : Pending py workerId r d requests i active results)
    (hij : i ≤ j) : Pending py workerId r d requests j active results :=
  ⟨hp.ids, hp.mem, fun waitEnd n hn => hp.accounted waitEnd n (hij.trans hn)⟩

/-- All that are left fail together. -/
theorem Pending.fail (hp : Pending py workerId r d requests i active results) :
    Answers py workerId r d requests ⟨results ++ active.map (injectedFailure workerId), none, i⟩ := by
  have hids : ((results ++ active.map (injectedFailure workerId)).map TaskResult.taskId).Perm
      (requests.map TaskRequest.taskId) := by
    rw [List.map_append, List.map_map]
    exact hp.ids
  refine ⟨hids.subperm, fun _ => hids, fun res hres => ?_⟩
  rcases List.mem_append.mp hres with hres | hres
  · exact hp.accounted none i (le_refl i) res hres
  · obtain ⟨t, ht, rfl⟩ := List.mem_map.mp hres
    exact .injected t (hp.mem t ht)

/-- A success has taken a reading after the wait, and the deadline of its ID had not passed there. -/
theorem Answers.success [Add τ] {reply : Reply}
    (ha : Answers py workerId r (deadlines (r.clock 0) requests) requests reply) {res : TaskResult}
    (hres : res ∈ reply.results) (hsuccess : res.success = true) :
    ∃ t e j, (requests.reverse.find? fun t => t.taskId = res.taskId) = some t ∧
      reply.waitEnd = some e ∧ e < j ∧
      ∀ b, t.remainingSeconds = some b → ¬ r.clock 0 + b ≤ r.clock j := by
  cases ha.accounted res hres with
  | timedOut t ht j deadline hdeadline hj hpassed => cases hsuccess
  | injected t ht => cases hsuccess
  | computed t ht e j hend hj hin =>
    rw [taskId_computed]
    cases hlast : requests.reverse.find? fun u => u.taskId = t.taskId with
    | none =>
      have hno := List.find?_eq_none.mp hlast t (List.mem_reverse.mpr ht)
      simp at hno
    | some u =>
      refine ⟨u, e, j, rfl, hend, hj, fun b hb => hin _ ?_⟩
      rw [deadlineOf, get?_deadlines, hlast, Option.map_some, hb]
      rfl

variable [DecidableLE τ]

theorem isExpired_iff {now : τ} {t : TaskRequest τ} :
    isExpired d now t = true ↔ ∃ deadline, deadlineOf d t = some deadline ∧ deadline ≤ now := by
  unfold isExpired
  cases deadlineOf d t <;> simp

theorem isExpired_eq_false {now : τ} {t : TaskRequest τ} :
    isExpired d now t = false ↔ ∀ deadline, deadlineOf d t = some deadline → ¬ deadline ≤ now := by
  unfold isExpired
  cases deadlineOf d t <;> simp

/-- The tasks that one reading drops. -/
theorem Pending.drop (hp : Pending py workerId r d requests i active results) :
    Pending py workerId r d requests (i + 1)
      (active.filter fun t => !isExpired d (r.clock i) t)
      (results ++ (active.filter (isExpired d (r.clock i))).map timedOut) where
  ids := by
    have hsplit := List.filter_append_perm (isExpired d (r.clock i)) active
    refine List.Perm.trans ?_ hp.ids
    rw [List.map_append, List.map_map, List.append_assoc]
    refine List.Perm.append_left _ ?_
    have hids : TaskResult.taskId ∘ timedOut = TaskRequest.taskId (τ := τ) := rfl
    rw [hids, ← List.map_append]
    exact hsplit.map _
  mem := fun t ht => hp.mem t (List.mem_of_mem_filter ht)
  accounted := by
    intro waitEnd n hn res hres
    rcases List.mem_append.mp hres with hres | hres
    · exact hp.accounted waitEnd n (by omega) res hres
    · obtain ⟨t, ht, rfl⟩ := List.mem_map.mp hres
      obtain ⟨hactive, hexpired⟩ := List.mem_filter.mp ht
      obtain ⟨deadline, hdeadline, hpassed⟩ := isExpired_iff.mp hexpired
      exact .timedOut t (hp.mem t hactive) i deadline hdeadline (by omega) hpassed

/-- The first loop, on the tasks that are left, with `done` and `kept` behind it. -/
theorem firstPass_pending {ts : List (TaskRequest τ)} {done : List TaskResult}
    {kept : List (TaskRequest τ)}
    (hp : Pending py workerId r d requests i (kept ++ ts) done) :
    Pending py workerId r d requests (firstPass r d i ts).2.2 (kept ++ (firstPass r d i ts).2.1)
      (done ++ (firstPass r d i ts).1) := by
  induction ts generalizing i done kept with
  | nil => simpa [firstPass] using hp
  | cons t ts ih =>
    have ht : t ∈ requests := hp.mem t (List.mem_append_right _ List.mem_cons_self)
    rw [firstPass]
    split
    next he =>
      obtain ⟨deadline, hdeadline, hpassed⟩ := isExpired_iff.mp he
      have hnext : Pending py workerId r d requests
          (if (deadlineOf d t).isSome then i + 1 else i) (kept ++ ts) (done ++ [timedOut t]) := by
        refine ⟨?_, fun u hu => hp.mem u ?_, ?_⟩
        · refine List.Perm.trans ?_ hp.ids
          simp only [List.map_append, List.map_cons, List.map_nil, taskId_timedOut, List.append_assoc]
          refine List.Perm.append_left _ ?_
          rw [List.singleton_append]
          exact (List.perm_middle).symm
        · rcases List.mem_append.mp hu with hu | hu
          · exact List.mem_append_left _ hu
          · exact List.mem_append_right _ (List.mem_cons_of_mem _ hu)
        · intro waitEnd n hn res hres
          rw [hdeadline] at hn
          rcases List.mem_append.mp hres with hres | hres
          · exact hp.accounted waitEnd n (by simp only [Option.isSome_some, if_true] at hn; omega) res
              hres
          · obtain rfl := List.mem_singleton.mp hres
            exact .timedOut t ht i deadline hdeadline
              (by simp only [Option.isSome_some, if_true] at hn; omega) hpassed
      have hrest := ih hnext
      rwa [List.append_assoc, List.singleton_append] at hrest
    next he =>
      have hnext : Pending py workerId r d requests
          (if (deadlineOf d t).isSome then i + 1 else i) ((kept ++ [t]) ++ ts) done := by
        rw [List.append_assoc, List.singleton_append]
        refine ⟨hp.ids, hp.mem, fun waitEnd n hn res hres => hp.accounted waitEnd n ?_ res hres⟩
        split at hn <;> omega
      have hrest := ih hnext
      rwa [List.append_assoc, List.singleton_append] at hrest

theorem lastPass_ids (ts : List (TaskRequest τ)) :
    (lastPass py workerId r d i ts).1.map TaskResult.taskId = ts.map TaskRequest.taskId := by
  induction ts generalizing i with
  | nil => rfl
  | cons t ts ih =>
    rw [lastPass, List.map_cons, ih, List.map_cons]
    split <;> simp

variable (py workerId r d i) in
theorem lastPass_index (ts : List (TaskRequest τ)) : i ≤ (lastPass py workerId r d i ts).2 := by
  induction ts generalizing i with
  | nil => exact le_refl i
  | cons t ts ih =>
    have hle : i ≤ if (deadlineOf d t).isSome then i + 1 else i := by
      split <;> omega
    exact hle.trans (ih _)

/-- The last loop, after the reading `e` that ended the wait. -/
theorem lastPass_accounted {e : ℕ} (hi : e < i) {ts : List (TaskRequest τ)}
    (hts : ∀ t ∈ ts, t ∈ requests) : ∀ res ∈ (lastPass py workerId r d i ts).1,
      Accounted py workerId r d requests (some e) (lastPass py workerId r d i ts).2 res := by
  induction ts generalizing i with
  | nil => nofun
  | cons t ts ih =>
    have ht := hts t List.mem_cons_self
    intro res hres
    rw [lastPass] at hres ⊢
    have hle := lastPass_index py workerId r d (if (deadlineOf d t).isSome then i + 1 else i) ts
    rcases List.mem_cons.mp hres with rfl | hres
    · split
      next he =>
        obtain ⟨deadline, hdeadline, hpassed⟩ := isExpired_iff.mp he
        rw [hdeadline] at hle
        exact .timedOut t ht i deadline hdeadline (by simpa [hdeadline] using hle) hpassed
      next he =>
        refine .computed t ht e i rfl hi ?_
        exact isExpired_eq_false.mp (by simpa using he)
    · refine ih ?_ (fun u hu => hts u (List.mem_cons_of_mem _ hu)) res hres
      split <;> omega

/-- The wait is over. -/
theorem Pending.finished (hp : Pending py workerId r d requests i active results) :
    Answers py workerId r d requests
      ⟨results ++ (lastPass py workerId r d (i + 1) active).1, some i,
        (lastPass py workerId r d (i + 1) active).2⟩ := by
  have hids : ((results ++ (lastPass py workerId r d (i + 1) active).1).map TaskResult.taskId).Perm
      (requests.map TaskRequest.taskId) := by
    rw [List.map_append, lastPass_ids]
    exact hp.ids
  have hle := lastPass_index py workerId r d (i + 1) active
  refine ⟨hids.subperm, fun _ => hids, fun res hres => ?_⟩
  rcases List.mem_append.mp hres with hres | hres
  · exact hp.accounted (some i) _ (Nat.le_of_succ_le hle) res hres
  · exact lastPass_accounted (Nat.lt_succ_self i) hp.mem res hres

variable [Sub τ] [Zero τ] {limit : τ} {fuel k : ℕ} {reply : Reply}

theorem waitLoop_answers (hp : Pending py workerId r d requests i active results)
    (hr : waitLoop py workerId r d limit fuel i k active results = some reply) :
    Answers py workerId r d requests reply ∧
      ∀ e, reply.waitEnd = some e → limit - r.clock e ≤ 0 := by
  induction fuel generalizing i k active results with
  | zero => cases hr
  | succ fuel ih =>
    have hdrop := hp.drop
    simp only [waitLoop] at hr
    split at hr
    next hk =>
      obtain rfl := Option.some.inj hr
      exact ⟨hp.abandoned (k := k) (by simpa using hk), nofun⟩
    next =>
      split at hr
      next hempty =>
        obtain rfl := Option.some.inj hr
        rw [List.isEmpty_iff] at hempty
        rw [hempty] at hdrop
        exact ⟨hdrop.answers, nofun⟩
      next =>
        split at hr
        next hend =>
          obtain rfl := Option.some.inj hr
          refine ⟨hdrop.finished, fun e he => ?_⟩
          obtain rfl := Option.some.inj he
          exact hend
        next => exact ih (hdrop.later (Nat.le_succ _)) hr

variable (fuel) in
/-- The loop ends when the clock gets where the wait was to end. -/
theorem waitLoop_ends {n : ℕ} (hclock : ∀ m ≥ n, limit - r.clock m ≤ 0)
    (hfuel : n ≤ i + 1 + 2 * fuel) :
    ∃ reply, waitLoop py workerId r d limit (fuel + 1) i k active results = some reply := by
  induction fuel generalizing i k active results with
  | zero =>
    simp only [waitLoop]
    rw [if_pos (hclock (i + 1) (by omega))]
    split
    · exact ⟨_, rfl⟩
    · split
      · exact ⟨_, rfl⟩
      · exact ⟨_, rfl⟩
  | succ fuel ih =>
    rw [waitLoop]
    dsimp only
    split
    · exact ⟨_, rfl⟩
    · split
      · exact ⟨_, rfl⟩
      · split
        · exact ⟨_, rfl⟩
        · exact ih (by omega)

variable (fuel) in
/-- The loop ends when the caller goes. -/
theorem waitLoop_ends_inactive {n : ℕ} (hn : r.active n = false) (hfuel : n = k + fuel) :
    ∃ reply, waitLoop py workerId r d limit (fuel + 1) i k active results = some reply := by
  induction fuel generalizing i k active results with
  | zero =>
    obtain rfl : n = k := hfuel
    rw [waitLoop, hn]
    exact ⟨_, rfl⟩
  | succ fuel ih =>
    rw [waitLoop]
    dsimp only
    split
    · exact ⟨_, rfl⟩
    · split
      · exact ⟨_, rfl⟩
      · split
        · exact ⟨_, rfl⟩
        · exact ih (by omega)

/-- More turns than it takes change nothing. -/
theorem waitLoop_mono {fuel' : ℕ} (hle : fuel ≤ fuel')
    (hr : waitLoop py workerId r d limit fuel i k active results = some reply) :
    waitLoop py workerId r d limit fuel' i k active results = some reply := by
  induction fuel generalizing fuel' i k active results with
  | zero => cases hr
  | succ fuel ih =>
    obtain ⟨fuel', rfl⟩ := Nat.exists_eq_succ_of_ne_zero (by omega : fuel' ≠ 0)
    rw [waitLoop] at hr ⊢
    dsimp only at hr ⊢
    split at hr
    next h => rw [if_pos h, hr]
    next h =>
      rw [if_neg h]
      split at hr
      next h => rw [if_pos h, hr]
      next h =>
        rw [if_neg h]
        split at hr
        next h => rw [if_pos h, hr]
        next h =>
          rw [if_neg h]
          exact ih (by omega) hr

variable [Add τ] {wait : ℕ → τ} {injected : Bool}

/-- **The simulation.** -/
theorem simulate_answers
    (hr : simulate py workerId r injected wait fuel requests = some reply) :
    Answers py workerId r (deadlines (r.clock 0) requests) requests reply ∧
      ∀ e, reply.waitEnd = some e → finishAt r wait requests - r.clock e ≤ 0 := by
  have hstart : Pending py workerId r (deadlines (r.clock 0) requests) requests 1 ([] ++ requests) [] :=
    ⟨by simp, fun t ht => ht, fun _ _ _ => nofun⟩
  have hfirst := firstPass_pending hstart
  rw [List.nil_append, List.nil_append] at hfirst
  unfold simulate at hr
  dsimp only at hr
  split at hr
  next hempty =>
    obtain rfl := Option.some.inj hr
    rw [List.isEmpty_iff] at hempty
    rw [hempty] at hfirst
    exact ⟨hfirst.answers, nofun⟩
  next =>
    split at hr
    next =>
      obtain rfl := Option.some.inj hr
      exact ⟨hfirst.fail, nofun⟩
    next => exact waitLoop_answers (hfirst.later (Nat.le_succ _)) hr

variable (py workerId injected) in
/-- The call returns when the clock gets where the wait was to end, and when the caller goes. -/
theorem simulate_ends (hend : (∃ n, ∀ m ≥ n, finishAt r wait requests - r.clock m ≤ 0) ∨
    ∃ k, r.active k = false) :
    ∃ fuel reply, ∀ fuel' ≥ fuel,
      simulate py workerId r injected wait fuel' requests = some reply := by
  unfold simulate
  dsimp only
  split
  · exact ⟨0, _, fun _ _ => rfl⟩
  · split
    · exact ⟨0, _, fun _ _ => rfl⟩
    · rcases hend with ⟨n, hn⟩ | ⟨k, hk⟩
      · obtain ⟨reply, hreply⟩ := waitLoop_ends n hn (by omega)
        exact ⟨n + 1, reply, fun fuel' hle => waitLoop_mono hle hreply⟩
      · obtain ⟨reply, hreply⟩ := waitLoop_ends_inactive k hk (Nat.zero_add k).symm
        exact ⟨k + 1, reply, fun fuel' hle => waitLoop_mono hle hreply⟩

end Simulation

/-- **One result for each task.**  Whatever the clock and the caller do, whatever is drawn and
whatever the backend does: the IDs of a response are a part of those of the request, and all of them,
as often as they occur, when there is a backend, when the gate is closed and when the caller stays.
A success of the simulation has found its deadline still ahead after the wait; and the call does
return once the clock gets there or the caller goes. -/
theorem one_result_per_task [Add τ] [Sub τ] [Mul τ] [Div τ] [Zero τ] [NatCast τ] [OfScientific τ]
    [LE τ] [LT τ] [DecidableLE τ] [DecidableLT τ] (py : Interpreter) (workerId : ℤ)
    (backend : Option (Backend τ ν)) (gate : Option Bool) (s : Settings τ) (r : Readings τ)
    (requests : List (TaskRequest τ)) :
    (∀ fuel results, processBatch py workerId backend gate s r fuel requests = some results →
      (results.map TaskResult.taskId).Subperm (requests.map TaskRequest.taskId) ∧
      ((backend.isSome = true ∨ gate = some false ∨ ∀ k, r.active k = true) →
        (results.map TaskResult.taskId).Perm (requests.map TaskRequest.taskId)) ∧
      (backend = none → ∀ res ∈ results, res.success = true →
        ∃ t e j, (requests.reverse.find? fun t => t.taskId = res.taskId) = some t ∧
          finishAt r s.wait requests - r.clock e ≤ 0 ∧ e < j ∧
          ∀ b, t.remainingSeconds = some b → ¬ r.clock 0 + b ≤ r.clock j)) ∧
    ((∃ n, ∀ m ≥ n, finishAt r s.wait requests - r.clock m ≤ 0) ∨ (∃ k, r.active k = false) →
      ∃ fuel results, ∀ fuel' ≥ fuel,
        processBatch py workerId backend gate s r fuel' requests = some results) := by
  constructor
  · intro fuel results hr
    unfold processBatch at hr
    split at hr
    next hgate =>
      obtain rfl := Option.some.inj hr
      have hids : (requests.map busy).map TaskResult.taskId = requests.map TaskRequest.taskId := by
        rw [List.map_map]
        rfl
      refine ⟨by rw [hids], fun _ => by rw [hids], fun _ res hres hsuccess => ?_⟩
      obtain ⟨t, -, rfl⟩ := List.mem_map.mp hres
      cases hsuccess
    next hgate =>
      split at hr
      next b =>
        obtain rfl := Option.some.inj hr
        rw [processBackend_ids]
        exact ⟨List.Subperm.refl _, fun _ => List.Perm.refl _, nofun⟩
      next =>
        obtain ⟨reply, hreply, rfl⟩ := Option.map_eq_some_iff.mp hr
        obtain ⟨hanswers, hfinish⟩ := simulate_answers hreply
        refine ⟨hanswers.subperm, ?_, fun _ res hres hsuccess => ?_⟩
        · rintro (hb | hg | hactive)
          · cases hb
          · exact absurd hg hgate
          · exact hanswers.perm hactive
        · obtain ⟨t, e, j, hlast, hend, hj, hin⟩ := hanswers.success hres hsuccess
          exact ⟨t, e, j, hlast, hfinish e hend, hj, hin⟩
  · intro hend
    unfold processBatch
    split
    · exact ⟨0, _, fun _ _ => rfl⟩
    · split
      · exact ⟨0, _, fun _ _ => rfl⟩
      · obtain ⟨fuel, reply, hreply⟩ := simulate_ends py workerId s.injected hend
        refine ⟨fuel, reply.results, fun fuel' hle => ?_⟩
        rw [hreply fuel' hle]
        rfl

/-! Three tasks: one that is late already, one that expires in the wait and one without a deadline. -/

def plainInterpreter : Interpreter where
  loads := fun _ => .ok (.obj [("x", .int 3)])
  squareFloat := id
  dumps := fun v => .ok (String.ofList (Json.print Json.defaultStyle v))

def quietSettings : Settings ℚ where
  failureRates := (0, 0)
  latencies := (100, 100)
  draw := 0

/-- A reading every 10 ms. -/
def evenReadings : Readings ℚ where
  clock := fun i => i / 100
  active := fun _ => true

def mixedRequests : List (TaskRequest ℚ) :=
  [⟨"late", "", some 0⟩, ⟨"short", "", some (1 / 20)⟩, ⟨"long", "", none⟩]

def mixedResults : List TaskResult :=
  [{ taskId := "late", success := false, error := "request deadline exceeded"
     errorCode := "deadline_exceeded" },
   { taskId := "short", success := false, error := "request deadline exceeded"
     errorCode := "deadline_exceeded" },
   { taskId := "long", success := true, resultJson := "\x7b\"prediction\": 9, \"worker_id\": 7\x7d" }]

/-- Each of the three has its result, and the success has been decided after the wait. -/
theorem one_result_per_task_mixed :
    processBatch plainInterpreter 7 (none : Option (Backend ℚ Unit)) none quietSettings evenReadings 10
      mixedRequests = some mixedResults ∧
    (mixedResults.map TaskResult.taskId).Perm ["late", "short", "long"] ∧
    (∃ e j, finishAt evenReadings quietSettings.wait mixedRequests - evenReadings.clock e ≤ 0 ∧ e < j) ∧
    ∃ fuel results, ∀ fuel' ≥ fuel,
      processBatch plainInterpreter 7 (none : Option (Backend ℚ Unit)) none quietSettings evenReadings
        fuel' mixedRequests = some results := by
  have hrun : processBatch plainInterpreter 7 (none : Option (Backend ℚ Unit)) none quietSettings
      evenReadings 10 mixedRequests = some mixedResults := by decide +kernel
  have hfinish : finishAt evenReadings quietSettings.wait mixedRequests = 17 / 100 := by
    decide +kernel
  obtain ⟨hresults, hends⟩ := one_result_per_task plainInterpreter 7
    (none : Option (Backend ℚ Unit)) none quietSettings evenReadings mixedRequests
  obtain ⟨-, hperm, hsuccess⟩ := hresults 10 mixedResults hrun
  obtain ⟨t, e, j, -, hend, hj, -⟩ := hsuccess rfl _
    (List.mem_cons_of_mem _ (List.mem_cons_of_mem _ List.mem_cons_self)) rfl
  refine ⟨hrun, hperm (.inr (.inr fun _ => rfl)), ⟨e, j, hend, hj⟩, hends (.inl ⟨17, fun m hm => ?_⟩)⟩
  have hm : (17 : ℚ) ≤ m := by exact_mod_cast hm
  rw [hfinish]
  show (17 : ℚ) / 100 - m / 100 ≤ 0
  linarith

end Inference.Servicer
