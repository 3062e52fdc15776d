import Inference.V73.Payload

/-!
# Inference.Text.Envelope — the checks of `TextWorker.process` of `system/worker_text.py`

What `process` asks of a task before it takes its slot, and of an answer before it returns it.
The constructor lets a service URL be an origin only, so the worker holds two origins.

* `envelope`: the checks before the slot, statement by statement.
* `result`: the checks on the content of an answer.
* **`envelope_ok_iff`**, **`result_ok_iff`**: what they let through.
-/

namespace Inference.Text

open Inference.V73 (keysAre field bind_eq_ok)

/-- The models that `MODEL_KINDS` pins. -/
inductive Model where
  | text | refinement
deriving DecidableEq, Repr

namespace Model

def name : Model → String
  | text => "text_v1.2.3"
  | refinement => "text_v1.2_refinement"

/-- `MODEL_KINDS[model]` -/
def kind : Model → String
  | text => "synthx_text_v123"
  | refinement => "synthx_text_refinement"

end Model

inductive Operation where
  | retrieve | rerank
deriving DecidableEq, Repr

namespace Operation

def name : Operation → String
  | retrieve => "retrieve"
  | rerank => "rerank"

/-- `ROUTES[operation]` -/
def route : Operation → String
  | retrieve => "/text-v1/retrieve"
  | rerank => "/text-v1/rerank"

end Operation

/-- `MAX_RESULT` -/
def maxResult : ℕ := 8 * 1024 * 1024

def maxPayload : ℕ := 256 * 1024

/-- The code of a `WorkerError`. -/
inductive Code where
  | deadlineExceeded
  | cancelled
  | invalidSpec
  | busy
  | overloaded
  | workerError
  | transportError
  | invalidResult
deriving DecidableEq, Repr

/-- What `process` raises: a `WorkerError`, or an exception that no clause of it names. -/
inductive Thrown where
  | worker (code : Code) (message : String)
  | other
deriving DecidableEq, Repr

/-- An exception of `json.loads` or `json.dumps`: one of `(ValueError, UnicodeDecodeError,
TypeError)`, or another such as `RecursionError`. -/
inductive Raised where
  | value | other
deriving DecidableEq, Repr

structure Interpreter where
  /-- `json.loads(content)` -/
  loads : List UInt8 → Except Raised Json
  /-- the exception that a limit of the interpreter makes `json.dumps(value)` raise -/
  limit : Json → Option Raised

/-- The scheme, the host and the port of a URL. -/
structure Origin where
  scheme : String
  host : String
  port : ℕ
deriving DecidableEq, Repr

structure TextWorker where
  baseUrl : Origin
  refinementUrl : Option Origin

variable (w : TextWorker) (py : Interpreter)

/-- `service_url`; a worker without a refinement URL has `""` there. -/
def TextWorker.serviceUrl : Model → Option Origin
  | .text => some w.baseUrl
  | .refinement => w.refinementUrl

/-- `json.dumps(value, allow_nan=False).encode()` -/
def Interpreter.dumps (v : Json) : Except Raised (List UInt8) :=
  match py.limit v with
  | some x => .error x
  | none => if v.finite then .ok (Json.dumpsBytes v) else .error .value

/-! ### Before the slot -/

/-- What the checks leave of a task. -/
structure Job where
  model : Model
  operation : Operation
  payload : Json
  origin : Origin
  body : List UInt8
deriving DecidableEq, Repr

/-- `raise WorkerError("invalid_spec", message)` -/
def invalidSpec {α : Type} (message : String) : Except Thrown α :=
  .error (.worker .invalidSpec message)

/-- `if bad: raise WorkerError("invalid_spec", message)` -/
def refuse (bad : Bool) (message : String) : Except Thrown Unit :=
  if bad then invalidSpec message else .ok ()

/-- The value that a check has found; without one it raises. -/
def demand {α : Type} (found : Option α) (message : String) : Except Thrown α :=
  found.elim (invalidSpec message) .ok

def envelopeFields : List String := ["kind", "model", "operation", "payload"]

def anchorFields : List String :=
  ["anchor_candidate_id", "anchor_native_sha256", "anchor_audio_sha256"]

/-- `value in tuple(MODEL_KINDS)` -/
def modelOf (v : Json) : Option Model := [Model.text, .refinement].find? fun m => v = .str m.name

/-- `isinstance(value, str) and value in ROUTES` -/
def operationOf (v : Json) : Option Operation :=
  [Operation.retrieve, .rerank].find? fun op => v = .str op.name

/-- `payload.get("operation") == "retrieve_similar"` -/
def similar (payload : Json) : Bool := payload.get? "operation" = some (.str "retrieve_similar")

/-- `isinstance(payload.get(key), str) and payload[key]` for every anchor field -/
def anchored (payload : Json) : Bool :=
  anchorFields.all fun key =>
    match payload.get? key with
    | some (.str s) => s != ""
    | _ => false

/-- The four checks on a retrieval. -/
def checkRetrieval (operation : Operation) (model : Model) (payload : Json) :
    Except Thrown Unit := do
  refuse (operation = .retrieve && payload.get? "pipeline_version" ≠ some (.str model.name))
    "retrieval pipeline does not match text worker"
  refuse (operation = .retrieve && (payload.get? "target_engine" ≠ some (.str "vital") &&
    payload.get? "target_engine" ≠ some (.str "serum2"))) "text_v1.2.3 requires target_engine"
  refuse (operation = .retrieve && model = .refinement && (!similar payload || !anchored payload))
    "MFCC refinement requires a verified bank anchor"
  refuse (operation = .retrieve && model = .text && similar payload)
    "anchor retrieval must use the separate refinement pipeline"

/-- `body` -/
def encodePayload (payload : Json) : Except Thrown (List UInt8) :=
  match py.dumps payload with
  | .ok body => .ok body
  | .error .value => invalidSpec "text payload must be finite JSON"
  | .error .other => .error .other

/-- `process`, between its first `_check` and the slot. -/
def envelope (data : Json) : Except Thrown Job := do
  let model ← demand (if keysAre envelopeFields data then modelOf (field data "model") else none)
    "text task must pin a supported text model"
  refuse (field data "kind" ≠ .str model.kind) "text task capability does not match model"
  let origin ← demand (w.serviceUrl model) "MFCC refinement service is not configured"
  let payload := field data "payload"
  let operation ← demand (if payload.isDict then operationOf (field data "operation") else none)
    "only text retrieve/rerank operations are allowed"
  checkRetrieval operation model payload
  let body ← encodePayload py payload
  refuse (maxPayload < body.length) "text payload exceeds 256 KiB"
  return { model, operation, payload, origin, body }

/-- A retrieval that the checks let through. -/
structure Retrieval (model : Model) (payload : Json) : Prop where
  pipeline : payload.get? "pipeline_version" = some (.str model.name)
  engine : payload.get? "target_engine" = some (.str "vital") ∨
    payload.get? "target_engine" = some (.str "serum2")
  anchor : model = .refinement → payload.get? "operation" = some (.str "retrieve_similar") ∧
    ∀ key ∈ anchorFields, ∃ s, payload.get? key = some (.str s) ∧ s ≠ ""
  ordinary : model = .text → payload.get? "operation" ≠ some (.str "retrieve_similar")

/-- A task that passes every check, and the job that it is. -/
structure Pinned (data : Json) (job : Job) : Prop where
  keys : keysAre envelopeFields data = true
  model : field data "model" = .str job.model.name
  kind : field data "kind" = .str job.model.kind
  origin : w.serviceUrl job.model = some job.origin
  operation : field data "operation" = .str job.operation.name
  payload : field data "payload" = job.payload
  isDict : job.payload.isDict = true
  retrieval : job.operation = .retrieve → Retrieval job.model job.payload
  body : py.dumps job.payload = .ok job.body
  size : job.body.length ≤ maxPayload

/-! ### After the answer -/

/-- `raise WorkerError("invalid_result", message)` -/
def invalidResult {α : Type} (message : String) : Except Thrown α :=
  .error (.worker .invalidResult message)

/-- `if bad: raise WorkerError("invalid_result", message)` -/
def discard (bad : Bool) (message : String) : Except Thrown Unit :=
  if bad then invalidResult message else .ok ()

/-- `json.loads(content)`, and `json.dumps(result, allow_nan=False)` of what it returns. -/
def decodeResult (content : List UInt8) : Except Thrown Json :=
  match (do let v ← py.loads content; let _ ← py.dumps v; return v : Except Raised Json) with
  | .ok v => .ok v
  | .error .value => invalidResult "text result must be finite JSON"
  | .error .other => .error .other

/-- What `process` returns. -/
def returned (job : Job) (v : Json) : Json :=
  .obj [("model", .str job.model.name), ("operation", .str job.operation.name), ("result", v)]

/-- `process`, after its last `_check`. -/
def result (job : Job) (content : List UInt8) : Except Thrown Json := do
  discard (maxResult < content.length) "text result exceeds 8 MiB"
  let v ← decodeResult py content
  discard (!v.isDict) "text result must be an object"
  discard (job.operation = .retrieve && field v "model" ≠ field job.payload "pipeline_version")
    "Vast text service returned a different model version"
  discard (job.model = .text && field v "model" ≠ .str Model.text.name)
    "Vast text service returned a different model version"
  return returned job v

/-- A content whose value is returned. -/
structure Accepted (job : Job) (content : List UInt8) (v : Json) : Prop where
  size : content.length ≤ maxResult
  loads : py.loads content = .ok v
  finite : v.finite = true
  limit : py.limit v = none
  isDict : v.isDict = true
  retrieve : job.operation = .retrieve → field v "model" = field job.payload "pipeline_version"
  text : job.model = .text → field v "model" = .str Model.text.name

/-! ### What the checks let through -/

theorem refuse_eq_ok {bad : Bool} {message : String} {u : Unit} :
    refuse bad message = .ok u ↔ bad = false := by
  cases bad <;> simp [refuse, invalidSpec]

theorem discard_eq_ok {bad : Bool} {message : String} {u : Unit} :
    discard bad message = .ok u ↔ bad = false := by
  cases bad <;> simp [discard, invalidResult]

theorem demand_eq_ok {α : Type} {found : Option α} {message : String} {a : α} :
    demand found message = .ok a ↔ found = some a := by
  cases found <;> simp [demand, invalidSpec]

theorem modelOf_eq_some {v : Json} {m : Model} : modelOf v = some m ↔ v = .str m.name := by
  constructor
  · intro h
    simpa using List.find?_some h
  · rintro rfl
    cases m <;> decide

theorem operationOf_eq_some {v : Json} {op : Operation} :
    operationOf v = some op ↔ v = .str op.name := by
  constructor
  · intro h
    simpa using List.find?_some h
  · rintro rfl
    cases op <;> decide

theorem anchored_iff {payload : Json} : anchored payload = true ↔
    ∀ key ∈ anchorFields, ∃ s, payload.get? key = some (.str s) ∧ s ≠ "" := by
  rw [anchored, List.all_eq_true]
  refine forall₂_congr fun key _ => ?_
  constructor
  · intro h
    split at h
    next s hs => exact ⟨s, hs, by simpa using h⟩
    next => cases h
  · rintro ⟨s, hs, hne⟩
    rw [hs]
    simpa using hne

theorem similar_iff {payload : Json} :
    similar payload = true ↔ payload.get? "operation" = some (.str "retrieve_similar") := by
  rw [similar, decide_eq_true_eq]

theorem checkRetrieval_eq_ok {operation : Operation} {model : Model} {payload : Json} {u : Unit} :
    checkRetrieval operation model payload = .ok u ↔
      (operation = .retrieve → Retrieval model payload) := by
  simp only [checkRetrieval, bind_eq_ok, refuse_eq_ok]
  constructor
  · rintro ⟨_, hpipeline, _, hengine, _, hanchor, hordinary⟩ rfl
    simp only [decide_true, Bool.true_and] at hpipeline hengine hanchor hordinary
    refine ⟨by simpa using hpipeline, ?_, ?_, ?_⟩
    · rw [Bool.and_eq_false_iff, decide_eq_false_iff_not, decide_eq_false_iff_not] at hengine
      exact hengine.imp not_not.mp not_not.mp
    · rintro rfl
      simp only [decide_true, Bool.true_and, Bool.or_eq_false_iff, Bool.not_eq_false'] at hanchor
      exact ⟨similar_iff.mp hanchor.1, anchored_iff.mp hanchor.2⟩
    · rintro rfl hsimilar
      rw [similar_iff.mpr hsimilar] at hordinary
      cases hordinary
  · intro h
    cases operation with
    | rerank => exact ⟨(), rfl, (), rfl, (), rfl, rfl⟩
    | retrieve =>
      have h := h rfl
      simp only [decide_true, Bool.true_and]
      refine ⟨(), by simpa using h.pipeline, (), ?_, (), ?_, ?_⟩
      · rcases h.engine with he | he <;> simp [he]
      · cases model with
        | text => rfl
        | refinement =>
          obtain ⟨hsimilar, hanchored⟩ := h.anchor rfl
          rw [similar_iff.mpr hsimilar, anchored_iff.mpr hanchored]
          rfl
      · cases model with
        | text =>
          have hsimilar : similar payload = false := by
            rw [← Bool.not_eq_true]
            exact fun hs => h.ordinary rfl (similar_iff.mp hs)
          rw [hsimilar]
          rfl
        | refinement => rfl

theorem encodePayload_eq_ok {payload : Json} {body : List UInt8} :
    encodePayload py payload = .ok body ↔ py.dumps payload = .ok body := by
  unfold encodePayload
  cases py.dumps payload with
  | ok b => simp
  | error x => cases x <;> simp [invalidSpec]

variable {py} in
/-- A value that `json.dumps` prints is finite. -/
theorem dumps_eq_ok {v : Json} {body : List UInt8} :
    py.dumps v = .ok body ↔ py.limit v = none ∧ v.finite = true ∧ body = Json.dumpsBytes v := by
  unfold Interpreter.dumps
  split
  next x hx => simp [hx]
  next hx =>
    split
    next hf => simp [hx, hf, eq_comm]
    next hf => simp [hf]

/-- **The checks before the slot.** -/
theorem envelope_ok_iff {data : Json} {job : Job} :
    envelope w py data = .ok job ↔ Pinned w py data job := by
  obtain ⟨model, operation, payload, origin, body⟩ := job
  simp only [envelope, bind_eq_ok, demand_eq_ok, refuse_eq_ok, encodePayload_eq_ok,
    checkRetrieval_eq_ok]
  constructor
  · rintro ⟨m, hmodel, _, hkind, o, horigin, op, hop, _, hretrieval, b, hbody, _, hsize, hjob⟩
    cases hjob
    have hkeys : keysAre envelopeFields data = true := by
      by_contra hkeys
      rw [if_neg hkeys] at hmodel
      cases hmodel
    have hdict : (field data "payload").isDict = true := by
      by_contra hdict
      rw [if_neg hdict] at hop
      cases hop
    rw [if_pos hkeys, modelOf_eq_some] at hmodel
    rw [if_pos hdict, operationOf_eq_some] at hop
    refine ⟨hkeys, hmodel, by simpa using hkind, horigin, hop, rfl, hdict, hretrieval, hbody,
      by simpa using hsize⟩
  · intro h
    obtain rfl := h.payload
    refine ⟨model, ?_, (), by simpa using h.kind, origin, h.origin, operation, ?_, (),
      h.retrieval, body, h.body, (), by simpa using h.size, rfl⟩
    · rw [if_pos h.keys, modelOf_eq_some]
      exact h.model
    · rw [if_pos h.isDict, operationOf_eq_some]
      exact h.operation

theorem decodeResult_eq_ok {content : List UInt8} {v : Json} : decodeResult py content = .ok v ↔
    py.loads content = .ok v ∧ py.limit v = none ∧ v.finite = true := by
  have hread : (do let v ← py.loads content; let _ ← py.dumps v; return v : Except Raised Json) =
      .ok v ↔ py.loads content = .ok v ∧ py.limit v = none ∧ v.finite = true := by
    simp only [bind_eq_ok, dumps_eq_ok]
    constructor
    · rintro ⟨u, hu, _, ⟨hlimit, hfinite, -⟩, hv⟩
      cases hv
      exact ⟨hu, hlimit, hfinite⟩
    · rintro ⟨hu, hlimit, hfinite⟩
      exact ⟨v, hu, _, ⟨hlimit, hfinite, rfl⟩, rfl⟩
  rw [← hread]
  unfold decodeResult
  cases (do let v ← py.loads content; let _ ← py.dumps v; return v : Except Raised Json) with
  | ok u => simp
  | error x => cases x <;> simp [invalidResult]

/-- **The checks on an answer.** -/
theorem result_ok_iff {job : Job} {content : List UInt8} {r : Json} :
    result py job content = .ok r ↔ ∃ v, r = returned job v ∧ Accepted py job content v := by
  simp only [result, bind_eq_ok, discard_eq_ok, decodeResult_eq_ok]
  constructor
  · rintro ⟨_, hsize, v, ⟨hloads, hlimit, hfinite⟩, _, hdict, _, hretrieve, _, htext, hr⟩
    cases hr
    refine ⟨v, rfl, by simpa using hsize, hloads, hfinite, hlimit, by simpa using hdict, fun hop => ?_,
      fun hm => ?_⟩
    · simpa [hop] using hretrieve
    · simpa [hm] using htext
  · rintro ⟨v, rfl, h⟩
    refine ⟨(), by simpa using h.size, v, ⟨h.loads, h.limit, h.finite⟩, (), by simpa using h.isDict, (),
      ?_, (), ?_, rfl⟩
    · by_cases hop : job.operation = .retrieve
      · simp [hop, h.retrieve hop]
      · simp [hop]
    · by_cases hm : job.model = .text
      · simp [hm, h.text hm]
      · simp [hm]

end Inference.Text
