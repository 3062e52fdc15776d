import Inference.Text.Envelope

/-!
# Inference.Text.Gateway — `text_task` of `system/api_server.py` against the text worker

The gateway checks the body of a request to `/text/tasks`, and the worker checks the task again
after `json.dumps` and `json.loads`.

* `Body.gateway`: the validation of `TextTaskRequest` and the checks up to the queue.
* `Body.adapter`: the wire, then `envelope`.
* `wire_inputData`: the task data arrives as it was sent.
* **`Body.adapter_accepts_iff`**: the worker lets through what the gateway lets through, when it has
  an origin for the model and a retrieval names its engine.
-/

namespace Inference.Text

open Inference.V73 (field bind_eq_ok)

/-! ### The gateway -/

/-- How a request ends before it reaches the queue. -/
inductive Refusal where
  /-- the body is no `TextTaskRequest` -/
  | validation
  /-- `raise HTTPException(status_code=status, detail=detail)` -/
  | http (status : ℕ) (detail : String)
  /-- an exception that `text_task` does not name -/
  | other
deriving DecidableEq, Repr

structure TextTaskRequest where
  model : Model
  operation : Operation
  payload : Json
  isDict : payload.isDict = true

/-- What `text_task` puts into the queue. -/
structure Submission where
  inputData : Json
  /-- the seconds from now to the deadline -/
  budget : ℕ
deriving DecidableEq, Repr

/-- `if bad: raise HTTPException(status_code=status, detail=detail)` -/
def deny (bad : Bool) (status : ℕ) (detail : String) : Except Refusal Unit :=
  if bad then .error (.http status detail) else .ok ()

/-- `len(encoded)` may be this much. -/
def maxEncoded : ℕ := 256 * 1024

/-- The kind of a task for this model. -/
def kindFor (model : Json) : String :=
  if model = .str "text_v1.2_refinement" then "synthx_text_refinement" else "synthx_text_v123"

/-- `{"kind": kind, **body.model_dump()}` -/
def inputData (model operation payload : Json) : Json :=
  .obj [("kind", .str (kindFor model)), ("model", model), ("operation", operation),
    ("payload", payload)]

section
variable (py : Interpreter)

/-- `encoded` -/
def encoded (payload : Json) : Except Refusal (List UInt8) :=
  match py.dumps payload with
  | .ok bytes => .ok bytes
  | .error .value => .error (.http 422 "payload must be finite JSON")
  | .error .other => .error .other

/-- `text_task`, up to `_task_queue.put`. -/
def textTask (body : TextTaskRequest) : Except Refusal Submission := do
  let bytes ← encoded py body.payload
  deny (maxEncoded < bytes.length) 413 "text payload exceeds 256 KiB"
  deny (body.operation = .retrieve &&
      body.payload.get? "pipeline_version" ≠ some (.str body.model.name)) 422
    "retrieval version does not match worker"
  deny (body.operation = .retrieve && body.model = .refinement &&
      (body.payload.get? "operation" ≠ some (.str "retrieve_similar") || !anchored body.payload)) 422
    "MFCC refinement requires a verified bank anchor"
  deny (body.operation = .retrieve && body.model = .text &&
      body.payload.get? "operation" = some (.str "retrieve_similar")) 422
    "anchor retrieval requires the refinement pipeline"
  return { inputData := inputData (.str body.model.name) (.str body.operation.name) body.payload,
           budget := if body.operation = .retrieve then 600 else 180 }

end

/-- The three fields of a request body, with any Python values; `repr` is that of floats. -/
structure Body (repr : String → String) where
  model : Json
  operation : Json
  payload : Json
  proper : ∀ v ∈ [model, operation, payload], v.proper repr = true

variable {repr : String → String} (b : Body repr) (w : TextWorker) (py : Interpreter)

namespace Body

/-- The validation of `TextTaskRequest`. -/
def validate : Except Refusal TextTaskRequest :=
  match modelOf b.model, operationOf b.operation with
  | some model, some operation =>
    if h : b.payload.isDict = true then .ok ⟨model, operation, b.payload, h⟩
    else .error .validation
  | _, _ => .error .validation

def gateway : Except Refusal Submission := b.validate >>= textTask py

/-- The task data of this body. -/
def inputData : Json := Text.inputData b.model b.operation b.payload

end Body

/-! ### The wire and the worker -/

/-- `json.loads(json.dumps(data))`; a limit of the interpreter may stop it. -/
def wire (repr : String → String) (data : Json) : Except Raised Json :=
  match py.limit data with
  | some x => .error x
  | none =>
    (Json.loads repr (String.ofList (Json.print Json.defaultStyle data))).elim (.error .value) .ok

/-- `payload` of `_process_backend`. -/
def received (repr : String → String) (data : Json) : Except Thrown Json :=
  match wire py repr data with
  | .ok v => .ok v
  | .error .value => invalidSpec "input_json must be valid JSON"
  | .error .other => .error .other

/-- What the worker makes of this body, had the gateway sent it. -/
def Body.adapter : Except Thrown Job := received py repr b.inputData >>= envelope w py

/-! ### What the gateway lets through -/

/-- A retrieval that the gateway lets through. -/
structure Admissible (model : Model) (payload : Json) : Prop where
  pipeline : payload.get? "pipeline_version" = some (.str model.name)
  anchor : model = .refinement → payload.get? "operation" = some (.str "retrieve_similar") ∧
    ∀ key ∈ anchorFields, ∃ s, payload.get? key = some (.str s) ∧ s ≠ ""
  ordinary : model = .text → payload.get? "operation" ≠ some (.str "retrieve_similar")

/-- The worker asks for the engine too. -/
theorem retrieval_iff {model : Model} {payload : Json} :
    Retrieval model payload ↔ Admissible model payload ∧
      (payload.get? "target_engine" = some (.str "vital") ∨
        payload.get? "target_engine" = some (.str "serum2")) :=
  ⟨fun h => ⟨⟨h.pipeline, h.anchor, h.ordinary⟩, h.engine⟩,
    fun ⟨h, hengine⟩ => ⟨h.pipeline, hengine, h.anchor, h.ordinary⟩⟩

theorem deny_eq_ok {bad : Bool} {status : ℕ} {detail : String} {u : Unit} :
    deny bad status detail = .ok u ↔ bad = false := by
  cases bad <;> simp [deny]

theorem encoded_eq_ok {payload : Json} {bytes : List UInt8} :
    encoded py payload = .ok bytes ↔ py.dumps payload = .ok bytes := by
  unfold encoded
  cases py.dumps payload with
  | ok b => simp
  | error x => cases x <;> simp

/-- The three checks on a retrieval. -/
theorem admissible_iff {operation : Operation} {model : Model} {payload : Json} :
    (operation = .retrieve → Admissible model payload) ↔
      (decide (operation = .retrieve) &&
        decide (payload.get? "pipeline_version" ≠ some (.str model.name))) = false ∧
      (decide (operation = .retrieve) && decide (model = .refinement) &&
        (decide (payload.get? "operation" ≠ some (.str "retrieve_similar")) ||
          !anchored payload)) = false ∧
      (decide (operation = .retrieve) && decide (model = .text) &&
        decide (payload.get? "operation" = some (.str "retrieve_similar"))) = false := by
  cases operation with
  | rerank => simp
  | retrieve =>
    simp only [decide_true, Bool.true_and, true_implies]
    constructor
    · intro h
      refine ⟨by simpa using h.pipeline, ?_, ?_⟩
      · cases model with
        | text => rfl
        | refinement =>
          obtain ⟨hsimilar, hanchored⟩ := h.anchor rfl
          rw [hsimilar, anchored_iff.mpr hanchored]
          rfl
      · cases model with
        | text => simpa using h.ordinary rfl
        | refinement => rfl
    · rintro ⟨hpipeline, hanchor, hordinary⟩
      refine ⟨by simpa using hpipeline, ?_, ?_⟩
      · rintro rfl
        simp only [decide_true, Bool.true_and, Bool.or_eq_false_iff, Bool.not_eq_false'] at hanchor
        exact ⟨by simpa using hanchor.1, anchored_iff.mp hanchor.2⟩
      · rintro rfl
        simpa using hordinary

/-- **The checks of `text_task`.** -/
theorem textTask_ok_iff {body : TextTaskRequest} :
    (∃ q, textTask py body = .ok q) ↔
      (body.operation = .retrieve → Admissible body.model body.payload) ∧
      ∃ bytes, py.dumps body.payload = .ok bytes ∧ bytes.length ≤ maxEncoded := by
  simp only [textTask, bind_eq_ok, deny_eq_ok, encoded_eq_ok, admissible_iff]
  constructor
  · rintro ⟨q, bytes, hbytes, _, hsize, _, hpipeline, _, hanchor, _, hordinary, -⟩
    exact ⟨⟨hpipeline, hanchor, hordinary⟩, bytes, hbytes, by simpa using hsize⟩
  · rintro ⟨⟨hpipeline, hanchor, hordinary⟩, bytes, hbytes, hsize⟩
    exact ⟨_, bytes, hbytes, (), by simpa using hsize, (), hpipeline, (), hanchor, (), hordinary,
      rfl⟩

theorem Body.validate_eq_ok {body : TextTaskRequest} : b.validate = .ok body ↔
    b.model = .str body.model.name ∧ b.operation = .str body.operation.name ∧
      b.payload = body.payload := by
  obtain ⟨model, operation, payload, hdict⟩ := body
  rw [← modelOf_eq_some, ← operationOf_eq_some, validate]
  constructor
  · intro h
    split at h
    next m op hm hop =>
      split at h
      · cases h
        exact ⟨hm, hop, rfl⟩
      · cases h
    next => cases h
  · rintro ⟨hm, hop, rfl⟩
    simp only [hm, hop, dif_pos hdict]

/-- **What the gateway lets through.** -/
theorem Body.gateway_ok_iff : (∃ q, b.gateway py = .ok q) ↔
    ∃ m op, b.model = .str (Model.name m) ∧ b.operation = .str (Operation.name op) ∧
      b.payload.isDict = true ∧ (op = .retrieve → Admissible m b.payload) ∧
      ∃ bytes, py.dumps b.payload = .ok bytes ∧ bytes.length ≤ maxEncoded := by
  constructor
  · rintro ⟨q, hq⟩
    obtain ⟨body, hbody, hq⟩ := bind_eq_ok.mp hq
    obtain ⟨hm, hop, hpayload⟩ := b.validate_eq_ok.mp hbody
    obtain ⟨hadmissible, hsize⟩ := (textTask_ok_iff py).mp ⟨q, hq⟩
    rw [hpayload]
    exact ⟨body.model, body.operation, hm, hop, body.isDict, hadmissible, hsize⟩
  · rintro ⟨m, op, hm, hop, hdict, hadmissible, hsize⟩
    have hok : ∃ q, textTask py ⟨m, op, b.payload, hdict⟩ = .ok q :=
      (textTask_ok_iff py).mpr ⟨hadmissible, hsize⟩
    obtain ⟨q, hq⟩ := hok
    exact ⟨q, bind_eq_ok.mpr ⟨⟨m, op, b.payload, hdict⟩, b.validate_eq_ok.mpr ⟨hm, hop, rfl⟩, hq⟩⟩

/-- What the gateway queues is the task data of the body. -/
theorem Body.gateway_inputData {q : Submission} (hq : b.gateway py = .ok q) :
    q.inputData = b.inputData := by
  obtain ⟨body, hbody, hq⟩ := bind_eq_ok.mp hq
  obtain ⟨hm, hop, hpayload⟩ := b.validate_eq_ok.mp hbody
  simp only [textTask, bind_eq_ok] at hq
  obtain ⟨_, _, _, _, _, _, _, _, _, _, hq⟩ := hq
  rw [Body.inputData, hm, hop, hpayload, ← Except.ok.inj hq]

/-! ### What the worker lets through -/

theorem Body.proper_inputData : b.inputData.proper repr = true := by
  have hproper := b.proper
  simp only [List.forall_mem_cons] at hproper
  obtain ⟨hm, hop, hpayload, -⟩ := hproper
  rw [Body.inputData, Text.inputData, Json.proper]
  simp [Json.properFields, Json.proper, hm, hop, hpayload]

/-- **The task data arrives as it was sent.** -/
theorem wire_inputData (hlimit : py.limit b.inputData = none) :
    wire py repr b.inputData = .ok b.inputData := by
  rw [wire, hlimit]
  simp only [Json.loads_print_proper Json.defaultStyle repr b.proper_inputData, Option.elim_some]

theorem Body.adapter_eq (hlimit : py.limit b.inputData = none) :
    b.adapter w py = envelope w py b.inputData := by
  rw [Body.adapter, received, wire_inputData b py hlimit]
  rfl

theorem Model.name_injective : Function.Injective Model.name := by
  intro m m' h
  cases m <;> cases m' <;> first | rfl | exact absurd h (by decide)

theorem Operation.name_injective : Function.Injective Operation.name := by
  intro op op' h
  cases op <;> cases op' <;> first | rfl | exact absurd h (by decide)

/-- Gateway and worker have the same kind for each model. -/
theorem kindFor_name (m : Model) : kindFor (.str m.name) = m.kind := by
  cases m <;> decide

/-- The job that the task data of a body is. -/
theorem Body.pinned_iff {job : Job} : Pinned w py b.inputData job ↔
    b.model = .str job.model.name ∧ b.operation = .str job.operation.name ∧
      b.payload = job.payload ∧ w.serviceUrl job.model = some job.origin ∧
      b.payload.isDict = true ∧ (job.operation = .retrieve → Retrieval job.model b.payload) ∧
      py.dumps b.payload = .ok job.body ∧ job.body.length ≤ maxEncoded := by
  have hkind : field b.inputData "kind" = .str (kindFor b.model) := rfl
  have hmodel : field b.inputData "model" = b.model := rfl
  have hoperation : field b.inputData "operation" = b.operation := rfl
  have hpayload : field b.inputData "payload" = b.payload := rfl
  constructor
  · intro h
    have hp : b.payload = job.payload := h.payload
    rw [hp]
    exact ⟨h.model, h.operation, rfl, h.origin, h.isDict, h.retrieval, h.body, h.size⟩
  · rintro ⟨hm, hop, hp, horigin, hdict, hretrieval, hbody, hsize⟩
    rw [hp] at hdict hretrieval hbody
    refine ⟨rfl, hmodel.trans hm, ?_, horigin, hoperation.trans hop, hpayload.trans hp, hdict,
      hretrieval, hbody, hsize⟩
    rw [hkind, hm, kindFor_name]

/-- **Gateway and worker agree.**  Where no limit of the interpreter stops the wire, the worker lets a
body through exactly when the gateway does, the worker has an origin for its model, and a retrieval
names an engine that there is.  Both then measured the same bytes, and the kinds are the same. -/
theorem Body.adapter_accepts_iff (hlimit : py.limit b.inputData = none) :
    ((∃ job, b.adapter w py = .ok job) ↔
      (∃ q, b.gateway py = .ok q) ∧
      (∃ m, b.model = .str (Model.name m) ∧ (w.serviceUrl m).isSome = true) ∧
      (b.operation = .str "retrieve" → b.payload.get? "target_engine" = some (.str "vital") ∨
        b.payload.get? "target_engine" = some (.str "serum2"))) ∧
    ∀ job, b.adapter w py = .ok job →
      encoded py b.payload = .ok job.body ∧ job.body.length ≤ maxEncoded ∧
      kindFor b.model = job.model.kind := by
  rw [b.adapter_eq w py hlimit]
  simp only [envelope_ok_iff, b.pinned_iff w py, b.gateway_ok_iff py]
  refine ⟨⟨?_, ?_⟩, ?_⟩
  · rintro ⟨job, hm, hop, -, horigin, hdict, hretrieval, hbody, hsize⟩
    refine ⟨⟨job.model, job.operation, hm, hop, hdict, fun h => ?_, job.body, hbody, hsize⟩,
      ⟨job.model, hm, by rw [horigin]; rfl⟩, fun hretrieve => ?_⟩
    · exact (retrieval_iff.mp (hretrieval h)).1
    · have h : job.operation = .retrieve := by
        rw [hop] at hretrieve
        exact Operation.name_injective (Json.str.inj hretrieve)
      exact (retrieval_iff.mp (hretrieval h)).2
  · rintro ⟨⟨m, op, hm, hop, hdict, hadmissible, bytes, hbytes, hsize⟩, ⟨m', hm', horigin⟩, hengine⟩
    obtain rfl : m' = m := by
      rw [hm] at hm'
      exact Model.name_injective (Json.str.inj hm').symm
    obtain ⟨origin, horigin⟩ := Option.isSome_iff_exists.mp horigin
    refine ⟨⟨m', op, b.payload, origin, bytes⟩, hm, hop, rfl, horigin, hdict, fun h => ?_, hbytes,
      hsize⟩
    obtain rfl : op = .retrieve := h
    exact retrieval_iff.mpr ⟨hadmissible rfl, hengine hop⟩
  · rintro job ⟨hm, -, -, -, -, -, hbody, hsize⟩
    exact ⟨(encoded_eq_ok py).mpr hbody, hsize, by rw [hm, kindFor_name]⟩

/-- A retrieval with a float in it. -/
def softPad : Body id where
  model := .str "text_v1.2.3"
  operation := .str "retrieve"
  payload := .obj [("pipeline_version", .str "text_v1.2.3"), ("target_engine", .str "serum2"),
    ("diversity", .float "0.25")]
  proper := by decide

def plainInterpreter : Interpreter where
  loads content := (Json.loadsBytes id content).elim (.error .value) .ok
  limit _ := none

theorem softPad_accepted : ∃ job,
    softPad.adapter ⟨⟨"http", "vast-tunnel", 18083⟩, none⟩ plainInterpreter = .ok job := by
  have hgateway : (softPad.gateway plainInterpreter).toBool = true := by decide +kernel
  obtain ⟨q, hq⟩ : ∃ q, softPad.gateway plainInterpreter = .ok q := by
    cases h : softPad.gateway plainInterpreter with
    | ok q => exact ⟨q, rfl⟩
    | error x =>
      rw [h] at hgateway
      cases hgateway
  exact (softPad.adapter_accepts_iff ⟨⟨"http", "vast-tunnel", 18083⟩, none⟩ plainInterpreter rfl).1.mpr
    ⟨⟨q, hq⟩, ⟨.text, rfl, rfl⟩, fun _ => .inr (by decide)⟩

end Inference.Text
