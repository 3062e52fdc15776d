import Inference.Lib.Dict
import Inference.Lib.Exclusive
import Inference.Lib.Run
import Inference.Text.Envelope

/-!
# Inference.Text.SingleFlight — `TextWorker.process` of `system/worker_text.py`

Any number of overlapping calls of `process`, statement by statement, with one slot between them.
Upstream answers each request as it likes; `urlopen` follows a redirection, of a `POST` too, with a
`GET` to wherever the answer points.  A call may be cancelled at any time, and any statement but
the last may raise what no clause of `process` names.

* `Sys.step`: the machine; the clock never goes back.
* `Call.Good`: what is known of a call at each of its statements.
* **`safe_iff`**: one request in flight, the slot free when nobody is inside, no request before the
  checks, a genuine result, and only the pinned origin, exactly when no answer redirects elsewhere.
-/

namespace Inference.Text

open Inference.Lib
open Inference.V73 (field)

/-- A `deadline`, which is a `float`. -/
inductive Deadline where
  | notFinite
  | finite (t : ℚ)
deriving DecidableEq, Repr

/-- `not math.isfinite(deadline) or time.monotonic() >= deadline` -/
def Deadline.passed (now : ℚ) : Deadline → Bool
  | notFinite => true
  | finite t => t ≤ now

/-- `_check`, where the context is `None` or active or not. -/
def check (now : ℚ) (context : Option Bool) (deadline : Option Deadline) : Except Thrown Unit :=
  if deadline.any (Deadline.passed now) then
    .error (.worker .deadlineExceeded "text task deadline exceeded")
  else if context = some false then .error (.worker .cancelled "text task caller disconnected")
  else .ok ()

/-- A URL that is split in its origin and the rest. -/
structure Url where
  origin : Origin
  target : String
deriving DecidableEq, Repr

inductive Method where
  | get | post
deriving DecidableEq, Repr

/-- An HTTP request. -/
structure Request where
  url : Url
  method : Method
  body : Option (List UInt8)
  timeout : ℚ
deriving DecidableEq, Repr

/-- `timeout` -/
def timeout (operation : Operation) (now : ℚ) (deadline : Option Deadline) : ℚ :=
  let longest := match operation with
    | .retrieve => 600
    | .rerank => 180
  match deadline with
  | some (.finite t) => min longest (max (1 / 1000) (t - now))
  | _ => longest

def Job.request (job : Job) (timeout : ℚ) : Request where
  url := ⟨job.origin, job.operation.route⟩
  method := .post
  body := some job.body
  timeout := timeout

/-- What a statement that waits for upstream meets; at the others `unexpected` is an exception that
no clause names. -/
inductive Answer where
  | none
  /-- the status, and the URL that the `Location` header resolves to -/
  | response (status : ℕ) (location : Option Url)
  /-- the body of the response -/
  | content (body : List UInt8)
  /-- a `TimeoutError`, or a `URLError` with such a reason -/
  | timedOut
  /-- another `URLError`, `OSError` or `HTTPException` -/
  | failed
  | unexpected
deriving DecidableEq, Repr

/-- The URLs that a request has been redirected to, counted. -/
abbrev Visited := List (Url × ℕ)

/-- `HTTPRedirectHandler`: the request that an answer is followed with. -/
def redirect (req : Request) (visited : Visited) (status : ℕ) (location : Option Url) :
    Option (Request × Visited) :=
  location.bind fun url =>
    let seen := (Dict.get? url visited).getD 0
    if (status ∈ [301, 302, 303] ∨ status ∈ [307, 308] ∧ req.method = .get) ∧
        url.origin.scheme ∈ ["http", "https", "ftp"] ∧ seen < 4 ∧ visited.length < 10 then
      some ({ req with url := url, method := .get, body := Option.none },
        Dict.set url (seen + 1) visited)
    else Option.none

/-- `except urllib.error.HTTPError` -/
def httpError (status : ℕ) : Thrown :=
  .worker
    (if status ∈ [400, 404, 422] then .invalidSpec
      else if status ∈ [429, 503] then .overloaded else .workerError)
    ("Vast text service returned HTTP " ++ toString status)

/-- The clause after it. -/
def transportError (timedOut : Bool) : Thrown :=
  .worker (if timedOut then .deadlineExceeded else .transportError) "Vast text service request failed"

/-- Program points of `process`. -/
inductive Pc where
  /-- `self._check(context, deadline)` -/
  | start
  /-- the checks of the envelope -/
  | envelope
  /-- `self._slot.acquire(blocking=False)` -/
  | acquire (job : Job)
  /-- `self._check(context, deadline)` -/
  | check (job : Job)
  /-- `urllib.request.urlopen(request, timeout=timeout)` -/
  | send (job : Job)
  | waiting (job : Job) (req : Request) (visited : Visited)
  /-- `content = response.read(MAX_RESULT + 1)` -/
  | reading (job : Job)
  /-- `self._check(context, deadline)` -/
  | verify (job : Job) (content : List UInt8)
  /-- the checks of the content -/
  | parse (job : Job) (content : List UInt8)
  /-- `self._slot.release()` -/
  | leaving (outcome : Except Thrown Json)
  | done (outcome : Except Thrown Json)

namespace Pc

def job : Pc → Option Job
  | acquire job | check job | send job | waiting job _ _ | reading job | verify job _
  | parse job _ => some job
  | _ => Option.none

/-- The call is between acquiring the slot and releasing it. -/
def holds : Pc → Bool
  | check _ | send _ | waiting _ _ _ | reading _ | verify _ _ | parse _ _ | leaving _ => true
  | _ => false

/-- The request has been sent and its response is not complete. -/
def inFlight : Pc → Bool
  | waiting _ _ _ | reading _ => true
  | _ => false

/-- The call has passed the check inside the slot. -/
def checked : Pc → Bool
  | send _ | waiting _ _ _ | reading _ | verify _ _ | parse _ _ => true
  | _ => false

def content : Pc → Option (List UInt8)
  | verify _ content | parse _ content => some content
  | _ => Option.none

def outcome : Pc → Option (Except Thrown Json)
  | leaving outcome | done outcome => some outcome
  | _ => Option.none

end Pc

/-- A call of `process`; `took` is when it took the slot and its context then, `sent` the requests
it has sent and `received` the body of its response. -/
structure Call where
  data : Json
  context : Option Bool
  deadline : Option Deadline
  pc : Pc
  took : Option (ℚ × Option Bool)
  sent : List Request
  received : Option (List UInt8)

structure Sys where
  slot : Bool
  now : ℚ
  calls : List Call

inductive Event where
  | call (data : Json) (context : Option Bool) (deadline : Option Deadline)
  /-- the caller of a call disconnects -/
  | cancel (i : ℕ)
  | tick (t : ℚ)
  /-- a call executes its next statement -/
  | run (i : ℕ) (answer : Answer)

namespace Call

variable (w : TextWorker) (py : Interpreter)

/-- The call goes to `pc`. -/
def goto (c : Call) (pc : Pc) : Call := { c with pc := pc }

/-- Inside the `try` block an exception goes through `finally`. -/
def raise (c : Call) (e : Thrown) : Call := c.goto (.leaving (.error e))

/-- The call sends a request and waits. -/
def request (c : Call) (job : Job) (req : Request) (visited : Visited) : Call :=
  { c with pc := .waiting job req visited, sent := req :: c.sent }

/-- `urlopen` has an answer. -/
def answered (c : Call) (job : Job) (req : Request) (visited : Visited) : Answer → Option Call
  | .response status location =>
    some (if 200 ≤ status ∧ status < 300 then c.goto (.reading job)
      else match redirect req visited status location with
        | some (next, visited) => c.request job next visited
        | none => c.raise (httpError status))
  | .timedOut => some (c.raise (transportError true))
  | .failed => some (c.raise (transportError false))
  | .unexpected => some (c.raise .other)
  | .none | .content _ => none

/-- `response.read` has an answer. -/
def readBody (c : Call) (job : Job) : Answer → Option Call
  | .content body =>
    some { c with pc := .verify job (body.take (maxResult + 1)), received := some body }
  | .timedOut => some (c.raise (transportError true))
  | .failed => some (c.raise (transportError false))
  | .unexpected => some (c.raise .other)
  | .none | .response _ _ => none

/-- The next statement of the call, and the slot after it. -/
def advance (now : ℚ) (slot : Bool) (answer : Answer) (c : Call) : Option (Call × Bool) :=
  match c.pc with
  | .start =>
    if answer = .unexpected then some (c.goto (.done (.error .other)), slot)
    else match Text.check now c.context c.deadline with
      | .error e => some (c.goto (.done (.error e)), slot)
      | .ok _ => some (c.goto .envelope, slot)
  | .envelope =>
    if answer = .unexpected then some (c.goto (.done (.error .other)), slot)
    else match Text.envelope w py c.data with
      | .error e => some (c.goto (.done (.error e)), slot)
      | .ok job => some (c.goto (.acquire job), slot)
  | .acquire job =>
    if slot then some (c.goto (.done (.error (.worker .busy "text worker is busy"))), slot)
    else some ({ c with pc := .check job, took := some (now, c.context) }, true)
  | .check job =>
    if answer = .unexpected then some (c.raise .other, slot)
    else match Text.check now c.context c.deadline with
      | .error e => some (c.raise e, slot)
      | .ok _ => some (c.goto (.send job), slot)
  | .send job =>
    if answer = .unexpected then some (c.raise .other, slot)
    else some (c.request job (job.request (timeout job.operation now c.deadline)) [], slot)
  | .waiting job req visited => (c.answered job req visited answer).map fun c => (c, slot)
  | .reading job => (c.readBody job answer).map fun c => (c, slot)
  | .verify job content =>
    if answer = .unexpected then some (c.raise .other, slot)
    else match Text.check now c.context c.deadline with
      | .error e => some (c.raise e, slot)
      | .ok _ => some (c.goto (.parse job content), slot)
  | .parse job content =>
    if answer = .unexpected then some (c.raise .other, slot)
    else some (c.goto (.leaving (result py job content)), slot)
  | .leaving outcome => some (c.goto (.done outcome), false)
  | .done _ => none

end Call

namespace Sys

variable (w : TextWorker) (py : Interpreter)

def step (s : Sys) : Event → Option Sys
  | .call data context deadline => some { s with
      calls := s.calls ++ [⟨data, context, deadline, .start, none, [], none⟩] }
  | .cancel i => s.calls[i]?.map fun c =>
      { s with calls := s.calls.set i { c with context := c.context.map fun _ => false } }
  | .tick t => if s.now ≤ t then some { s with now := t } else none
  | .run i answer => s.calls[i]?.bind fun c =>
      (c.advance w py s.now s.slot answer).map fun r =>
        { s with calls := s.calls.set i r.1, slot := r.2 }

/-- Nobody has called yet. -/
structure Init (s : Sys) : Prop where
  slot : s.slot = false
  calls : s.calls = []

end Sys

/-! ## What is promised -/

/-- Unexpired and active. -/
def Fresh (t : ℚ) (context : Option Bool) (deadline : Option Deadline) : Prop :=
  (∀ d ∈ deadline, d.passed t = false) ∧ context ≠ some false

/-- A value that a call may return. -/
structure Genuine (w : TextWorker) (py : Interpreter) (c : Call) (r : Json) : Prop where
  pinned : ∃ job, Pinned w py c.data job
  value : ∃ body v, c.received = some body ∧ body.length ≤ maxResult ∧ py.loads body = .ok v ∧
    v.isDict = true ∧ v.finite = true ∧
    r = .obj [("model", field c.data "model"), ("operation", field c.data "operation"),
      ("result", v)] ∧
    (field c.data "operation" = .str "retrieve" ∨ field c.data "model" = .str "text_v1.2.3" →
      field v "model" = field c.data "model")

/-- The task passed every check, and was unexpired and active when the call took the slot. -/
def Gated (w : TextWorker) (py : Interpreter) (c : Call) : Prop :=
  (∃ job, Pinned w py c.data job) ∧
    ∃ t context, c.took = some (t, context) ∧ Fresh t context c.deadline

structure Safe (w : TextWorker) (py : Interpreter) (s : Sys) : Prop where
  single : ∀ (i j : ℕ) c d, s.calls[i]? = some c → s.calls[j]? = some d →
    c.pc.inFlight = true → d.pc.inFlight = true → i = j
  slot : s.slot = true ↔ ∃ c ∈ s.calls, c.pc.holds = true
  gate : ∀ c ∈ s.calls, c.sent ≠ [] → Gated w py c
  origin : ∀ c ∈ s.calls, ∀ req ∈ c.sent, ∀ m : Model, field c.data "model" = .str m.name →
    w.serviceUrl m = some req.url.origin
  genuine : ∀ c ∈ s.calls, ∀ r, c.pc = .done (.ok r) → Genuine w py c r

/-- The request that an answer to the call is followed with, and the job that it is for. -/
def Call.redirected (c : Call) : Answer → Option (Job × Request)
  | .response status location =>
    match c.pc with
    | .waiting job req visited =>
      if 200 ≤ status ∧ status < 300 then none
      else (redirect req visited status location).map fun p => (job, p.1)
    | _ => none
  | _ => none

/-- No answer redirects a call to another origin. -/
def Sys.Direct (s : Sys) : Event → Prop
  | .run i answer => ∀ c job req, s.calls[i]? = some c → c.redirected answer = some (job, req) →
      req.url.origin = job.origin
  | _ => True

/-! ## One call -/

variable {w : TextWorker} {py : Interpreter}

theorem check_eq_ok {now : ℚ} {context : Option Bool} {deadline : Option Deadline} {u : Unit} :
    check now context deadline = .ok u ↔ Fresh now context deadline := by
  unfold check Fresh
  split
  next hpassed =>
    obtain ⟨d, rfl, hd⟩ := (Option.any_eq_true _ _).mp hpassed
    refine ⟨nofun, fun h => ?_⟩
    have := h.1 d rfl
    rw [hd] at this
    cases this
  next hpassed =>
    have hin : ∀ d ∈ deadline, d.passed now = false := by
      intro d hd
      by_contra hne
      refine hpassed ((Option.any_eq_true _ _).mpr ⟨d, hd, ?_⟩)
      rwa [Bool.not_eq_false] at hne
    split
    next hcancelled => exact ⟨nofun, fun h => absurd hcancelled h.2⟩
    next hactive => exact ⟨fun _ => ⟨hin, hactive⟩, fun _ => rfl⟩

/-- What was unexpired and active is so at any earlier time. -/
theorem Fresh.earlier {t now : ℚ} {context old : Option Bool} {deadline : Option Deadline}
    (h : Fresh now context deadline) (ht : t ≤ now)
    (hold : old = some false → context = some false) : Fresh t old deadline := by
  refine ⟨fun d hd => ?_, fun hcancelled => h.2 (hold hcancelled)⟩
  have hnow := h.1 d hd
  cases d with
  | notFinite => exact hnow
  | finite b =>
    simp only [Deadline.passed, decide_eq_false_iff_not, not_le] at hnow ⊢
    exact lt_of_le_of_lt ht hnow

namespace Pc

/-- The call has not reached the slot. -/
def outside : Pc → Bool
  | start | envelope | acquire _ => true
  | _ => false

end Pc

namespace Call

/-- What is known of a call at its program point. -/
structure Good (w : TextWorker) (py : Interpreter) (now : ℚ) (c : Call) : Prop where
  job : ∀ job, c.pc.job = some job → Pinned w py c.data job
  unsent : c.pc.outside = true → c.sent = []
  took : c.pc.holds = true → c.took.isSome = true
  since : ∀ t context, c.took = some (t, context) →
    t ≤ now ∧ (context = some false → c.context = some false)
  gate : c.pc.checked = true ∨ c.sent ≠ [] → Gated w py c
  content : ∀ content, c.pc.content = some content →
    ∃ body, c.received = some body ∧ content = body.take (maxResult + 1)
  outcome : ∀ r, c.pc.outcome = some (.ok r) → Genuine w py c r

variable {now : ℚ} {c : Call}

/-- A call that ends outside the slot. -/
theorem Good.refuse (hg : c.Good w py now) (e : Thrown) :
    (c.goto (.done (.error e))).Good w py now where
  job := nofun
  unsent := nofun
  took := nofun
  since := hg.since
  gate h := hg.gate (.inr (h.resolve_left nofun))
  content := nofun
  outcome := nofun

/-- A call that ends inside the slot. -/
theorem Good.raise (hg : c.Good w py now) (hin : c.pc.holds = true) (e : Thrown) :
    (c.raise e).Good w py now where
  job := nofun
  unsent := nofun
  took _ := hg.took hin
  since := hg.since
  gate h := hg.gate (.inr (h.resolve_left nofun))
  content := nofun
  outcome := nofun

/-- A call that has passed the check inside the slot sends a request. -/
theorem Good.request (hg : c.Good w py now) {job : Job} (hjob : c.pc.job = some job)
    (hin : c.pc.holds = true) (hchecked : c.pc.checked = true) (req : Request) (visited : Visited) :
    (c.request job req visited).Good w py now where
  job j hj := by
    obtain rfl : job = j := Option.some.inj hj
    exact hg.job job hjob
  unsent := nofun
  took _ := hg.took hin
  since := hg.since
  gate _ := hg.gate (.inl hchecked)
  content := nofun
  outcome := nofun

theorem Good.answered {c' : Call} (hg : c.Good w py now) {job : Job} {req : Request}
    {visited : Visited} {answer : Answer} (hpc : c.pc = .waiting job req visited)
    (h : c.answered job req visited answer = some c') : c'.Good w py now := by
  have hin : c.pc.holds = true := by rw [hpc]; rfl
  have hchecked : c.pc.checked = true := by rw [hpc]; rfl
  have hjob : c.pc.job = some job := by rw [hpc]; rfl
  cases answer with
  | none | content => cases h
  | timedOut | failed | unexpected =>
    obtain rfl := Option.some.inj h
    exact hg.raise hin _
  | response status location =>
    obtain rfl := Option.some.inj h
    split
    · exact {
        job := fun j hj => by
          obtain rfl : job = j := Option.some.inj hj
          exact hg.job job hjob
        unsent := nofun
        took := fun _ => hg.took hin
        since := hg.since
        gate := fun _ => hg.gate (.inl hchecked)
        content := nofun
        outcome := nofun }
    split
    · exact hg.request hjob hin hchecked _ _
    · exact hg.raise hin _

theorem Good.readBody {c' : Call} (hg : c.Good w py now) {job : Job} {answer : Answer}
    (hpc : c.pc = .reading job) (h : c.readBody job answer = some c') : c'.Good w py now := by
  have hin : c.pc.holds = true := by rw [hpc]; rfl
  have hchecked : c.pc.checked = true := by rw [hpc]; rfl
  have hjob : c.pc.job = some job := by rw [hpc]; rfl
  cases answer with
  | none | response => cases h
  | timedOut | failed | unexpected =>
    obtain rfl := Option.some.inj h
    exact hg.raise hin _
  | content body =>
    obtain rfl := Option.some.inj h
    exact {
      job := fun j hj => by
        obtain rfl : job = j := Option.some.inj hj
        exact hg.job job hjob
      unsent := nofun
      took := fun _ => hg.took hin
      since := hg.since
      gate := fun _ => hg.gate (.inl hchecked)
      content := fun content hcontent => ⟨body, rfl, (Option.some.inj hcontent).symm⟩
      outcome := nofun }

theorem model_name_inj {m n : Model} (h : Json.str m.name = .str n.name) : m = n := by
  revert h
  cases m <;> cases n <;> decide

theorem operation_name_inj {m n : Operation} (h : Json.str m.name = .str n.name) : m = n := by
  revert h
  cases m <;> cases n <;> decide

/-- What the checks on the content let through may be returned. -/
theorem genuine_of_result {job : Job} {content body : List UInt8} {r : Json}
    (hjob : Pinned w py c.data job) (hbody : c.received = some body)
    (hcontent : content = body.take (maxResult + 1)) (hr : result py job content = .ok r) :
    Genuine w py c r := by
  obtain ⟨v, rfl, h⟩ := (result_ok_iff py).mp hr
  have hsize : body.length ≤ maxResult := by
    have hlen := h.size
    rw [hcontent, List.length_take] at hlen
    omega
  have hwhole : content = body := by
    rw [hcontent, List.take_of_length_le (by omega)]
  refine ⟨⟨job, hjob⟩, body, v, hbody, hsize, hwhole ▸ h.loads, h.isDict, h.finite, ?_, ?_⟩
  · rw [hjob.model, hjob.operation]
    rfl
  · rintro (hop | hm)
    · have hretrieve : job.operation = .retrieve :=
        operation_name_inj (n := .retrieve) (hjob.operation.symm.trans hop)
      rw [h.retrieve hretrieve, hjob.model, field, (hjob.retrieval hretrieve).pipeline,
        Option.getD_some]
    · have htext : job.model = .text := model_name_inj (n := .text) (hjob.model.symm.trans hm)
      rw [h.text htext, hm]
      rfl

/-- The call has passed a check, and goes on. -/
theorem Good.pass (hg : c.Good w py now) {pc : Pc} (hjob : pc.job = c.pc.job)
    (hunsent : pc.outside = true → c.pc.outside = true)
    (htook : pc.holds = true → c.pc.holds = true)
    (hgate : pc.checked = true → c.pc.checked = true ∨ Gated w py c)
    (hcontent : pc.content = c.pc.content) (houtcome : pc.outcome = none) :
    (c.goto pc).Good w py now where
  job j hj := hg.job j (hjob ▸ hj)
  unsent h := hg.unsent (hunsent h)
  took h := hg.took (htook h)
  since := hg.since
  gate h := by
    rcases h with h | h
    · exact (hgate h).elim (fun h => hg.gate (.inl h)) id
    · exact hg.gate (.inr h)
  content v hv := hg.content v (hcontent ▸ hv)
  outcome r hr := by
    rw [show (c.goto pc).pc.outcome = none from houtcome] at hr
    cases hr

/-- **One statement keeps what is known of the call.** -/
theorem Good.advance {c' : Call} {slot slot' : Bool} {answer : Answer} (hg : c.Good w py now)
    (h : c.advance w py now slot answer = some (c', slot')) : c'.Good w py now := by
  unfold Call.advance at h
  cases hpc : c.pc with
  | start =>
    simp only [hpc] at h
    split at h
    · cases h
      exact hg.refuse .other
    split at h
    next e _ =>
      cases h
      exact hg.refuse e
    next =>
      cases h
      exact hg.pass (by rw [hpc]; rfl) (fun _ => by rw [hpc]; rfl) nofun nofun (by rw [hpc]; rfl) rfl
  | envelope =>
    simp only [hpc] at h
    split at h
    · cases h
      exact hg.refuse .other
    split at h
    next e _ =>
      cases h
      exact hg.refuse e
    next job henvelope =>
      cases h
      exact {
        job := fun j hj => by
          obtain rfl : job = j := Option.some.inj hj
          exact (envelope_ok_iff w py).mp henvelope
        unsent := fun _ => hg.unsent (by rw [hpc]; rfl)
        took := nofun
        since := hg.since
        gate := fun h => hg.gate (.inr (h.resolve_left nofun))
        content := nofun
        outcome := nofun }
  | acquire job =>
    simp only [hpc] at h
    split at h
    · cases h
      exact hg.refuse _
    · cases h
      exact {
        job := fun j hj => by
          obtain rfl : job = j := Option.some.inj hj
          exact hg.job job (by rw [hpc]; rfl)
        unsent := nofun
        took := fun _ => rfl
        since := fun t context ht => by
          cases ht
          exact ⟨le_refl now, id⟩
        gate := fun h => absurd (hg.unsent (by rw [hpc]; rfl)) (h.resolve_left nofun)
        content := nofun
        outcome := nofun }
  | check job =>
    have hin : c.pc.holds = true := by rw [hpc]; rfl
    simp only [hpc] at h
    split at h
    · cases h
      exact hg.raise hin _
    split at h
    next e _ =>
      cases h
      exact hg.raise hin e
    next hcheck =>
      cases h
      have hgated : Gated w py c := by
        obtain ⟨⟨t, context⟩, htook⟩ := Option.isSome_iff_exists.mp (hg.took hin)
        obtain ⟨ht, hcontext⟩ := hg.since t context htook
        refine ⟨⟨job, hg.job job (by rw [hpc]; rfl)⟩, t, context, htook, ?_⟩
        exact (check_eq_ok.mp hcheck).earlier ht hcontext
      exact hg.pass (by rw [hpc]; rfl) nofun (fun _ => hin) (fun _ => .inr hgated) (by rw [hpc]; rfl) rfl
  | send job =>
    have hin : c.pc.holds = true := by rw [hpc]; rfl
    simp only [hpc] at h
    split at h
    · cases h
      exact hg.raise hin _
    · cases h
      exact hg.request (by rw [hpc]; rfl) hin (by rw [hpc]; rfl) _ _
  | waiting job req visited =>
    simp only [hpc] at h
    obtain ⟨d, hd, hr⟩ := Option.map_eq_some_iff.mp h
    cases hr
    exact hg.answered hpc hd
  | reading job =>
    simp only [hpc] at h
    obtain ⟨d, hd, hr⟩ := Option.map_eq_some_iff.mp h
    cases hr
    exact hg.readBody hpc hd
  | verify job content =>
    have hin : c.pc.holds = true := by rw [hpc]; rfl
    simp only [hpc] at h
    split at h
    · cases h
      exact hg.raise hin _
    split at h
    next e _ =>
      cases h
      exact hg.raise hin e
    next =>
      cases h
      exact hg.pass (by rw [hpc]; rfl) nofun (fun _ => hin) (fun _ => .inl (by rw [hpc]; rfl))
        (by rw [hpc]; rfl) rfl
  | parse job content =>
    have hin : c.pc.holds = true := by rw [hpc]; rfl
    simp only [hpc] at h
    split at h
    · cases h
      exact hg.raise hin _
    · cases h
      obtain ⟨body, hbody, hcontent⟩ := hg.content content (by rw [hpc]; rfl)
      exact {
        job := nofun
        unsent := nofun
        took := fun _ => hg.took hin
        since := hg.since
        gate := fun h => hg.gate (.inr (h.resolve_left nofun))
        content := nofun
        outcome := fun r hr =>
          genuine_of_result (hg.job job (by rw [hpc]; rfl)) hbody hcontent (Option.some.inj hr) }
  | leaving outcome =>
    simp only [hpc] at h
    cases h
    exact {
      job := nofun
      unsent := nofun
      took := nofun
      since := hg.since
      gate := fun h => hg.gate (.inr (h.resolve_left nofun))
      content := nofun
      outcome := fun r hr =>
        have hgenuine := hg.outcome r (by rw [hpc]; exact hr)
        ⟨hgenuine.pinned, hgenuine.value⟩ }
  | done outcome =>
    simp only [hpc] at h
    cases h

/-- Time passes. -/
theorem Good.later {t : ℚ} (hg : c.Good w py now) (ht : now ≤ t) : c.Good w py t where
  job := hg.job
  unsent := hg.unsent
  took := hg.took
  since u context hu := ⟨le_trans (hg.since u context hu).1 ht, (hg.since u context hu).2⟩
  gate := hg.gate
  content := hg.content
  outcome := hg.outcome

/-- The caller disconnects. -/
theorem Good.cancel (hg : c.Good w py now) :
    ({ c with context := c.context.map fun _ => false } : Call).Good w py now where
  job := hg.job
  unsent := hg.unsent
  took := hg.took
  since t context ht := by
    refine ⟨(hg.since t context ht).1, fun hcancelled => ?_⟩
    show c.context.map (fun _ => false) = some false
    rw [(hg.since t context ht).2 hcancelled, Option.map_some]
  gate := hg.gate
  content := hg.content
  outcome r hr := ⟨(hg.outcome r hr).pinned, (hg.outcome r hr).value⟩

/-- A call that has just begun. -/
theorem Good.begin (data : Json) (context : Option Bool) (deadline : Option Deadline) :
    (⟨data, context, deadline, .start, none, [], none⟩ : Call).Good w py now where
  job := nofun
  unsent _ := rfl
  took := nofun
  since := nofun
  gate h := h.elim nofun (absurd rfl)
  content := nofun
  outcome := nofun

/-! ### The slot -/

/-- A statement keeps the slot, takes it when it is free, or releases it. -/
theorem advance_slot {c' : Call} {slot slot' : Bool} {answer : Answer}
    (h : c.advance w py now slot answer = some (c', slot')) :
    slot' = slot ∧ c'.pc.holds = c.pc.holds ∨
      slot = false ∧ slot' = true ∧ c'.pc.holds = true ∨
      slot' = false ∧ c.pc.holds = true ∧ c'.pc.holds = false := by
  unfold Call.advance at h
  cases hpc : c.pc with
  | acquire job =>
    simp only [hpc] at h
    split at h
    · cases h
      exact .inl ⟨rfl, rfl⟩
    next hfree =>
      cases h
      exact .inr (.inl ⟨Bool.not_eq_true _ ▸ hfree, rfl, rfl⟩)
  | leaving outcome =>
    simp only [hpc] at h
    cases h
    exact .inr (.inr ⟨rfl, rfl, rfl⟩)
  | waiting job req visited =>
    simp only [hpc] at h
    obtain ⟨d, hd, hr⟩ := Option.map_eq_some_iff.mp h
    cases hr
    refine .inl ⟨rfl, ?_⟩
    cases answer with
    | none => cases hd
    | content => cases hd
    | timedOut | failed | unexpected =>
      obtain rfl := Option.some.inj hd
      rfl
    | response =>
      obtain rfl := Option.some.inj hd
      split
      · rfl
      split <;> rfl
  | reading job =>
    simp only [hpc] at h
    obtain ⟨d, hd, hr⟩ := Option.map_eq_some_iff.mp h
    cases hr
    refine .inl ⟨rfl, ?_⟩
    cases answer with
    | none => cases hd
    | response => cases hd
    | timedOut | failed | unexpected | content =>
      obtain rfl := Option.some.inj hd
      rfl
  | done outcome =>
    simp only [hpc] at h
    cases h
  | send job | parse job content =>
    simp only [hpc] at h
    split at h <;> (cases h; exact .inl ⟨rfl, rfl⟩)
  | start | envelope | check job | verify job content =>
    simp only [hpc] at h
    split at h
    · cases h
      exact .inl ⟨rfl, rfl⟩
    split at h <;> (cases h; exact .inl ⟨rfl, rfl⟩)

/-! ### Where requests go -/

/-- Every request of the call goes to the origin of its model. -/
def Aligned (w : TextWorker) (c : Call) : Prop :=
  ∀ req ∈ c.sent, ∀ m : Model, field c.data "model" = .str m.name →
    w.serviceUrl m = some req.url.origin

/-- An answer that redirects the call makes it send the request. -/
theorem redirected_sent {c' : Call} {slot slot' : Bool} {answer : Answer} {job : Job}
    {req : Request} (hreq : c.redirected answer = some (job, req))
    (h : c.advance w py now slot answer = some (c', slot')) :
    c.pc.job = some job ∧ c'.sent = req :: c.sent ∧ c'.data = c.data := by
  unfold redirected at hreq
  split at hreq
  next status location =>
    split at hreq
    next j old visited hpc =>
      split at hreq
      · cases hreq
      next hstatus =>
        obtain ⟨⟨next, visited'⟩, hnext, hpair⟩ := Option.map_eq_some_iff.mp hreq
        cases hpair
        simp only [Call.advance, hpc, Call.answered, if_neg hstatus, hnext, Option.map_some] at h
        cases h
        exact ⟨by rw [hpc]; rfl, rfl, rfl⟩
    next => cases hreq
  next => cases hreq

/-- A statement sends no request, or one to the origin of the job, or the one that the answer
redirects to. -/
theorem advance_sent {c' : Call} {slot slot' : Bool} {answer : Answer}
    (h : c.advance w py now slot answer = some (c', slot')) :
    c'.data = c.data ∧ (c'.sent = c.sent ∨ ∃ job req, c.pc.job = some job ∧
      c'.sent = req :: c.sent ∧
        (req.url.origin = job.origin ∨ c.redirected answer = some (job, req))) := by
  cases hred : c.redirected answer with
  | some p =>
    obtain ⟨job, req⟩ := p
    obtain ⟨hjob, hsent, hdata⟩ := redirected_sent hred h
    exact ⟨hdata, .inr ⟨job, req, hjob, hsent, .inr rfl⟩⟩
  | none =>
    unfold Call.advance at h
    cases hpc : c.pc with
    | send job =>
      simp only [hpc] at h
      split at h
      · cases h
        exact ⟨rfl, .inl rfl⟩
      · cases h
        exact ⟨rfl, .inr ⟨job, _, rfl, rfl, .inl rfl⟩⟩
    | waiting job req visited =>
      simp only [hpc] at h
      obtain ⟨d, hd, hr⟩ := Option.map_eq_some_iff.mp h
      cases hr
      cases answer with
      | none => cases hd
      | content => cases hd
      | timedOut | failed | unexpected =>
        obtain rfl := Option.some.inj hd
        exact ⟨rfl, .inl rfl⟩
      | response status location =>
        obtain rfl := Option.some.inj hd
        simp only [redirected, hpc] at hred
        split
        · exact ⟨rfl, .inl rfl⟩
        next hstatus =>
          rw [if_neg hstatus, Option.map_eq_none_iff] at hred
          rw [hred]
          exact ⟨rfl, .inl rfl⟩
    | reading job =>
      simp only [hpc] at h
      obtain ⟨d, hd, hr⟩ := Option.map_eq_some_iff.mp h
      cases hr
      cases answer with
      | none => cases hd
      | response => cases hd
      | timedOut | failed | unexpected | content =>
        obtain rfl := Option.some.inj hd
        exact ⟨rfl, .inl rfl⟩
    | leaving outcome =>
      simp only [hpc] at h
      cases h
      exact ⟨rfl, .inl rfl⟩
    | done outcome =>
      simp only [hpc] at h
      cases h
    | acquire job | parse job content =>
      simp only [hpc] at h
      split at h <;> (cases h; exact ⟨rfl, .inl rfl⟩)
    | start | envelope | check job | verify job content =>
      simp only [hpc] at h
      split at h
      · cases h
        exact ⟨rfl, .inl rfl⟩
      split at h <;> (cases h; exact ⟨rfl, .inl rfl⟩)

/-- The model of a task with a job is the model of the job. -/
theorem origin_of_pinned {job : Job} (hjob : Pinned w py c.data job) {m : Model}
    (hm : field c.data "model" = .str m.name) : w.serviceUrl m = some job.origin := by
  obtain rfl : job.model = m := model_name_inj (hjob.model.symm.trans hm)
  exact hjob.origin

theorem Aligned.advance {c' : Call} {slot slot' : Bool} {answer : Answer} (hg : c.Good w py now)
    (ha : c.Aligned w) (h : c.advance w py now slot answer = some (c', slot'))
    (hdirect : ∀ job req, c.redirected answer = some (job, req) → req.url.origin = job.origin) :
    c'.Aligned w := by
  intro req hreq m hm
  obtain ⟨hdata, hsent⟩ := advance_sent h
  rw [hdata] at hm
  rcases hsent with hsent | ⟨job, new, hjob, hsent, horigin⟩
  · exact ha req (hsent ▸ hreq) m hm
  · rw [hsent] at hreq
    rcases List.mem_cons.mp hreq with rfl | hreq
    · have hsame : req.url.origin = job.origin := horigin.elim id (hdirect job req)
      rw [hsame]
      exact origin_of_pinned (hg.job job hjob) hm
    · exact ha req hreq m hm

/-- A redirection to another origin sends a request there. -/
theorem not_aligned_of_redirected {c' : Call} {slot slot' : Bool} {answer : Answer} {job : Job}
    {req : Request} (hg : c.Good w py now) (hreq : c.redirected answer = some (job, req))
    (hother : req.url.origin ≠ job.origin)
    (h : c.advance w py now slot answer = some (c', slot')) : ¬ c'.Aligned w := by
  intro ha
  obtain ⟨hjob, hsent, hdata⟩ := redirected_sent hreq h
  have hpinned := hg.job job hjob
  have hto := ha req (by rw [hsent]; exact List.mem_cons_self) job.model (by rw [hdata, hpinned.model])
  exact hother (Option.some.inj (hto.symm.trans hpinned.origin))

end Call

/-! ## All calls -/

namespace Sys

/-- One call is inside the slot, and of each call is known what its program point says. -/
structure Inv (w : TextWorker) (py : Interpreter) (s : Sys) : Prop where
  slot : Exclusive (fun c : Call => c.pc.holds) s.calls s.slot
  good : ∀ c ∈ s.calls, c.Good w py s.now

def Aligned (w : TextWorker) (s : Sys) : Prop := ∀ c ∈ s.calls, c.Aligned w

theorem run_eq_some {s t : Sys} {i : ℕ} {answer : Answer}
    (h : s.step w py (.run i answer) = some t) : ∃ c c' slot', s.calls[i]? = some c ∧
      c.advance w py s.now s.slot answer = some (c', slot') ∧
      t = { s with calls := s.calls.set i c', slot := slot' } := by
  obtain ⟨c, hc, h⟩ := Option.bind_eq_some_iff.mp h
  obtain ⟨⟨c', slot'⟩, hadv, rfl⟩ := Option.map_eq_some_iff.mp h
  exact ⟨c, c', slot', hc, hadv, rfl⟩

/-- **One step keeps the invariant.** -/
theorem Inv.step {s t : Sys} {e : Event} (hi : s.Inv w py) (h : s.step w py e = some t) :
    t.Inv w py := by
  cases e with
  | call data context deadline =>
    obtain rfl := Option.some.inj h
    refine ⟨hi.slot.append rfl, fun c hc => ?_⟩
    rcases List.mem_append.mp hc with hc | hc
    · exact hi.good c hc
    · obtain rfl := List.mem_singleton.mp hc
      exact .begin data context deadline
  | cancel i =>
    obtain ⟨c, hc, rfl⟩ := Option.map_eq_some_iff.mp h
    refine ⟨hi.slot.set hc rfl, fun d hd => ?_⟩
    rcases List.mem_or_eq_of_mem_set hd with hd | rfl
    · exact hi.good d hd
    · exact (hi.good c (List.mem_of_getElem? hc)).cancel
  | tick u =>
    simp only [Sys.step] at h
    split at h
    next hle =>
      obtain rfl := Option.some.inj h
      exact ⟨hi.slot, fun c hc => (hi.good c hc).later hle⟩
    next => cases h
  | run i answer =>
    obtain ⟨c, c', slot', hc, hadv, rfl⟩ := run_eq_some h
    have hgood := (hi.good c (List.mem_of_getElem? hc)).advance hadv
    refine ⟨?_, fun d hd => ?_⟩
    · rcases Call.advance_slot hadv with ⟨rfl, hholds⟩ | ⟨hfree, rfl, hholds⟩ | ⟨rfl, hheld, hholds⟩
      · exact hi.slot.set hc hholds
      · have hslot := hi.slot
        rw [hfree] at hslot
        exact hslot.take hc hholds
      · exact hi.slot.leave hc hheld hholds
    · rcases List.mem_or_eq_of_mem_set hd with hd | rfl
      · exact hi.good d hd
      · exact hgood

theorem Aligned.step {s t : Sys} {e : Event} (hi : s.Inv w py) (ha : s.Aligned w)
    (hdirect : s.Direct e) (h : s.step w py e = some t) : t.Aligned w := by
  cases e with
  | call data context deadline =>
    obtain rfl := Option.some.inj h
    intro c hc
    rcases List.mem_append.mp hc with hc | hc
    · exact ha c hc
    · obtain rfl := List.mem_singleton.mp hc
      exact nofun
  | cancel i =>
    obtain ⟨c, hc, rfl⟩ := Option.map_eq_some_iff.mp h
    intro d hd
    rcases List.mem_or_eq_of_mem_set hd with hd | rfl
    · exact ha d hd
    · exact ha c (List.mem_of_getElem? hc)
  | tick u =>
    simp only [Sys.step] at h
    split at h
    · obtain rfl := Option.some.inj h
      exact ha
    · cases h
  | run i answer =>
    obtain ⟨c, c', slot', hc, hadv, rfl⟩ := run_eq_some h
    have hmem := List.mem_of_getElem? hc
    intro d hd
    rcases List.mem_or_eq_of_mem_set hd with hd | rfl
    · exact ha d hd
    · exact (ha c hmem).advance (hi.good c hmem) hadv fun job req => hdirect c job req hc

theorem not_aligned_of_not_direct {s t : Sys} {e : Event} (hi : s.Inv w py)
    (hdirect : ¬ s.Direct e) (h : s.step w py e = some t) : ¬ t.Aligned w := by
  cases e with
  | run i answer =>
    simp only [Direct, not_forall] at hdirect
    obtain ⟨c, job, req, hc, hreq, hother⟩ := hdirect
    obtain ⟨d, c', slot', hd, hadv, rfl⟩ := run_eq_some h
    obtain rfl : c = d := Option.some.inj (hc.symm.trans hd)
    intro ha
    refine Call.not_aligned_of_redirected (hi.good c (List.mem_of_getElem? hc)) hreq hother hadv ?_
    exact ha c' (List.mem_of_getElem?
      (List.getElem?_set_self (List.getElem?_eq_some_iff.mp hc).1))
  | call | cancel | tick => exact absurd trivial hdirect

theorem Inv.safe {s : Sys} (hi : s.Inv w py) (ha : s.Aligned w) : Safe w py s where
  single i j c d hc hd hci hdj := by
    have hholds : ∀ pc : Pc, pc.inFlight = true → pc.holds = true := fun pc h => by
      cases pc <;> first | rfl | cases h
    exact hi.slot.unique i j c d hc hd (hholds c.pc hci) (hholds d.pc hdj)
  slot := hi.slot.busy
  gate c hc hsent := (hi.good c hc).gate (.inr hsent)
  origin c hc := ha c hc
  genuine c hc r hr := (hi.good c hc).outcome r (by rw [hr]; rfl)

theorem Init.inv {s : Sys} (h : s.Init) : s.Inv w py := by
  refine ⟨?_, fun c hc => ?_⟩
  · rw [h.slot, h.calls]
    exact .nil
  · rw [h.calls] at hc
    cases hc

/-- **Text adapter.**  Every state of a run has one request in flight at most, a slot that is free
when no call is inside, requests only after the checks and to the pinned origin, and genuine
results, exactly when no answer in the run redirects a call to another origin. -/
theorem safe_iff {s t : Sys} {es : List Event} (h₀ : s.Init)
    (h : exec (fun s e => s.step w py e) s es = some t) :
    Meets (fun s e => s.step w py e) Direct s es ↔
      ∀ fs m, fs <+: es → exec (fun s e => s.step w py e) s fs = some m → Safe w py m := by
  have ha₀ : s.Aligned w := fun c hc => by
    rw [h₀.calls] at hc
    cases hc
  refine meets_iff_reached (P := fun s => s.Inv w py ∧ s.Aligned w) (fun s hs => hs.1.safe hs.2)
    (fun s e t hd hs h => ⟨hs.1.step h, hs.2.step hs.1 hd h⟩) (fun s e t hd hs h hsafe => ?_)
    ⟨h₀.inv, ha₀⟩ h
  exact not_aligned_of_not_direct hs.1 hd h hsafe.origin

/-- An interpreter without limits. -/
def plainPython : Interpreter where
  loads content := (Json.loadsBytes id content).elim (.error .value) .ok
  limit _ := none

def vast : TextWorker where
  baseUrl := ⟨"http", "vast-tunnel", 18083⟩
  refinementUrl := some ⟨"http", "vast-tunnel", 18080⟩

def warmPad : Json :=
  .obj [("kind", .str "synthx_text_v123"), ("model", .str "text_v1.2.3"),
    ("operation", .str "retrieve"),
    ("payload", .obj [("pipeline_version", .str "text_v1.2.3"), ("target_engine", .str "vital")])]

/-- A call is redirected to a URL, and returns what it finds there. -/
def redirectedTo (url : Url) : List Event :=
  .call warmPad (some true) (some (.finite 30)) :: List.replicate 5 (.run 0 .none) ++
    [.run 0 (.response 302 (some url)), .run 0 (.response 200 none),
      .run 0 (.content (Json.dumpsBytes (.obj [("model", .str "text_v1.2.3")])))] ++
    List.replicate 3 (.run 0 .none)

def idle : Sys where
  slot := false
  now := 0
  calls := []

/-- A condition that can be evaluated. -/
def direct (s : Sys) : Event → Bool
  | .run i answer => s.calls[i]?.all fun c => (c.redirected answer).all fun p =>
      p.2.url.origin == p.1.origin
  | _ => true

theorem direct_of_eq_true {s : Sys} {e : Event} (h : s.direct e = true) : s.Direct e := by
  cases e with
  | run i answer =>
    intro c job req hc hreq
    simp only [direct, hc, hreq, Option.all_some] at h
    exact eq_of_beq h
  | call | cancel | tick => trivial

theorem safe_iff_same_origin :
    (exec (fun s e => s.step vast plainPython e) idle
      (redirectedTo ⟨vast.baseUrl, "/v2/retrieve"⟩)).isSome = true ∧
    ∀ fs m, fs <+: redirectedTo ⟨vast.baseUrl, "/v2/retrieve"⟩ →
      exec (fun s e => s.step vast plainPython e) idle fs = some m → Safe vast plainPython m := by
  have hrun : (exec (fun s e => s.step vast plainPython e) idle
      (redirectedTo ⟨vast.baseUrl, "/v2/retrieve"⟩)).isSome = true := by
    decide +kernel
  obtain ⟨t, ht⟩ := Option.isSome_iff_exists.mp hrun
  refine ⟨hrun, (safe_iff ⟨rfl, rfl⟩ ht).mp ?_⟩
  exact meets_of_checks (b := direct) (fun _ _ => direct_of_eq_true) (by decide +kernel)

/-- The call returns what another host has sent. -/
theorem redirectedTo_not_safe : ∃ t, exec (fun s e => s.step vast plainPython e) idle
    (redirectedTo ⟨⟨"http", "elsewhere", 80⟩, "/"⟩) = some t ∧ ¬ Safe vast plainPython t := by
  have hrun : (exec (fun s e => s.step vast plainPython e) idle
      (redirectedTo ⟨⟨"http", "elsewhere", 80⟩, "/"⟩)).any (fun t => t.calls.any fun c =>
        decide (field c.data "model" = .str Model.text.name) && c.sent.any fun req =>
          decide (req.url.origin ≠ vast.baseUrl)) = true := by
    decide +kernel
  obtain ⟨t, ht, hsent⟩ := (Option.any_eq_true _ _).mp hrun
  obtain ⟨c, hc, hsent⟩ := List.any_eq_true.mp hsent
  rw [Bool.and_eq_true, decide_eq_true_eq, List.any_eq_true] at hsent
  obtain ⟨hm, req, hreq, hother⟩ := hsent
  refine ⟨t, ht, fun hsafe => ?_⟩
  have horigin : some vast.baseUrl = some req.url.origin := hsafe.origin c hc req hreq .text hm
  exact of_decide_eq_true hother (Option.some.inj horigin).symm

end Sys

end Inference.Text
