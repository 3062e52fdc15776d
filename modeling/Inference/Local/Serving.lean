import Inference.Handlers
import Inference.Local.Worker
import Inference.Waiting

/-!
# Inference.Local.Serving — a request to `/predict`, from the queue to the answer

The whole server without gRPC: any number of `predict` handlers of `system/api_server.py`, the
`TaskQueue` with its bound, the scheduler thread and the local workers, all interleaved.  The handler
runs the code of `Inference.Handlers`, the scheduler that of `Inference.Scheduler`, and the batch
handler it calls is `WorkerPool.submit` of `Inference.Local.Worker`, in the scheduler's own thread.

* `Server.step`: the composition.
* `Server.Inv`: how the tasks of the three parts belong together.
* **`answers_right`**: a `200` is the square of the request's own number, computed by a worker that
  was given this request; every other answer has its cause.
* **`requests_kept`**: each accepted request is in exactly one place, and when nothing is left to do,
  every one of them has ended.
-/

namespace Inference.Local

open Inference.Lib Inference.Servicer
open Inference.Scheduler (Item)
open Inference.Handlers (Answer Outcome)

/-- A handler of `predict`. -/
inductive Client where
  /-- `_task_queue.put(task, timeout=0.0)` -/
  | putting
  /-- `raise HTTPException(status_code=503, detail="task queue is full")` -/
  | refused
  /-- from the wait loop on -/
  | waits (pc : Handlers.Pc)
deriving DecidableEq, Repr

/-- What the handler hands to the framework. -/
def Client.answer : Client → Option Answer
  | .refused => some (.httpError 503 (.str "task queue is full"))
  | .waits (.answered a) => some a
  | _ => none

/-- The server; task `i` is that of client `i`.  While `calling`, the scheduler thread is inside its
batch handler. -/
structure Server where
  sched : Scheduler.Sys
  pool : Sys
  calling : Bool
  clients : List Client
  maxSize : ℕ

/-- The steps of the pool that are nobody else's. -/
def Event.inside : Event → Bool
  | .tick _ _ | .failureRate _ | .stop _ | .stopWake _ | .worker _ _ _ => true
  | _ => false

inductive Act where
  /-- a request arrives, and its handler creates the task -/
  | request (x : Json) (taskId : String)
  /-- the handler puts its task on the queue -/
  | put (i : ℕ)
  /-- the handler takes its next step -/
  | handler (i : ℕ)
  /-- the scheduler thread takes its next step -/
  | sched (clock : ℕ → ℤ)
  /-- `config.update` -/
  | configure (c : Scheduler.Config)
  /-- `Scheduler.stop` sets the flag -/
  | stopScheduler
  /-- a step of a worker, of its stop, of the failure injection or of the clocks -/
  | pool (e : Event)

/-- `Task(deadline=time.monotonic() + 30.0, input_data={"x": request.x})`, in milliseconds. -/
def predictTask (s : Sys) (x : Json) (taskId : String) : Task where
  inputData := .obj [("x", x)]
  taskId := taskId
  creationTime := s.wall
  deadline := some (s.mono + 30000)

/-- `Queue.full`. -/
def Server.full (S : Server) : Bool := S.maxSize ≠ 0 && S.maxSize ≤ S.sched.queue.length

/-- One step of the scheduler thread; `_handler(batch)` runs `WorkerPool.submit` to its end. -/
def Server.schedStep (py : Interpreter) (S : Server) (clock : ℕ → ℤ) : Option Server :=
  if S.calling then
    if S.pool.submit = .idle then
      (Scheduler.step S.sched (.advance clock)).map fun t => { S with sched := t, calling := false }
    else (S.pool.step py .submitter).map fun p => { S with pool := p }
  else match S.sched.pc with
    | .handle (t :: batch) => (S.pool.step py (.submit ((t :: batch).map Item.ref))).map fun p =>
        { S with pool := p, calling := true }
    | _ => (Scheduler.step S.sched (.advance clock)).map fun t => { S with sched := t }

/-- One step of handler `i`. -/
def Server.handlerStep (S : Server) (i : ℕ) : Option Server :=
  match S.clients[i]? with
  | some (.waits (.call m after)) =>
    some { S with pool := S.pool.call (some (i, m)), clients := S.clients.set i (.waits after) }
  | some (.waits pc) => (pc.next (S.pool.tasks i) S.pool.mono false).map fun pc' =>
      { S with clients := S.clients.set i (.waits pc') }
  | _ => none

def Server.step (py : Interpreter) (S : Server) : Act → Option Server
  | .request x taskId => (S.pool.step py (.create (predictTask S.pool x taskId))).map fun p =>
      { S with pool := p, clients := S.clients ++ [.putting] }
  | .put i =>
    if S.clients[i]? = some .putting then
      if S.full then some { S with clients := S.clients.set i .refused }
      else (Scheduler.step S.sched (.arrive ⟨i, (S.pool.tasks i).creationTime⟩)).map fun t =>
        { S with sched := t, clients := S.clients.set i (.waits .pLoop) }
    else none
  | .handler i => S.handlerStep i
  | .sched clock => S.schedStep py clock
  | .configure c => (Scheduler.step S.sched (.configure c)).map fun t => { S with sched := t }
  | .stopScheduler => (Scheduler.step S.sched .stop).map fun t => { S with sched := t }
  | .pool e => if e.inside then (S.pool.step py e).map fun p => { S with pool := p } else none

/-- A server that has just been started. -/
structure Server.Init (S : Server) : Prop where
  sched : Scheduler.Init S.sched
  queue : S.sched.queue = []
  pool : S.pool.Init
  created : S.pool.created = 0
  calling : S.calling = false
  clients : S.clients = []

/-- The clock does not go back while the scheduler thread ranks its buffer. -/
def Act.Forward : Act → Prop
  | .sched clock => Monotone clock
  | _ => True

/-! ## What belongs together -/

/-- `task.mark_failed("request deadline exceeded", error_code="deadline_exceeded")` -/
def expire : Task.Method := .markFailed "request deadline exceeded" (some "deadline_exceeded")

/-- What a handler knows. -/
def Client.Ok (t : Task) (mono : ℤ) : Client → Prop
  | .waits pc => pc.Ok .predict t mono false ∧
      ∀ m after, pc = .call m after → m = expire ∧ t.isExpired mono = true
  | _ => True

/-- The batch that the scheduler thread is handing on. -/
def Server.batch (S : Server) : List Item := if S.calling then S.sched.pc.inHand else []

structure Server.Inv (py : Interpreter) (S : Server) : Prop where
  sched : Scheduler.Inv S.sched
  kept : S.sched.Kept
  pool : S.pool.Inv
  caused : Caused py (fun _ m => m = expire) S.pool
  created : S.pool.created = S.clients.length
  accepted : ∀ i, i ∈ (S.sched.taken ++ S.sched.queue).map Item.ref ↔
    ∃ pc, S.clients[i]? = some (.waits pc)
  handed : S.pool.submitted.flatten.Perm ((S.batch ++ S.sched.handed).map Item.ref)
  calling : S.calling = true → ∃ b, S.sched.pc = .handle b
  idle : S.calling = false → S.pool.submit = .idle
  clients : ∀ (i : ℕ) (c : Client), S.clients[i]? = some c → c.Ok (S.pool.tasks i) S.pool.mono
  data : ∀ i < S.clients.length, ∃ x, (S.pool.tasks i).inputData = .obj [("x", x)]
  late : ∀ i < S.clients.length, (S.pool.tasks i).errorCode = some "deadline_exceeded" →
    (S.pool.tasks i).isExpired S.pool.mono = true

/-! ### Steps of the pool -/

/-- What a step of the pool leaves alone that neither creates a task nor submits a batch. -/
structure Frame (s t : Sys) : Prop where
  submitted : t.submitted = s.submitted
  created : t.created = s.created
  size : t.size = s.size
  mono : s.mono ≤ t.mono
  tasks : ∀ i, Task.Evolves (s.tasks i) (t.tasks i)
  code : ∀ i, (t.tasks i).errorCode = (s.tasks i).errorCode ∨ (t.tasks i).errorCode = none

section Pool

variable {py : Interpreter} {s t : Sys} {e : Event}

theorem call_errorCode (u : Task) (m : Task.Method) (mono wall : ℤ) :
    (u.call m mono wall).errorCode = u.errorCode ∨
      ∃ e code, m = .markFailed e code ∧ (u.call m mono wall).errorCode = code := by
  cases ht : u.terminal with
  | true => exact .inl (by rw [Task.call_of_terminal ht])
  | false =>
    cases m with
    | markFailed e code =>
      refine .inr ⟨e, code, rfl, ?_⟩
      rw [show u.call (.markFailed e code) mono wall = u.markFailed wall e code from rfl,
        Task.markFailed_of_open ht]
    | markDone r =>
      left
      rw [show u.call (.markDone r) mono wall = u.markDone wall r from rfl, Task.markDone_of_open ht]
    | markProcessing =>
      left
      rw [show u.call .markProcessing mono wall = u.markProcessing wall from rfl,
        Task.markProcessing_of_open ht]
    | tryReserveRetry =>
      left
      simp only [Task.call, Task.Method.body, ht, Bool.false_eq_true, if_false]
      split <;> rfl

/-- A call that does not set an error code. -/
theorem frame_call (s : Sys) {c : Option (ℕ × Task.Method)}
    (hc : ∀ i e code, c = some (i, .markFailed e code) → code = none) : Frame s (s.call c) where
  submitted := call_submitted
  created := call_created
  size := call_size
  mono := by cases c <;> exact le_rfl
  tasks := call_evolves s c
  code := fun i => by
    cases c with
    | none => exact .inl rfl
    | some a =>
      by_cases hi : i = a.1
      · subst hi
        simp only [Sys.call, Function.update_self]
        refine (call_errorCode (s.tasks a.1) a.2 s.mono s.wall).imp_right ?_
        rintro ⟨e, code, hm, hcode⟩
        exact hcode.trans (hc a.1 e code (by rw [← hm]))
      · simp [Sys.call, Function.update_of_ne hi]

theorem frame_submitter (hs : s.submitter = some t) : Frame s t := by
  have hsame : ∀ u : Sys, u.submitted = s.submitted → u.created = s.created → u.size = s.size →
      u.mono = s.mono → u.tasks = s.tasks → Frame s u := fun u h1 h2 h3 h4 h5 =>
    ⟨h1, h2, h3, h4.ge, fun i => h5 ▸ .refl _, fun i => .inl (by rw [h5])⟩
  cases hpc : s.submit with
  | idle => simp [Sys.submitter, hpc] at hs
  | refuse rest =>
    cases rest with
    | nil =>
      simp only [Sys.submitter, hpc, Option.some.injEq] at hs
      exact hs ▸ hsame _ rfl rfl rfl rfl rfl
    | cons i rest =>
      simp only [Sys.submitter, hpc, Option.some.injEq] at hs
      subst hs
      obtain ⟨h1, h2, h3, h4, h5, h6⟩ := frame_call s
        (c := some (i, .markFailed "no workers available" none)) (by simp)
      exact ⟨h1, h2, h3, h4, h5, h6⟩
  | scan b left found =>
    cases left <;> simp only [Sys.submitter, hpc, Option.some.injEq] at hs <;>
      exact hs ▸ hsame _ rfl rfl rfl rfl rfl
  | pick b pool =>
    simp only [Sys.submitter, hpc] at hs
    obtain ⟨w, -, rfl⟩ := Option.map_eq_some_iff.mp hs
    exact hsame _ rfl rfl rfl rfl rfl
  | append b w | wake w =>
    simp only [Sys.submitter, hpc, Option.some.injEq] at hs
    exact hs ▸ hsame _ rfl rfl rfl rfl rfl

/-- No worker sets an error code. -/
theorem advance_code {w : ℕ} {timeout : Bool} {random : ℚ} {x : Worker}
    {c : Option (ℕ × Task.Method)} (hinv : s.Inv)
    (h : (s.workers w).advance py w s.failureRate s.tasks timeout random = some (x, c)) :
    ∀ i e code, c = some (i, .markFailed e code) → code = none := by
  rintro i e code rfl
  rcases (advance_called h (hinv.ok w) rfl).1 with hm | hm
  · exact (Task.Method.markFailed.inj hm).2
  · unfold result at hm
    split at hm
    · cases hm
    · exact (Task.Method.markFailed.inj hm).2

/-- The steps that are nobody else's do not touch `submit` either. -/
theorem frame_inside (hinv : s.Inv) (he : e.inside = true) (hs : s.step py e = some t) :
    Frame s t ∧ t.submit = s.submit ∧ ∀ O, e.Within O := by
  cases e with
  | create u | task i m | submit b | submitter => cases he
  | tick d wall =>
    obtain rfl := Option.some.inj hs
    exact ⟨⟨rfl, rfl, rfl, Int.le_add_of_nonneg_right (Int.natCast_nonneg d), fun _ => .refl _,
      fun _ => .inl rfl⟩, rfl, fun _ => trivial⟩
  | failureRate rate | stop w | stopWake w =>
    obtain rfl := Option.some.inj hs
    exact ⟨⟨rfl, rfl, rfl, le_rfl, fun _ => .refl _, fun _ => .inl rfl⟩, rfl, fun _ => trivial⟩
  | worker w timeout random =>
    simp only [Sys.step] at hs
    split at hs
    · obtain ⟨⟨x, c⟩, hx, rfl⟩ := Option.map_eq_some_iff.mp hs
      obtain ⟨h1, h2, h3, h4, h5, h6⟩ := frame_call (s.setWorker w x) (advance_code hinv hx)
      exact ⟨⟨h1, h2, h3, h4, h5, h6⟩, call_submit, fun _ => trivial⟩
    · cases hs

end Pool

/-! ### One step of the server -/

section Step

variable {py : Interpreter} {S T : Server}

theorem Client.Ok.later {t u : Task} {mono mono' : ℤ} {c : Client} (h : c.Ok t mono)
    (hev : Task.Evolves t u) (hle : mono ≤ mono') : c.Ok u mono' := by
  cases c with
  | waits pc =>
    refine ⟨Handlers.Pc.Ok.stable h.1 hev.final hev.deadline hle, fun m after hpc => ?_⟩
    obtain ⟨hm, hexpired⟩ := h.2 m after hpc
    exact ⟨hm, Handlers.isExpired_mono hev.deadline hle hexpired⟩
  | _ => trivial

/-- The tasks and clocks go on, and everything else stays. -/
theorem Server.Inv.frame (h : S.Inv py) {p : Sys} (hf : Frame S.pool p) (hpool : p.Inv)
    (hcaused : Caused py (fun _ m => m = expire) p) (hidle : S.calling = false → p.submit = .idle) :
    Server.Inv py { S with pool := p } where
  sched := h.sched
  kept := h.kept
  pool := hpool
  caused := hcaused
  created := hf.created.trans h.created
  accepted := h.accepted
  handed := by
    have := h.handed
    simp only [hf.submitted]
    exact this
  calling := h.calling
  idle := hidle
  clients := fun i c hc => (h.clients i c hc).later (hf.tasks i) hf.mono
  data := fun i hi => by
    obtain ⟨x, hx⟩ := h.data i hi
    exact ⟨x, (hf.tasks i).inputData.trans hx⟩
  late := fun i hi hcode => by
    rcases hf.code i with hsame | hnone
    · exact Handlers.isExpired_mono (hf.tasks i).deadline hf.mono (h.late i hi (hsame ▸ hcode))
    · rw [hnone] at hcode
      cases hcode

/-- The scheduler steps without handing on or receiving anything. -/
theorem Server.Inv.scheduler (h : S.Inv py) {e : Scheduler.Event} {t : Scheduler.Sys}
    (he : e.Forward) (hs : Scheduler.step S.sched e = some t)
    (harrive : Scheduler.arrivals [e] = []) {calling : Bool}
    (hbatch : ((if calling then t.pc.inHand else []) ++ t.handed).Perm (S.batch ++ S.sched.handed))
    (hcalling : calling = true → ∃ b, t.pc = .handle b)
    (hidle : calling = false → S.pool.submit = .idle) :
    Server.Inv py { S with sched := t, calling := calling } where
  sched := Scheduler.step_inv h.sched hs
  kept := h.kept.step h.sched he hs
  pool := h.pool
  caused := h.caused
  created := h.created
  accepted := fun i => by
    have harr := Scheduler.step_arrivals hs
    rw [harrive, List.append_nil] at harr
    rw [(harr.map Item.ref).mem_iff]
    exact h.accepted i
  handed := h.handed.trans (hbatch.symm.map Item.ref)
  calling := hcalling
  idle := hidle
  clients := h.clients
  data := h.data
  late := h.late

theorem Server.Inv.schedStep (h : S.Inv py) {clock : ℕ → ℤ} (he : Monotone clock)
    (hs : S.schedStep py clock = some T) : T.Inv py := by
  unfold Server.schedStep at hs
  split at hs
  next hcalling =>
    obtain ⟨b, hpc⟩ := h.calling hcalling
    split at hs
    next hidle =>
      obtain ⟨t, ht, rfl⟩ := Option.map_eq_some_iff.mp hs
      have hhanded := Scheduler.step_handed ht
      simp only [Scheduler.returned, hpc, List.flatten_cons, List.flatten_nil,
        List.append_nil] at hhanded
      refine h.scheduler (e := .advance clock) he ht rfl ?_ (by simp) fun _ => hidle
      simp [Server.batch, hcalling, hpc, Scheduler.Pc.inHand, hhanded]
    · obtain ⟨p, hp, rfl⟩ := Option.map_eq_some_iff.mp hs
      exact h.frame (frame_submitter hp) (h.pool.step hp) (h.caused.step h.pool (e := .submitter) trivial hp)
        fun hfalse => by rw [hcalling] at hfalse; cases hfalse
  next hnot =>
    have hfalse : S.calling = false := by simpa using hnot
    split at hs
    next x batch hpc =>
      obtain ⟨p, hp, rfl⟩ := Option.map_eq_some_iff.mp hs
      have hinv := h.pool.step hp
      have hcaused := h.caused.step h.pool (e := .submit _) trivial hp
      simp only [Sys.step] at hp
      split at hp
      · obtain rfl := Option.some.inj hp
        refine ⟨h.sched, h.kept, hinv, hcaused, h.created, h.accepted, ?_, fun _ => ⟨_, hpc⟩, by simp,
          h.clients, h.data, h.late⟩
        have hhanded := h.handed
        simp only [Server.batch, hfalse, Bool.false_eq_true, if_false, List.nil_append] at hhanded
        simp only [Server.batch, if_true, hpc, Scheduler.Pc.inHand, List.flatten_append,
          List.flatten_cons, List.flatten_nil, List.append_nil, List.map_append]
        exact (hhanded.append_right _).trans List.perm_append_comm
      · cases hp
    next hpc =>
      obtain ⟨t, ht, rfl⟩ := Option.map_eq_some_iff.mp hs
      have hhanded : t.handed = S.sched.handed := by
        rw [Scheduler.step_handed ht]
        simp only [Scheduler.returned]
        split
        next b hb =>
          cases b with
          | nil => rfl
          | cons x batch => exact absurd hb (hpc x batch)
        · rfl
      have hbatch : ((if S.calling then t.pc.inHand else []) ++ t.handed).Perm
          (S.batch ++ S.sched.handed) := by simp [Server.batch, hfalse, hhanded]
      exact h.scheduler (e := .advance clock) he ht rfl hbatch (by simp [hfalse]) h.idle

theorem Server.Inv.request (h : S.Inv py) {x : Json} {taskId : String} {p : Sys}
    (hp : S.pool.step py (.create (predictTask S.pool x taskId)) = some p) :
    Server.Inv py { S with pool := p, clients := S.clients ++ [.putting] } := by
  have hinv := h.pool.step hp
  have hcaused := h.caused.step h.pool (e := .create _) trivial hp
  simp only [Sys.step] at hp
  split at hp
  · obtain rfl := Option.some.inj hp
    have hold : ∀ i < S.clients.length,
        Function.update S.pool.tasks S.pool.created (predictTask S.pool x taskId) i = S.pool.tasks i :=
      fun i hi => Function.update_of_ne (by rw [h.created]; exact hi.ne) _ _
    have hget : ∀ (i : ℕ) (c : Client), (S.clients ++ [.putting])[i]? = some c →
        (S.clients[i]? = some c ∧ i < S.clients.length) ∨ c = .putting := by
      intro i c hc
      rw [List.getElem?_append] at hc
      split at hc
      next hlt => exact .inl ⟨hc, hlt⟩
      next => exact .inr (List.mem_singleton.mp (List.mem_of_getElem? hc))
    have hcases : ∀ i < (S.clients ++ [Client.putting]).length,
        i < S.clients.length ∨ i = S.pool.created := by
      intro i hi
      rw [List.length_append, List.length_singleton] at hi
      rw [h.created]
      omega
    refine ⟨h.sched, h.kept, hinv, hcaused, by simp [h.created], fun i => ?_, h.handed, h.calling,
      h.idle, fun i c hc => ?_, fun i hi => ?_, fun i hi hcode => ?_⟩
    · rw [h.accepted i]
      constructor
      · rintro ⟨pc, hpc⟩
        exact ⟨pc, by rw [List.getElem?_append_left (List.getElem?_eq_some_iff.mp hpc).1]; exact hpc⟩
      · rintro ⟨pc, hpc⟩
        rcases hget i _ hpc with ⟨hc, -⟩ | hc
        · exact ⟨pc, hc⟩
        · cases hc
    · rcases hget i c hc with ⟨hold', hlt⟩ | rfl
      · simp only [hold i hlt]
        exact h.clients i c hold'
      · trivial
    · rcases hcases i hi with hlt | rfl
      · simp only [hold i hlt]
        exact h.data i hlt
      · exact ⟨x, by simp [predictTask]⟩
    · rcases hcases i hi with hlt | rfl
      · simp only [hold i hlt] at hcode ⊢
        exact h.late i hlt hcode
      · simp [predictTask] at hcode
  · cases hp

/-- Client `i` goes on to `c`. -/
theorem Server.Inv.client (h : S.Inv py) {i : ℕ} {c old : Client} (hi : S.clients[i]? = some old)
    (hwaits : (∃ pc, c = .waits pc) ↔ ∃ pc, old = .waits pc)
    (hok : c.Ok (S.pool.tasks i) S.pool.mono) :
    Server.Inv py { S with clients := S.clients.set i c } := by
  have hlt := (List.getElem?_eq_some_iff.mp hi).1
  refine ⟨h.sched, h.kept, h.pool, h.caused, by simpa using h.created, fun j => ?_, h.handed,
    h.calling, h.idle, fun j d hd => ?_, fun j hj => h.data j (by simpa using hj),
    fun j hj => h.late j (by simpa using hj)⟩
  · rw [h.accepted j, List.getElem?_set]
    by_cases hij : i = j
    · subst hij
      simp only [if_true, hlt, hi, Option.some.injEq]
      exact hwaits.symm
    · simp only [hij, if_false]
  · rw [List.getElem?_set] at hd
    by_cases hij : i = j
    · subst hij
      simp only [if_true, hlt, Option.some.injEq] at hd
      exact hd ▸ hok
    · simp only [hij, if_false] at hd
      exact h.clients j d hd

theorem Server.Inv.put (h : S.Inv py) {i : ℕ} (hi : S.clients[i]? = some .putting)
    {t : Scheduler.Sys} (ht : Scheduler.step S.sched
      (.arrive ⟨i, (S.pool.tasks i).creationTime⟩) = some t) :
    Server.Inv py { S with sched := t, clients := S.clients.set i (.waits .pLoop) } := by
  have hlt := (List.getElem?_eq_some_iff.mp hi).1
  have harr := Scheduler.step_arrivals ht
  have hinv := Scheduler.step_inv h.sched ht
  have hkept := h.kept.step h.sched (e := .arrive _) trivial ht
  simp only [Scheduler.step] at ht
  split at ht
  · cases ht
  · obtain rfl := Option.some.inj ht
    refine ⟨hinv, hkept, h.pool, h.caused, by simpa using h.created, fun j => ?_, h.handed,
      h.calling, h.idle, fun j d hd => ?_, fun j hj => h.data j (by simpa using hj),
      fun j hj => h.late j (by simpa using hj)⟩
    · rw [(harr.map Item.ref).mem_iff, List.map_append, List.mem_append, h.accepted j,
        List.getElem?_set]
      simp only [Scheduler.arrivals, List.map_cons, List.map_nil, List.mem_singleton]
      by_cases hij : i = j
      · subst hij
        simp [hlt]
      · simp [hij, Ne.symm hij]
    · rw [List.getElem?_set] at hd
      by_cases hij : i = j
      · subst hij
        simp only [if_true, hlt, Option.some.injEq] at hd
        subst hd
        exact ⟨rfl, by simp⟩
      · simp only [hij, if_false] at hd
        exact h.clients j d hd

/-- A handler's own `mark_failed`, after which it goes on. -/
theorem Server.Inv.expire (h : S.Inv py) {i : ℕ} {m : Task.Method} {after : Handlers.Pc}
    (hi : S.clients[i]? = some (.waits (.call m after))) :
    Server.Inv py { S with pool := S.pool.call (some (i, m)), clients := S.clients.set i (.waits after) } := by
  have hlt := (List.getElem?_eq_some_iff.mp hi).1
  obtain ⟨⟨-, hclosing⟩, hcall⟩ := h.clients i _ hi
  obtain ⟨rfl, hexpired⟩ := hcall _ _ rfl
  have hev := call_evolves S.pool (some (i, Local.expire))
  have hend : ((S.pool.call (some (i, Local.expire))).tasks i).terminal = true :=
    (call_after S.pool (some (i, Local.expire))).called i _ rfl rfl
  have hpool : (S.pool.call (some (i, Local.expire))).Inv := h.pool.call _
  refine ⟨h.sched, h.kept, hpool, h.caused.call ?_, by simpa using h.created, fun j => ?_,
    h.handed, h.calling, h.idle, fun j d hd => ?_, fun j hj => ?_, fun j hj hcode => ?_⟩
  · rintro j m hm -
    exact .inl (Prod.mk.inj (Option.some.inj hm)).2.symm
  · rw [h.accepted j, List.getElem?_set]
    by_cases hij : i = j
    · subst hij
      simp only [hi, if_true, hlt, Option.some.injEq, Client.waits.injEq]
      exact ⟨fun _ => ⟨after, rfl⟩, fun _ => ⟨_, rfl⟩⟩
    · simp only [hij, if_false]
  · rw [List.getElem?_set] at hd
    by_cases hij : i = j
    · subst hij
      simp only [if_true, hlt, Option.some.injEq] at hd
      subst hd
      refine ⟨hclosing.ok hend, fun m' after' hpc => ?_⟩
      rcases hclosing with ⟨-, ha⟩ | ⟨he, -⟩ | ⟨he, -⟩
      · rw [ha] at hpc
        cases hpc
      · cases he
      · cases he
    · simp only [hij, if_false] at hd
      exact (h.clients j d hd).later (hev j) le_rfl
  · obtain ⟨x, hx⟩ := h.data j (by simpa using hj)
    exact ⟨x, (hev j).inputData.trans hx⟩
  · have hj' : j < S.clients.length := by simpa using hj
    have hstay : ∀ u : Task, Task.Evolves (S.pool.tasks j) u →
        (S.pool.tasks j).isExpired S.pool.mono = true → u.isExpired S.pool.mono = true :=
      fun u hu => Handlers.isExpired_mono hu.deadline le_rfl
    by_cases hij : j = i
    · subst hij
      exact hstay _ (hev j) hexpired
    · simp only [Sys.call, Function.update_of_ne hij] at hcode ⊢
      exact h.late j hj' hcode

/-- Only the check of the deadline leads to a call. -/
theorem next_call {t : Task} {mono : ℤ} {pc : Handlers.Pc} {m : Task.Method} {after : Handlers.Pc}
    (hok : pc.Ok .predict t mono false) (hn : pc.next t mono false = some (.call m after)) :
    m = expire ∧ t.isExpired mono = true := by
  cases pc with
  | pAfter =>
    simp only [Handlers.Pc.next, Option.some.injEq] at hn
    split at hn
    next hexpired =>
      simp only [Handlers.Pc.call.injEq] at hn
      exact ⟨hn.1.symm, hexpired⟩
    · cases hn
  | pLoop | pPoll | pFailed | pDeadline | pOverloaded | pDone =>
    simp only [Handlers.Pc.next, Option.some.injEq] at hn
    split at hn <;> cases hn
  | tLoop | tDisconnected | tExpired => cases hok
  | tFailed | tStatus | tDetail status | tResult => cases hok.1
  | _ => simp [Handlers.Pc.next] at hn

theorem Server.Inv.handlerStep (h : S.Inv py) {i : ℕ} (hs : S.handlerStep i = some T) :
    T.Inv py := by
  unfold Server.handlerStep at hs
  split at hs
  next m after hi =>
    obtain rfl := Option.some.inj hs
    exact h.expire hi
  next pc _ hi =>
    obtain ⟨pc', hpc', rfl⟩ := Option.map_eq_some_iff.mp hs
    have hok : pc.Ok .predict (S.pool.tasks i) S.pool.mono false := (h.clients i _ hi).1
    have hnext := hok.next hpc'
    simp only [Bool.and_false, Bool.or_false] at hnext
    refine h.client hi (by simp) ⟨hnext, fun m after hcall => ?_⟩
    exact next_call hok (hcall ▸ hpc')
  · cases hs

/-- **Step lemma.** -/
theorem Server.Inv.step (h : S.Inv py) {a : Act} (ha : a.Forward) (hs : S.step py a = some T) :
    T.Inv py := by
  cases a with
  | request x taskId =>
    simp only [Server.step] at hs
    obtain ⟨p, hp, rfl⟩ := Option.map_eq_some_iff.mp hs
    exact h.request hp
  | put i =>
    simp only [Server.step] at hs
    split at hs
    next hi =>
      split at hs
      · obtain rfl := Option.some.inj hs
        exact h.client hi (by simp) trivial
      · obtain ⟨t, ht, rfl⟩ := Option.map_eq_some_iff.mp hs
        exact h.put hi ht
    · cases hs
  | handler i => exact h.handlerStep hs
  | sched clock => exact h.schedStep ha hs
  | configure c =>
    obtain rfl := Option.some.inj hs
    exact h.scheduler (e := .configure c) trivial rfl rfl (.refl _) h.calling h.idle
  | stopScheduler =>
    obtain rfl := Option.some.inj hs
    exact h.scheduler (e := .stop) trivial rfl rfl (.refl _) h.calling h.idle
  | pool e =>
    simp only [Server.step] at hs
    split at hs
    next he =>
      obtain ⟨p, hp, rfl⟩ := Option.map_eq_some_iff.mp hs
      obtain ⟨hframe, hsubmit, hwithin⟩ := frame_inside h.pool he hp
      exact h.frame hframe (h.pool.step hp) (h.caused.step h.pool (hwithin _) hp)
        fun hc => hsubmit.trans (h.idle hc)
    · cases hs

theorem Server.Init.inv (h : S.Init) : S.Inv py where
  sched := Scheduler.inv_init h.sched
  kept := h.sched.kept
  pool := h.pool.inv
  caused := h.pool.caused
  created := by simp [h.created, h.clients]
  accepted := fun i => by
    obtain ⟨-, -, -, htaken, -⟩ := h.sched
    simp [htaken, h.queue, h.clients]
  handed := by
    obtain ⟨-, -, -, -, hhanded⟩ := h.sched
    simp [h.pool.submitted, Server.batch, h.calling, hhanded]
  calling := by simp [h.calling]
  idle := fun _ => h.pool.submit
  clients := by simp [h.clients]
  data := by simp [h.clients]
  late := by simp [h.clients]

end Step

/-! ## The answers -/

section Answers

variable {py : Interpreter} {S : Server} {i : ℕ} {x : Json} {m : Task.Method} {a : Answer}

/-- What the answer to request `i` with the value `x` may be. -/
inductive Justified (py : Interpreter) (S : Server) (i : ℕ) (x : Json) : Answer → Prop where
  /-- a worker that was given the request squared its value -/
  | squared (e : ℕ × Batch) (he : e ∈ S.pool.log) (hw : e.1 < S.pool.size) (hi : i ∈ e.2)
      (prediction : Json) (hsquare : square py x = .ok prediction) (elapsed : ℤ) :
      Justified py S i x (.predictResponse (S.pool.tasks i).taskId
        (.obj [("prediction", prediction), ("worker_id", .int e.1)]) elapsed)
  /-- the value has no square, and a worker that was given the request said why -/
  | raised (e : ℕ × Batch) (he : e ∈ S.pool.log) (hi : i ∈ e.2) (error : Pool.Exc)
      (hsquare : square py x = .error error) :
      Justified py S i x (.httpError 500 (Handlers.predictDetail (some error.text)))
  /-- the failure injection struck the batch of the request -/
  | injected (e : ℕ × Batch) (he : e ∈ S.pool.log) (hi : i ∈ e.2) :
      Justified py S i x (.httpError 500 (Handlers.predictDetail (some (injectedError e.1))))
  | nobody (h0 : S.pool.size = 0) : Justified py S i x (.httpError 500 (.str "no workers available"))
  /-- the deadline of the request is over -/
  | late (hlate : (S.pool.tasks i).isExpired S.pool.mono = true) :
      Justified py S i x (.httpError 504 (.str "request deadline exceeded"))
  /-- the request never got onto the queue -/
  | refused (hc : S.clients[i]? = some .refused) :
      Justified py S i x (.httpError 503 (.str "task queue is full"))

theorem predictAnswer_failed {t : Task} {e : String} {code : Option String}
    (h : Outcome (.markFailed e code) t) : Handlers.predictAnswer t =
      .httpError (Handlers.predictStatus code) (Handlers.predictDetail (some e)) := by
  obtain ⟨hs, he, hcode⟩ := h
  rw [Handlers.predictAnswer, if_pos hs, he, hcode]

/-- The method that ended the task justifies the answer. -/
theorem Server.Inv.justified (h : S.Inv py) (hlt : i < S.clients.length)
    (hdata : (S.pool.tasks i).inputData = .obj [("x", x)])
    (hm : m = Local.expire ∨ Cause py S.pool i m) (hout : Outcome m (S.pool.tasks i)) :
    Justified py S i x (Handlers.predictAnswer (S.pool.tasks i)) := by
  rcases hm with rfl | hcause
  · rw [predictAnswer_failed hout]
    exact .late (h.late i hlt hout.2.2)
  · cases hcause with
    | computed e he hi =>
      have hx : ((S.pool.tasks i).inputData.get? "x").getD (.int 0) = x := by
        rw [hdata]
        rfl
      simp only [result, hx] at hout
      cases hsquare : square py x with
      | ok prediction =>
        simp only [hsquare] at hout
        obtain ⟨hs, hresult, end', hend⟩ := hout
        rw [Handlers.predictAnswer, if_neg (by simp [hs]), hend, hresult]
        exact .squared e he (h.pool.log e he) hi prediction hsquare _
      | error error =>
        simp only [hsquare] at hout
        rw [predictAnswer_failed hout]
        exact .raised e he hi error hsquare
    | injected e he hi =>
      rw [predictAnswer_failed hout]
      exact .injected e he hi
    | nobody h0 =>
      rw [predictAnswer_failed hout]
      exact .nobody h0

end Answers

/-- **Every answer of `predict` is right.**  In every run of the server, with any number of requests,
strategies switched, failures injected and workers stopped at any moment, whatever a handler answers
is justified: a `200` holds the square of the request's own value with a worker that was given this
very request; an error has its cause. -/
theorem answers_right (py : Interpreter) {S₀ S : Server} {acts : List Act} (h₀ : S₀.Init)
    (hC : Meets (Server.step py) (fun _ a => a.Forward) S₀ acts)
    (h : exec (Server.step py) S₀ acts = some S) {i : ℕ} {c : Client} {a : Answer}
    (hc : S.clients[i]? = some c) (ha : c.answer = some a) :
    ∃ x, (S.pool.tasks i).inputData = .obj [("x", x)] ∧ Justified py S i x a := by
  have hinv : S.Inv py := exec_inv_meets (fun _ _ _ hC hP hs => hP.step hC hs) hC h₀.inv h
  have hlt := (List.getElem?_eq_some_iff.mp hc).1
  obtain ⟨x, hx⟩ := hinv.data i hlt
  refine ⟨x, hx, ?_⟩
  cases c with
  | putting => cases ha
  | refused =>
    obtain rfl := Option.some.inj ha
    exact .refused hc
  | waits pc =>
    have hok := (hinv.clients i _ hc).1
    cases pc with
    | answered a' =>
      obtain rfl := Option.some.inj ha
      obtain ⟨hend, rfl⟩ := hok
      obtain ⟨m, hm, hout⟩ := hinv.caused i hend
      exact hinv.justified hlt hx hm hout
    | _ => cases ha

/-- A server with two workers that serves first come, first served, one request at a time. -/
def idleServer : Server where
  sched := { config := ⟨some .fifo, 1, 0⟩, queue := [], buffer := [], pc := .loop, stop := false,
             taken := [], handed := [] }
  pool := idlePool
  calling := false
  clients := []
  maxSize := 10

theorem idleServer_init : idleServer.Init where
  sched := ⟨by simp [idleServer], rfl, rfl, rfl, rfl⟩
  queue := rfl
  pool := idlePool_init
  created := rfl
  calling := rfl
  clients := rfl

/-- A request from its arrival until every thread has gone back to waiting. -/
def servedRun : List Act :=
  [.request (.int 3) "a", .put 0] ++ List.replicate 13 (.sched fun _ => 0) ++
    List.replicate 12 (.pool (.worker 0 false 0)) ++ List.replicate 6 (.handler 0)

theorem servedRun_forward : Meets (Server.step plainInterpreter) (fun _ a => a.Forward) idleServer
    servedRun := by
  refine meets_of_forall (fun a ha _ => ?_) _
  simp only [servedRun, List.cons_append, List.nil_append, List.mem_cons, List.mem_append,
    List.mem_replicate] at ha
  rcases ha with rfl | rfl | ((⟨-, rfl⟩ | ⟨-, rfl⟩) | ⟨-, rfl⟩)
  case inr.inr.inl.inl => exact fun _ _ _ => le_rfl
  all_goals trivial

theorem answers_right_served : ∃ S x, exec (Server.step plainInterpreter) idleServer servedRun = some S ∧
    (S.pool.tasks 0).inputData = .obj [("x", x)] ∧
    Justified plainInterpreter S 0 x (.predictResponse "a"
      (.obj [("prediction", .int 9), ("worker_id", .int 0)]) 0) := by
  have hview : (exec (Server.step plainInterpreter) idleServer servedRun).map (·.clients) =
      some [.waits (.answered (.predictResponse "a"
        (.obj [("prediction", .int 9), ("worker_id", .int 0)]) 0))] := by
    decide +kernel
  obtain ⟨S, hS, hclients⟩ := Option.map_eq_some_iff.mp hview
  obtain ⟨x, hx, hanswer⟩ := answers_right plainInterpreter idleServer_init servedRun_forward hS
    (show S.clients[0]? = _ by rw [hclients]; rfl) rfl
  exact ⟨S, x, hS, hx, hanswer⟩

/-! ## No request is lost -/

/-- The tasks that are on their way to a worker, and those of the batches handed on. -/
def Server.places (S : Server) : List ℕ :=
  (S.sched.queue ++ S.sched.buffer ++ if S.calling then [] else S.sched.pc.inHand).map Item.ref ++
    S.pool.submitted.flatten

/-- Nothing is on its way to a worker, and every worker sleeps. -/
structure Server.Quiescent (S : Server) : Prop where
  queue : S.sched.queue = []
  buffer : S.sched.buffer = []
  hand : S.sched.pc.inHand = []
  calling : S.calling = false
  asleep : ∀ w < S.pool.size,
    (S.pool.workers w).pc.asleep = true ∧ (S.pool.workers w).hasWork = false

section Places

variable {py : Interpreter} {S : Server}

theorem Server.Inv.places_perm (h : S.Inv py) :
    S.places.Perm ((S.sched.taken ++ S.sched.queue).map Item.ref) := by
  have hkept := h.kept.perm.map Item.ref
  have hhanded := h.handed
  rw [List.perm_iff_count] at hkept hhanded ⊢
  intro i
  have hk := hkept i
  have hh := hhanded i
  cases hcalling : S.calling <;>
    simp only [Server.places, Server.batch, hcalling, List.map_append, List.count_append,
      Bool.false_eq_true, if_false, if_true, List.map_nil, List.count_nil] at hk hh ⊢ <;> omega

theorem current_of_asleep {pc : WorkerPc} (h : pc.asleep = true) : pc.current = [] := by
  cases pc <;> first | rfl | cases h

/-- When nothing is on its way, whatever was submitted has ended. -/
theorem Server.Inv.ended (h : S.Inv py) (hq : S.Quiescent) {i : ℕ}
    (hi : i ∈ S.pool.submitted.flatten) : Ended S.pool.tasks i := by
  obtain ⟨b, hb, hin⟩ := List.mem_flatten.mp hi
  have hidle := h.idle hq.calling
  by_cases h0 : S.pool.size = 0
  · have hend := (h.pool.refused h0).2 b hb i hin
    rw [hidle] at hend
    exact hend.resolve_right List.not_mem_nil
  · rw [h.pool.route h0, hidle] at hb
    simp only [SubmitPc.holding, List.append_nil] at hb
    obtain ⟨e, he, rfl⟩ := List.mem_map.mp hb
    obtain ⟨hasleep, hflag⟩ := hq.asleep e.1 (h.pool.log e he)
    have hrouted : e.2 ∈ S.pool.routed e.1 :=
      List.mem_map.mpr ⟨e, List.mem_filter.mpr ⟨he, by simp⟩, rfl⟩
    -- the worker sleeps, so all its batches are finished
    rw [h.pool.fifo e.1, Worker.batches, current_of_asleep hasleep,
      h.pool.told e.1 (by simp [hidle]) hasleep hflag, List.append_nil, List.append_nil] at hrouted
    exact (h.pool.ok e.1).finished e.2 hrouted i hin

end Places

/-- **No request is lost or served twice.**  In every run of the server the tasks that wait in the
queue, in the buffer or in the hand of the scheduler and those of the batches handed on are the
requests that got onto the queue, each once; a batch handed on is with one worker; and whenever
nothing is on its way and the workers sleep, every one of these requests has ended. -/
theorem requests_kept (py : Interpreter) {S₀ S : Server} {acts : List Act} (h₀ : S₀.Init)
    (hC : Meets (Server.step py) (fun _ a => a.Forward) S₀ acts)
    (h : exec (Server.step py) S₀ acts = some S) :
    S.places.Nodup ∧ (∀ i, i ∈ S.places ↔ ∃ pc, S.clients[i]? = some (.waits pc)) ∧
    (S.pool.size ≠ 0 → S.pool.submitted = S.pool.log.map Prod.snd ++ S.pool.submit.holding) ∧
    (∀ w, S.pool.routed w = (S.pool.workers w).batches) ∧
    (S.Quiescent → ∀ i pc, S.clients[i]? = some (.waits pc) → Ended S.pool.tasks i) := by
  have hinv : S.Inv py := exec_inv_meets (fun _ _ _ hC hP hs => hP.step hC hs) hC h₀.inv h
  have hperm := hinv.places_perm
  have hmem : ∀ i, i ∈ S.places ↔ ∃ pc, S.clients[i]? = some (.waits pc) := fun i => by
    rw [hperm.mem_iff]
    exact hinv.accepted i
  refine ⟨?_, hmem, hinv.pool.route, hinv.pool.fifo, fun hq i pc hpc => ?_⟩
  · have hrefs := hinv.sched.places.refs
    rw [hperm.nodup_iff, List.map_append]
    rw [List.map_append] at hrefs
    exact (List.perm_append_comm.nodup_iff).mp hrefs
  · have hin := (hmem i).mpr ⟨pc, hpc⟩
    simp only [Server.places, hq.queue, hq.buffer, hq.hand, hq.calling, Bool.false_eq_true, if_false,
      List.append_nil, List.map_nil, List.nil_append] at hin
    exact hinv.ended hq hin

theorem requests_kept_served : ∃ S, exec (Server.step plainInterpreter) idleServer servedRun = some S ∧
    S.places = [0] ∧ S.pool.log = [(0, [0])] ∧ Ended S.pool.tasks 0 := by
  have hview : (exec (Server.step plainInterpreter) idleServer servedRun).map (fun S =>
      (S.pool.log, S.sched, S.calling, S.places)) =
      some ([(0, [0])], ⟨⟨some .fifo, 1, 0⟩, [], [], .loop, false, [⟨0, 0⟩], [⟨0, 0⟩]⟩, false, [0]) := by
    decide +kernel
  have hworkers : (exec (Server.step plainInterpreter) idleServer servedRun).map (fun S =>
      (S.pool.size, (List.range 2).map fun w => ((S.pool.workers w).pc, (S.pool.workers w).hasWork))) =
      some (2, [(.test, false), (.test, false)]) := by
    decide +kernel
  obtain ⟨S, hS, hv⟩ := Option.map_eq_some_iff.mp hview
  rw [hS] at hworkers
  simp only [Option.map_some, Option.some.injEq, Prod.mk.injEq] at hv hworkers
  obtain ⟨hlog, hsched, hcalling, hplaces⟩ := hv
  have hq : S.Quiescent := by
    refine ⟨by rw [hsched], by rw [hsched], by rw [hsched]; rfl, hcalling, fun w hw => ?_⟩
    rw [hworkers.1, ← List.mem_range] at hw
    have hmem := hworkers.2 ▸ List.mem_map_of_mem (f := fun w =>
      ((S.pool.workers w).pc, (S.pool.workers w).hasWork)) hw
    simp only [List.mem_cons, Prod.mk.injEq, List.not_mem_nil, or_false, or_self] at hmem
    exact ⟨by rw [hmem.1]; rfl, hmem.2⟩
  obtain ⟨-, hmem, -, -, hended⟩ := requests_kept plainInterpreter idleServer_init servedRun_forward hS
  obtain ⟨pc, hpc⟩ := (hmem 0).mp (by rw [hplaces]; exact List.mem_singleton_self 0)
  exact ⟨S, hS, hplaces, hlog, hended hq 0 pc hpc⟩

end Inference.Local
