import Inference.Lib.Run
import Inference.V73.Artifacts

/-!
# Inference.V73.Worker — every call of `V73Worker.process` for one job

The calls of any number of worker processes that share one deployment root, for one `job_id`.  A
call is its main thread (`process`) and, once started, its collector thread (`_execute`); each step
is one operation on a file, a lock, the socket or S3.  Any operation may raise, a write also after
the file was replaced; a kill ends all calls of a process and drops its flocks.

`return state['result']` leaves `job_lock` open, and a collector that cannot be started leaves both
locks open: such a lock is free again only when the process ends.

* `mainStep`, `collectStep`: the next operation of either thread.
* `step`: everything together, with the daemon and the other jobs; `step_cases` inverts it.
-/

namespace Inference.V73

open Inference.Lib

/-- `state.json`, as a dict in memory; a missing key is `none`. -/
structure State where
  fingerprint : Option String := none
  output : Option String := none
  running : Option Bool := none
  response : Option Json := none
  result : Option Json := none
  error : Option (Code × String) := none
deriving DecidableEq

namespace State

/-- `not state` -/
def isEmpty (st : State) : Bool :=
  st.fingerprint.isNone && st.output.isNone && st.running.isNone && st.response.isNone &&
    st.result.isNone && st.error.isNone

/-- `_canonical(state)` does not raise. -/
def finite (st : State) : Bool := st.response.all Json.finite && st.result.all Json.finite

/-- What `_read_json` gives back for a state that `_write_json` wrote. -/
def readBack (st : State) : State :=
  { st with response := st.response.map Json.sortKeys, result := st.result.map Json.sortKeys }

/-- `state.get('running')` is true. -/
def isRunning (st : State) : Bool := st.running = some true

end State

/-- Program points of `process`. -/
inductive Main where
  /-- the checks before anything is touched -/
  | begin
  /-- `job_lock = self._lock(job_dir / 'job.lock', 'already_running')` -/
  | lockJob
  /-- `state = self._read_json(state_path) if state_path.exists() else {}` -/
  | readState
  /-- `out = self._safe_path(…)` and `out.exists()` -/
  | checkOut
  /-- `recovered = self._recover_response(state, out)` -/
  | recover
  /-- `model_lock = self._lock(self.cache_root / 'execution.lock', 'worker_busy')` -/
  | lockModel
  /-- `collector.start()` -/
  | start
  /-- `while not done.wait(.02)` and what follows -/
  | wait
  /-- `except BaseException: os.close(job_lock)` -/
  | closeJob (e : Exn)
  | returned (result : Json)
  | raised (e : Exn)
deriving DecidableEq

/-- Program points of `run` and `_execute`. -/
inductive Collector where
  | idle
  /-- the first `self._write_json(state_path, state)` -/
  | writeInit
  | download
  /-- `self._check_active(context, deadline)` -/
  | checkActive
  /-- `sock.connect(self.socket_path)` -/
  | connect
  /-- `state['running'] = True` and its write -/
  | mark
  /-- `sock.sendall(…)` -/
  | send
  /-- `line = stream.readline(…)` and the checks on it -/
  | receive
  /-- `state['response'] = response` and its write -/
  | saveResponse (response : Json)
  | upload
  /-- `state['result'] = result` and its write -/
  | saveResult (result : Json)
  /-- `state['error'] = {…}` and its write -/
  | saveError (e : WorkerError)
  /-- `os.close(model_lock)` -/
  | closeModel (o : Except WorkerError Json)
  /-- `os.close(job_lock)` -/
  | closeJob (o : Except WorkerError Json)
  | done (o : Except WorkerError Json)

structure Call where
  proc : ℕ
  spec : Spec
  /-- for the record: the output directory existed when `process` was called -/
  outAtStart : Bool
  alive : Bool := true
  state : State := {}
  main : Main := .begin
  collector : Collector := .idle

/-- Who holds `execution.lock`. -/
inductive Holder where
  | free
  | call (i : ℕ)
  | otherJob
deriving DecidableEq, Repr

/-- Where the daemon is with the one request of this job. -/
inductive Daemon where
  | idle
  | working
  | finished
deriving DecidableEq, Repr

/-- For the record: a call wrote request bytes to the socket. -/
structure Request where
  call : ℕ
  outAtStart : Bool
deriving DecidableEq, Repr

/-- What the calls read and write, the locks apart. -/
structure World where
  /-- `state.json` -/
  file : Option State := none
  files : FileSystem
  daemon : Daemon := .idle
  requests : List Request := []

structure Sys extends World where
  /-- the call whose descriptor holds `job.lock` -/
  jobLock : Option ℕ := none
  modelLock : Holder := .free
  calls : List Call := []

/-- What the environment answers to one operation. -/
structure Io where
  /-- the RPC is active and the deadline is ahead -/
  active : Bool := true
  /-- the operation raises -/
  fault : Option Exn := none
  /-- the operation raises after it took effect -/
  late : Option Exn := none
  /-- `_read_json` of the report raises `ValueError` or `OSError` -/
  unreadable : Bool := false
  /-- of a `sendall` that raises: some bytes left, the whole request left -/
  bytes : Bool := false
  whole : Bool := false
  /-- what S3 reports and delivers -/
  contentLength : Option ℤ := none
  reads : List Bytes := []
  /-- what `readline` returns -/
  line : Bytes := []
deriving DecidableEq

inductive Event where
  | process (proc : ℕ) (spec : Spec)
  | main (i : ℕ) (io : Io)
  | collect (i : ℕ) (io : Io)
  | kill (proc : ℕ)
  /-- another job takes or leaves `execution.lock` -/
  | otherJob (takes : Bool)
  /-- the output directory changes under the daemon, which may thereby finish -/
  | daemon (files : FileSystem) (finished : Bool)

variable (h : Host) (job : String)

/-! ### The errors `process` raises itself -/

def deadlineExceeded : WorkerError where
  code := .deadlineExceeded
  message := "request deadline exceeded"

def alreadyRunning : WorkerError where
  code := .alreadyRunning
  message := "job is already running"
  retryable := true

def specConflict : WorkerError where
  code := .specConflict
  message := "job spec differs from its immutable fingerprint"

def unresolved : WorkerError where
  code := .alreadyRunning
  message := "existing model execution is unresolved"
  retryable := true

def workerBusy : WorkerError where
  code := .workerBusy
  message := "model worker is busy"
  retryable := true

/-! ### The two threads -/

/-- What `run` records for an exception of `_execute`. -/
def outcomeOf : Exn → WorkerError
  | .worker e => e
  | _ => { code := .workerError, message := "unexpected worker failure", retryable := true }

/-- An exception inside the `try` of `_execute`. -/
def failed : Exn → Collector
  | .worker e => if e.final then .saveError e else .closeModel (.error e)
  | e => .closeModel (.error (outcomeOf e))

/-- What the `except Exception` of `_call_daemon` raises. -/
def daemonError (sent : Bool) : WorkerError where
  code := if sent then .alreadyRunning else .workerUnavailable
  message := if sent then "daemon result is unresolved" else "model socket is unavailable"
  retryable := true

def daemonFailed (sent : Bool) : Collector := failed (.worker (daemonError sent))

/-- `_write_json(state_path, state)`: the file it leaves and the exception it raises. -/
def writeState (file : Option State) (st : State) (io : Io) : Option State × Option Exn :=
  if io.fault.isSome then (file, io.fault)
  else if !st.finite then (file, some .value)
  else (some st.readBack, io.late)

/-- Call `i` becomes `c`. -/
def Sys.put (s : Sys) (i : ℕ) (c : Call) : Sys := { s with calls := s.calls.set i c }

/-- The checks of `process` on the state it read. -/
def afterRead (fingerprint : String) (st : State) : Main :=
  if !st.isEmpty && st.fingerprint ≠ some fingerprint then
    .closeJob (.worker specConflict)
  else match st.result, st.error with
    | some result, _ => .returned result
    | none, some (code, message) => .closeJob (.worker { code, message })
    | none, none => .checkOut

/-- The next operation of the thread that runs `process`. -/
def mainStep (s : Sys) (i : ℕ) (c : Call) (io : Io) : Option Sys :=
  match c.main, io.fault with
  | .begin, some e => some (s.put i { c with main := .raised e })
  | .begin, none =>
    some (s.put i { c with
      main := if io.active then .lockJob else .raised (.worker deadlineExceeded) })
  | .lockJob, some e => some (s.put i { c with main := .raised e })
  | .lockJob, none =>
    if s.jobLock = none then
      some ({ s with jobLock := some i }.put i { c with main := .readState })
    else
      some (s.put i { c with main := .raised (.worker alreadyRunning) })
  | .readState, some e => some (s.put i { c with main := .closeJob e })
  | .readState, none =>
    let st := s.file.getD {}
    some (s.put i { c with state := st, main := afterRead (h.fingerprint c.spec) st })
  | .checkOut, some e => some (s.put i { c with main := .closeJob e })
  | .checkOut, none =>
    match safePath h s.files (outDir h job) with
    | .error e => some (s.put i { c with main := .closeJob e })
    | .ok out =>
      if c.state.response.isNone && (c.state.isRunning || s.files.present out) then
        some (s.put i { c with main := .recover })
      else some (s.put i { c with main := .lockModel })
  | .recover, some e => some (s.put i { c with main := .closeJob e })
  | .recover, none =>
    match recoverResponse h s.files c.state.isRunning c.state.output (outDir h job) with
    | .error e => some (s.put i { c with main := .closeJob e })
    | .ok none => some (s.put i { c with main := .closeJob (.worker unresolved) })
    | .ok (some response) =>
      if io.unreadable then some (s.put i { c with main := .closeJob (.worker unresolved) })
      else
        some (s.put i { c with
          state := { c.state with response := some response, running := some false }
          main := .lockModel })
  | .lockModel, some e => some (s.put i { c with main := .closeJob e })
  | .lockModel, none =>
    if s.modelLock = .free then
      some ({ s with modelLock := .call i }.put i { c with main := .start })
    else
      some (s.put i { c with main := .closeJob (.worker workerBusy) })
  | .start, some e => some (s.put i { c with main := .raised e })
  | .start, none => some (s.put i { c with main := .wait, collector := .writeInit })
  | .wait, _ =>
    if !io.active then some (s.put i { c with main := .raised (.worker deadlineExceeded) })
    else match c.collector with
      | .done (.ok result) => some (s.put i { c with main := .returned result })
      | .done (.error e) => some (s.put i { c with main := .raised (.worker e) })
      | _ => none
  | .closeJob e, _ => some ({ s with jobLock := none }.put i { c with main := .raised e })
  | .returned _, _ | .raised _, _ => none

/-- The next operation of the thread that runs `_execute`. -/
def collectStep (s : Sys) (i : ℕ) (c : Call) (io : Io) : Option Sys :=
  match c.collector with
  | .writeInit =>
    let st := { c.state with
      fingerprint := some (h.fingerprint c.spec), output := some (outDir h job).text }
    let w := writeState s.file st io
    some ({ s with file := w.1 }.put i { c with
      state := st
      collector := match w.2 with
        | some e => .closeModel (.error (outcomeOf e))
        | none => if st.response.isNone then .download else .upload })
  | .download =>
    some (s.put i { c with
      collector := match io.fault with
        | some e => failed e
        | none => match download h c.spec io.contentLength io.reads with
          | .error e => failed e
          | .ok _ => .checkActive })
  | .checkActive =>
    some (s.put i { c with
      collector := if io.active then .connect else failed (.worker deadlineExceeded) })
  | .connect =>
    some (s.put i { c with
      collector := if io.fault.isSome then daemonFailed false else .mark })
  | .mark =>
    let st := { c.state with running := some true }
    let w := writeState s.file st io
    some ({ s with file := w.1 }.put i { c with
      state := st
      collector := if w.2.isSome then daemonFailed false else .send })
  | .send =>
    let whole := io.whole || io.fault.isNone
    some ({ s with
        requests := if whole || io.bytes then ⟨i, c.outAtStart⟩ :: s.requests else s.requests
        daemon := if whole then .working else s.daemon }.put i { c with
      collector := if io.fault.isSome then daemonFailed true else .receive })
  | .receive =>
    some (s.put i { c with
      collector := match io.fault, daemonResponse h io.line with
        | none, some response => .saveResponse response
        | _, _ => daemonFailed true })
  | .saveResponse response =>
    let st := { c.state with response := some response, running := some false }
    let w := writeState s.file st io
    some ({ s with file := w.1 }.put i { c with
      state := st
      collector := match w.2 with
        | some e => failed e
        | none => .upload })
  | .upload =>
    some (s.put i { c with
      collector := match io.fault with
        | some e => failed e
        | none =>
          match uploadResult h s.files c.spec (outDir h job) (c.state.response.getD .null) with
          | .error e => failed e
          | .ok result => .saveResult result })
  | .saveResult result =>
    let st := { c.state with result := some result }
    let w := writeState s.file st io
    some ({ s with file := w.1 }.put i { c with
      state := st
      collector := match w.2 with
        | some e => failed e
        | none => .closeModel (.ok result) })
  | .saveError e =>
    let st := { c.state with error := some (e.code, e.message) }
    let w := writeState s.file st io
    some ({ s with file := w.1 }.put i { c with
      state := st
      collector := .closeModel (.error ((w.2.map outcomeOf).getD e)) })
  | .closeModel o =>
    some ({ s with modelLock := .free }.put i { c with collector := .closeJob o })
  | .closeJob o => some ({ s with jobLock := none }.put i { c with collector := .done o })
  | .idle | .done _ => none

/-- The calls that run in process `p` end with it. -/
def Call.killed (p : ℕ) (c : Call) : Call := if c.proc = p then { c with alive := false } else c

/-- Call `i` runs in process `p`. -/
def Sys.runsIn (s : Sys) (p i : ℕ) : Bool := (s.calls[i]?).any fun c => c.proc = p

def step (s : Sys) : Event → Option Sys
  | .process proc spec =>
    if spec.jobId = job then
      some { s with
        calls := s.calls ++ [{ proc, spec, outAtStart := s.files.present (outDir h job) }] }
    else none
  | .main i io =>
    match s.calls[i]? with
    | some c => if c.alive then mainStep h job s i c io else none
    | none => none
  | .collect i io =>
    match s.calls[i]? with
    | some c => if c.alive then collectStep h job s i c io else none
    | none => none
  | .kill p =>
    some { s with
      calls := s.calls.map (Call.killed p)
      jobLock := if s.jobLock.any (s.runsIn p) then none else s.jobLock
      modelLock := match s.modelLock with
        | .call i => if s.runsIn p i then .free else s.modelLock
        | m => m }
  | .otherJob takes =>
    match takes, s.modelLock with
    | true, .free => some { s with modelLock := .otherJob }
    | false, .otherJob => some { s with modelLock := .free }
    | _, _ => none
  | .daemon files finished =>
    -- nobody removes an output directory
    if s.files.present (outDir h job) && !files.present (outDir h job) then none
    else some { s with files, daemon := if finished then .finished else s.daemon }

/-- What a step can do. -/
inductive Steps (s : Sys) : Event → Sys → Prop where
  | process (proc : ℕ) {spec : Spec} (hjob : spec.jobId = job) : Steps s (.process proc spec) { s with
      calls := s.calls ++ [{ proc, spec, outAtStart := s.files.present (outDir h job) }] }
  | main {i : ℕ} {io : Io} {c : Call} {s' : Sys} (hc : s.calls[i]? = some c) (ha : c.alive = true)
    (hs : mainStep h job s i c io = some s') : Steps s (.main i io) s'
  | collect {i : ℕ} {io : Io} {c : Call} {s' : Sys} (hc : s.calls[i]? = some c)
    (ha : c.alive = true) (hs : collectStep h job s i c io = some s') : Steps s (.collect i io) s'
  | kill (p : ℕ) : Steps s (.kill p) { s with
      calls := s.calls.map (Call.killed p)
      jobLock := if s.jobLock.any (s.runsIn p) then none else s.jobLock
      modelLock := match s.modelLock with
        | .call i => if s.runsIn p i then .free else s.modelLock
        | m => m }
  | takes (hfree : s.modelLock = .free) : Steps s (.otherJob true) { s with modelLock := .otherJob }
  | gives (hheld : s.modelLock = .otherJob) :
    Steps s (.otherJob false) { s with modelLock := .free }
  | daemon (files : FileSystem) (finished : Bool)
    (hout : s.files.present (outDir h job) = true → files.present (outDir h job) = true) :
    Steps s (.daemon files finished)
      { s with files, daemon := if finished then .finished else s.daemon }

variable {h job}

theorem step_cases {s s' : Sys} {e : Event} (hs : step h job s e = some s') :
    Steps h job s e s' := by
  cases e with
  | process proc spec =>
    rw [step] at hs
    split at hs
    next hjob =>
      cases hs
      exact .process proc hjob
    next => cases hs
  | main i io =>
    simp only [step] at hs
    split at hs
    next c hc =>
      split at hs
      next ha => exact .main hc ha hs
      next => cases hs
    next => cases hs
  | collect i io =>
    simp only [step] at hs
    split at hs
    next c hc =>
      split at hs
      next ha => exact .collect hc ha hs
      next => cases hs
    next => cases hs
  | kill p =>
    cases hs
    exact .kill p
  | otherJob takes =>
    simp only [step] at hs
    split at hs
    next hfree =>
      cases hs
      exact .takes hfree
    next hheld =>
      cases hs
      exact .gives hheld
    next => cases hs
  | daemon files finished =>
    simp only [step] at hs
    split at hs
    next => cases hs
    next hkept =>
      cases hs
      exact .daemon files finished fun hpres => by simpa [hpres] using hkept

@[simp] theorem Call.killed_spec (p : ℕ) (c : Call) : (c.killed p).spec = c.spec := by
  unfold killed
  split <;> rfl

@[simp] theorem Call.killed_outAtStart (p : ℕ) (c : Call) :
    (c.killed p).outAtStart = c.outAtStart := by
  unfold killed
  split <;> rfl

@[simp] theorem Call.killed_main (p : ℕ) (c : Call) : (c.killed p).main = c.main := by
  unfold killed
  split <;> rfl

@[simp] theorem Call.killed_collector (p : ℕ) (c : Call) :
    (c.killed p).collector = c.collector := by
  unfold killed
  split <;> rfl

end Inference.V73
