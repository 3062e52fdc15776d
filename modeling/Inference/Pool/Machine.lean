import Inference.Pool.Process
import Inference.Discovery

/-!
# Inference.Pool.Machine — `GrpcWorkerPool` of `system/grpc_worker_pool.py`

The proxies with their queues and dispatch threads, the membership, and any number of threads inside
`submit`, `_update_workers` and `stop`.  A `Point` is where one of them stands, with its local
variables; `stmt` is the statement there: what it does to the shared state (`Effect`) and the point
after it.  Statements under a proxy's lock or a task's lock are atomic; the pool lock is an explicit
`lock`, since other threads run while it is held.

* `Point.held`: the tasks a thread answers for; `Sys.held`: who holds which task.
* `critical`: the points inside the pool lock.
* `notes`: what became of each task: calls of `ProcessBatch`, the reservation, the handoff.
* `stmt_cases`, `step_cases`: what a statement and a step can do; every invariant is read off them.
-/

namespace Inference.Pool.Machine

open Inference.Lib
open Inference.Discovery (RoutingState WorkerInfo)

/-- What the pool reads but never changes: `json.loads` and `WORKER_CAPABILITIES`. -/
structure Config where
  loads : String → Except Exc Json
  capabilities : Option (List (String × List String))

/-- `_kind(task)`. -/
def kind (t : Task) : Json :=
  match t.inputData with
  | .obj fields => (fields.lookup "kind").getD (.str "simulation")
  | _ => .str "simulation"

/-- `_supports(worker, task)`. -/
def supports (cfg : Config) (workerId : String) (t : Task) : Bool :=
  let kinds := match cfg.capabilities with
    | none => ["simulation", "synthx_v73"]
    | some capabilities => (Dict.get? workerId capabilities).getD []
  match kind t with
  | .str k => kinds.contains k
  | _ => false

/-- A `GrpcWorker`; its dispatch thread is in `Sys.points`. -/
structure Proxy where
  workerId : String
  address : String
  queue : List (List ℕ) := []
  stop : Bool := false
  retryOnStop : Bool := false
  processing : Bool := false
  routing : RoutingState := .ready
deriving DecidableEq, Repr

namespace Proxy

/-- `try_submit` answers `True`. -/
def accepts (w : Proxy) : Bool :=
  !w.stop && w.routing == .ready && decide (w.processing.toNat + w.queue.length < 2)

def isReady (w : Proxy) : Bool := !w.stop && w.routing == .ready

def busy (w : Proxy) : Bool := w.processing || !w.queue.isEmpty

/-- `begin_stop(retry_pending)`. -/
def beginStop (w : Proxy) (retryPending : Bool) : Proxy :=
  if w.stop then w else { w with retryOnStop := retryPending, stop := true }

end Proxy

/-- The dispatch thread of a proxy, or a thread that called the pool. -/
inductive Who where
  | loop (p : ℕ)
  | thread (n : ℕ)
deriving DecidableEq, Repr

/-- Where `_process` returns to, or the loop of `stop` that finishes what was queued. -/
inductive Cont where
  | loop
  | retire (retryPending : Bool) (rest : List ℕ)
deriving DecidableEq, Repr

/-- A call of `try_resubmit` for task `i` out of `_finish_or_retry` of proxy `p`. -/
structure Frame where
  p : ℕ
  i : ℕ
  rest : List ℕ
  text : String
  allow : Allow
  k : Cont
deriving DecidableEq, Repr

/-- Program points of `try_resubmit`. -/
inductive Resubmit where
  /-- the comprehension that collects `candidates` -/
  | candidates (scan acc : List ℕ)
  /-- `if not task.try_reserve_retry()` -/
  | reserve (candidates : List ℕ)
  /-- `if w.busy()` -/
  | classify (scan idle busy : List ℕ)
  /-- `if w.try_submit([task])` -/
  | offer (rest : List ℕ)
deriving DecidableEq, Repr

inductive Point where
  /-- not started, or returned -/
  | halted
  /-- `while not self._stop.is_set()` in `_loop` -/
  | top (p : ℕ)
  /-- `if self._stop.is_set() or not self._batch_queue` -/
  | inner (p : ℕ)
  /-- `self._processing = False` -/
  | ending (p : ℕ)
  /-- inside `_process` or `_finish_or_retry` of proxy `p` -/
  | process (p : ℕ) (pc : Pc) (k : Cont)
  | resubmit (f : Frame) (r : Resubmit)
  /-- `kind = self._kind(task)` in `submit` -/
  | grouping (rest : List ℕ) (groups : List (String × List ℕ))
  /-- `for group in groups.values()` -/
  | groups (gs : List (List ℕ))
  /-- `with self._lock` in `_submit_compatible` -/
  | compatible (batch : List ℕ) (gs : List (List ℕ))
  /-- the comprehension that collects `ready` -/
  | ready (batch scan acc : List ℕ) (gs : List (List ℕ))
  /-- `task.mark_failed("no ready workers available", …)` -/
  | noReady (rest : List ℕ) (gs : List (List ℕ))
  /-- the comprehension that collects `idle`, then the choice of a worker -/
  | idle (batch ready scan acc : List ℕ) (gs : List (List ℕ))
  /-- `if worker.try_submit(batch)` -/
  | offer (batch : List ℕ) (w : ℕ) (gs : List (List ℕ))
  /-- `with self._lock` again -/
  | again (batch : List ℕ) (w : ℕ) (gs : List (List ℕ))
  /-- `if w is worker or not w.is_ready() or …` -/
  | scan (batch : List ℕ) (w : ℕ) (rest : List ℕ) (gs : List (List ℕ))
  /-- `if w.try_submit(batch)` -/
  | scanOffer (batch : List ℕ) (w q : ℕ) (rest : List ℕ) (gs : List (List ℕ))
  /-- `return` out of the critical section -/
  | leave (gs : List (List ℕ))
  /-- `task.mark_failed("all workers at capacity", …)` -/
  | full (rest : List ℕ) (gs : List (List ℕ))
  /-- `with self._lock` in `_update_workers` -/
  | update (snapshot : Discovery.Workers)
  /-- `if wid not in self._workers` -/
  | add (snapshot rest : Discovery.Workers)
  /-- `self._workers[wid].set_routing_state(info.state)` -/
  | route (snapshot : Discovery.Workers) (wid : String) (info : WorkerInfo)
      (rest : Discovery.Workers)
  /-- `worker = self._workers.pop(wid)` -/
  | gone (rest : List String) (removed : List ℕ)
  /-- `worker.begin_stop(retry_pending=True)` -/
  | begin (p : ℕ) (rest : List String) (removed : List ℕ)
  /-- `worker.stop(retry_pending)`: its `begin_stop` -/
  | retire (retryPending : Bool) (rest : List ℕ)
  /-- `pending = self._batch_queue` -/
  | swap (p : ℕ) (retryPending : Bool) (rest : List ℕ)
  /-- `with self._lock` in `stop` -/
  | stop
  /-- `worker.begin_stop()` -/
  | beginAll (rest all : List ℕ)
deriving DecidableEq, Repr

/-- What happened to a task: `ProcessBatch` was called with it by proxy `p`; its retry was reserved,
when it was terminal or expired or not; `target` accepted it, which supports it or not, after the
critical section of `stop` or not. -/
inductive Note where
  | called (p : ℕ)
  | reserved (terminal expired : Bool)
  | accepted (source target : ℕ) (proxy : Proxy) (supported late : Bool)
deriving DecidableEq, Repr

/-- The shared state; `notes` and `stopDone` only record. -/
structure Sys where
  tasks : ℕ → Task
  mono : ℤ
  wall : ℤ
  proxies : ℕ → Proxy
  size : ℕ
  workers : List (String × ℕ)
  lock : Option Who
  stopping : Bool
  rrIndex : ℕ
  points : Who → Point
  submitted : List ℕ
  notes : ℕ → List Note
  stopDone : Bool

/-- What one statement does besides moving its thread on. -/
inductive Effect where
  /-- a method of a task, or nothing -/
  | call (c : Option (ℕ × Task.Method))
  /-- `ProcessBatch` is called -/
  | invoke (p : ℕ) (batch : List ℕ)
  /-- `try_reserve_retry` answers `True` -/
  | reserve (i : ℕ)
  | acquire
  | release
  /-- `self._rr_index += 1` and the end of the critical section -/
  | choose
  /-- `try_submit` appends the batch -/
  | push (q : ℕ) (batch : List ℕ)
  /-- the same, for a task handed over by proxy `p` -/
  | handoff (p q i : ℕ)
  /-- `batch = self._batch_queue.pop(0)`, `self._processing = True` -/
  | pop (p : ℕ)
  /-- `self._processing = False` -/
  | finish (p : ℕ)
  /-- `self._batch_queue = []` -/
  | swap (p : ℕ)
  | beginStop (p : ℕ) (retryPending : Bool)
  | route (p : ℕ) (state : RoutingState)
  /-- `self._workers[wid] = GrpcWorker(wid, info.address, self.try_resubmit)` -/
  | create (wid address : String)
  /-- `self._workers.pop(wid)` -/
  | drop (wid : String)
  /-- `self._stopping = True`, `self._workers.clear()` -/
  | close
  /-- the end of the critical section of `stop` -/
  | closed
deriving DecidableEq, Repr

/-- After `_process`, `_loop` clears its flag; after the loop of `stop`, the next worker. -/
def Cont.after (p : ℕ) : Cont → Point
  | .loop => .ending p
  | .retire retryPending rest => .retire retryPending rest

/-- The retry handler answers `False`, and `True`. -/
def Frame.refused (f : Frame) : Point :=
  .process f.p (.finishFail f.i f.text none f.rest f.text f.allow) f.k

def Frame.accepted (f : Frame) : Point := .process f.p (.finish f.rest f.text f.allow) f.k

namespace Sys

def view (s : Sys) (p : ℕ) : View := ⟨s.tasks, (s.proxies p).stop, (s.proxies p).retryOnStop, s.mono⟩

/-- `self._workers.values()`. -/
def values (s : Sys) : List ℕ := s.workers.map Prod.snd

/-- `_supports(w, batch[0])`. -/
def supportsBatch (cfg : Config) (s : Sys) (w : ℕ) (batch : List ℕ) : Bool :=
  batch.head?.any fun i => supports cfg (s.proxies w).workerId (s.tasks i)

/-- The next statement of a thread at a point of `try_resubmit`. -/
def resubmit (cfg : Config) (s : Sys) (f : Frame) : Resubmit → Effect × Point
  | .candidates [] acc =>
    (.release, if acc.isEmpty then f.refused else .resubmit f (.reserve acc))
  | .candidates (w :: scan) acc =>
    (.call none, .resubmit f (.candidates scan
      (if (s.proxies w).workerId ≠ (s.proxies f.p).workerId ∧ (s.proxies w).isReady = true ∧
          supports cfg (s.proxies w).workerId (s.tasks f.i) = true
        then acc ++ [w] else acc)))
  | .reserve candidates =>
    if ((s.tasks f.i).tryReserveRetry s.mono).1
    then (.reserve f.i, .resubmit f (.classify candidates [] []))
    else (.call none, f.refused)
  | .classify [] idle busy => (.call none, .resubmit f (.offer (idle ++ busy)))
  | .classify (w :: scan) idle busy =>
    (.call none, .resubmit f (if (s.proxies w).busy
      then .classify scan idle (busy ++ [w]) else .classify scan (idle ++ [w]) busy))
  | .offer [] => (.call none, f.refused)
  | .offer (w :: rest) =>
    if (s.proxies w).accepts then (.handoff f.p w f.i, f.accepted)
    else (.call none, .resubmit f (.offer rest))

/-- The statement at a point; `none` when the thread must wait for the pool lock. -/
def stmt (cfg : Config) (s : Sys) (o : Outcome) : Point → Option (Effect × Point)
  | .halted => none
  | .top p => some (.call none, if (s.proxies p).stop then .halted else .inner p)
  | .inner p =>
    if (s.proxies p).stop then some (.call none, .top p)
    else match (s.proxies p).queue with
      | [] => some (.call none, .top p)
      | batch :: _ => some (.pop p, .process p (.filter batch []) .loop)
  | .ending p => some (.finish p, .inner p)
  | .process p .returned k => some (.call none, k.after p)
  | .process p (.handler i rest text allow) k =>
    if s.lock.isSome then none
    else if s.stopping
    then some (.call none, .process p (.finishFail i text none rest text allow) k)
    else some (.acquire, .resubmit ⟨p, i, rest, text, allow, k⟩ (.candidates s.values []))
  | .process p (.call batch) k => some (.invoke p batch, .process p (.inflight batch) k)
  | .process p pc k =>
    (next cfg.loads (s.view p) ⟨o, none⟩ pc).map fun x => (.call x.1, .process p x.2 k)
  | .resubmit f r => some (s.resubmit cfg f r)
  | .grouping [] groups => some (.call none, .groups (groups.map Prod.snd))
  | .grouping (i :: rest) groups =>
    match kind (s.tasks i) with
    | .str k => some (.call none,
        .grouping rest (Dict.set k ((Dict.get? k groups).getD [] ++ [i]) groups))
    | _ => some (.call (some (i, .markFailed "invalid task kind" (some "invalid_spec"))),
        .grouping rest groups)
  | .groups [] => some (.call none, .halted)
  | .groups (batch :: gs) => some (.call none, .compatible batch gs)
  | .compatible batch gs =>
    if s.lock.isSome then none else some (.acquire, .ready batch s.values [] gs)
  | .ready batch (w :: scan) acc gs =>
    some (.call none, .ready batch scan
      (if (s.proxies w).isReady && s.supportsBatch cfg w batch then acc ++ [w] else acc) gs)
  | .ready batch [] acc gs =>
    some (.call none, if acc.isEmpty then .noReady batch gs else .idle batch acc acc [] gs)
  | .noReady (i :: rest) gs =>
    some (.call (some (i, .markFailed "no ready workers available" (some "overloaded"))),
      .noReady rest gs)
  | .noReady [] gs => some (.call none, .leave gs)
  | .leave gs => some (.release, .groups gs)
  | .idle batch ready (w :: scan) acc gs =>
    some (.call none, .idle batch ready scan (if (s.proxies w).busy then acc else acc ++ [w]) gs)
  | .idle batch ready [] acc gs =>
    let pool := if acc.isEmpty then ready else acc
    (pool[s.rrIndex % pool.length]?).map fun w => (.choose, .offer batch w gs)
  | .offer batch w gs =>
    some (if (s.proxies w).accepts then (.push w batch, .groups gs)
      else (.call none, .again batch w gs))
  | .again batch w gs => if s.lock.isSome then none else some (.acquire, .scan batch w s.values gs)
  | .scan batch _ [] gs => some (.release, .full batch gs)
  | .scan batch w (q :: rest) gs =>
    some (.call none, if q = w ∨ (s.proxies q).isReady = false ∨ s.supportsBatch cfg q batch = false
      then .scan batch w rest gs else .scanOffer batch w q rest gs)
  | .scanOffer batch w q rest gs =>
    some (if (s.proxies q).accepts then (.push q batch, .leave gs)
      else (.call none, .scan batch w rest gs))
  | .full (i :: rest) gs =>
    some (.call (some (i, .markFailed "all workers at capacity" (some "overloaded"))), .full rest gs)
  | .full [] gs => some (.call none, .groups gs)
  | .update snapshot =>
    if s.lock.isSome then none
    else some (if s.stopping then (.call none, .halted) else (.acquire, .add snapshot snapshot))
  | .add snapshot ((wid, info) :: rest) =>
    some (if (Dict.get? wid s.workers).isSome then .call none else .create wid info.address,
      .route snapshot wid info rest)
  | .add snapshot [] =>
    some (.call none, .gone ((s.workers.map Prod.fst).filter fun wid =>
      (Dict.get? wid snapshot).isNone) [])
  | .route snapshot wid info rest =>
    (Dict.get? wid s.workers).map fun p => (.route p info.state, .add snapshot rest)
  | .gone (wid :: rest) removed =>
    (Dict.get? wid s.workers).map fun p => (.drop wid, .begin p rest removed)
  | .gone [] removed => some (.release, .retire true removed)
  | .begin p rest removed => some (.beginStop p true, .gone rest (removed ++ [p]))
  | .retire _ [] => some (.call none, .halted)
  | .retire retryPending (p :: rest) => some (.beginStop p retryPending, .swap p retryPending rest)
  | .swap p retryPending rest =>
    some (.swap p, .process p (.finish (s.proxies p).queue.flatten "worker removed" .removed)
      (.retire retryPending rest))
  | .stop => if s.lock.isSome then none else some (.close, .beginAll s.values s.values)
  | .beginAll (p :: rest) all => some (.beginStop p false, .beginAll rest all)
  | .beginAll [] all => some (.closed, .retire false all)

/-- The thread moves on. -/
def goto (s : Sys) (who : Who) (pt : Point) : Sys := { s with points := Function.update s.points who pt }

def setProxy (s : Sys) (p : ℕ) (w : Proxy) : Sys := { s with proxies := Function.update s.proxies p w }

/-- The shared state after a statement. -/
def apply (cfg : Config) (s : Sys) (who : Who) : Effect → Sys
  | .call c => { s with tasks := applyCall s.tasks s.mono s.wall c }
  | .invoke p batch =>
    { s with notes := fun i => if i ∈ batch then s.notes i ++ [.called p] else s.notes i }
  | .reserve i =>
    { s with
      tasks := applyCall s.tasks s.mono s.wall (some (i, .tryReserveRetry))
      notes := Function.update s.notes i (s.notes i ++
        [.reserved (s.tasks i).terminal ((s.tasks i).isExpired s.mono)]) }
  | .acquire => { s with lock := some who }
  | .release => { s with lock := none }
  | .choose => { s with lock := none, rrIndex := s.rrIndex + 1 }
  | .push q batch => s.setProxy q { s.proxies q with queue := (s.proxies q).queue ++ [batch] }
  | .handoff p q i =>
    { s.setProxy q { s.proxies q with queue := (s.proxies q).queue ++ [[i]] } with
      notes := Function.update s.notes i (s.notes i ++ [.accepted p q (s.proxies q)
        (supports cfg (s.proxies q).workerId (s.tasks i)) s.stopDone]) }
  | .pop p =>
    s.setProxy p { s.proxies p with queue := (s.proxies p).queue.tail, processing := true }
  | .finish p => s.setProxy p { s.proxies p with processing := false }
  | .swap p => s.setProxy p { s.proxies p with queue := [] }
  | .beginStop p retryPending => s.setProxy p ((s.proxies p).beginStop retryPending)
  | .route p state => s.setProxy p { s.proxies p with routing := state }
  | .create wid address =>
    { (s.setProxy s.size { workerId := wid, address := address }).goto (.loop s.size) (.top s.size)
      with
      size := s.size + 1
      workers := Dict.set wid s.size s.workers }
  | .drop wid => { s with workers := Dict.del wid s.workers }
  | .close => { s with lock := some who, stopping := true, workers := [] }
  | .closed => { s with lock := none, stopDone := true }

end Sys

inductive Event where
  /-- time passes; the wall clock may be set to anything -/
  | tick (d : ℕ) (wall : ℤ)
  /-- somebody else calls `mark_failed` -/
  | fail (i : ℕ) (error : String) (code : Option String)
  /-- `set_routing_state` of a proxy -/
  | route (p : ℕ) (state : RoutingState)
  /-- a thread calls the pool -/
  | submit (n : ℕ) (batch : List ℕ)
  | update (n : ℕ) (snapshot : Discovery.Workers)
  | stop (n : ℕ)
  /-- a thread executes its next statement; `o` is what the stub answers -/
  | act (who : Who) (o : Outcome)
deriving DecidableEq, Repr

namespace Sys

def step (cfg : Config) (s : Sys) : Event → Option Sys
  | .tick d wall => some { s with mono := s.mono + d, wall := wall }
  | .fail i error code =>
    some { s with tasks := applyCall s.tasks s.mono s.wall (some (i, .markFailed error code)) }
  | .route p state => some (s.setProxy p { s.proxies p with routing := state })
  | .submit n batch =>
    if s.points (.thread n) = .halted ∧ batch.Nodup ∧ ∀ i ∈ batch, i ∉ s.submitted
    then some { s.goto (.thread n) (.grouping batch []) with submitted := batch ++ s.submitted }
    else none
  | .update n snapshot =>
    if s.points (.thread n) = .halted ∧ (snapshot.map Prod.fst).Nodup
    then some (s.goto (.thread n) (.update snapshot)) else none
  | .stop n =>
    if s.points (.thread n) = .halted then some (s.goto (.thread n) .stop) else none
  | .act who o =>
    (s.stmt cfg o (s.points who)).map fun x => (s.apply cfg who x.1).goto who x.2

/-- A pool without workers and tasks nobody has touched; a proxy that is not there accepts
nothing. -/
structure Init (s : Sys) : Prop where
  ids : Function.Injective fun i => (s.tasks i).taskId
  retryCount : ∀ i, (s.tasks i).retryCount = 0
  size : s.size = 0
  proxies : ∀ p, (s.proxies p).stop = true ∧ (s.proxies p).queue = []
  workers : s.workers = []
  lock : s.lock = none
  stopping : s.stopping = false
  points : ∀ who, s.points who = .halted
  submitted : s.submitted = []
  notes : ∀ i, s.notes i = []
  stopDone : s.stopDone = false

end Sys

/-- The tasks a thread answers for at a point. -/
def Point.held : Point → List ℕ
  | .process _ pc _ => pc.held
  | .resubmit f _ => f.i :: f.rest
  | .grouping rest kinds => kinds.flatMap Prod.snd ++ rest
  | .groups gs => gs.flatten
  | .compatible batch gs | .ready batch _ _ gs | .idle batch _ _ _ gs | .offer batch _ gs
  | .again batch _ gs | .scan batch _ _ gs | .scanOffer batch _ _ _ gs => batch ++ gs.flatten
  | .noReady rest gs | .full rest gs => rest ++ gs.flatten
  | .leave gs => gs.flatten
  | _ => []

/-- The points inside `with self._lock` of the pool. -/
def Point.critical : Point → Bool
  | .resubmit _ (.candidates _ _) => true
  | .ready _ _ _ _ | .noReady _ _ | .idle _ _ _ _ _ | .scan _ _ _ _ | .scanOffer _ _ _ _ _
  | .leave _ => true
  | .add _ _ | .route _ _ _ _ | .gone _ _ | .begin _ _ _ | .beginAll _ _ => true
  | _ => false

/-- Where a task can be: in a proxy's queue, or with a thread.  What the dispatch thread of a proxy
holds is the proxy's active batch. -/
inductive Place where
  | queue (p : ℕ)
  | hand (who : Who)
deriving DecidableEq, Repr

def Sys.held (s : Sys) : Place → List ℕ
  | .queue p => (s.proxies p).queue.flatten
  | .hand who => (s.points who).held

/-! ## One statement -/

/-- What one statement can do, with the condition it found. -/
inductive Stmt (cfg : Config) (s : Sys) (o : Outcome) : Point → Effect → Point → Prop
  | topStopped {p : ℕ} (h : (s.proxies p).stop = true) : Stmt cfg s o (.top p) (.call none) .halted
  | top {p : ℕ} (h : (s.proxies p).stop = false) : Stmt cfg s o (.top p) (.call none) (.inner p)
  | break (p : ℕ) : Stmt cfg s o (.inner p) (.call none) (.top p)
  | pop {p : ℕ} {batch : List ℕ} {queue : List (List ℕ)} (h : (s.proxies p).stop = false)
      (hq : (s.proxies p).queue = batch :: queue) :
    Stmt cfg s o (.inner p) (.pop p) (.process p (.filter batch []) .loop)
  | ending (p : ℕ) : Stmt cfg s o (.ending p) (.finish p) (.inner p)
  | returned (p : ℕ) (k : Cont) : Stmt cfg s o (.process p .returned k) (.call none) (k.after p)
  | handlerStopping {p i : ℕ} {rest : List ℕ} {text : String} {allow : Allow} {k : Cont}
      (h : s.stopping = true) : Stmt cfg s o (.process p (.handler i rest text allow) k) (.call none)
      (.process p (.finishFail i text none rest text allow) k)
  | handler {p i : ℕ} {rest : List ℕ} {text : String} {allow : Allow} {k : Cont}
      (hl : s.lock = none) (h : s.stopping = false) :
    Stmt cfg s o (.process p (.handler i rest text allow) k) .acquire
      (.resubmit ⟨p, i, rest, text, allow, k⟩ (.candidates s.values []))
  | invoke (p : ℕ) (batch : List ℕ) (k : Cont) : Stmt cfg s o (.process p (.call batch) k)
      (.invoke p batch) (.process p (.inflight batch) k)
  | moves {p : ℕ} {pc pc' : Pc} {c : Option (ℕ × Task.Method)} {k : Cont}
      (hh : ∀ i rest text allow, pc ≠ .handler i rest text allow) (hc : ∀ batch, pc ≠ .call batch)
      (h : Moves cfg.loads (s.view p) ⟨o, none⟩ pc c pc') :
    Stmt cfg s o (.process p pc k) (.call c) (.process p pc' k)
  | noCandidates (f : Frame) : Stmt cfg s o (.resubmit f (.candidates [] [])) .release f.refused
  | candidates {f : Frame} {acc : List ℕ} (h : acc ≠ []) : Stmt cfg s o
      (.resubmit f (.candidates [] acc)) .release (.resubmit f (.reserve acc))
  | candidate {f : Frame} {w : ℕ} {scan acc : List ℕ}
      (h : (s.proxies w).workerId ≠ (s.proxies f.p).workerId) (hr : (s.proxies w).isReady = true)
      (hs : supports cfg (s.proxies w).workerId (s.tasks f.i) = true) :
    Stmt cfg s o (.resubmit f (.candidates (w :: scan) acc)) (.call none)
      (.resubmit f (.candidates scan (acc ++ [w])))
  | noCandidate (f : Frame) (w : ℕ) (scan acc : List ℕ) :
    Stmt cfg s o (.resubmit f (.candidates (w :: scan) acc)) (.call none)
      (.resubmit f (.candidates scan acc))
  | reserve {f : Frame} {candidates : List ℕ} (h : ((s.tasks f.i).tryReserveRetry s.mono).1 = true) :
    Stmt cfg s o (.resubmit f (.reserve candidates)) (.reserve f.i)
      (.resubmit f (.classify candidates [] []))
  | noReserve (f : Frame) (candidates : List ℕ) :
    Stmt cfg s o (.resubmit f (.reserve candidates)) (.call none) f.refused
  | classified (f : Frame) (idle busy : List ℕ) : Stmt cfg s o
      (.resubmit f (.classify [] idle busy)) (.call none) (.resubmit f (.offer (idle ++ busy)))
  | busy (f : Frame) (w : ℕ) (scan idle busy : List ℕ) : Stmt cfg s o
      (.resubmit f (.classify (w :: scan) idle busy)) (.call none)
      (.resubmit f (.classify scan idle (busy ++ [w])))
  | notBusy (f : Frame) (w : ℕ) (scan idle busy : List ℕ) : Stmt cfg s o
      (.resubmit f (.classify (w :: scan) idle busy)) (.call none)
      (.resubmit f (.classify scan (idle ++ [w]) busy))
  | noOffer (f : Frame) : Stmt cfg s o (.resubmit f (.offer [])) (.call none) f.refused
  | accepted {f : Frame} {w : ℕ} (rest : List ℕ) (h : (s.proxies w).accepts = true) :
    Stmt cfg s o (.resubmit f (.offer (w :: rest))) (.handoff f.p w f.i) f.accepted
  | rejected (f : Frame) (w : ℕ) (rest : List ℕ) :
    Stmt cfg s o (.resubmit f (.offer (w :: rest))) (.call none) (.resubmit f (.offer rest))
  | grouped (ds : List (String × List ℕ)) :
    Stmt cfg s o (.grouping [] ds) (.call none) (.groups (ds.map Prod.snd))
  | group (i : ℕ) (rest : List ℕ) (ds : List (String × List ℕ)) (k : String) :
    Stmt cfg s o (.grouping (i :: rest) ds) (.call none)
      (.grouping rest (Dict.set k ((Dict.get? k ds).getD [] ++ [i]) ds))
  | invalidKind (i : ℕ) (rest : List ℕ) (ds : List (String × List ℕ)) :
    Stmt cfg s o (.grouping (i :: rest) ds)
      (.call (some (i, .markFailed "invalid task kind" (some "invalid_spec")))) (.grouping rest ds)
  | noGroups : Stmt cfg s o (.groups []) (.call none) .halted
  | groups (batch : List ℕ) (gs : List (List ℕ)) :
    Stmt cfg s o (.groups (batch :: gs)) (.call none) (.compatible batch gs)
  | compatible {batch : List ℕ} {gs : List (List ℕ)} (hl : s.lock = none) :
    Stmt cfg s o (.compatible batch gs) .acquire (.ready batch s.values [] gs)
  | ready (batch scan acc acc' : List ℕ) (w : ℕ) (gs : List (List ℕ)) :
    Stmt cfg s o (.ready batch (w :: scan) acc gs) (.call none) (.ready batch scan acc' gs)
  | noneReady (batch : List ℕ) (gs : List (List ℕ)) :
    Stmt cfg s o (.ready batch [] [] gs) (.call none) (.noReady batch gs)
  | someReady (batch acc : List ℕ) (gs : List (List ℕ)) :
    Stmt cfg s o (.ready batch [] acc gs) (.call none) (.idle batch acc acc [] gs)
  | overloaded (i : ℕ) (rest : List ℕ) (gs : List (List ℕ)) : Stmt cfg s o (.noReady (i :: rest) gs)
      (.call (some (i, .markFailed "no ready workers available" (some "overloaded"))))
      (.noReady rest gs)
  | noReady (gs : List (List ℕ)) : Stmt cfg s o (.noReady [] gs) (.call none) (.leave gs)
  | leave (gs : List (List ℕ)) : Stmt cfg s o (.leave gs) .release (.groups gs)
  | idle (batch ready scan acc acc' : List ℕ) (w : ℕ) (gs : List (List ℕ)) :
    Stmt cfg s o (.idle batch ready (w :: scan) acc gs) (.call none) (.idle batch ready scan acc' gs)
  | choose (batch ready acc : List ℕ) (w : ℕ) (gs : List (List ℕ)) :
    Stmt cfg s o (.idle batch ready [] acc gs) .choose (.offer batch w gs)
  | offered {batch : List ℕ} {w : ℕ} (gs : List (List ℕ)) (h : (s.proxies w).accepts = true) :
    Stmt cfg s o (.offer batch w gs) (.push w batch) (.groups gs)
  | declined (batch : List ℕ) (w : ℕ) (gs : List (List ℕ)) :
    Stmt cfg s o (.offer batch w gs) (.call none) (.again batch w gs)
  | again {batch : List ℕ} {w : ℕ} {gs : List (List ℕ)} (hl : s.lock = none) :
    Stmt cfg s o (.again batch w gs) .acquire (.scan batch w s.values gs)
  | scanned (batch : List ℕ) (w : ℕ) (gs : List (List ℕ)) :
    Stmt cfg s o (.scan batch w [] gs) .release (.full batch gs)
  | scanSkip (batch : List ℕ) (w q : ℕ) (rest : List ℕ) (gs : List (List ℕ)) :
    Stmt cfg s o (.scan batch w (q :: rest) gs) (.call none) (.scan batch w rest gs)
  | scanTry (batch : List ℕ) (w q : ℕ) (rest : List ℕ) (gs : List (List ℕ)) :
    Stmt cfg s o (.scan batch w (q :: rest) gs) (.call none) (.scanOffer batch w q rest gs)
  | scanTaken {batch : List ℕ} {w q : ℕ} (rest : List ℕ) (gs : List (List ℕ))
      (h : (s.proxies q).accepts = true) :
    Stmt cfg s o (.scanOffer batch w q rest gs) (.push q batch) (.leave gs)
  | scanDeclined (batch : List ℕ) (w q : ℕ) (rest : List ℕ) (gs : List (List ℕ)) :
    Stmt cfg s o (.scanOffer batch w q rest gs) (.call none) (.scan batch w rest gs)
  | atCapacity (i : ℕ) (rest : List ℕ) (gs : List (List ℕ)) : Stmt cfg s o (.full (i :: rest) gs)
      (.call (some (i, .markFailed "all workers at capacity" (some "overloaded")))) (.full rest gs)
  | full (gs : List (List ℕ)) : Stmt cfg s o (.full [] gs) (.call none) (.groups gs)
  | updateStopping {snapshot : Discovery.Workers} (h : s.stopping = true) :
    Stmt cfg s o (.update snapshot) (.call none) .halted
  | update {snapshot : Discovery.Workers} (hl : s.lock = none) (h : s.stopping = false) :
    Stmt cfg s o (.update snapshot) .acquire (.add snapshot snapshot)
  | present {wid : String} {p : ℕ} (h : Dict.get? wid s.workers = some p) (info : WorkerInfo)
      (snapshot rest : Discovery.Workers) :
    Stmt cfg s o (.add snapshot ((wid, info) :: rest)) (.call none) (.route snapshot wid info rest)
  | create {wid : String} (h : Dict.get? wid s.workers = none) (info : WorkerInfo)
      (snapshot rest : Discovery.Workers) :
    Stmt cfg s o (.add snapshot ((wid, info) :: rest)) (.create wid info.address)
      (.route snapshot wid info rest)
  | added (snapshot : Discovery.Workers) : Stmt cfg s o (.add snapshot []) (.call none)
      (.gone ((s.workers.map Prod.fst).filter fun wid => (Dict.get? wid snapshot).isNone) [])
  | route {wid : String} {p : ℕ} (h : Dict.get? wid s.workers = some p) (info : WorkerInfo)
      (snapshot rest : Discovery.Workers) :
    Stmt cfg s o (.route snapshot wid info rest) (.route p info.state) (.add snapshot rest)
  | drop {wid : String} {p : ℕ} (h : Dict.get? wid s.workers = some p) (rest : List String)
      (removed : List ℕ) :
    Stmt cfg s o (.gone (wid :: rest) removed) (.drop wid) (.begin p rest removed)
  | gone (removed : List ℕ) : Stmt cfg s o (.gone [] removed) .release (.retire true removed)
  | begin (p : ℕ) (rest : List String) (removed : List ℕ) :
    Stmt cfg s o (.begin p rest removed) (.beginStop p true) (.gone rest (removed ++ [p]))
  | retired (retryPending : Bool) : Stmt cfg s o (.retire retryPending []) (.call none) .halted
  | retire (retryPending : Bool) (p : ℕ) (rest : List ℕ) :
    Stmt cfg s o (.retire retryPending (p :: rest)) (.beginStop p retryPending)
      (.swap p retryPending rest)
  | swap (p : ℕ) (retryPending : Bool) (rest : List ℕ) :
    Stmt cfg s o (.swap p retryPending rest) (.swap p)
      (.process p (.finish (s.proxies p).queue.flatten "worker removed" .removed)
        (.retire retryPending rest))
  | stop (hl : s.lock = none) : Stmt cfg s o .stop .close (.beginAll s.values s.values)
  | beginAll (p : ℕ) (rest all : List ℕ) :
    Stmt cfg s o (.beginAll (p :: rest) all) (.beginStop p false) (.beginAll rest all)
  | closed (all : List ℕ) : Stmt cfg s o (.beginAll [] all) .closed (.retire false all)

section Inversion

variable {cfg : Config} {s : Sys} {o : Outcome} {pt pt' : Point} {eff : Effect}

theorem resubmit_cases (f : Frame) (r : Resubmit) :
    Stmt cfg s o (.resubmit f r) (s.resubmit cfg f r).1 (s.resubmit cfg f r).2 := by
  cases r with
  | candidates scan acc =>
    cases scan with
    | nil =>
      cases acc with
      | nil => exact .noCandidates f
      | cons w acc => exact .candidates (by simp)
    | cons w scan =>
      simp only [Sys.resubmit]
      split
      · rename_i h
        exact .candidate h.1 h.2.1 h.2.2
      · exact .noCandidate f w scan acc
  | reserve candidates =>
    simp only [Sys.resubmit]
    split
    · rename_i h
      exact .reserve h
    · exact .noReserve f candidates
  | classify scan idle busy =>
    cases scan with
    | nil => exact .classified f idle busy
    | cons w scan =>
      simp only [Sys.resubmit]
      split
      · exact .busy f w scan idle busy
      · exact .notBusy f w scan idle busy
  | offer rest =>
    cases rest with
    | nil => exact .noOffer f
    | cons w rest =>
      simp only [Sys.resubmit]
      split
      · rename_i h
        exact .accepted rest h
      · exact .rejected f w rest

theorem process_cases {p : ℕ} {pc : Pc} {k : Cont}
    (h : s.stmt cfg o (.process p pc k) = some (eff, pt')) :
    Stmt cfg s o (.process p pc k) eff pt' := by
  have hnext : (∀ i rest text allow, pc ≠ .handler i rest text allow) → (∀ batch, pc ≠ .call batch) →
      (next cfg.loads (s.view p) ⟨o, none⟩ pc).map
        (fun x => (Effect.call x.1, Point.process p x.2 k)) = some (eff, pt') →
      Stmt cfg s o (.process p pc k) eff pt' := by
    intro hh hc hmap
    obtain ⟨⟨c, pc'⟩, hn, heq⟩ := Option.map_eq_some_iff.mp hmap
    obtain ⟨rfl, rfl⟩ := Prod.mk.inj heq
    exact .moves hh hc (next_moves hn)
  cases pc with
  | returned =>
    obtain ⟨rfl, rfl⟩ := by simpa [Sys.stmt] using h
    exact .returned p k
  | handler i rest text allow =>
    simp only [Sys.stmt] at h
    split at h
    · simp at h
    · rename_i hl
      split at h
      · rename_i hs
        obtain ⟨rfl, rfl⟩ := by simpa using h
        exact .handlerStopping hs
      · rename_i hs
        obtain ⟨rfl, rfl⟩ := by simpa using h
        exact .handler (by simpa using hl) (by simpa using hs)
  | call batch =>
    obtain ⟨rfl, rfl⟩ := by simpa [Sys.stmt] using h
    exact .invoke p batch k
  | _ => exact hnext (by simp) (by simp) h

/-- **Inversion.**  A statement does what the list says and nothing else. -/
theorem stmt_cases (h : s.stmt cfg o pt = some (eff, pt')) : Stmt cfg s o pt eff pt' := by
  cases pt with
  | halted => simp [Sys.stmt] at h
  | top p =>
    cases hs : (s.proxies p).stop with
    | true =>
      obtain ⟨rfl, rfl⟩ := by simpa [Sys.stmt, hs] using h
      exact .topStopped hs
    | false =>
      obtain ⟨rfl, rfl⟩ := by simpa [Sys.stmt, hs] using h
      exact .top hs
  | inner p =>
    simp only [Sys.stmt] at h
    split at h
    · obtain ⟨rfl, rfl⟩ := by simpa using h
      exact .break p
    · rename_i hs
      split at h
      · obtain ⟨rfl, rfl⟩ := by simpa using h
        exact .break p
      · rename_i batch queue hq
        obtain ⟨rfl, rfl⟩ := by simpa using h
        exact .pop (by simpa using hs) hq
  | ending p =>
    obtain ⟨rfl, rfl⟩ := by simpa [Sys.stmt] using h
    exact .ending p
  | process p pc k => exact process_cases h
  | resubmit f r =>
    obtain ⟨rfl, rfl⟩ := Prod.mk.inj (Option.some.inj h)
    exact resubmit_cases f r
  | grouping rest ds =>
    cases rest with
    | nil =>
      obtain ⟨rfl, rfl⟩ := by simpa [Sys.stmt] using h
      exact .grouped ds
    | cons i rest =>
      simp only [Sys.stmt] at h
      split at h
      · rename_i k hk
        obtain ⟨rfl, rfl⟩ := Prod.mk.inj (Option.some.inj h)
        exact .group i rest ds k
      · obtain ⟨rfl, rfl⟩ := Prod.mk.inj (Option.some.inj h)
        exact .invalidKind i rest ds
  | groups gs =>
    cases gs with
    | nil =>
      obtain ⟨rfl, rfl⟩ := by simpa [Sys.stmt] using h
      exact .noGroups
    | cons batch gs =>
      obtain ⟨rfl, rfl⟩ := by simpa [Sys.stmt] using h
      exact .groups batch gs
  | compatible batch gs =>
    simp only [Sys.stmt] at h
    split at h
    · simp at h
    · rename_i hl
      obtain ⟨rfl, rfl⟩ := by simpa using h
      exact .compatible (by simpa using hl)
  | ready batch scan acc gs =>
    cases scan with
    | nil =>
      cases acc with
      | nil =>
        obtain ⟨rfl, rfl⟩ := by simpa [Sys.stmt] using h
        exact .noneReady batch gs
      | cons w acc =>
        obtain ⟨rfl, rfl⟩ := by simpa [Sys.stmt] using h
        exact .someReady batch (w :: acc) gs
    | cons w scan =>
      obtain ⟨rfl, rfl⟩ := Prod.mk.inj (Option.some.inj h)
      exact .ready batch scan acc _ w gs
  | noReady rest gs =>
    cases rest with
    | nil =>
      obtain ⟨rfl, rfl⟩ := by simpa [Sys.stmt] using h
      exact .noReady gs
    | cons i rest =>
      obtain ⟨rfl, rfl⟩ := by simpa [Sys.stmt] using h
      exact .overloaded i rest gs
  | idle batch ready scan acc gs =>
    cases scan with
    | nil =>
      simp only [Sys.stmt, Option.map_eq_some_iff, Prod.mk.injEq] at h
      obtain ⟨w, -, rfl, rfl⟩ := h
      exact .choose batch ready acc w gs
    | cons w scan =>
      obtain ⟨rfl, rfl⟩ := Prod.mk.inj (Option.some.inj h)
      exact .idle batch ready scan acc _ w gs
  | offer batch w gs =>
    cases ha : (s.proxies w).accepts with
    | true =>
      obtain ⟨rfl, rfl⟩ := by simpa [Sys.stmt, ha] using h
      exact .offered gs ha
    | false =>
      obtain ⟨rfl, rfl⟩ := by simpa [Sys.stmt, ha] using h
      exact .declined batch w gs
  | again batch w gs =>
    simp only [Sys.stmt] at h
    split at h
    · simp at h
    · rename_i hl
      obtain ⟨rfl, rfl⟩ := by simpa using h
      exact .again (by simpa using hl)
  | scan batch w rest gs =>
    cases rest with
    | nil =>
      obtain ⟨rfl, rfl⟩ := by simpa [Sys.stmt] using h
      exact .scanned batch w gs
    | cons q rest =>
      obtain ⟨rfl, rfl⟩ := Prod.mk.inj (Option.some.inj h)
      split
      · exact .scanSkip batch w q rest gs
      · exact .scanTry batch w q rest gs
  | scanOffer batch w q rest gs =>
    cases ha : (s.proxies q).accepts with
    | true =>
      obtain ⟨rfl, rfl⟩ := by simpa [Sys.stmt, ha] using h
      exact .scanTaken rest gs ha
    | false =>
      obtain ⟨rfl, rfl⟩ := by simpa [Sys.stmt, ha] using h
      exact .scanDeclined batch w q rest gs
  | leave gs =>
    obtain ⟨rfl, rfl⟩ := by simpa [Sys.stmt] using h
    exact .leave gs
  | full rest gs =>
    cases rest with
    | nil =>
      obtain ⟨rfl, rfl⟩ := by simpa [Sys.stmt] using h
      exact .full gs
    | cons i rest =>
      obtain ⟨rfl, rfl⟩ := by simpa [Sys.stmt] using h
      exact .atCapacity i rest gs
  | update snapshot =>
    simp only [Sys.stmt] at h
    split at h
    · simp at h
    · rename_i hl
      cases hs : s.stopping with
      | true =>
        obtain ⟨rfl, rfl⟩ := by simpa [hs] using h
        exact .updateStopping hs
      | false =>
        obtain ⟨rfl, rfl⟩ := by simpa [hs] using h
        exact .update (by simpa using hl) hs
  | add snapshot rest =>
    cases rest with
    | nil =>
      obtain ⟨rfl, rfl⟩ := Prod.mk.inj (Option.some.inj h)
      exact .added snapshot
    | cons x rest =>
      obtain ⟨wid, info⟩ := x
      obtain ⟨rfl, rfl⟩ := Prod.mk.inj (Option.some.inj h)
      cases hw : Dict.get? wid s.workers with
      | none => exact .create hw info snapshot rest
      | some p => exact .present hw info snapshot rest
  | route snapshot wid info rest =>
    simp only [Sys.stmt, Option.map_eq_some_iff, Prod.mk.injEq] at h
    obtain ⟨p, hp, rfl, rfl⟩ := h
    exact .route hp info snapshot rest
  | gone rest removed =>
    cases rest with
    | nil =>
      obtain ⟨rfl, rfl⟩ := by simpa [Sys.stmt] using h
      exact .gone removed
    | cons wid rest =>
      simp only [Sys.stmt, Option.map_eq_some_iff, Prod.mk.injEq] at h
      obtain ⟨p, hp, rfl, rfl⟩ := h
      exact .drop hp rest removed
  | begin p rest removed =>
    obtain ⟨rfl, rfl⟩ := by simpa [Sys.stmt] using h
    exact .begin p rest removed
  | retire retryPending rest =>
    cases rest with
    | nil =>
      obtain ⟨rfl, rfl⟩ := by simpa [Sys.stmt] using h
      exact .retired retryPending
    | cons p rest =>
      obtain ⟨rfl, rfl⟩ := by simpa [Sys.stmt] using h
      exact .retire retryPending p rest
  | swap p retryPending rest =>
    obtain ⟨rfl, rfl⟩ := Prod.mk.inj (Option.some.inj h)
    exact .swap p retryPending rest
  | stop =>
    simp only [Sys.stmt] at h
    split at h
    · simp at h
    · rename_i hl
      obtain ⟨rfl, rfl⟩ := by simpa using h
      exact .stop (by simpa using hl)
  | beginAll rest all =>
    cases rest with
    | nil =>
      obtain ⟨rfl, rfl⟩ := by simpa [Sys.stmt] using h
      exact .closed all
    | cons p rest =>
      obtain ⟨rfl, rfl⟩ := by simpa [Sys.stmt] using h
      exact .beginAll p rest all

/-- What a step can do. -/
inductive Steps (cfg : Config) (s : Sys) : Event → Sys → Prop where
  | tick (d : ℕ) (wall : ℤ) : Steps cfg s (.tick d wall) { s with mono := s.mono + d, wall := wall }
  | fail (i : ℕ) (error : String) (code : Option String) : Steps cfg s (.fail i error code)
      { s with tasks := applyCall s.tasks s.mono s.wall (some (i, .markFailed error code)) }
  | route (p : ℕ) (state : RoutingState) : Steps cfg s (.route p state)
      (s.setProxy p { s.proxies p with routing := state })
  | submit {n : ℕ} {batch : List ℕ} (hhalt : s.points (.thread n) = .halted) (hnodup : batch.Nodup)
      (hnew : ∀ i ∈ batch, i ∉ s.submitted) : Steps cfg s (.submit n batch)
      { s.goto (.thread n) (.grouping batch []) with submitted := batch ++ s.submitted }
  | update {n : ℕ} {snapshot : Discovery.Workers} (hhalt : s.points (.thread n) = .halted)
      (hkeys : (snapshot.map Prod.fst).Nodup) :
    Steps cfg s (.update n snapshot) (s.goto (.thread n) (.update snapshot))
  | stop {n : ℕ} (hhalt : s.points (.thread n) = .halted) :
    Steps cfg s (.stop n) (s.goto (.thread n) .stop)
  | act {who : Who} {o : Outcome} {eff : Effect} {pt : Point}
      (hst : Stmt cfg s o (s.points who) eff pt) :
    Steps cfg s (.act who o) ((s.apply cfg who eff).goto who pt)

theorem step_cases {e : Event} {t : Sys} (hs : s.step cfg e = some t) : Steps cfg s e t := by
  cases e with
  | tick d wall =>
    cases hs
    exact .tick d wall
  | fail i error code =>
    cases hs
    exact .fail i error code
  | route p state =>
    cases hs
    exact .route p state
  | submit n batch =>
    simp only [Sys.step] at hs
    split at hs
    next hcond =>
      cases hs
      exact .submit hcond.1 hcond.2.1 hcond.2.2
    next => cases hs
  | update n snapshot =>
    simp only [Sys.step] at hs
    split at hs
    next hcond =>
      cases hs
      exact .update hcond.1 hcond.2
    next => cases hs
  | stop n =>
    simp only [Sys.step] at hs
    split at hs
    next hhalt =>
      cases hs
      exact .stop hhalt
    next => cases hs
  | act who o =>
    simp only [Sys.step, Option.map_eq_some_iff] at hs
    obtain ⟨⟨eff, pt'⟩, hst, rfl⟩ := hs
    exact .act (stmt_cases hst)

/-- `set_routing_state` writes the routing state of a proxy only. -/
theorem route_same (s : Sys) (p : ℕ) (state : RoutingState) (q : ℕ) :
    ((s.setProxy p { s.proxies p with routing := state }).proxies q).queue = (s.proxies q).queue ∧
    ((s.setProxy p { s.proxies p with routing := state }).proxies q).stop = (s.proxies q).stop ∧
    ((s.setProxy p { s.proxies p with routing := state }).proxies q).workerId =
      (s.proxies q).workerId := by
  by_cases hq : q = p
  · subst hq
    simp [Sys.setProxy]
  · simp [Sys.setProxy, hq]

end Inversion

/-! ## A run -/

def sampleConfig : Config := ⟨fun _ => .error ⟨true, ""⟩, none⟩

def sampleStart : Sys where
  tasks := fun i =>
    { inputData := .obj [("x", .int 3)], taskId := String.ofList (List.replicate i 't'),
      creationTime := 0 }
  mono := 0
  wall := 0
  proxies := fun _ => { workerId := "", address := "", stop := true }
  size := 0
  workers := []
  lock := none
  stopping := false
  rrIndex := 0
  points := fun _ => .halted
  submitted := []
  notes := fun _ => []
  stopDone := false

theorem sampleStart_init : sampleStart.Init where
  ids := by
    intro i k hik
    have hlist : List.replicate i 't' = List.replicate k 't' := String.ofList_injective hik
    simpa using congrArg List.length hlist
  retryCount := fun _ => rfl
  size := rfl
  proxies := fun _ => ⟨rfl, rfl⟩
  workers := rfl
  lock := rfl
  stopping := rfl
  points := fun _ => rfl
  submitted := rfl
  notes := fun _ => rfl
  stopDone := rfl

/-- The stub finds the worker gone. -/
def lost : Outcome := .rpcError .unavailable "gone"

/-- Workers `a` and `b` join, task 0 is dispatched to `a`, which is gone, and handed to `b`. -/
def handoffRun : List Event :=
  .update 0 [("a", ⟨"a:1", .ready⟩), ("b", ⟨"b:1", .ready⟩)] ::
    List.replicate 8 (.act (.thread 0) lost) ++
  .submit 0 [0] :: List.replicate 12 (.act (.thread 0) lost) ++
  List.replicate 26 (.act (.loop 0) lost)

end Inference.Pool.Machine
