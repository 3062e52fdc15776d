import Inference.Handlers
import Inference.Deploy.Gate

/-!
# Inference.Deploy.Drain — `begin_drain`, `wait_idle` and `end_drain` against live traffic

The gateway process, the text adapter and the rollout of `deploy/ci/deploy_platform.py`, all
interleaved.  A gateway handler of `text_task` runs the code of `Inference.Handlers` between its
`enter` and its `leave`; a `ProcessBatch` handler carries the text tasks of its request.  A probe
is two steps, the snapshot in the other process and its arrival.  Every call of the rollout may
raise; a marker may be published and the call still raise.

* `rolloutStep`: the rollout's own code, one call of the outside world at a time.
* `gwStep`: the next step of a `text_task` handler between `enter` and `leave`.
* `step`: everything together; `Ours` excludes that somebody else touches the markers.
-/

namespace Inference.Deploy

open Inference.Lib

namespace Drain

/-- The two markers. -/
inductive Name where
  | gateway
  | worker
deriving DecidableEq, Repr

/-- What a gateway handler is working on: anything without a text task, or the text task `task`
with the handler's own program point and whether it saw its caller gone. -/
inductive Body where
  | plain
  | text (task : ℕ) (pc : Handlers.Pc) (seen : Bool)
deriving DecidableEq, Repr

/-- Program points of the rollout. -/
inductive Pc where
  | start
  /-- `self.backend_call('begin_drain')` -/
  | beginBackend
  /-- `self.backend_call('wait_idle')` -/
  | waitBackend
  /-- `self.marker_names.add(name)` -/
  | fenceAdd (n : Name)
  /-- the rest of `fence` -/
  | fence (n : Name)
  /-- `state = self.backend_call('deployment_status')` and its check -/
  | status
  /-- `quiet = self.gateway_quiet()`; the flag is that the backend has nothing active -/
  | quiet (none' : Bool)
  /-- `self.gateway_status()` is on its way -/
  | probeGateway (none' quiet : Bool)
  /-- `gateway_idle = self.acknowledged(…)` -/
  | gotGateway (none' quiet : Bool) (sn : Snapshot)
  /-- `not self.busy()` -/
  | busy (quiet idle : Bool)
  /-- `self.worker_status()` is on its way -/
  | probeWorker
  /-- `if self.acknowledged(…)` -/
  | gotWorker (sn : Snapshot)
  /-- `self.assert_protected()` -/
  | protect
  /-- `if time.monotonic() >= deadline` -/
  | deadline
  /-- `wait_idle` returned -/
  | idle
  /-- `begin_drain` or `wait_idle` raised -/
  | failed
  /-- `end_drain` validates the owners of the markers still listed -/
  | endCheck (left : List Name)
  | endUnlinkWorker
  | endUnlinkGateway
  /-- `self.backend_call('end_drain')` -/
  | endBackend
  | ended
  /-- `end_drain` raised -/
  | stuck
deriving DecidableEq, Repr

/-- What the rollout has done and seen, for the record. -/
inductive Note where
  | gatewaySeen (sn : Snapshot)
  | published (n : Name) (token : Option String)
  | returned
  | removed (n : Name)
  | backendEnd
deriving DecidableEq, Repr

structure Sys where
  tasks : List Task
  mono : ℤ
  wall : ℤ
  gateway : Gate Body
  worker : Gate (List ℕ)
  gatewayMarker : Marker
  workerMarker : Marker
  rollout : Pc
  token : Option String
  names : List Name
  log : List Note
deriving DecidableEq, Repr

def Sys.marker (s : Sys) : Name → Marker
  | .gateway => s.gatewayMarker
  | .worker => s.workerMarker

def Sys.setMarker (s : Sys) (m : Marker) : Name → Sys
  | .gateway => { s with gatewayMarker := m }
  | .worker => { s with workerMarker := m }

/-- What the environment answers to one step of the rollout: an exception, one that strikes after
the effect, a Boolean, and the token drawn. -/
structure Io where
  raises : Bool := false
  late : Bool := false
  flag : Bool := false
  token : String := ""
deriving DecidableEq, Repr

inductive Event where
  | tick (elapsed : ℕ) (wall : ℤ)
  /-- any actor calls a method of a text task -/
  | task (k : ℕ) (m : Task.Method)
  /-- a request that changes state reaches the gateway -/
  | request
  | gwRead (i : ℕ)
  | gwCount (i : ℕ)
  | gwLeave (i : ℕ)
  /-- a `text_task` handler puts its task on the queue -/
  | queue (i : ℕ) (t : Task)
  /-- a `text_task` handler that waits takes its next step -/
  | gwStep (i : ℕ) (disconnected : Bool)
  /-- the gateway calls `ProcessBatch` with these text tasks -/
  | call (tasks : List ℕ)
  | wkRead (j : ℕ)
  | wkCount (j : ℕ)
  | wkLeave (j : ℕ)
  | rollout (io : Io)
  /-- `stop` and `start` replace the gateway process -/
  | restartGateway
  /-- `stop` and `start` replace the adapter -/
  | restartWorker
  /-- somebody else writes or removes a marker -/
  | foreign (n : Name) (m : Marker)
deriving DecidableEq, Repr

/-- `acknowledged`: `none` where it raises, else whether nothing is active. -/
def acknowledged (s : Sys) (sn : Snapshot) : Option Bool :=
  if sn.draining = true ∧ sn.drainId = s.token then some (decide (sn.active = 0)) else none

/-- `os.link` publishes the token unless the path exists. -/
def publish (s : Sys) (n : Name) : Option Sys :=
  match s.marker n, s.token with
  | .absent, some t => some { s.setMarker (.holds t) n with log := .published n s.token :: s.log }
  | _, _ => none

/-- After publishing its marker `fence` returns here. -/
def afterFence : Name → Pc
  | .gateway => .status
  | .worker => .probeWorker

/-- `marker.exists() and marker.read_text().strip() != self.platform_token`, or a read that
raises. -/
def foreign (s : Sys) (n : Name) : Bool :=
  match s.marker n with
  | .absent => false
  | .holds t => decide (some t ≠ s.token)
  | .unreadable => true

/-- One step of the rollout. -/
def rolloutStep (s : Sys) (io : Io) : Option Sys :=
  match s.rollout with
  | .start => some { s with token := some io.token, rollout := .beginBackend }
  | .beginBackend => some { s with rollout := if io.raises then .failed else .waitBackend }
  | .waitBackend => some { s with rollout := if io.raises then .failed else .fenceAdd .gateway }
  | .fenceAdd n => some { s with names := if n ∈ s.names then s.names else s.names ++ [n],
                                 rollout := .fence n }
  | .fence n => some (if io.raises then { s with rollout := .failed } else
      match publish s n with
      | none => { s with rollout := .failed }
      | some t => { t with rollout := if io.late then .failed else afterFence n })
  | .status => some { s with rollout := if io.raises then .failed else .quiet io.flag }
  | .quiet a => some { s with rollout := if io.raises then .failed else .probeGateway a io.flag }
  | .probeGateway a q =>
    if io.raises then some { s with rollout := .failed }
    else (s.gateway.snapshot s.gatewayMarker).map fun sn =>
      { s with rollout := .gotGateway a q sn }
  | .gotGateway a q sn => some (match acknowledged s sn with
      | none => { s with rollout := .failed }
      | some idle => { s with log := .gatewaySeen sn :: s.log,
                              rollout := if a then .busy q idle else .deadline })
  | .busy q idle => some { s with rollout :=
      if io.raises then .failed
      else if !io.flag && q && idle
        then (if Name.worker ∈ s.names then .probeWorker else .fenceAdd .worker)
        else .deadline }
  | .probeWorker =>
    if io.raises then some { s with rollout := .failed }
    else (s.worker.snapshot s.workerMarker).map fun sn => { s with rollout := .gotWorker sn }
  | .gotWorker sn => some { s with rollout := match acknowledged s sn with
      | none => .failed
      | some idle => if idle then .protect else .deadline }
  | .protect => some (if io.raises then { s with rollout := .failed }
      else { s with log := .returned :: s.log, rollout := .idle })
  | .deadline => some { s with rollout := if io.raises then .failed else .status }
  | .idle | .failed => some { s with
      rollout := .endCheck (if io.flag then s.names.reverse else s.names) }
  | .endCheck [] => some { s with rollout := .endUnlinkWorker }
  | .endCheck (n :: left) => some { s with
      rollout := if foreign s n then .stuck else .endCheck left }
  | .endUnlinkWorker => some (
      if Name.worker ∈ s.names then
        (if io.raises then { s with rollout := .stuck }
         else { s with workerMarker := .absent, log := .removed .worker :: s.log,
                       rollout := .endUnlinkGateway })
      else { s with rollout := .endUnlinkGateway })
  | .endUnlinkGateway => some (
      if Name.gateway ∈ s.names then
        (if io.raises then { s with rollout := .stuck }
         else { s with gatewayMarker := .absent, log := .removed .gateway :: s.log, names := [],
                       token := none, rollout := .endBackend })
      else { s with names := [], token := none, rollout := .endBackend })
  | .endBackend => some { s with log := .backendEnd :: s.log,
                                 rollout := if io.raises then .stuck else .ended }
  | .ended | .stuck => none

/-- A handler may leave once it has nothing to wait for. -/
def Body.finished : Body → Bool
  | .plain => true
  | .text _ (.answered _) _ => true
  | .text _ _ _ => false

/-- The next step of a `text_task` handler: its own code, or a method call on its task. -/
def gwStep (s : Sys) (i : ℕ) (disconnected : Bool) : Option Sys :=
  match s.gateway.handlers[i]? with
  | some ⟨.running, .text k pc seen⟩ =>
    match s.tasks[k]?, pc with
    | some _, .call m after => some { s with
        tasks := s.tasks.modify k fun t => t.call m s.mono s.wall
        gateway := s.gateway.work i (.text k after seen) }
    | some t, pc => (pc.next t s.mono disconnected).map fun pc' => { s with
        gateway := s.gateway.work i
          (.text k pc' (seen || (pc == .tDisconnected && disconnected))) }
    | none, _ => none
  | _ => none

def step (s : Sys) : Event → Option Sys
  | .tick d wall => some { s with mono := s.mono + d, wall := wall }
  | .task k m => some { s with tasks := s.tasks.modify k fun t => t.call m s.mono s.wall }
  | .request => some { s with gateway := s.gateway.arrive .plain }
  | .gwRead i => (s.gateway.enterRead s.gatewayMarker i).map fun g => { s with gateway := g }
  | .gwCount i => (s.gateway.enterCount i).map fun g => { s with gateway := g }
  | .gwLeave i =>
    match s.gateway.handlers[i]? with
    | some h => if h.body.finished then (s.gateway.leave i).map fun g => { s with gateway := g }
                else none
    | none => none
  | .queue i t =>
    match s.gateway.handlers[i]? with
    | some ⟨.running, .plain⟩ =>
      if t.status = .pending then some { s with
        tasks := s.tasks ++ [t]
        gateway := s.gateway.work i (.text s.tasks.length .tLoop false) }
      else none
    | _ => none
  | .gwStep i disconnected => gwStep s i disconnected
  | .call ts => if ∀ k ∈ ts, k < s.tasks.length then some { s with worker := s.worker.arrive ts }
                else none
  | .wkRead j => (s.worker.enterRead s.workerMarker j).map fun g => { s with worker := g }
  | .wkCount j => (s.worker.enterCount j).map fun g => { s with worker := g }
  | .wkLeave j => (s.worker.leave j).map fun g => { s with worker := g }
  | .rollout io => rolloutStep s io
  | .restartGateway => if s.rollout = .idle then some { s with gateway := {} } else none
  | .restartWorker => if s.rollout = .idle then some { s with worker := {} } else none
  | .foreign n m => some (s.setMarker m n)

/-- Two processes that have just started, and a rollout that has not begun. -/
def Init (s : Sys) : Prop :=
  s.tasks = [] ∧ s.gateway = {} ∧ s.worker = {} ∧ s.gatewayMarker = .absent ∧
    s.workerMarker = .absent ∧ s.rollout = .start ∧ s.names = [] ∧ s.log = []

def Event.isForeign : Event → Bool
  | .foreign _ _ => true
  | _ => false

/-- Only the rollout touches the markers. -/
def Ours (_ : Sys) (e : Event) : Prop := e.isForeign = false

end Drain

end Inference.Deploy
