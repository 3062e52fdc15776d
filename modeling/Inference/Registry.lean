import Inference.Encoding
import Inference.Lib.Run

/-!
# Inference.Registry — `WorkerRegistry` of `system/zookeeper_registry.py`

The registration of one worker: `register`, `set_state`, `deregister` and the registration loop,
statement by statement, against the znodes and the session of the client.  Between any two
statements the connection comes and goes, the session expires and is replaced, and other sessions
create and remove their own nodes.  Every ZooKeeper call may fail before or after taking effect.

* `Sys.step`: the machine.  A session is a number that is never used again.
* `Sys.Inv`: what a caller of `_ensure_registered` knows of the znode at each of its calls.
* **`respects_iff`**: a node of another session is left alone exactly as long as the session is not
  replaced between `client_id` and a `set` that takes effect.
-/

namespace Inference.Registry

open Inference.Lib

structure Znode where
  data : List UInt8
  /-- `ephemeralOwner` -/
  owner : ℕ
deriving DecidableEq, Repr

/-- The znodes `worker-<id>`; `worker-None` is one of them. -/
abbrev Znodes := Option ℤ → Option Znode

/-- The ZooKeeper calls of `_ensure_registered`, in order. -/
inductive Call where
  | ensurePath | create | get | set
deriving DecidableEq, Repr

/-- Program points of `_ensure_registered`; `x` is its `session`. -/
inductive Point where
  /-- `session = self._zk.client_id[0]`, and `data` -/
  | session
  | call (k : Call) (x : ℕ)
  /-- `self._registered_session = session` -/
  | record (x : ℕ)
deriving DecidableEq, Repr

inductive Caller where
  | register | setState | loop
deriving DecidableEq, Repr

/-- What the holder of `_lock` is about to do. -/
inductive Held where
  /-- the loop: `if self._stop.is_set() or self._worker_id is None: continue` -/
  | check (changed : Bool)
  /-- the loop: `if not changed and self._registered_session == session: continue` -/
  | compare (changed : Bool)
  | ensure (c : Caller) (p : Point)
deriving DecidableEq, Repr

/-- Program points of `_registration_loop` outside the lock. -/
inductive LoopPc where
  /-- `while not self._stop.is_set()` -/
  | top
  /-- `changed = self._wakeup.wait(self._RETRY_INTERVAL)` -/
  | wait
  /-- `self._wakeup.clear()` -/
  | clear (changed : Bool)
  /-- `if self._stop.is_set(): break` -/
  | check (changed : Bool)
  /-- `if not self._zk.connected: continue` -/
  | connected (changed : Bool)
  /-- `with self._lock` -/
  | lock (changed : Bool)
  | inside
  | exited
deriving DecidableEq, Repr

/-- A call fails with a `KazooException` before or after it takes effect. -/
inductive Fault where
  | none | before | after
deriving DecidableEq, Repr

/-- `session` is the session id of the client, `live` says whether it is connected and `alive`
whether ZooKeeper still has the session; `next` is a number no session has had.  `waking` counts
the calls of `register` that have released the lock and have not set `_wakeup` yet. -/
structure Sys where
  workerId : Option ℤ
  address : Option String
  state : String
  registered : Option ℕ
  stop : Bool
  wakeup : Bool
  waking : ℕ
  loop : LoopPc
  held : Option Held
  session : Option ℕ
  live : Bool
  alive : Bool
  closed : Bool
  next : ℕ
  nodes : Znodes

inductive Event where
  /-- `register`, up to `_ensure_registered` -/
  | register (workerId : ℤ) (address : String)
  /-- `set_state`, up to `_ensure_registered` -/
  | setState (state : String)
  /-- the next statement of the holder of the lock -/
  | advance (fault : Fault)
  /-- the next statement of the loop outside the lock -/
  | loop
  /-- `_on_state_change` -/
  | stateChange
  /-- `register` sets `_wakeup` -/
  | wake
  /-- `deregister` sets its flag, wakes the loop and stops the client -/
  | stopFlag
  | stopWake
  | close
  | disconnect
  /-- ZooKeeper ends the session -/
  | expire
  /-- the client is told that its session is over -/
  | lost
  | connect
  /-- another session creates, changes or removes a node that is not this session's -/
  | others (workerId : Option ℤ) (node : Option Znode)

/-- The worker, or its client, takes the step. -/
def Event.ofWorker : Event → Bool
  | .others _ _ => false
  | _ => true

/-- `{"address": …, "state": …}` -/
def metadata (address : Option String) (state : String) : Json :=
  .obj [("address", address.elim .null .str), ("state", .str state)]

namespace Sys

/-- `data` of `_ensure_registered`. -/
def data (s : Sys) : List UInt8 := Json.dumpsBytes (metadata s.address s.state)

/-- The session of the client, while ZooKeeper has it. -/
def current (s : Sys) : Option ℕ := if s.alive then s.session else none

/-- `self._zk.client_id`, whose `[0]` raises `TypeError` when it is `None`. -/
def clientId (s : Sys) : Option ℕ := if s.live then s.session else none

/-- The session under which a call takes effect now. -/
def executing (s : Sys) : Option ℕ := if s.live then s.current else none

/-! ## The machine -/

/-- `_ensure_registered` returns to its caller, which releases the lock. -/
def returns (s : Sys) : Caller → Sys
  | .register => { s with held := none, waking := s.waking + 1 }
  | .setState => { s with held := none }
  | .loop => { s with held := none, loop := .top }

/-- `_ensure_registered` raises a `KazooException`, which `set_state` does not catch. -/
def raises (s : Sys) : Caller → Sys
  | .setState => { s with held := none }
  | c => ({ s with registered := none } : Sys).returns c

/-- A `TypeError`: nobody catches it, and it ends the thread of the loop. -/
def typeError (s : Sys) : Caller → Sys
  | .loop => { s with held := none, loop := .exited }
  | _ => { s with held := none }

/-- The znodes once a call has taken effect under the session `y`. -/
def effect (s : Sys) (y : ℕ) : Call → Znodes
  | .create =>
    if s.nodes s.workerId = none then Function.update s.nodes s.workerId (some ⟨s.data, y⟩)
    else s.nodes
  | .set => Function.update s.nodes s.workerId
      ((s.nodes s.workerId).map fun n => { n with data := s.data })
  | _ => s.nodes

/-- Where the answer of a call leads, `none` when it is an exception. -/
def answer (s : Sys) (x : ℕ) : Call → Option Point
  | .ensurePath => some (.call .create x)
  | .create => some (if s.nodes s.workerId = none then .record x else .call .get x)
  | .get =>
    match s.nodes s.workerId with
    | none => none
    | some n =>
      if n.owner ≠ x then none
      else some (if n.data ≠ s.data then .call .set x else .record x)
  | .set => (s.nodes s.workerId).map fun _ => .record x

/-- The caller `c` makes the call `k`. -/
def perform (c : Caller) (k : Call) (x : ℕ) (s : Sys) : Fault → Option Sys
  | .before => some (s.raises c)
  | .after => s.executing.map fun y => ({ s with nodes := s.effect y k } : Sys).raises c
  | .none => s.executing.map fun y =>
      match s.answer x k with
      | none => ({ s with nodes := s.effect y k } : Sys).raises c
      | some p => { s with nodes := s.effect y k, held := some (.ensure c p) }

/-- The next statement of the holder of the lock. -/
def advance (fault : Fault) (s : Sys) : Option Sys :=
  match s.held with
  | none => none
  | some (.check changed) =>
    some (if s.stop || s.workerId.isNone then s.returns .loop
      else { s with held := some (.compare changed) })
  | some (.compare changed) =>
    some (match s.clientId with
      | none => s.typeError .loop
      | some x =>
        if !changed && s.registered == some x then s.returns .loop
        else { s with held := some (.ensure .loop .session) })
  | some (.ensure c .session) =>
    some (match s.clientId with
      | none => s.typeError c
      | some x => { s with held := some (.ensure c (.call .ensurePath x)) })
  | some (.ensure c (.call k x)) => s.perform c k x fault
  | some (.ensure c (.record x)) => some (({ s with registered := some x } : Sys).returns c)

/-- The next statement of the loop. -/
def runLoop (s : Sys) : Option Sys :=
  match s.loop with
  | .top => some { s with loop := if s.stop then .exited else .wait }
  | .wait => some { s with loop := .clear s.wakeup }
  | .clear changed => some { s with wakeup := false, loop := .check changed }
  | .check changed => some { s with loop := if s.stop then .exited else .connected changed }
  | .connected changed => some { s with loop := if s.live then .lock changed else .top }
  | .lock changed =>
    if s.held = none then some { s with held := some (.check changed), loop := .inside } else none
  | .inside | .exited => none

/-- The znodes without those of the session of the client. -/
def withoutOwn (s : Sys) : Znodes := fun wid =>
  (s.nodes wid).filter fun n => some n.owner ≠ s.session

/-- The node, if there is one, is not of the session of the client. -/
def NotOwn (s : Sys) (node : Option Znode) : Prop := ∀ n ∈ node, some n.owner ≠ s.session

instance (s : Sys) (node : Option Znode) : Decidable (s.NotOwn node) :=
  inferInstanceAs (Decidable (∀ n ∈ node, some n.owner ≠ s.session))

def step (s : Sys) : Event → Option Sys
  | .register wid addr =>
    -- a closed registry raises `RuntimeError` before it assigns anything
    if s.held ≠ none then none
    else if s.stop then some s
    else some { s with
      workerId := some wid
      address := some addr
      held := some (.ensure .register .session) }
  | .setState st =>
    if s.held ≠ none then none
    else if s.stop then some s
    else some { s with state := st, held := some (.ensure .setState .session) }
  | .advance fault => s.advance fault
  | .loop => s.runLoop
  | .stateChange => some { s with wakeup := s.wakeup || !s.stop }
  | .wake => if s.waking = 0 then none else some { s with wakeup := true, waking := s.waking - 1 }
  | .stopFlag => some { s with stop := true }
  | .stopWake => if s.stop then some { s with wakeup := true } else none
  | .close =>
    -- without a connection ZooKeeper is not told, and keeps the nodes until it ends the session
    if s.stop then some { s with
      session := none
      live := false
      alive := false
      closed := true
      nodes := if s.live then s.withoutOwn else s.nodes }
    else none
  | .disconnect => some { s with live := false }
  | .expire => some { s with alive := false, nodes := s.withoutOwn }
  | .lost => if s.alive then none else some { s with session := none, live := false }
  | .connect =>
    if s.live || s.closed then none
    else match s.session with
      | some _ => if s.alive then some { s with live := true } else none
      | none => some { s with
          session := some s.next
          live := true
          alive := true
          next := s.next + 1 }
  | .others wid node =>
    if s.NotOwn (s.nodes wid) ∧ s.NotOwn node
    then some { s with
      next := max s.next ((node.elim 0 Znode.owner) + 1)
      nodes := Function.update s.nodes wid node }
    else none

/-- The constructor has opened a session and started the loop. -/
structure Init (s : Sys) : Prop where
  workerId : s.workerId = none
  address : s.address = none
  state : s.state = "READY"
  registered : s.registered = none
  stop : s.stop = false
  loop : s.loop = .top
  held : s.held = none
  session : ∃ x, s.session = some x ∧ x < s.next
  owner : ∀ wid n, s.nodes wid = some n → n.owner < s.next ∧ some n.owner ≠ s.session

/-! ## What the properties say -/

/-- The node of this worker is of the session `x` and has the data of the registry. -/
def Published (s : Sys) (x : ℕ) : Prop :=
  ∃ n, s.nodes s.workerId = some n ∧ n.owner = x ∧ n.data = s.data

/-- The node that a `set` modifies. -/
def sets (s : Sys) : Event → Option Znode
  | .advance fault =>
    match s.held with
    | some (.ensure _ (.call .set _)) =>
      if fault = .before ∨ s.executing = none then none else s.nodes s.workerId
    | _ => none
  | _ => none

/-- A `set` modifies a node of the session under which it executes, and a step of this worker
leaves the nodes of other sessions as they are. -/
def Respects (s : Sys) (e : Event) : Prop :=
  (∀ n, s.sets e = some n → some n.owner = s.executing) ∧
    (e.ofWorker = true → ∀ t, s.step e = some t → ∀ wid n, s.nodes wid = some n →
      some n.owner ≠ s.session → t.nodes wid = some n)

/-- A `set` that takes effect executes under the session that `client_id` named when
`_ensure_registered` began. -/
def SameSession (s : Sys) (e : Event) : Prop :=
  ∀ c x, s.held = some (.ensure c (.call .set x)) → s.sets e ≠ none → s.executing = some x

/-! ## What outside steps do -/

/-- What a step changes that is no statement under the lock. -/
structure Outside (s t : Sys) : Prop where
  workerId : t.workerId = s.workerId
  address : t.address = s.address
  state : t.state = s.state
  registered : t.registered = s.registered
  stop : t.stop = false → s.stop = false
  next : s.next ≤ t.next
  session : ∀ y, t.session = some y → s.session = some y ∨ s.next ≤ y ∧ y < t.next
  current : ∀ y, t.current = some y → s.current = some y ∨ s.next ≤ y
  kept : ∀ wid n, s.nodes wid = some n → t.current = some n.owner → t.nodes wid = some n
  nodes : ∀ wid n, t.nodes wid = some n →
    s.nodes wid = some n ∨ n.owner < t.next ∧ some n.owner ≠ t.session

/-- A step that changes flags of the worker only. -/
theorem outside_flags (s : Sys) {stop : Bool} (wakeup : Bool) (waking : ℕ) (loop : LoopPc)
    (held : Option Held) (live : Bool) (hstop : stop = false → s.stop = false) :
    s.Outside { s with
      stop := stop, wakeup := wakeup, waking := waking, loop := loop, held := held, live := live } where
  workerId := rfl
  address := rfl
  state := rfl
  registered := rfl
  stop := hstop
  next := Nat.le_refl _
  session _ h := .inl h
  current _ h := .inl h
  kept _ _ h _ := h
  nodes _ _ h := .inl h

theorem withoutOwn_eq_some {s : Sys} {wid : Option ℤ} {n : Znode} :
    s.withoutOwn wid = some n ↔ s.nodes wid = some n ∧ some n.owner ≠ s.session := by
  rw [withoutOwn, Option.filter_eq_some_iff, decide_eq_true_eq]

theorem current_eq_some {s : Sys} {x : ℕ} :
    s.current = some x ↔ s.alive = true ∧ s.session = some x := by
  unfold current
  split <;> simp [*]

theorem executing_eq_some {s : Sys} {x : ℕ} :
    s.executing = some x ↔ s.live = true ∧ s.current = some x := by
  unfold executing
  split <;> simp [*]

theorem clientId_session {s : Sys} {x : ℕ} (h : s.clientId = some x) : s.session = some x := by
  unfold clientId at h
  split at h
  · exact h
  · cases h

theorem outside_close {s t : Sys} (h : s.step .close = some t) : s.Outside t ∧ t.held = s.held := by
  simp only [step] at h
  split at h
  · rename_i hstop
    obtain rfl := Option.some.inj h
    refine ⟨⟨rfl, rfl, rfl, rfl, id, Nat.le_refl _, nofun, nofun, nofun, fun wid n hn => .inl ?_⟩, rfl⟩
    dsimp only at hn
    split at hn
    · exact (withoutOwn_eq_some.mp hn).1
    · exact hn
  · cases h

theorem outside_expire (s : Sys) :
    s.Outside { s with alive := false, nodes := s.withoutOwn } where
  workerId := rfl
  address := rfl
  state := rfl
  registered := rfl
  stop := id
  next := Nat.le_refl _
  session _ h := .inl h
  current := nofun
  kept := nofun
  nodes _ _ h := .inl (withoutOwn_eq_some.mp h).1

theorem outside_lost {s t : Sys} (h : s.step .lost = some t) : s.Outside t ∧ t.held = s.held := by
  simp only [step] at h
  split at h
  · cases h
  · obtain rfl := Option.some.inj h
    have hnone : ∀ y, (({ s with session := none, live := false } : Sys).current = some y) → False :=
      fun y hy => nomatch (current_eq_some.mp hy).2
    exact ⟨⟨rfl, rfl, rfl, rfl, id, Nat.le_refl _, nofun, fun y hy => (hnone y hy).elim,
      fun _ _ h _ => h, fun _ _ h => .inl h⟩, rfl⟩

theorem outside_connect {s t : Sys} (h : s.step .connect = some t) :
    s.Outside t ∧ t.held = s.held := by
  simp only [step] at h
  split at h
  · cases h
  split at h
  · split at h
    · obtain rfl := Option.some.inj h
      exact ⟨s.outside_flags s.wakeup s.waking s.loop s.held true id, rfl⟩
    · cases h
  · obtain rfl := Option.some.inj h
    refine ⟨⟨rfl, rfl, rfl, rfl, id, Nat.le_succ _, fun y hy => .inr ?_, fun y hy => .inr ?_,
      fun _ _ h _ => h, fun _ _ h => .inl h⟩, rfl⟩
    · obtain rfl := Option.some.inj hy
      exact ⟨Nat.le_refl _, Nat.lt_succ_self _⟩
    · obtain rfl := Option.some.inj (current_eq_some.mp hy).2
      exact Nat.le_refl _

theorem outside_others {s t : Sys} {wid : Option ℤ} {node : Option Znode}
    (h : s.step (.others wid node) = some t) : s.Outside t ∧ t.held = s.held := by
  simp only [step] at h
  split at h
  · rename_i hown
    obtain rfl := Option.some.inj h
    refine ⟨⟨rfl, rfl, rfl, rfl, id, Nat.le_max_left _ _, fun _ h => .inl h, fun _ h => .inl h,
      fun w n hn hcur => ?_, fun w n hn => ?_⟩, rfl⟩
    · have hw : w ≠ wid := by
        rintro rfl
        exact hown.1 n hn (current_eq_some.mp hcur).2.symm
      show Function.update s.nodes wid node w = some n
      rw [Function.update_of_ne hw, hn]
    · have hn' : Function.update s.nodes wid node w = some n := hn
      by_cases hw : w = wid
      · subst hw
        rw [Function.update_self] at hn'
        subst hn'
        exact .inr ⟨Nat.lt_of_lt_of_le (Nat.lt_succ_self _) (Nat.le_max_right _ _), hown.2 n rfl⟩
      · rw [Function.update_of_ne hw] at hn'
        exact .inl hn'
  · cases h

theorem outside_loop {s t : Sys} (h : s.runLoop = some t) :
    s.Outside t ∧ (t.held = s.held ∨ s.held = none ∧ ∃ changed, t.held = some (.check changed)) := by
  unfold runLoop at h
  cases hloop : s.loop <;> rw [hloop] at h <;> dsimp only at h
  case lock changed =>
    split_ifs at h with hfree
    obtain rfl := Option.some.inj h
    exact ⟨s.outside_flags s.wakeup s.waking .inside (some (.check changed)) s.live id,
      .inr ⟨hfree, changed, rfl⟩⟩
  case clear changed =>
    obtain rfl := Option.some.inj h
    exact ⟨s.outside_flags false s.waking (.check changed) s.held s.live id, .inl rfl⟩
  case inside => cases h
  case exited => cases h
  all_goals
    obtain rfl := Option.some.inj h
    exact ⟨s.outside_flags s.wakeup s.waking _ s.held s.live id, .inl rfl⟩

/-- **What a step does.**  It is outside the lock, it takes the lock for `register` or for
`set_state`, or it is a statement under the lock. -/
theorem step_cases {s t : Sys} {e : Event} (h : s.step e = some t) :
    (s.Outside t ∧ (t.held = s.held ∨ s.held = none ∧ ∃ changed, t.held = some (.check changed))) ∨
    (s.held = none ∧ ∃ wid addr st c, c ≠ .loop ∧ t = { s with
      workerId := wid, address := addr, state := st, held := some (.ensure c .session) }) ∨
    ∃ fault, e = .advance fault ∧ s.advance fault = some t := by
  cases e with
  | register wid addr =>
    simp only [step] at h
    split at h
    · cases h
    rename_i hfree
    split at h
    · obtain rfl := Option.some.inj h
      exact .inl ⟨s.outside_flags s.wakeup s.waking s.loop s.held s.live id, .inl rfl⟩
    · exact .inr (.inl ⟨not_not.mp hfree, some wid, some addr, s.state, .register, nofun,
        (Option.some.inj h).symm⟩)
  | setState st =>
    simp only [step] at h
    split at h
    · cases h
    rename_i hfree
    split at h
    · obtain rfl := Option.some.inj h
      exact .inl ⟨s.outside_flags s.wakeup s.waking s.loop s.held s.live id, .inl rfl⟩
    · exact .inr (.inl ⟨not_not.mp hfree, s.workerId, s.address, st, .setState, nofun,
        (Option.some.inj h).symm⟩)
  | advance fault => exact .inr (.inr ⟨fault, rfl, h⟩)
  | loop => exact .inl (outside_loop h)
  | stateChange =>
    obtain rfl := Option.some.inj h
    exact .inl ⟨s.outside_flags _ s.waking s.loop s.held s.live id, .inl rfl⟩
  | wake =>
    simp only [step] at h
    split at h
    · cases h
    · obtain rfl := Option.some.inj h
      exact .inl ⟨s.outside_flags true _ s.loop s.held s.live id, .inl rfl⟩
  | stopFlag =>
    obtain rfl := Option.some.inj h
    exact .inl ⟨s.outside_flags s.wakeup s.waking s.loop s.held s.live nofun, .inl rfl⟩
  | stopWake =>
    simp only [step] at h
    split at h
    · obtain rfl := Option.some.inj h
      exact .inl ⟨s.outside_flags true s.waking s.loop s.held s.live id, .inl rfl⟩
    · cases h
  | close => exact .inl ((outside_close h).imp_right .inl)
  | disconnect =>
    obtain rfl := Option.some.inj h
    exact .inl ⟨s.outside_flags s.wakeup s.waking s.loop s.held false id, .inl rfl⟩
  | expire =>
    obtain rfl := Option.some.inj h
    exact .inl ⟨s.outside_expire, .inl rfl⟩
  | lost => exact .inl ((outside_lost h).imp_right .inl)
  | connect => exact .inl ((outside_connect h).imp_right .inl)
  | others wid node => exact .inl ((outside_others h).imp_right .inl)

/-! ## The invariant -/

/-- What is known of the session that `_ensure_registered` has read. -/
structure Read (s : Sys) (x : ℕ) : Prop where
  lt : x < s.next
  le : ∀ y, s.session = some y → x ≤ y
  registered : ∀ z, s.registered = some z → z ≤ x

/-- What is known before the call `k`: a session that has replaced `x` has no node, and the node
to be modified is of `x` as long as that is the current session. -/
structure Asked (s : Sys) (k : Call) (x : ℕ) : Prop extends Read s x where
  fresh : ∀ z, s.session = some z → z ≠ x → ∀ wid n, s.nodes wid = some n → n.owner ≠ z
  owned : k = .set → s.current = some x → ∃ n, s.nodes s.workerId = some n ∧ n.owner = x

/-- What the holder of the lock knows. -/
def Knows (s : Sys) : Option Held → Prop
  | some (.ensure _ (.call k x)) => s.Asked k x
  | some (.ensure _ (.record x)) => s.Read x ∧ (s.current = some x → s.Published x)
  | _ => True

/-- Sessions and owners are numbers used before `next`, a node of the current session has data
that the registry has written, and the registered session is not newer than the current one. -/
structure World (s : Sys) : Prop where
  session : ∀ y, s.session = some y → y < s.next
  owner : ∀ wid n, s.nodes wid = some n → n.owner < s.next
  own : ∀ wid n, s.nodes wid = some n → some n.owner = s.session →
    ∃ addr st, n.data = Json.dumpsBytes (metadata addr st)
  registered : ∀ z, s.registered = some z → z < s.next ∧ ∀ y, s.session = some y → z ≤ y

structure Inv (s : Sys) : Prop extends World s where
  held : s.Knows s.held

theorem current_session {s : Sys} {x : ℕ} (h : s.current = some x) : s.session = some x :=
  (current_eq_some.mp h).2

section Outside
variable {s t : Sys} (ho : s.Outside t) (hw : s.World)
include ho

theorem Outside.data_eq : t.data = s.data := by
  rw [data, data, ho.address, ho.state]

theorem Outside.published {x : ℕ} (hcur : t.current = some x) (h : s.Published x) :
    t.Published x := by
  obtain ⟨n, hn, rfl, hdata⟩ := h
  refine ⟨n, ?_, rfl, hdata.trans ho.data_eq.symm⟩
  rw [ho.workerId]
  exact ho.kept _ n hn hcur

theorem Outside.read {x : ℕ} (h : s.Read x) : t.Read x where
  lt := Nat.lt_of_lt_of_le h.lt ho.next
  le y hy := by
    rcases ho.session y hy with hy | ⟨hy, -⟩
    · exact h.le y hy
    · exact Nat.le_trans (Nat.le_of_lt h.lt) hy
  registered z hz := h.registered z (ho.registered ▸ hz)

include hw

theorem Outside.world : t.World where
  session y hy := by
    rcases ho.session y hy with hy | ⟨-, hy⟩
    · exact Nat.lt_of_lt_of_le (hw.session y hy) ho.next
    · exact hy
  owner wid n hn := by
    rcases ho.nodes wid n hn with hn | ⟨hn, -⟩
    · exact Nat.lt_of_lt_of_le (hw.owner wid n hn) ho.next
    · exact hn
  own wid n hn hown := by
    rcases ho.nodes wid n hn with hn | ⟨-, hne⟩
    · rcases ho.session n.owner hown.symm with hy | ⟨hy, -⟩
      · exact hw.own wid n hn hy.symm
      · exact absurd (hw.owner wid n hn) (Nat.not_lt.mpr hy)
    · exact absurd hown hne
  registered z hz := by
    obtain ⟨hlt, hle⟩ := hw.registered z (ho.registered ▸ hz)
    refine ⟨Nat.lt_of_lt_of_le hlt ho.next, fun y hy => ?_⟩
    rcases ho.session y hy with hy | ⟨hy, -⟩
    · exact hle y hy
    · exact Nat.le_trans (Nat.le_of_lt hlt) hy

theorem Outside.asked {k : Call} {x : ℕ} (h : s.Asked k x) : t.Asked k x where
  toRead := ho.read h.toRead
  fresh z hz hne wid n hn := by
    rcases ho.nodes wid n hn with hn | ⟨-, hown⟩
    · rcases ho.session z hz with hz | ⟨hz, -⟩
      · exact h.fresh z hz hne wid n hn
      · exact Nat.ne_of_lt (Nat.lt_of_lt_of_le (hw.owner wid n hn) hz)
    · rintro rfl
      exact hown hz.symm
  owned hk hcur := by
    rcases ho.current x hcur with hs | hs
    · obtain ⟨n, hn, rfl⟩ := h.owned hk hs
      exact ⟨n, ho.workerId ▸ ho.kept _ n hn hcur, rfl⟩
    · exact absurd h.lt (Nat.not_lt.mpr hs)

theorem Outside.knows : ∀ {held : Option Held}, s.Knows held → t.Knows held
  | none, _ => trivial
  | some (.check _), _ => trivial
  | some (.compare _), _ => trivial
  | some (.ensure _ .session), _ => trivial
  | some (.ensure _ (.call _ _)), h => ho.asked hw h
  | some (.ensure _ (.record x)), h => by
    refine ⟨ho.read h.1, fun hcur => ?_⟩
    rcases ho.current x hcur with hs | hs
    · exact ho.published hcur (h.2 hs)
    · exact absurd h.1.lt (Nat.not_lt.mpr hs)

end Outside

/-! ### Statements under the lock -/

@[simp] theorem returns_held (s : Sys) (c : Caller) : (s.returns c).held = none := by cases c <;> rfl

@[simp] theorem raises_held (s : Sys) (c : Caller) : (s.raises c).held = none := by cases c <;> rfl

@[simp] theorem typeError_held (s : Sys) (c : Caller) : (s.typeError c).held = none := by
  cases c <;> rfl

theorem outside_returns (s : Sys) (c : Caller) : s.Outside (s.returns c) := by
  cases c with
  | register => exact s.outside_flags s.wakeup (s.waking + 1) s.loop none s.live id
  | setState => exact s.outside_flags s.wakeup s.waking s.loop none s.live id
  | loop => exact s.outside_flags s.wakeup s.waking .top none s.live id

theorem outside_typeError (s : Sys) (c : Caller) : s.Outside (s.typeError c) := by
  cases c with
  | loop => exact s.outside_flags s.wakeup s.waking .exited none s.live id
  | _ => exact s.outside_flags s.wakeup s.waking s.loop none s.live id

theorem World.raises {s : Sys} (hw : s.World) (c : Caller) : (s.raises c).World := by
  cases c with
  | setState => exact ⟨hw.session, hw.owner, hw.own, hw.registered⟩
  | _ => exact ⟨hw.session, hw.owner, hw.own, nofun⟩

/-- A node after a call is a node from before, or it has the data of the registry and the owner
it had, or the owner that executed the call if there was none. -/
theorem effect_eq_some {s : Sys} {y : ℕ} {k : Call} {wid : Option ℤ} {n : Znode}
    (h : s.effect y k wid = some n) : s.nodes wid = some n ∨
      wid = s.workerId ∧ n.data = s.data ∧
        (k = .create ∧ s.nodes wid = none ∧ n.owner = y ∨
          k = .set ∧ ∃ old, s.nodes wid = some old ∧ n.owner = old.owner) := by
  cases k with
  | ensurePath => exact .inl h
  | get => exact .inl h
  | create =>
    simp only [effect] at h
    split at h
    · rename_i hfree
      by_cases hwid : wid = s.workerId
      · subst hwid
        rw [Function.update_self] at h
        obtain rfl := Option.some.inj h
        exact .inr ⟨rfl, rfl, .inl ⟨rfl, hfree, rfl⟩⟩
      · rw [Function.update_of_ne hwid] at h
        exact .inl h
    · exact .inl h
  | set =>
    simp only [effect] at h
    by_cases hwid : wid = s.workerId
    · subst hwid
      rw [Function.update_self, Option.map_eq_some_iff] at h
      obtain ⟨old, hold, rfl⟩ := h
      exact .inr ⟨rfl, rfl, .inr ⟨rfl, old, hold, rfl⟩⟩
    · rw [Function.update_of_ne hwid] at h
      exact .inl h

theorem World.effect {s : Sys} {y : ℕ} (hw : s.World) (hy : s.executing = some y) (k : Call) :
    ({ s with nodes := s.effect y k } : Sys).World := by
  have hsession := current_session (executing_eq_some.mp hy).2
  refine ⟨hw.session, fun wid n hn => ?_, fun wid n hn hown => ?_, hw.registered⟩
  · rcases effect_eq_some hn with hn | ⟨-, -, ⟨-, -, rfl⟩ | ⟨-, old, hold, hown⟩⟩
    · exact hw.owner wid n hn
    · exact hw.session _ hsession
    · rw [hown]
      exact hw.owner wid old hold
  · rcases effect_eq_some hn with hn | ⟨-, hdata, -⟩
    · exact hw.own wid n hn hown
    · exact ⟨s.address, s.state, hdata⟩

/-- What the caller knows after an answer that is no exception. -/
theorem Asked.answer {s : Sys} {c : Caller} {k : Call} {x y : ℕ} {p : Point} (hk : s.Asked k x)
    (hy : s.executing = some y) (hp : s.answer x k = some p) :
    ({ s with nodes := s.effect y k, held := some (.ensure c p) } : Sys).Knows
      (some (.ensure c p)) := by
  have hread : ({ s with nodes := s.effect y k, held := some (.ensure c p) } : Sys).Read x :=
    ⟨hk.lt, hk.le, hk.registered⟩
  cases k with
  | ensurePath =>
    obtain rfl := Option.some.inj hp
    exact ⟨hread, hk.fresh, nofun⟩
  | create =>
    simp only [Sys.answer] at hp
    obtain rfl := Option.some.inj hp
    by_cases hfree : s.nodes s.workerId = none
    · rw [if_pos hfree] at hread ⊢
      refine ⟨hread, fun hcur => ⟨⟨s.data, y⟩, ?_, ?_, rfl⟩⟩
      · show s.effect y .create s.workerId = _
        rw [effect, if_pos hfree, Function.update_self]
      · exact Option.some.inj ((executing_eq_some.mp hy).2.symm.trans hcur)
    · rw [if_neg hfree] at hread ⊢
      refine ⟨hread, fun z hz hne wid n hn => ?_, nofun⟩
      have hn' : s.effect y .create wid = some n := hn
      rw [effect, if_neg hfree] at hn'
      exact hk.fresh z hz hne wid n hn'
  | get =>
    simp only [Sys.answer] at hp
    cases hnode : s.nodes s.workerId with
    | none =>
      rw [hnode] at hp
      cases hp
    | some n =>
      rw [hnode] at hp
      dsimp only at hp
      split at hp
      · cases hp
      rename_i howner
      obtain rfl := Option.some.inj hp
      by_cases hdata : n.data = s.data
      · rw [if_neg (not_not.mpr hdata)] at hread ⊢
        exact ⟨hread, fun _ => ⟨n, hnode, not_not.mp howner, hdata⟩⟩
      · rw [if_pos hdata] at hread ⊢
        exact ⟨hread, hk.fresh, fun _ _ => ⟨n, hnode, not_not.mp howner⟩⟩
  | set =>
    obtain ⟨n, hnode, rfl⟩ := Option.map_eq_some_iff.mp hp
    refine ⟨hread, fun hcur => ⟨{ n with data := s.data }, ?_, ?_, rfl⟩⟩
    · show s.effect y .set s.workerId = _
      rw [effect, Function.update_self, hnode, Option.map_some]
    · obtain ⟨m, hm, howner⟩ := hk.owned rfl hcur
      obtain rfl : n = m := Option.some.inj (hnode.symm.trans hm)
      exact howner

theorem Inv.of_free {s : Sys} (hw : s.World) (hfree : s.held = none) : s.Inv :=
  ⟨hw, by rw [hfree]; trivial⟩

theorem Inv.perform {s t : Sys} {c : Caller} {k : Call} {x : ℕ} {fault : Fault} (hi : s.Inv)
    (hk : s.Asked k x) (h : s.perform c k x fault = some t) : t.Inv := by
  cases fault with
  | before =>
    obtain rfl := Option.some.inj h
    exact .of_free (hi.toWorld.raises c) (raises_held s c)
  | after =>
    obtain ⟨y, hy, rfl⟩ := Option.map_eq_some_iff.mp h
    exact .of_free ((hi.toWorld.effect hy k).raises c) (raises_held _ c)
  | none =>
    obtain ⟨y, hy, rfl⟩ := Option.map_eq_some_iff.mp h
    cases hp : s.answer x k with
    | none => exact .of_free ((hi.toWorld.effect hy k).raises c) (raises_held _ c)
    | some p =>
      have hw := hi.toWorld.effect hy k
      exact ⟨⟨hw.session, hw.owner, hw.own, hw.registered⟩, hk.answer hy hp⟩

theorem Inv.advance {s t : Sys} {fault : Fault} (hi : s.Inv) (h : s.advance fault = some t) :
    t.Inv := by
  have hworld := hi.toWorld
  have hknows := hi.held
  unfold Sys.advance at h
  split at h
  · cases h
  · -- the loop has the lock
    obtain rfl := Option.some.inj h
    split
    · exact .of_free ((s.outside_returns .loop).world hworld) (returns_held s .loop)
    · exact ⟨⟨hworld.session, hworld.owner, hworld.own, hworld.registered⟩, trivial⟩
  · -- the loop compares the sessions
    obtain rfl := Option.some.inj h
    split
    · exact .of_free ((s.outside_typeError .loop).world hworld) (typeError_held s .loop)
    split
    · exact .of_free ((s.outside_returns .loop).world hworld) (returns_held s .loop)
    · exact ⟨⟨hworld.session, hworld.owner, hworld.own, hworld.registered⟩, trivial⟩
  · -- `client_id` is read
    rename_i c _
    obtain rfl := Option.some.inj h
    split
    · exact .of_free ((s.outside_typeError c).world hworld) (typeError_held s c)
    · rename_i x hx
      have hsession := clientId_session hx
      refine ⟨⟨hworld.session, hworld.owner, hworld.own, hworld.registered⟩, ⟨?_, ?_, ?_⟩, ?_, nofun⟩
      · exact hworld.session x hsession
      · exact fun y hy => Nat.le_of_eq (Option.some.inj (hsession.symm.trans hy))
      · exact fun z hz => (hworld.registered z hz).2 x hsession
      · exact fun z hz hne => absurd (Option.some.inj (hz.symm.trans hsession)) hne
  · -- a call
    rename_i hheld
    rw [hheld] at hknows
    exact hi.perform hknows h
  · -- the session is recorded
    rename_i c x hheld
    rw [hheld] at hknows
    obtain rfl := Option.some.inj h
    have hrecorded : ({ s with registered := some x } : Sys).World := by
      refine ⟨hworld.session, hworld.owner, hworld.own, fun z hz => ?_⟩
      obtain rfl := Option.some.inj hz
      exact ⟨hknows.1.lt, hknows.1.le⟩
    exact .of_free ((outside_returns _ c).world hrecorded) (returns_held _ c)

/-- **One step keeps the invariant.** -/
theorem Inv.step {s t : Sys} {e : Event} (hi : s.Inv) (h : s.step e = some t) : t.Inv := by
  rcases step_cases h with ⟨ho, hheld⟩ | ⟨-, wid, addr, st, c, -, rfl⟩ | ⟨fault, -, h⟩
  · refine ⟨ho.world hi.toWorld, ?_⟩
    rcases hheld with hheld | ⟨-, changed, hheld⟩
    · rw [hheld]
      exact ho.knows hi.toWorld hi.held
    · rw [hheld]
      trivial
  · exact ⟨⟨hi.session, hi.owner, hi.own, hi.registered⟩, trivial⟩
  · exact hi.advance h

theorem Init.inv {s : Sys} (h : s.Init) : s.Inv := by
  refine .of_free ⟨fun y hy => ?_, fun wid n hn => (h.owner wid n hn).1,
    fun wid n hn hown => absurd hown (h.owner wid n hn).2, fun z hz => ?_⟩ h.held
  · obtain ⟨x, hx, hlt⟩ := h.session
    exact Option.some.inj (hx.symm.trans hy) ▸ hlt
  · rw [h.registered] at hz
    cases hz

/-! ## Nodes of other sessions -/

@[simp] theorem returns_nodes (s : Sys) (c : Caller) : (s.returns c).nodes = s.nodes := by
  cases c <;> rfl

@[simp] theorem raises_nodes (s : Sys) (c : Caller) : (s.raises c).nodes = s.nodes := by
  cases c <;> rfl

@[simp] theorem typeError_nodes (s : Sys) (c : Caller) : (s.typeError c).nodes = s.nodes := by
  cases c <;> rfl

theorem advance_nodes {s t : Sys} {fault : Fault} (h : s.advance fault = some t) :
    t.nodes = s.nodes ∨ ∃ c k x y, s.held = some (.ensure c (.call k x)) ∧ fault ≠ .before ∧
      s.executing = some y ∧ t.nodes = s.effect y k := by
  unfold advance at h
  split at h
  · cases h
  · obtain rfl := Option.some.inj h
    split
    · exact .inl (returns_nodes s .loop)
    · exact .inl rfl
  · obtain rfl := Option.some.inj h
    split
    · exact .inl (typeError_nodes s .loop)
    split
    · exact .inl (returns_nodes s .loop)
    · exact .inl rfl
  · obtain rfl := Option.some.inj h
    split
    · exact .inl (typeError_nodes s _)
    · exact .inl rfl
  · rename_i c k x hheld
    cases fault with
    | before =>
      obtain rfl := Option.some.inj h
      exact .inl (raises_nodes s c)
    | after =>
      obtain ⟨y, hy, rfl⟩ := Option.map_eq_some_iff.mp h
      exact .inr ⟨c, k, x, y, hheld, nofun, hy, raises_nodes _ c⟩
    | none =>
      obtain ⟨y, hy, rfl⟩ := Option.map_eq_some_iff.mp h
      refine .inr ⟨c, k, x, y, hheld, nofun, hy, ?_⟩
      split
      · exact raises_nodes _ c
      · rfl
  · obtain rfl := Option.some.inj h
    exact .inl (returns_nodes _ _)

/-- A step of the worker leaves the nodes alone, removes those of its own session, or is a call
that takes effect. -/
theorem step_nodes {s t : Sys} {e : Event} (hworker : e.ofWorker = true) (h : s.step e = some t) :
    t.nodes = s.nodes ∨ t.nodes = s.withoutOwn ∨
      ∃ fault c k x y, e = .advance fault ∧ s.held = some (.ensure c (.call k x)) ∧
        fault ≠ .before ∧ s.executing = some y ∧ t.nodes = s.effect y k := by
  cases e with
  | others => cases hworker
  | advance fault =>
    rcases advance_nodes h with h | ⟨c, k, x, y, h⟩
    · exact .inl h
    · exact .inr (.inr ⟨fault, c, k, x, y, rfl, h⟩)
  | expire =>
    obtain rfl := Option.some.inj h
    exact .inr (.inl rfl)
  | close =>
    simp only [step] at h
    split at h
    · obtain rfl := Option.some.inj h
      cases hlive : s.live with
      | true => exact .inr (.inl rfl)
      | false => exact .inl rfl
    · cases h
  | loop =>
    have h : s.runLoop = some t := h
    unfold runLoop at h
    cases hloop : s.loop <;> rw [hloop] at h <;> dsimp only at h
    case lock =>
      split_ifs at h
      obtain rfl := Option.some.inj h
      exact .inl rfl
    case inside => cases h
    case exited => cases h
    all_goals
      obtain rfl := Option.some.inj h
      exact .inl rfl
  | connect =>
    simp only [step] at h
    split at h
    · cases h
    split at h
    · split at h
      · obtain rfl := Option.some.inj h
        exact .inl rfl
      · cases h
    · obtain rfl := Option.some.inj h
      exact .inl rfl
  | stateChange | stopFlag | disconnect =>
    obtain rfl := Option.some.inj h
    exact .inl rfl
  | register | setState | wake | stopWake | lost =>
    simp only [step] at h
    split_ifs at h <;> (obtain rfl := Option.some.inj h; exact .inl rfl)

theorem sets_eq_some {s : Sys} {e : Event} {n : Znode} (h : s.sets e = some n) :
    ∃ fault c x y, e = .advance fault ∧ s.held = some (.ensure c (.call .set x)) ∧
      s.executing = some y ∧ s.nodes s.workerId = some n := by
  cases e with
  | advance fault =>
    simp only [sets] at h
    split at h
    · rename_i c x hheld
      split at h
      · cases h
      · rename_i hne
        obtain ⟨y, hy⟩ := Option.ne_none_iff_exists'.mp (not_or.mp hne).2
        exact ⟨fault, c, x, y, rfl, hheld, hy, h⟩
    · cases h
  | _ => cases h

theorem sets_of {s : Sys} {fault : Fault} {c : Caller} {x y : ℕ}
    (hheld : s.held = some (.ensure c (.call .set x))) (hfault : fault ≠ .before)
    (hy : s.executing = some y) : s.sets (.advance fault) = s.nodes s.workerId := by
  simp only [sets, hheld]
  rw [if_neg]
  rintro (h | h)
  · exact hfault h
  · rw [hy] at h
    cases h

/-- A worker that modifies no node of another session leaves them all as they are. -/
theorem foreign_kept {s t : Sys} {e : Event} (hworker : e.ofWorker = true)
    (hset : ∀ n, s.sets e = some n → some n.owner = s.executing) (h : s.step e = some t)
    {wid : Option ℤ} {n : Znode} (hn : s.nodes wid = some n) (hne : some n.owner ≠ s.session) :
    t.nodes wid = some n := by
  rcases step_nodes hworker h with h | h | ⟨fault, c, k, x, y, rfl, hheld, hfault, hy, h⟩
  · rw [h, hn]
  · rw [h]
    exact withoutOwn_eq_some.mpr ⟨hn, hne⟩
  · rw [h]
    cases k with
    | ensurePath => exact hn
    | get => exact hn
    | create =>
      rw [effect]
      split
      · rename_i hfree
        have hwid : wid ≠ s.workerId := by
          rintro rfl
          rw [hfree] at hn
          cases hn
        rw [Function.update_of_ne hwid, hn]
      · exact hn
    | set =>
      have hwid : wid ≠ s.workerId := by
        rintro rfl
        have hown := hset n ((sets_of hheld hfault hy).trans hn)
        rw [hy, ← current_session (executing_eq_some.mp hy).2] at hown
        exact hne hown
      rw [effect, Function.update_of_ne hwid, hn]

/-- **One step.**  The `set` modifies a node of the session under which it executes exactly when
that is the session that was read. -/
theorem Inv.sameSession_iff {s t : Sys} {e : Event} (hi : s.Inv) (h : s.step e = some t) :
    s.SameSession e ↔ s.Respects e := by
  constructor
  · intro hsame
    have hset : ∀ n, s.sets e = some n → some n.owner = s.executing := by
      intro n hn
      obtain ⟨fault, c, x, y, rfl, hheld, hy, hnode⟩ := sets_eq_some hn
      have hx : s.executing = some x :=
        hsame c x hheld (by rw [hn]; exact Option.some_ne_none n)
      have hknows := hi.held
      rw [hheld] at hknows
      obtain ⟨m, hm, howner⟩ := hknows.owned rfl (executing_eq_some.mp hx).2
      obtain rfl : n = m := Option.some.inj (hnode.symm.trans hm)
      rw [hx, howner]
    refine ⟨hset, fun hworker u hu wid n hn hne => ?_⟩
    exact foreign_kept hworker hset hu hn hne
  · rintro ⟨hset, -⟩ c x hheld hsets
    obtain ⟨n, hn⟩ := Option.ne_none_iff_exists'.mp hsets
    obtain ⟨fault, c', x', y, rfl, hheld', hy, hnode⟩ := sets_eq_some hn
    have howner : n.owner = y := Option.some.inj ((hset n hn).trans hy)
    have hknows := hi.held
    rw [hheld] at hknows
    by_contra hx
    have hyx : y ≠ x := by
      rintro rfl
      exact hx hy
    have hsession := current_session (executing_eq_some.mp hy).2
    exact hknows.fresh y hsession hyx _ n hnode howner

/-- **Another session's registration.**  In every run, every `set` that takes effect modifies a
node of the session under which it executes and no step of the worker changes or removes a node of
another session, exactly when every such `set` executes under the session that
`_ensure_registered` read. -/
theorem respects_iff {s t : Sys} {es : List Event} (h₀ : s.Init) (h : exec step s es = some t) :
    Meets step SameSession s es ↔ Meets step Respects s es :=
  meets_congr (fun _ _ _ hi h => Inv.step hi h) (fun _ _ _ hi h => hi.sameSession_iff h) h₀.inv h

/-- A registry that has just opened session 1. -/
def opened : Sys where
  workerId := none
  address := none
  state := "READY"
  registered := none
  stop := false
  wakeup := false
  waking := 0
  loop := .top
  held := none
  session := some 1
  live := true
  alive := true
  closed := false
  next := 2
  nodes := fun _ => none

theorem opened_init : opened.Init :=
  ⟨rfl, rfl, rfl, rfl, rfl, rfl, rfl, ⟨1, rfl, by decide⟩, nofun⟩

/-- Worker 7 registers. -/
def registering : List Event :=
  .register 7 "worker-7:50051" :: List.replicate 4 (.advance .none) ++ [.wake]

/-- `set_state("DRAINING")`, up to the `set`. -/
def draining : List Event := .setState "DRAINING" :: List.replicate 4 (.advance .none)

/-- The session expires, the client reconnects and another session creates the node. -/
def takenOver : List Event :=
  [.disconnect, .expire, .lost, .connect,
    .others (some 7) (some ⟨Json.dumpsBytes (metadata (some "other-worker:50051") "READY"), 9⟩)]

/-- A `set` that is about to be made has the session that was read. -/
def sameSession (s : Sys) (_ : Event) : Bool :=
  match s.held with
  | some (.ensure _ (.call .set x)) => s.executing == some x
  | _ => true

theorem respects_iff_draining :
    Meets step Respects opened (registering ++ draining ++ List.replicate 2 (.advance .none)) := by
  have hrun : (exec step opened
      (registering ++ draining ++ List.replicate 2 (.advance .none))).isSome = true := by
    decide +kernel
  obtain ⟨t, ht⟩ := Option.isSome_iff_exists.mp hrun
  refine (respects_iff opened_init ht).mp ?_
  refine meets_of_checks (b := sameSession) (fun s e hb c x hheld _ => ?_) (by decide +kernel)
  rw [sameSession, hheld] at hb
  exact eq_of_beq hb

/-- The `set` of session 2 modifies a node of session 9. -/
theorem takenOver_set : ∃ t, exec step opened (registering ++ draining ++ takenOver) = some t ∧
    ¬ t.Respects (.advance .none) := by
  have hrun : (exec step opened (registering ++ draining ++ takenOver)).map
      (fun t => ((t.sets (.advance .none)).map Znode.owner, t.executing)) = some (some 9, some 2) := by
    decide +kernel
  obtain ⟨t, ht, hset⟩ := Option.map_eq_some_iff.mp hrun
  refine ⟨t, ht, fun hrespects => ?_⟩
  obtain ⟨hsets, hexecuting⟩ := Prod.mk.inj hset
  obtain ⟨n, hn, howner⟩ := Option.map_eq_some_iff.mp hsets
  have hown := hrespects.1 n hn
  rw [howner, hexecuting] at hown
  exact absurd (Option.some.inj hown) (by decide)

end Sys

end Inference.Registry
