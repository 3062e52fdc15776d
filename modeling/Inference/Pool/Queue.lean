import Inference.Lib.Monitor
import Inference.Lib.Run
import Inference.Pool.Machine

/-!
# Inference.Pool.Queue — the queue of a `GrpcWorker` of `system/grpc_worker_pool.py`

One proxy, its dispatch thread, and any number of calls of `try_submit`, `set_routing_state`,
`begin_stop` and `stop` from other threads.  A `Point` is a statement; statements inside the proxy
lock are steps of their own, so that the state between them is there too.

* `stmt`, `Sys.step`: the statements, and who may run one.
* `Good`, `At`: the invariant while the lock is free, and the assertion at each statement inside it.
* `stmt_enter`, `stmt_inside`: every statement keeps them.
* `through_try_submit` and its siblings: `Machine` has the same critical sections as single steps.
* **`queue_invariant`**: bound, gauge, exactly-once removal, admission, and what `stop` leaves.
-/

namespace Inference.Pool.Queue

open Inference.Lib

/-- Who took a batch out of the queue. -/
inductive Taker where
  | loop | stop
deriving DecidableEq, Repr

/-- The fields behind the lock; `accepted`, `removed`, `first` and `swapped` only record: the batches
in the order they came and went, the argument of the `begin_stop` that set the flag, and whether a
`stop` has taken the queue. -/
structure Proxy (β : Type) where
  queue : List β := []
  stop : Bool := false
  retryOnStop : Bool := false
  processing : Bool := false
  routing : String := "READY"
  /-- the value of `_queued_batches_metric` -/
  gauge : ℕ := 0
  metricsRemoved : Bool := false
  accepted : List β := []
  removed : List (β × Taker) := []
  first : Option Bool := none
  swapped : Bool := false
deriving DecidableEq, Repr

inductive Point (β : Type) where
  /-- `with self._lock` in `try_submit` -/
  | submit (batch : β)
  /-- `if self._stop.is_set() or self._routing_state != "READY"` -/
  | running (batch : β)
  /-- `if outstanding >= 2` -/
  | count (batch : β)
  /-- `self._batch_queue.append(batch)` -/
  | append (batch : β)
  /-- `self._queued_batches_metric.set(len(self._batch_queue))` -/
  | publish
  /-- `self._has_work.set()` -/
  | notify
  | answered (result : Bool)
  /-- `with self._lock` in `set_routing_state` -/
  | route (state : String)
  /-- `self._routing_state = state` -/
  | assign (state : String)
  /-- `with self._lock` in `begin_stop`, which `stop` has called or not -/
  | begin (retryPending stops : Bool)
  /-- `if not self._stop.is_set()` -/
  | test (retryPending stops : Bool)
  /-- `self._retry_on_stop = retry_pending` -/
  | keep (retryPending stops : Bool)
  /-- `self._stop.set()` -/
  | raise (retryPending stops : Bool)
  /-- `self._has_work.set()` -/
  | signal (stops : Bool)
  /-- `with self._lock` in `stop` -/
  | swap
  /-- `pending = self._batch_queue` -/
  | take
  /-- `self._batch_queue = []` -/
  | clear (pending : List β)
  /-- `self._queued_batches_metric.set(0)` -/
  | zero (pending : List β)
  /-- from `self._channel.close()` to `self._thread.join(timeout=3)` -/
  | finish (pending : List β)
  /-- `with self._lock` again -/
  | remove
  /-- `self._metrics_removed = True`, if it is not -/
  | forget
  | returned
  /-- `while not self._stop.is_set()` in `_loop` -/
  | top
  /-- `self._has_work.wait(timeout=0.1)` -/
  | wait
  /-- `self._has_work.clear()` -/
  | reset
  /-- `with self._lock` under `while True` -/
  | inner
  /-- `if self._stop.is_set() or not self._batch_queue` -/
  | look
  /-- `batch = self._batch_queue.pop(0)` -/
  | pop
  /-- `self._queued_batches_metric.set(len(self._batch_queue))` -/
  | shrink (batch : β)
  /-- `self._processing = True` -/
  | mark (batch : β)
  /-- `self._process(batch)` -/
  | process (batch : β)
  /-- `with self._lock` under `finally` -/
  | ending (raised : Bool)
  /-- `self._processing = False` -/
  | idle (raised : Bool)
  /-- the thread has ended -/
  | dead
deriving DecidableEq, Repr

variable {β : Type}

namespace Point

/-- The statements inside the lock. -/
def holds : Point β → Bool
  | .running _ | .count _ | .append _ | .publish | .assign _ | .test _ _ | .keep _ _ | .raise _ _
  | .take | .clear _ | .zero _ | .forget | .look | .pop | .shrink _ | .mark _ | .idle _ => true
  | _ => false

/-- The statements that take the lock. -/
def enters : Point β → Bool
  | .submit _ | .route _ | .begin _ _ | .swap | .remove | .inner | .ending _ => true
  | _ => false

/-- The points after `begin_stop` in its call or in `stop`. -/
def past : Point β → Bool
  | .signal _ | .swap | .take | .clear _ | .zero _ | .finish _ | .remove | .forget => true
  | _ => false

/-- The points of the dispatch thread. -/
def ofLoop : Point β → Bool
  | .top | .wait | .reset | .inner | .look | .pop | .shrink _ | .mark _ | .process _ | .ending _
  | .idle _ | .dead => true
  | _ => false

/-- A batch is being processed. -/
def inHand : Point β → Bool
  | .process _ | .ending _ | .idle _ => true
  | _ => false

end Point

/-- A call that a thread makes. -/
inductive Call (β : Type) where
  | trySubmit (batch : β)
  | setRoutingState (state : String)
  | beginStop (retryPending : Bool)
  | stop (retryPending : Bool)
deriving DecidableEq, Repr

def Call.start : Call β → Point β
  | trySubmit batch => .submit batch
  | setRoutingState state => .route state
  | beginStop retryPending => .begin retryPending false
  | stop retryPending => .begin retryPending true

/-- The statement at a point: the fields after it, and the next point.  `raised` is whether
`_process`, or the removal of the labels, raises. -/
def stmt (s : Proxy β) (raised : Bool) : Point β → Option (Proxy β × Point β)
  | .submit batch => some (s, .running batch)
  | .running batch =>
    some (s, if s.stop = true ∨ s.routing ≠ "READY" then .answered false else .count batch)
  | .count batch =>
    some (s, if 2 ≤ s.processing.toNat + s.queue.length then .answered false else .append batch)
  | .append batch =>
    some ({ s with queue := s.queue ++ [batch], accepted := s.accepted ++ [batch] }, .publish)
  | .publish => some ({ s with gauge := s.queue.length }, .notify)
  | .notify => some (s, .answered true)
  | .route state => some (s, .assign state)
  | .assign state => some ({ s with routing := state }, .returned)
  | .begin retryPending stops => some (s, .test retryPending stops)
  | .test retryPending stops => some (s, if s.stop then .signal stops else .keep retryPending stops)
  | .keep retryPending stops =>
    some ({ s with retryOnStop := retryPending }, .raise retryPending stops)
  | .raise retryPending stops =>
    some ({ s with stop := true, first := some retryPending }, .signal stops)
  | .signal stops => some (s, if stops then .swap else .returned)
  | .swap => some (s, .take)
  | .take => some (s, .clear s.queue)
  | .clear pending =>
    some ({ s with queue := [], removed := s.removed ++ pending.map (·, .stop), swapped := true },
      .zero pending)
  | .zero pending => some ({ s with gauge := 0 }, .finish pending)
  | .finish _ => some (s, .remove)
  | .remove => some (s, .forget)
  | .forget => some (if raised then s else { s with metricsRemoved := true }, .returned)
  | .top => some (s, if s.stop then .dead else .wait)
  | .wait => some (s, .reset)
  | .reset => some (s, .inner)
  | .inner => some (s, .look)
  | .look => some (s, if s.stop = true ∨ s.queue = [] then .top else .pop)
  | .pop =>
    match s.queue with
    | [] => none
    | batch :: rest =>
      some ({ s with queue := rest, removed := s.removed ++ [(batch, .loop)] }, .shrink batch)
  | .shrink batch => some ({ s with gauge := s.queue.length }, .mark batch)
  | .mark batch => some ({ s with processing := true }, .process batch)
  | .process _ => some (s, .ending raised)
  | .ending raised => some (s, .idle raised)
  | .idle raised => some ({ s with processing := false }, if raised then .dead else .inner)
  | .answered _ | .returned | .dead => none

/-- `_has_work` after a statement. -/
def wakes (hasWork : Bool) : Point β → Bool
  | .notify | .signal _ => true
  | .reset => false
  | _ => hasWork

/-- The proxy with its lock, its event and its threads; thread `0` is the dispatch thread. -/
structure Sys (β : Type) where
  proxy : Proxy β
  locked : Bool
  hasWork : Bool
  threads : List (Point β)

inductive Event (β : Type) where
  | call (c : Call β)
  /-- Thread `i` runs its statement. -/
  | run (i : ℕ) (raised : Bool)
deriving DecidableEq, Repr

namespace Sys

def step (s : Sys β) : Event β → Option (Sys β)
  | .call c => some { s with threads := s.threads ++ [c.start] }
  | .run i raised =>
    s.threads[i]?.bind fun q =>
      if q.enters && s.locked then none
      else (stmt s.proxy raised q).map fun (proxy, q') =>
        { proxy, locked := if q.holds || q'.holds then q'.holds else s.locked,
          hasWork := wakes s.hasWork q, threads := s.threads.set i q' }

/-- After `__init__`. -/
def start : Sys β where
  proxy := {}
  locked := false
  hasWork := false
  threads := [.top]

end Sys

/-! ### The invariant -/

/-- What holds also while the gauge is behind. -/
structure Kept (s : Proxy β) : Prop where
  bound : s.queue.length + s.processing.toNat ≤ 2
  log : s.accepted = s.removed.map Prod.fst ++ s.queue
  first : s.first.isSome = s.stop
  retry : ∀ r, s.first = some r → s.retryOnStop = r
  swapped : s.swapped = true → s.stop = true ∧ s.queue = []

/-- What holds while the lock is free. -/
structure Good (s : Proxy β) : Prop extends Kept s where
  gauge : s.gauge = s.queue.length

/-- What holds at a statement inside the lock. -/
def At (q : Point β) (s : Proxy β) : Prop :=
  match q with
  | .count _ => Good s ∧ s.stop = false ∧ s.routing = "READY"
  | .append _ => Good s ∧ s.stop = false ∧ s.routing = "READY" ∧
      s.queue.length + s.processing.toNat < 2
  | .publish => Kept s
  | .keep _ _ => Good s ∧ s.stop = false
  | .raise r _ => Good s ∧ s.stop = false ∧ s.retryOnStop = r
  | .take => Good s ∧ s.stop = true
  | .clear pending => Good s ∧ s.stop = true ∧ pending = s.queue
  | .zero _ => Kept s ∧ s.queue = []
  | .pop => Good s ∧ s.stop = false
  | .shrink _ => Kept s ∧ s.queue.length ≤ 1
  | .mark _ => Good s ∧ s.queue.length ≤ 1
  | _ => Good s

theorem At.kept {q : Point β} {s : Proxy β} (h : At q s) : Kept s := by
  cases q with
  | publish => exact h
  | zero | shrink => exact h.1
  | count | append | keep | raise | take | clear | pop | mark => exact h.1.toKept
  | _ => exact Good.toKept h

theorem good_start : Good (Sys.start : Sys β).proxy where
  bound := Nat.zero_le _
  log := rfl
  first := rfl
  retry := nofun
  swapped := nofun
  gauge := rfl

/-! ### The statements -/

variable {s s' : Proxy β} {q q' : Point β} {raised : Bool}

/-- Only the statements inside the lock write to the fields. -/
theorem stmt_outside (hq : q.holds = false) (h : stmt s raised q = some (s', q')) : s' = s := by
  cases q <;> first | (cases hq; done) | (cases h; done) | (cases h; rfl)

/-- The lock is taken at the points that say so. -/
theorem stmt_enters (hq : q.holds = false) (h : stmt s raised q = some (s', q')) :
    q'.holds = q.enters := by
  cases q <;> first | (cases hq; done) | (cases h; done) | (cases h; rfl) | (cases h; split <;> rfl)

/-- The stop flag stays up, and is up after `begin_stop`. -/
theorem stmt_stop (hpast : q.past = true → s.stop = true) (h : stmt s raised q = some (s', q')) :
    (s.stop = true → s'.stop = true) ∧ (q'.past = true → s'.stop = true) := by
  cases q with
  | test r stops =>
    cases h
    refine ⟨id, fun hq' => ?_⟩
    split at hq'
    · assumption
    · cases hq'
  | raise => cases h; exact ⟨fun _ => rfl, fun _ => rfl⟩
  | signal stops =>
    cases h
    exact ⟨id, fun _ => hpast rfl⟩
  | forget =>
    cases h
    cases raised <;> exact ⟨id, nofun⟩
  | pop =>
    rw [stmt] at h
    split at h
    · cases h
    · cases h
      exact ⟨id, nofun⟩
  | swap | take | clear | zero | finish | remove =>
    cases h
    exact ⟨id, fun _ => hpast rfl⟩
  | answered | returned | dead => cases h
  | running | count | look | top | idle =>
    cases h
    refine ⟨id, fun hq' => ?_⟩
    split at hq' <;> cases hq'
  | _ =>
    cases h
    exact ⟨id, nofun⟩

/-- Inside the lock the assertions lead from statement to statement. -/
theorem stmt_inside (hq : q.holds = true) (hpast : q.past = true → s.stop = true) (hs : At q s)
    (h : stmt s raised q = some (s', q')) :
    if q'.holds = true then At q' s' else Good s' := by
  cases q with
  | running batch =>
    cases h
    have hs : Good s := hs
    split
    · exact hs
    next hopen =>
      rw [not_or, not_not, Bool.not_eq_true] at hopen
      exact ⟨hs, hopen.1, hopen.2⟩
  | count batch =>
    cases h
    obtain ⟨hs, hstop, hready⟩ := hs
    split
    · exact hs
    next hroom => exact ⟨hs, hstop, hready, by omega⟩
  | append batch =>
    cases h
    obtain ⟨hs, hstop, -, hroom⟩ := hs
    refine ⟨?_, ?_, hs.first, hs.retry, fun hswapped => ?_⟩
    · show (s.queue ++ [batch]).length + s.processing.toNat ≤ 2
      rw [List.length_append, List.length_singleton]
      omega
    · show s.accepted ++ [batch] = s.removed.map Prod.fst ++ (s.queue ++ [batch])
      rw [hs.log, List.append_assoc]
    · -- a stop that took the queue had set the flag
      rw [(hs.swapped hswapped).1] at hstop
      cases hstop
  | publish =>
    cases h
    exact ⟨⟨hs.bound, hs.log, hs.first, hs.retry, hs.swapped⟩, rfl⟩
  | assign state =>
    cases h
    have hs : Good s := hs
    exact ⟨⟨hs.bound, hs.log, hs.first, hs.retry, hs.swapped⟩, hs.gauge⟩
  | test r stops =>
    cases h
    have hs : Good s := hs
    split
    · exact hs
    next hstop => exact ⟨hs, by simpa using hstop⟩
  | keep r stops =>
    cases h
    obtain ⟨hs, hstop⟩ := hs
    refine ⟨⟨⟨hs.bound, hs.log, hs.first, fun r' hr' => ?_, hs.swapped⟩, hs.gauge⟩, hstop, rfl⟩
    -- nobody has set the flag, so `first` is empty
    have hfirst := hs.first
    rw [hstop, show s.first = some r' from hr'] at hfirst
    cases hfirst
  | raise r stops =>
    cases h
    obtain ⟨hs, hstop, hretry⟩ := hs
    refine ⟨⟨hs.bound, hs.log, rfl, fun r' hr' => ?_, fun hswapped => ?_⟩, hs.gauge⟩
    · rw [← Option.some.inj hr']
      exact hretry
    · exact ⟨rfl, (hs.swapped hswapped).2⟩
  | take =>
    cases h
    exact ⟨hs.1, hs.2, rfl⟩
  | clear pending =>
    cases h
    obtain ⟨hs, hstop, rfl⟩ := hs
    refine ⟨⟨?_, ?_, hs.first, hs.retry, fun _ => ⟨hstop, rfl⟩⟩, rfl⟩
    · have hbound := hs.bound
      show 0 + s.processing.toNat ≤ 2
      omega
    · show s.accepted = (s.removed ++ s.queue.map (·, Taker.stop)).map Prod.fst ++ []
      rw [hs.log, List.append_nil, List.map_append, List.map_map]
      exact congrArg _ (List.map_id s.queue).symm
  | zero pending =>
    cases h
    obtain ⟨hs, hqueue⟩ := hs
    refine ⟨⟨hs.bound, hs.log, hs.first, hs.retry, hs.swapped⟩, ?_⟩
    show 0 = s.queue.length
    rw [hqueue]
    rfl
  | forget =>
    cases h
    have hs : Good s := hs
    cases raised with
    | true => exact hs
    | false => exact ⟨⟨hs.bound, hs.log, hs.first, hs.retry, hs.swapped⟩, hs.gauge⟩
  | look =>
    cases h
    have hs : Good s := hs
    split
    · exact hs
    next hwork =>
      rw [not_or, Bool.not_eq_true] at hwork
      exact ⟨hs, hwork.1⟩
  | pop =>
    obtain ⟨hs, hstop⟩ := hs
    rw [stmt] at h
    split at h
    · cases h
    next batch rest hqueue =>
      cases h
      have hbound := hs.bound
      rw [hqueue, List.length_cons] at hbound
      refine ⟨⟨?_, ?_, hs.first, hs.retry, fun hswapped => ?_⟩, ?_⟩
      · show rest.length + s.processing.toNat ≤ 2
        omega
      · show s.accepted = (s.removed ++ [(batch, Taker.loop)]).map Prod.fst ++ rest
        rw [hs.log, hqueue]
        simp
      · rw [(hs.swapped hswapped).1] at hstop
        cases hstop
      · show rest.length ≤ 1
        omega
  | shrink batch =>
    cases h
    obtain ⟨hs, hone⟩ := hs
    exact ⟨⟨⟨hs.bound, hs.log, hs.first, hs.retry, hs.swapped⟩, rfl⟩, hone⟩
  | mark batch =>
    cases h
    obtain ⟨hs, hone⟩ := hs
    refine ⟨⟨?_, hs.log, hs.first, hs.retry, hs.swapped⟩, hs.gauge⟩
    show s.queue.length + 1 ≤ 2
    omega
  | idle r =>
    cases h
    have hs : Good s := hs
    have hbound := hs.bound
    have hgood : Good { s with processing := false } := by
      refine ⟨⟨?_, hs.log, hs.first, hs.retry, hs.swapped⟩, hs.gauge⟩
      show s.queue.length + 0 ≤ 2
      omega
    split <;> exact hgood
  | _ => cases hq

/-- What the first statement inside the lock finds. -/
theorem stmt_enter (hq : q.enters = true) (hpast : q.past = true → s.stop = true) (hs : Good s)
    (h : stmt s raised q = some (s', q')) : At q' s' := by
  cases q with
  | swap =>
    cases h
    exact ⟨hs, hpast rfl⟩
  | submit | route | begin | remove | inner | ending =>
    cases h
    exact hs
  | _ => cases hq

/-- The dispatch thread alone writes `_processing`, and keeps to its loop. -/
theorem stmt_processing (h : stmt s raised q = some (s', q')) :
    q'.ofLoop = q.ofLoop ∧ (q.ofLoop = false → s'.processing = s.processing) ∧
      (q.inHand = s.processing → q.ofLoop = true → q'.inHand = s'.processing) := by
  cases q with
  | pop =>
    rw [stmt] at h
    split at h
    · cases h
    · cases h
      exact ⟨rfl, nofun, fun hp _ => hp⟩
  | answered | returned | dead => cases h
  | forget => cases h; cases raised <;> exact ⟨rfl, fun _ => rfl, nofun⟩
  | running | count | test | signal => cases h; split <;> exact ⟨rfl, fun _ => rfl, nofun⟩
  | look | top => cases h; split <;> exact ⟨rfl, nofun, fun hp _ => hp⟩
  | idle => cases h; split <;> exact ⟨rfl, nofun, fun _ _ => rfl⟩
  | wait | reset | inner | shrink | process | ending => cases h; exact ⟨rfl, nofun, fun hp _ => hp⟩
  | mark => cases h; exact ⟨rfl, nofun, fun _ _ => rfl⟩
  | _ => cases h; exact ⟨rfl, fun _ => rfl, nofun⟩

/-- Nothing but `begin_stop` writes `first`, and no statement takes `swapped` back. -/
theorem stmt_records (h : stmt s raised q = some (s', q')) :
    (s'.first = s.first ∨ ∃ r stops, q = .raise r stops) ∧ (s.swapped = true → s'.swapped = true) := by
  cases q with
  | raise r stops => cases h; exact ⟨.inr ⟨r, stops, rfl⟩, id⟩
  | clear => cases h; exact ⟨.inl rfl, fun _ => rfl⟩
  | pop =>
    rw [stmt] at h
    split at h
    · cases h
    · cases h
      exact ⟨.inl rfl, id⟩
  | forget => cases h; cases raised <;> exact ⟨.inl rfl, id⟩
  | answered | returned | dead => cases h
  | _ => cases h; exact ⟨.inl rfl, id⟩

/-- The two statements that take batches out. -/
theorem stmt_removed (h : stmt s raised q = some (s', q')) :
    (s'.removed = s.removed) ∨
    (q = .pop ∧ ∃ batch, s'.removed = s.removed ++ [(batch, .loop)]) ∨
    ∃ pending, q = .clear pending ∧ s'.removed = s.removed ++ pending.map (·, .stop) := by
  cases q with
  | clear pending => cases h; exact .inr (.inr ⟨pending, rfl, rfl⟩)
  | pop =>
    rw [stmt] at h
    split at h
    · cases h
    next batch rest _ =>
      cases h
      exact .inr (.inl ⟨rfl, batch, rfl⟩)
  | forget => cases h; cases raised <;> exact .inl rfl
  | answered | returned | dead => cases h
  | _ => cases h; exact .inl rfl

theorem stmt_accepted (h : stmt s raised q = some (s', q')) (hnew : s'.accepted ≠ s.accepted) :
    ∃ batch, q = .append batch := by
  cases q with
  | append batch => exact ⟨batch, rfl⟩
  | pop =>
    rw [stmt] at h
    split at h
    · cases h
    · cases h
      exact absurd rfl hnew
  | forget => cases h; cases raised <;> exact absurd rfl hnew
  | answered | returned | dead => cases h
  | _ => cases h; exact absurd rfl hnew

/-! ### Critical sections as one step

Where nobody else needs the statements of a critical section, `Machine` has it as one. -/

/-- The statements from `q` to the end of the critical section. -/
def through (s : Proxy β) : ℕ → Point β → Option (Proxy β × Point β)
  | 0, q => some (s, q)
  | n + 1, q =>
    if q.holds then (stmt s false q).bind fun (s', q') => through s' n q' else some (s, q)

/-- The proxy as `Machine` has it. -/
def Proxy.whole (workerId address : String) (s : Proxy (List ℕ)) : Machine.Proxy where
  workerId := workerId
  address := address
  queue := s.queue
  stop := s.stop
  retryOnStop := s.retryOnStop
  processing := s.processing
  routing := if s.routing = "READY" then .ready else .draining

section
variable {s : Proxy (List ℕ)} (workerId address : String)

/-- `try_submit` -/
theorem through_try_submit (batch : List ℕ) : ∃ s' q', through s 4 (.running batch) = some (s', q') ∧
    q'.holds = false ∧ s'.whole workerId address =
      if (s.whole workerId address).accepts = true
      then { s.whole workerId address with queue := s.queue ++ [batch] }
      else s.whole workerId address := by
  have haccepts : (s.whole workerId address).accepts = true ↔
      (s.stop = false ∧ s.routing = "READY") ∧ s.processing.toNat + s.queue.length < 2 := by
    by_cases hready : s.routing = "READY" <;>
      simp [Machine.Proxy.accepts, Proxy.whole, hready]
  by_cases hopen : s.stop = true ∨ s.routing ≠ "READY"
  · refine ⟨s, .answered false, by simp [through, stmt, Point.holds, hopen], rfl, ?_⟩
    rw [if_neg]
    rw [haccepts]
    rintro ⟨⟨hstop, hready⟩, -⟩
    rcases hopen with h | h
    · rw [hstop] at h
      cases h
    · exact h hready
  · by_cases hroom : 2 ≤ s.processing.toNat + s.queue.length
    · refine ⟨s, .answered false, by simp [through, stmt, Point.holds, hopen, hroom], rfl, ?_⟩
      rw [if_neg]
      rw [haccepts]
      rintro ⟨-, hlt⟩
      omega
    · refine ⟨{ s with queue := s.queue ++ [batch], accepted := s.accepted ++ [batch],
                         gauge := (s.queue ++ [batch]).length }, .notify, ?_, rfl, ?_⟩
      · simp [through, stmt, Point.holds, hopen, hroom]
      · rw [not_or, not_not, Bool.not_eq_true] at hopen
        rw [if_pos (haccepts.mpr ⟨hopen, by omega⟩)]
        rfl

/-- `begin_stop` -/
theorem through_test (retryPending stops : Bool) : ∃ s' q',
    through s 3 (.test retryPending stops) = some (s', q') ∧ q'.holds = false ∧
      s'.whole workerId address = (s.whole workerId address).beginStop retryPending := by
  cases hstop : s.stop with
  | true =>
    refine ⟨s, .signal stops, by simp [through, stmt, Point.holds, hstop], rfl, ?_⟩
    simp [Machine.Proxy.beginStop, Proxy.whole, hstop]
  | false =>
    refine ⟨{ s with retryOnStop := retryPending, stop := true, first := some retryPending },
      .signal stops, ?_, rfl, ?_⟩
    · simp [through, stmt, Point.holds, hstop]
    · simp [Machine.Proxy.beginStop, Proxy.whole, hstop]

/-- The queue that `stop` takes. -/
theorem through_take : ∃ s' q', through s 3 .take = some (s', q') ∧ q'.holds = false ∧
    s'.whole workerId address = { s.whole workerId address with queue := [] } :=
  ⟨_, _, rfl, rfl, rfl⟩

/-- The batch that the dispatch thread takes. -/
theorem through_look (hstop : s.stop = false) {batch : List ℕ} {rest : List (List ℕ)}
    (hqueue : s.queue = batch :: rest) : ∃ s', through s 4 .look = some (s', .process batch) ∧
    s'.whole workerId address =
      { s.whole workerId address with queue := rest, processing := true } := by
  refine ⟨{ s with queue := rest, removed := s.removed ++ [(batch, .loop)],
                    gauge := rest.length, processing := true }, ?_, ?_⟩
  · simp [through, stmt, Point.holds, hstop, hqueue]
  · simp [Proxy.whole, hstop]

end

/-! ### Runs -/

namespace Sys

structure Inv (s : Sys β) : Prop where
  monitor : Monitor Point.holds Good At s.threads s.locked s.proxy
  past : ∀ q : Point β, q ∈ s.threads → q.past = true → s.proxy.stop = true
  loop : ∃ q : Point β, s.threads[0]? = some q ∧ q.ofLoop = true ∧ q.inHand = s.proxy.processing
  calls : ∀ (i : ℕ) (q : Point β), s.threads[i + 1]? = some q → q.ofLoop = false

theorem inv_start : (start : Sys β).Inv where
  monitor := by
    have hnil : Monitor Point.holds Good At ([] : List (Point β)) false (start : Sys β).proxy :=
      .nil good_start
    exact hnil.join rfl
  past q hq := by
    rw [List.mem_singleton.mp hq]
    nofun
  loop := ⟨.top, rfl, rfl, rfl⟩
  calls i q hq := by
    rw [start, List.getElem?_cons_succ, List.getElem?_nil] at hq
    cases hq

/-- A step of a thread. -/
theorem run_cases {s t : Sys β} {i : ℕ} {raised : Bool} (h : s.step (.run i raised) = some t) :
    ∃ q q' proxy, s.threads[i]? = some q ∧ (q.enters = true → s.locked = false) ∧
      stmt s.proxy raised q = some (proxy, q') ∧
      t = { proxy, locked := if q.holds || q'.holds then q'.holds else s.locked,
            hasWork := wakes s.hasWork q, threads := s.threads.set i q' } := by
  obtain ⟨q, hq, h⟩ := Option.bind_eq_some_iff.mp h
  split at h
  · cases h
  next hfree =>
    obtain ⟨⟨proxy, q'⟩, hstmt, rfl⟩ := Option.map_eq_some_iff.mp h
    refine ⟨q, q', proxy, hq, fun henters => ?_, hstmt, rfl⟩
    simpa [henters] using hfree

/-- Every statement is a move of the monitor. -/
theorem Inv.move {s : Sys β} (hs : s.Inv) {i : ℕ} {q q' : Point β} {raised : Bool} {proxy : Proxy β}
    (hq : s.threads[i]? = some q) (hfree : q.enters = true → s.locked = false)
    (h : stmt s.proxy raised q = some (proxy, q')) :
    Move Point.holds Good At q q' s.locked (if q.holds || q'.holds then q'.holds else s.locked)
      s.proxy proxy := by
  have hmem := List.mem_of_getElem? hq
  have hpast := hs.past q hmem
  cases hholds : q.holds with
  | true =>
    have hlocked : s.locked = true := hs.monitor.lock.busy.mpr ⟨q, hmem, hholds⟩
    cases hholds' : q'.holds with
    | true =>
      refine .inside hholds hholds' hlocked.symm fun hat => ?_
      have hnext := stmt_inside hholds hpast hat h
      rwa [if_pos hholds'] at hnext
    | false =>
      refine .leave hholds hholds' rfl fun hat => ?_
      have hnext := stmt_inside hholds hpast hat h
      rwa [if_neg (by rw [hholds']; nofun)] at hnext
  | false =>
    have henters := stmt_enters hholds h
    cases hholds' : q'.holds with
    | true =>
      rw [hholds'] at henters
      exact .enter (hfree henters.symm) rfl hholds' fun hgood => stmt_enter henters.symm hpast hgood h
    | false =>
      obtain rfl := stmt_outside hholds h
      exact .outside hholds hholds' rfl id fun _ => id

theorem Inv.step {s t : Sys β} {e : Event β} (hs : s.Inv) (h : s.step e = some t) : t.Inv := by
  cases e with
  | call c =>
    obtain rfl := Option.some.inj h
    have hstart : c.start.holds = false ∧ c.start.past = false ∧ c.start.ofLoop = false := by
      cases c <;> exact ⟨rfl, rfl, rfl⟩
    obtain ⟨q₀, h₀, hloop, hhand⟩ := hs.loop
    have hlt := (List.getElem?_eq_some_iff.mp h₀).1
    refine ⟨hs.monitor.join hstart.1, fun q hq hpast => ?_, ⟨q₀, ?_, hloop, hhand⟩, fun i q hq => ?_⟩
    · rcases List.mem_append.mp hq with hq | hq
      · exact hs.past q hq hpast
      · rw [List.mem_singleton.mp hq, hstart.2.1] at hpast
        cases hpast
    · show (s.threads ++ [c.start])[0]? = some q₀
      rw [List.getElem?_append_left hlt, h₀]
    · have hq : (s.threads ++ [c.start])[i + 1]? = some q := hq
      rcases Nat.lt_or_ge (i + 1) s.threads.length with hi | hi
      · rw [List.getElem?_append_left hi] at hq
        exact hs.calls i q hq
      · rw [List.getElem?_append_right hi, List.getElem?_singleton] at hq
        split at hq
        · rw [← Option.some.inj hq]
          exact hstart.2.2
        · cases hq
  | run i raised =>
    obtain ⟨q, q', proxy, hq, hfree, hstmt, rfl⟩ := run_cases h
    have hmem := List.mem_of_getElem? hq
    obtain ⟨hkeep, hpast'⟩ := stmt_stop (hs.past q hmem) hstmt
    obtain ⟨hkind, hother, hhand'⟩ := stmt_processing hstmt
    obtain ⟨q₀, h₀, hloop, hhand⟩ := hs.loop
    refine ⟨hs.monitor.move hq (hs.move hq hfree hstmt), fun r hr hpast => ?_, ?_, fun j r hr => ?_⟩
    · rcases Monitor.mem_set_cases hq hr with rfl | ⟨j, -, hj⟩
      · exact hpast' hpast
      · exact hkeep (hs.past r (List.mem_of_getElem? hj) hpast)
    · cases i with
      | zero =>
        obtain rfl : q = q₀ := Option.some.inj (hq.symm.trans h₀)
        refine ⟨q', ?_, hkind.trans hloop, hhand' hhand hloop⟩
        exact List.getElem?_set_self (List.getElem?_eq_some_iff.mp hq).1
      | succ i =>
        refine ⟨q₀, ?_, hloop, ?_⟩
        · show (s.threads.set (i + 1) q')[0]? = some q₀
          rw [List.getElem?_set_ne (Nat.succ_ne_zero i), h₀]
        · show q₀.inHand = proxy.processing
          rw [hother (hs.calls i q hq), hhand]
    · rcases Exclusive.get_set hq hr with ⟨rfl, rfl⟩ | ⟨-, hr⟩
      · exact hkind.trans (hs.calls j q hq)
      · exact hs.calls j r hr

theorem inv_exec {es : List (Event β)} {s : Sys β} (h : exec step start es = some s) : s.Inv :=
  exec_inv (fun _ _ _ hi h => hi.step h) inv_start h

theorem Inv.kept {s : Sys β} (hs : s.Inv) : Kept s.proxy :=
  hs.monitor.always Good.toKept fun _ => At.kept

/-- What a later state keeps of an earlier one. -/
structure Later (s t : Sys β) : Prop where
  first : ∀ r, s.proxy.first = some r → t.proxy.first = some r
  swapped : s.proxy.swapped = true → t.proxy.swapped = true

theorem Inv.later_step {s t : Sys β} {e : Event β} (hs : s.Inv) (h : s.step e = some t) :
    Later s t := by
  cases e with
  | call c =>
    obtain rfl := Option.some.inj h
    exact ⟨fun r hr => hr, id⟩
  | run i raised =>
    obtain ⟨q, q', proxy, hq, -, hstmt, rfl⟩ := run_cases h
    obtain ⟨hfirst, hswapped⟩ := stmt_records hstmt
    refine ⟨fun r hr => ?_, hswapped⟩
    rcases hfirst with hfirst | ⟨r', stops, rfl⟩
    · exact hfirst.trans hr
    · -- the flag was down, so nobody had set it
      obtain ⟨hgood, hstop, -⟩ := hs.monitor.held _ (List.mem_of_getElem? hq) rfl
      have hnone := hgood.first
      rw [hr, hstop] at hnone
      cases hnone

theorem Inv.later_exec {s t : Sys β} {es : List (Event β)} (hs : s.Inv)
    (h : exec Sys.step s es = some t) : Later s t :=
  exec_rel (P := Inv) (R := Later) (fun _ => ⟨fun _ hr => hr, id⟩)
    (fun _ _ _ hab hbc =>
      ⟨fun r hr => hbc.first r (hab.first r hr), fun hw => hbc.swapped (hab.swapped hw)⟩)
    (fun _ _ _ hi h => hi.step h) (fun _ _ _ hi h => hi.later_step h) hs h

/-- A batch is accepted by a proxy that runs and is `READY`. -/
theorem Inv.accepts {s t : Sys β} {e : Event β} (hs : s.Inv) (h : s.step e = some t)
    (hnew : t.proxy.accepted ≠ s.proxy.accepted) :
    s.proxy.stop = false ∧ s.proxy.routing = "READY" := by
  cases e with
  | call c =>
    obtain rfl := Option.some.inj h
    exact absurd rfl hnew
  | run i raised =>
    obtain ⟨q, q', proxy, hq, -, hstmt, rfl⟩ := run_cases h
    obtain ⟨batch, rfl⟩ := stmt_accepted hstmt hnew
    obtain ⟨-, hstop, hready, -⟩ := hs.monitor.held _ (List.mem_of_getElem? hq) rfl
    exact ⟨hstop, hready⟩

/-- The dispatch thread took its batches before a `stop` took any. -/
def InTurn (s : Sys β) : Prop :=
  ∃ byLoop byStop : List β, s.proxy.removed = byLoop.map (·, .loop) ++ byStop.map (·, .stop) ∧
    (s.proxy.stop = false → byStop = [])

theorem Inv.inTurn_step {s t : Sys β} {e : Event β} (hs : s.Inv) (ht : InTurn s)
    (h : s.step e = some t) : InTurn t := by
  cases e with
  | call c =>
    obtain rfl := Option.some.inj h
    exact ht
  | run i raised =>
    obtain ⟨q, q', proxy, hq, -, hstmt, rfl⟩ := run_cases h
    have hmem := List.mem_of_getElem? hq
    have hkeep := (stmt_stop (hs.past q hmem) hstmt).1
    obtain ⟨byLoop, byStop, hremoved, hturn⟩ := ht
    have hup : proxy.stop = false → s.proxy.stop = false := by
      intro hstop
      rw [← Bool.not_eq_true]
      intro hs
      rw [hkeep hs] at hstop
      cases hstop
    rcases stmt_removed hstmt with hsame | ⟨rfl, batch, hpop⟩ | ⟨pending, rfl, hclear⟩
    · exact ⟨byLoop, byStop, hsame.trans hremoved, fun hstop => hturn (hup hstop)⟩
    · have hstop : s.proxy.stop = false := (hs.monitor.held _ hmem rfl).2
      refine ⟨byLoop ++ [batch], [], ?_, fun _ => rfl⟩
      show proxy.removed = _
      rw [hpop, hremoved, hturn hstop]
      simp
    · have hstop : s.proxy.stop = true := (hs.monitor.held _ hmem rfl).2.1
      refine ⟨byLoop, byStop ++ pending, ?_, fun hdown => ?_⟩
      · show proxy.removed = _
        rw [hclear, hremoved, List.map_append, List.append_assoc]
      · rw [hup hdown] at hstop
        cases hstop

theorem inTurn_exec {es : List (Event β)} {s : Sys β} (h : exec step start es = some s) :
    InTurn s := by
  have hall : s.Inv ∧ InTurn s :=
    exec_inv (P := fun s => s.Inv ∧ InTurn s)
      (fun _ _ _ hi h => ⟨hi.1.step h, hi.1.inTurn_step hi.2 h⟩)
      ⟨inv_start, [], [], rfl, fun _ => rfl⟩ h
  exact hall.2

/-- **The queue of a proxy.**  While the lock is free, the queue and the batch in hand are two at
most and the gauge is the length of the queue.  Every accepted batch has left the queue once, in the
order of acceptance, first to the dispatch thread and then to `stop`, or is in it.  A batch is
accepted by a proxy that runs and is `READY`.  Once `stop` has taken the queue it is empty for good,
and the flag for retries is the argument of the first `begin_stop`. -/
theorem queue_invariant {es : List (Event β)} {t : Sys β} (h : exec step start es = some t) :
    (t.locked = false →
      (∀ q, t.threads[0]? = some q →
        t.proxy.queue.length + (if q.inHand = true then 1 else 0) ≤ 2) ∧
      t.proxy.gauge = t.proxy.queue.length) ∧
    t.proxy.accepted = t.proxy.removed.map Prod.fst ++ t.proxy.queue ∧
    (∃ byLoop byStop : List β,
      t.proxy.removed = byLoop.map (·, .loop) ++ byStop.map (·, .stop)) ∧
    (∀ fs e s u, fs ++ [e] <+: es → exec step start fs = some s → s.step e = some u →
      u.proxy.accepted ≠ s.proxy.accepted → s.proxy.stop = false ∧ s.proxy.routing = "READY") ∧
    ∀ fs s, fs <+: es → exec step start fs = some s →
      (s.proxy.swapped = true → t.proxy.queue = []) ∧
      ∀ r, s.proxy.first = some r → t.proxy.first = some r ∧ t.proxy.retryOnStop = r := by
  have hs := inv_exec h
  refine ⟨fun hfree => ⟨fun q hq => ?_, (hs.monitor.free hfree).gauge⟩, hs.kept.log,
    (inTurn_exec h).imp fun _ => Exists.imp fun _ => And.left,
    fun fs e s u _ hfs hstep hnew => (inv_exec hfs).accepts hstep hnew, fun fs s hpre hfs => ?_⟩
  · obtain ⟨q₀, h₀, -, hhand⟩ := hs.loop
    obtain rfl : q = q₀ := Option.some.inj (hq.symm.trans h₀)
    have hbound := hs.kept.bound
    rw [hhand]
    cases hp : t.proxy.processing <;> simp [hp] at hbound ⊢ <;> omega
  · obtain ⟨gs, rfl⟩ := hpre
    obtain ⟨s', hs', hrest⟩ := exec_append.mp h
    obtain rfl : s = s' := Option.some.inj (hfs.symm.trans hs')
    have hlater := (inv_exec hfs).later_exec hrest
    refine ⟨fun hw => (hs.kept.swapped (hlater.swapped hw)).2, fun r hr => ?_⟩
    have hfirst := hlater.first r hr
    exact ⟨hfirst, hs.kept.retry r hfirst⟩

/-- `n` statements of thread `i`. -/
def runs (i n : ℕ) : List (Event ℕ) := List.replicate n (.run i false)

/-- The dispatch thread has batch `1` in hand when `stop` comes and takes batch `2`. -/
def stopped : List (Event ℕ) :=
  [.call (.trySubmit 1)] ++ runs 1 6 ++ runs 0 8 ++ [.call (.trySubmit 2)] ++ runs 2 6 ++
    [.call (.stop true)] ++ runs 3 9

theorem stopped_removed : ∃ t, exec step start stopped = some t ∧ t.proxy.gauge = 0 ∧
    t.proxy.removed = [(1, .loop), (2, .stop)] ∧ t.proxy.accepted = [1, 2] := by
  have hrun : (exec step start stopped).any (fun t => !t.locked && t.proxy.queue == [] &&
      t.proxy.removed == [(1, .loop), (2, .stop)]) = true := by decide +kernel
  obtain ⟨t, ht, hfields⟩ := (Option.any_eq_true _ _).mp hrun
  simp only [Bool.and_eq_true, Bool.not_eq_true', beq_iff_eq] at hfields
  obtain ⟨⟨hfree, hqueue⟩, hremoved⟩ := hfields
  have hall := queue_invariant ht
  refine ⟨t, ht, ?_, hremoved, ?_⟩
  · rw [(hall.1 hfree).2, hqueue]
    rfl
  · rw [hall.2.1, hqueue, hremoved]
    rfl

end Sys

end Inference.Pool.Queue
