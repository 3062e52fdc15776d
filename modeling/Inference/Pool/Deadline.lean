import Inference.Handlers
import Inference.Servicer
import Inference.Pool.Custody

/-!
# Inference.Pool.Deadline — no deadline failure comes early

The pool of `Machine` with the requests that its dispatch threads build, the simulated workers that
answer them and the handlers that wait for the tasks.  A worker has its own clock: it runs with the
API's from an origin of its own, and a request and its answer may be on their way for any time.

* `Served`: a response that a simulated worker can have given by now.
* `Sent`: a budget that was sent ends no earlier than the deadline.
* `Ready`: what holds at each point of `_process`.
* **`never_premature`**: a task fails with `deadline_exceeded` after its own deadline only.
-/

namespace Inference.Pool.Deadline

open Inference.Lib Inference.Pool.Machine
open Inference.Servicer (TaskRequest Readings)

/-- The pool, with a record of what each thread has sent. -/
structure Timed where
  sys : Sys
  /-- the tasks and the requests for them that the thread has built for its batch -/
  sent : Who → List (ℕ × TaskRequest ℤ)
  /-- when the thread last called `ProcessBatch` -/
  calledAt : Who → ℤ
  /-- the handler of each task -/
  handlers : ℕ → Handlers.Pc

/-- `inference_pb2.TaskRequest(…)` and its `remaining_seconds` -/
def request (t : Task) (mono : ℤ) : TaskRequest ℤ where
  taskId := t.taskId
  inputJson := String.ofList (Json.print Json.defaultStyle t.inputData)
  remainingSeconds := t.remainingSeconds mono

/-- `remaining_times` -/
def budgets (l : List (ℕ × TaskRequest ℤ)) : List ℤ := l.filterMap fun p => p.2.remainingSeconds

inductive Event where
  | pool (e : Machine.Event)
  /-- the handler of task `i` takes its next step; the flag is what `is_disconnected` answers -/
  | handler (i : ℕ) (disconnected : Bool)

/-- The requests after the statement at a point of `_process`. -/
def sentNext (tasks : ℕ → Task) (mono : ℤ) (l : List (ℕ × TaskRequest ℤ)) :
    Pc → List (ℕ × TaskRequest ℤ)
  | .marking [] _ => []
  | .building (i :: _) _ _ => l ++ [(i, request (tasks i) mono)]
  | _ => l

/-- The time of the last call after that statement. -/
def calledNext (mono m : ℤ) : Pc → ℤ
  | .call _ => mono
  | _ => m

/-- The same at a point of a thread. -/
def sentAfter (tasks : ℕ → Task) (mono : ℤ) (l : List (ℕ × TaskRequest ℤ)) :
    Point → List (ℕ × TaskRequest ℤ)
  | .process _ pc _ => sentNext tasks mono l pc
  | _ => l

def calledAfter (mono m : ℤ) : Point → ℤ
  | .process _ pc _ => calledNext mono m pc
  | _ => m

namespace Timed

/-- The thread makes its next statement, after which the pool is `s`. -/
def acted (t : Timed) (who : Who) (s : Sys) : Timed :=
  { t with
    sys := s
    sent := Function.update t.sent who
      (sentAfter t.sys.tasks t.sys.mono (t.sent who) (t.sys.points who))
    calledAt := Function.update t.calledAt who
      (calledAfter t.sys.mono (t.calledAt who) (t.sys.points who)) }

def step (cfg : Config) (t : Timed) : Event → Option Timed
  | .pool (.act who o) => (t.sys.step cfg (.act who o)).map (t.acted who)
  | .pool e => (t.sys.step cfg e).map fun s => { t with sys := s }
  | .handler i disconnected =>
    match t.handlers i with
    | .call m after => some
      { t with
        sys := { t.sys with
          tasks := applyCall t.sys.tasks t.sys.mono t.sys.wall (some (i, m)) }
        handlers := Function.update t.handlers i after }
    | pc => (pc.next (t.sys.tasks i) t.sys.mono disconnected).map fun pc' =>
      { t with handlers := Function.update t.handlers i pc' }

end Timed

/-- A response that a simulated worker can have given to the thread's request by now: its gate is
closed, or it has simulated the batch, with readings of its own clock between the call and now. -/
def Served (t : Timed) (who : Who) (results : List TaskResult) : Prop :=
  results = ((t.sent who).map Prod.snd).map Servicer.busy ∨
  ∃ (py : Servicer.Interpreter) (workerId : ℤ) (r : Readings ℤ) (injected : Bool) (wait : ℕ → ℤ)
    (fuel : ℕ) (reply : Servicer.Reply) (origin : ℤ),
    Servicer.simulate py workerId r injected wait fuel ((t.sent who).map Prod.snd) = some reply ∧
    results = reply.results ∧
    ∀ j < reply.readings, t.calledAt who ≤ r.clock j - origin ∧ r.clock j - origin ≤ t.sys.mono

/-- What is assumed of a step.  Responses come from simulated workers; the RPC timeout fires when it
has run out, and `DEADLINE_EXCEEDED` means that it fired; only the proxies and the handlers call
`mark_failed` with `deadline_exceeded`. -/
def Admissible (t : Timed) : Event → Prop
  | .pool (.fail _ _ code) => code ≠ some "deadline_exceeded"
  | .pool (.act who o) => ∀ p batch k, t.sys.points who = .process p (.inflight batch) k →
    match o with
    | .response results => Served t who results
    | .rpcError code _ =>
      code = .deadlineExceeded → t.calledAt who + rpcTimeout (budgets (t.sent who)) ≤ t.sys.mono
    | .raised _ => True
  | _ => True

/-- A fresh pool, and fresh tasks that all carry a deadline. -/
structure Init (t : Timed) : Prop where
  sys : t.sys.Init
  fresh : ∀ i, (t.sys.tasks i).errorCode = none
  deadline : ∀ i, ∃ d, (t.sys.tasks i).deadline = some d
  handlers : ∀ i, t.handlers i = .pLoop

/-! ## What the points know -/

/-- The budgets of the requests, counted from `m`, end at the deadlines or later. -/
def Sent (tasks : ℕ → Task) (m : ℤ) (l : List (ℕ × TaskRequest ℤ)) : Prop :=
  ∀ p ∈ l, p.2.taskId = (tasks p.1).taskId ∧
    ∃ b d, p.2.remainingSeconds = some b ∧ (tasks p.1).deadline = some d ∧ d ≤ m + b

/-- What holds at a point of `_process`, where `l` was sent, at `m`. -/
def Ready (tasks : ℕ → Task) (mono : ℤ) (l : List (ℕ × TaskRequest ℤ)) (m : ℤ) : Pc → Prop
  | .building rest batch times =>
    l.map Prod.fst ++ rest = batch ∧ times = budgets l ∧ Sent tasks mono l
  | .timeout batch times => l.map Prod.fst = batch ∧ times = budgets l ∧ Sent tasks mono l
  | .call batch => l.map Prod.fst = batch ∧ Sent tasks mono l
  | .inflight batch => l.map Prod.fst = batch ∧ Sent tasks m l
  | .rpcError code _ batch =>
    code = .deadlineExceeded → ∀ i ∈ batch, (tasks i).isExpired mono = true
  | .expireAll rest => ∀ i ∈ rest, (tasks i).isExpired mono = true
  | .reconcile results batch => ∀ r ∈ results, r.errorCode = "deadline_exceeded" →
    ∀ i, taskMap tasks batch r.taskId = some i → (tasks i).isExpired mono = true
  | .finishFail i _ code _ _ _ =>
    code = some "deadline_exceeded" → (tasks i).isExpired mono = true
  | _ => True

/-- The same at a point of a thread. -/
def PointReady (tasks : ℕ → Task) (mono : ℤ) (l : List (ℕ × TaskRequest ℤ)) (m : ℤ) : Point → Prop
  | .process _ pc _ => Ready tasks mono l m pc
  | _ => True

/-- A task that has failed for its deadline is late. -/
def Honest (tasks : ℕ → Task) (mono : ℤ) : Prop :=
  ∀ i, (tasks i).errorCode = some "deadline_exceeded" → (tasks i).isExpired mono = true

section Facts

variable {tasks tasks' : ℕ → Task} {mono mono' m : ℤ} {l : List (ℕ × TaskRequest ℤ)}

theorem taskMap_evolves (hev : ∀ i, Task.Evolves (tasks i) (tasks' i)) (batch : List ℕ)
    (id : String) : taskMap tasks' batch id = taskMap tasks batch id := by
  unfold taskMap
  congr 1
  funext i
  rw [(hev i).taskId]

theorem isExpired_evolves {i : ℕ} (hev : ∀ i, Task.Evolves (tasks i) (tasks' i))
    (hle : mono ≤ mono') (h : (tasks i).isExpired mono = true) :
    (tasks' i).isExpired mono' = true :=
  Handlers.isExpired_mono (hev i).deadline hle h

theorem Sent.evolves (h : Sent tasks m l) (hev : ∀ i, Task.Evolves (tasks i) (tasks' i)) :
    Sent tasks' m l := by
  intro p hp
  obtain ⟨hid, b, d, hb, hd, hle⟩ := h p hp
  exact ⟨hid.trans (hev p.1).taskId.symm, b, d, hb, (hev p.1).deadline.trans hd, hle⟩

theorem Sent.later (h : Sent tasks mono l) (hle : mono ≤ mono') : Sent tasks mono' l := by
  intro p hp
  obtain ⟨hid, b, d, hb, hd, hdb⟩ := h p hp
  exact ⟨hid, b, d, hb, hd, by omega⟩

/-- **Stability.**  What a point knows survives the other threads and the time. -/
theorem Ready.stable {pc : Pc} (h : Ready tasks mono l m pc)
    (hev : ∀ i, Task.Evolves (tasks i) (tasks' i)) (hle : mono ≤ mono') :
    Ready tasks' mono' l m pc := by
  cases pc with
  | building rest batch times => exact ⟨h.1, h.2.1, (h.2.2.evolves hev).later hle⟩
  | timeout batch times => exact ⟨h.1, h.2.1, (h.2.2.evolves hev).later hle⟩
  | call batch => exact ⟨h.1, (h.2.evolves hev).later hle⟩
  | inflight batch => exact ⟨h.1, h.2.evolves hev⟩
  | rpcError code text batch => exact fun hc i hi => isExpired_evolves hev hle (h hc i hi)
  | expireAll rest => exact fun i hi => isExpired_evolves hev hle (h i hi)
  | reconcile results batch =>
    intro r hr hcode i hi
    rw [taskMap_evolves hev] at hi
    exact isExpired_evolves hev hle (h r hr hcode i hi)
  | finishFail i error code rest text allow => exact fun hc => isExpired_evolves hev hle (h hc)
  | _ => trivial

theorem PointReady.stable {pt : Point} (h : PointReady tasks mono l m pt)
    (hev : ∀ i, Task.Evolves (tasks i) (tasks' i)) (hle : mono ≤ mono') :
    PointReady tasks' mono' l m pt := by
  cases pt with
  | process p pc k => exact Ready.stable h hev hle
  | _ => trivial

/-! ### What a response and a timeout say -/

/-- A budget that has run out since it was sent. -/
theorem isExpired_of_budget {i : ℕ} {b d : ℤ} (hd : (tasks i).deadline = some d) (hle : d ≤ m + b)
    (hnow : m + b ≤ mono) : (tasks i).isExpired mono = true :=
  Task.isExpired_iff.mpr ⟨d, hd, hle.trans hnow⟩

/-- Two searches that find the same. -/
theorem find?_congr_mem {α : Type} {p q : α → Bool} {l : List α} (h : ∀ a ∈ l, p a = q a) :
    l.find? p = l.find? q := by
  induction l with
  | nil => rfl
  | cons a l ih =>
    rw [List.find?_cons, List.find?_cons, h a List.mem_cons_self,
      ih fun b hb => h b (List.mem_cons_of_mem _ hb)]

/-- The last request with an ID is that of the task that the proxy finds under it. -/
theorem Sent.taskMap (h : Sent tasks m l) (id : String) :
    taskMap tasks (l.map Prod.fst) id =
      (l.reverse.find? fun p => decide (p.2.taskId = id)).map Prod.fst := by
  rw [Pool.taskMap, ← List.map_reverse, List.find?_map]
  congr 1
  refine find?_congr_mem fun p hp => ?_
  have hid := (h p (List.mem_reverse.mp hp)).1
  rw [Function.comp_apply, ← hid]
  rfl

theorem served_ready {t : Timed} {who : Who} {batch : List ℕ} {results : List TaskResult}
    (hr : Ready t.sys.tasks t.sys.mono (t.sent who) (t.calledAt who) (.inflight batch))
    (hs : Served t who results) :
    Ready t.sys.tasks t.sys.mono (t.sent who) (t.calledAt who) (.reconcile results batch) := by
  obtain ⟨hbatch, hsent⟩ := hr
  intro res hres hcode i hi
  rcases hs with rfl | ⟨py, workerId, r, injected, wait, fuel, reply, origin, hrun, rfl, hclock⟩
  · obtain ⟨q, -, rfl⟩ := List.mem_map.mp hres
    simp [Servicer.busy] at hcode
  · obtain ⟨hanswers, -⟩ := Servicer.simulate_answers hrun
    cases hanswers.accounted res hres with
    | injected q hq => simp [Servicer.injectedFailure] at hcode
    | computed q hq e j hend hj hin =>
      unfold Servicer.computed at hcode
      split at hcode <;> simp at hcode
    | timedOut q hq j deadline hdeadline hj hpassed =>
      rw [Servicer.deadlineOf, Servicer.get?_deadlines, ← List.map_reverse, List.find?_map]
        at hdeadline
      rw [← hbatch, hsent.taskMap] at hi
      obtain ⟨p, hp, rfl⟩ := Option.map_eq_some_iff.mp hi
      have hp' : ((t.sent who).reverse.find?
          ((fun u : TaskRequest ℤ => decide (u.taskId = q.taskId)) ∘ Prod.snd)) = some p := hp
      obtain ⟨-, b, d, hb, hd, hle⟩ := hsent p (List.mem_reverse.mp (List.mem_of_find?_eq_some hp))
      rw [hp', Option.map_some, Option.map_some, hb] at hdeadline
      obtain rfl : r.clock 0 + b = deadline := Option.some.inj hdeadline
      have hfirst := hclock 0 (by omega)
      have hlast := hclock j hj
      exact isExpired_of_budget hd hle (by omega)

theorem le_rpcTimeout {times : List ℤ} {b : ℤ} (hb : b ∈ times) : b ≤ rpcTimeout times := by
  obtain ⟨m, hm⟩ := Option.isSome_iff_exists.mp (List.isSome_max?_of_mem hb)
  rw [rpcTimeout, hm, Option.getD_some]
  exact (List.max?_eq_some_iff.mp hm).2 b hb

/-- Every task of the batch ends before the timeout of its call. -/
theorem Sent.expired (h : Sent tasks m l) (hnow : m + rpcTimeout (budgets l) ≤ mono) :
    ∀ i ∈ l.map Prod.fst, (tasks i).isExpired mono = true := by
  intro i hi
  obtain ⟨p, hp, rfl⟩ := List.mem_map.mp hi
  obtain ⟨-, b, d, hb, hd, hle⟩ := h p hp
  have hmax : b ≤ rpcTimeout (budgets l) := le_rpcTimeout (List.mem_filterMap.mpr ⟨p, hp, hb⟩)
  exact isExpired_of_budget hd hle (by omega)

/-! ### One statement -/

/-- What `mark_failed` may be called with. -/
def CallHonest (tasks : ℕ → Task) (mono : ℤ) (c : Option (ℕ × Task.Method)) : Prop :=
  ∀ i e, c = some (i, .markFailed e (some "deadline_exceeded")) → (tasks i).isExpired mono = true

theorem orNone_eq_some {s c : String} (h : orNone s = some c) : s = c := by
  unfold orNone at h
  split at h
  · cases h
  · exact Option.some.inj h

theorem ready_moves {loads : String → Except Exc Json} {v : View} {io : Io} {pc pc' : Pc}
    {c : Option (ℕ × Task.Method)} (h : Moves loads v io pc c pc')
    (hd : ∀ i, ∃ d, (v.tasks i).deadline = some d) (hr : Ready v.tasks v.mono l m pc)
    (hresponse : ∀ batch results, pc = .inflight batch → io.outcome = .response results →
      Ready v.tasks v.mono l m (.reconcile results batch))
    (herror : ∀ batch code text, pc = .inflight batch → io.outcome = .rpcError code text →
      Ready v.tasks v.mono l m (.rpcError code text batch)) :
    CallHonest v.tasks v.mono c ∧
      Ready v.tasks v.mono (sentNext v.tasks v.mono l pc) (calledNext v.mono m pc) pc' := by
  cases h with
  | filterLate rest acc hlate =>
    refine ⟨fun i e he => ?_, trivial⟩
    obtain ⟨rfl, -⟩ := Prod.mk.inj (Option.some.inj he)
    exact hlate
  | markNil batch => exact ⟨nofun, rfl, rfl, nofun⟩
  | buildNil batch times =>
    refine ⟨nofun, ?_, hr.2.1, hr.2.2⟩
    simpa [sentNext] using hr.1
  | build i rest batch times =>
    obtain ⟨hbatch, rfl, hsent⟩ := hr
    obtain ⟨d, hdeadline⟩ := hd i
    have hbudget : (v.tasks i).remainingSeconds v.mono = some (max 0 (d - v.mono)) := by
      rw [Task.remainingSeconds, hdeadline]
      rfl
    refine ⟨nofun, ?_, ?_, ?_⟩
    · simpa [sentNext] using hbatch
    · simp [sentNext, budgets, request, hbudget]
    · intro p hp
      rcases List.mem_append.mp hp with hp | hp
      · exact hsent p hp
      · obtain rfl := List.mem_singleton.mp hp
        exact ⟨rfl, _, d, hbudget, hdeadline, by omega⟩
  | timeoutLate batch hle =>
    obtain ⟨rfl, rfl, hsent⟩ := hr
    exact ⟨nofun, hsent.expired (by omega)⟩
  | timeoutLive batch hpos => exact ⟨nofun, hr.1, hr.2.2⟩
  | expire i rest =>
    refine ⟨fun k e he => ?_, fun k hk => hr k (List.mem_cons_of_mem _ hk)⟩
    obtain ⟨rfl, -⟩ := Prod.mk.inj (Option.some.inj he)
    exact hr _ List.mem_cons_self
  | call batch => exact ⟨nofun, hr⟩
  | response batch ho => exact ⟨nofun, hresponse batch _ rfl ho⟩
  | rpcError batch ho => exact ⟨nofun, herror batch _ _ rfl ho⟩
  | unknown rs hm => exact ⟨nofun, fun r hmem => hr r (List.mem_cons_of_mem _ hmem)⟩
  | decoded rs hm hs hl => exact ⟨nofun, fun r hmem => hr r (List.mem_cons_of_mem _ hmem)⟩
  | unsuccessful rs hm hs =>
    refine ⟨fun k e he => ?_, fun r hmem => hr r (List.mem_cons_of_mem _ hmem)⟩
    obtain ⟨rfl, hmethod⟩ := Prod.mk.inj (Option.some.inj he)
    obtain ⟨-, hcode⟩ := Task.Method.markFailed.inj hmethod
    exact hr _ List.mem_cons_self (orNone_eq_some hcode) _ hm
  | rpcDeadline text batch => exact ⟨nofun, hr rfl⟩
  | late allowed rest text allow hlate => exact ⟨nofun, fun _ => hlate⟩
  | fail i error code rest text allow =>
    refine ⟨fun k e he => ?_, trivial⟩
    obtain ⟨rfl, hmethod⟩ := Prod.mk.inj (Option.some.inj he)
    exact hr (Task.Method.markFailed.inj hmethod).2
  | kept | noRetry | refused => exact ⟨nofun, nofun⟩
  | _ => exact ⟨by simp [CallHonest], trivial⟩

theorem errorCode_call {t : Task} {method : Task.Method} {wall : ℤ}
    (h : (t.call method mono wall).errorCode = some "deadline_exceeded") :
    t.errorCode = some "deadline_exceeded" ∨
      ∃ e, method = .markFailed e (some "deadline_exceeded") := by
  cases method with
  | markFailed e code =>
    simp only [Task.call, Task.Method.body] at h
    split at h
    · exact .inl h
    · obtain rfl : code = some "deadline_exceeded" := h
      exact .inr ⟨e, rfl⟩
  | markProcessing =>
    simp only [Task.call, Task.Method.body] at h
    split at h
    · exact .inl h
    · split at h <;> exact .inl h
  | markDone r =>
    simp only [Task.call, Task.Method.body] at h
    split at h <;> exact .inl h
  | tryReserveRetry =>
    simp only [Task.call, Task.Method.body] at h
    split at h
    · exact .inl h
    · split at h <;> exact .inl h

theorem Honest.call (h : Honest tasks mono) {c : Option (ℕ × Task.Method)}
    (hc : CallHonest tasks mono c) (wall : ℤ) : Honest (applyCall tasks mono wall c) mono := by
  have hev := applyCall_evolves tasks mono wall c
  intro i hi
  refine isExpired_evolves hev (le_refl _) ?_
  cases c with
  | none => exact h i hi
  | some p =>
    obtain ⟨k, method⟩ := p
    by_cases hik : i = k
    · subst hik
      simp only [applyCall, Function.update_self] at hi
      rcases errorCode_call hi with hi | ⟨e, rfl⟩
      · exact h i hi
      · exact hc i e rfl
    · simp only [applyCall, Function.update_of_ne hik] at hi
      exact h i hi

theorem Honest.later (h : Honest tasks mono) (hle : mono ≤ mono') : Honest tasks mono' :=
  fun i hi => isExpired_evolves (fun _ => .refl _) hle (h i hi)

end Facts

/-! ## The whole system -/

/-- What a handler is about to do. -/
def HandlerReady (tasks : ℕ → Task) (mono : ℤ) (i : ℕ) : Handlers.Pc → Prop
  | .call m after => CallHonest tasks mono (some (i, m)) ∧ ∀ m' after', after ≠ .call m' after'
  | _ => True

structure Inv (t : Timed) : Prop where
  deadline : ∀ i, ∃ d, (t.sys.tasks i).deadline = some d
  honest : Honest t.sys.tasks t.sys.mono
  ready : ∀ who, PointReady t.sys.tasks t.sys.mono (t.sent who) (t.calledAt who) (t.sys.points who)
  handlers : ∀ i, HandlerReady t.sys.tasks t.sys.mono i (t.handlers i)

theorem Init.inv {t : Timed} (h : Init t) : Inv t where
  deadline := h.deadline
  honest i hi := by
    rw [h.fresh i] at hi
    cases hi
  ready who := by
    rw [h.sys.points who]
    trivial
  handlers i := by
    rw [h.handlers i]
    trivial

section Step

variable {cfg : Config} {t : Timed} {s : Sys}

theorem HandlerReady.stable {tasks tasks' : ℕ → Task} {mono mono' : ℤ} {i : ℕ} {pc : Handlers.Pc}
    (h : HandlerReady tasks mono i pc) (hev : ∀ i, Task.Evolves (tasks i) (tasks' i))
    (hle : mono ≤ mono') : HandlerReady tasks' mono' i pc := by
  cases pc with
  | call m after => exact ⟨fun k e he => isExpired_evolves hev hle (h.1 k e he), h.2⟩
  | _ => trivial

/-- A handler that goes on to call `mark_failed` for the deadline has just seen it pass. -/
theorem handlerReady_next {tasks : ℕ → Task} {mono : ℤ} {i : ℕ} {d : Bool}
    {pc pc' : Handlers.Pc} (h : pc.next (tasks i) mono d = some pc') :
    HandlerReady tasks mono i pc' := by
  have hcall : ∀ e, (tasks i).isExpired mono = true →
      CallHonest tasks mono (some (i, .markFailed e (some "deadline_exceeded"))) := by
    intro e hlate k e' he
    obtain ⟨rfl, -⟩ := Prod.mk.inj (Option.some.inj he)
    exact hlate
  -- three points have a call of `mark_failed` behind them
  cases pc with
  | pAfter =>
    obtain rfl := Option.some.inj h
    split
    next hlate => exact ⟨hcall _ hlate, nofun⟩
    next => trivial
  | tExpired =>
    obtain rfl := Option.some.inj h
    split
    next hlate => exact ⟨hcall _ hlate, nofun⟩
    next => trivial
  | tDisconnected =>
    obtain rfl := Option.some.inj h
    split
    · exact ⟨by simp [CallHonest], nofun⟩
    · trivial
  | call | inside | answered => cases h
  | _ =>
    obtain rfl := Option.some.inj h
    first | trivial | (split <;> trivial)

/-- Everything but the statement of one thread. -/
theorem Inv.stable (h : Inv t) (hev : ∀ i, Task.Evolves (t.sys.tasks i) (s.tasks i))
    (hle : t.sys.mono ≤ s.mono) (hhonest : Honest s.tasks s.mono)
    (hpoints : ∀ who, s.points who = t.sys.points who ∨
      ∀ m l, PointReady s.tasks s.mono l m (s.points who)) : Inv { t with sys := s } where
  deadline i := by
    obtain ⟨d, hd⟩ := h.deadline i
    exact ⟨d, (hev i).deadline.trans hd⟩
  honest := hhonest
  ready who := by
    rcases hpoints who with hp | hp
    · show PointReady s.tasks s.mono _ _ (s.points who)
      rw [hp]
      exact (h.ready who).stable hev hle
    · exact hp _ _
  handlers i := (h.handlers i).stable hev hle

/-- What a statement calls, and what its thread knows behind it. -/
theorem stmt_ready {s : Sys} {o : Outcome} {pt pt' : Point} {eff : Effect}
    {l : List (ℕ × TaskRequest ℤ)} {m : ℤ} (hst : Stmt cfg s o pt eff pt')
    (hd : ∀ i, ∃ d, (s.tasks i).deadline = some d) (hr : PointReady s.tasks s.mono l m pt)
    (hresponse : ∀ p batch k results, pt = .process p (.inflight batch) k → o = .response results →
      Ready s.tasks s.mono l m (.reconcile results batch))
    (herror : ∀ p batch k code text, pt = .process p (.inflight batch) k → o = .rpcError code text →
      Ready s.tasks s.mono l m (.rpcError code text batch)) :
    (∀ c, eff = .call c → CallHonest s.tasks s.mono c) ∧
      PointReady s.tasks s.mono (sentAfter s.tasks s.mono l pt) (calledAfter s.mono m pt) pt' := by
  cases hst with
  | @moves p pc pc' c k hh hc hm =>
    obtain ⟨hcall, hready⟩ := ready_moves hm hd hr
      (fun batch results hpc ho => hresponse p batch k results (by rw [hpc]) ho)
      (fun batch code text hpc ho => herror p batch k code text (by rw [hpc]) ho)
    refine ⟨fun c' heq => ?_, hready⟩
    obtain rfl := Effect.call.inj heq
    exact hcall
  | invoke p batch k => exact ⟨nofun, hr⟩
  | returned p k =>
    refine ⟨by simp [CallHonest], ?_⟩
    cases k <;> trivial
  | handlerStopping hstop => exact ⟨by simp [CallHonest], nofun⟩
  | noCandidates f => exact ⟨nofun, nofun⟩
  | noReserve f candidates => exact ⟨by simp [CallHonest], nofun⟩
  | noOffer f => exact ⟨by simp [CallHonest], nofun⟩
  | _ => exact ⟨by simp [CallHonest], trivial⟩

theorem apply_mono (cfg : Config) (s : Sys) (who : Who) (eff : Effect) :
    (s.apply cfg who eff).mono = s.mono := by
  cases eff <;> rfl

theorem apply_honest {s : Sys} {who : Who} {eff : Effect} (h : Honest s.tasks s.mono)
    (hc : ∀ c, eff = .call c → CallHonest s.tasks s.mono c) :
    Honest (s.apply cfg who eff).tasks s.mono := by
  cases eff with
  | call c => exact h.call (hc c rfl) s.wall
  | reserve i => exact h.call (c := some (i, .tryReserveRetry)) (by simp [CallHonest]) s.wall
  | _ => exact h

/-- A statement of a thread. -/
theorem Inv.act (h : Inv t) {who : Who} {o : Outcome} (hadm : Admissible t (.pool (.act who o)))
    (hs : t.sys.step cfg (.act who o) = some s) : Inv (t.acted who s) := by
  obtain ⟨eff, pt', hst, rfl⟩ := step_act hs rfl
  have hready := h.ready who
  have hresponse : ∀ p batch k results, t.sys.points who = .process p (.inflight batch) k →
      o = .response results → Ready t.sys.tasks t.sys.mono (t.sent who) (t.calledAt who)
        (.reconcile results batch) := by
    rintro p batch k results hpt rfl
    rw [hpt] at hready
    exact served_ready hready (hadm p batch k hpt)
  have herror : ∀ p batch k code text, t.sys.points who = .process p (.inflight batch) k →
      o = .rpcError code text → Ready t.sys.tasks t.sys.mono (t.sent who) (t.calledAt who)
        (.rpcError code text batch) := by
    rintro p batch k code text hpt rfl hcode i hi
    rw [hpt] at hready
    exact hready.2.expired (hadm p batch k hpt hcode) i (hready.1 ▸ hi)
  obtain ⟨hcall, hpoint⟩ := stmt_ready hst h.deadline hready hresponse herror
  have hev := apply_evolves cfg t.sys who eff
  have hle : t.sys.mono ≤ (t.sys.apply cfg who eff).mono := (apply_mono cfg t.sys who eff).ge
  have hhonest : Honest (t.sys.apply cfg who eff).tasks (t.sys.apply cfg who eff).mono := by
    rw [apply_mono]
    exact apply_honest h.honest hcall
  refine ⟨fun i => ?_, hhonest, fun who' => ?_, fun i => (h.handlers i).stable hev hle⟩
  · obtain ⟨d, hd⟩ := h.deadline i
    exact ⟨d, (hev i).deadline.trans hd⟩
  · by_cases hw : who' = who
    · subst hw
      simp only [Timed.acted, Function.update_self, Sys.goto]
      exact hpoint.stable hev hle
    · simp only [Timed.acted, Function.update_of_ne hw, Sys.goto]
      rcases apply_points cfg t.sys who eff who' with hsame | ⟨-, htop⟩
      · rw [hsame]
        exact (h.ready who').stable hev hle
      · rw [htop]
        trivial

/-- A thread that starts. -/
theorem goto_points (s : Sys) (who : Who) (pt : Point)
    (hpt : ∀ m l, PointReady s.tasks s.mono l m pt) (who' : Who) :
    (s.goto who pt).points who' = s.points who' ∨
      ∀ m l, PointReady s.tasks s.mono l m ((s.goto who pt).points who') := by
  by_cases hw : who' = who
  · subst hw
    refine .inr fun m l => ?_
    simp only [Sys.goto, Function.update_self]
    exact hpt m l
  · exact .inl (by simp [Sys.goto, hw])

/-- Everything else that happens to the pool. -/
theorem Inv.pool (h : Inv t) {e : Machine.Event} (hact : ∀ who o, e ≠ .act who o)
    (hadm : Admissible t (.pool e)) (hs : t.sys.step cfg e = some s) : Inv { t with sys := s } := by
  cases step_cases hs with
  | @act who o => exact absurd rfl (hact who o)
  | tick d =>
    have hle : t.sys.mono ≤ t.sys.mono + d := by omega
    exact h.stable (fun _ => .refl _) hle (h.honest.later hle) fun _ => .inl rfl
  | fail i error code =>
    have hcall : CallHonest t.sys.tasks t.sys.mono (some (i, .markFailed error code)) := by
      intro k e he
      obtain ⟨-, hm⟩ := Prod.mk.inj (Option.some.inj he)
      exact absurd (Task.Method.markFailed.inj hm).2 hadm
    exact h.stable
      (applyCall_evolves t.sys.tasks t.sys.mono t.sys.wall (some (i, .markFailed error code)))
      (le_refl _) (h.honest.call hcall t.sys.wall) fun _ => .inl rfl
  | route => exact h.stable (fun _ => .refl _) (le_refl _) h.honest fun _ => .inl rfl
  | @submit n batch =>
    exact h.stable (fun _ => .refl _) (le_refl _) h.honest
      (goto_points t.sys (.thread n) (.grouping batch []) fun _ _ => trivial)
  | @update n snapshot =>
    exact h.stable (fun _ => .refl _) (le_refl _) h.honest
      (goto_points t.sys (.thread n) (.update snapshot) fun _ _ => trivial)
  | @stop n =>
    exact h.stable (fun _ => .refl _) (le_refl _) h.honest
      (goto_points t.sys (.thread n) .stop fun _ _ => trivial)

/-- A step of a handler. -/
theorem Inv.handler (h : Inv t) {t' : Timed} {i : ℕ} {d : Bool}
    (hs : t.step cfg (.handler i d) = some t') : Inv t' := by
  have hnext : ∀ pc : Handlers.Pc, (pc.next (t.sys.tasks i) t.sys.mono d).map (fun pc' =>
      { t with handlers := Function.update t.handlers i pc' }) = some t' → Inv t' := by
    intro pc hs
    obtain ⟨pc', hpc', rfl⟩ := Option.map_eq_some_iff.mp hs
    refine ⟨h.deadline, h.honest, h.ready, fun k => ?_⟩
    by_cases hk : k = i
    · subst hk
      simp only [Function.update_self]
      exact handlerReady_next hpc'
    · simp only [Function.update_of_ne hk]
      exact h.handlers k
  cases hpc : t.handlers i with
  | call m after =>
    simp only [Timed.step, hpc, Option.some.injEq] at hs
    subst hs
    have hready := h.handlers i
    rw [hpc] at hready
    have hmid := h.stable (s := { t.sys with
      tasks := applyCall t.sys.tasks t.sys.mono t.sys.wall (some (i, m)) })
      (applyCall_evolves t.sys.tasks t.sys.mono t.sys.wall (some (i, m))) (le_refl _)
      (h.honest.call hready.1 t.sys.wall) fun _ => .inl rfl
    refine ⟨hmid.deadline, hmid.honest, hmid.ready, fun k => ?_⟩
    by_cases hk : k = i
    · subst hk
      simp only [Function.update_self]
      cases after with
      | call m' after' => exact absurd rfl (hready.2 m' after')
      | _ => trivial
    · simp only [Function.update_of_ne hk]
      exact hmid.handlers k
  | _ =>
    simp only [Timed.step, hpc] at hs
    exact hnext _ hs

/-- **Step lemma.** -/
theorem Inv.step {t' : Timed} (h : Inv t) {e : Event} (hadm : Admissible t e)
    (hs : t.step cfg e = some t') : Inv t' := by
  cases e with
  | handler i d => exact h.handler hs
  | pool e =>
    cases e with
    | act who o =>
      obtain ⟨s, hstep, rfl⟩ := Option.map_eq_some_iff.mp hs
      exact h.act hadm hstep
    | _ =>
      simp only [Timed.step, Option.map_eq_some_iff] at hs
      obtain ⟨s, hstep, rfl⟩ := hs
      exact h.pool (by simp) hadm hstep

/-- A deadline is never assigned again. -/
theorem step_deadline {t' : Timed} {e : Event} (hs : t.step cfg e = some t') (i : ℕ) :
    (t'.sys.tasks i).deadline = (t.sys.tasks i).deadline := by
  cases e with
  | pool e =>
    cases e with
    | act who o =>
      obtain ⟨s, hstep, rfl⟩ := Option.map_eq_some_iff.mp hs
      exact (step_evolves hstep i).deadline
    | _ =>
      simp only [Timed.step, Option.map_eq_some_iff] at hs
      obtain ⟨s, hstep, rfl⟩ := hs
      exact (step_evolves hstep i).deadline
  | handler k d =>
    cases hpc : t.handlers k with
    | call m after =>
      simp only [Timed.step, hpc, Option.some.injEq] at hs
      subst hs
      exact (applyCall_evolves t.sys.tasks t.sys.mono t.sys.wall (some (k, m)) i).deadline
    | _ =>
      simp only [Timed.step, hpc, Option.map_eq_some_iff] at hs
      obtain ⟨pc', -, rfl⟩ := hs
      rfl

end Step

/-- **Never premature.**  In every run of the pool with simulated workers, where all tasks carry a
deadline and the environment is as `Admissible` says: a task that has failed with
`deadline_exceeded` is past the deadline it was created with, on the API's clock. -/
theorem never_premature (cfg : Config) {t₀ t : Timed} {es : List Event} (hinit : Init t₀)
    (hadm : Meets (Timed.step cfg) Admissible t₀ es)
    (hrun : exec (Timed.step cfg) t₀ es = some t) :
    ∀ i, (t.sys.tasks i).errorCode = some "deadline_exceeded" →
      ∃ d, (t₀.sys.tasks i).deadline = some d ∧ d ≤ t.sys.mono := by
  have hinv : Inv t ∧ ∀ i, (t.sys.tasks i).deadline = (t₀.sys.tasks i).deadline :=
    exec_inv_meets
      (P := fun t => Inv t ∧ ∀ i, (t.sys.tasks i).deadline = (t₀.sys.tasks i).deadline)
      (fun _ _ _ hC h hs => ⟨h.1.step hC hs, fun i => (step_deadline hs i).trans (h.2 i)⟩) hadm
      ⟨hinit.inv, fun _ => rfl⟩ hrun
  intro i hi
  obtain ⟨d, hd, hle⟩ := Task.isExpired_iff.mp (hinv.1.honest i hi)
  exact ⟨d, (hinv.2 i).symm.trans hd, hle⟩

/-! Two tasks with different deadlines in one batch, and a worker that does not answer. -/

def timedStart : Timed where
  sys := { sampleStart with
    tasks := fun i => { sampleStart.tasks i with deadline := some (30 + 10 * i) } }
  sent := fun _ => []
  calledAt := fun _ => 0
  handlers := fun _ => .pLoop

theorem timedStart_init : Init timedStart where
  sys := { sampleStart_init with
    ids := sampleStart_init.ids
    retryCount := fun _ => rfl }
  fresh := fun _ => rfl
  deadline := fun i => ⟨30 + 10 * i, rfl⟩
  handlers := fun _ => rfl

/-- The batch is sent to worker `a`, with budgets of 30 and 40. -/
def callRun : List Event :=
  .pool (.update 0 [("a", ⟨"a:1", .ready⟩)]) ::
    List.replicate 6 (.pool (.act (.thread 0) lost)) ++
  .pool (.submit 0 [0, 1]) :: List.replicate 10 (.pool (.act (.thread 0) lost)) ++
  List.replicate 16 (.pool (.act (.loop 0) lost)) ++ [.pool (.tick 40 0)]

/-- The RPC timeout fires. -/
def fired : Event := .pool (.act (.loop 0) (.rpcError .deadlineExceeded "late"))

def failRun : List Event := List.replicate 3 (.pool (.act (.loop 0) lost))

theorem admissible_lost (t : Timed) (who : Who) : Admissible t (.pool (.act who lost)) := by
  intro p batch k hpt
  simp [lost]

/-- The timeout is that of the longer budget, and both tasks fail after their deadlines. -/
theorem never_premature_timeout : ∃ t,
    exec (Timed.step sampleConfig) timedStart (callRun ++ fired :: failRun) = some t ∧
    (t.sys.tasks 0).errorCode = some "deadline_exceeded" ∧
    (t.sys.tasks 1).errorCode = some "deadline_exceeded" ∧
    ∃ d, (timedStart.sys.tasks 1).deadline = some d ∧ d ≤ t.sys.mono := by
  have hview : (exec (Timed.step sampleConfig) timedStart (callRun ++ fired :: failRun)).map (fun t =>
      ((t.sys.tasks 0).errorCode, (t.sys.tasks 1).errorCode)) =
        some (some "deadline_exceeded", some "deadline_exceeded") := by
    decide +kernel
  obtain ⟨t, ht, hv⟩ := Option.map_eq_some_iff.mp hview
  obtain ⟨h0, h1⟩ := Prod.mk.inj hv
  have hcall : (exec (Timed.step sampleConfig) timedStart callRun).map (fun t =>
      decide (t.calledAt (.loop 0) + rpcTimeout (budgets (t.sent (.loop 0))) ≤ t.sys.mono)) =
        some true := by
    decide +kernel
  obtain ⟨m, hm, hfired⟩ := Option.map_eq_some_iff.mp hcall
  have hlost : ∀ es : List Event, (∀ e ∈ es, ∀ t, Admissible t e) → ∀ t,
      Meets (Timed.step sampleConfig) Admissible t es := fun es hes t => meets_of_forall hes t
  have hadm : Meets (Timed.step sampleConfig) Admissible timedStart
      (callRun ++ fired :: failRun) := by
    refine meets_append (hlost _ (fun e he t => ?_) _) hm ⟨?_, fun t' _ => hlost _ (fun e he t => ?_) _⟩
    · simp only [callRun, List.mem_append, List.mem_cons, List.mem_replicate] at he
      simp at he
      rcases he with (((rfl | rfl) | (rfl | rfl)) | rfl) | rfl
      all_goals first | exact admissible_lost t _ | trivial
    · intro p batch k _ _
      simpa using hfired
    · obtain rfl := List.eq_of_mem_replicate he
      exact admissible_lost t _
  exact ⟨t, ht, h0, h1, never_premature sampleConfig timedStart_init hadm ht 1 h1⟩

end Inference.Pool.Deadline
