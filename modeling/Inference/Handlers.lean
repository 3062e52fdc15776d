import Inference.Task
import Inference.Lib.Run

/-!
# Inference.Handlers — `predict` and `text_task` waiting for their task

The two handlers of `system/api_server.py` from the moment the task is queued.  A handler reads
the task without its lock, one field at a time, while any number of other actors (proxies, the
job gateway) run task methods; every read, every assignment under the lock and every clock tick is
a step of its own.  `Pc.next` is the handler's own code; `call` and `inside` are the two points
of a method call, before and after the lock is taken.

* `Pc.Ok`: what the handler knows at each point; it survives every step of the others (`Ok.stable`)
  because a terminal task is never assigned to again.
* `finishers`: the methods that wrote a final status, newest first.
* `unique_outcome`: at most one of them ever exists, nothing changes after it, and the answer of a
  finished handler is the one that method determines.
-/

namespace Inference.Handlers

open Inference.Lib Inference.Task

/-- The endpoint the handler serves. -/
inductive Endpoint where
  | predict
  | textTask
deriving DecidableEq, Repr

/-- What the handler hands to the framework for its client.  `elapsed` is
`end_time - creation_time`, which `latency_ms` rounds; `serverError` is an uncaught exception. -/
inductive Answer where
  | predictResponse (taskId : String) (result : Json) (elapsed : ℤ)
  | textResult (result : Json)
  | httpError (status : ℕ) (detail : Json)
  | serverError
deriving DecidableEq, Repr

/-- The HTTP status of an answer. -/
def Answer.status : Answer → ℕ
  | .predictResponse _ _ _ | .textResult _ => 200
  | .httpError status _ => status
  | .serverError => 500

/-- The status `predict` computes from the stored error code. -/
def predictStatus (code : Option String) : ℕ :=
  if code = some "deadline_exceeded" then 504
  else if code = some "overloaded" then 503
  else 500

/-- The status `text_task` looks up for the stored error code. -/
def textStatus (code : Option String) : ℕ :=
  match code with
  | some c => (List.lookup c [("deadline_exceeded", 504), ("overloaded", 503), ("busy", 503),
      ("transport_error", 503), ("invalid_spec", 422), ("cancelled", 499)]).getD 502
  | none => 502

/-- `task.error or "inference failed"`. -/
def predictDetail (error : Option String) : Json :=
  match error with
  | some e => if e = "" then .str "inference failed" else .str e
  | none => .str "inference failed"

/-- An optional string as JSON. -/
def optStr : Option String → Json
  | some s => .str s
  | none => .null

def textDetail (code error : Option String) : Json :=
  .obj [("code", optStr code), ("message", optStr error)]

/-- The answer of `text_task` to a caller that went away. -/
def cancelledAnswer : Answer := .httpError 499 (.str "text caller disconnected")

/-- Program points of the two handlers. -/
inductive Pc where
  /-- `while not task.is_expired()` -/
  | pLoop
  /-- `if task.status.value in ("done", "failed")` -/
  | pPoll
  /-- `if task.is_expired()` after the loop -/
  | pAfter
  /-- `if task.status.value == "failed"` -/
  | pFailed
  /-- `if task.error_code == "deadline_exceeded"` -/
  | pDeadline
  /-- `elif task.error_code == "overloaded"` -/
  | pOverloaded
  /-- `detail=task.error or "inference failed"` -/
  | pDetail (status : ℕ)
  /-- `if task.status.value != "done"` -/
  | pDone
  /-- `raise HTTPException(status_code=504, detail="inference timed out")` -/
  | pTimedOut
  /-- building the `PredictResponse` -/
  | pResult
  /-- `while task.status.value not in ("done", "failed")` -/
  | tLoop
  /-- `if await request.is_disconnected()` -/
  | tDisconnected
  /-- `if task.is_expired()` -/
  | tExpired
  /-- `if task.status.value == "failed"` -/
  | tFailed
  /-- the status lookup -/
  | tStatus
  /-- `detail={"code": task.error_code, "message": task.error}` -/
  | tDetail (status : ℕ)
  /-- `return task.result` -/
  | tResult
  /-- about to call a method of the task, then continue -/
  | call (m : Method) (after : Pc)
  /-- holding the task's lock -/
  | inside (after : Pc)
  | answered (a : Answer)
deriving DecidableEq, Repr

/-- The handler's next point, from what it reads now; `none` where it is not its own step. -/
def Pc.next (t : Task) (mono : ℤ) (disconnected : Bool) : Pc → Option Pc
  | .pLoop => some (if t.isExpired mono then .pAfter else .pPoll)
  | .pPoll => some (if t.terminal then .pAfter else .pLoop)
  | .pAfter => some (if t.isExpired mono
      then .call (.markFailed "request deadline exceeded" (some "deadline_exceeded")) .pFailed
      else .pFailed)
  | .pFailed => some (if t.status = .failed then .pDeadline else .pDone)
  | .pDeadline => some (if t.errorCode = some "deadline_exceeded" then .pDetail 504 else .pOverloaded)
  | .pOverloaded => some (if t.errorCode = some "overloaded" then .pDetail 503 else .pDetail 500)
  | .pDetail status => some (.answered (.httpError status (predictDetail t.error)))
  | .pDone => some (if t.status ≠ .done then .pTimedOut else .pResult)
  | .pTimedOut => some (.answered (.httpError 504 (.str "inference timed out")))
  | .pResult => some (.answered (match t.endTime with
      | some e => .predictResponse t.taskId t.result (e - t.creationTime)
      | none => .serverError))
  | .tLoop => some (if t.terminal then .tFailed else .tDisconnected)
  | .tDisconnected => some (if disconnected
      then .call (.markFailed "text caller disconnected" (some "cancelled")) (.answered cancelledAnswer)
      else .tExpired)
  | .tExpired => some (if t.isExpired mono
      then .call (.markFailed "text stage deadline exceeded" (some "deadline_exceeded")) .tFailed
      else .tLoop)
  | .tFailed => some (if t.status = .failed then .tStatus else .tResult)
  | .tStatus => some (.tDetail (textStatus t.errorCode))
  | .tDetail status => some (.answered (.httpError status (textDetail t.errorCode t.error)))
  | .tResult => some (.answered (.textResult t.result))
  | .call _ _ | .inside _ | .answered _ => none

/-- One task, its lock, the clocks and the handler that waits for it.  `disconnected` records that
the handler saw its caller gone; `finishers` the methods that wrote a final status. -/
structure Sys where
  endpoint : Endpoint
  obj : Obj
  mono : ℤ
  wall : ℤ
  pc : Pc
  disconnected : Bool
  finishers : List Method
deriving DecidableEq, Repr

inductive Event where
  /-- time passes; the wall clock may be set to anything -/
  | tick (elapsed : ℕ) (wall : ℤ)
  /-- another actor takes the lock -/
  | enter (n : ℕ) (m : Method)
  /-- the lock holder makes its next assignment -/
  | assign
  /-- another actor releases the lock -/
  | release
  /-- the handler takes its next step; the flag is what `is_disconnected` answers -/
  | advance (disconnected : Bool)
deriving DecidableEq, Repr

/-- The method whose next assignment ends the task. -/
def finisher (o : Obj) : List Method :=
  match o.owner, o.todo with
  | some (_, m), w :: _ => if w.finishes then [m] else []
  | _, _ => []

def step (s : Sys) : Event → Option Sys
  | .tick d wall => some { s with mono := s.mono + d, wall := wall }
  | .enter n m => (s.obj.enter (.other n) m s.mono).map fun o => { s with obj := o }
  | .assign => (s.obj.assign s.wall).map fun o =>
      { s with obj := o, finishers := finisher s.obj ++ s.finishers }
  | .release =>
    match s.obj.owner with
    | some (.other _, _) => s.obj.release.map fun o => { s with obj := o }
    | _ => none
  | .advance disconnected =>
    match s.pc with
    | .call m after => (s.obj.enter .handler m s.mono).map fun o =>
        { s with obj := o, pc := .inside after }
    | .inside after => s.obj.release.map fun o => { s with obj := o, pc := after }
    | pc => (pc.next s.obj.task s.mono disconnected).map fun pc' =>
        { s with pc := pc', disconnected := s.disconnected || (pc == .tDisconnected && disconnected) }

/-- A fresh task that has just been queued by its handler. -/
def Init (s : Sys) : Prop :=
  s.obj.task.status = .pending ∧ s.obj.task.retryCount = 0 ∧ s.obj.owner = none ∧ s.obj.todo = [] ∧
    s.pc = (match s.endpoint with | .predict => .pLoop | .textTask => .tLoop) ∧
    s.disconnected = false ∧ s.finishers = []

/-! ## What the handler knows -/

/-- The answer `predict` gives to a terminal task. -/
def predictAnswer (t : Task) : Answer :=
  if t.status = .failed then .httpError (predictStatus t.errorCode) (predictDetail t.error)
  else match t.endTime with
    | some e => .predictResponse t.taskId t.result (e - t.creationTime)
    | none => .serverError

/-- The answer `text_task` gives to a terminal task when its caller stayed. -/
def textAnswer (t : Task) : Answer :=
  if t.status = .failed then .httpError (textStatus t.errorCode) (textDetail t.errorCode t.error)
  else .textResult t.result

/-- Where a handler may go after its own `mark_failed`. -/
def Pc.Closing (e : Endpoint) (disconnected : Bool) (after : Pc) : Prop :=
  (e = .predict ∧ after = .pFailed) ∨ (e = .textTask ∧ after = .tFailed) ∨
    (e = .textTask ∧ after = .answered cancelledAnswer ∧ disconnected = true)

/-- What is true of the task at each point of the handler. -/
def Pc.Ok (e : Endpoint) (t : Task) (mono : ℤ) (disconnected : Bool) : Pc → Prop
  | .pLoop | .pPoll => e = .predict
  | .pAfter => e = .predict ∧ (t.terminal = true ∨ t.isExpired mono = true)
  | .pFailed => e = .predict ∧ t.terminal = true
  | .pDeadline => e = .predict ∧ t.status = .failed
  | .pOverloaded => e = .predict ∧ t.status = .failed ∧ t.errorCode ≠ some "deadline_exceeded"
  | .pDetail status => e = .predict ∧ t.status = .failed ∧ status = predictStatus t.errorCode
  | .pDone | .pResult => e = .predict ∧ t.status = .done
  | .pTimedOut => False
  | .tLoop | .tDisconnected | .tExpired => e = .textTask
  | .tFailed => e = .textTask ∧ t.terminal = true
  | .tStatus => e = .textTask ∧ t.status = .failed
  | .tDetail status => e = .textTask ∧ t.status = .failed ∧ status = textStatus t.errorCode
  | .tResult => e = .textTask ∧ t.status = .done
  | .call m after => (∃ x c, m = .markFailed x c) ∧ after.Closing e disconnected
  | .inside after => after.Closing e disconnected
  | .answered a => t.terminal = true ∧ match e with
    | .predict => a = predictAnswer t
    | .textTask => a = textAnswer t ∨ (a = cancelledAnswer ∧ disconnected = true)

theorem terminal_iff {t : Task} : t.terminal = true ↔ t.status = .done ∨ t.status = .failed := by
  unfold Task.terminal
  cases t.status <;> simp [TaskStatus.terminal]

theorem isExpired_mono {t u : Task} {mono mono' : ℤ} (hd : u.deadline = t.deadline)
    (hle : mono ≤ mono') (h : t.isExpired mono = true) : u.isExpired mono' = true := by
  obtain ⟨d, h1, h2⟩ := isExpired_iff.mp h
  exact isExpired_iff.mpr ⟨d, hd.trans h1, h2.trans hle⟩

/-- **Stability.**  What the handler knows survives every step of the other actors. -/
theorem Pc.Ok.stable {e : Endpoint} {t u : Task} {mono mono' : ℤ} {d : Bool} {pc : Pc}
    (h : pc.Ok e t mono d) (hfin : t.terminal = true → u = t) (hd : u.deadline = t.deadline)
    (hle : mono ≤ mono') : pc.Ok e u mono' d := by
  have hdone : t.status = .done → u = t := fun hs => hfin (terminal_iff.mpr (.inl hs))
  have hfailed : t.status = .failed → u = t := fun hs => hfin (terminal_iff.mpr (.inr hs))
  cases pc with
  | pAfter =>
    refine ⟨h.1, h.2.imp (fun ht => ?_) (isExpired_mono hd hle)⟩
    rwa [hfin ht]
  | pFailed | tFailed => exact ⟨h.1, (hfin h.2).symm ▸ h.2⟩
  | pDeadline | tStatus => exact ⟨h.1, (hfailed h.2).symm ▸ h.2⟩
  | pOverloaded | pDetail _ | tDetail _ => exact ⟨h.1, (hfailed h.2.1).symm ▸ h.2⟩
  | pDone | pResult | tResult => exact ⟨h.1, (hdone h.2).symm ▸ h.2⟩
  | answered a => exact (hfin h.1).symm ▸ h
  | pLoop | pPoll | tLoop | tDisconnected | tExpired | call _ _ | inside _ | pTimedOut => exact h

/-- After its own `mark_failed` the task is terminal, which is all the handler needs. -/
theorem Pc.Closing.ok {e : Endpoint} {t : Task} {mono : ℤ} {d : Bool} {after : Pc}
    (h : after.Closing e d) (ht : t.terminal = true) : after.Ok e t mono d := by
  rcases h with ⟨he, rfl⟩ | ⟨he, rfl⟩ | ⟨rfl, rfl, hd⟩
  · exact ⟨he, ht⟩
  · exact ⟨he, ht⟩
  · exact ⟨ht, .inr ⟨rfl, hd⟩⟩

/-- **The handler's own step** carries its knowledge to the next point. -/
theorem Pc.Ok.next {e : Endpoint} {t : Task} {mono : ℤ} {d disc : Bool} {pc pc' : Pc}
    (h : pc.Ok e t mono d) (hn : pc.next t mono disc = some pc') :
    pc'.Ok e t mono (d || (pc == .tDisconnected && disc)) := by
  cases pc with
  | pLoop =>
    simp only [Pc.next, Option.some.injEq] at hn
    split at hn <;> subst hn
    · exact ⟨h, .inr ‹_›⟩
    · exact h
  | pPoll =>
    simp only [Pc.next, Option.some.injEq] at hn
    split at hn <;> subst hn
    · exact ⟨h, .inl ‹_›⟩
    · exact h
  | pAfter =>
    simp only [Pc.next, Option.some.injEq] at hn
    split at hn <;> subst hn
    · exact ⟨⟨_, _, rfl⟩, .inl ⟨h.1, rfl⟩⟩
    · exact ⟨h.1, h.2.resolve_right ‹_›⟩
  | pFailed =>
    simp only [Pc.next, Option.some.injEq] at hn
    split at hn <;> subst hn
    · exact ⟨h.1, ‹_›⟩
    · exact ⟨h.1, (terminal_iff.mp h.2).resolve_right ‹_›⟩
  | pDeadline =>
    simp only [Pc.next, Option.some.injEq] at hn
    split at hn <;> subst hn
    · rename_i hc
      exact ⟨h.1, h.2, by simp [predictStatus, hc]⟩
    · exact ⟨h.1, h.2, ‹_›⟩
  | pOverloaded =>
    simp only [Pc.next, Option.some.injEq] at hn
    split at hn <;> subst hn
    · rename_i hc
      exact ⟨h.1, h.2.1, by simp [predictStatus, hc]⟩
    · rename_i hc
      exact ⟨h.1, h.2.1, by simp [predictStatus, hc, h.2.2]⟩
  | pDetail status =>
    simp only [Pc.next, Option.some.injEq] at hn
    subst hn
    obtain ⟨rfl, hf, rfl⟩ := h
    exact ⟨terminal_iff.mpr (.inr hf), by simp [predictAnswer, hf]⟩
  | pDone =>
    simp only [Pc.next, Option.some.injEq] at hn
    split at hn <;> subst hn
    · rename_i hne
      exact absurd h.2 hne
    · exact h
  | pTimedOut => exact h.elim
  | pResult =>
    simp only [Pc.next, Option.some.injEq] at hn
    subst hn
    obtain ⟨rfl, hd⟩ := h
    exact ⟨terminal_iff.mpr (.inl hd), by simp [predictAnswer, hd]⟩
  | tLoop =>
    simp only [Pc.next, Option.some.injEq] at hn
    split at hn <;> subst hn
    · exact ⟨h, ‹_›⟩
    · exact h
  | tDisconnected =>
    simp only [Pc.next, Option.some.injEq] at hn
    split at hn <;> subst hn
    · rename_i hdisc
      exact ⟨⟨_, _, rfl⟩, .inr (.inr ⟨h, rfl, by simp [hdisc]⟩)⟩
    · exact h
  | tExpired =>
    simp only [Pc.next, Option.some.injEq] at hn
    split at hn <;> subst hn
    · exact ⟨⟨_, _, rfl⟩, .inr (.inl ⟨h, rfl⟩)⟩
    · exact h
  | tFailed =>
    simp only [Pc.next, Option.some.injEq] at hn
    split at hn <;> subst hn
    · exact ⟨h.1, ‹_›⟩
    · exact ⟨h.1, (terminal_iff.mp h.2).resolve_right ‹_›⟩
  | tStatus =>
    simp only [Pc.next, Option.some.injEq] at hn
    subst hn
    exact ⟨h.1, h.2, rfl⟩
  | tDetail status =>
    simp only [Pc.next, Option.some.injEq] at hn
    subst hn
    obtain ⟨rfl, hf, rfl⟩ := h
    exact ⟨terminal_iff.mpr (.inr hf), .inl (by simp [textAnswer, hf])⟩
  | tResult =>
    simp only [Pc.next, Option.some.injEq] at hn
    subst hn
    obtain ⟨rfl, hd⟩ := h
    exact ⟨terminal_iff.mpr (.inl hd), .inl (by simp [textAnswer, hd])⟩
  | call _ _ | inside _ | answered _ => simp [Pc.next] at hn

/-! ## The transition into a final status -/

/-- The task is as the method that ended it left it. -/
def Outcome : Method → Task → Prop
  | .markDone r, t => t.status = .done ∧ t.result = r ∧ ∃ e, t.endTime = some e
  | .markFailed x c, t => t.status = .failed ∧ t.error = some x ∧ t.errorCode = c
  | _, _ => False

theorem call_outcome {u : Task} (hu : u.terminal = false) {m : Method} {mono wall : ℤ}
    (ht : (u.call m mono wall).terminal = true) : Outcome m (u.call m mono wall) := by
  cases m with
  | markDone r =>
    have : u.call (.markDone r) mono wall = u.markDone wall r := rfl
    rw [this, markDone_of_open hu]
    exact ⟨rfl, rfl, wall, rfl⟩
  | markFailed x c =>
    have : u.call (.markFailed x c) mono wall = u.markFailed wall x c := rfl
    rw [this, markFailed_of_open hu]
    exact ⟨rfl, rfl, rfl⟩
  | markProcessing =>
    have : u.call .markProcessing mono wall = u.markProcessing wall := rfl
    rw [this, markProcessing_of_open hu] at ht
    simp [Task.terminal, TaskStatus.terminal] at ht
  | tryReserveRetry =>
    simp only [Task.call, Method.body, hu, Bool.false_eq_true, if_false] at ht
    split at ht
    · simp [hu] at ht
    · exact absurd (show u.terminal = true from ht) (by simp [hu])

/-- The object, the handler's knowledge and the record of final writes, together. -/
structure Inv (t₀ : Task) (s : Sys) : Prop where
  wf : s.obj.Wf
  linear : s.obj.Linear t₀
  ok : s.pc.Ok s.endpoint s.obj.task s.mono s.disconnected
  /-- Inside its call the handler holds the lock and runs `mark_failed`. -/
  inside : ∀ after, s.pc = .inside after → ∃ x c, s.obj.owner = some (.handler, .markFailed x c)
  /-- A final status has been written once, or not yet. -/
  finish : (s.obj.task.terminal = false ∧ s.finishers = []) ∨
    (s.obj.task.terminal = true ∧ ∃ m, s.finishers = [m] ∧ Outcome m s.obj.task)

theorem Inv.finished {t₀ : Task} {s : Sys} (h : Inv t₀ s) (ht : s.obj.task.terminal = true) :
    ∃ m, s.finishers = [m] ∧ Outcome m s.obj.task := by
  rcases h.finish with ⟨hn, -⟩ | ⟨-, hm⟩
  · simp [ht] at hn
  · exact hm

theorem inv_init {s : Sys} (h : Init s) : Inv s.obj.task s := by
  obtain ⟨hst, hret, hown, htodo, hpc, hdisc, hfin⟩ := h
  have hopen : s.obj.task.terminal = false := by simp [Task.terminal, hst, TaskStatus.terminal]
  refine ⟨⟨fun _ => htodo, fun _ => htodo, by simp [htodo, finishLast], by
    simp [hret, htodo, retriesIn]⟩, ⟨fun _ => .nil, fun a m ho => by simp [hown] at ho⟩, ?_,
    fun after ha => ?_, .inl ⟨hopen, hfin⟩⟩
  · rw [hpc]
    cases he : s.endpoint <;> simp [Pc.Ok]
  · rw [hpc] at ha
    cases he : s.endpoint <;> simp [he] at ha

section Steps

variable {t₀ : Task} {s : Sys}

/-- Steps of the object that leave the task's fields alone. -/
theorem Inv.of_task_eq (h : Inv t₀ s) {o : Obj} (hwf : o.Wf) (hlin : o.Linear t₀)
    (ht : o.task = s.obj.task) (hin : ∀ after, s.pc = .inside after →
      ∃ x c, o.owner = some (.handler, .markFailed x c)) : Inv t₀ { s with obj := o } :=
  ⟨hwf, hlin, by simpa [ht] using h.ok, hin, by simpa [ht] using h.finish⟩

theorem enter_task {o o' : Obj} {a : Actor} {m : Method} {mono : ℤ}
    (h : o.enter a m mono = some o') :
    o.owner = none ∧ o'.task = o.task ∧ o'.owner = some (a, m) := by
  unfold Obj.enter at h
  split at h
  · rename_i hfree
    obtain rfl := Option.some.inj h
    exact ⟨hfree, rfl, rfl⟩
  · simp at h

theorem release_task {o o' : Obj} (h : o.release = some o') :
    o'.task = o.task ∧ o.todo = [] := by
  unfold Obj.release at h
  split at h
  · rename_i p ho ht
    obtain rfl := Option.some.inj h
    exact ⟨rfl, ht⟩
  · simp at h

/-- An assignment keeps the deadline, and makes the task terminal only as a final status. -/
theorem assign_task {o o' : Obj} {wall : ℤ} (hwf : o.Wf) (h : o.assign wall = some o') :
    o.task.terminal = false ∧ o'.task.deadline = o.task.deadline ∧ o'.owner = o.owner ∧
      (o'.task.terminal = true ↔ finisher o ≠ []) := by
  have hopen : o.task.terminal = false := by
    by_contra hc
    exact hwf.assign_terminal (by simpa using hc) h
  obtain ⟨⟨a, m⟩, w, rest, ho, ht, rfl⟩ := Obj.assign_cases h
  refine ⟨hopen, by cases w <;> rfl, rfl, ?_⟩
  cases w with
  | status st =>
    simp only [finisher, ho, ht, Write.finishes, Write.apply, Task.terminal]
    cases st <;> simp [TaskStatus.terminal]
  | _ => simp_all [finisher, Write.finishes, Write.apply, Task.terminal]

theorem Inv.assign (h : Inv t₀ s) {o : Obj} (ha : s.obj.assign s.wall = some o) :
    Inv t₀ { s with obj := o, finishers := finisher s.obj ++ s.finishers } := by
  obtain ⟨hopen, hdl, hown, hterm⟩ := assign_task h.wf ha
  have hwf := h.wf.assign ha
  have hlin := h.linear.assign ha
  have hnil : s.finishers = [] := by
    rcases h.finish with ⟨-, hn⟩ | ⟨ht, -⟩
    · exact hn
    · simp [hopen] at ht
  refine ⟨hwf, hlin, h.ok.stable (fun ht => by simp [hopen] at ht) hdl le_rfl,
    fun after hp => by simpa [hown] using h.inside after hp, ?_⟩
  rw [hnil, List.append_nil]
  by_cases hf : finisher s.obj = []
  · refine .inl ⟨?_, hf⟩
    by_contra hc
    exact hterm.mp (by simpa using hc) hf
  · -- the last assignment of a method that found the task open
    have ht : o.task.terminal = true := hterm.mpr hf
    refine .inr ⟨ht, ?_⟩
    obtain ⟨⟨a, m⟩, w, rest, ho, htodo, ho'⟩ := Obj.assign_cases ha
    have hm : finisher s.obj = [m] := by
      simp only [finisher, ho, htodo] at hf ⊢
      split at hf
      · rename_i hw
        simp [hw]
      · exact absurd rfl hf
    refine ⟨m, hm, ?_⟩
    obtain ⟨u, mono, wall, ws, -, huopen, hbody, htask⟩ := h.linear.assign_body ho ha
    rw [hwf.final ht, List.append_nil] at hbody
    have hcall : o.task = u.call m mono wall := by rw [htask, Task.call, hbody]
    simp only [hcall] at ht ⊢
    exact call_outcome huopen ht

/-- The handler returns from its own `mark_failed`. -/
theorem Inv.leave (h : Inv t₀ s) {after : Pc} (hpc : s.pc = .inside after) {o : Obj}
    (hr : s.obj.release = some o) : Inv t₀ { s with obj := o, pc := after } := by
  obtain ⟨x, c, ho⟩ := h.inside after hpc
  obtain ⟨htask, htodo⟩ := release_task hr
  have hclosing : after.Closing s.endpoint s.disconnected := by
    have := h.ok
    rwa [hpc] at this
  have hterm : s.obj.task.terminal = true := by
    obtain ⟨u, mono, wall, -, hcall⟩ := h.linear.last_call ho htodo
    rw [hcall]
    exact markFailed_terminal u wall x c
  refine ⟨h.wf.release hr, h.linear.release hr, ?_, fun after' ha => ?_, by
    simpa [htask] using h.finish⟩
  · simp only [htask]
    exact hclosing.ok hterm
  · rcases hclosing with ⟨-, rfl⟩ | ⟨-, rfl⟩ | ⟨-, rfl, -⟩ <;> simp at ha

/-- The handler takes the lock for its own `mark_failed`. -/
theorem Inv.call (h : Inv t₀ s) {m : Method} {after : Pc} (hpc : s.pc = .call m after) {o : Obj}
    (he : s.obj.enter .handler m s.mono = some o) :
    Inv t₀ { s with obj := o, pc := .inside after } := by
  obtain ⟨-, htask, hown⟩ := enter_task he
  have hok := h.ok
  rw [hpc] at hok
  obtain ⟨⟨x, c, rfl⟩, hclosing⟩ := hok
  exact ⟨h.wf.enter he, h.linear.enter he, hclosing, fun _ _ => ⟨x, c, hown⟩, by
    simpa [htask] using h.finish⟩

/-- A read of the handler. -/
theorem Inv.read (h : Inv t₀ s) {pc' : Pc} {disc : Bool}
    (hn : s.pc.next s.obj.task s.mono disc = some pc') :
    Inv t₀ { s with pc := pc',
                    disconnected := s.disconnected || (s.pc == .tDisconnected && disc) } := by
  refine ⟨h.wf, h.linear, h.ok.next hn, fun after ha => ?_, h.finish⟩
  simp only at ha
  subst ha
  cases hpc : s.pc <;> rw [hpc] at hn <;> simp only [Pc.next, Option.some.injEq] at hn <;>
    (try split at hn) <;> simp at hn

end Steps

/-- **Step lemma.** -/
theorem step_inv {t₀ : Task} {s t : Sys} {e : Event} (h : Inv t₀ s) (hs : step s e = some t) :
    Inv t₀ t := by
  cases e with
  | tick d wall =>
    obtain rfl := Option.some.inj hs
    exact ⟨h.wf, h.linear, h.ok.stable (fun _ => rfl) rfl (by simp), h.inside, h.finish⟩
  | enter n m =>
    obtain ⟨o, he, rfl⟩ := Option.map_eq_some_iff.mp hs
    obtain ⟨hfree, htask, -⟩ := enter_task he
    refine h.of_task_eq (h.wf.enter he) (h.linear.enter he) htask fun after hp => ?_
    obtain ⟨x, c, ho⟩ := h.inside after hp
    simp [hfree] at ho
  | assign =>
    obtain ⟨o, ha, rfl⟩ := Option.map_eq_some_iff.mp hs
    exact h.assign ha
  | release =>
    simp only [step] at hs
    split at hs
    · rename_i n m ho
      obtain ⟨o, hr, rfl⟩ := Option.map_eq_some_iff.mp hs
      refine h.of_task_eq (h.wf.release hr) (h.linear.release hr) (release_task hr).1
        fun after hp => ?_
      obtain ⟨x, c, ho'⟩ := h.inside after hp
      simp [ho] at ho'
    · simp at hs
  | advance disc =>
    simp only [step] at hs
    split at hs
    · rename_i m after hpc
      obtain ⟨o, he, rfl⟩ := Option.map_eq_some_iff.mp hs
      exact h.call hpc he
    · rename_i after hpc
      obtain ⟨o, hr, rfl⟩ := Option.map_eq_some_iff.mp hs
      exact h.leave hpc hr
    · obtain ⟨pc', hn, rfl⟩ := Option.map_eq_some_iff.mp hs
      exact h.read hn

/-- A terminal task keeps every field through every step, and nobody finishes it again. -/
theorem step_final {t₀ : Task} {s t : Sys} {e : Event} (h : Inv t₀ s) (hs : step s e = some t)
    (ht : s.obj.task.terminal = true) :
    t.obj.task = s.obj.task ∧ t.finishers = s.finishers := by
  cases e with
  | tick d wall =>
    obtain rfl := Option.some.inj hs
    exact ⟨rfl, rfl⟩
  | enter n m =>
    obtain ⟨o, he, rfl⟩ := Option.map_eq_some_iff.mp hs
    exact ⟨(enter_task he).2.1, rfl⟩
  | assign =>
    obtain ⟨o, ha, rfl⟩ := Option.map_eq_some_iff.mp hs
    exact absurd ha (h.wf.assign_terminal ht)
  | release =>
    simp only [step] at hs
    split at hs
    · obtain ⟨o, hr, rfl⟩ := Option.map_eq_some_iff.mp hs
      exact ⟨(release_task hr).1, rfl⟩
    · simp at hs
  | advance disc =>
    simp only [step] at hs
    split at hs
    · obtain ⟨o, he, rfl⟩ := Option.map_eq_some_iff.mp hs
      exact ⟨(enter_task he).2.1, rfl⟩
    · obtain ⟨o, hr, rfl⟩ := Option.map_eq_some_iff.mp hs
      exact ⟨(release_task hr).1, rfl⟩
    · obtain ⟨pc', -, rfl⟩ := Option.map_eq_some_iff.mp hs
      exact ⟨rfl, rfl⟩

/-- The answer the finishing method determines; a text caller that was seen gone gets 499. -/
def Answers (s : Sys) : Method → Answer → Prop
  | .markDone r, a => match s.endpoint with
    | .predict => ∃ elapsed, a = .predictResponse s.obj.task.taskId r elapsed
    | .textTask => a = .textResult r ∨ (a = cancelledAnswer ∧ s.disconnected = true)
  | .markFailed x c, a => match s.endpoint with
    | .predict => a = .httpError (predictStatus c) (predictDetail (some x))
    | .textTask => a = .httpError (textStatus c) (textDetail c (some x)) ∨
        (a = cancelledAnswer ∧ s.disconnected = true)
  | _, _ => False

theorem answers_of_outcome {s : Sys} {m : Method} {a : Answer} (ho : Outcome m s.obj.task)
    (hok : (Pc.answered a).Ok s.endpoint s.obj.task s.mono s.disconnected) : Answers s m a := by
  obtain ⟨-, ha⟩ := hok
  cases m with
  | markDone r =>
    obtain ⟨hst, hres, e, he⟩ := ho
    cases hep : s.endpoint <;> simp only [hep, Answers] at ha ⊢
    · exact ⟨_, by simpa [predictAnswer, hst, he, hres] using ha⟩
    · simpa [textAnswer, hst, hres] using ha
  | markFailed x c =>
    obtain ⟨hst, herr, hcode⟩ := ho
    cases hep : s.endpoint <;> simp only [hep, Answers] at ha ⊢
    · simpa [predictAnswer, hst, herr, hcode] using ha
    · simpa [textAnswer, hst, herr, hcode] using ha
  | markProcessing => exact ho.elim
  | tryReserveRetry => exact ho.elim

/-- Failure statuses are never 200. -/
theorem status_ne_200 (c : Option String) : predictStatus c ≠ 200 ∧ textStatus c ≠ 200 := by
  constructor
  · unfold predictStatus
    split
    · decide
    · split <;> decide
  · unfold textStatus
    cases c with
    | none => decide
    | some c =>
      simp only [List.lookup_cons, List.lookup_nil]
      repeat' split
      all_goals simp

/-- Only `mark_done` is answered with a 200. -/
theorem Answers.done_of_200 {s : Sys} {m : Method} {a : Answer} (h : Answers s m a)
    (ha : a.status = 200) : ∃ r, m = .markDone r := by
  cases m with
  | markDone r => exact ⟨r, rfl⟩
  | markFailed x c =>
    cases hep : s.endpoint <;> simp only [Answers, hep] at h
    · subst h
      exact absurd ha (status_ne_200 c).1
    · rcases h with rfl | ⟨rfl, -⟩
      · exact absurd ha (status_ne_200 c).2
      · exact absurd ha (by decide)
  | markProcessing => exact h.elim
  | tryReserveRetry => exact h.elim

/-- `mark_done` is answered with a 200 unless a text caller was seen gone. -/
theorem Answers.status_of_done {s : Sys} {r : Json} {a : Answer} (h : Answers s (.markDone r) a) :
    a.status = 200 ∨ (s.endpoint = .textTask ∧ s.disconnected = true ∧ a.status = 499) := by
  cases hep : s.endpoint <;> simp only [Answers, hep] at h
  · obtain ⟨elapsed, rfl⟩ := h
    exact .inl rfl
  · rcases h with rfl | ⟨rfl, hd⟩
    · exact .inl rfl
    · exact .inr ⟨rfl, hd, rfl⟩

/-- **A terminal task is final**: no later part of a run changes it. -/
theorem run_final {t₀ : Task} {s t : Sys} {es : List Event} (h : Inv t₀ s)
    (hs : exec step s es = some t) (ht : s.obj.task.terminal = true) :
    t.obj.task = s.obj.task ∧ t.finishers = s.finishers := by
  refine exec_rel (P := Inv t₀) (R := fun a b => a.obj.task.terminal = true →
    b.obj.task = a.obj.task ∧ b.finishers = a.finishers) (fun _ _ => ⟨rfl, rfl⟩)
    (fun a b c hab hbc ha => ?_) (fun _ _ _ => step_inv) (fun _ _ _ => step_final) h hs ht
  obtain ⟨h1, h2⟩ := hab ha
  obtain ⟨h3, h4⟩ := hbc (h1 ▸ ha)
  exact ⟨h3.trans h1, h4.trans h2⟩

/-- **Unique terminal outcome.**  In every run of the handler and any number of other actors on
one fresh task: at most one call writes a final status; from then on no field of the task changes;
the retry count never exceeds one; the last branch of `predict` is never reached; and when the
handler has answered, the task is terminal, its answer is the one the unique finishing call
determines, and it is a 200 exactly for `mark_done` (unless a text caller was seen gone). -/
theorem unique_outcome {s₀ s : Sys} {es : List Event} (h₀ : Init s₀)
    (h : exec step s₀ es = some s) :
    s.finishers.length ≤ 1 ∧
    (∀ es₁ es₂ m, es = es₁ ++ es₂ → exec step s₀ es₁ = some m → m.obj.task.terminal = true →
      s.obj.task = m.obj.task ∧ s.finishers = m.finishers) ∧
    s.obj.task.retryCount ≤ 1 ∧ s.pc ≠ .pTimedOut ∧
    (∀ a, s.pc = .answered a → ∃ m, s.finishers = [m] ∧ s.obj.task.terminal = true ∧
      Outcome m s.obj.task ∧ Answers s m a ∧ (a.status = 200 → ∃ r, m = .markDone r) ∧
      (∀ r, m = .markDone r → a.status = 200 ∨
        (s.endpoint = .textTask ∧ s.disconnected = true ∧ a.status = 499))) := by
  have hstep : ∀ s e t, Inv s₀.obj.task s → step s e = some t → Inv s₀.obj.task t :=
    fun _ _ _ => step_inv
  have hinv := exec_inv hstep (inv_init h₀) h
  refine ⟨?_, ?_, ?_, ?_, ?_⟩
  · rcases hinv.finish with ⟨-, hn⟩ | ⟨-, m, hm, -⟩
    · simp [hn]
    · simp [hm]
  · rintro es₁ es₂ m rfl hm ht
    obtain ⟨m', hm', hrest⟩ := exec_append.mp h
    obtain rfl := Option.some.inj (hm.symm.trans hm')
    exact run_final (exec_inv hstep (inv_init h₀) hm) hrest ht
  · have := hinv.wf.retry
    omega
  · intro hpc
    have := hinv.ok
    rw [hpc] at this
    exact this
  · intro a hpc
    have hok := hinv.ok
    rw [hpc] at hok
    obtain ⟨m, hm, hout⟩ := hinv.finished hok.1
    have hans := answers_of_outcome hout hok
    exact ⟨m, hm, hok.1, hout, hans, hans.done_of_200, fun r hr => (hr ▸ hans).status_of_done⟩

/-- A `predict` whose worker finishes while the handler polls. -/
def predictRun : List Event :=
  [.advance false, .enter 1 .markProcessing, .advance false, .assign, .assign, .release,
    .enter 1 (.markDone (.int 9)), .assign, .assign, .advance false, .assign, .advance false,
    .release, .enter 2 (.markFailed "late" none), .release, .advance false, .advance false,
    .advance false, .advance false]

def predictStart : Sys where
  endpoint := .predict
  obj := { task := { inputData := .null, taskId := "t", creationTime := 5, deadline := some 30 } }
  mono := 0
  wall := 7
  pc := .pLoop
  disconnected := false
  finishers := []

theorem unique_outcome_predictRun :
    ∃ s, exec step predictStart predictRun = some s ∧ s.finishers = [.markDone (.int 9)] ∧
      s.pc = .answered (.predictResponse "t" (.int 9) 2) ∧ s.obj.task.retryCount ≤ 1 ∧
      ∃ m, s.finishers = [m] ∧ Answers s m (.predictResponse "t" (.int 9) 2) := by
  have hrun : (exec step predictStart predictRun).isSome = true := by decide +kernel
  obtain ⟨s, hs⟩ := Option.isSome_iff_exists.mp hrun
  have hpc : s.pc = .answered (.predictResponse "t" (.int 9) 2) := by
    have : (exec step predictStart predictRun).map Sys.pc =
      some (.answered (.predictResponse "t" (.int 9) 2)) := by decide +kernel
    simpa [hs] using this
  have hfin : s.finishers = [.markDone (.int 9)] := by
    have : (exec step predictStart predictRun).map Sys.finishers = some [.markDone (.int 9)] := by
      decide +kernel
    simpa [hs] using this
  obtain ⟨-, -, hretry, -, hans⟩ := unique_outcome (by simp [Init, predictStart]) hs
  obtain ⟨m, hm, -, -, ha, -⟩ := hans _ hpc
  exact ⟨s, hs, hfin, hpc, hretry, m, hm, ha⟩

end Inference.Handlers
