import Inference.Handlers
import Inference.Servicer

/-!
# Inference.Local.Worker — `Worker` and `WorkerPool` of `system/worker.py`

The workers of a server without gRPC, statement by statement: the loop of each worker thread, and
`WorkerPool.submit`, which runs in the scheduler thread alone.  Between two statements somebody may
fail a task, switch the failure injection or stop a worker, and `Event.wait` may time out or not.

* `Worker.advance`, `Sys.submitter`: the two kinds of thread.
* `Sys.log`: which worker a batch went to.
* `Cause`: with which methods the pool ends a task.
* **`pool_serves`**: every batch goes to one worker, in the order of the calls, and each worker works
  through its own in that order; a processed batch has ended, each task with its cause; nobody sleeps
  over a batch.
-/

namespace Inference.Local

open Inference.Lib Inference.Servicer
open Inference.Handlers (Outcome)

/-- A batch; tasks are known by their number. -/
abbrev Batch := List ℕ

/-- Program points of `Worker._loop` and `Worker._process`. -/
inductive WorkerPc where
  /-- `while not self._stop.is_set()` -/
  | test
  /-- `self._has_work.wait(timeout=0.1)` -/
  | wait
  /-- `self._has_work.clear()` -/
  | clear
  /-- `if not self._batch_queue: break`, else `self._batch_queue.pop(0)` -/
  | pop
  /-- `for task in batch: task.mark_processing()` -/
  | marking (batch rest : Batch)
  /-- `config.failure_rate > 0` -/
  | rate (batch : Batch)
  /-- `random.random() < config.failure_rate` -/
  | draw (batch : Batch)
  /-- `for task in batch: task.mark_failed(error_msg)` -/
  | failing (batch rest : Batch)
  /-- `time.sleep(total_ms / 1000.0)` -/
  | sleep (batch : Batch)
  /-- the loop of `mark_done` and `mark_failed` -/
  | finishing (batch rest : Batch)
  /-- `self._processed += len(batch)` -/
  | count (batch : Batch)
  | exited
deriving DecidableEq, Repr

/-- A worker; `finished` records the batches that `_process` has returned from. -/
structure Worker where
  queue : List Batch := []
  hasWork : Bool := false
  stop : Bool := false
  processed : ℕ := 0
  pc : WorkerPc := .test
  finished : List Batch := []
deriving DecidableEq, Repr

/-- Program points of `WorkerPool.submit`. -/
inductive SubmitPc where
  | idle
  /-- `for task in batch: task.mark_failed("no workers available")` -/
  | refuse (rest : Batch)
  /-- `[w for w in self._workers if not w.busy()]`, with the workers still to ask -/
  | scan (batch : Batch) (left idle : List ℕ)
  /-- `worker = pool[self._rr_index % len(pool)]` -/
  | pick (batch : Batch) (pool : List ℕ)
  /-- `self._batch_queue.append(batch)` -/
  | append (batch : Batch) (w : ℕ)
  /-- `self._has_work.set()` -/
  | wake (w : ℕ)
deriving DecidableEq, Repr

/-- The pool with the tasks it works on.  `submitted` records the batches of all calls of `submit`,
`log` those that were appended, each with its worker. -/
structure Sys where
  size : ℕ
  workers : ℕ → Worker
  rrIndex : ℕ
  submit : SubmitPc
  created : ℕ
  tasks : ℕ → Task
  failureRate : ℚ
  mono : ℤ
  wall : ℤ
  submitted : List Batch
  log : List (ℕ × Batch)

inductive Event where
  /-- time passes; the wall clock may be set to anything -/
  | tick (elapsed : ℕ) (wall : ℤ)
  /-- somebody creates a task -/
  | create (t : Task)
  /-- somebody calls a method of a task -/
  | task (i : ℕ) (m : Task.Method)
  /-- `config.update(failure_rate=…)` -/
  | failureRate (rate : ℚ)
  /-- the scheduler thread calls `submit` -/
  | submit (batch : Batch)
  /-- the scheduler thread executes its next statement in `submit` -/
  | submitter
  /-- `w.stop`: `self._stop.set()` -/
  | stop (w : ℕ)
  /-- `w.stop`: `self._has_work.set()` -/
  | stopWake (w : ℕ)
  /-- worker `w` executes a statement; `random` is what `random.random()` returns -/
  | worker (w : ℕ) (timeout : Bool) (random : ℚ)
deriving DecidableEq, Repr

/-! ## The statements -/

/-- What the worker does with a task: the `try` of `_process`. -/
def result (py : Interpreter) (w : ℕ) (t : Task) : Task.Method :=
  match square py ((t.inputData.get? "x").getD (.int 0)) with
  | .ok prediction => .markDone (.obj [("prediction", prediction), ("worker_id", .int w)])
  | .error e => .markFailed e.text none

def injectedError (w : ℕ) : String := "Worker-" ++ toString w ++ ": injected failure"

/-- One statement of worker `w`, with the method it calls. -/
def Worker.advance (py : Interpreter) (w : ℕ) (rate : ℚ) (tasks : ℕ → Task) (timeout : Bool)
    (random : ℚ) (x : Worker) : Option (Worker × Option (ℕ × Task.Method)) :=
  match x.pc with
  | .test => some ({ x with pc := if x.stop then .exited else .wait }, none)
  | .wait => if x.hasWork || timeout then some ({ x with pc := .clear }, none) else none
  | .clear => some ({ x with hasWork := false, pc := .pop }, none)
  | .pop => match x.queue with
    | [] => some ({ x with pc := .test }, none)
    | b :: rest => some ({ x with queue := rest, pc := .marking b b }, none)
  | .marking b [] => some ({ x with pc := .rate b }, none)
  | .marking b (i :: rest) => some ({ x with pc := .marking b rest }, some (i, .markProcessing))
  | .rate b => some ({ x with pc := if 0 < rate then .draw b else .sleep b }, none)
  | .draw b => some ({ x with pc := if random < rate then .failing b b else .sleep b }, none)
  | .failing b [] => some ({ x with pc := .pop, finished := x.finished ++ [b] }, none)
  | .failing b (i :: rest) =>
    some ({ x with pc := .failing b rest }, some (i, .markFailed (injectedError w) none))
  | .sleep b => some ({ x with pc := .finishing b b }, none)
  | .finishing b [] => some ({ x with pc := .count b }, none)
  | .finishing b (i :: rest) =>
    some ({ x with pc := .finishing b rest }, some (i, result py w (tasks i)))
  | .count b => some ({ x with processed := x.processed + b.length, pc := .pop,
                               finished := x.finished ++ [b] }, none)
  | .exited => none

/-- A method of a task, as its lock makes it appear. -/
def Sys.call (s : Sys) (c : Option (ℕ × Task.Method)) : Sys :=
  match c with
  | none => s
  | some (i, m) =>
    { s with tasks := Function.update s.tasks i ((s.tasks i).call m s.mono s.wall) }

def Sys.setWorker (s : Sys) (w : ℕ) (x : Worker) : Sys :=
  { s with workers := Function.update s.workers w x }

/-- One statement of `submit`. -/
def Sys.submitter (s : Sys) : Option Sys :=
  match s.submit with
  | .idle => none
  | .refuse [] => some { s with submit := .idle }
  | .refuse (i :: rest) =>
    some { s.call (some (i, .markFailed "no workers available" none)) with submit := .refuse rest }
  | .scan b (w :: left) idle => some { s with
      submit := .scan b left (if (s.workers w).queue.isEmpty then idle ++ [w] else idle) }
  | .scan b [] idle =>
    some { s with submit := .pick b (if idle.isEmpty then List.range s.size else idle) }
  | .pick b pool => (pool[s.rrIndex % pool.length]?).map fun w =>
      { s with rrIndex := s.rrIndex + 1, submit := .append b w }
  | .append b w => some { s.setWorker w { s.workers w with queue := (s.workers w).queue ++ [b] } with
      submit := .wake w, log := s.log ++ [(w, b)] }
  | .wake w => some { s.setWorker w { s.workers w with hasWork := true } with submit := .idle }

def Sys.step (py : Interpreter) (s : Sys) : Event → Option Sys
  | .tick d wall => some { s with mono := s.mono + d, wall := wall }
  | .create t =>
    if t.status = .pending then
      some { s with created := s.created + 1, tasks := Function.update s.tasks s.created t }
    else none
  | .task i m => some (s.call (some (i, m)))
  | .failureRate rate => some { s with failureRate := rate }
  | .submit b =>
    if s.submit = .idle ∧ ∀ i ∈ b, i < s.created then
      some { s with submitted := s.submitted ++ [b]
                    submit := if s.size = 0 then .refuse b else .scan b (List.range s.size) [] }
    else none
  | .submitter => s.submitter
  | .stop w => some (s.setWorker w { s.workers w with stop := true })
  | .stopWake w => some (s.setWorker w { s.workers w with hasWork := true })
  | .worker w timeout random =>
    if w < s.size then
      ((s.workers w).advance py w s.failureRate s.tasks timeout random).map fun r =>
        (s.setWorker w r.1).call r.2
    else none

/-- A pool that has just been started. -/
structure Sys.Init (s : Sys) : Prop where
  workers : ∀ w, s.workers w = {}
  submit : s.submit = .idle
  tasks : ∀ i, (s.tasks i).status = .pending
  submitted : s.submitted = []
  log : s.log = []

/-! ## What is kept -/

/-- The batch in `_process`. -/
def WorkerPc.current : WorkerPc → List Batch
  | .marking b _ | .rate b | .draw b | .failing b _ | .sleep b | .finishing b _ | .count b => [b]
  | _ => []

/-- The batch that `submit` has not appended yet. -/
def SubmitPc.holding : SubmitPc → List Batch
  | .scan b _ _ | .pick b _ | .append b _ => [b]
  | _ => []

/-- The tasks that `submit` has yet to fail. -/
def SubmitPc.refusing : SubmitPc → Batch
  | .refuse rest => rest
  | _ => []

/-- What `submit` knows of its lists of workers. -/
def SubmitPc.Ok (size : ℕ) : SubmitPc → Prop
  | .idle => True
  | .refuse _ => size = 0
  | .scan _ left found => size ≠ 0 ∧ (∀ w ∈ left, w < size) ∧ ∀ w ∈ found, w < size
  | .pick _ pool => pool ≠ [] ∧ ∀ w ∈ pool, w < size
  | .append _ w | .wake w => w < size

/-- All batches of a worker in the order in which it works on them. -/
def Worker.batches (x : Worker) : List Batch := x.finished ++ (x.pc.current ++ x.queue)

/-- The batches appended to worker `w`. -/
def Sys.routed (s : Sys) (w : ℕ) : List Batch := (s.log.filter fun e => e.1 = w).map Prod.snd

/-- The worker is about to wait or has gone. -/
def WorkerPc.asleep : WorkerPc → Bool
  | .test | .wait | .exited => true
  | _ => false

/-- A worker that sleeps over its queue has been told of it. -/
def Worker.Told (x : Worker) : Prop :=
  x.pc.asleep = true → x.hasWork = false → x.queue = []

def WorkerPc.Ok (ended : ℕ → Prop) : WorkerPc → Prop
  | .failing b rest | .finishing b rest => rest ⊆ b ∧ ∀ i ∈ b, ended i ∨ i ∈ rest
  | .count b => ∀ i ∈ b, ended i
  | _ => True

/-- The batches worked on have ended as far as `_process` has come. -/
structure Worker.Ok (ended : ℕ → Prop) (x : Worker) : Prop where
  pc : x.pc.Ok ended
  finished : ∀ b ∈ x.finished, ∀ i ∈ b, ended i

def Ended (tasks : ℕ → Task) (i : ℕ) : Prop := (tasks i).terminal = true

structure Sys.Inv (s : Sys) : Prop where
  route : s.size ≠ 0 → s.submitted = s.log.map Prod.snd ++ s.submit.holding
  refused : s.size = 0 → s.log = [] ∧
    ∀ b ∈ s.submitted, ∀ i ∈ b, Ended s.tasks i ∨ i ∈ s.submit.refusing
  submit : s.submit.Ok s.size
  log : ∀ e ∈ s.log, e.1 < s.size
  fifo : ∀ w, s.routed w = (s.workers w).batches
  told : ∀ w, s.submit ≠ .wake w → (s.workers w).Told
  ok : ∀ w, (s.workers w).Ok (Ended s.tasks)
  created : ∀ b ∈ s.submitted, ∀ i ∈ b, i < s.created

/-! ### One statement of a worker -/

section Advance

variable {py : Interpreter} {w : ℕ} {rate random : ℚ} {tasks : ℕ → Task} {timeout : Bool}
  {x x' : Worker} {c : Option (ℕ × Task.Method)}

/-- The method ends the task. -/
def ends : Task.Method → Bool
  | .markDone _ | .markFailed _ _ => true
  | _ => false

theorem call_terminal {m : Task.Method} (hm : ends m = true) (t : Task) (mono wall : ℤ) :
    (t.call m mono wall).terminal = true := by
  cases m with
  | markDone r => exact Task.markDone_terminal t wall r
  | markFailed e code => exact Task.markFailed_terminal t wall e code
  | markProcessing | tryReserveRetry => cases hm

theorem ends_result (t : Task) : ends (result py w t) = true := by
  unfold result
  split <;> rfl

/-- **First in, first out.** -/
theorem advance_batches (h : x.advance py w rate tasks timeout random = some (x', c)) :
    x'.batches = x.batches := by
  cases hpc : x.pc with
  | exited => simp [Worker.advance, hpc] at h
  | wait =>
    simp only [Worker.advance, hpc] at h
    split at h
    · simp only [Option.some.injEq, Prod.mk.injEq] at h
      simp [← h.1, Worker.batches, hpc, WorkerPc.current]
    · cases h
  | pop =>
    simp only [Worker.advance, hpc] at h
    cases hq : x.queue with
    | nil =>
      simp only [hq, Option.some.injEq, Prod.mk.injEq] at h
      simp [← h.1, Worker.batches, hpc, hq, WorkerPc.current]
    | cons b rest =>
      simp only [hq, Option.some.injEq, Prod.mk.injEq] at h
      simp [← h.1, Worker.batches, hpc, hq, WorkerPc.current]
  | marking b rest | failing b rest | finishing b rest =>
    cases rest <;> simp only [Worker.advance, hpc, Option.some.injEq, Prod.mk.injEq] at h <;>
      simp [← h.1, Worker.batches, hpc, WorkerPc.current]
  | test | rate b | draw b =>
    simp only [Worker.advance, hpc, Option.some.injEq, Prod.mk.injEq] at h
    rw [← h.1]
    simp only [Worker.batches, hpc]
    split <;> rfl
  | clear | sleep b | count b =>
    simp only [Worker.advance, hpc, Option.some.injEq, Prod.mk.injEq] at h
    simp [← h.1, Worker.batches, hpc, WorkerPc.current]

/-- A worker goes to sleep over an empty queue only. -/
theorem advance_told (h : x.advance py w rate tasks timeout random = some (x', c))
    (htold : x.Told) : x'.Told := by
  intro hasleep hflag
  cases hpc : x.pc with
  | exited => simp [Worker.advance, hpc] at h
  | test =>
    simp only [Worker.advance, hpc, Option.some.injEq, Prod.mk.injEq] at h
    rw [← h.1] at hflag ⊢
    exact htold (by simp [hpc, WorkerPc.asleep]) hflag
  | wait =>
    simp only [Worker.advance, hpc] at h
    split at h
    · simp only [Option.some.injEq, Prod.mk.injEq] at h
      simp [← h.1, WorkerPc.asleep] at hasleep
    · cases h
  | pop =>
    simp only [Worker.advance, hpc] at h
    cases hq : x.queue with
    | nil =>
      simp only [hq, Option.some.injEq, Prod.mk.injEq] at h
      rw [← h.1]
    | cons b rest =>
      simp only [hq, Option.some.injEq, Prod.mk.injEq] at h
      simp [← h.1, WorkerPc.asleep] at hasleep
  | marking b rest | failing b rest | finishing b rest =>
    cases rest <;> simp only [Worker.advance, hpc, Option.some.injEq, Prod.mk.injEq] at h <;>
      simp [← h.1, WorkerPc.asleep] at hasleep
  | rate b | draw b =>
    simp only [Worker.advance, hpc, Option.some.injEq, Prod.mk.injEq] at h
    rw [← h.1] at hasleep
    simp only at hasleep
    split at hasleep <;> cases hasleep
  | clear | sleep b | count b =>
    simp only [Worker.advance, hpc, Option.some.injEq, Prod.mk.injEq] at h
    simp [← h.1, WorkerPc.asleep] at hasleep

/-- What has ended stays ended, and so does what the statement ends. -/
structure After (ended : ℕ → Prop) (c : Option (ℕ × Task.Method)) (ended' : ℕ → Prop) : Prop where
  mono : ∀ i, ended i → ended' i
  called : ∀ i m, c = some (i, m) → ends m = true → ended' i

theorem Worker.Ok.mono {ended ended' : ℕ → Prop} (h : x.Ok ended)
    (hm : ∀ b ∈ x.batches, ∀ i ∈ b, ended i → ended' i) : x.Ok ended' := by
  have hcurrent : ∀ b ∈ x.pc.current, ∀ i ∈ b, ended i → ended' i := fun b hb =>
    hm b (List.mem_append_right _ (List.mem_append_left _ hb))
  refine ⟨?_, fun b hb i hi => hm b (List.mem_append_left _ hb) i hi (h.finished b hb i hi)⟩
  have hpc := h.pc
  cases hx : x.pc <;> rw [hx] at hpc hcurrent <;> simp only [WorkerPc.Ok] at hpc ⊢
  case failing b rest | finishing b rest =>
    exact ⟨hpc.1, fun i hi => (hpc.2 i hi).imp_left (hcurrent b (List.mem_singleton_self b) i hi)⟩
  case count b => exact fun i hi => hcurrent b (List.mem_singleton_self b) i hi (hpc i hi)

theorem ended_of_rest {ended ended' : ℕ → Prop} {b rest : Batch} {i : ℕ} {m : Task.Method}
    (hrest : ∀ j ∈ b, ended j ∨ j ∈ i :: rest) (ha : After ended (some (i, m)) ended')
    (hm : ends m = true) : ∀ j ∈ b, ended' j ∨ j ∈ rest := by
  intro j hj
  rcases hrest j hj with hend | hmem
  · exact .inl (ha.mono j hend)
  · rcases List.mem_cons.mp hmem with rfl | hlater
    · exact .inl (ha.called j m rfl hm)
    · exact .inr hlater

/-- **`_process` ends every task of the batch.** -/
theorem advance_ok {ended ended' : ℕ → Prop}
    (h : x.advance py w rate tasks timeout random = some (x', c)) (hok : x.Ok ended)
    (ha : After ended c ended') : x'.Ok ended' := by
  have hold := hok.mono fun _ _ i _ => ha.mono i
  have hpc := hok.pc
  cases hx : x.pc with
  | exited => simp [Worker.advance, hx] at h
  | wait =>
    simp only [Worker.advance, hx] at h
    split at h
    · simp only [Option.some.injEq, Prod.mk.injEq] at h
      exact h.1 ▸ ⟨trivial, hold.finished⟩
    · cases h
  | pop =>
    simp only [Worker.advance, hx] at h
    cases hq : x.queue <;> simp only [hq, Option.some.injEq, Prod.mk.injEq] at h <;>
      exact h.1 ▸ ⟨trivial, hold.finished⟩
  | marking b rest =>
    cases rest <;> simp only [Worker.advance, hx, Option.some.injEq, Prod.mk.injEq] at h <;>
      exact h.1 ▸ ⟨trivial, hold.finished⟩
  | failing b rest =>
    rw [hx] at hpc
    cases rest with
    | nil =>
      simp only [Worker.advance, hx, Option.some.injEq, Prod.mk.injEq] at h
      refine h.1 ▸ ⟨trivial, fun b' hb' => ?_⟩
      rcases List.mem_append.mp hb' with hin | hin
      · exact hold.finished b' hin
      · obtain rfl := List.mem_singleton.mp hin
        exact fun i hi => ha.mono i ((hpc.2 i hi).resolve_right List.not_mem_nil)
    | cons i rest =>
      simp only [Worker.advance, hx, Option.some.injEq, Prod.mk.injEq] at h
      obtain ⟨rfl, rfl⟩ := h
      exact ⟨⟨fun j hj => hpc.1 (List.mem_cons_of_mem _ hj), ended_of_rest hpc.2 ha rfl⟩,
        hold.finished⟩
  | finishing b rest =>
    rw [hx] at hpc
    cases rest with
    | nil =>
      simp only [Worker.advance, hx, Option.some.injEq, Prod.mk.injEq] at h
      refine h.1 ▸ ⟨fun i hi => ?_, hold.finished⟩
      exact ha.mono i ((hpc.2 i hi).resolve_right List.not_mem_nil)
    | cons i rest =>
      simp only [Worker.advance, hx, Option.some.injEq, Prod.mk.injEq] at h
      obtain ⟨rfl, rfl⟩ := h
      exact ⟨⟨fun j hj => hpc.1 (List.mem_cons_of_mem _ hj),
        ended_of_rest hpc.2 ha (ends_result _)⟩, hold.finished⟩
  | sleep b =>
    simp only [Worker.advance, hx, Option.some.injEq, Prod.mk.injEq] at h
    exact h.1 ▸ ⟨⟨List.Subset.refl b, fun i hi => .inr hi⟩, hold.finished⟩
  | draw b =>
    simp only [Worker.advance, hx, Option.some.injEq, Prod.mk.injEq] at h
    refine h.1 ▸ ⟨?_, hold.finished⟩
    simp only
    split
    · exact ⟨List.Subset.refl b, fun i hi => .inr hi⟩
    · trivial
  | test | rate b =>
    simp only [Worker.advance, hx, Option.some.injEq, Prod.mk.injEq] at h
    refine h.1 ▸ ⟨?_, hold.finished⟩
    simp only
    split <;> trivial
  | clear =>
    simp only [Worker.advance, hx, Option.some.injEq, Prod.mk.injEq] at h
    exact h.1 ▸ ⟨trivial, hold.finished⟩
  | count b =>
    rw [hx] at hpc
    simp only [Worker.advance, hx, Option.some.injEq, Prod.mk.injEq] at h
    refine h.1 ▸ ⟨trivial, fun b' hb' => ?_⟩
    rcases List.mem_append.mp hb' with hin | hin
    · exact hold.finished b' hin
    · obtain rfl := List.mem_singleton.mp hin
      exact fun i hi => ha.mono i (hpc i hi)

/-- A worker ends a task while the batch of the task is in `_process`. -/
theorem advance_called {i : ℕ} {m : Task.Method}
    (h : x.advance py w rate tasks timeout random = some (x', some (i, m)))
    {ended : ℕ → Prop} (hok : x.Ok ended) (hm : ends m = true) :
    (m = .markFailed (injectedError w) none ∨ m = result py w (tasks i)) ∧
      ∃ b ∈ x.pc.current, i ∈ b := by
  have hpc := hok.pc
  cases hx : x.pc with
  | failing b rest =>
    rw [hx] at hpc
    cases rest with
    | nil => simp [Worker.advance, hx] at h
    | cons j rest =>
      simp only [Worker.advance, hx, Option.some.injEq, Prod.mk.injEq] at h
      obtain ⟨-, rfl, rfl⟩ := h
      exact ⟨.inl rfl, b, List.mem_singleton_self b, hpc.1 List.mem_cons_self⟩
  | finishing b rest =>
    rw [hx] at hpc
    cases rest with
    | nil => simp [Worker.advance, hx] at h
    | cons j rest =>
      simp only [Worker.advance, hx, Option.some.injEq, Prod.mk.injEq] at h
      obtain ⟨-, rfl, rfl⟩ := h
      exact ⟨.inr rfl, b, List.mem_singleton_self b, hpc.1 List.mem_cons_self⟩
  | marking b rest =>
    cases rest with
    | nil => simp [Worker.advance, hx] at h
    | cons j rest =>
      simp only [Worker.advance, hx, Option.some.injEq, Prod.mk.injEq] at h
      rw [← h.2.2] at hm
      cases hm
  | pop => cases hq : x.queue <;> simp [Worker.advance, hx, hq] at h
  | _ => simp [Worker.advance, hx] at h

end Advance

/-! ### One step of the pool -/

section Step

variable {py : Interpreter} {s t : Sys} {w : ℕ} {x : Worker} {c : Option (ℕ × Task.Method)}

@[simp] theorem call_size : (s.call c).size = s.size := by cases c <;> rfl

@[simp] theorem call_workers : (s.call c).workers = s.workers := by cases c <;> rfl

@[simp] theorem call_submit : (s.call c).submit = s.submit := by cases c <;> rfl

@[simp] theorem call_submitted : (s.call c).submitted = s.submitted := by cases c <;> rfl

@[simp] theorem call_log : (s.call c).log = s.log := by cases c <;> rfl

@[simp] theorem call_created : (s.call c).created = s.created := by cases c <;> rfl

theorem call_evolves (s : Sys) (c : Option (ℕ × Task.Method)) (i : ℕ) :
    Task.Evolves (s.tasks i) ((s.call c).tasks i) := by
  cases c with
  | none => exact .refl _
  | some e =>
    by_cases hi : i = e.1
    · subst hi
      simpa [Sys.call] using Task.call_evolves (s.tasks e.1) e.2 s.mono s.wall
    · simpa [Sys.call, Function.update_of_ne hi] using Task.Evolves.refl (s.tasks i)

theorem call_after (s : Sys) (c : Option (ℕ × Task.Method)) :
    After (Ended s.tasks) c (Ended (s.call c).tasks) where
  mono := fun i hi => (call_evolves s c i).terminal hi
  called := by
    rintro i m rfl hm
    simpa [Ended, Sys.call] using call_terminal hm (s.tasks i) s.mono s.wall

theorem Sys.Inv.batches_submitted (h : s.Inv) {b : Batch} (hb : b ∈ (s.workers w).batches) :
    b ∈ s.submitted ∧ (w, b) ∈ s.log := by
  rw [← h.fifo w] at hb
  obtain ⟨e, he, rfl⟩ := List.mem_map.mp hb
  obtain ⟨hlog, hw⟩ := List.mem_filter.mp he
  obtain rfl : e.1 = w := by simpa using hw
  have hne : s.size ≠ 0 := Nat.ne_of_gt (Nat.zero_lt_of_lt (h.log e hlog))
  rw [h.route hne]
  exact ⟨List.mem_append_left _ (List.mem_map_of_mem hlog), hlog⟩

/-- Whatever happens to the tasks and to the clocks, if what has ended stays ended. -/
theorem Sys.Inv.others (h : s.Inv) (hsize : t.size = s.size) (hworkers : t.workers = s.workers)
    (hsubmit : t.submit = s.submit) (hsubmitted : t.submitted = s.submitted) (hlog : t.log = s.log)
    (hcreated : s.created ≤ t.created)
    (hended : ∀ b ∈ s.submitted, ∀ i ∈ b, Ended s.tasks i → Ended t.tasks i) : t.Inv where
  route := by rw [hsize, hsubmitted, hlog, hsubmit]; exact h.route
  refused := fun h0 => by
    rw [hlog, hsubmitted, hsubmit]
    obtain ⟨hnil, hend⟩ := h.refused (hsize ▸ h0)
    exact ⟨hnil, fun b hb i hi => (hend b hb i hi).imp_left (hended b hb i hi)⟩
  submit := by rw [hsize, hsubmit]; exact h.submit
  log := by rw [hlog, hsize]; exact h.log
  fifo := fun w => by rw [hworkers, ← h.fifo w, Sys.routed, Sys.routed, hlog]
  told := fun w => by rw [hworkers, hsubmit]; exact h.told w
  ok := fun w => by
    rw [hworkers]
    exact (h.ok w).mono fun b hb => hended b (h.batches_submitted hb).1
  created := fun b hb i hi => (h.created b (hsubmitted ▸ hb) i hi).trans_le hcreated

theorem Sys.Inv.call (h : s.Inv) (c : Option (ℕ × Task.Method)) : (s.call c).Inv :=
  have hafter := call_after s c
  h.others call_size call_workers call_submit call_submitted call_log (by simp)
    fun _ _ i _ => hafter.mono i

/-- A worker is replaced by one with the same batches. -/
theorem Sys.Inv.setWorker (h : s.Inv) (hbatches : x.batches = (s.workers w).batches)
    (htold : s.submit ≠ .wake w → x.Told) (hok : x.Ok (Ended s.tasks)) : (s.setWorker w x).Inv where
  route := h.route
  refused := h.refused
  submit := h.submit
  log := h.log
  fifo := fun w' => by
    by_cases hw : w' = w
    · subst hw
      simpa [Sys.setWorker, Sys.routed, hbatches] using h.fifo w'
    · simpa [Sys.setWorker, Sys.routed, Function.update_of_ne hw] using h.fifo w'
  told := fun w' => by
    by_cases hw : w' = w
    · subst hw
      simpa [Sys.setWorker] using htold
    · simpa [Sys.setWorker, Function.update_of_ne hw] using h.told w'
  ok := fun w' => by
    by_cases hw : w' = w
    · subst hw
      simpa [Sys.setWorker] using hok
    · simpa [Sys.setWorker, Function.update_of_ne hw] using h.ok w'
  created := h.created

theorem Sys.Inv.worker (h : s.Inv) {timeout : Bool} {random : ℚ}
    (hx : (s.workers w).advance py w s.failureRate s.tasks timeout random = some (x, c)) :
    ((s.setWorker w x).call c).Inv := by
  -- the task is called first; the worker that follows knows that it has ended
  have hcalled : (s.call c).Inv := h.call c
  have hset : ((s.call c).setWorker w x).Inv := by
    refine hcalled.setWorker ?_ (fun hwake => ?_) ?_
    · rw [advance_batches hx, call_workers]
    · exact advance_told hx (h.told w (by simpa using hwake))
    · exact advance_ok hx (h.ok w) (call_after s c)
  have hcomm : (s.setWorker w x).call c = (s.call c).setWorker w x := by cases c <;> rfl
  exact hcomm ▸ hset

theorem routed_append (s : Sys) (w w' : ℕ) (b : Batch) :
    (({ s with log := s.log ++ [(w, b)] } : Sys)).routed w' =
      s.routed w' ++ if w = w' then [b] else [] := by
  by_cases hw : w = w' <;> simp [Sys.routed, hw]

/-- **Appending a batch.** -/
theorem Sys.Inv.append (h : s.Inv) {b : Batch} (hpc : s.submit = .append b w) :
    ({ s.setWorker w { s.workers w with queue := (s.workers w).queue ++ [b] } with
      submit := .wake w, log := s.log ++ [(w, b)] } : Sys).Inv := by
  have hw : w < s.size := by
    have := h.submit
    rw [hpc] at this
    exact this
  have hroute := h.route (by omega)
  rw [hpc] at hroute
  refine ⟨fun _ => by simpa [SubmitPc.holding, Sys.setWorker] using hroute, fun h0 => ?_, hw,
    fun e he => ?_, fun w' => ?_, fun w' hwake => ?_, fun w' => ?_, h.created⟩
  · simp only [Sys.setWorker] at h0
    omega
  · rcases List.mem_append.mp he with hold | hnew
    · exact h.log e hold
    · obtain rfl := List.mem_singleton.mp hnew
      exact hw
  · have hfifo := h.fifo w'
    have hrouted := routed_append s w w' b
    simp only [Sys.routed] at hrouted hfifo ⊢
    rw [hrouted, hfifo]
    by_cases hww : w' = w
    · subst hww
      simp [Sys.setWorker, Worker.batches]
    · simp [Sys.setWorker, Function.update_of_ne hww, Ne.symm hww]
  · have hww : w' ≠ w := fun heq => hwake (heq ▸ rfl)
    have htold := h.told w' (by rw [hpc]; simp)
    simpa [Sys.setWorker, Function.update_of_ne hww] using htold
  · by_cases hww : w' = w
    · subst hww
      simpa [Sys.setWorker] using (⟨(h.ok w').pc, (h.ok w').finished⟩ :
        Worker.Ok (Ended s.tasks) { s.workers w' with queue := (s.workers w').queue ++ [b] })
    · simpa [Sys.setWorker, Function.update_of_ne hww] using h.ok w'

/-- `submit` goes on with the batch it has. -/
theorem Sys.Inv.scanning (h : s.Inv) {pc : SubmitPc} {rr : ℕ} (hold : s.submit.holding = pc.holding)
    (hne : s.size ≠ 0) (hok : pc.Ok s.size) (hwake : ∀ w, s.submit ≠ .wake w) :
    ({ s with rrIndex := rr, submit := pc } : Sys).Inv where
  route := fun h0 => by rw [h.route h0, hold]
  refused := fun h0 => absurd h0 hne
  submit := hok
  log := h.log
  fifo := h.fifo
  told := fun w _ => h.told w (hwake w)
  ok := h.ok
  created := h.created

theorem Sys.Inv.submitter (h : s.Inv) (hs : s.submitter = some t) : t.Inv := by
  have hsubmit := h.submit
  cases hpc : s.submit with
  | idle => simp [Sys.submitter, hpc] at hs
  | refuse rest =>
    rw [hpc] at hsubmit
    cases rest with
    | nil =>
      simp only [Sys.submitter, hpc, Option.some.injEq] at hs
      subst hs
      refine ⟨fun h0 => absurd hsubmit h0, fun h0 => ?_, trivial, h.log, h.fifo,
        fun w _ => h.told w (by simp [hpc]), h.ok, h.created⟩
      have hend := h.refused h0
      rw [hpc] at hend
      exact hend
    | cons i rest =>
      simp only [Sys.submitter, hpc, Option.some.injEq] at hs
      subst hs
      have hcalled := h.call (some (i, .markFailed "no workers available" none))
      have hafter := call_after s (some (i, .markFailed "no workers available" none))
      have h0 : s.size = 0 := hsubmit
      refine ⟨fun hne => absurd h0 hne, fun h0 => ?_, h0, hcalled.log,
        hcalled.fifo, fun w _ => hcalled.told w (by simp [hpc]), hcalled.ok, hcalled.created⟩
      have hend := h.refused (by simpa using h0)
      rw [hpc] at hend
      exact ⟨hend.1, fun b hb => ended_of_rest (hend.2 b hb) hafter rfl⟩
  | scan b left found =>
    rw [hpc] at hsubmit
    obtain ⟨hne, hleft, hfound⟩ := hsubmit
    cases left with
    | nil =>
      simp only [Sys.submitter, hpc, Option.some.injEq] at hs
      subst hs
      refine h.scanning (by rw [hpc]; rfl) hne ⟨?_, fun w hw => ?_⟩ (by simp [hpc])
      · split
        · simpa [List.range_eq_nil] using hne
        next hsome => simpa using hsome
      · split at hw
        · exact List.mem_range.mp hw
        · exact hfound w hw
    | cons w left =>
      simp only [Sys.submitter, hpc, Option.some.injEq] at hs
      subst hs
      refine h.scanning (by rw [hpc]; rfl) hne
        ⟨hne, fun w' hw' => hleft w' (List.mem_cons_of_mem _ hw'), fun w' hw' => ?_⟩ (by simp [hpc])
      split at hw'
      · rcases List.mem_append.mp hw' with hin | hin
        · exact hfound w' hin
        · exact List.mem_singleton.mp hin ▸ hleft w List.mem_cons_self
      · exact hfound w' hw'
  | pick b pool =>
    rw [hpc] at hsubmit
    simp only [Sys.submitter, hpc] at hs
    obtain ⟨w, hw, rfl⟩ := Option.map_eq_some_iff.mp hs
    have hlt := hsubmit.2 w (List.mem_of_getElem? hw)
    exact h.scanning (by rw [hpc]; rfl) (by omega) hlt (by simp [hpc])
  | append b w =>
    simp only [Sys.submitter, hpc, Option.some.injEq] at hs
    exact hs ▸ h.append hpc
  | wake w =>
    rw [hpc] at hsubmit
    have hw : w < s.size := hsubmit
    simp only [Sys.submitter, hpc, Option.some.injEq] at hs
    subst hs
    have hset : (s.setWorker w { s.workers w with hasWork := true }).Inv :=
      h.setWorker rfl (fun hne => absurd hpc hne) ⟨(h.ok w).pc, (h.ok w).finished⟩
    refine ⟨fun h0 => ?_, fun h0 => ?_, trivial, hset.log, hset.fifo, fun w' _ => ?_,
      hset.ok, hset.created⟩
    · have hroute := hset.route h0
      simpa [Sys.setWorker, hpc, SubmitPc.holding] using hroute
    · simp only [Sys.setWorker] at h0
      omega
    · by_cases hww : w' = w
      · subst hww
        intro _ hflag
        simp [Sys.setWorker] at hflag
      · refine hset.told w' ?_
        simp only [Sys.setWorker, hpc]
        exact fun heq => hww (by simpa using heq.symm)

/-- **Step lemma.** -/
theorem Sys.Inv.step {e : Event} (h : s.Inv) (hs : Sys.step py s e = some t) : t.Inv := by
  cases e with
  | tick d wall | failureRate rate =>
    obtain rfl := Option.some.inj hs
    exact h.others rfl rfl rfl rfl rfl le_rfl fun _ _ _ _ hi => hi
  | create u =>
    simp only [Sys.step] at hs
    split at hs
    · obtain rfl := Option.some.inj hs
      refine h.others rfl rfl rfl rfl rfl (Nat.le_succ _) fun b hb i hi hend => ?_
      have hne : i ≠ s.created := (h.created b hb i hi).ne
      simpa [Ended, Function.update_of_ne hne] using hend
    · cases hs
  | task i m =>
    obtain rfl := Option.some.inj hs
    exact h.call _
  | submit b =>
    simp only [Sys.step] at hs
    split at hs
    next hidle =>
      obtain rfl := Option.some.inj hs
      obtain ⟨hpc, hcreated⟩ := hidle
      have hall : ∀ b' ∈ s.submitted ++ [b], ∀ i ∈ b', i < s.created := by
        intro b' hb'
        rcases List.mem_append.mp hb' with hin | hin
        · exact h.created b' hin
        · exact List.mem_singleton.mp hin ▸ hcreated
      refine ⟨fun h0 => ?_, fun h0 => ?_, ?_, h.log, h.fifo, fun w _ => h.told w (by simp [hpc]),
        h.ok, hall⟩
      · have hroute := h.route h0
        rw [hpc] at hroute
        simp only [if_neg h0, hroute, SubmitPc.holding, List.append_nil]
      · obtain ⟨hnil, hend⟩ := h.refused h0
        simp only [if_pos h0, SubmitPc.refusing]
        refine ⟨hnil, fun b' hb' i hi => ?_⟩
        rcases List.mem_append.mp hb' with hin | hin
        · have hrest := hend b' hin i hi
          rw [hpc] at hrest
          exact .inl (hrest.resolve_right List.not_mem_nil)
        · exact .inr (List.mem_singleton.mp hin ▸ hi)
      · dsimp only
        split
        next h0 => exact h0
        next h0 => exact ⟨h0, fun w hw => List.mem_range.mp hw, by simp⟩
    · cases hs
  | submitter => exact h.submitter hs
  | stop w =>
    obtain rfl := Option.some.inj hs
    exact h.setWorker rfl (fun hne => h.told w hne) ⟨(h.ok w).pc, (h.ok w).finished⟩
  | stopWake w =>
    obtain rfl := Option.some.inj hs
    exact h.setWorker rfl (fun _ _ hflag => by cases hflag) ⟨(h.ok w).pc, (h.ok w).finished⟩
  | worker w timeout random =>
    simp only [Sys.step] at hs
    split at hs
    · obtain ⟨⟨x, c⟩, hx, rfl⟩ := Option.map_eq_some_iff.mp hs
      exact h.worker hx
    · cases hs

theorem Sys.Init.inv (h : s.Init) : s.Inv where
  route := fun _ => by simp [h.submitted, h.log, h.submit, SubmitPc.holding]
  refused := fun _ => by simp [h.submitted, h.log]
  submit := by rw [h.submit]; trivial
  log := by simp [h.log]
  fifo := fun w => by simp [Sys.routed, h.log, h.workers, Worker.batches, WorkerPc.current]
  told := fun w _ => by simp [h.workers, Worker.Told]
  ok := fun w => ⟨by rw [h.workers]; trivial, by simp [h.workers]⟩
  created := by simp [h.submitted]

/-! ### Who ends a task -/

/-- A method with which the pool ends task `i`. -/
inductive Cause (py : Interpreter) (s : Sys) (i : ℕ) : Task.Method → Prop where
  /-- a worker that was given the task computes its result -/
  | computed (e : ℕ × Batch) (he : e ∈ s.log) (hi : i ∈ e.2) :
      Cause py s i (result py e.1 (s.tasks i))
  /-- the failure injection strikes the batch of the task -/
  | injected (e : ℕ × Batch) (he : e ∈ s.log) (hi : i ∈ e.2) :
      Cause py s i (.markFailed (injectedError e.1) none)
  /-- there is no worker -/
  | nobody (h0 : s.size = 0) : Cause py s i (.markFailed "no workers available" none)

/-- Whatever has ended was ended by the pool or as `O` allows others, and is as that left it. -/
def Caused (py : Interpreter) (O : ℕ → Task.Method → Prop) (s : Sys) : Prop :=
  ∀ i, Ended s.tasks i → ∃ m, (O i m ∨ Cause py s i m) ∧ Outcome m (s.tasks i)

/-- Others end tasks only as `O` allows. -/
def Event.Within (O : ℕ → Task.Method → Prop) : Event → Prop
  | .task i m => ends m = true → O i m
  | _ => True

variable {O : ℕ → Task.Method → Prop}

theorem ends_of_outcome {m : Task.Method} {u : Task} (h : Outcome m u) : ends m = true := by
  cases m with
  | markDone r | markFailed e code => rfl
  | markProcessing | tryReserveRetry => exact h.elim

theorem result_congr {u v : Task} (h : v.inputData = u.inputData) :
    result py w v = result py w u := by
  rw [result, result, h]

theorem Cause.later {i : ℕ} {m : Task.Method} (h : Cause py s i m) (hlog : s.log ⊆ t.log)
    (hsize : t.size = s.size) (hdata : (t.tasks i).inputData = (s.tasks i).inputData) :
    Cause py t i m := by
  cases h with
  | computed e he hi => exact result_congr hdata ▸ .computed e (hlog he) hi
  | injected e he hi => exact .injected e (hlog he) hi
  | nobody h0 => exact .nobody (hsize.trans h0)

theorem Caused.move (h : Caused py O s) (htasks : t.tasks = s.tasks) (hlog : s.log ⊆ t.log)
    (hsize : t.size = s.size) : Caused py O t := by
  intro i hend
  rw [htasks] at hend ⊢
  obtain ⟨m, hm, hout⟩ := h i hend
  exact ⟨m, hm.imp_right fun hcause => hcause.later hlog hsize (by rw [htasks]), hout⟩

theorem Caused.call (h : Caused py O s)
    (hc : ∀ i m, c = some (i, m) → ends m = true → O i m ∨ Cause py s i m) :
    Caused py O (s.call c) := by
  intro i hend
  have hev := call_evolves s c i
  have hlater : ∀ m, O i m ∨ Cause py s i m → O i m ∨ Cause py (s.call c) i m := fun m =>
    Or.imp_right fun hcause => hcause.later (by simp) (by simp) hev.inputData
  by_cases hbefore : Ended s.tasks i
  · obtain ⟨m, hm, hout⟩ := h i hbefore
    exact ⟨m, hlater m hm, hev.final hbefore ▸ hout⟩
  · cases c with
    | none => exact absurd hend hbefore
    | some a =>
      have hi : i = a.1 := by
        by_contra hne
        exact hbefore (by simpa [Ended, Sys.call, Function.update_of_ne hne] using hend)
      subst hi
      have hopen : (s.tasks a.1).terminal = false := Bool.eq_false_iff.mpr hbefore
      simp only [Ended, Sys.call, Function.update_self] at hend
      have hout := Handlers.call_outcome hopen hend
      refine ⟨a.2, hlater a.2 (hc a.1 a.2 rfl (ends_of_outcome hout)), ?_⟩
      simpa only [Sys.call, Function.update_self] using hout

theorem Caused.step {e : Event} (hinv : s.Inv) (hC : e.Within O) (h : Caused py O s)
    (hs : Sys.step py s e = some t) : Caused py O t := by
  cases e with
  | tick d wall | failureRate rate | stop w | stopWake w =>
    obtain rfl := Option.some.inj hs
    exact h.move rfl (List.Subset.refl _) rfl
  | create u =>
    simp only [Sys.step] at hs
    split at hs
    next hpending =>
      obtain rfl := Option.some.inj hs
      intro i hend
      by_cases hi : i = s.created
      · subst hi
        simp [Ended, Task.terminal, hpending, TaskStatus.terminal] at hend
      · simp only [Ended, Function.update_of_ne hi] at hend ⊢
        obtain ⟨m, hm, hout⟩ := h i hend
        refine ⟨m, hm.imp_right fun hcause => hcause.later (List.Subset.refl _) rfl ?_, hout⟩
        simp [Function.update_of_ne hi]
    · cases hs
  | task i m =>
    obtain rfl := Option.some.inj hs
    refine h.call ?_
    rintro j m' hm hends
    obtain ⟨rfl, rfl⟩ := Prod.mk.inj (Option.some.inj hm)
    exact .inl (hC hends)
  | submit b =>
    simp only [Sys.step] at hs
    split at hs
    · obtain rfl := Option.some.inj hs
      exact h.move rfl (List.Subset.refl _) rfl
    · cases hs
  | submitter =>
    simp only [Sys.step] at hs
    cases hpc : s.submit with
    | idle => simp [Sys.submitter, hpc] at hs
    | refuse rest =>
      have h0 : s.size = 0 := by
        have := hinv.submit
        rw [hpc] at this
        exact this
      cases rest <;> simp only [Sys.submitter, hpc, Option.some.injEq] at hs <;> subst hs
      · exact h.move rfl (List.Subset.refl _) rfl
      · refine Caused.move (Caused.call (c := some (_, .markFailed "no workers available" none)) h ?_)
          rfl (List.Subset.refl _) rfl
        rintro j m' hm -
        obtain ⟨rfl, rfl⟩ := Prod.mk.inj (Option.some.inj hm)
        exact .inr (.nobody h0)
    | scan b left found =>
      cases left <;> simp only [Sys.submitter, hpc, Option.some.injEq] at hs <;>
        exact hs ▸ h.move rfl (List.Subset.refl _) rfl
    | pick b pool =>
      simp only [Sys.submitter, hpc] at hs
      obtain ⟨w, -, rfl⟩ := Option.map_eq_some_iff.mp hs
      exact h.move rfl (List.Subset.refl _) rfl
    | append b w =>
      simp only [Sys.submitter, hpc, Option.some.injEq] at hs
      exact hs ▸ h.move rfl (List.subset_append_left _ _) rfl
    | wake w =>
      simp only [Sys.submitter, hpc, Option.some.injEq] at hs
      exact hs ▸ h.move rfl (List.Subset.refl _) rfl
  | worker w timeout random =>
    simp only [Sys.step] at hs
    split at hs
    · obtain ⟨⟨x, c⟩, hx, rfl⟩ := Option.map_eq_some_iff.mp hs
      refine Caused.call (s := s.setWorker w x) (h.move rfl (List.Subset.refl _) rfl) ?_
      rintro i m rfl hends
      obtain ⟨hm, b, hb, hi⟩ := advance_called hx (hinv.ok w) hends
      have hlog := (hinv.batches_submitted (w := w)
        (List.mem_append_right _ (List.mem_append_left _ hb))).2
      rcases hm with rfl | rfl
      · exact .inr (.injected (w, b) hlog hi)
      · exact .inr (.computed (w, b) hlog hi)
    · cases hs

theorem Sys.Init.caused (h : s.Init) : Caused py O s := by
  intro i hend
  simp [Ended, Task.terminal, h.tasks, TaskStatus.terminal] at hend

end Step

/-- **The pool serves every batch once.**  In every run in which others end tasks only as `O` allows:
each batch of a call of `submit` went to one worker, in the order of the calls (without a worker, its
tasks have failed); each worker works through the batches it was given in that order, so none is lost,
skipped or worked on twice; every task of a batch that `_process` has returned from has ended; a task
that has ended is as its own result, an injected failure or somebody else left it; and no worker sleeps
while it has a batch it has not been told of. -/
theorem pool_serves (py : Interpreter) (O : ℕ → Task.Method → Prop) {s₀ s : Sys} {es : List Event}
    (h₀ : s₀.Init) (hC : Meets (Sys.step py) (fun _ e => e.Within O) s₀ es)
    (h : exec (Sys.step py) s₀ es = some s) :
    (if s.size = 0 then s.log = [] ∧ ∀ b ∈ s.submitted, ∀ i ∈ b,
        Ended s.tasks i ∨ i ∈ s.submit.refusing
      else s.submitted = s.log.map Prod.snd ++ s.submit.holding) ∧
    (∀ e ∈ s.log, e.1 < s.size) ∧
    (∀ w, s.routed w =
      (s.workers w).finished ++ ((s.workers w).pc.current ++ (s.workers w).queue)) ∧
    (∀ w, ∀ b ∈ (s.workers w).finished, ∀ i ∈ b, Ended s.tasks i) ∧
    (∀ i, Ended s.tasks i → ∃ m, (O i m ∨ Cause py s i m) ∧ Outcome m (s.tasks i)) ∧
    (∀ w, s.submit ≠ .wake w → (s.workers w).pc.asleep = true → (s.workers w).hasWork = false →
      (s.workers w).queue = []) := by
  have hboth : s.Inv ∧ Caused py O s :=
    exec_inv_meets (P := fun s => s.Inv ∧ Caused py O s)
      (fun _ _ _ hC hP hs => ⟨hP.1.step hs, hP.2.step hP.1 hC hs⟩) hC ⟨h₀.inv, h₀.caused⟩ h
  obtain ⟨hinv, hcaused⟩ := hboth
  refine ⟨?_, hinv.log, hinv.fifo, fun w => (hinv.ok w).finished, hcaused, hinv.told⟩
  split
  next h0 => exact hinv.refused h0
  next h0 => exact hinv.route h0

/-- Two workers and nothing to do. -/
def idlePool : Sys where
  size := 2
  workers := fun _ => {}
  rrIndex := 0
  submit := .idle
  created := 0
  tasks := fun _ => { inputData := .null, taskId := "", creationTime := 0 }
  failureRate := 0
  mono := 0
  wall := 0
  submitted := []
  log := []

theorem idlePool_init : idlePool.Init := ⟨fun _ => rfl, rfl, fun _ => rfl, rfl, rfl⟩

def squareTask (x : ℤ) (taskId : String) : Task :=
  { inputData := .obj [("x", .int x)], taskId := taskId, creationTime := 0 }

/-- One task, from `submit` to the end of `_process`. -/
def squareRun : List Event :=
  [.create (squareTask 3 "a"), .submit [0]] ++ List.replicate 6 .submitter ++
    List.replicate 12 (.worker 0 false 0)

theorem pool_serves_square : ∃ s, exec (Sys.step plainInterpreter) idlePool squareRun = some s ∧
    s.log = [(0, [0])] ∧ (s.workers 0).finished = [[0]] ∧
    (s.tasks 0).result = .obj [("prediction", .int 9), ("worker_id", .int 0)] ∧
    s.submitted = s.log.map Prod.snd ++ s.submit.holding := by
  have hview : (exec (Sys.step plainInterpreter) idlePool squareRun).map (fun s =>
      (s.size, s.log, (s.workers 0).finished, (s.tasks 0).result)) =
      some (2, [(0, [0])], [[0]], .obj [("prediction", .int 9), ("worker_id", .int 0)]) := by
    decide +kernel
  obtain ⟨s, hs, hv⟩ := Option.map_eq_some_iff.mp hview
  simp only [Prod.mk.injEq] at hv
  obtain ⟨hsize, hlog, hfinished, hresult⟩ := hv
  have hwithin : ∀ e ∈ squareRun, ∀ _ : Sys, e.Within fun _ _ => False := by
    intro e he _
    simp only [squareRun, List.cons_append, List.nil_append, List.mem_cons, List.mem_append,
      List.mem_replicate] at he
    rcases he with rfl | rfl | ⟨-, rfl⟩ | ⟨-, rfl⟩ <;> trivial
  have hserves := (pool_serves plainInterpreter _ idlePool_init (meets_of_forall hwithin _) hs).1
  rw [if_neg (by omega)] at hserves
  exact ⟨s, hs, hlog, hfinished, hresult, hserves⟩

end Inference.Local
