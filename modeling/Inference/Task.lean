import Inference.Json

/-!
# Inference.Task — the task object of `system/task.py`

`Task` has every field of the dataclass.  Two levels:

* the methods as the lock makes them appear, one atomic change each (`markProcessing`, `markDone`,
  `markFailed`, `tryReserveRetry`, all instances of `call`); `Evolves` is what any number of them
  can do to a task;
* `Obj`: the object with its lock and the assignments the lock holder has still to make.  Readers
  do not take the lock, so they see every intermediate object.  `Obj.Wf` is kept by every step
  and says that the final status is the last thing written.

`Obj.Linear` connects the two: whenever the lock is free the object is the result of the atomic
methods called so far.  Clock readings are integers; `mono` is `time.monotonic()`, `wall` is
`time.time()`.
-/

namespace Inference

inductive TaskStatus where
  | pending
  | processing
  | done
  | failed
deriving DecidableEq, Repr

/-- `status in (DONE, FAILED)`. -/
def TaskStatus.terminal : TaskStatus → Bool
  | .done | .failed => true
  | .pending | .processing => false

structure Task where
  inputData : Json
  taskId : String
  creationTime : ℤ
  status : TaskStatus := .pending
  result : Json := .null
  error : Option String := none
  errorCode : Option String := none
  startTime : Option ℤ := none
  endTime : Option ℤ := none
  deadline : Option ℤ := none
  retryCount : ℕ := 0
deriving DecidableEq, Repr

namespace Task

/-- `status in (DONE, FAILED)`. -/
def terminal (t : Task) : Bool := t.status.terminal

/-- Remaining monotonic budget, `none` for an unbounded task. -/
def remainingSeconds (t : Task) (mono : ℤ) : Option ℤ := t.deadline.map fun d => max 0 (d - mono)

def isExpired (t : Task) (mono : ℤ) : Bool :=
  match t.remainingSeconds mono with
  | some r => decide (r ≤ 0)
  | none => false

/-- A method of the task with its arguments. -/
inductive Method where
  | markProcessing
  | markDone (result : Json)
  | markFailed (error : String) (errorCode : Option String)
  | tryReserveRetry
deriving DecidableEq, Repr

/-- One assignment to a field; `startTime` and `endTime` store `time.time()`. -/
inductive Write where
  | result (r : Json)
  | error (e : String)
  | errorCode (c : Option String)
  | startTime
  | endTime
  | status (st : TaskStatus)
  | retryCount
deriving DecidableEq, Repr

def Write.apply (wall : ℤ) (t : Task) : Write → Task
  | .result r => { t with result := r }
  | .error e => { t with error := some e }
  | .errorCode c => { t with errorCode := c }
  | .startTime => { t with startTime := some wall }
  | .endTime => { t with endTime := some wall }
  | .status st => { t with status := st }
  | .retryCount => { t with retryCount := t.retryCount + 1 }

/-- The assignments a method makes on the object it finds under the lock, in order. -/
def Method.body (t : Task) (mono : ℤ) : Method → List Write
  | .markProcessing =>
    if t.terminal then []
    else if t.startTime.isNone then [.startTime, .status .processing]
    else [.status .processing]
  | .markDone r => if t.terminal then [] else [.result r, .endTime, .status .done]
  | .markFailed e c =>
    if t.terminal then [] else [.error e, .errorCode c, .endTime, .status .failed]
  | .tryReserveRetry =>
    if t.terminal then []
    else if t.isExpired mono || decide (1 ≤ t.retryCount) then []
    else [.retryCount]

/-- A method as one atomic change. -/
def call (m : Method) (mono wall : ℤ) (t : Task) : Task :=
  (m.body t mono).foldl (Write.apply wall) t

def markProcessing (t : Task) (wall : ℤ) : Task := t.call .markProcessing 0 wall

def markDone (t : Task) (wall : ℤ) (result : Json) : Task := t.call (.markDone result) 0 wall

def markFailed (t : Task) (wall : ℤ) (error : String) (errorCode : Option String) : Task :=
  t.call (.markFailed error errorCode) 0 wall

/-- The answer and the task afterwards. -/
def tryReserveRetry (t : Task) (mono : ℤ) : Bool × Task :=
  (!(t.terminal || t.isExpired mono || decide (1 ≤ t.retryCount)), t.call .tryReserveRetry mono 0)

theorem isExpired_iff {t : Task} {mono : ℤ} :
    t.isExpired mono = true ↔ ∃ d, t.deadline = some d ∧ d ≤ mono := by
  unfold isExpired remainingSeconds
  cases t.deadline with
  | none => simp
  | some d => simp

/-! ## What the atomic methods can do -/

/-- `u` may follow `t`: identity and deadline stay, a terminal task stays as it is, and the retry
count does not shrink. -/
structure Evolves (t u : Task) : Prop where
  inputData : u.inputData = t.inputData
  taskId : u.taskId = t.taskId
  creationTime : u.creationTime = t.creationTime
  deadline : u.deadline = t.deadline
  retryCount : t.retryCount ≤ u.retryCount
  final : t.terminal = true → u = t

theorem Evolves.refl (t : Task) : Evolves t t := ⟨rfl, rfl, rfl, rfl, le_rfl, fun _ => rfl⟩

theorem Evolves.trans {t u v : Task} (h : Evolves t u) (h' : Evolves u v) : Evolves t v where
  inputData := h'.inputData.trans h.inputData
  taskId := h'.taskId.trans h.taskId
  creationTime := h'.creationTime.trans h.creationTime
  deadline := h'.deadline.trans h.deadline
  retryCount := h.retryCount.trans h'.retryCount
  final := fun ht => by
    obtain rfl := h.final ht
    exact h'.final ht

theorem Evolves.terminal {t u : Task} (h : Evolves t u) (ht : t.terminal = true) :
    u.terminal = true := by
  rw [h.final ht]
  exact ht

theorem body_of_terminal {t : Task} (ht : t.terminal = true) (mono : ℤ) (m : Method) :
    m.body t mono = [] := by
  cases m <;> simp [Method.body, ht]

theorem call_of_terminal {t : Task} (ht : t.terminal = true) (m : Method) (mono wall : ℤ) :
    t.call m mono wall = t := by
  simp [call, body_of_terminal ht]

theorem call_evolves (t : Task) (m : Method) (mono wall : ℤ) : Evolves t (t.call m mono wall) := by
  by_cases ht : t.terminal = true
  · rw [call_of_terminal ht]
    exact .refl t
  refine ⟨?_, ?_, ?_, ?_, ?_, fun h => absurd h ht⟩ <;> cases m <;>
    simp only [call, Method.body, ht, if_false, Bool.false_eq_true] <;> (try split) <;>
    simp [Write.apply]

theorem markFailed_of_open {t : Task} (ht : t.terminal = false) (wall : ℤ) (e : String)
    (c : Option String) : t.markFailed wall e c =
      { t with error := some e, errorCode := c, endTime := some wall, status := .failed } := by
  simp [markFailed, call, Method.body, ht, Write.apply]

theorem markDone_of_open {t : Task} (ht : t.terminal = false) (wall : ℤ) (r : Json) :
    t.markDone wall r = { t with result := r, endTime := some wall, status := .done } := by
  simp [markDone, call, Method.body, ht, Write.apply]

theorem markProcessing_of_open {t : Task} (ht : t.terminal = false) (wall : ℤ) :
    t.markProcessing wall =
      { t with startTime := t.startTime.or (some wall), status := .processing } := by
  cases hs : t.startTime <;> simp [markProcessing, call, Method.body, ht, Write.apply, hs]

@[simp] theorem markFailed_terminal (t : Task) (wall : ℤ) (e : String) (c : Option String) :
    (t.markFailed wall e c).terminal = true := by
  cases ht : t.terminal
  · rw [markFailed_of_open ht]; rfl
  · rwa [markFailed, call_of_terminal ht]

@[simp] theorem markDone_terminal (t : Task) (wall : ℤ) (r : Json) :
    (t.markDone wall r).terminal = true := by
  cases ht : t.terminal
  · rw [markDone_of_open ht]; rfl
  · rwa [markDone, call_of_terminal ht]

/-- Only a reservation moves the retry count. -/
theorem call_retryCount {t : Task} {m : Method} (hm : m ≠ .tryReserveRetry) (mono wall : ℤ) :
    (t.call m mono wall).retryCount = t.retryCount := by
  cases ht : t.terminal
  · cases m with
    | tryReserveRetry => exact absurd rfl hm
    | markProcessing =>
      simp only [call, Method.body, ht, Bool.false_eq_true, if_false]
      split <;> rfl
    | markDone r => simp only [call, Method.body, ht, Bool.false_eq_true, if_false]; rfl
    | markFailed e c => simp only [call, Method.body, ht, Bool.false_eq_true, if_false]; rfl
  · rw [call_of_terminal ht]

/-- Only `mark_done` ends a task as `DONE`, with its own value. -/
theorem call_done {u : Task} {m : Method} {mono wall : ℤ} (hu : u.status ≠ .done)
    (h : (u.call m mono wall).status = .done) :
    ∃ value, m = .markDone value ∧ (u.call m mono wall).result = value := by
  cases ht : u.terminal with
  | true =>
    rw [call_of_terminal ht] at h
    exact absurd h hu
  | false =>
    cases m with
    | markDone value =>
      exact ⟨value, rfl, by simp [call, Method.body, ht, Write.apply]⟩
    | markProcessing =>
      rw [show u.call .markProcessing mono wall = u.markProcessing wall from rfl,
        markProcessing_of_open ht] at h
      cases h
    | markFailed error code =>
      rw [show u.call (.markFailed error code) mono wall = u.markFailed wall error code from rfl,
        markFailed_of_open ht] at h
      cases h
    | tryReserveRetry =>
      have hstatus : (u.call .tryReserveRetry mono wall).status = u.status := by
        simp only [call, Method.body, ht, Bool.false_eq_true, if_false]
        split <;> rfl
      exact absurd (hstatus.symm.trans h) hu

/-- A granted reservation found the task open and unexpired and is the only one. -/
theorem tryReserveRetry_true {t : Task} {mono : ℤ} (h : (t.tryReserveRetry mono).1 = true) :
    t.terminal = false ∧ t.isExpired mono = false ∧ t.retryCount = 0 ∧
      (t.tryReserveRetry mono).2 = { t with retryCount := 1 } := by
  simp only [tryReserveRetry, Bool.not_eq_true', Bool.or_eq_false_iff, decide_eq_false_iff_not,
    not_le, Nat.lt_one_iff] at h
  obtain ⟨⟨h1, h2⟩, h3⟩ := h
  refine ⟨h1, h2, h3, ?_⟩
  simp [tryReserveRetry, call, Method.body, h1, h2, h3, Write.apply]

/-- A refused reservation changes nothing. -/
theorem tryReserveRetry_false {t : Task} {mono : ℤ} (h : (t.tryReserveRetry mono).1 = false) :
    (t.tryReserveRetry mono).2 = t := by
  simp only [tryReserveRetry, Bool.not_eq_false', Bool.or_eq_true] at h
  by_cases ht : t.terminal = true
  · exact call_of_terminal ht _ _ _
  · have : (t.isExpired mono || decide (1 ≤ t.retryCount)) = true := by
      simp only [Bool.or_eq_true]
      rcases h with (h | h) | h
      · exact absurd h ht
      · exact .inl h
      · exact .inr h
    simp [tryReserveRetry, call, Method.body, ht, this]

/-! ## The object and its lock -/

/-- Whoever can hold `Task._lock`: the HTTP handler that waits for the task, or any other actor. -/
inductive Actor where
  | handler
  | other (n : ℕ)
deriving DecidableEq, Repr

/-- The object as memory shows it, the lock holder with the method it runs, and what it has still
to assign. -/
structure Obj where
  task : Task
  owner : Option (Actor × Method) := none
  todo : List Write := []
deriving DecidableEq, Repr

namespace Obj

/-- Take the lock and run the method up to its first assignment. -/
def enter (o : Obj) (a : Actor) (m : Method) (mono : ℤ) : Option Obj :=
  if o.owner = none then some { o with owner := some (a, m), todo := m.body o.task mono }
  else none

/-- The lock holder makes its next assignment. -/
def assign (o : Obj) (wall : ℤ) : Option Obj :=
  match o.owner, o.todo with
  | some _, w :: rest => some { o with task := w.apply wall o.task, todo := rest }
  | _, _ => none

/-- The lock holder returns from its method. -/
def release (o : Obj) : Option Obj :=
  match o.owner, o.todo with
  | some _, [] => some { o with owner := none }
  | _, _ => none

end Obj

/-- The assignment makes the task terminal. -/
def Write.finishes : Write → Bool
  | .status st => st.terminal
  | _ => false

/-- A status that ends the task is the last assignment of the list. -/
def finishLast : List Write → Bool
  | [] => true
  | w :: rest => (!w.finishes || rest.isEmpty) && finishLast rest

/-- Retries the list of assignments will still count. -/
def retriesIn (ws : List Write) : ℕ := ws.count .retryCount

/-- The state of the object between two assignments of whoever holds the lock. -/
structure Obj.Wf (o : Obj) : Prop where
  free : o.owner = none → o.todo = []
  final : o.task.terminal = true → o.todo = []
  last : finishLast o.todo = true
  retry : o.task.retryCount + retriesIn o.todo ≤ 1

theorem body_finishLast (t : Task) (mono : ℤ) (m : Method) : finishLast (m.body t mono) = true := by
  cases m <;> simp only [Method.body] <;> repeat' split
  all_goals simp [finishLast, Write.finishes, TaskStatus.terminal]

theorem body_retries (t : Task) (mono : ℤ) (m : Method) (h : t.retryCount ≤ 1) :
    t.retryCount + retriesIn (m.body t mono) ≤ 1 := by
  have hr : ∀ ws : List Write, Write.retryCount ∉ ws → t.retryCount + retriesIn ws ≤ 1 :=
    fun ws hws => by simpa [retriesIn, List.count_eq_zero.mpr hws] using h
  cases m with
  | tryReserveRetry =>
    simp only [Method.body]
    split
    · exact hr [] (by simp)
    · split
      · exact hr [] (by simp)
      · rename_i hn
        simp only [Bool.or_eq_true, decide_eq_true_eq, not_or, not_le] at hn
        simp only [retriesIn, List.count_singleton_self]
        omega
  | markProcessing => exact hr _ (by simp only [Method.body]; repeat' split <;> simp)
  | markDone r => exact hr _ (by simp only [Method.body]; split <;> simp)
  | markFailed e c => exact hr _ (by simp only [Method.body]; split <;> simp)

namespace Obj

theorem Wf.enter {o o' : Obj} (h : o.Wf) {a : Actor} {m : Method} {mono : ℤ}
    (he : o.enter a m mono = some o') : o'.Wf := by
  unfold Obj.enter at he
  split at he
  · rename_i hfree
    obtain rfl := Option.some.inj he
    have hret : o.task.retryCount ≤ 1 := by have := h.retry; omega
    exact ⟨nofun, fun ht => body_of_terminal ht mono m, body_finishLast _ _ _,
      body_retries _ _ _ hret⟩
  · simp at he

/-- What one assignment finds: a lock holder with something left to write on an open task. -/
theorem assign_cases {o o' : Obj} {wall : ℤ} (h : o.assign wall = some o') :
    ∃ p w rest, o.owner = some p ∧ o.todo = w :: rest ∧
      o' = { o with task := w.apply wall o.task, todo := rest } := by
  unfold assign at h
  split at h
  · rename_i p w rest ho ht
    exact ⟨p, w, rest, ho, ht, (Option.some.inj h).symm⟩
  · simp at h

theorem Wf.assign {o o' : Obj} (h : o.Wf) {wall : ℤ} (ha : o.assign wall = some o') : o'.Wf := by
  obtain ⟨a, w, rest, ho, ht, rfl⟩ := assign_cases ha
  have hopen : o.task.terminal = false := by
    by_contra hc
    have := h.final (by simpa using hc)
    simp [ht] at this
  have hlast := h.last
  have hretry := h.retry
  rw [ht] at hlast hretry
  simp only [finishLast, Bool.and_eq_true, Bool.or_eq_true, Bool.not_eq_true',
    List.isEmpty_iff] at hlast
  refine ⟨fun hn => by simp [ho] at hn, fun hterm => ?_, hlast.2, ?_⟩
  · -- only a final status ends the task, and it is written last
    rcases hlast.1 with hf | hnil
    · cases w <;> simp_all [Write.apply, Task.terminal, Write.finishes]
    · exact hnil
  · cases w <;> simp_all [Write.apply, retriesIn]
    omega

theorem Wf.release {o o' : Obj} (h : o.Wf) (hr : o.release = some o') : o'.Wf := by
  unfold Obj.release at hr
  split at hr
  · rename_i a ho ht
    obtain rfl := Option.some.inj hr
    exact ⟨fun _ => ht, fun _ => ht, h.last, h.retry⟩
  · simp at hr

/-- **A terminal object is never assigned to again.** -/
theorem Wf.assign_terminal {o o' : Obj} (h : o.Wf) {wall : ℤ} (ht : o.task.terminal = true) :
    o.assign wall ≠ some o' := by
  intro ha
  obtain ⟨a, w, rest, -, htodo, -⟩ := assign_cases ha
  simp [h.final ht] at htodo

end Obj

/-! ## The lock makes the methods atomic -/

/-- `u` is what some sequence of atomic method calls makes of `t`. -/
inductive Calls (t : Task) : Task → Prop
  | nil : Calls t t
  | snoc {u : Task} (m : Method) (mono wall : ℤ) : Calls t u → Calls t (u.call m mono wall)

theorem Calls.evolves {t u : Task} (h : Calls t u) : Evolves t u := by
  induction h with
  | nil => exact .refl t
  | snoc m mono wall _ ih => exact ih.trans (call_evolves _ m mono wall)

/-- The assignment reads the wall clock. -/
def Write.stamps : Write → Bool
  | .startTime | .endTime => true
  | _ => false

theorem foldl_apply_wall {ws : List Write} (h : ∀ w ∈ ws, w.stamps = false) (wall wall' : ℤ)
    (t : Task) : ws.foldl (Write.apply wall) t = ws.foldl (Write.apply wall') t := by
  induction ws generalizing t with
  | nil => rfl
  | cons w ws ih =>
    have hw : w.apply wall t = w.apply wall' t := by
      cases w <;> simp_all [Write.stamps, Write.apply]
    rw [List.foldl_cons, List.foldl_cons, hw]
    exact ih (fun x hx => h x (List.mem_cons_of_mem _ hx)) _

theorem body_stampOnce (t : Task) (mono : ℤ) (m : Method) :
    (m.body t mono).countP Write.stamps ≤ 1 := by
  cases m <;> simp only [Method.body] <;> repeat' split
  all_goals simp [List.countP_cons, Write.stamps]

/-- The object is the outcome of atomic calls; while the lock is held, one more call is under way
and the assignments it has made so far are those of its body up to `todo`. -/
def Obj.Linear (t₀ : Task) (o : Obj) : Prop :=
  (o.owner = none → Calls t₀ o.task) ∧
  (∀ a m, o.owner = some (a, m) → ∃ u mono wall ws, Calls t₀ u ∧ m.body u mono = ws ++ o.todo ∧
    o.task = ws.foldl (Write.apply wall) u)

namespace Obj

theorem Linear.enter {t₀ : Task} {o o' : Obj} (h : o.Linear t₀) {a : Actor} {m : Method} {mono : ℤ}
    (he : o.enter a m mono = some o') : o'.Linear t₀ := by
  unfold Obj.enter at he
  split at he
  · rename_i hfree
    obtain rfl := Option.some.inj he
    refine ⟨nofun, fun b m' hb => ?_⟩
    obtain ⟨rfl, rfl⟩ := Prod.mk.inj (Option.some.inj hb)
    exact ⟨o.task, mono, 0, [], h.1 hfree, rfl, rfl⟩
  · simp at he

/-- One assignment is one more step of the body of the running method, which found the task
open. -/
theorem Linear.assign_body {t₀ : Task} {o o' : Obj} (h : o.Linear t₀) {wall : ℤ} {a : Actor}
    {m : Method} (ho : o.owner = some (a, m)) (ha : o.assign wall = some o') :
    ∃ u mono wall' ws, Calls t₀ u ∧ u.terminal = false ∧ m.body u mono = ws ++ o'.todo ∧
      o'.task = ws.foldl (Write.apply wall') u := by
  obtain ⟨p, w, rest, -, ht, rfl⟩ := assign_cases ha
  obtain ⟨u, mono, wall₀, ws, hu, hbody, htask⟩ := h.2 a m ho
  rw [ht] at hbody
  have hopen : u.terminal = false := by
    by_contra hc
    have := body_of_terminal (by simpa using hc) mono m
    simp [hbody] at this
  have hbody' : m.body u mono = (ws ++ [w]) ++ rest := by simp [hbody]
  by_cases hw : w.stamps = true
  · -- the one clock reading of the body: no earlier assignment depends on the clock
    have hnone : ∀ x ∈ ws, x.stamps = false := by
      have hcount := body_stampOnce u mono m
      rw [hbody, List.countP_append, List.countP_cons_of_pos hw] at hcount
      intro x hx
      by_contra hxs
      have : 0 < ws.countP Write.stamps := List.countP_pos_iff.mpr ⟨x, hx, by simpa using hxs⟩
      omega
    refine ⟨u, mono, wall, ws ++ [w], hu, hopen, hbody', ?_⟩
    simp only [List.foldl_append, List.foldl_cons, List.foldl_nil]
    rw [htask, foldl_apply_wall hnone wall₀ wall]
  · refine ⟨u, mono, wall₀, ws ++ [w], hu, hopen, hbody', ?_⟩
    simp only [List.foldl_append, List.foldl_cons, List.foldl_nil]
    rw [← htask]
    cases w <;> simp_all [Write.stamps, Write.apply]

theorem Linear.assign {t₀ : Task} {o o' : Obj} (h : o.Linear t₀) {wall : ℤ}
    (ha : o.assign wall = some o') : o'.Linear t₀ := by
  obtain ⟨p, w, rest, ho, -, ho'⟩ := assign_cases ha
  refine ⟨fun hn => by simp [ho', ho] at hn, fun a m hb => ?_⟩
  obtain ⟨u, mono, wall', ws, hu, -, hbody, htask⟩ := h.assign_body (by simpa [ho'] using hb) ha
  exact ⟨u, mono, wall', ws, hu, hbody, htask⟩

/-- Once the running method has made its last assignment it is one more atomic call. -/
theorem Linear.last_call {t₀ : Task} {o : Obj} (h : o.Linear t₀) {a : Actor} {m : Method}
    (ho : o.owner = some (a, m)) (ht : o.todo = []) :
    ∃ u mono wall, Calls t₀ u ∧ o.task = u.call m mono wall := by
  obtain ⟨u, mono, wall, ws, hu, hbody, htask⟩ := h.2 a m ho
  rw [ht, List.append_nil] at hbody
  exact ⟨u, mono, wall, hu, by rw [htask, call, hbody]⟩

theorem Linear.calls_of_done {t₀ : Task} {o : Obj} (h : o.Linear t₀) (ht : o.todo = []) :
    Calls t₀ o.task := by
  cases ho : o.owner with
  | none => exact h.1 ho
  | some p =>
    obtain ⟨u, mono, wall, hu, htask⟩ := h.last_call ho ht
    exact htask ▸ .snoc p.2 mono wall hu

/-- **Linearisation.**  When the lock is released the object is again the outcome of atomic
calls, the finished method being the last of them. -/
theorem Linear.release {t₀ : Task} {o o' : Obj} (h : o.Linear t₀) (hr : o.release = some o') :
    o'.Linear t₀ := by
  unfold Obj.release at hr
  split at hr
  · rename_i p ho ht
    obtain rfl := Option.some.inj hr
    exact ⟨fun _ => h.calls_of_done ht, nofun⟩
  · simp at hr

end Obj

end Task

end Inference
