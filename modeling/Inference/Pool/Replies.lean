import Inference.Servicer
import Inference.Pool.Retry

/-!
# Inference.Pool.Replies — the pool and the workers it calls

`GrpcWorkerPool` on one side, `WorkerServicer` on the other: every response that reaches a proxy is
what its worker computes for a request with the IDs and the inputs of the batch.  The workers share
nothing, their clocks, settings and gates are arbitrary, and any of them may answer late, after a
handoff, or not at all.

* `Responds`: a response of a worker to a batch.
* `Right`: the value a worker has for an input.
* `Sys.Backed`: what is stored is right, and so is what the reconciliations have still to store.
* **`results_right`**: a task that is `DONE` holds the value that a worker it was sent to computed
  from its input.
-/

namespace Inference.Pool.Replies

open Inference.Lib Inference.Pool.Machine
open Inference.Servicer (Interpreter Backend Settings Readings TaskRequest)

/-- The text of a value. -/
def textOf (v : Json) : String := String.ofList (Json.print Json.defaultStyle v)

/-- What `json.loads` returns is what the text says; it may raise where it likes. -/
def Reads (repr : String → String) (loads : String → Except Exc Json) : Prop :=
  ∀ text v, loads text = .ok v → Json.loads repr text = some v

/-- What `json.dumps` returns is the text of the value. -/
def Writes (dumps : Json → Except Exc String) : Prop := ∀ v text, dumps v = .ok text → text = textOf v

/-- A worker process. -/
structure Worker (τ ν : Type) where
  /-- `self.worker_id` -/
  id : ℤ
  py : Interpreter
  /-- `self.backend` -/
  backend : Option (Backend τ ν)

/-- A worker whose interpreter treats JSON and floats as Python does. -/
structure Worker.Sound {τ ν : Type} (repr : String → String) (w : Worker τ ν) : Prop where
  reads : Reads repr w.py.loads
  writes : Writes w.py.dumps
  floats : ∀ text, Json.isFloat repr text = true → Json.isFloat repr (w.py.squareFloat text) = true

variable {τ ν : Type}

/-- The requests that `_process` builds for a batch, whatever was left of the deadlines. -/
def Requests (tasks : ℕ → Task) (batch : List ℕ) (requests : List (TaskRequest τ)) : Prop :=
  List.Forall₂ (fun i t => t.taskId = (tasks i).taskId ∧ t.inputJson = textOf (tasks i).inputData)
    batch requests

section Simulation

variable [Add τ] [Sub τ] [Mul τ] [Div τ] [Zero τ] [NatCast τ] [OfScientific τ] [LE τ] [LT τ]
  [DecidableLE τ] [DecidableLT τ]

/-- A call of `ProcessBatch` on worker `w`. -/
def Responds (w : Worker τ ν) (tasks : ℕ → Task) (batch : List ℕ) (results : List TaskResult) :
    Prop :=
  ∃ (gate : Option Bool) (settings : Settings τ) (readings : Readings τ) (fuel : ℕ)
    (requests : List (TaskRequest τ)), Requests tasks batch requests ∧
      Servicer.processBatch w.py w.id w.backend gate settings readings fuel requests = some results

/-- The stub of proxy `p` returns what worker `p` answers. -/
def Honest (worker : ℕ → Worker τ ν) (s : Sys) : Machine.Event → Prop
  | .act who o => ∀ p batch k results, s.points who = .process p (.inflight batch) k →
      o = .response results → Responds (worker p) s.tasks batch results
  | _ => True

end Simulation

/-- The value of an input: `x²` with the ID of the worker, or what the backend returned for it. -/
def Right (cfg : Config) (w : Worker τ ν) (data value : Json) : Prop :=
  match w.backend with
  | none => ∃ prediction, Servicer.square w.py ((data.get? "x").getD (.int 0)) = .ok prediction ∧
      value = .obj [("prediction", prediction), ("worker_id", .int w.id)]
  | some b => ∃ k deadline out text, b.process k data deadline = .ok out ∧ b.dumps out = some text ∧
      cfg.loads text = .ok value

/-! ## One response -/

section Response

variable {repr : String → String} {cfg : Config} {w : Worker τ ν}

/-- What went through both texts. -/
theorem Reads.textOf {loads : String → Except Exc Json} (hr : Reads repr loads) {v u : Json}
    (hv : v.proper repr = true) (h : loads (textOf v) = .ok u) : u = v := by
  have hu := hr _ _ h
  rw [Replies.textOf, Json.loads_print_proper _ _ hv] at hu
  exact (Option.some.inj hu).symm

theorem Worker.Sound.square_proper (hw : w.Sound repr) {x y : Json} (hx : x.proper repr = true)
    (h : Servicer.square w.py x = .ok y) : y.proper repr = true := by
  cases x with
  | int n =>
    cases h
    simp [Json.proper]
  | bool b =>
    cases h
    simp [Json.proper]
  | float text =>
    cases h
    rw [Json.proper] at hx ⊢
    exact hw.floats _ hx
  | null | str _ | arr _ | obj _ => cases h

theorem properFields_lookup {fields : List (String × Json)} {key : String} {v : Json}
    (h : Json.properFields repr fields = true) (hv : fields.lookup key = some v) :
    v.proper repr = true := by
  induction fields with
  | nil => simp at hv
  | cons f fields ih =>
    obtain ⟨k, x⟩ := f
    rw [Json.properFields, Bool.and_eq_true] at h
    rw [List.lookup_cons] at hv
    split at hv
    · cases hv
      exact h.1
    · exact ih h.2 hv

/-- The `x` of a proper input. -/
theorem input_proper {data : Json} (h : data.proper repr = true) :
    ((data.get? "x").getD (.int 0)).proper repr = true := by
  cases hx : data.get? "x" with
  | none => simp [Json.proper]
  | some x =>
    cases data with
    | obj fields =>
      rw [Json.proper, Bool.and_eq_true] at h
      exact properFields_lookup h.2 hx
    | null | bool _ | int _ | float _ | str _ | arr _ => cases hx

theorem predict_ok {py : Interpreter} {workerId : ℤ} {input text : String}
    (h : Servicer.predict py workerId input = .ok text) : ∃ data prediction,
      py.loads input = .ok data ∧
      Servicer.square py ((data.get? "x").getD (.int 0)) = .ok prediction ∧
      py.dumps (.obj [("prediction", prediction), ("worker_id", .int workerId)]) = .ok text := by
  unfold Servicer.predict at h
  cases hd : py.loads input with
  | error e =>
    rw [hd] at h
    cases h
  | ok data =>
    rw [hd] at h
    cases hp : Servicer.square py ((data.get? "x").getD (.int 0)) with
    | error e =>
      replace h : (Servicer.square py ((data.get? "x").getD (.int 0)) >>= fun prediction =>
        py.dumps (.obj [("prediction", prediction), ("worker_id", .int workerId)])) = .ok text := h
      rw [hp] at h
      cases h
    | ok prediction =>
      replace h : (Servicer.square py ((data.get? "x").getD (.int 0)) >>= fun prediction =>
        py.dumps (.obj [("prediction", prediction), ("worker_id", .int workerId)])) = .ok text := h
      rw [hp] at h
      exact ⟨data, prediction, rfl, hp, h⟩

/-- A success of the simulation, read back. -/
theorem computed_right (hw : w.Sound repr) (hc : Reads repr cfg.loads) (hb : w.backend = none)
    {t : TaskRequest τ} {data value : Json} (hdata : data.proper repr = true)
    (ht : t.inputJson = textOf data) (hs : (Servicer.computed w.py w.id t).success = true)
    (hl : cfg.loads (Servicer.computed w.py w.id t).resultJson = .ok value) :
    Right cfg w data value := by
  unfold Servicer.computed at hs hl
  split at hs
  next text hok =>
    rw [hok] at hl
    obtain ⟨data', prediction, hd, hp, htext⟩ := predict_ok hok
    rw [ht] at hd
    obtain rfl := hw.reads.textOf hdata hd
    have hproper : (Json.obj [("prediction", prediction), ("worker_id", .int w.id)]).proper repr =
        true := by
      simp [Json.proper, Json.properFields, hw.square_proper (input_proper hdata) hp]
    rw [hw.writes _ _ htext] at hl
    rw [Right, hb]
    exact ⟨prediction, hp, hc.textOf hproper hl⟩
  next => cases hs

/-- A success of the backend, read back. -/
theorem backendResult_right [Add τ] (hw : w.Sound repr) {b : Backend τ ν} (hb : w.backend = some b)
    {received : τ} {k : ℕ} {t : TaskRequest τ} {data value : Json} (hdata : data.proper repr = true)
    (ht : t.inputJson = textOf data)
    (hs : (Servicer.backendResult w.py b received k t).success = true)
    (hl : cfg.loads (Servicer.backendResult w.py b received k t).resultJson = .ok value) :
    Right cfg w data value := by
  unfold Servicer.backendResult at hs hl
  rw [ht] at hs hl
  cases hd : w.py.loads (textOf data) with
  | error e =>
    rw [hd] at hs
    dsimp only at hs
    split at hs <;> cases hs
  | ok payload =>
    obtain rfl := hw.reads.textOf hdata hd
    rw [hd] at hs hl
    dsimp only at hs hl
    cases hp : b.process k payload (t.remainingSeconds.map (received + ·)) with
    | error e =>
      rw [hp] at hs
      cases e <;> cases hs
    | ok out =>
      rw [hp] at hs hl
      dsimp only at hs hl
      cases htext : b.dumps out with
      | none =>
        rw [htext] at hs
        cases hs
      | some text =>
        rw [htext] at hl
        rw [Right, hb]
        exact ⟨k, _, out, text, hp, htext, hl⟩

variable [Add τ] [Sub τ] [Mul τ] [Div τ] [Zero τ] [NatCast τ] [OfScientific τ] [LE τ] [LT τ]
  [DecidableLE τ] [DecidableLT τ] {tasks : ℕ → Task} {batch : List ℕ} {results : List TaskResult}

/-- Every success in a response is the computation of one of the requests. -/
theorem processBatch_success {backend : Option (Backend τ ν)} {gate : Option Bool}
    {settings : Settings τ} {readings : Readings τ} {fuel : ℕ} {requests : List (TaskRequest τ)}
    (h : Servicer.processBatch w.py w.id backend gate settings readings fuel requests = some results)
    {r : TaskResult} (hr : r ∈ results) (hs : r.success = true) :
    ∃ t ∈ requests, (backend = none ∧ r = Servicer.computed w.py w.id t) ∨
      ∃ b k, backend = some b ∧ r = Servicer.backendResult w.py b (readings.clock 0) k t := by
  unfold Servicer.processBatch at h
  split at h
  · obtain rfl := Option.some.inj h
    obtain ⟨t, -, rfl⟩ := List.mem_map.mp hr
    cases hs
  · split at h
    next b =>
      obtain rfl := Option.some.inj h
      obtain ⟨⟨t, k⟩, hmem, rfl⟩ := List.mem_map.mp hr
      exact ⟨t, (List.mem_zipIdx' hmem).2 ▸ List.getElem_mem _, .inr ⟨b, k, rfl, rfl⟩⟩
    next =>
      obtain ⟨reply, hreply, rfl⟩ := Option.map_eq_some_iff.mp h
      cases (Servicer.simulate_answers hreply).1.accounted r hr with
      | timedOut t ht j deadline hdeadline hj hpassed => cases hs
      | injected t ht => cases hs
      | computed t ht e j hend hj hin => exact ⟨t, ht, .inl ⟨rfl, rfl⟩⟩

/-- **A response is right.**  Whichever task of the batch a success names gets the value of its own
input. -/
theorem Responds.right (hw : w.Sound repr) (hc : Reads repr cfg.loads)
    (hids : Function.Injective fun i => (tasks i).taskId)
    (hproper : ∀ i, (tasks i).inputData.proper repr = true) (h : Responds w tasks batch results)
    {r : TaskResult} (hr : r ∈ results) (hs : r.success = true) {i : ℕ}
    (hid : (tasks i).taskId = r.taskId) {value : Json} (hl : cfg.loads r.resultJson = .ok value) :
    Right cfg w (tasks i).inputData value := by
  obtain ⟨gate, settings, readings, fuel, requests, hreq, hcall⟩ := h
  obtain ⟨t, ht, hfrom⟩ := processBatch_success hcall hr hs
  -- the request stands for the task with its ID, and no other task has it
  obtain ⟨j, htj, hinput⟩ : ∃ j, t.taskId = (tasks j).taskId ∧
      t.inputJson = textOf (tasks j).inputData := by
    obtain ⟨n, hn, rfl⟩ := List.mem_iff_getElem.mp ht
    obtain ⟨hlen, hall⟩ := List.forall₂_iff_get.mp hreq
    exact ⟨batch.get ⟨n, hlen ▸ hn⟩, hall n _ hn⟩
  have hrt : r.taskId = t.taskId := by
    rcases hfrom with ⟨-, rfl⟩ | ⟨b, k, -, rfl⟩
    · exact Servicer.taskId_computed t
    · exact Servicer.taskId_backendResult b _ k t
  obtain rfl : i = j := hids (hid.trans (hrt.trans htj))
  rcases hfrom with ⟨hb, rfl⟩ | ⟨b, k, hb, rfl⟩
  · exact computed_right hw hc hb (hproper i) hinput hs hl
  · exact backendResult_right hw hb (hproper i) hinput hs hl

end Response

/-! ## A run -/

section Runs

variable {repr : String → String} {cfg : Config} {worker : ℕ → Worker τ ν} {s t : Sys} {o : Outcome}
  {who : Who} {pt pt' : Point} {eff : Effect}

/-- A call in flight is noted with its tasks; what a reconciliation has still to store is right. -/
def Backed (cfg : Config) (worker : ℕ → Worker τ ν) (s : Sys) : Point → Prop
  | .process p (.inflight batch) _ => ∀ i ∈ batch, .called p ∈ s.notes i
  | .process p (.reconcile results batch) _ => ∀ i ∈ batch, .called p ∈ s.notes i ∧
      ∀ r ∈ results, r.success = true → (s.tasks i).taskId = r.taskId →
        ∀ value, cfg.loads r.resultJson = .ok value → Right cfg (worker p) (s.tasks i).inputData value
  | _ => True

/-- The task was sent to a worker, and it holds what that worker has for its input. -/
def Answered (cfg : Config) (worker : ℕ → Worker τ ν) (s : Sys) (i : ℕ) : Prop :=
  ∃ p, .called p ∈ s.notes i ∧ Right cfg (worker p) (s.tasks i).inputData (s.tasks i).result

structure Sys.Backed (cfg : Config) (worker : ℕ → Worker τ ν) (s : Sys) : Prop where
  done : ∀ i, (s.tasks i).status = .done → Answered cfg worker s i
  points : ∀ who, Replies.Backed cfg worker s (s.points who)

/-- Nothing is taken back: the tasks evolve and notes are only added. -/
structure Extends (s t : Sys) : Prop where
  tasks : ∀ i, Task.Evolves (s.tasks i) (t.tasks i)
  notes : ∀ i, ∀ note ∈ s.notes i, note ∈ t.notes i

theorem Backed.mono (h : Backed cfg worker s pt) (hst : Extends s t) : Backed cfg worker t pt := by
  cases pt with
  | process p pc k =>
    cases pc with
    | inflight batch => exact fun i hi => hst.notes i _ (h i hi)
    | reconcile results batch =>
      intro i hi
      obtain ⟨hcalled, hright⟩ := h i hi
      refine ⟨hst.notes i _ hcalled, fun r hr hs hid value hl => ?_⟩
      rw [(hst.tasks i).taskId] at hid
      rw [(hst.tasks i).inputData]
      exact hright r hr hs hid value hl
    | _ => trivial
  | _ => trivial

theorem apply_mem_notes (cfg : Config) (s : Sys) (who : Who) (eff : Effect) {i : ℕ} {note : Note}
    (h : note ∈ s.notes i) : note ∈ (s.apply cfg who eff).notes i := by
  cases eff with
  | invoke p batch =>
    show note ∈ if i ∈ batch then s.notes i ++ [.called p] else s.notes i
    split
    · exact List.mem_append_left _ h
    · exact h
  | reserve k =>
    by_cases hk : i = k
    · subst hk
      simp [Sys.apply, h]
    · simpa [Sys.apply, hk] using h
  | handoff p q k =>
    by_cases hk : i = k
    · subst hk
      simp [Sys.apply, h]
    · simpa [Sys.apply, hk] using h
  | _ => exact h

theorem act_extends (cfg : Config) (s : Sys) (who : Who) (eff : Effect) (pt : Point) :
    Extends s ((s.apply cfg who eff).goto who pt) where
  tasks := apply_evolves cfg s who eff
  notes _ _ h := apply_mem_notes cfg s who eff h

theorem step_extends {e : Machine.Event} (hs : s.step cfg e = some t) : Extends s t := by
  refine ⟨step_evolves hs, fun i note h => ?_⟩
  cases step_cases hs with
  | @act who _ eff => exact apply_mem_notes cfg s who eff h
  | tick | fail | route | submit | update | stop => exact h

/-- A task that an effect ends as `DONE` has been given a value. -/
theorem apply_done (cfg : Config) (who : Who) (eff : Effect) {i : ℕ}
    (hu : (s.tasks i).status ≠ .done) (h : ((s.apply cfg who eff).tasks i).status = .done) :
    ∃ value, eff = .call (some (i, .markDone value)) ∧
      ((s.apply cfg who eff).tasks i).result = value := by
  have hcall : ∀ c, (applyCall s.tasks s.mono s.wall c i).status = .done →
      ∃ m, c = some (i, m) ∧
        applyCall s.tasks s.mono s.wall c i = (s.tasks i).call m s.mono s.wall := by
    intro c hc
    cases c with
    | none => exact absurd hc hu
    | some x =>
      obtain ⟨k, m⟩ := x
      by_cases hk : i = k
      · subst hk
        exact ⟨m, rfl, by simp [applyCall]⟩
      · exact absurd (by simpa [applyCall, hk] using hc) hu
  cases eff with
  | call c =>
    obtain ⟨m, rfl, heq⟩ := hcall c h
    replace h : (applyCall s.tasks s.mono s.wall (some (i, m)) i).status = .done := h
    rw [heq] at h
    obtain ⟨value, rfl, hvalue⟩ := Task.call_done hu h
    exact ⟨value, rfl, (congrArg Task.result heq).trans hvalue⟩
  | reserve k =>
    obtain ⟨m, hm, heq⟩ := hcall _ h
    obtain ⟨rfl, rfl⟩ := by simpa using hm
    replace h : (applyCall s.tasks s.mono s.wall (some (k, .tryReserveRetry)) k).status = .done := h
    rw [heq] at h
    obtain ⟨value, hvalue, -⟩ := Task.call_done hu h
    cases hvalue
  | _ => exact absurd h hu

/-- `mark_done` is called for an entry of a response only. -/
theorem stmt_markDone {i : ℕ} {value : Json}
    (h : Stmt cfg s o pt (.call (some (i, .markDone value))) pt') : ∃ p r rs batch k,
      pt = .process p (.reconcile (r :: rs) batch) k ∧ taskMap s.tasks batch r.taskId = some i ∧
      r.success = true ∧ cfg.loads r.resultJson = .ok value := by
  cases h with
  | moves hh hcall hm =>
    cases hm with
    | decoded rs hm hs hl => exact ⟨_, _, rs, _, _, rfl, hm, hs, hl⟩

/-- **Step.** -/
theorem Sys.Backed.act (h : Sys.Backed cfg worker s) (hst : Stmt cfg s o (s.points who) eff pt')
    (hresponse : ∀ p batch k results, s.points who = .process p (.inflight batch) k →
      o = .response results → ∀ i ∈ batch, ∀ r ∈ results, r.success = true →
        (s.tasks i).taskId = r.taskId → ∀ value, cfg.loads r.resultJson = .ok value →
          Right cfg (worker p) (s.tasks i).inputData value) :
    Sys.Backed cfg worker ((s.apply cfg who eff).goto who pt') := by
  have hext := act_extends cfg s who eff pt'
  refine ⟨fun i hi => ?_, fun who' => ?_⟩
  · -- the result is there already, or it comes from the entry at the head of a reconciliation
    have hkept : ∀ p, .called p ∈ s.notes i → ∀ value,
        ((s.apply cfg who eff).tasks i).result = value →
        Right cfg (worker p) (s.tasks i).inputData value →
        Answered cfg worker ((s.apply cfg who eff).goto who pt') i := by
      rintro p hp value rfl hright
      refine ⟨p, hext.notes i _ hp, ?_⟩
      rw [(hext.tasks i).inputData]
      exact hright
    by_cases hdone : (s.tasks i).status = .done
    · obtain ⟨p, hp, hright⟩ := h.done i hdone
      have hterm : (s.tasks i).terminal = true := by rw [Task.terminal, hdone]; rfl
      exact hkept p hp _ (congrArg Task.result ((hext.tasks i).final hterm)) hright
    · obtain ⟨value, rfl, hvalue⟩ := apply_done cfg who eff hdone hi
      obtain ⟨p, r, rs, batch, k, hpt, hm, hs, hl⟩ := stmt_markDone hst
      have hbacked := h.points who
      rw [hpt] at hbacked
      obtain ⟨hmem, hid⟩ := taskMap_some hm
      obtain ⟨hp, hright⟩ := hbacked i hmem
      exact hkept p hp value hvalue (hright r List.mem_cons_self hs hid value hl)
  · by_cases hwho : who' = who
    · subst hwho
      have hbacked := h.points who'
      rw [show ((s.apply cfg who' eff).goto who' pt').points who' = pt' from Function.update_self ..]
      generalize s.points who' = pt at hst hbacked hresponse
      cases hst with
      | invoke p batch k =>
        intro i hi
        show .called p ∈ if i ∈ batch then s.notes i ++ [.called p] else s.notes i
        simp [hi]
      | moves hh hcall hm =>
        have hmono := fun pt (hpt : Replies.Backed cfg worker s pt) => hpt.mono hext
        cases hm with
        | response batch ho =>
          refine hmono _ fun i hi => ⟨hbacked i hi, ?_⟩
          exact fun r hr hs hid value hl =>
            hresponse _ _ _ _ rfl ho i hi r hr hs hid value hl
        | unknown rs hn =>
          refine hmono _ fun i hi => ⟨(hbacked i hi).1, fun r hr => ?_⟩
          exact (hbacked i hi).2 r (List.mem_cons_of_mem _ hr)
        | decoded rs hn hs hl =>
          refine hmono _ fun i hi => ⟨(hbacked i hi).1, fun r hr => ?_⟩
          exact (hbacked i hi).2 r (List.mem_cons_of_mem _ hr)
        | unsuccessful rs hn hs =>
          refine hmono _ fun i hi => ⟨(hbacked i hi).1, fun r hr => ?_⟩
          exact (hbacked i hi).2 r (List.mem_cons_of_mem _ hr)
        | call batch => exact absurd rfl (hcall batch)
        | _ => trivial
      | returned p k => cases k <;> trivial
      | _ => trivial
    · rw [show ((s.apply cfg who eff).goto who pt').points who' =
        (s.apply cfg who eff).points who' from Function.update_of_ne hwho ..]
      rcases apply_points cfg s who eff who' with heq | ⟨-, heq⟩
      · rw [heq]
        exact (h.points who').mono hext
      · rw [heq]
        trivial

/-- Another event moves at most one thread, to the beginning of a call. -/
theorem Sys.Backed.other (h : Sys.Backed cfg worker s) (hst : Extends s t)
    (hdone : ∀ i, (t.tasks i).status = .done → (s.tasks i).status = .done)
    (hpoints : ∀ who, t.points who = s.points who ∨ Replies.Backed cfg worker t (t.points who)) :
    Sys.Backed cfg worker t := by
  refine ⟨fun i hi => ?_, fun who => ?_⟩
  · obtain ⟨p, hp, hright⟩ := h.done i (hdone i hi)
    refine ⟨p, hst.notes i _ hp, ?_⟩
    have hterm : (s.tasks i).terminal = true := by rw [Task.terminal, hdone i hi]; rfl
    rw [(hst.tasks i).final hterm]
    exact hright
  · rcases hpoints who with heq | hbacked
    · rw [heq]
      exact (h.points who).mono hst
    · exact hbacked

/-- A call of the pool begins. -/
theorem goto_points (s : Sys) (who' : Who) {pt : Point} (hpt : Replies.Backed cfg worker t pt)
    (who : Who) : (s.goto who' pt).points who = s.points who ∨
      Replies.Backed cfg worker t ((s.goto who' pt).points who) := by
  by_cases hwho : who = who'
  · subst hwho
    refine .inr ?_
    rw [show (s.goto who pt).points who = pt from Function.update_self ..]
    exact hpt
  · exact .inl (Function.update_of_ne hwho ..)

variable [Add τ] [Sub τ] [Mul τ] [Div τ] [Zero τ] [NatCast τ] [OfScientific τ] [LE τ] [LT τ]
  [DecidableLE τ] [DecidableLT τ]

theorem Sys.Backed.step (hw : ∀ p, (worker p).Sound repr) (hc : Reads repr cfg.loads)
    (hids : Function.Injective fun i => (s.tasks i).taskId)
    (hproper : ∀ i, (s.tasks i).inputData.proper repr = true) {e : Machine.Event}
    (hhonest : Honest worker s e) (h : Sys.Backed cfg worker s) (hs : s.step cfg e = some t) :
    Sys.Backed cfg worker t := by
  have hext := step_extends hs
  cases step_cases hs with
  | tick | route => exact h.other hext (fun i hi => hi) fun _ => .inl rfl
  | fail k error code =>
    refine h.other hext (fun i hi => ?_) fun _ => .inl rfl
    by_contra hdone
    obtain ⟨value, hvalue, -⟩ :=
      apply_done cfg (.thread 0) (.call (some (k, .markFailed error code))) hdone hi
    cases hvalue
  | submit | update | stop =>
    exact h.other hext (fun i hi => hi) fun who => goto_points _ _ (by trivial) who
  | act hst =>
    refine h.act hst fun p batch k results hpt ho i hi r hr hsuccess hid value hl => ?_
    exact (hhonest p batch k results hpt ho).right (hw p) hc hids hproper hr hsuccess hid hl

/-- **No wrong answer.**  However the threads of the pool interleave, whichever workers join, leave,
fail or answer late, and whatever their clocks and settings are: as long as every response is what
its worker computes, a task that is `DONE` was sent to a worker and holds what that worker computed
from the input of this very task, although input and result crossed the wire as texts and results
are matched by ID. -/
theorem results_right (hw : ∀ p, (worker p).Sound repr) (hc : Reads repr cfg.loads) {s₀ : Sys}
    {es : List Machine.Event} (hinit : s₀.Init) (hopen : ∀ i, (s₀.tasks i).status ≠ .done)
    (hproper : ∀ i, (s₀.tasks i).inputData.proper repr = true)
    (hhonest : Meets (Sys.step cfg) (Honest worker) s₀ es) (hrun : exec (Sys.step cfg) s₀ es = some s)
    {i : ℕ} (hdone : (s.tasks i).status = .done) : ∃ p, .called p ∈ s.notes i ∧
      Right cfg (worker p) (s₀.tasks i).inputData (s.tasks i).result := by
  have hrel : (∀ i, Task.Evolves (s₀.tasks i) (s.tasks i)) ∧ Sys.Backed cfg worker s := by
    refine exec_inv_meets (P := fun s => (∀ i, Task.Evolves (s₀.tasks i) (s.tasks i)) ∧
      Sys.Backed cfg worker s) (fun s e t hhonest h hs => ?_) hhonest ⟨fun i => .refl _, ?_⟩ hrun
    · refine ⟨fun i => (h.1 i).trans (step_evolves hs i), h.2.step hw hc
        (injective_of_evolves hinit.ids h.1) (fun i => ?_) hhonest hs⟩
      rw [(h.1 i).inputData]
      exact hproper i
    · refine ⟨fun i hi => absurd hi (hopen i), fun who => ?_⟩
      rw [hinit.points who]
      trivial
  obtain ⟨p, hp, hright⟩ := hrel.2.done i hdone
  rw [(hrel.1 i).inputData] at hright
  exact ⟨p, hp, hright⟩

end Runs

/-! The handoff: `a` is gone, and `b` answers. -/

/-- An interpreter without limits, and without floats. -/
def plainInterpreter : Interpreter where
  loads := fun text => (Json.loads id text).elim (.error ⟨true, "Expecting value"⟩) .ok
  squareFloat := id
  dumps := fun v => .ok (textOf v)

theorem plainInterpreter_reads : Reads id plainInterpreter.loads := by
  intro text v h
  simp only [plainInterpreter] at h
  cases hl : Json.loads id text with
  | none =>
    rw [hl] at h
    cases h
  | some u =>
    rw [hl] at h
    cases h
    rfl

def plainWorker (p : ℕ) : Worker ℚ Unit := ⟨p, plainInterpreter, none⟩

theorem plainWorker_sound (p : ℕ) : (plainWorker p).Sound id :=
  ⟨plainInterpreter_reads, fun _ _ h => (Except.ok.inj h).symm, fun _ h => h⟩

def plainConfig : Config := ⟨plainInterpreter.loads, none⟩

/-- What `b` computes for task 0. -/
def nine : TaskResult where
  taskId := ""
  success := true
  resultJson := "\x7b\"prediction\": 9, \"worker_id\": 1\x7d"

/-- `b` has called its worker. -/
def calledRun : List Machine.Event := handoffRun ++ List.replicate 12 (.act (.loop 1) lost)

def answeredRun : List Machine.Event := calledRun ++ [.act (.loop 1) (.response [nine]), .act (.loop 1) lost]

/-- The answer is on record as that of the worker with ID 1, which has squared 3. -/
theorem results_right_handoff : ∃ s, exec (Sys.step plainConfig) sampleStart answeredRun = some s ∧
    ∃ p, .called p ∈ s.notes 0 ∧
      Right plainConfig (plainWorker p) (.obj [("x", .int 3)]) (s.tasks 0).result := by
  have hcalled : (exec (Sys.step plainConfig) sampleStart calledRun).map (fun s =>
      (s.points (.loop 1), (s.tasks 0).taskId, (s.tasks 0).inputData)) =
        some (.process 1 (.inflight [0]) .loop, "", .obj [("x", .int 3)]) := by
    decide +kernel
  have hview : (exec (Sys.step plainConfig) sampleStart answeredRun).map (fun s =>
      (s.tasks 0).status) = some .done := by
    decide +kernel
  have hlost : ∀ who, ∀ s, Honest plainWorker s (.act who lost) := by
    intro who s p batch k results _ ho
    cases ho
  obtain ⟨m, hm, hv⟩ := Option.map_eq_some_iff.mp hcalled
  simp only [Prod.mk.injEq] at hv
  obtain ⟨hpoint, hid, hinput⟩ := hv
  have hbefore : Meets (Sys.step plainConfig) (Honest plainWorker) sampleStart calledRun := by
    refine meets_of_forall (fun e he s => ?_) _
    simp only [calledRun, handoffRun, List.mem_append, List.mem_cons, List.mem_replicate] at he
    rcases he with (((rfl | ⟨-, rfl⟩) | rfl | ⟨-, rfl⟩) | ⟨-, rfl⟩) | ⟨-, rfl⟩
    · trivial
    · exact hlost _ s
    · trivial
    · exact hlost _ s
    · exact hlost _ s
    · exact hlost _ s
  have hanswer : Honest plainWorker m (.act (.loop 1) (.response [nine])) := by
    intro p batch k results hp ho
    rw [hpoint] at hp
    cases hp
    cases ho
    refine ⟨none, Servicer.quietSettings, Servicer.evenReadings, 20,
      [⟨"", "\x7b\"x\": 3\x7d", none⟩], ?_, by decide +kernel⟩
    refine List.forall₂_cons.mpr ⟨⟨hid.symm, ?_⟩, .nil⟩
    rw [hinput]
    decide +kernel
  obtain ⟨s, hs, hdone⟩ := Option.map_eq_some_iff.mp hview
  refine ⟨s, hs, results_right plainWorker_sound plainInterpreter_reads sampleStart_init
    (fun _ => by simp [sampleStart]) (fun _ => by rfl) ?_ hs hdone⟩
  exact meets_append hbefore hm ⟨hanswer, fun t _ => ⟨hlost _ t, fun _ _ => trivial⟩⟩

end Inference.Pool.Replies
