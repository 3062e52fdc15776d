import Inference.Json
import Inference.Lib.Dict
import Inference.Lib.Raises

/-!
# Inference.Deploy.Rollout — the transaction of `Deployment.run`

The rollout of `deploy/ci/deploy_platform.py` with its three nested `try` blocks and its two flags,
over the files it must keep consistent: the shared backend configuration, `current.json` and the
journal `transaction.json`.  Every runtime step is an `invoke`: an oracle decides from the whole
history whether it returns (and what) or raises, and after how many of its file writes.

* `trace`: the steps invoked so far, newest first, each with what became of it.
* `Sealed`: a start, its health check and the record or restore that belongs to it, all completed.
* `run_safe`: admission is reopened only over a sealed release or untouched services, the journal
  goes last, a failed rollback leaves everything closed, a return means the new images run, and a
  completed rollback puts both files back.
-/

namespace Inference.Deploy

open Inference.Lib

/-- `DeployError` with its exit code, or any other exception by its type. -/
inductive Err where
  | deployError (message : String) (exitCode : ℕ)
  | other (type : String)
deriving DecidableEq, Repr

/-- A runtime step with its arguments. -/
inductive Call where
  | prepare (sha : String)
  | load (sha : String)
  | previous
  | busy
  | beginTransaction (previous : Json)
  | beginDrain
  | waitIdle
  | stop
  | start (release images : Json)
  | healthy (images : Json)
  | record (release images previous : Json)
  | restore (previous : Json)
  | endDrain
  | finish
deriving DecidableEq, Repr

/-- A step that was invoked: whether it returned, and the Boolean and the text it answered. -/
structure Entry where
  call : Call
  returned : Bool
  answer : Bool
  text : String
deriving DecidableEq, Repr

/-- What the environment does with one invocation: an exception after some of its writes, or the
values the step reads from outside (a Boolean, a text, a clock). -/
structure Outcome where
  raised : Option (ℕ × Err) := none
  answer : Bool := true
  text : String := ""
  clock : Json := .null

/-- Every assignment of outcomes to the steps, one that may depend on all that happened. -/
abbrev Oracle := List Entry → Call → Outcome

/-- A file that one step replaces atomically. -/
inductive Write where
  | shared (value : Json)
  | current (value : Json)
  | journal (value : Option Json)

/-- The files, the history, and the two flags of `run`, which outlive an exception. -/
structure World where
  shared : Json
  current : Json
  journal : Option Json
  trace : List Entry
  resumeSafe : Bool
  transaction : Bool

def Write.apply (w : World) : Write → World
  | .shared v => { w with shared := v }
  | .current v => { w with current := v }
  | .journal v => { w with journal := v }

/-- `SERVICES`. -/
def services : List String := ["gateway", "text-worker"]

/-- What `Runtime.__init__` fixed: the shared configuration it read and the container names. -/
structure Runtime where
  shared : Json
  container : String → String

/-- `updated['dependency_images'].update(…)`; `none` where a key is missing. -/
def Runtime.pinned (rt : Runtime) (images : Json) : Option Json :=
  match rt.shared with
  | .obj fields => match Dict.get? "dependency_images" fields with
    | some (.obj deps) =>
      (services.foldlM (fun d s => (images.get? s).map fun i => Dict.set (rt.container s) i d)
        deps).map fun deps' => .obj (Dict.set "dependency_images" (.obj deps') fields)
    | _ => none
  | _ => none

/-- The release record: `{**release, 'images': …, 'previous': …, 'deployed_at': …}`. -/
def releaseRecord (release images previous clock : Json) : Option Json :=
  match release, previous with
  | .obj r, .obj p => some (.obj (Dict.set "deployed_at" clock (Dict.set "previous"
      (.obj (p.filter fun kv => kv.1 ≠ "previous")) (Dict.set "images" images r))))
  | _, _ => none

/-- The file writes of a step, in order; `none` where computing them raises. -/
def Call.writes (rt : Runtime) (clock : Json) : Call → Option (List Write)
  | .beginTransaction prev => some [.journal (some (.obj [("previous", prev),
      ("backend_config", rt.shared), ("phase", .str "before-maintenance"), ("started_at", clock)]))]
  | .record release images prev => do
      let updated ← rt.pinned images
      let current ← releaseRecord release images prev clock
      return [.shared updated, .current current]
  | .restore prev => some [.shared rt.shared, .current prev]
  | .finish => some [.journal none]
  | _ => some []

abbrev M := ExceptT Err (StateM World)

/-- One invocation of a runtime step. -/
def invoke (rt : Runtime) (o : Oracle) (c : Call) : M Outcome := do
  let w ← get
  let out := o w.trace c
  match c.writes rt out.clock, out.raised with
  | none, _ => do
    modify fun w => { w with trace := ⟨c, false, out.answer, out.text⟩ :: w.trace }
    throw (.other "KeyError")
  | some ws, some (k, e) => do
    modify fun w => { (ws.take k).foldl Write.apply w with
                      trace := ⟨c, false, out.answer, out.text⟩ :: w.trace }
    throw e
  | some ws, none => do
    modify fun w => { ws.foldl Write.apply w with
                      trace := ⟨c, true, out.answer, out.text⟩ :: w.trace }
    return out

/-- `dict.fromkeys(SERVICES, image)`. -/
def imagesOf (image : String) : Json := .obj (services.map fun s => (s, .str image))

section Program

variable (rt : Runtime) (o : Oracle)

/-- The inner `try`: stop, start, check and record the new release. -/
def forward (release images previous : Json) : M Unit := do
  let _ ← invoke rt o .stop
  let _ ← invoke rt o (.start release images)
  let h ← invoke rt o (.healthy images)
  if !h.answer then throw (.deployError "Platform health or Vast connectivity check failed" 1)
  let _ ← invoke rt o (.record release images previous)
  modify fun w => { w with resumeSafe := true }

/-- The rollback: the same for the previous release. -/
def rollback (previous : Json) : M Unit := do
  let _ ← invoke rt o .stop
  match previous.get? "images" with
  | none => throw (.other "KeyError")
  | some images => do
    let _ ← invoke rt o (.start previous images)
    let h ← invoke rt o (.healthy images)
    if !h.answer then throw (.deployError "Previous platform is unhealthy" 1)
    let _ ← invoke rt o (.restore previous)
    modify fun w => { w with resumeSafe := true }

/-- What runs once the services may be touched. -/
def replace (release images previous : Json) : M Unit :=
  tryCatch (forward rt o release images previous) fun _error => do
    tryCatch (rollback rt o previous) fun _rollback =>
      throw (.deployError
        "Platform rollback failed; admission remains closed for operator recovery" 1)
    throw (.deployError "Platform deployment failed; previous images and pins restored" 1)

/-- The body of the outer `try`. -/
def transact (release images previous : Json) : M Unit := do
  let _ ← invoke rt o (.beginTransaction previous)
  modify fun w => { w with transaction := true }
  let _ ← invoke rt o .beginDrain
  let _ ← invoke rt o .waitIdle
  modify fun w => { w with resumeSafe := false }
  replace rt o release images previous

/-- The `finally` clause. -/
def reopen : M Unit := do
  if (← get).resumeSafe then
    let _ ← invoke rt o .endDrain
    if (← get).transaction then
      let _ ← invoke rt o .finish

/-- `Deployment.run`; `archive` is the verdict of `validate_archive`. -/
def run (archive : Except Err Unit) (sha : String) : M Json := do
  liftExcept archive
  let p ← invoke rt o (.prepare sha)
  let release : Json := .obj [("sha", .str sha), ("compose", .str p.text)]
  let l ← invoke rt o (.load sha)
  let images := imagesOf l.text
  let _ ← invoke rt o .previous
  let previous := (← get).current
  let b ← invoke rt o .busy
  if b.answer then throw (.deployError "Active jobs; retry platform deployment later" 75)
  modify fun w => { w with resumeSafe := true, transaction := false }
  tryFinally (transact rt o release images previous) (reopen rt o)
  return images
where
  liftExcept : Except Err Unit → M Unit
    | .ok _ => pure ()
    | .error e => throw e

end Program

/-! ## Rules for one step -/

section Rules

variable {rt : Runtime} {o : Oracle} {w : World} {c : Call} {Q : Outcome → World → Prop}
  {E : Err → World → Prop}

/-- A step returns after all its writes or raises after some of them. -/
theorem runs_invoke
    (hret : ∀ out ws, c.writes rt out.clock = some ws → Q out { ws.foldl Write.apply w with
      trace := ⟨c, true, out.answer, out.text⟩ :: w.trace })
    (hraise : ∀ e ws k a t, ws = [] ∨ (∃ clock, c.writes rt clock = some ws) →
      E e { (ws.take k).foldl Write.apply w with trace := ⟨c, false, a, t⟩ :: w.trace }) :
    Runs (invoke rt o c) w Q E := by
  unfold invoke
  refine runs_bind (runs_get ?_)
  dsimp only
  split
  · refine runs_bind (runs_modify (runs_throw ?_))
    simpa using hraise _ [] 0 (o w.trace c).answer (o w.trace c).text (.inl rfl)
  · rename_i ws k e hws _
    exact runs_bind (runs_modify (runs_throw (hraise e ws k _ _ (.inr ⟨_, hws⟩))))
  · rename_i ws hws _
    exact runs_bind (runs_modify (runs_pure (hret _ ws hws)))

/-- A step that writes none of the files. -/
theorem runs_silent (hc : ∀ clock, c.writes rt clock = some [])
    (hret : ∀ out : Outcome, Q out { w with trace := ⟨c, true, out.answer, out.text⟩ :: w.trace })
    (hraise : ∀ e a t, E e { w with trace := ⟨c, false, a, t⟩ :: w.trace }) :
    Runs (invoke rt o c) w Q E := by
  refine runs_invoke (fun out ws hws => ?_) (fun e ws k a t hws => ?_)
  · rw [hc, Option.some.injEq] at hws
    subst hws
    exact hret out
  · have hnil : ws = [] := by
      rcases hws with h | ⟨clock, h⟩
      · exact h
      · rw [hc, Option.some.injEq] at h
        exact h.symm
    subst hnil
    simpa using hraise e a t

end Rules

/-! ## What the history says -/

/-- The steps before the services are touched. -/
def Call.early : Call → Bool
  | .prepare _ | .load _ | .previous | .busy | .beginTransaction _ | .beginDrain | .waitIdle => true
  | _ => false

/-- The steps that reopen admission and drop the journal. -/
def Call.reopens : Call → Bool
  | .endDrain | .finish => true
  | _ => false

/-- The steps that make a release the recorded one. -/
def Call.seals : Call → Bool
  | .record _ _ _ | .restore _ => true
  | _ => false

/-- Only early steps so far. -/
def Early (tr : List Entry) : Prop := ∀ e ∈ tr, e.call.early = true

/-- Admission has not been reopened and the journal not removed. -/
def Closed (tr : List Entry) : Prop := ∀ e ∈ tr, e.call.reopens = false

/-- No record and no restore has been completed. -/
def Unsealed (tr : List Entry) : Prop := ∀ e ∈ tr, e.returned = true → e.call.seals = false

/-- The last start was followed by a health check that answered `True` for the images it started,
and then by the completed record of that release or the completed restore of the previous one. -/
def Sealed (tr : List Entry) : Prop :=
  ∃ e h s rest release images, tr = e :: h :: s :: rest ∧
    s.call = .start release images ∧ s.returned = true ∧
    h.call = .healthy images ∧ h.returned = true ∧ h.answer = true ∧ e.returned = true ∧
    ((∃ previous, e.call = .record release images previous) ∨
      (e.call = .restore release ∧ release.get? "images" = some images))

theorem Early.cons {tr : List Entry} (h : Early tr) {e : Entry} (he : e.call.early = true) :
    Early (e :: tr) := by
  intro x hx
  rcases List.mem_cons.mp hx with rfl | hx
  · exact he
  · exact h x hx

theorem Early.closed {tr : List Entry} (h : Early tr) : Closed tr := by
  intro e he
  have := h e he
  revert this
  cases e.call <;> simp [Call.early, Call.reopens]

theorem Early.unsealed {tr : List Entry} (h : Early tr) : Unsealed tr := by
  intro e he _
  have := h e he
  revert this
  cases e.call <;> simp [Call.early, Call.seals]

theorem Early.not_stop {tr : List Entry} (h : Early tr) : ∀ e ∈ tr, e.call ≠ .stop := by
  intro e he hc
  have := h e he
  simp [hc, Call.early] at this

theorem Closed.cons {tr : List Entry} (h : Closed tr) {e : Entry}
    (he : e.call.reopens = false) : Closed (e :: tr) := by
  intro x hx
  rcases List.mem_cons.mp hx with rfl | hx
  · exact he
  · exact h x hx

theorem Unsealed.cons {tr : List Entry} (h : Unsealed tr) {e : Entry}
    (he : e.returned = true → e.call.seals = false) : Unsealed (e :: tr) := by
  intro x hx
  rcases List.mem_cons.mp hx with rfl | hx
  · exact he
  · exact h x hx

/-! ## The stages -/

section Stages

variable {rt : Runtime} {o : Oracle} {l : Entry}

/-- The services may have been touched; admission is closed, the journal is there, and `l` is
among the steps taken. -/
structure Broken (l : Entry) (w : World) : Prop where
  loaded : l ∈ w.trace
  journal : w.journal.isSome = true
  transaction : w.transaction = true
  resumeSafe : w.resumeSafe = false
  closed : Closed w.trace
  unsealed : Unsealed w.trace

/-- The new release is up, checked and recorded. -/
structure Replaced (l : Entry) (release images : Json) (w : World) : Prop where
  transaction : w.transaction = true
  resumeSafe : w.resumeSafe = true
  trace : ∃ a t h s rest previous, w.trace = ⟨.record release images previous, true, a, t⟩ ::
    h :: s :: rest ∧ s.call = .start release images ∧ s.returned = true ∧
    h.call = .healthy images ∧ h.returned = true ∧ h.answer = true ∧ Closed rest ∧
    Unsealed rest ∧ l ∈ rest

/-- The previous release is up, checked and restored. -/
structure RolledBack (rt : Runtime) (previous : Json) (w : World) : Prop where
  transaction : w.transaction = true
  resumeSafe : w.resumeSafe = true
  shared : w.shared = rt.shared
  current : w.current = previous
  trace : ∃ a t h s rest images, w.trace = ⟨.restore previous, true, a, t⟩ :: h :: s :: rest ∧
    previous.get? "images" = some images ∧ s.call = .start previous images ∧ s.returned = true ∧
    h.call = .healthy images ∧ h.returned = true ∧ h.answer = true ∧ Closed rest

/-- A step that seals nothing keeps a broken rollout broken. -/
theorem Broken.push {w : World} (h : Broken l w) {e : Entry} (hc : e.call.reopens = false)
    (hs : e.returned = true → e.call.seals = false) (shared current : Json) :
    Broken l { w with shared := shared, current := current, trace := e :: w.trace } :=
  ⟨List.mem_cons_of_mem _ h.loaded, h.journal, h.transaction, h.resumeSafe, h.closed.cons hc,
    h.unsealed.cons hs⟩

/-- The write touches the shared configuration or `current.json`. -/
def Write.onFiles : Write → Bool
  | .shared _ | .current _ => true
  | .journal _ => false

theorem foldl_onFiles {ws : List Write} (h : ∀ x ∈ ws, x.onFiles = true) (w : World) :
    ∃ shared current, ws.foldl Write.apply w = { w with shared := shared, current := current } := by
  induction ws generalizing w with
  | nil => exact ⟨w.shared, w.current, rfl⟩
  | cons x ws ih =>
    obtain ⟨a, b, hab⟩ := ih (fun y hy => h y (List.mem_cons_of_mem _ hy)) (x.apply w)
    have hx := h x List.mem_cons_self
    rw [List.foldl_cons, hab]
    cases x with
    | shared v => exact ⟨a, b, rfl⟩
    | current v => exact ⟨a, b, rfl⟩
    | journal v => simp [Write.onFiles] at hx

/-- What `record` writes, it writes to the two files. -/
theorem record_onFiles {release images previous clock : Json} {ws : List Write}
    (h : (Call.record release images previous).writes rt clock = some ws) :
    ∀ x ∈ ws, x.onFiles = true := by
  simp only [Call.writes, Option.bind_eq_bind, Option.bind_eq_some_iff, Option.pure_def,
    Option.some.injEq] at h
  obtain ⟨updated, -, current, -, rfl⟩ := h
  simp [Write.onFiles]

/-- A failed step of the rollout, after any part of its writes to the two files. -/
theorem Broken.raise {w : World} (h : Broken l w) {c : Call} (hc : c.reopens = false)
    {ws : List Write} (hws : ∀ x ∈ ws, x.onFiles = true) (k : ℕ) (a : Bool) (t : String) :
    Broken l { (ws.take k).foldl Write.apply w with trace := ⟨c, false, a, t⟩ :: w.trace } := by
  have hmem : ∀ x ∈ ws.take k, x.onFiles = true := fun x hx => hws x (List.mem_of_mem_take hx)
  obtain ⟨s', c', hw⟩ := foldl_onFiles hmem w
  rw [hw]
  exact h.push hc (fun hr => absurd hr Bool.false_ne_true) s' c'

/-- Stopping, starting and checking one release: the common part of both directions. -/
theorem runs_start_healthy {w : World} (h : Broken l w) {release images : Json} {msg : Err}
    {k : M Unit} {Q : Unit → World → Prop}
    (hk : ∀ w' s e, Broken l w' → w'.trace = e :: s :: w.trace → s.call = .start release images →
      s.returned = true → e.call = .healthy images → e.returned = true → e.answer = true →
      Runs k w' Q (fun _ u => Broken l u)) :
    Runs (do let _ ← invoke rt o (.start release images)
             let h ← invoke rt o (.healthy images)
             if !h.answer then throw msg
             k) w Q (fun _ u => Broken l u) := by
  have hstart : ∀ b a t, Broken l { w with trace := ⟨.start release images, b, a, t⟩ :: w.trace } :=
    fun b a t => h.push rfl (fun _ => rfl) w.shared w.current
  refine runs_bind (runs_silent (fun _ => rfl) (fun out => ?_) (fun _ a t => hstart false a t))
  have hhealthy : ∀ b a t, Broken l { w with trace := ⟨.healthy images, b, a, t⟩ ::
      ⟨.start release images, true, out.answer, out.text⟩ :: w.trace } :=
    fun b a t => (hstart true _ _).push rfl (fun _ => rfl) w.shared w.current
  refine runs_bind (runs_silent (fun _ => rfl) (fun ans => ?_) (fun _ a t => hhealthy false a t))
  cases hans : ans.answer with
  | false => exact runs_bind (runs_throw (hhealthy true false ans.text))
  | true => exact hk _ _ _ (hhealthy true true ans.text) rfl rfl rfl rfl rfl rfl

/-- **Forward.**  The new release is sealed, or the rollout is broken. -/
theorem runs_forward {w : World} (h : Broken l w) (release images previous : Json) :
    Runs (forward rt o release images previous) w (fun _ u => Replaced l release images u)
      (fun _ u => Broken l u) := by
  have hstop : ∀ b a t, Broken l { w with trace := ⟨.stop, b, a, t⟩ :: w.trace } :=
    fun b a t => h.push rfl (fun _ => rfl) w.shared w.current
  unfold forward
  refine runs_bind (runs_silent (fun _ => rfl) (fun out => ?_) (fun _ a t => hstop false a t))
  refine runs_start_healthy (hstop true _ _) fun w' s e hw' htr hs hsr he her hea => ?_
  refine runs_bind (runs_invoke (fun rec ws hws => ?_) (fun x ws k a t hws => ?_))
  · refine runs_modify ?_
    obtain ⟨s', c', hfold⟩ := foldl_onFiles (record_onFiles hws) w'
    rw [hfold]
    refine ⟨hw'.transaction, rfl, rec.answer, rec.text, e, s, _, previous, by rw [htr], hs, hsr,
      he, her, hea, (hstop true _ _).closed, (hstop true _ _).unsealed, (hstop true _ _).loaded⟩
  · refine hw'.raise rfl ?_ k a t
    rcases hws with rfl | ⟨clock, hws⟩
    · nofun
    · exact record_onFiles hws

/-- **Rollback.**  The previous release is sealed and both files are as they were, or the rollout
stays broken. -/
theorem runs_rollback {w : World} (h : Broken l w) (previous : Json) :
    Runs (rollback rt o previous) w (fun _ u => RolledBack rt previous u)
      (fun _ u => Broken l u) := by
  have hstop : ∀ b a t, Broken l { w with trace := ⟨.stop, b, a, t⟩ :: w.trace } :=
    fun b a t => h.push rfl (fun _ => rfl) w.shared w.current
  unfold rollback
  refine runs_bind (runs_silent (fun _ => rfl) (fun out => ?_) (fun _ a t => hstop false a t))
  cases himg : previous.get? "images" with
  | none => exact runs_throw (hstop true _ _)
  | some images =>
    refine runs_start_healthy (hstop true _ _) fun w' s e hw' htr hs hsr he her hea => ?_
    refine runs_bind (runs_invoke (fun rec ws hws => ?_) (fun x ws k a t hws => ?_))
    · refine runs_modify ?_
      obtain rfl := Option.some.inj hws
      exact ⟨hw'.transaction, rfl, rfl, rfl, rec.answer, rec.text, e, s, _, images,
        congrArg (List.cons _) htr, himg, hs, hsr, he, her, hea, (hstop true _ _).closed⟩
    · refine hw'.raise rfl ?_ k a t
      rcases hws with rfl | ⟨clock, hws⟩
      · nofun
      · obtain rfl := Option.some.inj hws
        simp [Write.onFiles]

/-- The inner `try` with its handler. -/
theorem runs_replace {w : World} (h : Broken l w) (release images previous : Json) :
    Runs (replace rt o release images previous) w (fun _ u => Replaced l release images u)
      (fun _ u => Broken l u ∨ RolledBack rt previous u) := by
  unfold replace
  refine runs_tryCatch ((runs_forward h release images previous).mono (fun _ _ hu => hu)
    fun _ u hu => ?_)
  refine runs_bind (runs_tryCatch ((runs_rollback hu previous).mono (fun _ v hv => ?_)
    fun _ v hv => ?_))
  · exact runs_throw (.inr hv)
  · exact runs_throw (.inl hv)

/-- The files are untouched and only early steps have been taken. -/
structure Quiet (w₀ w : World) : Prop where
  shared : w.shared = w₀.shared
  current : w.current = w₀.current
  early : Early w.trace

theorem Quiet.push {w₀ w : World} (h : Quiet w₀ w) {e : Entry} (he : e.call.early = true)
    (journal : Option Json) : Quiet w₀ { w with journal := journal, trace := e :: w.trace } :=
  ⟨h.shared, h.current, h.early.cons he⟩

/-- **The outer `try`.**  It ends with the new release sealed; or it raises with nothing touched,
with the previous release sealed, or broken. -/
theorem runs_transact (rt : Runtime) (o : Oracle) {w₀ w : World} (h : Quiet w₀ w)
    (hl : l ∈ w.trace) (hsafe : w.resumeSafe = true) (release images : Json) :
    Runs (transact rt o release images w₀.current) w (fun _ u => Replaced l release images u)
      (fun _ u => (Quiet w₀ u ∧ u.resumeSafe = true) ∨ Broken l u ∨
        RolledBack rt w₀.current u) := by
  unfold transact
  refine runs_bind (runs_invoke (fun out ws hws => ?_) (fun e ws k a t hws => ?_))
  · obtain rfl := Option.some.inj hws
    have hq := h.push (e := ⟨.beginTransaction w₀.current, true, out.answer, out.text⟩) rfl
      (some (.obj [("previous", w₀.current), ("backend_config", rt.shared),
        ("phase", .str "before-maintenance"), ("started_at", out.clock)]))
    refine runs_bind (runs_modify ?_)
    refine runs_bind (runs_silent (fun _ => rfl) (fun d => ?_) (fun e a t => ?_))
    · refine runs_bind (runs_silent (fun _ => rfl) (fun i => ?_) (fun e a t => ?_))
      · refine runs_bind (runs_modify ?_)
        have hearly : Early (⟨.waitIdle, true, i.answer, i.text⟩ ::
            ⟨.beginDrain, true, d.answer, d.text⟩ ::
            ⟨.beginTransaction w₀.current, true, out.answer, out.text⟩ :: w.trace) :=
          (hq.early.cons rfl).cons rfl
        refine (runs_replace ⟨?_, rfl, rfl, rfl, hearly.closed, hearly.unsealed⟩ release images
          w₀.current).mono (fun _ _ hu => hu) fun _ u hu => .inr hu
        exact List.mem_cons_of_mem _ (List.mem_cons_of_mem _ (List.mem_cons_of_mem _ hl))
      · exact .inl ⟨⟨hq.shared, hq.current, (hq.early.cons rfl).cons rfl⟩, hsafe⟩
    · exact .inl ⟨⟨hq.shared, hq.current, hq.early.cons rfl⟩, hsafe⟩
  · -- raised before or after the journal was written
    have hfold : ∃ j, (ws.take k).foldl Write.apply w = { w with journal := j } := by
      rcases hws with rfl | ⟨clock, hws⟩
      · exact ⟨w.journal, by simp⟩
      · obtain rfl := Option.some.inj hws
        cases k with
        | zero => exact ⟨w.journal, rfl⟩
        | succ k => exact ⟨_, by simp [Write.apply]; rfl⟩
    obtain ⟨j, hj⟩ := hfold
    rw [hj]
    exact .inl ⟨h.push (e := ⟨.beginTransaction w₀.current, false, a, t⟩) rfl j, hsafe⟩

/-- Admission reopened over the history `tr`, and perhaps the journal removed. -/
def Reopened (tr tr' : List Entry) : Prop :=
  (∃ b a t, tr' = ⟨.endDrain, b, a, t⟩ :: tr) ∨
    ∃ b a t a' t', tr' = ⟨.finish, b, a', t'⟩ :: ⟨.endDrain, true, a, t⟩ :: tr

/-- **The `finally` clause** when resuming is safe. -/
theorem runs_reopen {w : World} (hsafe : w.resumeSafe = true) :
    Runs (reopen rt o) w
      (fun _ u => u.shared = w.shared ∧ u.current = w.current ∧ Reopened w.trace u.trace ∧
        (w.transaction = true → ∃ a t a' t', u.trace =
          ⟨.finish, true, a', t'⟩ :: ⟨.endDrain, true, a, t⟩ :: w.trace))
      (fun _ u => u.shared = w.shared ∧ u.current = w.current ∧ Reopened w.trace u.trace) := by
  unfold reopen
  refine runs_bind (runs_get ?_)
  rw [hsafe]
  refine runs_bind (runs_silent (fun _ => rfl) (fun d => ?_) (fun e a t => ?_))
  · refine runs_bind (runs_get ?_)
    cases htr : w.transaction with
    | false => exact runs_pure ⟨rfl, rfl, .inl ⟨_, _, _, rfl⟩, nofun⟩
    | true =>
      refine runs_bind (runs_invoke (fun f ws hws => ?_) (fun e ws k a t hws => ?_))
      · obtain rfl := Option.some.inj hws
        exact runs_pure ⟨rfl, rfl, .inr ⟨_, _, _, _, _, rfl⟩, fun _ => ⟨_, _, _, _, rfl⟩⟩
      · have hfold : ∀ v : World, ∃ j, (ws.take k).foldl Write.apply v = { v with journal := j } := by
          intro v
          rcases hws with rfl | ⟨clock, hws⟩
          · exact ⟨v.journal, by simp⟩
          · obtain rfl := Option.some.inj hws
            cases k with
            | zero => exact ⟨v.journal, rfl⟩
            | succ k => exact ⟨none, by simp [Write.apply]⟩
        obtain ⟨j, hj⟩ := hfold _
        rw [hj]
        exact ⟨rfl, rfl, .inr ⟨_, _, _, _, _, rfl⟩⟩
  · exact ⟨rfl, rfl, .inl ⟨_, _, _, rfl⟩⟩

theorem runs_reopen_not {w : World} {Q : Unit → World → Prop} {E : Err → World → Prop}
    (hsafe : w.resumeSafe = false) (h : Q () w) : Runs (reopen rt o) w Q E := by
  unfold reopen
  refine runs_bind (runs_get ?_)
  rw [hsafe]
  exact runs_pure h

end Stages

/-! ## The transaction as a whole -/

/-- Admission is reopened over untouched services or a sealed release, and the journal is removed
only right after that. -/
structure Guarded (tr : List Entry) : Prop where
  endDrain : ∀ newer e older, tr = newer ++ e :: older → e.call = .endDrain →
    (∀ x ∈ older, x.call ≠ .stop) ∨ Sealed older
  finish : ∀ newer e older, tr = newer ++ e :: older → e.call = .finish →
    ∃ x rest, older = x :: rest ∧ x.call = .endDrain ∧ x.returned = true

/-- What the history of one run must look like, and what the run leaves behind. -/
structure Safe (w₀ : World) (sha : String) (res : Except Err Json) (u : World) : Prop where
  guarded : Guarded u.trace
  /-- Services stopped and neither release sealed: everything stays closed. -/
  broken : (∃ e ∈ u.trace, e.call = .stop) → Unsealed u.trace →
    Closed u.trace ∧ u.journal.isSome = true
  /-- A return: both new images started, healthy, recorded, and admission reopened. -/
  returned : ∀ images, res = .ok images → ∃ f d r h s l rest release previous,
    u.trace = f :: d :: r :: h :: s :: rest ∧ f.call = .finish ∧ f.returned = true ∧
    d.call = .endDrain ∧ d.returned = true ∧
    r.call = .record release images previous ∧ r.returned = true ∧
    h.call = .healthy images ∧ h.returned = true ∧ h.answer = true ∧
    s.call = .start release images ∧ s.returned = true ∧
    l ∈ rest ∧ l.call = .load sha ∧ l.returned = true ∧ images = imagesOf l.text
  /-- An exception after a completed rollback: both files are as before the run. -/
  restored : ∀ e, res = .error e → (∃ x ∈ u.trace, (∃ p, x.call = .restore p) ∧ x.returned = true) →
    u.current = w₀.current ∧ u.shared = w₀.shared

section Safe

variable {w₀ u : World} {sha : String} {res : Except Err Json} {tr : List Entry}

theorem Guarded.cons (h : Guarded tr) {x : Entry}
    (hd : x.call = .endDrain → (∀ y ∈ tr, y.call ≠ .stop) ∨ Sealed tr)
    (hf : x.call = .finish → ∃ y rest, tr = y :: rest ∧ y.call = .endDrain ∧ y.returned = true) :
    Guarded (x :: tr) := by
  have hsplit : ∀ newer e older, x :: tr = newer ++ e :: older →
      (e = x ∧ older = tr) ∨ ∃ n, tr = n ++ e :: older := by
    intro newer e older he
    rw [eq_comm, List.append_eq_cons_iff] at he
    rcases he with ⟨-, he⟩ | ⟨n, -, he⟩
    · rw [List.cons.injEq] at he
      exact .inl he
    · exact .inr ⟨n, he⟩
  constructor
  · intro newer e older he hc
    rcases hsplit newer e older he with ⟨rfl, rfl⟩ | ⟨n, hn⟩
    · exact hd hc
    · exact h.endDrain n e older hn hc
  · intro newer e older he hc
    rcases hsplit newer e older he with ⟨rfl, rfl⟩ | ⟨n, hn⟩
    · exact hf hc
    · exact h.finish n e older hn hc

theorem Closed.guarded (h : Closed tr) : Guarded tr := by
  constructor
  · intro newer e older he hc
    have := h e (by simp [he])
    simp [hc, Call.reopens] at this
  · intro newer e older he hc
    have := h e (by simp [he])
    simp [hc, Call.reopens] at this

theorem Reopened.guarded {tr' : List Entry} (h : Reopened tr tr') (hclosed : Closed tr)
    (hguard : (∀ x ∈ tr, x.call ≠ .stop) ∨ Sealed tr) : Guarded tr' := by
  rcases h with ⟨b, a, t, rfl⟩ | ⟨b, a, t, a', t', rfl⟩
  · exact hclosed.guarded.cons (fun _ => hguard) nofun
  · have hd : Guarded (⟨.endDrain, true, a, t⟩ :: tr) := hclosed.guarded.cons (fun _ => hguard) nofun
    exact hd.cons nofun fun _ => ⟨_, _, rfl, rfl, rfl⟩

/-- What is on top of the old history is a step that reopens. -/
theorem Reopened.mem {tr' : List Entry} (h : Reopened tr tr') {x : Entry} (hx : x ∈ tr') :
    x.call.reopens = true ∨ x ∈ tr := by
  rcases h with ⟨b, a, t, rfl⟩ | ⟨b, a, t, a', t', rfl⟩
  · rcases List.mem_cons.mp hx with rfl | hx
    · exact .inl rfl
    · exact .inr hx
  · rcases List.mem_cons.mp hx with rfl | hx
    · exact .inl rfl
    · rcases List.mem_cons.mp hx with rfl | hx
      · exact .inl rfl
      · exact .inr hx

theorem Reopened.mono {tr' : List Entry} (h : Reopened tr tr') {x : Entry} (hx : x ∈ tr) :
    x ∈ tr' := by
  rcases h with ⟨b, a, t, rfl⟩ | ⟨b, a, t, a', t', rfl⟩ <;> simp [hx]

/-- The run failed before any service was touched. -/
theorem Quiet.safe_error {e : Err} (h : Quiet w₀ u) : Safe w₀ sha (.error e) u := by
  refine ⟨h.early.closed.guarded, fun ⟨x, hx, hc⟩ => absurd hc (h.early.not_stop x hx), nofun,
    fun _ _ _ => ⟨h.current, h.shared⟩⟩

/-- The same, with admission reopened afterwards. -/
theorem Quiet.safe_reopened {e : Err} {v : World} (h : Quiet w₀ u) (hs : v.shared = u.shared)
    (hc : v.current = u.current) (hr : Reopened u.trace v.trace) : Safe w₀ sha (.error e) v := by
  refine ⟨hr.guarded h.early.closed (.inl h.early.not_stop), ?_, nofun,
    fun _ _ _ => ⟨hc.trans h.current, hs.trans h.shared⟩⟩
  rintro ⟨x, hx, hstop⟩
  rcases hr.mem hx with hre | hold
  · simp [hstop, Call.reopens] at hre
  · exact absurd hstop (h.early.not_stop x hold)

/-- Neither direction could be completed. -/
theorem Broken.safe {l : Entry} {e : Err} (h : Broken l u) : Safe w₀ sha (.error e) u := by
  refine ⟨h.closed.guarded, fun _ _ => ⟨h.closed, h.journal⟩, nofun, ?_⟩
  rintro _ - ⟨x, hx, ⟨p, hp⟩, hret⟩
  have := h.unsealed x hx hret
  simp [hp, Call.seals] at this

/-- The previous release is back, and admission was reopened or could not be. -/
theorem RolledBack.safe {rt : Runtime} {e : Err} {v : World}
    (h : RolledBack rt w₀.current u) (hrt : rt.shared = w₀.shared)
    (hs : v.shared = u.shared) (hc : v.current = u.current) (hr : Reopened u.trace v.trace) :
    Safe w₀ sha (.error e) v := by
  obtain ⟨a, t, x, s, rest, images, htr, himg, hsc, hsr, hxc, hxr, hxa, hcl⟩ := h.trace
  have hsealed : Sealed u.trace :=
    ⟨_, x, s, rest, w₀.current, images, htr, hsc, hsr, hxc, hxr, hxa, rfl, .inr ⟨rfl, himg⟩⟩
  have hclosed : Closed u.trace := by
    rw [htr]
    exact ((hcl.cons (by rw [hsc]; rfl)).cons (by rw [hxc]; rfl)).cons rfl
  refine ⟨hr.guarded hclosed (.inr hsealed), fun _ huns => ?_, nofun,
    fun _ _ _ => ⟨hc.trans h.current, hs.trans (h.shared.trans hrt)⟩⟩
  have := huns _ (hr.mono (by rw [htr]; exact List.mem_cons_self)) rfl
  simp [Call.seals] at this

/-- The new release is in place, and admission was reopened or could not be. -/
theorem Replaced.safe {l : Entry} {release : Json} {v : World}
    (h : Replaced l release (imagesOf l.text) u) (hl : l.call = .load sha) (hlr : l.returned = true)
    (hr : Reopened u.trace v.trace)
    (hok : ∀ i, res = .ok i → i = imagesOf l.text ∧ ∃ a t a' t', v.trace =
      ⟨.finish, true, a', t'⟩ :: ⟨.endDrain, true, a, t⟩ :: u.trace) : Safe w₀ sha res v := by
  obtain ⟨a, t, x, s, rest, previous, htr, hsc, hsr, hxc, hxr, hxa, hcl, huns, hmem⟩ := h.trace
  have hsealed : Sealed u.trace :=
    ⟨_, x, s, rest, release, _, htr, hsc, hsr, hxc, hxr, hxa, rfl, .inl ⟨previous, rfl⟩⟩
  have hclosed : Closed u.trace := by
    rw [htr]
    exact ((hcl.cons (by rw [hsc]; rfl)).cons (by rw [hxc]; rfl)).cons rfl
  refine ⟨hr.guarded hclosed (.inr hsealed), fun _ huns => ?_, fun images hres => ?_, ?_⟩
  · have := huns _ (hr.mono (by rw [htr]; exact List.mem_cons_self)) rfl
    simp [Call.seals] at this
  · obtain ⟨rfl, a, t, a', t', hv⟩ := hok images hres
    exact ⟨_, _, _, x, s, l, rest, release, previous, by rw [hv, htr], rfl, rfl, rfl, rfl, rfl,
      rfl, hxc, hxr, hxa, hsc, hsr, hmem, hl, hlr, rfl⟩
  · -- no restore was completed on this way
    rintro _ - ⟨y, hy, ⟨p, hp⟩, hret⟩
    rcases hr.mem hy with hre | hy
    · simp [hp, Call.reopens] at hre
    · rw [htr] at hy
      have hrest : Unsealed (x :: s :: rest) :=
        (huns.cons fun _ => by rw [hsc]; rfl).cons fun _ => by rw [hxc]; rfl
      rcases List.mem_cons.mp hy with rfl | hy
      · simp at hp
      · have := hrest y hy hret
        simp [hp, Call.seals] at this

/-- **Rollout transaction.**  For every assignment of outcomes to the runtime steps, every archive
verdict and every content of the files, the run is `Safe`. -/
theorem run_safe (rt : Runtime) (o : Oracle) (archive : Except Err Unit) (sha : String) (w₀ : World)
    (htrace : w₀.trace = []) (hshared : rt.shared = w₀.shared) :
    Safe w₀ sha (outcome (run rt o archive sha) w₀).1 (outcome (run rt o archive sha) w₀).2 := by
  have hquiet₀ : Quiet w₀ w₀ := ⟨rfl, rfl, by rw [htrace]; nofun⟩
  have hrun : Runs (run rt o archive sha) w₀ (fun i u => Safe w₀ sha (.ok i) u)
      (fun e u => Safe w₀ sha (.error e) u) := by
    unfold run
    refine runs_bind ?_
    cases archive with
    | error e => exact runs_throw hquiet₀.safe_error
    | ok _ =>
    refine runs_pure ?_
    refine runs_bind (runs_silent (fun _ => rfl) (fun p => ?_)
      fun e a t => (hquiet₀.push rfl w₀.journal).safe_error)
    have hprep := hquiet₀.push (e := ⟨.prepare sha, true, p.answer, p.text⟩) rfl w₀.journal
    refine runs_bind (runs_silent (fun _ => rfl) (fun l => ?_)
      fun e a t => (hprep.push rfl w₀.journal).safe_error)
    have hload := hprep.push (e := ⟨.load sha, true, l.answer, l.text⟩) rfl w₀.journal
    refine runs_bind (runs_silent (fun _ => rfl) (fun q => ?_)
      fun e a t => (hload.push rfl w₀.journal).safe_error)
    have hprev := hload.push (e := ⟨.previous, true, q.answer, q.text⟩) rfl w₀.journal
    refine runs_bind (runs_get ?_)
    refine runs_bind (runs_silent (fun _ => rfl) (fun b => ?_)
      fun e a t => (hprev.push rfl w₀.journal).safe_error)
    have hbusy := hprev.push (e := ⟨.busy, true, b.answer, b.text⟩) rfl w₀.journal
    cases hans : b.answer with
    | true =>
      rw [hans] at hbusy
      exact runs_bind (runs_throw hbusy.safe_error)
    | false =>
    refine runs_bind (runs_modify ?_)
    have hstart : Quiet w₀ { w₀ with
        trace := ⟨.busy, true, false, b.text⟩ :: ⟨.previous, true, q.answer, q.text⟩ ::
          ⟨.load sha, true, l.answer, l.text⟩ :: ⟨.prepare sha, true, p.answer, p.text⟩ :: w₀.trace
        resumeSafe := true, transaction := false } := ⟨rfl, rfl, (hans ▸ hbusy).early⟩
    have htransact := runs_transact rt o (l := ⟨.load sha, true, l.answer, l.text⟩) hstart
      (by simp) rfl (.obj [("sha", .str sha), ("compose", .str p.text)]) (imagesOf l.text)
    refine runs_bind (runs_tryFinally (htransact.mono (fun _ u hu => ?_) fun e u hu => ?_))
    · -- the new release is in place
      refine (runs_reopen hu.resumeSafe).mono (fun _ v hv => ?_) fun e v hv => ?_
      · exact runs_pure (hu.safe rfl rfl hv.2.2.1 fun i hi => by
          obtain rfl := Except.ok.inj hi
          exact ⟨rfl, hv.2.2.2 hu.transaction⟩)
      · exact hu.safe rfl rfl hv.2.2 nofun
    · rcases hu with ⟨hq, hsafe⟩ | hb | hr
      · refine (runs_reopen hsafe).mono (fun _ v hv => ?_) fun e v hv => ?_
        · exact hq.safe_reopened hv.1 hv.2.1 hv.2.2.1
        · exact hq.safe_reopened hv.1 hv.2.1 hv.2.2
      · exact runs_reopen_not hb.resumeSafe hb.safe
      · refine (runs_reopen hr.resumeSafe).mono (fun _ v hv => ?_) fun e v hv => ?_
        · exact hr.safe hshared hv.1 hv.2.1 hv.2.2.1
        · exact hr.safe hshared hv.1 hv.2.1 hv.2.2
  unfold Runs at hrun
  split at hrun <;> rename_i heq <;> simpa [heq] using hrun

end Safe

/-- A host whose previous images are `old`. -/
def oldRelease : World where
  shared := .obj [("dependency_images", .obj [])]
  current := .obj [("images", imagesOf "old")]
  journal := none
  trace := []
  resumeSafe := false
  transaction := false

/-- Every step works, except that the images `new` never become healthy. -/
def unhealthy : Oracle := fun _ c => match c with
  | .load _ => { text := "new" }
  | .busy => { answer := false }
  | .healthy images => { answer := decide (images = imagesOf "old") }
  | _ => {}

theorem run_safe_unhealthy :
    ((outcome (run ⟨oldRelease.shared, id⟩ unhealthy (.ok ()) "sha") oldRelease).2.trace.map
      Entry.call).take 3 = [.finish, .endDrain, .restore oldRelease.current] ∧
    Safe oldRelease "sha"
      (outcome (run ⟨oldRelease.shared, id⟩ unhealthy (.ok ()) "sha") oldRelease).1
      (outcome (run ⟨oldRelease.shared, id⟩ unhealthy (.ok ()) "sha") oldRelease).2 :=
  ⟨by decide +kernel, run_safe _ _ _ _ _ rfl rfl⟩

end Inference.Deploy
