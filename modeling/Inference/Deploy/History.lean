import Inference.Deploy.Rollout
import Inference.Lib.Run

/-!
# Inference.Deploy.History — one rollout after the other

The host of `deploy/ci/deploy_platform.py` over any number of rollouts.  `main` runs them one at a
time under the host lock, `Runtime.__init__` refuses to begin while the journal of an earlier one is
there, and the backend's own rollouts change the shared configuration in between.  Each rollout is
the program of `Inference.Deploy.Rollout` under an oracle of its own; one that is killed raises from
some step on and writes no more.

* `Host.step`: the host.
* `Consistent`: without a journal, admission is open, and what runs, what `current.json` records and
  what the shared configuration pins are the same images.
* **`rollouts_consistent`**: so it is after every history.
-/

namespace Inference.Deploy

open Inference.Lib

/-- What the two containers run: the images of the last start, unless something came after it. -/
inductive Platform where
  | running (images : Json)
  | unknown
deriving DecidableEq, Repr

structure Host where
  shared : Json
  current : Json
  journal : Option Json
  platform : Platform
  /-- backend, gateway and adapter accept work -/
  admitting : Bool
deriving DecidableEq, Repr

/-- `self.project + '-' + service + '-1'` -/
def containerName (project service : String) : String := project ++ "-" ++ service ++ "-1"

/-- The platform after the steps of a rollout, newest first. -/
def platformAfter (p : Platform) : List Entry → Platform
  | [] => p
  | ⟨.stop, _, _, _⟩ :: _ => .unknown
  | ⟨.start _ images, returned, _, _⟩ :: _ => if returned then .running images else .unknown
  | _ :: tr => platformAfter p tr

/-- Admission after the steps of a rollout, newest first. -/
def admittingAfter (a : Bool) : List Entry → Bool
  | [] => a
  | ⟨.beginDrain, _, _, _⟩ :: _ => false
  | ⟨.endDrain, true, _, _⟩ :: _ => true
  | _ :: tr => admittingAfter a tr

/-- The process is killed in its `n`-th step, after `k` of the writes of that step. -/
def Oracle.killedAt (o : Oracle) (n k : ℕ) : Oracle := fun tr c =>
  if tr.length < n then o tr c
  else { raised := some (if tr.length = n then k else 0, .other "SIGKILL") }

inductive Event where
  /-- one call of `main` with its archive -/
  | rollout (archive : Except Err Unit) (sha : String) (o : Oracle)
  /-- the backend's rollout writes the shared configuration -/
  | backend (shared : Json)
  /-- an operator repairs the host and removes the journal -/
  | recovered (h : Host)

/-- The pin of a container in the shared configuration. -/
def pin (project : String) (shared : Json) (service : String) : Option Json :=
  (shared.get? "dependency_images").bind fun deps => deps.get? (containerName project service)

/-- The shared configuration pins these images. -/
def Pinned (project : String) (shared images : Json) : Prop :=
  ∀ s ∈ services, images.get? s ≠ none ∧ pin project shared s = images.get? s

instance (project : String) (shared images : Json) : Decidable (Pinned project shared images) :=
  inferInstanceAs (Decidable (∀ s ∈ services, images.get? s ≠ none ∧ _ = _))

/-- What runs, what is recorded and what is pinned are the same images. -/
def Agrees (project : String) (shared current : Json) (platform : Platform) : Prop :=
  ∃ images ∈ current.get? "images", platform = .running images ∧ Pinned project shared images

instance (project : String) (shared current : Json) (platform : Platform) :
    Decidable (Agrees project shared current platform) :=
  inferInstanceAs (Decidable (∃ images ∈ current.get? "images", _))

def Consistent (project : String) (h : Host) : Prop :=
  h.journal = none → h.admitting = true ∧ Agrees project h.shared h.current h.platform

namespace Host

/-- The files as a rollout finds them. -/
def world (h : Host) : World := ⟨h.shared, h.current, h.journal, [], false, false⟩

/-- What the rollout leaves behind. -/
def after (h : Host) (w : World) : Host :=
  ⟨w.shared, w.current, w.journal, platformAfter h.platform w.trace,
    admittingAfter h.admitting w.trace⟩

/-- One rollout: what `run` returns or raises, and the host it leaves. -/
def rollout (project : String) (h : Host) (archive : Except Err Unit) (sha : String) (o : Oracle) :
    Except Err Json × Host :=
  if h.journal.isSome then
    (.error (.deployError
      "Unfinished platform transaction; inspect recovery record before another rollout" 1), h)
  else
    let r := outcome (run ⟨h.shared, containerName project⟩ o archive sha) h.world
    (r.1, h.after r.2)

def step (project : String) (h : Host) : Event → Option Host
  | .rollout archive sha o => some (h.rollout project archive sha o).2
  | .backend shared =>
    -- under the same lock, and without our pins
    if ∀ s ∈ services, pin project shared s = pin project h.shared s
    then some { h with shared := shared } else none
  | .recovered h' =>
    if h'.admitting = true ∧ Agrees project h'.shared h'.current h'.platform
    then some h' else none

end Host

/-! ## The records -/

section Records

variable {project : String} {shared images : Json}

theorem get?_obj (fields : List (String × Json)) (k : String) :
    (Json.obj fields).get? k = Dict.get? k fields := by
  induction fields with
  | nil => rfl
  | cons e fields ih =>
    obtain ⟨a, v⟩ := e
    have ih : fields.lookup k = Dict.get? k fields := ih
    rw [Json.get?, List.lookup_cons, Dict.get?, ih]
    by_cases ha : a = k
    · simp [ha]
    · rw [if_neg ha, beq_false_of_ne (Ne.symm ha)]

theorem containerName_injective : Function.Injective (containerName project) := by
  intro a b h
  have hlist := congrArg String.toList h
  simp only [containerName, String.toList_append, List.append_cancel_right_eq,
    List.append_cancel_left_eq] at hlist
  exact String.toList_injective hlist

/-- **The pins that `record` writes** are the images. -/
theorem pinned_updated {rt : Runtime} (hc : rt.container = containerName project)
    (h : rt.pinned images = some shared) : Pinned project shared images := by
  unfold Runtime.pinned at h
  split at h
  · split at h
    · rename_i fields _ deps _
      obtain ⟨deps', hdeps, rfl⟩ := Option.map_eq_some_iff.mp h
      simp only [services, List.foldlM_cons, List.foldlM_nil, Option.bind_eq_bind,
        Option.bind_eq_some_iff, Option.map_eq_some_iff, Option.pure_def, Option.some.injEq] at hdeps
      obtain ⟨d, ⟨i, hi, rfl⟩, e, ⟨j, hj, rfl⟩, rfl⟩ := hdeps
      have hne : containerName project "gateway" ≠ containerName project "text-worker" :=
        fun he => absurd (containerName_injective he) (by decide)
      intro s hs
      simp only [services, List.mem_cons, List.not_mem_nil, or_false] at hs
      rw [pin, get?_obj, Dict.get?_set_self, Option.bind_some, get?_obj, hc]
      rcases hs with rfl | rfl
      · rw [Dict.get?_set_of_ne hne, Dict.get?_set_self, hi]
        exact ⟨by simp, rfl⟩
      · rw [Dict.get?_set_self, hj]
        exact ⟨by simp, rfl⟩
    · cases h
  · cases h

theorem images_of_record {release previous clock current : Json}
    (h : releaseRecord release images previous clock = some current) :
    current.get? "images" = some images := by
  unfold releaseRecord at h
  split at h
  · obtain rfl := Option.some.inj h
    rw [get?_obj, Dict.get?_set_of_ne (by decide), Dict.get?_set_of_ne (by decide),
      Dict.get?_set_self]
  · cases h

end Records

/-! ## What the steps say about platform and admission -/

section Trace

variable {p : Platform} {a : Bool} {tr tr' : List Entry}

/-- The containers are left alone. -/
def Call.harmless : Call → Bool
  | .stop | .start _ _ => false
  | _ => true

theorem platformAfter_cons {e : Entry} (he : e.call.harmless = true) :
    platformAfter p (e :: tr) = platformAfter p tr := by
  obtain ⟨c, b, x, y⟩ := e
  cases c <;> first | rfl | cases he

theorem platformAfter_harmless (h : ∀ e ∈ tr, e.call.harmless = true) : platformAfter p tr = p := by
  induction tr with
  | nil => rfl
  | cons e tr ih =>
    rw [platformAfter_cons (h e List.mem_cons_self)]
    exact ih fun x hx => h x (List.mem_cons_of_mem _ hx)

theorem Early.platform (h : Early tr) : platformAfter p tr = p := by
  refine platformAfter_harmless fun e he => ?_
  have := h e he
  revert this
  cases e.call <;> simp [Call.early, Call.harmless]

theorem Reopened.platform (h : Reopened tr tr') : platformAfter p tr' = platformAfter p tr := by
  rcases h with ⟨b, x, y, rfl⟩ | ⟨b, x, y, x', y', rfl⟩
  · exact platformAfter_cons rfl
  · exact (platformAfter_cons rfl).trans (platformAfter_cons rfl)

/-- After a start that returned, a check and a record. -/
theorem platformAfter_started {e h s : Entry} {release images : Json}
    (he : e.call.harmless = true) (hh : h.call = .healthy images) (hs : s.call = .start release images)
    (hr : s.returned = true) : platformAfter p (e :: h :: s :: tr) = .running images := by
  rw [platformAfter_cons he, platformAfter_cons (by rw [hh]; rfl)]
  obtain ⟨c, b, x, y⟩ := s
  obtain rfl : c = .start release images := hs
  obtain rfl : b = true := hr
  rfl

theorem admittingAfter_cons {e : Entry} (hb : e.call ≠ .beginDrain) (ha : admittingAfter a tr = true) :
    admittingAfter a (e :: tr) = true := by
  obtain ⟨c, b, x, y⟩ := e
  cases c with
  | beginDrain => exact absurd rfl hb
  | endDrain => cases b <;> first | rfl | exact ha
  | _ => exact ha

/-- The drain has not begun. -/
def Undrained (tr : List Entry) : Prop := ∀ e ∈ tr, e.call ≠ .beginDrain

theorem Undrained.cons (h : Undrained tr) {e : Entry} (he : e.call ≠ .beginDrain) :
    Undrained (e :: tr) := List.forall_mem_cons.mpr ⟨he, h⟩

theorem admittingAfter_undrained (h : Undrained tr) (ha : a = true) :
    admittingAfter a tr = true := by
  induction tr with
  | nil => exact ha
  | cons e tr ih =>
    exact admittingAfter_cons (h e List.mem_cons_self) (ih fun x hx => h x (List.mem_cons_of_mem _ hx))

end Trace

/-! ## What a rollout does to journal and files -/

section Program

variable {rt : Runtime} {o : Oracle} {w w₀ : World}

/-- The journal and the flag of its transaction stay. -/
def Keeps (w u : World) : Prop := u.journal = w.journal ∧ u.transaction = w.transaction

theorem runs_keep {c : Call} (hk : Keeps w₀ w)
    (hc : ∀ clock ws, c.writes rt clock = some ws → ∀ x ∈ ws, x.onFiles = true) :
    Runs (invoke rt o c) w (fun _ u => Keeps w₀ u) (fun _ u => Keeps w₀ u) := by
  refine runs_invoke (fun out ws hws => ?_) (fun e ws k a t hws => ?_)
  · obtain ⟨a, b, hab⟩ := foldl_onFiles (hc _ ws hws) w
    rw [hab]
    exact hk
  · have hmem : ∀ x ∈ ws.take k, x.onFiles = true := by
      intro x hx
      rcases hws with rfl | ⟨clock, hws⟩
      · simp at hx
      · exact hc clock ws hws x (List.mem_of_mem_take hx)
    obtain ⟨s, t, hst⟩ := foldl_onFiles hmem w
    rw [hst]
    exact hk

/-- The steps that write neither file nor journal. -/
theorem silent_onFiles {c : Call} (hc : ∀ clock, c.writes rt clock = some []) :
    ∀ clock ws, c.writes rt clock = some ws → ∀ x ∈ ws, x.onFiles = true := by
  intro clock ws hws
  rw [hc, Option.some.injEq] at hws
  subst hws
  exact List.forall_mem_nil _

theorem restore_onFiles {previous : Json} (clock : Json) (ws : List Write)
    (h : (Call.restore previous).writes rt clock = some ws) : ∀ x ∈ ws, x.onFiles = true := by
  obtain rfl := Option.some.inj h
  simp [Write.onFiles]

theorem runs_start_keep {release images : Json} {msg : Err} {k : M Unit} (hk : Keeps w₀ w)
    (hrest : ∀ u, Keeps w₀ u → Runs k u (fun _ v => Keeps w₀ v) (fun _ v => Keeps w₀ v)) :
    Runs (do let _ ← invoke rt o (.start release images)
             let h ← invoke rt o (.healthy images)
             if !h.answer then throw msg
             k) w (fun _ u => Keeps w₀ u) (fun _ u => Keeps w₀ u) := by
  refine runs_bind ((runs_keep hk (silent_onFiles fun _ => rfl)).mono (fun _ u hu => ?_)
    fun _ _ hu => hu)
  refine runs_bind ((runs_keep hu (silent_onFiles fun _ => rfl)).mono (fun h v hv => ?_)
    fun _ _ hv => hv)
  cases hans : h.answer with
  | false => exact runs_bind (runs_throw hv)
  | true => exact hrest v hv

theorem runs_forward_keep (hk : Keeps w₀ w) (release images previous : Json) :
    Runs (forward rt o release images previous) w (fun _ u => Keeps w₀ u) (fun _ u => Keeps w₀ u) := by
  refine runs_bind ((runs_keep hk (silent_onFiles fun _ => rfl)).mono (fun _ u hu => ?_)
    fun _ _ hu => hu)
  refine runs_start_keep hu fun v hv => ?_
  refine runs_bind ((runs_keep hv fun _ _ => record_onFiles).mono (fun _ x hx => ?_) fun _ _ hx => hx)
  exact runs_modify hx

theorem runs_rollback_keep (hk : Keeps w₀ w) (previous : Json) :
    Runs (rollback rt o previous) w (fun _ u => Keeps w₀ u) (fun _ u => Keeps w₀ u) := by
  refine runs_bind ((runs_keep hk (silent_onFiles fun _ => rfl)).mono (fun _ u hu => ?_)
    fun _ _ hu => hu)
  cases previous.get? "images" with
  | none => exact runs_throw hu
  | some images =>
    refine runs_start_keep hu fun v hv => ?_
    refine runs_bind ((runs_keep hv restore_onFiles).mono (fun _ x hx => ?_) fun _ _ hx => hx)
    exact runs_modify hx

theorem runs_replace_keep (hk : Keeps w₀ w) (release images previous : Json) :
    Runs (replace rt o release images previous) w (fun _ u => Keeps w₀ u) (fun _ u => Keeps w₀ u) := by
  refine runs_tryCatch ((runs_forward_keep hk release images previous).mono (fun _ _ hu => hu)
    fun _ u hu => ?_)
  refine runs_bind (runs_tryCatch ((runs_rollback_keep hu previous).mono (fun _ _ hv => ?_)
    fun _ _ hv => ?_)) <;> exact runs_throw hv

/-- The journal after the outer `try`: it is there, or the drain never began. -/
def Journaled (u : World) : Prop :=
  (u.transaction = true ∧ u.journal.isSome = true) ∨
    (u.transaction = false ∧ Undrained u.trace)

theorem runs_transact_journal (release images previous : Json) (ht : w.transaction = false)
    (hd : Undrained w.trace) :
    Runs (transact rt o release images previous) w (fun _ u => u.journal.isSome = true)
      (fun _ u => Journaled u) := by
  refine runs_bind (runs_invoke (fun out ws hws => ?_) (fun e ws k a t hws => ?_))
  · obtain rfl := Option.some.inj hws
    refine runs_bind (runs_modify ?_)
    have hdone : ∀ u, Keeps { w with
        journal := some (.obj [("previous", previous), ("backend_config", rt.shared),
          ("phase", .str "before-maintenance"), ("started_at", out.clock)])
        transaction := true } u → Journaled u := by
      rintro u ⟨hj, hu⟩
      exact .inl ⟨hu, by rw [hj]; rfl⟩
    refine runs_bind ((runs_keep ⟨rfl, rfl⟩ (silent_onFiles fun _ => rfl)).mono (fun _ u hu => ?_)
      fun _ u hu => hdone u hu)
    refine runs_bind ((runs_keep hu (silent_onFiles fun _ => rfl)).mono (fun _ v hv => ?_)
      fun _ v hv => hdone v hv)
    refine runs_bind (runs_modify ?_)
    have hv' : Keeps _ { v with resumeSafe := false } := hv
    refine (runs_replace_keep hv' release images previous).mono (fun _ x hx => ?_)
      fun _ x hx => hdone x hx
    rw [hx.1]
    rfl
  · refine .inr ⟨?_, ?_⟩
    · have hflag : ∀ (ws : List Write) (w : World),
          (ws.foldl Write.apply w).transaction = w.transaction := by
        intro ws
        induction ws with
        | nil => exact fun _ => rfl
        | cons x ws ih => exact fun w => (ih (x.apply w)).trans (by cases x <;> rfl)
      exact (hflag _ w).trans ht
    · exact Undrained.cons hd (by simp)

/-- The journal goes only after admission has been reopened. -/
def Reopens (w u : World) : Prop :=
  u.journal = w.journal ∨ ∀ a, admittingAfter a u.trace = true

theorem runs_reopen_journal :
    Runs (reopen rt o) w (fun _ u => Reopens w u) (fun _ u => Reopens w u) := by
  refine runs_bind (runs_get ?_)
  cases w.resumeSafe with
  | false => exact runs_pure (.inl rfl)
  | true =>
    refine runs_bind (runs_silent (fun _ => rfl) (fun d => ?_) (fun e a t => .inl rfl))
    refine runs_bind (runs_get ?_)
    cases w.transaction with
    | false => exact runs_pure (.inl rfl)
    | true =>
      exact runs_bind (runs_invoke (fun out ws hws => runs_pure (.inr fun a => rfl))
        fun e ws k a t hws => .inr fun a => rfl)

theorem runs_reopen_gone (hsafe : w.resumeSafe = true) (ht : w.transaction = true) :
    Runs (reopen rt o) w (fun _ u => u.journal = none) (fun _ _ => True) := by
  refine runs_bind (runs_get ?_)
  rw [hsafe]
  refine runs_bind (runs_silent (fun _ => rfl) (fun d => ?_) (fun _ _ _ => trivial))
  refine runs_bind (runs_get ?_)
  dsimp only
  rw [ht]
  refine runs_bind (runs_invoke (fun out ws hws => runs_pure ?_) fun _ _ _ _ _ _ => trivial)
  obtain rfl := Option.some.inj hws
  rfl

/-- **The new release is written to both files.** -/
theorem runs_forward_files (release images previous : Json) :
    Runs (forward rt o release images previous) w (fun _ u => rt.pinned images = some u.shared ∧
      u.current.get? "images" = some images) (fun _ _ => True) := by
  refine runs_bind ((runs_true _ _).mono (fun _ _ _ => ?_) fun _ _ _ => trivial)
  refine runs_bind ((runs_true _ _).mono (fun _ _ _ => ?_) fun _ _ _ => trivial)
  refine runs_bind ((runs_true _ _).mono (fun h v _ => ?_) fun _ _ _ => trivial)
  cases hans : h.answer with
  | false => exact runs_bind (runs_throw trivial)
  | true =>
    refine runs_bind (runs_invoke (fun out ws hws => ?_) fun _ _ _ _ _ _ => trivial)
    simp only [Call.writes, Option.bind_eq_bind, Option.bind_eq_some_iff, Option.pure_def,
      Option.some.injEq] at hws
    obtain ⟨updated, hupdated, current, hcurrent, rfl⟩ := hws
    exact runs_modify ⟨hupdated, images_of_record hcurrent⟩

theorem runs_transact_files (release images previous : Json) :
    Runs (transact rt o release images previous) w (fun _ u => rt.pinned images = some u.shared ∧
      u.current.get? "images" = some images) (fun _ _ => True) := by
  refine runs_bind ((runs_true _ _).mono (fun _ _ _ => ?_) fun _ _ _ => trivial)
  refine runs_bind (runs_modify ?_)
  refine runs_bind ((runs_true _ _).mono (fun _ _ _ => ?_) fun _ _ _ => trivial)
  refine runs_bind ((runs_true _ _).mono (fun _ _ _ => ?_) fun _ _ _ => trivial)
  refine runs_bind (runs_modify ?_)
  refine runs_tryCatch ((runs_forward_files release images previous).mono (fun _ _ hu => hu)
    fun _ _ _ => ?_)
  exact runs_bind ((runs_true _ _).mono (fun _ _ _ => runs_throw trivial) fun _ _ _ => trivial)

end Program

/-! ## One rollout -/

section Rollout

variable {project : String} {h : Host} {u v : World}

/-- What a rollout leaves behind, in its own terms. -/
def Settled (project : String) (h : Host) (w : World) : Prop := Consistent project (h.after w)

/-- The release that was sealed runs, and admission is open if the journal is gone. -/
theorem settled_sealed {e x s : Entry} {release images : Json} {rest : List Entry}
    (htr : u.trace = e :: x :: s :: rest) (he : e.call.harmless = true)
    (hx : x.call = .healthy images) (hs : s.call = .start release images) (hr : s.returned = true)
    (himages : v.current.get? "images" = some images) (hpinned : Pinned project v.shared images)
    (hreopened : Reopened u.trace v.trace) (hjournal : u.journal.isSome = true)
    (hreopens : Reopens u v) : Settled project h v := by
  intro hnone
  refine ⟨?_, images, himages, ?_, hpinned⟩
  · refine hreopens.resolve_left (fun hsame => ?_) h.admitting
    rw [← hsame, show v.journal = none from hnone] at hjournal
    cases hjournal
  · exact hreopened.platform.trans ((congrArg _ htr).trans (platformAfter_started he hx hs hr))

/-- Nothing was touched. -/
theorem Quiet.settled {w : World} (hq : Quiet h.world u) (hc : Consistent project h)
    (hfree : h.journal = none) (hjournaled : Journaled u) (hs : w.shared = u.shared)
    (hcur : w.current = u.current) (hreopened : Reopened u.trace w.trace) (hreopens : Reopens u w) :
    Settled project h w := by
  intro hnone
  obtain ⟨hadmitting, hagrees⟩ := hc hfree
  refine ⟨?_, ?_⟩
  · rcases hjournaled with ⟨-, hsome⟩ | ⟨-, hd⟩
    · refine hreopens.resolve_left (fun hsame => ?_) h.admitting
      rw [← hsame, show w.journal = none from hnone] at hsome
      cases hsome
    · have hopen := admittingAfter_undrained hd hadmitting
      change admittingAfter h.admitting w.trace = true
      rcases hreopened with ⟨b, a, t, htr⟩ | ⟨b, a, t, a', t', htr⟩ <;> rw [htr]
      · exact admittingAfter_cons (by simp) hopen
      · exact admittingAfter_cons (by simp) (admittingAfter_cons (by simp) hopen)
  · have hplatform : platformAfter h.platform w.trace = h.platform :=
      hreopened.platform.trans hq.early.platform
    change Agrees project w.shared w.current (platformAfter h.platform w.trace)
    rw [hplatform, hs, hcur, hq.shared, hq.current]
    exact hagrees

/-- The rollout failed before its transaction. -/
theorem Quiet.settled_early (hq : Quiet h.world u) (hc : Consistent project h)
    (hfree : h.journal = none) (hd : Undrained u.trace) : Settled project h u := by
  intro _
  obtain ⟨hadmitting, hagrees⟩ := hc hfree
  refine ⟨admittingAfter_undrained hd hadmitting, ?_⟩
  change Agrees project u.shared u.current (platformAfter h.platform u.trace)
  rw [hq.early.platform, hq.shared, hq.current]
  exact hagrees

/-- **One rollout.**  If it returns, its images run and the journal is gone. -/
theorem run_settled (o : Oracle) (archive : Except Err Unit) (sha : String) (hc : Consistent project h)
    (hfree : h.journal = none) :
    Runs (run ⟨h.shared, containerName project⟩ o archive sha) h.world
      (fun images u => Settled project h u ∧ u.journal = none ∧
        platformAfter h.platform u.trace = .running images)
      (fun _ u => Settled project h u) := by
  have hquiet₀ : Quiet h.world h.world := ⟨rfl, rfl, List.forall_mem_nil _⟩
  have hearly : ∀ {u : World}, Quiet h.world u → Undrained u.trace → Settled project h u :=
    fun hq hd => hq.settled_early hc hfree hd
  have hnil : Undrained h.world.trace := List.forall_mem_nil _
  refine runs_bind ?_
  cases archive with
  | error e => exact runs_throw (hearly hquiet₀ hnil)
  | ok _ =>
  refine runs_pure (runs_bind (runs_silent (fun _ => rfl) (fun p => ?_) fun e a t =>
    hearly (hquiet₀.push rfl h.journal) (hnil.cons (by simp))))
  have hprep := hquiet₀.push (e := ⟨.prepare sha, true, p.answer, p.text⟩) rfl h.journal
  have hprep' := hnil.cons (e := ⟨.prepare sha, true, p.answer, p.text⟩) (by simp)
  refine runs_bind (runs_silent (fun _ => rfl) (fun l => ?_) fun e a t =>
    hearly (hprep.push rfl h.journal) (hprep'.cons (by simp)))
  have hload := hprep.push (e := ⟨.load sha, true, l.answer, l.text⟩) rfl h.journal
  have hload' := hprep'.cons (e := ⟨.load sha, true, l.answer, l.text⟩) (by simp)
  refine runs_bind (runs_silent (fun _ => rfl) (fun q => ?_) fun e a t =>
    hearly (hload.push rfl h.journal) (hload'.cons (by simp)))
  have hprev := hload.push (e := ⟨.previous, true, q.answer, q.text⟩) rfl h.journal
  have hprev' := hload'.cons (e := ⟨.previous, true, q.answer, q.text⟩) (by simp)
  refine runs_bind (runs_get (runs_bind (runs_silent (fun _ => rfl) (fun b => ?_) fun e a t =>
    hearly (hprev.push rfl h.journal) (hprev'.cons (by simp)))))
  have hbusy := hprev.push (e := ⟨.busy, true, b.answer, b.text⟩) rfl h.journal
  have hbusy' := hprev'.cons (e := ⟨.busy, true, b.answer, b.text⟩) (by simp)
  cases hans : b.answer with
  | true =>
    rw [hans] at hbusy hbusy'
    exact runs_bind (runs_throw (hearly hbusy hbusy'))
  | false =>
  rw [hans] at hbusy hbusy'
  refine runs_bind (runs_modify ?_)
  set rt : Runtime := ⟨h.shared, containerName project⟩
  set release : Json := .obj [("sha", .str sha), ("compose", .str p.text)]
  -- all that is known of the outer `try`
  have htransact := ((runs_transact rt o (l := ⟨.load sha, true, l.answer, l.text⟩)
    (w := { h.world with
      trace := ⟨.busy, true, false, b.text⟩ :: ⟨.previous, true, q.answer, q.text⟩ ::
        ⟨.load sha, true, l.answer, l.text⟩ :: ⟨.prepare sha, true, p.answer, p.text⟩ :: h.world.trace
      resumeSafe := true, transaction := false }) ⟨hbusy.shared, hbusy.current, hbusy.early⟩
    (by simp) rfl release (imagesOf l.text)).and
      (runs_transact_journal release (imagesOf l.text) h.world.current rfl hbusy')).and
      (runs_transact_files release (imagesOf l.text) h.world.current)
  refine runs_bind (runs_tryFinally (htransact.mono ?_ ?_))
  · rintro _ u ⟨⟨hreplaced, hjournal⟩, hpinned, himages⟩
    obtain ⟨a, t, x, s, rest, previous, htr, hs, hr, hx, -⟩ := hreplaced.trace
    have hdone : ∀ v : World, v.shared = u.shared → v.current = u.current →
        Reopened u.trace v.trace → Reopens u v → Settled project h v := by
      intro v hvs hvc hvt hvj
      refine settled_sealed htr rfl hx hs hr ?_ ?_ hvt hjournal hvj
      · rw [hvc]
        exact himages
      · rw [hvs]
        exact pinned_updated rfl hpinned
    have hplatform : ∀ v : World, Reopened u.trace v.trace →
        platformAfter h.platform v.trace = .running (imagesOf l.text) := fun v hvt =>
      hvt.platform.trans ((congrArg _ htr).trans (platformAfter_started rfl hx hs hr))
    refine (((runs_reopen hreplaced.resumeSafe).and runs_reopen_journal).and
      (runs_reopen_gone hreplaced.resumeSafe hreplaced.transaction)).mono
        (fun _ v hv => runs_pure ?_) (fun _ v hv => ?_)
    · obtain ⟨⟨⟨hvs, hvc, hvt, -⟩, hvj⟩, hgone⟩ := hv
      exact ⟨hdone v hvs hvc hvt hvj, hgone, hplatform v hvt⟩
    · obtain ⟨⟨⟨hvs, hvc, hvt⟩, hvj⟩, -⟩ := hv
      exact hdone v hvs hvc hvt hvj
  · rintro _ u ⟨⟨hstage, hjournaled⟩, -⟩
    rcases hstage with ⟨hq, hsafe⟩ | hbroken | hrolled
    · exact ((runs_reopen hsafe).and runs_reopen_journal).mono
        (fun _ v hv => hq.settled hc hfree hjournaled hv.1.1 hv.1.2.1 hv.1.2.2.1 hv.2)
        (fun _ v hv => hq.settled hc hfree hjournaled hv.1.1 hv.1.2.1 hv.1.2.2 hv.2)
    · refine runs_reopen_not hbroken.resumeSafe fun hnone => ?_
      have hsome := hbroken.journal
      rw [show u.journal = none from hnone] at hsome
      cases hsome
    · obtain ⟨a, t, x, s, rest, images, htr, himages, hs, hr, hx, -⟩ := hrolled.trace
      obtain ⟨-, images', himages', -, hpinned⟩ := hc hfree
      obtain rfl : images = images' := Option.some.inj (himages.symm.trans himages')
      have hjournal : u.journal.isSome = true := by
        rcases hjournaled with ⟨-, hsome⟩ | ⟨hno, -⟩
        · exact hsome
        · rw [hrolled.transaction] at hno
          cases hno
      have hdone : ∀ v : World, v.shared = u.shared → v.current = u.current →
          Reopened u.trace v.trace → Reopens u v → Settled project h v := by
        intro v hvs hvc hvt hvj
        refine settled_sealed htr rfl hx hs hr ?_ ?_ hvt hjournal hvj
        · rw [hvc, hrolled.current]
          exact himages
        · rw [hvs, hrolled.shared]
          exact hpinned
      exact ((runs_reopen hrolled.resumeSafe).and runs_reopen_journal).mono
        (fun _ v hv => hdone v hv.1.1 hv.1.2.1 hv.1.2.2.1 hv.2)
        (fun _ v hv => hdone v hv.1.1 hv.1.2.1 hv.1.2.2 hv.2)

theorem rollout_consistent (o : Oracle) (archive : Except Err Unit) (sha : String)
    (hc : Consistent project h) : Consistent project (h.rollout project archive sha o).2 ∧
      ∀ images, (h.rollout project archive sha o).1 = .ok images →
        (h.rollout project archive sha o).2.journal = none ∧
        (h.rollout project archive sha o).2.platform = .running images := by
  unfold Host.rollout
  cases hj : h.journal with
  | some j => exact ⟨hc, fun images hi => by cases hi⟩
  | none =>
    have hrun := run_settled o archive sha hc hj
    unfold Runs at hrun
    simp only [Option.isSome_none, Bool.false_eq_true, if_false]
    split at hrun <;> rename_i heq <;> simp only [heq]
    · refine ⟨hrun.1, fun images hi => ?_⟩
      obtain rfl := Except.ok.inj hi
      exact hrun.2
    · exact ⟨hrun, fun images hi => by cases hi⟩

/-- **Step lemma.** -/
theorem Consistent.step {t : Host} (hc : Consistent project h) {e : Event}
    (hs : h.step project e = some t) : Consistent project t := by
  cases e with
  | rollout archive sha o =>
    obtain rfl := Option.some.inj hs
    exact (rollout_consistent o archive sha hc).1
  | backend shared =>
    simp only [Host.step] at hs
    split at hs
    · rename_i hpins
      obtain rfl := Option.some.inj hs
      intro hnone
      obtain ⟨hadmitting, images, himages, hrunning, hpinned⟩ := hc hnone
      refine ⟨hadmitting, images, himages, hrunning, fun s hin => ⟨(hpinned s hin).1, ?_⟩⟩
      exact (hpins s hin).trans (hpinned s hin).2
    · cases hs
  | recovered h' =>
    simp only [Host.step] at hs
    split at hs
    · rename_i hgood
      obtain rfl := Option.some.inj hs
      exact fun _ => hgood
    · cases hs

end Rollout

/-- **The host stays consistent.**  After every history of rollouts, each with any archive, any
behaviour of its steps and killed anywhere, of the backend's changes of the shared configuration and
of repairs: unless a journal is there, and with it every further rollout is refused, admission is open
and the containers run the images that `current.json` records and the shared configuration pins.  A
rollout that returns leaves its own images so, and no journal. -/
theorem rollouts_consistent (project : String) {h₀ h : Host} {es : List Event}
    (h₀c : Consistent project h₀) (hrun : exec (Host.step project) h₀ es = some h) :
    (h.journal = none →
      h.admitting = true ∧ ∃ images, h.current.get? "images" = some images ∧
        h.platform = .running images ∧ Pinned project h.shared images) ∧
    ∀ archive sha o images, (h.rollout project archive sha o).1 = .ok images →
      h.journal = none ∧ (h.rollout project archive sha o).2.journal = none ∧
      (h.rollout project archive sha o).2.admitting = true ∧
      (h.rollout project archive sha o).2.platform = .running images ∧
      (h.rollout project archive sha o).2.current.get? "images" = some images ∧
      Pinned project (h.rollout project archive sha o).2.shared images := by
  have hc : Consistent project h := exec_inv (fun _ _ _ hc hs => hc.step hs) h₀c hrun
  refine ⟨hc, fun archive sha o images hok => ?_⟩
  obtain ⟨hc', hreturned⟩ := rollout_consistent o archive sha hc
  obtain ⟨hnone, hplatform⟩ := hreturned images hok
  obtain ⟨hadmitting, images', himages, hrunning, hpinned⟩ := hc' hnone
  obtain rfl := Platform.running.inj (hplatform.symm.trans hrunning)
  refine ⟨?_, hnone, hadmitting, hplatform, himages, hpinned⟩
  cases hj : h.journal with
  | none => rfl
  | some j =>
    rw [Host.rollout, hj] at hok
    cases hok

/-- A host that runs the release `old`. -/
def oldHost : Host where
  shared := .obj [("dependency_images",
    .obj [("deploy-gateway-1", .str "old"), ("deploy-text-worker-1", .str "old")])]
  current := .obj [("images", imagesOf "old")]
  journal := none
  platform := .running (imagesOf "old")
  admitting := true

/-- Every step works, and the archive has these images. -/
def works (image : String) : Oracle := fun _ c => match c with
  | .load _ => { text := image }
  | .busy => { answer := false }
  | _ => {}

/-- The same, except that the images never become healthy. -/
def fails (image : String) : Oracle := fun tr c => match c with
  | .healthy images => { answer := decide (images ≠ imagesOf image) }
  | _ => works image tr c

/-- A rollout, one that fails its health check, and a third. -/
def threeRollouts : List Event :=
  [.rollout (.ok ()) "1" (works "first"), .rollout (.ok ()) "2" (fails "second"),
    .rollout (.ok ()) "3" (works "third")]

theorem rollouts_consistent_three : ∃ h, exec (Host.step "deploy") oldHost threeRollouts = some h ∧
    h.admitting = true ∧ h.platform = .running (imagesOf "third") ∧
    ∃ images, h.current.get? "images" = some images ∧ h.platform = .running images ∧
      Pinned "deploy" h.shared images := by
  have hview : (exec (Host.step "deploy") oldHost threeRollouts).map (fun h => (h.journal, h.platform)) =
      some (none, .running (imagesOf "third")) := by
    decide +kernel
  obtain ⟨h, hrun, hv⟩ := Option.map_eq_some_iff.mp hview
  obtain ⟨hjournal, hplatform⟩ := Prod.mk.inj hv
  have hstart : Consistent "deploy" oldHost := fun _ => by decide +kernel
  obtain ⟨hadmitting, himages⟩ := (rollouts_consistent "deploy" hstart hrun).1 hjournal
  exact ⟨h, hrun, hadmitting, hplatform, himages⟩

/-- Killed between the two writes of `record`, in its eleventh step: the pins are new and the record
is old, and the journal refuses the next rollout. -/
example : (exec (Host.step "deploy") oldHost [.rollout (.ok ()) "1" ((works "first").killedAt 10 1),
      .rollout (.ok ()) "2" (works "second")]).map
    (fun h => (pin "deploy" h.shared "gateway", h.current, h.journal.isSome)) =
    some (some (.str "first"), oldHost.current, true) := by
  decide +kernel

end Inference.Deploy
