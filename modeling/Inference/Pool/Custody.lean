import Inference.Pool.Machine
import Inference.Lib.Custody

/-!
# Inference.Pool.Custody — no task of the pool is lost or held twice

A statement takes tasks out of a queue into the hands of its thread, or gives tasks from its hands
to a queue (`Effect.taken`, `Effect.given`); everything else stays where it is.

* `Stmt.held`: a thread holds afterwards what it held and took, less what it gave.
* `Stmt.settles`: what it no longer holds and did not give away has ended, or was passed over by the
  sweep for omitted results.
* `Sys.Sound`: no task is held twice, and tasks in reconciliation have ended or have their entry
  still to come.
* **`conservation`**: every submitted task has ended or is in exactly one place.
-/

namespace Inference.Pool.Machine

open Inference.Lib
open scoped List

/-- What a statement puts into a queue. -/
def Effect.given : Effect → List ℕ
  | .push _ batch => batch
  | .handoff _ _ i => [i]
  | _ => []

/-- What a statement takes out of a queue. -/
def Effect.taken (s : Sys) : Effect → List ℕ
  | .pop p => (s.proxies p).queue.head?.getD []
  | .swap p => (s.proxies p).queue.flatten
  | _ => []

/-! ## The hands of one thread -/

section Hands

variable {cfg : Config} {s : Sys} {o : Outcome} {pt pt' : Point} {eff : Effect}

/-- A task joins its group. -/
theorem flatMap_set_perm (ds : List (String × List ℕ)) (k : String) (i : ℕ) :
    (Dict.set k ((Dict.get? k ds).getD [] ++ [i]) ds).flatMap Prod.snd ~
      ds.flatMap Prod.snd ++ [i] := by
  induction ds with
  | nil => simp [Dict.set, Dict.get?]
  | cons d ds ih =>
    obtain ⟨a, l⟩ := d
    by_cases ha : a = k
    · simp only [Dict.set, Dict.get?, ha, if_true, Option.getD_some, List.flatMap_cons,
        List.append_assoc]
      exact (List.perm_append_comm).append_left l
    · simp only [Dict.set, Dict.get?, ha, if_false, List.flatMap_cons, List.append_assoc]
      exact ih.append_left l

/-- **What a thread holds after a statement.** -/
theorem Stmt.held (h : Stmt cfg s o pt eff pt') :
    pt'.held ++ eff.given <+~ pt.held ++ eff.taken s := by
  cases h with
  | pop hs hq =>
    simp [Point.held, Pc.held, Effect.given, Effect.taken, hq, List.Subperm.refl]
  | returned p k => cases k <;> simp [Point.held, Pc.held, Effect.given, Effect.taken, Cont.after]
  | moves hh hc hm =>
    simpa [Point.held, Effect.given, Effect.taken] using hm.held.subperm
  | noCandidates f => simp [Point.held, Pc.held, Frame.refused, Effect.given, Effect.taken,
      List.Subperm.refl]
  | noReserve f candidates => simp [Point.held, Pc.held, Frame.refused, Effect.given, Effect.taken,
      List.Subperm.refl]
  | noOffer f => simp [Point.held, Pc.held, Frame.refused, Effect.given, Effect.taken,
      List.Subperm.refl]
  | accepted rest ha =>
    simpa [Point.held, Pc.held, Frame.accepted, Effect.given, Effect.taken] using
      (List.perm_append_singleton _ _).subperm
  | grouped ds =>
    simp [Point.held, Effect.given, Effect.taken, List.flatMap_def, List.Subperm.refl]
  | group i rest ds k =>
    have hperm := (flatMap_set_perm ds k i).append_right rest
    simpa [Point.held, Effect.given, Effect.taken] using hperm.subperm
  | invalidKind i rest ds =>
    simpa [Point.held, Effect.given, Effect.taken] using
      ((List.sublist_cons_self i rest).append_left _).subperm
  | overloaded i rest gs =>
    simpa [Point.held, Effect.given, Effect.taken] using (List.sublist_cons_self i _).subperm
  | atCapacity i rest gs =>
    simpa [Point.held, Effect.given, Effect.taken] using (List.sublist_cons_self i _).subperm
  | offered gs ha =>
    simpa [Point.held, Effect.given, Effect.taken] using List.perm_append_comm.subperm
  | scanTaken rest gs ha =>
    simpa [Point.held, Effect.given, Effect.taken] using List.perm_append_comm.subperm
  | swap p retryPending rest =>
    simp [Point.held, Pc.held, Effect.given, Effect.taken, List.Subperm.refl]
  | _ => simp [Point.held, Pc.held, Effect.given, Effect.taken, List.Subperm.refl]

theorem applyCall_markFailed_terminal (tasks : ℕ → Task) (mono wall : ℤ) (i : ℕ) (e : String)
    (code : Option String) :
    (applyCall tasks mono wall (some (i, .markFailed e code)) i).terminal = true := by
  simp [applyCall, call_markFailed_terminal]

/-- **What a thread lets go of** has ended, was given away, or is passed over by the sweep. -/
theorem Stmt.settles (h : Stmt cfg s o pt eff pt') (who : Who) {i : ℕ}
    (hi : i ∈ pt.held ++ eff.taken s) :
    i ∈ pt'.held ++ eff.given ∨ ((s.apply cfg who eff).tasks i).terminal = true ∨
      ∃ p rest k, pt = .process p (.sweep (i :: rest)) k := by
  cases h with
  | moves hh hc hm =>
    rename_i p pc pc' c k
    have hi' : i ∈ pc.held := by simpa [Point.held, Effect.taken] using hi
    rcases hm.settles s.wall hi' with hin | hterm | hhand | ⟨rest, rfl, -⟩
    · exact .inl (by simpa [Point.held, Effect.given] using hin)
    · exact .inr (.inl hterm)
    · have hnone : handed ⟨o, none⟩ pc = [] := by
        unfold handed
        split
        · simp
        · rfl
      simp [hnone] at hhand
    · exact .inr (.inr ⟨_, rest, _, rfl⟩)
  | returned p k => simp [Point.held, Pc.held, Effect.taken] at hi
  | pop hs hq => exact .inl (by simpa [Point.held, Pc.held, Effect.given, Effect.taken, hq] using hi)
  | accepted rest ha =>
    refine .inl ?_
    simpa [Point.held, Pc.held, Frame.accepted, Effect.given, Effect.taken, or_comm] using hi
  | grouped ds =>
    exact .inl (by simpa [Point.held, Effect.given, Effect.taken, List.flatMap_def] using hi)
  | group k rest ds kd =>
    refine .inl ?_
    have hmem : i ∈ ds.flatMap Prod.snd ++ [k] ++ rest := by
      simpa [Point.held, Effect.taken] using hi
    rcases List.mem_append.mp hmem with hg | hr
    · exact List.mem_append_left _ (List.mem_append_left _ ((flatMap_set_perm ds kd k).mem_iff.mpr hg))
    · exact List.mem_append_left _ (List.mem_append_right _ hr)
  | invalidKind k rest ds =>
    have hmem : i ∈ ds.flatMap Prod.snd ∨ i = k ∨ i ∈ rest := by
      simpa [Point.held, Effect.taken] using hi
    rcases hmem with hg | rfl | hr
    · exact .inl (List.mem_append_left _ (List.mem_append_left _ hg))
    · exact .inr (.inl (applyCall_markFailed_terminal ..))
    · exact .inl (List.mem_append_left _ (List.mem_append_right _ hr))
  | overloaded k rest gs =>
    simp only [Point.held, Effect.taken, List.append_nil, List.cons_append, List.mem_cons] at hi
    rcases hi with rfl | hi
    · exact .inr (.inl (applyCall_markFailed_terminal ..))
    · exact .inl (List.mem_append_left _ hi)
  | atCapacity k rest gs =>
    simp only [Point.held, Effect.taken, List.append_nil, List.cons_append, List.mem_cons] at hi
    rcases hi with rfl | hi
    · exact .inr (.inl (applyCall_markFailed_terminal ..))
    · exact .inl (List.mem_append_left _ hi)
  | offered gs ha =>
    exact .inl (by simpa [Point.held, Effect.given, Effect.taken, or_comm] using hi)
  | scanTaken rest gs ha =>
    exact .inl (by simpa [Point.held, Effect.given, Effect.taken, or_comm] using hi)
  | swap p retryPending rest =>
    exact .inl (by simpa [Point.held, Pc.held, Effect.given, Effect.taken] using hi)
  | _ => exact .inl hi

end Hands

/-! ## The shared state -/

section Shared

variable {cfg : Config} {s t : Sys} {o : Outcome} {who : Who} {pt pt' : Point} {eff : Effect}

theorem apply_evolves (cfg : Config) (s : Sys) (who : Who) (eff : Effect) (i : ℕ) :
    Task.Evolves (s.tasks i) ((s.apply cfg who eff).tasks i) := by
  cases eff with
  | call c => exact applyCall_evolves _ _ _ c i
  | reserve k => exact applyCall_evolves s.tasks s.mono s.wall (some (k, .tryReserveRetry)) i
  | _ => exact .refl _

/-- One step of the machine: a thread's statement, or something else happens. -/
theorem step_act {e : Event} (h : s.step cfg e = some t) {who : Who} {o : Outcome}
    (he : e = .act who o) : ∃ eff pt', Stmt cfg s o (s.points who) eff pt' ∧
      t = (s.apply cfg who eff).goto who pt' := by
  subst he
  cases step_cases h with
  | act hst => exact ⟨_, _, hst, rfl⟩

theorem step_evolves {e : Event} (hs : s.step cfg e = some t) (i : ℕ) :
    Task.Evolves (s.tasks i) (t.tasks i) := by
  cases step_cases hs with
  | @act who _ eff => exact apply_evolves cfg s who eff i
  | fail k error code =>
    exact applyCall_evolves s.tasks s.mono s.wall (some (k, .markFailed error code)) i
  | tick | route | submit | update | stop => exact .refl _

@[simp] theorem goto_held_queue (s : Sys) (who : Who) (pt : Point) (p : ℕ) :
    (s.goto who pt).held (.queue p) = s.held (.queue p) := rfl

@[simp] theorem goto_held_self (s : Sys) (who : Who) (pt : Point) :
    (s.goto who pt).held (.hand who) = pt.held := by simp [Sys.held, Sys.goto]

theorem goto_held_of_ne (s : Sys) {who who' : Who} (h : who' ≠ who) (pt : Point) :
    (s.goto who pt).held (.hand who') = s.held (.hand who') := by
  simp [Sys.held, Sys.goto, Function.update_of_ne h]

theorem setProxy_held_queue (s : Sys) (p q : ℕ) (w : Proxy) :
    (s.setProxy p w).held (.queue q) = if q = p then w.queue.flatten else s.held (.queue q) := by
  by_cases hq : q = p
  · subst hq
    simp [Sys.held, Sys.setProxy]
  · simp [Sys.held, Sys.setProxy, hq]

@[simp] theorem beginStop_queue (w : Proxy) (r : Bool) : (w.beginStop r).queue = w.queue := by
  unfold Proxy.beginStop
  split <;> rfl

/-- No task is held twice, tasks are held only after they were submitted, and a proxy that is not
there has nothing and takes nothing. -/
structure Sys.Sound (s : Sys) : Prop where
  linear : Linear s.held
  known : ∀ P, ∀ i ∈ s.held P, i ∈ s.submitted
  absent : ∀ p, s.size ≤ p → (s.proxies p).stop = true ∧ (s.proxies p).queue = [] ∧
    s.points (.loop p) = .halted

theorem Sys.Init.sound (h : s.Init) : s.Sound := by
  have hheld : ∀ P, s.held P = [] := by
    intro P
    cases P with
    | queue p => simp [Sys.held, (h.proxies p).2]
    | hand who => simp [Sys.held, h.points who, Point.held]
  refine ⟨⟨fun P => by simp [hheld P], fun P Q i hi => by simp [hheld P] at hi⟩,
    fun P i hi => by simp [hheld P] at hi, fun p _ => ?_⟩
  exact ⟨(h.proxies p).1, (h.proxies p).2, h.points _⟩

/-- The other threads keep what they hold. -/
theorem Sys.Sound.apply_hand (h : s.Sound) (cfg : Config) (who : Who) (eff : Effect) (who' : Who) :
    (s.apply cfg who eff).held (.hand who') = s.held (.hand who') := by
  cases eff with
  | create wid address =>
    by_cases hw : who' = .loop s.size
    · subst hw
      simp [Sys.held, Sys.apply, Sys.goto, Point.held, (h.absent s.size le_rfl).2.2]
    · simp [Sys.held, Sys.apply, Sys.goto, Sys.setProxy, Function.update_of_ne hw]
  | _ => rfl

/-- **At most one queue changes**: it gets what the statement gives, or loses what it takes. -/
theorem Sys.Sound.apply_queues (h : s.Sound) (cfg : Config) (who : Who) (eff : Effect) :
    (∃ q, eff.taken s = [] ∧
      (s.apply cfg who eff).held (.queue q) = s.held (.queue q) ++ eff.given ∧
      ∀ p, p ≠ q → (s.apply cfg who eff).held (.queue p) = s.held (.queue p)) ∨
    ∃ q, eff.given = [] ∧
      s.held (.queue q) = eff.taken s ++ (s.apply cfg who eff).held (.queue q) ∧
      ∀ p, p ≠ q → (s.apply cfg who eff).held (.queue p) = s.held (.queue p) := by
  have hset : ∀ (q : ℕ) (w : Proxy) (p : ℕ), p ≠ q →
      (s.setProxy q w).held (.queue p) = s.held (.queue p) := by
    intro q w p hp
    rw [setProxy_held_queue, if_neg hp]
  cases eff with
  | push q batch =>
    refine .inl ⟨q, rfl, ?_, fun p hp => hset q _ p hp⟩
    rw [Sys.apply, setProxy_held_queue, if_pos rfl]
    simp [Sys.held, Effect.given]
  | handoff p q i =>
    refine .inl ⟨q, rfl, ?_, fun p hp => hset q _ p hp⟩
    change (s.setProxy q _).held (.queue q) = _
    rw [setProxy_held_queue, if_pos rfl]
    simp [Sys.held, Effect.given]
  | pop q =>
    refine .inr ⟨q, rfl, ?_, fun p hp => hset q _ p hp⟩
    rw [Sys.apply, setProxy_held_queue, if_pos rfl]
    cases hq : (s.proxies q).queue <;> simp [Sys.held, Effect.taken, hq]
  | swap q =>
    refine .inr ⟨q, rfl, ?_, fun p hp => hset q _ p hp⟩
    rw [Sys.apply, setProxy_held_queue, if_pos rfl]
    simp [Sys.held, Effect.taken]
  | create wid address =>
    refine .inl ⟨s.size, rfl, ?_, fun p hp => hset s.size _ p hp⟩
    change (s.setProxy s.size _).held (.queue s.size) = _
    rw [setProxy_held_queue, if_pos rfl]
    simp [Sys.held, Effect.given, (h.absent s.size le_rfl).2.1]
  | finish q =>
    refine .inl ⟨q, rfl, ?_, fun p hp => hset q _ p hp⟩
    rw [Sys.apply, setProxy_held_queue, if_pos rfl]
    simp [Sys.held, Effect.given]
  | beginStop q r =>
    refine .inl ⟨q, rfl, ?_, fun p hp => hset q _ p hp⟩
    rw [Sys.apply, setProxy_held_queue, if_pos rfl]
    simp [Sys.held, Effect.given]
  | route q state =>
    refine .inl ⟨q, rfl, ?_, fun p hp => hset q _ p hp⟩
    rw [Sys.apply, setProxy_held_queue, if_pos rfl]
    simp [Sys.held, Effect.given]
  | _ => exact .inl ⟨0, rfl, by simp [Sys.held, Sys.apply, Effect.given], fun p _ => rfl⟩

/-- **Linearity is kept** by every statement. -/
theorem Sys.Sound.act_linear (h : s.Sound) (hst : Stmt cfg s o (s.points who) eff pt') :
    Linear ((s.apply cfg who eff).goto who pt').held := by
  have hhand : ∀ who', who' ≠ who →
      ((s.apply cfg who eff).goto who pt').held (.hand who') = s.held (.hand who') := by
    intro who' hw
    rw [goto_held_of_ne _ hw, h.apply_hand]
  have hheld := hst.held
  rcases h.apply_queues cfg who eff with ⟨q, htaken, hq, hother⟩ | ⟨q, hgiven, hq, hother⟩
  · rw [htaken, List.append_nil] at hheld
    refine h.linear.move (.hand who) (.queue q) eff.given (by simp) ?_ ?_ ?_
    · rw [goto_held_self]
      exact hheld
    · rw [goto_held_queue, hq]
    · intro P hsrc hdst
      cases P with
      | queue p =>
        rw [goto_held_queue, hother p fun he => hdst (he ▸ rfl)]
      | hand who' => rw [hhand who' fun he => hsrc (he ▸ rfl)]
  · rw [hgiven, List.append_nil] at hheld
    refine h.linear.move (.queue q) (.hand who) (eff.taken s) (by simp) ?_ ?_ ?_
    · rw [goto_held_queue, hq]
      exact List.perm_append_comm.subperm
    · rw [goto_held_self]
      exact hheld
    · intro P hsrc hdst
      cases P with
      | queue p => rw [goto_held_queue, hother p fun he => hsrc (he ▸ rfl)]
      | hand who' => rw [hhand who' fun he => hdst (he ▸ rfl)]

/-- A thread that has returned does nothing. -/
theorem Stmt.not_halted (h : Stmt cfg s o pt eff pt') : pt ≠ .halted := by
  rintro rfl
  cases h

/-- A batch goes only to a proxy that accepts it. -/
theorem Stmt.push_accepts {q : ℕ} {batch : List ℕ} (h : Stmt cfg s o pt (.push q batch) pt') :
    (s.proxies q).accepts = true := by
  cases h with
  | offered gs ha => exact ha
  | scanTaken rest gs ha => exact ha

theorem Stmt.handoff_accepts {p q i : ℕ} (h : Stmt cfg s o pt (.handoff p q i) pt') :
    (s.proxies q).accepts = true := by
  cases h with
  | accepted rest ha => exact ha

theorem not_stop_of_accepts {w : Proxy} (h : w.accepts = true) : w.stop = false := by
  simp only [Proxy.accepts, Bool.and_eq_true, Bool.not_eq_true'] at h
  exact h.1.1

/-- What is not there yet stays so. -/
theorem Sys.Sound.act_absent (h : s.Sound) (hst : Stmt cfg s o (s.points who) eff pt') (p : ℕ)
    (hp : ((s.apply cfg who eff).goto who pt').size ≤ p) :
    (((s.apply cfg who eff).goto who pt').proxies p).stop = true ∧
    (((s.apply cfg who eff).goto who pt').proxies p).queue = [] ∧
    ((s.apply cfg who eff).goto who pt').points (.loop p) = .halted := by
  have hsize : s.size ≤ p := by
    refine le_trans ?_ hp
    cases eff <;> simp [Sys.apply, Sys.goto, Sys.setProxy]
  obtain ⟨hstop, hqueue, hpt⟩ := h.absent p hsize
  have hwho : Who.loop p ≠ who := by
    rintro rfl
    exact hst.not_halted hpt
  have hset : ∀ (q : ℕ) (w : Proxy), (q = p → w.stop = true ∧ w.queue = []) →
      (Function.update s.proxies q w p).stop = true ∧ (Function.update s.proxies q w p).queue = [] := by
    intro q w hw
    by_cases hq : q = p
    · subst hq
      simpa using hw rfl
    · rw [Function.update_of_ne (Ne.symm hq)]
      exact ⟨hstop, hqueue⟩
  have hpoint : (s.apply cfg who eff).points (.loop p) = .halted → 
      ((s.apply cfg who eff).goto who pt').points (.loop p) = .halted := by
    intro hpt'
    simpa [Sys.goto, Function.update_of_ne hwho] using hpt'
  rw [← and_assoc]
  refine ⟨?_, hpoint ?_⟩
  · cases eff with
    | push q batch =>
      refine hset q _ ?_
      rintro rfl
      simp [not_stop_of_accepts hst.push_accepts] at hstop
    | handoff r q i =>
      refine hset q _ ?_
      rintro rfl
      simp [not_stop_of_accepts hst.handoff_accepts] at hstop
    | pop q => exact hset q _ (by rintro rfl; simp [hstop, hqueue])
    | finish q => exact hset q _ (by rintro rfl; simp [hstop, hqueue])
    | swap q => exact hset q _ (by rintro rfl; simp [hstop])
    | beginStop q r => exact hset q _ (by rintro rfl; simp [Proxy.beginStop, hstop, hqueue])
    | route q state => exact hset q _ (by rintro rfl; simp [hstop, hqueue])
    | create wid address =>
      have hlt : s.size < p := hp
      exact hset s.size _ (by omega)
    | _ => exact ⟨hstop, hqueue⟩
  · cases eff with
    | create wid address =>
      have hlt : s.size < p := hp
      simpa [Sys.apply, Sys.goto, Sys.setProxy, Function.update_apply, hlt.ne'] using hpt
    | _ => exact hpt

/-- What somebody holds afterwards somebody held before. -/
theorem Sys.Sound.act_known (h : s.Sound) (hst : Stmt cfg s o (s.points who) eff pt') {P : Place}
    {i : ℕ} (hi : i ∈ ((s.apply cfg who eff).goto who pt').held P) : ∃ Q, i ∈ s.held Q := by
  have hfrom : i ∈ pt'.held ++ eff.given → ∃ Q, i ∈ s.held Q := by
    intro hm
    rcases List.mem_append.mp (hst.held.subset hm) with hold | htaken
    · exact ⟨.hand who, hold⟩
    · rcases h.apply_queues cfg who eff with ⟨q, hnil, -⟩ | ⟨q, -, hq, -⟩
      · simp [hnil] at htaken
      · exact ⟨.queue q, hq ▸ List.mem_append_left _ htaken⟩
  cases P with
  | hand who' =>
    by_cases hw : who' = who
    · subst hw
      rw [goto_held_self] at hi
      exact hfrom (List.mem_append_left _ hi)
    · rw [goto_held_of_ne _ hw, h.apply_hand] at hi
      exact ⟨_, hi⟩
  | queue p =>
    rw [goto_held_queue] at hi
    rcases h.apply_queues cfg who eff with ⟨q, -, hq, hother⟩ | ⟨q, -, hq, hother⟩
    · by_cases hp : p = q
      · subst hp
        rw [hq] at hi
        rcases List.mem_append.mp hi with hold | hgiven
        · exact ⟨_, hold⟩
        · exact hfrom (List.mem_append_right _ hgiven)
      · exact ⟨_, hother p hp ▸ hi⟩
    · by_cases hp : p = q
      · subst hp
        exact ⟨.queue p, hq ▸ List.mem_append_right _ hi⟩
      · exact ⟨_, hother p hp ▸ hi⟩

theorem apply_submitted (cfg : Config) (s : Sys) (who : Who) (eff : Effect) :
    (s.apply cfg who eff).submitted = s.submitted := by
  cases eff <;> rfl

/-- The queue of a proxy and the threads' hands depend on nothing else. -/
theorem held_congr (hq : ∀ p, (t.proxies p).queue = (s.proxies p).queue) (hp : t.points = s.points) :
    t.held = s.held := by
  funext P
  cases P with
  | queue p => simp [Sys.held, hq p]
  | hand who => simp [Sys.held, hp]

/-- A thread calls the pool. -/
theorem Sys.Sound.start (h : s.Sound) {n : ℕ} {pt : Point} (new : List ℕ)
    (hhalt : s.points (.thread n) = .halted) (hheld : pt.held = new) (hnd : new.Nodup)
    (hnew : ∀ i ∈ new, i ∉ s.submitted) :
    ({ s.goto (.thread n) pt with submitted := new ++ s.submitted } : Sys).Sound := by
  have hold : s.held (.hand (.thread n)) = [] := by simp [Sys.held, hhalt, Point.held]
  have hgoto : ({ s.goto (.thread n) pt with submitted := new ++ s.submitted } : Sys).held =
      (s.goto (.thread n) pt).held := held_congr (fun _ => rfl) rfl
  have hsame : ∀ P, P ≠ .hand (.thread n) → (s.goto (.thread n) pt).held P = s.held P := by
    intro P hP
    cases P with
    | queue p => rfl
    | hand who =>
      have hw : who ≠ .thread n := by
        rintro rfl
        exact hP rfl
      exact goto_held_of_ne s hw pt
  refine ⟨?_, fun P i hi => ?_, fun p hp => ?_⟩
  · rw [hgoto]
    refine h.linear.fresh (.hand (.thread n)) new hnd (fun i hi P hP => hnew i hi (h.known P i hP)) ?_
      fun P hP => ?_
    · rw [goto_held_self, hold, hheld]
      exact List.Subperm.refl _
    · rw [hsame P hP]
  · rw [hgoto] at hi
    by_cases hP : P = .hand (.thread n)
    · subst hP
      rw [goto_held_self, hheld] at hi
      exact List.mem_append_left _ hi
    · rw [hsame P hP] at hi
      exact List.mem_append_right _ (h.known P i hi)
  · simpa [Sys.goto] using h.absent p hp

/-- **Step lemma.** -/
theorem Sys.Sound.step (h : s.Sound) {e : Event} (hs : s.step cfg e = some t) : t.Sound := by
  cases step_cases hs with
  | tick | fail => exact ⟨h.linear, h.known, h.absent⟩
  | route p state =>
    have hheld := held_congr (fun q => (route_same s p state q).1) (rfl : _ = s.points)
    refine ⟨hheld ▸ h.linear, hheld ▸ h.known, fun q hq => ?_⟩
    rw [(route_same s p state q).1, (route_same s p state q).2.1]
    exact h.absent q hq
  | @submit _ batch hhalt hnodup hnew =>
    exact h.start batch hhalt (by simp [Point.held]) hnodup hnew
  | update hhalt => exact h.start [] hhalt rfl List.nodup_nil (by simp)
  | stop hhalt => exact h.start [] hhalt rfl List.nodup_nil (by simp)
  | @act who _ eff pt' hst =>
    refine ⟨h.act_linear hst, fun P i hi => ?_, h.act_absent hst⟩
    obtain ⟨Q, hQ⟩ := h.act_known hst hi
    have hsub : ((s.apply cfg who eff).goto who pt').submitted = s.submitted :=
      apply_submitted cfg s who eff
    rw [hsub]
    exact h.known Q i hQ

/-! ## Coverage -/

/-- The tasks of a call in reconciliation have ended or have their entry still to come. -/
def Answered (tasks : ℕ → Task) : Pc → Prop
  | .reconcile results batch => ∀ i ∈ batch, (tasks i).terminal = true ∨
      ∃ r ∈ results, r.taskId = (tasks i).taskId
  | .sweep rest => ∀ i ∈ rest, (tasks i).terminal = true
  | _ => True

theorem Answered.evolves {tasks tasks' : ℕ → Task} {pc : Pc} (h : Answered tasks pc)
    (hev : ∀ i, Task.Evolves (tasks i) (tasks' i)) : Answered tasks' pc := by
  cases pc with
  | reconcile results batch =>
    intro i hi
    rw [(hev i).taskId]
    exact (h i hi).imp (fun ht => (hev i).terminal ht) id
  | sweep rest => exact fun i hi => (hev i).terminal (h i hi)
  | _ => trivial

/-- The response has a decodable result for every task of its request. -/
def Full (cfg : Config) (tasks : ℕ → Task) (batch : List ℕ) : Outcome → Prop
  | .response results => ∀ i ∈ batch, ∃ r ∈ results, r.taskId = (tasks i).taskId ∧
      (r.success = true → ∃ value, cfg.loads r.resultJson = .ok value)
  | _ => True

/-- A statement of `_process` when the stub answers in full. -/
theorem answered_moves {loads : String → Except Exc Json} {v : View} {io : Io} {pc pc' : Pc}
    {c : Option (ℕ × Task.Method)} (h : Moves loads v io pc c pc')
    (hids : Function.Injective fun i => (v.tasks i).taskId) (ha : Answered v.tasks pc)
    (hfull : ∀ batch results, pc = .inflight batch → io.outcome = .response results →
      ∀ i ∈ batch, ∃ r ∈ results, r.taskId = (v.tasks i).taskId) (wall : ℤ) :
    Answered (applyCall v.tasks v.mono wall c) pc' := by
  have hev : ∀ i, Task.Evolves (v.tasks i) (applyCall v.tasks v.mono wall c i) :=
    fun i => applyCall_evolves v.tasks v.mono wall c i
  -- an entry that ends its task answers for it; the others wait for a later one
  have hentry : ∀ {r : TaskResult} {rs : List TaskResult} {batch : List ℕ} {k : ℕ},
      Answered v.tasks (.reconcile (r :: rs) batch) → taskMap v.tasks batch r.taskId = some k →
      (applyCall v.tasks v.mono wall c k).terminal = true →
      Answered (applyCall v.tasks v.mono wall c) (.reconcile rs batch) := by
    intro r rs batch k hb hk hterm i hi
    rw [(hev i).taskId]
    rcases hb i hi with ht | ⟨x, hx, hid⟩
    · exact .inl ((hev i).terminal ht)
    · rcases List.mem_cons.mp hx with rfl | hx
      · obtain rfl : i = k := hids (hid.symm.trans (taskMap_some hk).2.symm)
        exact .inl hterm
      · exact .inr ⟨x, hx, hid⟩
  cases h with
  | response batch ho =>
    intro i hi
    exact .inr (hfull batch _ rfl ho i hi)
  | reconcileNil batch => exact fun i hi => (ha i hi).resolve_right (by simp)
  | unknown rs hm =>
    intro i hi
    refine (ha i hi).imp id ?_
    rintro ⟨x, hx, hid⟩
    rcases List.mem_cons.mp hx with rfl | hx
    · exact absurd hid.symm (taskMap_none hm i hi)
    · exact ⟨x, hx, hid⟩
  | decoded rs hm hs hl =>
    exact hentry ha hm (by simp [applyCall, call_markDone_terminal])
  | unsuccessful rs hm hs =>
    exact hentry ha hm (by simp [applyCall, call_markFailed_terminal])
  | omitted rest hd ht =>
    exact fun i hi => (hev i).terminal (ha i (List.mem_cons_of_mem _ hi))
  | sweepSkip rest hskip => exact fun i hi => ha i (List.mem_cons_of_mem _ hi)
  | _ => trivial

/-- The same at a point of a thread. -/
def Point.Answered (tasks : ℕ → Task) : Point → Prop
  | .process _ pc _ => Machine.Answered tasks pc
  | _ => True

/-- Every submitted task has ended or is somewhere. -/
structure Sys.Covered (s : Sys) : Prop where
  ids : Function.Injective fun i => (s.tasks i).taskId
  answered : ∀ who, (s.points who).Answered s.tasks
  covered : ∀ i ∈ s.submitted, (s.tasks i).terminal = true ∨ ∃ P, i ∈ s.held P

/-- Every response of this step is full. -/
def Complete (cfg : Config) (s : Sys) : Event → Prop
  | .act who o => ∀ p batch k, s.points who = .process p (.inflight batch) k →
      Full cfg s.tasks batch o
  | _ => True

theorem Sys.Init.covered (h : s.Init) : s.Covered := by
  refine ⟨h.ids, fun who => ?_, fun i hi => ?_⟩
  · rw [h.points who]
    trivial
  · simp [h.submitted] at hi

theorem injective_of_evolves {tasks tasks' : ℕ → Task}
    (h : Function.Injective fun i => (tasks i).taskId)
    (hev : ∀ i, Task.Evolves (tasks i) (tasks' i)) :
    Function.Injective fun i => (tasks' i).taskId := by
  intro i k hik
  refine h ?_
  simpa [(hev i).taskId, (hev k).taskId] using hik

theorem Point.Answered.evolves {tasks tasks' : ℕ → Task} (h : pt.Answered tasks)
    (hev : ∀ i, Task.Evolves (tasks i) (tasks' i)) : pt.Answered tasks' := by
  cases pt with
  | process p pc k => exact Machine.Answered.evolves h hev
  | _ => trivial

/-- The other threads stand where they stood; a new dispatch thread is at its start. -/
theorem apply_points (cfg : Config) (s : Sys) (who : Who) (eff : Effect) (who' : Who) :
    (s.apply cfg who eff).points who' = s.points who' ∨
      (who' = .loop s.size ∧ (s.apply cfg who eff).points who' = .top s.size) := by
  cases eff with
  | create wid address =>
    by_cases hw : who' = .loop s.size
    · subst hw
      exact .inr ⟨rfl, by simp [Sys.apply, Sys.goto]⟩
    · exact .inl (by simp [Sys.apply, Sys.goto, Sys.setProxy, hw])
  | _ => exact .inl rfl

/-- The reconciliation of a thread after its statement. -/
theorem Sys.Covered.stmt_answered (hc : s.Covered) (hst : Stmt cfg s o (s.points who) eff pt')
    (hfull : Complete cfg s (.act who o)) : pt'.Answered (s.apply cfg who eff).tasks := by
  have hans := hc.answered who
  have hfull' : ∀ p batch k, s.points who = .process p (.inflight batch) k →
      Full cfg s.tasks batch o := hfull
  generalize s.points who = pt at hst hans hfull'
  cases hst with
  | moves hh hcall hm =>
    refine answered_moves hm hc.ids hans ?_ s.wall
    intro batch results hpc ho i hi
    subst hpc
    have hall := hfull' _ _ _ rfl
    rw [show o = .response results from ho] at hall
    obtain ⟨r, hr, hid, -⟩ := hall i hi
    exact ⟨r, hr, hid⟩
  | returned p k => cases k <;> trivial
  | _ => trivial

/-- **No task is dropped** by a statement. -/
theorem Sys.Covered.act_covered (hc : s.Covered) (h : s.Sound)
    (hst : Stmt cfg s o (s.points who) eff pt') {i : ℕ} (hi : ∃ P, i ∈ s.held P) :
    ((s.apply cfg who eff).tasks i).terminal = true ∨
      ∃ P, i ∈ ((s.apply cfg who eff).goto who pt').held P := by
  have hqueues := h.apply_queues cfg who eff
  -- what was in the thread's hands or came into them
  have hmine : i ∈ (s.points who).held ++ eff.taken s →
      ((s.apply cfg who eff).tasks i).terminal = true ∨
        ∃ P, i ∈ ((s.apply cfg who eff).goto who pt').held P := by
    intro hm
    rcases hst.settles who hm with hin | hterm | ⟨p, rest, k, hpt⟩
    · rcases List.mem_append.mp hin with hin | hgiven
      · exact .inr ⟨.hand who, by rwa [goto_held_self]⟩
      · rcases hqueues with ⟨q, -, hq, -⟩ | ⟨q, hnil, -⟩
        · exact .inr ⟨.queue q, by rw [goto_held_queue, hq]; exact List.mem_append_right _ hgiven⟩
        · simp [hnil] at hgiven
    · exact .inl hterm
    · have hans := hc.answered who
      rw [hpt] at hans
      exact .inl ((apply_evolves cfg s who eff i).terminal (hans i List.mem_cons_self))
  obtain ⟨P, hP⟩ := hi
  cases P with
  | hand who' =>
    by_cases hw : who' = who
    · subst hw
      exact hmine (List.mem_append_left _ hP)
    · exact .inr ⟨.hand who', by rwa [goto_held_of_ne _ hw, h.apply_hand]⟩
  | queue p =>
    rcases hqueues with ⟨q, -, hq, hother⟩ | ⟨q, -, hq, hother⟩
    · refine .inr ⟨.queue p, ?_⟩
      by_cases hp : p = q
      · subst hp
        rw [goto_held_queue, hq]
        exact List.mem_append_left _ hP
      · rwa [goto_held_queue, hother p hp]
    · by_cases hp : p = q
      · subst hp
        rw [hq] at hP
        rcases List.mem_append.mp hP with htaken | hstay
        · exact hmine (List.mem_append_right _ htaken)
        · exact .inr ⟨.queue p, hstay⟩
      · exact .inr ⟨.queue p, by rwa [goto_held_queue, hother p hp]⟩

/-- A thread calls the pool: its tasks are in its hands. -/
theorem Sys.Covered.start (hc : s.Covered) {n : ℕ} {pt : Point} (new : List ℕ)
    (hhalt : s.points (.thread n) = .halted) (hheld : pt.held = new) (hans : pt.Answered s.tasks) :
    ({ s.goto (.thread n) pt with submitted := new ++ s.submitted } : Sys).Covered := by
  refine ⟨hc.ids, fun who => ?_, fun i hi => ?_⟩
  · by_cases hw : who = .thread n
    · subst hw
      simpa [Sys.goto] using hans
    · simpa [Sys.goto, hw] using hc.answered who
  · rcases List.mem_append.mp hi with hi | hi
    · refine .inr ⟨.hand (.thread n), ?_⟩
      change i ∈ (s.goto (.thread n) pt).held (.hand (.thread n))
      rwa [goto_held_self, hheld]
    · refine (hc.covered i hi).imp id ?_
      rintro ⟨P, hP⟩
      refine ⟨P, ?_⟩
      change i ∈ (s.goto (.thread n) pt).held P
      cases P with
      | queue p => exact hP
      | hand who =>
        have hw : who ≠ .thread n := by
          rintro rfl
          simp [Sys.held, hhalt, Point.held] at hP
        rwa [goto_held_of_ne s hw]

/-- The tasks evolve and nothing else changes. -/
theorem Sys.Covered.evolves (hc : s.Covered) (hev : ∀ i, Task.Evolves (s.tasks i) (t.tasks i))
    (hp : t.points = s.points) (hs : t.submitted = s.submitted) (hheld : t.held = s.held) :
    t.Covered := by
  refine ⟨injective_of_evolves hc.ids hev, fun who => ?_, fun i hi => ?_⟩
  · rw [hp]
    exact (hc.answered who).evolves hev
  · rw [hheld]
    exact (hc.covered i (hs ▸ hi)).imp (hev i).terminal id

/-- **Step lemma.** -/
theorem Sys.Covered.step (hc : s.Covered) (h : s.Sound) {e : Event} (hfull : Complete cfg s e)
    (hs : s.step cfg e = some t) : t.Covered := by
  cases step_cases hs with
  | tick => exact hc.evolves (fun _ => .refl _) rfl rfl rfl
  | fail i error code =>
    exact hc.evolves (fun k => applyCall_evolves s.tasks s.mono s.wall
      (some (i, .markFailed error code)) k) rfl rfl rfl
  | route p state =>
    exact hc.evolves (fun _ => .refl _) rfl rfl (held_congr (fun q => (route_same s p state q).1) rfl)
  | @submit _ batch hhalt => exact hc.start batch hhalt (by simp [Point.held]) trivial
  | update hhalt => exact hc.start [] hhalt rfl trivial
  | stop hhalt => exact hc.start [] hhalt rfl trivial
  | @act who _ eff pt' hst =>
    have hev := apply_evolves cfg s who eff
    refine ⟨injective_of_evolves hc.ids hev, fun who' => ?_, fun i hi => ?_⟩
    · by_cases hw : who' = who
      · subst hw
        simpa [Sys.goto] using hc.stmt_answered hst hfull
      · have hpt : ((s.apply cfg who eff).goto who pt').points who' =
            (s.apply cfg who eff).points who' := by simp [Sys.goto, hw]
        rw [hpt]
        rcases apply_points cfg s who eff who' with hsame | ⟨-, htop⟩
        · rw [hsame]
          exact (hc.answered who').evolves hev
        · rw [htop]
          trivial
    · have hsub : i ∈ s.submitted := by simpa [Sys.goto, apply_submitted] using hi
      rcases hc.covered i hsub with ht | hheld
      · exact .inl ((hev i).terminal ht)
      · exact hc.act_covered h hst hheld

end Shared

/-- **Conservation.**  In every state that submissions, dispatch threads, membership changes,
routing changes, failures by others and shutdowns can reach, in any order, as long as responses are
full: every submitted task has ended, or it is in exactly one place, once: one proxy's queue, one
proxy's active batch, or the hands of one thread. -/
theorem conservation (cfg : Config) {s₀ s : Sys} {es : List Event} (hinit : s₀.Init)
    (hfull : Meets (Sys.step cfg) (Complete cfg) s₀ es)
    (hrun : exec (Sys.step cfg) s₀ es = some s) :
    ∀ i ∈ s.submitted, (s.tasks i).terminal = true ∨
      ∃ P, (s.held P).count i = 1 ∧ ∀ Q, Q ≠ P → i ∉ s.held Q := by
  have hinv : s.Sound ∧ s.Covered :=
    exec_inv_meets (P := fun s => s.Sound ∧ s.Covered)
      (fun _ _ _ hC h hs => ⟨h.1.step hs, h.2.step h.1 hC hs⟩) hfull
      ⟨hinit.sound, hinit.covered⟩ hrun
  obtain ⟨hsound, hcov⟩ := hinv
  intro i hi
  refine (hcov.covered i hi).imp id ?_
  rintro ⟨P, hP⟩
  refine ⟨P, List.count_eq_one_of_mem (hsound.linear.nodup P) hP, fun Q hne hQ => hne ?_⟩
  exact hsound.linear.apart Q P i hQ hP

/-- The task handed to `b` is in its queue and nowhere else. -/
theorem conservation_handoff : ∃ s, exec (Sys.step sampleConfig) sampleStart handoffRun = some s ∧
    (s.tasks 0).terminal = false ∧ s.held (.queue 1) = [0] ∧
    ∃ P, (s.held P).count 0 = 1 ∧ ∀ Q, Q ≠ P → 0 ∉ s.held Q := by
  have hview : (exec (Sys.step sampleConfig) sampleStart handoffRun).map (fun s =>
      (s.submitted, (s.tasks 0).terminal, s.held (.queue 1))) = some ([0], false, [0]) := by
    decide +kernel
  obtain ⟨s, hs, hv⟩ := Option.map_eq_some_iff.mp hview
  simp only [Prod.mk.injEq] at hv
  obtain ⟨hsub, hopen, hqueue⟩ := hv
  have hfull : Meets (Sys.step sampleConfig) (Complete sampleConfig) sampleStart handoffRun := by
    refine meets_of_forall (fun e he t => ?_) _
    cases e with
    | act who o =>
      obtain rfl : o = lost := by
        simp only [handoffRun, List.mem_append, List.mem_cons, List.mem_replicate] at he
        simp at he
        tauto
      exact fun _ _ _ _ => trivial
    | _ => trivial
  refine ⟨s, hs, hopen, hqueue, ?_⟩
  refine (conservation sampleConfig sampleStart_init hfull hs 0 (by simp [hsub])).resolve_left ?_
  simp [hopen]

end Inference.Pool.Machine
