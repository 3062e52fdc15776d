import Inference.Pool.Guard

/-!
# Inference.Pool.Retry — the life of a task in the pool

The notes of a task tell its whole story: it may be called, then reserved, then accepted by another
proxy, then called there, and nothing else.

* `Waiting`, `Called`, `Reserved`: the stories of a task a proxy is about to call, has called, or
  is about to hand over; `Point.Located` says which of them holds at which point of a thread.
* `Sys.Noted`: every task's notes are one of the stories, the one its place allows.
* **`retry_discipline`**: at most two calls, one at a time, the second by another worker that was
  ready and compatible, after a reservation of an open task; one call for the durable kinds; and no
  handoff after shutdown.
-/

namespace Inference.Pool.Machine

open Inference.Lib

/-! ## Stories -/

/-- Proxy `q`, then `w`, took the task over from proxy `p`: its worker ID is another and it was
ready. -/
structure Handed (s : Sys) (p q : ℕ) (w : Proxy) : Prop where
  source : p < s.size
  target : q < s.size
  same : w.workerId = (s.proxies q).workerId
  other : w.workerId ≠ (s.proxies p).workerId
  ready : w.isReady = true

/-- Never called, or called once by proxy `p`. -/
def Once (p : ℕ) (l : List Note) : Prop := l = [] ∨ l = [.called p]

/-- Accepted by proxy `q` after a reservation. -/
def Moved (s : Sys) (q : ℕ) (l : List Note) : Prop :=
  ∃ p w pre, Once p pre ∧ Handed s p q w ∧
    l = pre ++ [.reserved false false, .accepted p q w true false]

/-- Proxy `p` may call `ProcessBatch` with the task. -/
def Waiting (s : Sys) (p : ℕ) (l : List Note) : Prop := l = [] ∨ Moved s p l

/-- Proxy `p` has called it. -/
def Called (s : Sys) (p : ℕ) (l : List Note) : Prop := ∃ pre, Waiting s p pre ∧ l = pre ++ [.called p]

/-- Proxy `p` answers for the task. -/
def Here (s : Sys) (p : ℕ) (l : List Note) : Prop := Waiting s p l ∨ Called s p l

/-- Proxy `p` has reserved the retry. -/
def Reserved (p : ℕ) (l : List Note) : Prop := ∃ pre, Once p pre ∧ l = pre ++ [.reserved false false]

/-- One of the stories. -/
def Story (s : Sys) (l : List Note) : Prop := ∃ p, Here s p l ∨ Reserved p l

/-- The proxies of `s` are those of `t` under the same worker IDs. -/
structure Keeps (s t : Sys) : Prop where
  size : s.size ≤ t.size
  ids : ∀ p < s.size, (t.proxies p).workerId = (s.proxies p).workerId

section Stories

variable {s t : Sys} {p q : ℕ} {l : List Note}

theorem Handed.keeps {w : Proxy} (h : Handed s p q w) (hk : Keeps s t) : Handed t p q w where
  source := lt_of_lt_of_le h.source hk.size
  target := lt_of_lt_of_le h.target hk.size
  same := h.same.trans (hk.ids q h.target).symm
  other := by rw [hk.ids p h.source]; exact h.other
  ready := h.ready

theorem Waiting.keeps (h : Waiting s p l) (hk : Keeps s t) : Waiting t p l := by
  refine h.imp id ?_
  rintro ⟨r, w, pre, hpre, hw, rfl⟩
  exact ⟨r, w, pre, hpre, hw.keeps hk, rfl⟩

theorem Called.keeps (h : Called s p l) (hk : Keeps s t) : Called t p l := by
  obtain ⟨pre, hpre, rfl⟩ := h
  exact ⟨pre, hpre.keeps hk, rfl⟩

theorem Here.keeps (h : Here s p l) (hk : Keeps s t) : Here t p l :=
  h.imp (fun h => h.keeps hk) fun h => h.keeps hk

theorem Story.keeps (h : Story s l) (hk : Keeps s t) : Story t l := by
  obtain ⟨p, h⟩ := h
  exact ⟨p, h.imp (fun h => h.keeps hk) id⟩

/-- A story without a reservation is at its first call. -/
theorem Here.once (h : Here s p l) (hn : ∀ a b, .reserved a b ∉ l) : Once p l := by
  have hmoved : ∀ {l}, Moved s p l → Note.reserved false false ∈ l := by
    rintro l ⟨r, w, pre, -, -, rfl⟩
    simp
  rcases h with (rfl | hm) | ⟨pre, rfl | hm, rfl⟩
  · exact .inl rfl
  · exact absurd (hmoved hm) (hn _ _)
  · exact .inr rfl
  · exact absurd (List.mem_append_left _ (hmoved hm)) (hn _ _)

end Stories

/-! ## Where the stories are allowed -/

/-- How far `_process` has come with its tasks: `asked k` in the retry handler for task `k`,
`failing k` about to fail it. -/
inductive Stage where
  | waiting | called | here
  | asked (k : ℕ)
  | failing (k : ℕ)

def stage : Pc → Stage
  | .filter _ _ | .filterExpired _ _ _ | .checkStop _ | .marking _ _ | .building _ _ _
  | .timeout _ _ | .call _ => .waiting
  | .inflight _ | .reconcile _ _ | .sweep _ | .rpcError _ _ _ | .rpcRetiring _ _ _ _ => .called
  | .handler k _ _ _ => .asked k
  | .finishFail k _ _ _ _ _ => .failing k
  | _ => .here

/-- The story of task `i` at a stage of `_process` of proxy `p`. -/
def Stage.Tells (s : Sys) (p i : ℕ) : Stage → Prop
  | .waiting => Waiting s p (s.notes i)
  | .called => Called s p (s.notes i)
  | .here => Here s p (s.notes i)
  | .asked k => Here s p (s.notes i) ∧ (i = k → durable (s.tasks i) = false)
  | .failing k => i = k ∨ Here s p (s.notes i)

/-- The story of task `i` in the hands of a thread. -/
def Point.Located (s : Sys) (i : ℕ) : Point → Prop
  | .process p pc _ => (stage pc).Tells s p i
  | .resubmit f (.candidates _ _) | .resubmit f (.reserve _) => Here s f.p (s.notes i)
  | .resubmit f (.classify _ _ _) | .resubmit f (.offer _) =>
      (i = f.i → Reserved f.p (s.notes i)) ∧ (i ≠ f.i → Here s f.p (s.notes i))
  | _ => s.notes i = []

/-- The workers `try_resubmit` has found eligible so far. -/
def Resubmit.chosen : Resubmit → List ℕ
  | .candidates _ acc => acc
  | .reserve ws => ws
  | .classify scan idle busy => scan ++ (idle ++ busy)
  | .offer rest => rest

/-- A task under `try_resubmit` is not durable, and its candidates are other workers that support
it. -/
def Point.Fit (cfg : Config) (s : Sys) : Point → Prop
  | .resubmit f r => durable (s.tasks f.i) = false ∧ ∀ w ∈ r.chosen,
      (s.proxies w).workerId ≠ (s.proxies f.p).workerId ∧
      supports cfg (s.proxies w).workerId (s.tasks f.i) = true
  | _ => True

theorem durable_evolves {t u : Task} (h : Task.Evolves t u) : durable u = durable t := by
  simp [durable, h.inputData]

theorem supports_evolves {t u : Task} (h : Task.Evolves t u) (cfg : Config) (wid : String) :
    supports cfg wid u = supports cfg wid t := by
  simp [supports, kind, h.inputData]

section Located

variable {cfg : Config} {s t : Sys} {p i : ℕ} {pc pc' : Pc} {pt : Point}

theorem Stage.Tells.keeps {g : Stage} (h : g.Tells s p i) (hk : Keeps s t)
    (hn : t.notes i = s.notes i) (hev : Task.Evolves (s.tasks i) (t.tasks i)) : g.Tells t p i := by
  cases g with
  | waiting => exact (congrArg (Waiting t p) hn).mpr (Waiting.keeps h hk)
  | called => exact (congrArg (Called t p) hn).mpr (Called.keeps h hk)
  | here => exact (congrArg (Here t p) hn).mpr (Here.keeps h hk)
  | asked k =>
    refine ⟨(congrArg (Here t p) hn).mpr (h.1.keeps hk), fun hik => ?_⟩
    rw [durable_evolves hev]
    exact h.2 hik
  | failing k => exact h.imp id fun h => (congrArg (Here t p) hn).mpr (h.keeps hk)

theorem Point.Located.keeps (h : pt.Located s i) (hk : Keeps s t) (hn : t.notes i = s.notes i)
    (hev : Task.Evolves (s.tasks i) (t.tasks i)) : pt.Located t i := by
  cases pt with
  | process p pc k => exact Stage.Tells.keeps h hk hn hev
  | resubmit f r =>
    cases r with
    | candidates scan acc => exact (congrArg (Here t f.p) hn).mpr (Here.keeps h hk)
    | reserve ws => exact (congrArg (Here t f.p) hn).mpr (Here.keeps h hk)
    | classify scan idle busy =>
      refine ⟨fun hi => ?_, fun hi => ?_⟩
      · rw [hn]
        exact h.1 hi
      · rw [hn]
        exact (h.2 hi).keeps hk
    | offer rest =>
      refine ⟨fun hi => ?_, fun hi => ?_⟩
      · rw [hn]
        exact h.1 hi
      · rw [hn]
        exact (h.2 hi).keeps hk
  | _ => exact hn.trans h

/-- A statement of `_process` other than the call and the handler keeps the stories. -/
theorem tells_moves {v : View} {io : Io} {c : Option (ℕ × Task.Method)}
    {loads : String → Except Exc Json} (h : Moves loads v io pc c pc')
    (hh : ∀ k rest text allow, pc ≠ .handler k rest text allow) (hcall : ∀ batch, pc ≠ .call batch)
    (hv : v.tasks = s.tasks) (hnd : pc.held.Nodup) (hi : i ∈ pc'.held)
    (ht : (stage pc).Tells s p i) : (stage pc').Tells s p i := by
  cases h with
  | call batch => exact absurd rfl (hcall batch)
  | accepted k rest text allow ha => exact absurd rfl (hh _ _ _ _)
  | refused k rest text allow ha => exact absurd rfl (hh _ _ _ _)
  | checkStopped hne hs => exact .inl ht
  | timeoutLate batch hb => exact .inl ht
  | raised batch ho => exact .inr ht
  | undecodable rs hm hs hl => exact .inr ht
  | rpcDeadline text batch => exact .inr ht
  | rpcAllowed code text retiring batch => exact .inr ht
  | retry rest text allow hx hd =>
    refine ⟨ht, fun hik => ?_⟩
    rw [hik, ← hv]
    exact hd
  | late allowed rest text allow hx => exact .inr ht
  | kept allowed rest text allow hx hd => exact .inr ht
  | noRetry rest text allow hx hd => exact .inr ht
  | fail k error code rest text allow =>
    refine ht.resolve_left ?_
    rintro rfl
    exact (List.nodup_cons.mp hnd).1 hi
  | checkEmpty | expireNil | sweepNil | finishNil => simp [Pc.held] at hi
  | _ => exact ht

end Located

/-! ## The invariant -/

/-- The tasks a statement adds a note to. -/
def Effect.noted : Effect → List ℕ
  | .invoke _ batch => batch
  | .reserve i | .handoff _ _ i => [i]
  | _ => []

structure Sys.Noted (cfg : Config) (s : Sys) : Prop where
  story : ∀ i, Story s (s.notes i)
  fresh : ∀ i, i ∉ s.submitted → s.notes i = []
  reserved : ∀ i a b, .reserved a b ∈ s.notes i →
    1 ≤ (s.tasks i).retryCount ∧ durable (s.tasks i) = false
  hand : ∀ who, ∀ i ∈ (s.points who).held, (s.points who).Located s i
  queue : ∀ p, ∀ i ∈ s.held (.queue p), Waiting s p (s.notes i)
  fit : ∀ who, (s.points who).Fit cfg s

theorem Sys.Init.noted {cfg : Config} {s : Sys} (h : s.Init) : s.Noted cfg where
  story := fun i => ⟨0, .inl (.inl (.inl (h.notes i)))⟩
  fresh := fun i _ => h.notes i
  reserved := fun i a b hm => by simp [h.notes i] at hm
  hand := fun who i hi => by simp [h.points who, Point.held] at hi
  queue := fun p i hi => by simp [Sys.held, (h.proxies p).2] at hi
  fit := fun who => by rw [h.points who]; trivial

section Acts

variable {cfg : Config} {s t : Sys} {o : Outcome} {who : Who} {pt pt' : Point} {eff : Effect}

theorem apply_keeps (cfg : Config) (s : Sys) (who : Who) (eff : Effect) (pt : Point) :
    Keeps s ((s.apply cfg who eff).goto who pt) :=
  ⟨apply_size_le cfg s who eff, fun _ hp => (apply_workerId cfg s who eff hp).1⟩

theorem step_keepsIds {e : Event} (hs : s.step cfg e = some t) : Keeps s t := by
  cases step_cases hs with
  | tick | fail => exact ⟨le_rfl, fun _ _ => rfl⟩
  | route p state => exact ⟨le_rfl, fun q _ => (route_same s p state q).2.2⟩
  | submit | update | stop => exact ⟨le_rfl, fun _ _ => rfl⟩
  | @act who _ eff pt' => exact apply_keeps cfg s who eff pt'

theorem apply_notes (cfg : Config) (s : Sys) (who : Who) {eff : Effect} {i : ℕ}
    (h : i ∉ eff.noted) : (s.apply cfg who eff).notes i = s.notes i := by
  cases eff with
  | invoke p batch => exact if_neg h
  | reserve k => exact Function.update_of_ne (by simpa [Effect.noted] using h) _ _
  | handoff p q k => exact Function.update_of_ne (by simpa [Effect.noted] using h) _ _
  | _ => rfl

theorem Stmt.noted (h : Stmt cfg s o pt eff pt') {i : ℕ} (hi : i ∈ eff.noted) : i ∈ pt.held := by
  cases h with
  | invoke p batch k => exact hi
  | reserve hr =>
    obtain rfl := List.mem_singleton.mp hi
    exact List.mem_cons_self
  | accepted rest ha =>
    obtain rfl := List.mem_singleton.mp hi
    exact List.mem_cons_self
  | _ => simp [Effect.noted] at hi

theorem supports_keeps {w : ℕ} {i : ℕ} (hk : Keeps s t) (hw : w < s.size)
    (hev : Task.Evolves (s.tasks i) (t.tasks i)) :
    supports cfg (t.proxies w).workerId (t.tasks i) = supports cfg (s.proxies w).workerId (s.tasks i) := by
  rw [hk.ids w hw, supports_evolves hev]

/-- Eligible workers stay eligible. -/
theorem Point.Fit.keeps (h : pt.Fit cfg s) (hk : Keeps s t) (hb : ∀ p ∈ pt.proxies, p < s.size)
    (hev : ∀ i, Task.Evolves (s.tasks i) (t.tasks i)) : pt.Fit cfg t := by
  cases pt with
  | resubmit f r =>
    refine ⟨by rw [durable_evolves (hev f.i)]; exact h.1, fun w hw => ?_⟩
    have hwsize : w < s.size := by
      refine hb w (List.mem_cons_of_mem _ (List.mem_append_right _ ?_))
      cases r with
      | candidates scan acc => exact List.mem_append_right _ hw
      | _ => exact hw
    have hpsize : f.p < s.size := hb f.p List.mem_cons_self
    rw [supports_keeps hk hwsize (hev f.i), hk.ids w hwsize, hk.ids f.p hpsize]
    exact h.2 w hw
  | _ => trivial

/-- `try_resubmit` after a statement: its candidates were checked one by one. -/
theorem Sys.Noted.stmt_fit (h : s.Noted cfg) (hst : Stmt cfg s o (s.points who) eff pt') :
    pt'.Fit cfg s := by
  have hfit := h.fit who
  have hhand := h.hand who
  generalize s.points who = pt at hst hfit hhand
  cases hst with
  | handler hl hs =>
    refine ⟨?_, by simp [Resubmit.chosen]⟩
    exact (hhand _ List.mem_cons_self).2 rfl
  | candidates hne => exact hfit
  | candidate hne hr hsup =>
    refine ⟨hfit.1, fun w hw => ?_⟩
    rcases List.mem_append.mp hw with hold | hnew
    · exact hfit.2 w hold
    · obtain rfl := List.mem_singleton.mp hnew
      exact ⟨hne, hsup⟩
  | noCandidate f w scan acc => exact hfit
  | reserve hr => exact ⟨hfit.1, fun w hw => hfit.2 w (by simpa [Resubmit.chosen] using hw)⟩
  | classified f idle busy =>
    exact ⟨hfit.1, fun w hw => hfit.2 w (by simpa [Resubmit.chosen] using hw)⟩
  | busy f w scan idle busy =>
    refine ⟨hfit.1, fun x hx => hfit.2 x ?_⟩
    simp only [Resubmit.chosen, List.mem_append, List.mem_cons, List.not_mem_nil, or_false] at hx ⊢
    tauto
  | notBusy f w scan idle busy =>
    refine ⟨hfit.1, fun x hx => hfit.2 x ?_⟩
    simp only [Resubmit.chosen, List.mem_append, List.mem_cons, List.not_mem_nil, or_false] at hx ⊢
    tauto
  | rejected f w rest => exact ⟨hfit.1, fun x hx => hfit.2 x (List.mem_cons_of_mem _ hx)⟩
  | returned p k => cases k <;> trivial
  | _ => trivial

/-- A task that gets no note keeps its story at the new point. -/
theorem Sys.Noted.stmt_located (h : s.Noted cfg) (hsound : s.Sound)
    (hst : Stmt cfg s o (s.points who) eff pt') {i : ℕ} (hi : i ∈ pt'.held) (hn : i ∉ eff.noted) :
    pt'.Located s i := by
  have hmem := hst.held.subset (List.mem_append_left eff.given hi)
  have hhand := h.hand who
  have hnd : (s.points who).held.Nodup := hsound.linear.nodup (.hand who)
  generalize s.points who = pt at hst hhand hmem hnd
  cases hst with
  | pop hs hq =>
    refine h.queue _ i ?_
    rw [Sys.held, hq, List.flatten_cons]
    exact List.mem_append_left _ hi
  | swap p retryPending rest => exact .inl (h.queue p i hi)
  | returned p k => cases k <;> simp [Cont.after, Point.held] at hi
  | moves hh hcall hm =>
    refine tells_moves hm hh hcall rfl hnd hi (hhand i ?_)
    exact hm.held.subset hi
  | handlerStopping hs => exact .inr (hhand i hi).1
  | handler hl hs => exact (hhand i hi).1
  | invoke p batch k => exact absurd hi hn
  | noCandidates f => exact .inr (hhand i hi)
  | noReserve f ws => exact .inr (hhand i hi)
  | reserve hr => exact ⟨fun hif => absurd (List.mem_singleton.mpr hif) hn, fun _ => hhand i hi⟩
  | noOffer f =>
    by_cases hif : i = f.i
    · exact .inl hif
    · exact .inr ((hhand i hi).2 hif)
  | accepted rest ha =>
    refine (hhand i (List.mem_cons_of_mem _ hi)).2 ?_
    rintro rfl
    exact (List.nodup_cons.mp hnd).1 hi
  | grouped ds => exact hhand i (by simpa [Effect.taken] using hmem)
  | group k rest ds kd => exact hhand i (by simpa [Effect.taken] using hmem)
  | invalidKind k rest ds => exact hhand i (by simpa [Effect.taken] using hmem)
  | overloaded k rest gs => exact hhand i (by simpa [Effect.taken] using hmem)
  | atCapacity k rest gs => exact hhand i (by simpa [Effect.taken] using hmem)
  | offered gs ha => exact hhand i (by simpa [Effect.taken] using hmem)
  | scanTaken rest gs ha => exact hhand i (by simpa [Effect.taken] using hmem)
  | _ => exact hhand i hi

/-- The task under `try_resubmit` has no reservation yet when one is granted. -/
theorem Sys.Noted.once (h : s.Noted cfg) {i p : ℕ} (hhere : Here s p (s.notes i))
    (hr : ((s.tasks i).tryReserveRetry s.mono).1 = true) : Once p (s.notes i) := by
  refine hhere.once fun a b hm => ?_
  have hcount := (h.reserved i a b hm).1
  obtain ⟨-, -, hzero, -⟩ := Task.tryReserveRetry_true hr
  omega

/-- What a statement that adds a note makes of the story. -/
theorem Sys.Noted.stmt_noted (h : s.Noted cfg) (hsound : s.Sound) (hb : s.Bounded) (hg : s.Guarded)
    (hst : Stmt cfg s o (s.points who) eff pt') {i : ℕ} (hn : i ∈ eff.noted) :
    (∃ p batch k, eff = .invoke p batch ∧ pt' = .process p (.inflight batch) k ∧
      Called s p ((s.apply cfg who eff).notes i)) ∨
    (∃ (f : Frame) (ws : List ℕ), eff = .reserve f.i ∧ i = f.i ∧ pt' = .resubmit f (.classify ws [] []) ∧
      durable (s.tasks i) = false ∧ ((s.tasks i).tryReserveRetry s.mono).1 = true ∧
      Reserved f.p ((s.apply cfg who eff).notes i)) ∨
    ∃ (f : Frame) (q : ℕ), eff = .handoff f.p q i ∧ i ∉ pt'.held ∧
      Moved s q ((s.apply cfg who eff).notes i) := by
  have hhand := h.hand who
  have hnd : (s.points who).held.Nodup := hsound.linear.nodup (.hand who)
  have hfit := h.fit who
  have hbound := hb.points who
  generalize s.points who = pt at hst hhand hfit hbound hnd
  cases hst with
  | invoke p batch k =>
    refine .inl ⟨p, batch, k, rfl, rfl, s.notes i, hhand i hn, ?_⟩
    exact if_pos hn
  | reserve hr =>
    rename_i f ws
    obtain rfl := List.mem_singleton.mp hn
    obtain ⟨hterm, hexp, -, -⟩ := Task.tryReserveRetry_true hr
    refine .inr (.inl ⟨f, ws, rfl, rfl, rfl, hfit.1, hr, s.notes f.i,
      h.once (hhand f.i List.mem_cons_self) hr, ?_⟩)
    simp [Sys.apply, hterm, hexp]
  | accepted rest ha =>
    rename_i f w
    obtain rfl := List.mem_singleton.mp hn
    obtain ⟨pre, hpre, hnotes⟩ := (hhand f.i List.mem_cons_self).1 rfl
    obtain ⟨hother, hsup⟩ := hfit.2 w List.mem_cons_self
    have hw : w < s.size := hbound w (by simp [Point.proxies, Resubmit.proxies])
    have hp : f.p < s.size := hbound f.p (by simp [Point.proxies])
    have hready : (s.proxies w).isReady = true := by
      simp only [Proxy.accepts, Bool.and_eq_true] at ha
      simpa [Proxy.isReady] using ha.1
    have hlate : s.stopDone = false := by
      by_contra hd
      have hstop := (hg.done (by simpa using hd)).2 w
      simp [not_stop_of_accepts ha] at hstop
    refine .inr (.inr ⟨f, w, rfl, (List.nodup_cons.mp hnd).1, f.p, s.proxies w, pre, hpre,
      ⟨hp, hw, rfl, hother, hready⟩, ?_⟩)
    simp [Sys.apply, hnotes, hsup, hlate]
  | _ => simp [Effect.noted] at hn

theorem retryCount_call_tryReserveRetry {u : Task} {mono : ℤ}
    (h : (u.tryReserveRetry mono).1 = true) (wall : ℤ) :
    1 ≤ (u.call .tryReserveRetry mono wall).retryCount := by
  obtain ⟨hterm, hexp, hzero, -⟩ := Task.tryReserveRetry_true h
  simp [Task.call, Task.Method.body, hterm, hexp, hzero, Task.Write.apply]

/-- What is new in a queue was just put there. -/
theorem apply_queue_new (cfg : Config) (s : Sys) (who : Who) {eff : Effect} {p i : ℕ}
    (h : i ∈ (s.apply cfg who eff).held (.queue p)) (hnew : i ∉ s.held (.queue p)) :
    (∃ batch, eff = .push p batch ∧ i ∈ batch) ∨ ∃ r, eff = .handoff r p i := by
  have hset : ∀ (q : ℕ) (w : Proxy), i ∈ (s.setProxy q w).held (.queue p) →
      p = q ∧ i ∈ w.queue.flatten := by
    intro q w hi
    rw [setProxy_held_queue] at hi
    split at hi
    · rename_i hpq
      exact ⟨hpq, hi⟩
    · exact absurd hi hnew
  cases eff with
  | push q batch =>
    obtain ⟨rfl, hi⟩ := hset q _ h
    rw [List.flatten_append, List.flatten_singleton] at hi
    exact .inl ⟨batch, rfl, (List.mem_append.mp hi).resolve_left hnew⟩
  | handoff r q k =>
    obtain ⟨rfl, hi⟩ := hset q _ h
    rw [List.flatten_append, List.flatten_singleton] at hi
    obtain rfl := List.mem_singleton.mp ((List.mem_append.mp hi).resolve_left hnew)
    exact .inr ⟨r, rfl⟩
  | pop q =>
    obtain ⟨rfl, hi⟩ := hset q _ h
    refine absurd ?_ hnew
    exact (List.Sublist.flatten (List.tail_sublist _)).subset hi
  | swap q =>
    obtain ⟨rfl, hi⟩ := hset q _ h
    simp at hi
  | finish q =>
    obtain ⟨rfl, hi⟩ := hset q _ h
    exact absurd hi hnew
  | beginStop q r =>
    obtain ⟨rfl, hi⟩ := hset q _ h
    rw [beginStop_queue] at hi
    exact absurd hi hnew
  | route q state =>
    obtain ⟨rfl, hi⟩ := hset q _ h
    exact absurd hi hnew
  | create wid address =>
    obtain ⟨rfl, hi⟩ := hset s.size _ h
    simp at hi
  | _ => exact absurd h hnew

/-- A batch that is submitted has not been called. -/
theorem Sys.Noted.push_fresh (h : s.Noted cfg) {q : ℕ} {batch : List ℕ}
    (hst : Stmt cfg s o (s.points who) (.push q batch) pt') {i : ℕ} (hi : i ∈ batch) :
    s.notes i = [] := by
  have hhand := h.hand who
  generalize s.points who = pt at hst hhand
  cases hst with
  | offered gs ha => exact hhand i (List.mem_append_left _ hi)
  | scanTaken rest gs ha => exact hhand i (List.mem_append_left _ hi)

/-- **A statement keeps the stories.** -/
theorem Sys.Noted.act (h : s.Noted cfg) (hsound : s.Sound) (hb : s.Bounded) (hg : s.Guarded)
    (hst : Stmt cfg s o (s.points who) eff pt') :
    ((s.apply cfg who eff).goto who pt').Noted cfg := by
  have hk := apply_keeps cfg s who eff pt'
  have hev := apply_evolves cfg s who eff
  have hnotes : ∀ i, i ∉ eff.noted → (s.apply cfg who eff).notes i = s.notes i :=
    fun i => apply_notes cfg s who
  -- only the thread itself holds the tasks it adds notes to
  have hother : ∀ P i, P ≠ .hand who → i ∈ s.held P → i ∉ eff.noted := by
    intro P i hP hi hn
    exact hP (hsound.linear.apart P (.hand who) i hi (hst.noted hn))
  refine ⟨fun i => ?_, fun i hi => ?_, fun i a b hm => ?_, fun who' i hi => ?_, fun p i hi => ?_, ?_⟩
  · by_cases hn : i ∈ eff.noted
    · rcases h.stmt_noted hsound hb hg hst hn with ⟨p, -, -, -, -, hc⟩ |
        ⟨f, -, -, -, -, -, -, hr⟩ | ⟨f, q, -, -, hm⟩
      · exact ⟨p, .inl (.inr (hc.keeps hk))⟩
      · exact ⟨f.p, .inr hr⟩
      · exact ⟨q, .inl (.inl ((show Waiting s q _ from .inr hm).keeps hk))⟩
    · exact (congrArg (Story _) (hnotes i hn)).mpr ((h.story i).keeps hk)
  · have hi' : i ∉ s.submitted := by simpa [Sys.goto, apply_submitted] using hi
    refine (hnotes i fun hn => hi' ?_).trans (h.fresh i hi')
    exact hsound.known (.hand who) i (hst.noted hn)
  · change 1 ≤ ((s.apply cfg who eff).tasks i).retryCount ∧
      durable ((s.apply cfg who eff).tasks i) = false
    rw [durable_evolves (hev i)]
    have hold : .reserved a b ∈ s.notes i → 1 ≤ ((s.apply cfg who eff).tasks i).retryCount ∧
        durable (s.tasks i) = false := by
      intro hm
      obtain ⟨hcount, hdur⟩ := h.reserved i a b hm
      exact ⟨le_trans hcount (hev i).retryCount, hdur⟩
    by_cases hn : i ∈ eff.noted
    · have hm' : .reserved a b ∈ (s.apply cfg who eff).notes i := hm
      rcases h.stmt_noted hsound hb hg hst hn with ⟨p, batch, k, rfl, -, -⟩ |
        ⟨f, ws, rfl, rfl, -, hdur, hr, -⟩ | ⟨f, q, rfl, -, -⟩
      · refine hold ?_
        have hin : i ∈ batch := hn
        simpa [Sys.apply, hin] using hm'
      · refine ⟨?_, hdur⟩
        simpa [Sys.apply, applyCall] using retryCount_call_tryReserveRetry hr s.wall
      · refine hold ?_
        simpa [Sys.apply] using hm'
    · exact hold ((hnotes i hn) ▸ hm)
  · by_cases hw : who' = who
    · subst hw
      have hi' : i ∈ pt'.held := by simpa [Sys.goto] using hi
      have hpt : ((s.apply cfg who' eff).goto who' pt').points who' = pt' := by simp [Sys.goto]
      rw [hpt]
      by_cases hn : i ∈ eff.noted
      · rcases h.stmt_noted hsound hb hg hst hn with ⟨p, batch, k, -, rfl, hc⟩ |
          ⟨f, ws, -, hif, rfl, -, -, hr⟩ | ⟨f, q, -, hgone, -⟩
        · exact hc.keeps hk
        · exact ⟨fun _ => hr, fun hne => absurd hif hne⟩
        · exact absurd hi' hgone
      · exact (h.stmt_located hsound hst hi' hn).keeps hk (hnotes i hn) (hev i)
    · have hpt : ((s.apply cfg who eff).goto who pt').points who' =
          (s.apply cfg who eff).points who' := by simp [Sys.goto, hw]
      rw [hpt] at hi ⊢
      rcases apply_points cfg s who eff who' with hsame | ⟨-, htop⟩
      · rw [hsame] at hi ⊢
        have hn := hother (.hand who') i (by simpa using hw) hi
        exact (h.hand who' i hi).keeps hk (hnotes i hn) (hev i)
      · simp [htop, Point.held] at hi
  · by_cases hold : i ∈ s.held (.queue p)
    · have hn := hother (.queue p) i (by simp) hold
      exact (congrArg (Waiting _ p) (hnotes i hn)).mpr ((h.queue p i hold).keeps hk)
    · rcases apply_queue_new cfg s who hi hold with ⟨batch, rfl, hin⟩ | ⟨r, rfl⟩
      · exact .inl (h.push_fresh hst hin)
      · rcases h.stmt_noted hsound hb hg hst (List.mem_singleton_self i) with
          ⟨_, _, _, he, _⟩ | ⟨_, _, he, _⟩ | ⟨f, q, he, -, hm⟩
        · simp at he
        · simp at he
        · obtain ⟨-, rfl, -⟩ := Effect.handoff.inj he
          exact (show Waiting s p _ from .inr hm).keeps hk
  · have hbound : ∀ p ∈ pt'.proxies, p < s.size := by
      intro p hp
      exact (hst.proxies hp).elim (hb.points who p) (hb.values p)
    exact act_points (fun _ pt => pt.Fit cfg ((s.apply cfg who eff).goto who pt'))
      ((h.stmt_fit hst).keeps hk hbound hev)
      (fun who' _ => (h.fit who').keeps hk (hb.points who') hev) trivial

/-- The tasks evolve, time passes or a routing state changes. -/
theorem Sys.Noted.same (h : s.Noted cfg) (hb : s.Bounded) (hk : Keeps s t)
    (hev : ∀ i, Task.Evolves (s.tasks i) (t.tasks i)) (hn : t.notes = s.notes)
    (hp : t.points = s.points) (hsub : t.submitted = s.submitted) (hheld : t.held = s.held) :
    t.Noted cfg where
  story := fun i => by rw [hn]; exact (h.story i).keeps hk
  fresh := fun i hi => by rw [hn]; exact h.fresh i (hsub ▸ hi)
  reserved := fun i a b hm => by
    rw [hn] at hm
    rw [durable_evolves (hev i)]
    exact ⟨le_trans (h.reserved i a b hm).1 (hev i).retryCount, (h.reserved i a b hm).2⟩
  hand := fun who i hi => by
    rw [hp] at hi ⊢
    exact (h.hand who i hi).keeps hk (by rw [hn]) (hev i)
  queue := fun p i hi => by
    rw [hheld] at hi
    rw [hn]
    exact (h.queue p i hi).keeps hk
  fit := fun who => by
    rw [hp]
    exact (h.fit who).keeps hk (hb.points who) hev

/-- A thread calls the pool with tasks that nobody has called. -/
theorem Sys.Noted.start (h : s.Noted cfg) (hb : s.Bounded) {n : ℕ} {pt : Point} (new : List ℕ)
    (hloc : ∀ i ∈ pt.held, s.notes i = [] → pt.Located s i) (hheld : pt.held = new)
    (hnew : ∀ i ∈ new, i ∉ s.submitted) (hpt : pt.proxies = []) (hfit : pt.Fit cfg s) :
    ({ s.goto (.thread n) pt with submitted := new ++ s.submitted } : Sys).Noted cfg := by
  have hk : Keeps s ({ s.goto (.thread n) pt with submitted := new ++ s.submitted } : Sys) :=
    ⟨le_rfl, fun _ _ => rfl⟩
  refine ⟨fun i => (h.story i).keeps hk, fun i hi => h.fresh i fun hs => hi (by simp [hs]),
    h.reserved, fun who i hi => ?_, fun p i hi => (h.queue p i hi).keeps hk, fun who => ?_⟩
  · by_cases hw : who = .thread n
    · subst hw
      have hi' : i ∈ pt.held := by simpa [Sys.goto] using hi
      have hloc' := hloc i hi' (h.fresh i (hnew i (hheld ▸ hi')))
      simpa [Sys.goto] using hloc'.keeps hk rfl (.refl _)
    · have hi' : i ∈ (s.points who).held := by simpa [Sys.goto, hw] using hi
      simpa [Sys.goto, hw] using (h.hand who i hi').keeps hk rfl (.refl _)
  · by_cases hw : who = .thread n
    · subst hw
      simpa [Sys.goto] using hfit.keeps hk (by simp [hpt]) fun _ => .refl _
    · simpa [Sys.goto, hw] using (h.fit who).keeps hk (hb.points who) fun _ => .refl _

/-- **Step lemma.** -/
theorem Sys.Noted.step (h : s.Noted cfg) (hsound : s.Sound) (hb : s.Bounded) (hg : s.Guarded)
    {e : Event} (hs : s.step cfg e = some t) : t.Noted cfg := by
  have hk := step_keepsIds hs
  have hev := step_evolves hs
  cases step_cases hs with
  | tick | fail => exact h.same hb hk hev rfl rfl rfl rfl
  | route p state =>
    exact h.same hb hk (fun _ => .refl _) rfl rfl rfl
      (held_congr (fun q => (route_same s p state q).1) rfl)
  | @submit _ batch _ _ hnew =>
    exact h.start hb batch (fun _ _ hn => hn) (by simp [Point.held]) hnew rfl trivial
  | update | stop => exact h.start hb [] (fun _ _ hn => hn) rfl (by simp) rfl trivial
  | act hst => exact h.act hsound hb hg hst

end Acts

/-! ## The discipline -/

/-- The proxies that called `ProcessBatch` with the task, in order. -/
def calls (l : List Note) : List ℕ :=
  l.filterMap fun
    | .called p => some p
    | _ => none

/-- The task is in a call of `ProcessBatch` that the thread waits for. -/
def Sys.InFlight (s : Sys) (who : Who) (i : ℕ) : Prop :=
  ∃ p batch k, s.points who = .process p (.inflight batch) k ∧ i ∈ batch

/-- The retry of a second call: reserved for an open task, accepted by a ready and compatible proxy
of another worker. -/
def Retried (s : Sys) (p q : ℕ) (l : List Note) : Prop :=
  ∃ w, l = [.called p, .reserved false false, .accepted p q w true false, .called q] ∧
    w.stop = false ∧ w.routing = .ready ∧ w.workerId = (s.proxies q).workerId ∧
    w.workerId ≠ (s.proxies p).workerId

section Discipline

variable {s : Sys} {l : List Note}

/-- What any story says about its calls and handoffs. -/
theorem Story.calls (h : Story s l) : (calls l).length ≤ 2 ∧
    (∀ p q, calls l = [p, q] → Retried s p q l) ∧
    ((∀ a b, .reserved a b ∉ l) → (calls l).length ≤ 1) ∧
    ∀ p q w supported late, .accepted p q w supported late ∈ l → late = false := by
  have hmoved : ∀ {q l}, Moved s q l → (Machine.calls l).length ≤ 1 ∧
      Note.reserved false false ∈ l ∧
      (∀ p r w supported late, .accepted p r w supported late ∈ l → late = false) ∧
      ∀ r, Machine.calls l = [r] → Retried s r q (l ++ [.called q]) := by
    rintro q l ⟨p, w, pre, rfl | rfl, hw, rfl⟩
    · refine ⟨by simp [Machine.calls], by simp, ?_, by simp [Machine.calls]⟩
      simp +contextual
    · refine ⟨by simp [Machine.calls], by simp, by simp +contextual, fun r hr => ?_⟩
      obtain rfl : p = r := by simpa [Machine.calls] using hr
      have hready := hw.ready
      simp only [Proxy.isReady, Bool.and_eq_true, Bool.not_eq_true', beq_iff_eq] at hready
      exact ⟨w, by simp, hready.1, hready.2, hw.same, hw.other⟩
  obtain ⟨p, ((rfl | hm) | ⟨pre, rfl | hm, rfl⟩) | ⟨pre, rfl | rfl, rfl⟩⟩ := h
  · simp [Machine.calls]
  · obtain ⟨hlen, hres, hlate, -⟩ := hmoved hm
    refine ⟨by omega, fun r q hc => ?_, fun hn => absurd hres (hn _ _), hlate⟩
    simp [hc] at hlen
  · simp [Machine.calls]
  · obtain ⟨hlen, hres, hlate, hretry⟩ := hmoved hm
    have hcalls : Machine.calls (pre ++ [.called p]) = Machine.calls pre ++ [p] := by
      simp [Machine.calls]
    refine ⟨by simp [hcalls]; omega, fun r q hc => ?_,
      fun hn => absurd (List.mem_append_left _ hres) (hn _ _), fun r q w sup late hin => ?_⟩
    · rw [hcalls] at hc
      obtain ⟨hr, hq⟩ : Machine.calls pre = [r] ∧ p = q := by
        have := List.append_inj' (hc.trans (by simp : [r, q] = [r] ++ [q])) rfl
        simpa using this
      exact hq ▸ hretry r hr
    · exact hlate r q w sup late (by simpa using hin)
  · simp [Machine.calls]
  · simp [Machine.calls]

end Discipline

/-- **Retry discipline.**  In every reachable state, for every task: at most two calls of
`ProcessBatch`, at most one of them in flight; a second call is by a proxy of another worker, which
was ready, not stopped and compatible when it accepted the task, and the retry was reserved when the
task was neither terminal nor expired; a task of a durable kind is called at most once; and no
handoff was accepted after the critical section of `stop`. -/
theorem retry_discipline (cfg : Config) {s₀ s : Sys} {es : List Event} (hinit : s₀.Init)
    (hrun : exec (Sys.step cfg) s₀ es = some s) (i : ℕ) :
    (calls (s.notes i)).length ≤ 2 ∧
    (∀ who who', s.InFlight who i → s.InFlight who' i → who = who') ∧
    (∀ p q, calls (s.notes i) = [p, q] → Retried s p q (s.notes i)) ∧
    (durable (s.tasks i) = true → (calls (s.notes i)).length ≤ 1) ∧
    ∀ p q w supported late, .accepted p q w supported late ∈ s.notes i → late = false := by
  obtain ⟨hsound, -, -, hnoted⟩ : s.Sound ∧ s.Bounded ∧ s.Guarded ∧ s.Noted cfg :=
    exec_inv (P := fun s => s.Sound ∧ s.Bounded ∧ s.Guarded ∧ s.Noted cfg)
      (fun _ _ _ h hs => ⟨h.1.step hs, h.2.1.step hs, h.2.2.1.step hs,
        h.2.2.2.step h.1 h.2.1 h.2.2.1 hs⟩)
      ⟨hinit.sound, hinit.bounded, hinit.guarded, hinit.noted⟩ hrun
  obtain ⟨htwo, hretry, hone, hlate⟩ := (hnoted.story i).calls
  refine ⟨htwo, ?_, hretry, fun hd => hone fun a b hm => ?_, hlate⟩
  · rintro who who' ⟨p, batch, k, hpt, hi⟩ ⟨p', batch', k', hpt', hi'⟩
    have hmem : i ∈ s.held (.hand who) := by simpa [Sys.held, hpt, Point.held, Pc.held] using hi
    have hmem' : i ∈ s.held (.hand who') := by
      simpa [Sys.held, hpt', Point.held, Pc.held] using hi'
    exact Place.hand.inj (hsound.linear.apart _ _ i hmem hmem')
  · simp [(hnoted.reserved i a b hm).2] at hd

/-- Task 0 is called by both workers. -/
theorem retry_discipline_handoff : ∃ s, exec (Sys.step sampleConfig) sampleStart
      (handoffRun ++ List.replicate 12 (.act (.loop 1) lost)) = some s ∧
    calls (s.notes 0) = [0, 1] ∧ Retried s 0 1 (s.notes 0) := by
  have hview : (exec (Sys.step sampleConfig) sampleStart
      (handoffRun ++ List.replicate 12 (.act (.loop 1) lost))).map (fun s => calls (s.notes 0)) =
        some [0, 1] := by
    decide +kernel
  obtain ⟨s, hs, hcalls⟩ := Option.map_eq_some_iff.mp hview
  exact ⟨s, hs, hcalls, (retry_discipline sampleConfig sampleStart_init hs 0).2.2.1 0 1 hcalls⟩

end Inference.Pool.Machine
