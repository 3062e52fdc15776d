import Inference.Pool.Reconcile

/-!
# Inference.Pool.Omission — responses that leave a task behind

The converse of `run_inv`: for every outcome that is not reconcilable there is a run of `_process`
that does not settle.  In both runs everybody else first fails the tasks that play no part, so that
the call sends only the tasks in question (`keep`), and then does nothing more.

* `reaches_call`: the call sends exactly the tasks of `keep`.
* `reaches_sweep`: a response without an entry for any of them ends in the sweep.
* `reaches_finish`: an undecodable entry ends in the exception handler.
* `settles_iff`: for every batch and every outcome the call returns, and every run settles exactly
  when the outcome is reconcilable.
-/

namespace Inference.Pool

open Inference.Lib

/-- Some run in which the stub answers `o` leads from `w` to `w'`. -/
def Reaches (loads : String → Except Exc Json) (o : Outcome) (w w' : World) : Prop :=
  ∃ es, Answers o es ∧ exec (World.step loads) w es = some w'

section Reaches

variable {loads : String → Except Exc Json} {o : Outcome} {w w' w'' : World}

theorem Reaches.refl (w : World) : Reaches loads o w w := ⟨[], by simp [Answers], rfl⟩

theorem Reaches.trans (h : Reaches loads o w w') (h' : Reaches loads o w' w'') :
    Reaches loads o w w'' := by
  obtain ⟨es, hans, hes⟩ := h
  obtain ⟨fs, hans', hfs⟩ := h'
  refine ⟨es ++ fs, fun io hio => ?_, exec_append.mpr ⟨w', hes, hfs⟩⟩
  exact (List.mem_append.mp hio).elim (hans io) (hans' io)

theorem reaches_task (i : ℕ) (m : Task.Method) :
    Reaches loads o w { w with tasks := applyCall w.tasks w.mono w.wall (some (i, m)) } :=
  ⟨[.task i m], by simp [Answers], rfl⟩

/-- The answers used below: the retry handler always refuses. -/
def refusing (o : Outcome) : Io := { outcome := o, handler := some false }

theorem reaches_next {c : Option (ℕ × Task.Method)} {pc : Pc}
    (h : next loads w.view (refusing o) w.pc = some (c, pc)) :
    Reaches loads o w (w.after (refusing o) c pc) := by
  refine ⟨[.advance (refusing o)], fun io hio => ?_, ?_⟩
  · simp only [List.mem_singleton, Event.advance.injEq] at hio
    rw [hio]
    rfl
  · simp [exec, World.step, h]

/-- A statement that calls no method and is not the stub's answer only moves on. -/
theorem after_none {pc : Pc} (hq : hears (refusing o) w.pc = false) :
    w.after (refusing o) none pc = { w with pc := pc } := by
  have hh : handed (refusing o) w.pc = [] := by
    unfold handed
    split <;> simp [refusing]
  simp [World.after, hq, hh, applyCall, ends]

theorem reaches_goto {pc : Pc} (hq : hears (refusing o) w.pc = false)
    (h : next loads w.view (refusing o) w.pc = some (none, pc)) :
    Reaches loads o w { w with pc := pc } := by
  have := reaches_next h
  rwa [after_none hq] at this

end Reaches

/-! ## Up to the call -/

/-- Nobody stops the proxy, the tasks of `keep` are open and in time, all others have ended. -/
structure Calm (tasks : ℕ → Task) (batch keep : List ℕ) (w : World) : Prop where
  stop : w.stop = false
  accepted : w.accepted = []
  evolves : ∀ i, Task.Evolves (tasks i) (w.tasks i)
  live : ∀ i ∈ keep, (w.tasks i).terminal = false ∧ (w.tasks i).isExpired w.mono = false
  others : ∀ i ∈ batch, i ∉ keep → (w.tasks i).terminal = true

section Call

variable {loads : String → Except Exc Json} {o : Outcome} {tasks : ℕ → Task}
  {batch keep : List ℕ} {w : World}

/-- Others fail every task of `l`. -/
theorem reaches_failed (loads : String → Except Exc Json) (o : Outcome) (l : List ℕ) (w : World) :
    ∃ ts : ℕ → Task, Reaches loads o w { w with tasks := ts } ∧
      (∀ i, Task.Evolves (w.tasks i) (ts i)) ∧ (∀ i ∈ l, (ts i).terminal = true) ∧
      ∀ i ∉ l, ts i = w.tasks i := by
  induction l generalizing w with
  | nil => exact ⟨w.tasks, .refl w, fun _ => .refl _, by simp, fun _ _ => rfl⟩
  | cons k l ih =>
    obtain ⟨ts, hreach, hev, hterm, hsame⟩ :=
      ih { w with tasks := applyCall w.tasks w.mono w.wall (some (k, .markFailed "" none)) }
    have hev₁ := applyCall_evolves w.tasks w.mono w.wall (some (k, .markFailed "" none))
    refine ⟨ts, (reaches_task k _).trans hreach, fun i => (hev₁ i).trans (hev i), ?_, ?_⟩
    · intro i hi
      rcases List.mem_cons.mp hi with rfl | hi
      · refine (hev i).terminal ?_
        simp [applyCall, call_markFailed_terminal]
      · exact hterm i hi
    · intro i hi
      simp only [List.mem_cons, not_or] at hi
      rw [hsame i hi.2]
      simp [applyCall, hi.1]

theorem Calm.goto (h : Calm tasks batch keep w) (pc : Pc) :
    Calm tasks batch keep { w with pc := pc } :=
  ⟨h.stop, h.accepted, h.evolves, h.live, h.others⟩

/-- The first loop keeps the tasks of `keep`. -/
theorem reaches_filter {rest acc : List ℕ} (h : Calm tasks batch keep w) (hrest : ∀ i ∈ rest, i ∈ batch)
    (hpc : w.pc = .filter rest acc) : Reaches loads o w
      { w with pc := .checkStop (acc ++ rest.filter fun i => decide (i ∈ keep)) } := by
  induction rest generalizing acc w with
  | nil =>
    simp only [List.filter_nil, List.append_nil]
    exact reaches_goto (by rw [hpc]; rfl) (by rw [hpc]; rfl)
  | cons i rest ih =>
    have hrest' : ∀ k ∈ rest, k ∈ batch := fun k hk => hrest k (List.mem_cons_of_mem _ hk)
    by_cases hk : i ∈ keep
    · obtain ⟨hopen, hlive⟩ := h.live i hk
      have h1 : Reaches loads o w { w with pc := .filterExpired i rest acc } :=
        reaches_goto (by rw [hpc]; rfl) (by simp [hpc, next, World.view, hopen])
      have h2 : Reaches loads o { w with pc := .filterExpired i rest acc }
          { w with pc := .filter rest (acc ++ [i]) } :=
        reaches_goto rfl (by simp [next, World.view, hlive])
      have h3 := ih (h.goto (.filter rest (acc ++ [i]))) hrest' rfl
      simp only [List.append_assoc, List.singleton_append] at h3
      simpa [hk] using (h1.trans h2).trans h3
    · have hterm := h.others i (hrest i List.mem_cons_self) hk
      have h1 : Reaches loads o w { w with pc := .filter rest acc } :=
        reaches_goto (by rw [hpc]; rfl) (by simp [hpc, next, World.view, hterm])
      simpa [hk] using h1.trans (ih (h.goto _) hrest' rfl)

/-- `mark_processing` of every task sent. -/
theorem reaches_marked (loads : String → Except Exc Json) (o : Outcome) {rest sent : List ℕ}
    (h : Calm tasks batch keep w) (hrest : ∀ i ∈ rest, i ∈ keep)
    (hpc : w.pc = .marking rest sent) :
    ∃ w', Reaches loads o w w' ∧ w'.pc = .building sent sent [] ∧ Calm tasks batch keep w' := by
  induction rest generalizing w with
  | nil =>
    exact ⟨_, reaches_goto (by rw [hpc]; rfl) (by rw [hpc]; rfl), rfl, h.goto _⟩
  | cons i rest ih =>
    have hstep : Reaches loads o w
        (w.after (refusing o) (some (i, .markProcessing)) (.marking rest sent)) :=
      reaches_next (by rw [hpc]; rfl)
    have hev := w.after_evolves (refusing o) (some (i, .markProcessing)) (.marking rest sent)
    have hcalm : Calm tasks batch keep
        (w.after (refusing o) (some (i, .markProcessing)) (.marking rest sent)) := by
      refine ⟨h.stop, by simp [World.after, hpc, handed, h.accepted],
        fun k => (h.evolves k).trans (hev k), fun k hk => ?_,
        fun k hk hn => (hev k).terminal (h.others k hk hn)⟩
      obtain ⟨hopen, hlive⟩ := h.live k hk
      constructor
      · by_cases hki : k = i
        · subst hki
          have := Task.markProcessing_of_open hopen w.wall
          simp only [World.after, applyCall, Function.update_self]
          change ((w.tasks k).markProcessing w.wall).terminal = false
          rw [this]
          rfl
        · simpa [World.after, applyCall, hki] using hopen
      · rw [Task.isExpired, Task.remainingSeconds, (hev k).deadline]
        exact hlive
    obtain ⟨w', hreach, hpc', hcalm'⟩ :=
      ih hcalm (fun k hk => hrest k (List.mem_cons_of_mem _ hk)) rfl
    exact ⟨w', hstep.trans hreach, hpc', hcalm'⟩

theorem rpcTimeout_pos {times : List ℤ} (h : ∀ t ∈ times, 0 < t) : 0 < rpcTimeout times := by
  unfold rpcTimeout
  cases hm : times.max? with
  | none => simp
  | some m => exact h m (List.max?_mem hm)

theorem remaining_pos {t : Task} {mono : ℤ} (h : t.isExpired mono = false) :
    ∀ r ∈ (t.remainingSeconds mono).toList, 0 < r := by
  intro r hr
  have hr' : t.remainingSeconds mono = some r := by simpa using hr
  simpa [Task.isExpired, hr'] using h

/-- The request is built and the stub called. -/
theorem reaches_built {rest sent : List ℕ} {times : List ℤ} (h : Calm tasks batch keep w)
    (hrest : ∀ i ∈ rest, i ∈ keep) (htimes : ∀ t ∈ times, 0 < t)
    (hpc : w.pc = .building rest sent times) :
    Reaches loads o w { w with pc := .inflight sent } := by
  induction rest generalizing w times with
  | nil =>
    have h1 : Reaches loads o w { w with pc := .timeout sent times } :=
      reaches_goto (by rw [hpc]; rfl) (by rw [hpc]; rfl)
    have hpos := rpcTimeout_pos htimes
    have h2 : Reaches loads o { w with pc := .timeout sent times } { w with pc := .call sent } :=
      reaches_goto rfl (by simp [next, show ¬ rpcTimeout times ≤ 0 by omega])
    have h3 : Reaches loads o { w with pc := .call sent } { w with pc := .inflight sent } :=
      reaches_goto rfl rfl
    exact (h1.trans h2).trans h3
  | cons i rest ih =>
    obtain ⟨-, hlive⟩ := h.live i (hrest i List.mem_cons_self)
    obtain ⟨times', htimes'⟩ : ∃ l, l = times ++ ((w.tasks i).remainingSeconds w.mono).toList :=
      ⟨_, rfl⟩
    have h1 : Reaches loads o w { w with pc := .building rest sent times' } :=
      reaches_goto (by rw [hpc]; rfl) (by rw [hpc, htimes']; rfl)
    refine h1.trans (ih (h.goto _) (fun k hk => hrest k (List.mem_cons_of_mem _ hk)) ?_ rfl)
    intro t ht
    rw [htimes'] at ht
    rcases List.mem_append.mp ht with ht | ht
    · exact htimes t ht
    · exact remaining_pos hlive t ht

/-- The call in flight with exactly the tasks of `keep`, from the start of `_process`. -/
theorem reaches_call (loads : String → Except Exc Json) (o : Outcome) (keep : List ℕ)
    (hopen : ∀ i ∈ batch, (tasks i).terminal = false) (hkeep : ∀ i ∈ keep, i ∈ batch)
    (hne : keep ≠ []) : ∃ w w', Start tasks batch w ∧ Reaches loads o w w' ∧
      Calm tasks batch keep w' ∧ w'.pc = .inflight (batch.filter fun i => decide (i ∈ keep)) := by
  -- a time before every deadline
  obtain ⟨mono, hmono⟩ : ∃ mono : ℤ, ∀ i ∈ keep, (tasks i).isExpired mono = false := by
    clear hkeep hne
    induction keep with
    | nil => exact ⟨0, by simp⟩
    | cons k keep ih =>
      obtain ⟨m, hm⟩ := ih
      refine ⟨min m ((tasks k).deadline.getD 0 - 1), fun i hi => ?_⟩
      have hlate : ∀ {t : Task} {a b : ℤ}, b ≤ a → t.isExpired a = false → t.isExpired b = false := by
        intro t a b hab ha
        by_contra hb
        obtain ⟨d, hd, hdb⟩ := Task.isExpired_iff.mp (by simpa using hb)
        have := Task.isExpired_iff.mpr ⟨d, hd, hdb.trans hab⟩
        simp [ha] at this
      rcases List.mem_cons.mp hi with rfl | hi
      · refine hlate (min_le_right _ _) ?_
        by_contra hexp
        obtain ⟨d, hd, hle⟩ := Task.isExpired_iff.mp (by simpa using hexp)
        simp [hd] at hle
      · exact hlate (min_le_left _ _) (hm i hi)
  let w : World := { tasks := tasks, stop := false, retryOnStop := false, mono := mono, wall := 0,
                     pc := .filter batch [], accepted := [], received := false, ended := [] }
  obtain ⟨ts, hfail, hev, hterm, hsame⟩ :=
    reaches_failed loads o (batch.filter fun i => !decide (i ∈ keep)) w
  have hkept : ∀ i ∈ keep, ts i = tasks i := fun i hi => hsame i (by simp [hi])
  have hcalm : Calm tasks batch keep { w with tasks := ts } := by
    refine ⟨rfl, rfl, hev, fun i hi => ?_, fun i hi hn => hterm i (by simp [hi, hn])⟩
    simp only [hkept i hi]
    exact ⟨hopen i (hkeep i hi), hmono i hi⟩
  have hsent : ∀ i ∈ batch.filter fun i => decide (i ∈ keep), i ∈ keep := by simp
  have hfilter : Reaches loads o { w with tasks := ts }
      { w with tasks := ts, pc := .checkStop (batch.filter fun i => decide (i ∈ keep)) } :=
    reaches_filter hcalm (fun _ h => h) rfl
  have hnonempty : batch.filter (fun i => decide (i ∈ keep)) ≠ [] := by
    obtain ⟨i, hi⟩ := List.exists_mem_of_ne_nil keep hne
    exact List.ne_nil_of_mem (List.mem_filter.mpr ⟨hkeep i hi, by simp [hi]⟩)
  generalize batch.filter (fun i => decide (i ∈ keep)) = sent at hfilter hsent hnonempty ⊢
  have hlive : Reaches loads o { w with tasks := ts, pc := .checkStop sent }
      { w with tasks := ts, pc := .marking sent sent } :=
    reaches_goto rfl (by simp [next, World.view, w, hnonempty])
  obtain ⟨u, hmark, hupc, hucalm⟩ :=
    reaches_marked loads o (hcalm.goto (.marking sent sent)) hsent rfl
  have hbuilt : Reaches loads o u { u with pc := .inflight sent } :=
    reaches_built hucalm hsent (by simp) hupc
  exact ⟨w, _, ⟨rfl, rfl, rfl, rfl, rfl⟩,
    (((hfail.trans hfilter).trans hlive).trans hmark).trans hbuilt, hucalm.goto _, rfl⟩

end Call

/-! ## An omitted result -/

section Omitted

variable {loads : String → Except Exc Json} {o : Outcome} {w : World}

/-- The response arrives. -/
theorem reaches_response {results : List TaskResult} {sent : List ℕ} (ho : o = .response results)
    (hpc : w.pc = .inflight sent) : Reaches loads o w
      { w with pc := .reconcile results sent, received := true, ended := [] } := by
  have : Reaches loads o w (w.after (refusing o) none (.reconcile results sent)) :=
    reaches_next (by rw [hpc, ho]; rfl)
  simpa [World.after, hpc, hears, refusing, ho, handed, applyCall] using this

/-- Entries for no task of the request are passed over. -/
theorem reaches_unknown {rs : List TaskResult} {sent : List ℕ}
    (hrs : ∀ r ∈ rs, ∀ i ∈ sent, (w.tasks i).taskId ≠ r.taskId) (hpc : w.pc = .reconcile rs sent) :
    Reaches loads o w { w with pc := .sweep sent } := by
  induction rs generalizing w with
  | nil => exact reaches_goto (by rw [hpc]; rfl) (by rw [hpc]; rfl)
  | cons r rs ih =>
    have hnone : taskMap w.tasks sent r.taskId = none :=
      List.find?_eq_none.mpr fun i hi => by
        simpa using hrs r List.mem_cons_self i (by simpa using hi)
    have h1 : Reaches loads o w { w with pc := .reconcile rs sent } :=
      reaches_goto (by rw [hpc]; rfl) (by simp [hpc, next, World.view, hnone])
    exact h1.trans (ih (fun x hx => hrs x (List.mem_cons_of_mem _ hx)) rfl)

/-- The sweep passes over tasks of other kinds. -/
theorem reaches_swept {rest : List ℕ} (hd : ∀ i ∈ rest, durable (w.tasks i) = false)
    (hpc : w.pc = .sweep rest) : Reaches loads o w { w with pc := .returned } := by
  induction rest generalizing w with
  | nil => exact reaches_goto (by rw [hpc]; rfl) (by rw [hpc]; rfl)
  | cons i rest ih =>
    have h1 : Reaches loads o w { w with pc := .sweep rest } :=
      reaches_goto (by rw [hpc]; rfl) (by simp [hpc, next, World.view, hd i List.mem_cons_self])
    exact h1.trans (ih (fun k hk => hd k (List.mem_cons_of_mem _ hk)) rfl)

end Omitted

/-- A task of another kind without an entry is left open. -/
theorem unsettled_of_omitted {loads : String → Except Exc Json} {tasks : ℕ → Task} {batch : List ℕ}
    (hopen : ∀ i ∈ batch, (tasks i).terminal = false) {results : List TaskResult} {i : ℕ}
    (hi : i ∈ batch) (hd : durable (tasks i) = false) (hnone : entry results (tasks i).taskId = none) :
    ∃ w w', Start tasks batch w ∧ Reaches loads (.response results) w w' ∧ w'.pc = .returned ∧
      ¬ Settles loads tasks batch (.response results) w' := by
  obtain ⟨w, u, hstart, hreach, hcalm, hpc⟩ :=
    reaches_call loads (.response results) [i] hopen (by simpa using hi) (by simp)
  have hsent : ∀ k ∈ batch.filter fun i' => decide (i' ∈ [i]), k = i := by simp
  generalize batch.filter (fun i' => decide (i' ∈ [i])) = sent at hpc hsent
  have hresp : Reaches loads (.response results) u
      { u with pc := .reconcile results sent, received := true, ended := [] } :=
    reaches_response rfl hpc
  have hunknown : Reaches loads (.response results)
      { u with pc := .reconcile results sent, received := true, ended := [] }
      { u with pc := .sweep sent, received := true, ended := [] } := by
    refine reaches_unknown (fun r hr k hk heq => ?_) rfl
    rw [hsent k hk] at heq
    have := List.find?_eq_none.mp hnone r hr
    simp [← heq, (hcalm.evolves i).taskId] at this
  have hswept : Reaches loads (.response results)
      { u with pc := .sweep sent, received := true, ended := [] }
      { u with pc := .returned, received := true, ended := [] } := by
    refine reaches_swept (fun k hk => ?_) rfl
    rw [hsent k hk, durable, (hcalm.evolves i).inputData]
    exact hd
  refine ⟨w, _, hstart, ((hreach.trans hresp).trans hunknown).trans hswept, rfl, fun hset => ?_⟩
  have hlive := (hcalm.live i (by simp)).1
  rcases hset.1 i hi with ht | ha
  · simp [hlive] at ht
  · simp [hcalm.accepted] at ha

/-! ## An undecodable result -/

section Undecodable

variable {loads : String → Except Exc Json} {o : Outcome} {w : World}

/-- Up to an undecodable entry for task `k` nothing happens to a task `i` without an entry. -/
theorem reaches_finish {pre rs : List TaskResult} {sent : List ℕ} {i k : ℕ}
    (hsent : ∀ x ∈ sent, x = i ∨ x = k) (hk : k ∈ sent)
    (hi : ∀ r ∈ pre, r.taskId ≠ (w.tasks i).taskId) {b : TaskResult} (hb : b ∈ pre)
    (hbs : b.success = true) (hbid : b.taskId = (w.tasks k).taskId)
    (hbl : ∀ value, loads b.resultJson ≠ .ok value) (hpc : w.pc = .reconcile (pre ++ rs) sent) :
    ∃ w' text v, Reaches loads o w w' ∧ w'.pc = .finish sent text (.locally v) ∧
      w'.stop = w.stop ∧ w'.tasks i = w.tasks i ∧ w'.received = w.received := by
  induction pre generalizing w with
  | nil => simp at hb
  | cons r pre ih =>
    cases hmap : taskMap w.tasks sent r.taskId with
    | none =>
      have h1 : Reaches loads o w { w with pc := .reconcile (pre ++ rs) sent } :=
        reaches_goto (by rw [hpc]; rfl) (by simp [hpc, next, World.view, hmap])
      have hb' : b ∈ pre := by
        rcases List.mem_cons.mp hb with rfl | hb
        · exact absurd hbid.symm (taskMap_none hmap k hk)
        · exact hb
      obtain ⟨w', text, v, hreach, hrest⟩ :=
        ih (w := { w with pc := .reconcile (pre ++ rs) sent })
          (fun x hx => hi x (List.mem_cons_of_mem _ hx)) hb' hbid rfl
      exact ⟨w', text, v, h1.trans hreach, hrest⟩
    | some x =>
      obtain ⟨hx, hxid⟩ := taskMap_some hmap
      have hxi : x ≠ i := by
        rintro rfl
        exact hi r List.mem_cons_self hxid.symm
      -- the entry ends task `k` in some way, or cannot be decoded
      have hgo : ∀ m : Task.Method,
          next loads w.view (refusing o) w.pc = some (some (x, m), .reconcile (pre ++ rs) sent) →
          b ∈ pre → ∃ w' text v, Reaches loads o w w' ∧ w'.pc = .finish sent text (.locally v) ∧
            w'.stop = w.stop ∧ w'.tasks i = w.tasks i ∧ w'.received = w.received := by
        intro m hn hb'
        have h1 := reaches_next hn
        have hev := w.after_evolves (refusing o) (some (x, m)) (.reconcile (pre ++ rs) sent)
        have hsame : (w.after (refusing o) (some (x, m)) (.reconcile (pre ++ rs) sent)).tasks i =
            w.tasks i := by simp [World.after, applyCall, Ne.symm hxi]
        obtain ⟨w', text, v, hreach, hpc', hstop, htask, hrec⟩ :=
          ih (w := w.after (refusing o) (some (x, m)) (.reconcile (pre ++ rs) sent))
            (fun y hy => by rw [hsame]; exact hi y (List.mem_cons_of_mem _ hy)) hb'
            (by rw [(hev k).taskId]; exact hbid) rfl
        exact ⟨w', text, v, h1.trans hreach, hpc', hstop, htask.trans hsame,
          hrec.trans (by simp [World.after, hpc, hears])⟩
      cases hs : r.success with
      | false =>
        refine hgo (.markFailed r.error (orNone r.errorCode)) ?_ ?_
        · simp [hpc, next, World.view, hmap, hs]
        · rcases List.mem_cons.mp hb with rfl | hb
          · simp [hs] at hbs
          · exact hb
      | true =>
        cases hl : loads r.resultJson with
        | ok value =>
          refine hgo (.markDone value) ?_ ?_
          · simp [hpc, next, World.view, hmap, hs, hl]
          · rcases List.mem_cons.mp hb with rfl | hb
            · exact absurd hl (hbl value)
            · exact hb
        | error e =>
          refine ⟨_, e.text, e.isValueError, reaches_goto (by rw [hpc]; rfl) ?_, rfl, rfl, rfl, rfl⟩
          simp [hpc, next, World.view, hmap, hs, hl]

/-- Without a retry every open task of the handler's list is failed by the call itself. -/
theorem reaches_failed_all {rest : List ℕ} {text : String} {v : Bool} (hstop : w.stop = false)
    (hpc : w.pc = .finish rest text (.locally v)) :
    ∃ w', Reaches loads o w w' ∧ w'.pc = .returned ∧ w'.received = w.received ∧
      (∀ i, Task.Evolves (w.tasks i) (w'.tasks i)) ∧ (∀ i ∈ w.ended, i ∈ w'.ended) ∧
      ∀ i ∈ rest, (w.tasks i).terminal = false → (w'.tasks i).status = .failed ∧ i ∈ w'.ended := by
  induction rest generalizing w with
  | nil =>
    exact ⟨_, reaches_goto (by rw [hpc]; rfl) (by rw [hpc]; rfl), rfl, rfl, fun _ => .refl _,
      fun _ h => h, by simp⟩
  | cons k rest ih =>
    have h1 : Reaches loads o w { w with pc := .finishStatus k false rest text (.locally v) } :=
      reaches_goto (by rw [hpc]; rfl) (by simp [hpc, next, Allow.eval, World.view, hstop])
    cases ht : (w.tasks k).terminal with
    | true =>
      have h2 : Reaches loads o { w with pc := .finishStatus k false rest text (.locally v) }
          { w with pc := .finish rest text (.locally v) } :=
        reaches_goto rfl (by simp [next, World.view, ht])
      obtain ⟨w', hreach, hpc', hrec, hev, hend, hall⟩ :=
        ih (w := { w with pc := .finish rest text (.locally v) }) hstop rfl
      refine ⟨w', (h1.trans h2).trans hreach, hpc', hrec, hev, hend, fun i hi hopen => ?_⟩
      rcases List.mem_cons.mp hi with rfl | hi
      · simp [ht] at hopen
      · exact hall i hi hopen
    | false =>
      have h2 : Reaches loads o { w with pc := .finishStatus k false rest text (.locally v) }
          { w with pc := .finishExpired k false rest text (.locally v) } :=
        reaches_goto rfl (by simp [next, World.view, ht])
      obtain ⟨error, code, h3⟩ : ∃ error code,
          Reaches loads o { w with pc := .finishExpired k false rest text (.locally v) }
            { w with pc := .finishFail k error code rest text (.locally v) } := by
        by_cases hexp : (w.tasks k).isExpired w.mono = true
        · exact ⟨deadlineText, some "deadline_exceeded",
            reaches_goto rfl (by simp [next, World.view, hexp])⟩
        · by_cases hd : durable (w.tasks k) = true
          · exact ⟨text, some "transport_error",
              reaches_goto rfl (by simp [next, World.view, hexp, hd])⟩
          · exact ⟨text, none, reaches_goto rfl (by simp [next, World.view, hexp, hd])⟩
      let u : World := { w with pc := .finishFail k error code rest text (.locally v) }
      have h4 : Reaches loads o u (u.after (refusing o) (some (k, .markFailed error code))
          (.finish rest text (.locally v))) := reaches_next rfl
      have hev₁ := u.after_evolves (refusing o) (some (k, .markFailed error code))
        (.finish rest text (.locally v))
      obtain ⟨w', hreach, hpc', hrec, hev, hend, hall⟩ :=
        ih (w := u.after (refusing o) (some (k, .markFailed error code))
          (.finish rest text (.locally v))) hstop rfl
      have hended : (u.after (refusing o) (some (k, .markFailed error code))
          (.finish rest text (.locally v))).ended = k :: w.ended := by
        simp [World.after, u, hears, handed, ends, ht]
      have hfailed : ((u.after (refusing o) (some (k, .markFailed error code))
          (.finish rest text (.locally v))).tasks k).status = .failed := by
        have := Task.markFailed_of_open ht w.wall error code
        simp only [World.after, applyCall, Function.update_self]
        change ((w.tasks k).markFailed w.wall error code).status = .failed
        rw [this]
      have hkfinal : (w'.tasks k).status = .failed ∧ k ∈ w'.ended := by
        have hterm : ((u.after (refusing o) (some (k, .markFailed error code))
            (.finish rest text (.locally v))).tasks k).terminal = true := by
          rw [Task.terminal, hfailed]; rfl
        rw [(hev k).final hterm]
        exact ⟨hfailed, hend k (by simp [hended])⟩
      refine ⟨w', (((h1.trans h2).trans h3).trans h4).trans hreach, hpc', hrec,
        fun i => (hev₁ i).trans (hev i), fun i hi => hend i (by simp [hended, hi]),
        fun i hi hopen => ?_⟩
      by_cases hik : i = k
      · rw [hik]
        exact hkfinal
      · refine hall i ((List.mem_cons.mp hi).resolve_left hik) ?_
        simpa [World.after, u, applyCall, hik] using hopen

end Undecodable

/-- A decodable result behind an undecodable one is thrown away. -/
theorem unsettled_of_undecodable {loads : String → Except Exc Json} {tasks : ℕ → Task}
    {batch : List ℕ} (hopen : ∀ i ∈ batch, (tasks i).terminal = false)
    {pre post : List TaskResult} {r b : TaskResult} {i k : ℕ} (hi : i ∈ batch)
    (hid : r.taskId = (tasks i).taskId) (hnone : entry pre r.taskId = none) (hs : r.success = true)
    {value : Json} (hl : loads r.resultJson = .ok value) (hb : b ∈ pre) (hbs : b.success = true)
    (hk : k ∈ batch) (hbid : b.taskId = (tasks k).taskId)
    (hbl : ∀ value, loads b.resultJson ≠ .ok value) :
    ∃ w w', Start tasks batch w ∧ Reaches loads (.response (pre ++ r :: post)) w w' ∧
      w'.pc = .returned ∧ ¬ Settles loads tasks batch (.response (pre ++ r :: post)) w' := by
  obtain ⟨w, u, hstart, hreach, hcalm, hpc⟩ :=
    reaches_call loads (.response (pre ++ r :: post)) [i, k] hopen (by simp [hi, hk]) (by simp)
  have hsent : ∀ x ∈ batch.filter (fun x => decide (x ∈ [i, k])), x = i ∨ x = k := by simp
  have hisent : i ∈ batch.filter fun x => decide (x ∈ [i, k]) := by simp [hi]
  have hksent : k ∈ batch.filter fun x => decide (x ∈ [i, k]) := by simp [hk]
  generalize batch.filter (fun x => decide (x ∈ [i, k])) = sent at hpc hsent hisent hksent
  have hresp : Reaches loads (.response (pre ++ r :: post)) u
      { u with pc := .reconcile (pre ++ r :: post) sent, received := true, ended := [] } :=
    reaches_response rfl hpc
  have hfirst : ∀ x ∈ pre, x.taskId ≠ (u.tasks i).taskId := by
    intro x hx heq
    have := List.find?_eq_none.mp hnone x hx
    rw [(hcalm.evolves i).taskId, ← hid] at heq
    simp [heq] at this
  obtain ⟨v, text, isValue, hfin, hvpc, hvstop, hvtask, hvrec⟩ :=
    reaches_finish (o := .response (pre ++ r :: post))
      (w := { u with pc := .reconcile (pre ++ r :: post) sent, received := true, ended := [] })
      hsent hksent hfirst hb hbs (by rw [(hcalm.evolves k).taskId]; exact hbid) hbl rfl
  obtain ⟨z, hall, hzpc, hzrec, -, -, hfailed⟩ :=
    reaches_failed_all (o := .response (pre ++ r :: post)) (hvstop.trans hcalm.stop) hvpc
  refine ⟨w, z, hstart, ((hreach.trans hresp).trans hfin).trans hall, hzpc, fun hset => ?_⟩
  have hlive : (v.tasks i).terminal = false := by
    rw [hvtask]
    exact (hcalm.live i (by simp)).1
  obtain ⟨hstatus, hended⟩ := hfailed i hisent hlive
  have hgood : Good loads (pre ++ r :: post) (tasks i).taskId value := by
    refine ⟨r, ?_, hs, hl⟩
    rw [← hid, entry_append_none hnone, entry, List.find?_cons_of_pos (by simp)]
  rcases hset.2 _ rfl (hzrec.trans hvrec) i hi value hgood with ⟨hdone, -⟩ | ⟨-, hnot⟩
  · simp [hstatus] at hdone
  · exact hnot hended

/-- **Reconciliation.**  Let `_process` be called with a batch of distinct open tasks and let the
stub answer `o`.  The call never ends by an exception: until it returns it has a next statement,
and it returns after a bounded number of them.  Whatever others do meanwhile, every task has then
ended or been accepted by another proxy, and every task whose first entry is successful and
decodable is DONE with its value unless others ended it: exactly when the outcome is
reconcilable. -/
theorem settles_iff (loads : String → Except Exc Json) (tasks : ℕ → Task) (batch : List ℕ)
    (hids : (batch.map fun i => (tasks i).taskId).Nodup)
    (hopen : ∀ i ∈ batch, (tasks i).terminal = false) (o : Outcome) :
    (∀ w es w', Start tasks batch w → Answers o es → exec (World.step loads) w es = some w' →
      (w'.pc ≠ .returned → ∀ io, ∃ v, w'.step loads (.advance io) = some v) ∧
      es.countP Event.isAdvance ≤ (Pc.filter batch []).measure o.size ∧
      (w'.pc = .returned → Settles loads tasks batch o w')) ↔
    Reconcilable loads tasks batch o := by
  constructor
  · intro h
    by_contra hR
    obtain ⟨w, w', hstart, ⟨es, hans, hrun⟩, hpc, hnot⟩ : ∃ w w', Start tasks batch w ∧
        Reaches loads o w w' ∧ w'.pc = .returned ∧ ¬ Settles loads tasks batch o w' := by
      cases o with
      | response results =>
        rw [Reconcilable, not_and_or] at hR
        rcases hR with homit | hbad
        · push Not at homit
          obtain ⟨i, hi, hd, hnone⟩ := homit
          exact unsettled_of_omitted hopen hi hd hnone
        · push Not at hbad
          obtain ⟨pre, r, post, rfl, i, hi, hid, hnone, hs, ⟨value, hl⟩, b, hb, hbs, ⟨k, hk, hbid⟩,
            hbl⟩ := hbad
          exact unsettled_of_undecodable hopen hi hid hnone hs hl hb hbs hk hbid hbl
      | rpcError code text => exact absurd trivial hR
      | raised e => exact absurd trivial hR
    exact hnot ((h w es w' hstart hans hrun).2.2 hpc)
  · intro hR w es w' hstart hans hrun
    refine ⟨fun hpc io => ?_, ?_, fun hpc => (run_inv hR hids hstart hans hrun).settles hpc⟩
    · obtain ⟨c, pc, hn⟩ := next_isSome loads w'.view io hpc
      exact ⟨w'.after io c pc, by simp [World.step, hn]⟩
    · have := advances_le hans hrun
      rw [hstart.pc] at this
      omega

/-! ## Runs -/

/-- `json.loads` of the texts below. -/
def sampleLoads (text : String) : Except Exc Json :=
  if text = "9" then .ok (.int 9)
  else .error ⟨true, "Expecting value: line 1 column 1 (char 0)"⟩

/-- Tasks `t0`, `t1`, … of no particular kind. -/
def sampleTasks (i : ℕ) : Task where
  inputData := .obj [("x", .int 3)]
  taskId := if i = 0 then "t0" else "t1"
  creationTime := 0

def sampleWorld (batch : List ℕ) : World where
  tasks := sampleTasks
  stop := false
  retryOnStop := false
  mono := 0
  wall := 0
  pc := .filter batch []
  accepted := []
  received := false
  ended := []

/-- A response without entries, and one whose first entry cannot be decoded. -/
def emptyResponse : Outcome := .response []

def brokenFirst : Outcome :=
  .response [{ taskId := "t1", success := true, resultJson := "\x7b" },
    { taskId := "t0", success := true, resultJson := "9" }]

/-- An empty response leaves the task in PROCESSING with nobody to answer for it; an undecodable
entry of `t1` makes a failure of the result of `t0`. -/
theorem response_strands :
    (∃ w, exec (World.step sampleLoads) (sampleWorld [0])
        (List.replicate 14 (.advance (refusing emptyResponse))) = some w ∧ w.pc = .returned ∧
      (w.tasks 0).status = .processing ∧ w.accepted = [] ∧
      ¬ Settles sampleLoads sampleTasks [0] emptyResponse w) ∧
    ∃ w, exec (World.step sampleLoads) (sampleWorld [0, 1])
        (List.replicate 25 (.advance (refusing brokenFirst))) = some w ∧ w.pc = .returned ∧
      (w.tasks 0).status = .failed ∧ ¬ Settles sampleLoads sampleTasks [0, 1] brokenFirst w := by
  constructor
  · have hview : (exec (World.step sampleLoads) (sampleWorld [0])
        (List.replicate 14 (.advance (refusing emptyResponse)))).map (fun w =>
          (w.pc, (w.tasks 0).status, w.accepted)) = some (.returned, .processing, []) := by
      decide +kernel
    obtain ⟨w, hw, hv⟩ := Option.map_eq_some_iff.mp hview
    simp only [Prod.mk.injEq] at hv
    refine ⟨w, hw, hv.1, hv.2.1, hv.2.2, fun hset => ?_⟩
    rcases hset.1 0 (by simp) with ht | ha
    · simp [Task.terminal, hv.2.1, TaskStatus.terminal] at ht
    · simp [hv.2.2] at ha
  · have hview : (exec (World.step sampleLoads) (sampleWorld [0, 1])
        (List.replicate 25 (.advance (refusing brokenFirst)))).map (fun w =>
          (w.pc, (w.tasks 0).status, w.received, w.ended)) =
        some (.returned, .failed, true, [1, 0]) := by
      decide +kernel
    obtain ⟨w, hw, hv⟩ := Option.map_eq_some_iff.mp hview
    simp only [Prod.mk.injEq] at hv
    refine ⟨w, hw, hv.1, hv.2.1, fun hset => ?_⟩
    have hgood : Good sampleLoads [{ taskId := "t1", success := true, resultJson := "\x7b" },
        { taskId := "t0", success := true, resultJson := "9" }] (sampleTasks 0).taskId (.int 9) :=
      ⟨_, rfl, rfl, rfl⟩
    rcases hset.2 _ rfl hv.2.2.1 0 (by simp) (.int 9) hgood with ⟨hd, -⟩ | ⟨-, hn⟩
    · simp [hv.2.1] at hd
    · simp [hv.2.2.2] at hn

/-- The task is answered: the response is reconcilable, so every run settles. -/
theorem settles_iff_answered : ∃ w, exec (World.step sampleLoads) (sampleWorld [0])
      (List.replicate 15 (.advance (refusing (.response
        [{ taskId := "t0", success := true, resultJson := "9" }])))) = some w ∧
    w.pc = .returned ∧ Settles sampleLoads sampleTasks [0]
      (.response [{ taskId := "t0", success := true, resultJson := "9" }]) w := by
  have hview : (exec (World.step sampleLoads) (sampleWorld [0])
      (List.replicate 15 (.advance (refusing (.response
        [{ taskId := "t0", success := true, resultJson := "9" }]))))).map World.pc =
      some .returned := by
    decide +kernel
  obtain ⟨w, hw, hpc⟩ := Option.map_eq_some_iff.mp hview
  have hR : Reconcilable sampleLoads sampleTasks [0]
      (.response [{ taskId := "t0", success := true, resultJson := "9" }]) := by
    refine ⟨by simp [entry, sampleTasks], fun pre r post hres i hi _ _ _ _ b hb => ?_⟩
    cases pre with
    | nil => simp at hb
    | cons p pre => simp at hres
  have hall := (settles_iff sampleLoads sampleTasks [0] (by simp)
    (by simp [sampleTasks, Task.terminal, TaskStatus.terminal]) _).mpr hR
  refine ⟨w, hw, hpc, (hall _ _ w ⟨rfl, rfl, rfl, rfl, rfl⟩ (fun io hio => ?_) hw).2.2 hpc⟩
  simp only [List.mem_replicate, Event.advance.injEq] at hio
  rw [hio.2]
  rfl

end Inference.Pool
