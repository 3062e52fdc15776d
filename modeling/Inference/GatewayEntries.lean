import Inference.JobGateway

/-!
# Inference.GatewayEntries — the entries of `_active` through a poll that raises

Every call of the store may raise before or after the database applied it; the exception ends the
poll.  What does such a poll do to the entries of the jobs the gateway tracks?

* `Wf`: `_active` has one entry per job, made for that job; holds in every run.
* `TrackedIdle`: no row of a tracked job is due when `poll` claims.
* `kept_run`: through a poll all of whose steps meet `TrackedIdle` an entry stays as it is, unless
  the job's own `complete`, `defer` or `renew` returned.
* `Inv.trackedIdle_of_one`: with one slot every step meets it.
-/

namespace Inference.JobGateway

open Inference.Lib Inference.JobStore

/-! ## The entries of `_active` -/

/-- Task `i` was made for attempt `a` of job `j`. -/
def MadeFor (s : Sys) (i : ℕ) (j a : Uuid) : Prop :=
  ∃ x : Made, s.made[i]? = some x ∧ x.jobId = j ∧ x.attemptId = a

structure Wf (s : Sys) : Prop where
  keys : Dict.Keys s.active
  pendingKeys : Dict.Keys s.pc.pending
  pending : ∀ it ∈ s.pc.pending, Dict.get? it.1 s.active = some it.2
  entries : ∀ j e, Dict.get? j s.active = some e → MadeFor s e.task j e.attemptId
  record : ∀ job a i k, s.pc = .enqueueRecord job a i k → MadeFor s i job a

/-- No task disappears or changes hands. -/
def Retains (old new : List Made) : Prop :=
  ∀ (i : ℕ) (x : Made), old[i]? = some x →
    ∃ y : Made, new[i]? = some y ∧ y.jobId = x.jobId ∧ y.attemptId = x.attemptId

theorem Retains.refl (l : List Made) : Retains l l := fun _ x hx => ⟨x, hx, rfl, rfl⟩

theorem retains_append (l l' : List Made) : Retains l (l ++ l') := by
  intro i x hx
  have hlt := (List.getElem?_eq_some_iff.mp hx).1
  exact ⟨x, by rw [List.getElem?_append_left hlt]; exact hx, rfl, rfl⟩

theorem retains_call (s : Sys) (i : ℕ) (m : Task.Method) : Retains s.made (s.call i m).made := by
  intro k x hx
  simp only [Sys.call, List.getElem?_modify, hx]
  split <;> exact ⟨_, rfl, rfl, rfl⟩

theorem MadeFor.retained {s t : Sys} (hr : Retains s.made t.made) {i : ℕ} {j a : Uuid}
    (h : MadeFor s i j a) : MadeFor t i j a := by
  obtain ⟨x, hx, hj, ha⟩ := h
  obtain ⟨y, hy, hyj, hya⟩ := hr i x hx
  exact ⟨y, hy, hyj.trans hj, hya.trans ha⟩

section Wf

variable {cfg : Settings} {s t : Sys}

theorem wf_init (h : Init s) : Wf s := by
  obtain ⟨-, ha, hpc⟩ := h
  refine ⟨by simp [ha, Dict.Keys], by simp [hpc, Pc.pending, Dict.Keys], ?_, ?_, ?_⟩
  · simp [hpc, Pc.pending]
  · simp [ha, Dict.get?]
  · simp [hpc]

/-- `_active` is as it was, and the walk has at most the items it had. -/
theorem Wf.move (h : Wf s) (hr : Retains s.made t.made) (ha : t.active = s.active)
    (hsub : t.pc.pending.Sublist s.pc.pending)
    (hrec : ∀ job a i k, t.pc = .enqueueRecord job a i k → MadeFor t i job a) : Wf t where
  keys := ha ▸ h.keys
  pendingKeys := h.pendingKeys.sublist (hsub.map _)
  pending := fun it hit => by rw [ha]; exact h.pending it (hsub.subset hit)
  entries := fun j e he => (h.entries j e (ha ▸ he)).retained hr
  record := hrec

theorem Wf.goto (h : Wf s) (rows : List Row) {pc : Pc} (hsub : pc.pending.Sublist s.pc.pending)
    (hrec : pc.recording = none) : Wf { s with rows := rows, pc := pc } := by
  refine h.move (.refl _) rfl hsub ?_
  rintro job a i k rfl
  simp [Pc.recording] at hrec

/-- A call of the store raises and frees the lock, or goes on. -/
theorem Wf.query (h : Wf s) {io : Io} {op : Op} {k : Resp → Pc}
    (hk : Wf { s with rows := (exec s.rows s.now op).1, pc := k (exec s.rows s.now op).2 }) :
    Wf (s.query io op k) := by
  unfold Sys.query
  split
  · exact h.goto s.rows (List.nil_sublist _) rfl
  · exact h.goto _ (List.nil_sublist _) rfl
  · exact hk

theorem Wf.next (h : Wf s) (rows : List Row) (k : Cont) :
    Wf { s with rows := rows, pc := k.next } :=
  h.goto rows (by rw [k.pending_next]; exact List.nil_sublist _) k.recording_next

/-- Writing or deleting the entry of the item in hand leaves the items after it as they are. -/
theorem Wf.visited (h : Wf s) {it : Item} {rest : List Item} (hpend : s.pc.pending = it :: rest)
    {active : List Item} (hkeys : Dict.Keys active)
    (hother : ∀ j, j ≠ it.1 → Dict.get? j active = Dict.get? j s.active)
    (hself : ∀ e, Dict.get? it.1 active = some e → MadeFor s e.task it.1 e.attemptId) :
    Wf { s with active := active, pc := .visit rest } := by
  have hk := h.pendingKeys
  rw [hpend] at hk
  have hnd : it.1 ∉ rest.map Prod.fst ∧ (rest.map Prod.fst).Nodup := by
    simpa [Dict.Keys] using hk
  refine ⟨hkeys, hnd.2, fun jt hjt => ?_, fun j e he => ?_, by simp⟩
  · have hne : jt.1 ≠ it.1 := fun hc => hnd.1 (hc ▸ List.mem_map_of_mem hjt)
    rw [hother jt.1 hne]
    exact h.pending jt (hpend ▸ List.mem_cons_of_mem _ hjt)
  · by_cases hj : j = it.1
    · subst hj
      exact hself e he
    · exact h.entries j e (hother j hj ▸ he)

theorem Wf.claim (h : Wf s) {job : Option Uuid} {io : Io} {k : Cont} {other : Pc}
    (hother : other.pending = [] ∧ other.recording = none) :
    Wf (s.query io (.claim job cfg.leaseSeconds io.attempt io.locked)
      fun | .row (some r) => .enqueue r io.attempt k | _ => other) := by
  refine h.query ?_
  split
  · exact h.goto _ (List.nil_sublist _) rfl
  · exact h.goto _ (by rw [hother.1]; exact List.nil_sublist _) hother.2

theorem wf_advance {io : Io} (h : Wf s) (hs : advance cfg s io = some t) : Wf t := by
  have hpend := h.pending
  cases hpc : s.pc with
  | free => simp [advance, hpc] at hs
  | submitGet job =>
    simp only [advance, hpc, Option.some.injEq] at hs
    subst hs
    split
    · exact h.goto s.rows (List.nil_sublist _) rfl
    · split <;> exact h.goto s.rows (List.nil_sublist _) rfl
  | submitGate job =>
    simp only [advance, hpc, Option.some.injEq] at hs
    subst hs
    split <;> exact h.goto s.rows (List.nil_sublist _) rfl
  | submitClaim job =>
    simp only [advance, hpc, Option.some.injEq] at hs
    subst hs
    exact h.claim ⟨rfl, rfl⟩
  | submitReturn job =>
    simp only [advance, hpc, Option.some.injEq] at hs
    subst hs
    exact h.goto s.rows (List.nil_sublist _) rfl
  | enqueue row a k =>
    simp only [advance, hpc, Option.some.injEq] at hs
    subst hs
    split
    · exact h.goto s.rows (List.nil_sublist _) rfl
    · split <;> exact h.goto s.rows (List.nil_sublist _) rfl
  | enqueueReject row a k =>
    simp only [advance, hpc, Option.some.injEq] at hs
    subst hs
    exact h.query (h.next _ k)
  | enqueuePut row a k =>
    simp only [advance, hpc, Option.some.injEq] at hs
    subst hs
    split
    · exact h.goto s.rows (List.nil_sublist _) rfl
    · refine h.move (retains_append _ _) rfl (List.nil_sublist _) ?_
      intro job b i k' heq
      simp only [Pc.enqueueRecord.injEq] at heq
      obtain ⟨rfl, rfl, rfl, rfl⟩ := heq
      exact ⟨⟨newTask s row a io.taskId, row.jobId, a⟩, by simp, rfl, rfl⟩
  | enqueueOverload row a k =>
    simp only [advance, hpc, Option.some.injEq] at hs
    subst hs
    exact h.query (h.next _ k)
  | enqueueRecord job a i k =>
    simp only [advance, hpc, Option.some.injEq] at hs
    subst hs
    refine ⟨h.keys.set _ _, by rw [k.pending_next]; exact List.nodup_nil,
      by rw [k.pending_next]; exact List.forall_mem_nil _, fun j e he => ?_, ?_⟩
    · by_cases hj : j = job
      · subst hj
        simp only [Dict.get?_set_self, Option.some.injEq] at he
        subst he
        exact h.record _ _ _ _ hpc
      · simp only [Dict.get?_set_of_ne hj] at he
        exact h.entries j e he
    · intro job' a' i' k' heq
      have := k.recording_next
      simp only at heq
      simp [heq, Pc.recording] at this
  | pollExpire =>
    simp only [advance, hpc, Option.some.injEq] at hs
    subst hs
    exact h.query ⟨h.keys, h.keys, fun it hit => Dict.get?_of_mem h.keys hit, h.entries, by simp⟩
  | visit rest =>
    cases rest with
    | nil =>
      simp only [advance, hpc, Option.some.injEq] at hs
      subst hs
      exact h.goto s.rows (List.nil_sublist _) rfl
    | cons it rest =>
      simp only [advance, hpc, Option.some.injEq] at hs
      subst hs
      exact h.goto s.rows (by rw [hpc]; exact .refl _) rfl
  | visitExpired it rest =>
    simp only [advance, hpc] at hs
    obtain ⟨x, -, rfl⟩ := Option.map_eq_some_iff.mp hs
    split
    · exact h.move (retains_call s _ _) rfl (by rw [hpc]; exact .refl _) (by simp)
    · exact h.goto s.rows (by rw [hpc]; exact .refl _) rfl
  | visitDone it rest =>
    simp only [advance, hpc] at hs
    obtain ⟨x, -, rfl⟩ := Option.map_eq_some_iff.mp hs
    split <;> exact h.goto s.rows (by rw [hpc]; exact .refl _) rfl
  | visitComplete it rest =>
    simp only [advance, hpc] at hs
    obtain ⟨x, -, rfl⟩ := Option.map_eq_some_iff.mp hs
    exact h.query (h.goto _ (by rw [hpc]; exact .refl _) rfl)
  | visitFailed it rest =>
    simp only [advance, hpc] at hs
    obtain ⟨x, -, rfl⟩ := Option.map_eq_some_iff.mp hs
    split <;> exact h.goto s.rows (by rw [hpc]; exact .refl _) rfl
  | visitReport it rest =>
    simp only [advance, hpc] at hs
    obtain ⟨x, -, rfl⟩ := Option.map_eq_some_iff.mp hs
    exact h.query (h.goto _ (by rw [hpc]; exact .refl _) rfl)
  | visitDel it rest =>
    simp only [advance, hpc, Option.some.injEq] at hs
    subst hs
    refine h.visited (by rw [hpc]; rfl) (h.keys.del _) (fun j hj => Dict.get?_del_of_ne hj _) ?_
    simp [Dict.get?_del_self h.keys]
  | visitAge it rest =>
    simp only [advance, hpc, Option.some.injEq] at hs
    subst hs
    split
    · exact h.goto s.rows (by rw [hpc]; exact .refl _) rfl
    · exact h.goto s.rows (by rw [hpc]; exact List.sublist_cons_self _ _) rfl
  | visitRenew it rest =>
    simp only [advance, hpc, Option.some.injEq] at hs
    subst hs
    refine h.query ?_
    split <;> exact h.goto _ (by rw [hpc]; exact .refl _) rfl
  | visitRenewed it rest =>
    simp only [advance, hpc, Option.some.injEq] at hs
    subst hs
    rw [hpc] at hpend
    refine h.visited (by rw [hpc]; rfl) (h.keys.set _ _) (fun j hj => Dict.get?_set_of_ne hj _ _) ?_
    intro e he
    simp only [Dict.get?_set_self, Option.some.injEq] at he
    subst he
    exact h.entries it.1 it.2 (hpend it List.mem_cons_self)
  | visitLost it rest =>
    simp only [advance, hpc, Option.some.injEq] at hs
    subst hs
    exact h.move (retains_call s _ _) rfl (by rw [hpc]; exact .refl _) (by simp)
  | fill =>
    simp only [advance, hpc, Option.some.injEq] at hs
    subst hs
    exact h.next s.rows _
  | pollClaim left =>
    simp only [advance, hpc, Option.some.injEq] at hs
    subst hs
    exact h.claim ⟨rfl, rfl⟩

/-- **Step lemma.** -/
theorem wf_step {e : Event} (h : Wf s) (hs : step cfg s e = some t) : Wf t := by
  cases e with
  | tick _ _ _ | foreign _ | insert _ | stop =>
    obtain rfl := Option.some.inj hs
    exact h.move (.refl _) rfl (.refl _) h.record
  | task i m =>
    obtain rfl := Option.some.inj hs
    have hr := retains_call s i m
    exact h.move hr rfl (.refl _) fun job a k c hpc => (h.record job a k c hpc).retained hr
  | submit _ | poll =>
    simp only [step] at hs
    split at hs
    · obtain rfl := Option.some.inj hs
      exact h.goto s.rows (List.nil_sublist _) rfl
    · simp at hs
  | advance io => exact wf_advance h hs

theorem wf_run {s₀ : Sys} {es : List Event} (h₀ : Init s₀)
    (h : Lib.exec (step cfg) s₀ es = some s) : Wf s :=
  exec_inv (fun _ _ _ hw hs => wf_step hw hs) (wf_init h₀) h

end Wf

/-! ## The poll that raises -/

/-- No row of a job in `_active` is due, and free to lock, when `poll` claims. -/
def TrackedIdle (s : Sys) : Event → Prop
  | .advance io => ∀ left, s.pc = .pollClaim left → ∀ r ∈ s.rows,
      Dict.get? r.jobId s.active ≠ none → (due s.now none r && !io.locked.contains r.jobId) = false
  | _ => True

/-- The job whose own `complete`, `defer` or `renew` returns normally in this step of `poll`. -/
def returned (s : Sys) : Event → List Uuid
  | .advance io =>
    match s.pc, io.fault with
    | .visitComplete it _, none | .visitReport it _, none | .visitRenew it _, none => [it.1]
    | _, _ => []
  | _ => []

/-- Everything but taking the lock. -/
def Event.inside : Event → Bool
  | .submit _ | .poll => false
  | _ => true

def Cont.ofPoll : Cont → Prop
  | .submit _ => False
  | .poll _ => True

/-- A point of `poll` that is not about to write the entry of job `j`. -/
def Pc.spares (j : Uuid) : Pc → Prop
  | .visitDel it _ | .visitRenewed it _ | .visitLost it _ => it.1 ≠ j
  | .enqueue row _ k | .enqueueReject row _ k | .enqueuePut row _ k | .enqueueOverload row _ k =>
    row.jobId ≠ j ∧ k.ofPoll
  | .enqueueRecord job _ _ k => job ≠ j ∧ k.ofPoll
  | .submitGet _ | .submitGate _ | .submitClaim _ | .submitReturn _ => False
  | _ => True

theorem Cont.ofPoll.spares_next {k : Cont} (h : k.ofPoll) (j : Uuid) : k.next.spares j := by
  cases k with
  | submit _ => exact h.elim
  | poll left => cases left <;> trivial

/-- The entry is still there, and not about to be written. -/
def Kept (j : Uuid) (e : Active) (s : Sys) : Prop :=
  Dict.get? j s.active = some e ∧ s.pc.spares j

section Kept

variable {cfg : Settings} {s t : Sys} {j : Uuid} {e : Active}

/-- A call of the store by `poll`: an exception leaves the entry alone. -/
theorem kept_query (h : Kept j e s) {io : Io} {op : Op} {k : Resp → Pc}
    (hk : io.fault = none → (k (exec s.rows s.now op).2).spares j) :
    Kept j e (s.query io op k) := by
  unfold Sys.query
  split
  · exact ⟨h.1, trivial⟩
  · exact ⟨h.1, trivial⟩
  · rename_i hf
    exact ⟨h.1, hk hf⟩

/-- The job's own call: when it returns the job is on record. -/
theorem kept_call (h : Kept j e s) {io : Io} {op : Op} {k : Resp → Pc} (it : Item)
    (hlog : io.fault = none → it.1 ∈ returned s (.advance io))
    (hk : it.1 ≠ j → ∀ r, (k r).spares j) :
    j ∈ returned s (.advance io) ∨ Kept j e (s.query io op k) := by
  by_cases hj : it.1 = j
  · subst hj
    cases hf : io.fault with
    | none => exact .inl (hlog hf)
    | some f => exact .inr (kept_query h (by simp [hf]))
  · exact .inr (kept_query h fun _ => hk hj _)

theorem kept_advance {io : Io} (hC : TrackedIdle s (.advance io)) (h : Kept j e s)
    (hs : advance cfg s io = some t) : j ∈ returned s (.advance io) ∨ Kept j e t := by
  obtain ⟨hget, hsp⟩ := h
  cases hpc : s.pc with
  | free => simp [advance, hpc] at hs
  | submitGet _ | submitGate _ | submitClaim _ | submitReturn _ =>
    rw [hpc] at hsp
    exact hsp.elim
  | enqueue row a k =>
    simp only [advance, hpc, Option.some.injEq] at hs
    subst hs
    rw [hpc] at hsp
    refine .inr ⟨hget, ?_⟩
    simp only
    split
    · trivial
    · split <;> exact hsp
  | enqueueReject row a k =>
    simp only [advance, hpc, Option.some.injEq] at hs
    subst hs
    refine .inr (kept_query ⟨hget, hsp⟩ fun _ => ?_)
    rw [hpc] at hsp
    exact hsp.2.spares_next j
  | enqueuePut row a k =>
    simp only [advance, hpc, Option.some.injEq] at hs
    subst hs
    rw [hpc] at hsp
    split <;> exact .inr ⟨hget, hsp⟩
  | enqueueOverload row a k =>
    simp only [advance, hpc, Option.some.injEq] at hs
    subst hs
    refine .inr (kept_query ⟨hget, hsp⟩ fun _ => ?_)
    rw [hpc] at hsp
    exact hsp.2.spares_next j
  | enqueueRecord job a i k =>
    simp only [advance, hpc, Option.some.injEq] at hs
    subst hs
    rw [hpc] at hsp
    refine .inr ⟨?_, hsp.2.spares_next j⟩
    simp only [Dict.get?_set_of_ne (Ne.symm hsp.1)]
    exact hget
  | pollExpire =>
    simp only [advance, hpc, Option.some.injEq] at hs
    subst hs
    exact .inr (kept_query ⟨hget, hsp⟩ fun _ => trivial)
  | visit rest =>
    cases rest with
    | nil =>
      simp only [advance, hpc, Option.some.injEq] at hs
      subst hs
      exact .inr ⟨hget, trivial⟩
    | cons it rest =>
      simp only [advance, hpc, Option.some.injEq] at hs
      subst hs
      exact .inr ⟨hget, trivial⟩
  | visitExpired it rest =>
    simp only [advance, hpc] at hs
    obtain ⟨x, -, rfl⟩ := Option.map_eq_some_iff.mp hs
    split <;> exact .inr ⟨hget, trivial⟩
  | visitDone it rest =>
    simp only [advance, hpc] at hs
    obtain ⟨x, -, rfl⟩ := Option.map_eq_some_iff.mp hs
    split <;> exact .inr ⟨hget, trivial⟩
  | visitComplete it rest =>
    simp only [advance, hpc] at hs
    obtain ⟨x, -, rfl⟩ := Option.map_eq_some_iff.mp hs
    exact kept_call ⟨hget, hsp⟩ it (fun hf => by simp [returned, hpc, hf]) fun hne _ => hne
  | visitFailed it rest =>
    simp only [advance, hpc] at hs
    obtain ⟨x, -, rfl⟩ := Option.map_eq_some_iff.mp hs
    split <;> exact .inr ⟨hget, trivial⟩
  | visitReport it rest =>
    simp only [advance, hpc] at hs
    obtain ⟨x, -, rfl⟩ := Option.map_eq_some_iff.mp hs
    exact kept_call ⟨hget, hsp⟩ it (fun hf => by simp [returned, hpc, hf]) fun hne _ => hne
  | visitDel it rest =>
    simp only [advance, hpc, Option.some.injEq] at hs
    subst hs
    rw [hpc] at hsp
    refine .inr ⟨?_, trivial⟩
    simp only [Dict.get?_del_of_ne (Ne.symm hsp)]
    exact hget
  | visitAge it rest =>
    simp only [advance, hpc, Option.some.injEq] at hs
    subst hs
    split <;> exact .inr ⟨hget, trivial⟩
  | visitRenew it rest =>
    simp only [advance, hpc, Option.some.injEq] at hs
    subst hs
    refine kept_call ⟨hget, hsp⟩ it (fun hf => by simp [returned, hpc, hf]) fun hne r => ?_
    split <;> exact hne
  | visitRenewed it rest =>
    simp only [advance, hpc, Option.some.injEq] at hs
    subst hs
    rw [hpc] at hsp
    refine .inr ⟨?_, trivial⟩
    simp only [Dict.get?_set_of_ne (Ne.symm hsp)]
    exact hget
  | visitLost it rest =>
    simp only [advance, hpc, Option.some.injEq] at hs
    subst hs
    rw [hpc] at hsp
    exact .inr ⟨hget, hsp⟩
  | fill =>
    simp only [advance, hpc, Option.some.injEq] at hs
    subst hs
    exact .inr ⟨hget, Cont.ofPoll.spares_next (k := .poll _) trivial j⟩
  | pollClaim left =>
    simp only [advance, hpc, Option.some.injEq] at hs
    subst hs
    refine .inr (kept_query ⟨hget, hsp⟩ fun _ => ?_)
    simp only [JobStore.exec, resp]
    cases hc : candidate s.rows s.now none io.locked with
    | none => trivial
    | some c =>
      refine ⟨?_, trivial⟩
      intro (hj : c.jobId = j)
      -- the claimed row would be due although its job is tracked
      have hm := List.mem_filter.mp (first_mem hc)
      have hidle := hC left hpc c hm.1 (by simp [hj, hget])
      exact absurd (hidle.symm.trans hm.2) Bool.false_ne_true

theorem kept_step {ev : Event} (hC : TrackedIdle s ev) (hin : ev.inside = true)
    (h : Kept j e s) (hs : step cfg s ev = some t) : j ∈ returned s ev ∨ Kept j e t := by
  cases ev with
  | tick _ _ _ | foreign _ | insert _ | stop | task _ _ =>
    obtain rfl := Option.some.inj hs
    exact .inr h
  | submit _ | poll => simp [Event.inside] at hin
  | advance io => exact kept_advance hC h hs

/-- Along the rest of a poll: the entry is as it was, or the job's own call has returned. -/
theorem kept_run {es : List Event} (hC : Meets (step cfg) TrackedIdle s es)
    (hin : ∀ ev ∈ es, ev.inside = true) (h : Kept j e s)
    (hs : Lib.exec (step cfg) s es = some t) :
    j ∈ trace (step cfg) returned s es ∨ Kept j e t := by
  induction es generalizing s with
  | nil =>
    obtain rfl := Option.some.inj hs
    exact .inr h
  | cons ev es ih =>
    obtain ⟨m, hm, hrest⟩ := exec_cons.mp hs
    rw [trace, hm, Option.elim_some]
    rcases kept_step hC.1 (hin ev List.mem_cons_self) h hm with hr | hk
    · exact .inl (List.mem_append_left _ hr)
    · rcases ih (hC.2 m hm) (fun x hx => hin x (List.mem_cons_of_mem _ hx)) hk hrest with hr | hk
      · exact .inl (List.mem_append_right _ hr)
      · exact .inr hk

/-- With one slot `poll` claims only when nothing is tracked. -/
theorem Inv.trackedIdle_of_one (h : Inv cfg s) (hone : cfg.maxInflight = 1) (ev : Event) :
    TrackedIdle s ev := by
  cases ev with
  | advance io =>
    intro left hpc r _ htr
    have hroom := h.room
    rw [hpc] at hroom
    simp only [Pc.reserve] at hroom
    have hnil : s.active = [] := List.length_eq_zero_iff.mp (by omega)
    simp [hnil, Dict.get?] at htr
  | _ => trivial

end Kept

end Inference.JobGateway
