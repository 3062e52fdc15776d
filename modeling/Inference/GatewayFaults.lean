import Inference.GatewayEntries

/-!
# Inference.GatewayFaults — what a database fault does to the outcome of an attempt

A call of the store that raised may have been applied; the next poll issues it again.  Along runs
in which the attempt's lease and the job's deadline stay live and nobody else touches the row
(`Undisturbed`), re-issuing is harmless:

* `Steady`: no other attempt of the job is tracked.
* `Course`: the row is held by the attempt, or shows what its task reported.
* `Concludes`: the run ends with a poll without faults, after the last call on the task.
* `fault_keeps_outcome`: a poll that raises keeps the entries of all jobs whose own call did not
  return, and all runs that conclude after the same calls on the task end with the same status,
  result, error and attempt, whatever faults struck on the way.
* `staleRun`: without `TrackedIdle` the poll's own claim replaces an entry.
-/

namespace Inference.JobGateway

open Inference.Lib Inference.JobStore

/-! ## The outcome of an attempt -/

/-- What a task reports. -/
structure Report where
  status : TaskStatus
  result : Json
  error : Option String
  errorCode : Option String
deriving DecidableEq, Repr

def report (t : Task) : Report := ⟨t.status, t.result, t.error, t.errorCode⟩

/-- What a method of the task does to the report; the clocks play no part. -/
def Report.call (m : Task.Method) (r : Report) : Report :=
  if r.status.terminal then r else
  match m with
  | .markProcessing => { r with status := .processing }
  | .markDone result => { r with status := .done, result := result }
  | .markFailed error code => { r with status := .failed, error := some error, errorCode := code }
  | .tryReserveRetry => r

theorem report_call (t : Task) (m : Task.Method) (mono wall : ℤ) :
    report (t.call m mono wall) = (report t).call m := by
  cases ht : t.terminal with
  | true =>
    have hst : (report t).status.terminal = true := ht
    simp only [Task.call_of_terminal ht, Report.call, hst, if_true]
  | false =>
    have hst : (report t).status.terminal = false := ht
    simp only [Report.call, hst, Bool.false_eq_true, if_false]
    cases m with
    | markProcessing =>
      simp only [Task.call, Task.Method.body, ht, Bool.false_eq_true, if_false]
      split <;> rfl
    | markDone r => simp only [Task.call, Task.Method.body, ht, Bool.false_eq_true, if_false]; rfl
    | markFailed e c => simp only [Task.call, Task.Method.body, ht, Bool.false_eq_true, if_false]; rfl
    | tryReserveRetry =>
      simp only [Task.call, Task.Method.body, ht, Bool.false_eq_true, if_false]
      split <;> rfl

/-- The four columns an attempt decides. -/
abbrev Columns := Status × Option Json × Option Json × Option Uuid

def columnsOf (r : Row) : Columns := (r.status, r.result, r.error, r.attemptId)

/-- The rows of one job; the primary key leaves at most one. -/
def rowsOf (j : Uuid) (rows : List Row) : List Row := rows.filter fun r => r.jobId == j

/-- The error `poll` stores for a failed task. -/
def Report.errorJson (t : Report) : Json :=
  JobGateway.errorJson (orText t.errorCode "worker_error") (orText t.error "inference failed")

/-- The columns an ended task leaves in a row with result `result`. -/
def outcome (result : Option Json) (a : Uuid) (t : Report) : Columns :=
  if t.status = .done then (.succeeded, resultColumn t.result, none, some a)
  else if orText t.errorCode "worker_error" ∈ retryableErrors then
    (.queued, result, some t.errorJson, some a)
  else (.failed, none, some t.errorJson, some a)

/-- A call of `poll` other than `claim`. -/
def Pc.settling : Pc → Bool
  | .pollExpire | .visitComplete _ _ | .visitReport _ _ | .visitRenew _ _ => true
  | _ => false

/-- The deadline of job `j` and the lease in its row are live, its open task has not expired, and
no step but the calls of `poll` on the jobs it tracks touches the row. -/
structure Undisturbed (cfg : Settings) (j : Uuid) (e : Active) (s : Sys) (ev : Event) : Prop where
  live : ∀ r ∈ rowsOf j s.rows, s.now < r.deadlineAt ∧ r.leaseLapsed s.now = false
  unexpired : ∀ x : Made, s.made[e.task]? = some x → x.task.terminal = false →
    x.task.isExpired s.mono = false
  untouched : (∀ io, ev = .advance io → s.pc.settling = false) → ∀ t, step cfg s ev = some t →
    rowsOf j t.rows = rowsOf j s.rows

/-- The methods others call on task `i`. -/
def methodsOf (i : ℕ) (_ : Sys) : Event → List Task.Method
  | .task k m => if k = i then [m] else []
  | _ => []

/-! ## Rows of one job -/

section Rows

variable {rows : List Row} {now : ℤ} {op : Op} {j : Uuid}

theorem rowsOf_map {f : Row → Row} (hf : ∀ r, (f r).jobId = r.jobId) :
    rowsOf j (rows.map f) = (rowsOf j rows).map f := by
  simp only [rowsOf, List.filter_map, Function.comp_def, hf]

theorem rowsOf_exec : rowsOf j (exec rows now op).1 = (rowsOf j rows).map (onRow rows now op) :=
  rowsOf_map fun r => onRow_jobId rows now op r

theorem rowsOf_exec_of_fixed (h : ∀ r ∈ rowsOf j rows, onRow rows now op r = r) :
    rowsOf j (exec rows now op).1 = rowsOf j rows := by
  rw [rowsOf_exec]
  exact (List.map_congr_left h).trans (List.map_id _)

theorem jobId_of_mem_rowsOf {r : Row} (h : r ∈ rowsOf j rows) : r.jobId = j := by
  simpa [rowsOf] using (List.mem_filter.mp h).2

/-- A fenced statement is about one job and attempt. -/
inductive Fenced (job a : Uuid) : Op → Prop
  | renew (lease : ℤ) : Fenced job a (.renew job a lease)
  | complete (result error : Option Json) : Fenced job a (.complete job a result error)
  | defer (error : Json) (retry : ℤ) : Fenced job a (.defer job a error retry)

theorem Fenced.onRow_of_not {job a : Uuid} (h : Fenced job a op) {r : Row}
    (hf : fenced now job a r = false) : onRow rows now op r = r := by
  cases h <;> simp [onRow, hf]

/-- A fenced statement of another job does not touch the rows of `j`. -/
theorem Fenced.rowsOf_of_ne {job a : Uuid} (h : Fenced job a op) (hne : job ≠ j) :
    rowsOf j (exec rows now op).1 = rowsOf j rows := by
  refine rowsOf_exec_of_fixed fun r hr => h.onRow_of_not ?_
  have := jobId_of_mem_rowsOf hr
  simp [fenced, this, Ne.symm hne]

theorem fenced_reportOp (cfg : Settings) (job a : Uuid) (t : Task) :
    Fenced job a (reportOp cfg job a t) := by
  simp only [reportOp]
  split
  · exact .defer _ _
  · exact .complete _ _

/-- A claim that leaves the rows of `j` alone claimed another job. -/
theorem ne_of_claim_untouched {job : Option Uuid} {lease : ℤ} {a : Uuid} {locked : List Uuid}
    {c : Row} (hc : candidate rows now job locked = some c)
    (h : rowsOf j (exec rows now (.claim job lease a locked)).1 = rowsOf j rows) :
    c.jobId ≠ j := by
  intro hj
  have hmem : c ∈ rowsOf j rows :=
    List.mem_filter.mpr ⟨(candidate_mem hc).1, by simp [hj]⟩
  rw [rowsOf_exec] at h
  have hfix : onRow rows now (.claim job lease a locked) c = c :=
    List.map_inj_left.mp (h.trans (List.map_id _).symm) c hmem
  simp only [onRow, hc, if_true] at hfix
  have := congrArg Row.attempts hfix
  simp [Row.claimed] at this

end Rows

/-! ## Steps away from the job -/

/-- The item in hand. -/
def Pc.item : Pc → Option Item
  | .visitExpired it _ | .visitDone it _ | .visitComplete it _ | .visitFailed it _
  | .visitReport it _ | .visitDel it _ | .visitAge it _ | .visitRenew it _ | .visitRenewed it _
  | .visitLost it _ => some it
  | _ => none

/-- `_enqueue` is at work on job `j`. -/
def Pc.enqueues (j : Uuid) : Pc → Prop
  | .enqueue row _ _ | .enqueueReject row _ _ | .enqueuePut row _ _ | .enqueueOverload row _ _ =>
    row.jobId = j
  | .enqueueRecord job _ _ _ => job = j
  | _ => False

theorem Cont.not_enqueues_next (k : Cont) (j : Uuid) : ¬ k.next.enqueues j := by
  cases k with
  | submit _ => exact id
  | poll left => cases left <;> exact id

theorem Cont.item_next (k : Cont) : k.next.item = none := by
  cases k with
  | submit _ => rfl
  | poll left => cases left <;> rfl

/-- Only attempt `e` of job `j` is tracked or about to be. -/
structure Steady (j : Uuid) (e : Active) (s : Sys) : Prop where
  wf : Wf s
  made : MadeFor s e.task j e.attemptId
  entry : ∀ e', Dict.get? j s.active = some e' → e'.task = e.task ∧ e'.attemptId = e.attemptId
  clear : ¬ s.pc.enqueues j

/-- The step changes nothing of job `j`, and comes to it at most at the start of its visit. -/
structure Elsewhere (j : Uuid) (e : Active) (s t : Sys) : Prop where
  rows : rowsOf j t.rows = rowsOf j s.rows
  task : t.made[e.task]? = s.made[e.task]?
  active : Dict.get? j t.active = Dict.get? j s.active
  clear : ¬ t.pc.enqueues j
  item : ∀ it, t.pc.item = some it → it.1 = j → ∃ rest, t.pc = .visitExpired it rest

section Elsewhere

variable {cfg : Settings} {s t : Sys} {j : Uuid} {e : Active}

/-- A task is made for one job, so the items of other jobs have other tasks. -/
theorem Steady.task_ne (h : Steady j e s) {it : Item} (hit : it ∈ s.pc.pending) (hne : it.1 ≠ j) :
    it.2.task ≠ e.task := by
  intro heq
  obtain ⟨x, hx, hxj, -⟩ := h.made
  obtain ⟨y, hy, hyj, -⟩ := h.wf.entries it.1 it.2 (h.wf.pending it hit)
  rw [heq] at hy
  obtain rfl := Option.some.inj (hx.symm.trans hy)
  exact hne (hyj.symm.trans hxj)

theorem call_task_of_ne (s : Sys) {i k : ℕ} (hne : k ≠ i) (m : Task.Method) :
    (s.call k m).made[i]? = s.made[i]? := by
  simp [Sys.call, hne]

/-- A call of the store that leaves the rows of `j` alone. -/
theorem elsewhere_query {io : Io} {op : Op} {k : Resp → Pc}
    (hrows : rowsOf j (exec s.rows s.now op).1 = rowsOf j s.rows)
    (hclear : io.fault = none → ∀ r, r = (exec s.rows s.now op).2 → ¬ (k r).enqueues j)
    (hitem : ∀ r it, (k r).item = some it → it.1 ≠ j) : Elsewhere j e s (s.query io op k) := by
  unfold Sys.query
  split
  · exact ⟨rfl, rfl, rfl, id, by simp [Pc.item]⟩
  · exact ⟨hrows, rfl, rfl, id, by simp [Pc.item]⟩
  · rename_i hf
    exact ⟨hrows, rfl, rfl, hclear hf _ rfl, fun it hit hj => absurd hj (hitem _ it hit)⟩

/-- A claim that, by assumption, leaves the rows of `j` alone. -/
theorem elsewhere_claim {job : Option Uuid} {io : Io} {k : Cont} {other : Pc}
    (hother : ¬ other.enqueues j ∧ other.item = none)
    (hrows : rowsOf j (s.query io (.claim job cfg.leaseSeconds io.attempt io.locked)
      fun | .row (some r) => .enqueue r io.attempt k | _ => other).rows = rowsOf j s.rows) :
    Elsewhere j e s (s.query io (.claim job cfg.leaseSeconds io.attempt io.locked)
      fun | .row (some r) => .enqueue r io.attempt k | _ => other) := by
  unfold Sys.query at hrows ⊢
  split at hrows
  · exact ⟨rfl, rfl, rfl, id, by simp [Pc.item]⟩
  · exact ⟨hrows, rfl, rfl, id, by simp [Pc.item]⟩
  · refine ⟨hrows, rfl, rfl, ?_, ?_⟩
    · simp only [JobStore.exec, resp]
      cases hc : candidate s.rows s.now job io.locked with
      | none => exact hother.1
      | some c =>
        have hne : c.jobId ≠ j := ne_of_claim_untouched hc hrows
        exact hne
    · simp only [JobStore.exec, resp]
      cases hc : candidate s.rows s.now job io.locked with
      | none => simp [hother.2]
      | some c => simp [Pc.item]

theorem advance_elsewhere {io : Io} (h : Steady j e s) (hU : Undisturbed cfg j e s (.advance io))
    (hitem : ∀ it, s.pc.item = some it → it.1 ≠ j) (hs : advance cfg s io = some t) :
    Elsewhere j e s t := by
  have hrows : s.pc.settling = false → rowsOf j t.rows = rowsOf j s.rows :=
    fun hset => hU.untouched (fun _ _ => hset) t hs
  have hclear := h.clear
  cases hpc : s.pc with
  | free => simp [advance, hpc] at hs
  | submitGet job =>
    simp only [advance, hpc, Option.some.injEq] at hs
    subst hs
    refine ⟨rfl, rfl, rfl, ?_, ?_⟩ <;> simp only <;> split <;> (try split) <;>
      simp [Pc.enqueues, Pc.item]
  | submitGate job =>
    simp only [advance, hpc, Option.some.injEq] at hs
    subst hs
    refine ⟨rfl, rfl, rfl, ?_, ?_⟩ <;> simp only <;> split <;> simp [Pc.enqueues, Pc.item]
  | submitClaim job =>
    simp only [advance, hpc, Option.some.injEq] at hs
    subst hs
    exact elsewhere_claim ⟨id, rfl⟩ (hrows (by rw [hpc]; rfl))
  | submitReturn job =>
    simp only [advance, hpc, Option.some.injEq] at hs
    subst hs
    exact ⟨rfl, rfl, rfl, id, by simp [Pc.item]⟩
  | enqueue row a k =>
    simp only [advance, hpc, Option.some.injEq] at hs
    subst hs
    rw [hpc] at hclear
    refine ⟨rfl, rfl, rfl, ?_, ?_⟩ <;> simp only <;> split <;> (try split) <;>
      simp [Pc.enqueues, Pc.item] <;> exact hclear
  | enqueueReject row a k =>
    simp only [advance, hpc, Option.some.injEq] at hs
    subst hs
    rw [hpc] at hclear
    exact elsewhere_query (Fenced.rowsOf_of_ne (.complete _ _) hclear)
      (fun _ _ _ => k.not_enqueues_next j) (by simp [k.item_next])
  | enqueuePut row a k =>
    simp only [advance, hpc, Option.some.injEq] at hs
    subst hs
    rw [hpc] at hclear
    split
    · exact ⟨rfl, rfl, rfl, hclear, by simp [Pc.item]⟩
    · obtain ⟨x, hx, -⟩ := h.made
      have hlt := (List.getElem?_eq_some_iff.mp hx).1
      exact ⟨rfl, List.getElem?_append_left hlt, rfl, hclear, by simp [Pc.item]⟩
  | enqueueOverload row a k =>
    simp only [advance, hpc, Option.some.injEq] at hs
    subst hs
    rw [hpc] at hclear
    exact elsewhere_query (Fenced.rowsOf_of_ne (.defer _ _) hclear)
      (fun _ _ _ => k.not_enqueues_next j) (by simp [k.item_next])
  | enqueueRecord job a i k =>
    simp only [advance, hpc, Option.some.injEq] at hs
    subst hs
    rw [hpc] at hclear
    exact ⟨rfl, rfl, Dict.get?_set_of_ne (Ne.symm hclear) _ _, k.not_enqueues_next j,
      by simp [k.item_next]⟩
  | pollExpire =>
    simp only [advance, hpc, Option.some.injEq] at hs
    subst hs
    refine elsewhere_query (rowsOf_exec_of_fixed fun r hr => ?_) (fun _ _ _ => id)
      (by simp [Pc.item])
    have := (hU.live r hr).1
    simp only [onRow, overdue]
    simp [show ¬ r.deadlineAt ≤ s.now by omega]
  | visit rest =>
    cases rest with
    | nil =>
      simp only [advance, hpc, Option.some.injEq] at hs
      subst hs
      exact ⟨rfl, rfl, rfl, id, by simp [Pc.item]⟩
    | cons it rest =>
      simp only [advance, hpc, Option.some.injEq] at hs
      subst hs
      refine ⟨rfl, rfl, rfl, id, fun jt hjt _ => ⟨rest, ?_⟩⟩
      obtain rfl := Option.some.inj hjt
      rfl
  | visitExpired it rest =>
    simp only [advance, hpc] at hs
    obtain ⟨x, -, rfl⟩ := Option.map_eq_some_iff.mp hs
    have hne := hitem it (by rw [hpc]; rfl)
    have htask := h.task_ne (by rw [hpc]; exact List.mem_cons_self) hne
    split
    · refine ⟨rfl, call_task_of_ne s htask _, rfl, id, fun jt hjt hj => ?_⟩
      exact absurd hj (Option.some.inj hjt ▸ hne)
    · exact ⟨rfl, rfl, rfl, id, fun jt hjt hj => absurd hj (Option.some.inj hjt ▸ hne)⟩
  | visitDone it rest =>
    simp only [advance, hpc] at hs
    obtain ⟨x, -, rfl⟩ := Option.map_eq_some_iff.mp hs
    have hne := hitem it (by rw [hpc]; rfl)
    split <;> exact ⟨rfl, rfl, rfl, id, fun jt hjt hj => absurd hj (Option.some.inj hjt ▸ hne)⟩
  | visitComplete it rest =>
    simp only [advance, hpc] at hs
    obtain ⟨x, -, rfl⟩ := Option.map_eq_some_iff.mp hs
    have hne := hitem it (by rw [hpc]; rfl)
    exact elsewhere_query (Fenced.rowsOf_of_ne (.complete _ _) hne) (fun _ _ _ => id)
      fun _ jt hjt => Option.some.inj hjt ▸ hne
  | visitFailed it rest =>
    simp only [advance, hpc] at hs
    obtain ⟨x, -, rfl⟩ := Option.map_eq_some_iff.mp hs
    have hne := hitem it (by rw [hpc]; rfl)
    split <;> exact ⟨rfl, rfl, rfl, id, fun jt hjt hj => absurd hj (Option.some.inj hjt ▸ hne)⟩
  | visitReport it rest =>
    simp only [advance, hpc] at hs
    obtain ⟨x, -, rfl⟩ := Option.map_eq_some_iff.mp hs
    have hne := hitem it (by rw [hpc]; rfl)
    exact elsewhere_query ((fenced_reportOp cfg _ _ _).rowsOf_of_ne hne) (fun _ _ _ => id)
      fun _ jt hjt => Option.some.inj hjt ▸ hne
  | visitDel it rest =>
    simp only [advance, hpc, Option.some.injEq] at hs
    subst hs
    have hne := hitem it (by rw [hpc]; rfl)
    exact ⟨rfl, rfl, Dict.get?_del_of_ne (Ne.symm hne) _, id, by simp [Pc.item]⟩
  | visitAge it rest =>
    simp only [advance, hpc, Option.some.injEq] at hs
    subst hs
    have hne := hitem it (by rw [hpc]; rfl)
    split
    · exact ⟨rfl, rfl, rfl, id, fun jt hjt hj => absurd hj (Option.some.inj hjt ▸ hne)⟩
    · exact ⟨rfl, rfl, rfl, id, by simp [Pc.item]⟩
  | visitRenew it rest =>
    simp only [advance, hpc, Option.some.injEq] at hs
    subst hs
    have hne := hitem it (by rw [hpc]; rfl)
    refine elsewhere_query (Fenced.rowsOf_of_ne (.renew _) hne) (fun _ r _ => ?_) fun r jt hjt => ?_
    · split <;> exact id
    · split at hjt <;> exact Option.some.inj hjt ▸ hne
  | visitRenewed it rest =>
    simp only [advance, hpc, Option.some.injEq] at hs
    subst hs
    have hne := hitem it (by rw [hpc]; rfl)
    exact ⟨rfl, rfl, Dict.get?_set_of_ne (Ne.symm hne) _ _, id, by simp [Pc.item]⟩
  | visitLost it rest =>
    simp only [advance, hpc, Option.some.injEq] at hs
    subst hs
    have hne := hitem it (by rw [hpc]; rfl)
    have htask := h.task_ne (by rw [hpc]; exact List.mem_cons_self) hne
    refine ⟨rfl, call_task_of_ne s htask _, rfl, id, fun jt hjt hj => ?_⟩
    exact absurd hj (Option.some.inj hjt ▸ hne)
  | fill =>
    simp only [advance, hpc, Option.some.injEq] at hs
    subst hs
    exact ⟨rfl, rfl, rfl, Cont.not_enqueues_next _ j, by simp [Cont.item_next]⟩
  | pollClaim left =>
    simp only [advance, hpc, Option.some.injEq] at hs
    subst hs
    exact elsewhere_claim ⟨id, rfl⟩ (hrows (by rw [hpc]; rfl))

theorem Steady.elsewhere (h : Steady j e s) (hE : Elsewhere j e s t) (hw : Wf t) :
    Steady j e t := by
  obtain ⟨y, hy, hyj, hya⟩ := h.made
  exact ⟨hw, ⟨y, hE.task.trans hy, hyj, hya⟩, fun e' he' => h.entry e' (hE.active ▸ he'), hE.clear⟩

/-- The item in hand is the entry of the attempt. -/
theorem Steady.item_entry (h : Steady j e s) {it : Item} (hit : it ∈ s.pc.pending) (hj : it.1 = j) :
    it.2.task = e.task ∧ it.2.attemptId = e.attemptId :=
  h.entry it.2 (hj ▸ h.wf.pending it hit)

theorem steady_query (h : Steady j e s) {io : Io} {op : Op} {k : Resp → Pc}
    (hw : Wf (s.query io op k)) (hk : ∀ r, ¬ (k r).enqueues j) : Steady j e (s.query io op k) := by
  refine ⟨hw, ?_, ?_, ?_⟩ <;> unfold Sys.query <;> split
  · exact h.made
  · exact h.made
  · exact h.made
  · exact h.entry
  · exact h.entry
  · exact h.entry
  · exact id
  · exact id
  · exact hk _

/-- The visit of job `j` records no other attempt of it. -/
theorem steady_visit {io : Io} {it : Item} (h : Steady j e s) (hitem : s.pc.item = some it)
    (hj : it.1 = j) (hs : advance cfg s io = some t) : Steady j e t := by
  have hw := wf_advance h.wf hs
  have hentry : it ∈ s.pc.pending → it.2.task = e.task ∧ it.2.attemptId = e.attemptId :=
    fun hit => h.item_entry hit hj
  cases hpc : s.pc with
  | visitExpired it' rest =>
    simp only [advance, hpc] at hs
    obtain ⟨x, -, rfl⟩ := Option.map_eq_some_iff.mp hs
    split at hw
    · rename_i hexp
      rw [if_pos hexp]
      exact ⟨hw, h.made.retained (retains_call s _ _), h.entry, id⟩
    · rename_i hexp
      rw [if_neg hexp]
      exact ⟨hw, h.made, h.entry, id⟩
  | visitDone it' rest =>
    simp only [advance, hpc] at hs
    obtain ⟨x, -, rfl⟩ := Option.map_eq_some_iff.mp hs
    refine ⟨hw, h.made, h.entry, ?_⟩
    simp only
    split <;> exact id
  | visitComplete it' rest =>
    simp only [advance, hpc] at hs
    obtain ⟨x, -, rfl⟩ := Option.map_eq_some_iff.mp hs
    exact steady_query h hw fun _ => id
  | visitFailed it' rest =>
    simp only [advance, hpc] at hs
    obtain ⟨x, -, rfl⟩ := Option.map_eq_some_iff.mp hs
    refine ⟨hw, h.made, h.entry, ?_⟩
    simp only
    split <;> exact id
  | visitReport it' rest =>
    simp only [advance, hpc] at hs
    obtain ⟨x, -, rfl⟩ := Option.map_eq_some_iff.mp hs
    exact steady_query h hw fun _ => id
  | visitDel it' rest =>
    rw [hpc] at hitem
    obtain rfl := Option.some.inj hitem
    simp only [advance, hpc, Option.some.injEq] at hs
    subst hs
    refine ⟨hw, h.made, ?_, id⟩
    rw [hj, Dict.get?_del_self h.wf.keys]
    simp
  | visitAge it' rest =>
    simp only [advance, hpc, Option.some.injEq] at hs
    subst hs
    refine ⟨hw, h.made, h.entry, ?_⟩
    simp only
    split <;> exact id
  | visitRenew it' rest =>
    simp only [advance, hpc, Option.some.injEq] at hs
    subst hs
    refine steady_query h hw fun r => ?_
    split <;> exact id
  | visitRenewed it' rest =>
    rw [hpc] at hitem hentry
    obtain rfl := Option.some.inj hitem
    simp only [advance, hpc, Option.some.injEq] at hs
    subst hs
    refine ⟨hw, h.made, fun e' he' => ?_, id⟩
    rw [hj, Dict.get?_set_self] at he'
    obtain rfl := Option.some.inj he'
    exact hentry List.mem_cons_self
  | visitLost it' rest =>
    simp only [advance, hpc, Option.some.injEq] at hs
    subst hs
    exact ⟨hw, h.made.retained (retains_call s _ _), h.entry, id⟩
  | _ => simp [hpc, Pc.item] at hitem

/-- **Step lemma.**  Nobody else takes over the job along an undisturbed run. -/
theorem steady_step {ev : Event} (h : Steady j e s) (hU : Undisturbed cfg j e s ev)
    (hs : step cfg s ev = some t) : Steady j e t := by
  have hw := wf_step h.wf hs
  cases ev with
  | tick _ _ _ | stop | foreign _ | insert _ =>
    obtain rfl := Option.some.inj hs
    exact ⟨hw, h.made, h.entry, h.clear⟩
  | task k m =>
    obtain rfl := Option.some.inj hs
    exact ⟨hw, h.made.retained (retains_call s k m), h.entry, h.clear⟩
  | submit _ | poll =>
    simp only [step] at hs
    split at hs
    · obtain rfl := Option.some.inj hs
      exact ⟨hw, h.made, h.entry, id⟩
    · simp at hs
  | advance io =>
    by_cases hitem : ∃ it, s.pc.item = some it ∧ it.1 = j
    · obtain ⟨it, hit, hj⟩ := hitem
      exact steady_visit h hit hj hs
    · exact h.elsewhere (advance_elsewhere h hU (fun it hit hj => hitem ⟨it, hit, hj⟩) hs) hw

/-- A call of the store whose statement leaves the rows of `j` alone. -/
theorem rowsOf_query {io : Io} {op : Op} {k : Resp → Pc}
    (h : rowsOf j (exec s.rows s.now op).1 = rowsOf j s.rows) :
    rowsOf j (s.query io op k).rows = rowsOf j s.rows := by
  unfold Sys.query
  split
  · rfl
  · exact h
  · exact h

/-- A row that passes no fence of the attempt stays as it is. -/
theorem unfenced_step {ev : Event} (h : Steady j e s) (hU : Undisturbed cfg j e s ev)
    (hno : ∀ r ∈ rowsOf j s.rows, fenced s.now j e.attemptId r = false)
    (hs : step cfg s ev = some t) : rowsOf j t.rows = rowsOf j s.rows := by
  cases ev with
  | advance io =>
    by_cases hitem : ∃ it, s.pc.item = some it ∧ it.1 = j
    · obtain ⟨it, hit, hj⟩ := hitem
      have hfix : ∀ {op : Op}, Fenced it.1 it.2.attemptId op → it ∈ s.pc.pending →
          rowsOf j (exec s.rows s.now op).1 = rowsOf j s.rows := by
        intro op hop hmem
        rw [hj, (h.item_entry hmem hj).2] at hop
        exact rowsOf_exec_of_fixed fun r hr => hop.onRow_of_not (hno r hr)
      by_cases hset : s.pc.settling = true
      · cases hpc : s.pc with
        | visitComplete it' rest =>
          rw [hpc] at hit hfix
          obtain rfl := Option.some.inj hit
          simp only [step, advance, hpc] at hs
          obtain ⟨x, -, rfl⟩ := Option.map_eq_some_iff.mp hs
          exact rowsOf_query (hfix (.complete _ _) List.mem_cons_self)
        | visitReport it' rest =>
          rw [hpc] at hit hfix
          obtain rfl := Option.some.inj hit
          simp only [step, advance, hpc] at hs
          obtain ⟨x, -, rfl⟩ := Option.map_eq_some_iff.mp hs
          exact rowsOf_query (hfix (fenced_reportOp cfg _ _ _) List.mem_cons_self)
        | visitRenew it' rest =>
          rw [hpc] at hit hfix
          obtain rfl := Option.some.inj hit
          simp only [step, advance, hpc, Option.some.injEq] at hs
          subst hs
          exact rowsOf_query (hfix (.renew _) List.mem_cons_self)
        | pollExpire => simp [hpc, Pc.item] at hit
        | _ => simp [hpc, Pc.settling] at hset
      · exact hU.untouched (fun _ _ => by simpa using hset) t hs
    · exact (advance_elsewhere h hU (fun it hit hj => hitem ⟨it, hit, hj⟩) hs).rows
  | _ => exact hU.untouched (by simp) t hs

end Elsewhere

/-! ## The course of an attempt -/

/-- The row is the attempt's own, with the result and error it was claimed with. -/
structure Held (r₀ : Row) (a : Uuid) (r : Row) : Prop where
  status : r.status = .running
  attempt : r.attemptId = some a
  lease : r.leaseUntil ≠ none
  result : r.result = r₀.result
  error : r.error = r₀.error

/-- The row shows what the task reported. -/
structure Settled (r₀ : Row) (a : Uuid) (t : Task) (r : Row) : Prop where
  terminal : t.terminal = true
  stopped : r.status ≠ .running
  columns : columnsOf r = outcome r₀.result a (report t)

/-- What is true of the row and the task at each point of the visit of job `j`. -/
def Pc.Visit (r₀ : Row) (a : Uuid) (j : Uuid) (t : Task) (r : Row) : Pc → Prop
  | .visitComplete it _ => it.1 = j → t.status = .done
  | .visitFailed it _ => it.1 = j → Held r₀ a r ∨ t.status = .failed
  | .visitReport it _ => it.1 = j → t.status = .failed
  | .visitDel it _ => it.1 = j → Settled r₀ a t r
  | .visitAge it _ | .visitRenew it _ | .visitRenewed it _ => it.1 = j → Held r₀ a r
  | .visitLost it _ => it.1 ≠ j
  | _ => True

/-- Along an undisturbed run from row `r₀`: the task made the calls `ms`, and its row is held or
settled; the entry is gone only when it is settled. -/
structure Course (r₀ : Row) (j : Uuid) (e : Active) (t₀ : Report) (s : Sys)
    (ms : List Task.Method) (x : Made) (r : Row) : Prop where
  steady : Steady j e s
  task : s.made[e.task]? = some x
  reported : report x.task = ms.foldl (fun t m => t.call m) t₀
  row : rowsOf j s.rows = [r]
  state : Held r₀ e.attemptId r ∨ Settled r₀ e.attemptId x.task r
  gone : Dict.get? j s.active = none → Settled r₀ e.attemptId x.task r
  visit : s.pc.Visit r₀ e.attemptId j x.task r

section Course

variable {cfg : Settings} {s t : Sys} {r₀ : Row} {j : Uuid} {e : Active} {t₀ : Report}
  {ms : List Task.Method} {x : Made} {r : Row}

theorem terminal_iff {t : Task} : t.terminal = true ↔ t.status = .done ∨ t.status = .failed := by
  unfold Task.terminal
  cases t.status <;> simp [TaskStatus.terminal]

theorem Held.fenced {a : Uuid} (h : Held r₀ a r) (hj : r.jobId = j) {now : ℤ}
    (hlive : now < r.deadlineAt ∧ r.leaseLapsed now = false) : fenced now j a r = true := by
  obtain ⟨l, hl⟩ := Option.ne_none_iff_exists'.mp h.lease
  have hlt : now < l := by simpa [Row.leaseLapsed, hl] using hlive.2
  simp [JobStore.fenced, hj, h.status, h.attempt, Row.leaseLive, hl, hlt, hlive.1]

/-- A row the attempt does not hold passes no fence of it. -/
theorem fenced_of_stopped {now : ℤ} {a : Uuid} (h : r.status ≠ .running) :
    fenced now j a r = false := by
  simp [fenced, h]

/-- **Settling.**  `complete` of a finished task writes its outcome. -/
theorem Held.completed {a : Uuid} (h : Held r₀ a r) {t : Task} (hd : t.status = .done) (now : ℤ) :
    Settled r₀ a t (r.completed now (resultColumn t.result) none) where
  terminal := terminal_iff.mpr (.inl hd)
  stopped := by simp [Row.completed]
  columns := by simp [columnsOf, Row.completed, outcome, report, hd, h.attempt]

/-- `defer` or `complete` of a failed task writes its outcome. -/
theorem Held.reported {a : Uuid} (h : Held r₀ a r) {t : Task} (hf : t.status = .failed)
    {rows : List Row} {now : ℤ} (hfence : JobStore.fenced now j a r = true) :
    Settled r₀ a t (onRow rows now (reportOp cfg j a t) r) := by
  have hterm : t.terminal = true := terminal_iff.mpr (.inr hf)
  by_cases hc : orText t.errorCode "worker_error" ∈ retryableErrors
  · simp only [reportOp, hc, if_true, onRow, hfence]
    refine ⟨hterm, by simp [Row.deferred], ?_⟩
    simp [columnsOf, Row.deferred, outcome, report, hf, hc, h.attempt, h.result, Report.errorJson]
  · simp only [reportOp, hc, if_false, onRow, hfence, if_true]
    refine ⟨hterm, by simp [Row.completed], ?_⟩
    simp [columnsOf, Row.completed, outcome, report, hf, hc, h.attempt, Report.errorJson]

theorem Held.renewed {a : Uuid} (h : Held r₀ a r) (now lease : ℤ) : Held r₀ a (r.renewed now lease) :=
  ⟨h.status, h.attempt, by simp [Row.renewed], h.result, h.error⟩

/-- The statement that ends the visit of an ended task. -/
theorem Course.settle (cfg : Settings) (h : Course r₀ j e t₀ s ms x r)
    (hlive : ∀ r ∈ rowsOf j s.rows, s.now < r.deadlineAt ∧ r.leaseLapsed s.now = false) {op : Op}
    (hop : x.task.status = .done ∧
        op = .complete j e.attemptId (resultColumn x.task.result) none ∨
      x.task.status = .failed ∧ op = reportOp cfg j e.attemptId x.task) :
    ∃ r', rowsOf j (exec s.rows s.now op).1 = [r'] ∧ Settled r₀ e.attemptId x.task r' := by
  have hmem : r ∈ rowsOf j s.rows := by simp [h.row]
  refine ⟨onRow s.rows s.now op r, by rw [rowsOf_exec, h.row, List.map_singleton], ?_⟩
  rcases h.state with hheld | hset
  · have hfence := hheld.fenced (jobId_of_mem_rowsOf hmem) (hlive r hmem)
    rcases hop with ⟨hd, rfl⟩ | ⟨hf, rfl⟩
    · simp only [onRow, hfence, if_true]
      exact hheld.completed hd s.now
    · exact hheld.reported hf hfence
  · -- the acknowledgement was lost: the statement finds the row settled and does nothing
    have hfenced : Fenced j e.attemptId op := by
      rcases hop with ⟨-, rfl⟩ | ⟨-, rfl⟩
      · exact .complete _ _
      · exact fenced_reportOp cfg _ _ _
    rw [hfenced.onRow_of_not (fenced_of_stopped hset.stopped)]
    exact hset

/-- A method of the task changes nothing once the row is settled. -/
theorem Settled.call {a : Uuid} {t : Task} (h : Settled r₀ a t r) (m : Task.Method)
    (mono wall : ℤ) : Settled r₀ a (t.call m mono wall) r := by
  rwa [Task.call_of_terminal h.terminal]

theorem Pc.Visit.call {a : Uuid} {t : Task} {pc : Pc} (h : pc.Visit r₀ a j t r) (m : Task.Method)
    (mono wall : ℤ) : pc.Visit r₀ a j (t.call m mono wall) r := by
  have hkeep : ∀ st : TaskStatus, st.terminal = true → t.status = st →
      (t.call m mono wall).status = st := by
    rintro st hterm rfl
    rw [Task.call_of_terminal hterm]
  cases pc with
  | visitComplete it rest => exact fun hj => hkeep _ rfl (h hj)
  | visitFailed it rest => exact fun hj => (h hj).imp id (hkeep _ rfl)
  | visitReport it rest => exact fun hj => hkeep _ rfl (h hj)
  | visitDel it rest => exact fun hj => (h hj).call m mono wall
  | visitAge it rest => exact h
  | visitRenew it rest => exact h
  | visitRenewed it rest => exact h
  | visitLost it rest => exact h
  | _ => trivial

/-- Points away from the job say nothing about it. -/
theorem Pc.visit_of_item {a : Uuid} {t : Task} {pc : Pc}
    (h : ∀ it, pc.item = some it → it.1 = j → ∃ rest, pc = .visitExpired it rest) :
    pc.Visit r₀ a j t r := by
  have hne : ∀ it, pc.item = some it → (∀ rest, pc ≠ .visitExpired it rest) → it.1 ≠ j := by
    intro it hit hpc hj
    obtain ⟨rest, hr⟩ := h it hit hj
    exact hpc rest hr
  cases pc with
  | visitComplete it rest => exact fun hj => absurd hj (hne it rfl (by simp))
  | visitFailed it rest => exact fun hj => absurd hj (hne it rfl (by simp))
  | visitReport it rest => exact fun hj => absurd hj (hne it rfl (by simp))
  | visitDel it rest => exact fun hj => absurd hj (hne it rfl (by simp))
  | visitAge it rest => exact fun hj => absurd hj (hne it rfl (by simp))
  | visitRenew it rest => exact fun hj => absurd hj (hne it rfl (by simp))
  | visitRenewed it rest => exact fun hj => absurd hj (hne it rfl (by simp))
  | visitLost it rest => exact hne it rfl (by simp)
  | _ => trivial

theorem Course.elsewhere (h : Course r₀ j e t₀ s ms x r) (hE : Elsewhere j e s t)
    (hst : Steady j e t) : Course r₀ j e t₀ t ms x r :=
  ⟨hst, hE.task.trans h.task, h.reported, hE.rows.trans h.row, h.state,
    fun hn => h.gone (hE.active ▸ hn), Pc.visit_of_item hE.item⟩

/-- The visit goes on with the row, the task and `_active` as they are. -/
theorem Course.goto (h : Course r₀ j e t₀ s ms x r) {pc : Pc}
    (hst : Steady j e { s with pc := pc }) (hv : pc.Visit r₀ e.attemptId j x.task r) :
    Course r₀ j e t₀ { s with pc := pc } ms x r :=
  ⟨hst, h.task, h.reported, h.row, h.state, h.gone, hv⟩

/-- The visit ends its task's row and goes on, or the call raises before or after that. -/
theorem Course.ends (h : Course r₀ j e t₀ s ms x r) {io : Io} {op : Op} {it : Item}
    {rest : List Item} (hst : Steady j e (s.query io op fun _ => .visitDel it rest)) {r' : Row}
    (hrow : rowsOf j (exec s.rows s.now op).1 = [r']) (hset : Settled r₀ e.attemptId x.task r') :
    ∃ r, Course r₀ j e t₀ (s.query io op fun _ => .visitDel it rest) ms x r := by
  cases hf : io.fault with
  | none =>
    simp only [Sys.query, hf] at hst ⊢
    exact ⟨r', ⟨hst, h.task, h.reported, hrow, .inr hset, fun _ => hset, fun _ => hset⟩⟩
  | some f =>
    cases f with
    | before =>
      simp only [Sys.query, hf] at hst ⊢
      exact ⟨r, ⟨hst, h.task, h.reported, h.row, h.state, h.gone, trivial⟩⟩
    | after =>
      simp only [Sys.query, hf] at hst ⊢
      exact ⟨r', ⟨hst, h.task, h.reported, hrow, .inr hset, fun _ => hset, trivial⟩⟩

/-- A renewal finds the row held and live, so it extends the lease. -/
theorem Course.renews (h : Course r₀ j e t₀ s ms x r) (hheld : Held r₀ e.attemptId r)
    (hlive : ∀ r ∈ rowsOf j s.rows, s.now < r.deadlineAt ∧ r.leaseLapsed s.now = false)
    (lease : ℤ) : (exec s.rows s.now (.renew j e.attemptId lease)).2 = .bool true ∧
      rowsOf j (exec s.rows s.now (.renew j e.attemptId lease)).1 = [r.renewed s.now lease] := by
  have hmem : r ∈ rowsOf j s.rows := by simp [h.row]
  have hfence := hheld.fenced (jobId_of_mem_rowsOf hmem) (hlive r hmem)
  constructor
  · -- the rows that pass the fence are rows of `j`
    have hfilter : s.rows.filter (fenced s.now j e.attemptId) = [r] := by
      have hsub : s.rows.filter (fenced s.now j e.attemptId) =
          (rowsOf j s.rows).filter (fenced s.now j e.attemptId) := by
        rw [rowsOf, List.filter_filter]
        refine List.filter_congr fun y _ => ?_
        cases hy : fenced s.now j e.attemptId y with
        | false => simp
        | true =>
          simp only [fenced, Bool.and_eq_true] at hy
          simp [hy.1.1.1.1]
      rw [hsub, h.row]
      simp [hfence]
    simp [JobStore.exec, resp, hfilter]
  · rw [rowsOf_exec, h.row]
    simp [onRow, hfence]

/-- A step of the visit of job `j` itself. -/
theorem course_visit {io : Io} {it : Item} (hU : Undisturbed cfg j e s (.advance io))
    (h : Course r₀ j e t₀ s ms x r) (hitem : s.pc.item = some it) (hj : it.1 = j)
    (hs : advance cfg s io = some t) : ∃ r', Course r₀ j e t₀ t ms x r' := by
  have hst := steady_visit h.steady hitem hj hs
  have hv := h.visit
  have hentry : it ∈ s.pc.pending → it.2.task = e.task ∧ it.2.attemptId = e.attemptId :=
    fun hit => h.steady.item_entry hit hj
  cases hpc : s.pc with
  | visitExpired it' rest =>
    rw [hpc] at hitem hentry hv
    obtain rfl := Option.some.inj hitem
    obtain ⟨htask, -⟩ := hentry List.mem_cons_self
    simp only [advance, hpc, htask, h.task, Option.map_some, Option.some.injEq] at hs
    split at hs
    · -- an expired task has ended already, so marking it failed does nothing
      rename_i hexp
      have hterm : x.task.terminal = true := by
        by_contra hopen
        have := hU.unexpired x h.task (by simpa using hopen)
        simp [this] at hexp
      subst hs
      have hx : (s.call e.task (.markFailed "job deadline exceeded" (some "deadline_exceeded"))).made[
          e.task]? = some x := by
        simp [Sys.call, h.task, Task.call_of_terminal hterm]
      exact ⟨r, ⟨hst, hx, h.reported, h.row, h.state, h.gone, trivial⟩⟩
    · subst hs
      exact ⟨r, h.goto hst trivial⟩
  | visitDone it' rest =>
    rw [hpc] at hitem hentry hv
    obtain rfl := Option.some.inj hitem
    obtain ⟨htask, -⟩ := hentry List.mem_cons_self
    simp only [advance, hpc, htask, h.task, Option.map_some, Option.some.injEq] at hs
    subst hs
    split at hst
    · rename_i hd
      refine ⟨r, ?_⟩
      rw [if_pos hd]
      exact h.goto hst fun _ => hd
    · rename_i hd
      refine ⟨r, ?_⟩
      rw [if_neg hd]
      refine h.goto hst fun _ => h.state.imp id fun hset => ?_
      exact (terminal_iff.mp hset.terminal).resolve_left hd
  | visitComplete it' rest =>
    rw [hpc] at hitem hentry hv
    obtain rfl := Option.some.inj hitem
    obtain ⟨htask, hatt⟩ := hentry List.mem_cons_self
    simp only [advance, hpc, htask, hatt, hj, h.task, Option.map_some, Option.some.injEq] at hs
    subst hs
    obtain ⟨r', hrow, hset⟩ := h.settle cfg hU.live (.inl ⟨hv hj, rfl⟩)
    exact h.ends hst hrow hset
  | visitFailed it' rest =>
    rw [hpc] at hitem hentry hv
    obtain rfl := Option.some.inj hitem
    obtain ⟨htask, -⟩ := hentry List.mem_cons_self
    simp only [advance, hpc, htask, h.task, Option.map_some, Option.some.injEq] at hs
    subst hs
    split at hst
    · rename_i hf
      refine ⟨r, ?_⟩
      rw [if_pos hf]
      exact h.goto hst fun _ => hf
    · rename_i hf
      refine ⟨r, ?_⟩
      rw [if_neg hf]
      exact h.goto hst fun _ => (hv hj).resolve_right hf
  | visitReport it' rest =>
    rw [hpc] at hitem hentry hv
    obtain rfl := Option.some.inj hitem
    obtain ⟨htask, hatt⟩ := hentry List.mem_cons_self
    simp only [advance, hpc, htask, hatt, hj, h.task, Option.map_some, Option.some.injEq] at hs
    subst hs
    obtain ⟨r', hrow, hset⟩ := h.settle cfg hU.live (.inr ⟨hv hj, rfl⟩)
    exact h.ends hst hrow hset
  | visitDel it' rest =>
    rw [hpc] at hitem hv
    obtain rfl := Option.some.inj hitem
    simp only [advance, hpc, Option.some.injEq] at hs
    subst hs
    exact ⟨r, ⟨hst, h.task, h.reported, h.row, h.state, fun _ => hv hj, trivial⟩⟩
  | visitAge it' rest =>
    rw [hpc] at hitem hv
    obtain rfl := Option.some.inj hitem
    simp only [advance, hpc, Option.some.injEq] at hs
    subst hs
    split at hst
    · rename_i hage
      refine ⟨r, ?_⟩
      rw [if_pos hage]
      exact h.goto hst hv
    · rename_i hage
      refine ⟨r, ?_⟩
      rw [if_neg hage]
      exact h.goto hst trivial
  | visitRenew it' rest =>
    rw [hpc] at hitem hentry hv
    obtain rfl := Option.some.inj hitem
    obtain ⟨-, hatt⟩ := hentry List.mem_cons_self
    simp only [advance, hpc, hatt, hj, Option.some.injEq] at hs
    obtain ⟨hresp, hrow⟩ := h.renews (hv hj) hU.live cfg.leaseSeconds
    have hheld := (hv hj).renewed s.now cfg.leaseSeconds
    have hlost : Dict.get? j s.active ≠ none := by
      intro hn
      have := (h.gone hn).stopped
      exact this (hv hj).status
    subst hs
    unfold Sys.query at hst ⊢
    cases hf : io.fault with
    | none =>
      simp only [hf, hresp] at hst ⊢
      exact ⟨_, ⟨hst, h.task, h.reported, hrow, .inl hheld,
        fun hn => absurd hn hlost, fun _ => hheld⟩⟩
    | some f =>
      cases f with
      | before =>
        simp only [hf] at hst ⊢
        exact ⟨r, h.goto hst trivial⟩
      | after =>
        simp only [hf] at hst ⊢
        exact ⟨_, ⟨hst, h.task, h.reported, hrow, .inl hheld,
          fun hn => absurd hn hlost, trivial⟩⟩
  | visitRenewed it' rest =>
    rw [hpc] at hitem
    obtain rfl := Option.some.inj hitem
    simp only [advance, hpc, Option.some.injEq] at hs
    subst hs
    refine ⟨r, ⟨hst, h.task, h.reported, h.row, h.state, ?_, trivial⟩⟩
    rw [hj, Dict.get?_set_self]
    simp
  | visitLost it' rest =>
    rw [hpc] at hitem hv
    obtain rfl := Option.some.inj hitem
    exact absurd hj hv
  | _ => simp [hpc, Pc.item] at hitem

/-- **Step lemma.**  An undisturbed step keeps the course of the attempt. -/
theorem course_step {ev : Event} (hU : Undisturbed cfg j e s ev) (h : Course r₀ j e t₀ s ms x r)
    (hs : step cfg s ev = some t) :
    ∃ x' r', Course r₀ j e t₀ t (ms ++ methodsOf e.task s ev) x' r' := by
  have hst := steady_step h.steady hU hs
  cases ev with
  | tick _ _ _ | stop =>
    obtain rfl := Option.some.inj hs
    exact ⟨x, r, hst, h.task, by simpa [methodsOf] using h.reported, h.row, h.state, h.gone, h.visit⟩
  | foreign _ | insert _ =>
    have hrow := (hU.untouched (by simp) t hs).trans h.row
    obtain rfl := Option.some.inj hs
    exact ⟨x, r, hst, h.task, by simpa [methodsOf] using h.reported, hrow, h.state, h.gone, h.visit⟩
  | task k m =>
    obtain rfl := Option.some.inj hs
    by_cases hk : k = e.task
    · subst hk
      refine ⟨{ x with task := x.task.call m s.mono s.wall }, r, hst, by simp [Sys.call, h.task], ?_,
        h.row, h.state.imp id fun hset => hset.call m _ _, fun hn => (h.gone hn).call m _ _,
        h.visit.call m _ _⟩
      simp [methodsOf, report_call, h.reported]
    · refine ⟨x, r, hst, (call_task_of_ne s hk m).trans h.task, ?_, h.row, h.state, h.gone, h.visit⟩
      simp [methodsOf, hk, h.reported]
  | submit _ | poll =>
    simp only [step] at hs
    split at hs
    · obtain rfl := Option.some.inj hs
      exact ⟨x, r, by simpa [methodsOf] using h.goto hst trivial⟩
    · simp at hs
  | advance io =>
    simp only [methodsOf, List.append_nil]
    by_cases hitem : ∃ it, s.pc.item = some it ∧ it.1 = j
    · obtain ⟨it, hit, hj⟩ := hitem
      exact ⟨x, course_visit hU h hit hj hs⟩
    · have hE := advance_elsewhere h.steady hU (fun it hit hj => hitem ⟨it, hit, hj⟩) hs
      exact ⟨x, r, h.elsewhere hE hst⟩

end Course

/-! ## The last poll -/

/-- The walk has job `j`, whose task has ended in status `st`, still before it. -/
def Pc.Awaits (j : Uuid) (st : TaskStatus) : Pc → Prop
  | .pollExpire => True
  | .visit rest => j ∈ rest.map Prod.fst
  | .visitExpired it rest | .visitDone it rest | .visitComplete it rest | .visitReport it rest =>
    it.1 = j ∨ j ∈ rest.map Prod.fst
  | .visitFailed it rest => (it.1 = j ∧ st = .failed) ∨ j ∈ rest.map Prod.fst
  | .visitDel _ rest | .visitAge _ rest | .visitRenew _ rest | .visitRenewed _ rest
  | .visitLost _ rest => j ∈ rest.map Prod.fst
  | _ => False

/-- A step inside a poll that does not raise and does not touch task `i`. -/
def Event.calm (i : ℕ) : Event → Bool
  | .submit _ | .poll => false
  | .task k _ => k != i
  | .advance io => io.fault.isNone
  | _ => true

section LastPoll

variable {cfg : Settings} {s t : Sys} {r₀ : Row} {j : Uuid} {e : Active} {t₀ : Report}
  {ms : List Task.Method} {x : Made} {r : Row}

/-- Without a fault the walk comes to the job, and leaves it only by deleting its entry. -/
theorem awaits_advance {io : Io} (hf : io.fault = none) (h : Course r₀ j e t₀ s ms x r)
    (hterm : x.task.terminal = true) (hrun : r.status = .running)
    (haw : s.pc.Awaits j x.task.status) (hs : advance cfg s io = some t) :
    t.pc.Awaits j x.task.status ∨ ∃ it rest, t.pc = .visitDel it rest ∧ it.1 = j := by
  have htask : ∀ {it : Item} {y : Made}, it ∈ s.pc.pending → it.1 = j →
      s.made[it.2.task]? = some y → y = x := by
    intro it y hit hj hy
    rw [(h.steady.item_entry hit hj).1, h.task] at hy
    exact (Option.some.inj hy).symm
  cases hpc : s.pc with
  | pollExpire =>
    simp only [advance, hpc, Sys.query, hf, Option.some.injEq] at hs
    subst hs
    left
    -- a running row is not settled, so its entry is still there
    cases hget : Dict.get? j s.active with
    | none => exact absurd hrun (h.gone hget).stopped
    | some e' => exact List.mem_map_of_mem (Dict.mem_of_get? hget)
  | visit rest =>
    rw [hpc] at haw
    cases rest with
    | nil => simp [Pc.Awaits] at haw
    | cons it rest =>
      simp only [advance, hpc, Option.some.injEq] at hs
      subst hs
      left
      rcases List.mem_cons.mp haw with hj | hrest
      · exact .inl hj.symm
      · exact .inr hrest
  | visitExpired it rest =>
    rw [hpc] at haw
    simp only [advance, hpc] at hs
    obtain ⟨y, -, rfl⟩ := Option.map_eq_some_iff.mp hs
    left
    split <;> exact haw
  | visitDone it rest =>
    rw [hpc] at haw htask
    simp only [advance, hpc] at hs
    obtain ⟨y, hy, rfl⟩ := Option.map_eq_some_iff.mp hs
    left
    simp only
    split
    · exact haw
    · rename_i hd
      refine haw.imp (fun hj => ⟨hj, ?_⟩) id
      obtain rfl := htask List.mem_cons_self hj hy
      exact (terminal_iff.mp hterm).resolve_left hd
  | visitComplete it rest =>
    rw [hpc] at haw
    simp only [advance, hpc] at hs
    obtain ⟨y, -, rfl⟩ := Option.map_eq_some_iff.mp hs
    simp only [Sys.query, hf]
    rcases haw with hj | hrest
    · exact .inr ⟨it, rest, rfl, hj⟩
    · exact .inl hrest
  | visitFailed it rest =>
    rw [hpc] at haw htask
    simp only [advance, hpc] at hs
    obtain ⟨y, hy, rfl⟩ := Option.map_eq_some_iff.mp hs
    left
    simp only
    split
    · exact haw.imp And.left id
    · rename_i hne
      refine haw.resolve_left fun hfail => hne ?_
      obtain rfl := htask List.mem_cons_self hfail.1 hy
      exact hfail.2
  | visitReport it rest =>
    rw [hpc] at haw
    simp only [advance, hpc] at hs
    obtain ⟨y, -, rfl⟩ := Option.map_eq_some_iff.mp hs
    simp only [Sys.query, hf]
    rcases haw with hj | hrest
    · exact .inr ⟨it, rest, rfl, hj⟩
    · exact .inl hrest
  | visitDel it rest | visitRenewed it rest | visitLost it rest =>
    rw [hpc] at haw
    simp only [advance, hpc, Option.some.injEq] at hs
    subst hs
    exact .inl haw
  | visitAge it rest =>
    rw [hpc] at haw
    simp only [advance, hpc, Option.some.injEq] at hs
    subst hs
    left
    simp only
    split <;> exact haw
  | visitRenew it rest =>
    rw [hpc] at haw
    simp only [advance, hpc, Sys.query, hf, Option.some.injEq] at hs
    subst hs
    left
    simp only
    split <;> exact haw
  | _ =>
    rw [hpc] at haw
    exact haw.elim

/-- The course of the attempt during the last poll: an ended task is reported or still to come. -/
def Closing (r₀ : Row) (j : Uuid) (e : Active) (t₀ : Report) (ms : List Task.Method) (s : Sys) :
    Prop :=
  ∃ x r, Course r₀ j e t₀ s ms x r ∧
    (x.task.terminal = true → r.status ≠ .running ∨ s.pc.Awaits j x.task.status)

theorem closing_step {ev : Event} (hU : Undisturbed cfg j e s ev) (hcalm : ev.calm e.task = true)
    (h : Closing r₀ j e t₀ ms s) (hs : step cfg s ev = some t) : Closing r₀ j e t₀ ms t := by
  obtain ⟨x, r, hc, hopen⟩ := h
  have hms : ms ++ methodsOf e.task s ev = ms := by
    cases ev <;> simp_all [methodsOf, Event.calm]
  obtain ⟨x', r', hc'⟩ := course_step hU hc hs
  rw [hms] at hc'
  have hrep : report x'.task = report x.task := hc'.reported.trans hc.reported.symm
  have hst : x'.task.status = x.task.status := congrArg Report.status hrep
  refine ⟨x', r', hc', fun hterm' => ?_⟩
  have hterm : x.task.terminal = true := by
    rw [Task.terminal, ← hst]
    exact hterm'
  rw [hst]
  by_cases hrun : r.status = .running
  · have haw := (hopen hterm).resolve_left (fun hn => hn hrun)
    cases ev with
    | advance io =>
      rcases awaits_advance (by simpa [Event.calm] using hcalm) hc hterm hrun haw hs with
        hnext | ⟨it, rest, hpc, hj⟩
      · exact .inr hnext
      · have hv := hc'.visit
        rw [hpc] at hv
        exact .inl (hv hj).stopped
    | submit _ | poll => simp [Event.calm] at hcalm
    | tick _ _ _ | foreign _ | insert _ | stop | task _ _ =>
      obtain rfl := Option.some.inj hs
      exact .inr haw
  · -- the row is settled and stays so
    have hsame := unfenced_step hc.steady hU (by simp [hc.row, fenced_of_stopped hrun]) hs
    rw [hc.row, hc'.row, List.singleton_inj] at hsame
    exact .inl (hsame ▸ hrun)

end LastPoll

/-! ## Conclusion -/

/-- The columns in which an attempt leaves its row. -/
def ended (r₀ : Row) (a : Uuid) (t : Report) : Columns :=
  if t.status.terminal then outcome r₀.result a t else (.running, r₀.result, r₀.error, some a)

/-- The status, result, error and attempt of the row of job `j`. -/
def columns (j : Uuid) (rows : List Row) : List Columns := (rowsOf j rows).map columnsOf

/-- An undisturbed run, with any faults, whose last poll raises nothing and starts after the last
call on the task. -/
structure Concludes (cfg : Settings) (j : Uuid) (e : Active) (s : Sys) (es : List Event) (t : Sys) :
    Prop where
  run : Lib.exec (step cfg) s es = some t
  undisturbed : Meets (step cfg) (Undisturbed cfg j e) s es
  last : ∃ es₁ es₂, es = es₁ ++ .poll :: es₂ ∧ ∀ ev ∈ es₂, ev.calm e.task = true
  free : t.pc = .free

section Conclusion

variable {cfg : Settings} {s t : Sys} {r₀ : Row} {j : Uuid} {e : Active}

theorem rowsOf_of_keyed {rows : List Row} (h : Keyed rows) :
    rowsOf j rows = [] ∨ ∃ r, rowsOf j rows = [r] := by
  match hr : rowsOf j rows with
  | [] => exact .inl rfl
  | [r] => exact .inr ⟨r, rfl⟩
  | a :: b :: l =>
    have hnd : ((rowsOf j rows).map Row.jobId).Nodup := h.sublist (List.filter_sublist.map _)
    have hj : ∀ r ∈ rowsOf j rows, r.jobId = j := fun r => jobId_of_mem_rowsOf
    rw [hr] at hnd hj
    simp [hj a, hj b] at hnd

/-- An entry of a gateway that nobody uses starts a steady course. -/
theorem steady_of_entry (hw : Wf s) (hfree : s.pc = .free) (he : Dict.get? j s.active = some e) :
    Steady j e s := by
  refine ⟨hw, hw.entries j e he, fun e' he' => ?_, by rw [hfree]; exact id⟩
  obtain rfl := Option.some.inj (he.symm.trans he')
  exact ⟨rfl, rfl⟩

/-- A held row ends as the task's report says. -/
theorem Concludes.columns_of_held {es : List Event} (hc : Concludes cfg j e s es t)
    (hst : Steady j e s) (hfree : s.pc = .free) (he : Dict.get? j s.active = some e) {x : Made}
    (hx : s.made[e.task]? = some x) (hrow : rowsOf j s.rows = [r₀])
    (hheld : Held r₀ e.attemptId r₀) :
    columns j t.rows = [ended r₀ e.attemptId ((trace (step cfg) (methodsOf e.task) s es).foldl
      (fun t m => t.call m) (report x.task))] := by
  obtain ⟨es₁, es₂, rfl, hcalm⟩ := hc.last
  obtain ⟨m, hm, hlast⟩ := exec_append.mp hc.run
  obtain ⟨m', hpoll, hrest⟩ := exec_cons.mp hlast
  obtain ⟨hU₁, hU₂⟩ := meets_split hc.undisturbed
  have hU₂ := hU₂ m hm
  -- up to the last poll
  have hstart : Course r₀ j e (report x.task) s [] x r₀ :=
    ⟨hst, hx, rfl, hrow, .inl hheld, by simp [he], by rw [hfree]; trivial⟩
  obtain ⟨y, r, hcourse⟩ : ∃ y r, Course r₀ j e (report x.task) m
      ([] ++ trace (step cfg) (methodsOf e.task) s es₁) y r :=
    exec_trace (P := fun s ms => ∃ x' r, Course r₀ j e (report x.task) s ms x' r)
      (fun _ _ _ _ hU hP hs => hP.elim fun _ hP => hP.elim fun _ h => course_step hU h hs)
      hU₁ hm ⟨x, r₀, hstart⟩
  -- the last poll
  have hclosing : Closing r₀ j e (report x.task) (trace (step cfg) (methodsOf e.task) s es₁) m' := by
    obtain ⟨y', r', hcourse'⟩ := course_step hU₂.1 hcourse hpoll
    refine ⟨y', r', by simpa [methodsOf] using hcourse', fun _ => .inr ?_⟩
    simp only [step] at hpoll
    split at hpoll
    · obtain rfl := Option.some.inj hpoll
      trivial
    · simp at hpoll
  have hcalmed : Meets (step cfg) (fun _ ev => ev.calm e.task = true) m' es₂ :=
    meets_of_forall (fun ev hev _ => hcalm ev hev) m'
  obtain ⟨z, r', hend, hopen⟩ := exec_inv_meets
    (fun _ _ _ hC h hs => closing_step hC.1 hC.2 h hs) (meets_and (hU₂.2 m' hpoll) hcalmed)
    hclosing hrest
  have htrace : trace (step cfg) (methodsOf e.task) s (es₁ ++ .poll :: es₂) =
      trace (step cfg) (methodsOf e.task) s es₁ := by
    have hnil : ∀ ev ∈ .poll :: es₂, ∀ u, methodsOf e.task u ev = [] := by
      intro ev hev u
      rcases List.mem_cons.mp hev with rfl | hev
      · rfl
      · have := hcalm ev hev
        cases ev <;> simp_all [methodsOf, Event.calm]
    rw [trace_append hm, trace_eq_nil hnil m, List.append_nil]
  rw [htrace, ← hend.reported, columns, hend.row, List.map_singleton, List.singleton_inj, ended]
  split
  · rename_i hterm
    have hstopped : r'.status ≠ .running := by
      refine (hopen hterm).resolve_right ?_
      rw [hc.free]
      exact id
    exact (hend.state.resolve_left fun h => hstopped h.status).columns
  · rename_i hopen'
    have hh := hend.state.resolve_right fun h => hopen' h.terminal
    rw [columnsOf, hh.status, hh.result, hh.error, hh.attempt]

/-- A row the attempt does not hold is the same at the end. -/
theorem Concludes.rows_of_unfenced {es : List Event} (hc : Concludes cfg j e s es t)
    (hst : Steady j e s) (hno : ∀ r ∈ rowsOf j s.rows, ∀ now, fenced now j e.attemptId r = false) :
    rowsOf j t.rows = rowsOf j s.rows := by
  have hinv := exec_inv_meets
    (P := fun u => Steady j e u ∧ rowsOf j u.rows = rowsOf j s.rows)
    (fun u ev v hU hu hs => ⟨steady_step hu.1 hU hs,
      (unfenced_step hu.1 hU (fun r hr => hno r (hu.2 ▸ hr) u.now) hs).trans hu.2⟩)
    hc.undisturbed ⟨hst, rfl⟩ hc.run
  exact hinv.2

/-- **Faults are harmless.**  All runs that conclude after the same calls on the task leave the row
with the same status, result, error and attempt. -/
theorem columns_agree {es es' : List Event} {t' : Sys} (hw : Wf s) (hk : Keyed s.rows)
    (hfree : s.pc = .free) (he : Dict.get? j s.active = some e) (hc : Concludes cfg j e s es t)
    (hc' : Concludes cfg j e s es' t')
    (hms : trace (step cfg) (methodsOf e.task) s es = trace (step cfg) (methodsOf e.task) s es') :
    columns j t.rows = columns j t'.rows := by
  have hst := steady_of_entry hw hfree he
  obtain ⟨x, hx, -⟩ := hst.made
  by_cases hno : ∀ r ∈ rowsOf j s.rows, ∀ now, fenced now j e.attemptId r = false
  · rw [columns, columns, hc.rows_of_unfenced hst hno, hc'.rows_of_unfenced hst hno]
  · push Not at hno
    obtain ⟨r, hr, now, hf⟩ := hno
    have hrow : rowsOf j s.rows = [r] := by
      rcases rowsOf_of_keyed (j := j) hk with hnil | ⟨r', hr'⟩
      · simp [hnil] at hr
      · rw [hr'] at hr ⊢
        rw [List.mem_singleton.mp hr]
    have hheld : Held r e.attemptId r := by
      simp only [ne_eq, Bool.not_eq_false, fenced, Bool.and_eq_true, beq_iff_eq, Row.leaseLive] at hf
      refine ⟨hf.1.1.2, hf.1.1.1.2, fun hn => ?_, rfl, rfl⟩
      simp [hn] at hf
    rw [hc.columns_of_held hst hfree he hx hrow hheld, hc'.columns_of_held hst hfree he hx hrow hheld,
      hms]

end Conclusion

/-- **A fault discards no outcome.**  Let job `j` be in `_active` with entry `e` when nobody uses the
gateway.  (a) Through a poll whose claims find no tracked job due, and through every poll when
`max_inflight` is one, the entry stays as it is whichever calls raise, unless the job's own
`complete`, `defer` or `renew` returned.  (b) Any two undisturbed runs that conclude after the same
calls on the task, with whatever faults in either, leave the row of `j` with the same status,
result, error and attempt. -/
theorem fault_keeps_outcome {cfg : Settings} {s₀ s : Sys} {es₀ : List Event} (h₀ : Init s₀)
    (hs : Lib.exec (step cfg) s₀ es₀ = some s) (hfree : s.pc = .free) {j : Uuid} {e : Active}
    (he : Dict.get? j s.active = some e) :
    (∀ es t, (∀ ev ∈ es, ev.inside = true) →
      (cfg.maxInflight = 1 ∨ Meets (step cfg) TrackedIdle s (.poll :: es)) →
      Lib.exec (step cfg) s (.poll :: es) = some t →
      Dict.get? j t.active = some e ∨ j ∈ trace (step cfg) returned s (.poll :: es)) ∧
    (∀ es es' t t', Keyed s.rows → Concludes cfg j e s es t → Concludes cfg j e s es' t' →
      trace (step cfg) (methodsOf e.task) s es = trace (step cfg) (methodsOf e.task) s es' →
      columns j t.rows = columns j t'.rows) := by
  constructor
  · intro es t hin hC hrun
    have hmeets : Meets (step cfg) TrackedIdle s (.poll :: es) := by
      refine hC.elim (fun hone => ?_) id
      have hpres : ∀ u ev v, Inv cfg u → step cfg u ev = some v → Inv cfg v :=
        fun u ev v hu huv => step_inv (hu.recordsIdle_of_one hone ev) hu huv
      exact meets_of_inv hpres (fun u ev hu => hu.trackedIdle_of_one hone ev)
        (exec_inv hpres (inv_init h₀) hs)
    obtain ⟨m, hm, hrest⟩ := exec_cons.mp hrun
    have hstart : m = { s with pc := .pollExpire } := by
      simpa [step, hfree] using hm.symm
    have hkept : Kept j e m := by
      rw [hstart]
      exact ⟨he, trivial⟩
    rw [trace, hm, Option.elim_some]
    rcases kept_run (hmeets.2 m hm) hin hkept hrest with hr | hk
    · exact .inr (List.mem_append_right _ hr)
    · exact .inl hk.1
  · intro es es' t t' hk hc hc' hms
    exact columns_agree (wf_run h₀ hs) hk hfree he hc hc' hms

/-! ## Runs -/

/-- The claim's answer arrives 95 s late, so the entry counts as fresh when the lease has lapsed. -/
def staleStart : List Event :=
  .submit 7 :: List.replicate 5 (.advance { attempt := 501 }) ++ .tick 95 95 95 ::
    List.replicate 2 (.advance {}) ++ [.tick 26 26 26]

/-- The poll claims the job it tracks; its second claim raises. -/
def stalePoll : List Event :=
  List.replicate 12 (.advance { attempt := 502 }) ++ [.advance { fault := some .before }]

/-- The entry of job 7 now belongs to another attempt, and no call of its own was made. -/
theorem stalePoll_replaces : Init reclaimStart ∧ ∃ s t,
    Lib.exec (step { twoSlots with maxInflight := 3 }) reclaimStart staleStart = some s ∧
    s.pc = .free ∧ Dict.get? 7 s.active = some ⟨0, 501, 95⟩ ∧
    Lib.exec (step { twoSlots with maxInflight := 3 }) s (.poll :: stalePoll) = some t ∧
    t.pc = .free ∧ Dict.get? 7 t.active = some ⟨1, 502, 121⟩ ∧
    7 ∉ trace (step { twoSlots with maxInflight := 3 }) returned s (.poll :: stalePoll) := by
  refine ⟨⟨rfl, rfl, rfl⟩, ?_⟩
  have hview : ((Lib.exec (step { twoSlots with maxInflight := 3 }) reclaimStart staleStart).bind
      fun s => (Lib.exec (step { twoSlots with maxInflight := 3 }) s (.poll :: stalePoll)).map
        fun t => (s.pc, Dict.get? 7 s.active, t.pc, Dict.get? 7 t.active,
          trace (step { twoSlots with maxInflight := 3 }) returned s (.poll :: stalePoll))) =
      some (.free, some ⟨0, 501, 95⟩, .free, some ⟨1, 502, 121⟩, []) := by
    decide +kernel
  obtain ⟨s, hs, ht⟩ := Option.bind_eq_some_iff.mp hview
  obtain ⟨t, ht, hv⟩ := Option.map_eq_some_iff.mp ht
  simp only [Prod.mk.injEq] at hv
  obtain ⟨h1, h2, h3, h4, h5⟩ := hv
  exact ⟨s, t, hs, h1, h2, ht, h3, h4, by simp [h5]⟩

/-- `Undisturbed`, evaluated. -/
def undisturbed (cfg : Settings) (j : Uuid) (e : Active) (s : Sys) (ev : Event) : Bool :=
  ((rowsOf j s.rows).all fun r => decide (s.now < r.deadlineAt) && !r.leaseLapsed s.now) &&
  ((s.made[e.task]?).all fun x => x.task.terminal || !x.task.isExpired s.mono) &&
  ((match ev with
    | .advance _ => s.pc.settling
    | _ => false) ||
  (step cfg s ev).all fun t => decide (rowsOf j t.rows = rowsOf j s.rows))

theorem undisturbed_sound {cfg : Settings} {j : Uuid} {e : Active} {s : Sys} {ev : Event}
    (h : undisturbed cfg j e s ev = true) : Undisturbed cfg j e s ev := by
  simp only [undisturbed, Bool.and_eq_true, List.all_eq_true, Option.all_eq_true, Bool.or_eq_true,
    decide_eq_true_eq, Bool.not_eq_true'] at h
  obtain ⟨⟨hlive, hexp⟩, hrows⟩ := h
  refine ⟨hlive, fun x hx hopen => (hexp x hx).resolve_left (by simp [hopen]), fun hset t ht => ?_⟩
  refine hrows.resolve_left ?_ t ht
  cases ev with
  | advance io => simp [hset io rfl]
  | _ => simp

def oneSlot : Settings := { twoSlots with maxInflight := 1 }

/-- The job is submitted and its task ends. -/
def finishedStart : List Event := submitSteps 501 ++ [.task 0 (.markDone (.str "ok"))]

/-- A poll whose `complete` is applied but raises. -/
def lostAck : List Event :=
  List.replicate 4 (.advance {}) ++ [.advance { fault := some .after }]

/-- A poll that raises nothing. -/
def calmPoll : List Event := List.replicate 9 (.advance {})

/-- The re-issued `complete` finds the row settled: both runs end in the same row. -/
theorem fault_keeps_outcome_lostAck : ∃ s u t t',
    Lib.exec (step oneSlot) reclaimStart finishedStart = some s ∧
    Lib.exec (step oneSlot) s (.poll :: lostAck) = some u ∧
    Lib.exec (step oneSlot) s (.poll :: lostAck ++ .poll :: calmPoll) = some t ∧
    Lib.exec (step oneSlot) s (.poll :: calmPoll) = some t' ∧
    (Dict.get? 7 u.active = some ⟨0, 501, 0⟩ ∨
      7 ∈ trace (step oneSlot) returned s (.poll :: lostAck)) ∧
    columns 7 t.rows = columns 7 t'.rows ∧
    columns 7 t.rows = [(.succeeded, some (.str "ok"), none, some 501)] := by
  have hview : ((Lib.exec (step oneSlot) reclaimStart finishedStart).bind fun s =>
      (Lib.exec (step oneSlot) s (.poll :: lostAck)).bind fun u =>
      (Lib.exec (step oneSlot) s (.poll :: lostAck ++ .poll :: calmPoll)).bind fun t =>
      (Lib.exec (step oneSlot) s (.poll :: calmPoll)).map fun t' =>
        ([s.pc, t.pc, t'.pc], Dict.get? 7 s.active, s.rows.map Row.jobId,
          checks (step oneSlot) (undisturbed oneSlot 7 ⟨0, 501, 0⟩) s
            (.poll :: lostAck ++ .poll :: calmPoll) &&
          checks (step oneSlot) (undisturbed oneSlot 7 ⟨0, 501, 0⟩) s (.poll :: calmPoll))) =
      some ([.free, .free, .free], some ⟨0, 501, 0⟩, [7], true) := by
    decide +kernel
  have hcols : ((Lib.exec (step oneSlot) reclaimStart finishedStart).bind fun s =>
      (Lib.exec (step oneSlot) s (.poll :: lostAck ++ .poll :: calmPoll)).map fun t =>
        columns 7 t.rows) = some [(.succeeded, some (.str "ok"), none, some 501)] := by
    decide +kernel
  obtain ⟨s, hs, hview⟩ := Option.bind_eq_some_iff.mp hview
  obtain ⟨u, hu, hview⟩ := Option.bind_eq_some_iff.mp hview
  obtain ⟨t, ht, hview⟩ := Option.bind_eq_some_iff.mp hview
  obtain ⟨t', ht', hv⟩ := Option.map_eq_some_iff.mp hview
  simp only [Prod.mk.injEq, Bool.and_eq_true, List.cons.injEq] at hv
  obtain ⟨⟨hfree, htf, htf', -⟩, he, hjobs, hun, hun'⟩ := hv
  rw [hs, Option.bind_some, ht, Option.map_some, Option.some.injEq] at hcols
  have hkeyed : Keyed s.rows := by rw [Keyed, hjobs]; exact List.nodup_singleton 7
  have hc : Concludes oneSlot 7 ⟨0, 501, 0⟩ s (.poll :: lostAck ++ .poll :: calmPoll) t :=
    ⟨ht, meets_of_checks (fun _ _ => undisturbed_sound) hun, ⟨_, _, rfl, by decide⟩, htf⟩
  have hc' : Concludes oneSlot 7 ⟨0, 501, 0⟩ s (.poll :: calmPoll) t' :=
    ⟨ht', meets_of_checks (fun _ _ => undisturbed_sound) hun', ⟨[], _, rfl, by decide⟩, htf'⟩
  have hnone : ∀ ev ∈ .poll :: lostAck ++ .poll :: calmPoll, ∀ u, methodsOf 0 u ev = [] := by
    simp [lostAck, calmPoll, methodsOf]
  have hnone' : ∀ ev ∈ .poll :: calmPoll, ∀ u, methodsOf 0 u ev = [] := by
    simp [calmPoll, methodsOf]
  obtain ⟨h1, h2⟩ := fault_keeps_outcome ⟨rfl, rfl, rfl⟩ hs hfree he
  exact ⟨s, u, t, t', hs, hu, ht, ht', h1 lostAck u (by decide) (.inl rfl) hu,
    h2 _ _ t t' hkeyed hc hc' (by rw [trace_eq_nil hnone s, trace_eq_nil hnone' s]), hcols⟩

end Inference.JobGateway
