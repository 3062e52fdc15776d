import Inference.JobStore
import Inference.Lib.Run

/-!
# Inference.RowInvariant — what every row of `synthx.inference_jobs` looks like

The five statements of `JobStore` each set a different subset of the columns.  A run is a list of
inserts and calls with nondecreasing `now()`, in any order and with any arguments; `complete` is
called with a result or with an error, as the gateway does.

* `Row.WellFormed`: which columns may be NULL in which status.
* `Row.SameJob`: the columns no statement sets.
* `row_invariant`: every row of every run is well formed, counts its claims and keeps its job.
-/

namespace Inference.JobStore

open Inference.Lib

/-- A row as it is inserted, with every column the statements set still at its default. -/
def Row.Untouched (r : Row) : Prop :=
  r.status = .queued ∧ r.leaseUntil = none ∧ r.attemptId = none ∧ r.result = none ∧
    r.error = none ∧ r.attempts = 0

instance (r : Row) : Decidable r.Untouched := inferInstanceAs (Decidable (_ ∧ _ ∧ _ ∧ _ ∧ _ ∧ _))

/-- Not both a result and an error. -/
def Op.oneOutcome : Op → Bool
  | .complete _ _ result error => result.isNone || error.isNone
  | _ => true

/-- The table and the last `now()`. -/
structure Table where
  rows : List Row
  now : ℤ
deriving DecidableEq, Repr

inductive Write where
  | insert (r : Row)
  | call (now : ℤ) (op : Op)
deriving DecidableEq, Repr

def Table.step (s : Table) : Write → Option Table
  | .insert r =>
    if r.Untouched ∧ r.jobId ∉ s.rows.map Row.jobId then some { s with rows := s.rows ++ [r] }
    else none
  | .call now op =>
    if s.now ≤ now ∧ op.oneOutcome = true then some ⟨(exec s.rows now op).1, now⟩ else none

/-- The job whose row the call claimed. -/
def Table.claimed (s : Table) : Write → List Uuid
  | .insert _ => []
  | .call now op => match (exec s.rows now op).2 with
    | .row (some r) => [r.jobId]
    | _ => []

/-! ## One row -/

/-- Which columns are NULL in which status. -/
structure Row.WellFormed (r : Row) : Prop where
  running : r.status = .running ↔ r.leaseUntil ≠ none
  lease : ∀ l, r.leaseUntil = some l → l ≤ r.deadlineAt
  attempt : r.status = .running → r.attemptId ≠ none
  result : r.status ≠ .succeeded → r.result = none
  succeeded : r.status = .succeeded → r.error = none
  failed : r.status = .failed → r.error ≠ none

/-- The two rows are of one job with one deadline and one spec. -/
structure Row.SameJob (r x : Row) : Prop where
  jobId : r.jobId = x.jobId
  deadlineAt : r.deadlineAt = x.deadlineAt
  spec : r.spec = x.spec
  specSha256 : r.specSha256 = x.specSha256

theorem Row.SameJob.refl (r : Row) : r.SameJob r := ⟨rfl, rfl, rfl, rfl⟩

theorem Row.SameJob.trans {a b c : Row} (h : a.SameJob b) (h' : b.SameJob c) : a.SameJob c :=
  ⟨h.jobId.trans h'.jobId, h.deadlineAt.trans h'.deadlineAt, h.spec.trans h'.spec,
    h.specSha256.trans h'.specSha256⟩

theorem Row.Untouched.wellFormed {r : Row} (h : r.Untouched) : r.WellFormed := by
  obtain ⟨hs, hl, -, hr, -, -⟩ := h
  refine ⟨by simp [hs, hl], by simp [hl], by simp [hs], fun _ => hr, by simp [hs], by simp [hs]⟩

theorem Row.WellFormed.claimed {r : Row} (h : r.WellFormed) (now lease : ℤ) (a : Uuid)
    (hr : r.status ≠ .succeeded) : (r.claimed now lease a).WellFormed where
  running := by simp [Row.claimed]
  lease := by
    intro l hl
    obtain rfl := Option.some.inj hl
    exact min_le_right _ _
  attempt := by simp [Row.claimed]
  result := fun _ => h.result hr
  succeeded := by simp [Row.claimed]
  failed := by simp [Row.claimed]

theorem Row.WellFormed.renewed {r : Row} (h : r.WellFormed) (now lease : ℤ)
    (hr : r.status = .running) : (r.renewed now lease).WellFormed where
  running := by simp [Row.renewed, hr]
  lease := by
    intro l hl
    obtain rfl := Option.some.inj hl
    exact min_le_right _ _
  attempt := h.attempt
  result := h.result
  succeeded := h.succeeded
  failed := h.failed

/-- `complete` with one outcome clears the stale error of a deferred attempt. -/
theorem Row.completed_wellFormed (r : Row) (now : ℤ) {result error : Option Json}
    (hone : result = none ∨ error = none) : (r.completed now result error).WellFormed := by
  cases error with
  | none => exact ⟨by simp [Row.completed], by simp [Row.completed], by simp [Row.completed],
      by simp [Row.completed], by simp [Row.completed], by simp [Row.completed]⟩
  | some e =>
    obtain rfl : result = none := by simpa using hone
    exact ⟨by simp [Row.completed], by simp [Row.completed], by simp [Row.completed],
      by simp [Row.completed], by simp [Row.completed], by simp [Row.completed]⟩

theorem Row.WellFormed.deferred {r : Row} (h : r.WellFormed) (now retry : ℤ) (error : Json)
    (hr : r.status = .running) : (r.deferred now retry error).WellFormed where
  running := by simp [Row.deferred]
  lease := by simp [Row.deferred]
  attempt := by simp [Row.deferred]
  result := fun _ => h.result (by simp [hr])
  succeeded := by simp [Row.deferred]
  failed := by simp [Row.deferred]

theorem Row.WellFormed.expired {r : Row} (h : r.WellFormed) (now : ℤ)
    (hr : r.status ≠ .succeeded) : (r.expired now).WellFormed where
  running := by simp [Row.expired]
  lease := by simp [Row.expired]
  attempt := by simp [Row.expired]
  result := fun _ => h.result hr
  succeeded := by simp [Row.expired]
  failed := by simp [Row.expired]

section Statement
variable {rows : List Row} {now : ℤ} {op : Op} {r : Row}

theorem not_succeeded_of_due {job : Option Uuid} (h : due now job r = true) :
    r.status ≠ .succeeded := by
  intro hs
  simp [due, hs] at h

theorem running_of_fenced {job a : Uuid} (h : fenced now job a r = true) :
    r.status = .running := by
  simp only [fenced, Bool.and_eq_true, beq_iff_eq] at h
  exact h.1.1.2

theorem not_succeeded_of_overdue (h : overdue now r = true) : r.status ≠ .succeeded := by
  intro hs
  simp [overdue, hs] at h

theorem onRow_wellFormed (hk : Keyed rows) (hr : r ∈ rows) (hone : op.oneOutcome = true)
    (h : r.WellFormed) : (onRow rows now op r).WellFormed := by
  rcases onRow_cases hk now op hr with hu | ⟨job, lease, a, locked, -, hd, hu, -⟩ |
    ⟨a, lease, -, hf, hu, -⟩ | ⟨a, res, err, rfl, -, hu, -⟩ | ⟨a, err, retry, -, hf, hu, -⟩ |
    ⟨-, ho, hu⟩ <;> rw [hu]
  · exact h
  · exact h.claimed now lease a (not_succeeded_of_due hd)
  · exact h.renewed now lease (running_of_fenced hf)
  · exact r.completed_wellFormed now (by simpa [Op.oneOutcome] using hone)
  · exact h.deferred now retry err (running_of_fenced hf)
  · exact h.expired now (not_succeeded_of_overdue ho)

theorem onRow_sameJob (hk : Keyed rows) (hr : r ∈ rows) : (onRow rows now op r).SameJob r := by
  rcases onRow_cases hk now op hr with hu | ⟨job, lease, a, locked, -, -, hu, -⟩ |
    ⟨a, lease, -, -, hu, -⟩ | ⟨a, res, err, -, -, hu, -⟩ | ⟨a, err, retry, -, -, hu, -⟩ |
    ⟨-, -, hu⟩ <;> rw [hu] <;> exact ⟨rfl, rfl, rfl, rfl⟩

/-- Only a claim of the row counts an attempt, and it returns that row. -/
theorem onRow_attempts (t : ℤ) :
    (onRow rows now op r).attempts =
      r.attempts + ((⟨rows, t⟩ : Table).claimed (.call now op)).count r.jobId := by
  cases op with
  | claim job lease a locked =>
    simp only [Table.claimed, exec, resp, onRow]
    cases hc : candidate rows now job locked with
    | none => simp
    | some c =>
      by_cases hj : r.jobId = c.jobId
      · simp [Row.claimed, hj]
      · simp [Row.claimed, hj, Ne.symm hj]
  | renew job a lease => simp only [onRow]; split <;> rfl
  | complete job a res err => simp only [onRow]; split <;> rfl
  | defer job a err retry => simp only [onRow]; split <;> rfl
  | expireDeadlines => simp only [onRow]; split <;> rfl

end Statement

/-! ## Runs -/

/-- The rows are well formed and count the claims made so far; a job that is not in the table was
never claimed. -/
structure Table.Inv (s : Table) (claims : List Uuid) : Prop where
  keyed : Keyed s.rows
  wellFormed : ∀ r ∈ s.rows, r.WellFormed
  attempts : ∀ r ∈ s.rows, r.attempts = claims.count r.jobId
  absent : ∀ j, j ∉ s.rows.map Row.jobId → claims.count j = 0

theorem Table.claimed_mem {s : Table} {w : Write} {j : Uuid} (h : j ∈ s.claimed w) :
    j ∈ s.rows.map Row.jobId := by
  cases w with
  | insert r => simp [Table.claimed] at h
  | call now op =>
    cases op with
    | claim job lease a locked =>
      simp only [Table.claimed, exec, resp] at h
      cases hc : candidate s.rows now job locked with
      | none => simp [hc] at h
      | some c =>
        simp only [hc, Option.map_some, List.mem_singleton] at h
        exact List.mem_map.mpr ⟨c, (candidate_mem hc).1, h.symm⟩
    | _ => simp [Table.claimed, exec, resp] at h

/-- **Step lemma.** -/
theorem Table.step_inv {s t : Table} {w : Write} {claims : List Uuid} (h : s.Inv claims)
    (hs : s.step w = some t) : t.Inv (claims ++ s.claimed w) := by
  cases w with
  | insert r =>
    simp only [Table.step] at hs
    split at hs
    case isFalse => simp at hs
    rename_i hg
    obtain rfl := Option.some.inj hs
    simp only [Table.claimed, List.append_nil]
    refine ⟨?_, ?_, ?_, ?_⟩
    · have hk : (s.rows.map Row.jobId).Nodup := h.keyed
      simpa [Keyed, List.nodup_append, hk] using hg.2
    · intro x hx
      rcases List.mem_append.mp hx with hx | hx
      · exact h.wellFormed x hx
      · rw [List.mem_singleton.mp hx]
        exact hg.1.wellFormed
    · intro x hx
      rcases List.mem_append.mp hx with hx | hx
      · exact h.attempts x hx
      · rw [List.mem_singleton.mp hx, h.absent r.jobId hg.2]
        exact hg.1.2.2.2.2.2
    · intro j hj
      refine h.absent j fun hmem => hj ?_
      rw [List.map_append]
      exact List.mem_append_left _ hmem
  | call now op =>
    simp only [Table.step] at hs
    split at hs
    case isFalse => simp at hs
    rename_i hg
    obtain rfl := Option.some.inj hs
    have hids : (exec s.rows now op).1.map Row.jobId = s.rows.map Row.jobId := by
      simp [exec, Function.comp_def]
    refine ⟨keyed_exec h.keyed, ?_, ?_, ?_⟩
    · intro x hx
      obtain ⟨r, hr, rfl⟩ := List.mem_map.mp hx
      exact onRow_wellFormed h.keyed hr hg.2 (h.wellFormed r hr)
    · intro x hx
      obtain ⟨r, hr, rfl⟩ := List.mem_map.mp hx
      rw [onRow_attempts s.now, onRow_jobId, List.count_append, h.attempts r hr]
    · intro j hj
      rw [hids] at hj
      rw [List.count_append, h.absent j hj, List.count_eq_zero.mpr fun hm => hj (claimed_mem hm)]

/-- Every row goes on as a row of the same job. -/
def Table.Extends (s t : Table) : Prop := ∀ r ∈ s.rows, ∃ x ∈ t.rows, x.SameJob r

theorem Table.step_extends {s t : Table} {w : Write} (hk : Keyed s.rows)
    (hs : s.step w = some t) : s.Extends t := by
  intro r hr
  cases w with
  | insert x =>
    simp only [Table.step] at hs
    split at hs
    case isFalse => simp at hs
    obtain rfl := Option.some.inj hs
    exact ⟨r, List.mem_append_left _ hr, .refl r⟩
  | call now op =>
    simp only [Table.step] at hs
    split at hs
    case isFalse => simp at hs
    obtain rfl := Option.some.inj hs
    exact ⟨_, List.mem_map_of_mem hr, onRow_sameJob hk hr⟩

/-- A table of untouched rows. -/
def Table.Init (s : Table) : Prop := Keyed s.rows ∧ ∀ r ∈ s.rows, r.Untouched

/-- The jobs claimed along a run, one entry per claim that returned a row. -/
def Table.claims (s : Table) (ws : List Write) : List Uuid := trace Table.step Table.claimed s ws

theorem Table.run_inv {s₀ s : Table} {ws : List Write} (h₀ : s₀.Init)
    (h : Lib.exec Table.step s₀ ws = some s) : s.Inv (s₀.claims ws) := by
  have hinit : s₀.Inv [] :=
    ⟨h₀.1, fun r hr => (h₀.2 r hr).wellFormed, fun r hr => (h₀.2 r hr).2.2.2.2.2, fun _ _ => rfl⟩
  have hfree : Meets Table.step (fun _ _ => True) s₀ ws :=
    meets_of_forall (fun _ _ _ => trivial) s₀
  have hrun : s.Inv ([] ++ trace Table.step Table.claimed s₀ ws) :=
    exec_trace (P := Table.Inv) (fun _ _ _ _ _ hi hs => Table.step_inv hi hs) hfree h hinit
  simpa [Table.claims] using hrun

/-- **Job row invariant.**  In every run from untouched rows a row is running exactly when it has
a lease, which then ends by the deadline and belongs to an attempt; `attempts` counts the
successful claims of the job; there is a result only in a succeeded row, no error in a succeeded
one and always one in a failed one; and a row keeps its deadline and its spec. -/
theorem row_invariant {s₀ s : Table} {ws : List Write} (h₀ : s₀.Init)
    (h : Lib.exec Table.step s₀ ws = some s) :
    (∀ r ∈ s.rows,
      (r.status = .running ↔ r.leaseUntil ≠ none) ∧
      (r.status = .running →
        (∃ l, r.leaseUntil = some l ∧ l ≤ r.deadlineAt) ∧ r.attemptId ≠ none) ∧
      r.attempts = (s₀.claims ws).count r.jobId ∧
      (r.status ≠ .succeeded → r.result = none) ∧
      (r.status = .succeeded → r.error = none) ∧
      (r.status = .failed → r.error ≠ none)) ∧
    ∀ ws₁ ws₂ m, ws = ws₁ ++ ws₂ → Lib.exec Table.step s₀ ws₁ = some m →
      ∀ r ∈ m.rows, ∃ x ∈ s.rows, x.jobId = r.jobId ∧ x.deadlineAt = r.deadlineAt ∧
        x.spec = r.spec ∧ x.specSha256 = r.specSha256 := by
  have hinv := Table.run_inv h₀ h
  constructor
  · intro r hr
    have hw := hinv.wellFormed r hr
    refine ⟨hw.running, fun hs => ⟨?_, hw.attempt hs⟩, hinv.attempts r hr, hw.result,
      hw.succeeded, hw.failed⟩
    obtain ⟨l, hl⟩ := Option.ne_none_iff_exists'.mp (hw.running.mp hs)
    exact ⟨l, hl, hw.lease l hl⟩
  · rintro ws₁ ws₂ m rfl hm r hr
    obtain ⟨m', hm', hrest⟩ := exec_append.mp h
    obtain rfl : m' = m := Option.some.inj (hm'.symm.trans hm)
    have hext : m'.Extends s :=
      exec_rel (P := fun a => ∃ claims, a.Inv claims) (fun _ r hr => ⟨r, hr, .refl r⟩)
        (fun _ _ _ hab hbc r hr => by
          obtain ⟨x, hx, hxr⟩ := hab r hr
          obtain ⟨y, hy, hyx⟩ := hbc x hx
          exact ⟨y, hy, hyx.trans hxr⟩)
        (fun _ _ _ ⟨_, hi⟩ hs => ⟨_, Table.step_inv hi hs⟩)
        (fun _ _ _ ⟨_, hi⟩ hs => Table.step_extends hi.keyed hs) ⟨_, Table.run_inv h₀ hm'⟩ hrest
    obtain ⟨x, hx, hxr⟩ := hext r hr
    exact ⟨x, hx, hxr.jobId, hxr.deadlineAt, hxr.spec, hxr.specSha256⟩

/-- A job deferred once, claimed again with the stale error still in its row, and completed. -/
def deferredRun : List Write :=
  [.insert { jobId := 7, projectId := "p", userId := "u", model := "v7_3_full", spec := .obj [],
             specSha256 := "f", status := .queued, attemptId := none, attempts := 0,
             leaseUntil := none, nextAttemptAt := 0, deadlineAt := 100, result := none,
             error := none, snapshotId := none, createdAt := 0, updatedAt := 0 },
   .call 1 (.claim none 10 501 []), .call 2 (.defer 7 501 (.str "overloaded") 5),
   .call 9 (.claim none 200 502 []), .call 9 (.renew 7 502 400),
   .call 10 (.complete 7 502 (some .null) none)]

theorem row_invariant_deferredRun :
    ∃ s, Lib.exec Table.step ⟨[], 0⟩ deferredRun = some s ∧
      s.rows.map (fun r => (r.status, r.attempts, r.result, r.error)) =
        [(.succeeded, 2, some .null, none)] ∧
      ∀ r ∈ s.rows, r.attempts = ((⟨[], 0⟩ : Table).claims deferredRun).count r.jobId := by
  have hview : (Lib.exec Table.step ⟨[], 0⟩ deferredRun).map (fun s =>
      s.rows.map fun r => (r.status, r.attempts, r.result, r.error)) =
      some [(.succeeded, 2, some .null, none)] := rfl
  obtain ⟨s, hs, hv⟩ := Option.map_eq_some_iff.mp hview
  have hinit : Table.Init ⟨[], 0⟩ := ⟨List.nodup_nil, by simp⟩
  exact ⟨s, hs, hv, fun r hr => ((row_invariant hinit hs).1 r hr).2.2.1⟩

end Inference.JobStore
