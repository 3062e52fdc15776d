import Inference.JobStore
import Inference.Lib.Run

/-!
# Inference.LeaseFencing — lease fencing of durable jobs over whole runs

Any number of gateways issue `JobStore` statements against one table; the backend inserts new
rows.  A run is a list of such events with nondecreasing `now()` and a fresh UUID per claim.  The
log (newest entry first) records every statement with the tables around it and its answer.

* `held j a log`: the lease that attempt `a` of job `j` holds according to the log alone: the last
  one written for it by its claim or a renewal, unless its own `complete` or `defer` or the
  deadline sweep gave it up since.
* `Inv`: the table agrees with the log.  A running row carries the attempt of the newest claim of
  its job (`current`); every other lease still held has lapsed (`held`).
* `lease_fencing`: at most one successful completion per job, fenced calls succeed only for the
  newest attempt with an unbroken lease, leases of one job never overlap, terminal rows are final.
-/

namespace Inference.JobStore

open Inference.Lib

/-- One executed statement. -/
structure Entry where
  before : List Row
  after : List Row
  now : ℤ
  op : Op
  resp : Resp
deriving DecidableEq, Repr

/-- The table, the last `now()`, the UUIDs drawn so far and the log, newest entry first. -/
structure Sys where
  rows : List Row
  now : ℤ
  drawn : List Uuid
  log : List Entry
deriving DecidableEq, Repr

inductive Event where
  | insert (r : Row)
  | call (now : ℤ) (op : Op)
deriving DecidableEq, Repr

instance (r : Row) : Decidable r.Inserted := inferInstanceAs (Decidable (_ ∧ _ ∧ _))

/-- The UUID a call draws. -/
def Op.draws : Op → List Uuid
  | .claim _ _ attempt _ => [attempt]
  | _ => []

def step (s : Sys) : Event → Option Sys
  | .insert r =>
    if r.Inserted ∧ r.jobId ∉ s.rows.map Row.jobId then some { s with rows := s.rows ++ [r] }
    else none
  | .call now op =>
    if s.now ≤ now ∧ ∀ a ∈ op.draws, a ∉ s.drawn then
      some { rows := (exec s.rows now op).1, now := now, drawn := op.draws ++ s.drawn,
             log := ⟨s.rows, (exec s.rows now op).1, now, op, (exec s.rows now op).2⟩ :: s.log }
    else none

/-- A table of freshly inserted rows and an empty log. -/
def Init (s : Sys) : Prop := Keyed s.rows ∧ (∀ r ∈ s.rows, r.Inserted) ∧ s.log = []

/-! ## Reading the log -/

/-- The entry is a claim of job `j` that returned a row, with attempt `a`. -/
def Entry.Claims (e : Entry) (j a : Uuid) : Prop :=
  ∃ job lease locked r, e.op = .claim job lease a locked ∧ e.resp = .row (some r) ∧ r.jobId = j

/-- The entry is a renewal, a completion or a deferral by attempt `a` of job `j`. -/
def Entry.FencedCall (e : Entry) (j a : Uuid) : Prop :=
  (∃ lease, e.op = .renew j a lease) ∨ (∃ res err, e.op = .complete j a res err) ∨
    ∃ err retry, e.op = .defer j a err retry

/-- The entry is a completion of job `j` that returned `True`. -/
def Entry.completes (j : Uuid) (e : Entry) : Bool :=
  match e.op, e.resp with
  | .complete job _ _ _, .bool b => job == j && b
  | _, _ => false

/-- The entry writes a lease for attempt `a` of job `j`. -/
def Entry.grants (e : Entry) (j a : Uuid) : Bool :=
  match e.op, e.resp with
  | .claim _ _ attempt _, .row (some r) => r.jobId == j && attempt == a
  | .renew job attempt _, .bool b => b && job == j && attempt == a
  | _, _ => false

/-- The entry gives up the lease of attempt `a` of job `j`. -/
def Entry.drops (e : Entry) (j a : Uuid) : Bool :=
  match e.op, e.resp with
  | .complete job attempt _ _, .bool b => b && job == j && attempt == a
  | .defer job attempt _ _, .bool b => b && job == j && attempt == a
  | .expireDeadlines, _ => e.before.any fun r => r.jobId == j && overdue e.now r
  | _, _ => false

/-- The `lease_until` column of job `j`. -/
def leaseColumn (rows : List Row) (j : Uuid) : Option ℤ :=
  (rows.find? fun r => r.jobId == j).bind Row.leaseUntil

/-- The lease attempt `a` of job `j` holds according to the log. -/
def held (j a : Uuid) : List Entry → Option ℤ
  | [] => none
  | e :: older =>
    if e.grants j a then leaseColumn e.after j
    else if e.drops j a then none
    else held j a older

/-- At instant `τ` the table shows attempt `a` of job `j` running under a live lease. -/
def LiveAt (rows : List Row) (j a : Uuid) (τ : ℤ) : Prop :=
  ∃ r ∈ rows, r.jobId = j ∧ r.status = .running ∧ r.attemptId = some a ∧ r.leaseLive τ = true

/-- `a` is the attempt of the newest claim of `j` in `log`, and its lease was live at every
instant up to each entry since: between two statements the lease in force is the one the later
statement finds. -/
def Unbroken (j a : Uuid) (log : List Entry) (newer : List Entry) : Prop :=
  ∃ mid c older, log = mid ++ c :: older ∧ c.Claims j a ∧ (∀ y ∈ mid, ∀ b, ¬ y.Claims j b) ∧
    ∀ y ∈ newer ++ mid, ∀ τ ≤ y.now, LiveAt y.before j a τ

theorem LiveAt.mono {rows : List Row} {j a : Uuid} {τ τ' : ℤ} (h : LiveAt rows j a τ)
    (hle : τ' ≤ τ) : LiveAt rows j a τ' := by
  obtain ⟨r, hr, h1, h2, h3, h4⟩ := h
  refine ⟨r, hr, h1, h2, h3, ?_⟩
  unfold Row.leaseLive at h4 ⊢
  split at h4
  · simp only [decide_eq_true_eq] at h4 ⊢; omega
  · simp at h4

theorem leaseColumn_of_mem {rows : List Row} (hk : Keyed rows) {r : Row} (hr : r ∈ rows) :
    leaseColumn rows r.jobId = r.leaseUntil := by
  cases hf : rows.find? (fun x => x.jobId == r.jobId) with
  | none =>
    have := List.find?_eq_none.mp hf r hr
    simp at this
  | some x =>
    have hx : x.jobId = r.jobId := by simpa using List.find?_some hf
    obtain rfl := hk.eq_of_jobId (List.mem_of_find?_eq_some hf) hr hx
    simp [leaseColumn, hf]

/-! ## Guards of one statement -/

theorem fenced_iff {now : ℤ} {j a : Uuid} {r : Row} :
    fenced now j a r = true ↔ r.jobId = j ∧ r.attemptId = some a ∧ r.status = .running ∧
      r.leaseLive now = true ∧ now < r.deadlineAt := by
  simp [fenced, and_assoc]

theorem leaseLive_iff {r : Row} {now : ℤ} :
    r.leaseLive now = true ↔ ∃ l, r.leaseUntil = some l ∧ now < l := by
  unfold Row.leaseLive
  cases r.leaseUntil <;> simp

/-- A claim that returns a row of job `j` found that row due and rewrote it. -/
theorem claim_spec {rows : List Row} {now : ℤ} {job : Option Uuid}
    {lease : ℤ} {a : Uuid} {locked : List Uuid} {x : Row}
    (h : resp rows now (.claim job lease a locked) = .row (some x)) :
    ∃ c ∈ rows, due now job c ∧ x = c.claimed now lease a ∧
      onRow rows now (.claim job lease a locked) c = c.claimed now lease a := by
  simp only [resp, Resp.row.injEq, Option.map_eq_some_iff] at h
  obtain ⟨c, hc, rfl⟩ := h
  obtain ⟨hm, hd⟩ := candidate_mem hc
  exact ⟨c, hm, hd, rfl, by simp only [onRow, hc, if_true]⟩

/-- A row a claim leaves as it was is not the one it returned. -/
theorem not_claims_of_unchanged {rows : List Row} (hk : Keyed rows) {now : ℤ} {op : Op}
    {r : Row} (hr : r ∈ rows) (hu : onRow rows now op r = r) (b : Uuid) :
    ¬ (⟨rows, (exec rows now op).1, now, op, (exec rows now op).2⟩ : Entry).Claims r.jobId b := by
  rintro ⟨job, lease, locked, x, hop, hresp, hj⟩
  simp only at hop
  subst hop
  obtain ⟨c, hc, -, rfl, hon⟩ := claim_spec hresp
  obtain rfl := hk.eq_of_jobId hc hr hj
  rw [hu] at hon
  have := congrArg Row.attempts hon
  simp [Row.claimed] at this

/-! ## The invariant -/

/-- The table agrees with the log. -/
structure Inv (s : Sys) : Prop where
  keyed : Keyed s.rows
  /-- Only running rows carry a lease. -/
  idle : ∀ r ∈ s.rows, r.status ≠ .running → r.leaseUntil = none
  /-- A running row belongs to the newest claim; its lease has been live since, or has lapsed. -/
  current : ∀ r ∈ s.rows, r.status = .running → ∃ a l mid c older, r.attemptId = some a ∧
    r.leaseUntil = some l ∧ s.log = mid ++ c :: older ∧ c.Claims r.jobId a ∧
    (∀ y ∈ mid, ∀ b, ¬ y.Claims r.jobId b) ∧
    ((∀ y ∈ mid, LiveAt y.before r.jobId a y.now) ∨ l ≤ s.now)
  /-- A lease the log still shows is the one in the table, or it has lapsed. -/
  held : ∀ j a l, held j a s.log = some l → l ≤ s.now ∨ ∃ r ∈ s.rows, r.jobId = j ∧
    r.status = .running ∧ r.attemptId = some a ∧ r.leaseUntil = some l
  /-- A completed job is terminal and was completed once. -/
  once : ∀ j, (s.log.filter (Entry.completes j)).length = 0 ∨
    ((s.log.filter (Entry.completes j)).length = 1 ∧ ∃ r ∈ s.rows, r.jobId = j ∧ r.terminal = true)

theorem inv_init {s : Sys} (h : Init s) : Inv s := by
  obtain ⟨hk, hi, hl⟩ := h
  refine ⟨hk, fun r hr _ => (hi r hr).2.1, fun r hr hrun => ?_, ?_, ?_⟩
  · rw [(hi r hr).1] at hrun
    simp at hrun
  · intro j a l h
    simp [hl, JobStore.held] at h
  · intro j
    simp [hl]

/-- Insertion only adds a queued row. -/
theorem inv_insert {s : Sys} {r : Row} (h : Inv s) (hr : r.Inserted)
    (hn : r.jobId ∉ s.rows.map Row.jobId) : Inv { s with rows := s.rows ++ [r] } := by
  refine ⟨?_, ?_, ?_, ?_, ?_⟩
  · simp only [Keyed, List.map_append, List.map_cons, List.map_nil]
    exact List.nodup_append.mpr ⟨h.keyed, by simp, fun x hx y hy => by
      simp only [List.mem_singleton] at hy
      rintro rfl
      exact hn (hy ▸ hx)⟩
  · intro x hx
    rcases List.mem_append.mp hx with hx | hx
    · exact h.idle x hx
    · simp only [List.mem_singleton] at hx
      exact fun _ => hx ▸ hr.2.1
  · intro x hx hrun
    rcases List.mem_append.mp hx with hx | hx
    · exact h.current x hx hrun
    · simp only [List.mem_singleton] at hx
      rw [hx, hr.1] at hrun
      simp at hrun
  · intro j a l hh
    rcases h.held j a l hh with hl | ⟨x, hx, hrest⟩
    · exact .inl hl
    · exact .inr ⟨x, List.mem_append_left _ hx, hrest⟩
  · intro j
    rcases h.once j with h0 | ⟨h1, x, hx, hrest⟩
    · exact .inl h0
    · exact .inr ⟨h1, x, List.mem_append_left _ hx, hrest⟩

section Statement

variable {s : Sys} {now : ℤ} {op : Op}

/-- The entry a statement adds to the log of `s`. -/
def entryOf (s : Sys) (now : ℤ) (op : Op) : Entry :=
  ⟨s.rows, (exec s.rows now op).1, now, op, (exec s.rows now op).2⟩

theorem idle_exec (h : Inv s) :
    ∀ r ∈ (exec s.rows now op).1, r.status ≠ .running → r.leaseUntil = none := by
  intro x hx hs
  obtain ⟨r, hr, rfl⟩ := List.mem_map.mp hx
  rcases onRow_cases h.keyed now op hr with hu | ⟨job, lease, a, locked, -, hd, hu, -⟩ |
    ⟨a, lease, -, hf, hu, -⟩ | ⟨a, res, err, -, hf, hu, -⟩ | ⟨a, err, retry, -, hf, hu, -⟩ |
    ⟨-, ho, hu⟩
  · rw [hu] at hs ⊢
    exact h.idle r hr hs
  · rw [hu] at hs
    simp [Row.claimed] at hs
  · rw [hu] at hs
    exact absurd (fenced_iff.mp hf).2.2.1 hs
  · rw [hu]; rfl
  · rw [hu]; rfl
  · rw [hu]; rfl

theorem current_exec (h : Inv s) (hnow : s.now ≤ now) :
    ∀ r ∈ (exec s.rows now op).1, r.status = .running → ∃ a l mid c older, r.attemptId = some a ∧
      r.leaseUntil = some l ∧ entryOf s now op :: s.log = mid ++ c :: older ∧
      c.Claims r.jobId a ∧ (∀ y ∈ mid, ∀ b, ¬ y.Claims r.jobId b) ∧
      ((∀ y ∈ mid, LiveAt y.before r.jobId a y.now) ∨ l ≤ now) := by
  intro x hx hs
  obtain ⟨r, hr, rfl⟩ := List.mem_map.mp hx
  rcases onRow_cases h.keyed now op hr with hu | ⟨job, lease, a, locked, hop, hd, hu, hresp⟩ |
    ⟨a, lease, hop, hf, hu, -⟩ | ⟨a, res, err, -, hf, hu, -⟩ | ⟨a, err, retry, -, hf, hu, -⟩ |
    ⟨-, ho, hu⟩
  · -- untouched: the new entry is no claim of this job and finds the old lease
    rw [hu] at hs ⊢
    obtain ⟨a, l, mid, c, older, ha, hl, hlog, hc, hmid, hlive⟩ := h.current r hr hs
    refine ⟨a, l, entryOf s now op :: mid, c, older, ha, hl, by rw [hlog]; rfl, hc, ?_, ?_⟩
    · rintro y hy b
      rcases List.mem_cons.mp hy with rfl | hy
      · exact not_claims_of_unchanged h.keyed hr hu b
      · exact hmid y hy b
    · by_cases hlapsed : l ≤ now
      · exact .inr hlapsed
      · refine .inl fun y hy => ?_
        rcases List.mem_cons.mp hy with rfl | hy
        · exact ⟨r, hr, rfl, hs, ha, leaseLive_iff.mpr ⟨l, hl, by simp only [entryOf]; omega⟩⟩
        · exact hlive.resolve_right (by omega) y hy
  · -- claimed: the new entry is the newest claim
    rw [hu]
    refine ⟨a, _, [], entryOf s now op, s.log, rfl, rfl, rfl, ?_, by simp, .inl (by simp)⟩
    exact ⟨job, lease, locked, _, hop, hresp, rfl⟩
  · -- renewed: the fence found the old lease live
    rw [hu]
    obtain ⟨-, hfa, hrun, hlive, -⟩ := fenced_iff.mp hf
    obtain ⟨a', l, mid, c, older, ha, hl, hlog, hc, hmid, hgap⟩ := h.current r hr hrun
    obtain rfl : a' = a := by rw [ha] at hfa; exact Option.some.inj hfa
    obtain ⟨l', hl', hlt⟩ := leaseLive_iff.mp hlive
    obtain rfl : l = l' := by rw [hl] at hl'; exact Option.some.inj hl'
    refine ⟨a', _, entryOf s now op :: mid, c, older, ha, rfl, by rw [hlog]; rfl, hc, ?_, .inl ?_⟩
    · rintro y hy b
      rcases List.mem_cons.mp hy with rfl | hy
      · rintro ⟨job, lease', locked, x, hop', -⟩
        simp [entryOf, hop] at hop'
      · exact hmid y hy b
    · intro y hy
      rcases List.mem_cons.mp hy with rfl | hy
      · exact ⟨r, hr, rfl, hrun, ha, hlive⟩
      · exact hgap.resolve_right (by omega) y hy
  · rw [hu] at hs
    simp only [Row.completed] at hs
    split at hs <;> simp at hs
  · rw [hu] at hs
    simp [Row.deferred] at hs
  · rw [hu] at hs
    simp [Row.expired] at hs

/-- A granted lease is the one in the new table. -/
theorem granted_exec (h : Inv s) {j a : Uuid} {l : ℤ} (hg : (entryOf s now op).grants j a)
    (hl : leaseColumn (exec s.rows now op).1 j = some l) :
    ∃ r ∈ (exec s.rows now op).1, r.jobId = j ∧ r.status = .running ∧ r.attemptId = some a ∧
      r.leaseUntil = some l := by
  have hk : Keyed (exec s.rows now op).1 := keyed_exec h.keyed
  cases op with
  | claim job lease b locked =>
    simp only [Entry.grants, entryOf, exec] at hg
    split at hg
    · rename_i hop hresp
      simp only [Op.claim.injEq] at hop
      simp only [Bool.and_eq_true, beq_iff_eq] at hg
      obtain ⟨rfl, rfl⟩ : _ ∧ _ := ⟨hop.2.2.1.trans hg.2, hg.1⟩
      obtain ⟨c, hc, -, rfl, hon⟩ := claim_spec hresp
      have hm : c.claimed now lease b ∈ (exec s.rows now (.claim job lease b locked)).1 :=
        hon ▸ List.mem_map_of_mem hc
      refine ⟨_, hm, rfl, rfl, rfl, ?_⟩
      rw [← hl, leaseColumn_of_mem hk hm]
    · rename_i hop hresp
      simp at hop
    · simp at hg
  | renew job b lease =>
    simp only [Entry.grants, entryOf, exec, resp] at hg
    simp only [Bool.and_eq_true, beq_iff_eq] at hg
    obtain ⟨⟨hcount, rfl⟩, rfl⟩ := hg
    obtain ⟨r, hr, hf⟩ := (fenced_count h.keyed now job b).mp (by simpa using hcount)
    have hon : onRow s.rows now (.renew job b lease) r = r.renewed now lease := by
      simp only [onRow, hf, if_true]
    have hm : r.renewed now lease ∈ (exec s.rows now (.renew job b lease)).1 :=
      hon ▸ List.mem_map_of_mem hr
    obtain ⟨hj, ha, hrun, -, -⟩ := fenced_iff.mp hf
    refine ⟨_, hm, hj, hrun, ha, ?_⟩
    have hcol := leaseColumn_of_mem hk hm
    rw [show (r.renewed now lease).jobId = job from hj] at hcol
    rw [← hl, hcol]
  | complete => simp [Entry.grants, entryOf] at hg
  | defer => simp [Entry.grants, entryOf] at hg
  | expireDeadlines => simp [Entry.grants, entryOf] at hg

theorem held_exec (h : Inv s) (hnow : s.now ≤ now) :
    ∀ j a l, held j a (entryOf s now op :: s.log) = some l → l ≤ now ∨
      ∃ r ∈ (exec s.rows now op).1, r.jobId = j ∧ r.status = .running ∧ r.attemptId = some a ∧
        r.leaseUntil = some l := by
  intro j a l hh
  simp only [JobStore.held] at hh
  split at hh
  · rename_i hg
    exact .inr (granted_exec h hg hh)
  rename_i hng
  split at hh
  · simp at hh
  rename_i hnd
  rcases h.held j a l hh with hl | ⟨r, hr, hj, hrun, ha, hl⟩
  · exact .inl (by omega)
  -- the row of a lease that is neither rewritten nor given up
  subst hj
  have hmem := List.mem_map_of_mem (f := onRow s.rows now op) hr
  have hown : ∀ {b}, fenced now r.jobId b r = true → b = a := by
    intro b hf
    have := (fenced_iff.mp hf).2.1
    rw [ha] at this
    exact (Option.some.inj this).symm
  rcases onRow_cases h.keyed now op hr with hu | ⟨job, lease, b, locked, -, hd, -⟩ |
    ⟨b, lease, rfl, hf, -, hresp⟩ | ⟨b, res, err, rfl, hf, -, hresp⟩ |
    ⟨b, err, retry, rfl, hf, -, hresp⟩ | ⟨rfl, ho, -⟩
  · rw [hu] at hmem
    exact .inr ⟨r, hmem, rfl, hrun, ha, hl⟩
  · refine .inl ?_
    simp only [due, hrun, Row.leaseLapsed, hl, Bool.and_eq_true, Bool.or_eq_true] at hd
    simpa using hd.2
  · obtain rfl := hown hf
    simp [Entry.grants, entryOf, exec, hresp] at hng
  · obtain rfl := hown hf
    simp [Entry.drops, entryOf, exec, hresp] at hnd
  · obtain rfl := hown hf
    simp [Entry.drops, entryOf, exec, hresp] at hnd
  · exact absurd (List.any_eq_true.mpr ⟨r, hr, by simp [entryOf, ho]⟩) hnd

theorem once_exec (h : Inv s) : ∀ j,
    ((entryOf s now op :: s.log).filter (Entry.completes j)).length = 0 ∨
    (((entryOf s now op :: s.log).filter (Entry.completes j)).length = 1 ∧
      ∃ r ∈ (exec s.rows now op).1, r.jobId = j ∧ r.terminal = true) := by
  intro j
  rw [List.filter_cons]
  by_cases hc : (entryOf s now op).completes j = true
  · -- a completion that returned `True`: the row was running, so no earlier one did
    rw [if_pos hc]
    refine .inr ?_
    cases op with
    | complete job a res err =>
      simp only [Entry.completes, entryOf, exec, resp, Bool.and_eq_true, beq_iff_eq] at hc
      obtain ⟨rfl, hcount⟩ := hc
      obtain ⟨r, hr, hf⟩ := (fenced_count h.keyed now job a).mp (by simpa using hcount)
      obtain ⟨hj, -, hrun, -⟩ := fenced_iff.mp hf
      constructor
      · rcases h.once job with h0 | ⟨-, x, hx, hxj, hxt⟩
        · simp [h0]
        · obtain rfl := h.keyed.eq_of_jobId hx hr (hxj.trans hj.symm)
          simp [Row.terminal, hrun] at hxt
      · refine ⟨r.completed now res err, ?_, hj, ?_⟩
        · have hon : onRow s.rows now (.complete job a res err) r = r.completed now res err := by
            simp only [onRow, hf, if_true]
          exact hon ▸ List.mem_map_of_mem hr
        · simp only [Row.terminal, Row.completed]
          cases err.isNone <;> simp
    | _ => simp [Entry.completes, entryOf] at hc
  · rw [if_neg hc]
    rcases h.once j with h0 | ⟨h1, x, hx, hxj, hxt⟩
    · exact .inl h0
    · refine .inr ⟨h1, x, ?_, hxj, hxt⟩
      have := List.mem_map_of_mem (f := onRow s.rows now op) hx
      rwa [onRow_terminal h.keyed now op hx hxt] at this

end Statement

/-- **Step lemma.**  Every event keeps the table in agreement with the log. -/
theorem step_inv {s t : Sys} {e : Event} (h : Inv s) (hs : step s e = some t) : Inv t := by
  cases e with
  | insert r =>
    simp only [step] at hs
    split at hs
    · rename_i hg
      obtain rfl := Option.some.inj hs
      exact inv_insert h hg.1 hg.2
    · simp at hs
  | call now op =>
    simp only [step] at hs
    split at hs
    · rename_i hg
      obtain rfl := Option.some.inj hs
      exact ⟨keyed_exec h.keyed, idle_exec h, current_exec h hg.1, held_exec h hg.1, once_exec h⟩
    · simp at hs

/-! ## What the log shows -/

/-- A fenced call that returned `True` came from the newest attempt under an unbroken lease. -/
def FenceOk (e : Entry) (older : List Entry) : Prop :=
  ∀ j a, e.FencedCall j a → e.resp = .bool true → Unbroken j a older [e]

/-- A claim that returned a row found no live lease and a deadline still ahead. -/
def ClaimOk (e : Entry) (older : List Entry) : Prop :=
  ∀ j a, e.Claims j a →
    (∀ r ∈ e.before, r.jobId = j → r.leaseLive e.now = false ∧ e.now < r.deadlineAt) ∧
    ∀ b l, held j b older = some l → l ≤ e.now

theorem fenceOk_entry {s : Sys} {now : ℤ} {op : Op} (h : Inv s) (hnow : s.now ≤ now) :
    FenceOk (entryOf s now op) s.log := by
  intro j a hcall hresp
  obtain ⟨r, hr, hf⟩ : ∃ r ∈ s.rows, fenced now j a r = true := by
    rcases hcall with ⟨lease, hop⟩ | ⟨res, err, hop⟩ | ⟨err, retry, hop⟩ <;>
    · simp only [entryOf] at hop
      subst hop
      simp only [entryOf, exec, resp, Resp.bool.injEq] at hresp
      exact (fenced_count h.keyed now j a).mp hresp
  obtain ⟨rfl, hfa, hrun, hlive, -⟩ := fenced_iff.mp hf
  obtain ⟨a', l, mid, c, older, ha, hl, hlog, hc, hmid, hgap⟩ := h.current r hr hrun
  obtain rfl : a' = a := by rw [ha] at hfa; exact Option.some.inj hfa
  obtain ⟨l', hl', hlt⟩ := leaseLive_iff.mp hlive
  obtain rfl : l = l' := by rw [hl] at hl'; exact Option.some.inj hl'
  refine ⟨mid, c, older, hlog, hc, hmid, fun y hy τ hτ => LiveAt.mono ?_ hτ⟩
  rcases List.mem_cons.mp hy with rfl | hy
  · exact ⟨r, hr, rfl, hrun, ha, hlive⟩
  · exact hgap.resolve_right (by omega) y hy

theorem claimOk_entry {s : Sys} {now : ℤ} {op : Op} (h : Inv s) (hnow : s.now ≤ now) :
    ClaimOk (entryOf s now op) s.log := by
  rintro j a ⟨job, lease, locked, x, hop, hresp, hj⟩
  simp only [entryOf] at hop
  subst hop
  obtain ⟨c, hc, hdue, rfl, -⟩ := claim_spec hresp
  obtain rfl : c.jobId = j := hj
  have hidle : c.leaseLive now = false ∧ now < c.deadlineAt := by
    simp only [due, Bool.and_eq_true, Bool.or_eq_true, beq_iff_eq, decide_eq_true_eq] at hdue
    refine ⟨?_, hdue.1.2⟩
    rcases hdue.2 with ⟨hq, -⟩ | ⟨-, hl⟩
    · simp [Row.leaseLive, h.idle c hc (by simp [hq])]
    · unfold Row.leaseLapsed at hl
      unfold Row.leaseLive
      cases hlease : c.leaseUntil <;> simp_all
  refine ⟨fun r hr hrj => ?_, fun b l hb => ?_⟩
  · obtain rfl := h.keyed.eq_of_jobId hr hc hrj
    exact hidle
  · rcases h.held c.jobId b l hb with hl | ⟨r, hr, hrj, -, -, hl⟩
    · simp only [entryOf]; omega
    · obtain rfl := h.keyed.eq_of_jobId hr hc hrj
      simpa [Row.leaseLive, hl, entryOf] using hidle.1

/-- Every entry of the log is justified by the entries before it. -/
def Justified (s : Sys) : Prop :=
  ∀ e older, e :: older <:+ s.log → FenceOk e older ∧ ClaimOk e older

theorem step_justified {s t : Sys} {e : Event} (h : Inv s) (hj : Justified s)
    (hs : step s e = some t) : Justified t := by
  cases e with
  | insert r =>
    simp only [step] at hs
    split at hs
    · obtain rfl := Option.some.inj hs
      exact hj
    · simp at hs
  | call now op =>
    simp only [step] at hs
    split at hs
    · rename_i hg
      obtain rfl := Option.some.inj hs
      intro e older hsuf
      rcases List.suffix_cons_iff.mp hsuf with heq | hsuf
      · obtain ⟨rfl, rfl⟩ := List.cons.inj heq
        exact ⟨fenceOk_entry h hg.1, claimOk_entry h hg.1⟩
      · exact hj e older hsuf
    · simp at hs

/-- A terminal row survives every event with all its columns. -/
theorem step_terminal {s t : Sys} {e : Event} (h : Inv s) (hs : step s e = some t) {r : Row}
    (hr : r ∈ s.rows) (ht : r.terminal = true) : r ∈ t.rows := by
  cases e with
  | insert x =>
    simp only [step] at hs
    split at hs
    · obtain rfl := Option.some.inj hs
      exact List.mem_append_left _ hr
    · simp at hs
  | call now op =>
    simp only [step] at hs
    split at hs
    · obtain rfl := Option.some.inj hs
      have := List.mem_map_of_mem (f := onRow s.rows now op) hr
      rwa [onRow_terminal h.keyed now op hr ht] at this
    · simp at hs

/-- **Lease fencing.**  In every run from freshly inserted rows: (a) per job at most one
`complete` returns `True`; (b) `complete`, `renew` and `defer` return `True` only for the attempt
of the newest claim of the job, whose lease was live at every instant since that claim; (c) no two
attempts of one job hold a live lease at one instant, and a claim returns only a job without a
live lease whose deadline lies ahead; (d) a terminal row keeps all its columns. -/
theorem lease_fencing {s₀ s : Sys} {es : List Event} (h₀ : Init s₀)
    (h : Lib.exec step s₀ es = some s) :
    (∀ j, (s.log.filter (Entry.completes j)).length ≤ 1) ∧
    (∀ e older, e :: older <:+ s.log → ∀ j a, e.FencedCall j a → e.resp = .bool true →
      Unbroken j a older [e]) ∧
    (∀ j a b l m τ, s.now ≤ τ → held j a s.log = some l → held j b s.log = some m → τ < l →
      τ < m → a = b) ∧
    (∀ e older, e :: older <:+ s.log → ∀ j a, e.Claims j a →
      (∀ r ∈ e.before, r.jobId = j → r.leaseLive e.now = false ∧ e.now < r.deadlineAt) ∧
      ∀ b l, held j b older = some l → l ≤ e.now) ∧
    (∀ es₁ es₂ m, es = es₁ ++ es₂ → Lib.exec step s₀ es₁ = some m →
      ∀ r ∈ m.rows, r.terminal = true → r ∈ s.rows) := by
  have hinv₀ : Inv s₀ ∧ Justified s₀ := by
    refine ⟨inv_init h₀, fun e older hsuf => ?_⟩
    rw [h₀.2.2] at hsuf
    simpa using hsuf.length_le
  have hstep : ∀ s e t, Inv s ∧ Justified s → step s e = some t → Inv t ∧ Justified t :=
    fun _ _ _ hI hs => ⟨step_inv hI.1 hs, step_justified hI.1 hI.2 hs⟩
  obtain ⟨hinv, hjust⟩ := exec_inv hstep hinv₀ h
  refine ⟨fun j => ?_, fun e older hsuf => (hjust e older hsuf).1, ?_,
    fun e older hsuf => (hjust e older hsuf).2, ?_⟩
  · rcases hinv.once j with h0 | ⟨h1, -⟩ <;> omega
  · intro j a b l m τ hτ hl hm hτl hτm
    obtain ⟨r, hr, hrj, -, hra, -⟩ := (hinv.held j a l hl).resolve_left (by omega)
    obtain ⟨x, hx, hxj, -, hxa, -⟩ := (hinv.held j b m hm).resolve_left (by omega)
    obtain rfl := hinv.keyed.eq_of_jobId hr hx (hrj.trans hxj.symm)
    rw [hra] at hxa
    exact Option.some.inj hxa
  · rintro es₁ es₂ m rfl hm r hr ht
    obtain ⟨m', hm', hrest⟩ := exec_append.mp h
    obtain rfl : m' = m := by rw [hm'] at hm; exact Option.some.inj hm
    exact exec_rel (P := Inv) (R := fun a b => r ∈ a.rows → r ∈ b.rows) (fun _ h => h)
      (fun _ _ _ h1 h2 h => h2 (h1 h)) (fun _ _ _ => step_inv)
      (fun _ _ _ hI hs hr => step_terminal hI hs hr ht)
      (exec_inv hstep hinv₀ hm').1 hrest hr

/-- One job claimed, its lease lost to a second attempt that completes it. -/
def reclaimRun : List Event :=
  [.insert { jobId := 7, projectId := "p", userId := "u", model := "v7_3_full", spec := .obj [],
             specSha256 := "", status := .queued, attemptId := none, attempts := 0,
             leaseUntil := none, nextAttemptAt := 0, deadlineAt := 100, result := none,
             error := none, snapshotId := none, createdAt := 0, updatedAt := 0 },
   .call 1 (.claim none 10 501 []), .call 11 (.claim none 10 502 []),
   .call 12 (.complete 7 501 (some .null) none), .call 12 (.complete 7 502 (some .null) none)]

theorem lease_fencing_reclaimRun :
    ∃ s, Lib.exec step ⟨[], 0, [], []⟩ reclaimRun = some s ∧
      (s.log.map Entry.resp).take 2 = [.bool true, .bool false] ∧
      ∀ j, (s.log.filter (Entry.completes j)).length ≤ 1 := by
  have hrun : (Lib.exec step ⟨[], 0, [], []⟩ reclaimRun).isSome = true := rfl
  obtain ⟨s, hs⟩ := Option.isSome_iff_exists.mp hrun
  have hresp : (Lib.exec step ⟨[], 0, [], []⟩ reclaimRun).map
      (fun s => (s.log.map Entry.resp).take 2) = some [.bool true, .bool false] := rfl
  rw [hs] at hresp
  have hinit : Init ⟨[], 0, [], []⟩ := ⟨List.nodup_nil, by simp, rfl⟩
  exact ⟨s, hs, Option.some.inj hresp, (lease_fencing hinit hs).1⟩

end Inference.JobStore
