import Inference.JobGateway
import Inference.LeaseFencing
import Inference.RowInvariant

/-!
# Inference.LeaseRenewal — do the gateway's polls renew every lease in time?

`JobGateway` against a clock.  Gateway and database read one clock, no call of the store takes time
or fails, and `poll` runs exactly every `poll_interval`: time passes only while the lock is free and
never past the next poll.  `submit` may claim at any moment between two polls; other gateways run
their own statements, with attempts of their own.

* `LeasesAlive`: until its deadline the row of an open task is running under its attempt with a live
  lease, nobody can claim it, and `poll` is not about to mark the task `lease_lost`.
* `InTime`: `renew_interval + poll_interval ≤ lease_seconds` and `poll_interval < lease_seconds`.
* `leases_alive_iff`: the leases stay alive in every run exactly when `InTime` holds; the
  constructor checks only `renew_interval < lease_seconds`.
* `lateRun`: a lease of 120 s renewed after 100 s with a poll every 30 s is lost.
-/

namespace Inference.JobGateway.Lease

open Inference.Lib Inference.JobStore

/-! ## Polls on a schedule -/

/-- The gateway and the time of its next poll. -/
structure Sched where
  sys : Sys
  due : ℤ
deriving DecidableEq, Repr

/-- The row and the attempt a `renew`, `complete` or `defer` names. -/
def caller : Op → Option (Uuid × Uuid)
  | .renew job attempt _ | .complete job attempt _ _ | .defer job attempt _ _ => some (job, attempt)
  | .claim _ _ _ _ | .expireDeadlines => none

/-- The attempt of a claimed row that has no task yet. -/
def claimed : Pc → Option Uuid
  | .enqueue _ a _ | .enqueueReject _ a _ | .enqueuePut _ a _ | .enqueueOverload _ a _ => some a
  | _ => none

/-- The attempts this gateway has drawn and may still use. -/
def attempts (s : Sys) : List Uuid := s.made.map Made.attemptId ++ (claimed s.pc).toList

/-- What may happen when: one clock that stands still inside a call, no call that fails, polls when
they are due, other gateways with attempts of their own. -/
def Allowed (s : Sched) : Event → Prop
  | .tick now mono wall => s.sys.pc = .free ∧ mono = now ∧ wall = s.sys.now + now ∧
      s.sys.now + now ≤ s.due
  | .foreign op => ∀ c ∈ caller op, c.2 ∉ attempts s.sys
  | .insert r => r.Inserted ∧ r.jobId ∉ s.sys.rows.map Row.jobId
  | .poll => s.sys.now = s.due
  | .advance io => io.fault = none
  | _ => True

instance (s : Sched) (e : Event) : Decidable (Allowed s e) := by
  cases e <;> unfold Allowed <;> unfold Row.Inserted <;> infer_instance

/-- A poll sets the time of the next one. -/
def step (cfg : Settings) (pollInterval : ℤ) (s : Sched) (e : Event) : Option Sched :=
  if Allowed s e then
    (JobGateway.step cfg s.sys e).map fun t =>
      ⟨t, if e = .poll then s.due + pollInterval else s.due⟩
  else none

/-- A new gateway on some table; `_loop` polls at once. -/
def Init (s : Sched) : Prop :=
  JobGateway.Init s.sys ∧ Keyed s.sys.rows ∧ s.sys.wall = s.sys.now ∧ s.due = s.sys.now

/-- The settings the constructor lets pass. -/
def Accepted (cfg : Settings) (pollInterval : ℤ) : Prop :=
  0 < cfg.leaseSeconds ∧ 0 ≤ cfg.renewInterval ∧ cfg.renewInterval < cfg.leaseSeconds ∧
    1 ≤ cfg.maxInflight ∧ 0 < cfg.retrySeconds ∧ 0 < pollInterval

/-- The first poll that finds a lease due for renewal comes before the lease ends. -/
def InTime (cfg : Settings) (pollInterval : ℤ) : Prop :=
  cfg.renewInterval + pollInterval ≤ cfg.leaseSeconds ∧ pollInterval < cfg.leaseSeconds

/-- The leases of the open tasks are alive, and none is about to be given up as lost. -/
def LeasesAlive (s : Sys) : Prop :=
  ∀ (i : ℕ) (x : Made), s.made[i]? = some x → x.task.terminal = false →
    (∃ r ∈ s.rows, r.jobId = x.jobId ∧
      (s.now < r.deadlineAt →
        r.status = .running ∧ r.attemptId = some x.attemptId ∧ r.leaseLive s.now = true) ∧
      ∀ job, due s.now job r = false) ∧
    ∀ it rest, s.pc = .visitLost it rest → it.2.task ≠ i

/-! ## What a run knows about its leases -/

/-- Until the deadline `D`, the row of the job is leased to attempt `a` since `renewed`. -/
def Held (cfg : Settings) (s : Sys) (job a : Uuid) (renewed D : ℤ) : Prop :=
  ∃ r ∈ s.rows, r.jobId = job ∧ r.deadlineAt = D ∧
    (s.now < D → r.status = .running ∧ r.attemptId = some a ∧
      r.leaseUntil = some (min (renewed + (s.now - s.mono) + cfg.leaseSeconds) D))

/-- Task `i` of attempt `a` expires at the deadline `D` of its row. -/
def Bound (s : Sys) (i : ℕ) (a : Uuid) (D : ℤ) : Prop :=
  ∃ x : Made, s.made[i]? = some x ∧ x.attemptId = a ∧
    x.task.deadline = some (D + (s.mono - s.now))

/-- An entry of `_active` stands for a lease. -/
def Leased (cfg : Settings) (s : Sys) (job : Uuid) (e : Active) : Prop :=
  ∃ D, Held cfg s job e.attemptId e.renewed D ∧ Bound s e.task e.attemptId D

/-- The job whose entry is being rewritten or deleted. -/
def touched : Pc → Option Uuid
  | .visitDel it _ | .visitRenewed it _ => some it.1
  | _ => none

/-- The poll that is under way has the entry of this job still before it. -/
def Awaits (job : Uuid) : Pc → Prop
  | .pollExpire => True
  | pc => job ∈ pc.pending.map Prod.fst

/-- The task has not reached its deadline. -/
def Unexpired (s : Sys) (i : ℕ) : Prop :=
  ∀ x : Made, s.made[i]? = some x → x.task.isExpired s.mono = false

def Failed (s : Sys) (i : ℕ) : Prop :=
  ∀ x : Made, s.made[i]? = some x → x.task.status = .failed

/-- What is known at each point. -/
def Known (cfg : Settings) (s : Sys) : Pc → Prop
  | .enqueue row a _ | .enqueueReject row a _ | .enqueuePut row a _ | .enqueueOverload row a _ =>
    Dict.get? row.jobId s.active = none ∧ s.now < row.deadlineAt ∧
      Held cfg s row.jobId a s.mono row.deadlineAt
  | .enqueueRecord job a i _ =>
    Dict.get? job s.active = none ∧ ∃ D, Held cfg s job a s.mono D ∧ Bound s i a D
  | .visitDone it _ => Unexpired s it.2.task ∨ Ended s it.2.task
  | .visitFailed it _ => Unexpired s it.2.task ∨ Failed s it.2.task
  | .visitAge it _ | .visitRenew it _ => Unexpired s it.2.task
  | .visitRenewed it _ =>
    ∃ D, Held cfg s it.1 it.2.attemptId s.mono D ∧ Bound s it.2.task it.2.attemptId D
  | .visitLost _ _ => False
  | _ => True

/-- Every entry stands for a lease, and the lease outlasts the next look at the entry. -/
structure Timely (cfg : Settings) (pollInterval : ℤ) (s : Sched) : Prop where
  keyed : Keyed s.sys.rows
  wall : s.sys.wall = s.sys.now
  early : s.sys.now ≤ s.due
  late : s.due ≤ s.sys.now + pollInterval
  leased : ∀ job e, Dict.get? job s.sys.active = some e → touched s.sys.pc ≠ some job →
    Leased cfg s.sys job e
  soon : ∀ job e, Dict.get? job s.sys.active = some e → touched s.sys.pc ≠ some job →
    Awaits job s.sys.pc → s.sys.mono - e.renewed < cfg.leaseSeconds
  later : ∀ job e, Dict.get? job s.sys.active = some e → touched s.sys.pc ≠ some job →
    ¬ Awaits job s.sys.pc → s.due - s.sys.now + (s.sys.mono - e.renewed) < cfg.leaseSeconds
  known : Known cfg s.sys s.sys.pc

/-! ## One lease -/

section Lease

variable {cfg : Settings} {s : Sys} {job a : Uuid} {renewed D : ℤ}

/-- A held lease is live as long as it is younger than `lease_seconds`. -/
theorem Held.live (h : Held cfg s job a renewed D) (hage : s.mono - renewed < cfg.leaseSeconds) :
    ∃ r ∈ s.rows, r.jobId = job ∧ r.deadlineAt = D ∧
      (s.now < D → r.status = .running ∧ r.attemptId = some a ∧ r.leaseLive s.now = true) := by
  obtain ⟨r, hr, hj, hD, hrun⟩ := h
  refine ⟨r, hr, hj, hD, fun hlt => ?_⟩
  obtain ⟨hst, ha, hl⟩ := hrun hlt
  exact ⟨hst, ha, leaseLive_iff.mpr ⟨_, hl, lt_min (by omega) hlt⟩⟩

/-- A row under a live lease, or past its deadline, is not due. -/
theorem not_due {now : ℤ} {r : Row}
    (h : now < r.deadlineAt → r.status = .running ∧ r.leaseLive now = true) (job : Option Uuid) :
    due now job r = false := by
  by_contra hc
  simp only [due, Bool.not_eq_false, Bool.and_eq_true, decide_eq_true_eq, Bool.or_eq_true,
    beq_iff_eq] at hc
  obtain ⟨⟨-, hlt⟩, hst⟩ := hc
  obtain ⟨hrun, hlive⟩ := h hlt
  obtain ⟨l, hl, hnow⟩ := leaseLive_iff.mp hlive
  rcases hst with ⟨hq, -⟩ | ⟨-, hlapsed⟩
  · simp [hrun] at hq
  · simp only [Row.leaseLapsed, hl, decide_eq_true_eq] at hlapsed
    omega

/-- **Frame.**  A statement that is not the holder's own leaves a young lease as it is. -/
theorem Held.exec (hk : Keyed s.rows) (h : Held cfg s job a renewed D)
    (hage : s.mono - renewed < cfg.leaseSeconds) {op : Op} (hop : caller op ≠ some (job, a)) :
    Held cfg { s with rows := (exec s.rows s.now op).1 } job a renewed D := by
  obtain ⟨r, hr, hj, hD, hrun⟩ := h
  have hD' : (onRow s.rows s.now op r).deadlineAt = D :=
    (onRow_sameJob hk hr).deadlineAt.trans hD
  refine ⟨onRow s.rows s.now op r, List.mem_map_of_mem hr, (onRow_jobId _ _ _ _).trans hj, hD', ?_⟩
  intro (hlt : s.now < D)
  obtain ⟨hst, ha, hl⟩ := hrun hlt
  have hlive : r.leaseLive s.now = true := leaseLive_iff.mpr ⟨_, hl, lt_min (by omega) hlt⟩
  have hself : ∀ b, fenced s.now r.jobId b r = true → b = a := by
    intro b hb
    have := (fenced_iff.mp hb).2.1
    rw [ha] at this
    exact (Option.some.inj this).symm
  have hu : onRow s.rows s.now op r = r := by
    rcases onRow_cases hk s.now op hr with hu | ⟨j, lease, b, locked, -, hd, -⟩ |
      ⟨b, lease, rfl, hf, -⟩ | ⟨b, res, err, rfl, hf, -⟩ | ⟨b, err, retry, rfl, hf, -⟩ | ⟨-, ho, -⟩
    · exact hu
    · rw [not_due (fun _ => ⟨hst, hlive⟩) j] at hd
      simp at hd
    · exact absurd (by rw [caller, hj, hself b hf]) hop
    · exact absurd (by rw [caller, hj, hself b hf]) hop
    · exact absurd (by rw [caller, hj, hself b hf]) hop
    · simp only [overdue, Bool.and_eq_true, decide_eq_true_eq] at ho
      omega
  rw [hu]
  exact ⟨hst, ha, hl⟩

theorem Held.insert (h : Held cfg s job a renewed D) (r : Row) :
    Held cfg { s with rows := s.rows ++ [r] } job a renewed D := by
  obtain ⟨x, hx, hrest⟩ := h
  exact ⟨x, List.mem_append_left _ hx, hrest⟩

/-- The holder's own renewal before the deadline succeeds, and the lease is new. -/
theorem Held.renew (hk : Keyed s.rows) (h : Held cfg s job a renewed D)
    (hage : s.mono - renewed < cfg.leaseSeconds) (hlt : s.now < D) :
    (JobStore.exec s.rows s.now (.renew job a cfg.leaseSeconds)).2 = .bool true ∧
      Held cfg { s with rows := (JobStore.exec s.rows s.now (.renew job a cfg.leaseSeconds)).1 }
        job a s.mono D := by
  obtain ⟨r, hr, hj, hD, hrun⟩ := h
  obtain ⟨hst, ha, hl⟩ := hrun hlt
  have hf : fenced s.now job a r = true := fenced_iff.mpr
    ⟨hj, ha, hst, leaseLive_iff.mpr ⟨_, hl, lt_min (by omega) hlt⟩, by omega⟩
  have hon : onRow s.rows s.now (.renew job a cfg.leaseSeconds) r =
      r.renewed s.now cfg.leaseSeconds := by simp only [onRow, hf, if_true]
  refine ⟨congrArg Resp.bool ((fenced_count hk s.now job a).mpr ⟨r, hr, hf⟩), ?_⟩
  refine ⟨r.renewed s.now cfg.leaseSeconds, hon ▸ List.mem_map_of_mem hr, hj, hD, fun _ => ?_⟩
  refine ⟨hst, ha, ?_⟩
  simp only [Row.renewed, hD]
  congr 2
  omega

variable (cfg a) in
/-- A claim takes a new lease on a row whose job nobody holds. -/
theorem held_claimed {c : Row} {op : Option Uuid} {locked : List Uuid}
    (hc : candidate s.rows s.now op locked = some c) :
    s.now < c.deadlineAt ∧
      Held cfg { s with rows := (JobStore.exec s.rows s.now
        (.claim op cfg.leaseSeconds a locked)).1 } c.jobId a s.mono c.deadlineAt := by
  obtain ⟨hm, hd⟩ := candidate_mem hc
  have hon : onRow s.rows s.now (.claim op cfg.leaseSeconds a locked) c =
      c.claimed s.now cfg.leaseSeconds a := by simp only [onRow, hc, if_true]
  refine ⟨?_, c.claimed s.now cfg.leaseSeconds a, hon ▸ List.mem_map_of_mem hm, rfl, rfl, fun _ => ?_⟩
  · simp only [due, Bool.and_eq_true, decide_eq_true_eq] at hd
    exact hd.1.2
  · refine ⟨rfl, rfl, ?_⟩
    simp only [Row.claimed]
    congr 2
    omega

/-- The candidate of a claim is not a row under a young lease. -/
theorem Held.not_candidate (hk : Keyed s.rows) (h : Held cfg s job a renewed D)
    (hage : s.mono - renewed < cfg.leaseSeconds) {op : Option Uuid} {locked : List Uuid} {c : Row}
    (hc : candidate s.rows s.now op locked = some c) : c.jobId ≠ job := by
  intro hj
  obtain ⟨hm, hd⟩ := candidate_mem hc
  obtain ⟨r, hr, hrj, rfl, hrun⟩ := h.live hage
  obtain rfl := hk.eq_of_jobId hm hr (hj.trans hrj.symm)
  rw [not_due (fun hlt => ⟨(hrun hlt).1, (hrun hlt).2.2⟩) op] at hd
  simp at hd

end Lease

/-! ## Steps of the others -/

theorem Bound.call {s : Sys} {i : ℕ} {a : Uuid} {D : ℤ} (h : Bound s i a D) (j : ℕ)
    (m : Task.Method) : Bound (s.call j m) i a D := by
  obtain ⟨x, hx, ha, hd⟩ := h
  simp only [Bound, Sys.call, List.getElem?_modify, hx]
  split
  · exact ⟨_, rfl, ha, (Task.call_evolves x.task m s.mono s.wall).deadline.trans hd⟩
  · exact ⟨x, rfl, ha, hd⟩

theorem Bound.drawn {s : Sys} {i : ℕ} {a : Uuid} {D : ℤ} (h : Bound s i a D) : a ∈ attempts s := by
  obtain ⟨x, hx, rfl, -⟩ := h
  exact List.mem_append_left _ (List.mem_map_of_mem (List.mem_of_getElem? hx))

theorem Unexpired.stable {s t : Sys} (hp : Progress s.made t.made) (hmono : t.mono = s.mono) {i : ℕ}
    (h : Unexpired s i) : Unexpired t i := by
  intro y hy
  obtain ⟨x, hx, -, -, hev⟩ := hp i y hy
  have hx := h x hx
  rw [Task.isExpired, Task.remainingSeconds] at hx ⊢
  rw [hev.deadline, hmono]
  exact hx

theorem Failed.stable {s t : Sys} (hp : Progress s.made t.made) {i : ℕ} (h : Failed s i) :
    Failed t i := by
  intro y hy
  obtain ⟨x, hx, -, -, hev⟩ := hp i y hy
  have hst := h x hx
  rw [hev.final (by rw [Task.terminal, hst]; rfl)]
  exact hst

section Others

variable {cfg : Settings} {pollInterval : ℤ} {s t : Sched}

/-- No lease is older than `lease_seconds`. -/
theorem Timely.age (h : Timely cfg pollInterval s) {job : Uuid} {e : Active}
    (he : Dict.get? job s.sys.active = some e) (ht : touched s.sys.pc ≠ some job) :
    s.sys.mono - e.renewed < cfg.leaseSeconds := by
  by_cases hw : Awaits job s.sys.pc
  · exact h.soon job e he ht hw
  · have := h.later job e he ht hw
    have := h.early
    omega

/-- **Stability.**  Whatever leaves the gateway, the clocks and the leases alone keeps the
invariant. -/
theorem Timely.stable (hL : 0 < cfg.leaseSeconds) (h : Timely cfg pollInterval s)
    (hpc : t.sys.pc = s.sys.pc) (hactive : t.sys.active = s.sys.active) (hnow : t.sys.now = s.sys.now)
    (hmono : t.sys.mono = s.sys.mono) (hwall : t.sys.wall = s.sys.wall) (hdue : t.due = s.due)
    (hkeyed : Keyed t.sys.rows) (hp : Progress s.sys.made t.sys.made)
    (hbound : ∀ i a D, Bound s.sys i a D → Bound t.sys i a D)
    (hheld : ∀ job a renewed D, a ∈ attempts s.sys → s.sys.mono - renewed < cfg.leaseSeconds →
      Held cfg s.sys job a renewed D → Held cfg t.sys job a renewed D) :
    Timely cfg pollInterval t := by
  have hnew : s.sys.mono - s.sys.mono < cfg.leaseSeconds := by omega
  refine ⟨hkeyed, by rw [hwall, hnow]; exact h.wall, by rw [hnow, hdue]; exact h.early,
    by rw [hnow, hdue]; exact h.late, ?_, ?_, ?_, ?_⟩
  · rw [hactive, hpc]
    intro job e he ht
    obtain ⟨D, hh, hb⟩ := h.leased job e he ht
    exact ⟨D, hheld _ _ _ _ hb.drawn (h.age he ht) hh, hbound _ _ _ hb⟩
  · rw [hactive, hpc, hmono]
    exact h.soon
  · rw [hactive, hpc, hmono, hnow, hdue]
    exact h.later
  · have hk := h.known
    rw [hpc]
    cases hc : s.sys.pc with
    | enqueue row a k | enqueueReject row a k | enqueuePut row a k | enqueueOverload row a k =>
      have hdrawn : a ∈ attempts s.sys := List.mem_append_right _ (by rw [hc]; simp [claimed])
      rw [hc] at hk
      obtain ⟨hn, hlt, hh⟩ := hk
      exact ⟨by rw [hactive]; exact hn, by rw [hnow]; exact hlt,
        by rw [hmono]; exact hheld _ _ _ _ hdrawn hnew hh⟩
    | enqueueRecord job a i k =>
      rw [hc] at hk
      obtain ⟨hn, D, hh, hb⟩ := hk
      exact ⟨by rw [hactive]; exact hn, D, by rw [hmono]; exact hheld _ _ _ _ hb.drawn hnew hh,
        hbound _ _ _ hb⟩
    | visitDone it rest =>
      rw [hc] at hk
      exact hk.imp (·.stable hp hmono) (Ended.stable hp)
    | visitFailed it rest =>
      rw [hc] at hk
      exact hk.imp (·.stable hp hmono) (·.stable hp)
    | visitAge it rest | visitRenew it rest =>
      rw [hc] at hk
      exact Unexpired.stable hp hmono hk
    | visitRenewed it rest =>
      rw [hc] at hk
      obtain ⟨D, hh, hb⟩ := hk
      exact ⟨D, by rw [hmono]; exact hheld _ _ _ _ hb.drawn hnew hh, hbound _ _ _ hb⟩
    | visitLost it rest =>
      rw [hc] at hk
      exact hk.elim
    | _ => trivial

/-- A task method is called. -/
theorem Timely.call (hL : 0 < cfg.leaseSeconds) (h : Timely cfg pollInterval s) (i : ℕ)
    (m : Task.Method) : Timely cfg pollInterval { s with sys := s.sys.call i m } :=
  h.stable hL rfl rfl rfl rfl rfl rfl h.keyed (progress_call s.sys i m)
    (fun _ _ _ hb => hb.call i m) fun _ _ _ _ _ _ hh => hh

/-- Time passes while the lock is free, up to the next poll. -/
theorem Timely.tick (h : Timely cfg pollInterval s) (hfree : s.sys.pc = .free) {d : ℕ}
    (hle : s.sys.now + d ≤ s.due) :
    Timely cfg pollInterval { s with sys := { s.sys with
      now := s.sys.now + d, mono := s.sys.mono + d, wall := s.sys.now + d } } := by
  have hnot : ∀ job, ¬ Awaits job s.sys.pc := by
    intro job
    rw [hfree]
    simp [Awaits, Pc.pending]
  refine ⟨h.keyed, rfl, hle, by have := h.late; simp only; omega, ?_, ?_, ?_, ?_⟩
  · intro job e he ht
    obtain ⟨D, ⟨r, hr, hj, hD, hrun⟩, x, hx, ha, hd⟩ := h.leased job e he ht
    refine ⟨D, ⟨r, hr, hj, hD, fun hlt => ?_⟩, x, hx, ha, ?_⟩
    · obtain ⟨hst, hat, hl⟩ := hrun (by simp only at hlt; omega)
      refine ⟨hst, hat, ?_⟩
      rw [hl]
      simp only
      congr 2
      omega
    · rw [hd]
      simp only
      congr 1
      omega
  · intro job e _ _ hw
    exact absurd hw (hnot job)
  · intro job e he ht hw
    have := h.later job e he ht hw
    simp only
    omega
  · simp only [hfree]
    trivial

end Others

/-! ## Steps of the lock holder -/

section Holder

variable {cfg : Settings} {pollInterval : ℤ} {s : Sched}

/-- Moving on with `_active` as it is: the entries the poll has gone past were fresh enough. -/
theorem Timely.move (h : Timely cfg pollInterval s) (ht : touched s.sys.pc = none) {rows : List Row}
    {pc : Pc} (hkeyed : Keyed rows)
    (hleased : ∀ job e, Dict.get? job s.sys.active = some e → touched pc ≠ some job →
      Leased cfg s.sys job e → Leased cfg { s.sys with rows := rows } job e)
    (hseen : ∀ job e, Dict.get? job s.sys.active = some e → touched pc ≠ some job →
      Awaits job s.sys.pc → ¬ Awaits job pc →
        s.due - s.sys.now + (s.sys.mono - e.renewed) < cfg.leaseSeconds)
    (hknown : Known cfg { s.sys with rows := rows } pc) :
    Timely cfg pollInterval { s with sys := { s.sys with rows := rows, pc := pc } } := by
  have hnone : ∀ job, touched s.sys.pc ≠ some job := by simp [ht]
  refine ⟨hkeyed, h.wall, h.early, h.late, fun job e he htj => ?_, fun job e he htj hw => ?_,
    fun job e he htj hw => ?_, ?_⟩
  · exact hleased job e he htj (h.leased job e he (hnone job))
  · exact h.age he (hnone job)
  · by_cases hold : Awaits job s.sys.pc
    · exact hseen job e he htj hold hw
    · exact h.later job e he (hnone job) hold
  · cases pc <;> exact hknown

/-- A step that reads only. -/
theorem Timely.goto (h : Timely cfg pollInterval s) (ht : touched s.sys.pc = none) {pc : Pc}
    (hkeep : ∀ job, Awaits job s.sys.pc → touched pc = some job ∨ Awaits job pc)
    (hknown : Known cfg s.sys pc) :
    Timely cfg pollInterval { s with sys := { s.sys with pc := pc } } :=
  h.move ht h.keyed (fun _ _ _ _ hl => hl)
    (fun job _ _ htj hold hw => ((hkeep job hold).elim htj hw).elim) hknown

/-- A statement of the gateway for a job it does not track, or whose entry it is about to touch. -/
theorem Timely.statement (h : Timely cfg pollInterval s) (ht : touched s.sys.pc = none) {op : Op}
    {pc : Pc} (hop : ∀ c, caller op = some c →
      touched pc = some c.1 ∨ Dict.get? c.1 s.sys.active = none)
    (hkeep : ∀ job, Awaits job s.sys.pc → touched pc = some job ∨ Awaits job pc)
    (hknown : Known cfg { s.sys with rows := (exec s.sys.rows s.sys.now op).1 } pc) :
    Timely cfg pollInterval { s with sys := { s.sys with
      rows := (exec s.sys.rows s.sys.now op).1, pc := pc } } := by
  refine h.move ht (keyed_exec h.keyed) ?_
    (fun job _ _ htj hold hw => ((hkeep job hold).elim htj hw).elim) hknown
  rintro job e he htj ⟨D, hh, hb⟩
  refine ⟨D, hh.exec h.keyed (h.age he (by simp [ht])) fun hc => ?_, hb⟩
  rcases hop _ hc with hc | hc
  · exact htj hc
  · simp [he] at hc

/-- A claim by this gateway: nothing, or a new lease on the row of a job it does not track. -/
theorem Timely.claim (h : Timely cfg pollInterval s)
    (ht : touched s.sys.pc = none) (hw : ∀ job, ¬ Awaits job s.sys.pc) {io : Io}
    (hio : io.fault = none) {job : Option Uuid} {k : Cont} {other : Pc}
    (hother : ∀ t, Known cfg t other) :
    Timely cfg pollInterval { s with sys := (s.sys.query io
      (.claim job cfg.leaseSeconds io.attempt io.locked)
      fun | .row (some r) => .enqueue r io.attempt k | _ => other) } := by
  have hkeep : ∀ pc j, Awaits j s.sys.pc → touched pc = some j ∨ Awaits j pc :=
    fun _ j hj => absurd hj (hw j)
  have hop : ∀ c pc, caller (.claim job cfg.leaseSeconds io.attempt io.locked) = some c →
      touched pc = some c.1 ∨ Dict.get? c.1 s.sys.active = none := by
    intro c pc hc
    simp [caller] at hc
  simp only [Sys.query, hio]
  cases hc : candidate s.sys.rows s.sys.now job io.locked with
  | none =>
    simp only [JobStore.exec, resp, hc, Option.map_none]
    exact h.statement ht (fun c => hop c _) (hkeep _) (hother _)
  | some c =>
    have hnone : Dict.get? c.jobId s.sys.active = none := by
      cases he : Dict.get? c.jobId s.sys.active with
      | none => rfl
      | some e =>
        have hne : touched s.sys.pc ≠ some c.jobId := by simp [ht]
        obtain ⟨D, hh, -⟩ := h.leased _ e he hne
        exact absurd rfl (hh.not_candidate h.keyed (h.age he hne) hc)
    obtain ⟨hlt, hheld⟩ := held_claimed cfg io.attempt hc
    simp only [JobStore.exec, resp, hc, Option.map_some]
    exact h.statement ht (fun c => hop c _) (hkeep _) ⟨hnone, hlt, hheld⟩

theorem known_next (k : Cont) (t : Sys) : Known cfg t k.next := by
  cases k with
  | submit job => trivial
  | poll left => cases left <;> trivial

theorem not_awaits_next (k : Cont) (job : Uuid) : ¬ Awaits job k.next := by
  cases k with
  | submit j => simp [Cont.next, Awaits, Pc.pending]
  | poll left => cases left <;> simp [Cont.next, Awaits, Pc.pending]

/-- The new task expires at the deadline of its row. -/
theorem newTask_deadline {s : Sys} (hwall : s.wall = s.now) {row : Row} (hlt : s.now < row.deadlineAt)
    (a : Uuid) (id : String) :
    (newTask s row a id).deadline = some (row.deadlineAt + (s.mono - s.now)) := by
  simp only [newTask, hwall]
  congr 1
  rw [max_eq_right (by omega)]
  omega

/-- The task is put on the queue. -/
theorem Timely.put (h : Timely cfg pollInterval s) {row : Row} {a : Uuid} {k : Cont}
    (hpc : s.sys.pc = .enqueuePut row a k) (id : String) :
    Timely cfg pollInterval { s with sys := { s.sys with
      made := s.sys.made ++ [⟨newTask s.sys row a id, row.jobId, a⟩],
      pc := .enqueueRecord row.jobId a s.sys.made.length k } } := by
  have hk := h.known
  rw [hpc] at hk
  obtain ⟨hnone, hlt, hheld⟩ := hk
  have hfree : ∀ job, touched s.sys.pc ≠ some job := by simp [hpc, touched]
  have hnot : ∀ job, ¬ Awaits job s.sys.pc := by simp [hpc, Awaits, Pc.pending]
  refine ⟨h.keyed, h.wall, h.early, h.late, fun job e he _ => ?_, fun job e he _ hw => ?_,
    fun job e he _ _ => ?_, hnone, row.deadlineAt, hheld, ?_⟩
  · obtain ⟨D, hh, x, hx, hrest⟩ := h.leased job e he (hfree job)
    exact ⟨D, hh, x, by rw [List.getElem?_append_left (List.getElem?_eq_some_iff.mp hx).1]; exact hx,
      hrest⟩
  · simp [Awaits, Pc.pending] at hw
  · exact h.later job e he (hfree job) (hnot job)
  · exact ⟨⟨newTask s.sys row a id, row.jobId, a⟩, by simp, rfl, newTask_deadline h.wall hlt a id⟩

/-- The new entry is as old as its lease. -/
theorem Timely.record (hP : pollInterval < cfg.leaseSeconds) (h : Timely cfg pollInterval s)
    {job a : Uuid} {i : ℕ} {k : Cont} (hpc : s.sys.pc = .enqueueRecord job a i k) :
    Timely cfg pollInterval { s with sys := { s.sys with
      active := Dict.set job ⟨i, a, s.sys.mono⟩ s.sys.active, pc := k.next } } := by
  have hk := h.known
  rw [hpc] at hk
  obtain ⟨-, D, hheld, hbound⟩ := hk
  have hfree : ∀ j, touched s.sys.pc ≠ some j := by simp [hpc, touched]
  have hnot : ∀ j, ¬ Awaits j s.sys.pc := by simp [hpc, Awaits, Pc.pending]
  have hlate := h.late
  refine ⟨h.keyed, h.wall, h.early, h.late, fun j e he _ => ?_, fun j e he _ hw => ?_,
    fun j e he _ _ => ?_, known_next k _⟩
  · by_cases hj : j = job
    · subst hj
      obtain rfl := Option.some.inj ((Dict.get?_set_self _ _ _).symm.trans he)
      exact ⟨D, hheld, hbound⟩
    · exact h.leased j e (by rwa [Dict.get?_set_of_ne hj] at he) (hfree j)
  · exact absurd hw (not_awaits_next k j)
  · by_cases hj : j = job
    · subst hj
      obtain rfl := Option.some.inj ((Dict.get?_set_self _ _ _).symm.trans he)
      simp only
      omega
    · exact h.later j e (by rwa [Dict.get?_set_of_ne hj] at he) (hfree j) (hnot j)

/-- The entry in hand is rewritten or deleted; the items after it are as they were. -/
theorem Timely.visited (h : Timely cfg pollInterval s) (hb : JobGateway.Inv cfg s.sys) {it : Item}
    {rest : List Item} (hpend : s.sys.pc.pending = it :: rest) (hpc : s.sys.pc ≠ .pollExpire)
    (ht : touched s.sys.pc = some it.1) {active : List Item}
    (hother : ∀ j, j ≠ it.1 → Dict.get? j active = Dict.get? j s.sys.active)
    (hself : ∀ e, Dict.get? it.1 active = some e → Leased cfg s.sys it.1 e ∧
      s.due - s.sys.now + (s.sys.mono - e.renewed) < cfg.leaseSeconds) :
    Timely cfg pollInterval { s with sys := { s.sys with active := active, pc := .visit rest } } := by
  have hkeys := hb.pendingKeys
  rw [hpend] at hkeys
  have hnd : it.1 ∉ rest.map Prod.fst := by
    simp only [Dict.Keys, List.map_cons, List.nodup_cons] at hkeys
    exact hkeys.1
  have hawaits : ∀ j, Awaits j s.sys.pc ↔ j = it.1 ∨ j ∈ rest.map Prod.fst := by
    intro j
    have : Awaits j s.sys.pc ↔ j ∈ s.sys.pc.pending.map Prod.fst := by
      unfold Awaits
      split
      · rename_i heq
        exact absurd heq hpc
      · rfl
    rw [this, hpend, List.map_cons, List.mem_cons]
  have hfree : ∀ j, j ≠ it.1 → touched s.sys.pc ≠ some j := by
    intro j hj hc
    rw [ht] at hc
    exact hj (Option.some.inj hc).symm
  refine ⟨h.keyed, h.wall, h.early, h.late, fun j e he _ => ?_, fun j e he _ hw => ?_,
    fun j e he _ hw => ?_, trivial⟩
  · by_cases hj : j = it.1
    · subst hj
      exact (hself e he).1
    · exact h.leased j e ((hother j hj).symm.trans he) (hfree j hj)
  · have hj : j ≠ it.1 := fun hj => hnd (hj ▸ hw)
    exact h.age ((hother j hj).symm.trans he) (hfree j hj)
  · by_cases hj : j = it.1
    · subst hj
      exact (hself e he).2
    · refine h.later j e ((hother j hj).symm.trans he) (hfree j hj) fun hc => hw ?_
      exact ((hawaits j).mp hc).resolve_left hj

/-- An unexpired task has its deadline ahead of it. -/
theorem Bound.ahead {s : Sys} {i : ℕ} {a : Uuid} {D : ℤ} (h : Bound s i a D)
    (hu : Unexpired s i) : s.now < D := by
  obtain ⟨x, hx, -, hd⟩ := h
  by_contra hc
  have hexp : x.task.isExpired s.mono = true := Task.isExpired_iff.mpr ⟨_, hd, by omega⟩
  rw [hu x hx] at hexp
  simp at hexp

/-- **The lock holder's step.** -/
theorem timely_advance {t : Sys} {io : Io} (hL : 0 < cfg.leaseSeconds) (hin : InTime cfg pollInterval)
    (hb : JobGateway.Inv cfg s.sys) (h : Timely cfg pollInterval s) (hio : io.fault = none)
    (hs : advance cfg s.sys io = some t) : Timely cfg pollInterval ⟨t, s.due⟩ := by
  obtain ⟨hgap, hP⟩ := hin
  have hk := h.known
  have hpend := hb.pending
  cases hpc : s.sys.pc with
  | free => simp [advance, hpc] at hs
  | submitGet job =>
    simp only [advance, hpc, Option.some.injEq] at hs
    subst hs
    refine h.goto (by rw [hpc]; rfl) (fun j hj => ?_) (by split; trivial; split <;> trivial)
    simp [hpc, Awaits, Pc.pending] at hj
  | submitGate job =>
    simp only [advance, hpc, Option.some.injEq] at hs
    subst hs
    refine h.goto (by rw [hpc]; rfl) (fun j hj => ?_) (by split <;> trivial)
    simp [hpc, Awaits, Pc.pending] at hj
  | submitClaim job =>
    simp only [advance, hpc, Option.some.injEq] at hs
    subst hs
    exact h.claim (by rw [hpc]; rfl) (by simp [hpc, Awaits, Pc.pending]) hio fun _ => trivial
  | submitReturn job =>
    simp only [advance, hpc, Option.some.injEq] at hs
    subst hs
    refine h.goto (by rw [hpc]; rfl) (fun j hj => ?_) trivial
    simp [hpc, Awaits, Pc.pending] at hj
  | enqueue row a k =>
    simp only [advance, hpc, Option.some.injEq] at hs
    subst hs
    rw [hpc] at hk
    refine h.goto (by rw [hpc]; rfl) (fun j hj => ?_) ?_
    · simp [hpc, Awaits, Pc.pending] at hj
    · split
      · trivial
      · split <;> exact hk
  | enqueueReject row a k =>
    simp only [advance, hpc, Option.some.injEq, Sys.query, hio] at hs
    subst hs
    rw [hpc] at hk
    refine h.statement (by rw [hpc]; rfl) (fun c hc => .inr ?_) (fun j hj => ?_) (known_next k _)
    · obtain rfl := Option.some.inj hc
      exact hk.1
    · simp [hpc, Awaits, Pc.pending] at hj
  | enqueuePut row a k =>
    simp only [advance, hpc, Option.some.injEq] at hs
    subst hs
    split
    · rw [hpc] at hk
      refine h.goto (by rw [hpc]; rfl) (fun j hj => ?_) hk
      simp [hpc, Awaits, Pc.pending] at hj
    · exact h.put hpc _
  | enqueueOverload row a k =>
    simp only [advance, hpc, Option.some.injEq, Sys.query, hio] at hs
    subst hs
    rw [hpc] at hk
    refine h.statement (by rw [hpc]; rfl) (fun c hc => .inr ?_) (fun j hj => ?_) (known_next k _)
    · obtain rfl := Option.some.inj hc
      exact hk.1
    · simp [hpc, Awaits, Pc.pending] at hj
  | enqueueRecord job a i k =>
    simp only [advance, hpc, Option.some.injEq] at hs
    subst hs
    exact h.record hP hpc
  | pollExpire =>
    simp only [advance, hpc, Option.some.injEq, Sys.query, hio] at hs
    subst hs
    refine h.move (by rw [hpc]; rfl) (keyed_exec h.keyed) ?_ (fun j e he _ _ hw => ?_) trivial
    · rintro j e he - ⟨D, hh, hbd⟩
      exact ⟨D, hh.exec h.keyed (h.age he (by simp [hpc, touched])) (by simp [caller]), hbd⟩
    · exact absurd (List.mem_map_of_mem (Dict.mem_of_get? he)) hw
  | visit rest =>
    cases rest with
    | nil =>
      simp only [advance, hpc, Option.some.injEq] at hs
      subst hs
      refine h.goto (by rw [hpc]; rfl) (fun j hj => ?_) trivial
      simp [hpc, Awaits, Pc.pending] at hj
    | cons it rest =>
      simp only [advance, hpc, Option.some.injEq] at hs
      subst hs
      exact h.goto (by rw [hpc]; rfl) (fun j hj => .inr (by rw [hpc] at hj; exact hj)) trivial
  | visitExpired it rest =>
    simp only [advance, hpc] at hs
    obtain ⟨x, hx, rfl⟩ := Option.map_eq_some_iff.mp hs
    split
    · have hcall := h.call hL it.2.task (.markFailed "job deadline exceeded" (some "deadline_exceeded"))
      refine @Timely.goto _ _ _ hcall (by simp only [Sys.call, hpc]; rfl) (.visitDone it rest)
        (fun j hj => .inr (by simp only [Sys.call, hpc] at hj; exact hj)) (.inr fun y hy => ?_)
      simp only [Sys.call, List.getElem?_modify_eq, hx] at hy
      obtain rfl := Option.some.inj hy
      exact Task.markFailed_terminal x.task s.sys.wall _ _
    · rename_i hexp
      refine h.goto (by rw [hpc]; rfl) (fun j hj => .inr (by rw [hpc] at hj; exact hj))
        (.inl fun y hy => ?_)
      obtain rfl := Option.some.inj (hx.symm.trans hy)
      simpa using hexp
  | visitDone it rest =>
    simp only [advance, hpc] at hs
    obtain ⟨x, hx, rfl⟩ := Option.map_eq_some_iff.mp hs
    rw [hpc] at hk
    split
    · refine h.goto (by rw [hpc]; rfl) (fun j hj => .inr (by rw [hpc] at hj; exact hj)) trivial
    · rename_i hd
      refine h.goto (by rw [hpc]; rfl) (fun j hj => .inr (by rw [hpc] at hj; exact hj)) ?_
      refine hk.imp id fun hend y hy => ?_
      obtain rfl := Option.some.inj (hx.symm.trans hy)
      have := hend x hx
      revert this hd
      rw [Task.terminal]
      cases x.task.status <;> simp [TaskStatus.terminal]
  | visitComplete it rest =>
    simp only [advance, hpc, Sys.query, hio] at hs
    obtain ⟨x, hx, rfl⟩ := Option.map_eq_some_iff.mp hs
    refine h.statement (by rw [hpc]; rfl) (fun c hc => .inl ?_)
      (fun j hj => .inr (by rw [hpc] at hj; exact hj)) trivial
    obtain rfl := Option.some.inj hc
    rfl
  | visitFailed it rest =>
    simp only [advance, hpc] at hs
    obtain ⟨x, hx, rfl⟩ := Option.map_eq_some_iff.mp hs
    rw [hpc] at hk
    split
    · refine h.goto (by rw [hpc]; rfl) (fun j hj => .inr (by rw [hpc] at hj; exact hj)) trivial
    · rename_i hd
      refine h.goto (by rw [hpc]; rfl) (fun j hj => .inr (by rw [hpc] at hj; exact hj)) ?_
      exact hk.resolve_right fun hf => hd (hf x hx)
  | visitReport it rest =>
    simp only [advance, hpc, Sys.query, hio] at hs
    obtain ⟨x, hx, rfl⟩ := Option.map_eq_some_iff.mp hs
    refine h.statement (by rw [hpc]; rfl) (fun c hc => .inl ?_)
      (fun j hj => .inr (by rw [hpc] at hj; exact hj)) trivial
    simp only [reportOp] at hc
    split at hc <;> (obtain rfl := Option.some.inj hc; rfl)
  | visitDel it rest =>
    simp only [advance, hpc, Option.some.injEq] at hs
    subst hs
    refine h.visited hb (by rw [hpc]; rfl) (by simp [hpc]) (by rw [hpc]; rfl)
      (fun j hj => Dict.get?_del_of_ne hj _) fun e he => ?_
    simp [Dict.get?_del_self hb.keys] at he
  | visitAge it rest =>
    simp only [advance, hpc, Option.some.injEq] at hs
    subst hs
    rw [hpc] at hk hpend
    split
    · exact h.goto (by rw [hpc]; rfl) (fun j hj => .inr (by rw [hpc] at hj; exact hj)) hk
    · rename_i hage
      refine h.move (by rw [hpc]; rfl) h.keyed (fun _ _ _ _ hl => hl) (fun j e he _ hj hw => ?_)
        trivial
      -- the entry gone past is younger than `renew_interval`, and the next poll is not far
      rw [hpc] at hj
      have hj : j = it.1 := by
        rcases List.mem_cons.mp hj with hj | hj
        · exact hj
        · exact absurd hj hw
      subst hj
      obtain rfl := Option.some.inj ((hpend it List.mem_cons_self).symm.trans he)
      have := h.late
      omega
  | visitRenew it rest =>
    simp only [advance, hpc, Option.some.injEq] at hs
    subst hs
    rw [hpc] at hk hpend
    have hfree : touched s.sys.pc ≠ some it.1 := by simp [hpc, touched]
    have he := hpend it List.mem_cons_self
    obtain ⟨D, hh, hbd⟩ := h.leased _ _ he hfree
    obtain ⟨hresp, hnew⟩ := hh.renew h.keyed (h.age he hfree) (hbd.ahead hk)
    simp only [Sys.query, hio, hresp]
    refine h.statement (by rw [hpc]; rfl) (fun c hc => .inl ?_)
      (fun j hj => .inr (by rw [hpc] at hj; exact hj)) ⟨D, hnew, hbd⟩
    obtain rfl := Option.some.inj hc
    rfl
  | visitRenewed it rest =>
    simp only [advance, hpc, Option.some.injEq] at hs
    subst hs
    rw [hpc] at hk
    refine h.visited hb (by rw [hpc]; rfl) (by simp [hpc]) (by rw [hpc]; rfl)
      (fun j hj => Dict.get?_set_of_ne hj _ _) fun e he => ?_
    obtain rfl := Option.some.inj ((Dict.get?_set_self _ _ _).symm.trans he)
    have := h.late
    exact ⟨hk, by simp only; omega⟩
  | visitLost it rest =>
    rw [hpc] at hk
    exact hk.elim
  | fill =>
    simp only [advance, hpc, Option.some.injEq] at hs
    subst hs
    refine h.goto (by rw [hpc]; rfl) (fun j hj => ?_) (known_next _ _)
    simp [hpc, Awaits, Pc.pending] at hj
  | pollClaim left =>
    simp only [advance, hpc, Option.some.injEq] at hs
    subst hs
    exact h.claim (by rw [hpc]; rfl) (by simp [hpc, Awaits, Pc.pending]) hio fun _ => trivial

/-- A poll that is due begins: it has every entry before it, and the next one is an interval away. -/
theorem Timely.poll (hP : 0 < pollInterval) (h : Timely cfg pollInterval s)
    (hfree : s.sys.pc = .free) (hdue : s.sys.now = s.due) :
    Timely cfg pollInterval ⟨{ s.sys with pc := .pollExpire }, s.due + pollInterval⟩ := by
  have hnone : ∀ job, touched s.sys.pc ≠ some job := by simp [hfree, touched]
  refine ⟨h.keyed, h.wall, by simp only; omega, by simp only; omega, fun job e he _ => ?_,
    fun job e he _ _ => ?_, fun job e _ _ hw => absurd trivial hw, trivial⟩
  · exact h.leased job e he (hnone job)
  · exact h.age he (hnone job)

/-- A new attempt is recorded for a job that is not tracked. -/
theorem Timely.recordsIdle (h : Timely cfg pollInterval s) (e : Event) : RecordsIdle s.sys e := by
  cases e with
  | advance io =>
    intro job a i k hpc e he
    have hk := h.known
    rw [hpc] at hk
    simp [hk.1] at he
  | _ => trivial

/-- **Step lemma.** -/
theorem step_alive {t : Sched} {e : Event} (hcfg : Accepted cfg pollInterval)
    (hin : InTime cfg pollInterval) (h : JobGateway.Inv cfg s.sys ∧ Timely cfg pollInterval s)
    (hs : step cfg pollInterval s e = some t) :
    JobGateway.Inv cfg t.sys ∧ Timely cfg pollInterval t := by
  obtain ⟨hL, -, -, -, -, hP⟩ := hcfg
  obtain ⟨hb, h⟩ := h
  unfold step at hs
  split at hs
  case isFalse => simp at hs
  rename_i hallowed
  obtain ⟨u, hu, rfl⟩ := Option.map_eq_some_iff.mp hs
  refine ⟨step_inv (h.recordsIdle e) hb hu, ?_⟩
  cases e with
  | tick now mono wall =>
    obtain ⟨hfree, rfl, rfl, hle⟩ := hallowed
    obtain rfl := Option.some.inj hu
    exact h.tick hfree hle
  | foreign op =>
    obtain rfl := Option.some.inj hu
    refine h.stable hL rfl rfl rfl rfl rfl rfl (keyed_exec h.keyed) (.refl _) (fun _ _ _ hbd => hbd) ?_
    intro job a renewed D ha hage hh
    exact hh.exec h.keyed hage fun hc => hallowed _ hc ha
  | insert r =>
    obtain rfl := Option.some.inj hu
    refine h.stable hL rfl rfl rfl rfl rfl rfl ?_ (.refl _) (fun _ _ _ hbd => hbd)
      fun _ _ _ _ _ _ hh => hh.insert r
    have hk : (s.sys.rows.map Row.jobId).Nodup := h.keyed
    simpa [Keyed, List.nodup_append, hk] using hallowed.2
  | task i m =>
    obtain rfl := Option.some.inj hu
    exact h.call hL i m
  | stop =>
    obtain rfl := Option.some.inj hu
    exact h.stable hL rfl rfl rfl rfl rfl rfl h.keyed (.refl _) (fun _ _ _ hbd => hbd)
      fun _ _ _ _ _ _ hh => hh
  | submit job =>
    simp only [JobGateway.step] at hu
    split at hu
    case isFalse => simp at hu
    rename_i hfree
    obtain rfl := Option.some.inj hu
    refine h.goto (by rw [hfree]; rfl) (fun j hj => ?_) trivial
    simp [hfree, Awaits, Pc.pending] at hj
  | poll =>
    simp only [JobGateway.step] at hu
    split at hu
    case isFalse => simp at hu
    rename_i hfree
    obtain rfl := Option.some.inj hu
    exact h.poll hP hfree hallowed
  | advance io => exact timely_advance hL hin hb h hallowed hu

theorem alive_init (hP : 0 < pollInterval) (h₀ : Init s) :
    JobGateway.Inv cfg s.sys ∧ Timely cfg pollInterval s := by
  obtain ⟨hinit, hk, hwall, hdue⟩ := h₀
  have hnil : s.sys.active = [] := hinit.2.1
  have hfree : s.sys.pc = .free := hinit.2.2
  refine ⟨inv_init hinit, hk, hwall, by omega, by omega, ?_, ?_, ?_, by rw [hfree]; trivial⟩
  all_goals
    intro job e he
    simp [hnil, Dict.get?] at he

/-- An open task has a young lease on its row. -/
theorem Timely.held (hL : 0 < cfg.leaseSeconds) (hb : JobGateway.Inv cfg s.sys)
    (h : Timely cfg pollInterval s) {i : ℕ} {x : Made} (hx : s.sys.made[i]? = some x)
    (hopen : x.task.terminal = false) :
    ∃ renewed D, s.sys.mono - renewed < cfg.leaseSeconds ∧
      Held cfg s.sys x.jobId x.attemptId renewed D := by
  have hk := h.known
  have hok := hb.ok
  have hpend := hb.pending
  have hnew : s.sys.mono - s.sys.mono < cfg.leaseSeconds := by omega
  rcases hb.tracked i x hx hopen with hrec | ⟨e, he, rfl, hea⟩
  · -- the task is about to be recorded
    cases hpc : s.sys.pc with
    | enqueueRecord job a j k =>
      rw [hpc] at hk hok hrec
      obtain rfl := Option.some.inj hrec
      obtain ⟨y, hy, rfl, rfl⟩ := hok
      obtain rfl := Option.some.inj (hx.symm.trans hy)
      obtain ⟨-, D, hh, -⟩ := hk
      exact ⟨s.sys.mono, D, hnew, hh⟩
    | _ => rw [hpc] at hrec; simp [Pc.recording] at hrec
  · by_cases ht : touched s.sys.pc = some x.jobId
    · cases hpc : s.sys.pc with
      | visitDel it rest =>
        -- only the entry of a task that has ended is deleted
        rw [hpc] at ht hok hpend
        have hit : it.1 = x.jobId := Option.some.inj ht
        obtain rfl := Option.some.inj ((hpend it List.mem_cons_self).symm.trans (hit ▸ he))
        have := hok x hx
        simp [hopen] at this
      | visitRenewed it rest =>
        rw [hpc] at ht hk hpend
        have hit : it.1 = x.jobId := Option.some.inj ht
        obtain rfl := Option.some.inj ((hpend it List.mem_cons_self).symm.trans (hit ▸ he))
        obtain ⟨D, hh, -⟩ := hk
        exact ⟨s.sys.mono, D, hnew, by rw [← hit, ← hea]; exact hh⟩
      | _ => rw [hpc] at ht; simp [touched] at ht
    · obtain ⟨D, hh, -⟩ := h.leased _ e he ht
      exact ⟨e.renewed, D, h.age he ht, by rw [← hea]; exact hh⟩

theorem leasesAlive_of_timely (hL : 0 < cfg.leaseSeconds) (hb : JobGateway.Inv cfg s.sys)
    (h : Timely cfg pollInterval s) : LeasesAlive s.sys := by
  intro i x hx hopen
  obtain ⟨renewed, D, hage, hh⟩ := h.held hL hb hx hopen
  obtain ⟨r, hr, hj, rfl, hrun⟩ := hh.live hage
  refine ⟨⟨r, hr, hj, hrun, fun job => not_due (fun hlt => ?_) job⟩, fun it rest hpc => ?_⟩
  · exact ⟨(hrun hlt).1, (hrun hlt).2.2⟩
  · have hk := h.known
    rw [hpc] at hk
    exact hk.elim

/-- Renewals that are in time keep every lease alive. -/
theorem alive_of_inTime {s₀ : Sched} {es : List Event} (hcfg : Accepted cfg pollInterval)
    (hin : InTime cfg pollInterval) (h₀ : Init s₀)
    (h : Lib.exec (step cfg pollInterval) s₀ es = some s) : LeasesAlive s.sys := by
  obtain ⟨hb, ht⟩ := exec_inv (P := fun u => JobGateway.Inv cfg u.sys ∧ Timely cfg pollInterval u)
    (fun _ _ _ hu huv => step_alive hcfg hin hu huv) (alive_init hcfg.2.2.2.2.2 h₀) h
  exact leasesAlive_of_timely hcfg.1 hb ht

end Holder


/-! ## A poll too late -/

/-- A queued job. -/
def queuedRow (spec : Json) (sha : String) (D : ℤ) : Row where
  jobId := 7
  projectId := "p"
  userId := "u"
  model := "v7_3_full"
  spec := spec
  specSha256 := sha
  status := .queued
  attemptId := none
  attempts := 0
  leaseUntil := none
  nextAttemptAt := 0
  deadlineAt := D
  result := none
  error := none
  snapshotId := none
  createdAt := 0
  updatedAt := 0

/-- A gateway on an empty table at time 0. -/
def startAt : Sched where
  sys := { rows := [], made := [], active := [], pc := .free, stop := false,
           now := 0, mono := 0, wall := 0 }
  due := 0

theorem init_startAt : Init startAt := ⟨⟨rfl, rfl, rfl⟩, List.nodup_nil, rfl, rfl⟩

/-- A free gateway on the table `rows`, with one task or none. -/
def idle (rows : List Row) (made : List Made) (active : List Item) (now due : ℤ) : Sched where
  sys := { rows := rows, made := made, active := active, pc := .free, stop := false,
           now := now, mono := now, wall := now }
  due := due

section Late

variable {cfg : Settings} {pollInterval : ℤ}

/-- A poll that finds nothing. -/
theorem exec_emptyPoll (hM : 1 ≤ cfg.maxInflight) :
    Lib.exec (step cfg pollInterval) startAt (.poll :: List.replicate 4 (.advance {})) =
      some (idle [] [] [] 0 pollInterval) := by
  obtain ⟨m, hm⟩ : ∃ m, cfg.maxInflight = m + 1 := ⟨cfg.maxInflight - 1, by omega⟩
  simp [Lib.exec, step, Allowed, startAt, idle, JobGateway.step, advance, Sys.query, JobStore.exec,
    resp, hm, Cont.next, candidate, first]

/-- The task made for `queuedRow` at time `now`. -/
def madeAt (spec : Json) (sha : String) (D now : ℤ) : Made :=
  ⟨newTask (idle [] [] [] now now).sys (queuedRow spec sha D) 501 "", 7, 501⟩

/-- The job is leased since time `c`. -/
def leasedAt (cfg : Settings) (spec : Json) (sha : String) (D c now due : ℤ) : Sched :=
  idle [(queuedRow spec sha D).claimed c cfg.leaseSeconds 501] [madeAt spec sha D c]
    [(7, ⟨0, 501, c⟩)] now due

variable {spec : Json} {sha : String} {D c now next : ℤ}

theorem exec_holder {io : Io} (hio : io.fault = none) {s m : Sys} {t : Sched} {n : ℕ}
    (hs : advance cfg s io = some m)
    (h : Lib.exec (step cfg pollInterval) ⟨m, next⟩ (List.replicate n (.advance io)) = some t) :
    Lib.exec (step cfg pollInterval) ⟨s, next⟩ (List.replicate (n + 1) (.advance io)) = some t := by
  refine exec_cons.mpr ⟨⟨m, next⟩, ?_, h⟩
  rw [step, if_pos (show Allowed ⟨s, next⟩ (.advance io) from hio)]
  simp [JobGateway.step, hs]

variable (pollInterval D c next) in
/-- The job arrives and `submit` claims it. -/
theorem exec_submit (hM : 1 ≤ cfg.maxInflight) (hf : cfg.fingerprint spec = some sha) (hc : 0 ≤ c)
    (hD : c < D) :
    Lib.exec (step cfg pollInterval) (idle [] [] [] c next)
      (.insert (queuedRow spec sha D) :: .submit 7 ::
        List.replicate 7 (.advance { attempt := 501 })) =
      some (leasedAt cfg spec sha D c c next) := by
  refine exec_cons.mpr ⟨idle [queuedRow spec sha D] [] [] c next, by
    rw [step, if_pos (by simp [Allowed, Row.Inserted, idle, queuedRow])]; rfl, ?_⟩
  refine exec_cons.mpr ⟨⟨{ (idle [queuedRow spec sha D] [] [] c next).sys with
    pc := .submitGet 7 }, next⟩, by simp [step, Allowed, JobGateway.step, idle], ?_⟩
  refine exec_holder rfl (m := { (idle [queuedRow spec sha D] [] [] c next).sys with
    pc := .submitGate 7 }) rfl ?_
  refine exec_holder rfl (m := { (idle [queuedRow spec sha D] [] [] c next).sys with
    pc := .submitClaim 7 }) (by simp [advance, idle, Nat.lt_of_lt_of_le Nat.zero_lt_one hM]) ?_
  have hcand : candidate [queuedRow spec sha D] c (some 7) [] = some (queuedRow spec sha D) := by
    simp [candidate, first, due, queuedRow, hc, hD]
  refine exec_holder rfl (m := {
    (idle [(queuedRow spec sha D).claimed c cfg.leaseSeconds 501] [] [] c next).sys with
    pc := .enqueue ((queuedRow spec sha D).claimed c cfg.leaseSeconds 501) 501 (.submit 7) }) ?_ ?_
  · simp [advance, idle, Sys.query, JobStore.exec, resp, hcand, onRow]
  refine exec_holder rfl (m := {
    (idle [(queuedRow spec sha D).claimed c cfg.leaseSeconds 501] [] [] c next).sys with
    pc := .enqueuePut ((queuedRow spec sha D).claimed c cfg.leaseSeconds 501) 501 (.submit 7) }) ?_ ?_
  · simp [advance, idle, queuedRow, Row.claimed, hf]
  refine exec_holder rfl rfl ?_
  refine exec_holder rfl rfl ?_
  refine exec_holder rfl rfl ?_
  rfl

/-- `leasedAt` with the lock held at `pc`. -/
def leasedIn (cfg : Settings) (spec : Json) (sha : String) (D c now : ℤ) (pc : Pc) : Sys :=
  { (leasedAt cfg spec sha D c now now).sys with pc := pc }

/-- The walk passes an entry too young to renew. -/
theorem exec_walk (hage : now - c < cfg.renewInterval) (hc : c ≤ now) (hD : now < D) {n : ℕ}
    {t : Sched} (h : Lib.exec (step cfg pollInterval)
      ⟨leasedIn cfg spec sha D c now .fill, now + pollInterval⟩
      (List.replicate n (.advance {})) = some t) :
    Lib.exec (step cfg pollInterval) (leasedAt cfg spec sha D c now now)
      (.poll :: List.replicate (n + 7) (.advance {})) = some t := by
  have hrow : onRow [(queuedRow spec sha D).claimed c cfg.leaseSeconds 501] now .expireDeadlines
      ((queuedRow spec sha D).claimed c cfg.leaseSeconds 501) =
      (queuedRow spec sha D).claimed c cfg.leaseSeconds 501 := by
    simp [onRow, overdue, Row.claimed, queuedRow, hD]
  have hexp : (madeAt spec sha D c).task.isExpired now = false := by
    simp only [madeAt, newTask, Task.isExpired, Task.remainingSeconds, idle, queuedRow]
    simp
    omega
  refine exec_cons.mpr
    ⟨⟨leasedIn cfg spec sha D c now .pollExpire, now + pollInterval⟩, ?_, ?_⟩
  · simp [step, Allowed, JobGateway.step, leasedAt, idle, leasedIn]
  refine exec_holder rfl (m := leasedIn cfg spec sha D c now (.visit [(7, ⟨0, 501, c⟩)])) ?_ ?_
  · simp [leasedIn, advance, Sys.query, JobStore.exec, leasedAt, idle, hrow]
  refine exec_holder rfl
    (m := leasedIn cfg spec sha D c now (.visitExpired (7, ⟨0, 501, c⟩) [])) rfl ?_
  refine exec_holder rfl
    (m := leasedIn cfg spec sha D c now (.visitDone (7, ⟨0, 501, c⟩) [])) ?_ ?_
  · simp [leasedIn, advance, leasedAt, idle, hexp]
  refine exec_holder rfl
    (m := leasedIn cfg spec sha D c now (.visitFailed (7, ⟨0, 501, c⟩) [])) rfl ?_
  refine exec_holder rfl
    (m := leasedIn cfg spec sha D c now (.visitAge (7, ⟨0, 501, c⟩) [])) rfl ?_
  refine exec_holder rfl (m := leasedIn cfg spec sha D c now (.visit [])) ?_ ?_
  · simp [leasedIn, advance, leasedAt, idle, not_le.mpr hage]
  exact exec_holder rfl rfl h

variable (cfg pollInterval spec sha D c now) in
/-- A poll finds the lease too young to renew, and nothing else to do. -/
theorem exec_quietPoll (hage : now - c < cfg.renewInterval)
    (hlive : now < c + cfg.leaseSeconds) (hc : c ≤ now) (hD : now < D) :
    ∃ es, Lib.exec (step cfg pollInterval) (leasedAt cfg spec sha D c now now) es =
      some (leasedAt cfg spec sha D c now (now + pollInterval)) := by
  have hcand : candidate [(queuedRow spec sha D).claimed c cfg.leaseSeconds 501] now none [] =
      none := by
    simp [candidate, first, due, queuedRow, Row.claimed, Row.leaseLapsed, hlive, hD]
  cases hleft : cfg.maxInflight - 1 with
  | zero =>
    refine ⟨_, exec_walk hage hc hD (n := 1) (exec_holder rfl
      (m := leasedIn cfg spec sha D c now .free) ?_ rfl)⟩
    simp only [leasedIn, advance, leasedAt, idle, List.length_singleton, hleft]
    rfl
  | succ left =>
    refine ⟨_, exec_walk hage hc hD (n := 2) (exec_holder rfl
      (m := leasedIn cfg spec sha D c now (.pollClaim left)) ?_ (exec_holder rfl
        (m := leasedIn cfg spec sha D c now .free) ?_ rfl))⟩
    · simp only [leasedIn, advance, leasedAt, idle, List.length_singleton, hleft]
      rfl
    · simp only [leasedIn, advance, leasedAt, idle, Sys.query, JobStore.exec, resp, hcand]
      simp [onRow, hcand]

variable (cfg pollInterval spec sha D c now next) in
/-- Time passes up to the next poll. -/
theorem exec_tick (d : ℕ) (hd : now + d ≤ next) :
    Lib.exec (step cfg pollInterval) (leasedAt cfg spec sha D c now next)
      [.tick d d (now + d)] = some (leasedAt cfg spec sha D c (now + d) next) := by
  refine exec_cons.mpr ⟨_, ?_, rfl⟩
  simp [step, Allowed, JobGateway.step, leasedAt, idle, hd]

variable (cfg spec sha D c) in
/-- Polls pass while the lease is too young to renew. -/
theorem exec_quietPolls (φ P k : ℕ) (hL : cfg.renewInterval < cfg.leaseSeconds)
    (hD : c + cfg.leaseSeconds < D) (hR : φ + k * P < cfg.renewInterval) :
    ∃ es, Lib.exec (step cfg P) (leasedAt cfg spec sha D c c (c + φ)) es =
      some (leasedAt cfg spec sha D c (c + φ + (k * P : ℕ)) (c + φ + (k * P : ℕ) + P)) := by
  induction k with
  | zero =>
    simp only [Nat.cast_zero, zero_mul, add_zero] at hR ⊢
    obtain ⟨es, hes⟩ := exec_quietPoll cfg P spec sha D c (c + φ) (by omega) (by omega) (by omega)
      (by omega)
    exact ⟨_, exec_append.mpr ⟨_, exec_tick _ _ _ _ _ _ _ _ _ le_rfl, hes⟩⟩
  | succ k ih =>
    rw [show c + φ + ((k + 1) * P : ℕ) = c + φ + (k * P : ℕ) + P by push_cast; ring]
    have hk : (φ : ℤ) + (k * P : ℕ) + P < cfg.renewInterval := by
      push_cast at hR ⊢
      linarith
    obtain ⟨es, hes⟩ := ih (by push_cast at hk; omega)
    obtain ⟨fs, hfs⟩ := exec_quietPoll cfg P spec sha D c (c + φ + (k * P : ℕ) + P) (by omega)
      (by omega) (by omega) (by omega)
    exact ⟨_, exec_append.mpr ⟨_, hes, exec_append.mpr ⟨_, exec_tick _ _ _ _ _ _ _ _ _ le_rfl, hfs⟩⟩⟩

/-- The task is open before its deadline, and its lease is over. -/
theorem not_leasesAlive (hD : c + cfg.leaseSeconds < D) :
    ¬ LeasesAlive (leasedAt cfg spec sha D c (c + cfg.leaseSeconds) next).sys := by
  intro h
  obtain ⟨⟨r, hr, -, hrun, -⟩, -⟩ := h 0 (madeAt spec sha D c) rfl rfl
  obtain rfl : r = (queuedRow spec sha D).claimed c cfg.leaseSeconds 501 := List.mem_singleton.mp hr
  obtain ⟨-, -, hlive⟩ := hrun hD
  obtain ⟨l, hl, hlt⟩ := leaseLive_iff.mp hlive
  simp only [Row.claimed, queuedRow, Option.some.injEq] at hl
  simp only [leasedAt, idle] at hlt
  omega

/-- Renewals that are not in time lose the lease of some task. -/
theorem exists_late (hcfg : Accepted cfg pollInterval) (hf : cfg.fingerprint spec = some sha)
    (hlate : ¬ InTime cfg pollInterval) :
    ∃ es s, Lib.exec (step cfg pollInterval) startAt es = some s ∧ ¬ LeasesAlive s.sys := by
  obtain ⟨hL, hR, hRL, hM, -, hP⟩ := hcfg
  obtain ⟨P, rfl⟩ := Int.eq_ofNat_of_zero_le hP.le
  obtain ⟨R, hRn⟩ := Int.eq_ofNat_of_zero_le hR
  obtain ⟨L, hLn⟩ := Int.eq_ofNat_of_zero_le hL.le
  by_cases hPL : cfg.leaseSeconds ≤ P
  · -- claimed right after a poll, the lease ends before the next
    have hsub := exec_submit P (cfg.leaseSeconds + 1) 0 P hM hf le_rfl (by omega)
    have htick := exec_tick cfg P spec sha (cfg.leaseSeconds + 1) 0 0 P L (by omega)
    rw [← hLn] at htick
    exact ⟨_, _, exec_append.mpr ⟨_, exec_emptyPoll hM, exec_append.mpr ⟨_, hsub, htick⟩⟩,
      not_leasesAlive (by omega)⟩
  · have hgap : cfg.leaseSeconds < R + P := by
      by_contra hc
      exact hlate ⟨by omega, by omega⟩
    -- claimed so that some poll finds the lease just too young to renew
    have hdiv := Nat.div_add_mod' (R - 1) P
    have hmod := Nat.mod_lt (R - 1) (show 0 < P by omega)
    generalize (R - 1) / P = k at hdiv
    generalize (R - 1) % P = φ at hdiv hmod
    obtain ⟨c, rfl⟩ : ∃ c, P = c + φ := ⟨P - φ, by omega⟩
    have hwait : Lib.exec (step cfg (c + φ : ℕ)) (idle [] [] [] 0 (c + φ : ℕ)) [.tick c c c] =
        some (idle [] [] [] c (c + φ : ℕ)) := by
      refine exec_cons.mpr ⟨_, ?_, rfl⟩
      simp [step, Allowed, JobGateway.step, idle]
    have hsub := exec_submit (c + φ : ℕ) (c + cfg.leaseSeconds + 1) c (c + φ : ℕ) hM hf (by omega)
      (by omega)
    obtain ⟨es, hes⟩ := exec_quietPolls cfg spec sha (c + cfg.leaseSeconds + 1) c φ (c + φ) k hRL
      (by omega) (by omega)
    have htick := exec_tick cfg (c + φ : ℕ) spec sha (c + cfg.leaseSeconds + 1) c
      (c + φ + (k * (c + φ) : ℕ)) (c + φ + (k * (c + φ) : ℕ) + (c + φ : ℕ)) (L - (R - 1)) (by omega)
    rw [show (c : ℤ) + φ + (k * (c + φ) : ℕ) + (L - (R - 1) : ℕ) = c + cfg.leaseSeconds by omega]
      at htick
    exact ⟨_, _, exec_append.mpr ⟨_, exec_emptyPoll hM, exec_append.mpr ⟨_, hwait,
      exec_append.mpr ⟨_, hsub, exec_append.mpr ⟨_, hes, htick⟩⟩⟩⟩, not_leasesAlive (by omega)⟩

end Late

/-! ## Results -/

/-- **Live leases stay alive exactly when the renewals are in time.**  In every run on schedule of
an accepted configuration an open task keeps a live lease on its row until its deadline, the row is
never due, and `poll` never marks the task `lease_lost`, if and only if `renew_interval +
poll_interval ≤ lease_seconds` and `poll_interval < lease_seconds`. -/
theorem leases_alive_iff {cfg : Settings} {pollInterval : ℤ} (hcfg : Accepted cfg pollInterval)
    (hf : ∃ spec, (cfg.fingerprint spec).isSome = true) :
    (∀ s₀ s es, Init s₀ → Lib.exec (step cfg pollInterval) s₀ es = some s → LeasesAlive s.sys) ↔
      InTime cfg pollInterval := by
  constructor
  · intro hall
    by_contra hlate
    obtain ⟨spec, hspec⟩ := hf
    obtain ⟨sha, hsha⟩ := Option.isSome_iff_exists.mp hspec
    obtain ⟨es, s, hs, hdead⟩ := exists_late hcfg hsha hlate
    exact hdead (hall _ _ _ init_startAt hs)
  · intro hin s₀ s es h₀ hs
    exact alive_of_inTime hcfg hin h₀ hs

/-- The constructor's defaults, in microseconds. -/
def defaults : Settings where
  leaseSeconds := 120000000
  renewInterval := 30000000
  retrySeconds := 5000000
  maxInflight := 1
  fingerprint := fun _ => some "f"

/-- A first poll on an empty table, then a job that arrives and is claimed by `submit`. -/
def claimRun : List Event :=
  .poll :: List.replicate 4 (.advance {}) ++ .insert (queuedRow .null "f" 1000000000) ::
    .submit 7 :: List.replicate 7 (.advance { attempt := 501 })

/-- `n` steps of the poll that is due after `d`, at time `now`. -/
def nextPoll (d : ℕ) (now : ℤ) (n : ℕ) : List Event :=
  .tick d d now :: .poll :: List.replicate n (.advance {})

/-- With the defaults the first poll finds the job's lease alive. -/
theorem leases_alive_defaults : ∃ s, Lib.exec (step defaults 500000) startAt
    (claimRun ++ nextPoll 500000 500000 8) = some s ∧
      s.sys.made.map (fun x => x.task.terminal) = [false] ∧ LeasesAlive s.sys := by
  have hview : (Lib.exec (step defaults 500000) startAt
      (claimRun ++ nextPoll 500000 500000 8)).map (fun s =>
        s.sys.made.map fun x => x.task.terminal) = some [false] := by
    decide +kernel
  obtain ⟨s, hs, hv⟩ := Option.map_eq_some_iff.mp hview
  refine ⟨s, hs, hv, ?_⟩
  exact (leases_alive_iff (by simp [Accepted, defaults]) ⟨.null, rfl⟩).mpr
    (by simp [InTime, defaults]) _ _ _ init_startAt hs

/-- The job is claimed at 0; the polls at 30 s, 60 s and 90 s find its lease younger than 100 s,
and the one at 120 s finds it over. -/
def lateRun : List Event :=
  claimRun ++ nextPoll 30000000 30000000 8 ++ nextPoll 30000000 60000000 8 ++
    nextPoll 30000000 90000000 8 ++ nextPoll 30000000 120000000 7

/-- `renew_interval = 100` with `lease_seconds = 120` passes the constructor; with a poll every 30 s
an open task is about to be marked `lease_lost` before its deadline, and its row is due. -/
theorem lateRun_lost : Accepted { defaults with renewInterval := 100000000 } 30000000 ∧
    Init startAt ∧ ∃ s, Lib.exec (step { defaults with renewInterval := 100000000 } 30000000)
      startAt lateRun = some s ∧ s.sys.pc = .visitLost (7, ⟨0, 501, 0⟩) [] ∧
      s.sys.made.map (fun x => x.task.terminal) = [false] ∧
      s.sys.rows.map (due s.sys.now none) = [true] ∧ ¬ LeasesAlive s.sys := by
  refine ⟨by simp [Accepted, defaults], init_startAt, ?_⟩
  have hview : (Lib.exec (step { defaults with renewInterval := 100000000 } 30000000) startAt
      lateRun).map (fun s => (s.sys.pc, s.sys.made.map (fun x => x.task.terminal),
        s.sys.rows.map (due s.sys.now none))) =
      some (.visitLost (7, ⟨0, 501, 0⟩) [], [false], [true]) := by
    decide +kernel
  obtain ⟨s, hs, hv⟩ := Option.map_eq_some_iff.mp hview
  simp only [Prod.mk.injEq] at hv
  obtain ⟨hpc, hopen, hdue⟩ := hv
  refine ⟨s, hs, hpc, hopen, hdue, fun halive => ?_⟩
  obtain ⟨x, hx, hxo⟩ := List.map_eq_singleton_iff.mp hopen
  exact (halive 0 x (by rw [hx]; rfl) hxo).2 _ _ hpc rfl

end Inference.JobGateway.Lease
