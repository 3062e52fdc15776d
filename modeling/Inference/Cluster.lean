import Inference.Pool.Membership

/-!
# Inference.Cluster — discovery and the pool it drives

`GrpcWorkerPool.start` gives its `_update_workers` to `WorkerDiscovery` as `on_change`.  The product
of the two machines: the refresh thread is thread 0 of the pool, its call of `on_change` begins a
call of `_update_workers`, and it goes on when that call has returned.  Everything else is as free as
in the two machines: znodes, watches and failures on one side, `submit`, `stop` and the dispatch
threads on the other.

* `Sys.step`: the product; `step_cases` says what a step can do.
* `Linked`: the pool is in, or has made, the call that discovery published last.
* **`routing_follows_zookeeper`**: once discovery waits, the routing table is the registrations.
* **`members_registered`**: a member is under an address that was registered for its ID.
-/

namespace Inference.Cluster

open Inference.Lib
open Inference.Discovery (Workers WorkerInfo Nodes parseWorker)

structure Sys where
  discovery : Discovery.Sys
  pool : Pool.Machine.Sys

inductive Event where
  | discovery (e : Discovery.Event)
  | pool (e : Pool.Machine.Event)
deriving DecidableEq, Repr

/-- What happens to the pool by itself: the refresh thread alone calls `_update_workers`, and nobody
else sets routing states. -/
def foreign : Pool.Machine.Event → Bool
  | .route _ _ | .update _ _ => false
  | .submit k _ | .stop k => k ≠ 0
  | _ => true

theorem during_of_foreign {e : Pool.Machine.Event} (h : foreign e = true) : e.During 0 := by
  cases e with
  | route p state => cases h
  | update n snapshot => cases h
  | submit n batch => simpa [foreign, Pool.Machine.Event.During] using h
  | stop n => simpa [foreign, Pool.Machine.Event.During] using h
  | _ => trivial

namespace Sys

variable (repr : String → String) (cfg : Pool.Machine.Config)

/-- The next statement of the refresh thread. -/
def advance (s : Sys) (io : Discovery.Io) : Option Sys :=
  match s.discovery.pc with
  | .compare workers =>
    (s.discovery.advance repr io).bind fun d =>
      -- `self._on_change(dict(workers))`, unless the snapshot is the published one
      if d.pc = .commit workers
      then (s.pool.step cfg (.update 0 workers)).map fun p => ⟨d, p⟩
      else some ⟨d, s.pool⟩
  | .commit _ =>
    -- `_update_workers` has returned
    if s.pool.points (.thread 0) = .halted
    then (s.discovery.advance repr io).map fun d => ⟨d, s.pool⟩ else none
  | _ => (s.discovery.advance repr io).map fun d => ⟨d, s.pool⟩

def step (s : Sys) : Event → Option Sys
  | .discovery (.run io) => s.advance repr cfg io
  | .discovery e => (s.discovery.step repr e).map fun d => ⟨d, s.pool⟩
  | .pool e => if foreign e then (s.pool.step cfg e).map fun p => ⟨s.discovery, p⟩ else none

end Sys

/-! ## Discovery -/

/-- The local variable `workers` of the refresh thread. -/
def workersOf : Discovery.Pc → Option Workers
  | .read _ workers | .stopped workers | .store workers | .compare workers | .commit workers =>
    some workers
  | _ => none

/-- The thread is inside `on_change`. -/
def calling : Discovery.Pc → Bool
  | .commit _ => true
  | _ => false

/-- The snapshot that `on_change` was called with last. -/
def current (d : Discovery.Sys) : Workers :=
  match d.pc with
  | .commit workers => workers
  | _ => d.published.getD []

section Discovery

variable {repr : String → String} {R : String → WorkerInfo → Prop} {d d' : Discovery.Sys}

theorem current_of_not_calling (h : calling d.pc = false) : current d = d.published.getD [] := by
  unfold current
  cases hpc : d.pc with
  | commit workers =>
    rw [hpc] at h
    cases h
  | _ => rfl

variable (repr d) in
/-- What a statement of the refresh thread does to its dict of workers and to the published one. -/
inductive Turn : Discovery.Sys → Prop
  | quiet {d' : Discovery.Sys} (hc : calling d.pc = false) (hc' : calling d'.pc = false)
      (hn : d'.nodes = d.nodes) (hp : d'.published = d.published)
      (hw : ∀ workers, workersOf d'.pc = some workers →
        workers = [] ∨ workersOf d.pc = some workers) : Turn d'
  | read {wid : String} {rest : List String} {workers : Workers} {data : List UInt8}
      {info : WorkerInfo} (hpc : d.pc = .read (wid :: rest) workers)
      (hd : Dict.get? wid d.nodes = some data) (hi : parseWorker repr data = some info) :
    Turn { d with pc := .read rest (Dict.set wid info workers) }
  | publish {workers : Workers} (hpc : d.pc = .compare workers) : Turn (d.onChange workers)
  | returned {workers : Workers} (hpc : d.pc = .commit workers) :
    Turn ({ d with published := some workers } : Discovery.Sys).finished

theorem advance_turn {io : Discovery.Io} (h : d.advance repr io = some d') : Turn repr d d' := by
  unfold Discovery.Sys.advance at h
  cases hd : d.pc with
  | top =>
    rw [hd] at h
    obtain rfl := Option.some.inj h
    refine .quiet (by rw [hd]; rfl) ?_ rfl rfl ?_ <;> dsimp only <;> split <;>
      simp [calling, workersOf]
  | wait =>
    rw [hd] at h
    dsimp only at h
    split at h
    · obtain rfl := Option.some.inj h
      exact .quiet (by rw [hd]; rfl) rfl rfl rfl (by simp [workersOf])
    · cases h
  | clear =>
    rw [hd] at h
    obtain rfl := Option.some.inj h
    exact .quiet (by rw [hd]; rfl) rfl rfl rfl (by simp [workersOf])
  | check =>
    rw [hd] at h
    obtain rfl := Option.some.inj h
    refine .quiet (by rw [hd]; rfl) ?_ rfl rfl ?_ <;> dsimp only <;> split <;>
      simp [calling, workersOf]
  | list =>
    rw [hd] at h
    dsimp only at h
    split at h
    · obtain rfl := Option.some.inj h
      exact .quiet (by rw [hd]; rfl) rfl rfl rfl (by simp [workersOf, Discovery.Sys.begin])
    · split at h
      · obtain rfl := Option.some.inj h
        exact .quiet (by rw [hd]; rfl) rfl rfl rfl (by simp [workersOf, Discovery.Sys.begin])
      · cases h
  | watch children rest =>
    rw [hd] at h
    cases rest with
    | nil =>
      obtain rfl := Option.some.inj h
      exact .quiet (by rw [hd]; rfl) rfl rfl rfl (by simp [workersOf])
    | cons wid rest =>
      obtain rfl := Option.some.inj h
      split
      · exact .quiet (by rw [hd]; rfl) rfl rfl rfl (by simp [workersOf, Discovery.Sys.finished])
      · refine .quiet (by rw [hd]; rfl) ?_ rfl rfl ?_ <;> dsimp only <;> split <;>
          simp [calling, workersOf]
  | install children wid rest =>
    rw [hd] at h
    obtain rfl := Option.some.inj h
    split <;> exact .quiet (by rw [hd]; rfl) rfl rfl rfl (by simp [workersOf])
  | read rest workers =>
    rw [hd] at h
    cases rest with
    | nil =>
      obtain rfl := Option.some.inj h
      exact .quiet (by rw [hd]; rfl) rfl rfl rfl (by simp [hd, workersOf])
    | cons wid rest =>
      dsimp only at h
      split at h
      · obtain rfl := Option.some.inj h
        exact .quiet (by rw [hd]; rfl) rfl rfl rfl (by simp [workersOf])
      · split at h
        · obtain rfl := Option.some.inj h
          exact .quiet (by rw [hd]; rfl) rfl rfl rfl (by simp [hd, workersOf])
        · rename_i data hdata
          split at h
          · obtain rfl := Option.some.inj h
            exact .quiet (by rw [hd]; rfl) rfl rfl rfl (by simp [workersOf])
          · rename_i info hinfo
            obtain rfl := Option.some.inj h
            exact .read hd hdata hinfo
  | stopped workers =>
    rw [hd] at h
    obtain rfl := Option.some.inj h
    split
    · exact .quiet (by rw [hd]; rfl) rfl rfl rfl (by simp [workersOf, Discovery.Sys.finished])
    · exact .quiet (by rw [hd]; rfl) rfl rfl rfl (by simp [hd, workersOf])
  | store workers =>
    rw [hd] at h
    obtain rfl := Option.some.inj h
    exact .quiet (by rw [hd]; rfl) rfl rfl rfl (by simp [hd, workersOf])
  | compare workers =>
    rw [hd] at h
    obtain rfl := Option.some.inj h
    split
    · exact .quiet (by rw [hd]; rfl) rfl rfl rfl (by simp [workersOf, Discovery.Sys.finished])
    · exact .publish hd
  | commit workers =>
    rw [hd] at h
    obtain rfl := Option.some.inj h
    exact .returned hd
  | raised =>
    rw [hd] at h
    obtain rfl := Option.some.inj h
    split
    · exact .quiet (by rw [hd]; rfl) rfl rfl rfl (by simp [workersOf])
    · refine .quiet (by rw [hd]; rfl) ?_ rfl rfl ?_ <;> dsimp only <;> split <;>
        simp [calling, workersOf]
  | rewake =>
    rw [hd] at h
    obtain rfl := Option.some.inj h
    exact .quiet (by rw [hd]; rfl) rfl rfl rfl (by simp [workersOf])
  | exited =>
    rw [hd] at h
    cases h

/-- The other events leave the thread where it is; a znode may have been written or deleted. -/
theorem step_aside {e : Discovery.Event} (he : ∀ io, e ≠ .run io) (h : d.step repr e = some d') :
    d'.pc = d.pc ∧ d'.published = d.published ∧ (d'.nodes = d.nodes ∨
      (∃ wid data, (e = .create wid data ∨ e = .setData wid data) ∧
        d'.nodes = Dict.set wid data d.nodes) ∨
      ∃ wid, d'.nodes = Dict.del wid d.nodes) := by
  cases e with
  | create wid data =>
    simp only [Discovery.Sys.step] at h
    split at h
    · obtain rfl := Option.some.inj h
      exact ⟨rfl, rfl, .inr (.inl ⟨wid, data, .inl rfl, rfl⟩)⟩
    · cases h
  | setData wid data =>
    simp only [Discovery.Sys.step] at h
    split at h
    · cases h
    · obtain rfl := Option.some.inj h
      exact ⟨rfl, rfl, .inr (.inl ⟨wid, data, .inr rfl, rfl⟩)⟩
  | delete wid =>
    simp only [Discovery.Sys.step] at h
    split at h
    · cases h
    · obtain rfl := Option.some.inj h
      exact ⟨rfl, rfl, .inr (.inr ⟨wid, rfl⟩)⟩
  | callback w =>
    simp only [Discovery.Sys.step] at h
    split at h
    · obtain rfl := Option.some.inj h
      exact ⟨rfl, rfl, .inl rfl⟩
    · cases h
  | connected | stopFlag =>
    obtain rfl := Option.some.inj h
    exact ⟨rfl, rfl, .inl rfl⟩
  | stopWake =>
    simp only [Discovery.Sys.step] at h
    split at h
    · obtain rfl := Option.some.inj h
      exact ⟨rfl, rfl, .inl rfl⟩
    · cases h
  | run io => exact absurd rfl (he io)

/-! ### Where registrations come from -/

/-- Every worker registered in the znodes is one of `R`. -/
def Within (repr : String → String) (R : String → WorkerInfo → Prop) (nodes : Nodes) : Prop :=
  ∀ wid data info, Dict.get? wid nodes = some data → parseWorker repr data = some info → R wid info

/-- A worker that the event registers is one of `R`. -/
def Writes (repr : String → String) (R : String → WorkerInfo → Prop) : Discovery.Event → Prop
  | .create wid data | .setData wid data => ∀ info, parseWorker repr data = some info → R wid info
  | _ => True

/-- A dict of workers of `R`. -/
structure Snapshot (R : String → WorkerInfo → Prop) (workers : Workers) : Prop where
  keys : Dict.Keys workers
  within : ∀ wid info, Dict.get? wid workers = some info → R wid info

/-- All that discovery knows are workers of `R`. -/
structure Sourced (repr : String → String) (R : String → WorkerInfo → Prop) (d : Discovery.Sys) :
    Prop where
  nodes : Within repr R d.nodes
  workers : ∀ workers, workersOf d.pc = some workers → Snapshot R workers
  published : ∀ workers, d.published = some workers → Snapshot R workers

theorem Snapshot.nil : Snapshot R [] := ⟨List.nodup_nil, fun wid info h => by simp [Dict.get?] at h⟩

theorem Within.set {nodes : Nodes} (h : Within repr R nodes) {k : String} {data : List UInt8}
    (hw : ∀ info, parseWorker repr data = some info → R k info) :
    Within repr R (Dict.set k data nodes) := by
  intro wid data' info hget hinfo
  by_cases hk : wid = k
  · subst hk
    rw [Dict.get?_set_self] at hget
    cases hget
    exact hw info hinfo
  · rw [Dict.get?_set_of_ne hk] at hget
    exact h wid data' info hget hinfo

theorem Within.del {nodes : Nodes} (h : Within repr R nodes) (hk : Dict.Keys nodes) (k : String) :
    Within repr R (Dict.del k nodes) := by
  intro wid data info hget hinfo
  by_cases hw : wid = k
  · subst hw
    rw [Dict.get?_del_self hk] at hget
    cases hget
  · rw [Dict.get?_del_of_ne hw] at hget
    exact h wid data info hget hinfo

theorem Sourced.step (h : Sourced repr R d) (hk : Dict.Keys d.nodes) {e : Discovery.Event}
    (hw : Writes repr R e) (hs : d.step repr e = some d') : Sourced repr R d' := by
  by_cases he : ∃ io, e = .run io
  · obtain ⟨io, rfl⟩ := he
    cases advance_turn hs with
    | quiet hc hc' hn hp hworkers =>
      refine ⟨by rw [hn]; exact h.nodes, fun workers hwk => ?_, by rw [hp]; exact h.published⟩
      rcases hworkers workers hwk with rfl | hold
      · exact .nil
      · exact h.workers workers hold
    | @read wid rest workers data info hpc hd hi =>
      refine ⟨h.nodes, fun workers' hwk => ?_, h.published⟩
      obtain rfl := Option.some.inj hwk
      have hold := h.workers workers (by rw [hpc]; rfl)
      refine ⟨hold.keys.set wid info, fun k i hget => ?_⟩
      by_cases hkw : k = wid
      · subst hkw
        rw [Dict.get?_set_self] at hget
        cases hget
        exact h.nodes k data info hd hi
      · rw [Dict.get?_set_of_ne hkw] at hget
        exact hold.within k i hget
    | @publish workers hpc =>
      refine ⟨h.nodes, fun workers' hwk => ?_, h.published⟩
      obtain rfl := Option.some.inj hwk
      exact h.workers workers (by rw [hpc]; rfl)
    | @returned workers hpc =>
      refine ⟨h.nodes, (fun workers' hwk => by cases hwk), fun workers' hwk => ?_⟩
      obtain rfl := Option.some.inj hwk
      exact h.workers workers (by rw [hpc]; rfl)
  · have hne : ∀ io, e ≠ .run io := fun io hio => he ⟨io, hio⟩
    obtain ⟨hpc, hpub, hnodes⟩ := step_aside hne hs
    refine ⟨?_, by rw [hpc]; exact h.workers, by rw [hpub]; exact h.published⟩
    rcases hnodes with hn | ⟨wid, data, rfl | rfl, hn⟩ | ⟨wid, hn⟩
    · rw [hn]
      exact h.nodes
    · rw [hn]
      exact h.nodes.set hw
    · rw [hn]
      exact h.nodes.set hw
    · rw [hn]
      exact h.nodes.del hk wid

end Discovery

/-! ## The pool -/

section Pool

open Inference.Pool.Machine

variable {cfg : Config} {R : String → WorkerInfo → Prop} {s t : Pool.Machine.Sys} {o : Pool.Outcome}
  {who : Who} {pt pt' : Point} {eff : Effect}

/-- The snapshots that a thread inside `_update_workers` works on. -/
def entries : Point → Workers
  | .update snapshot => snapshot
  | .add _ rest => rest
  | .route _ wid info rest => (wid, info) :: rest
  | _ => []

/-- Every member is at an address of `R`, and so are the workers that are being added. -/
structure Listed (R : String → WorkerInfo → Prop) (s : Pool.Machine.Sys) : Prop where
  members : ∀ wid p, Dict.get? wid s.workers = some p →
    ∃ info, R wid info ∧ (s.proxies p).address = info.address
  adding : ∀ who, ∀ e ∈ entries (s.points who), R e.1 e.2

theorem stmt_entries (h : Stmt cfg s o pt eff pt') : ∀ e ∈ entries pt', e ∈ entries pt := by
  cases h with
  | returned p k => cases k <;> simp [Cont.after, entries]
  | present hw info snapshot rest => exact fun e he => he
  | create hw info snapshot rest => exact fun e he => he
  | route hw info snapshot rest => exact fun e he => List.mem_cons_of_mem _ he
  | update hl hs => exact fun e he => he
  | _ => simp [entries, Frame.refused, Frame.accepted]

/-- A new member was the next entry of a snapshot. -/
theorem stmt_create {wid address : String} (h : Stmt cfg s o pt (.create wid address) pt') :
    ∃ info, (wid, info) ∈ entries pt ∧ info.address = address := by
  cases h with
  | create hw info snapshot rest => exact ⟨info, List.mem_cons_self, rfl⟩

theorem Listed.act (h : Listed R s) (hb : s.Bounded) (hm : s.Members)
    (hst : Stmt cfg s o (s.points who) eff pt') :
    Listed R ((s.apply cfg who eff).goto who pt') := by
  refine ⟨fun wid p hp => ?_, fun who' => ?_⟩
  · rcases apply_get? cfg who hm.keys hp with hold | ⟨address, rfl, rfl⟩
    · obtain ⟨info, hR, ha⟩ := h.members wid p hold
      exact ⟨info, hR, (apply_workerId cfg s who eff (hb.values p (mem_values hold))).2.trans ha⟩
    · obtain ⟨info, hin, rfl⟩ := stmt_create hst
      exact ⟨info, h.adding who _ hin, by simp [Pool.Machine.Sys.apply, Pool.Machine.Sys.goto,
        Pool.Machine.Sys.setProxy]⟩
  · refine act_points (fun _ pt => ∀ e ∈ entries pt, R e.1 e.2)
      (fun e he => h.adding who e (stmt_entries hst e he)) (fun who' _ => h.adding who')
      (fun e he => ?_) who'
    simp [entries] at he

/-- **Step lemma.** -/
theorem Listed.step (h : Listed R s) (hb : s.Bounded) (hm : s.Members) {e : Pool.Machine.Event}
    (hw : ∀ n snapshot, e = .update n snapshot → ∀ x ∈ snapshot, R x.1 x.2)
    (hs : s.step cfg e = some t) : Listed R t := by
  have hstart : ∀ (n : ℕ) (pt : Point), (∀ e ∈ entries pt, R e.1 e.2) →
      ∀ who, ∀ e ∈ entries ((s.goto (.thread n) pt).points who), R e.1 e.2 := by
    intro n pt hpt who
    by_cases hwho : who = .thread n
    · subst hwho
      simpa [Pool.Machine.Sys.goto] using hpt
    · simpa [Pool.Machine.Sys.goto, hwho] using h.adding who
  cases step_cases hs with
  | tick | fail => exact ⟨h.members, h.adding⟩
  | route p state =>
    refine ⟨fun wid q hq => ?_, h.adding⟩
    obtain ⟨info, hR, ha⟩ := h.members wid q hq
    refine ⟨info, hR, Eq.trans ?_ ha⟩
    by_cases hqp : q = p
    · subst hqp
      simp [Pool.Machine.Sys.setProxy]
    · simp [Pool.Machine.Sys.setProxy, hqp]
  | @submit n batch => exact ⟨h.members, hstart n (.grouping batch []) (List.forall_mem_nil _)⟩
  | @update n snapshot => exact ⟨h.members, hstart n _ (hw n snapshot rfl)⟩
  | @stop n => exact ⟨h.members, hstart n _ (List.forall_mem_nil _)⟩
  | act hst => exact h.act hb hm hst

/-- Nobody but a caller wakes a thread that is not inside the pool. -/
theorem step_halted {n : ℕ} (h : s.points (.thread n) = .halted) {e : Pool.Machine.Event}
    (he : e.During n) (hs : s.step cfg e = some t) : t.points (.thread n) = .halted := by
  have hstart : ∀ (k : ℕ) (pt : Point), k ≠ n → (s.goto (.thread k) pt).points (.thread n) =
      .halted := by
    intro k pt hk
    have hne : Who.thread n ≠ .thread k := fun heq => hk (Who.thread.inj heq).symm
    simpa [Pool.Machine.Sys.goto, hne] using h
  cases step_cases hs with
  | tick | fail | route => exact h
  | @submit k batch => exact hstart k (.grouping batch []) he
  | update => exact absurd he id
  | @stop k => exact hstart k _ he
  | @act who _ eff pt' hst =>
    have hwho : Who.thread n ≠ who := by
      rintro rfl
      exact hst.not_halted h
    rw [show ((s.apply cfg who eff).goto who pt').points (.thread n) =
      (s.apply cfg who eff).points (.thread n) from Function.update_of_ne hwho ..]
    refine ((apply_points cfg s who eff (.thread n)).resolve_right ?_).trans h
    rintro ⟨hnew, -⟩
    cases hnew

end Pool

/-! ## The two together -/

section Together

variable {repr : String → String} {cfg : Pool.Machine.Config} {R : String → WorkerInfo → Prop}
  {s t : Sys}

/-- What one step can do. -/
inductive Steps (repr : String → String) (cfg : Pool.Machine.Config) (s : Sys) : Event → Sys → Prop
  /-- discovery moves on, outside `on_change` or by an event that is not its thread's -/
  | aside {e : Discovery.Event} {d : Discovery.Sys} (hd : s.discovery.step repr e = some d)
      (hcurrent : current d = current s.discovery) (hcalling : calling d.pc = calling s.discovery.pc) :
    Steps repr cfg s (.discovery e) ⟨d, s.pool⟩
  | publish {io : Discovery.Io} {workers : Workers} {p : Pool.Machine.Sys}
      (hpc : s.discovery.pc = .compare workers)
      (hd : s.discovery.step repr (.run io) = some (s.discovery.onChange workers))
      (hp : s.pool.step cfg (.update 0 workers) = some p) :
    Steps repr cfg s (.discovery (.run io)) ⟨s.discovery.onChange workers, p⟩
  | returned {io : Discovery.Io} {workers : Workers} (hpc : s.discovery.pc = .commit workers)
      (hhalted : s.pool.points (.thread 0) = .halted)
      (hd : s.discovery.step repr (.run io) =
        some ({ s.discovery with published := some workers } : Discovery.Sys).finished) :
    Steps repr cfg s (.discovery (.run io))
      ⟨({ s.discovery with published := some workers } : Discovery.Sys).finished, s.pool⟩
  | pool {e : Pool.Machine.Event} {p : Pool.Machine.Sys} (he : e.During 0)
      (hp : s.pool.step cfg e = some p) : Steps repr cfg s (.pool e) ⟨s.discovery, p⟩

/-- Outside `on_change` the last snapshot stays what it is. -/
theorem current_quiet {d d' : Discovery.Sys} (hc : calling d.pc = false) (hc' : calling d'.pc = false)
    (hp : d'.published = d.published) : current d' = current d := by
  rw [current_of_not_calling hc', current_of_not_calling hc, hp]

theorem advance_cases {io : Discovery.Io} (h : s.advance repr cfg io = some t) :
    Steps repr cfg s (.discovery (.run io)) t := by
  have hquiet : ∀ d, calling s.discovery.pc = false → s.discovery.advance repr io = some d →
      calling d.pc = false → Steps repr cfg s (.discovery (.run io)) ⟨d, s.pool⟩ := by
    intro d hc hd hc'
    have hturn : Turn repr s.discovery d := advance_turn hd
    refine .aside hd ?_ (hc'.trans hc.symm)
    cases hturn with
    | quiet hcd hcd' hn hp hw => exact current_quiet hc hc' hp
    | read hpc hdata hinfo => exact current_quiet hc hc' rfl
    | publish hpc => cases hc'
    | returned hpc =>
      rw [hpc] at hc
      cases hc
  unfold Sys.advance at h
  cases hpc : s.discovery.pc with
  | compare workers =>
    rw [hpc] at h
    obtain ⟨d, hd, hrest⟩ := Option.bind_eq_some_iff.mp h
    have hturn : Turn repr s.discovery d := advance_turn hd
    have hother : calling d.pc = false → d.pc ≠ .commit workers := by
      intro hc hcommit
      rw [hcommit] at hc
      cases hc
    cases hturn with
    | quiet hc hc' hn hp hw =>
      rw [if_neg (hother hc')] at hrest
      obtain rfl := Option.some.inj hrest
      exact hquiet d hc hd hc'
    | read hpc' hdata hinfo => exact absurd (hpc.symm.trans hpc') (by simp)
    | @publish workers' hpc' =>
      obtain rfl : workers = workers' := Discovery.Pc.compare.inj (hpc.symm.trans hpc')
      rw [if_pos (show (s.discovery.onChange workers).pc = .commit workers from rfl)] at hrest
      obtain ⟨p, hp, rfl⟩ := Option.map_eq_some_iff.mp hrest
      exact .publish hpc hd hp
    | returned hpc' => exact absurd (hpc.symm.trans hpc') (by simp)
  | commit workers =>
    rw [hpc] at h
    dsimp only at h
    split at h
    · rename_i hhalted
      obtain ⟨d, hd, rfl⟩ := Option.map_eq_some_iff.mp h
      have heq : d = ({ s.discovery with published := some workers } : Discovery.Sys).finished := by
        rw [Discovery.Sys.advance, hpc] at hd
        exact (Option.some.inj hd).symm
      subst heq
      exact .returned hpc hhalted hd
    · cases h
  | _ =>
    rw [hpc] at h
    obtain ⟨d, hd, rfl⟩ := Option.map_eq_some_iff.mp h
    have hc : calling s.discovery.pc = false := by rw [hpc]; rfl
    have hturn : Turn repr s.discovery d := advance_turn hd
    refine hquiet d hc hd ?_
    cases hturn with
    | quiet hcd hcd' hn hp hw => exact hcd'
    | read hpc' hdata hinfo => rfl
    | publish hpc' => exact absurd (hpc.symm.trans hpc') (by simp)
    | returned hpc' => exact absurd (hpc.symm.trans hpc') (by simp)

/-- **Inversion.** -/
theorem step_cases {e : Event} (h : s.step repr cfg e = some t) : Steps repr cfg s e t := by
  have haside : ∀ e : Discovery.Event, (∀ io, e ≠ .run io) →
      ((s.discovery.step repr e).map fun d => (⟨d, s.pool⟩ : Sys)) = some t →
      Steps repr cfg s (.discovery e) t := by
    intro e he hmap
    obtain ⟨d, hd, rfl⟩ := Option.map_eq_some_iff.mp hmap
    obtain ⟨hpc, hpub, -⟩ := step_aside he hd
    exact .aside hd (by unfold current; rw [hpc, hpub]) (by rw [hpc])
  cases e with
  | discovery e =>
    cases e with
    | run io => exact advance_cases h
    | _ => exact haside _ (by simp) h
  | pool e =>
    simp only [Sys.step] at h
    split at h
    · rename_i hf
      obtain ⟨p, hp, rfl⟩ := Option.map_eq_some_iff.mp h
      exact .pool (during_of_foreign hf) hp
    · cases h

open Inference.Pool.Machine (InCall Reduced Course)

/-- The pool is inside the call with the last snapshot, or has returned from it. -/
structure Linked (repr : String → String) (R : String → WorkerInfo → Prop) (s : Sys) : Prop where
  discovery : s.discovery.Inv repr
  sourced : Sourced repr R s.discovery
  listed : Listed R s.pool
  call : ∃ before, InCall 0 (current s.discovery) before s.pool
  halted : calling s.discovery.pc = false → s.pool.points (.thread 0) = .halted

theorem Sourced.current {d : Discovery.Sys} (h : Sourced repr R d) : Snapshot R (current d) := by
  cases hpc : d.pc with
  | commit workers =>
    have hcurrent : Cluster.current d = workers := by unfold Cluster.current; rw [hpc]
    rw [hcurrent]
    exact h.workers workers (by rw [hpc]; rfl)
  | _ =>
    rw [current_of_not_calling (by rw [hpc]; rfl)]
    cases hpub : d.published with
    | none => exact .nil
    | some workers => exact h.published workers hpub

/-- **Step lemma.** -/
theorem Linked.step (h : Linked repr R s) {e : Event}
    (hw : ∀ d, e = .discovery d → Writes repr R d) (hs : s.step repr cfg e = some t) :
    Linked repr R t := by
  obtain ⟨before, hcall⟩ := h.call
  cases step_cases hs with
  | @aside e d hd hcurrent hcalling =>
    refine ⟨h.discovery.step hd, h.sourced.step h.discovery.keys (hw e rfl) hd, h.listed,
      ⟨before, ?_⟩, fun hc => h.halted (hcalling.symm.trans hc)⟩
    rw [hcurrent]
    exact hcall
  | @publish io workers p hpc hd hp =>
    have hsource := h.sourced.step h.discovery.keys (e := .run io) trivial hd
    obtain ⟨hbegin, -⟩ := InCall.begin hcall.bounded hcall.guarded hcall.members hcall.alone hp
    refine ⟨h.discovery.step hd, hsource, ?_, ⟨s.pool, hbegin⟩, fun hc => by cases hc⟩
    refine h.listed.step hcall.bounded hcall.members (fun n snapshot heq x hx => ?_) hp
    obtain ⟨-, rfl⟩ := Pool.Machine.Event.update.inj heq
    have hsnapshot := hsource.current
    exact hsnapshot.within x.1 x.2 (Dict.get?_of_mem hsnapshot.keys hx)
  | @returned io workers hpc hhalted hd =>
    refine ⟨h.discovery.step hd, h.sourced.step h.discovery.keys (e := .run io) trivial hd, h.listed,
      ⟨before, ?_⟩, fun _ => hhalted⟩
    have hcurrent : current s.discovery = workers := by unfold current; rw [hpc]
    rw [hcurrent] at hcall
    exact hcall
  | @pool e p he hp =>
    refine ⟨h.discovery, h.sourced, ?_, ⟨before, hcall.step h.sourced.current.keys he hp⟩,
      fun hc => step_halted (h.halted hc) he hp⟩
    refine h.listed.step hcall.bounded hcall.members (fun n snapshot heq => ?_) hp
    subst heq
    exact absurd he id

theorem linked_init (hd : s.discovery.Init) (hp : s.pool.Init)
    (hR : Within repr R s.discovery.nodes) : Linked repr R s where
  discovery := hd.inv
  sourced := by
    refine ⟨hR, fun workers hw => ?_, fun workers hw => ?_⟩
    · rw [hd.pc] at hw
      cases hw
    · rw [hd.published] at hw
      cases hw
  listed := by
    refine ⟨fun wid p hget => ?_, fun who e he => ?_⟩
    · rw [hp.workers] at hget
      cases hget
    · rw [hp.points who] at he
      cases he
  call := by
    have hcurrent : current s.discovery = [] := by
      rw [current_of_not_calling (by rw [hd.pc]; rfl), hd.published]
      rfl
    refine ⟨s.pool, hp.bounded, hp.guarded, hp.members, fun who _ => ?_, le_rfl, fun _ _ => rfl,
      fun _ => ?_⟩
    · rw [hp.points who]
      rfl
    · rw [hp.points, hcurrent]
      refine ⟨fun wid p hk => absurd rfl hk, fun wid p hget => ?_, List.forall_mem_nil _,
        fun wid info hin => ?_⟩
      · rw [hp.workers] at hget
        cases hget
      · cases hin
  halted := fun _ => hp.points _

/-- **Run lemma.** -/
theorem linked_exec {s₀ : Sys} {es : List Event} (hd : s₀.discovery.Init) (hp : s₀.pool.Init)
    (hR : Within repr R s₀.discovery.nodes) (hw : ∀ d, .discovery d ∈ es → Writes repr R d)
    (hrun : exec (Sys.step repr cfg) s₀ es = some s) : Linked repr R s := by
  have hmeets : Meets (Sys.step repr cfg) (fun _ e => ∀ d, e = .discovery d → Writes repr R d)
      s₀ es := by
    refine meets_of_forall (fun e he s d hed => hw d ?_) s₀
    rw [← hed]
    exact he
  exact exec_inv_meets (fun _ _ _ hw h hs => h.step hw hs) hmeets (linked_init hd hp hR) hrun

/-- Between two calls the pool has the members of the last snapshot, in its states, and whoever runs
is one of them. -/
theorem Linked.mirrors (h : Linked repr R s) (hc : calling s.discovery.pc = false)
    (hstop : s.pool.stopping = false) :
    (∀ wid, Dict.get? wid (current s.discovery) = none → Dict.get? wid s.pool.workers = none) ∧
    (∀ wid info, Dict.get? wid (current s.discovery) = some info →
      ∃ p, Dict.get? wid s.pool.workers = some p ∧ (s.pool.proxies p).routing = info.state) ∧
    ∀ q, (s.pool.proxies q).stop = false →
      Dict.get? (s.pool.proxies q).workerId s.pool.workers = some q := by
  obtain ⟨before, hcall⟩ := h.call
  have hcourse := hcall.course hstop
  rw [h.halted hc] at hcourse
  have hred : Reduced before (current s.discovery) s.pool [] := hcourse
  refine ⟨fun wid hn => ?_, fun wid info hget => ?_, fun q hq => ?_⟩
  · cases hget : Dict.get? wid s.pool.workers with
    | none => rfl
    | some p =>
      rcases hred.covered wid p hget with hin | hin
      · exact absurd hn hin
      · simp at hin
  · obtain ⟨p, hp, hr, -⟩ := hred.done wid info (Dict.mem_of_get? hget)
    exact ⟨p, hp, hr⟩
  · have hidle : ∀ who, (s.pool.points who).updating = false := by
      intro who
      by_cases hw : who = .thread 0
      · rw [hw, h.halted hc]
        rfl
      · by_contra hup
        have hupdater := Pool.Machine.updater_of_updating (by simpa using hup)
        simp [hcall.alone who hw] at hupdater
    have hin := hcall.guarded.running hstop hidle hq
    obtain ⟨⟨wid, q'⟩, hmem, rfl⟩ := List.mem_map.mp hin
    have hget := Dict.get?_of_mem hcall.members.keys hmem
    rw [hcall.members.ids wid q' hget]
    exact hget

/-- The routing table is the registrations: one running proxy for each znode, under its ID and in its
state, and none besides. -/
structure Follows (repr : String → String) (nodes : Nodes) (s : Pool.Machine.Sys) : Prop where
  absent : ∀ wid, Dict.get? wid nodes = none → Dict.get? wid s.workers = none
  present : ∀ wid data, Dict.get? wid nodes = some data → ∃ info p,
    parseWorker repr data = some info ∧ Dict.get? wid s.workers = some p ∧
    (s.proxies p).workerId = wid ∧ (s.proxies p).stop = false ∧ (s.proxies p).routing = info.state
  running : ∀ q, (s.proxies q).stop = false → Dict.get? (s.proxies q).workerId s.workers = some q

/-- Discovery waits, and nobody is about to wake it: the routing table is the registrations. -/
theorem Linked.follows (h : Linked repr R s) (hwait : s.discovery.pc = .wait)
    (hquiet : s.discovery.Quiet) (hstop : s.pool.stopping = false) :
    Follows repr s.discovery.nodes s.pool := by
  have hc : calling s.discovery.pc = false := by rw [hwait]; rfl
  obtain ⟨habsent, hpresent, hrunning⟩ := h.mirrors hc hstop
  have hmatches : s.discovery.Matches repr (current s.discovery) := by
    have hfresh := h.discovery.fresh hquiet
    rw [hwait] at hfresh
    obtain ⟨c, older, hcalls, hmatch, -⟩ := hfresh
    have hpub := h.discovery.published.resolve_left (by simp [hwait])
    rw [current_of_not_calling hc, hpub, hcalls]
    exact hmatch
  obtain ⟨before, hcall⟩ := h.call
  refine ⟨fun wid hn => habsent wid ?_, fun wid data hget => ?_, hrunning⟩
  · have hm := hmatches wid
    rw [hn] at hm
    simpa using hm
  · have hm := hmatches wid
    rw [hget, Option.map_some] at hm
    obtain ⟨info, hinfo, hparse⟩ := Option.map_eq_some_iff.mp hm
    obtain ⟨p, hget', hrouting⟩ := hpresent wid info hinfo
    exact ⟨info, p, hparse.symm, hget', hcall.members.ids wid p hget', hcall.members.live wid p hget',
      hrouting⟩

/-- The ID has one address, in the znodes to begin with and in everything that is written. -/
def OneAddress (repr : String → String) (addr : String → String) (nodes : Nodes)
    (es : List Event) : Prop :=
  Within repr (fun wid info => info.address = addr wid) nodes ∧
    ∀ d, .discovery d ∈ es → Writes repr (fun wid info => info.address = addr wid) d

/-- **The routing table follows ZooKeeper.**  However znodes, watches, failures, reconnections,
submissions, dispatches and calls of `_update_workers` interleave: when the refresh thread waits with
its flag clear and no callback is pending, and the pool is not stopping, every registered worker has
exactly one running proxy, in the state it is registered with, and no other proxy runs.  The proxy is
at the registered address when no ID ever changes its address. -/
theorem routing_follows_zookeeper (repr : String → String) (cfg : Pool.Machine.Config) {s₀ s : Sys}
    {es : List Event} (hd : s₀.discovery.Init) (hp : s₀.pool.Init)
    (hrun : exec (Sys.step repr cfg) s₀ es = some s) (hwait : s.discovery.pc = .wait)
    (hquiet : s.discovery.Quiet) (hstop : s.pool.stopping = false) :
    Follows repr s.discovery.nodes s.pool ∧
    ∀ addr, OneAddress repr addr s₀.discovery.nodes es → ∀ wid data info p,
      Dict.get? wid s.discovery.nodes = some data → parseWorker repr data = some info →
      Dict.get? wid s.pool.workers = some p → (s.pool.proxies p).address = info.address := by
  have hlink : ∀ R : String → WorkerInfo → Prop, Within repr R s₀.discovery.nodes →
      (∀ d, .discovery d ∈ es → Writes repr R d) → Linked repr R s :=
    fun R hR hw => linked_exec hd hp hR hw hrun
  have h := hlink (fun _ _ => True) (fun _ _ _ _ _ => trivial) fun d _ => by
    cases d <;> simp [Writes]
  refine ⟨h.follows hwait hquiet hstop, fun addr haddr wid data info p hget hparse hmember => ?_⟩
  have h := hlink _ haddr.1 haddr.2
  obtain ⟨info', haddr', heq⟩ := h.listed.members wid p hmember
  rw [heq, haddr', h.sourced.nodes wid data info hget hparse]

/-- The ID was registered with these data: before the run, or by one of its events. -/
def Registered (s₀ : Sys) (es : List Event) (wid : String) (data : List UInt8) : Prop :=
  Dict.get? wid s₀.discovery.nodes = some data ∨ .discovery (.create wid data) ∈ es ∨
    .discovery (.setData wid data) ∈ es

/-- **No ghost workers.**  At every moment, in the middle of any refresh or of any call too, every
member of the pool is at an address that has been registered for its own ID. -/
theorem members_registered (repr : String → String) (cfg : Pool.Machine.Config) {s₀ s : Sys}
    {es : List Event} (hd : s₀.discovery.Init) (hp : s₀.pool.Init)
    (hrun : exec (Sys.step repr cfg) s₀ es = some s) {wid : String} {p : ℕ}
    (hmember : Dict.get? wid s.pool.workers = some p) :
    ∃ data info, Registered s₀ es wid data ∧ parseWorker repr data = some info ∧
      (s.pool.proxies p).workerId = wid ∧ (s.pool.proxies p).address = info.address := by
  have h : Linked repr (fun wid info => ∃ data, Registered s₀ es wid data ∧
      parseWorker repr data = some info) s := by
    refine linked_exec hd hp (fun wid data info hget hinfo => ⟨data, .inl hget, hinfo⟩)
      (fun d hin => ?_) hrun
    cases d with
    | create wid data => exact fun info hinfo => ⟨data, .inr (.inl hin), hinfo⟩
    | setData wid data => exact fun info hinfo => ⟨data, .inr (.inr hin), hinfo⟩
    | _ => trivial
  obtain ⟨info, ⟨data, hreg, hparse⟩, ha⟩ := h.listed.members wid p hmember
  obtain ⟨before, hcall⟩ := h.call
  exact ⟨data, info, hreg, hparse, hcall.members.ids wid p hmember, ha⟩

/-! Worker `a` is there when discovery starts, and `b` registers while the first snapshot is being
published. -/

def sampleStart : Sys := ⟨Discovery.Sys.sampleStart, Pool.Machine.sampleStart⟩

def turn : Event := .discovery (.run {})

def listing (children : List String) : Event := .discovery (.run { children := children })

def act : Event := .pool (.act (.thread 0) Pool.Machine.lost)

def joinRun : List Event :=
  listing ["a"] :: List.replicate 8 turn ++ List.replicate 6 act ++
  .discovery (.create "b" [98, 58, 50]) :: turn :: .discovery (.callback .children) ::
    List.replicate 4 turn ++
  listing ["b", "a"] :: List.replicate 10 turn ++ List.replicate 8 act ++ List.replicate 2 turn

theorem sampleStart_init : sampleStart.discovery.Init :=
  ⟨rfl, rfl, rfl, rfl, rfl, rfl, rfl, rfl, by simp [sampleStart, Discovery.Sys.sampleStart, Dict.Keys]⟩

theorem joinRun_ends : (exec (Sys.step id Pool.Machine.sampleConfig) sampleStart joinRun).map
    (fun s => (s.discovery.pc, [s.discovery.stop, s.discovery.wakeup, !s.discovery.pending.isEmpty,
      s.pool.stopping], s.pool.workers)) =
    some (.wait, [false, false, false, false], [("a", 0), ("b", 1)]) := by
  decide +kernel

theorem routing_follows_zookeeper_join : ∃ s,
    exec (Sys.step id Pool.Machine.sampleConfig) sampleStart joinRun = some s ∧
    s.pool.workers = [("a", 0), ("b", 1)] ∧ Follows id s.discovery.nodes s.pool := by
  obtain ⟨s, hs, hv⟩ := Option.map_eq_some_iff.mp joinRun_ends
  simp only [Prod.mk.injEq, List.cons.injEq, and_true, Bool.not_eq_false', List.isEmpty_iff] at hv
  obtain ⟨hpc, ⟨hstop, hwake, hpending, hstopping⟩, hworkers⟩ := hv
  exact ⟨s, hs, hworkers, (routing_follows_zookeeper id Pool.Machine.sampleConfig sampleStart_init
    Pool.Machine.sampleStart_init hs hpc ⟨hstop, hwake, hpending⟩ hstopping).1⟩

theorem members_registered_join : ∃ s data info,
    exec (Sys.step id Pool.Machine.sampleConfig) sampleStart joinRun = some s ∧
    Registered sampleStart joinRun "b" data ∧ parseWorker id data = some info ∧
    (s.pool.proxies 1).address = info.address := by
  obtain ⟨s, hs, hv⟩ := Option.map_eq_some_iff.mp joinRun_ends
  simp only [Prod.mk.injEq] at hv
  have hmember : Dict.get? "b" s.pool.workers = some 1 := by
    rw [hv.2.2]
    rfl
  obtain ⟨data, info, hreg, hparse, -, ha⟩ := members_registered id Pool.Machine.sampleConfig
    sampleStart_init Pool.Machine.sampleStart_init hs hmember
  exact ⟨s, data, info, hs, hreg, hparse, ha⟩

end Together

end Inference.Cluster
