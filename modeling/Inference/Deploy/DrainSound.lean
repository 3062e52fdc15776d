import Inference.Deploy.Traffic
import Inference.Lib.Run
import Inference.Lib.History

/-!
# Inference.Deploy.DrainSound — what a returned `wait_idle` guarantees

* `GwShut`, `WkShut`: the marker is there and the gate is quiet.
* `Inv`: what the rollout knows at each point; the worker marker stands only over a shut gateway.
* `step_frame`, `step_worker`: what the other events leave alone.
* `drain_sound`: what a normal return of `wait_idle` guarantees until a marker is removed, when the
  adapter answers that it is updating, and in which order the markers come and go.
-/

namespace Inference.Deploy.Drain

open Inference.Lib

/-- The gateway marker is there and the gateway is quiet. -/
def GwShut (s : Sys) : Prop := s.gateway.Quiet ∧ s.gatewayMarker.state.1 = true

/-- The worker marker is there and the adapter is quiet. -/
def WkShut (s : Sys) : Prop := s.worker.Quiet ∧ s.workerMarker.state.1 = true

/-! ## What the rollout knows -/

/-- A gateway snapshot with this run's token and nothing active has been observed. -/
def Seen (s : Sys) : Prop :=
  ∃ sn, Note.gatewaySeen sn ∈ s.log ∧ sn.draining = true ∧ sn.drainId = s.token ∧ sn.active = 0

/-- The order of the record: the worker marker comes after such a snapshot, and the gateway marker
goes after the worker marker. -/
def Note.Just (n : Note) (older : List Note) : Prop :=
  match n with
  | .published .worker token => ∃ sn, .gatewaySeen sn ∈ older ∧ sn.draining = true ∧
      sn.drainId = token ∧ sn.active = 0
  | .removed .gateway => .removed .worker ∈ older ∨ ∀ token, .published .worker token ∉ older
  | _ => True

/-- Points after which the markers are no longer tracked. -/
def Pc.over : Pc → Bool
  | .endBackend | .ended | .stuck => true
  | _ => false

/-- What is true at each point of the rollout. -/
def Pc.Know (s : Sys) : Pc → Prop
  | .fenceAdd .gateway => Name.worker ∉ s.names
  | .fence .gateway => Name.worker ∉ s.names ∧ Name.gateway ∈ s.names
  | .start | .beginBackend | .waitBackend => s.names = []
  | .gotGateway _ _ sn => sn.draining = true → sn.active = 0 → GwShut s
  | .busy _ quietGw => quietGw = true → GwShut s ∧ Seen s
  | .fenceAdd .worker => GwShut s ∧ Seen s
  | .fence .worker => (GwShut s ∧ Seen s) ∧ Name.worker ∈ s.names
  | .probeWorker => GwShut s
  | .gotWorker sn => GwShut s ∧ (sn.draining = true → sn.active = 0 → WkShut s)
  | .protect | .idle => GwShut s ∧ WkShut s
  | .endUnlinkGateway => s.workerMarker = .absent ∧
      (.removed .worker ∈ s.log ∨ ∀ token, .published .worker token ∉ s.log)
  | _ => True

structure Inv (s : Sys) : Prop where
  traffic : Traffic s
  know : s.rollout.Know s
  fence : s.workerMarker ≠ .absent → GwShut s
  settled : .returned ∈ s.log → (∀ n, .removed n ∉ s.log) → GwShut s ∧ WkShut s
  tracked : ∀ n, n ∉ s.names → s.marker n = .absent
  listed : s.rollout.over = false → ∀ n, n ∉ s.names → ∀ token, .published n token ∉ s.log
  log : Each Note.Just s.log

theorem inv_init {s : Sys} (h : Init s) : Inv s := by
  obtain ⟨htasks, hg, hw, hgm, hwm, hpc, hnames, hlog⟩ := h
  refine ⟨⟨hg ▸ Gate.wf_empty, hw ▸ Gate.wf_empty, fun k t ht => by simp [htasks] at ht,
    fun i k pc seen hi => by simp [hg] at hi, fun i x hi => by simp [hg] at hi⟩, ?_,
    fun hne => absurd hwm hne, fun hr => by simp [hlog] at hr, fun n _ => ?_,
    fun _ n _ token hp => by simp [hlog] at hp, by rw [hlog]; exact each_nil⟩
  · rw [hpc]
    exact hnames
  · cases n
    · exact hgm
    · exact hwm

section Steps

variable {s t : Sys}

/-- What the rollout knows survives when the shut processes stay shut. -/
theorem Pc.Know.mono {pc : Pc} (h : pc.Know s) (hg : GwShut s → GwShut t) (hw : WkShut s → WkShut t)
    (hm : t.workerMarker = s.workerMarker) (hn : t.names = s.names) (hl : t.log = s.log)
    (ht : t.token = s.token) : pc.Know t := by
  have hseen : Seen s → Seen t := by
    intro hs
    unfold Seen at hs ⊢
    rwa [hl, ht]
  cases pc with
  | start | beginBackend | waitBackend => exact hn.trans h
  | fenceAdd n =>
    cases n with
    | gateway => exact fun hc => h (hn ▸ hc)
    | worker => exact ⟨hg h.1, hseen h.2⟩
  | fence n =>
    cases n with
    | gateway => exact ⟨fun hc => h.1 (hn ▸ hc), hn.symm ▸ h.2⟩
    | worker => exact ⟨⟨hg h.1.1, hseen h.1.2⟩, hn.symm ▸ h.2⟩
  | gotGateway a q sn => exact fun h1 h2 => hg (h h1 h2)
  | busy q b => exact fun hi => ⟨hg (h hi).1, hseen (h hi).2⟩
  | probeWorker => exact hg h
  | gotWorker sn => exact ⟨hg h.1, fun h1 h2 => hw (h.2 h1 h2)⟩
  | protect | idle => exact ⟨hg h.1, hw h.2⟩
  | endUnlinkGateway => exact ⟨hm.trans h.1, hl.symm ▸ h.2⟩
  | _ => trivial

/-- A step of the traffic: the rollout and the markers stay, and what is shut stays shut. -/
theorem Inv.others (h : Inv s) (htr : Traffic t) (hg : GwShut s → GwShut t) (hw : WkShut s → WkShut t)
    (hm : ∀ n, t.marker n = s.marker n) (hpc : t.rollout = s.rollout) (hn : t.names = s.names)
    (hl : t.log = s.log) (ht : t.token = s.token) : Inv t := by
  refine ⟨htr, ?_, fun hne => hg (h.fence ?_), fun hr hrem => ?_, fun n hnn => ?_, ?_, hl ▸ h.log⟩
  · rw [hpc]
    exact h.know.mono hg hw (hm .worker) hn hl ht
  · rwa [← show t.workerMarker = s.workerMarker from hm .worker]
  · rw [hl] at hr hrem
    exact ⟨hg (h.settled hr hrem).1, hw (h.settled hr hrem).2⟩
  · rw [hm]
    exact h.tracked n (hn ▸ hnn)
  · rw [hpc, hn, hl]
    exact h.listed

/-- A step of the rollout that only moves on. -/
theorem Inv.goto (h : Inv s) {pc : Pc} (hk : pc.Know s)
    (hover : s.rollout.over = true → pc.over = true) : Inv { s with rollout := pc } := by
  refine ⟨h.traffic.same rfl h.traffic.worker rfl rfl, ?_, h.fence, h.settled, h.tracked,
    fun ho => h.listed ?_, h.log⟩
  · exact hk.mono id id rfl rfl rfl rfl
  · by_contra hc
    have := hover (by simpa using hc)
    simp [ho] at this

theorem GwShut.not_absent (h : GwShut s) : s.gatewayMarker ≠ .absent := by
  intro hc
  have := h.2
  simp [hc, Marker.state] at this

/-- The gateway answers a probe: if it shows our marker and nothing active, it is shut. -/
theorem Inv.gatewayProbe (h : Inv s) {sn : Snapshot}
    (hs : s.gateway.snapshot s.gatewayMarker = some sn) :
    sn.draining = true → sn.active = 0 → GwShut s := by
  intro hd h0
  refine ⟨h.traffic.gateway.quiet_of_snapshot hs h0, ?_⟩
  unfold Gate.snapshot at hs
  split at hs
  · obtain rfl := Option.some.inj hs
    exact hd
  · simp at hs

theorem Inv.workerProbe (h : Inv s) {sn : Snapshot}
    (hs : s.worker.snapshot s.workerMarker = some sn) :
    sn.draining = true → sn.active = 0 → WkShut s := by
  intro hd h0
  refine ⟨h.traffic.worker.quiet_of_snapshot hs h0, ?_⟩
  unfold Gate.snapshot at hs
  split at hs
  · obtain rfl := Option.some.inj hs
    exact hd
  · simp at hs

/-- The gateway marker is published: nothing is shut yet, and nothing needs to be. -/
theorem Inv.publishGateway (h : Inv s) (hpc : s.rollout = .fence .gateway) {u : Sys} {pc : Pc}
    (hu : publish s .gateway = some u) (hk : ∀ v : Sys, v.names = s.names → pc.Know v) :
    Inv { u with rollout := pc } := by
  have hknow := h.know
  rw [hpc] at hknow
  have hworker : s.workerMarker = .absent := h.tracked .worker hknow.1
  unfold publish at hu
  split at hu
  · rename_i tok hm htok
    obtain rfl := Option.some.inj hu
    refine ⟨h.traffic.same rfl h.traffic.worker rfl rfl, hk _ rfl, fun hne => absurd hworker hne,
      fun hr hrem => ?_, fun n hn => ?_, fun _ n hn token hp => ?_, h.log.cons trivial⟩
    · -- the gateway was open until now, so `wait_idle` has not returned
      simp only [List.mem_cons, reduceCtorEq, false_or] at hr hrem
      exact absurd hm (h.settled hr fun n => (hrem n)).1.not_absent
    · cases n with
      | gateway => exact absurd hknow.2 hn
      | worker => exact hworker
    · rcases List.mem_cons.mp hp with heq | hp
      · obtain ⟨rfl, -⟩ := Note.published.inj heq
        exact hn hknow.2
      · exact h.listed (by rw [hpc]; rfl) n hn token hp
  · simp at hu

/-- The worker marker is published, over a shut gateway that was seen idle. -/
theorem Inv.publishWorker (h : Inv s) (hpc : s.rollout = .fence .worker) {u : Sys} {pc : Pc}
    (hu : publish s .worker = some u) (hk : ∀ v : Sys, GwShut v → pc.Know v) :
    Inv { u with rollout := pc } := by
  have hknow := h.know
  rw [hpc] at hknow
  obtain ⟨⟨hshut, sn, hsn, hsd, hst, hs0⟩, hname⟩ := hknow
  unfold publish at hu
  split at hu
  · rename_i tok hm htok
    obtain rfl := Option.some.inj hu
    refine ⟨h.traffic.same rfl h.traffic.worker rfl rfl, hk _ hshut, fun _ => hshut,
      fun hr hrem => ?_, fun n hn => ?_, fun _ n hn token hp => ?_,
      h.log.cons ⟨sn, hsn, hsd, hst, hs0⟩⟩
    · simp only [List.mem_cons, reduceCtorEq, false_or] at hr hrem
      have hw := (h.settled hr fun n => (hrem n)).2.2
      have hm' : s.workerMarker = .absent := hm
      simp [hm', Marker.state] at hw
    · cases n with
      | gateway => exact h.tracked .gateway hn
      | worker => exact absurd hname hn
    · rcases List.mem_cons.mp hp with heq | hp
      · obtain ⟨rfl, -⟩ := Note.published.inj heq
        exact hn hname
      · exact h.listed (by rw [hpc]; rfl) n hn token hp
  · simp at hu

/-- The worker marker is removed. -/
theorem Inv.unlinkWorker (h : Inv s) (hpc : s.rollout = .endUnlinkWorker) :
    Inv { s with workerMarker := .absent, log := .removed .worker :: s.log,
                 rollout := .endUnlinkGateway } := by
  refine ⟨h.traffic.same rfl h.traffic.worker rfl rfl, ⟨rfl, .inl List.mem_cons_self⟩,
    fun hne => absurd rfl hne, fun _ hrem => absurd List.mem_cons_self (hrem .worker),
    fun n hn => ?_, fun _ n hn token hp => ?_, h.log.cons trivial⟩
  · cases n with
    | gateway => exact h.tracked .gateway hn
    | worker => rfl
  · rcases List.mem_cons.mp hp with heq | hp
    · simp at heq
    · exact h.listed (by rw [hpc]; rfl) n hn token hp

/-- The gateway marker is removed, after the worker marker. -/
theorem Inv.unlinkGateway (h : Inv s) (hpc : s.rollout = .endUnlinkGateway) :
    Inv { s with gatewayMarker := .absent, log := .removed .gateway :: s.log, names := [],
                 token := none, rollout := .endBackend } := by
  have hknow := h.know
  rw [hpc] at hknow
  refine ⟨h.traffic.same rfl h.traffic.worker rfl rfl, trivial, fun hne => absurd hknow.1 hne,
    fun _ hrem => absurd List.mem_cons_self (hrem .gateway), fun n _ => ?_,
    fun ho => by simp [Pc.over] at ho, h.log.cons hknow.2⟩
  cases n with
  | gateway => rfl
  | worker => exact hknow.1

/-- No gateway marker was published: there is nothing to remove. -/
theorem Inv.clear (h : Inv s) (hpc : s.rollout = .endUnlinkGateway) (hname : Name.gateway ∉ s.names) :
    Inv { s with names := [], token := none, rollout := .endBackend } := by
  have hknow := h.know
  rw [hpc] at hknow
  refine ⟨h.traffic.same rfl h.traffic.worker rfl rfl, trivial, h.fence, h.settled, fun n _ => ?_,
    fun ho => by simp [Pc.over] at ho, h.log⟩
  cases n with
  | gateway => exact h.tracked .gateway hname
  | worker => exact hknow.1

/-- Entries of the record that concern no marker. -/
theorem Inv.note (h : Inv s) {n : Note} (hj : n.Just s.log) (hp : ∀ m token, n ≠ .published m token)
    (hr : n = .returned → GwShut s ∧ WkShut s) : Inv { s with log := n :: s.log } := by
  refine ⟨h.traffic.same rfl h.traffic.worker rfl rfl, ?_, h.fence, fun hret hrem => ?_, h.tracked,
    fun ho m hm token hpub => ?_, h.log.cons hj⟩
  · have hknow := h.know
    have hseen : Seen s → Seen { s with log := n :: s.log } :=
      fun ⟨sn, hsn, h'⟩ => ⟨sn, List.mem_cons_of_mem _ hsn, h'⟩
    cases hpc : s.rollout with
    | fenceAdd m =>
      rw [hpc] at hknow
      cases m with
      | gateway => exact hknow
      | worker => exact ⟨hknow.1, hseen hknow.2⟩
    | fence m =>
      rw [hpc] at hknow
      cases m with
      | gateway => exact hknow
      | worker => exact ⟨⟨hknow.1.1, hseen hknow.1.2⟩, hknow.2⟩
    | busy q b =>
      rw [hpc] at hknow
      exact fun hb => ⟨(hknow hb).1, hseen (hknow hb).2⟩
    | endUnlinkGateway =>
      rw [hpc] at hknow
      refine ⟨hknow.1, hknow.2.imp (List.mem_cons_of_mem _) fun hno token hm => ?_⟩
      rcases List.mem_cons.mp hm with heq | hm
      · exact hp _ _ heq.symm
      · exact hno token hm
    | _ =>
      rw [hpc] at hknow
      exact hknow
  · have hrem' : ∀ m, Note.removed m ∉ s.log := fun m hm => hrem m (List.mem_cons_of_mem _ hm)
    rcases List.mem_cons.mp hret with heq | hret
    · exact hr heq.symm
    · exact h.settled hret hrem'
  · rcases List.mem_cons.mp hpub with heq | hpub
    · exact hp _ _ heq.symm
    · exact h.listed ho m hm token hpub

/-- The rollout touches no handler of the adapter. -/
theorem rolloutStep_worker {io : Io} (hs : rolloutStep s io = some t) : t.worker = s.worker := by
  cases hpc : s.rollout with
  | probeGateway _ _ | probeWorker =>
    simp only [rolloutStep, hpc] at hs
    split at hs
    · obtain rfl := Option.some.inj hs
      rfl
    · obtain ⟨sn, -, rfl⟩ := Option.map_eq_some_iff.mp hs
      rfl
  | fence n =>
    simp only [rolloutStep, hpc, Option.some.injEq] at hs
    split at hs
    · subst hs
      rfl
    · split at hs
      · subst hs
        rfl
      · rename_i u hu
        subst hs
        unfold publish at hu
        split at hu
        · obtain rfl := Option.some.inj hu
          cases n <;> rfl
        · simp at hu
  | endCheck left =>
    cases left <;> simp only [rolloutStep, hpc, Option.some.injEq] at hs <;> subst hs <;> rfl
  | ended => simp [rolloutStep, hpc] at hs
  | stuck => simp [rolloutStep, hpc] at hs
  | _ =>
    simp only [rolloutStep, hpc, Option.some.injEq] at hs
    (repeat' split at hs) <;> subst hs <;> rfl

/-- A name is tracked before its marker is published. -/
theorem Inv.track (h : Inv s) {n : Name} (hpc : s.rollout = .fenceAdd n) :
    Inv { s with names := if n ∈ s.names then s.names else s.names ++ [n], rollout := .fence n } := by
  have hsub : ∀ m, m ∈ s.names → m ∈ (if n ∈ s.names then s.names else s.names ++ [n]) := by
    intro m hm
    split
    · exact hm
    · exact List.mem_append_left _ hm
  have hmem : n ∈ (if n ∈ s.names then s.names else s.names ++ [n]) := by
    split
    · assumption
    · simp
  have hknow := h.know
  rw [hpc] at hknow
  refine ⟨h.traffic.same rfl h.traffic.worker rfl rfl, ?_, h.fence, h.settled,
    fun m hm => h.tracked m fun hc => hm (hsub m hc),
    fun _ m hm => h.listed (by rw [hpc]; rfl) m fun hc => hm (hsub m hc), h.log⟩
  cases n with
  | gateway =>
    refine ⟨?_, hmem⟩
    show Name.worker ∉ (if Name.gateway ∈ s.names then s.names else s.names ++ [Name.gateway])
    have hw : Name.worker ∉ s.names := hknow
    split
    · exact hw
    · simpa using hw
  | worker => exact ⟨hknow, hmem⟩

/-- **The rollout's own step.** -/
theorem rolloutStep_inv {io : Io} (h : Inv s) (hs : rolloutStep s io = some t) : Inv t := by
  have hknow := h.know
  cases hpc : s.rollout with
  | start =>
    simp only [rolloutStep, hpc, Option.some.injEq] at hs
    subst hs
    rw [hpc] at hknow
    exact ⟨h.traffic.same rfl h.traffic.worker rfl rfl, hknow, h.fence, h.settled, h.tracked,
      fun _ => h.listed (by rw [hpc]; rfl), h.log⟩
  | beginBackend =>
    simp only [rolloutStep, hpc, Option.some.injEq] at hs
    subst hs
    rw [hpc] at hknow
    split
    · exact h.goto trivial (by simp [hpc, Pc.over])
    · exact h.goto hknow (by simp [hpc, Pc.over])
  | waitBackend =>
    simp only [rolloutStep, hpc, Option.some.injEq] at hs
    subst hs
    rw [hpc] at hknow
    have hnames : s.names = [] := hknow
    split
    · exact h.goto trivial (by simp [hpc, Pc.over])
    · exact h.goto (by show Name.worker ∉ s.names; simp [hnames]) (by simp [hpc, Pc.over])
  | fenceAdd n =>
    simp only [rolloutStep, hpc, Option.some.injEq] at hs
    subst hs
    exact h.track hpc
  | fence n =>
    simp only [rolloutStep, hpc, Option.some.injEq] at hs
    split at hs
    · subst hs
      exact h.goto trivial (by simp [hpc, Pc.over])
    · split at hs
      · subst hs
        exact h.goto trivial (by simp [hpc, Pc.over])
      · rename_i u hu
        subst hs
        cases n with
        | gateway =>
          refine h.publishGateway hpc hu fun v _ => ?_
          split <;> trivial
        | worker =>
          refine h.publishWorker hpc hu fun v hv => ?_
          split
          · trivial
          · exact hv
  | status | quiet _ | deadline =>
    simp only [rolloutStep, hpc, Option.some.injEq] at hs
    subst hs
    split <;> exact h.goto trivial (by simp [hpc, Pc.over])
  | probeGateway a q =>
    simp only [rolloutStep, hpc] at hs
    split at hs
    · obtain rfl := Option.some.inj hs
      exact h.goto trivial (by simp [hpc, Pc.over])
    · obtain ⟨sn, hsn, rfl⟩ := Option.map_eq_some_iff.mp hs
      exact h.goto (h.gatewayProbe hsn) (by simp [hpc, Pc.over])
  | gotGateway a q sn =>
    simp only [rolloutStep, hpc, Option.some.injEq] at hs
    rw [hpc] at hknow
    split at hs
    · subst hs
      exact h.goto trivial (by simp [hpc, Pc.over])
    · rename_i b hack
      subst hs
      unfold acknowledged at hack
      split at hack
      · rename_i hd
        obtain rfl := Option.some.inj hack
        have hnote : Inv { s with log := .gatewaySeen sn :: s.log } := h.note trivial nofun nofun
        refine hnote.goto ?_ (by simp [hpc, Pc.over])
        split
        · intro h0
          have h0' : sn.active = 0 := by simpa using h0
          exact ⟨hknow hd.1 h0', sn, List.mem_cons_self, hd.1, hd.2, h0'⟩
        · trivial
      · simp at hack
  | busy q b =>
    simp only [rolloutStep, hpc, Option.some.injEq] at hs
    subst hs
    rw [hpc] at hknow
    refine h.goto ?_ (by simp [hpc, Pc.over])
    split
    · trivial
    · split
      · rename_i hc
        simp only [Bool.and_eq_true] at hc
        split
        · exact (hknow hc.2).1
        · exact hknow hc.2
      · trivial
  | probeWorker =>
    simp only [rolloutStep, hpc] at hs
    rw [hpc] at hknow
    split at hs
    · obtain rfl := Option.some.inj hs
      exact h.goto trivial (by simp [hpc, Pc.over])
    · obtain ⟨sn, hsn, rfl⟩ := Option.map_eq_some_iff.mp hs
      exact h.goto ⟨hknow, h.workerProbe hsn⟩ (by simp [hpc, Pc.over])
  | gotWorker sn =>
    simp only [rolloutStep, hpc, Option.some.injEq] at hs
    subst hs
    rw [hpc] at hknow
    refine h.goto ?_ (by simp [hpc, Pc.over])
    split
    · trivial
    · rename_i b hack
      unfold acknowledged at hack
      split at hack
      · rename_i hd
        obtain rfl := Option.some.inj hack
        split
        · rename_i h0
          exact ⟨hknow.1, hknow.2 hd.1 (by simpa using h0)⟩
        · trivial
      · simp at hack
  | protect =>
    simp only [rolloutStep, hpc, Option.some.injEq] at hs
    subst hs
    rw [hpc] at hknow
    split
    · exact h.goto trivial (by simp [hpc, Pc.over])
    · have hnote : Inv { s with log := .returned :: s.log } := h.note trivial nofun fun _ => hknow
      exact hnote.goto hknow (by simp [hpc, Pc.over])
  | idle | failed =>
    simp only [rolloutStep, hpc, Option.some.injEq] at hs
    subst hs
    exact h.goto trivial (by simp [hpc, Pc.over])
  | endCheck left =>
    cases left with
    | nil =>
      simp only [rolloutStep, hpc, Option.some.injEq] at hs
      subst hs
      exact h.goto trivial (by simp [hpc, Pc.over])
    | cons n left =>
      simp only [rolloutStep, hpc, Option.some.injEq] at hs
      subst hs
      split <;> exact h.goto trivial (by simp [hpc, Pc.over])
  | endUnlinkWorker =>
    simp only [rolloutStep, hpc, Option.some.injEq] at hs
    split at hs
    · split at hs <;> subst hs
      · exact h.goto trivial (by simp [hpc, Pc.over])
      · exact h.unlinkWorker hpc
    · rename_i hname
      subst hs
      exact h.goto ⟨h.tracked .worker hname, .inr (h.listed (by rw [hpc]; rfl) .worker hname)⟩
        (by simp [hpc, Pc.over])
  | endUnlinkGateway =>
    simp only [rolloutStep, hpc, Option.some.injEq] at hs
    split at hs
    · split at hs <;> subst hs
      · exact h.goto trivial (by simp [hpc, Pc.over])
      · exact h.unlinkGateway hpc
    · rename_i hname
      subst hs
      exact h.clear hpc hname
  | endBackend =>
    simp only [rolloutStep, hpc, Option.some.injEq] at hs
    subst hs
    have hnote : Inv { s with log := .backendEnd :: s.log } := h.note trivial nofun nofun
    refine hnote.goto ?_ fun _ => ?_
    · split <;> trivial
    · split <;> rfl
  | ended => simp [rolloutStep, hpc] at hs
  | stuck => simp [rolloutStep, hpc] at hs

/-- **Step lemma**, as long as only the rollout touches the markers. -/
theorem step_inv {e : Event} (hC : Ours s e) (h : Inv s) (hs : step s e = some t) : Inv t := by
  cases e with
  | tick d wall =>
    obtain rfl := Option.some.inj hs
    have htr := h.traffic.evolve (t := { s with mono := s.mono + d, wall := wall }) rfl
      h.traffic.worker (by simp) (fun k u hu => ⟨u, hu, .refl u⟩) fun k v hv => ⟨v, hv⟩
    exact h.others htr id id (fun n => by cases n <;> rfl) rfl rfl rfl rfl
  | task k m =>
    obtain rfl := Option.some.inj hs
    exact h.others (h.traffic.call k m) id id (fun n => by cases n <;> rfl) rfl rfl rfl rfl
  | request =>
    obtain rfl := Option.some.inj hs
    exact h.others h.traffic.request (fun hg => ⟨hg.1.arrive _, hg.2⟩) id
      (fun n => by cases n <;> rfl) rfl rfl rfl rfl
  | gwRead i =>
    obtain ⟨g, he, rfl⟩ := Option.map_eq_some_iff.mp hs
    exact h.others (h.traffic.gwRead he) (fun hg => ⟨hg.1.enterRead hg.2 he, hg.2⟩) id
      (fun n => by cases n <;> rfl) rfl rfl rfl rfl
  | gwCount i =>
    obtain ⟨g, he, rfl⟩ := Option.map_eq_some_iff.mp hs
    exact h.others (h.traffic.gwCount he) (fun hg => absurd he hg.1.not_enterCount) id
      (fun n => by cases n <;> rfl) rfl rfl rfl rfl
  | gwLeave i =>
    simp only [step] at hs
    split at hs
    · rename_i x hi
      split at hs
      · rename_i hfin
        obtain ⟨g, he, rfl⟩ := Option.map_eq_some_iff.mp hs
        exact h.others (h.traffic.gwLeave hi hfin he) (fun hg => absurd he hg.1.not_leave) id
          (fun n => by cases n <;> rfl) rfl rfl rfl rfl
      · simp at hs
    · simp at hs
  | queue i u =>
    simp only [step] at hs
    split at hs
    · rename_i hi
      split at hs
      · obtain rfl := Option.some.inj hs
        exact h.others (h.traffic.queue hi u) (fun hg => absurd hi hg.1.not_running) id
          (fun n => by cases n <;> rfl) rfl rfl rfl rfl
      · simp at hs
    · simp at hs
  | gwStep i disc =>
    have htr := h.traffic.gwStep hs
    simp only [step, gwStep] at hs
    split at hs
    · rename_i k pc seen hi
      have hno : ¬ GwShut s := fun hg => hg.1.not_running hi
      split at hs
      · obtain rfl := Option.some.inj hs
        exact h.others htr (fun hg => absurd hg hno) id (fun n => by cases n <;> rfl) rfl rfl rfl rfl
      · obtain ⟨q, -, rfl⟩ := Option.map_eq_some_iff.mp hs
        exact h.others htr (fun hg => absurd hg hno) id (fun n => by cases n <;> rfl) rfl rfl rfl rfl
      · simp at hs
    · simp at hs
  | call ts =>
    simp only [step] at hs
    split at hs
    · obtain rfl := Option.some.inj hs
      exact h.others (h.traffic.same rfl (h.traffic.worker.arrive ts) rfl rfl) id
        (fun hw => ⟨hw.1.arrive _, hw.2⟩) (fun n => by cases n <;> rfl) rfl rfl rfl rfl
    · simp at hs
  | wkRead j =>
    obtain ⟨g, he, rfl⟩ := Option.map_eq_some_iff.mp hs
    exact h.others (h.traffic.same rfl (h.traffic.worker.enterRead he) rfl rfl) id
      (fun hw => ⟨hw.1.enterRead hw.2 he, hw.2⟩) (fun n => by cases n <;> rfl) rfl rfl rfl rfl
  | wkCount j =>
    obtain ⟨g, he, rfl⟩ := Option.map_eq_some_iff.mp hs
    exact h.others (h.traffic.same rfl (h.traffic.worker.enterCount he) rfl rfl) id
      (fun hw => absurd he hw.1.not_enterCount) (fun n => by cases n <;> rfl) rfl rfl rfl rfl
  | wkLeave j =>
    obtain ⟨g, he, rfl⟩ := Option.map_eq_some_iff.mp hs
    exact h.others (h.traffic.same rfl (h.traffic.worker.leave he) rfl rfl) id
      (fun hw => absurd he hw.1.not_leave) (fun n => by cases n <;> rfl) rfl rfl rfl rfl
  | rollout io => exact rolloutStep_inv h hs
  | restartGateway =>
    simp only [step] at hs
    split at hs
    · rename_i hpc
      obtain rfl := Option.some.inj hs
      have hknow := h.know
      rw [hpc] at hknow
      exact h.others (h.traffic.restart hknow.1.1) (fun hg => ⟨Gate.quiet_empty, hg.2⟩) id
        (fun n => by cases n <;> rfl) rfl rfl rfl rfl
    · simp at hs
  | restartWorker =>
    simp only [step] at hs
    split at hs
    · obtain rfl := Option.some.inj hs
      exact h.others (h.traffic.same rfl Gate.wf_empty rfl rfl) id
        (fun hw => ⟨Gate.quiet_empty, hw.2⟩) (fun n => by cases n <;> rfl) rfl rfl rfl rfl
    · simp at hs
  | foreign n m => simp [Ours, Event.isForeign] at hC

end Steps

/-! ## Foreign markers -/

/-- `end_drain` has yet to examine the marker `n`. -/
def ToCheck (s : Sys) (n : Name) : Prop :=
  ((s.rollout = .idle ∨ s.rollout = .failed) ∧ n ∈ s.names) ∨
    ∃ left, s.rollout = .endCheck left ∧ n ∈ left

/-- The rollout is at a foreign marker's mercy: it will examine it, or has stopped there. -/
def Blocked (s₀ s : Sys) (n : Name) : Prop :=
  s.gatewayMarker = s₀.gatewayMarker ∧ s.workerMarker = s₀.workerMarker ∧ s.token = s₀.token ∧
    s.log = s₀.log ∧ (ToCheck s n ∨ s.rollout = .stuck)

theorem foreign_congr {s t : Sys} (hg : t.gatewayMarker = s.gatewayMarker)
    (hw : t.workerMarker = s.workerMarker) (ht : t.token = s.token) (n : Name) :
    foreign t n = foreign s n := by
  cases n <;> simp only [foreign, Sys.marker, hg, hw, ht]

/-- Only the rollout and somebody else's markers touch what the rollout reads and writes. -/
theorem step_frame {s t : Sys} {e : Event} (hs : step s e = some t) (hroll : ∀ io, e ≠ .rollout io)
    (hC : Ours s e) : t.gatewayMarker = s.gatewayMarker ∧ t.workerMarker = s.workerMarker ∧
      t.token = s.token ∧ t.log = s.log ∧ t.rollout = s.rollout ∧ t.names = s.names := by
  cases e with
  | rollout io => exact absurd rfl (hroll io)
  | foreign _ _ => simp [Ours, Event.isForeign] at hC
  | gwStep i disc =>
    simp only [step, gwStep] at hs
    split at hs
    · split at hs
      · obtain rfl := Option.some.inj hs
        exact ⟨rfl, rfl, rfl, rfl, rfl, rfl⟩
      · obtain ⟨q, -, rfl⟩ := Option.map_eq_some_iff.mp hs
        exact ⟨rfl, rfl, rfl, rfl, rfl, rfl⟩
      · simp at hs
    · simp at hs
  | gwLeave _ =>
    simp only [step] at hs
    split at hs
    · split at hs
      · obtain ⟨g, -, rfl⟩ := Option.map_eq_some_iff.mp hs
        exact ⟨rfl, rfl, rfl, rfl, rfl, rfl⟩
      · simp at hs
    · simp at hs
  | queue _ _ =>
    simp only [step] at hs
    split at hs
    · split at hs
      · obtain rfl := Option.some.inj hs
        exact ⟨rfl, rfl, rfl, rfl, rfl, rfl⟩
      · simp at hs
    · simp at hs
  | call _ | restartGateway | restartWorker =>
    simp only [step] at hs
    split at hs
    · obtain rfl := Option.some.inj hs
      exact ⟨rfl, rfl, rfl, rfl, rfl, rfl⟩
    · simp at hs
  | gwRead _ | gwCount _ | wkRead _ | wkCount _ | wkLeave _ =>
    obtain ⟨g, -, rfl⟩ := Option.map_eq_some_iff.mp hs
    exact ⟨rfl, rfl, rfl, rfl, rfl, rfl⟩
  | tick _ _ | task _ _ | request =>
    obtain rfl := Option.some.inj hs
    exact ⟨rfl, rfl, rfl, rfl, rfl, rfl⟩

/-- **`end_drain` stops at a foreign marker**: it never gets past its validation. -/
theorem step_blocked {s₀ s t : Sys} {e : Event} {n : Name} (hf : foreign s₀ n = true)
    (hC : Ours s e) (h : Blocked s₀ s n) (hs : step s e = some t) : Blocked s₀ t n := by
  obtain ⟨hg, hw, htok, hlog, hpc⟩ := h
  have hf' : foreign s n = true := (foreign_congr hg hw htok n).trans hf
  by_cases hroll : ∃ io, e = .rollout io
  · obtain ⟨io, rfl⟩ := hroll
    simp only [step] at hs
    rcases hpc with (⟨hidle, hn⟩ | ⟨left, hleft, hn⟩) | hstuck
    · have hstart : rolloutStep s io =
          some { s with rollout := .endCheck (if io.flag then s.names.reverse else s.names) } := by
        rcases hidle with hi | hi <;> simp [rolloutStep, hi]
      obtain rfl := Option.some.inj (hstart.symm.trans hs)
      refine ⟨hg, hw, htok, hlog, .inl (.inr ⟨_, rfl, ?_⟩)⟩
      split
      · simpa using hn
      · exact hn
    · cases left with
      | nil => simp at hn
      | cons m left =>
        simp only [rolloutStep, hleft, Option.some.injEq] at hs
        subst hs
        split
        · exact ⟨hg, hw, htok, hlog, .inr rfl⟩
        · rename_i hm
          refine ⟨hg, hw, htok, hlog, .inl (.inr ⟨left, rfl, ?_⟩)⟩
          rcases List.mem_cons.mp hn with rfl | hn
          · exact absurd hf' hm
          · exact hn
    · simp [rolloutStep, hstuck] at hs
  · -- the rollout is where it was
    obtain ⟨h1, h2, h3, h4, h5, h6⟩ := step_frame hs (fun io he => hroll ⟨io, he⟩) hC
    refine ⟨h1.trans hg, h2.trans hw, h3.trans htok, h4.trans hlog, ?_⟩
    unfold ToCheck
    rw [h5, h6]
    exact hpc

/-! ## Drain soundness -/

/-- The events at the worker's gate. -/
def Event.atWorker : Event → Bool
  | .call _ | .wkRead _ | .wkCount _ | .wkLeave _ | .restartWorker => true
  | _ => false

theorem step_worker {s t : Sys} {e : Event} (hs : step s e = some t) (he : e.atWorker = false) :
    t.worker = s.worker := by
  cases e with
  | call _ | wkRead _ | wkCount _ | wkLeave _ | restartWorker => cases he
  | rollout io => exact rolloutStep_worker hs
  | gwStep i disc =>
    simp only [step, gwStep] at hs
    split at hs
    · split at hs
      · obtain rfl := Option.some.inj hs
        rfl
      · obtain ⟨q, -, rfl⟩ := Option.map_eq_some_iff.mp hs
        rfl
      · simp at hs
    · simp at hs
  | gwLeave _ =>
    simp only [step] at hs
    split at hs
    · split at hs
      · obtain ⟨g, -, rfl⟩ := Option.map_eq_some_iff.mp hs
        rfl
      · simp at hs
    · simp at hs
  | queue _ _ =>
    simp only [step] at hs
    split at hs
    · split at hs
      · obtain rfl := Option.some.inj hs
        rfl
      · simp at hs
    · simp at hs
  | restartGateway =>
    simp only [step] at hs
    split at hs
    · obtain rfl := Option.some.inj hs
      rfl
    · simp at hs
  | gwRead _ | gwCount _ =>
    obtain ⟨g, -, rfl⟩ := Option.map_eq_some_iff.mp hs
    rfl
  | tick _ _ | task _ _ | request =>
    obtain rfl := Option.some.inj hs
    rfl
  | foreign n m =>
    obtain rfl := Option.some.inj hs
    cases n <;> rfl

/-- A `ProcessBatch` handler that is turned away read a marker that is there. -/
theorem refused_marker {s t : Sys} {e : Event} {j : ℕ} {ts : List ℕ} (hs : step s e = some t)
    (hwait : s.worker.handlers[j]? = some ⟨.waiting, ts⟩)
    (href : t.worker.handlers[j]? = some ⟨.refused, ts⟩) : s.workerMarker ≠ .absent := by
  have hlt := (List.getElem?_eq_some_iff.mp hwait).1
  -- a handler that is put somewhere else than `refused` is another one
  have hset : ∀ {i : ℕ} {x : Handler (List ℕ)}, (s.worker.handlers.set i x)[j]? =
      some ⟨.refused, ts⟩ → x.phase = .refused := by
    intro i x hx
    rcases Gate.set_cases hx with ⟨-, heq⟩ | ⟨-, hj⟩
    · rw [← heq]
    · simp [hwait] at hj
  cases e with
  | wkRead i =>
    obtain ⟨g, he, rfl⟩ := Option.map_eq_some_iff.mp hs
    intro habs
    unfold Gate.enterRead at he
    split at he
    · rw [habs] at he
      obtain rfl := Option.some.inj he
      cases hset href
    · simp at he
  | wkCount i =>
    obtain ⟨g, he, rfl⟩ := Option.map_eq_some_iff.mp hs
    unfold Gate.enterCount at he
    split at he
    · obtain rfl := Option.some.inj he
      cases hset href
    · simp at he
  | wkLeave i =>
    obtain ⟨g, he, rfl⟩ := Option.map_eq_some_iff.mp hs
    unfold Gate.leave at he
    split at he
    · obtain rfl := Option.some.inj he
      cases hset href
    · simp at he
  | call us =>
    simp only [step] at hs
    split at hs
    · obtain rfl := Option.some.inj hs
      simp only [Gate.arrive, List.getElem?_append_left hlt, hwait] at href
      simp at href
    · simp at hs
  | restartWorker =>
    simp only [step] at hs
    split at hs
    · obtain rfl := Option.some.inj hs
      simp at href
    · simp at hs
  | _ =>
    rw [step_worker hs rfl, hwait] at href
    simp at href

/-- **Drain soundness.**  In every run in which only the rollout touches the markers: once
`wait_idle` has returned and until a marker is removed, both processes have no handler inside the
gate and none on its way in; the worker marker is published only after a gateway snapshot with
this run's token and nothing active; a `ProcessBatch` call is answered that the adapter is updating
only when all its text tasks are terminal; and the worker marker goes before the gateway marker.
In every state at all, a foreign marker that `end_drain` has yet to examine keeps it from removing
any marker and from calling the backend. -/
theorem drain_sound :
    (∀ {s₀ s : Sys} {es : List Event}, Init s₀ → Meets step Ours s₀ es → exec step s₀ es = some s →
      (.returned ∈ s.log → (∀ n, .removed n ∉ s.log) → GwShut s ∧ WkShut s) ∧
      (∀ token older, .published .worker token :: older <:+ s.log →
        ∃ sn, .gatewaySeen sn ∈ older ∧ sn.draining = true ∧ sn.drainId = token ∧ sn.active = 0) ∧
      (∀ (e : Event) (t : Sys) (j : ℕ) (ts : List ℕ), step s e = some t →
        s.worker.handlers[j]? = some ⟨.waiting, ts⟩ → t.worker.handlers[j]? = some ⟨.refused, ts⟩ →
        ∀ k ∈ ts, ∀ u : Task, s.tasks[k]? = some u → u.terminal = true) ∧
      (∀ older, .removed .gateway :: older <:+ s.log →
        .removed .worker ∈ older ∨ ∀ token, .published .worker token ∉ older)) ∧
    (∀ {s t : Sys} {es : List Event} {n : Name}, ToCheck s n → foreign s n = true →
      Meets step Ours s es → exec step s es = some t → Blocked s t n) := by
  constructor
  · intro s₀ s es h₀ hours h
    have hinv : Inv s := exec_inv_meets (fun u e v hc hu huv => step_inv hc hu huv) hours
      (inv_init h₀) h
    refine ⟨hinv.settled, fun token older hsuf => hinv.log _ older hsuf, ?_,
      fun older hsuf => hinv.log _ older hsuf⟩
    intro e t j ts hs hwait href k _ u hu
    have hshut : GwShut s := hinv.fence (refused_marker hs hwait href)
    exact hinv.traffic.terminal hshut.1 hu
  · intro s t es n hcheck hf hours h
    exact exec_inv_meets (fun u e v hc hu huv => step_blocked hf hc hu huv) hours
      ⟨rfl, rfl, rfl, rfl, .inl hcheck⟩ h

def drainStart : Sys where
  tasks := []
  mono := 0
  wall := 0
  gateway := {}
  worker := {}
  gatewayMarker := .absent
  workerMarker := .absent
  rollout := .start
  token := none
  names := []
  log := []

/-- One text task is served while the rollout begins; its late second call finds the adapter
updating. -/
def drainRun : List Event :=
  [.request, .gwRead 0, .gwCount 0,
    .queue 0 { inputData := .null, taskId := "t", creationTime := 0, deadline := some 600 },
    .call [0], .rollout { token := "d" }, .rollout {}, .rollout {}, .wkRead 0, .wkCount 0,
    .task 0 (.markDone .null), .rollout {}, .rollout {}, .gwStep 0 false, .gwStep 0 false,
    .gwStep 0 false, .gwLeave 0, .wkLeave 0, .rollout { flag := true }, .rollout { flag := true }] ++
  List.replicate 8 (.rollout {}) ++ [.call [0]]

theorem drain_sound_drainRun : ∃ s, exec step drainStart drainRun = some s ∧
    .returned ∈ s.log ∧ GwShut s ∧ WkShut s ∧
    ∀ t, step s (.wkRead 1) = some t → t.worker.handlers[1]? = some ⟨.refused, [0]⟩ →
      ∀ u : Task, s.tasks[0]? = some u → u.terminal = true := by
  have hview : (exec step drainStart drainRun).map (fun s => (decide (.returned ∈ s.log ∧
      .removed .gateway ∉ s.log ∧ .removed .worker ∉ s.log), s.worker.handlers[1]?)) =
      some (true, some ⟨.waiting, [0]⟩) := by decide +kernel
  obtain ⟨s, hs, hv⟩ := Option.map_eq_some_iff.mp hview
  simp only [Prod.mk.injEq, decide_eq_true_eq] at hv
  obtain ⟨⟨hret, hng, hnw⟩, hwait⟩ := hv
  have hall : ∀ e ∈ drainRun, e.isForeign = false := by decide
  have hours : Meets step Ours drainStart drainRun := meets_of_forall (fun e he _ => hall e he) _
  have hsound := drain_sound.1 (by simp [Init, drainStart]) hours hs
  have hshut := hsound.1 hret fun n => by cases n <;> assumption
  exact ⟨s, hs, hret, hshut.1, hshut.2, fun t ht href u hu =>
    hsound.2.2.1 (.wkRead 1) t 1 [0] ht hwait href 0 (by simp) u hu⟩

end Inference.Deploy.Drain
