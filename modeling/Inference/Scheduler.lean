import Inference.Lib.Run
import Mathlib.Tactic

/-!
# Inference.Scheduler — `Scheduler._loop` and its three strategies

The scheduler thread of `system/scheduler.py` with the shared `TaskQueue` and the runtime
configuration.  Every read of the configuration, every pop of the queue and every clock reading
falls into a step of its own, so arrivals and `/config` calls may come between any two of them.

* `Pc.inHand`: the tasks the running iteration has taken out of the queue and keeps in a local.
* `Inv`: a task taken out of the queue is in exactly one of: the handler's hands, the buffer of
  the latency-aware strategy, the running iteration.
* `settled_iff_drained`: no task is stranded at the start of an iteration exactly when that
  iteration runs the latency-aware strategy or finds its buffer empty.
* `switchRun`: a switch away from a buffer that still holds a task.
-/

namespace Inference.Scheduler

open Inference.Lib

/-- The keys of `_strategies`. -/
inductive Strategy where
  | fifo
  | batching
  | latencyAware
deriving DecidableEq, Repr

/-- A queued task: its identity (`id(t)`) and its creation time in milliseconds. -/
structure Item where
  ref : ℕ
  creationTime : ℤ
deriving DecidableEq, Repr

/-- The fields of `SystemConfig` the scheduler reads; `none` is a strategy without an entry. -/
structure Config where
  strategy : Option Strategy
  batchSize : ℕ
  latencyThresholdMs : ℤ
deriving DecidableEq, Repr

/-- Program points of the scheduler thread. -/
inductive Pc where
  /-- `while not self._stop.is_set()` -/
  | loop
  /-- `strategy = self._strategies.get(config.scheduler_strategy)` -/
  | pick
  /-- FIFO: `while len(batch) < config.batch_size` -/
  | fifo (batch : List Item)
  /-- FIFO: `task = queue.get(timeout=0.05)` -/
  | fifoGet (batch : List Item)
  /-- batching: `deadline = time.time() + self._FILL_TIMEOUT` -/
  | batchingStart
  /-- batching: `len(batch) < config.batch_size` -/
  | batching (deadline : ℤ) (batch : List Item)
  /-- batching: `time.time() < deadline` -/
  | batchingClock (deadline : ℤ) (batch : List Item)
  /-- batching: `task = queue.get(timeout=0.01)` -/
  | batchingGet (deadline : ℤ) (batch : List Item)
  /-- latency aware: `cap = config.batch_size * 4` -/
  | latencyCap
  /-- latency aware: `if len(self._buffer) < cap` -/
  | latencyRoom (cap : ℕ)
  /-- `TaskQueue.drain` with `left` items still to ask for -/
  | latencyDrain (left : ℕ) (items : List Item)
  /-- latency aware: the emptiness test, `old` and `fresh`, both sorted -/
  | latencyRank
  /-- latency aware: `batch = (old + fresh)[: config.batch_size]` -/
  | latencySlice (ranked : List Item)
  /-- `if batch: self._handler(batch)` -/
  | handle (batch : List Item)
  | stopped
deriving DecidableEq, Repr

/-- Tasks the running iteration holds in a local variable only. -/
def Pc.inHand : Pc → List Item
  | .fifo b | .fifoGet b | .batching _ b | .batchingClock _ b | .batchingGet _ b | .handle b => b
  | .latencyDrain _ items => items
  | _ => []

/-- The scheduler and what it shares.  `taken` and `handed` record what has ever been taken out of
the queue and passed to the batch handler. -/
structure Sys where
  config : Config
  queue : List Item
  buffer : List Item
  pc : Pc
  stop : Bool
  taken : List Item
  handed : List Item
deriving DecidableEq, Repr

inductive Event where
  /-- a successful `TaskQueue.put` -/
  | arrive (t : Item)
  /-- `config.update` -/
  | configure (c : Config)
  /-- `Scheduler.stop` sets the flag -/
  | stop
  /-- the scheduler thread takes one step; `clock k` is its `k`-th reading of `time.time()` -/
  | advance (clock : ℕ → ℤ)

/-- `self._FILL_TIMEOUT`, in milliseconds. -/
def fillTimeout : ℤ := 100

/-- `t.age_ms` at a clock reading. -/
def Item.ageMs (t : Item) (now : ℤ) : ℤ := now - t.creationTime

/-- The elements of a comprehension over `buffer` whose test reads the clock at each element. -/
def selectBy (test : ℤ → Bool) (clock : ℕ → ℤ) (buffer : List Item) : List Item :=
  (buffer.zipIdx.filter fun p => test (p.1.ageMs (clock p.2))).map Prod.fst

/-- `sort(key=lambda t: t.creation_time)`, which is stable. -/
def sortByCreation (l : List Item) : List Item :=
  l.insertionSort fun a b => a.creationTime ≤ b.creationTime

/-- `old + fresh`: both comprehensions read the clock anew at each element. -/
def ranked (threshold : ℤ) (clock : ℕ → ℤ) (buffer : List Item) : List Item :=
  sortByCreation (selectBy (fun age => decide (threshold ≤ age)) clock buffer) ++
    sortByCreation (selectBy (fun age => decide (age < threshold))
      (fun i => clock (buffer.length + i)) buffer)

/-- `[t for t in self._buffer if id(t) not in batch_ids]`. -/
def without (batch buffer : List Item) : List Item :=
  buffer.filter fun t => decide (t.ref ∉ batch.map Item.ref)

/-- Pop the queue into the local batch, or go on without a task. -/
def popInto (s : Sys) (some' : Item → Pc) (none' : Pc) : Sys :=
  match s.queue with
  | t :: rest => { s with queue := rest, taken := t :: s.taken, pc := some' t }
  | [] => { s with pc := none' }

/-- One step of the scheduler thread. -/
def advance (s : Sys) (clock : ℕ → ℤ) : Option Sys :=
  match s.pc with
  | .loop => some { s with pc := if s.stop then .stopped else .pick }
  | .pick => some { s with pc := match s.config.strategy with
      | none => .loop
      | some .fifo => .fifo []
      | some .batching => .batchingStart
      | some .latencyAware => .latencyCap }
  | .fifo b => some { s with pc := if b.length < s.config.batchSize then .fifoGet b else .handle b }
  | .fifoGet b => some (popInto s (fun t => .fifo (b ++ [t])) (.handle b))
  | .batchingStart => some { s with pc := .batching (clock 0 + fillTimeout) [] }
  | .batching d b => some { s with
      pc := if b.length < s.config.batchSize then .batchingClock d b else .handle b }
  | .batchingClock d b => some { s with pc := if clock 0 < d then .batchingGet d b else .handle b }
  | .batchingGet d b => some (popInto s (fun t => .batching d (b ++ [t])) (.batching d b))
  | .latencyCap => some { s with pc := .latencyRoom (s.config.batchSize * 4) }
  | .latencyRoom cap => some { s with
      pc := if s.buffer.length < cap then .latencyDrain (cap - s.buffer.length) []
            else .latencyRank }
  | .latencyDrain 0 items => some { s with buffer := s.buffer ++ items, pc := .latencyRank }
  | .latencyDrain (left + 1) items =>
    some (match s.queue with
      | t :: rest => { s with queue := rest, taken := t :: s.taken,
                              pc := .latencyDrain left (items ++ [t]) }
      | [] => { s with buffer := s.buffer ++ items, pc := .latencyRank })
  | .latencyRank => some { s with
      pc := if s.buffer = [] then .handle []
            else .latencySlice (ranked s.config.latencyThresholdMs clock s.buffer) }
  | .latencySlice l =>
    some { s with buffer := without (l.take s.config.batchSize) s.buffer,
                  pc := .handle (l.take s.config.batchSize) }
  | .handle b => some { s with handed := b ++ s.handed, pc := .loop }
  | .stopped => none

def step (s : Sys) : Event → Option Sys
  | .arrive t =>
    if t.ref ∈ (s.queue ++ s.taken).map Item.ref then none
    else some { s with queue := s.queue ++ [t] }
  | .configure c => some { s with config := c }
  | .stop => some { s with stop := true }
  | .advance clock => advance s clock

/-- A scheduler that has just been started on a queue of distinct tasks. -/
def Init (s : Sys) : Prop :=
  (s.queue.map Item.ref).Nodup ∧ s.buffer = [] ∧ s.pc = .loop ∧ s.taken = [] ∧ s.handed = []

/-! ## Where the tasks are -/

/-- The places of the tasks, the rest of the state forgotten. -/
structure Places where
  queue : List Item
  buffer : List Item
  hand : List Item
  handed : List Item
  taken : List Item

def Sys.places (s : Sys) : Places := ⟨s.queue, s.buffer, s.pc.inHand, s.handed, s.taken⟩

/-- What one step can do to the places. -/
inductive Move : Places → Places → Prop
  | quiet (p : Places) : Move p p
  | arrive (p : Places) (t : Item) : t.ref ∉ (p.queue ++ p.taken).map Item.ref →
      Move p { p with queue := p.queue ++ [t] }
  | pop (p : Places) (t : Item) (rest : List Item) : p.queue = t :: rest →
      Move p { p with queue := rest, hand := p.hand ++ [t], taken := t :: p.taken }
  | store (p : Places) : Move p { p with buffer := p.buffer ++ p.hand, hand := [] }
  | slice (p : Places) (batch : List Item) : p.hand = [] → batch ⊆ p.buffer →
      Move p { p with buffer := without batch p.buffer, hand := batch }
  | deliver (p : Places) : Move p { p with handed := p.hand ++ p.handed, hand := [] }

/-- Every task taken out of the queue is in one place only. -/
structure Places.Inv (p : Places) : Prop where
  refs : ((p.queue ++ p.taken).map Item.ref).Nodup
  taken : ∀ t, t ∈ p.taken ↔ t ∈ p.handed ∨ t ∈ p.buffer ∨ t ∈ p.hand
  buffer : ∀ t ∈ p.buffer, t ∉ p.handed
  hand : ∀ t ∈ p.hand, t ∉ p.handed ∧ t ∉ p.buffer

theorem mem_without {batch buffer : List Item} {t : Item} :
    t ∈ without batch buffer ↔ t ∈ buffer ∧ t.ref ∉ batch.map Item.ref := by
  simp only [without, List.mem_filter, decide_eq_true_eq]

/-- Tasks that have been taken are told apart by their identity. -/
theorem Places.Inv.eq_of_ref {p : Places} (h : p.Inv) {t u : Item} (ht : t ∈ p.taken)
    (hu : u ∈ p.taken) (hr : t.ref = u.ref) : t = u := by
  have hnd : (p.taken.map Item.ref).Nodup := by
    have := h.refs
    rw [List.map_append] at this
    exact this.of_append_right
  exact List.inj_on_of_nodup_map hnd ht hu hr

theorem Places.Inv.mem_without_iff {p : Places} (h : p.Inv) {batch : List Item}
    (hb : batch ⊆ p.buffer) {t : Item} :
    t ∈ without batch p.buffer ↔ t ∈ p.buffer ∧ t ∉ batch := by
  have htaken : ∀ u ∈ p.buffer, u ∈ p.taken := fun u hu => (h.taken u).mpr (.inr (.inl hu))
  rw [mem_without]
  refine and_congr_right fun ht => not_congr ⟨fun hr => ?_, fun hm => List.mem_map_of_mem hm⟩
  obtain ⟨u, hu, hru⟩ := List.mem_map.mp hr
  obtain rfl := h.eq_of_ref (htaken u (hb hu)) (htaken t ht) hru
  exact hu

/-- A task still in the queue has not been taken. -/
theorem Places.Inv.head_not_taken {p : Places} (h : p.Inv) {t : Item} {rest : List Item}
    (hq : p.queue = t :: rest) : t ∉ p.taken := by
  have hnd := h.refs
  rw [hq, List.cons_append, List.map_cons, List.nodup_cons] at hnd
  intro ht
  exact hnd.1 (List.mem_map_of_mem (List.mem_append_right _ ht))

/-- **Places are kept apart** by every move. -/
theorem Move.inv {p q : Places} (h : p.Inv) (hm : Move p q) : q.Inv := by
  cases hm with
  | quiet => exact h
  | arrive t hfresh =>
    refine ⟨?_, h.taken, h.buffer, h.hand⟩
    have hperm : (p.queue ++ [t] ++ p.taken).Perm (t :: (p.queue ++ p.taken)) := by
      rw [List.append_assoc]
      exact List.perm_middle
    rw [(hperm.map Item.ref).nodup_iff, List.map_cons, List.nodup_cons]
    exact ⟨hfresh, h.refs⟩
  | pop t rest hq =>
    have hnew : t ∉ p.taken := h.head_not_taken hq
    have hplace : t ∉ p.handed ∧ t ∉ p.buffer := by
      constructor
      · intro hh
        exact hnew ((h.taken t).mpr (.inl hh))
      · intro hb
        exact hnew ((h.taken t).mpr (.inr (.inl hb)))
    refine ⟨?_, fun u => ?_, h.buffer, fun u hu => ?_⟩
    · have hnd := h.refs
      rw [hq] at hnd
      have hperm : (rest ++ t :: p.taken).Perm (t :: rest ++ p.taken) := List.perm_middle
      rwa [(hperm.map Item.ref).nodup_iff]
    · simp only [List.mem_cons, List.mem_append, h.taken u, List.not_mem_nil, or_false]
      tauto
    · rcases List.mem_append.mp hu with hu | hu
      · exact h.hand u hu
      · rw [List.mem_singleton] at hu
        exact hu ▸ hplace
  | store =>
    refine ⟨h.refs, fun u => ?_, fun u hu => ?_, fun u hu => absurd hu (List.not_mem_nil)⟩
    · simp only [List.mem_append, h.taken u, List.not_mem_nil, or_false]
    · rcases List.mem_append.mp hu with hu | hu
      · exact h.buffer u hu
      · exact (h.hand u hu).1
  | slice batch hnil hsub =>
    refine ⟨h.refs, fun u => ?_, fun u hu => ?_, fun u hu => ⟨h.buffer u (hsub hu), ?_⟩⟩
    · simp only [h.taken u, hnil, h.mem_without_iff hsub, List.not_mem_nil, or_false]
      have : u ∈ batch → u ∈ p.buffer := fun hu => hsub hu
      tauto
    · exact h.buffer u ((h.mem_without_iff hsub).mp hu).1
    · intro hw
      exact ((h.mem_without_iff hsub).mp hw).2 hu
  | deliver =>
    refine ⟨h.refs, fun u => ?_, fun u hu => ?_, fun u hu => absurd hu (List.not_mem_nil)⟩
    · simp only [List.mem_append, h.taken u, List.not_mem_nil, or_false]
      tauto
    · rw [List.mem_append, not_or]
      exact ⟨fun hh => (h.hand u hh).2 hu, h.buffer u hu⟩

/-! ## The thread moves tasks as `Move` says -/

theorem selectBy_subset (test : ℤ → Bool) (clock : ℕ → ℤ) (buffer : List Item) :
    selectBy test clock buffer ⊆ buffer := by
  intro t ht
  obtain ⟨⟨u, i⟩, hp, rfl⟩ := List.mem_map.mp ht
  exact List.fst_mem_of_mem_zipIdx (List.mem_filter.mp hp).1

/-- Whatever the clock shows, only buffered tasks are ranked. -/
theorem ranked_subset (threshold : ℤ) (clock : ℕ → ℤ) (buffer : List Item) :
    ranked threshold clock buffer ⊆ buffer := by
  intro t ht
  rcases List.mem_append.mp ht with h | h <;>
    exact selectBy_subset _ _ _ ((List.mem_insertionSort _).mp h)

/-- The places are apart, and a ranked list that waits to be cut comes from the buffer. -/
structure Inv (s : Sys) : Prop where
  places : s.places.Inv
  ranked : ∀ l, s.pc = .latencySlice l → l ⊆ s.buffer

theorem inv_init {s : Sys} (h : Init s) : Inv s := by
  obtain ⟨hnd, hbuf, hpc, htaken, hhanded⟩ := h
  refine ⟨⟨?_, fun t => ?_, fun t ht => ?_, fun t ht => ?_⟩, fun l hl => ?_⟩
  · simpa [Sys.places, htaken] using hnd
  · simp [Sys.places, htaken, hhanded, hbuf, hpc, Pc.inHand]
  · simp [Sys.places, hbuf] at ht
  · simp [Sys.places, hpc, Pc.inHand] at ht
  · simp [hpc] at hl

/-- A pop that a `get` makes, found or not. -/
theorem popInto_move {s : Sys} {found : Item → Pc} {empty : Pc}
    (hfound : ∀ t, (found t).inHand = s.pc.inHand ++ [t]) (hempty : empty.inHand = s.pc.inHand) :
    Move s.places (popInto s found empty).places := by
  unfold popInto
  split
  · rename_i t rest hq
    have := Move.pop s.places t rest hq
    simpa only [Sys.places, hfound] using this
  · simpa only [Sys.places, hempty] using Move.quiet s.places

/-- A step that leaves every list alone. -/
theorem move_quiet {s : Sys} {pc : Pc} (h : pc.inHand = s.pc.inHand) :
    Move s.places { s with pc := pc }.places := by
  have hq := Move.quiet s.places
  simpa only [Sys.places, h] using hq

/-- **One step of the thread** moves tasks only as `Move` says. -/
theorem advance_move {s t : Sys} {clock : ℕ → ℤ} (h : Inv s) (hs : advance s clock = some t) :
    Move s.places t.places := by
  cases hpc : s.pc with
  | stopped => simp [advance, hpc] at hs
  | latencyDrain left items =>
    have hstore : Move s.places { s with buffer := s.buffer ++ items, pc := .latencyRank }.places := by
      simpa [Sys.places, hpc, Pc.inHand] using Move.store s.places
    cases left with
    | zero =>
      simp only [advance, hpc, Option.some.injEq] at hs
      exact hs ▸ hstore
    | succ left =>
      simp only [advance, hpc, Option.some.injEq] at hs
      split at hs <;> subst hs
      · rename_i x rest hq
        simpa [Sys.places, hpc, Pc.inHand] using Move.pop s.places x rest hq
      · exact hstore
  | latencySlice l =>
    simp only [advance, hpc, Option.some.injEq] at hs
    subst hs
    have hsub : l.take s.config.batchSize ⊆ s.buffer := fun x hx =>
      h.ranked l hpc (List.mem_of_mem_take hx)
    have hnil : s.places.hand = [] := by simp [Sys.places, hpc, Pc.inHand]
    simpa [Sys.places, hpc, Pc.inHand] using
      Move.slice s.places (l.take s.config.batchSize) hnil hsub
  | handle b =>
    simp only [advance, hpc, Option.some.injEq] at hs
    subst hs
    simpa [Sys.places, hpc, Pc.inHand] using Move.deliver s.places
  | fifoGet b =>
    simp only [advance, hpc, Option.some.injEq] at hs
    subst hs
    exact popInto_move (fun t => by simp [hpc, Pc.inHand]) (by simp [hpc, Pc.inHand])
  | batchingGet d b =>
    simp only [advance, hpc, Option.some.injEq] at hs
    subst hs
    exact popInto_move (fun t => by simp [hpc, Pc.inHand]) (by simp [hpc, Pc.inHand])
  | loop | pick | fifo _ | batchingStart | batching _ _ | batchingClock _ _ | latencyCap
  | latencyRoom _ | latencyRank =>
    -- only the program point moves, and no list with it
    simp only [advance, hpc, Option.some.injEq] at hs
    subst hs
    refine move_quiet ?_
    rw [hpc]
    (repeat' split) <;> rfl

theorem step_move {s t : Sys} {e : Event} (h : Inv s) (hs : step s e = some t) :
    Move s.places t.places := by
  cases e with
  | arrive x =>
    simp only [step] at hs
    split at hs
    · simp at hs
    · rename_i hfresh
      obtain rfl := Option.some.inj hs
      exact .arrive s.places x hfresh
  | configure c | stop =>
    obtain rfl := Option.some.inj hs
    exact .quiet s.places
  | advance clock => exact advance_move h hs

/-- Only `latencyRank` leads to a ranked list, and the thread alone touches the buffer. -/
theorem step_slice {s t : Sys} {e : Event} (hs : step s e = some t) {l : List Item}
    (hl : t.pc = .latencySlice l) : t.buffer = s.buffer ∧ (s.pc = .latencySlice l ∨
      ∃ clock, e = .advance clock ∧ l = ranked s.config.latencyThresholdMs clock s.buffer) := by
  cases e with
  | arrive x =>
    simp only [step] at hs
    split at hs
    · simp at hs
    · obtain rfl := Option.some.inj hs
      exact ⟨rfl, .inl hl⟩
  | configure c | stop =>
    obtain rfl := Option.some.inj hs
    exact ⟨rfl, .inl hl⟩
  | advance clock =>
    simp only [step] at hs
    cases hpc : s.pc with
    | stopped => simp [advance, hpc] at hs
    | latencyRank =>
      simp only [advance, hpc, Option.some.injEq] at hs
      subst hs
      simp only at hl
      split at hl
      · simp at hl
      · exact ⟨rfl, .inr ⟨clock, rfl, (Pc.latencySlice.inj hl).symm⟩⟩
    | latencyDrain left items =>
      cases left <;> simp only [advance, hpc, Option.some.injEq] at hs
      · subst hs
        simp at hl
      · split at hs <;> subst hs <;> simp at hl
    | _ =>
      simp only [advance, hpc, popInto, Option.some.injEq] at hs
      (repeat' split at hs) <;> subst hs <;> simp at hl

theorem step_ranked {s t : Sys} {e : Event} (h : Inv s) (hs : step s e = some t) {l : List Item}
    (hl : t.pc = .latencySlice l) : l ⊆ t.buffer := by
  obtain ⟨hbuffer, hpc | ⟨clock, -, rfl⟩⟩ := step_slice hs hl
  · exact hbuffer ▸ h.ranked l hpc
  · exact hbuffer ▸ ranked_subset _ _ _

/-- **Step lemma.** -/
theorem step_inv {s t : Sys} {e : Event} (h : Inv s) (hs : step s e = some t) : Inv t :=
  ⟨(step_move h hs).inv h.places, fun _ hl => step_ranked h hs hl⟩

/-! ## Strategy switches -/

/-- The buffer of the strategy the iteration is about to run. -/
def Sys.activeBuffer (s : Sys) : List Item :=
  if s.config.strategy = some .latencyAware then s.buffer else []

/-- Every task taken out of the queue was handed on or waits for the coming iteration. -/
def Settled (s : Sys) : Prop := ∀ t ∈ s.taken, t ∈ s.handed ∨ t ∈ s.activeBuffer

/-- The coming iteration runs the latency-aware strategy or that strategy holds nothing back. -/
def Drained (s : Sys) : Prop := s.config.strategy = some .latencyAware ∨ s.buffer = []

theorem Inv.settled_iff {s : Sys} (h : Inv s) (hpc : s.pc = .pick) :
    Settled s ↔ Drained s := by
  have htaken : ∀ t, t ∈ s.taken ↔ t ∈ s.handed ∨ t ∈ s.buffer := by
    intro t
    have := h.places.taken t
    simpa [Sys.places, hpc, Pc.inHand] using this
  constructor
  · intro hset
    by_cases hla : s.config.strategy = some .latencyAware
    · exact .inl hla
    · refine .inr (List.eq_nil_iff_forall_not_mem.mpr fun t ht => ?_)
      have hout : t ∉ s.handed := h.places.buffer t ht
      rcases hset t ((htaken t).mpr (.inr ht)) with hh | ha
      · exact hout hh
      · simp [Sys.activeBuffer, hla] at ha
  · rintro (hla | hnil) t ht
    · simpa [Sys.activeBuffer, hla] using (htaken t).mp ht
    · refine .inl ?_
      simpa [hnil] using (htaken t).mp ht

/-- **Strategy switching.**  In every run of arrivals, configuration changes and scheduler steps,
each iteration starts with every taken task handed on or in the buffer it is about to use, if and
only if each iteration starts with the latency-aware strategy selected or its buffer empty. -/
theorem settled_iff_drained {s₀ : Sys} (h₀ : Init s₀) (es : List Event) :
    (∀ es₁ es₂ s, es = es₁ ++ es₂ → exec step s₀ es₁ = some s → s.pc = .pick → Settled s) ↔
    (∀ es₁ es₂ s, es = es₁ ++ es₂ → exec step s₀ es₁ = some s → s.pc = .pick → Drained s) := by
  have hinv : ∀ es s, exec step s₀ es = some s → Inv s := fun es s =>
    exec_inv (fun _ _ _ => step_inv) (inv_init h₀)
  constructor
  · intro hset es₁ es₂ s hes hs hpc
    exact ((hinv es₁ s hs).settled_iff hpc).mp (hset es₁ es₂ s hes hs hpc)
  · intro hdr es₁ es₂ s hes hs hpc
    exact ((hinv es₁ s hs).settled_iff hpc).mpr (hdr es₁ es₂ s hes hs hpc)

/-- Two tasks queued for a latency-aware scheduler that hands on one at a time. -/
def switchStart : Sys where
  config := ⟨some .latencyAware, 1, 150⟩
  queue := [⟨1, 0⟩, ⟨2, 0⟩]
  buffer := []
  pc := .loop
  stop := false
  taken := []
  handed := []

/-- One latency-aware iteration, a switch to FIFO, and the start of the next iteration. -/
def switchRun : List Event :=
  List.replicate 10 (.advance fun _ => 20) ++
    [.configure ⟨some .fifo, 1, 150⟩, .advance fun _ => 20]

theorem switchStart_init : Init switchStart := ⟨by decide, rfl, rfl, rfl, rfl⟩

instance (s : Sys) : Decidable (Settled s) :=
  inferInstanceAs (Decidable (∀ t ∈ s.taken, t ∈ s.handed ∨ t ∈ s.activeBuffer))

/-- The second task is in the buffer of a strategy the FIFO iteration never looks at. -/
theorem switchRun_strands : Init switchStart ∧
    ∃ s, exec step switchStart switchRun = some s ∧ s.pc = .pick ∧ ¬ Settled s := by
  refine ⟨⟨by decide, rfl, rfl, rfl, rfl⟩, ?_⟩
  have hrun : (exec step switchStart switchRun).isSome = true := by decide +kernel
  obtain ⟨s, hs⟩ := Option.isSome_iff_exists.mp hrun
  have hview : (exec step switchStart switchRun).map (fun s => (s.pc, decide (Settled s))) =
      some (.pick, false) := by decide +kernel
  rw [hs, Option.map_some, Option.some.injEq, Prod.mk.injEq, decide_eq_false_iff_not] at hview
  exact ⟨s, hs, hview⟩

theorem settled_iff_drained_switchRun :
    ¬ ∀ es₁ es₂ s, switchRun = es₁ ++ es₂ → exec step switchStart es₁ = some s →
      s.pc = .pick → Settled s := by
  rw [settled_iff_drained switchStart_init]
  intro hall
  have hview : (exec step switchStart switchRun).map
      (fun s => (s.pc, s.config.strategy, s.buffer)) = some (.pick, some .fifo, [⟨2, 0⟩]) := by
    decide +kernel
  obtain ⟨s, hs, hv⟩ := Option.map_eq_some_iff.mp hview
  simp only [Prod.mk.injEq] at hv
  rcases hall switchRun [] s (by simp) hs hv.1 with h | h
  · simp [hv.2.1] at h
  · simp [hv.2.2] at h

/-! ## A stranded task stays stranded -/

/-- Points inside `LatencyAwareScheduler.next_batch`. -/
def Pc.inLatency : Pc → Bool
  | .latencyCap | .latencyRoom _ | .latencyDrain _ _ | .latencyRank | .latencySlice _ => true
  | _ => false

/-- No iteration picks the latency-aware strategy. -/
def OtherStrategy (s : Sys) : Event → Prop
  | .advance _ => s.pc = .pick → s.config.strategy ≠ some .latencyAware
  | _ => True

theorem step_buffer {s t : Sys} {e : Event} (hC : OtherStrategy s e)
    (hout : s.pc.inLatency = false) (hs : step s e = some t) :
    t.buffer = s.buffer ∧ t.pc.inLatency = false := by
  cases e with
  | arrive x =>
    simp only [step] at hs
    split at hs
    · simp at hs
    · obtain rfl := Option.some.inj hs
      exact ⟨rfl, hout⟩
  | configure c | stop =>
    obtain rfl := Option.some.inj hs
    exact ⟨rfl, hout⟩
  | advance clock =>
    simp only [step] at hs
    cases hpc : s.pc with
    | stopped => simp [advance, hpc] at hs
    | latencyCap | latencyRoom _ | latencyDrain _ _ | latencyRank | latencySlice _ =>
      simp [hpc, Pc.inLatency] at hout
    | pick =>
      have hne := hC hpc
      simp only [advance, hpc, Option.some.injEq] at hs
      subst hs
      rcases hst : s.config.strategy with _ | _ | _ | _
      · exact ⟨rfl, rfl⟩
      · exact ⟨rfl, rfl⟩
      · exact ⟨rfl, rfl⟩
      · exact absurd hst hne
    | _ =>
      simp only [advance, hpc, popInto, Option.some.injEq] at hs
      (repeat' split at hs) <;> subst hs <;> exact ⟨rfl, rfl⟩

/-- **Stranded for good.**  As long as no iteration picks the latency-aware strategy, the tasks in
its buffer are never handed on. -/
theorem stranded {s t : Sys} {es : List Event} (h : Inv s) (hout : s.pc.inLatency = false)
    (hC : Meets step OtherStrategy s es) (hs : exec step s es = some t) :
    ∀ x ∈ s.buffer, x ∉ t.handed := by
  have hP := exec_inv_meets (P := fun u => Inv u ∧ u.buffer = s.buffer ∧ u.pc.inLatency = false)
    (fun u e v hc hu huv => by
      obtain ⟨hi, hb, ho⟩ := hu
      obtain ⟨hb', ho'⟩ := step_buffer hc ho huv
      exact ⟨step_inv hi huv, hb'.trans hb, ho'⟩) hC ⟨h, rfl, hout⟩ hs
  intro x hx
  have hx' : x ∈ t.buffer := by
    rw [hP.2.1]
    exact hx
  exact hP.1.places.buffer x hx'

end Inference.Scheduler
