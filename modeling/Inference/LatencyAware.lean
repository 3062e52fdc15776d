import Inference.Scheduler

/-!
# Inference.LatencyAware — the order and the bookkeeping of `LatencyAwareScheduler.next_batch`

`next_batch` reads the clock for every task twice, once for `old` and once for `fresh`, so a task
whose age reaches the threshold in between is in neither list.

* `nextBatch`: the method as a function of what it reads; `call_nextBatch`: a call of the scheduler
  thread computes it.
* **`oldest_first_iff`**: the batch is oldest first exactly when no task that is passed over is older
  than one that is taken.
* **`buffering_conserves`**: whatever the threshold, every call hands on or keeps each task once.
-/

namespace Inference.Scheduler

open Inference.Lib

/-! ## The method -/

/-- `next_batch` once the buffer is topped up: the batch and the new buffer. -/
def dispatch (threshold : ℤ) (clock : ℕ → ℤ) (batchSize : ℕ) (buffer : List Item) :
    List Item × List Item :=
  if buffer = [] then ([], [])
  else ((ranked threshold clock buffer).take batchSize,
    without ((ranked threshold clock buffer).take batchSize) buffer)

/-- `self._buffer` after `queue.drain`; `capSize` is `config.batch_size` as read for `cap`. -/
def toppedUp (capSize : ℕ) (queue buffer : List Item) : List Item :=
  buffer ++ queue.take (capSize * 4 - buffer.length)

/-- `next_batch`: the batch, the new buffer and the queue.  `config.batch_size` is read twice. -/
def nextBatch (capSize batchSize : ℕ) (threshold : ℤ) (clock : ℕ → ℤ) (queue buffer : List Item) :
    List Item × List Item × List Item :=
  ((dispatch threshold clock batchSize (toppedUp capSize queue buffer)).1,
    (dispatch threshold clock batchSize (toppedUp capSize queue buffer)).2,
    queue.drop (capSize * 4 - buffer.length))

/-- The age of the task at a position reaches the threshold after the task was read for `old` and
before it is read for `fresh`. -/
def crosses (threshold : ℤ) (clock : ℕ → ℤ) (n : ℕ) (p : Item × ℕ) : Bool :=
  decide (p.1.ageMs (clock p.2) < threshold) && decide (threshold ≤ p.1.ageMs (clock (n + p.2)))

/-- The buffered tasks that cross the threshold between their two readings. -/
def crossing (threshold : ℤ) (clock : ℕ → ℤ) (buffer : List Item) : List Item :=
  (buffer.zipIdx.filter (crosses threshold clock buffer.length)).map Prod.fst

/-- The others. -/
def steady (threshold : ℤ) (clock : ℕ → ℤ) (buffer : List Item) : List Item :=
  (buffer.zipIdx.filter fun p => !crosses threshold clock buffer.length p).map Prod.fst

/-- The batch is in order, older than what is left, and there is one if there are tasks. -/
structure OldestFirst (buffer batch left : List Item) : Prop where
  sorted : batch.Pairwise fun a b => a.creationTime ≤ b.creationTime
  oldest : ∀ x ∈ left, ∀ b ∈ batch, b.creationTime ≤ x.creationTime
  nonempty : buffer ≠ [] → batch ≠ []

/-- Not all tasks cross the threshold, and behind each one that does there are no younger tasks
that stay clear of it, or enough that are no younger to fill the batch. -/
structure Undisturbed (threshold : ℤ) (clock : ℕ → ℤ) (batchSize : ℕ) (buffer : List Item) :
    Prop where
  some' : buffer ≠ [] → 0 < batchSize ∧ steady threshold clock buffer ≠ []
  overtaken : ∀ x ∈ crossing threshold clock buffer,
    (∀ y ∈ steady threshold clock buffer, y.creationTime ≤ x.creationTime) ∨
      batchSize ≤ (steady threshold clock buffer).countP fun y => y.creationTime ≤ x.creationTime

/-! ## Sorted lists and selections -/

/-- The front of a sorted list keeps below a bound when the list does or enough of it does. -/
theorem take_le_iff {α : Type} {f : α → ℤ} {l : List α} (hl : l.Pairwise fun a b => f a ≤ f b)
    (k : ℕ) (v : ℤ) :
    (∀ b ∈ l.take k, f b ≤ v) ↔ (∀ b ∈ l, f b ≤ v) ∨ k ≤ l.countP fun b => f b ≤ v := by
  induction l generalizing k with
  | nil => simp
  | cons a l ih =>
    obtain ⟨ha, htail⟩ := List.pairwise_cons.mp hl
    cases k with
    | zero => simp
    | succ k =>
      by_cases hav : f a ≤ v
      · simp [hav, ih htail k]
      · -- everything behind `a` is above the bound
        have hnone : l.countP (fun b => f b ≤ v) = 0 := by
          rw [List.countP_eq_zero]
          intro b hb
          have := ha b hb
          simp only [decide_eq_true_eq]
          omega
        simp [hav, hnone]

theorem mem_drop_of_not_mem_take {α : Type} {l : List α} {x : α} {k : ℕ} (hx : x ∈ l)
    (hk : x ∉ l.take k) : x ∈ l.drop k := by
  rw [← List.take_append_drop k l] at hx
  exact (List.mem_append.mp hx).resolve_left hk

theorem sorted_sortByCreation (l : List Item) :
    (sortByCreation l).Pairwise fun a b => a.creationTime ≤ b.creationTime := by
  have : Std.Total fun a b : Item => a.creationTime ≤ b.creationTime :=
    ⟨fun a b => le_total _ _⟩
  have : IsTrans Item fun a b => a.creationTime ≤ b.creationTime := ⟨fun _ _ _ => le_trans⟩
  exact List.pairwise_insertionSort _ l

theorem sortByCreation_perm (l : List Item) : (sortByCreation l).Perm l :=
  List.perm_insertionSort _ l

section Selection

variable {threshold : ℤ} {clock : ℕ → ℤ} {buffer : List Item}

theorem mem_selectBy {test : ℤ → Bool} {t : Item} (h : t ∈ selectBy test clock buffer) :
    ∃ i < buffer.length, buffer[i]? = some t ∧ test (t.ageMs (clock i)) = true := by
  obtain ⟨⟨u, i⟩, hp, rfl⟩ := List.mem_map.mp h
  obtain ⟨hz, ht⟩ := List.mem_filter.mp hp
  have hget := List.mk_mem_zipIdx_iff_getElem?.mp hz
  exact ⟨i, (List.getElem?_eq_some_iff.mp hget).1, hget, ht⟩

/-- The comprehension for `old` and the one for `fresh`. -/
theorem mem_old {t : Item} (h : t ∈ selectBy (fun age => decide (threshold ≤ age)) clock buffer) :
    ∃ i < buffer.length, t.creationTime ≤ clock i - threshold := by
  obtain ⟨i, hi, -, ht⟩ := mem_selectBy h
  have hage : threshold ≤ clock i - t.creationTime := of_decide_eq_true ht
  exact ⟨i, hi, by omega⟩

theorem mem_fresh {t : Item} (h : t ∈ selectBy (fun age => decide (age < threshold))
    (fun i => clock (buffer.length + i)) buffer) :
    ∃ i, clock (buffer.length + i) - threshold < t.creationTime := by
  obtain ⟨i, hi, -, ht⟩ := mem_selectBy h
  have hage : clock (buffer.length + i) - t.creationTime < threshold := of_decide_eq_true ht
  exact ⟨i, by omega⟩

/-- `old + fresh` is in order of creation: what was old at an earlier reading is older than what is
fresh at a later one. -/
theorem sorted_ranked (hclock : Monotone clock) :
    (ranked threshold clock buffer).Pairwise fun a b => a.creationTime ≤ b.creationTime := by
  refine List.pairwise_append.mpr ⟨sorted_sortByCreation _, sorted_sortByCreation _,
    fun a ha b hb => ?_⟩
  obtain ⟨i, hi, hold⟩ := mem_old ((sortByCreation_perm _).mem_iff.mp ha)
  obtain ⟨j, hfresh⟩ := mem_fresh ((sortByCreation_perm _).mem_iff.mp hb)
  have := hclock (show i ≤ buffer.length + j by omega)
  omega

/-- Every task that does not cross the threshold is ranked, once. -/
theorem ranked_perm (hclock : Monotone clock) :
    (ranked threshold clock buffer).Perm (steady threshold clock buffer) := by
  set clear : Item × ℕ → Bool := fun p => !crosses threshold clock buffer.length p with hclear
  have hold : buffer.zipIdx.filter (fun p => decide (threshold ≤ p.1.ageMs (clock p.2))) =
      (buffer.zipIdx.filter clear).filter fun p => decide (threshold ≤ p.1.ageMs (clock p.2)) := by
    rw [List.filter_filter]
    refine List.filter_congr fun p _ => ?_
    by_cases h : threshold ≤ p.1.ageMs (clock p.2)
    · simp [hclear, crosses, h, not_lt.mpr h]
    · simp [h]
  have hfresh : buffer.zipIdx.filter
        (fun p => decide (p.1.ageMs (clock (buffer.length + p.2)) < threshold)) =
      (buffer.zipIdx.filter clear).filter
        fun p => !decide (threshold ≤ p.1.ageMs (clock p.2)) := by
    rw [List.filter_filter]
    refine List.filter_congr fun p _ => ?_
    have hle := hclock (show p.2 ≤ buffer.length + p.2 by omega)
    have hage : p.1.ageMs (clock p.2) ≤ p.1.ageMs (clock (buffer.length + p.2)) := by
      simp only [Item.ageMs]
      omega
    by_cases h : p.1.ageMs (clock (buffer.length + p.2)) < threshold
    · have hlt := lt_of_le_of_lt hage h
      simp [hclear, crosses, h, hlt]
    · by_cases h' : p.1.ageMs (clock p.2) < threshold
      · simp [hclear, crosses, h, h', not_lt.mp h]
      · simp [h, not_lt.mp h']
  have hperm := List.filter_append_perm
    (fun p : Item × ℕ => decide (threshold ≤ p.1.ageMs (clock p.2))) (buffer.zipIdx.filter clear)
  rw [← hold, ← hfresh] at hperm
  have hmap := hperm.map Prod.fst
  rw [List.map_append] at hmap
  exact ((sortByCreation_perm _).append (sortByCreation_perm _)).trans hmap

theorem mem_steady_or_crossing {t : Item} :
    t ∈ buffer ↔ t ∈ steady threshold clock buffer ∨ t ∈ crossing threshold clock buffer := by
  have hperm := (List.filter_append_perm (fun p => !crosses threshold clock buffer.length p)
    buffer.zipIdx).map Prod.fst
  rw [List.zipIdx_map_fst] at hperm
  rw [← hperm.mem_iff, List.map_append, List.mem_append]
  simp only [Bool.not_not]
  rfl

/-- Of distinct tasks none does both. -/
theorem not_steady_of_crossing (hnd : buffer.Nodup) {t : Item}
    (h : t ∈ crossing threshold clock buffer) : t ∉ steady threshold clock buffer := by
  have hperm := (List.filter_append_perm (fun p => !crosses threshold clock buffer.length p)
    buffer.zipIdx).map Prod.fst
  rw [List.zipIdx_map_fst, List.map_append] at hperm
  simp only [Bool.not_not] at hperm
  exact fun hs => List.disjoint_of_nodup_append (hperm.nodup_iff.mpr hnd) hs h

end Selection

/-! ## The order of the batch -/

theorem nodup_of_refs {buffer : List Item} (h : (buffer.map Item.ref).Nodup) : buffer.Nodup :=
  h.of_map

/-- What stays in a buffer of distinct tasks. -/
theorem mem_without_of_refs {batch buffer : List Item} (hnd : (buffer.map Item.ref).Nodup)
    (hb : batch ⊆ buffer) {t : Item} : t ∈ without batch buffer ↔ t ∈ buffer ∧ t ∉ batch := by
  rw [mem_without]
  refine and_congr_right fun ht => not_congr ⟨fun hr => ?_, fun hm => List.mem_map_of_mem hm⟩
  obtain ⟨u, hu, hru⟩ := List.mem_map.mp hr
  obtain rfl := List.inj_on_of_nodup_map hnd (hb hu) ht hru
  exact hu

/-- **Oldest first.**  For every buffer and queue of distinct tasks, threshold, batch size and clock
that does not go back: the batch is in order of creation, nothing older is left behind and tasks are
never held back for nothing, if and only if no task that crosses the threshold between its two
readings is overtaken. -/
theorem oldest_first_iff (capSize batchSize : ℕ) (threshold : ℤ) {clock : ℕ → ℤ}
    (hclock : Monotone clock) {queue buffer : List Item}
    (hrefs : ((buffer ++ queue).map Item.ref).Nodup) :
    OldestFirst (toppedUp capSize queue buffer)
      (nextBatch capSize batchSize threshold clock queue buffer).1
      (nextBatch capSize batchSize threshold clock queue buffer).2.1 ↔
    Undisturbed threshold clock batchSize (toppedUp capSize queue buffer) := by
  have hnd : ((toppedUp capSize queue buffer).map Item.ref).Nodup := by
    refine hrefs.sublist (List.Sublist.map _ ?_)
    exact (List.Sublist.refl _).append (List.take_sublist _ _)
  simp only [nextBatch]
  generalize toppedUp capSize queue buffer = all at hnd ⊢
  by_cases hnil : all = []
  · subst hnil
    simp only [dispatch, if_true]
    exact ⟨fun _ => ⟨fun h => absurd rfl h, fun x hx => by simp [crossing] at hx⟩,
      fun _ => ⟨List.Pairwise.nil, fun x hx => by simp at hx, fun h => absurd rfl h⟩⟩
  simp only [dispatch, hnil, if_false]
  have hsorted : (ranked threshold clock all).Pairwise fun a b => a.creationTime ≤ b.creationTime :=
    sorted_ranked hclock
  have hperm : (ranked threshold clock all).Perm (steady threshold clock all) := ranked_perm hclock
  have hsub : (ranked threshold clock all).take batchSize ⊆ all := fun t ht =>
    ranked_subset _ _ _ (List.mem_of_mem_take ht)
  have hne : (ranked threshold clock all).take batchSize ≠ [] ↔
      0 < batchSize ∧ steady threshold clock all ≠ [] := by
    rw [Ne, List.take_eq_nil_iff, not_or, ← List.length_eq_zero_iff, hperm.length_eq,
      List.length_eq_zero_iff]
    exact and_congr_left fun _ => Nat.pos_iff_ne_zero.symm
  -- a task that crosses is overtaken by the tasks of the batch that are younger
  have hbound : ∀ x : Item, (∀ b ∈ (ranked threshold clock all).take batchSize,
      b.creationTime ≤ x.creationTime) ↔
      (∀ y ∈ steady threshold clock all, y.creationTime ≤ x.creationTime) ∨ batchSize ≤
        (steady threshold clock all).countP fun y => y.creationTime ≤ x.creationTime := by
    intro x
    rw [take_le_iff (f := Item.creationTime) hsorted, hperm.countP_eq]
    refine or_congr_left ⟨fun h y hy => h y (hperm.mem_iff.mpr hy), fun h y hy => ?_⟩
    exact h y (hperm.mem_iff.mp hy)
  constructor
  · intro h
    refine ⟨fun hall => hne.mp (h.nonempty hall), fun x hx => (hbound x).mp fun b hb => ?_⟩
    refine h.oldest x ((mem_without_of_refs hnd hsub).mpr ⟨?_, fun hin => ?_⟩) b hb
    · exact mem_steady_or_crossing.mpr (.inr hx)
    · exact not_steady_of_crossing (nodup_of_refs hnd) hx
        (hperm.mem_iff.mp (List.mem_of_mem_take hin))
  · intro h
    refine ⟨hsorted.sublist (List.take_sublist _ _), fun x hx b hb => ?_,
      fun hall => hne.mpr (h.some' hall)⟩
    obtain ⟨hx, hout⟩ := (mem_without_of_refs hnd hsub).mp hx
    have hsplit : x ∈ steady threshold clock all ∨ x ∈ crossing threshold clock all :=
      mem_steady_or_crossing.mp hx
    rcases hsplit with hs | hc
    · -- ranked, but behind the batch
      have hdrop := mem_drop_of_not_mem_take (hperm.mem_iff.mpr hs) hout
      have happ := hsorted
      rw [← List.take_append_drop batchSize (ranked threshold clock all)] at happ
      exact (List.pairwise_append.mp happ).2.2 b hb x hdrop
    · exact (hbound x).mpr (h.overtaken x hc) b hb

/-- The clock shows 149 for `old` and 150 for `fresh`. -/
def tickingClock (k : ℕ) : ℤ := if k < 2 then 149 else 150

theorem tickingClock_mono : Monotone tickingClock := by
  intro a b hab
  unfold tickingClock
  split <;> split <;> omega

/-- A queued task joins two buffered ones; the two that are older are taken, the late one first. -/
theorem oldest_first_iff_sample :
    OldestFirst (toppedUp 1 [⟨3, 120⟩] [⟨1, 100⟩, ⟨2, -10⟩])
      (nextBatch 1 2 150 tickingClock [⟨3, 120⟩] [⟨1, 100⟩, ⟨2, -10⟩]).1
      (nextBatch 1 2 150 tickingClock [⟨3, 120⟩] [⟨1, 100⟩, ⟨2, -10⟩]).2.1 ∧
    (nextBatch 1 2 150 tickingClock [⟨3, 120⟩] [⟨1, 100⟩, ⟨2, -10⟩]).1 = [⟨2, -10⟩, ⟨1, 100⟩] := by
  refine ⟨(oldest_first_iff 1 2 150 tickingClock_mono (by decide)).mpr ⟨fun _ => ?_, ?_⟩, by decide⟩
  · exact ⟨by decide, by decide⟩
  · have hnone : crossing 150 tickingClock (toppedUp 1 [⟨3, 120⟩] [⟨1, 100⟩, ⟨2, -10⟩]) = [] := by
      decide
    intro x hx
    simp [hnone] at hx

/-- The older task turns 150 between its two readings: the younger one goes first. -/
theorem nextBatch_overtakes : Monotone tickingClock ∧
    nextBatch 4 1 150 tickingClock [] [⟨1, 0⟩, ⟨2, 100⟩] = ([⟨2, 100⟩], [⟨1, 0⟩], []) ∧
    ¬ OldestFirst (toppedUp 4 [] [⟨1, 0⟩, ⟨2, 100⟩])
      (nextBatch 4 1 150 tickingClock [] [⟨1, 0⟩, ⟨2, 100⟩]).1
      (nextBatch 4 1 150 tickingClock [] [⟨1, 0⟩, ⟨2, 100⟩]).2.1 := by
  have hrun : nextBatch 4 1 150 tickingClock [] [⟨1, 0⟩, ⟨2, 100⟩] =
      ([⟨2, 100⟩], [⟨1, 0⟩], []) := by decide
  refine ⟨tickingClock_mono, hrun, fun h => ?_⟩
  have hle := h.oldest ⟨1, 0⟩ (by simp [hrun]) ⟨2, 100⟩ (by simp [hrun])
  simp at hle

/-! ## Calls of the scheduler thread -/

/-- The tasks that arrive during a run. -/
def arrivals : List Event → List Item
  | [] => []
  | .arrive t :: es => t :: arrivals es
  | _ :: es => arrivals es

/-- The clock does not go back during a step. -/
def Event.Forward : Event → Prop
  | .advance clock => Monotone clock
  | _ => True

/-- A call of `next_batch` of the latency-aware strategy, from its first statement to its return. -/
structure Call (s : Sys) (es : List Event) (t : Sys) (batch : List Item) : Prop where
  start : s.pc = .latencyCap
  run : exec step s es = some t
  inside : Meets step (fun s _ => s.pc.inLatency = true) s es
  return' : t.pc = .handle batch

/-- How far the call that started in `s` has come in `m`, with `drained` taken out of the queue. -/
def Course (s m : Sys) (drained : List Item) : Pc → Prop
  | .latencyCap => drained = [] ∧ m.buffer = s.buffer
  | .latencyRoom cap => drained = [] ∧ m.buffer = s.buffer ∧ ∃ capSize, cap = capSize * 4
  | .latencyDrain left items => items = drained ∧ m.buffer = s.buffer ∧
      ∃ capSize, drained.length + left = capSize * 4 - s.buffer.length
  | .latencyRank => m.buffer = s.buffer ++ drained ∧
      ∃ capSize, drained.length ≤ capSize * 4 - s.buffer.length
  | .latencySlice l => m.buffer = s.buffer ++ drained ∧ m.buffer ≠ [] ∧
      (∃ capSize, drained.length ≤ capSize * 4 - s.buffer.length) ∧
      ∃ threshold clock, Monotone clock ∧ l = ranked threshold clock m.buffer
  | .handle batch => (∃ capSize, drained.length ≤ capSize * 4 - s.buffer.length) ∧
      ∃ threshold clock batchSize, Monotone clock ∧ batchSize = m.config.batchSize ∧
        (batch, m.buffer) = dispatch threshold clock batchSize (s.buffer ++ drained)
  | _ => False

/-- The relation between the start of a call and a later moment of it. -/
def During (s m : Sys) (arrived : List Item) : Prop :=
  ∃ drained, s.queue ++ arrived = drained ++ m.queue ∧ m.taken = drained.reverse ++ s.taken ∧
    Course s m drained m.pc

section Calls

variable {s m t : Sys} {drained arrived : List Item} {es : List Event} {e : Event}

theorem Course.other {pc : Pc} (h : Course s m drained pc) (hpc : pc.inLatency = true)
    (hb : t.buffer = m.buffer) : Course s t drained pc := by
  cases pc with
  | latencyCap => exact ⟨h.1, hb.trans h.2⟩
  | latencyRoom cap => exact ⟨h.1, hb.trans h.2.1, h.2.2⟩
  | latencyDrain left items => exact ⟨h.1, hb.trans h.2.1, h.2.2⟩
  | latencyRank => exact ⟨hb.trans h.1, h.2⟩
  | latencySlice l =>
    obtain ⟨hbuf, hne, hcap, threshold, clock, hmono, hl⟩ := h
    exact ⟨hb.trans hbuf, hb ▸ hne, hcap, threshold, clock, hmono, hb ▸ hl⟩
  | _ => simp [Pc.inLatency] at hpc

/-- What the drain has taken is in the buffer. -/
theorem Course.topUp {left capSize : ℕ} (hb : m.buffer = s.buffer)
    (hcap : drained.length + left = capSize * 4 - s.buffer.length)
    (ht : t.buffer = m.buffer ++ drained) : Course s t drained .latencyRank :=
  ⟨ht.trans (by rw [hb]), capSize, by omega⟩

/-- **One statement of the call.** -/
theorem During.advance {clock : ℕ → ℤ} (h : During s m arrived) (hin : m.pc.inLatency = true)
    (hclock : Monotone clock) (hs : Scheduler.advance m clock = some t) : During s t arrived := by
  obtain ⟨drained, hqueue, htaken, hcourse⟩ := h
  cases hpc : m.pc with
  | latencyCap =>
    rw [hpc] at hcourse
    simp only [Scheduler.advance, hpc, Option.some.injEq] at hs
    subst hs
    exact ⟨drained, hqueue, htaken, hcourse.1, hcourse.2, m.config.batchSize, rfl⟩
  | latencyRoom cap =>
    rw [hpc] at hcourse
    obtain ⟨hnil, hbuf, capSize, rfl⟩ := hcourse
    simp only [Scheduler.advance, hpc, Option.some.injEq] at hs
    subst hs
    refine ⟨drained, hqueue, htaken, ?_⟩
    subst hnil
    simp only
    split
    · exact ⟨rfl, hbuf, capSize, by simp [hbuf]⟩
    · exact ⟨by simp [hbuf], capSize, by simp⟩
  | latencyDrain left items =>
    rw [hpc] at hcourse
    obtain ⟨rfl, hbuf, capSize, hlen⟩ := hcourse
    cases left with
    | zero =>
      simp only [Scheduler.advance, hpc, Option.some.injEq] at hs
      subst hs
      exact ⟨items, hqueue, htaken, Course.topUp hbuf hlen rfl⟩
    | succ left =>
      simp only [Scheduler.advance, hpc, Option.some.injEq] at hs
      split at hs
      · rename_i x rest hq
        subst hs
        refine ⟨items ++ [x], by simpa [hq] using hqueue, by simp [htaken], rfl, hbuf, capSize, ?_⟩
        rw [List.length_append, List.length_singleton]
        omega
      · subst hs
        exact ⟨items, hqueue, htaken, Course.topUp hbuf hlen rfl⟩
  | latencyRank =>
    rw [hpc] at hcourse
    obtain ⟨hbuf, hcap⟩ := hcourse
    simp only [Scheduler.advance, hpc, Option.some.injEq] at hs
    subst hs
    refine ⟨drained, hqueue, htaken, ?_⟩
    simp only
    split
    · rename_i hnil
      refine ⟨hcap, 0, clock, _, hclock, rfl, ?_⟩
      rw [← hbuf, hnil]
      rfl
    · rename_i hne
      exact ⟨hbuf, hne, hcap, m.config.latencyThresholdMs, clock, hclock, rfl⟩
  | latencySlice l =>
    rw [hpc] at hcourse
    obtain ⟨hbuf, hne, hcap, threshold, clock', hmono, rfl⟩ := hcourse
    simp only [Scheduler.advance, hpc, Option.some.injEq] at hs
    subst hs
    refine ⟨drained, hqueue, htaken, hcap, threshold, clock', _, hmono, rfl, ?_⟩
    rw [← hbuf, dispatch, if_neg hne]
  | _ => simp [hpc, Pc.inLatency] at hin

theorem During.step (h : During s m arrived) (hin : m.pc.inLatency = true) (he : e.Forward)
    (hs : Scheduler.step m e = some t) : During s t (arrived ++ arrivals [e]) := by
  cases e with
  | arrive x =>
    simp only [Scheduler.step] at hs
    split at hs
    · simp at hs
    · obtain rfl := Option.some.inj hs
      obtain ⟨drained, hqueue, htaken, hcourse⟩ := h
      refine ⟨drained, ?_, htaken, hcourse.other hin rfl⟩
      rw [← List.append_assoc, hqueue, List.append_assoc]
      rfl
  | configure c | stop =>
    obtain rfl := Option.some.inj hs
    obtain ⟨drained, hqueue, htaken, hcourse⟩ := h
    exact ⟨drained, by simpa [arrivals] using hqueue, htaken, hcourse.other hin rfl⟩
  | advance clock =>
    have := h.advance hin he hs
    simpa [arrivals] using this

theorem trace_arrivals (h : exec Scheduler.step s es = some t) :
    trace Scheduler.step (fun _ e => arrivals [e]) s es = arrivals es := by
  induction es generalizing s with
  | nil => rfl
  | cons e es ih =>
    obtain ⟨u, hu, hrest⟩ := exec_cons.mp h
    rw [trace, hu, Option.elim_some, ih hrest]
    cases e <;> rfl

/-- **A call of the scheduler thread computes `nextBatch`**, for some queue it found, whatever
arrives or is configured meanwhile. -/
theorem call_nextBatch {batch : List Item} (hc : Call s es t batch)
    (hclock : Meets Scheduler.step (fun _ e => e.Forward) s es) :
    ∃ drained capSize threshold clock, Monotone clock ∧
      s.queue ++ arrivals es = drained ++ t.queue ∧ t.taken = drained.reverse ++ s.taken ∧
      nextBatch capSize t.config.batchSize threshold clock drained s.buffer =
        (batch, t.buffer, []) := by
  have hstart : During s s [] := ⟨[], by simp, by simp, by rw [hc.start]; exact ⟨rfl, rfl⟩⟩
  have hend : During s t ([] ++ trace Scheduler.step (fun _ e => arrivals [e]) s es) :=
    exec_trace (P := During s) (fun _ _ _ _ hC h hs => During.step h hC.1 hC.2 hs)
      (meets_and hc.inside hclock) hc.run hstart
  rw [trace_arrivals hc.run, List.nil_append] at hend
  obtain ⟨drained, hqueue, htaken, hcourse⟩ := hend
  rw [hc.return'] at hcourse
  obtain ⟨⟨capSize, hcap⟩, threshold, clock, batchSize, hmono, rfl, hdispatch⟩ := hcourse
  refine ⟨drained, capSize, threshold, clock, hmono, hqueue, htaken, ?_⟩
  rw [nextBatch, toppedUp, List.take_of_length_le hcap, List.drop_of_length_le hcap, ← hdispatch]

end Calls

/-! ## No task is lost or handed on twice -/

theorem steady_sublist (threshold : ℤ) (clock : ℕ → ℤ) (buffer : List Item) :
    (steady threshold clock buffer).Sublist buffer := by
  have hmap := (List.filter_sublist (p := fun p => !crosses threshold clock buffer.length p)
    (l := buffer.zipIdx)).map Prod.fst
  rwa [List.zipIdx_map_fst] at hmap

theorem nodup_ranked {threshold : ℤ} {clock : ℕ → ℤ} {buffer : List Item} (hclock : Monotone clock)
    (hnd : buffer.Nodup) : (ranked threshold clock buffer).Nodup :=
  (ranked_perm hclock).nodup_iff.mpr (hnd.sublist (steady_sublist _ _ _))

/-- A buffer of distinct tasks is the batch taken out of it and what stays. -/
theorem without_perm {batch buffer : List Item} (hnd : (buffer.map Item.ref).Nodup)
    (hb : batch ⊆ buffer) (hbatch : batch.Nodup) : buffer.Perm (batch ++ without batch buffer) := by
  have hrest : (without batch buffer).Nodup := (nodup_of_refs hnd).filter _
  have hdisj : batch.Disjoint (without batch buffer) := fun t ht hw =>
    ((mem_without_of_refs hnd hb).mp hw).2 ht
  refine (List.perm_ext_iff_of_nodup (nodup_of_refs hnd) (hbatch.append hrest hdisj)).mpr fun t => ?_
  rw [List.mem_append, mem_without_of_refs hnd hb]
  constructor
  · intro ht
    by_cases hin : t ∈ batch
    · exact .inl hin
    · exact .inr ⟨ht, hin⟩
  · rintro (ht | ht)
    · exact hb ht
    · exact ht.1

theorem dispatch_perm (threshold : ℤ) {clock : ℕ → ℤ} (batchSize : ℕ) {buffer : List Item}
    (hclock : Monotone clock) (hnd : (buffer.map Item.ref).Nodup) :
    buffer.Perm ((dispatch threshold clock batchSize buffer).1 ++
      (dispatch threshold clock batchSize buffer).2) := by
  unfold dispatch
  split
  · rename_i hnil
    rw [hnil]
    exact List.Perm.refl _
  · refine without_perm hnd (fun t ht => ranked_subset _ _ _ (List.mem_of_mem_take ht)) ?_
    exact (nodup_ranked hclock (nodup_of_refs hnd)).sublist (List.take_sublist _ _)

theorem dispatch_length (threshold : ℤ) (clock : ℕ → ℤ) (batchSize : ℕ) (buffer : List Item) :
    (dispatch threshold clock batchSize buffer).1.length ≤ batchSize := by
  unfold dispatch
  split
  · exact Nat.zero_le _
  · exact List.length_take_le _ _

/-- Every task taken out of the queue is in one place, once. -/
structure Sys.Kept (s : Sys) : Prop where
  perm : s.taken.Perm (s.handed ++ (s.buffer ++ s.pc.inHand))
  ranked : ∀ l, s.pc = .latencySlice l → l.Nodup

section Runs

variable {s t : Sys} {e : Event}

theorem Init.kept (h : Init s) : s.Kept := by
  obtain ⟨-, hbuf, hpc, htaken, hhanded⟩ := h
  exact ⟨by simp [hbuf, hpc, htaken, hhanded, Pc.inHand], fun l hl => by simp [hpc] at hl⟩

theorem Inv.taken_refs (h : Inv s) : (s.taken.map Item.ref).Nodup := by
  have hrefs := h.places.refs
  rw [List.map_append] at hrefs
  exact hrefs.of_append_right

theorem Sys.Kept.buffer_refs (hk : s.Kept) (h : Inv s) : (s.buffer.map Item.ref).Nodup := by
  have hrefs := (hk.perm.map Item.ref).nodup_iff.mp h.taken_refs
  rw [List.map_append, List.map_append] at hrefs
  exact hrefs.of_append_right.of_append_left

/-- The moves keep every task once, if what is cut out of the buffer is cut out once. -/
theorem Move.kept {p q : Places} (hm : Move p q) (hrefs : (p.buffer.map Item.ref).Nodup)
    (hperm : p.taken.Perm (p.handed ++ (p.buffer ++ p.hand))) (hnd : p.hand = [] → q.hand.Nodup) :
    q.taken.Perm (q.handed ++ (q.buffer ++ q.hand)) := by
  cases hm with
  | quiet => exact hperm
  | arrive t hfresh => exact hperm
  | pop t rest hq =>
    refine (hperm.cons t).trans ?_
    have hsnoc := List.perm_append_singleton t (p.handed ++ (p.buffer ++ p.hand))
    simpa only [List.append_assoc] using hsnoc.symm
  | store => simpa only [List.append_assoc, List.append_nil] using hperm
  | slice batch hnil hsub =>
    have hcut := without_perm hrefs hsub (hnd hnil)
    rw [hnil, List.append_nil] at hperm
    exact hperm.trans ((hcut.trans List.perm_append_comm).append_left p.handed)
  | deliver =>
    refine hperm.trans ?_
    rw [List.append_nil, ← List.append_assoc]
    refine List.perm_append_comm.trans ?_
    rw [List.append_assoc]

/-- What a statement takes when nothing is in hand it takes once. -/
theorem step_hand (hk : s.Kept) (hs : step s e = some t) (hnil : s.pc.inHand = []) :
    t.pc.inHand.Nodup := by
  cases e with
  | arrive x =>
    simp only [step] at hs
    split at hs
    · simp at hs
    · obtain rfl := Option.some.inj hs
      simp [hnil]
  | configure c | stop =>
    obtain rfl := Option.some.inj hs
    simp [hnil]
  | advance clock =>
    simp only [step] at hs
    cases hpc : s.pc with
    | stopped => simp [advance, hpc] at hs
    | latencySlice l =>
      simp only [advance, hpc, Option.some.injEq] at hs
      subst hs
      exact (hk.ranked l hpc).sublist (List.take_sublist _ _)
    | latencyDrain left items =>
      obtain rfl : items = [] := by simpa [hpc, Pc.inHand] using hnil
      cases left <;> simp only [advance, hpc, Option.some.injEq] at hs
      · subst hs
        exact List.nodup_nil
      · split at hs <;> subst hs <;> simp [Pc.inHand]
    | fifo b | fifoGet b | batching d b | batchingClock d b | batchingGet d b | handle b =>
      obtain rfl : b = [] := by simpa [hpc, Pc.inHand] using hnil
      simp only [advance, hpc, popInto, Option.some.injEq] at hs
      (repeat' split at hs) <;> subst hs <;> simp [Pc.inHand]
    | _ =>
      simp only [advance, hpc, Option.some.injEq] at hs
      subst hs
      simp only
      (repeat' split) <;> exact List.nodup_nil

/-- **Step lemma.** -/
theorem Sys.Kept.step (hk : s.Kept) (h : Inv s) (he : e.Forward)
    (hs : Scheduler.step s e = some t) : t.Kept := by
  refine ⟨(step_move h hs).kept (hk.buffer_refs h) hk.perm (step_hand hk hs), fun l hl => ?_⟩
  rcases (step_slice hs hl).2 with hpc | ⟨clock, rfl, rfl⟩
  · exact hk.ranked l hpc
  · exact nodup_ranked he (nodup_of_refs (hk.buffer_refs h))

/-! ### The size of the buffer -/

/-- The buffer is within the cap of a batch size up to `M`. -/
structure Sys.Small (M : ℕ) (s : Sys) : Prop where
  config : s.config.batchSize ≤ M
  buffer : s.buffer.length ≤ 4 * M
  room : ∀ cap, s.pc = .latencyRoom cap → cap ≤ 4 * M
  drain : ∀ left items, s.pc = .latencyDrain left items →
    s.buffer.length + items.length + left ≤ 4 * M

/-- The batch sizes that are configured stay within `M`. -/
def Event.Within (M : ℕ) : Event → Prop
  | .configure c => c.batchSize ≤ M
  | _ => True

/-- **Step lemma.** -/
theorem Sys.Small.step {M : ℕ} (h : s.Small M) (he : e.Within M)
    (hs : Scheduler.step s e = some t) : t.Small M := by
  obtain ⟨hconfig, hbuffer, hroom, hdrain⟩ := h
  have hpoint : ∀ pc : Pc, (∀ cap, pc ≠ .latencyRoom cap) → (∀ left items, pc ≠ .latencyDrain left items) →
      ({ s with pc := pc } : Sys).Small M := fun pc h₁ h₂ =>
    ⟨hconfig, hbuffer, fun cap hc => absurd hc (h₁ cap), fun left items hc => absurd hc (h₂ left items)⟩
  cases e with
  | arrive x =>
    simp only [Scheduler.step] at hs
    split at hs
    · simp at hs
    · obtain rfl := Option.some.inj hs
      exact ⟨hconfig, hbuffer, hroom, hdrain⟩
  | configure c =>
    obtain rfl := Option.some.inj hs
    exact ⟨he, hbuffer, hroom, hdrain⟩
  | stop =>
    obtain rfl := Option.some.inj hs
    exact ⟨hconfig, hbuffer, hroom, hdrain⟩
  | advance clock =>
    simp only [Scheduler.step] at hs
    cases hpc : s.pc with
    | stopped => simp [advance, hpc] at hs
    | latencyCap =>
      simp only [advance, hpc, Option.some.injEq] at hs
      subst hs
      refine ⟨hconfig, hbuffer, fun cap hc => ?_, fun left items hc => by simp at hc⟩
      obtain rfl := Pc.latencyRoom.inj hc
      omega
    | latencyRoom cap =>
      have hcap := hroom cap hpc
      simp only [advance, hpc, Option.some.injEq] at hs
      subst hs
      split
      · refine ⟨hconfig, hbuffer, fun c hc => by simp at hc, fun left items hc => ?_⟩
        obtain ⟨rfl, rfl⟩ := Pc.latencyDrain.inj hc
        simp only [List.length_nil]
        omega
      · exact hpoint _ (by simp) (by simp)
    | latencyDrain left items =>
      have hlen := hdrain left items hpc
      have hend : ({ s with buffer := s.buffer ++ items, pc := .latencyRank } : Sys).Small M := by
        refine ⟨hconfig, ?_, fun c hc => by simp at hc, fun l i hc => by simp at hc⟩
        rw [List.length_append]
        omega
      cases left with
      | zero =>
        simp only [advance, hpc, Option.some.injEq] at hs
        exact hs ▸ hend
      | succ left =>
        simp only [advance, hpc, Option.some.injEq] at hs
        split at hs <;> subst hs
        · refine ⟨hconfig, hbuffer, fun c hc => by simp at hc, fun l i hc => ?_⟩
          obtain ⟨rfl, rfl⟩ := Pc.latencyDrain.inj hc
          simp only [List.length_append, List.length_singleton]
          omega
        · exact hend
    | latencyRank =>
      simp only [advance, hpc, Option.some.injEq] at hs
      subst hs
      split <;> exact hpoint _ (by simp) (by simp)
    | latencySlice l =>
      simp only [advance, hpc, Option.some.injEq] at hs
      subst hs
      refine ⟨hconfig, le_trans (List.length_filter_le _ _) hbuffer, fun c hc => by simp at hc,
        fun l i hc => by simp at hc⟩
    | _ =>
      simp only [advance, hpc, popInto, Option.some.injEq] at hs
      (repeat' split at hs) <;> subst hs <;>
        exact ⟨hconfig, hbuffer, fun c hc => by simp at hc, fun l i hc => by simp at hc⟩

end Runs

/-- The largest `batch_size` configured so far. -/
def largest (s₀ : Sys) (es : List Event) : ℕ :=
  es.foldl (fun k e => match e with
    | .configure c => max k c.batchSize
    | _ => k) s₀.config.batchSize

theorem le_foldl_largest (k : ℕ) (es : List Event) :
    k ≤ es.foldl (fun k e => match e with
      | .configure c => max k c.batchSize
      | _ => k) k ∧
    ∀ e ∈ es, e.Within (es.foldl (fun k e => match e with
      | .configure c => max k c.batchSize
      | _ => k) k) := by
  induction es generalizing k with
  | nil => exact ⟨le_rfl, by simp⟩
  | cons e es ih =>
    cases e with
    | configure c =>
      obtain ⟨hle, hall⟩ := ih (max k c.batchSize)
      refine ⟨le_trans (le_max_left _ _) hle, fun e he => ?_⟩
      rcases List.mem_cons.mp he with rfl | he
      · exact le_trans (le_max_right k c.batchSize) hle
      · exact hall e he
    | _ =>
      obtain ⟨hle, hall⟩ := ih k
      refine ⟨hle, fun e he => ?_⟩
      rcases List.mem_cons.mp he with rfl | he
      · trivial
      · exact hall e he

theorem small_of_run {s₀ s : Sys} {es : List Event} (h₀ : Init s₀)
    (h : exec step s₀ es = some s) : s.Small (largest s₀ es) := by
  obtain ⟨hle, hall⟩ := le_foldl_largest s₀.config.batchSize es
  obtain ⟨-, hbuf, hpc, -, -⟩ := h₀
  refine exec_inv_meets (P := Sys.Small (largest s₀ es)) (C := fun _ e => e.Within (largest s₀ es))
    (fun _ _ _ he hi hs => hi.step he hs) (meets_of_forall (fun e he _ => hall e he) s₀) ?_ h
  exact ⟨hle, by simp [hbuf], fun c hc => by simp [hpc] at hc, fun l i hc => by simp [hpc] at hc⟩

/-- **Buffering conserves tasks.**  In every run whose clock does not go back within a step: each call
of `next_batch` takes a prefix of the queue, and its old buffer with what it took is its batch with
its new buffer, the batch holding no task twice and at most `batch_size` of them; the buffer is never
longer than four times the largest batch size so far; and every task taken out of the queue has been
handed on or is waiting, once. -/
theorem buffering_conserves {s₀ s : Sys} {es : List Event} (h₀ : Init s₀)
    (hclock : Meets step (fun _ e => e.Forward) s₀ es) (h : exec step s₀ es = some s) :
    (∀ es₁ es₂ es₃ m t batch, es = es₁ ++ es₂ ++ es₃ → exec step s₀ es₁ = some m →
      Call m es₂ t batch → ∃ drained, m.queue ++ arrivals es₂ = drained ++ t.queue ∧
        t.taken = drained.reverse ++ m.taken ∧ (m.buffer ++ drained).Perm (batch ++ t.buffer) ∧
        (batch.map Item.ref).Nodup ∧ batch.length ≤ t.config.batchSize) ∧
    s.buffer.length ≤ 4 * largest s₀ es ∧
    (s.taken.map Item.ref).Nodup ∧ s.taken.Perm (s.handed ++ (s.buffer ++ s.pc.inHand)) ∧
    (s.handed.map Item.ref).Nodup := by
  have hrun : ∀ {es : List Event} {s : Sys}, Meets step (fun _ e => e.Forward) s₀ es →
      exec step s₀ es = some s → Inv s ∧ s.Kept := fun hm hs =>
    exec_inv_meets (P := fun s => Inv s ∧ s.Kept)
      (fun _ _ _ he hi hs => ⟨step_inv hi.1 hs, hi.2.step hi.1 he hs⟩) hm ⟨inv_init h₀, h₀.kept⟩ hs
  obtain ⟨hinv, hkept⟩ := hrun hclock h
  have hhanded := (hkept.perm.map Item.ref).nodup_iff.mp hinv.taken_refs
  rw [List.map_append] at hhanded
  refine ⟨?_, (small_of_run h₀ h).buffer, hinv.taken_refs, hkept.perm, hhanded.of_append_left⟩
  rintro es₁ es₂ es₃ m t batch rfl hm hcall
  obtain ⟨hbefore, hafter⟩ := meets_split (meets_split hclock).1
  obtain ⟨drained, capSize, threshold, clock, hmono, hqueue, htaken, hnext⟩ :=
    call_nextBatch hcall (hafter m hm)
  have hkm := (hrun hbefore hm).2
  have hit := (hrun (meets_append hbefore hm (hafter m hm))
    (exec_append.mpr ⟨m, hm, hcall.run⟩)).1
  simp only [nextBatch, Prod.mk.injEq] at hnext
  obtain ⟨hbatch, hbuffer, hdrop⟩ := hnext
  -- all that was drained went into the buffer
  have htop : toppedUp capSize drained m.buffer = m.buffer ++ drained := by
    rw [toppedUp, List.take_of_length_le (List.drop_eq_nil_iff.mp hdrop)]
  have hrefs : ((m.buffer ++ drained).map Item.ref).Nodup := by
    have hperm : t.taken.Perm ((m.buffer ++ drained) ++ (m.handed ++ m.pc.inHand)) := by
      rw [htaken]
      refine List.perm_iff_count.mpr fun x => ?_
      have hcount := hkm.perm.count_eq x
      simp only [List.count_append, List.count_reverse] at hcount ⊢
      omega
    have hnd := (hperm.map Item.ref).nodup_iff.mp hit.taken_refs
    rw [List.map_append] at hnd
    exact hnd.of_append_left
  have hperm := dispatch_perm threshold t.config.batchSize hmono hrefs
  rw [← htop, hbatch, hbuffer, htop] at hperm
  refine ⟨drained, hqueue, htaken, hperm, ?_, ?_⟩
  · have hnd := (hperm.map Item.ref).nodup_iff.mp hrefs
    rw [List.map_append] at hnd
    exact hnd.of_append_left
  · rw [← hbatch]
    exact dispatch_length _ _ _ _

/-- Two tasks, handed on one at a time. -/
theorem buffering_conserves_switchRun : ∃ s, exec step switchStart switchRun = some s ∧
    s.handed.map Item.ref = [1] ∧ s.buffer.map Item.ref = [2] ∧
    s.buffer.length ≤ 4 * largest switchStart switchRun ∧
    s.taken.Perm (s.handed ++ (s.buffer ++ s.pc.inHand)) := by
  have hview : (exec step switchStart switchRun).map
      (fun s => (s.handed.map Item.ref, s.buffer.map Item.ref)) = some ([1], [2]) := by
    decide +kernel
  obtain ⟨s, hs, hv⟩ := Option.map_eq_some_iff.mp hview
  obtain ⟨hhanded, hbuffer⟩ := Prod.mk.inj hv
  have hclock : Meets step (fun _ e => e.Forward) switchStart switchRun := by
    refine meets_of_forall (fun e he _ => ?_) _
    simp only [switchRun, List.mem_append, List.mem_replicate, List.mem_cons, List.not_mem_nil,
      or_false] at he
    rcases he with ⟨-, rfl⟩ | rfl | rfl
    · exact fun _ _ _ => le_rfl
    · trivial
    · exact fun _ _ _ => le_rfl
  obtain ⟨-, hsmall, -, hperm, -⟩ := buffering_conserves switchStart_init hclock hs
  exact ⟨s, hs, hhanded, hbuffer, hsmall, hperm⟩

end Inference.Scheduler
