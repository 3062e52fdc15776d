import Inference.LatencyAware

/-!
# Inference.Waiting — how long a queued task can wait for the scheduler

The buffer of the latency-aware strategy is there so that no task starves.  `next_batch` may pass a
task over (`crossing`), so the order of the batches alone does not say that.

* `Ripe`: a task whose age has reached the threshold; it never crosses again.
* `Timed`: the clock does not go back from one step to the next.
* `Waits`: what a run keeps as long as a task waits; `Waits.step` is the step lemma.
* **`bounded_waiting`**: two calls in a row that leave a task waiting hand on `batch_size` others, and
  in one call at most these are younger tasks that came after it.
* **`dispatched_in_order`**: under the other two strategies tasks are handed on as they came.
-/

namespace Inference.Scheduler

open Inference.Lib

/-- The batch of a call that has returned to `_loop`. -/
def returned (s : Sys) : Event → List (List Item)
  | .advance _ => match s.pc with
    | .handle batch => [batch]
    | _ => []
  | _ => []

/-- The clock does not go back, and no step reads less than what an earlier one has read. -/
def Timed : ℤ → List Event → Prop
  | _, [] => True
  | now, .advance clock :: es =>
    Monotone clock ∧ now ≤ clock 0 ∧ ∃ later, (∀ i, clock i ≤ later) ∧ Timed later es
  | now, _ :: es => Timed now es

/-- The latency-aware strategy with threshold `θ` and batches of `b` or more. -/
structure Serves (θ : ℤ) (b : ℕ) (c : Config) : Prop where
  strategy : c.strategy = some .latencyAware
  threshold : c.latencyThresholdMs = θ
  batchSize : b ≤ c.batchSize

def Event.Serves (θ : ℤ) (b : ℕ) : Event → Prop
  | .configure c => Scheduler.Serves θ b c
  | _ => True

/-- The age has reached the threshold. -/
def Ripe (θ now : ℤ) (x : Item) : Prop := x.creationTime + θ ≤ now

instance (θ now : ℤ) (x : Item) : Decidable (Ripe θ now x) :=
  inferInstanceAs (Decidable (_ ≤ _))

section Waiting

variable {θ now later : ℤ} {b : ℕ} {t : Item} {ahead : Item → Prop} {clock : ℕ → ℤ}
  {buffer l : List Item} {bs : List (List Item)} {s s' : Sys} {e : Event} {es : List Event}

theorem Ripe.mono {x : Item} (h : Ripe θ now x) (hle : now ≤ later) : Ripe θ later x :=
  le_trans h hle

/-! ## One ranking -/

/-- What is ripe before the first reading is ranked. -/
theorem steady_of_ripe {x : Item} (hx : x ∈ buffer) (hnow : ∀ i, now ≤ clock i)
    (hripe : Ripe θ now x) : x ∈ steady θ clock buffer := by
  obtain ⟨i, hi⟩ := List.getElem?_of_mem hx
  have hmem : (x, i) ∈ buffer.zipIdx := List.mk_mem_zipIdx_iff_getElem?.mpr hi
  refine List.mem_map.mpr ⟨(x, i), List.mem_filter.mpr ⟨hmem, ?_⟩, rfl⟩
  have hage : ¬ x.ageMs (clock i) < θ := by
    have := hnow i
    simp only [Ripe] at hripe
    simp only [Item.ageMs, not_lt]
    omega
  simp [crosses, hage]

/-- What crosses the threshold is ripe afterwards. -/
theorem ripe_of_crossing {x : Item} (hx : x ∈ crossing θ clock buffer)
    (hlater : ∀ i, clock i ≤ later) : Ripe θ later x := by
  obtain ⟨⟨y, i⟩, hp, rfl⟩ := List.mem_map.mp hx
  have hcross := (Bool.and_eq_true_iff.mp (List.mem_filter.mp hp).2).2
  have hage : θ ≤ clock (buffer.length + i) - y.creationTime := of_decide_eq_true hcross
  have hle := hlater (buffer.length + i)
  simp only [Ripe]
  omega

/-- All that is not ranked is ripe afterwards. -/
theorem ripe_of_not_ranked {x : Item} (hclock : Monotone clock) (hlater : ∀ i, clock i ≤ later)
    (hx : x ∈ buffer) (hout : x ∉ ranked θ clock buffer) : Ripe θ later x := by
  rcases mem_steady_or_crossing.mp hx with h | h
  · exact absurd ((ranked_perm hclock).mem_iff.mpr h) hout
  · exact ripe_of_crossing h hlater

theorem ranked_of_ripe {x : Item} (hclock : Monotone clock) (hnow : ∀ i, now ≤ clock i)
    (hx : x ∈ buffer) (hripe : Ripe θ now x) : x ∈ ranked θ clock buffer :=
  (ranked_perm hclock).mem_iff.mpr (steady_of_ripe hx hnow hripe)

/-- The ripe tasks among distinct ones are ranked. -/
theorem count_ripe_le_ranked (hnd : buffer.Nodup) (hclock : Monotone clock)
    (hnow : ∀ i, now ≤ clock i) :
    buffer.countP (fun x => Ripe θ now x) ≤ (ranked θ clock buffer).length := by
  rw [List.countP_eq_length_filter]
  refine ((hnd.filter _).subperm fun x hx => ?_).length_le
  obtain ⟨hmem, hripe⟩ := List.mem_filter.mp hx
  exact ranked_of_ripe hclock hnow hmem (of_decide_eq_true hripe)

/-! ## What is known while a task waits -/

/-- The task is ripe in the buffer, or `b` ripe tasks are. -/
def Primed (θ now : ℤ) (b : ℕ) (t : Item) (buffer : List Item) : Prop :=
  (t ∈ buffer ∧ Ripe θ now t) ∨ b ≤ buffer.countP fun x => Ripe θ now x

/-- A list whose first `b` tasks are `b` tasks or have the task among them. -/
def Fills (b : ℕ) (t : Item) (l : List Item) : Prop := t ∈ l ∨ b ≤ l.length

/-- How the running call stands; `short` says that the call before it handed on less than `b`. -/
def Progress (θ now : ℤ) (b : ℕ) (t : Item) (short : Prop) (s : Sys) : Pc → Prop
  | .loop | .pick | .stopped | .latencyCap => short → Primed θ now b t s.buffer
  | .latencyRoom cap => 4 * b ≤ cap ∧ (short → Primed θ now b t s.buffer)
  | .latencyDrain left items => 4 * b ≤ s.buffer.length + items.length + left ∧
      (short → Primed θ now b t s.buffer)
  | .latencyRank => (t ∈ s.buffer ∨ 4 * b ≤ s.buffer.length) ∧ (short → Primed θ now b t s.buffer)
  | .latencySlice l => (Fills b t l ∨ l.length < b ∧ Primed θ now b t (without l s.buffer)) ∧
      (short → Fills b t l)
  | .handle batch => (Fills b t batch ∨ Primed θ now b t s.buffer) ∧ (short → Fills b t batch)
  | _ => False

/-- Where the task is; what is in front of it in the queue, or has come out of it before, is
`ahead`. -/
def Placed (t : Item) (ahead : Item → Prop) (s : Sys) : Prop :=
  t ∈ s.buffer ∨ t ∈ s.pc.inHand ∨
    (∃ pre post, s.queue = pre ++ t :: post ∧ ∀ y ∈ pre, ahead y) ∧
      (∀ y ∈ s.buffer, ahead y) ∧ ∀ y ∈ s.pc.inHand, ahead y

/-- A task that may be handed on before `t`. -/
def Before (t : Item) (ahead : Item → Prop) (y : Item) : Prop :=
  ahead y ∨ y.creationTime ≤ t.creationTime

def Clean (t : Item) (ahead : Item → Prop) (bs : List (List Item)) : Prop :=
  ∀ batch ∈ bs, ∀ y ∈ batch, Before t ahead y

/-- All batches but one are clean. -/
def Once (t : Item) (ahead : Item → Prop) (bs : List (List Item)) : Prop :=
  ∃ bs₁ batch bs₂, bs = bs₁ ++ batch :: bs₂ ∧ Clean t ahead (bs₁ ++ bs₂)

/-- Who has overtaken `t` so far: nobody, or one batch, and `t` is ripe now. -/
def Past (θ now : ℤ) (t : Item) (ahead : Item → Prop) (bs : List (List Item)) (s : Sys) : Prop :=
  Clean t ahead bs ∨ t ∈ s.buffer ∧ Ripe θ now t ∧ Once t ahead bs

/-- Who may overtake it in the running call. -/
def Overtaking (θ now : ℤ) (t : Item) (ahead : Item → Prop) (bs : List (List Item)) (s : Sys) :
    Pc → Prop
  | .latencySlice l => Past θ now t ahead bs s ∧
      (l.Pairwise fun x y => x.creationTime ≤ y.creationTime) ∧
      (t ∈ l ∨ (t ∈ s.buffer ∧ Ripe θ now t ∧ Clean t ahead bs) ∨ ∀ y ∈ l, Before t ahead y)
  | .handle batch => t ∈ batch ∨ (t ∈ s.buffer ∧ Ripe θ now t ∧ Clean t ahead bs) ∨
      Past θ now t ahead bs s ∧ ∀ y ∈ batch, Before t ahead y
  | _ => Past θ now t ahead bs s

/-- The last call handed on less than `b`. -/
def Short (b : ℕ) (bs : List (List Item)) : Prop := ∃ batch ∈ bs.getLast?, batch.length < b

/-- `t` waits at time `now`, and the calls since it was first seen returned `bs`. -/
structure Waits (θ now : ℤ) (b : ℕ) (t : Item) (ahead : Item → Prop) (bs : List (List Item))
    (s : Sys) : Prop where
  config : Serves θ b s.config
  placed : Placed t ahead s
  progress : Progress θ now b t (Short b bs) s s.pc
  pairs : bs.IsChain fun x y => b ≤ x.length + y.length
  tidy : Clean t ahead bs ∨ Once t ahead bs
  overtaking : Overtaking θ now t ahead bs s s.pc

theorem Primed.mono (h : Primed θ now b t buffer) (hle : now ≤ later) :
    Primed θ later b t buffer := by
  rcases h with ⟨ht, hripe⟩ | hcount
  · exact .inl ⟨ht, hripe.mono hle⟩
  · refine .inr (le_trans hcount (List.countP_mono_left fun x _ hx => ?_))
    exact decide_eq_true ((of_decide_eq_true hx : Ripe θ now x).mono hle)

theorem Primed.append (h : Primed θ now b t buffer) (l : List Item) :
    Primed θ now b t (buffer ++ l) := by
  rcases h with ⟨ht, hripe⟩ | hcount
  · exact .inl ⟨List.mem_append_left _ ht, hripe⟩
  · refine .inr (le_trans hcount ?_)
    rw [List.countP_append]
    exact Nat.le_add_right _ _

/-- Cut at `b` or later, the list still fills. -/
theorem Fills.take (h : Fills b t l) {k : ℕ} (hk : b ≤ k) : Fills b t (l.take k) := by
  rcases Nat.lt_or_ge k l.length with hlt | hge
  · right
    rw [List.length_take]
    omega
  · rwa [List.take_of_length_le hge]

theorem Past.mono (h : Past θ now t ahead bs s) (hle : now ≤ later) (hb : s.buffer ⊆ s'.buffer) :
    Past θ later t ahead bs s' :=
  h.imp_right fun ⟨ht, hripe, honce⟩ => ⟨hb ht, hripe.mono hle, honce⟩

/-- The call is over and `t` was not in its batch. -/
theorem Past.snoc {batch : List Item} (hnot : t ∉ batch)
    (h : Overtaking θ now t ahead bs s (.handle batch)) : Past θ now t ahead (bs ++ [batch]) s := by
  rcases h with hin | ⟨ht, hripe, hclean⟩ | ⟨hpast, hbefore⟩
  · exact absurd hin hnot
  · refine .inr ⟨ht, hripe, bs, batch, [], rfl, ?_⟩
    rwa [List.append_nil]
  · have hsnoc : ∀ {cs : List (List Item)}, Clean t ahead cs → Clean t ahead (cs ++ [batch]) := by
      intro cs hclean x hx
      rcases List.mem_append.mp hx with hx | hx
      · exact hclean x hx
      · rw [List.mem_singleton.mp hx]
        exact hbefore
    rcases hpast with hclean | ⟨ht, hripe, bs₁, x, bs₂, rfl, hclean⟩
    · exact .inl (hsnoc hclean)
    · refine .inr ⟨ht, hripe, bs₁, x, bs₂ ++ [batch], by simp, ?_⟩
      rw [← List.append_assoc]
      exact hsnoc hclean

/-! ## One step -/

/-- Time passes and the thread does not move. -/
theorem Progress.mono {short : Prop} {pc : Pc} (h : Progress θ now b t short s pc) (hle : now ≤ later)
    (hb : s'.buffer = s.buffer) : Progress θ later b t short s' pc := by
  cases pc with
  | loop | pick | stopped | latencyCap => exact fun hs => hb ▸ (h hs).mono hle
  | latencyRoom cap => exact ⟨h.1, fun hs => hb ▸ (h.2 hs).mono hle⟩
  | latencyDrain left items => exact ⟨hb ▸ h.1, fun hs => hb ▸ (h.2 hs).mono hle⟩
  | latencyRank => exact ⟨hb ▸ h.1, fun hs => hb ▸ (h.2 hs).mono hle⟩
  | latencySlice l => exact ⟨h.1.imp_right fun hp => ⟨hp.1, hb ▸ hp.2.mono hle⟩, h.2⟩
  | handle batch => exact ⟨h.1.imp_right fun hp => hb ▸ hp.mono hle, h.2⟩
  | _ => exact h

/-- What has been ranked: it fills a batch, or what is left over is primed. -/
theorem ranked_fills (hnd : (buffer.map Item.ref).Nodup) (hclock : Monotone clock)
    (hlater : ∀ i, clock i ≤ later) (hroom : t ∈ buffer ∨ 4 * b ≤ buffer.length) :
    Fills b t (ranked θ clock buffer) ∨ (ranked θ clock buffer).length < b ∧
      Primed θ later b t (without (ranked θ clock buffer) buffer) := by
  by_cases hfill : Fills b t (ranked θ clock buffer)
  · exact .inl hfill
  obtain ⟨hout, hlen⟩ := not_or.mp hfill
  rw [not_le] at hlen
  have hsub : ranked θ clock buffer ⊆ buffer := ranked_subset _ _ _
  refine .inr ⟨hlen, ?_⟩
  rcases hroom with ht | hfull
  · left
    exact ⟨(mem_without_of_refs hnd hsub).mpr ⟨ht, hout⟩, ripe_of_not_ranked hclock hlater ht hout⟩
  · -- all that is left has crossed the threshold
    right
    have hperm := without_perm hnd hsub (nodup_ranked hclock (nodup_of_refs hnd))
    have hsum := hperm.length_eq
    rw [List.length_append] at hsum
    have hall : (without (ranked θ clock buffer) buffer).countP (fun x => Ripe θ later x) =
        (without (ranked θ clock buffer) buffer).length := by
      refine List.countP_eq_length.mpr fun x hx => decide_eq_true ?_
      obtain ⟨hx, hxout⟩ := (mem_without_of_refs hnd hsub).mp hx
      exact ripe_of_not_ranked hclock hlater hx hxout
    omega

/-- After a short call the ranking fills a batch. -/
theorem Primed.fills (h : Primed θ now b t buffer) (hnd : (buffer.map Item.ref).Nodup)
    (hclock : Monotone clock) (hnow : ∀ i, now ≤ clock i) : Fills b t (ranked θ clock buffer) := by
  rcases h with ⟨ht, hripe⟩ | hcount
  · exact .inl (ranked_of_ripe hclock hnow ht hripe)
  · exact .inr (le_trans hcount (count_ripe_le_ranked (nodup_of_refs hnd) hclock hnow))

/-- The ranking is in order, and has `t` unless `t` has just crossed or is still in the queue. -/
theorem Past.ranked (h : Past θ now t ahead bs s) (hplaced : Placed t ahead s)
    (hhand : s.pc.inHand = []) (hclock : Monotone clock) (hnow : ∀ i, now ≤ clock i)
    (hlater : ∀ i, clock i ≤ later) :
    Overtaking θ later t ahead bs { s with pc := .latencySlice (ranked θ clock s.buffer) }
      (.latencySlice (ranked θ clock s.buffer)) := by
  have hle : now ≤ later := le_trans (hnow 0) (hlater 0)
  refine ⟨h.mono hle fun x hx => hx, sorted_ranked hclock, ?_⟩
  rcases hplaced with ht | ht | ⟨-, hahead, -⟩
  · by_cases hin : t ∈ Scheduler.ranked θ clock s.buffer
    · exact .inl hin
    · refine .inr (.inl ⟨ht, ripe_of_not_ranked hclock hlater ht hin, ?_⟩)
      rcases h with hclean | ⟨-, hripe, -⟩
      · exact hclean
      · exact absurd (ranked_of_ripe hclock hnow ht hripe) hin
  · rw [hhand] at ht
    exact absurd ht List.not_mem_nil
  · exact .inr (.inr fun y hy => .inl (hahead y (ranked_subset _ _ _ hy)))

/-- The batch that is cut off. -/
theorem Overtaking.slice {k : ℕ} (h : Overtaking θ now t ahead bs s (.latencySlice l))
    (hrefs : (s.buffer.map Item.ref).Nodup) (hsub : l ⊆ s.buffer) :
    Overtaking θ now t ahead bs
      { s with buffer := without (l.take k) s.buffer, pc := .handle (l.take k) }
      (.handle (l.take k)) := by
  obtain ⟨hpast, hsorted, hcase⟩ := h
  by_cases hin : t ∈ l.take k
  · exact .inl hin
  have hstay : t ∈ s.buffer → t ∈ without (l.take k) s.buffer := fun ht =>
    (mem_without_of_refs hrefs fun x hx => hsub (List.mem_of_mem_take hx)).mpr ⟨ht, hin⟩
  have hpast' : Past θ now t ahead bs
      { s with buffer := without (l.take k) s.buffer, pc := .handle (l.take k) } :=
    hpast.imp_right fun ⟨ht, hripe, honce⟩ => ⟨hstay ht, hripe, honce⟩
  rcases hcase with ht | ⟨ht, hripe, hclean⟩ | hbefore
  · -- `t` is ranked behind the batch
    refine .inr (.inr ⟨hpast', fun y hy => .inr ?_⟩)
    have happ := hsorted
    rw [← List.take_append_drop k l] at happ
    exact (List.pairwise_append.mp happ).2.2 y hy t (mem_drop_of_not_mem_take ht hin)
  · exact .inr (.inl ⟨hstay ht, hripe, hclean⟩)
  · exact .inr (.inr ⟨hpast', fun y hy => hbefore y (List.mem_of_mem_take hy)⟩)

/-- Nothing moves but the thread. -/
theorem Placed.goto {pc : Pc} (h : Placed t ahead s) (hhand : pc.inHand = s.pc.inHand) :
    Placed t ahead { s with pc := pc } := by
  simpa only [Placed, hhand] using h

/-- The thread moves on, and what is in the buffer stays there. -/
theorem Waits.goto {pc : Pc} (h : Waits θ now b t ahead bs s)
    (hhand : pc.inHand = s.pc.inHand)
    (hprogress : Progress θ later b t (Short b bs) { s with pc := pc } pc)
    (hover : Past θ now t ahead bs s → Overtaking θ later t ahead bs { s with pc := pc } pc)
    (hpast : Past θ now t ahead bs s) : Waits θ later b t ahead bs { s with pc := pc } :=
  ⟨h.config, h.placed.goto hhand, hprogress, h.pairs, h.tidy, hover hpast⟩

/-- The drain pops the queue. -/
theorem Placed.pop {x : Item} {rest items : List Item} {left : ℕ} (h : Placed t ahead s)
    (hpc : s.pc.inHand = items) (hq : s.queue = x :: rest) :
    Placed t ahead { s with queue := rest, taken := x :: s.taken,
                            pc := .latencyDrain left (items ++ [x]) } := by
  rcases h with ht | ht | ⟨⟨pre, post, hpre, hahead⟩, hbuf, hhand⟩
  · exact .inl ht
  · rw [hpc] at ht
    exact .inr (.inl (List.mem_append_left _ ht))
  · rw [hpc] at hhand
    cases pre with
    | nil =>
      obtain ⟨rfl, -⟩ := List.cons.inj (hq.symm.trans hpre)
      exact .inr (.inl (List.mem_append_right _ (List.mem_singleton_self _)))
    | cons z pre =>
      obtain ⟨rfl, hrest⟩ := List.cons.inj (hq.symm.trans hpre)
      refine .inr (.inr ⟨⟨pre, post, hrest, fun y hy => hahead y (List.mem_cons_of_mem _ hy)⟩,
        hbuf, fun y hy => ?_⟩)
      rcases List.mem_append.mp hy with hy | hy
      · exact hhand y hy
      · rw [List.mem_singleton.mp hy]
        exact hahead _ List.mem_cons_self

/-- What has been drained goes into the buffer. -/
theorem Placed.store {items : List Item} (h : Placed t ahead s) (hpc : s.pc.inHand = items) :
    Placed t ahead { s with buffer := s.buffer ++ items, pc := .latencyRank } := by
  rcases h with ht | ht | ⟨hqueue, hbuf, hhand⟩
  · exact .inl (List.mem_append_left _ ht)
  · rw [hpc] at ht
    exact .inl (List.mem_append_right _ ht)
  · rw [hpc] at hhand
    refine .inr (.inr ⟨hqueue, fun y hy => ?_, fun y hy => absurd hy List.not_mem_nil⟩)
    rcases List.mem_append.mp hy with hy | hy
    · exact hbuf y hy
    · exact hhand y hy

/-- **`TaskQueue.drain`.**  It ends with `t` in the buffer or with the buffer full. -/
theorem Waits.drain {left : ℕ} {items : List Item} (h : Waits θ now b t ahead bs s)
    (hpc : s.pc = .latencyDrain left items) (hle : now ≤ later)
    (hs : Scheduler.advance s clock = some s') : Waits θ later b t ahead bs s' := by
  obtain ⟨hconfig, hplaced, hprogress, hpairs, htidy, hover⟩ := h
  rw [hpc] at hprogress hover
  obtain ⟨hcap, hshort⟩ := hprogress
  have hhand : s.pc.inHand = items := by rw [hpc]; rfl
  have hstore : (t ∈ s.buffer ++ items ∨ 4 * b ≤ (s.buffer ++ items).length) →
      Waits θ later b t ahead bs { s with buffer := s.buffer ++ items, pc := .latencyRank } :=
    fun hroom => ⟨hconfig, hplaced.store hhand,
      ⟨hroom, fun hsh => ((hshort hsh).mono hle).append items⟩, hpairs, htidy,
      Past.mono hover hle fun x hx => List.mem_append_left _ hx⟩
  cases left with
  | zero =>
    simp only [Scheduler.advance, hpc, Option.some.injEq] at hs
    subst hs
    refine hstore (.inr ?_)
    rw [List.length_append]
    omega
  | succ left =>
    simp only [Scheduler.advance, hpc, Option.some.injEq] at hs
    split at hs
    · rename_i x rest hq
      subst hs
      refine ⟨hconfig, hplaced.pop hhand hq, ⟨?_, fun hsh => (hshort hsh).mono hle⟩, hpairs, htidy,
        Past.mono hover hle fun x hx => hx⟩
      simp only [List.length_append, List.length_singleton]
      omega
    · rename_i hq
      subst hs
      refine hstore (.inl ?_)
      rcases hplaced with ht | ht | ⟨⟨pre, post, hpre, -⟩, -, -⟩
      · exact List.mem_append_left _ ht
      · rw [hhand] at ht
        exact List.mem_append_right _ ht
      · rw [hq] at hpre
        exact absurd hpre.symm (by simp)

/-- **The batch is cut off.** -/
theorem Waits.slice (h : Waits θ now b t ahead bs s) (hpc : s.pc = .latencySlice l)
    (hrefs : (s.buffer.map Item.ref).Nodup) (hsub : l ⊆ s.buffer) (hle : now ≤ later)
    (hs : Scheduler.advance s clock = some s') : Waits θ later b t ahead bs s' := by
  obtain ⟨hconfig, hplaced, hprogress, hpairs, htidy, hover⟩ := h
  rw [hpc] at hprogress hover
  obtain ⟨hcut, hshort⟩ := hprogress
  have hk := hconfig.batchSize
  simp only [Scheduler.advance, hpc, Option.some.injEq] at hs
  subst hs
  refine ⟨hconfig, ?_, ⟨?_, fun hsh => (hshort hsh).take hk⟩, hpairs, htidy, ?_⟩
  · rcases hplaced with ht | ht | ⟨hqueue, hbuf, -⟩
    · have hcut : l.take s.config.batchSize ⊆ s.buffer := fun x hx => hsub (List.mem_of_mem_take hx)
      by_cases hin : t ∈ l.take s.config.batchSize
      · exact .inr (.inl hin)
      · exact .inl ((mem_without_of_refs hrefs hcut).mpr ⟨ht, hin⟩)
    · rw [hpc] at ht
      exact absurd ht List.not_mem_nil
    · refine .inr (.inr ⟨hqueue, fun y hy => hbuf y (mem_without.mp hy).1, fun y hy => ?_⟩)
      exact hbuf y (hsub (List.mem_of_mem_take hy))
  · refine hcut.imp (fun hfill => hfill.take hk) fun hrest => ?_
    rw [List.take_of_length_le (by omega)]
    exact hrest.2.mono hle
  · rcases Overtaking.slice (k := s.config.batchSize) hover hrefs hsub with
      hin | ⟨ht, hripe, hclean⟩ | ⟨hpast, hbefore⟩
    · exact .inl hin
    · exact .inr (.inl ⟨ht, hripe.mono hle, hclean⟩)
    · exact .inr (.inr ⟨hpast.mono hle fun x hx => hx, hbefore⟩)

/-- **The batch is handed on.**  Together with the one before it has `b` tasks. -/
theorem Waits.handle {batch : List Item} (h : Waits θ now b t ahead bs s) (hpc : s.pc = .handle batch)
    (hnot : t ∉ batch) (hle : now ≤ later) (hs : Scheduler.advance s clock = some s') :
    Waits θ later b t ahead (bs ++ [batch]) s' := by
  obtain ⟨hconfig, hplaced, hprogress, hpairs, htidy, hover⟩ := h
  rw [hpc] at hprogress hover
  obtain ⟨hfill, hshort⟩ := hprogress
  simp only [Scheduler.advance, hpc, Option.some.injEq] at hs
  subst hs
  have hpast := Past.snoc hnot hover
  refine ⟨hconfig, ?_, fun hsh => ?_, ?_, hpast.imp_right fun hp => hp.2.2,
    hpast.mono hle fun x hx => hx⟩
  · rcases hplaced with ht | ht | ⟨hqueue, hbuf, -⟩
    · exact .inl ht
    · rw [hpc] at ht
      exact absurd ht hnot
    · exact .inr (.inr ⟨hqueue, hbuf, fun y hy => absurd hy List.not_mem_nil⟩)
  · obtain ⟨x, hx, hlen⟩ := hsh
    rw [List.getLast?_concat, Option.mem_some_iff] at hx
    subst hx
    rcases hfill with (ht | hlong) | hprimed
    · exact absurd ht hnot
    · omega
    · exact hprimed.mono hle
  · refine hpairs.append (List.isChain_singleton _) fun x hx y hy => ?_
    rw [List.head?_cons, Option.mem_some_iff] at hy
    subst hy
    by_cases hlen : x.length < b
    · rcases hshort ⟨x, hx, hlen⟩ with ht | hlong
      · exact absurd ht hnot
      · omega
    · omega

/-- **One statement.** -/
theorem Waits.advance (h : Waits θ now b t ahead bs s) (hb : 0 < b) (hinv : Inv s) (hk : s.Kept)
    (hclock : Monotone clock) (hnow : ∀ i, now ≤ clock i) (hlater : ∀ i, clock i ≤ later)
    (hs : Scheduler.advance s clock = some s') :
    t ∈ s'.handed ∨ Waits θ later b t ahead (bs ++ returned s (.advance clock)) s' := by
  have hle : now ≤ later := le_trans (hnow 0) (hlater 0)
  have hrefs := hk.buffer_refs hinv
  have hprogress := h.progress
  have hover := h.overtaking
  have hpast : Past θ now t ahead bs s → Past θ later t ahead bs s := fun hp =>
    hp.mono hle fun x hx => hx
  cases hpc : s.pc with
  | fifo | fifoGet | batchingStart | batching | batchingClock | batchingGet =>
    rw [hpc] at hprogress
    exact absurd hprogress id
  | stopped => simp [Scheduler.advance, hpc] at hs
  | loop =>
    rw [hpc] at hprogress hover
    simp only [Scheduler.advance, hpc, Option.some.injEq] at hs
    subst hs
    right
    simp only [returned, hpc, List.append_nil]
    split
    · exact h.goto (by rw [hpc]; rfl) (fun hsh => (hprogress hsh).mono hle) hpast hover
    · exact h.goto (by rw [hpc]; rfl) (fun hsh => (hprogress hsh).mono hle) hpast hover
  | pick =>
    rw [hpc] at hprogress hover
    simp only [Scheduler.advance, hpc, h.config.strategy, Option.some.injEq] at hs
    subst hs
    right
    simp only [returned, hpc, List.append_nil]
    exact h.goto (by rw [hpc]; rfl) (fun hsh => (hprogress hsh).mono hle) hpast hover
  | latencyCap =>
    rw [hpc] at hprogress hover
    simp only [Scheduler.advance, hpc, Option.some.injEq] at hs
    subst hs
    right
    simp only [returned, hpc, List.append_nil]
    have hsize := h.config.batchSize
    exact h.goto (by rw [hpc]; rfl) ⟨by omega, fun hsh => (hprogress hsh).mono hle⟩ hpast hover
  | latencyRoom cap =>
    rw [hpc] at hprogress hover
    obtain ⟨hcap, hshort⟩ := hprogress
    simp only [Scheduler.advance, hpc, Option.some.injEq] at hs
    subst hs
    right
    simp only [returned, hpc, List.append_nil]
    split
    · refine h.goto (by rw [hpc]; rfl) ⟨?_, fun hsh => (hshort hsh).mono hle⟩ hpast hover
      simp only [List.length_nil]
      omega
    · rename_i hfull
      exact h.goto (by rw [hpc]; rfl)
        ⟨.inr (le_trans hcap (not_lt.mp hfull)), fun hsh => (hshort hsh).mono hle⟩ hpast hover
  | latencyDrain left items =>
    right
    simp only [returned, hpc, List.append_nil]
    exact h.drain hpc hle hs
  | latencyRank =>
    rw [hpc] at hprogress hover
    obtain ⟨hroom, hshort⟩ := hprogress
    have hne : s.buffer ≠ [] := by
      rintro hnil
      rcases hroom with ht | hfull
      · rw [hnil] at ht
        exact List.not_mem_nil ht
      · rw [hnil, List.length_nil] at hfull
        omega
    simp only [Scheduler.advance, hpc, hne, if_false, h.config.threshold, Option.some.injEq] at hs
    subst hs
    right
    simp only [returned, hpc, List.append_nil]
    exact h.goto (by rw [hpc]; rfl)
      ⟨ranked_fills hrefs hclock hlater hroom, fun hsh => (hshort hsh).fills hrefs hclock hnow⟩
      (fun hp => hp.ranked h.placed (by rw [hpc]; rfl) hclock hnow hlater) hover
  | latencySlice l =>
    right
    simp only [returned, hpc, List.append_nil]
    exact h.slice hpc hrefs (hinv.ranked l hpc) hle hs
  | handle batch =>
    by_cases hin : t ∈ batch
    · left
      simp only [Scheduler.advance, hpc, Option.some.injEq] at hs
      subst hs
      exact List.mem_append_left _ hin
    · right
      simp only [returned, hpc]
      exact h.handle hpc hin hle hs

/-! ## Runs -/

/-- Somebody else's step: a task arrives, the configuration is set, the scheduler is stopped. -/
theorem Waits.other (h : Waits θ now b t ahead bs s) (he : e.Serves θ b)
    (hne : ∀ clock, e ≠ .advance clock) (hs : Scheduler.step s e = some s') :
    Waits θ now b t ahead bs s' := by
  cases e with
  | advance clock => exact absurd rfl (hne clock)
  | arrive x =>
    simp only [Scheduler.step] at hs
    split at hs
    · simp at hs
    · obtain rfl := Option.some.inj hs
      refine ⟨h.config, ?_, h.progress.mono le_rfl rfl, h.pairs, h.tidy, h.overtaking⟩
      rcases h.placed with ht | ht | ⟨⟨pre, post, hpre, hahead⟩, hrest⟩
      · exact .inl ht
      · exact .inr (.inl ht)
      · exact .inr (.inr ⟨⟨pre, post ++ [x], by simp [hpre], hahead⟩, hrest⟩)
  | configure c =>
    obtain rfl := Option.some.inj hs
    exact ⟨he, h.placed, h.progress.mono le_rfl rfl, h.pairs, h.tidy, h.overtaking⟩
  | stop =>
    obtain rfl := Option.some.inj hs
    exact ⟨h.config, h.placed, h.progress.mono le_rfl rfl, h.pairs, h.tidy, h.overtaking⟩

theorem Timed.forward (h : Timed now es) : ∀ e ∈ es, e.Forward := by
  induction es generalizing now with
  | nil => exact List.forall_mem_nil _
  | cons e es ih =>
    cases e with
    | advance clock =>
      obtain ⟨hmono, -, later, -, hrest⟩ := h
      exact List.forall_mem_cons.mpr ⟨hmono, ih hrest⟩
    | arrive x | configure c | stop => exact List.forall_mem_cons.mpr ⟨trivial, ih h⟩

/-- The batches that have been handed on. -/
theorem step_handed (hs : Scheduler.step s e = some s') :
    s'.handed = (returned s e).flatten ++ s.handed := by
  cases e with
  | arrive x =>
    simp only [Scheduler.step] at hs
    split at hs
    · simp at hs
    · obtain rfl := Option.some.inj hs
      rfl
  | configure c | stop =>
    obtain rfl := Option.some.inj hs
    rfl
  | advance clock =>
    simp only [Scheduler.step] at hs
    cases hpc : s.pc with
    | handle batch =>
      simp only [Scheduler.advance, hpc, Option.some.injEq] at hs
      subst hs
      simp [returned, hpc]
    | latencyDrain left items =>
      cases left <;> simp only [Scheduler.advance, hpc, Option.some.injEq] at hs
      · subst hs
        simp [returned, hpc]
      · split at hs <;> subst hs <;> simp [returned, hpc]
    | stopped => simp [Scheduler.advance, hpc] at hs
    | _ =>
      simp only [Scheduler.advance, hpc, popInto, Option.some.injEq] at hs
      (repeat' split at hs) <;> subst hs <;> simp [returned, hpc]

theorem exec_handed (hrun : exec Scheduler.step s es = some s') :
    s'.handed.Perm ((trace Scheduler.step returned s es).flatten ++ s.handed) := by
  have h : s'.handed.Perm (([] ++ trace Scheduler.step returned s es).flatten ++ s.handed) := by
    refine exec_trace (P := fun u (l : List (List Item)) => u.handed.Perm (l.flatten ++ s.handed))
      (C := fun _ _ => True) (fun u e v l _ hp hs => ?_) (meets_of_forall (fun _ _ _ => trivial) s)
      hrun (l := []) (List.Perm.refl _)
    rw [step_handed hs, List.flatten_append, List.append_assoc]
    refine (hp.append_left _).trans ?_
    rw [← List.append_assoc, ← List.append_assoc]
    exact List.perm_append_comm.append_right _
  exact h

/-- What waits or has been taken has come. -/
theorem step_arrivals (hs : Scheduler.step s e = some s') :
    (s'.taken ++ s'.queue).Perm (s.taken ++ s.queue ++ arrivals [e]) := by
  have hpop : ∀ (x : Item) (rest : List Item), s.queue = x :: rest →
      (x :: s.taken ++ rest).Perm (s.taken ++ s.queue ++ []) := by
    intro x rest hq
    rw [hq, List.append_nil]
    exact List.perm_middle.symm
  cases e with
  | arrive x =>
    simp only [Scheduler.step] at hs
    split at hs
    · simp at hs
    · obtain rfl := Option.some.inj hs
      simp [arrivals]
  | configure c | stop =>
    obtain rfl := Option.some.inj hs
    simp [arrivals]
  | advance clock =>
    simp only [Scheduler.step] at hs
    cases hpc : s.pc with
    | latencyDrain left items =>
      cases left <;> simp only [Scheduler.advance, hpc, Option.some.injEq] at hs
      · subst hs
        simp [arrivals]
      · split at hs <;> subst hs
        · rename_i x rest hq
          exact hpop x rest hq
        · simp [arrivals]
    | fifoGet batch | batchingGet d batch =>
      simp only [Scheduler.advance, hpc, popInto, Option.some.injEq] at hs
      split at hs <;> subst hs
      · rename_i x rest hq
        exact hpop x rest hq
      · simp [arrivals]
    | stopped => simp [Scheduler.advance, hpc] at hs
    | _ =>
      simp only [Scheduler.advance, hpc, Option.some.injEq] at hs
      subst hs
      simp [arrivals]

theorem exec_arrivals (hrun : exec Scheduler.step s es = some s') :
    (s'.taken ++ s'.queue).Perm (s.taken ++ s.queue ++ arrivals es) := by
  have h : (s'.taken ++ s'.queue).Perm (s.taken ++ s.queue ++
      ([] ++ trace Scheduler.step (fun _ e => arrivals [e]) s es)) := by
    refine exec_trace (P := fun u l => (u.taken ++ u.queue).Perm (s.taken ++ s.queue ++ l))
      (C := fun _ _ => True) (fun u e v l _ hp hs => ?_) (meets_of_forall (fun _ _ _ => trivial) s)
      hrun (l := []) (by simp)
    rw [← List.append_assoc]
    exact (step_arrivals hs).trans (hp.append_right _)
  rwa [trace_arrivals hrun, List.nil_append] at h

/-- **A run.** -/
theorem Waits.exec (hb : 0 < b) (h : Waits θ now b t ahead bs s) (hinv : Inv s) (hk : s.Kept)
    (htime : Timed now es) (hes : ∀ e ∈ es, e.Serves θ b)
    (hrun : Lib.exec Scheduler.step s es = some s') (hnot : t ∉ s'.handed) :
    ∃ later, Waits θ later b t ahead (bs ++ trace Scheduler.step returned s es) s' := by
  induction es generalizing s now bs with
  | nil =>
    obtain rfl := Option.some.inj hrun
    exact ⟨now, by simpa [trace] using h⟩
  | cons e es ih =>
    obtain ⟨m, hm, hrest⟩ := exec_cons.mp hrun
    obtain ⟨he, hes⟩ := List.forall_mem_cons.mp hes
    have hforward := htime.forward e List.mem_cons_self
    have hgo : ∀ {later : ℤ}, Timed later es → Waits θ later b t ahead (bs ++ returned s e) m →
        ∃ later, Waits θ later b t ahead (bs ++ trace Scheduler.step returned s (e :: es)) s' := by
      intro later htime' hw
      have h' := ih hw (step_inv hinv hm) (hk.step hinv hforward hm) htime' hes hrest
      have htrace : trace Scheduler.step returned s (e :: es) =
          returned s e ++ trace Scheduler.step returned m es := by
        rw [trace, hm, Option.elim_some]
      rwa [htrace, ← List.append_assoc]
    cases e with
    | advance clock =>
      obtain ⟨hmono, hnow, later, hlater, htime'⟩ := htime
      have hread : ∀ i, now ≤ clock i := fun i => le_trans hnow (hmono (Nat.zero_le i))
      rcases h.advance hb hinv hk hmono hread hlater hm with hin | hw
      · exact absurd ((exec_handed hrest).mem_iff.mpr (List.mem_append_right _ hin)) hnot
      · exact hgo htime' hw
    | arrive x | configure c | stop =>
      refine hgo htime ?_
      have hw := h.other he (by simp) hm
      simpa [returned] using hw

/-! ## Counting -/

/-- Neighbours that have `b` tasks together. -/
theorem mul_le_of_pairs {α : Type} {b : ℕ} {bs : List (List α)}
    (h : bs.IsChain fun x y => b ≤ x.length + y.length) : bs.length / 2 * b ≤ bs.flatten.length := by
  induction bs using List.twoStepInduction with
  | nil => simp
  | singleton x => simp
  | cons_cons x y bs ih _ =>
    obtain ⟨hxy, htail⟩ := List.isChain_cons_cons.mp h
    have hrest := ih htail.tail
    have hdiv : (x :: y :: bs).length / 2 = bs.length / 2 + 1 := by
      simp only [List.length_cons]
      omega
    rw [hdiv, Nat.add_mul, Nat.one_mul]
    simp only [List.flatten_cons, List.length_append]
    omega

/-- The same without one of them. -/
theorem mul_le_of_pairs_but_one {α : Type} {b : ℕ} {bs₁ bs₂ : List (List α)} {x : List α}
    (h : (bs₁ ++ x :: bs₂).IsChain fun x y => b ≤ x.length + y.length) :
    ((bs₁ ++ x :: bs₂).length / 2 - 1) * b ≤ (bs₁ ++ bs₂).flatten.length := by
  obtain ⟨h₁, h₂, -⟩ := List.isChain_append.mp h
  have hle₁ := mul_le_of_pairs h₁
  have hle₂ := mul_le_of_pairs h₂.tail
  have hdiv : (bs₁ ++ x :: bs₂).length / 2 - 1 ≤ bs₁.length / 2 + bs₂.length / 2 := by
    simp only [List.length_append, List.length_cons]
    omega
  calc ((bs₁ ++ x :: bs₂).length / 2 - 1) * b
      ≤ (bs₁.length / 2 + bs₂.length / 2) * b := Nat.mul_le_mul_right b hdiv
    _ = bs₁.length / 2 * b + bs₂.length / 2 * b := Nat.add_mul _ _ _
    _ ≤ (bs₁ ++ bs₂).flatten.length := by
      rw [List.flatten_append, List.length_append]
      exact Nat.add_le_add hle₁ hle₂

end Waiting

/-- The tasks that may be handed on before `t`, which waits in `m`: those in the buffer, those in
front of it in the queue, and those that are no younger. -/
def rivals (t : Item) (m : Sys) (es : List Event) : List Item :=
  (m.buffer ++ m.queue ++ arrivals es).filter fun y => y ≠ t ∧
    (y ∈ m.buffer ∨ y ∈ m.queue.takeWhile (· ≠ t) ∨ y.creationTime ≤ t.creationTime)

/-- What a task that waits at the start of an iteration is certain of. -/
theorem waits_of_loop {θ now : ℤ} {b : ℕ} {t : Item} {m : Sys} (hpc : m.pc = .loop)
    (hwait : t ∈ m.queue ++ m.buffer) (hconf : Serves θ b m.config) :
    Waits θ now b t (fun y => y ∈ m.buffer ∨ y ∈ m.queue.takeWhile (· ≠ t)) [] m where
  config := hconf
  placed := by
    rcases List.mem_append.mp hwait with hq | hbuf
    · obtain ⟨pre, post, hsplit, hpre⟩ := List.eq_append_cons_of_mem hq
      refine .inr (.inr ⟨⟨pre, post, hsplit, fun y hy => .inr ?_⟩, fun y hy => .inl hy, ?_⟩)
      · have hne : ∀ z ∈ pre, decide (z ≠ t) = true := fun z hz =>
          decide_eq_true fun h => hpre (h ▸ hz)
        rw [hsplit, List.takeWhile_append_of_pos hne]
        exact List.mem_append_left _ hy
      · rw [hpc]
        exact List.forall_mem_nil _
    · exact .inl hbuf
  progress := by
    rw [hpc]
    rintro ⟨x, hx, -⟩
    simp at hx
  pairs := List.isChain_nil
  tidy := .inl (List.forall_mem_nil _)
  overtaking := by
    rw [hpc]
    exact .inl (List.forall_mem_nil _)

/-- **Bounded waiting.**  Let a task wait at the start of an iteration, in the queue or in the buffer,
and let the latency-aware strategy run from there with one threshold and batches of `b` or more,
whatever arrives and however long the steps take.  As long as the task is not handed on: any two calls
in a row hand on `b` tasks; all of them but those of one call are `rivals`; so the number of calls is
bounded by the number of rivals. -/
theorem bounded_waiting {s₀ m s : Sys} {es₀ es : List Event} {t : Item} {θ now : ℤ} {b : ℕ}
    (h₀ : Init s₀) (hclock : Meets step (fun _ e => e.Forward) s₀ es₀)
    (hm : exec step s₀ es₀ = some m) (hpc : m.pc = .loop) (hwait : t ∈ m.queue ++ m.buffer)
    (hb : 0 < b) (hconf : Serves θ b m.config) (hes : ∀ e ∈ es, e.Serves θ b) (htime : Timed now es)
    (hrun : exec step m es = some s) (hnot : t ∉ s.handed) :
    ((trace step returned m es).IsChain fun x y => b ≤ x.length + y.length) ∧
    (∃ k : ℕ, ∀ (i : ℕ) batch, i ≠ k → (trace step returned m es)[i]? = some batch →
      ∀ y ∈ batch, y ∈ rivals t m es) ∧
    ((trace step returned m es).length / 2 - 1) * b ≤ (rivals t m es).length := by
  have hkept : ∀ {es : List Event} {u v : Sys}, Inv u ∧ u.Kept →
      Meets step (fun _ e => e.Forward) u es → exec step u es = some v → Inv v ∧ v.Kept :=
    fun hu hf hv => exec_inv_meets (P := fun s => Inv s ∧ s.Kept)
      (fun _ _ _ he hi hs => ⟨step_inv hi.1 hs, hi.2.step hi.1 he hs⟩) hf hu hv
  obtain ⟨hinv, hk⟩ := hkept ⟨inv_init h₀, h₀.kept⟩ hclock hm
  obtain ⟨hinv', hk'⟩ := hkept ⟨hinv, hk⟩ (meets_of_forall (fun e he _ => htime.forward e he) m) hrun
  obtain ⟨later, hw⟩ := (waits_of_loop hpc hwait hconf).exec hb hinv hk htime hes hrun hnot
  rw [List.nil_append] at hw
  -- what has been handed on since, once each, was in the buffer or the queue or has arrived
  have hperm := exec_handed hrun
  have hrefs := hinv'.taken_refs
  have hnd : ((trace step returned m es).flatten ++ m.handed).Nodup :=
    hperm.nodup_iff.mp ((hk'.perm.nodup_iff.mp (nodup_of_refs hrefs)).of_append_left)
  have hfrom : ∀ y ∈ (trace step returned m es).flatten, y ∈ m.buffer ++ m.queue ++ arrivals es := by
    intro y hy
    have htaken : y ∈ s.taken :=
      hk'.perm.mem_iff.mpr (List.mem_append_left _ (hperm.mem_iff.mpr (List.mem_append_left _ hy)))
    have hcome := (exec_arrivals hrun).mem_iff.mp (List.mem_append_left _ htaken)
    rcases List.mem_append.mp hcome with hcome | hcome
    · rcases List.mem_append.mp hcome with hold | hq
      · have hplace := hk.perm.mem_iff.mp hold
        rw [hpc] at hplace
        rcases List.mem_append.mp hplace with hh | hbuf
        · exact absurd hh (List.disjoint_of_nodup_append hnd hy)
        · simp only [Pc.inHand, List.append_nil] at hbuf
          exact List.mem_append_left _ (List.mem_append_left _ hbuf)
      · exact List.mem_append_left _ (List.mem_append_right _ hq)
    · exact List.mem_append_right _ hcome
  have hrival : ∀ bs : List (List Item), bs.flatten ⊆ (trace step returned m es).flatten →
      Clean t (fun y => y ∈ m.buffer ∨ y ∈ m.queue.takeWhile (· ≠ t)) bs →
      ∀ batch ∈ bs, ∀ y ∈ batch, y ∈ rivals t m es := by
    intro bs hsub hclean batch hbatch y hy
    have hin := hsub (List.mem_flatten.mpr ⟨batch, hbatch, hy⟩)
    refine List.mem_filter.mpr ⟨hfrom y hin, decide_eq_true ⟨?_, ?_⟩⟩
    · rintro rfl
      exact hnot (hperm.mem_iff.mpr (List.mem_append_left _ hin))
    · exact or_assoc.mp (hclean batch hbatch y hy)
  have hcount : ∀ bs : List (List Item), bs.flatten.Sublist (trace step returned m es).flatten →
      Clean t (fun y => y ∈ m.buffer ∨ y ∈ m.queue.takeWhile (· ≠ t)) bs →
      bs.flatten.length ≤ (rivals t m es).length := by
    intro bs hsub hclean
    refine ((hnd.of_append_left.sublist hsub).subperm fun y hy => ?_).length_le
    obtain ⟨batch, hbatch, hy⟩ := List.mem_flatten.mp hy
    exact hrival bs hsub.subset hclean batch hbatch y hy
  have hpairs := hw.pairs
  refine ⟨hpairs, ?_⟩
  rcases hw.tidy with hclean | ⟨bs₁, x, bs₂, hsplit, hclean⟩
  · refine ⟨⟨0, fun i batch _ hi => ?_⟩, le_trans (Nat.mul_le_mul_right b (Nat.sub_le _ _)) ?_⟩
    · exact hrival _ (List.Subset.refl _) hclean batch (List.mem_of_getElem? hi)
    · exact le_trans (mul_le_of_pairs hpairs) (hcount _ (List.Sublist.refl _) hclean)
  · have hsub : (bs₁ ++ bs₂).flatten.Sublist (trace step returned m es).flatten := by
      rw [hsplit]
      exact ((List.Sublist.refl bs₁).append (List.sublist_cons_self x bs₂)).flatten
    refine ⟨⟨bs₁.length, fun i batch hi hbatch => ?_⟩, ?_⟩
    · refine hrival _ hsub.subset hclean batch ?_
      rw [hsplit] at hbatch
      rcases Nat.lt_or_ge i bs₁.length with hlt | hge
      · rw [List.getElem?_append_left hlt] at hbatch
        exact List.mem_append_left _ (List.mem_of_getElem? hbatch)
      · obtain ⟨j, hj⟩ := Nat.exists_eq_add_of_lt (lt_of_le_of_ne hge (Ne.symm hi))
        rw [List.getElem?_append_right hge, show i - bs₁.length = j + 1 by omega,
          List.getElem?_cons_succ] at hbatch
        exact List.mem_append_right _ (List.mem_of_getElem? hbatch)
    · refine le_trans ?_ (hcount _ hsub hclean)
      rw [hsplit] at hpairs ⊢
      exact mul_le_of_pairs_but_one hpairs

theorem timed_replicate {c : ℤ} (n : ℕ) {es : List Event} (h : Timed c es) :
    Timed c (List.replicate n (.advance fun _ => c) ++ es) := by
  induction n with
  | zero => exact h
  | succ n ih => exact ⟨fun _ _ _ => le_rfl, le_rfl, c, fun _ => le_rfl, ih⟩

/-- A task whose age is about to reach the threshold, and a younger one behind it. -/
def overtakenStart : Sys where
  config := ⟨some .latencyAware, 1, 150⟩
  queue := [⟨1, 0⟩, ⟨2, 100⟩]
  buffer := []
  pc := .loop
  stop := false
  taken := []
  handed := []

/-- The age reaches the threshold between the two readings. -/
def overtakenRun : List Event :=
  List.replicate 7 (.advance fun _ => 149) ++ (.advance tickingClock) ::
    List.replicate 2 (.advance fun _ => 150)

theorem overtakenRun_timed : Timed 149 overtakenRun := by
  have hend : Timed 150 (List.replicate 2 (.advance fun _ => 150) ++ []) := timed_replicate 2 trivial
  refine timed_replicate 7 ⟨tickingClock_mono, le_rfl, 150, fun i => ?_, hend⟩
  unfold tickingClock
  split <;> omega

/-- The younger task is handed on first; no rival is. -/
theorem bounded_waiting_overtaken : ∃ s, exec step overtakenStart overtakenRun = some s ∧
    trace step returned overtakenStart overtakenRun = [[⟨2, 100⟩]] ∧
    rivals ⟨1, 0⟩ overtakenStart overtakenRun = [] ∧
    ((trace step returned overtakenStart overtakenRun).length / 2 - 1) * 1 ≤
      (rivals ⟨1, 0⟩ overtakenStart overtakenRun).length := by
  have hview : (exec step overtakenStart overtakenRun).map (fun s => s.handed) =
      some [⟨2, 100⟩] := by decide +kernel
  obtain ⟨s, hs, hv⟩ := Option.map_eq_some_iff.mp hview
  have hinit : Init overtakenStart := ⟨by decide, rfl, rfl, rfl, rfl⟩
  have hnone : exec step overtakenStart [] = some overtakenStart := rfl
  have hclock : Meets step (fun _ e => e.Forward) overtakenStart [] := trivial
  have hconf : Serves 150 1 overtakenStart.config := ⟨rfl, rfl, le_rfl⟩
  have hwait : (⟨1, 0⟩ : Item) ∈ overtakenStart.queue ++ overtakenStart.buffer := by decide
  have hes : ∀ e ∈ overtakenRun, e.Serves 150 1 := by
    intro e he
    simp only [overtakenRun, List.mem_append, List.mem_replicate, List.mem_cons] at he
    rcases he with ⟨-, rfl⟩ | rfl | ⟨-, rfl⟩ <;> trivial
  refine ⟨s, hs, by decide +kernel, by decide +kernel, ?_⟩
  exact (bounded_waiting hinit hclock hnone rfl hwait Nat.one_pos hconf hes overtakenRun_timed hs
    (by rw [hv]; decide)).2.2

/-! ## The other strategies -/

section Order

variable {s s' : Sys} {e : Event} {es : List Event} {M : ℕ}

/-- What the iteration has in hand is within the batch size. -/
def Pc.Within (M : ℕ) : Pc → Prop
  | .fifoGet batch | .batchingClock _ batch | .batchingGet _ batch => batch.length + 1 ≤ M
  | .fifo batch | .batching _ batch | .handle batch => batch.length ≤ M
  | _ => True

/-- An iteration of another strategy, with batch sizes within `M`. -/
structure Ordered (M : ℕ) (s : Sys) : Prop where
  strategy : s.config.strategy ≠ some .latencyAware
  batchSize : s.config.batchSize ≤ M
  outside : s.pc.inLatency = false
  hand : s.pc.Within M

/-- `/config` keeps to the other strategies and to batch sizes within `M`. -/
def Event.Orders (M : ℕ) : Event → Prop
  | .configure c => c.strategy ≠ some .latencyAware ∧ c.batchSize ≤ M
  | _ => True

/-- The thread moves on with the same tasks in hand. -/
theorem Ordered.goto {old : Pc} (h : Ordered M s) (hpc : s.pc = old) (clock : ℕ → ℤ) (pc : Pc)
    (hnot : ∀ batch, old ≠ .handle batch) (hsame : old.inHand = pc.inHand)
    (hout : pc.inLatency = false) (hhand : pc.Within M) :
    Ordered M { s with pc := pc } ∧ old.inHand ++ s.queue ++ arrivals [.advance clock] =
      (returned s (.advance clock)).flatten ++ (pc.inHand ++ s.queue) ∧
      ∀ batch ∈ returned s (.advance clock), batch.length ≤ M := by
  have hnone : returned s (.advance clock) = [] := by
    cases old with
    | handle batch => exact absurd rfl (hnot batch)
    | _ => simp [returned, hpc]
  refine ⟨⟨h.strategy, h.batchSize, hout, hhand⟩, ?_, by simp [hnone]⟩
  rw [hnone, hsame]
  simp [arrivals]

/-- **One step takes and hands on in order.** -/
theorem Ordered.step (h : Ordered M s) (he : e.Orders M) (hs : Scheduler.step s e = some s') :
    Ordered M s' ∧ s.pc.inHand ++ s.queue ++ arrivals [e] =
      (returned s e).flatten ++ (s'.pc.inHand ++ s'.queue) ∧
      ∀ batch ∈ returned s e, batch.length ≤ M := by
  have hhand := h.hand
  have hsize := h.batchSize
  cases e with
  | arrive x =>
    simp only [Scheduler.step] at hs
    split at hs
    · simp at hs
    · obtain rfl := Option.some.inj hs
      exact ⟨⟨h.strategy, hsize, h.outside, hhand⟩, by simp [arrivals, returned], by simp [returned]⟩
  | configure c =>
    obtain rfl := Option.some.inj hs
    exact ⟨⟨he.1, he.2, h.outside, hhand⟩, by simp [arrivals, returned], by simp [returned]⟩
  | stop =>
    obtain rfl := Option.some.inj hs
    exact ⟨⟨h.strategy, hsize, h.outside, hhand⟩, by simp [arrivals, returned], by simp [returned]⟩
  | advance clock =>
    simp only [Scheduler.step] at hs
    cases hpc : s.pc with
    | latencyCap | latencyRoom _ | latencyDrain _ _ | latencyRank | latencySlice _ =>
      have hout := h.outside
      simp [hpc, Pc.inLatency] at hout
    | stopped => simp [Scheduler.advance, hpc] at hs
    | handle batch =>
      rw [hpc] at hhand
      simp only [Scheduler.advance, hpc, Option.some.injEq] at hs
      subst hs
      refine ⟨⟨h.strategy, hsize, rfl, trivial⟩, by simp [arrivals, returned, hpc, Pc.inHand],
        fun l hl => ?_⟩
      simp only [returned, hpc, List.mem_singleton] at hl
      exact hl ▸ hhand
    | pick =>
      simp only [Scheduler.advance, hpc, Option.some.injEq] at hs
      subst hs
      rcases hst : s.config.strategy with _ | _ | _ | _
      · exact h.goto hpc clock .loop (by simp) rfl rfl trivial
      · exact h.goto hpc clock (.fifo []) (by simp) rfl rfl (Nat.zero_le _)
      · exact h.goto hpc clock .batchingStart (by simp) rfl rfl trivial
      · exact absurd hst h.strategy
    | loop =>
      simp only [Scheduler.advance, hpc, Option.some.injEq] at hs
      subst hs
      split
      · exact h.goto hpc clock .stopped (by simp) rfl rfl trivial
      · exact h.goto hpc clock .pick (by simp) rfl rfl trivial
    | batchingStart =>
      simp only [Scheduler.advance, hpc, Option.some.injEq] at hs
      subst hs
      exact h.goto hpc clock (.batching _ []) (by simp) rfl rfl (Nat.zero_le _)
    | fifo batch =>
      rw [hpc] at hhand
      simp only [Scheduler.advance, hpc, Option.some.injEq] at hs
      subst hs
      split
      · rename_i hlt
        exact h.goto hpc clock (.fifoGet batch) (by simp) rfl rfl (le_trans hlt hsize)
      · exact h.goto hpc clock (.handle batch) (by simp) rfl rfl hhand
    | batching d batch =>
      rw [hpc] at hhand
      simp only [Scheduler.advance, hpc, Option.some.injEq] at hs
      subst hs
      split
      · rename_i hlt
        exact h.goto hpc clock (.batchingClock d batch) (by simp) rfl rfl
          (le_trans hlt hsize)
      · exact h.goto hpc clock (.handle batch) (by simp) rfl rfl hhand
    | batchingClock d batch =>
      rw [hpc] at hhand
      have hless : batch.length ≤ M := le_trans (Nat.le_succ _) hhand
      simp only [Scheduler.advance, hpc, Option.some.injEq] at hs
      subst hs
      split
      · exact h.goto hpc clock (.batchingGet d batch) (by simp) rfl rfl hhand
      · exact h.goto hpc clock (.handle batch) (by simp) rfl rfl hless
    | fifoGet batch =>
      rw [hpc] at hhand
      have hless : batch.length ≤ M := le_trans (Nat.le_succ _) hhand
      simp only [Scheduler.advance, hpc, popInto, Option.some.injEq] at hs
      split at hs <;> subst hs
      · rename_i x rest hq
        refine ⟨⟨h.strategy, hsize, rfl, ?_⟩, by simp [arrivals, returned, hpc, Pc.inHand, hq],
          by simp [returned, hpc]⟩
        simpa [Pc.Within] using hhand
      · exact h.goto hpc clock (.handle batch) (by simp) rfl rfl hless
    | batchingGet d batch =>
      rw [hpc] at hhand
      have hless : batch.length ≤ M := le_trans (Nat.le_succ _) hhand
      simp only [Scheduler.advance, hpc, popInto, Option.some.injEq] at hs
      split at hs <;> subst hs
      · rename_i x rest hq
        refine ⟨⟨h.strategy, hsize, rfl, ?_⟩, by simp [arrivals, returned, hpc, Pc.inHand, hq],
          by simp [returned, hpc]⟩
        simpa [Pc.Within] using hhand
      · exact h.goto hpc clock (.batching d batch) (by simp) rfl rfl hless

theorem arrivals_cons (e : Event) (es : List Event) :
    arrivals (e :: es) = arrivals [e] ++ arrivals es := by
  cases e <;> rfl

/-- **A run.** -/
theorem Ordered.exec (h : Ordered M s) (hes : ∀ e ∈ es, e.Orders M)
    (hrun : Lib.exec Scheduler.step s es = some s') :
    s.pc.inHand ++ s.queue ++ arrivals es =
      (trace Scheduler.step returned s es).flatten ++ (s'.pc.inHand ++ s'.queue) ∧
      ∀ batch ∈ trace Scheduler.step returned s es, batch.length ≤ M := by
  induction es generalizing s with
  | nil =>
    obtain rfl := Option.some.inj hrun
    exact ⟨by simp [arrivals, trace], by simp [trace]⟩
  | cons e es ih =>
    obtain ⟨m, hm, hrest⟩ := exec_cons.mp hrun
    obtain ⟨he, hes⟩ := List.forall_mem_cons.mp hes
    obtain ⟨hord, heq, hlen⟩ := h.step he hm
    obtain ⟨heq', hlen'⟩ := ih hord hes hrest
    rw [trace, hm, Option.elim_some]
    constructor
    · rw [arrivals_cons, ← List.append_assoc, heq, List.append_assoc, heq', List.flatten_append,
        List.append_assoc]
    · intro batch hbatch
      rcases List.mem_append.mp hbatch with hb | hb
      · exact hlen batch hb
      · exact hlen' batch hb

end Order

/-- **First come, first served.**  In every run that never configures the latency-aware strategy, the
batches handed on, then the one in hand, then the queue are the tasks in the order in which they
came, and no batch is larger than the largest batch size configured so far. -/
theorem dispatched_in_order {s₀ s : Sys} {es : List Event} (h₀ : Init s₀)
    (hconf : s₀.config.strategy ≠ some .latencyAware)
    (hes : ∀ c, .configure c ∈ es → c.strategy ≠ some .latencyAware)
    (hrun : exec step s₀ es = some s) :
    s₀.queue ++ arrivals es =
      (trace step returned s₀ es).flatten ++ (s.pc.inHand ++ s.queue) ∧
    ∀ batch ∈ trace step returned s₀ es, batch.length ≤ largest s₀ es := by
  obtain ⟨hle, hall⟩ := le_foldl_largest s₀.config.batchSize es
  obtain ⟨-, -, hpc, -, -⟩ := h₀
  have hord : Ordered (largest s₀ es) s₀ := ⟨hconf, hle, by rw [hpc]; rfl, by simp [hpc, Pc.Within]⟩
  have hes' : ∀ e ∈ es, e.Orders (largest s₀ es) := by
    intro e he
    cases e with
    | configure c => exact ⟨hes c he, hall _ he⟩
    | arrive x => trivial
    | stop => trivial
    | advance clock => trivial
  have h := hord.exec hes' hrun
  have hnil : Pc.loop.inHand = [] := rfl
  rwa [hpc, hnil, List.nil_append] at h

/-- Two tasks under FIFO, one handed on and one in hand. -/
theorem dispatched_in_order_sample :
    ∃ s, exec step { switchStart with config := ⟨some .fifo, 1, 150⟩ }
      (List.replicate 9 (.advance fun _ => 20)) = some s ∧ s.handed = [⟨1, 0⟩] ∧
    [⟨1, 0⟩, ⟨2, 0⟩] = (trace step returned { switchStart with config := ⟨some .fifo, 1, 150⟩ }
      (List.replicate 9 (.advance fun _ => 20))).flatten ++ (s.pc.inHand ++ s.queue) := by
  have hview : (exec step { switchStart with config := ⟨some .fifo, 1, 150⟩ }
      (List.replicate 9 (.advance fun _ => 20))).map (fun s => s.handed) = some [⟨1, 0⟩] := by
    decide +kernel
  obtain ⟨s, hs, hv⟩ := Option.map_eq_some_iff.mp hview
  have hinit : Init { switchStart with config := ⟨some .fifo, 1, 150⟩ } :=
    ⟨by decide, rfl, rfl, rfl, rfl⟩
  have hnone : arrivals (List.replicate 9 (.advance fun _ => 20)) = [] := rfl
  have hes : ∀ c, .configure c ∈ List.replicate 9 (Event.advance fun _ => 20) →
      c.strategy ≠ some .latencyAware := by
    intro c hc
    simp at hc
  have h := (dispatched_in_order hinit (by decide) hes hs).1
  rw [hnone, List.append_nil] at h
  exact ⟨s, hs, hv, h⟩

end Inference.Scheduler
