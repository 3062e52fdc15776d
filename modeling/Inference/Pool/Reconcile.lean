import Inference.Pool.Process

/-!
# Inference.Pool.Reconcile — what one call of `_process` leaves behind

The call runs alone with its proxy; everybody else may call methods of the tasks, stop the proxy and
let time pass, and the retry handler may accept, refuse or raise.  The stub answers `o`.

* `Settles`: every task has ended or was accepted by another proxy, and a task whose first entry in
  the response is successful and decodable is DONE with its value unless others ended it.
* `Reconcilable`: every task of a kind the sweep does not know has an entry, and no undecodable
  entry stands before the first, decodable entry of another task.
* `World.Inv`: what is true of the call at each of its points when the outcome is reconcilable;
  `run_inv` carries it along every run.
* `advances_le`: the call returns after a bounded number of its own statements.
-/

namespace Inference.Pool

open Inference.Lib

/-- The tasks, the proxy's flags, the clocks and the call; `ended` are the tasks the call itself
ended or handed on since the response came. -/
structure World where
  tasks : ℕ → Task
  stop : Bool
  retryOnStop : Bool
  mono : ℤ
  wall : ℤ
  pc : Pc
  accepted : List ℕ
  received : Bool
  ended : List ℕ

def World.view (w : World) : View := ⟨w.tasks, w.stop, w.retryOnStop, w.mono⟩

inductive Event where
  /-- time passes; the wall clock may be set to anything -/
  | tick (d : ℕ) (wall : ℤ)
  /-- somebody calls a method of a task -/
  | task (i : ℕ) (m : Task.Method)
  /-- `begin_stop(retry_pending)` of the proxy -/
  | beginStop (retryPending : Bool)
  /-- the call executes its next statement -/
  | advance (io : Io)
deriving DecidableEq, Repr

/-- The task a method call ends. -/
def ends (tasks : ℕ → Task) : Option (ℕ × Task.Method) → List ℕ
  | some (i, .markDone _) | some (i, .markFailed _ _) => if (tasks i).terminal then [] else [i]
  | _ => []

/-- The stub returns a response. -/
def hears (io : Io) : Pc → Bool
  | .inflight _ => match io.outcome with
    | .response _ => true
    | _ => false
  | _ => false

/-- The call after a statement. -/
def World.after (w : World) (io : Io) (c : Option (ℕ × Task.Method)) (pc : Pc) : World where
  tasks := applyCall w.tasks w.mono w.wall c
  stop := w.stop
  retryOnStop := w.retryOnStop
  mono := w.mono
  wall := w.wall
  pc := pc
  accepted := handed io w.pc ++ w.accepted
  received := hears io w.pc || w.received
  ended := if hears io w.pc then [] else ends w.tasks c ++ (handed io w.pc ++ w.ended)

def World.step (loads : String → Except Exc Json) (w : World) : Event → Option World
  | .tick d wall => some { w with mono := w.mono + d, wall := wall }
  | .task i m => some { w with tasks := applyCall w.tasks w.mono w.wall (some (i, m)) }
  | .beginStop retryPending =>
    some (if w.stop then w else { w with stop := true, retryOnStop := retryPending })
  | .advance io => (next loads w.view io w.pc).map fun p => w.after io p.1 p.2

/-- `_process(batch)` is called. -/
structure Start (tasks : ℕ → Task) (batch : List ℕ) (w : World) : Prop where
  tasks : w.tasks = tasks
  pc : w.pc = .filter batch []
  accepted : w.accepted = []
  received : w.received = false
  ended : w.ended = []

/-- Every answer of the stub is `o`. -/
def Answers (o : Outcome) (es : List Event) : Prop := ∀ io, .advance io ∈ es → io.outcome = o

/-- The first entry for a task ID. -/
def entry (results : List TaskResult) (id : String) : Option TaskResult :=
  results.find? fun r => r.taskId == id

/-- The first entry for the ID is successful and decodes to `value`. -/
def Good (loads : String → Except Exc Json) (results : List TaskResult) (id : String)
    (value : Json) : Prop :=
  ∃ r, entry results id = some r ∧ r.success = true ∧ loads r.resultJson = .ok value

/-- The task is DONE with `value`, or was ended by others. -/
def World.Done (w : World) (i : ℕ) (value : Json) : Prop :=
  ((w.tasks i).status = .done ∧ (w.tasks i).result = value) ∨
    ((w.tasks i).terminal = true ∧ i ∉ w.ended)

/-- What the call should leave behind. -/
def Settles (loads : String → Except Exc Json) (tasks : ℕ → Task) (batch : List ℕ) (o : Outcome)
    (w : World) : Prop :=
  (∀ i ∈ batch, (w.tasks i).terminal = true ∨ i ∈ w.accepted) ∧
  ∀ results, o = .response results → w.received = true → ∀ i ∈ batch, ∀ value,
    Good loads results (tasks i).taskId value → w.Done i value

/-- Every task of another than the durable kinds has an entry, and no undecodable entry for a task
of the batch stands before the first entry of another when that is successful and decodable. -/
def Reconcilable (loads : String → Except Exc Json) (tasks : ℕ → Task) (batch : List ℕ) :
    Outcome → Prop
  | .response results =>
    (∀ i ∈ batch, durable (tasks i) = false → entry results (tasks i).taskId ≠ none) ∧
    ∀ pre r post, results = pre ++ r :: post → ∀ i ∈ batch, r.taskId = (tasks i).taskId →
      entry pre r.taskId = none → r.success = true → (∃ value, loads r.resultJson = .ok value) →
      ∀ b ∈ pre, b.success = true → (∃ k ∈ batch, b.taskId = (tasks k).taskId) →
        ∃ value, loads b.resultJson = .ok value
  | _ => True

theorem entry_append_none {pre : List TaskResult} {id : String} (h : entry pre id = none)
    (rs : List TaskResult) : entry (pre ++ rs) id = entry rs id := by
  simp only [entry, List.find?_append] at h ⊢
  simp [h]

theorem entry_concat_eq_none {pre : List TaskResult} {r : TaskResult} {id : String} :
    entry (pre ++ [r]) id = none ↔ entry pre id = none ∧ r.taskId ≠ id := by
  simp [entry, List.find?_append]

/-! ## The invariant -/

section Inv

variable (loads : String → Except Exc Json) (tasks : ℕ → Task) (batch : List ℕ) (o : Outcome)

/-- Every task with a good entry is done. -/
def World.AllDone (w : World) : Prop :=
  ∀ results, o = .response results → w.received = true → ∀ i ∈ batch, ∀ value,
    Good loads results (tasks i).taskId value → w.Done i value

/-- What is true of the call at each point. -/
def World.Phase (w : World) : Pc → Prop
  | .reconcile rs held => ∃ pre, o = .response (pre ++ rs) ∧
      (∀ i ∈ held, entry pre (tasks i).taskId ≠ none → (w.tasks i).terminal = true) ∧
      ∀ i ∈ batch, ∀ value, Good loads (pre ++ rs) (tasks i).taskId value →
        (i ∈ held ∧ entry pre (tasks i).taskId = none ∧ i ∉ w.ended) ∨ w.Done i value
  | .sweep rest => (∀ i ∈ rest, (w.tasks i).terminal = true ∨ durable (tasks i) = true) ∧
      w.AllDone loads tasks batch o
  | .finish _ _ _ | .finishStatus _ _ _ _ _ | .returned => w.AllDone loads tasks batch o
  | .finishExpired i _ _ _ _ | .handler i _ _ _ | .finishFail i _ _ _ _ _ =>
      w.AllDone loads tasks batch o ∧ (w.received = true → ∀ results, o = .response results →
        ∀ value, ¬ Good loads results (tasks i).taskId value)
  | .rpcError _ _ _ | .rpcRetiring _ _ _ _ | .expireAll _ => w.received = false
  | _ => w.received = false ∧ w.accepted = []

structure World.Inv (w : World) : Prop where
  evolves : ∀ i, Task.Evolves (tasks i) (w.tasks i)
  held : w.pc.held.Sublist batch
  custody : ∀ i ∈ batch, i ∈ w.pc.held ∨ (w.tasks i).terminal = true ∨ i ∈ w.accepted
  phase : w.Phase loads tasks batch o w.pc

end Inv

section Steps

variable {loads : String → Except Exc Json} {tasks : ℕ → Task} {batch : List ℕ} {o : Outcome}
  {w w' : World}

theorem inv_start (h : Start tasks batch w) : w.Inv loads tasks batch o := by
  refine ⟨fun i => by rw [h.tasks]; exact .refl _, by rw [h.pc]; exact .refl _, fun i hi => .inl ?_, ?_⟩
  · rw [h.pc]
    exact hi
  · rw [h.pc]
    exact ⟨h.received, h.accepted⟩

theorem Good.unique {results : List TaskResult} {id : String} {value value' : Json}
    (h : Good loads results id value) (h' : Good loads results id value') : value = value' := by
  obtain ⟨r, hr, -, hl⟩ := h
  obtain ⟨r', hr', -, hl'⟩ := h'
  obtain rfl := Option.some.inj (hr.symm.trans hr')
  exact Except.ok.inj (hl.symm.trans hl')

/-- A task that is done stays so, unless it is counted as ended later. -/
theorem World.Done.mono {i : ℕ} {value : Json} (h : w.Done i value)
    (hev : Task.Evolves (w.tasks i) (w'.tasks i))
    (hend : (w.tasks i).terminal = true → i ∉ w.ended → i ∉ w'.ended) : w'.Done i value := by
  rcases h with ⟨hs, hr⟩ | ⟨ht, hn⟩
  · have hterm : (w.tasks i).terminal = true := by rw [Task.terminal, hs]; rfl
    rw [← hev.final hterm] at hs hr
    exact .inl ⟨hs, hr⟩
  · exact .inr ⟨hev.terminal ht, hend ht hn⟩

theorem World.Done.terminal {i : ℕ} {value : Json} (h : w.Done i value) :
    (w.tasks i).terminal = true := by
  rcases h with ⟨hs, -⟩ | ⟨ht, -⟩
  · rw [Task.terminal, hs]; rfl
  · exact ht

theorem World.AllDone.mono (h : w.AllDone loads tasks batch o)
    (hev : ∀ i, Task.Evolves (w.tasks i) (w'.tasks i)) (hrec : w'.received = w.received)
    (hend : ∀ i, (w.tasks i).terminal = true → i ∉ w.ended → i ∉ w'.ended) :
    w'.AllDone loads tasks batch o :=
  fun results ho hr i hi value hg =>
    (h results ho (hrec ▸ hr) i hi value hg).mono (hev i) (hend i)

/-- What others do to the tasks and the proxy breaks nothing. -/
theorem World.Phase.stable {pc : Pc} (h : w.Phase loads tasks batch o pc)
    (hev : ∀ i, Task.Evolves (w.tasks i) (w'.tasks i)) (ha : w'.accepted = w.accepted)
    (hr : w'.received = w.received) (he : w'.ended = w.ended) :
    w'.Phase loads tasks batch o pc := by
  have hend : ∀ i, (w.tasks i).terminal = true → i ∉ w.ended → i ∉ w'.ended := by
    intro i _ hn
    rwa [he]
  cases pc with
  | reconcile rs held =>
    obtain ⟨pre, ho, hterm, hgood⟩ := h
    refine ⟨pre, ho, fun i hi hn => (hev i).terminal (hterm i hi hn), fun i hi value hg => ?_⟩
    exact (hgood i hi value hg).imp (fun h => ⟨h.1, h.2.1, he ▸ h.2.2⟩) fun h => h.mono (hev i) (hend i)
  | sweep rest =>
    exact ⟨fun i hi => (h.1 i hi).imp (fun ht => (hev i).terminal ht) id, h.2.mono hev hr hend⟩
  | finish _ _ _ => exact World.AllDone.mono h hev hr hend
  | finishStatus _ _ _ _ _ => exact World.AllDone.mono h hev hr hend
  | returned => exact World.AllDone.mono h hev hr hend
  | finishExpired _ _ _ _ _ => exact ⟨h.1.mono hev hr hend, by rw [hr]; exact h.2⟩
  | handler _ _ _ _ => exact ⟨h.1.mono hev hr hend, by rw [hr]; exact h.2⟩
  | finishFail _ _ _ _ _ _ => exact ⟨h.1.mono hev hr hend, by rw [hr]; exact h.2⟩
  | rpcError _ _ _ => exact hr.trans h
  | rpcRetiring _ _ _ _ => exact hr.trans h
  | expireAll _ => exact hr.trans h
  | _ => exact ⟨hr.trans h.1, ha.trans h.2⟩

/-- A method call ends only open tasks. -/
theorem not_mem_ends {ts : ℕ → Task} {i : ℕ} (h : (ts i).terminal = true)
    (c : Option (ℕ × Task.Method)) : i ∉ ends ts c := by
  unfold ends
  split
  · split
    · simp
    · rename_i ht
      rintro hm
      obtain rfl := List.mem_singleton.mp hm
      exact ht h
  · split
    · simp
    · rename_i ht
      rintro hm
      obtain rfl := List.mem_singleton.mp hm
      exact ht h
  · simp

theorem World.after_evolves (w : World) (io : Io) (c : Option (ℕ × Task.Method)) (pc : Pc) (i : ℕ) :
    Task.Evolves (w.tasks i) ((w.after io c pc).tasks i) :=
  applyCall_evolves w.tasks w.mono w.wall c i

/-- A statement that is neither the stub's answer nor the handler's leaves all done as it is. -/
theorem World.AllDone.after {io : Io} {c : Option (ℕ × Task.Method)} {pc : Pc}
    (h : w.AllDone loads tasks batch o) (hq : hears io w.pc = false) (hh : handed io w.pc = []) :
    (w.after io c pc).AllDone loads tasks batch o := by
  refine h.mono (w.after_evolves io c pc) (by simp [World.after, hq]) fun i ht hn => ?_
  simp [World.after, hq, hh, not_mem_ends ht, hn]

/-- Two tasks of the batch with one ID are one task. -/
theorem eq_of_taskId (hids : (batch.map fun i => (tasks i).taskId).Nodup) {i k : ℕ} (hi : i ∈ batch)
    (hk : k ∈ batch) (h : (tasks i).taskId = (tasks k).taskId) : i = k :=
  List.inj_on_of_nodup_map hids hi hk h

/-- An entry that names a task of the batch: every task now has its entry seen or still to come. -/
theorem phase_entry (hids : (batch.map fun i => (tasks i).taskId).Nodup)
    (h : w.Inv loads tasks batch o) {io : Io} {r : TaskResult} {rs : List TaskResult}
    {held : List ℕ} (hpc : w.pc = .reconcile (r :: rs) held) {k : ℕ}
    (hk : taskMap w.tasks held r.taskId = some k) {m : Task.Method}
    (hm : (∃ value, r.success = true ∧ loads r.resultJson = .ok value ∧ m = .markDone value) ∨
      (r.success = false ∧ ∃ e code, m = .markFailed e code)) :
    (w.after io (some (k, m)) (.reconcile rs held)).Phase loads tasks batch o
      (.reconcile rs held) := by
  have hph := h.phase
  have hsub := h.held
  rw [hpc] at hph hsub
  obtain ⟨pre, ho, hterm, hgood⟩ := hph
  obtain ⟨hkm, hkid⟩ := taskMap_some hk
  rw [(h.evolves k).taskId] at hkid
  have hkb : k ∈ batch := hsub.subset hkm
  have hother : ∀ i ∈ batch, i ≠ k → r.taskId ≠ (tasks i).taskId := by
    intro i hi hne heq
    exact hne (eq_of_taskId hids hi hkb (heq.symm.trans hkid.symm))
  have hev := w.after_evolves io (some (k, m)) (.reconcile rs held)
  have hkterm : ((w.after io (some (k, m)) (.reconcile rs held)).tasks k).terminal = true := by
    simp only [World.after, applyCall, Function.update_self]
    rcases hm with ⟨value, -, -, rfl⟩ | ⟨-, e, code, rfl⟩
    · exact call_markDone_terminal _ _ _ _
    · exact call_markFailed_terminal _ _ _ _ _
  have hended : (w.after io (some (k, m)) (.reconcile rs held)).ended =
      ends w.tasks (some (k, m)) ++ w.ended := by
    simp [World.after, hpc, hears, handed]
  have hend : ∀ i, (w.tasks i).terminal = true → i ∉ w.ended →
      i ∉ (w.after io (some (k, m)) (.reconcile rs held)).ended := by
    intro i ht hn
    rw [hended]
    simp [not_mem_ends ht, hn]
  refine ⟨pre ++ [r], by simpa using ho, fun i hi hn => ?_, fun i hi value hg => ?_⟩
  · by_cases hik : i = k
    · rwa [hik]
    · refine (hev i).terminal (hterm i hi fun hnone => hn ?_)
      exact entry_concat_eq_none.mpr ⟨hnone, hother i (hsub.subset hi) hik⟩
  · rw [List.append_assoc, List.singleton_append] at hg
    rcases hgood i hi value hg with ⟨hih, hnone, hn⟩ | hdone
    · by_cases hik : i = k
      · -- this is the first entry of the task
        subst hik
        right
        obtain ⟨g, hge, hgs, hgl⟩ := hg
        rw [entry_append_none hnone, entry, List.find?_cons_of_pos (by simp [hkid])] at hge
        obtain rfl := Option.some.inj hge
        obtain ⟨value', -, hl, rfl⟩ := hm.resolve_right fun hf => by simp [hf.1] at hgs
        obtain rfl : value' = value := Except.ok.inj (hl.symm.trans hgl)
        by_cases ht : (w.tasks i).terminal = true
        · exact .inr ⟨hkterm, hend i ht hn⟩
        · left
          simp only [World.after, applyCall, Function.update_self]
          have := Task.markDone_of_open (t := w.tasks i) (by simpa using ht) w.wall value'
          rw [Task.markDone] at this
          change ((w.tasks i).call (.markDone value') 0 w.wall).status = .done ∧
            ((w.tasks i).call (.markDone value') 0 w.wall).result = value'
          rw [this]
          exact ⟨rfl, rfl⟩
      · left
        refine ⟨hih, entry_concat_eq_none.mpr ⟨hnone, hother i hi hik⟩, ?_⟩
        rw [hended]
        have hnot : i ∉ ends w.tasks (some (k, m)) := by
          rcases hm with ⟨value', -, -, rfl⟩ | ⟨-, e, code, rfl⟩ <;> simp only [ends] <;> split <;>
            simp [hik]
        simp [hnot, hn]
    · exact .inr (hdone.mono (hev i) (hend i))

/-- A good entry that has not been reached when an undecodable one strikes stands behind it. -/
theorem undecodable_after (hR : Reconcilable loads tasks batch o) {pre rs : List TaskResult}
    {r : TaskResult} (ho : o = .response (pre ++ r :: rs)) {k : ℕ} (hk : k ∈ batch)
    (hkid : (tasks k).taskId = r.taskId) (hs : r.success = true) {e : Exc}
    (hl : loads r.resultJson = .error e) {i : ℕ} (hi : i ∈ batch) {value : Json}
    (hg : Good loads (pre ++ r :: rs) (tasks i).taskId value) :
    entry pre (tasks i).taskId ≠ none := by
  intro hnone
  subst ho
  obtain ⟨g, hge, hgs, hgl⟩ := hg
  rw [entry_append_none hnone] at hge
  by_cases hid : r.taskId = (tasks i).taskId
  · rw [entry, List.find?_cons_of_pos (by simp [hid])] at hge
    obtain rfl := Option.some.inj hge
    simp [hl] at hgl
  · rw [entry, List.find?_cons_of_neg (by simp [hid])] at hge
    obtain ⟨hgid, p, q, rfl, hp⟩ := List.find?_eq_some_iff_append.mp hge
    have hgid' : g.taskId = (tasks i).taskId := by simpa using hgid
    have hpre : entry (pre ++ r :: p) g.taskId = none := by
      rw [hgid', entry_append_none hnone, entry, List.find?_cons_of_neg (by simp [hid])]
      exact List.find?_eq_none.mpr fun x hx => by simpa using hp x hx
    obtain ⟨value', hl'⟩ := hR.2 (pre ++ r :: p) g q (by simp) i hi hgid' hpre hgs ⟨value, hgl⟩ r
      (by simp) hs ⟨k, hk, hkid.symm⟩
    simp [hl] at hl'

/-- **The call's step.** -/
theorem phase_moves (hR : Reconcilable loads tasks batch o)
    (hids : (batch.map fun i => (tasks i).taskId).Nodup) (h : w.Inv loads tasks batch o) {io : Io}
    (ho : io.outcome = o) {c : Option (ℕ × Task.Method)} {pc : Pc}
    (hm : Moves loads w.view io w.pc c pc) : (w.after io c pc).Phase loads tasks batch o pc := by
  have hph := h.phase
  have hsub := h.held
  have hdone : w.AllDone loads tasks batch o → hears io w.pc = false → handed io w.pc = [] →
      (w.after io c pc).AllDone loads tasks batch o := fun hd hq hh => hd.after hq hh
  have hquiet : w.received = false → hears io w.pc = false →
      (w.after io c pc).AllDone loads tasks batch o := by
    intro hr hq results _ hrec
    simp [World.after, hq, hr] at hrec
  generalize hpc : w.pc = pc₀ at hm
  rw [hpc] at hph hsub hdone hquiet
  cases hm with
  | filterNil | filterEnded | filterOpen | filterLate | filterLive | checkLive | markNil | mark
  | buildNil | build | timeoutLive | call =>
    exact ⟨by simp [World.after, hpc, hears, hph.1], by simp [World.after, hpc, handed, hph.2]⟩
  | checkEmpty | checkStopped => exact hquiet hph.1 rfl
  | timeoutLate => simp [World.Phase, World.after, hpc, hears, hph.1]
  | expireNil => exact hquiet hph rfl
  | expire => simpa [World.Phase, World.after, hpc, hears] using hph
  | response held hr =>
    rename_i results
    refine ⟨[], ho.symm.trans hr, by simp [entry], fun i hi value _ => ?_⟩
    have hended : (w.after io none (.reconcile results held)).ended = [] := by
      simp [World.after, hpc, hears, hr]
    rcases h.custody i hi with hih | ht | hacc
    · rw [hpc] at hih
      exact .inl ⟨hih, rfl, by rw [hended]; simp⟩
    · exact .inr (.inr ⟨(w.after_evolves io none _ i).terminal ht, by rw [hended]; simp⟩)
    · simp [hph.2] at hacc
  | rpcError held hr => simp [World.Phase, World.after, hpc, hears, hr, hph.1]
  | raised held hr => exact hquiet hph.1 (by simp [hears, hr])
  | reconcileNil held =>
    obtain ⟨pre, hres, hterm, hgood⟩ := hph
    rw [List.append_nil] at hres
    rw [hres] at hR
    refine ⟨fun i hi => ?_, fun results hr _ i hi value hg => ?_⟩
    · cases hd : durable (tasks i) with
      | true => exact .inr rfl
      | false =>
        have := hterm i hi (hR.1 i (hsub.subset hi) hd)
        exact .inl ((w.after_evolves io none _ i).terminal this)
    · obtain rfl : pre = results := by simpa [hres] using hr
      have hdone' := (hgood i hi value (by simpa using hg)).resolve_left fun hl => by
        obtain ⟨g, hge, -⟩ := hg
        simp [hl.2.1] at hge
      refine hdone'.mono (w.after_evolves io none _ i) fun _ hn => ?_
      simpa [World.after, hpc, hears, handed, ends] using hn
  | unknown rs hnone =>
    rename_i r held
    obtain ⟨pre, hres, hterm, hgood⟩ := hph
    have hne : ∀ i ∈ held, r.taskId ≠ (tasks i).taskId := by
      intro i hi heq
      refine taskMap_none hnone i hi ?_
      exact (h.evolves i).taskId.trans heq.symm
    refine ⟨pre ++ [r], by simpa using hres, fun i hi hn => hterm i hi fun hnone' => hn ?_, ?_⟩
    · exact entry_concat_eq_none.mpr ⟨hnone', hne i hi⟩
    · intro i hi value hg
      refine (hgood i hi value (by simpa using hg)).imp (fun hl => ?_) fun hd => ?_
      · refine ⟨hl.1, entry_concat_eq_none.mpr ⟨hl.2.1, hne i hl.1⟩, ?_⟩
        simpa [World.after, hpc, hears, handed, ends] using hl.2.2
      · refine hd.mono (w.after_evolves io none _ i) fun _ hn => ?_
        simpa [World.after, hpc, hears, handed, ends] using hn
  | decoded rs hk hs hl => exact phase_entry hids h hpc hk (.inl ⟨_, hs, hl, rfl⟩)
  | unsuccessful rs hk hs => exact phase_entry hids h hpc hk (.inr ⟨hs, _, _, rfl⟩)
  | undecodable rs hk hs hl =>
    rename_i r held k e
    obtain ⟨pre, hres, hterm, hgood⟩ := hph
    obtain ⟨hkm, hkid⟩ := taskMap_some hk
    have hkid' : (tasks k).taskId = r.taskId := (h.evolves k).taskId.symm.trans hkid
    intro results hr _ i hi value hg
    obtain rfl : pre ++ r :: rs = results := by simpa [hres] using hr
    have hd := (hgood i hi value hg).resolve_left fun hl' =>
      undecodable_after hR hres (hsub.subset hkm) hkid' hs hl hi hg hl'.2.1
    refine hd.mono (w.after_evolves io none _ i) fun _ hn => ?_
    simpa [World.after, hpc, hears, handed, ends] using hn
  | sweepNil => exact hdone hph.2 rfl rfl
  | omitted rest hd ht =>
    refine ⟨fun i hi => (hph.1 i (List.mem_cons_of_mem _ hi)).imp ?_ id, hdone hph.2 rfl rfl⟩
    exact fun ht => (w.after_evolves io _ _ i).terminal ht
  | sweepSkip rest hskip =>
    exact ⟨fun i hi => hph.1 i (List.mem_cons_of_mem _ hi), hdone hph.2 rfl rfl⟩
  | rpcDeadline => simpa [World.Phase, World.after, hpc, hears] using hph
  | rpcRetiring => simpa [World.Phase, World.after, hpc, hears] using hph
  | rpcAllowed => exact hquiet hph rfl
  | finishNil => exact hdone hph rfl rfl
  | finish => exact hdone hph rfl rfl
  | finishEnded => exact hdone hph rfl rfl
  | finishOpen allowed rest text allow ht =>
    rename_i i
    refine ⟨hdone hph rfl rfl, fun hrec results hr value hg => ?_⟩
    have hrec' : w.received = true := by simpa [World.after, hpc, hears] using hrec
    have hib : i ∈ batch := hsub.subset List.mem_cons_self
    have := (hph results hr hrec' i hib value hg).terminal
    change (w.tasks i).terminal = false at ht
    simp [this] at ht
  | late | kept | retry | noRetry =>
    refine ⟨hdone hph.1 rfl rfl, fun hrec => hph.2 ?_⟩
    simpa [World.after, hpc, hears] using hrec
  | refused i rest text allow ha =>
    refine ⟨hdone hph.1 rfl (by simp [handed, ha]), fun hrec => hph.2 ?_⟩
    simpa [World.after, hpc, hears] using hrec
  | accepted i rest text allow ha =>
    intro results hr hrec k hk value hg
    have hrec' : w.received = true := by simpa [World.after, hpc, hears] using hrec
    have hne : k ≠ i := by
      rintro rfl
      exact hph.2 hrec' results hr value hg
    refine (hph.1 results hr hrec' k hk value hg).mono (w.after_evolves io none _ k) fun _ hn => ?_
    simp [World.after, hpc, hears, handed, ha, ends, hn, hne]
  | fail => exact hdone hph.1 rfl rfl

theorem step_inv (hR : Reconcilable loads tasks batch o)
    (hids : (batch.map fun i => (tasks i).taskId).Nodup) {ev : Event}
    (hans : ∀ io, ev = .advance io → io.outcome = o) (h : w.Inv loads tasks batch o)
    (hs : w.step loads ev = some w') : w'.Inv loads tasks batch o := by
  cases ev with
  | tick d wall =>
    obtain rfl := Option.some.inj hs
    exact ⟨h.evolves, h.held, h.custody, h.phase.stable (fun i => .refl _) rfl rfl rfl⟩
  | beginStop retryPending =>
    obtain rfl := Option.some.inj hs
    split
    · exact h
    · exact ⟨h.evolves, h.held, h.custody, h.phase.stable (fun i => .refl _) rfl rfl rfl⟩
  | task i m =>
    obtain rfl := Option.some.inj hs
    have hev : ∀ k, Task.Evolves (w.tasks k) (applyCall w.tasks w.mono w.wall (some (i, m)) k) :=
      fun k => applyCall_evolves _ _ _ _ k
    refine ⟨fun k => (h.evolves k).trans (hev k), h.held, fun k hk => ?_,
      h.phase.stable hev rfl rfl rfl⟩
    exact (h.custody k hk).imp id (.imp (fun ht => (hev k).terminal ht) id)
  | advance io =>
    simp only [World.step] at hs
    obtain ⟨⟨c, pc⟩, hn, rfl⟩ := Option.map_eq_some_iff.mp hs
    have hm := next_moves hn
    have hev := w.after_evolves io c pc
    refine ⟨fun k => (h.evolves k).trans (hev k), hm.held.trans h.held, fun k hk => ?_,
      phase_moves hR hids h (hans io rfl) hm⟩
    rcases h.custody k hk with hheld | ht | hacc
    · rcases hm.settles w.wall hheld with hheld' | ht | hh | ⟨rest, hpc, hd⟩
      · exact .inl hheld'
      · exact .inr (.inl ht)
      · exact .inr (.inr (List.mem_append_left _ hh))
      · -- the sweep passes over a task without an entry: there is none
        have hph := h.phase
        rw [hpc] at hph
        have hd' : durable (tasks k) = false := by
          rw [durable, ← (h.evolves k).inputData]
          exact hd
        have ht := (hph.1 k List.mem_cons_self).resolve_right (by simp [hd'])
        exact .inr (.inl ((hev k).terminal ht))
    · exact .inr (.inl ((hev k).terminal ht))
    · exact .inr (.inr (List.mem_append_right _ hacc))

theorem run_inv (hR : Reconcilable loads tasks batch o)
    (hids : (batch.map fun i => (tasks i).taskId).Nodup) (h₀ : Start tasks batch w)
    {es : List Event} (hans : Answers o es) (h : exec (World.step loads) w es = some w') :
    w'.Inv loads tasks batch o := by
  have hmeets : Meets (World.step loads) (fun _ ev => ∀ io, ev = .advance io → io.outcome = o) w es := by
    refine meets_of_forall (fun ev hev _ io hio => ?_) w
    subst hio
    exact hans io hev
  exact exec_inv_meets (fun _ _ _ hans hi hs => step_inv hR hids hans hi hs) hmeets (inv_start h₀) h

/-- In a call that has returned nothing is held, so the invariant is what it should leave. -/
theorem World.Inv.settles (h : w.Inv loads tasks batch o) (hpc : w.pc = .returned) :
    Settles loads tasks batch o w := by
  have hph := h.phase
  rw [hpc] at hph
  refine ⟨fun i hi => ?_, hph⟩
  have := h.custody i hi
  rw [hpc] at this
  exact this.resolve_left (by simp [Pc.held])

/-! ## Return -/

def Event.isAdvance : Event → Bool
  | .advance _ => true
  | _ => false

/-- The number of entries of the response. -/
def Outcome.size : Outcome → ℕ
  | .response results => results.length
  | _ => 0

theorem step_measure {ev : Event} (hans : ∀ io, ev = .advance io → io.outcome = o)
    (hs : w.step loads ev = some w') :
    w'.pc.measure o.size + (if ev.isAdvance then 1 else 0) ≤ w.pc.measure o.size := by
  cases ev with
  | tick d wall =>
    obtain rfl := Option.some.inj hs
    exact le_rfl
  | beginStop retryPending =>
    obtain rfl := Option.some.inj hs
    split <;> exact le_rfl
  | task i m =>
    obtain rfl := Option.some.inj hs
    exact le_rfl
  | advance io =>
    simp only [World.step] at hs
    obtain ⟨⟨c, pc⟩, hn, rfl⟩ := Option.map_eq_some_iff.mp hs
    have hlt := (next_moves hn).measure (n := o.size) fun results hr => by
      rw [hans io rfl] at hr
      simp [hr, Outcome.size]
    simp only [World.after, Event.isAdvance, if_true]
    omega

/-- The call executes no more statements than its measure allows. -/
theorem advances_le {es : List Event} (hans : Answers o es)
    (h : exec (World.step loads) w es = some w') :
    w'.pc.measure o.size + es.countP Event.isAdvance ≤ w.pc.measure o.size := by
  induction es generalizing w with
  | nil =>
    obtain rfl := Option.some.inj h
    simp
  | cons ev es ih =>
    obtain ⟨m, hm, hrest⟩ := exec_cons.mp h
    have h1 := step_measure (o := o) (fun io hio => hans io (hio ▸ List.mem_cons_self)) hm
    have h2 := ih (fun io hio => hans io (List.mem_cons_of_mem _ hio)) hrest
    rw [List.countP_cons]
    omega

end Steps

end Inference.Pool
