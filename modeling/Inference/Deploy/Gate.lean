import Mathlib.Tactic

/-!
# Inference.Deploy.Gate — admission of one process, `system/deployment.py`

A `DeploymentGate` with the handlers that go through it, generic in what a handler works on.
`enter` is two steps under the gate's lock, the read of the marker and the count, so that the
marker can appear between them; `leave` and `snapshot` need the lock too.

* `Wf`: the counter is the number of running handlers, and a handler between its two steps holds
  the lock.
* `Wf.quiet_of_snapshot`: a snapshot that shows no active handler means that none is running and
  none is on its way in.
* `Quiet.enterRead`: while the marker is there, a quiet gate stays quiet.
-/

namespace Inference.Deploy

/-- What is at the marker's path: nothing, a file with this stripped text, or one that cannot be
read. -/
inductive Marker where
  | absent
  | holds (text : String)
  | unreadable
deriving DecidableEq, Repr

/-- `marker_state()`. -/
def Marker.state : Marker → Bool × Option String
  | .absent => (false, none)
  | .holds text => (true, some text)
  | .unreadable => (true, none)

/-- Where a handler is with respect to the gate. -/
inductive Phase where
  /-- before `enter` -/
  | waiting
  /-- inside `enter`, the marker seen absent -/
  | checked
  | running
  | left
  /-- `enter` returned `False` -/
  | refused
deriving DecidableEq, Repr

structure Handler (β : Type) where
  phase : Phase
  body : β
deriving DecidableEq, Repr

/-- The gate, the holder of its lock, and the handlers of the process. -/
structure Gate (β : Type) where
  active : ℤ := 0
  lock : Option ℕ := none
  handlers : List (Handler β) := []
deriving DecidableEq, Repr

/-- What `snapshot` returns, less the protocol number. -/
structure Snapshot where
  draining : Bool
  drainId : Option String
  active : ℤ
deriving DecidableEq, Repr

namespace Gate

variable {β : Type}

def arrive (g : Gate β) (b : β) : Gate β := { g with handlers := g.handlers ++ [⟨.waiting, b⟩] }

/-- The first step of `enter`: take the lock and look at the marker. -/
def enterRead (g : Gate β) (m : Marker) (i : ℕ) : Option (Gate β) :=
  match g.lock, g.handlers[i]? with
  | none, some ⟨.waiting, b⟩ => some (
      if m.state.1 then { g with handlers := g.handlers.set i ⟨.refused, b⟩ }
      else { g with lock := some i, handlers := g.handlers.set i ⟨.checked, b⟩ })
  | _, _ => none

/-- The second step of `enter`: count the handler and release the lock. -/
def enterCount (g : Gate β) (i : ℕ) : Option (Gate β) :=
  match g.handlers[i]? with
  | some ⟨.checked, b⟩ => some { active := g.active + 1, lock := none,
                                 handlers := g.handlers.set i ⟨.running, b⟩ }
  | _ => none

def leave (g : Gate β) (i : ℕ) : Option (Gate β) :=
  match g.lock, g.handlers[i]? with
  | none, some ⟨.running, b⟩ => some { g with active := g.active - 1,
                                              handlers := g.handlers.set i ⟨.left, b⟩ }
  | _, _ => none

/-- A running handler goes on with its own work. -/
def work (g : Gate β) (i : ℕ) (b : β) : Gate β :=
  { g with handlers := g.handlers.set i ⟨.running, b⟩ }

def snapshot (g : Gate β) (m : Marker) : Option Snapshot :=
  if g.lock = none then some ⟨m.state.1, m.state.2, g.active⟩ else none

def isRunning (h : Handler β) : Bool := h.phase == .running

structure Wf (g : Gate β) : Prop where
  active : g.active = g.handlers.countP isRunning
  lock : ∀ (i : ℕ) (h : Handler β), g.handlers[i]? = some h → h.phase = .checked → g.lock = some i

/-- No handler is running and none is on its way in. -/
def Quiet (g : Gate β) : Prop := ∀ h ∈ g.handlers, h.phase ≠ .checked ∧ h.phase ≠ .running

theorem wf_empty : (({} : Gate β)).Wf := ⟨rfl, fun i h hi => by simp at hi⟩

theorem quiet_empty : (({} : Gate β)).Quiet := nofun

theorem Wf.arrive {g : Gate β} (h : g.Wf) (b : β) : (g.arrive b).Wf := by
  refine ⟨?_, fun i x hx hc => ?_⟩
  · simp [Gate.arrive, h.active, isRunning]
  · simp only [Gate.arrive, List.getElem?_append] at hx
    split at hx
    · exact h.lock i x hx hc
    · have := List.mem_of_getElem? hx
      simp only [List.mem_singleton] at this
      simp [this] at hc

/-- What is found after one handler was replaced. -/
theorem set_cases {l : List (Handler β)} {i j : ℕ} {x y : Handler β}
    (h : (l.set i x)[j]? = some y) : (i = j ∧ y = x) ∨ (i ≠ j ∧ l[j]? = some y) := by
  by_cases hij : i = j
  · subst hij
    rw [List.getElem?_set_self'] at h
    obtain ⟨z, -, rfl⟩ := Option.map_eq_some_iff.mp h
    exact .inl ⟨rfl, rfl⟩
  · rw [List.getElem?_set_ne hij] at h
    exact .inr ⟨hij, h⟩

/-- Replacing one handler keeps the lock condition for the others. -/
theorem Wf.lock_set {g : Gate β} (h : g.Wf) {i : ℕ} {x : Handler β} {lock : Option ℕ}
    (hx : x.phase = .checked → lock = some i) (hl : g.lock ≠ none → g.lock ≠ some i → lock = g.lock) :
    ∀ (j : ℕ) (y : Handler β), (g.handlers.set i x)[j]? = some y → y.phase = .checked →
      lock = some j := by
  intro j y hy hc
  rcases set_cases hy with ⟨rfl, rfl⟩ | ⟨hij, hy⟩
  · exact hx hc
  · have hlock := h.lock j y hy hc
    rw [hl (by simp [hlock]) (by rw [hlock]; simpa using Ne.symm hij), hlock]

theorem Wf.enterRead {g g' : Gate β} (h : g.Wf) {m : Marker} {i : ℕ}
    (he : g.enterRead m i = some g') : g'.Wf := by
  unfold Gate.enterRead at he
  split at he
  · rename_i b hl hi
    have hlt := (List.getElem?_eq_some_iff.mp hi).1
    have hget := (List.getElem?_eq_some_iff.mp hi).2
    have hcount : ∀ p : Phase, p ≠ .running →
        (g.handlers.set i ⟨p, b⟩).countP isRunning = g.handlers.countP isRunning := by
      intro p hp
      rw [List.countP_set hlt, hget]
      simp [isRunning, hp]
    obtain rfl := Option.some.inj he
    split
    · refine ⟨by rw [h.active, hcount _ (by decide)], ?_⟩
      exact h.lock_set (fun hc => by simp at hc) (fun hn => absurd hl hn)
    · refine ⟨by simp only [h.active]; rw [hcount _ (by decide)], ?_⟩
      exact h.lock_set (fun _ => rfl) (fun hn => absurd hl hn)
  · simp at he

theorem Wf.enterCount {g g' : Gate β} (h : g.Wf) {i : ℕ} (he : g.enterCount i = some g') :
    g'.Wf := by
  unfold Gate.enterCount at he
  split at he
  · rename_i b hi
    have hlt := (List.getElem?_eq_some_iff.mp hi).1
    have hget := (List.getElem?_eq_some_iff.mp hi).2
    have hlock : g.lock = some i := h.lock i _ hi rfl
    obtain rfl := Option.some.inj he
    refine ⟨?_, h.lock_set (fun hc => by simp at hc) (fun _ hn => absurd hlock hn)⟩
    simp only [List.countP_set hlt, hget, h.active]
    simp [isRunning]
  · simp at he

theorem Wf.leave {g g' : Gate β} (h : g.Wf) {i : ℕ} (he : g.leave i = some g') : g'.Wf := by
  unfold Gate.leave at he
  split at he
  · rename_i b hl hi
    have hlt := (List.getElem?_eq_some_iff.mp hi).1
    have hget := (List.getElem?_eq_some_iff.mp hi).2
    obtain rfl := Option.some.inj he
    refine ⟨?_, h.lock_set (fun hc => by simp at hc) (fun hn => absurd hl hn)⟩
    have hpos : 0 < g.handlers.countP isRunning :=
      List.countP_pos_iff.mpr ⟨_, List.mem_of_getElem? hi, rfl⟩
    simp only [List.countP_set hlt, hget, h.active]
    simp [isRunning]
    omega
  · simp at he

theorem Wf.work {g : Gate β} (h : g.Wf) {i : ℕ} {b b' : β}
    (hi : g.handlers[i]? = some ⟨.running, b⟩) : (g.work i b').Wf := by
  have hlt := (List.getElem?_eq_some_iff.mp hi).1
  have hget := (List.getElem?_eq_some_iff.mp hi).2
  refine ⟨?_, ?_⟩
  · have hpos : 0 < g.handlers.countP isRunning :=
      List.countP_pos_iff.mpr ⟨_, List.mem_of_getElem? hi, rfl⟩
    simp only [Gate.work, List.countP_set hlt, hget, h.active]
    simp [isRunning]
    omega
  · exact h.lock_set (fun hc => by simp at hc) (fun _ _ => rfl)

/-- **What a snapshot proves.**  Taken under the lock, a zero counter leaves nobody inside and
nobody between the two steps of `enter`. -/
theorem Wf.quiet_of_snapshot {g : Gate β} (h : g.Wf) {m : Marker} {sn : Snapshot}
    (hs : g.snapshot m = some sn) (h0 : sn.active = 0) : g.Quiet := by
  unfold Gate.snapshot at hs
  split at hs
  · rename_i hl
    obtain rfl := Option.some.inj hs
    have hcount : g.handlers.countP isRunning = 0 := by
      have := h.active
      simp only at h0
      omega
    intro x hx
    constructor
    · intro hc
      obtain ⟨i, hi⟩ := List.getElem?_of_mem hx
      have := h.lock i x hi hc
      simp [hl] at this
    · intro hr
      have := List.countP_eq_zero.mp hcount x hx
      simp [isRunning, hr] at this
  · simp at hs

theorem Quiet.arrive {g : Gate β} (h : g.Quiet) (b : β) : (g.arrive b).Quiet := by
  intro x hx
  simp only [Gate.arrive, List.mem_append, List.mem_singleton] at hx
  rcases hx with hx | rfl
  · exact h x hx
  · simp

/-- **While the marker is there, a quiet gate stays quiet.** -/
theorem Quiet.enterRead {g g' : Gate β} (h : g.Quiet) {m : Marker} (hm : m.state.1 = true) {i : ℕ}
    (he : g.enterRead m i = some g') : g'.Quiet := by
  unfold Gate.enterRead at he
  split at he
  · rw [hm, if_pos rfl] at he
    obtain rfl := Option.some.inj he
    intro x hx
    rcases List.mem_or_eq_of_mem_set hx with hx | rfl
    · exact h x hx
    · simp
  · simp at he

theorem Quiet.not_enterCount {g g' : Gate β} (h : g.Quiet) {i : ℕ} : g.enterCount i ≠ some g' := by
  intro he
  unfold Gate.enterCount at he
  split at he
  · rename_i b hi
    exact (h _ (List.mem_of_getElem? hi)).1 rfl
  · simp at he

theorem Quiet.not_running {g : Gate β} (h : g.Quiet) {i : ℕ} {b : β} :
    g.handlers[i]? ≠ some ⟨.running, b⟩ :=
  fun hi => (h _ (List.mem_of_getElem? hi)).2 rfl

theorem Quiet.not_leave {g g' : Gate β} (h : g.Quiet) {i : ℕ} : g.leave i ≠ some g' := by
  intro he
  unfold Gate.leave at he
  split at he
  · rename_i b hl hi
    exact h.not_running hi
  · simp at he

end Gate

end Inference.Deploy
