import Inference.Deploy.Gate
import Inference.Lib.Run

/-!
# Inference.Deploy.Accounting — who goes through a `DeploymentGate`

`DeploymentMiddleware` and `ProcessBatch` run a handler between `enter` and `leave`, while
`snapshot` is called and the marker file comes and goes.  `snapshot` reads the marker and then the
counter, both under the lock, so that the marker may change in between.

* `Call.gated`: the calls that go through the gate.
* `Moves`, `Inv.step`: what one step does, and that the lock and the counter are kept.
* `Sealed.step`: without a removal of the marker nobody is admitted to a quiet gate.
* **`accounting`**: the counter over whole runs, and what a snapshot promises.
-/

namespace Inference.Deploy.Accounting

open Inference.Lib

/-- A call of `DeploymentMiddleware`, with `type` and `method` of its scope, or of `ProcessBatch`. -/
inductive Call where
  | http (type method : String)
  | rpc
deriving DecidableEq, Repr

/-- The middleware passes the other calls on. -/
def Call.gated : Call → Bool
  | http type method => type == "http" && !(["GET", "HEAD", "OPTIONS"].contains method)
  | rpc => true

/-- What a handler does between `enter` and `leave`: `raised` once it has returned or raised. -/
structure Work where
  call : Call
  raised : Option Bool
deriving DecidableEq, Repr

structure Sys where
  gate : Gate Work := {}
  marker : Marker := .absent
  /-- what the `snapshot` inside the lock got from `marker_state()` -/
  reading : Option (Bool × Option String) := none
  /-- what `snapshot` returned last -/
  shown : Option Snapshot := none

inductive Event where
  | request (call : Call)
  /-- `enter` takes the lock and looks at the marker; it returns `False` or goes on. -/
  | enterRead (i : ℕ)
  /-- `enter` counts and returns `True`. -/
  | enterCount (i : ℕ)
  /-- The handler returns or raises. -/
  | finish (i : ℕ) (raised : Bool)
  /-- `finally: gate.leave()` -/
  | leave (i : ℕ)
  /-- `snapshot` takes the lock and looks at the marker. -/
  | snapRead
  /-- `snapshot` looks at the counter and returns. -/
  | snapCount
  /-- The marker is created, replaced or removed. -/
  | mark (m : Marker)
deriving DecidableEq, Repr

namespace Sys

def setGate (s : Sys) (g : Gate Work) : Sys := { s with gate := g }

def step (s : Sys) : Event → Option Sys
  | .request call => some (if call.gated then s.setGate (s.gate.arrive ⟨call, none⟩) else s)
  | .enterRead i => if s.reading.isSome then none else (s.gate.enterRead s.marker i).map s.setGate
  | .enterCount i => (s.gate.enterCount i).map s.setGate
  | .finish i raised =>
    match s.gate.handlers[i]? with
    | some ⟨.running, ⟨call, none⟩⟩ => some (s.setGate (s.gate.work i ⟨call, some raised⟩))
    | _ => none
  | .leave i =>
    match s.reading, s.gate.handlers[i]? with
    | none, some ⟨.running, ⟨_, some _⟩⟩ => (s.gate.leave i).map s.setGate
    | _, _ => none
  | .snapRead =>
    if s.reading.isSome ∨ s.gate.lock.isSome then none
    else some { s with reading := some s.marker.state }
  | .snapCount => s.reading.map fun (draining, token) =>
      { s with reading := none, shown := some ⟨draining, token, s.gate.active⟩ }
  | .mark m => some { s with marker := m }

/-- The handler of number `i` has been admitted and has not left, as the events tell. -/
def isInside (es : List Event) (i : ℕ) : Bool := es.contains (.enterCount i) && !es.contains (.leave i)

structure Inv (s : Sys) : Prop where
  wf : s.gate.Wf
  lock : s.reading.isSome = true → s.gate.lock = none

/-- A quiet gate behind a marker. -/
structure Sealed (s : Sys) : Prop where
  quiet : s.gate.Quiet
  marker : s.marker.state.1 = true

/-- Where handler `i` is. -/
def phaseAt (s : Sys) (i : ℕ) : Option Phase := s.gate.handlers[i]?.map Handler.phase

/-- What the events tell of each handler. -/
structure Told (es : List Event) (s : Sys) : Prop where
  entered : ∀ i, .enterCount i ∈ es ↔ s.phaseAt i = some .running ∨ s.phaseAt i = some .left
  left : ∀ i, .leave i ∈ es ↔ s.phaseAt i = some .left

theorem draining_iff (m : Marker) : m.state.1 = true ↔ m ≠ .absent := by
  cases m <;> simp [Marker.state]

/-- What one step does. -/
inductive Moves (s : Sys) : Event → Sys → Prop where
  | arrive (call : Call) (h : call.gated = true) :
      Moves s (.request call) (s.setGate (s.gate.arrive ⟨call, none⟩))
  | pass (call : Call) (h : call.gated = false) : Moves s (.request call) s
  | enterRead {i : ℕ} {g : Gate Work} (hr : s.reading = none)
      (h : s.gate.enterRead s.marker i = some g) : Moves s (.enterRead i) (s.setGate g)
  | enterCount {i : ℕ} {g : Gate Work} (h : s.gate.enterCount i = some g) :
      Moves s (.enterCount i) (s.setGate g)
  | finish {i : ℕ} {call : Call} (raised : Bool)
      (h : s.gate.handlers[i]? = some ⟨.running, ⟨call, none⟩⟩) :
      Moves s (.finish i raised) (s.setGate (s.gate.work i ⟨call, some raised⟩))
  | leave {i : ℕ} {g : Gate Work} (hr : s.reading = none) (h : s.gate.leave i = some g) :
      Moves s (.leave i) (s.setGate g)
  | snapRead (hr : s.reading = none) (h : s.gate.lock = none) :
      Moves s .snapRead { s with reading := some s.marker.state }
  | snapCount {draining : Bool} {token : Option String} (h : s.reading = some (draining, token)) :
      Moves s .snapCount
        { s with reading := none, shown := some ⟨draining, token, s.gate.active⟩ }
  | mark (m : Marker) : Moves s (.mark m) { s with marker := m }

theorem moves {s t : Sys} {e : Event} (h : s.step e = some t) : Moves s e t := by
  cases e with
  | request call =>
    rw [step, Option.some.injEq] at h
    subst h
    split
    next hg => exact .arrive call hg
    next hg => exact .pass call (by simpa using hg)
  | enterRead i =>
    rw [step] at h
    split at h
    · cases h
    next hr =>
      obtain ⟨g, hg, rfl⟩ := Option.map_eq_some_iff.mp h
      exact .enterRead (by simpa using hr) hg
  | enterCount i =>
    obtain ⟨g, hg, rfl⟩ := Option.map_eq_some_iff.mp h
    exact .enterCount hg
  | finish i raised =>
    rw [step] at h
    split at h
    next call hi =>
      obtain rfl := Option.some.inj h
      exact .finish raised hi
    next => cases h
  | leave i =>
    rw [step] at h
    split at h
    next hr _ =>
      obtain ⟨g, hg, rfl⟩ := Option.map_eq_some_iff.mp h
      exact .leave hr hg
    next => cases h
  | snapRead =>
    rw [step] at h
    split at h
    · cases h
    next hfree =>
      rw [not_or, Option.not_isSome_iff_eq_none, Option.not_isSome_iff_eq_none] at hfree
      obtain rfl := Option.some.inj h
      exact .snapRead hfree.1 hfree.2
  | snapCount =>
    obtain ⟨⟨draining, token⟩, hr, rfl⟩ := Option.map_eq_some_iff.mp h
    exact .snapCount hr
  | mark m =>
    obtain rfl := Option.some.inj h
    exact .mark m

/-! ### The lock and the counter -/

theorem inv_empty : ({} : Sys).Inv := ⟨Gate.wf_empty, nofun⟩

/-- Only the two steps of `enter` take and release the lock. -/
theorem Inv.setGate {s : Sys} (hi : s.Inv) {g : Gate Work} (hwf : g.Wf)
    (hlock : g.lock = s.gate.lock ∨ s.reading = none) : (s.setGate g).Inv := by
  refine ⟨hwf, fun hr => ?_⟩
  have hr : s.reading.isSome = true := hr
  rcases hlock with hl | hnone
  · exact hl.trans (hi.lock hr)
  · rw [hnone] at hr
    cases hr

theorem Inv.step {s t : Sys} {e : Event} (hi : s.Inv) (h : s.step e = some t) : t.Inv := by
  cases moves h with
  | arrive call _ => exact hi.setGate (hi.wf.arrive _) (.inl rfl)
  | pass => exact hi
  | enterRead hr hg => exact hi.setGate (hi.wf.enterRead hg) (.inr hr)
  | @enterCount i g hg =>
    refine hi.setGate (hi.wf.enterCount hg) (.inr ?_)
    -- the handler between its two steps has the lock, so no `snapshot` has it
    by_contra hr
    have hlock := hi.lock (Option.isSome_iff_ne_none.mpr hr)
    unfold Gate.enterCount at hg
    split at hg
    next b hb =>
      rw [hi.wf.lock i _ hb rfl] at hlock
      cases hlock
    next => cases hg
  | finish raised hb => exact hi.setGate (hi.wf.work hb) (.inl rfl)
  | leave hr hg => exact hi.setGate (hi.wf.leave hg) (.inr hr)
  | snapRead hr hl => exact ⟨hi.wf, fun _ => hl⟩
  | snapCount => exact ⟨hi.wf, nofun⟩
  | mark => exact ⟨hi.wf, hi.lock⟩

theorem inv_exec {es : List Event} {s : Sys} (h : exec step {} es = some s) : s.Inv :=
  exec_inv (fun _ _ _ hi h => hi.step h) inv_empty h

/-! ### What a snapshot promises -/

/-- **No admission behind a marker.** -/
theorem Sealed.step {s t : Sys} {e : Event} (hs : s.Sealed) (he : e ≠ .mark .absent)
    (h : s.step e = some t) : t.Sealed := by
  cases moves h with
  | arrive call _ => exact ⟨hs.quiet.arrive _, hs.marker⟩
  | pass => exact hs
  | enterRead _ hg => exact ⟨hs.quiet.enterRead hs.marker hg, hs.marker⟩
  | enterCount hg => exact absurd hg hs.quiet.not_enterCount
  | finish _ hb => exact absurd hb hs.quiet.not_running
  | leave _ hg => exact absurd hg hs.quiet.not_leave
  | snapRead | snapCount => exact ⟨hs.quiet, hs.marker⟩
  | mark m =>
    refine ⟨hs.quiet, (draining_iff m).mpr ?_⟩
    rintro rfl
    exact he rfl

theorem Sealed.not_enterCount {s t : Sys} (hs : s.Sealed) {i : ℕ} :
    s.step (.enterCount i) ≠ some t := by
  intro h
  cases moves h with
  | enterCount hg => exact hs.quiet.not_enterCount hg

/-- A run without a removal admits nobody. -/
theorem Sealed.run {s t : Sys} {es : List Event} (hs : s.Sealed) (hes : .mark .absent ∉ es)
    (h : exec Sys.step s es = some t) : t.Sealed ∧ ∀ i, .enterCount i ∉ es := by
  induction es generalizing s with
  | nil =>
    rw [exec_nil, Option.some.injEq] at h
    exact ⟨h ▸ hs, fun i => List.not_mem_nil⟩
  | cons e es ih =>
    obtain ⟨m, h1, h2⟩ := exec_cons.mp h
    rw [List.mem_cons, not_or] at hes
    obtain ⟨ht, hnone⟩ := ih (hs.step (Ne.symm hes.1) h1) hes.2 h2
    refine ⟨ht, fun i hi => ?_⟩
    rcases List.mem_cons.mp hi with rfl | hi
    · exact hs.not_enterCount h1
    · exact hnone i hi

/-- A snapshot that read a marker keeps it, until it counts, while nobody removes it. -/
theorem marker_run {s t : Sys} {es : List Event} {draining : Bool} {token : Option String}
    (hi : s.Inv) (hr : s.reading = some (draining, token)) (hcount : .snapCount ∉ es)
    (h : exec step s es = some t) :
    t.Inv ∧ t.reading = some (draining, token) ∧
      (.mark .absent ∉ es → s.marker.state.1 = true → t.marker.state.1 = true) := by
  induction es generalizing s with
  | nil =>
    rw [exec_nil, Option.some.injEq] at h
    subst h
    exact ⟨hi, hr, fun _ hm => hm⟩
  | cons e es ih =>
    obtain ⟨m, h1, h2⟩ := exec_cons.mp h
    rw [List.mem_cons, not_or] at hcount
    have hkeep : m.reading = some (draining, token) ∧
        (e ≠ .mark .absent → s.marker.state.1 = true → m.marker.state.1 = true) := by
      cases moves h1 with
      | snapRead hnone =>
        rw [hnone] at hr
        cases hr
      | snapCount => exact absurd rfl hcount.1
      | mark mk =>
        refine ⟨hr, fun hne _ => (draining_iff mk).mpr ?_⟩
        rintro rfl
        exact hne rfl
      | arrive | pass | enterRead | enterCount | finish | leave => exact ⟨hr, fun _ hm => hm⟩
    obtain ⟨hit, hrt, hmt⟩ := ih (hi.step h1) hkeep.1 hcount.2 h2
    refine ⟨hit, hrt, fun hes hm => ?_⟩
    rw [List.mem_cons, not_or] at hes
    exact hmt hes.2 (hkeep.2 (Ne.symm hes.1) hm)

/-- **What a snapshot promises.**  Where it shows nobody, nobody is inside when it counts; and if it
saw a marker that nobody has removed since, the gate is sealed. -/
theorem snapshot_run {s t : Sys} {es : List Event} {sn : Snapshot} (hi : s.Inv)
    (hcount : .snapCount ∉ es) (h : exec step s (.snapRead :: (es ++ [.snapCount])) = some t)
    (hsn : t.shown = some sn) (h0 : sn.active = 0) :
    t.gate.Quiet ∧ (sn.draining = true → .mark .absent ∉ es → t.Sealed) := by
  obtain ⟨s₁, hread, h⟩ := exec_cons.mp h
  obtain ⟨s₂, hes, hlast⟩ := exec_concat.mp h
  cases moves hread with
  | snapRead hr hl =>
    obtain ⟨hi₂, hr₂, hm₂⟩ := marker_run (hi.step hread) rfl hcount hes
    cases moves hlast with
    | @snapCount draining token hr' =>
      obtain rfl := Option.some.inj hsn
      have hquiet : s₂.gate.Quiet := by
        have hsnap : s₂.gate.snapshot s₂.marker =
            some ⟨s₂.marker.state.1, s₂.marker.state.2, s₂.gate.active⟩ := by
          rw [Gate.snapshot, if_pos (hi₂.lock (by rw [hr']; rfl))]
        exact hi₂.wf.quiet_of_snapshot hsnap h0
      refine ⟨hquiet, fun hdraining hkeep => ⟨hquiet, hm₂ hkeep ?_⟩⟩
      rw [hr'] at hr₂
      exact (Prod.mk.inj (Option.some.inj hr₂)).1.symm.trans hdraining

/-! ### The counter and the events -/

theorem phaseAt_eq {s : Sys} {i : ℕ} {x : Handler Work} (hi : s.gate.handlers[i]? = some x) :
    s.phaseAt i = some x.phase := by
  rw [phaseAt, hi]
  rfl

theorem phaseAt_set {s : Sys} {g : Gate Work} {i : ℕ} {x : Handler Work} (y : Handler Work)
    (hi : s.gate.handlers[i]? = some x) (hg : g.handlers = s.gate.handlers.set i y) (j : ℕ) :
    (s.setGate g).phaseAt j = if j = i then some y.phase else s.phaseAt j := by
  have hlt := (List.getElem?_eq_some_iff.mp hi).1
  rw [phaseAt, setGate, hg]
  by_cases hj : j = i
  · subst hj
    rw [if_pos rfl, List.getElem?_set_self hlt]
    rfl
  · rw [if_neg hj, List.getElem?_set_ne (Ne.symm hj)]
    rfl

theorem phaseAt_arrive (s : Sys) (work : Work) (j : ℕ) :
    (s.setGate (s.gate.arrive work)).phaseAt j =
      if j = s.gate.handlers.length then some .waiting else s.phaseAt j := by
  rw [phaseAt, setGate, Gate.arrive]
  by_cases hj : j = s.gate.handlers.length
  · subst hj
    rw [if_pos rfl, List.getElem?_concat_length]
    rfl
  · rw [if_neg hj, phaseAt]
    rcases Nat.lt_or_ge j s.gate.handlers.length with hlt | hge
    · rw [List.getElem?_append_left hlt]
    · rw [List.getElem?_eq_none (by simp; omega), List.getElem?_eq_none hge]

/-- How a step moves handler `i`. -/
inductive Shift (i : ℕ) : Event → Option Phase → Phase → Prop where
  | outside {e : Event} {p : Option Phase} {p' : Phase} (hp : p ≠ some .running ∧ p ≠ some .left)
      (hp' : p' ≠ .running ∧ p' ≠ .left) (he : ∀ j, e ≠ .enterCount j ∧ e ≠ .leave j) : Shift i e p p'
  | count : Shift i (.enterCount i) (some .checked) .running
  | leave : Shift i (.leave i) (some .running) .left

/-- Every step moves one handler at most. -/
theorem shift {s t : Sys} {e : Event} (h : s.step e = some t) :
    (∀ j, t.phaseAt j = s.phaseAt j ∧ e ≠ .enterCount j ∧ e ≠ .leave j) ∨
    ∃ i p', Shift i e (s.phaseAt i) p' ∧
      ∀ j, t.phaseAt j = if j = i then some p' else s.phaseAt j := by
  cases moves h with
  | arrive call _ =>
    refine .inr ⟨s.gate.handlers.length, .waiting, .outside ?_ ⟨nofun, nofun⟩
      fun j => ⟨nofun, nofun⟩, phaseAt_arrive s _⟩
    rw [phaseAt, List.getElem?_eq_none (Nat.le_refl _)]
    exact ⟨nofun, nofun⟩
  | @enterRead i g _ hg =>
    unfold Gate.enterRead at hg
    split at hg
    next b _ hi =>
      have hwaiting : s.phaseAt i ≠ some .running ∧ s.phaseAt i ≠ some .left := by
        rw [phaseAt_eq hi]
        exact ⟨nofun, nofun⟩
      split at hg
      · obtain rfl := Option.some.inj hg
        exact .inr ⟨i, .refused, .outside hwaiting ⟨nofun, nofun⟩ fun j => ⟨nofun, nofun⟩,
          phaseAt_set ⟨.refused, b⟩ hi rfl⟩
      · obtain rfl := Option.some.inj hg
        exact .inr ⟨i, .checked, .outside hwaiting ⟨nofun, nofun⟩ fun j => ⟨nofun, nofun⟩,
          phaseAt_set ⟨.checked, b⟩ hi rfl⟩
    next => cases hg
  | @enterCount i g hg =>
    unfold Gate.enterCount at hg
    split at hg
    next b hi =>
      obtain rfl := Option.some.inj hg
      refine .inr ⟨i, .running, ?_, phaseAt_set ⟨.running, b⟩ hi rfl⟩
      rw [phaseAt_eq hi]
      exact .count
    next => cases hg
  | @leave i g _ hg =>
    unfold Gate.leave at hg
    split at hg
    next b _ hi =>
      obtain rfl := Option.some.inj hg
      refine .inr ⟨i, .left, ?_, phaseAt_set ⟨.left, b⟩ hi rfl⟩
      rw [phaseAt_eq hi]
      exact .leave
    next => cases hg
  | @finish i call raised hi =>
    refine .inl fun j => ⟨?_, nofun, nofun⟩
    rw [phaseAt_set ⟨.running, ⟨call, some raised⟩⟩ hi rfl j]
    split
    next hj => rw [hj, phaseAt_eq hi]
    next => rfl
  | pass | snapRead | snapCount | mark => exact .inl fun j => ⟨rfl, nofun, nofun⟩

theorem Told.step {s t : Sys} {e : Event} {es : List Event} (ht : Told es s)
    (h : s.step e = some t) : Told (es ++ [e]) t := by
  have hmem : ∀ x : Event, x ∈ es ++ [e] ↔ x ∈ es ∨ e = x := by
    intro x
    rw [List.mem_append, List.mem_singleton, eq_comm]
  rcases shift h with hsame | ⟨i, p', hshift, hphase⟩
  · constructor
    · intro j
      rw [hmem, (hsame j).1, ← ht.entered]
      exact or_iff_left (hsame j).2.1
    · intro j
      rw [hmem, (hsame j).1, ← ht.left]
      exact or_iff_left (hsame j).2.2
  · have hother : ∀ j, j ≠ i → e ≠ .enterCount j ∧ e ≠ .leave j := by
      intro j hj
      generalize s.phaseAt i = p at hshift
      cases hshift with
      | outside _ _ he => exact he j
      | count =>
        refine ⟨?_, nofun⟩
        rintro ⟨⟩
        exact hj rfl
      | leave =>
        refine ⟨nofun, ?_⟩
        rintro ⟨⟩
        exact hj rfl
    constructor
    · intro j
      rw [hmem, hphase, ht.entered]
      by_cases hj : j = i
      · rw [if_pos hj, hj]
        generalize s.phaseAt i = p at hshift
        cases hshift with
        | outside hp hp' he => simp [hp.1, hp.2, hp'.1, hp'.2, (he i).1]
        | count => simp
        | leave => simp
      · rw [if_neg hj]
        exact or_iff_left (hother j hj).1
    · intro j
      rw [hmem, hphase, ht.left]
      by_cases hj : j = i
      · rw [if_pos hj, hj]
        generalize s.phaseAt i = p at hshift
        cases hshift with
        | outside hp hp' he => simp [hp.2, hp'.2, (he i).2]
        | count => simp
        | leave => simp
      · rw [if_neg hj]
        exact or_iff_left (hother j hj).2

theorem told_exec {es : List Event} {s : Sys} (h : exec step {} es = some s) : Told es s := by
  induction es using List.reverseRecOn generalizing s with
  | nil =>
    rw [exec_nil, Option.some.injEq] at h
    subst h
    exact ⟨fun i => by simp [phaseAt], fun i => by simp [phaseAt]⟩
  | append_singleton es e ih =>
    obtain ⟨m, hm, hlast⟩ := exec_concat.mp h
    exact (ih hm).step hlast

/-- The handlers inside, as the events tell, are the running ones. -/
theorem Told.countP_isInside {es : List Event} {s : Sys} (ht : Told es s) :
    (List.range s.gate.handlers.length).countP (isInside es) =
      s.gate.handlers.countP Gate.isRunning := by
  have hinside : ∀ i, isInside es i = (s.gate.handlers[i]?).any Gate.isRunning := by
    intro i
    have hentered := ht.entered i
    have hleft := ht.left i
    rw [Bool.eq_iff_iff, isInside, Bool.and_eq_true, Bool.not_eq_true', List.contains_iff_mem,
      ← Bool.not_eq_true, List.contains_iff_mem, hentered, hleft, phaseAt]
    cases hi : s.gate.handlers[i]? with
    | none => simp
    | some x =>
      obtain ⟨phase, body⟩ := x
      cases phase <;> simp [Gate.isRunning]
  have hmap : (List.range s.gate.handlers.length).map (fun i => s.gate.handlers[i]?) =
      s.gate.handlers.map some := by
    refine List.ext_getElem (by simp) fun i h1 h2 => ?_
    simp at h2
    simp [h2]
  calc (List.range s.gate.handlers.length).countP (isInside es)
      = ((List.range s.gate.handlers.length).map fun i => s.gate.handlers[i]?).countP
          (Option.any Gate.isRunning) := by
        rw [List.countP_map]
        exact List.countP_congr fun i _ => by rw [hinside]; rfl
    _ = s.gate.handlers.countP Gate.isRunning := by
        rw [hmap, List.countP_map]
        rfl

/-- **Accounting.**  Over every run the counter is the number of admitted handlers that have not
left.  Where a snapshot shows nobody, nobody is inside when it counts; and if it saw a marker, no
`enter` returns `True` until the marker is removed.  A marker that cannot be read counts as one. -/
theorem accounting {es : List Event} {t : Sys} (h : exec step {} es = some t) :
    t.gate.active = ((List.range t.gate.handlers.length).countP (isInside es) : ℕ) ∧
    0 ≤ t.gate.active ∧
    (∀ before between after u sn, es = before ++ .snapRead :: (between ++ .snapCount :: after) →
      .snapCount ∉ between →
      exec step {} (before ++ .snapRead :: (between ++ [.snapCount])) = some u →
      u.shown = some sn → sn.active = 0 →
      u.gate.Quiet ∧
      (sn.draining = true → .mark .absent ∉ between →
        ∀ fs, fs <+: after → .mark .absent ∉ fs → ∀ i, .enterCount i ∉ fs)) ∧
    ∀ m : Marker, m.state.1 = true ↔ m ≠ .absent := by
  have hactive := (inv_exec h).wf.active
  refine ⟨?_, ?_, ?_, draining_iff⟩
  · rw [hactive, (told_exec h).countP_isInside]
  · rw [hactive]
    exact Int.natCast_nonneg _
  · intro before between after u sn hes hcount hu hsn h0
    obtain ⟨s, hs, hsnap⟩ := exec_append.mp hu
    obtain ⟨hquiet, hsealed⟩ := snapshot_run (inv_exec hs) hcount hsnap hsn h0
    refine ⟨hquiet, fun hdraining hbetween fs hfs hkeep => ?_⟩
    obtain ⟨gs, rfl⟩ := hfs
    have hsplit : es = (before ++ .snapRead :: (between ++ [.snapCount])) ++ (fs ++ gs) := by
      rw [hes]
      simp
    rw [hsplit] at h
    obtain ⟨u', hu', hrest⟩ := exec_append.mp h
    obtain rfl : u = u' := Option.some.inj (hu.symm.trans hu')
    obtain ⟨v, hv, -⟩ := exec_append.mp hrest
    exact ((hsealed hdraining hbetween).run hkeep hv).2

/-- One handler is admitted while the marker appears, raises and leaves; the snapshot then shows
nobody, and a later handler is refused although the marker cannot be read. -/
def drained : List Event :=
  [.request .rpc, .enterRead 0, .mark (.holds "release-7"), .enterCount 0, .finish 0 true, .leave 0,
    .snapRead, .request (.http "http" "POST"), .snapCount, .mark .unreadable, .enterRead 1]

theorem drained_quiet : ∃ t, exec step {} drained = some t ∧ t.gate.active = 0 ∧
    ∃ u sn, exec step {} (drained.take 9) = some u ∧ u.shown = some sn ∧ sn.draining = true ∧
      u.gate.Quiet := by
  have hrun : (exec step {} drained).any (fun t => t.gate.handlers.length == 2) = true := by
    decide +kernel
  have htake : (exec step {} (drained.take 9)).any (fun u =>
      u.shown == some ⟨true, some "release-7", 0⟩) = true := by decide +kernel
  obtain ⟨t, ht, hlength⟩ := (Option.any_eq_true _ _).mp hrun
  obtain ⟨u, hu, hshown⟩ := (Option.any_eq_true _ _).mp htake
  have hall := accounting ht
  refine ⟨t, ht, ?_, u, _, hu, beq_iff_eq.mp hshown, rfl, ?_⟩
  · rw [hall.1, beq_iff_eq.mp hlength]
    decide
  · exact (hall.2.2.1 (drained.take 6) [.request (.http "http" "POST")]
      [.mark .unreadable, .enterRead 1] u _ rfl (by decide) hu (beq_iff_eq.mp hshown) rfl).1

end Sys

end Inference.Deploy.Accounting
