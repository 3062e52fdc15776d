import Inference.Registry

/-!
# Inference.Bookkeeping — what `_registered_session` says

When `_registered_session` is the current session, the registration loop has nothing to do.  The
node of the worker then says what the registry says, unless an exception left `set_state` or
`register` and `_registered_session` was kept.

* `Sys.Promised`: what the bookkeeping promises at each program point.
* **`truthful_iff`**: the promise holds in every state of a run exactly when every such exception
  is harmless.
-/

namespace Inference.Registry.Sys

open Inference.Lib

/-- The lock is free, or the loop is about to decide whether there is anything to do. -/
def AtRest (s : Sys) : Prop := s.held = none ∨ ∃ changed, s.held = some (.compare changed)

/-- When `_registered_session` is the current session of an open registry, the node of this worker
is of that session and its data decode to the address and the state of the registry. -/
def Truthful (repr : String → String) (s : Sys) : Prop :=
  s.AtRest → s.stop = false → ∀ x, s.registered = some x → s.current = some x →
    ∃ n, s.nodes s.workerId = some n ∧ n.owner = x ∧
      Json.loadsBytes repr n.data = some (metadata s.address s.state)

/-- An exception leaves `register` or `set_state`, and `_registered_session` is kept. -/
def escapes (s : Sys) : Event → Bool
  | .advance fault =>
    match s.held with
    | some (.ensure c .session) => decide (c ≠ .loop) && s.clientId.isNone
    | some (.ensure .setState (.call k x)) => decide (fault ≠ .none) || (s.answer x k).isNone
    | _ => false
  | _ => false

/-- A `create` or a `set` takes effect and fails. -/
def written (s : Sys) : Event → Bool
  | .advance .after =>
    match s.held with
    | some (.ensure _ (.call .create _)) => (s.nodes s.workerId).isNone
    | some (.ensure _ (.call .set _)) => (s.nodes s.workerId).isSome
    | _ => false
  | _ => false

/-- No exception leaves `register` or `set_state` of an open registry while `_registered_session`
is the current session, unless what the call was to publish is published. -/
def Guarded (s : Sys) (e : Event) : Prop :=
  s.escapes e = true → s.stop = false → ∀ x, s.registered = some x → s.current = some x →
    s.Published x ∨ s.written e = true

/-! ## What is promised -/

/-- What the bookkeeping promises of the node. -/
def Told (s : Sys) : Prop :=
  s.stop = false → ∀ x, s.registered = some x → s.current = some x → s.Published x

/-- `register` and `set_state` promise nothing before they return. -/
def Promised (s : Sys) : Option Held → Prop
  | some (.ensure .register _) | some (.ensure .setState _) => True
  | _ => s.Told

theorem metadata_plain (address : Option String) (state : String) :
    (metadata address state).plain = true := by
  cases address <;> rfl

theorem metadata_inj {a b : Option String} {st su : String} (h : metadata a st = metadata b su) :
    a = b ∧ st = su := by
  cases a <;> cases b <;> simp_all [metadata]

theorem Told.of_unregistered {s : Sys} (h : s.registered = none) : s.Told := fun _ x hx => by
  rw [h] at hx
  cases hx

theorem Outside.told {s t : Sys} (ho : s.Outside t) (hw : s.World) (h : s.Told) : t.Told := by
  intro hstop x hreg hcur
  rw [ho.registered] at hreg
  rcases ho.current x hcur with hs | hs
  · exact ho.published hcur (h (ho.stop hstop) x hreg hs)
  · exact absurd (hw.registered x hreg).1 (Nat.not_lt.mpr hs)

theorem Outside.promised {s t : Sys} (ho : s.Outside t) (hw : s.World) :
    ∀ {held : Option Held}, s.Promised held → t.Promised held
  | none, h => ho.told hw h
  | some (.check _), h => ho.told hw h
  | some (.compare _), h => ho.told hw h
  | some (.ensure .register _), _ => trivial
  | some (.ensure .setState _), _ => trivial
  | some (.ensure .loop _), h => ho.told hw h

theorem Published.effect {s : Sys} {x y : ℕ} (h : s.Published x) (k : Call) :
    ({ s with nodes := s.effect y k } : Sys).Published x := by
  obtain ⟨n, hn, howner, hdata⟩ := h
  cases k with
  | ensurePath => exact ⟨n, hn, howner, hdata⟩
  | get => exact ⟨n, hn, howner, hdata⟩
  | create =>
    refine ⟨n, ?_, howner, hdata⟩
    show s.effect y .create s.workerId = some n
    rw [Sys.effect, if_neg (by rw [hn]; exact Option.some_ne_none n), hn]
  | set =>
    refine ⟨{ n with data := s.data }, ?_, howner, rfl⟩
    show s.effect y .set s.workerId = _
    rw [Sys.effect, Function.update_self, hn, Option.map_some]

theorem raises_told {s : Sys} {c : Caller} (hc : c ≠ .setState) : (s.raises c).Told := by
  cases c with
  | setState => exact absurd rfl hc
  | _ => exact .of_unregistered rfl

/-- A call that fails after it has changed the node has published what it was to publish. -/
theorem published_of_written {s : Sys} {c : Caller} {k : Call} {x y z : ℕ} (hk : s.Asked k x)
    (hheld : s.held = some (.ensure c (.call k x))) (hy : s.executing = some y)
    (hreg : s.registered = some z) (hcur : s.current = some z)
    (hw : s.written (.advance .after) = true) :
    ({ s with nodes := s.effect y k } : Sys).Published z := by
  simp only [written, hheld] at hw
  cases k with
  | ensurePath => cases hw
  | get => cases hw
  | create =>
    have hfree : s.nodes s.workerId = none := Option.isNone_iff_eq_none.mp hw
    refine ⟨⟨s.data, y⟩, ?_, ?_, rfl⟩
    · show s.effect y .create s.workerId = _
      rw [effect, if_pos hfree, Function.update_self]
    · exact Option.some.inj ((executing_eq_some.mp hy).2.symm.trans hcur)
  | set =>
    -- the registered session was there before `x` was read, and it is there now
    obtain rfl : z = x := Nat.le_antisymm (hk.registered z hreg) (hk.le z (current_session hcur))
    obtain ⟨n, hn, howner⟩ := hk.owned rfl hcur
    refine ⟨{ n with data := s.data }, ?_, howner, rfl⟩
    show s.effect y .set s.workerId = _
    rw [effect, Function.update_self, hn, Option.map_some]

theorem Promised.perform {s t : Sys} {c : Caller} {k : Call} {x : ℕ} {fault : Fault}
    (hk : s.Asked k x) (hheld : s.held = some (.ensure c (.call k x)))
    (hp : s.Promised (some (.ensure c (.call k x)))) (hg : s.Guarded (.advance fault))
    (h : s.perform c k x fault = some t) : t.Promised t.held := by
  by_cases hc : c = .setState
  · subst hc
    have hesc : (decide (fault ≠ .none) || (s.answer x k).isNone) = true →
        s.stop = false → ∀ z, s.registered = some z → s.current = some z →
          s.Published z ∨ s.written (.advance fault) = true := by
      intro hesc
      refine hg ?_
      simp only [escapes, hheld]
      exact hesc
    cases fault with
    | before =>
      obtain rfl := Option.some.inj h
      intro hstop z hreg hcur
      rcases hesc rfl hstop z hreg hcur with hpub | hwritten
      · exact hpub
      · cases hwritten
    | after =>
      obtain ⟨y, hy, rfl⟩ := Option.map_eq_some_iff.mp h
      intro hstop z hreg hcur
      rcases hesc rfl hstop z hreg hcur with hpub | hwritten
      · exact hpub.effect k
      · exact published_of_written hk hheld hy hreg hcur hwritten
    | none =>
      obtain ⟨y, hy, rfl⟩ := Option.map_eq_some_iff.mp h
      cases hans : s.answer x k with
      | none =>
        intro hstop z hreg hcur
        rcases hesc (by rw [hans]; rfl) hstop z hreg hcur with hpub | hwritten
        · exact hpub.effect k
        · cases hwritten
      | some p => trivial
  · cases fault with
    | before =>
      obtain rfl := Option.some.inj h
      rw [raises_held]
      exact raises_told hc
    | after =>
      obtain ⟨y, hy, rfl⟩ := Option.map_eq_some_iff.mp h
      rw [raises_held]
      exact raises_told hc
    | none =>
      obtain ⟨y, hy, rfl⟩ := Option.map_eq_some_iff.mp h
      cases hans : s.answer x k with
      | none =>
        dsimp only
        rw [raises_held]
        exact raises_told hc
      | some p =>
        cases c with
        | register => trivial
        | setState => exact absurd rfl hc
        | loop => exact fun hstop z hreg hcur => (hp hstop z hreg hcur).effect k

theorem Promised.typeError {s : Sys} {c : Caller} {fault : Fault} (hi : s.Inv)
    (hheld : s.held = some (.ensure c .session)) (hp : s.Promised s.held)
    (hg : s.Guarded (.advance fault)) (hid : s.clientId = none) :
    (s.typeError c).Promised (s.typeError c).held := by
  rw [typeError_held]
  rw [hheld] at hp
  refine (s.outside_typeError c).told hi.toWorld ?_
  by_cases hc : c = .loop
  · subst hc
    exact hp
  · intro hstop z hreg hcur
    have hesc : s.escapes (.advance fault) = true := by
      simp only [escapes, hheld, hid]
      simp [hc]
    rcases hg hesc hstop z hreg hcur with hpub | hwritten
    · exact hpub
    · simp only [written, hheld] at hwritten
      cases fault <;> cases hwritten

/-- **One step keeps the promise**, as long as an exception that leaves a call is harmless. -/
theorem Promised.step {s t : Sys} {e : Event} (hi : s.Inv) (hp : s.Promised s.held)
    (hg : s.Guarded e) (h : s.step e = some t) : t.Promised t.held := by
  rcases step_cases h with ⟨ho, hheld⟩ | ⟨-, wid, addr, st, c, hc, rfl⟩ | ⟨fault, rfl, hadv⟩
  · rcases hheld with hheld | ⟨hfree, changed, hheld⟩
    · rw [hheld]
      exact ho.promised hi.toWorld hp
    · rw [hheld]
      rw [hfree] at hp
      exact ho.told hi.toWorld hp
  · cases c with
    | loop => exact absurd rfl hc
    | _ => trivial
  · have hknows := hi.held
    unfold Sys.advance at hadv
    split at hadv
    · cases hadv
    · rename_i hheld
      rw [hheld] at hp
      obtain rfl := Option.some.inj hadv
      split
      · rw [returns_held]
        exact (s.outside_returns .loop).told hi.toWorld hp
      · exact hp
    · rename_i hheld
      rw [hheld] at hp
      obtain rfl := Option.some.inj hadv
      split
      · rw [typeError_held]
        exact (s.outside_typeError .loop).told hi.toWorld hp
      split
      · rw [returns_held]
        exact (s.outside_returns .loop).told hi.toWorld hp
      · exact hp
    · rename_i c hheld
      obtain rfl := Option.some.inj hadv
      split
      · rename_i hid
        exact Promised.typeError hi hheld hp hg hid
      · rw [hheld] at hp
        cases c with
        | loop => exact hp
        | _ => trivial
    · rename_i c k x hheld
      rw [hheld] at hp hknows
      exact Promised.perform hknows hheld hp hg hadv
    · rename_i c x hheld
      rw [hheld] at hknows
      obtain rfl := Option.some.inj hadv
      rw [returns_held]
      have htold : ({ s with registered := some x } : Sys).Told := by
        intro _ z hz hcur
        obtain rfl := Option.some.inj hz
        exact hknows.2 hcur
      intro hstop z hz hcur
      cases c <;> exact htold hstop z hz hcur

/-- The data of a node that the bookkeeping vouches for decode to what the registry says. -/
theorem Told.truthful {s : Sys} (repr : String → String) (h : s.Told) : s.Truthful repr := by
  intro _ hstop x hreg hcur
  obtain ⟨n, hn, howner, hdata⟩ := h hstop x hreg hcur
  refine ⟨n, hn, howner, ?_⟩
  rw [hdata]
  exact Json.loadsBytes_dumpsBytes repr (metadata_plain s.address s.state)

theorem Promised.truthful {s : Sys} (repr : String → String) (hp : s.Promised s.held) :
    s.Truthful repr := by
  intro hrest
  have htold : s.Told := by
    rcases hrest with hheld | ⟨changed, hheld⟩ <;> (rw [hheld] at hp; exact hp)
  exact htold.truthful repr hrest

/-! ## Exceptions that leave a call -/

theorem effect_eq_self {s : Sys} {c : Caller} {k : Call} {x : ℕ} (y : ℕ)
    (hheld : s.held = some (.ensure c (.call k x))) (hw : s.written (.advance .after) = false) :
    s.effect y k = s.nodes := by
  simp only [written, hheld] at hw
  cases k with
  | ensurePath => rfl
  | get => rfl
  | create =>
    rw [effect, if_neg]
    intro hfree
    rw [hfree] at hw
    cases hw
  | set =>
    cases hnode : s.nodes s.workerId with
    | some n =>
      rw [hnode] at hw
      cases hw
    | none => rw [effect, hnode, Option.map_none, ← hnode, Function.update_eq_self]

/-- An exception that leaves `register` or `set_state` releases the lock and keeps the rest, the
nodes too unless the call took effect. -/
theorem escapes_frame {s t : Sys} {e : Event} (hesc : s.escapes e = true) (h : s.step e = some t) :
    ∃ nodes, t = { s with held := none, nodes := nodes } ∧
      (s.written e = false → nodes = s.nodes) := by
  cases e with
  | advance fault =>
    simp only [escapes] at hesc
    split at hesc
    · rename_i c hheld
      rw [Bool.and_eq_true, decide_eq_true_eq, Option.isNone_iff_eq_none] at hesc
      simp only [Sys.step, advance, hheld, hesc.2] at h
      obtain rfl := Option.some.inj h
      refine ⟨s.nodes, ?_, fun _ => rfl⟩
      cases c with
      | loop => exact absurd rfl hesc.1
      | _ => rfl
    · rename_i k x hheld
      simp only [Sys.step, advance, hheld] at h
      cases fault with
      | before =>
        obtain rfl := Option.some.inj h
        exact ⟨s.nodes, rfl, fun _ => rfl⟩
      | after =>
        obtain ⟨y, -, rfl⟩ := Option.map_eq_some_iff.mp h
        exact ⟨s.effect y k, rfl, effect_eq_self y hheld⟩
      | none =>
        obtain ⟨y, -, rfl⟩ := Option.map_eq_some_iff.mp h
        have hans : s.answer x k = none := by simpa using hesc
        refine ⟨s.effect y k, by rw [hans]; rfl, fun _ => ?_⟩
        cases k with
        | ensurePath => rfl
        | get => rfl
        | create => cases hans
        | set =>
          rw [answer, Option.map_eq_none_iff] at hans
          rw [effect, hans, Option.map_none, ← hans, Function.update_eq_self]
    · cases hesc
  | _ => cases hesc

/-- An exception that is not harmless leaves a node that does not say what the registry says. -/
theorem not_truthful_of_escape {s t : Sys} {e : Event} (repr : String → String) (hi : s.Inv)
    (hg : ¬ s.Guarded e) (h : s.step e = some t) : ¬ t.Truthful repr := by
  intro htruth
  apply hg
  intro hesc hstop x hreg hcur
  cases hwritten : s.written e with
  | true => exact .inr rfl
  | false =>
    obtain ⟨nodes, rfl, hnodes⟩ := escapes_frame hesc h
    obtain rfl := hnodes hwritten
    obtain ⟨n, hn, howner, hdata⟩ := htruth (.inl rfl) hstop x hreg hcur
    obtain ⟨addr, st, hbytes⟩ := hi.own _ n hn (by rw [howner, current_session hcur])
    rw [hbytes, Json.loadsBytes_dumpsBytes repr (metadata_plain addr st)] at hdata
    have hsame : metadata addr st = metadata s.address s.state := Option.some.inj hdata
    exact .inl ⟨n, hn, howner, by rw [hbytes, hsame, data]⟩

/-- **Registration bookkeeping.**  In every state of a run, whenever the lock is free or the loop
is about to decide, `_registered_session` of an open registry that is the current session vouches
for the node of the worker, exactly when every exception that leaves `register` or `set_state`
with `_registered_session` kept is harmless. -/
theorem truthful_iff (repr : String → String) {s t : Sys} {es : List Event} (h₀ : s.Init)
    (h : exec step s es = some t) :
    Meets step Guarded s es ↔
      ∀ fs m, fs <+: es → exec step s fs = some m → m.Truthful repr := by
  have hp₀ : s.Promised s.held := by
    rw [h₀.held]
    exact Told.of_unregistered h₀.registered
  refine meets_iff_reached (P := fun s => s.Inv ∧ s.Promised s.held) (fun s hs => hs.2.truthful repr)
    (fun s e t hg hs h => ⟨hs.1.step h, hs.2.step hs.1 hg h⟩)
    (fun s e t hg hs h => not_truthful_of_escape repr hs.1 hg h) ⟨h₀.inv, hp₀⟩ h

theorem truthful_iff_draining :
    (exec step opened (registering ++ draining ++ List.replicate 2 (.advance .none))).isSome = true ∧
    ∀ fs m, fs <+: registering ++ draining ++ List.replicate 2 (.advance .none) →
      exec step opened fs = some m → m.Truthful id := by
  have hrun : (exec step opened
      (registering ++ draining ++ List.replicate 2 (.advance .none))).isSome = true := by
    decide +kernel
  obtain ⟨t, ht⟩ := Option.isSome_iff_exists.mp hrun
  refine ⟨hrun, (truthful_iff id opened_init ht).mp ?_⟩
  refine meets_of_checks (b := fun s e => !s.escapes e) (fun s e hb hesc => ?_) (by decide +kernel)
  rw [hesc] at hb
  cases hb

/-- The loop runs once with `changed`, `set_state("DRAINING")` loses its connection at its first
call, and the loop times out and finds nothing to do. -/
def staleRun : List Event :=
  registering ++ List.replicate 6 .loop ++ List.replicate 7 (.advance .none) ++
    [.setState "DRAINING", .advance .none, .advance .before] ++
    List.replicate 6 .loop ++ [.advance .none]

/-- The loop is about to skip, and the node still says `READY`. -/
theorem staleRun_not_truthful : ∃ t, exec step opened staleRun = some t ∧
    t.held = some (.compare false) ∧ ¬ t.Truthful id := by
  have hrun : (exec step opened staleRun).any (fun t =>
      t.held == some (.compare false) && !t.stop && t.registered == some 1 && t.current == some 1 &&
        (t.nodes t.workerId).map Znode.data ==
          some (Json.dumpsBytes (metadata (some "worker-7:50051") "READY")) &&
        t.state == "DRAINING") = true := by
    decide +kernel
  obtain ⟨t, ht, hfields⟩ := (Option.any_eq_true _ _).mp hrun
  simp only [Bool.and_eq_true, beq_iff_eq, Bool.not_eq_true'] at hfields
  obtain ⟨⟨⟨⟨⟨hheld, hstop⟩, hreg⟩, hcur⟩, hnode⟩, hstate⟩ := hfields
  refine ⟨t, ht, hheld, fun htruth => ?_⟩
  obtain ⟨n, hn, -, hdata⟩ := htruth (.inr ⟨false, hheld⟩) hstop 1 hreg hcur
  rw [hn] at hnode
  rw [Option.some.inj hnode, Json.loadsBytes_dumpsBytes id (metadata_plain _ _), hstate] at hdata
  exact absurd (metadata_inj (Option.some.inj hdata)).2 (by decide)

end Inference.Registry.Sys
