import Inference.V73.CrashTransparency
import Inference.V73.Payload

/-!
# Inference.V73.TerminalStability — what happens to a job once it has ended

`_execute` puts `result` into the state before it writes it, and its handler writes the same state
with `error` added.  So when the write of the result is refused by its own path check and the write
of the handler is not, both are persisted (`bothRun_persists`).  In every run without that:

* `Open`: while a call may still write, nothing final is persisted.
* `step_frozen`: once something is, no step changes the state file or sends a request, and no
  collector starts any more.
* **`terminal_stable`**: never both, only final errors, and every later reader gets what is there.
-/

namespace Inference.V73

open Inference.Lib

variable {h : Host} {job : String}

/-- Nothing final is persisted. -/
def Open (file : Option State) : Prop :=
  ∀ st, file = some st → st.result = none ∧ st.error = none

/-- Nothing final in the state in memory. -/
def State.open (st : State) : Prop := st.result = none ∧ st.error = none

/-- The state file: not both, and written for a spec. -/
structure Lasting (h : Host) (w : World) : Prop where
  single : ∀ st, w.file = some st → st.result = none ∨ st.error = none
  owned : ∀ st, w.file = some st → ∃ spec, st.fingerprint = some (h.fingerprint spec)

def Main.Pending (w : World) (st : State) : Main → Prop
  | .checkOut | .recover | .lockModel | .start => Open w.file ∧ st.open
  | _ => True

def Collector.Pending (h : Host) (w : World) (st : State) : Collector → Prop
  | .idle | .closeModel _ | .closeJob _ | .done _ => True
  | .saveError e => Open w.file ∧ st.open ∧ e.final = true ∧
      ∃ spec, st.fingerprint = some (h.fingerprint spec)
  | .writeInit => Open w.file ∧ st.open
  | _ => Open w.file ∧ st.open ∧ ∃ spec, st.fingerprint = some (h.fingerprint spec)

def Call.Pending (h : Host) (w : World) (c : Call) : Prop :=
  c.main.Pending w c.state ∧ c.collector.Pending h w c.state

/-- The write of a result is not refused by the path check of `_write_json`, which is what raises a
`WorkerError` there. -/
def Unrefused (s : Sys) : Event → Prop
  | .collect i io => ∀ c r, s.calls[i]? = some c → c.collector = .saveResult r →
      ∀ e, io.fault = some (.worker e) ∨ io.late = some (.worker e) → e.final = false
  | _ => True

/-! ### The steps of the owner -/

variable {w : World} {st : State}

theorem open_readBack (ho : st.open) : st.readBack.open := by
  obtain ⟨hr, he⟩ := ho
  refine ⟨?_, he⟩
  show st.result.map Json.sortKeys = none
  rw [hr]
  rfl

/-- A write of a state with nothing final leaves nothing final. -/
theorem Open.write (ho : Open w.file) (hst : st.open) (io : Io) :
    Open (writeState w.file st io).1 := by
  unfold writeState
  split
  · exact ho
  · split
    · exact ho
    · intro x hx
      obtain rfl := Option.some.inj hx
      exact open_readBack hst

theorem Lasting.write (hl : Lasting h w) (hsingle : st.result = none ∨ st.error = none)
    (hspec : ∃ spec, st.fingerprint = some (h.fingerprint spec)) (io : Io) :
    Lasting h { w with file := (writeState w.file st io).1 } := by
  have hcases : ∀ x, (writeState w.file st io).1 = some x → w.file = some x ∨ x = st.readBack := by
    intro x hx
    unfold writeState at hx
    split at hx
    · exact Or.inl hx
    · split at hx
      · exact Or.inl hx
      · exact Or.inr (Option.some.inj hx).symm
  constructor
  · intro x hx
    rcases hcases x hx with hx | rfl
    · exact hl.single x hx
    · rcases hsingle with hr | he
      · refine Or.inl ?_
        show st.result.map Json.sortKeys = none
        rw [hr]
        rfl
      · exact Or.inr he
  · intro x hx
    rcases hcases x hx with hx | rfl
    · exact hl.owned x hx
    · exact hspec

theorem pending_failed (ho : Open w.file) (hst : st.open)
    (hspec : ∃ spec, st.fingerprint = some (h.fingerprint spec)) (e : Exn) :
    (failed e).Pending h w st := by
  unfold failed
  split
  · split
    next hfinal => exact ⟨ho, hst, hfinal, hspec⟩
    next => trivial
  · trivial

theorem pending_daemonFailed (sent : Bool) : (daemonFailed sent).Pending h w st := by
  unfold daemonFailed failed WorkerError.final daemonError
  trivial

theorem advances_pending {s : Sys} {c c' : Call} {io : Io} (hidle : c.collector = .idle)
    (hL : c.main.Pending s.toWorld c.state) (ha : Advances h job s io c c') :
    c'.Pending h s.toWorld := by
  have hk : c.collector.Pending h s.toWorld c.state := by rw [hidle]; trivial
  have hk' : ∀ x : State, c.collector.Pending h s.toWorld x := by
    intro x
    rw [hidle]
    trivial
  cases ha with
  | close x e => exact ⟨trivial, hk' _⟩
  | readState hr he =>
    refine ⟨⟨?_, hr, he⟩, hk' _⟩
    intro x hx
    rw [show s.file = some x from hx] at hr he
    exact ⟨hr, he⟩
  | mustRecover hat =>
    rw [hat] at hL
    exact ⟨hL, hk⟩
  | pass hat _ _ =>
    rw [hat] at hL
    exact ⟨hL, hk⟩
  | recover hat r _ =>
    rw [hat] at hL
    exact ⟨hL, hk' _⟩
  | lockModel hat =>
    rw [hat] at hL
    exact ⟨hL, hk⟩
  | start hat =>
    rw [hat] at hL
    exact ⟨trivial, hL⟩

theorem collectStep_pending {s s' : Sys} {i : ℕ} {c c' : Call} {io : Io}
    (hC : Unrefused s (.collect i io)) (hG : Lasting h s.toWorld)
    (hL : c.collector.Pending h s.toWorld c.state) (hs : collectStep h job s i c io = some s')
    (hc : s.calls[i]? = some c) (hc' : s'.calls[i]? = some c') :
    Lasting h s'.toWorld ∧ c'.collector.Pending h s'.toWorld c'.state := by
  have hput : ∀ {w : World} {x : State} {k : Collector} {model : Holder} {lock : Option ℕ},
      some ({ s with toWorld := w, modelLock := model, jobLock := lock }.put i
        { c with state := x, collector := k }) = some s' → Lasting h w →
      k.Pending h w x → Lasting h s'.toWorld ∧ c'.collector.Pending h s'.toWorld c'.state := by
    intro w x k model lock he hlast hpend
    obtain rfl := Option.some.inj he
    rw [getElem?_put_self hc rfl hc']
    exact ⟨hlast, hpend⟩
  unfold collectStep at hs
  split at hs <;> rename_i hk <;> rw [hk] at hL
  case h_1 =>
    obtain ⟨ho, hst⟩ := hL
    refine hput hs (hG.write (by exact Or.inl hst.1) (by exact ⟨c.spec, rfl⟩) io) ?_
    split
    · trivial
    · split <;> exact ⟨Open.write ho (by exact hst) io, hst, c.spec, rfl⟩
  case h_2 =>
    refine hput hs hG ?_
    split
    · exact pending_failed hL.1 hL.2.1 hL.2.2 _
    · split
      · exact pending_failed hL.1 hL.2.1 hL.2.2 _
      · exact hL
  case h_3 =>
    refine hput hs hG ?_
    split
    · exact hL
    · exact pending_failed hL.1 hL.2.1 hL.2.2 _
  case h_4 =>
    refine hput hs hG ?_
    split
    · exact pending_daemonFailed _
    · exact hL
  case h_5 =>
    obtain ⟨ho, hst, hspec⟩ := hL
    refine hput hs (hG.write (by exact Or.inl hst.1) (by exact hspec) io) ?_
    split
    · exact pending_daemonFailed _
    · exact ⟨Open.write ho (by exact hst) io, hst, hspec⟩
  case h_6 =>
    have hpend : ∀ w : World, w.file = s.file → Collector.Pending h w c.state
        (if io.fault.isSome then daemonFailed true else .receive) := by
      intro w hw
      split
      · exact pending_daemonFailed _
      · exact ⟨hw ▸ hL.1, hL.2⟩
    exact hput hs ⟨hG.single, hG.owned⟩ (hpend _ rfl)
  case h_7 =>
    refine hput hs hG ?_
    split
    · exact hL
    · exact pending_daemonFailed _
  case h_8 r =>
    obtain ⟨ho, hst, hspec⟩ := hL
    have hopen : Open (writeState s.file
        { c.state with response := some r, running := some false } io).1 :=
      Open.write ho (by exact hst) io
    refine hput hs (hG.write (by exact Or.inl hst.1) (by exact hspec) io) ?_
    split
    · exact pending_failed hopen hst hspec _
    · exact ⟨hopen, hst, hspec⟩
  case h_9 =>
    refine hput hs hG ?_
    split
    · exact pending_failed hL.1 hL.2.1 hL.2.2 _
    · split
      · exact pending_failed hL.1 hL.2.1 hL.2.2 _
      · exact hL
  case h_10 r =>
    obtain ⟨ho, hst, hspec⟩ := hL
    refine hput hs (hG.write (by exact Or.inr hst.2) (by exact hspec) io) ?_
    split
    next e he =>
      -- an exception here is not one that the handler persists
      have hnot : failed e = .closeModel (.error (outcomeOf e)) := by
        cases e with
        | worker e =>
          have hfinal : e.final = false := by
            refine hC c r hc hk e ?_
            unfold writeState at he
            split at he
            · exact Or.inl he
            · split at he
              · cases he
              · exact Or.inr he
          rw [failed, hfinal]
          rfl
        | value | other => rfl
      rw [hnot]
      trivial
    next => trivial
  case h_11 e =>
    obtain ⟨ho, hst, -, hspec⟩ := hL
    exact hput hs (hG.write (by exact Or.inl hst.1) (by exact hspec) io) trivial
  case h_12 => exact hput hs hG trivial
  case h_13 => exact hput hs hG trivial
  case h_14 => cases hs
  case h_15 => cases hs

/-! ### Every run -/

theorem Main.pending_of_afterStart {m : Main} (hm : m.afterStart = true) : m.Pending w st := by
  cases m <;> trivial

/-- What a call knows here is about the state file only. -/
theorem Call.Pending.congr {w w' : World} {c : Call} (hp : c.Pending h w) (hw : w'.file = w.file) :
    c.Pending h w' := by
  obtain ⟨file, files, daemon, requests⟩ := w
  obtain ⟨file', files', daemon', requests'⟩ := w'
  obtain rfl : file' = file := hw
  obtain ⟨hmain, hcollector⟩ := hp
  constructor
  · cases hm : c.main <;> rw [hm] at hmain <;> exact hmain
  · cases hm : c.collector <;> rw [hm] at hcollector <;> exact hcollector

theorem step_pending {s s' : Sys} {e : Event} (hC : Unrefused s e)
    (hp : Protected h job (Lasting h) (Call.Pending h) s) (hs : step h job s e = some s') :
    Protected h job (Lasting h) (Call.Pending h) s' := by
  refine step_protected (C := Unrefused) ?_ ?_ ?_ ?_ ?_ hC hp hs
  · intro w c _ hidle
    refine ⟨trivial, ?_⟩
    rw [hidle]
    trivial
  · intro s i c c' io _ _ hidle _ hL ha
    exact advances_pending hidle hL.1 ha
  · intro w c m hL _ hm
    exact ⟨Main.pending_of_afterStart hm, hL.2⟩
  · intro s s' i c c' io hC hafter hG hL hc hs hc' hmain
    obtain ⟨hG', hL'⟩ := collectStep_pending hC hG hL.2 hs hc hc'
    refine ⟨hG', ?_, hL'⟩
    rw [hmain]
    exact Main.pending_of_afterStart hafter
  · rintro s w files finished _ hG _ rfl
    exact ⟨⟨hG.single, hG.owned⟩, fun c hL => hL.congr rfl⟩

/-- Something final is persisted. -/
def State.ended (st : State) : Prop := st.result.isSome = true ∨ st.error.isSome = true

theorem not_open_of_ended (hst : st.ended) (hf : w.file = some st) : ¬ Open w.file := by
  intro ho
  obtain ⟨hr, he⟩ := ho st hf
  rcases hst with hst | hst
  · rw [hr] at hst
    cases hst
  · rw [he] at hst
    cases hst

/-- Only `collector.start()` gives a call a collector. -/
theorem mainStep_collector {s s' : Sys} {i : ℕ} {c c' : Call} {io : Io}
    (hs : mainStep h job s i c io = some s') (hc : s.calls[i]? = some c)
    (hc' : s'.calls[i]? = some c') : c'.collector = c.collector ∨ c.main = .start := by
  have hput : ∀ {x : Call} {model : Holder} {lock : Option ℕ},
      some ({ s with modelLock := model, jobLock := lock }.put i x) = some s' → c' = x := by
    intro x model lock he
    obtain rfl := Option.some.inj he
    exact getElem?_put_self hc rfl hc'
  unfold mainStep at hs
  split at hs
  case h_14 hm _ => exact Or.inr hm
  all_goals
    repeat' split at hs
    all_goals first
      | exact Or.inl (by rw [hput hs])
      | cases hs

/-- The state file, the requests and the calls without a collector stay as they are. -/
structure Frozen (s t : Sys) : Prop where
  file : t.file = s.file
  requests : t.requests = s.requests
  idle : ∀ (i : ℕ) (c : Call), t.calls[i]? = some c →
    (∀ c₀, s.calls[i]? = some c₀ → c₀.collector = .idle) → c.collector = .idle

theorem Frozen.refl (s : Sys) : Frozen s s := ⟨rfl, rfl, fun _ c hc h₀ => h₀ c hc⟩

theorem Frozen.of_set {s s' : Sys} {i : ℕ} {c c' : Call} (hw : s'.file = s.file)
    (hr : s'.requests = s.requests) (hc : s.calls[i]? = some c)
    (hcalls : s'.calls = s.calls.set i c') (hk : c.collector = .idle → c'.collector = .idle) :
    Frozen s s' := by
  refine ⟨hw, hr, ?_⟩
  intro j x hx h₀
  rcases getElem?_put hc hcalls hx with ⟨rfl, rfl⟩ | ⟨_, hx⟩
  · exact hk (h₀ c hc)
  · exact h₀ x hx

/-- **After the end.**  Once something final is persisted no step writes, sends or starts a
collector. -/
theorem step_frozen {s s' : Sys} {e : Event}
    (hp : Protected h job (Lasting h) (Call.Pending h) s) (hf : s.file = some st)
    (hst : st.ended) (hs : step h job s e = some s') : Frozen s s' := by
  have hclosed : ¬ Open s.file := not_open_of_ended hst hf
  cases step_cases hs with
  | process =>
    refine ⟨rfl, rfl, ?_⟩
    intro j x hx h₀
    rcases getElem?_concat hx with hx | rfl
    · exact h₀ x hx
    · rfl
  | @main i io c s' hc ha hs =>
    obtain ⟨hw, c', hm⟩ := mainStep_moves (hp.base.phased i c hc) hs
    have hc' : s'.calls[i]? = some c' := by
      rw [hm.calls, List.getElem?_set_self (List.getElem?_eq_some_iff.mp hc).1]
    refine .of_set (congrArg World.file hw) (congrArg World.requests hw) hc hm.calls ?_
    intro hk
    rcases mainStep_collector hs hc hc' with hk' | hstart
    · rw [hk', hk]
    · -- a call at `collector.start()` owns the lock and found nothing final
      have hL := (hp.owner i c hc ha (by rw [Call.holds, hstart]; rfl)).1
      rw [hstart] at hL
      exact absurd hL.1 hclosed
  | @collect i io c s' hc ha hs =>
    obtain ⟨hk, -⟩ := collectStep_moves (hp.base.phased i c hc) hs
    have hL := (hp.owner i c hc ha (by rw [Call.holds, hk, Bool.or_true])).2
    unfold collectStep at hs
    split at hs <;> rename_i hcol <;> rw [hcol] at hL
    case h_12 =>
      obtain rfl := Option.some.inj hs
      refine .of_set rfl rfl hc rfl ?_
      intro hidle
      rw [hidle] at hcol
      cases hcol
    case h_13 =>
      obtain rfl := Option.some.inj hs
      refine .of_set rfl rfl hc rfl ?_
      intro hidle
      rw [hidle] at hcol
      cases hcol
    case h_14 => cases hs
    case h_15 => cases hs
    all_goals exact absurd hL.1 hclosed
  | kill p =>
    refine ⟨rfl, rfl, ?_⟩
    intro j x hx h₀
    simp only [List.getElem?_map, Option.map_eq_some_iff] at hx
    obtain ⟨c, hc, rfl⟩ := hx
    rw [Call.killed_collector]
    exact h₀ c hc
  | takes | gives => exact ⟨rfl, rfl, fun _ c hc h₀ => h₀ c hc⟩
  | daemon files finished hout =>
    exact ⟨rfl, rfl, fun _ c hc h₀ => h₀ c hc⟩

theorem Frozen.trans {r s t : Sys} (hrs : Frozen r s) (hst : Frozen s t) : Frozen r t :=
  ⟨hst.file.trans hrs.file, hst.requests.trans hrs.requests,
    fun i c hc h₀ => hst.idle i c hc fun c₁ hc₁ => hrs.idle i c₁ hc₁ h₀⟩

theorem exec_frozen {s t : Sys} {es : List Event}
    (hp : Protected h job (Lasting h) (Call.Pending h) s) (hf : s.file = some st)
    (hst : st.ended) (hC : Meets (step h job) Unrefused s es)
    (hrun : exec (step h job) s es = some t) :
    Protected h job (Lasting h) (Call.Pending h) t ∧ Frozen s t := by
  refine exec_inv_meets (P := fun t => Protected h job (Lasting h) (Call.Pending h) t ∧ Frozen s t)
    ?_ hC ⟨hp, .refl s⟩ hrun
  rintro a e b hCe ⟨hpa, hfa⟩ hs
  exact ⟨step_pending hCe hpa hs, hfa.trans (step_frozen hpa (hfa.file.trans hf) hst hs)⟩

theorem writeState_error {x : Code × String} {io : Io}
    (hx : (writeState w.file st io).1.bind State.error = some x) :
    w.file.bind State.error = some x ∨ st.error = some x := by
  unfold writeState at hx
  split at hx
  · exact Or.inl hx
  · split at hx
    · exact Or.inl hx
    · exact Or.inr hx

/-- An error gets into the state file when the handler of `_execute` writes it. -/
theorem error_written {s s' : Sys} {e : Event}
    (hp : Protected h job (Lasting h) (Call.Pending h) s) (hs : step h job s e = some s')
    {x : Code × String} (hx : s'.file.bind State.error = some x) :
    s.file.bind State.error = some x ∨
      ∃ (i : ℕ) (io : Io) (c : Call) (w : WorkerError), e = .collect i io ∧
        s.calls[i]? = some c ∧ c.collector = .saveError w ∧ w.retryable = false ∧
        w.code ≠ .deadlineExceeded ∧ x = (w.code, w.message) := by
  have hsame : s'.file = s.file → s.file.bind State.error = some x := by
    intro hf
    rw [← hf]
    exact hx
  cases step_cases hs with
  | process =>
    exact Or.inl hx
  | @main i io c s' hc _ hs =>
    obtain ⟨hw, -⟩ := mainStep_moves (hp.base.phased i c hc) hs
    exact Or.inl (hsame (congrArg World.file hw))
  | @collect i io c s' hc ha hs =>
    obtain ⟨hk, -⟩ := collectStep_moves (hp.base.phased i c hc) hs
    have hL := (hp.owner i c hc ha (by rw [Call.holds, hk, Bool.or_true])).2
    -- a write other than the handler's puts a state without an error
    have hwrite : ∀ st : State, c.state.open →
        (writeState s.file st io).1.bind State.error = some x →
        st.error = c.state.error → s.file.bind State.error = some x := by
      intro st ho hx hst
      rcases writeState_error hx with hx | hx
      · exact hx
      · rw [hst, ho.2] at hx
        cases hx
    unfold collectStep at hs
    split at hs <;> rename_i hcol <;> rw [hcol] at hL
    case h_1 =>
      obtain rfl := Option.some.inj hs
      exact Or.inl (hwrite _ hL.2 hx rfl)
    case h_5 =>
      obtain rfl := Option.some.inj hs
      exact Or.inl (hwrite _ hL.2.1 hx rfl)
    case h_8 r =>
      obtain rfl := Option.some.inj hs
      exact Or.inl (hwrite _ hL.2.1 hx rfl)
    case h_10 r =>
      obtain rfl := Option.some.inj hs
      exact Or.inl (hwrite _ hL.2.1 hx rfl)
    case h_11 e =>
      obtain rfl := Option.some.inj hs
      rcases writeState_error hx with hx | hx
      · exact Or.inl hx
      · have hfinal := hL.2.2.1
        simp only [WorkerError.final, Bool.and_eq_true, Bool.not_eq_true', bne_iff_ne] at hfinal
        exact Or.inr ⟨i, io, c, e, rfl, hc, hcol, hfinal.1, hfinal.2,
          (Option.some.inj hx).symm⟩
    case h_14 => cases hs
    case h_15 => cases hs
    all_goals
      obtain rfl := Option.some.inj hs
      exact Or.inl hx
  | kill p =>
    exact Or.inl hx
  | takes | gives => exact Or.inl hx
  | daemon files finished hout =>
    exact Or.inl hx

/-! ### What a later call answers -/

/-- What `process` returns or raises; at `closeJob` only the close is left. -/
def Main.answer : Main → Option (Except Exn Json)
  | .returned r => some (.ok r)
  | .closeJob e | .raised e => some (.error e)
  | _ => none

/-- What is persisted in `st` for `spec`, told to a call with `other`. -/
inductive Replay (spec : Spec) (st : State) (other : Spec) : Except Exn Json → Prop where
  | result {r : Json} (hspec : other = spec) (hr : st.result = some r) : Replay spec st other (.ok r)
  | error {code : Code} {message : String} (hspec : other = spec)
      (he : st.error = some (code, message)) :
      Replay spec st other (.error (.worker { code, message }))
  | conflict (hspec : other ≠ spec) : Replay spec st other (.error (.worker specConflict))

theorem afterRead_answer (hinj : Function.Injective h.fingerprint) {spec other : Spec}
    (hspec : st.fingerprint = some (h.fingerprint spec)) (hst : st.ended) :
    ∃ o, Replay spec st other o ∧ (afterRead (h.fingerprint other) st).answer = some o := by
  have hempty : st.isEmpty = false := by rw [State.isEmpty, hspec]; rfl
  by_cases heq : other = spec
  · have hguard : ¬ ((!st.isEmpty && decide (st.fingerprint ≠ some (h.fingerprint other))) = true) := by
      rw [hspec, heq]
      simp
    rw [afterRead, if_neg hguard]
    cases hr : st.result with
    | some r => exact ⟨_, .result heq hr, rfl⟩
    | none =>
      cases he : st.error with
      | some e => exact ⟨_, .error heq he, rfl⟩
      | none =>
        rw [State.ended, hr, he] at hst
        simp at hst
  · have hguard : (!st.isEmpty && decide (st.fingerprint ≠ some (h.fingerprint other))) = true := by
      rw [hspec, hempty]
      have hne : h.fingerprint spec ≠ h.fingerprint other := fun he => heq (hinj he).symm
      simpa using hne
    rw [afterRead, if_pos hguard]
    exact ⟨_, .conflict heq, rfl⟩

/-- An answer is given once. -/
theorem step_answer {s s' : Sys} {e : Event} {i : ℕ} {c : Call} {o : Except Exn Json}
    (hb : Base h job s) (hs : step h job s e = some s') (hc : s.calls[i]? = some c)
    (ho : c.main.answer = some o) : ∃ c', s'.calls[i]? = some c' ∧ c'.main.answer = some o := by
  -- the call that moves, and the others
  have hmoved : ∀ {j : ℕ} {x x' : Call}, s.calls[j]? = some x → s'.calls = s.calls.set j x' →
      (x.main.answer = some o → x'.main.answer = some o) →
      ∃ c', s'.calls[i]? = some c' ∧ c'.main.answer = some o := by
    intro j x x' hx hcalls hanswer
    rw [hcalls]
    by_cases hij : i = j
    · subst hij
      obtain rfl : c = x := Option.some.inj (hc.symm.trans hx)
      exact ⟨x', List.getElem?_set_self (List.getElem?_eq_some_iff.mp hc).1, hanswer ho⟩
    · exact ⟨c, by rw [List.getElem?_set_ne (Ne.symm hij), hc], ho⟩
  cases step_cases hs with
  | process =>
    exact ⟨c, by rw [List.getElem?_append_left (List.getElem?_eq_some_iff.mp hc).1, hc], ho⟩
  | @main j io x s' hx _ hs =>
    obtain ⟨-, x', hm⟩ := mainStep_moves (hb.phased j x hx) hs
    refine hmoved hx hm.calls ?_
    intro hanswer
    have hx' : s'.calls[j]? = some x' := by
      rw [hm.calls, List.getElem?_set_self (List.getElem?_eq_some_iff.mp hx).1]
    cases hmain : x.main <;> rw [hmain] at hanswer
    case closeJob e =>
      simp only [mainStep, hmain] at hs
      obtain rfl := Option.some.inj hs
      rw [getElem?_put_self hx rfl hx']
      exact hanswer
    case returned r =>
      simp only [mainStep, hmain] at hs
      cases hs
    case raised e =>
      simp only [mainStep, hmain] at hs
      cases hs
    all_goals cases hanswer
  | @collect j io x s' hx _ hs =>
    obtain ⟨-, x', hmain, hm⟩ := collectStep_moves (hb.phased j x hx) hs
    refine hmoved hx hm.calls ?_
    rw [hmain]
    exact id
  | kill p =>
    refine ⟨c.killed p, by simp [hc], ?_⟩
    rw [Call.killed_main, ho]
  | takes | gives => exact ⟨c, hc, ho⟩
  | daemon files finished hout =>
    exact ⟨c, hc, ho⟩

/-- A call that has the lock and reads the state file. -/
theorem readState_answer (job : String) (hinj : Function.Injective h.fingerprint) {s : Sys}
    {spec : Spec} (hf : s.file = some st) (hspec : st.fingerprint = some (h.fingerprint spec))
    (hst : st.ended) {i : ℕ} {c : Call} {io : Io} (hc : s.calls[i]? = some c) (ha : c.alive = true)
    (hm : c.main = .readState) (hio : io.fault = none) :
    ∃ o s' c', Replay spec st c.spec o ∧ step h job s (.main i io) = some s' ∧
      s'.toWorld = s.toWorld ∧ s'.calls[i]? = some c' ∧ c'.main.answer = some o := by
  obtain ⟨o, ho, hanswer⟩ :
      ∃ o, Replay spec st c.spec o ∧ (afterRead (h.fingerprint c.spec) st).answer = some o :=
    afterRead_answer hinj hspec hst
  have hstep : step h job s (.main i io) =
      some (s.put i { c with state := st, main := afterRead (h.fingerprint c.spec) st }) := by
    simp only [step, hc, ha, if_true, mainStep, hm, hio, hf, Option.getD_some]
  refine ⟨o, _, { c with state := st, main := afterRead (h.fingerprint c.spec) st }, ho, hstep, rfl,
    ?_, hanswer⟩
  exact List.getElem?_set_self (List.getElem?_eq_some_iff.mp hc).1

theorem exec_answer {s t : Sys} {es : List Event} {i : ℕ} {c : Call} {o : Except Exn Json}
    (hp : Protected h job Sound Call.Knows s) (hrun : exec (step h job) s es = some t)
    (hc : s.calls[i]? = some c) (ho : c.main.answer = some o) :
    ∃ c', t.calls[i]? = some c' ∧ c'.main.answer = some o := by
  have hinv := exec_inv (P := fun t => Protected h job Sound Call.Knows t ∧
    ∃ c', t.calls[i]? = some c' ∧ c'.main.answer = some o) ?_ ⟨hp, c, hc, ho⟩ hrun
  · exact hinv.2
  · rintro a e b ⟨hpa, x, hx, hxo⟩ hs
    exact ⟨step_knows hpa hs, step_answer hpa.base hs hx hxo⟩

/-- **An ended job stays ended.**  In every run in which no write of a result is refused: the state
file never has both a result and an error; an error gets into it only for a `WorkerError` that is
final; and once it has either, nothing is written, sent or started any more, and every call that has
the lock and reads the file tells what is there, or `spec_conflict` for another spec. -/
theorem terminal_stable (hinj : Function.Injective h.fingerprint) (files : FileSystem)
    {es : List Event} {s : Sys} (hC : Meets (step h job) Unrefused (Sys.init files) es)
    (hrun : exec (step h job) (Sys.init files) es = some s) :
    (∀ st, s.file = some st → st.result = none ∨ st.error = none) ∧
    (∀ (e : Event) (s' : Sys) (x : Code × String), step h job s e = some s' →
      s'.file.bind State.error = some x → s.file.bind State.error = some x ∨
        ∃ (i : ℕ) (io : Io) (c : Call) (w : WorkerError), e = .collect i io ∧
          s.calls[i]? = some c ∧ c.collector = .saveError w ∧ w.retryable = false ∧
          w.code ≠ .deadlineExceeded ∧ x = (w.code, w.message)) ∧
    ∀ st, s.file = some st → st.ended → ∃ spec, st.fingerprint = some (h.fingerprint spec) ∧
      ∀ (later : List Event) (t : Sys), Meets (step h job) Unrefused s later →
        exec (step h job) s later = some t → Frozen s t ∧
        ∀ (i : ℕ) (c : Call) (io : Io), t.calls[i]? = some c → c.alive = true →
          c.main = .readState → io.fault = none →
          ∃ o t', Replay spec st c.spec o ∧ step h job t (.main i io) = some t' ∧
            t'.toWorld = t.toWorld ∧
            ∀ (rest : List Event) (u : Sys), exec (step h job) t' rest = some u →
              ∃ c', u.calls[i]? = some c' ∧ c'.main.answer = some o := by
  have hsound : Sound { files } := ⟨fun hne => absurd rfl hne, Nat.zero_le 1, by simp⟩
  have hknows : ∀ {es : List Event} {t : Sys}, exec (step h job) (Sys.init files) es = some t →
      Protected h job Sound Call.Knows t :=
    fun hrun => exec_inv (fun _ _ _ hp hs => step_knows hp hs) (protected_init hsound) hrun
  have hlasting : Lasting h { files } := ⟨by simp, by simp⟩
  have hp : Protected h job (Lasting h) (Call.Pending h) s :=
    exec_inv_meets (fun _ _ _ hCe hp hs => step_pending hCe hp hs) hC (protected_init hlasting) hrun
  refine ⟨hp.shared.single, ?_, ?_⟩
  · intro e s' x hs hx
    exact error_written hp hs hx
  intro st hf hst
  obtain ⟨spec, hspec⟩ := hp.shared.owned st hf
  refine ⟨spec, hspec, fun later t hlater ht => ?_⟩
  obtain ⟨-, hfrozen⟩ := exec_frozen hp hf hst hlater ht
  refine ⟨hfrozen, fun i c io hc ha hm hio => ?_⟩
  obtain ⟨o, t', c', ho, hstep, hw, hc', hanswer⟩ :=
    readState_answer job hinj (hfrozen.file.trans hf) hspec hst hc ha hm hio
  refine ⟨o, t', ho, hstep, hw, fun rest u hu => ?_⟩
  have hall := exec_append.mpr ⟨t, exec_append.mpr ⟨s, hrun, ht⟩, exec_cons.mpr ⟨t', hstep, exec_nil t'⟩⟩
  exact exec_answer (hknows hall) hu hc' hanswer

/-! A call that ends with a result, and the same call with a write that is refused. -/

def textHost : Host := { noteHost with fingerprint := Spec.fingerprint textLibrary }

/-- The call up to the write of its result. -/
def uploadedRun : List Event :=
  .process 0 killSpec :: (mains 0 6 ++ (List.replicate 6 (.collect 0 (cleanIo noteScene)) ++
    .daemon noteFiles true :: List.replicate 3 (.collect 0 (cleanIo noteScene))))

def endedRun : List Event := uploadedRun ++ [.collect 0 (cleanIo noteScene)]

/-- The path of `state.json` has a symlink while the result is written, and none any more when the
handler writes. -/
def bothRun : List Event :=
  uploadedRun ++ [.collect 0 { fault := some (.worker
    { code := .invalidArtifacts
      message := "local path is outside deployment or contains a symlink" }) },
    .collect 0 (cleanIo noteScene)]

theorem bothRun_persists :
    ¬ ∀ (es : List Event) (s : Sys), exec (step textHost "job") (Sys.init emptyFiles) es = some s →
      ∀ st, s.file = some st → st.result = none ∨ st.error = none := by
  have hboth : (exec (step textHost "job") (Sys.init emptyFiles) bothRun).any (fun s =>
      s.file.any fun st => st.result.isSome && st.error.isSome) = true := by
    decide +kernel
  intro hall
  obtain ⟨s, hs, hfile⟩ := (Option.any_eq_true _ _).mp hboth
  obtain ⟨st, hst, hended⟩ := (Option.any_eq_true _ _).mp hfile
  rw [Bool.and_eq_true] at hended
  rcases hall bothRun s hs st hst with h | h
  · rw [h] at hended
    cases hended.1
  · rw [h] at hended
    cases hended.2

/-- No operation raises. -/
def Event.quiet : Event → Bool
  | .collect _ io => io.fault.isNone && io.late.isNone
  | _ => true

theorem unrefused_of_quiet {s : Sys} {e : Event} (he : e.quiet = true) : Unrefused s e := by
  cases e with
  | collect i io =>
    rw [Event.quiet, Bool.and_eq_true, Option.isNone_iff_eq_none, Option.isNone_iff_eq_none] at he
    intro c r _ _ e hw
    rw [he.1, he.2] at hw
    simp at hw
  | process _ _ | main _ _ | kill _ | otherJob _ | daemon _ _ => trivial

theorem textHost_injective : Function.Injective textHost.fingerprint := by
  have hhost : textHost.fingerprint = Spec.fingerprint textLibrary := by rw [textHost]
  have hsha : Function.Injective textLibrary.sha256 := bytesText_injective
  rw [hhost]
  exact Spec.fingerprint_injective hsha

theorem meets_endedRun :
    Meets (step textHost "job") Unrefused (Sys.init emptyFiles) endedRun := by
  have hquiet : endedRun.all Event.quiet = true := by decide +kernel
  exact meets_of_forall (fun e he _ => unrefused_of_quiet (List.all_eq_true.mp hquiet e he)) _

theorem terminal_stable_endedRun :
    ∃ s st spec, exec (step textHost "job") (Sys.init emptyFiles) endedRun = some s ∧
      s.file = some st ∧ st.ended ∧ st.fingerprint = some (textHost.fingerprint spec) ∧
      ∀ later t, Meets (step textHost "job") Unrefused s later →
        exec (step textHost "job") s later = some t → Frozen s t := by
  have hended : (exec (step textHost "job") (Sys.init emptyFiles) endedRun).any (fun s =>
      s.file.any fun st => st.result.isSome) = true := by
    decide +kernel
  obtain ⟨s, hs, hfile⟩ := (Option.any_eq_true _ _).mp hended
  obtain ⟨st, hst, hresult⟩ := (Option.any_eq_true _ _).mp hfile
  obtain ⟨spec, hspec, hlater⟩ :=
    (terminal_stable textHost_injective emptyFiles meets_endedRun hs).2.2 st hst (Or.inl hresult)
  exact ⟨s, st, spec, hs, hst, Or.inl hresult, hspec, fun later t hm ht => (hlater later t hm ht).1⟩

end Inference.V73
