import Inference.V73.Worker

/-!
# Inference.V73.Ownership — only the holder of `job.lock` touches the job

* `Base`: a call past `job.lock` and not yet past its `os.close` owns the lock, a collector runs
  only under a waiting or finished `process`, and an output directory seen is still there.
* `mainStep_moves`, `collectStep_moves`: what one operation does to the locks and the call.
* `step_protected`: **the rule for what the lock protects.**  A property `G` of the shared files and
  a property `L` of what the owner of the lock knows are kept by every run when the owner's own
  steps and the daemon's keep them.
-/

namespace Inference.V73

open Inference.Lib

variable {h : Host} {job : String}

/-- `process` is between `job.lock` and the collector. -/
def Main.holds : Main → Bool
  | .readState | .checkOut | .recover | .lockModel | .start | .closeJob _ => true
  | _ => false

/-- `process` has started the collector, or is over. -/
def Main.afterStart : Main → Bool
  | .wait | .returned _ | .raised _ => true
  | _ => false

def Collector.isIdle : Collector → Bool
  | .idle => true
  | _ => false

/-- The collector runs and has not closed `job_lock` yet. -/
def Collector.holds : Collector → Bool
  | .idle | .done _ => false
  | _ => true

def Call.holds (c : Call) : Bool := c.main.holds || c.collector.holds

theorem Collector.holds_failed (e : Exn) : (failed e).holds = true := by
  unfold failed
  split
  · split <;> rfl
  · rfl

theorem Collector.isIdle_failed (e : Exn) : (failed e).isIdle = false := by
  unfold failed
  split
  · split <;> rfl
  · rfl

theorem Collector.holds_of_isIdle {k : Collector} (hk : k.isIdle = true) : k.holds = false := by
  cases k <;> first | rfl | cases hk

theorem Collector.eq_idle {k : Collector} (hk : k.isIdle = false → False) : k = .idle := by
  cases k <;> first | rfl | exact (hk rfl).elim

theorem Collector.not_isIdle_of_holds {k : Collector} (hk : k.holds = true) : k.isIdle = false := by
  cases k <;> first | rfl | cases hk

structure Base (h : Host) (job : String) (s : Sys) : Prop where
  owner : ∀ (i : ℕ) (c : Call), s.calls[i]? = some c → c.alive = true → c.holds = true →
    s.jobLock = some i
  phased : ∀ (i : ℕ) (c : Call), s.calls[i]? = some c → c.collector.isIdle = false →
    c.main.afterStart = true
  seen : ∀ (i : ℕ) (c : Call), s.calls[i]? = some c → c.outAtStart = true →
    s.files.present (outDir h job) = true

/-- What one operation of call `i` does to `job.lock`, from `lock` to `lock'`. -/
inductive LockMove (i : ℕ) (c c' : Call) (lock lock' : Option ℕ) : Prop where
  | keep (hlock : lock' = lock) (hholds : c'.holds = true → c.holds = true)
  | take (hfree : lock = none) (htaken : lock' = some i)
      (hcall : c' = { c with main := .readState })
  | drop (hfree : lock' = none) (hheld : c.holds = true) (hdone : c'.holds = false)

/-- What one operation of call `i` does besides its effect on the shared files. -/
structure Moves (i : ℕ) (c c' : Call) (s s' : Sys) : Prop where
  calls : s'.calls = s.calls.set i c'
  files : s'.files = s.files
  proc : c'.proc = c.proc
  spec : c'.spec = c.spec
  alive : c'.alive = c.alive
  seen : c'.outAtStart = c.outAtStart
  phased : c'.collector.isIdle = false → c'.main.afterStart = true
  lock : LockMove i c c' s.jobLock s'.jobLock

/-- A move of `process` before the collector exists, at a point that holds the lock or not. -/
theorem moves_main {s : Sys} {i : ℕ} {c : Call} (hidle : c.collector.isIdle = true)
    (st : State) {m : Main} (model : Holder) (hholds : m.holds = true → c.main.holds = true) :
    Moves i c { c with state := st, main := m } s
      ({ s with modelLock := model }.put i { c with state := st, main := m }) := by
  refine ⟨rfl, rfl, rfl, rfl, rfl, rfl, ?_, .keep rfl ?_⟩
  · intro hk
    rw [show c.collector.isIdle = false from hk] at hidle
    cases hidle
  · intro hm
    rw [Call.holds, Bool.or_eq_true] at hm ⊢
    rcases hm with hm | hm
    · exact Or.inl (hholds hm)
    · exact Or.inr hm

/-- `process` touches no shared file. -/
theorem mainStep_moves {s s' : Sys} {i : ℕ} {c : Call} {io : Io}
    (hphased : c.collector.isIdle = false → c.main.afterStart = true)
    (hs : mainStep h job s i c io = some s') :
    s'.toWorld = s.toWorld ∧ ∃ c', Moves i c c' s s' := by
  -- before the collector starts there is none, and afterwards only `wait` is left
  have hidle : c.main.afterStart = false → c.collector.isIdle = true := by
    intro hm
    by_contra hk
    rw [hphased (by simpa using hk)] at hm
    cases hm
  have hmove : ∀ (st : State) (m : Main) (model : Holder), c.main.afterStart = false →
      (m.holds = true → c.main.holds = true) →
      some ({ s with modelLock := model }.put i { c with state := st, main := m }) = some s' →
      s'.toWorld = s.toWorld ∧ ∃ c', Moves i c c' s s' := by
    intro st m model hm hh he
    rw [← Option.some.inj he]
    exact ⟨rfl, _, moves_main (hidle hm) st model hh⟩
  -- the moves between two points with the lock, and those that never had it
  have hheld : ∀ (st : State) (m : Main) (model : Holder), c.main.holds = true →
      some ({ s with modelLock := model }.put i { c with state := st, main := m }) = some s' →
      s'.toWorld = s.toWorld ∧ ∃ c', Moves i c c' s s' := by
    intro st m model hh he
    refine hmove st m model ?_ (fun _ => hh) he
    cases hm : c.main <;> first | rfl | (rw [hm] at hh; cases hh)
  have hfree : ∀ (m : Main), c.main.afterStart = false → m.holds = false →
      some (s.put i { c with main := m }) = some s' →
      s'.toWorld = s.toWorld ∧ ∃ c', Moves i c c' s s' := by
    intro m hm hh he
    refine hmove c.state m s.modelLock hm ?_ he
    rw [hh]
    nofun
  unfold mainStep at hs
  split at hs
  next hm _ => exact hfree _ (by rw [hm]; rfl) rfl hs
  next hm _ => exact hfree _ (by rw [hm]; rfl) (by split <;> rfl) hs
  next hm _ => exact hfree _ (by rw [hm]; rfl) rfl hs
  next hm _ =>
    split at hs
    next hnone =>
      obtain rfl := Option.some.inj hs
      refine ⟨rfl, _, rfl, rfl, rfl, rfl, rfl, rfl, ?_, .take hnone rfl rfl⟩
      intro hk
      have hi := hidle (by rw [hm]; rfl)
      rw [show c.collector.isIdle = false from hk] at hi
      cases hi
    next => exact hfree _ (by rw [hm]; rfl) rfl hs
  next hm _ => exact hheld c.state _ s.modelLock (by rw [hm]; rfl) hs
  next hm _ => exact hheld _ _ s.modelLock (by rw [hm]; rfl) hs
  next hm _ => exact hheld c.state _ s.modelLock (by rw [hm]; rfl) hs
  next hm _ =>
    repeat' split at hs
    all_goals exact hheld c.state _ s.modelLock (by rw [hm]; rfl) hs
  next hm _ => exact hheld c.state _ s.modelLock (by rw [hm]; rfl) hs
  next hm _ =>
    repeat' split at hs
    all_goals exact hheld _ _ s.modelLock (by rw [hm]; rfl) hs
  next hm _ => exact hheld c.state _ s.modelLock (by rw [hm]; rfl) hs
  next hm _ =>
    split at hs
    all_goals exact hheld c.state _ _ (by rw [hm]; rfl) hs
  next hm _ => exact hheld c.state _ s.modelLock (by rw [hm]; rfl) hs
  next hm _ =>
    -- the collector takes the lock over
    obtain rfl := Option.some.inj hs
    refine ⟨rfl, _, rfl, rfl, rfl, rfl, rfl, rfl, fun _ => rfl, .keep rfl fun _ => ?_⟩
    rw [Call.holds, hm]
    rfl
  next hm _ =>
    have hover : ∀ m : Main, m.afterStart = true → m.holds = false →
        some (s.put i { c with main := m }) = some s' →
        s'.toWorld = s.toWorld ∧ ∃ c', Moves i c c' s s' := by
      intro m ha hh he
      obtain rfl := Option.some.inj he
      refine ⟨rfl, _, rfl, rfl, rfl, rfl, rfl, rfl, fun _ => ha, .keep rfl fun hc => ?_⟩
      rw [Call.holds] at hc ⊢
      rw [show ({ c with main := m } : Call).main = m from rfl, hh, Bool.false_or] at hc
      rw [show c.collector.holds = true from hc, Bool.or_true]
    repeat' split at hs
    · exact hover _ rfl rfl hs
    · exact hover _ rfl rfl hs
    · exact hover _ rfl rfl hs
    · cases hs
  next e _ hm =>
    obtain rfl := Option.some.inj hs
    have hi := hidle (by rw [hm]; rfl)
    refine ⟨rfl, _, rfl, rfl, rfl, rfl, rfl, rfl, fun _ => rfl, .drop rfl ?_ ?_⟩
    · rw [Call.holds, hm]
      rfl
    · exact Collector.holds_of_isIdle hi
  next => cases hs
  next => cases hs

theorem Main.not_holds_of_afterStart {m : Main} (hm : m.afterStart = true) : m.holds = false := by
  cases m <;> first | rfl | cases hm

/-- A step of the collector that keeps it within the lock. -/
theorem moves_collect {s : Sys} {i : ℕ} {c : Call} (hafter : c.main.afterStart = true)
    (hheld : c.collector.holds = true) (w : World) (hfiles : w.files = s.files) (st : State)
    (k : Collector) (model : Holder) :
    Moves i c { c with state := st, collector := k } s
      ({ s with toWorld := w, modelLock := model }.put i { c with state := st, collector := k }) := by
  refine ⟨rfl, hfiles, rfl, rfl, rfl, rfl, fun _ => hafter, .keep rfl fun _ => ?_⟩
  rw [Call.holds, hheld, Bool.or_true]

/-- Only a collector that holds the lock takes a step. -/
theorem collectStep_moves {s s' : Sys} {i : ℕ} {c : Call} {io : Io}
    (hphased : c.collector.isIdle = false → c.main.afterStart = true)
    (hs : collectStep h job s i c io = some s') :
    c.collector.holds = true ∧ ∃ c', c'.main = c.main ∧ Moves i c c' s s' := by
  have hheld : c.collector.holds = true := by
    unfold collectStep at hs
    cases hk : c.collector <;> first | rfl | (rw [hk] at hs; cases hs)
  have hafter := hphased (Collector.not_isIdle_of_holds hheld)
  refine ⟨hheld, ?_⟩
  have hkeep : ∀ (w : World) (st : State) (k : Collector) (model : Holder),
      some ({ s with toWorld := w, modelLock := model }.put i
        { c with state := st, collector := k }) = some s' → w.files = s.files →
      ∃ c', c'.main = c.main ∧ Moves i c c' s s' := by
    intro w st k model he hw
    obtain rfl := Option.some.inj he
    exact ⟨{ c with state := st, collector := k }, rfl,
      moves_collect hafter hheld w hw st k model⟩
  unfold collectStep at hs
  split at hs
  case h_13 o hk =>
    -- `os.close(job_lock)`
    obtain rfl := Option.some.inj hs
    refine ⟨{ c with collector := .done o }, rfl, rfl, rfl, rfl, rfl, rfl, rfl, fun _ => hafter,
      .drop rfl ?_ ?_⟩
    · rw [Call.holds, hheld, Bool.or_true]
    · exact Bool.or_eq_false_iff.mpr ⟨Main.not_holds_of_afterStart hafter, rfl⟩
  case h_14 => cases hs
  case h_15 => cases hs
  all_goals exact hkeep _ _ _ _ hs rfl

/-! ### The invariants of the lock -/

theorem getElem?_put {s s' : Sys} {i j : ℕ} {c c' x : Call} (hc : s.calls[i]? = some c)
    (hcalls : s'.calls = s.calls.set i c') (hx : s'.calls[j]? = some x) :
    (j = i ∧ x = c') ∨ (j ≠ i ∧ s.calls[j]? = some x) := by
  rw [hcalls] at hx
  by_cases hij : j = i
  · subst hij
    rw [List.getElem?_set_self (List.getElem?_eq_some_iff.mp hc).1] at hx
    exact Or.inl ⟨rfl, (Option.some.inj hx).symm⟩
  · rw [List.getElem?_set_ne (Ne.symm hij)] at hx
    exact Or.inr ⟨hij, hx⟩

theorem Base.moves {s s' : Sys} {i : ℕ} {c c' : Call} (hb : Base h job s)
    (hc : s.calls[i]? = some c) (hm : Moves i c c' s s') (ha : c.alive = true) :
    Base h job s' := by
  constructor
  · intro j x hx hxa hxh
    rcases getElem?_put hc hm.calls hx with ⟨rfl, rfl⟩ | ⟨hj, hx⟩
    · cases hm.lock with
      | keep hlock hholds => rw [hlock]; exact hb.owner j c hc ha (hholds hxh)
      | take _ htaken _ => exact htaken
      | drop _ _ hdone => rw [hdone] at hxh; cases hxh
    · have hown := hb.owner j x hx hxa hxh
      cases hm.lock with
      | keep hlock _ => rw [hlock]; exact hown
      | take hfree _ _ => rw [hfree] at hown; cases hown
      | drop _ hheld _ =>
        rw [hb.owner i c hc ha hheld] at hown
        exact absurd (Option.some.inj hown).symm hj
  · intro j x hx
    rcases getElem?_put hc hm.calls hx with ⟨rfl, rfl⟩ | ⟨_, hx⟩
    · exact hm.phased
    · exact hb.phased j x hx
  · intro j x hx hxo
    rw [hm.files]
    rcases getElem?_put hc hm.calls hx with ⟨rfl, rfl⟩ | ⟨_, hx⟩
    · exact hb.seen j c hc (hm.seen ▸ hxo)
    · exact hb.seen j x hx hxo

theorem getElem?_put_self {s s' : Sys} {i : ℕ} {c x y : Call} (hc : s.calls[i]? = some c)
    (hcalls : s'.calls = s.calls.set i x) (hy : s'.calls[i]? = some y) : y = x := by
  rcases getElem?_put hc hcalls hy with ⟨_, hx⟩ | ⟨hne, _⟩
  · exact hx
  · exact absurd rfl hne

theorem getElem?_concat {s : Sys} {n x : Call} {j : ℕ} (hx : (s.calls ++ [n])[j]? = some x) :
    s.calls[j]? = some x ∨ x = n := by
  rw [List.getElem?_append] at hx
  split at hx
  · exact Or.inl hx
  · exact Or.inr (List.mem_singleton.mp (List.mem_of_getElem? hx))

theorem Base.process {s : Sys} (hb : Base h job s) {n : Call} (hholds : n.holds = false)
    (hidle : n.collector.isIdle = true)
    (hseen : n.outAtStart = s.files.present (outDir h job)) :
    Base h job { s with calls := s.calls ++ [n] } := by
  constructor
  · intro j x hx hxa hxh
    rcases getElem?_concat hx with hx | rfl
    · exact hb.owner j x hx hxa hxh
    · rw [hholds] at hxh
      cases hxh
  · intro j x hx hk
    rcases getElem?_concat hx with hx | rfl
    · exact hb.phased j x hx hk
    · rw [hidle] at hk
      cases hk
  · intro j x hx hxo
    rcases getElem?_concat hx with hx | rfl
    · exact hb.seen j x hx hxo
    · exact hseen ▸ hxo

theorem killed_alive {p : ℕ} {c : Call} (ha : (c.killed p).alive = true) :
    c.killed p = c ∧ c.proc ≠ p := by
  unfold Call.killed at ha ⊢
  split
  · rw [if_pos ‹_›] at ha
    cases ha
  · exact ⟨rfl, ‹_›⟩

theorem Base.kill {s : Sys} (hb : Base h job s) (p : ℕ) (model : Holder) :
    Base h job { s with
      calls := s.calls.map (Call.killed p)
      jobLock := if s.jobLock.any (s.runsIn p) then none else s.jobLock
      modelLock := model } := by
  have hold : ∀ {j : ℕ} {x : Call}, (s.calls.map (Call.killed p))[j]? = some x →
      ∃ c, s.calls[j]? = some c ∧ x = c.killed p := by
    intro j x hx
    rw [List.getElem?_map, Option.map_eq_some_iff] at hx
    obtain ⟨c, hc, rfl⟩ := hx
    exact ⟨c, hc, rfl⟩
  constructor
  · intro j x hx hxa hxh
    obtain ⟨c, hc, rfl⟩ := hold hx
    obtain ⟨hsame, hp⟩ := killed_alive hxa
    rw [hsame] at hxa hxh
    have hown := hb.owner j c hc hxa hxh
    have hnot : s.jobLock.any (s.runsIn p) = false := by
      simp [hown, Sys.runsIn, hc, hp]
    show (if s.jobLock.any (s.runsIn p) then none else s.jobLock) = some j
    rw [hnot]
    exact hown
  · intro j x hx hk
    obtain ⟨c, hc, rfl⟩ := hold hx
    rw [Call.killed_collector] at hk
    rw [Call.killed_main]
    exact hb.phased j c hc hk
  · intro j x hx hxo
    obtain ⟨c, hc, rfl⟩ := hold hx
    rw [Call.killed_outAtStart] at hxo
    exact hb.seen j c hc hxo

theorem Base.daemon {s : Sys} (hb : Base h job s) {w : World}
    (hout : s.files.present (outDir h job) = true → w.files.present (outDir h job) = true) :
    Base h job { s with toWorld := w } :=
  ⟨hb.owner, hb.phased, fun j x hx hxo => hout (hb.seen j x hx hxo)⟩

/-! ### What the lock protects -/

/-- `G` holds of the shared files, and `L` of every call that owns the lock. -/
structure Protected (h : Host) (job : String) (G : World → Prop) (L : World → Call → Prop)
    (s : Sys) : Prop where
  base : Base h job s
  shared : G s.toWorld
  owner : ∀ (i : ℕ) (c : Call), s.calls[i]? = some c → c.alive = true → c.holds = true →
    L s.toWorld c

section
variable {G : World → Prop} {L : World → Call → Prop} {C : Sys → Event → Prop}

/-- A step of call `i` that keeps `G`, and `L` for `i` itself, keeps both for everyone: a call that
may change the shared files is the only owner of the lock. -/
theorem Protected.moves {s s' : Sys} {i : ℕ} {c c' : Call} (hp : Protected h job G L s)
    (hc : s.calls[i]? = some c) (ha : c.alive = true) (hm : Moves i c c' s s')
    (hw : s'.toWorld = s.toWorld ∨ c.holds = true) (hG : G s'.toWorld)
    (hL : c'.holds = true → L s'.toWorld c') : Protected h job G L s' := by
  refine ⟨hp.base.moves hc hm ha, hG, ?_⟩
  intro j x hx hxa hxh
  rcases getElem?_put hc hm.calls hx with ⟨rfl, rfl⟩ | ⟨hj, hx⟩
  · exact hL hxh
  · rcases hw with hw | hheld
    · rw [hw]
      exact hp.owner j x hx hxa hxh
    · have hi := hp.base.owner i c hc ha hheld
      rw [hp.base.owner j x hx hxa hxh] at hi
      exact absurd (Option.some.inj hi) hj

/-- The steps of `process` from one point within the lock to the next. -/
inductive Advances (h : Host) (job : String) (s : Sys) (io : Io) (c : Call) : Call → Prop where
  | close (st : State) (e : Exn) : Advances h job s io c { c with state := st, main := .closeJob e }
  | readState (hresult : (s.file.getD {}).result = none) (herror : (s.file.getD {}).error = none) :
      Advances h job s io c { c with state := s.file.getD {}, main := .checkOut }
  | mustRecover (hat : c.main = .checkOut) :
      Advances h job s io c { c with main := .recover }
  | pass (hat : c.main = .checkOut)
      (hsafe : safePath h s.files (outDir h job) = .ok (outDir h job))
      (hfree : c.state.response = none →
        c.state.isRunning = false ∧ s.files.present (outDir h job) = false) :
      Advances h job s io c { c with main := .lockModel }
  | recover (hat : c.main = .recover) (response : Json)
      (hresponse : recoverResponse h s.files c.state.isRunning c.state.output (outDir h job) =
        .ok (some response)) :
      Advances h job s io c { c with
        state := { c.state with response := some response, running := some false }
        main := .lockModel }
  | lockModel (hat : c.main = .lockModel) : Advances h job s io c { c with main := .start }
  | start (hat : c.main = .start) :
      Advances h job s io c { c with main := .wait, collector := .writeInit }

theorem safePath_eq_ok {fs : FileSystem} {path q : Path} (hq : safePath h fs path = .ok q) :
    q = path := by
  unfold safePath at hq
  split at hq
  · cases hq
  · split at hq
    · exact (Except.ok.inj hq).symm
    · cases hq

theorem mainStep_advances {s s' : Sys} {i : ℕ} {c c' : Call} {io : Io}
    (hholds : c.main.holds = true) (hidle : c.collector = .idle)
    (hs : mainStep h job s i c io = some s') (hc : s.calls[i]? = some c)
    (hc' : s'.calls[i]? = some c') (hholds' : c'.holds = true) : Advances h job s io c c' := by
  have hput : ∀ {x : Call} {model : Holder} {lock : Option ℕ},
      some ({ s with modelLock := model, jobLock := lock }.put i x) = some s' → c' = x := by
    intro x model lock he
    obtain rfl := Option.some.inj he
    exact getElem?_put_self hc rfl hc'
  unfold mainStep at hs
  split at hs
  case h_5 => rw [hput hs]; exact .close c.state _
  case h_7 => rw [hput hs]; exact .close c.state _
  case h_9 => rw [hput hs]; exact .close c.state _
  case h_11 => rw [hput hs]; exact .close c.state _
  case h_6 =>
    have hx := hput hs
    unfold afterRead at hx
    split at hx
    · rw [hx]
      exact .close _ _
    · split at hx
      · rw [hx, Call.holds, hidle] at hholds'
        cases hholds'
      · rw [hx]
        exact .close _ _
      next hresult herror =>
        rw [hx]
        exact .readState hresult herror
  case h_8 hat _ =>
    split at hs
    · rw [hput hs]
      exact .close c.state _
    next out hout =>
      obtain rfl := safePath_eq_ok hout
      split at hs
      · rw [hput hs]
        exact .mustRecover hat
      next hguard =>
        rw [hput hs]
        refine .pass hat hout fun hnone => ?_
        simpa [hnone] using hguard
  case h_10 hat _ =>
    split at hs
    · rw [hput hs]
      exact .close c.state _
    · rw [hput hs]
      exact .close c.state _
    next response hresponse =>
      split at hs
      · rw [hput hs]
        exact .close c.state _
      · rw [hput hs]
        exact .recover hat response hresponse
  case h_12 hat _ =>
    split at hs
    · rw [hput hs]
      exact .lockModel hat
    · rw [hput hs]
      exact .close c.state _
  case h_13 =>
    rw [hput hs, Call.holds, hidle] at hholds'
    cases hholds'
  case h_14 hat _ => rw [hput hs]; exact .start hat
  case h_16 =>
    rw [hput hs, Call.holds, hidle] at hholds'
    cases hholds'
  all_goals first
    | (rename_i hm _; rw [hm] at hholds; cases hholds)
    | (rename_i hm; rw [hm] at hholds; cases hholds)

/-- A waiting `process` changes nothing but its own program point. -/
theorem mainStep_after {s s' : Sys} {i : ℕ} {c c' : Call} {io : Io}
    (hafter : c.main.afterStart = true) (hs : mainStep h job s i c io = some s')
    (hc : s.calls[i]? = some c) (hc' : s'.calls[i]? = some c') :
    ∃ m : Main, m.afterStart = true ∧ c' = { c with main := m } := by
  have hput : ∀ m : Main, some (s.put i { c with main := m }) = some s' →
      c' = { c with main := m } := by
    intro m he
    obtain rfl := Option.some.inj he
    exact getElem?_put_self hc rfl hc'
  unfold mainStep at hs
  split at hs
  case h_15 =>
    repeat' split at hs
    · exact ⟨_, rfl, hput _ hs⟩
    · exact ⟨_, rfl, hput _ hs⟩
    · exact ⟨_, rfl, hput _ hs⟩
    · cases hs
  all_goals first | cases hs; done | (rename_i hm _; rw [hm] at hafter; cases hafter) |
    (rename_i hm; rw [hm] at hafter; cases hafter)

/-- **The rule of the lock.**  What the owner of `job.lock` and the daemon keep, every step keeps.
`C` is what the steps are known to meet. -/
theorem step_protected
    (hread : ∀ (w : World) (c : Call), G w → c.collector = .idle →
      L w { c with main := .readState })
    (hmain : ∀ (s : Sys) (i : ℕ) (c c' : Call) (io : Io), C s (.main i io) →
      (c.outAtStart = true → s.files.present (outDir h job) = true) → c.collector = .idle →
      G s.toWorld → L s.toWorld c → Advances h job s io c c' → L s.toWorld c')
    (hwait : ∀ (w : World) (c : Call) (m : Main), L w c → c.collector.holds = true →
      m.afterStart = true → L w { c with main := m })
    (hcollect : ∀ (s s' : Sys) (i : ℕ) (c c' : Call) (io : Io), C s (.collect i io) →
      c.main.afterStart = true → G s.toWorld → L s.toWorld c → s.calls[i]? = some c →
      collectStep h job s i c io = some s' → s'.calls[i]? = some c' → c'.main = c.main →
      G s'.toWorld ∧ L s'.toWorld c')
    (hdaemon : ∀ (s : Sys) (w : World) (files : FileSystem) (finished : Bool),
      C s (.daemon files finished) → G s.toWorld →
      (s.files.present (outDir h job) = true → files.present (outDir h job) = true) →
      w = { s.toWorld with files, daemon := if finished then .finished else s.daemon } →
      G w ∧ ∀ c, L s.toWorld c → L w c)
    {s s' : Sys} {e : Event} (hC : C s e) (hp : Protected h job G L s)
    (hs : step h job s e = some s') : Protected h job G L s' := by
  cases step_cases hs with
  | process =>
    refine ⟨hp.base.process rfl rfl rfl, hp.shared, ?_⟩
    intro j x hx hxa hxh
    rcases getElem?_concat hx with hx | rfl
    · exact hp.owner j x hx hxa hxh
    · cases hxh
  | @main i io c s' hc ha hs =>
    obtain ⟨hw, c', hm⟩ := mainStep_moves (hp.base.phased i c hc) hs
    have hc' : s'.calls[i]? = some c' := by
      rw [hm.calls, List.getElem?_set_self (List.getElem?_eq_some_iff.mp hc).1]
    refine hp.moves hc ha hm (Or.inl hw) (hw ▸ hp.shared) fun hh' => ?_
    rw [hw]
    by_cases hmh : c.main.holds = true
    · have hh : c.holds = true := by rw [Call.holds, hmh, Bool.true_or]
      have hk : c.collector = .idle := by
        refine Collector.eq_idle fun hi => ?_
        rw [Main.not_holds_of_afterStart (hp.base.phased i c hc hi)] at hmh
        cases hmh
      exact hmain s i c c' io hC (hp.base.seen i c hc) hk hp.shared (hp.owner i c hc ha hh)
        (mainStep_advances hmh hk hs hc hc' hh')
    · cases hm.lock with
      | take _ _ hcall =>
        have hk : c.collector = .idle := by
          refine Collector.eq_idle fun hi => ?_
          have hafter := hm.phased (by rw [hcall]; exact hi)
          rw [hcall] at hafter
          cases hafter
        rw [hcall]
        exact hread _ _ hp.shared hk
      | drop _ _ hdone => rw [hdone] at hh'; cases hh'
      | keep _ hholds =>
        have hh := hholds hh'
        have hk : c.collector.holds = true := by
          rw [Call.holds, Bool.or_eq_true] at hh
          exact hh.resolve_left hmh
        have hafter := hp.base.phased i c hc (Collector.not_isIdle_of_holds hk)
        obtain ⟨m, hma, rfl⟩ := mainStep_after hafter hs hc hc'
        exact hwait _ c m (hp.owner i c hc ha hh) hk hma
  | @collect i io c s' hc ha hs =>
    obtain ⟨hk, c', hmain', hm⟩ := collectStep_moves (hp.base.phased i c hc) hs
    have hc' : s'.calls[i]? = some c' := by
      rw [hm.calls, List.getElem?_set_self (List.getElem?_eq_some_iff.mp hc).1]
    have hh : c.holds = true := by rw [Call.holds, hk, Bool.or_true]
    have hafter := hp.base.phased i c hc (Collector.not_isIdle_of_holds hk)
    obtain ⟨hG, hL⟩ :=
      hcollect s s' i c c' io hC hafter hp.shared (hp.owner i c hc ha hh) hc hs hc' hmain'
    exact hp.moves hc ha hm (Or.inr hh) hG fun _ => hL
  | kill p =>
    refine ⟨hp.base.kill p _, hp.shared, ?_⟩
    intro j x hx hxa hxh
    have hx' := hx
    simp only [List.getElem?_map, Option.map_eq_some_iff] at hx'
    obtain ⟨c, hc, rfl⟩ := hx'
    have hsame := (killed_alive hxa).1
    rw [hsame] at hxa hxh ⊢
    exact hp.owner j c hc hxa hxh
  | takes | gives => exact ⟨⟨hp.base.owner, hp.base.phased, hp.base.seen⟩, hp.shared, hp.owner⟩
  | daemon files finished hout =>
    obtain ⟨hG, hL⟩ := hdaemon s _ files finished hC hp.shared hout rfl
    exact ⟨hp.base.daemon hout, hG, fun j x hx hxa hxh => hL x (hp.owner j x hx hxa hxh)⟩

end

end Inference.V73
