import Inference.V73.TerminalStability

/-!
# Inference.V73.Locks — who closes `job.lock` and `execution.lock`

The descriptors of the two flocks pass from `process` to the collector when that starts.  Two ways
out of `process` forget them: `return state['result']` leaves `job_lock` open, and a collector that
cannot be started leaves both open (`Closes` says that neither is taken).

* `Call.Accounts`: what a call has done to the locks, read off where it is.
* `step_accounted`: every step keeps the account.
* **`locks_closed`**: each lock that was taken is closed once, the execution lock first, by the end of
  the collector or else of `process`.
* `replayRun_leaks`: a job whose result was replayed is refused from then on.
-/

namespace Inference.V73

open Inference.Lib

variable {h : Host} {job : String}

inductive LockOp where
  | takeJob
  | takeModel
  | closeModel
  | closeJob
deriving DecidableEq, Repr

/-- What the next step of `process` does to the locks. -/
def Sys.mainOps (s : Sys) (m : Main) (fault : Option Exn) : List LockOp :=
  match m, fault with
  | .lockJob, none => if s.jobLock = none then [.takeJob] else []
  | .lockModel, none => if s.modelLock = .free then [.takeModel] else []
  | .closeJob _, _ => [.closeJob]
  | _, _ => []

/-- What the next step of the collector does to the locks. -/
def Collector.ops : Collector → List LockOp
  | .closeModel _ => [.closeModel]
  | .closeJob _ => [.closeJob]
  | _ => []

/-- What a step does to the locks, and for which call. -/
def lockOps (s : Sys) : Event → List (ℕ × LockOp)
  | .main i io => match s.calls[i]? with
    | some c => (s.mainOps c.main io.fault).map (i, ·)
    | none => []
  | .collect i _ => match s.calls[i]? with
    | some c => c.collector.ops.map (i, ·)
    | none => []
  | _ => []

/-- The operations of call `i`. -/
def opsOf (i : ℕ) (ops : List (ℕ × LockOp)) : List LockOp :=
  ops.filterMap fun op => if op.1 = i then some op.2 else none

/-- A step that does not forget a lock: no call finds a result under its own fingerprint, and no
collector fails to start. -/
def Closes (h : Host) (s : Sys) : Event → Prop
  | .main i io => ∀ c, s.calls[i]? = some c →
      (c.main = .readState → ∀ st, s.file = some st → st.fingerprint = some (h.fingerprint c.spec) →
        st.result = none) ∧
      (c.main = .start → io.fault = none)
  | _ => True

/-- What a call without a collector has done to the locks. -/
def Main.Accounts (ops : List LockOp) : Main → Prop
  | .begin | .lockJob => ops = []
  | .readState | .checkOut | .recover | .lockModel | .closeJob _ => ops = [.takeJob]
  | .start => ops = [.takeJob, .takeModel]
  | .raised _ => ops = [] ∨ ops = [.takeJob, .closeJob]
  | .wait | .returned _ => False

/-- What a call with a collector has done to the locks. -/
def Collector.Accounts (ops : List LockOp) : Collector → Prop
  | .closeJob _ => ops = [.takeJob, .takeModel, .closeModel]
  | .done _ => ops = [.takeJob, .takeModel, .closeModel, .closeJob]
  | _ => ops = [.takeJob, .takeModel]

def Call.Accounts (c : Call) (ops : List LockOp) : Prop :=
  if c.collector.isIdle then c.main.Accounts ops else c.collector.Accounts ops

/-- The account of all calls; a lock that is held was not closed, and its holder lives. -/
structure Accounted (h : Host) (job : String) (s : Sys) (ops : List (ℕ × LockOp)) : Prop where
  base : Base h job s
  known : ∀ op ∈ ops, op.1 < s.calls.length
  account : ∀ (i : ℕ) (c : Call), s.calls[i]? = some c → c.Accounts (opsOf i ops)
  job : ∀ i, s.jobLock = some i → (s.calls[i]?).any Call.alive = true ∧
    LockOp.takeJob ∈ opsOf i ops ∧ LockOp.closeJob ∉ opsOf i ops
  model : ∀ i, s.modelLock = .call i → (s.calls[i]?).any Call.alive = true ∧
    LockOp.takeModel ∈ opsOf i ops ∧ LockOp.closeModel ∉ opsOf i ops

/-! ### The two threads -/

/-- The one way out of the checks that keeps the lock. -/
theorem afterRead_returned {fingerprint : String} {st : State} {r : Json}
    (hr : afterRead fingerprint st = .returned r) :
    st.result = some r ∧ st.fingerprint = some fingerprint := by
  unfold afterRead at hr
  split at hr
  · cases hr
  next hguard =>
    split at hr
    next result hresult =>
      obtain rfl : result = r := Main.returned.inj hr
      refine ⟨hresult, ?_⟩
      have hne : st.isEmpty = false := by
        rw [State.isEmpty, hresult]
        simp
      simpa [hne] using hguard
    next => cases hr
    next => cases hr

theorem afterRead_accounts {fingerprint : String} {st : State}
    (hr : st.fingerprint = some fingerprint → st.result = none) :
    (afterRead fingerprint st).Accounts [.takeJob] := by
  cases hafter : afterRead fingerprint st with
  | returned r =>
    obtain ⟨hresult, hprint⟩ := afterRead_returned hafter
    rw [hr hprint] at hresult
    cases hresult
  | _ =>
    unfold afterRead at hafter
    split at hafter
    · cases hafter <;> rfl
    · split at hafter <;> cases hafter <;> rfl

theorem mainOps_afterStart {s : Sys} {m : Main} (hm : m.afterStart = true) (fault : Option Exn) :
    s.mainOps m fault = [] := by
  cases m <;> first | (cases fault <;> rfl) | cases hm

/-- Once there is a collector the account is the collector's. -/
theorem mainStep_accounts_after {s s' : Sys} {i : ℕ} {c : Call} {io : Io} {ops : List LockOp}
    (hidle : c.collector.isIdle = false) (hafter : c.main.afterStart = true)
    (hc : s.calls[i]? = some c) (hacc : c.Accounts ops)
    (hs : mainStep h job s i c io = some s') :
    ∃ c', s'.calls = s.calls.set i c' ∧ c'.alive = c.alive ∧
      c'.Accounts (ops ++ s.mainOps c.main io.fault) := by
  obtain ⟨-, c', hm⟩ := mainStep_moves (fun _ => hafter) hs
  have hc' : s'.calls[i]? = some c' := by
    rw [hm.calls, List.getElem?_set_self (List.getElem?_eq_some_iff.mp hc).1]
  obtain ⟨m, -, rfl⟩ := mainStep_after hafter hs hc hc'
  refine ⟨_, hm.calls, rfl, ?_⟩
  have hnot : ¬ c.collector.isIdle = true := by
    rw [hidle]
    exact Bool.false_ne_true
  rw [mainOps_afterStart hafter, List.append_nil]
  rw [Call.Accounts, if_neg hnot] at hacc ⊢
  exact hacc

/-- Before there is one, `process` keeps the account itself. -/
theorem mainStep_accounts_idle {s s' : Sys} {i : ℕ} {c : Call} {io : Io} {ops : List LockOp}
    (hidle : c.collector.isIdle = true) (hcloses : Closes h s (.main i io))
    (hc : s.calls[i]? = some c) (hacc : c.main.Accounts ops)
    (hs : mainStep h job s i c io = some s') :
    ∃ c', s'.calls = s.calls.set i c' ∧ c'.alive = c.alive ∧
      c'.Accounts (ops ++ s.mainOps c.main io.fault) := by
  obtain ⟨hread, hstart⟩ := hcloses c hc
  have hstay : ∀ {m : Main} {st : State} {model : Holder} {lock : Option ℕ},
      some ({ s with modelLock := model, jobLock := lock }.put i
        { c with state := st, main := m }) = some s' →
      m.Accounts (ops ++ s.mainOps c.main io.fault) →
      ∃ c', s'.calls = s.calls.set i c' ∧ c'.alive = c.alive ∧
        c'.Accounts (ops ++ s.mainOps c.main io.fault) := by
    intro m st model lock he hm
    obtain rfl := Option.some.inj he
    refine ⟨_, rfl, rfl, ?_⟩
    rw [Call.Accounts, if_pos (show c.collector.isIdle = true from hidle)]
    exact hm
  -- a point with `job.lock` alone, and one that the step leaves without a lock operation
  have hheld : ∀ {m : Main} {st : State} {model : Holder} {lock : Option ℕ},
      some ({ s with modelLock := model, jobLock := lock }.put i
        { c with state := st, main := m }) = some s' →
      ops = [.takeJob] → s.mainOps c.main io.fault = [] → m.Accounts [.takeJob] →
      ∃ c', s'.calls = s.calls.set i c' ∧ c'.alive = c.alive ∧
        c'.Accounts (ops ++ s.mainOps c.main io.fault) := by
    intro m st model lock he hops hnone hm
    refine hstay he ?_
    rw [hops, hnone]
    exact hm
  unfold mainStep at hs
  split at hs
  case h_1 e hm hf =>
    rw [hm] at hacc
    refine hstay hs (Or.inl ?_)
    rw [hm, hacc]
    rfl
  case h_2 hm hf =>
    rw [hm] at hacc
    refine hstay hs ?_
    rw [hm, hacc]
    split
    · rfl
    · exact Or.inl rfl
  case h_3 e hm hf =>
    rw [hm] at hacc
    refine hstay hs (Or.inl ?_)
    rw [hm, hf, hacc]
    rfl
  case h_4 hm hf =>
    rw [hm] at hacc
    split at hs
    next hfree =>
      refine hstay hs ?_
      rw [hm, hf, hacc, Sys.mainOps, if_pos hfree]
      rfl
    next hheld =>
      refine hstay hs (Or.inl ?_)
      rw [hm, hf, hacc, Sys.mainOps, if_neg hheld]
      rfl
  case h_5 e hm hf =>
    rw [hm] at hacc
    exact hheld hs hacc (by rw [hm]; rfl) rfl
  case h_6 hm hf =>
    rw [hm] at hacc
    refine hheld hs hacc (by rw [hm]; rfl) ?_
    refine afterRead_accounts fun hprint => ?_
    cases hfile : s.file with
    | none => rfl
    | some st =>
      rw [hfile] at hprint
      exact hread hm st hfile hprint
  case h_7 e hm hf =>
    rw [hm] at hacc
    exact hheld hs hacc (by rw [hm]; rfl) rfl
  case h_8 hm hf =>
    rw [hm] at hacc
    repeat' split at hs
    all_goals exact hheld hs hacc (by rw [hm]; rfl) rfl
  case h_9 e hm hf =>
    rw [hm] at hacc
    exact hheld hs hacc (by rw [hm]; rfl) rfl
  case h_10 hm hf =>
    rw [hm] at hacc
    repeat' split at hs
    all_goals exact hheld hs hacc (by rw [hm]; rfl) rfl
  case h_11 e hm hf =>
    rw [hm] at hacc
    exact hheld hs hacc (by rw [hm, hf]; rfl) rfl
  case h_12 hm hf =>
    rw [hm] at hacc
    split at hs
    next hfree =>
      refine hstay hs ?_
      rw [hm, hf, hacc, Sys.mainOps, if_pos hfree]
      rfl
    next hbusy => exact hheld hs hacc (by rw [hm, hf, Sys.mainOps, if_neg hbusy]) rfl
  case h_13 e hm hf =>
    rw [hstart hm] at hf
    cases hf
  case h_14 hm hf =>
    -- the collector takes both locks over
    rw [hm] at hacc
    obtain rfl := Option.some.inj hs
    refine ⟨_, rfl, rfl, ?_⟩
    rw [hm, hacc]
    exact rfl
  case h_15 hm =>
    rw [hm] at hacc
    cases hacc
  case h_16 e hm =>
    rw [hm] at hacc
    refine hstay hs (Or.inr ?_)
    rw [hm, hacc]
    rfl
  case h_17 => cases hs
  case h_18 => cases hs

theorem mainStep_accounts {s s' : Sys} {i : ℕ} {c : Call} {io : Io} {ops : List LockOp}
    (hphased : c.collector.isIdle = false → c.main.afterStart = true)
    (hcloses : Closes h s (.main i io)) (hc : s.calls[i]? = some c) (hacc : c.Accounts ops)
    (hs : mainStep h job s i c io = some s') :
    ∃ c', s'.calls = s.calls.set i c' ∧ c'.alive = c.alive ∧
      c'.Accounts (ops ++ s.mainOps c.main io.fault) := by
  cases hidle : c.collector.isIdle with
  | false => exact mainStep_accounts_after hidle (hphased hidle) hc hacc hs
  | true =>
    rw [Call.Accounts, if_pos hidle] at hacc
    exact mainStep_accounts_idle hidle hcloses hc hacc hs

theorem failed_accounts (e : Exn) : (failed e).Accounts [.takeJob, .takeModel] := by
  unfold failed
  split
  · split <;> rfl
  · rfl

theorem collectStep_accounts {s s' : Sys} {i : ℕ} {c : Call} {io : Io} {ops : List LockOp}
    (hacc : c.Accounts ops) (hs : collectStep h job s i c io = some s') :
    ∃ c', s'.calls = s.calls.set i c' ∧ c'.alive = c.alive ∧
      c'.Accounts (ops ++ c.collector.ops) := by
  have hput : ∀ {w : World} {x : State} {k : Collector} {model : Holder} {lock : Option ℕ},
      some ({ s with toWorld := w, modelLock := model, jobLock := lock }.put i
        { c with state := x, collector := k }) = some s' → k.isIdle = false →
      k.Accounts (ops ++ c.collector.ops) →
      ∃ c', s'.calls = s.calls.set i c' ∧ c'.alive = c.alive ∧
        c'.Accounts (ops ++ c.collector.ops) := by
    intro w x k model lock he hk hx
    obtain rfl := Option.some.inj he
    refine ⟨_, rfl, rfl, ?_⟩
    rw [Call.Accounts, if_neg (by rw [hk]; exact Bool.false_ne_true)]
    exact hx
  -- the collector works with both locks
  have hwork : ∀ {w : World} {x : State} {k : Collector} {model : Holder} {lock : Option ℕ},
      some ({ s with toWorld := w, modelLock := model, jobLock := lock }.put i
        { c with state := x, collector := k }) = some s' → c.collector.ops = [] →
      ops = [.takeJob, .takeModel] → k.isIdle = false → k.Accounts [.takeJob, .takeModel] →
      ∃ c', s'.calls = s.calls.set i c' ∧ c'.alive = c.alive ∧
        c'.Accounts (ops ++ c.collector.ops) := by
    intro w x k model lock he hnone hops hk hx
    refine hput he hk ?_
    rw [hnone, hops]
    exact hx
  have hidle : c.collector.isIdle = false := by
    unfold collectStep at hs
    cases hk : c.collector <;> first | rfl | (rw [hk] at hs; cases hs)
  rw [Call.Accounts, if_neg (by rw [hidle]; exact Bool.false_ne_true)] at hacc
  unfold collectStep at hs
  split at hs <;> rename_i hk <;> rw [hk] at hacc
  case h_12 =>
    refine hput hs rfl ?_
    rw [hk, hacc]
    rfl
  case h_13 =>
    refine hput hs rfl ?_
    rw [hk, hacc]
    rfl
  case h_14 => cases hs
  case h_15 => cases hs
  all_goals
    refine hwork hs (by rw [hk]; rfl) hacc ?_ ?_
    · repeat' split
      all_goals first
        | rfl
        | exact Collector.isIdle_failed _
    · repeat' split
      all_goals first
        | rfl
        | exact failed_accounts _

/-! ### Every run -/

theorem opsOf_append (i : ℕ) (ops ops' : List (ℕ × LockOp)) :
    opsOf i (ops ++ ops') = opsOf i ops ++ opsOf i ops' := List.filterMap_append

theorem opsOf_map_self (i : ℕ) (ops : List LockOp) : opsOf i (ops.map (i, ·)) = ops := by
  simp [opsOf, List.filterMap_map]

theorem opsOf_map_ne {i j : ℕ} (hij : j ≠ i) (ops : List LockOp) :
    opsOf j (ops.map (i, ·)) = [] := by
  simp [opsOf, List.filterMap_map, Ne.symm hij]

/-- The accounts there are. -/
theorem Call.Accounts.shape {c : Call} {ops : List LockOp} (ha : c.Accounts ops) :
    ops <+: [.takeJob, .closeJob] ∨ ops <+: [.takeJob, .takeModel, .closeModel, .closeJob] := by
  have hshape : ∀ {l : List LockOp}, ops = l → l <+: [.takeJob, .closeJob] ∨
      l <+: [.takeJob, .takeModel, .closeModel, .closeJob] → ops <+: [.takeJob, .closeJob] ∨
      ops <+: [.takeJob, .takeModel, .closeModel, .closeJob] := by
    rintro _ rfl hl
    exact hl
  unfold Call.Accounts at ha
  split at ha
  · unfold Main.Accounts at ha
    split at ha
    case h_9 =>
      rcases ha with ha | ha
      · exact hshape ha (by decide)
      · exact hshape ha (by decide)
    case h_10 => cases ha
    case h_11 => cases ha
    all_goals exact hshape ha (by decide)
  · unfold Collector.Accounts at ha
    split at ha
    all_goals exact hshape ha (by decide)

/-- What a step of call `i` does to one lock. -/
inductive Flock {α : Type} (ops : List LockOp) (taken closed : LockOp) (mine free before after : α) :
    Prop where
  | keep (hsame : after = before) (hopen : closed ∉ ops)
  | take (hmine : after = mine) (hops : ops = [taken])
  | drop (hfree : after = free)

theorem mainStep_flock {s s' : Sys} {i : ℕ} {c : Call} {io : Io}
    (hs : mainStep h job s i c io = some s') :
    Flock (s.mainOps c.main io.fault) .takeJob .closeJob (some i) none s.jobLock s'.jobLock ∧
    Flock (s.mainOps c.main io.fault) .takeModel .closeModel (.call i) .free s.modelLock
      s'.modelLock := by
  have hquiet : ∀ {x : Call}, some (s.put i x) = some s' → s.mainOps c.main io.fault = [] →
      Flock (s.mainOps c.main io.fault) .takeJob .closeJob (some i) none s.jobLock s'.jobLock ∧
      Flock (s.mainOps c.main io.fault) .takeModel .closeModel (.call i) .free s.modelLock
        s'.modelLock := by
    intro x he hnone
    obtain rfl := Option.some.inj he
    rw [hnone]
    exact ⟨.keep rfl List.not_mem_nil, .keep rfl List.not_mem_nil⟩
  unfold mainStep at hs
  split at hs
  case h_4 hm hf =>
    split at hs
    next hfree =>
      obtain rfl := Option.some.inj hs
      rw [hm, hf, Sys.mainOps, if_pos hfree]
      exact ⟨.take rfl rfl, .keep rfl (by decide)⟩
    next hheld => exact hquiet hs (by rw [hm, hf, Sys.mainOps, if_neg hheld])
  case h_12 hm hf =>
    split at hs
    next hfree =>
      obtain rfl := Option.some.inj hs
      rw [hm, hf, Sys.mainOps, if_pos hfree]
      exact ⟨.keep rfl (by decide), .take rfl rfl⟩
    next hbusy => exact hquiet hs (by rw [hm, hf, Sys.mainOps, if_neg hbusy])
  case h_16 e hm =>
    obtain rfl := Option.some.inj hs
    rw [hm]
    exact ⟨.drop rfl, .keep rfl (by simp [Sys.mainOps])⟩
  all_goals
    rename_i hm
    repeat' split at hs
    all_goals first
      | cases hs; done
      | exact hquiet hs (by simp only [*]; rfl)

theorem collectStep_flock {s s' : Sys} {i : ℕ} {c : Call} {io : Io}
    (hs : collectStep h job s i c io = some s') :
    Flock c.collector.ops .takeJob .closeJob (some i) none s.jobLock s'.jobLock ∧
    Flock c.collector.ops .takeModel .closeModel (.call i) .free s.modelLock s'.modelLock := by
  unfold collectStep at hs
  split at hs <;> rename_i hk <;> rw [hk]
  case h_12 =>
    obtain rfl := Option.some.inj hs
    exact ⟨.keep rfl (by simp [Collector.ops]), .drop rfl⟩
  case h_13 =>
    obtain rfl := Option.some.inj hs
    exact ⟨.drop rfl, .keep rfl (by simp [Collector.ops])⟩
  case h_14 => cases hs
  case h_15 => cases hs
  all_goals
    obtain rfl := Option.some.inj hs
    exact ⟨.keep rfl List.not_mem_nil, .keep rfl List.not_mem_nil⟩

/-- A lock that is held was taken and not closed, after a step of call `i` as before it. -/
theorem Flock.open {α : Type} {own : ℕ → α} {free before after : α} {i : ℕ} {ops : List LockOp}
    {taken closed : LockOp} {all : List (ℕ × LockOp)} (hinj : Function.Injective own)
    (hfree : ∀ j, free ≠ own j) (hf : Flock ops taken closed (own i) free before after)
    (hshape : ops = [taken] → closed ∉ opsOf i all ++ ops)
    (hbefore : ∀ j, before = own j → taken ∈ opsOf j all ∧ closed ∉ opsOf j all) {j : ℕ}
    (hj : after = own j) :
    (j = i ∨ before = own j) ∧ taken ∈ opsOf j (all ++ ops.map (i, ·)) ∧
      closed ∉ opsOf j (all ++ ops.map (i, ·)) := by
  rw [opsOf_append]
  cases hf with
  | keep hsame hopen =>
    obtain ⟨htaken, hclosed⟩ := hbefore j (hsame ▸ hj)
    refine ⟨Or.inr (hsame ▸ hj), List.mem_append_left _ htaken, ?_⟩
    rw [List.mem_append, not_or]
    refine ⟨hclosed, ?_⟩
    by_cases hij : j = i
    · rw [hij, opsOf_map_self]
      exact hopen
    · rw [opsOf_map_ne hij]
      exact List.not_mem_nil
  | take hmine hops =>
    obtain rfl : j = i := hinj (hj.symm.trans hmine)
    rw [opsOf_map_self]
    exact ⟨Or.inl rfl, List.mem_append_right _ (by rw [hops]; exact List.mem_singleton_self _),
      hshape hops⟩
  | drop hnone => exact absurd (hnone.symm.trans hj) (hfree j)

/-- A lock that was taken last is not closed yet. -/
theorem Call.Accounts.not_closed {c : Call} {ops : List LockOp} {taken closed : LockOp}
    (ha : c.Accounts (ops ++ [taken])) (hpair : (taken, closed) = (.takeJob, .closeJob) ∨
      (taken, closed) = (.takeModel, .closeModel)) : closed ∉ ops ++ [taken] := by
  have hprefixes : ∀ l ∈ [.takeJob, .closeJob].inits ++
      [.takeJob, .takeModel, .closeModel, LockOp.closeJob].inits,
      (l.getLast? = some .takeJob → LockOp.closeJob ∉ l) ∧
      (l.getLast? = some .takeModel → LockOp.closeModel ∉ l) := by
    decide
  have hmem : ops ++ [taken] ∈ [.takeJob, .closeJob].inits ++
      [.takeJob, .takeModel, .closeModel, LockOp.closeJob].inits := by
    rw [List.mem_append, List.mem_inits, List.mem_inits]
    exact ha.shape
  have hlast : (ops ++ [taken]).getLast? = some taken := by simp
  obtain ⟨hjob, hmodel⟩ := hprefixes _ hmem
  rcases hpair with hp | hp
  · obtain ⟨rfl, rfl⟩ := Prod.mk.inj hp
    exact hjob hlast
  · obtain ⟨rfl, rfl⟩ := Prod.mk.inj hp
    exact hmodel hlast

/-- A step of call `i` keeps the account. -/
theorem Accounted.moves {s s' : Sys} {all : List (ℕ × LockOp)} {i : ℕ} {c c' : Call}
    {ops : List LockOp} (ha : Accounted h job s all) (hb : Base h job s') (hc : s.calls[i]? = some c)
    (halive : c.alive = true) (hcalls : s'.calls = s.calls.set i c') (halive' : c'.alive = c.alive)
    (hacc : c'.Accounts (opsOf i all ++ ops))
    (hjob : Flock ops .takeJob .closeJob (some i) none s.jobLock s'.jobLock)
    (hmodel : Flock ops .takeModel .closeModel (.call i) .free s.modelLock s'.modelLock) :
    Accounted h job s' (all ++ ops.map (i, ·)) := by
  have hlt := (List.getElem?_eq_some_iff.mp hc).1
  have hself : s'.calls[i]? = some c' := by rw [hcalls, List.getElem?_set_self hlt]
  have hlives : ∀ j, j = i ∨ (s.calls[j]?).any Call.alive = true →
      (s'.calls[j]?).any Call.alive = true := by
    intro j hj
    by_cases hij : j = i
    · rw [hij, hself, Option.any_some, halive', halive]
    · rw [hcalls, List.getElem?_set_ne (Ne.symm hij)]
      exact hj.resolve_left hij
  refine ⟨hb, ?_, ?_, ?_, ?_⟩
  · intro op hop
    rw [hcalls, List.length_set]
    rcases List.mem_append.mp hop with hop | hop
    · exact ha.known op hop
    · obtain ⟨x, -, rfl⟩ := List.mem_map.mp hop
      exact hlt
  · intro j x hx
    rw [opsOf_append]
    rcases getElem?_put hc hcalls hx with ⟨rfl, rfl⟩ | ⟨hij, hx⟩
    · rw [opsOf_map_self]
      exact hacc
    · rw [opsOf_map_ne hij, List.append_nil]
      exact ha.account j x hx
  · intro j hj
    have hopen := hjob.open (Option.some_injective ℕ) (by simp)
      (fun hops => by rw [hops] at hacc ⊢; exact hacc.not_closed (Or.inl rfl))
      (fun k hk => (ha.job k hk).2) hj
    exact ⟨hlives j (hopen.1.imp_right fun hk => (ha.job j hk).1), hopen.2⟩
  · intro j hj
    have hinj : Function.Injective Holder.call := fun _ _ he => Holder.call.inj he
    have hopen := hmodel.open hinj (by simp)
      (fun hops => by rw [hops] at hacc ⊢; exact hacc.not_closed (Or.inr rfl))
      (fun k hk => (ha.model k hk).2) hj
    exact ⟨hlives j (hopen.1.imp_right fun hk => (ha.model j hk).1), hopen.2⟩

theorem step_base {s s' : Sys} {e : Event} (hb : Base h job s) (hs : step h job s e = some s') :
    Base h job s' := by
  have hp : Protected h job (fun _ => True) (fun _ _ => True) s := ⟨hb, trivial, fun _ _ _ _ _ => trivial⟩
  have hp' := step_protected (C := fun _ _ => True) (fun _ _ _ _ => trivial)
    (fun _ _ _ _ _ _ _ _ _ _ _ => trivial) (fun _ _ _ _ _ _ => trivial)
    (fun _ _ _ _ _ _ _ _ _ _ _ _ _ _ => ⟨trivial, trivial⟩)
    (fun _ _ _ _ _ _ _ _ => ⟨trivial, fun _ _ => trivial⟩) trivial hp hs
  exact hp'.base

theorem killed_accounts {c : Call} {ops : List LockOp} (p : ℕ) (ha : c.Accounts ops) :
    (c.killed p).Accounts ops := by
  unfold Call.killed
  split
  · exact ha
  · exact ha

/-- A call of another process outlives the kill. -/
theorem killed_survives {s : Sys} {p i : ℕ} (hrun : s.runsIn p i = false)
    (ha : (s.calls[i]?).any Call.alive = true) :
    ((s.calls.map (Call.killed p))[i]?).any Call.alive = true := by
  rw [List.getElem?_map]
  cases hc : s.calls[i]? with
  | none =>
    rw [hc] at ha
    cases ha
  | some c =>
    rw [hc, Option.any_some] at ha
    rw [Sys.runsIn, hc, Option.any_some, decide_eq_false_iff_not] at hrun
    rw [Option.map_some, Option.any_some, Call.killed, if_neg hrun]
    exact ha

/-- **Every step keeps the account.** -/
theorem step_accounted {s s' : Sys} {e : Event} {all : List (ℕ × LockOp)} (hcloses : Closes h s e)
    (ha : Accounted h job s all) (hs : step h job s e = some s') :
    Accounted h job s' (all ++ lockOps s e) := by
  have hb := step_base ha.base hs
  cases step_cases hs with
  | @process p spec hjob =>
    rw [show lockOps s (.process p spec) = [] from rfl, List.append_nil]
    have hold : ∀ j : ℕ, (s.calls[j]?).any Call.alive = true →
        ((s.calls ++ [{ proc := p, spec, outAtStart := s.files.present (outDir h job) }])[j]?).any
          Call.alive = true := by
      intro j hj
      obtain ⟨c, hc, -⟩ := (Option.any_eq_true _ _).mp hj
      rw [List.getElem?_append_left (List.getElem?_eq_some_iff.mp hc).1]
      exact hj
    refine ⟨hb, ?_, ?_, ?_, ?_⟩
    · intro op hop
      have := ha.known op hop
      rw [List.length_append]
      omega
    · intro j x hx
      by_cases hj : j < s.calls.length
      · rw [List.getElem?_append_left hj] at hx
        exact ha.account j x hx
      · -- a call that has done nothing yet
        have hnone : opsOf j all = [] := by
          rw [opsOf, List.filterMap_eq_nil_iff]
          intro op hop
          have hlt := ha.known op hop
          rw [if_neg (by omega)]
        rw [List.getElem?_append_right (by omega), List.getElem?_singleton] at hx
        split at hx
        · obtain rfl := Option.some.inj hx
          rw [hnone]
          rfl
        · cases hx
    · intro j hj
      exact ⟨hold j (ha.job j hj).1, (ha.job j hj).2⟩
    · intro j hj
      exact ⟨hold j (ha.model j hj).1, (ha.model j hj).2⟩
  | @main i io c s' hc halive hs =>
    obtain ⟨c', hcalls, halive', hacc⟩ :=
      mainStep_accounts (ha.base.phased i c hc) hcloses hc (ha.account i c hc) hs
    obtain ⟨hjob, hmodel⟩ := mainStep_flock hs
    rw [lockOps, hc]
    exact ha.moves hb hc halive hcalls halive' hacc hjob hmodel
  | @collect i io c s' hc halive hs =>
    obtain ⟨c', hcalls, halive', hacc⟩ := collectStep_accounts (ha.account i c hc) hs
    obtain ⟨hjob, hmodel⟩ := collectStep_flock hs
    rw [lockOps, hc]
    exact ha.moves hb hc halive hcalls halive' hacc hjob hmodel
  | kill p =>
    rw [show lockOps s (.kill p) = [] from rfl, List.append_nil]
    refine ⟨hb, ?_, ?_, ?_, ?_⟩
    · intro op hop
      rw [List.length_map]
      exact ha.known op hop
    · intro j x hx
      rw [List.getElem?_map, Option.map_eq_some_iff] at hx
      obtain ⟨c, hc, rfl⟩ := hx
      exact killed_accounts p (ha.account j c hc)
    · intro j hj
      change (if s.jobLock.any (s.runsIn p) then none else s.jobLock) = some j at hj
      split at hj
      · cases hj
      next hany =>
        rw [hj, Option.any_some, Bool.not_eq_true] at hany
        exact ⟨killed_survives hany (ha.job j hj).1, (ha.job j hj).2⟩
    · intro j hj
      have hlock : s.modelLock = .call j ∧ s.runsIn p j = false := by
        cases hm : s.modelLock with
        | free | otherJob =>
          simp only [hm] at hj
          cases hj
        | call i =>
          simp only [hm] at hj
          split at hj
          · cases hj
          next hany =>
            obtain rfl := Holder.call.inj hj
            exact ⟨rfl, by simpa using hany⟩
      exact ⟨killed_survives hlock.2 (ha.model j hlock.1).1, (ha.model j hlock.1).2⟩
  | takes | gives =>
    rw [show lockOps s (.otherJob _) = [] from rfl, List.append_nil]
    exact ⟨hb, ha.known, ha.account, ha.job, fun _ hm => by cases hm⟩
  | daemon files finished hout =>
    rw [show lockOps s (.daemon files finished) = [] from rfl, List.append_nil]
    exact ⟨hb, ha.known, ha.account, ha.job, ha.model⟩

/-- `process` has returned or raised. -/
def Main.isOver : Main → Bool
  | .returned _ | .raised _ => true
  | _ => false

/-- A call whose account is open is inside `process`, or its collector runs. -/
theorem Call.Accounts.holds {c : Call} {ops : List LockOp} (ha : c.Accounts ops) (hne : ops ≠ [])
    (hopen : LockOp.closeJob ∉ ops) : c.holds = true := by
  unfold Call.Accounts at ha
  rw [Call.holds, Bool.or_eq_true]
  split at ha
  · refine Or.inl ?_
    cases hm : c.main <;> rw [hm] at ha
    case begin | lockJob => exact absurd ha hne
    case wait | returned => cases ha
    case raised =>
      rcases ha with rfl | rfl
      · exact absurd rfl hne
      · exact absurd (by decide) hopen
    all_goals rfl
  next hidle =>
    refine Or.inr ?_
    cases hk : c.collector <;> rw [hk] at ha hidle
    case idle => exact absurd rfl hidle
    case done o =>
      obtain rfl : ops = _ := ha
      exact absurd (by decide) hopen
    all_goals rfl

/-- **Locks are closed.**  In every run in which no call finds its own result and every collector
starts, whatever else raises: a call takes and closes the locks in this order, each once; all are
closed when its collector has ended, or when `process` has ended without one; and a lock that is held
is held by a call that is still between the two. -/
theorem locks_closed (files : FileSystem) {es : List Event} {s : Sys}
    (hC : Meets (step h job) (Closes h) (Sys.init files) es)
    (hrun : exec (step h job) (Sys.init files) es = some s) :
    (∀ (i : ℕ) (c : Call) (ops : List LockOp), s.calls[i]? = some c →
      ops = opsOf i (trace (step h job) lockOps (Sys.init files) es) →
      (ops <+: [.takeJob, .closeJob] ∨
        ops <+: [.takeJob, .takeModel, .closeModel, .closeJob]) ∧
      (∀ o, c.collector = .done o → ops = [.takeJob, .takeModel, .closeModel, .closeJob]) ∧
      (c.collector = .idle → c.main.isOver = true → ops = [] ∨ ops = [.takeJob, .closeJob])) ∧
    (∀ i, s.jobLock = some i → ∃ c, s.calls[i]? = some c ∧ c.alive = true ∧ c.holds = true) ∧
    (∀ i, s.modelLock = .call i → ∃ c, s.calls[i]? = some c ∧ c.alive = true ∧ c.holds = true) := by
  have hinit : Accounted h job (Sys.init files) [] :=
    ⟨(protected_init (G := fun _ => True) (L := fun _ _ => True) trivial).base, by simp,
      by simp [Sys.init], nofun, nofun⟩
  have ha := exec_trace (fun _ _ _ _ hc hp hs => step_accounted hc hp hs) hC hrun hinit
  rw [List.nil_append] at ha
  refine ⟨?_, ?_, ?_⟩
  · rintro i c _ hc rfl
    have hacc := ha.account i c hc
    refine ⟨hacc.shape, ?_, ?_⟩
    · intro o hk
      rw [Call.Accounts, hk] at hacc
      exact hacc
    · intro hk hover
      rw [Call.Accounts, hk] at hacc
      cases hm : c.main <;> rw [hm] at hover hacc
      case raised => exact hacc
      case returned => cases hacc
      all_goals cases hover
  · intro i hi
    obtain ⟨hlives, htaken, hopen⟩ := ha.job i hi
    obtain ⟨c, hc, halive⟩ := (Option.any_eq_true _ _).mp hlives
    exact ⟨c, hc, halive, (ha.account i c hc).holds (List.ne_nil_of_mem htaken) hopen⟩
  · intro i hi
    obtain ⟨hlives, htaken, hopen⟩ := ha.model i hi
    obtain ⟨c, hc, halive⟩ := (Option.any_eq_true _ _).mp hlives
    have hacc := ha.account i c hc
    refine ⟨c, hc, halive, hacc.holds (List.ne_nil_of_mem htaken) ?_⟩
    -- the execution lock is closed first
    have hprefixes : ∀ l ∈ [.takeJob, .closeJob].inits ++
        [.takeJob, .takeModel, .closeModel, LockOp.closeJob].inits,
        LockOp.takeModel ∈ l → LockOp.closeModel ∉ l → LockOp.closeJob ∉ l := by
      decide
    refine hprefixes _ ?_ htaken hopen
    rw [List.mem_append, List.mem_inits, List.mem_inits]
    exact hacc.shape

/-! A job whose result is asked for again. -/

/-- The call of `endedRun` to its end, a second call that finds the result, and a third. -/
def replayRun : List Event :=
  uploadedRun ++ (List.replicate 3 (.collect 0 (cleanIo noteScene)) ++ (mains 0 1 ++
    .process 0 killSpec :: (mains 1 3 ++ .process 0 killSpec :: mains 2 2)))

theorem replayRun_leaks :
    (exec (step noteHost "job") (Sys.init emptyFiles) replayRun).map
      (fun s => ((s.calls.map Call.main)[2]?, s.calls.map fun c => c.collector.holds)) =
        some (some (.raised (.worker alreadyRunning)), [false, false, false]) ∧
    ¬ ∀ (es : List Event) (s : Sys), exec (step noteHost "job") (Sys.init emptyFiles) es = some s →
      ∀ (i : ℕ) (c : Call), s.calls[i]? = some c → c.collector.isIdle = true → c.main.isOver = true →
        opsOf i (trace (step noteHost "job") lockOps (Sys.init emptyFiles) es) = [] ∨
        opsOf i (trace (step noteHost "job") lockOps (Sys.init emptyFiles) es) =
          [.takeJob, .closeJob] := by
  have hreturned : (exec (step noteHost "job") (Sys.init emptyFiles) replayRun).any (fun s =>
      (s.calls[1]?).any fun c => c.collector.isIdle && c.main.isOver) = true := by
    decide +kernel
  have hops : opsOf 1 (trace (step noteHost "job") lockOps (Sys.init emptyFiles) replayRun) =
      [.takeJob] := by
    decide +kernel
  refine ⟨by decide +kernel, fun hall => ?_⟩
  obtain ⟨s, hs, hcalls⟩ := (Option.any_eq_true _ _).mp hreturned
  obtain ⟨c, hc, hover⟩ := (Option.any_eq_true _ _).mp hcalls
  rw [Bool.and_eq_true] at hover
  rcases hall replayRun s hs 1 c hc hover.1 hover.2 with h | h
  · rw [hops] at h
    cases h
  · rw [hops] at h
    cases h

/-- A call whose upload fails. -/
def uploadFails : List Event :=
  .process 0 killSpec :: (mains 0 6 ++ (List.replicate 6 (.collect 0 (cleanIo noteScene)) ++
    .daemon noteFiles true :: (List.replicate 2 (.collect 0 (cleanIo noteScene)) ++
      .collect 0 { fault := some .other } :: (collects 0 2 ++ mains 0 1))))

/-- `Closes`, where it can be evaluated: nothing is read back and nothing fails to start. -/
def Sys.closes (s : Sys) : Event → Bool
  | .main i io => (s.calls[i]?).all fun c =>
      (c.main != .readState || s.file.isNone) && (c.main != .start || io.fault.isNone)
  | _ => true

theorem closes_of_check (s : Sys) (e : Event) (he : s.closes e = true) : Closes h s e := by
  cases e with
  | main i io =>
    intro c hc
    rw [Sys.closes, hc, Option.all_some, Bool.and_eq_true] at he
    constructor
    · intro hm st hst
      have hnone := he.1
      rw [hm, hst] at hnone
      cases hnone
    · intro hm
      have hnone := he.2
      rw [hm] at hnone
      simpa using hnone
  | process _ _ | collect _ _ | kill _ | otherJob _ | daemon _ _ => trivial

theorem locks_closed_uploadFails :
    ∃ s, exec (step noteHost "job") (Sys.init emptyFiles) uploadFails = some s ∧
      opsOf 0 (trace (step noteHost "job") lockOps (Sys.init emptyFiles) uploadFails) =
        [.takeJob, .takeModel, .closeModel, .closeJob] ∧
      ∀ i, s.jobLock = some i → ∃ c, s.calls[i]? = some c ∧ c.alive = true ∧ c.holds = true := by
  have hchecks : checks (step noteHost "job") Sys.closes (Sys.init emptyFiles) uploadFails = true := by
    decide +kernel
  have hsome : (exec (step noteHost "job") (Sys.init emptyFiles) uploadFails).isSome = true := by
    decide +kernel
  obtain ⟨s, hs⟩ := Option.isSome_iff_exists.mp hsome
  have hclosed := locks_closed emptyFiles (meets_of_checks closes_of_check hchecks) hs
  exact ⟨s, hs, by decide +kernel, hclosed.2.1⟩

end Inference.V73
