import Inference.Pool.Guard

/-!
# Inference.Pool.Membership — what `_update_workers` makes of a snapshot

* `Sys.Members`: in every reachable state the members are under their own IDs and running, and
  whoever waits to be retired has been stopped.
* `Course`: how far a call of `_update_workers` has come; its own statements and everybody else's
  keep it.
* `Refines`: the pool is what the snapshot says, and the members the snapshot does not change keep
  their batches.
* **`update_refines_iff`**: that is so when the call returns exactly when no member it finds under an
  ID of the snapshot has another address: a proxy is never replaced.
-/

namespace Inference.Pool.Machine

open Inference.Lib
open Inference.Discovery (WorkerInfo)

/-! ## Members -/

namespace Point

/-- Proxies that were stopped and that the thread has still to retire. -/
def retired : Point → List ℕ
  | .gone _ removed | .begin _ _ removed => removed
  | .retire _ rest => rest
  | .swap p _ rest => p :: rest
  | .process _ _ k => k.proxies
  | .resubmit f _ => f.k.proxies
  | _ => []

/-- Proxies `stop` has seen to or has still to stop. -/
def swept : Point → List ℕ × List ℕ
  | .beginAll rest all => (rest, all)
  | _ => ([], [])

end Point

structure Sys.Members (s : Sys) : Prop where
  keys : Dict.Keys s.workers
  ids : ∀ wid p, Dict.get? wid s.workers = some p → (s.proxies p).workerId = wid
  live : ∀ wid p, Dict.get? wid s.workers = some p → (s.proxies p).stop = false
  pending : ∀ who, ∀ p ∈ (s.points who).pending, ∀ wid, Dict.get? wid s.workers ≠ some p
  retired : ∀ who, ∀ p ∈ (s.points who).retired, (s.proxies p).stop = true
  swept : ∀ who, ∀ p ∈ (s.points who).swept.2, p ∈ (s.points who).swept.1 ∨
    (s.proxies p).stop = true

theorem Sys.Init.members {s : Sys} (h : s.Init) : s.Members where
  keys := by simp [h.workers, Dict.Keys]
  ids := fun wid p hp => by simp [h.workers, Dict.get?] at hp
  live := fun wid p hp => by simp [h.workers, Dict.get?] at hp
  pending := fun who p hp => by simp [h.points who, Point.pending] at hp
  retired := fun who p _ => (h.proxies p).1
  swept := fun who p _ => .inr (h.proxies p).1

section Stmts

variable {cfg : Config} {s t : Sys} {o : Outcome} {who : Who} {pt pt' : Point} {eff : Effect}

theorem apply_get? (cfg : Config) (who : Who) (hk : Dict.Keys s.workers) {wid : String} {p : ℕ}
    (h : Dict.get? wid (s.apply cfg who eff).workers = some p) :
    Dict.get? wid s.workers = some p ∨ ∃ address, eff = .create wid address ∧ p = s.size := by
  cases eff with
  | create k address =>
    by_cases hw : wid = k
    · subst hw
      right
      exact ⟨address, rfl, by simpa [Sys.apply, eq_comm] using h⟩
    · left
      rwa [← Dict.get?_set_of_ne hw s.size s.workers]
  | drop k =>
    by_cases hw : wid = k
    · subst hw
      simp [Sys.apply, Dict.get?_del_self hk] at h
    · left
      rwa [← Dict.get?_del_of_ne hw s.workers]
  | close => simp [Sys.apply, Dict.get?] at h
  | _ => exact .inl h

theorem apply_keys (cfg : Config) (who : Who) (hk : Dict.Keys s.workers) (eff : Effect) :
    Dict.Keys (s.apply cfg who eff).workers := by
  cases eff with
  | create k address => exact hk.set k s.size
  | drop k => exact hk.del k
  | close => exact List.nodup_nil
  | _ => exact hk

/-- Whoever is stopped is no member any more, or was stopped before. -/
theorem Stmt.beginStop {p : ℕ} {r : Bool} (h : Stmt cfg s o pt (.beginStop p r) pt') :
    p ∈ pt.pending ∨ p ∈ pt.retired := by
  cases h with
  | begin q rest removed => exact .inl List.mem_cons_self
  | retire retryPending q rest => exact .inr List.mem_cons_self
  | beginAll q rest all => exact .inl List.mem_cons_self

/-- A running proxy runs on unless it is stopped. -/
theorem apply_live (cfg : Config) (s : Sys) (who : Who) {eff : Effect} {p : ℕ}
    (h : (s.proxies p).stop = false) (hne : ∀ r, eff ≠ .beginStop p r) :
    ((s.apply cfg who eff).proxies p).stop = false := by
  have hset : ∀ (q : ℕ) (w : Proxy), (q = p → w.stop = false) →
      (Function.update s.proxies q w p).stop = false := by
    intro q w hw
    by_cases hq : q = p
    · subst hq
      simpa using hw rfl
    · simpa [Function.update_of_ne (Ne.symm hq)] using h
  cases eff with
  | push q batch => exact hset q _ (by rintro rfl; exact h)
  | handoff r q i => exact hset q _ (by rintro rfl; exact h)
  | pop q => exact hset q _ (by rintro rfl; exact h)
  | finish q => exact hset q _ (by rintro rfl; exact h)
  | swap q => exact hset q _ (by rintro rfl; exact h)
  | beginStop q r => exact hset q _ (by rintro rfl; exact absurd rfl (hne r))
  | route q state => exact hset q _ (by rintro rfl; exact h)
  | create wid address => exact hset s.size _ fun _ => rfl
  | _ => exact h

theorem Stmt.pending (h : Stmt cfg s o pt eff pt') {p : ℕ} (hp : p ∈ pt'.pending) :
    p ∈ pt.pending ∨ eff = .close ∨ ∃ wid, eff = .drop wid ∧ Dict.get? wid s.workers = some p := by
  cases h with
  | returned q k => cases k <;> simp [Cont.after, Point.pending] at hp
  | drop hw rest removed =>
    obtain rfl := List.mem_singleton.mp hp
    exact .inr (.inr ⟨_, rfl, hw⟩)
  | stop hl => exact .inr (.inl rfl)
  | beginAll q rest all => exact .inl (List.mem_cons_of_mem _ hp)
  | _ => simp [Point.pending, Frame.refused, Frame.accepted] at hp

theorem Stmt.retiring (h : Stmt cfg s o pt eff pt') {p : ℕ} (hp : p ∈ pt'.retired) :
    p ∈ pt.retired ∨ (∃ r, eff = .beginStop p r) ∨ (pt.swept.1 = [] ∧ p ∈ pt.swept.2) := by
  cases h with
  | returned q k => cases k <;> simp_all [Cont.after, Point.retired, Cont.proxies]
  | begin q rest removed =>
    rcases List.mem_append.mp hp with hold | hnew
    · exact .inl hold
    · obtain rfl := List.mem_singleton.mp hnew
      exact .inr (.inl ⟨_, rfl⟩)
  | swap q r rest => exact .inl (List.mem_cons_of_mem _ hp)
  | closed all => exact .inr (.inr ⟨rfl, hp⟩)
  | _ => exact .inl hp

theorem Stmt.swept (h : Stmt cfg s o pt eff pt') {p : ℕ} (hp : p ∈ pt'.swept.2) :
    p ∈ pt'.swept.1 ∨ (p ∈ pt.swept.2 ∧ (p ∈ pt.swept.1 → ∃ r, eff = .beginStop p r)) := by
  cases h with
  | returned q k => cases k <;> simp [Cont.after, Point.swept] at hp
  | stop hl => exact .inl hp
  | beginAll q rest all =>
    by_cases hr : p ∈ rest
    · exact .inl hr
    · refine .inr ⟨hp, fun hin => ?_⟩
      rcases List.mem_cons.mp hin with rfl | hin
      · exact ⟨_, rfl⟩
      · exact absurd hin hr
  | _ => simp [Point.swept, Frame.refused, Frame.accepted] at hp

/-- A proxy that exists and was stopped stays so. -/
theorem apply_stopped (cfg : Config) (s : Sys) (who : Who) (eff : Effect) {p : ℕ} (hp : p < s.size)
    (h : (s.proxies p).stop = true) : ((s.apply cfg who eff).proxies p).stop = true := by
  refine (apply_stop cfg s who eff h).resolve_right ?_
  rintro ⟨_, _, -, rfl⟩
  exact lt_irrefl _ hp

theorem apply_beginStop (cfg : Config) (s : Sys) (who : Who) (p : ℕ) (r : Bool) :
    ((s.apply cfg who (.beginStop p r)).proxies p).stop = true := by
  simp [Sys.apply, Sys.setProxy, beginStop_stop]

theorem proxies_of_pending {p : ℕ} (h : p ∈ pt.pending) : p ∈ pt.proxies := by
  cases pt <;> simp_all [Point.pending, Point.proxies]

theorem proxies_of_retired {p : ℕ} (h : p ∈ pt.retired) : p ∈ pt.proxies := by
  cases pt <;> simp_all [Point.retired, Point.proxies]

theorem proxies_of_swept {p : ℕ} (h : p ∈ pt.swept.2) : p ∈ pt.proxies := by
  cases pt <;> simp_all [Point.swept, Point.proxies]

theorem Sys.Members.act_pending (h : s.Members) (hb : s.Bounded)
    (hst : Stmt cfg s o (s.points who) eff pt') (who' : Who) {p : ℕ}
    (hp : p ∈ (((s.apply cfg who eff).goto who pt').points who').pending) (wid : String) :
    Dict.get? wid (s.apply cfg who eff).workers ≠ some p := by
  have hold : ∀ who', p ∈ (s.points who').pending →
      Dict.get? wid (s.apply cfg who eff).workers ≠ some p := by
    intro who' hp hw
    rcases apply_get? cfg who h.keys hw with hw | ⟨address, -, rfl⟩
    · exact h.pending who' p hp wid hw
    · exact lt_irrefl _ (hb.points who' _ (proxies_of_pending hp))
  refine act_points (fun _ pt => p ∈ pt.pending →
    Dict.get? wid (s.apply cfg who eff).workers ≠ some p) (fun hp hw => ?_)
    (fun who' _ => hold who') (fun hp => by simp [Point.pending] at hp) who' hp
  rcases hst.pending hp with hin | rfl | ⟨k, rfl, hk⟩
  · exact hold who hin hw
  · simp [Sys.apply, Dict.get?] at hw
  · -- the member just popped was under one ID only
    have hids := h.ids k p hk
    by_cases hwk : wid = k
    · subst hwk
      simp [Sys.apply, Dict.get?_del_self h.keys] at hw
    · rw [Sys.apply, Dict.get?_del_of_ne hwk] at hw
      exact hwk ((h.ids wid p hw).symm.trans hids)

theorem Sys.Members.act (h : s.Members) (hb : s.Bounded) (hst : Stmt cfg s o (s.points who) eff pt') :
    ((s.apply cfg who eff).goto who pt').Members := by
  have hstopped : ∀ who', ∀ p ∈ (s.points who').proxies, (s.proxies p).stop = true →
      ((s.apply cfg who eff).proxies p).stop = true :=
    fun who' p hp => apply_stopped cfg s who eff (hb.points who' p hp)
  refine ⟨apply_keys cfg who h.keys eff, fun wid p hp => ?_, fun wid p hp => ?_,
    fun who' p hp wid => h.act_pending hb hst who' hp wid, fun who' p hp => ?_, fun who' p hp => ?_⟩
  · rcases apply_get? cfg who h.keys hp with hold | ⟨address, rfl, rfl⟩
    · have hlt : p < s.size := hb.values p (mem_values hold)
      exact ((apply_workerId cfg s who eff hlt).1).trans (h.ids wid p hold)
    · simp [Sys.apply, Sys.goto, Sys.setProxy]
  · rcases apply_get? cfg who h.keys hp with hold | ⟨address, rfl, rfl⟩
    · have hlive := h.live wid p hold
      refine apply_live cfg s who hlive ?_
      rintro r rfl
      rcases hst.beginStop with hpend | hret
      · exact h.pending who p hpend wid hold
      · simp [h.retired who p hret] at hlive
    · simp [Sys.apply, Sys.goto, Sys.setProxy]
  · refine act_points (fun _ pt => p ∈ pt.retired → ((s.apply cfg who eff).proxies p).stop = true)
      (fun hp => ?_) (fun who' _ hp => ?_) (fun hp => by simp [Point.retired] at hp) who' hp
    · rcases hst.retiring hp with hold | ⟨r, rfl⟩ | ⟨hnil, hin⟩
      · exact hstopped who p (proxies_of_retired hold) (h.retired who p hold)
      · exact apply_beginStop cfg s who p r
      · refine hstopped who p (proxies_of_swept hin) ((h.swept who p hin).resolve_left ?_)
        simp [hnil]
    · exact hstopped who' p (proxies_of_retired hp) (h.retired who' p hp)
  · refine act_points (fun _ pt => p ∈ pt.swept.2 → p ∈ pt.swept.1 ∨
      ((s.apply cfg who eff).proxies p).stop = true) (fun hp => ?_) (fun who' _ hp => ?_)
      (fun hp => by simp [Point.swept] at hp) who' hp
    · rcases hst.swept hp with hrest | ⟨hin, hdone⟩
      · exact .inl hrest
      · refine .inr ?_
        rcases h.swept who p hin with hrest | hstop
        · obtain ⟨r, rfl⟩ := hdone hrest
          exact apply_beginStop cfg s who p r
        · exact hstopped who p (proxies_of_swept hin) hstop
    · exact (h.swept who' p hp).imp id (hstopped who' p (proxies_of_swept hp))

/-- The membership, the threads' points and the stop flags are all that matters. -/
theorem Sys.Members.start (h : s.Members) {n : ℕ} {pt : Point} (submitted : List ℕ)
    (hp : pt.pending = []) (hr : pt.retired = []) (hw : pt.swept = ([], [])) :
    ({ s.goto (.thread n) pt with submitted := submitted } : Sys).Members := by
  refine ⟨h.keys, h.ids, h.live, fun who p hin => ?_, fun who p hin => ?_, fun who p hin => ?_⟩
  · by_cases hwho : who = .thread n
    · subst hwho
      simp [Sys.goto, hp] at hin
    · exact h.pending who p (by simpa [Sys.goto, hwho] using hin)
  · by_cases hwho : who = .thread n
    · subst hwho
      simp [Sys.goto, hr] at hin
    · exact h.retired who p (by simpa [Sys.goto, hwho] using hin)
  · by_cases hwho : who = .thread n
    · subst hwho
      simp [Sys.goto, hw] at hin
    · simpa [Sys.goto, hwho] using h.swept who p (by simpa [Sys.goto, hwho] using hin)

/-- **Step lemma.** -/
theorem Sys.Members.step (h : s.Members) (hb : s.Bounded) {e : Event} (hs : s.step cfg e = some t) :
    t.Members := by
  cases step_cases hs with
  | tick | fail => exact ⟨h.keys, h.ids, h.live, h.pending, h.retired, h.swept⟩
  | route p state =>
    have hset := fun q => (route_same s p state q).2
    refine ⟨h.keys, fun wid q hq => (hset q).2.trans (h.ids wid q hq),
      fun wid q hq => (hset q).1.trans (h.live wid q hq), h.pending,
      fun who q hq => (hset q).1.trans (h.retired who q hq), fun who q hq => ?_⟩
    rw [(hset q).1]
    exact h.swept who q hq
  | submit | update | stop => exact h.start _ rfl rfl rfl
  | act hst => exact h.act hb hst

end Stmts

/-! ## A call of `_update_workers` -/

/-- Inside `_update_workers`, waiting for the lock or holding it. -/
def Point.updater : Point → Bool
  | .update _ => true
  | pt => pt.updating

/-- Proxy `p` is under the ID, in the state of the snapshot, and if it is new at its address. -/
def Placed (s m : Sys) (wid : String) (info : WorkerInfo) : Prop :=
  ∃ p, Dict.get? wid m.workers = some p ∧ (m.proxies p).routing = info.state ∧
    (Dict.get? wid s.workers = none → (m.proxies p).address = info.address)

/-- The IDs `ks` have been looked up and the `entries` applied; the members of `s` are still
there. -/
structure Grown (s m : Sys) (ks : List String) (entries : Discovery.Workers) : Prop where
  kept : ∀ wid p, Dict.get? wid s.workers = some p → Dict.get? wid m.workers = some p
  old : ∀ wid p, Dict.get? wid m.workers = some p → Dict.get? wid s.workers = some p ∨ wid ∈ ks
  done : ∀ wid info, (wid, info) ∈ entries → Placed s m wid info

/-- The snapshot has been applied but for the IDs `rest`, which have still to go. -/
structure Reduced (s : Sys) (S : Discovery.Workers) (m : Sys) (rest : List String) : Prop where
  kept : ∀ wid p, Dict.get? wid S ≠ none → Dict.get? wid s.workers = some p →
    Dict.get? wid m.workers = some p
  covered : ∀ wid p, Dict.get? wid m.workers = some p → Dict.get? wid S ≠ none ∨ wid ∈ rest
  outside : ∀ wid ∈ rest, Dict.get? wid S = none
  done : ∀ wid info, (wid, info) ∈ S → Placed s m wid info

/-- How far the call that found the pool in `s` has come. -/
def Course (s : Sys) (S : Discovery.Workers) (m : Sys) : Point → Prop
  | .update S' => S' = S ∧ m.workers = s.workers
  | .add S' rest => S' = S ∧ ∃ pre, S = pre ++ rest ∧ Grown s m (pre.map Prod.fst) pre
  | .route S' wid info rest => S' = S ∧ ∃ pre, S = pre ++ (wid, info) :: rest ∧
      Grown s m (pre.map Prod.fst ++ [wid]) pre ∧ ∃ p, Dict.get? wid m.workers = some p ∧
        (Dict.get? wid s.workers = none → (m.proxies p).address = info.address)
  | .gone rest _ | .begin _ rest _ => Reduced s S m rest
  | .retire _ _ | .swap _ _ _ | .halted => Reduced s S m []
  | .process _ _ k => k ≠ .loop ∧ Reduced s S m []
  | .resubmit f _ => f.k ≠ .loop ∧ Reduced s S m []
  | _ => False

/-- The membership, and the states and addresses of the proxies, are the same. -/
structure Still (m m' : Sys) : Prop where
  workers : m'.workers = m.workers
  size : m.size ≤ m'.size
  routing : ∀ p < m.size, (m'.proxies p).routing = (m.proxies p).routing
  address : ∀ p < m.size, (m'.proxies p).address = (m.proxies p).address

/-- The statement changes the membership or a routing state. -/
def Effect.membership : Effect → Bool
  | .create _ _ | .drop _ | .route _ _ | .close => true
  | _ => false

section Calls

variable {cfg : Config} {s m m' t : Sys} {S : Discovery.Workers} {o : Outcome} {who : Who} {n : ℕ}
  {pt pt' : Point} {eff : Effect}

theorem Placed.still {wid : String} {info : WorkerInfo} (h : Placed s m wid info) (hb : m.Bounded)
    (hs : Still m m') : Placed s m' wid info := by
  obtain ⟨p, hp, hr, ha⟩ := h
  have hlt : p < m.size := hb.values p (mem_values hp)
  refine ⟨p, by rw [hs.workers, hp], (hs.routing p hlt).trans hr, fun hn => ?_⟩
  exact (hs.address p hlt).trans (ha hn)

theorem Grown.still {ks : List String} {entries : Discovery.Workers} (h : Grown s m ks entries)
    (hb : m.Bounded) (hs : Still m m') : Grown s m' ks entries :=
  ⟨by rw [hs.workers]; exact h.kept, by rw [hs.workers]; exact h.old,
    fun wid info hin => (h.done wid info hin).still hb hs⟩

theorem Reduced.still {rest : List String} (h : Reduced s S m rest) (hb : m.Bounded)
    (hs : Still m m') : Reduced s S m' rest :=
  ⟨by rw [hs.workers]; exact h.kept, by rw [hs.workers]; exact h.covered, h.outside,
    fun wid info hin => (h.done wid info hin).still hb hs⟩

theorem Course.still (h : Course s S m pt) (hb : m.Bounded) (hs : Still m m') :
    Course s S m' pt := by
  cases pt with
  | update S' => exact ⟨h.1, hs.workers.trans h.2⟩
  | add S' rest =>
    obtain ⟨hS, pre, hpre, hg⟩ := h
    exact ⟨hS, pre, hpre, hg.still hb hs⟩
  | route S' wid info rest =>
    obtain ⟨hS, pre, hpre, hg, p, hp, ha⟩ := h
    refine ⟨hS, pre, hpre, hg.still hb hs, p, by rw [hs.workers, hp], fun hn => ?_⟩
    exact (hs.address p (hb.values p (mem_values hp))).trans (ha hn)
  | gone rest removed => exact Reduced.still h hb hs
  | begin p rest removed => exact Reduced.still h hb hs
  | retire r rest => exact Reduced.still h hb hs
  | swap p r rest => exact Reduced.still h hb hs
  | halted => exact Reduced.still h hb hs
  | process p pc k => exact ⟨h.1, h.2.still hb hs⟩
  | resubmit f r => exact ⟨h.1, h.2.still hb hs⟩
  | _ => exact h

/-- Only `_update_workers` and `stop` change the membership or a routing state. -/
theorem Stmt.membership (h : Stmt cfg s o pt eff pt') (he : eff.membership = true) :
    pt.updating = true ∨ eff = .close := by
  cases h with
  | create hn info snapshot rest => exact .inl rfl
  | drop hw rest removed => exact .inl rfl
  | route hw info snapshot rest => exact .inl rfl
  | stop hl => exact .inr rfl
  | _ => simp [Effect.membership] at he

/-- Every other statement leaves them as they are. -/
theorem apply_still (cfg : Config) (m : Sys) (who : Who) {eff : Effect} (pt : Point)
    (he : eff.membership = false) : Still m ((m.apply cfg who eff).goto who pt) := by
  have hset : ∀ (q : ℕ) (w : Proxy), w.routing = (m.proxies q).routing →
      ∀ p, (Function.update m.proxies q w p).routing = (m.proxies p).routing := by
    intro q w hw p
    by_cases hq : p = q
    · subst hq
      simpa using hw
    · simp [Function.update_of_ne hq]
  refine ⟨?_, apply_size_le cfg m who eff, fun p _ => ?_,
    fun p hp => (apply_workerId cfg m who eff hp).2⟩
  · cases eff <;> first | rfl | simp [Effect.membership] at he
  · cases eff with
    | push q batch => exact hset q _ (by rfl) p
    | handoff r q i => exact hset q _ (by rfl) p
    | pop q => exact hset q _ (by rfl) p
    | finish q => exact hset q _ (by rfl) p
    | swap q => exact hset q _ (by rfl) p
    | beginStop q r =>
      refine hset q _ ?_ p
      unfold Proxy.beginStop
      split <;> rfl
    | create wid address => simp [Effect.membership] at he
    | route q state => simp [Effect.membership] at he
    | _ => rfl

/-! ### The statements of the call -/

theorem Sys.Members.injective (h : m.Members) {wid k : String} {p : ℕ}
    (hw : Dict.get? wid m.workers = some p) (hk : Dict.get? k m.workers = some p) : wid = k :=
  (h.ids wid p hw).symm.trans (h.ids k p hk)

/-- The lookup of one ID finds a member, or adds one. -/
theorem Grown.lookup (cfg : Config) {pre rest : Discovery.Workers} {wid : String} {info : WorkerInfo}
    (h : Grown s m (pre.map Prod.fst) pre) (hS : Dict.Keys (pre ++ (wid, info) :: rest))
    (hb : m.Bounded) (n : ℕ) :
    Course s (pre ++ (wid, info) :: rest)
      ((m.apply cfg (.thread n) (if (Dict.get? wid m.workers).isSome then .call none
        else .create wid info.address)).goto (.thread n)
          (.route (pre ++ (wid, info) :: rest) wid info rest))
      (.route (pre ++ (wid, info) :: rest) wid info rest) := by
  have hnew : wid ∉ pre.map Prod.fst := by
    rw [Dict.Keys, List.map_append, List.map_cons] at hS
    exact fun hin => (List.disjoint_of_nodup_append hS) hin List.mem_cons_self
  cases hw : Dict.get? wid m.workers with
  | some p =>
    have hst : Still m ((m.apply cfg (.thread n) (.call none)).goto (.thread n)
        (.route (pre ++ (wid, info) :: rest) wid info rest)) :=
      apply_still cfg m (.thread n) _ rfl
    simp only [Option.isSome_some, if_true]
    have hg : Grown s m (pre.map Prod.fst ++ [wid]) pre :=
      ⟨h.kept, fun k q hk => (h.old k q hk).imp id (List.mem_append_left _), h.done⟩
    refine ⟨rfl, pre, rfl, hg.still hb hst, p, by rw [hst.workers, hw], fun hn => ?_⟩
    -- a member that was there before the call
    rcases h.old wid p hw with hold | hin
    · simp [hn] at hold
    · exact absurd hin hnew
  | none =>
    simp only [Option.isSome_none, Bool.false_eq_true, if_false]
    have hold : ∀ k, k ≠ wid → Dict.get? k (Dict.set wid m.size m.workers) = Dict.get? k m.workers :=
      fun k hk => Dict.get?_set_of_ne hk _ _
    have hproxy : ∀ p < m.size, Function.update m.proxies m.size
        ({ workerId := wid, address := info.address } : Proxy) p = m.proxies p :=
      fun p hp => Function.update_of_ne (by omega) _ _
    refine ⟨rfl, pre, rfl, ⟨fun k q hk => ?_, fun k q hk => ?_, fun k i hin => ?_⟩, m.size, ?_, ?_⟩
    · have hkm := h.kept k q hk
      have hne : k ≠ wid := by
        rintro rfl
        simp [hw] at hkm
      exact (hold k hne).trans hkm
    · by_cases hne : k = wid
      · exact .inr (by simp [hne])
      · have hkm : Dict.get? k m.workers = some q := (hold k hne).symm.trans hk
        exact (h.old k q hkm).imp id (List.mem_append_left _)
    · obtain ⟨q, hq, hr, ha⟩ := h.done k i hin
      have hne : k ≠ wid := by
        rintro rfl
        simp [hw] at hq
      have hlt := hb.values q (mem_values hq)
      refine ⟨q, (hold k hne).trans hq, ?_, fun hn => ?_⟩
      · exact (congrArg Proxy.routing (hproxy q hlt)).trans hr
      · exact (congrArg Proxy.address (hproxy q hlt)).trans (ha hn)
    · exact Dict.get?_set_self _ _ _
    · intro _
      simp [Sys.apply, Sys.goto, Sys.setProxy]

/-- `set_routing_state` of the member under the ID. -/
theorem Grown.route {pre rest : Discovery.Workers} {wid : String} {info : WorkerInfo} {p : ℕ}
    (h : Grown s m (pre.map Prod.fst ++ [wid]) pre) (hS : Dict.Keys (pre ++ (wid, info) :: rest))
    (hmem : m.Members) (hp : Dict.get? wid m.workers = some p)
    (ha : Dict.get? wid s.workers = none → (m.proxies p).address = info.address)
    (hw : m'.workers = m.workers)
    (hx : m'.proxies = Function.update m.proxies p { m.proxies p with routing := info.state }) :
    Grown s m' ((pre ++ [(wid, info)]).map Prod.fst) (pre ++ [(wid, info)]) := by
  have hnew : wid ∉ pre.map Prod.fst := by
    rw [Dict.Keys, List.map_append, List.map_cons] at hS
    exact fun hin => (List.disjoint_of_nodup_append hS) hin List.mem_cons_self
  refine ⟨by rw [hw]; exact h.kept, fun k q hk => ?_, fun k i hin => ?_⟩
  · rw [hw] at hk
    simpa using h.old k q hk
  · rcases List.mem_append.mp hin with hpre | hlast
    · obtain ⟨q, hq, hr, haq⟩ := h.done k i hpre
      have hne : q ≠ p := by
        rintro rfl
        exact hnew (hmem.injective hq hp ▸ List.mem_map_of_mem hpre)
      refine ⟨q, by rw [hw, hq], ?_, fun hn => ?_⟩
      · simpa [hx, hne] using hr
      · simpa [hx, hne] using haq hn
    · obtain ⟨rfl, rfl⟩ := Prod.mk.inj (List.mem_singleton.mp hlast)
      exact ⟨p, by rw [hw, hp], by simp [hx], fun hn => by simpa [hx] using ha hn⟩

/-- All of the snapshot is applied; what is left is to go. -/
theorem Grown.reduced (h : Grown s m (S.map Prod.fst) S) :
    Reduced s S m ((m.workers.map Prod.fst).filter fun wid => (Dict.get? wid S).isNone) := by
  refine ⟨fun wid p _ => h.kept wid p, fun wid p hp => ?_, fun wid hin => ?_, h.done⟩
  · cases hS : Dict.get? wid S with
    | some info => exact .inl (by simp)
    | none =>
      refine .inr (List.mem_filter.mpr ⟨?_, by simp [hS]⟩)
      exact List.mem_map.mpr ⟨(wid, p), Dict.mem_of_get? hp, rfl⟩
  · simpa using (List.mem_filter.mp hin).2

theorem get?_ne_none_of_mem {k : String} {info : WorkerInfo} (h : (k, info) ∈ S) :
    Dict.get? k S ≠ none := by
  induction S with
  | nil => simp at h
  | cons x S ih =>
    obtain ⟨a, v⟩ := x
    by_cases ha : a = k
    · simp [Dict.get?, ha]
    · have hin : (k, info) ∈ S := by
        refine (List.mem_cons.mp h).resolve_left fun he => ha ?_
        exact (Prod.mk.inj he).1.symm
      simpa [Dict.get?, ha] using ih hin

/-- A member that is not in the snapshot goes. -/
theorem Reduced.drop {wid : String} {rest : List String} (h : Reduced s S m (wid :: rest))
    (hmem : m.Members) (hw : m'.workers = Dict.del wid m.workers) (hx : m'.proxies = m.proxies) :
    Reduced s S m' rest := by
  have hout := h.outside wid List.mem_cons_self
  have hold : ∀ k, k ≠ wid → Dict.get? k m'.workers = Dict.get? k m.workers := by
    intro k hk
    rw [hw, Dict.get?_del_of_ne hk]
  have hne : ∀ k, Dict.get? k S ≠ none → k ≠ wid := by
    rintro k hk rfl
    exact hk hout
  refine ⟨fun k p hk hp => (hold k (hne k hk)).trans (h.kept k p hk hp), fun k p hp => ?_,
    fun k hk => h.outside k (List.mem_cons_of_mem _ hk), fun k info hin => ?_⟩
  · by_cases hk : k = wid
    · subst hk
      simp [hw, Dict.get?_del_self hmem.keys] at hp
    · refine (h.covered k p ((hold k hk).symm.trans hp)).imp id fun hin => ?_
      exact (List.mem_cons.mp hin).resolve_left hk
  · obtain ⟨p, hp, hr, ha⟩ := h.done k info hin
    exact ⟨p, (hold k (hne k (get?_ne_none_of_mem hin))).trans hp, by rw [hx]; exact hr,
      by rw [hx]; exact ha⟩

/-- **The call takes its course.** -/
theorem Course.stmt (h : Course s S m (m.points (.thread n))) (hS : Dict.Keys S) (hb : m.Bounded)
    (hmem : m.Members) (hst : Stmt cfg m o (m.points (.thread n)) eff pt')
    (hstop : m.stopping = false) :
    Course s S ((m.apply cfg (.thread n) eff).goto (.thread n) pt') pt' := by
  have hstill : eff.membership = false → Still m ((m.apply cfg (.thread n) eff).goto (.thread n) pt') :=
    apply_still cfg m (.thread n) pt'
  generalize m.points (.thread n) = pt at h hst
  cases hst with
  | update hl hs =>
    obtain ⟨rfl, hw⟩ := h
    refine ⟨rfl, [], rfl, ⟨fun wid p hp => ?_, fun wid p hp => ?_, by simp⟩⟩
    · exact (congrArg (Dict.get? wid) hw).trans hp
    · exact .inl ((congrArg (Dict.get? wid) hw).symm.trans hp)
  | updateStopping hs => simp [hstop] at hs
  | present hw info snapshot rest =>
    obtain ⟨rfl, pre, rfl, hg⟩ := h
    simpa [hw] using hg.lookup cfg hS hb n
  | create hw info snapshot rest =>
    obtain ⟨rfl, pre, rfl, hg⟩ := h
    simpa [hw] using hg.lookup cfg hS hb n
  | added snapshot =>
    obtain ⟨rfl, pre, hpre, hg⟩ := h
    rw [List.append_nil] at hpre
    subst hpre
    exact hg.reduced.still hb (hstill rfl)
  | route hw info snapshot rest =>
    obtain ⟨rfl, pre, rfl, hg, p, hp, ha⟩ := h
    obtain rfl := Option.some.inj (hw.symm.trans hp)
    exact ⟨rfl, pre ++ [(_, info)], by simp, hg.route hS hmem hp ha rfl rfl⟩
  | drop hw rest removed => exact Reduced.drop h hmem rfl rfl
  | gone removed => exact Reduced.still h hb (hstill rfl)
  | begin p rest removed => exact Reduced.still h hb (hstill rfl)
  | retired r => exact Reduced.still h hb (hstill rfl)
  | retire r p rest => exact Reduced.still h hb (hstill rfl)
  | swap p r rest => exact ⟨by simp, Reduced.still h hb (hstill rfl)⟩
  | returned p k =>
    cases k with
    | loop => exact absurd rfl h.1
    | retire r rest => exact Reduced.still h.2 hb (hstill rfl)
  | handlerStopping hs => exact ⟨h.1, h.2.still hb (hstill rfl)⟩
  | handler hl hs => exact ⟨h.1, h.2.still hb (hstill rfl)⟩
  | invoke p batch k => exact ⟨h.1, h.2.still hb (hstill rfl)⟩
  | moves hh hc hm => exact ⟨h.1, h.2.still hb (hstill rfl)⟩
  | noCandidates f => exact ⟨h.1, h.2.still hb (hstill rfl)⟩
  | candidates hne => exact ⟨h.1, h.2.still hb (hstill rfl)⟩
  | candidate hne hr hs => exact ⟨h.1, h.2.still hb (hstill rfl)⟩
  | noCandidate f w scan acc => exact ⟨h.1, h.2.still hb (hstill rfl)⟩
  | reserve hr => exact ⟨h.1, h.2.still hb (hstill rfl)⟩
  | noReserve f ws => exact ⟨h.1, h.2.still hb (hstill rfl)⟩
  | classified f idle busy => exact ⟨h.1, h.2.still hb (hstill rfl)⟩
  | busy f w scan idle busy => exact ⟨h.1, h.2.still hb (hstill rfl)⟩
  | notBusy f w scan idle busy => exact ⟨h.1, h.2.still hb (hstill rfl)⟩
  | noOffer f => exact ⟨h.1, h.2.still hb (hstill rfl)⟩
  | accepted rest ha => exact ⟨h.1, h.2.still hb (hstill rfl)⟩
  | rejected f w rest => exact ⟨h.1, h.2.still hb (hstill rfl)⟩
  | _ => exact absurd h id

/-! ### The run of the call -/

/-- What may happen during the call of thread `n`, besides time passing and tasks failing: other
threads call `submit` and `stop` and everybody moves on.  Discovery has one thread for its
snapshots, and nobody else sets routing states. -/
def Event.During (n : ℕ) : Event → Prop
  | .route _ _ | .update _ _ => False
  | .submit k _ | .stop k => k ≠ n
  | _ => True

/-- Nobody but thread `n` is inside `_update_workers`. -/
def Sys.Alone (s : Sys) (n : ℕ) : Prop :=
  ∀ who, who ≠ .thread n → (s.points who).updater = false

/-- What holds at every moment of the call that found the pool in `s`. -/
structure InCall (n : ℕ) (S : Discovery.Workers) (s m : Sys) : Prop where
  bounded : m.Bounded
  guarded : m.Guarded
  members : m.Members
  alone : m.Alone n
  size : s.size ≤ m.size
  address : ∀ p < s.size, (m.proxies p).address = (s.proxies p).address
  course : m.stopping = false → Course s S m (m.points (.thread n))

theorem Stmt.updater (h : Stmt cfg s o pt eff pt') (hu : pt'.updater = true) :
    pt.updater = true := by
  cases h with
  | returned p k => cases k <;> simp [Cont.after, Point.updater, Point.updating] at hu
  | _ => simp_all [Point.updater, Point.updating, Frame.refused, Frame.accepted]

theorem updater_of_updating (h : pt.updating = true) : pt.updater = true := by
  cases pt <;> simp_all [Point.updater, Point.updating]

theorem stopping_of_apply (cfg : Config) (who : Who) (h : (m.apply cfg who eff).stopping = false) :
    m.stopping = false ∧ eff ≠ .close := by
  rcases apply_stopping cfg m who eff with hsame | rfl
  · refine ⟨hsame ▸ h, ?_⟩
    rintro rfl
    simp [Sys.apply] at h
  · simp [Sys.apply] at h

/-- Nobody gets inside `_update_workers` by moving on. -/
theorem Sys.Alone.act (h : m.Alone n) (hst : Stmt cfg m o (m.points who) eff pt') :
    ((m.apply cfg who eff).goto who pt').Alone n := by
  intro who' hw
  refine act_points (fun who' pt => who' ≠ .thread n → pt.updater = false) (fun hw => ?_)
    (fun who' _ => h who') (fun _ => rfl) who' hw
  by_contra hu
  have hpt := hst.updater (by simpa using hu)
  simp [h who hw] at hpt

theorem InCall.act (h : InCall n S s m) (hS : Dict.Keys S)
    (hst : Stmt cfg m o (m.points who) eff pt') :
    InCall n S s ((m.apply cfg who eff).goto who pt') := by
  refine ⟨h.bounded.act hst, ?_, h.members.act h.bounded hst, h.alone.act hst,
    le_trans h.size (apply_size_le cfg m who eff), fun p hp => ?_, fun hstop => ?_⟩
  · exact ⟨h.guarded.act_mutex hst, h.guarded.act_updating hst, h.guarded.act_closing hst,
      h.guarded.act_empty hst, h.guarded.act_reach hst, h.guarded.act_done hst⟩
  · exact (apply_workerId cfg m who eff (lt_of_lt_of_le hp h.size)).2.trans (h.address p hp)
  · obtain ⟨hs, hclose⟩ := stopping_of_apply cfg who hstop
    have hcourse := h.course hs
    by_cases hw : who = .thread n
    · subst hw
      have hpt : ((m.apply cfg (.thread n) eff).goto (.thread n) pt').points (.thread n) = pt' := by
        simp [Sys.goto]
      rw [hpt]
      exact hcourse.stmt hS h.bounded h.members hst hs
    · -- another thread is not inside `_update_workers`
      have hmem : eff.membership = false := by
        by_contra hmem
        rcases hst.membership (by simpa using hmem) with hu | hc
        · have := updater_of_updating hu
          simp [h.alone who hw] at this
        · exact hclose hc
      have hstill := apply_still cfg m who pt' hmem
      have hnew : ∀ wid address, eff ≠ .create wid address := by
        rintro wid address rfl
        simp [Effect.membership] at hmem
      have hpt : ((m.apply cfg who eff).goto who pt').points (.thread n) = m.points (.thread n) := by
        simp [Sys.goto, Ne.symm hw, apply_points_eq cfg m who hnew]
      rw [hpt]
      exact hcourse.still h.bounded hstill

/-- **Step lemma.** -/
theorem Sys.Alone.step (h : m.Alone n) {e : Event} (he : ∀ k snapshot, e = .update k snapshot → k = n)
    (hs : m.step cfg e = some t) : t.Alone n := by
  have hstart : ∀ (k : ℕ) (pt : Point), (k ≠ n → pt.updater = false) →
      (m.goto (.thread k) pt).Alone n := by
    intro k pt hpt who hw
    by_cases hwk : who = .thread k
    · subst hwk
      simpa [Sys.goto] using hpt fun hk => hw (congrArg Who.thread hk)
    · simpa [Sys.goto, hwk] using h who hw
  cases step_cases hs with
  | tick | fail | route => exact h
  | @submit k batch => exact hstart k (.grouping batch []) fun _ => rfl
  | @update k snapshot => exact hstart k _ fun hk => absurd (he k snapshot rfl) hk
  | @stop k => exact hstart k _ fun _ => rfl
  | act hst => exact h.act hst

/-- Another thread calls the pool meanwhile. -/
theorem InCall.start (h : InCall n S s m) {k : ℕ} (hk : k ≠ n) (pt : Point) (submitted : List ℕ)
    (hstop : m.stopping = false) :
    Course s S ({ m.goto (.thread k) pt with submitted := submitted } : Sys)
      (({ m.goto (.thread k) pt with submitted := submitted } : Sys).points (.thread n)) := by
  have hne : Who.thread n ≠ .thread k := fun he => hk (Who.thread.inj he).symm
  have hstill : Still m ({ m.goto (.thread k) pt with submitted := submitted } : Sys) :=
    ⟨rfl, le_rfl, fun _ _ => rfl, fun _ _ => rfl⟩
  simpa [Sys.goto, hne] using (h.course hstop).still h.bounded hstill

/-- **Step lemma.** -/
theorem InCall.step (h : InCall n S s m) (hS : Dict.Keys S) {e : Event} (he : e.During n)
    (hs : m.step cfg e = some t) : InCall n S s t := by
  have hb := h.bounded.step hs
  have hg := h.guarded.step hs
  have hm := h.members.step h.bounded hs
  have ha : t.Alone n := by
    refine h.alone.step ?_ hs
    rintro k snapshot rfl
    exact absurd he id
  cases step_cases hs with
  | tick | fail =>
    exact ⟨hb, hg, hm, ha, h.size, h.address, fun hstop => (h.course hstop).still h.bounded
      ⟨rfl, le_rfl, fun _ _ => rfl, fun _ _ => rfl⟩⟩
  | route | update => exact absurd he id
  | submit => exact ⟨hb, hg, hm, ha, h.size, h.address, h.start he _ _⟩
  | stop => exact ⟨hb, hg, hm, ha, h.size, h.address, h.start he .stop m.submitted⟩
  | act hst => exact h.act hS hst

/-- The start of the call. -/
theorem InCall.begin (hb : s.Bounded) (hg : s.Guarded) (hm : s.Members) (ha : s.Alone n)
    (hu : s.step cfg (.update n S) = some m) : InCall n S s m ∧ Dict.Keys S := by
  have hb' := hb.step hu
  have hg' := hg.step hu
  have hm' := hm.step hb hu
  cases step_cases hu with
  | update _ hkeys =>
    refine ⟨⟨hb', hg', hm', fun who hw => ?_, le_rfl, fun _ _ => rfl, fun _ => ?_⟩, hkeys⟩
    · simpa [Sys.goto, hw] using ha who hw
    · simp [Sys.goto, Course]

/-- **Run lemma.** -/
theorem InCall.exec (h : InCall n S s m) (hS : Dict.Keys S) {es : List Event}
    (hes : ∀ e ∈ es, e.During n) (hm : exec (Sys.step cfg) m es = some t) : InCall n S s t :=
  exec_inv_meets (C := fun _ e => e.During n) (fun _ _ _ he hi hs => hi.step hS he hs)
    (meets_of_forall (fun e he _ => hes e he) m) h hm

/-- A member whose ID is in the snapshot stays. -/
theorem Course.member {wid : String} {p : ℕ} (h : Course s S m pt) (hS : Dict.get? wid S ≠ none)
    (hp : Dict.get? wid s.workers = some p) : Dict.get? wid m.workers = some p := by
  cases pt with
  | update S' => exact (congrArg (Dict.get? wid) h.2).trans hp
  | add S' rest =>
    obtain ⟨-, pre, -, hg⟩ := h
    exact hg.kept wid p hp
  | route S' k info rest =>
    obtain ⟨-, pre, -, hg, -⟩ := h
    exact hg.kept wid p hp
  | gone rest removed => exact Reduced.kept h wid p hS hp
  | begin q rest removed => exact Reduced.kept h wid p hS hp
  | retire r rest => exact Reduced.kept h wid p hS hp
  | swap q r rest => exact Reduced.kept h wid p hS hp
  | halted => exact Reduced.kept h wid p hS hp
  | process q pc k => exact h.2.kept wid p hS hp
  | resubmit f r => exact h.2.kept wid p hS hp
  | _ => exact absurd h id

theorem stopping_of_step {e : Event} (hs : m.step cfg e = some t) (h : t.stopping = false) :
    m.stopping = false := by
  cases step_cases hs with
  | tick | fail | route | submit | update | stop => exact h
  | @act who => exact (stopping_of_apply cfg who h).1

theorem stopping_of_exec {es : List Event} (hs : exec (Sys.step cfg) m es = some t)
    (h : t.stopping = false) : m.stopping = false := by
  induction es generalizing m with
  | nil =>
    obtain rfl := Option.some.inj hs
    exact h
  | cons e es ih =>
    obtain ⟨u, hu, hrest⟩ := exec_cons.mp hs
    exact stopping_of_step hu (ih hrest)

/-! ### What the call leaves alone -/

/-- The proxy whose dispatch thread stands at the point. -/
def Point.dispatch : Point → Option ℕ
  | .top p | .inner p | .ending p => some p
  | .process p _ .loop => some p
  | .resubmit f _ => if f.k = .loop then some f.p else none
  | _ => none

/-- Only a proxy's own thread runs its dispatch loop. -/
def Sys.Own (s : Sys) : Prop := ∀ who p, (s.points who).dispatch = some p → who = .loop p

theorem Sys.Init.own (h : s.Init) : s.Own := fun who p hp => by
  simp [h.points who, Point.dispatch] at hp

theorem Stmt.dispatch (h : Stmt cfg s o pt eff pt') {p : ℕ} (hp : pt'.dispatch = some p) :
    pt.dispatch = some p := by
  cases h with
  | returned q k => cases k <;> simp_all [Cont.after, Point.dispatch]
  | invoke q batch k => cases k <;> simp_all [Point.dispatch]
  | moves hh hc hm =>
    rename_i k
    cases k <;> simp_all [Point.dispatch]
  | handlerStopping hs =>
    rename_i k
    cases k <;> simp_all [Point.dispatch]
  | handler hl hs =>
    rename_i k
    cases k <;> simp_all [Point.dispatch]
  | noCandidates f =>
    obtain ⟨q, i, rest, text, allow, k⟩ := f
    cases k <;> simp_all [Point.dispatch, Frame.refused]
  | noReserve f candidates =>
    obtain ⟨q, i, rest, text, allow, k⟩ := f
    cases k <;> simp_all [Point.dispatch, Frame.refused]
  | noOffer f =>
    obtain ⟨q, i, rest, text, allow, k⟩ := f
    cases k <;> simp_all [Point.dispatch, Frame.refused]
  | accepted rest ha =>
    rename_i f w
    obtain ⟨q, i, rest', text, allow, k⟩ := f
    cases k <;> simp_all [Point.dispatch, Frame.accepted]
  | _ => simp_all [Point.dispatch]

/-- **Step lemma.** -/
theorem Sys.Own.step (h : s.Own) {e : Event} (hs : s.step cfg e = some t) : t.Own := by
  have hstart : ∀ (k : ℕ) (pt : Point), pt.dispatch = none → (s.goto (.thread k) pt).Own := by
    intro k pt hpt who p hp
    by_cases hw : who = .thread k
    · subst hw
      simp [Sys.goto, hpt] at hp
    · exact h who p (by simpa [Sys.goto, hw] using hp)
  cases step_cases hs with
  | tick | fail | route => exact h
  | @submit k batch => exact hstart k (.grouping batch []) rfl
  | @update k => exact hstart k _ rfl
  | @stop k => exact hstart k _ rfl
  | @act who _ _ _ hst =>
    intro who' p hp
    refine act_points (fun who' pt => pt.dispatch = some p → who' = .loop p)
      (fun hp => h who p (hst.dispatch hp)) (fun who' _ => h who' p) (fun hp => ?_) who' hp
    obtain rfl := Option.some.inj hp
    rfl

/-- A queue only grows, but for its own dispatch thread and for whoever retires the proxy. -/
theorem Stmt.queue (h : Stmt cfg m o pt eff pt') (who : Who) {p : ℕ} (hlt : p < m.size)
    (hd : pt.dispatch ≠ some p) (hr : p ∉ pt.retired) :
    (m.proxies p).queue <+: ((m.apply cfg who eff).proxies p).queue := by
  have hset : ∀ (q : ℕ) (w : Proxy), (q = p → (m.proxies p).queue <+: w.queue) →
      (m.proxies p).queue <+: (Function.update m.proxies q w p).queue := by
    intro q w hw
    by_cases hq : q = p
    · subst hq
      simpa using hw rfl
    · rw [Function.update_of_ne (Ne.symm hq)]
  cases eff with
  | push q batch => exact hset q _ (by rintro rfl; exact List.prefix_append _ _)
  | handoff r q i => exact hset q _ (by rintro rfl; exact List.prefix_append _ _)
  | pop q =>
    refine hset q _ fun hq => absurd ?_ hd
    cases h with
    | pop hs hq' => exact congrArg some hq
  | finish q => exact hset q _ (by rintro rfl; exact List.prefix_rfl)
  | swap q =>
    refine hset q _ fun hq => absurd ?_ hr
    cases h with
    | swap q r rest => exact hq ▸ List.mem_cons_self
  | beginStop q r =>
    refine hset q _ ?_
    rintro rfl
    rw [beginStop_queue]
  | route q state => exact hset q _ (by rintro rfl; exact List.prefix_rfl)
  | create wid address => exact hset m.size _ fun hq => absurd hq (by omega)
  | _ => exact List.prefix_rfl

/-- A member keeps its batches in every step that is not its own thread's. -/
theorem step_keeps (hb : m.Bounded) (hm : m.Members) (ho : m.Own) {wid : String} {p : ℕ}
    (hp : Dict.get? wid m.workers = some p) {e : Event} (hs : m.step cfg e = some t)
    (hne : ∀ o, e ≠ .act (.loop p) o) :
    (m.proxies p).queue <+: (t.proxies p).queue ∧ t.points (.loop p) = m.points (.loop p) := by
  have hgoto : ∀ k pt, (m.goto (.thread k) pt).points (.loop p) = m.points (.loop p) := by
    intro k pt
    simp [Sys.goto]
  cases step_cases hs with
  | tick | fail => exact ⟨List.prefix_rfl, rfl⟩
  | route q state => exact ⟨by rw [(route_same m q state p).1], rfl⟩
  | @submit k batch => exact ⟨List.prefix_rfl, hgoto k (.grouping batch [])⟩
  | @update k => exact ⟨List.prefix_rfl, hgoto k _⟩
  | @stop k => exact ⟨List.prefix_rfl, hgoto k _⟩
  | @act who o eff pt' hst =>
    have hlt := hb.values p (mem_values hp)
    have hwho : who ≠ .loop p := by
      rintro rfl
      exact hne o rfl
    refine ⟨hst.queue who hlt (fun hd => hwho (ho who p hd)) fun hr => ?_, ?_⟩
    · have hlive := hm.live wid p hp
      rw [hm.retired who p hr] at hlive
      exact absurd hlive (by simp)
    · have hpt : ((m.apply cfg who eff).goto who pt').points (.loop p) =
          (m.apply cfg who eff).points (.loop p) := by simp [Sys.goto, Ne.symm hwho]
      rw [hpt]
      refine (apply_points cfg m who eff (.loop p)).resolve_right ?_
      rintro ⟨hnew, -⟩
      exact lt_irrefl _ (Who.loop.inj hnew ▸ hlt)

theorem Sys.Init.reachable {s₀ : Sys} (hinit : s₀.Init) {es : List Event}
    (h : exec (Sys.step cfg) s₀ es = some s) : s.Bounded ∧ s.Guarded ∧ s.Members ∧ s.Own :=
  exec_inv (P := fun s => s.Bounded ∧ s.Guarded ∧ s.Members ∧ s.Own)
    (fun _ _ _ hi hs => ⟨hi.1.step hs, hi.2.1.step hs, hi.2.2.1.step hi.1 hs, hi.2.2.2.step hs⟩)
    ⟨hinit.bounded, hinit.guarded, hinit.members, hinit.own⟩ h

/-- At every moment of a call that returns to a pool that is not stopping, a member whose ID is in
the snapshot is there. -/
theorem member_throughout (hall : s.Bounded ∧ s.Guarded ∧ s.Members ∧ s.Own) (ha : s.Alone n)
    {es : List Event} (hes : ∀ e ∈ es, e.During n) {pre post : List Event}
    (hsplit : .update n S :: es = pre ++ post) (hpre : exec (Sys.step cfg) s pre = some m)
    (hpost : exec (Sys.step cfg) m post = some t) (hstop : t.stopping = false) {wid : String} {p : ℕ}
    (hS : Dict.get? wid S ≠ none) (hp : Dict.get? wid s.workers = some p) :
    Dict.get? wid m.workers = some p := by
  obtain ⟨hb, hg, hm, -⟩ := hall
  cases pre with
  | nil =>
    obtain rfl := Option.some.inj hpre
    exact hp
  | cons e pre =>
    obtain ⟨rfl, rfl⟩ := List.cons.inj hsplit
    obtain ⟨u, hu, hrest⟩ := exec_cons.mp hpre
    obtain ⟨hcall, hkeys⟩ := InCall.begin hb hg hm ha hu
    have hin := hcall.exec hkeys (fun e he => hes e (List.mem_append_left _ he)) hrest
    exact (hin.course (stopping_of_exec hpost hstop)).member hS hp

end Calls

/-! ## The snapshot and the pool -/

/-- During the run the proxy is not stopped, and nobody but its own dispatch thread takes a batch out
of its queue or touches the batch that is active. -/
def Untouched (cfg : Config) (s : Sys) (p : ℕ) (es : List Event) : Prop :=
  ∀ pre e post m m', es = pre ++ e :: post → exec (Sys.step cfg) s pre = some m →
    m.step cfg e = some m' → (m'.proxies p).stop = false ∧ ((∀ o, e ≠ .act (.loop p) o) →
      (m.proxies p).queue <+: (m'.proxies p).queue ∧ m'.points (.loop p) = m.points (.loop p))

/-- The call `es`, from `s` to `t`, has made the pool what the snapshot says. -/
structure Refines (cfg : Config) (S : Discovery.Workers) (s : Sys) (es : List Event) (t : Sys) :
    Prop where
  keys : Dict.Keys t.workers
  /-- one running proxy for each ID, at its address and in its state -/
  present : ∀ wid info, Dict.get? wid S = some info → ∃ p, Dict.get? wid t.workers = some p ∧
    (t.proxies p).workerId = wid ∧ (t.proxies p).stop = false ∧
    (t.proxies p).address = info.address ∧ (t.proxies p).routing = info.state ∧
    ∀ q, (t.proxies q).stop = false → (t.proxies q).workerId = wid → q = p
  absent : ∀ wid, Dict.get? wid S = none → Dict.get? wid t.workers = none
  /-- whoever is no member has been stopped -/
  left : ∀ p, p ∉ t.values → (t.proxies p).stop = true ∧ (t.proxies p).accepts = false
  /-- what the snapshot does not change keeps its batches -/
  kept : ∀ wid info p, Dict.get? wid S = some info → Dict.get? wid s.workers = some p →
    (s.proxies p).address = info.address → (s.proxies p).routing = info.state →
    Dict.get? wid t.workers = some p ∧ Untouched cfg s p es

/-- No member under an ID of the snapshot has another address. -/
def Agrees (s : Sys) (S : Discovery.Workers) : Prop :=
  ∀ wid info p, Dict.get? wid S = some info → Dict.get? wid s.workers = some p →
    (s.proxies p).address = info.address

theorem not_accepts_of_stop {w : Proxy} (h : w.stop = true) : w.accepts = false := by
  simp [Proxy.accepts, h]

/-- When nobody changes the membership, whoever runs is a member. -/
theorem Sys.Guarded.running {s : Sys} (h : s.Guarded) (hs : s.stopping = false)
    (hu : ∀ who, (s.points who).updating = false) {p : ℕ} (hp : (s.proxies p).stop = false) :
    p ∈ s.values := by
  rcases h.reach p with hstop | hval | ⟨who, hpend⟩
  · simp [hstop] at hp
  · exact hval
  · exfalso
    have hclose : (s.points who).closing = false := by
      by_contra hc
      simp [h.closing who (by simpa using hc)] at hs
    have hup := hu who
    cases hpt : s.points who <;> simp_all [Point.pending, Point.updating, Point.closing]

/-- **`_update_workers` makes the pool what the snapshot says exactly when no member it finds under
an ID of the snapshot has another address.**  Discovery calls it from one thread at a time. -/
theorem update_refines_iff (cfg : Config) {s₀ s t : Sys} {es₀ es : List Event} {n : ℕ}
    {S : Discovery.Workers} (hinit : s₀.Init) (hreach : exec (Sys.step cfg) s₀ es₀ = some s)
    (halone : s.Alone n) (hcall : exec (Sys.step cfg) s (.update n S :: es) = some t)
    (hes : ∀ e ∈ es, e.During n) (hret : t.points (.thread n) = .halted)
    (hstop : t.stopping = false) :
    Refines cfg S s (.update n S :: es) t ↔ Agrees s S := by
  have hall := hinit.reachable hreach
  obtain ⟨hb, hg, hm, ho⟩ := hall
  obtain ⟨u, hu, hrun⟩ := exec_cons.mp hcall
  obtain ⟨hbegin, hkeys⟩ := InCall.begin hb hg hm halone hu
  have hin := hbegin.exec hkeys hes hrun
  have hcourse := hin.course hstop
  rw [hret] at hcourse
  have hred : Reduced s S t [] := hcourse
  constructor
  · intro href wid info p hS hp
    obtain ⟨q, hq, -, -, ha, -⟩ := href.present wid info hS
    have hkept := hred.kept wid p (by simp [hS]) hp
    obtain rfl := Option.some.inj (hq.symm.trans hkept)
    exact (hin.address q (hb.values q (mem_values hp))).symm.trans ha
  · intro hagree
    have hupdating : ∀ who, (t.points who).updating = false := by
      intro who
      by_cases hw : who = .thread n
      · rw [hw, hret]
        rfl
      · by_contra hup
        have := updater_of_updating (by simpa using hup)
        simp [hin.alone who hw] at this
    have hrunning : ∀ q, (t.proxies q).stop = false → q ∈ t.values :=
      fun q => hin.guarded.running hstop hupdating
    refine ⟨hin.members.keys, fun wid info hS => ?_, fun wid hS => ?_, fun p hp => ?_,
      fun wid info p hS hp _ _ => ⟨hred.kept wid p (by simp [hS]) hp, ?_⟩⟩
    · obtain ⟨p, hp, hr, ha⟩ := hred.done wid info (Dict.mem_of_get? hS)
      refine ⟨p, hp, hin.members.ids wid p hp, hin.members.live wid p hp, ?_, hr, fun q hq hw => ?_⟩
      · cases hold : Dict.get? wid s.workers with
        | none => exact ha hold
        | some p' =>
          have hkept := hred.kept wid p' (by simp [hS]) hold
          obtain rfl := Option.some.inj (hp.symm.trans hkept)
          exact (hin.address p (hb.values p (mem_values hold))).trans (hagree wid info p hS hold)
      · obtain ⟨⟨k, q'⟩, hmem, rfl⟩ := List.mem_map.mp (hrunning q hq)
        have hk := Dict.get?_of_mem hin.members.keys hmem
        have hkw : k = wid := (hin.members.ids k q' hk).symm.trans hw
        subst hkw
        exact Option.some.inj (hk.symm.trans hp)
    · cases ht : Dict.get? wid t.workers with
      | none => rfl
      | some p =>
        rcases hred.covered wid p ht with hin | hin
        · exact absurd hS hin
        · simp at hin
    · have hst : (t.proxies p).stop = true := by
        by_contra hlive
        exact hp (hrunning p (by simpa using hlive))
      exact ⟨hst, not_accepts_of_stop hst⟩
    · intro pre e post m m' hsplit hpre hstep
      have hS' : Dict.get? wid S ≠ none := by simp [hS]
      have hpre' : exec (Sys.step cfg) s (pre ++ [e]) = some m' := exec_concat.mpr ⟨m, hpre, hstep⟩
      have hpost : exec (Sys.step cfg) m (e :: post) = some t := by
        rw [hsplit] at hcall
        obtain ⟨m₁, h₁, h₂⟩ := exec_append.mp hcall
        obtain rfl := Option.some.inj (h₁.symm.trans hpre)
        exact h₂
      have hpost' : exec (Sys.step cfg) m' post = some t := by
        obtain ⟨m₁, h₁, h₂⟩ := exec_cons.mp hpost
        obtain rfl := Option.some.inj (h₁.symm.trans hstep)
        exact h₂
      have hall : s.Bounded ∧ s.Guarded ∧ s.Members ∧ s.Own := ⟨hb, hg, hm, ho⟩
      have hmem := member_throughout hall halone hes hsplit hpre hpost hstop hS' hp
      have hmem' := member_throughout hall halone hes (by simpa using hsplit) hpre' hpost' hstop hS' hp
      obtain ⟨hbm, -, hmm, hom⟩ := hinit.reachable (exec_append.mpr ⟨s, hreach, hpre⟩)
      obtain ⟨-, -, hmm', -⟩ := hinit.reachable (exec_append.mpr ⟨s, hreach, hpre'⟩)
      exact ⟨hmm'.live wid p hmem', step_keeps hbm hmm hom hmem hstep⟩

/-- Workers `a` and `b` join. -/
def joinRun : List Event :=
  .update 0 [("a", ⟨"a:1", .ready⟩), ("b", ⟨"b:1", .ready⟩)] ::
    List.replicate 8 (.act (.thread 0) lost)

theorem joinRun_alone {s : Sys} (h : exec (Sys.step sampleConfig) sampleStart joinRun = some s) :
    s.Alone 0 := by
  refine exec_inv_meets (P := fun s => s.Alone 0)
    (C := fun _ e => ∀ k snapshot, e = .update k snapshot → k = 0)
    (fun _ _ _ he ha hs => ha.step he hs) (meets_of_forall (fun e he _ => ?_) _)
    (fun _ _ => rfl) h
  rintro k snapshot rfl
  simp [joinRun] at he
  exact he.1

/-- `b` leaves and `c` joins; `a` stays. -/
theorem update_refines_sample : ∃ s t, exec (Sys.step sampleConfig) sampleStart joinRun = some s ∧
    exec (Sys.step sampleConfig) s (.update 0 [("a", ⟨"a:1", .ready⟩), ("c", ⟨"c:1", .draining⟩)] ::
      List.replicate 14 (.act (.thread 0) lost)) = some t ∧
    (Refines sampleConfig [("a", ⟨"a:1", .ready⟩), ("c", ⟨"c:1", .draining⟩)] s
      (.update 0 [("a", ⟨"a:1", .ready⟩), ("c", ⟨"c:1", .draining⟩)] ::
        List.replicate 14 (.act (.thread 0) lost)) t ↔
      Agrees s [("a", ⟨"a:1", .ready⟩), ("c", ⟨"c:1", .draining⟩)]) := by
  have hview : ((exec (Sys.step sampleConfig) sampleStart joinRun).bind fun s =>
      exec (Sys.step sampleConfig) s (.update 0 [("a", ⟨"a:1", .ready⟩), ("c", ⟨"c:1", .draining⟩)] ::
        List.replicate 14 (.act (.thread 0) lost))).map
      (fun t => (t.points (.thread 0), t.stopping)) = some (.halted, false) := by
    decide +kernel
  obtain ⟨t, ht, hv⟩ := Option.map_eq_some_iff.mp hview
  obtain ⟨s, hs, hcall⟩ := Option.bind_eq_some_iff.mp ht
  obtain ⟨hret, hstop⟩ := Prod.mk.inj hv
  refine ⟨s, t, hs, hcall, update_refines_iff sampleConfig sampleStart_init hs (joinRun_alone hs) hcall
    (fun e he => ?_) hret hstop⟩
  obtain rfl := List.eq_of_mem_replicate he
  trivial

/-- The snapshot has `a` at another address; the pool keeps the old one. -/
theorem update_keeps_address : ∃ s t, exec (Sys.step sampleConfig) sampleStart joinRun = some s ∧
    s.Alone 0 ∧ exec (Sys.step sampleConfig) s (.update 0 [("a", ⟨"a:2", .ready⟩)] ::
      List.replicate 12 (.act (.thread 0) lost)) = some t ∧
    t.points (.thread 0) = .halted ∧ t.stopping = false ∧ Dict.get? "a" t.workers = some 0 ∧
    (t.proxies 0).address = "a:1" ∧
    ¬ Refines sampleConfig [("a", ⟨"a:2", .ready⟩)] s (.update 0 [("a", ⟨"a:2", .ready⟩)] ::
      List.replicate 12 (.act (.thread 0) lost)) t := by
  have hview : ((exec (Sys.step sampleConfig) sampleStart joinRun).bind fun s =>
      exec (Sys.step sampleConfig) s (.update 0 [("a", ⟨"a:2", .ready⟩)] ::
        List.replicate 12 (.act (.thread 0) lost))).map
      (fun t => (t.points (.thread 0), t.stopping, Dict.get? "a" t.workers, (t.proxies 0).address)) =
        some (.halted, false, some 0, "a:1") := by
    decide +kernel
  obtain ⟨t, ht, hv⟩ := Option.map_eq_some_iff.mp hview
  obtain ⟨s, hs, hcall⟩ := Option.bind_eq_some_iff.mp ht
  simp only [Prod.mk.injEq] at hv
  obtain ⟨hret, hstop, hmem, haddr⟩ := hv
  refine ⟨s, t, hs, joinRun_alone hs, hcall, hret, hstop, hmem, haddr, fun href => ?_⟩
  obtain ⟨p, hp, -, -, ha, -⟩ := href.present "a" ⟨"a:2", .ready⟩ rfl
  obtain rfl := Option.some.inj (hmem.symm.trans hp)
  rw [haddr] at ha
  exact absurd ha (by decide)

end Inference.Pool.Machine
