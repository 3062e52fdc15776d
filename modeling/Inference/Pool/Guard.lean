import Inference.Pool.Custody

/-!
# Inference.Pool.Guard — the pool lock, the membership and shutdown

What the critical sections of the pool protect.

* `Sys.Bounded`: threads and membership name only proxies that exist, and a proxy's worker ID
  never changes.
* `Sys.Guarded`: one thread at a time is inside the lock; a membership change and a shutdown
  exclude each other; a proxy that runs is a member, or the thread inside the lock is about to
  stop it.  So once the critical section of `stop` is over every proxy has stopped.
-/

namespace Inference.Pool.Machine

open Inference.Lib

def Cont.proxies : Cont → List ℕ
  | .loop => []
  | .retire _ rest => rest

def Resubmit.proxies : Resubmit → List ℕ
  | .candidates scan acc => scan ++ acc
  | .reserve ws => ws
  | .classify scan idle busy => scan ++ (idle ++ busy)
  | .offer rest => rest

namespace Point

/-- The proxies a thread's local variables name. -/
def proxies : Point → List ℕ
  | .top p | .inner p | .ending p => [p]
  | .process p _ k => p :: k.proxies
  | .resubmit f r => f.p :: (f.k.proxies ++ r.proxies)
  | .gone _ removed => removed
  | .begin p _ removed => p :: removed
  | .retire _ rest => rest
  | .swap p _ rest => p :: rest
  | .beginAll rest all => rest ++ all
  | _ => []

/-- Proxies that are no longer members and that the thread has still to stop. -/
def pending : Point → List ℕ
  | .begin p _ _ => [p]
  | .beginAll rest _ => rest
  | _ => []

/-- Inside the critical section of `_update_workers`. -/
def updating : Point → Bool
  | .add _ _ | .route _ _ _ _ | .gone _ _ | .begin _ _ _ => true
  | _ => false

/-- Inside the critical section of `stop`. -/
def closing : Point → Bool
  | .beginAll _ _ => true
  | _ => false

end Point

def Effect.locks : Effect → Bool
  | .acquire | .close => true
  | _ => false

def Effect.unlocks : Effect → Bool
  | .release | .choose | .closed => true
  | _ => false

section Stmts

variable {cfg : Config} {s t : Sys} {o : Outcome} {who : Who} {pt pt' : Point} {eff : Effect}

theorem Stmt.locks (h : Stmt cfg s o pt eff pt') (he : eff.locks = true) : s.lock = none := by
  cases h with
  | handler hl _ => exact hl
  | compatible hl => exact hl
  | again hl => exact hl
  | update hl _ => exact hl
  | stop hl => exact hl
  | _ => simp [Effect.locks] at he

theorem Stmt.unlocks (h : Stmt cfg s o pt eff pt') (he : eff.unlocks = true) :
    pt.critical = true ∧ pt'.critical = false := by
  cases h <;> simp_all [Effect.unlocks, Point.critical, Frame.refused]

theorem Stmt.critical (h : Stmt cfg s o pt eff pt') (hc : pt'.critical = true) :
    eff.locks = true ∨ pt.critical = true := by
  cases h with
  | returned p k => cases k <;> simp [Cont.after, Point.critical] at hc
  | _ => simp_all [Effect.locks, Point.critical, Frame.refused, Frame.accepted]

theorem Stmt.updating (h : Stmt cfg s o pt eff pt') (hc : pt'.updating = true) :
    s.stopping = false ∨ pt.updating = true := by
  cases h with
  | returned p k => cases k <;> simp [Cont.after, Point.updating] at hc
  | update hl hs => exact .inl hs
  | _ => simp_all [Point.updating, Frame.refused, Frame.accepted]

theorem Stmt.closing (h : Stmt cfg s o pt eff pt') (hc : pt'.closing = true) :
    eff = .close ∨ pt.closing = true := by
  cases h with
  | returned p k => cases k <;> simp [Cont.after, Point.closing] at hc
  | _ => simp_all [Point.closing, Frame.refused, Frame.accepted]

theorem mem_values {wid : String} {p : ℕ} (h : Dict.get? wid s.workers = some p) : p ∈ s.values :=
  List.mem_map.mpr ⟨(wid, p), Dict.mem_of_get? h, rfl⟩

/-- A statement names no proxy that was not named or a member before. -/
theorem Stmt.proxies (h : Stmt cfg s o pt eff pt') {p : ℕ} (hp : p ∈ pt'.proxies) :
    p ∈ pt.proxies ∨ p ∈ s.values := by
  cases h with
  | returned q k => cases k <;> simp_all [Cont.after, Point.proxies, Cont.proxies]
  | handler hl hs => simpa [Point.proxies, Resubmit.proxies, or_assoc] using hp
  | drop hw rest removed =>
    rcases List.mem_cons.mp hp with rfl | hp
    · exact .inr (mem_values hw)
    · exact .inl hp
  | stop hl => exact .inr (by simpa [Point.proxies] using hp)
  | _ =>
    left
    simp [Point.proxies, Resubmit.proxies, Frame.refused, Frame.accepted] at hp ⊢ <;> tauto

/-- What every thread stands at after a statement. -/
theorem act_points (R : Who → Point → Prop) (hmine : R who pt')
    (hother : ∀ who', who' ≠ who → R who' (s.points who')) (htop : R (.loop s.size) (.top s.size))
    (who' : Who) : R who' (((s.apply cfg who eff).goto who pt').points who') := by
  by_cases hw : who' = who
  · subst hw
    simpa [Sys.goto] using hmine
  · have hpt : ((s.apply cfg who eff).goto who pt').points who' =
        (s.apply cfg who eff).points who' := by simp [Sys.goto, hw]
    rw [hpt]
    rcases apply_points cfg s who eff who' with hsame | ⟨rfl, hnew⟩
    · rw [hsame]
      exact hother who' hw
    · rw [hnew]
      exact htop

/-! ## Proxies that exist -/

/-- The threads and the membership name only proxies that exist. -/
structure Sys.Bounded (s : Sys) : Prop where
  values : ∀ p ∈ s.values, p < s.size
  points : ∀ who, ∀ p ∈ (s.points who).proxies, p < s.size

theorem apply_size_le (cfg : Config) (s : Sys) (who : Who) (eff : Effect) :
    s.size ≤ (s.apply cfg who eff).size := by
  cases eff <;> simp [Sys.apply, Sys.goto, Sys.setProxy]

theorem mem_values_set {d : List (String × ℕ)} {wid : String} {n p : ℕ}
    (h : p ∈ (Dict.set wid n d).map Prod.snd) : p = n ∨ p ∈ d.map Prod.snd := by
  induction d with
  | nil => exact .inl (by simpa [Dict.set] using h)
  | cons x d ih =>
    obtain ⟨k, q⟩ := x
    by_cases hk : k = wid
    · simp only [Dict.set, hk, if_true, List.map_cons, List.mem_cons] at h ⊢
      exact h.imp id .inr
    · simp only [Dict.set, hk, if_false, List.map_cons, List.mem_cons] at h ⊢
      rcases h with h | h
      · exact .inr (.inl h)
      · exact (ih h).imp id .inr

theorem apply_values (cfg : Config) (s : Sys) (who : Who) (eff : Effect) {p : ℕ}
    (h : p ∈ (s.apply cfg who eff).values) : p ∈ s.values ∨ p < (s.apply cfg who eff).size := by
  cases eff with
  | create wid address =>
    rcases mem_values_set h with rfl | hold
    · exact .inr (Nat.lt_succ_self _)
    · exact .inl hold
  | drop wid => exact .inl (((Dict.del_sublist wid s.workers).map _).subset h)
  | close => simp [Sys.apply, Sys.values] at h
  | _ => exact .inl h

theorem Sys.Bounded.act (h : s.Bounded) (hst : Stmt cfg s o (s.points who) eff pt') :
    ((s.apply cfg who eff).goto who pt').Bounded := by
  have hle := apply_size_le cfg s who eff
  refine ⟨fun p hp => ?_, ?_⟩
  · rcases apply_values cfg s who eff hp with hold | hlt
    · exact lt_of_lt_of_le (h.values p hold) hle
    · exact hlt
  · have hmine : ∀ p ∈ pt'.proxies, p < (s.apply cfg who eff).size := by
      intro p hp
      rcases hst.proxies hp with hold | hval
      · exact lt_of_lt_of_le (h.points who p hold) hle
      · exact lt_of_lt_of_le (h.values p hval) hle
    intro who' p hp
    by_cases hw : who' = who
    · subst hw
      refine hmine p ?_
      simpa [Sys.goto] using hp
    · have hpt : ((s.apply cfg who eff).goto who pt').points who' =
          (s.apply cfg who eff).points who' := by simp [Sys.goto, hw]
      rw [hpt] at hp
      cases eff with
      | create wid address =>
        by_cases hl : who' = .loop s.size
        · subst hl
          obtain rfl : p = s.size := by simpa [Sys.apply, Sys.goto, Point.proxies] using hp
          exact Nat.lt_succ_self _
        · refine Nat.lt_succ_of_lt (h.points who' p ?_)
          simpa [Sys.apply, Sys.goto, Sys.setProxy, hl] using hp
      | _ => exact h.points who' p hp

theorem Sys.Bounded.start (h : s.Bounded) {n : ℕ} {pt : Point} (hpt : pt.proxies = [])
    (submitted : List ℕ) :
    ({ s.goto (.thread n) pt with submitted := submitted } : Sys).Bounded := by
  refine ⟨h.values, fun who p hp => ?_⟩
  by_cases hw : who = .thread n
  · subst hw
    simp [Sys.goto, hpt] at hp
  · exact h.points who p (by simpa [Sys.goto, hw] using hp)

theorem Sys.Bounded.step (h : s.Bounded) {e : Event} (hs : s.step cfg e = some t) : t.Bounded := by
  cases step_cases hs with
  | tick | fail | route => exact ⟨h.values, h.points⟩
  | submit | update | stop => exact h.start rfl _
  | act hst => exact h.act hst

theorem Sys.Init.bounded (h : s.Init) : s.Bounded := by
  refine ⟨by simp [Sys.values, h.workers], fun who p hp => ?_⟩
  simp [h.points who, Point.proxies] at hp

/-- A proxy keeps its worker ID and its address. -/
theorem apply_workerId (cfg : Config) (s : Sys) (who : Who) (eff : Effect) {p : ℕ} (hp : p < s.size) :
    ((s.apply cfg who eff).proxies p).workerId = (s.proxies p).workerId ∧
      ((s.apply cfg who eff).proxies p).address = (s.proxies p).address := by
  have hset : ∀ (q : ℕ) (w : Proxy), w.workerId = (s.proxies q).workerId ∧
      w.address = (s.proxies q).address →
      (Function.update s.proxies q w p).workerId = (s.proxies p).workerId ∧
        (Function.update s.proxies q w p).address = (s.proxies p).address := by
    intro q w hw
    by_cases hq : p = q
    · subst hq
      simpa using hw
    · simp [Function.update_of_ne hq]
  cases eff with
  | push q batch => exact hset q _ ⟨rfl, rfl⟩
  | handoff r q i => exact hset q _ ⟨rfl, rfl⟩
  | pop q => exact hset q _ ⟨rfl, rfl⟩
  | finish q => exact hset q _ ⟨rfl, rfl⟩
  | swap q => exact hset q _ ⟨rfl, rfl⟩
  | beginStop q r =>
    refine hset q _ ?_
    unfold Proxy.beginStop
    split <;> exact ⟨rfl, rfl⟩
  | route q state => exact hset q _ ⟨rfl, rfl⟩
  | create wid address =>
    have hne : p ≠ s.size := by omega
    simp [Sys.apply, Sys.goto, Sys.setProxy, hne]
  | _ => exact ⟨rfl, rfl⟩

/-! ## The lock -/

structure Sys.Guarded (s : Sys) : Prop where
  mutex : ∀ who, (s.points who).critical = true → s.lock = some who
  updating : ∀ who, (s.points who).updating = true → s.stopping = false
  closing : ∀ who, (s.points who).closing = true → s.stopping = true
  empty : s.stopping = true → s.workers = []
  reach : ∀ p, (s.proxies p).stop = true ∨ p ∈ s.values ∨ ∃ who, p ∈ (s.points who).pending
  done : s.stopDone = true → s.stopping = true ∧ ∀ p, (s.proxies p).stop = true

theorem Sys.Init.guarded (h : s.Init) : s.Guarded where
  mutex := fun who hc => by simp [h.points who, Point.critical] at hc
  updating := fun who hc => by simp [h.points who, Point.updating] at hc
  closing := fun who hc => by simp [h.points who, Point.closing] at hc
  empty := fun _ => h.workers
  reach := fun p => .inl (h.proxies p).1
  done := fun hd => by simp [h.stopDone] at hd

theorem beginStop_stop (w : Proxy) (r : Bool) : (w.beginStop r).stop = true := by
  unfold Proxy.beginStop
  split
  · assumption
  · rfl

/-- A proxy that has stopped does not run again; a new one takes an unused index. -/
theorem apply_stop (cfg : Config) (s : Sys) (who : Who) (eff : Effect) {p : ℕ}
    (hp : (s.proxies p).stop = true) : ((s.apply cfg who eff).proxies p).stop = true ∨
      ∃ wid address, eff = .create wid address ∧ p = s.size := by
  have hset : ∀ (q : ℕ) (w : Proxy), (q = p → w.stop = true) →
      (Function.update s.proxies q w p).stop = true := by
    intro q w hw
    by_cases hq : q = p
    · subst hq
      simpa using hw rfl
    · simpa [Function.update_of_ne (Ne.symm hq)] using hp
  cases eff with
  | push q batch => exact .inl (hset q _ (by rintro rfl; exact hp))
  | handoff r q i => exact .inl (hset q _ (by rintro rfl; exact hp))
  | pop q => exact .inl (hset q _ (by rintro rfl; exact hp))
  | finish q => exact .inl (hset q _ (by rintro rfl; exact hp))
  | swap q => exact .inl (hset q _ (by rintro rfl; exact hp))
  | beginStop q r => exact .inl (hset q _ fun _ => beginStop_stop _ r)
  | route q state => exact .inl (hset q _ (by rintro rfl; exact hp))
  | create wid address =>
    by_cases hq : p = s.size
    · exact .inr ⟨wid, address, rfl, hq⟩
    · exact .inl (hset s.size _ (by rintro rfl; exact absurd rfl hq))
  | _ => exact .inl hp

theorem mem_values_of_set {d : List (String × ℕ)} {wid : String} (hn : Dict.get? wid d = none)
    (n : ℕ) {p : ℕ} (h : p = n ∨ p ∈ d.map Prod.snd) : p ∈ (Dict.set wid n d).map Prod.snd := by
  induction d with
  | nil => simpa [Dict.set] using h
  | cons x d ih =>
    obtain ⟨k, q⟩ := x
    have hk : k ≠ wid := by
      rintro rfl
      simp [Dict.get?] at hn
    simp only [Dict.get?, hk, if_false] at hn
    simp only [Dict.set, hk, if_false, List.map_cons, List.mem_cons] at h ⊢
    rcases h with h | h | h
    · exact .inr (ih hn (.inl h))
    · exact .inl h
    · exact .inr (ih hn (.inr h))

theorem mem_values_of_del {d : List (String × ℕ)} {wid : String} {q p : ℕ}
    (hq : Dict.get? wid d = some q) (h : p ∈ d.map Prod.snd) :
    p = q ∨ p ∈ (Dict.del wid d).map Prod.snd := by
  induction d with
  | nil => simp at h
  | cons x d ih =>
    obtain ⟨k, r⟩ := x
    by_cases hk : k = wid
    · simp only [Dict.get?, hk, if_true, Option.some.injEq] at hq
      simpa [Dict.del, hk, hq] using h
    · simp only [Dict.get?, hk, if_false] at hq
      simp only [Dict.del, hk, if_false, List.map_cons, List.mem_cons] at h ⊢
      rcases h with h | h
      · exact .inr (.inl h)
      · exact (ih hq h).imp id .inr

/-- A statement neither loses a member nor a proxy its thread has to stop. -/
theorem Stmt.reach (h : Stmt cfg s o pt eff pt') (who : Who) {p : ℕ}
    (hp : p ∈ s.values ∨ p ∈ pt.pending) :
    ((s.apply cfg who eff).proxies p).stop = true ∨ p ∈ (s.apply cfg who eff).values ∨
      p ∈ pt'.pending := by
  cases h with
  | create hn info snapshot rest =>
    rcases hp with hp | hp
    · exact .inr (.inl (mem_values_of_set hn s.size (.inr hp)))
    · simp [Point.pending] at hp
  | drop hw rest removed =>
    rcases hp with hp | hp
    · rcases mem_values_of_del hw hp with rfl | hstay
      · exact .inr (.inr (by simp [Point.pending]))
      · exact .inr (.inl hstay)
    · simp [Point.pending] at hp
  | begin q rest removed =>
    rcases hp with hp | hp
    · exact .inr (.inl hp)
    · obtain rfl : p = q := by simpa [Point.pending] using hp
      exact .inl (by simp [Sys.apply, Sys.setProxy, beginStop_stop])
  | stop hl =>
    rcases hp with hp | hp
    · exact .inr (.inr hp)
    · simp [Point.pending] at hp
  | beginAll q rest all =>
    rcases hp with hp | hp
    · exact .inr (.inl hp)
    · rcases List.mem_cons.mp hp with rfl | hp
      · exact .inl (by simp [Sys.apply, Sys.setProxy, beginStop_stop])
      · exact .inr (.inr hp)
  | _ =>
    rcases hp with hp | hp
    · exact .inr (.inl hp)
    · simp [Point.pending] at hp

theorem critical_of_updating (h : pt.updating = true) : pt.critical = true := by
  cases pt <;> simp_all [Point.updating, Point.critical]

theorem critical_of_closing (h : pt.closing = true) : pt.critical = true := by
  cases pt <;> simp_all [Point.closing, Point.critical]

theorem critical_of_pending {p : ℕ} (h : p ∈ pt.pending) : pt.critical = true := by
  cases pt <;> simp_all [Point.pending, Point.critical]

theorem apply_lock (cfg : Config) (s : Sys) (who : Who) (eff : Effect) :
    (s.apply cfg who eff).lock = if eff.locks then some who else if eff.unlocks then none
      else s.lock := by
  cases eff <;> rfl

theorem apply_stopping (cfg : Config) (s : Sys) (who : Who) (eff : Effect) :
    (s.apply cfg who eff).stopping = s.stopping ∨ eff = .close := by
  cases eff <;> first | exact .inl rfl | exact .inr rfl

theorem apply_stopDone (cfg : Config) (s : Sys) (who : Who) (eff : Effect) :
    (s.apply cfg who eff).stopDone = s.stopDone ∨ eff = .closed := by
  cases eff <;> first | exact .inl rfl | exact .inr rfl

/-- Inside the lock there is nobody else. -/
theorem Sys.Guarded.alone (h : s.Guarded) {who who' : Who} (hw : who' ≠ who)
    (hc : (s.points who).critical = true) : (s.points who').critical = false := by
  by_contra hc'
  have hl := h.mutex who hc
  rw [h.mutex who' (by simpa using hc')] at hl
  exact hw (Option.some.inj hl)

/-- Whoever takes the lock finds nobody inside. -/
theorem Sys.Guarded.nobody (h : s.Guarded) (hl : s.lock = none) (who : Who) :
    (s.points who).critical = false := by
  by_contra hc
  simp [h.mutex who (by simpa using hc)] at hl

/-- Proxies are created only by a membership change, for an ID that is not there. -/
theorem Stmt.creates {wid address : String} (h : Stmt cfg s o pt (.create wid address) pt') :
    Dict.get? wid s.workers = none ∧ pt.updating = true := by
  cases h with
  | create hn info snapshot rest => exact ⟨hn, rfl⟩

theorem Stmt.closes (h : Stmt cfg s o pt .close pt') :
    s.lock = none ∧ pt'.updating = false := by
  cases h with
  | stop hl => exact ⟨hl, rfl⟩

theorem Stmt.closed_pending (h : Stmt cfg s o pt .closed pt') :
    pt.closing = true ∧ pt.pending = [] := by
  cases h with
  | closed all => exact ⟨rfl, rfl⟩

theorem apply_points_eq (cfg : Config) (s : Sys) (who : Who) {eff : Effect}
    (h : ∀ wid address, eff ≠ .create wid address) : (s.apply cfg who eff).points = s.points := by
  cases eff with
  | create wid address => exact absurd rfl (h wid address)
  | _ => rfl

theorem apply_workers_nil (cfg : Config) (who : Who) (h : s.workers = [])
    (hc : ∀ wid address, eff ≠ .create wid address) : (s.apply cfg who eff).workers = [] := by
  cases eff with
  | create wid address => exact absurd rfl (hc wid address)
  | drop wid => simp [Sys.apply, h, Dict.del]
  | close => rfl
  | _ => exact h

theorem Sys.Guarded.act_mutex (h : s.Guarded) (hst : Stmt cfg s o (s.points who) eff pt')
    (who' : Who) (hc : (((s.apply cfg who eff).goto who pt').points who').critical = true) :
    (s.apply cfg who eff).lock = some who' := by
  rw [apply_lock]
  refine act_points (fun who' pt => pt.critical = true → (if eff.locks then some who
    else if eff.unlocks then none else s.lock) = some who') (fun hc => ?_) (fun who' hw hc => ?_)
    (fun hc => by simp [Point.critical] at hc) who' hc
  · by_cases hlocks : eff.locks = true
    · simp [hlocks]
    · have hin := (hst.critical hc).resolve_left hlocks
      have hun : eff.unlocks = false := by
        by_contra hun
        simp [(hst.unlocks (by simpa using hun)).2] at hc
      simpa [hlocks, hun] using h.mutex who hin
  · by_cases hlocks : eff.locks = true
    · simp [h.nobody (hst.locks hlocks) who'] at hc
    · have hun : eff.unlocks = false := by
        by_contra hun
        simp [h.alone hw (hst.unlocks (by simpa using hun)).1] at hc
      simpa [hlocks, hun] using h.mutex who' hc

theorem Sys.Guarded.act_updating (h : s.Guarded) (hst : Stmt cfg s o (s.points who) eff pt')
    (who' : Who) (hc : (((s.apply cfg who eff).goto who pt').points who').updating = true) :
    (s.apply cfg who eff).stopping = false := by
  refine act_points (fun _ pt => pt.updating = true → (s.apply cfg who eff).stopping = false)
    (fun hu => ?_) (fun who' hw hu => ?_) (fun hu => by simp [Point.updating] at hu) who' hc
  · rcases apply_stopping cfg s who eff with hsame | rfl
    · rw [hsame]
      exact (hst.updating hu).elim id (h.updating who)
    · exact absurd hu (by simp [hst.closes.2])
  · rcases apply_stopping cfg s who eff with hsame | rfl
    · rw [hsame]
      exact h.updating who' hu
    · exact absurd (critical_of_updating hu) (by simp [h.nobody hst.closes.1 who'])

theorem Sys.Guarded.act_closing (h : s.Guarded) (hst : Stmt cfg s o (s.points who) eff pt')
    (who' : Who) (hc : (((s.apply cfg who eff).goto who pt').points who').closing = true) :
    (s.apply cfg who eff).stopping = true := by
  have hkeep : s.stopping = true → (s.apply cfg who eff).stopping = true := by
    intro hs
    rcases apply_stopping cfg s who eff with hsame | rfl
    · rw [hsame, hs]
    · rfl
  refine act_points (fun _ pt => pt.closing = true → (s.apply cfg who eff).stopping = true)
    (fun hc => ?_) (fun who' _ hc => hkeep (h.closing who' hc))
    (fun hc => by simp [Point.closing] at hc) who' hc
  rcases hst.closing hc with rfl | hold
  · rfl
  · exact hkeep (h.closing who hold)

/-- While a shutdown is on no proxy is created. -/
theorem Sys.Guarded.not_create (h : s.Guarded) (hst : Stmt cfg s o (s.points who) eff pt')
    (hs : s.stopping = true) (wid address : String) : eff ≠ .create wid address := by
  rintro rfl
  simp [h.updating who hst.creates.2] at hs

theorem Sys.Guarded.act_empty (h : s.Guarded) (hst : Stmt cfg s o (s.points who) eff pt')
    (hs : (s.apply cfg who eff).stopping = true) : (s.apply cfg who eff).workers = [] := by
  rcases apply_stopping cfg s who eff with hsame | rfl
  · rw [hsame] at hs
    exact apply_workers_nil cfg who (h.empty hs) (h.not_create hst hs)
  · rfl

theorem Sys.Guarded.act_reach (h : s.Guarded) (hst : Stmt cfg s o (s.points who) eff pt') (p : ℕ) :
    ((s.apply cfg who eff).proxies p).stop = true ∨ p ∈ (s.apply cfg who eff).values ∨
      ∃ who', p ∈ (((s.apply cfg who eff).goto who pt').points who').pending := by
  have hmine : p ∈ s.values ∨ p ∈ (s.points who).pending →
      ((s.apply cfg who eff).proxies p).stop = true ∨ p ∈ (s.apply cfg who eff).values ∨
        ∃ who', p ∈ (((s.apply cfg who eff).goto who pt').points who').pending := by
    intro hp
    rcases hst.reach who hp with hstop | hval | hpend
    · exact .inl hstop
    · exact .inr (.inl hval)
    · exact .inr (.inr ⟨who, by simpa [Sys.goto] using hpend⟩)
  rcases h.reach p with hstop | hval | ⟨who', hpend⟩
  · rcases apply_stop cfg s who eff hstop with hstop' | ⟨wid, address, rfl, rfl⟩
    · exact .inl hstop'
    · exact .inr (.inl (mem_values_of_set hst.creates.1 s.size (.inl rfl)))
  · exact hmine (.inl hval)
  · by_cases hw : who' = who
    · subst hw
      exact hmine (.inr hpend)
    · refine .inr (.inr ⟨who', ?_⟩)
      -- the thread with something to stop is inside the lock, so nobody creates a proxy
      have halone := h.alone (Ne.symm hw) (critical_of_pending hpend)
      have hnew : ∀ wid address, eff ≠ .create wid address := by
        rintro wid address rfl
        simp [critical_of_updating hst.creates.2] at halone
      simpa [Sys.goto, hw, apply_points_eq cfg s who hnew] using hpend

theorem Sys.Guarded.act_done (h : s.Guarded) (hst : Stmt cfg s o (s.points who) eff pt')
    (hd : (s.apply cfg who eff).stopDone = true) :
    (s.apply cfg who eff).stopping = true ∧ ∀ p, ((s.apply cfg who eff).proxies p).stop = true := by
  have hkeep : s.stopping = true → (∀ p, (s.proxies p).stop = true) →
      (s.apply cfg who eff).stopping = true ∧
        ∀ p, ((s.apply cfg who eff).proxies p).stop = true := by
    intro hs hall
    refine ⟨?_, fun p => ?_⟩
    · rcases apply_stopping cfg s who eff with hsame | rfl
      · rw [hsame, hs]
      · rfl
    · refine (apply_stop cfg s who eff (hall p)).resolve_right ?_
      rintro ⟨wid, address, he, -⟩
      exact h.not_create hst hs wid address he
  rcases apply_stopDone cfg s who eff with hsame | rfl
  · rw [hsame] at hd
    obtain ⟨hs, hall⟩ := h.done hd
    exact hkeep hs hall
  · obtain ⟨hclosing, hnone⟩ := hst.closed_pending
    have hs := h.closing who hclosing
    refine hkeep hs fun p => ?_
    rcases h.reach p with hstop | hval | ⟨who', hpend⟩
    · exact hstop
    · simp [Sys.values, h.empty hs] at hval
    · by_cases hw : who' = who
      · simp [hw, hnone] at hpend
      · have halone := h.alone hw (critical_of_closing hclosing)
        simp [critical_of_pending hpend] at halone

/-- A thread that calls the pool is outside the lock. -/
theorem Sys.Guarded.start (h : s.Guarded) {n : ℕ} {pt : Point} (submitted : List ℕ)
    (hhalt : s.points (.thread n) = .halted) (hpt : pt.critical = false) :
    ({ s.goto (.thread n) pt with submitted := submitted } : Sys).Guarded := by
  have hold : ∀ {who : Who}, ((s.goto (.thread n) pt).points who).critical = true →
      (s.goto (.thread n) pt).points who = s.points who := by
    intro who hc
    by_cases hw : who = .thread n
    · subst hw
      simp [Sys.goto, hpt] at hc
    · simp [Sys.goto, hw]
  refine ⟨fun who hc => ?_, fun who hc => ?_, fun who hc => ?_, h.empty, fun p => ?_, h.done⟩
  · exact h.mutex who (hold hc ▸ hc)
  · exact h.updating who (hold (critical_of_updating hc) ▸ hc)
  · exact h.closing who (hold (critical_of_closing hc) ▸ hc)
  · refine (h.reach p).imp id (Or.imp id ?_)
    rintro ⟨who, hp⟩
    refine ⟨who, ?_⟩
    have hw : who ≠ .thread n := by
      rintro rfl
      simp [hhalt, Point.pending] at hp
    simpa [Sys.goto, hw] using hp

/-- **Step lemma.** -/
theorem Sys.Guarded.step (h : s.Guarded) {e : Event} (hs : s.step cfg e = some t) : t.Guarded := by
  cases step_cases hs with
  | tick | fail => exact ⟨h.mutex, h.updating, h.closing, h.empty, h.reach, h.done⟩
  | route p state =>
    have hstop := fun q => (route_same s p state q).2.1
    refine ⟨h.mutex, h.updating, h.closing, h.empty, fun q => ?_, fun hd => ?_⟩
    · rw [hstop q]
      exact h.reach q
    · exact ⟨(h.done hd).1, fun q => (hstop q).trans ((h.done hd).2 q)⟩
  | submit hhalt => exact h.start _ hhalt rfl
  | update hhalt => exact h.start _ hhalt rfl
  | stop hhalt => exact h.start _ hhalt rfl
  | act hst =>
    exact ⟨h.act_mutex hst, h.act_updating hst, h.act_closing hst, h.act_empty hst, h.act_reach hst,
      h.act_done hst⟩

end Stmts

end Inference.Pool.Machine
