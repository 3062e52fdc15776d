import Inference.Pool.Membership

/-!
# Inference.Pool.Progress — the pool never gets stuck

What keeps the threads of the pool going, and what is left when they have nothing more to do.

* `Sys.Able`: whoever holds the pool lock is inside it, and every thread finds what its next statement
  looks up; so a thread that does not wait for the lock can move on (`stmt_isSome`).
* `Sys.Served`: the dispatch thread of a running proxy is in its loop, and the queue of a stopped one
  is empty or somebody has still to retire it.
* **`quiescent_settled`**: when no thread can do more than poll an empty queue, the lock is free, every
  caller has returned and every submitted task has ended.
-/

namespace Inference.Pool.Machine

open Inference.Lib

/-- The IDs still to be dropped are members, each named once; a worker is chosen out of some; `stop`
retires at least those it has still to stop. -/
def Point.Able (workers : List (String × ℕ)) : Point → Prop
  | .route _ wid _ _ => (Dict.get? wid workers).isSome = true
  | .gone rest _ | .begin _ rest _ =>
    rest.Nodup ∧ ∀ wid ∈ rest, (Dict.get? wid workers).isSome = true
  | .idle _ eligible _ _ _ => eligible ≠ []
  | .beginAll rest all => rest ⊆ all
  | _ => True

structure Sys.Able (s : Sys) : Prop where
  holder : ∀ who, s.lock = some who → (s.points who).critical = true
  able : ∀ who, (s.points who).Able s.workers

/-- Proxies the thread has still to retire. -/
def Point.retires (pt : Point) (p : ℕ) : Prop := p ∈ pt.retired ∨ p ∈ pt.swept.2

structure Sys.Served (s : Sys) : Prop where
  loop : ∀ p, (s.points (.loop p)).dispatch = some p ∨
    (s.points (.loop p) = .halted ∧ (s.proxies p).stop = true)
  queued : ∀ p, (s.proxies p).stop = true → (s.proxies p).queue = [] ∨
    ∃ who, (s.points who).retires p

section Stmts

variable {cfg : Config} {s t : Sys} {o : Outcome} {who : Who} {pt pt' : Point} {eff : Effect}

/-! ## A thread that need not wait can move on -/

theorem stmt_isSome (cfg : Config) (o : Outcome) (hable : pt.Able s.workers) (hpt : pt ≠ .halted)
    (hlock : s.lock = none ∨ pt.critical = true) : (s.stmt cfg o pt).isSome = true := by
  have hfree : pt.critical = false → s.lock = none := fun hc => hlock.resolve_right (by simp [hc])
  have hnext : ∀ (p : ℕ) {pc : Pc}, pc ≠ .returned →
      (next cfg.loads (s.view p) ⟨o, none⟩ pc).isSome = true := by
    intro p pc hpc
    obtain ⟨c, pc', hn⟩ := next_isSome cfg.loads (s.view p) ⟨o, none⟩ hpc
    rw [hn]
    rfl
  cases pt with
  | halted => exact absurd rfl hpt
  | inner p =>
    simp only [Sys.stmt]
    split
    · rfl
    · split <;> rfl
  | process p pc k =>
    cases pc with
    | returned => rfl
    | call batch => rfl
    | handler i rest text allow =>
      simp only [Sys.stmt, hfree rfl, Option.isSome_none, Bool.false_eq_true, if_false]
      split <;> rfl
    | _ => simpa [Sys.stmt] using hnext p (by simp)
  | grouping rest ds =>
    cases rest with
    | nil => rfl
    | cons i rest =>
      simp only [Sys.stmt]
      split <;> rfl
  | groups gs => cases gs <;> rfl
  | compatible batch gs => simp [Sys.stmt, hfree rfl]
  | ready batch scan acc gs => cases scan <;> rfl
  | noReady rest gs => cases rest <;> rfl
  | idle batch ready scan acc gs =>
    cases scan with
    | cons w scan => rfl
    | nil =>
      have hne : (if acc.isEmpty then ready else acc) ≠ [] := by
        split
        · exact hable
        · rename_i ha
          simpa using ha
      have hlt := Nat.mod_lt s.rrIndex (List.length_pos_of_ne_nil hne)
      simp only [Sys.stmt, Option.isSome_map]
      rw [List.getElem?_eq_getElem hlt]
      rfl
  | again batch w gs => simp [Sys.stmt, hfree rfl]
  | scan batch w rest gs => cases rest <;> rfl
  | full rest gs => cases rest <;> rfl
  | update snapshot =>
    simp only [Sys.stmt, hfree rfl, Option.isSome_none, Bool.false_eq_true, if_false]
    rfl
  | add snapshot rest =>
    cases rest with
    | nil => rfl
    | cons x rest => rfl
  | route snapshot wid info rest =>
    simp only [Sys.stmt, Option.isSome_map]
    exact hable
  | gone rest removed =>
    cases rest with
    | nil => rfl
    | cons wid rest => simpa [Sys.stmt] using hable.2 wid List.mem_cons_self
  | retire r rest => cases rest <;> rfl
  | stop => simp [Sys.stmt, hfree rfl]
  | beginAll rest all => cases rest <;> rfl
  | _ => rfl

/-! ## The lock and what is looked up under it -/

/-- Only inside `_update_workers` does a thread look up members. -/
theorem Point.Able.other {workers workers' : List (String × ℕ)} (h : pt.Able workers)
    (hu : pt.updating = false) : pt.Able workers' := by
  cases pt with
  | route | gone | begin => simp [Point.updating] at hu
  | _ => exact h

theorem able_of_halted {workers : List (String × ℕ)} (h : pt = .halted) : pt.Able workers := by
  subst h
  trivial

/-- **What a thread looks up is there.** -/
theorem stmt_able (hst : s.stmt cfg o pt = some (eff, pt')) (h : pt.Able s.workers)
    (hk : Dict.Keys s.workers) (who : Who) : pt'.Able (s.apply cfg who eff).workers := by
  cases stmt_cases hst with
  | returned p k => cases k <;> trivial
  | someReady batch acc gs =>
    cases acc with
    | nil => simp [Sys.stmt] at hst
    | cons w acc => exact List.cons_ne_nil w acc
  | idle => exact h
  | present hw => simpa [Sys.apply, applyCall, Point.Able] using congrArg Option.isSome hw
  | create hw info => simp [Sys.apply, Point.Able]
  | added snapshot =>
    refine ⟨List.Nodup.filter _ hk, fun wid hin => ?_⟩
    obtain ⟨x, hx, rfl⟩ := List.mem_map.mp (List.mem_filter.mp hin).1
    exact Option.isSome_iff_exists.mpr ⟨x.2, Dict.get?_of_mem hk hx⟩
  | @drop k _ hw rest removed =>
    obtain ⟨hnodup, hall⟩ := h
    refine ⟨(List.nodup_cons.mp hnodup).2, fun wid hin => ?_⟩
    have hne : wid ≠ k := fun heq => (List.nodup_cons.mp hnodup).1 (heq ▸ hin)
    simpa [Sys.apply, Dict.get?_del_of_ne hne] using hall wid (List.mem_cons_of_mem _ hin)
  | begin p rest removed => exact h
  | stop hl => exact List.Subset.refl _
  | beginAll p rest all => exact fun q hq => h (List.mem_cons_of_mem _ hq)
  | _ => trivial

/-- The membership changes under the lock. -/
theorem Stmt.workers (h : Stmt cfg s o pt eff pt') (who : Who) :
    (s.apply cfg who eff).workers = s.workers ∨ pt.updating = true ∨ s.lock = none := by
  cases h with
  | create hn info snapshot rest => exact .inr (.inl rfl)
  | drop hw rest removed => exact .inr (.inl rfl)
  | stop hl => exact .inr (.inr hl)
  | _ => exact .inl rfl

/-- A thread that takes the lock is inside; it leaves it when it steps out. -/
theorem Stmt.holds (h : Stmt cfg s o pt eff pt') :
    (eff.locks = true → pt'.critical = true) ∧
    (pt.critical = true → pt'.critical = true ∨ eff.unlocks = true) := by
  cases h <;> simp [Effect.locks, Effect.unlocks, Point.critical]

theorem Sys.Init.able (h : s.Init) : s.Able where
  holder := fun who hl => by simp [h.lock] at hl
  able := fun who => able_of_halted (h.points who)

theorem updating_of_critical (h : pt.critical = false) : pt.updating = false := by
  by_contra hu
  rw [critical_of_updating (by simpa using hu)] at h
  exact Bool.noConfusion h

theorem Sys.Able.act (h : s.Able) (hsound : s.Sound) (hg : s.Guarded) (hm : s.Members)
    (hst : s.stmt cfg o (s.points who) = some (eff, pt')) :
    ((s.apply cfg who eff).goto who pt').Able := by
  have hmoves := stmt_cases hst
  refine ⟨fun who' hl => ?_, fun who' => ?_⟩
  · rw [show ((s.apply cfg who eff).goto who pt').lock = (s.apply cfg who eff).lock from rfl,
      apply_lock] at hl
    by_cases hlocks : eff.locks = true
    · obtain rfl : who = who' := by simpa [hlocks] using hl
      simpa [Sys.goto] using hmoves.holds.1 hlocks
    · by_cases hun : eff.unlocks = true
      · simp [hlocks, hun] at hl
      · rw [if_neg hlocks, if_neg hun] at hl
        have hin := h.holder who' hl
        by_cases hw : who' = who
        · subst hw
          simpa [Sys.goto] using (hmoves.holds.2 hin).resolve_right hun
        · rcases apply_points cfg s who eff who' with hsame | ⟨rfl, -⟩
          · simpa [Sys.goto, hw, hsame] using hin
          · -- a proxy that was not there was not inside
            simp [(hsound.absent s.size le_rfl).2.2, Point.critical] at hin
  · refine act_points (fun _ pt => pt.Able (s.apply cfg who eff).workers)
      (stmt_able hst (h.able who) hm.keys who) (fun who' hw => ?_) trivial who'
    rcases hmoves.workers who with hsame | hu | hl
    · rw [hsame]
      exact h.able who'
    · exact (h.able who').other (updating_of_critical (hg.alone hw (critical_of_updating hu)))
    · exact (h.able who').other (updating_of_critical (hg.nobody hl who'))

theorem Sys.Able.start (h : s.Able) {n : ℕ} {pt : Point} (submitted : List ℕ)
    (hhalt : s.points (.thread n) = .halted) (hpt : pt.Able s.workers) :
    ({ s.goto (.thread n) pt with submitted := submitted } : Sys).Able := by
  refine ⟨fun who hl => ?_, fun who => ?_⟩
  · have hin := h.holder who hl
    have hw : who ≠ .thread n := by
      rintro rfl
      simp [hhalt, Point.critical] at hin
    simpa [Sys.goto, hw] using hin
  · by_cases hw : who = .thread n
    · subst hw
      simpa [Sys.goto] using hpt
    · simpa [Sys.goto, hw] using h.able who

/-- **Step lemma.** -/
theorem Sys.Able.step (h : s.Able) (hsound : s.Sound) (hg : s.Guarded) (hm : s.Members) {e : Event}
    (hs : s.step cfg e = some t) : t.Able := by
  cases e with
  | act who o =>
    simp only [Sys.step, Option.map_eq_some_iff] at hs
    obtain ⟨⟨eff, pt'⟩, hst, rfl⟩ := hs
    exact h.act hsound hg hm hst
  | tick d wall =>
    cases hs
    exact ⟨h.holder, h.able⟩
  | fail i error code =>
    cases hs
    exact ⟨h.holder, h.able⟩
  | route p state =>
    cases hs
    exact ⟨h.holder, h.able⟩
  | submit n batch =>
    cases step_cases hs with
    | submit hhalt => exact h.start _ hhalt trivial
  | update n snapshot =>
    cases step_cases hs with
    | update hhalt => exact h.start _ hhalt trivial
  | stop n =>
    cases step_cases hs with
    | stop hhalt => exact h.start _ hhalt trivial

/-! ## Every proxy has somebody who sees to it -/

/-- A dispatch thread stays in its loop until it finds the proxy stopped. -/
theorem Stmt.stays (h : Stmt cfg s o pt eff pt') {p : ℕ} (hp : pt.dispatch = some p) :
    pt'.dispatch = some p ∨ (pt' = .halted ∧ (s.proxies p).stop = true) := by
  cases h with
  | topStopped hs =>
    obtain rfl := Option.some.inj hp
    exact .inr ⟨rfl, hs⟩
  | returned q k => cases k <;> simp_all [Cont.after, Point.dispatch]
  | invoke q batch k => cases k <;> simp_all [Point.dispatch]
  | moves hh hc hm =>
    rename_i k
    cases k <;> simp_all [Point.dispatch]
  | handlerStopping hs =>
    rename_i k
    cases k <;> simp_all [Point.dispatch]
  | handler hl hs =>
    rename_i k
    cases k <;> simp_all [Point.dispatch]
  | noCandidates f =>
    obtain ⟨q, i, rest, text, allow, k⟩ := f
    cases k <;> simp_all [Point.dispatch, Frame.refused]
  | noReserve f candidates =>
    obtain ⟨q, i, rest, text, allow, k⟩ := f
    cases k <;> simp_all [Point.dispatch, Frame.refused]
  | noOffer f =>
    obtain ⟨q, i, rest, text, allow, k⟩ := f
    cases k <;> simp_all [Point.dispatch, Frame.refused]
  | accepted rest ha =>
    rename_i f w
    obtain ⟨q, i, rest', text, allow, k⟩ := f
    cases k <;> simp_all [Point.dispatch, Frame.accepted]
  | _ => simp_all [Point.dispatch]

/-- A thread retires what it has set out to retire. -/
theorem Stmt.retires (h : Stmt cfg s o pt eff pt') {p : ℕ} (hp : pt.retires p) :
    pt'.retires p ∨ eff = .swap p := by
  cases h with
  | returned q k =>
    left
    cases k <;> simp_all [Point.retires, Point.retired, Point.swept, Cont.after, Cont.proxies]
  | swap q r rest =>
    rcases hp with hp | hp
    · rcases List.mem_cons.mp hp with rfl | hp
      · exact .inr rfl
      · exact .inl (.inl hp)
    · simp [Point.swept] at hp
  | _ =>
    left
    simp_all [Point.retires, Point.retired, Point.swept, Frame.refused, Frame.accepted]

/-- Whoever is stopped will be retired by the thread that stops it. -/
theorem Stmt.beginStop_retires {p : ℕ} {r : Bool} (h : Stmt cfg s o pt (.beginStop p r) pt')
    (hable : pt.Able s.workers) : pt'.retires p := by
  cases h with
  | begin q rest removed => exact .inl (by simp [Point.retired])
  | retire retryPending q rest => exact .inl List.mem_cons_self
  | beginAll q rest all => exact .inr (hable List.mem_cons_self)

/-- An empty queue of a stopped proxy stays empty. -/
theorem Stmt.queue_nil (h : Stmt cfg s o pt eff pt') (who : Who) {p : ℕ}
    (hq : (s.proxies p).queue = []) (hp : (s.proxies p).stop = true) :
    ((s.apply cfg who eff).proxies p).queue = [] := by
  have hset : ∀ (q : ℕ) (w : Proxy), (q = p → w.queue = []) →
      (Function.update s.proxies q w p).queue = [] := by
    intro q w hw
    by_cases hqp : q = p
    · subst hqp
      simpa using hw rfl
    · rwa [Function.update_of_ne (Ne.symm hqp)]
  cases eff with
  | push q batch =>
    refine hset q _ ?_
    rintro rfl
    simp [not_stop_of_accepts h.push_accepts] at hp
  | handoff r q i =>
    refine hset q _ ?_
    rintro rfl
    simp [not_stop_of_accepts h.handoff_accepts] at hp
  | pop q => exact hset q _ (by rintro rfl; simp [hq])
  | finish q => exact hset q _ (by rintro rfl; exact hq)
  | swap q => exact hset q _ fun _ => rfl
  | beginStop q r => exact hset q _ (by rintro rfl; simpa using hq)
  | route q state => exact hset q _ (by rintro rfl; exact hq)
  | create wid address => exact hset s.size _ fun _ => rfl
  | _ => exact hq

theorem Sys.Init.served (h : s.Init) : s.Served where
  loop := fun p => .inr ⟨h.points _, (h.proxies p).1⟩
  queued := fun p _ => .inl (h.proxies p).2

theorem retires_halted {p : ℕ} (h : pt = .halted) : ¬ pt.retires p := by
  subst h
  simp [Point.retires, Point.retired, Point.swept]

theorem Sys.Served.act_loop (h : s.Served) (hsound : s.Sound)
    (hst : Stmt cfg s o (s.points who) eff pt') (p : ℕ) :
    (((s.apply cfg who eff).goto who pt').points (.loop p)).dispatch = some p ∨
      (((s.apply cfg who eff).goto who pt').points (.loop p) = .halted ∧
        ((s.apply cfg who eff).proxies p).stop = true) := by
  have hstop : (s.proxies p).stop = true → ((s.apply cfg who eff).proxies p).stop = true ∨
      (s.apply cfg who eff).points (.loop p) = .top p := by
    intro hp
    refine (apply_stop cfg s who eff hp).imp id ?_
    rintro ⟨wid, address, rfl, rfl⟩
    simp [Sys.apply, Sys.goto]
  by_cases hw : who = .loop p
  · subst hw
    rcases h.loop p with hd | ⟨hhalt, -⟩
    · refine (hst.stays hd).imp (fun hd' => by simpa [Sys.goto] using hd') fun hout => ?_
      have hlt : p < s.size := by
        by_contra hle
        exact hst.not_halted (hsound.absent p (Nat.le_of_not_lt hle)).2.2
      exact ⟨by simpa [Sys.goto] using hout.1, apply_stopped cfg s (.loop p) eff hlt hout.2⟩
    · exact absurd hhalt hst.not_halted
  · have hpt : ((s.apply cfg who eff).goto who pt').points (.loop p) =
        (s.apply cfg who eff).points (.loop p) := by simp [Sys.goto, Ne.symm hw]
    rw [hpt]
    rcases apply_points cfg s who eff (.loop p) with hsame | ⟨hnew, htop⟩
    · rw [hsame]
      refine (h.loop p).imp id fun hout => ⟨hout.1, (hstop hout.2).resolve_right fun htop => ?_⟩
      rw [hsame, hout.1] at htop
      exact Point.noConfusion htop
    · left
      rw [htop, ← Who.loop.inj hnew]
      rfl

theorem Sys.Served.act_queued (h : s.Served) (hsound : s.Sound) (hable : s.Able)
    (hst : Stmt cfg s o (s.points who) eff pt') (p : ℕ)
    (hp : ((s.apply cfg who eff).proxies p).stop = true) :
    ((s.apply cfg who eff).proxies p).queue = [] ∨
      ∃ who', (((s.apply cfg who eff).goto who pt').points who').retires p := by
  have hmine : pt'.retires p →
      ∃ who', (((s.apply cfg who eff).goto who pt').points who').retires p :=
    fun hr => ⟨who, by simpa [Sys.goto] using hr⟩
  cases hold : (s.proxies p).stop with
  | false =>
    -- stopped by this statement
    by_cases hb : ∃ r, eff = .beginStop p r
    · obtain ⟨r, rfl⟩ := hb
      exact .inr (hmine (hst.beginStop_retires (hable.able who)))
    · rw [apply_live cfg s who hold fun r hr => hb ⟨r, hr⟩] at hp
      exact Bool.noConfusion hp
  | true =>
    rcases h.queued p hold with hq | ⟨who', hr⟩
    · exact .inl (hst.queue_nil who hq hold)
    · by_cases hw : who' = who
      · subst hw
        rcases hst.retires hr with hr' | rfl
        · exact .inr (hmine hr')
        · exact .inl (by simp [Sys.apply, Sys.setProxy])
      · refine .inr ⟨who', ?_⟩
        have hpt : ((s.apply cfg who eff).goto who pt').points who' =
            (s.apply cfg who eff).points who' := by simp [Sys.goto, hw]
        rw [hpt]
        rcases apply_points cfg s who eff who' with hsame | ⟨rfl, -⟩
        · rwa [hsame]
        · exact absurd hr (retires_halted (hsound.absent s.size le_rfl).2.2)

theorem Sys.Served.start (h : s.Served) {n : ℕ} {pt : Point} (submitted : List ℕ)
    (hhalt : s.points (.thread n) = .halted) :
    ({ s.goto (.thread n) pt with submitted := submitted } : Sys).Served := by
  refine ⟨fun p => by simpa [Sys.goto] using h.loop p, fun p hp => ?_⟩
  refine (h.queued p hp).imp id ?_
  rintro ⟨who, hr⟩
  have hw : who ≠ .thread n := by
    rintro rfl
    exact retires_halted hhalt hr
  exact ⟨who, by simpa [Sys.goto, hw] using hr⟩

/-- **Step lemma.** -/
theorem Sys.Served.step (h : s.Served) (hsound : s.Sound) (hable : s.Able) {e : Event}
    (hs : s.step cfg e = some t) : t.Served := by
  cases step_cases hs with
  | tick | fail => exact ⟨h.loop, h.queued⟩
  | route p state =>
    have hsame := route_same s p state
    refine ⟨fun q => ?_, fun q hq => ?_⟩
    · rw [(hsame q).2.1]
      exact h.loop q
    · rw [(hsame q).2.1] at hq
      rw [(hsame q).1]
      exact h.queued q hq
  | submit hhalt => exact h.start _ hhalt
  | update hhalt => exact h.start _ hhalt
  | stop hhalt => exact h.start _ hhalt
  | act hst => exact ⟨h.act_loop hsound hst, h.act_queued hsound hable hst⟩

/-! ## Nothing left to do -/

/-- A dispatch thread that polls: it finds its queue empty, or leaves the inner loop. -/
def Sys.polling (s : Sys) : Point → Bool
  | .top p => !(s.proxies p).stop && (s.proxies p).queue.isEmpty
  | .inner p => (s.proxies p).stop || (s.proxies p).queue.isEmpty
  | _ => false

/-- No thread can do more than poll, whatever the stub answers. -/
def Sys.Quiescent (cfg : Config) (s : Sys) : Prop :=
  ∀ who, s.polling (s.points who) = true ∨ ∀ o, s.stmt cfg o (s.points who) = none

theorem polling_point {s : Sys} (h : s.polling pt = true) : ∃ p, (pt = .top p ∨ pt = .inner p) ∧
    ((s.proxies p).stop = true ∨ (s.proxies p).queue = []) := by
  cases pt with
  | top p => exact ⟨p, .inl rfl, .inr (by simp_all [Sys.polling])⟩
  | inner p => exact ⟨p, .inr rfl, by simpa [Sys.polling] using h⟩
  | _ => simp [Sys.polling] at h

/-- **No deadlock.**  The lock is free, and whoever does not poll has returned. -/
theorem Sys.Quiescent.unlocked (h : s.Quiescent cfg) (hable : s.Able) :
    s.lock = none ∧ ∀ who, s.polling (s.points who) = true ∨ s.points who = .halted := by
  have hmoves : ∀ who, s.lock = none ∨ (s.points who).critical = true → s.points who ≠ .halted →
      s.polling (s.points who) = true := by
    intro who hfree hpt
    refine (h who).resolve_right fun hnone => ?_
    have hsome := stmt_isSome cfg lost (hable.able who) hpt hfree
    rw [hnone lost] at hsome
    exact Bool.noConfusion hsome
  have hlock : s.lock = none := by
    by_contra hl
    obtain ⟨who, hwho⟩ := Option.ne_none_iff_exists'.mp hl
    have hin := hable.holder who hwho
    have hpt : s.points who ≠ .halted := by
      intro hhalt
      simp [hhalt, Point.critical] at hin
    obtain ⟨p, hp | hp, -⟩ := polling_point (hmoves who (.inr hin) hpt) <;>
      simp [hp, Point.critical] at hin
  refine ⟨hlock, fun who => ?_⟩
  by_cases hpt : s.points who = .halted
  · exact .inr hpt
  · exact .inl (hmoves who (.inl hlock) hpt)

/-- Nobody holds a task any more. -/
theorem Sys.Quiescent.held_nil (h : s.Quiescent cfg) (hable : s.Able) (hserved : s.Served)
    (P : Place) : s.held P = [] := by
  obtain ⟨-, hall⟩ := h.unlocked hable
  have hpoint : ∀ who, (s.points who).held = [] ∧ ∀ p, ¬ (s.points who).retires p := by
    intro who
    rcases hall who with hpoll | hhalt
    · obtain ⟨p, hp | hp, -⟩ := polling_point hpoll <;>
        simp [hp, Point.held, Point.retires, Point.retired, Point.swept]
    · simp [hhalt, Point.held, Point.retires, Point.retired, Point.swept]
  cases P with
  | hand who => exact (hpoint who).1
  | queue p =>
    have hstopped : (s.proxies p).stop = true → (s.proxies p).queue = [] := by
      intro hstop
      refine (hserved.queued p hstop).resolve_right ?_
      rintro ⟨who, hr⟩
      exact (hpoint who).2 p hr
    have hq : (s.proxies p).queue = [] := by
      rcases hserved.loop p with hd | ⟨-, hstop⟩
      · have hpt : s.points (.loop p) ≠ .halted := by
          intro hhalt
          simp [hhalt, Point.dispatch] at hd
        obtain ⟨q, hq, hidle⟩ := polling_point ((hall (.loop p)).resolve_right hpt)
        obtain rfl : q = p := by rcases hq with hq | hq <;> simpa [hq, Point.dispatch] using hd
        exact hidle.elim hstopped id
      · exact hstopped hstop
    simp [Sys.held, hq]

/-- All the invariants of the pool in a reachable state. -/
structure Sys.Sane (s : Sys) : Prop where
  sound : s.Sound
  guarded : s.Guarded
  bounded : s.Bounded
  members : s.Members
  own : s.Own
  able : s.Able
  served : s.Served

theorem Sys.Init.sane (h : s.Init) : s.Sane :=
  ⟨h.sound, h.guarded, h.bounded, h.members, h.own, h.able, h.served⟩

/-- **Step lemma.** -/
theorem Sys.Sane.step (h : s.Sane) {e : Event} (hs : s.step cfg e = some t) : t.Sane where
  sound := h.sound.step hs
  guarded := h.guarded.step hs
  bounded := h.bounded.step hs
  members := h.members.step h.bounded hs
  own := h.own.step hs
  able := h.able.step h.sound h.guarded h.members hs
  served := h.served.step h.sound h.able hs

end Stmts

/-- **Nothing is left over.**  In every state that can be reached with full responses, when no thread
can do more than poll its empty queue, the pool lock is free, every caller has returned, a dispatch
thread that has left its loop was told to stop, and every submitted task has ended. -/
theorem quiescent_settled (cfg : Config) {s₀ s : Sys} {es : List Event} (hinit : s₀.Init)
    (hfull : Meets (Sys.step cfg) (Complete cfg) s₀ es)
    (hrun : exec (Sys.step cfg) s₀ es = some s) (hquiet : s.Quiescent cfg) :
    s.lock = none ∧ (∀ n, s.points (.thread n) = .halted) ∧
    (∀ p, s.points (.loop p) = .halted → (s.proxies p).stop = true) ∧
    ∀ i ∈ s.submitted, (s.tasks i).terminal = true := by
  obtain ⟨hsane, hcov⟩ : s.Sane ∧ s.Covered :=
    exec_inv_meets (P := fun s => s.Sane ∧ s.Covered)
      (fun _ _ _ hC h hs => ⟨h.1.step hs, h.2.step h.1.sound hC hs⟩) hfull
      ⟨hinit.sane, hinit.covered⟩ hrun
  obtain ⟨hlock, hall⟩ := hquiet.unlocked hsane.able
  refine ⟨hlock, fun n => ?_, fun p hhalt => ?_, fun i hi => ?_⟩
  · refine (hall (.thread n)).resolve_left fun hpoll => ?_
    obtain ⟨p, hp, -⟩ := polling_point hpoll
    have hown := hsane.own (.thread n) p (by rcases hp with hp | hp <;> simp [hp, Point.dispatch])
    exact Who.noConfusion hown
  · rcases hsane.served.loop p with hd | ⟨-, hstop⟩
    · simp [hhalt, Point.dispatch] at hd
    · exact hstop
  · refine (hcov.covered i hi).resolve_right ?_
    rintro ⟨P, hP⟩
    rw [hquiet.held_nil hsane.able hsane.served P] at hP
    exact List.not_mem_nil hP

/-! ## A run -/

/-- Only threads below `K` call the pool. -/
def Event.Below (K : ℕ) : Event → Prop
  | .submit n _ | .update n _ | .stop n => n < K
  | _ => True

/-- The other threads never move. -/
theorem halted_above {cfg : Config} {s t : Sys} {K : ℕ}
    (h : ∀ n, K ≤ n → s.points (.thread n) = .halted) {e : Event} (he : e.Below K)
    (hs : s.step cfg e = some t) : ∀ n, K ≤ n → t.points (.thread n) = .halted := by
  have hstart : ∀ {k : ℕ} (pt : Point), k < K → ∀ n, K ≤ n →
      (s.goto (.thread k) pt).points (.thread n) = .halted := by
    intro k pt hk n hn
    have hne : n ≠ k := by omega
    simpa [Sys.goto, hne] using h n hn
  cases step_cases hs with
  | tick | fail | route => exact h
  | submit => exact hstart _ he
  | update => exact hstart _ he
  | stop => exact hstart _ he
  | @act who o eff pt' hst =>
    intro n hn
    have hw : Who.thread n ≠ who := by
      rintro rfl
      exact hst.not_halted (h n hn)
    have hpt : ((s.apply cfg who eff).goto who pt').points (.thread n) =
        (s.apply cfg who eff).points (.thread n) := by simp [Sys.goto, hw]
    rw [hpt, (apply_points cfg s who eff (.thread n)).resolve_right fun hnew =>
      Who.noConfusion hnew.1]
    exact h n hn

/-- `b` is gone as well: task 0 fails there, and both dispatch threads poll again. -/
def drainedRun : List Event :=
  handoffRun ++ (List.replicate 28 (.act (.loop 1) lost) ++ List.replicate 4 (.act (.loop 0) lost))

theorem quiescent_settled_drained : ∃ s, exec (Sys.step sampleConfig) sampleStart drainedRun = some s ∧
    s.submitted = [0] ∧ s.lock = none ∧ (s.tasks 0).terminal = true := by
  have hview : (exec (Sys.step sampleConfig) sampleStart drainedRun).map (fun s =>
      ([s.polling (s.points (.loop 0)), s.polling (s.points (.loop 1))],
        s.points (.thread 0), s.size, s.submitted)) =
      some ([true, true], .halted, 2, [0]) := by
    decide +kernel
  obtain ⟨s, hs, hv⟩ := Option.map_eq_some_iff.mp hview
  simp only [Prod.mk.injEq, List.cons.injEq, and_true] at hv
  obtain ⟨⟨hpoll, hpoll'⟩, hthread, hsize, hsub⟩ := hv
  have hmem : ∀ e ∈ drainedRun, e.Below 1 ∧ ∀ who o, e = .act who o → o = lost := by
    intro e he
    simp only [drainedRun, handoffRun, List.mem_append, List.mem_cons, List.mem_replicate] at he
    rcases he with (((rfl | ⟨-, rfl⟩) | rfl | ⟨-, rfl⟩) | ⟨-, rfl⟩) | ⟨-, rfl⟩ | ⟨-, rfl⟩ <;>
      simp [Event.Below]
  have hfull : Meets (Sys.step sampleConfig) (Complete sampleConfig) sampleStart drainedRun := by
    refine meets_of_forall (fun e he t => ?_) _
    cases e with
    | act who o =>
      obtain rfl := (hmem _ he).2 who o rfl
      exact fun _ _ _ _ => trivial
    | _ => trivial
  have habove : ∀ n, 1 ≤ n → s.points (.thread n) = .halted :=
    exec_inv_meets (P := fun s => ∀ n, 1 ≤ n → s.points (.thread n) = .halted)
      (fun _ _ _ he h hs => halted_above h he hs)
      (meets_of_forall (fun e he _ => (hmem e he).1) _) (fun n _ => sampleStart_init.points _) hs
  have hsound := exec_inv (P := Sys.Sound) (fun _ _ _ h hs => h.step hs) sampleStart_init.sound hs
  have hquiet : s.Quiescent sampleConfig := by
    intro who
    have hhalt : s.points who = .halted → ∀ o, s.stmt sampleConfig o (s.points who) = none := by
      intro hpt o
      rw [hpt]
      rfl
    cases who with
    | loop p =>
      rcases p with _ | _ | p
      · exact .inl hpoll
      · exact .inl hpoll'
      · exact .inr (hhalt (hsound.absent _ (by omega)).2.2)
    | thread n =>
      rcases n with _ | n
      · exact .inr (hhalt hthread)
      · exact .inr (hhalt (habove _ (by omega)))
  obtain ⟨hlock, -, -, hall⟩ := quiescent_settled sampleConfig sampleStart_init hfull hs hquiet
  exact ⟨s, hs, hsub, hlock, hall 0 (by simp [hsub])⟩

end Inference.Pool.Machine
