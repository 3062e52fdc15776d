import Inference.Deploy.Drain

/-!
# Inference.Deploy.Traffic — handlers and text tasks behind the two gates

The part of the drain system that does not know the rollout.  `Traffic` says that an open text task
has a gateway handler inside the gate that waits for it, and that such a handler knows what
`Inference.Handlers` proves about its program point; so a handler leaves the gate only when its
task is terminal, and a quiet gateway has no open text task (`Traffic.terminal`).
-/

namespace Inference.Deploy.Drain

open Inference.Lib

/-- Handlers and text tasks: an open task has a handler that waits for it, and a waiting handler
knows what `Inference.Handlers` says it knows. -/
structure Traffic (s : Sys) : Prop where
  gateway : s.gateway.Wf
  worker : s.worker.Wf
  waits : ∀ (k : ℕ) (t : Task), s.tasks[k]? = some t → t.terminal = false →
    ∃ (i : ℕ) (pc : Handlers.Pc) (seen : Bool),
      s.gateway.handlers[i]? = some ⟨.running, .text k pc seen⟩
  knows : ∀ (i k : ℕ) (pc : Handlers.Pc) (seen : Bool),
    s.gateway.handlers[i]? = some ⟨.running, .text k pc seen⟩ →
    ∃ t, s.tasks[k]? = some t ∧ pc.Ok .textTask t s.mono seen
  fresh : ∀ (i : ℕ) (h : Handler Body), s.gateway.handlers[i]? = some h →
    h.phase = .waiting ∨ h.phase = .checked → h.body = .plain

/-- A quiet gateway has no open text task. -/
theorem Traffic.terminal {s : Sys} (h : Traffic s) (hq : s.gateway.Quiet) {k : ℕ} {t : Task}
    (ht : s.tasks[k]? = some t) : t.terminal = true := by
  by_contra hc
  obtain ⟨i, pc, seen, hi⟩ := h.waits k t ht (by simpa using hc)
  exact hq.not_running hi

section Traffic

variable {s t : Sys}

/-- Task methods and time: every task evolves, nothing else moves. -/
theorem Traffic.evolve (h : Traffic s) (hg : t.gateway = s.gateway) (hw : t.worker.Wf)
    (hmono : s.mono ≤ t.mono)
    (hev : ∀ (k : ℕ) (u : Task), t.tasks[k]? = some u → ∃ v, s.tasks[k]? = some v ∧ Task.Evolves v u)
    (hall : ∀ (k : ℕ) (v : Task), s.tasks[k]? = some v → ∃ u, t.tasks[k]? = some u) : Traffic t := by
  refine ⟨hg ▸ h.gateway, hw, fun k u hu hopen => ?_, fun i k pc seen hi => ?_, hg ▸ h.fresh⟩
  · obtain ⟨v, hv, hvu⟩ := hev k u hu
    have hvopen : v.terminal = false := by
      by_contra hc
      have := hvu.terminal (by simpa using hc)
      simp [hopen] at this
    obtain ⟨i, pc, seen, hi⟩ := h.waits k v hv hvopen
    exact ⟨i, pc, seen, hg ▸ hi⟩
  · obtain ⟨v, hv, hok⟩ := h.knows i k pc seen (hg ▸ hi)
    obtain ⟨u, hu⟩ := hall k v hv
    obtain ⟨v', hv', hvu⟩ := hev k u hu
    obtain rfl := Option.some.inj (hv.symm.trans hv')
    exact ⟨u, hu, hok.stable hvu.final hvu.deadline hmono⟩

theorem Traffic.same (h : Traffic s) (hg : t.gateway = s.gateway) (hw : t.worker.Wf)
    (hmono : t.mono = s.mono) (ht : t.tasks = s.tasks) : Traffic t :=
  h.evolve hg hw hmono.ge (fun _ u hu => ⟨u, ht ▸ hu, .refl u⟩) fun _ v hv => ⟨v, ht.symm ▸ hv⟩

theorem Traffic.call (h : Traffic s) (k : ℕ) (m : Task.Method) :
    Traffic { s with tasks := s.tasks.modify k fun t => t.call m s.mono s.wall } := by
  refine h.evolve rfl h.worker le_rfl (fun j u hu => ?_) fun j v hv => ?_
  · simp only [List.getElem?_modify] at hu
    obtain ⟨v, hv, hvu⟩ := Option.map_eq_some_iff.mp hu
    refine ⟨v, hv, ?_⟩
    split at hvu <;> subst hvu
    · exact Task.call_evolves _ _ _ _
    · exact .refl _
  · simp only [List.getElem?_modify, hv]
    exact ⟨_, rfl⟩

/-- The gate moves one handler, which waits for no open task before and for none after. -/
theorem Traffic.gate (h : Traffic s) {g : Gate Body} (hg : g.Wf) {i : ℕ} {old new : Handler Body}
    (hi : s.gateway.handlers[i]? = some old) (hset : g.handlers = s.gateway.handlers.set i new)
    (hnew : new.phase ≠ .left → new.body = .plain)
    (hold : ∀ k pc seen t, old = ⟨.running, .text k pc seen⟩ → s.tasks[k]? = some t →
      t.terminal = true) : Traffic { s with gateway := g } := by
  refine ⟨hg, h.worker, fun k t ht hopen => ?_, fun j k pc seen hj => ?_, fun j x hj hx => ?_⟩
  · obtain ⟨j, pc, seen, hj⟩ := h.waits k t ht hopen
    refine ⟨j, pc, seen, ?_⟩
    have hij : i ≠ j := by
      rintro rfl
      have := hold k pc seen t (Option.some.inj (hi.symm.trans hj)) ht
      simp [hopen] at this
    simp only [hset, List.getElem?_set_ne hij]
    exact hj
  · simp only [hset] at hj
    rcases Gate.set_cases hj with ⟨-, rfl⟩ | ⟨-, hj⟩
    · exact absurd (hnew (by simp)) (by simp)
    · exact h.knows j k pc seen hj
  · simp only [hset] at hj
    rcases Gate.set_cases hj with ⟨-, rfl⟩ | ⟨-, hj⟩
    · exact hnew (by rcases hx with hx | hx <;> simp [hx])
    · exact h.fresh j x hj hx

theorem Traffic.request (h : Traffic s) : Traffic { s with gateway := s.gateway.arrive .plain } := by
  have hnew : ∀ (i : ℕ) (x : Handler Body), (s.gateway.arrive .plain).handlers[i]? = some x →
      s.gateway.handlers[i]? = some x ∨ x = ⟨.waiting, .plain⟩ := by
    intro i x hx
    simp only [Gate.arrive, List.getElem?_append] at hx
    split at hx
    · exact .inl hx
    · exact .inr (by simpa using List.mem_of_getElem? hx)
  refine ⟨h.gateway.arrive _, h.worker, fun k t ht hopen => ?_, fun i k pc seen hi => ?_,
    fun i x hi hx => ?_⟩
  · obtain ⟨i, pc, seen, hi⟩ := h.waits k t ht hopen
    have hlt := (List.getElem?_eq_some_iff.mp hi).1
    exact ⟨i, pc, seen, by simp only [Gate.arrive, List.getElem?_append_left hlt]; exact hi⟩
  · rcases hnew i _ hi with hi | heq
    · exact h.knows i k pc seen hi
    · simp at heq
  · rcases hnew i x hi with hi | rfl
    · exact h.fresh i x hi hx
    · rfl

theorem Traffic.gwRead (h : Traffic s) {m : Marker} {i : ℕ} {g : Gate Body}
    (he : s.gateway.enterRead m i = some g) : Traffic { s with gateway := g } := by
  have hg := h.gateway.enterRead he
  unfold Gate.enterRead at he
  split at he
  · rename_i b hl hi
    obtain rfl : b = .plain := h.fresh i _ hi (.inl rfl)
    split at he
    · obtain rfl := Option.some.inj he
      exact h.gate hg hi rfl (fun _ => rfl) fun k pc seen t hx => by simp at hx
    · obtain rfl := Option.some.inj he
      exact h.gate hg hi rfl (fun _ => rfl) fun k pc seen t hx => by simp at hx
  · simp at he

theorem Traffic.gwCount (h : Traffic s) {i : ℕ} {g : Gate Body}
    (he : s.gateway.enterCount i = some g) : Traffic { s with gateway := g } := by
  have hg := h.gateway.enterCount he
  unfold Gate.enterCount at he
  split at he
  · rename_i b hi
    obtain rfl : b = .plain := h.fresh i _ hi (.inr rfl)
    obtain rfl := Option.some.inj he
    exact h.gate hg hi rfl (fun _ => rfl) fun k pc seen t hx => by simp at hx
  · simp at he

/-- A handler leaves the gate only when its text task, if it has one, is terminal. -/
theorem Traffic.gwLeave (h : Traffic s) {i : ℕ} {x : Handler Body} {g : Gate Body}
    (hi : s.gateway.handlers[i]? = some x) (hfin : x.body.finished = true)
    (he : s.gateway.leave i = some g) : Traffic { s with gateway := g } := by
  have hg := h.gateway.leave he
  unfold Gate.leave at he
  split at he
  · rename_i b hl hb
    obtain rfl := Option.some.inj (hb.symm.trans hi)
    obtain rfl := Option.some.inj he
    refine h.gate hg hi rfl (fun hne => absurd rfl hne) fun k pc seen t hx ht => ?_
    obtain ⟨t', ht', hok⟩ := h.knows i k pc seen (hx ▸ hi)
    obtain rfl := Option.some.inj (ht.symm.trans ht')
    simp only [Handler.mk.injEq, true_and] at hx
    subst hx
    cases pc with
    | answered a => exact hok.1
    | _ => simp [Body.finished] at hfin
  · simp at he

theorem Traffic.queue (h : Traffic s) {i : ℕ} (hi : s.gateway.handlers[i]? = some ⟨.running, .plain⟩)
    (t : Task) : Traffic { s with
      tasks := s.tasks ++ [t], gateway := s.gateway.work i (.text s.tasks.length .tLoop false) } := by
  have hlt := (List.getElem?_eq_some_iff.mp hi).1
  refine ⟨h.gateway.work hi, h.worker, fun k u hu hopen => ?_, fun j k pc seen hj => ?_,
    fun j x hj hx => ?_⟩
  · by_cases hk : k = s.tasks.length
    · subst hk
      exact ⟨i, .tLoop, false, by simp only [Gate.work, List.getElem?_set_self hlt]⟩
    · have hu' : s.tasks[k]? = some u := by
        simp only [List.getElem?_append] at hu
        split at hu
        · exact hu
        · obtain ⟨hk', -⟩ := List.getElem?_eq_some_iff.mp hu
          simp only [List.length_cons, List.length_nil] at hk'
          omega
      obtain ⟨j, pc, seen, hj⟩ := h.waits k u hu' hopen
      have hij : i ≠ j := by
        rintro rfl
        simp [hi] at hj
      exact ⟨j, pc, seen, by simp only [Gate.work, List.getElem?_set_ne hij]; exact hj⟩
  · simp only [Gate.work] at hj
    rcases Gate.set_cases hj with ⟨-, heq⟩ | ⟨-, hj⟩
    · simp only [Handler.mk.injEq, true_and, Body.text.injEq] at heq
      obtain ⟨rfl, rfl, rfl⟩ := heq
      exact ⟨t, by simp, rfl⟩
    · obtain ⟨u, hu, hok⟩ := h.knows j k pc seen hj
      have hk := (List.getElem?_eq_some_iff.mp hu).1
      exact ⟨u, by simp only [List.getElem?_append_left hk]; exact hu, hok⟩
  · simp only [Gate.work] at hj
    rcases Gate.set_cases hj with ⟨-, rfl⟩ | ⟨-, hj⟩
    · simp at hx
    · exact h.fresh j x hj hx

/-- A waiting handler moves to a point where it knows what it should. -/
theorem Traffic.work (h : Traffic s) {i k : ℕ} {pc pc' : Handlers.Pc} {seen seen' : Bool} {t : Task}
    (hi : s.gateway.handlers[i]? = some ⟨.running, .text k pc seen⟩) (ht : s.tasks[k]? = some t)
    (hok : pc'.Ok .textTask t s.mono seen') :
    Traffic { s with gateway := s.gateway.work i (.text k pc' seen') } := by
  have hlt := (List.getElem?_eq_some_iff.mp hi).1
  refine ⟨h.gateway.work hi, h.worker, fun j u hu hopen => ?_, fun j l q b hj => ?_,
    fun j x hj hx => ?_⟩
  · obtain ⟨l, q, b, hl⟩ := h.waits j u hu hopen
    by_cases hil : i = l
    · subst hil
      have heq := Option.some.inj (hi.symm.trans hl)
      simp only [Handler.mk.injEq, true_and, Body.text.injEq] at heq
      obtain ⟨rfl, -, -⟩ := heq
      exact ⟨i, pc', seen', by simp only [Gate.work, List.getElem?_set_self hlt]⟩
    · exact ⟨l, q, b, by simp only [Gate.work, List.getElem?_set_ne hil]; exact hl⟩
  · simp only [Gate.work] at hj
    rcases Gate.set_cases hj with ⟨-, heq⟩ | ⟨-, hj⟩
    · simp only [Handler.mk.injEq, true_and, Body.text.injEq] at heq
      obtain ⟨rfl, rfl, rfl⟩ := heq
      exact ⟨t, ht, hok⟩
    · exact h.knows j l q b hj
  · simp only [Gate.work] at hj
    rcases Gate.set_cases hj with ⟨-, rfl⟩ | ⟨-, hj⟩
    · simp at hx
    · exact h.fresh j x hj hx

theorem Traffic.gwStep (h : Traffic s) {i : ℕ} {disc : Bool} (hs : gwStep s i disc = some t) :
    Traffic t := by
  unfold Drain.gwStep at hs
  split at hs
  · rename_i k pc seen hi
    obtain ⟨u, hu, hok⟩ := h.knows i k pc seen hi
    split at hs
    · rename_i v m after hv
      obtain rfl := Option.some.inj hs
      obtain ⟨⟨x, c, rfl⟩, hclosing⟩ := hok
      refine (h.call k (.markFailed x c)).work hi (t := u.call (.markFailed x c) s.mono s.wall) ?_ ?_
      · simp only [List.getElem?_modify_eq, hu]
        rfl
      · exact hclosing.ok (Task.markFailed_terminal u s.wall x c)
    · rename_i v pc' hv hne
      obtain ⟨q, hq, rfl⟩ := Option.map_eq_some_iff.mp hs
      obtain rfl := Option.some.inj (hu.symm.trans hv)
      exact h.work hi hu (hok.next hq)
    · simp at hs
  · simp at hs

theorem Traffic.restart (h : Traffic s) (hq : s.gateway.Quiet) : Traffic { s with gateway := {} } := by
  refine ⟨Gate.wf_empty, h.worker, fun k t ht hopen => ?_, fun i k pc seen hi => by simp at hi,
    fun i x hi => by simp at hi⟩
  have := h.terminal hq ht
  simp [hopen] at this

end Traffic

end Inference.Deploy.Drain
