import Inference.Lib.Exclusive

/-!
# Inference.Lib.Monitor — state behind a lock

Threads stand at program points; at some of them (`holds`) a thread has the lock.  `Monitor` says that
the invariant `I` holds of the shared state while the lock is free, and that the assertion `A q`
holds while a thread has the lock at point `q`.  A statement leaves the critical sections alone, takes
the lock, moves on inside, or releases it (`Move`).  Nothing here names a program.
-/

namespace Inference.Lib

variable {σ ω : Type} {holds : ω → Bool} {I : σ → Prop} {A : ω → σ → Prop} {threads : List ω}
  {busy busy' : Bool} {s s' : σ} {i : ℕ} {q q' : ω}

structure Monitor (holds : ω → Bool) (I : σ → Prop) (A : ω → σ → Prop) (threads : List ω)
    (busy : Bool) (s : σ) : Prop where
  lock : Exclusive holds threads busy
  free : busy = false → I s
  held : ∀ q ∈ threads, holds q = true → A q s

/-- What a statement between points `q` and `q'` does. -/
inductive Move (holds : ω → Bool) (I : σ → Prop) (A : ω → σ → Prop) (q q' : ω)
    (busy busy' : Bool) (s s' : σ) : Prop where
  | outside (hq : holds q = false) (hq' : holds q' = false) (hl : busy' = busy) (hI : I s → I s')
      (hA : ∀ r, A r s → A r s')
  | enter (hl : busy = false) (hl' : busy' = true) (hq' : holds q' = true) (h : I s → A q' s')
  | inside (hq : holds q = true) (hq' : holds q' = true) (hl : busy' = busy)
      (h : A q s → A q' s')
  | leave (hq : holds q = true) (hq' : holds q' = false) (hl' : busy' = false) (h : A q s → I s')

namespace Monitor

theorem nil (h : I s) : Monitor holds I A [] false s := ⟨.nil, fun _ => h, nofun⟩

/-- A thread comes. -/
theorem join (h : Monitor holds I A threads busy s) (hq : holds q = false) :
    Monitor holds I A (threads ++ [q]) busy s := by
  refine ⟨h.lock.append hq, h.free, fun r hr hhr => ?_⟩
  rcases List.mem_append.mp hr with hr | hr
  · exact h.held r hr hhr
  · rw [List.mem_singleton.mp hr, hq] at hhr
    cases hhr

/-- A thread of a list in which one was replaced. -/
theorem mem_set_cases {r : ω} (hi : threads[i]? = some q) (hr : r ∈ threads.set i q') :
    r = q' ∨ ∃ j, j ≠ i ∧ threads[j]? = some r := by
  obtain ⟨j, hj⟩ := List.getElem?_of_mem hr
  rcases Exclusive.get_set hi hj with ⟨-, rfl⟩ | ⟨hji, hj⟩
  · exact .inl rfl
  · exact .inr ⟨j, hji, hj⟩

/-- **Monitor rule.** -/
theorem move (h : Monitor holds I A threads busy s) (hi : threads[i]? = some q)
    (hm : Move holds I A q q' busy busy' s s') :
    Monitor holds I A (threads.set i q') busy' s' := by
  cases hm with
  | outside hq hq' hl hI hA =>
    subst hl
    refine ⟨h.lock.set hi (hq'.trans hq.symm), fun hfree => hI (h.free hfree), fun r hr hhr => ?_⟩
    rcases mem_set_cases hi hr with rfl | ⟨j, -, hj⟩
    · rw [hq'] at hhr
      cases hhr
    · exact hA r (h.held r (List.mem_of_getElem? hj) hhr)
  | enter hl hl' hq' hA =>
    subst hl hl'
    refine ⟨h.lock.take hi hq', nofun, fun r hr hhr => ?_⟩
    rcases mem_set_cases hi hr with rfl | ⟨j, -, hj⟩
    · exact hA (h.free rfl)
    · have hbusy := h.lock.busy.mpr ⟨r, List.mem_of_getElem? hj, hhr⟩
      cases hbusy
  | inside hq hq' hl hA =>
    subst hl
    have hbusy : busy' = true := h.lock.busy.mpr ⟨q, List.mem_of_getElem? hi, hq⟩
    refine ⟨h.lock.set hi (hq'.trans hq.symm), fun hfree => ?_, fun r hr hhr => ?_⟩
    · rw [hbusy] at hfree
      cases hfree
    · rcases mem_set_cases hi hr with rfl | ⟨j, hji, hj⟩
      · exact hA (h.held q (List.mem_of_getElem? hi) hq)
      · exact absurd (h.lock.unique j i r q hj hi hhr hq) hji
  | leave hq hq' hl' hI =>
    subst hl'
    refine ⟨h.lock.leave hi hq hq', fun _ => hI (h.held q (List.mem_of_getElem? hi) hq),
      fun r hr hhr => ?_⟩
    rcases mem_set_cases hi hr with rfl | ⟨j, hji, hj⟩
    · rw [hq'] at hhr
      cases hhr
    · exact absurd (h.lock.unique j i r q hj hi hhr hq) hji

/-- What the invariant and every assertion imply holds always. -/
theorem always (h : Monitor holds I A threads busy s) {P : Prop} (hI : I s → P)
    (hA : ∀ q, A q s → P) : P := by
  cases hl : busy with
  | false => exact hI (h.free hl)
  | true =>
    obtain ⟨q, hq, hhq⟩ := h.lock.busy.mp hl
    exact hA q (h.held q hq hhq)

end Monitor

end Inference.Lib
