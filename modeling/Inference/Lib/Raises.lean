import Mathlib.Tactic

/-!
# Inference.Lib.Raises — a program logic for stateful code that raises

Programs are terms of `ExceptT ε (StateM σ)`: an exception keeps the state it struck in.
`Runs m s Q E` says that `m` started in `s` returns in a state that satisfies `Q`, or raises in one
that satisfies `E`.  Rules for return, sequence, reading and writing the state, raising, `try`
with a handler and `try` with a `finally`.  Nothing here names a program.
-/

namespace Inference.Lib

variable {σ ε α β : Type}

/-- What `m` does from state `s`: the value or the exception, and the state it leaves. -/
def outcome (m : ExceptT ε (StateM σ) α) (s : σ) : Except ε α × σ := StateT.run (ExceptT.run m) s

/-- `m` run from `s` returns with `Q` or raises with `E`. -/
def Runs (m : ExceptT ε (StateM σ) α) (s : σ) (Q : α → σ → Prop) (E : ε → σ → Prop) : Prop :=
  match outcome m s with
  | (.ok a, t) => Q a t
  | (.error e, t) => E e t

variable {s : σ} {Q Q' : α → σ → Prop} {E E' : ε → σ → Prop}

theorem Runs.mono {m : ExceptT ε (StateM σ) α} (h : Runs m s Q E) (hQ : ∀ a t, Q a t → Q' a t)
    (hE : ∀ e t, E e t → E' e t) : Runs m s Q' E' := by
  unfold Runs at h ⊢
  split at h
  · exact hQ _ _ h
  · exact hE _ _ h

theorem Runs.and {m : ExceptT ε (StateM σ) α} (h : Runs m s Q E) (h' : Runs m s Q' E') :
    Runs m s (fun a t => Q a t ∧ Q' a t) (fun e t => E e t ∧ E' e t) := by
  unfold Runs at h h' ⊢
  split at h <;> exact ⟨h, by simpa [*] using h'⟩

theorem runs_true (m : ExceptT ε (StateM σ) α) (s : σ) :
    Runs m s (fun _ _ => True) (fun _ _ => True) := by
  unfold Runs
  split <;> trivial

theorem runs_pure {a : α} (h : Q a s) : Runs (pure a : ExceptT ε (StateM σ) α) s Q E := h

theorem runs_throw {e : ε} (h : E e s) : Runs (throw e : ExceptT ε (StateM σ) α) s Q E := h

theorem runs_get {Q : σ → σ → Prop} (h : Q s s) :
    Runs (get : ExceptT ε (StateM σ) σ) s Q E := h

theorem runs_modify {f : σ → σ} {Q : Unit → σ → Prop} (h : Q () (f s)) :
    Runs (modify f : ExceptT ε (StateM σ) Unit) s Q E := h

/-- Sequence: the rest runs from wherever the first part returned. -/
theorem runs_bind {m : ExceptT ε (StateM σ) α} {k : α → ExceptT ε (StateM σ) β}
    {R : β → σ → Prop} (h : Runs m s (fun a t => Runs (k a) t R E) E) :
    Runs (m >>= k) s R E := by
  have hb : outcome (m >>= k) s = match outcome m s with
      | (.ok a, t) => outcome (k a) t
      | (.error e, t) => (.error e, t) := by
    simp only [outcome, ExceptT.run_bind, StateT.run_bind]
    rcases StateT.run (ExceptT.run m) s with ⟨_ | a, t⟩ <;> rfl
  unfold Runs at h ⊢
  rw [hb]
  rcases hm : outcome m s with ⟨e | a, t⟩
  · simpa [hm] using h
  · simp only [hm] at h
    exact h

/-- `try … except`: the handler runs from wherever the body raised. -/
theorem runs_tryCatch {m : ExceptT ε (StateM σ) α} {h : ε → ExceptT ε (StateM σ) α}
    (hm : Runs m s Q (fun e t => Runs (h e) t Q E)) : Runs (tryCatch m h) s Q E := by
  have hb : outcome (tryCatch m h) s = match outcome m s with
      | (.ok a, t) => (.ok a, t)
      | (.error e, t) => outcome (h e) t := by
    change StateT.run (ExceptT.run (ExceptT.tryCatch m h)) s = _
    simp only [outcome, ExceptT.tryCatch, ExceptT.run_mk, StateT.run_bind]
    rcases hr : StateT.run (ExceptT.run m) s with ⟨_ | a, t⟩ <;>
      (simp only [ExceptT.run] at hr; rw [hr]; rfl)
  unfold Runs at hm ⊢
  rw [hb]
  rcases ho : outcome m s with ⟨e | a, t⟩
  · simp only [ho] at hm
    exact hm
  · simpa [ho] using hm

/-- `try … finally`: the finalizer runs on both ways out, and what it raises prevails. -/
theorem runs_tryFinally {m : ExceptT ε (StateM σ) α} {f : ExceptT ε (StateM σ) Unit}
    (h : Runs m s (fun a t => Runs f t (fun _ u => Q a u) E)
      (fun e t => Runs f t (fun _ u => E e u) E)) : Runs (tryFinally m f) s Q E := by
  have hb : outcome (tryFinally m f) s = match outcome m s with
      | (.ok a, t) => match outcome f t with
        | (.ok _, u) => (.ok a, u)
        | (.error e, u) => (.error e, u)
      | (.error e, t) => match outcome f t with
        | (.ok _, u) => (.error e, u)
        | (.error e', u) => (.error e', u) := by
    simp only [outcome, tryFinally, tryFinally', ExceptT.run, StateT.run, Functor.map,
      ExceptT.map, ExceptT.mk, bind, StateT.bind, pure]
    rcases m s with ⟨e | a, t⟩
    · dsimp only
      rcases f t with ⟨e' | b, u⟩ <;> rfl
    · dsimp only
      rcases f t with ⟨e' | b, u⟩ <;> rfl
  unfold Runs at h ⊢
  rw [hb]
  rcases ho : outcome m s with ⟨e | a, t⟩
  · simp only [ho] at h
    rcases hf : outcome f t with ⟨e' | b, u⟩ <;> simpa [hf] using h
  · simp only [ho] at h
    rcases hf : outcome f t with ⟨e' | b, u⟩ <;> simpa [hf] using h

end Inference.Lib
