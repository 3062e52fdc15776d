import Mathlib.Data.List.Basic

/-!
# Inference.Lib.Run — runs of a partial step function over a list of events

A system is a state type `σ`, an event type `ε` and a step function `σ → ε → Option σ`; every
nondeterministic choice (which thread moves, what a call answers, which fault strikes) is carried
by the event, so a run is a list of events.  Rules: splitting a run, carrying an invariant along
it, carrying an invariant along the runs all of whose steps meet a condition (`Meets`), relating the
state to what was observed on the way (`trace`), and carrying a preorder along it.  Nothing here
names a program.
-/

namespace Inference.Lib

variable {σ ε : Type} (step : σ → ε → Option σ)

/-- The state reached from `s` by the events `es`, `none` when some event is not enabled. -/
def exec : σ → List ε → Option σ
  | s, [] => some s
  | s, e :: es => (step s e).bind fun t => exec t es

/-- Every step of the run of `es` from `s` meets the condition `C`. -/
def Meets (C : σ → ε → Prop) : σ → List ε → Prop
  | _, [] => True
  | s, e :: es => C s e ∧ ∀ t, step s e = some t → Meets C t es

variable {step}

@[simp] theorem exec_nil (s : σ) : exec step s [] = some s := rfl

theorem exec_cons {s t : σ} {e : ε} {es : List ε} :
    exec step s (e :: es) = some t ↔ ∃ m, step s e = some m ∧ exec step m es = some t := by
  simp only [exec, Option.bind_eq_some_iff]

theorem exec_append {s t : σ} {es fs : List ε} :
    exec step s (es ++ fs) = some t ↔ ∃ m, exec step s es = some m ∧ exec step m fs = some t := by
  induction es generalizing s with
  | nil => simp
  | cons e es ih =>
    rw [List.cons_append, exec_cons]
    constructor
    · rintro ⟨m, h1, h2⟩
      obtain ⟨n, h3, h4⟩ := ih.mp h2
      exact ⟨n, exec_cons.mpr ⟨m, h1, h3⟩, h4⟩
    · rintro ⟨n, h1, h2⟩
      obtain ⟨m, h3, h4⟩ := exec_cons.mp h1
      exact ⟨m, h3, ih.mpr ⟨n, h4, h2⟩⟩

theorem exec_concat {s t : σ} {es : List ε} {e : ε} :
    exec step s (es ++ [e]) = some t ↔ ∃ m, exec step s es = some m ∧ step m e = some t := by
  rw [exec_append]
  constructor
  · rintro ⟨m, h1, h2⟩
    obtain ⟨n, h3, h4⟩ := exec_cons.mp h2
    rw [exec_nil, Option.some.injEq] at h4
    exact ⟨m, h1, h4 ▸ h3⟩
  · rintro ⟨m, h1, h2⟩
    exact ⟨m, h1, exec_cons.mpr ⟨t, h2, rfl⟩⟩

/-- **Invariant rule.**  What one step preserves, every run preserves. -/
theorem exec_inv {P : σ → Prop} (hstep : ∀ s e t, P s → step s e = some t → P t) {s t : σ}
    {es : List ε} (hs : P s) (h : exec step s es = some t) : P t := by
  induction es generalizing s with
  | nil =>
    rw [exec_nil, Option.some.injEq] at h
    exact h ▸ hs
  | cons e es ih =>
    obtain ⟨m, h1, h2⟩ := exec_cons.mp h
    exact ih (hstep s e m hs h1) h2

/-- **Conditional invariant rule.**  What every step meeting `C` preserves, every run all of
whose steps meet `C` preserves. -/
theorem exec_inv_meets {P : σ → Prop} {C : σ → ε → Prop}
    (hstep : ∀ s e t, C s e → P s → step s e = some t → P t) {s t : σ} {es : List ε}
    (hC : Meets step C s es) (hs : P s) (h : exec step s es = some t) : P t := by
  induction es generalizing s with
  | nil =>
    rw [exec_nil, Option.some.injEq] at h
    exact h ▸ hs
  | cons e es ih =>
    obtain ⟨m, h1, h2⟩ := exec_cons.mp h
    exact ih (hC.2 m h1) (hstep s e m hC.1 hs h1) h2

theorem meets_of_forall {C : σ → ε → Prop} {es : List ε} (h : ∀ e ∈ es, ∀ s, C s e) (s : σ) :
    Meets step C s es := by
  induction es generalizing s with
  | nil => trivial
  | cons e es ih =>
    exact ⟨h e List.mem_cons_self s, fun t _ => ih (fun x hx => h x (List.mem_cons_of_mem _ hx)) t⟩

theorem meets_append {C : σ → ε → Prop} {s m : σ} {es fs : List ε} (hes : Meets step C s es)
    (hm : exec step s es = some m) (hfs : Meets step C m fs) : Meets step C s (es ++ fs) := by
  induction es generalizing s with
  | nil =>
    rw [exec_nil, Option.some.injEq] at hm
    exact hm ▸ hfs
  | cons e es ih =>
    obtain ⟨t, h1, h2⟩ := exec_cons.mp hm
    refine ⟨hes.1, fun u hu => ?_⟩
    obtain rfl : t = u := Option.some.inj (h1.symm.trans hu)
    exact ih (hes.2 t h1) h2

theorem meets_split {C : σ → ε → Prop} {s : σ} {es fs : List ε} (h : Meets step C s (es ++ fs)) :
    Meets step C s es ∧ ∀ m, exec step s es = some m → Meets step C m fs := by
  induction es generalizing s with
  | nil =>
    refine ⟨trivial, fun m hm => ?_⟩
    rw [exec_nil, Option.some.injEq] at hm
    exact hm ▸ h
  | cons e es ih =>
    refine ⟨⟨h.1, fun t ht => (ih (h.2 t ht)).1⟩, fun m hm => ?_⟩
    obtain ⟨t, ht, hrest⟩ := exec_cons.mp hm
    exact (ih (h.2 t ht)).2 m hrest

/-- A condition that an invariant implies is met by every step of a run that has the invariant. -/
theorem meets_of_inv {C : σ → ε → Prop} {P : σ → Prop}
    (hstep : ∀ s e t, P s → step s e = some t → P t) (hC : ∀ s e, P s → C s e) {s : σ}
    {es : List ε} (hs : P s) : Meets step C s es := by
  induction es generalizing s with
  | nil => trivial
  | cons e es ih => exact ⟨hC s e hs, fun t ht => ih (hstep s e t hs ht)⟩

/-- **Exact condition rule.**  Steps that meet `C` keep `P`, which implies `Q`, and a step from a
`P`-state that misses `C` leads out of `Q`: a run meets `C` exactly when every state of it is in `Q`. -/
theorem meets_iff_reached {C : σ → ε → Prop} {P Q : σ → Prop} (hPQ : ∀ s, P s → Q s)
    (hstep : ∀ s e t, C s e → P s → step s e = some t → P t)
    (hmiss : ∀ s e t, ¬ C s e → P s → step s e = some t → ¬ Q t) {s t : σ} {es : List ε}
    (hs : P s) (h : exec step s es = some t) :
    Meets step C s es ↔ ∀ fs m, fs <+: es → exec step s fs = some m → Q m := by
  constructor
  · rintro hC fs m ⟨gs, rfl⟩ hm
    exact hPQ m (exec_inv_meets hstep (meets_split hC).1 hs hm)
  · intro hQ
    induction es generalizing s with
    | nil => trivial
    | cons e es ih =>
      obtain ⟨n, h1, h2⟩ := exec_cons.mp h
      have hn : Q n := hQ [e] n ⟨es, rfl⟩ (exec_cons.mpr ⟨n, h1, rfl⟩)
      have hC : C s e := by
        by_contra hmissed
        exact hmiss s e n hmissed hs h1 hn
      refine ⟨hC, fun u hu => ?_⟩
      obtain rfl : n = u := Option.some.inj (h1.symm.trans hu)
      refine ih (hstep s e n hC hs h1) h2 fun fs m hfs hm => ?_
      exact hQ (e :: fs) m (List.cons_prefix_cons.mpr ⟨rfl, hfs⟩) (exec_cons.mpr ⟨n, h1, hm⟩)

/-- Two conditions that agree on the steps from the states of an invariant are met together. -/
theorem meets_congr {C D : σ → ε → Prop} {P : σ → Prop}
    (hstep : ∀ s e t, P s → step s e = some t → P t)
    (hCD : ∀ s e t, P s → step s e = some t → (C s e ↔ D s e)) {s t : σ} {es : List ε} (hs : P s)
    (h : exec step s es = some t) : Meets step C s es ↔ Meets step D s es := by
  induction es generalizing s with
  | nil => exact Iff.rfl
  | cons e es ih =>
    obtain ⟨m, h1, h2⟩ := exec_cons.mp h
    refine and_congr (hCD s e m hs h1) (forall_congr' fun u => imp_congr_right fun hu => ?_)
    obtain rfl : m = u := Option.some.inj (h1.symm.trans hu)
    exact ih (hstep s e m hs h1) h2

theorem meets_and {C D : σ → ε → Prop} {s : σ} {es : List ε} (hC : Meets step C s es)
    (hD : Meets step D s es) : Meets step (fun s e => C s e ∧ D s e) s es := by
  induction es generalizing s with
  | nil => trivial
  | cons e es ih => exact ⟨⟨hC.1, hD.1⟩, fun t ht => ih (hC.2 t ht) (hD.2 t ht)⟩

/-- A condition that can be evaluated, along a run. -/
def checks (step : σ → ε → Option σ) (b : σ → ε → Bool) : σ → List ε → Bool
  | _, [] => true
  | s, e :: es => b s e && (step s e).all fun t => checks step b t es

theorem meets_of_checks {C : σ → ε → Prop} {b : σ → ε → Bool} (hb : ∀ s e, b s e = true → C s e)
    {s : σ} {es : List ε} (h : checks step b s es = true) : Meets step C s es := by
  induction es generalizing s with
  | nil => trivial
  | cons e es ih =>
    rw [checks, Bool.and_eq_true] at h
    refine ⟨hb s e h.1, fun t ht => ih ?_⟩
    rw [ht] at h
    exact h.2

/-- What holds at the end of a run, and of every state before one it holds of, holds after every
step. -/
theorem meets_of_end {Q : σ → Prop} (hback : ∀ s e t, step s e = some t → Q t → Q s) {s t : σ}
    {es : List ε} (h : exec step s es = some t) (ht : Q t) :
    Q s ∧ Meets step (fun s e => ∀ t, step s e = some t → Q t) s es := by
  induction es generalizing s with
  | nil =>
    rw [exec_nil, Option.some.injEq] at h
    exact ⟨h ▸ ht, trivial⟩
  | cons e es ih =>
    obtain ⟨m, h1, h2⟩ := exec_cons.mp h
    obtain ⟨hm, hrest⟩ := ih h2
    have hall : ∀ u, step s e = some u → m = u := fun u hu => Option.some.inj (h1.symm.trans hu)
    exact ⟨hback s e m h1 hm, fun u hu => hall u hu ▸ hm, fun u hu => hall u hu ▸ hrest⟩

/-- **Preorder rule.**  A reflexive and transitive relation that every step from a `P`-state
respects relates the two ends of every run. -/
theorem exec_rel {P : σ → Prop} {R : σ → σ → Prop} (hrefl : ∀ s, R s s)
    (htrans : ∀ a b c, R a b → R b c → R a c) (hP : ∀ s e t, P s → step s e = some t → P t)
    (hstep : ∀ s e t, P s → step s e = some t → R s t) {s t : σ} {es : List ε} (hs : P s)
    (h : exec step s es = some t) : R s t := by
  induction es generalizing s with
  | nil =>
    rw [exec_nil, Option.some.injEq] at h
    exact h ▸ hrefl s
  | cons e es ih =>
    obtain ⟨m, h1, h2⟩ := exec_cons.mp h
    exact htrans s m t (hstep s e m hs h1) (ih (hP s e m hs h1) h2)

section
variable {α : Type}

/-- What is observed along a run. -/
def trace (step : σ → ε → Option σ) (obs : σ → ε → List α) : σ → List ε → List α
  | _, [] => []
  | s, e :: es => obs s e ++ (step s e).elim [] fun t => trace step obs t es

/-- **Trace rule.**  A relation between the state and what was observed so far, kept by every step
that meets `C`, holds at the end of every run all of whose steps meet `C`. -/
theorem exec_trace {obs : σ → ε → List α} {C : σ → ε → Prop} {P : σ → List α → Prop}
    (hstep : ∀ s e t l, C s e → P s l → step s e = some t → P t (l ++ obs s e)) {s t : σ}
    {es : List ε} (hC : Meets step C s es) (h : exec step s es = some t) {l : List α} (hs : P s l) :
    P t (l ++ trace step obs s es) := by
  induction es generalizing s l with
  | nil =>
    rw [exec_nil, Option.some.injEq] at h
    rw [trace, List.append_nil]
    exact h ▸ hs
  | cons e es ih =>
    obtain ⟨m, h1, h2⟩ := exec_cons.mp h
    rw [trace, h1, Option.elim_some, ← List.append_assoc]
    exact ih (hC.2 m h1) h2 (hstep s e m l hC.1 hs h1)

theorem trace_append {obs : σ → ε → List α} {s m : σ} {es fs : List ε}
    (hm : exec step s es = some m) :
    trace step obs s (es ++ fs) = trace step obs s es ++ trace step obs m fs := by
  induction es generalizing s with
  | nil =>
    rw [exec_nil, Option.some.injEq] at hm
    rw [hm]
    rfl
  | cons e es ih =>
    obtain ⟨t, h1, h2⟩ := exec_cons.mp hm
    simp only [List.cons_append, trace, h1, Option.elim_some, ih h2, List.append_assoc]

theorem trace_eq_nil {obs : σ → ε → List α} {es : List ε} (h : ∀ e ∈ es, ∀ s, obs s e = [])
    (s : σ) : trace step obs s es = [] := by
  induction es generalizing s with
  | nil => rfl
  | cons e es ih =>
    rw [trace, h e List.mem_cons_self s, List.nil_append]
    cases step s e with
    | none => rfl
    | some t => exact ih (fun x hx => h x (List.mem_cons_of_mem _ hx)) t

end

end Inference.Lib
