import Mathlib.Algebra.BigOperators.Group.Finset.Piecewise
import Mathlib.Algebra.Order.BigOperators.Group.Finset
import Inference.Lib.Run

/-!
# Inference.Lib.Potential — amortised bounds along a run

A potential `μ` of the state pays for the steps of a run: a step takes `cost` out of the potential and
puts at most `gain` into it.  What a run costs is then bounded by the potential at its beginning and
by what it gains (`total`).  A potential that is a sum over places changes by what one place changes
by (`sum_le_of_one`).  Nothing here names a program.
-/

namespace Inference.Lib

variable {σ ε : Type} {step : σ → ε → Option σ} {C : σ → ε → Prop} {P : σ → Prop} {μ : σ → ℕ}

/-- The sum of `f` over the steps of a run. -/
def total (step : σ → ε → Option σ) (f : σ → ε → ℕ) : σ → List ε → ℕ
  | _, [] => 0
  | s, e :: es => f s e + (step s e).elim 0 fun t => total step f t es

/-- **Potential rule.** -/
theorem exec_total (cost gain : σ → ε → ℕ) (hP : ∀ s e t, C s e → P s → step s e = some t → P t)
    (hstep : ∀ s e t, C s e → P s → step s e = some t → μ t + cost s e ≤ μ s + gain s e) {s t : σ}
    {es : List ε} (hC : Meets step C s es) (hs : P s) (h : exec step s es = some t) :
    μ t + total step cost s es ≤ μ s + total step gain s es := by
  induction es generalizing s with
  | nil =>
    obtain rfl : s = t := Option.some.inj h
    exact le_rfl
  | cons e es ih =>
    obtain ⟨m, h1, h2⟩ := exec_cons.mp h
    have hhead := hstep s e m hC.1 hs h1
    have htail := ih (hC.2 m h1) (hP s e m hC.1 hs h1) h2
    simp only [total, h1, Option.elim_some]
    omega

theorem total_countP {p : ε → Bool} {g : ℕ} {s t : σ} {es : List ε} (h : exec step s es = some t) :
    total step (fun _ e => if p e then g else 0) s es = g * es.countP p := by
  induction es generalizing s with
  | nil => rfl
  | cons e es ih =>
    obtain ⟨m, h1, h2⟩ := exec_cons.mp h
    rw [total, h1, Option.elim_some, ih h2, List.countP_cons, Nat.mul_add, Nat.add_comm]
    cases p e <;> simp

/-- The rule for events that pay one and events that earn `g`. -/
theorem exec_potential {pays earns : ε → Bool} {g : ℕ}
    (hP : ∀ s e t, C s e → P s → step s e = some t → P t)
    (hstep : ∀ s e t, C s e → P s → step s e = some t →
      μ t + (pays e).toNat ≤ μ s + if earns e then g else 0) {s t : σ} {es : List ε}
    (hC : Meets step C s es) (hs : P s) (h : exec step s es = some t) :
    μ t + es.countP pays ≤ μ s + g * es.countP earns := by
  have hrun := exec_total (fun _ e => if pays e then 1 else 0) (fun _ e => if earns e then g else 0)
    hP (fun s e t hC hs h => by simpa [Bool.toNat, Bool.cond_eq_ite] using hstep s e t hC hs h) hC hs h
  rwa [total_countP h, total_countP h, Nat.one_mul] at hrun

/-- Place `a` changes; at most place `b` gains `x` besides. -/
theorem sum_le_of_one {ι : Type} [DecidableEq ι] {S : Finset ι} {f g : ι → ℕ} {a b : ι} {x : ℕ}
    (hrest : ∀ i ∈ S, i ≠ a → g i ≤ f i + if i = b then x else 0) (ha : a ∈ S) :
    ∑ i ∈ S, g i + f a ≤ ∑ i ∈ S, f i + g a + x := by
  have herase : ∑ i ∈ S.erase a, g i ≤ ∑ i ∈ S.erase a, f i + x := by
    calc ∑ i ∈ S.erase a, g i
        ≤ ∑ i ∈ S.erase a, (f i + if i = b then x else 0) :=
          Finset.sum_le_sum fun i hi => hrest i (Finset.mem_of_mem_erase hi) (Finset.ne_of_mem_erase hi)
      _ = ∑ i ∈ S.erase a, f i + ∑ i ∈ S.erase a, if i = b then x else 0 := Finset.sum_add_distrib
      _ ≤ ∑ i ∈ S.erase a, f i + x := by
          rw [Finset.sum_ite_eq']
          split <;> simp
  have hf := Finset.add_sum_erase S f ha
  have hg := Finset.add_sum_erase S g ha
  omega

end Inference.Lib
