import Mathlib.Data.List.Infix

/-!
# Inference.Lib.History — properties of every entry of a history

A history is a list, newest entry first.  `Each P l` says that every entry of `l` stands in the
relation `P` to the entries older than it.  Nothing here names a program.
-/

namespace Inference.Lib

variable {α : Type} {P : α → List α → Prop} {l : List α}

/-- Every entry is related by `P` to the history it was added to. -/
def Each (P : α → List α → Prop) (l : List α) : Prop := ∀ e older, e :: older <:+ l → P e older

theorem each_nil : Each P [] := by
  intro e older h
  simpa using h.length_le

theorem Each.cons (h : Each P l) {e : α} (he : P e l) : Each P (e :: l) := by
  intro x older hx
  rcases List.suffix_cons_iff.mp hx with heq | hsuf
  · obtain ⟨rfl, rfl⟩ := List.cons.inj heq
    exact he
  · exact h x older hsuf

end Inference.Lib
