import Mathlib.Data.List.Basic

/-!
# Inference.Lib.Exclusive — a flag held by at most one element of a list

Elements of a list that satisfy `p` hold a flag (a lock, a slot, a licence).  `Exclusive p l busy`
says that there is at most one and that `busy` tells whether there is one.  Rules: an element
joins, changes without taking or leaving, takes the free flag, or leaves it.
-/

namespace Inference.Lib

variable {α : Type} {p : α → Bool} {l : List α} {busy : Bool} {i : ℕ} {a b c : α}

structure Exclusive (p : α → Bool) (l : List α) (busy : Bool) : Prop where
  unique : ∀ (i j : ℕ) a b, l[i]? = some a → l[j]? = some b → p a = true → p b = true → i = j
  busy : busy = true ↔ ∃ a ∈ l, p a = true

namespace Exclusive

theorem nil : Exclusive p [] false where
  unique i _ _ _ h := by
    rw [List.getElem?_nil] at h
    cases h
  busy := by simp

/-- What another element of the list is after one is set. -/
theorem get_set {j : ℕ} (hi : l[i]? = some a) (hj : (l.set i b)[j]? = some c) :
    j = i ∧ c = b ∨ j ≠ i ∧ l[j]? = some c := by
  by_cases hji : j = i
  · subst hji
    rw [List.getElem?_set_self (List.getElem?_eq_some_iff.mp hi).1] at hj
    exact .inl ⟨rfl, (Option.some.inj hj).symm⟩
  · rw [List.getElem?_set_ne (Ne.symm hji)] at hj
    exact .inr ⟨hji, hj⟩

/-- A new element that does not hold the flag. -/
theorem append (h : Exclusive p l busy) (ha : p a = false) : Exclusive p (l ++ [a]) busy where
  unique i j b c hb hc hpb hpc := by
    have hold : ∀ {k : ℕ} {d : α}, (l ++ [a])[k]? = some d → p d = true → l[k]? = some d := by
      intro k d hd hpd
      rcases Nat.lt_or_ge k l.length with hk | hk
      · rwa [List.getElem?_append_left hk] at hd
      · rw [List.getElem?_append_right hk, List.getElem?_singleton] at hd
        split at hd
        · rw [← Option.some.inj hd, ha] at hpd
          cases hpd
        · cases hd
    exact h.unique i j b c (hold hb hpb) (hold hc hpc) hpb hpc
  busy := by simp [h.busy, or_and_right, exists_or, ha]

/-- An element changes and holds the flag as before. -/
theorem set (h : Exclusive p l busy) (hi : l[i]? = some a) (hab : p b = p a) :
    Exclusive p (l.set i b) busy where
  unique j k c d hc hd hpc hpd := by
    have hold : ∀ {k : ℕ} {d : α}, (l.set i b)[k]? = some d → p d = true →
        ∃ d', l[k]? = some d' ∧ p d' = true := by
      intro k d hd hpd
      rcases get_set hi hd with ⟨rfl, rfl⟩ | ⟨-, hd⟩
      · exact ⟨a, hi, hab ▸ hpd⟩
      · exact ⟨d, hd, hpd⟩
    obtain ⟨c', hc', hpc'⟩ := hold hc hpc
    obtain ⟨d', hd', hpd'⟩ := hold hd hpd
    exact h.unique j k c' d' hc' hd' hpc' hpd'
  busy := by
    rw [h.busy]
    constructor
    · rintro ⟨c, hc, hpc⟩
      obtain ⟨j, hj⟩ := List.getElem?_of_mem hc
      by_cases hji : j = i
      · subst hji
        obtain rfl := Option.some.inj (hi.symm.trans hj)
        exact ⟨b, List.mem_of_getElem? (List.getElem?_set_self (List.getElem?_eq_some_iff.mp hi).1),
          hab.trans hpc⟩
      · exact ⟨c, List.mem_of_getElem? ((List.getElem?_set_ne (Ne.symm hji)).trans hj), hpc⟩
    · rintro ⟨c, hc, hpc⟩
      obtain ⟨j, hj⟩ := List.getElem?_of_mem hc
      rcases get_set hi hj with ⟨rfl, rfl⟩ | ⟨-, hj⟩
      · exact ⟨a, List.mem_of_getElem? hi, hab ▸ hpc⟩
      · exact ⟨c, List.mem_of_getElem? hj, hpc⟩

/-- An element takes the flag that nobody holds. -/
theorem take (h : Exclusive p l false) (hi : l[i]? = some a) (hb : p b = true) :
    Exclusive p (l.set i b) true where
  unique j k c d hc hd hpc hpd := by
    have hfree : ∀ e ∈ l, p e = false := by
      intro e he
      by_contra hpe
      have hbusy := h.busy.mpr ⟨e, he, by rwa [Bool.not_eq_false] at hpe⟩
      cases hbusy
    have hat : ∀ {k : ℕ} {d : α}, (l.set i b)[k]? = some d → p d = true → k = i := by
      intro k d hd hpd
      rcases get_set hi hd with ⟨rfl, -⟩ | ⟨-, hd⟩
      · rfl
      · rw [hfree d (List.mem_of_getElem? hd)] at hpd
        cases hpd
    rw [hat hc hpc, hat hd hpd]
  busy := iff_of_true rfl
    ⟨b, List.mem_of_getElem? (List.getElem?_set_self (List.getElem?_eq_some_iff.mp hi).1), hb⟩

/-- The element that holds the flag leaves it. -/
theorem leave (h : Exclusive p l busy) (hi : l[i]? = some a) (ha : p a = true) (hb : p b = false) :
    Exclusive p (l.set i b) false := by
  have hnone : ∀ {k : ℕ} {d : α}, (l.set i b)[k]? = some d → p d = false := by
    intro k d hd
    rcases get_set hi hd with ⟨-, rfl⟩ | ⟨hk, hd⟩
    · exact hb
    · by_contra hpd
      exact hk (h.unique k i d a hd hi (by rwa [Bool.not_eq_false] at hpd) ha)
  refine ⟨fun j _ c _ hc _ hpc => ?_, ⟨nofun, ?_⟩⟩
  · rw [hnone hc] at hpc
    cases hpc
  · rintro ⟨c, hc, hpc⟩
    obtain ⟨j, hj⟩ := List.getElem?_of_mem hc
    rw [hnone hj] at hpc
    cases hpc

end Exclusive

end Inference.Lib
