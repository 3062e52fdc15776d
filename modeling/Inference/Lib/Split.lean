import Mathlib.Data.List.Sort
import Mathlib.Data.List.Lex

/-!
# Inference.Lib.Split — splitting a text, and joining its sorted pieces

`words p l` are the maximal stretches of `l` outside `p`.  Joining the sorted pieces of a text by
their separator names the pieces up to order (`intercalate_sort_inj`).  Nothing here names a
program.
-/

namespace Inference.Lib.Split

variable {α : Type}

/-- The pieces between the elements that satisfy `p`, less the empty ones. -/
def words (p : α → Bool) (l : List α) : List (List α) := (l.splitOnP p).filter fun w => !w.isEmpty

theorem words_cons_of_pos {p : α → Bool} {c : α} (hc : p c = true) (l : List α) :
    words p (c :: l) = words p l := by
  rw [words, List.splitOnP_cons_eq_if_modifyHead, if_pos hc]
  rfl

/-- What satisfies `p` in front of a text belongs to no word. -/
theorem words_append_left {p : α → Bool} {pre : List α} (hpre : ∀ c ∈ pre, p c = true) (l : List α) :
    words p (pre ++ l) = words p l := by
  induction pre with
  | nil => rfl
  | cons c pre ih =>
    rw [List.forall_mem_cons] at hpre
    rw [List.cons_append, words_cons_of_pos hpre.1, ih hpre.2]

/-- A word that nothing continues is the first one. -/
theorem words_append_word {p : α → Bool} {w l : List α} (hne : w ≠ []) (hw : ∀ c ∈ w, p c = false)
    (hl : ∀ c ∈ l.head?, p c = true) : words p (w ++ l) = w :: words p l := by
  have hkeep : (!w.isEmpty) = true := by
    cases w with
    | nil => exact absurd rfl hne
    | cons c w => rfl
  cases l with
  | nil =>
    rw [List.append_nil, words, List.splitOnP_eq_singleton hw, List.filter_cons, if_pos hkeep]
    rfl
  | cons c l =>
    rw [words_cons_of_pos (hl c rfl), words,
      List.splitOnP_append_cons_of_forall_mem hw c (hl c rfl), List.filter_cons, if_pos hkeep]
    rfl

section
variable [DecidableEq α]

theorem sep_notMem_of_mem_splitOn {sep : α} (l : List α) : ∀ w ∈ l.splitOn sep, sep ∉ w := by
  induction l with
  | nil => simp
  | cons c l ih =>
    rw [List.splitOn_cons_eq_if_modifyHead]
    split
    · intro w hw
      rcases List.mem_cons.mp hw with rfl | hw
      · exact List.not_mem_nil
      · exact ih w hw
    next hc =>
      obtain ⟨x, xs, hx⟩ := List.exists_cons_of_ne_nil (List.splitOn_ne_nil sep l)
      rw [hx] at ih ⊢
      rw [List.forall_mem_cons] at ih
      rw [List.modifyHead_cons, List.forall_mem_cons]
      refine ⟨fun hmem => ?_, ih.2⟩
      rcases List.mem_cons.mp hmem with rfl | hmem
      · exact hc (beq_self_eq_true _)
      · exact ih.1 hmem

end

variable [LinearOrder α]

/-- **Sorted pieces.**  Two texts have the same pieces, in some order, iff their sorted pieces join
to the same text. -/
theorem intercalate_sort_inj {sep : α} {l l' : List (List α)} (hl : l ≠ []) (hl' : l' ≠ [])
    (hsep : ∀ w ∈ l, sep ∉ w) (hsep' : ∀ w ∈ l', sep ∉ w) :
    [sep].intercalate (l.insertionSort (· ≤ ·)) = [sep].intercalate (l'.insertionSort (· ≤ ·)) ↔
      l.Perm l' := by
  have hperm : ∀ m : List (List α), (m.insertionSort (· ≤ ·)).Perm m :=
    fun m => List.perm_insertionSort (· ≤ ·) m
  have hback : ∀ m : List (List α), m ≠ [] → (∀ w ∈ m, sep ∉ w) →
      ([sep].intercalate (m.insertionSort (· ≤ ·))).splitOn sep = m.insertionSort (· ≤ ·) := by
    intro m hne hm
    refine List.splitOn_intercalate sep (fun w hw => hm w ((hperm m).mem_iff.mp hw)) ?_
    intro hnil
    exact hne (List.perm_nil.mp (hnil ▸ (hperm m).symm))
  constructor
  · intro h
    have hsort := hback l hl hsep
    rw [h, hback l' hl' hsep'] at hsort
    exact (hperm l).symm.trans (hsort ▸ hperm l')
  · intro h
    have hsort : l.insertionSort (· ≤ ·) = l'.insertionSort (· ≤ ·) := by
      have hsame := (hperm l).trans (h.trans (hperm l').symm)
      exact hsame.eq_of_pairwise (fun a b _ _ hab hba => le_antisymm hab hba)
        (List.pairwise_insertionSort (· ≤ ·) l) (List.pairwise_insertionSort (· ≤ ·) l')
    rw [hsort]

end Inference.Lib.Split
