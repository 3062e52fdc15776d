import Mathlib.Data.List.Nodup
import Mathlib.Data.List.Perm.Subperm

/-!
# Inference.Lib.Custody — items in the hands of places

`held P` are the items place `P` holds.  `Linear held` says that no item is held twice.  Rules: places
may let items go, one place may pass items to another, and new items may come in.  Nothing here
names a program.
-/

namespace Inference.Lib

open scoped List

variable {π α : Type} {held held' : π → List α}

/-- No item is in two places, nor twice in one. -/
structure Linear (held : π → List α) : Prop where
  nodup : ∀ P, (held P).Nodup
  apart : ∀ P Q i, i ∈ held P → i ∈ held Q → P = Q

theorem nodup_of_subperm {l m : List α} (h : l <+~ m) (hm : m.Nodup) : l.Nodup := by
  obtain ⟨k, hk, hsub⟩ := h
  exact hk.nodup_iff.mp (hm.sublist hsub)

/-- Places let items go. -/
theorem Linear.shrink (h : Linear held) (hs : ∀ P, held' P <+~ held P) : Linear held' :=
  ⟨fun P => nodup_of_subperm (hs P) (h.nodup P),
    fun P Q i hP hQ => h.apart P Q i ((hs P).subset hP) ((hs Q).subset hQ)⟩

/-- `dst` gains items that no other place has any more. -/
theorem Linear.gain (h : Linear held) {dst : π} {L : List α} (hnd : (held dst ++ L).Nodup)
    (hgone : ∀ i ∈ L, ∀ P, P ≠ dst → i ∉ held' P) (hdst : held' dst <+~ held dst ++ L)
    (hrest : ∀ P, P ≠ dst → held' P <+~ held P) : Linear held' := by
  refine ⟨fun P => ?_, fun P Q i hP hQ => ?_⟩
  · by_cases hP : P = dst
    · subst hP
      exact nodup_of_subperm hdst hnd
    · exact nodup_of_subperm (hrest P hP) (h.nodup P)
  · have hkey : ∀ P, P ≠ dst → i ∈ held' P → i ∉ held' dst := by
      intro P hPd hiP hid
      rcases List.mem_append.mp (hdst.subset hid) with hold | hL
      · exact hPd (h.apart P dst i ((hrest P hPd).subset hiP) hold)
      · exact hgone i hL P hPd hiP
    by_cases hPd : P = dst
    · by_cases hQd : Q = dst
      · exact hPd.trans hQd.symm
      · exact absurd (hPd ▸ hP) (hkey Q hQd hQ)
    · by_cases hQd : Q = dst
      · exact absurd (hQd ▸ hQ) (hkey P hPd hP)
      · exact h.apart P Q i ((hrest P hPd).subset hP) ((hrest Q hQd).subset hQ)

/-- `src` passes the items `L` to `dst`; everybody may let items go. -/
theorem Linear.move (h : Linear held) (src dst : π) (L : List α) (hne : src ≠ dst)
    (hsrc : held' src ++ L <+~ held src) (hdst : held' dst <+~ held dst ++ L)
    (hrest : ∀ P, P ≠ src → P ≠ dst → held' P <+~ held P) : Linear held' := by
  have hall : ∀ P, P ≠ dst → held' P <+~ held P := by
    intro P hP
    by_cases hPs : P = src
    · subst hPs
      exact (List.sublist_append_left _ _).subperm.trans hsrc
    · exact hrest P hPs hP
  have hLsrc : ∀ i ∈ L, i ∈ held src := fun i hi => hsrc.subset (List.mem_append_right _ hi)
  have hnd : (held' src ++ L).Nodup := nodup_of_subperm hsrc (h.nodup src)
  refine h.gain ?_ (fun i hi P hP hiP => ?_) hdst hall
  · refine List.Nodup.append (h.nodup dst) (List.nodup_append.mp hnd).2.1 fun i hi hL => hne ?_
    exact h.apart src dst i (hLsrc i hL) hi
  · -- what is passed on was in `src` alone, and `src` no longer has it
    obtain rfl := h.apart P src i ((hall P hP).subset hiP) (hLsrc i hi)
    exact (List.disjoint_of_nodup_append hnd) hiP hi

/-- Items nobody held come to `dst`. -/
theorem Linear.fresh (h : Linear held) (dst : π) (L : List α) (hL : L.Nodup)
    (hnew : ∀ i ∈ L, ∀ P, i ∉ held P) (hdst : held' dst <+~ held dst ++ L)
    (hrest : ∀ P, P ≠ dst → held' P <+~ held P) : Linear held' := by
  refine h.gain ?_ (fun i hi P hP hiP => hnew i hi P ((hrest P hP).subset hiP)) hdst hrest
  exact List.Nodup.append (h.nodup dst) hL fun i hi hi' => hnew i hi' dst hi

end Inference.Lib
