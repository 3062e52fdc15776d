import Mathlib.Data.List.Nodup
import Mathlib.Data.List.Perm.Subperm

/-!
# Inference.Lib.Dict — insertion-ordered dictionaries

A dictionary is the list of its items; assigning to a key that is present keeps its position,
assigning to a new key appends.  `Keys d` says that every key occurs once, which all operations
keep.  Nothing here names a program.
-/

namespace Inference.Lib.Dict

variable {κ ν : Type} [DecidableEq κ]

/-- The value under a key. -/
def get? (k : κ) : List (κ × ν) → Option ν
  | [] => none
  | (a, v) :: d => if a = k then some v else get? k d

/-- `d[k] = v`. -/
def set (k : κ) (v : ν) : List (κ × ν) → List (κ × ν)
  | [] => [(k, v)]
  | (a, w) :: d => if a = k then (a, v) :: d else (a, w) :: set k v d

/-- `del d[k]`. -/
def del (k : κ) : List (κ × ν) → List (κ × ν)
  | [] => []
  | (a, w) :: d => if a = k then d else (a, w) :: del k d

/-- Every key occurs once. -/
def Keys (d : List (κ × ν)) : Prop := (d.map Prod.fst).Nodup

@[simp] theorem get?_set_self (k : κ) (v : ν) (d : List (κ × ν)) : get? k (set k v d) = some v := by
  induction d with
  | nil => simp [set, get?]
  | cons p d ih =>
    obtain ⟨a, w⟩ := p
    by_cases h : a = k <;> simp [set, get?, h, ih]

theorem get?_set_of_ne {k k' : κ} (hne : k' ≠ k) (v : ν) (d : List (κ × ν)) :
    get? k' (set k v d) = get? k' d := by
  induction d with
  | nil => simp [set, get?, Ne.symm hne]
  | cons p d ih =>
    obtain ⟨a, w⟩ := p
    by_cases h : a = k
    · subst h
      simp [set, get?, Ne.symm hne]
    · simp only [set, h, if_false, get?, ih]

theorem get?_del_of_ne {k k' : κ} (hne : k' ≠ k) (d : List (κ × ν)) :
    get? k' (del k d) = get? k' d := by
  induction d with
  | nil => rfl
  | cons p d ih =>
    obtain ⟨a, w⟩ := p
    by_cases h : a = k
    · subst h
      simp [del, get?, Ne.symm hne]
    · simp only [del, h, if_false, get?, ih]

theorem mem_of_get? {k : κ} {v : ν} {d : List (κ × ν)} (h : get? k d = some v) : (k, v) ∈ d := by
  induction d with
  | nil => simp [get?] at h
  | cons p d ih =>
    obtain ⟨a, w⟩ := p
    by_cases ha : a = k
    · subst ha
      simp only [get?, if_true, Option.some.injEq] at h
      simp [h]
    · simp only [get?, ha, if_false] at h
      exact List.mem_cons_of_mem _ (ih h)

theorem get?_of_mem {k : κ} {v : ν} {d : List (κ × ν)} (hk : Keys d) (h : (k, v) ∈ d) :
    get? k d = some v := by
  induction d with
  | nil => simp at h
  | cons p d ih =>
    obtain ⟨a, w⟩ := p
    simp only [Keys, List.map_cons, List.nodup_cons] at hk
    rcases List.mem_cons.mp h with heq | hm
    · obtain ⟨rfl, rfl⟩ := Prod.mk.inj heq
      simp [get?]
    · have hne : a ≠ k := by
        rintro rfl
        exact hk.1 (List.mem_map.mpr ⟨(a, v), hm, rfl⟩)
      simpa [get?, hne] using ih hk.2 hm

theorem mem_keys_set {k a : κ} {v : ν} {d : List (κ × ν)} (h : a ∈ (set k v d).map Prod.fst) :
    a = k ∨ a ∈ d.map Prod.fst := by
  induction d with
  | nil =>
    left
    simpa [set] using h
  | cons p d ih =>
    obtain ⟨b, w⟩ := p
    by_cases hb : b = k
    · right
      simpa [set, hb] using h
    · simp only [set, hb, if_false, List.map_cons, List.mem_cons] at h ⊢
      rcases h with h | h
      · exact .inr (.inl h)
      · exact (ih h).imp id .inr

theorem Keys.set {d : List (κ × ν)} (h : Keys d) (k : κ) (v : ν) : Keys (set k v d) := by
  induction d with
  | nil => simp [Keys, Dict.set]
  | cons p d ih =>
    obtain ⟨a, w⟩ := p
    simp only [Keys, List.map_cons, List.nodup_cons] at h
    by_cases ha : a = k
    · simp only [Keys, Dict.set, ha, if_true, List.map_cons, List.nodup_cons]
      exact ha ▸ h
    · simp only [Keys, Dict.set, ha, if_false, List.map_cons, List.nodup_cons]
      refine ⟨fun hm => ?_, ih h.2⟩
      rcases mem_keys_set hm with h' | h'
      · exact ha h'
      · exact h.1 h'

theorem del_sublist (k : κ) (d : List (κ × ν)) : (del k d).Sublist d := by
  induction d with
  | nil => exact List.Sublist.slnil
  | cons p d ih =>
    obtain ⟨a, w⟩ := p
    by_cases h : a = k
    · simp only [del, h, if_true]
      exact List.sublist_cons_self _ _
    · simp only [del, h, if_false]
      exact ih.cons_cons _

theorem get?_del_self {k : κ} {d : List (κ × ν)} (h : Keys d) : get? k (del k d) = none := by
  induction d with
  | nil => rfl
  | cons p d ih =>
    obtain ⟨a, w⟩ := p
    rw [Keys, List.map_cons, List.nodup_cons] at h
    by_cases hak : a = k
    · subst hak
      simp only [del, if_true]
      cases hg : get? a d with
      | none => rfl
      | some v => exact absurd (List.mem_map_of_mem (mem_of_get? hg)) h.1
    · simp only [del, hak, if_false, get?]
      exact ih h.2

theorem Keys.del {d : List (κ × ν)} (h : Keys d) (k : κ) : Keys (del k d) :=
  List.Nodup.sublist ((del_sublist k d).map _) h

theorem length_set_le (k : κ) (v : ν) (d : List (κ × ν)) : (set k v d).length ≤ d.length + 1 := by
  induction d with
  | nil => simp [set]
  | cons p d ih =>
    obtain ⟨a, w⟩ := p
    by_cases h : a = k
    · simp [set, h]
    · simp only [set, h, if_false, List.length_cons]
      omega

/-- Assigning to a key that is present adds no item. -/
theorem length_set_of_get? {k : κ} {v w : ν} {d : List (κ × ν)} (h : get? k d = some w) :
    (set k v d).length = d.length := by
  induction d with
  | nil => simp [get?] at h
  | cons p d ih =>
    obtain ⟨a, x⟩ := p
    by_cases ha : a = k
    · simp [set, ha]
    · simp only [get?, ha, if_false] at h
      simp [set, ha, ih h]

/-- **The last assignment wins.** -/
theorem get?_foldl_set (k : κ) (es d : List (κ × ν)) :
    get? k (es.foldl (fun d e => set e.1 e.2 d) d) =
      (((es.filter fun e => e.1 = k).getLast?).map Prod.snd).or (get? k d) := by
  induction es generalizing d with
  | nil => simp
  | cons e es ih =>
    rw [List.foldl_cons, ih]
    by_cases he : e.1 = k
    · subst he
      rw [List.filter_cons_of_pos (by simp), List.getLast?_cons, get?_set_self]
      cases (es.filter fun x => x.1 = e.1).getLast? <;> rfl
    · rw [List.filter_cons_of_neg (by simpa using he), get?_set_of_ne (Ne.symm he)]

/-- A list of distinct keys that all have a value is no longer than the dictionary. -/
theorem length_le_of_get? {d : List (κ × ν)} {ks : List κ} (hnd : ks.Nodup)
    (h : ∀ k ∈ ks, ∃ v, get? k d = some v) : ks.length ≤ d.length := by
  have hsub : ks ⊆ d.map Prod.fst := by
    intro k hk
    obtain ⟨v, hv⟩ := h k hk
    exact List.mem_map.mpr ⟨(k, v), mem_of_get? hv, rfl⟩
  have := (List.subperm_of_subset hnd hsub).length_le
  simpa using this

end Inference.Lib.Dict
