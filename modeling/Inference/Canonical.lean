import Mathlib.Data.String.Basic
import Inference.Json

/-!
# Inference.Canonical — what survives `_canonical` and `json.loads`

`_canonical` prints a value with `sort_keys=True, allow_nan=False`.  Reading the text back gives the
same value with the keys of every object in order (`sortKeys`); a float that JSON lacks makes the
printing raise (`finite`).

* `get?_sortKeys`: a key finds what it found before.
* `sortKeys_sortKeys`: printing and reading again changes nothing more.
* `finite_sortKeys`: what was printed once can be printed again.
-/

namespace Inference.Json

/-- The order in which `sort_keys` puts two items. -/
def keyLe (a b : String × Json) : Prop := a.1 ≤ b.1

instance : DecidableRel keyLe := fun a b => inferInstanceAs (Decidable (a.1 ≤ b.1))

instance : Std.Total keyLe := ⟨fun a b => le_total a.1 b.1⟩

instance : IsTrans (String × Json) keyLe := ⟨fun _ _ _ h h' => le_trans h h'⟩

mutual

/-- `json.loads(_canonical(value))`, for a value that can be printed. -/
def sortKeys : Json → Json
  | arr items => arr (sortArr items)
  | obj fields => obj ((sortFields fields).insertionSort keyLe)
  | v => v

def sortArr : List Json → List Json
  | [] => []
  | x :: xs => sortKeys x :: sortArr xs

def sortFields : List (String × Json) → List (String × Json)
  | [] => []
  | (k, x) :: xs => (k, sortKeys x) :: sortFields xs

end

mutual

/-- `allow_nan=False`: no part of the value is `NaN` or infinite. -/
def finite : Json → Bool
  | float text => text != "NaN" && text != "Infinity" && text != "-Infinity"
  | arr items => finiteArr items
  | obj fields => finiteFields fields
  | _ => true

def finiteArr : List Json → Bool
  | [] => true
  | x :: xs => finite x && finiteArr xs

def finiteFields : List (String × Json) → Bool
  | [] => true
  | (_, x) :: xs => finite x && finiteFields xs

end

/-- `isinstance(value, dict)`. -/
def isDict : Json → Bool
  | obj _ => true
  | _ => false

/-- `bool(value)`, for what the modelled code tests that way. -/
def truthy : Json → Bool
  | null => false
  | bool b => b
  | int n => n != 0
  | float text => text != "0.0" && text != "-0.0"
  | str s => s != ""
  | arr items => !items.isEmpty
  | obj fields => !fields.isEmpty

/-! ### Reading a sorted object -/

theorem sortFields_eq_map (fields : List (String × Json)) :
    sortFields fields = fields.map fun e => (e.1, sortKeys e.2) := by
  induction fields with
  | nil => rfl
  | cons e l ih =>
    rw [sortFields, ih]
    rfl

theorem sortArr_eq_map (items : List Json) : sortArr items = items.map sortKeys := by
  induction items with
  | nil => rfl
  | cons x l ih =>
    rw [sortArr, ih]
    rfl

/-- An item put in its place shadows only what the same key found behind it. -/
theorem lookup_orderedInsert (k : String) (e : String × Json) (l : List (String × Json)) :
    (l.orderedInsert keyLe e).lookup k = (e :: l).lookup k := by
  induction l with
  | nil => rfl
  | cons b l ih =>
    rw [List.orderedInsert_cons]
    split
    · rfl
    next h =>
      have hne : e.1 ≠ b.1 := fun he => h (le_of_eq he)
      rw [List.lookup_cons, ih, List.lookup_cons, List.lookup_cons, List.lookup_cons]
      by_cases hb : k = b.1
      · have hek : (k == e.1) = false := by
          rw [beq_eq_false_iff_ne]
          exact fun he => hne (he.symm.trans hb)
        rw [hek, hb, beq_self_eq_true]
      · have hbk : (k == b.1) = false := beq_eq_false_iff_ne.mpr hb
        simp [hbk]

theorem lookup_insertionSort (k : String) (l : List (String × Json)) :
    (l.insertionSort keyLe).lookup k = l.lookup k := by
  induction l with
  | nil => rfl
  | cons e l ih =>
    rw [List.insertionSort_cons, lookup_orderedInsert, List.lookup_cons, List.lookup_cons, ih]

theorem lookup_sortFields (k : String) (l : List (String × Json)) :
    (sortFields l).lookup k = (l.lookup k).map sortKeys := by
  induction l with
  | nil => rfl
  | cons e l ih =>
    obtain ⟨key, v⟩ := e
    rw [sortFields, List.lookup_cons, List.lookup_cons, ih]
    cases k == key <;> rfl

/-- **Reading back.**  A key finds what it found before, itself read back. -/
theorem get?_sortKeys (v : Json) (k : String) : (sortKeys v).get? k = (v.get? k).map sortKeys := by
  cases v with
  | obj fields =>
    rw [sortKeys]
    exact (lookup_insertionSort k _).trans (lookup_sortFields k fields)
  | null | bool _ | int _ | float _ | str _ | arr _ => rfl

@[simp] theorem sortKeys_str (s : String) : sortKeys (str s) = str s := by simp [sortKeys]

@[simp] theorem sortKeys_bool (b : Bool) : sortKeys (bool b) = bool b := by simp [sortKeys]

theorem sortKeys_eq_str {v : Json} {s : String} : sortKeys v = str s ↔ v = str s := by
  cases v <;> simp [sortKeys]

@[simp] theorem isDict_sortKeys (v : Json) : (sortKeys v).isDict = v.isDict := by
  cases v <;> simp [sortKeys, isDict]

@[simp] theorem truthy_sortKeys (v : Json) : (sortKeys v).truthy = v.truthy := by
  cases v with
  | arr items => simp [sortKeys, truthy, sortArr_eq_map]
  | obj fields =>
    have hperm : ((sortFields fields).insertionSort keyLe).isEmpty = (sortFields fields).isEmpty :=
      (List.perm_insertionSort keyLe _).isEmpty_eq
    rw [sortKeys, truthy, truthy, hperm, sortFields_eq_map, List.isEmpty_map]
  | null | bool _ | int _ | float _ | str _ => simp [sortKeys, truthy]

/-! ### Once is enough -/

mutual

theorem sortKeys_sortKeys : (v : Json) → sortKeys (sortKeys v) = sortKeys v
  | arr items => by rw [sortKeys, sortKeys, sortArr_sortArr]
  | obj fields => by
    have hkeys : ∀ l : List (String × Json), (sortFields (l.insertionSort keyLe)) =
        (sortFields l).insertionSort keyLe := by
      intro l
      rw [sortFields_eq_map, sortFields_eq_map]
      exact List.map_insertionSort _ _ _ _ fun _ _ _ _ => Iff.rfl
    rw [sortKeys, sortKeys, hkeys, sortFields_sortFields]
    rw [List.Pairwise.insertionSort_eq (List.pairwise_insertionSort keyLe _)]
  | null | bool _ | int _ | float _ | str _ => by simp [sortKeys]

theorem sortArr_sortArr : (l : List Json) → sortArr (sortArr l) = sortArr l
  | [] => rfl
  | x :: l => by rw [sortArr, sortArr, sortKeys_sortKeys x, sortArr_sortArr l]

theorem sortFields_sortFields : (l : List (String × Json)) →
    sortFields (sortFields l) = sortFields l
  | [] => rfl
  | (k, x) :: l => by rw [sortFields, sortFields, sortKeys_sortKeys x, sortFields_sortFields l]

end

theorem finiteFields_eq_all (l : List (String × Json)) :
    finiteFields l = l.all fun e => e.2.finite := by
  induction l with
  | nil => rfl
  | cons e l ih =>
    rw [finiteFields, ih]
    rfl

mutual

/-- What was printed can be printed again. -/
theorem finite_sortKeys : (v : Json) → (sortKeys v).finite = v.finite
  | arr items => by rw [sortKeys, finite, finite, finiteArr_sortArr]
  | obj fields => by
    have hperm : ((sortFields fields).insertionSort keyLe).all (fun e => e.2.finite) =
        (sortFields fields).all (fun e => e.2.finite) :=
      (List.perm_insertionSort keyLe _).all_eq
    rw [sortKeys, finite, finite, finiteFields_eq_all, hperm, ← finiteFields_eq_all,
      finiteFields_sortFields]
  | null | bool _ | int _ | float _ | str _ => by simp [sortKeys]

theorem finiteArr_sortArr : (l : List Json) → finiteArr (sortArr l) = finiteArr l
  | [] => rfl
  | x :: l => by rw [sortArr, finiteArr, finiteArr, finite_sortKeys x, finiteArr_sortArr l]

theorem finiteFields_sortFields : (l : List (String × Json)) →
    finiteFields (sortFields l) = finiteFields l
  | [] => rfl
  | (k, x) :: l => by
    rw [sortFields, finiteFields, finiteFields, finite_sortKeys x, finiteFields_sortFields l]

end

end Inference.Json
