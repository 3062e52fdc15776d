import Inference.Canonical
import Inference.JsonText

/-!
# Inference.Encoding — the canonical bytes of a JSON value

`_canonical` and the gateway print a value with sorted keys and encode it in UTF-8.  Two values are
the same (`Same`) when they differ in the order of the items of objects only.

* `Same.sortKeys_eq`: the same values sort to one value.
* `loadsBytes_canonicalText`: the canonical bytes read back as the sorted value.
* **`canonicalText_inj`**: the canonical bytes are equal iff the values are the same.
-/

namespace Inference.Json

/-- The least congruence under which the order of the items of an object does not matter. -/
inductive Same : Json → Json → Prop where
  | refl (v : Json) : Same v v
  | symm {v w : Json} (h : Same v w) : Same w v
  | trans {u v w : Json} (h : Same u v) (h' : Same v w) : Same u w
  | item {v w : Json} (xs ys : List Json) (h : Same v w) :
      Same (arr (xs ++ v :: ys)) (arr (xs ++ w :: ys))
  | field {v w : Json} (xs : List (String × Json)) (k : String) (ys : List (String × Json))
      (h : Same v w) : Same (obj (xs ++ (k, v) :: ys)) (obj (xs ++ (k, w) :: ys))
  | reorder {fields fields' : List (String × Json)} (h : fields.Perm fields') :
      Same (obj fields) (obj fields')

mutual

/-- Every object has each key once, as a `dict` has. -/
def distinct : Json → Bool
  | arr items => distinctItems items
  | obj fields => decide (fields.map Prod.fst).Nodup && distinctFields fields
  | _ => true

def distinctItems : List Json → Bool
  | [] => true
  | x :: xs => distinct x && distinctItems xs

def distinctFields : List (String × Json) → Bool
  | [] => true
  | (_, x) :: xs => distinct x && distinctFields xs

end

theorem distinctItems_eq_all (l : List Json) : distinctItems l = l.all distinct := by
  induction l with
  | nil => rfl
  | cons x l ih => rw [distinctItems, ih, List.all_cons]

theorem distinctFields_eq_all (l : List (String × Json)) :
    distinctFields l = l.all fun e => e.2.distinct := by
  induction l with
  | nil => rfl
  | cons e l ih => rw [distinctFields, ih, List.all_cons]

theorem plainFields_eq_all (l : List (String × Json)) :
    plainFields l = l.all fun e => e.2.plain := by
  induction l with
  | nil => rfl
  | cons e l ih => rw [plainFields, ih, List.all_cons]

/-! ### The same values -/

theorem Same.distinct_eq {v w : Json} (h : Same v w) : v.distinct = w.distinct := by
  induction h with
  | refl v => rfl
  | symm _ ih => exact ih.symm
  | trans _ _ ih ih' => exact ih.trans ih'
  | item xs ys _ ih =>
    simp only [distinct, distinctItems_eq_all, List.all_append, List.all_cons, ih]
  | field xs k ys _ ih =>
    simp only [distinct, distinctFields_eq_all, List.all_append, List.all_cons, ih, List.map_append,
      List.map_cons]
  | reorder hperm =>
    rw [distinct, distinct, distinctFields_eq_all, distinctFields_eq_all, hperm.all_eq]
    have hkeys := (hperm.map Prod.fst).nodup_iff
    simp only [hkeys]

/-- With each key once, the order before sorting does not matter. -/
theorem insertionSort_perm {l l' : List (String × Json)} (hperm : l.Perm l')
    (hkeys : (l.map Prod.fst).Nodup) : l.insertionSort keyLe = l'.insertionSort keyLe := by
  have hsorted : (l.insertionSort keyLe).Perm (l'.insertionSort keyLe) :=
    (List.perm_insertionSort keyLe l).trans (hperm.trans (List.perm_insertionSort keyLe l').symm)
  refine hsorted.eq_of_pairwise ?_ (List.pairwise_insertionSort keyLe l)
    (List.pairwise_insertionSort keyLe l')
  intro a b ha hb hab hba
  have ha' : a ∈ l := (List.perm_insertionSort keyLe l).mem_iff.mp ha
  have hb' : b ∈ l := hperm.mem_iff.mpr ((List.perm_insertionSort keyLe l').mem_iff.mp hb)
  exact List.inj_on_of_nodup_map hkeys ha' hb' (le_antisymm hab hba)

theorem map_fst_sortFields (l : List (String × Json)) :
    (sortFields l).map Prod.fst = l.map Prod.fst := by
  rw [sortFields_eq_map, List.map_map]
  rfl

theorem Same.sortKeys_eq {v w : Json} (h : Same v w) :
    v.distinct = true → sortKeys v = sortKeys w := by
  induction h with
  | refl v => exact fun _ => rfl
  | symm h ih => exact fun hw => (ih (h.distinct_eq.trans hw)).symm
  | trans h h' ih ih' => exact fun hu => (ih hu).trans (ih' (h.distinct_eq.symm.trans hu))
  | item xs ys _ ih =>
    intro hd
    rw [distinct, distinctItems_eq_all, List.all_append, List.all_cons, Bool.and_eq_true,
      Bool.and_eq_true] at hd
    simp only [sortKeys, sortArr_eq_map, List.map_append, List.map_cons, ih hd.2.1]
  | field xs k ys _ ih =>
    intro hd
    rw [distinct, distinctFields_eq_all, List.all_append, List.all_cons, Bool.and_eq_true,
      Bool.and_eq_true, Bool.and_eq_true] at hd
    simp only [sortKeys, sortFields_eq_map, List.map_append, List.map_cons, ih hd.2.2.1]
  | reorder hperm =>
    intro hd
    rw [distinct, Bool.and_eq_true, decide_eq_true_eq] at hd
    rw [sortKeys, sortKeys]
    refine congrArg obj (insertionSort_perm ?_ ?_)
    · rw [sortFields_eq_map, sortFields_eq_map]
      exact hperm.map _
    · rw [map_fst_sortFields]
      exact hd.1

mutual

theorem same_sortKeys : (v : Json) → Same v (sortKeys v)
  | arr items => by
    rw [sortKeys]
    exact same_sortArr [] items
  | obj fields => by
    rw [sortKeys]
    exact (same_sortFields [] fields).trans (.reorder (List.perm_insertionSort keyLe _).symm)
  | null => by rw [sortKeys]; exacts [.refl _, nofun, nofun]
  | bool _ => by rw [sortKeys]; exacts [.refl _, nofun, nofun]
  | int _ => by rw [sortKeys]; exacts [.refl _, nofun, nofun]
  | float _ => by rw [sortKeys]; exacts [.refl _, nofun, nofun]
  | str _ => by rw [sortKeys]; exacts [.refl _, nofun, nofun]

/-- The items before are sorted already. -/
theorem same_sortArr (done : List Json) :
    (items : List Json) → Same (arr (done ++ items)) (arr (done ++ sortArr items))
  | [] => .refl _
  | x :: xs => by
    have hrest := same_sortArr (done ++ [sortKeys x]) xs
    rw [List.append_assoc, List.append_assoc] at hrest
    exact (Same.item done xs (same_sortKeys x)).trans hrest

theorem same_sortFields (done : List (String × Json)) :
    (fields : List (String × Json)) → Same (obj (done ++ fields)) (obj (done ++ sortFields fields))
  | [] => .refl _
  | (k, x) :: xs => by
    have hrest := same_sortFields (done ++ [(k, sortKeys x)]) xs
    rw [List.append_assoc, List.append_assoc] at hrest
    exact (Same.field done k xs (same_sortKeys x)).trans hrest

end

/-- **One sorted value for all the same values.** -/
theorem sortKeys_eq_iff {v w : Json} (hv : v.distinct = true) :
    sortKeys v = sortKeys w ↔ Same v w := by
  constructor
  · intro h
    exact (same_sortKeys v).trans (h ▸ (same_sortKeys w).symm)
  · intro h
    exact h.sortKeys_eq hv

/-! ### The bytes -/

mutual

theorem plain_sortKeys : (v : Json) → v.plain = true → (sortKeys v).plain = true
  | arr items, hv => by
    rw [plain] at hv
    rw [sortKeys, plain]
    exact plain_sortArr items hv
  | obj fields, hv => by
    rw [plain, Bool.and_eq_true, decide_eq_true_eq] at hv
    have hperm := List.perm_insertionSort keyLe (sortFields fields)
    have hkeys := (hperm.map Prod.fst).nodup_iff
    rw [map_fst_sortFields] at hkeys
    have hall := plain_sortFields fields hv.2
    rw [plainFields_eq_all] at hall
    rw [sortKeys, plain, Bool.and_eq_true, decide_eq_true_eq, plainFields_eq_all, hperm.all_eq]
    exact ⟨hkeys.mpr hv.1, hall⟩
  | null, hv | bool _, hv | int _, hv | float _, hv | str _, hv => by simpa [sortKeys] using hv

theorem plain_sortArr : (l : List Json) → plainItems l = true → plainItems (sortArr l) = true
  | [], _ => rfl
  | x :: l, hl => by
    rw [plainItems, Bool.and_eq_true] at hl
    rw [sortArr, plainItems, plain_sortKeys x hl.1, plain_sortArr l hl.2]
    rfl

theorem plain_sortFields : (l : List (String × Json)) → plainFields l = true →
    plainFields (sortFields l) = true
  | [], _ => rfl
  | (k, x) :: l, hl => by
    rw [plainFields, Bool.and_eq_true] at hl
    rw [sortFields, plainFields, plain_sortKeys x hl.1, plain_sortFields l hl.2]
    rfl

end

mutual

theorem distinct_of_plain : (v : Json) → v.plain = true → v.distinct = true
  | arr items, hv => by
    rw [plain] at hv
    rw [distinct]
    exact distinctItems_of_plain items hv
  | obj fields, hv => by
    rw [plain, Bool.and_eq_true] at hv
    rw [distinct, hv.1, distinctFields_of_plain fields hv.2]
    rfl
  | null, _ | bool _, _ | int _, _ | float _, _ | str _, _ => by simp [distinct]

theorem distinctItems_of_plain : (l : List Json) → plainItems l = true → distinctItems l = true
  | [], _ => rfl
  | x :: l, hl => by
    rw [plainItems, Bool.and_eq_true] at hl
    rw [distinctItems, distinct_of_plain x hl.1, distinctItems_of_plain l hl.2]
    rfl

theorem distinctFields_of_plain : (l : List (String × Json)) → plainFields l = true →
    distinctFields l = true
  | [], _ => rfl
  | (_, x) :: l, hl => by
    rw [plainFields, Bool.and_eq_true] at hl
    rw [distinctFields, distinct_of_plain x hl.1, distinctFields_of_plain l hl.2]
    rfl

end

mutual

theorem finite_of_plain : (v : Json) → v.plain = true → v.finite = true
  | arr items, hv => by
    rw [plain] at hv
    rw [finite]
    exact finiteArr_of_plain items hv
  | obj fields, hv => by
    rw [plain, Bool.and_eq_true] at hv
    rw [finite]
    exact finiteFields_of_plain fields hv.2
  | float text, hv => by cases hv
  | null, _ | bool _, _ | int _, _ | str _, _ => rfl

theorem finiteArr_of_plain : (l : List Json) → plainItems l = true → finiteArr l = true
  | [], _ => rfl
  | x :: l, hl => by
    rw [plainItems, Bool.and_eq_true] at hl
    rw [finiteArr, finite_of_plain x hl.1, finiteArr_of_plain l hl.2]
    rfl

theorem finiteFields_of_plain : (l : List (String × Json)) → plainFields l = true →
    finiteFields l = true
  | [], _ => rfl
  | (_, x) :: l, hl => by
    rw [plainFields, Bool.and_eq_true] at hl
    rw [finiteFields, finite_of_plain x hl.1, finiteFields_of_plain l hl.2]
    rfl

end

/-- `text.encode('utf-8')` -/
def encode (text : String) : List UInt8 := text.toByteArray.data.toList

/-- `json.loads(data)`, for data in UTF-8. -/
def loadsBytes (repr : String → String) (data : List UInt8) : Option Json :=
  (String.fromUTF8? ⟨data.toArray⟩).bind (loads repr)

/-- `json.dumps(value).encode('utf-8')` -/
def dumpsBytes (v : Json) : List UInt8 := encode (String.ofList (print defaultStyle v))

/-- `json.dumps(value, sort_keys=True, separators=(',', ':'), ensure_ascii=False).encode('utf-8')` -/
def canonicalText (v : Json) : List UInt8 :=
  encode (String.ofList (print compactStyle (sortKeys v)))

theorem fromUTF8?_encode (text : String) :
    String.fromUTF8? ⟨(encode text).toArray⟩ = some text := by
  have hbytes : (⟨(encode text).toArray⟩ : ByteArray) = text.toByteArray := by
    rw [encode, Array.toArray_toList]
  rw [String.fromUTF8?, hbytes, dif_pos text.isValidUTF8]
  rfl

theorem loadsBytes_dumpsBytes (repr : String → String) {v : Json} (hv : v.plain = true) :
    loadsBytes repr (dumpsBytes v) = some v := by
  rw [loadsBytes, dumpsBytes, fromUTF8?_encode]
  exact loads_print defaultStyle repr hv

theorem dumpsBytes_inj {v w : Json} (hv : v.plain = true) (hw : w.plain = true) :
    dumpsBytes v = dumpsBytes w ↔ v = w := by
  refine ⟨fun h => ?_, fun h => h ▸ rfl⟩
  have hloads := loadsBytes_dumpsBytes id hv
  rw [h, loadsBytes_dumpsBytes id hw] at hloads
  exact (Option.some.inj hloads).symm

/-- **The canonical bytes read back** as the value with its keys sorted. -/
theorem loadsBytes_canonicalText (repr : String → String) {v : Json} (hv : v.plain = true) :
    loadsBytes repr (canonicalText v) = some (sortKeys v) := by
  rw [loadsBytes, canonicalText, fromUTF8?_encode]
  exact loads_print compactStyle repr (plain_sortKeys v hv)

/-- **The canonical bytes separate values.** -/
theorem canonicalText_inj {v w : Json} (hv : v.plain = true) (hw : w.plain = true) :
    canonicalText v = canonicalText w ↔ Same v w := by
  rw [← sortKeys_eq_iff (distinct_of_plain v hv)]
  constructor
  · intro h
    have hloads := loadsBytes_canonicalText id hv
    rw [h, loadsBytes_canonicalText id hw] at hloads
    exact (Option.some.inj hloads).symm
  · intro h
    rw [canonicalText, canonicalText, h]

end Inference.Json
