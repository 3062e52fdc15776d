import Mathlib.Tactic

/-!
# Inference.Json — JSON values as the Python code handles them

`json.loads` keeps integers and floats apart and so does `Json`; a float is named by the text
`json.dumps` prints for it (`NaN`, `Infinity` and `-Infinity` for the three that JSON lacks).  An
object is its list of items in insertion order, as a Python `dict` is.  Python's `None` is `null`.
-/

namespace Inference

inductive Json where
  | null
  | bool (b : Bool)
  | int (n : ℤ)
  | float (text : String)
  | str (s : String)
  | arr (items : List Json)
  | obj (fields : List (String × Json))
deriving Repr, Inhabited

namespace Json

mutual

/-- Equality test.  The derived instance does not reach through the nested lists. -/
def decEq : (a b : Json) → Decidable (a = b)
  | null, null => isTrue rfl
  | bool x, bool y => if h : x = y then isTrue (h ▸ rfl) else isFalse fun e => h (bool.inj e)
  | int x, int y => if h : x = y then isTrue (h ▸ rfl) else isFalse fun e => h (int.inj e)
  | float x, float y => if h : x = y then isTrue (h ▸ rfl) else isFalse fun e => h (float.inj e)
  | str x, str y => if h : x = y then isTrue (h ▸ rfl) else isFalse fun e => h (str.inj e)
  | arr x, arr y => match decEqArr x y with
    | isTrue h => isTrue (h ▸ rfl)
    | isFalse h => isFalse fun e => h (arr.inj e)
  | obj x, obj y => match decEqObj x y with
    | isTrue h => isTrue (h ▸ rfl)
    | isFalse h => isFalse fun e => h (obj.inj e)
  | null, bool _ | null, int _ | null, float _ | null, str _ | null, arr _ | null, obj _
  | bool _, null | bool _, int _ | bool _, float _ | bool _, str _ | bool _, arr _ | bool _, obj _
  | int _, null | int _, bool _ | int _, float _ | int _, str _ | int _, arr _ | int _, obj _
  | float _, null | float _, bool _ | float _, int _ | float _, str _ | float _, arr _
  | float _, obj _ | str _, null | str _, bool _ | str _, int _ | str _, float _ | str _, arr _
  | str _, obj _ | arr _, null | arr _, bool _ | arr _, int _ | arr _, float _ | arr _, str _
  | arr _, obj _ | obj _, null | obj _, bool _ | obj _, int _ | obj _, float _ | obj _, str _
  | obj _, arr _ => isFalse nofun

def decEqArr : (a b : List Json) → Decidable (a = b)
  | [], [] => isTrue rfl
  | [], _ :: _ | _ :: _, [] => isFalse nofun
  | x :: xs, y :: ys => match decEq x y, decEqArr xs ys with
    | isTrue h, isTrue h' => isTrue (h ▸ h' ▸ rfl)
    | isFalse h, _ => isFalse fun e => h (List.cons.inj e).1
    | _, isFalse h => isFalse fun e => h (List.cons.inj e).2

def decEqObj : (a b : List (String × Json)) → Decidable (a = b)
  | [], [] => isTrue rfl
  | [], _ :: _ | _ :: _, [] => isFalse nofun
  | (k, x) :: xs, (l, y) :: ys => match decEq x y, decEqObj xs ys with
    | isTrue h, isTrue h' =>
      if hk : k = l then isTrue (h ▸ h' ▸ hk ▸ rfl)
      else isFalse fun e => hk (Prod.mk.inj (List.cons.inj e).1).1
    | isFalse h, _ => isFalse fun e => h (Prod.mk.inj (List.cons.inj e).1).2
    | _, isFalse h => isFalse fun e => h (List.cons.inj e).2

end

instance : DecidableEq Json := decEq

/-- `value.get(key)` on a dict; `none` when the key is missing or the value is not a dict. -/
def get? : Json → String → Option Json
  | obj fields, key => fields.lookup key
  | _, _ => none

/-- `value is None`. -/
def isNone : Json → Bool
  | null => true
  | _ => false

end Json

end Inference
