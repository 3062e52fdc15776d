import Inference.JsonText

/-!
# Inference.Uuid — `uuid.UUID` and `int(text, 16)` of the standard library

`UUID(text)` is generous: it drops `urn:`, `uuid:`, braces and hyphens wherever they stand and hands
32 characters to `int`, which in turn takes blanks, a sign, a `0x` prefix, underscores and digits of
other scripts.  `str` prints one spelling only.

* **`canonical_str`**: what `str(UUID(text))` prints is 36 characters, lowercase and hyphenated.
-/

namespace Inference.Uuid

open Inference.Json (hexValue)

/-- What the interpreter knows of characters beyond ASCII. -/
structure Unicode where
  /-- `unicodedata.decimal` -/
  decimal : Char → Option ℕ
  /-- `str.isspace` -/
  space : Char → Bool
  /-- `repr` of a string -/
  repr : String → String

/-- `text.replace(old, '')`; `skip` characters of an occurrence are still to be dropped. -/
def remove (old : List Char) : (skip : ℕ) → List Char → List Char
  | _, [] => []
  | skip + 1, _ :: l => remove old skip l
  | 0, c :: l =>
    if old.isPrefixOf (c :: l) then remove old (old.length - 1) l else c :: remove old 0 l

def isBrace (c : Char) : Bool := c == '{' || c == '}'

/-- `text.strip('{}')` -/
def strip (l : List Char) : List Char := ((l.dropWhile isBrace).reverse.dropWhile isBrace).reverse

/-- The blanks of C's `isspace`. -/
def isBlank (c : Char) : Bool := c == ' ' || (9 ≤ c.toNat && c.toNat ≤ 13)

/-- Digits and blanks of other scripts become those of ASCII; anything else ends the number. -/
def transform (u : Unicode) : List Char → List Char
  | [] => []
  | c :: l =>
    if c.toNat < 127 then c :: transform u l
    else if u.space c then ' ' :: transform u l
    else match u.decimal c with
      | some d => Nat.digitChar d :: transform u l
      | none => ['?']

def toAscii (u : Unicode) (l : List Char) : List Char :=
  if l.all fun c => decide (c.toNat < 128) then l else transform u l

/-- The digits behind the first, with single underscores between them. -/
def scanDigits (acc : ℕ) : List Char → Option (ℕ × List Char)
  | [] => some (acc, [])
  | '_' :: c :: l => (hexValue c).bind fun d => scanDigits (16 * acc + d) l
  | c :: l =>
    match hexValue c with
    | some d => scanDigits (16 * acc + d) l
    | none => some (acc, c :: l)

/-- `int(text, 16)` behind the sign; `none` when it raises `ValueError`. -/
def magnitude (l : List Char) : Option ℕ :=
  let digits := match l with
    | '0' :: 'x' :: '_' :: l | '0' :: 'X' :: '_' :: l | '0' :: 'x' :: l | '0' :: 'X' :: l => l
    | l => l
  match digits with
  | [] => none
  | c :: l => do
    let d ← hexValue c
    let (n, rest) ← scanDigits d l
    if rest.all isBlank then some n else none

/-- `int(text, 16)` -/
def int16 (u : Unicode) (l : List Char) : Option ℤ :=
  match (toAscii u l).dropWhile isBlank with
  | '-' :: l => (magnitude l).map fun n => -(n : ℤ)
  | '+' :: l => (magnitude l).map fun n => (n : ℤ)
  | l => (magnitude l).map fun n => (n : ℤ)

/-- `UUID(text).int`, or the text of the `ValueError` it raises. -/
def parse (u : Unicode) (text : String) : Except String ℕ :=
  let hex := (strip (remove "uuid:".toList 0 (remove "urn:".toList 0 text.toList))).filter (· != '-')
  if hex.length ≠ 32 then .error "badly formed hexadecimal UUID string"
  else match int16 u hex with
    | none => .error ("invalid literal for int() with base 16: " ++
        String.ofList ((u.repr (String.ofList hex)).toList.take 200))
    | some n =>
      if 0 ≤ n ∧ n < 2 ^ 128 then .ok n.toNat else .error "int is out of range (need a 128-bit value)"

/-- The `count` hexadecimal digits of `n` from the digit `high` down. -/
def digits (n high count : ℕ) : List Char :=
  (List.range count).map fun i => Nat.digitChar (n / 16 ^ (high - i) % 16)

/-- `UUID.__str__` -/
def text (n : ℕ) : String :=
  String.ofList (digits n 31 8 ++ '-' :: (digits n 23 4 ++ '-' :: (digits n 19 4 ++
    '-' :: (digits n 15 4 ++ '-' :: digits n 11 12))))

/-- `str(uuid.UUID(value))`, or the text of the `ValueError` it raises. -/
def str (u : Unicode) (value : String) : Except String String := (parse u value).map text

def isLowerHex (c : Char) : Bool := c.isDigit || ('a' ≤ c && c ≤ 'f')

/-- 36 characters: hyphens at four places, lowercase hexadecimal digits elsewhere. -/
def canonical (s : String) : Bool :=
  s.toList.length == 36 && s.toList.zipIdx.all fun p =>
    if p.2 = 8 ∨ p.2 = 13 ∨ p.2 = 18 ∨ p.2 = 23 then p.1 == '-' else isLowerHex p.1

theorem isLowerHex_digitChar (m : ℕ) : isLowerHex (Nat.digitChar (m % 16)) = true := by
  have hall : ∀ d < 16, isLowerHex (Nat.digitChar d) = true := by decide
  exact hall _ (Nat.mod_lt _ (by decide))

theorem canonical_text (n : ℕ) : canonical (text n) = true := by
  simp [canonical, text, digits, List.range_succ, isLowerHex_digitChar]

/-- **One spelling.** -/
theorem canonical_str {u : Unicode} {value s : String} (h : str u value = .ok s) :
    canonical s = true := by
  unfold str at h
  cases hp : parse u value with
  | error e => simp [hp, Except.map] at h
  | ok n =>
    simp only [hp, Except.map, Except.ok.injEq] at h
    exact h ▸ canonical_text n

theorem length_of_canonical {s : String} (h : canonical s = true) : s.toList.length = 36 := by
  simp only [canonical, Bool.and_eq_true, beq_iff_eq] at h
  exact h.1

/-- Hyphens and hexadecimal digits are all there is. -/
theorem mem_of_canonical {s : String} (h : canonical s = true) {c : Char} (hc : c ∈ s.toList) :
    c = '-' ∨ isLowerHex c = true := by
  simp only [canonical, Bool.and_eq_true, List.all_eq_true] at h
  obtain ⟨i, hi, rfl⟩ := List.mem_iff_getElem.mp hc
  have hp := h.2 (s.toList[i], i) (List.mk_mem_zipIdx_iff_getElem?.mpr (List.getElem?_eq_getElem hi))
  simp only at hp
  split at hp
  · exact .inl (by simpa using hp)
  · exact .inr hp

end Inference.Uuid
