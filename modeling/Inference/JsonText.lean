import Mathlib.Data.Nat.Digits.Lemmas
import Inference.Json
import Inference.Lib.Dict

/-!
# Inference.JsonText — `json.dumps` and `json.loads`

The text that `json.dumps` prints and the scanner that `json.loads` runs over it, as in Python's
standard library.  A text is its list of characters.  Printing is parametrised by `ensure_ascii` and
by the blank that follows `,` and `:`.  Scanning is fuelled by the length of the text; a lone
surrogate, which only an escape can spell, has no character here and is refused.

* `scanString_quote`: the string scanner undoes every escape, surrogate pairs included.
* `scanNumber_printInt`: the number scanner takes the whole of an integer.
* **`loads_print_proper`**: what was printed is read back, whatever the style.
-/

namespace Inference.Json

/-! ### Printing -/

def isSpace (c : Char) : Bool := c == ' ' || c == '\t' || c == '\n' || c == '\r'

structure Style where
  /-- `ensure_ascii` -/
  ascii : Bool
  /-- what `separators` puts after `,` and `:` -/
  gap : List Char
  blank : ∀ c ∈ gap, isSpace c = true

/-- The style of plain `json.dumps(value)`. -/
def defaultStyle : Style where
  ascii := true
  gap := [' ']
  blank := by simp [isSpace]

/-- `separators=(',', ':'), ensure_ascii=False`. -/
def compactStyle : Style where
  ascii := false
  gap := []
  blank := nofun

/-- `'\\u{0:04x}'.format(n)` -/
def unicodeEscape (n : ℕ) : List Char :=
  '\\' :: 'u' :: [n / 4096 % 16, n / 256 % 16, n / 16 % 16, n % 16].map Nat.digitChar

/-- A character inside a string. -/
def escape (ascii : Bool) (c : Char) : List Char :=
  if c = '"' then ['\\', '"']
  else if c = '\\' then ['\\', '\\']
  else if c = '\n' then ['\\', 'n']
  else if c = '\r' then ['\\', 'r']
  else if c = '\t' then ['\\', 't']
  else if c = '\x0c' then ['\\', 'f']
  else if c = '\x08' then ['\\', 'b']
  else if c.toNat < 0x20 then unicodeEscape c.toNat
  else if ascii && decide (0x7e < c.toNat) then
    if c.toNat < 0x10000 then unicodeEscape c.toNat
    else unicodeEscape (0xd800 + (c.toNat - 0x10000) / 1024) ++
      unicodeEscape (0xdc00 + (c.toNat - 0x10000) % 1024)
  else [c]

def escapes (ascii : Bool) (s : List Char) : List Char := s.flatMap (escape ascii)

def quote (ascii : Bool) (s : String) : List Char := '"' :: (escapes ascii s.toList ++ ['"'])

def decimal (n : ℕ) : List Char :=
  if n = 0 then ['0'] else (Nat.digits 10 n).reverse.map Nat.digitChar

def printInt : ℤ → List Char
  | .ofNat n => decimal n
  | .negSucc n => '-' :: decimal (n + 1)

mutual

/-- `json.dumps(value, …)` -/
def print (st : Style) : Json → List Char
  | null => ['n', 'u', 'l', 'l']
  | bool true => ['t', 'r', 'u', 'e']
  | bool false => ['f', 'a', 'l', 's', 'e']
  | int n => printInt n
  | float text => text.toList
  | str s => quote st.ascii s
  | arr [] => ['[', ']']
  | arr (x :: xs) => '[' :: (print st x ++ printItems st xs)
  | obj [] => ['{', '}']
  | obj ((k, x) :: xs) =>
    '{' :: (quote st.ascii k ++ ':' :: (st.gap ++ (print st x ++ printFields st xs)))

/-- The other items of an array, and its end. -/
def printItems (st : Style) : List Json → List Char
  | [] => [']']
  | x :: xs => ',' :: (st.gap ++ (print st x ++ printItems st xs))

/-- The other items of an object, and its end. -/
def printFields (st : Style) : List (String × Json) → List Char
  | [] => ['}']
  | (k, x) :: xs => ',' :: (st.gap ++ (quote st.ascii k ++
      ':' :: (st.gap ++ (print st x ++ printFields st xs))))

end

/-! ### Scanning -/

def skip (l : List Char) : List Char := l.dropWhile isSpace

/-- One digit of `int(text, 16)`. -/
def hexValue (c : Char) : Option ℕ :=
  if 48 ≤ c.toNat ∧ c.toNat ≤ 57 then some (c.toNat - 48)
  else if 97 ≤ c.toNat ∧ c.toNat ≤ 102 then some (c.toNat - 87)
  else if 65 ≤ c.toNat ∧ c.toNat ≤ 70 then some (c.toNat - 55)
  else none

/-- `_decode_uXXXX` -/
def scanHex : List Char → Option (ℕ × List Char)
  | a :: b :: c :: d :: l => do
    let a ← hexValue a
    let b ← hexValue b
    let c ← hexValue c
    let d ← hexValue d
    return (a * 4096 + b * 256 + c * 16 + d, l)
  | _ => none

/-- A `\u` escape, with the second half of a surrogate pair. -/
def scanUnicode (l : List Char) : Option (Char × List Char) := do
  let (high, l) ← scanHex l
  if 0xd800 ≤ high ∧ high ≤ 0xdbff then
    match l with
    | '\\' :: 'u' :: l => do
      let (low, l) ← scanHex l
      if 0xdc00 ≤ low ∧ low ≤ 0xdfff then
        return (Char.ofNat (0x10000 + (high - 0xd800) * 1024 + (low - 0xdc00)), l)
      else none
    | _ => none
  else if 0xdc00 ≤ high ∧ high ≤ 0xdfff then none
  else return (Char.ofNat high, l)

/-- What follows a backslash. -/
def scanEscape : List Char → Option (Char × List Char)
  | 'u' :: l => scanUnicode l
  | '"' :: l => some ('"', l)
  | '\\' :: l => some ('\\', l)
  | '/' :: l => some ('/', l)
  | 'b' :: l => some ('\x08', l)
  | 'f' :: l => some ('\x0c', l)
  | 'n' :: l => some ('\n', l)
  | 'r' :: l => some ('\r', l)
  | 't' :: l => some ('\t', l)
  | _ => none

/-- `scanstring`, after the opening quote. -/
def scanString : ℕ → List Char → Option (List Char × List Char)
  | 0, _ => none
  | _ + 1, [] => none
  | n + 1, c :: l =>
    if c = '"' then some ([], l)
    else if c = '\\' then do
      let (c, l) ← scanEscape l
      let (s, l) ← scanString n l
      return (c :: s, l)
    else if c.toNat < 0x20 then none
    else do
      let (s, l) ← scanString n l
      return (c :: s, l)

def digits (l : List Char) : List Char := l.takeWhile Char.isDigit

/-- `int(text)` -/
def natValue (l : List Char) : ℕ := l.foldl (fun n c => 10 * n + (c.toNat - 48)) 0

/-- `-?` -/
def scanSign : List Char → List Char × List Char
  | '-' :: l => (['-'], l)
  | l => ([], l)

/-- `0|[1-9]\d*` -/
def scanInt : List Char → List Char × List Char
  | '0' :: l => (['0'], l)
  | l => (digits l, l.dropWhile Char.isDigit)

/-- `(\.\d+)?` -/
def scanFraction : List Char → List Char × List Char
  | '.' :: l => if digits l = [] then ([], '.' :: l) else ('.' :: digits l, l.dropWhile Char.isDigit)
  | l => ([], l)

/-- `([eE][-+]?\d+)?` -/
def scanExponent : List Char → List Char × List Char
  | e :: l =>
    if e = 'e' ∨ e = 'E' then
      let sign : List Char × List Char := match l with
        | '+' :: l => (['+'], l)
        | '-' :: l => (['-'], l)
        | l => ([], l)
      if digits sign.2 = [] then ([], e :: l)
      else (e :: (sign.1 ++ digits sign.2), sign.2.dropWhile Char.isDigit)
    else ([], e :: l)
  | [] => ([], [])

/-- A number; `repr` is `repr(float(text))`. -/
def scanNumber (repr : String → String) (l : List Char) : Option (Json × List Char) :=
  let sign := scanSign l
  let whole := scanInt sign.2
  let fraction := scanFraction whole.2
  let exponent := scanExponent fraction.2
  if whole.1 = [] then none
  else if fraction.1 = [] ∧ exponent.1 = [] then
    some (int (if sign.1 = [] then natValue whole.1 else -natValue whole.1), exponent.2)
  else
    some (float (repr (String.ofList (sign.1 ++ whole.1 ++ fraction.1 ++ exponent.1))), exponent.2)

/-- One of the names that stand for a value. -/
def scanName (l : List Char) : Option (Json × List Char) :=
  [(['n', 'u', 'l', 'l'], null), (['t', 'r', 'u', 'e'], bool true),
    (['f', 'a', 'l', 's', 'e'], bool false), (['N', 'a', 'N'], float "NaN"),
    (['I', 'n', 'f', 'i', 'n', 'i', 't', 'y'], float "Infinity"),
    (['-', 'I', 'n', 'f', 'i', 'n', 'i', 't', 'y'], float "-Infinity")].findSome? fun name =>
      if name.1.isPrefixOf l then some (name.2, l.drop name.1.length) else none

/-- `dict(pairs)` -/
def ofPairs (pairs : List (String × Json)) : List (String × Json) :=
  pairs.foldl (fun d e => Lib.Dict.set e.1 e.2 d) []

mutual

/-- `scan_once` -/
def scanValue (repr : String → String) : ℕ → List Char → Option (Json × List Char)
  | 0, _ => none
  | _ + 1, [] => none
  | n + 1, c :: l =>
    if c = '"' then do
      let (s, l) ← scanString l.length l
      return (str (String.ofList s), l)
    else if c = '[' then
      match skip l with
      | ']' :: l => some (arr [], l)
      | l => do
        let (items, l) ← scanItems repr n l
        return (arr items, l)
    else if c = '{' then
      match skip l with
      | '}' :: l => some (obj [], l)
      | l => do
        let (pairs, l) ← scanPairs repr n l
        return (obj (ofPairs pairs), l)
    else match scanName (c :: l) with
      | some r => some r
      | none => scanNumber repr (c :: l)

/-- The items of an array that is not empty, and its end. -/
def scanItems (repr : String → String) : ℕ → List Char → Option (List Json × List Char)
  | 0, _ => none
  | n + 1, l => do
    let (x, l) ← scanValue repr n l
    match skip l with
    | ']' :: l => return ([x], l)
    | ',' :: l => do
      let (xs, l) ← scanItems repr n (skip l)
      return (x :: xs, l)
    | _ => none

/-- The items of an object that is not empty, and its end. -/
def scanPairs (repr : String → String) : ℕ → List Char → Option (List (String × Json) × List Char)
  | 0, _ => none
  | n + 1, l =>
    match l with
    | '"' :: l => do
      let (k, l) ← scanString l.length l
      match skip l with
      | ':' :: l => do
        let (x, l) ← scanValue repr n (skip l)
        match skip l with
        | '}' :: l => return ([(String.ofList k, x)], l)
        | ',' :: l => do
          let (xs, l) ← scanPairs repr n (skip l)
          return ((String.ofList k, x) :: xs, l)
        | _ => none
      | _ => none
    | _ => none

end

/-- `json.loads(text)`; `none` when it raises. -/
def loads (repr : String → String) (text : String) : Option Json := do
  let (v, rest) ← scanValue repr text.toList.length (skip text.toList)
  if skip rest = [] then some v else none

/-! ### Strings -/

theorem hexValue_digitChar : ∀ d < 16, hexValue (Nat.digitChar d) = some d := by decide

theorem scanHex_digits {n : ℕ} (hn : n < 0x10000) (l : List Char) :
    scanHex ([n / 4096 % 16, n / 256 % 16, n / 16 % 16, n % 16].map Nat.digitChar ++ l) =
      some (n, l) := by
  have hdigit : ∀ m, hexValue (Nat.digitChar (m % 16)) = some (m % 16) :=
    fun m => hexValue_digitChar _ (Nat.mod_lt _ (by decide))
  have hsum : n / 4096 % 16 * 4096 + n / 256 % 16 * 256 + n / 16 % 16 * 16 + n % 16 = n := by omega
  simp only [List.map_cons, List.map_nil, List.cons_append, List.nil_append, scanHex, hdigit]
  rw [← hsum]
  simp only [Option.bind_eq_bind, Option.bind_some, hsum]
  rfl

theorem scanUnicode_basic {c : Char} (hc : c.toNat < 0x10000) (l : List Char) :
    scanUnicode ((unicodeEscape c.toNat).drop 2 ++ l) = some (c, l) := by
  have hvalid : c.toNat < 0xd800 ∨ 0xdfff < c.toNat ∧ c.toNat < 0x110000 := c.valid
  have hhigh : ¬ (0xd800 ≤ c.toNat ∧ c.toNat ≤ 0xdbff) := by omega
  have hlow : ¬ (0xdc00 ≤ c.toNat ∧ c.toNat ≤ 0xdfff) := by omega
  rw [scanUnicode, unicodeEscape, List.drop_succ_cons, List.drop_succ_cons, List.drop_zero,
    scanHex_digits hc]
  simp only [Option.bind_eq_bind, Option.bind_some, if_neg hhigh, if_neg hlow, Char.ofNat_toNat]
  rfl

theorem scanUnicode_surrogates {high low : ℕ} (hhigh : 0xd800 ≤ high ∧ high ≤ 0xdbff)
    (hlow : 0xdc00 ≤ low ∧ low ≤ 0xdfff) (l : List Char) :
    scanUnicode ((unicodeEscape high).drop 2 ++ (unicodeEscape low ++ l)) =
      some (Char.ofNat (0x10000 + (high - 0xd800) * 1024 + (low - 0xdc00)), l) := by
  rw [scanUnicode, unicodeEscape, List.drop_succ_cons, List.drop_succ_cons, List.drop_zero,
    scanHex_digits (by omega)]
  simp only [Option.bind_eq_bind, Option.bind_some, if_pos hhigh]
  rw [unicodeEscape, List.cons_append, List.cons_append]
  simp only
  rw [scanHex_digits (by omega)]
  simp only [Option.bind_some, if_pos hlow]
  rfl

theorem scanUnicode_pair {c : Char} (hc : 0x10000 ≤ c.toNat) (l : List Char) :
    scanUnicode ((unicodeEscape (0xd800 + (c.toNat - 0x10000) / 1024)).drop 2 ++
      (unicodeEscape (0xdc00 + (c.toNat - 0x10000) % 1024) ++ l)) = some (c, l) := by
  have hvalid : c.toNat < 0xd800 ∨ 0xdfff < c.toNat ∧ c.toNat < 0x110000 := c.valid
  have hsum : 0x10000 + (0xd800 + (c.toNat - 0x10000) / 1024 - 0xd800) * 1024 +
      (0xdc00 + (c.toNat - 0x10000) % 1024 - 0xdc00) = c.toNat := by omega
  rw [scanUnicode_surrogates (by omega) (by omega), hsum, Char.ofNat_toNat]

/-- A character is written with a backslash, as one or two `\u` escapes, or as it stands. -/
theorem escape_cases (ascii : Bool) (c : Char) :
    (∃ e, escape ascii c = ['\\', e] ∧ ∀ l, scanEscape (e :: l) = some (c, l)) ∨
    (escape ascii c = unicodeEscape c.toNat ∧ c.toNat < 0x10000) ∨
    (escape ascii c = unicodeEscape (0xd800 + (c.toNat - 0x10000) / 1024) ++
      unicodeEscape (0xdc00 + (c.toNat - 0x10000) % 1024) ∧ 0x10000 ≤ c.toNat) ∨
    (escape ascii c = [c] ∧ c ≠ '"' ∧ c ≠ '\\' ∧ ¬ c.toNat < 0x20) := by
  unfold escape
  by_cases hquote : c = '"'
  · exact .inl ⟨'"', if_pos hquote, fun l => by rw [hquote]; rfl⟩
  rw [if_neg hquote]
  by_cases hback : c = '\\'
  · exact .inl ⟨'\\', if_pos hback, fun l => by rw [hback]; rfl⟩
  rw [if_neg hback]
  by_cases hnewline : c = '\n'
  · exact .inl ⟨'n', if_pos hnewline, fun l => by rw [hnewline]; rfl⟩
  rw [if_neg hnewline]
  by_cases hreturn : c = '\r'
  · exact .inl ⟨'r', if_pos hreturn, fun l => by rw [hreturn]; rfl⟩
  rw [if_neg hreturn]
  by_cases htab : c = '\t'
  · exact .inl ⟨'t', if_pos htab, fun l => by rw [htab]; rfl⟩
  rw [if_neg htab]
  by_cases hfeed : c = '\x0c'
  · exact .inl ⟨'f', if_pos hfeed, fun l => by rw [hfeed]; rfl⟩
  rw [if_neg hfeed]
  by_cases hbell : c = '\x08'
  · exact .inl ⟨'b', if_pos hbell, fun l => by rw [hbell]; rfl⟩
  rw [if_neg hbell]
  by_cases hcontrol : c.toNat < 0x20
  · exact .inr (.inl ⟨if_pos hcontrol, by omega⟩)
  rw [if_neg hcontrol]
  by_cases hascii : (ascii && decide (0x7e < c.toNat)) = true
  · rw [if_pos hascii]
    by_cases hbasic : c.toNat < 0x10000
    · exact .inr (.inl ⟨if_pos hbasic, hbasic⟩)
    · exact .inr (.inr (.inl ⟨if_neg hbasic, by omega⟩))
  · exact .inr (.inr (.inr ⟨if_neg hascii, hquote, hback, hcontrol⟩))

/-- The scanner takes an escaped character as that character. -/
theorem scanString_escape (ascii : Bool) (c : Char) (n : ℕ) (l : List Char) :
    scanString (n + 1) (escape ascii c ++ l) =
      (scanString n l).bind fun p => some (c :: p.1, p.2) := by
  have hescape : ∀ {e : List Char}, scanEscape (e ++ l) = some (c, l) →
      scanString (n + 1) ('\\' :: (e ++ l)) = (scanString n l).bind fun p => some (c :: p.1, p.2) := by
    intro e he
    rw [scanString, if_neg (by decide), if_pos rfl, he]
    rfl
  have hunicode : ∀ {e : List Char}, scanUnicode (e ++ l) = some (c, l) →
      scanString (n + 1) ('\\' :: 'u' :: (e ++ l)) =
        (scanString n l).bind fun p => some (c :: p.1, p.2) := fun he => hescape (e := 'u' :: _) he
  rcases escape_cases ascii c with ⟨e, hc, he⟩ | ⟨hc, hbasic⟩ | ⟨hc, hpair⟩ |
    ⟨hc, hquote, hback, hcontrol⟩
  · rw [hc]
    exact hescape (e := [e]) (he l)
  · rw [hc]
    exact hunicode (scanUnicode_basic hbasic l)
  · rw [hc]
    have htwo := scanUnicode_pair (c := c) hpair l
    rw [← List.append_assoc] at htwo
    exact hunicode htwo
  · rw [hc, List.cons_append, List.nil_append, scanString, if_neg hquote, if_neg hback,
      if_neg hcontrol]
    rfl

/-- **Strings come back.** -/
theorem scanString_quote (ascii : Bool) (s : List Char) {n : ℕ} (hn : s.length < n)
    (l : List Char) : scanString n (escapes ascii s ++ '"' :: l) = some (s, l) := by
  induction s generalizing n with
  | nil =>
    obtain ⟨m, rfl⟩ := Nat.exists_eq_add_of_lt hn
    rfl
  | cons c s ih =>
    obtain ⟨m, rfl⟩ : ∃ m, n = m + 1 := ⟨n - 1, by simp at hn; omega⟩
    rw [escapes, List.flatMap_cons, List.append_assoc, scanString_escape, ← escapes,
      ih (by simpa using hn)]
    rfl

/-! ### Numbers -/

/-- What may follow a value: the end of the text, or of an item. -/
def Ends (l : List Char) : Prop := ∀ c ∈ l.head?, c = ',' ∨ c = ']' ∨ c = '}'

theorem ends_nil : Ends [] := nofun

theorem Ends.notDigit {l : List Char} (hl : Ends l) : ∀ c ∈ l.head?, c.isDigit = false := by
  intro c hc
  rcases hl c hc with rfl | rfl | rfl <;> rfl

theorem digitChar_isDigit : ∀ d < 10, (Nat.digitChar d).isDigit = true := by decide

theorem toNat_digitChar : ∀ d < 10, (Nat.digitChar d).toNat - 48 = d := by decide

theorem decimal_isDigit (n : ℕ) : ∀ c ∈ decimal n, c.isDigit = true := by
  intro c hc
  unfold decimal at hc
  split at hc
  · obtain rfl := List.mem_singleton.mp hc
    rfl
  · obtain ⟨d, hd, rfl⟩ := List.mem_map.mp hc
    exact digitChar_isDigit d (Nat.digits_lt_base (by decide) (List.mem_reverse.mp hd))

theorem natValue_decimal (n : ℕ) : natValue (decimal n) = n := by
  unfold decimal
  split
  · next h => exact h.symm
  · have hvalue : ∀ (ds : List ℕ), (∀ d ∈ ds, d < 10) →
        natValue (ds.reverse.map Nat.digitChar) = Nat.ofDigits 10 ds := by
      intro ds hds
      induction ds with
      | nil => rfl
      | cons d ds ih =>
        rw [List.reverse_cons, List.map_append, List.map_singleton, natValue, List.foldl_append,
          List.foldl_cons, List.foldl_nil, ← natValue, ih fun x hx => hds x (List.mem_cons_of_mem _ hx),
          toNat_digitChar d (hds d List.mem_cons_self), Nat.ofDigits_cons]
        simp [Nat.add_comm]
    rw [hvalue _ fun d hd => Nat.digits_lt_base (by decide) hd, Nat.ofDigits_digits]

/-- A leading zero is the whole number. -/
theorem decimal_cons (n : ℕ) : ∃ c l, decimal n = c :: l ∧ (c = '0' → l = []) := by
  unfold decimal
  split
  · exact ⟨'0', [], rfl, fun _ => rfl⟩
  · next hn =>
    have hne : Nat.digits 10 n ≠ [] := Nat.digits_ne_nil_iff_ne_zero.mpr hn
    obtain ⟨ds, d, hds⟩ := List.eq_nil_or_concat (Nat.digits 10 n) |>.resolve_left hne
    have hlast : d ≠ 0 := by
      have hl := Nat.getLast_digit_ne_zero 10 hn
      simpa [hds] using hl
    have hlt : d < 10 := Nat.digits_lt_base (m := n) (by decide) (by simp [hds])
    refine ⟨Nat.digitChar d, ds.reverse.map Nat.digitChar, by simp [hds], fun hzero => ?_⟩
    have hnot : ∀ d < 10, d ≠ 0 → Nat.digitChar d ≠ '0' := by decide
    exact absurd hzero (hnot d hlt hlast)

theorem takeWhile_append_stop {p : Char → Bool} {ds l : List Char} (hds : ∀ c ∈ ds, p c = true)
    (hl : ∀ c ∈ l.head?, p c = false) :
    (ds ++ l).takeWhile p = ds ∧ (ds ++ l).dropWhile p = l := by
  have hstop : l.takeWhile p = [] ∧ l.dropWhile p = l := by
    cases l with
    | nil => exact ⟨rfl, rfl⟩
    | cons c l => simp [hl c rfl]
  constructor
  · rw [List.takeWhile_append_of_pos hds, hstop.1, List.append_nil]
  · rw [List.dropWhile_append_of_pos hds, hstop.2]

theorem scanInt_decimal (n : ℕ) {l : List Char} (hl : Ends l) :
    scanInt (decimal n ++ l) = (decimal n, l) := by
  obtain ⟨c, t, hdec, hzero⟩ := decimal_cons n
  obtain ⟨htake, hdrop⟩ := takeWhile_append_stop (decimal_isDigit n) hl.notDigit
  by_cases hc : c = '0'
  · rw [hdec, hzero hc, hc]
    rfl
  · have hscan : ∀ r : List Char, scanInt (c :: r) = (digits (c :: r), (c :: r).dropWhile Char.isDigit) := by
      intro r
      unfold scanInt
      split
      · next h => exact absurd (List.cons.inj h).1 hc
      · rfl
    rw [hdec, List.cons_append] at htake hdrop ⊢
    rw [hscan, digits, htake, hdrop]

theorem scanFraction_ends {l : List Char} (hl : Ends l) : scanFraction l = ([], l) := by
  unfold scanFraction
  split
  · next t =>
    rcases hl '.' rfl with h | h | h <;> exact absurd h (by decide)
  · rfl

theorem scanExponent_ends {l : List Char} (hl : Ends l) : scanExponent l = ([], l) := by
  cases l with
  | nil => rfl
  | cons c l =>
    have hc : ¬ (c = 'e' ∨ c = 'E') := by
      rcases hl c rfl with rfl | rfl | rfl <;> decide
    simp [scanExponent, hc]

theorem scanNumber_printInt (repr : String → String) (n : ℤ) {l : List Char} (hl : Ends l) :
    scanNumber repr (printInt n ++ l) = some (int n, l) := by
  have hne : ∀ m, decimal m ≠ [] := by
    intro m
    obtain ⟨c, t, hdec, -⟩ := decimal_cons m
    rw [hdec]
    nofun
  cases n with
  | ofNat m =>
    have hsign : scanSign (decimal m ++ l) = ([], decimal m ++ l) := by
      obtain ⟨c, t, hdec, -⟩ := decimal_cons m
      have hc : c ≠ '-' := by
        rintro rfl
        have := decimal_isDigit m '-' (by simp [hdec])
        cases this
      rw [hdec, List.cons_append]
      unfold scanSign
      split
      · next h => exact absurd (List.cons.inj h).1 hc
      · rfl
    simp only [scanNumber, printInt, hsign, scanInt_decimal m hl, scanFraction_ends hl,
      scanExponent_ends hl, natValue_decimal, if_neg (hne m)]
    rfl
  | negSucc m =>
    simp only [scanNumber, printInt, List.cons_append, scanSign, scanInt_decimal (m + 1) hl,
      scanFraction_ends hl, scanExponent_ends hl, natValue_decimal, if_neg (hne (m + 1))]
    rfl

theorem digits_append (l : List Char) {r : List Char} (hr : Ends r) :
    digits (l ++ r) = digits l ∧
      (l ++ r).dropWhile Char.isDigit = l.dropWhile Char.isDigit ++ r := by
  induction l with
  | nil => exact takeWhile_append_stop (List.forall_mem_nil _) hr.notDigit
  | cons c l ih =>
    rw [digits, digits, List.cons_append, List.takeWhile_cons, List.takeWhile_cons,
      List.dropWhile_cons, List.dropWhile_cons]
    cases c.isDigit with
    | true => exact ⟨congrArg (c :: ·) ih.1, ih.2⟩
    | false => exact ⟨rfl, rfl⟩

theorem scanSign_append (l : List Char) {r : List Char} (hr : Ends r) :
    scanSign (l ++ r) = ((scanSign l).1, (scanSign l).2 ++ r) := by
  have hother : ∀ t : List Char, (∀ c ∈ t.head?, c ≠ '-') → scanSign t = ([], t) := by
    intro t ht
    unfold scanSign
    split
    · next t => exact absurd rfl (ht '-' rfl)
    · rfl
  cases l with
  | nil =>
    refine hother r fun c hc => ?_
    rcases hr c hc with rfl | rfl | rfl <;> decide
  | cons c l =>
    by_cases hc : c = '-'
    · subst hc
      rfl
    · have hne : ∀ (t : List Char), ∀ d ∈ (c :: t).head?, d ≠ '-' := by
        rintro t d ⟨⟩
        exact hc
      rw [List.cons_append, hother _ (hne _), hother _ (hne _)]
      rfl

theorem scanInt_append (l : List Char) {r : List Char} (hr : Ends r) :
    scanInt (l ++ r) = ((scanInt l).1, (scanInt l).2 ++ r) := by
  have hother : ∀ t : List Char, (∀ c ∈ t.head?, c ≠ '0') →
      scanInt t = (digits t, t.dropWhile Char.isDigit) := by
    intro t ht
    unfold scanInt
    split
    · next t => exact absurd rfl (ht '0' rfl)
    · rfl
  by_cases hzero : ∃ t, l = '0' :: t
  · obtain ⟨t, rfl⟩ := hzero
    rfl
  · have hl : ∀ c ∈ l.head?, c ≠ '0' := by
      rintro c hc rfl
      cases l with
      | nil => cases hc
      | cons d t => exact hzero ⟨t, by rw [Option.some.inj hc]⟩
    have hlr : ∀ c ∈ (l ++ r).head?, c ≠ '0' := by
      intro c hc
      cases l with
      | nil => rcases hr c hc with rfl | rfl | rfl <;> decide
      | cons d t => exact hl c hc
    rw [hother _ hl, hother _ hlr, (digits_append l hr).1, (digits_append l hr).2]

theorem scanFraction_append (l : List Char) {r : List Char} (hr : Ends r) :
    scanFraction (l ++ r) = ((scanFraction l).1, (scanFraction l).2 ++ r) := by
  cases l with
  | nil => exact scanFraction_ends hr
  | cons c l =>
    by_cases hc : c = '.'
    · subst hc
      obtain ⟨hdigits, hdrop⟩ := digits_append l hr
      rw [List.cons_append, scanFraction, scanFraction, hdigits, hdrop]
      split <;> rfl
    · have hother : ∀ t : List Char, scanFraction (c :: t) = ([], c :: t) := by
        intro t
        unfold scanFraction
        split
        · next h => exact absurd (List.cons.inj h).1 hc
        · rfl
      rw [List.cons_append, hother, hother]
      rfl

/-- `[-+]?` -/
def exponentSign : List Char → List Char × List Char
  | '+' :: l => (['+'], l)
  | '-' :: l => (['-'], l)
  | l => ([], l)

theorem exponentSign_append (l : List Char) {r : List Char} (hr : Ends r) :
    exponentSign (l ++ r) = ((exponentSign l).1, (exponentSign l).2 ++ r) := by
  have hother : ∀ t : List Char, (∀ c ∈ t.head?, c ≠ '+' ∧ c ≠ '-') → exponentSign t = ([], t) := by
    intro t ht
    unfold exponentSign
    split
    · next t => exact absurd rfl (ht '+' rfl).1
    · next t => exact absurd rfl (ht '-' rfl).2
    · rfl
  cases l with
  | nil =>
    refine hother r fun c hc => ?_
    rcases hr c hc with rfl | rfl | rfl <;> decide
  | cons c l =>
    by_cases hsign : c = '+' ∨ c = '-'
    · rcases hsign with rfl | rfl <;> rfl
    · have hne : ∀ (t : List Char), ∀ d ∈ (c :: t).head?, d ≠ '+' ∧ d ≠ '-' := by
        rintro t d ⟨⟩
        exact not_or.mp hsign
      rw [List.cons_append, hother _ (hne _), hother _ (hne _)]
      rfl

theorem scanExponent_cons {e : Char} (he : e = 'e' ∨ e = 'E') (l : List Char) :
    scanExponent (e :: l) =
      if digits (exponentSign l).2 = [] then ([], e :: l)
      else (e :: ((exponentSign l).1 ++ digits (exponentSign l).2),
        (exponentSign l).2.dropWhile Char.isDigit) := by
  unfold scanExponent
  exact if_pos he

theorem scanExponent_append (l : List Char) {r : List Char} (hr : Ends r) :
    scanExponent (l ++ r) = ((scanExponent l).1, (scanExponent l).2 ++ r) := by
  cases l with
  | nil => exact scanExponent_ends hr
  | cons e l =>
    by_cases he : e = 'e' ∨ e = 'E'
    · obtain ⟨hdigits, hdrop⟩ := digits_append (exponentSign l).2 hr
      rw [List.cons_append, scanExponent_cons he, scanExponent_cons he, exponentSign_append l hr,
        hdigits, hdrop]
      split <;> rfl
    · simp [scanExponent, he]

/-- The number scanner does not look past the end of an item. -/
theorem scanNumber_append (repr : String → String) {l r : List Char} {v : Json} (hr : Ends r)
    (hl : scanNumber repr l = some (v, [])) : scanNumber repr (l ++ r) = some (v, r) := by
  simp only [scanNumber] at hl ⊢
  rw [scanSign_append l hr, scanInt_append _ hr, scanFraction_append _ hr, scanExponent_append _ hr]
  split at hl
  · cases hl
  next hwhole =>
    rw [if_neg hwhole]
    split at hl
    next hint =>
      obtain ⟨hv, hrest⟩ := Prod.mk.inj (Option.some.inj hl)
      rw [if_pos hint, hv, hrest]
      rfl
    next hfloat =>
      obtain ⟨hv, hrest⟩ := Prod.mk.inj (Option.some.inj hl)
      rw [if_neg hfloat, hv, hrest]
      rfl

/-- A number opens with a digit, after its sign. -/
theorem scanNumber_cons {repr : String → String} {l : List Char} {x : Json × List Char}
    (hl : scanNumber repr l = some x) :
    ∃ c t, c.isDigit = true ∧ (l = c :: t ∨ l = '-' :: c :: t) := by
  have hwhole : (scanInt (scanSign l).2).1 ≠ [] := by
    intro hnil
    simp only [scanNumber, hnil, if_true] at hl
    cases hl
  have hdigit : ∃ c t, (scanSign l).2 = c :: t ∧ c.isDigit = true := by
    generalize (scanSign l).2 = m at hwhole
    unfold scanInt at hwhole
    split at hwhole
    · exact ⟨'0', _, rfl, rfl⟩
    · cases m with
      | nil => exact absurd rfl hwhole
      | cons c t =>
        refine ⟨c, t, rfl, ?_⟩
        by_contra hc
        rw [digits, List.takeWhile_cons, if_neg hc] at hwhole
        exact hwhole rfl
  obtain ⟨c, t, hrest, hc⟩ := hdigit
  refine ⟨c, t, hc, ?_⟩
  unfold scanSign at hrest
  split at hrest
  · right
    rw [← hrest]
  · left
    exact hrest

/-! ### Values -/

mutual

/-- No float, and every key of an object once. -/
def plain : Json → Bool
  | float _ => false
  | arr items => plainItems items
  | obj fields => decide (fields.map Prod.fst).Nodup && plainFields fields
  | _ => true

def plainItems : List Json → Bool
  | [] => true
  | x :: xs => plain x && plainItems xs

def plainFields : List (String × Json) → Bool
  | [] => true
  | (_, x) :: xs => plain x && plainFields xs

end

/-- A text that names a float: one of the three that JSON lacks, or a number whose `repr` it is. -/
def isFloat (repr : String → String) (text : String) : Bool :=
  text = "NaN" || text = "Infinity" || text = "-Infinity" ||
    scanNumber repr text.toList = some (float text, [])

mutual

/-- A Python value: every float is named by its `repr`, and every key of a `dict` is there once. -/
def proper (repr : String → String) : Json → Bool
  | float text => isFloat repr text
  | arr items => properItems repr items
  | obj fields => decide (fields.map Prod.fst).Nodup && properFields repr fields
  | _ => true

def properItems (repr : String → String) : List Json → Bool
  | [] => true
  | x :: xs => proper repr x && properItems repr xs

def properFields (repr : String → String) : List (String × Json) → Bool
  | [] => true
  | (_, x) :: xs => proper repr x && properFields repr xs

end

mutual

theorem proper_of_plain (repr : String → String) : (v : Json) → v.plain = true →
    v.proper repr = true
  | arr items, hv => by
    rw [plain] at hv
    rw [proper]
    exact properItems_of_plain repr items hv
  | obj fields, hv => by
    rw [plain, Bool.and_eq_true] at hv
    rw [proper, hv.1, properFields_of_plain repr fields hv.2]
    rfl
  | null, _ | bool _, _ | int _, _ | str _, _ => by simp [proper]

theorem properItems_of_plain (repr : String → String) : (l : List Json) → plainItems l = true →
    properItems repr l = true
  | [], _ => rfl
  | x :: l, hl => by
    rw [plainItems, Bool.and_eq_true] at hl
    rw [properItems, proper_of_plain repr x hl.1, properItems_of_plain repr l hl.2]
    rfl

theorem properFields_of_plain (repr : String → String) : (l : List (String × Json)) →
    plainFields l = true → properFields repr l = true
  | [], _ => rfl
  | (_, x) :: l, hl => by
    rw [plainFields, Bool.and_eq_true] at hl
    rw [properFields, proper_of_plain repr x hl.1, properFields_of_plain repr l hl.2]
    rfl

end

theorem skip_gap (st : Style) {c : Char} (hc : isSpace c = false) (l : List Char) :
    skip (st.gap ++ c :: l) = c :: l :=
  (takeWhile_append_stop st.blank fun x hx => by obtain rfl := Option.some.inj hx; exact hc).2

theorem skip_cons {c : Char} (hc : isSpace c = false) (l : List Char) : skip (c :: l) = c :: l := by
  rw [skip, List.dropWhile_cons, hc]
  rfl

theorem isSpace_of_isDigit {c : Char} (hc : c.isDigit = true) : isSpace c = false := by
  rw [isSpace]
  by_contra hspace
  simp only [Bool.or_eq_true, beq_iff_eq, Bool.not_eq_false] at hspace
  rcases hspace with ((rfl | rfl) | rfl) | rfl <;> cases hc

theorem printInt_cons (n : ℤ) :
    ∃ c l, printInt n = c :: l ∧ isSpace c = false ∧ c ≠ ']' := by
  cases n with
  | ofNat m =>
    obtain ⟨c, l, hdec, -⟩ := decimal_cons m
    have hc : c.isDigit = true := decimal_isDigit m c (by simp [hdec])
    refine ⟨c, l, hdec, isSpace_of_isDigit hc, ?_⟩
    rintro rfl
    cases hc
  | negSucc m => exact ⟨'-', _, rfl, rfl, by decide⟩

theorem isFloat_cons {repr : String → String} {text : String} (ht : isFloat repr text = true) :
    ∃ c l, text.toList = c :: l ∧ isSpace c = false ∧ c ≠ ']' := by
  simp only [isFloat, Bool.or_eq_true, decide_eq_true_eq] at ht
  rcases ht with ((rfl | rfl) | rfl) | hnum
  · exact ⟨'N', _, rfl, rfl, by decide⟩
  · exact ⟨'I', _, rfl, rfl, by decide⟩
  · exact ⟨'-', _, rfl, rfl, by decide⟩
  · obtain ⟨c, t, hc, htext | htext⟩ := scanNumber_cons hnum
    · refine ⟨c, t, htext, isSpace_of_isDigit hc, ?_⟩
      rintro rfl
      cases hc
    · exact ⟨'-', _, htext, rfl, by decide⟩

theorem print_cons (st : Style) {repr : String → String} {v : Json} (hv : v.proper repr = true) :
    ∃ c l, print st v = c :: l ∧ isSpace c = false ∧ c ≠ ']' := by
  match v with
  | null => exact ⟨'n', _, by rw [print], rfl, by decide⟩
  | bool true => exact ⟨'t', _, by rw [print], rfl, by decide⟩
  | bool false => exact ⟨'f', _, by rw [print], rfl, by decide⟩
  | int n =>
    rw [print]
    exact printInt_cons n
  | float _ =>
    rw [proper] at hv
    rw [print]
    exact isFloat_cons hv
  | str s => exact ⟨'"', _, by rw [print, quote], rfl, by decide⟩
  | arr [] => exact ⟨'[', _, by rw [print], rfl, by decide⟩
  | arr (_ :: _) => exact ⟨'[', _, by rw [print], rfl, by decide⟩
  | obj [] => exact ⟨'\x7b', _, by rw [print], rfl, by decide⟩
  | obj (_ :: _) => exact ⟨'\x7b', _, by rw [print], rfl, by decide⟩

theorem skip_print (st : Style) {repr : String → String} {v : Json} (hv : v.proper repr = true)
    (gap : Bool) (l : List Char) :
    skip ((if gap then st.gap else []) ++ (print st v ++ l)) = print st v ++ l := by
  obtain ⟨c, t, hprint, hc, -⟩ := print_cons st hv
  rw [hprint, List.cons_append]
  cases gap
  · exact skip_cons hc _
  · exact skip_gap st hc _

theorem scanName_digit {c : Char} (hc : c.isDigit = true) (l : List Char) :
    scanName (c :: l) = none ∧ scanName ('-' :: c :: l) = none := by
  constructor
  · simp [scanName]
    refine ⟨?_, ?_, ?_, ?_, ?_, ?_⟩ <;> (rintro rfl; cases hc)
  · simp [scanName]
    rintro rfl
    cases hc

theorem scanName_printInt (n : ℤ) (l : List Char) : scanName (printInt n ++ l) = none := by
  have hdigit : ∀ m, ∃ c t, decimal m = c :: t ∧ c.isDigit = true := by
    intro m
    obtain ⟨c, t, hdec, -⟩ := decimal_cons m
    exact ⟨c, t, hdec, decimal_isDigit m c (by simp [hdec])⟩
  cases n with
  | ofNat m =>
    obtain ⟨c, t, hdec, hc⟩ := hdigit m
    rw [printInt, hdec, List.cons_append]
    exact (scanName_digit hc _).1
  | negSucc m =>
    obtain ⟨c, t, hdec, hc⟩ := hdigit (m + 1)
    rw [printInt, hdec, List.cons_append, List.cons_append]
    exact (scanName_digit hc _).2

/-- A number or a name: the first character is none of those that open the other values. -/
theorem scanValue_other (repr : String → String) {n : ℕ} {c : Char} {l : List Char}
    (hquote : c ≠ '"') (hbracket : c ≠ '[') (hbrace : c ≠ '\x7b') :
    scanValue repr (n + 1) (c :: l) = match scanName (c :: l) with
      | some r => some r
      | none => scanNumber repr (c :: l) := by
  rw [scanValue, if_neg hquote, if_neg hbracket, if_neg hbrace]

theorem scanValue_printInt (repr : String → String) (n : ℕ) (i : ℤ) {l : List Char} (hl : Ends l) :
    scanValue repr (n + 1) (printInt i ++ l) = some (int i, l) := by
  have hname := scanName_printInt i l
  have hnumber := scanNumber_printInt repr i hl
  obtain ⟨c, t, hprint, hopen⟩ : ∃ c t, printInt i = c :: t ∧ (c.isDigit = true ∨ c = '-') := by
    cases i with
    | ofNat m =>
      obtain ⟨c, t, hdec, -⟩ := decimal_cons m
      exact ⟨c, t, hdec, Or.inl (decimal_isDigit m c (by simp [hdec]))⟩
    | negSucc m => exact ⟨'-', _, rfl, Or.inr rfl⟩
  have hne : ∀ d : Char, d.isDigit = false → d ≠ '-' → c ≠ d := by
    rintro d hd hm rfl
    rcases hopen with h | h
    · rw [hd] at h
      cases h
    · exact hm h
  rw [hprint, List.cons_append] at hname hnumber ⊢
  rw [scanValue_other repr (hne _ rfl (by decide)) (hne _ rfl (by decide)) (hne _ rfl (by decide)),
    hname]
  exact hnumber

theorem scanValue_float {repr : String → String} {text : String} (ht : isFloat repr text = true)
    (n : ℕ) {l : List Char} (hl : Ends l) :
    scanValue repr (n + 1) (text.toList ++ l) = some (float text, l) := by
  simp only [isFloat, Bool.or_eq_true, decide_eq_true_eq] at ht
  rcases ht with ((rfl | rfl) | rfl) | hnum
  · rfl
  · rfl
  · rfl
  · have hnumber := scanNumber_append repr hl hnum
    have hne : ∀ {c : Char}, c.isDigit = true → ∀ d : Char, d.isDigit = false → c ≠ d := by
      rintro c hc d hd rfl
      rw [hc] at hd
      cases hd
    obtain ⟨c, t, hc, htext | htext⟩ := scanNumber_cons hnum
    · rw [htext, List.cons_append] at hnumber ⊢
      rw [scanValue_other repr (hne hc _ rfl) (hne hc _ rfl) (hne hc _ rfl), (scanName_digit hc _).1]
      exact hnumber
    · rw [htext, List.cons_append, List.cons_append] at hnumber ⊢
      rw [scanValue_other repr (by decide) (by decide) (by decide), (scanName_digit hc _).2]
      exact hnumber

/-- A string that stands where a value or a key may stand. -/
theorem scanString_text (ascii : Bool) (s : String) (l : List Char) :
    scanString (escapes ascii s.toList ++ '"' :: l).length (escapes ascii s.toList ++ '"' :: l) =
      some (s.toList, l) := by
  refine scanString_quote ascii s.toList ?_ l
  have hone : ∀ c, 1 ≤ (escape ascii c).length := by
    intro c
    rcases escape_cases ascii c with ⟨e, hc, -⟩ | ⟨hc, -⟩ | ⟨hc, -⟩ | ⟨hc, -⟩
    all_goals
      rw [hc]
      exact Nat.succ_le_succ (Nat.zero_le _)
  have hlen : ∀ t : List Char, t.length ≤ (escapes ascii t).length := by
    intro t
    induction t with
    | nil => exact Nat.le_refl _
    | cons c t ih =>
      have := hone c
      rw [escapes, List.flatMap_cons, ← escapes, List.length_append, List.length_cons]
      omega
  have := hlen s.toList
  rw [List.length_append, List.length_cons]
  omega

theorem ofPairs_eq {pairs : List (String × Json)} (hkeys : Lib.Dict.Keys pairs) :
    ofPairs pairs = pairs := by
  have hset : ∀ (k : String) (x : Json) (d : List (String × Json)), k ∉ d.map Prod.fst →
      Lib.Dict.set k x d = d ++ [(k, x)] := by
    intro k x d hk
    induction d with
    | nil => rfl
    | cons e d ih =>
      obtain ⟨a, y⟩ := e
      rw [List.map_cons, List.mem_cons, not_or] at hk
      rw [Lib.Dict.set, if_neg (Ne.symm hk.1), ih hk.2]
      rfl
  have hfold : ∀ (xs d : List (String × Json)), Lib.Dict.Keys (d ++ xs) →
      xs.foldl (fun d e => Lib.Dict.set e.1 e.2 d) d = d ++ xs := by
    intro xs
    induction xs with
    | nil => intro d _; rw [List.foldl_nil, List.append_nil]
    | cons e xs ih =>
      intro d hd
      have hnew : e.1 ∉ d.map Prod.fst := by
        rw [Lib.Dict.Keys, List.map_append, List.map_cons] at hd
        exact fun hmem => (List.nodup_append.mp hd).2.2 e.1 hmem e.1 List.mem_cons_self rfl
      rw [List.foldl_cons, hset e.1 e.2 d hnew, ih _ (by rw [List.append_assoc]; exact hd),
        List.append_assoc]
      rfl
  exact hfold pairs [] hkeys

section
variable (st : Style) (repr : String → String)

/-- The scanner takes the text of `v` as `v`. -/
def Scans (v : Json) : Prop :=
  ∀ {n : ℕ} {l : List Char}, (print st v).length ≤ n → Ends l →
    scanValue repr n (print st v ++ l) = some (v, l)

variable {st repr}

theorem ends_items (xs : List Json) (l : List Char) : Ends (printItems st xs ++ l) := by
  cases xs with
  | nil =>
    rw [printItems]
    rintro c ⟨⟩
    exact Or.inr (Or.inl rfl)
  | cons x xs =>
    rw [printItems]
    rintro c ⟨⟩
    exact Or.inl rfl

theorem ends_fields (xs : List (String × Json)) (l : List Char) :
    Ends (printFields st xs ++ l) := by
  cases xs with
  | nil =>
    rw [printFields]
    rintro c ⟨⟩
    exact Or.inr (Or.inr rfl)
  | cons x xs =>
    rw [printFields]
    rintro c ⟨⟩
    exact Or.inl rfl

/-- One item of an array and what follows it. -/
theorem scanItems_step {x : Json} {xs : List Json} {n : ℕ} {l : List Char} (hx : Scans st repr x)
    (hproper : properItems repr xs = true) (hn : (print st x ++ printItems st xs).length ≤ n + 1)
    (hmore : ∀ y ys, xs = y :: ys →
      scanItems repr n (print st y ++ (printItems st ys ++ l)) = some (y :: ys, l)) :
    scanItems repr (n + 1) (print st x ++ (printItems st xs ++ l)) = some (x :: xs, l) := by
  have hlen : 1 ≤ (printItems st xs).length := by
    cases xs <;> rw [printItems] <;> simp
  rw [List.length_append] at hn
  rw [scanItems, hx (by omega) (ends_items xs l)]
  cases xs with
  | nil =>
    rw [printItems]
    rfl
  | cons y ys =>
    rw [properItems, Bool.and_eq_true] at hproper
    have hskip : skip (st.gap ++ (print st y ++ (printItems st ys ++ l))) =
        print st y ++ (printItems st ys ++ l) := skip_print st hproper.1 true _
    rw [printItems, List.cons_append, List.append_assoc, List.append_assoc]
    simp only [Option.bind_eq_bind, Option.bind_some]
    rw [skip_cons rfl]
    simp only [hskip, hmore y ys rfl, Option.bind_some]
    rfl

/-- One item of an object and what follows it. -/
theorem scanPairs_step {k : String} {x : Json} {xs : List (String × Json)} {n : ℕ} {l : List Char}
    (hx : Scans st repr x) (hpx : x.proper repr = true)
    (hn : (print st x ++ printFields st xs).length ≤ n)
    (hmore : ∀ j y ys, xs = (j, y) :: ys →
      scanPairs repr n (quote st.ascii j ++ ':' :: (st.gap ++ (print st y ++ (printFields st ys ++ l))))
        = some ((j, y) :: ys, l)) :
    scanPairs repr (n + 1)
      (quote st.ascii k ++ ':' :: (st.gap ++ (print st x ++ (printFields st xs ++ l)))) =
        some ((k, x) :: xs, l) := by
  have hskip : skip (st.gap ++ (print st x ++ (printFields st xs ++ l))) =
      print st x ++ (printFields st xs ++ l) := skip_print st hpx true _
  rw [List.length_append] at hn
  rw [quote, List.cons_append, List.append_assoc, List.cons_append, List.nil_append, scanPairs]
  simp only [scanString_text, Option.bind_eq_bind, Option.bind_some]
  rw [skip_cons rfl]
  simp only [hskip]
  rw [hx (by omega) (ends_fields xs l), String.ofList_toList]
  cases xs with
  | nil =>
    rw [printFields]
    rfl
  | cons e ys =>
    obtain ⟨j, y⟩ := e
    have hquote : skip (st.gap ++ (quote st.ascii j ++
        ':' :: (st.gap ++ (print st y ++ (printFields st ys ++ l))))) =
        quote st.ascii j ++ ':' :: (st.gap ++ (print st y ++ (printFields st ys ++ l))) := by
      rw [quote, List.cons_append]
      exact skip_gap st rfl _
    rw [printFields, List.cons_append, List.append_assoc, List.append_assoc, List.cons_append,
      List.append_assoc, List.append_assoc]
    simp only [Option.bind_some]
    rw [skip_cons rfl]
    simp only [hquote, hmore j y ys rfl, Option.bind_some]
    rfl

mutual

theorem scans : (v : Json) → v.proper repr = true → Scans st repr v
  | null, _, n + 1, l, _, _ => by rw [print]; rfl
  | bool true, _, n + 1, l, _, _ => by rw [print]; rfl
  | bool false, _, n + 1, l, _, _ => by rw [print]; rfl
  | int i, _, n + 1, l, _, hl => by
    rw [print]
    exact scanValue_printInt repr n i hl
  | float text, hv, n + 1, l, _, hl => by
    rw [proper] at hv
    rw [print]
    exact scanValue_float hv n hl
  | str s, _, n + 1, l, _, _ => by
    rw [print, quote, List.cons_append, List.append_assoc, List.cons_append, List.nil_append,
      scanValue, if_pos rfl, scanString_text]
    simp only [Option.bind_eq_bind, Option.bind_some, String.ofList_toList]
    rfl
  | arr [], _, n + 1, l, _, _ => by rw [print]; rfl
  | arr (x :: xs), hv, n + 1, l, hn, _ => by
    rw [proper, properItems, Bool.and_eq_true] at hv
    obtain ⟨c, t, hprint, hc, hne⟩ := print_cons st hv.1
    have hskip : skip (print st x ++ (printItems st xs ++ l)) =
        print st x ++ (printItems st xs ++ l) := skip_print st hv.1 false _
    have hopen : ∀ r, print st x ++ (printItems st xs ++ l) ≠ ']' :: r := by
      intro r hr
      rw [hprint] at hr
      exact hne (List.cons.inj hr).1
    rw [print, List.length_cons] at hn
    rw [print, List.cons_append, List.append_assoc, scanValue, if_neg (by decide), if_pos rfl, hskip]
    split
    · next r hr => exact absurd hr (hopen r)
    · rw [scansItems xs hv.2 x (scans x hv.1) (by omega)]
      rfl
  | obj [], _, n + 1, l, _, _ => by rw [print]; rfl
  | obj ((k, x) :: xs), hv, n + 1, l, hn, _ => by
    rw [proper, properFields, Bool.and_eq_true, Bool.and_eq_true, decide_eq_true_eq] at hv
    have hskip : ∀ r, skip (quote st.ascii k ++ r) = quote st.ascii k ++ r := fun r => skip_cons rfl _
    rw [print, List.length_cons] at hn
    rw [print, List.cons_append, List.append_assoc, List.cons_append, List.append_assoc,
      List.append_assoc, scanValue, if_neg (by decide), if_neg (by decide), if_pos rfl, hskip]
    split
    · next r hr =>
      rw [quote, List.cons_append] at hr
      exact absurd (List.cons.inj hr).1 (by decide)
    · rw [scansPairs xs hv.2.2 k x hv.2.1 (scans x hv.2.1) (by omega)]
      simp only [Option.bind_eq_bind, Option.bind_some, ofPairs_eq hv.1]
      rfl
  | v, hv, 0, l, hn, _ => by
    obtain ⟨c, t, hprint, -⟩ := print_cons st hv
    rw [hprint] at hn
    simp at hn

theorem scansItems : (xs : List Json) → properItems repr xs = true → (x : Json) → Scans st repr x →
    {n : ℕ} → {l : List Char} → (print st x ++ printItems st xs).length ≤ n →
    scanItems repr n (print st x ++ (printItems st xs ++ l)) = some (x :: xs, l)
  | xs, _, x, _, 0, l, hn => by
    have hlen : 1 ≤ (printItems st xs).length := by
      cases xs <;> rw [printItems] <;> simp
    rw [List.length_append] at hn
    omega
  | [], hxs, x, hx, n + 1, l, hn => scanItems_step hx hxs hn nofun
  | y :: ys, hxs, x, hx, n + 1, l, hn => by
    refine scanItems_step hx hxs hn ?_
    rintro _ _ ⟨⟩
    rw [properItems, Bool.and_eq_true] at hxs
    refine scansItems ys hxs.2 y (scans y hxs.1) ?_
    rw [printItems] at hn
    simp only [List.length_append, List.length_cons] at hn ⊢
    have := print_cons st hxs.1
    omega

theorem scansPairs : (xs : List (String × Json)) → properFields repr xs = true → (k : String) →
    (x : Json) → x.proper repr = true → Scans st repr x → {n : ℕ} → {l : List Char} →
    (quote st.ascii k ++ ':' :: (st.gap ++ (print st x ++ printFields st xs))).length ≤ n →
    scanPairs repr n (quote st.ascii k ++
      ':' :: (st.gap ++ (print st x ++ (printFields st xs ++ l)))) = some ((k, x) :: xs, l)
  | xs, _, k, x, _, _, 0, l, hn => by
    rw [quote] at hn
    simp at hn
  | [], _, k, x, hpx, hx, n + 1, l, hn => by
    refine scanPairs_step hx hpx ?_ nofun
    simp only [List.length_append, List.length_cons] at hn ⊢
    omega
  | (j, y) :: ys, hxs, k, x, hpx, hx, n + 1, l, hn => by
    rw [properFields, Bool.and_eq_true] at hxs
    refine scanPairs_step hx hpx ?_ ?_
    · simp only [List.length_append, List.length_cons] at hn ⊢
      omega
    · rintro _ _ _ ⟨⟩
      refine scansPairs ys hxs.2 j y hxs.1 (scans y hxs.1) ?_
      rw [printFields] at hn
      simp only [List.length_append, List.length_cons] at hn ⊢
      omega

end

end

/-- **Round trip.** -/
theorem loads_print_proper (st : Style) (repr : String → String) {v : Json}
    (hv : v.proper repr = true) : loads repr (String.ofList (print st v)) = some v := by
  have hskip : skip (print st v) = print st v := by
    have := skip_print st hv false []
    rwa [List.append_nil] at this
  have hscan : scanValue repr (print st v).length (print st v ++ []) = some (v, []) :=
    scans v hv (Nat.le_refl _) ends_nil
  rw [List.append_nil] at hscan
  rw [loads, String.toList_ofList, hskip, hscan]
  rfl

/-- A value without floats comes back whatever `repr` is. -/
theorem loads_print (st : Style) (repr : String → String) {v : Json} (hv : v.plain = true) :
    loads repr (String.ofList (print st v)) = some v :=
  loads_print_proper st repr (proper_of_plain repr v hv)

end Inference.Json
