import Mathlib.Data.List.TakeWhile
import Mathlib.Data.Rat.Defs
import Inference.Discovery
import Inference.JsonText
import Inference.Lib.Split

/-!
# Inference.Deploy.Metrics — `metrics_idle` of `deploy/ci/deploy_platform.py`

A metrics text is read line by line into a dictionary whose keys are the series with their labels
in order; the deployment calls the platform idle when eight of them have their value.

* `key`, `sample`, `record`, `metricsIdle`: the function.
* `Series`, `seriesOf`: what a field names; `texts`: what a text says of a series.
* `key_eq_iff`: the keys separate the series, and nothing else.
* **`metricsIdle_iff`**: idle means that every sample is a float and that the last sample of each
  of the eight series has its value; so the order of labels, of lines of other series and comments
  do not matter.
-/

namespace Inference.Deploy.Metrics

open Inference.Lib
open Inference.Discovery (isWhite)

/-- A Python float. -/
inductive Value where
  | finite (q : ℚ)
  | infinite (negative : Bool)
  | nan
deriving DecidableEq, Repr

/-- `math.isfinite` -/
def Value.isFinite : Value → Bool
  | finite _ => true
  | _ => false

/-! ### The function -/

/-- The characters at which `str.splitlines` ends a line; `\r\n` is one end. -/
def isLineEnd (c : Char) : Bool :=
  (10 ≤ c.toNat && c.toNat ≤ 13) || (28 ≤ c.toNat && c.toNat ≤ 30) || c.toNat == 0x85 ||
    c.toNat == 0x2028 || c.toNat == 0x2029

/-- `text.splitlines()` -/
def splitlines : List Char → List (List Char)
  | [] => []
  | '\r' :: '\n' :: l => [] :: splitlines l
  | c :: l =>
    if isLineEnd c then [] :: splitlines l
    else match splitlines l with
      | [] => [[c]]
      | line :: lines => (c :: line) :: lines

/-- The labels of a field, between its first brace and its last character. -/
def labels (field : List Char) : List (List Char) :=
  ((field.dropLast.dropWhile (· ≠ '{')).drop 1).splitOn ','

/-- `key(value)`; `none` where it has no two parts to unpack. -/
def key (value : List Char) : Option (List Char) :=
  if '{' ∉ value then some value
  else if '{' ∉ value.dropLast then none
  else some (value.dropLast.takeWhile (· ≠ '{') ++
    '{' :: ([','].intercalate ((labels value).insertionSort (· ≤ ·)) ++ ['}']))

/-- The first two fields of a line that the function looks at. -/
def sample (line : List Char) : Option (List Char × List Char) :=
  if line.isEmpty || line.head? == some '#' then none
  else match Split.words isWhite line with
    | field :: text :: _ => some (field, text)
    | _ => none

section
variable (float : List Char → Option Value)

/-- One line; `none` where the function returns `False`.  `float` is Python's. -/
def record (values : List (List Char × Value)) (line : List Char) :
    Option (List (List Char × Value)) :=
  match sample line with
  | none => some values
  | some (field, text) => do
    let value ← float text
    let name ← key field
    return Dict.set name value values

/-- A field with these labels. -/
def labelled (name labels : String) : List Char := name.toList ++ '{' :: (labels.toList ++ ['}'])

/-- `required` -/
def required : List (List Char × ℚ) :=
  ("inference_api_queue_depth".toList, 0) :: ("inference_registered_workers".toList, 2) ::
    ["73", "122"].flatMap fun worker =>
      [(labelled "inference_worker_queued_batches" ("worker_id=\"" ++ worker ++ "\""), 0),
        (labelled "inference_worker_active_rpcs" ("worker_id=\"" ++ worker ++ "\""), 0),
        (labelled "inference_worker_routing_state"
          ("worker_id=\"" ++ worker ++ "\",state=\"READY\""), 1)]

/-- `key(name) in values and math.isfinite(values[key(name)]) and values[key(name)] == want` -/
def holds (values : List (List Char × Value)) (name : List Char) (want : ℚ) : Bool :=
  ((key name).bind fun k => Dict.get? k values).any fun v => v.isFinite && v == .finite want

/-- `metrics_idle(text)` -/
def metricsIdle (text : String) : Bool :=
  match (splitlines text.toList).foldlM (record float) [] with
  | none => false
  | some values => required.all fun (name, want) => holds values name want

end

/-! ### What a text says -/

/-- A metric with its labels, in no order. -/
structure Series where
  name : List Char
  labels : Multiset (List Char)
deriving DecidableEq

def seriesOf (field : List Char) : Series where
  name := field.takeWhile (· ≠ '{')
  labels := if '{' ∈ field then labels field else 0

/-- The lines that are read. -/
def samples (lines : List (List Char)) : List (List Char × List Char) := lines.filterMap sample

/-- What the lines of a series say, in order. -/
def texts (lines : List (List Char)) (s : Series) : List (List Char) :=
  ((samples lines).filter fun e => seriesOf e.1 = s).map Prod.snd

/-- A field with labels closes them. -/
def Closed (field : List Char) : Prop := '{' ∈ field → field.getLast? = some '}'

/-- What an exposition guarantees. -/
def WellFormed (lines : List (List Char)) : Prop := ∀ e ∈ samples lines, Closed e.1

instance : DecidablePred Closed := fun field =>
  inferInstanceAs (Decidable ('{' ∈ field → field.getLast? = some '}'))

instance : DecidablePred WellFormed := fun lines =>
  inferInstanceAs (Decidable (∀ e ∈ samples lines, Closed e.1))

/-! ### Keys and series -/

theorem key_of_notMem {field : List Char} (h : '{' ∉ field) : key field = some field :=
  if_pos h

/-- A closed field is a name and its labels in braces. -/
theorem Closed.split {field : List Char} (hc : Closed field) (h : '{' ∈ field) :
    ∃ name inner, '{' ∉ name ∧ field = name ++ '{' :: (inner ++ ['}']) := by
  obtain ⟨l, rfl⟩ := List.getLast?_eq_some_iff.mp (hc h)
  have hl : '{' ∈ l := by
    rcases List.mem_append.mp h with hl | hl
    · exact hl
    · exact absurd (List.mem_singleton.mp hl) (by decide)
  obtain ⟨name, inner, rfl, hname⟩ := List.eq_append_cons_of_mem hl
  exact ⟨name, inner, hname, by simp⟩

section
variable {name inner : List Char}

theorem takeWhile_name (hname : '{' ∉ name) (l : List Char) :
    (name ++ '{' :: l).takeWhile (· ≠ '{') = name ∧
      (name ++ '{' :: l).dropWhile (· ≠ '{') = '{' :: l := by
  have hall : ∀ c ∈ name, decide (c ≠ '{') = true := by
    intro c hc
    rw [decide_eq_true_eq]
    rintro rfl
    exact hname hc
  constructor
  · rw [List.takeWhile_append_of_pos hall, List.takeWhile_cons_of_neg (by decide), List.append_nil]
  · rw [List.dropWhile_append_of_pos hall, List.dropWhile_cons_of_neg (by decide)]

theorem dropLast_labelled : (name ++ '{' :: (inner ++ ['}'])).dropLast = name ++ '{' :: inner := by
  have hassoc : name ++ '{' :: (inner ++ ['}']) = (name ++ '{' :: inner) ++ ['}'] := by simp
  rw [hassoc, List.dropLast_concat]

theorem labels_labelled (hname : '{' ∉ name) :
    labels (name ++ '{' :: (inner ++ ['}'])) = inner.splitOn ',' := by
  rw [labels, dropLast_labelled, (takeWhile_name hname inner).2]
  rfl

theorem key_labelled (hname : '{' ∉ name) : key (name ++ '{' :: (inner ++ ['}'])) =
    some (name ++ '{' :: ([','].intercalate ((inner.splitOn ',').insertionSort (· ≤ ·)) ++ ['}'])) := by
  rw [key, if_neg (by simp), dropLast_labelled, if_neg (by simp), (takeWhile_name hname inner).1,
    labels_labelled hname]

theorem seriesOf_labelled (hname : '{' ∉ name) :
    seriesOf (name ++ '{' :: (inner ++ ['}'])) = ⟨name, inner.splitOn ','⟩ := by
  rw [seriesOf, (takeWhile_name hname _).1, if_pos (by simp), labels_labelled hname]

end

theorem seriesOf_of_notMem {field : List Char} (h : '{' ∉ field) : seriesOf field = ⟨field, 0⟩ := by
  have hname : field.takeWhile (· ≠ '{') = field := by
    rw [List.takeWhile_eq_self_iff]
    rintro c hc
    rw [decide_eq_true_eq]
    rintro rfl
    exact h hc
  rw [seriesOf, if_neg h, hname]

theorem Closed.key_isSome {field : List Char} (hc : Closed field) : (key field).isSome = true := by
  by_cases h : '{' ∈ field
  · obtain ⟨name, inner, hname, rfl⟩ := hc.split h
    rw [key_labelled hname]
    rfl
  · rw [key_of_notMem h]
    rfl

/-- **A key names a series.** -/
theorem key_eq_iff {f g : List Char} (hf : Closed f) (hg : Closed g) :
    key f = key g ↔ seriesOf f = seriesOf g := by
  have hmixed : ∀ {x name inner : List Char}, '{' ∉ x → '{' ∉ name →
      key x ≠ key (name ++ '{' :: (inner ++ ['}'])) ∧
        seriesOf x ≠ seriesOf (name ++ '{' :: (inner ++ ['}'])) := by
    intro x name inner hx hname
    rw [key_of_notMem hx, key_labelled hname, seriesOf_of_notMem hx, seriesOf_labelled hname]
    constructor
    · intro h
      exact hx (by rw [Option.some.inj h]; simp)
    · intro h
      have hzero : (0 : Multiset (List Char)) = (inner.splitOn ',' : List (List Char)) :=
        (Series.mk.inj h).2
      exact List.splitOn_ne_nil ',' inner (Multiset.coe_eq_zero _ |>.mp hzero.symm)
  by_cases hbf : '{' ∈ f
  · obtain ⟨name, inner, hname, rfl⟩ := hf.split hbf
    by_cases hbg : '{' ∈ g
    · obtain ⟨name', inner', hname', rfl⟩ := hg.split hbg
      have hsorted := Split.intercalate_sort_inj (List.splitOn_ne_nil ',' inner)
        (List.splitOn_ne_nil ',' inner') (Split.sep_notMem_of_mem_splitOn inner)
        (Split.sep_notMem_of_mem_splitOn inner')
      rw [key_labelled hname, key_labelled hname', seriesOf_labelled hname, seriesOf_labelled hname',
        Option.some.injEq, Series.mk.injEq, Multiset.coe_eq_coe, ← hsorted]
      constructor
      · intro h
        obtain rfl : name = name' := by
          have hnames := congrArg (List.takeWhile (· ≠ '{')) h
          rwa [(takeWhile_name hname _).1, (takeWhile_name hname' _).1] at hnames
        have hrest := List.append_cancel_left h
        exact ⟨rfl, List.append_cancel_right (List.cons.inj hrest).2⟩
      · rintro ⟨rfl, hjoin⟩
        rw [hjoin]
    · exact iff_of_false (hmixed hbg hname).1.symm (hmixed hbg hname).2.symm
  · by_cases hbg : '{' ∈ g
    · obtain ⟨name, inner, hname, rfl⟩ := hg.split hbg
      exact iff_of_false (hmixed hbf hname).1 (hmixed hbf hname).2
    · rw [key_of_notMem hbf, key_of_notMem hbg, seriesOf_of_notMem hbf, seriesOf_of_notMem hbg]
      simp

/-! ### The dictionary -/

section
variable (float : List Char → Option Value)

/-- An item of the dictionary, for a sample that has one. -/
def item (e : List Char × List Char) : List Char × Value :=
  ((key e.1).getD [], (float e.2).getD .nan)

variable {float} {lines : List (List Char)}

/-- Every sample is stored, or some is no float. -/
theorem foldlM_record (hlines : WellFormed lines) (values : List (List Char × Value)) :
    lines.foldlM (record float) values =
      if ∀ e ∈ samples lines, (float e.2).isSome = true
      then some (((samples lines).map (item float)).foldl (fun d e => Dict.set e.1 e.2 d) values)
      else none := by
  induction lines generalizing values with
  | nil => simp [samples]
  | cons line lines ih =>
    rw [List.foldlM_cons]
    cases hs : sample line with
    | none =>
      have hsamples : samples (line :: lines) = samples lines := List.filterMap_cons_none hs
      rw [WellFormed, hsamples] at hlines
      simp only [record, hs, hsamples, Option.bind_eq_bind, Option.bind_some]
      exact ih hlines values
    | some e =>
      obtain ⟨field, text⟩ := e
      have hsamples : samples (line :: lines) = (field, text) :: samples lines :=
        List.filterMap_cons_some hs
      rw [WellFormed, hsamples, List.forall_mem_cons] at hlines
      obtain ⟨k, hk⟩ := Option.isSome_iff_exists.mp hlines.1.key_isSome
      rw [hsamples]
      cases hv : float text with
      | none =>
        rw [if_neg fun h => by simpa [hv] using h (field, text) List.mem_cons_self]
        simp [record, hs, hv]
      | some v =>
        simp only [record, hs, hv, hk, Option.bind_eq_bind, Option.bind_some, Option.pure_def]
        rw [ih hlines.2, List.map_cons, List.foldl_cons]
        simp only [List.forall_mem_cons, hv, Option.isSome_some, true_and, item, hk, Option.getD_some]

/-- What the dictionary holds under the key of a series. -/
theorem get?_items (hlines : WellFormed lines) {name k : List Char} (hname : Closed name)
    (hk : key name = some k) :
    Dict.get? k (((samples lines).map (item float)).foldl (fun d e => Dict.set e.1 e.2 d) []) =
      (texts lines (seriesOf name)).getLast?.map fun t => (float t).getD .nan := by
  have hfilter : ((samples lines).map (item float)).filter (fun e => e.1 = k) =
      ((samples lines).filter fun e => seriesOf e.1 = seriesOf name).map (item float) := by
    rw [List.filter_map]
    refine congrArg _ (List.filter_congr fun e he => ?_)
    obtain ⟨k', hk'⟩ := Option.isSome_iff_exists.mp (hlines e he).key_isSome
    have hkeys := key_eq_iff (hlines e he) hname
    rw [hk, hk', Option.some.injEq] at hkeys
    simp only [Function.comp, item, hk', Option.getD_some, hkeys]
  rw [Dict.get?_foldl_set, hfilter, texts, List.getLast?_map, List.getLast?_map]
  cases ((samples lines).filter fun e => seriesOf e.1 = seriesOf name).getLast? <;> rfl

end

theorem holds_iff {values : List (List Char × Value)} {name k : List Char} {want : ℚ}
    (hk : key name = some k) :
    holds values name want = true ↔ Dict.get? k values = some (.finite want) := by
  rw [holds, hk, Option.bind_some]
  cases Dict.get? k values with
  | none => simp
  | some v =>
    rw [Option.any_some, Bool.and_eq_true, beq_iff_eq, Option.some.injEq]
    constructor
    · exact fun h => h.2
    · rintro rfl
      exact ⟨rfl, rfl⟩

theorem required_closed : ∀ r ∈ required, Closed r.1 := by
  decide +kernel

/-! ### Idle texts -/

/-- What idle means: every sample is a float, and the last of each required series is as wanted. -/
structure Idle (float : List Char → Option Value) (lines : List (List Char)) : Prop where
  floats : ∀ e ∈ samples lines, (float e.2).isSome = true
  last : ∀ r ∈ required, ∃ t, (texts lines (seriesOf r.1)).getLast? = some t ∧
    float t = some (.finite r.2)

theorem metricsIdle_eq_true {float : List Char → Option Value} {text : String}
    (hlines : WellFormed (splitlines text.toList)) :
    metricsIdle float text = true ↔ Idle float (splitlines text.toList) := by
  rw [metricsIdle, foldlM_record hlines]
  have hlast : ∀ r ∈ required, (holds (((samples (splitlines text.toList)).map (item float)).foldl
      (fun d e => Dict.set e.1 e.2 d) []) r.1 r.2 = true ↔
      ∃ t, (texts (splitlines text.toList) (seriesOf r.1)).getLast? = some t ∧
        (float t).getD .nan = .finite r.2) := by
    intro r hr
    obtain ⟨k, hk⟩ := Option.isSome_iff_exists.mp (required_closed r hr).key_isSome
    rw [holds_iff hk, get?_items hlines (required_closed r hr) hk, Option.map_eq_some_iff]
  have hfloat : ∀ (x : Option Value) (q : ℚ), x.getD .nan = .finite q ↔ x = some (.finite q) := by
    intro x q
    cases x with
    | none => exact ⟨nofun, nofun⟩
    | some v => rw [Option.getD_some, Option.some.injEq]
  simp only [hfloat] at hlast
  by_cases hall : ∀ e ∈ samples (splitlines text.toList), (float e.2).isSome = true
  · simp only [if_pos hall, List.all_eq_true]
    exact ⟨fun h => ⟨hall, fun r hr => (hlast r hr).mp (h r hr)⟩,
      fun h r hr => (hlast r hr).mpr (h.last r hr)⟩
  · simp only [if_neg hall]
    exact ⟨nofun, fun h => absurd h.floats hall⟩

/-! ### What does not matter -/

/-- The series of a line that is read. -/
def series (line : List Char) : Option Series := (sample line).map fun e => seriesOf e.1

/-- A line with these labels. -/
def withLabels (blank name : List Char) (ls : List (List Char)) (rest : List Char) : List Char :=
  blank ++ (name ++ '{' :: ([','].intercalate ls ++ ['}'])) ++ rest

/-- The parts of a line whose first field has labels. -/
structure Parts (blank name : List Char) (ls : List (List Char)) (rest : List Char) : Prop where
  blank : ∀ c ∈ blank, isWhite c = true
  name : ∀ c ∈ name, isWhite c = false ∧ c ≠ '{'
  labels : ∀ l ∈ ls, ∀ c ∈ l, isWhite c = false ∧ c ≠ ','
  rest : ∀ c ∈ rest.head?, isWhite c = true

/-- Comments come and go, neighbouring lines of distinct series change places, and labels change
places inside a line. -/
inductive Rearranged : List (List Char) → List (List Char) → Prop where
  | refl (lines : List (List Char)) : Rearranged lines lines
  | symm {lines lines' : List (List Char)} (h : Rearranged lines lines') : Rearranged lines' lines
  | trans {lines lines' lines'' : List (List Char)} (h : Rearranged lines lines')
      (h' : Rearranged lines' lines'') : Rearranged lines lines''
  | comment (xs : List (List Char)) (text : List Char) (ys : List (List Char)) :
      Rearranged (xs ++ ys) (xs ++ ('#' :: text) :: ys)
  | swap (xs : List (List Char)) {a b : List Char} (ys : List (List Char))
      (h : ∀ s, series a = some s → series b ≠ some s) :
      Rearranged (xs ++ a :: b :: ys) (xs ++ b :: a :: ys)
  | permute (xs : List (List Char)) {blank name rest : List Char} {ls ls' : List (List Char)}
      (ys : List (List Char)) (h : Parts blank name ls rest) (hperm : ls.Perm ls') :
      Rearranged (xs ++ withLabels blank name ls rest :: ys)
        (xs ++ withLabels blank name ls' rest :: ys)

theorem samples_append (xs ys : List (List Char)) :
    samples (xs ++ ys) = samples xs ++ samples ys := List.filterMap_append

theorem texts_append (xs ys : List (List Char)) (s : Series) :
    texts (xs ++ ys) s = texts xs s ++ texts ys s := by
  rw [texts, samples_append, List.filter_append, List.map_append, texts, texts]

theorem wellFormed_append {xs ys : List (List Char)} :
    WellFormed (xs ++ ys) ↔ WellFormed xs ∧ WellFormed ys := by
  rw [WellFormed, samples_append, List.forall_mem_append, WellFormed, WellFormed]

theorem texts_cons (line : List Char) (lines : List (List Char)) (s : Series) :
    texts (line :: lines) s = texts [line] s ++ texts lines s := texts_append [line] lines s

theorem wellFormed_cons (line : List Char) (lines : List (List Char)) :
    WellFormed (line :: lines) ↔ WellFormed [line] ∧ WellFormed lines := by
  rw [← wellFormed_append]
  rfl

/-- Only what the lines say of each series matters. -/
theorem idle_congr {float : List Char → Option Value} {lines lines' : List (List Char)}
    (h : ∀ s, texts lines s = texts lines' s) : Idle float lines ↔ Idle float lines' := by
  have hfloats : ∀ {l : List (List Char)}, (∀ e ∈ samples l, (float e.2).isSome = true) ↔
      ∀ s, ∀ t ∈ texts l s, (float t).isSome = true := by
    intro l
    simp only [texts, List.mem_map, List.mem_filter, decide_eq_true_eq]
    constructor
    · rintro hall s t ⟨e, ⟨he, -⟩, rfl⟩
      exact hall e he
    · intro hall e he
      exact hall (seriesOf e.1) e.2 ⟨e, ⟨he, rfl⟩, rfl⟩
  constructor
  · rintro ⟨hall, hlast⟩
    rw [hfloats] at hall
    simp only [h] at hall hlast
    exact ⟨hfloats.mpr hall, hlast⟩
  · rintro ⟨hall, hlast⟩
    rw [hfloats] at hall
    simp only [← h] at hall hlast
    exact ⟨hfloats.mpr hall, hlast⟩

theorem mem_intercalate {sep c : Char} {ls : List (List Char)} (h : c ∈ [sep].intercalate ls) :
    c = sep ∨ ∃ l ∈ ls, c ∈ l := by
  induction ls with
  | nil => simp at h
  | cons l ls ih =>
    cases ls with
    | nil => exact .inr ⟨l, List.mem_cons_self, by simpa using h⟩
    | cons m ms =>
      rw [List.intercalate_cons_cons, List.append_assoc] at h
      rcases List.mem_append.mp h with h | h
      · exact .inr ⟨l, List.mem_cons_self, h⟩
      · rcases List.mem_append.mp h with h | h
        · exact .inl (List.mem_singleton.mp h)
        · exact (ih h).imp_right fun ⟨x, hx, hc⟩ => ⟨x, List.mem_cons_of_mem _ hx, hc⟩

section
variable {blank name rest : List Char} {ls ls' : List (List Char)}

theorem Parts.perm (h : Parts blank name ls rest) (hperm : ls.Perm ls') :
    Parts blank name ls' rest :=
  ⟨h.blank, h.name, fun l hl => h.labels l (hperm.mem_iff.mpr hl), h.rest⟩

/-- The first field of the line, with what follows it. -/
theorem Parts.sample_eq (h : Parts blank name ls rest) :
    sample (withLabels blank name ls rest) =
      if (blank ++ name ++ ['{']).head? = some '#' then none
      else (Split.words isWhite rest).head?.map fun t =>
        (name ++ '{' :: ([','].intercalate ls ++ ['}']), t) := by
  have hfield : ∀ c ∈ name ++ '{' :: ([','].intercalate ls ++ ['}']), isWhite c = false := by
    intro c hc
    simp only [List.mem_append, List.mem_cons, List.not_mem_nil, or_false] at hc
    rcases hc with hc | rfl | hc | rfl
    · exact (h.name c hc).1
    · rfl
    · rcases mem_intercalate hc with rfl | ⟨l, hl, hc⟩
      · rfl
      · exact (h.labels l hl c hc).1
    · rfl
  have hwords : Split.words isWhite (withLabels blank name ls rest) =
      (name ++ '{' :: ([','].intercalate ls ++ ['}'])) :: Split.words isWhite rest := by
    rw [withLabels, List.append_assoc, Split.words_append_left h.blank,
      Split.words_append_word (by simp) hfield h.rest]
  have hhead : (withLabels blank name ls rest).head? = (blank ++ name ++ ['{']).head? := by
    rw [withLabels]
    cases blank with
    | cons c blank => rfl
    | nil =>
      cases name with
      | cons c name => rfl
      | nil => rfl
  have hempty : (withLabels blank name ls rest).isEmpty = false := by
    rw [withLabels]
    simp
  rw [sample, hempty, hhead, hwords, Bool.false_or]
  by_cases hcomment : (blank ++ name ++ ['{']).head? = some '#'
  · rw [if_pos hcomment, if_pos (beq_iff_eq.mpr hcomment)]
  · rw [if_neg hcomment, if_neg fun hc => hcomment (beq_iff_eq.mp hc)]
    cases Split.words isWhite rest <;> rfl

theorem Parts.seriesOf_eq (h : Parts blank name ls rest) :
    seriesOf (name ++ '{' :: ([','].intercalate ls ++ ['}'])) =
      ⟨name, if ls = [] then {[]} else ls⟩ := by
  rw [seriesOf_labelled fun hmem => (h.name _ hmem).2 rfl]
  split
  next hnil =>
    rw [hnil]
    rfl
  next hnil => rw [List.splitOn_intercalate ',' (fun l hl hmem => (h.labels l hl _ hmem).2 rfl) hnil]

/-- Labels that change places leave what the line says. -/
theorem Parts.texts_eq (h : Parts blank name ls rest) (hperm : ls.Perm ls') (s : Series) :
    texts [withLabels blank name ls rest] s = texts [withLabels blank name ls' rest] s := by
  have hseries : seriesOf (name ++ '{' :: ([','].intercalate ls ++ ['}'])) =
      seriesOf (name ++ '{' :: ([','].intercalate ls' ++ ['}'])) := by
    rw [h.seriesOf_eq, (h.perm hperm).seriesOf_eq]
    by_cases hnil : ls = []
    · rw [if_pos hnil, if_pos (List.perm_nil.mp (hnil ▸ hperm.symm))]
    · have hnil' : ls' ≠ [] := fun hls' => hnil (List.perm_nil.mp (hls' ▸ hperm))
      rw [if_neg hnil, if_neg hnil', Multiset.coe_eq_coe.mpr hperm]
  simp only [texts, samples, List.filterMap_cons, List.filterMap_nil, h.sample_eq,
    (h.perm hperm).sample_eq]
  split_ifs
  · rfl
  · cases (Split.words isWhite rest).head? with
    | none => rfl
    | some t =>
      simp only [Option.map_some, List.filter_cons, hseries, List.filter_nil]
      split <;> rfl

theorem Parts.wellFormed (h : Parts blank name ls rest) :
    WellFormed [withLabels blank name ls rest] := by
  intro e he
  simp only [samples, List.filterMap_cons, List.filterMap_nil, h.sample_eq] at he
  split_ifs at he
  · simp at he
  · cases hw : (Split.words isWhite rest).head? with
    | none => simp [hw] at he
    | some t =>
      rw [hw] at he
      obtain rfl := List.mem_singleton.mp he
      intro _
      exact List.getLast?_eq_some_iff.mpr ⟨name ++ '{' :: [','].intercalate ls, by simp⟩

end

theorem texts_singleton (line : List Char) (s : Series) : texts [line] s =
    if series line = some s then (sample line).toList.map Prod.snd else [] := by
  rw [texts, samples, series]
  cases hs : sample line with
  | none => simp [hs]
  | some e =>
    by_cases he : seriesOf e.1 = s <;> simp [hs, he]

/-- Neighbouring lines of distinct series. -/
theorem texts_swap {a b : List Char} (h : ∀ s, series a = some s → series b ≠ some s) (s : Series) :
    texts [a, b] s = texts [b, a] s := by
  have hsplit : ∀ x y, texts [x, y] s = texts [x] s ++ texts [y] s := fun x y => texts_append [x] [y] s
  rw [hsplit, hsplit, texts_singleton, texts_singleton]
  by_cases ha : series a = some s
  · rw [if_neg (h s ha), List.append_nil, List.nil_append]
  · rw [if_neg ha, List.append_nil, List.nil_append]

/-- **Rearranging** a text changes nothing that it says of a series. -/
theorem Rearranged.texts_eq {lines lines' : List (List Char)} (h : Rearranged lines lines') :
    (WellFormed lines ↔ WellFormed lines') ∧ ∀ s, texts lines s = texts lines' s := by
  induction h with
  | refl lines => exact ⟨Iff.rfl, fun s => rfl⟩
  | symm _ ih => exact ⟨ih.1.symm, fun s => (ih.2 s).symm⟩
  | trans _ _ ih ih' => exact ⟨ih.1.trans ih'.1, fun s => (ih.2 s).trans (ih'.2 s)⟩
  | comment xs text ys =>
    have hsamples : samples (('#' :: text) :: ys) = samples ys := List.filterMap_cons_none rfl
    constructor
    · rw [wellFormed_append, wellFormed_append, WellFormed, WellFormed, WellFormed, hsamples]
    · intro s
      rw [texts_append, texts_append, texts, texts, texts, hsamples]
  | @swap xs a b ys h =>
    constructor
    · rw [wellFormed_append, wellFormed_append, wellFormed_cons a (b :: ys), wellFormed_cons b ys,
        wellFormed_cons b (a :: ys), wellFormed_cons a ys]
      exact and_congr_right fun _ => and_left_comm
    · intro s
      have hswap : texts [a] s ++ texts [b] s = texts [b] s ++ texts [a] s := by
        rw [← texts_append, ← texts_append]
        exact texts_swap h s
      rw [texts_append, texts_append, texts_cons a (b :: ys), texts_cons b ys, texts_cons b (a :: ys),
        texts_cons a ys, ← List.append_assoc (texts [a] s), hswap, List.append_assoc]
  | permute xs ys h hperm =>
    constructor
    · rw [wellFormed_append, wellFormed_append, wellFormed_cons _ ys, wellFormed_cons _ ys]
      exact and_congr_right fun _ => and_congr_left fun _ =>
        iff_of_true h.wellFormed (h.perm hperm).wellFormed
    · intro s
      rw [texts_append, texts_append, texts_cons _ ys, texts_cons _ ys, h.texts_eq hperm]

/-- **`metrics_idle`.**  On a well-formed text it answers `True` exactly when every sample is a
float and the last sample of each required series is the finite value wanted; rearranging does not
change the answer; a series that is missing, or whose last sample is anything else, makes it
`False`. -/
theorem metricsIdle_iff (float : List Char → Option Value) {text : String}
    (hlines : WellFormed (splitlines text.toList)) :
    (metricsIdle float text = true ↔ Idle float (splitlines text.toList)) ∧
    (∀ text' : String, Rearranged (splitlines text.toList) (splitlines text'.toList) →
      metricsIdle float text' = metricsIdle float text) ∧
    ∀ r ∈ required, (∀ t, (texts (splitlines text.toList) (seriesOf r.1)).getLast? = some t →
      float t ≠ some (.finite r.2)) → metricsIdle float text = false := by
  have hidle := @metricsIdle_eq_true float text hlines
  refine ⟨hidle, fun text' h => ?_, fun r hr hbad => ?_⟩
  · obtain ⟨hwf, htexts⟩ := h.texts_eq
    rw [Bool.eq_iff_iff, metricsIdle_eq_true (hwf.mp hlines), hidle]
    exact (idle_congr htexts).symm
  · rw [← Bool.not_eq_true, hidle]
    intro h
    obtain ⟨t, ht, hv⟩ := h.last r hr
    exact hbad t ht hv

/-- `float` of digits and of `NaN`. -/
def digitFloat (text : List Char) : Option Value :=
  if text = "NaN".toList then some .nan
  else if text ≠ [] ∧ text.all Char.isDigit = true then some (.finite (Json.natValue text))
  else none

/-- An idle platform; the labels of one series stand the other way round. -/
def exposition : String :=
  "# HELP inference_api_queue_depth Tasks\ninference_api_queue_depth 0\n" ++
  "inference_registered_workers 1\ninference_registered_workers 2\n" ++
  "inference_worker_queued_batches\x7bworker_id=\"73\"\x7d 0\r\n" ++
  "inference_worker_active_rpcs\x7bworker_id=\"73\"\x7d 0\n" ++
  "inference_worker_routing_state\x7bstate=\"READY\",worker_id=\"73\"\x7d 1\n" ++
  "inference_worker_queued_batches\x7bworker_id=\"122\"\x7d 0\n" ++
  "inference_worker_active_rpcs\x7bworker_id=\"122\"\x7d 0\n" ++
  "inference_worker_routing_state\x7bworker_id=\"122\",state=\"READY\"\x7d 1\n"

/-- What `values` holds after reading it. -/
def idleValues : List (List Char × Value) :=
  [("inference_api_queue_depth".toList, .finite 0),
    ("inference_registered_workers".toList, .finite 2),
    ("inference_worker_queued_batches\x7bworker_id=\"73\"\x7d".toList, .finite 0),
    ("inference_worker_active_rpcs\x7bworker_id=\"73\"\x7d".toList, .finite 0),
    ("inference_worker_routing_state\x7bstate=\"READY\",worker_id=\"73\"\x7d".toList, .finite 1),
    ("inference_worker_queued_batches\x7bworker_id=\"122\"\x7d".toList, .finite 0),
    ("inference_worker_active_rpcs\x7bworker_id=\"122\"\x7d".toList, .finite 0),
    ("inference_worker_routing_state\x7bstate=\"READY\",worker_id=\"122\"\x7d".toList, .finite 1)]

-- Line by line, so that no step decodes the whole text.
theorem record_exposition :
    (splitlines exposition.toList).foldlM (record digitFloat) [] = some idleValues := by
  unfold exposition
  simp only [String.toList_append, -String.reduceAppend]
  decide +kernel

theorem wellFormed_exposition : WellFormed (splitlines exposition.toList) := by
  unfold exposition
  simp only [String.toList_append, -String.reduceAppend]
  decide +kernel

theorem idle_exposition :
    metricsIdle digitFloat exposition = true ∧ Idle digitFloat (splitlines exposition.toList) := by
  have hidle : metricsIdle digitFloat exposition = true := by
    rw [metricsIdle, record_exposition]
    show (required.all fun r => holds idleValues r.1 r.2) = true
    decide +kernel
  exact ⟨hidle, (@metricsIdle_iff digitFloat exposition wellFormed_exposition).1.mp hidle⟩

end Inference.Deploy.Metrics
