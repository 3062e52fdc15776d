import Inference.V73.Artifacts

/-!
# Inference.V73.Download — `_download` read by read

`Artifacts.download` says what the loop makes of the bytes that it is given.  Here the body is asked
for `min(1 MiB, MAX_INPUT_BYTES + 1 - total)` bytes at a time and answers with any part of what it
has left, until it reports the end or raises; what is written goes to `input.download`, which is
installed as `input.wav` at the end and removed in any case.

* `fetch_spec`: one pass of the loop.
* **`download_exact`**: when the input is installed, and what is on disk afterwards.
* `downloadInput_installs`: what is installed is what `Artifacts.download` hands on.
-/

namespace Inference.V73

/-- A body: what its reads deliver when they are given room, and whether it raises at the end. -/
structure Body where
  chunks : List Bytes
  /-- a read that delivers nothing is the end -/
  nonempty : ∀ chunk ∈ chunks, chunk ≠ []
  raises : Bool := false

/-- All that the body delivers. -/
def Body.bytes (body : Body) : Bytes := body.chunks.flatten

/-- What `get_object` returns. -/
structure Object where
  contentLength : Option ℤ
  body : Body

/-- What the loop of `_download` did. -/
structure Fetched where
  outcome : Except Exn Unit
  /-- the contents of `input.download` -/
  written : Bytes
  /-- the arguments of `body.read` -/
  requests : List ℕ

/-- `min(1024 * 1024, MAX_INPUT_BYTES + 1 - total)` -/
def readSize (total : ℕ) : ℕ := min (1024 * 1024) (maxInputBytes + 1 - total)

/-- The `while True` loop, with the chunks that the body has left.  A read gets at most what it asked
for; the rest of a chunk stays. -/
def fetch (sizeBytes : ℕ) (raises : Bool) (chunks : List Bytes) (got : Bytes) : Fetched :=
  match chunks with
  | [] => {
      outcome := if raises then raiseRetryable .storageError "input download failed" else .ok ()
      written := got
      requests := [readSize got.length] }
  | chunk :: rest =>
    let n := readSize got.length
    let data := chunk.take n
    if data = [] then { outcome := .ok (), written := got, requests := [n] }
    else if (got ++ data).length > maxInputBytes ∨ (got ++ data).length > sizeBytes then
      { outcome := raise .inputIntegrityError "download exceeds declared input size"
        written := got
        requests := [n] }
    else
      let more := fetch sizeBytes raises
        (if chunk.length ≤ n then rest else chunk.drop n :: rest) (got ++ data)
      { more with requests := n :: more.requests }
termination_by chunks.flatten.length + chunks.length
decreasing_by
  rename_i hdata _
  have hpos : 0 < (chunk.take (readSize got.length)).length := List.length_pos_iff.mpr hdata
  rw [List.length_take] at hpos
  split
  · simp only [List.flatten_cons, List.length_append, List.length_cons]
    omega
  · simp only [List.flatten_cons, List.length_append, List.length_cons, List.length_drop]
    omega

/-- `input.wav` and `input.download`. -/
structure Disk where
  input : Option Bytes
  temporary : Option Bytes

structure Downloaded where
  outcome : Except Exn Unit
  disk : Disk
  /-- all that was written to `input.download` -/
  written : Bytes
  requests : List ℕ

variable (h : Host)

/-- `_download`, for what `self._client().get_object(…)` returns or raises. -/
def downloadInput (spec : Spec) (disk : Disk) (source : Except Exn Object) : Downloaded :=
  -- the `finally` clause
  let removed : Disk := { disk with temporary := none }
  match source with
  | .error (.worker e) =>
    { outcome := .error (.worker e), disk := removed, written := [], requests := [] }
  | .error _ =>
    { outcome := raiseRetryable .storageError "input download failed", disk := removed, written := []
      requests := [] }
  | .ok object =>
    if object.contentLength.getD spec.sizeBytes ≠ spec.sizeBytes then
      { outcome := raise .inputIntegrityError "download size differs from spec", disk := removed
        written := [], requests := [] }
    else
      let fetched := fetch spec.sizeBytes object.body.raises object.body.chunks []
      match fetched.outcome with
      | .error e =>
        { outcome := .error e, disk := removed, written := fetched.written
          requests := fetched.requests }
      | .ok () =>
        if fetched.written.length ≠ spec.sizeBytes ∨ h.sha256 fetched.written ≠ spec.sha256 then
          { outcome := raise .inputIntegrityError "download SHA256 or size differs from spec"
            disk := removed, written := fetched.written, requests := fetched.requests }
        else
          { outcome := .ok (), disk := { input := some fetched.written, temporary := none }
            written := fetched.written, requests := fetched.requests }

/-! ### The loop -/

theorem readSize_pos {total : ℕ} (ht : total ≤ maxInputBytes) : 0 < readSize total := by
  unfold readSize
  omega

/-- What is left after a read is what was there without what the read got. -/
theorem flatten_left (chunk : Bytes) (rest : List Bytes) (n : ℕ) :
    chunk.take n ++ (if chunk.length ≤ n then rest else chunk.drop n :: rest).flatten =
      (chunk :: rest).flatten := by
  split
  next hle => rw [List.take_of_length_le hle, List.flatten_cons]
  next => rw [List.flatten_cons, List.flatten_cons, ← List.append_assoc, List.take_append_drop]

theorem nonempty_left {chunk : Bytes} {rest : List Bytes} {n : ℕ}
    (hne : ∀ c ∈ chunk :: rest, c ≠ []) :
    ∀ c ∈ (if chunk.length ≤ n then rest else chunk.drop n :: rest), c ≠ [] := by
  have hrest : ∀ c ∈ rest, c ≠ [] := fun c hc => hne c (List.mem_cons_of_mem _ hc)
  split
  · exact hrest
  next hgt =>
    intro c hc
    rcases List.mem_cons.mp hc with rfl | hc
    · rw [← List.length_pos_iff, List.length_drop]
      omega
    · exact hrest c hc

/-- **The loop.**  It asks for something at every read, writes no more than the declared size, and
ends well exactly when the body does and fits; then it has written all of it. -/
theorem fetch_spec {size : ℕ} (hsize : size ≤ maxInputBytes) (raises : Bool) {chunks : List Bytes}
    {got : Bytes} (hne : ∀ c ∈ chunks, c ≠ []) (hgot : got.length ≤ size) :
    (∀ n ∈ (fetch size raises chunks got).requests, 0 < n) ∧
    (fetch size raises chunks got).written.length ≤ size ∧
    ((fetch size raises chunks got).outcome = .ok () ↔
      raises = false ∧ (got ++ chunks.flatten).length ≤ size) ∧
    ((fetch size raises chunks got).outcome = .ok () →
      (fetch size raises chunks got).written = got ++ chunks.flatten) := by
  have hpos := readSize_pos (hgot.trans hsize)
  induction hm : chunks.flatten.length + chunks.length using Nat.strong_induction_on
    generalizing chunks got with
  | _ m ih =>
    cases chunks with
    | nil =>
      rw [fetch, List.flatten_nil, List.append_nil]
      refine ⟨by simpa using hpos, hgot, ?_, fun _ => rfl⟩
      cases raises
      · simpa using hgot
      · simp [raiseRetryable]
    | cons chunk rest =>
      have hchunk : chunk ≠ [] := hne chunk List.mem_cons_self
      have hdata : chunk.take (readSize got.length) ≠ [] := by
        rw [← List.length_pos_iff, List.length_take]
        have := List.length_pos_iff.mpr hchunk
        omega
      have hleft := flatten_left chunk rest (readSize got.length)
      have hwhole : got ++ (chunk :: rest).flatten = got ++ chunk.take (readSize got.length) ++
          (if chunk.length ≤ readSize got.length then rest
            else chunk.drop (readSize got.length) :: rest).flatten := by
        rw [List.append_assoc, hleft]
      rw [fetch]
      simp only [if_neg hdata]
      by_cases hbig : (got ++ chunk.take (readSize got.length)).length > maxInputBytes ∨
          (got ++ chunk.take (readSize got.length)).length > size
      · rw [if_pos hbig, hwhole]
        refine ⟨by simpa using hpos, hgot, ?_, nofun⟩
        constructor
        · nofun
        · rintro ⟨-, hfits⟩
          rw [List.length_append] at hfits
          omega
      · rw [if_neg hbig, hwhole]
        have hmeasure : (if chunk.length ≤ readSize got.length then rest
            else chunk.drop (readSize got.length) :: rest).flatten.length +
            (if chunk.length ≤ readSize got.length then rest
              else chunk.drop (readSize got.length) :: rest).length < m := by
          have hlen := congrArg List.length hleft
          have hgained := List.length_pos_iff.mpr hdata
          rw [List.length_append] at hlen
          have hcount : (if chunk.length ≤ readSize got.length then rest
              else chunk.drop (readSize got.length) :: rest).length ≤ rest.length + 1 := by
            split
            · exact Nat.le_succ _
            · exact Nat.le_refl _
          rw [List.length_cons] at hm
          omega
        have hfits : (got ++ chunk.take (readSize got.length)).length ≤ size := by omega
        obtain ⟨hrequests, hwritten, hok, hall⟩ := ih _ hmeasure (nonempty_left hne) hfits
          (readSize_pos (hfits.trans hsize)) rfl
        refine ⟨?_, hwritten, hok, hall⟩
        intro n hn
        rcases List.mem_cons.mp hn with rfl | hn
        · exact hpos
        · exact hrequests n hn

/-! ### The whole download -/

/-- The body is the declared input. -/
structure Object.Exact (h : Host) (spec : Spec) (object : Object) : Prop where
  ends : object.body.raises = false
  size : object.body.bytes.length = spec.sizeBytes
  sha256 : h.sha256 object.body.bytes = spec.sha256
  length : object.contentLength.getD spec.sizeBytes = spec.sizeBytes

/-- The two ways `_download` ends. -/
theorem downloadInput_cases (h : Host) (spec : Spec) (disk : Disk) (object : Object) :
    (object.Exact h spec ∧ (downloadInput h spec disk (.ok object)).outcome = .ok () ∧
        (downloadInput h spec disk (.ok object)).disk = ⟨some object.body.bytes, none⟩ ∨
      ¬ object.Exact h spec ∧ (∃ e, (downloadInput h spec disk (.ok object)).outcome = .error e) ∧
        (downloadInput h spec disk (.ok object)).disk = ⟨disk.input, none⟩) ∧
    (∀ n ∈ (downloadInput h spec disk (.ok object)).requests, 0 < n) ∧
    (downloadInput h spec disk (.ok object)).written.length ≤ spec.sizeBytes := by
  have hnil : ([] : Bytes).length ≤ spec.sizeBytes := Nat.zero_le _
  obtain ⟨hrequests, hwritten, hok, hall⟩ :=
    fetch_spec spec.le_max object.body.raises object.body.nonempty hnil
  rw [List.nil_append] at hok hall
  unfold downloadInput
  simp only
  split
  next hlength =>
    exact ⟨Or.inr ⟨fun hx => hlength hx.length, ⟨_, rfl⟩, rfl⟩, by simp, Nat.zero_le _⟩
  next hlength =>
    split
    next e he =>
      refine ⟨Or.inr ⟨fun hx => ?_, ⟨e, rfl⟩, rfl⟩, hrequests, hwritten⟩
      have hdone := hok.mpr ⟨hx.ends, hx.size.le⟩
      rw [he] at hdone
      cases hdone
    next hdone =>
      have hsame : (fetch spec.sizeBytes object.body.raises object.body.chunks []).written =
          object.body.bytes := hall hdone
      split
      next hbad =>
        refine ⟨Or.inr ⟨fun hx => ?_, ⟨_, rfl⟩, rfl⟩, hrequests, hwritten⟩
        rw [hsame] at hbad
        exact hbad.elim (absurd hx.size) (absurd hx.sha256)
      next hgood =>
        rw [hsame, not_or, not_not, not_not] at hgood
        refine ⟨Or.inl ⟨⟨(hok.mp hdone).1, hgood.1, hgood.2, not_not.mp hlength⟩, rfl, ?_⟩, hrequests,
          hwritten⟩
        rw [hsame]

/-- `Artifacts.download` hands on the bytes of an exact body. -/
theorem download_eq_ok (h : Host) (spec : Spec) (object : Object)
    (hends : object.body.raises = false) (hconfigured : h.configured = true) (data : Bytes) :
    download h spec object.contentLength object.body.chunks = .ok data ↔
      object.Exact h spec ∧ object.body.bytes = data := by
  have hnil : ([] : Bytes).length ≤ spec.sizeBytes := Nat.zero_le _
  rw [download, hconfigured, readLoop_eq spec.le_max object.body.nonempty hnil, List.nil_append,
    ← Body.bytes, if_neg (by decide)]
  split
  next hlength => exact ⟨(fun hdata => by cases hdata), fun hx => absurd hx.1.length hlength⟩
  next hlength =>
    rw [bind_eq_ok]
    constructor
    · rintro ⟨got, hgot, hdata⟩
      split at hgot
      · obtain rfl := Except.ok.inj hgot
        split at hdata
        · cases hdata
        next hgood =>
          rw [not_or, not_not, not_not] at hgood
          exact ⟨⟨hends, hgood.1, hgood.2, not_not.mp hlength⟩, Except.ok.inj hdata⟩
      · cases hgot
    · rintro ⟨hx, rfl⟩
      refine ⟨object.body.bytes, if_pos hx.size.le, ?_⟩
      rw [if_neg (by rw [not_or, not_not, not_not]; exact ⟨hx.size, hx.sha256⟩)]
      rfl

/-- **The two models of `_download` agree** on what is installed. -/
theorem downloadInput_installs (h : Host) (spec : Spec) (disk : Disk) (object : Object)
    (hends : object.body.raises = false) (hconfigured : h.configured = true) (data : Bytes) :
    download h spec object.contentLength object.body.chunks = .ok data ↔
      (downloadInput h spec disk (.ok object)).outcome = .ok () ∧ object.body.bytes = data := by
  rw [download_eq_ok h spec object hends hconfigured]
  rcases (downloadInput_cases h spec disk object).1 with ⟨hexact, hok, -⟩ | ⟨hnot, ⟨e, he⟩, -⟩
  · exact ⟨fun hx => ⟨hok, hx.2⟩, fun hx => ⟨hexact, hx.2⟩⟩
  · refine ⟨fun hx => absurd hx.1 hnot, fun hx => ?_⟩
    rw [he] at hx
    cases hx.1

/-! The right bytes, and then an exception where the end should be reported. -/

end Inference.V73
