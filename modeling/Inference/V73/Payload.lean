import Inference.Encoding
import Inference.V73.Artifacts

/-!
# Inference.V73.Payload — `validate_payload`, and the way of a spec from the gateway to the worker

The gateway hashes the canonical bytes of the row's spec, puts the spec into the task envelope and
the pool prints that with `json.dumps`; the worker parses the text and validates it.

* `Valid`: what a spec that is accepted looks like.
* `validatePayload_ok`: what `validate_payload` returns.
* **`fingerprint_faithful`**: gateway and worker compute the same fingerprint, the spec comes back
  as it was sent, and the fingerprint separates specs.
-/

namespace Inference.V73

open Inference.Json (Same canonicalText loads loadsBytes print defaultStyle sortKeys)

/-- The library functions that `validate_payload` calls. -/
structure Library where
  /-- `str(uuid.UUID(value))`, or the text of the `ValueError` it raises -/
  uuid : String → Except String String
  /-- `hashlib.sha256(data).hexdigest()` -/
  sha256 : Bytes → String
  /-- `repr(float(text))` -/
  repr : String → String

variable (lib : Library)

/-- `value[key]`, where the key is there. -/
def field (v : Json) (key : String) : Json := (v.get? key).getD .null

/-- `isinstance(value, dict) and set(value) == {…}` -/
def keysAre (names : List String) : Json → Bool
  | .obj fields =>
    (fields.all fun e => names.contains e.1) && names.all fun name => fields.any fun e => e.1 == name
  | _ => false

/-- `_uuid` -/
def uuidOk : Json → Except String Bool
  | .str s => (lib.uuid s).map (· == s)
  | _ => .ok false

/-- `x and y`, where either may raise. -/
def andThen (x y : Except String Bool) : Except String Bool :=
  match x with
  | .ok true => y
  | r => r

/-- `if …: raise ValueError(message)` -/
def reject (bad : Bool) (message : String) : Except String Unit :=
  if bad then .error message else .ok ()

/-- `re.fullmatch('[0-9a-f]{64}', text)` -/
def isDigest (text : String) : Bool :=
  text.toList.length == 64 && text.toList.all fun c => c.isDigit || ('a' ≤ c && c ≤ 'f')

def textOf : Json → String
  | .str s => s
  | _ => ""

/-- `f"projects/{spec['project_id']}/jobs/{spec['job_id']}/"` -/
def baseOf (spec : Json) : String :=
  "projects/" ++ textOf (field spec "project_id") ++ "/jobs/" ++ textOf (field spec "job_id") ++ "/"

def envelopeFields : List String := ["kind", "spec", "attempt_id"]

def specFields : List String :=
  ["job_id", "project_id", "user_id", "model", "checkpoint_sha256", "mode", "input", "output_prefix"]

def inputFields : List String := ["bucket", "key", "sha256", "size_bytes"]

/-- The checks on `spec['input']`, and on `output_prefix` between them. -/
def checkInput (spec : Json) : Except String Unit := do
  let inp := field spec "input"
  reject (!keysAre inputFields inp) "invalid input fields"
  reject (field inp "bucket" ≠ .str "synthx-jobs" ||
    field inp "key" ≠ .str (baseOf spec ++ "input.wav")) "input storage location does not match job"
  reject (field spec "output_prefix" ≠ .str (baseOf spec ++ "results/"))
    "output prefix does not match job"
  reject (match field inp "size_bytes" with
    | .int n => !(0 < n && n ≤ maxInputBytes)
    | _ => true) "input must be between 1 byte and 50 MiB"
  reject (match field inp "sha256" with
    | .str s => !isDigest s
    | _ => true) "invalid input SHA256"

/-- The checks on `spec`. -/
def checkSpec (spec : Json) : Except String Unit := do
  reject (!keysAre specFields spec) "unexpected spec fields"
  let both ← andThen (uuidOk lib (field spec "job_id")) (uuidOk lib (field spec "project_id"))
  reject (!both) "job and project must be canonical UUIDs"
  reject (match field spec "user_id" with
    | .str s => s == ""
    | _ => true) "user_id is required"
  reject (field spec "model" ≠ .str "v7_3_full" ||
    field spec "checkpoint_sha256" ≠ .str checkpointSha256)
    "model or checkpoint does not match pinned release"
  reject (field spec "mode" ≠ .str "poly" && field spec "mode" ≠ .str "mono")
    "mode must be poly or mono"
  checkInput spec

/-- `_canonical` -/
def canonical (v : Json) : Except String Bytes :=
  if v.finite then .ok (canonicalText v)
  else .error "Out of range float values are not JSON compliant"

/-- The body of `validate_payload`, with the text of the exception that its handler catches. -/
def checkPayload (payload : Json) : Except String (Json × String) := do
  reject (!keysAre envelopeFields payload) "invalid task envelope"
  let both ← andThen (.ok (field payload "kind" = .str "synthx_v73"))
    (uuidOk lib (field payload "attempt_id"))
  reject (!both) "invalid task kind or attempt UUID"
  checkSpec lib (field payload "spec")
  let data ← canonical (field payload "spec")
  match loadsBytes lib.repr data with
  | some spec => return (spec, lib.sha256 data)
  | none => .error "invalid JSON"

/-- `validate_payload` -/
def validatePayload (payload : Json) : Except WorkerError (Json × String) :=
  match checkPayload lib payload with
  | .ok r => .ok r
  | .error message => .error { code := .invalidSpec, message }

/-- The fingerprint of `JobGateway._enqueue`. -/
def enqueueFingerprint (spec : Json) : String := lib.sha256 (canonicalText spec)

/-- The `input_data` of the task that `_enqueue` puts. -/
def inputData (spec : Json) (attemptId : String) : Json :=
  .obj [("kind", .str "synthx_v73"), ("spec", spec), ("attempt_id", .str attemptId)]

/-- `json.dumps(task.input_data)`, the `input_json` of the request. -/
def inputJson (input : Json) : String := String.ofList (print defaultStyle input)

variable {lib}

/-! ### What is accepted -/

theorem reject_eq_ok {bad : Bool} {message : String} {u : Unit} :
    reject bad message = .ok u ↔ bad = false := by
  cases bad <;> simp [reject]

/-- A spec as `validate_payload` accepts it. -/
structure Valid (spec : Json) : Prop where
  keys : keysAre specFields spec = true
  jobId : ∃ s, field spec "job_id" = .str s
  projectId : ∃ s, field spec "project_id" = .str s
  userId : ∃ s, field spec "user_id" = .str s ∧ s ≠ ""
  model : field spec "model" = .str "v7_3_full"
  checkpoint : field spec "checkpoint_sha256" = .str checkpointSha256
  mode : ∃ m : Mode, field spec "mode" = .str m.text
  inputKeys : keysAre inputFields (field spec "input") = true
  bucket : field (field spec "input") "bucket" = .str "synthx-jobs"
  key : field (field spec "input") "key" = .str (baseOf spec ++ "input.wav")
  outputPrefix : field spec "output_prefix" = .str (baseOf spec ++ "results/")
  sizeBytes : ∃ n : ℕ, field (field spec "input") "size_bytes" = .int n ∧ 0 < n ∧ n ≤ maxInputBytes
  sha256 : ∃ s, field (field spec "input") "sha256" = .str s ∧ isDigest s = true

theorem uuidOk_str {v : Json} (hv : uuidOk lib v = .ok true) : ∃ s, v = .str s := by
  cases v with
  | str s => exact ⟨s, rfl⟩
  | null | bool _ | int _ | float _ | arr _ | obj _ => cases hv

theorem andThen_eq_true {x y : Except String Bool} :
    andThen x y = .ok true ↔ x = .ok true ∧ y = .ok true := by
  unfold andThen
  split
  · simp
  next hx =>
    constructor
    · intro h
      exact absurd h hx
    · rintro ⟨h, -⟩
      exact absurd h hx

theorem checkSpec_ok {spec : Json} (hs : checkSpec lib spec = .ok ()) : Valid spec := by
  simp only [checkSpec, checkInput, bind_eq_ok, reject_eq_ok] at hs
  obtain ⟨_, hkeys, both, huuid, _, hboth, _, huser, _, hmodel, _, hmode, _, hinput, _, hstorage, _,
    hprefix, _, hsize, hsha⟩ := hs
  have hboth : both = true := by simpa using hboth
  rw [hboth, andThen_eq_true] at huuid
  simp only [Bool.or_eq_false_iff, Bool.and_eq_false_iff, decide_eq_false_iff_not, not_not] at *
  refine ⟨by simpa using hkeys, uuidOk_str huuid.1, uuidOk_str huuid.2, ?_, hmodel.1, hmodel.2, ?_,
    by simpa using hinput, hstorage.1, hstorage.2, hprefix, ?_, ?_⟩
  · split at huser
    next s hs => exact ⟨s, hs, by simpa using huser⟩
    next => cases huser
  · rcases hmode with hmode | hmode
    · exact ⟨.poly, hmode⟩
    · exact ⟨.mono, hmode⟩
  · split at hsize
    next n hn =>
      simp only [Bool.not_eq_false', Bool.and_eq_true, decide_eq_true_eq] at hsize
      obtain ⟨m, rfl⟩ := Int.eq_ofNat_of_zero_le hsize.1.le
      exact ⟨m, hn, by omega, by omega⟩
    next => cases hsize
  · split at hsha
    next s hs => exact ⟨s, hs, by simpa using hsha⟩
    next => cases hsha

theorem lookup_of_mem {fields : List (String × Json)} (hkeys : (fields.map Prod.fst).Nodup)
    {e : String × Json} (he : e ∈ fields) : fields.lookup e.1 = some e.2 := by
  induction fields with
  | nil => cases he
  | cons a fields ih =>
    rw [List.map_cons, List.nodup_cons] at hkeys
    rcases List.mem_cons.mp he with rfl | he
    · rw [List.lookup_cons, beq_self_eq_true]
    · have hne : (e.1 == a.1) = false := by
        rw [beq_eq_false_iff_ne]
        exact fun h => hkeys.1 (h ▸ List.mem_map_of_mem he)
      rw [List.lookup_cons, hne]
      exact ih hkeys.2 he

/-- The values of an object with each key once are what its keys look up. -/
theorem forall_of_keysAre {names : List String} {fields : List (String × Json)}
    (hd : (fields.map Prod.fst).Nodup) (hk : keysAre names (.obj fields) = true)
    {p : Json → Prop} (hv : ∀ name ∈ names, p (field (.obj fields) name)) :
    ∀ e ∈ fields, p e.2 := by
  intro e he
  rw [keysAre, Bool.and_eq_true, List.all_eq_true] at hk
  have hname := hv e.1 (by simpa using hk.1 e he)
  rw [field, Json.get?, lookup_of_mem hd he] at hname
  exact hname

/-- An object with each key once, whose values are plain. -/
theorem plain_of_keysAre {names : List String} {v : Json} (hd : v.distinct = true)
    (hk : keysAre names v = true) (hv : ∀ name ∈ names, (field v name).plain = true) :
    v.plain = true := by
  cases v with
  | obj fields =>
    rw [Json.distinct, Bool.and_eq_true, decide_eq_true_eq] at hd
    rw [Json.plain, Bool.and_eq_true, decide_eq_true_eq, Json.plainFields_eq_all, List.all_eq_true]
    exact ⟨hd.1, forall_of_keysAre (p := fun v => v.plain = true) hd.1 hk hv⟩
  | null | bool _ | int _ | float _ | str _ | arr _ => cases hk

theorem distinct_field {v : Json} (hd : v.distinct = true) (key : String) :
    (field v key).distinct = true := by
  cases v with
  | obj fields =>
    rw [Json.distinct, Bool.and_eq_true, Json.distinctFields_eq_all, List.all_eq_true] at hd
    cases hl : fields.lookup key with
    | none =>
      rw [field, Json.get?, hl]
      rfl
    | some x =>
      rw [field, Json.get?, hl]
      obtain ⟨l₁, l₂, rfl, -⟩ := List.lookup_eq_some_iff.mp hl
      exact hd.2 (key, x) (by simp)
  | null | bool _ | int _ | float _ | str _ | arr _ => rfl

/-- Strings and one integer. -/
theorem Valid.inputScalars {spec : Json} (hv : Valid spec) : ∀ name ∈ inputFields,
    (∃ s, field (field spec "input") name = .str s) ∨
      ∃ n : ℤ, field (field spec "input") name = .int n := by
  obtain ⟨n, hsize, -⟩ := hv.sizeBytes
  obtain ⟨s, hsha, -⟩ := hv.sha256
  intro name hname
  simp only [inputFields, List.mem_cons, List.not_mem_nil, or_false] at hname
  rcases hname with rfl | rfl | rfl | rfl
  · exact .inl ⟨_, hv.bucket⟩
  · exact .inl ⟨_, hv.key⟩
  · exact .inl ⟨_, hsha⟩
  · exact .inr ⟨_, hsize⟩

/-- Strings, `input` apart. -/
theorem Valid.scalars {spec : Json} (hv : Valid spec) : ∀ name ∈ specFields,
    name = "input" ∨ ∃ s, field spec name = .str s := by
  obtain ⟨user, huser, -⟩ := hv.userId
  obtain ⟨mode, hmode⟩ := hv.mode
  intro name hname
  simp only [specFields, List.mem_cons, List.not_mem_nil, or_false] at hname
  rcases hname with rfl | rfl | rfl | rfl | rfl | rfl | rfl | rfl
  · exact .inr hv.jobId
  · exact .inr hv.projectId
  · exact .inr ⟨_, huser⟩
  · exact .inr ⟨_, hv.model⟩
  · exact .inr ⟨_, hv.checkpoint⟩
  · exact .inr ⟨_, hmode⟩
  · exact .inl rfl
  · exact .inr ⟨_, hv.outputPrefix⟩

/-- An accepted spec has no floats. -/
theorem Valid.plain {spec : Json} (hv : Valid spec) (hd : spec.distinct = true) :
    spec.plain = true := by
  have hinput : (field spec "input").plain = true := by
    refine plain_of_keysAre (distinct_field hd _) hv.inputKeys fun name hname => ?_
    rcases hv.inputScalars name hname with ⟨s, hs⟩ | ⟨n, hn⟩
    · rw [hs]
      rfl
    · rw [hn]
      rfl
  refine plain_of_keysAre hd hv.keys fun name hname => ?_
  rcases hv.scalars name hname with rfl | ⟨s, hs⟩
  · exact hinput
  · rw [hs]
    rfl

theorem validatePayload_eq_ok {payload : Json} {r : Json × String} :
    validatePayload lib payload = .ok r ↔ checkPayload lib payload = .ok r := by
  rw [validatePayload]
  cases checkPayload lib payload <;> simp

/-- **What `validate_payload` returns**: the spec with its keys sorted, and the hash of its canonical
bytes. -/
theorem validatePayload_ok {payload : Json} {r : Json × String} (hd : payload.distinct = true)
    (hr : validatePayload lib payload = .ok r) :
    Valid (field payload "spec") ∧ (field payload "spec").plain = true ∧
      canonical (field payload "spec") = .ok (canonicalText (field payload "spec")) ∧
      r = (sortKeys (field payload "spec"), lib.sha256 (canonicalText (field payload "spec"))) := by
  have hcheck := validatePayload_eq_ok.mp hr
  simp only [checkPayload, bind_eq_ok] at hcheck
  obtain ⟨_, -, _, -, _, -, _, hspec, data, hdata, hloads⟩ := hcheck
  have hvalid : Valid (field payload "spec") := checkSpec_ok hspec
  have hplain := hvalid.plain (distinct_field hd "spec")
  have hcanonical : data = canonicalText (field payload "spec") := by
    unfold canonical at hdata
    split at hdata
    · exact (Except.ok.inj hdata).symm
    · cases hdata
  rw [hcanonical, Json.loadsBytes_canonicalText lib.repr hplain] at hloads
  exact ⟨hvalid, hplain, hcanonical ▸ hdata, (Except.ok.inj hloads).symm⟩

/-- A spec that passes the checks is accepted in the gateway's envelope. -/
theorem validatePayload_inputData {spec : Json} (attemptId : String) (hd : spec.distinct = true)
    (hfinite : spec.finite = true) (hattempt : lib.uuid attemptId = .ok attemptId)
    (hspec : checkSpec lib spec = .ok ()) :
    validatePayload lib (inputData spec attemptId) =
      .ok (sortKeys spec, lib.sha256 (canonicalText spec)) := by
  have hplain := (checkSpec_ok hspec).plain hd
  have huuid : uuidOk lib (.str attemptId) = .ok true := by
    rw [uuidOk, hattempt]
    simp [Except.map]
  have hcheck : checkPayload lib (inputData spec attemptId) =
      .ok (sortKeys spec, lib.sha256 (canonicalText spec)) := by
    have hkeys : keysAre envelopeFields (inputData spec attemptId) = true := by
      simp [keysAre, envelopeFields, inputData]
    rw [checkPayload, hkeys]
    simp only [bind_eq_ok, reject_eq_ok]
    refine ⟨(), rfl, true, andThen_eq_true.mpr ⟨by simp [field, inputData, Json.get?], huuid⟩, (), rfl,
      (), hspec, canonicalText spec, if_pos hfinite, ?_⟩
    rw [Json.loadsBytes_canonicalText lib.repr hplain]
    rfl
  rw [validatePayload, hcheck]

/-! ### The specs of the worker's model -/

/-- The JSON object that a `Spec` stands for. -/
def Spec.json (spec : Spec) : Json :=
  .obj [("job_id", .str spec.jobId), ("project_id", .str spec.projectId),
    ("user_id", .str spec.userId), ("model", .str "v7_3_full"),
    ("checkpoint_sha256", .str checkpointSha256), ("mode", .str spec.mode.text),
    ("input", .obj [("bucket", .str "synthx-jobs"),
      ("key", .str ("projects/" ++ spec.projectId ++ "/jobs/" ++ spec.jobId ++ "/" ++ "input.wav")),
      ("sha256", .str spec.sha256), ("size_bytes", .int spec.sizeBytes)]),
    ("output_prefix",
      .str ("projects/" ++ spec.projectId ++ "/jobs/" ++ spec.jobId ++ "/" ++ "results/"))]

theorem Spec.plain_json (spec : Spec) : spec.json.plain = true := by
  simp [Spec.json, Json.plain, Json.plainFields]

/-- An object with the keys `names` is the list of its fields, up to their order. -/
theorem same_fields {names : List String} (hnames : names.Nodup) {v : Json}
    (hd : v.distinct = true) (hk : keysAre names v = true) :
    Same v (.obj (names.map fun name => (name, field v name))) := by
  cases v with
  | obj fields =>
    rw [Json.distinct, Bool.and_eq_true, decide_eq_true_eq] at hd
    rw [keysAre, Bool.and_eq_true, List.all_eq_true, List.all_eq_true] at hk
    have hvalue : ∀ e ∈ fields, field (.obj fields) e.1 = e.2 := by
      intro e he
      rw [field, Json.get?, lookup_of_mem hd.1 he]
      rfl
    refine .reorder ((List.perm_ext_iff_of_nodup hd.1.of_map ?_).mpr fun e => ?_)
    · refine hnames.map ?_
      exact fun a b h => (Prod.mk.inj h).1
    · constructor
      · intro he
        refine List.mem_map.mpr ⟨e.1, by simpa using hk.1 e he, ?_⟩
        rw [hvalue e he]
      · intro he
        obtain ⟨name, hname, rfl⟩ := List.mem_map.mp he
        obtain ⟨x, hx, hkey⟩ := List.any_eq_true.mp (hk.2 name hname)
        obtain rfl : x.1 = name := by simpa using hkey
        rw [hvalue x hx]
        exact hx
  | null | bool _ | int _ | float _ | str _ | arr _ => cases hk

/-- **Every accepted spec is a `Spec`.** -/
theorem Valid.same_json {v : Json} (hv : Valid v) (hd : v.distinct = true) :
    ∃ spec : Spec, Same v spec.json := by
  obtain ⟨job, hjob⟩ := hv.jobId
  obtain ⟨project, hproject⟩ := hv.projectId
  obtain ⟨user, huser, -⟩ := hv.userId
  obtain ⟨mode, hmode⟩ := hv.mode
  obtain ⟨size, hsize, hpos, hle⟩ := hv.sizeBytes
  obtain ⟨digest, hsha, -⟩ := hv.sha256
  have hbase : baseOf v = "projects/" ++ project ++ "/jobs/" ++ job ++ "/" := by
    rw [baseOf, hjob, hproject]
    rfl
  have hinput := same_fields (by decide) (distinct_field hd "input") hv.inputKeys
  have hspec := same_fields (by decide) hd hv.keys
  simp only [inputFields, List.map_cons, List.map_nil, hv.bucket, hv.key, hsha, hsize] at hinput
  simp only [specFields, List.map_cons, List.map_nil, hjob, hproject, huser, hv.model,
    hv.checkpoint, hmode, hv.outputPrefix] at hspec
  rw [hbase] at hinput hspec
  refine ⟨⟨job, project, user, mode, digest, size, hpos, hle⟩, hspec.trans ?_⟩
  exact .field [_, _, _, _, _, _] "input" [_] hinput

theorem Spec.same_json {spec spec' : Spec} (h : Same spec.json spec'.json) : spec = spec' := by
  have hsort := h.sortKeys_eq (Json.distinct_of_plain _ spec.plain_json)
  have hget : ∀ key, (spec.json.get? key).map sortKeys = (spec'.json.get? key).map sortKeys := by
    intro key
    rw [← Json.get?_sortKeys, hsort, Json.get?_sortKeys]
  have hstr : ∀ {s t : String}, some (sortKeys (.str s)) = some (sortKeys (.str t)) → s = t := by
    intro s t hst
    simpa using hst
  have hjob := hstr (hget "job_id")
  have hproject := hstr (hget "project_id")
  have huser := hstr (hget "user_id")
  have hmode := hstr (hget "mode")
  have hinput : ∀ key, ((field spec.json "input").get? key).map sortKeys =
      ((field spec'.json "input").get? key).map sortKeys := by
    intro key
    have hsame : sortKeys (field spec.json "input") = sortKeys (field spec'.json "input") :=
      Option.some.inj (hget "input")
    rw [← Json.get?_sortKeys, hsame, Json.get?_sortKeys]
  have hsha := hstr (hinput "sha256")
  have hsize : spec.sizeBytes = spec'.sizeBytes := by
    have hint := Option.some.inj (hinput "size_bytes")
    simpa [sortKeys] using hint
  obtain ⟨job, project, user, mode, digest, size, hpos, hle⟩ := spec
  obtain ⟨job', project', user', mode', digest', size', hpos', hle'⟩ := spec'
  simp only at hjob hproject huser hmode hsha hsize
  have hmode' : mode = mode' := by
    have hinj : ∀ m m' : Mode, m.text = m'.text → m = m' := by
      intro m m'
      cases m <;> cases m' <;> decide
    exact hinj mode mode' hmode
  rw [Spec.mk.injEq]
  exact ⟨hjob, hproject, huser, hmode', hsha, hsize⟩

/-- The fingerprint of a `Spec` of the worker's model. -/
def Spec.fingerprint (lib : Library) (spec : Spec) : String := enqueueFingerprint lib spec.json

theorem Spec.fingerprint_injective (hsha : Function.Injective lib.sha256) :
    Function.Injective (Spec.fingerprint lib) := by
  intro spec spec' h
  exact Spec.same_json ((Json.canonicalText_inj spec.plain_json spec'.plain_json).mp (hsha h))

/-! ### From the gateway to the worker -/

/-- **Gateway and worker agree.**  A spec that is accepted comes through the envelope, the wire and
the parser as it was, with the fingerprint that the gateway computed; and of two accepted payloads,
whatever their attempts, the canonical bytes of the specs and the fingerprints are equal iff the
specs are the same. -/
theorem fingerprint_faithful (hsha : Function.Injective lib.sha256) :
    (∀ (spec : Json) (attemptId : String) (r : Json × String), spec.distinct = true →
      validatePayload lib (inputData spec attemptId) = .ok r →
      ∃ received r', loads lib.repr (inputJson (inputData spec attemptId)) = some received ∧
        validatePayload lib received = .ok r' ∧ r'.2 = enqueueFingerprint lib spec ∧
        Same r'.1 spec) ∧
    (∀ (p p' : Json) (r r' : Json × String), p.distinct = true → p'.distinct = true →
      validatePayload lib p = .ok r → validatePayload lib p' = .ok r' →
      (canonical (field p "spec") = canonical (field p' "spec") ↔
        Same (field p "spec") (field p' "spec")) ∧
      (r.2 = r'.2 ↔ Same (field p "spec") (field p' "spec"))) := by
  constructor
  · intro spec attemptId r hd hr
    have hfield : field (inputData spec attemptId) "spec" = spec := rfl
    have hdistinct : (inputData spec attemptId).distinct = true := by
      simp [inputData, Json.distinct, Json.distinctFields, hd]
    obtain ⟨-, hplain, -, rfl⟩ := validatePayload_ok hdistinct hr
    rw [hfield] at hplain hr
    have hwire : (inputData spec attemptId).plain = true := by
      simp [inputData, Json.plain, Json.plainFields, hplain]
    refine ⟨_, _, Json.loads_print defaultStyle lib.repr hwire, hr, rfl, ?_⟩
    exact (Json.same_sortKeys spec).symm
  · intro p p' r r' hp hp' hr hr'
    obtain ⟨-, hplain, hcanonical, rfl⟩ := validatePayload_ok hp hr
    obtain ⟨-, hplain', hcanonical', rfl⟩ := validatePayload_ok hp' hr'
    have hbytes := Json.canonicalText_inj hplain hplain'
    refine ⟨?_, ?_⟩
    · rw [hcanonical, hcanonical', Except.ok.injEq]
      exact hbytes
    · exact hsha.eq_iff.trans hbytes

/-! A spec with characters that the two encodings print differently. -/

/-- A hash without collisions: the bytes as characters. -/
def bytesText (data : Bytes) : String := String.ofList (data.map fun b => Char.ofNat b.toNat)

theorem bytesText_injective : Function.Injective bytesText := by
  have hbyte : Function.Injective fun b : UInt8 => Char.ofNat b.toNat := by
    have hall : ∀ a : Fin 256, (Char.ofNat a.val).toNat = a.val := by decide +kernel
    have hnat : ∀ a : UInt8, (Char.ofNat a.toNat).toNat = a.toNat :=
      fun a => hall ⟨a.toNat, a.toNat_lt⟩
    intro a b h
    have htoNat : (Char.ofNat a.toNat).toNat = (Char.ofNat b.toNat).toNat := congrArg Char.toNat h
    rw [hnat, hnat] at htoNat
    exact UInt8.toNat_inj.mp htoNat
  intro a b h
  exact List.map_injective_iff.mpr hbyte (String.ofList_injective h)

def textLibrary : Library where
  uuid := .ok
  sha256 := bytesText
  repr := id

def accentSpec : Spec where
  jobId := "00000000-0000-4000-8000-000000000001"
  projectId := "00000000-0000-4000-8000-000000000002"
  userId := "Jürgen \"🎹\"\n"
  mode := .mono
  sha256 := "0123456789abcdef0123456789abcdef0123456789abcdef0123456789abcdef"
  sizeBytes := 44
  pos := by decide
  le_max := by decide

def accentInput : Json := inputData accentSpec.json "00000000-0000-4000-8000-000000000003"

theorem fingerprint_faithful_accent :
    inputJson (.str accentSpec.userId) = "\"J\\u00fcrgen \\\"\\ud83c\\udfb9\\\"\\n\"" ∧
    ∃ received r, loads id (inputJson accentInput) = some received ∧
      validatePayload textLibrary received = .ok r ∧
      r.2 = enqueueFingerprint textLibrary accentSpec.json ∧ Same r.1 accentSpec.json := by
  refine ⟨by decide +kernel, ?_⟩
  have hdistinct := Json.distinct_of_plain _ accentSpec.plain_json
  have hcheck : checkSpec textLibrary accentSpec.json = .ok () := by decide +kernel
  have hok := validatePayload_inputData "00000000-0000-4000-8000-000000000003" hdistinct
    (by decide +kernel) rfl hcheck
  have hsha : Function.Injective textLibrary.sha256 := bytesText_injective
  exact (fingerprint_faithful hsha).1 _ _ _ hdistinct hok

end Inference.V73
