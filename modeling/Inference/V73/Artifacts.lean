import Inference.Canonical

/-!
# Inference.V73.Artifacts — the checks of `worker_v73.py` on inputs and outputs

The parts of the V7.3 bridge that read and judge and write nothing themselves: `_safe_path`,
`_read_json`, the loop of `_download`, `_recover_response`, `_verify_path`, `_verify_manifest` and
`_upload_result` up to the uploads.  The file system is what the operating system answers:
`resolve` is `Path.resolve`, which may raise.

* `readLoop_eq`: the download depends on the bytes delivered, not on how they were cut.
* `uploadResult_congr`: `_upload_result` reads five things of a response.
* `Leads`, `leads_unique`: the one final outcome a response can lead to, read back or not.
-/

namespace Inference.V73

abbrev Bytes := List UInt8

inductive Code where
  | invalidSpec
  | alreadyRunning
  | workerBusy
  | specConflict
  | deadlineExceeded
  | workerConfiguration
  | inputIntegrityError
  | storageError
  | workerUnavailable
  | modelError
  | noUsableNote
  | invalidArtifacts
  | checkpointMismatch
  | workerError
deriving DecidableEq, Repr

structure WorkerError where
  code : Code
  message : String
  retryable : Bool := false
deriving DecidableEq, Repr

/-- An exception: a `WorkerError`, a `ValueError` or `OSError`, or any other. -/
inductive Exn where
  | worker (e : WorkerError)
  | value
  | other
deriving DecidableEq, Repr

/-- `raise WorkerError(code, message)`. -/
def raise {α : Type} (code : Code) (message : String) : Except Exn α :=
  .error (.worker { code, message })

/-- `raise WorkerError(code, message, True)`. -/
def raiseRetryable {α : Type} (code : Code) (message : String) : Except Exn α :=
  .error (.worker { code, message, retryable := true })

/-- What a `do` block that returned has done. -/
theorem bind_eq_ok {ε α β : Type} {x : Except ε α} {f : α → Except ε β} {b : β} :
    x >>= f = .ok b ↔ ∃ a, x = .ok a ∧ f a = .ok b := by
  cases x with
  | error e => exact ⟨nofun, fun ⟨_, ha, _⟩ => nomatch ha⟩
  | ok a => exact ⟨fun hb => ⟨a, rfl, hb⟩, fun ⟨_, ha, hb⟩ => by cases ha; exact hb⟩

/-! ### Specs and paths -/

def checkpointSha256 : String := "ba67d1234be517da77f9a4fdfe26b6c5831bda461ee44d2c4bf400d9367a0d86"

/-- `MAX_INPUT_BYTES` -/
def maxInputBytes : ℕ := 50 * 1024 * 1024

theorem one_le_maxInputBytes : 1 ≤ maxInputBytes := by decide

/-- `REQUIRED` -/
def required : List String := ["final.vital", "final.unified.json", "final.wav", "result.json"]

/-- `OPTIONAL` -/
def optional : List String :=
  ["selected.wav", "mono_preview.wav", "predicted.mid", "performance.json"]

inductive Mode where
  | poly
  | mono
deriving DecidableEq, Repr

def Mode.text : Mode → String
  | poly => "poly"
  | mono => "mono"

/-- A spec that `validate_payload` accepts.  Its model, checkpoint, bucket, input key and output
prefix are determined by the rest. -/
structure Spec where
  jobId : String
  projectId : String
  userId : String
  mode : Mode
  sha256 : String
  sizeBytes : ℕ
  pos : 0 < sizeBytes
  le_max : sizeBytes ≤ maxInputBytes
deriving DecidableEq

def Spec.outputPrefix (spec : Spec) : String :=
  "projects/" ++ spec.projectId ++ "/jobs/" ++ spec.jobId ++ "/results/"

/-- A `pathlib.Path`: the root (`""`, `"/"` or `"//"`) and the parts. -/
structure Path where
  root : String
  parts : List String
deriving DecidableEq, Repr

namespace Path

/-- `Path(text)`: empty parts and `.` are dropped, `..` stays; exactly two leading slashes are a
root of their own. -/
def ofString (text : String) : Path where
  root := match text.toList with
    | '/' :: '/' :: '/' :: _ => "/"
    | '/' :: '/' :: _ => "//"
    | '/' :: _ => "/"
    | _ => ""
  parts := ((text.toList.splitOn '/').map String.ofList).filter fun part => part != "" && part != "."

/-- `path / other` -/
def join (path other : Path) : Path :=
  if other.root = "" then { path with parts := path.parts ++ other.parts } else other

/-- `path / name`, for one file name. -/
def child (path : Path) (name : String) : Path := { path with parts := path.parts ++ [name] }

/-- `path.is_relative_to(other)` -/
def isRelativeTo (path other : Path) : Bool :=
  path.root = other.root && other.parts.isPrefixOf path.parts

/-- `str(path)` -/
def text (path : Path) : String :=
  if path.root = "" ∧ path.parts = [] then "." else path.root ++ "/".intercalate path.parts

end Path

/-- What the file system answers. -/
structure FileSystem where
  /-- `path.resolve()`; `none` when it raises -/
  resolve : Path → Option Path
  /-- `path.exists()` -/
  present : Path → Bool
  /-- `path.is_file()` -/
  isFile : Path → Bool
  /-- the bytes of the file; `none` when opening or reading raises `OSError` -/
  read : Path → Option Bytes

/-- What a worker is set up with, and the library functions it calls. -/
structure Host where
  /-- `self.root`, an absolute path -/
  root : Path
  /-- `hashlib.sha256(data).hexdigest()` -/
  sha256 : Bytes → String
  /-- `json.loads(data.decode('utf-8'))`; `none` when it raises `ValueError` -/
  loads : Bytes → Option Json
  /-- `hashlib.sha256(_canonical(spec)).hexdigest()` -/
  fingerprint : Spec → String
  /-- an S3 client was passed in, or `SUPABASE_S3_ENDPOINT` is set -/
  configured : Bool

variable (h : Host) (fs : FileSystem)

/-- `self.results_root / job_id` -/
def outDir (jobId : String) : Path := (h.root.child "results").child jobId

/-- `_safe_path` -/
def safePath (path : Path) : Except Exn Path :=
  match fs.resolve path with
  | none => .error .other
  | some resolved =>
    if resolved = path ∧ path.isRelativeTo h.root then .ok path
    else raise .invalidArtifacts "local path is outside deployment or contains a symlink"

/-- `_read_json` -/
def readJson (path : Path) : Except Exn Json := do
  let _ ← safePath h fs path
  match (fs.read path).bind h.loads with
  | none => .error .value
  | some v => .ok v

/-! ### `_download` -/

/-- The `while True` loop of `_download`: what the reads delivered so far, and the reads to come up
to the empty one. -/
def readLoop (sizeBytes : ℕ) : (got : Bytes) → (reads : List Bytes) → Except Exn Bytes
  | got, [] => .ok got
  | got, data :: reads =>
    if data.isEmpty then .ok got
    else if (got ++ data).length > maxInputBytes ∨ (got ++ data).length > sizeBytes then
      raise .inputIntegrityError "download exceeds declared input size"
    else readLoop sizeBytes (got ++ data) reads

/-- `_download`, for a `get_object` that reports `contentLength` and a body that delivers `reads`. -/
def download (spec : Spec) (contentLength : Option ℤ) (reads : List Bytes) : Except Exn Bytes :=
  if !h.configured then raise .workerConfiguration "SUPABASE_S3_ENDPOINT is required"
  else if contentLength.getD spec.sizeBytes ≠ spec.sizeBytes then
    raise .inputIntegrityError "download size differs from spec"
  else do
    let data ← readLoop spec.sizeBytes [] reads
    if data.length ≠ spec.sizeBytes ∨ h.sha256 data ≠ spec.sha256 then
      raise .inputIntegrityError "download SHA256 or size differs from spec"
    else return data

/-! ### The daemon's answer -/

/-- The frame checks of `_call_daemon` on the line it read; `none` when they raise. -/
def daemonResponse (line : Bytes) : Option Json :=
  if line.getLast? ≠ some 10 ∨ line.length > 16 * 1024 * 1024 then none
  else match h.loads line with
    | none => none
    | some response => match response.isDict, response.get? "ok" with
      | true, some (.bool _) => some response
      | _, _ => none

/-- `_recover_response`, for a state whose `running` and `output` are as given. -/
def recoverResponse (running : Bool) (output : Option String) (out : Path) :
    Except Exn (Option Json) :=
  if !running || output ≠ some out.text then .ok none
  else do
    let path ← safePath h fs (out.child "result.json")
    if !fs.isFile path then return none
    match readJson h fs path with
    | .error .value => return none
    | .error e => .error e
    | .ok report =>
      match report.isDict, report.get? "status" with
      | true, some (.str status) =>
        if status = "completed" ∨ status = "no_usable_note" then
          return some (.obj [("ok", .bool true), ("result", .obj [("status", .str status),
            ("output", .str out.text), ("report", .str path.text),
            ("artifacts", (report.get? "artifacts").getD (.obj []))])])
        else return none
      | _, _ => return none

/-! ### `_upload_result` -/

/-- `response.get('result')` -/
def resultOf (response : Json) : Json := (response.get? "result").getD .null

/-- The checks of `_upload_result` on the response itself; the report it names. -/
def modelReport (out : Path) (response : Json) : Except Exn Json :=
  match response.get? "ok" with
  | none => .error .other
  | some ok =>
    if !ok.truthy then raise .modelError "model daemon reported an execution failure"
    else if !(resultOf response).isDict then raise .modelError "invalid model result"
    else if (resultOf response).get? "status" = some (.str "no_usable_note") then
      raise .noUsableNote "model found no usable note"
    else if (resultOf response).get? "status" ≠ some (.str "completed") then
      raise .modelError "model did not complete inference"
    else if (resultOf response).get? "output" ≠ some (.str out.text) then
      raise .invalidArtifacts "model output directory does not match job"
    else .ok (resultOf response)

/-- The loop over `REQUIRED + OPTIONAL`. -/
def artifactFiles (out : Path) : (names : List String) → Except Exn (List (String × Path))
  | [] => .ok []
  | name :: names => do
    let path ← safePath h fs (out.child name)
    if !fs.present path && optional.contains name then artifactFiles out names
    else if !fs.isFile path then
      raise .invalidArtifacts ("required artifact is missing: " ++ name)
    else do
      let files ← artifactFiles out names
      return (name, path) :: files

/-- `parameter_json` and `detailed_report`. -/
def documents (out : Path) : Except Exn (Json × Json) :=
  let read : Except Exn (Json × Json) := do
    let parameterJson ← readJson h fs (out.child "final.unified.json")
    if !parameterJson.isDict then .error .value
    else do
      let detailedReport ← readJson h fs (out.child "result.json")
      if !detailedReport.isDict || detailedReport.get? "status" ≠ some (.str "completed") then
        .error .value
      else return (parameterJson, detailedReport)
  match read with
  | .error .value => raise .invalidArtifacts "invalid Unified parameter document"
  | r => r

/-- `metadata[name]`, without the bucket. -/
structure Metadata where
  name : String
  key : String
  sha256 : String
  sizeBytes : ℕ
deriving DecidableEq, Repr

def Metadata.json (m : Metadata) : Json :=
  .obj [("bucket", .str "synthx-jobs"), ("key", .str m.key), ("sha256", .str m.sha256),
    ("size_bytes", .int m.sizeBytes)]

/-- The loop that hashes the files. -/
def fileMetadata (spec : Spec) : (files : List (String × Path)) → Except Exn (List Metadata)
  | [] => .ok []
  | (name, path) :: files =>
    match fs.read path with
    | none => .error .value
    | some data => do
      let more ← fileMetadata spec files
      return { name, key := spec.outputPrefix ++ name, sha256 := h.sha256 data,
               sizeBytes := data.length } :: more

/-- `_verify_path` -/
def verifyPath (out : Path) (reference : Option Json) : Except Exn Path :=
  match reference with
  | some (.str text) => do
    let candidate ← safePath h fs (out.join (Path.ofString text))
    if !candidate.isRelativeTo out then raise .invalidArtifacts "artifact escapes job output"
    else return candidate
  | _ => raise .invalidArtifacts "artifact path must be a string"

/-- One turn of the loop of `_verify_manifest`. -/
def verifyEntry (out : Path) (metadata : List Metadata) (strict : Bool) (entry : String × Json) :
    Except Exn Unit :=
  let descriptor := if entry.2.isDict then entry.2 else .obj []
  do
    let candidate ← verifyPath h fs out
      (if descriptor.truthy then descriptor.get? "path" else some entry.2)
    match metadata.find? fun m => m.name = entry.1 with
    | none => return ()
    | some m =>
      if candidate ≠ out.child entry.1 then
        raise .invalidArtifacts "artifact path does not match its fixed filename"
      else if strict && descriptor.get? "sha256" ≠ some (.str m.sha256) then
        raise .invalidArtifacts "model artifact SHA256 does not match file"
      else if (descriptor.get? "sha256").isSome &&
          descriptor.get? "sha256" ≠ some (.str m.sha256) then
        raise .invalidArtifacts "model artifact SHA256 does not match file"
      else return ()

/-- The loop of `_verify_manifest`. -/
def verifyEntries (out : Path) (metadata : List Metadata) (strict : Bool) :
    List (String × Json) → Except Exn Unit
  | [] => .ok ()
  | entry :: entries => do
    verifyEntry h fs out metadata strict entry
    verifyEntries out metadata strict entries

/-- `_verify_manifest`; `strict` is the parameter `required`. -/
def verifyManifest (out : Path) (metadata : List Metadata) (strict : Bool) (manifest : Json) :
    Except Exn Unit :=
  match manifest with
  | .obj entries =>
    if strict && !(required.dropLast.all fun name => (manifest.get? name).isSome) then
      raise .invalidArtifacts "required artifact is missing from model report"
    else verifyEntries h fs out metadata strict entries
  | _ => raise .invalidArtifacts "invalid model artifact manifest"

/-- The checks of `_upload_result` on the files alone: `parameter_json`, `detailed_report` and
`metadata`. -/
def localFiles (spec : Spec) (out : Path) : Except Exn (Json × Json × List Metadata) := do
  let _ ← safePath h fs out
  let files ← artifactFiles h fs out (required ++ optional)
  let (parameterJson, detailedReport) ← documents h fs out
  if detailedReport.get? "checkpoint_sha256" ≠ some (.str checkpointSha256) then
    raise .checkpointMismatch "model report checkpoint differs from pinned release"
  else if detailedReport.get? "mode" ≠ some (.str spec.mode.text) then
    raise .invalidArtifacts "model report mode differs from job spec"
  else do
    let metadata ← fileMetadata h fs spec files
    return (parameterJson, detailedReport, metadata)

/-- The dict `_upload_result` returns. -/
def resultJson (spec : Spec) (metadata : List Metadata) (parameterJson : Json) : Json :=
  .obj [("job_id", .str spec.jobId), ("model", .str "v7_3_full"),
    ("checkpoint_sha256", .str checkpointSha256),
    ("artifacts", .obj (metadata.map fun m => (m.name, m.json))),
    ("parameter_json", parameterJson)]

/-- The checks of `_upload_result` after those on the response itself; the result to publish. -/
def publication (spec : Spec) (out : Path) (report : Json) : Except Exn Json := do
  let files ← localFiles h fs spec out
  verifyManifest h fs out files.2.2 false ((report.get? "artifacts").getD (.obj []))
  verifyManifest h fs out files.2.2 true ((files.2.1.get? "artifacts").getD (.obj []))
  let reportPath ← verifyPath h fs out (report.get? "report")
  if reportPath ≠ out.child "result.json" then
    raise .invalidArtifacts "model report must be this job result.json"
  else return resultJson spec files.2.2 files.1

/-- `_upload_result` when every upload succeeds. -/
def uploadResult (spec : Spec) (out : Path) (response : Json) : Except Exn Json := do
  let report ← modelReport out response
  let result ← publication h fs spec out report
  if !h.configured then raiseRetryable .storageError "artifact upload failed"
  else return result

variable {h fs}

/-! ### The download and its chunks -/

theorem readLoop_eq {size : ℕ} (hsize : size ≤ maxInputBytes) {reads : List Bytes}
    (hreads : ∀ data ∈ reads, data ≠ []) {got : Bytes} (hgot : got.length ≤ size) :
    readLoop size got reads =
      if (got ++ reads.flatten).length ≤ size then .ok (got ++ reads.flatten)
      else raise .inputIntegrityError "download exceeds declared input size" := by
  induction reads generalizing got with
  | nil =>
    have hle : (got ++ ([] : List Bytes).flatten).length ≤ size := by simpa using hgot
    rw [readLoop, if_pos hle, List.flatten_nil, List.append_nil]
  | cons data reads ih =>
    have hdata : data.isEmpty = false := by
      simpa using hreads data List.mem_cons_self
    rw [readLoop, hdata, if_neg Bool.false_ne_true, List.flatten_cons, ← List.append_assoc]
    by_cases hbig : (got ++ data).length > size
    · have hlen : ¬ (got ++ data ++ reads.flatten).length ≤ size := by
        rw [List.length_append]
        omega
      rw [if_pos (Or.inr hbig), if_neg hlen]
    · have hfits : ¬ ((got ++ data).length > maxInputBytes ∨ (got ++ data).length > size) := by
        omega
      rw [if_neg hfits]
      exact ih (fun d hd => hreads d (List.mem_cons_of_mem _ hd)) (by omega)

/-- **Chunks do not matter.**  What `_download` does depends on the bytes delivered. -/
theorem download_congr (spec : Spec) (contentLength : Option ℤ) {reads reads' : List Bytes}
    (hreads : ∀ data ∈ reads, data ≠ []) (hreads' : ∀ data ∈ reads', data ≠ [])
    (hsame : reads.flatten = reads'.flatten) :
    download h spec contentLength reads = download h spec contentLength reads' := by
  have hnil : ([] : Bytes).length ≤ spec.sizeBytes := Nat.zero_le _
  rw [download, download, readLoop_eq spec.le_max hreads hnil,
    readLoop_eq spec.le_max hreads' hnil, hsame]

/-! ### Final outcomes -/

/-- What is final about an outcome of `_execute`: a result, as a JSON value, or a code. -/
inductive Verdict where
  | result (value : Json)
  | error (code : Code)
deriving DecidableEq

/-- `not exc.retryable and exc.code != 'deadline_exceeded'` -/
def WorkerError.final (e : WorkerError) : Bool := !e.retryable && e.code != .deadlineExceeded

def verdict : Except Exn Json → Option Verdict
  | .ok result => some (.result result.sortKeys)
  | .error (.worker e) => if e.final then some (.error e.code) else none
  | .error _ => none

/-- Two outcomes that do not contradict each other. -/
def Consistent (x y : Except Exn Json) : Prop :=
  ∀ u v, verdict x = some u → verdict y = some v → u = v

theorem consistent_of_eq {x y : Except Exn Json} (hxy : verdict x = verdict y) :
    Consistent x y := by
  intro u v hu hv
  rw [hxy, hv] at hu
  exact (Option.some.inj hu).symm

theorem consistent_bind {α : Type} (x : Except Exn α) {f g : α → Except Exn Json}
    (hfg : ∀ a, Consistent (f a) (g a)) : Consistent (x >>= f) (x >>= g) := by
  cases x with
  | error e => exact consistent_of_eq rfl
  | ok a => exact hfg a

/-- A last step that passes its argument on, or ends in nothing final. -/
theorem Consistent.bind {x y : Except Exn Json} (hxy : Consistent x y)
    {f : Json → Except Exn Json} (hf : ∀ r, f r = .ok r ∨ verdict (f r) = none) :
    Consistent (x >>= f) (y >>= f) := by
  have hle : ∀ {z : Except Exn Json} {u : Verdict}, verdict (z >>= f) = some u →
      verdict z = some u := by
    intro z u hz
    cases z with
    | error e => exact hz
    | ok r =>
      rcases hf r with hr | hr
      · rw [show (Except.ok r >>= f) = f r from rfl, hr] at hz
        exact hz
      · rw [show (Except.ok r >>= f) = f r from rfl, hr] at hz
        cases hz
  exact fun u v hu hv => hxy u v (hle hu) (hle hv)

/-- Every `WorkerError` of `x` is an `invalid_artifacts`. -/
def OnlyInvalid {α : Type} (x : Except Exn α) : Prop :=
  ∀ e, x = .error (.worker e) → e.code = .invalidArtifacts

theorem onlyInvalid_ok {α : Type} (a : α) : OnlyInvalid (.ok a) := nofun

theorem onlyInvalid_raise {α : Type} (message : String) :
    OnlyInvalid (raise (α := α) .invalidArtifacts message) := by
  intro e he
  rw [raise, Except.error.injEq, Exn.worker.injEq] at he
  rw [← he]

theorem OnlyInvalid.bind {α β : Type} {x : Except Exn α} {f : α → Except Exn β}
    (hx : OnlyInvalid x) (hf : ∀ a, OnlyInvalid (f a)) : OnlyInvalid (x >>= f) := by
  cases x with
  | error e =>
    intro e' he
    exact hx e' (by cases he; rfl)
  | ok a => exact hf a

/-- Two checks that pass together and fail with the same code may be exchanged. -/
theorem consistent_check {x y : Except Exn Unit} {f g : Unit → Except Exn Json}
    (hxy : x = .ok () ↔ y = .ok ()) (hx : OnlyInvalid x) (hy : OnlyInvalid y)
    (hfg : Consistent (f ()) (g ())) : Consistent (x >>= f) (y >>= g) := by
  rcases x with ex | ⟨⟩ <;> rcases y with ey | ⟨⟩
  · have hcode : ∀ {e : Exn} {w : Verdict}, OnlyInvalid (.error e : Except Exn Unit) →
        verdict (.error e) = some w → w = .error .invalidArtifacts := by
      intro e w ho hw
      cases e with
      | worker e =>
        have he := ho e rfl
        simp only [verdict, he] at hw
        split at hw
        · exact (Option.some.inj hw).symm
        · cases hw
      | value | other => cases hw
    intro u v hu hv
    rw [hcode hx hu, hcode hy hv]
  · exact absurd (hxy.mpr rfl) nofun
  · exact absurd (hxy.mp rfl) nofun
  · exact hfg

theorem safePath_onlyInvalid (path : Path) : OnlyInvalid (safePath h fs path) := by
  unfold safePath
  split
  · intro e he
    cases he
  · split
    · exact onlyInvalid_ok _
    · exact onlyInvalid_raise _

theorem verifyPath_onlyInvalid (out : Path) (reference : Option Json) :
    OnlyInvalid (verifyPath h fs out reference) := by
  unfold verifyPath
  split
  · refine (safePath_onlyInvalid _).bind fun candidate => ?_
    split
    · exact onlyInvalid_raise _
    · exact onlyInvalid_ok _
  · exact onlyInvalid_raise _

theorem verifyEntry_onlyInvalid (out : Path) (metadata : List Metadata) (strict : Bool)
    (entry : String × Json) : OnlyInvalid (verifyEntry h fs out metadata strict entry) := by
  refine (verifyPath_onlyInvalid _ _).bind fun candidate => ?_
  repeat' split
  all_goals first | exact onlyInvalid_ok _ | exact onlyInvalid_raise _

theorem verifyEntries_onlyInvalid (out : Path) (metadata : List Metadata) (strict : Bool)
    (entries : List (String × Json)) :
    OnlyInvalid (verifyEntries h fs out metadata strict entries) := by
  induction entries with
  | nil => exact onlyInvalid_ok _
  | cons entry entries ih => exact (verifyEntry_onlyInvalid _ _ _ _).bind fun _ => ih

theorem verifyManifest_onlyInvalid (out : Path) (metadata : List Metadata) (strict : Bool)
    (manifest : Json) : OnlyInvalid (verifyManifest h fs out metadata strict manifest) := by
  unfold verifyManifest
  split
  · split
    · exact onlyInvalid_raise _
    · exact verifyEntries_onlyInvalid _ _ _ _
  · exact onlyInvalid_raise _

/-! ### A response read back from the state file -/

theorem verifyPath_sortKeys (out : Path) (reference : Option Json) :
    verifyPath h fs out (reference.map Json.sortKeys) = verifyPath h fs out reference := by
  cases reference with
  | none => rfl
  | some v => cases v <;> simp [Json.sortKeys, verifyPath]

/-- A text compares the same before and after. -/
theorem map_sortKeys_eq_str {v : Option Json} {text : String} :
    v.map Json.sortKeys = some (.str text) ↔ v = some (.str text) := by
  cases v with
  | none => simp
  | some v => simp [Json.sortKeys_eq_str]

theorem verifyEntry_sortKeys (out : Path) (metadata : List Metadata) (strict : Bool)
    (key : String) (v : Json) :
    verifyEntry h fs out metadata strict (key, v.sortKeys) =
      verifyEntry h fs out metadata strict (key, v) := by
  have hdesc : (if v.sortKeys.isDict then v.sortKeys else .obj []) =
      (if v.isDict then v else .obj []).sortKeys := by
    rw [Json.isDict_sortKeys]
    split
    · rfl
    · simp [Json.sortKeys, Json.sortFields]
  have href : ∀ d : Json, (if d.sortKeys.truthy then d.sortKeys.get? "path" else some v.sortKeys) =
      (if d.truthy then d.get? "path" else some v).map Json.sortKeys := by
    intro d
    rw [Json.truthy_sortKeys, Json.get?_sortKeys]
    split <;> rfl
  simp only [verifyEntry, hdesc, href, verifyPath_sortKeys]
  simp only [Json.get?_sortKeys, Option.isSome_map, ne_eq, map_sortKeys_eq_str]

theorem verifyEntries_eq_ok (out : Path) (metadata : List Metadata) (strict : Bool)
    (entries : List (String × Json)) :
    verifyEntries h fs out metadata strict entries = .ok () ↔
      ∀ entry ∈ entries, verifyEntry h fs out metadata strict entry = .ok () := by
  induction entries with
  | nil => simp [verifyEntries]
  | cons entry entries ih =>
    rw [List.forall_mem_cons, ← ih, verifyEntries]
    cases verifyEntry h fs out metadata strict entry with
    | error e => simp [bind, Except.bind]
    | ok a => simp [bind, Except.bind]

/-- A manifest passes in one order of its keys exactly when it passes in the other. -/
theorem verifyManifest_sortKeys (out : Path) (metadata : List Metadata) (strict : Bool)
    (manifest : Json) :
    verifyManifest h fs out metadata strict manifest.sortKeys = .ok () ↔
      verifyManifest h fs out metadata strict manifest = .ok () := by
  cases manifest with
  | obj entries =>
    have hget : ∀ name, (((Json.obj entries).sortKeys).get? name).isSome =
        ((Json.obj entries).get? name).isSome := by
      intro name
      rw [Json.get?_sortKeys, Option.isSome_map]
    rw [Json.sortKeys] at hget ⊢
    simp only [verifyManifest, hget]
    split
    · rfl
    · rw [verifyEntries_eq_ok, verifyEntries_eq_ok]
      simp only [List.mem_insertionSort, Json.sortFields_eq_map, List.forall_mem_map]
      constructor
      · intro hall entry hentry
        rw [← verifyEntry_sortKeys]
        exact hall entry hentry
      · intro hall entry hentry
        rw [verifyEntry_sortKeys]
        exact hall entry hentry
  | null | bool _ | int _ | float _ | str _ | arr _ => simp [Json.sortKeys, verifyManifest]

theorem resultOf_sortKeys (response : Json) :
    resultOf response.sortKeys = (resultOf response).sortKeys := by
  rw [resultOf, resultOf, Json.get?_sortKeys]
  cases response.get? "result" <;> simp [Json.sortKeys]

theorem modelReport_sortKeys (out : Path) (response : Json) :
    modelReport out response.sortKeys = (modelReport out response).map Json.sortKeys := by
  unfold modelReport
  rw [Json.get?_sortKeys, resultOf_sortKeys]
  cases response.get? "ok" with
  | none => rfl
  | some ok =>
    simp only [Option.map_some, Json.truthy_sortKeys, Json.isDict_sortKeys, Json.get?_sortKeys,
      map_sortKeys_eq_str, ne_eq]
    repeat' split
    all_goals rfl

theorem publication_sortKeys (spec : Spec) (out : Path) (report : Json) :
    Consistent (publication h fs spec out report) (publication h fs spec out report.sortKeys) := by
  have hart : (report.sortKeys.get? "artifacts").getD (.obj []) =
      ((report.get? "artifacts").getD (.obj [])).sortKeys := by
    rw [Json.get?_sortKeys]
    cases report.get? "artifacts" <;> simp [Json.sortKeys, Json.sortFields]
  unfold publication
  refine consistent_bind _ fun files => ?_
  rw [hart, Json.get?_sortKeys, verifyPath_sortKeys]
  refine consistent_check (verifyManifest_sortKeys _ _ _ _).symm
    (verifyManifest_onlyInvalid _ _ _ _) (verifyManifest_onlyInvalid _ _ _ _) ?_
  exact consistent_of_eq rfl

/-- **Read back or not.**  A response and what the state file gives back for it do not lead to
different final outcomes. -/
theorem uploadResult_sortKeys (spec : Spec) (out : Path) (response : Json) :
    Consistent (uploadResult h fs spec out response)
      (uploadResult h fs spec out response.sortKeys) := by
  unfold uploadResult
  rw [modelReport_sortKeys]
  cases modelReport out response with
  | error e => exact consistent_of_eq rfl
  | ok report =>
    refine (publication_sortKeys spec out report).bind fun result => ?_
    split
    · exact Or.inr rfl
    · exact Or.inl rfl

/-- The five things `_upload_result` reads of a response are the same. -/
structure ReadAlike (response response' : Json) : Prop where
  ok : (response.get? "ok").map Json.truthy = (response'.get? "ok").map Json.truthy
  isDict : (resultOf response).isDict = (resultOf response').isDict
  status : (resultOf response).get? "status" = (resultOf response').get? "status"
  output : (resultOf response).get? "output" = (resultOf response').get? "output"
  report : (resultOf response).get? "report" = (resultOf response').get? "report"
  artifacts : ((resultOf response).get? "artifacts").getD (.obj []) =
    ((resultOf response').get? "artifacts").getD (.obj [])

theorem ReadAlike.sortKeys {response response' : Json} (ha : ReadAlike response response') :
    ReadAlike response.sortKeys response'.sortKeys := by
  have hmap : ∀ v : Option Json, (v.map Json.sortKeys).map Json.truthy = v.map Json.truthy := by
    intro v
    cases v <;> simp
  have hart : ∀ v : Option Json, (v.map Json.sortKeys).getD (.obj []) =
      (v.getD (.obj [])).sortKeys := by
    intro v
    cases v <;> simp [Json.sortKeys, Json.sortFields]
  constructor
  · rw [Json.get?_sortKeys, Json.get?_sortKeys, hmap, hmap, ha.ok]
  · rw [resultOf_sortKeys, resultOf_sortKeys, Json.isDict_sortKeys, Json.isDict_sortKeys, ha.isDict]
  · rw [resultOf_sortKeys, resultOf_sortKeys, Json.get?_sortKeys, Json.get?_sortKeys, ha.status]
  · rw [resultOf_sortKeys, resultOf_sortKeys, Json.get?_sortKeys, Json.get?_sortKeys, ha.output]
  · rw [resultOf_sortKeys, resultOf_sortKeys, Json.get?_sortKeys, Json.get?_sortKeys, ha.report]
  · rw [resultOf_sortKeys, resultOf_sortKeys, Json.get?_sortKeys, Json.get?_sortKeys, hart, hart,
      ha.artifacts]

theorem publication_congr {report report' : Json} (spec : Spec) (out : Path)
    (hreport : report.get? "report" = report'.get? "report")
    (hart : (report.get? "artifacts").getD (.obj []) = (report'.get? "artifacts").getD (.obj [])) :
    publication h fs spec out report = publication h fs spec out report' := by
  rw [publication, publication, hreport, hart]

/-- `_upload_result` reads five things of a response. -/
theorem uploadResult_congr {response response' : Json} (ha : ReadAlike response response')
    (spec : Spec) (out : Path) :
    uploadResult h fs spec out response = uploadResult h fs spec out response' := by
  have hpub : publication h fs spec out (resultOf response) =
      publication h fs spec out (resultOf response') :=
    publication_congr spec out ha.report ha.artifacts
  have hok := ha.ok
  unfold uploadResult modelReport
  cases hr : response.get? "ok" with
  | none =>
    rw [hr] at hok
    rw [Option.map_eq_none_iff.mp hok.symm]
  | some v =>
    obtain ⟨v', hr', hv⟩ : ∃ v', response'.get? "ok" = some v' ∧ v'.truthy = v.truthy := by
      rw [hr] at hok
      exact Option.map_eq_some_iff.mp hok.symm
    simp only [hr', hv]
    rw [ha.isDict, ha.status, ha.output]
    repeat' split
    all_goals try rfl
    all_goals
      simp only [bind, Except.bind]
      rw [hpub]

/-! ### The final outcome a response leads to -/

/-- A call that holds `response`, or what the state file gives back for it, can end with `v`. -/
def Leads (h : Host) (fs : FileSystem) (spec : Spec) (out : Path) (response : Json)
    (v : Verdict) : Prop :=
  verdict (uploadResult h fs spec out response) = some v ∨
    verdict (uploadResult h fs spec out response.sortKeys) = some v

variable {spec : Spec} {out : Path} {response response' : Json} {v v' : Verdict}

/-- **One outcome.**  A response leads to at most one final outcome. -/
theorem leads_unique (hv : Leads h fs spec out response v) (hv' : Leads h fs spec out response v') :
    v = v' := by
  have hcons : Consistent (uploadResult h fs spec out response)
      (uploadResult h fs spec out response.sortKeys) := uploadResult_sortKeys spec out response
  rcases hv with hv | hv <;> rcases hv' with hv' | hv'
  · exact Option.some.inj (hv.symm.trans hv')
  · exact hcons v v' hv hv'
  · exact (hcons v' v hv' hv).symm
  · exact Option.some.inj (hv.symm.trans hv')

end Inference.V73
