import Inference.Uuid
import Inference.V73.Payload
import Inference.V73.Publication

/-!
# Inference.V73.Confinement — what a payload can make the worker raise, read and write

`Payload.validatePayload` knows one exception.  Here every lookup, call and conversion of
`validate_payload` raises what Python raises there, and the handler catches the four classes that it
names; a `RecursionError` is not among them.  Then the object keys and the paths that `process`
derives from the spec it gets back.

* `body_lift`: both readings of `validate_payload` agree.
* `Confined`: an accepted payload, and where its keys and paths lie.
* **`confinement`**: accepted payloads are confined, those of two jobs have nothing in common, and
  whatever is not accepted raises `invalid_spec`.
-/

namespace Inference.V73.Confinement

open Inference.Json (canonicalText loadsBytes sortKeys)

/-- The exceptions in reach of `validate_payload`; a `RecursionError` is a `RuntimeError`. -/
inductive Class where
  | keyError
  | valueError
  | typeError
  | attributeError
  | runtimeError
deriving DecidableEq, Repr

/-- An exception and its `str`. -/
structure Exception where
  cls : Class
  text : String
deriving DecidableEq, Repr

/-- `except (KeyError, ValueError, TypeError, AttributeError)` -/
def Class.caught : Class → Bool
  | keyError | valueError | typeError | attributeError => true
  | runtimeError => false

/-- `raise ValueError(text)` -/
def valueError {α : Type} (text : String) : Except Exception α := .error ⟨.valueError, text⟩

/-- The interpreter that runs `validate_payload`. -/
structure Interpreter where
  unicode : Uuid.Unicode
  /-- `hashlib.sha256(data).hexdigest()` -/
  sha256 : Bytes → String
  /-- `repr(float(text))` -/
  repr : String → String
  /-- the `UnicodeEncodeError`, a `ValueError`, for a value with a lone surrogate in a string -/
  surrogate : Json → Option String
  /-- the nested calls left up to the recursion limit -/
  frames : ℕ
  two_le_frames : 2 ≤ frames

variable (py : Interpreter)

/-- What `Payload` takes from the interpreter. -/
def Interpreter.library : Library where
  uuid := Uuid.str py.unicode
  sha256 := py.sha256
  repr := py.repr

/-! ### `validate_payload` -/

/-- `value[key]` -/
def getItem (v : Json) (key : String) : Except Exception Json :=
  match v with
  | .obj fields => match fields.lookup key with
    | some x => .ok x
    | none => .error ⟨.keyError, "'" ++ key ++ "'"⟩
  | .arr _ => .error ⟨.typeError, "list indices must be integers or slices, not str"⟩
  | .str _ => .error ⟨.typeError, "string indices must be integers, not 'str'"⟩
  | .int _ => .error ⟨.typeError, "'int' object is not subscriptable"⟩
  | .float _ => .error ⟨.typeError, "'float' object is not subscriptable"⟩
  | .bool _ => .error ⟨.typeError, "'bool' object is not subscriptable"⟩
  | .null => .error ⟨.typeError, "'NoneType' object is not subscriptable"⟩

/-- `x or y`: `y` is looked at when `x` is false. -/
def either (x y : Except Exception Bool) : Except Exception Bool := do
  if ← x then return true else y

/-- `if bad: raise ValueError(message)` -/
def raiseIf (bad : Except Exception Bool) (message : String) : Except Exception Unit := do
  if ← bad then valueError message

/-- `value[key] != other` -/
def differs (v : Json) (key : String) (other : Json) : Except Exception Bool :=
  (getItem v key).map fun x => x ≠ other

/-- `not _uuid(value[key])` -/
def notUuid (v : Json) (key : String) : Except Exception Bool := do
  match ← getItem v key with
  | .str s => match Uuid.str py.unicode s with
    | .ok text => return text != s
    | .error text => valueError text
  | _ => return true

/-- The checks on `spec['input']`, and on `output_prefix` between them. -/
def checkInput (spec : Json) : Except Exception Unit := do
  let projectId ← getItem spec "project_id"
  let jobId ← getItem spec "job_id"
  let base := "projects/" ++ textOf projectId ++ "/jobs/" ++ textOf jobId ++ "/"
  let inp ← getItem spec "input"
  raiseIf (.ok !keysAre inputFields inp) "invalid input fields"
  raiseIf (either (differs inp "bucket" (.str "synthx-jobs"))
    (differs inp "key" (.str (base ++ "input.wav")))) "input storage location does not match job"
  raiseIf (differs spec "output_prefix" (.str (base ++ "results/")))
    "output prefix does not match job"
  raiseIf ((getItem inp "size_bytes").map fun
    | .int n => !(0 < n && n ≤ maxInputBytes)
    | _ => true) "input must be between 1 byte and 50 MiB"
  raiseIf ((getItem inp "sha256").map fun
    | .str s => !isDigest s
    | _ => true) "invalid input SHA256"

/-- The checks on `spec`. -/
def checkSpec (spec : Json) : Except Exception Unit := do
  raiseIf (.ok !keysAre specFields spec) "unexpected spec fields"
  raiseIf (either (notUuid py spec "job_id") (notUuid py spec "project_id"))
    "job and project must be canonical UUIDs"
  raiseIf ((getItem spec "user_id").map fun
    | .str s => s == ""
    | _ => true) "user_id is required"
  raiseIf (either (differs spec "model" (.str "v7_3_full"))
    (differs spec "checkpoint_sha256" (.str checkpointSha256)))
    "model or checkpoint does not match pinned release"
  raiseIf ((getItem spec "mode").map fun mode => mode ≠ .str "poly" && mode ≠ .str "mono")
    "mode must be poly or mono"
  checkInput spec

mutual

/-- The nested calls that encoding or decoding a value takes. -/
def depth : Json → ℕ
  | .arr items => depthItems items + 1
  | .obj fields => depthFields fields + 1
  | .null | .bool _ | .int _ | .float _ | .str _ => 0

def depthItems : List Json → ℕ
  | [] => 0
  | v :: l => max (depth v) (depthItems l)

def depthFields : List (String × Json) → ℕ
  | [] => 0
  | (_, v) :: l => max (depth v) (depthFields l)

end

/-- `_canonical` -/
def canonical (v : Json) : Except Exception Bytes :=
  if py.frames < depth v then .error ⟨.runtimeError, "maximum recursion depth exceeded"⟩
  else if !v.finite then valueError "Out of range float values are not JSON compliant"
  else match py.surrogate v with
    | some text => valueError text
    | none => .ok (canonicalText v)

/-- The last two lines of the `try` block. -/
def detach (spec : Json) : Except Exception (Json × String) := do
  let fingerprint := py.sha256 (← canonical py spec)
  match loadsBytes py.repr (← canonical py spec) with
  | some spec => return (spec, fingerprint)
  | none => valueError "invalid JSON"

/-- The `try` block of `validate_payload`. -/
def body (payload : Json) : Except Exception (Json × String) := do
  raiseIf (.ok !keysAre envelopeFields payload) "invalid task envelope"
  raiseIf (either (differs payload "kind" (.str "synthx_v73")) (notUuid py payload "attempt_id"))
    "invalid task kind or attempt UUID"
  let spec ← getItem payload "spec"
  checkSpec py spec
  detach py spec

/-- What a call ends with when it does not return. -/
inductive Thrown where
  | worker (e : WorkerError)
  | python (x : Exception)
deriving DecidableEq, Repr

/-- `validate_payload` -/
def validate (payload : Json) : Except Thrown (Json × String) :=
  match body py payload with
  | .ok r => .ok r
  | .error x =>
    if x.cls.caught then .error (.worker { code := .invalidSpec, message := x.text })
    else .error (.python x)

/-! ### The exceptions -/

/-- Every `ValueError` by its text. -/
def lift {α : Type} (m : Except String α) : Except Exception α :=
  m.mapError fun text => ⟨.valueError, text⟩

variable {py}

theorem raiseIf_ok (bad : Bool) (message : String) :
    raiseIf (.ok bad) message = lift (reject bad message) := by
  cases bad <;> rfl

theorem either_ok (a b : Bool) : either (.ok a) (.ok b) = .ok (a || b) := by
  cases a <;> rfl

/-- A key that the set of keys was compared with is there. -/
theorem getItem_eq {names : List String} {v : Json} (hk : keysAre names v = true) (key : String)
    (hkey : key ∈ names) : getItem v key = .ok (field v key) := by
  cases v with
  | obj fields =>
    rw [keysAre, Bool.and_eq_true, List.all_eq_true, List.all_eq_true] at hk
    obtain ⟨e, he, hname⟩ := List.any_eq_true.mp (hk.2 key hkey)
    rw [getItem, field, Json.get?]
    cases hl : fields.lookup key with
    | some x => rfl
    | none =>
      have hne := List.lookup_eq_none_iff.mp hl e he
      rw [beq_iff_eq.mp hname, bne_self_eq_false] at hne
      cases hne
  | null | bool _ | int _ | float _ | str _ | arr _ => cases hk

theorem differs_eq {names : List String} {v : Json} (hk : keysAre names v = true) (key : String)
    (hkey : key ∈ names) (other : Json) :
    differs v key other = .ok (decide (field v key ≠ other)) := by
  rw [differs, getItem_eq hk key hkey]
  rfl

theorem library_uuid : py.library.uuid = Uuid.str py.unicode := by
  dsimp only [Interpreter.library]

theorem uuidOk_library (s : String) :
    uuidOk py.library (.str s) = (Uuid.str py.unicode s).map (· == s) := by
  rw [uuidOk, library_uuid]

theorem notUuid_eq {names : List String} {v : Json} (hk : keysAre names v = true) (key : String)
    (hkey : key ∈ names) :
    notUuid py v key = lift ((uuidOk py.library (field v key)).map fun ok => !ok) := by
  rw [notUuid, getItem_eq hk key hkey]
  cases field v key with
  | str s =>
    rw [uuidOk_library]
    dsimp only [bind, Except.bind]
    generalize Uuid.str py.unicode s = printed
    cases printed <;> rfl
  | null | bool _ | int _ | float _ | arr _ | obj _ => rfl

/-- One check, and the rest behind it. -/
theorem raiseIf_bind {α : Type} {bad : Bool} {message : String}
    {rest : Unit → Except Exception α} {rest' : Except String α} (h : bad = false → rest () = lift rest') :
    raiseIf (.ok bad) message >>= rest = lift (reject bad message >>= fun _ => rest') := by
  cases bad with
  | true => rfl
  | false => exact h rfl

/-- `if not x or not y: raise …`, and the rest behind it. -/
theorem raiseIf_either_bind {α : Type} (x y : Except String Bool) {message : String}
    {rest : Unit → Except Exception α} {rest' : Except String α} (h : rest () = lift rest') :
    raiseIf (either (lift (x.map fun ok => !ok)) (lift (y.map fun ok => !ok))) message >>= rest =
      lift (andThen x y >>= fun both => reject (!both) message >>= fun _ => rest') := by
  rcases x with e | _ | _
  · rfl
  · rfl
  · rcases y with e | _ | _
    · rfl
    · rfl
    · exact h

theorem checkInput_eq {spec : Json} (hk : keysAre specFields spec = true) :
    checkInput spec = lift (V73.checkInput spec) := by
  have hget : ∀ key ∈ specFields, getItem spec key = .ok (field spec key) :=
    fun key hkey => getItem_eq hk key hkey
  unfold checkInput V73.checkInput
  rw [hget "project_id" (by decide), hget "job_id" (by decide), hget "input" (by decide)]
  refine raiseIf_bind fun hi => ?_
  have hi : keysAre inputFields (field spec "input") = true := by simpa using hi
  rw [differs_eq hi "bucket" (by decide), differs_eq hi "key" (by decide), either_ok,
    differs_eq hk "output_prefix" (by decide),
    getItem_eq hi "size_bytes" (by decide), getItem_eq hi "sha256" (by decide)]
  refine raiseIf_bind fun _ => raiseIf_bind fun _ => raiseIf_bind fun _ => ?_
  exact raiseIf_ok _ _

theorem checkSpec_eq (spec : Json) : checkSpec py spec = lift (V73.checkSpec py.library spec) := by
  unfold checkSpec V73.checkSpec
  refine raiseIf_bind fun hk => ?_
  have hk : keysAre specFields spec = true := by simpa using hk
  rw [notUuid_eq hk "job_id" (by decide), notUuid_eq hk "project_id" (by decide),
    getItem_eq hk "user_id" (by decide), differs_eq hk "model" (by decide),
    differs_eq hk "checkpoint_sha256" (by decide), either_ok, getItem_eq hk "mode" (by decide),
    checkInput_eq hk]
  refine raiseIf_either_bind _ _ ?_
  exact raiseIf_bind fun _ => raiseIf_bind fun _ => raiseIf_bind fun _ => rfl

/-! ### What is left to raise at the end -/

theorem depthFields_le {n : ℕ} {fields : List (String × Json)} (h : ∀ e ∈ fields, depth e.2 ≤ n) :
    depthFields fields ≤ n := by
  induction fields with
  | nil => exact Nat.zero_le n
  | cons e fields ih =>
    rw [depthFields]
    exact max_le (h e List.mem_cons_self) (ih fun e he => h e (List.mem_cons_of_mem _ he))

theorem depth_of_keysAre {n : ℕ} {names : List String} {v : Json} (hd : v.distinct = true)
    (hk : keysAre names v = true) (hv : ∀ name ∈ names, depth (field v name) ≤ n) :
    depth v ≤ n + 1 := by
  cases v with
  | obj fields =>
    rw [Json.distinct, Bool.and_eq_true, decide_eq_true_eq] at hd
    rw [depth]
    have hle := depthFields_le (forall_of_keysAre (p := fun v => depth v ≤ n) hd.1 hk hv)
    omega
  | null | bool _ | int _ | float _ | str _ | arr _ => cases hk

/-- A spec that passes the checks is two objects deep. -/
theorem depth_of_valid {spec : Json} (hv : Valid spec) (hd : spec.distinct = true) :
    depth spec ≤ 2 := by
  have hinput : depth (field spec "input") ≤ 1 := by
    refine depth_of_keysAre (distinct_field hd _) hv.inputKeys fun name hname => ?_
    rcases hv.inputScalars name hname with ⟨s, hs⟩ | ⟨n, hn⟩
    · rw [hs]
      exact le_refl 0
    · rw [hn]
      exact le_refl 0
  refine depth_of_keysAre hd hv.keys fun name hname => ?_
  rcases hv.scalars name hname with rfl | ⟨s, hs⟩
  · exact hinput
  · rw [hs]
    exact Nat.zero_le 1

theorem detach_eq {spec : Json} (hv : Valid spec) (hd : spec.distinct = true) :
    detach py spec = match py.surrogate spec with
      | some text => valueError text
      | none => .ok (sortKeys spec, py.sha256 (canonicalText spec)) := by
  have hplain := hv.plain hd
  have hframes : ¬ py.frames < depth spec := by
    have hdepth := depth_of_valid hv hd
    have htwo := py.two_le_frames
    omega
  have hfinite : (!spec.finite) = false := by
    rw [Json.finite_of_plain _ hplain]
    rfl
  unfold detach canonical
  rw [if_neg hframes, if_neg (Bool.eq_false_iff.mp hfinite)]
  cases py.surrogate spec with
  | some text => rfl
  | none =>
    show (match loadsBytes py.repr (canonicalText spec) with
      | some spec => _
      | none => _) = _
    rw [Json.loadsBytes_canonicalText py.repr hplain]
    rfl

/-- The one thing that only this module knows: a string that has no UTF-8. -/
def encodable (spec : Json) (r : Json × String) : Except String (Json × String) :=
  match py.surrogate spec with
  | some text => .error text
  | none => .ok r

/-- **Both readings agree**: what the body raises is a `ValueError`. -/
theorem body_lift {payload : Json} (hd : payload.distinct = true) :
    body py payload = lift (checkPayload py.library payload >>=
      @encodable py (field payload "spec")) := by
  unfold body checkPayload
  simp only [bind_assoc]
  refine raiseIf_bind fun hk => ?_
  have hk : keysAre envelopeFields payload = true := by simpa using hk
  rw [differs_eq hk "kind" (by decide), notUuid_eq hk "attempt_id" (by decide),
    getItem_eq hk "spec" (by decide), decide_not]
  refine raiseIf_either_bind (.ok _) _ ?_
  show checkSpec py (field payload "spec") >>= _ = _
  rw [checkSpec_eq]
  cases hs : V73.checkSpec py.library (field payload "spec") with
  | error text => rfl
  | ok u =>
    have hvalid : Valid (field payload "spec") := checkSpec_ok hs
    have hdistinct := distinct_field hd "spec"
    have hplain := hvalid.plain hdistinct
    have hcanonical : V73.canonical (field payload "spec") =
        .ok (canonicalText (field payload "spec")) := if_pos (Json.finite_of_plain _ hplain)
    show detach py (field payload "spec") = _
    rw [detach_eq hvalid hdistinct, hcanonical]
    show _ = lift ((match loadsBytes py.repr (canonicalText (field payload "spec")) with
      | some spec => .ok (spec, py.sha256 (canonicalText (field payload "spec")))
      | none => .error "invalid JSON") >>= encodable (field payload "spec"))
    rw [Json.loadsBytes_canonicalText py.repr hplain]
    show _ = lift (encodable (field payload "spec") _)
    unfold encodable
    cases py.surrogate (field payload "spec") <;> rfl

/-- Nothing but `invalid_spec`. -/
theorem validate_error {payload : Json} (hd : payload.distinct = true) {x : Thrown}
    (hx : validate py payload = .error x) :
    ∃ message, x = .worker { code := .invalidSpec, message } := by
  rw [validate, body_lift hd] at hx
  cases hm : checkPayload py.library payload >>= @encodable py (field payload "spec") with
  | error text =>
    rw [hm] at hx
    exact ⟨text, (Except.error.inj hx).symm⟩
  | ok r =>
    rw [hm] at hx
    cases hx

/-- What is accepted is accepted by `validatePayload`. -/
theorem validate_ok {payload : Json} (hd : payload.distinct = true) {r : Json × String}
    (hr : validate py payload = .ok r) : validatePayload py.library payload = .ok r := by
  rw [validate, body_lift hd] at hr
  cases hm : checkPayload py.library payload >>= @encodable py (field payload "spec") with
  | error text =>
    rw [hm] at hr
    cases hr
  | ok r' =>
    rw [hm] at hr
    obtain rfl : r' = r := Except.ok.inj hr
    obtain ⟨r'', hcheck, hencodable⟩ := bind_eq_ok.mp hm
    unfold encodable at hencodable
    split at hencodable
    · cases hencodable
    · obtain rfl : r'' = r' := Except.ok.inj hencodable
      rw [validatePayload, hcheck]

/-- A spec that passes the checks is accepted in the gateway's envelope. -/
theorem validate_inputData {spec : Json} {attemptId : String} (hd : spec.distinct = true)
    (hattempt : Uuid.str py.unicode attemptId = .ok attemptId)
    (hspec : V73.checkSpec py.library spec = .ok ()) (hencodes : py.surrogate spec = none) :
    validate py (inputData spec attemptId) =
      .ok (sortKeys spec, py.sha256 (canonicalText spec)) := by
  have hdistinct : (inputData spec attemptId).distinct = true := by
    simp [inputData, Json.distinct, Json.distinctFields, hd]
  have hfinite := Json.finite_of_plain _ ((checkSpec_ok hspec).plain hd)
  rw [← library_uuid] at hattempt
  have hold := validatePayload_inputData attemptId hd hfinite hattempt hspec
  have hfield : field (inputData spec attemptId) "spec" = spec := rfl
  rw [validate, body_lift hdistinct, validatePayload_eq_ok.mp hold, hfield]
  show (match lift (@encodable py spec _) with
    | .ok r => _
    | .error x => _) = _
  rw [encodable, hencodes]
  rfl

/-! ### Keys and paths -/

/-- The keys in the bucket that `process` reads or writes. -/
def objectKeys (spec : Json) : List String :=
  textOf (field (field spec "input") "key") ::
    (required ++ optional).map fun name => textOf (field spec "output_prefix") ++ name

/-- `self.cache_root / spec['job_id']` -/
def jobDir (root : Path) (spec : Json) : Path :=
  (root.child ".synthx_v73").join (Path.ofString (textOf (field spec "job_id")))

/-- `self.results_root / spec['job_id']` -/
def resultsDir (root : Path) (spec : Json) : Path :=
  (root.child "results").join (Path.ofString (textOf (field spec "job_id")))

/-- The paths of its own that `process` reads or writes for a job; `hex` is `uuid.uuid4().hex`. -/
def localPaths (root : Path) (hex : String) (spec : Json) : List Path :=
  jobDir root spec ::
    ["job.lock", "state.json", "state.json" ++ ".tmp-" ++ hex, "input.wav", "input.download"].map
      (jobDir root spec).child ++
  resultsDir root spec :: (required ++ optional).map (resultsDir root spec).child

/-- One directory for each job. -/
def stateRoot (root : Path) (jobId : String) : Path := (root.child ".synthx_v73").child jobId

def resultsRoot (root : Path) (jobId : String) : Path := (root.child "results").child jobId

/-- A prefix for each job. -/
def keyPrefix (projectId jobId : String) : String :=
  "projects/" ++ projectId ++ "/jobs/" ++ jobId ++ "/"

/-- A payload that was accepted, and the spec that `process` goes on with. -/
structure Confined (root : Path) (payload spec : Json) (jobId projectId attemptId : String) :
    Prop where
  sentJob : field (field payload "spec") "job_id" = .str jobId
  sentProject : field (field payload "spec") "project_id" = .str projectId
  sentAttempt : field payload "attempt_id" = .str attemptId
  canonicalJob : Uuid.canonical jobId = true
  canonicalProject : Uuid.canonical projectId = true
  canonicalAttempt : Uuid.canonical attemptId = true
  inputKey : field (field spec "input") "key" =
    .str ("projects/" ++ projectId ++ "/jobs/" ++ jobId ++ "/input.wav")
  keys : ∀ key ∈ objectKeys spec, (keyPrefix projectId jobId).toList <+: key.toList
  paths : ∀ hex, ∀ path ∈ localPaths root hex spec,
    path.isRelativeTo (stateRoot root jobId) = true ∨
      path.isRelativeTo (resultsRoot root jobId) = true

theorem uuidOk_canonical {v : Json} (hv : uuidOk py.library v = .ok true) :
    ∃ s, v = .str s ∧ Uuid.canonical s = true := by
  obtain ⟨s, rfl⟩ := uuidOk_str hv
  refine ⟨s, rfl, ?_⟩
  rw [uuidOk_library] at hv
  cases hs : Uuid.str py.unicode s with
  | error text =>
    rw [hs] at hv
    cases hv
  | ok text =>
    rw [hs] at hv
    obtain rfl : text = s := by simpa [Except.map] using hv
    exact Uuid.canonical_str hs

theorem uuids_of_accepted {lib : Library} {payload : Json} {r : Json × String}
    (hr : validatePayload lib payload = .ok r) :
    uuidOk lib (field payload "attempt_id") = .ok true ∧
      uuidOk lib (field (field payload "spec") "job_id") = .ok true ∧
      uuidOk lib (field (field payload "spec") "project_id") = .ok true := by
  have hcheck := validatePayload_eq_ok.mp hr
  simp only [checkPayload, bind_eq_ok, reject_eq_ok] at hcheck
  obtain ⟨_, -, both, henvelope, _, hboth, _, hspec, -⟩ := hcheck
  simp only [V73.checkSpec, bind_eq_ok, reject_eq_ok] at hspec
  obtain ⟨_, -, both', hids, _, hboth', -⟩ := hspec
  have hboth : both = true := by simpa using hboth
  have hboth' : both' = true := by simpa using hboth'
  rw [hboth, andThen_eq_true] at henvelope
  rw [hboth', andThen_eq_true] at hids
  exact ⟨henvelope.2, hids⟩

/-- A canonical ID is one plain component of a path. -/
theorem ofString_of_canonical {s : String} (hs : Uuid.canonical s = true) :
    Path.ofString s = { root := "", parts := [s] } := by
  have hslash : ∀ c ∈ s.toList, (c == '/') = false := by
    intro c hc
    rcases Uuid.mem_of_canonical hs hc with rfl | hhex
    · rfl
    · rw [beq_eq_false_iff_ne]
      rintro rfl
      cases hhex
  have hlength := Uuid.length_of_canonical hs
  have hroot : (Path.ofString s).root = "" := by
    unfold Path.ofString
    dsimp only
    split
    next h => exact absurd (hslash '/' (h ▸ List.mem_cons_self)) (by decide)
    next h => exact absurd (hslash '/' (h ▸ List.mem_cons_self)) (by decide)
    next h => exact absurd (hslash '/' (h ▸ List.mem_cons_self)) (by decide)
    next => rfl
  have hsplit : s.toList.splitOn '/' = [s.toList] := List.splitOnP_eq_singleton hslash
  have hdot : (s != "" && s != ".") = true := by
    rw [Bool.and_eq_true, bne_iff_ne, bne_iff_ne]
    constructor
    · rintro rfl
      cases hlength
    · rintro rfl
      cases hlength
  have hparts : (Path.ofString s).parts = [s] := by
    show ((s.toList.splitOn '/').map String.ofList).filter _ = [s]
    rw [hsplit, List.map_singleton, String.ofList_toList]
    exact List.filter_cons_of_pos hdot
  rw [← hroot, ← hparts]

theorem field_sortKeys (v : Json) (key : String) :
    field (sortKeys v) key = sortKeys (field v key) := by
  rw [field, Json.get?_sortKeys, field]
  cases v.get? key <;> rfl

/-! ### Two jobs -/

theorem isRelativeTo_child (path : Path) (name : String) :
    (path.child name).isRelativeTo path = true := by
  simp [Path.isRelativeTo, Path.child]

theorem isRelativeTo_refl (path : Path) : path.isRelativeTo path = true := by
  simp [Path.isRelativeTo]

/-- What a path under `root / dir / jobId` says of the two names. -/
theorem parts_of_isRelativeTo {path root : Path} {dir jobId : String}
    (h : path.isRelativeTo ((root.child dir).child jobId) = true) :
    root.parts ++ [dir, jobId] <+: path.parts := by
  rw [Path.isRelativeTo, Bool.and_eq_true, List.isPrefixOf_iff_prefix] at h
  have hparts : ((root.child dir).child jobId).parts = root.parts ++ [dir, jobId] := by
    simp [Path.child]
  exact hparts ▸ h.2

theorem names_unique {path root : Path} {dir dir' jobId jobId' : String}
    (h : path.isRelativeTo ((root.child dir).child jobId) = true)
    (h' : path.isRelativeTo ((root.child dir').child jobId') = true) :
    dir = dir' ∧ jobId = jobId' := by
  have heq : root.parts ++ [dir, jobId] = root.parts ++ [dir', jobId'] := by
    refine (List.prefix_of_prefix_length_le (parts_of_isRelativeTo h) (parts_of_isRelativeTo h')
      ?_).eq_of_length ?_ <;> simp
  simpa using heq

/-- IDs of one length make prefixes of one length. -/
theorem jobId_unique {key projectId projectId' jobId jobId' : String}
    (hproject : Uuid.canonical projectId = true) (hproject' : Uuid.canonical projectId' = true)
    (hjob : Uuid.canonical jobId = true) (hjob' : Uuid.canonical jobId' = true)
    (h : (keyPrefix projectId jobId).toList <+: key.toList)
    (h' : (keyPrefix projectId' jobId').toList <+: key.toList) : jobId = jobId' := by
  have hchars : ∀ p j : String, (keyPrefix p j).toList =
      "projects/".toList ++ (p.toList ++ ("/jobs/".toList ++ (j.toList ++ "/".toList))) := by
    intro p j
    simp [keyPrefix, String.toList_append]
  have hlengthP := Uuid.length_of_canonical hproject
  have hlengthP' := Uuid.length_of_canonical hproject'
  have hlengthJ := Uuid.length_of_canonical hjob
  have hlengthJ' := Uuid.length_of_canonical hjob'
  have hlength : (keyPrefix projectId jobId).toList.length =
      (keyPrefix projectId' jobId').toList.length := by
    rw [hchars, hchars]
    simp only [List.length_append]
    omega
  have heq : (keyPrefix projectId jobId).toList = (keyPrefix projectId' jobId').toList :=
    (List.prefix_of_prefix_length_le h h' hlength.le).eq_of_length hlength
  rw [hchars, hchars] at heq
  have hrest := List.append_cancel_left heq
  obtain ⟨-, hrest⟩ := List.append_inj hrest (by omega)
  have hjobs := List.append_cancel_left hrest
  exact String.toList_injective (List.append_cancel_right hjobs)

/-- Two confined payloads of different jobs have no key and no path in common. -/
theorem Confined.disjoint {root : Path} {payload payload' spec spec' : Json}
    {jobId jobId' projectId projectId' attemptId attemptId' : String}
    (h : Confined root payload spec jobId projectId attemptId)
    (h' : Confined root payload' spec' jobId' projectId' attemptId') (hne : jobId ≠ jobId') :
    (objectKeys spec).Disjoint (objectKeys spec') ∧
      ∀ hex hex', (localPaths root hex spec).Disjoint (localPaths root hex' spec') := by
  constructor
  · intro key hkey hkey'
    exact hne (jobId_unique h.canonicalProject h'.canonicalProject h.canonicalJob h'.canonicalJob
      (h.keys key hkey) (h'.keys key hkey'))
  · intro hex hex' path hpath hpath'
    rcases h.paths hex path hpath with hdir | hdir <;>
      rcases h'.paths hex' path hpath' with hdir' | hdir'
    all_goals exact hne (names_unique hdir hdir').2

theorem keyPrefix_prefix (projectId jobId name : String) :
    (keyPrefix projectId jobId).toList <+: (keyPrefix projectId jobId ++ name).toList := by
  rw [String.toList_append]
  exact List.prefix_append _ _

/-- The keys of a spec that passed the checks. -/
theorem objectKeys_confined {spec : Json} {jobId projectId : String}
    (hkey : field (field spec "input") "key" = .str (keyPrefix projectId jobId ++ "input.wav"))
    (houtput : field spec "output_prefix" = .str (keyPrefix projectId jobId ++ "results/")) :
    ∀ key ∈ objectKeys spec, (keyPrefix projectId jobId).toList <+: key.toList := by
  intro key hmem
  rw [objectKeys, hkey, houtput] at hmem
  rcases List.mem_cons.mp hmem with rfl | hmem
  · exact keyPrefix_prefix _ _ _
  · obtain ⟨name, -, rfl⟩ := List.mem_map.mp hmem
    show _ <+: (keyPrefix projectId jobId ++ "results/" ++ name).toList
    rw [String.append_assoc]
    exact keyPrefix_prefix _ _ _

/-- The paths of a spec with a canonical ID. -/
theorem localPaths_confined {spec : Json} {root : Path} {jobId : String}
    (hjob : field spec "job_id" = .str jobId) (hcanonical : Uuid.canonical jobId = true)
    (hex : String) : ∀ path ∈ localPaths root hex spec,
      path.isRelativeTo (stateRoot root jobId) = true ∨
        path.isRelativeTo (resultsRoot root jobId) = true := by
  have hstate : jobDir root spec = stateRoot root jobId := by
    rw [jobDir, hjob, textOf, ofString_of_canonical hcanonical]
    rfl
  have hresults : resultsDir root spec = resultsRoot root jobId := by
    rw [resultsDir, hjob, textOf, ofString_of_canonical hcanonical]
    rfl
  intro path hmem
  rw [localPaths, hstate, hresults, List.cons_append, List.mem_cons, List.mem_append,
    List.mem_cons] at hmem
  rcases hmem with rfl | hmem | rfl | hmem
  · exact .inl (isRelativeTo_refl _)
  · obtain ⟨name, -, rfl⟩ := List.mem_map.mp hmem
    exact .inl (isRelativeTo_child _ _)
  · exact .inr (isRelativeTo_refl _)
  · obtain ⟨name, -, rfl⟩ := List.mem_map.mp hmem
    exact .inr (isRelativeTo_child _ _)

/-- What is accepted is confined. -/
theorem confined_of_accepted {payload : Json} (root : Path) (hd : payload.distinct = true)
    {r : Json × String} (hr : validate py payload = .ok r) :
    ∃ jobId projectId attemptId, Confined root payload r.1 jobId projectId attemptId := by
  have hold := validate_ok hd hr
  obtain ⟨hvalid, -, -, rfl⟩ := validatePayload_ok hd hold
  obtain ⟨hattempt, hjob, hproject⟩ := uuids_of_accepted hold
  obtain ⟨attemptId, hattempt, hcattempt⟩ := uuidOk_canonical hattempt
  obtain ⟨jobId, hjob, hcjob⟩ := uuidOk_canonical hjob
  obtain ⟨projectId, hproject, hcproject⟩ := uuidOk_canonical hproject
  have hbase : baseOf (field payload "spec") = keyPrefix projectId jobId := by
    rw [baseOf, hjob, hproject]
    rfl
  have hkey := hvalid.key
  have houtput := hvalid.outputPrefix
  rw [hbase] at hkey houtput
  have hkey' : field (field (sortKeys (field payload "spec")) "input") "key" =
      .str (keyPrefix projectId jobId ++ "input.wav") := by
    rw [field_sortKeys, field_sortKeys, hkey]
    rfl
  have houtput' : field (sortKeys (field payload "spec")) "output_prefix" =
      .str (keyPrefix projectId jobId ++ "results/") := by
    rw [field_sortKeys, houtput]
    rfl
  have hjob' : field (sortKeys (field payload "spec")) "job_id" = .str jobId := by
    rw [field_sortKeys, hjob]
    rfl
  refine ⟨jobId, projectId, attemptId, hjob, hproject, hattempt, hcjob, hcproject, hcattempt, ?_,
    objectKeys_confined hkey' houtput', localPaths_confined hjob' hcjob⟩
  rw [hkey', keyPrefix, String.append_assoc]
  rfl

/-- The uploads of `Publication` go to these keys. -/
theorem publish_objectKeys (h : Host) (fs : FileSystem) (spec : Spec) (out : Path)
    (attempts : String → Attempt) (response : Json) :
    ∀ put ∈ (publish h fs spec out attempts response).1, put.key ∈ objectKeys spec.json := by
  intro put hput
  unfold publish at hput
  split at hput
  · cases hput
  · cases hput
  next result files _ hfiles =>
    split at hput
    · cases hput
    · obtain ⟨file, hfile, hkey⟩ := List.mem_filterMap.mp hput
      rw [(artifactFiles_ok hfiles).1] at hfile
      obtain ⟨name, hname, rfl⟩ := List.mem_map.mp hfile
      have houtput : textOf (field spec.json "output_prefix") = spec.outputPrefix := by
        show _ ++ _ ++ _ ++ _ ++ "/" ++ "results/" = _
        rw [String.append_assoc]
        rfl
      have hkey : put.key = spec.outputPrefix ++ name := by
        split at hkey
        · exact (Option.some.inj hkey) ▸ rfl
        · exact (Option.some.inj hkey) ▸ rfl
        · cases hkey
      rw [hkey, ← houtput, objectKeys]
      exact List.mem_cons_of_mem _ (List.mem_map_of_mem (List.mem_of_mem_filter hname))

/-- **Job confinement.**  An accepted payload has canonical IDs, and the keys and paths that
`process` derives from its spec lie under the prefix and in the two directories of its job; those of
two jobs have nothing in common; and a payload that is not accepted raises
`WorkerError('invalid_spec')`, whatever value it is. -/
theorem confinement (py : Interpreter) (root : Path) :
    (∀ (payload : Json) (r : Json × String), payload.distinct = true →
      validate py payload = .ok r →
      ∃ jobId projectId attemptId, Confined root payload r.1 jobId projectId attemptId) ∧
    (∀ (payload payload' : Json) (r r' : Json × String), payload.distinct = true →
      payload'.distinct = true → validate py payload = .ok r → validate py payload' = .ok r' →
      field (field payload "spec") "job_id" ≠ field (field payload' "spec") "job_id" →
      (objectKeys r.1).Disjoint (objectKeys r'.1) ∧
        ∀ hex hex', (localPaths root hex r.1).Disjoint (localPaths root hex' r'.1)) ∧
    ∀ (payload : Json) (x : Thrown), payload.distinct = true → validate py payload = .error x →
      ∃ message, x = .worker { code := .invalidSpec, message } := by
  refine ⟨fun payload r hd hr => confined_of_accepted root hd hr, ?_,
    fun payload x hd hx => validate_error hd hx⟩
  intro payload payload' r r' hd hd' hr hr' hne
  obtain ⟨jobId, projectId, attemptId, hconfined⟩ := confined_of_accepted root hd hr
  obtain ⟨jobId', projectId', attemptId', hconfined'⟩ := confined_of_accepted root hd' hr'
  refine hconfined.disjoint hconfined' fun heq => hne ?_
  rw [hconfined.sentJob, hconfined'.sentJob, heq]

/-! A project with two jobs; and the ID of the first in another spelling. -/

def cpython : Interpreter where
  unicode := { decimal := fun _ => none, space := fun _ => false, repr := id }
  sha256 := bytesText
  repr := id
  surrogate := fun _ => none
  frames := 1000
  two_le_frames := by decide

def secondSpec : Spec := { accentSpec with jobId := "00000000-0000-4000-8000-00000000000a" }

def bracedSpec : Spec := { accentSpec with jobId := "urn:uuid:00000000000040008000000000000001" }

def secondInput : Json := inputData secondSpec.json "00000000-0000-4000-8000-000000000003"

def bracedInput : Json := inputData bracedSpec.json "00000000-0000-4000-8000-000000000003"

theorem bracedInput_rejected : (validate cpython bracedInput).isOk = false := by decide +kernel

/-- The two jobs are apart; the other spelling is turned down. -/
theorem confinement_sample :
    (∃ r r', validate cpython accentInput = .ok r ∧ validate cpython secondInput = .ok r' ∧
      (objectKeys r.1).Disjoint (objectKeys r'.1)) ∧
    ∃ message, validate cpython bracedInput =
      .error (.worker { code := .invalidSpec, message }) := by
  have hattempt : Uuid.str cpython.unicode "00000000-0000-4000-8000-000000000003" =
      .ok "00000000-0000-4000-8000-000000000003" := by decide +kernel
  have hd := Json.distinct_of_plain _ accentSpec.plain_json
  have hd' := Json.distinct_of_plain _ secondSpec.plain_json
  have hr : validate cpython accentInput = _ :=
    validate_inputData hd hattempt (by decide +kernel) rfl
  have hr' : validate cpython secondInput = _ :=
    validate_inputData hd' hattempt (by decide +kernel) rfl
  have hdistinct : ∀ spec : Json, spec.distinct = true →
      (inputData spec "00000000-0000-4000-8000-000000000003").distinct = true := by
    intro spec hspec
    simp [inputData, Json.distinct, Json.distinctFields, hspec]
  have hconfinement := confinement cpython (Path.ofString "/deploy")
  refine ⟨⟨_, _, hr, hr', ?_⟩, ?_⟩
  · exact (hconfinement.2.1 _ _ _ _ (hdistinct _ hd) (hdistinct _ hd') hr hr' (by decide +kernel)).1
  · cases hx : validate cpython bracedInput with
    | ok r =>
      have hno := bracedInput_rejected
      rw [hx] at hno
      cases hno
    | error x =>
      obtain ⟨message, rfl⟩ := hconfinement.2.2 bracedInput x
        (hdistinct _ (Json.distinct_of_plain _ bracedSpec.plain_json)) hx
      exact ⟨message, rfl⟩

end Inference.V73.Confinement
