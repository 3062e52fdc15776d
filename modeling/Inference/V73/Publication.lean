import Inference.V73.CrashTransparency

/-!
# Inference.V73.Publication — what `_upload_result` uploads, and when

The checks of `_upload_result` are in `Artifacts`; here are the uploads.  `pool.map` starts one upload
per file, at most `upload_workers` at a time; when one raises, those that have not started are
cancelled and the others still end.  So any part of the files may have been put when it raises.

* `verifyEntries_ok`, `localFiles_ok`: what the checks have established.
* `Gate`: everything that holds when the first `put_object` is issued.
* **`publication_gate`**: nothing is put unless `Gate` holds, and a result names exactly what was put.
-/

namespace Inference.V73

open Inference.Lib

/-- What becomes of one upload. -/
inductive Attempt where
  /-- cancelled before it started -/
  | cancelled
  /-- `path.open('rb')` raises -/
  | unopened
  /-- `put_object` raises -/
  | refused
  | stored
deriving DecidableEq, Repr

/-- `put_object(Bucket='synthx-jobs', Key=key, Body=…)` -/
structure PutObject where
  key : String
  body : Bytes
deriving DecidableEq, Repr

variable (h : Host) (fs : FileSystem)

/-- The calls of `put_object`. -/
def putObjects (spec : Spec) (attempts : String → Attempt) (files : List (String × Path)) :
    List PutObject :=
  files.filterMap fun file =>
    match attempts file.1, fs.read file.2 with
    | .refused, some body | .stored, some body => some ⟨spec.outputPrefix ++ file.1, body⟩
    | _, _ => none

/-- `_upload_result`: the objects it puts, and what it returns or raises. -/
def publish (spec : Spec) (out : Path) (attempts : String → Attempt) (response : Json) :
    List PutObject × Except Exn Json :=
  match modelReport out response >>= publication h fs spec out,
    artifactFiles h fs out (required ++ optional) with
  | .error e, _ | _, .error e => ([], .error e)
  | .ok result, .ok files =>
    -- `self._client()` raises inside the `try`
    if !h.configured then ([], raiseRetryable .storageError "artifact upload failed")
    else (putObjects fs spec attempts files,
      if files.all fun file => attempts file.1 = .stored && (fs.read file.2).isSome then .ok result
      else raiseRetryable .storageError "artifact upload failed")

/-! ### What is published -/

/-- `REQUIRED`, and what there is of `OPTIONAL`. -/
def publishedNames (out : Path) : List String :=
  required ++ optional.filter fun name => fs.present (out.child name)

/-- The bytes of a published file. -/
def contents (out : Path) (name : String) : Bytes := (fs.read (out.child name)).getD []

/-- `metadata[name]` -/
def descriptor (spec : Spec) (out : Path) (name : String) : Metadata where
  name := name
  key := spec.outputPrefix ++ name
  sha256 := h.sha256 (contents fs out name)
  sizeBytes := (contents fs out name).length

/-- The path resolves to itself, inside the job's directory. -/
def Inside (out p : Path) : Prop := fs.resolve p = some p ∧ p.isRelativeTo out = true

/-- One entry of a manifest that was accepted: it references a path inside the directory; under the
name of a published file that file, with its hash if it gives one, and with a hash if `strict`. -/
def EntryOk (out : Path) (strict : Bool) (entry : String × Json) : Prop :=
  ∃ text, (entry.2 = .str text ∨ entry.2.get? "path" = some (.str text)) ∧
    Inside fs out (out.join (Path.ofString text)) ∧
    (entry.1 ∈ publishedNames fs out →
      out.join (Path.ofString text) = out.child entry.1 ∧
      (∀ v, entry.2.get? "sha256" = some v → v = .str (h.sha256 (contents fs out entry.1))) ∧
      (strict = true →
        entry.2.get? "sha256" = some (.str (h.sha256 (contents fs out entry.1)))))

/-- A manifest that was accepted. -/
structure ManifestOk (out : Path) (strict : Bool) (manifest : Json) : Prop where
  dict : ∃ entries, manifest = .obj entries ∧ ∀ entry ∈ entries, EntryOk h fs out strict entry
  listed : strict = true →
    ∀ name ∈ ["final.vital", "final.unified.json", "final.wav"], (manifest.get? name).isSome = true

/-- Everything that `_upload_result` has established when it starts to upload. -/
structure Gate (spec : Spec) (out : Path) (response : Json) : Prop where
  ok : ∃ v, response.get? "ok" = some v ∧ v.truthy = true
  status : (resultOf response).get? "status" = some (.str "completed")
  output : (resultOf response).get? "output" = some (.str out.text)
  files : ∀ name ∈ required,
    Inside fs out (out.child name) ∧ fs.isFile (out.child name) = true
  unified : ∃ v, readJson h fs (out.child "final.unified.json") = .ok v ∧ v.isDict = true
  report : ∃ report, readJson h fs (out.child "result.json") = .ok report ∧ report.isDict = true ∧
    report.get? "status" = some (.str "completed") ∧
    report.get? "checkpoint_sha256" = some (.str checkpointSha256) ∧
    report.get? "mode" = some (.str spec.mode.text) ∧
    ManifestOk h fs out true ((report.get? "artifacts").getD (.obj []))
  manifest : ManifestOk h fs out false (((resultOf response).get? "artifacts").getD (.obj []))
  reportPath : ∃ text, (resultOf response).get? "report" = some (.str text) ∧
    out.join (Path.ofString text) = out.child "result.json"

variable {h fs} {spec : Spec} {out : Path}

/-! ### The files -/

theorem safePath_ok {path q : Path} (hq : safePath h fs path = .ok q) :
    q = path ∧ fs.resolve path = some path := by
  refine ⟨safePath_eq_ok hq, ?_⟩
  unfold safePath at hq
  split at hq
  · cases hq
  next resolved hr =>
    split at hq
    next hin => rw [hr, hin.1]
    next => cases hq

theorem artifactFiles_ok {names : List String} {files : List (String × Path)}
    (hf : artifactFiles h fs out names = .ok files) :
    files = (names.filter fun name => fs.present (out.child name) || !optional.contains name).map
      (fun name => (name, out.child name)) ∧
    ∀ file ∈ files, fs.resolve file.2 = some file.2 ∧ fs.isFile file.2 = true := by
  induction names generalizing files with
  | nil =>
    obtain rfl := Except.ok.inj hf
    exact ⟨rfl, nofun⟩
  | cons name names ih =>
    rw [artifactFiles, bind_eq_ok] at hf
    obtain ⟨path, hsafe, hf⟩ := hf
    obtain ⟨rfl, hresolve⟩ := safePath_ok hsafe
    split at hf
    next hskip =>
      -- an optional file that is not there
      have hfalse : (fs.present (out.child name) || !optional.contains name) = false := by
        cases hp : fs.present (out.child name) <;> rw [hp] at hskip
        · rw [Bool.false_or]
          simpa using hskip
        · cases hskip
      rw [List.filter_cons, hfalse]
      exact ih hf
    next hkeep =>
      split at hf
      · cases hf
      next hfile =>
        rw [bind_eq_ok] at hf
        obtain ⟨rest, hrest, hf⟩ := hf
        obtain rfl := Except.ok.inj hf
        obtain ⟨hmap, hall⟩ := ih hrest
        have htrue : (fs.present (out.child name) || !optional.contains name) = true := by
          cases hp : fs.present (out.child name) <;> rw [hp] at hkeep
          · rw [Bool.false_or]
            simpa using hkeep
          · rfl
        refine ⟨?_, ?_⟩
        · rw [List.filter_cons, htrue, hmap]
          rfl
        · intro file hmem
          rcases List.mem_cons.mp hmem with rfl | hmem
          · exact ⟨hresolve, by simpa using hfile⟩
          · exact hall file hmem

theorem publishedNames_eq (fs : FileSystem) (out : Path) :
    ((required ++ optional).filter fun name =>
      fs.present (out.child name) || !optional.contains name) = publishedNames fs out := by
  have hrequired : ∀ name ∈ required,
      (fs.present (out.child name) || !optional.contains name) = true := by
    have hnot : ∀ name ∈ required, (!optional.contains name) = true := by decide
    intro name hname
    rw [hnot name hname, Bool.or_true]
  have hoptional : ∀ name ∈ optional,
      (fs.present (out.child name) || !optional.contains name) = fs.present (out.child name) := by
    intro name hname
    rw [List.contains_iff_mem.mpr hname]
    exact Bool.or_false _
  rw [List.filter_append, List.filter_eq_self.mpr hrequired, List.filter_congr hoptional]
  rfl

theorem fileMetadata_ok {files : List (String × Path)} {metadata : List Metadata}
    (hm : fileMetadata h fs spec files = .ok metadata) :
    metadata = files.map (fun file => ⟨file.1, spec.outputPrefix ++ file.1,
      h.sha256 ((fs.read file.2).getD []), ((fs.read file.2).getD []).length⟩) ∧
    ∀ file ∈ files, (fs.read file.2).isSome = true := by
  induction files generalizing metadata with
  | nil =>
    obtain rfl := Except.ok.inj hm
    exact ⟨rfl, nofun⟩
  | cons file files ih =>
    obtain ⟨name, path⟩ := file
    rw [fileMetadata] at hm
    split at hm
    · cases hm
    next data hread =>
      rw [bind_eq_ok] at hm
      obtain ⟨more, hmore, hm⟩ := hm
      obtain rfl := Except.ok.inj hm
      obtain ⟨rfl, hall⟩ := ih hmore
      refine ⟨?_, ?_⟩
      · rw [List.map_cons, hread]
        rfl
      · intro file hmem
        rcases List.mem_cons.mp hmem with rfl | hmem
        · rw [hread]
          rfl
        · exact hall file hmem

theorem documents_ok {parameterJson detailedReport : Json}
    (hd : documents h fs out = .ok (parameterJson, detailedReport)) :
    readJson h fs (out.child "final.unified.json") = .ok parameterJson ∧
    parameterJson.isDict = true ∧ readJson h fs (out.child "result.json") = .ok detailedReport ∧
    detailedReport.isDict = true ∧ detailedReport.get? "status" = some (.str "completed") := by
  unfold documents at hd
  dsimp only at hd
  split at hd
  · cases hd
  next =>
    rw [bind_eq_ok] at hd
    obtain ⟨unified, hunified, hread⟩ := hd
    split at hread
    · cases hread
    next hdict =>
      rw [bind_eq_ok] at hread
      obtain ⟨report, hreport, hread⟩ := hread
      split at hread
      · cases hread
      next hstatus =>
        obtain ⟨rfl, rfl⟩ := Prod.mk.inj (Except.ok.inj hread)
        rw [Bool.or_eq_true, not_or] at hstatus
        exact ⟨hunified, by simpa using hdict, hreport, by simpa using hstatus.1,
          by simpa using hstatus.2⟩

/-- **The checks on the files.** -/
theorem localFiles_ok {parameterJson detailedReport : Json} {metadata : List Metadata}
    (hl : localFiles h fs spec out = .ok (parameterJson, detailedReport, metadata)) :
    (∃ files, artifactFiles h fs out (required ++ optional) = .ok files ∧
      ∀ file ∈ files, (fs.read file.2).isSome = true) ∧
    documents h fs out = .ok (parameterJson, detailedReport) ∧
    detailedReport.get? "checkpoint_sha256" = some (.str checkpointSha256) ∧
    detailedReport.get? "mode" = some (.str spec.mode.text) ∧
    metadata = (publishedNames fs out).map (descriptor h fs spec out) := by
  rw [localFiles, bind_eq_ok] at hl
  obtain ⟨-, -, hl⟩ := hl
  rw [bind_eq_ok] at hl
  obtain ⟨files, hfiles, hl⟩ := hl
  rw [bind_eq_ok] at hl
  obtain ⟨⟨unified, report⟩, hdocuments, hl⟩ := hl
  simp only at hl
  split at hl
  · cases hl
  next hcheckpoint =>
    split at hl
    · cases hl
    next hmode =>
      rw [bind_eq_ok] at hl
      obtain ⟨m, hmeta, hl⟩ := hl
      obtain ⟨rfl, hrest⟩ := Prod.mk.inj (Except.ok.inj hl)
      obtain ⟨rfl, rfl⟩ := Prod.mk.inj hrest
      obtain ⟨rfl, hread⟩ := fileMetadata_ok hmeta
      refine ⟨⟨files, hfiles, hread⟩, hdocuments, not_not.mp hcheckpoint, not_not.mp hmode, ?_⟩
      rw [(artifactFiles_ok hfiles).1, publishedNames_eq, List.map_map]
      rfl

/-! ### The manifests -/

theorem verifyPath_ok {reference : Option Json} {p : Path}
    (hp : verifyPath h fs out reference = .ok p) :
    ∃ text, reference = some (.str text) ∧ p = out.join (Path.ofString text) ∧
      Inside fs out (out.join (Path.ofString text)) := by
  unfold verifyPath at hp
  split at hp
  next text =>
    rw [bind_eq_ok] at hp
    obtain ⟨candidate, hsafe, hp⟩ := hp
    obtain ⟨rfl, hresolve⟩ := safePath_ok hsafe
    split at hp
    · cases hp
    next hinside =>
      obtain rfl := Except.ok.inj hp
      exact ⟨text, rfl, rfl, hresolve, by simpa using hinside⟩
  next => cases hp

theorem find?_descriptor {names : List String} {name : String} (hname : name ∈ names) :
    (names.map (descriptor h fs spec out)).find? (fun m => m.name = name) =
      some (descriptor h fs spec out name) := by
  induction names with
  | nil => cases hname
  | cons a names ih =>
    rw [List.map_cons, List.find?_cons]
    by_cases ha : a = name
    · rw [ha]
      simp [descriptor]
    · have hne : decide ((descriptor h fs spec out a).name = name) = false := decide_eq_false ha
      rw [hne]
      exact ih ((List.mem_cons.mp hname).resolve_left (Ne.symm ha))

theorem get?_descriptor_dict (v : Json) (key : String) :
    (if v.isDict then v else Json.obj []).get? key = v.get? key := by
  cases v <;> rfl

theorem verifyEntry_ok {strict : Bool} {entry : String × Json}
    (he : verifyEntry h fs out ((publishedNames fs out).map (descriptor h fs spec out)) strict entry =
      .ok ()) : EntryOk h fs out strict entry := by
  rw [verifyEntry, bind_eq_ok] at he
  obtain ⟨candidate, hpath, he⟩ := he
  obtain ⟨text, href, rfl, hinside⟩ := verifyPath_ok hpath
  refine ⟨text, ?_, hinside, fun hname => ?_⟩
  · rw [get?_descriptor_dict] at href
    by_cases ht : (if entry.2.isDict then entry.2 else Json.obj []).truthy = true
    · rw [if_pos ht] at href
      exact Or.inr href
    · rw [if_neg ht] at href
      exact Or.inl (Option.some.inj href)
  · rw [find?_descriptor hname] at he
    simp only [get?_descriptor_dict] at he
    split at he
    · cases he
    next hfixed =>
      split at he
      · cases he
      next hstrict =>
        split at he
        · cases he
        next hgiven =>
          refine ⟨not_not.mp hfixed, ?_, ?_⟩
          · intro v hv
            rw [hv] at hgiven
            simpa [descriptor] using hgiven
          · rintro rfl
            rw [Bool.true_and, Bool.not_eq_true, decide_eq_false_iff_not, not_not] at hstrict
            exact hstrict

theorem verifyEntries_ok {strict : Bool} {entries : List (String × Json)}
    (he : verifyEntries h fs out ((publishedNames fs out).map (descriptor h fs spec out)) strict
      entries = .ok ()) : ∀ entry ∈ entries, EntryOk h fs out strict entry := by
  induction entries with
  | nil => nofun
  | cons entry entries ih =>
    rw [verifyEntries, bind_eq_ok] at he
    obtain ⟨_, hfirst, hrest⟩ := he
    intro e hmem
    rcases List.mem_cons.mp hmem with rfl | hmem
    · exact verifyEntry_ok hfirst
    · exact ih hrest e hmem

theorem verifyManifest_ok {strict : Bool} {manifest : Json}
    (hm : verifyManifest h fs out ((publishedNames fs out).map (descriptor h fs spec out)) strict
      manifest = .ok ()) : ManifestOk h fs out strict manifest := by
  unfold verifyManifest at hm
  split at hm
  next entries =>
    split at hm
    · cases hm
    next hlisted =>
      refine ⟨⟨entries, rfl, verifyEntries_ok hm⟩, ?_⟩
      rintro rfl name hname
      rw [Bool.true_and, Bool.not_eq_true, Bool.not_eq_false', List.all_eq_true] at hlisted
      exact hlisted name hname
  next => cases hm

/-! ### The gate -/

theorem modelReport_ok {response report : Json} (hr : modelReport out response = .ok report) :
    report = resultOf response ∧ (∃ v, response.get? "ok" = some v ∧ v.truthy = true) ∧
    (resultOf response).get? "status" = some (.str "completed") ∧
    (resultOf response).get? "output" = some (.str out.text) := by
  unfold modelReport at hr
  split at hr
  · cases hr
  next v hv =>
    split at hr
    · cases hr
    next htruthy =>
      split at hr
      · cases hr
      · split at hr
        · cases hr
        · split at hr
          · cases hr
          next hstatus =>
            split at hr
            · cases hr
            next houtput =>
              exact ⟨(Except.ok.inj hr).symm, ⟨v, hv, by simpa using htruthy⟩, not_not.mp hstatus,
                not_not.mp houtput⟩

theorem inside_child (name : String) (hr : fs.resolve (out.child name) = some (out.child name)) :
    Inside fs out (out.child name) := by
  refine ⟨hr, ?_⟩
  simp [Path.isRelativeTo, Path.child]

theorem publication_ok {response result : Json}
    (hr : modelReport out response >>= publication h fs spec out = .ok result) :
    Gate h fs spec out response ∧ ∃ unified,
      result = resultJson spec ((publishedNames fs out).map (descriptor h fs spec out)) unified ∧
      readJson h fs (out.child "final.unified.json") = .ok unified := by
  rw [bind_eq_ok] at hr
  obtain ⟨report, hreport, hr⟩ := hr
  obtain ⟨rfl, hok, hstatus, houtput⟩ := modelReport_ok hreport
  rw [publication, bind_eq_ok] at hr
  obtain ⟨⟨unified, detailed, metadata⟩, hlocal, hr⟩ := hr
  obtain ⟨⟨files, hfiles, -⟩, hdocuments, hcheckpoint, hmode, rfl⟩ := localFiles_ok hlocal
  obtain ⟨hunified, hdict, hresult, hdetailed, hcompleted⟩ := documents_ok hdocuments
  rw [bind_eq_ok] at hr
  obtain ⟨_, hfirst, hr⟩ := hr
  rw [bind_eq_ok] at hr
  obtain ⟨_, hsecond, hr⟩ := hr
  rw [bind_eq_ok] at hr
  obtain ⟨path, hpath, hr⟩ := hr
  obtain ⟨text, href, rfl, -⟩ := verifyPath_ok hpath
  split at hr
  · cases hr
  next hfixed =>
    refine ⟨⟨hok, hstatus, houtput, ?_, ⟨unified, hunified, hdict⟩, ?_, verifyManifest_ok hfirst,
      ⟨text, href, not_not.mp hfixed⟩⟩, unified, (Except.ok.inj hr).symm, hunified⟩
    · intro name hname
      obtain ⟨hmap, hall⟩ := artifactFiles_ok hfiles
      have hmem : (name, out.child name) ∈ files := by
        rw [hmap, publishedNames_eq]
        exact List.mem_map_of_mem (List.mem_append_left _ hname)
      exact ⟨inside_child name (hall _ hmem).1, (hall _ hmem).2⟩
    · exact ⟨detailed, hresult, hdetailed, hcompleted, hcheckpoint, hmode, verifyManifest_ok hsecond⟩

/-- When every upload is stored, every published file was put. -/
theorem putObjects_stored {attempts : String → Attempt} {files : List (String × Path)}
    (hfiles : artifactFiles h fs out (required ++ optional) = .ok files)
    (hstored : (files.all fun file => attempts file.1 = .stored && (fs.read file.2).isSome) = true) :
    putObjects fs spec attempts files = (publishedNames fs out).map
      (fun name => ⟨spec.outputPrefix ++ name, contents fs out name⟩) := by
  have hput : ∀ l : List (String × Path),
      (l.all fun file => attempts file.1 = .stored && (fs.read file.2).isSome) = true →
      putObjects fs spec attempts l =
        l.map fun file => ⟨spec.outputPrefix ++ file.1, (fs.read file.2).getD []⟩ := by
    intro l hl
    induction l with
    | nil => rfl
    | cons file l ih =>
      rw [List.all_cons, Bool.and_eq_true, Bool.and_eq_true, decide_eq_true_eq] at hl
      obtain ⟨body, hbody⟩ := Option.isSome_iff_exists.mp hl.1.2
      rw [List.map_cons, ← ih hl.2, putObjects, List.filterMap_cons, hl.1.1, hbody]
      rfl
  rw [hput files hstored, (artifactFiles_ok hfiles).1, publishedNames_eq, List.map_map]
  rfl

/-- The files of a publication are there to be put. -/
theorem publication_files {response result : Json}
    (hr : modelReport out response >>= publication h fs spec out = .ok result) :
    ∃ files, artifactFiles h fs out (required ++ optional) = .ok files ∧
      ∀ file ∈ files, (fs.read file.2).isSome = true := by
  rw [bind_eq_ok] at hr
  obtain ⟨report, -, hr⟩ := hr
  rw [publication, bind_eq_ok] at hr
  obtain ⟨⟨unified, detailed, metadata⟩, hlocal, -⟩ := hr
  exact (localFiles_ok hlocal).1

/-- The outcome that the worker's model takes for an upload that does not raise. -/
theorem publish_stored (h : Host) (fs : FileSystem) (spec : Spec) (out : Path) (response : Json) :
    (publish h fs spec out (fun _ => .stored) response).2 = uploadResult h fs spec out response := by
  have hupload : uploadResult h fs spec out response =
      (modelReport out response >>= publication h fs spec out) >>= fun result =>
        if !h.configured then raiseRetryable .storageError "artifact upload failed"
        else return result := by
    rw [uploadResult]
    cases modelReport out response <;> rfl
  rw [hupload, publish]
  cases hp : modelReport out response >>= publication h fs spec out with
  | error e => rfl
  | ok result =>
    obtain ⟨files, hfiles, hread⟩ := publication_files hp
    have hall : (files.all fun file =>
        decide (Attempt.stored = .stored) && (fs.read file.2).isSome) = true := by
      simpa using hread
    rw [hfiles]
    cases h.configured with
    | false => rfl
    | true =>
      show (if files.all fun file =>
        decide (Attempt.stored = .stored) && (fs.read file.2).isSome then Except.ok result else _) = _
      rw [if_pos hall]
      rfl

/-- **Publication gate.**  For every response, every contents of the job's directory and every fate
of the uploads: an object is put only when `Gate` holds; and when `_upload_result` returns, its
artifacts are the required files and the optional ones that are there, each put under its key with
the bytes that the descriptor hashes and measures, and nothing else was put. -/
theorem publication_gate (h : Host) (fs : FileSystem) (spec : Spec) (out : Path)
    (attempts : String → Attempt) (response : Json) :
    ((publish h fs spec out attempts response).1 ≠ [] → Gate h fs spec out response) ∧
    ∀ result, (publish h fs spec out attempts response).2 = .ok result →
      (publish h fs spec out attempts response).1 = (publishedNames fs out).map
        (fun name => ⟨spec.outputPrefix ++ name, contents fs out name⟩) ∧
      ∃ unified, readJson h fs (out.child "final.unified.json") = .ok unified ∧
        result = resultJson spec ((publishedNames fs out).map (descriptor h fs spec out)) unified := by
  unfold publish
  split
  · exact ⟨fun hne => absurd rfl hne, nofun⟩
  · exact ⟨fun hne => absurd rfl hne, nofun⟩
  next result files hresult hfiles =>
    obtain ⟨hgate, unified, rfl, hunified⟩ := publication_ok hresult
    split
    · exact ⟨fun _ => hgate, nofun⟩
    · refine ⟨fun _ => hgate, fun r hr => ?_⟩
      simp only at hr
      split at hr
      next hstored =>
        obtain rfl := Except.ok.inj hr
        refine ⟨?_, unified, hunified, rfl⟩
        exact putObjects_stored hfiles hstored
      next => cases hr

/-- The files of the completed job, all stored: four objects under the job's prefix. -/
theorem publication_gate_note :
    (publish noteHost noteFiles killSpec (outDir noteHost "job") (fun _ => .stored) noteAnswer).1.map
      PutObject.key = required.map (killSpec.outputPrefix ++ ·) ∧
    Gate noteHost noteFiles killSpec (outDir noteHost "job") noteAnswer := by
  have hkeys : (publish noteHost noteFiles killSpec (outDir noteHost "job") (fun _ => .stored)
      noteAnswer).1.map PutObject.key = required.map (killSpec.outputPrefix ++ ·) := by
    decide +kernel
  refine ⟨hkeys, (publication_gate noteHost noteFiles killSpec _ (fun _ => .stored) noteAnswer).1 ?_⟩
  intro hnil
  rw [hnil] at hkeys
  cases hkeys

end Inference.V73
