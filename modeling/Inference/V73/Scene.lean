import Inference.V73.AtMostOnce

/-!
# Inference.V73.Scene — how a job can end, whatever happens on the way

One job with one spec, an input object that does not change and a daemon whose finished report says
what its answer says (`Scene.Honest`).  A call learns the answer live, from the state file or from
the report; `Held` is what the three have in common, and it fixes the outcome of `_upload_result`.

* `Faithful`: what a step of the environment may do; failures are ones the code calls retryable.
* `Ends`: the final outcome of the scene, with no reference to any run; `ends_unique`.
* `Fine`, `Main.Expects`, `Collector.Expects`: what state file and owner of the lock contain.
* **`terminal_ends`**: a result or a persisted error of any run is the final outcome of the scene.
-/

namespace Inference.V73

open Inference.Lib

variable {h : Host}

/-! ### The environment -/

/-- The report in `result.json`, if its status is `completed` or `no_usable_note`. -/
def reportAt (h : Host) (fs : FileSystem) (out : Path) : Option Json :=
  ((fs.read (out.child "result.json")).bind h.loads).filter fun report =>
    report.isDict && (report.get? "status" = some (.str "completed") ||
      report.get? "status" = some (.str "no_usable_note"))

/-- An answer `ok: true` with the status, output directory, report path and artifacts of `report`. -/
structure Matches (out : Path) (answer report : Json) : Prop where
  ok : answer.get? "ok" = some (.bool true)
  isDict : (resultOf answer).isDict = true
  status : (resultOf answer).get? "status" = report.get? "status"
  output : (resultOf answer).get? "output" = some (.str out.text)
  reportPath : (resultOf answer).get? "report" = some (.str (out.child "result.json").text)
  artifacts : ((resultOf answer).get? "artifacts").getD (.obj []) =
    (report.get? "artifacts").getD (.obj [])

/-- What does not depend on the run: the spec, the input object, the daemon's answer, and the files
before the daemon ran and after it finished. -/
structure Scene where
  spec : Spec
  contentLength : Option ℤ
  object : Bytes
  line : Bytes
  answer : Json
  before : FileSystem
  after : FileSystem

namespace Scene

def job (T : Scene) : String := T.spec.jobId

def out (h : Host) (T : Scene) : Path := outDir h T.spec.jobId

/-- What the assumptions on the daemon come to. -/
structure Honest (h : Host) (T : Scene) : Prop where
  answers : daemonResponse h T.line = some T.answer
  finite : T.answer.finite = true
  fresh : reportAt h T.before (T.out h) = none
  alike : ∀ report, reportAt h T.after (T.out h) = some report → Matches (T.out h) T.answer report

/-- What `_download` does with the object. -/
def downloaded (h : Host) (T : Scene) : Except Exn Bytes :=
  download h T.spec T.contentLength (T.object.map fun b => [b])

/-- The object is the declared one. -/
def Passed (h : Host) (T : Scene) : Prop := ∃ data, T.downloaded h = .ok data

/-- The first call gets past the checks on the output directory. -/
def Opens (h : Host) (T : Scene) : Prop :=
  safePath h T.before (T.out h) = .ok (T.out h) ∧ T.before.present (T.out h) = false

end Scene

/-- The error an exception at a point of `_execute` becomes. -/
def classify (k : Collector) (e : Exn) : WorkerError :=
  match k with
  | .connect | .mark => daemonError false
  | .send | .receive => daemonError true
  | _ => outcomeOf e

/-- The steps the assumptions allow: the one spec; failures of a collector that are retryable; the
object as it is, in any chunks; the daemon's one answer, and the daemon working in the output
directory after it got the request until it is finished. -/
def Faithful (h : Host) (T : Scene) (s : Sys) : Event → Prop
  | .process _ spec => spec = T.spec
  | .collect i io => ∀ c, s.calls[i]? = some c →
      (∀ e, io.fault = some e ∨ io.late = some e → (classify c.collector e).retryable = true) ∧
      (io.fault = none → c.collector = .download → io.contentLength = T.contentLength ∧
        (∀ data ∈ io.reads, data ≠ []) ∧ io.reads.flatten = T.object) ∧
      (io.fault = none → c.collector = .receive → s.daemon = .finished ∧ io.line = T.line)
  | .daemon files finished => s.daemon = .working ∧
      if finished then files = T.after else reportAt h files (T.out h) = none
  | _ => True

/-- Some call returned a result, or raised the error that is persisted, and `v` says which. -/
def Terminal (s : Sys) (v : Verdict) : Prop :=
  (∃ (i : ℕ) (c : Call) (r : Json), s.calls[i]? = some c ∧ c.main = .returned r ∧
    v = .result r.sortKeys) ∨
  (∃ (i : ℕ) (c : Call) (e : WorkerError) (st : State), s.calls[i]? = some c ∧
    c.main = .raised (.worker e) ∧ s.file = some st ∧ st.error = some (e.code, e.message) ∧
    v = .error e.code)

/-! ### The final outcome of a scene -/

def Verdict.finite : Verdict → Bool
  | .result value => value.finite
  | .error _ => true

/-- A call that gets far enough ends with `v`. -/
def Points (h : Host) (T : Scene) (v : Verdict) : Prop :=
  T.Opens h ∧
    ((∃ e, T.downloaded h = .error (.worker e) ∧ e.final = true ∧ v = .error e.code) ∨
      (T.Passed h ∧ Leads h T.after T.spec (T.out h) T.answer v))

/-- The same, with an outcome that can be persisted. -/
def Ends (h : Host) (T : Scene) (v : Verdict) : Prop := Points h T v ∧ v.finite = true

variable {T : Scene} {w : World} {st : State} {v v' : Verdict}

theorem ends_unique (hv : Ends h T v) (hv' : Ends h T v') : v = v' := by
  obtain ⟨⟨-, hv⟩, -⟩ := hv
  obtain ⟨⟨-, hv'⟩, -⟩ := hv'
  rcases hv with ⟨e, he, -, rfl⟩ | ⟨⟨data, hd⟩, hl⟩ <;>
    rcases hv' with ⟨e', he', -, rfl⟩ | ⟨⟨data', hd'⟩, hl'⟩
  · rw [he, Except.error.injEq, Exn.worker.injEq] at he'
    rw [he']
  · rw [he] at hd'
    cases hd'
  · rw [hd] at he'
    cases he'
  · exact leads_unique hl hl'

/-! ### The answer, however a call came by it -/

/-- A response from which `_upload_result` learns what the daemon answered. -/
def Alike (T : Scene) (r : Json) : Prop := ReadAlike r T.answer ∨ ReadAlike r T.answer.sortKeys

theorem Alike.sortKeys {r : Json} (ha : Alike T r) : Alike T r.sortKeys := by
  rcases ha with ha | ha
  · exact Or.inr ha.sortKeys
  · exact Or.inr (Json.sortKeys_sortKeys T.answer ▸ ha.sortKeys)

theorem Alike.leads {r : Json} (ha : Alike T r)
    (hv : verdict (uploadResult h T.after T.spec (T.out h) r) = some v) :
    Leads h T.after T.spec (T.out h) T.answer v := by
  rcases ha with ha | ha
  · exact Or.inl (uploadResult_congr ha T.spec (T.out h) ▸ hv)
  · exact Or.inr (uploadResult_congr ha T.spec (T.out h) ▸ hv)

theorem alike_answer : Alike T T.answer := Or.inl ⟨rfl, rfl, rfl, rfl, rfl, rfl⟩

theorem recoverResponse_eq_some {fs : FileSystem} {running : Bool} {output : Option String}
    {out : Path} {r : Json} (hr : recoverResponse h fs running output out = .ok (some r)) :
    running = true ∧ ∃ report, reportAt h fs out = some report ∧
      ∃ status, report.get? "status" = some (.str status) ∧
        r = .obj [("ok", .bool true), ("result", .obj [("status", .str status),
            ("output", .str out.text), ("report", .str (out.child "result.json").text),
            ("artifacts", (report.get? "artifacts").getD (.obj []))])] := by
  unfold recoverResponse at hr
  split at hr
  · cases hr
  next hrun =>
    have hrunning : running = true := by
      by_contra hn
      simp [Bool.not_eq_true _ ▸ hn] at hrun
    refine ⟨hrunning, ?_⟩
    cases hsafe : safePath h fs (out.child "result.json") with
    | error e =>
      rw [hsafe] at hr
      cases hr
    | ok path =>
      obtain rfl := safePath_eq_ok hsafe
      simp only [hsafe, readJson, bind, Except.bind, pure, Except.pure] at hr
      split at hr
      · cases hr
      · cases hread : (fs.read (out.child "result.json")).bind h.loads with
        | none =>
          simp only [Option.bind] at hread hr
          rw [hread] at hr
          cases hr
        | some report =>
          simp only [Option.bind] at hread hr
          rw [hread] at hr
          simp only at hr
          split at hr
          next status hdict hstatus =>
            split at hr
            next hfinal =>
              refine ⟨report, ?_, status, hstatus, (Option.some.inj (Except.ok.inj hr)).symm⟩
              rw [reportAt, Option.filter_eq_some_iff]
              refine ⟨hread, ?_⟩
              rcases hfinal with rfl | rfl <;> simp [hdict, hstatus]
            next => cases hr
          next => cases hr

/-- The recovered response says what the answer said. -/
theorem alike_recovered (hT : T.Honest h) {running : Bool} {output : Option String} {r : Json}
    (hr : recoverResponse h T.after running output (T.out h) = .ok (some r)) : Alike T r := by
  obtain ⟨-, report, hreport, status, hstatus, rfl⟩ := recoverResponse_eq_some hr
  have hm := hT.alike report hreport
  refine Or.inl ⟨?_, ?_, ?_, ?_, ?_, ?_⟩
  · rw [hm.ok]
    rfl
  · rw [hm.isDict]
    rfl
  · rw [hm.status, hstatus]
    rfl
  · rw [hm.output]
    rfl
  · rw [hm.reportPath]
    rfl
  · rw [hm.artifacts]
    rfl

/-! ### What the state file contains -/

/-- The daemon is finished and `r` says what it answered. -/
structure Held (h : Host) (T : Scene) (d : Daemon) (r : Json) : Prop where
  finished : d = .finished
  passed : T.Passed h
  opens : T.Opens h
  alike : Alike T r

/-- A state that is true to the scene. -/
structure Fine (h : Host) (T : Scene) (d : Daemon) (st : State) : Prop where
  response : ∀ r, st.response = some r → Held h T d r
  running : st.isRunning = true → T.Passed h ∧ T.Opens h
  result : ∀ r, st.result = some r → Ends h T (.result r.sortKeys)
  error : ∀ e, st.error = some e → Ends h T (.error e.1)

variable {d : Daemon}

theorem fine_empty : Fine h T d {} := ⟨nofun, nofun, nofun, nofun⟩

theorem Fine.readBack (hf : Fine h T d st) : Fine h T d st.readBack := by
  refine ⟨?_, hf.running, ?_, hf.error⟩
  · intro r hr
    obtain ⟨x, hx, rfl⟩ := Option.map_eq_some_iff.mp hr
    have hheld := hf.response x hx
    exact ⟨hheld.finished, hheld.passed, hheld.opens, hheld.alike.sortKeys⟩
  · intro r hr
    obtain ⟨x, hx, rfl⟩ := Option.map_eq_some_iff.mp hr
    rw [Json.sortKeys_sortKeys]
    exact hf.result x hx

/-- Before the daemon is finished nobody has a response, so its progress changes nothing. -/
theorem Fine.early {d' : Daemon} (hf : Fine h T d st) (hd : d ≠ .finished) : Fine h T d' st :=
  ⟨fun r hr => absurd (hf.response r hr).finished hd, hf.running, hf.result, hf.error⟩

/-- The shared files along a run of the scene. -/
structure Kept (h : Host) (T : Scene) (w : World) : Prop where
  file : ∀ st, w.file = some st → Fine h T w.daemon st
  opens : w.file ≠ none → T.Opens h
  idle : w.daemon = .idle → w.files = T.before
  finished : w.daemon = .finished → w.files = T.after
  early : w.daemon ≠ .finished → reportAt h w.files (T.out h) = none
  started : w.daemon ≠ .idle → w.requests ≠ []

def Main.Expects (h : Host) (T : Scene) (w : World) (st : State) : Main → Prop
  | .checkOut => Fine h T w.daemon st ∧ (w.file = none → st.response = none)
  | .recover => Fine h T w.daemon st
  | .lockModel | .start => Fine h T w.daemon st ∧ T.Opens h
  | _ => True

def Collector.Expects (h : Host) (T : Scene) (d : Daemon) (st : State) : Collector → Prop
  | .writeInit | .download => Fine h T d st ∧ T.Opens h
  | .checkActive | .connect | .mark | .send | .receive => Fine h T d st ∧ T.Opens h ∧ T.Passed h
  | .saveResponse r => Fine h T d st ∧ Held h T d r
  | .upload => Fine h T d st ∧ st.response ≠ none
  | .saveResult r => Fine h T d st ∧ Points h T (.result r.sortKeys)
  | .saveError e => Fine h T d st ∧ Ends h T (.error e.code)
  | .closeModel (.ok r) | .closeJob (.ok r) | .done (.ok r) => Ends h T (.result r.sortKeys)
  | _ => True

/-- What a call that owns the lock knows: the record of the requests, and the scene. -/
def Call.Expects (h : Host) (T : Scene) (w : World) (c : Call) : Prop :=
  c.Knows w ∧ c.main.Expects h T w c.state ∧ c.collector.Expects h T w.daemon c.state

/-- A write of a true state keeps the file true. -/
theorem Kept.write (hk : Kept h T w) (ho : T.Opens h)
    (hst : st.finite = true → Fine h T w.daemon st) (io : Io) :
    Kept h T { w with file := (writeState w.file st io).1 } := by
  refine ⟨?_, fun _ => ho, hk.idle, hk.finished, hk.early, hk.started⟩
  intro x hx
  simp only [writeState] at hx
  split at hx
  · exact hk.file x hx
  · split at hx
    · exact hk.file x hx
    next hfin =>
      obtain rfl := Option.some.inj hx
      exact (hst (by simpa using hfin)).readBack

/-! ### The steps of the owner -/

theorem advances_expects (hT : T.Honest h) {s : Sys} {c c' : Call} {io : Io}
    (hidle : c.collector = .idle) (hS : Sound s.toWorld) (hK : Kept h T s.toWorld)
    (hL : c.main.Expects h T s.toWorld c.state) (ha : Advances h T.job s io c c') :
    c'.main.Expects h T s.toWorld c'.state ∧
      c'.collector.Expects h T s.daemon c'.state := by
  cases ha with
  | close x e => exact ⟨trivial, by rw [hidle]; trivial⟩
  | readState _ _ =>
    refine ⟨⟨?_, ?_⟩, by rw [hidle]; trivial⟩
    · cases hf : s.file with
      | none => exact fine_empty
      | some x => exact hK.file x hf
    · intro hf
      rw [show s.file = none from hf]
      rfl
  | mustRecover hat =>
    rw [hat] at hL
    exact ⟨hL.1, by rw [hidle]; trivial⟩
  | pass hat hsafe hfree =>
    rw [hat] at hL
    refine ⟨⟨hL.1, ?_⟩, by rw [hidle]; trivial⟩
    by_cases hf : s.file = none
    · -- the first call of all: the daemon has not seen anything yet
      have hd : s.daemon = .idle := by
        by_contra hd
        obtain ⟨x, hx, -⟩ := hS.marked (hK.started hd)
        rw [show s.file = some x from hx] at hf
        cases hf
      have hfiles : s.files = T.before := hK.idle hd
      exact ⟨hfiles ▸ hsafe, hfiles ▸ (hfree (hL.2 hf)).2⟩
    · exact hK.opens hf
  | recover hat r hr =>
    rw [hat] at hL
    obtain ⟨hrun, report, hreport, -⟩ := recoverResponse_eq_some hr
    obtain ⟨hpassed, hopens⟩ := hL.running hrun
    have hd : s.daemon = .finished := by
      by_contra hd
      have hnone := hK.early hd
      rw [show reportAt h s.files (T.out h) = some report from hreport] at hnone
      cases hnone
    have hfiles : s.files = T.after := hK.finished hd
    rw [hfiles] at hr
    refine ⟨⟨⟨?_, nofun, hL.result, hL.error⟩, hopens⟩, by rw [hidle]; trivial⟩
    intro x hx
    obtain rfl := Option.some.inj hx
    exact ⟨hd, hpassed, hopens, alike_recovered hT hr⟩
  | lockModel hat =>
    rw [hat] at hL
    exact ⟨hL, by rw [hidle]; trivial⟩
  | start hat =>
    rw [hat] at hL
    exact ⟨trivial, hL⟩

/-- After a failure that is called retryable nothing is persisted. -/
theorem expects_failed {e : Exn} (he : (outcomeOf e).retryable = true) :
    (failed e).Expects h T d st := by
  cases e with
  | worker e =>
    rw [failed, WorkerError.final, show e.retryable = true from he]
    trivial
  | value | other => trivial

theorem expects_daemonFailed (sent : Bool) : (daemonFailed sent).Expects h T d st :=
  expects_failed rfl

/-- After a failure of the checks, retryable or not, the persisted code is the scene's. -/
theorem expects_failed_of_ends {e : Exn} (hf : Fine h T d st)
    (he : ∀ x, e = .worker x → x.final = true → Ends h T (.error x.code)) :
    (failed e).Expects h T d st := by
  cases e with
  | worker e =>
    rw [failed]
    split
    next hfinal => exact ⟨hf, he e rfl hfinal⟩
    next => trivial
  | value | other => trivial

theorem writeState_exn {file : Option State} {io : Io} {e : Exn}
    (he : (writeState file st io).2 = some e) :
    (io.fault = some e ∨ io.late = some e) ∨ e = .value := by
  unfold writeState at he
  split at he
  · exact Or.inl (Or.inl he)
  · split at he
    · exact Or.inr (Option.some.inj he).symm
    · exact Or.inl (Or.inr he)

theorem finite_of_writeState {file : Option State} {io : Io}
    (hok : (writeState file st io).2 = none) : st.finite = true := by
  unfold writeState at hok
  split at hok
  next hfault =>
    rw [show io.fault = none from hok] at hfault
    cases hfault
  next =>
    split at hok
    · cases hok
    next hfin => simpa using hfin

/-- A failed write of a call whose failures are retryable. -/
theorem expects_write_failed {file : Option State} {io : Io} {e : Exn}
    (hio : ∀ e, io.fault = some e ∨ io.late = some e → (outcomeOf e).retryable = true)
    (he : (writeState file st io).2 = some e) {st' : State} : (failed e).Expects h T d st' := by
  rcases writeState_exn he with hio' | rfl
  · exact expects_failed (hio e hio')
  · exact expects_failed rfl

theorem collectStep_expects (hT : T.Honest h) {s s' : Sys} {i : ℕ} {c c' : Call} {io : Io}
    (hspec : c.spec = T.spec) (hfaithful : Faithful h T s (.collect i io))
    (hK : Kept h T s.toWorld) (hknows : c.collector.Knows s.toWorld c.state c.outAtStart)
    (hL : c.collector.Expects h T s.daemon c.state)
    (hs : collectStep h T.job s i c io = some s') (hc : s.calls[i]? = some c)
    (hc' : s'.calls[i]? = some c') :
    Kept h T s'.toWorld ∧ c'.collector.Expects h T s'.daemon c'.state := by
  have hput : ∀ {w : World} {x : State} {k : Collector} {model : Holder} {lock : Option ℕ},
      some ({ s with toWorld := w, modelLock := model, jobLock := lock }.put i
        { c with state := x, collector := k }) = some s' → Kept h T w →
      k.Expects h T w.daemon x →
      Kept h T s'.toWorld ∧ c'.collector.Expects h T s'.daemon c'.state := by
    intro w x k model lock he hkept hexp
    obtain rfl := Option.some.inj he
    rw [getElem?_put_self hc rfl hc']
    exact ⟨hkept, hexp⟩
  obtain ⟨hretry, hobject, hanswer⟩ := hfaithful c hc
  unfold collectStep at hs
  split at hs <;> rename_i hk <;> rw [hk] at hL hknows hretry hobject hanswer
  case h_1 =>
    obtain ⟨hf, ho⟩ := hL
    have hf' : Fine h T s.daemon { c.state with
        fingerprint := some (h.fingerprint c.spec), output := some (outDir h T.job).text } :=
      ⟨hf.response, hf.running, hf.result, hf.error⟩
    refine hput hs (hK.write ho (fun _ => hf') io) ?_
    split
    · trivial
    · split
      next => exact ⟨hf', ho⟩
      next hsome => exact ⟨hf', fun hnone => hsome (Option.isNone_iff_eq_none.mpr hnone)⟩
  case h_2 =>
    obtain ⟨hf, ho⟩ := hL
    refine hput hs hK ?_
    split
    next e he => exact expects_failed (hretry e (Or.inl he))
    next hfault =>
      obtain ⟨hlen, hreads, hflat⟩ := hobject hfault rfl
      have hdown : download h c.spec io.contentLength io.reads = T.downloaded h := by
        rw [hspec, hlen]
        refine download_congr _ _ hreads ?_ ?_
        · intro data hdata
          obtain ⟨b, -, rfl⟩ := List.mem_map.mp hdata
          exact List.cons_ne_nil _ _
        · rw [hflat, ← List.flatMap_def, List.flatMap_singleton']
      rw [hdown]
      split
      next e he =>
        refine expects_failed_of_ends hf fun x hx hfinal => ⟨⟨ho, Or.inl ?_⟩, rfl⟩
        exact ⟨x, hx ▸ he, hfinal, rfl⟩
      next data hdata => exact ⟨hf, ho, data, hdata⟩
  case h_3 =>
    refine hput hs hK ?_
    split
    · exact hL
    · trivial
  case h_4 =>
    refine hput hs hK ?_
    split
    · exact expects_daemonFailed _
    · exact hL
  case h_5 =>
    obtain ⟨hf, ho, hp⟩ := hL
    have hf' : Fine h T s.daemon { c.state with running := some true } :=
      ⟨hf.response, fun _ => ⟨hp, ho⟩, hf.result, hf.error⟩
    refine hput hs (hK.write ho (fun _ => hf') io) ?_
    split
    · exact expects_daemonFailed _
    · exact ⟨hf', ho, hp⟩
  case h_6 =>
    obtain ⟨hf, ho, hp⟩ := hL
    have hd : s.daemon = .idle := by
      by_contra hd
      exact hK.started hd hknows.1.1
    have hne : s.daemon ≠ .finished := by rw [hd]; nofun
    have hne' : (if io.whole || io.fault.isNone then .working else s.daemon) ≠
        Daemon.finished := by
      rw [hd]
      split <;> nofun
    have hexp : ∀ d' : Daemon, Collector.Expects h T d' c.state
        (if io.fault.isSome then daemonFailed true else .receive) := by
      intro d'
      split
      · exact expects_daemonFailed _
      · exact ⟨hf.early hne, ho, hp⟩
    refine hput hs ⟨fun x hx => (hK.file x hx).early hne, hK.opens, fun _ => hK.idle hd,
      fun hfin => absurd hfin hne', fun _ => hK.early hne, ?_⟩ (hexp _)
    intro hstarted
    by_cases hwhole : (io.whole || io.fault.isNone) = true
    · simp only [hwhole, Bool.true_or, if_true]
      exact List.cons_ne_nil _ _
    · simp only [hwhole, hd] at hstarted
      exact absurd rfl hstarted
  case h_7 =>
    obtain ⟨hf, ho, hp⟩ := hL
    refine hput hs hK ?_
    split
    next r hfault hr =>
      obtain ⟨hd, hline⟩ := hanswer hfault rfl
      rw [hline, hT.answers] at hr
      obtain rfl := Option.some.inj hr
      exact ⟨hf, hd, hp, ho, alike_answer⟩
    next => exact expects_daemonFailed _
  case h_8 r =>
    obtain ⟨hf, hheld⟩ := hL
    have hf' : Fine h T s.daemon { c.state with response := some r, running := some false } := by
      refine ⟨?_, nofun, hf.result, hf.error⟩
      intro x hx
      obtain rfl := Option.some.inj hx
      exact hheld
    refine hput hs (hK.write hheld.opens (fun _ => hf') io) ?_
    split
    next e he => exact expects_write_failed hretry he
    next => exact ⟨hf', nofun⟩
  case h_9 =>
    obtain ⟨hf, hne⟩ := hL
    obtain ⟨r, hr⟩ := Option.ne_none_iff_exists'.mp hne
    have hheld := hf.response r hr
    have hfiles : s.files = T.after := hK.finished hheld.finished
    refine hput hs hK ?_
    rw [hr, hspec, hfiles]
    have hpoints : ∀ {v : Verdict}, verdict (uploadResult h T.after T.spec (T.out h) r) = some v →
        Points h T v := fun hv => ⟨hheld.opens, Or.inr ⟨hheld.passed, hheld.alike.leads hv⟩⟩
    split
    next e he => exact expects_failed (hretry e (Or.inl he))
    next =>
      split
      next e he =>
        refine expects_failed_of_ends hf fun x hx hfinal => ⟨hpoints ?_, rfl⟩
        rw [show uploadResult h T.after T.spec (T.out h) r = .error e from he, hx]
        exact if_pos hfinal
      next result he =>
        refine ⟨hf, hpoints ?_⟩
        rw [show uploadResult h T.after T.spec (T.out h) r = .ok result from he]
        rfl
  case h_10 r =>
    obtain ⟨hf, hp⟩ := hL
    have hends : ({ c.state with result := some r } : State).finite = true →
        Ends h T (.result r.sortKeys) := by
      intro hfin
      refine ⟨hp, ?_⟩
      rw [State.finite, Bool.and_eq_true] at hfin
      exact (Json.finite_sortKeys r).trans hfin.2
    have hf' : ({ c.state with result := some r } : State).finite = true →
        Fine h T s.daemon { c.state with result := some r } := by
      intro hfin
      refine ⟨hf.response, hf.running, ?_, hf.error⟩
      intro x hx
      obtain rfl := Option.some.inj hx
      exact hends hfin
    refine hput hs (hK.write hp.1 hf' io) ?_
    split
    next e he => exact expects_write_failed hretry he
    next hok => exact hends (finite_of_writeState hok)
  case h_11 e =>
    obtain ⟨hf, hends⟩ := hL
    have hf' : Fine h T s.daemon { c.state with error := some (e.code, e.message) } := by
      refine ⟨hf.response, hf.running, hf.result, ?_⟩
      intro x hx
      obtain rfl := Option.some.inj hx
      exact hends
    exact hput hs (hK.write hends.1.1 (fun _ => hf') io) trivial
  case h_12 o => cases o <;> exact hput hs hK hL
  case h_13 o => cases o <;> exact hput hs hK hL
  case h_14 => cases hs
  case h_15 => cases hs

/-! ### Every run of the scene -/

/-- Every call has the scene's spec, and what a call returned is the scene's outcome. -/
def Settled (h : Host) (T : Scene) (s : Sys) : Prop :=
  ∀ (i : ℕ) (c : Call), s.calls[i]? = some c → c.spec = T.spec ∧
    (∀ r, c.main = .returned r → Ends h T (.result r.sortKeys)) ∧
    (∀ r, c.collector = .done (.ok r) → Ends h T (.result r.sortKeys))

/-- The invariant of the lock for a scene. -/
def Told (h : Host) (T : Scene) (s : Sys) : Prop :=
  Protected h T.job (fun w => Sound w ∧ Kept h T w) (Call.Expects h T) s ∧ Settled h T s

theorem Main.expects_of_afterStart {m : Main} (hm : m.afterStart = true) : m.Expects h T w st := by
  cases m <;> trivial

theorem Main.Expects.early {m : Main} {w' : World} (hm : m.Expects h T w st)
    (hd : w.daemon ≠ .finished) (hfile : w'.file = w.file) : m.Expects h T w' st := by
  cases m with
  | checkOut => exact ⟨hm.1.early hd, fun hf => hm.2 (hfile ▸ hf)⟩
  | recover => exact Fine.early hm hd
  | lockModel | start => exact ⟨hm.1.early hd, hm.2⟩
  | begin | lockJob | readState | wait | closeJob _ | returned _ | raised _ => trivial

theorem Collector.Expects.early {k : Collector} {d' : Daemon} (hk : k.Expects h T d st)
    (hd : d ≠ .finished) : k.Expects h T d' st := by
  cases k with
  | saveResponse r => exact absurd hk.2.finished hd
  | writeInit | download | checkActive | connect | mark | send | receive | upload | saveResult _
  | saveError _ => exact ⟨hk.1.early hd, hk.2⟩
  | closeModel o | closeJob o | done o => cases o <;> exact hk
  | idle => trivial

theorem step_expects (hT : T.Honest h) {s s' : Sys} {e : Event} (hfaithful : Faithful h T s e)
    (htold : Told h T s) (hs : step h T.job s e = some s') :
    Protected h T.job (fun w => Sound w ∧ Kept h T w) (Call.Expects h T) s' := by
  refine step_protected (C := fun s e => Faithful h T s e ∧ Settled h T s) ?_ ?_ ?_ ?_ ?_
    ⟨hfaithful, htold.2⟩ htold.1 hs
  · intro w c _ hidle
    refine ⟨⟨trivial, ?_⟩, trivial, ?_⟩
    · rw [hidle]
      trivial
    · rw [hidle]
      trivial
  · intro s i c c' io _ hseen hidle hG hL ha
    exact ⟨advances_knows hseen hidle hG.1 hL.1 ha, advances_expects hT hidle hG.1 hG.2 hL.2.1 ha⟩
  · intro w c m hL _ hm
    refine ⟨⟨?_, hL.1.2⟩, Main.expects_of_afterStart hm, hL.2.2⟩
    cases m <;> trivial
  · intro s s' i c c' io hC hafter hG hL hc hs hc' hmain
    obtain ⟨hS, hknows⟩ := collectStep_knows hG.1 hL.1.2 hs hc hc'
    obtain ⟨hK, hexp⟩ := collectStep_expects hT (hC.2 i c hc).1 hC.1 hG.2 hL.1.2 hL.2.2 hs hc hc'
    refine ⟨⟨hS, hK⟩, ⟨?_, hknows⟩, ?_, hexp⟩
    · rw [hmain]
      cases hm : c.main <;> first | trivial | (rw [hm] at hafter; cases hafter)
    · rw [hmain]
      exact Main.expects_of_afterStart hafter
  · rintro s w files finished hC hG _ rfl
    obtain ⟨hd, hfiles⟩ := hC.1
    have hne : s.daemon ≠ .finished := by rw [hd]; nofun
    refine ⟨⟨⟨hG.1.marked, hG.1.once, hG.1.fresh⟩, ?_⟩, ?_⟩
    · refine ⟨fun x hx => (hG.2.file x hx).early hne, hG.2.opens, ?_, ?_, ?_, fun _ =>
        hG.2.started (by rw [hd]; nofun)⟩
      · intro hidle
        rw [hd] at hidle
        cases finished <;> cases hidle
      · intro hfin
        cases finished with
        | true => exact hfiles
        | false =>
          rw [hd] at hfin
          cases hfin
      · intro hnot
        cases finished with
        | true => exact absurd rfl hnot
        | false => exact hfiles
    · intro c hL
      exact ⟨hL.1.congr rfl rfl, hL.2.1.early hne rfl, hL.2.2.early hne⟩

/-- What `process` returns it found in the state file or got from its collector. -/
theorem mainStep_returned {s s' : Sys} {i : ℕ} {c c' : Call} {io : Io} {job : String}
    (hs : mainStep h job s i c io = some s') (hc : s.calls[i]? = some c)
    (hc' : s'.calls[i]? = some c') :
    (c'.collector = c.collector ∨ c'.collector = .writeInit) ∧ ∀ r, c'.main = .returned r →
      (∃ st, s.file = some st ∧ st.result = some r) ∨ c.collector = .done (.ok r) := by
  have hput : ∀ {x : Call} {model : Holder} {lock : Option ℕ},
      some ({ s with modelLock := model, jobLock := lock }.put i x) = some s' → c' = x := by
    intro x model lock he
    obtain rfl := Option.some.inj he
    exact getElem?_put_self hc rfl hc'
  unfold mainStep at hs
  split at hs
  case h_2 =>
    rw [hput hs]
    refine ⟨Or.inl rfl, fun r hr => ?_⟩
    simp only at hr
    split at hr <;> cases hr
  case h_6 =>
    rw [hput hs]
    refine ⟨Or.inl rfl, fun r hr => Or.inl ?_⟩
    simp only [afterRead] at hr
    split at hr
    · cases hr
    · split at hr
      next result hresult =>
        obtain rfl := Main.returned.inj hr
        cases hf : s.file with
        | none =>
          rw [hf] at hresult
          cases hresult
        | some st =>
          rw [hf] at hresult
          exact ⟨st, rfl, hresult⟩
      next => cases hr
      next => cases hr
  case h_14 =>
    rw [hput hs]
    exact ⟨Or.inr rfl, nofun⟩
  case h_15 =>
    repeat' split at hs
    · rw [hput hs]
      exact ⟨Or.inl rfl, nofun⟩
    next result hdone =>
      rw [hput hs]
      refine ⟨Or.inl rfl, fun r hr => Or.inr ?_⟩
      rw [hdone, Main.returned.inj hr]
    · rw [hput hs]
      exact ⟨Or.inl rfl, nofun⟩
    · cases hs
  all_goals
    repeat' split at hs
    all_goals first
      | cases hs; done
      | (rw [hput hs]; exact ⟨Or.inl rfl, nofun⟩)

theorem failed_ne_done (e : Exn) (o : Except WorkerError Json) : failed e ≠ .done o := by
  intro he
  have hholds := Collector.holds_failed e
  rw [he] at hholds
  cases hholds

/-- A collector is done once it has closed `job_lock`. -/
theorem collectStep_done {s s' : Sys} {i : ℕ} {c c' : Call} {io : Io} {job : String}
    {o : Except WorkerError Json} (hs : collectStep h job s i c io = some s')
    (hc : s.calls[i]? = some c) (hc' : s'.calls[i]? = some c') (hdone : c'.collector = .done o) :
    c.collector = .closeJob o := by
  have hput : ∀ {w : World} {x : State} {k : Collector} {model : Holder} {lock : Option ℕ},
      some ({ s with toWorld := w, modelLock := model, jobLock := lock }.put i
        { c with state := x, collector := k }) = some s' → k = .done o := by
    intro w x k model lock he
    obtain rfl := Option.some.inj he
    rw [getElem?_put_self hc rfl hc'] at hdone
    exact hdone
  unfold collectStep at hs
  split at hs
  case h_13 o' hk =>
    obtain rfl := Collector.done.inj (hput hs)
    exact hk
  case h_14 => cases hs
  case h_15 => cases hs
  all_goals
    have hk := hput hs
    repeat' split at hk
    all_goals first
      | cases hk
      | exact absurd hk (failed_ne_done _ _)

theorem step_settled {s s' : Sys} {e : Event} (hfaithful : Faithful h T s e) (htold : Told h T s)
    (hs : step h T.job s e = some s') : Settled h T s' := by
  obtain ⟨hp, hset⟩ := htold
  cases step_cases hs with
  | process =>
    intro j x hx
    rcases getElem?_concat hx with hx | rfl
    · exact hset j x hx
    · exact ⟨hfaithful, fun _ hx => (by cases hx), fun _ hx => (by cases hx)⟩
  | @main i io c s' hc _ hs =>
    obtain ⟨-, c', hm⟩ := mainStep_moves (hp.base.phased i c hc) hs
    obtain ⟨hspec, -, hdone⟩ := hset i c hc
    intro j x hx
    rcases getElem?_put hc hm.calls hx with ⟨rfl, rfl⟩ | ⟨_, hx'⟩
    · obtain ⟨hcol, hret⟩ := mainStep_returned hs hc hx
      refine ⟨hm.spec.trans hspec, fun r hr => ?_, fun r hr => ?_⟩
      · rcases hret r hr with ⟨st, hst, hres⟩ | hd
        · exact (hp.shared.2.file st hst).result r hres
        · exact hdone r hd
      · rcases hcol with hcol | hcol
        · exact hdone r (hcol ▸ hr)
        · rw [hcol] at hr
          cases hr
    · exact hset j x hx'
  | @collect i io c s' hc ha hs =>
    obtain ⟨hk, c', hmain, hm⟩ := collectStep_moves (hp.base.phased i c hc) hs
    obtain ⟨hspec, hret, -⟩ := hset i c hc
    intro j x hx
    rcases getElem?_put hc hm.calls hx with ⟨rfl, rfl⟩ | ⟨_, hx'⟩
    · refine ⟨hm.spec.trans hspec, fun r hr => hret r (hmain ▸ hr), fun r hr => ?_⟩
      have hexp := (hp.owner j c hc ha (by rw [Call.holds, hk, Bool.or_true])).2.2
      rw [collectStep_done hs hc hx hr] at hexp
      exact hexp
    · exact hset j x hx'
  | kill p =>
    intro j x hx
    simp only [List.getElem?_map, Option.map_eq_some_iff] at hx
    obtain ⟨c, hc, rfl⟩ := hx
    rw [Call.killed_spec, Call.killed_main, Call.killed_collector]
    exact hset j c hc
  | takes | gives => exact hset
  | daemon files finished hout =>
    exact hset

theorem told_init (hT : T.Honest h) : Told h T (Sys.init T.before) := by
  have hempty : Sound { files := T.before } :=
    ⟨fun hne => absurd rfl hne, Nat.zero_le 1, by simp⟩
  have hkept : Kept h T { files := T.before } :=
    ⟨nofun, fun hne => absurd rfl hne, fun _ => rfl, nofun, fun _ => hT.fresh,
      fun hne => absurd rfl hne⟩
  refine ⟨protected_init ⟨hempty, hkept⟩, ?_⟩
  intro i c hc
  simp [Sys.init] at hc

/-- **Any run ends as the scene does.** -/
theorem terminal_ends (hT : T.Honest h) {es : List Event} {s : Sys}
    (hC : Meets (step h T.job) (Faithful h T) (Sys.init T.before) es)
    (hrun : exec (step h T.job) (Sys.init T.before) es = some s) (hv : Terminal s v) :
    Ends h T v := by
  have htold : Told h T s := exec_inv_meets
    (fun s e t hf hI hs => ⟨step_expects hT hf hI hs, step_settled hf hI hs⟩) hC (told_init hT) hrun
  rcases hv with ⟨i, c, r, hc, hr, rfl⟩ | ⟨i, c, e, st, hc, _, hfile, herr, rfl⟩
  · exact (htold.2 i c hc).2.1 r hr
  · exact (htold.1.shared.2.file st hfile).error _ herr

end Inference.V73
