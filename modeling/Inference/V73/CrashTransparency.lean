import Inference.V73.Scene

/-!
# Inference.V73.CrashTransparency — kills and retries do not change how a job ends

For a scene with a final outcome, a run in which nothing fails and nothing is killed obtains it:
one call, or a second one when the first was stopped by an exception of its own.

* `Cleanly`: from one state to another with nothing failing.
* **`crash_transparent`**: a result or persisted error of any run is that of a run in which nothing
  fails and nothing is killed.
-/

namespace Inference.V73

open Inference.Lib

variable {h : Host} {T : Scene} {v : Verdict}

/-- Nothing is killed, cancelled or raised by the environment. -/
def Clean : Event → Prop
  | .kill _ => False
  | .main _ io => io.active = true ∧ io.fault = none ∧ io.unreadable = false
  | .collect _ io => io.active = true ∧ io.fault = none ∧ io.late = none
  | _ => True

/-- `t` is reached from `s` in the scene with nothing failing. -/
def Cleanly (h : Host) (T : Scene) (s t : Sys) : Prop :=
  ∃ es, (∀ e ∈ es, Clean e) ∧ Meets (step h T.job) (Faithful h T) s es ∧
    exec (step h T.job) s es = some t

theorem Cleanly.trans {r s t : Sys} (hrs : Cleanly h T r s) (hst : Cleanly h T s t) :
    Cleanly h T r t := by
  obtain ⟨es, hes, hem, her⟩ := hrs
  obtain ⟨fs, hfs, hfm, hfr⟩ := hst
  refine ⟨es ++ fs, ?_, meets_append hem her hfm, exec_append.mpr ⟨s, her, hfr⟩⟩
  intro e he
  rcases List.mem_append.mp he with he | he
  · exact hes e he
  · exact hfs e he

theorem cleanly_step {s t : Sys} {e : Event} (he : Clean e) (hf : Faithful h T s e)
    (hs : step h T.job s e = some t) : Cleanly h T s t := by
  refine ⟨[e], ?_, ⟨hf, fun _ _ => trivial⟩, exec_cons.mpr ⟨t, hs, rfl⟩⟩
  intro x hx
  rw [List.mem_singleton.mp hx]
  exact he

/-- What S3 and the daemon answer in the scene. -/
def cleanIo (T : Scene) : Io where
  contentLength := T.contentLength
  reads := T.object.map fun b => [b]
  line := T.line

@[simp] theorem cleanIo_active : (cleanIo T).active = true := rfl

@[simp] theorem cleanIo_fault : (cleanIo T).fault = none := rfl

@[simp] theorem cleanIo_late : (cleanIo T).late = none := rfl

@[simp] theorem cleanIo_contentLength : (cleanIo T).contentLength = T.contentLength := rfl

@[simp] theorem cleanIo_reads : (cleanIo T).reads = T.object.map fun b => [b] := rfl

@[simp] theorem cleanIo_line : (cleanIo T).line = T.line := rfl

theorem faithful_collect {s : Sys} {i : ℕ} : Faithful h T s (.collect i (cleanIo T)) ↔
    ∀ c, s.calls[i]? = some c → c.collector = .receive → s.daemon = .finished := by
  constructor
  · intro hf c hc hr
    exact ((hf c hc).2.2 rfl hr).1
  · intro hd c hc
    refine ⟨?_, fun _ _ => ⟨rfl, ?_, ?_⟩, fun _ hr => ⟨hd c hc hr, rfl⟩⟩
    · rintro e (he | he) <;> cases he
    · intro data hdata
      obtain ⟨b, -, rfl⟩ := List.mem_map.mp hdata
      exact List.cons_ne_nil _ _
    · show (T.object.map fun b => [b]).flatten = T.object
      rw [← List.flatMap_def, List.flatMap_singleton']

theorem cleanly_collect {s t : Sys} {i : ℕ} {c : Call} (hc : s.calls[i]? = some c)
    (ha : c.alive = true) (hd : c.collector = .receive → s.daemon = .finished)
    (hs : collectStep h T.job s i c (cleanIo T) = some t) : Cleanly h T s t := by
  refine cleanly_step (e := .collect i (cleanIo T)) ⟨rfl, rfl, rfl⟩ ?_ ?_
  · rw [faithful_collect]
    intro x hx hr
    obtain rfl : c = x := Option.some.inj (hc.symm.trans hx)
    exact hd hr
  · simp only [step, hc, ha, if_true]
    exact hs

theorem cleanly_main {s t : Sys} {i : ℕ} {c : Call} (hc : s.calls[i]? = some c)
    (ha : c.alive = true) (hs : mainStep h T.job s i c {} = some t) : Cleanly h T s t := by
  refine cleanly_step (e := .main i {}) ⟨rfl, rfl, rfl⟩ trivial ?_
  simp only [step, hc, ha, if_true]
  exact hs

/-! ### The end of a call -/

theorem getElem?_put_same {s : Sys} {i : ℕ} {c x : Call} (hc : s.calls[i]? = some c) (w : World)
    (lock : Option ℕ) (model : Holder) :
    ({ s with toWorld := w, jobLock := lock, modelLock := model }.put i x).calls[i]? = some x :=
  List.getElem?_set_self (List.getElem?_eq_some_iff.mp hc).1

/-- What `process` does with the collector's outcome. -/
def outcomeMain : Except WorkerError Json → Main
  | .ok r => .returned r
  | .error e => .raised (.worker e)

/-- A collector that is through closes both locks, and `process` passes its outcome on. -/
theorem cleanly_close {s : Sys} {i : ℕ} {c : Call} {o : Except WorkerError Json}
    (hc : s.calls[i]? = some c) (ha : c.alive = true) (hm : c.main = .wait)
    (hk : c.collector = .closeModel o) :
    Cleanly h T s { s with
      jobLock := none
      modelLock := .free
      calls := s.calls.set i { c with collector := .done o, main := outcomeMain o } } := by
  have h1 : Cleanly h T s
      ({ s with modelLock := .free }.put i { c with collector := .closeJob o }) :=
    cleanly_collect hc ha (by rw [hk]; nofun) (by simp only [collectStep, hk])
  have hc1 : ({ s with modelLock := .free }.put i { c with collector := .closeJob o }).calls[i]? =
      some { c with collector := .closeJob o } := getElem?_put_same hc s.toWorld s.jobLock .free
  have h2 := cleanly_collect (h := h) (T := T) hc1 ha nofun rfl
  have hc2 := getElem?_put_same (x := { c with collector := .done o }) hc1 s.toWorld none .free
  have h3 := cleanly_main (h := h) (T := T) hc2 ha
    (t := (({ s with modelLock := .free, jobLock := none }.put i { c with collector := .closeJob o }).put i
      { c with collector := .done o }).put i { c with collector := .done o, main := outcomeMain o }) (by
      simp only [mainStep, hm]
      cases o <;> rfl)
  have hall := h1.trans (h2.trans h3)
  simpa [Sys.put, List.set_set] using hall

/-- A write with nothing failing. -/
theorem writeState_clean {file : Option State} {st : State} (hfin : st.finite = true) :
    writeState file st (cleanIo T) = (some st.readBack, none) := by
  rw [writeState, hfin]
  rfl

/-- A call with a final error to persist ends with it. -/
theorem cleanly_saveError {s : Sys} {i : ℕ} {c : Call} {e : WorkerError}
    (hc : s.calls[i]? = some c) (ha : c.alive = true) (hm : c.main = .wait)
    (hk : c.collector = .saveError e) (hfin : c.state.finite = true) :
    ∃ t, Cleanly h T s t ∧ Terminal t (.error e.code) := by
  have hfin' : ({ c.state with error := some (e.code, e.message) } : State).finite = true := hfin
  have h1 := cleanly_collect (h := h) (T := T) hc ha (by rw [hk]; nofun)
    (by simp only [collectStep, hk, writeState_clean hfin']; rfl)
  have hc1 := getElem?_put_same
    (x := { c with
      state := { c.state with error := some (e.code, e.message) }
      collector := .closeModel (.error e) }) hc
    { s.toWorld with
      file := some (State.readBack { c.state with error := some (e.code, e.message) }) }
    s.jobLock s.modelLock
  have h2 := cleanly_close (h := h) (T := T) hc1 ha hm rfl
  have hc2 := List.getElem?_set_self (a := ({ c with
      state := { c.state with error := some (e.code, e.message) }
      collector := .done (.error e)
      main := .raised (.worker e) } : Call)) (List.getElem?_eq_some_iff.mp hc1).1
  exact ⟨_, h1.trans h2, Or.inr ⟨i, _, e, _, hc2, rfl, rfl, rfl, rfl⟩⟩

/-- A call at the uploads whose checks have a final outcome obtains it. -/
theorem cleanly_upload {s : Sys} {i : ℕ} {c : Call} {r : Json} (hc : s.calls[i]? = some c)
    (ha : c.alive = true) (hm : c.main = .wait) (hk : c.collector = .upload)
    (hspec : c.spec = T.spec) (hfiles : s.files = T.after) (hr : c.state.response = some r)
    (hfin : c.state.finite = true)
    (hv : verdict (uploadResult h T.after T.spec (T.out h) r) = some v) (hvfin : v.finite = true) :
    ∃ t, Cleanly h T s t ∧ Terminal t v := by
  cases hu : uploadResult h T.after T.spec (T.out h) r with
  | error e =>
    rw [hu] at hv
    have hup : collectStep h T.job s i c (cleanIo T) =
        some (s.put i { c with collector := failed e }) := by
      have hout : uploadResult h T.after T.spec (outDir h T.job) r = .error e := hu
      simp only [collectStep, hk, hspec, hfiles, hr, Option.getD_some, cleanIo_fault, hout]
    have h1 := cleanly_collect hc ha (by simp [hk]) hup
    have hc1 := getElem?_put_same (x := { c with collector := failed e }) hc s.toWorld s.jobLock
      s.modelLock
    cases e with
    | worker e =>
      rw [verdict] at hv
      split at hv
      next hfinal =>
        obtain rfl := Option.some.inj hv
        simp only [failed, hfinal, if_true] at h1 hc1
        obtain ⟨t, h2, ht⟩ := cleanly_saveError (h := h) (T := T) hc1 ha hm rfl hfin
        exact ⟨t, h1.trans h2, ht⟩
      next => cases hv
    | value | other => cases hv
  | ok result =>
    rw [hu] at hv
    obtain rfl := Option.some.inj hv
    have hup : collectStep h T.job s i c (cleanIo T) =
        some (s.put i { c with collector := .saveResult result }) := by
      have hout : uploadResult h T.after T.spec (outDir h T.job) r = .ok result := hu
      simp only [collectStep, hk, hspec, hfiles, hr, Option.getD_some, cleanIo_fault, hout]
    have h1 := cleanly_collect hc ha (by simp [hk]) hup
    have hc1 := getElem?_put_same (x := { c with collector := .saveResult result }) hc s.toWorld
      s.jobLock s.modelLock
    have hfin' : ({ c.state with result := some result } : State).finite = true := by
      rw [State.finite, Bool.and_eq_true] at hfin ⊢
      exact ⟨hfin.1, (Json.finite_sortKeys result).symm.trans hvfin⟩
    have h2 := cleanly_collect (h := h) (T := T) hc1 ha (by simp)
      (by simp only [collectStep, writeState_clean hfin']; rfl)
    have hc2 := getElem?_put_same
      (x := { c with
        state := { c.state with result := some result }
        collector := .closeModel (.ok result) }) hc1
      { s.toWorld with
        file := some (State.readBack { c.state with result := some result }) }
      s.jobLock s.modelLock
    have h3 := cleanly_close (h := h) (T := T) hc2 ha hm rfl
    have hc3 := List.getElem?_set_self (a := ({ c with
        state := { c.state with result := some result }
        collector := .done (.ok result)
        main := .returned result } : Call)) (List.getElem?_eq_some_iff.mp hc2).1
    exact ⟨_, h1.trans (h2.trans h3), Or.inl ⟨i, _, result, hc3, rfl, rfl⟩⟩

/-! ### The start of a call -/

/-- `s` with one more call, and the locks as given. -/
def entered (s : Sys) (lock : Option ℕ) (model : Holder) (c : Call) : Sys :=
  { s with jobLock := lock, modelLock := model, calls := s.calls ++ [c] }

theorem entered_getElem? (s : Sys) (lock : Option ℕ) (model : Holder) (c : Call) :
    (entered s lock model c).calls[s.calls.length]? = some c := by
  simp [entered]

theorem entered_put (s : Sys) (lock lock' : Option ℕ) (model model' : Holder) (c c' : Call) :
    ({ entered s lock model c with jobLock := lock', modelLock := model' }).put s.calls.length c' =
      entered s lock' model' c' := by
  simp [entered, Sys.put]

/-- A call of the scene in process `p`. -/
def sceneCall (T : Scene) (p : ℕ) (seen : Bool) (st : State) (m : Main) (k : Collector) : Call where
  proc := p
  spec := T.spec
  outAtStart := seen
  state := st
  main := m
  collector := k

/-- `s` and a call of the scene just entered. -/
def entering (h : Host) (T : Scene) (s : Sys) (p : ℕ) (lock : Option ℕ) (model : Holder)
    (st : State) (m : Main) (k : Collector) : Sys :=
  entered s lock model (sceneCall T p (s.files.present (T.out h)) st m k)

/-- One step of the main thread of a call just entered. -/
theorem cleanly_entering {s : Sys} {p : ℕ} {lock lock' : Option ℕ} {model model' : Holder}
    {st st' : State} {m m' : Main} {k k' : Collector}
    (hs : mainStep h T.job (entering h T s p lock model st m k) s.calls.length
        (sceneCall T p (s.files.present (T.out h)) st m k) {} =
      some (({ entering h T s p lock model st m k with jobLock := lock', modelLock := model' }).put
        s.calls.length (sceneCall T p (s.files.present (T.out h)) st' m' k'))) :
    Cleanly h T (entering h T s p lock model st m k) (entering h T s p lock' model' st' m' k') := by
  rw [entering, entered_put] at hs
  exact cleanly_main (entered_getElem? s lock model _) rfl hs

/-- A call that finds both locks free, nothing final in the state file and nothing to recover gets
to its collector. -/
theorem cleanly_enter {s : Sys} (p : ℕ) (hlock : s.jobLock = none) (hmodel : s.modelLock = .free)
    (hread : afterRead (h.fingerprint T.spec) (s.file.getD {}) = .checkOut)
    (hsafe : safePath h s.files (T.out h) = .ok (T.out h))
    (hfree : ((s.file.getD {}).response.isNone &&
      ((s.file.getD {}).isRunning || s.files.present (T.out h))) = false) :
    Cleanly h T s (entering h T s p (some s.calls.length) (.call s.calls.length) (s.file.getD {})
      .wait .writeInit) := by
  have h0 : Cleanly h T s (entering h T s p none .free {} .begin .idle) := by
    refine cleanly_step (e := .process p T.spec) trivial rfl ?_
    simp only [step, Scene.job, if_true, entering, entered, ← hlock, ← hmodel]
    rfl
  have h1 : Cleanly h T (entering h T s p none .free {} .begin .idle)
      (entering h T s p none .free {} .lockJob .idle) := cleanly_entering rfl
  have h2 : Cleanly h T (entering h T s p none .free {} .lockJob .idle)
      (entering h T s p (some s.calls.length) .free {} .readState .idle) := cleanly_entering rfl
  have h3 : Cleanly h T (entering h T s p (some s.calls.length) .free {} .readState .idle)
      (entering h T s p (some s.calls.length) .free (s.file.getD {}) .checkOut .idle) := by
    refine cleanly_entering ?_
    have hread' : afterRead (h.fingerprint (sceneCall T p (s.files.present (T.out h)) {} .readState
        .idle).spec) ((entering h T s p (some s.calls.length) .free {} .readState
        .idle).file.getD {}) = .checkOut := hread
    simp only [mainStep, sceneCall] at hread' ⊢
    rw [hread']
    rfl
  have h4 : Cleanly h T
      (entering h T s p (some s.calls.length) .free (s.file.getD {}) .checkOut .idle)
      (entering h T s p (some s.calls.length) .free (s.file.getD {}) .lockModel .idle) := by
    refine cleanly_entering ?_
    have hsafe' : safePath h s.files (outDir h T.job) = .ok (T.out h) := hsafe
    simp only [mainStep, sceneCall, entering, entered, hsafe', hfree]
    rfl
  have h5 : Cleanly h T
      (entering h T s p (some s.calls.length) .free (s.file.getD {}) .lockModel .idle)
      (entering h T s p (some s.calls.length) (.call s.calls.length) (s.file.getD {}) .start
        .idle) := cleanly_entering rfl
  have h6 : Cleanly h T
      (entering h T s p (some s.calls.length) (.call s.calls.length) (s.file.getD {}) .start .idle)
      (entering h T s p (some s.calls.length) (.call s.calls.length) (s.file.getD {}) .wait
        .writeInit) := cleanly_entering rfl
  exact h0.trans (h1.trans (h2.trans (h3.trans (h4.trans (h5.trans h6)))))

/-! ### The first call -/

/-- What the first call writes first. -/
def firstState (h : Host) (T : Scene) : State where
  fingerprint := some (h.fingerprint T.spec)
  output := some (T.out h).text

/-- What it writes with the response. -/
def answeredState (h : Host) (T : Scene) : State :=
  { firstState h T with response := some T.answer, running := some false }

/-- What it writes before the request. -/
def markedState (h : Host) (T : Scene) : State := { firstState h T with running := some true }

theorem answeredState_finite (hT : T.Honest h) : (answeredState h T).finite = true := by
  rw [State.finite, Bool.and_eq_true]
  exact ⟨hT.finite, rfl⟩

/-- The first call in its collector. -/
def first (T : Scene) (w : World) (st : State) (k : Collector) : Sys where
  toWorld := w
  jobLock := some 0
  modelLock := .call 0
  calls := [sceneCall T 0 false st .wait k]

/-- The files before the request. -/
def asked (T : Scene) (st : State) : World where
  file := some st
  files := T.before

/-- The files while the daemon works. -/
def working (T : Scene) (st : State) : World :=
  { asked T st with daemon := .working, requests := [⟨0, false⟩] }

/-- The files once the daemon is finished. -/
def answered (T : Scene) (st : State) : World where
  file := some st
  files := T.after
  daemon := .finished
  requests := [⟨0, false⟩]

theorem cleanly_first {w w' : World} {st st' : State} {k k' : Collector}
    (hd : k = .receive → w.daemon = .finished)
    (hs : collectStep h T.job (first T w st k) 0 (sceneCall T 0 false st .wait k) (cleanIo T) =
      some (({ first T w st k with toWorld := w' }).put 0 (sceneCall T 0 false st' .wait k'))) :
    Cleanly h T (first T w st k) (first T w' st' k') :=
  cleanly_collect rfl rfl hd hs

/-- Up to the download. -/
theorem cleanly_start (ho : T.Opens h) :
    Cleanly h T (Sys.init T.before)
      (first T (asked T (firstState h T)) (firstState h T) .download) := by
  obtain ⟨hsafe, hpres⟩ := ho
  have henter : Cleanly h T (Sys.init T.before) (first T { files := T.before } {} .writeInit) := by
    have hall := cleanly_enter (h := h) (T := T) (s := Sys.init T.before) 0 rfl rfl rfl hsafe hpres
    rw [entering, show (Sys.init T.before).files = T.before from rfl, hpres] at hall
    exact hall
  exact henter.trans (cleanly_first nofun rfl)

/-- From the download to the uploads. -/
theorem cleanly_answer (hT : T.Honest h) (hp : T.Passed h)
    (hpres : T.before.present (T.out h) = false) :
    Cleanly h T (first T (asked T (firstState h T)) (firstState h T) .download)
      (first T (answered T (answeredState h T).readBack) (answeredState h T) .upload) := by
  obtain ⟨data, hdata⟩ := hp
  have hcheck : Cleanly h T (first T (asked T (firstState h T)) (firstState h T) .download)
      (first T (asked T (firstState h T)) (firstState h T) .checkActive) := by
    refine cleanly_first (by simp) ?_
    have hdown : download h T.spec T.contentLength (T.object.map fun b => [b]) = .ok data := hdata
    simp only [collectStep, sceneCall, cleanIo_fault, cleanIo_contentLength, cleanIo_reads, hdown]
    rfl
  have hconnect : Cleanly h T (first T (asked T (firstState h T)) (firstState h T) .checkActive)
      (first T (asked T (firstState h T)) (firstState h T) .connect) := cleanly_first (by simp) rfl
  have hmark : Cleanly h T (first T (asked T (firstState h T)) (firstState h T) .connect)
      (first T (asked T (firstState h T)) (firstState h T) .mark) := cleanly_first (by simp) rfl
  have hsend : Cleanly h T (first T (asked T (firstState h T)) (firstState h T) .mark)
      (first T (asked T (markedState h T)) (markedState h T) .send) := cleanly_first (by simp) rfl
  have hreceive : Cleanly h T (first T (asked T (markedState h T)) (markedState h T) .send)
      (first T (working T (markedState h T)) (markedState h T) .receive) := cleanly_first (by simp) rfl
  have hfinish : Cleanly h T (first T (working T (markedState h T)) (markedState h T) .receive)
      (first T (answered T (markedState h T)) (markedState h T) .receive) := by
    refine cleanly_step (e := .daemon T.after true) trivial ⟨rfl, rfl⟩ ?_
    have hpres' : (first T (working T (markedState h T)) (markedState h T) .receive).files.present
        (outDir h T.job) = false := hpres
    rw [step, hpres']
    rfl
  have hsave : Cleanly h T (first T (answered T (markedState h T)) (markedState h T) .receive)
      (first T (answered T (markedState h T)) (markedState h T) (.saveResponse T.answer)) := by
    refine cleanly_first (fun _ => rfl) ?_
    simp only [collectStep, sceneCall, cleanIo_fault, cleanIo_line, hT.answers]
    rfl
  have hupload : Cleanly h T
      (first T (answered T (markedState h T)) (markedState h T) (.saveResponse T.answer))
      (first T (answered T (answeredState h T).readBack) (answeredState h T) .upload) := by
    refine cleanly_first (by simp) ?_
    have hfin : ({ markedState h T with
        response := some T.answer, running := some false } : State).finite = true :=
      answeredState_finite hT
    simp only [collectStep, sceneCall, writeState_clean hfin]
    rfl
  exact hcheck.trans (hconnect.trans (hmark.trans (hsend.trans (hreceive.trans
    (hfinish.trans (hsave.trans hupload))))))

/-! ### A second call -/

/-- The state file with the response, and the first call over. -/
def stopped (h : Host) (T : Scene) (c : Call) : Sys where
  toWorld := answered T (answeredState h T).readBack
  calls := [c]

/-- A second call in its collector. -/
def second (h : Host) (T : Scene) (c : Call) (k : Collector) : Sys where
  toWorld := answered T (answeredState h T).readBack
  jobLock := some 1
  modelLock := .call 1
  calls := [c, sceneCall T 1 (T.after.present (T.out h)) (answeredState h T).readBack .wait k]

theorem readBack_readBack (st : State) : st.readBack.readBack = st.readBack := by
  unfold State.readBack
  cases st.response <;> cases st.result <;> simp [Json.sortKeys_sortKeys]

theorem readBack_finite (st : State) : st.readBack.finite = st.finite := by
  unfold State.readBack State.finite
  cases st.response <;> cases st.result <;> simp [Json.finite_sortKeys]

/-- A second call after one that left the response, up to the uploads. -/
theorem cleanly_again (hT : T.Honest h) (hsafe : safePath h T.after (T.out h) = .ok (T.out h))
    (c : Call) : Cleanly h T (stopped h T c) (second h T c .upload) := by
  have hread : afterRead (h.fingerprint T.spec) (answeredState h T).readBack = .checkOut := by
    simp [afterRead, State.readBack, answeredState, firstState]
  have henter : Cleanly h T (stopped h T c) (second h T c .writeInit) :=
    cleanly_enter (s := stopped h T c) 1 rfl rfl hread hsafe rfl
  have hwrite : writeState (some (answeredState h T).readBack) (answeredState h T).readBack
      (cleanIo T) = (some (answeredState h T).readBack, none) := by
    rw [writeState_clean ((readBack_finite _).trans (answeredState_finite hT)), readBack_readBack]
  have hsame : { (answeredState h T).readBack with
      fingerprint := some (h.fingerprint T.spec), output := some (outDir h T.job).text } =
    (answeredState h T).readBack := rfl
  have hresponse : (answeredState h T).readBack.response.isNone = false := rfl
  refine henter.trans (cleanly_collect (i := 1) rfl rfl (fun hreceive => by cases hreceive) ?_)
  simp only [collectStep, second, sceneCall, answered, hsame, hwrite, hresponse]
  rfl

/-! ### The outcome of the scene is obtained -/

/-- An output directory that is not safe stops the checks at the same place for both. -/
theorem verdict_of_outside {fs : FileSystem} {out : Path} {spec : Spec} {e : Exn}
    (hsafe : safePath h fs out = .error e) (response : Json) :
    verdict (uploadResult h fs spec out response.sortKeys) =
      verdict (uploadResult h fs spec out response) := by
  have hpub : ∀ report, publication h fs spec out report = .error e := by
    intro report
    rw [publication, localFiles, hsafe]
    rfl
  unfold uploadResult
  rw [modelReport_sortKeys]
  cases modelReport out response with
  | error x => rfl
  | ok report =>
    show verdict (publication h fs spec out report.sortKeys >>= _) =
      verdict (publication h fs spec out report >>= _)
    rw [hpub, hpub]

/-- A first call that was stopped by an exception of its own. -/
theorem cleanly_stopped (hnone : verdict (uploadResult h T.after T.spec (T.out h) T.answer) = none) :
    ∃ c, Cleanly h T (first T (answered T (answeredState h T).readBack) (answeredState h T) .upload)
      (stopped h T c) := by
  cases hu : uploadResult h T.after T.spec (T.out h) T.answer with
  | ok result =>
    rw [hu] at hnone
    cases hnone
  | error e =>
    have hfail : failed e = .closeModel (.error (outcomeOf e)) := by
      cases e with
      | worker e =>
        rw [hu, verdict] at hnone
        split at hnone
        · cases hnone
        next hfinal => exact if_neg hfinal
      | value | other => rfl
    have hclose : Cleanly h T
        (first T (answered T (answeredState h T).readBack) (answeredState h T) .upload)
        (first T (answered T (answeredState h T).readBack) (answeredState h T)
          (.closeModel (.error (outcomeOf e)))) := by
      refine cleanly_first (by simp) ?_
      have hup : uploadResult h T.after T.spec (outDir h T.job)
          ((answeredState h T).response.getD .null) = .error e := hu
      simp only [collectStep, sceneCall, first, answered, cleanIo_fault, hup, hfail]
    exact ⟨_, hclose.trans (cleanly_close (i := 0) rfl rfl rfl rfl)⟩

/-- **Nothing needs to fail.**  The final outcome of a scene is obtained by a run in which nothing
fails and nothing is killed. -/
theorem ends_cleanly (hT : T.Honest h) (hv : Ends h T v) :
    ∃ t, Cleanly h T (Sys.init T.before) t ∧ Terminal t v := by
  obtain ⟨⟨ho, hv⟩, hfin⟩ := hv
  have hstart := cleanly_start ho
  have hstate : (answeredState h T).finite = true := answeredState_finite hT
  rcases hv with ⟨e, he, hfinal, rfl⟩ | ⟨hp, hleads⟩
  · -- the object is not the declared one
    have herror : Cleanly h T (first T (asked T (firstState h T)) (firstState h T) .download)
        (first T (asked T (firstState h T)) (firstState h T) (.saveError e)) := by
      refine cleanly_first nofun ?_
      have hdown : download h T.spec T.contentLength (T.object.map fun b => [b]) =
        .error (.worker e) := he
      simp only [collectStep, sceneCall, cleanIo_fault, cleanIo_contentLength, cleanIo_reads,
        hdown, failed, hfinal]
      rfl
    obtain ⟨t, hend, ht⟩ := cleanly_saveError (h := h) (T := T) (i := 0)
      (s := first T (asked T (firstState h T)) (firstState h T) (.saveError e)) rfl rfl rfl rfl rfl
    exact ⟨t, hstart.trans (herror.trans hend), ht⟩
  · have hanswer := hstart.trans (cleanly_answer hT hp ho.2)
    cases hu : verdict (uploadResult h T.after T.spec (T.out h) T.answer) with
    | some v' =>
      obtain rfl := leads_unique (Or.inl hu) hleads
      obtain ⟨t, hend, ht⟩ := cleanly_upload (h := h) (T := T) (i := 0)
        (s := first T (answered T (answeredState h T).readBack) (answeredState h T) .upload)
        rfl rfl rfl rfl rfl rfl rfl hstate hu hfin
      exact ⟨t, hanswer.trans hend, ht⟩
    | none =>
      -- the first call walked the keys in another order and got stuck on a path of its own
      have hsorted : verdict (uploadResult h T.after T.spec (T.out h) T.answer.sortKeys) =
          some v := by
        rcases hleads with hl | hl
        · rw [hu] at hl
          cases hl
        · exact hl
      have hsafe : safePath h T.after (T.out h) = .ok (T.out h) := by
        cases hs : safePath h T.after (T.out h) with
        | ok q => rw [safePath_eq_ok hs]
        | error e =>
          rw [verdict_of_outside hs, hu] at hsorted
          cases hsorted
      obtain ⟨c, hstop⟩ := cleanly_stopped hu
      obtain ⟨t, hend, ht⟩ := cleanly_upload (h := h) (T := T) (i := 1)
        (s := second h T c .upload) rfl rfl rfl rfl rfl rfl rfl
        ((readBack_finite _).trans hstate) hsorted hfin
      exact ⟨t, hanswer.trans (hstop.trans ((cleanly_again hT hsafe c).trans hend)), ht⟩

/-- **Crash transparency.**  In a scene with an honest daemon, after any number of kills,
cancellations and retryable failures: when a call returns a result or raises the persisted error,
a run in which nothing fails obtains the same result, as a JSON value, or code, and no run of the
scene obtains another. -/
theorem crash_transparent (hT : T.Honest h) {es : List Event} {s : Sys}
    (hC : Meets (step h T.job) (Faithful h T) (Sys.init T.before) es)
    (hrun : exec (step h T.job) (Sys.init T.before) es = some s) (hv : Terminal s v) :
    (∃ es' s', (∀ e ∈ es', Clean e) ∧
      Meets (step h T.job) (Faithful h T) (Sys.init T.before) es' ∧
      exec (step h T.job) (Sys.init T.before) es' = some s' ∧ Terminal s' v) ∧
    ∀ es' s' v', Meets (step h T.job) (Faithful h T) (Sys.init T.before) es' →
      exec (step h T.job) (Sys.init T.before) es' = some s' → Terminal s' v' → v' = v := by
  have hends := terminal_ends hT hC hrun hv
  constructor
  · obtain ⟨t, ⟨es', hclean, hmeets, hexec⟩, ht⟩ := ends_cleanly hT hends
    exact ⟨es', t, hclean, hmeets, hexec, ht⟩
  · intro es' s' v' hC' hrun' hv'
    exact ends_unique (terminal_ends hT hC' hrun' hv') hends

/-! A process killed after the request; the daemon finishes, and a call in another process recovers
its report and publishes the result. -/

def noteManifest : Json :=
  .obj (["final.vital", "final.unified.json", "final.wav"].map fun name =>
    (name, .obj [("path", .str name), ("sha256", .str "digest")]))

def noteReport : Json :=
  .obj [("status", .str "completed"), ("checkpoint_sha256", .str checkpointSha256),
    ("mode", .str "poly"), ("artifacts", noteManifest)]

def noteAnswer : Json :=
  .obj [("ok", .bool true), ("result", .obj [("status", .str "completed"),
    ("output", .str "/deploy/results/job"), ("report", .str "/deploy/results/job/result.json"),
    ("artifacts", noteManifest)])]

def noteHost : Host where
  root := Path.ofString "/deploy"
  sha256 := fun _ => "digest"
  loads := fun data => match data with
    | [1] => some noteReport
    | [2] => some (.obj [])
    | [3, 10] => some noteAnswer
    | _ => none
  fingerprint := fun _ => "fingerprint"
  configured := true

def noteFiles : FileSystem where
  resolve := some
  present := fun path =>
    path.parts.length = 3 || required.any fun name => path.parts.getLast? = some name
  isFile := fun path => required.any fun name => path.parts.getLast? = some name
  read := fun path => match path.parts.getLast? with
    | some "result.json" => some [1]
    | some "final.unified.json" => some [2]
    | _ => some [0]

def noteScene : Scene where
  spec := killSpec
  contentLength := some 1
  object := [7]
  line := [3, 10]
  answer := noteAnswer
  before := emptyFiles
  after := noteFiles

/-- The call of process 0 up to the request, and the kill. -/
def beforeKill : List Event :=
  .process 0 killSpec :: (mains 0 6 ++
    (List.replicate 6 (.collect 0 (cleanIo noteScene)) ++ [.kill 0]))

/-- The call of process 1. -/
def afterKill : List Event :=
  .process 1 killSpec :: (mains 1 7 ++
    (List.replicate 5 (.collect 1 (cleanIo noteScene)) ++ mains 1 1))

def recoverRun : List Event := beforeKill ++ .daemon noteFiles true :: afterKill

def noteResult : Json :=
  resultJson killSpec (required.map fun name =>
    ⟨name, killSpec.outputPrefix ++ name, "digest", 1⟩) (.obj [])


theorem noteScene_honest : noteScene.Honest noteHost := by
  have hreport : reportAt noteHost noteScene.after (noteScene.out noteHost) = some noteReport := rfl
  refine ⟨rfl, by decide +kernel, rfl, ?_⟩
  intro report hr
  obtain rfl : noteReport = report := Option.some.inj (hreport.symm.trans hr)
  exact ⟨rfl, rfl, rfl, by decide +kernel, by decide +kernel, rfl⟩

def Collector.receives : Collector → Bool
  | .receive => true
  | _ => false

/-- The events of the run other than the daemon's are allowed. -/
def allows (s : Sys) : Event → Bool
  | .process _ spec => spec = killSpec
  | .collect i io => io == cleanIo noteScene &&
      (s.calls[i]?).all fun c => !c.collector.receives || s.daemon == .finished
  | .daemon _ _ => false
  | _ => true

theorem faithful_of_allows (s : Sys) (e : Event) (he : allows s e = true) :
    Faithful noteHost noteScene s e := by
  cases e with
  | process p spec =>
    have hspec : spec = killSpec := of_decide_eq_true he
    exact hspec
  | collect i io =>
    rw [allows, Bool.and_eq_true, beq_iff_eq] at he
    rw [he.1, faithful_collect]
    intro c hc hr
    have hall := he.2
    rw [hc, Option.all_some, hr] at hall
    simpa [Collector.receives] using hall
  | daemon files finished => cases he
  | main i io | kill p | otherJob takes => trivial

theorem meets_recoverRun :
    Meets (step noteHost noteScene.job) (Faithful noteHost noteScene) (Sys.init noteScene.before)
      recoverRun := by
  have hbefore : checks (step noteHost "job") allows (Sys.init emptyFiles) beforeKill = true := by
    decide +kernel
  have hafter : (exec (step noteHost "job") (Sys.init emptyFiles) beforeKill).all (fun m =>
      m.daemon == .working && (step noteHost "job" m (.daemon noteFiles true)).all fun t =>
        checks (step noteHost "job") allows t afterKill) = true := by
    decide +kernel
  obtain ⟨m, hm⟩ : ∃ m, exec (step noteHost "job") (Sys.init emptyFiles) beforeKill = some m := by
    have hsome : (exec (step noteHost "job") (Sys.init emptyFiles) beforeKill).isSome = true := by
      decide +kernel
    exact Option.isSome_iff_exists.mp hsome
  rw [hm, Option.all_some, Bool.and_eq_true, beq_iff_eq] at hafter
  refine meets_append (meets_of_checks faithful_of_allows hbefore) hm ⟨⟨hafter.1, rfl⟩, ?_⟩
  intro t ht
  refine meets_of_checks faithful_of_allows ?_
  have hall := hafter.2
  rw [show step noteHost "job" m (.daemon noteFiles true) = some t from ht] at hall
  exact hall

theorem crash_transparent_recoverRun :
    (exec (step noteHost noteScene.job) (Sys.init noteScene.before) recoverRun).map
      (fun s => s.calls.map (·.main)) = some [.wait, .returned noteResult] ∧
    (∃ es' s', (∀ e ∈ es', Clean e) ∧
      Meets (step noteHost noteScene.job) (Faithful noteHost noteScene)
        (Sys.init noteScene.before) es' ∧
      exec (step noteHost noteScene.job) (Sys.init noteScene.before) es' = some s' ∧
      Terminal s' (.result noteResult.sortKeys)) := by
  have hmains : (exec (step noteHost noteScene.job) (Sys.init noteScene.before) recoverRun).map
      (fun s => s.calls.map (·.main)) = some [.wait, .returned noteResult] := by
    decide +kernel
  refine ⟨hmains, ?_⟩
  obtain ⟨s, hs, hcalls⟩ := Option.map_eq_some_iff.mp hmains
  have hterminal : Terminal s (.result noteResult.sortKeys) := by
    have hlast : (s.calls.map (·.main))[1]? = some (.returned noteResult) := by rw [hcalls]; rfl
    rw [List.getElem?_map, Option.map_eq_some_iff] at hlast
    obtain ⟨c, hc, hmain⟩ := hlast
    exact Or.inl ⟨1, c, noteResult, hc, hmain, rfl⟩
  exact (crash_transparent noteScene_honest meets_recoverRun hs hterminal).1

end Inference.V73
