import Inference.V73.Ownership

/-!
# Inference.V73.AtMostOnce — the model runs at most once for a job

Whatever raises, however calls interleave and wherever processes are killed, at most one call ever
writes request bytes to the daemon's socket, and none whose output directory was there before.

* `Sound`: once bytes were written, the state file blocks every later call (`State.blocked`).
* `Main.Knows`, `Collector.Knows`: what the owner of the lock knows at each of its points.
* **`at_most_once`**: the statement for every run.
-/

namespace Inference.V73

open Inference.Lib

variable {h : Host} {job : String}

/-- A state whose reader does not send: `running` is set or there is a response. -/
def State.blocked (st : State) : Bool := st.isRunning || st.response.isSome

theorem State.blocked_readBack (st : State) : st.readBack.blocked = st.blocked := by
  unfold State.blocked State.readBack State.isRunning
  cases st.response <;> rfl

/-- The record of the requests and the state file. -/
structure Sound (w : World) : Prop where
  marked : w.requests ≠ [] → ∃ st, w.file = some st ∧ st.blocked = true
  once : w.requests.length ≤ 1
  fresh : ∀ r ∈ w.requests, r.outAtStart = false

/-- A state in memory that shows that bytes were written, if they were. -/
def Carries (w : World) (st : State) : Prop := w.requests ≠ [] → st.blocked = true

/-- No bytes were written so far, and the output directory was not there at the call's start. -/
def MaySend (w : World) (seen : Bool) : Prop := w.requests = [] ∧ seen = false

/-- What makes a call send later on holds of the state it carries. -/
def Ready (w : World) (st : State) (seen : Bool) : Prop :=
  Carries w st ∧ (st.response = none → st.isRunning = false ∧ seen = false)

/-- What `process` knows at a point within the lock, `seen` being `outAtStart`. -/
def Main.Knows (w : World) (st : State) (seen : Bool) : Main → Prop
  | .checkOut | .recover => Carries w st
  | .lockModel | .start => Ready w st seen
  | _ => True

/-- What the collector knows at a point within the lock. -/
def Collector.Knows (w : World) (st : State) (seen : Bool) : Collector → Prop
  | .writeInit => Ready w st seen
  | .download | .checkActive | .connect | .mark => MaySend w seen
  | .send => MaySend w seen ∧ ∃ x, w.file = some x ∧ x.blocked = true
  | .upload | .saveResult _ | .saveError _ => Carries w st
  | _ => True

def Call.Knows (w : World) (c : Call) : Prop :=
  c.main.Knows w c.state c.outAtStart ∧ c.collector.Knows w c.state c.outAtStart

/-! ### The steps of the owner -/

variable {w : World} {st : State} {seen : Bool}

theorem Ready.maySend (hr : Ready w st seen) (hnone : st.response = none) : MaySend w seen := by
  obtain ⟨hrun, hout⟩ := hr.2 hnone
  refine ⟨?_, hout⟩
  by_contra hreq
  have hblocked := hr.1 hreq
  rw [State.blocked, hrun, hnone] at hblocked
  cases hblocked

theorem MaySend.carries (hm : MaySend w seen) : Carries w st := fun hreq => absurd hm.1 hreq

theorem knows_failed (hc : Carries w st) (e : Exn) : (failed e).Knows w st seen := by
  unfold failed
  split
  · split
    · exact hc
    · trivial
  · trivial

theorem knows_daemonFailed (sent : Bool) : (daemonFailed sent).Knows w st seen := by
  unfold daemonFailed failed WorkerError.final daemonError
  trivial

/-- Writing a state that carries the mark keeps the file sound. -/
theorem Sound.write (hs : Sound w) (hst : Carries w st) (io : Io) :
    Sound { w with file := (writeState w.file st io).1 } := by
  refine ⟨fun hreq => ?_, hs.once, hs.fresh⟩
  show ∃ x, (writeState w.file st io).1 = some x ∧ x.blocked = true
  unfold writeState
  split
  · exact hs.marked hreq
  · split
    · exact hs.marked hreq
    · exact ⟨_, rfl, (State.blocked_readBack st).trans (hst hreq)⟩

theorem writeState_ok {file : Option State} {st : State} {io : Io}
    (hok : (writeState file st io).2 = none) : (writeState file st io).1 = some st.readBack := by
  unfold writeState at hok ⊢
  split
  · rw [if_pos ‹_›] at hok
    simp_all
  · rw [if_neg ‹_›] at hok
    split
    · rw [if_pos ‹_›] at hok
      cases hok
    · rfl

theorem advances_knows {s : Sys} {c c' : Call} {io : Io}
    (hseen : c.outAtStart = true → s.files.present (outDir h job) = true)
    (hidle : c.collector = .idle) (hG : Sound s.toWorld) (hL : c.Knows s.toWorld)
    (ha : Advances h job s io c c') : c'.Knows s.toWorld := by
  obtain ⟨hL, -⟩ := hL
  cases ha with
  | close st e => exact ⟨trivial, by rw [hidle]; trivial⟩
  | readState _ _ =>
    refine ⟨fun hreq => ?_, by rw [hidle]; trivial⟩
    obtain ⟨st, hfile, hblocked⟩ := hG.marked hreq
    rw [hfile]
    exact hblocked
  | mustRecover hat =>
    rw [hat] at hL
    exact ⟨hL, by rw [hidle]; trivial⟩
  | pass hat _ hfree =>
    rw [hat] at hL
    refine ⟨⟨hL, fun hnone => ⟨(hfree hnone).1, ?_⟩⟩, by rw [hidle]; trivial⟩
    by_contra hout
    rw [hseen (by simpa using hout)] at hfree
    cases (hfree hnone).2
  | recover hat response hresponse =>
    refine ⟨⟨fun _ => ?_, nofun⟩, by rw [hidle]; trivial⟩
    simp [State.blocked]
  | lockModel hat =>
    rw [hat] at hL
    exact ⟨hL, by rw [hidle]; trivial⟩
  | start hat =>
    rw [hat] at hL
    exact ⟨trivial, hL⟩

theorem collectStep_knows {s s' : Sys} {i : ℕ} {c c' : Call} {io : Io} (hG : Sound s.toWorld)
    (hL : c.collector.Knows s.toWorld c.state c.outAtStart) (hs : collectStep h job s i c io = some s')
    (hc : s.calls[i]? = some c) (hc' : s'.calls[i]? = some c') :
    Sound s'.toWorld ∧ c'.collector.Knows s'.toWorld c'.state c'.outAtStart := by
  have hput : ∀ {w : World} {st : State} {k : Collector} {model : Holder} {lock : Option ℕ},
      some ({ s with toWorld := w, modelLock := model, jobLock := lock }.put i
        { c with state := st, collector := k }) = some s' → Sound w →
      k.Knows w st c.outAtStart →
      Sound s'.toWorld ∧ c'.collector.Knows s'.toWorld c'.state c'.outAtStart := by
    intro w st k model lock he hsound hknows
    obtain rfl := Option.some.inj he
    rw [getElem?_put_self hc rfl hc']
    exact ⟨hsound, hknows⟩
  unfold collectStep at hs
  split at hs <;> rename_i hk <;> rw [hk] at hL
  case h_1 =>
    refine hput hs (hG.write ?_ io) ?_
    · exact hL.1
    · split
      · trivial
      · split
        next hnone => exact hL.maySend (Option.isNone_iff_eq_none.mp hnone)
        next => exact hL.1
  case h_2 =>
    refine hput hs hG ?_
    split
    · exact knows_failed hL.carries _
    · split
      · exact knows_failed hL.carries _
      · exact hL
  case h_3 =>
    refine hput hs hG ?_
    split
    · exact hL
    · exact knows_failed hL.carries _
  case h_4 =>
    refine hput hs hG ?_
    split
    · exact knows_daemonFailed _
    · exact hL
  case h_5 =>
    -- the mark is on disk before any byte leaves
    refine hput hs (hG.write hL.carries io) ?_
    split
    · exact knows_daemonFailed _
    next hok =>
      refine ⟨hL, _, writeState_ok (by simpa using hok), ?_⟩
      rw [State.blocked_readBack]
      rfl
  case h_6 =>
    obtain ⟨⟨hnone, hout⟩, hmarked⟩ := hL
    have hknows : ∀ w : World, Collector.Knows w c.state c.outAtStart
        (if io.fault.isSome then daemonFailed true else .receive) := by
      intro w
      split
      · exact knows_daemonFailed _
      · trivial
    refine hput hs ⟨fun _ => hmarked, ?_, ?_⟩ (hknows _)
    · simp only [hnone]
      split <;> simp
    · simp only [hnone, hout]
      split <;> simp
  case h_7 =>
    refine hput hs hG ?_
    split
    · trivial
    · exact knows_daemonFailed _
  case h_8 =>
    have hcarries : ∀ response : Json, Carries s.toWorld
        { c.state with response := some response, running := some false } := by
      intro response _
      rfl
    refine hput hs (hG.write (hcarries _) io) ?_
    split
    · refine knows_failed ?_ _
      exact hcarries _
    · exact hcarries _
  case h_9 =>
    refine hput hs hG ?_
    split
    · exact knows_failed hL _
    · split
      · exact knows_failed hL _
      · exact hL
  case h_10 =>
    refine hput hs (hG.write ?_ io) ?_
    · exact hL
    · split
      · refine knows_failed ?_ _
        exact hL
      · trivial
  case h_11 =>
    refine hput hs (hG.write ?_ io) trivial
    exact hL
  case h_12 => exact hput hs hG trivial
  case h_13 => exact hput hs hG trivial
  case h_14 => cases hs
  case h_15 => cases hs

/-! ### Every run -/

/-- A deployment root in which no call was made for the job. -/
def Sys.init (files : FileSystem) : Sys := { files }

/-- What a call knows is about the state file and the requests only. -/
theorem Call.Knows.congr {w w' : World} {c : Call} (hk : c.Knows w) (hfile : w'.file = w.file)
    (hreq : w'.requests = w.requests) : c.Knows w' := by
  obtain ⟨file, files, daemon, requests⟩ := w
  obtain ⟨file', files', daemon', requests'⟩ := w'
  obtain rfl : file' = file := hfile
  obtain rfl : requests' = requests := hreq
  obtain ⟨hmain, hcollector⟩ := hk
  constructor
  · cases hm : c.main <;> rw [hm] at hmain <;> exact hmain
  · cases hm : c.collector <;> rw [hm] at hcollector <;> exact hcollector

theorem step_knows {s s' : Sys} {e : Event} (hp : Protected h job Sound Call.Knows s)
    (hs : step h job s e = some s') : Protected h job Sound Call.Knows s' := by
  refine step_protected (C := fun _ _ => True) ?_ ?_ ?_ ?_ ?_ trivial hp hs
  · intro w c _ hidle
    refine ⟨trivial, ?_⟩
    rw [hidle]
    trivial
  · intro s i c c' io _ hseen hidle hG hL ha
    exact advances_knows hseen hidle hG hL ha
  · intro w c m hL hk hm
    refine ⟨?_, hL.2⟩
    cases m <;> trivial
  · intro s s' i c c' io _ hafter hG hL hc hs hc' hmain
    obtain ⟨hG', hL'⟩ := collectStep_knows hG hL.2 hs hc hc'
    refine ⟨hG', ?_, hL'⟩
    rw [hmain]
    cases hm : c.main <;> first | trivial | (rw [hm] at hafter; cases hafter)
  · rintro s w files finished _ hG _ rfl
    exact ⟨⟨hG.marked, hG.once, hG.fresh⟩, fun c hL => hL.congr rfl rfl⟩

theorem protected_init {G : World → Prop} {L : World → Call → Prop} {files : FileSystem}
    (hG : G { files }) : Protected h job G L (Sys.init files) := by
  have hnone : ∀ {i : ℕ} {c : Call}, (Sys.init files).calls[i]? = some c → False := by
    intro i c hc
    simp [Sys.init] at hc
  exact ⟨⟨fun i c hc => (hnone hc).elim, fun i c hc => (hnone hc).elim,
    fun i c hc => (hnone hc).elim⟩, hG, fun i c hc => (hnone hc).elim⟩

/-- **At most one request.**  In every run of any number of calls for one job, with any operation
raising, any call cancelled and any process killed anywhere, the calls write request bytes to the
daemon's socket at most once, and no call whose output directory existed at its start does. -/
theorem at_most_once (files : FileSystem) {es : List Event} {s : Sys}
    (hrun : exec (step h job) (Sys.init files) es = some s) :
    s.requests.length ≤ 1 ∧ ∀ r ∈ s.requests, r.outAtStart = false := by
  have hempty : Sound { files } := ⟨fun hne => absurd rfl hne, Nat.zero_le 1, by simp⟩
  have hinit : Protected h job Sound Call.Knows (Sys.init files) := protected_init hempty
  have hp := exec_inv (fun _ _ _ hp hs => step_knows hp hs) hinit hrun
  exact ⟨hp.shared.once, hp.shared.fresh⟩

/-! A process killed between the request and its answer, and a second call in another one. -/

def killHost : Host where
  root := Path.ofString "/deploy"
  sha256 := fun _ => "digest"
  loads := fun _ => none
  fingerprint := fun _ => "fingerprint"
  configured := true

def emptyFiles : FileSystem where
  resolve := some
  present := fun _ => false
  isFile := fun _ => false
  read := fun _ => none

def killSpec : Spec where
  jobId := "job"
  projectId := "project"
  userId := "user"
  mode := .poly
  sha256 := "digest"
  sizeBytes := 1
  pos := Nat.one_pos
  le_max := one_le_maxInputBytes

/-- `n` operations of `process` in call `i`, none of which raises. -/
def mains (i n : ℕ) : List Event := List.replicate n (.main i {})

/-- The same for the collector. -/
def collects (i n : ℕ) : List Event := List.replicate n (.collect i {})

def killRun : List Event :=
  .process 0 killSpec :: (mains 0 6 ++ collects 0 1 ++ .collect 0 { reads := [[7]] } ::
    (collects 0 4 ++ .kill 0 :: .process 1 killSpec :: mains 1 6))

theorem at_most_once_killRun :
    (exec (step killHost "job") (Sys.init emptyFiles) killRun).map
      (fun s => (s.requests, s.calls.map (·.main))) =
      some ([⟨0, false⟩], [.wait, .raised (.worker unresolved)]) ∧
    ∀ s, exec (step killHost "job") (Sys.init emptyFiles) killRun = some s →
      s.requests.length ≤ 1 ∧ ∀ r ∈ s.requests, r.outAtStart = false :=
  ⟨by decide +kernel, fun _ hs => at_most_once emptyFiles hs⟩

end Inference.V73
