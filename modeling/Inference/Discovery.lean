import Inference.Encoding
import Inference.Lib.Dict
import Inference.Lib.Run

/-!
# Inference.Discovery — `WorkerDiscovery` of `system/zookeeper_registry.py`

The znodes under `/inference/workers`, the watches on them and the refresh thread, statement by
statement; the constructor runs the first refresh itself before it starts the thread.  Znodes come,
change and go between any two statements.  A watch whose path changed is `pending` until its
callback runs again: kazoo's contract is that it will.

* `Sys.step`: the machine; what ZooKeeper answers is in the event.
* `Sys.Inv`: while the wakeup flag is clear and no callback is pending, what the refresh has
  read so far is what is there.
* **`discovery_sound`**: a waiting thread has published the current membership; every published
  snapshot has every worker that did not change during its refresh; a refresh that raises changes
  nothing.
-/

namespace Inference.Discovery

open Inference.Lib

/-- The `state` of a worker. -/
inductive RoutingState where
  | ready | draining
deriving DecidableEq, Repr

structure WorkerInfo where
  address : String
  state : RoutingState
deriving DecidableEq, Repr

/-- `str.isspace` of one character. -/
def isWhite (c : Char) : Bool :=
  (9 ≤ c.toNat && c.toNat ≤ 13) || (28 ≤ c.toNat && c.toNat ≤ 32) || c.toNat == 0x85 ||
    c.toNat == 0xa0 || c.toNat == 0x1680 || (0x2000 ≤ c.toNat && c.toNat ≤ 0x200a) ||
    c.toNat == 0x2028 || c.toNat == 0x2029 || c.toNat == 0x202f || c.toNat == 0x205f ||
    c.toNat == 0x3000

/-- `text.strip()`. -/
def strip (text : String) : String :=
  String.ofList ((text.toList.dropWhile isWhite).reverse.dropWhile isWhite).reverse

/-- `state in ("READY", "DRAINING")`. -/
def routingState : Json → Option RoutingState
  | .str "READY" => some .ready
  | .str "DRAINING" => some .draining
  | _ => none

/-- The address must be a nonempty string. -/
def workerInfo : Json → Json → Option WorkerInfo
  | .str address, state =>
    if address = "" then none else (routingState state).map fun st => ⟨address, st⟩
  | _, _ => none

/-- `_parse_worker`; `none` when it raises. -/
def parseWorker (repr : String → String) (data : List UInt8) : Option WorkerInfo := do
  let text := strip (← String.fromUTF8? ⟨data.toArray⟩)
  if text.toList.head? = some '\x7b' then
    let metadata ← Json.loads repr text
    workerInfo (← metadata.get? "address") (← metadata.get? "state")
  else workerInfo (.str text) (.str "READY")

/-- A dict of workers, and the znodes with their data. -/
abbrev Workers := List (String × WorkerInfo)

abbrev Nodes := List (String × List UInt8)

/-- `ChildrenWatch(_WORKERS_PATH)` and the `DataWatch` of one worker. -/
inductive Watch where
  | children
  | data (wid : String)
deriving DecidableEq, Repr

/-- Program points of the refresh thread, or of the constructor in its first refresh. -/
inductive Pc where
  /-- `while not self._stop.is_set()` -/
  | top
  /-- `self._wakeup.wait()` -/
  | wait
  /-- `self._wakeup.clear()` -/
  | clear
  /-- `if self._stop.is_set(): break` -/
  | check
  /-- `children = self._zk.get_children(_WORKERS_PATH)` -/
  | list
  /-- `for wid in children: if self._stop.is_set(): return` -/
  | watch (children rest : List String)
  /-- `self._watch_worker(wid)` -/
  | install (children : List String) (wid : String) (rest : List String)
  /-- `data, _ = self._zk.get(…)` -/
  | read (rest : List String) (workers : Workers)
  /-- `if self._stop.is_set(): return` -/
  | stopped (workers : Workers)
  /-- `self._workers = dict(workers)` -/
  | store (workers : Workers)
  /-- `if workers != self._published_workers: self._on_change(dict(workers))` -/
  | compare (workers : Workers)
  /-- `self._published_workers = dict(workers)` -/
  | commit (workers : Workers)
  /-- the refresh has raised -/
  | raised
  /-- `self._wakeup.set()` -/
  | rewake
  | exited
deriving DecidableEq, Repr

/-- A call of `on_change`, with the znodes as they were at each moment of its refresh. -/
structure Call where
  snapshot : Workers
  tables : List Nodes
deriving DecidableEq, Repr

/-- What a refresh found when it began. -/
structure Base where
  workers : Workers
  published : Option Workers
  calls : List Call
deriving DecidableEq, Repr

/-- `live` are the watches in place and `watched` is `_watched_workers`; `calls` are the calls of
`on_change`, newest first, `tables` the znodes since the refresh began. -/
structure Sys where
  nodes : Nodes
  live : List Watch
  pending : List Watch
  stop : Bool
  wakeup : Bool
  booting : Bool
  pc : Pc
  workers : Workers
  published : Option Workers
  watched : List String
  calls : List Call
  tables : List Nodes
  base : Base
deriving DecidableEq, Repr

/-- What ZooKeeper answers: the order it lists the children in, whether the request fails, and
whether a `DataWatch` that could not be set up is in place all the same. -/
structure Io where
  children : List String := []
  fails : Bool := false
  left : Bool := false
deriving DecidableEq, Repr

inductive Event where
  | create (wid : String) (data : List UInt8)
  | setData (wid : String) (data : List UInt8)
  | delete (wid : String)
  /-- a callback runs -/
  | callback (w : Watch)
  /-- `_on_state_change(KazooState.CONNECTED)` -/
  | connected
  /-- `stop()` sets its flag, then wakes the thread -/
  | stopFlag
  | stopWake
  /-- the thread executes its next statement -/
  | run (io : Io)
deriving DecidableEq, Repr

/-- `d == e`. -/
def sameDict (d e : Workers) : Bool :=
  d.all (fun p => Dict.get? p.1 e == some p.2) && e.all (fun p => Dict.get? p.1 d == some p.2)

namespace Sys

/-- The watches `ws` are told of a change that makes the znodes `nodes`. -/
def change (s : Sys) (nodes : Nodes) (ws : List Watch) : Sys :=
  { s with
    nodes := nodes
    tables := nodes :: s.tables
    pending := ws.filter (· ∈ s.live) ++ s.pending }

/-- A callback: `if self._stop.is_set(): return False`, which removes the watch, or
`self._wakeup.set()`. -/
def notify (s : Sys) (w : Watch) : Sys :=
  { s with
    pending := s.pending.filter (· ≠ w)
    live := if s.stop then s.live.filter (· ≠ w) else s.live
    wakeup := s.wakeup || !s.stop }

/-- The refresh returns: to its loop, or to the constructor, which starts the thread. -/
def finished (s : Sys) : Sys := { s with pc := .top, booting := false }

/-- `get_children` answers; the refresh has begun. -/
def begin (s : Sys) (pc : Pc) : Sys :=
  { s with
    pc := pc
    tables := [s.nodes]
    base := ⟨s.workers, s.published, s.calls⟩ }

/-- `on_change(dict(workers))`. -/
def onChange (s : Sys) (workers : Workers) : Sys :=
  { s with pc := .commit workers, calls := ⟨workers, s.tables⟩ :: s.calls }

/-- The next statement of the refresh thread. -/
def advance (repr : String → String) (io : Io) (s : Sys) : Option Sys :=
  match s.pc with
  | .top => some { s with pc := if s.stop then .exited else .wait }
  | .wait => if s.wakeup then some { s with pc := .clear } else none
  | .clear => some { s with wakeup := false, pc := .check }
  | .check => some { s with pc := if s.stop then .exited else .list }
  | .list =>
    if io.fails then some (s.begin .raised)
    else if io.children.Perm (s.nodes.map Prod.fst)
    then some (s.begin (.watch io.children io.children))
    else none
  | .watch children [] => some { s with pc := .read children [] }
  | .watch children (wid :: rest) =>
    some (if s.stop then s.finished
      else { s with pc := if s.watched.contains wid then .watch children rest
        else .install children wid rest })
  | .install children wid rest =>
    some (if io.fails
      then { s with pc := .raised, live := if io.left then .data wid :: s.live else s.live }
      else { s with
        pc := .watch children rest
        live := .data wid :: s.live
        watched := wid :: s.watched })
  | .read [] workers => some { s with pc := .stopped workers }
  | .read (wid :: rest) workers =>
    if io.fails then some { s with pc := .raised }
    else match Dict.get? wid s.nodes with
      | none => some { s with pc := .read rest workers }
      | some data => match parseWorker repr data with
        | none => some { s with pc := .raised }
        | some info => some { s with pc := .read rest (Dict.set wid info workers) }
  | .stopped workers => some (if s.stop then s.finished else { s with pc := .store workers })
  | .store workers => some { s with workers := workers, pc := .compare workers }
  | .compare workers =>
    some (if (s.published.map (sameDict workers)).getD false then s.finished
      else s.onChange workers)
  | .commit workers => some ({ s with published := some workers } : Sys).finished
  | .raised =>
    -- the constructor stops the discovery; the loop waits for the retry interval or for `stop`
    some (if s.booting then { s with stop := true, wakeup := true, pc := .exited }
      else { s with pc := if s.stop then .top else .rewake })
  | .rewake => some { s with wakeup := true, pc := .top }
  | .exited => none

def step (repr : String → String) (s : Sys) : Event → Option Sys
  | .create wid data =>
    if Dict.get? wid s.nodes = none
    then some (s.change (Dict.set wid data s.nodes) [.children, .data wid])
    else none
  | .setData wid data =>
    if Dict.get? wid s.nodes = none then none
    else some (s.change (Dict.set wid data s.nodes) [.data wid])
  | .delete wid =>
    if Dict.get? wid s.nodes = none then none
    else some (s.change (Dict.del wid s.nodes) [.children, .data wid])
  | .callback w => if w ∈ s.live then some (s.notify w) else none
  | .connected => some { s with wakeup := s.wakeup || !s.stop }
  | .stopFlag => some { s with stop := true }
  | .stopWake => if s.stop then some { s with wakeup := true } else none
  | .run io => s.advance repr io

/-- The constructor has installed its `ChildrenWatch` and is about to refresh. -/
structure Init (s : Sys) : Prop where
  pc : s.pc = .list
  booting : s.booting = true
  live : s.live = [.children]
  stop : s.stop = false
  workers : s.workers = []
  published : s.published = none
  watched : s.watched = []
  calls : s.calls = []
  keys : Dict.Keys s.nodes

/-- The dict is the membership with its parsed data. -/
def Matches (repr : String → String) (s : Sys) (workers : Workers) : Prop :=
  ∀ wid, (Dict.get? wid workers).map some = (Dict.get? wid s.nodes).map (parseWorker repr)

/-! ## The invariant -/

/-- Nobody has told the thread of a change since it cleared its flag, and nobody is about to. -/
def Quiet (s : Sys) : Prop := s.stop = false ∧ s.wakeup = false ∧ s.pending = []

/-- The dict is the membership, and every znode of it is watched. -/
def Settled (repr : String → String) (s : Sys) (workers : Workers) : Prop :=
  s.Matches repr workers ∧ ∀ wid, Dict.get? wid s.nodes ≠ none → wid ∈ s.watched

/-- What the thread knows of the znodes while all is quiet. -/
def Fresh (repr : String → String) (s : Sys) : Pc → Prop
  | .top | .wait => ∃ c older, s.calls = c :: older ∧ s.Settled repr c.snapshot
  | .watch children rest => (∀ wid, Dict.get? wid s.nodes ≠ none ↔ wid ∈ children) ∧
      ∀ wid ∈ children, wid ∈ s.watched ∨ wid ∈ rest
  | .install children w rest => (∀ wid, Dict.get? wid s.nodes ≠ none ↔ wid ∈ children) ∧
      ∀ wid ∈ children, wid ∈ s.watched ∨ wid ∈ w :: rest
  | .read rest workers => (∀ wid, Dict.get? wid s.nodes ≠ none → wid ∈ s.watched) ∧
      ∀ wid, wid ∈ rest ∨
        (Dict.get? wid workers).map some = (Dict.get? wid s.nodes).map (parseWorker repr)
  | .stopped workers | .store workers | .compare workers | .commit workers =>
      s.Settled repr workers
  | _ => True

/-- The znode has had these data since the refresh began. -/
def Stable (s : Sys) (wid : String) (data : List UInt8) : Prop :=
  ∀ nodes ∈ s.tables, Dict.get? wid nodes = some data

/-- The dict has every worker that is stable in the tables. -/
def Complete (repr : String → String) (tables : List Nodes) (workers : Workers) : Prop :=
  ∀ wid data, (∀ nodes ∈ tables, Dict.get? wid nodes = some data) →
    ∃ info, parseWorker repr data = some info ∧ Dict.get? wid workers = some info

/-- What the refresh has of the stable workers. -/
def Recorded (repr : String → String) (s : Sys) : Pc → Prop
  | .watch children _ | .install children _ _ =>
      s.nodes ∈ s.tables ∧ ∀ wid data, s.Stable wid data → wid ∈ children
  | .read rest workers => s.nodes ∈ s.tables ∧ ∀ wid data, s.Stable wid data → wid ∈ rest ∨
      ∃ info, parseWorker repr data = some info ∧ Dict.get? wid workers = some info
  | .stopped workers | .store workers | .compare workers => Complete repr s.tables workers
  | _ => True

/-- Nothing that outlives the refresh has changed yet. -/
def Kept (s : Sys) : Pc → Prop
  | .watch _ _ | .install _ _ _ | .read _ _ | .stopped _ | .store _ | .raised =>
      s.base = ⟨s.workers, s.published, s.calls⟩
  | _ => True

/-- The local variables of the thread. -/
def Shape (s : Sys) : Pc → Prop
  | .watch children _ | .install children _ _ => children.Nodup
  | .read rest workers => rest.Nodup ∧ ∀ wid ∈ rest, Dict.get? wid workers = none
  | .commit workers => ∃ c older, s.calls = c :: older ∧ c.snapshot = workers
  | _ => True

structure Inv (repr : String → String) (s : Sys) : Prop where
  keys : Dict.Keys s.nodes
  live : s.stop = false → .children ∈ s.live ∧ ∀ wid ∈ s.watched, .data wid ∈ s.live
  shape : s.Shape s.pc
  published : (∃ workers, s.pc = .commit workers) ∨ s.published = s.calls.head?.map Call.snapshot
  kept : s.Kept s.pc
  recorded : s.Recorded repr s.pc
  complete : ∀ c ∈ s.calls, Complete repr c.tables c.snapshot
  fresh : s.Quiet → s.Fresh repr s.pc

theorem Init.inv {repr : String → String} {s : Sys} (h : s.Init) : s.Inv repr where
  keys := h.keys
  live := fun _ => by simp [h.live, h.watched]
  shape := by rw [h.pc]; trivial
  published := .inr (by simp [h.published, h.calls])
  kept := by rw [h.pc]; trivial
  recorded := by rw [h.pc]; trivial
  complete := by simp [h.calls]
  fresh := fun _ => by rw [h.pc]; trivial

section Steps

variable {repr : String → String} {s t : Sys}

/-! ### What others do -/

theorem Stable.of_change {nodes : Nodes} {ws : List Watch} {wid : String} {data : List UInt8}
    (h : (s.change nodes ws).Stable wid data) : s.Stable wid data :=
  fun table ht => h table (List.mem_cons_of_mem _ ht)

/-- A watch in place that is told of a change ends the quiet. -/
theorem not_quiet_of_live {nodes : Nodes} {ws : List Watch} {w : Watch} (hw : w ∈ ws)
    (hl : w ∈ s.live) : ¬ (s.change nodes ws).Quiet := by
  rintro ⟨-, -, hp⟩
  have hmem : w ∈ (s.change nodes ws).pending := by simp [change, hw, hl]
  rw [hp] at hmem
  simp at hmem

theorem Recorded.change {pc : Pc} (h : s.Recorded repr pc) (nodes : Nodes) (ws : List Watch) :
    (s.change nodes ws).Recorded repr pc := by
  cases pc with
  | watch children rest => exact ⟨List.mem_cons_self, fun wid data hs => h.2 wid data hs.of_change⟩
  | install children w rest =>
    exact ⟨List.mem_cons_self, fun wid data hs => h.2 wid data hs.of_change⟩
  | read rest workers => exact ⟨List.mem_cons_self, fun wid data hs => h.2 wid data hs.of_change⟩
  | stopped workers => exact fun wid data hs => h wid data (Stable.of_change hs)
  | store workers => exact fun wid data hs => h wid data (Stable.of_change hs)
  | compare workers => exact fun wid data hs => h wid data (Stable.of_change hs)
  | _ => trivial

/-- A change of the znodes: only the quiet has to be looked at. -/
theorem Inv.change (h : s.Inv repr) {nodes : Nodes} {ws : List Watch} (hk : Dict.Keys nodes)
    (hf : (s.change nodes ws).Quiet → (s.change nodes ws).Fresh repr s.pc) :
    (s.change nodes ws).Inv repr :=
  ⟨hk, h.live, h.shape, h.published, h.kept, h.recorded.change nodes ws, h.complete, hf⟩

/-- A change of the membership wakes the `ChildrenWatch`. -/
theorem Inv.change_children (h : s.Inv repr) {nodes : Nodes} {ws : List Watch}
    (hk : Dict.Keys nodes) : (s.change nodes (.children :: ws)).Inv repr :=
  h.change hk fun hq => absurd hq (not_quiet_of_live List.mem_cons_self (h.live hq.1).1)

theorem get?_set_eq_none {k wid : String} {data : List UInt8} {nodes : Nodes}
    (h : Dict.get? k nodes ≠ none) :
    Dict.get? wid (Dict.set k data nodes) ≠ none ↔ Dict.get? wid nodes ≠ none := by
  by_cases hk : wid = k
  · subst hk
    simp [h]
  · rw [Dict.get?_set_of_ne hk]

/-- A change of data wakes the `DataWatch`, or the worker is one the refresh has still to watch. -/
theorem Inv.change_data (h : s.Inv repr) {k : String} {data : List UInt8}
    (hk : Dict.get? k s.nodes ≠ none) :
    (s.change (Dict.set k data s.nodes) [.data k]).Inv repr := by
  refine h.change (h.keys.set k data) fun hq => ?_
  have hunwatched : k ∉ s.watched := fun hw =>
    not_quiet_of_live List.mem_cons_self ((h.live hq.1).2 k hw) hq
  have hquiet : s.Quiet := ⟨hq.1, hq.2.1, (List.append_eq_nil_iff.mp hq.2.2).2⟩
  have hfresh := h.fresh hquiet
  have hnodes : (s.change (Dict.set k data s.nodes) [.data k]).nodes = Dict.set k data s.nodes := rfl
  cases hpc : s.pc with
  | watch children rest =>
    rw [hpc] at hfresh
    exact ⟨fun wid => by rw [hnodes, get?_set_eq_none hk]; exact hfresh.1 wid, hfresh.2⟩
  | install children w rest =>
    rw [hpc] at hfresh
    exact ⟨fun wid => by rw [hnodes, get?_set_eq_none hk]; exact hfresh.1 wid, hfresh.2⟩
  | top =>
    rw [hpc] at hfresh
    obtain ⟨c, older, -, -, hall⟩ := hfresh
    exact absurd (hall k hk) hunwatched
  | wait =>
    rw [hpc] at hfresh
    obtain ⟨c, older, -, -, hall⟩ := hfresh
    exact absurd (hall k hk) hunwatched
  | read rest workers => rw [hpc] at hfresh; exact absurd (hfresh.1 k hk) hunwatched
  | stopped workers => rw [hpc] at hfresh; exact absurd (hfresh.2 k hk) hunwatched
  | store workers => rw [hpc] at hfresh; exact absurd (hfresh.2 k hk) hunwatched
  | compare workers => rw [hpc] at hfresh; exact absurd (hfresh.2 k hk) hunwatched
  | commit workers => rw [hpc] at hfresh; exact absurd (hfresh.2 k hk) hunwatched
  | _ => trivial

/-- Flags and watches may change as long as no quiet appears from nowhere. -/
theorem Inv.flags (h : s.Inv repr) {live pending : List Watch} {stop wakeup : Bool}
    (hl : stop = false → .children ∈ live ∧ ∀ wid ∈ s.watched, .data wid ∈ live)
    (hq : stop = false → wakeup = false → pending = [] → s.Quiet) :
    ({ s with live := live, pending := pending, stop := stop, wakeup := wakeup } : Sys).Inv repr :=
  ⟨h.keys, hl, h.shape, h.published, h.kept, h.recorded, h.complete,
    fun hquiet => h.fresh (hq hquiet.1 hquiet.2.1 hquiet.2.2)⟩

/-! ### The thread -/

theorem get?_ne_none_iff {wid : String} {nodes : Nodes} :
    Dict.get? wid nodes ≠ none ↔ wid ∈ nodes.map Prod.fst := by
  induction nodes with
  | nil => simp [Dict.get?]
  | cons p nodes ih =>
    obtain ⟨k, data⟩ := p
    by_cases hk : k = wid
    · simp [Dict.get?, hk]
    · simp [Dict.get?, hk, ih, Ne.symm hk]

theorem get?_of_sameDict {d e : Workers} (h : sameDict d e = true) (wid : String) :
    Dict.get? wid d = Dict.get? wid e := by
  simp only [sameDict, Bool.and_eq_true, List.all_eq_true, beq_iff_eq] at h
  cases hd : Dict.get? wid d with
  | some info => exact (h.1 _ (Dict.mem_of_get? hd)).symm
  | none =>
    cases he : Dict.get? wid e with
    | none => rfl
    | some info => exact absurd (h.2 _ (Dict.mem_of_get? he)) (by simp [hd])

/-- `get_children` answers. -/
theorem Inv.list (h : s.Inv repr) {children : List String}
    (hc : children.Perm (s.nodes.map Prod.fst)) (hpc : s.pc = .list) :
    (s.begin (.watch children children)).Inv repr := by
  have hmem : ∀ wid, Dict.get? wid s.nodes ≠ none ↔ wid ∈ children :=
    fun wid => get?_ne_none_iff.trans hc.mem_iff.symm
  refine ⟨h.keys, h.live, hc.nodup_iff.mpr h.keys, ?_, rfl, ⟨List.mem_cons_self, ?_⟩, h.complete,
    fun _ => ⟨hmem, fun wid hw => .inr hw⟩⟩
  · exact .inr (h.published.resolve_left (by simp [hpc]))
  · intro wid data hs
    exact (hmem wid).mp (by simp [hs s.nodes List.mem_cons_self])

/-- A znode is read, or found missing. -/
theorem Inv.read (h : s.Inv repr) {wid : String} {rest : List String} {workers workers' : Workers}
    (hpc : s.pc = .read (wid :: rest) workers)
    (hw : Dict.get? wid s.nodes = none ∧ workers' = workers ∨
      ∃ data info, Dict.get? wid s.nodes = some data ∧ parseWorker repr data = some info ∧
        workers' = Dict.set wid info workers) :
    ({ s with pc := .read rest workers' } : Sys).Inv repr := by
  have hshape := h.shape
  have hkept := h.kept
  have hrec := h.recorded
  have hfresh := h.fresh
  rw [hpc] at hshape hkept hrec hfresh
  obtain ⟨hnd, hnone⟩ := hshape
  have hother : ∀ k, k ≠ wid → Dict.get? k workers' = Dict.get? k workers := by
    intro k hk
    rcases hw with ⟨-, rfl⟩ | ⟨data, info, -, -, rfl⟩
    · rfl
    · exact Dict.get?_set_of_ne hk _ _
  have hself : (Dict.get? wid workers').map some = (Dict.get? wid s.nodes).map (parseWorker repr) := by
    rcases hw with ⟨hn, rfl⟩ | ⟨data, info, hd, hp, rfl⟩
    · simp [hn, hnone wid List.mem_cons_self]
    · simp [hd, hp]
  refine ⟨h.keys, h.live, ⟨hnd.of_cons, fun k hk => ?_⟩,
    .inr (h.published.resolve_left (by simp [hpc])), hkept, ⟨hrec.1, fun k data hs => ?_⟩,
    h.complete, fun hq => ⟨(hfresh hq).1, fun k => ?_⟩⟩
  · rw [hother k fun heq => (List.nodup_cons.mp hnd).1 (heq ▸ hk)]
    exact hnone k (List.mem_cons_of_mem _ hk)
  · by_cases hk : k = wid
    · subst hk
      right
      rcases hw with ⟨hn, -⟩ | ⟨data', info, hd, hp, rfl⟩
      · exact absurd (hs s.nodes hrec.1) (by simp [hn])
      · obtain rfl : data' = data := Option.some.inj (hd.symm.trans (hs s.nodes hrec.1))
        exact ⟨info, hp, Dict.get?_set_self _ _ _⟩
    · rw [hother k hk]
      exact (hrec.2 k data hs).imp (fun hm => (List.mem_cons.mp hm).resolve_left hk) id
  · by_cases hk : k = wid
    · exact .inr (hk ▸ hself)
    · rw [hother k hk]
      exact ((hfresh hq).2 k).imp (fun hm => (List.mem_cons.mp hm).resolve_left hk) id

/-- A snapshot equal to the published one is not published again. -/
theorem Inv.skip (h : s.Inv repr) {workers published : Workers} (hpc : s.pc = .compare workers)
    (hp : s.published = some published) (hsame : sameDict workers published = true) :
    s.finished.Inv repr := by
  have hpub := h.published.resolve_left (by simp [hpc])
  refine ⟨h.keys, h.live, trivial, .inr hpub, trivial, trivial, h.complete, fun hq => ?_⟩
  have hfresh := h.fresh hq
  rw [hpc] at hfresh
  obtain ⟨hmatch, hall⟩ := hfresh
  cases hcalls : s.calls with
  | nil => simp [hp, hcalls] at hpub
  | cons c older =>
    obtain rfl : published = c.snapshot := by simpa [hp, hcalls] using hpub
    refine ⟨c, older, hcalls, fun wid => ?_, hall⟩
    rw [← get?_of_sameDict hsame wid]
    exact hmatch wid

theorem Inv.onChange (h : s.Inv repr) {workers : Workers} (hpc : s.pc = .compare workers) :
    (s.onChange workers).Inv repr := by
  have hrec := h.recorded
  have hfresh := h.fresh
  rw [hpc] at hrec hfresh
  refine ⟨h.keys, h.live, ⟨_, _, rfl, rfl⟩, .inl ⟨workers, rfl⟩, trivial, trivial, fun c hc => ?_,
    hfresh⟩
  rcases List.mem_cons.mp hc with rfl | hc
  · exact hrec
  · exact h.complete c hc

/-- A statement that changes nothing but the program point. -/
theorem Inv.jump (h : s.Inv repr) (hpc : ∀ workers, s.pc ≠ .commit workers) {pc : Pc}
    {booting : Bool} (hshape : s.Shape pc) (hkept : s.Kept pc) (hrec : s.Recorded repr pc)
    (hfresh : s.Quiet → s.Fresh repr pc) :
    ({ s with pc := pc, booting := booting } : Sys).Inv repr :=
  ⟨h.keys, h.live, hshape, .inr (h.published.resolve_left fun ⟨w, hw⟩ => hpc w hw), hkept, hrec,
    h.complete, hfresh⟩

/-- One child is seen to, by a watch that is in place. -/
theorem Fresh.next {children rest : List String} {w : String}
    (h : s.Fresh repr (.install children w rest)) {watched : List String}
    (hw : w ∈ watched) (hsub : s.watched ⊆ watched) :
    ({ s with watched := watched } : Sys).Fresh repr (.watch children rest) := by
  refine ⟨h.1, fun wid hwid => ?_⟩
  rcases h.2 wid hwid with hin | hin
  · exact .inl (hsub hin)
  · rcases List.mem_cons.mp hin with rfl | hin
    · exact .inl hw
    · exact .inr hin

/-- The loop over the children. -/
theorem Inv.watch (h : s.Inv repr) {children rest : List String} {w : String}
    (hpc : s.pc = .watch children (w :: rest)) :
    ({ s with pc := if s.watched.contains w then .watch children rest
        else .install children w rest } : Sys).Inv repr := by
  have hshape := h.shape
  have hkept := h.kept
  have hrec := h.recorded
  have hfresh := h.fresh
  rw [hpc] at hshape hkept hrec hfresh
  have hno : ∀ workers, s.pc ≠ .commit workers := by simp [hpc]
  split
  · rename_i hw
    refine h.jump hno hshape hkept hrec fun hq => ?_
    exact Fresh.next (hfresh hq) (by simpa using hw) (List.Subset.refl _)
  · exact h.jump hno hshape hkept hrec hfresh

/-- `self._watch_worker(wid)` succeeds. -/
theorem Inv.install (h : s.Inv repr) {children rest : List String} {w : String}
    (hpc : s.pc = .install children w rest) :
    ({ s with
      pc := .watch children rest
      live := .data w :: s.live
      watched := w :: s.watched } : Sys).Inv repr := by
  have hshape := h.shape
  have hkept := h.kept
  have hrec := h.recorded
  have hfresh := h.fresh
  rw [hpc] at hshape hkept hrec hfresh
  refine ⟨h.keys, fun hs => ?_, hshape, .inr (h.published.resolve_left (by simp [hpc])), hkept, hrec,
    h.complete, fun hq => ?_⟩
  swap
  · exact (hfresh hq).next List.mem_cons_self (List.subset_cons_self _ _)
  obtain ⟨hc, hd⟩ := h.live hs
  refine ⟨List.mem_cons_of_mem _ hc, fun wid hw => ?_⟩
  rcases List.mem_cons.mp hw with rfl | hw
  · exact List.mem_cons_self
  · exact List.mem_cons_of_mem _ (hd wid hw)

/-- Every child is watched: the reads begin. -/
theorem Fresh.watched {children : List String} (h : s.Fresh repr (.watch children [])) :
    s.Fresh repr (.read children []) := by
  obtain ⟨hmem, hall⟩ := h
  refine ⟨fun wid hw => (hall wid ((hmem wid).mp hw)).resolve_right (by simp), fun wid => ?_⟩
  by_cases hw : wid ∈ children
  · exact .inl hw
  · have hn : Dict.get? wid s.nodes = none := by
      by_contra hc
      exact hw ((hmem wid).mp hc)
    exact .inr (by simp [Dict.get?, hn])

/-- **Step lemma** for the thread. -/
theorem Inv.advance (h : s.Inv repr) {io : Io} (ha : s.advance repr io = some t) : t.Inv repr := by
  have hshape := h.shape
  have hkept := h.kept
  have hrec := h.recorded
  have hfresh := h.fresh
  cases hpc : s.pc with
  | top =>
    simp only [Sys.advance, hpc, Option.some.injEq] at ha
    subst ha
    rw [hpc] at hfresh
    split
    · exact h.jump (by simp [hpc]) trivial trivial trivial fun _ => trivial
    · exact h.jump (by simp [hpc]) trivial trivial trivial hfresh
  | wait =>
    simp only [Sys.advance, hpc] at ha
    split at ha
    · obtain rfl := Option.some.inj ha
      exact h.jump (by simp [hpc]) trivial trivial trivial fun _ => trivial
    · simp at ha
  | clear =>
    simp only [Sys.advance, hpc, Option.some.injEq] at ha
    subst ha
    exact ⟨h.keys, h.live, trivial, .inr (h.published.resolve_left (by simp [hpc])), trivial, trivial,
      h.complete, fun _ => trivial⟩
  | check =>
    simp only [Sys.advance, hpc, Option.some.injEq] at ha
    subst ha
    split
    all_goals exact h.jump (by simp [hpc]) trivial trivial trivial fun _ => trivial
  | list =>
    simp only [Sys.advance, hpc] at ha
    split at ha
    · obtain rfl := Option.some.inj ha
      exact ⟨h.keys, h.live, trivial, .inr (h.published.resolve_left (by simp [hpc])), rfl, trivial,
        h.complete, fun _ => trivial⟩
    · split at ha
      · rename_i hc
        obtain rfl := Option.some.inj ha
        exact h.list hc hpc
      · simp at ha
  | watch children rest =>
    cases rest with
    | nil =>
      simp only [Sys.advance, hpc, Option.some.injEq] at ha
      subst ha
      rw [hpc] at hshape hkept hrec hfresh
      exact h.jump (by simp [hpc]) ⟨hshape, by simp [Dict.get?]⟩ hkept
        ⟨hrec.1, fun wid data hs => .inl (hrec.2 wid data hs)⟩ fun hq => (hfresh hq).watched
    | cons w rest =>
      simp only [Sys.advance, hpc, Option.some.injEq] at ha
      subst ha
      split
      · rename_i hstop
        exact h.jump (by simp [hpc]) trivial trivial trivial fun hq =>
          absurd (hstop.symm.trans hq.1) (by simp)
      · exact h.watch hpc
  | install children w rest =>
    simp only [Sys.advance, hpc, Option.some.injEq] at ha
    subst ha
    split
    · rw [hpc] at hkept
      refine ⟨h.keys, fun hs => ?_, trivial, .inr (h.published.resolve_left (by simp [hpc])), hkept,
        trivial, h.complete, fun _ => trivial⟩
      obtain ⟨hc, hd⟩ := h.live hs
      split
      · exact ⟨List.mem_cons_of_mem _ hc, fun wid hw => List.mem_cons_of_mem _ (hd wid hw)⟩
      · exact ⟨hc, hd⟩
    · exact h.install hpc
  | read rest workers =>
    cases rest with
    | nil =>
      simp only [Sys.advance, hpc, Option.some.injEq] at ha
      subst ha
      rw [hpc] at hkept hrec hfresh
      refine h.jump (by simp [hpc]) trivial hkept
        (fun wid data hs => (hrec.2 wid data hs).resolve_left (by simp)) fun hq => ?_
      exact ⟨fun wid => ((hfresh hq).2 wid).resolve_left (by simp), (hfresh hq).1⟩
    | cons wid rest =>
      simp only [Sys.advance, hpc] at ha
      have hraise : ({ s with pc := .raised } : Sys).Inv repr := by
        rw [hpc] at hkept
        exact h.jump (by simp [hpc]) trivial hkept trivial fun _ => trivial
      split at ha
      · obtain rfl := Option.some.inj ha
        exact hraise
      · split at ha
        · rename_i hn
          obtain rfl := Option.some.inj ha
          exact h.read hpc (.inl ⟨hn, rfl⟩)
        · rename_i data hd
          split at ha
          · obtain rfl := Option.some.inj ha
            exact hraise
          · rename_i info hp
            obtain rfl := Option.some.inj ha
            exact h.read hpc (.inr ⟨data, info, hd, hp, rfl⟩)
  | stopped workers =>
    simp only [Sys.advance, hpc, Option.some.injEq] at ha
    subst ha
    rw [hpc] at hkept hrec hfresh
    split
    · rename_i hstop
      exact h.jump (by simp [hpc]) trivial trivial trivial fun hq =>
          absurd (hstop.symm.trans hq.1) (by simp)
    · exact h.jump (by simp [hpc]) trivial hkept hrec hfresh
  | store workers =>
    simp only [Sys.advance, hpc, Option.some.injEq] at ha
    subst ha
    rw [hpc] at hrec hfresh
    exact ⟨h.keys, h.live, trivial, .inr (h.published.resolve_left (by simp [hpc])), trivial, hrec,
      h.complete, hfresh⟩
  | compare workers =>
    simp only [Sys.advance, hpc, Option.some.injEq] at ha
    subst ha
    split
    · rename_i hsame
      cases hp : s.published with
      | none => simp [hp] at hsame
      | some published => exact h.skip hpc hp (by simpa [hp] using hsame)
    · exact h.onChange hpc
  | commit workers =>
    simp only [Sys.advance, hpc, Option.some.injEq] at ha
    subst ha
    rw [hpc] at hshape hfresh
    obtain ⟨c, older, hcalls, hsnap⟩ := hshape
    refine ⟨h.keys, h.live, trivial, .inr ?_, trivial, trivial, h.complete, fun hq => ?_⟩
    · simp [finished, hcalls, hsnap]
    · exact ⟨c, older, hcalls, hsnap ▸ hfresh hq⟩
  | raised =>
    simp only [Sys.advance, hpc, Option.some.injEq] at ha
    subst ha
    have hpub := h.published.resolve_left (by simp [hpc])
    split
    · exact ⟨h.keys, (fun hlive => by cases hlive), trivial, .inr hpub, trivial, trivial, h.complete,
        fun _ => trivial⟩
    · split
      · rename_i hstop
        exact h.jump (by simp [hpc]) trivial trivial trivial fun hq =>
          absurd (hstop.symm.trans hq.1) (by simp)
      · exact h.jump (by simp [hpc]) trivial trivial trivial fun _ => trivial
  | rewake =>
    simp only [Sys.advance, hpc, Option.some.injEq] at ha
    subst ha
    exact ⟨h.keys, h.live, trivial, .inr (h.published.resolve_left (by simp [hpc])), trivial, trivial,
      h.complete, fun hq => by simp [Quiet] at hq⟩
  | exited => simp [Sys.advance, hpc] at ha

/-- **Step lemma.** -/
theorem Inv.step (h : s.Inv repr) {e : Event} (hs : s.step repr e = some t) : t.Inv repr := by
  cases e with
  | create wid data =>
    simp only [Sys.step] at hs
    split at hs
    · obtain rfl := Option.some.inj hs
      exact h.change_children (h.keys.set wid data)
    · simp at hs
  | setData wid data =>
    simp only [Sys.step] at hs
    split at hs
    · simp at hs
    · rename_i hk
      obtain rfl := Option.some.inj hs
      exact h.change_data hk
  | delete wid =>
    simp only [Sys.step] at hs
    split at hs
    · simp at hs
    · obtain rfl := Option.some.inj hs
      exact h.change_children (h.keys.del wid)
  | callback w =>
    simp only [Sys.step] at hs
    split at hs
    · obtain rfl := Option.some.inj hs
      refine h.flags (fun hstop => ?_) fun hstop hwake => ?_
      · simpa [hstop] using h.live hstop
      · simp [hstop] at hwake
    · simp at hs
  | connected =>
    obtain rfl := Option.some.inj hs
    refine h.flags h.live fun hstop hwake hp => ⟨hstop, ?_, hp⟩
    simp [hstop] at hwake
  | stopFlag =>
    obtain rfl := Option.some.inj hs
    exact h.flags (fun hlive => by cases hlive) fun hlive => by cases hlive
  | stopWake =>
    simp only [Sys.step] at hs
    split at hs
    · obtain rfl := Option.some.inj hs
      exact h.flags h.live fun _ hwake => by cases hwake
    · simp at hs
  | run io => exact h.advance hs

end Steps

/-- **No update is lost and nothing partial is published.**  In every reachable state: when the
thread waits with its flag clear and no callback is pending, the last snapshot passed to `on_change`
is the current membership with its parsed data; every snapshot passed to `on_change` has every
worker whose znode existed unchanged while it was collected; and a refresh that has raised left
`get_workers()` and the published snapshot as they were when it began. -/
theorem discovery_sound (repr : String → String) {s₀ s : Sys} {es : List Event} (hinit : s₀.Init)
    (hrun : exec (Sys.step repr) s₀ es = some s) :
    (s.pc = .wait → s.stop = false → s.wakeup = false → s.pending = [] →
      ∃ c older, s.calls = c :: older ∧ s.Matches repr c.snapshot) ∧
    (∀ c ∈ s.calls, Complete repr c.tables c.snapshot) ∧
    (s.pc = .raised → s.workers = s.base.workers ∧ s.published = s.base.published ∧
      s.calls = s.base.calls) := by
  have hinv : s.Inv repr := exec_inv (fun _ _ _ h hs => h.step hs) hinit.inv hrun
  refine ⟨fun hpc hstop hwake hp => ?_, hinv.complete, fun hpc => ?_⟩
  · have hfresh := hinv.fresh ⟨hstop, hwake, hp⟩
    rw [hpc] at hfresh
    obtain ⟨c, older, hcalls, hmatch, -⟩ := hfresh
    exact ⟨c, older, hcalls, hmatch⟩
  · have hkept := hinv.kept
    rw [hpc] at hkept
    have hbase : s.base = ⟨s.workers, s.published, s.calls⟩ := hkept
    exact ⟨by rw [hbase], by rw [hbase], by rw [hbase]⟩

/-! ## A run -/

/-- `b"a:1"` under one child. -/
def sampleStart : Sys where
  nodes := [("a", [97, 58, 49])]
  live := [.children]
  pending := []
  stop := false
  wakeup := true
  booting := true
  pc := .list
  workers := []
  published := none
  watched := []
  calls := []
  tables := []
  base := ⟨[], none, []⟩

/-- A second worker registers while the constructor reads the first; the thread finds it. -/
def sampleRun : List Event :=
  [.run { children := ["a"] }, .run {}, .run {}, .create "b" [98, 58, 50], .run {}, .run {}, .run {},
    .run {}, .run {}, .run {}, .run {}, .run {}, .callback .children, .run {}, .run {}, .run {}] ++
  [.run { children := ["b", "a"] }] ++ List.replicate 12 (.run {})

theorem discovery_sound_sample : ∃ s, exec (Sys.step id) sampleStart sampleRun = some s ∧
    s.pc = .wait ∧ s.calls.length = 2 ∧
    ∃ c older, s.calls = c :: older ∧ s.Matches id c.snapshot := by
  have hview : (exec (Sys.step id) sampleStart sampleRun).map (fun s =>
      (s.pc, s.stop, s.wakeup, s.pending, s.calls.length)) = some (.wait, false, false, [], 2) := by
    decide +kernel
  obtain ⟨s, hs, hv⟩ := Option.map_eq_some_iff.mp hview
  simp only [Prod.mk.injEq] at hv
  obtain ⟨hpc, hstop, hwake, hp, hcalls⟩ := hv
  refine ⟨s, hs, hpc, hcalls, (discovery_sound id ?_ hs).1 hpc hstop hwake hp⟩
  exact ⟨rfl, rfl, rfl, rfl, rfl, rfl, rfl, rfl, by simp [sampleStart, Dict.Keys]⟩

end Sys

end Inference.Discovery
