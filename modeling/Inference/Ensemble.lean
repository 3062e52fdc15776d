import Inference.Bookkeeping
import Inference.Cluster

/-!
# Inference.Ensemble — from `register` and `set_state` to the routing table

The two halves of `system/zookeeper_registry.py` against one ZooKeeper: any number of worker
processes, each with its `WorkerRegistry`, and the gateway of `Inference.Cluster` with discovery and
its pool.  Workers start, register, change their state, lose their sessions, are killed and come back
under the same ID; the gateway restarts.  A write of a registry is a change of the znodes that
discovery watches.

* `parseWorker_metadata`: discovery reads what a registry writes.
* `Sys.step`: the composition.
* **`members_enrolled`**: a member of the pool is at an address given to `register` for its ID.
* **`routing_mirrors_workers`**: once discovery waits, each registered worker has one running proxy,
  in the state its process is in, and every running proxy is for a registered node.
-/

namespace Inference.Ensemble

open Inference.Lib
open Inference.Registry (Znode Znodes metadata)
open Inference.Discovery (Nodes WorkerInfo RoutingState isWhite strip routingState workerInfo
  parseWorker)

/-! ## What is written is what is read -/

/-- The child `f"worker-{self._worker_id}"`. -/
def path (wid : Option ℤ) : String :=
  "worker-" ++ String.ofList (wid.elim ['N', 'o', 'n', 'e'] Json.printInt)

theorem path_injective : Function.Injective path := by
  intro a b h
  have hlist := congrArg String.toList h
  simp only [path, String.toList_append, String.toList_ofList, List.append_cancel_left_eq] at hlist
  -- an integer reads back, and `None` does not
  have hread : ∀ n : ℤ, Json.loads id (String.ofList (Json.printInt n)) = some (.int n) :=
    fun n => Json.loads_print Json.defaultStyle id (v := .int n) rfl
  have hnone : Json.loads id (String.ofList ['N', 'o', 'n', 'e']) = none := by decide +kernel
  cases a with
  | none =>
    cases b with
    | none => rfl
    | some n =>
      have hn := hread n
      rw [← show ['N', 'o', 'n', 'e'] = Json.printInt n from hlist, hnone] at hn
      cases hn
  | some m =>
    have hm := hread m
    cases b with
    | none =>
      rw [show Json.printInt m = ['N', 'o', 'n', 'e'] from hlist, hnone] at hm
      cases hm
    | some n =>
      rw [show Json.printInt m = Json.printInt n from hlist, hread n] at hm
      exact (congrArg some (Json.int.inj (Option.some.inj hm))).symm

theorem printFields_last (st : Json.Style) (fields : List (String × Json)) :
    ∃ l, Json.printFields st fields = l ++ ['\x7d'] := by
  induction fields with
  | nil => exact ⟨[], rfl⟩
  | cons e fields ih =>
    obtain ⟨l, hl⟩ := ih
    refine ⟨',' :: (st.gap ++ (Json.quote st.ascii e.1 ++
      ':' :: (st.gap ++ (Json.print st e.2 ++ l)))), ?_⟩
    rw [Json.printFields, hl]
    simp only [List.append_assoc, List.cons_append]

theorem print_obj_ends (st : Json.Style) (fields : List (String × Json)) :
    ∃ l, Json.print st (.obj fields) = '\x7b' :: (l ++ ['\x7d']) := by
  cases fields with
  | nil => exact ⟨[], rfl⟩
  | cons e fields =>
    obtain ⟨l, hl⟩ := printFields_last st fields
    refine ⟨Json.quote st.ascii e.1 ++ ':' :: (st.gap ++ (Json.print st e.2 ++ l)), ?_⟩
    rw [Json.print, hl]
    simp only [List.append_assoc, List.cons_append]

/-- A text between two characters that are no white space is its own `strip`. -/
theorem strip_of_ends {c d : Char} {l : List Char} (hc : isWhite c = false)
    (hd : isWhite d = false) : strip (String.ofList (c :: (l ++ [d]))) = String.ofList (c :: (l ++ [d])) := by
  have hfront : (c :: (l ++ [d])).dropWhile isWhite = c :: (l ++ [d]) :=
    List.dropWhile_cons_of_neg (by simp [hc])
  have hback : (c :: (l ++ [d])).reverse.dropWhile isWhite = (c :: (l ++ [d])).reverse := by
    rw [← List.cons_append, List.reverse_append]
    exact List.dropWhile_cons_of_neg (by simp [hd])
  rw [strip, String.toList_ofList, hfront, hback, List.reverse_reverse]

/-- **Discovery reads what a registry writes**: its address and its state, or nothing if the address
is missing or empty or the state is unknown. -/
theorem parseWorker_metadata (repr : String → String) (address : Option String) (state : String) :
    parseWorker repr (Json.dumpsBytes (metadata address state)) =
      workerInfo (address.elim .null .str) (.str state) := by
  have hplain := Registry.Sys.metadata_plain address state
  have hloads := Json.loads_print Json.defaultStyle repr hplain
  obtain ⟨l, hl⟩ := print_obj_ends Json.defaultStyle
    [("address", address.elim .null .str), ("state", .str state)]
  rw [← metadata] at hl
  have hstrip := strip_of_ends (c := '\x7b') (d := '\x7d') (l := l) (by decide) (by decide)
  rw [hl] at hloads
  simp only [parseWorker, Json.dumpsBytes, Json.fromUTF8?_encode, hl, Option.bind_eq_bind,
    Option.bind_some, hstrip, String.toList_ofList, List.head?_cons, if_true, hloads]
  rfl

/-! ## The system -/

/-- What discovery is told when the znode of a worker changes. -/
def change (wid : Option ℤ) : Option Znode → Option Znode → List Discovery.Event
  | none, none => []
  | none, some n => [.create (path wid) n.data]
  | some _, none => [.delete (path wid)]
  | some m, some n => if m.data = n.data then [] else [.setData (path wid) n.data]

def changes (wids : List (Option ℤ)) (old new : Znodes) : List Discovery.Event :=
  wids.flatMap fun wid => change wid (old wid) (new wid)

/-- ZooKeeper with its clients.  Sessions below `next` have been used; `used` are the IDs that a
registry has ever had. -/
structure Sys where
  nodes : Znodes
  next : ℕ
  registries : List Registry.Sys
  used : List (Option ℤ)
  gateway : Cluster.Sys

inductive Event where
  /-- a worker process opens its registry; one that was killed takes no more steps -/
  | start
  /-- a step of the registry of process `i`, of its client or of its session -/
  | worker (i : ℕ) (e : Registry.Event)
  /-- ZooKeeper ends a session that no client has any more -/
  | reap (session : ℕ)
  /-- a step of the gateway -/
  | gateway (e : Cluster.Event)
  /-- the gateway is killed and started again -/
  | restart

/-- The znodes are changed by the registries alone. -/
def writes : Cluster.Event → Bool
  | .discovery (.create _ _) | .discovery (.setData _ _) | .discovery (.delete _) => true
  | _ => false

namespace Sys

/-- A registry with the znodes and sessions there are now. -/
def view (s : Sys) (r : Registry.Sys) : Registry.Sys := { r with nodes := s.nodes, next := s.next }

/-- The registry of a process that has opened its session. -/
def opened (s : Sys) : Registry.Sys where
  workerId := none
  address := none
  state := "READY"
  registered := none
  stop := false
  wakeup := false
  waking := 0
  loop := .top
  held := none
  session := some s.next
  live := true
  alive := true
  closed := false
  next := s.next + 1
  nodes := s.nodes

/-- Discovery before its first refresh. -/
def booting (s : Sys) : Discovery.Sys where
  nodes := s.gateway.discovery.nodes
  live := [.children]
  pending := []
  stop := false
  wakeup := false
  booting := true
  pc := .list
  workers := []
  published := none
  watched := []
  calls := []
  tables := []
  base := ⟨[], none, []⟩

variable (repr : String → String) (cfg : Pool.Machine.Config) (boot : Pool.Machine.Sys)

/-- The znodes become `nodes`, and the watches are told. -/
def publish (s : Sys) (nodes : Znodes) : Option Sys :=
  (exec (Cluster.Sys.step repr cfg) s.gateway
    ((changes s.used s.nodes nodes).map .discovery)).map fun g =>
      { s with nodes := nodes, gateway := g }

/-- `boot` is the pool of a gateway that starts. -/
def step (s : Sys) : Event → Option Sys
  | .start => some { s with next := s.next + 1, registries := s.registries ++ [s.opened] }
  | .worker i e =>
    if e.ofWorker then
      s.registries[i]?.bind fun r => ((s.view r).step e).bind fun t =>
        ({ s with
          next := t.next
          registries := s.registries.set i t
          used := s.used.insert t.workerId } : Sys).publish repr cfg t.nodes
    else none
  | .reap x =>
    if ∀ r ∈ s.registries, r.session ≠ some x
    then s.publish repr cfg fun wid => (s.nodes wid).filter fun n => n.owner ≠ x
    else none
  | .gateway e =>
    if writes e then none
    else (s.gateway.step repr cfg e).map fun g => { s with gateway := g }
  | .restart => some { s with gateway := ⟨s.booting, boot⟩ }

end Sys

/-- Nobody has started yet but the gateway. -/
structure Init (s : Sys) : Prop where
  nodes : ∀ wid, s.nodes wid = none
  registries : s.registries = []
  used : s.used = [none]
  discovery : s.gateway.discovery.Init
  children : s.gateway.discovery.nodes = []
  pool : s.gateway.pool.Init

/-! ## The znodes that discovery sees -/

/-- Discovery sees the znodes of the registries. -/
structure Mirrors (nodes : Znodes) (d : Nodes) : Prop where
  data : ∀ wid, Dict.get? (path wid) d = (nodes wid).map Znode.data
  names : ∀ w, Dict.get? w d ≠ none → ∃ wid, w = path wid

section Changes

variable {repr : String → String} {cfg : Pool.Machine.Config} {R : String → WorkerInfo → Prop}
  {c c' : Cluster.Sys} {old new : Znodes} {wid : Option ℤ}

theorem Mirrors.set {d : Nodes} (h : Mirrors old d) (n : Znode) :
    Mirrors (Function.update old wid (some n)) (Dict.set (path wid) n.data d) where
  data k := by
    by_cases hk : k = wid
    · subst hk
      rw [Dict.get?_set_self, Function.update_self, Option.map_some]
    · rw [Dict.get?_set_of_ne (fun he => hk (path_injective he)), Function.update_of_ne hk]
      exact h.data k
  names w hw := by
    by_cases hk : w = path wid
    · exact ⟨wid, hk⟩
    · rw [Dict.get?_set_of_ne hk] at hw
      exact h.names w hw

theorem Mirrors.del {d : Nodes} (h : Mirrors old d) (hkeys : Dict.Keys d) :
    Mirrors (Function.update old wid none) (Dict.del (path wid) d) where
  data k := by
    by_cases hk : k = wid
    · subst hk
      rw [Dict.get?_del_self hkeys, Function.update_self, Option.map_none]
    · rw [Dict.get?_del_of_ne (fun he => hk (path_injective he)), Function.update_of_ne hk]
      exact h.data k
  names w hw := by
    by_cases hk : w = path wid
    · exact ⟨wid, hk⟩
    · rw [Dict.get?_del_of_ne hk] at hw
      exact h.names w hw

/-- The owner of a node is nothing discovery sees. -/
theorem Mirrors.congr {d : Nodes} (h : Mirrors old d)
    (hdata : ∀ k, (new k).map Znode.data = (old k).map Znode.data) : Mirrors new d :=
  ⟨fun k => (h.data k).trans (hdata k).symm, h.names⟩

/-- What the gateway and the znodes have in common. -/
structure Seen (repr : String → String) (R : String → WorkerInfo → Prop) (nodes : Znodes)
    (c : Cluster.Sys) : Prop where
  linked : Cluster.Linked repr R c
  mirrors : Mirrors nodes c.discovery.nodes

/-- A node that is written registers a worker of `R`. -/
def Wrote (repr : String → String) (R : String → WorkerInfo → Prop) (wid : Option ℤ)
    (old new : Option Znode) : Prop :=
  ∀ n, new = some n → old.map Znode.data ≠ some n.data →
    ∀ info, parseWorker repr n.data = some info → R (path wid) info

theorem Seen.event (h : Seen repr R old c) {e : Discovery.Event} (hio : ∀ io, e ≠ .run io)
    (hw : Cluster.Writes repr R e) (hs : c.step repr cfg (.discovery e) = some c')
    (hm : ∀ d, c.discovery.step repr e = some d → Mirrors new d.nodes) : Seen repr R new c' := by
  have hstep : (c.discovery.step repr e).map (fun d => (⟨d, c.pool⟩ : Cluster.Sys)) = some c' := by
    cases e with
    | run io => exact absurd rfl (hio io)
    | _ => exact hs
  obtain ⟨d, hd, rfl⟩ := Option.map_eq_some_iff.mp hstep
  refine ⟨h.linked.step (fun d' hd' => ?_) hs, hm d hd⟩
  obtain rfl := Cluster.Event.discovery.inj hd'
  exact hw

/-- One znode changes. -/
theorem Seen.change (h : Seen repr R old c) {n : Option Znode} (hw : Wrote repr R wid (old wid) n)
    (hs : exec (Cluster.Sys.step repr cfg) c ((change wid (old wid) n).map .discovery) = some c') :
    Seen repr R (Function.update old wid n) c' := by
  have hget := h.mirrors.data wid
  cases hold : old wid with
  | none =>
    rw [hold] at hw hs hget
    cases n with
    | none =>
      obtain rfl := Option.some.inj hs
      rw [← hold, Function.update_eq_self]
      exact h
    | some n =>
      obtain ⟨m, hm, hend⟩ := exec_cons.mp hs
      obtain rfl := Option.some.inj hend
      refine h.event (e := .create (path wid) n.data) (by simp) (hw n rfl (by simp)) hm fun d hd => ?_
      simp only [Discovery.Sys.step, hget, Option.map_none, if_true] at hd
      obtain rfl := Option.some.inj hd
      exact h.mirrors.set n
  | some m =>
    rw [hold] at hw hs hget
    cases n with
    | none =>
      obtain ⟨g, hg, hend⟩ := exec_cons.mp hs
      obtain rfl := Option.some.inj hend
      refine h.event (e := .delete (path wid)) (by simp) trivial hg fun d hd => ?_
      simp only [Discovery.Sys.step, hget, Option.map_some, reduceCtorEq, if_false] at hd
      obtain rfl := Option.some.inj hd
      exact h.mirrors.del h.linked.discovery.keys
    | some n =>
      by_cases hdata : m.data = n.data
      · simp only [Ensemble.change, if_pos hdata, List.map_nil, exec_nil, Option.some.injEq] at hs
        subst hs
        refine ⟨h.linked, h.mirrors.congr fun k => ?_⟩
        by_cases hk : k = wid
        · subst hk
          rw [Function.update_self, hold, Option.map_some, Option.map_some, hdata]
        · rw [Function.update_of_ne hk]
      · simp only [Ensemble.change, if_neg hdata, List.map_cons, List.map_nil] at hs
        obtain ⟨g, hg, hend⟩ := exec_cons.mp hs
        obtain rfl := Option.some.inj hend
        refine h.event (e := .setData (path wid) n.data) (by simp) (hw n rfl (by simpa using hdata)) hg
          fun d hd => ?_
        simp only [Discovery.Sys.step, hget, Option.map_some, reduceCtorEq, if_false] at hd
        obtain rfl := Option.some.inj hd
        exact h.mirrors.set n

/-- The znodes change one after the other. -/
theorem Seen.changes {wids : List (Option ℤ)} (hnd : wids.Nodup)
    (hsame : ∀ wid, wid ∉ wids → new wid = old wid) (h : Seen repr R old c)
    (hw : ∀ wid, Wrote repr R wid (old wid) (new wid))
    (hs : exec (Cluster.Sys.step repr cfg) c ((changes wids old new).map .discovery) = some c') :
    Seen repr R new c' := by
  induction wids generalizing old c with
  | nil =>
    obtain rfl := Option.some.inj hs
    obtain rfl : new = old := funext fun wid => hsame wid List.not_mem_nil
    exact h
  | cons wid wids ih =>
    obtain ⟨hnot, hnd⟩ := List.nodup_cons.mp hnd
    simp only [Ensemble.changes, List.flatMap_cons, List.map_append] at hs
    obtain ⟨m, hm, hrest⟩ := exec_append.mp hs
    have hkept : ∀ k, k ≠ wid → Function.update old wid (new wid) k = old k := fun k hk =>
      Function.update_of_ne hk ..
    have hlist : Ensemble.changes wids (Function.update old wid (new wid)) new =
        Ensemble.changes wids old new := by
      refine List.flatMap_congr fun k hk => ?_
      rw [hkept k fun he => hnot (he ▸ hk)]
    refine ih hnd (fun k hk => ?_) (h.change (hw wid) hm) (fun k => ?_) (by rw [hlist]; exact hrest)
    · by_cases hkw : k = wid
      · subst hkw
        rw [Function.update_self]
      · rw [hkept k hkw]
        exact hsame k (by simp [hkw, hk])
    · by_cases hkw : k = wid
      · subst hkw
        rw [Function.update_self]
        exact fun n hn hne => absurd (by rw [hn, Option.map_some]) hne
      · rw [hkept k hkw]
        exact hw k

end Changes

/-! ## One registry -/

section Worker

open Inference.Registry (Caller Call Fault)

variable {s t : Registry.Sys} {e : Registry.Event}

/-- Whose registration it is, and under which session. -/
structure Same (s t : Registry.Sys) : Prop where
  workerId : t.workerId = s.workerId
  address : t.address = s.address
  session : t.session = s.session
  next : t.next = s.next

theorem same_returns (s : Registry.Sys) (c : Caller) : Same s (s.returns c) := by
  cases c <;> exact ⟨rfl, rfl, rfl, rfl⟩

theorem same_raises (s : Registry.Sys) (c : Caller) : Same s (s.raises c) := by
  cases c <;> exact ⟨rfl, rfl, rfl, rfl⟩

theorem same_typeError (s : Registry.Sys) (c : Caller) : Same s (s.typeError c) := by
  cases c <;> exact ⟨rfl, rfl, rfl, rfl⟩

theorem same_perform {c : Caller} {k : Call} {x : ℕ} {fault : Fault}
    (h : s.perform c k x fault = some t) : Same s t := by
  have hraises : ∀ nodes, Same s (({ s with nodes := nodes } : Registry.Sys).raises c) := fun nodes =>
    have h := same_raises { s with nodes := nodes } c
    ⟨h.workerId, h.address, h.session, h.next⟩
  cases fault with
  | before =>
    obtain rfl := Option.some.inj h
    exact same_raises s c
  | after =>
    obtain ⟨y, -, rfl⟩ := Option.map_eq_some_iff.mp h
    exact hraises _
  | none =>
    obtain ⟨y, -, rfl⟩ := Option.map_eq_some_iff.mp h
    split
    · exact hraises _
    · exact ⟨rfl, rfl, rfl, rfl⟩

theorem same_advance {fault : Fault} (h : s.advance fault = some t) : Same s t := by
  unfold Registry.Sys.advance at h
  split at h
  · cases h
  · obtain rfl := Option.some.inj h
    split
    · exact same_returns s .loop
    · exact ⟨rfl, rfl, rfl, rfl⟩
  · obtain rfl := Option.some.inj h
    split
    · exact same_typeError s .loop
    split
    · exact same_returns s .loop
    · exact ⟨rfl, rfl, rfl, rfl⟩
  · obtain rfl := Option.some.inj h
    split
    · exact same_typeError s _
    · exact ⟨rfl, rfl, rfl, rfl⟩
  · exact same_perform h
  · rename_i c x _
    obtain rfl := Option.some.inj h
    have h := same_returns { s with registered := some x } c
    exact ⟨h.workerId, h.address, h.session, h.next⟩

/-- Only `register` gives an ID and an address. -/
theorem step_identity (hworker : e.ofWorker = true) (h : s.step e = some t) :
    (t.workerId = s.workerId ∧ t.address = s.address) ∨
      ∃ k a, e = .register k a ∧ t.workerId = some k ∧ t.address = some a := by
  cases e with
  | others => cases hworker
  | advance fault => exact .inl ⟨(same_advance h).workerId, (same_advance h).address⟩
  | register k a =>
    simp only [Registry.Sys.step] at h
    split_ifs at h
    · obtain rfl := Option.some.inj h
      exact .inl ⟨rfl, rfl⟩
    · obtain rfl := Option.some.inj h
      exact .inr ⟨k, a, rfl, rfl, rfl⟩
  | loop =>
    obtain ⟨ho, -⟩ := Registry.Sys.outside_loop h
    exact .inl ⟨ho.workerId, ho.address⟩
  | connect =>
    obtain ⟨ho, -⟩ := Registry.Sys.outside_connect h
    exact .inl ⟨ho.workerId, ho.address⟩
  | stateChange | stopFlag | disconnect | expire =>
    obtain rfl := Option.some.inj h
    exact .inl ⟨rfl, rfl⟩
  | setState | wake | stopWake | lost | close =>
    simp only [Registry.Sys.step] at h
    split_ifs at h <;> (obtain rfl := Option.some.inj h; exact .inl ⟨rfl, rfl⟩)

/-- A new session has a number that no session has had. -/
theorem step_session (h : s.step e = some t) : s.next ≤ t.next ∧
    ∀ y, t.session = some y → s.session = some y ∨ s.next ≤ y := by
  rcases Registry.Sys.step_cases h with ⟨ho, -⟩ | ⟨-, wid, addr, st, c, -, rfl⟩ | ⟨fault, -, hadv⟩
  · exact ⟨ho.next, fun y hy => (ho.session y hy).imp_right And.left⟩
  · exact ⟨le_rfl, fun y hy => .inl hy⟩
  · have hsame := same_advance hadv
    exact ⟨hsame.next.ge, fun y hy => .inl (hsame.session ▸ hy)⟩

/-- A znode stays, goes, or is written by the registry under its own ID. -/
theorem step_node (hworker : e.ofWorker = true) (h : s.step e = some t) (wid : Option ℤ) :
    t.nodes wid = s.nodes wid ∨ (s.nodes wid ≠ none ∧ t.nodes wid = none) ∨
      ∃ n, wid = s.workerId ∧ t.nodes wid = some n ∧ n.data = s.data := by
  rcases Registry.Sys.step_nodes hworker h with hn | hn | ⟨fault, c, k, x, y, -, -, -, -, hn⟩
  · exact .inl (congrFun hn wid)
  · rw [hn, Registry.Sys.withoutOwn]
    cases hold : s.nodes wid with
    | none => exact .inl rfl
    | some n =>
      rw [Option.filter_some]
      split
      · exact .inl rfl
      · exact .inr (.inl ⟨by simp, rfl⟩)
  · rw [hn]
    cases hnew : s.effect y k wid with
    | some n =>
      rcases Registry.Sys.effect_eq_some hnew with hold | ⟨hwid, hdata, -⟩
      · exact .inl hold.symm
      · exact .inr (.inr ⟨n, hwid, rfl, hdata⟩)
    | none =>
      by_cases hold : s.nodes wid = none
      · exact .inl hold.symm
      · exact .inr (.inl ⟨hold, rfl⟩)

/-- A worker that discovery reads from the data of a registry is at its address. -/
theorem address_of_data {repr : String → String} {info : WorkerInfo}
    (h : parseWorker repr s.data = some info) : s.address = some info.address ∧
      routingState (.str s.state) = some info.state := by
  rw [Registry.Sys.data, parseWorker_metadata] at h
  cases ha : s.address with
  | none =>
    rw [ha] at h
    cases h
  | some a =>
    rw [ha] at h
    simp only [Option.elim_some, workerInfo] at h
    split at h
    · cases h
    · obtain ⟨st, hst, rfl⟩ := Option.map_eq_some_iff.mp h
      exact ⟨rfl, hst⟩

end Worker

/-! ## Where members come from -/

section Members

variable {repr : String → String} {cfg : Pool.Machine.Config} {boot : Pool.Machine.Sys}
  {E : ℤ → String → Prop} {R : String → WorkerInfo → Prop} {s t : Sys} {nodes : Znodes}

theorem gateway_nodes {c c' : Cluster.Sys} {e : Cluster.Event} (he : writes e = false)
    (h : c.step repr cfg e = some c') : c'.discovery.nodes = c.discovery.nodes := by
  cases Cluster.step_cases h with
  | @aside e d hd =>
    cases e with
    | create | setData | delete => cases he
    | run io =>
      cases Cluster.advance_turn hd with
      | quiet hc hc' hn => exact hn
      | read | publish | returned => rfl
    | callback w =>
      simp only [Discovery.Sys.step] at hd
      split at hd
      · obtain rfl := Option.some.inj hd
        rfl
      · cases hd
    | connected | stopFlag =>
      obtain rfl := Option.some.inj hd
      rfl
    | stopWake =>
      simp only [Discovery.Sys.step] at hd
      split at hd
      · obtain rfl := Option.some.inj hd
        rfl
      · cases hd
  | publish | returned | pool => rfl

theorem Seen.gateway {c c' : Cluster.Sys} (h : Seen repr R nodes c) {e : Cluster.Event}
    (he : writes e = false) (hs : c.step repr cfg e = some c') : Seen repr R nodes c' := by
  refine ⟨h.linked.step (fun d hd => ?_) hs, ?_⟩
  · subst hd
    cases d with
    | create | setData | delete => cases he
    | _ => trivial
  · rw [gateway_nodes he hs]
    exact h.mirrors

/-- A gateway that starts knows nothing but the znodes. -/
theorem Seen.restart (hboot : boot.Init) (h : Seen repr R s.nodes s.gateway) :
    Seen repr R s.nodes ⟨s.booting, boot⟩ := by
  refine ⟨Cluster.linked_init ?_ hboot h.linked.sourced.nodes, h.mirrors⟩
  exact ⟨rfl, rfl, rfl, rfl, rfl, rfl, rfl, rfl, h.linked.discovery.keys⟩

theorem Seen.publish (h : Seen repr R s.nodes s.gateway) (hnd : s.used.Nodup)
    (hsame : ∀ wid, wid ∉ s.used → nodes wid = s.nodes wid)
    (hw : ∀ wid, Wrote repr R wid (s.nodes wid) (nodes wid)) (hs : s.publish repr cfg nodes = some t) :
    t = { s with nodes := nodes, gateway := t.gateway } ∧ Seen repr R nodes t.gateway := by
  obtain ⟨g, hg, rfl⟩ := Option.map_eq_some_iff.mp hs
  exact ⟨rfl, h.changes hnd hsame hw hg⟩

/-- The worker is at an address that was given to `register` for its ID. -/
def Enrols (E : ℤ → String → Prop) (w : String) (info : WorkerInfo) : Prop :=
  ∃ k, w = path (some k) ∧ E k info.address

/-- The IDs and addresses given to `register` are those of `E`. -/
def Allows (E : ℤ → String → Prop) : Event → Prop
  | .worker _ (.register k a) => E k a
  | _ => True

structure Base (repr : String → String) (E : ℤ → String → Prop) (s : Sys) : Prop where
  seen : Seen repr (Enrols E) s.nodes s.gateway
  nodup : s.used.Nodup
  nodes : ∀ wid, s.nodes wid ≠ none → wid ∈ s.used
  ids : ∀ r ∈ s.registries, r.workerId ∈ s.used
  origin : ∀ r ∈ s.registries, ∀ a, r.address = some a → ∃ k, r.workerId = some k ∧ E k a
  unnamed : none ∈ s.used

theorem wrote_of_same (wid : Option ℤ) {old new : Option Znode}
    (h : new = old ∨ new = none) : Wrote repr R wid old new := by
  rintro n rfl hne
  rcases h with rfl | h
  · exact absurd rfl hne
  · cases h

/-- What a step of a registry does to the rest of the system. -/
theorem Base.worker (h : Base repr E s) {i : ℕ} {e : Registry.Event} {r u : Registry.Sys}
    (hworker : e.ofWorker = true) (hr : s.registries[i]? = some r) (hu : (s.view r).step e = some u)
    (hE : Allows E (.worker i e))
    (ht : ({ s with
      next := u.next
      registries := s.registries.set i u
      used := s.used.insert u.workerId } : Sys).publish repr cfg u.nodes = some t) :
    t = { s with
      nodes := u.nodes
      next := u.next
      registries := s.registries.set i u
      used := s.used.insert u.workerId
      gateway := t.gateway } ∧ Base repr E t := by
  have hmem := List.mem_of_getElem? hr
  have hold : (s.view r).workerId ∈ s.used := h.ids r hmem
  have hnode := step_node hworker hu
  have hsame : ∀ wid, wid ∉ s.used.insert u.workerId → u.nodes wid = s.nodes wid := by
    intro wid hwid
    rw [List.mem_insert_iff, not_or] at hwid
    rcases hnode wid with hk | ⟨hne, -⟩ | ⟨n, rfl, -⟩
    · exact hk
    · exact absurd (h.nodes wid hne) hwid.2
    · exact absurd hold hwid.2
  have hwrote : ∀ wid, Wrote repr (Enrols E) wid (s.nodes wid) (u.nodes wid) := by
    intro wid
    rcases hnode wid with hk | ⟨-, hk⟩ | ⟨n, rfl, hn, hdata⟩
    · exact wrote_of_same wid (.inl hk)
    · exact wrote_of_same wid (.inr hk)
    · rw [hn]
      rintro m hm - info hinfo
      obtain rfl := Option.some.inj hm
      rw [hdata] at hinfo
      obtain ⟨ha, -⟩ := address_of_data hinfo
      obtain ⟨k, hk, hek⟩ := h.origin r hmem info.address ha
      exact ⟨k, congrArg path hk, hek⟩
  obtain ⟨heq, hseen⟩ := Seen.publish (s := { s with
    next := u.next
    registries := s.registries.set i u
    used := s.used.insert u.workerId }) h.seen h.nodup.insert hsame hwrote ht
  refine ⟨heq, ?_⟩
  rw [heq]
  refine ⟨hseen, h.nodup.insert, fun wid hne => ?_, fun q hq => ?_, fun q hq a ha => ?_,
    List.mem_insert_of_mem h.unnamed⟩
  · rcases hnode wid with hk | ⟨-, hk⟩ | ⟨n, rfl, -⟩
    · refine List.mem_insert_of_mem (h.nodes wid ?_)
      rw [← show u.nodes wid = s.nodes wid from hk]
      exact hne
    · exact absurd hk hne
    · exact List.mem_insert_of_mem hold
  · rcases List.mem_or_eq_of_mem_set hq with hq | rfl
    · exact List.mem_insert_of_mem (h.ids q hq)
    · exact List.mem_insert_self
  · rcases List.mem_or_eq_of_mem_set hq with hq | rfl
    · exact h.origin q hq a ha
    · rcases step_identity hworker hu with ⟨hid, haddr⟩ | ⟨k, b, rfl, hid, haddr⟩
      · rw [haddr] at ha
        rw [hid]
        exact h.origin r hmem a ha
      · rw [haddr, Option.some.injEq] at ha
        subst ha
        exact ⟨k, hid, hE⟩

/-- **Step lemma.** -/
theorem Base.step (hboot : boot.Init) (h : Base repr E s) {e : Event} (hE : Allows E e)
    (hs : s.step repr cfg boot e = some t) : Base repr E t := by
  cases e with
  | start =>
    obtain rfl := Option.some.inj hs
    refine ⟨h.seen, h.nodup, h.nodes, fun r hr => ?_, fun r hr a ha => ?_, h.unnamed⟩
    · rcases List.mem_append.mp hr with hr | hr
      · exact h.ids r hr
      · rw [List.mem_singleton.mp hr]
        exact h.unnamed
    · rcases List.mem_append.mp hr with hr | hr
      · exact h.origin r hr a ha
      · rw [List.mem_singleton.mp hr] at ha
        cases ha
  | worker i e =>
    simp only [Sys.step] at hs
    split at hs
    · rename_i hworker
      obtain ⟨r, hr, hs⟩ := Option.bind_eq_some_iff.mp hs
      obtain ⟨u, hu, hs⟩ := Option.bind_eq_some_iff.mp hs
      exact (h.worker hworker hr hu hE hs).2
    · cases hs
  | reap x =>
    simp only [Sys.step] at hs
    split at hs
    · have hgone : ∀ wid, (s.nodes wid).filter (fun n => decide (n.owner ≠ x)) = s.nodes wid ∨
          (s.nodes wid).filter (fun n => decide (n.owner ≠ x)) = none := by
        intro wid
        cases s.nodes wid with
        | none => exact .inl rfl
        | some n =>
          rw [Option.filter_some]
          split
          · exact .inl rfl
          · exact .inr rfl
      have hsame : ∀ wid, wid ∉ s.used →
          (s.nodes wid).filter (fun n => decide (n.owner ≠ x)) = s.nodes wid := by
        intro wid hwid
        have hnone : s.nodes wid = none := by
          by_contra hne
          exact hwid (h.nodes wid hne)
        rw [hnone, Option.filter_none]
      obtain ⟨heq, hseen⟩ := h.seen.publish h.nodup hsame (fun wid => wrote_of_same wid (hgone wid)) hs
      rw [heq]
      refine ⟨hseen, h.nodup, fun wid hne => h.nodes wid fun hnone => hne ?_, h.ids, h.origin,
        h.unnamed⟩
      dsimp only
      rw [hnone, Option.filter_none]
    · cases hs
  | gateway e =>
    simp only [Sys.step] at hs
    split at hs
    · cases hs
    · rename_i he
      obtain ⟨g, hg, rfl⟩ := Option.map_eq_some_iff.mp hs
      exact ⟨h.seen.gateway (by simpa using he) hg, h.nodup, h.nodes, h.ids, h.origin, h.unnamed⟩
  | restart =>
    obtain rfl := Option.some.inj hs
    exact ⟨Seen.restart (s := s) hboot h.seen, h.nodup, h.nodes, h.ids, h.origin, h.unnamed⟩

theorem Init.base (h : Init s) : Base repr E s where
  seen := by
    refine ⟨Cluster.linked_init h.discovery h.pool ?_, fun wid => ?_, fun w hw => ?_⟩
    · intro wid data info hget
      rw [h.children] at hget
      cases hget
    · rw [h.children, h.nodes wid]
      rfl
    · rw [h.children] at hw
      exact absurd rfl hw
  nodup := by rw [h.used]; exact List.nodup_singleton none
  nodes := fun wid hne => absurd (h.nodes wid) hne
  ids := by simp [h.registries]
  origin := by simp [h.registries]
  unnamed := by rw [h.used]; exact List.mem_singleton_self none

/-- **Run lemma.** -/
theorem base_exec (hboot : boot.Init) {s₀ : Sys} {es : List Event} (h₀ : Init s₀)
    (hE : ∀ e ∈ es, Allows E e) (h : exec (Sys.step repr cfg boot) s₀ es = some s) : Base repr E s :=
  exec_inv_meets (fun _ _ _ hE hP hs => hP.step hboot hE hs)
    (meets_of_forall (fun e he _ => hE e he) s₀) h₀.base h

end Members

/-- **Members are enrolled.**  At every moment of every run, whichever sessions expire, calls fail,
nodes are overwritten or gateways restart, a member of the pool has the ID and the address that some
worker process passed to `register` together. -/
theorem members_enrolled (repr : String → String) (cfg : Pool.Machine.Config)
    {boot : Pool.Machine.Sys} (hboot : boot.Init) {s₀ s : Sys} {es : List Event} (h₀ : Init s₀)
    (h : exec (Sys.step repr cfg boot) s₀ es = some s) {w : String} {p : ℕ}
    (hp : Dict.get? w s.gateway.pool.workers = some p) :
    ∃ i k, w = path (some k) ∧
      .worker i (.register k (s.gateway.pool.proxies p).address) ∈ es := by
  have hbase : Base repr (fun k a => ∃ i, .worker i (.register k a) ∈ es) s := by
    refine base_exec hboot h₀ (fun e he => ?_) h
    cases e with
    | worker i e =>
      cases e with
      | register k a => exact ⟨i, he⟩
      | _ => trivial
    | _ => trivial
  obtain ⟨info, ⟨k, hk, i, hin⟩, ha⟩ := hbase.seen.linked.listed.members w p hp
  rw [ha]
  exact ⟨i, k, hk, hin⟩

/-! ## What registries can rely on -/

section Trust

variable {repr : String → String} {cfg : Pool.Machine.Config} {boot : Pool.Machine.Sys}
  {E : ℤ → String → Prop} {s t : Sys} {r q u : Registry.Sys} {e : Registry.Event}

/-- What a registry knows of its node, and what its bookkeeping promises. -/
def Trusts (r : Registry.Sys) : Prop := r.Inv ∧ r.Promised r.held

theorem Trusts.outside (h : Trusts q) (ho : q.Outside u) (hheld : u.held = q.held) : Trusts u := by
  obtain ⟨hinv, hpromised⟩ := h
  refine ⟨⟨ho.world hinv.toWorld, ?_⟩, ?_⟩ <;> rw [hheld]
  · exact ho.knows hinv.toWorld hinv.held
  · exact ho.promised hinv.toWorld hpromised

/-- Other znodes and sessions, with nothing that concerns `q`. -/
theorem outside_of_nodes {nodes : Znodes} {next : ℕ} (hnext : q.next ≤ next)
    (hkept : ∀ wid n, q.nodes wid = some n → q.session = some n.owner → nodes wid = some n)
    (hnodes : ∀ wid n, nodes wid = some n →
      q.nodes wid = some n ∨ n.owner < next ∧ some n.owner ≠ q.session) :
    q.Outside { q with nodes := nodes, next := next } where
  workerId := rfl
  address := rfl
  state := rfl
  registered := rfl
  stop := id
  next := hnext
  session _ hy := .inl hy
  current _ hy := .inl hy
  kept wid n hn hcur := hkept wid n hn (Registry.Sys.current_session hcur)
  nodes := hnodes

/-- A registry that respects the nodes of others does nothing to them. -/
theorem outside_worker (hworker : e.ofWorker = true) (hu : (s.view r).step e = some u)
    (hrespects : (s.view r).Respects e) (hr : (s.view r).World)
    (hq : ∀ x, q.session = some x → r.session ≠ some x) :
    (s.view q).Outside { q with nodes := u.nodes, next := u.next } := by
  have hnext := (step_session hu).1
  refine outside_of_nodes (q := s.view q) hnext (fun wid n hn hown => ?_) (fun wid n hn => ?_)
  · exact hrespects.2 hworker u hu wid n hn (hq n.owner hown).symm
  · -- whatever `r` wrote is of its own session
    have hown : ∀ y, (s.view r).executing = some y → n.owner = y →
        n.owner < u.next ∧ some n.owner ≠ q.session := by
      rintro y hy rfl
      have hsession := Registry.Sys.current_session (Registry.Sys.executing_eq_some.mp hy).2
      exact ⟨Nat.lt_of_lt_of_le (hr.session _ hsession) hnext, fun he => hq _ he.symm hsession⟩
    rcases Registry.Sys.step_nodes hworker hu with h | h | ⟨fault, c, k, x, y, rfl, hheld, hf, hy, h⟩
    · rw [h] at hn
      exact .inl hn
    · rw [h] at hn
      exact .inl (Registry.Sys.withoutOwn_eq_some.mp hn).1
    · rw [h] at hn
      rcases Registry.Sys.effect_eq_some hn with hold | ⟨rfl, -, ⟨-, -, howner⟩ | ⟨rfl, old, hold, howner⟩⟩
      · exact .inl hold
      · exact .inr (hown y hy howner)
      · have hset := hrespects.1 old ((Registry.Sys.sets_of hheld hf hy).trans hold)
        exact .inr (hown y hy (howner.trans (Option.some.inj (hset.trans hy))))

structure Inv (repr : String → String) (E : ℤ → String → Prop) (s : Sys) : Prop extends
    Base repr E s where
  owner : ∀ wid n, s.nodes wid = some n → n.owner < s.next
  sessions : ∀ (i j : ℕ) (r q : Registry.Sys) (x : ℕ), s.registries[i]? = some r →
    s.registries[j]? = some q → r.session = some x → q.session = some x → i = j
  trusts : ∀ r ∈ s.registries, Trusts (s.view r)

/-- No registry's session is replaced between `client_id` and a `set` that takes effect, and no
exception leaves `register` or `set_state` with the bookkeeping kept, unless it is harmless. -/
def Sound (s : Sys) : Event → Prop
  | .worker i e => ∀ r, s.registries[i]? = some r →
      (s.view r).SameSession e ∧ (s.view r).Guarded e
  | _ => True

theorem Inv.start (h : Inv repr E s) (hbase : Base repr E
    { s with next := s.next + 1, registries := s.registries ++ [s.opened] }) :
    Inv repr E { s with next := s.next + 1, registries := s.registries ++ [s.opened] } := by
  have hopened : s.opened.Init :=
    ⟨rfl, rfl, rfl, rfl, rfl, rfl, rfl, ⟨s.next, rfl, Nat.lt_succ_self _⟩, fun wid n hn =>
      ⟨Nat.lt_succ_of_lt (h.owner wid n hn), fun he =>
        Nat.ne_of_lt (h.owner wid n hn) (Option.some.inj he)⟩⟩
  have hfresh : ∀ (i : ℕ) (r : Registry.Sys), s.registries[i]? = some r → r.session ≠ some s.next :=
    fun i r hr he => Nat.lt_irrefl _ ((h.trusts r (List.mem_of_getElem? hr)).1.session _ he)
  have hget : ∀ (i : ℕ) (r : Registry.Sys), (s.registries ++ [s.opened])[i]? = some r →
      s.registries[i]? = some r ∨ i = s.registries.length ∧ r = s.opened := by
    intro i r hr
    rcases Nat.lt_or_ge i s.registries.length with hi | hi
    · rw [List.getElem?_append_left hi] at hr
      exact .inl hr
    · rw [List.getElem?_append_right hi, List.getElem?_singleton] at hr
      split at hr
      · exact .inr ⟨by omega, (Option.some.inj hr).symm⟩
      · cases hr
  refine ⟨hbase, fun wid n hn => Nat.lt_succ_of_lt (h.owner wid n hn), ?_, fun r hr => ?_⟩
  · intro i j r q x hr hq hrx hqx
    rcases hget i r hr with hr' | ⟨rfl, rfl⟩ <;> rcases hget j q hq with hq' | ⟨rfl, rfl⟩
    · exact h.sessions i j r q x hr' hq' hrx hqx
    · obtain rfl := Option.some.inj hqx
      exact absurd hrx (hfresh i r hr')
    · obtain rfl := Option.some.inj hrx
      exact absurd hqx (hfresh j q hq')
    · rfl
  · rcases List.mem_append.mp hr with hr | hr
    · refine (h.trusts r hr).outside ?_ rfl
      exact outside_of_nodes (q := s.view r) (Nat.le_succ _) (fun wid n hn _ => hn)
        (fun wid n hn => .inl hn)
    · rw [List.mem_singleton.mp hr]
      exact ⟨hopened.inv, Registry.Sys.Told.of_unregistered rfl⟩

theorem Inv.worker (h : Inv repr E s) {i : ℕ} (hworker : e.ofWorker = true)
    (hr : s.registries[i]? = some r) (hu : (s.view r).step e = some u)
    (hE : Allows E (.worker i e)) (hsound : Sound s (.worker i e))
    (ht : ({ s with
      next := u.next
      registries := s.registries.set i u
      used := s.used.insert u.workerId } : Sys).publish repr cfg u.nodes = some t) :
    Inv repr E t := by
  obtain ⟨heq, hbase⟩ := h.toBase.worker hworker hr hu hE ht
  obtain ⟨hinv, hpromised⟩ := h.trusts r (List.mem_of_getElem? hr)
  obtain ⟨hsame, hguarded⟩ := hsound r hr
  have hrespects := (hinv.sameSession_iff hu).mp hsame
  have hu' : u.Inv := hinv.step hu
  have hsessions := (step_session hu).2
  -- the sessions of the others are not `r`'s, and not new
  have hother : ∀ (j : ℕ) (q : Registry.Sys), j ≠ i → s.registries[j]? = some q → ∀ x,
      q.session = some x → r.session ≠ some x ∧ u.session ≠ some x := by
    intro j q hj hq x hqx
    have hrx : r.session ≠ some x := fun hrx => hj (h.sessions j i q r x hq hr hqx hrx)
    refine ⟨hrx, fun hux => ?_⟩
    rcases hsessions x hux with hrx' | hnew
    · exact hrx hrx'
    · have hlt : x < s.next := (h.trusts q (List.mem_of_getElem? hq)).1.session x hqx
      exact absurd hlt (Nat.not_lt.mpr hnew)
  have hget : ∀ (j : ℕ) (q : Registry.Sys), (s.registries.set i u)[j]? = some q →
      (j = i ∧ q = u) ∨ (j ≠ i ∧ s.registries[j]? = some q) := by
    intro j q hq
    rw [List.getElem?_set] at hq
    by_cases hij : i = j
    · subst hij
      rw [if_pos rfl] at hq
      split at hq
      · exact .inl ⟨rfl, (Option.some.inj hq).symm⟩
      · cases hq
    · rw [if_neg hij] at hq
      exact .inr ⟨Ne.symm hij, hq⟩
  rw [heq] at hbase ⊢
  refine ⟨hbase, hu'.owner, fun j k q p x hq hp hqx hpx => ?_, fun q hq => ?_⟩
  · rcases hget j q hq with ⟨rfl, rfl⟩ | ⟨hj, hq'⟩ <;> rcases hget k p hp with ⟨rfl, rfl⟩ | ⟨hk, hp'⟩
    · rfl
    · exact absurd hqx (hother k p hk hp' x hpx).2
    · exact absurd hpx (hother j q hj hq' x hqx).2
    · exact h.sessions j k q p x hq' hp' hqx hpx
  · obtain ⟨j, hj⟩ := List.mem_iff_getElem?.mp hq
    rcases hget j q hj with ⟨rfl, rfl⟩ | ⟨hj', hq'⟩
    · exact ⟨hu', hpromised.step hinv hguarded hu⟩
    · refine (h.trusts q (List.mem_of_getElem? hq')).outside ?_ rfl
      exact outside_worker hworker hu hrespects hinv.toWorld fun x hx => (hother j q hj' hq' x hx).1

/-- **Step lemma.** -/
theorem Inv.step (hboot : boot.Init) (h : Inv repr E s) {e : Event} (hE : Allows E e)
    (hsound : Sound s e) (hs : s.step repr cfg boot e = some t) : Inv repr E t := by
  have hbase := h.toBase.step hboot hE hs
  cases e with
  | start =>
    obtain rfl := Option.some.inj hs
    exact h.start hbase
  | worker i e =>
    simp only [Sys.step] at hs
    split at hs
    · rename_i hworker
      obtain ⟨r, hr, hs⟩ := Option.bind_eq_some_iff.mp hs
      obtain ⟨u, hu, hs⟩ := Option.bind_eq_some_iff.mp hs
      exact h.worker hworker hr hu hE hsound hs
    · cases hs
  | reap x =>
    simp only [Sys.step] at hs
    split at hs
    · rename_i hfree
      obtain ⟨g, -, rfl⟩ := Option.map_eq_some_iff.mp hs
      have hkept : ∀ wid n, (s.nodes wid).filter (fun n => decide (n.owner ≠ x)) = some n ↔
          s.nodes wid = some n ∧ n.owner ≠ x := by
        intro wid n
        rw [Option.filter_eq_some_iff, decide_eq_true_eq]
      refine ⟨hbase, fun wid n hn => h.owner wid n ((hkept wid n).mp hn).1, h.sessions, fun r hr => ?_⟩
      refine (h.trusts r hr).outside (outside_of_nodes (q := s.view r) le_rfl
        (fun wid n hn hown => ?_) fun wid n hn => .inl ((hkept wid n).mp hn).1) rfl
      refine (hkept wid n).mpr ⟨hn, ?_⟩
      rintro rfl
      exact hfree r hr hown
    · cases hs
  | gateway e =>
    simp only [Sys.step] at hs
    split at hs
    · cases hs
    · obtain ⟨g, -, rfl⟩ := Option.map_eq_some_iff.mp hs
      exact ⟨hbase, h.owner, h.sessions, h.trusts⟩
  | restart =>
    obtain rfl := Option.some.inj hs
    exact ⟨hbase, h.owner, h.sessions, h.trusts⟩

theorem Init.inv (h : Init s) : Inv repr E s where
  toBase := h.base
  owner wid n hn := by
    rw [h.nodes wid] at hn
    cases hn
  sessions := by simp [h.registries]
  trusts := by simp [h.registries]

end Trust

/-- The worker takes itself to be registered: its lock is free or its loop has just checked, and
`_registered_session` is the session it has. -/
structure Enrolled (r : Registry.Sys) : Prop where
  rest : r.AtRest
  stop : r.stop = false
  registered : ∃ x, r.registered = some x ∧ r.current = some x

/-- **The routing table mirrors the workers.**  In every run in which no session is replaced in the
middle of a `set` and no exception leaves the bookkeeping of a registry wrong: whenever discovery
waits with nothing pending, each worker that takes itself to be registered has one running proxy,
in the state of its process and at its address if its ID has one, and every running proxy is for a
node that is there. -/
theorem routing_mirrors_workers (repr : String → String) (cfg : Pool.Machine.Config)
    {boot : Pool.Machine.Sys} (hboot : boot.Init) {s₀ s : Sys} {es : List Event} (h₀ : Init s₀)
    (hC : Meets (Sys.step repr cfg boot) Sound s₀ es)
    (h : exec (Sys.step repr cfg boot) s₀ es = some s)
    (hwait : s.gateway.discovery.pc = .wait) (hquiet : s.gateway.discovery.Quiet)
    (hstop : s.gateway.pool.stopping = false) :
    (∀ r ∈ s.registries, Enrolled r → ∃ k a st p, r.workerId = some k ∧ r.address = some a ∧
      routingState (.str r.state) = some st ∧
      Dict.get? (path (some k)) s.gateway.pool.workers = some p ∧
      (s.gateway.pool.proxies p).stop = false ∧ (s.gateway.pool.proxies p).routing = st ∧
      ∀ addr : ℤ → String, (∀ i k a, .worker i (.register k a) ∈ es → a = addr k) →
        (s.gateway.pool.proxies p).address = a) ∧
    ∀ q, (s.gateway.pool.proxies q).stop = false → ∃ k n info, s.nodes (some k) = some n ∧
      (s.gateway.pool.proxies q).workerId = path (some k) ∧ parseWorker repr n.data = some info ∧
      (s.gateway.pool.proxies q).routing = info.state ∧
      Dict.get? (path (some k)) s.gateway.pool.workers = some q := by
  have hall : ∀ E : ℤ → String → Prop, (∀ i k a, .worker i (.register k a) ∈ es → E k a) →
      Inv repr E s := by
    intro E hE
    refine exec_inv_meets (fun _ _ _ hC hP hs => hP.step hboot hC.2 hC.1 hs)
      (meets_and hC (meets_of_forall (fun e he _ => ?_) s₀)) h₀.inv h
    cases e with
    | worker i e =>
      cases e with
      | register k a => exact hE i k a he
      | _ => trivial
    | _ => trivial
  have hinv := hall (fun _ _ => True) fun _ _ _ _ => trivial
  have hfollows := hinv.seen.linked.follows hwait hquiet hstop
  have hmirrors := hinv.seen.mirrors
  refine ⟨fun r hr henrolled => ?_, fun q hq => ?_⟩
  · -- the node of the worker says what its registry says
    obtain ⟨-, hpromised⟩ := hinv.trusts r hr
    obtain ⟨x, hreg, hcur⟩ := henrolled.registered
    have htold : (s.view r).Told := by
      rcases henrolled.rest with hheld | ⟨changed, hheld⟩ <;>
        rwa [show (s.view r).held = r.held from rfl, hheld] at hpromised
    obtain ⟨n, hn, -, hdata⟩ := htold henrolled.stop x hreg hcur
    have hget := hmirrors.data r.workerId
    rw [show s.nodes r.workerId = some n from hn, Option.map_some, hdata] at hget
    obtain ⟨info, p, hparse, hp, -, hlive, hrouting⟩ := hfollows.present _ _ hget
    obtain ⟨ha, hst⟩ := address_of_data hparse
    obtain ⟨k, hk, -⟩ := hinv.origin r hr info.address ha
    rw [hk] at hp
    refine ⟨k, info.address, info.state, p, hk, ha, hst, hp, hlive, hrouting, fun addr haddr => ?_⟩
    have hinv := hall (fun k a => a = addr k) haddr
    obtain ⟨info', ⟨k', hk', hinfo'⟩, heq⟩ := hinv.seen.linked.listed.members _ p hp
    obtain rfl := Option.some.inj (path_injective hk')
    obtain ⟨k'', hk'', hinfo⟩ := hinv.origin r hr info.address ha
    obtain rfl := Option.some.inj (hk.symm.trans hk'')
    rw [heq, hinfo', hinfo]
  · have hp := hfollows.running q hq
    obtain ⟨info', ⟨k, hk, -⟩, -⟩ := hinv.seen.linked.listed.members _ q hp
    rw [hk] at hp
    have hget := hmirrors.data (some k)
    cases hn : s.nodes (some k) with
    | none =>
      rw [hn, Option.map_none] at hget
      rw [hfollows.absent _ hget] at hp
      cases hp
    | some n =>
      rw [hn, Option.map_some] at hget
      obtain ⟨info, p, hparse, hp', -, -, hrouting⟩ := hfollows.present _ _ hget
      obtain rfl := Option.some.inj (hp.symm.trans hp')
      exact ⟨k, n, info, hn, hk, hparse, hrouting, hp⟩

/-! Worker 7 registers, the gateway routes to it, and it announces that it is draining. -/

def quietStart : Sys where
  nodes := fun _ => none
  next := 1
  registries := []
  used := [none]
  gateway := ⟨{ Discovery.Sys.sampleStart with nodes := [], wakeup := false }, Pool.Machine.sampleStart⟩

theorem quietStart_init : Init quietStart where
  nodes := fun _ => rfl
  registries := rfl
  used := rfl
  discovery := ⟨rfl, rfl, rfl, rfl, rfl, rfl, rfl, rfl, List.nodup_nil⟩
  children := rfl
  pool := Pool.Machine.sampleStart_init

def own (n : ℕ) : List Event := List.replicate n (.worker 0 (.advance .none))

def turns (n : ℕ) : List Event := List.replicate n (.gateway Cluster.turn)

def acts (n : ℕ) : List Event := List.replicate n (.gateway Cluster.act)

def refresh : Event := .gateway (Cluster.listing [path (some 7)])

def drainRun : List Event :=
  .start :: .worker 0 (.register 7 "worker-7:50051") :: own 4 ++ [.worker 0 .wake] ++
  refresh :: turns 8 ++ acts 6 ++ turns 1 ++
  .worker 0 (.setState "DRAINING") :: own 6 ++
  .gateway (.discovery (.callback .children)) ::
  .gateway (.discovery (.callback (.data (path (some 7))))) :: turns 4 ++ refresh :: turns 7 ++
  acts 6 ++ turns 2

/-- The conditions of the registries, computed. -/
def sound (s : Sys) : Event → Bool
  | .worker _ e => s.registries.all fun r => (s.view r).sameSession e && !(s.view r).escapes e
  | _ => true

theorem drainRun_sound : Meets (Sys.step id Pool.Machine.sampleConfig Pool.Machine.sampleStart)
    Sound quietStart drainRun := by
  refine meets_of_checks (b := sound) (fun s e hb => ?_) (by decide +kernel)
  cases e with
  | worker =>
    intro r hr
    have hr := List.all_eq_true.mp hb r (List.mem_of_getElem? hr)
    rw [Bool.and_eq_true, Bool.not_eq_true'] at hr
    obtain ⟨hsame, hescapes⟩ := hr
    refine ⟨fun c x hheld _ => ?_, fun hesc => ?_⟩
    · rw [Registry.Sys.sameSession, hheld] at hsame
      exact eq_of_beq hsame
    · rw [hescapes] at hesc
      cases hesc
  | _ => trivial

theorem drainRun_ends :
    (exec (Sys.step id Pool.Machine.sampleConfig Pool.Machine.sampleStart) quietStart drainRun).map
      (fun s => (s.gateway.pool.workers, s.gateway.discovery.pc, [s.gateway.discovery.stop,
        s.gateway.discovery.wakeup, !s.gateway.discovery.pending.isEmpty, s.gateway.pool.stopping])) =
    some ([("worker-7", 0)], .wait, [false, false, false, false]) := by
  decide +kernel

theorem drainRun_registries :
    (exec (Sys.step id Pool.Machine.sampleConfig Pool.Machine.sampleStart) quietStart drainRun).map
      (fun s => s.registries.map fun r => (r.held, r.state, r.stop)) =
    some [(none, "DRAINING", false)] := by
  decide +kernel

theorem drainRun_sessions :
    (exec (Sys.step id Pool.Machine.sampleConfig Pool.Machine.sampleStart) quietStart drainRun).map
      (fun s => s.registries.map fun r => (r.workerId, [r.registered, r.current])) =
    some [(some 7, [some 1, some 1])] := by
  decide +kernel

theorem members_enrolled_drainRun : ∃ s i k,
    exec (Sys.step id Pool.Machine.sampleConfig Pool.Machine.sampleStart) quietStart drainRun = some s ∧
    "worker-7" = path (some k) ∧
    .worker i (.register k (s.gateway.pool.proxies 0).address) ∈ drainRun := by
  obtain ⟨s, hs, hv⟩ := Option.map_eq_some_iff.mp drainRun_ends
  simp only [Prod.mk.injEq] at hv
  have hp : Dict.get? "worker-7" s.gateway.pool.workers = some 0 := by
    rw [hv.1]
    rfl
  obtain ⟨i, k, hk, hin⟩ := members_enrolled id Pool.Machine.sampleConfig
    Pool.Machine.sampleStart_init quietStart_init hs hp
  exact ⟨s, i, k, hs, hk, hin⟩

theorem routing_mirrors_workers_drainRun : ∃ s,
    exec (Sys.step id Pool.Machine.sampleConfig Pool.Machine.sampleStart) quietStart drainRun = some s ∧
    ∃ p, Dict.get? (path (some 7)) s.gateway.pool.workers = some p ∧
      (s.gateway.pool.proxies p).stop = false ∧ (s.gateway.pool.proxies p).routing = .draining := by
  obtain ⟨s, hs, hv⟩ := Option.map_eq_some_iff.mp drainRun_ends
  have hregistries := drainRun_registries
  have hsessions := drainRun_sessions
  rw [hs, Option.map_some, Option.some.injEq] at hregistries hsessions
  simp only [Prod.mk.injEq, List.cons.injEq, and_true, Bool.not_eq_false', List.isEmpty_iff] at hv
  obtain ⟨-, hpc, hstop, hwake, hpending, hstopping⟩ := hv
  obtain ⟨r, hr, hview⟩ := List.map_eq_singleton_iff.mp hregistries
  simp only [hr, List.map_cons, List.map_nil, Prod.mk.injEq, List.cons.injEq, and_true] at hview hsessions
  obtain ⟨hheld, hstate, hrstop⟩ := hview
  obtain ⟨hid, hreg, hcur⟩ := hsessions
  obtain ⟨hworkers, -⟩ := routing_mirrors_workers id Pool.Machine.sampleConfig
    Pool.Machine.sampleStart_init quietStart_init drainRun_sound hs hpc ⟨hstop, hwake, hpending⟩ hstopping
  obtain ⟨k, a, st, p, hk, -, hst, hp, hlive, hrouting, -⟩ := hworkers r
    (by rw [hr]; exact List.mem_singleton_self r) ⟨.inl hheld, hrstop, 1, hreg, hcur⟩
  obtain rfl := Option.some.inj (hid.symm.trans hk)
  rw [hstate] at hst
  obtain rfl := Option.some.inj hst
  exact ⟨s, hs, p, hp, hlive, hrouting⟩

end Inference.Ensemble
