import Inference.Pool.Retry
import Inference.Pool.Membership

/-!
# Inference.Pool.Routing — where `submit` sends the tasks of a batch

One call of `GrpcWorkerPool.submit` among everything else that goes on in the pool.  `decides` is
what the calling thread does with its tasks: a proxy's `try_submit` takes a whole group, or one task
after the other is marked failed with `overloaded`.

* `groupsOf`: the groups of the batch, by kind.
* `Routed`: each group in turn went to one proxy that was ready, had room and supports it, or all
  its tasks were marked.
* `Good`: a proxy that is a member, ready, below two outstanding batches and supports the group.
* **`submit_routes`**: a call routes the groups of its batch, and marks tasks of a group only when
  no proxy was good from the beginning of its routing to the end.
-/

namespace Inference.Pool.Routing

open Inference.Lib Inference.Pool.Machine

/-- What a thread inside `submit` does with its tasks: proxy `q`, as it was then, takes a group, or
`mark_failed(…, "overloaded")` is called on a task that was terminal before or not. -/
inductive Decision where
  | accepted (q : ℕ) (proxy : Proxy) (batch : List ℕ)
  | overloaded (i : ℕ) (terminal : Bool)
deriving DecidableEq, Repr

/-- What a statement decides. -/
def decision (s : Sys) : Effect → List Decision
  | .push q batch => [.accepted q (s.proxies q) batch]
  | .call (some (i, .markFailed _ code)) =>
    if code = some "overloaded" then [.overloaded i (s.tasks i).terminal] else []
  | _ => []

/-- What thread `n` decides in one step. -/
def decides (cfg : Config) (n : ℕ) (s : Sys) : Machine.Event → List Decision
  | .act who o =>
    if who = .thread n then (s.stmt cfg o (s.points who)).elim [] fun x => decision s x.1 else []
  | _ => []

/-- Thread `n` calls the pool. -/
def calls (n : ℕ) : Machine.Event → Bool
  | .submit m _ | .update m _ | .stop m => m == n
  | _ => false

/-- The tasks of the batch with kind `k`, in submission order. -/
def ofKind (tasks : ℕ → Task) (batch : List ℕ) (k : String) : List ℕ :=
  batch.filter fun i => kind (tasks i) = .str k

/-- `mark_failed` was called on the task. -/
def Marks (i : ℕ) (d : Decision) : Prop := ∃ terminal, d = .overloaded i terminal

/-- The group was taken by one proxy that was ready, had room and supports its tasks, or each of its
tasks was marked. -/
def Handled (cfg : Config) (tasks : ℕ → Task) (g : List ℕ) (l : List Decision) : Prop :=
  (∃ q w, w.accepts = true ∧ (∀ i ∈ g, supports cfg w.workerId (tasks i) = true) ∧
    l = [.accepted q w g]) ∨
  List.Forall₂ Marks g l

/-- The groups were handled one after the other. -/
def Routed (cfg : Config) (tasks : ℕ → Task) (gs : List (List ℕ)) (log : List Decision) : Prop :=
  ∃ parts, List.Forall₂ (Handled cfg tasks) gs parts ∧ log = parts.flatten

/-- A member that is `READY`, has fewer than two outstanding batches and supports the group. -/
structure Good (cfg : Config) (q : ℕ) (g : List ℕ) (s : Sys) : Prop where
  member : q ∈ s.values
  ready : (s.proxies q).routing = .ready
  room : (s.proxies q).processing.toNat + (s.proxies q).queue.length < 2
  supports : s.supportsBatch cfg q g = true

/-- Members have not been stopped, so a good one takes what it is offered. -/
theorem Good.accepts {cfg : Config} {q : ℕ} {g : List ℕ} {s : Sys} (h : Good cfg q g s)
    (hm : s.Members) : (s.proxies q).accepts = true := by
  obtain ⟨⟨wid, p⟩, hmem, rfl⟩ := List.mem_map.mp h.member
  have hlive := hm.live wid p (Dict.get?_of_mem hm.keys hmem)
  simp [Proxy.accepts, hlive, h.ready, h.room]

/-! ## Groups -/

/-- The dictionary `groups` after the tasks `done`. -/
def groupsOf (tasks : ℕ → Task) (done : List ℕ) : List (String × List ℕ) :=
  done.foldl (fun ds i => match kind (tasks i) with
    | .str k => Dict.set k ((Dict.get? k ds).getD [] ++ [i]) ds
    | _ => ds) []

section Groups

variable {tasks : ℕ → Task} {done : List ℕ}

theorem groupsOf_concat (tasks : ℕ → Task) (done : List ℕ) (i : ℕ) :
    groupsOf tasks (done ++ [i]) = match kind (tasks i) with
      | .str k => Dict.set k ((Dict.get? k (groupsOf tasks done)).getD [] ++ [i]) (groupsOf tasks done)
      | _ => groupsOf tasks done := by
  simp only [groupsOf, List.foldl_append, List.foldl_cons, List.foldl_nil]

theorem ofKind_concat (tasks : ℕ → Task) (done : List ℕ) (i : ℕ) (k : String) :
    ofKind tasks (done ++ [i]) k =
      ofKind tasks done k ++ if kind (tasks i) = .str k then [i] else [] := by
  simp only [ofKind, List.filter_append, List.filter_cons, List.filter_nil]
  split <;> simp_all

theorem groupsOf_keys (tasks : ℕ → Task) (done : List ℕ) : Dict.Keys (groupsOf tasks done) := by
  induction done using List.reverseRecOn with
  | nil => exact List.nodup_nil
  | append_singleton done i ih =>
    rw [groupsOf_concat]
    split
    · exact ih.set _ _
    · exact ih

/-- The entry of a kind holds the tasks of that kind. -/
theorem get?_groupsOf (tasks : ℕ → Task) (done : List ℕ) (k : String) :
    Dict.get? k (groupsOf tasks done) =
      if ofKind tasks done k = [] then none else some (ofKind tasks done k) := by
  induction done using List.reverseRecOn with
  | nil => rfl
  | append_singleton done i ih =>
    rw [groupsOf_concat, ofKind_concat]
    cases hk : kind (tasks i) with
    | str k' =>
      by_cases hkk : k = k'
      · subst hkk
        simp only [Dict.get?_set_self, ih, if_true]
        split
        · rename_i hnil
          simp [hnil]
        · simp
      · have hne : ¬ (Json.str k' = .str k) := by simpa using Ne.symm hkk
        simp only [Dict.get?_set_of_ne hkk, ih, if_neg hne, List.append_nil]
    | _ => simp only [ih, reduceCtorEq, if_false, List.append_nil]

theorem mem_groupsOf {k : String} {g : List ℕ} (h : (k, g) ∈ groupsOf tasks done) :
    g = ofKind tasks done k ∧ g ≠ [] := by
  have hget := Dict.get?_of_mem (groupsOf_keys tasks done) h
  rw [get?_groupsOf] at hget
  split at hget
  · simp at hget
  · rename_i hne
    obtain rfl := Option.some.inj hget
    exact ⟨rfl, hne⟩

/-- The groups are those of the kinds that occur. -/
theorem groupsOf_values (tasks : ℕ → Task) (batch : List ℕ) :
    (groupsOf tasks batch).map Prod.snd =
      ((groupsOf tasks batch).map Prod.fst).map (ofKind tasks batch) := by
  rw [List.map_map]
  exact List.map_congr_left fun x hx => (mem_groupsOf hx).1

theorem mem_kinds {k : String} :
    k ∈ (groupsOf tasks done).map Prod.fst ↔ ∃ i ∈ done, kind (tasks i) = .str k := by
  constructor
  · intro h
    obtain ⟨⟨k', g⟩, hx, rfl⟩ := List.mem_map.mp h
    obtain ⟨rfl, hne⟩ := mem_groupsOf hx
    obtain ⟨i, hi⟩ := List.exists_mem_of_ne_nil _ hne
    have := List.mem_filter.mp hi
    exact ⟨i, this.1, by simpa using this.2⟩
  · rintro ⟨i, hi, hk⟩
    have hmem : i ∈ ofKind tasks done k := List.mem_filter.mpr ⟨hi, by simpa using hk⟩
    have hget := get?_groupsOf tasks done k
    rw [if_neg (List.ne_nil_of_mem hmem)] at hget
    exact List.mem_map.mpr ⟨_, Dict.mem_of_get? hget, rfl⟩

end Groups

/-! ## The log -/

section Log

variable {cfg : Config} {tasks : ℕ → Task} {gs gs' : List (List ℕ)} {log log' : List Decision}

theorem Routed.nil : Routed cfg tasks [] [] := ⟨[], .nil, rfl⟩

theorem Routed.append (h : Routed cfg tasks gs log) (h' : Routed cfg tasks gs' log') :
    Routed cfg tasks (gs ++ gs') (log ++ log') := by
  obtain ⟨parts, hp, rfl⟩ := h
  obtain ⟨parts', hp', rfl⟩ := h'
  exact ⟨parts ++ parts', List.rel_append hp hp', by simp⟩

theorem Routed.concat (h : Routed cfg tasks gs log) {g : List ℕ} {l : List Decision}
    (hg : Handled cfg tasks g l) : Routed cfg tasks (gs ++ [g]) (log ++ l) :=
  h.append ⟨[l], .cons hg .nil, by simp⟩

/-- All tasks of a group can be marked. -/
theorem marks_map (g : List ℕ) : List.Forall₂ Marks g (g.map fun i => .overloaded i true) := by
  rw [List.forall₂_map_right_iff, List.forall₂_same]
  exact fun i _ => ⟨true, rfl⟩

/-- Whatever was routed so far, the rest can be. -/
theorem exists_routed (cfg : Config) (tasks : ℕ → Task) (gs : List (List ℕ)) :
    ∃ log, Routed cfg tasks gs log := by
  induction gs with
  | nil => exact ⟨[], .nil⟩
  | cons g gs ih =>
    obtain ⟨log, parts, hp, rfl⟩ := ih
    exact ⟨_, _ :: parts, .cons (.inr (marks_map g)) hp, rfl⟩

end Log

/-! ## Where the call stands -/

/-- The groups `gs` are still to be routed. -/
def Pending (cfg : Config) (tasks : ℕ → Task) (batch : List ℕ) (gs : List (List ℕ))
    (log : List Decision) : Prop :=
  ∃ done, Routed cfg tasks done log ∧ done ++ gs = (groupsOf tasks batch).map Prod.snd

/-- The proxy exists and supports every task of the group. -/
def Fits (cfg : Config) (tasks : ℕ → Task) (s : Sys) (g : List ℕ) (w : ℕ) : Prop :=
  w < s.size ∧ ∀ i ∈ g, supports cfg (s.proxies w).workerId (tasks i) = true

/-- What the calling thread has decided when it is at a point. -/
def Stage (cfg : Config) (tasks : ℕ → Task) (batch : List ℕ) (s : Sys) (log : List Decision) :
    Point → Prop
  | .grouping rest ds => log = [] ∧ ∃ done, done ++ rest = batch ∧ ds = groupsOf tasks done
  | .groups gs | .leave gs => Pending cfg tasks batch gs log
  | .compatible g gs | .again g _ gs => Pending cfg tasks batch (g :: gs) log
  | .ready g scan acc gs => Pending cfg tasks batch (g :: gs) log ∧ (∀ w ∈ scan, w < s.size) ∧
      ∀ w ∈ acc, Fits cfg tasks s g w
  | .idle g ready scan acc gs => Pending cfg tasks batch (g :: gs) log ∧ ready ≠ [] ∧
      ∀ w ∈ ready ++ scan ++ acc, Fits cfg tasks s g w
  | .offer g w gs => Pending cfg tasks batch (g :: gs) log ∧ Fits cfg tasks s g w
  | .scan g _ rest gs => Pending cfg tasks batch (g :: gs) log ∧ ∀ w ∈ rest, w < s.size
  | .scanOffer g _ q rest gs => Pending cfg tasks batch (g :: gs) log ∧ Fits cfg tasks s g q ∧
      ∀ w ∈ rest, w < s.size
  | .noReady rest gs | .full rest gs => ∃ marked log₀ l,
      Pending cfg tasks batch ((marked ++ rest) :: gs) log₀ ∧ List.Forall₂ Marks marked l ∧
        log = log₀ ++ l
  | .halted => Pending cfg tasks batch [] log
  | _ => False

section Stages

variable {cfg : Config} {tasks : ℕ → Task} {batch g : List ℕ} {gs : List (List ℕ)} {s t : Sys}
  {log : List Decision} {o : Outcome} {pt pt' : Point} {eff : Effect} {w : ℕ}

theorem Fits.keeps (h : Fits cfg tasks s g w) (hk : Keeps s t) : Fits cfg tasks t g w :=
  ⟨lt_of_lt_of_le h.1 hk.size, fun i hi => by rw [hk.ids w h.1]; exact h.2 i hi⟩

/-- Others change nothing the call relies on. -/
theorem Stage.keeps (h : Stage cfg tasks batch s log pt) (hk : Keeps s t) :
    Stage cfg tasks batch t log pt := by
  cases pt with
  | ready g scan acc gs =>
    exact ⟨h.1, fun w hw => lt_of_lt_of_le (h.2.1 w hw) hk.size, fun w hw => (h.2.2 w hw).keeps hk⟩
  | idle g ready scan acc gs => exact ⟨h.1, h.2.1, fun w hw => (h.2.2 w hw).keeps hk⟩
  | offer g w gs => exact ⟨h.1, h.2.keeps hk⟩
  | scan g w rest gs => exact ⟨h.1, fun q hq => lt_of_lt_of_le (h.2 q hq) hk.size⟩
  | scanOffer g w q rest gs =>
    exact ⟨h.1, h.2.1.keeps hk, fun q hq => lt_of_lt_of_le (h.2.2 q hq) hk.size⟩
  | top _ | inner _ | ending _ | process _ _ _ | resubmit _ _ => exact h.elim
  | _ => exact h

/-- `_supports` looks at the kind only. -/
theorem supports_of_kind {t u : Task} (h : kind t = kind u) (cfg : Config) (wid : String) :
    supports cfg wid t = supports cfg wid u := by
  simp only [supports, h]

theorem Pending.mem (h : Pending cfg tasks batch (g :: gs) log) :
    g ∈ (groupsOf tasks batch).map Prod.snd := by
  obtain ⟨done, -, hdone⟩ := h
  rw [← hdone]
  simp

/-- What the code asks for the first task holds of the whole group. -/
theorem fits_of_supportsBatch (hg : g ∈ (groupsOf tasks batch).map Prod.snd)
    (hev : ∀ i, Task.Evolves (tasks i) (s.tasks i)) (hw : w < s.size)
    (h : s.supportsBatch cfg w g = true) : Fits cfg tasks s g w := by
  obtain ⟨⟨k, g'⟩, hm, rfl⟩ := List.mem_map.mp hg
  obtain ⟨rfl, -⟩ := mem_groupsOf hm
  have hkind : ∀ i ∈ ofKind tasks batch k, kind (tasks i) = .str k := by
    intro i hi
    simpa using (List.mem_filter.mp hi).2
  refine ⟨hw, fun i hi => ?_⟩
  unfold Sys.supportsBatch at h
  cases hhead : (ofKind tasks batch k).head? with
  | none => simp [hhead] at h
  | some j =>
    have hj := List.mem_of_mem_head? hhead
    simp only [hhead, Option.any_some] at h
    rw [supports_evolves (hev j)] at h
    rw [supports_of_kind ((hkind i hi).trans (hkind j hj).symm)]
    exact h

/-- A whole group is decided. -/
theorem Pending.handled (h : Pending cfg tasks batch (g :: gs) log) {l : List Decision}
    (hl : Handled cfg tasks g l) : Pending cfg tasks batch gs (log ++ l) := by
  obtain ⟨done, hr, hdone⟩ := h
  exact ⟨done ++ [g], hr.concat hl, by rw [← hdone, List.append_assoc]; rfl⟩

theorem Pending.extends (h : Pending cfg tasks batch gs log) :
    ∃ more, Routed cfg tasks ((groupsOf tasks batch).map Prod.snd) (log ++ more) := by
  obtain ⟨done, hr, hdone⟩ := h
  obtain ⟨more, hmore⟩ := exists_routed cfg tasks gs
  exact ⟨more, hdone ▸ hr.append hmore⟩

/-- What is decided so far can be continued to a complete routing. -/
theorem Stage.extends (h : Stage cfg tasks batch s log pt) :
    ∃ more, Routed cfg tasks ((groupsOf tasks batch).map Prod.snd) (log ++ more) := by
  cases pt with
  | grouping rest ds =>
    obtain ⟨rfl, -⟩ := h
    exact exists_routed cfg tasks _
  | noReady rest gs | full rest gs =>
    obtain ⟨marked, log₀, l, hp, hl, rfl⟩ := h
    obtain ⟨more, hmore⟩ := (hp.handled (.inr (List.rel_append hl (marks_map rest)))).extends
    exact ⟨rest.map (fun i => .overloaded i true) ++ more, by simpa using hmore⟩
  | groups gs | leave gs => exact Pending.extends h
  | compatible g gs | again g w gs => exact Pending.extends h
  | ready _ _ _ _ | idle _ _ _ _ _ | offer _ _ _ | scan _ _ _ _ | scanOffer _ _ _ _ _ =>
    exact Pending.extends h.1
  | halted => exact Pending.extends h
  | _ => exact h.elim

/-- One more task is marked. -/
theorem marks_concat {marked : List ℕ} {l : List Decision} (h : List.Forall₂ Marks marked l)
    (i : ℕ) (terminal : Bool) :
    List.Forall₂ Marks (marked ++ [i]) (l ++ [.overloaded i terminal]) :=
  List.rel_append h (.cons ⟨terminal, rfl⟩ .nil)

/-- **The call's statement**: what it decides is what it should, and it goes on as it should. -/
theorem stage_stmt (hb : s.Bounded) (hev : ∀ i, Task.Evolves (tasks i) (s.tasks i))
    (h : Stage cfg tasks batch s log pt) (hst : s.stmt cfg o pt = some (eff, pt')) :
    Stage cfg tasks batch s (log ++ decision s eff) pt' := by
  have hsame : ∀ eff', decision s eff' = [] → log ++ decision s eff' = log :=
    fun _ hnil => by rw [hnil, List.append_nil]
  cases pt with
  | grouping rest ds =>
    obtain ⟨rfl, done, hdone, rfl⟩ := h
    cases rest with
    | nil =>
      obtain ⟨rfl, rfl⟩ := by simpa [Sys.stmt] using hst
      rw [List.append_nil] at hdone
      exact ⟨[], .nil, by rw [hdone]; rfl⟩
    | cons i rest =>
      have hconcat := groupsOf_concat tasks done i
      have hrest : (done ++ [i]) ++ rest = batch := by rw [← hdone, List.append_assoc]; rfl
      have hkind : kind (s.tasks i) = kind (tasks i) := by simp only [kind, (hev i).inputData]
      simp only [Sys.stmt, hkind] at hst
      cases hk : kind (tasks i) with
      | str k =>
        simp only [hk, Option.some.injEq, Prod.mk.injEq] at hst hconcat
        obtain ⟨rfl, rfl⟩ := hst
        exact ⟨rfl, done ++ [i], hrest, hconcat.symm⟩
      | _ =>
        simp only [hk, Option.some.injEq, Prod.mk.injEq] at hst hconcat
        obtain ⟨rfl, rfl⟩ := hst
        exact ⟨rfl, done ++ [i], hrest, hconcat.symm⟩
  | groups gs =>
    cases gs with
    | nil =>
      obtain ⟨rfl, rfl⟩ := by simpa [Sys.stmt] using hst
      rw [hsame _ rfl]
      exact h
    | cons g gs =>
      obtain ⟨rfl, rfl⟩ := by simpa [Sys.stmt] using hst
      rw [hsame _ rfl]
      exact h
  | compatible g gs =>
    simp only [Sys.stmt] at hst
    split at hst
    · simp at hst
    · obtain ⟨rfl, rfl⟩ := by simpa using hst
      rw [hsame _ rfl]
      exact ⟨h, hb.values, by simp⟩
  | ready g scan acc gs =>
    obtain ⟨hp, hscan, hacc⟩ := h
    cases scan with
    | nil =>
      cases acc with
      | nil =>
        obtain ⟨rfl, rfl⟩ := by simpa [Sys.stmt] using hst
        exact ⟨[], log, [], hp, .nil, rfl⟩
      | cons w acc =>
        obtain ⟨rfl, rfl⟩ := by simpa [Sys.stmt] using hst
        rw [hsame _ rfl]
        refine ⟨hp, by simp, fun q hq => hacc q ?_⟩
        simp only [List.append_nil, List.mem_append, or_self] at hq
        exact hq
    | cons w scan =>
      obtain ⟨rfl, rfl⟩ := Prod.mk.inj (Option.some.inj hst)
      rw [hsame _ rfl]
      refine ⟨hp, fun q hq => hscan q (List.mem_cons_of_mem _ hq), ?_⟩
      split
      · rename_i hc
        simp only [Bool.and_eq_true] at hc
        intro q hq
        rcases List.mem_append.mp hq with hq | hq
        · exact hacc q hq
        · obtain rfl := List.mem_singleton.mp hq
          exact fits_of_supportsBatch hp.mem hev (hscan q List.mem_cons_self) hc.2
      · exact hacc
  | noReady rest gs =>
    obtain ⟨marked, log₀, l, hp, hl, rfl⟩ := h
    cases rest with
    | nil =>
      obtain ⟨rfl, rfl⟩ := by simpa [Sys.stmt] using hst
      rw [hsame _ rfl]
      rw [List.append_nil] at hp
      exact hp.handled (.inr hl)
    | cons i rest =>
      obtain ⟨rfl, rfl⟩ := by simpa [Sys.stmt] using hst
      exact ⟨marked ++ [i], log₀, _, by rwa [List.append_assoc], marks_concat hl i _,
        List.append_assoc _ _ _⟩
  | leave gs =>
    obtain ⟨rfl, rfl⟩ := by simpa [Sys.stmt] using hst
    rw [hsame _ rfl]
    exact h
  | idle g ready scan acc gs =>
    obtain ⟨hp, hne, hall⟩ := h
    cases scan with
    | nil =>
      simp only [Sys.stmt, Option.map_eq_some_iff, Prod.mk.injEq] at hst
      obtain ⟨w, hw, rfl, rfl⟩ := hst
      rw [hsame _ rfl]
      refine ⟨hp, hall w ?_⟩
      have hmem := List.mem_of_getElem? hw
      split at hmem
      · simp [hmem]
      · simp [hmem]
    | cons w scan =>
      obtain ⟨rfl, rfl⟩ := Prod.mk.inj (Option.some.inj hst)
      rw [hsame _ rfl]
      refine ⟨hp, hne, fun q hq => hall q ?_⟩
      split at hq <;> simp at hq ⊢ <;> tauto
  | offer g w gs =>
    obtain ⟨hp, hfit⟩ := h
    simp only [Sys.stmt, Option.some.injEq] at hst
    split at hst
    · rename_i ha
      obtain ⟨rfl, rfl⟩ := Prod.mk.inj hst
      exact hp.handled (.inl ⟨w, s.proxies w, ha, hfit.2, rfl⟩)
    · obtain ⟨rfl, rfl⟩ := Prod.mk.inj hst
      rw [hsame _ rfl]
      exact hp
  | again g w gs =>
    simp only [Sys.stmt] at hst
    split at hst
    · simp at hst
    · obtain ⟨rfl, rfl⟩ := by simpa using hst
      rw [hsame _ rfl]
      exact ⟨h, hb.values⟩
  | scan g w rest gs =>
    obtain ⟨hp, hrest⟩ := h
    cases rest with
    | nil =>
      obtain ⟨rfl, rfl⟩ := by simpa [Sys.stmt] using hst
      exact ⟨[], log, [], hp, .nil, rfl⟩
    | cons q rest =>
      obtain ⟨rfl, rfl⟩ := Prod.mk.inj (Option.some.inj hst)
      have htail : ∀ p ∈ rest, p < s.size := fun p hp => hrest p (List.mem_cons_of_mem _ hp)
      rw [hsame _ rfl]
      split
      · exact ⟨hp, htail⟩
      · rename_i hc
        simp only [not_or, Bool.not_eq_false] at hc
        exact ⟨hp, fits_of_supportsBatch hp.mem hev (hrest q List.mem_cons_self) hc.2.2, htail⟩
  | scanOffer g w q rest gs =>
    obtain ⟨hp, hfit, hrest⟩ := h
    simp only [Sys.stmt, Option.some.injEq] at hst
    split at hst
    · rename_i ha
      obtain ⟨rfl, rfl⟩ := Prod.mk.inj hst
      exact hp.handled (.inl ⟨q, s.proxies q, ha, hfit.2, rfl⟩)
    · obtain ⟨rfl, rfl⟩ := Prod.mk.inj hst
      rw [hsame _ rfl]
      exact ⟨hp, hrest⟩
  | full rest gs =>
    obtain ⟨marked, log₀, l, hp, hl, rfl⟩ := h
    cases rest with
    | nil =>
      obtain ⟨rfl, rfl⟩ := by simpa [Sys.stmt] using hst
      rw [hsame _ rfl]
      rw [List.append_nil] at hp
      exact hp.handled (.inr hl)
    | cons i rest =>
      obtain ⟨rfl, rfl⟩ := by simpa [Sys.stmt] using hst
      exact ⟨marked ++ [i], log₀, _, by rwa [List.append_assoc], marks_concat hl i _,
        List.append_assoc _ _ _⟩
  | halted => simp [Sys.stmt] at hst
  | _ => exact h.elim

end Stages

/-! ## The call among the others -/

/-- The call of thread `n` with `batch`, when the tasks were `tasks`: it stands where it should, and
a task it marked while it was open has failed with `overloaded`. -/
structure Call (cfg : Config) (n : ℕ) (tasks : ℕ → Task) (batch : List ℕ) (s : Sys)
    (log : List Decision) : Prop where
  bounded : s.Bounded
  members : s.Members
  evolves : ∀ i, Task.Evolves (tasks i) (s.tasks i)
  stage : Stage cfg tasks batch s log (s.points (.thread n))
  marked : ∀ i, .overloaded i false ∈ log →
    (s.tasks i).status = .failed ∧ (s.tasks i).errorCode = some "overloaded"

section Calls

variable {cfg : Config} {n : ℕ} {tasks : ℕ → Task} {batch g : List ℕ} {gs : List (List ℕ)}
  {s t : Sys} {log : List Decision} {e : Machine.Event}

/-- The thread stays where it is in every step that is not its own. -/
theorem others_points (hs : s.step cfg e = some t) (hcalls : calls n e = false)
    (hact : ∀ o, e ≠ .act (.thread n) o) :
    t.points (.thread n) = s.points (.thread n) ∧ decides cfg n s e = [] := by
  have hgoto : ∀ m pt, m ≠ n → (s.goto (.thread m) pt).points (.thread n) = s.points (.thread n) := by
    intro m pt hm
    simp [Sys.goto, Function.update_of_ne, Ne.symm hm]
  cases step_cases hs with
  | tick | fail | route => exact ⟨rfl, rfl⟩
  | @submit m => exact ⟨hgoto m _ (by simpa [calls] using hcalls), rfl⟩
  | @update m => exact ⟨hgoto m _ (by simpa [calls] using hcalls), rfl⟩
  | @stop m => exact ⟨hgoto m _ (by simpa [calls] using hcalls), rfl⟩
  | @act who o eff =>
    have hwho : who ≠ .thread n := by
      rintro rfl
      exact hact o rfl
    refine ⟨?_, by simp [decides, hwho]⟩
    simp only [Sys.goto, Function.update_of_ne (Ne.symm hwho)]
    rcases apply_points cfg s who eff (.thread n) with hsame | ⟨hnew, -⟩
    · exact hsame
    · simp at hnew

/-- The thread's own step. -/
theorem own_step {o : Outcome} (hs : s.step cfg (.act (.thread n) o) = some t) :
    ∃ eff pt', s.stmt cfg o (s.points (.thread n)) = some (eff, pt') ∧
      decides cfg n s (.act (.thread n) o) = decision s eff ∧
      t = (s.apply cfg (.thread n) eff).goto (.thread n) pt' := by
  simp only [Sys.step, Option.map_eq_some_iff] at hs
  obtain ⟨⟨eff, pt'⟩, hst, rfl⟩ := hs
  exact ⟨eff, pt', hst, by simp [decides, hst], rfl⟩

theorem failed_evolves {u v : Task} (hev : Task.Evolves u v) {code : String}
    (h : u.status = .failed ∧ u.errorCode = some code) :
    v.status = .failed ∧ v.errorCode = some code := by
  rw [hev.final (by rw [Task.terminal, h.1]; rfl)]
  exact h

/-- A task that was open when it was marked has failed with `overloaded`. -/
theorem decision_marks {eff : Effect} {who : Who} {i : ℕ}
    (h : .overloaded i false ∈ decision s eff) :
    ((s.apply cfg who eff).tasks i).status = .failed ∧
      ((s.apply cfg who eff).tasks i).errorCode = some "overloaded" := by
  unfold decision at h
  split at h
  · simp at h
  · rename_i k text code
    split at h
    · rename_i hcode
      subst hcode
      obtain ⟨rfl, hopen⟩ := by simpa using h
      have hcall : (s.apply cfg who (.call (some (i, .markFailed text (some "overloaded"))))).tasks i =
          (s.tasks i).call (.markFailed text (some "overloaded")) s.mono s.wall := by
        simp [Sys.apply, applyCall]
      rw [hcall]
      simp [Task.call, Task.Method.body, hopen, Task.Write.apply]
    · simp at h
  · simp at h

/-- **Step lemma.** -/
theorem Call.step (h : Call cfg n tasks batch s log) (hcalls : calls n e = false)
    (hs : s.step cfg e = some t) : Call cfg n tasks batch t (log ++ decides cfg n s e) := by
  have hev := step_evolves hs
  have hk := step_keepsIds hs
  by_cases hact : ∃ o, e = .act (.thread n) o
  · obtain ⟨o, rfl⟩ := hact
    have hb := h.bounded.step hs
    have hm := h.members.step h.bounded hs
    obtain ⟨eff, pt', hst, hdec, rfl⟩ := own_step hs
    rw [hdec]
    refine ⟨hb, hm, fun i => (h.evolves i).trans (hev i), ?_, fun i hi => ?_⟩
    · have hpt : ((s.apply cfg (.thread n) eff).goto (.thread n) pt').points (.thread n) = pt' := by
        simp [Sys.goto]
      rw [hpt]
      exact (stage_stmt h.bounded h.evolves h.stage hst).keeps hk
    · rcases List.mem_append.mp hi with hi | hi
      · exact failed_evolves (hev i) (h.marked i hi)
      · exact decision_marks hi
  · obtain ⟨hpt, hdec⟩ := others_points hs hcalls fun o ho => hact ⟨o, ho⟩
    rw [hdec, List.append_nil]
    exact ⟨h.bounded.step hs, h.members.step h.bounded hs, fun i => (h.evolves i).trans (hev i),
      by rw [hpt]; exact h.stage.keeps hk, fun i hi => failed_evolves (hev i) (h.marked i hi)⟩

/-- The call begins. -/
theorem Call.start {s₁ : Sys} (hb : s.Bounded) (hm : s.Members)
    (hs : s.step cfg (.submit n batch) = some s₁) : Call cfg n s.tasks batch s₁ [] := by
  have hb₁ := hb.step hs
  have hm₁ := hm.step hb hs
  cases step_cases hs with
  | submit =>
    refine ⟨hb₁, hm₁, fun _ => .refl _, ?_, by simp⟩
    simp only [Sys.goto, Function.update_self]
    exact ⟨rfl, [], rfl, rfl⟩

/-- The call waits for nothing but the pool lock. -/
theorem Call.moves (h : Call cfg n tasks batch s log) (hpt : s.points (.thread n) ≠ .halted)
    (hlock : s.lock = none) (o : Outcome) : (s.stmt cfg o (s.points (.thread n))).isSome = true := by
  have hst := h.stage
  cases hc : s.points (.thread n) with
  | halted => exact absurd hc hpt
  | idle g ready scan acc gs =>
    cases scan with
    | nil =>
      rw [hc] at hst
      have hpos : 0 < (if acc.isEmpty then ready else acc).length := by
        split
        · exact List.length_pos_iff.mpr hst.2.1
        · rename_i hne
          exact List.length_pos_iff.mpr (by simpa using hne)
      simp only [Sys.stmt, Option.isSome_map]
      rw [List.getElem?_eq_getElem (Nat.mod_lt _ hpos)]
      rfl
    | cons w scan => rfl
  | grouping rest ds =>
    cases rest with
    | nil => rfl
    | cons i rest =>
      simp only [Sys.stmt]
      split <;> rfl
  | groups gs => cases gs <;> rfl
  | ready g scan acc gs => cases scan <;> rfl
  | noReady rest gs | full rest gs => cases rest <;> rfl
  | scan g w rest gs => cases rest <;> rfl
  | compatible g gs | again g w gs => simp [Sys.stmt, hlock]
  | leave gs | offer g w gs | scanOffer g w q rest gs => rfl
  | _ =>
    rw [hc] at hst
    exact hst.elim

end Calls

/-! ## No group is turned away while a proxy is good -/

/-- The routing of `g` began in a state reached by a part of the events `fs`, and every proxy that
was good in all of its steps since is as `A` says. -/
def From (cfg : Config) (n : ℕ) (s₁ : Sys) (fs : List Machine.Event) (m : Sys) (g : List ℕ)
    (A : ℕ → Prop) : Prop :=
  ∃ es₁ es₂ u, fs = es₁ ++ es₂ ∧ exec (Sys.step cfg) s₁ es₁ = some u ∧
    exec (Sys.step cfg) u es₂ = some m ∧ (∃ gs, u.points (.thread n) = .compatible g gs) ∧
    ∀ q, Meets (Sys.step cfg) (fun x _ => Good cfg q g x) u es₂ → A q

/-- No proxy was good from the beginning of the routing of some group with the tasks `rest` up to a
part of the events `fs`. -/
def Refused (cfg : Config) (n : ℕ) (s₁ : Sys) (fs : List Machine.Event) (rest : List ℕ) : Prop :=
  ∃ g es₁ es₂ v, (∀ i ∈ rest, i ∈ g) ∧ fs = es₁ ++ es₂ ∧ From cfg n s₁ es₁ v g fun _ => False

/-- What a proxy that was good all along means for the point the call is at. -/
def Origin (cfg : Config) (n : ℕ) (s₁ : Sys) (fs : List Machine.Event) (m : Sys) : Point → Prop
  | .compatible g _ | .idle g _ _ _ _ | .offer g _ _ => From cfg n s₁ fs m g fun _ => True
  | .ready g scan acc _ => From cfg n s₁ fs m g fun q => q ∈ scan ++ acc
  | .again g w _ => From cfg n s₁ fs m g fun q => w ≠ q
  | .scan g w rest _ => From cfg n s₁ fs m g fun q => w ≠ q ∧ q ∈ rest
  | .scanOffer g w p rest _ => From cfg n s₁ fs m g fun q => w ≠ q ∧ (p = q ∨ q ∈ rest)
  | .noReady rest _ | .full rest _ => Refused cfg n s₁ fs rest
  | _ => True

section Origins

variable {cfg : Config} {n : ℕ} {s₁ m t : Sys} {fs : List Machine.Event} {g : List ℕ} {A B : ℕ → Prop}
  {e : Machine.Event}

theorem From.step (h : From cfg n s₁ fs m g A) (hs : m.step cfg e = some t)
    (hAB : ∀ q, A q → Good cfg q g m → B q) : From cfg n s₁ (fs ++ [e]) t g B := by
  obtain ⟨es₁, es₂, u, rfl, hu, hm, hpt, hall⟩ := h
  refine ⟨es₁, es₂ ++ [e], u, List.append_assoc _ _ _, hu, exec_concat.mpr ⟨m, hm, hs⟩, hpt, ?_⟩
  intro q hq
  obtain ⟨hq₂, hlast⟩ := meets_split hq
  exact hAB q (hall q hq₂) (hlast m hm).1

theorem Refused.step {rest rest' : List ℕ} (h : Refused cfg n s₁ fs rest)
    (hsub : ∀ i ∈ rest', i ∈ rest) (e : Machine.Event) : Refused cfg n s₁ (fs ++ [e]) rest' := by
  obtain ⟨g, es₁, es₂, v, hi, rfl, hv⟩ := h
  exact ⟨g, es₁, es₂ ++ [e], v, fun i hr => hi i (hsub i hr), List.append_assoc _ _ _, hv⟩

/-- Others leave the call where it is. -/
theorem Origin.others {pt : Point} (h : Origin cfg n s₁ fs m pt) (hs : m.step cfg e = some t) :
    Origin cfg n s₁ (fs ++ [e]) t pt := by
  cases pt with
  | noReady rest gs | full rest gs => exact Refused.step h (fun _ hi => hi) e
  | compatible _ _ | idle _ _ _ _ _ | offer _ _ _ | ready _ _ _ _ | again _ _ _ | scan _ _ _ _
  | scanOffer _ _ _ _ _ => exact From.step h hs fun _ ha _ => ha
  | _ => trivial

theorem isReady_of_accepts {w : Proxy} (h : w.accepts = true) : w.isReady = true := by
  simp only [Proxy.accepts, Bool.and_eq_true] at h
  simp only [Proxy.isReady, Bool.and_eq_true]
  exact h.1

/-- The call's own statement: a proxy that is good is collected, is not the one that declined, and is
not passed over by the scan. -/
theorem Origin.own {tasks : ℕ → Task} {batch : List ℕ} {log : List Decision} {o : Outcome}
    {pt pt' : Point} {eff : Effect} (h : Origin cfg n s₁ fs m pt)
    (hm : m.Members) (hstage : Stage cfg tasks batch m log pt)
    (hfs : exec (Sys.step cfg) s₁ (fs ++ [e]) = some t) (hs : m.step cfg e = some t)
    (hpt : t.points (.thread n) = pt')
    (hst : m.stmt cfg o pt = some (eff, pt')) : Origin cfg n s₁ (fs ++ [e]) t pt' := by
  cases pt with
  | groups gs =>
    cases gs with
    | nil =>
      obtain ⟨rfl, rfl⟩ := by simpa [Sys.stmt] using hst
      trivial
    | cons g gs =>
      obtain ⟨rfl, rfl⟩ := by simpa [Sys.stmt] using hst
      exact ⟨fs ++ [e], [], t, (List.append_nil _).symm, hfs, rfl, ⟨gs, hpt⟩, fun _ _ => trivial⟩
  | compatible g gs =>
    simp only [Sys.stmt] at hst
    split at hst
    · simp at hst
    · obtain ⟨rfl, rfl⟩ := by simpa using hst
      exact From.step h hs fun q _ hq => by simpa using hq.member
  | ready g scan acc gs =>
    cases scan with
    | nil =>
      cases acc with
      | nil =>
        obtain ⟨rfl, rfl⟩ := by simpa [Sys.stmt] using hst
        exact ⟨g, fs ++ [e], [], t, fun _ hi => hi, (List.append_nil _).symm,
          From.step h hs fun q hq _ => by simp at hq⟩
      | cons w acc =>
        obtain ⟨rfl, rfl⟩ := by simpa [Sys.stmt] using hst
        exact From.step h hs fun _ _ _ => trivial
    | cons w scan =>
      obtain ⟨rfl, rfl⟩ := Prod.mk.inj (Option.some.inj hst)
      refine From.step h hs fun q hq hgood => ?_
      by_cases hqw : q = w
      · subst hqw
        simp [isReady_of_accepts (hgood.accepts hm), hgood.supports]
      · have hq' : q ∈ scan ++ acc := by simpa [hqw] using hq
        split
        · rcases List.mem_append.mp hq' with hq' | hq'
          · exact List.mem_append_left _ hq'
          · exact List.mem_append_right _ (List.mem_append_left _ hq')
        · exact hq'
  | idle g ready scan acc gs =>
    cases scan with
    | nil =>
      simp only [Sys.stmt, Option.map_eq_some_iff, Prod.mk.injEq] at hst
      obtain ⟨w, -, rfl, rfl⟩ := hst
      exact From.step h hs fun _ _ _ => trivial
    | cons w scan =>
      obtain ⟨rfl, rfl⟩ := Prod.mk.inj (Option.some.inj hst)
      exact From.step h hs fun _ _ _ => trivial
  | offer g w gs =>
    simp only [Sys.stmt, Option.some.injEq] at hst
    split at hst
    · obtain ⟨rfl, rfl⟩ := Prod.mk.inj hst
      trivial
    · rename_i ha
      obtain ⟨rfl, rfl⟩ := Prod.mk.inj hst
      refine From.step h hs fun q _ hq => ?_
      rintro rfl
      exact ha (hq.accepts hm)
  | again g w gs =>
    simp only [Sys.stmt] at hst
    split at hst
    · simp at hst
    · obtain ⟨rfl, rfl⟩ := by simpa using hst
      exact From.step h hs fun q hw hq => ⟨hw, hq.member⟩
  | scan g w rest gs =>
    cases rest with
    | nil =>
      obtain ⟨rfl, rfl⟩ := by simpa [Sys.stmt] using hst
      exact ⟨g, fs ++ [e], [], t, fun _ hi => hi, (List.append_nil _).symm,
        From.step h hs fun q hq _ => by simp at hq⟩
    | cons p rest =>
      obtain ⟨rfl, rfl⟩ := Prod.mk.inj (Option.some.inj hst)
      split
      · rename_i hskip
        refine From.step h hs fun q hq hgood => ⟨hq.1, ?_⟩
        refine (List.mem_cons.mp hq.2).resolve_left ?_
        rintro rfl
        rcases hskip with hw | hr | hsup
        · exact hq.1 hw.symm
        · simp [isReady_of_accepts (hgood.accepts hm)] at hr
        · simp [hgood.supports] at hsup
      · exact From.step h hs fun q hq _ => ⟨hq.1, (List.mem_cons.mp hq.2).imp Eq.symm id⟩
  | scanOffer g w p rest gs =>
    simp only [Sys.stmt, Option.some.injEq] at hst
    split at hst
    · obtain ⟨rfl, rfl⟩ := Prod.mk.inj hst
      trivial
    · rename_i ha
      obtain ⟨rfl, rfl⟩ := Prod.mk.inj hst
      refine From.step h hs fun q hq hgood => ⟨hq.1, hq.2.resolve_left ?_⟩
      rintro rfl
      exact ha (hgood.accepts hm)
  | noReady rest gs =>
    cases rest with
    | nil =>
      obtain ⟨rfl, rfl⟩ := by simpa [Sys.stmt] using hst
      trivial
    | cons i rest =>
      obtain ⟨rfl, rfl⟩ := by simpa [Sys.stmt] using hst
      exact Refused.step h (fun _ hk => List.mem_cons_of_mem _ hk) e
  | full rest gs =>
    cases rest with
    | nil =>
      obtain ⟨rfl, rfl⟩ := by simpa [Sys.stmt] using hst
      trivial
    | cons i rest =>
      obtain ⟨rfl, rfl⟩ := by simpa [Sys.stmt] using hst
      exact Refused.step h (fun _ hk => List.mem_cons_of_mem _ hk) e
  | grouping rest ds =>
    cases rest with
    | nil =>
      obtain ⟨rfl, rfl⟩ := by simpa [Sys.stmt] using hst
      trivial
    | cons i rest =>
      simp only [Sys.stmt] at hst
      split at hst <;> (obtain ⟨rfl, rfl⟩ := Prod.mk.inj (Option.some.inj hst); trivial)
  | leave gs =>
    obtain ⟨rfl, rfl⟩ := by simpa [Sys.stmt] using hst
    trivial
  | halted => simp [Sys.stmt] at hst
  | _ => exact hstage.elim

/-- Where the call stands after any events of a run. -/
theorem origin_run {tasks : ℕ → Task} {batch : List ℕ} (h₁ : Call cfg n tasks batch s₁ [])
    (hstart : ∃ rest ds, s₁.points (.thread n) = .grouping rest ds)
    (hown : ∀ e ∈ fs, calls n e = false) (hfs : exec (Sys.step cfg) s₁ fs = some m) :
    Call cfg n tasks batch m (trace (Sys.step cfg) (decides cfg n) s₁ fs) ∧
      Origin cfg n s₁ fs m (m.points (.thread n)) := by
  induction fs using List.reverseRecOn generalizing m with
  | nil =>
    obtain rfl := Option.some.inj hfs
    obtain ⟨rest, ds, hpt⟩ := hstart
    refine ⟨h₁, ?_⟩
    rw [hpt]
    trivial
  | append_singleton fs e ih =>
    obtain ⟨k, hk, hs⟩ := exec_concat.mp hfs
    have hcalls := hown e (by simp)
    obtain ⟨hcall, horigin⟩ := ih (fun x hx => hown x (by simp [hx])) hk
    have htrace : trace (Sys.step cfg) (decides cfg n) s₁ (fs ++ [e]) =
        trace (Sys.step cfg) (decides cfg n) s₁ fs ++ decides cfg n k e := by
      rw [trace_append hk]
      simp [trace]
      cases Sys.step cfg k e <;> rfl
    rw [htrace]
    refine ⟨hcall.step hcalls hs, ?_⟩
    by_cases hact : ∃ o, e = .act (.thread n) o
    · obtain ⟨o, rfl⟩ := hact
      obtain ⟨eff, pt', hst, -, rfl⟩ := own_step hs
      have hpt : ((k.apply cfg (.thread n) eff).goto (.thread n) pt').points (.thread n) = pt' := by
        simp [Sys.goto]
      rw [hpt]
      exact horigin.own hcall.members hcall.stage hfs hs hpt hst
    · obtain ⟨hpt, -⟩ := others_points hs hcalls fun o ho => hact ⟨o, ho⟩
      rw [hpt]
      exact horigin.others hs

/-- A task is marked only while its group is being turned away. -/
theorem overloaded_point {tasks : ℕ → Task} {batch : List ℕ} {log : List Decision} {o : Outcome}
    {pt pt' : Point} {eff : Effect} (hstage : Stage cfg tasks batch m log pt)
    (hst : m.stmt cfg o pt = some (eff, pt')) {i : ℕ} {b : Bool}
    (hi : .overloaded i b ∈ decision m eff) :
    ∃ rest gs, pt = .noReady (i :: rest) gs ∨ pt = .full (i :: rest) gs := by
  cases pt with
  | noReady rest gs =>
    cases rest with
    | nil =>
      obtain ⟨rfl, rfl⟩ := by simpa [Sys.stmt] using hst
      simp [decision] at hi
    | cons k rest =>
      obtain ⟨rfl, rfl⟩ := by simpa [Sys.stmt] using hst
      obtain ⟨rfl, -⟩ := by simpa [decision] using hi
      exact ⟨rest, gs, .inl rfl⟩
  | full rest gs =>
    cases rest with
    | nil =>
      obtain ⟨rfl, rfl⟩ := by simpa [Sys.stmt] using hst
      simp [decision] at hi
    | cons k rest =>
      obtain ⟨rfl, rfl⟩ := by simpa [Sys.stmt] using hst
      obtain ⟨rfl, -⟩ := by simpa [decision] using hi
      exact ⟨rest, gs, .inr rfl⟩
  | grouping rest ds =>
    cases rest with
    | nil =>
      obtain ⟨rfl, rfl⟩ := by simpa [Sys.stmt] using hst
      simp [decision] at hi
    | cons k rest =>
      simp only [Sys.stmt] at hst
      split at hst <;>
        (obtain ⟨rfl, rfl⟩ := Prod.mk.inj (Option.some.inj hst); simp [decision] at hi)
  | groups gs =>
    cases gs <;> (obtain ⟨rfl, rfl⟩ := by simpa [Sys.stmt] using hst) <;> simp [decision] at hi
  | leave gs =>
    obtain ⟨rfl, rfl⟩ := by simpa [Sys.stmt] using hst
    simp [decision] at hi
  | compatible g gs | again g w gs =>
    simp only [Sys.stmt] at hst
    split at hst
    · simp at hst
    · obtain ⟨rfl, rfl⟩ := by simpa using hst
      simp [decision] at hi
  | ready g scan acc gs | scan g w scan gs =>
    cases scan <;> (obtain ⟨rfl, rfl⟩ := Prod.mk.inj (Option.some.inj hst); simp [decision] at hi)
  | idle g ready scan acc gs =>
    cases scan with
    | nil =>
      simp only [Sys.stmt, Option.map_eq_some_iff, Prod.mk.injEq] at hst
      obtain ⟨w, -, rfl, rfl⟩ := hst
      simp [decision] at hi
    | cons w scan =>
      obtain ⟨rfl, rfl⟩ := Prod.mk.inj (Option.some.inj hst)
      simp [decision] at hi
  | offer g w gs | scanOffer g v w rest gs =>
    simp only [Sys.stmt, Option.some.injEq] at hst
    split at hst <;> (obtain ⟨rfl, rfl⟩ := Prod.mk.inj hst; simp [decision] at hi)
  | halted => simp [Sys.stmt] at hst
  | _ => exact hstage.elim

end Origins

/-! ## The call as a whole -/

/-- **No spurious overload and no misrouting.**  One call of `submit` in any run of the pool: the
tasks with a string kind are handled in groups, one for each kind, in submission order.  What the call
has done so far can be continued to a complete routing of the groups, and is one when it has returned;
in a routing each group is taken by exactly one proxy, then ready, not stopped, with fewer than two
outstanding batches and supporting its tasks, or each of its tasks is marked.  A task marked while it
was open has failed with `overloaded`, and the call waits for nothing but the pool lock.  When a task
is marked, no proxy that supports it was a ready member with room at every step since the routing of
its group began. -/
theorem submit_routes (cfg : Config) {s₀ s s₁ t : Sys} {pre es : List Machine.Event} {n : ℕ}
    {batch : List ℕ} (hinit : s₀.Init) (hpre : exec (Sys.step cfg) s₀ pre = some s)
    (hsub : s.step cfg (.submit n batch) = some s₁) (hes : exec (Sys.step cfg) s₁ es = some t)
    (hown : ∀ e ∈ es, calls n e = false) :
    (∃ ks : List String, ks.Nodup ∧ (∀ k, k ∈ ks ↔ ∃ i ∈ batch, kind (s.tasks i) = .str k) ∧
      (∃ more, Routed cfg s.tasks (ks.map (ofKind s.tasks batch))
        (trace (Sys.step cfg) (decides cfg n) s₁ es ++ more)) ∧
      (t.points (.thread n) = .halted → Routed cfg s.tasks (ks.map (ofKind s.tasks batch))
        (trace (Sys.step cfg) (decides cfg n) s₁ es))) ∧
    (∀ i, .overloaded i false ∈ trace (Sys.step cfg) (decides cfg n) s₁ es →
      (t.tasks i).status = .failed ∧ (t.tasks i).errorCode = some "overloaded") ∧
    (t.points (.thread n) ≠ .halted → t.lock = none →
      ∀ o, (t.stmt cfg o (t.points (.thread n))).isSome = true) ∧
    ∀ fs e ms m i b, es = fs ++ e :: ms → exec (Sys.step cfg) s₁ fs = some m →
      .overloaded i b ∈ decides cfg n m e →
      ∃ k es₁ es₂ es₃ u, i ∈ ofKind s.tasks batch k ∧ fs = es₁ ++ es₂ ++ es₃ ∧
        exec (Sys.step cfg) s₁ es₁ = some u ∧
        (∃ gs, u.points (.thread n) = .compatible (ofKind s.tasks batch k) gs) ∧
        ¬ ∃ q, Meets (Sys.step cfg) (fun x _ => Good cfg q (ofKind s.tasks batch k) x) u es₂ := by
  obtain ⟨hb, hm⟩ : s.Bounded ∧ s.Members :=
    exec_inv (P := fun s => s.Bounded ∧ s.Members)
      (fun _ _ _ h hs => ⟨h.1.step hs, h.2.step h.1 hs⟩) ⟨hinit.bounded, hinit.members⟩ hpre
  have h₁ := Call.start hb hm hsub
  have hstart : ∃ rest ds, s₁.points (.thread n) = .grouping rest ds := by
    cases step_cases hsub with
    | submit => exact ⟨batch, [], by simp [Sys.goto]⟩
  obtain ⟨hcall, -⟩ := origin_run h₁ hstart hown hes
  have hks := groupsOf_values s.tasks batch
  refine ⟨⟨(groupsOf s.tasks batch).map Prod.fst, groupsOf_keys _ _, fun k => mem_kinds, ?_, ?_⟩,
    hcall.marked, fun hpt hlock o => hcall.moves hpt hlock o, ?_⟩
  · rw [← hks]
    exact hcall.stage.extends
  · intro hhalted
    have hst := hcall.stage
    rw [hhalted] at hst
    obtain ⟨done, hr, hdone⟩ := hst
    rw [List.append_nil] at hdone
    rw [← hks, ← hdone]
    exact hr
  · rintro fs e ms m i b rfl hfs hi
    have hpart : ∀ x ∈ fs, calls n x = false := fun x hx => hown x (List.mem_append_left _ hx)
    obtain ⟨hcallm, horigin⟩ := origin_run h₁ hstart hpart hfs
    obtain ⟨o, rfl⟩ : ∃ o, e = .act (.thread n) o := by
      cases e with
      | act who o =>
        by_cases hwho : who = .thread n
        · exact ⟨o, by rw [hwho]⟩
        · simp [decides, hwho] at hi
      | _ => simp [decides] at hi
    obtain ⟨m', hm', -⟩ : ∃ m', m.step cfg (.act (.thread n) o) = some m' ∧ True := by
      obtain ⟨k, hk, hrest⟩ := exec_append.mp hes
      obtain rfl := Option.some.inj (hfs.symm.trans hk)
      obtain ⟨m', hm', -⟩ := exec_cons.mp hrest
      exact ⟨m', hm', trivial⟩
    obtain ⟨eff, pt', hst, hdec, -⟩ := own_step hm'
    rw [hdec] at hi
    obtain ⟨rest, gs, hpt⟩ := overloaded_point hcallm.stage hst hi
    obtain ⟨g, es₁, es₂, v, hg, rfl, hv⟩ : Refused cfg n s₁ fs (i :: rest) := by
      rcases hpt with hpt | hpt <;> (rw [hpt] at horigin; exact horigin)
    obtain ⟨as, bs, u, rfl, hu, -, ⟨hs, hpu⟩, hnone⟩ := hv
    obtain ⟨hcallu, -⟩ := origin_run h₁ hstart (fun x hx => hpart x (by simp [hx])) hu
    have hstu := hcallu.stage
    rw [hpu] at hstu
    obtain ⟨⟨k, g'⟩, hmem, rfl⟩ := List.mem_map.mp (Pending.mem hstu)
    obtain ⟨rfl, -⟩ := mem_groupsOf hmem
    exact ⟨k, as, bs, es₂, u, hg i List.mem_cons_self, rfl, hu, ⟨hs, hpu⟩,
      fun hq => hq.elim hnone⟩

/-- Task 1 is of a kind that no worker supports. -/
def mixedStart : Sys :=
  { sampleStart with tasks := fun i => { sampleStart.tasks i with
      inputData := .obj [("kind", .str (if i = 1 then "text" else "simulation"))] } }

theorem mixedStart_init : mixedStart.Init :=
  { sampleStart_init with ids := sampleStart_init.ids, retryCount := fun _ => rfl }

/-- Workers `a` and `b` join. -/
def joined : List Machine.Event :=
  .update 0 [("a", ⟨"a:1", .ready⟩), ("b", ⟨"b:1", .ready⟩)] ::
    List.replicate 8 (.act (.thread 0) lost)

/-- The statements of the call. -/
def callSteps : List Machine.Event := List.replicate 22 (.act (.thread 0) lost)

/-- Tasks 0 and 2 go to `a`, task 1 is turned away. -/
theorem submit_routes_mixed : ∃ s s₁ t,
    exec (Sys.step sampleConfig) mixedStart joined = some s ∧
      s.step sampleConfig (.submit 0 [0, 1, 2]) = some s₁ ∧
      exec (Sys.step sampleConfig) s₁ callSteps = some t ∧
      (t.proxies 0).queue = [[0, 2]] ∧
      (∃ ks : List String, Routed sampleConfig s.tasks (ks.map (ofKind s.tasks [0, 1, 2]))
        (trace (Sys.step sampleConfig) (decides sampleConfig 0) s₁ callSteps)) ∧
      (t.tasks 1).errorCode = some "overloaded" := by
  have hview : ((exec (Sys.step sampleConfig) mixedStart joined).bind fun s =>
      (s.step sampleConfig (.submit 0 [0, 1, 2])).bind fun s₁ =>
        (exec (Sys.step sampleConfig) s₁ callSteps).map fun t =>
          (t.points (.thread 0), (t.proxies 0).queue,
            decide (.overloaded 1 false ∈ trace (Sys.step sampleConfig) (decides sampleConfig 0) s₁
              callSteps))) =
      some (.halted, [[0, 2]], true) := by
    decide +kernel
  obtain ⟨s, hs, hv⟩ := Option.bind_eq_some_iff.mp hview
  obtain ⟨s₁, hs₁, hv⟩ := Option.bind_eq_some_iff.mp hv
  obtain ⟨t, ht, hv⟩ := Option.map_eq_some_iff.mp hv
  simp only [Prod.mk.injEq, decide_eq_true_eq] at hv
  obtain ⟨hpt, hqueue, hmark⟩ := hv
  obtain ⟨⟨ks, -, -, -, hrouted⟩, hfailed, -⟩ := submit_routes sampleConfig mixedStart_init hs hs₁ ht
    (fun e he => by rw [List.eq_of_mem_replicate he]; rfl)
  exact ⟨s, s₁, t, hs, hs₁, ht, hqueue, ⟨ks, hrouted hpt⟩, (hfailed 1 hmark).2⟩

end Inference.Pool.Routing
