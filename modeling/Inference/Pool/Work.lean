import Inference.Pool.Progress
import Inference.Pool.Retry
import Inference.Lib.Potential
import Mathlib.Tactic.Linarith

/-!
# Inference.Pool.Work — the pool does a bounded amount of work

However its threads interleave, the pool executes only so many statements for what it is asked to do.
Every batch in a queue and every point of a thread has a cost, a bound on the statements it still
gives rise to when there are never more than `M` proxies (`queueCost`, `pointCost`); a task that may
still be handed to another worker is owed the cost of that (`owed`), and a reservation takes it.

* `stmt_cost`: a statement that is not a poll brings its thread closer to its return by more than it
  puts into queues.
* **`work_bounded`**: the statements of a run, polls aside, are bounded by what the calls and the
  responses of the run bring in.
-/

namespace Inference.Pool.Machine

open Inference.Lib

/-! ## What is still to be done -/

/-- A statement of `_process`; at most one is a call of the retry handler, which looks at each worker
three times. -/
def share (M : ℕ) : ℕ := 3 * M + 10

/-- A handoff: the task goes into a queue and through `_process` again. -/
def handoffCost (M : ℕ) : ℕ := 20 * share M + 2

def owed (M : ℕ) (t : Task) : ℕ := if t.retryCount = 0 then handoffCost M else 0

def owedAll (M : ℕ) (tasks : ℕ → Task) (l : List ℕ) : ℕ := (l.map fun i => owed M (tasks i)).sum

/-- A batch that waits for its dispatch thread. -/
def batchCost (M : ℕ) (tasks : ℕ → Task) (batch : List ℕ) : ℕ :=
  share M * (9 * batch.length + 11) + owedAll M tasks batch

/-- A batch that is to be routed. -/
def groupCost (M : ℕ) (tasks : ℕ → Task) (batch : List ℕ) : ℕ :=
  batchCost M tasks batch + batch.length + 4 * M + 20

def groupsCost (M : ℕ) (tasks : ℕ → Task) (gs : List (List ℕ)) : ℕ := (gs.map (groupCost M tasks)).sum

/-- A proxy that is to be retired. -/
def retireCost (M : ℕ) : ℕ := share M + 6

/-- `_update_workers` behind its last entry. -/
def removalCost (M : ℕ) : ℕ := (retireCost M + 3) * M + 4

def Cont.cost (M : ℕ) : Cont → ℕ
  | .loop => 3
  | .retire _ rest => retireCost M * rest.length + 2

/-- What is left of a call of `try_resubmit` for task `t`. -/
def Resubmit.cost (M : ℕ) (t : Task) : Resubmit → ℕ
  | .candidates scan acc => 3 * scan.length + 2 * acc.length + 4 + owed M t
  | .reserve ws => 2 * ws.length + 3 + owed M t
  | .classify scan idle busy =>
    2 * scan.length + idle.length + busy.length + 2 + (handoffCost M + owed M t)
  | .offer rest => rest.length + 1 + (handoffCost M + owed M t)

/-- A bound on the statements of a thread from a point on; `top` costs one more when it does not
poll. -/
def pointCost (M : ℕ) (s : Sys) : Point → ℕ
  | .halted => 0
  | .top p => if (s.proxies p).stop || (s.proxies p).queue.isEmpty then 1 else 2
  | .inner _ => 1
  | .ending _ => 2
  | .process _ pc k => share M * pc.measure 0 + owedAll M s.tasks pc.held + k.cost M
  | .resubmit f r => share M * (5 * f.rest.length + 2) + owedAll M s.tasks f.rest + f.k.cost M +
    r.cost M (s.tasks f.i)
  | .grouping rest ds => (rest.map fun i => 1 + groupCost M s.tasks [i]).sum +
    groupsCost M s.tasks (ds.map Prod.snd) + 2
  | .groups gs => groupsCost M s.tasks gs + 1
  | .compatible batch gs => groupCost M s.tasks batch + groupsCost M s.tasks gs
  | .ready batch scan acc gs => batchCost M s.tasks batch + batch.length + 2 * scan.length +
    acc.length + 2 * M + 13 + groupsCost M s.tasks gs
  | .noReady rest gs => rest.length + 3 + groupsCost M s.tasks gs
  | .idle batch _ scan _ gs => batchCost M s.tasks batch + batch.length + scan.length + 2 * M + 12 +
    groupsCost M s.tasks gs
  | .offer batch _ gs => batchCost M s.tasks batch + batch.length + 2 * M + 11 +
    groupsCost M s.tasks gs
  | .again batch _ gs => batchCost M s.tasks batch + batch.length + 2 * M + 10 +
    groupsCost M s.tasks gs
  | .scan batch _ rest gs => batchCost M s.tasks batch + batch.length + 2 * rest.length + 9 +
    groupsCost M s.tasks gs
  | .scanOffer batch _ _ rest gs => batchCost M s.tasks batch + batch.length + 2 * rest.length + 10 +
    groupsCost M s.tasks gs
  | .leave gs => groupsCost M s.tasks gs + 2
  | .full rest gs => rest.length + 2 + groupsCost M s.tasks gs
  | .update snapshot => 4 * snapshot.length + removalCost M + 1
  | .add _ rest => 4 * rest.length + removalCost M
  | .route _ _ _ rest => 4 * rest.length + removalCost M + 1
  | .gone rest removed => (retireCost M + 3) * rest.length + retireCost M * removed.length + 3
  | .begin _ rest removed =>
    (retireCost M + 3) * rest.length + retireCost M * (removed.length + 1) + 4
  | .retire _ rest => retireCost M * rest.length + 1
  | .swap _ _ rest => retireCost M * rest.length + share M + 4
  | .stop => M + retireCost M * M + 4
  | .beginAll rest all => rest.length + retireCost M * all.length + 3

/-- The batches that wait for a proxy. -/
def queueCost (M : ℕ) (s : Sys) (p : ℕ) : ℕ := ((s.proxies p).queue.map (batchCost M s.tasks)).sum

/-- What a statement puts into a queue. -/
def Effect.puts (M : ℕ) (tasks : ℕ → Task) : Effect → ℕ
  | .push _ batch => batchCost M tasks batch
  | .handoff _ _ i => batchCost M tasks [i]
  | _ => 0

/-- A statement starts a dispatch thread, or gives one that polls something to do. -/
def Effect.stirs : Effect → ℕ
  | .push _ _ | .handoff _ _ _ | .create _ _ => 1
  | _ => 0

/-- The proxy whose queue a statement changes, if any. -/
def Effect.target (s : Sys) : Effect → ℕ
  | .push q _ | .handoff _ q _ | .pop q | .swap q => q
  | _ => s.size

/-- What a statement takes out of a queue. -/
def Effect.takes (M : ℕ) (s : Sys) : Effect → ℕ
  | .pop p => ((s.proxies p).queue.head?.map (batchCost M s.tasks)).getD 0
  | .swap p => queueCost M s p
  | _ => 0

/-- A statement of a thread that is not a poll. -/
def Sys.work (s : Sys) : Event → ℕ
  | .act who _ => if s.polling (s.points who) then 0 else 1
  | _ => 0

/-- The results of a response that is still to be reconciled. -/
def answer (o : Outcome) : Point → ℕ
  | .process _ (.inflight _) _ => match o with
    | .response results => results.length
    | _ => 0
  | _ => 0

/-! ## Owing less and less -/

section Costs

variable {cfg : Config} {s t : Sys} {o : Outcome} {who : Who} {pt pt' : Point} {eff : Effect} {M : ℕ}
  {tasks tasks' : ℕ → Task}

theorem owed_evolves {t u : Task} (h : Task.Evolves t u) : owed M u ≤ owed M t := by
  have hle := h.retryCount
  unfold owed
  split <;> split <;> first | exact le_rfl | exact Nat.zero_le _ | omega

theorem owedAll_evolves (hev : ∀ i, Task.Evolves (tasks i) (tasks' i)) (l : List ℕ) :
    owedAll M tasks' l ≤ owedAll M tasks l :=
  List.sum_le_sum fun i _ => owed_evolves (hev i)

theorem owedAll_sublist {l l' : List ℕ} (h : l.Sublist l') : owedAll M tasks l ≤ owedAll M tasks l' :=
  List.Sublist.sum_le_sum (h.map _) fun _ _ => Nat.zero_le _

@[simp] theorem owedAll_nil : owedAll M tasks [] = 0 := rfl

@[simp] theorem owedAll_cons (i : ℕ) (l : List ℕ) :
    owedAll M tasks (i :: l) = owed M (tasks i) + owedAll M tasks l := rfl

@[simp] theorem owedAll_append (l l' : List ℕ) :
    owedAll M tasks (l ++ l') = owedAll M tasks l + owedAll M tasks l' := by
  simp [owedAll]

theorem batchCost_evolves (hev : ∀ i, Task.Evolves (tasks i) (tasks' i)) (batch : List ℕ) :
    batchCost M tasks' batch ≤ batchCost M tasks batch :=
  Nat.add_le_add_left (owedAll_evolves hev batch) _

theorem groupCost_evolves (hev : ∀ i, Task.Evolves (tasks i) (tasks' i)) (batch : List ℕ) :
    groupCost M tasks' batch ≤ groupCost M tasks batch := by
  have hle := batchCost_evolves (M := M) hev batch
  unfold groupCost
  omega

theorem groupsCost_evolves (hev : ∀ i, Task.Evolves (tasks i) (tasks' i)) (gs : List (List ℕ)) :
    groupsCost M tasks' gs ≤ groupsCost M tasks gs :=
  List.sum_le_sum fun g _ => groupCost_evolves hev g

@[simp] theorem groupsCost_nil : groupsCost M tasks [] = 0 := rfl

@[simp] theorem groupsCost_cons (g : List ℕ) (gs : List (List ℕ)) :
    groupsCost M tasks (g :: gs) = groupCost M tasks g + groupsCost M tasks gs := rfl

/-- A task joins its group. -/
theorem groupsCost_set (tasks : ℕ → Task) (ds : List (String × List ℕ)) (k : String) (i : ℕ) :
    groupsCost M tasks ((Dict.set k ((Dict.get? k ds).getD [] ++ [i]) ds).map Prod.snd) ≤
      groupsCost M tasks (ds.map Prod.snd) + groupCost M tasks [i] := by
  have hjoin : ∀ g, groupCost M tasks (g ++ [i]) ≤ groupCost M tasks g + groupCost M tasks [i] := by
    intro g
    simp only [groupCost, batchCost, owedAll_append, List.length_append, List.length_singleton]
    nlinarith [Nat.zero_le (share M)]
  induction ds with
  | nil => simp [Dict.set, Dict.get?]
  | cons d ds ih =>
    obtain ⟨a, g⟩ := d
    by_cases ha : a = k
    · have hg := hjoin g
      simp only [Dict.set, Dict.get?, ha, if_true, Option.getD_some, List.map_cons, groupsCost_cons]
      omega
    · simp only [Dict.set, Dict.get?, ha, if_false, List.map_cons, groupsCost_cons]
      omega

/-- To fail what waits for a proxy costs no more than to serve it. -/
theorem flatten_cost (M : ℕ) (tasks : ℕ → Task) (queue : List (List ℕ)) :
    share M * (5 * queue.flatten.length) + owedAll M tasks queue.flatten ≤
      (queue.map (batchCost M tasks)).sum := by
  induction queue with
  | nil => simp
  | cons batch queue ih =>
    simp only [List.flatten_cons, List.length_append, owedAll_append, List.map_cons, List.sum_cons,
      batchCost]
    nlinarith [Nat.zero_le (share M), Nat.zero_le (share M * batch.length)]

/-! ## One statement -/

/-- A statement of `_process` brings it closer to its return. -/
theorem moves_cost {loads : String → Except Exc Json} {v : View} {pc pc' : Pc}
    {c : Option (ℕ × Task.Method)} {p : ℕ} {k : Cont} (h : Moves loads v ⟨o, none⟩ pc c pc') :
    pc'.measure 0 + 1 ≤ pc.measure 0 + answer o (.process p pc k) := by
  cases h with
  | response batch ho =>
    rw [show o = _ from ho]
    simp only [Pc.measure, answer]
    omega
  | _ =>
    simp only [Pc.measure, List.length_append, List.length_cons, List.length_nil]
    omega

theorem owed_reserved {t : Task} {mono : ℤ} (h : (t.tryReserveRetry mono).1 = true) (wall : ℤ) :
    owed M (t.call .tryReserveRetry mono wall) = 0 ∧ owed M t = handoffCost M := by
  have hzero := (Task.tryReserveRetry_true h).2.2.1
  have hone := retryCount_call_tryReserveRetry h wall
  exact ⟨if_neg (by omega), if_pos hzero⟩

/-- **A statement pays.**  What a thread still costs, with what it has put into queues, falls by one
with every statement that is not a poll. -/
theorem stmt_cost (who : Who) (hst : s.stmt cfg o pt = some (eff, pt')) (hM : s.values.length ≤ M) :
    pointCost M (s.apply cfg who eff) pt' + eff.puts M (s.apply cfg who eff).tasks +
      eff.stirs + (if s.polling pt then 0 else 1) ≤
    pointCost M s pt + eff.takes M s + share M * answer o pt := by
  have hev := apply_evolves cfg s who eff
  have hshare : share M = 3 * M + 10 := rfl
  have hworkers : s.workers.length ≤ M := by simpa [Sys.values] using hM
  have hgroups := groupsCost_evolves (M := M) hev
  have hbatch := batchCost_evolves (M := M) hev
  have howed := owedAll_evolves (M := M) hev
  have hone : ∀ i, owed M ((s.apply cfg who eff).tasks i) ≤ owed M (s.tasks i) :=
    fun i => owed_evolves (hev i)
  cases stmt_cases hst with
  | topStopped h => simp [pointCost, Effect.puts, Effect.stirs, Effect.takes, Sys.polling, h]
  | @top p h =>
    cases hq : (s.proxies p).queue with
    | nil => simp [pointCost, Effect.puts, Effect.stirs, Effect.takes, Sys.polling, h, hq]
    | cons b q => simp [pointCost, Effect.puts, Effect.stirs, Effect.takes, Sys.polling, h, hq]
  | «break» p =>
    have hpoll : ((s.proxies p).stop || (s.proxies p).queue.isEmpty) = true := by
      by_contra hno
      simp only [Bool.or_eq_true, not_or, Bool.not_eq_true] at hno
      simp only [Sys.stmt, hno.1, Bool.false_eq_true, if_false] at hst
      split at hst
      · rename_i hnil
        simp [hnil] at hno
      · simp at hst
    simp [pointCost, Effect.puts, Effect.stirs, Effect.takes, Sys.polling, Sys.apply, hpoll]
  | @pop p batch queue h hq =>
    have hheld := howed batch
    simp only [pointCost, Effect.puts, Effect.stirs, Effect.takes, Sys.polling, hq, List.head?_cons, Option.map_some,
      Option.getD_some, batchCost, Pc.measure, Pc.held, List.nil_append, Cont.cost, List.length_nil,
      List.isEmpty_cons, h, Bool.or_false, Bool.false_eq_true, if_false, answer, Nat.mul_zero]
    linarith
  | returned p k =>
    cases k <;> simp [pointCost, Effect.puts, Effect.stirs, Effect.takes, Sys.polling, Cont.after, Cont.cost] <;> omega
  | @moves p pc pc' c k hh hc hm =>
    have hheld := (howed pc'.held).trans (owedAll_sublist hm.held)
    have hless := Nat.mul_le_mul_left (share M) (moves_cost (p := p) (k := k) hm)
    simp only [pointCost, Effect.puts, Effect.stirs, Effect.takes, Sys.polling, Bool.false_eq_true, if_false]
    linarith
  | @reserve f candidates h =>
    have hrest := howed f.rest
    have hnow := owed_reserved (M := M) h s.wall
    have htask : (s.apply cfg who (.reserve f.i)).tasks f.i =
        (s.tasks f.i).call .tryReserveRetry s.mono s.wall := by simp [Sys.apply, applyCall]
    simp only [pointCost, Resubmit.cost, htask, hnow.1, hnow.2, Effect.puts, Effect.stirs, Effect.takes, Sys.polling,
      Bool.false_eq_true, if_false, List.length_nil]
    omega
  | @accepted f w rest h =>
    simp only [pointCost, Resubmit.cost, Frame.accepted, Effect.puts, Effect.stirs, Effect.takes, Sys.polling,
      Bool.false_eq_true, if_false, Pc.measure, Pc.held, batchCost, Sys.apply, Sys.setProxy,
      owedAll_cons, owedAll_nil, handoffCost, List.length_cons, List.length_nil, answer, Nat.mul_zero]
    linarith
  | group i rest ds k =>
    have hset := groupsCost_set (M := M) s.tasks ds k i
    simp only [pointCost, Effect.puts, Effect.stirs, Effect.takes, Sys.polling, Sys.apply, applyCall,
      Bool.false_eq_true, if_false, List.map_cons, List.sum_cons]
    omega
  | invalidKind i rest ds =>
    have hds := hgroups (ds.map Prod.snd)
    have hrest : (rest.map fun i => 1 + groupCost M _ [i]).sum ≤
        (rest.map fun i => 1 + groupCost M s.tasks [i]).sum :=
      List.sum_le_sum fun i _ => Nat.add_le_add_left (groupCost_evolves hev [i]) 1
    simp only [pointCost, Effect.puts, Effect.stirs, Effect.takes, Sys.polling, List.map_cons, List.sum_cons,
      Bool.false_eq_true, if_false]
    omega
  | ready batch scan acc acc' w gs =>
    have hacc : acc'.length ≤ acc.length + 1 := by
      obtain ⟨-, hpt⟩ := Prod.mk.inj (Option.some.inj hst)
      obtain ⟨-, -, rfl, -⟩ := Point.ready.inj hpt
      split <;> simp
    simp only [pointCost, Effect.puts, Effect.stirs, Effect.takes, Sys.polling, Sys.apply, applyCall,
      Bool.false_eq_true, if_false, List.length_cons]
    omega
  | overloaded i rest gs =>
    have hg := hgroups gs
    simp only [pointCost, Effect.puts, Effect.stirs, Effect.takes, Sys.polling, List.length_cons,
      Bool.false_eq_true, if_false]
    omega
  | atCapacity i rest gs =>
    have hg := hgroups gs
    simp only [pointCost, Effect.puts, Effect.stirs, Effect.takes, Sys.polling, List.length_cons,
      Bool.false_eq_true, if_false]
    omega
  | added snapshot =>
    have hids : ((s.workers.map Prod.fst).filter fun wid => (Dict.get? wid snapshot).isNone).length ≤
        M := (List.length_filter_le _ _).trans (by simpa using hworkers)
    have hcost := Nat.mul_le_mul_left (retireCost M + 3) hids
    simp only [pointCost, Effect.puts, Effect.stirs, Effect.takes, Sys.polling, removalCost, List.length_nil,
      Bool.false_eq_true, if_false]
    omega
  | retire retryPending p rest =>
    have hretire : retireCost M = share M + 6 := rfl
    simp only [pointCost, Effect.puts, Effect.stirs, Effect.takes, Sys.polling, List.length_cons, Nat.mul_add,
      Bool.false_eq_true, if_false]
    omega
  | swap p retryPending rest =>
    have hheld := (howed (s.proxies p).queue.flatten)
    have hqueue := flatten_cost M s.tasks (s.proxies p).queue
    simp only [pointCost, Effect.puts, Effect.stirs, Effect.takes, Sys.polling, Pc.measure, Pc.held, Cont.cost,
      queueCost, Nat.mul_add, Bool.false_eq_true, if_false]
    omega
  | stop hl =>
    have hall := Nat.mul_le_mul_left (retireCost M) hM
    simp only [pointCost, Effect.puts, Effect.stirs, Effect.takes, Sys.polling, Bool.false_eq_true, if_false]
    omega
  | _ =>
    simp only [pointCost, Effect.puts, Effect.stirs, Effect.takes, Sys.polling, Sys.apply, applyCall, Sys.setProxy,
      Frame.refused, Pc.measure, Pc.held, Resubmit.cost, owedAll_cons,
      Bool.false_eq_true, if_false, groupsCost_cons, groupCost, List.length_cons, List.length_append,
      List.length_nil, Nat.mul_add, Nat.add_mul, removalCost]
    omega

/-! ## The other threads and the queues -/

/-- As its tasks evolve a thread does not get further from its return. -/
theorem pointCost_evolves (hev : ∀ i, Task.Evolves (s.tasks i) (t.tasks i))
    (hpt : ∀ p, pt = .top p → pointCost M t pt ≤ pointCost M s pt) :
    pointCost M t pt ≤ pointCost M s pt := by
  have hgroups := groupsCost_evolves (M := M) hev
  have hbatch := batchCost_evolves (M := M) hev
  have howed := owedAll_evolves (M := M) hev
  cases pt with
  | top p => exact hpt p rfl
  | process p pc k => exact Nat.add_le_add_right (Nat.add_le_add_left (howed pc.held) _) _
  | resubmit f r =>
    have hrest := howed f.rest
    have hone : owed M (t.tasks f.i) ≤ owed M (s.tasks f.i) := owed_evolves (hev f.i)
    cases r <;> simp only [pointCost, Resubmit.cost] <;> omega
  | grouping rest ds =>
    have hrest : (rest.map fun i => 1 + groupCost M t.tasks [i]).sum ≤
        (rest.map fun i => 1 + groupCost M s.tasks [i]).sum :=
      List.sum_le_sum fun i _ => Nat.add_le_add_left (groupCost_evolves hev [i]) 1
    have hds := hgroups (ds.map Prod.snd)
    simp only [pointCost]
    omega
  | compatible batch gs =>
    exact Nat.add_le_add (groupCost_evolves hev batch) (hgroups gs)
  | groups gs | noReady rest gs | leave gs | full rest gs =>
    have hg := hgroups gs
    simp only [pointCost]
    omega
  | ready batch scan acc gs | idle batch found scan acc gs | offer batch w gs | again batch w gs
  | scan batch w rest gs | scanOffer batch w q rest gs =>
    have hb := hbatch batch
    have hg := hgroups gs
    simp only [pointCost]
    omega
  | _ => exact le_rfl

/-- A dispatch thread that polls stays at that, unless it is given something to do. -/
theorem top_cost (cfg : Config) (s : Sys) (who : Who) (eff : Effect) {p : ℕ} (hp : p < s.size) :
    pointCost M (s.apply cfg who eff) (.top p) ≤
      pointCost M s (.top p) + if p = eff.target s then eff.stirs else 0 := by
  have hset : ∀ (q : ℕ) (w : Proxy), (p = q → ((w.stop || w.queue.isEmpty) = false →
      ((s.proxies q).stop || (s.proxies q).queue.isEmpty) = false)) →
      (if (Function.update s.proxies q w p).stop || (Function.update s.proxies q w p).queue.isEmpty
        then 1 else 2) ≤ if (s.proxies p).stop || (s.proxies p).queue.isEmpty then 1 else 2 := by
    intro q w hw
    by_cases hq : p = q
    · subst hq
      have hw' := hw rfl
      rw [Function.update_self]
      cases h : (w.stop || w.queue.isEmpty) with
      | true =>
        rw [if_pos rfl]
        split <;> simp
      | false => simp [hw' h]
    · rw [Function.update_of_ne hq]
  have hpush : ∀ (q : ℕ) (w : Proxy),
      (if (Function.update s.proxies q w p).stop || (Function.update s.proxies q w p).queue.isEmpty
        then 1 else 2) ≤ (if (s.proxies p).stop || (s.proxies p).queue.isEmpty then 1 else 2) +
          if p = q then 1 else 0 := by
    intro q w
    by_cases hq : p = q
    · subst hq
      simp only [if_true]
      split <;> split <;> omega
    · rw [Function.update_of_ne hq]
      exact Nat.le_add_right _ _
  cases eff with
  | push q batch => exact hpush q _
  | handoff r q i => exact hpush q _
  | pop q =>
    refine (hset q _ fun _ h => ?_).trans (Nat.le_add_right _ _)
    cases hq : (s.proxies q).queue <;> simp_all
  | finish q =>
    exact (hset q { s.proxies q with processing := false } fun _ h => h).trans (Nat.le_add_right _ _)
  | swap q => exact (hset q _ fun _ h => by simp at h).trans (Nat.le_add_right _ _)
  | beginStop q r =>
    exact (hset q _ fun _ h => by simp [beginStop_stop] at h).trans (Nat.le_add_right _ _)
  | route q state =>
    exact (hset q { s.proxies q with routing := state } fun _ h => h).trans (Nat.le_add_right _ _)
  | create wid address =>
    exact (hset s.size _ fun hq => absurd hq hp.ne).trans (Nat.le_add_right _ _)
  | _ => exact Nat.le_add_right _ _

/-- What the other threads cost after a statement. -/
theorem others_cost (hsound : s.Sound) (hown : s.Own) (cfg : Config) (who : Who) (eff : Effect)
    (who' : Who) : pointCost M (s.apply cfg who eff) ((s.apply cfg who eff).points who') ≤
      pointCost M s (s.points who') + if who' = .loop (eff.target s) then eff.stirs else 0 := by
  have hev := apply_evolves cfg s who eff
  have hstays : (s.apply cfg who eff).points who' = s.points who' →
      pointCost M (s.apply cfg who eff) ((s.apply cfg who eff).points who') ≤
        pointCost M s (s.points who') + if who' = .loop (eff.target s) then eff.stirs else 0 := by
    intro hsame
    rw [hsame]
    by_cases htop : ∃ p, s.points who' = .top p
    · obtain ⟨p, hp⟩ := htop
      obtain rfl := hown who' p (by simp [hp, Point.dispatch])
      have hlt : p < s.size := by
        by_contra hle
        simp [(hsound.absent p (Nat.le_of_not_lt hle)).2.2] at hp
      rw [hp]
      simpa using top_cost (M := M) cfg s who eff hlt
    · exact (pointCost_evolves hev fun p hp => absurd ⟨p, hp⟩ htop).trans (Nat.le_add_right _ _)
  cases eff with
  | create wid address =>
    by_cases hw : who' = .loop s.size
    · subst hw
      simp [Sys.apply, Sys.goto, Sys.setProxy, pointCost, Effect.target, Effect.stirs]
    · exact hstays (by simp [Sys.apply, Sys.goto, Sys.setProxy, hw])
  | _ => exact hstays rfl

/-- The batches in the queues: a statement puts some in or takes some out. -/
theorem queue_cost (cfg : Config) (s : Sys) (who : Who) (eff : Effect) (p : ℕ) :
    queueCost M (s.apply cfg who eff) p + (if p = eff.target s then eff.takes M s else 0) ≤
      queueCost M s p + if p = eff.target s then eff.puts M (s.apply cfg who eff).tasks else 0 := by
  have hev := apply_evolves cfg s who eff
  have hqueue : ∀ l : List (List ℕ), (l.map (batchCost M (s.apply cfg who eff).tasks)).sum ≤
      (l.map (batchCost M s.tasks)).sum := fun l => List.sum_le_sum fun b _ => batchCost_evolves hev b
  have hkept : ((s.apply cfg who eff).proxies p).queue = (s.proxies p).queue →
      queueCost M (s.apply cfg who eff) p ≤ queueCost M s p := by
    intro hq
    unfold queueCost
    rw [hq]
    exact hqueue _
  have hupdate : ∀ (q : ℕ) (w : Proxy), (p = q → w.queue = (s.proxies q).queue) →
      (Function.update s.proxies q w p).queue = (s.proxies p).queue := by
    intro q w hw
    by_cases hq : p = q
    · subst hq
      simpa using hw rfl
    · rw [Function.update_of_ne hq]
  have hplain : queueCost M (s.apply cfg who eff) p ≤ queueCost M s p → eff.takes M s = 0 →
      queueCost M (s.apply cfg who eff) p + (if p = eff.target s then eff.takes M s else 0) ≤
        queueCost M s p + if p = eff.target s then eff.puts M (s.apply cfg who eff).tasks else 0 := by
    intro hle htakes
    rw [htakes]
    split <;> omega
  cases eff with
  | push q batch =>
    by_cases hq : p = q
    · subst hq
      simp [queueCost, Sys.apply, Sys.setProxy, Effect.target, Effect.takes, Effect.puts]
    · exact hplain (hkept (hupdate q _ fun h => absurd h hq)) rfl
  | handoff r q i =>
    by_cases hq : p = q
    · subst hq
      simp [queueCost, Sys.apply, Sys.setProxy, Effect.target, Effect.takes, Effect.puts]
    · exact hplain (hkept (hupdate q _ fun h => absurd h hq)) rfl
  | pop q =>
    by_cases hq : p = q
    · subst hq
      cases hl : (s.proxies p).queue with
      | nil => simp [queueCost, Sys.apply, Sys.setProxy, Effect.target, Effect.takes, Effect.puts, hl]
      | cons b l =>
        simp only [queueCost, Sys.apply, Sys.setProxy, Effect.target, Effect.takes, Effect.puts, hl,
          Function.update_self, List.tail_cons, List.map_cons, List.sum_cons, List.head?_cons,
          Option.map_some, Option.getD_some, if_true]
        omega
    · simpa [Effect.target, hq] using hkept (hupdate q _ fun h => absurd h hq)
  | swap q =>
    by_cases hq : p = q
    · subst hq
      simp [queueCost, Sys.apply, Sys.setProxy, Effect.target, Effect.takes, Effect.puts]
    · simpa [Effect.target, hq] using hkept (hupdate q _ fun h => absurd h hq)
  | create wid address =>
    by_cases hq : p = s.size
    · refine hplain ?_ rfl
      simp [queueCost, Sys.apply, Sys.goto, Sys.setProxy, hq]
    · exact hplain (hkept (hupdate s.size _ fun h => absurd h hq)) rfl
  | finish q => exact hplain (hkept (hupdate q _ fun _ => rfl)) rfl
  | beginStop q r => exact hplain (hkept (hupdate q _ fun _ => beginStop_queue _ r)) rfl
  | route q state => exact hplain (hkept (hupdate q _ fun _ => rfl)) rfl
  | _ => exact hplain (hkept rfl) rfl

/-! ## The whole pool -/

/-- The threads that may move: `M` dispatch threads and `K` callers. -/
def crew (M K : ℕ) : Finset Who := (Finset.range M).image .loop ∪ (Finset.range K).image .thread

/-- A bound on the statements the pool still executes. -/
def Sys.potential (M K : ℕ) (s : Sys) : ℕ :=
  ∑ p ∈ Finset.range M, queueCost M s p + ∑ who ∈ crew M K, pointCost M s (s.points who)

/-- What an event brings in. -/
def Sys.brings (M : ℕ) (s : Sys) : Event → ℕ
  | .submit _ batch => (20 * share M + handoffCost M + 4 * M + 22) * batch.length + 2
  | .update _ snapshot => 4 * snapshot.length + removalCost M + 1
  | .stop _ => M + retireCost M * M + 4
  | .act who o => share M * answer o (s.points who)
  | _ => 0

theorem mem_crew {K : ℕ} (hsound : s.Sound) (hM : s.size ≤ M)
    (hK : ∀ n, K ≤ n → s.points (.thread n) = .halted) (h : s.points who ≠ .halted) :
    who ∈ crew M K := by
  cases who with
  | loop p =>
    have hlt : p < s.size := by
      by_contra hle
      exact h (hsound.absent p (Nat.le_of_not_lt hle)).2.2
    simp [crew]
    omega
  | thread n =>
    have hlt : n < K := by
      by_contra hle
      exact h (hK n (Nat.le_of_not_lt hle))
    simpa [crew] using hlt

/-- Members are different proxies. -/
theorem values_length_le (hm : s.Members) (hb : s.Bounded) : s.values.length ≤ s.size := by
  have hnodup : s.values.Nodup := by
    refine List.Nodup.map_on (fun x hx y hy hxy => ?_) (List.Nodup.of_map _ hm.keys)
    have hx' := Dict.get?_of_mem hm.keys hx
    have hy' := Dict.get?_of_mem hm.keys hy
    rw [hxy] at hx'
    exact Prod.ext (hm.injective hx' hy') hxy
  calc s.values.length = s.values.toFinset.card := (List.toFinset_card_of_nodup hnodup).symm
    _ ≤ (Finset.range s.size).card := Finset.card_le_card fun p hp =>
        Finset.mem_range.mpr (hb.values p (List.mem_toFinset.mp hp))
    _ = s.size := Finset.card_range _

/-- Only the proxies and the tasks count, and where the threads stand. -/
theorem potential_same {K : ℕ} (hp : t.proxies = s.proxies) (ht : t.tasks = s.tasks) :
    t.potential M K = ∑ p ∈ Finset.range M, queueCost M s p +
      ∑ who ∈ crew M K, pointCost M s (t.points who) := by
  have hpoint : ∀ x, pointCost M t x = pointCost M s x := by
    intro x
    cases x <;> simp only [pointCost, hp, ht]
  simp only [Sys.potential, hpoint, queueCost, hp, ht]

/-- Batches are taken out of the queues of proxies that exist. -/
theorem Stmt.takes (h : Stmt cfg s o (s.points who) eff pt') (hb : s.Bounded) :
    eff.takes M s = 0 ∨ eff.target s < s.size := by
  have hin := hb.points who
  generalize s.points who = pt at h hin
  cases h with
  | pop hs hq => exact .inr (hin _ List.mem_cons_self)
  | swap p r rest => exact .inr (hin _ List.mem_cons_self)
  | _ => exact .inl rfl

theorem queues_cost (hb : s.Bounded) (hst : Stmt cfg s o (s.points who) eff pt') (hM : s.size ≤ M) :
    ∑ p ∈ Finset.range M, queueCost M (s.apply cfg who eff) p + eff.takes M s ≤
      ∑ p ∈ Finset.range M, queueCost M s p + eff.puts M (s.apply cfg who eff).tasks := by
  have hsum := Finset.sum_le_sum fun p (_ : p ∈ Finset.range M) =>
    queue_cost (M := M) cfg s who eff p
  rw [Finset.sum_add_distrib, Finset.sum_add_distrib, Finset.sum_ite_eq', Finset.sum_ite_eq'] at hsum
  rcases hst.takes (M := M) hb with hnone | hlt
  · rw [hnone] at hsum ⊢
    split at hsum <;> omega
  · have hin : eff.target s ∈ Finset.range M := Finset.mem_range.mpr (hlt.trans_le hM)
    simpa [hin] using hsum

/-- **Step lemma** for a thread. -/
theorem potential_act {K : ℕ} (h : s.Sane) (hK : ∀ n, K ≤ n → s.points (.thread n) = .halted)
    (hst : s.stmt cfg o (s.points who) = some (eff, pt'))
    (hM : ((s.apply cfg who eff).goto who pt').size ≤ M) :
    ((s.apply cfg who eff).goto who pt').potential M K + s.work (.act who o) ≤
      s.potential M K + s.brings M (.act who o) := by
  have hsize : s.size ≤ M := (apply_size_le cfg s who eff).trans hM
  have hmoves := stmt_cases hst
  have hmine := stmt_cost who hst ((values_length_le h.members h.bounded).trans hsize)
  have hqueues := queues_cost h.bounded hmoves hsize
  have hthreads : ∑ who' ∈ crew M K, pointCost M (s.apply cfg who eff)
      (((s.apply cfg who eff).goto who pt').points who') + pointCost M s (s.points who) ≤
      ∑ who' ∈ crew M K, pointCost M s (s.points who') +
        pointCost M (s.apply cfg who eff) (((s.apply cfg who eff).goto who pt').points who) +
        eff.stirs := by
    refine sum_le_of_one (f := fun who' => pointCost M s (s.points who'))
      (g := fun who' => pointCost M (s.apply cfg who eff)
        (((s.apply cfg who eff).goto who pt').points who')) (b := .loop (eff.target s))
      (fun who' _ hw => ?_) (mem_crew h.sound hsize hK hmoves.not_halted)
    have hpt : ((s.apply cfg who eff).goto who pt').points who' =
        (s.apply cfg who eff).points who' := by simp [Sys.goto, hw]
    rw [hpt]
    exact others_cost h.sound h.own cfg who eff who'
  have hself : ((s.apply cfg who eff).goto who pt').points who = pt' := by simp [Sys.goto]
  rw [hself] at hthreads
  have hpotential := potential_same (M := M) (K := K) (s := s.apply cfg who eff)
    (t := (s.apply cfg who eff).goto who pt') rfl rfl
  rw [hpotential]
  simp only [Sys.potential, Sys.work, Sys.brings]
  omega

/-- A thread calls the pool. -/
theorem potential_start {K n : ℕ} (hn : n < K) (hhalt : s.points (.thread n) = .halted)
    (submitted : List ℕ) : ({ s.goto (.thread n) pt with submitted := submitted } : Sys).potential M K ≤
      s.potential M K + pointCost M s pt := by
  have hin : Who.thread n ∈ crew M K := by simpa [crew] using hn
  have hthreads := sum_le_of_one (f := fun who => pointCost M s (s.points who))
    (g := fun who => pointCost M s ((s.goto (.thread n) pt).points who)) (b := .thread n) (x := 0)
    (fun who _ hw => by simp [Sys.goto, hw]) hin
  have hself : (s.goto (.thread n) pt).points (.thread n) = pt := by simp [Sys.goto]
  have hnone : pointCost M s .halted = 0 := rfl
  simp only [hself, hhalt, hnone] at hthreads
  have hpotential := potential_same (M := M) (K := K) (s := s)
    (t := { s.goto (.thread n) pt with submitted := submitted }) rfl rfl
  rw [hpotential]
  simp only [Sys.potential]
  exact (Nat.add_le_add_left (by simpa using hthreads) _).trans (Nat.add_assoc _ _ _).ge

/-- Time passes, somebody fails a task, or a routing state changes. -/
theorem potential_evolves {K : ℕ} (hev : ∀ i, Task.Evolves (s.tasks i) (t.tasks i))
    (hstop : ∀ p, (t.proxies p).stop = (s.proxies p).stop)
    (hqueue : ∀ p, (t.proxies p).queue = (s.proxies p).queue) (hpoints : t.points = s.points) :
    t.potential M K ≤ s.potential M K := by
  refine Nat.add_le_add (Finset.sum_le_sum fun p _ => ?_) (Finset.sum_le_sum fun who _ => ?_)
  · unfold queueCost
    rw [hqueue]
    exact List.sum_le_sum fun b _ => batchCost_evolves hev b
  · rw [hpoints]
    refine pointCost_evolves hev fun p hp => ?_
    simp [hp, pointCost, hstop, hqueue]

/-- **Step lemma.** -/
theorem potential_step {K : ℕ} (h : s.Sane) (hK : ∀ n, K ≤ n → s.points (.thread n) = .halted)
    {e : Event} (he : e.Below K) (hs : s.step cfg e = some t) (hM : t.size ≤ M) :
    t.potential M K + s.work e ≤ s.potential M K + s.brings M e := by
  cases e with
  | act who o =>
    simp only [Sys.step, Option.map_eq_some_iff] at hs
    obtain ⟨⟨eff, pt'⟩, hst, rfl⟩ := hs
    exact potential_act h hK hst hM
  | tick d wall =>
    cases hs
    exact potential_evolves (fun _ => .refl _) (fun _ => rfl) (fun _ => rfl) rfl
  | fail i error code =>
    cases hs
    exact potential_evolves (applyCall_evolves s.tasks s.mono s.wall (some (i, .markFailed error code)))
      (fun _ => rfl) (fun _ => rfl) rfl
  | route p state =>
    cases hs
    exact potential_evolves (fun _ => .refl _) (fun q => (route_same s p state q).2.1)
      (fun q => (route_same s p state q).1) rfl
  | submit n batch =>
    cases step_cases hs with
    | submit hhalt =>
      refine (potential_start he hhalt _).trans (Nat.add_le_add_left ?_ _)
      have hgroup : ∀ i, 1 + groupCost M s.tasks [i] ≤ 20 * share M + handoffCost M + 4 * M + 22 := by
        intro i
        have howed : owed M (s.tasks i) ≤ handoffCost M := by
          unfold owed
          split <;> simp
        simp only [groupCost, batchCost, owedAll_cons, owedAll_nil, List.length_singleton]
        omega
      have hsum := List.sum_le_card_nsmul (batch.map fun i => 1 + groupCost M s.tasks [i]) _
        (by simpa using fun i _ => hgroup i)
      simp only [List.length_map, smul_eq_mul, Nat.mul_comm batch.length] at hsum
      simpa [pointCost, Sys.brings] using hsum
  | update n snapshot =>
    cases step_cases hs with
    | update hhalt => exact potential_start he hhalt _
  | stop n =>
    cases step_cases hs with
    | stop hhalt => exact potential_start he hhalt _

end Costs

theorem exists_below (es : List Event) : ∃ K, ∀ e ∈ es, e.Below K := by
  induction es with
  | nil => exact ⟨0, List.forall_mem_nil _⟩
  | cons e es ih =>
    obtain ⟨K, hK⟩ := ih
    have hmore : ∀ n, ∀ e ∈ es, e.Below (max K (n + 1)) := by
      intro n e he
      have hb := hK e he
      cases e <;> simp only [Event.Below] at hb ⊢ <;> omega
    cases e with
    | submit n batch => exact ⟨max K (n + 1), List.forall_mem_cons.mpr ⟨by simp [Event.Below], hmore n⟩⟩
    | update n snapshot =>
      exact ⟨max K (n + 1), List.forall_mem_cons.mpr ⟨by simp [Event.Below], hmore n⟩⟩
    | stop n => exact ⟨max K (n + 1), List.forall_mem_cons.mpr ⟨by simp [Event.Below], hmore n⟩⟩
    | _ => exact ⟨K, List.forall_mem_cons.mpr ⟨trivial, hK⟩⟩

/-- **The pool does a bounded amount of work.**  In every run from the start, whatever the threads'
interleaving, the pool executes at most as many statements, polls of empty queues aside, as the calls
and the responses of the run bring in; `t.size` is the number of proxies the run has created. -/
theorem work_bounded (cfg : Config) {s₀ t : Sys} {es : List Event} (hinit : s₀.Init)
    (hrun : exec (Sys.step cfg) s₀ es = some t) :
    total (Sys.step cfg) Sys.work s₀ es ≤ total (Sys.step cfg) (Sys.brings t.size) s₀ es := by
  obtain ⟨K, hK⟩ := exists_below es
  have hbelow : Meets (Sys.step cfg) (fun _ e => e.Below K) s₀ es :=
    meets_of_forall (fun e he _ => hK e he) s₀
  have hsize := (meets_of_end (Q := fun s => s.size ≤ t.size)
    (fun _ _ _ hs hle => (step_keepsIds hs).size.trans hle) hrun le_rfl).2
  have hbound : t.potential t.size K + total (Sys.step cfg) Sys.work s₀ es ≤
      s₀.potential t.size K + total (Sys.step cfg) (Sys.brings t.size) s₀ es :=
    exec_total (P := fun s => s.Sane ∧ ∀ n, K ≤ n → s.points (.thread n) = .halted) Sys.work
      (Sys.brings t.size) (fun _ _ _ hC h hs => ⟨h.1.step hs, halted_above h.2 hC.1 hs⟩)
      (fun _ _ _ hC h hs => potential_step h.1 h.2 hC.1 hs (hC.2 _ hs)) (meets_and hbelow hsize)
      ⟨hinit.sane, fun n _ => hinit.points _⟩ hrun
  have hzero : s₀.potential t.size K = 0 := by
    simp [Sys.potential, queueCost, (hinit.proxies _).2, hinit.points, pointCost]
  omega

/-- Two workers join, one task goes through both: the run stays far below its bound. -/
theorem work_bounded_drained : ∃ t, exec (Sys.step sampleConfig) sampleStart drainedRun = some t ∧
    total (Sys.step sampleConfig) Sys.work sampleStart drainedRun ≤
      total (Sys.step sampleConfig) (Sys.brings t.size) sampleStart drainedRun := by
  have hview : (exec (Sys.step sampleConfig) sampleStart drainedRun).isSome = true := by decide +kernel
  obtain ⟨t, ht⟩ := Option.isSome_iff_exists.mp hview
  exact ⟨t, ht, work_bounded sampleConfig sampleStart_init ht⟩

end Inference.Pool.Machine
