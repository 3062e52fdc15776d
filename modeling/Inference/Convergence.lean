import Inference.Discovery
import Inference.Lib.Potential

/-!
# Inference.Convergence — discovery settles

What the refresh thread of `WorkerDiscovery` has still to do while ZooKeeper stays as it is and
answers: callbacks, reconnections and `stop` may go on waking it.

* `Calm`: the events of such a time.
* `remaining`: the statements that the thread has still to execute; every statement takes one away,
  and a wakeup adds those of one refresh.
* `enabled`: the thread can go on unless it waits with its flag clear, or has exited.
* **`discovery_settles`**: the thread executes finitely many statements, and when it can do no more
  its last snapshot is the membership.
-/

namespace Inference.Discovery.Sys

open Inference.Lib

/-- The znodes stay as they are and ZooKeeper answers. -/
def Calm : Event → Prop
  | .create _ _ | .setData _ _ | .delete _ => False
  | .run io => io.fails = false
  | _ => True

/-- The thread executes a statement. -/
def runs : Event → Bool
  | .run _ => true
  | _ => false

/-- The wakeup flag may be set. -/
def wakes : Event → Bool
  | .callback _ | .connected | .stopWake => true
  | _ => false

/-- The statements of a refresh of `n` workers, from the moment the thread is woken until it waits. -/
def refresh (n : ℕ) : ℕ := 3 * n + 11

/-- The statements from a program point until the thread waits, with `n` znodes. -/
def statements (n : ℕ) : Pc → ℕ
  | .top => 1
  | .wait => 0
  | .clear => 3 * n + 10
  | .check => 3 * n + 9
  | .list => 3 * n + 8
  | .watch children rest => 2 * rest.length + children.length + 7
  | .install children _ rest => 2 * rest.length + children.length + 8
  | .read rest _ => rest.length + 6
  | .stopped _ => 5
  | .store _ => 4
  | .compare _ => 3
  | .commit _ => 2
  | .raised => refresh n + 3
  | .rewake => refresh n + 2
  | .exited => 0

/-- A flag that is set costs another refresh, unless the thread is about to clear it. -/
def owed (s : Sys) : ℕ :=
  if s.wakeup = true ∧ s.pc ≠ .clear then refresh s.nodes.length else 0

/-- What the thread has still to execute. -/
def remaining (s : Sys) : ℕ := statements s.nodes.length s.pc + s.owed

/-- Every znode holds a registration. -/
def Valid (repr : String → String) (s : Sys) : Prop :=
  ∀ wid data, Dict.get? wid s.nodes = some data → (parseWorker repr data).isSome = true

section Steps

variable {repr : String → String} {s t : Sys}

theorem owed_le (s : Sys) : s.owed ≤ refresh s.nodes.length := by
  unfold owed
  split
  · exact le_rfl
  · exact Nat.zero_le _

/-- Besides its own statements nothing moves the thread. -/
theorem calm_aside {e : Event} (he : Calm e) (hr : runs e = false) (hs : s.step repr e = some t) :
    t.nodes = s.nodes ∧ t.pc = s.pc ∧ (t.wakeup = true → s.wakeup = true ∨ wakes e = true) := by
  cases e with
  | create wid data | setData wid data | delete wid => exact absurd he id
  | callback w =>
    simp only [Sys.step] at hs
    split at hs
    · obtain rfl := Option.some.inj hs
      exact ⟨rfl, rfl, fun _ => .inr rfl⟩
    · cases hs
  | connected =>
    obtain rfl := Option.some.inj hs
    exact ⟨rfl, rfl, fun _ => .inr rfl⟩
  | stopFlag =>
    obtain rfl := Option.some.inj hs
    exact ⟨rfl, rfl, .inl⟩
  | stopWake =>
    simp only [Sys.step] at hs
    split at hs
    · obtain rfl := Option.some.inj hs
      exact ⟨rfl, rfl, fun _ => .inr rfl⟩
    · cases hs
  | run io => cases hr

/-- A point the thread goes to without touching its flag. -/
theorem remaining_lt (hn : t.nodes = s.nodes) (hw : t.wakeup = s.wakeup) (hclear : s.pc ≠ .clear)
    (hlt : statements s.nodes.length t.pc < statements s.nodes.length s.pc) :
    t.remaining < s.remaining := by
  have howed : t.owed ≤ s.owed := by
    unfold owed
    rw [hn, hw]
    by_cases hwake : s.wakeup = true
    · rw [if_pos (c := s.wakeup = true ∧ s.pc ≠ .clear) ⟨hwake, hclear⟩]
      split
      · exact le_rfl
      · exact Nat.zero_le _
    · rw [if_neg (fun h => hwake h.1)]
      exact Nat.zero_le _
  unfold remaining
  rw [hn]
  omega

/-- **Every statement counts.** -/
theorem advance_remaining (hvalid : s.Valid repr) {io : Io} (hio : io.fails = false)
    (h : s.advance repr io = some t) : t.nodes = s.nodes ∧ t.remaining < s.remaining := by
  unfold Sys.advance at h
  cases hpc : s.pc with
  | top =>
    rw [hpc] at h
    obtain rfl := Option.some.inj h
    refine ⟨rfl, remaining_lt rfl rfl (by simp [hpc]) ?_⟩
    rw [hpc]
    split <;> simp [statements]
  | wait =>
    rw [hpc] at h
    dsimp only at h
    split at h
    next hwake =>
      obtain rfl := Option.some.inj h
      refine ⟨rfl, ?_⟩
      simp only [remaining, owed, hpc, hwake, statements, refresh]
      simp
    next => cases h
  | clear =>
    rw [hpc] at h
    obtain rfl := Option.some.inj h
    refine ⟨rfl, ?_⟩
    simp only [remaining, owed, hpc, statements]
    simp
  | check =>
    rw [hpc] at h
    obtain rfl := Option.some.inj h
    refine ⟨rfl, remaining_lt rfl rfl (by simp [hpc]) ?_⟩
    rw [hpc]
    split <;> simp [statements]
  | list =>
    rw [hpc] at h
    dsimp only at h
    rw [if_neg (by simp [hio])] at h
    split at h
    next hperm =>
      obtain rfl := Option.some.inj h
      refine ⟨rfl, remaining_lt rfl rfl (by simp [hpc]) ?_⟩
      have hlen : io.children.length = s.nodes.length := by simpa using hperm.length_eq
      simp only [hpc, statements, begin]
      omega
    next => cases h
  | watch children rest =>
    rw [hpc] at h
    cases rest with
    | nil =>
      obtain rfl := Option.some.inj h
      exact ⟨rfl, remaining_lt rfl rfl (by simp [hpc]) (by simp [hpc, statements])⟩
    | cons wid rest =>
      obtain rfl := Option.some.inj h
      split
      · exact ⟨rfl, remaining_lt rfl rfl (by simp [hpc]) (by simp [hpc, statements, finished])⟩
      · refine ⟨rfl, remaining_lt rfl rfl (by simp [hpc]) ?_⟩
        rw [hpc]
        split <;> simp only [statements, List.length_cons] <;> omega
  | install children wid rest =>
    rw [hpc] at h
    obtain rfl := Option.some.inj h
    rw [if_neg (by simp [hio])]
    exact ⟨rfl, remaining_lt rfl rfl (by simp [hpc]) (by simp [hpc, statements])⟩
  | read rest workers =>
    rw [hpc] at h
    cases rest with
    | nil =>
      obtain rfl := Option.some.inj h
      exact ⟨rfl, remaining_lt rfl rfl (by simp [hpc]) (by simp [hpc, statements])⟩
    | cons wid rest =>
      dsimp only at h
      rw [if_neg (by simp [hio])] at h
      split at h
      · obtain rfl := Option.some.inj h
        exact ⟨rfl, remaining_lt rfl rfl (by simp [hpc]) (by simp [hpc, statements])⟩
      next data hdata =>
        split at h
        next hnone =>
          -- every znode can be read
          have hsome := hvalid wid data hdata
          rw [hnone] at hsome
          cases hsome
        next info hinfo =>
          obtain rfl := Option.some.inj h
          exact ⟨rfl, remaining_lt rfl rfl (by simp [hpc]) (by simp [hpc, statements])⟩
  | stopped workers =>
    rw [hpc] at h
    obtain rfl := Option.some.inj h
    split
    · exact ⟨rfl, remaining_lt rfl rfl (by simp [hpc]) (by simp [hpc, statements, finished])⟩
    · exact ⟨rfl, remaining_lt rfl rfl (by simp [hpc]) (by simp [hpc, statements])⟩
  | store workers =>
    rw [hpc] at h
    obtain rfl := Option.some.inj h
    exact ⟨rfl, remaining_lt rfl rfl (by simp [hpc]) (by simp [hpc, statements])⟩
  | compare workers =>
    rw [hpc] at h
    obtain rfl := Option.some.inj h
    split
    · exact ⟨rfl, remaining_lt rfl rfl (by simp [hpc]) (by simp [hpc, statements, finished])⟩
    · exact ⟨rfl, remaining_lt rfl rfl (by simp [hpc]) (by simp [hpc, statements, onChange])⟩
  | commit workers =>
    rw [hpc] at h
    obtain rfl := Option.some.inj h
    exact ⟨rfl, remaining_lt rfl rfl (by simp [hpc]) (by simp [hpc, statements, finished])⟩
  | raised =>
    rw [hpc] at h
    obtain rfl := Option.some.inj h
    split
    · refine ⟨rfl, ?_⟩
      have howed := owed_le ({ s with stop := true, wakeup := true, pc := .exited } : Sys)
      simp only [remaining, hpc, statements] at howed ⊢
      omega
    · refine ⟨rfl, remaining_lt rfl rfl (by simp [hpc]) ?_⟩
      rw [hpc]
      split <;> simp [statements]
  | rewake =>
    rw [hpc] at h
    obtain rfl := Option.some.inj h
    refine ⟨rfl, ?_⟩
    have howed := owed_le ({ s with wakeup := true, pc := .top } : Sys)
    simp only [remaining, hpc, statements] at howed ⊢
    omega
  | exited =>
    rw [hpc] at h
    cases h

/-- **Step lemma.** -/
theorem step_remaining (hvalid : s.Valid repr) {e : Event} (he : Calm e)
    (hs : s.step repr e = some t) : t.nodes = s.nodes ∧
      t.remaining + (runs e).toNat ≤ s.remaining + if wakes e then refresh s.nodes.length else 0 := by
  cases hr : runs e with
  | true =>
    cases e with
    | run io =>
      obtain ⟨hn, hlt⟩ := advance_remaining hvalid he hs
      refine ⟨hn, ?_⟩
      rw [Bool.toNat_true]
      omega
    | _ => cases hr
  | false =>
    obtain ⟨hn, hpc, hwake⟩ := calm_aside he hr hs
    refine ⟨hn, ?_⟩
    have howed : t.owed ≤ s.owed + if wakes e then refresh s.nodes.length else 0 := by
      cases hw : wakes e with
      | true =>
        have := t.owed_le
        rw [hn] at this
        rw [if_pos rfl]
        omega
      | false =>
        unfold owed
        rw [hn, hpc]
        by_cases hold : t.wakeup = true ∧ s.pc ≠ .clear
        · have hs : s.wakeup = true := (hwake hold.1).resolve_right (by simp [hw])
          rw [if_pos hold, if_pos ⟨hs, hold.2⟩]
          exact Nat.le_add_right _ _
        · rw [if_neg hold]
          exact Nat.zero_le _
    unfold remaining
    rw [hn, hpc, Bool.toNat_false]
    omega

/-- The thread can go on, unless it waits for its flag or has exited. -/
theorem enabled (repr : String → String) (hwait : s.pc = .wait → s.wakeup = true)
    (hexit : s.pc ≠ .exited) :
    ∃ io, io.fails = false ∧ (s.advance repr io).isSome = true := by
  refine ⟨{ children := s.nodes.map Prod.fst }, rfl, ?_⟩
  unfold Sys.advance
  cases hpc : s.pc with
  | wait =>
    dsimp only
    rw [if_pos (hwait hpc)]
    rfl
  | exited => exact absurd hpc hexit
  | list => simp
  | watch children rest => cases rest <;> rfl
  | read rest workers =>
    cases rest with
    | nil => rfl
    | cons wid rest =>
      dsimp only
      split
      · rfl
      · split
        · rfl
        · split <;> rfl
  | _ => rfl

/-- The thread exits when the discovery is stopped. -/
theorem advance_exited {io : Io} (h : s.advance repr io = some t) (ht : t.pc = .exited) :
    t.stop = true := by
  unfold Sys.advance at h
  cases hpc : s.pc with
  | top =>
    rw [hpc] at h
    obtain rfl := Option.some.inj h
    dsimp only at ht
    split at ht
    · assumption
    · cases ht
  | check =>
    rw [hpc] at h
    obtain rfl := Option.some.inj h
    dsimp only at ht
    split at ht
    · assumption
    · cases ht
  | raised =>
    rw [hpc] at h
    obtain rfl := Option.some.inj h
    split at ht
    · rw [if_pos ‹_›]
    · dsimp only at ht
      split at ht <;> cases ht
  | wait | list =>
    rw [hpc] at h
    dsimp only at h
    repeat' split at h
    all_goals cases h <;> cases ht
  | watch children rest =>
    rw [hpc] at h
    cases rest with
    | nil =>
      obtain rfl := Option.some.inj h
      cases ht
    | cons wid rest =>
      obtain rfl := Option.some.inj h
      split at ht
      · cases ht
      · dsimp only at ht
        split at ht <;> cases ht
  | read rest workers =>
    rw [hpc] at h
    cases rest with
    | nil =>
      obtain rfl := Option.some.inj h
      cases ht
    | cons wid rest =>
      dsimp only at h
      repeat' split at h
      all_goals
        cases h
        cases ht
  | install | stopped | compare =>
    rw [hpc] at h
    obtain rfl := Option.some.inj h
    split at ht
    all_goals cases ht
  | clear | store | commit | rewake =>
    rw [hpc] at h
    obtain rfl := Option.some.inj h
    cases ht
  | exited =>
    rw [hpc] at h
    cases h

theorem step_exited {e : Event} (h : s.pc = .exited → s.stop = true) (hs : s.step repr e = some t)
    (ht : t.pc = .exited) : t.stop = true := by
  cases e with
  | run io => exact advance_exited hs ht
  | create | setData | delete | callback | stopWake =>
    simp only [Sys.step] at hs
    split at hs
    all_goals
      cases hs
      try exact h ht
  | connected =>
    cases hs
    exact h ht
  | stopFlag =>
    cases hs
    rfl

/-- **Discovery settles.**  From any reachable state, while ZooKeeper stays as it is, answers, and
holds registrations only: the refresh thread executes at most the statements that were left to it and
those of one refresh for each wakeup, whoever else does what and in whatever order.  And when it can
do no more, is not stopped and no callback is pending, it waits, and its last call of `on_change` was
made with the membership. -/
theorem discovery_settles (repr : String → String) {s₀ s t : Sys} {es₀ es : List Event}
    (hinit : s₀.Init) (hreach : exec (step repr) s₀ es₀ = some s) (hvalid : s.Valid repr)
    (hcalm : ∀ e ∈ es, Calm e) (hrun : exec (step repr) s es = some t) :
    es.countP runs ≤ s.remaining + refresh s.nodes.length * es.countP wakes ∧
    t.nodes = s.nodes ∧
    (t.stop = false → t.pending = [] → (∀ io, io.fails = false → t.advance repr io = none) →
      t.pc = .wait ∧ ∃ c older, t.calls = c :: older ∧ t.Matches repr c.snapshot) := by
  have hmeets : Meets (step repr) (fun _ e => Calm e) s es :=
    meets_of_forall (fun e he _ => hcalm e he) s
  have hkept : ∀ m e m', Calm e → m.nodes = s.nodes → step repr m e = some m' →
      m'.nodes = s.nodes ∧ m'.remaining + (runs e).toNat ≤
        m.remaining + if wakes e then refresh s.nodes.length else 0 := by
    intro m e m' he hm hs
    have hvm : m.Valid repr := by
      unfold Valid
      rw [hm]
      exact hvalid
    obtain ⟨hn, hle⟩ := step_remaining hvm he hs
    rw [hm] at hle
    exact ⟨hn.trans hm, hle⟩
  have hbound := exec_potential (P := fun m => m.nodes = s.nodes)
    (fun m e m' he hm hs => (hkept m e m' he hm hs).1)
    (fun m e m' he hm hs => (hkept m e m' he hm hs).2) hmeets rfl hrun
  refine ⟨le_trans (Nat.le_add_left _ _) hbound,
    exec_inv_meets (fun m e m' he hm hs => (hkept m e m' he hm hs).1) hmeets rfl hrun, ?_⟩
  intro hstop hpending hstuck
  have hreach' := exec_append.mpr ⟨s, hreach, hrun⟩
  have hexit : t.pc ≠ .exited := by
    intro hpc
    have hstopped := exec_inv (P := fun s => s.pc = .exited → s.stop = true)
      (fun _ _ _ h hs => step_exited h hs) (by simp [hinit.pc]) hreach' hpc
    rw [hstopped] at hstop
    cases hstop
  have hidle : t.pc = .wait ∧ t.wakeup = false := by
    by_contra hno
    have hawake : t.pc = .wait → t.wakeup = true := by
      intro hpc
      by_contra hw
      exact hno ⟨hpc, by simpa using hw⟩
    obtain ⟨io, hio, hsome⟩ := enabled repr hawake hexit
    rw [hstuck io hio] at hsome
    cases hsome
  exact ⟨hidle.1, (discovery_sound repr hinit hreach').1 hidle.1 hstop hidle.2 hpending⟩

/-! A second worker has registered while the constructor published the first. -/

/-- Up to the callback, and from there on. -/
def beforeCallback : List Event := sampleRun.take 12

def fromCallback : List Event := sampleRun.drop 12

theorem discovery_settles_sample : ∃ s t, exec (step id) sampleStart beforeCallback = some s ∧
    exec (step id) s fromCallback = some t ∧
    fromCallback.countP runs ≤ s.remaining + refresh s.nodes.length * fromCallback.countP wakes ∧
    t.pc = .wait ∧ ∃ c older, t.calls = c :: older ∧ t.Matches id c.snapshot := by
  have hview : ((exec (step id) sampleStart beforeCallback).bind fun s =>
      (exec (step id) s fromCallback).map fun t =>
        (s.nodes, t.pc, [t.stop, t.wakeup, !t.pending.isEmpty])) =
      some ([("a", [97, 58, 49]), ("b", [98, 58, 50])], .wait, [false, false, false]) := by
    decide +kernel
  obtain ⟨s, hs, hmap⟩ := Option.bind_eq_some_iff.mp hview
  obtain ⟨t, ht, hv⟩ := Option.map_eq_some_iff.mp hmap
  simp only [Prod.mk.injEq, List.cons.injEq, and_true, Bool.not_eq_false', List.isEmpty_iff] at hv
  obtain ⟨hnodes, hpc, hstop, hwake, hpending⟩ := hv
  have hvalid : s.Valid id := by
    intro wid data hget
    have hmem := Dict.mem_of_get? hget
    rw [hnodes] at hmem
    simp only [List.mem_cons, Prod.mk.injEq, List.not_mem_nil, or_false] at hmem
    rcases hmem with ⟨-, rfl⟩ | ⟨-, rfl⟩ <;> decide +kernel
  have hcalm : ∀ e ∈ fromCallback, Calm e := by
    intro e he
    simp only [fromCallback, sampleRun, List.cons_append, List.nil_append, List.drop_succ_cons,
      List.drop_zero, List.mem_cons, List.mem_replicate] at he
    rcases he with rfl | rfl | rfl | rfl | rfl | ⟨-, rfl⟩
    · trivial
    all_goals rfl
  have hinit : sampleStart.Init :=
    ⟨rfl, rfl, rfl, rfl, rfl, rfl, rfl, rfl, by simp [sampleStart, Dict.Keys]⟩
  obtain ⟨hbound, -, hsettled⟩ := discovery_settles id hinit hs hvalid hcalm ht
  refine ⟨s, t, hs, ht, hbound, hsettled hstop hpending fun io _ => ?_⟩
  simp [Sys.advance, hpc, hwake]

end Steps

end Inference.Discovery.Sys
