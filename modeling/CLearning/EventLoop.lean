import CLearning.EventQueue
import CLearning.Monitor

/-!
# The threads of `event.c`

`add_event` pushes and broadcasts under the lock, `exec_event` waits while the
queue is empty, pops, gives the lock back and acts. A thread that is created
later is one that has not moved yet.
-/

set_option autoImplicit false

namespace CLearning.EventLoop
open CLearning.EventQueue CLearning.Machine CLearning.Monitor

section Source

variable {α : Type}

/-- What `exec_event` does with the queue; it reads the event after the unlock. -/
def execPop (events : Dequeue α) : Run (Dequeue α × α) := do
  let r ← dequeuePop events
  let e ← deref r.2
  .ok (r.1, e)

def events : Buffer (Dequeue α) α α Fault := ⟨dequeueEmpty, dequeuePush, execPop⟩

end Source

section Queue

variable {α ι : Type} {dq dq' : Dequeue α} {l : List ℕ} {q : List α} {e : α}
  {log : List (Call α α ι)}

theorem dequeueEmpty_iff (h : Ring dq l q) : dequeueEmpty dq = true ↔ q = [] := by
  rw [dequeueEmpty, decide_eq_true_iff, h.size, h.length, List.length_eq_zero_iff]

theorem execPop_spec (h : Ring dq l (e :: q)) :
    ∃ dq', execPop dq = .ok (dq', e) ∧ Ring dq' l.tail q := by
  obtain ⟨dq', hpop, hr⟩ := dequeuePop_spec h
  refine ⟨dq', ?_, hr⟩
  rw [execPop, hpop]
  rfl

/-- What was put in is what was taken out and what is queued, in this order. -/
theorem runs_ring (h : Runs events (dequeueCreate : Dequeue α) log dq) :
    ∃ l q, Ring dq l q ∧ log.filterMap Call.offered = log.filterMap Call.taken ++ q := by
  induction h with
  | nil => exact ⟨[], [], dequeueCreate_ring, rfl⟩
  | put i a _ hp ih =>
    obtain ⟨l, q, hr, hq⟩ := ih
    have hpush : dequeuePush _ a = .ok _ := hp
    have hspec := dequeuePush_spec hr a
    split at hspec
    · rw [hspec] at hpush
      exact absurd hpush nofun
    · obtain ⟨dq', hdq', hr'⟩ := hspec
      rw [hpush] at hdq'
      rw [← Except.ok.inj hdq'] at hr'
      refine ⟨_, q ++ [a], hr', ?_⟩
      simp [Call.offered, Call.taken, hq]
  | take i x _ he ht ih =>
    obtain ⟨l, q, hr, hq⟩ := ih
    have hpop : execPop _ = .ok _ := ht
    cases q with
    | nil => exact absurd ((dequeueEmpty_iff hr).mpr rfl) (Bool.eq_false_iff.mp he)
    | cons e q =>
      obtain ⟨dq', hdq', hr'⟩ := execPop_spec hr
      rw [hpop] at hdq'
      obtain ⟨rfl, rfl⟩ := Prod.mk.inj (Except.ok.inj hdq')
      refine ⟨_, q, hr', ?_⟩
      simp [Call.offered, Call.taken, hq]

theorem dequeuePop_size {o : Option α} (h : dequeuePop dq = .ok (dq', o))
    (he : dequeueEmpty dq = false) : dq'.size < dq.size := by
  have hpos : dq.size ≠ 0 := by simpa [dequeueEmpty] using he
  rw [dequeuePop, if_neg hpos] at h
  cases hentry : (dq.nodes dq.head).next with
  | none =>
    rw [hentry] at h
    cases h
  | some entry =>
    rw [hentry, deref_some, ok_bind] at h
    split at h
    · obtain ⟨rfl, -⟩ := Prod.mk.inj (Except.ok.inj h)
      exact Nat.sub_one_lt hpos
    · cases hnext : ((dq.setNext dq.head (dq.nodes entry).next).nodes entry).next with
      | none =>
        simp only [hnext] at h
        cases h
      | some next =>
        simp only [hnext, deref_some, ok_bind] at h
        obtain ⟨rfl, -⟩ := Prod.mk.inj (Except.ok.inj h)
        exact Nat.sub_one_lt hpos

theorem dequeuePush_size (h : dequeuePush dq e = .ok dq') : dq'.size = dq.size+1 := by
  rw [dequeuePush] at h
  split at h
  · cases h
  · rw [← Except.ok.inj h]
    rfl

theorem sized : Sized (events (α := α)) Dequeue.size 1 := by
  constructor
  · intro s s' x he ht
    have hpop : execPop s = .ok (s', x) := ht
    rw [execPop] at hpop
    cases hr : dequeuePop s with
    | error f =>
      rw [hr] at hpop
      exact absurd hpop nofun
    | ok r =>
      obtain ⟨dq, o⟩ := r
      cases o with
      | none =>
        rw [hr] at hpop
        exact absurd hpop nofun
      | some e =>
        rw [hr] at hpop
        obtain ⟨rfl, -⟩ := Prod.mk.inj (Except.ok.inj hpop)
        exact dequeuePop_size hr he
  · intro s s' a hp
    exact Nat.le_of_eq (dequeuePush_size hp)

end Queue

section Threads

variable {α ι : Type} [DecidableEq ι] [Fintype ι]

/-- Once no more events are added, every order of steps comes to an end. There the lock is
free, all threads wait or are idle, and if one of them runs `exec_event`, every event that was
added has been acted on once. -/
theorem events_drained (σ : State (Dequeue α) α α ι) (hr : Reachable events dequeueCreate σ)
    (n : ℕ) (σ' : State (Dequeue α) α α ι) (h : Acts events σ n σ') :
    n ≤ effort Dequeue.size 1 σ ∧
      ((∀ σ'', ¬Act events σ' σ'') → σ'.shared.size < intMax → Parked σ' ∧
        ((∃ i, σ'.pc i = .waiting) → dequeueEmpty σ'.shared = true ∧
          (σ'.log.filterMap Call.offered : Multiset α) = ∑ i, (σ'.served i : Multiset α))) := by
  have hr' := acts_reachable hr h
  have heffort := acts_effort sized h
  obtain ⟨l, q, hring, hq⟩ := runs_ring (reachable_runs hr')
  refine ⟨by omega, fun hstuck hroom => ?_⟩
  have htake : events.empty σ'.shared = false → ∃ r, events.take σ'.shared = .ok r := by
    intro he
    cases q with
    | nil => exact absurd ((dequeueEmpty_iff hring).mpr rfl) (Bool.eq_false_iff.mp he)
    | cons e q =>
      obtain ⟨dq', hpop, -⟩ := execPop_spec hring
      exact ⟨_, hpop⟩
  have hput : ∀ a i, σ'.pc i = .put a → ∃ s, events.put σ'.shared a = .ok s := by
    intro a i _
    have hspec := dequeuePush_spec hring a
    rw [if_neg (by rw [← hring.length, ← hring.size]; omega)] at hspec
    obtain ⟨dq', hpush, -⟩ := hspec
    exact ⟨dq', hpush⟩
  obtain ⟨hparked, hempty⟩ := stuck_parked hr' hstuck htake hput
  refine ⟨hparked, fun hw => ⟨hempty hw, ?_⟩⟩
  have hnil := (dequeueEmpty_iff hring).mp (hempty hw)
  rw [hq, hnil, List.append_nil]
  exact parked_served hr' hparked

end Threads

section OneEvent

def oneEvent : State (Dequeue ℕ) ℕ ℕ (Fin 2) :=
  State.go ⟨dequeueCreate, none, ![.top, .idle], [], fun _ => []⟩ 1 (.offer 7)

/-- The first thread waits, is woken by the second one, acts and waits again. -/
theorem events_drained_one : ∃ σ', Acts events oneEvent 14 σ' ∧
    dequeueEmpty σ'.shared = true ∧
    (σ'.log.filterMap Call.offered : Multiset ℕ) = ∑ i, (σ'.served i : Multiset ℕ) := by
  have hr : Reachable events dequeueCreate oneEvent :=
    .next (.start ![.top, .idle] (Fin.forall_fin_two.mpr ⟨.inl rfl, .inr rfl⟩)) (.offer 1 7 rfl)
  have hwait := ((Acts.nil (B := events) (σ := oneEvent)).next (.want 0 rfl)).next (.lock 0 rfl rfl)
    |>.next (.wait 0 rfl rfl)
  have hadd := ((hwait.next (.acquire 1 7 rfl rfl)).next (.put 1 7 _ rfl rfl)).next
    (.broadcast 1 rfl) |>.next (.leave 1 rfl)
  have hact := ((hadd.next (.relock 0 rfl rfl)).next (.take 0 7 _ rfl rfl rfl)).next
    (.unlock 0 7 rfl) |>.next (.serve 0 7 rfl)
  have hrun := ((hact.next (.want 0 rfl)).next (.lock 0 rfl rfl)).next (.wait 0 rfl rfl)
  exact ⟨_, hrun, ((events_drained oneEvent hr 14 _ hrun).2
    (parked_stuck (Fin.forall_fin_two.mpr ⟨.inl rfl, .inr rfl⟩)) (by decide)).2 ⟨0, rfl⟩⟩

end OneEvent

end CLearning.EventLoop
