import CLearning.Machine
import CLearning.Monitor

/-!
# Producers and consumers of `demo_pthread.c`

A producer adds three to `size` and broadcasts, a consumer waits while `size`
is zero and takes one off. The counter is unsigned: what a producer adds may
carry it past its end. `monitor` creates consumers while the program runs; one
that is created later is one that has not moved yet.
-/

set_option autoImplicit false

namespace CLearning.ProducerConsumer
open CLearning.Machine CLearning.Monitor

section Source

def size : Buffer ℕ Unit Unit Fault :=
  ⟨fun size => size = 0, fun size _ => .ok ((size+3) % 2^32),
    fun size => .ok (usub 32 size 1, ())⟩

end Source

section Counter

variable {ι : Type} {log : List (Call Unit Unit ι)} {m : ℕ}

def produced (log : List (Call Unit Unit ι)) : ℕ := (log.filterMap Call.offered).length

def consumed (log : List (Call Unit Unit ι)) : ℕ := (log.filterMap Call.taken).length

/-- Nothing is lost but whole turns of the counter. -/
theorem runs_counts (h : Runs size 0 log m) :
    m < 2^32 ∧ ∃ turns, m+consumed log+turns*2^32 = 3*produced log := by
  induction h with
  | nil => exact ⟨by decide, 0, rfl⟩
  | @put log s s' i a _ hp ih =>
    obtain ⟨hlt, turns, hturns⟩ := ih
    have hs' : (s+3) % 2^32 = s' := Except.ok.inj hp
    have hput : produced (log ++ [.put i a]) = produced log+1 := by
      simp [produced, Call.offered]
    have hsame : consumed (log ++ [.put i a]) = consumed log := by
      simp [consumed, Call.taken]
    refine ⟨hs' ▸ Nat.mod_lt _ (by decide), turns+(s+3)/2^32, ?_⟩
    have hdiv := Nat.div_add_mod (s+3) (2^32)
    rw [hput, hsame]
    omega
  | @take log s s' i x _ he ht ih =>
    obtain ⟨hlt, turns, hturns⟩ := ih
    have hpos : s ≠ 0 := by simpa [size] using he
    have hs' : usub 32 s 1 = s' := (Prod.mk.inj (Except.ok.inj ht)).1
    rw [usub_of_le (Nat.one_le_iff_ne_zero.mpr hpos) hlt] at hs'
    have hsame : produced (log ++ [.take i x]) = produced log := by
      simp [produced, Call.offered]
    have htake : consumed (log ++ [.take i x]) = consumed log+1 := by
      simp [consumed, Call.taken]
    refine ⟨by omega, turns, ?_⟩
    rw [hsame, htake]
    omega

theorem sized : Sized size id 3 := by
  constructor
  · intro s s' x he ht
    have hpos : s ≠ 0 := by simpa [size] using he
    have hs' : usub 32 s 1 = s' := (Prod.mk.inj (Except.ok.inj ht)).1
    rw [usub] at hs'
    change s' < s
    omega
  · intro s s' a hp
    have hs' : (s+3) % 2^32 = s' := Except.ok.inj hp
    change s' ≤ s+3
    omega

end Counter

section Threads

variable {ι : Type} [DecidableEq ι] [Fintype ι]

/-- Once nobody starts to produce, every order of steps comes to an end. There the lock is
free, all threads wait or are between two rounds, and if one of them is a consumer, the counter
is zero: all that was produced has been consumed, up to whole turns of the counter. -/
theorem size_drained (σ : State ℕ Unit Unit ι) (hr : Reachable size 0 σ) (n : ℕ)
    (σ' : State ℕ Unit Unit ι) (h : Acts size σ n σ') :
    n ≤ effort id 3 σ ∧ σ'.shared < 2^32 ∧
      (∃ turns, σ'.shared+consumed σ'.log+turns*2^32 = 3*produced σ'.log) ∧
      ((∀ σ'', ¬Act size σ' σ'') → Parked σ' ∧ ((∃ i, σ'.pc i = .waiting) → σ'.shared = 0 ∧
        consumed σ'.log = ∑ i, (σ'.served i).length)) := by
  have hr' := acts_reachable hr h
  have heffort := acts_effort sized h
  obtain ⟨hlt, hturns⟩ := runs_counts (reachable_runs hr')
  refine ⟨by omega, hlt, hturns, fun hstuck => ?_⟩
  obtain ⟨hparked, hempty⟩ := stuck_parked hr' hstuck (fun _ => ⟨_, rfl⟩) fun _ _ _ => ⟨_, rfl⟩
  refine ⟨hparked, fun hw => ⟨by simpa [size] using hempty hw, ?_⟩⟩
  have hserved := congrArg Multiset.card (parked_served hr' hparked)
  simpa [consumed] using hserved

end Threads

section OneRound

def oneRound : State ℕ Unit Unit (Fin 2) :=
  ⟨0, none, ![.top, .offer ()], [], fun _ => []⟩

/-- The consumer waits, is woken, and waits again after three rounds. -/
theorem size_drained_one : ∃ σ', Acts size oneRound 24 σ' ∧ Parked σ' ∧ σ'.shared = 0 ∧
    consumed σ'.log = ∑ i, (σ'.served i).length := by
  have hoffer : State.go ⟨0, none, ![.top, .idle], [], fun _ => []⟩ 1 (.offer ()) = oneRound := by
    rw [State.go, oneRound]
    exact congrArg (State.mk 0 none · [] fun _ => []) (funext (Fin.forall_fin_two.mpr ⟨rfl, rfl⟩))
  have hr : Reachable size 0 oneRound := hoffer ▸
    .next (.start ![.top, .idle] (Fin.forall_fin_two.mpr ⟨.inl rfl, .inr rfl⟩)) (.offer 1 () rfl)
  have hwait := ((Acts.nil (B := size) (σ := oneRound)).next (.want 0 rfl)).next (.lock 0 rfl rfl)
    |>.next (.wait 0 rfl rfl)
  have hadd := ((hwait.next (.acquire 1 () rfl rfl)).next (.put 1 () _ rfl rfl)).next
    (.broadcast 1 rfl) |>.next (.leave 1 rfl)
  have hfirst := ((hadd.next (.relock 0 rfl rfl)).next (.take 0 () _ rfl rfl rfl)).next
    (.unlock 0 () rfl) |>.next (.serve 0 () rfl)
  have hsecond := (((hfirst.next (.want 0 rfl)).next (.lock 0 rfl rfl)).next
    (.take 0 () _ rfl rfl rfl)).next (.unlock 0 () rfl) |>.next (.serve 0 () rfl)
  have hthird := (((hsecond.next (.want 0 rfl)).next (.lock 0 rfl rfl)).next
    (.take 0 () _ rfl rfl rfl)).next (.unlock 0 () rfl) |>.next (.serve 0 () rfl)
  have hrun := ((hthird.next (.want 0 rfl)).next (.lock 0 rfl rfl)).next (.wait 0 rfl rfl)
  obtain ⟨hparked, hempty⟩ := (size_drained oneRound hr 24 _ hrun).2.2.2
    (parked_stuck (Fin.forall_fin_two.mpr ⟨.inl rfl, .inr rfl⟩))
  exact ⟨_, hrun, hparked, hempty ⟨0, rfl⟩⟩

end OneRound

end CLearning.ProducerConsumer
