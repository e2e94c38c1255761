import Mathlib.Algebra.BigOperators.Fin
import Mathlib.Algebra.Order.BigOperators.Group.Finset
import Mathlib.Data.Fintype.Card

/-!
# A monitor

Threads share a buffer under one lock with one condition variable. A consumer
waits while the buffer is empty; a producer puts something in, wakes everybody
who waits and leaves. A step is one action of one thread, and a consumer may
also wake unasked. What the buffer does is a parameter.
-/

set_option autoImplicit false

namespace CLearning.Monitor

section Threads

structure Buffer (S α β ε : Type) where
  empty : S → Bool
  put : S → α → Except ε S
  take : S → Except ε (S × β)

inductive Pc (α β : Type) where
  | top
  | locking
  | check
  | waiting
  | woken
  | taken (x : β)
  | serve (x : β)
  | idle
  | offer (a : α)
  | put (a : α)
  | notify
  | leave

inductive Call (α β ι : Type) where
  | put (i : ι) (a : α)
  | take (i : ι) (x : β)

structure State (S α β ι : Type) where
  shared : S
  lock : Option ι
  pc : ι → Pc α β
  log : List (Call α β ι)
  served : ι → List β

variable {S α β ε ι : Type} [DecidableEq ι]

def State.go (σ : State S α β ι) (i : ι) (pc : Pc α β) : State S α β ι :=
  { σ with pc := Function.update σ.pc i pc }

def Pc.awaken : Pc α β → Pc α β
  | .waiting => .woken
  | pc => pc

/-- What the threads do once they have been given something to do. -/
inductive Act (B : Buffer S α β ε) (σ : State S α β ι) : State S α β ι → Prop where
  | want (i : ι) : σ.pc i = .top → Act B σ (σ.go i .locking)
  | lock (i : ι) : σ.pc i = .locking → σ.lock = none →
      Act B σ { σ.go i .check with lock := some i }
  | relock (i : ι) : σ.pc i = .woken → σ.lock = none →
      Act B σ { σ.go i .check with lock := some i }
  | wait (i : ι) : σ.pc i = .check → B.empty σ.shared = true →
      Act B σ { σ.go i .waiting with lock := none }
  | take (i : ι) (x : β) (s : S) : σ.pc i = .check → B.empty σ.shared = false →
      B.take σ.shared = .ok (s, x) →
      Act B σ { σ.go i (.taken x) with shared := s, log := σ.log ++ [.take i x] }
  | unlock (i : ι) (x : β) : σ.pc i = .taken x → Act B σ { σ.go i (.serve x) with lock := none }
  | serve (i : ι) (x : β) : σ.pc i = .serve x →
      Act B σ { σ.go i .top with served := Function.update σ.served i (σ.served i ++ [x]) }
  | acquire (i : ι) (a : α) : σ.pc i = .offer a → σ.lock = none →
      Act B σ { σ.go i (.put a) with lock := some i }
  | put (i : ι) (a : α) (s : S) : σ.pc i = .put a → B.put σ.shared a = .ok s →
      Act B σ { σ.go i .notify with shared := s, log := σ.log ++ [.put i a] }
  | broadcast (i : ι) : σ.pc i = .notify →
      Act B σ { σ with pc := fun j => (Function.update σ.pc i .leave j).awaken }
  | leave (i : ι) : σ.pc i = .leave → Act B σ { σ.go i .idle with lock := none }

inductive Step (B : Buffer S α β ε) (σ : State S α β ι) : State S α β ι → Prop where
  | act (σ' : State S α β ι) : Act B σ σ' → Step B σ σ'
  | offer (i : ι) (a : α) : σ.pc i = .idle → Step B σ (σ.go i (.offer a))
  | wake (i : ι) : σ.pc i = .waiting → Step B σ (σ.go i .woken)

inductive Reachable (B : Buffer S α β ε) (s₀ : S) : State S α β ι → Prop where
  | start (pc : ι → Pc α β) : (∀ i, pc i = .top ∨ pc i = .idle) →
      Reachable B s₀ ⟨s₀, none, pc, [], fun _ => []⟩
  | next {σ σ' : State S α β ι} : Reachable B s₀ σ → Step B σ σ' → Reachable B s₀ σ'

end Threads

section Mutex

variable {S α β ε ι : Type} {B : Buffer S α β ε} {s₀ : S} {σ σ' : State S α β ι} {i : ι}
  {c : Pc α β}

def Pc.holds : Pc α β → Bool
  | .check => true
  | .taken _ => true
  | .put _ => true
  | .notify => true
  | .leave => true
  | _ => false

def Mutex (σ : State S α β ι) : Prop := ∀ i, (σ.pc i).holds = true ↔ σ.lock = some i

theorem mutex_same (h : Mutex σ) (hl : σ'.lock = σ.lock)
    (hpc : ∀ j, (σ'.pc j).holds = (σ.pc j).holds) : Mutex σ' := by
  intro j
  rw [hpc, hl]
  exact h j

theorem holds_awaken (c : Pc α β) : c.awaken.holds = c.holds := by
  cases c <;> rfl

variable [DecidableEq ι]

theorem holds_update {pc : ι → Pc α β} (hc : c.holds = (pc i).holds) (j : ι) :
    (Function.update pc i c j).holds = (pc j).holds := by
  by_cases hj : j = i
  · rw [hj, Function.update_self, hc]
  · rw [Function.update_of_ne hj]

theorem mutex_acquire (h : Mutex σ) (hn : σ.lock = none) (hc : c.holds = true) :
    Mutex { σ.go i c with lock := some i } := by
  intro j
  by_cases hj : j = i
  · simp [State.go, hj, hc]
  · have hfree := h j
    rw [hn] at hfree
    simpa [State.go, Function.update_of_ne hj, Ne.symm hj] using hfree

theorem mutex_release (h : Mutex σ) (hi : (σ.pc i).holds = true) (hc : c.holds = false) :
    Mutex { σ.go i c with lock := none } := by
  have hlock := (h i).mp hi
  intro j
  by_cases hj : j = i
  · simp [State.go, hj, hc]
  · have hother := h j
    rw [hlock] at hother
    simpa [State.go, Function.update_of_ne hj, Ne.symm hj] using hother

theorem act_mutex (h : Mutex σ) (ha : Act B σ σ') : Mutex σ' := by
  have hsame {i : ι} {pc : Pc α β} (c : Pc α β) (hpc : σ.pc i = pc) (hc : c.holds = pc.holds) (j : ι) :
      (Function.update σ.pc i c j).holds = (σ.pc j).holds :=
    holds_update (hc.trans (congrArg Pc.holds hpc.symm)) j
  have hold {i : ι} {pc : Pc α β} (hpc : σ.pc i = pc) (hc : pc.holds = true) :
      (σ.pc i).holds = true := by rw [hpc, hc]
  cases ha with
  | want i hpc => exact mutex_same h rfl (hsame _ hpc rfl)
  | lock i hpc hn => exact mutex_acquire h hn rfl
  | relock i hpc hn => exact mutex_acquire h hn rfl
  | wait i hpc he => exact mutex_release h (hold hpc rfl) rfl
  | take i x s hpc he ht => exact mutex_same h rfl (hsame _ hpc rfl)
  | unlock i x hpc => exact mutex_release h (hold hpc rfl) rfl
  | serve i x hpc => exact mutex_same h rfl (hsame _ hpc rfl)
  | acquire i a hpc hn => exact mutex_acquire h hn rfl
  | put i a s hpc hp => exact mutex_same h rfl (hsame _ hpc rfl)
  | broadcast i hpc =>
    exact mutex_same h rfl fun j => (holds_awaken _).trans (hsame .leave hpc rfl j)
  | leave i hpc => exact mutex_release h (hold hpc rfl) rfl

theorem step_mutex (h : Mutex σ) (hs : Step B σ σ') : Mutex σ' := by
  cases hs with
  | act _ ha => exact act_mutex h ha
  | offer i a hpc => exact mutex_same h rfl (holds_update (by rw [hpc]; rfl))
  | wake i hpc => exact mutex_same h rfl (holds_update (by rw [hpc]; rfl))

theorem reachable_mutex (h : Reachable B s₀ σ) : Mutex σ := by
  induction h with
  | start pc hpc =>
    intro i
    rcases hpc i with hi | hi
    · simp [hi, Pc.holds]
    · simp [hi, Pc.holds]
  | next _ hs ih => exact step_mutex ih hs

end Mutex

section Order

variable {S α β ε ι : Type} {B : Buffer S α β ε} {s₀ s : S} {log : List (Call α β ι)}

inductive Runs (B : Buffer S α β ε) (s₀ : S) : List (Call α β ι) → S → Prop where
  | nil : Runs B s₀ [] s₀
  | put {log : List (Call α β ι)} {s s' : S} (i : ι) (a : α) : Runs B s₀ log s →
      B.put s a = .ok s' → Runs B s₀ (log ++ [.put i a]) s'
  | take {log : List (Call α β ι)} {s s' : S} (i : ι) (x : β) : Runs B s₀ log s →
      B.empty s = false → B.take s = .ok (s', x) → Runs B s₀ (log ++ [.take i x]) s'

def Call.offered : Call α β ι → Option α
  | .put _ a => some a
  | .take _ _ => none

def Call.taken : Call α β ι → Option β
  | .put _ _ => none
  | .take _ x => some x

variable [DecidableEq ι] {σ σ' : State S α β ι} {i j : ι}

def Call.takenBy (i : ι) : Call α β ι → Option β
  | .put _ _ => none
  | .take j x => if j = i then some x else none

/-- The threads do to the buffer what one thread does that makes the calls in the order in
which the lock was taken. -/
theorem reachable_runs (h : Reachable B s₀ σ) : Runs B s₀ σ.log σ.shared := by
  induction h with
  | start => exact .nil
  | next _ hs ih =>
    cases hs with
    | act _ ha =>
      cases ha with
      | take i x s hpc he ht => exact .take i x ih he ht
      | put i a s hpc hp => exact .put i a ih hp
      | _ => exact ih
    | _ => exact ih

def Pc.hand : Pc α β → List β
  | .taken x => [x]
  | .serve x => [x]
  | _ => []

/-- Every thread serves what it takes, once and in this order. -/
def Serves (σ : State S α β ι) : Prop :=
  ∀ i, σ.log.filterMap (Call.takenBy i) = σ.served i ++ (σ.pc i).hand

theorem hand_awaken (c : Pc α β) : c.awaken.hand = c.hand := by
  cases c <;> rfl

theorem hand_update {pc : ι → Pc α β} {c : Pc α β} (hc : c.hand = (pc i).hand) (j : ι) :
    (Function.update pc i c j).hand = (pc j).hand := by
  by_cases hj : j = i
  · rw [hj, Function.update_self, hc]
  · rw [Function.update_of_ne hj]

theorem serves_same (h : Serves σ) (hlog : σ'.log.filterMap (Call.takenBy i) =
    σ.log.filterMap (Call.takenBy i)) (hserved : σ'.served = σ.served)
    (hpc : (σ'.pc i).hand = (σ.pc i).hand) :
    σ'.log.filterMap (Call.takenBy i) = σ'.served i ++ (σ'.pc i).hand := by
  rw [hlog, hserved, hpc]
  exact h i

theorem act_serves (h : Serves σ) (ha : Act B σ σ') : Serves σ' := by
  have hsame {i : ι} {pc : Pc α β} (c : Pc α β) (hpc : σ.pc i = pc) (hc : c.hand = pc.hand) (j : ι) :
      (Function.update σ.pc i c j).hand = (σ.pc j).hand :=
    hand_update (hc.trans (congrArg Pc.hand hpc.symm)) j
  intro j
  cases ha with
  | want i hpc => exact serves_same h rfl rfl (hsame .locking hpc rfl j)
  | lock i hpc hn => exact serves_same h rfl rfl (hsame .check hpc rfl j)
  | relock i hpc hn => exact serves_same h rfl rfl (hsame .check hpc rfl j)
  | wait i hpc he => exact serves_same h rfl rfl (hsame .waiting hpc rfl j)
  | take i x s hpc he ht =>
    have hj := h j
    by_cases hji : j = i
    · rw [hji, hpc] at hj
      simp [State.go, hji, Call.takenBy, hj, Pc.hand]
    · simp [State.go, Function.update_of_ne hji, Call.takenBy, Ne.symm hji, hj]
  | unlock i x hpc => exact serves_same h rfl rfl (hsame (.serve x) hpc rfl j)
  | serve i x hpc =>
    have hj := h j
    by_cases hji : j = i
    · rw [hji, hpc] at hj
      simp [State.go, hji, hj, Pc.hand]
    · simp [State.go, Function.update_of_ne hji, hj]
  | acquire i a hpc hn => exact serves_same h rfl rfl (hsame (.put a) hpc rfl j)
  | put i a s hpc hp => exact serves_same h (by simp [Call.takenBy]) rfl (hsame .notify hpc rfl j)
  | broadcast i hpc => exact serves_same h rfl rfl ((hand_awaken _).trans (hsame .leave hpc rfl j))
  | leave i hpc => exact serves_same h rfl rfl (hsame .idle hpc rfl j)

theorem reachable_serves (h : Reachable B s₀ σ) : Serves σ := by
  induction h with
  | start pc hpc =>
    intro i
    rcases hpc i with hi | hi
    · simp [hi, Pc.hand]
    · simp [hi, Pc.hand]
  | next _ hs ih =>
    cases hs with
    | act _ ha => exact act_serves ih ha
    | offer i a hpc => exact fun j => serves_same ih rfl rfl (hand_update (by rw [hpc]; rfl) j)
    | wake i hpc => exact fun j => serves_same ih rfl rfl (hand_update (by rw [hpc]; rfl) j)

end Order

section WakeUps

variable {S α β ε ι : Type} [DecidableEq ι] {B : Buffer S α β ε} {s₀ : S} {σ σ' : State S α β ι}
  {i : ι} {c : Pc α β}

def Awake (B : Buffer S α β ε) (σ : State S α β ι) : Prop :=
  (∃ i, σ.pc i = .waiting) → B.empty σ.shared = false → ∃ j, σ.pc j = .notify

theorem awaken_ne (c : Pc α β) : c.awaken ≠ .waiting := by
  cases c <;> exact nofun

theorem waiting_update {pc : ι → Pc α β} (hc : c ≠ .waiting)
    (h : ∃ j, Function.update pc i c j = .waiting) : ∃ j, pc j = .waiting := by
  obtain ⟨j, hj⟩ := h
  by_cases hji : j = i
  · rw [hji, Function.update_self] at hj
    exact absurd hj hc
  · rw [Function.update_of_ne hji] at hj
    exact ⟨j, hj⟩

theorem awake_go (h : Awake B σ) (hi : σ.pc i ≠ .notify)
    (hpc : σ'.pc = Function.update σ.pc i c) (hc : c ≠ .waiting)
    (hs : B.empty σ'.shared = false → B.empty σ.shared = false) : Awake B σ' := by
  intro hw he
  rw [hpc] at hw
  obtain ⟨j, hj⟩ := h (waiting_update hc hw) (hs he)
  have hji : j ≠ i := fun heq => hi (heq ▸ hj)
  exact ⟨j, by rw [hpc, Function.update_of_ne hji, hj]⟩

theorem act_awake (h : Awake B σ) (ha : Act B σ σ') : Awake B σ' := by
  have hne {i : ι} {pc : Pc α β} (hpc : σ.pc i = pc) (hn : pc ≠ .notify) : σ.pc i ≠ .notify :=
    hpc ▸ hn
  cases ha with
  | want i hpc => exact awake_go h (hne hpc nofun) rfl nofun id
  | lock i hpc hn => exact awake_go h (hne hpc nofun) rfl nofun id
  | relock i hpc hn => exact awake_go h (hne hpc nofun) rfl nofun id
  | wait i hpc he =>
    intro hw he'
    rw [show B.empty σ.shared = false from he'] at he
    exact absurd he Bool.false_ne_true
  | take i x s hpc he ht => exact awake_go h (hne hpc nofun) rfl nofun fun _ => he
  | unlock i x hpc => exact awake_go h (hne hpc nofun) rfl nofun id
  | serve i x hpc => exact awake_go h (hne hpc nofun) rfl nofun id
  | acquire i a hpc hn => exact awake_go h (hne hpc nofun) rfl nofun id
  | put i a s hpc hp =>
    refine fun _ _ => ⟨i, ?_⟩
    exact Function.update_self i Pc.notify σ.pc
  | broadcast i hpc =>
    rintro ⟨j, hj⟩
    exact absurd hj (awaken_ne (Function.update σ.pc i .leave j))
  | leave i hpc => exact awake_go h (hne hpc nofun) rfl nofun id

theorem reachable_awake (h : Reachable B s₀ σ) : Awake B σ := by
  induction h with
  | start pc hpc =>
    rintro ⟨i, hi⟩
    rcases hpc i with hi' | hi'
    · exact absurd (hi.symm.trans hi') nofun
    · exact absurd (hi.symm.trans hi') nofun
  | next _ hs ih =>
    cases hs with
    | act _ ha => exact act_awake ih ha
    | offer i a hpc => exact awake_go ih (hpc ▸ nofun) rfl nofun id
    | wake i hpc => exact awake_go ih (hpc ▸ nofun) rfl nofun id

theorem no_lost_wakeup_free (h : Reachable B s₀ σ) (hl : σ.lock = none) (hi : σ.pc i = .waiting) :
    B.empty σ.shared = true := by
  by_contra he
  obtain ⟨j, hj⟩ := reachable_awake h ⟨i, hi⟩ (Bool.not_eq_true _ ▸ he)
  have hlock := (reachable_mutex h j).mp (by rw [hj]; rfl)
  rw [hl] at hlock
  exact absurd hlock.symm (Option.some_ne_none j)

end WakeUps

section Rest

variable {S α β ε ι : Type} {B : Buffer S α β ε} {s₀ : S} {σ σ' : State S α β ι}
  {i : ι} {size : S → ℕ} {k n : ℕ}

structure Sized (B : Buffer S α β ε) (size : S → ℕ) (k : ℕ) : Prop where
  take : ∀ {s s' : S} {x : β}, B.empty s = false → B.take s = .ok (s', x) → size s' < size s
  put : ∀ {s s' : S} {a : α}, B.put s a = .ok s' → size s' ≤ size s+k

def Pc.work (n k : ℕ) : Pc α β → ℕ
  | .top => 4
  | .locking => 3
  | .check => 2
  | .waiting => 0
  | .woken => 3
  | .taken _ => 6
  | .serve _ => 5
  | .idle => 0
  | .offer _ => 3*n+5*k+4
  | .put _ => 3*n+5*k+3
  | .notify => 3*n+2
  | .leave => 1

variable [Fintype ι]

def effort (size : S → ℕ) (k : ℕ) (σ : State S α β ι) : ℕ :=
  5*size σ.shared+∑ i, (σ.pc i).work (Fintype.card ι) k

theorem work_awaken (pc : ι → Pc α β) :
    ∑ j, (pc j).awaken.work n k ≤ ∑ j, (pc j).work n k+3*Fintype.card ι := by
  have hle : ∀ c : Pc α β, c.awaken.work n k ≤ c.work n k+3 := by
    intro c
    cases c with
    | waiting => exact Nat.le_refl 3
    | _ => exact Nat.le_add_right _ 3
  refine Nat.le_trans (Finset.sum_le_sum fun j _ => hle (pc j)) ?_
  rw [Finset.sum_add_distrib, Finset.sum_const, Finset.card_univ, smul_eq_mul, Nat.mul_comm]

variable [DecidableEq ι]

theorem work_update (pc : ι → Pc α β) (i : ι) (c : Pc α β) :
    ∑ j, (Function.update pc i c j).work n k+(pc i).work n k =
      ∑ j, (pc j).work n k+c.work n k := by
  have hcomp := Finset.sum_update_of_mem (Finset.mem_univ i) (fun j => (pc j).work n k) (c.work n k)
  have hsplit := Finset.sum_eq_add_sum_sdiff_singleton_of_mem (Finset.mem_univ i)
    fun j => (pc j).work n k
  have heq : ∀ j, (Function.update pc i c j).work n k =
      Function.update (fun j => (pc j).work n k) i (c.work n k) j :=
    fun j => Function.apply_update (fun _ c => c.work n k) pc i c j
  rw [Finset.sum_congr rfl fun j _ => heq j, hcomp, hsplit]
  omega

theorem effort_go {p c : Pc α β} (hpc : σ.pc i = p) (hpc' : σ'.pc = Function.update σ.pc i c)
    (h : 5*size σ'.shared+c.work (Fintype.card ι) k <
      5*size σ.shared+p.work (Fintype.card ι) k) :
    effort size k σ' < effort size k σ := by
  have hw := work_update (n := Fintype.card ι) (k := k) σ.pc i c
  rw [hpc] at hw
  rw [effort, effort, hpc']
  omega

/-- Every action leaves less to do. -/
theorem act_effort (hsize : Sized B size k) (ha : Act B σ σ') :
    effort size k σ' < effort size k σ := by
  have hless {m c p : ℕ} (h : c < p) : 5*m+c < 5*m+p := by omega
  cases ha with
  | want i hpc => exact effort_go hpc rfl (hless (Nat.lt_succ_self 3))
  | lock i hpc hn => exact effort_go hpc rfl (hless (Nat.lt_succ_self 2))
  | relock i hpc hn => exact effort_go hpc rfl (hless (Nat.lt_succ_self 2))
  | wait i hpc he => exact effort_go hpc rfl (hless Nat.two_pos)
  | take i x s hpc he ht =>
    have hlt := hsize.take he ht
    refine effort_go hpc rfl ?_
    change 5*size s+6 < 5*size σ.shared+2
    omega
  | unlock i x hpc => exact effort_go hpc rfl (hless (Nat.lt_succ_self 5))
  | serve i x hpc => exact effort_go hpc rfl (hless (Nat.lt_succ_self 4))
  | acquire i a hpc hn => exact effort_go hpc rfl (hless (Nat.lt_succ_self _))
  | put i a s hpc hp =>
    have hle := hsize.put hp
    refine effort_go hpc rfl ?_
    change 5*size s+(3*Fintype.card ι+2) < 5*size σ.shared+(3*Fintype.card ι+5*k+3)
    omega
  | broadcast i hpc =>
    have hw := work_update (n := Fintype.card ι) (k := k) σ.pc i .leave
    have ha := work_awaken (n := Fintype.card ι) (k := k) (Function.update σ.pc i .leave)
    rw [hpc, show (Pc.notify : Pc α β).work (Fintype.card ι) k = 3*Fintype.card ι+2 from rfl,
      show (Pc.leave : Pc α β).work (Fintype.card ι) k = 1 from rfl] at hw
    change 5*size σ.shared+∑ j, (Function.update σ.pc i .leave j).awaken.work (Fintype.card ι) k <
      5*size σ.shared+∑ j, (σ.pc j).work (Fintype.card ι) k
    omega
  | leave i hpc => exact effort_go hpc rfl (hless Nat.one_pos)

/-- The actions of the threads one after the other, with their number. -/
inductive Acts (B : Buffer S α β ε) (σ : State S α β ι) : ℕ → State S α β ι → Prop where
  | nil : Acts B σ 0 σ
  | next {n : ℕ} {σ' σ'' : State S α β ι} : Acts B σ n σ' → Act B σ' σ'' → Acts B σ (n+1) σ''

theorem acts_effort (hsize : Sized B size k) (h : Acts B σ n σ') :
    n+effort size k σ' ≤ effort size k σ := by
  induction h with
  | nil => exact Nat.le_of_eq (Nat.zero_add _)
  | next _ ha ih =>
    have hlt := act_effort hsize ha
    omega

end Rest

section Parked

variable {S α β ε ι : Type} [DecidableEq ι] {B : Buffer S α β ε} {s₀ : S} {σ σ' : State S α β ι}
  {i : ι} {n : ℕ}

theorem acts_reachable (hr : Reachable B s₀ σ) (h : Acts B σ n σ') : Reachable B s₀ σ' := by
  induction h with
  | nil => exact hr
  | next _ ha ih => exact ih.next (.act _ ha)

/-- A thread between two rounds, or waiting for something to do. -/
def Parked (σ : State S α β ι) : Prop :=
  σ.lock = none ∧ ∀ i, σ.pc i = .waiting ∨ σ.pc i = .idle

/-- Where no thread can act and no call on the buffer fails, all threads are parked, and
whoever waits does so on an empty buffer. -/
theorem stuck_parked (hr : Reachable B s₀ σ) (hstuck : ∀ σ', ¬Act B σ σ')
    (htake : B.empty σ.shared = false → ∃ r, B.take σ.shared = .ok r)
    (hput : ∀ a i, σ.pc i = .put a → ∃ s, B.put σ.shared a = .ok s) :
    Parked σ ∧ ((∃ i, σ.pc i = .waiting) → B.empty σ.shared = true) := by
  have hlock : σ.lock = none := by
    cases hl : σ.lock with
    | none => rfl
    | some i =>
      have hholds := (reachable_mutex hr i).mpr hl
      exfalso
      cases hpc : σ.pc i with
      | check =>
        cases he : B.empty σ.shared with
        | true => exact hstuck _ (.wait i hpc he)
        | false =>
          obtain ⟨⟨s, x⟩, ht⟩ := htake he
          exact hstuck _ (.take i x s hpc he ht)
      | taken x => exact hstuck _ (.unlock i x hpc)
      | put a =>
        obtain ⟨s, hs⟩ := hput a i hpc
        exact hstuck _ (.put i a s hpc hs)
      | notify => exact hstuck _ (.broadcast i hpc)
      | leave => exact hstuck _ (.leave i hpc)
      | _ =>
        rw [hpc] at hholds
        exact absurd hholds Bool.false_ne_true
  refine ⟨⟨hlock, fun i => ?_⟩, fun hw => ?_⟩
  · cases hpc : σ.pc i with
    | waiting => exact .inl rfl
    | idle => exact .inr rfl
    | top => exact absurd (.want i hpc) (hstuck _)
    | locking => exact absurd (.lock i hpc hlock) (hstuck _)
    | woken => exact absurd (.relock i hpc hlock) (hstuck _)
    | serve x => exact absurd (.serve i x hpc) (hstuck _)
    | offer a => exact absurd (.acquire i a hpc hlock) (hstuck _)
    | _ =>
      have hholds := (reachable_mutex hr i).mp (by rw [hpc]; rfl)
      rw [hlock] at hholds
      exact absurd hholds.symm (Option.some_ne_none i)
  · obtain ⟨i, hi⟩ := hw
    exact no_lost_wakeup_free hr hlock hi

theorem parked_stuck (hp : ∀ i, σ.pc i = .waiting ∨ σ.pc i = .idle) (σ' : State S α β ι) :
    ¬Act B σ σ' := by
  have hne {i : ι} {c : Pc α β} (hpc : σ.pc i = c) (hw : c ≠ .waiting) (hi : c ≠ .idle) : False := by
    rcases hp i with h | h
    · exact hw (hpc.symm.trans h)
    · exact hi (hpc.symm.trans h)
  intro ha
  cases ha with
  | want i hpc => exact hne hpc nofun nofun
  | lock i hpc hn => exact hne hpc nofun nofun
  | relock i hpc hn => exact hne hpc nofun nofun
  | wait i hpc he => exact hne hpc nofun nofun
  | take i x s hpc he ht => exact hne hpc nofun nofun
  | unlock i x hpc => exact hne hpc nofun nofun
  | serve i x hpc => exact hne hpc nofun nofun
  | acquire i a hpc hn => exact hne hpc nofun nofun
  | put i a s hpc hp => exact hne hpc nofun nofun
  | broadcast i hpc => exact hne hpc nofun nofun
  | leave i hpc => exact hne hpc nofun nofun

theorem taken_sum [Fintype ι] (log : List (Call α β ι)) :
    (log.filterMap Call.taken : Multiset β) =
      ∑ i, (log.filterMap (Call.takenBy i) : Multiset β) := by
  induction log with
  | nil => simp
  | cons call log ih =>
    cases call with
    | put j a =>
      have hput : ∀ i, (Call.put j a :: log).filterMap (Call.takenBy i) =
          log.filterMap (Call.takenBy i) := fun i => List.filterMap_cons_none rfl
      rw [List.filterMap_cons_none rfl, ih, Finset.sum_congr rfl fun i _ => congrArg _ (hput i)]
    | take j x =>
      have hsplit : ∀ i, ((Call.take j x :: log).filterMap (Call.takenBy i) : Multiset β) =
          (if j = i then {x} else 0)+(log.filterMap (Call.takenBy i) : Multiset β) := by
        intro i
        by_cases hji : j = i
        · simp [Call.takenBy, hji, Multiset.singleton_add]
        · simp [Call.takenBy, hji]
      rw [Finset.sum_congr rfl fun i _ => hsplit i, Finset.sum_add_distrib, ← ih]
      simp [Call.taken, Multiset.singleton_add]

theorem parked_served [Fintype ι] (hr : Reachable B s₀ σ) (hp : Parked σ) :
    (σ.log.filterMap Call.taken : Multiset β) = ∑ i, (σ.served i : Multiset β) := by
  have hserved : ∀ i, (σ.log.filterMap (Call.takenBy i)) = σ.served i := by
    intro i
    have hi := reachable_serves hr i
    rcases hp.2 i with hpc | hpc
    · simpa [hpc, Pc.hand] using hi
    · simpa [hpc, Pc.hand] using hi
  rw [taken_sum, Finset.sum_congr rfl fun i _ => congrArg Multiset.ofList (hserved i)]

end Parked

end CLearning.Monitor
