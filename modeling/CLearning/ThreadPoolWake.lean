import Mathlib.Algebra.BigOperators.Fin
import Mathlib.Algebra.Order.BigOperators.Group.Finset
import Mathlib.Data.Fintype.Fin
import Mathlib.Logic.Relation

/-!
# The condition variable of the thread pool

The mutex and the condition variable are explicit here: a worker or a submitter
takes the lock, does one thing at a time under it and gives it back, and a
worker in `pthread_cond_wait` is either unsignalled or has been woken and still
has to get the lock. `pthread_cond_signal` wakes at least one waiter when there
is one. What becomes of the jobs and their memory is not looked at.
-/

set_option autoImplicit false

namespace CLearning.ThreadPoolWake

section Totals

variable {ι β : Type} [Fintype ι] {f g : β → ℕ} {u v : ι → β} {i : ι} {b : β}

def total (f : β → ℕ) (v : ι → β) : ℕ := ∑ i, f (v i)

theorem total_update [DecidableEq ι] (f : β → ℕ) (v : ι → β) (i : ι) (b : β) :
    total f (Function.update v i b)+f (v i) = total f v+f b := by
  rw [total, total, ← Finset.add_sum_erase _ _ (Finset.mem_univ i),
    ← Finset.add_sum_erase _ _ (Finset.mem_univ i), Function.update_self]
  have hrest : ∑ x ∈ Finset.univ.erase i, f (Function.update v i b x) =
      ∑ x ∈ Finset.univ.erase i, f (v x) := by
    apply Finset.sum_congr rfl
    intro x hx
    rw [Function.update_of_ne (Finset.ne_of_mem_erase hx)]
  rw [hrest]
  omega

theorem le_total (f : β → ℕ) (v : ι → β) (i : ι) : f (v i) ≤ total f v :=
  Finset.single_le_sum (f := fun i => f (v i)) (fun _ _ => Nat.zero_le _) (Finset.mem_univ i)

theorem total_add (f g : β → ℕ) (v : ι → β) :
    total (fun b => f b+g b) v = total f v+total g v :=
  Finset.sum_add_distrib

theorem total_lt (h : ∀ i, f (u i) ≤ f (v i)) (hi : f (u i) < f (v i)) : total f u < total f v :=
  Finset.sum_lt_sum (fun i _ => h i) ⟨i, Finset.mem_univ i, hi⟩

theorem total_eq_zero (h : ∀ i, f (v i) = 0) : total f v = 0 :=
  Finset.sum_eq_zero fun i _ => h i

end Totals

section Source

/-- Where a worker is in `threadpool_handler_wrapper`. -/
inductive Pc (α : Type) where
  | top
  | locking
  | check
  | waiting
  | woken
  | unlock (job : α)
  | run (job : α)
  | left

/-- Where a submitter is in `threadpool_submit`. -/
inductive Submit (α : Type) where
  | idle
  | locking (job : α)
  | insert (job : α)
  | signal
  | unlock

inductive Owner (n : ℕ) where
  | worker (w : Fin n)
  | submitter (s : ℕ)
  deriving DecidableEq

structure State (α : Type) (n : ℕ) where
  job_queue : List α
  shutdown : Bool
  lock : Option (Owner n)
  worker : Fin n → Pc α
  submitter : ℕ → Submit α

variable {α : Type} {n : ℕ}

namespace State

/-- The state behind `threadpool_create`. -/
def start (α : Type) (n : ℕ) : State α n := ⟨[], false, none, fun _ => .top, fun _ => .idle⟩

def go (σ : State α n) (w : Fin n) (pc : Pc α) : State α n :=
  { σ with worker := Function.update σ.worker w pc }

def goSubmit (σ : State α n) (s : ℕ) (pc : Submit α) : State α n :=
  { σ with submitter := Function.update σ.submitter s pc }

end State

inductive Works (σ : State α n) (w : Fin n) : State α n → Prop where
  | test : σ.worker w = .top → Works σ w (σ.go w (if σ.shutdown then .left else .locking))
  | lock : σ.worker w = .locking → σ.lock = none →
      Works σ w { σ.go w .check with lock := some (.worker w) }
  | relock : σ.worker w = .woken → σ.lock = none →
      Works σ w { σ.go w .check with lock := some (.worker w) }
  | wait : σ.worker w = .check → σ.job_queue = [] → Works σ w { σ.go w .waiting with lock := none }
  | take (job : α) (rest : List α) : σ.worker w = .check → σ.job_queue = job :: rest →
      Works σ w { σ.go w (.unlock job) with job_queue := rest }
  | unlock (job : α) : σ.worker w = .unlock job → Works σ w { σ.go w (.run job) with lock := none }
  | handle (job : α) : σ.worker w = .run job → Works σ w (σ.go w .top)

/-- What one `pthread_cond_signal` may make of the workers. -/
def Signalled (u v : Fin n → Pc α) : Prop :=
  (∀ w, v w = u w ∨ u w = .waiting ∧ v w = .woken) ∧
    ((∃ w, u w = .waiting) → ∃ w, u w = .waiting ∧ v w = .woken)

/-- The steps of the pool; `spurious` says whether a waiter may wake unsignalled. -/
inductive Step (spurious : Bool) (σ : State α n) : State α n → Prop where
  | work (w : Fin n) (σ' : State α n) : Works σ w σ' → Step spurious σ σ'
  | wake (w : Fin n) : spurious = true → σ.worker w = .waiting → Step spurious σ (σ.go w .woken)
  | submit (s : ℕ) (job : α) : σ.submitter s = .idle →
      Step spurious σ (σ.goSubmit s (.locking job))
  | lock (s : ℕ) (job : α) : σ.submitter s = .locking job → σ.lock = none →
      Step spurious σ { σ.goSubmit s (.insert job) with lock := some (.submitter s) }
  | insert (s : ℕ) (job : α) : σ.submitter s = .insert job →
      Step spurious σ { σ.goSubmit s .signal with job_queue := σ.job_queue ++ [job] }
  | signal (s : ℕ) (v : Fin n → Pc α) : σ.submitter s = .signal → Signalled σ.worker v →
      Step spurious σ { σ.goSubmit s .unlock with worker := v }
  | unlock (s : ℕ) : σ.submitter s = .unlock →
      Step spurious σ { σ.goSubmit s .idle with lock := none }
  | shut : Step spurious σ { σ with shutdown := true }

inductive Reachable (spurious : Bool) : State α n → Prop where
  | start : Reachable spurious (.start α n)
  | next {σ σ' : State α n} : Reachable spurious σ → Step spurious σ σ' → Reachable spurious σ'

end Source

section Mutex

variable {α : Type} {n : ℕ} {spurious : Bool} {σ σ' : State α n} {w : Fin n} {s : ℕ}

def Pc.holds : Pc α → Bool
  | .check => true
  | .unlock _ => true
  | _ => false

def Submit.holds : Submit α → Bool
  | .insert _ => true
  | .signal => true
  | .unlock => true
  | _ => false

def Owner.holds (σ : State α n) : Owner n → Bool
  | .worker w => (σ.worker w).holds
  | .submitter s => (σ.submitter s).holds

def Mutex (σ : State α n) : Prop := ∀ o, Owner.holds σ o = true ↔ σ.lock = some o

theorem mutex_same (h : Mutex σ) (hl : σ'.lock = σ.lock)
    (ho : ∀ o, Owner.holds σ' o = Owner.holds σ o) : Mutex σ' := by
  intro o
  rw [ho o, hl]
  exact h o

theorem mutex_acquire {o : Owner n} (h : Mutex σ) (hn : σ.lock = none) (hl : σ'.lock = some o)
    (ho : Owner.holds σ' o = true) (hrest : ∀ p, p ≠ o → Owner.holds σ' p = Owner.holds σ p) :
    Mutex σ' := by
  intro p
  by_cases hp : p = o
  · rw [hp, ho, hl]
    simp
  · rw [hrest p hp, h p, hn, hl]
    simp [Ne.symm hp]

theorem mutex_release {o : Owner n} (h : Mutex σ) (hh : Owner.holds σ o = true)
    (hl : σ'.lock = none) (ho : Owner.holds σ' o = false)
    (hrest : ∀ p, p ≠ o → Owner.holds σ' p = Owner.holds σ p) : Mutex σ' := by
  have hlock := (h o).mp hh
  intro p
  by_cases hp : p = o
  · rw [hp, ho, hl]
    simp
  · rw [hrest p hp, h p, hlock, hl]
    simp [Ne.symm hp]

theorem holds_go (pc : Pc α) (o : Owner n) :
    Owner.holds (σ.go w pc) o = if o = .worker w then pc.holds else Owner.holds σ o := by
  cases o with
  | worker v =>
    by_cases hv : v = w
    · simp [Owner.holds, State.go, hv]
    · simp [Owner.holds, State.go, hv]
  | submitter s => simp [Owner.holds, State.go]

theorem holds_goSubmit (pc : Submit α) (o : Owner n) :
    Owner.holds (σ.goSubmit s pc) o = if o = .submitter s then pc.holds else Owner.holds σ o := by
  cases o with
  | worker v => simp [Owner.holds, State.goSubmit]
  | submitter s' =>
    by_cases hs : s' = s
    · simp [Owner.holds, State.goSubmit, hs]
    · simp [Owner.holds, State.goSubmit, hs]

theorem works_mutex (h : Mutex σ) (hw : Works σ w σ') : Mutex σ' := by
  have hold : ∀ pc, σ.worker w = pc → Owner.holds σ (.worker w) = pc.holds := fun pc hpc => by
    rw [Owner.holds, hpc]
  have hgo : ∀ pc o, o ≠ .worker w → Owner.holds (σ.go w pc) o = Owner.holds σ o :=
    fun pc o ho => by rw [holds_go, if_neg ho]
  have hself : ∀ pc, Owner.holds (σ.go w pc) (.worker w) = pc.holds := fun pc => by
    rw [holds_go, if_pos rfl]
  have hsame : ∀ pc pc', σ.worker w = pc → pc'.holds = pc.holds →
      ∀ o, Owner.holds (σ.go w pc') o = Owner.holds σ o := by
    intro pc pc' hpc hpp o
    by_cases ho : o = .worker w
    · rw [ho, hself, hold pc hpc, hpp]
    · exact hgo pc' o ho
  cases hw with
  | test hpc => exact mutex_same h rfl (hsame _ _ hpc (by split <;> rfl))
  | lock hpc hl => exact mutex_acquire h hl rfl (hself _) (hgo _)
  | relock hpc hl => exact mutex_acquire h hl rfl (hself _) (hgo _)
  | wait hpc hq => exact mutex_release h (hold _ hpc) rfl (hself _) (hgo _)
  | take job rest hpc hq => exact mutex_same h rfl (hsame _ _ hpc rfl)
  | unlock job hpc => exact mutex_release h (hold _ hpc) rfl (hself _) (hgo _)
  | handle job hpc => exact mutex_same h rfl (hsame _ _ hpc rfl)

theorem step_mutex (h : Mutex σ) (hs : Step spurious σ σ') : Mutex σ' := by
  have hold : ∀ s pc, σ.submitter s = pc → Owner.holds σ (.submitter s) = pc.holds :=
    fun s pc hpc => by rw [Owner.holds, hpc]
  have hgo : ∀ s pc o, o ≠ .submitter s → Owner.holds (σ.goSubmit s pc) o = Owner.holds σ o :=
    fun s pc o ho => by rw [holds_goSubmit, if_neg ho]
  have hself : ∀ s pc, Owner.holds (σ.goSubmit s pc) (.submitter s) = pc.holds := fun s pc => by
    rw [holds_goSubmit, if_pos rfl]
  have hsame : ∀ s pc pc', σ.submitter s = pc → pc'.holds = pc.holds →
      ∀ o, Owner.holds (σ.goSubmit s pc') o = Owner.holds σ o := by
    intro s pc pc' hpc hpp o
    by_cases ho : o = .submitter s
    · rw [ho, hself, hold s pc hpc, hpp]
    · exact hgo s pc' o ho
  cases hs with
  | work w _ hw => exact works_mutex h hw
  | wake w _ hpc =>
    refine mutex_same h rfl fun o => ?_
    rw [holds_go]
    split
    · next ho => rw [ho, Owner.holds, hpc]; rfl
    · rfl
  | submit s job hpc => exact mutex_same h rfl (hsame s _ _ hpc rfl)
  | lock s job hpc hl => exact mutex_acquire h hl rfl (hself s _) (hgo s _)
  | insert s job hpc => exact mutex_same h rfl (hsame s _ _ hpc rfl)
  | signal s v hpc hv =>
    refine mutex_same h rfl fun o => ?_
    cases o with
    | worker w =>
      rcases hv.1 w with hw | ⟨hu, hw⟩
      · show (v w).holds = _
        rw [hw]
        rfl
      · show (v w).holds = (σ.worker w).holds
        rw [hw, hu]
        rfl
    | submitter s' => exact hsame s _ .unlock hpc rfl (.submitter s')
  | unlock s hpc => exact mutex_release h (hold s _ hpc) rfl (hself s _) (hgo s _)
  | shut => exact mutex_same h rfl fun o => by cases o <;> rfl

theorem reachable_mutex (h : Reachable spurious σ) : Mutex σ := by
  induction h with
  | start =>
    intro o
    cases o <;> simp [Owner.holds, State.start, Pc.holds, Submit.holds]
  | next _ hs ih => exact step_mutex ih hs

end Mutex

section WakeUps

variable {α : Type} {n : ℕ} {spurious : Bool} {σ σ' : State α n} {w : Fin n}

def Pc.isWoken : Pc α → ℕ
  | .woken => 1
  | _ => 0

def Pc.isCheck : Pc α → ℕ
  | .check => 1
  | _ => 0

def Submit.isSignal : Submit α → ℕ
  | .signal => 1
  | _ => 0

def woken (σ : State α n) : ℕ := total Pc.isWoken σ.worker

/-- One more job than there are wake-ups is all right while its owner holds the
lock: a submitter about to signal, or a worker about to look at the queue. -/
def slack (σ : State α n) : ℕ :=
  match σ.lock with
  | none => 0
  | some (.worker w) => (σ.worker w).isCheck
  | some (.submitter s) => (σ.submitter s).isSignal

/-- No wake-up is lost: whoever waits unsignalled does so because every job has
a worker on its way to it. -/
def Awake (σ : State α n) : Prop :=
  (∃ w, σ.worker w = .waiting) → σ.job_queue.length ≤ woken σ+slack σ

theorem slack_le (σ : State α n) : slack σ ≤ 1 := by
  rw [slack]
  split
  · exact Nat.zero_le _
  · cases σ.worker _ <;> simp [Pc.isCheck]
  · cases σ.submitter _ <;> simp [Submit.isSignal]

theorem slack_congr (hl : σ'.lock = σ.lock)
    (hw : ∀ v, (σ'.worker v).isCheck = (σ.worker v).isCheck)
    (hs : ∀ s, (σ'.submitter s).isSignal = (σ.submitter s).isSignal) : slack σ' = slack σ := by
  rw [slack, slack, hl]
  cases σ.lock with
  | none => rfl
  | some o =>
    cases o with
    | worker v => exact hw v
    | submitter s => exact hs s

theorem slack_go {pc : Pc α} (h0 : (σ.worker w).isCheck = 0) (h1 : pc.isCheck = 0) :
    slack (σ.go w pc) = slack σ := by
  refine slack_congr rfl (fun v => ?_) fun _ => rfl
  by_cases hv : v = w
  · rw [hv, h0]
    simp [State.go, h1]
  · simp [State.go, hv]

theorem slack_goSubmit {s : ℕ} {pc : Submit α} (h0 : (σ.submitter s).isSignal = 0)
    (h1 : pc.isSignal = 0) : slack (σ.goSubmit s pc) = slack σ := by
  refine slack_congr rfl (fun _ => rfl) fun t => ?_
  by_cases ht : t = s
  · rw [ht, h0]
    simp [State.goSubmit, h1]
  · simp [State.goSubmit, ht]

theorem woken_go (pc : Pc α) : woken (σ.go w pc)+(σ.worker w).isWoken = woken σ+pc.isWoken :=
  total_update _ _ _ _

theorem waiting_go {pc : Pc α} (hpc : pc ≠ .waiting) (h : ∃ v, (σ.go w pc).worker v = .waiting) :
    ∃ v, σ.worker v = .waiting := by
  obtain ⟨v, hv⟩ := h
  by_cases hvw : v = w
  · subst hvw
    exact absurd (by simpa [State.go] using hv) hpc
  · exact ⟨v, by simpa [State.go, hvw] using hv⟩

theorem works_awake (hm : Mutex σ) (h : Awake σ) (hw : Works σ w σ') : Awake σ' := by
  have hslack := slack_le σ
  have hown : ∀ pc, σ.worker w = pc → pc.holds = true → σ.lock = some (.worker w) := by
    intro pc hpc hh
    exact (hm (.worker w)).mp (by rw [Owner.holds, hpc, hh])
  cases hw with
  | test hpc =>
    intro hex
    have hne : (if σ.shutdown then Pc.left else Pc.locking : Pc α) ≠ .waiting := by
      split <;> simp
    have hle := h (waiting_go hne hex)
    have hwk := @woken_go α n σ w (if σ.shutdown then .left else .locking)
    have h0 : (if σ.shutdown then Pc.left else Pc.locking : Pc α).isWoken = 0 := by
      split <;> rfl
    rw [hpc, h0] at hwk
    simp only [Pc.isWoken] at hwk
    rw [slack_go (by rw [hpc]; rfl) (by split <;> rfl)]
    show σ.job_queue.length ≤ _
    omega
  | lock hpc hl =>
    intro hex
    have hle := h (waiting_go (by simp) hex)
    have hwk := @woken_go α n σ w .check
    rw [hpc] at hwk
    simp only [Pc.isWoken] at hwk
    have hsl : slack σ = 0 := by rw [slack, hl]
    show σ.job_queue.length ≤ woken (σ.go w .check)+_
    omega
  | relock hpc hl =>
    intro hex
    have hle := h (waiting_go (by simp) hex)
    have hwk := @woken_go α n σ w .check
    rw [hpc] at hwk
    simp only [Pc.isWoken] at hwk
    have hsl : slack σ = 0 := by rw [slack, hl]
    have hsl' : slack { σ.go w .check with lock := some (.worker w) } = 1 := by
      simp [slack, State.go, Pc.isCheck]
    rw [hsl']
    show σ.job_queue.length ≤ woken (σ.go w .check)+1
    omega
  | wait hpc hq =>
    intro _
    show σ.job_queue.length ≤ _
    rw [hq]
    exact Nat.zero_le _
  | take job rest hpc hq =>
    intro hex
    have hle := h (waiting_go (by simp) hex)
    have hwk := @woken_go α n σ w (.unlock job)
    rw [hpc] at hwk
    simp only [Pc.isWoken] at hwk
    rw [hq, List.length_cons] at hle
    show rest.length ≤ woken (σ.go w (.unlock job))+_
    omega
  | unlock job hpc =>
    intro hex
    have hle := h (waiting_go (by simp) hex)
    have hwk := @woken_go α n σ w (.run job)
    rw [hpc] at hwk
    simp only [Pc.isWoken] at hwk
    have hsl : slack σ = 0 := by
      rw [slack, hown _ hpc rfl]
      simp [hpc, Pc.isCheck]
    show σ.job_queue.length ≤ woken (σ.go w (.run job))+_
    omega
  | handle job hpc =>
    intro hex
    have hle := h (waiting_go (by simp) hex)
    have hwk := @woken_go α n σ w .top
    rw [hpc] at hwk
    simp only [Pc.isWoken] at hwk
    rw [slack_go (by rw [hpc]; rfl) rfl]
    show σ.job_queue.length ≤ _
    omega

theorem step_awake (hm : Mutex σ) (h : Awake σ) (hs : Step spurious σ σ') : Awake σ' := by
  have hslack := slack_le σ
  have hown : ∀ s pc, σ.submitter s = pc → pc.holds = true → σ.lock = some (.submitter s) := by
    intro s pc hpc hh
    exact (hm (.submitter s)).mp (by rw [Owner.holds, hpc, hh])
  cases hs with
  | work w _ hw => exact works_awake hm h hw
  | wake w _ hpc =>
    intro hex
    have hle := h (waiting_go (by simp) hex)
    have hwk := @woken_go α n σ w .woken
    rw [hpc] at hwk
    simp only [Pc.isWoken] at hwk
    rw [slack_go (by rw [hpc]; rfl) rfl]
    show σ.job_queue.length ≤ _
    omega
  | submit s job hpc =>
    intro hex
    have hle := h hex
    rw [slack_goSubmit (by rw [hpc]; rfl) rfl]
    exact hle
  | lock s job hpc hl =>
    intro hex
    have hle := h hex
    have hsl : slack σ = 0 := by rw [slack, hl]
    show σ.job_queue.length ≤ woken σ+_
    omega
  | insert s job hpc =>
    intro hex
    have hle := h hex
    have hl := hown s _ hpc rfl
    have hsl : slack σ = 0 := by
      rw [slack, hl]
      simp [hpc, Submit.isSignal]
    have hsl' : slack { σ.goSubmit s .signal with job_queue := σ.job_queue ++ [job] } = 1 := by
      rw [slack]
      show (match σ.lock with
        | none => 0
        | some (.worker v) => (σ.worker v).isCheck
        | some (.submitter t) => ((σ.goSubmit s .signal).submitter t).isSignal) = 1
      rw [hl]
      simp [State.goSubmit, Submit.isSignal]
    rw [hsl']
    show (σ.job_queue ++ [job]).length ≤ woken σ+1
    rw [List.length_append, List.length_singleton]
    omega
  | signal s v hpc hv =>
    rintro ⟨w, hw⟩
    have hu : ∃ w, σ.worker w = .waiting := by
      rcases hv.1 w with h1 | ⟨h1, h2⟩
      · exact ⟨w, h1.symm.trans hw⟩
      · exact ⟨w, h1⟩
    have hle := h hu
    obtain ⟨x, hx, hx'⟩ := hv.2 hu
    have hlt : total Pc.isWoken σ.worker < total Pc.isWoken v := by
      refine @total_lt _ _ _ _ _ _ x (fun i => ?_) ?_
      · rcases hv.1 i with h1 | ⟨h1, h2⟩
        · rw [h1]
        · rw [h1, h2]
          exact Nat.zero_le _
      · rw [hx, hx']
        exact Nat.zero_lt_one
    show σ.job_queue.length ≤ total Pc.isWoken v+_
    rw [woken] at hle
    omega
  | unlock s hpc =>
    intro hex
    have hle := h hex
    have hsl : slack σ = 0 := by
      rw [slack, hown s _ hpc rfl]
      simp [hpc, Submit.isSignal]
    show σ.job_queue.length ≤ woken σ+_
    omega
  | shut => exact h

theorem reachable_awake (h : Reachable spurious σ) : Awake σ := by
  induction h with
  | start =>
    rintro ⟨w, hw⟩
    cases hw
  | next hr hs ih => exact step_awake (reachable_mutex hr) ih hs

/-- While some worker waits unsignalled and nobody holds the lock, every queued
job has a woken worker; so jobs never lie there with all workers waiting. -/
theorem no_lost_wakeup (σ : State α n) (h : Reachable true σ) (hl : σ.lock = none) :
    ((∃ w, σ.worker w = .waiting) → σ.job_queue.length ≤ woken σ) ∧
      (0 < n → (∀ w, σ.worker w = .waiting) → σ.job_queue = []) := by
  have hle : (∃ w, σ.worker w = .waiting) → σ.job_queue.length ≤ woken σ := by
    intro hex
    have hle := reachable_awake h hex
    have hsl : slack σ = 0 := by rw [slack, hl]
    omega
  refine ⟨hle, fun hn hall => ?_⟩
  have h0 : woken σ = 0 := total_eq_zero fun w => by
    rw [hall w]
    rfl
  have := hle ⟨⟨0, hn⟩, hall _⟩
  rw [h0] at this
  exact List.eq_nil_of_length_eq_zero (Nat.le_zero.mp this)

/-- Two workers wait, one job is submitted, and the signal wakes one of them. -/
theorem no_lost_wakeup_two : ∃ σ : State ℕ 2, Reachable true σ ∧ σ.job_queue = [7] ∧
    σ.worker 1 = .waiting ∧ σ.job_queue.length ≤ woken σ := by
  have h₁ : Reachable true (State.start ℕ 2) := .start
  have h₂ := h₁.next (.work 0 _ (.test rfl))
  have h₃ := h₂.next (.work 0 _ (.lock rfl rfl))
  have h₄ := h₃.next (.work 0 _ (.wait rfl rfl))
  have h₅ := h₄.next (.work 1 _ (.test rfl))
  have h₆ := h₅.next (.work 1 _ (.lock rfl rfl))
  have h₇ := h₆.next (.work 1 _ (.wait rfl rfl))
  have h₈ := h₇.next (.submit 0 7 rfl)
  have h₉ := h₈.next (.lock 0 7 rfl rfl)
  have h₁₀ := h₉.next (.insert 0 7 rfl)
  have h₁₁ := h₁₀.next (.signal 0 ![.woken, .waiting] rfl
    ⟨Fin.forall_fin_two.mpr ⟨Or.inr ⟨rfl, rfl⟩, Or.inl rfl⟩, fun _ => ⟨0, rfl, rfl⟩⟩)
  have h₁₂ := h₁₁.next (.unlock 0 rfl)
  exact ⟨_, h₁₂, rfl, rfl, (no_lost_wakeup _ h₁₂ rfl).1 ⟨1, rfl⟩⟩

end WakeUps

section Shutdown

variable {α : Type} {n : ℕ} {σ σ' : State α n} {w : Fin n}

def Pc.isInside : Pc α → ℕ
  | .locking => 1
  | .check => 1
  | .waiting => 1
  | .woken => 1
  | _ => 0

def Pc.isWaiting : Pc α → ℕ
  | .waiting => 1
  | _ => 0

/-- How many steps a worker can take at most before it has left or waits. -/
def Pc.effort : Pc α → ℕ
  | .top => 1
  | .locking => 5
  | .check => 4
  | .waiting => 0
  | .woken => 5
  | .unlock _ => 3
  | .run _ => 2
  | .left => 0

def inside (σ : State α n) : ℕ := total Pc.isInside σ.worker

def effort (σ : State α n) : ℕ := total Pc.effort σ.worker

def Run : State α n → State α n → Prop := Relation.ReflTransGen fun σ σ' => ∃ w, Works σ w σ'

/-- All workers have left, or one can take a step. -/
def Unstuck (σ : State α n) : Prop :=
  (∀ w, σ.worker w = .left) ∨ ∃ w σ', Works σ w σ'

/-- `shutdown` is set and no submit is under way. -/
def Closing (σ : State α n) : Prop := σ.shutdown = true ∧ ∀ s, σ.submitter s = .idle

theorem works_closing (h : Closing σ) (hw : Works σ w σ') : Closing σ' := by
  cases hw <;> exact h

/-- A job less, a worker less without one. -/
theorem works_inside (h : Closing σ) (hw : Works σ w σ') :
    inside σ'+σ.job_queue.length = inside σ+σ'.job_queue.length := by
  have hgo : ∀ pc, inside (σ.go w pc)+(σ.worker w).isInside = inside σ+pc.isInside :=
    fun pc => total_update _ _ _ _
  have hkeep : ∀ pc pc', σ.worker w = pc → pc.isInside = pc'.isInside →
      inside (σ.go w pc')+σ.job_queue.length = inside σ+σ.job_queue.length := by
    intro pc pc' hpc heq
    have hup := hgo pc'
    rw [hpc] at hup
    omega
  cases hw with
  | test hpc =>
    rw [h.1, if_pos rfl]
    exact hkeep _ .left hpc rfl
  | lock hpc hl => exact hkeep _ .check hpc rfl
  | relock hpc hl => exact hkeep _ .check hpc rfl
  | wait hpc hq => exact hkeep _ .waiting hpc rfl
  | take job rest hpc hq =>
    have hup := hgo (.unlock job)
    rw [hpc] at hup
    simp only [Pc.isInside] at hup
    show inside (σ.go w (.unlock job))+_ = _+rest.length
    rw [hq, List.length_cons]
    omega
  | unlock job hpc => exact hkeep _ (.run job) hpc rfl
  | handle job hpc => exact hkeep _ .top hpc rfl

theorem works_effort (h : Closing σ) (hw : Works σ w σ') : effort σ' < effort σ := by
  have hgo : ∀ pc : Pc α, pc.effort < (σ.worker w).effort → effort (σ.go w pc) < effort σ := by
    intro pc hlt
    have hup : effort (σ.go w pc)+(σ.worker w).effort = effort σ+pc.effort := total_update _ _ _ _
    omega
  cases hw with
  | test hpc =>
    rw [h.1, if_pos rfl]
    exact hgo .left (by simp [hpc, Pc.effort])
  | lock hpc hl => exact hgo .check (by simp [hpc, Pc.effort])
  | relock hpc hl => exact hgo .check (by simp [hpc, Pc.effort])
  | wait hpc hq => exact hgo .waiting (by simp [hpc, Pc.effort])
  | take job rest hpc hq => exact hgo (.unlock job) (by simp [hpc, Pc.effort])
  | unlock job hpc => exact hgo (.run job) (by simp [hpc, Pc.effort])
  | handle job hpc => exact hgo .top (by simp [hpc, Pc.effort])

theorem run_reachable (hr : Reachable false σ) (hc : Closing σ) (h : Run σ σ') :
    Reachable false σ' ∧ Closing σ' ∧
      inside σ'+σ.job_queue.length = inside σ+σ'.job_queue.length := by
  induction h with
  | refl => exact ⟨hr, hc, rfl⟩
  | tail _ hs ih =>
    obtain ⟨w, hw⟩ := hs
    obtain ⟨hr', hc', hin⟩ := ih
    have := works_inside hc' hw
    exact ⟨hr'.next (.work w _ hw), works_closing hc' hw, by omega⟩

/-- Whoever waits is one more worker inside than there are jobs. -/
theorem waiting_inside (hr : Reachable false σ) (hc : Closing σ) (hw : σ.worker w = .waiting) :
    σ.job_queue.length < inside σ := by
  have hle := reachable_awake hr ⟨w, hw⟩
  have hwait : 1 ≤ total Pc.isWaiting σ.worker := by
    have := le_total Pc.isWaiting σ.worker w
    rw [hw] at this
    exact this
  have hslack : slack σ ≤ total Pc.isCheck σ.worker := by
    rw [slack]
    split
    · exact Nat.zero_le _
    · exact le_total _ _ _
    · next s hs =>
      rw [hc.2 s]
      exact Nat.zero_le _
  have hsum : total Pc.isWoken σ.worker+total Pc.isWaiting σ.worker+total Pc.isCheck σ.worker ≤
      inside σ := by
    rw [← total_add, ← @total_add _ _ _ (fun b => Pc.isWoken b+Pc.isWaiting b)]
    refine Finset.sum_le_sum fun v _ => ?_
    cases σ.worker v <;> simp [Pc.isWoken, Pc.isWaiting, Pc.isCheck, Pc.isInside]
  rw [woken] at hle
  omega

/-- With a job for everybody inside, somebody can go on until all have left. -/
theorem unstuck_of_inside (hr : Reachable false σ) (hc : Closing σ)
    (hin : inside σ ≤ σ.job_queue.length) : Unstuck σ := by
  have hm := reachable_mutex hr
  by_cases hall : ∀ w, σ.worker w = .left
  · exact Or.inl hall
  right
  cases hl : σ.lock with
  | some o =>
    have hh := (hm o).mpr hl
    cases o with
    | worker v =>
      cases hv : σ.worker v with
      | check =>
        cases hq : σ.job_queue with
        | nil => exact ⟨v, _, .wait hv hq⟩
        | cons job rest => exact ⟨v, _, .take job rest hv hq⟩
      | unlock job => exact ⟨v, _, .unlock job hv⟩
      | top => simp [Owner.holds, hv, Pc.holds] at hh
      | locking => simp [Owner.holds, hv, Pc.holds] at hh
      | waiting => simp [Owner.holds, hv, Pc.holds] at hh
      | woken => simp [Owner.holds, hv, Pc.holds] at hh
      | run job => simp [Owner.holds, hv, Pc.holds] at hh
      | left => simp [Owner.holds, hv, Pc.holds] at hh
    | submitter s => simp [Owner.holds, hc.2 s, Submit.holds] at hh
  | none =>
    simp only [not_forall] at hall
    obtain ⟨w, hw⟩ := hall
    have hfree : (σ.worker w).holds = false := by
      have := (hm (.worker w)).not
      rw [hl] at this
      simpa [Owner.holds] using this
    cases hpc : σ.worker w with
    | top => exact ⟨w, _, .test hpc⟩
    | locking => exact ⟨w, _, .lock hpc hl⟩
    | check => simp [hpc, Pc.holds] at hfree
    | waiting =>
      have := waiting_inside hr hc hpc
      omega
    | woken => exact ⟨w, _, .relock hpc hl⟩
    | unlock job => simp [hpc, Pc.holds] at hfree
    | run job => exact ⟨w, _, .handle job hpc⟩
    | left => exact absurd hpc hw

theorem stuck_of_inside (hr : Reachable false σ) (hc : Closing σ)
    (hin : σ.job_queue.length < inside σ) : ∃ σ', Run σ σ' ∧ ¬Unstuck σ' := by
  induction hk : effort σ using Nat.strong_induction_on generalizing σ with
  | _ k ih =>
    by_cases hstep : ∃ w σ', Works σ w σ'
    · obtain ⟨w, σ', hw⟩ := hstep
      have hlt := works_effort hc hw
      have hins := works_inside hc hw
      obtain ⟨σ'', hrun, hstuck⟩ := ih (effort σ') (hk ▸ hlt) (hr.next (.work w _ hw))
        (works_closing hc hw) (by omega) rfl
      exact ⟨σ'', Relation.ReflTransGen.head ⟨w, hw⟩ hrun, hstuck⟩
    · refine ⟨σ, .refl, fun h => ?_⟩
      rcases h with hall | h
      · have h0 : inside σ = 0 := total_eq_zero fun w => by
          rw [hall w]
          rfl
        omega
      · exact hstep h

/-- After shutdown the pool never gets stuck exactly when there is a queued job
for every worker that has passed the test of the flag and has none yet. -/
theorem shutdown_unstuck (σ : State α n) (hr : Reachable false σ) (hc : Closing σ) :
    (∀ σ', Run σ σ' → Unstuck σ') ↔ inside σ ≤ σ.job_queue.length := by
  constructor
  · intro h
    by_contra hlt
    obtain ⟨σ', hrun, hstuck⟩ := stuck_of_inside hr hc (by omega)
    exact hstuck (h σ' hrun)
  · intro hin σ' hrun
    obtain ⟨hr', hc', hins⟩ := run_reachable hr hc hrun
    exact unstuck_of_inside hr' hc' (by omega)

/-- A worker has passed the test of the flag, and a job is there for it. -/
theorem shutdown_unstuck_queued : ∃ σ : State ℕ 2, Reachable false σ ∧ σ.worker 0 = .locking ∧
    σ.job_queue = [7] ∧ ∀ σ', Run σ σ' → Unstuck σ' := by
  have h₁ : Reachable false (State.start ℕ 2) := .start
  have h₂ := h₁.next (.work 0 _ (.test rfl))
  have h₃ := h₂.next (.submit 0 7 rfl)
  have h₄ := h₃.next (.lock 0 7 rfl rfl)
  have h₅ := h₄.next (.insert 0 7 rfl)
  have hnone : ¬∃ w : Fin 2, (Function.update (fun _ => Pc.top) 0 Pc.locking : Fin 2 → Pc ℕ) w =
      .waiting := by
    rw [Fin.exists_fin_two]
    rintro (hw | hw)
    · cases hw
    · cases hw
  have h₆ := h₅.next (.signal 0 (Function.update (fun _ => Pc.top) 0 Pc.locking) rfl
    ⟨fun _ => Or.inl rfl, fun hw => absurd hw hnone⟩)
  have h₇ := h₆.next (.unlock 0 rfl)
  have h₈ := h₇.next .shut
  refine ⟨_, h₈, rfl, rfl, (shutdown_unstuck _ h₈ ⟨rfl, fun s => ?_⟩).mpr (by decide)⟩
  simp [State.goSubmit, State.go, State.start]

/-- A worker waits for a job, the flag is set, and nobody wakes the worker. -/
theorem shutdown_wedges : ¬∀ (n : ℕ) (σ : State ℕ n), Reachable false σ → Closing σ → Unstuck σ := by
  intro h
  have h₁ : Reachable false (State.start ℕ 1) := .start
  have h₂ := h₁.next (.work 0 _ (.test rfl))
  have h₃ := h₂.next (.work 0 _ (.lock rfl rfl))
  have h₄ := h₃.next (.work 0 _ (.wait rfl rfl))
  have h₅ := h₄.next .shut
  rcases h 1 _ h₅ ⟨rfl, fun _ => rfl⟩ with hall | ⟨w, σ', hw⟩
  · cases hall 0
  · rw [Subsingleton.elim w 0] at hw
    generalize hσ : State.mk _ _ _ _ _ = σ at hw
    cases hw <;> subst hσ <;> contradiction

end Shutdown

end CLearning.ThreadPoolWake
