import CLearning.Machine
import Mathlib.Data.List.Nodup
import Mathlib.Data.List.Perm.Subperm
import Mathlib.Logic.Function.Basic

/-!
# The thread pool

Submitters put copies of their data on the job queue, workers take them off.
The steps are the sections under the mutex, the call of the handler and the two
calls of `free`. Every job carries the number of its creation; the number is no
field of the source, it only tells the jobs apart when memory is used again.
-/

set_option autoImplicit false

namespace CLearning.ThreadPool
open CLearning.Machine

section Source

structure Ticket where
  job : ℕ
  id : ℕ
  deriving DecidableEq

/-- What `malloc` handed out: the copied bytes or a `job_t`. -/
inductive Block where
  | bytes (content : List UInt8)
  | job (data length : ℕ)

inductive Phase where
  | handle
  | freeData
  | freeJob
  deriving DecidableEq

inductive Pc where
  | top
  | locking
  | waiting
  | busy (phase : Phase) (t : Ticket)
  | stopped

/-- The pool, its workers and submitters. A block of memory is marked with the
number of its job. The last fields record what has happened: the calls of
`threadpool_submit` with the caller's bytes and their number, the jobs put on the
queue and taken off it, the calls of the handler and of `free`. -/
structure State where
  job_queue : List Ticket
  job_size : ℕ
  shutdown : Bool
  heap : ℕ → Option (ℕ × Block)
  worker : ℕ → Pc
  submitter : ℕ → Option Ticket
  created : ℕ
  calls : List (ℕ × List UInt8 × ℕ)
  submitted : List (ℕ × List UInt8)
  taken : List ℕ
  handled : List (ℕ × List UInt8 × ℕ)
  freedData : List ℕ
  freedJob : List ℕ

namespace State

def go (σ : State) (w : ℕ) (pc : Pc) : State :=
  { σ with worker := Function.update σ.worker w pc }

def free (σ : State) (a : ℕ) : State := { σ with heap := Function.update σ.heap a none }

/-- The state behind `threadpool_create`. -/
def start : State :=
  ⟨[], 0, false, fun _ => none, fun _ => .top, fun _ => none, 0, [], [], [], [], [], []⟩

def Free (σ : State) (a : ℕ) : Prop := 0 < a ∧ a < 2^64 ∧ σ.heap a = none

/-- The first half of `threadpool_submit`: the job and its copy of the data. -/
def create (σ : State) (s job data : ℕ) (content : List UInt8) : State :=
  { σ with
    heap := Function.update (Function.update σ.heap job
      (some (σ.created, .job data content.length))) data (some (σ.created, .bytes content))
    submitter := Function.update σ.submitter s (some ⟨job, σ.created⟩)
    created := σ.created+1 }

/-- The section under the mutex of `threadpool_submit`. -/
def submit (σ : State) (s : ℕ) (t : Ticket) (content : List UInt8) : State :=
  { σ with
    job_queue := σ.job_queue ++ [t]
    job_size := (σ.job_size+1) % 2^64
    submitter := Function.update σ.submitter s none
    submitted := σ.submitted ++ [(t.id, content)] }

/-- The section under the mutex of `threadpool_handler_wrapper` on a queue that
is not empty. -/
def take (σ : State) (w : ℕ) (t : Ticket) (rest : List Ticket) : State :=
  { σ with
    job_queue := rest
    job_size := usub 64 σ.job_size 1
    taken := σ.taken ++ [t.id] }.go w (.busy .handle t)

def handle (σ : State) (w : ℕ) (t : Ticket) (data length : ℕ) (content content' : List UInt8) :
    State :=
  { σ with
    heap := Function.update σ.heap data (some (t.id, .bytes content'))
    handled := σ.handled ++ [(t.id, content, length)] }.go w (.busy .freeData t)

end State

inductive Step : State → State → Prop where
  | create (σ : State) (s job data : ℕ) (content : List UInt8) :
    σ.submitter s = none → σ.Free job → σ.Free data → job ≠ data →
      Step σ { σ.create s job data content with
        calls := σ.calls ++ [(σ.created, content, content.length)] }
  | submit (σ : State) (s : ℕ) (t : Ticket) (n data length : ℕ) (content : List UInt8) :
    σ.submitter s = some t → σ.heap t.job = some (n, .job data length) →
      σ.heap data = some (n, .bytes content) → Step σ (σ.submit s t content)
  | shut (σ : State) : Step σ { σ with shutdown := true }
  | test (σ : State) (w : ℕ) :
    σ.worker w = .top → Step σ (σ.go w (if σ.shutdown then .stopped else .locking))
  | wait (σ : State) (w : ℕ) :
    σ.worker w = .locking → σ.job_queue = [] → Step σ (σ.go w .waiting)
  | wake (σ : State) (w : ℕ) : σ.worker w = .waiting → Step σ (σ.go w .locking)
  | take (σ : State) (w : ℕ) (t : Ticket) (rest : List Ticket) :
    σ.worker w = .locking → σ.job_queue = t :: rest → Step σ (σ.take w t rest)
  | handle (σ : State) (w : ℕ) (t : Ticket) (n m data length : ℕ) (content content' : List UInt8) :
    σ.worker w = .busy .handle t → σ.heap t.job = some (n, .job data length) →
      σ.heap data = some (m, .bytes content) → content'.length = content.length →
      Step σ (σ.handle w t data length content content')
  | freeData (σ : State) (w : ℕ) (t : Ticket) (n m data length : ℕ) (content : List UInt8) :
    σ.worker w = .busy .freeData t → σ.heap t.job = some (n, .job data length) →
      σ.heap data = some (m, .bytes content) →
      Step σ (({ σ with freedData := σ.freedData ++ [t.id] }.free data).go w (.busy .freeJob t))
  | freeJob (σ : State) (w : ℕ) (t : Ticket) (n data length : ℕ) :
    σ.worker w = .busy .freeJob t → σ.heap t.job = some (n, .job data length) →
      Step σ (({ σ with freedJob := σ.freedJob ++ [t.id] }.free t.job).go w .top)

inductive Reachable : State → Prop where
  | start : Reachable .start
  | next {σ σ' : State} : Reachable σ → Step σ σ' → Reachable σ'

end Source

section Stages

inductive Stage where
  | unborn
  | ready (s : ℕ)
  | queued
  | held (w : ℕ) (phase : Phase)
  | finished
  deriving DecidableEq

def Stage.rank : Stage → ℕ
  | .unborn => 0
  | .ready _ => 1
  | .queued => 2
  | .held _ .handle => 3
  | .held _ .freeData => 4
  | .held _ .freeJob => 5
  | .finished => 6

structure Log (stage : ℕ → Stage) (k : ℕ) (l : List ℕ) : Prop where
  nodup : l.Nodup
  mem : ∀ c, c ∈ l ↔ k ≤ (stage c).rank

variable {stage : ℕ → Stage} {k c : ℕ} {l : List ℕ} {st' : Stage}

theorem Log.reach (h : Log stage k l) (hto : st'.rank = k) (hc : (stage c).rank+1 = k) :
    Log (Function.update stage c st') k (l ++ [c]) := by
  have hout : c ∉ l := by
    rw [h.mem]
    omega
  refine ⟨List.nodup_append.mpr ⟨h.nodup, by simp, fun a ha b hb => ?_⟩, fun d => ?_⟩
  · rw [List.mem_singleton.mp hb]
    exact fun he => hout (he ▸ ha)
  · by_cases hd : d = c
    · simp [hd, hto]
    · simp [hd, h.mem]

theorem Log.pass (h : Log stage k l) (hto : st'.rank = (stage c).rank+1) (hk : st'.rank ≠ k) :
    Log (Function.update stage c st') k l := by
  refine ⟨h.nodup, fun d => ?_⟩
  by_cases hd : d = c
  · subst hd
    rw [h.mem, Function.update_self]
    omega
  · simp [hd, h.mem]

/-- The memory of a job: its node, and until it is freed its data. Before the
handler is called the data are the submitted bytes. -/
def Stored (σ : State) (payload : ℕ → List UInt8) (t : Ticket) (st : Stage) : Prop :=
  0 < t.job ∧ t.job < 2^64 ∧ ∃ data, t.job ≠ data ∧
    σ.heap t.job = some (t.id, .job data (payload t.id).length) ∧
    (st.rank ≤ 4 → ∃ content, σ.heap data = some (t.id, .bytes content) ∧
      (st.rank ≤ 3 → content = payload t.id))

/-- Every job is in one stage, and the lists, the workers and the submitters
agree with it. -/
structure Sound (σ : State) (stage : ℕ → Stage) (payload : ℕ → List UInt8) : Prop where
  unborn : ∀ c, stage c = .unborn ↔ σ.created ≤ c
  ready : ∀ s t, σ.submitter s = some t → stage t.id = .ready s
  queued : ∀ t ∈ σ.job_queue, stage t.id = .queued
  held : ∀ w p t, σ.worker w = .busy p t → stage t.id = .held w p
  holder : ∀ c w p, stage c = .held w p → ∃ t, t.id = c ∧ σ.worker w = .busy p t
  stored : ∀ s t, σ.submitter s = some t → Stored σ payload t (.ready s)
  kept : ∀ t ∈ σ.job_queue, Stored σ payload t .queued
  owned : ∀ w p t, σ.worker w = .busy p t → Stored σ payload t (.held w p)
  size : σ.job_size = σ.job_queue.length
  order : σ.taken ++ σ.job_queue.map Ticket.id = σ.submitted.map Prod.fst
  submitted : Log stage 2 (σ.submitted.map Prod.fst)
  taken : Log stage 3 σ.taken
  handled : Log stage 4 (σ.handled.map Prod.fst)
  freedData : Log stage 5 σ.freedData
  freedJob : Log stage 6 σ.freedJob
  content : ∀ e ∈ σ.submitted, e.2 = payload e.1
  called : ∀ e ∈ σ.handled, e.2.1 = payload e.1 ∧ e.2.2 = (payload e.1).length
  numbers : σ.calls.map Prod.fst = List.range σ.created
  given : ∀ e ∈ σ.calls, e.2.1 = payload e.1 ∧ e.2.2 = (payload e.1).length

variable {σ : State} {payload : ℕ → List UInt8} {t u : Ticket} {st : Stage}

theorem Stored.frame (h : Stored σ payload t st) {σ' : State} {payload' : ℕ → List UInt8}
    (hm : ∀ a n b, σ.heap a = some (n, b) → n = t.id → σ'.heap a = some (n, b))
    (hp : payload' t.id = payload t.id) : Stored σ' payload' t st := by
  obtain ⟨h0, h1, data, hne, hj, hd⟩ := h
  refine ⟨h0, h1, data, hne, hp ▸ hm _ _ _ hj rfl, fun hr => ?_⟩
  obtain ⟨content, hc, hq⟩ := hd hr
  exact ⟨content, hm _ _ _ hc rfl, fun hr => hp ▸ hq hr⟩

theorem Stored.later (h : Stored σ payload t st) {st' : Stage} (h4 : st'.rank ≤ 4 → st.rank ≤ 4)
    (h3 : st'.rank ≤ 3 → st.rank ≤ 3) : Stored σ payload t st' := by
  obtain ⟨h0, h1, data, hne, hj, hd⟩ := h
  refine ⟨h0, h1, data, hne, hj, fun hr => ?_⟩
  obtain ⟨content, hc, hq⟩ := hd (h4 hr)
  exact ⟨content, hc, fun hr => hq (h3 hr)⟩

theorem Stored.read (h : Stored σ payload t st) {n data length : ℕ}
    (hj : σ.heap t.job = some (n, .job data length)) :
    n = t.id ∧ length = (payload t.id).length ∧ t.job ≠ data ∧
      (st.rank ≤ 4 → ∃ content, σ.heap data = some (t.id, .bytes content) ∧
        (st.rank ≤ 3 → content = payload t.id)) := by
  obtain ⟨_, _, d, hne, hj', hd⟩ := h
  rw [hj, Option.some_inj, Prod.mk.injEq, Block.job.injEq] at hj'
  obtain ⟨rfl, rfl, rfl⟩ := hj'
  exact ⟨rfl, rfl, hne, hd⟩

theorem Sound.ids_nodup (h : Sound σ stage payload) : (σ.job_queue.map Ticket.id).Nodup := by
  have := h.submitted.nodup
  rw [← h.order] at this
  exact (List.nodup_append.mp this).2.1

theorem length_lt {l : List Ticket} (hnd : (l.map Ticket.id).Nodup)
    (hst : ∀ t ∈ l, ∃ st, Stored σ payload t st) : l.length < 2^64 := by
  have hnd' : (l.map Ticket.job).Nodup := by
    rw [List.nodup_map_iff_inj_on (List.Nodup.of_map _ hnd)]
    intro t ht u hu htu
    obtain ⟨_, _, _, _, _, hj, _⟩ := hst t ht
    obtain ⟨_, _, _, _, _, hj', _⟩ := hst u hu
    rw [htu, hj', Option.some_inj, Prod.mk.injEq] at hj
    exact List.inj_on_of_nodup_map hnd ht hu hj.1.symm
  have hsub : l.map Ticket.job ⊆ (List.range (2^64-1)).map (·+1) := by
    intro a ha
    obtain ⟨t, ht, rfl⟩ := List.mem_map.mp ha
    obtain ⟨_, h0, h1, _⟩ := hst t ht
    exact List.mem_map.mpr ⟨t.job-1, List.mem_range.mpr (by omega), by omega⟩
  have := (List.subperm_of_subset hnd' hsub).length_le
  simp only [List.length_map, List.length_range] at this
  omega

theorem Sound.start : Sound .start (fun _ => .unborn) (fun _ => []) where
  unborn c := by simp [State.start]
  ready s t h := by simp [State.start] at h
  queued t h := by simp [State.start] at h
  held w p t h := by simp [State.start] at h
  holder c w p h := by simp at h
  stored s t h := by simp [State.start] at h
  kept t h := by simp [State.start] at h
  owned w p t h := by simp [State.start] at h
  size := rfl
  order := rfl
  submitted := ⟨by simp [State.start], by simp [State.start, Stage.rank]⟩
  taken := ⟨by simp [State.start], by simp [State.start, Stage.rank]⟩
  handled := ⟨by simp [State.start], by simp [State.start, Stage.rank]⟩
  freedData := ⟨by simp [State.start], by simp [State.start, Stage.rank]⟩
  freedJob := ⟨by simp [State.start], by simp [State.start, Stage.rank]⟩
  content := by simp [State.start]
  called := by simp [State.start]
  numbers := by simp [State.start]
  given := by simp [State.start]

section Moves

variable {pc : Pc} {w s : ℕ}

theorem Sound.lt_created (h : Sound σ stage payload) (hc : stage c ≠ .unborn) : c < σ.created := by
  by_contra hge
  exact hc ((h.unborn c).mpr (by omega))

theorem Sound.create (h : Sound σ stage payload) {job data : ℕ} {content : List UInt8}
    (hj : σ.Free job) (hd : σ.Free data) (hne : job ≠ data) :
    Sound { σ.create s job data content with
      calls := σ.calls ++ [(σ.created, content, content.length)] } (Function.update stage σ.created (.ready s))
      (Function.update payload σ.created content) := by
  have hun : stage σ.created = .unborn := (h.unborn _).mpr (Nat.le_refl _)
  have hid : ∀ c, stage c ≠ .unborn → c ≠ σ.created := fun c hc he => hc (he ▸ hun)
  have hmem : ∀ a n b, σ.heap a = some (n, b) →
      (σ.create s job data content).heap a = some (n, b) := by
    intro a n b ha
    have haj : a ≠ job := fun he => by simp [he, hj.2.2] at ha
    have had : a ≠ data := fun he => by simp [he, hd.2.2] at ha
    simpa [State.create, haj, had] using ha
  have hframe : ∀ t st, stage t.id ≠ .unborn → Stored σ payload t st →
      Stored (σ.create s job data content) (Function.update payload σ.created content) t st :=
    fun t st ht hst => hst.frame (fun a n b ha _ => hmem a n b ha) (by simp [hid _ ht])
  have hlog : ∀ k l, 1 < k → Log stage k l →
      Log (Function.update stage σ.created (.ready s)) k l := fun k l hk hl =>
    hl.pass (by simp [hun, Stage.rank]) (by simp only [Stage.rank]; omega)
  have hlate : ∀ k l c, 0 < k → Log stage k l → c ∈ l → c ≠ σ.created := by
    intro k l c hk hl hc he
    have := (hl.mem c).mp hc
    simp only [he, hun, Stage.rank] at this
    omega
  have hready : stage σ.created ≠ .ready s := by simp [hun]
  refine ⟨fun c => ?_, fun s' t ht => ?_, fun t ht => ?_, fun w p t hw => ?_,
    fun c w p hc => ?_, fun s' t ht => ?_, fun t ht => ?_, fun w p t hw => ?_, h.size, h.order,
    hlog _ _ (by omega) h.submitted, hlog _ _ (by omega) h.taken, hlog _ _ (by omega) h.handled,
    hlog _ _ (by omega) h.freedData, hlog _ _ (by omega) h.freedJob, fun e he => ?_,
    fun e he => ?_, ?_, fun e he => ?_⟩
  · by_cases hc : c = σ.created
    · simp [hc, State.create]
    · rw [Function.update_of_ne hc, h.unborn]
      simp only [State.create]
      omega
  · by_cases hss : s' = s
    · have : t = ⟨job, σ.created⟩ := by simpa [State.create, hss, eq_comm] using ht
      simp [this, hss]
    · have ht' := h.ready s' t (by simpa [State.create, hss] using ht)
      rw [Function.update_of_ne (hid _ (by simp [ht'])), ht']
  · have ht' := h.queued t ht
    rw [Function.update_of_ne (hid _ (by simp [ht'])), ht']
  · have hw' := h.held w p t hw
    rw [Function.update_of_ne (hid _ (by simp [hw'])), hw']
  · by_cases hcc : c = σ.created
    · simp [hcc] at hc
    · exact h.holder c w p (by simpa [hcc] using hc)
  · by_cases hss : s' = s
    · have : t = ⟨job, σ.created⟩ := by simpa [State.create, hss, eq_comm] using ht
      subst this
      refine ⟨hj.1, hj.2.1, data, hne, by simp [State.create, hne], fun _ => ?_⟩
      exact ⟨content, by simp [State.create], fun _ => by simp⟩
    · have ht' : σ.submitter s' = some t := by simpa [State.create, hss] using ht
      exact hframe t _ (by simp [h.ready s' t ht']) (h.stored s' t ht')
  · exact hframe t _ (by simp [h.queued t ht]) (h.kept t ht)
  · exact hframe t _ (by simp [h.held w p t hw]) (h.owned w p t hw)
  · have hec := hlate 2 _ e.1 (by omega) h.submitted (List.mem_map.mpr ⟨e, he, rfl⟩)
    rw [Function.update_of_ne hec]
    exact h.content e he
  · have hec := hlate 4 _ e.1 (by omega) h.handled (List.mem_map.mpr ⟨e, he, rfl⟩)
    rw [Function.update_of_ne hec]
    exact h.called e he
  · rw [List.map_append, h.numbers]
    exact List.range_succ.symm
  · rcases List.mem_append.mp he with he | he
    · have hlt : e.1 < σ.created :=
        List.mem_range.mp (h.numbers ▸ List.mem_map.mpr ⟨e, he, rfl⟩)
      rw [Function.update_of_ne (Nat.ne_of_lt hlt)]
      exact h.given e he
    · simp [List.mem_singleton.mp he]

theorem Sound.submit (h : Sound σ stage payload) {content : List UInt8}
    (hs : σ.submitter s = some t) (hc : content = payload t.id) :
    Sound (σ.submit s t content) (Function.update stage t.id .queued) payload := by
  have hst := h.ready s t hs
  have hid : ∀ c, stage c ≠ .ready s → c ≠ t.id := fun c hc he => hc (he ▸ hst)
  have hlog : ∀ k l, 2 < k → Log stage k l → Log (Function.update stage t.id .queued) k l :=
    fun k l hk hl => hl.pass (by simp [hst, Stage.rank]) (by simp only [Stage.rank]; omega)
  have hkept : ∀ u ∈ σ.job_queue ++ [t], Stored σ payload u .queued := fun u hu => by
    rcases List.mem_append.mp hu with hu | hu
    · exact h.kept u hu
    · rw [List.mem_singleton.mp hu]
      exact (h.stored s t hs).later (fun _ => by simp [Stage.rank]) (fun _ => by simp [Stage.rank])
  have hlen : (σ.job_queue ++ [t]).length < 2^64 := by
    refine length_lt ?_ fun u hu => ⟨_, hkept u hu⟩
    rw [List.map_append, List.nodup_append]
    refine ⟨h.ids_nodup, by simp, fun a ha b hb => ?_⟩
    obtain ⟨u, hu, rfl⟩ := List.mem_map.mp ha
    have : b = t.id := by simpa using hb
    exact this ▸ hid _ (by simp [h.queued u hu])
  refine ⟨fun c => ?_, fun s' u hu => ?_, fun u hu => ?_, fun w p u hw => ?_,
    fun c w p hcw => ?_, fun s' u hu => ?_, hkept, h.owned, ?_, ?_,
    ?_, hlog _ _ (by omega) h.taken, hlog _ _ (by omega) h.handled,
    hlog _ _ (by omega) h.freedData, hlog _ _ (by omega) h.freedJob, fun e he => ?_, h.called,
    h.numbers, h.given⟩
  · by_cases hcc : c = t.id
    · have := h.lt_created (c := c) (by simp [hcc, hst])
      simp only [hcc, Function.update_self, State.submit]
      exact ⟨fun hq => by simp at hq, fun hq => by omega⟩
    · rw [Function.update_of_ne hcc, h.unborn]
      rfl
  · by_cases hss : s' = s
    · simp [State.submit, hss] at hu
    · have hu' := h.ready s' u (by simpa [State.submit, hss] using hu)
      rw [Function.update_of_ne (hid _ (by simp [hu', hss])), hu']
  · rcases List.mem_append.mp hu with hu | hu
    · have hu' := h.queued u hu
      rw [Function.update_of_ne (hid _ (by simp [hu'])), hu']
    · simp [List.mem_singleton.mp hu]
  · have hw' := h.held w p u hw
    rw [Function.update_of_ne (hid _ (by simp [hw'])), hw']
  · by_cases hcc : c = t.id
    · simp [hcc] at hcw
    · exact h.holder c w p (by simpa [hcc] using hcw)
  · by_cases hss : s' = s
    · simp [State.submit, hss] at hu
    · exact h.stored s' u (by simpa [State.submit, hss] using hu)
  · rw [List.length_append, List.length_singleton] at hlen
    simp only [State.submit, h.size, List.length_append, List.length_singleton]
    exact Nat.mod_eq_of_lt hlen
  · simp only [State.submit, List.map_append, List.map_cons, List.map_nil, ← h.order,
      List.append_assoc]
  · simp only [State.submit, List.map_append, List.map_cons, List.map_nil]
    exact h.submitted.reach rfl (by simp [hst, Stage.rank])
  · rcases List.mem_append.mp he with he | he
    · exact h.content e he
    · simp [List.mem_singleton.mp he, hc]

theorem Sound.take (h : Sound σ stage payload) {rest : List Ticket}
    (hw : σ.worker w = .locking) (hq : σ.job_queue = t :: rest) :
    Sound (σ.take w t rest) (Function.update stage t.id (.held w .handle)) payload := by
  have hst := h.queued t (by simp [hq])
  have hid : ∀ c, stage c ≠ .queued → c ≠ t.id := fun c hc he => hc (he ▸ hst)
  have hlog : ∀ k l, k ≠ 3 → Log stage k l →
      Log (Function.update stage t.id (.held w .handle)) k l :=
    fun k l hk hl => hl.pass (by simp [hst, Stage.rank]) (by simp only [Stage.rank]; omega)
  have hnd := h.ids_nodup
  rw [hq, List.map_cons, List.nodup_cons] at hnd
  have hrest : ∀ u ∈ rest, u.id ≠ t.id := fun u hu he =>
    hnd.1 (he ▸ List.mem_map.mpr ⟨u, hu, rfl⟩)
  have hlen := length_lt h.ids_nodup fun u hu => ⟨_, h.kept u hu⟩
  refine ⟨fun c => ?_, fun s' u hu => ?_, fun u hu => ?_, fun v p u hv => ?_,
    fun c v p hcv => ?_, h.stored, fun u hu => h.kept u (by simp [hq, show u ∈ rest from hu]),
    fun v p u hv => ?_, ?_, ?_,
    hlog _ _ (by omega) h.submitted, ?_, hlog _ _ (by omega) h.handled,
    hlog _ _ (by omega) h.freedData, hlog _ _ (by omega) h.freedJob, h.content, h.called,
    h.numbers, h.given⟩
  · by_cases hcc : c = t.id
    · have := h.lt_created (c := c) (by simp [hcc, hst])
      simp only [hcc, Function.update_self, State.take, State.go]
      exact ⟨fun hq => by simp at hq, fun hq => by omega⟩
    · rw [Function.update_of_ne hcc, h.unborn]
      rfl
  · have hu' := h.ready s' u hu
    rw [Function.update_of_ne (hid _ (by simp [hu'])), hu']
  · rw [Function.update_of_ne (hrest u hu)]
    exact h.queued u (by simp [hq, show u ∈ rest from hu])
  · by_cases hvw : v = w
    · have : Phase.handle = p ∧ t = u := by simpa [State.take, State.go, hvw] using hv
      simp [← this.1, ← this.2, hvw]
    · have hu' := h.held v p u (by simpa [State.take, State.go, hvw] using hv)
      rw [Function.update_of_ne (hid _ (by simp [hu'])), hu']
  · by_cases hcc : c = t.id
    · have : w = v ∧ Phase.handle = p := by simpa [hcc] using hcv
      exact ⟨t, hcc.symm, by simp [State.take, State.go, this.1, this.2]⟩
    · obtain ⟨u, hu, hv⟩ := h.holder c v p (by simpa [hcc] using hcv)
      have hvw : v ≠ w := fun he => by simp [← he, hv] at hw
      exact ⟨u, hu, by simpa [State.take, State.go, hvw] using hv⟩
  · by_cases hvw : v = w
    · have : Phase.handle = p ∧ t = u := by simpa [State.take, State.go, hvw] using hv
      rw [← this.1, ← this.2]
      exact (h.kept t (by simp [hq])).later (fun _ => by simp [Stage.rank])
        (fun _ => by simp [Stage.rank])
    · exact h.owned v p u (by simpa [State.take, State.go, hvw] using hv)
  · rw [hq, List.length_cons] at hlen
    simp only [State.take, State.go, h.size, hq, List.length_cons]
    rw [usub_of_le (by omega) hlen, Nat.add_sub_cancel]
  · simp [State.take, State.go, ← h.order, hq]
  · exact h.taken.reach rfl (by simp [hst, Stage.rank])

/-- A worker goes on with the job it holds. -/
theorem Sound.advance (h : Sound σ stage payload) {σ' : State} {p : Phase}
    (hw : σ.worker w = .busy p t) (hr : st'.rank = (Stage.held w p).rank+1)
    (hpc : ∀ p' u, pc = .busy p' u ↔ u = t ∧ st' = .held w p') (hst' : ∀ v q, st' = .held v q → v = w)
    (hq : σ'.job_queue = σ.job_queue) (hz : σ'.job_size = σ.job_size)
    (hs : σ'.submitter = σ.submitter) (hc : σ'.created = σ.created)
    (hca : σ'.calls = σ.calls) (hsub : σ'.submitted = σ.submitted) (htk : σ'.taken = σ.taken)
    (hwk : σ'.worker = Function.update σ.worker w pc)
    (hm : ∀ a n b, σ.heap a = some (n, b) → n ≠ t.id → σ'.heap a = some (n, b))
    (ho : ∀ p', st' = .held w p' → Stored σ' payload t st')
    (hh : Log (Function.update stage t.id st') 4 (σ'.handled.map Prod.fst))
    (hd : Log (Function.update stage t.id st') 5 σ'.freedData)
    (hj : Log (Function.update stage t.id st') 6 σ'.freedJob)
    (hcall : ∀ e ∈ σ'.handled, e.2.1 = payload e.1 ∧ e.2.2 = (payload e.1).length) :
    Sound σ' (Function.update stage t.id st') payload := by
  have hst := h.held w p t hw
  have h3 : 3 ≤ (Stage.held w p).rank := by cases p <;> simp [Stage.rank]
  have hid : ∀ c, stage c ≠ .held w p → c ≠ t.id := fun c hc he => hc (he ▸ hst)
  have hframe : ∀ u st, stage u.id ≠ .held w p → Stored σ payload u st → Stored σ' payload u st :=
    fun u st hu hst => hst.frame (fun a n b ha hn => hm a n b ha (hn ▸ hid _ hu)) rfl
  have hlog : ∀ k l, k ≤ 3 → Log stage k l → Log (Function.update stage t.id st') k l :=
    fun k l hk hl => hl.pass (by rw [hst, hr]) (by omega)
  have hother : ∀ v q u, v ≠ w → σ.worker v = .busy q u → stage u.id ≠ .held w p := by
    intro v q u hv hu he
    rw [h.held v q u hu, Stage.held.injEq] at he
    exact hv he.1
  refine ⟨fun c => ?_, fun s' u hu => ?_, fun u hu => ?_, fun v q u hv => ?_,
    fun c v q hcv => ?_, fun s' u hu => ?_, fun u hu => ?_, fun v q u hv => ?_, ?_, ?_, ?_, ?_,
    hh, hd, hj, ?_, hcall, by rw [hca, hc, h.numbers], by rw [hca]; exact h.given⟩
  · by_cases hcc : c = t.id
    · have hlt := h.lt_created (c := c) (by simp [hcc, hst])
      rw [hcc, Function.update_self, hc]
      refine ⟨fun hu => ?_, fun hge => by omega⟩
      simp only [hu, Stage.rank] at hr
      omega
    · rw [Function.update_of_ne hcc, h.unborn, hc]
  · rw [hs] at hu
    have hu' := h.ready s' u hu
    rw [Function.update_of_ne (hid _ (by simp [hu'])), hu']
  · rw [hq] at hu
    have hu' := h.queued u hu
    rw [Function.update_of_ne (hid _ (by simp [hu'])), hu']
  · rw [hwk] at hv
    by_cases hvw : v = w
    · subst hvw
      rw [Function.update_self, hpc] at hv
      rw [hv.1, Function.update_self, hv.2]
    · rw [Function.update_of_ne hvw] at hv
      rw [Function.update_of_ne (hid _ (hother v q u hvw hv)), h.held v q u hv]
  · rw [hwk]
    by_cases hcc : c = t.id
    · rw [hcc, Function.update_self] at hcv
      obtain rfl := hst' v q hcv
      exact ⟨t, hcc.symm, by rw [Function.update_self, hpc]; exact ⟨rfl, hcv⟩⟩
    · rw [Function.update_of_ne hcc] at hcv
      obtain ⟨u, hu, hv⟩ := h.holder c v q hcv
      have hvw : v ≠ w := fun he => by
        rw [he, hw] at hv
        simp only [Pc.busy.injEq] at hv
        exact hcc (hu ▸ hv.2 ▸ rfl)
      exact ⟨u, hu, by rw [Function.update_of_ne hvw, hv]⟩
  · rw [hs] at hu
    exact hframe u _ (by simp [h.ready s' u hu]) (h.stored s' u hu)
  · rw [hq] at hu
    exact hframe u _ (by simp [h.queued u hu]) (h.kept u hu)
  · rw [hwk] at hv
    by_cases hvw : v = w
    · subst hvw
      rw [Function.update_self, hpc] at hv
      rw [hv.1, ← hv.2]
      exact ho q hv.2
    · rw [Function.update_of_ne hvw] at hv
      exact hframe u _ (hother v q u hvw hv) (h.owned v q u hv)
  · rw [hz, hq, h.size]
  · rw [htk, hq, hsub, h.order]
  · rw [hsub]
    exact hlog _ _ (by omega) h.submitted
  · rw [htk]
    exact hlog _ _ (by omega) h.taken
  · rw [hsub]
    exact h.content

theorem Sound.handle (h : Sound σ stage payload) {n m data length : ℕ}
    {content content' : List UInt8} (hw : σ.worker w = .busy .handle t)
    (hj : σ.heap t.job = some (n, .job data length))
    (hd : σ.heap data = some (m, .bytes content)) :
    Sound (σ.handle w t data length content content')
      (Function.update stage t.id (.held w .freeData)) payload := by
  have hst := h.held w _ t hw
  obtain ⟨rfl, hlen, hne, hread⟩ := (h.owned w _ t hw).read hj
  obtain ⟨c, hc, hcp⟩ := hread (by simp [Stage.rank])
  rw [hd, Option.some_inj, Prod.mk.injEq, Block.bytes.injEq] at hc
  obtain ⟨rfl, rfl⟩ := hc
  have hpay := hcp (by simp [Stage.rank])
  have h0 := h.owned w _ t hw
  refine h.advance hw (by simp [Stage.rank]) (by simp [eq_comm, and_comm])
    (by simp [eq_comm]) rfl rfl rfl rfl rfl rfl rfl rfl (fun a n b ha hn => ?_) (fun _ _ => ?_) ?_
    (h.freedData.pass (by simp [hst, Stage.rank]) (by simp [Stage.rank]))
    (h.freedJob.pass (by simp [hst, Stage.rank]) (by simp [Stage.rank])) (fun e he => ?_)
  · have had : a ≠ data := fun he => by
      rw [he, hd, Option.some_inj, Prod.mk.injEq] at ha
      exact hn ha.1.symm
    simpa [State.handle, State.go, had] using ha
  · refine ⟨h0.1, h0.2.1, data, hne, ?_, fun _ => ⟨content', ?_, fun h3 => ?_⟩⟩
    · simpa [State.handle, State.go, hne, hlen] using hj
    · simp [State.handle, State.go]
    · simp [Stage.rank] at h3
  · simp only [State.handle, State.go, List.map_append, List.map_cons, List.map_nil]
    exact h.handled.reach rfl (by simp [hst, Stage.rank])
  · rcases List.mem_append.mp he with he | he
    · exact h.called e he
    · simp [List.mem_singleton.mp he, hpay, hlen]

end Moves

end Stages

section Jobs

variable {σ : State} {stage : ℕ → Stage} {payload : ℕ → List UInt8}

def Holds (σ : State) (w c : ℕ) : Prop := ∃ p t, σ.worker w = .busy p t ∧ t.id = c

theorem Sound.holds_iff (h : Sound σ stage payload) (w c : ℕ) :
    Holds σ w c ↔ ∃ p, stage c = .held w p := by
  constructor
  · rintro ⟨p, t, hw, rfl⟩
    exact ⟨p, h.held w p t hw⟩
  · rintro ⟨p, hc⟩
    obtain ⟨t, ht, hw⟩ := h.holder c w p hc
    exact ⟨p, t, hw, ht⟩

end Jobs

end CLearning.ThreadPool
