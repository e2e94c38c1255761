import CLearning.LinkedLists
import CLearning.Machine
import Mathlib.Data.List.ReduceOption

/-!
# The event queue

`event_queue.h` keeps events in a circular doubly linked list closed by a head
node. `malloc` is assumed to succeed; no node is ever freed, so nodes are
numbered in the order of their allocation. Threads push and pop under one
mutex, and the queue they share is the queue of a single run of calls.
-/

set_option autoImplicit false

namespace CLearning.EventQueue
open CLearning.LinkedLists CLearning.Machine

section Source

variable {α : Type}

structure Entry (α : Type) where
  e : Option α
  prev : Option ℕ
  next : Option ℕ

/-- `struct dequeue` with the nodes allocated so far. -/
structure Dequeue (α : Type) where
  head : ℕ
  tail : ℕ
  size : ℕ
  nodes : ℕ → Entry α
  allocated : ℕ

def intMax : ℕ := 2147483647

namespace Dequeue

def setPrev (dq : Dequeue α) (a : ℕ) (v : Option ℕ) : Dequeue α :=
  { dq with nodes := Function.update dq.nodes a { dq.nodes a with prev := v } }

def setNext (dq : Dequeue α) (a : ℕ) (v : Option ℕ) : Dequeue α :=
  { dq with nodes := Function.update dq.nodes a { dq.nodes a with next := v } }

end Dequeue

def dequeueCreateEntry (dq : Dequeue α) (e : Option α) : Dequeue α × ℕ :=
  ({ dq with
    nodes := Function.update dq.nodes dq.allocated ⟨e, none, none⟩
    allocated := dq.allocated+1 }, dq.allocated)

def dequeueCreate : Dequeue α :=
  let r := dequeueCreateEntry ⟨0, 0, 0, fun _ => ⟨none, none, none⟩, 0⟩ none
  let dq := { r.1 with head := r.2 }
  let dq := dq.setPrev dq.head (some dq.head)
  let dq := dq.setNext dq.head none
  { dq with tail := dq.head, size := 0 }

def dequeueEmpty (dq : Dequeue α) : Bool := dq.size = 0

def dequeuePush (dq : Dequeue α) (e : α) : Run (Dequeue α) :=
  let r := dequeueCreateEntry dq (some e)
  let dq := r.1
  let entry := r.2
  let dq := dq.setPrev entry (some dq.tail)
  let dq := dq.setNext dq.tail (some entry)
  let dq := { dq with tail := entry }
  let dq := dq.setPrev dq.head (some dq.tail)
  let dq := dq.setNext dq.tail (some dq.head)
  if dq.size = intMax then .error .intOverflow else .ok { dq with size := dq.size+1 }

/-- `dequeue_pop`; the counter is not zero where it is decremented. -/
def dequeuePop (dq : Dequeue α) : Run (Dequeue α × Option α) :=
  if dq.size = 0 then .ok (dq, none)
  else do
    let entry ← deref (dq.nodes dq.head).next
    if entry = dq.tail then
      .ok ({ dq with tail := dq.head, size := dq.size-1 }, (dq.nodes entry).e)
    else do
      let dq := dq.setNext dq.head (dq.nodes entry).next
      let next ← deref (dq.nodes entry).next
      let dq := dq.setPrev next (dq.nodes entry).prev
      .ok ({ dq with size := dq.size-1 }, (dq.nodes entry).e)

inductive Op (α : Type) where
  | push (e : α)
  | pop

def step (dq : Dequeue α) : Op α → Run (Dequeue α × List (Option α))
  | .push e => do
    let dq ← dequeuePush dq e
    .ok (dq, [])
  | .pop => do
    let r ← dequeuePop dq
    .ok (r.1, [r.2])

def runOps (dq : Dequeue α) : List (Op α) → Run (Dequeue α × List (Option α))
  | [] => .ok (dq, [])
  | op :: ops => do
    let r ← step dq op
    let r' ← runOps r.1 ops
    .ok (r'.1, r.2 ++ r'.2)

end Source

section Fifo

variable {α : Type}

def fifoStep (q : List α) : Op α → Option (List α × List (Option α))
  | .push e => if q.length = intMax then none else some (q ++ [e], [])
  | .pop => some (q.tail, [q.head?])

def fifo (q : List α) : List (Op α) → Option (List α × List (Option α))
  | [] => some (q, [])
  | op :: ops => do
    let r ← fifoStep q op
    let r' ← fifo r.1 ops
    some (r'.1, r.2 ++ r'.2)

def pushed (ops : List (Op α)) : List α :=
  ops.filterMap fun
    | .push e => some e
    | .pop => none

/-- What was popped, followed by what is queued, is what was there and what was
pushed, in this order. -/
theorem fifo_conserves {q q' : List α} {ops : List (Op α)} {outs : List (Option α)}
    (h : fifo q ops = some (q', outs)) : outs.reduceOption ++ q' = q ++ pushed ops := by
  induction ops generalizing q q' outs with
  | nil =>
    simp only [fifo, Option.some.injEq, Prod.mk.injEq] at h
    simp [← h.1, ← h.2, pushed]
  | cons op ops ih =>
    simp only [fifo, Option.bind_eq_bind, Option.bind_eq_some_iff, Option.some.injEq,
      Prod.mk.injEq, Prod.exists] at h
    obtain ⟨q₁, o₁, h₁, q₂, o₂, h₂, rfl, rfl⟩ := h
    have := ih h₂
    rw [List.reduceOption_append, List.append_assoc, this]
    cases op with
    | push e =>
      simp only [fifoStep] at h₁
      split at h₁
      · simp at h₁
      · simp only [Option.some.injEq, Prod.mk.injEq] at h₁
        simp [← h₁.1, ← h₁.2, pushed]
    | pop =>
      simp only [fifoStep, Option.some.injEq, Prod.mk.injEq] at h₁
      cases q <;> simp [← h₁.1, ← h₁.2, pushed]

end Fifo

section Ring

variable {α : Type} {dq dq' : Dequeue α} {l : List ℕ} {q : List α} {a b : ℕ} {v : Option ℕ}

def links (dq : Dequeue α) : Links ℕ := ⟨fun a => (dq.nodes a).prev, fun a => (dq.nodes a).next⟩

/-- The nodes `l` hold the events `q`. They form a circle with the head node;
while there are none, the pointers of the head node are of no account. -/
structure Ring (dq : Dequeue α) (l : List ℕ) (q : List α) : Prop where
  events : l.map (fun a => (dq.nodes a).e) = q.map some
  nodup : (dq.head :: l).Nodup
  allocated : ∀ a ∈ dq.head :: l, a < dq.allocated
  size : dq.size = l.length
  bound : dq.size ≤ intMax
  tail : dq.tail = l.getLast?.getD dq.head
  circle : l ≠ [] → (dq.nodes dq.head).next = l.head? ∧ (dq.nodes dq.head).prev = l.getLast? ∧
    Seg (links dq) (some dq.head) l (some dq.head)

@[simp] theorem setPrev_head : (dq.setPrev a v).head = dq.head := rfl
@[simp] theorem setPrev_tail : (dq.setPrev a v).tail = dq.tail := rfl
@[simp] theorem setPrev_size : (dq.setPrev a v).size = dq.size := rfl
@[simp] theorem setPrev_allocated : (dq.setPrev a v).allocated = dq.allocated := rfl
@[simp] theorem setNext_head : (dq.setNext a v).head = dq.head := rfl
@[simp] theorem setNext_tail : (dq.setNext a v).tail = dq.tail := rfl
@[simp] theorem setNext_size : (dq.setNext a v).size = dq.size := rfl
@[simp] theorem setNext_allocated : (dq.setNext a v).allocated = dq.allocated := rfl

@[simp] theorem setPrev_e : ((dq.setPrev a v).nodes b).e = (dq.nodes b).e := by
  by_cases h : b = a <;> simp [Dequeue.setPrev, h]

@[simp] theorem setPrev_next : ((dq.setPrev a v).nodes b).next = (dq.nodes b).next := by
  by_cases h : b = a <;> simp [Dequeue.setPrev, h]

theorem setPrev_prev :
    ((dq.setPrev a v).nodes b).prev = if b = a then v else (dq.nodes b).prev := by
  by_cases h : b = a <;> simp [Dequeue.setPrev, h]

@[simp] theorem setNext_e : ((dq.setNext a v).nodes b).e = (dq.nodes b).e := by
  by_cases h : b = a <;> simp [Dequeue.setNext, h]

@[simp] theorem setNext_prev : ((dq.setNext a v).nodes b).prev = (dq.nodes b).prev := by
  by_cases h : b = a <;> simp [Dequeue.setNext, h]

theorem setNext_next :
    ((dq.setNext a v).nodes b).next = if b = a then v else (dq.nodes b).next := by
  by_cases h : b = a <;> simp [Dequeue.setNext, h]

theorem dequeueCreate_ring : Ring (dequeueCreate : Dequeue α) [] [] := by
  refine ⟨rfl, by simp, by simp [dequeueCreate, dequeueCreateEntry], rfl, ?_, rfl, by simp⟩
  simp [dequeueCreate]

theorem Ring.length (h : Ring dq l q) : l.length = q.length := by
  simpa using congrArg List.length h.events

theorem Ring.tail_mem (h : Ring dq l q) : dq.tail ∈ dq.head :: l := by
  rw [h.tail]
  cases hl : l.getLast? with
  | none => simp
  | some t => simp [List.mem_of_getLast? hl]

/-- A push either overflows the counter or puts a node at the end. -/
theorem dequeuePush_spec (h : Ring dq l q) (e : α) :
    if q.length = intMax then dequeuePush dq e = .error .intOverflow
    else ∃ dq', dequeuePush dq e = .ok dq' ∧ Ring dq' (l ++ [dq.allocated]) (q ++ [e]) := by
  have hsize : dq.size = q.length := h.size.trans h.length
  split
  · rename_i hfull
    rw [dequeuePush, if_pos (by simpa [dequeueCreateEntry, hsize] using hfull)]
  rename_i hroom
  set n := dq.allocated with hn
  have hnew : ∀ a ∈ dq.head :: l, a ≠ n := fun a ha => Nat.ne_of_lt (h.allocated a ha)
  have hhead : dq.head ≠ n := hnew _ (by simp)
  have htail : dq.tail ≠ n := hnew _ h.tail_mem
  set dq₁ := ((((dequeueCreateEntry dq (some e)).1.setPrev n (some dq.tail)).setNext dq.tail
    (some n)).setPrev dq.head (some n)).setNext n (some dq.head) with hdq₁
  have hrun : dequeuePush dq e = .ok { dq₁ with tail := n, size := dq.size+1 } := by
    rw [dequeuePush, if_neg (by simpa [dequeueCreateEntry, hsize] using hroom)]
    rfl
  have hold : ∀ a, a ≠ n → ((dequeueCreateEntry dq (some e)).1.nodes a) = dq.nodes a :=
    fun a ha => by simp [dequeueCreateEntry, ← hn, ha]
  have he : ∀ a, a ≠ n → (dq₁.nodes a).e = (dq.nodes a).e := fun a ha => by
    simp [hdq₁, hold a ha]
  have hen : (dq₁.nodes n).e = some e := by simp [hdq₁, dequeueCreateEntry, ← hn]
  have hnext : ∀ a, a ≠ n → (dq₁.nodes a).next = if a = dq.tail then some n
      else (dq.nodes a).next := fun a ha => by
    simp [hdq₁, setNext_next, hold a ha, ha]
  have hprev : ∀ a, a ≠ n → (dq₁.nodes a).prev = if a = dq.head then some n
      else (dq.nodes a).prev := fun a ha => by
    simp [hdq₁, setPrev_prev, hold a ha, ha]
  have hnextn : (dq₁.nodes n).next = some dq.head := by simp [hdq₁, setNext_next]
  have hprevn : (dq₁.nodes n).prev = some dq.tail := by
    simp [hdq₁, setPrev_prev, Ne.symm hhead]
  have hhd : dq₁.head = dq.head := rfl
  have hal : dq₁.allocated = n+1 := rfl
  clear_value dq₁
  refine ⟨_, hrun, ?_⟩
  have hnd := h.nodup
  have hout : n ∉ l := fun hc => hnew n (by simp [hc]) rfl
  refine ⟨?_, ?_, ?_, ?_, ?_, ?_, fun _ => ?_⟩
  · simp only [List.map_append, List.map_cons, List.map_nil, hen]
    rw [← h.events, List.map_congr_left fun a ha => he a (hnew a (by simp [ha]))]
  · rw [List.nodup_cons] at hnd ⊢
    simp only [hhd]
    refine ⟨by simp [hnd.1, hhead], ?_⟩
    rw [List.nodup_append]
    exact ⟨hnd.2, by simp, fun a ha b hb => by
      rw [List.mem_singleton.mp hb]
      exact hnew a (by simp [ha])⟩
  · intro a ha
    simp only [hhd, List.mem_cons, List.mem_append, List.not_mem_nil, or_false] at ha
    simp only [hal]
    rcases ha with ha | ha | ha
    · have := h.allocated dq.head (by simp)
      omega
    · have := h.allocated a (by simp [ha])
      omega
    · omega
  · simp [h.size]
  · have := h.bound
    simp only
    omega
  · simp
  · simp only [hhd]
    have hseg : Seg (links dq₁) (some dq.head) l (some n) := by
      by_cases hl : l = []
      · simp [hl]
      · refine (h.circle hl).2.2.relinkLast (List.nodup_cons.mp hnd).2 (fun x hx => ?_)
          (fun x hx => ?_)
        · have hxh : x ≠ dq.head := fun hc => (List.nodup_cons.mp hnd).1 (hc ▸ hx)
          simp [links, hprev x (hnew x (by simp [hx])), hxh]
        · have ht : l.getLast? = some dq.tail := by
            rw [h.tail, List.getLast?_eq_getLast_of_ne_nil hl]
            rfl
          simp [links, hnext x (hnew x (by simp [hx])), ht, eq_comm]
    have hlast : l.getLast?.or (some dq.head) = some dq.tail := by
      rw [h.tail]
      cases l.getLast? <;> rfl
    refine ⟨?_, by simp [hprev dq.head hhead], ?_⟩
    · rw [hnext dq.head hhead]
      by_cases hl : l = []
      · simp [hl, h.tail]
      · have hth : dq.head ≠ dq.tail := by
          rw [h.tail, List.getLast?_eq_getLast_of_ne_nil hl]
          intro hc
          exact (List.nodup_cons.mp hnd).1 (hc ▸ List.getLast_mem hl)
        rw [if_neg hth, (h.circle hl).1, List.head?_append_of_ne_nil _ hl]
    · rw [seg_append]
      refine ⟨hseg, ?_⟩
      rw [hlast]
      exact ⟨hprevn, by simpa [links] using hnextn, trivial⟩

/-- A pop takes the first node out, and none when the queue is empty. -/
theorem dequeuePop_spec (h : Ring dq l q) :
    ∃ dq', dequeuePop dq = .ok (dq', q.head?) ∧ Ring dq' l.tail q.tail := by
  cases l with
  | nil =>
    have hq : q = [] := by simpa using h.events.symm
    subst hq
    refine ⟨dq, ?_, h⟩
    rw [dequeuePop, if_pos (by simpa using h.size)]
    rfl
  | cons a l =>
    cases q with
    | nil => simpa using h.length
    | cons x q =>
    obtain ⟨hnext, hprev, hseg⟩ := h.circle (by simp)
    obtain ⟨hpa, hna, hseg'⟩ := hseg
    have hev : (dq.nodes a).e = some x ∧ l.map (fun a => (dq.nodes a).e) = q.map some := by
      simpa using h.events
    have hsz : dq.size = l.length+1 := h.size
    have hnd := h.nodup
    rw [List.nodup_cons, List.nodup_cons] at hnd
    have hah : a ≠ dq.head := fun hc => hnd.1 (by simp [hc])
    cases l with
    | nil =>
      refine ⟨{ dq with tail := dq.head, size := dq.size-1 }, ?_, ?_⟩
      · have hta : dq.tail = a := by simpa using h.tail
        rw [dequeuePop, if_neg (by omega), hnext, List.head?_cons, deref_some, ok_bind,
          if_pos hta.symm, hev.1]
        rfl
      · refine ⟨hev.2, by simp, ?_, by simp [hsz], ?_, rfl, fun hc => absurd rfl hc⟩
        · simpa using h.allocated dq.head (by simp)
        · have := h.bound
          simp only
          omega
    | cons b l =>
      have hbh : b ≠ dq.head := fun hc => hnd.1 (by simp [hc])
      have hta : dq.tail = (b :: l).getLast (by simp) := by
        rw [h.tail, List.getLast?_eq_getLast_of_ne_nil (by simp), List.getLast_cons (by simp)]
        rfl
      have htne : a ≠ dq.tail := fun hc => hnd.2.1 (hc ▸ hta ▸ List.getLast_mem _)
      have hnb : (dq.nodes a).next = some b := hna
      set dq₁ := (dq.setNext dq.head (some b)).setPrev b (some dq.head) with hdq₁
      have hrun : dequeuePop dq = .ok ({ dq₁ with size := dq.size-1 }, some x) := by
        rw [dequeuePop, if_neg (by omega), hnext, List.head?_cons, deref_some, ok_bind,
          if_neg htne]
        have hn' : ((dq.setNext dq.head (some b)).nodes a).next = some b := by
          rw [setNext_next, if_neg hah, hnb]
        have hp' : (dq.nodes a).prev = some dq.head := hpa
        simp only [hnb, hn', deref_some, ok_bind, setNext_prev, hp', setPrev_e, setNext_e, hev.1]
        rfl
      refine ⟨_, hrun, ⟨?_, hnd.1 |> fun hc => ?_, ?_, ?_, ?_, ?_, fun _ => ⟨?_, ?_, ?_⟩⟩⟩
      · simpa [hdq₁] using hev.2
      · refine List.nodup_cons.mpr ⟨fun hm => hc ?_, hnd.2.2⟩
        exact List.mem_cons_of_mem _ hm
      · intro c hc
        refine h.allocated c ?_
        rcases List.mem_cons.mp hc with hc | hc
        · simp [hc, hdq₁]
        · exact List.mem_cons_of_mem _ (List.mem_cons_of_mem _ hc)
      · simp [hsz]
      · have := h.bound
        simp only
        omega
      · simp only [hdq₁, setPrev_tail, setNext_tail, List.tail_cons]
        rw [hta, List.getLast?_eq_getLast_of_ne_nil (by simp)]
        rfl
      · simp [hdq₁, setNext_next]
      · simp only [hdq₁, setPrev_head, setNext_head, setPrev_prev, Ne.symm hbh, if_false,
          setNext_prev, hprev, List.tail_cons, List.getLast?_cons_cons]
      · refine (hseg'.relinkFirst hnd.2.2 (fun y hy => ?_) (fun y hy => ?_))
        · have hyb : b = y ↔ y = b := eq_comm
          simp [links, hdq₁, setPrev_prev, hyb]
        · have hyh : y ≠ dq.head := fun hc => hnd.1 (hc ▸ List.mem_cons_of_mem _ hy)
          simp [links, hdq₁, setNext_next, hyh]

theorem step_spec (h : Ring dq l q) (op : Op α) :
    match fifoStep q op with
    | none => step dq op = .error .intOverflow
    | some (q', outs) => ∃ dq' l', step dq op = .ok (dq', outs) ∧ Ring dq' l' q' := by
  cases op with
  | push e =>
    have hp := dequeuePush_spec h e
    simp only [fifoStep]
    split at hp
    · rename_i hfull
      simp only [hfull, if_true, step, hp, error_bind]
    · rename_i hroom
      obtain ⟨dq', hrun, h'⟩ := hp
      simp only [hroom, if_false, step, hrun, ok_bind]
      exact ⟨dq', _, rfl, h'⟩
  | pop =>
    obtain ⟨dq', hrun, h'⟩ := dequeuePop_spec h
    simp only [fifoStep, step, hrun, ok_bind]
    exact ⟨dq', _, rfl, h'⟩

/-- The calls do what the queue of events does, up to the overflow of the
counter. -/
theorem runOps_spec (h : Ring dq l q) (ops : List (Op α)) :
    match fifo q ops with
    | none => runOps dq ops = .error .intOverflow
    | some (q', outs) => ∃ dq' l', runOps dq ops = .ok (dq', outs) ∧ Ring dq' l' q' := by
  induction ops generalizing dq l q with
  | nil => exact ⟨dq, l, rfl, h⟩
  | cons op ops ih =>
    have hs := step_spec h op
    simp only [fifo, Option.bind_eq_bind]
    cases hf : fifoStep q op with
    | none =>
      rw [hf] at hs
      simp only [Option.bind_none, runOps, hs, error_bind]
    | some r =>
      obtain ⟨q₁, o₁⟩ := r
      rw [hf] at hs
      obtain ⟨dq₁, l₁, hrun, h₁⟩ := hs
      have hr := ih h₁
      simp only [Option.bind_some, runOps, hrun, ok_bind]
      cases hf' : fifo q₁ ops with
      | none =>
        rw [hf'] at hr
        simp only [Option.bind_none, hr, error_bind]
      | some r' =>
        obtain ⟨q₂, o₂⟩ := r'
        rw [hf'] at hr
        obtain ⟨dq₂, l₂, hrun', h₂⟩ := hr
        simp only [Option.bind_some, hrun', ok_bind]
        exact ⟨dq₂, l₂, rfl, h₂⟩

theorem runOps_append (dq : Dequeue α) (ops ops' : List (Op α)) :
    runOps dq (ops ++ ops') = (do
      let r ← runOps dq ops
      let r' ← runOps r.1 ops'
      .ok (r'.1, r.2 ++ r'.2)) := by
  induction ops generalizing dq with
  | nil =>
    simp only [List.nil_append, runOps, ok_bind]
    cases runOps dq ops' <;> rfl
  | cons op ops ih =>
    simp only [List.cons_append, runOps, ih]
    cases step dq op with
    | error e => rfl
    | ok r =>
      simp only [ok_bind]
      cases runOps r.1 ops with
      | error e => rfl
      | ok r' =>
        simp only [ok_bind]
        cases runOps r'.1 ops' with
        | error e => rfl
        | ok r'' => simp [List.append_assoc]

end Ring

section Threads

variable {α : Type}

/-- Where a thread stands: outside, in `add_event` before and after the push,
or in the loop of `exec_event`. -/
inductive Pc (α : Type) where
  | outside
  | adding (e : α)
  | added
  | polling
  | waiting
  | popped (e : Option α)
  | acting (e : Option α)

def Pc.Locked : Pc α → Prop
  | .adding _ | .added | .polling | .popped _ => True
  | _ => False

/-- `history` are the calls on the queue so far, `outs` what the pops returned
and `acted` the events handed to `act_event`. -/
structure System (α : Type) where
  events : Dequeue α
  lock : Option ℕ
  pc : ℕ → Pc α
  history : List (Op α)
  outs : List (Option α)
  acted : List α

namespace System

def go (σ : System α) (t : ℕ) (pc : Pc α) : System α :=
  { σ with pc := Function.update σ.pc t pc }

end System

/-- One step of one thread. A waiting thread may be woken at any time. -/
inductive Step : System α → System α → Prop where
  | addLock (σ : System α) (t : ℕ) (e : α) :
    σ.pc t = .outside → σ.lock = none → Step σ ({ σ with lock := some t }.go t (.adding e))
  | push (σ : System α) (t : ℕ) (e : α) (dq : Dequeue α) :
    σ.pc t = .adding e → dequeuePush σ.events e = .ok dq →
      Step σ ({ σ with events := dq, history := σ.history ++ [Op.push e] }.go t .added)
  | addUnlock (σ : System α) (t : ℕ) :
    σ.pc t = .added → Step σ ({ σ with lock := none }.go t .outside)
  | execLock (σ : System α) (t : ℕ) :
    σ.pc t = .outside → σ.lock = none → Step σ ({ σ with lock := some t }.go t .polling)
  | wait (σ : System α) (t : ℕ) :
    σ.pc t = .polling → dequeueEmpty σ.events = true →
      Step σ ({ σ with lock := none }.go t .waiting)
  | wake (σ : System α) (t : ℕ) :
    σ.pc t = .waiting → σ.lock = none → Step σ ({ σ with lock := some t }.go t .polling)
  | pop (σ : System α) (t : ℕ) (dq : Dequeue α) (e : Option α) :
    σ.pc t = .polling → dequeueEmpty σ.events = false → dequeuePop σ.events = .ok (dq, e) →
      Step σ ({ σ with events := dq, history := σ.history ++ [Op.pop], outs := σ.outs ++ [e] }.go t
        (.popped e))
  | execUnlock (σ : System α) (t : ℕ) (e : Option α) :
    σ.pc t = .popped e → Step σ ({ σ with lock := none }.go t (.acting e))
  | act (σ : System α) (t : ℕ) (e : α) :
    σ.pc t = .acting (some e) → Step σ ({ σ with acted := σ.acted ++ [e] }.go t .outside)

def System.start : System α := ⟨dequeueCreate, none, fun _ => .outside, [], [], []⟩

inductive Reachable : System α → Prop where
  | start : Reachable .start
  | next {σ σ' : System α} : Reachable σ → Step σ σ' → Reachable σ'

/-- Only the holder of the mutex is between lock and unlock, the queue is the
one the history of calls leads to, and no pop of a thread returned null. -/
structure Consistent (σ : System α) : Prop where
  locked : ∀ t, (σ.pc t).Locked → σ.lock = some t
  run : runOps dequeueCreate σ.history = .ok (σ.events, σ.outs)
  found : ∀ o ∈ σ.outs, o ≠ none
  held : ∀ t e, σ.pc t = .popped e ∨ σ.pc t = .acting e → e ≠ none

theorem runOps_snoc {dq dq' dq'' : Dequeue α} {ops : List (Op α)} {op : Op α}
    {outs outs' : List (Option α)} (h : runOps dq ops = .ok (dq', outs))
    (hs : step dq' op = .ok (dq'', outs')) :
    runOps dq (ops ++ [op]) = .ok (dq'', outs ++ outs') := by
  rw [runOps_append, h]
  simp [runOps, hs]

theorem step_push {dq dq' : Dequeue α} {e : α} (h : dequeuePush dq e = .ok dq') :
    step dq (.push e) = .ok (dq', []) := by
  simp [step, h]

theorem step_pop {dq dq' : Dequeue α} {o : Option α} (h : dequeuePop dq = .ok (dq', o)) :
    step dq .pop = .ok (dq', [o]) := by
  simp [step, h]

theorem ring_of_run {ops : List (Op α)} {dq : Dequeue α} {outs : List (Option α)}
    (h : runOps dequeueCreate ops = .ok (dq, outs)) :
    ∃ l q, Ring dq l q ∧ fifo [] ops = some (q, outs) := by
  have hs := runOps_spec dequeueCreate_ring ops
  cases hf : fifo [] ops with
  | none => simp [hf, h] at hs
  | some r =>
    obtain ⟨q, o⟩ := r
    simp only [hf, h, Except.ok.injEq, Prod.mk.injEq] at hs
    obtain ⟨dq', l, ⟨rfl, rfl⟩, hr⟩ := hs
    exact ⟨l, q, hr, rfl⟩

theorem Consistent.unlocked {σ : System α} (h : Consistent σ) {t : ℕ} {pc : Pc α}
    (hl : (σ.pc t).Locked) (hpc : ¬ pc.Locked) {u : ℕ}
    (hu : ((σ.go t pc).pc u).Locked) : False := by
  by_cases hut : u = t
  · subst hut
    simp [System.go, hpc] at hu
  · have hl' := h.locked t hl
    have hu' : (σ.pc u).Locked := by simpa [System.go, hut] using hu
    rw [h.locked u hu'] at hl'
    exact hut (Option.some.inj hl')

theorem reduceOption_map_some {outs : List (Option α)} (h : ∀ o ∈ outs, o ≠ none) :
    outs.reduceOption.map some = outs := by
  induction outs with
  | nil => rfl
  | cons o outs ih =>
    obtain ⟨e, rfl⟩ := Option.ne_none_iff_exists'.mp (h o (by simp))
    rw [List.reduceOption_cons_of_some, List.map_cons, ih fun o ho => h o (by simp [ho])]

theorem Consistent.taken {σ : System α} (h : Consistent σ) (hn : σ.lock = none) {t u : ℕ}
    {pc : Pc α} (hu : ((σ.go t pc).pc u).Locked) : some t = some u := by
  by_cases hut : u = t
  · rw [hut]
  · have := h.locked u (by simpa [System.go, hut] using hu)
    rw [hn] at this
    cases this

theorem Consistent.kept {σ : System α} (h : Consistent σ) {t u : ℕ} {pc : Pc α}
    (hl : (σ.pc t).Locked) (hu : ((σ.go t pc).pc u).Locked) : σ.lock = some u := by
  by_cases hut : u = t
  · rw [hut]
    exact h.locked t hl
  · exact h.locked u (by simpa [System.go, hut] using hu)

theorem Consistent.held_go {σ : System α} (h : Consistent σ) {t u : ℕ} {pc : Pc α} {o : Option α}
    (hpc : ∀ e, pc = .popped e ∨ pc = .acting e → e ≠ none)
    (ho : (σ.go t pc).pc u = .popped o ∨ (σ.go t pc).pc u = .acting o) : o ≠ none := by
  by_cases hut : u = t
  · subst hut
    exact hpc o (by simpa [System.go] using ho)
  · exact h.held u o (by simpa [System.go, hut] using ho)

theorem step_consistent {σ σ' : System α} (h : Consistent σ) (hs : Step σ σ') :
    Consistent σ' := by
  cases hs with
  | addLock t e hpc hn =>
    exact ⟨fun u hu => h.taken hn hu, h.run, h.found, fun u o ho => h.held_go (by simp) ho⟩
  | push t e dq hpc hp =>
    refine ⟨fun u hu => ?_, ?_, h.found, fun u o ho => h.held_go (by simp) ho⟩
    · exact h.kept (by rw [hpc]; trivial) hu
    · have := runOps_snoc h.run (step_push hp)
      simpa [System.go] using this
  | addUnlock t hpc =>
    refine ⟨fun u hu => ?_, h.run, h.found, fun u o ho => h.held_go (by simp) ho⟩
    exact (h.unlocked (t := t) (by rw [hpc]; trivial) id hu).elim
  | execLock t hpc hn =>
    exact ⟨fun u hu => h.taken hn hu, h.run, h.found, fun u o ho => h.held_go (by simp) ho⟩
  | wait t hpc he =>
    refine ⟨fun u hu => ?_, h.run, h.found, fun u o ho => h.held_go (by simp) ho⟩
    exact (h.unlocked (t := t) (by rw [hpc]; trivial) id hu).elim
  | wake t hpc hn =>
    exact ⟨fun u hu => h.taken hn hu, h.run, h.found, fun u o ho => h.held_go (by simp) ho⟩
  | pop t dq e hpc he hp =>
    -- the queue is not empty, so the pop finds an event
    have hne : e ≠ none := by
      obtain ⟨l, q, hr, -⟩ := ring_of_run h.run
      obtain ⟨dq', hp', -⟩ := dequeuePop_spec hr
      rw [hp] at hp'
      simp only [Except.ok.injEq, Prod.mk.injEq] at hp'
      rw [hp'.2]
      have hsize : σ.events.size ≠ 0 := by simpa [dequeueEmpty] using he
      have : q ≠ [] := fun hc => hsize (by simpa [hc] using hr.size.trans hr.length)
      simpa using this
    refine ⟨fun u hu => ?_, runOps_snoc h.run (step_pop hp), fun o ho => ?_, fun u o ho => ?_⟩
    · exact h.kept (by rw [hpc]; trivial) hu
    · rcases List.mem_append.mp ho with ho | ho
      · exact h.found o ho
      · rw [List.mem_singleton.mp ho]
        exact hne
    · apply h.held_go _ ho
      rintro o (ho | ho)
      · cases ho
        exact hne
      · cases ho
  | execUnlock t e hpc =>
    refine ⟨fun u hu => ?_, h.run, h.found, fun u o ho => ?_⟩
    · exact (h.unlocked (t := t) (by rw [hpc]; trivial) id hu).elim
    · apply h.held_go _ ho
      rintro o (ho | ho)
      · cases ho
      · cases ho
        exact h.held t e (Or.inl hpc)
  | act t e hpc =>
    refine ⟨fun u hu => ?_, h.run, h.found, fun u o ho => h.held_go (by simp) ho⟩
    by_cases hut : u = t
    · simp [System.go, hut, Pc.Locked] at hu
    · exact h.locked u (by simpa [System.go, hut] using hu)

theorem reachable_consistent {σ : System α} (h : Reachable σ) : Consistent σ := by
  induction h with
  | start => exact ⟨fun _ h => h.elim, rfl, by simp [System.start], by simp [System.start]⟩
  | next _ hs ih => exact step_consistent ih hs

/-- The queue of events is first in, first out: in a run of calls a pop returns
the oldest event that was not popped yet, or null when there is none, until the
counter of events overflows; and the threads of any interleaving share the queue
of one run of calls, in which no pop returns null. -/
theorem events_fifo :
    (∀ ops : List (Op α), match fifo [] ops with
      | none => runOps dequeueCreate ops = .error .intOverflow
      | some (q, outs) => outs.reduceOption ++ q = pushed ops ∧
        ∃ dq l, runOps dequeueCreate ops = .ok (dq, outs) ∧ Ring dq l q ∧ dq.size = q.length) ∧
    (∀ σ : System α, Reachable σ →
      (∀ t u, (σ.pc t).Locked → (σ.pc u).Locked → t = u) ∧
      runOps dequeueCreate σ.history = .ok (σ.events, σ.outs) ∧
      ∃ l q, Ring σ.events l q ∧ fifo [] σ.history = some (q, σ.outs) ∧
        ∃ popped : List α, σ.outs = popped.map some ∧ popped ++ q = pushed σ.history) := by
  refine ⟨fun ops => ?_, fun σ hσ => ?_⟩
  · have hs := runOps_spec (dequeueCreate_ring (α := α)) ops
    cases hf : fifo [] ops with
    | none => simpa [hf] using hs
    | some r =>
      obtain ⟨q, outs⟩ := r
      simp only [hf] at hs
      obtain ⟨dq, l, hrun, hr⟩ := hs
      exact ⟨by simpa using fifo_conserves hf, dq, l, hrun, hr, hr.size.trans hr.length⟩
  · have hc := reachable_consistent hσ
    obtain ⟨l, q, hr, hf⟩ := ring_of_run hc.run
    have hp := reduceOption_map_some hc.found
    refine ⟨fun t u ht hu => ?_, hc.run, l, q, hr, hf, σ.outs.reduceOption, hp.symm, ?_⟩
    · have := (hc.locked t ht).symm.trans (hc.locked u hu)
      exact Option.some.inj this
    · simpa using fifo_conserves hf

/-- One thread waits for the event that another one adds. -/
theorem events_fifo_shared : ∃ σ : System ℕ, Reachable σ ∧ σ.history = [.push 7, .pop] ∧
    σ.outs = [some 7] ∧ runOps dequeueCreate σ.history = .ok (σ.events, σ.outs) ∧
      ∃ l q, Ring σ.events l q ∧ fifo [] σ.history = some (q, σ.outs) := by
  have h₁ : Reachable (System.start : System ℕ) := .start
  have h₂ := h₁.next (.execLock _ 0 rfl rfl)
  have h₃ := h₂.next (.wait _ 0 rfl rfl)
  have h₄ := h₃.next (.addLock _ 1 7 rfl rfl)
  have h₅ := h₄.next (.push _ 1 7 _ rfl rfl)
  have h₆ := h₅.next (.addUnlock _ 1 rfl)
  have h₇ := h₆.next (.wake _ 0 rfl rfl)
  have h₈ := h₇.next (.pop _ 0 _ _ rfl rfl rfl)
  obtain ⟨-, hrun, l, q, hring, hfifo, -⟩ := events_fifo.2 _ h₈
  exact ⟨_, h₈, rfl, rfl, hrun, l, q, hring, hfifo⟩

end Threads

end CLearning.EventQueue
