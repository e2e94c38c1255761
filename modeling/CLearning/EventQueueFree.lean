import CLearning.EventQueue

/-!
# Giving up the event queue

`dequeue_free` walks the circle and stops in front of the head node. It frees
a node once it has read its successor, so the node whose successor is the head
node stays. The head node itself points to the first node, to a node popped
long ago, or to nothing.
-/

set_option autoImplicit false

namespace CLearning.EventQueueFree
open CLearning.LinkedLists CLearning.Machine CLearning.EventQueue

variable {α : Type}

section Source

/-- The loop of `dequeue_free` with the nodes freed so far. Reading a freed node
is a fault; `p1` is freed right after it was read. -/
def freeLoop (dq : Dequeue α) : ℕ → List ℕ → Option ℕ → Run (List ℕ)
  | 0, _, _ => .error .outOfFuel
  | fuel+1, freed, p1 => do
    let a ← deref p1
    if a ∈ freed then .error .wildAccess
    else if (dq.nodes a).next = some dq.head then .ok freed
    else freeLoop dq fuel (freed ++ [a]) (dq.nodes a).next

/-- The nodes that `dequeue_free` frees, in this order. -/
def dequeueFree (fuel : ℕ) (dq : Dequeue α) : Run (List ℕ) :=
  freeLoop dq fuel [] (some dq.head)

end Source

def walk (dq : Dequeue α) : ℕ → Option ℕ → List ℕ
  | n+1, some a => a :: walk dq n (dq.nodes a).next
  | _, _ => []

def queued (dq : Dequeue α) : List ℕ := walk dq dq.size (dq.nodes dq.head).next

/-- The call ends without a fault, and the head node and every queued node are
freed once. -/
def Releases (dq : Dequeue α) : Prop :=
  ∃ fuel freed, dequeueFree fuel dq = .ok freed ∧ ∀ a ∈ dq.head :: queued dq, freed.count a = 1

variable {dq dq' : Dequeue α} {l : List ℕ} {q : List α}

theorem walk_seg {p : Option ℕ} (h : Seg (links dq) p l (some dq.head)) :
    walk dq l.length (l.head?.or (some dq.head)) = l := by
  induction l generalizing p with
  | nil => rfl
  | cons a l ih =>
    obtain ⟨-, hnext, hseg⟩ := h
    have hn : (dq.nodes a).next = l.head?.or (some dq.head) := hnext
    have hwalk := ih hseg
    simp only [List.length_cons, List.head?_cons, Option.some_or, walk, hn, hwalk]

theorem queued_ring (h : Ring dq l q) : queued dq = l := by
  cases l with
  | nil =>
    have hsize : dq.size = 0 := h.size
    rw [queued, hsize]
    cases (dq.nodes dq.head).next <;> rfl
  | cons a l =>
    obtain ⟨hfirst, -, hseg⟩ := h.circle (List.cons_ne_nil a l)
    rw [queued, h.size, hfirst]
    exact walk_seg hseg

/-- The loop from the first node of the queue frees all nodes but the last. -/
theorem freeLoop_seg {p : Option ℕ} (hne : l ≠ []) (h : Seg (links dq) p l (some dq.head))
    (hnd : l.Nodup) (hhead : dq.head ∉ l) (fuel : ℕ) (freed : List ℕ)
    (hfreed : ∀ a ∈ l, a ∉ freed) : freeLoop dq fuel freed l.head? =
      if l.length ≤ fuel then .ok (freed ++ l.dropLast) else .error .outOfFuel := by
  induction l generalizing p fuel freed with
  | nil => exact absurd rfl hne
  | cons a l ih =>
    obtain ⟨-, hnext, hseg⟩ := h
    have hn : (dq.nodes a).next = l.head?.or (some dq.head) := hnext
    cases fuel with
    | zero => rw [if_neg (by simp), freeLoop]
    | succ fuel =>
      rw [freeLoop, List.head?_cons, deref_some, ok_bind, if_neg (hfreed a (by simp)), hn]
      cases l with
      | nil => simp
      | cons b l =>
        have hb : b ≠ dq.head := fun hb => hhead (by simp [hb])
        rw [List.head?_cons, Option.some_or, if_neg (by simpa using hb)]
        have hloop := ih (by simp) hseg hnd.of_cons (fun hm => hhead (by simp [hm])) fuel
          (freed ++ [a]) (fun c hc hm => ?_)
        · rw [List.head?_cons] at hloop
          rw [hloop]
          simp
        · rcases List.mem_append.mp hm with hm | hm
          · exact hfreed c (List.mem_cons_of_mem a hc) hm
          · rw [List.mem_singleton] at hm
            exact (List.nodup_cons.mp hnd).1 (hm ▸ hc)

def Stale (dq : Dequeue α) : Prop :=
  (dq.nodes dq.head).next = none ∨
    ∃ a, (dq.nodes dq.head).next = some a ∧ a ≠ dq.head ∧ (dq.nodes a).next = some dq.head

theorem dequeueCreate_stale : Stale (dequeueCreate : Dequeue α) :=
  Or.inl rfl

theorem dequeuePop_last {a : ℕ} {o : Option α} (h : Ring dq [a] q)
    (hrun : dequeuePop dq = .ok (dq', o)) : Stale dq' := by
  obtain ⟨hfirst, -, -, hnext, -⟩ := h.circle (by simp)
  have hsize : dq.size = 1 := h.size
  have htail : dq.tail = a := by simpa using h.tail
  have hah : a ≠ dq.head := by
    have := h.nodup
    simp at this
    exact fun hc => this hc.symm
  rw [dequeuePop, if_neg (by omega), hfirst, List.head?_cons, deref_some, ok_bind,
    if_pos htail.symm] at hrun
  cases hrun
  exact Or.inr ⟨a, hfirst, hah, hnext⟩

/-- Every queue is a ring, and an empty one leads nowhere or to a popped node. -/
theorem step_stale {op : Op α} {outs : List (Option α)} (h : Ring dq l q)
    (hs : l = [] → Stale dq) (hrun : step dq op = .ok (dq', outs)) :
    ∃ l' q', Ring dq' l' q' ∧ (l' = [] → Stale dq') := by
  cases op with
  | push e =>
    obtain ⟨d, hpush, hd⟩ := bind_ok_iff.mp hrun
    cases hd
    have hspec := dequeuePush_spec h e
    split at hspec
    · rw [hspec] at hpush
      cases hpush
    · obtain ⟨d', hpush', hring⟩ := hspec
      rw [hpush'] at hpush
      cases hpush
      exact ⟨_, _, hring, fun hc => absurd hc (by simp)⟩
  | pop =>
    obtain ⟨r, hpop, hr⟩ := bind_ok_iff.mp hrun
    cases hr
    obtain ⟨d, hpop', hring⟩ := dequeuePop_spec h
    rw [hpop'] at hpop
    cases hpop
    refine ⟨_, _, hring, fun hc => ?_⟩
    cases l with
    | nil =>
      have hsize : dq.size = 0 := h.size
      rw [dequeuePop, if_pos hsize, Except.ok.injEq, Prod.mk.injEq] at hpop'
      rw [← hpop'.1]
      exact hs rfl
    | cons a l =>
      rw [List.tail_cons] at hc
      subst hc
      exact dequeuePop_last h hpop'

theorem runOps_stale {ops : List (Op α)} {outs : List (Option α)} (h : Ring dq l q)
    (hs : l = [] → Stale dq) (hrun : runOps dq ops = .ok (dq', outs)) :
    ∃ l' q', Ring dq' l' q' ∧ (l' = [] → Stale dq') := by
  induction ops generalizing dq l q outs with
  | nil =>
    cases hrun
    exact ⟨l, q, h, hs⟩
  | cons op ops ih =>
    obtain ⟨r, hstep, hrest⟩ := bind_ok_iff.mp hrun
    obtain ⟨r', hrun', hr'⟩ := bind_ok_iff.mp hrest
    cases hr'
    obtain ⟨l₁, q₁, h₁, hs₁⟩ := step_stale h hs hstep
    exact ih h₁ hs₁ hrun'

/-- A queue that holds nothing and never did loses its head node and then follows
its null pointer. -/
theorem dequeueFree_fresh (h : (dq.nodes dq.head).next = none) (fuel : ℕ) (freed : List ℕ) :
    dequeueFree fuel dq ≠ .ok freed := by
  intro hrun
  match fuel with
  | 0 => cases hrun
  | 1 =>
    rw [dequeueFree, freeLoop, deref_some, ok_bind, if_neg (by simp), h, if_neg (by simp)] at hrun
    cases hrun
  | fuel+2 =>
    rw [dequeueFree, freeLoop, deref_some, ok_bind, if_neg (by simp), h, if_neg (by simp)] at hrun
    cases hrun

theorem dequeueFree_queued (h : Ring dq l q) (hne : l ≠ []) (fuel : ℕ) :
    dequeueFree (fuel+1) dq =
      if l.length ≤ fuel then .ok (dq.head :: l.dropLast) else .error .outOfFuel := by
  obtain ⟨hfirst, -, hseg⟩ := h.circle hne
  obtain ⟨hhead, hnd⟩ := List.nodup_cons.mp h.nodup
  have hother : (dq.nodes dq.head).next ≠ some dq.head := by
    intro hc
    rw [hfirst] at hc
    exact hhead (List.mem_of_head? hc)
  rw [dequeueFree, freeLoop, deref_some, ok_bind, if_neg (by simp), if_neg hother, hfirst,
    freeLoop_seg hne hseg hnd hhead fuel _ (fun a ha hm => ?_)]
  · rfl
  · rw [List.nil_append, List.mem_singleton] at hm
    exact hhead (hm ▸ ha)

theorem dequeueFree_leaks (h : Ring dq l q) (hne : l ≠ []) : ¬Releases dq := by
  rintro ⟨fuel, freed, hrun, hcount⟩
  rw [queued_ring h] at hcount
  cases fuel with
  | zero => cases hrun
  | succ fuel =>
    rw [dequeueFree_queued h hne] at hrun
    split at hrun
    · cases hrun
      have hlast := hcount (l.getLast hne) (List.mem_cons_of_mem _ (List.getLast_mem hne))
      have hmem : l.getLast hne ∈ dq.head :: l.dropLast :=
        List.count_pos_iff.mp (by omega)
      obtain ⟨hhead, hnd⟩ := List.nodup_cons.mp h.nodup
      rcases List.mem_cons.mp hmem with hc | hc
      · exact hhead (hc ▸ List.getLast_mem hne)
      · rw [← List.dropLast_append_getLast hne] at hnd
        exact List.disjoint_of_nodup_append hnd hc (by simp)
    · cases hrun

theorem dequeueFree_drained {a : ℕ} (hsize : dq.size = 0)
    (hfirst : (dq.nodes dq.head).next = some a) (ha : a ≠ dq.head)
    (hnext : (dq.nodes a).next = some dq.head) : Releases dq := by
  have hqueued : queued dq = [] := by
    rw [queued, hsize]
    cases (dq.nodes dq.head).next <;> rfl
  refine ⟨2, [dq.head], ?_, ?_⟩
  · rw [dequeueFree, freeLoop, deref_some, ok_bind, if_neg (by simp), hfirst,
      if_neg (by simpa using ha), freeLoop, deref_some, ok_bind, if_neg (by simpa using ha),
      if_pos hnext]
    rfl
  · rw [hqueued]
    intro b hb
    rw [List.mem_singleton.mp hb, List.count_singleton_self]

/-- `dequeue_free` releases the queue exactly when the queue is empty but was
not always. -/
theorem dequeueFree_releases_iff {ops : List (Op α)} {dq : Dequeue α} {outs : List (Option α)}
    (hrun : runOps dequeueCreate ops = .ok (dq, outs)) :
    Releases dq ↔ dq.size = 0 ∧ (dq.nodes dq.head).next ≠ none := by
  obtain ⟨l, q, h, hs⟩ := runOps_stale dequeueCreate_ring (fun _ => dequeueCreate_stale) hrun
  constructor
  · intro hrel
    by_cases hne : l = []
    · refine ⟨by rw [h.size, hne, List.length_nil], fun hnone => ?_⟩
      obtain ⟨fuel, freed, hfree, -⟩ := hrel
      exact dequeueFree_fresh hnone fuel freed hfree
    · exact absurd hrel (dequeueFree_leaks h hne)
  · rintro ⟨hsize, hnext⟩
    have hl : l = [] := by
      rw [← List.length_eq_zero_iff, ← h.size, hsize]
    rcases hs hl with hnone | ⟨a, hfirst, ha, hback⟩
    · exact absurd hnone hnext
    · exact dequeueFree_drained hsize hfirst ha hback

theorem run_one : ∃ (dq : Dequeue Unit) (outs : List (Option Unit)),
    runOps dequeueCreate [.push (), .pop] = .ok (dq, outs) ∧
      dq.size = 0 ∧ (dq.nodes dq.head).next ≠ none :=
  ⟨_, _, rfl, by decide⟩

/-- One event came and went. -/
theorem dequeueFree_releases_one : ∃ (dq : Dequeue Unit) (outs : List (Option Unit)),
    runOps dequeueCreate [.push (), .pop] = .ok (dq, outs) ∧ Releases dq := by
  obtain ⟨dq, outs, hrun, hdrained⟩ := run_one
  exact ⟨dq, outs, hrun, (dequeueFree_releases_iff hrun).mpr hdrained⟩

/-- A queue given up before anything was pushed. -/
theorem dequeueFree_keeps : ∃ (dq : Dequeue Unit) (outs : List (Option Unit)),
    runOps dequeueCreate [] = .ok (dq, outs) ∧ ¬Releases dq := by
  refine ⟨dequeueCreate, [], rfl, ?_⟩
  rintro ⟨fuel, freed, hfree, -⟩
  exact dequeueFree_fresh rfl fuel freed hfree

end CLearning.EventQueueFree
