import Mathlib.Data.List.Nodup
import Mathlib.Data.List.Perm.Basic
import Mathlib.Logic.Function.Basic

/-!
# Doubly linked lists over arbitrary nodes

A node type carries two pointer fields. A segment is the list of nodes met
between two given neighbours; a family is a set of disjoint segments closed by
null on both sides, each entered from its own head pointer. Every edit of the
library is stated by the pointers it must change, so a program may perform the
stores in any order and on any representation of the nodes.
-/

set_option autoImplicit false

namespace CLearning.LinkedLists

structure Links (α : Type*) where
  prev : α → Option α
  next : α → Option α

inductive Meets {α : Type*} (next : α → Option α) : Option α → α → Prop
  | here (a : α) : Meets next (some a) a
  | further {a b : α} (h : Meets next (next a) b) : Meets next (some a) b

section Segments

variable {α : Type*} {k k' : Links α}

def Seg (k : Links α) : Option α → List α → Option α → Prop
  | _, [], _ => True
  | p, a :: l, n => k.prev a = p ∧ k.next a = l.head?.or n ∧ Seg k (some a) l n

@[simp] theorem seg_nil (p n : Option α) : Seg k p [] n := trivial

@[simp] theorem seg_cons (p n : Option α) (a : α) (l : List α) :
    Seg k p (a :: l) n ↔ k.prev a = p ∧ k.next a = l.head?.or n ∧ Seg k (some a) l n :=
  Iff.rfl

theorem getLast?_cons_or (a : α) (l : List α) (p : Option α) :
    (a :: l).getLast?.or p = l.getLast?.or (some a) := by
  cases l with
  | nil => simp
  | cons b l => simp [List.getLast?_cons]

theorem seg_append (l₁ l₂ : List α) (p n : Option α) :
    Seg k p (l₁ ++ l₂) n ↔
      Seg k p l₁ (l₂.head?.or n) ∧ Seg k (l₁.getLast?.or p) l₂ n := by
  induction l₁ generalizing p with
  | nil => simp
  | cons a l₁ ih =>
    rw [List.cons_append, seg_cons, seg_cons, ih, getLast?_cons_or, List.head?_append,
      Option.or_assoc]
    tauto

theorem Seg.congr {l : List α} {p n : Option α} (h : Seg k p l n)
    (hp : ∀ a ∈ l, k'.prev a = k.prev a) (hn : ∀ a ∈ l, k'.next a = k.next a) :
    Seg k' p l n := by
  induction l generalizing p with
  | nil => trivial
  | cons a l ih =>
    obtain ⟨h1, h2, h3⟩ := h
    exact ⟨(hp a (by simp)).trans h1, (hn a (by simp)).trans h2,
      ih h3 (fun b hb => hp b (by simp [hb])) (fun b hb => hn b (by simp [hb]))⟩

theorem Seg.neighbours {l₁ l₂ : List α} {a : α} {p n : Option α}
    (h : Seg k p (l₁ ++ a :: l₂) n) :
    k.prev a = l₁.getLast?.or p ∧ k.next a = l₂.head?.or n := by
  obtain ⟨_, h1, h2, _⟩ := (seg_append l₁ (a :: l₂) p n).mp h
  exact ⟨h1, h2⟩

theorem Seg.next_mem {l : List α} {a b : α} {p : Option α} (h : Seg k p l none)
    (ha : a ∈ l) (hb : k.next a = some b) : b ∈ l := by
  obtain ⟨l₁, l₂, rfl⟩ := List.append_of_mem ha
  have hn := h.neighbours.2
  rw [hb, Option.or_none] at hn
  simp [List.mem_of_head? hn.symm]

theorem Seg.prev_mem {l : List α} {a b : α} {n : Option α} (h : Seg k none l n)
    (ha : a ∈ l) (hb : k.prev a = some b) : b ∈ l := by
  obtain ⟨l₁, l₂, rfl⟩ := List.append_of_mem ha
  have hp := h.neighbours.1
  rw [hb, Option.or_none] at hp
  simp [List.mem_of_getLast? hp.symm]

theorem Seg.prev_next {l : List α} {a b : α} {n : Option α} (h : Seg k none l n)
    (ha : a ∈ l) (hb : k.prev a = some b) : k.next b = some a := by
  obtain ⟨l₁, l₂, rfl⟩ := List.append_of_mem ha
  have hp := h.neighbours.1
  rw [hb, Option.or_none] at hp
  obtain ⟨l₀, rfl⟩ := List.getLast?_eq_some_iff.mp hp.symm
  rw [List.append_assoc] at h
  simpa using h.neighbours.2

theorem Seg.meets {l : List α} {p : Option α} {x : α} (h : Seg k p l none) : Meets k.next l.head? x ↔ x ∈ l := by
  induction l generalizing p with
  | nil =>
    constructor
    · intro hm
      cases hm
    · intro hx
      cases hx
  | cons a l ih =>
    obtain ⟨-, hn, hl⟩ := h
    rw [Option.or_none] at hn
    have ih := ih hl
    constructor
    · intro hm
      cases hm with
      | here => exact List.mem_cons_self
      | further hm =>
        rw [hn] at hm
        exact List.mem_cons_of_mem _ (ih.mp hm)
    · intro hx
      rcases List.mem_cons.mp hx with rfl | hx
      · exact .here _
      · apply Meets.further
        rw [hn]
        exact ih.mpr hx

variable [DecidableEq α]

theorem Seg.relinkLast {l : List α} {p n n' : Option α} (hl : l.Nodup) (h : Seg k p l n)
    (hp : ∀ x ∈ l, k'.prev x = k.prev x)
    (hn : ∀ x ∈ l, k'.next x = if l.getLast? = some x then n' else k.next x) :
    Seg k' p l n' := by
  induction l generalizing p with
  | nil => trivial
  | cons a l ih =>
    obtain ⟨h1, h2, h3⟩ := h
    obtain ⟨hal, hl⟩ := List.nodup_cons.mp hl
    refine ⟨(hp a (by simp)).trans h1, ?_, ih hl h3 (fun x hx => hp x (by simp [hx])) ?_⟩
    · rw [hn a (by simp)]
      cases l with
      | nil => simp
      | cons b l =>
        have hne : (a :: b :: l).getLast? ≠ some a := fun h =>
          hal (by rw [List.getLast?_cons_cons] at h; exact List.mem_of_getLast? h)
        rw [if_neg hne, h2]
        simp
    · intro x hx
      rw [hn x (by simp [hx])]
      cases l with
      | nil => simp at hx
      | cons b l => rw [List.getLast?_cons_cons]

theorem Seg.relinkFirst {l : List α} {p p' n : Option α} (hl : l.Nodup) (h : Seg k p l n)
    (hp : ∀ x ∈ l, k'.prev x = if l.head? = some x then p' else k.prev x)
    (hn : ∀ x ∈ l, k'.next x = k.next x) : Seg k' p' l n := by
  cases l with
  | nil => trivial
  | cons a l =>
    obtain ⟨-, h2, h3⟩ := h
    obtain ⟨hal, hl⟩ := List.nodup_cons.mp hl
    refine ⟨by simpa using hp a (by simp), (hn a (by simp)).trans h2,
      h3.congr (fun x hx => ?_) (fun x hx => hn x (by simp [hx]))⟩
    have hxa : a ≠ x := fun h => hal (h ▸ hx)
    simpa [hxa] using hp x (by simp [hx])

/-- The general edit: a middle run `m` gives way to `m'`. Outside the two
seams no pointer changes. -/
theorem Seg.splice {l₁ m m' l₂ : List α} {p n : Option α} (hd₁ : l₁.Nodup) (hd₂ : l₂.Nodup)
    (h : Seg k p (l₁ ++ m ++ l₂) n)
    (hm : Seg k' (l₁.getLast?.or p) m' (l₂.head?.or n))
    (hp₁ : ∀ x ∈ l₁, k'.prev x = k.prev x)
    (hn₁ : ∀ x ∈ l₁, k'.next x =
      if l₁.getLast? = some x then m'.head?.or (l₂.head?.or n) else k.next x)
    (hp₂ : ∀ x ∈ l₂, k'.prev x =
      if l₂.head? = some x then m'.getLast?.or (l₁.getLast?.or p) else k.prev x)
    (hn₂ : ∀ x ∈ l₂, k'.next x = k.next x) : Seg k' p (l₁ ++ m' ++ l₂) n := by
  rw [List.append_assoc, seg_append, seg_append] at h ⊢
  obtain ⟨h₁, _, h₂⟩ := h
  refine ⟨?_, hm, ?_⟩
  · rw [List.head?_append, Option.or_assoc]
    exact h₁.relinkLast hd₁ hp₁ hn₁
  · exact h₂.relinkFirst hd₂ hp₂ hn₂

end Segments

section Families

variable {α ι : Type*} {k k' : Links α} {head head' : ι → Option α} {L : ι → List α}

structure Family (k : Links α) (head : ι → Option α) (L : ι → List α) : Prop where
  seg : ∀ i, Seg k none (L i) none
  head_eq : ∀ i, head i = (L i).head?
  nodup : ∀ i, (L i).Nodup
  disjoint : ∀ i j, i ≠ j → ∀ a ∈ L i, a ∉ L j

theorem Family.congr (h : Family k head L) (hh : ∀ i, head' i = head i)
    (hp : ∀ i, ∀ a ∈ L i, k'.prev a = k.prev a) (hn : ∀ i, ∀ a ∈ L i, k'.next a = k.next a) :
    Family k' head' L where
  seg i := (h.seg i).congr (hp i) (hn i)
  head_eq i := (hh i).trans (h.head_eq i)
  nodup := h.nodup
  disjoint := h.disjoint

theorem Family.eq_of_mem (h : Family k head L) {i j : ι} {a : α} (hi : a ∈ L i)
    (hj : a ∈ L j) : i = j := by
  by_contra hij
  exact h.disjoint i j hij a hi hj

theorem Family.next_ne (h : Family k head L) {i : ι} {a : α} (ha : a ∈ L i) :
    k.next a ≠ some a := by
  intro hc
  obtain ⟨l₁, l₂, hl⟩ := List.append_of_mem ha
  have hs := h.seg i
  have hnd := h.nodup i
  rw [hl] at hs hnd
  have hn := hs.neighbours.2
  rw [hc, Option.or_none] at hn
  exact (List.nodup_cons.mp (List.nodup_append.mp hnd).2.1).1 (List.mem_of_head? hn.symm)

theorem Family.prev_ne (h : Family k head L) {i : ι} {a : α} (ha : a ∈ L i) :
    k.prev a ≠ some a :=
  fun hc => h.next_ne ha ((h.seg i).prev_next ha hc)

theorem Family.prev_eq_none_iff (h : Family k head L) {i : ι} {a : α} (ha : a ∈ L i) :
    k.prev a = none ↔ head i = some a := by
  obtain ⟨l₁, l₂, hl⟩ := List.append_of_mem ha
  have hs := h.seg i
  have hnd := h.nodup i
  rw [hl] at hs hnd
  rw [hs.neighbours.1, h.head_eq i, hl]
  cases l₁ with
  | nil => simp
  | cons b l₁ =>
    have hba : b ≠ a := by
      rintro rfl
      simp at hnd
    simp [hba]

variable [DecidableEq ι]
/-- One list of a family is rewritten. The new members are old members of the
same list or nodes outside the family, and the other lists are not touched. -/
theorem Family.edit (h : Family k head L) {i : ι} {l : List α} (hs : Seg k' none l none)
    (hd : l.Nodup) (hm : ∀ x ∈ l, x ∈ L i ∨ ∀ j, x ∉ L j) (hh : head' i = l.head?)
    (ho : ∀ j, j ≠ i → head' j = head j)
    (hp : ∀ j, j ≠ i → ∀ x ∈ L j, k'.prev x = k.prev x)
    (hn : ∀ j, j ≠ i → ∀ x ∈ L j, k'.next x = k.next x) :
    Family k' head' (Function.update L i l) := by
  have hmem : ∀ j, ∀ x ∈ Function.update L i l j, x ∈ L j ∨ j = i ∧ ∀ j, x ∉ L j := by
    intro j x hx
    by_cases hj : j = i
    · subst hj
      rw [Function.update_self] at hx
      exact (hm x hx).imp id (fun hx => ⟨rfl, hx⟩)
    · rw [Function.update_of_ne hj] at hx
      exact Or.inl hx
  refine ⟨fun j => ?_, fun j => ?_, fun j => ?_, fun j j' hjj x hx hx' => ?_⟩
  · by_cases hj : j = i
    · subst hj
      simpa using hs
    · rw [Function.update_of_ne hj]
      exact (h.seg j).congr (hp j hj) (hn j hj)
  · by_cases hj : j = i
    · subst hj
      simpa using hh
    · rw [Function.update_of_ne hj, ho j hj, h.head_eq j]
  · by_cases hj : j = i
    · subst hj
      simpa using hd
    · rw [Function.update_of_ne hj]
      exact h.nodup j
  · rcases hmem j x hx with h1 | ⟨rfl, h1⟩ <;> rcases hmem j' x hx' with h2 | ⟨rfl, h2⟩
    · exact h.disjoint j j' hjj x h1 h2
    · exact h2 j h1
    · exact h1 j' h2
    · exact hjj rfl

variable [DecidableEq α]

/-- A member gives way to a run `m` of nodes from outside the family: its
neighbours and, when it is first, the head of its list are redirected. -/
theorem Family.exchange (h : Family k head L) {i : ι} {a : α} {m l₁ l₂ : List α}
    (hl : L i = l₁ ++ a :: l₂) (hm : ∀ b ∈ m, ∀ j, b ∉ L j) (hd : m.Nodup)
    (hs : Seg k' (k.prev a) m (k.next a))
    (hn : ∀ j, ∀ x ∈ L j, x ≠ a →
      k'.next x = if k.prev a = some x then m.head?.or (k.next a) else k.next x)
    (hp : ∀ j, ∀ x ∈ L j, x ≠ a →
      k'.prev x = if k.next a = some x then m.getLast?.or (k.prev a) else k.prev x)
    (hh : head' i = if head i = some a then m.head?.or (k.next a) else head i)
    (ho : ∀ j, j ≠ i → head' j = head j) :
    Family k' head' (Function.update L i (l₁ ++ m ++ l₂)) := by
  have ha : a ∈ L i := by simp [hl]
  have hk := h.seg i
  have hnd := h.nodup i
  rw [hl] at hk hnd
  obtain ⟨hpa, hna⟩ := hk.neighbours
  rw [Option.or_none] at hpa hna
  obtain ⟨hd₁, hd₂, hd₁₂⟩ := List.nodup_append.mp hnd
  obtain ⟨ha₂, hd₂⟩ := List.nodup_cons.mp hd₂
  have hne₁ : ∀ x ∈ l₁, x ≠ a := fun x hx => hd₁₂ x hx a (by simp)
  have hne₂ : ∀ x ∈ l₂, x ≠ a := fun x hx hxa => ha₂ (hxa ▸ hx)
  have hm₁ : ∀ x ∈ l₁, x ∈ L i := fun x hx => by simp [hl, hx]
  have hm₂ : ∀ x ∈ l₂, x ∈ L i := fun x hx => by simp [hl, hx]
  have hoff : ∀ j, j ≠ i → ∀ x ∈ L j, x ≠ a ∧ k.prev a ≠ some x ∧ k.next a ≠ some x := by
    refine fun j hj x hx => ⟨fun hxa => h.disjoint j i hj x hx (hxa ▸ ha), ?_, ?_⟩
    · exact fun hc => h.disjoint j i hj x hx ((h.seg i).prev_mem ha hc)
    · exact fun hc => h.disjoint j i hj x hx ((h.seg i).next_mem ha hc)
  refine h.edit ?_ ?_ (fun x hx => ?_) ?_ ho (fun j hj x hx => ?_) (fun j hj x hx => ?_)
  · refine Seg.splice (m := [a]) hd₁ hd₂ (by simpa using hk) ?_
      (fun x hx => ?_) (fun x hx => ?_) (fun x hx => ?_) (fun x hx => ?_)
    · simpa only [← hpa, ← hna, Option.or_none] using hs
    · rw [hp i x (hm₁ x hx) (hne₁ x hx), if_neg]
      rw [hna]
      exact fun hc => hd₁₂ x hx x (by simp [List.mem_of_head? hc]) rfl
    · rw [hn i x (hm₁ x hx) (hne₁ x hx), ← hpa, ← hna, Option.or_none]
    · rw [hp i x (hm₂ x hx) (hne₂ x hx), ← hpa, ← hna, Option.or_none]
    · rw [hn i x (hm₂ x hx) (hne₂ x hx), if_neg]
      rw [hpa]
      exact fun hc => hd₁₂ x (List.mem_of_getLast? hc) x (by simp [hx]) rfl
  · rw [List.append_assoc, List.nodup_append, List.nodup_append]
    refine ⟨hd₁, ⟨hd, hd₂, fun x hx y hy hxy => ?_⟩, fun x hx y hy hxy => ?_⟩
    · exact hm x hx i (hxy ▸ hm₂ y hy)
    · subst hxy
      rcases List.mem_append.mp hy with hy | hy
      · exact hm x hy i (hm₁ x hx)
      · exact hd₁₂ x hx x (by simp [hy]) rfl
  · simp only [List.mem_append] at hx
    rcases hx with (hx | hx) | hx
    · exact Or.inl (hm₁ x hx)
    · exact Or.inr (hm x hx)
    · exact Or.inl (hm₂ x hx)
  · rw [hh, h.head_eq i, hl, hna]
    cases l₁ with
    | nil => simp [List.head?_append]
    | cons b l₁ => simp [hne₁ b (by simp)]
  · rw [hp j x hx (hoff j hj x hx).1, if_neg (hoff j hj x hx).2.2]
  · rw [hn j x hx (hoff j hj x hx).1, if_neg (hoff j hj x hx).2.1]

theorem Family.mem_erase (h : Family k head L) {i : ι} {a : α} (ha : a ∈ L i) (j : ι) (x : α) :
    x ∈ Function.update L i ((L i).erase a) j ↔ x ∈ L j ∧ x ≠ a := by
  by_cases hji : j = i
  · subst hji
    rw [Function.update_self, (h.nodup _).mem_erase_iff, and_comm]
  · rw [Function.update_of_ne hji]
    refine ⟨fun hx => ⟨hx, ?_⟩, fun hx => hx.1⟩
    rintro rfl
    exact hji (h.eq_of_mem hx ha)

theorem Family.unlink (h : Family k head L) {i : ι} {a : α} (ha : a ∈ L i)
    (hn : ∀ j, ∀ x ∈ L j, x ≠ a →
      k'.next x = if k.prev a = some x then k.next a else k.next x)
    (hp : ∀ j, ∀ x ∈ L j, x ≠ a →
      k'.prev x = if k.next a = some x then k.prev a else k.prev x)
    (hh : head' i = if head i = some a then k.next a else head i)
    (ho : ∀ j, j ≠ i → head' j = head j) :
    Family k' head' (Function.update L i ((L i).erase a)) := by
  obtain ⟨l₁, l₂, hl⟩ := List.append_of_mem ha
  have ha₁ : a ∉ l₁ := fun h1 => by
    have hnd := h.nodup i
    rw [hl] at hnd
    exact (List.nodup_append.mp hnd).2.2 a h1 a (by simp) rfl
  have he : (L i).erase a = l₁ ++ [] ++ l₂ := by
    rw [hl, List.erase_append_right _ ha₁, List.erase_cons_head, List.append_nil]
  rw [he]
  exact h.exchange hl (by simp) (by simp) (seg_nil _ _) hn hp hh ho

theorem Family.replace (h : Family k head L) {i : ι} {a b : α} {l₁ l₂ : List α}
    (hl : L i = l₁ ++ a :: l₂) (hb : ∀ j, b ∉ L j)
    (hpb : k'.prev b = k.prev a) (hnb : k'.next b = k.next a)
    (hn : ∀ j, ∀ x ∈ L j, x ≠ a → k'.next x = if k.prev a = some x then some b else k.next x)
    (hp : ∀ j, ∀ x ∈ L j, x ≠ a → k'.prev x = if k.next a = some x then some b else k.prev x)
    (hh : head' i = if head i = some a then some b else head i)
    (ho : ∀ j, j ≠ i → head' j = head j) :
    Family k' head' (Function.update L i (l₁ ++ b :: l₂)) := by
  rw [List.append_cons]
  exact h.exchange hl (by simpa using hb) (by simp) ⟨hpb, by simpa using hnb, trivial⟩
    hn hp hh ho

/-- A node that is in no list enters one of them between `l₁` and `l₂`. -/
theorem Family.insert (h : Family k head L) {i : ι} {a : α} {l₁ l₂ : List α}
    (hl : L i = l₁ ++ l₂) (ha : ∀ j, a ∉ L j) (hpa : k'.prev a = l₁.getLast?)
    (hna : k'.next a = l₂.head?)
    (hn : ∀ j, ∀ x ∈ L j, k'.next x = if l₁.getLast? = some x then some a else k.next x)
    (hp : ∀ j, ∀ x ∈ L j, k'.prev x = if l₂.head? = some x then some a else k.prev x)
    (hh : head' i = (l₁ ++ [a]).head?) (ho : ∀ j, j ≠ i → head' j = head j) :
    Family k' head' (Function.update L i (l₁ ++ a :: l₂)) := by
  have hk := h.seg i
  have hnd := h.nodup i
  rw [hl] at hk hnd
  obtain ⟨hd₁, hd₂, hd₁₂⟩ := List.nodup_append.mp hnd
  have hm₁ : ∀ x ∈ l₁, x ∈ L i := fun x hx => by simp [hl, hx]
  have hm₂ : ∀ x ∈ l₂, x ∈ L i := fun x hx => by simp [hl, hx]
  rw [List.append_cons]
  refine h.edit ?_ ?_ (fun x hx => ?_) ?_ ho (fun j hj x hx => ?_) (fun j hj x hx => ?_)
  · refine Seg.splice (m := []) hd₁ hd₂ (by simpa using hk) ?_
      (fun x hx => ?_) (fun x hx => ?_) (fun x hx => ?_) (fun x hx => ?_)
    · exact ⟨by rw [hpa, Option.or_none], by simp [hna], trivial⟩
    · rw [hp i x (hm₁ x hx), if_neg]
      exact fun hc => hd₁₂ x hx x (List.mem_of_head? hc) rfl
    · rw [hn i x (hm₁ x hx)]
      simp
    · rw [hp i x (hm₂ x hx)]
      simp
    · rw [hn i x (hm₂ x hx), if_neg]
      exact fun hc => hd₁₂ x (List.mem_of_getLast? hc) x hx rfl
  · rw [List.append_assoc, List.nodup_append, List.nodup_append]
    refine ⟨hd₁, ⟨by simp, hd₂, fun x hx y hy hxy => ?_⟩, fun x hx y hy hxy => ?_⟩
    · obtain rfl := List.mem_singleton.mp hx
      exact ha i (hxy ▸ hm₂ y hy)
    · subst hxy
      rcases List.mem_append.mp hy with hy | hy
      · obtain rfl := List.mem_singleton.mp hy
        exact ha i (hm₁ _ hx)
      · exact hd₁₂ x hx x hy rfl
  · simp only [List.mem_append, List.mem_singleton] at hx
    rcases hx with (hx | rfl) | hx
    · exact Or.inl (hm₁ x hx)
    · exact Or.inr ha
    · exact Or.inl (hm₂ x hx)
  · rw [hh]
    cases l₁ <;> simp
  · rw [hp j x hx, if_neg]
    exact fun hc => h.disjoint j i hj x hx (hm₂ x (List.mem_of_head? hc))
  · rw [hn j x hx, if_neg]
    exact fun hc => h.disjoint j i hj x hx (hm₁ x (List.mem_of_getLast? hc))

theorem Family.push (h : Family k head L) {i : ι} {a : α} (ha : ∀ j, a ∉ L j)
    (hpa : k'.prev a = none) (hna : k'.next a = head i)
    (hn : ∀ j, ∀ x ∈ L j, k'.next x = k.next x)
    (hp : ∀ j, ∀ x ∈ L j, k'.prev x = if head i = some x then some a else k.prev x)
    (hh : head' i = some a) (ho : ∀ j, j ≠ i → head' j = head j) :
    Family k' head' (Function.update L i (a :: L i)) :=
  h.insert (show L i = [] ++ L i from rfl) ha hpa (hna.trans (h.head_eq i)) (fun j x hx => by simp [hn j x hx])
    (fun j x hx => by rw [hp j x hx, h.head_eq i]) hh ho

end Families

end CLearning.LinkedLists
