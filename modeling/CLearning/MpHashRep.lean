import CLearning.LinkedLists
import CLearning.MpHash

/-!
# The hash table holds a bounded set

Every node of the table is in exactly one list. The nodes in the buckets carry
the stored elements, at most one of each comparison class, sorted by reversed
hash. Insertion, deletion and search are specified on this representation.
-/

set_option autoImplicit false

namespace CLearning.MpHashRep
open CLearning.Machine CLearning.LinkedLists CLearning.MpHash

inductive Slot where
  | free
  | bucket (b : ℕ)
  deriving DecidableEq

variable {α : Type}

def heads (t : Table α) : Slot → Option ℕ
  | .free => t.free_buckets
  | .bucket b => t.table_buckets b

def links (t : Table α) : Links ℕ :=
  ⟨fun n => (t.bucket_nodes n).prev, fun n => (t.bucket_nodes n).next⟩

/-- Comparison to zero is an equivalence that the hash respects. -/
structure Lawful (t : Table α) (eqv : α → α → Prop) : Prop where
  cmp : ∃ c, t.cmp = some c ∧ ∀ a b, c a b = 0 ↔ eqv a b
  equiv : Equivalence eqv
  hash : ∀ a b, eqv a b → t.hash a = t.hash b

/-- A node that stores `d` where the table expects it. -/
def Holds (t : Table α) (b n : ℕ) (d : α) : Prop :=
  (t.bucket_nodes n).data = some d ∧ (t.bucket_nodes n).reversed = reverse (t.hash d) ∧
    t.hash d % t.mask = b

structure Nodes (t : Table α) (eqv : α → α → Prop) (L : Slot → List ℕ) (S : ℕ → α) : Prop where
  lawful : Lawful t eqv
  mask : t.mask ≠ 0
  size : t.num_buckets < 2^32
  lists : Family (links t) (heads t) L
  lt : ∀ s, ∀ n ∈ L s, n < t.num_buckets
  holds : ∀ b, ∀ n ∈ L (.bucket b), Holds t b n (S n)
  sorted : ∀ b, (L (.bucket b)).Pairwise fun m n =>
    (t.bucket_nodes m).reversed ≤ (t.bucket_nodes n).reversed
  distinct : ∀ b c, ∀ m ∈ L (.bucket b), ∀ n ∈ L (.bucket c), eqv (S m) (S n) → m = n

structure Rep (t : Table α) (eqv : α → α → Prop) (L : Slot → List ℕ) (S : ℕ → α) : Prop extends
    Nodes t eqv L S where
  count : t.num_elements+(L .free).length = t.num_buckets

def Stored (L : Slot → List ℕ) (S : ℕ → α) (d : α) : Prop := ∃ b, ∃ n ∈ L (.bucket b), S n = d

section Search

variable {t : Table α} {eqv : α → α → Prop} {L : Slot → List ℕ} {S : ℕ → α}

theorem mpListFind_eq {d : α} {r : ℕ} {l : List ℕ} {p : Option ℕ} {fuel : ℕ}
    (hs : Seg (links t) p l none)
    (ho : l.Pairwise fun m n => (t.bucket_nodes m).reversed ≤ (t.bucket_nodes n).reversed)
    (hf : l.length < fuel) :
    mpListFind t d r fuel l.head? = l.find? fun n =>
      decide ((t.bucket_nodes n).reversed = r) && !t.differ d (t.bucket_nodes n).data := by
  induction l generalizing p fuel with
  | nil =>
    cases fuel with
    | zero => simp at hf
    | succ fuel => rfl
  | cons a l ih =>
    cases fuel with
    | zero => simp at hf
    | succ fuel =>
      obtain ⟨_, hn, hs⟩ := hs
      obtain ⟨ha, ho⟩ := List.pairwise_cons.mp ho
      have hnext : (t.bucket_nodes a).next = l.head? := by simpa [links] using hn
      have hih := ih hs ho (by simpa using hf)
      simp only [List.head?_cons, mpListFind, hnext, hih, List.find?_cons]
      by_cases h1 : (t.bucket_nodes a).reversed > r
      · have h2 : ∀ n ∈ l, (t.bucket_nodes n).reversed ≠ r := fun n hn => by
          have := ha n hn
          omega
        rw [if_pos h1]
        simp only [show (t.bucket_nodes a).reversed ≠ r by omega, decide_false, Bool.false_and]
        symm
        rw [List.find?_eq_none]
        intro n hn
        simp [h2 n hn]
      · rw [if_neg h1]
        by_cases h2 : (t.bucket_nodes a).reversed = r
        · cases h3 : t.differ d (t.bucket_nodes a).data <;> simp [h2]
        · simp [h2]

theorem Nodes.length_lt (h : Nodes t eqv L S) (s : Slot) : (L s).length < t.num_buckets+1 := by
  have h1 : (L s) ⊆ List.range t.num_buckets := fun n hn => by simpa using h.lt s n hn
  have h2 := (List.subperm_of_subset (h.lists.nodup s) h1).length_le
  simp at h2
  omega

theorem Nodes.differ (h : Nodes t eqv L S) (d x : α) : t.differ d (some x) = false ↔ eqv d x := by
  obtain ⟨c, hc, he⟩ := h.lawful.cmp
  simp [Table.differ, hc, he]

/-- The bucket an element equal to `d` can be in, and nothing else, is searched. -/
theorem Nodes.find (h : Nodes t eqv L S) (d : α) :
    mpListFind t d (reverse (t.hash d)) (t.num_buckets+1)
        (t.table_buckets (t.hash d % t.mask)) = none ∧
      (∀ b, ∀ n ∈ L (.bucket b), ¬eqv d (S n)) ∨
    ∃ n ∈ L (.bucket (t.hash d % t.mask)), eqv d (S n) ∧
      mpListFind t d (reverse (t.hash d)) (t.num_buckets+1)
        (t.table_buckets (t.hash d % t.mask)) = some n := by
  have hb := h.lists.head_eq (.bucket (t.hash d % t.mask))
  rw [show t.table_buckets (t.hash d % t.mask) = _ from hb,
    mpListFind_eq (h.lists.seg _) (h.sorted _) (h.length_lt _)]
  cases hf : (L (.bucket (t.hash d % t.mask))).find? fun n =>
      decide ((t.bucket_nodes n).reversed = reverse (t.hash d)) &&
        !t.differ d (t.bucket_nodes n).data with
  | none =>
    refine Or.inl ⟨rfl, fun b n hn he => ?_⟩
    have hh := h.lawful.hash d (S n) he
    obtain ⟨h1, h2, h3⟩ := h.holds b n hn
    rw [← hh] at h2 h3
    subst h3
    rw [List.find?_eq_none] at hf
    refine hf n hn ?_
    simp [h1, h2, (h.differ d (S n)).mpr he]
  | some n =>
    have hn := List.mem_of_find?_eq_some hf
    have hp := List.find?_some hf
    refine Or.inr ⟨n, hn, ?_, rfl⟩
    obtain ⟨h1, _, _⟩ := h.holds _ n hn
    rw [h1] at hp
    simp only [Bool.and_eq_true, Bool.not_eq_true'] at hp
    exact (h.differ d (S n)).mp hp.2

theorem mpHashTableFind_spec (h : Nodes t eqv L S) (d : α) :
    mpHashTableFind t d = .ok none ∧ (∀ x, Stored L S x → ¬eqv d x) ∨
    ∃ x, mpHashTableFind t d = .ok (some x) ∧ Stored L S x ∧ eqv d x := by
  have hpos : t.pos (t.hash d) = .ok (t.hash d % t.mask) := by simp [Table.pos, h.mask]
  rcases h.find d with ⟨hf, hn⟩ | ⟨n, hn, he, hf⟩
  · refine Or.inl ⟨by simp [mpHashTableFind, hpos, hf], ?_⟩
    rintro x ⟨b, n, hnb, rfl⟩
    exact hn b n hnb
  · refine Or.inr ⟨S n, ?_, ⟨_, n, hn, rfl⟩, he⟩
    simp [mpHashTableFind, hpos, hf, (h.holds _ n hn).1]

end Search

section Edits

variable {t t' : Table α} {eqv : α → α → Prop} {L : Slot → List ℕ} {S : ℕ → α} {n e : ℕ}

def Same (t t' : Table α) : Prop :=
  t'.num_buckets = t.num_buckets ∧ t'.num_elements = t.num_elements ∧ t'.mask = t.mask ∧
    t'.hash = t.hash ∧ t'.cmp = t.cmp ∧ t'.free = t.free

theorem Same.trans {u : Table α} (h : Same t t') (h' : Same t' u) : Same t u := by
  obtain ⟨h1, h2, h3, h4, h5, h6⟩ := h
  obtain ⟨k1, k2, k3, k4, k5, k6⟩ := h'
  exact ⟨k1.trans h1, k2.trans h2, k3.trans h3, k4.trans h4, k5.trans h5, k6.trans h6⟩

theorem setPrev_nodes (t : Table α) (i : ℕ) (v : Option ℕ) : (t.setPrev i v).bucket_nodes n =
    if n = i then { t.bucket_nodes i with prev := v } else t.bucket_nodes n := by
  by_cases h : n = i <;> simp [Table.setPrev, Table.setEntry, h]

theorem setNext_nodes (t : Table α) (i : ℕ) (v : Option ℕ) : (t.setNext i v).bucket_nodes n =
    if n = i then { t.bucket_nodes i with next := v } else t.bucket_nodes n := by
  by_cases h : n = i <;> simp [Table.setNext, Table.setEntry, h]

theorem setPrev?_nodes (t : Table α) (i v : Option ℕ) : (t.setPrev? i v).bucket_nodes n =
    if i = some n then { t.bucket_nodes n with prev := v } else t.bucket_nodes n := by
  cases i with
  | none => simp [Table.setPrev?]
  | some i =>
    simp only [Table.setPrev?, setPrev_nodes, Option.some.injEq]
    by_cases h : n = i
    · simp [h]
    · simp [h, Ne.symm h]

theorem setEntry_nodes (t : Table α) (i : ℕ) (f : Entry α → Entry α) :
    (t.setEntry i f).bucket_nodes n = if n = i then f (t.bucket_nodes i) else t.bucket_nodes n := by
  by_cases h : n = i <;> simp [Table.setEntry, h]

/-- The contents of the nodes in the buckets carry the representation over to
a table with other lists. -/
theorem Nodes.edit {L' : Slot → List ℕ} {S' : ℕ → α} (h : Nodes t eqv L S) (hs : Same t t')
    (hl : Family (links t') (heads t') L') (hlt : ∀ s, ∀ n ∈ L' s, n < t.num_buckets)
    (hh : ∀ b, ∀ n ∈ L' (.bucket b), Holds t' b n (S' n))
    (ho : ∀ b, (L' (.bucket b)).Pairwise fun m n =>
      (t'.bucket_nodes m).reversed ≤ (t'.bucket_nodes n).reversed)
    (hd : ∀ b c, ∀ m ∈ L' (.bucket b), ∀ n ∈ L' (.bucket c), eqv (S' m) (S' n) → m = n) :
    Nodes t' eqv L' S' where
  lawful := by
    obtain ⟨_, _, _, h4, h5, _⟩ := hs
    exact ⟨by rw [h5]; exact h.lawful.cmp, h.lawful.equiv, by rw [h4]; exact h.lawful.hash⟩
  mask := by rw [hs.2.2.1]; exact h.mask
  size := by rw [hs.1]; exact h.size
  lists := hl
  lt s n hn := by rw [hs.1]; exact hlt s n hn
  holds := hh
  sorted := ho
  distinct := hd

theorem Holds.congr {b : ℕ} {d : α} (h : Holds t b n d) (hs : Same t t')
    (hd : (t'.bucket_nodes n).data = (t.bucket_nodes n).data)
    (hr : (t'.bucket_nodes n).reversed = (t.bucket_nodes n).reversed) : Holds t' b n d := by
  obtain ⟨h1, h2, h3⟩ := h
  obtain ⟨-, -, k3, k4, -⟩ := hs
  exact ⟨hd.trans h1, by rw [hr, h2, k4], by rw [k3, k4, h3]⟩

theorem Nodes.relink {L' : Slot → List ℕ} (h : Nodes t eqv L S) (hs : Same t t')
    (hl : Family (links t') (heads t') L') (hlt : ∀ s, ∀ n ∈ L' s, n < t.num_buckets)
    (hb : ∀ b, (L' (.bucket b)).Sublist (L (.bucket b)))
    (hd : ∀ b, ∀ n ∈ L' (.bucket b), (t'.bucket_nodes n).data = (t.bucket_nodes n).data)
    (hr : ∀ b, ∀ n ∈ L' (.bucket b), (t'.bucket_nodes n).reversed = (t.bucket_nodes n).reversed) :
    Nodes t' eqv L' S := by
  refine h.edit hs hl hlt (fun b n hn => ?_) (fun b => ?_) (fun b c m hm n hn => ?_)
  · exact (h.holds b n ((hb b).subset hn)).congr hs (hd b n hn) (hr b n hn)
  · refine List.Pairwise.imp_of_mem (fun hm hn hle => ?_) ((h.sorted b).sublist (hb b))
    rw [hr b _ hm, hr b _ hn]
    exact hle
  · exact h.distinct b c m ((hb b).subset hm) n ((hb c).subset hn)

theorem mpGetFreeEntry_eq_none (h : Nodes t eqv L S) : mpGetFreeEntry t = none ↔ L .free = [] := by
  have h1 : t.free_buckets = (L .free).head? := h.lists.head_eq .free
  rw [mpGetFreeEntry, Option.map_eq_none_iff, h1, List.head?_eq_none_iff]

theorem mpGetFreeEntry_spec (h : Nodes t eqv L S) (hg : mpGetFreeEntry t = some (t', e)) :
    ∃ l, L .free = e :: l ∧ Nodes t' eqv (Function.update L .free l) S ∧ Same t t' ∧
      (∀ s, e ∉ Function.update L .free l s) ∧ (t'.bucket_nodes e).prev = none ∧
      (t'.bucket_nodes e).next = none := by
  simp only [mpGetFreeEntry, Option.map_eq_some_iff, Prod.mk.injEq] at hg
  obtain ⟨a, ha, ht, rfl⟩ := hg
  have h1 : t.free_buckets = (L .free).head? := h.lists.head_eq .free
  obtain ⟨l, hl⟩ := List.head?_eq_some_iff.mp (h1.symm.trans ha)
  have hnode : ∀ n, t'.bucket_nodes n = if n = a then
        { ((t.setPrev? (t.bucket_nodes a).next none).bucket_nodes a) with
          data := none, prev := none, next := none, key := 0 }
      else (t.setPrev? (t.bucket_nodes a).next none).bucket_nodes n := by
    intro n
    rw [← ht, setEntry_nodes]
    by_cases hn : n = a
    · simp only [hn, if_true]
      cases (t.bucket_nodes a).next <;> rfl
    · simp only [hn, if_false]
      cases (t.bucket_nodes a).next <;> rfl
  have hseg := h.lists.seg .free
  rw [hl] at hseg
  have hprev : (t.bucket_nodes a).prev = none := hseg.1
  have ham : a ∈ L .free := by simp [hl]
  have hnd := h.lists.nodup .free
  rw [hl] at hnd
  have hal : a ∉ l := (List.nodup_cons.mp hnd).1
  have hsame : Same t t' := by
    rw [← ht]
    cases (t.bucket_nodes a).next <;> exact ⟨rfl, rfl, rfl, rfl, rfl, rfl⟩
  have herase : (L .free).erase a = l := by rw [hl, List.erase_cons_head]
  have hfam : Family (links t') (heads t') (Function.update L .free l) := by
    rw [← herase]
    refine h.lists.unlink ham (fun j x _ hxa => ?_) (fun j x _ hxa => ?_) ?_ (fun j hj => ?_)
    · simp only [links, hnode, hxa, if_false, setPrev?_nodes, hprev]
      split <;> simp
    · simp only [links, hnode, hxa, if_false, setPrev?_nodes, hprev]
      split <;> simp
    · have h2 : t'.free_buckets = (t.bucket_nodes a).next := by
        rw [← ht]
        cases (t.bucket_nodes a).next <;> rfl
      simp [heads, h2, ha, links]
    · cases j with
      | free => exact absurd rfl hj
      | bucket b =>
        rw [← ht]
        cases (t.bucket_nodes a).next <;> rfl
  have hnot : ∀ s, a ∉ Function.update L .free l s := by
    intro s hs
    by_cases hsf : s = .free
    · subst hsf
      rw [Function.update_self] at hs
      exact hal hs
    · rw [Function.update_of_ne hsf] at hs
      exact hsf (h.lists.eq_of_mem hs ham)
  refine ⟨l, hl, h.relink hsame hfam (fun s n hn => ?_) (fun b => by simp) (fun b n hn => ?_)
    (fun b n hn => ?_), hsame, hnot, by simp [hnode], by simp [hnode]⟩
  · by_cases hsf : s = .free
    · subst hsf
      rw [Function.update_self] at hn
      exact h.lt .free n (by simp [hl, hn])
    · rw [Function.update_of_ne hsf] at hn
      exact h.lt s n hn
  · rw [hnode, if_neg (fun hc => hnot _ (hc ▸ hn)), setPrev?_nodes]
    split <;> rfl
  · rw [hnode, if_neg (fun hc => hnot _ (hc ▸ hn)), setPrev?_nodes]
    split <;> rfl

theorem mpPutFreeEntry_spec (h : Nodes t eqv L S) (he : ∀ s, e ∉ L s) (hlt : e < t.num_buckets) :
    Nodes (mpPutFreeEntry t e) eqv (Function.update L .free (e :: L .free)) S ∧
      Same t (mpPutFreeEntry t e) := by
  have hnode : ∀ n, (mpPutFreeEntry t e).bucket_nodes n =
      if t.free_buckets = some n then
        { (if n = e then ⟨none, t.free_buckets, none, 0, 0⟩ else t.bucket_nodes n) with
          prev := some e }
      else if n = e then ⟨none, t.free_buckets, none, 0, 0⟩ else t.bucket_nodes n := by
    intro n
    have h1 : (mpPutFreeEntry t e).bucket_nodes n = ((t.setEntry e fun _ =>
        ⟨none, t.free_buckets, none, 0, 0⟩).setPrev? t.free_buckets (some e)).bucket_nodes n := rfl
    rw [h1, setPrev?_nodes, setEntry_nodes]
  have hfe : t.free_buckets ≠ some e := fun hc =>
    he .free (List.mem_of_head? ((h.lists.head_eq .free).symm.trans hc))
  have hsame : Same t (mpPutFreeEntry t e) := by
    unfold mpPutFreeEntry Same
    cases t.free_buckets <;> exact ⟨rfl, rfl, rfl, rfl, rfl, rfl⟩
  have hfam : Family (links (mpPutFreeEntry t e)) (heads (mpPutFreeEntry t e))
      (Function.update L .free (e :: L .free)) := by
    refine h.lists.push he ?_ ?_ (fun j x hx => ?_) (fun j x hx => ?_) rfl (fun j hj => ?_)
    · simp [links, hnode, hfe]
    · simp [links, hnode, hfe, heads]
    · have hxe : x ≠ e := fun hc => he j (hc ▸ hx)
      simp only [links, hnode, hxe, if_false]
      split <;> rfl
    · have hxe : x ≠ e := fun hc => he j (hc ▸ hx)
      simp only [links, hnode, hxe, if_false, heads]
      by_cases hc : t.free_buckets = some x <;> simp [hc]
    · cases j with
      | free => exact absurd rfl hj
      | bucket b =>
        unfold mpPutFreeEntry
        cases t.free_buckets <;> rfl
  refine ⟨h.relink hsame hfam (fun s n hn => ?_) (fun b => by simp) (fun b n hn => ?_)
    (fun b n hn => ?_), hsame⟩
  · by_cases hsf : s = .free
    · subst hsf
      rw [Function.update_self, List.mem_cons] at hn
      rcases hn with rfl | hn
      · exact hlt
      · exact h.lt _ n hn
    · rw [Function.update_of_ne hsf] at hn
      exact h.lt s n hn
  · rw [Function.update_of_ne (by simp)] at hn
    have hne : n ≠ e := fun hc => he _ (hc ▸ hn)
    rw [hnode, if_neg hne]
    split <;> rfl
  · rw [Function.update_of_ne (by simp)] at hn
    have hne : n ≠ e := fun hc => he _ (hc ▸ hn)
    rw [hnode, if_neg hne]
    split <;> rfl

theorem insertAfter_spec {d : α} {r : ℕ} {l : List ℕ} {p : Option ℕ} (last : Option ℕ) {fuel : ℕ}
    (hs : Seg (links t) p l none)
    (ho : l.Pairwise fun m n => (t.bucket_nodes m).reversed ≤ (t.bucket_nodes n).reversed)
    (hf : l.length < fuel) :
    insertAfter t d r fuel l.head? last = none ∧ (∃ n ∈ l, (t.bucket_nodes n).reversed = r ∧
        t.differ d (t.bucket_nodes n).data = false) ∨
      ∃ l₁ l₂, l = l₁ ++ l₂ ∧ insertAfter t d r fuel l.head? last = some (l₁.getLast?.or last) ∧
        (∀ n ∈ l₁, (t.bucket_nodes n).reversed ≤ r) ∧
        (∀ n ∈ l₂, r ≤ (t.bucket_nodes n).reversed) ∧
        ∀ n ∈ l, (t.bucket_nodes n).reversed = r → t.differ d (t.bucket_nodes n).data = true := by
  induction l generalizing p fuel last with
  | nil =>
    cases fuel with
    | zero => simp at hf
    | succ fuel => exact Or.inr ⟨[], [], by simp [insertAfter]⟩
  | cons a l ih =>
    cases fuel with
    | zero => simp at hf
    | succ fuel =>
      obtain ⟨_, hn, hs⟩ := hs
      obtain ⟨ha, ho⟩ := List.pairwise_cons.mp ho
      have hnext : (t.bucket_nodes a).next = l.head? := by simpa [links] using hn
      have hih := ih (some a) hs ho (by simpa using hf)
      simp only [List.head?_cons, insertAfter, hnext]
      by_cases h1 : (t.bucket_nodes a).reversed > r
      · rw [if_pos h1]
        refine Or.inr ⟨[], a :: l, rfl, by simp, by simp, fun n hn => ?_, fun n hn hr => ?_⟩
        · rcases List.mem_cons.mp hn with rfl | hn
          · omega
          · have := ha n hn
            omega
        · rcases List.mem_cons.mp hn with rfl | hn
          · omega
          · have := ha n hn
            omega
      · rw [if_neg h1]
        -- the walk goes on behind `a` unless `a` holds an equal element
        have hgo : t.differ d (t.bucket_nodes a).data = true ∨ (t.bucket_nodes a).reversed ≠ r →
            insertAfter t d r fuel l.head? (some a) = none ∧ (∃ n ∈ a :: l,
              (t.bucket_nodes n).reversed = r ∧ t.differ d (t.bucket_nodes n).data = false) ∨
            ∃ l₁ l₂, a :: l = l₁ ++ l₂ ∧
              insertAfter t d r fuel l.head? (some a) = some (l₁.getLast?.or last) ∧
              (∀ n ∈ l₁, (t.bucket_nodes n).reversed ≤ r) ∧
              (∀ n ∈ l₂, r ≤ (t.bucket_nodes n).reversed) ∧
              ∀ n ∈ a :: l, (t.bucket_nodes n).reversed = r →
                t.differ d (t.bucket_nodes n).data = true := by
          intro hdiff
          rcases hih with ⟨h2, n, hn, h3⟩ | ⟨l₁, l₂, rfl, h2, h3, h4, h5⟩
          · exact Or.inl ⟨h2, n, List.mem_cons_of_mem _ hn, h3⟩
          · refine Or.inr ⟨a :: l₁, l₂, rfl, ?_, fun n hn => ?_, h4, fun n hn hr => ?_⟩
            · rw [h2, getLast?_cons_or]
            · rcases List.mem_cons.mp hn with rfl | hn
              · omega
              · exact h3 n hn
            · rcases List.mem_cons.mp hn with rfl | hn
              · rcases hdiff with hd | hd
                · exact hd
                · exact absurd hr hd
              · exact h5 n hn hr
        by_cases h2 : (t.bucket_nodes a).reversed = r
        · rw [if_pos h2]
          cases h3 : t.differ d (t.bucket_nodes a).data with
          | true => exact hgo (Or.inl h3)
          | false => exact Or.inl ⟨rfl, a, by simp, h2, h3⟩
        · rw [if_neg h2]
          exact hgo (Or.inr h2)

/-- The stores that put node `e` between `l₁` and `l₂` in bucket `b`. -/
structure Linked (t t' : Table α) (b e : ℕ) (l₁ l₂ : List ℕ) : Prop where
  prev : (t'.bucket_nodes e).prev = l₁.getLast?
  next : (t'.bucket_nodes e).next = l₂.head?
  nexts : ∀ x, x ≠ e → (t'.bucket_nodes x).next =
    if l₁.getLast? = some x then some e else (t.bucket_nodes x).next
  prevs : ∀ x, x ≠ e → (t'.bucket_nodes x).prev =
    if l₂.head? = some x then some e else (t.bucket_nodes x).prev
  head : t'.table_buckets b = (l₁ ++ [e]).head?
  heads : ∀ c, c ≠ b → t'.table_buckets c = t.table_buckets c
  free : t'.free_buckets = t.free_buckets
  data : ∀ x, (t'.bucket_nodes x).data = (t.bucket_nodes x).data
  reversed : ∀ x, (t'.bucket_nodes x).reversed = (t.bucket_nodes x).reversed
  same : Same t t'

section Relink

variable {a b m q : ℕ} {l₁ l₂ : List ℕ}

/-- The node becomes the first of its bucket. -/
theorem linked_first (hae : a ≠ e) (hp : (t.bucket_nodes e).prev = none) (hl₂ : l₂.head? = some a) :
    Linked t (((t.setNext e (some a)).setPrev a (some e)).setHead b (some e)) b e [] l₂ := by
  have hnode : ∀ x, (((t.setNext e (some a)).setPrev a (some e)).setHead b
      (some e)).bucket_nodes x =
      if x = a then { (if a = e then { t.bucket_nodes e with next := some a }
        else t.bucket_nodes a) with prev := some e }
      else if x = e then { t.bucket_nodes e with next := some a } else t.bucket_nodes x := by
    intro x
    have h5 : (((t.setNext e (some a)).setPrev a (some e)).setHead b
      (some e)).bucket_nodes x = ((t.setNext e (some a)).setPrev a (some e)).bucket_nodes x := rfl
    rw [h5, setPrev_nodes, setNext_nodes, setNext_nodes]
  refine ⟨?_, ?_, fun x hx => ?_, fun x hx => ?_, by simp [Table.setHead],
    fun c hc => by simp [Table.setHead, hc, Table.setPrev, Table.setNext, Table.setEntry], rfl,
    fun x => ?_, fun x => ?_, ⟨rfl, rfl, rfl, rfl, rfl, rfl⟩⟩
  · simp [hnode, Ne.symm hae, hp]
  · simp [hnode, Ne.symm hae, hl₂]
  · by_cases hxa : x = a <;> simp [hnode, hxa, hae, hx]
  · by_cases hxa : x = a
    · simp [hnode, hxa, hae, hl₂]
    · simp [hnode, hxa, hx, hl₂, Ne.symm hxa]
  · by_cases hxa : x = a
    · simp [hnode, hxa, hae]
    · by_cases hxe : x = e <;> simp [hnode, hxa, hxe, Ne.symm hae]
  · by_cases hxa : x = a
    · simp [hnode, hxa, hae]
    · by_cases hxe : x = e <;> simp [hnode, hxa, hxe, Ne.symm hae]

/-- The node becomes the last of its bucket. -/
theorem linked_last (hqe : q ≠ e) (hn : (t.bucket_nodes e).next = none)
    (hlast : l₁.getLast? = some q) (hl₂ : l₂.head? = none)
    (hhead : (l₁ ++ [e]).head? = t.table_buckets b) :
    Linked t ((t.setPrev e (some q)).setNext q (some e)) b e l₁ l₂ := by
  have hnode : ∀ x, ((t.setPrev e (some q)).setNext q (some e)).bucket_nodes x =
      if x = q then { t.bucket_nodes q with next := some e }
      else if x = e then { t.bucket_nodes e with prev := some q } else t.bucket_nodes x := by
    intro x
    rw [setNext_nodes, setPrev_nodes, setPrev_nodes, if_neg hqe]
  refine ⟨?_, ?_, fun x hx => ?_, fun x hx => ?_, by rw [hhead]; rfl, fun c hc => rfl, rfl,
    fun x => ?_, fun x => ?_, ⟨rfl, rfl, rfl, rfl, rfl, rfl⟩⟩
  · simp [hnode, Ne.symm hqe, hlast]
  · simp [hnode, Ne.symm hqe, hn, hl₂]
  · by_cases hxq : x = q
    · simp [hnode, hxq, hlast]
    · simp [hnode, hxq, hx, hlast, Ne.symm hxq]
  · by_cases hxq : x = q <;> simp [hnode, hxq, hx, hl₂]
  · by_cases hxq : x = q
    · simp [hnode, hxq]
    · by_cases hxe : x = e <;> simp [hnode, hxq, hxe, Ne.symm hqe]
  · by_cases hxq : x = q
    · simp [hnode, hxq]
    · by_cases hxe : x = e <;> simp [hnode, hxq, hxe, Ne.symm hqe]

/-- The node goes between two nodes of its bucket. -/
theorem linked_between (hqe : q ≠ e) (hme : m ≠ e) (hmq : m ≠ q)
    (hlast : l₁.getLast? = some q) (hl₂ : l₂.head? = some m)
    (hhead : (l₁ ++ [e]).head? = t.table_buckets b) :
    Linked t ((((t.setPrev e (some q)).setPrev m (some e)).setNext e (some m)).setNext q
      (some e)) b e l₁ l₂ := by
  have hnode : ∀ x, ((((t.setPrev e (some q)).setPrev m (some e)).setNext e
      (some m)).setNext q (some e)).bucket_nodes x =
      if x = q then { t.bucket_nodes q with next := some e }
      else if x = e then { t.bucket_nodes e with prev := some q, next := some m }
      else if x = m then { t.bucket_nodes m with prev := some e }
      else t.bucket_nodes x := by
    intro x
    simp only [setNext_nodes, setPrev_nodes, hqe, hme, Ne.symm hmq, Ne.symm hme, if_false]
    by_cases hxe : x = e
    · simp only [hxe, if_true]
    · simp only [hxe, if_false]
  refine ⟨?_, ?_, fun x hx => ?_, fun x hx => ?_, by rw [hhead]; rfl, fun c hc => rfl, rfl,
    fun x => ?_, fun x => ?_, ⟨rfl, rfl, rfl, rfl, rfl, rfl⟩⟩
  · simp [hnode, Ne.symm hqe, hlast]
  · simp [hnode, Ne.symm hqe, hl₂]
  · by_cases hxq : x = q
    · simp [hnode, hxq, hlast]
    · by_cases hxm : x = m <;> simp [hnode, hxq, hx, hlast, Ne.symm hxq, hxm, hme, hmq,
        Ne.symm hmq]
  · by_cases hxq : x = q
    · simp [hnode, hxq, hl₂, hmq]
    · by_cases hxm : x = m
      · simp [hnode, hxm, hl₂, hme, hmq]
      · simp [hnode, hxq, hx, hl₂, hxm, Ne.symm hxm]
  · by_cases hxq : x = q
    · simp [hnode, hxq]
    · by_cases hxe : x = e
      · simp [hnode, hxe, Ne.symm hqe]
      · by_cases hxm : x = m <;> simp [hnode, hxq, hxe, hxm, hme, hmq]
  · by_cases hxq : x = q
    · simp [hnode, hxq]
    · by_cases hxe : x = e
      · simp [hnode, hxe, Ne.symm hqe]
      · by_cases hxm : x = m <;> simp [hnode, hxq, hxe, hxm, hme, hmq]

end Relink

theorem mpListInsert_linked (h : Nodes t eqv L S) (he : ∀ s, e ∉ L s) {b : ℕ} {d : α}
    (hp : (t.bucket_nodes e).prev = none) (hn : (t.bucket_nodes e).next = none) :
    mpListInsert t b e d = none ∧ (∃ n ∈ L (.bucket b),
        (t.bucket_nodes n).reversed = (t.bucket_nodes e).reversed ∧
          t.differ d (t.bucket_nodes n).data = false) ∨
      ∃ t' l₁ l₂, mpListInsert t b e d = some t' ∧ L (.bucket b) = l₁ ++ l₂ ∧
        Linked t t' b e l₁ l₂ ∧
        (∀ n ∈ l₁, (t.bucket_nodes n).reversed ≤ (t.bucket_nodes e).reversed) ∧
        (∀ n ∈ l₂, (t.bucket_nodes e).reversed ≤ (t.bucket_nodes n).reversed) ∧
        ∀ n ∈ L (.bucket b), (t.bucket_nodes n).reversed = (t.bucket_nodes e).reversed →
          t.differ d (t.bucket_nodes n).data = true := by
  have hhead : t.table_buckets b = (L (.bucket b)).head? := h.lists.head_eq (.bucket b)
  have hl := insertAfter_spec (d := d) (r := (t.bucket_nodes e).reversed) none
    (h.lists.seg (.bucket b)) (h.sorted b) (h.length_lt _)
  cases hb : t.table_buckets b with
  | none =>
    have hnil : L (.bucket b) = [] := List.head?_eq_none_iff.mp (hhead.symm.trans hb)
    refine Or.inr ⟨t.setHead b (some e), [], [], by simp [mpListInsert, hb], by simp [hnil], ?_,
      by simp, by simp, by simp [hnil]⟩
    exact ⟨hp, hn, fun x _ => by simp [Table.setHead], fun x _ => by simp [Table.setHead],
      by simp [Table.setHead], fun c hc => by simp [Table.setHead, hc], rfl, fun _ => rfl,
      fun _ => rfl, ⟨rfl, rfl, rfl, rfl, rfl, rfl⟩⟩
  | some a =>
    rw [← hhead, hb] at hl
    rcases hl with ⟨h1, h2⟩ | ⟨l₁, l₂, h0, h1, h2, h3, h4⟩
    · exact Or.inl ⟨by simp [mpListInsert, hb, h1], h2⟩
    · rw [Option.or_none] at h1
      have hmem : ∀ x ∈ l₁ ++ l₂, x ≠ e := fun x hx hxe => he (.bucket b) (h0 ▸ hxe ▸ hx)
      have hseg := h.lists.seg (.bucket b)
      rw [h0, seg_append] at hseg
      cases hlast : l₁.getLast? with
      | none =>
        have hnil := List.getLast?_eq_none_iff.mp hlast
        subst hnil
        have hl₂ : l₂.head? = some a := by
          rw [← hb, hhead, h0]
          rfl
        have hae : a ≠ e := hmem a (by simp [List.mem_of_head? hl₂])
        exact Or.inr ⟨((t.setNext e (some a)).setPrev a (some e)).setHead b (some e), [], l₂,
          by simp [mpListInsert, hb, h1, hlast], h0, linked_first hae hp hl₂, h2, h3, h4⟩
      | some q =>
        have hq : q ∈ l₁ := List.mem_of_getLast? hlast
        have hqe : q ≠ e := hmem q (by simp [hq])
        have hqn : (t.bucket_nodes q).next = l₂.head? := by
          obtain ⟨l₀, rfl⟩ := List.getLast?_eq_some_iff.mp hlast
          simpa [links] using (Seg.neighbours hseg.1).2
        have hd₁₂ := (List.nodup_append.mp (h0 ▸ h.lists.nodup (.bucket b))).2.2
        have h₁₁ : (l₁ ++ [e]).head? = t.table_buckets b := by
          rw [hhead, h0]
          cases l₁ with
          | nil => simp at hq
          | cons c l₁ => rfl
        cases hl₂ : l₂.head? with
        | none =>
          exact Or.inr ⟨(t.setPrev e (some q)).setNext q (some e), l₁, l₂,
            by simp [mpListInsert, hb, h1, hlast, hqn, hl₂], h0,
            linked_last hqe hn hlast hl₂ h₁₁, h2, h3, h4⟩
        | some m =>
          have hm : m ∈ l₂ := List.mem_of_head? hl₂
          have hme : m ≠ e := hmem m (by simp [hm])
          have hmq : m ≠ q := fun hc => hd₁₂ q hq m hm hc.symm
          exact Or.inr ⟨(((t.setPrev e (some q)).setPrev m (some e)).setNext e (some m)).setNext q
            (some e), l₁, l₂, by simp [mpListInsert, hb, h1, hlast, hqn, hl₂], h0,
            linked_between hqe hme hmq hlast hl₂ h₁₁, h2, h3, h4⟩

theorem mpListInsert_spec (h : Nodes t eqv L S) (he : ∀ s, e ∉ L s) (hlt : e < t.num_buckets)
    {b : ℕ} {d : α} (hd : Holds t b e d) (hp : (t.bucket_nodes e).prev = none)
    (hn : (t.bucket_nodes e).next = none) :
    mpListInsert t b e d = none ∧ (∃ x, Stored L S x ∧ eqv d x) ∨
      ∃ t' L', mpListInsert t b e d = some t' ∧ Nodes t' eqv L' (Function.update S e d) ∧
        Same t t' ∧ L' .free = L .free ∧
        (∀ c n, n ∈ L' (.bucket c) ↔ n ∈ L (.bucket c) ∨ (c = b ∧ n = e)) ∧
        ∀ x, Stored L S x → ¬eqv d x := by
  obtain ⟨hd1, hd2, hd3⟩ := hd
  rcases mpListInsert_linked h he (b := b) (d := d) hp hn with
    ⟨h1, n, hn, h2, h3⟩ | ⟨t', l₁, l₂, h1, h0, hk, h2, h3, h4⟩
  · refine Or.inl ⟨h1, S n, ⟨b, n, hn, rfl⟩, ?_⟩
    rw [(h.holds b n hn).1] at h3
    exact (h.differ d (S n)).mp h3
  · have hnew : ∀ x, Stored L S x → ¬eqv d x := by
      rintro x ⟨c, n, hn, rfl⟩ hx
      obtain ⟨k1, k2, k3⟩ := h.holds c n hn
      have hh := h.lawful.hash d (S n) hx
      rw [← hh] at k2 k3
      have hcb : c = b := k3.symm.trans hd3
      subst hcb
      have := h4 n hn (k2.trans hd2.symm)
      rw [k1, (h.differ d (S n)).mpr hx] at this
      cases this
    have hmem : ∀ c, ∀ x ∈ L c, x ≠ e := fun c x hx hxe => he c (hxe ▸ hx)
    have hmem' : ∀ c n, n ∈ Function.update L (.bucket b) (l₁ ++ e :: l₂) (.bucket c) ↔
        n ∈ L (.bucket c) ∨ (c = b ∧ n = e) := by
      intro c n
      by_cases hcb : c = b
      · subst hcb
        simp only [Function.update_self, h0, List.mem_append, List.mem_cons]
        tauto
      · rw [Function.update_of_ne (fun hc => hcb (Slot.bucket.inj hc))]
        simp [hcb]
    have hS : ∀ c, ∀ n ∈ L (.bucket c), Function.update S e d n = S n := fun c n hn =>
      Function.update_of_ne (hmem _ n hn) _ _
    have hfam : Family (links t') (heads t') (Function.update L (.bucket b) (l₁ ++ e :: l₂)) := by
      refine h.lists.insert h0 he hk.prev hk.next (fun j x hx => hk.nexts x (hmem j x hx))
        (fun j x hx => hk.prevs x (hmem j x hx)) hk.head (fun j hj => ?_)
      cases j with
      | free => exact hk.free
      | bucket c => exact hk.heads c (fun hc => hj (hc ▸ rfl))
    refine Or.inr ⟨t', _, h1, h.edit hk.same hfam (fun s n hn => ?_) (fun c n hn => ?_)
      (fun c => ?_) (fun c c' m hm n hn hmn => ?_), hk.same, by simp, hmem', hnew⟩
    · cases s with
      | free => exact h.lt .free n (by simpa using hn)
      | bucket c =>
        rcases (hmem' c n).mp hn with hn | ⟨_, rfl⟩
        · exact h.lt _ n hn
        · exact hlt
    · rcases (hmem' c n).mp hn with hn | ⟨rfl, rfl⟩
      · rw [hS c n hn]
        exact (h.holds c n hn).congr hk.same (hk.data n) (hk.reversed n)
      · rw [Function.update_self]
        exact (show Holds t c n d from ⟨hd1, hd2, hd3⟩).congr hk.same (hk.data n) (hk.reversed n)
    · simp only [hk.reversed]
      by_cases hcb : c = b
      · subst hcb
        rw [Function.update_self]
        have hsort := h.sorted c
        rw [h0, List.pairwise_append] at hsort
        rw [List.pairwise_append, List.pairwise_cons]
        refine ⟨hsort.1, ⟨h3, hsort.2.1⟩, fun m hm n hn => ?_⟩
        rcases List.mem_cons.mp hn with rfl | hn
        · exact h2 m hm
        · exact hsort.2.2 m hm n hn
      · rw [Function.update_of_ne (fun hc => hcb (Slot.bucket.inj hc))]
        exact h.sorted c
    · rcases (hmem' c m).mp hm with hm | ⟨_, hm⟩ <;> rcases (hmem' c' n).mp hn with hn | ⟨_, hn⟩
      · rw [hS c m hm, hS c' n hn] at hmn
        exact h.distinct c c' m hm n hn hmn
      · rw [hS c m hm, hn, Function.update_self] at hmn
        exact absurd (h.lawful.equiv.symm hmn) (hnew _ ⟨c, m, hm, rfl⟩)
      · rw [hm, Function.update_self, hS c' n hn] at hmn
        exact absurd hmn (hnew _ ⟨c', n, hn, rfl⟩)
      · rw [hm, hn]

/-- Taking a node off its bucket. -/
theorem mpListDelete_spec (h : Nodes t eqv L S) (d : α) :
    mpListDelete t (t.hash d % t.mask) d (reverse (t.hash d)) = none ∧
        (∀ x, Stored L S x → ¬eqv d x) ∨
      ∃ t' n L', mpListDelete t (t.hash d % t.mask) d (reverse (t.hash d)) = some (t', n) ∧
        n ∈ L (.bucket (t.hash d % t.mask)) ∧ eqv d (S n) ∧ Nodes t' eqv L' S ∧ Same t t' ∧
        L' .free = L .free ∧ (∀ c x, x ∈ L' (.bucket c) ↔ x ∈ L (.bucket c) ∧ x ≠ n) ∧
        (t'.bucket_nodes n).data = some (S n) := by
  rcases h.find d with ⟨hf, hn⟩ | ⟨n, hn, he, hf⟩
  · refine Or.inl ⟨by simp [mpListDelete, hf], ?_⟩
    rintro x ⟨b, n, hnb, rfl⟩
    exact hn b n hnb
  generalize hb : t.hash d % t.mask = b at *
  have hnn : (t.bucket_nodes n).next ≠ some n := h.lists.next_ne hn
  have hpn : (t.bucket_nodes n).prev ≠ some n := h.lists.prev_ne hn
  have hpp : (t.bucket_nodes n).prev = none ↔ t.table_buckets b = some n :=
    h.lists.prev_eq_none_iff hn
  obtain ⟨t', ht', hnode, hhead, hheads, hfree, hsame⟩ : ∃ t', mpListDelete t b d
      (reverse (t.hash d)) = some (t', n) ∧
      (∀ x, t'.bucket_nodes x = if x = n then { t.bucket_nodes n with prev := none, next := none }
        else { t.bucket_nodes x with
          next := if (t.bucket_nodes n).prev = some x then (t.bucket_nodes n).next
            else (t.bucket_nodes x).next
          prev := if (t.bucket_nodes n).next = some x then (t.bucket_nodes n).prev
            else (t.bucket_nodes x).prev }) ∧
      t'.table_buckets b = (if t.table_buckets b = some n then (t.bucket_nodes n).next
        else t.table_buckets b) ∧
      (∀ c, c ≠ b → t'.table_buckets c = t.table_buckets c) ∧ t'.free_buckets = t.free_buckets ∧
      Same t t' := by
    cases hp : (t.bucket_nodes n).prev with
    | none =>
      refine ⟨(((t.setHead b (t.bucket_nodes n).next).setPrev? (t.bucket_nodes n).next none).setPrev?
        (t.bucket_nodes n).next none).setEntry n fun e => { e with prev := none, next := none },
        by simp [mpListDelete, hf, hp], fun x => ?_, ?_, fun c hc => ?_, ?_, ?_⟩
      · rw [setEntry_nodes, setPrev?_nodes, setPrev?_nodes, setPrev?_nodes, setPrev?_nodes]
        by_cases hx : x = n
        · subst hx
          simp [hnn, Table.setHead]
        · by_cases hxn : (t.bucket_nodes n).next = some x <;> simp [hx, hxn, Table.setHead]
      · rw [if_pos (hpp.mp hp)]
        cases (t.bucket_nodes n).next <;>
          simp [Table.setHead, Table.setPrev?, Table.setPrev, Table.setEntry]
      · cases (t.bucket_nodes n).next <;>
          simp [Table.setHead, Table.setPrev?, Table.setPrev, Table.setEntry, hc]
      · cases (t.bucket_nodes n).next <;> rfl
      · cases (t.bucket_nodes n).next <;> exact ⟨rfl, rfl, rfl, rfl, rfl, rfl⟩
    | some p =>
      have hpn' : p ≠ n := fun hc => hpn (hc ▸ hp)
      refine ⟨((t.setNext p (t.bucket_nodes n).next).setPrev? (t.bucket_nodes n).next
        (some p)).setEntry n fun e => { e with prev := none, next := none },
        by simp [mpListDelete, hf, hp], fun x => ?_, ?_, fun c hc => ?_, ?_, ?_⟩
      · rw [setEntry_nodes, setPrev?_nodes, setPrev?_nodes, setNext_nodes, setNext_nodes]
        by_cases hx : x = n
        · subst hx
          simp [hnn, Ne.symm hpn']
        · by_cases hxp : x = p
          · subst hxp
            by_cases hxn : (t.bucket_nodes n).next = some x <;> simp [hx, hxn]
          · by_cases hxn : (t.bucket_nodes n).next = some x <;> simp [hx, hxn, hxp, Ne.symm hxp]
      · have hne : t.table_buckets b ≠ some n := fun hc => by
          rw [hpp.mpr hc] at hp
          cases hp
        rw [if_neg hne]
        cases (t.bucket_nodes n).next <;> rfl
      · cases (t.bucket_nodes n).next <;> rfl
      · cases (t.bucket_nodes n).next <;> rfl
      · cases (t.bucket_nodes n).next <;> exact ⟨rfl, rfl, rfl, rfl, rfl, rfl⟩
  have hfam : Family (links t') (heads t')
      (Function.update L (.bucket b) ((L (.bucket b)).erase n)) := by
    refine h.lists.unlink hn (fun j x _ hxn => ?_) (fun j x _ hxn => ?_) hhead (fun j hj => ?_)
    · by_cases hc : (t.bucket_nodes n).prev = some x <;> simp [links, hnode, hxn, hc]
    · by_cases hc : (t.bucket_nodes n).next = some x <;> simp [links, hnode, hxn, hc]
    · cases j with
      | free => exact hfree
      | bucket c => exact hheads c (fun hc => hj (hc ▸ rfl))
  have hmem' : ∀ c x, x ∈ Function.update L (.bucket b) ((L (.bucket b)).erase n) (.bucket c) ↔
      x ∈ L (.bucket c) ∧ x ≠ n := fun c x => h.lists.mem_erase hn (.bucket c) x
  refine Or.inr ⟨t', n, _, ht', hn, he, h.relink hsame hfam (fun s x hx => ?_) (fun c => ?_)
    (fun c x hx => ?_) (fun c x hx => ?_), hsame, by simp, hmem', ?_⟩
  · cases s with
    | free => exact h.lt .free x (by simpa using hx)
    | bucket c => exact h.lt _ x ((hmem' c x).mp hx).1
  · by_cases hcb : c = b
    · subst hcb
      rw [Function.update_self]
      exact List.erase_sublist
    · rw [Function.update_of_ne (fun hc => hcb (Slot.bucket.inj hc))]
  · rw [hnode, if_neg ((hmem' c x).mp hx).2]
  · rw [hnode, if_neg ((hmem' c x).mp hx).2]
  · rw [hnode, if_pos rfl]
    exact (h.holds b n hn).1

end Edits

section Calls

variable {t : Table α} {eqv : α → α → Prop} {L : Slot → List ℕ} {S : ℕ → α}

def Kept (t t' : Table α) : Prop :=
  t'.num_buckets = t.num_buckets ∧ t'.mask = t.mask ∧ t'.hash = t.hash ∧ t'.cmp = t.cmp ∧
    t'.free = t.free

theorem Same.kept {t' : Table α} (h : Same t t') : Kept t t' :=
  ⟨h.1, h.2.2.1, h.2.2.2.1, h.2.2.2.2.1, h.2.2.2.2.2⟩

theorem Nodes.congr_elements (h : Nodes t eqv L S) (n : ℕ) :
    Nodes { t with num_elements := n } eqv L S :=
  ⟨⟨h.lawful.cmp, h.lawful.equiv, h.lawful.hash⟩, h.mask, h.size, h.lists, h.lt, h.holds, h.sorted,
    h.distinct⟩

theorem Rep.pos (h : Rep t eqv L S) (d : α) : t.pos (t.hash d) = .ok (t.hash d % t.mask) := by
  simp [Table.pos, h.mask]

/-- Insertion adds an element unless the table is full or holds an equal one. -/
theorem mpHashTableInsert_spec (h : Rep t eqv L S) (d : α) :
    ∃ t' L' S', Rep t' eqv L' S' ∧ Kept t t' ∧
      (mpHashTableInsert t d = .ok (t', -1) ∧
          (t.num_elements = t.num_buckets ∨ ∃ x, Stored L S x ∧ eqv d x) ∧
          t'.num_elements = t.num_elements ∧ (∀ x, Stored L' S' x ↔ Stored L S x) ∨
        mpHashTableInsert t d = .ok (t', 0) ∧ t.num_elements < t.num_buckets ∧
          (∀ x, Stored L S x → ¬eqv d x) ∧ t'.num_elements = t.num_elements+1 ∧
          ∀ x, Stored L' S' x ↔ x = d ∨ Stored L S x) := by
  have hc := h.count
  by_cases hfull : t.num_elements ≥ t.num_buckets
  · refine ⟨t, L, S, h, ⟨rfl, rfl, rfl, rfl, rfl⟩, Or.inl ⟨?_, Or.inl (by omega), rfl,
      fun _ => Iff.rfl⟩⟩
    simp [mpHashTableInsert, hfull]
  cases hg : mpGetFreeEntry t with
  | none =>
    have hnil := (mpGetFreeEntry_eq_none h.toNodes).mp hg
    rw [hnil, List.length_nil] at hc
    omega
  | some r =>
    obtain ⟨t₁, e⟩ := r
    obtain ⟨l, hl, h₁, hs₁, he, hp, hn⟩ := mpGetFreeEntry_spec h.toNodes hg
    have hlt : e < t₁.num_buckets := by
      rw [hs₁.1]
      exact h.lt .free e (by simp [hl])
    set t₂ := t₁.setEntry e fun x =>
      { x with data := some d, key := t.hash d, reversed := reverse (t.hash d) } with ht₂
    have hs₂ : Same t₁ t₂ := ⟨rfl, rfl, rfl, rfl, rfl, rfl⟩
    have hnode : ∀ x, x ≠ e → t₂.bucket_nodes x = t₁.bucket_nodes x := fun x hx => by
      rw [ht₂, setEntry_nodes, if_neg hx]
    have hnode_e : t₂.bucket_nodes e = { t₁.bucket_nodes e with
        data := some d, key := t.hash d, reversed := reverse (t.hash d) } := by
      rw [ht₂, setEntry_nodes, if_pos rfl]
    have hmem : ∀ s, ∀ x ∈ Function.update L .free l s, x ≠ e := fun s x hx hxe => he s (hxe ▸ hx)
    have h₂ : Nodes t₂ eqv (Function.update L .free l) S := by
      refine h₁.relink hs₂ (h₁.lists.congr (fun s => by cases s <;> rfl) (fun s x hx => ?_)
        (fun s x hx => ?_)) h₁.lt (fun b => List.Sublist.refl _) (fun b x hx => ?_)
        (fun b x hx => ?_)
      · simp [links, hnode x (hmem s x hx)]
      · simp [links, hnode x (hmem s x hx)]
      · rw [hnode x (hmem _ x hx)]
      · rw [hnode x (hmem _ x hx)]
    have hhash : t₁.hash = t.hash := hs₁.2.2.2.1
    have hmask : t₁.mask = t.mask := hs₁.2.2.1
    have hholds : Holds t₂ (t.hash d % t.mask) e d := by
      refine ⟨by rw [hnode_e], ?_, ?_⟩
      · rw [hnode_e, show t₂.hash = t.hash from hhash]
      · rw [show t₂.hash = t.hash from hhash, show t₂.mask = t.mask from hmask]
    have hstored : ∀ x, Stored (Function.update L .free l) S x ↔ Stored L S x := by
      intro x
      simp [Stored]
    rcases mpListInsert_spec h₂ he hlt hholds (by rw [hnode_e]; exact hp)
      (by rw [hnode_e]; exact hn) with ⟨hi, x, hx, hdx⟩ | ⟨t₃, L₃, hi, h₃, hs₃, hf₃, hm₃, hnew⟩
    · obtain ⟨h₄, hs₄⟩ := mpPutFreeEntry_spec h₂ he hlt
      have hsame := (hs₁.trans hs₂).trans hs₄
      have hback : Function.update (Function.update L .free l) .free
          (e :: Function.update L .free l .free) = L := by
        rw [Function.update_self, Function.update_idem, ← hl, Function.update_eq_self]
      rw [hback] at h₄
      refine ⟨mpPutFreeEntry t₂ e, L, S, ⟨h₄, ?_⟩, hsame.kept, Or.inl ⟨?_,
        Or.inr ⟨x, (hstored x).mp hx, hdx⟩, hsame.2.1, fun _ => Iff.rfl⟩⟩
      · rw [hsame.2.1, hsame.1]
        exact hc
      · simp [mpHashTableInsert, hfull, h.pos, hg, ← ht₂, hi]
    · have hsame := (hs₁.trans hs₂).trans hs₃
      refine ⟨{ t₃ with num_elements := t₃.num_elements+1 }, L₃, Function.update S e d,
        ⟨h₃.congr_elements _, ?_⟩, hsame.kept, Or.inr ⟨?_, by omega,
        fun x hx => hnew x ((hstored x).mpr hx), ?_, fun x => ?_⟩⟩
      · simp only [hsame.2.1, hsame.1, hf₃, Function.update_self]
        rw [hl, List.length_cons] at hc
        omega
      · simp [mpHashTableInsert, hfull, h.pos, hg, ← ht₂, hi]
      · simp only [hsame.2.1]
      · have hS : ∀ b, ∀ n ∈ L (.bucket b), Function.update S e d n = S n := fun b n hn =>
          Function.update_of_ne (hmem (.bucket b) n (by simpa using hn)) _ _
        constructor
        · rintro ⟨b, n, hn, rfl⟩
          rcases (hm₃ b n).mp hn with hn | ⟨_, rfl⟩
          · have hn' : n ∈ L (.bucket b) := by simpa using hn
            exact Or.inr ⟨b, n, hn', (hS b n hn').symm⟩
          · exact Or.inl (by simp)
        · rintro (rfl | ⟨b, n, hn, rfl⟩)
          · exact ⟨_, e, (hm₃ _ e).mpr (Or.inr ⟨rfl, rfl⟩), by simp⟩
          · exact ⟨b, n, (hm₃ b n).mpr (Or.inl (by simpa using hn)), hS b n hn⟩

/-- Deletion removes the element equal to the key, if there is one, and hands it
to the free callback. -/
theorem mpHashTableDelete_spec (h : Rep t eqv L S) (d : α) :
    mpHashTableDelete t d = .ok (t, -1, []) ∧ (∀ x, Stored L S x → ¬eqv d x) ∨
      ∃ t' L' x, mpHashTableDelete t d = .ok (t', 0, if t.free then [x] else []) ∧
        Rep t' eqv L' S ∧ Kept t t' ∧ Stored L S x ∧ eqv d x ∧
        t'.num_elements+1 = t.num_elements ∧
        ∀ y, Stored L' S y ↔ Stored L S y ∧ y ≠ x := by
  rcases mpListDelete_spec h.toNodes d with
    ⟨hd, hn⟩ | ⟨t₁, n, L₁, hd, hn, he, h₁, hs₁, hf₁, hm₁, hdata⟩
  · exact Or.inl ⟨by simp [mpHashTableDelete, h.pos, hd], hn⟩
  · have hnot : ∀ s, n ∉ L₁ s := by
      intro s hs
      cases s with
      | free => exact absurd (h.lists.eq_of_mem (hf₁ ▸ hs) hn) (by simp)
      | bucket c => exact ((hm₁ c n).mp hs).2 rfl
    have hlt : n < t₁.num_buckets := by
      rw [hs₁.1]
      exact h.lt _ n hn
    obtain ⟨h₂, hs₂⟩ := mpPutFreeEntry_spec h₁ hnot hlt
    have hsame := hs₁.trans hs₂
    have hc := h.count
    have hlen : (L .free).length < t.num_buckets := by
      have hsub : n :: L .free ⊆ List.range t.num_buckets := by
        intro x hx
        rcases List.mem_cons.mp hx with rfl | hx
        · simpa using h.lt _ x hn
        · simpa using h.lt _ x hx
      have hnf : n ∉ L .free := fun hx => absurd (h.lists.eq_of_mem hx hn) (by simp)
      have := (List.subperm_of_subset
        (List.nodup_cons.mpr ⟨hnf, h.lists.nodup .free⟩) hsub).length_le
      simp at this
      omega
    have hsize := h.size
    have hmod : usub 32 t.num_elements 1 = t.num_elements-1 := usub_of_le (by omega) (by omega)
    refine Or.inr ⟨{ mpPutFreeEntry t₁ n with
      num_elements := usub 32 (mpPutFreeEntry t₁ n).num_elements 1 },
      Function.update L₁ .free (n :: L₁ .free), S n, ?_, ⟨h₂.congr_elements _, ?_⟩,
      ⟨hsame.1, hsame.2.2.1, hsame.2.2.2.1, hsame.2.2.2.2.1, hsame.2.2.2.2.2⟩,
      ⟨_, n, hn, rfl⟩, he, ?_, fun y => ?_⟩
    · rw [mpHashTableDelete, h.pos, ok_bind, hd]
      simp only [hdata, hs₁.2.2.2.2.2, Option.toList_some]
      rfl
    · simp only [hsame.2.1, hsame.1, Function.update_self, hf₁, List.length_cons, hmod]
      omega
    · simp only [hsame.2.1, hmod]
      omega
    · constructor
      · rintro ⟨b, m, hm, rfl⟩
        obtain ⟨hm, hmn⟩ := (hm₁ b m).mp (by simpa using hm)
        refine ⟨⟨b, m, hm, rfl⟩, fun hmn' => hmn (h.distinct b _ m hm n hn ?_)⟩
        rw [hmn']
        exact h.lawful.equiv.refl _
      · rintro ⟨⟨b, m, hm, rfl⟩, hmn⟩
        exact ⟨b, m, by simpa using (hm₁ b m).mpr ⟨hm, fun hc => hmn (hc ▸ rfl)⟩, rfl⟩

end Calls

section Create

theorem roundUp_spec {n : ℕ} (hn : n ≤ 2^31) (fuel k : ℕ) (hf : 32 < k+fuel) (hk : k ≤ 31) :
    ∃ j, k ≤ j ∧ j ≤ 31 ∧ n ≤ 2^j ∧ (j = k ∨ 2^(j-1) < n) ∧ roundUp n fuel (2^k) = .ok (2^j) := by
  induction fuel generalizing k with
  | zero => omega
  | succ fuel ih =>
    by_cases h : 2^k < n
    · have hk' : k < 31 := by
        by_contra hc
        have : k = 31 := by omega
        subst this
        omega
      have hmod : 2*2^k % 2^32 = 2^(k+1) := by
        rw [Nat.pow_succ, Nat.mul_comm]
        refine Nat.mod_eq_of_lt ?_
        calc 2^k*2 = 2^(k+1) := (Nat.pow_succ ..).symm
          _ < 2^32 := Nat.pow_lt_pow_right (by decide) (by omega)
      obtain ⟨j, h1, h2, h3, h4, h5⟩ := ih (k+1) (by omega) (by omega)
      refine ⟨j, by omega, h2, h3, Or.inr ?_, ?_⟩
      · rcases h4 with rfl | h4
        · exact h
        · exact h4
      · rw [roundUp, if_pos h, hmod, h5]
    · exact ⟨k, Nat.le_refl _, hk, by omega, Or.inl rfl, by rw [roundUp, if_neg h]⟩

variable {n : ℕ} {hash : α → ℕ} {cmp : Option (α → α → ℤ)} {free : Bool}

def emptyTable (hash : α → ℕ) (cmp : Option (α → α → ℤ)) (free : Bool) (n : ℕ) : Table α :=
  ⟨n, 0, n-1, fun _ => none, newEntry n, some 0, hash, cmp, free⟩

def emptyLists (n : ℕ) : Slot → List ℕ
  | .free => List.range n
  | .bucket _ => []

theorem seg_newEntry (i m : ℕ) (h : i+m = n) :
    Seg (links (emptyTable hash cmp free n)) (if 0 < i then some (i-1) else none)
      (List.range' i m) none := by
  induction m generalizing i with
  | zero => simp
  | succ m ih =>
    rw [List.range'_succ]
    refine ⟨?_, ?_, ?_⟩
    · have hi : i < n := by omega
      simp [links, emptyTable, newEntry, hi]
    · cases m with
      | zero => simp [links, emptyTable, newEntry, show ¬ i+1 < n by omega]
      | succ m => simp [links, emptyTable, newEntry, show i+1 < n by omega, List.range'_succ]
    · have := ih (i+1) (by omega)
      simpa using this

theorem emptyTable_rep {eqv : α → α → Prop} (hl : Lawful (emptyTable hash cmp free n) eqv)
    (h2 : 2 ≤ n) (hs : n < 2^32) (S : ℕ → α) :
    Rep (emptyTable hash cmp free n) eqv (emptyLists n) S where
  lawful := hl
  mask := by
    show n-1 ≠ 0
    omega
  size := hs
  lists :=
    { seg := fun s => by
        cases s with
        | free =>
          have := @seg_newEntry α n hash cmp free 0 n (by simp)
          simpa [emptyLists, List.range_eq_range'] using this
        | bucket b => trivial
      head_eq := fun s => by
        cases s with
        | free =>
          obtain ⟨m, rfl⟩ : ∃ m, n = m+1 := ⟨n-1, by omega⟩
          simp [heads, emptyTable, emptyLists, List.range_succ_eq_map]
        | bucket b => rfl
      nodup := fun s => by
        cases s with
        | free => exact List.nodup_range
        | bucket b => exact List.nodup_nil
      disjoint := fun s s' hss a ha ha' => by
        cases s with
        | free =>
          cases s' with
          | free => exact hss rfl
          | bucket b => simp [emptyLists] at ha'
        | bucket b => simp [emptyLists] at ha }
  lt s a ha := by
    cases s with
    | free => exact List.mem_range.mp ha
    | bucket b => simp [emptyLists] at ha
  holds b a ha := by simp [emptyLists] at ha
  sorted b := by simp [emptyLists]
  distinct b _ m hm := by simp [emptyLists] at hm
  count := by simp [emptyTable, emptyLists]

/-- Creation either fails in `calloc` or yields an empty table of at least the
size asked for. -/
theorem mpHashTableCreate_spec (calloc : Fin 3 → Bool) (h2 : 2 ≤ n) (hn : n ≤ 2^31) :
    mpHashTableCreate hash cmp free n calloc = .ok none ∧
        ¬(calloc 0 = true ∧ calloc 1 = true ∧ calloc 2 = true) ∨
      ∃ m, n ≤ m ∧ m ≤ 2^31 ∧
        mpHashTableCreate hash cmp free n calloc = .ok (some (emptyTable hash cmp free m)) := by
  obtain ⟨m, hm, hm', hsize⟩ : ∃ m, n ≤ m ∧ m ≤ 2^31 ∧ bucketsSize n = .ok m := by
    by_cases hp : isPowerOf2 n
    · exact ⟨n, Nat.le_refl _, hn, by simp [bucketsSize, hp]⟩
    · obtain ⟨j, h1, h3, h4, _, h5⟩ := roundUp_spec hn 33 0 (by decide) (by decide)
      refine ⟨2^j, h4, Nat.pow_le_pow_right (by decide) h3, ?_⟩
      rw [bucketsSize, if_neg hp]
      exact h5
  by_cases hc : calloc 0 = true ∧ calloc 1 = true ∧ calloc 2 = true
  · refine Or.inr ⟨m, hm, hm', ?_⟩
    rw [mpHashTableCreate, if_neg (by omega), hsize, ok_bind, if_pos hc]
    rfl
  · exact Or.inl ⟨by rw [mpHashTableCreate, if_neg (by omega), hsize, ok_bind, if_neg hc], hc⟩

end Create

end CLearning.MpHashRep
