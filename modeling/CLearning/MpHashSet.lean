import CLearning.MpHashRep
import Mathlib.Data.List.Pairwise

/-!
# Runs of the hash table

A run of insertions, deletions and searches gives the results of a set whose
capacity is the number of buckets. The set is written as the list of its
elements, no two of them equal.
-/

set_option autoImplicit false

namespace CLearning.MpHashSet
open CLearning.Machine CLearning.LinkedLists CLearning.MpHash CLearning.MpHashRep

section Representation

variable {α : Type} {t t' : Table α} {eqv : α → α → Prop} {L : Slot → List ℕ} {S : ℕ → α}
  {M : List α}

def chained (t : Table α) (L : Slot → List ℕ) : List ℕ :=
  (List.range t.num_buckets).flatMap fun b => L (.bucket b)

/-- The table represents the elements `M`. -/
structure Agrees (t : Table α) (eqv : α → α → Prop) (L : Slot → List ℕ) (S : ℕ → α)
    (M : List α) : Prop where
  rep : Rep t eqv L S
  short : t.mask < t.num_buckets
  stored : ∀ x, Stored L S x ↔ x ∈ M
  distinct : M.Pairwise fun x y => ¬eqv x y
  count : t.num_elements = M.length

theorem Agrees.mem_chained (h : Agrees t eqv L S M) (n : ℕ) :
    n ∈ chained t L ↔ ∃ b, n ∈ L (.bucket b) := by
  rw [chained, List.mem_flatMap]
  constructor
  · rintro ⟨b, -, hn⟩
    exact ⟨b, hn⟩
  · rintro ⟨b, hn⟩
    have hb := (h.rep.holds b n hn).2.2
    have hlt : t.hash (S n) % t.mask < t.mask := Nat.mod_lt _ (Nat.pos_of_ne_zero h.rep.mask)
    have hshort := h.short
    exact ⟨b, List.mem_range.mpr (by omega), hn⟩

theorem Agrees.chained_nodup (h : Agrees t eqv L S M) : (chained t L).Nodup := by
  rw [chained, List.nodup_flatMap]
  refine ⟨fun b _ => h.rep.lists.nodup _, List.nodup_range.imp fun {b c} hbc n hb hc => ?_⟩
  have := h.rep.lists.eq_of_mem hb hc
  simp only [Slot.bucket.injEq] at this
  exact hbc this

theorem Agrees.nodup (h : Agrees t eqv L S M) : M.Nodup :=
  List.Pairwise.imp (fun {x y} (hne : ¬eqv x y) (he : x = y) =>
    hne (he ▸ h.rep.lawful.equiv.refl x)) h.distinct

theorem Agrees.perm (h : Agrees t eqv L S M) : ((chained t L).map S).Perm M := by
  refine (List.perm_ext_iff_of_nodup ?_ ?_).mpr fun x => ?_
  · refine (List.nodup_map_iff_inj_on h.chained_nodup).mpr fun m hm n hn he => ?_
    obtain ⟨b, hb⟩ := (h.mem_chained m).mp hm
    obtain ⟨c, hc⟩ := (h.mem_chained n).mp hn
    exact h.rep.distinct b c m hb n hc (he ▸ h.rep.lawful.equiv.refl _)
  · exact h.nodup
  · rw [← h.stored, List.mem_map]
    constructor
    · rintro ⟨n, hn, rfl⟩
      obtain ⟨b, hb⟩ := (h.mem_chained n).mp hn
      exact ⟨b, n, hb, rfl⟩
    · rintro ⟨b, n, hn, rfl⟩
      exact ⟨n, (h.mem_chained n).mpr ⟨b, hn⟩, rfl⟩

theorem Agrees.chained_length (h : Agrees t eqv L S M) :
    (chained t L).length = t.num_elements := by
  rw [h.count, ← h.perm.length_eq, List.length_map]

theorem Agrees.partition (h : Agrees t eqv L S M) :
    (L .free ++ chained t L).Perm (List.range t.num_buckets) := by
  have hnd : (L .free ++ chained t L).Nodup := by
    refine List.nodup_append.mpr ⟨h.rep.lists.nodup _, h.chained_nodup, fun m hm n hn he => ?_⟩
    obtain ⟨b, hb⟩ := (h.mem_chained n).mp hn
    have := h.rep.lists.eq_of_mem hm (he ▸ hb)
    cases this
  have hsub : L .free ++ chained t L ⊆ List.range t.num_buckets := fun n hn => by
    rcases List.mem_append.mp hn with hn | hn
    · exact List.mem_range.mpr (h.rep.lt _ n hn)
    · obtain ⟨b, hb⟩ := (h.mem_chained n).mp hn
      exact List.mem_range.mpr (h.rep.lt _ n hb)
  refine (List.subperm_of_subset hnd hsub).perm_of_length_le ?_
  have := h.rep.count
  rw [List.length_range, List.length_append, h.chained_length]
  omega

theorem bucketData_eq {l : List ℕ} {p : Option ℕ} {fuel : ℕ} (hs : Seg (MpHashRep.links t) p l none)
    (hd : ∀ n ∈ l, (t.bucket_nodes n).data = some (S n)) (hf : l.length < fuel) :
    bucketData t fuel l.head? = l.map S := by
  induction l generalizing p fuel with
  | nil =>
    cases fuel with
    | zero => simp at hf
    | succ fuel => rfl
  | cons a l ih =>
    cases fuel with
    | zero => simp at hf
    | succ fuel =>
      obtain ⟨_, hn, hs⟩ := hs
      have hnext : (t.bucket_nodes a).next = l.head? := by simpa [MpHashRep.links] using hn
      rw [List.head?_cons, bucketData, hd a (by simp), hnext,
        ih hs (fun n hn => hd n (by simp [hn])) (by simpa using hf)]
      rfl

theorem Agrees.tableData_eq (h : Agrees t eqv L S M) : tableData t = (chained t L).map S := by
  rw [tableData, chained, List.map_flatMap]
  refine List.flatMap_congr fun b _ => ?_
  rw [show t.table_buckets b = (L (.bucket b)).head? from h.rep.lists.head_eq (.bucket b)]
  exact bucketData_eq (h.rep.lists.seg _) (fun n hn => (h.rep.holds b n hn).1) (h.rep.length_lt _)

end Representation

section Walk

variable {α γ : Type} {t : Table α} {eqv : α → α → Prop} {L : Slot → List ℕ} {S : ℕ → α}
  {M : List α} (f : γ → Option α → γ × ℤ)

def visit : List α → γ → γ × ℤ
  | [], ctx => (ctx, 0)
  | x :: xs, ctx =>
    let r := f ctx (some x)
    if r.2 ≠ 0 then r else visit xs r.1

theorem visit_append (xs ys : List α) (ctx : γ) : visit f (xs ++ ys) ctx =
    if (visit f xs ctx).2 ≠ 0 then visit f xs ctx else visit f ys (visit f xs ctx).1 := by
  induction xs generalizing ctx with
  | nil => simp [visit]
  | cons x xs ih =>
    simp only [List.cons_append, visit]
    by_cases hr : (f ctx (some x)).2 ≠ 0
    · simp [hr]
    · simp only [hr, if_false]
      exact ih _

theorem walkBucket_eq {l : List ℕ} {p : Option ℕ} {fuel : ℕ} (hs : Seg (MpHashRep.links t) p l none)
    (hd : ∀ n ∈ l, (t.bucket_nodes n).data = some (S n)) (hf : l.length < fuel) (ctx : γ) :
    walkBucket t f fuel l.head? ctx = visit f (l.map S) ctx := by
  induction l generalizing p fuel ctx with
  | nil =>
    cases fuel with
    | zero => simp at hf
    | succ fuel => rfl
  | cons a l ih =>
    cases fuel with
    | zero => simp at hf
    | succ fuel =>
      obtain ⟨_, hn, hs⟩ := hs
      have hnext : (t.bucket_nodes a).next = l.head? := by simpa [MpHashRep.links] using hn
      simp only [List.head?_cons, walkBucket, hd a (by simp), hnext, List.map_cons, visit,
        ih hs (fun n hn => hd n (by simp [hn])) (by simpa using hf)]

theorem Agrees.walkBuckets_eq (h : Agrees t eqv L S M) (is : List ℕ) (ctx : γ) :
    walkBuckets t f is ctx = visit f ((is.flatMap fun b => L (.bucket b)).map S) ctx := by
  induction is generalizing ctx with
  | nil => rfl
  | cons b is ih =>
    have hb : walkBucket t f (t.num_buckets+1) (t.table_buckets b) ctx =
        visit f ((L (.bucket b)).map S) ctx := by
      rw [show t.table_buckets b = (L (.bucket b)).head? from h.rep.lists.head_eq (.bucket b)]
      exact walkBucket_eq f (h.rep.lists.seg _) (fun n hn => (h.rep.holds b n hn).1)
        (h.rep.length_lt _) ctx
    rw [List.flatMap_cons, List.map_append, visit_append, walkBuckets, hb]
    simp only [ih]

theorem Agrees.walk_eq (h : Agrees t eqv L S M) (ctx : γ) :
    mpHashTableWalk t f ctx = visit f ((chained t L).map S) ctx :=
  h.walkBuckets_eq f _ ctx

end Walk

section Runs

variable {α : Type}

inductive Op (α : Type) where
  | insert (d : α)
  | delete (d : α)
  | find (d : α)

inductive Res (α : Type) where
  | code (ret : ℤ) (freed : List α)
  | found (x : Option α)

def step (t : Table α) : Op α → Run (Table α × Res α)
  | .insert d => do
    let r ← mpHashTableInsert t d
    .ok (r.1, .code r.2 [])
  | .delete d => do
    let r ← mpHashTableDelete t d
    .ok (r.1, .code r.2.1 r.2.2)
  | .find d => do
    let r ← mpHashTableFind t d
    .ok (t, .found r)

def setStep (cmp : α → α → ℤ) (capacity : ℕ) (free : Bool) (M : List α) :
    Op α → List α × Res α
  | .insert d =>
    if M.length < capacity ∧ ∀ x ∈ M, cmp d x ≠ 0 then (d :: M, .code 0 [])
    else (M, .code (-1) [])
  | .delete d => match M.find? fun x => cmp d x = 0 with
    | none => (M, .code (-1) [])
    | some x => (M.eraseP fun x => cmp d x = 0, .code 0 (if free then [x] else []))
  | .find d => (M, .found (M.find? fun x => cmp d x = 0))

/-- What holds of a table that represents the elements `M`. -/
def Sound (cmp : α → α → ℤ) (t : Table α) (M : List α) : Prop :=
  ∃ L S, Agrees t (fun a b => cmp a b = 0) L S M ∧
    (chained t L).length = t.num_elements ∧
    (L .free ++ chained t L).Perm (List.range t.num_buckets) ∧
    ((chained t L).map S).Perm M ∧
    ∀ (γ : Type) (f : γ → Option α → γ × ℤ) (ctx : γ),
      mpHashTableWalk t f ctx = visit f ((chained t L).map S) ctx

/-- From here on the calls give the results of the set. -/
def Refines (cmp : α → α → ℤ) (t : Table α) (M : List α) : List (Op α) → Prop
  | [] => True
  | op :: ops => ∃ t', step t op = .ok (t', (setStep cmp t.num_buckets t.free M op).2) ∧
    Sound cmp t' (setStep cmp t.num_buckets t.free M op).1 ∧
    Refines cmp t' (setStep cmp t.num_buckets t.free M op).1 ops

variable {t : Table α} {cmp : α → α → ℤ} {L : Slot → List ℕ} {S : ℕ → α} {M : List α}

theorem Agrees.sound (h : Agrees t (fun a b => cmp a b = 0) L S M) : Sound cmp t M :=
  ⟨L, S, h, h.chained_length, h.partition, h.perm, fun _ f ctx => h.walk_eq f ctx⟩

theorem Agrees.find_eq (h : Agrees t (fun a b => cmp a b = 0) L S M) {d x : α} (hx : x ∈ M)
    (hd : cmp d x = 0) : M.find? (fun x => cmp d x = 0) = some x := by
  have heq := h.rep.lawful.equiv
  cases hf : M.find? (fun x => cmp d x = 0) with
  | none =>
    rw [List.find?_eq_none] at hf
    exact absurd hd (by simpa using hf x hx)
  | some y =>
    have hy := List.mem_of_find?_eq_some hf
    have hdy : cmp d y = 0 := by simpa using List.find?_some hf
    have hxy : cmp x y = 0 := heq.trans (heq.symm hd) hdy
    by_contra hne
    have hne' : x ≠ y := fun hc => hne (by rw [hc])
    have : Std.Symm fun a b => ¬cmp a b = 0 := ⟨fun _ _ hab hba => hab (heq.symm hba)⟩
    exact h.distinct.forall hx hy hne' hxy

theorem Agrees.mem_eraseP (h : Agrees t (fun a b => cmp a b = 0) L S M) {d x : α} (hx : x ∈ M)
    (hd : cmp d x = 0) (y : α) : y ∈ M.eraseP (fun x => cmp d x = 0) ↔ y ∈ M ∧ y ≠ x := by
  obtain ⟨x', l₁, l₂, -, hpx, hM, her⟩ :=
    List.exists_of_eraseP (p := fun x => decide (cmp d x = 0)) hx (by simpa using hd)
  have hxx : x' = x := by
    have hfx := h.find_eq hx hd
    have hfx' := h.find_eq (x := x') (by simp [hM]) (by simpa using hpx)
    exact Option.some.inj (hfx'.symm.trans hfx)
  subst hxx
  have hnd := h.nodup
  rw [hM, List.nodup_middle, List.nodup_cons] at hnd
  rw [her, hM]
  constructor
  · intro hy
    refine ⟨?_, fun hc => hnd.1 (hc ▸ hy)⟩
    rcases List.mem_append.mp hy with hy | hy <;> simp [hy]
  · rintro ⟨hy, hne⟩
    simpa [hne] using hy

theorem Agrees.step (h : Agrees t (fun a b => cmp a b = 0) L S M) (op : Op α) :
    ∃ t' L' S', step t op = .ok (t', (setStep cmp t.num_buckets t.free M op).2) ∧
      Agrees t' (fun a b => cmp a b = 0) L' S' (setStep cmp t.num_buckets t.free M op).1 ∧
      Kept t t' := by
  have hself : Kept t t := ⟨rfl, rfl, rfl, rfl, rfl⟩
  have heq := h.rep.lawful.equiv
  have hcount := h.rep.count
  have hnum := h.count
  cases op with
  | insert d =>
    obtain ⟨t', L', S', h', hk, hcase⟩ := mpHashTableInsert_spec h.rep d
    have hshort : t'.mask < t'.num_buckets := by
      rw [hk.1, hk.2.1]
      exact h.short
    rcases hcase with ⟨hrun, hwhy, hn, hst⟩ | ⟨hrun, hroom, hne, hn, hst⟩
    · have hno : ¬(M.length < t.num_buckets ∧ ∀ x ∈ M, cmp d x ≠ 0) := by
        rintro ⟨h1, h2⟩
        rcases hwhy with hfull | ⟨x, hx, hd⟩
        · omega
        · exact h2 x ((h.stored x).mp hx) hd
      refine ⟨t', L', S', by simp [MpHashSet.step, hrun, setStep, hno], ?_⟩
      simp only [setStep, hno, if_false]
      exact ⟨⟨h', hshort, fun x => (hst x).trans (h.stored x), h.distinct, by omega⟩, hk⟩
    · have hyes : M.length < t.num_buckets ∧ ∀ x ∈ M, cmp d x ≠ 0 :=
        ⟨by omega, fun x hx => hne x ((h.stored x).mpr hx)⟩
      refine ⟨t', L', S', by simp only [MpHashSet.step, hrun, ok_bind, setStep, if_pos hyes], ?_⟩
      simp only [setStep, if_pos hyes]
      refine ⟨⟨h', hshort, fun x => ?_, List.pairwise_cons.mpr ⟨hyes.2, h.distinct⟩, ?_⟩, hk⟩
      · rw [hst, h.stored, List.mem_cons]
      · rw [List.length_cons]
        omega
  | delete d =>
    rcases mpHashTableDelete_spec h.rep d with ⟨hrun, hne⟩ | ⟨t', L', x, hrun, h', hk, hx, hd, hn, hst⟩
    · have hf : M.find? (fun x => cmp d x = 0) = none := by
        rw [List.find?_eq_none]
        intro x hx
        simpa using hne x ((h.stored x).mpr hx)
      refine ⟨t, L, S, by simp [MpHashSet.step, hrun, setStep, hf], ?_⟩
      simpa [setStep, hf] using ⟨h, hself⟩
    · have hxM := (h.stored x).mp hx
      have hf := h.find_eq hxM hd
      refine ⟨t', L', S, by simp [MpHashSet.step, hrun, setStep, hf], ?_⟩
      simp only [setStep, hf]
      have hlen := List.length_eraseP_of_mem (p := fun x => decide (cmp d x = 0)) hxM (by simpa using hd)
      have hpos := List.length_pos_of_mem hxM
      refine ⟨⟨h', by rw [hk.1, hk.2.1]; exact h.short, fun y => ?_,
        h.distinct.sublist List.eraseP_sublist, by omega⟩, hk⟩
      rw [hst, h.stored, h.mem_eraseP hxM hd]
  | find d =>
    rcases mpHashTableFind_spec h.rep.toNodes d with ⟨hrun, hne⟩ | ⟨x, hrun, hx, hd⟩
    · have hf : M.find? (fun x => cmp d x = 0) = none := by
        rw [List.find?_eq_none]
        intro x hx
        simpa using hne x ((h.stored x).mpr hx)
      exact ⟨t, L, S, by simp [MpHashSet.step, hrun, setStep, hf], h, hself⟩
    · have hf := h.find_eq ((h.stored x).mp hx) hd
      exact ⟨t, L, S, by simp [MpHashSet.step, hrun, setStep, hf], h, hself⟩

theorem Agrees.refines (h : Agrees t (fun a b => cmp a b = 0) L S M) (ops : List (Op α)) :
    Refines cmp t M ops := by
  induction ops generalizing t L S M with
  | nil => trivial
  | cons op ops ih =>
    obtain ⟨t', L', S', hrun, h', -⟩ := h.step op
    exact ⟨t', hrun, h'.sound, ih h'⟩

theorem roundUp_diverges {n : ℕ} (hn : 2^31 < n) (fuel size : ℕ)
    (hs : size = 0 ∨ ∃ k ≤ 31, size = 2^k) : roundUp n fuel size = .error .outOfFuel := by
  induction fuel generalizing size with
  | zero => rfl
  | succ fuel ih =>
    rcases hs with rfl | ⟨k, hk, rfl⟩
    · rw [roundUp, if_pos (by omega)]
      exact ih _ (Or.inl rfl)
    · have hle : 2^k ≤ 2^31 := Nat.pow_le_pow_right (by decide) hk
      rw [roundUp, if_pos (by omega)]
      refine ih _ ?_
      by_cases hk31 : k = 31
      · subst hk31
        exact Or.inl (by decide)
      · refine Or.inr ⟨k+1, by omega, ?_⟩
        rw [← Nat.pow_succ']
        exact Nat.mod_eq_of_lt (Nat.pow_lt_pow_right (by decide) (by omega))

theorem mpHashTableCreate_eq {hash : α → ℕ} {free : Bool} {n : ℕ} {calloc : Fin 3 → Bool}
    (hn : n < 2^32) (hc : mpHashTableCreate hash (some cmp) free n calloc = .ok (some t))
    (h2 : 2 ≤ t.num_buckets) :
    ∃ m, 2 ≤ m ∧ m < 2^32 ∧ t = emptyTable hash (some cmp) free m := by
  rw [mpHashTableCreate] at hc
  split at hc
  · cases hc
  · obtain ⟨m, hm, hc⟩ := bind_ok_iff.mp hc
    split at hc
    · rw [Except.ok.injEq, Option.some_inj] at hc
      subst hc
      refine ⟨m, h2, ?_, rfl⟩
      rw [bucketsSize] at hm
      split at hm
      · rw [Except.ok.injEq] at hm
        exact hm ▸ hn
      · by_cases hbig : 2^31 < n
        · rw [roundUp_diverges hbig 33 1 (Or.inr ⟨0, by decide, rfl⟩)] at hm
          cases hm
        · obtain ⟨j, -, hj, -, -, hrun⟩ := roundUp_spec (n := n) (by omega) 33 0 (by decide) (by decide)
          rw [show (1 : ℕ) = 2^0 from rfl, hrun, Except.ok.injEq] at hm
          exact hm ▸ Nat.pow_lt_pow_right (by decide) (by omega)
    · cases hc

/-- Every run on a new table of two buckets or more is a run of a bounded set. -/
theorem mphash_refines_set [Inhabited α] (hash : α → ℕ) (cmp : α → α → ℤ) (free : Bool) (n : ℕ)
    (calloc : Fin 3 → Bool) (t : Table α) (hn : n < 2^32)
    (hequiv : Equivalence fun a b => cmp a b = 0) (hhash : ∀ a b, cmp a b = 0 → hash a = hash b)
    (hc : mpHashTableCreate hash (some cmp) free n calloc = .ok (some t)) (h2 : 2 ≤ t.num_buckets)
    (ops : List (Op α)) : Sound cmp t [] ∧ Refines cmp t [] ops := by
  obtain ⟨m, hm, hm', rfl⟩ := mpHashTableCreate_eq hn hc h2
  have hl : Lawful (emptyTable hash (some cmp) free m) fun a b => cmp a b = 0 :=
    ⟨⟨cmp, rfl, fun _ _ => Iff.rfl⟩, hequiv, hhash⟩
  have h : Agrees (emptyTable hash (some cmp) free m) (fun a b => cmp a b = 0) (emptyLists m)
      (fun _ => default) [] := by
    refine ⟨emptyTable_rep hl hm hm' _, ?_, fun x => ?_, List.Pairwise.nil, rfl⟩
    · simp only [emptyTable]
      omega
    · simp [Stored, emptyLists]
  exact ⟨h.sound, h.refines ops⟩

/-- Numbers, hashed to their remainder by four, in a table of two buckets. -/
theorem mphash_refines_set_numbers :
    ∃ t : Table ℕ, mpHashTableCreate (fun a => a % 4) (some fun a b => (a : ℤ)-b) false 2
        (fun _ => true) = .ok (some t) ∧
      Refines (fun a b : ℕ => (a : ℤ)-b) t [] [.insert 5, .insert 9, .insert 1, .delete 9, .find 5] := by
  refine ⟨emptyTable (fun a => a % 4) (some fun a b => (a : ℤ)-b) false 2, rfl, ?_⟩
  refine (mphash_refines_set (fun a => a % 4) (fun a b : ℕ => (a : ℤ)-b) false 2 (fun _ => true) _
    (by decide) ⟨fun _ => by omega, fun _ => by omega, fun _ _ => by omega⟩ (fun a b h => ?_) rfl
    (by decide) _).2
  have : a = b := by omega
  rw [this]

end Runs

end CLearning.MpHashSet
