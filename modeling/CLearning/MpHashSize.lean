import CLearning.MpHashSet

/-!
# The sizes of a hash table

Which requests `mp_hash_table_create` turns into a table whose buckets every
later call can find. The bucket of a key is its remainder by `mask`, so a table
of one bucket divides by zero, and no 32-bit power of two reaches a request
above 2^31.
-/

set_option autoImplicit false

namespace CLearning.MpHashSize
open CLearning.Machine CLearning.MpHash CLearning.MpHashRep CLearning.MpHashSet

variable {α : Type} {t t' t'' : Table α} {n m : ℕ} {hash : α → ℕ} {cmp : Option (α → α → ℤ)}
  {free : Bool}

def LeastPower (n m : ℕ) : Prop :=
  m.isPowerOfTwo ∧ n ≤ m ∧ ∀ k : ℕ, k.isPowerOfTwo → n ≤ k → m ≤ k

inductive Later (t : Table α) : Table α → Prop
  | refl : Later t t
  | step {t' t'' : Table α} {op : Op α} {r : Res α} (h : Later t t')
      (hrun : step t' op = .ok (t'', r)) : Later t t''

/-- A table every later call can work on. -/
def Usable (t : Table α) : Prop :=
  ∀ t', Later t t' → (∀ op, ∃ r, step t' op = .ok r) ∧
    ∀ key, ∃ pos, t'.pos key = .ok pos ∧ pos < t'.num_buckets

/-- Creation returns, and a table it returns is as wide as asked for and usable. -/
def Works (hash : α → ℕ) (cmp : Option (α → α → ℤ)) (free : Bool) (n : ℕ) : Prop :=
  ∀ calloc, ∃ r, mpHashTableCreate hash cmp free n calloc = .ok r ∧
    ∀ t, r = some t → LeastPower n t.num_buckets ∧ Usable t

def SameSize (t t' : Table α) : Prop := t'.num_buckets = t.num_buckets ∧ t'.mask = t.mask

section Sizes

variable {d : α} {pos e : ℕ} {o v : Option ℕ}

theorem SameSize.trans (h : SameSize t t') (h' : SameSize t' t'') : SameSize t t'' :=
  ⟨h'.1.trans h.1, h'.2.trans h.2⟩

theorem SameSize.count (h : SameSize t t') (k : ℕ) :
    SameSize t { t' with num_elements := k } := h

theorem sameSize_setPrev? : SameSize t (t.setPrev? o v) := by
  cases o with
  | none => exact ⟨rfl, rfl⟩
  | some n => exact ⟨rfl, rfl⟩

theorem sameSize_getFreeEntry (h : mpGetFreeEntry t = some (t', e)) : SameSize t t' := by
  obtain ⟨a, -, h⟩ := Option.map_eq_some_iff.mp h
  rw [Prod.mk.injEq] at h
  rw [← h.1]
  exact sameSize_setPrev?

theorem sameSize_putFreeEntry : SameSize t (mpPutFreeEntry t e) := by
  have h : SameSize t ((t.setEntry e fun _ => ⟨none, t.free_buckets, none, 0, 0⟩).setPrev?
      t.free_buckets (some e)) := sameSize_setPrev?
  exact h

theorem sameSize_listInsert (h : mpListInsert t pos e d = some t') : SameSize t t' := by
  rw [mpListInsert] at h
  split at h
  · rw [Option.some_inj] at h
    rw [← h]
    exact ⟨rfl, rfl⟩
  · obtain ⟨last, -, h⟩ := Option.map_eq_some_iff.mp h
    rw [← h]
    cases last with
    | none => exact ⟨rfl, rfl⟩
    | some last =>
      dsimp only
      split
      · exact ⟨rfl, rfl⟩
      · exact ⟨rfl, rfl⟩

theorem sameSize_listDelete {reversed : ℕ} (h : mpListDelete t pos d reversed = some (t', e)) :
    SameSize t t' := by
  obtain ⟨cur, -, h⟩ := Option.map_eq_some_iff.mp h
  rw [Prod.mk.injEq] at h
  rw [← h.1]
  split
  · exact @sameSize_setPrev? _ (t.setNext _ _) _ _
  · exact (@sameSize_setPrev? _ (t.setHead pos _) _ _).trans sameSize_setPrev?

end Sizes

section Calls

variable {d : α} {op : Op α}

theorem insert_total (hm : t.mask ≠ 0) (d : α) :
    ∃ t' r, mpHashTableInsert t d = .ok (t', r) ∧ SameSize t t' := by
  by_cases hfull : t.num_elements ≥ t.num_buckets
  · exact ⟨t, -1, by simp [mpHashTableInsert, hfull], rfl, rfl⟩
  have hpos : t.pos (t.hash d) = .ok (t.hash d % t.mask) := by rw [Table.pos, if_neg hm]
  cases hget : mpGetFreeEntry t with
  | none => exact ⟨t, -1, by simp [mpHashTableInsert, hfull, hpos, hget], rfl, rfl⟩
  | some p =>
    obtain ⟨t₁, e⟩ := p
    have h₁ := sameSize_getFreeEntry hget
    cases hins : mpListInsert (t₁.setEntry e fun x =>
        { x with data := some d, key := t.hash d, reversed := reverse (t.hash d) })
        (t.hash d % t.mask) e d with
    | none =>
      refine ⟨mpPutFreeEntry (t₁.setEntry e fun x =>
        { x with data := some d, key := t.hash d, reversed := reverse (t.hash d) }) e, -1, ?_,
        SameSize.trans h₁ sameSize_putFreeEntry⟩
      simp [mpHashTableInsert, hfull, hpos, hget, hins]
    | some t₂ =>
      have h₂ := sameSize_listInsert hins
      refine ⟨{ t₂ with num_elements := t₂.num_elements+1 }, 0, ?_, SameSize.trans h₁ h₂⟩
      simp [mpHashTableInsert, hfull, hpos, hget, hins]

theorem delete_total (hm : t.mask ≠ 0) (d : α) :
    ∃ t' r, mpHashTableDelete t d = .ok (t', r) ∧ SameSize t t' := by
  have hpos : t.pos (t.hash d) = .ok (t.hash d % t.mask) := by rw [Table.pos, if_neg hm]
  cases hdel : mpListDelete t (t.hash d % t.mask) d (reverse (t.hash d)) with
  | none => exact ⟨t, _, by simp [mpHashTableDelete, hpos, hdel]; rfl, rfl, rfl⟩
  | some p =>
    obtain ⟨t₁, e⟩ := p
    have h₁ := sameSize_listDelete hdel
    have h₂ : SameSize t (mpPutFreeEntry t₁ e) := h₁.trans sameSize_putFreeEntry
    refine ⟨_, (0, if t₁.free then (t₁.bucket_nodes e).data.toList else []), ?_,
      h₂.count (usub 32 (mpPutFreeEntry t₁ e).num_elements 1)⟩
    simp [mpHashTableDelete, hpos, hdel]

theorem find_total (hm : t.mask ≠ 0) (d : α) : ∃ r, mpHashTableFind t d = .ok r := by
  have hpos : t.pos (t.hash d) = .ok (t.hash d % t.mask) := by rw [Table.pos, if_neg hm]
  cases hf : mpListFind t d (reverse (t.hash d)) (t.num_buckets+1)
      (t.table_buckets (t.hash d % t.mask)) with
  | none => exact ⟨none, by simp [mpHashTableFind, hpos, hf]⟩
  | some e => exact ⟨_, by simp [mpHashTableFind, hpos, hf]; rfl⟩

theorem step_total (hm : t.mask ≠ 0) (op : Op α) : ∃ t' r, step t op = .ok (t', r) ∧ SameSize t t' := by
  cases op with
  | insert d =>
    obtain ⟨t', r, hrun, h⟩ := insert_total hm d
    exact ⟨t', _, by rw [step, hrun]; rfl, h⟩
  | delete d =>
    obtain ⟨t', r, hrun, h⟩ := delete_total hm d
    exact ⟨t', _, by rw [step, hrun]; rfl, h⟩
  | find d =>
    obtain ⟨r, hrun⟩ := find_total hm d
    exact ⟨t, _, by rw [step, hrun]; rfl, rfl, rfl⟩

theorem later_sameSize (hm : t.mask ≠ 0) (h : Later t t') : SameSize t t' := by
  induction h with
  | refl => exact ⟨rfl, rfl⟩
  | step _ hrun ih =>
    obtain ⟨t'', r, hrun', h''⟩ := step_total (ih.2 ▸ hm) _
    rw [hrun, Except.ok.injEq, Prod.mk.injEq] at hrun'
    obtain ⟨rfl, -⟩ := hrun'
    exact ih.trans h''

theorem usable_of_mask (hm : t.mask ≠ 0) (hlt : t.mask < t.num_buckets) : Usable t := by
  intro t' h
  obtain ⟨hn, hmask⟩ := later_sameSize hm h
  have hm' : t'.mask ≠ 0 := hmask ▸ hm
  constructor
  · intro op
    obtain ⟨t'', r, hrun, -⟩ := step_total hm' op
    exact ⟨_, hrun⟩
  · intro key
    refine ⟨key % t'.mask, by rw [Table.pos, if_neg hm'], ?_⟩
    have := Nat.mod_lt key (Nat.pos_of_ne_zero hm')
    omega

end Calls

section Rounding

theorem isPowerOf2_iff : isPowerOf2 n = true ↔ n.isPowerOfTwo := by
  rw [isPowerOf2, ← Nat.ne_zero_and_sub_one_eq_zero_iff_isPowerOfTwo]
  simp

theorem bucketsSize_spec (hn : n ≤ 2^31) :
    ∃ m, bucketsSize n = .ok m ∧ LeastPower n m := by
  by_cases hp : isPowerOf2 n
  · exact ⟨n, by rw [bucketsSize, if_pos hp], isPowerOf2_iff.mp hp, Nat.le_refl _, fun k _ h => h⟩
  · obtain ⟨j, -, -, h4, hlow, h5⟩ := roundUp_spec hn 33 0 (by decide) (by decide)
    refine ⟨2^j, by rw [bucketsSize, if_neg hp]; exact h5, ⟨j, rfl⟩, h4, ?_⟩
    rintro k ⟨i, rfl⟩ hk
    rcases hlow with rfl | hlow
    · exact Nat.pow_le_pow_right (by decide) (Nat.zero_le _)
    · apply Nat.pow_le_pow_right (by decide)
      by_contra hij
      have : 2^i ≤ 2^(j-1) := Nat.pow_le_pow_right (by decide) (by omega)
      omega

theorem bucketsSize_diverges (hn : 2^31 < n) (h32 : n < 2^32) :
    bucketsSize n = .error .outOfFuel := by
  have hp : ¬isPowerOf2 n = true := by
    intro hp
    obtain ⟨k, rfl⟩ := isPowerOf2_iff.mp hp
    have h1 := (Nat.pow_lt_pow_iff_right (a := 2) (by decide)).mp hn
    have h2 := (Nat.pow_lt_pow_iff_right (a := 2) (by decide)).mp h32
    omega
  rw [bucketsSize, if_neg hp]
  exact roundUp_diverges hn 33 1 (Or.inr ⟨0, by decide, rfl⟩)

theorem not_works_one (hash : α → ℕ) (cmp : Option (α → α → ℤ)) (free : Bool) :
    ¬Works hash cmp free 1 := by
  intro h
  obtain ⟨r, hrun, hr⟩ := h fun _ => true
  have hrun' : mpHashTableCreate hash cmp free 1 (fun _ => true) =
      .ok (some (emptyTable hash cmp free 1)) := rfl
  rw [hrun', Except.ok.injEq] at hrun
  obtain ⟨pos, hpos, -⟩ := ((hr _ hrun.symm).2 _ .refl).2 0
  cases hpos

/-- Creation works exactly for the requests from 2 to 2^31; above, no number of
rounds ends the rounding loop. -/
theorem create_works (hash : α → ℕ) (cmp : Option (α → α → ℤ)) (free : Bool) (n : ℕ) (h0 : n ≠ 0)
    (h32 : n < 2^32) :
    (Works hash cmp free n ↔ 2 ≤ n ∧ n ≤ 2^31) ∧
      (2^31 < n → ∀ fuel, roundUp n fuel 1 = .error .outOfFuel) := by
  refine ⟨⟨fun h => ⟨?_, ?_⟩, ?_⟩, fun hn fuel => roundUp_diverges hn fuel 1 (Or.inr ⟨0, by decide, rfl⟩)⟩
  · by_contra hlt
    have h1 : n = 1 := by omega
    exact not_works_one hash cmp free (h1 ▸ h)
  · by_contra hn
    obtain ⟨r, hrun, -⟩ := h fun _ => true
    rw [mpHashTableCreate, if_neg h0, bucketsSize_diverges (by omega) h32] at hrun
    cases hrun
  · rintro ⟨h2, hn⟩ calloc
    obtain ⟨m, hm, hleast⟩ := bucketsSize_spec hn
    by_cases hc : calloc 0 ∧ calloc 1 ∧ calloc 2
    · refine ⟨some (emptyTable hash cmp free m), ?_, fun t ht => ?_⟩
      · rw [mpHashTableCreate, if_neg h0, hm, ok_bind, if_pos hc]
        rfl
      · rw [Option.some_inj] at ht
        subst ht
        have hle := hleast.2.1
        refine ⟨hleast, usable_of_mask ?_ ?_⟩
        · show m-1 ≠ 0
          omega
        · show m-1 < m
          omega
    · refine ⟨none, ?_, fun t ht => by cases ht⟩
      rw [mpHashTableCreate, if_neg h0, hm, ok_bind, if_neg hc]

theorem create_works_three : Works (fun a : ℕ => a) none false 3 :=
  (create_works (fun a : ℕ => a) none false 3 (by decide) (by decide)).1.mpr (by decide)

/-- The request for one bucket is answered with a table no call can use. -/
theorem create_fails :
    ¬∀ n : ℕ, n ≠ 0 → n < 2^32 → Works (fun a : ℕ => a) none false n :=
  fun h => not_works_one _ _ _ (h 1 (by decide) (by decide))

end Rounding

end CLearning.MpHashSize
