import CLearning.DictMap

/-!
# The growth of the dict

An expansion of a dict that has a table allocates a larger one and drops it, so
a dict keeps the number of buckets it started with.
-/

set_option autoImplicit false

namespace CLearning.DictGrowth
open CLearning.Machine CLearning.DictTable CLearning.DictMap

section Growth

variable {K V : Type} [DecidableEq K] {d : Dict K V} {m : Map K V}

def Grown (d : Dict K V) : Prop :=
  (∃ k, d.ht.size = 2^k) ∧ d.ht.used ≤ (dictForceResizeRatio+1)*d.ht.size

/-- The calls that insert and delete. -/
def Basic : Op K V → Prop
  | .add _ _ | .replace _ _ | .delete _ => True
  | _ => False

/-- Every call returns, and the dict has grown as it should behind it. -/
def Grows (d : Dict K V) : List (Op K V) → Prop
  | [] => True
  | op :: ops => ∃ d' r, step d op = .ok (d', r) ∧ Grown d' ∧ Grows d' ops

/-- An insertion of a new key finds fewer than six entries to a bucket, and a
deletion finds a table. -/
def Room (d : Dict K V) (m : Map K V) : Op K V → Prop
  | .add key _ | .replace key _ =>
    m key = none → d.ht.size = 0 ∨ d.ht.used < (dictForceResizeRatio+1)*d.ht.size
  | .delete _ => d.ht.size ≠ 0
  | _ => True

def AllRoom (d : Dict K V) (m : Map K V) : List (Op K V) → Prop
  | [] => True
  | op :: ops => Room d m op ∧ ∀ d' r, step d op = .ok (d', r) →
    AllRoom d' (mapStep d.type m op).1 ops

structure Small (d : Dict K V) (m : Map K V) : Prop where
  inv : Inv d m
  size : d.ht = dictReset ∨ d.ht.size = 4
  used : d.ht.used ≤ (dictForceResizeRatio+1)*d.ht.size

theorem Small.fits (h : Small d m) (key : K) : bucket d key < 2^31 := by
  rcases h.inv.shape with hr | ⟨T, hT⟩
  · have : bucket d key = 0 := by simp [bucket, hr, dictReset]
    omega
  · have hlt := hT.bucket_lt key
    rcases h.size with hr | h4
    · have := hT.table
      rw [hr] at this
      cases this
    · omega

/-- What an insertion of a new key does to the counts. -/
theorem Small.insert (h : Small d m) {d' : Dict K V} {m' : Map K V} (hi : Inv d' m')
    (hu : d'.ht.used = d.ht.used+1)
    (hs : d'.ht.size = d.ht.size ∨ d.ht = dictReset ∧ d'.ht.size = 4) :
    (Grown d' ↔ d.ht.size = 0 ∨ d.ht.used < (dictForceResizeRatio+1)*d.ht.size) ∧
      (Grown d' → Small d' m') := by
  have h4 : d'.ht.size = 4 := by
    rcases hs with hs | ⟨-, hs⟩
    · rcases h.size with hr | h4
      · exfalso
        rcases hi.shape with hr' | ⟨T, hT⟩
        · rw [hr'] at hu
          simp [dictReset] at hu
        · have := hT.size_pos
          rw [hs, hr] at this
          simp [dictReset] at this
      · rw [hs, h4]
    · exact hs
  have hpow : ∃ k, d'.ht.size = 2^k := ⟨2, h4⟩
  have hcase : d.ht.size = 0 ∧ d.ht.used = 0 ∨ d.ht.size = 4 := by
    rcases h.size with hr | h4
    · exact Or.inl ⟨by rw [hr]; rfl, by rw [hr]; rfl⟩
    · exact Or.inr h4
  refine ⟨⟨fun hg => ?_, fun hr => ⟨hpow, ?_⟩⟩, fun hg => ⟨hi, Or.inr h4, hg.2⟩⟩
  · have := hg.2
    simp only [dictForceResizeRatio] at this ⊢
    omega
  · simp only [dictForceResizeRatio] at hr ⊢
    omega

theorem Small.grown_iff (h : Small d m) : Grown d ↔ d.ht.size ≠ 0 := by
  constructor
  · rintro ⟨⟨k, hk⟩, -⟩
    have := Nat.two_pow_pos k
    omega
  · intro hz
    refine ⟨⟨2, ?_⟩, h.used⟩
    rcases h.size with hr | h4
    · exact absurd (by rw [hr]; rfl) hz
    · exact h4

/-- Behind one basic call the dict has grown exactly when there was room. -/
theorem Small.step (h : Small d m) (ht : Lawful d.type) {op : Op K V} (hb : Basic op) :
    ∃ d', step d op = .ok (d', (mapStep d.type m op).2) ∧ d'.type = d.type ∧
      (Grown d' ↔ Room d m op) ∧ (Grown d' → Small d' (mapStep d.type m op).1) := by
  cases op with
  | add key val =>
    cases hm : m key with
    | none =>
      obtain ⟨d', hrun, hty, hu, hs, h'⟩ := dictAdd_absent h.inv ht hm (h.fits key) val
      obtain ⟨hg, hsm⟩ := h.insert h' hu hs
      refine ⟨d', by simp [DictMap.step, hrun, mapStep, hm, dictOk], hty, ?_, ?_⟩
      · simpa [Room, hm] using hg
      · simpa [mapStep, hm] using hsm
    | some p =>
      have hrun := dictAdd_present h.inv hm val
      obtain ⟨T, hT⟩ := h.inv.filled hm
      refine ⟨d, by simp [DictMap.step, hrun, mapStep, hm, dictErr], rfl, ?_, ?_⟩
      · simpa [Room, hm, h.grown_iff] using Nat.ne_of_gt hT.size_pos
      · simpa [mapStep, hm] using fun _ => h
  | replace key val =>
    cases hm : m key with
    | none =>
      obtain ⟨d', hrun, hty, hu, hs, h'⟩ := dictReplace_absent h.inv ht hm (h.fits key) val
      obtain ⟨hg, hsm⟩ := h.insert h' hu hs
      refine ⟨d', by simp [DictMap.step, hrun, mapStep, hm], hty, ?_, ?_⟩
      · simpa [Room, hm] using hg
      · simpa [mapStep, hm] using hsm
    | some p =>
      obtain ⟨d', hrun, hty, hu, hs, h'⟩ := dictReplace_present h.inv ht hm val
      obtain ⟨T, hT⟩ := h.inv.filled hm
      have hz := Nat.ne_of_gt hT.size_pos
      have hsm : Small d' (m.put d.type key (p.1, d.type.dupVal val)) := by
        refine ⟨h', Or.inr ?_, by rw [hu, hs]; exact h.used⟩
        rcases h.size with hr | h4
        · exact absurd (by rw [hr]; rfl) hz
        · rw [hs, h4]
      refine ⟨d', by simp [DictMap.step, hrun, mapStep, hm], hty, ?_, ?_⟩
      · simpa [Room, hm, hsm.grown_iff, hs] using hz
      · simpa [mapStep, hm] using fun _ => hsm
  | delete key =>
    have hd := dictGenericDelete_spec h.inv ht key false
    cases hm : m key with
    | none =>
      simp only [hm] at hd
      refine ⟨d, by simp [DictMap.step, dictDelete, hd, mapStep, hm, dictErr], rfl, ?_, ?_⟩
      · exact h.grown_iff
      · simpa [mapStep, hm] using fun _ => h
    | some p =>
      simp only [hm] at hd
      obtain ⟨d', hrun, hty, hu, hs, h'⟩ := hd
      obtain ⟨T, hT⟩ := h.inv.filled hm
      have hz := Nat.ne_of_gt hT.size_pos
      have hsm : Small d' (m.remove d.type key) := by
        refine ⟨h', Or.inr ?_, ?_⟩
        · rcases h.size with hr | h4
          · exact absurd (by rw [hr]; rfl) hz
          · rw [hs, h4]
        · have := h.used
          rw [hs]
          omega
      refine ⟨d', by simp [DictMap.step, dictDelete, hrun, mapStep, hm, dictOk, pairOf], hty, ?_, ?_⟩
      · simp [Room, hsm.grown_iff, hs]
      · simpa [mapStep, hm] using fun _ => hsm
  | _ => exact hb.elim

theorem grows_iff (h : Small d m) (ht : Lawful d.type) {ops : List (Op K V)}
    (hb : ∀ op ∈ ops, Basic op) : Grows d ops ↔ AllRoom d m ops := by
  induction ops generalizing d m with
  | nil => exact Iff.rfl
  | cons op ops ih =>
    obtain ⟨d', hrun, hty, hg, hsm⟩ := h.step ht (hb op (by simp))
    have hrest : ∀ op ∈ ops, Basic op := fun o ho => hb o (List.mem_cons_of_mem _ ho)
    have ht' : Lawful d'.type := hty ▸ ht
    simp only [Grows, AllRoom]
    constructor
    · rintro ⟨d₁, r, hrun₁, hg₁, hr⟩
      have hd : d' = d₁ := by
        rw [hrun, Except.ok.injEq, Prod.mk.injEq] at hrun₁
        exact hrun₁.1
      subst hd
      refine ⟨hg.mp hg₁, fun d₂ r₂ hrun₂ => ?_⟩
      rw [hrun, Except.ok.injEq, Prod.mk.injEq] at hrun₂
      obtain ⟨rfl, -⟩ := hrun₂
      exact (ih (hsm hg₁) ht' hrest).mp hr
    · rintro ⟨hroom, hr⟩
      have hg' := hg.mpr hroom
      exact ⟨d', _, hrun, hg', (ih (hsm hg') ht' hrest).mpr (hr d' _ hrun)⟩

theorem dictCreate_small (t : DictType K V) : Small (dictCreate t) fun _ => none :=
  ⟨dictCreate_inv t, Or.inl rfl, Nat.zero_le _⟩

/-- An accepted expansion gives the dict the buckets asked for exactly when it has
no table yet or has that many already; the pairs always stay. -/
theorem dictExpand_grows_iff (h : Inv d m) {size : ℕ} (hsize : size < 2^60) {d' : Dict K V}
    (hrun : dictExpand d size = .ok (d', dictOk)) :
    (dictNextPower size = .ok d'.ht.size ∧ ∀ k, lookup d' k = lookup d k) ↔
      (d.ht.table = none ∨ dictNextPower size = .ok d.ht.size) := by
  obtain ⟨d₁, ret, hrun₁, -, h', -, -, hd, htab⟩ := dictExpand_spec h size fun _ => hsize
  rw [hrun, Except.ok.injEq, Prod.mk.injEq] at hrun₁
  obtain ⟨rfl, rfl⟩ := hrun₁
  have hlook : ∀ k, lookup d' k = lookup d k := fun k => by rw [h'.agrees, h.agrees]
  rcases hd with rfl | ⟨hr, k, hk, -, -, hs⟩
  · simp [htab rfl]
  · have hnone : d.ht.table = none := by rw [hr]; rfl
    simp only [hnone, true_or, iff_true]
    exact ⟨by rw [hk, hs], hlook⟩

/-- Runs of insertions and deletions keep the dict grown exactly while there is
room, and an accepted expansion has its effect exactly on a dict without a table
or of the right size. -/
theorem dict_grows_iff (t : DictType K V) (ht : Lawful t) (ops : List (Op K V))
    (hb : ∀ op ∈ ops, Basic op) :
    (Grows (dictCreate t) ops ↔ AllRoom (dictCreate t) (fun _ => none) ops) ∧
    ∀ (d : Dict K V) (m : Map K V) (size : ℕ) (d' : Dict K V), Inv d m → d.ht.used ≤ size →
      size < 2^60 → dictExpand d size = .ok (d', dictOk) →
      ((dictNextPower size = .ok d'.ht.size ∧ ∀ k, lookup d' k = lookup d k) ↔
        (d.ht.table = none ∨ dictNextPower size = .ok d.ht.size)) :=
  ⟨grows_iff (dictCreate_small t) ht hb, fun _ _ _ _ hi _ hs hr => dictExpand_grows_iff hi hs hr⟩

end Growth

section Stuck

def numbers : DictType ℕ ℕ := ⟨fun k => k, none, none, none⟩

theorem numbers_lawful : Lawful numbers := by
  have heq : ∀ a b, numbers.compareKeys a b = true ↔ a = b := fun a b => by
    simp [DictType.compareKeys, numbers]
  refine ⟨fun a => (heq a a).mpr rfl, fun a b h => ?_, fun a b c h h' => ?_, fun a b h => ?_,
    fun a => (heq _ _).mpr rfl⟩
  · exact (heq b a).mpr ((heq a b).mp h).symm
  · exact (heq a c).mpr (((heq a b).mp h).trans ((heq b c).mp h'))
  · rw [(heq a b).mp h]

def final (d : Dict ℕ ℕ) : List (Op ℕ ℕ) → Run (Dict ℕ ℕ)
  | [] => .ok d
  | op :: ops => do
    let r ← step d op
    final r.1 ops

theorem grown_final {d d' : Dict ℕ ℕ} {ops : List (Op ℕ ℕ)} (h : Grows d ops)
    (hops : ops ≠ []) (hf : final d ops = .ok d') : Grown d' := by
  induction ops generalizing d with
  | nil => exact absurd rfl hops
  | cons op ops ih =>
    obtain ⟨d₁, r, hrun, hg, hr⟩ := h
    rw [final, hrun, ok_bind] at hf
    cases ops with
    | nil =>
      rw [final, Except.ok.injEq] at hf
      exact hf ▸ hg
    | cons op' ops => exact ih hr (by simp) hf

/-- The twenty-fifth key finds the dict with four buckets still. -/
theorem dict_grows_fails :
    ¬ Grows (dictCreate numbers) ((List.range 25).map fun k => .add k k) := by
  intro h
  have hu : (final (dictCreate numbers) ((List.range 25).map fun k => .add k k)).map
      (fun d => (d.ht.size, d.ht.used)) = .ok (4, 25) := by decide +kernel
  cases hf : final (dictCreate numbers) ((List.range 25).map fun k => .add k k) with
  | error e => simp [hf, Except.map] at hu
  | ok d =>
    simp only [hf, Except.map, Except.ok.injEq, Prod.mk.injEq] at hu
    have := (grown_final h (by decide) hf).2
    rw [hu.1, hu.2] at this
    exact absurd this (by decide)

/-- The first key finds room. -/
theorem dict_grows_first : Grows (dictCreate numbers) [.add 0 7] :=
  (dict_grows_iff numbers numbers_lawful _ (by simp [Basic])).1.mpr
    ⟨fun _ => Or.inl rfl, fun _ _ _ => trivial⟩

end Stuck

end CLearning.DictGrowth
