import CLearning.Mempool
import CLearning.MpHashSet
import Mathlib.Tactic.IntervalCases

/-!
# The address registries

A registry is a hash table of addresses. Its calls are those of a bounded set,
so what is in a registry is told by the list of the addresses it holds. A
registry that could not be created holds nothing and refuses every address.
-/

set_option autoImplicit false

namespace CLearning.MempoolRegistry
open CLearning.Machine CLearning.MpHash CLearning.MpHashRep CLearning.MpHashSet
open CLearning.MempoolState

def AddrOk (a : ℕ) : Prop := 0 < a ∧ a < 2^64

abbrev Same (a b : ℕ) : Prop := hashMemcmp a b = 0

theorem same_iff (a b : ℕ) : Same a b ↔ a % 2^64 = b % 2^64 := by
  have ha : a % 2^64 < 2^64 := Nat.mod_lt _ (by decide)
  have hb : b % 2^64 < 2^64 := Nat.mod_lt _ (by decide)
  have hz : Same a b ↔ usub 64 (a % 2^64) (b % 2^64) = 0 := by
    unfold Same hashMemcmp
    constructor
    · intro h
      by_contra hne
      simp only [hne, if_false] at h
      split at h <;> omega
    · intro h
      exact if_pos h
  rw [hz]
  generalize a % 2^64 = x at *
  generalize b % 2^64 = y at *
  unfold usub
  omega

theorem same_of_ok {a b : ℕ} (ha : AddrOk a) (hb : AddrOk b) : Same a b ↔ a = b := by
  rw [same_iff, Nat.mod_eq_of_lt ha.2, Nat.mod_eq_of_lt hb.2]

theorem same_equivalence : Equivalence Same where
  refl a := (same_iff a a).mpr rfl
  symm h := (same_iff _ _).mpr ((same_iff _ _).mp h).symm
  trans h h' := (same_iff _ _).mpr (((same_iff _ _).mp h).trans ((same_iff _ _).mp h'))

theorem addrBytes_congr {a b : ℕ} (h : a % 2^64 = b % 2^64) : addrBytes a = addrBytes b := by
  apply List.map_congr_left
  intro i hi
  have hi' : i < 8 := List.mem_range.mp hi
  apply UInt8.toNat_inj.mp
  rw [UInt8.toNat_ofNat', UInt8.toNat_ofNat']
  interval_cases i <;> omega

theorem hashMemaddr_congr {a b : ℕ} (h : Same a b) : hashMemaddr a = hashMemaddr b := by
  rw [hashMemaddr, hashMemaddr, addrBytes_congr ((same_iff a b).mp h)]

def Registers (t : Option (Table ℕ)) (free : Bool) (M : List ℕ) : Prop :=
  match t with
  | none => M = []
  | some h => h.free = free ∧ (∀ a ∈ M, AddrOk a) ∧
      ∃ L S, Agrees h (fun a b => hashMemcmp a b = 0) L S M

section Calls

variable {t t' : Option (Table ℕ)} {free : Bool} {M : List ℕ} {a : ℕ}

theorem registers_created {n : ℕ} {calloc : Fin 3 → Bool} (h2 : 2 ≤ n) (hn : n ≤ 2^31)
    (hc : mpHashTableCreate hashMemaddr (some hashMemcmp) free n calloc = .ok t) :
    Registers t free [] := by
  rcases @mpHashTableCreate_spec ℕ n hashMemaddr (some hashMemcmp) free calloc h2 hn with
    ⟨hrun, -⟩ | ⟨m, hm, hm', hrun⟩
  · rw [hrun, Except.ok.injEq] at hc
    subst hc
    rfl
  · rw [hrun, Except.ok.injEq] at hc
    subst hc
    have hl : Lawful (emptyTable hashMemaddr (some hashMemcmp) free m)
        (fun a b => hashMemcmp a b = 0) :=
      ⟨⟨hashMemcmp, rfl, fun _ _ => Iff.rfl⟩, same_equivalence, fun a b => hashMemaddr_congr⟩
    refine ⟨rfl, by simp, emptyLists m, fun _ => 0, emptyTable_rep hl (by omega) (by omega) _, ?_,
      fun x => ?_, List.Pairwise.nil, rfl⟩
    · show m-1 < m
      omega
    · simp [Stored, emptyLists]

theorem Registers.ok (h : Registers t free M) : ∀ a ∈ M, AddrOk a := by
  intro a ha
  cases t with
  | none =>
    rw [show M = [] from h] at ha
    cases ha
  | some t => exact h.2.1 a ha

theorem Registers.nodup (h : Registers t free M) : M.Nodup := by
  cases t with
  | none =>
    rw [show M = [] from h]
    exact List.nodup_nil
  | some t =>
    obtain ⟨-, -, L, S, h⟩ := h
    exact h.nodup

theorem find?_same (hM : ∀ x ∈ M, AddrOk x) (ha : AddrOk a) :
    M.find? (fun x => hashMemcmp a x = 0) = if a ∈ M then some a else none := by
  split
  · next hmem =>
    cases hf : M.find? (fun x => hashMemcmp a x = 0) with
    | none =>
      rw [List.find?_eq_none] at hf
      exact absurd ((same_of_ok ha (hM a hmem)).mpr rfl) (by simpa using hf a hmem)
    | some y =>
      have hy := hM y (List.mem_of_find?_eq_some hf)
      have hs : Same a y := by simpa using List.find?_some hf
      rw [(same_of_ok ha hy).mp hs]
  · next hmem =>
    rw [List.find?_eq_none]
    intro x hx
    have hne : a ≠ x := fun hc => hmem (hc ▸ hx)
    have hns : ¬Same a x := fun hc => hne ((same_of_ok ha (hM x hx)).mp hc)
    simpa using hns

theorem eraseP_same (hM : ∀ x ∈ M, AddrOk x) (ha : AddrOk a) :
    M.eraseP (fun x => hashMemcmp a x = 0) = M.erase a := by
  induction M with
  | nil => rfl
  | cons x M ih =>
    have hx := same_of_ok ha (hM x (by simp))
    have ih' := ih fun y hy => hM y (List.mem_cons_of_mem _ hy)
    by_cases hax : a = x
    · subst hax
      rw [List.eraseP_cons_of_pos (by simpa using hx.mpr rfl), List.erase_cons_head]
    · have hns : ¬hashMemcmp a x = 0 := fun hc => hax (hx.mp hc)
      rw [List.eraseP_cons_of_neg (by simpa using hns), ih',
        List.erase_cons_tail (by simpa using Ne.symm hax)]

/-- An address is taken in, or refused with the registry as it was. -/
theorem insertAddr_spec (h : Registers t free M) (ha : AddrOk a) :
    ∃ t' r, insertAddr t a = .ok (t', r) ∧ (t' = none ↔ t = none) ∧
      (r = 0 ∧ a ∉ M ∧ Registers t' free (a :: M) ∨ r ≠ 0 ∧ Registers t' free M) := by
  cases t with
  | none => exact ⟨none, -1, rfl, by simp, Or.inr ⟨by decide, h⟩⟩
  | some t =>
    obtain ⟨hfree, hM, L, S, h⟩ := h
    obtain ⟨t', L', S', hrun, h', hk⟩ := h.step (.insert a)
    obtain ⟨⟨t'', r⟩, hins, hres⟩ := bind_ok_iff.mp hrun
    rw [Except.ok.injEq, Prod.mk.injEq] at hres
    obtain ⟨rfl, hres⟩ := hres
    refine ⟨some t'', r, ?_, by simp, ?_⟩
    · rw [insertAddr, if_neg (Nat.ne_of_gt ha.1), hins, ok_bind]
    by_cases hroom : M.length < t.num_buckets ∧ ∀ x ∈ M, hashMemcmp a x ≠ 0
    · simp only [setStep, if_pos hroom, Res.code.injEq] at hres h'
      refine Or.inl ⟨hres.1, fun hmem => ?_, hk.2.2.2.2.trans hfree, ?_, L', S', h'⟩
      · exact hroom.2 a hmem ((same_of_ok ha ha).mpr rfl)
      · intro x hx
        rcases List.mem_cons.mp hx with rfl | hx
        · exact ha
        · exact hM x hx
    · simp only [setStep, if_neg hroom, Res.code.injEq] at hres h'
      refine Or.inr ⟨by omega, hk.2.2.2.2.trans hfree, hM, L', S', h'⟩

/-- An address leaves the registry; one that owns its addresses releases it. -/
theorem deleteAddr_spec (h : Registers t free M) (ha : AddrOk a) :
    ∃ t', deleteAddr t a = .ok (t', if free ∧ a ∈ M then [a] else []) ∧ (t' = none ↔ t = none) ∧
      Registers t' free (M.erase a) := by
  cases t with
  | none =>
    have hM : M = [] := h
    subst hM
    exact ⟨none, by simp [deleteAddr], by simp, rfl⟩
  | some t =>
    obtain ⟨hfree, hM, L, S, h⟩ := h
    obtain ⟨t', L', S', hrun, h', hk⟩ := h.step (.delete a)
    obtain ⟨⟨t'', r, freed⟩, hdel, hres⟩ := bind_ok_iff.mp hrun
    rw [Except.ok.injEq, Prod.mk.injEq] at hres
    obtain ⟨rfl, hres⟩ := hres
    have hsub : ∀ x ∈ M.erase a, AddrOk x := fun x hx => hM x (List.mem_of_mem_erase hx)
    simp only [setStep, find?_same hM ha, hfree] at hres h'
    refine ⟨some t'', ?_, by simp, hk.2.2.2.2.trans hfree, hsub, L', S', ?_⟩
    · rw [deleteAddr, if_neg (Nat.ne_of_gt ha.1), hdel, ok_bind]
      by_cases hmem : a ∈ M
      · simp only [if_pos hmem, Res.code.injEq] at hres
        simp [hres.2, hmem]
      · simp only [if_neg hmem, Res.code.injEq] at hres
        simp [hres.2, hmem]
    · by_cases hmem : a ∈ M
      · simp only [if_pos hmem] at h'
        rwa [eraseP_same hM ha] at h'
      · simp only [if_neg hmem] at h'
        rwa [List.erase_of_not_mem hmem]

theorem findAddr_spec (h : Registers t free M) (ha : a < 2^64) :
    findAddr t a = .ok (if a ∈ M then some a else none) := by
  cases t with
  | none =>
    rw [show M = [] from h]
    rfl
  | some t =>
    obtain ⟨-, hM, L, S, h⟩ := h
    by_cases h0 : a = 0
    · subst h0
      rw [if_neg (fun hc => Nat.lt_irrefl 0 (hM 0 hc).1)]
      rfl
    · obtain ⟨t', L', S', hrun, -, -⟩ := h.step (.find a)
      obtain ⟨r, hfind, hres⟩ := bind_ok_iff.mp hrun
      rw [Except.ok.injEq, Prod.mk.injEq] at hres
      rw [findAddr, if_neg h0, hfind, (Res.found.inj hres.2 : r = _),
        find?_same hM ⟨Nat.pos_of_ne_zero h0, ha⟩]

theorem tableAddrs_spec (h : Registers t free M) :
    (tableAddrs t).Perm (if free then M else []) := by
  cases t with
  | none =>
    rw [show M = [] from h]
    simp [tableAddrs]
  | some t =>
    obtain ⟨hfree, -, L, S, h⟩ := h
    rw [tableAddrs, mpHashTableFree, hfree]
    cases free
    · simp
    · simp only [if_true]
      rw [h.tableData_eq]
      exact h.perm

end Calls

end CLearning.MempoolRegistry
