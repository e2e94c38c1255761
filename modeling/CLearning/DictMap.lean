import CLearning.DictTable
import Mathlib.Algebra.BigOperators.Group.Finset.Basic

/-!
# The dict is a map

The entries of a dict are those of a map from classes of equal keys to pairs.
A step of a run keeps the two together as long as the bucket index of a key to
be added fits an `int`.
-/

set_option autoImplicit false

namespace CLearning.DictMap
open CLearning.Machine CLearning.DictTable

section Chains

variable {K V : Type} [DecidableEq K] {t : DictType K V} {d : Dict K V} {key k : K}
  {l : List (DictEntry K V)}

/-- Comparison is an equivalence that implies equal hashes, and a duplicated key
is equal to the original. -/
structure Lawful (t : DictType K V) : Prop where
  refl : ∀ a, t.compareKeys a a = true
  symm : ∀ a b, t.compareKeys a b = true → t.compareKeys b a = true
  trans : ∀ a b c, t.compareKeys a b = true → t.compareKeys b c = true →
    t.compareKeys a c = true
  hash : ∀ a b, t.compareKeys a b = true → t.hashKey a = t.hashKey b
  dup : ∀ a, t.compareKeys a (t.dupKey a) = true

theorem Lawful.comm (h : Lawful t) (a b : K) : t.compareKeys a b = t.compareKeys b a := by
  rw [Bool.eq_iff_iff]
  exact ⟨h.symm a b, h.symm b a⟩

theorem Lawful.congr (h : Lawful t) {a b : K} (hab : t.compareKeys a b = true) (c : K) :
    t.compareKeys a c = t.compareKeys b c := by
  rw [Bool.eq_iff_iff]
  exact ⟨h.trans b a c (h.symm a b hab), h.trans a b c hab⟩

def chainFind (t : DictType K V) (key : K) (l : List (DictEntry K V)) : Option (DictEntry K V) :=
  l.find? fun he => t.compareKeys key he.key

theorem walk_eq_none : walk t key l = none ↔ chainFind t key l = none := by
  induction l with
  | nil => simp [walk, chainFind]
  | cons he rest ih =>
    simp only [walk, chainFind, List.find?_cons] at ih ⊢
    cases t.compareKeys key he.key <;> simp [ih]

theorem walk_getElem {p : ℕ} (h : walk t key l = some p) : l[p]? = chainFind t key l := by
  induction l generalizing p with
  | nil => simp [walk] at h
  | cons he rest ih =>
    simp only [walk, chainFind, List.find?_cons] at ih h ⊢
    cases hc : t.compareKeys key he.key with
    | true =>
      simp only [hc, if_true, Option.some.injEq] at h
      simp [← h]
    | false =>
      simp only [hc, Bool.false_eq_true, if_false, Option.map_eq_some_iff] at h
      obtain ⟨q, hq, rfl⟩ := h
      simpa using ih hq

theorem unlink_eq (t : DictType K V) (key : K) (l : List (DictEntry K V)) : unlink t key l =
    (chainFind t key l).map fun he => (l.eraseP fun he => t.compareKeys key he.key, he) := by
  induction l with
  | nil => simp [unlink, chainFind]
  | cons he rest ih =>
    simp only [unlink, chainFind, List.find?_cons, List.eraseP_cons] at ih ⊢
    cases t.compareKeys key he.key with
    | true => simp
    | false => simp [ih, Function.comp_def]

def Distinct (t : DictType K V) (l : List (DictEntry K V)) : Prop :=
  l.Pairwise fun a b => t.compareKeys a.key b.key = false

/-- Without the entry found, there is no entry with an equal key. -/
theorem chainFind_eraseP (ht : Lawful t) (hl : Distinct t l) (key k : K) :
    chainFind t k (l.eraseP fun he => t.compareKeys key he.key) =
      if t.compareKeys key k then none else chainFind t k l := by
  induction l with
  | nil => simp [chainFind]
  | cons he rest ih =>
    obtain ⟨hhe, hrest⟩ := List.pairwise_cons.mp hl
    rw [List.eraseP_cons]
    cases hc : t.compareKeys key he.key with
    | true =>
      rw [cond_true]
      cases hk : t.compareKeys key k with
      | true =>
        simp only [if_true, chainFind, List.find?_eq_none]
        intro e he'
        rw [← ht.congr hk, ht.congr hc, hhe e he']
        simp
      | false =>
        have : t.compareKeys k he.key = false := by
          rw [ht.comm, ← ht.congr hc, hk]
        simp [chainFind, this]
    | false =>
      have hih := ih hrest
      rw [cond_false]
      simp only [chainFind, List.find?_cons] at hih ⊢
      rw [hih]
      cases hk : t.compareKeys key k with
      | true =>
        rw [← ht.congr hk, hc]
      | false => simp

/-- Setting the value of the entry found. -/
theorem chainFind_modify (ht : Lawful t) {p : ℕ} (h : walk t key l = some p)
    (f : DictEntry K V → DictEntry K V) (hf : ∀ e, (f e).key = e.key) (k : K) :
    chainFind t k (l.modify p f) =
      if t.compareKeys key k then (chainFind t key l).map f else chainFind t k l := by
  induction l generalizing p with
  | nil => simp [walk] at h
  | cons he rest ih =>
    simp only [walk] at h
    cases hc : t.compareKeys key he.key with
    | true =>
      simp only [hc, if_true, Option.some.injEq] at h
      subst h
      cases hk : t.compareKeys key k with
      | true => simp [chainFind, List.modify, hf, ← ht.congr hk, hc]
      | false =>
        have : t.compareKeys k he.key = false := by rw [ht.comm, ← ht.congr hc, hk]
        simp [chainFind, List.modify, hf, this]
    | false =>
      simp only [hc, Bool.false_eq_true, if_false, Option.map_eq_some_iff] at h
      obtain ⟨q, hq, rfl⟩ := h
      have hih := ih hq
      simp only [chainFind, List.modify_succ_cons, List.find?_cons, hc] at hih ⊢
      rw [hih]
      cases hk : t.compareKeys key k with
      | true =>
        rw [← ht.congr hk, hc]
      | false => simp

theorem distinct_modify {p : ℕ} (hl : Distinct t l) (f : DictEntry K V → DictEntry K V)
    (hf : ∀ e, (f e).key = e.key) : Distinct t (l.modify p f) := by
  have hmap : (l.modify p f).map DictEntry.key = l.map DictEntry.key := by
    induction l generalizing p with
    | nil => simp
    | cons he rest ih =>
      cases p with
      | zero => simp [hf]
      | succ p => simp [ih (List.pairwise_cons.mp hl).2]
  have hiff : ∀ l : List (DictEntry K V), Distinct t l ↔
      (l.map DictEntry.key).Pairwise fun a b => t.compareKeys a b = false := fun l => by
    rw [Distinct, List.pairwise_map]
  rw [hiff, hmap, ← hiff]
  exact hl

end Chains

section NextPower

theorem nextPowerFrom_spec {size j fuel : ℕ} (hs : size ≤ 2^63) (hj : j ≤ 63) (hf : 64 ≤ fuel+j) :
    ∃ k, nextPowerFrom size fuel (2^j) = .ok (2^k) ∧ j ≤ k ∧ k ≤ 63 ∧ size ≤ 2^k ∧
      ∀ i, j ≤ i → i < k → 2^i < size := by
  induction fuel generalizing j with
  | zero => omega
  | succ fuel ih =>
    rw [nextPowerFrom]
    by_cases hle : size ≤ 2^j
    · exact ⟨j, if_pos hle, Nat.le_refl _, hj, hle, fun i h1 h2 => by omega⟩
    · have hj' : j < 63 := by
        by_contra hge
        have : j = 63 := by omega
        subst this
        exact hle hs
      have hpow : 2^j*2 % 2^64 = 2^(j+1) := by
        rw [← Nat.pow_succ]
        exact Nat.mod_eq_of_lt (Nat.pow_lt_pow_right (by omega) (by omega))
      obtain ⟨k, hk, h1, h2, h3, h4⟩ := ih (j := j+1) (by omega) (by omega)
      refine ⟨k, by rw [if_neg hle, hpow, hk], by omega, h2, h3, fun i hi hik => ?_⟩
      by_cases hij : i = j
      · subst hij
        omega
      · exact h4 i (by omega) hik

theorem dictNextPower_spec {size : ℕ} (hs : size < 2^60) :
    ∃ k, dictNextPower size = .ok (2^k) ∧ 2 ≤ k ∧ size ≤ 2^k ∧
      ∀ i, 2 ≤ i → i < k → 2^i < size := by
  obtain ⟨k, hk, h1, -, h3, h4⟩ := nextPowerFrom_spec (show size ≤ 2^63 by omega)
    (show 2 ≤ 63 by omega) (show 64 ≤ 64+2 by omega)
  refine ⟨k, ?_, h1, h3, h4⟩
  rw [dictNextPower, if_neg (by simp only [longMax]; omega)]
  exact hk

theorem dictNextPower_ok (size : ℕ) : ∃ p, dictNextPower size = .ok p := by
  rw [dictNextPower]
  split
  · exact ⟨_, rfl⟩
  · rename_i hs
    obtain ⟨k, hk, -⟩ := nextPowerFrom_spec
      (show size ≤ 2^63 by simp only [longMax] at hs; omega) (show 2 ≤ 63 by omega)
      (show 64 ≤ 64+2 by omega)
    exact ⟨_, hk⟩

end NextPower

section Invariant

variable {K V : Type} [DecidableEq K] {t : DictType K V} {d : Dict K V}
  {T : ℕ → List (DictEntry K V)} {key k : K}

/-- A map from classes of equal keys: the stored key and the value. -/
abbrev Map (K V : Type) := K → Option (K × V)

def bucket (d : Dict K V) (k : K) : ℕ := d.type.hashKey k &&& d.ht.sizemask

def lookup (d : Dict K V) (k : K) : Option (DictEntry K V) :=
  d.ht.table.bind fun table => chainFind d.type k (table (bucket d k))

structure Filled (d : Dict K V) (T : ℕ → List (DictEntry K V)) : Prop where
  table : d.ht.table = some T
  size : ∃ j, 2 ≤ j ∧ d.ht.size = 2^j
  mask : d.ht.sizemask = d.ht.size-1
  home : ∀ i, ∀ e ∈ T i, bucket d e.key = i
  distinct : ∀ i, Distinct d.type (T i)
  set : ∀ i, ∀ e ∈ T i, e.val ≠ none
  used : d.ht.used = ∑ i ∈ Finset.range d.ht.size, (T i).length

/-- The dict stores the pairs of the map. -/
structure Inv (d : Dict K V) (m : Map K V) : Prop where
  shape : d.ht = dictReset ∨ ∃ T, Filled d T
  agrees : ∀ k, lookup d k = (m k).map fun p => ⟨p.1, some p.2⟩

theorem Filled.size_pos (h : Filled d T) : 0 < d.ht.size := by
  obtain ⟨j, -, hj⟩ := h.size
  rw [hj]
  exact Nat.two_pow_pos j

theorem Filled.bucket_lt (h : Filled d T) (k : K) : bucket d k < d.ht.size := by
  have : bucket d k ≤ d.ht.sizemask := Nat.and_le_right
  have hm := h.mask
  have hp := h.size_pos
  omega

theorem Filled.lookup_eq (h : Filled d T) (k : K) :
    lookup d k = chainFind d.type k (T (bucket d k)) := by
  rw [lookup, h.table, Option.bind_some]

/-- Another chain in one bucket. -/
theorem Filled.setChain (h : Filled d T) {idx used : ℕ} {chain : List (DictEntry K V)}
    (hidx : idx < d.ht.size) (hhome : ∀ e ∈ chain, bucket d e.key = idx)
    (hdis : Distinct d.type chain) (hset : ∀ e ∈ chain, e.val ≠ none)
    (hused : used+(T idx).length = d.ht.used+chain.length) :
    Filled ({ setChain d T idx chain with ht := { (setChain d T idx chain).ht with used := used } })
      (Function.update T idx chain) where
  table := rfl
  size := h.size
  mask := h.mask
  home i e he := by
    by_cases hi : i = idx
    · subst hi
      exact hhome e (by simpa using he)
    · exact h.home i e (by simpa [hi] using he)
  distinct i := by
    by_cases hi : i = idx
    · subst hi
      rw [Function.update_self]
      exact hdis
    · rw [Function.update_of_ne hi]
      exact h.distinct i
  set i e he := by
    by_cases hi : i = idx
    · subst hi
      exact hset e (by simpa using he)
    · exact h.set i e (by simpa [hi] using he)
  used := by
    have hm := Finset.mem_range.mpr hidx
    have hu := h.used
    rw [← Finset.add_sum_erase _ _ hm] at hu
    change used = ∑ i ∈ Finset.range d.ht.size, (Function.update T idx chain i).length
    rw [← Finset.add_sum_erase _ _ hm, Function.update_self]
    have : ∑ i ∈ (Finset.range d.ht.size).erase idx, (Function.update T idx chain i).length =
        ∑ i ∈ (Finset.range d.ht.size).erase idx, (T i).length :=
      Finset.sum_congr rfl fun i hi => by
        rw [Function.update_of_ne (Finset.ne_of_mem_erase hi)]
    omega

theorem bucket_congr (ht : Lawful d.type) (h : d.type.compareKeys key k = true) :
    bucket d key = bucket d k := by
  rw [bucket, bucket, ht.hash _ _ h]

theorem dictCreate_inv (t : DictType K V) : Inv (dictCreate t) fun _ => none :=
  ⟨Or.inl rfl, fun _ => rfl⟩

/-- Expanding changes nothing but the table of a dict that has none. -/
theorem dictExpand_spec {m : Map K V} (h : Inv d m) (size : ℕ) (hs : d.ht = dictReset → size < 2^60) :
    ∃ d' ret, dictExpand d size = .ok (d', ret) ∧ d'.type = d.type ∧ Inv d' m ∧
      (ret = dictOk ∨ ret = dictErr) ∧ (ret = dictErr ↔ size < d.ht.used) ∧
      (d' = d ∨ d.ht = dictReset ∧ ∃ k, dictNextPower size = .ok (2^k) ∧ 2 ≤ k ∧
        Filled d' (fun _ => []) ∧ d'.ht.size = 2^k) ∧ (ret = dictOk → d'.ht.table ≠ none) := by
  obtain ⟨p, hp⟩ := dictNextPower_ok size
  rw [dictExpand, hp, ok_bind]
  by_cases hu : d.ht.used > size
  · rw [if_pos hu]
    exact ⟨d, _, rfl, rfl, h, Or.inr rfl, ⟨fun _ => hu, fun _ => rfl⟩, Or.inl rfl,
      fun hc => by simp [dictErr, dictOk] at hc⟩
  rw [if_neg hu]
  rcases h.shape with hr | ⟨T, hT⟩
  · obtain ⟨k, hk, hk2, -⟩ := dictNextPower_spec (hs hr)
    rw [hk, Except.ok.injEq] at hp
    subst hp
    have hnone : d.ht.table = none := by rw [hr]; rfl
    simp only [hnone]
    have hF : Filled ({ d with ht := ⟨some fun _ => [], 2^k, 2^k-1, 0⟩ } : Dict K V) fun _ => [] :=
      ⟨rfl, ⟨k, hk2, rfl⟩, rfl, by simp, fun _ => List.Pairwise.nil, by simp, by simp⟩
    refine ⟨_, _, rfl, rfl, ⟨Or.inr ⟨_, hF⟩, fun x => ?_⟩, Or.inl rfl, ?_,
      Or.inr ⟨hr, k, rfl, hk2, hF, rfl⟩, fun _ => by simp⟩
    · have := h.agrees x
      rw [lookup, hnone, Option.bind_none] at this
      rw [← this, hF.lookup_eq]
      rfl
    · rw [hr]
      simp [dictReset, dictOk, dictErr]
  · simp only [hT.table]
    refine ⟨d, _, rfl, rfl, h, Or.inl rfl, ⟨fun hc => by simp [dictErr, dictOk] at hc,
      fun hc => by omega⟩, Or.inl rfl, fun _ => by simp [hT.table]⟩

/-- After the growth attempt of an insertion there is a table. -/
theorem dictExpandIfNeeded_spec {m : Map K V} (h : Inv d m) :
    ∃ d' T, dictExpandIfNeeded d = .ok (d', dictOk) ∧ d'.type = d.type ∧ Inv d' m ∧ Filled d' T ∧
      (d' = d ∨ d.ht = dictReset ∧ d'.ht.size = 4 ∧ T = fun _ => []) := by
  rcases h.shape with hr | ⟨T, hT⟩
  · have hz : d.ht.size = 0 := by rw [hr]; rfl
    obtain ⟨d', ret, hrun, hty, hi, hcode, hret, hd, htab⟩ :=
      dictExpand_spec h dictHtInitialSize (fun _ => by decide)
    have hret' : ret = dictOk := by
      have : d.ht.used = 0 := by rw [hr]; rfl
      rcases hcode with hc | hc
      · exact hc
      · have := hret.mp hc
        omega
    subst hret'
    rw [dictExpandIfNeeded, if_pos hz, hrun]
    rcases hd with rfl | ⟨-, k, hk, hk2, hF, hsz⟩
    · exact absurd (by rw [hr]; rfl) (htab rfl)
    · have : dictNextPower dictHtInitialSize = .ok 4 := rfl
      rw [this, Except.ok.injEq] at hk
      exact ⟨d', _, rfl, hty, hi, hF, Or.inr ⟨hr, by rw [hsz, ← hk], rfl⟩⟩
  · rw [dictExpandIfNeeded, if_neg (Nat.ne_of_gt hT.size_pos)]
    split
    · obtain ⟨d', ret, hrun, hty, hi, hcode, hret, hd, -⟩ :=
        dictExpand_spec h (d.ht.used*2) (fun hr => by
          have := hT.table
          rw [hr] at this
          cases this)
      have hret' : ret = dictOk := by
        rcases hcode with hc | hc
        · exact hc
        · have := hret.mp hc
          omega
      subst hret'
      rcases hd with rfl | ⟨hr, -⟩
      · exact ⟨d', T, hrun, rfl, hi, hT, Or.inl rfl⟩
      · have := hT.table
        rw [hr] at this
        cases this
    · exact ⟨d, T, rfl, rfl, h, hT, Or.inl rfl⟩

theorem toInt_of_lt {n : ℕ} (h : n < 2^31) : toInt n = n := by
  have : n % 2^32 = n := Nat.mod_eq_of_lt (by omega)
  rw [toInt, this, if_pos h]

theorem toInt_of_ge {n : ℕ} (h : 2^31 ≤ n) (h' : n < 2^32) : toInt n < 0 := by
  have : n % 2^32 = n := Nat.mod_eq_of_lt h'
  rw [toInt, this, if_neg (by omega)]
  omega

omit [DecidableEq K] in
theorem bucket_lt_word (d : Dict K V) (k : K) : bucket d k < 2^32 := by
  have h1 : bucket d k ≤ d.type.hashKey k := Nat.and_le_left
  have h2 : d.type.hashKey k < 2^32 := Nat.mod_lt _ (Nat.two_pow_pos 32)
  omega

def Map.put (m : Map K V) (t : DictType K V) (key : K) (p : K × V) : Map K V :=
  fun k => if t.compareKeys key k then some p else m k

def Map.remove (m : Map K V) (t : DictType K V) (key : K) : Map K V :=
  fun k => if t.compareKeys key k then none else m k

theorem Inv.chainFind_eq {m : Map K V} (h : Inv d m) (hT : Filled d T) (k : K) :
    chainFind d.type k (T (bucket d k)) = (m k).map fun p => ⟨p.1, some p.2⟩ := by
  rw [← hT.lookup_eq, h.agrees]

theorem Inv.setChain (ht : Lawful d.type) {m m' : Map K V} (h : Inv d m) (hT : Filled d T)
    {used : ℕ} {chain : List (DictEntry K V)}
    (hhome : ∀ e ∈ chain, bucket d e.key = bucket d key) (hdis : Distinct d.type chain)
    (hset : ∀ e ∈ chain, e.val ≠ none)
    (hused : used+(T (bucket d key)).length = d.ht.used+chain.length)
    (hin : ∀ k, bucket d k = bucket d key →
      chainFind d.type k chain = (m' k).map fun p => ⟨p.1, some p.2⟩)
    (hout : ∀ k, d.type.compareKeys key k = false → m' k = m k) :
    Inv ({ DictTable.setChain d T (bucket d key) chain with
      ht := { (DictTable.setChain d T (bucket d key) chain).ht with used := used } }) m' := by
  have hF := hT.setChain (hT.bucket_lt key) hhome hdis hset hused
  refine ⟨Or.inr ⟨_, hF⟩, fun k => ?_⟩
  rw [hF.lookup_eq]
  change chainFind d.type k (Function.update T (bucket d key) chain (bucket d k)) = _
  by_cases hk : bucket d k = bucket d key
  · rw [hk, Function.update_self, hin k hk]
  · rw [Function.update_of_ne hk, h.chainFind_eq hT, hout]
    by_contra hc
    exact hk (bucket_congr ht (by simpa using hc)).symm

theorem Inv.filled {m : Map K V} (h : Inv d m) {p : K × V} (hp : m key = some p) :
    ∃ T, Filled d T := by
  rcases h.shape with hr | hT
  · have hm := h.agrees key
    have hl : lookup d key = none := by rw [lookup, hr]; rfl
    rw [hl, hp] at hm
    cases hm
  · exact hT

theorem dictAdd_present {m : Map K V} (h : Inv d m) {p : K × V}
    (hp : m key = some p) (val : V) : dictAdd d key val = .ok (d, dictErr) := by
  obtain ⟨T₀, hT₀⟩ := h.filled hp
  obtain ⟨d₁, T, hrun, -, h₁, hT, hd⟩ := dictExpandIfNeeded_spec h
  have hd₁ : d₁ = d := by
    rcases hd with rfl | ⟨hr, -⟩
    · rfl
    · have := hT₀.table
      rw [hr] at this
      cases this
  subst hd₁
  have hc := h₁.chainFind_eq hT key
  rw [hp] at hc
  have hw : walk d₁.type key (T (bucket d₁ key)) ≠ none := fun hn => by
    rw [walk_eq_none.mp hn] at hc
    cases hc
  obtain ⟨q, hq⟩ := Option.ne_none_iff_exists'.mp hw
  have hidx : dictKeyIndex d₁ key = .ok (d₁, -1) := by
    rw [bucket] at hq
    simp only [dictKeyIndex, hrun, ok_bind, dictOk, dictErr, Nat.zero_ne_one, if_false, hT.table,
      deref_some, hq]
  simp only [dictAdd, dictAddRaw, hidx, ok_bind, if_true]

/-- An insertion of a new key whose bucket index fits an `int`. -/
theorem dictAdd_absent {m : Map K V} (h : Inv d m) (ht : Lawful d.type) (hp : m key = none)
    (hidx : bucket d key < 2^31) (val : V) : ∃ d', dictAdd d key val = .ok (d', dictOk) ∧
      d'.type = d.type ∧ d'.ht.used = d.ht.used+1 ∧
      (d'.ht.size = d.ht.size ∨ d.ht = dictReset ∧ d'.ht.size = 4) ∧
      Inv d' (m.put d.type key (d.type.dupKey key, d.type.dupVal val)) := by
  obtain ⟨d₁, T, hrun, hty, h₁, hT, hd⟩ := dictExpandIfNeeded_spec h
  have hlt : bucket d₁ key < 2^31 := by
    rcases hd with rfl | ⟨-, hsz, -⟩
    · exact hidx
    · have := hT.bucket_lt key
      omega
  have hused : d₁.ht.used = d.ht.used := by
    rcases hd with rfl | ⟨hr, -, rfl⟩
    · rfl
    · rw [hT.used, hr]
      simp [dictReset]
  have hsize : d₁.ht.size = d.ht.size ∨ d.ht = dictReset ∧ d₁.ht.size = 4 := by
    rcases hd with rfl | ⟨hr, hsz, -⟩
    · exact Or.inl rfl
    · exact Or.inr ⟨hr, hsz⟩
  rw [← hty] at ht ⊢
  clear hd hidx h
  have hc := h₁.chainFind_eq hT key
  rw [hp, Option.map_none] at hc
  have hw : walk d₁.type key (T (bucket d₁ key)) = none := walk_eq_none.mpr hc
  have hindex : dictKeyIndex d key = .ok (d₁, bucket d₁ key) := by
    rw [← toInt_of_lt hlt]
    rw [bucket] at hw
    simp only [dictKeyIndex, hrun, ok_bind, dictOk, dictErr, Nat.zero_ne_one, if_false, hT.table,
      deref_some, hw]
    rfl
  set idx := bucket d₁ key with hidx
  have hne : (idx : ℤ) ≠ -1 := by omega
  have hnn : ¬ (idx : ℤ) < 0 := by omega
  refine ⟨{ DictTable.setChain d₁ T idx (⟨d₁.type.dupKey key, some (d₁.type.dupVal val)⟩ :: T idx)
    with ht := { (DictTable.setChain d₁ T idx
      (⟨d₁.type.dupKey key, some (d₁.type.dupVal val)⟩ :: T idx)).ht with
        used := d₁.ht.used+1 } }, ?_, rfl, ?_, hsize, ?_⟩
  · simp only [dictAdd, dictAddRaw, hindex, ok_bind, hne, hnn, if_false, hT.table, deref_some,
      Int.toNat_natCast, dictSetVal, DictTable.setChain, Function.update_self,
      Function.update_idem, List.modify_zero_cons]
  · simp only [hused]
  · have hdup := ht.dup key
    refine h₁.setChain ht hT ?_ ?_ ?_ ?_ ?_ ?_
    · intro e he
      rcases List.mem_cons.mp he with rfl | he
      · exact (bucket_congr ht hdup).symm
      · exact hT.home _ e he
    · refine List.pairwise_cons.mpr ⟨fun e he => ?_, hT.distinct _⟩
      rw [← ht.congr hdup]
      simpa using List.find?_eq_none.mp hc e he
    · intro e he
      rcases List.mem_cons.mp he with rfl | he
      · simp
      · exact hT.set _ e he
    · rw [← hidx, List.length_cons]
      omega
    · intro k hk
      have hcf := h₁.chainFind_eq hT k
      rw [hk] at hcf
      rw [chainFind, List.find?_cons, ht.comm, ← ht.congr hdup, Map.put]
      cases d₁.type.compareKeys key k with
      | true => simp
      | false => simpa [chainFind] using hcf
    · intro k hk
      simp [Map.put, hk]

/-- The insertion of a new key whose bucket index does not fit an `int`. -/
theorem dictAdd_wide {m : Map K V} (h : Inv d m) (hp : m key = none)
    (hidx : ¬ bucket d key < 2^31) (val : V) (d' : Dict K V) :
    dictAdd d key val ≠ .ok (d', dictOk) := by
  obtain ⟨d₁, T, hrun, hty, h₁, hT, hd⟩ := dictExpandIfNeeded_spec h
  have hd₁ : d₁ = d := by
    rcases hd with rfl | ⟨hr, -⟩
    · rfl
    · have : bucket d key = 0 := by simp [bucket, hr, dictReset]
      omega
  subst hd₁
  have hc := h₁.chainFind_eq hT key
  rw [hp, Option.map_none] at hc
  have hw : walk d₁.type key (T (bucket d₁ key)) = none := walk_eq_none.mpr hc
  have hneg := toInt_of_ge (by omega) (bucket_lt_word d₁ key)
  have hindex : dictKeyIndex d₁ key = .ok (d₁, toInt (bucket d₁ key)) := by
    rw [bucket] at hw
    simp only [dictKeyIndex, hrun, ok_bind, dictOk, dictErr, Nat.zero_ne_one, if_false, hT.table,
      deref_some, hw]
    rfl
  simp only [dictAdd, dictAddRaw, hindex, ok_bind, hneg, if_true]
  by_cases h1 : toInt (bucket d₁ key) = -1
  · simp [h1, dictErr, dictOk]
  · simp [h1]

theorem dictFind_spec {m : Map K V} (h : Inv d m) (key : K) :
    ∃ r, dictFind d key = .ok r ∧ r.bind (entryAt d) = (m key).map (fun p => ⟨p.1, some p.2⟩) ∧
      (r = none ↔ m key = none) ∧
      ∀ p, r = some p → p.1 = bucket d key ∧ ∀ T, Filled d T → walk d.type key (T p.1) = some p.2 := by
  rcases h.shape with hr | ⟨T, hT⟩
  · have hz : d.ht.size = 0 := by rw [hr]; rfl
    have hm := h.agrees key
    have hl : lookup d key = none := by rw [lookup, hr]; rfl
    rw [hl] at hm
    have hn : m key = none := by simpa using hm.symm
    exact ⟨none, by rw [dictFind, if_pos hz], by simp [hn], by simp [hn], by simp⟩
  · have hc := h.chainFind_eq hT key
    refine ⟨(walk d.type key (T (bucket d key))).map fun place => (bucket d key, place), ?_, ?_, ?_, ?_⟩
    · rw [dictFind, if_neg (Nat.ne_of_gt hT.size_pos), hT.table]
      rfl
    · rw [← hc]
      cases hw : walk d.type key (T (bucket d key)) with
      | none => simp [walk_eq_none.mp hw]
      | some q => simp [entryAt, hT.table, walk_getElem hw]
    · rw [Option.map_eq_none_iff, walk_eq_none, hc, Option.map_eq_none_iff]
    · intro p hp
      obtain ⟨q, hq, rfl⟩ := Option.map_eq_some_iff.mp hp
      refine ⟨rfl, fun T' hT' => ?_⟩
      have : T' = T := Option.some.inj (hT'.table.symm.trans hT.table)
      rw [this]
      exact hq

theorem dictFetchValue_spec {m : Map K V} (h : Inv d m) (key : K) :
    dictFetchValue d key = .ok ((m key).map Prod.snd) := by
  obtain ⟨r, hr, hb, hn, -⟩ := dictFind_spec h key
  rw [dictFetchValue, hr, ok_bind]
  cases r with
  | none => simp [hn.mp rfl]
  | some p =>
    rw [Option.bind_some] at hb
    cases hm : m key with
    | none => simp [hm] at hn
    | some q =>
      rw [hm, Option.map_some] at hb
      simp [hb]

theorem dictReplace_absent {m : Map K V} (h : Inv d m) (ht : Lawful d.type) (hp : m key = none)
    (hidx : bucket d key < 2^31) (val : V) : ∃ d', dictReplace d key val = .ok (d', 1) ∧
      d'.type = d.type ∧ d'.ht.used = d.ht.used+1 ∧
      (d'.ht.size = d.ht.size ∨ d.ht = dictReset ∧ d'.ht.size = 4) ∧
      Inv d' (m.put d.type key (d.type.dupKey key, d.type.dupVal val)) := by
  obtain ⟨d', hrun, hrest⟩ := dictAdd_absent h ht hp hidx val
  exact ⟨d', by simp only [dictReplace, hrun, ok_bind, if_true], hrest⟩

theorem dictReplace_wide {m : Map K V} (h : Inv d m) (hp : m key = none)
    (hidx : ¬ bucket d key < 2^31) (val : V) (d' : Dict K V) :
    dictReplace d key val ≠ .ok (d', 1) := by
  intro hrun
  rw [dictReplace] at hrun
  obtain ⟨⟨d₁, ret⟩, hadd, hrun⟩ := bind_ok_iff.mp hrun
  by_cases hret : ret = dictOk
  · exact dictAdd_wide h hp hidx val d₁ (hret ▸ hadd)
  · simp only [if_neg hret] at hrun
    obtain ⟨_, -, hrun⟩ := bind_ok_iff.mp hrun
    obtain ⟨_, -, hrun⟩ := bind_ok_iff.mp hrun
    obtain ⟨_, -, hrun⟩ := bind_ok_iff.mp hrun
    simp at hrun

/-- Replacing the value of a key that is there. -/
theorem dictReplace_present {m : Map K V} (h : Inv d m) (ht : Lawful d.type) {p : K × V}
    (hp : m key = some p) (val : V) : ∃ d', dictReplace d key val = .ok (d', 0) ∧
      d'.type = d.type ∧ d'.ht.used = d.ht.used ∧ d'.ht.size = d.ht.size ∧
      Inv d' (m.put d.type key (p.1, d.type.dupVal val)) := by
  obtain ⟨T, hT⟩ := h.filled hp
  have hadd := dictAdd_present h hp val
  obtain ⟨r, hfind, -, hn, hr⟩ := dictFind_spec h key
  have hrn : r ≠ none := fun hc => by
    rw [hn.mp hc] at hp
    cases hp
  obtain ⟨⟨idx, place⟩, rfl⟩ := Option.ne_none_iff_exists'.mp hrn
  obtain ⟨rfl, hplace⟩ := hr _ rfl
  have hw := hplace T hT
  simp only at hw
  set f : DictEntry K V → DictEntry K V := fun e => { e with val := some (d.type.dupVal val) } with hf
  have hfk : ∀ e, (f e).key = e.key := fun e => rfl
  have hmodkey : ∀ e ∈ (T (bucket d key)).modify place f, ∃ e' ∈ T (bucket d key),
      e.key = e'.key ∧ (e.val ≠ none ∨ e = e') := by
    intro e he
    obtain ⟨n, hn', rfl⟩ := List.mem_iff_getElem.mp he
    rw [List.length_modify] at hn'
    refine ⟨(T (bucket d key))[n], List.getElem_mem hn', ?_⟩
    rw [List.getElem_modify]
    split
    · exact ⟨rfl, Or.inl (by simp [hf])⟩
    · exact ⟨rfl, Or.inr rfl⟩
  refine ⟨{ DictTable.setChain d T (bucket d key) ((T (bucket d key)).modify place f) with
    ht := { (DictTable.setChain d T (bucket d key) ((T (bucket d key)).modify place f)).ht with
      used := d.ht.used } }, ?_, rfl, rfl, rfl, h.setChain ht hT ?_ ?_ ?_ ?_ ?_ ?_⟩
  · simp only [dictReplace, hadd, ok_bind, dictErr, dictOk, Nat.one_ne_zero, if_false, hfind,
      deref_some, dictSetVal, hT.table]
    rfl
  · intro e he
    obtain ⟨e', he', hk, -⟩ := hmodkey e he
    rw [hk]
    exact hT.home _ e' he'
  · exact distinct_modify (hT.distinct _) f hfk
  · intro e he
    obtain ⟨e', he', -, hv | rfl⟩ := hmodkey e he
    · exact hv
    · exact hT.set _ e he'
  · rw [List.length_modify]
  · intro k hk
    have hck := h.chainFind_eq hT key
    have hcf := h.chainFind_eq hT k
    rw [hk] at hcf
    rw [chainFind_modify ht hw f hfk, hck, hcf, hp, Map.put]
    cases d.type.compareKeys key k <;> simp [hf]
  · intro k hk
    simp [Map.put, hk]

theorem dictGenericDelete_spec {m : Map K V} (h : Inv d m) (ht : Lawful d.type) (key : K)
    (nofree : Bool) :
    match m key with
    | none => dictGenericDelete d key nofree = .ok (d, dictErr, [])
    | some p => ∃ d', dictGenericDelete d key nofree =
        .ok (d', dictOk, if nofree then [] else [⟨p.1, some p.2⟩]) ∧ d'.type = d.type ∧
        d'.ht.used+1 = d.ht.used ∧ d'.ht.size = d.ht.size ∧ Inv d' (m.remove d.type key) := by
  rcases h.shape with hr | ⟨T, hT⟩
  · have hz : d.ht.size = 0 := by rw [hr]; rfl
    have hm := h.agrees key
    have hl : lookup d key = none := by rw [lookup, hr]; rfl
    rw [hl] at hm
    have hn : m key = none := by simpa using hm.symm
    simp only [hn]
    rw [dictGenericDelete, if_pos hz]
  · have hc := h.chainFind_eq hT key
    have hun := unlink_eq d.type key (T (bucket d key))
    rw [hc] at hun
    rw [dictGenericDelete, if_neg (Nat.ne_of_gt hT.size_pos), hT.table, deref_some, ok_bind,
      show d.type.hashKey key &&& d.ht.sizemask = bucket d key from rfl, hun]
    cases hp : m key with
    | none => rfl
    | some p =>
      rw [hp, Option.map_some] at hc
      have hmem : (⟨p.1, some p.2⟩ : DictEntry K V) ∈ T (bucket d key) := List.mem_of_find?_eq_some hc
      have hsat := List.find?_some hc
      have hlen := List.length_eraseP_of_mem (p := fun he => d.type.compareKeys key he.key) hmem hsat
      have hpos : 0 < (T (bucket d key)).length := List.length_pos_of_mem hmem
      have hle : (T (bucket d key)).length ≤ d.ht.used := by
        rw [hT.used, ← Finset.add_sum_erase _ _ (Finset.mem_range.mpr (hT.bucket_lt key))]
        exact Nat.le_add_right _ _
      have hsub := List.eraseP_sublist (p := fun he => d.type.compareKeys key he.key)
        (l := T (bucket d key))
      refine ⟨_, rfl, rfl, ?_, rfl, h.setChain ht hT (fun e he => ?_) ?_
        (fun e he => ?_) ?_ (fun k hk => ?_) (fun k hk => ?_)⟩
      · dsimp only [setChain]
        omega
      · exact hT.home _ e (hsub.subset he)
      · exact (hT.distinct _).sublist hsub
      · exact hT.set _ e (hsub.subset he)
      · rw [hlen]
        dsimp only [setChain]
        omega
      · have hcf := h.chainFind_eq hT k
        rw [hk] at hcf
        rw [chainFind_eraseP ht (hT.distinct _), hcf, Map.remove]
        cases d.type.compareKeys key k <;> simp
      · simp [Map.remove, hk]

theorem dictEmpty_inv (d : Dict K V) : Inv (dictEmpty d).1 fun _ => none :=
  ⟨Or.inl rfl, fun _ => rfl⟩

end Invariant

section Runs

variable {K V : Type} [DecidableEq K] {t : DictType K V} {d : Dict K V} {m : Map K V}

inductive Op (K V : Type) where
  | add (key : K) (val : V)
  | replace (key : K) (val : V)
  | delete (key : K)
  | deleteNoFree (key : K)
  | find (key : K)
  | fetchValue (key : K)
  | expand (size : ℕ)
  | resize
  | empty

/-- What a call tells about the map: a return code with the pairs handed to the
destructors, an entry, or a value. -/
inductive Res (K V : Type) where
  | code (ret : ℕ) (released : List (K × V))
  | entry (e : Option (K × V))
  | value (v : Option V)
  | done

def pairOf (e : DictEntry K V) : Option (K × V) := e.val.map fun v => (e.key, v)

def step (d : Dict K V) : Op K V → Run (Dict K V × Res K V)
  | .add key val => do
    let r ← dictAdd d key val
    .ok (r.1, .code r.2 [])
  | .replace key val => do
    let r ← dictReplace d key val
    .ok (r.1, .code r.2 [])
  | .delete key => do
    let r ← dictDelete d key
    .ok (r.1, .code r.2.1 (r.2.2.filterMap pairOf))
  | .deleteNoFree key => do
    let r ← dictDeleteNoFree d key
    .ok (r.1, .code r.2.1 (r.2.2.filterMap pairOf))
  | .find key => do
    let r ← dictFind d key
    .ok (d, .entry ((r.bind (entryAt d)).bind pairOf))
  | .fetchValue key => do
    let r ← dictFetchValue d key
    .ok (d, .value r)
  | .expand size => do
    let r ← dictExpand d size
    .ok (r.1, .done)
  | .resize => do
    let r ← dictResize d
    .ok (r.1, .done)
  | .empty => .ok ((dictEmpty d).1, .done)

def mapStep (t : DictType K V) (m : Map K V) : Op K V → Map K V × Res K V
  | .add key val => match m key with
    | none => (m.put t key (t.dupKey key, t.dupVal val), .code 0 [])
    | some _ => (m, .code 1 [])
  | .replace key val => match m key with
    | none => (m.put t key (t.dupKey key, t.dupVal val), .code 1 [])
    | some p => (m.put t key (p.1, t.dupVal val), .code 0 [])
  | .delete key => match m key with
    | none => (m, .code 1 [])
    | some p => (m.remove t key, .code 0 [p])
  | .deleteNoFree key => match m key with
    | none => (m, .code 1 [])
    | some _ => (m.remove t key, .code 0 [])
  | .find key => (m, .entry (m key))
  | .fetchValue key => (m, .value ((m key).map Prod.snd))
  | .expand _ => (m, .done)
  | .resize => (m, .done)
  | .empty => (fun _ => none, .done)

def stored (d : Dict K V) : List (DictEntry K V) :=
  d.ht.table.elim [] fun table => (List.range d.ht.size).flatMap table

/-- From here on the calls give the results of the map and the dict stores its
pairs, every one in its bucket and no two with equal keys. -/
def Refines (d : Dict K V) (m : Map K V) : List (Op K V) → Prop
  | [] => True
  | op :: ops => ∃ d', step d op = .ok (d', (mapStep d.type m op).2) ∧
    Inv d' (mapStep d.type m op).1 ∧ Distinct d'.type (stored d') ∧
      d'.ht.used = (stored d').length ∧ Refines d' (mapStep d.type m op).1 ops

/-- An insertion of a key that is not there needs a bucket index that fits an
`int`. -/
def Fits (d : Dict K V) (m : Map K V) : Op K V → Prop
  | .add key _ => m key = none → bucket d key < 2^31
  | .replace key _ => m key = none → bucket d key < 2^31
  | _ => True

def AllFit (d : Dict K V) (m : Map K V) : List (Op K V) → Prop
  | [] => True
  | op :: ops => Fits d m op ∧ ∀ d' r, step d op = .ok (d', r) →
    AllFit d' (mapStep d.type m op).1 ops

theorem Inv.stored (ht : Lawful d.type) (h : Inv d m) :
    Distinct d.type (stored d) ∧ d.ht.used = (stored d).length := by
  rcases h.shape with hr | ⟨T, hT⟩
  · have : DictMap.stored d = [] := by rw [DictMap.stored, hr]; rfl
    rw [this, hr]
    exact ⟨List.Pairwise.nil, rfl⟩
  · have hs : DictMap.stored d = (List.range d.ht.size).flatMap T := by
      rw [DictMap.stored, hT.table]
      rfl
    rw [hs]
    constructor
    · rw [Distinct, List.pairwise_flatMap]
      refine ⟨fun i _ => hT.distinct i, List.nodup_range.imp ?_⟩
      intro i j hij a ha b hb
      rw [← Bool.not_eq_true]
      intro hc
      have := bucket_congr ht hc
      rw [hT.home i a ha, hT.home j b hb] at this
      exact hij this
    · rw [List.length_flatMap, hT.used]
      rfl

theorem step_fits (ht : Lawful d.type) (h : Inv d m) {op : Op K V} (hf : Fits d m op)
    (hop : ∀ size, op = .expand size → size < 2^60) :
    ∃ d', step d op = .ok (d', (mapStep d.type m op).2) ∧
      d'.type = d.type ∧ Inv d' (mapStep d.type m op).1 := by
  cases op with
  | add key val =>
    cases hm : m key with
    | none =>
      obtain ⟨d', hrun, hty, -, -, h'⟩ := dictAdd_absent h ht hm (hf hm) val
      exact ⟨d', by simp [step, hrun, mapStep, hm, dictOk], hty, by simpa [mapStep, hm] using h'⟩
    | some p =>
      have hrun := dictAdd_present h hm val
      exact ⟨d, by simp [step, hrun, mapStep, hm, dictErr], rfl, by simpa [mapStep, hm] using h⟩
  | replace key val =>
    cases hm : m key with
    | none =>
      obtain ⟨d', hrun, hty, -, -, h'⟩ := dictReplace_absent h ht hm (hf hm) val
      exact ⟨d', by simp [step, hrun, mapStep, hm], hty, by simpa [mapStep, hm] using h'⟩
    | some p =>
      obtain ⟨d', hrun, hty, -, -, h'⟩ := dictReplace_present h ht hm val
      exact ⟨d', by simp [step, hrun, mapStep, hm], hty, by simpa [mapStep, hm] using h'⟩
  | delete key =>
    have hs := dictGenericDelete_spec h ht key false
    cases hm : m key with
    | none =>
      simp only [hm] at hs
      exact ⟨d, by simp [step, dictDelete, hs, mapStep, hm, dictErr], rfl,
        by simpa [mapStep, hm] using h⟩
    | some p =>
      simp only [hm] at hs
      obtain ⟨d', hrun, hty, -, -, h'⟩ := hs
      exact ⟨d', by simp [step, dictDelete, hrun, mapStep, hm, dictOk, pairOf], hty,
        by simpa [mapStep, hm] using h'⟩
  | deleteNoFree key =>
    have hs := dictGenericDelete_spec h ht key true
    cases hm : m key with
    | none =>
      simp only [hm] at hs
      exact ⟨d, by simp [step, dictDeleteNoFree, hs, mapStep, hm, dictErr], rfl,
        by simpa [mapStep, hm] using h⟩
    | some p =>
      simp only [hm] at hs
      obtain ⟨d', hrun, hty, -, -, h'⟩ := hs
      exact ⟨d', by simp [step, dictDeleteNoFree, hrun, mapStep, hm, dictOk], hty,
        by simpa [mapStep, hm] using h'⟩
  | find key =>
    obtain ⟨r, hr, hb, -⟩ := dictFind_spec h key
    refine ⟨d, ?_, rfl, h⟩
    simp only [step, hr, ok_bind, hb, mapStep]
    cases m key <;> rfl
  | fetchValue key =>
    exact ⟨d, by simp [step, dictFetchValue_spec h key, mapStep], rfl, h⟩
  | expand size =>
    obtain ⟨d', ret, hrun, hty, h', -⟩ := dictExpand_spec h size fun _ => hop size rfl
    exact ⟨d', by simp [step, hrun, mapStep], hty, h'⟩
  | resize =>
    obtain ⟨d', ret, hrun, hty, h', -⟩ := dictExpand_spec h
      (if toInt d.ht.used < dictHtInitialSize then dictHtInitialSize else (toInt d.ht.used).toNat)
      (fun hr => by
        have h0 : d.ht.used = 0 := by rw [hr]; rfl
        rw [h0]
        decide)
    exact ⟨d', by simp only [step, dictResize, hrun, ok_bind, mapStep], hty, h'⟩
  | empty => exact ⟨_, rfl, rfl, dictEmpty_inv d⟩

theorem step_wide (h : Inv d m) {op : Op K V} (hf : ¬ Fits d m op) (d' : Dict K V) :
    step d op ≠ .ok (d', (mapStep d.type m op).2) := by
  intro hs
  cases op with
  | add key val =>
    simp only [Fits, Classical.not_imp] at hf
    simp only [step, mapStep, hf.1] at hs
    obtain ⟨⟨d₁, ret⟩, hrun, hr⟩ := bind_ok_iff.mp hs
    simp only [Except.ok.injEq, Prod.mk.injEq, Res.code.injEq, and_true] at hr
    rw [hr.2] at hrun
    exact dictAdd_wide h hf.1 hf.2 val d₁ hrun
  | replace key val =>
    simp only [Fits, Classical.not_imp] at hf
    simp only [step, mapStep, hf.1] at hs
    obtain ⟨⟨d₁, ret⟩, hrun, hr⟩ := bind_ok_iff.mp hs
    simp only [Except.ok.injEq, Prod.mk.injEq, Res.code.injEq, and_true] at hr
    rw [hr.2] at hrun
    exact dictReplace_wide h hf.1 hf.2 val d₁ hrun
  | delete key | deleteNoFree key | find key | fetchValue key | expand size | resize | empty =>
    exact hf trivial

theorem refines_iff (ht : Lawful d.type) (h : Inv d m) (ops : List (Op K V))
    (hops : ∀ size, .expand size ∈ ops → size < 2^60) :
    Refines d m ops ↔ AllFit d m ops := by
  induction ops generalizing d m with
  | nil => exact Iff.rfl
  | cons op ops ih =>
    have hop : ∀ size, op = .expand size → size < 2^60 := fun size hs => hops size (by simp [hs])
    have hrest : ∀ size, .expand size ∈ ops → size < 2^60 := fun size hs =>
      hops size (List.mem_cons_of_mem _ hs)
    simp only [Refines, AllFit]
    by_cases hf : Fits d m op
    · obtain ⟨d', hrun, hty, h'⟩ := step_fits ht h hf hop
      have ht' : Lawful d'.type := hty ▸ ht
      constructor
      · rintro ⟨d₁, hrun₁, -, -, -, hr⟩
        refine ⟨hf, fun d₂ r hrun₂ => ?_⟩
        rw [hrun₁, Except.ok.injEq, Prod.mk.injEq] at hrun₂
        rw [hrun, Except.ok.injEq, Prod.mk.injEq] at hrun₁
        obtain ⟨rfl, -⟩ := hrun₂
        obtain ⟨rfl, -⟩ := hrun₁
        exact (ih ht' h' hrest).mp hr
      · rintro ⟨-, hr⟩
        have hs := h'.stored ht'
        exact ⟨d', hrun, h', hs.1, hs.2, (ih ht' h' hrest).mpr (hr d' _ hrun)⟩
    · constructor
      · rintro ⟨d', hrun, -⟩
        exact absurd hrun (step_wide h hf d')
      · rintro ⟨hfit, -⟩
        exact absurd hfit hf

/-- Runs from `dictCreate` are runs of a map exactly when no insertion of a new
key meets a bucket index from 2^31 upwards. -/
theorem dict_refines_map (t : DictType K V) (ht : Lawful t) (ops : List (Op K V))
    (hops : ∀ size, .expand size ∈ ops → size < 2^60) :
    Refines (dictCreate t) (fun _ => none) ops ↔ AllFit (dictCreate t) (fun _ => none) ops :=
  refines_iff ht (dictCreate_inv t) ops hops

end Runs

section Wide

def allOnes : DictType Unit ℕ := ⟨fun _ => 2^32-1, none, none, none⟩

theorem allOnes_lawful : Lawful allOnes :=
  ⟨fun _ => rfl, fun _ _ _ => rfl, fun _ _ _ _ _ => rfl, fun _ _ _ => rfl, fun _ => rfl⟩

/-- In a table of 2^32 buckets the key is taken for one that exists. -/
theorem dict_refines_map_fails :
    ¬ Refines (dictCreate allOnes) (fun _ => none) [.expand (2^32), .add () 7] := by
  rw [refines_iff allOnes_lawful (dictCreate_inv allOnes) _ (by simp)]
  rintro ⟨-, h⟩
  have hrun : step (dictCreate allOnes) (.expand (2^32)) =
      .ok (⟨allOnes, some fun _ => [], 2^32, 2^32-1, 0⟩, .done) := rfl
  have hfit := (h _ _ hrun).1 rfl
  exact absurd hfit (by decide)

theorem allFit_of_hash {K V : Type} [DecidableEq K] {d : Dict K V} {m : Map K V} (h : Inv d m)
    (ht : Lawful d.type) (hhash : ∀ k, d.type.hashKey k < 2^31) (ops : List (Op K V))
    (hops : ∀ size, .expand size ∈ ops → size < 2^60) : AllFit d m ops := by
  have hbucket (k : K) : bucket d k < 2^31 := Nat.lt_of_le_of_lt Nat.and_le_left (hhash k)
  induction ops generalizing d m with
  | nil => trivial
  | cons op ops ih =>
    have hfit : Fits d m op := by
      cases op with
      | add key val => exact fun _ => hbucket key
      | replace key val => exact fun _ => hbucket key
      | delete key | deleteNoFree key | find key | fetchValue key | expand size | resize | empty =>
        exact trivial
    refine ⟨hfit, fun d' r hrun => ?_⟩
    obtain ⟨d₁, hrun₁, hty, h₁⟩ := step_fits ht h hfit fun size hs => hops size (by simp [hs])
    rw [hrun₁, Except.ok.injEq, Prod.mk.injEq] at hrun
    obtain ⟨rfl, -⟩ := hrun
    have hhash₁ : ∀ k, d₁.type.hashKey k < 2^31 := hty ▸ hhash
    exact ih h₁ (hty ▸ ht) hhash₁ (fun size hs => hops size (List.mem_cons_of_mem _ hs))
      fun k => Nat.lt_of_le_of_lt Nat.and_le_left (hhash₁ k)

def colliding : DictType Bool ℕ := ⟨fun _ => 5, none, none, none⟩

theorem colliding_lawful : Lawful colliding :=
  ⟨by decide, by decide, by decide, by decide, by decide⟩

/-- The keys share a chain; the first one is taken out of it and put back. -/
theorem dict_refines_map_colliding :
    Refines (dictCreate colliding) (fun _ => none)
      [.add true 7, .add false 8, .delete true, .find false, .fetchValue true, .add true 9] :=
  (dict_refines_map colliding colliding_lawful _ (by simp)).mpr
    (allFit_of_hash (dictCreate_inv colliding) colliding_lawful
      (fun _ => (by decide : 5 % 2^32 < 2^31)) _ (by simp))

end Wide

end CLearning.DictMap
