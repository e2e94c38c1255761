import CLearning.MempoolFree

/-!
# The initial state

What `mempool_init_extra` returns satisfies the invariant, whatever its
arguments are, as long as the pool has room for a block.
-/

set_option autoImplicit false

namespace CLearning.MempoolInit
open CLearning.Machine CLearning.LinkedLists CLearning.MempoolBytes CLearning.MempoolPool
open CLearning.MempoolHeap CLearning.MempoolServe CLearning.MpHash CLearning.MempoolState
open CLearning.Mempool CLearning.MempoolChain CLearning.MempoolRegistry CLearning.MempoolCore
open CLearning.MempoolGrow CLearning.MempoolAlloc CLearning.MempoolFree

section Init

variable {env : Env} {h h' : Heap} {c c' : Config} {a maxmem : ℕ}

/-- What the process owns before the pool is made. -/
structure Clean (h : Heap) : Prop where
  apart : h.live.Pairwise Chunk.Apart
  range : ∀ c ∈ h.live, 0 < c.addr ∧ c.addr % 16 = 0 ∧ c.addr+max c.size 1 ≤ 2^64
  other : ∀ c ∈ h.live, c.kind = .other

theorem initSize_le (size : ℕ) : initSize size ≤ 65536 := by
  unfold initSize mempoolMaxsize mempoolGetpagesize mempoolDefaultPoolsize
  grind

theorem initSize_again (size : ℕ) : initSize (initSize size) = initSize size := by
  unfold initSize mempoolMaxsize mempoolGetpagesize mempoolDefaultPoolsize memalign
  grind

theorem insertAddr_first {t : Option (Table ℕ)} {free : Bool} (h : Registers t free [])
    (ha : AddrOk a) :
    ∃ t' r, insertAddr t a = .ok (t', r) ∧ (t' = none ↔ t = none) ∧
      Registers t' free (if t' = none then [] else [a]) := by
  cases t with
  | none => exact ⟨none, -1, rfl, Iff.rfl, rfl⟩
  | some t =>
    obtain ⟨hfree, -, L, S, h⟩ := h
    obtain ⟨t', L', S', hrun, h', hk⟩ := h.step (.insert a)
    obtain ⟨⟨t'', r⟩, hins, hres⟩ := bind_ok_iff.mp hrun
    rw [Except.ok.injEq, Prod.mk.injEq] at hres
    obtain ⟨rfl, hres⟩ := hres
    have hpos : ([] : List ℕ).length < t.num_buckets := Nat.lt_of_le_of_lt (Nat.zero_le _) h.short
    have hroom : ([] : List ℕ).length < t.num_buckets ∧
        ∀ x ∈ ([] : List ℕ), hashMemcmp a x ≠ 0 := ⟨hpos, by simp⟩
    simp only [MpHashSet.setStep, if_pos hroom] at h'
    refine ⟨some t'', r, ?_, by simp, ?_⟩
    · rw [insertAddr, if_neg (Nat.ne_of_gt ha.1), hins, ok_bind]
    · rw [if_neg (by simp)]
      exact ⟨hk.2.2.2.2.trans hfree, by simpa using ha, L', S', h'⟩

theorem mempoolSetMaxmem_pool_size (hrun : mempoolSetMaxmem env a c h maxmem = .ok (c', h')) :
    c'.pool_size = c.pool_size := by
  rw [mempoolSetMaxmem] at hrun
  generalize max (min (maxmem % 2^56) mempoolMaxTotal) c.pool_size = m at *
  split at hrun
  · rw [rebuildTables] at hrun
    obtain ⟨h₁, -, hrun⟩ := bind_ok_iff.mp hrun
    obtain ⟨h₂, -, hrun⟩ := bind_ok_iff.mp hrun
    by_cases hz : c.pool_size = 0
    · rw [if_pos hz] at hrun
      cases hrun
    · rw [if_neg hz] at hrun
      obtain ⟨t, -, hrun⟩ := bind_ok_iff.mp hrun
      obtain ⟨r, -, hrun⟩ := bind_ok_iff.mp hrun
      obtain ⟨lt, -, hrun⟩ := bind_ok_iff.mp hrun
      rw [Except.ok.injEq, Prod.mk.injEq] at hrun
      rw [← hrun.1]
  · rw [Except.ok.injEq, Prod.mk.injEq] at hrun
    rw [← hrun.1]

/-- What `mempool_set_maxmem` makes of the limits. -/
theorem mempoolSetMaxmem_first (hsz : 208 ≤ c.pool_size ∧ c.pool_size ≤ 65536)
    (hht : c.ht = none) (hlt : c.largeht = none) (ha : AddrOk a)
    (hrun : mempoolSetMaxmem env a c h maxmem = .ok (c', h')) :
    h'.live = h.live ∧ c'.pool_size = c.pool_size ∧ c'.pool_size ≤ c'.max_memsize ∧
      c'.max_memsize ≤ mempoolMaxTotal ∧
      Registers c'.ht false (if c'.ht = none then [] else [a]) ∧ Registers c'.largeht true [] := by
  have hlow : c.pool_size ≤ max (min (maxmem % 2^56) mempoolMaxTotal) c.pool_size :=
    Nat.le_max_right _ _
  have hhigh : max (min (maxmem % 2^56) mempoolMaxTotal) c.pool_size ≤ mempoolMaxTotal := by
    rw [mempoolMaxTotal]
    omega
  rw [mempoolSetMaxmem] at hrun
  generalize max (min (maxmem % 2^56) mempoolMaxTotal) c.pool_size = m at *
  split at hrun
  · rw [rebuildTables] at hrun
    simp only [hht, hlt, tableAddrs, Heap.freeAll, ok_bind] at hrun
    rw [if_neg (by omega)] at hrun
    obtain ⟨t, ht, hrun⟩ := bind_ok_iff.mp hrun
    have hdiv : 1 ≤ m / c.pool_size ∧ m / c.pool_size ≤ 2^30 := by
      refine ⟨(Nat.one_le_div_iff (by omega)).mpr hlow, ?_⟩
      apply Nat.div_le_of_le_mul
      rw [mempoolMaxTotal] at hhigh
      omega
    have h2 : 2 ≤ (m / c.pool_size+1) % 2^32 ∧ (m / c.pool_size+1) % 2^32 ≤ 2^31 := by
      rw [Nat.mod_eq_of_lt (by omega)]
      omega
    have hr := registers_created h2.1 h2.2 ht
    obtain ⟨t', r, hins, -, hreg⟩ := insertAddr_first hr ha
    rw [hins, ok_bind] at hrun
    obtain ⟨lt, hlt', hrun⟩ := bind_ok_iff.mp hrun
    have hlr := registers_created h2.1 h2.2 hlt'
    rw [Except.ok.injEq, Prod.mk.injEq] at hrun
    obtain ⟨rfl, rfl⟩ := hrun
    exact ⟨rfl, rfl, hlow, hhigh, hreg, hlr⟩
  · rw [Except.ok.injEq, Prod.mk.injEq] at hrun
    obtain ⟨rfl, rfl⟩ := hrun
    refine ⟨rfl, rfl, hlow, hhigh, ?_, ?_⟩
    · rw [hht, if_pos rfl]
      rfl
    · rw [hlt]
      rfl

/-- The state `s` was made by `mempool_init_extra`. -/
def Start (env : Env) (s : State) : Prop :=
  ∃ h h' size maxmem single_max max_freepool max_searchpool judge_alloc a f, Clean h ∧
    mempoolInitExtra env h size maxmem single_max max_freepool max_searchpool judge_alloc =
      .ok (h', some (a, f)) ∧ s = f.state a h'

/-- `sizeof(mempool_t)+sizeof(realdata_t)` is less than the pool size. -/
def Roomy (s : State) : Prop := mempoolSize+realdataSize < s.config.pool_size

/-- A base pool on its own satisfies the invariant. -/
theorem fresh_core {cfg : Config} {p : Pool} {M : List ℕ} (hcfg : ConfigOk cfg)
    (hp : PoolInv p []) (hprev : p.prev = none) (hnext : p.next = none)
    (hsz : p.pool_size = cfg.pool_size) (hap : h.live.Pairwise Chunk.Apart)
    (hrange : ∀ c ∈ h.live, 0 < c.addr ∧ c.addr % 16 = 0 ∧ c.addr+max c.size 1 ≤ 2^64)
    (hown : ∀ c, (c ∈ h.live ∧ c.kind ≠ .other) ↔ c = ⟨a, cfg.pool_size, .pool⟩)
    (hht : Registers cfg.ht false M) (hlt : Registers cfg.largeht true [])
    (hM : ∀ x ∈ M, x = a) (hreg : cfg.ht ≠ none → a ∈ M) :
    Core (Fresh.state ⟨cfg, ⟨none, none, 0, p.leftsize, 0, false⟩, p⟩ a h) [] [] [] [] M
        (fun _ => []) ∧
      Acct (Fresh.state ⟨cfg, ⟨none, none, 0, p.leftsize, 0, false⟩, p⟩ a h) [] [] ∧
      Registered (Fresh.state ⟨cfg, ⟨none, none, 0, p.leftsize, 0, false⟩, p⟩ a h) [] M := by
  have hchain : Chain (Fresh.state ⟨cfg, ⟨none, none, 0, p.leftsize, 0, false⟩, p⟩ a h) [] [] :=
    { family :=
        { seg := fun r => by
            cases r with
            | linked => exact ⟨hprev, hnext, trivial⟩
            | parked => trivial
          head_eq := fun r => by cases r <;> rfl
          nodup := fun r => by cases r <;> simp [rings]
          disjoint := fun r r' hrr x _ => by
            cases r with
            | linked =>
              cases r' with
              | linked => exact absurd rfl hrr
              | parked => exact List.not_mem_nil
            | parked => simp_all [rings] }
      tail := rfl
      count := rfl }
  refine ⟨?_, ⟨?_, ?_, rfl, ?_⟩, fun hne x hx => ?_⟩
  · exact
      { config := hcfg
        chain := hchain
        out := by simp
        size := fun _ _ => hsz
        inv := fun _ _ => hp
        idle := by simp
        few := by decide
        apart := hap
        range := hrange
        owned := by
          intro c
          apply (hown c).trans
          show _ ↔ (∃ x ∈ [a], c = ⟨x, cfg.pool_size, .pool⟩) ∨ ∃ x ∈ ([] : List ℕ), _
          simp
        ht := hht
        largeht := hlt
        registered := by
          intro x hx
          rw [hM x hx]
          exact List.mem_cons_self }
  · show 0 = cfg.pool_size*0+0
    omega
  · show p.leftsize = p.leftsize+0
    omega
  · show 0 < 2^36
    decide
  · rw [List.mem_singleton.mp hx]
    exact hreg hne

theorem start_core {s : State} (hs : Start env s) (hr : Roomy s) :
    ∃ M, Core s [] [] [] [] M (fun _ => []) ∧ Acct s [] [] ∧ Registered s [] M := by
  obtain ⟨h, h', size, maxmem, single_max, max_freepool, max_searchpool, judge_alloc, a, f, hclean,
    hrun, rfl⟩ := hs
  rw [mempoolInitExtra] at hrun
  have hle := initSize_le size
  have hagain := initSize_again size
  generalize initSize size = n at *
  rcases malloc_spec env h n .pool with hm | ⟨a', hm, h0, hal, hap⟩
  · simp [hm] at hrun
  simp only [hm] at hrun
  obtain ⟨⟨c', h''⟩, hset, hrun⟩ := bind_ok_iff.mp hrun
  rw [Except.ok.injEq, Prod.mk.injEq, Option.some_inj, Prod.mk.injEq] at hrun
  obtain ⟨rfl, rfl, rfl⟩ := hrun
  have hcn : c'.pool_size = n := mempoolSetMaxmem_pool_size hset
  have hroom : mempoolSize+realdataSize < c'.pool_size := hr
  rw [hcn, mempoolSize, realdataSize] at hroom
  have hset' := fun ha => mempoolSetMaxmem_first (by exact ⟨hroom, hle⟩) rfl rfl ha hset
  clear hset hr
  obtain ⟨hlive, -, hlow, hhigh, hreg, hlreg⟩ := hset' ⟨h0, by omega⟩
  have hok : SizeOk n := ⟨hroom, hle⟩
  obtain ⟨hinv, -, -, -, -, -, hsame⟩ := initMempool_spec (p :=
    { freelist := fun _ => none, busylist := none, prev := none, next := none, pool_size := n,
      leftsize := 0, failed := 0, data := (env.junk h.tick).data }) hok
  generalize initMempool _ = p at *
  have hcfg : ConfigOk { mempoolSetSingleMax c' single_max with
      max_freepool := min max_freepool mempoolFreepoolMax % 2^8
      max_searchpool := max_searchpool
      judge_alloc := judge_alloc } := by
    refine ⟨hcn.symm ▸ hok, ?_, Nat.mod_lt _ (by decide), hlow, hhigh⟩
    show initSize c'.pool_size = c'.pool_size
    rw [hcn]
    exact hagain
  refine ⟨if c'.ht = none then [] else [a'], fresh_core hcfg ⟨_, _, hinv, rfl⟩ (by rw [hsame])
    (by rw [hsame]) ((by rw [hsame] : p.pool_size = n).trans hcn.symm) ?_ ?_ ?_ hreg hlreg ?_ ?_⟩
  · rw [hlive]
    exact List.pairwise_cons.mpr ⟨hap, hclean.apart⟩
  · rw [hlive]
    intro c hc
    rcases List.mem_cons.mp hc with rfl | hc
    · exact ⟨h0, hal⟩
    · exact hclean.range c hc
  · intro c
    show (c ∈ h''.live ∧ c.kind ≠ .other) ↔ c = ⟨a', c'.pool_size, .pool⟩
    rw [hlive, hcn]
    constructor
    · rintro ⟨hc, hk⟩
      rcases List.mem_cons.mp hc with rfl | hc
      · rfl
      · exact absurd (hclean.other c hc) hk
    · rintro rfl
      exact ⟨List.mem_cons_self, by simp⟩
  · intro x hx
    split at hx
    · cases hx
    · exact List.mem_singleton.mp hx
  · intro hne
    have hne' : ¬c'.ht = none := hne
    rw [if_neg hne']
    exact List.mem_singleton_self _

end Init

end CLearning.MempoolInit
