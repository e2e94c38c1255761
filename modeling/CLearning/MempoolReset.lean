import CLearning.MempoolCap

/-!
# Reconfiguring a pool

A new `max_memsize` makes new registries: the old registry of large chunks
releases them, and of the pools only the base pool is registered again.
-/

set_option autoImplicit false

namespace CLearning.MempoolReset
open CLearning.Machine CLearning.LinkedLists CLearning.MempoolBytes CLearning.MempoolPool
open CLearning.MempoolHeap CLearning.MempoolServe CLearning.MpHash CLearning.MempoolState
open CLearning.Mempool CLearning.MempoolChain CLearning.MempoolRegistry CLearning.MempoolCore
open CLearning.MempoolGrow CLearning.MempoolAlloc CLearning.MempoolFree
open CLearning.MempoolStore CLearning.MempoolInit CLearning.MempoolFresh CLearning.MempoolRun
open CLearning.MempoolAppend CLearning.MempoolCache CLearning.MempoolTables
open CLearning.MempoolFailure CLearning.MempoolLaws

section Rebuild

variable {env : Env} {s s' : State} {ps fs ls ls' M M' : List ℕ} {B : ℕ → List ℕ} {maxmem : ℕ}

def setMaxmem (env : Env) (s : State) (maxmem : ℕ) : Run State := do
  let r ← mempoolSetMaxmem env s.base s.config s.heap maxmem
  .ok { s with config := r.1, heap := r.2 }

def Rebuilds (s : State) (maxmem : ℕ) : Prop := maxmem > 0 ∧ maxmem ≠ s.config.max_memsize

instance (s : State) (maxmem : ℕ) : Decidable (Rebuilds s maxmem) :=
  inferInstanceAs (Decidable (_ ∧ _))

structure SameMemory (s s' : State) : Prop where
  base : s'.base = s.base
  pools : s'.pools = s.pools
  larges : s'.larges = s.larges
  property : s'.property = s.property
  pool_size : s'.config.pool_size = s.config.pool_size

theorem configOk_limits {c c' : Config} (h : ConfigOk c) (hs : c'.pool_size = c.pool_size)
    (hf : c'.max_freepool = c.max_freepool)
    (hm : c'.max_memsize = max (min (maxmem % 2^56) mempoolMaxTotal) c.pool_size) :
    ConfigOk c' where
  size := hs ▸ h.size
  again := by rw [hs, h.again]
  freepool := hf ▸ h.freepool
  low := by
    rw [hs, hm]
    exact Nat.le_max_right _ _
  high := by
    have hsz := h.size.2
    rw [hm, mempoolMaxTotal]
    omega

theorem setMaxmem_plain (hc : Core s ps fs [] ls M B) (h : ¬Rebuilds s maxmem) :
    ∃ s', setMaxmem env s maxmem = .ok s' ∧ Core s' ps fs [] ls M B ∧ SameMemory s s' ∧
      s'.config.ht = s.config.ht := by
  rw [Rebuilds] at h
  rw [setMaxmem, mempoolSetMaxmem, if_neg h, ok_bind]
  refine ⟨_, rfl, ?_, ⟨rfl, rfl, rfl, rfl, rfl⟩, rfl⟩
  exact
    { config := @configOk_limits maxmem _ _ hc.config rfl rfl rfl
      chain := @Chain.congr s { s with config := _ } ps fs hc.chain rfl rfl rfl rfl
        (fun _ => rfl) (fun _ => rfl)
      out := hc.out
      size := hc.size
      inv := hc.inv
      idle := hc.idle
      few := hc.few
      apart := hc.apart
      range := hc.range
      owned := hc.owned
      ht := hc.ht
      largeht := hc.largeht
      registered := hc.registered }

theorem create_total {n : ℕ} {free : Bool} {calloc : Fin 3 → Bool} (h2 : 2 ≤ n) (hn : n ≤ 2^31) :
    ∃ t, mpHashTableCreate hashMemaddr (some hashMemcmp) free n calloc = .ok t := by
  rcases @MpHashRep.mpHashTableCreate_spec ℕ n hashMemaddr (some hashMemcmp) free calloc h2 hn with
    ⟨hrun, -⟩ | ⟨m, -, -, hrun⟩
  · exact ⟨_, hrun⟩
  · exact ⟨_, hrun⟩

/-- After the rebuilding the large chunks are gone, and the registry of pools holds the
base pool if there was memory for it. -/
theorem setMaxmem_rebuilds (hc : Core s ps fs [] ls M B) (h : Rebuilds s maxmem) :
    ∃ s' M', setMaxmem env s maxmem = .ok s' ∧ Core s' ps fs [] [] M' B ∧ SameMemory s s' ∧
      M' = if ∀ i, env.calloc s.heap.tick i = true then [s.base] else [] := by
  set m := max (min (maxmem % 2^56) mempoolMaxTotal) s.config.pool_size with hm
  have hcfg := hc.config
  have hsz := hcfg.size
  simp only [SizeOk, mempoolSize, realdataSize] at hsz
  have hlow : s.config.pool_size ≤ m := Nat.le_max_right _ _
  have hhigh : m ≤ mempoolMaxTotal := by
    rw [hm, mempoolMaxTotal]
    omega
  have hdiv : 1 ≤ m / s.config.pool_size ∧ m / s.config.pool_size ≤ 2^30 := by
    refine ⟨(Nat.one_le_div_iff (by omega)).mpr hlow, ?_⟩
    apply Nat.div_le_of_le_mul
    rw [mempoolMaxTotal] at hhigh
    omega
  have h2 : 2 ≤ (m / s.config.pool_size+1) % 2^32 ∧ (m / s.config.pool_size+1) % 2^32 ≤ 2^31 := by
    rw [Nat.mod_eq_of_lt (by omega)]
    omega
  have hbase : AddrOk s.base := by
    obtain ⟨-, h0, hend, -⟩ := pool_range hc (b := s.base) List.mem_cons_self
    exact ⟨h0, by omega⟩
  -- what is released: no pool, and every large chunk
  set ts := tableAddrs s.config.largeht with hts
  have hperm : ts.Perm ls := tableAddrs_spec hc.largeht
  have hht : tableAddrs s.config.ht = [] := (tableAddrs_spec hc.ht).eq_nil
  have hnd : (ts.map (largeChunk s)).Nodup :=
    List.Nodup.map (fun x y h => congrArg Chunk.addr h) (hperm.nodup_iff.mpr hc.largeht.nodup)
  obtain ⟨l, hfree, hsub, hl⟩ := freeAll_spec (ts.map (largeChunk s)) hc.apart hnd (by
    simp only [List.mem_map, hperm.mem_iff]
    rintro c ⟨a, ha, rfl⟩
    exact hc.large_live ha)
  rw [List.map_map, show Chunk.addr ∘ largeChunk s = id from rfl, List.map_id] at hfree
  -- the new registries
  obtain ⟨t, ht⟩ := @create_total _ false (env.calloc s.heap.tick) h2.1 h2.2
  obtain ⟨lt, hlt⟩ := @create_total _ true (env.calloc (s.heap.tick+1)) h2.1 h2.2
  obtain ⟨t', r, hins, hnone, hreg⟩ := insertAddr_first (registers_created h2.1 h2.2 ht) hbase
  have hlreg := registers_created h2.1 h2.2 hlt
  have hmade := created_iff (by omega) ht
  have hrun : setMaxmem env s maxmem = .ok { s with
      config := { s.config with
        max_memsize := m
        single_max := if s.config.single_max > m then m else s.config.single_max
        ht := t'
        largeht := lt }
      heap := ⟨l, s.heap.tick+2⟩ } := by
    rw [Rebuilds] at h
    rw [setMaxmem, mempoolSetMaxmem, if_pos h, rebuildTables]
    dsimp only
    rw [← hm, hht, Heap.freeAll, ok_bind, ← hts, hfree, ok_bind, if_neg (by omega)]
    dsimp only
    rw [ht, ok_bind, hins, ok_bind, hlt]
    rfl
  refine ⟨_, if t' = none then [] else [s.base], hrun, ?_, ⟨rfl, rfl, rfl, rfl, rfl⟩, ?_⟩
  · exact
      { config := @configOk_limits maxmem _ _ hc.config rfl rfl rfl
        chain := @Chain.congr s { s with config := _, heap := _ } ps fs hc.chain rfl rfl rfl rfl
          (fun _ => rfl) (fun _ => rfl)
        out := hc.out
        size := hc.size
        inv := hc.inv
        idle := hc.idle
        few := hc.few
        apart := hc.apart.sublist hsub
        range := fun c hcl => hc.range c (hsub.subset hcl)
        owned := by
          intro c
          have hold := hc.owned c
          show (c ∈ l ∧ c.kind ≠ .other) ↔
            (∃ x ∈ s.base :: ps ++ fs ++ [], c = poolChunk s x) ∨ ∃ x ∈ [], c = largeChunk s x
          rw [hl]
          simp only [List.mem_map, hperm.mem_iff, not_exists, not_and, List.not_mem_nil, false_and,
            exists_false, or_false]
          constructor
          · rintro ⟨⟨hcl, hno⟩, hk⟩
            rcases hold.mp ⟨hcl, hk⟩ with h | ⟨x, hx, rfl⟩
            · exact h
            · exact absurd rfl (hno x hx)
          · rintro ⟨x, hx, rfl⟩
            have := hold.mpr (Or.inl ⟨x, hx, rfl⟩)
            refine ⟨⟨this.1, fun y _ he => ?_⟩, this.2⟩
            have hk := congrArg Chunk.kind he
            cases hk
        ht := hreg
        largeht := hlreg
        registered := by
          intro a ha
          split at ha
          · cases ha
          · rw [List.mem_singleton.mp ha]
            exact List.mem_append_left _ List.mem_cons_self }
  · by_cases hnil : t' = none
    · rw [if_pos hnil, if_neg]
      exact fun hall => hmade.mpr hall (hnone.mp hnil)
    · rw [if_neg hnil, if_pos]
      exact hmade.mp fun hn => hnil (hnone.mpr hn)

end Rebuild

section Survivors

variable {env : Env} {s s' : State} {live ps fs ls ls' M M' : List ℕ} {B : ℕ → List ℕ}
  {a b i o x maxmem : ℕ}

theorem load_small (env : Env) (hc : Core s ps fs [] ls M B) (hb : b ∈ s.base :: ps) (ho : o ∈ B b)
    (hi : Covers (smallView s b o) (payload b o) i) :
    s.load env i = (s.pools b).data (i-b-mempoolSize) := by
  obtain ⟨hlo, hhi⟩ := covers_small hi
  obtain ⟨-, hle, -, -⟩ := block_bounds hc hb ho
  obtain ⟨hlive, -, -, h208⟩ := pool_range hc hb
  have hloc := locate_unique (a := i) (n := 1) hc.apart hlive (by decide)
    (by simp only [poolChunk]; omega) (by simp only [poolChunk, mempoolSize] at *; omega)
  have hge : b+mempoolSize ≤ i := by omega
  simp only [poolChunk, hge, if_true] at hloc
  rw [State.load, hloc]

theorem load_large (env : Env) (hc : Core s ps fs [] ls M B) (ha : a ∈ ls)
    (hi : Covers (largeView s a) (a+largeSize) i) : s.load env i = s.larges a (i-a) := by
  obtain ⟨hlo, hhi⟩ := covers_large hi
  have hloc := locate_unique (a := i) (n := 1) hc.apart (hc.large_live ha) (by decide) hlo
    (by simp only [largeChunk]; omega)
  simp only [largeChunk] at hloc
  rw [State.load, hloc]

def Survives (env : Env) (s s' : State) (x : ℕ) : Prop :=
  ∃ v, view s x = some v ∧ view s' x = some v ∧
    (∀ i, Covers v x i → s'.load env i = s.load env i) ∧
    pdatasize s' x = .ok (toInt32 (usub 32 v.size v.header)) ∧
    ∃ t, pfree s' x = .ok (t, 0) ∧ ¬Live t x

theorem survives_small (env : Env) (hc : Core s ps fs [] ls M B) (hc' : Core s' ps fs [] ls' M' B)
    (h : SameMemory s s') (hb : b ∈ s.base :: ps) (ho : o ∈ B b) :
    Survives env s s' (payload b o) ↔ b ∈ M' := by
  have hb' : b ∈ s'.base :: ps := h.base.symm ▸ hb
  have hview : smallView s' b o = smallView s b o := by
    rw [smallView, smallView, h.pools]
  obtain ⟨hno, hyes⟩ := pfree_small hc' hb' ho
  constructor
  · rintro ⟨v, -, -, -, -, t, hfree, -⟩
    by_contra hM
    rw [hno hM, Except.ok.injEq, Prod.mk.injEq] at hfree
    exact absurd hfree.2 (by decide)
  · intro hM
    refine ⟨_, view_small hc hb ho, hview ▸ view_small hc' hb' ho, fun i hi => ?_, ?_, ?_⟩
    · rw [load_small env hc hb ho hi, load_small env hc' hb' ho (hview.symm ▸ hi), h.pools]
    · rw [pdatasize, if_neg (payload_pos hc' hb')]
      simp only [checkLarge_small hc' hb' ho, checkRealdata_small hc' hb' ho, ok_bind,
        Bool.false_eq_true, if_false, if_pos hM, h.pools]
      rfl
    · obtain ⟨t, ps₁, fs₁, M₁, B₁, hfree, hct, hr, -⟩ := hyes hM
      refine ⟨t, hfree, ?_⟩
      rw [live_iff hct, released_block hc' hb' ho hr]
      exact fun h => h.2 rfl

theorem survives_large (env : Env) (hc : Core s ps fs [] ls M B) (hc' : Core s' ps fs [] ls' M' B)
    (h : SameMemory s s') (ha : a ∈ ls) : Survives env s s' (a+largeSize) ↔ a ∈ ls' := by
  have hview : largeView s' a = largeView s a := by
    rw [largeView, largeView, h.larges]
  constructor
  · rintro ⟨v, hv, hv', -⟩
    rw [view_large hc ha, Option.some_inj] at hv
    subst hv
    rw [view] at hv'
    split at hv'
    · next hany =>
      simp only [List.any_eq_true, Bool.and_eq_true, decide_eq_true_eq] at hany
      obtain ⟨c, hcl, hk, haddr⟩ := hany
      rcases (hc'.owned c).mp ⟨hcl, by rw [hk]; decide⟩ with ⟨y, -, rfl⟩ | ⟨y, hy, rfl⟩
      · cases hk
      · have : y = a := Nat.add_right_cancel haddr
        exact this ▸ hy
    · split at hv'
      · rw [Option.some_inj, largeView] at hv'
        cases congrArg View.large hv'
      · cases hv'
  · intro ha'
    refine ⟨_, view_large hc ha, hview ▸ view_large hc' ha', fun i hi => ?_, ?_, ?_⟩
    · rw [load_large env hc ha hi, load_large env hc' ha' (hview.symm ▸ hi), h.larges]
    · rw [pdatasize, if_neg (by rw [largeSize]; omega)]
      simp only [usub_largeSize hc' ha', checkLarge_large hc' ha', ok_bind, if_true, h.larges]
      rfl
    · obtain ⟨t, hfree, hct, hbase, -⟩ := pfree_large hc' ha'
      refine ⟨t, hfree, ?_⟩
      rw [live_iff hct, hbase, erased_block hc' ha']
      exact fun h => h.2 rfl

def Balanced (s : State) (live : List ℕ) : Prop :=
  ∃ ps ls : List ℕ, Follows s (some s.base) (s.base :: ps) ∧ ls.Nodup ∧
    (∀ a, a ∈ ls ↔ Holds s.config.largeht a) ∧ (∀ a ∈ ls, a+largeSize ∈ live) ∧
    s.property.total_alloced =
      s.config.pool_size*ps.length+(ls.map fun a => largeBytes (s.larges a)).sum ∧
    s.property.total_leftsize = ((s.base :: ps).map fun a => (s.pools a).leftsize).sum

/-- After `mempool_set_maxmem` every live block survives and the totals are right. -/
def LosesNothing (env : Env) (s : State) (live : List ℕ) (maxmem : ℕ) : Prop :=
  ∃ s', setMaxmem env s maxmem = .ok s' ∧ (∀ x ∈ live, Survives env s s' x) ∧ Balanced s' live

def InBase (s : State) (x : ℕ) : Prop :=
  (∃ v, view s x = some v ∧ v.large = false) ∧ s.base ≤ x ∧ x < s.base+s.config.pool_size

/-- Nothing is rebuilt, or all live blocks are in the base pool. -/
def Harmless (env : Env) (s : State) (live : List ℕ) (maxmem : ℕ) : Prop :=
  if Rebuilds s maxmem then
    ∀ x ∈ live, InBase s x ∧ ∀ i, env.calloc s.heap.tick i = true
  else s.config.ht ≠ none ∨ ∀ x ∈ live, ∀ v, view s x = some v → v.large = true

theorem balanced_of_core (hc : Core s' ps fs [] ls M' B) (h : SameMemory s s') (ha : Acct s ps ls)
    (hl : ∀ a ∈ ls, a+largeSize ∈ live) : Balanced s' live := by
  refine ⟨ps, ls, follows_linked hc.chain, hc.largeht.nodup, fun a => (holds_iff hc.largeht).symm,
    hl, ?_, ?_⟩
  · rw [h.property, h.pool_size, h.larges]
    exact ha.alloced
  · rw [h.property, h.base, h.pools]
    exact ha.leftsize

theorem inBase_iff (hc : Core s ps fs [] ls M B) (hb : b ∈ s.base :: ps) (ho : o ∈ B b) :
    InBase s (payload b o) ↔ b = s.base := by
  obtain ⟨h16, hle, -, -⟩ := block_bounds hc hb ho
  obtain ⟨hlive, -, -, h208⟩ := pool_range hc hb
  rw [mempoolSize] at hle
  constructor
  · rintro ⟨-, hlo, hhi⟩
    by_contra hne
    obtain ⟨hbase, -, -, -⟩ := pool_range hc (b := s.base) List.mem_cons_self
    have hcne : poolChunk s b ≠ poolChunk s s.base := fun he => hne (congrArg Chunk.addr he)
    rw [payload, mempoolSize, realdataSize] at hlo hhi
    rcases apart_of_mem hc.apart hlive hbase hcne with h | h
    · simp only [poolChunk] at h
      omega
    · simp only [poolChunk] at h
      omega
  · rintro rfl
    refine ⟨⟨_, view_small hc hb ho, rfl⟩, ?_, ?_⟩
    · rw [payload]
      omega
    · rw [payload, mempoolSize, realdataSize]
      omega

/-- The new registries hold the base pool at most: its blocks are all that survives. -/
theorem rebuilt_harmless_iff {s₀ : State} (hI : Inv s₀ s live ps fs ls M B)
    (hl : ∀ a ∈ ls, a+largeSize ∈ live) (hreb : Rebuilds s maxmem) :
    LosesNothing env s live maxmem ↔
      ∀ x ∈ live, InBase s x ∧ ∀ i, env.calloc s.heap.tick i = true := by
  have hc := hI.core
  obtain ⟨s', M', hrun, hc', hsame, hM'⟩ := @setMaxmem_rebuilds env _ _ _ _ _ _ _ hc hreb
  constructor
  · rintro ⟨t, ht, hsurv, -⟩ x hx
    rw [hrun, Except.ok.injEq] at ht
    subst ht
    have hxs := hsurv x hx
    rcases hI.held x hx with ⟨b, hb, o, ho, rfl⟩ | ⟨a, ha, rfl⟩
    · rw [survives_small env hc hc' hsame hb ho, hM'] at hxs
      split at hxs
      · next hall =>
        exact ⟨(inBase_iff hc hb ho).mpr (List.mem_singleton.mp hxs), hall⟩
      · cases hxs
    · rw [survives_large env hc hc' hsame ha] at hxs
      cases hxs
  · intro hall
    have hnone : ls = [] := by
      rw [List.eq_nil_iff_forall_not_mem]
      intro a ha
      obtain ⟨⟨⟨v, hv, hsmall⟩, -⟩, -⟩ := hall _ (hl a ha)
      rw [view_large hc ha, Option.some_inj] at hv
      subst hv
      cases hsmall
    subst hnone
    refine ⟨s', hrun, fun x hx => ?_, balanced_of_core hc' hsame hI.acct (by simp)⟩
    obtain ⟨hbase, hcal⟩ := hall x hx
    rcases hI.held x hx with ⟨b, hb, o, ho, rfl⟩ | ⟨a, ha, rfl⟩
    · rw [survives_small env hc hc' hsame hb ho, hM', if_pos hcal, List.mem_singleton]
      exact (inBase_iff hc hb ho).mp hbase
    · cases ha

/-- A call that keeps the registries loses only small blocks that were not registered. -/
theorem plain_harmless_iff {s₀ : State} (hI : Inv s₀ s live ps fs ls M B)
    (hl : ∀ a ∈ ls, a+largeSize ∈ live) (hreb : ¬Rebuilds s maxmem) :
    LosesNothing env s live maxmem ↔
      s.config.ht ≠ none ∨ ∀ x ∈ live, ∀ v, view s x = some v → v.large = true := by
  have hc := hI.core
  obtain ⟨s', hrun, hc', hsame, -⟩ := @setMaxmem_plain env _ _ _ _ _ _ _ hc hreb
  constructor
  · rintro ⟨t, ht, hsurv, -⟩
    rw [hrun, Except.ok.injEq] at ht
    subst ht
    by_cases hnone : s.config.ht = none
    · right
      intro x hx v hv
      have hxs := hsurv x hx
      rcases hI.held x hx with ⟨b, hb, o, ho, rfl⟩ | ⟨a, ha, rfl⟩
      · rw [survives_small env hc hc' hsame hb ho] at hxs
        have hreg := hc.ht
        rw [hnone] at hreg
        rw [show M = [] from hreg] at hxs
        cases hxs
      · rw [view_large hc ha, Option.some_inj] at hv
        subst hv
        rfl
    · exact Or.inl hnone
  · intro hor
    refine ⟨s', hrun, fun x hx => ?_, balanced_of_core hc' hsame hI.acct hl⟩
    rcases hI.held x hx with ⟨b, hb, o, ho, rfl⟩ | ⟨a, ha, rfl⟩
    · rw [survives_small env hc hc' hsame hb ho]
      rcases hor with hne | hall
      · exact hI.registered hne b hb
      · cases hall _ hx _ (view_small hc hb ho)
    · rw [survives_large env hc hc' hsame ha]
      exact ha

/-- `mempool_set_maxmem` loses nothing exactly when it rebuilds nothing or finds all
live blocks in the base pool. -/
theorem setMaxmem_harmless_iff (env : Env) (s₀ s : State) (live : List ℕ) (maxmem : ℕ)
    (hs : Start env s₀) (hr : Roomy s₀) (hreach : Reach env s₀ s live) :
    LosesNothing env s live maxmem ↔ Harmless env s live maxmem := by
  obtain ⟨ps, fs, ls, M, B, hI⟩ := reach_inv hs hr hreach
  have hlarge : ∀ a ∈ ls, a+largeSize ∈ live := fun a ha =>
    reach_large hs hr hreach a ((holds_iff hI.core.largeht).mpr ha)
  rw [Harmless]
  split
  · next hreb => exact rebuilt_harmless_iff hI hlarge hreb
  · next hreb => exact plain_harmless_iff hI hlarge hreb

/-- A block of the base pool outlives a new cap. -/
theorem setMaxmem_harmless_hundred : ∃ s₀ s, opened (filled 0) 4096 8192 4096 0 = .ok s₀ ∧
    palloc (filled 0) 3 s₀ 100 = .ok (s, some 223) ∧ LosesNothing (filled 0) s [223] 65536 := by
  have hrun : (do
      let s₀ ← opened (filled 0) 4096 8192 4096 0
      let r ← palloc (filled 0) 3 s₀ 100
      .ok (r.2, r.2.bind (view r.1), r.1.base, r.1.config.pool_size, r.1.config.max_memsize)) =
      (.ok (some 223, some ⟨false, 0, 115⟩, 16, 4096, 8192) :
        Run (Option ℕ × Option View × ℕ × ℕ × ℕ)) := by
    decide +kernel
  obtain ⟨s₀, h₀, hrun⟩ := bind_ok_iff.mp hrun
  obtain ⟨⟨s, r⟩, h₁, hrun⟩ := bind_ok_iff.mp hrun
  simp only [Except.ok.injEq, Prod.mk.injEq] at hrun
  obtain ⟨rfl, hview, hbase, hsize, hmax⟩ := hrun
  have hs := (opened_start h₀).1
  have hr : Roomy s₀ := opened_roomy h₀ (by decide)
  have hreach := Reach.step .start (Step.palloc 3 100 (some 223) (by decide) h₁)
  refine ⟨s₀, s, h₀, h₁, (setMaxmem_harmless_iff (filled 0) s₀ s _ 65536 hs hr hreach).mpr ?_⟩
  have hin : InBase s 223 := by
    rw [InBase, hbase, hsize]
    exact ⟨⟨_, hview, rfl⟩, by decide, by decide⟩
  have hreb : Rebuilds s 65536 := ⟨by decide, by rw [hmax]; decide⟩
  rw [Harmless, if_pos hreb]
  intro x hx
  rw [List.mem_singleton.mp hx]
  exact ⟨hin, fun _ => rfl⟩

/-- A large block is released by a new cap. -/
theorem setMaxmem_loses : ¬∀ (env : Env) (s₀ s : State) (live : List ℕ) (maxmem : ℕ),
    Start env s₀ → Roomy s₀ → Reach env s₀ s live → LosesNothing env s live maxmem := by
  intro hall
  have hrun : (do
      let s₀ ← opened (filled 0) 4096 16384 16384 0
      let r ← palloc (filled 0) 3 s₀ 5000
      .ok (r.2, r.2.bind (view r.1), r.1.config.max_memsize)) =
      (.ok (some 4124, some ⟨true, 0, 5016⟩, 16384) : Run (Option ℕ × Option View × ℕ)) := by
    decide +kernel
  obtain ⟨s₀, h₀, hrun⟩ := bind_ok_iff.mp hrun
  obtain ⟨⟨s, r⟩, h₁, hrun⟩ := bind_ok_iff.mp hrun
  simp only [Except.ok.injEq, Prod.mk.injEq] at hrun
  obtain ⟨rfl, hview, hmax⟩ := hrun
  have hs := (opened_start h₀).1
  have hr : Roomy s₀ := opened_roomy h₀ (by decide)
  have hreach := Reach.step .start (Step.palloc 3 5000 (some 4124) (by decide) h₁)
  obtain ⟨ps, fs, ls, M, B, hI⟩ := reach_inv hs hr hreach
  obtain ⟨s', M', hset, hc', hsame, -⟩ := @setMaxmem_rebuilds (filled 0) s _ _ _ _ _ 65536 hI.core
    ⟨by decide, by rw [hmax]; decide⟩
  obtain ⟨t, ht, hsurv, -⟩ := hall _ s₀ s _ 65536 hs hr hreach
  rw [hset, Except.ok.injEq] at ht
  subst ht
  have hxs := hsurv 4124 (by simp)
  rw [Option.bind_some] at hview
  rcases hI.held 4124 (by simp) with ⟨b, hb, o, ho, hx⟩ | ⟨a, ha, hx⟩
  · rw [hx, view_small hI.core hb ho, Option.some_inj, smallView] at hview
    cases hview
  · rw [hx, survives_large _ hI.core hc' hsame ha] at hxs
    cases hxs

end Survivors

end CLearning.MempoolReset
