import CLearning.MempoolAppend

/-!
# The free pools

A linked pool whose last block comes back is parked while there is room for it
and released otherwise; `palloc` takes a parked pool before it asks for a new
one.
-/

set_option autoImplicit false

namespace CLearning.MempoolCache
open CLearning.Machine CLearning.LinkedLists CLearning.MempoolBytes CLearning.MempoolPool
open CLearning.MempoolHeap CLearning.MempoolServe CLearning.MpHash CLearning.MempoolState
open CLearning.Mempool CLearning.MempoolChain CLearning.MempoolRegistry CLearning.MempoolCore
open CLearning.MempoolGrow CLearning.MempoolAlloc CLearning.MempoolFree
open CLearning.MempoolStore CLearning.MempoolInit CLearning.MempoolFresh CLearning.MempoolRun
open CLearning.MempoolAppend

section Count

variable {env : Env} {s s' : State} {ps fs ls M : List ℕ} {B : ℕ → List ℕ} {size : ℕ}

theorem start_linked (hc : Core s ps fs [] ls M B) (p : Prop) [Decidable p] (a : ℕ)
    (h : (if p then some s.base else (s.pools s.base).next) = some a) : a ∈ s.base :: ps := by
  split at h
  · rw [Option.some_inj] at h
    exact h ▸ List.mem_cons_self
  · exact chain_next_mem hc.chain List.mem_cons_self h

/-- The loop of `palloc` parks no pool. -/
theorem allocAgain_count (env : Env) (h16 : 16 ≤ size) (fuel : ℕ) {tmp : Option ℕ}
    {r : Option (ℕ × ℕ)} (hc : Core s ps fs [] ls M B) (ht : ∀ a, tmp = some a → a ∈ s.base :: ps)
    (hrun : allocAgain env size fuel s tmp = .ok (s', r)) :
    s'.property.pfree_count ≤ s.property.pfree_count := by
  induction fuel generalizing s ps fs M B tmp with
  | zero => cases hrun
  | succ fuel ih =>
    rw [allocAgain] at hrun
    obtain ⟨⟨s₁, r₁⟩, halloc, hrest⟩ := bind_ok_iff.mp hrun
    obtain ⟨ps₁, -, hcase⟩ := allocRealdata_spec h16 _ hc ht halloc
    rcases hcase with ⟨rfl, hc₁, -⟩ | ⟨b, o, rfl, -, hc₁, -⟩
    · have hcount : s₁.property.pfree_count = s.property.pfree_count :=
        hc₁.chain.count.trans hc.chain.count.symm
      simp only at hrest
      split at hrest
      · rw [Except.ok.injEq, Prod.mk.injEq] at hrest
        rw [← hrest.1, hcount]
      · obtain ⟨⟨s₂, np⟩, hget, hrest⟩ := bind_ok_iff.mp hrest
        have htail : fs.tail.length ≤ s.property.pfree_count := by
          rw [hc.chain.count, List.length_tail]
          omega
        obtain ⟨-, hcase⟩ := getMempool_spec env hc₁ hget
        rcases hcase with ⟨rfl, hc₂, -⟩ | ⟨a, rfl, hc₂, hi₂, -⟩
        · rw [Except.ok.injEq, Prod.mk.injEq] at hrest
          rw [← hrest.1, hc₂.chain.count]
          exact htail
        · obtain ⟨hc₃, hk₃, -⟩ := linkMempool_core hc₂ hi₂
          refine Nat.le_trans (ih hc₃ ?_ hrest) ?_
          · intro x hx
            rw [← Option.some_inj.mp hx]
            simp
          · rw [hc₃.chain.count]
            exact htail
    · rw [Except.ok.injEq, Prod.mk.injEq] at hrest
      rw [← hrest.1, hc₁.chain.count, hc.chain.count]

theorem judged_tick (env : Env) (s : State) (size : ℕ) :
    ∃ t, (judged env s size).1 = { s with heap := ⟨s.heap.live, t⟩ } := by
  rw [judged]
  split
  · exact ⟨_, rfl⟩
  · exact ⟨s.heap.tick, rfl⟩

def Passes (env : Env) (s : State) (size : ℕ) : Prop :=
  refuses s size = false ∧ (judged env s size).2 = true

def firstMempool (s : State) (size : ℕ) : Option ℕ :=
  if (s.pools s.base).leftsize > size+realdataSize then some s.base else (s.pools s.base).next

theorem palloc_refused (fuel : ℕ) (h : ¬Passes env s size) :
    ∃ s', palloc env fuel s size = .ok (s', none) ∧ s'.config = s.config ∧
      s'.property = s.property ∧ s'.pools = s.pools := by
  rw [palloc]
  cases href : refuses s size with
  | true => exact ⟨s, rfl, rfl, rfl, rfl⟩
  | false =>
    obtain ⟨t, ht⟩ := judged_tick env s size
    cases hj : judged env s size with
    | mk u ok =>
      rw [hj] at ht
      dsimp only at ht
      subst ht
      cases ok with
      | true =>
        exfalso
        apply h
        rw [Passes, href, hj]
        exact ⟨rfl, rfl⟩
      | false => exact ⟨_, rfl, rfl, rfl, rfl⟩

theorem palloc_large (fuel : ℕ) (h : Passes env s size) (hs : threshold s < size) :
    palloc env fuel s size = allocLarge env (judged env s size).1 size := by
  obtain ⟨href, hok⟩ := h
  have hthr : threshold (judged env s size).1 = threshold s := by
    obtain ⟨t, ht⟩ := judged_tick env s size
    rw [ht]
    rfl
  rw [palloc, href, if_neg Bool.false_ne_true]
  dsimp only
  rw [hok, hthr, if_pos hs]
  rfl

theorem palloc_small (fuel : ℕ) (hc : Core s ps fs [] ls M B) (h : Passes env s size)
    (hs : size ≤ threshold s) :
    palloc env fuel s size = (do
      let r ← allocAgain env (size+realdataSize) fuel (judged env s size).1 (firstMempool s size)
      match r.2 with
      | none => .ok (r.1, none)
      | some b => .ok (r.1.setPool b.1 ((r.1.pools b.1).setRd b.2 .used 0),
          some (payload b.1 b.2))) := by
  obtain ⟨href, hok⟩ := h
  obtain ⟨t, ht⟩ := judged_tick env s size
  have hsz := hc.config.size
  simp only [SizeOk, mempoolSize, realdataSize] at hsz
  have hle := hs
  rw [threshold_eq hc.config] at hle
  have hreal : (size+realdataSize) % 2^32 = size+realdataSize := by
    rw [realdataSize]
    exact Nat.mod_eq_of_lt (by omega)
  have hthr : ¬threshold (judged env s size).1 < size := by
    rw [ht]
    exact Nat.not_lt.mpr hs
  rw [palloc, href, if_neg Bool.false_ne_true]
  dsimp only
  rw [hok, if_neg (by decide), if_neg hthr, pallocSmall]
  dsimp only
  rw [hreal, ht]
  congr 1
  funext r
  rcases r with ⟨u, _ | ⟨b, o⟩⟩
  · rfl
  · rfl

/-- The ways through `palloc`: refused, served by `malloc`, or by the pools. -/
theorem palloc_cases (env : Env) (fuel : ℕ) {r : Option ℕ} (hc : Core s ps fs [] ls M B)
    (hrun : palloc env fuel s size = .ok (s', r)) :
    ∃ t, (judged env s size).1 = { s with heap := ⟨s.heap.live, t⟩ } ∧
      Core { s with heap := ⟨s.heap.live, t⟩ } ps fs [] ls M B ∧
      (¬Passes env s size ∧ r = none ∧ s'.config = s.config ∧ s'.property = s.property ∨
        Passes env s size ∧ s.config.pool_size < size+207 ∧
          allocLarge env { s with heap := ⟨s.heap.live, t⟩ } size = .ok (s', r) ∨
        Passes env s size ∧ 0 < size ∧ size+207 ≤ s.config.pool_size ∧
          (∀ a, firstMempool s size = some a → a ∈ s.base :: ps) ∧
          ∃ s₁ b, allocAgain env (size+realdataSize) fuel { s with heap := ⟨s.heap.live, t⟩ }
              (firstMempool s size) = .ok (s₁, b) ∧
            s'.config = s₁.config ∧ s'.property = s₁.property ∧ (r = none ↔ b = none)) := by
  obtain ⟨t, htick⟩ := judged_tick env s size
  have hc₁ := hc.tick t
  refine ⟨t, htick, hc₁, ?_⟩
  have hsz := hc.config.size
  simp only [SizeOk, mempoolSize, realdataSize] at hsz
  by_cases hp : Passes env s size
  · right
    by_cases hs : size ≤ threshold s
    · right
      rw [palloc_small fuel hc hp hs, htick] at hrun
      obtain ⟨⟨s₁, b⟩, hagain, hrest⟩ := bind_ok_iff.mp hrun
      have h0 : 0 < size := by
        have href := hp.1
        simp only [refuses, Bool.or_eq_false_iff, decide_eq_false_iff_not] at href
        omega
      rw [threshold_eq hc.config] at hs
      refine ⟨hp, h0, by omega, fun a ha => start_linked hc _ a ha, s₁, b, hagain, ?_⟩
      cases b with
      | none =>
        rw [Except.ok.injEq, Prod.mk.injEq] at hrest
        obtain ⟨rfl, rfl⟩ := hrest
        exact ⟨rfl, rfl, by simp⟩
      | some b =>
        rw [Except.ok.injEq, Prod.mk.injEq] at hrest
        obtain ⟨rfl, rfl⟩ := hrest
        exact ⟨rfl, rfl, by simp⟩
    · left
      rw [palloc_large fuel hp (Nat.lt_of_not_le hs), htick] at hrun
      rw [threshold_eq hc.config] at hs
      exact ⟨hp, by omega, hrun⟩
  · left
    obtain ⟨u, hu, hconfig, hproperty, -⟩ := palloc_refused fuel hp
    rw [hu] at hrun
    cases hrun
    exact ⟨hp, rfl, hconfig, hproperty⟩

theorem palloc_count (env : Env) (fuel : ℕ) {r : Option ℕ} (hc : Core s ps fs [] ls M B)
    (hrun : palloc env fuel s size = .ok (s', r)) :
    s'.property.pfree_count ≤ s.property.pfree_count := by
  obtain ⟨t, -, hc₁, hcase⟩ := palloc_cases env fuel hc hrun
  rcases hcase with ⟨-, -, -, hp⟩ | ⟨-, -, hlarge⟩ | ⟨-, h0, -, hfirst, s₁, b, hagain, -, hp, -⟩
  · rw [hp]
  · obtain ⟨-, -, -, -, -, hcase⟩ := allocLarge_spec env hc₁ hlarge
    rcases hcase with ⟨-, hc', -⟩ | ⟨a, -, -, hc', -⟩
    · rw [hc'.chain.count, hc.chain.count]
    · rw [hc'.chain.count, hc.chain.count]
  · have h16 : 16 ≤ size+realdataSize := by
      rw [realdataSize]
      omega
    have hcount : s₁.property.pfree_count ≤
        ({ s with heap := ⟨s.heap.live, t⟩ } : State).property.pfree_count :=
      allocAgain_count env h16 fuel hc₁ hfirst hagain
    rw [hp]
    exact hcount

theorem pcalloc_count (env : Env) (fuel : ℕ) {r : Option ℕ} (hc : Core s ps fs [] ls M B)
    (hrun : pcalloc env fuel s size = .ok (s', r)) :
    s'.property.pfree_count ≤ s.property.pfree_count := by
  obtain ⟨⟨s₁, r₁⟩, hpal, hrest⟩ := bind_ok_iff.mp hrun
  have hcount := palloc_count env fuel hc hpal
  cases r₁ with
  | none =>
    rw [Except.ok.injEq, Prod.mk.injEq] at hrest
    rw [← hrest.1]
    exact hcount
  | some a =>
    obtain ⟨t, hstore, hrest⟩ := bind_ok_iff.mp hrest
    rw [Except.ok.injEq, Prod.mk.injEq] at hrest
    rw [← hrest.1, (untouched_store hstore).property]
    exact hcount

end Count

section Runs

variable {env : Env} {s₀ s s' : State} {live live' ps fs ls M : List ℕ} {B : ℕ → List ℕ}
  {a b o x : ℕ}

theorem pfree_retires (hI : Inv s₀ s live ps fs ls M B) (hb : b ∈ s.base :: ps) (ho : o ∈ B b)
    (hM : b ∈ M) :
    ∃ s' ps' fs' M' B', pfree s (payload b o) = .ok (s', 0) ∧ Core s' ps' fs' [] ls M' B' ∧
      s'.config.pool_size = s.config.pool_size ∧
      if b ≠ s.base ∧ (B b).erase o = [] then Retired s s' fs fs' b else fs' = fs := by
  obtain ⟨s', ps', fs', M', B', hrun, hc, hr, -, -, hret⟩ := (pfree_small hI.core hb ho).2 hM
  exact ⟨s', ps', fs', M', B', hrun, hc, by rw [hr.steady.config], hret⟩

theorem max_freepool_eq (hI : Inv s₀ s live ps fs ls M B) :
    s.config.max_freepool = s₀.config.max_freepool := by rw [hI.config]

theorem step_count (hI : Inv s₀ s live ps fs ls M B)
    (hle : s.property.pfree_count ≤ s₀.config.max_freepool) (h : Step env s live s' live') :
    s'.property.pfree_count ≤ s₀.config.max_freepool := by
  cases h with
  | palloc fuel size r hs hrun => exact Nat.le_trans (palloc_count env fuel hI.core hrun) hle
  | pcalloc fuel size r hs hrun => exact Nat.le_trans (pcalloc_count env fuel hI.core hrun) hle
  | pfree data ret hd hrun =>
    rcases hI.held data hd with ⟨b, hb, o, ho, rfl⟩ | ⟨a, ha, rfl⟩
    · by_cases hM : b ∈ M
      · obtain ⟨t, ps', fs', M', B', hrun', hc, -, hret⟩ := pfree_retires hI hb ho hM
        rw [hrun', Except.ok.injEq, Prod.mk.injEq] at hrun
        rw [← hrun.1, hc.chain.count]
        have hcount := hI.core.chain.count
        split at hret
        · rw [Retired, max_freepool_eq hI] at hret
          split at hret
          · rw [hret.1, List.length_cons]
            omega
          · rw [hret.1]
            omega
        · rw [hret]
          omega
      · rw [(pfree_small hI.core hb ho).1 hM, Except.ok.injEq, Prod.mk.injEq] at hrun
        rw [← hrun.1]
        exact hle
    · obtain ⟨t, hrun', hc, -⟩ := pfree_large hI.core ha
      rw [hrun', Except.ok.injEq, Prod.mk.injEq] at hrun
      rw [← hrun.1, hc.chain.count, ← hI.core.chain.count]
      exact hle
  | pmemcpyExtra dest src n r hn hd hrun =>
    have hI' := pmemcpyExtra_inv hI hd hn hrun
    rw [hI'.core.chain.count, ← hI.core.chain.count]
    exact hle
  | psprintfExtra data text len hd hrun =>
    have hI' := psprintfExtra_inv hI hd hrun
    rw [hI'.core.chain.count, ← hI.core.chain.count]
    exact hle
  | pzeroExtra data hd hrun =>
    have hI' := pzeroExtra_inv hI hd hrun
    rw [hI'.core.chain.count, ← hI.core.chain.count]
    exact hle
  | write data y n cap f hd hcap hn hlo hhi hrun =>
    have hI' := write_inv hI hd hcap hn hlo hhi hrun
    rw [hI'.core.chain.count, ← hI.core.chain.count]
    exact hle

theorem reach_count (hs : Start env s₀) (hr : Roomy s₀) (h : Reach env s₀ s live) :
    s.property.pfree_count ≤ s₀.config.max_freepool := by
  induction h with
  | start =>
    obtain ⟨M, hI⟩ := start_inv hs hr
    rw [hI.core.chain.count]
    exact Nat.zero_le _
  | step hreach hstep ih =>
    obtain ⟨ps, fs, ls, M, B, hI⟩ := reach_inv hs hr hreach
    exact step_count hI ih hstep

end Runs

section Law

variable {env : Env} {s₀ s s' t : State} {live ps fs as ls M : List ℕ} {B : ℕ → List ℕ}
  {a b o x n : ℕ} {r : Option ℕ}

/-- The list of pools met from `p` on. -/
def Follows (s : State) : Option ℕ → List ℕ → Prop
  | p, [] => p = none
  | p, a :: as => p = some a ∧ Follows s (s.pools a).next as

structure WholeFree (p : Pool) : Prop where
  busylist : p.busylist = none
  freelist : p.freelist = fun i => if i = 4 then some 0 else none
  status : p.status 0 = 0
  size : p.rd 0 .size = p.pool_size-mempoolSize
  alone : ref (p.rd 0 .realprev) = none ∧ ref (p.rd 0 .realnext) = none
  leftsize : p.leftsize = p.pool_size-mempoolSize

/-- `x` is the only live block in the linked pool `b`, and that is not the base pool. -/
structure Last (s : State) (live : List ℕ) (b x : ℕ) : Prop where
  pool : poolChunk s b ∈ s.heap.live
  linked : b ≠ s.base
  mem : x ∈ live
  lower : b ≤ x
  upper : x < b+s.config.pool_size
  only : ∀ y ∈ live, b ≤ y → y < b+s.config.pool_size → y = x

/-- `pfree` of the last block of a pool parks the pool if fewer than `n` are parked
and releases it otherwise. -/
def Retires (s : State) (fs : List ℕ) (b x n : ℕ) : Prop :=
  ∃ s', pfree s x = .ok (s', 0) ∧
    if fs.length < n then
      Follows s' s'.property.freepool (b :: fs) ∧ WholeFree (s'.pools b) ∧
        poolChunk s b ∈ s'.heap.live
    else Follows s' s'.property.freepool fs ∧ poolChunk s b ∉ s'.heap.live

theorem follows_seg {p : Option ℕ} (h : Seg (chainLinks s) p fs none) : Follows s fs.head? fs := by
  induction fs generalizing p with
  | nil => rfl
  | cons a fs ih =>
    obtain ⟨-, hnext, hrest⟩ := h
    refine ⟨rfl, ?_⟩
    have hn : (s.pools a).next = fs.head? := by
      rw [Option.or_none] at hnext
      exact hnext
    rw [hn]
    exact ih hrest

theorem follows_parked (h : Chain s ps fs) : Follows s s.property.freepool fs := by
  have hhead : s.property.freepool = fs.head? := h.family.head_eq .parked
  rw [hhead]
  exact follows_seg (h.family.seg .parked)

theorem wholeFree_idle {p : Pool} (h : PoolInv p []) : WholeFree p := by
  obtain ⟨hbusy, -, -⟩ := pool_idle h
  obtain ⟨T, L, hi, -⟩ := h
  obtain ⟨rfl, -, h4, hj, hsize, hleft⟩ := heapInv_idle hi hbusy
  have horder := hi.order
  refine ⟨hbusy, ?_, ((hi.mem_free 0).mp ⟨4, h4 ▸ List.mem_singleton_self 0⟩).2, hsize,
    ⟨horder.1, horder.2.1⟩, hleft⟩
  funext i
  have hhead := hi.lists.head_eq (.free i)
  by_cases h : i = 4
  · rw [if_pos h]
    subst h
    rw [h4] at hhead
    exact hhead
  · rw [if_neg h]
    rw [hj i h] at hhead
    exact hhead

/-- The last block of a pool is its only busy block. -/
theorem last_busy (hI : Inv s₀ s live ps fs ls M B) (hht : s₀.config.ht ≠ none)
    (h : Last s live b x) : ∃ o, b ∈ s.base :: ps ∧ o ∈ B b ∧ x = payload b o ∧ (B b).erase o = [] := by
  have hc := hI.core
  have hrb := hc.range _ h.pool
  simp only [poolChunk] at hrb
  rcases hI.held x h.mem with ⟨c, hcm, o, ho, rfl⟩ | ⟨a, ha, rfl⟩
  · obtain ⟨h16, hle, -, -⟩ := block_bounds hc hcm ho
    obtain ⟨hlive, -, -, h208⟩ := pool_range hc hcm
    have hlow := h.lower
    have hup := h.upper
    have hcb : c = b := by
      by_contra hne
      have hne' : poolChunk s c ≠ poolChunk s b := fun he => hne (congrArg Chunk.addr he)
      rcases apart_of_mem hc.apart hlive h.pool hne' with hap | hap
      · simp only [poolChunk, payload, mempoolSize, realdataSize] at hap hlow hup hle
        omega
      · simp only [poolChunk, payload, mempoolSize, realdataSize] at hap hlow hup hle
        omega
    subst hcb
    refine ⟨o, hcm, ho, rfl, ?_⟩
    obtain ⟨T, L, hi, hL⟩ := hc.linked_inv hcm
    have hnd : (B c).Nodup := hL ▸ hi.lists.nodup .busy
    rw [List.eq_nil_iff_forall_not_mem]
    intro p hp
    obtain ⟨hpo, hpB⟩ := hnd.mem_erase_iff.mp hp
    obtain ⟨h16', hle', -, -⟩ := block_bounds hc hcm hpB
    have hpl : payload c p ∈ live :=
      hI.all (fun hn => hht (hI.ht.mp hn)) _ (Or.inl ⟨c, hcm, p, hpB, rfl⟩)
    have hsame := h.only _ hpl (by rw [payload]; omega) (by
      simp only [payload, mempoolSize, realdataSize] at hle' ⊢
      omega)
    exact hpo (payload_inj hc hcm hpB hcm ho hsame).2
  · -- a large chunk neither overlaps the pool nor ends within twelve bytes before it
    exfalso
    have hlive := hc.large_live ha
    have hra := hc.range _ hlive
    have hlow := h.lower
    have hup := h.upper
    have hne : poolChunk s b ≠ largeChunk s a := by
      intro he
      have := congrArg Chunk.kind he
      simp [poolChunk, largeChunk] at this
    simp only [largeChunk] at hra
    rcases apart_of_mem hc.apart h.pool hlive hne with hap | hap
    · simp only [poolChunk, largeChunk, largeSize] at hap hlow hup
      omega
    · simp only [poolChunk, largeChunk, largeSize] at hap hlow hup
      omega

theorem retires_iff (hI : Inv s₀ s live ps fs ls M B) (hht : s₀.config.ht ≠ none)
    (h : Last s live b x) (n : ℕ) :
    Retires s fs b x n ↔ (fs.length < n ↔ fs.length < s₀.config.max_freepool) := by
  have hc := hI.core
  obtain ⟨o, hb, ho, rfl, hlast⟩ := last_busy hI hht h
  have hM : b ∈ M := hI.registered (fun hn => hht (hI.ht.mp hn)) b hb
  obtain ⟨s', ps', fs', M', B', hrun, hc', hsz, hret⟩ := pfree_retires hI hb ho hM
  rw [if_pos ⟨h.linked, hlast⟩, Retired, hc.chain.count, max_freepool_eq hI] at hret
  have hfollows := follows_parked hc'.chain
  -- the pool is parked or released as the stored limit says
  have hcase : if fs.length < s₀.config.max_freepool then
      Follows s' s'.property.freepool (b :: fs) ∧ WholeFree (s'.pools b) ∧
        poolChunk s b ∈ s'.heap.live
      else Follows s' s'.property.freepool fs ∧ poolChunk s b ∉ s'.heap.live := by
    split at hret
    · next hroom =>
      rw [if_pos hroom]
      obtain ⟨rfl, hlive⟩ := hret
      have hidle := hc'.inv b (by simp)
      rw [hc'.idle b (by simp)] at hidle
      exact ⟨hfollows, wholeFree_idle hidle, hlive ▸ h.pool⟩
    · next hroom =>
      rw [if_neg hroom]
      obtain ⟨rfl, hlive⟩ := hret
      refine ⟨hfollows, fun hmem => ?_⟩
      rw [hlive, (nodup_of_apart hc.apart).mem_erase_iff] at hmem
      exact hmem.1 rfl
  constructor
  · rintro ⟨t, hrun', hlaw⟩
    rw [hrun, Except.ok.injEq, Prod.mk.injEq] at hrun'
    obtain ⟨rfl, -⟩ := hrun'
    by_cases hn : fs.length < n
    · rw [if_pos hn] at hlaw
      by_cases hL : fs.length < s₀.config.max_freepool
      · exact iff_of_true hn hL
      · rw [if_neg hL] at hcase
        exact absurd hlaw.2.2 hcase.2
    · rw [if_neg hn] at hlaw
      by_cases hL : fs.length < s₀.config.max_freepool
      · rw [if_pos hL] at hcase
        exact absurd hcase.2.2 hlaw.2
      · exact iff_of_false hn hL
  · intro hiff
    refine ⟨s', hrun, ?_⟩
    by_cases hn : fs.length < n
    · rw [if_pos hn]
      rwa [if_pos (hiff.mp hn)] at hcase
    · rw [if_neg hn]
      rwa [if_neg (fun h => hn (hiff.mpr h))] at hcase

/-- A parked pool is taken and `malloc` is not asked. -/
theorem getMempool_takes (env : Env) (hc : Core s ps (a :: as) [] ls M B)
    (hrun : getMempool env s = .ok (t, r)) :
    (r = none ∨ r = some a) ∧ t.heap.tick = s.heap.tick ∧ Follows t t.property.freepool as := by
  have hcount : (a :: as).length < 2^32 := Nat.lt_trans hc.few (by decide)
  obtain ⟨s₁, htake, -, hr⟩ := takeMempool_parked env hc.chain hcount
  have hheap : s₁.heap = s.heap := (@Relinked.kept _ _ B hr).heap
  have hfollows : Follows t t.property.freepool as := by
    obtain ⟨-, hcase⟩ := getMempool_spec env hc hrun
    rcases hcase with ⟨-, hc', -⟩ | ⟨c, -, hc', -⟩
    · exact follows_parked hc'.chain
    · exact follows_parked hc'.chain
  rw [getMempool, htake, ok_bind] at hrun
  obtain ⟨⟨ht, code⟩, -, hrun⟩ := bind_ok_iff.mp hrun
  dsimp only at hrun
  split at hrun
  · obtain ⟨heap, hfree, hrun⟩ := bind_ok_iff.mp hrun
    rw [Except.ok.injEq, Prod.mk.injEq] at hrun
    obtain ⟨rfl, rfl⟩ := hrun
    rw [Heap.free] at hfree
    split at hfree
    · rw [Except.ok.injEq] at hfree
      refine ⟨Or.inl rfl, ?_, hfollows⟩
      rw [← hfree]
      show s₁.heap.tick = s.heap.tick
      rw [hheap]
    · cases hfree
  · rw [Except.ok.injEq, Prod.mk.injEq] at hrun
    obtain ⟨rfl, rfl⟩ := hrun
    refine ⟨Or.inr rfl, ?_, hfollows⟩
    show s₁.heap.tick = s.heap.tick
    rw [hheap]

/-- The free pools along every run. The law of the last block holds for the limits
below `MEMPOOL_FREEPOOL_MAX` only: the clamped value is stored in eight bits. -/
theorem freepool_law (env : Env) (h h' : Heap) (size maxmem single_max max_freepool a : ℕ)
    (max_searchpool : ℤ) (judge_alloc : Bool) (f : Fresh) (s : State) (live : List ℕ)
    (hclean : Clean h)
    (hinit : mempoolInitExtra env h size maxmem single_max max_freepool max_searchpool judge_alloc =
      .ok (h', some (a, f)))
    (hr : Roomy (f.state a h')) (hht : f.config.ht ≠ none)
    (hreach : Reach env (f.state a h') s live) :
    ∃ fs, Follows s s.property.freepool fs ∧ s.property.pfree_count = fs.length ∧
      fs.length ≤ min max_freepool mempoolFreepoolMax ∧
      (∀ c as t r, fs = c :: as → getMempool env s = .ok (t, r) →
        (r = none ∨ r = some c) ∧ t.heap.tick = s.heap.tick ∧ Follows t t.property.freepool as) ∧
      ∀ b x, Last s live b x →
        (Retires s fs b x (min max_freepool mempoolFreepoolMax) ↔
          max_freepool < mempoolFreepoolMax) := by
  have hs : Start env (f.state a h') := ⟨h, h', size, maxmem, single_max, max_freepool,
    max_searchpool, judge_alloc, a, f, hclean, hinit, rfl⟩
  obtain ⟨ps, fs, ls, M, B, hI⟩ := reach_inv hs hr hreach
  have hcount := reach_count hs hr hreach
  obtain ⟨-, -, -, -, -, -, ht, lt, hcfg, -⟩ := mempoolInitExtra_shape hinit
  have hmax : (f.state a h').config.max_freepool = min max_freepool mempoolFreepoolMax % 2^8 := by
    show f.config.max_freepool = _
    rw [hcfg]
    rfl
  rw [hI.core.chain.count, hmax, mempoolFreepoolMax] at hcount
  refine ⟨fs, follows_parked hI.core.chain, hI.core.chain.count, ?_, ?_, fun b x hlast => ?_⟩
  · rw [mempoolFreepoolMax]
    omega
  · rintro c as t r rfl hget
    exact getMempool_takes env hI.core hget
  · rw [retires_iff hI hht hlast, hmax, mempoolFreepoolMax]
    omega

theorem follows_unique {p : Option ℕ} {gs : List ℕ} (h : Follows s p fs) (h' : Follows s p gs) :
    fs = gs := by
  induction fs generalizing p gs with
  | nil =>
    cases gs with
    | nil => rfl
    | cons c gs =>
      have hnone : p = none := h
      rw [hnone] at h'
      cases h'.1
  | cons a fs ih =>
    cases gs with
    | nil =>
      have hnone : p = none := h'
      rw [hnone] at h
      cases h.1
    | cons c gs =>
      have hac : a = c := Option.some_inj.mp (h.1.symm.trans h'.1)
      subst hac
      rw [ih h.2 h'.2]

/-- Two blocks of 3000 bytes lie in two pools of 4096. -/
theorem two_blocks {max_freepool : ℕ} (hrun : (do
      let r ← mempoolInitExtra (filled 0) ⟨[], 0⟩ 4096 1048576 8192 max_freepool (-1) false
      match r with
      | (_, none) => .error .nullDeref
      | (h, some (a, f)) => do
        let r₁ ← palloc (filled 0) 4 (f.state a h) 3000
        let r₂ ← palloc (filled 0) 4 r₁.1 3000
        .ok (a, f.config.ht.isSome, r₁.2, r₂.2, r₂.1.heap.live)) =
      (.ok (16, true, some 223, some 4319, [⟨4112, 4096, .pool⟩, ⟨16, 4096, .pool⟩]) :
        Run (ℕ × Bool × Option ℕ × Option ℕ × List Chunk))) :
    ∃ h' f s, mempoolInitExtra (filled 0) ⟨[], 0⟩ 4096 1048576 8192 max_freepool (-1) false =
        .ok (h', some (16, f)) ∧ Roomy (f.state 16 h') ∧ f.config.ht ≠ none ∧
      Reach (filled 0) (f.state 16 h') s [4319, 223] ∧ Last s [4319, 223] 4112 4319 := by
  obtain ⟨⟨h', r⟩, hinit, hrun⟩ := bind_ok_iff.mp hrun
  cases r with
  | none => cases hrun
  | some r =>
    obtain ⟨a, f⟩ := r
    obtain ⟨⟨s₁, r₁⟩, h₁, hrun⟩ := bind_ok_iff.mp hrun
    obtain ⟨⟨s₂, r₂⟩, h₂, hrun⟩ := bind_ok_iff.mp hrun
    simp only [Except.ok.injEq, Prod.mk.injEq] at hrun
    obtain ⟨rfl, hht, rfl, rfl, hlive⟩ := hrun
    obtain ⟨-, -, -, -, -, -, ht, lt, hcfg, -⟩ := mempoolInitExtra_shape hinit
    have hsize : f.config.pool_size = 4096 := by
      rw [hcfg]
      rfl
    have hroomy : Roomy (f.state 16 h') := by
      show mempoolSize+realdataSize < f.config.pool_size
      rw [hsize]
      decide
    have hreach := Reach.step (.step .start (Step.palloc 4 3000 (some 223) (by decide) h₁))
      (Step.palloc 4 3000 (some 4319) (by decide) h₂)
    have hs : Start (filled 0) (f.state 16 h') := ⟨⟨[], 0⟩, h', 4096, 1048576, 8192, max_freepool,
      -1, false, 16, f, ⟨List.Pairwise.nil, by simp, by simp⟩, hinit, rfl⟩
    obtain ⟨ps, fs, ls, M, B, hI⟩ := reach_inv hs hroomy hreach
    have hsize₂ : s₂.config.pool_size = 4096 := by
      rw [hI.config]
      exact hsize
    refine ⟨h', f, s₂, hinit, hroomy, fun hn => by simp [hn] at hht, hreach, ?_, ?_, by simp,
      by decide, by omega, ?_⟩
    · rw [hlive, poolChunk, hsize₂]
      exact List.mem_cons_self
    · rw [hI.base]
      show 4112 ≠ 16
      decide
    · simp

/-- With room for four pools the second pool is parked. -/
theorem freepool_law_four : ∃ s fs, Last s [4319, 223] 4112 4319 ∧
    Follows s s.property.freepool fs ∧ Retires s fs 4112 4319 4 := by
  obtain ⟨h', f, s, hinit, hroomy, hht, hreach, hlast⟩ := @two_blocks 4 (by decide +kernel)
  obtain ⟨fs, hfs, -, -, -, hlaw⟩ := freepool_law (filled 0) ⟨[], 0⟩ h' 4096 1048576 8192 4 16 (-1)
    false f s [4319, 223] ⟨List.Pairwise.nil, by simp, by simp⟩ hinit hroomy hht hreach
  exact ⟨s, fs, hlast, hfs, (hlaw 4112 4319 hlast).mpr (by decide)⟩

/-- With room for 256 pools no pool is parked. -/
theorem freepool_law_fails :
    ¬∀ (env : Env) (h h' : Heap) (size maxmem single_max max_freepool a : ℕ) (max_searchpool : ℤ)
        (judge_alloc : Bool) (f : Fresh) (s : State) (live : List ℕ), Clean h →
      mempoolInitExtra env h size maxmem single_max max_freepool max_searchpool judge_alloc =
        .ok (h', some (a, f)) →
      Roomy (f.state a h') → f.config.ht ≠ none → Reach env (f.state a h') s live →
      ∃ fs, Follows s s.property.freepool fs ∧ s.property.pfree_count = fs.length ∧
        ∀ b x, Last s live b x → Retires s fs b x (min max_freepool mempoolFreepoolMax) := by
  intro hall
  obtain ⟨h', f, s, hinit, hroomy, hht, hreach, hlast⟩ := @two_blocks 256 (by decide +kernel)
  have hclean : Clean ⟨[], 0⟩ := ⟨List.Pairwise.nil, by simp, by simp⟩
  obtain ⟨gs, hgs, -, hlaw⟩ := hall (filled 0) ⟨[], 0⟩ h' 4096 1048576 8192 256 16 (-1) false f s
    [4319, 223] hclean hinit hroomy hht hreach
  have hs : Start (filled 0) (f.state 16 h') := ⟨⟨[], 0⟩, h', 4096, 1048576, 8192, 256, -1, false, 16,
    f, hclean, hinit, rfl⟩
  obtain ⟨ps, fs, ls, M, B, hI⟩ := reach_inv hs hroomy hreach
  have hcount := reach_count hs hroomy hreach
  obtain ⟨-, -, -, -, -, -, ht, lt, hcfg, -⟩ := mempoolInitExtra_shape hinit
  have hmax : (f.state 16 h').config.max_freepool = 0 := by
    show f.config.max_freepool = 0
    rw [hcfg]
    rfl
  rw [hmax] at hcount
  rw [follows_unique hgs (follows_parked hI.core.chain)] at hlaw
  have hiff := (retires_iff hI hht hlast _).mp (hlaw 4112 4319 hlast)
  rw [hmax, ← hI.core.chain.count, mempoolFreepoolMax] at hiff
  omega

end Law

end CLearning.MempoolCache
