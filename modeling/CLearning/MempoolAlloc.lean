import CLearning.MempoolGrow

/-!
# palloc

A small request gets a block of a pool, a large one a chunk of its own, and
either is at least as large as the arithmetic of the code makes it. Nothing
that was handed out before changes.
-/

set_option autoImplicit false

namespace CLearning.MempoolAlloc
open CLearning.Machine CLearning.LinkedLists CLearning.MempoolBytes CLearning.MempoolPool
open CLearning.MempoolHeap CLearning.MempoolServe CLearning.MempoolState CLearning.Mempool
open CLearning.MempoolChain CLearning.MempoolRegistry CLearning.MempoolCore CLearning.MempoolGrow

section Words

theorem load16_store16_mod (m : Bytes) (a v : ℕ) : load16 (store16 m a v) a = v % 65536 := by
  simp [load16, store16]
  omega

theorem load32_store32_self (m : Bytes) (a : ℕ) {v : ℕ} (hv : v < 2^32) :
    load32 (store32 m a v) a = v := by
  rw [load32, store32, load16_store16_mod, load16_store16_apart _ _ (Or.inl (by omega)),
    load16_store16_mod]
  omega

theorem load32_store32_apart (m : Bytes) {a b : ℕ} (v : ℕ) (h : b+4 ≤ a ∨ a+4 ≤ b) :
    load32 (store32 m a v) b = load32 m b := by
  rw [load32, store32, load16_store16_apart _ _ (by omega), load16_store16_apart _ _ (by omega),
    load16_store16_apart _ _ (by omega), load16_store16_apart _ _ (by omega), load32]

theorem memalign_lt (n : ℕ) : memalign n < 2^32 := by
  unfold memalign
  have := Nat.mod_lt (n+7) (show 0 < 2^32 by decide)
  omega

end Words

section Blocks

variable {p q : Pool} {T : List ℕ} {L : Cls → List ℕ} {o : ℕ}

/-- The invariant reads every header field but the append mark. -/
theorem heapInv_agree (hi : HeapInv p T L) (hf : q.freelist = p.freelist)
    (hb : q.busylist = p.busylist) (hs : q.pool_size = p.pool_size) (hl : q.leftsize = p.leftsize)
    (hr : ∀ x ∈ T, ∀ f, f ≠ .used → q.rd x f = p.rd x f)
    (ht : ∀ x ∈ T, q.status x = p.status x) : HeapInv q T L where
  size_ok := hs ▸ hi.size_ok
  tiles := by
    rw [hs]
    exact hi.tiles.congr fun a ha => hr a ha .size (by decide)
  offset a ha := by
    rw [hr a ha .offset (by decide)]
    exact hi.offset a ha
  order := realLinks_congr hi.order (fun a ha => hr a ha .realprev (by decide))
    (fun a ha => hr a ha .realnext (by decide))
  lists := by
    apply listLinks_congr hi.lists
    · intro c
      cases c with
      | free i => exact congrFun hf i
      | busy => exact hb
    · exact fun c a ha => hr a (hi.mem c a ha) .prev (by decide)
    · exact fun c a ha => hr a (hi.mem c a ha) .next (by decide)
  status a ha := by
    rw [ht a ha]
    exact hi.status a ha
  mem_free a := by
    rw [hi.mem_free a]
    exact and_congr_right fun ha => by rw [ht a ha]
  mem_busy a := by
    rw [hi.mem_busy a]
    exact and_congr_right fun ha => by rw [ht a ha]
  classes hne i a ha := by
    rw [hr a (hi.mem _ a ha) .size (by decide)]
    exact hi.classes hne i a ha
  pristine := hi.pristine
  coalesced := settled_congr hi.coalesced ht
  left := by
    rw [hl, hi.left]
    exact (freeBytes_congr (fun a ha => hr a ha .size (by decide)) ht).symm

theorem heapInv_setUsed (hi : HeapInv p T L) (ho : o ∈ T) {v : ℕ} (hv : v < 65536) :
    HeapInv (p.setRd o .used v) T L := by
  apply @heapInv_agree p (p.setRd o .used v) T L hi rfl rfl rfl rfl
  · intro x hx f hf
    rw [rd_setRd hi.grid ho hx hv, if_neg (fun h => hf h.2)]
  · exact fun x hx => status_setRd hi.grid ho hx

end Blocks

section Large

variable {s s' : State} {ps fs ls M : List ℕ} {B : ℕ → List ℕ} {a size : ℕ}

def largeHeader (junk : Bytes) (size : ℕ) : Bytes :=
  store32 (store32 (store32 junk 0 mempoolLargeflag) 4 size) 8 0

theorem largeHeader_spec (junk : Bytes) (hs : size < 2^32) :
    largeFlag (largeHeader junk size) = mempoolLargeflag ∧
      largeBytes (largeHeader junk size) = size ∧ largeUsed (largeHeader junk size) = 0 := by
  refine ⟨?_, ?_, ?_⟩
  · rw [largeFlag, largeHeader, load32_store32_apart _ _ (by omega),
      load32_store32_apart _ _ (by omega), load32_store32_self _ _ (by decide)]
  · rw [largeBytes, largeHeader, load32_store32_apart _ _ (by omega), load32_store32_self _ _ hs]
  · rw [largeUsed, largeHeader, load32_store32_self _ _ (by decide)]

/-- A chunk with its header joins the large ones. -/
theorem addLarge_core {m : Bytes} {t : ℕ} {lt : Option (MpHash.Table ℕ)}
    (hc : Core s ps fs [] ls M B) (hm : largeBytes m = size) (h0 : 0 < a)
    (hr : a % 16 = 0 ∧ a+max size 1 ≤ 2^64) (ha : ∀ c ∈ s.heap.live, Chunk.Apart ⟨a, size, .large⟩ c)
    (hreg : Registers lt true (a :: ls)) :
    Core { s with
      heap := ⟨⟨a, size, .large⟩ :: s.heap.live, t⟩
      larges := Function.update s.larges a m
      config := { s.config with largeht := lt } } ps fs [] (a :: ls) M B := by
  obtain ⟨-, hnls⟩ := hc.fresh ha
  have hcfg := hc.config
  exact
    { config := ⟨hcfg.size, hcfg.again, hcfg.freepool, hcfg.low, hcfg.high⟩
      chain := @Chain.congr s { s with
        heap := ⟨⟨a, size, .large⟩ :: s.heap.live, t⟩
        larges := Function.update s.larges a m
        config := { s.config with largeht := lt } } ps fs hc.chain rfl rfl rfl rfl
        (fun _ => rfl) (fun _ => rfl)
      out := hc.out
      size := hc.size
      inv := hc.inv
      idle := hc.idle
      few := hc.few
      apart := List.pairwise_cons.mpr ⟨ha, hc.apart⟩
      range := by
        intro c hcl
        rcases List.mem_cons.mp hcl with rfl | hcl
        · exact ⟨h0, hr⟩
        · exact hc.range c hcl
      owned := by
        intro c
        have hold := hc.owned c
        have hother : ∀ x ∈ ls, Function.update s.larges a m x = s.larges x := fun x hx =>
          Function.update_of_ne (fun he : x = a => hnls (he ▸ hx)) _ _
        show (c ∈ (⟨a, size, .large⟩ :: s.heap.live : List Chunk) ∧ c.kind ≠ .other) ↔
          (∃ x ∈ s.base :: ps ++ fs ++ [], c = poolChunk s x) ∨
            ∃ x ∈ a :: ls, c = ⟨x, largeBytes (Function.update s.larges a m x), .large⟩
        constructor
        · rintro ⟨hcl, hk⟩
          rcases List.mem_cons.mp hcl with rfl | hcl
          · exact Or.inr ⟨a, by simp, by rw [Function.update_self, hm]⟩
          · rcases hold.mp ⟨hcl, hk⟩ with hx | ⟨x, hx, rfl⟩
            · exact Or.inl hx
            · exact Or.inr ⟨x, by simp [hx], by rw [hother x hx]; rfl⟩
        · rintro (hx | ⟨x, hx, rfl⟩)
          · have := hold.mpr (Or.inl hx)
            exact ⟨List.mem_cons_of_mem _ this.1, this.2⟩
          · rcases List.mem_cons.mp hx with rfl | hx
            · rw [Function.update_self, hm]
              exact ⟨List.mem_cons_self, by simp⟩
            · have := hold.mpr (Or.inr ⟨x, hx, by rw [largeChunk, hother x hx]⟩)
              exact ⟨List.mem_cons_of_mem _ this.1, this.2⟩
      ht := hc.ht
      largeht := hreg
      registered := hc.registered }

/-- Memory outside the large chunks and the registry of large chunks may change. -/
theorem looseLarges_core {g : ℕ → Bytes} {t : ℕ} {lt : Option (MpHash.Table ℕ)}
    (hc : Core s ps fs [] ls M B) (hg : ∀ x ∈ ls, largeBytes (g x) = largeBytes (s.larges x))
    (hreg : Registers lt true ls) :
    Core { s with
      heap := ⟨s.heap.live, t⟩
      larges := g
      config := { s.config with largeht := lt } } ps fs [] ls M B := by
  have hcfg := hc.config
  exact
    { config := ⟨hcfg.size, hcfg.again, hcfg.freepool, hcfg.low, hcfg.high⟩
      chain := @Chain.congr s { s with
        heap := ⟨s.heap.live, t⟩
        larges := g
        config := { s.config with largeht := lt } } ps fs hc.chain rfl rfl rfl rfl
        (fun _ => rfl) (fun _ => rfl)
      out := hc.out
      size := hc.size
      inv := hc.inv
      idle := hc.idle
      few := hc.few
      apart := hc.apart
      range := hc.range
      owned := by
        intro c
        apply (hc.owned c).trans
        show (∃ x ∈ s.base :: ps ++ fs ++ [], c = poolChunk s x) ∨
            (∃ x ∈ ls, c = ⟨x, largeBytes (s.larges x), .large⟩) ↔
          (∃ x ∈ s.base :: ps ++ fs ++ [], c = poolChunk s x) ∨
            ∃ x ∈ ls, c = ⟨x, largeBytes (g x), .large⟩
        apply or_congr Iff.rfl
        constructor
        · rintro ⟨x, hx, rfl⟩
          exact ⟨x, hx, by rw [hg x hx]⟩
        · rintro ⟨x, hx, rfl⟩
          exact ⟨x, hx, by rw [hg x hx]⟩
      ht := hc.ht
      largeht := hreg
      registered := hc.registered }

/-- `__alloc_large` fails with the pools as they were, or hands out a new chunk. -/
theorem allocLarge_spec (env : Env) (hc : Core s ps fs [] ls M B) {r : Option ℕ}
    (hrun : allocLarge env s size = .ok (s', r)) :
    s'.base = s.base ∧ s'.pools = s.pools ∧
      s'.config = { s.config with largeht := s'.config.largeht } ∧
      (s'.config.largeht = none ↔ s.config.largeht = none) ∧
      (∀ x ∈ ls, s'.larges x = s.larges x) ∧
      (r = none ∧ Core s' ps fs [] ls M B ∧ s'.property = s.property ∨
        ∃ a, r = some (a+largeSize) ∧ a ∉ ls ∧ Core s' ps fs [] (a :: ls) M B ∧
          s'.property = s.property.addAlloced (memalign ((size+largeSize) % 2^32)) ∧
          largeFlag (s'.larges a) = mempoolLargeflag ∧
          largeBytes (s'.larges a) = memalign ((size+largeSize) % 2^32) ∧
          largeUsed (s'.larges a) = 0) := by
  set n := memalign ((size+largeSize) % 2^32) with hn
  have hlt : n < 2^32 := memalign_lt _
  rw [allocLarge] at hrun
  simp only [← hn] at hrun
  clear_value n
  rcases malloc_spec env s.heap n .large with hm | ⟨a, hm, h0, hr, ha⟩
  · simp only [hm, Except.ok.injEq, Prod.mk.injEq] at hrun
    obtain ⟨rfl, rfl⟩ := hrun
    exact ⟨rfl, rfl, rfl, Iff.rfl, fun _ _ => rfl, Or.inl ⟨rfl, hc.tick _, rfl⟩⟩
  · obtain ⟨-, hnls⟩ := hc.fresh ha
    simp only [hm] at hrun
    obtain ⟨t', r', hins, hnone, hcase⟩ := insertAddr_spec hc.largeht (a := a) ⟨h0, by omega⟩
    obtain ⟨hflag, hbytes, hused⟩ := largeHeader_spec (env.junk s.heap.tick).data hlt
    have hother : ∀ x ∈ ls, Function.update s.larges a
        (largeHeader (env.junk s.heap.tick).data n) x = s.larges x := fun x hx =>
      Function.update_of_ne (fun he : x = a => hnls (he ▸ hx)) _ _
    have hins' : insertAddr (State.setLarge { s with
        heap := ⟨⟨a, n, .large⟩ :: s.heap.live, s.heap.tick+1⟩ } a
          (largeHeader (env.junk s.heap.tick).data n)).config.largeht a = .ok (t', r') := hins
    rw [largeHeader] at hins'
    rw [hins'] at hrun
    simp only [ok_bind] at hrun
    rcases hcase with ⟨hr0, -, hreg⟩ | ⟨hr0, hreg⟩
    · rw [if_pos hr0] at hrun
      simp only [Except.ok.injEq, Prod.mk.injEq] at hrun
      obtain ⟨rfl, rfl⟩ := hrun
      have hcore := @addLarge_core s ps fs ls M B a n (largeHeader (env.junk s.heap.tick).data n)
        (s.heap.tick+1) t' hc hbytes h0 hr ha hreg
      refine ⟨rfl, rfl, rfl, hnone, hother, Or.inr ⟨a, rfl, hnls,
        hcore.counters (sameLists_addAlloced _ _), rfl, ?_⟩⟩
      show largeFlag (Function.update s.larges a _ a) = _ ∧
        largeBytes (Function.update s.larges a _ a) = _ ∧
        largeUsed (Function.update s.larges a _ a) = _
      rw [Function.update_self]
      exact ⟨hflag, hbytes, hused⟩
    · rw [if_neg hr0] at hrun
      have hlive : (⟨a, n, .large⟩ :: s.heap.live : List Chunk).Pairwise Chunk.Apart :=
        List.pairwise_cons.mpr ⟨ha, hc.apart⟩
      have hfree : (Heap.mk (⟨a, n, .large⟩ :: s.heap.live) (s.heap.tick+1)).free a =
          .ok ⟨s.heap.live, s.heap.tick+1⟩ := by
        have := @free_spec ⟨⟨a, n, .large⟩ :: s.heap.live, s.heap.tick+1⟩ ⟨a, n, .large⟩ hlive
          (by simp)
        simpa using this
      simp only [State.setLarge, hfree, ok_bind, Except.ok.injEq, Prod.mk.injEq] at hrun
      obtain ⟨rfl, rfl⟩ := hrun
      exact ⟨rfl, rfl, rfl, hnone, hother, Or.inl ⟨rfl, looseLarges_core hc (fun x hx => congrArg largeBytes (hother x hx)) hreg, rfl⟩⟩

end Large

section Small

variable {s s' : State} {ps fs xs ls M : List ℕ} {B : ℕ → List ℕ} {b o v size : ℕ}

/-- Setting the append mark of a busy block. -/
theorem setUsed_core (hc : Core s ps fs xs ls M B) (hb : b ∈ s.base :: ps) (ho : o ∈ B b)
    (hv : v < 65536) :
    Core (s.setPool b ((s.pools b).setRd o .used v)) ps fs xs ls M B ∧
      (∀ a ∈ s.base :: ps, ∀ x ∈ B a,
        ((s.setPool b ((s.pools b).setRd o .used v)).pools a).rd x .size = (s.pools a).rd x .size ∧
        ((s.setPool b ((s.pools b).setRd o .used v)).pools a).rd x .used =
          if a = b ∧ x = o then v else (s.pools a).rd x .used) ∧
      ∀ a, ((s.setPool b ((s.pools b).setRd o .used v)).pools a).leftsize =
        (s.pools a).leftsize := by
  obtain ⟨T, L, hi, hL⟩ := hc.linked_inv hb
  have hoT : o ∈ T := hi.mem .busy o (hL ▸ ho)
  have hq : PoolInv ((s.pools b).setRd o .used v) (B b) := ⟨T, L, heapInv_setUsed hi hoT hv, hL⟩
  have hcore := hc.setPool hb hq rfl rfl rfl
  rw [Function.update_eq_self] at hcore
  refine ⟨hcore, fun a ha x hx => ?_, fun a => ?_⟩
  · by_cases hab : a = b
    · subst hab
      have hxT : x ∈ T := hi.mem .busy x (hL ▸ hx)
      rw [pools_setPool_self, rd_setRd hi.grid hoT hxT hv, rd_setRd hi.grid hoT hxT hv]
      simp
    · rw [pools_setPool_ne _ _ hab]
      simp [hab]
  · by_cases hab : a = b
    · rw [hab, pools_setPool_self]
      rfl
    · rw [pools_setPool_ne _ _ hab]

theorem threshold_eq (hc : ConfigOk s.config) : threshold s = s.config.pool_size-207 := by
  have hs := hc.size
  simp only [SizeOk, mempoolSize, realdataSize] at hs
  rw [threshold, mempoolSize, realdataSize,
    usub_of_le (show 192 ≤ s.config.pool_size by omega) (by omega),
    usub_of_le (by omega) (by omega)]
  omega

/-- A small request that is served gets a block with an empty append mark. -/
theorem pallocSmall_spec (env : Env) (fuel : ℕ) {r : Option ℕ} (hc : Core s ps fs [] ls M B)
    (h1 : 0 < size) (hs : size ≤ threshold s)
    (hrun : pallocSmall env fuel s size = .ok (s', r)) :
    ∃ ps' fs' M' B', Core s' ps' fs' [] ls M' B' ∧ Steady ps B s s' ∧ s'.larges = s.larges ∧
      (Acct s ps ls → Acct s' ps' ls ∧
        (s'.property.total_alloced = s.property.total_alloced ∨
          s'.property.total_alloced+s.config.pool_size ≤ s.config.max_memsize)) ∧
      (Registered s ps M → Registered s' ps' M') ∧
      (r = none ∧ Denied s ps ps' M M' B B' ∨
        ∃ b o, r = some (payload b o) ∧ Handed s s' ps ps' B B' b o (size+realdataSize) ∧
          (s'.pools b).rd o .used = 0) := by
  have hsz := hc.config.size
  simp only [SizeOk, mempoolSize, realdataSize] at hsz
  rw [threshold_eq hc.config] at hs
  have hreal : (size+realdataSize) % 2^32 = size+realdataSize := by
    rw [realdataSize]
    exact Nat.mod_eq_of_lt (by omega)
  rw [pallocSmall] at hrun
  simp only [hreal] at hrun
  obtain ⟨⟨s₁, r₁⟩, hagain, hrest⟩ := bind_ok_iff.mp hrun
  have htmp : ∀ a, (if (s.pools s.base).leftsize > size+realdataSize then some s.base
      else (s.pools s.base).next) = some a → a ∈ s.base :: ps := by
    intro a ha
    split at ha
    · rw [← Option.some.inj ha]
      exact List.mem_cons_self
    · exact chain_next_mem hc.chain List.mem_cons_self ha
  obtain ⟨ps', fs', M', B', hc₁, hst, hlg, hacct, hreg, hcase⟩ := allocAgain_spec env
    (by rw [realdataSize]; omega) fuel hc (by rw [realdataSize, mempoolSize]; omega) htmp hagain
  rcases hcase with ⟨rfl, hd⟩ | ⟨b, o, rfl, hh⟩
  · simp only [Except.ok.injEq, Prod.mk.injEq] at hrest
    obtain ⟨rfl, rfl⟩ := hrest
    exact ⟨ps', fs', M', B', hc₁, hst, hlg, hacct, hreg, Or.inl ⟨rfl, hd⟩⟩
  · simp only [Except.ok.injEq, Prod.mk.injEq] at hrest
    obtain ⟨hs', rfl⟩ := hrest
    have hb : b ∈ s₁.base :: ps' := hst.base.symm ▸ hh.mem
    have ho : o ∈ B' b := (hh.busy b hh.mem o).mpr (Or.inr ⟨rfl, rfl⟩)
    obtain ⟨hc₂, hblk, hleft⟩ := setUsed_core hc₁ hb ho (v := 0) (by decide)
    have hself := hblk b hb o ho
    rw [if_pos ⟨rfl, rfl⟩] at hself
    rw [hs'] at hc₂ hblk hleft hself
    have hbase : s'.base = s₁.base := by rw [← hs']; rfl
    have hconf : s'.config = s₁.config := by rw [← hs']; rfl
    have hprop : s'.property = s₁.property := by rw [← hs']; rfl
    have hlarge : s'.larges = s₁.larges := by rw [← hs']; rfl
    refine ⟨ps', fs', M', B', hc₂, ?_, hlarge.trans hlg, fun h => ?_, fun h => ?_,
      Or.inr ⟨b, o, rfl, ?_, hself.2⟩⟩
    · refine ⟨hbase.trans hst.base, by rw [hconf]; exact hst.config, by rw [hconf]; exact hst.ht,
        by rw [hconf]; exact hst.largeht, fun a ha x hx => ?_⟩
      have ha' : a ∈ s.base :: ps' := by
        rcases List.mem_cons.mp ha with rfl | ha
        · exact List.mem_cons_self
        · exact List.mem_cons_of_mem _ (hh.old a ha)
      obtain ⟨h2, h3⟩ := hblk a (hst.base.symm ▸ ha') x ((hh.busy a ha' x).mpr (Or.inl ⟨ha, hx⟩))
      have hne : ¬(a = b ∧ x = o) := by
        rintro ⟨rfl, rfl⟩
        exact hh.fresh ha hx
      rw [if_neg hne] at h3
      exact ⟨h2.trans (hst.blocks a ha x hx).1, h3.trans (hst.blocks a ha x hx).2⟩
    · obtain ⟨h2, h3⟩ := hacct h
      exact ⟨h2.congr hprop hconf hlarge hbase hleft, by rw [hprop]; exact h3⟩
    · have h2 := hreg h
      rw [Registered, hconf, hbase]
      exact h2
    · exact ⟨hh.mem, hh.old, hh.pools, hh.busy, hh.fresh, hself.1.symm ▸ hh.fits⟩

end Small

section Palloc

variable {s s' : State} {ps fs xs ls M : List ℕ} {B : ℕ → List ℕ} {size : ℕ}

inductive Outcome (s s' : State) (ps ps' ls ls' M M' : List ℕ) (B B' : ℕ → List ℕ) (size : ℕ) :
    Option ℕ → Prop
  | null (h : Denied s ps ps' M M' B B') (hl : ls' = ls) : Outcome s s' ps ps' ls ls' M M' B B' size none
  | small (b o : ℕ) (h : Handed s s' ps ps' B B' b o (size+realdataSize)) (hl : ls' = ls)
      (hs : size+207 ≤ s.config.pool_size)
      (hu : (s'.pools b).rd o .used = 0) : Outcome s s' ps ps' ls ls' M M' B B' size (some (payload b o))
  | large (a : ℕ) (hp : ps' = ps) (hM : M' = M) (hB : B' = B) (hl : ls' = a :: ls) (ha : a ∉ ls)
      (hs : s.config.pool_size < size+207)
      (hf : largeFlag (s'.larges a) = mempoolLargeflag)
      (hn : largeBytes (s'.larges a) = memalign ((size+largeSize) % 2^32))
      (hu : largeUsed (s'.larges a) = 0) : Outcome s s' ps ps' ls ls' M M' B B' size (some (a+largeSize))

def Palloced (s s' : State) (ps ls M : List ℕ) (B : ℕ → List ℕ) (size : ℕ) (r : Option ℕ) : Prop :=
  ∃ ps' fs' ls' M' B', Core s' ps' fs' [] ls' M' B' ∧ Steady ps B s s' ∧
    (∀ x ∈ ls, s'.larges x = s.larges x) ∧
    (Acct s ps ls → Acct s' ps' ls' ∧
      (s'.property.total_alloced = s.property.total_alloced ∨
        s'.property.total_alloced+s.config.pool_size ≤ s.config.max_memsize ∨
        s.config.pool_size < size+207 ∧ s'.property.total_alloced =
          s.property.total_alloced+memalign ((size+largeSize) % 2^32))) ∧
    (Registered s ps M → Registered s' ps' M') ∧ Outcome s s' ps ps' ls ls' M M' B B' size r

theorem palloced_null (hc : Core s ps fs [] ls M B) (t : ℕ) :
    Palloced s { s with heap := ⟨s.heap.live, t⟩ } ps ls M B size none := by
  refine ⟨ps, fs, ls, M, B, hc.tick t, ⟨rfl, rfl, Iff.rfl, Iff.rfl, fun _ _ _ _ => ⟨rfl, rfl⟩⟩,
    fun _ _ => rfl, fun h => ⟨?_, Or.inl rfl⟩, fun h => h,
    .null ⟨List.Perm.refl _, rfl, fun _ _ => rfl⟩ rfl⟩
  exact @Acct.congr s { s with heap := ⟨s.heap.live, t⟩ } ps ls h rfl rfl rfl rfl fun _ => rfl

theorem palloced_tick {t : ℕ} {r : Option ℕ}
    (h : Palloced { s with heap := ⟨s.heap.live, t⟩ } s' ps ls M B size r) :
    Palloced s s' ps ls M B size r := by
  obtain ⟨ps', fs', ls', M', B', hc, hst, hlg, hacct, hreg, ho⟩ := h
  refine ⟨ps', fs', ls', M', B', hc, ⟨hst.base, hst.config, hst.ht, hst.largeht, hst.blocks⟩, hlg,
    fun h => hacct ?_, hreg, ?_⟩
  · exact @Acct.congr s { s with heap := ⟨s.heap.live, t⟩ } ps ls h rfl rfl rfl rfl fun _ => rfl
  · cases ho with
    | null h hl => exact .null ⟨h.pools, h.registered, h.busy⟩ hl
    | small b o h hl hs hu =>
      exact .small b o ⟨h.mem, h.old, h.pools, h.busy, h.fresh, h.fits⟩ hl hs hu
    | large a hp hM hB hl ha hs hf hn hu => exact .large a hp hM hB hl ha hs hf hn hu

theorem palloced_small (env : Env) (fuel : ℕ) {r : Option ℕ} (hc : Core s ps fs [] ls M B)
    (h1 : 0 < size) (hs : size ≤ threshold s)
    (hrun : pallocSmall env fuel s size = .ok (s', r)) : Palloced s s' ps ls M B size r := by
  obtain ⟨ps', fs', M', B', hc', hst, hlg, hacct, hreg, hcase⟩ :=
    pallocSmall_spec env fuel hc h1 hs hrun
  have hsz := hc.config.size
  simp only [SizeOk, mempoolSize, realdataSize] at hsz
  refine ⟨ps', fs', ls, M', B', hc', hst, fun x _ => by rw [hlg], fun h => ?_, hreg, ?_⟩
  · obtain ⟨h2, h3 | h3⟩ := hacct h
    · exact ⟨h2, Or.inl h3⟩
    · exact ⟨h2, Or.inr (Or.inl h3)⟩
  · rcases hcase with ⟨rfl, hd⟩ | ⟨b, o, rfl, hh, hu⟩
    · exact .null hd rfl
    · rw [threshold_eq hc.config] at hs
      exact .small b o hh rfl (by omega) hu

theorem palloced_large (env : Env) {r : Option ℕ} (hc : Core s ps fs [] ls M B)
    (hs : threshold s < size) (hlow : mempoolAlloced s < s.config.max_memsize)
    (hrun : allocLarge env s size = .ok (s', r)) : Palloced s s' ps ls M B size r := by
  obtain ⟨hbase, hpools, hcfg, hnone, hlg, hcase⟩ := allocLarge_spec env hc hrun
  have hsz := hc.config.size
  simp only [SizeOk, mempoolSize, realdataSize] at hsz
  rw [threshold_eq hc.config] at hs
  have hst : Steady ps B s s' := by
    refine ⟨hbase, ?_, by rw [hcfg], hnone, fun a _ x _ => by rw [hpools]; exact ⟨rfl, rfl⟩⟩
    have hht : s'.config.ht = s.config.ht := by rw [hcfg]
    rw [hht, ← hcfg]
  have hreg : Registered s ps M → Registered s' ps M := by
    intro h
    have hht : s'.config.ht = s.config.ht := by rw [hcfg]
    rw [Registered, hht, hbase]
    exact h
  have hpsz : s'.config.pool_size = s.config.pool_size := by rw [hcfg]
  rcases hcase with ⟨rfl, hc', hp⟩ | ⟨a, rfl, hnew, hc', hp, hf, hn, hu⟩
  · refine ⟨ps, fs, ls, M, B, hc', hst, hlg, fun h => ⟨?_, Or.inl (by rw [hp])⟩, hreg,
      .null ⟨List.Perm.refl _, rfl, fun _ _ => rfl⟩ rfl⟩
    have hsum : (ls.map fun a => largeBytes (s'.larges a)) =
        ls.map fun a => largeBytes (s.larges a) :=
      List.map_congr_left fun x hx => by rw [hlg x hx]
    refine ⟨?_, ?_, ?_, ?_⟩
    · rw [hp, hpsz, hsum]
      exact h.alloced
    · rw [hp, hbase, hpools]
      exact h.leftsize
    · rw [hp]
      exact h.wrapped
    · rw [hp]
      exact h.cap
  · refine ⟨ps, fs, a :: ls, M, B, hc', hst, hlg, fun h => ?_, hreg,
      .large a rfl rfl rfl rfl hnew (by omega) hf hn hu⟩
    have hcap := h.cap
    have hhigh := hc.config.high
    have hlt := memalign_lt ((size+largeSize) % 2^32)
    rw [mempoolMaxTotal] at hhigh
    rw [mempoolAlloced, Nat.mod_eq_of_lt (by omega)] at hlow
    generalize memalign ((size+largeSize) % 2^32) = n at *
    refine ⟨h.large hp hpsz hbase hpools hlg hn (by omega), Or.inr (Or.inr ⟨by omega, ?_⟩)⟩
    rw [hp, (@addAlloced_of_lt s.property n (by omega)).1]

theorem palloc_spec (env : Env) (fuel : ℕ) {r : Option ℕ} (hc : Core s ps fs [] ls M B)
    (hrun : palloc env fuel s size = .ok (s', r)) : Palloced s s' ps ls M B size r := by
  rw [palloc] at hrun
  split at hrun
  · simp only [Except.ok.injEq, Prod.mk.injEq] at hrun
    obtain ⟨rfl, rfl⟩ := hrun
    exact palloced_null hc s.heap.tick
  · next href =>
    simp only [refuses, Bool.or_eq_true, decide_eq_true_eq, not_or, ge_iff_le, gt_iff_lt,
      Nat.not_le, Nat.not_lt] at href
    obtain ⟨⟨hlow, -⟩, h0⟩ := href
    obtain ⟨t, ok, hj⟩ : ∃ t ok, judged env s size = ({ s with heap := ⟨s.heap.live, t⟩ }, ok) := by
      rw [judged]
      split
      · exact ⟨_, _, rfl⟩
      · exact ⟨s.heap.tick, true, rfl⟩
    simp only [hj] at hrun
    have hc₁ := hc.tick t
    cases ok with
    | false =>
      simp only [Bool.not_false, if_true, Except.ok.injEq, Prod.mk.injEq] at hrun
      obtain ⟨rfl, rfl⟩ := hrun
      exact palloced_null hc t
    | true =>
      simp only [Bool.not_true, if_false, Bool.false_eq_true] at hrun
      split at hrun
      · next hbig =>
        have h := palloced_large env hc₁ hbig hlow hrun
        exact palloced_tick h
      · next hbig =>
        have h := palloced_small env fuel hc₁ (Nat.pos_of_ne_zero h0) (Nat.le_of_not_lt hbig) hrun
        exact palloced_tick h

end Palloc

end CLearning.MempoolAlloc
