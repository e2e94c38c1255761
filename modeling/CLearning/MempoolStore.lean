import CLearning.MempoolFree

/-!
# Writes into live blocks

A write into the payload of a block changes no header, and a write of an append
mark changes nothing but that mark. `pcalloc` and the append calls are made of
such writes.
-/

set_option autoImplicit false

namespace CLearning.MempoolStore
open CLearning.Machine CLearning.LinkedLists CLearning.MempoolBytes CLearning.MempoolPool
open CLearning.MempoolHeap CLearning.MempoolServe CLearning.MpHash CLearning.MempoolState
open CLearning.Mempool CLearning.MempoolChain CLearning.MempoolRegistry CLearning.MempoolCore
open CLearning.MempoolGrow CLearning.MempoolAlloc CLearning.MempoolFree

section Stores

variable {s s' : State} {ps fs ls M : List ℕ} {B : ℕ → List ℕ} {a b o d n : ℕ} {f : Bytes}

theorem splice_outside {m : Bytes} {x : ℕ} (h : x < d ∨ d+n ≤ x) :
    State.splice m d n f x = m x := by
  rw [State.splice, if_neg (by omega)]

theorem load16_splice {m : Bytes} {x : ℕ} (h : x+2 ≤ d ∨ d+n ≤ x) :
    load16 (State.splice m d n f) x = load16 m x := by
  rw [load16, load16, splice_outside (by omega), splice_outside (by omega)]

theorem load32_splice {m : Bytes} {x : ℕ} (h : x+4 ≤ d ∨ d+n ≤ x) :
    load32 (State.splice m d n f) x = load32 m x := by
  rw [load32, load32, load16_splice (by omega), load16_splice (by omega)]

theorem load32_lt (m : Bytes) (x : ℕ) : load32 m x < 2^32 := by
  have hlo := load16_lt m x
  have hhi := load16_lt m (x+2)
  rw [load32]
  omega

theorem rd_splice {p : Pool} {x : ℕ} (h : x+15 ≤ d ∨ d+n ≤ x) (g : Field) :
    ({ p with data := State.splice p.data d n f } : Pool).rd x g = p.rd x g := by
  have hg := g.pos_le
  exact load16_splice (by omega)

theorem status_splice {p : Pool} {x : ℕ} (h : x+15 ≤ d ∨ d+n ≤ x) :
    ({ p with data := State.splice p.data d n f } : Pool).status x = p.status x := by
  show (State.splice p.data d n f (x+14)).toNat = (p.data (x+14)).toNat
  rw [splice_outside (by omega)]

theorem splice_apart {p : Pool} {T : List ℕ} {L : Cls → List ℕ} (hi : HeapInv p T L) (ho : o ∈ T)
    (hlo : o+15 ≤ d) (hhi : d+n ≤ o+p.rd o .size) {x : ℕ} (hx : x ∈ T) :
    x+15 ≤ d ∨ d+n ≤ x := by
  by_cases hxo : x = o
  · subst hxo
    exact Or.inl hlo
  · have h16 := (hi.tiles.bounds.2 x hx).2.1
    rcases hi.tiles.disjoint ho hx (Ne.symm hxo) with h | h <;> omega

structure Written (ps ls : List ℕ) (B : ℕ → List ℕ) (s s' : State) : Prop where
  base : s'.base = s.base
  config : s'.config = s.config
  property : s'.property = s.property
  heap : s'.heap = s.heap
  left : ∀ x, (s'.pools x).leftsize = (s.pools x).leftsize
  blocks : ∀ x ∈ s.base :: ps, ∀ y ∈ B x, (s'.pools x).rd y .size = (s.pools x).rd y .size ∧
    (s'.pools x).rd y .used = (s.pools x).rd y .used
  larges : ∀ x ∈ ls, largeFlag (s'.larges x) = largeFlag (s.larges x) ∧
    largeBytes (s'.larges x) = largeBytes (s.larges x) ∧
    largeUsed (s'.larges x) = largeUsed (s.larges x)

theorem store_small (hc : Core s ps fs [] ls M B) (hb : b ∈ s.base :: ps) (ho : o ∈ B b)
    (hn : 0 < n) (hlo : o+realdataSize ≤ d) (hhi : d+n ≤ o+(s.pools b).rd o .size) :
    ∃ s', s.store (b+mempoolSize+d) n f = .ok s' ∧ Core s' ps fs [] ls M B ∧
      Written ps ls B s s' ∧ s'.larges = s.larges := by
  obtain ⟨h16, hle, -, -⟩ := block_bounds hc hb ho
  obtain ⟨hlive, -, -, h208⟩ := pool_range hc hb
  simp only [mempoolSize, realdataSize] at hle hlo
  have hloc := locate_unique (a := b+mempoolSize+d) (n := n) hc.apart hlive hn
    (by simp only [poolChunk, mempoolSize]; omega)
    (by simp only [poolChunk, mempoolSize]; omega)
  have hoff : b+mempoolSize+d-b-mempoolSize = d := by omega
  have hge : b+mempoolSize ≤ b+mempoolSize+d := by omega
  simp only [poolChunk, hoff, hge, if_true] at hloc
  obtain ⟨T, L, hi, hL⟩ := hc.linked_inv hb
  have hoT : o ∈ T := hi.mem .busy o (hL ▸ ho)
  have hap : ∀ x ∈ T, x+15 ≤ d ∨ d+n ≤ x := fun x hx => splice_apart hi hoT hlo hhi hx
  have hq : PoolInv { s.pools b with data := State.splice (s.pools b).data d n f } (B b) := by
    have hi' := @heapInv_agree _ { s.pools b with data := State.splice (s.pools b).data d n f } T L
      hi rfl rfl rfl rfl (fun x hx g _ => rd_splice (hap x hx) g)
      (fun x hx => status_splice (hap x hx))
    exact ⟨T, L, hi', hL⟩
  have hcore := hc.setPool hb hq rfl rfl rfl
  rw [Function.update_eq_self] at hcore
  refine ⟨_, by rw [State.store, hloc], hcore, ⟨rfl, rfl, rfl, rfl, fun x => ?_, fun x hx y hy => ?_,
    fun _ _ => ⟨rfl, rfl, rfl⟩⟩, rfl⟩
  · by_cases hxb : x = b
    · rw [hxb, pools_setPool_self]
    · rw [pools_setPool_ne _ _ hxb]
  · by_cases hxb : x = b
    · subst hxb
      have hyT : y ∈ T := hi.mem .busy y (hL ▸ hy)
      rw [pools_setPool_self]
      exact ⟨rd_splice (hap y hyT) .size, rd_splice (hap y hyT) .used⟩
    · rw [pools_setPool_ne _ _ hxb]
      exact ⟨rfl, rfl⟩

theorem store_large (hc : Core s ps fs [] ls M B) (ha : a ∈ ls) (hn : 0 < n)
    (hlo : largeSize ≤ d) (hhi : d+n ≤ largeBytes (s.larges a)) :
    ∃ s', s.store (a+d) n f = .ok s' ∧ Core s' ps fs [] ls M B ∧ Written ps ls B s s' ∧
      s'.pools = s.pools ∧ ∀ x, x ≠ a → s'.larges x = s.larges x := by
  have hlive := hc.large_live ha
  have hloc := locate_unique (a := a+d) (n := n) hc.apart hlive hn
    (by simp only [largeChunk]; omega) (by simp only [largeChunk]; omega)
  have hoff : a+d-a = d := by omega
  simp only [largeChunk, hoff] at hloc
  have hw : ∀ k, k+4 ≤ largeSize → load32 (State.splice (s.larges a) d n f) k =
      load32 (s.larges a) k := fun k hk => load32_splice (by omega)
  have hfields : ∀ x, largeFlag (Function.update s.larges a
        (State.splice (s.larges a) d n f) x) = largeFlag (s.larges x) ∧
      largeBytes (Function.update s.larges a (State.splice (s.larges a) d n f) x) =
        largeBytes (s.larges x) ∧
      largeUsed (Function.update s.larges a (State.splice (s.larges a) d n f) x) =
        largeUsed (s.larges x) := by
    intro x
    by_cases hxa : x = a
    · subst hxa
      rw [Function.update_self]
      exact ⟨hw 0 (by decide), hw 4 (by decide), hw 8 (by decide)⟩
    · rw [Function.update_of_ne hxa]
      exact ⟨rfl, rfl, rfl⟩
  have hcore : Core (s.setLarge a (State.splice (s.larges a) d n f)) ps fs [] ls M B :=
    @looseLarges_core s ps fs ls M B (Function.update s.larges a
      (State.splice (s.larges a) d n f)) s.heap.tick s.config.largeht hc
      (fun x _ => (hfields x).2.1) hc.largeht
  refine ⟨_, by rw [State.store, hloc], hcore, ⟨rfl, rfl, rfl, rfl, fun _ => rfl,
    fun _ _ _ _ => ⟨rfl, rfl⟩, fun x _ => hfields x⟩, rfl, fun x hx => ?_⟩
  exact Function.update_of_ne hx _ _

/-- A write right behind the header of a large chunk that is not a wild one stays
in the chunk: the next chunk is sixteen bytes away at least. -/
theorem store_large_fits (hc : Core s ps fs [] ls M B) (ha : a ∈ ls) (hn : 0 < n)
    (hrun : s.store (a+largeSize) n f = .ok s') :
    largeSize+n ≤ largeBytes (s.larges a) := by
  have hlive := hc.large_live ha
  obtain ⟨c, hcl, hlo, hhi⟩ : ∃ c ∈ s.heap.live, c.addr ≤ a+largeSize ∧
      a+largeSize+n ≤ c.addr+c.size := by
    rw [State.store] at hrun
    cases hloc : s.locate (a+largeSize) n with
    | none => simp [hloc] at hrun
    | some pl =>
      obtain ⟨c, hcl, hf⟩ := List.exists_of_findSome?_eq_some hloc
      refine ⟨c, hcl, ?_⟩
      cases hk : c.kind with
      | pool =>
        simp only [hk] at hf
        split at hf
        · next h => exact ⟨by omega, h.2⟩
        · cases hf
      | large =>
        simp only [hk] at hf
        split at hf
        · next h => exact h
        · cases hf
      | other => simp [hk] at hf
  by_cases hca : largeChunk s a = c
  · subst hca
    simp only [largeChunk] at hhi
    omega
  · have hal := (hc.range _ hlive).2.1
    have hcl16 := (hc.range _ hcl).2.1
    simp only [largeChunk] at hal
    simp only [largeSize] at hlo hhi
    rcases apart_of_mem hc.apart hlive hcl hca with h | h
    · simp only [largeChunk] at h
      omega
    · simp only [largeChunk] at h
      omega

end Stores

section Pcalloc

variable {s s₁ s' : State} {ps ps' fs fs' ls ls' M M' : List ℕ} {B B' : ℕ → List ℕ} {size : ℕ}

theorem acct_written (h : Acct s ps ls) (hw : Written ps ls B s s') : Acct s' ps ls where
  alloced := by
    have hsum : (ls.map fun a => largeBytes (s'.larges a)) =
        ls.map fun a => largeBytes (s.larges a) :=
      List.map_congr_left fun x hx => (hw.larges x hx).2.1
    rw [hw.property, hw.config, hsum]
    exact h.alloced
  leftsize := by
    rw [hw.property, hw.base]
    simp only [hw.left]
    exact h.leftsize
  wrapped := hw.property ▸ h.wrapped
  cap := hw.property ▸ h.cap

theorem outcome_written {r : Option ℕ} (h : Outcome s s₁ ps ps' ls ls' M M' B B' size r)
    (hb : s₁.base = s.base) (hw : Written ps' ls' B' s₁ s') :
    Outcome s s' ps ps' ls ls' M M' B B' size r := by
  cases h with
  | null h hl => exact .null h hl
  | small b o h hl hs hu =>
    have ho : o ∈ B' b := (h.busy b h.mem o).mpr (Or.inr ⟨rfl, rfl⟩)
    obtain ⟨h1, h2⟩ := hw.blocks b (hb.symm ▸ h.mem) o ho
    refine .small b o ⟨h.mem, h.old, h.pools, h.busy, h.fresh, ?_⟩ hl hs (h2.trans hu)
    rw [h1]
    exact h.fits
  | large a hp hM hB hl ha hs hf hn hu =>
    obtain ⟨h1, h2, h3⟩ := hw.larges a (by simp [hl])
    exact .large a hp hM hB hl ha hs (h1.trans hf) (h2.trans hn) (h3.trans hu)

theorem outcome_old {r : Option ℕ} (h : Outcome s s₁ ps ps' ls ls' M M' B B' size r) {a x : ℕ}
    (ha : a ∈ s.base :: ps) (hx : x ∈ B a) : a ∈ s.base :: ps' ∧ x ∈ B' a := by
  cases h with
  | null h hl =>
    refine ⟨by simpa [h.pools.mem_iff] using ha, ?_⟩
    rw [h.busy a ha]
    exact hx
  | small b o h hl hs hu =>
    have ha' : a ∈ s.base :: ps' := by
      rcases List.mem_cons.mp ha with rfl | ha
      · exact List.mem_cons_self
      · exact List.mem_cons_of_mem _ (h.old a ha)
    exact ⟨ha', (h.busy a ha' x).mpr (Or.inl ⟨ha, hx⟩)⟩
  | large b hp hM hB hl hnew hs hf hn hu => exact ⟨hp ▸ ha, hB ▸ hx⟩

theorem palloc_pos (env : Env) (fuel : ℕ) {a : ℕ} (hrun : palloc env fuel s size = .ok (s', some a)) :
    0 < size := by
  rw [palloc] at hrun
  by_contra h
  rw [if_pos (by simp [refuses, Nat.eq_zero_of_not_pos h])] at hrun
  cases hrun

theorem pcalloc_spec (env : Env) (fuel : ℕ) {r : Option ℕ} (hc : Core s ps fs [] ls M B)
    (hrun : pcalloc env fuel s size = .ok (s', r)) : Palloced s s' ps ls M B size r := by
  obtain ⟨⟨s₁, r₁⟩, hpal, hrest⟩ := bind_ok_iff.mp hrun
  obtain ⟨ps', fs', ls', M', B', hc₁, hst, hlg, hacct, hreg, hout⟩ := palloc_spec env fuel hc hpal
  -- what is left once the zeroing is known to write into the new block only
  have finish : ∀ t, Core t ps' fs' [] ls' M' B' → Written ps' ls' B' s₁ t →
      (∀ x ∈ ls, t.larges x = s₁.larges x) → Palloced s t ps ls M B size r₁ := by
    intro t hct hw hl
    refine ⟨ps', fs', ls', M', B', hct, ⟨hw.base.trans hst.base, ?_, ?_, ?_, fun a ha x hx => ?_⟩,
      fun x hx => (hl x hx).trans (hlg x hx), fun h => ?_, fun h => ?_,
      outcome_written hout hst.base hw⟩
    · rw [hw.config]
      exact hst.config
    · rw [hw.config]
      exact hst.ht
    · rw [hw.config]
      exact hst.largeht
    · obtain ⟨ha', hx'⟩ := outcome_old hout ha hx
      obtain ⟨h1, h2⟩ := hw.blocks a (hst.base.symm ▸ ha') x hx'
      obtain ⟨h3, h4⟩ := hst.blocks a ha x hx
      exact ⟨h1.trans h3, h2.trans h4⟩
    · obtain ⟨h1, h2⟩ := hacct h
      refine ⟨acct_written h1 hw, ?_⟩
      rw [hw.property]
      exact h2
    · have h1 := hreg h
      rw [Registered, hw.config, hw.base]
      exact h1
  cases hout with
  | null h hl =>
    simp only [Except.ok.injEq, Prod.mk.injEq] at hrest
    obtain ⟨rfl, rfl⟩ := hrest
    exact ⟨ps', fs', ls', M', B', hc₁, hst, hlg, hacct, hreg, .null h hl⟩
  | small b o h hl hs hu =>
    have hpos := palloc_pos env fuel hpal
    have hb : b ∈ s₁.base :: ps' := hst.base.symm ▸ h.mem
    have ho : o ∈ B' b := (h.busy b h.mem o).mpr (Or.inr ⟨rfl, rfl⟩)
    have hfits := h.fits
    obtain ⟨t, hstore, hct, hw, hlt⟩ := store_small (n := size)
      (f := fun _ => 0) hc₁ hb ho hpos (Nat.le_refl _) (by omega)
    have haddr : payload b o = b+mempoolSize+(o+realdataSize) := by
      rw [payload]
      omega
    simp only [haddr, hstore, ok_bind, Except.ok.injEq, Prod.mk.injEq] at hrest
    obtain ⟨rfl, rfl⟩ := hrest
    rw [← haddr]
    exact finish t hct hw fun x _ => by rw [hlt]
  | large a hp hM hB hl ha hs hf hn hu =>
    have hpos := palloc_pos env fuel hpal
    have hmem : a ∈ ls' := by simp [hl]
    obtain ⟨t₀, hstore, hrest⟩ := bind_ok_iff.mp hrest
    have hfits := store_large_fits hc₁ hmem hpos hstore
    obtain ⟨t, hstore', hct, hw, -, hlt⟩ := store_large (n := size)
      (f := fun _ => 0) hc₁ hmem hpos (Nat.le_refl _) hfits
    rw [hstore', Except.ok.injEq] at hstore
    subst hstore
    simp only [Except.ok.injEq, Prod.mk.injEq] at hrest
    obtain ⟨rfl, rfl⟩ := hrest
    exact finish t hct hw fun x hx => hlt x (fun he => ha (he ▸ hx))

end Pcalloc

section Marks

variable {s s₁ s' t : State} {ps fs ls M : List ℕ} {B : ℕ → List ℕ} {a b o k m v : ℕ} {f : Bytes}

structure Marked (ps ls : List ℕ) (B : ℕ → List ℕ) (s s' : State) : Prop where
  base : s'.base = s.base
  config : s'.config = s.config
  property : s'.property = s.property
  heap : s'.heap = s.heap
  left : ∀ x, (s'.pools x).leftsize = (s.pools x).leftsize
  blocks : ∀ x ∈ s.base :: ps, ∀ y ∈ B x, (s'.pools x).rd y .size = (s.pools x).rd y .size ∧
    ((s'.pools x).rd y .used = (s.pools x).rd y .used ∨
      (s'.pools x).rd y .used+realdataSize ≤ (s.pools x).rd y .size)
  larges : ∀ x ∈ ls, largeFlag (s'.larges x) = largeFlag (s.larges x) ∧
    largeBytes (s'.larges x) = largeBytes (s.larges x) ∧
    (largeUsed (s'.larges x) = largeUsed (s.larges x) ∨ largeUsed (s'.larges x) = 0 ∨
      largeUsed (s'.larges x)+largeSize ≤ largeBytes (s.larges x))

theorem marked_refl (s : State) : Marked ps ls B s s :=
  ⟨rfl, rfl, rfl, rfl, fun _ => rfl, fun _ _ _ _ => ⟨rfl, Or.inl rfl⟩,
    fun _ _ => ⟨rfl, rfl, Or.inl rfl⟩⟩

theorem marked_of_written (h : Written ps ls B s s') : Marked ps ls B s s' where
  base := h.base
  config := h.config
  property := h.property
  heap := h.heap
  left := h.left
  blocks x hx y hy := ⟨(h.blocks x hx y hy).1, Or.inl (h.blocks x hx y hy).2⟩
  larges x hx := ⟨(h.larges x hx).1, (h.larges x hx).2.1, Or.inl (h.larges x hx).2.2⟩

theorem Marked.trans (h : Marked ps ls B s s') (h' : Marked ps ls B s' t) :
    Marked ps ls B s t where
  base := h'.base.trans h.base
  config := h'.config.trans h.config
  property := h'.property.trans h.property
  heap := h'.heap.trans h.heap
  left x := (h'.left x).trans (h.left x)
  blocks x hx y hy := by
    obtain ⟨h1, h2⟩ := h.blocks x hx y hy
    obtain ⟨h3, h4⟩ := h'.blocks x (h.base.symm ▸ hx) y hy
    refine ⟨h3.trans h1, ?_⟩
    rcases h4 with h4 | h4
    · rw [h4]
      exact h2
    · exact Or.inr (h1 ▸ h4)
  larges x hx := by
    obtain ⟨h1, h2, h3⟩ := h.larges x hx
    obtain ⟨h4, h5, h6⟩ := h'.larges x hx
    refine ⟨h4.trans h1, h5.trans h2, ?_⟩
    rcases h6 with h6 | h6 | h6
    · rw [h6]
      exact h3
    · exact Or.inr (Or.inl h6)
    · exact Or.inr (Or.inr (h2 ▸ h6))

theorem mark_small (hc : Core s ps fs [] ls M B) (hb : b ∈ s.base :: ps) (ho : o ∈ B b)
    (hv : v+realdataSize ≤ (s.pools b).rd o .size) :
    Core (s.setPool b ((s.pools b).setRd o .used v)) ps fs [] ls M B ∧
      Marked ps ls B s (s.setPool b ((s.pools b).setRd o .used v)) := by
  have hlt : (s.pools b).rd o .size < 65536 := rd_lt
  obtain ⟨hcore, hblk, hleft⟩ := setUsed_core (v := v) hc hb ho (by omega)
  refine ⟨hcore, rfl, rfl, rfl, rfl, hleft, fun x hx y hy => ?_,
    fun _ _ => ⟨rfl, rfl, Or.inl rfl⟩⟩
  obtain ⟨h1, h2⟩ := hblk x hx y hy
  refine ⟨h1, ?_⟩
  by_cases hxy : x = b ∧ y = o
  · rw [h2, if_pos hxy, hxy.1, hxy.2]
    exact Or.inr hv
  · rw [h2, if_neg hxy]
    exact Or.inl rfl

/-- A mark of a large block, whether or not it fits. -/
theorem setLarge_mark (hc : Core s ps fs [] ls M B) (hv : v < 2^32) :
    Core (s.setLarge a (store32 (s.larges a) 8 v)) ps fs [] ls M B ∧
      ∀ x, largeFlag ((s.setLarge a (store32 (s.larges a) 8 v)).larges x) = largeFlag (s.larges x) ∧
        largeBytes ((s.setLarge a (store32 (s.larges a) 8 v)).larges x) = largeBytes (s.larges x) ∧
        largeUsed ((s.setLarge a (store32 (s.larges a) 8 v)).larges x) =
          if x = a then v else largeUsed (s.larges x) := by
  have hfields : ∀ x, largeFlag ((s.setLarge a (store32 (s.larges a) 8 v)).larges x) =
        largeFlag (s.larges x) ∧
      largeBytes ((s.setLarge a (store32 (s.larges a) 8 v)).larges x) = largeBytes (s.larges x) ∧
      largeUsed ((s.setLarge a (store32 (s.larges a) 8 v)).larges x) =
        if x = a then v else largeUsed (s.larges x) := by
    intro x
    simp only [State.setLarge]
    by_cases hx : x = a
    · subst hx
      rw [Function.update_self, if_pos rfl]
      exact ⟨load32_store32_apart _ _ (by omega), load32_store32_apart _ _ (by omega),
        load32_store32_self _ _ hv⟩
    · rw [Function.update_of_ne hx, if_neg hx]
      exact ⟨rfl, rfl, rfl⟩
  exact ⟨@looseLarges_core s ps fs ls M B (Function.update s.larges a (store32 (s.larges a) 8 v))
    s.heap.tick s.config.largeht hc (fun x _ => (hfields x).2.1) hc.largeht, hfields⟩

theorem mark_large (hc : Core s ps fs [] ls M B) (hv : v < 2^32)
    (hfit : v = 0 ∨ v+largeSize ≤ largeBytes (s.larges a)) :
    Core (s.setLarge a (store32 (s.larges a) 8 v)) ps fs [] ls M B ∧
      Marked ps ls B s (s.setLarge a (store32 (s.larges a) 8 v)) := by
  obtain ⟨hcore, hfields⟩ := @setLarge_mark s ps fs ls M B a v hc hv
  refine ⟨hcore, rfl, rfl, rfl, rfl, fun _ => rfl, fun _ _ _ _ => ⟨rfl, Or.inl rfl⟩,
    fun x _ => ?_⟩
  obtain ⟨h1, h2, h3⟩ := hfields x
  refine ⟨h1, h2, ?_⟩
  by_cases hx : x = a
  · rw [h3, if_pos hx, hx]
    exact Or.inr hfit
  · rw [h3, if_neg hx]
    exact Or.inl rfl

theorem append_small (hc : Core s ps fs [] ls M B) (hb : b ∈ s.base :: ps) (ho : o ∈ B b)
    (hk : 0 < k) (hfit : (s.pools b).rd o .used+realdataSize+k ≤ (s.pools b).rd o .size)
    (hm : (s.pools b).rd o .used+realdataSize+m ≤ (s.pools b).rd o .size) :
    ∃ s₁, s.store (payload b o+(s.pools b).rd o .used) k f = .ok s₁ ∧
      (Core s₁ ps fs [] ls M B ∧ Marked ps ls B s s₁) ∧
      Core (s₁.setPool b ((s₁.pools b).setRd o .used ((s₁.pools b).rd o .used+m))) ps fs [] ls M B ∧
      Marked ps ls B s
        (s₁.setPool b ((s₁.pools b).setRd o .used ((s₁.pools b).rd o .used+m))) := by
  obtain ⟨s₁, hstore, hc₁, hw, -⟩ := store_small (f := f) (n := k)
    (d := o+realdataSize+(s.pools b).rd o .used) hc hb ho hk (by omega) (by omega)
  obtain ⟨h1, h2⟩ := hw.blocks b hb o ho
  have hb₁ : b ∈ s₁.base :: ps := hw.base.symm ▸ hb
  have hmark := mark_small (v := (s₁.pools b).rd o .used+m) hc₁ hb₁ ho (by rw [h1, h2]; omega)
  have haddr : payload b o+(s.pools b).rd o .used =
      b+mempoolSize+(o+realdataSize+(s.pools b).rd o .used) := by
    rw [payload]
    omega
  rw [haddr]
  exact ⟨s₁, hstore, ⟨hc₁, marked_of_written hw⟩, hmark.1,
    (marked_of_written hw).trans hmark.2⟩

/-- The same in a large block; a store the run made stays in the chunk. -/
theorem append_large (hc : Core s ps fs [] ls M B) (ha : a ∈ ls) (hk : 0 < k)
    (hfit : largeUsed (s.larges a) = 0 ∨
      largeUsed (s.larges a)+largeSize+k ≤ largeBytes (s.larges a))
    (hmk : m ≤ k) (hrun : s.store (a+largeSize+largeUsed (s.larges a)) k f = .ok s₁) :
    (Core s₁ ps fs [] ls M B ∧ Marked ps ls B s s₁) ∧
      Core (s₁.setLarge a (store32 (s₁.larges a) 8 (largeUsed (s₁.larges a)+m))) ps fs [] ls M B ∧
      Marked ps ls B s
        (s₁.setLarge a (store32 (s₁.larges a) 8 (largeUsed (s₁.larges a)+m))) := by
  have hroom : largeUsed (s.larges a)+largeSize+k ≤ largeBytes (s.larges a) := by
    rcases hfit with h | h
    · rw [h] at hrun
      have := store_large_fits hc ha hk hrun
      omega
    · exact h
  obtain ⟨s₂, hstore, hc₁, hw, -⟩ := store_large (f := f) (n := k)
    (d := largeSize+largeUsed (s.larges a)) hc ha hk (by omega) (by omega)
  have haddr : a+(largeSize+largeUsed (s.larges a)) = a+largeSize+largeUsed (s.larges a) := by
    omega
  rw [haddr, hrun, Except.ok.injEq] at hstore
  subst hstore
  obtain ⟨-, h1, h2⟩ := hw.larges a ha
  have hlt : largeBytes (s.larges a) < 2^32 := load32_lt _ _
  have hmark := mark_large (a := a) (v := largeUsed (s₁.larges a)+m) hc₁
    (by rw [h2]; simp only [largeSize] at hroom; omega) (Or.inr (by rw [h1, h2]; omega))
  exact ⟨⟨hc₁, marked_of_written hw⟩, hmark.1, (marked_of_written hw).trans hmark.2⟩

end Marks

section Appends

variable {s s' : State} {ps fs ls M : List ℕ} {B : ℕ → List ℕ} {a b o n src : ℕ} {r : Option ℕ}
  {text : List UInt8} {len : ℤ}

theorem splice_zero (m : Bytes) (x : ℕ) (f : Bytes) : State.splice m x 0 f = m := by
  funext i
  rw [State.splice, if_neg (by omega)]

theorem store_zero {x : ℕ} {f : Bytes} (h : s.store x 0 f = .ok s') : s' = s := by
  rw [State.store] at h
  split at h
  · rw [Except.ok.injEq, splice_zero] at h
    rw [← h, State.setPool, Function.update_eq_self]
  · rw [Except.ok.injEq, splice_zero] at h
    rw [← h, State.setLarge, Function.update_eq_self]
  · cases h

theorem toInt32_pos {k : ℕ} (h : 0 < toInt32 k) : (toInt32 k).toNat = k % 2^32 := by
  rw [toInt32] at h ⊢
  split at h
  · next hk =>
    rw [if_pos hk]
    exact Int.toNat_natCast _
  · omega

theorem pmemcpyBytes_cases (env : Env) {dest dsize used : ℕ} {c : ℤ}
    (h : pmemcpyBytes env s dest dsize used src n = .ok (s', c)) :
    (s' = s ∧ c ≤ 0) ∨ n ≤ usub 32 dsize used ∧ c = toInt32 n ∧
      ∃ f, s.store (dest+used) n f = .ok s' := by
  simp only [pmemcpyBytes] at h
  split at h
  · simp only [Except.ok.injEq, Prod.mk.injEq] at h
    exact Or.inl ⟨h.1.symm, by omega⟩
  split at h
  · simp only [Except.ok.injEq, Prod.mk.injEq] at h
    exact Or.inl ⟨h.1.symm, by omega⟩
  · next hle hov =>
    obtain ⟨t, ht, h⟩ := bind_ok_iff.mp h
    rw [Except.ok.injEq, Prod.mk.injEq] at h
    obtain ⟨rfl, rfl⟩ := h
    exact Or.inr ⟨Nat.le_of_not_lt hle, rfl, _, ht⟩

theorem pmemcpySmall_spec (env : Env) (hc : Core s ps fs [] ls M B) (hb : b ∈ s.base :: ps)
    (ho : o ∈ B b) (hu : (s.pools b).rd o .used+realdataSize ≤ (s.pools b).rd o .size)
    (hn : n < 2^32) (hrun : pmemcpySmall env s (payload b o) src n b o = .ok (s', r)) :
    Core s' ps fs [] ls M B ∧ Marked ps ls B s s' := by
  obtain ⟨⟨s₁, c⟩, hcpy, hrun⟩ := bind_ok_iff.mp hrun
  have hlt : (s.pools b).rd o .size < 65536 := rd_lt
  rw [Except.ok.injEq, Prod.mk.injEq] at hrun
  obtain ⟨rfl, -⟩ := hrun
  rcases pmemcpyBytes_cases env hcpy with ⟨rfl, hneg⟩ | ⟨hle, rfl, f, hstore⟩
  · rw [if_neg (by omega)]
    exact ⟨hc, marked_refl _⟩
  · rw [usub_of_le (show realdataSize ≤ (s.pools b).rd o .size by omega) (by omega),
      usub_of_le (by omega) (by omega)] at hle
    by_cases hpos : 0 < toInt32 n
    · have hnn := toInt32_pos hpos
      rw [Nat.mod_eq_of_lt hn] at hnn
      have hn0 : 0 < n := by omega
      obtain ⟨s₂, hstore', -, hmark⟩ := append_small (f := f) (k := n) (m := n) hc hb ho hn0
        (by omega) (by omega)
      rw [hstore, Except.ok.injEq] at hstore'
      subst hstore'
      rw [if_pos hpos, hnn]
      exact hmark
    · rw [if_neg hpos]
      rcases Nat.eq_zero_or_pos n with rfl | hn0
      · rw [store_zero hstore]
        exact ⟨hc, marked_refl _⟩
      · obtain ⟨s₂, hstore', hmark, -⟩ := append_small (f := f) (k := n) (m := 0) hc hb ho hn0
          (by omega) (by omega)
        rw [hstore, Except.ok.injEq] at hstore'
        subst hstore'
        exact hmark

/-- Appending to a large block, from the values its header has. -/
theorem pmemcpyBytes_large (env : Env) {c : ℤ} (hc : Core s ps fs [] ls M B) (ha : a ∈ ls)
    (hu : largeUsed (s.larges a) = 0 ∨
      largeUsed (s.larges a)+largeSize ≤ largeBytes (s.larges a)) (hn : n < 2^32)
    (hrun : pmemcpyBytes env s (a+largeSize) (usub 32 (largeBytes (s.larges a)) largeSize)
      (largeUsed (s.larges a)) src n = .ok (s', c)) :
    (Core s' ps fs [] ls M B ∧ Marked ps ls B s s') ∧
      (c > 0 →
        Core (s'.setLarge a (store32 (s'.larges a) 8 (largeUsed (s'.larges a)+c.toNat)))
          ps fs [] ls M B ∧
        Marked ps ls B s
          (s'.setLarge a (store32 (s'.larges a) 8 (largeUsed (s'.larges a)+c.toNat)))) := by
  have hlt : largeBytes (s.larges a) < 2^32 := load32_lt _ _
  rcases pmemcpyBytes_cases env hrun with ⟨rfl, hneg⟩ | ⟨hle, rfl, f, hstore⟩
  · exact ⟨⟨hc, marked_refl _⟩, fun h => by omega⟩
  · have hfit : largeUsed (s.larges a) = 0 ∨
        largeUsed (s.larges a)+largeSize+n ≤ largeBytes (s.larges a) := by
      rcases hu with hu | hu
      · exact Or.inl hu
      · rw [usub_of_le (show largeSize ≤ largeBytes (s.larges a) by omega) hlt,
          usub_of_le (by omega) (by omega)] at hle
        exact Or.inr (by omega)
    rcases Nat.eq_zero_or_pos n with rfl | hn0
    · rw [store_zero hstore]
      exact ⟨⟨hc, marked_refl _⟩, fun h => absurd h (by decide)⟩
    · have hmark := fun m (hm : m ≤ n) => append_large (m := m) hc ha hn0 hfit hm hstore
      refine ⟨(hmark 0 (Nat.zero_le _)).1, fun hpos => ?_⟩
      rw [toInt32_pos hpos, Nat.mod_eq_of_lt hn]
      exact (hmark n (Nat.le_refl _)).2

theorem psprintfSmall_spec (hc : Core s ps fs [] ls M B) (hb : b ∈ s.base :: ps) (ho : o ∈ B b)
    (hu : (s.pools b).rd o .used+realdataSize ≤ (s.pools b).rd o .size)
    (hrun : psprintfSmall s (payload b o) text b o = .ok (s', len)) :
    Core s' ps fs [] ls M B ∧ Marked ps ls B s s' := by
  have hlt : (s.pools b).rd o .size < 65536 := rd_lt
  simp only [psprintfSmall] at hrun
  split at hrun
  · next hpos =>
    have hleft := toInt32_pos hpos
    rw [usub_of_le (show realdataSize ≤ (s.pools b).rd o .size by omega) (by omega),
      usub_of_le (by omega) (by omega), Nat.mod_eq_of_lt (by omega)] at hleft
    rw [usub_of_le (show realdataSize ≤ (s.pools b).rd o .size by omega) (by omega),
      usub_of_le (by omega) (by omega)] at hpos hrun
    obtain ⟨s₁, hstore, hrun⟩ := bind_ok_iff.mp hrun
    rw [Except.ok.injEq, Prod.mk.injEq] at hrun
    obtain ⟨rfl, -⟩ := hrun
    rw [vsnprintf, hleft] at hstore
    obtain ⟨s₂, hstore', hplain, hmark⟩ := append_small (m := min text.length
        ((s.pools b).rd o .size-realdataSize-(s.pools b).rd o .used)) hc hb ho
      (k := min (text.length+1) ((s.pools b).rd o .size-realdataSize-(s.pools b).rd o .used))
      (f := fun i => if i+1 < (s.pools b).rd o .size-realdataSize-(s.pools b).rd o .used then
        text.getD i 0 else 0) (by omega) (by omega) (by omega)
    rw [hstore, Except.ok.injEq] at hstore'
    subst hstore'
    split
    · rw [hleft]
      exact hmark
    · exact hplain
  · rw [Except.ok.injEq, Prod.mk.injEq] at hrun
    rw [← hrun.1]
    exact ⟨hc, marked_refl _⟩

theorem vsnprintf_large {m : ℕ} (hc : Core s ps fs [] ls M B) (ha : a ∈ ls)
    (hu : largeUsed (s.larges a) = 0 ∨
      largeUsed (s.larges a)+largeSize ≤ largeBytes (s.larges a))
    (hpos : 0 < toInt32 (usub 32 (usub 32 (largeBytes (s.larges a)) largeSize)
      (largeUsed (s.larges a))))
    (hm : m = (toInt32 (usub 32 (usub 32 (largeBytes (s.larges a)) largeSize)
      (largeUsed (s.larges a)))).toNat)
    (hrun : vsnprintf s (a+largeSize+largeUsed (s.larges a)) m text = .ok s') :
    (Core s' ps fs [] ls M B ∧ Marked ps ls B s s') ∧
      Core (s'.setLarge a (store32 (s'.larges a) 8 (largeUsed (s'.larges a)+min text.length m)))
        ps fs [] ls M B ∧
      Marked ps ls B s
        (s'.setLarge a (store32 (s'.larges a) 8 (largeUsed (s'.larges a)+min text.length m))) := by
  have hlt : largeBytes (s.larges a) < 2^32 := load32_lt _ _
  rw [toInt32_pos hpos] at hm
  have hm0 : 0 < m := by
    have := toInt32_pos hpos
    omega
  have hfit : largeUsed (s.larges a) = 0 ∨ largeUsed (s.larges a)+largeSize+
      min (text.length+1) m ≤ largeBytes (s.larges a) := by
    rcases hu with hu | hu
    · exact Or.inl hu
    · rw [usub_of_le (show largeSize ≤ largeBytes (s.larges a) by omega) hlt,
        usub_of_le (by omega) (by omega), Nat.mod_eq_of_lt (by omega)] at hm
      exact Or.inr (by omega)
  exact append_large hc ha (by omega) hfit (by omega) hrun

theorem pmemcpyExtra_small (env : Env) {dest p : ℕ}
    (hl : checkLargeInPool s (usub 64 dest largeSize) = .ok false)
    (hr : checkRealdataInPool s (usub 64 dest realdataSize) = .ok (some p, b, o)) :
    pmemcpyExtra env s dest src n = pmemcpySmall env s dest src n b o := by
  rw [pmemcpyExtra]
  dsimp only
  rw [hl, ok_bind, if_neg Bool.false_ne_true, hr, ok_bind, pmemcpySmall]

theorem psprintfExtra_small {data p : ℕ} (h0 : data ≠ 0)
    (hl : checkLargeInPool s (usub 64 data largeSize) = .ok false)
    (hr : checkRealdataInPool s (usub 64 data realdataSize) = .ok (some p, b, o)) :
    psprintfExtra s data text = psprintfSmall s data text b o := by
  rw [psprintfExtra, if_neg h0]
  dsimp only
  rw [hl, ok_bind, if_neg Bool.false_ne_true, hr, ok_bind, psprintfSmall]

theorem pmemcpyExtra_none (env : Env) {dest : ℕ}
    (hl : checkLargeInPool s (usub 64 dest largeSize) = .ok false)
    (hr : checkRealdataInPool s (usub 64 dest realdataSize) = .ok (none, b, o)) :
    pmemcpyExtra env s dest src n = .ok (s, none) := by
  rw [pmemcpyExtra]
  dsimp only
  rw [hl, ok_bind, if_neg Bool.false_ne_true, hr, ok_bind]

theorem psprintfExtra_none {data : ℕ} (h0 : data ≠ 0)
    (hl : checkLargeInPool s (usub 64 data largeSize) = .ok false)
    (hr : checkRealdataInPool s (usub 64 data realdataSize) = .ok (none, b, o)) :
    psprintfExtra s data text = .ok (s, -1) := by
  rw [psprintfExtra, if_neg h0]
  dsimp only
  rw [hl, ok_bind, if_neg Bool.false_ne_true, hr, ok_bind]

end Appends

end CLearning.MempoolStore
