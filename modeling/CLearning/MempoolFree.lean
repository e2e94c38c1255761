import CLearning.MempoolAlloc
import CLearning.MempoolCoalesce

/-!
# pfree

Giving a block back joins it with its free neighbours; the last block of a
linked pool takes the pool out of the chain, the last block of the base pool
resets it. A large chunk goes back to `malloc`.
-/

set_option autoImplicit false

namespace CLearning.MempoolFree
open CLearning.Machine CLearning.LinkedLists CLearning.MempoolBytes CLearning.MempoolPool
open CLearning.MempoolHeap CLearning.MempoolCoalesce CLearning.MempoolServe
open CLearning.MempoolState CLearning.Mempool CLearning.MempoolChain CLearning.MempoolRegistry
open CLearning.MempoolCore CLearning.MempoolGrow CLearning.MempoolAlloc

section Blocks

variable {p : Pool} {Q : List ℕ} {o : ℕ}

theorem tiles_sum {a e : ℕ} {T : List ℕ} (h : Tiles p a T e) :
    a+(T.map fun x => p.rd x .size).sum = e := by
  induction T generalizing a with
  | nil => exact (Nat.add_zero a).trans h
  | cons x T ih =>
    obtain ⟨rfl, -, h⟩ := h
    rw [List.map_cons, List.sum_cons, ← Nat.add_assoc]
    exact ih h

/-- The opening of `__pfree_realdata` on a busy block. -/
theorem unlinkBusy_pool (hi : PoolInv p Q) (ho : o ∈ Q) :
    (unlinkBusy p o).busylist = (Q.erase o).head? ∧
      (unlinkBusy p o).rd o .size = p.rd o .size ∧
      (unlinkBusy p o).leftsize = p.leftsize ∧
      (unlinkBusy p o).prev = p.prev ∧ (unlinkBusy p o).next = p.next ∧
      (unlinkBusy p o).pool_size = p.pool_size ∧
      (Q.erase o = [] → p.leftsize+p.rd o .size = p.pool_size-mempoolSize) := by
  obtain ⟨T, L, hi, rfl⟩ := hi
  obtain ⟨T₁, T₂, rfl⟩ := heapInv_split hi ho
  obtain ⟨hh, hord, hed, hprev, hnext⟩ := unlinkBusy_spec hi ho
  have hmem : o ∈ T₁ ++ o :: T₂ := by simp
  have hsize := hed.rd o hmem .size (by decide) (by decide)
  have hsame := hed.same
  have hhead := hh.lists.head_eq .busy
  rw [Function.update_self] at hhead
  have hpl : (unlinkBusy p o).leftsize = p.leftsize := by rw [hsame]
  have hps : (unlinkBusy p o).pool_size = p.pool_size := by rw [hsame]
  refine ⟨hhead, hsize, hpl, by rw [hsame], by rw [hsame], hps, fun hnil => ?_⟩
  have hall : ∀ x ∈ T₁ ++ T₂, (unlinkBusy p o).status x = 0 := by
    intro x hx
    rcases hh.status x hx with h | h
    · exact h
    · have := (hh.mem_busy x).mpr ⟨hx, h⟩
      rw [Function.update_self, hnil] at this
      cases this
  have hfree : freeBytes (unlinkBusy p o) (T₁ ++ T₂) =
      ((T₁ ++ T₂).map fun x => (unlinkBusy p o).rd x .size).sum := by
    rw [freeBytes, List.filter_eq_self.mpr (fun x hx => by simp [hall x hx])]
  have hsum := tiles_sum hh.tiles
  have hleft := hh.left
  rw [hfree, hpl] at hleft
  rw [hps] at hsum
  simp only [List.map_append, List.map_cons, List.sum_append, List.sum_cons] at hsum hleft
  omega

def putBack (p : Pool) (o : ℕ) : Pool :=
  if (unlinkBusy p o).leftsize = 0 then refillFreelist (unlinkBusy p o) o
  else freeRealdata (unlinkBusy p o) o

theorem putBack_spec (hi : PoolInv p Q) (ho : o ∈ Q) (hne : Q.erase o ≠ []) :
    PoolInv (putBack p o) (Q.erase o) ∧ (putBack p o).leftsize = p.leftsize+p.rd o .size ∧
      (putBack p o).prev = p.prev ∧ (putBack p o).next = p.next ∧
      (putBack p o).pool_size = p.pool_size ∧
      ∀ x ∈ Q.erase o, (putBack p o).rd x .size = p.rd x .size ∧
        (putBack p o).rd x .used = p.rd x .used := by
  obtain ⟨-, hsize, hleft, hp, hn, hps, -⟩ := unlinkBusy_pool hi ho
  obtain ⟨T, L, hi, rfl⟩ := hi
  obtain ⟨T₁, T₂, rfl⟩ := heapInv_split hi ho
  obtain ⟨hh, hord, hed, hprev, hnext⟩ := unlinkBusy_spec hi ho
  have hbusy : Function.update L .busy ((L .busy).erase o) .busy = (L .busy).erase o :=
    Function.update_self ..
  have hne' : Function.update L .busy ((L .busy).erase o) .busy ≠ [] := by rwa [hbusy]
  obtain ⟨T', L', hinv, hb', hfr, hl'⟩ : ∃ T' L', HeapInv (putBack p o) T' L' ∧
      L' .busy = (L .busy).erase o ∧
      Frame (T₁ ++ o :: T₂) ((L .busy).erase o) (unlinkBusy p o) (putBack p o) ∧
      (putBack p o).leftsize = (unlinkBusy p o).leftsize+(unlinkBusy p o).rd o .size := by
    rw [putBack]
    split
    · next h0 =>
      obtain ⟨L', hinv, hb', hfr, hl', -⟩ := refillFreelist_spec hh hord hne' hprev hnext h0
      rw [hbusy] at hb' hfr
      exact ⟨_, L', hinv, hb', hfr, hl'⟩
    · obtain ⟨T', L', hinv, hb', hfr, -, hl', -⟩ := freeRealdata_spec hh hne'
      rw [hbusy] at hb' hfr
      exact ⟨T', L', hinv, hb', hfr, hl'⟩
  obtain ⟨hp', hn', hps'⟩ := Frame.place hfr
  refine ⟨⟨T', L', hinv, hb'⟩, by rw [hl', hleft, hsize], hp'.trans hp, hn'.trans hn,
    hps'.trans hps, fun x hx => ?_⟩
  have hxT : x ∈ T₁ ++ o :: T₂ := hi.mem .busy x (List.mem_of_mem_erase hx)
  exact ⟨(hfr.size x hx).trans (hed.rd x hxT .size (by decide) (by decide)),
    (hfr.used x hx).trans (hed.rd x hxT .used (by decide) (by decide))⟩

end Blocks

section Destroy

variable {s t : State} {ps fs ls M : List ℕ} {B : ℕ → List ℕ} {b : ℕ}

structure SameTotals (p q : Property) : Prop where
  alloced : q.total_alloced = p.total_alloced
  leftsize : q.total_leftsize = p.total_leftsize
  wrapped : q.wrapped = p.wrapped

theorem SameTotals.subLeftsize {p q : Property} (h : SameTotals p q) (n : ℕ) :
    SameTotals (p.subLeftsize n) (q.subLeftsize n) := by
  simp only [Property.subLeftsize, h.leftsize, h.wrapped]
  generalize usub 64 p.total_leftsize n = v
  exact ⟨h.alloced, rfl, rfl⟩

theorem SameTotals.subAlloced {p q : Property} (h : SameTotals p q) (n : ℕ) :
    SameTotals (p.subAlloced n) (q.subAlloced n) := by
  simp only [Property.subAlloced, h.alloced, h.wrapped]
  generalize usub 64 p.total_alloced n = v
  exact ⟨rfl, h.leftsize, rfl⟩

theorem SameTotals.trans {p q r : Property} (h : SameTotals p q) (h' : SameTotals q r) :
    SameTotals p r :=
  ⟨h'.alloced.trans h.alloced, h'.leftsize.trans h.leftsize, h'.wrapped.trans h.wrapped⟩

theorem Relinked.totals {s t : State} (h : Relinked s t) : SameTotals s.property t.property := by
  rw [h.same]
  exact ⟨rfl, rfl, rfl⟩

/-- `unlinkPool` takes the pool into transit. -/
theorem unlinkPool_core (hc : Core s ps fs [] ls M B) (hb : b ∈ ps) (hbase : t.base = s.base)
    (hcfg : t.config = s.config) (hheap : t.heap = s.heap) (hlarges : t.larges = s.larges)
    (hprop : SameLists s.property t.property) (hother : ∀ x, x ≠ b → t.pools x = s.pools x)
    (hsz : (t.pools b).pool_size = (s.pools b).pool_size)
    (hp : (t.pools b).prev = (s.pools b).prev) (hn : (t.pools b).next = (s.pools b).next) :
    ∃ ps', (b :: ps').Perm ps ∧ Core (unlinkPool t b) ps' fs [b] ls M B ∧
      Relinked t (unlinkPool t b) := by
  obtain ⟨p₁, p₂, rfl, hne, hb₁, hb₂⟩ := hc.chain.split hb
  have hch : Chain t (p₁ ++ b :: p₂) fs := by
    apply hc.chain.congr hbase hprop.freepool hprop.pooltail hprop.pfree_count
    · intro x
      by_cases hx : x = b
      · rw [hx, hp]
      · rw [hother x hx]
    · intro x
      by_cases hx : x = b
      · rw [hx, hn]
      · rw [hother x hx]
  obtain ⟨hch', hr⟩ := unlinkPool_spec hch
  have hk := @Relinked.kept _ _ B hr
  have hsame := Relinked.sameBlocks hr
  have hfs : b ∉ fs := hc.chain.not_parked (by simp)
  refine ⟨p₁ ++ p₂, List.perm_middle.symm, ?_, hr⟩
  apply hc.rebuild (hk.base.trans hbase) _ (hk.heap.trans hheap) (hk.larges.trans hlarges) _ hch'
  · intro x hx
    have hxb : x ≠ b := by
      rintro rfl
      simp [Ne.symm hne, hb₁, hb₂, hfs] at hx
    have hsx := hsame x
    rw [hother x hxb] at hsx
    apply (hc.inv x _).congr hsx
    simp only [List.mem_append, List.mem_cons] at hx ⊢
    tauto
  · intro x
    simp only [List.mem_append, List.mem_cons, List.not_mem_nil]
    tauto
  · intro x hx
    rw [List.mem_singleton.mp hx]
    exact ⟨by simp [Ne.symm hne, hb₁, hb₂], hfs⟩
  · exact hc.idle
  · exact hc.few
  · rw [hk.config, hcfg]
    exact hc.ht
  · intro x hx
    have := hc.registered x hx
    simp only [List.mem_append, List.mem_cons, List.not_mem_nil] at this ⊢
    tauto
  · rw [hk.config, hcfg]
  · intro x
    rw [(hsame x).pool_size]
    by_cases hx : x = b
    · rw [hx, hsz]
    · rw [hother x hx]

/-- `parkPool` takes the pool in transit, emptied, to the parked ones. -/
theorem parkPool_core {fs : List ℕ} (hc : Core s ps fs [b] ls M B) (hM : b ∉ M)
    (hroom : s.property.pfree_count < s.config.max_freepool) :
    Core (parkPool s b) ps (b :: fs) [] ls M (Function.update B b []) ∧
      Relinked (s.setPool b (initMempool (s.pools b))) (parkPool s b) := by
  have hout := hc.out b (by simp)
  have hmax := hc.config.freepool
  have hcount := hc.chain.count
  obtain ⟨hch, hr⟩ := parkPool_spec hc.chain hout.1 hout.2 (by omega)
  have hk := @Relinked.kept _ _ B hr
  have hsame := Relinked.sameBlocks hr
  have hsize := hc.size b (by simp)
  obtain ⟨hinv, -, -, -, -, -, hself⟩ := initMempool_spec (p := s.pools b) (hsize ▸ hc.config.size)
  have hsz : ∀ x, ((s.setPool b (initMempool (s.pools b))).pools x).pool_size =
      (s.pools x).pool_size := by
    intro x
    by_cases hx : x = b
    · rw [hx, pools_setPool_self, hself]
    · rw [pools_setPool_ne _ _ hx]
  refine ⟨?_, hr⟩
  apply hc.rebuild hk.base _ hk.heap hk.larges (fun x => (hsame x).pool_size.trans (hsz x)) hch
  · intro x hx
    by_cases hxb : x = b
    · have hsb := hsame b
      rw [pools_setPool_self] at hsb
      rw [hxb, Function.update_self]
      exact PoolInv.congr ⟨_, _, hinv, rfl⟩ hsb
    · have hsx := hsame x
      rw [pools_setPool_ne _ _ hxb] at hsx
      rw [Function.update_of_ne hxb]
      apply (hc.inv x _).congr hsx
      simp only [List.mem_append, List.mem_cons] at hx ⊢
      tauto
  · intro x
    simp only [List.mem_append, List.mem_cons, List.not_mem_nil]
    tauto
  · simp
  · intro x hx
    by_cases hxb : x = b
    · rw [hxb, Function.update_self]
    · rw [Function.update_of_ne hxb]
      exact hc.idle x ((List.mem_cons.mp hx).resolve_left hxb)
  · rw [List.length_cons]
    omega
  · rw [hk.config]
    exact hc.ht
  · intro x hx
    have hxb : x ≠ b := fun he => hM (he ▸ hx)
    have := hc.registered x hx
    simp only [List.mem_append, List.mem_cons, List.not_mem_nil] at this ⊢
    tauto
  · rw [hk.config]
    rfl

def Retired (s s' : State) (fs fs' : List ℕ) (b : ℕ) : Prop :=
  if s.property.pfree_count < s.config.max_freepool then
    fs' = b :: fs ∧ s'.heap.live = s.heap.live
  else fs' = fs ∧ s'.heap.live = s.heap.live.erase (poolChunk s b)

/-- `__mempool_internal_destroy` on a pool whose blocks are all free. -/
theorem destroy_spec (hc : Core s ps fs [] ls M B) (hb : b ∈ ps) (hbase : t.base = s.base)
    (hcfg : t.config = s.config) (hheap : t.heap = s.heap) (hlarges : t.larges = s.larges)
    (hprop : SameLists s.property t.property) (hother : ∀ x, x ≠ b → t.pools x = s.pools x)
    (hsz : (t.pools b).pool_size = (s.pools b).pool_size)
    (hp : (t.pools b).prev = (s.pools b).prev) (hn : (t.pools b).next = (s.pools b).next) :
    ∃ s' ps' fs', mempoolInternalDestroy t b = .ok s' ∧ (b :: ps').Perm ps ∧
      Core s' ps' fs' [] ls (M.erase b) (Function.update B b []) ∧ s'.base = s.base ∧
      s'.config = { s.config with ht := s'.config.ht } ∧
      (s'.config.ht = none ↔ s.config.ht = none) ∧ s'.larges = s.larges ∧
      SameTotals ((t.property.subLeftsize (t.pools b).leftsize).subAlloced s.config.pool_size)
        s'.property ∧
      (∀ x ∈ s.base :: ps', SameBlocks (s.pools x) (s'.pools x)) ∧ Retired s s' fs fs' b := by
  obtain ⟨ps', hperm, hc₁, hr⟩ := unlinkPool_core hc hb hbase hcfg hheap hlarges hprop hother hsz hp hn
  have hk := @Relinked.kept _ _ B hr
  have hsame := Relinked.sameBlocks hr
  have htot := Relinked.totals hr
  have hout := hc₁.out b (by simp)
  have hin : b ∈ (unlinkPool t b).base :: ps' ++ fs ++ [b] := by simp
  have hrange := hc₁.range _ (hc₁.pool_live hin)
  obtain ⟨t', hdel, hnone, hreg⟩ := deleteAddr_spec hc₁.ht (a := b)
    ⟨hrange.1, by have := hrange.2.2; simp only [poolChunk] at this; omega⟩
  have hMb : b ∉ M.erase b := fun h => (hc₁.ht.nodup.mem_erase_iff.mp h).1 rfl
  have hcfg' : (unlinkPool t b).config = s.config := hk.config.trans hcfg
  have hbase' : (unlinkPool t b).base = s.base := hk.base.trans hbase
  have hnone' : t' = none ↔ s.config.ht = none := by rw [hnone, hcfg']
  have hleft : ((unlinkPool t b).pools b).leftsize = (t.pools b).leftsize := (hsame b).leftsize
  have hblocks : ∀ x ∈ s.base :: ps', SameBlocks (s.pools x) ((unlinkPool t b).pools x) := by
    intro x hx
    have hxb : x ≠ b := by
      rintro rfl
      exact hout.1 (hbase'.symm ▸ hx)
    have h := hsame x
    rwa [hother x hxb] at h
  have hc₂ := (hc₁.setHt hreg fun x hx => hc₁.registered x (List.mem_of_mem_erase hx)).counters
    (sameLists_subLeftsize (unlinkPool t b).property ((unlinkPool t b).pools b).leftsize)
  have hlarges' : (unlinkPool t b).larges = s.larges := hk.larges.trans hlarges
  have hlive' : (unlinkPool t b).heap = s.heap := hk.heap.trans hheap
  have hcnt : ((unlinkPool t b).property.subLeftsize ((unlinkPool t b).pools b).leftsize).pfree_count <
      (unlinkPool t b).config.max_freepool ↔ s.property.pfree_count < s.config.max_freepool := by
    rw [(sameLists_subLeftsize _ _).pfree_count, hc₁.chain.count, ← hc.chain.count, hcfg']
  -- from here on only these facts about the state after the unlinking are used
  have htot₂ := (htot.subLeftsize (t.pools b).leftsize)
  simp only [mempoolInternalDestroy, hdel, ok_bind]
  rw [← hleft] at htot₂ ⊢
  generalize hP : (unlinkPool t b).property.subLeftsize ((unlinkPool t b).pools b).leftsize = P at *
  generalize hu : unlinkPool t b = u at *
  clear hP
  split
  · next hroom =>
    obtain ⟨hc₃, hr₃⟩ := parkPool_core hc₂ hMb hroom
    have hk₃ := @Relinked.kept _ _ B hr₃
    have hsame₃ := Relinked.sameBlocks hr₃
    have htot₃ := Relinked.totals hr₃
    have hcfg₃ := hk₃.config
    have hbase₃ := hk₃.base
    have hlarges₃ := hk₃.larges
    generalize parkPool _ b = v at hc₃ hr₃ hk₃ hsame₃ htot₃ hcfg₃ hbase₃ hlarges₃ ⊢
    have hv : v.config = { s.config with ht := t' } := by
      rw [hcfg₃, ← hcfg']
      rfl
    refine ⟨_, ps', b :: fs, rfl, hperm, hc₃.counters (sameLists_subAlloced _ _),
      hbase₃.trans hbase', ?_, ?_, hlarges₃.trans hlarges', ?_, fun x hx => ?_, ?_⟩
    · show v.config = { s.config with ht := v.config.ht }
      rw [hv]
    · show v.config.ht = none ↔ s.config.ht = none
      rw [hv]
      exact hnone'
    · show SameTotals _ (v.property.subAlloced v.config.pool_size)
      rw [hv]
      exact (htot₂.trans htot₃).subAlloced _
    · have hxb : x ≠ b := by
        rintro rfl
        exact hout.1 (hbase'.symm ▸ hx)
      have h := hsame₃ x
      rw [pools_setPool_ne _ _ hxb] at h
      have h' := hblocks x hx
      exact ⟨h.freelist.trans h'.freelist, h.busylist.trans h'.busylist,
        h.pool_size.trans h'.pool_size, h.leftsize.trans h'.leftsize, h.data.trans h'.data⟩
    · rw [Retired, if_pos (hcnt.mp hroom)]
      exact ⟨rfl, congrArg Heap.live (hk₃.heap.trans hlive')⟩
  · next hroom =>
    obtain ⟨hfree, hc₃⟩ := hc₂.dropPool hMb
    have hsz : u.config.pool_size = s.config.pool_size := by rw [hcfg']
    have hB : ∀ x ∈ u.base :: ps' ++ fs, Function.update B b [] x = B x := by
      intro x hx
      have hxb : x ≠ b := by
        rintro rfl
        rcases List.mem_append.mp hx with h | h
        · exact hout.1 h
        · exact hout.2 h
      exact Function.update_of_ne hxb _ _
    have hc₄ := (hc₃.counters (sameLists_subAlloced P u.config.pool_size)).relist hB
    refine ⟨_, ps', fs, by rw [hfree]; rfl, hperm, hc₄, hbase', ?_, hnone', hlarges', ?_, hblocks,
      ?_⟩
    · show ({ u.config with ht := t' } : Config) = { s.config with ht := t' }
      rw [hcfg']
    · show SameTotals _ (P.subAlloced u.config.pool_size)
      rw [hsz]
      exact htot₂.subAlloced _
    · rw [Retired, if_neg (fun h => hroom (hcnt.mpr h))]
      refine ⟨rfl, ?_⟩
      show u.heap.live.erase ⟨b, u.config.pool_size, .pool⟩ = _
      rw [hsz, hlive', poolChunk]

end Destroy

section Give

variable {s s' : State} {ps fs ls M : List ℕ} {B : ℕ → List ℕ} {b o n : ℕ}

theorem acct_give (h : Acct s ps ls) (hc : Core s ps fs [] ls M B) (hb : b ∈ s.base :: ps)
    (hn : n < 65536) (hp : s'.property = s.property.addLeftsize n) (hcfg : s'.config = s.config)
    (hl : s'.larges = s.larges) (hbase : s'.base = s.base)
    (hself : (s'.pools b).leftsize = (s.pools b).leftsize+n)
    (hother : ∀ x, x ≠ b → (s'.pools x).leftsize = (s.pools x).leftsize) : Acct s' ps ls := by
  have hlt := h.leftsize_lt hc
  obtain ⟨h1, h2, h3⟩ := @addLeftsize_of_lt s.property n (by omega)
  have hsum := @sum_left_take b _ (fun a => (s'.pools a).leftsize) (fun a => (s.pools a).leftsize)
    _ hc.chain.nodup hb hself.symm fun x hx => (hother x hx).symm
  refine ⟨?_, ?_, ?_, ?_⟩
  · rw [hp, h2, hcfg, hl]
    exact h.alloced
  · rw [hp, h1, hbase, h.leftsize]
    exact hsum
  · rw [hp, h3]
    exact h.wrapped
  · rw [hp, h2]
    exact h.cap

structure Released (s s' : State) (ps ps' : List ℕ) (B B' : ℕ → List ℕ) (b o : ℕ) : Prop where
  steady : Steady ps' B' s s'
  larges : s'.larges = s.larges
  pools : ∀ x ∈ ps', x ∈ ps
  gone : ∀ x ∈ ps, x ∈ ps' ∨ x = b ∧ (B b).erase o = []
  kept : b ∈ ps' → (B b).erase o ≠ []
  busy : ∀ a ∈ s.base :: ps', B' a = if a = b then (B b).erase o else B a

/-- The pool `b` becomes `q`, which has the block back. -/
theorem give_core {q : Pool} (hc : Core s ps fs [] ls M B) (hb : b ∈ s.base :: ps)
    (hq : PoolInv q ((B b).erase o)) (hn : n < 65536)
    (hleft : q.leftsize = (s.pools b).leftsize+n) (hp : q.prev = (s.pools b).prev)
    (hx : q.next = (s.pools b).next) (hsz : q.pool_size = (s.pools b).pool_size)
    (hblk : ∀ x ∈ (B b).erase o, q.rd x .size = (s.pools b).rd x .size ∧
      q.rd x .used = (s.pools b).rd x .used)
    (hne : b ∈ ps → (B b).erase o ≠ []) :
    let t : State := { s.setPool b q with property := s.property.addLeftsize n }
    Core t ps fs [] ls M (Function.update B b ((B b).erase o)) ∧
      Released s t ps ps B (Function.update B b ((B b).erase o)) b o ∧
      (Acct s ps ls → Acct t ps ls ∧ t.property.total_alloced = s.property.total_alloced) := by
  intro t
  have hother : ∀ x, x ≠ b → t.pools x = s.pools x := fun x h => pools_setPool_ne s q h
  have hself : t.pools b = q := pools_setPool_self s b q
  have hcore : Core t ps fs [] ls M (Function.update B b ((B b).erase o)) :=
    (hc.setPool hb hq hp hx hsz).counters (sameLists_addLeftsize s.property n)
  refine ⟨hcore, ⟨⟨rfl, rfl, Iff.rfl, Iff.rfl, fun a ha x hxa => ?_⟩, rfl, fun _ h => h,
    fun _ h => Or.inl h, hne, fun a ha => ?_⟩, fun h => ?_⟩
  · by_cases hab : a = b
    · subst hab
      rw [Function.update_self] at hxa
      rw [hself]
      exact hblk x hxa
    · rw [hother a hab]
      exact ⟨rfl, rfl⟩
  · by_cases hab : a = b
    · rw [hab, Function.update_self, if_pos rfl]
    · rw [Function.update_of_ne hab, if_neg hab]
  · have h' : Acct t ps ls := acct_give h hc hb hn rfl rfl rfl rfl (by rw [hself, hleft])
      fun x h => by rw [hother x h]
    exact ⟨h', h.alloced_eq h' rfl rfl rfl⟩

/-- The counters when the last block of a linked pool comes back. -/
theorem acct_destroy {ps' : List ℕ} (h : Acct s ps ls) (hc : Core s ps fs [] ls M B)
    (hperm : (b :: ps').Perm ps) (hn : n < 65536)
    (hp : SameTotals ((((s.property.addLeftsize n).subLeftsize n).subLeftsize
      (s.pools b).leftsize).subAlloced s.config.pool_size) s'.property)
    (hsz : s'.config.pool_size = s.config.pool_size) (hl : s'.larges = s.larges)
    (hbase : s'.base = s.base)
    (hother : ∀ x ∈ s.base :: ps', (s'.pools x).leftsize = (s.pools x).leftsize) :
    Acct s' ps' ls ∧ s'.property.total_alloced ≤ s.property.total_alloced := by
  have hlt := h.leftsize_lt hc
  have hcap := h.cap
  have hsum : s.property.total_leftsize = (s.pools b).leftsize+
      ((s.base :: ps').map fun a => (s.pools a).leftsize).sum := by
    have hpp : (s.base :: ps).Perm (b :: s.base :: ps') :=
      (hperm.symm.cons _).trans (List.Perm.swap _ _ _)
    rw [h.leftsize, (hpp.map _).sum_eq, List.map_cons, List.sum_cons]
  have hal := h.alloced
  rw [← hperm.length_eq, List.length_cons, Nat.mul_succ] at hal
  obtain ⟨a1, a2, a3⟩ := @addLeftsize_of_lt s.property n (by omega)
  obtain ⟨b1, b2, b3⟩ := @subLeftsize_of_le (s.property.addLeftsize n) n (by omega) (by omega)
  obtain ⟨c1, c2, c3⟩ := @subLeftsize_of_le ((s.property.addLeftsize n).subLeftsize n)
    (s.pools b).leftsize (by omega) (by omega)
  obtain ⟨d1, d2, d3⟩ := @subAlloced_of_le (((s.property.addLeftsize n).subLeftsize n).subLeftsize
    (s.pools b).leftsize) s.config.pool_size (by omega) (by omega)
  have e1 := hp.alloced
  have e2 := hp.leftsize
  refine ⟨⟨?_, ?_, ?_, ?_⟩, by omega⟩
  · rw [hsz, hl]
    omega
  · have hmap : ((s'.base :: ps').map fun a => (s'.pools a).leftsize) =
        (s.base :: ps').map fun a => (s.pools a).leftsize := by
      rw [hbase]
      exact List.map_congr_left hother
    rw [hmap]
    omega
  · rw [hp.wrapped, d3, c3, b3, a3]
    exact h.wrapped
  · omega

/-- The branches of `__pfree_realdata`, told by the blocks that stay out. -/
theorem pfreeRealdata_eq (hi : PoolInv (s.pools b) (B b)) (ho : o ∈ B b)
    (hn : (s.pools b).rd o .size = n) :
    pfreeRealdata s b o =
      if (B b).erase o = [] then
        if b ≠ s.base then
          mempoolInternalDestroy { s.setPool b (unlinkBusy (s.pools b) o) with
            property := (s.property.addLeftsize n).subLeftsize n } b
        else .ok { s.setPool b (initMempool (unlinkBusy (s.pools b) o)) with
          property := s.property.addLeftsize n }
      else if (unlinkBusy (s.pools b) o).leftsize = 0 then
        mempoolMove2header { s.setPool b (putBack (s.pools b) o) with
          property := s.property.addLeftsize n } b
      else .ok { s.setPool b (putBack (s.pools b) o) with
        property := s.property.addLeftsize n } := by
  obtain ⟨hhead, hsize, -⟩ := unlinkBusy_pool hi ho
  have hset : ∀ (q r : Pool) (P : Property),
      ({ s.setPool b q with property := P } : State).setPool b r =
        { s.setPool b r with property := P } := by
    intro q r P
    simp [State.setPool]
  have hprop : ∀ q : Pool, (s.setPool b q).property = s.property := fun _ => rfl
  have hbase : ∀ q : Pool, (s.setPool b q).base = s.base := fun _ => rfl
  rw [pfreeRealdata]
  simp only [pools_setPool_self, hsize, hhead, hset, hprop, hn, List.head?_eq_none_iff]
  simp only [hbase]
  by_cases hlast : (B b).erase o = []
  · rw [if_pos hlast, if_pos hlast]
  · rw [if_neg hlast, if_neg hlast]
    by_cases h0 : (unlinkBusy (s.pools b) o).leftsize = 0
    · rw [if_pos h0, if_pos h0, putBack, if_pos h0]
    · rw [if_neg h0, if_neg h0, putBack, if_neg h0]

/-- A linked pool without blocks is destroyed. -/
theorem destroy_emptied (hc : Core s ps fs [] ls M B) (hb : b ∈ ps) (ho : o ∈ B b) :
    ∃ s' ps' fs', mempoolInternalDestroy { s.setPool b (unlinkBusy (s.pools b) o) with
        property := (s.property.addLeftsize n).subLeftsize n } b = .ok s' ∧ (b :: ps').Perm ps ∧
      Core s' ps' fs' [] ls (M.erase b) (Function.update B b []) ∧ s'.base = s.base ∧
      s'.config = { s.config with ht := s'.config.ht } ∧
      (s'.config.ht = none ↔ s.config.ht = none) ∧ s'.larges = s.larges ∧
      SameTotals ((((s.property.addLeftsize n).subLeftsize n).subLeftsize
        (s.pools b).leftsize).subAlloced s.config.pool_size) s'.property ∧
      (∀ x ∈ s.base :: ps', SameBlocks (s.pools x) (s'.pools x)) ∧ Retired s s' fs fs' b := by
  obtain ⟨-, -, hleft, hp, hx, hsz, -⟩ := unlinkBusy_pool (hc.linked_inv (List.mem_cons_of_mem _ hb)) ho
  have hl : SameLists s.property ((s.property.addLeftsize n).subLeftsize n) :=
    (sameLists_addLeftsize _ _).trans (sameLists_subLeftsize _ _)
  have hdestroy := @destroy_spec s { s.setPool b (unlinkBusy (s.pools b) o) with
    property := (s.property.addLeftsize n).subLeftsize n } ps fs ls M B b hc hb rfl rfl rfl
    rfl hl (fun x h => pools_setPool_ne _ _ h)
    (by rw [← hsz]; exact congrArg Pool.pool_size (pools_setPool_self s b _))
    (by rw [← hp]; exact congrArg Pool.prev (pools_setPool_self s b _))
    (by rw [← hx]; exact congrArg Pool.next (pools_setPool_self s b _))
  have hbl : ((s.setPool b (unlinkBusy (s.pools b) o)).pools b).leftsize =
      (s.pools b).leftsize := by rw [pools_setPool_self, hleft]
  rw [← hbl]
  exact hdestroy

/-- The last block of a linked pool takes the pool with it. -/
theorem retire_spec (hc : Core s ps fs [] ls M B) (hb : b ∈ ps) (ho : o ∈ B b)
    (hlast : (B b).erase o = []) (hn : n < 65536) :
    ∃ s' ps' fs', mempoolInternalDestroy { s.setPool b (unlinkBusy (s.pools b) o) with
        property := (s.property.addLeftsize n).subLeftsize n } b = .ok s' ∧
      Core s' ps' fs' [] ls (M.erase b) (Function.update B b []) ∧
      Released s s' ps ps' B (Function.update B b []) b o ∧
      (Acct s ps ls → Acct s' ps' ls ∧
        s'.property.total_alloced ≤ s.property.total_alloced) ∧
      (Registered s ps M → Registered s' ps' (M.erase b)) ∧ Retired s s' fs fs' b := by
  have hbb : b ≠ s.base := fun h => hc.chain.base_not_mem (h ▸ hb)
  obtain ⟨s', ps', fs', hrun, hperm, hcore, hb', hcfg', hnone, hlg', htot, hblk, hret⟩ :=
    destroy_emptied (n := n) hc hb ho
  have hnd : (b :: ps').Nodup := hperm.nodup_iff.mpr (List.nodup_cons.mp hc.chain.nodup).2
  have hsub : ∀ x ∈ ps', x ∈ ps := fun x h => hperm.mem_iff.mp (List.mem_cons_of_mem _ h)
  have hbnot : b ∉ ps' := (List.nodup_cons.mp hnd).1
  have hne : ∀ a ∈ s.base :: ps', a ≠ b := by
    rintro a ha rfl
    rcases List.mem_cons.mp ha with h | h
    · exact hbb h
    · exact hbnot h
  refine ⟨s', ps', fs', hrun, hcore, ⟨⟨hb', ?_, hnone, ?_, ?_⟩, hlg', hsub, ?_,
    fun h => absurd h hbnot, ?_⟩, fun h => ?_, fun h => ?_, hret⟩
  · have hlt : s'.config.largeht = s.config.largeht := by rw [hcfg']
    rw [hlt, ← hcfg']
  · rw [hcfg']
  · intro a ha x hxa
    have hsb := (hblk a ha).data
    rw [Pool.rd, Pool.rd, Pool.rd, Pool.rd, hsb]
    exact ⟨rfl, rfl⟩
  · intro x hxp
    rcases List.mem_cons.mp (hperm.mem_iff.mpr hxp) with rfl | h
    · exact Or.inr ⟨rfl, hlast⟩
    · exact Or.inl h
  · intro a ha
    rw [Function.update_of_ne (hne a ha), if_neg (hne a ha)]
  · exact acct_destroy h hc hperm hn htot (by rw [hcfg']) hlg' hb' fun x h => (hblk x h).leftsize
  · intro hht x hxm
    rw [hb'] at hxm
    have hxM := h (fun hn => hht (hnone.mpr hn)) x (by
      rcases List.mem_cons.mp hxm with h | h
      · simp [h]
      · simp [hsub x h])
    exact (List.mem_erase_of_ne (hne x hxm)).mpr hxM

theorem front_spec {t : State} {B' : ℕ → List ℕ} (hc : Core t ps fs [] ls M B')
    (hb : b ∈ t.base :: ps) (hrel : Released s t ps ps B B' b o) (hlast : (B b).erase o ≠ []) :
    ∃ s' ps', mempoolMove2header t b = .ok s' ∧ Core s' ps' fs [] ls M B' ∧
      Released s s' ps ps' B B' b o ∧
      (Acct t ps ls → Acct s' ps' ls ∧ s'.property.total_alloced = t.property.total_alloced) ∧
      (Registered s ps M → Registered s' ps' M) := by
  obtain ⟨s', ps', hrun, hch, hperm, hr⟩ := mempoolMove2header_spec hc.chain hb
  have hk := @Relinked.kept _ _ B' hr
  have hsame := Relinked.sameBlocks hr
  have hquiet : Quiet B' t s' := ⟨hk, fun x => (hsame x).leftsize⟩
  have hst : Steady ps B' s s' :=
    hrel.steady.trans (steady_of_quiet hquiet : Steady ps B' t s') (fun _ h => h) (fun _ _ _ h => h)
  have hmem : ∀ a ∈ s.base :: ps', a ∈ s.base :: ps := fun a ha => by
    simpa [hperm.mem_iff] using ha
  exact ⟨s', ps', hrun, hc.reorder hk hsame hch hperm,
    ⟨⟨hst.base, hst.config, hst.ht, hst.largeht, fun a ha => hst.blocks a (hmem a ha)⟩,
      hk.larges.trans hrel.larges, fun x h => hperm.mem_iff.mp h,
      fun x h => Or.inl (hperm.mem_iff.mpr h), fun _ => hlast, fun a ha => hrel.busy a (hmem a ha)⟩,
    fun h => ⟨h.quiet hquiet hperm, hk.alloced⟩, fun h => h.perm hst hperm⟩

/-- `__pfree_realdata` on a busy block. -/
theorem pfreeRealdata_spec (hc : Core s ps fs [] ls M B) (hb : b ∈ s.base :: ps) (ho : o ∈ B b) :
    ∃ s' ps' fs' M' B', pfreeRealdata s b o = .ok s' ∧ Core s' ps' fs' [] ls M' B' ∧
      Released s s' ps ps' B B' b o ∧
      (Acct s ps ls → Acct s' ps' ls ∧
        s'.property.total_alloced ≤ s.property.total_alloced) ∧
      (Registered s ps M → Registered s' ps' M') ∧
      if b ≠ s.base ∧ (B b).erase o = [] then Retired s s' fs fs' b else fs' = fs := by
  have hi := hc.linked_inv hb
  have hn : (s.pools b).rd o .size < 65536 := rd_lt
  rw [pfreeRealdata_eq hi ho rfl]
  by_cases hlast : (B b).erase o = []
  · rw [if_pos hlast]
    by_cases hbb : b = s.base
    · obtain ⟨-, -, -, hp, hx, hsz, hidle⟩ := unlinkBusy_pool hi ho
      have hpools : (unlinkBusy (s.pools b) o).pool_size = s.config.pool_size :=
        hsz.trans (hc.size b (hc.linked hb))
      obtain ⟨hinv, -, hil, -, -, -, hsame⟩ := initMempool_spec (hpools ▸ hc.config.size)
      have hbps : b ∉ ps := hbb ▸ hc.chain.base_not_mem
      obtain ⟨hcore, hrel, hacct⟩ := give_core hc hb (q := initMempool (unlinkBusy (s.pools b) o))
        ⟨_, _, hinv, hlast.symm⟩ hn (by rw [hil, hsz, hidle hlast]) (by rw [hsame]; exact hp)
        (by rw [hsame]; exact hx) (by rw [hsame]; exact hsz) (by simp [hlast])
        (fun h => absurd h hbps)
      rw [if_neg (not_not_intro hbb)]
      exact ⟨_, ps, fs, M, _, rfl, hcore, hrel,
        fun h => ⟨(hacct h).1, Nat.le_of_eq (hacct h).2⟩, fun h => h,
        by rw [if_neg (fun h => h.1 hbb)]⟩
    · obtain ⟨s', ps', fs', hrun, hcore, hrel, hacct, hreg, hret⟩ :=
        retire_spec hc ((List.mem_cons.mp hb).resolve_left hbb) ho hlast hn
      rw [if_pos hbb]
      exact ⟨s', ps', fs', M.erase b, _, hrun, hcore, hrel, hacct, hreg,
        by rw [if_pos ⟨hbb, hlast⟩]; exact hret⟩
  · rw [if_neg hlast]
    obtain ⟨hq, hql, hqp, hqx, hqs, hqb⟩ := putBack_spec hi ho hlast
    obtain ⟨hcore, hrel, hacct⟩ := give_core hc hb hq hn hql hqp hqx hqs hqb (fun _ => hlast)
    by_cases h0 : (unlinkBusy (s.pools b) o).leftsize = 0
    · obtain ⟨s', ps', hrun, hcore', hrel', hacct', hreg⟩ := front_spec hcore hb hrel hlast
      rw [if_pos h0]
      refine ⟨s', ps', fs, M, _, hrun, hcore', hrel', fun h => ?_, hreg,
        by rw [if_neg (fun h => hlast h.2)]⟩
      obtain ⟨h1, h2⟩ := hacct h
      obtain ⟨h3, h4⟩ := hacct' h1
      exact ⟨h3, Nat.le_of_eq (h4.trans h2)⟩
    · rw [if_neg h0]
      exact ⟨_, ps, fs, M, _, rfl, hcore, hrel,
        fun h => ⟨(hacct h).1, Nat.le_of_eq (hacct h).2⟩, fun h => h,
        by rw [if_neg (fun h => hlast h.2)]⟩

end Give

section Calls

variable {s s' : State} {ps fs ls M : List ℕ} {B : ℕ → List ℕ} {a b o : ℕ}

theorem block_bounds (hc : Core s ps fs [] ls M B) (hb : b ∈ s.base :: ps) (ho : o ∈ B b) :
    16 ≤ (s.pools b).rd o .size ∧
      o+(s.pools b).rd o .size ≤ s.config.pool_size-mempoolSize ∧
      (s.pools b).rd o .offset = o ∧ (s.pools b).status o = 1 := by
  obtain ⟨T, L, hi, hL⟩ := hc.linked_inv hb
  obtain ⟨hoT, hst⟩ := (hi.mem_busy o).mp (hL ▸ ho)
  obtain ⟨-, h16, hle⟩ := hi.tiles.bounds.2 o hoT
  rw [hc.size b (hc.linked hb)] at hle
  exact ⟨h16, hle, hi.offset o hoT, hst⟩

theorem pool_range (hc : Core s ps fs [] ls M B) (hb : b ∈ s.base :: ps) :
    poolChunk s b ∈ s.heap.live ∧ 0 < b ∧ b+s.config.pool_size ≤ 2^64 ∧
      208 ≤ s.config.pool_size := by
  have hlive := hc.pool_live (hc.linked hb)
  have hrange := hc.range _ hlive
  have hsz := hc.config.size
  simp only [poolChunk] at hrange
  simp only [SizeOk, mempoolSize, realdataSize] at hsz
  exact ⟨hlive, hrange.1, by omega, by omega⟩

theorem not_large (hc : Core s ps fs [] ls M B) (hb : b ∈ s.base :: ps) {n : ℕ}
    (hn : n < s.config.pool_size) : b+n ∉ ls := by
  intro hl
  obtain ⟨hlive, -, -, -⟩ := pool_range hc hb
  have hne : poolChunk s b ≠ largeChunk s (b+n) := by
    intro he
    have := congrArg Chunk.kind he
    simp [poolChunk, largeChunk] at this
  rcases apart_of_mem hc.apart hlive (hc.large_live hl) hne with h | h
  · simp only [poolChunk, largeChunk] at h
    omega
  · simp only [poolChunk, largeChunk] at h
    omega

theorem header_room (hc : Core s ps fs [] ls M B) (hb : b ∈ s.base :: ps) (ho : o ∈ B b) :
    o+mempoolSize+realdataSize < s.config.pool_size := by
  obtain ⟨h16, hle, -, -⟩ := block_bounds hc hb ho
  rw [mempoolSize] at hle ⊢
  rw [realdataSize]
  omega

theorem checkLarge_inside (hc : Core s ps fs [] ls M B) (hb : b ∈ s.base :: ps)
    (hin : o+mempoolSize+realdataSize < s.config.pool_size) :
    checkLargeInPool s (usub 64 (payload b o) largeSize) = .ok false := by
  obtain ⟨-, -, hend, h208⟩ := pool_range hc hb
  rw [mempoolSize, realdataSize] at hin
  have hsub : usub 64 (payload b o) largeSize = b+(o+195) := by
    rw [payload, mempoolSize, realdataSize, largeSize, usub_of_le (by omega) (by omega)]
    omega
  have hnot := not_large hc hb (n := o+195) (by omega)
  rw [hsub, checkLargeInPool, findAddr_spec hc.largeht (by omega), if_neg hnot]
  rfl

theorem checkLarge_small (hc : Core s ps fs [] ls M B) (hb : b ∈ s.base :: ps) (ho : o ∈ B b) :
    checkLargeInPool s (usub 64 (payload b o) largeSize) = .ok false :=
  checkLarge_inside hc hb (header_room hc hb ho)

theorem header_inside (hc : Core s ps fs [] ls M B) (hb : b ∈ s.base :: ps)
    (hin : o+mempoolSize+realdataSize < s.config.pool_size) :
    s.header (b+mempoolSize+o) = .ok (b, o) := by
  obtain ⟨hlive, -, -, h208⟩ := pool_range hc hb
  have hloc := locate_unique (a := b+mempoolSize+o) (n := realdataSize) hc.apart hlive (by decide)
    (by simp only [poolChunk, mempoolSize]; omega)
    (by simp only [poolChunk]; omega)
  have hoff : b+mempoolSize+o-b-mempoolSize = o := by omega
  have hge : b+mempoolSize ≤ b+mempoolSize+o := by omega
  simp only [poolChunk, hoff, hge, if_true] at hloc
  rw [State.header, hloc]

theorem header_small (hc : Core s ps fs [] ls M B) (hb : b ∈ s.base :: ps) (ho : o ∈ B b) :
    s.header (b+mempoolSize+o) = .ok (b, o) :=
  header_inside hc hb (header_room hc hb ho)

theorem header_at (hc : Core s ps fs [] ls M B) (hb : b ∈ s.base :: ps) (ho : o ∈ B b) :
    s.header (payload b o-realdataSize) = .ok (b, o) := by
  have haddr : payload b o-realdataSize = b+mempoolSize+o := by
    rw [payload]
    omega
  rw [haddr]
  exact header_small hc hb ho

theorem checkRealdata_inside (hc : Core s ps fs [] ls M B) (hb : b ∈ s.base :: ps)
    (hin : o+mempoolSize+realdataSize < s.config.pool_size) :
    checkRealdataInPool s (usub 64 (payload b o) realdataSize) = (do
      let realpool ← findAddr s.config.ht
        (usub 64 (usub 64 (b+mempoolSize+o) ((s.pools b).rd o .offset)) mempoolSize)
      .ok (realpool, b, o)) := by
  obtain ⟨-, -, hend, h208⟩ := pool_range hc hb
  have hsub : usub 64 (payload b o) realdataSize = b+mempoolSize+o := by
    rw [mempoolSize, realdataSize] at hin
    rw [payload, mempoolSize, realdataSize, usub_of_le (by omega) (by omega)]
    omega
  rw [checkRealdataInPool, hsub, header_inside hc hb hin]
  rfl

theorem header_pool (hc : Core s ps fs [] ls M B) (hb : b ∈ s.base :: ps) (ho : o ∈ B b) :
    usub 64 (usub 64 (b+mempoolSize+o) ((s.pools b).rd o .offset)) mempoolSize = b := by
  obtain ⟨-, -, hoff, -⟩ := block_bounds hc hb ho
  obtain ⟨-, -, hend, h208⟩ := pool_range hc hb
  have hin := header_room hc hb ho
  rw [mempoolSize, realdataSize] at hin
  rw [hoff, mempoolSize, usub_of_le (show o ≤ b+192+o by omega) (by omega),
    usub_of_le (by omega) (by omega)]
  omega

theorem checkRealdata_small (hc : Core s ps fs [] ls M B) (hb : b ∈ s.base :: ps) (ho : o ∈ B b) :
    checkRealdataInPool s (usub 64 (payload b o) realdataSize) =
      .ok (if b ∈ M then some b else none, b, o) := by
  obtain ⟨-, -, hend, h208⟩ := pool_range hc hb
  rw [checkRealdata_inside hc hb (header_room hc hb ho), header_pool hc hb ho,
    findAddr_spec hc.ht (by omega)]
  rfl

theorem payload_pos (hc : Core s ps fs [] ls M B) (hb : b ∈ s.base :: ps) : payload b o ≠ 0 := by
  obtain ⟨-, h0, -, -⟩ := pool_range hc hb
  rw [payload]
  omega

theorem pfree_inside (hc : Core s ps fs [] ls M B) (hb : b ∈ s.base :: ps)
    (hin : o+mempoolSize+realdataSize < s.config.pool_size)
    (ha : usub 64 (usub 64 (b+mempoolSize+o) ((s.pools b).rd o .offset)) mempoolSize = a) :
    pfree s (payload b o) = if a ∈ M then
      if (s.pools b).status o = 0 then .ok (s, 0)
      else if a ≠ b then .error .wildAccess
      else do
        let s ← pfreeRealdata s a o
        .ok (s, 0)
      else .ok (s, -1) := by
  have hlt : a < 2^64 := ha ▸ Nat.mod_lt _ (by decide)
  have hreal := checkRealdata_inside hc hb hin
  rw [ha, findAddr_spec hc.ht hlt, ok_bind] at hreal
  rw [pfree, if_neg (payload_pos hc hb)]
  dsimp only
  rw [checkLarge_inside hc hb hin, ok_bind, if_neg Bool.false_ne_true, hreal, ok_bind]
  by_cases haM : a ∈ M
  · rw [if_pos haM, if_pos haM]
  · rw [if_neg haM, if_neg haM]

theorem pfree_small (hc : Core s ps fs [] ls M B) (hb : b ∈ s.base :: ps) (ho : o ∈ B b) :
    (b ∉ M → pfree s (payload b o) = .ok (s, -1)) ∧
    (b ∈ M → ∃ s' ps' fs' M' B', pfree s (payload b o) = .ok (s', 0) ∧
      Core s' ps' fs' [] ls M' B' ∧ Released s s' ps ps' B B' b o ∧
      (Acct s ps ls → Acct s' ps' ls ∧
        s'.property.total_alloced ≤ s.property.total_alloced) ∧
      (Registered s ps M → Registered s' ps' M') ∧
      if b ≠ s.base ∧ (B b).erase o = [] then Retired s s' fs fs' b else fs' = fs) := by
  obtain ⟨-, -, -, hst⟩ := block_bounds hc hb ho
  rw [pfree_inside hc hb (header_room hc hb ho) (header_pool hc hb ho)]
  constructor
  · exact fun hM => if_neg hM
  · intro hM
    obtain ⟨s', ps', fs', M', B', hrun, h⟩ := pfreeRealdata_spec hc hb ho
    refine ⟨s', ps', fs', M', B', ?_, h⟩
    rw [if_pos hM, hst, if_neg Nat.one_ne_zero, if_neg (fun h => h rfl), hrun]
    rfl

theorem usub_largeSize (hc : Core s ps fs [] ls M B) (ha : a ∈ ls) :
    usub 64 (a+largeSize) largeSize = a := by
  have hrange := hc.range _ (hc.large_live ha)
  simp only [largeChunk] at hrange
  rw [largeSize, usub_of_le (by omega) (by omega)]
  omega

theorem checkLarge_large (hc : Core s ps fs [] ls M B) (ha : a ∈ ls) :
    checkLargeInPool s a = .ok true := by
  have hrange := hc.range _ (hc.large_live ha)
  simp only [largeChunk] at hrange
  rw [checkLargeInPool, findAddr_spec hc.largeht (by omega), if_pos ha]
  simp

/-- A large chunk leaves the registry and goes back to `malloc`. -/
theorem pfree_large (hc : Core s ps fs [] ls M B) (ha : a ∈ ls) :
    ∃ s', pfree s (a+largeSize) = .ok (s', 0) ∧ Core s' ps fs [] (ls.erase a) M B ∧
      s'.base = s.base ∧ s'.pools = s.pools ∧ s'.larges = s.larges ∧
      s'.config = { s.config with largeht := s'.config.largeht } ∧
      (s'.config.largeht = none ↔ s.config.largeht = none) ∧
      s'.property = s.property.subAlloced (largeBytes (s.larges a)) := by
  have hlive := hc.large_live ha
  have hrange := hc.range _ hlive
  simp only [largeChunk] at hrange
  have hok : AddrOk a := ⟨hrange.1, by omega⟩
  obtain ⟨t', hdel, hnone, hreg⟩ := deleteAddr_spec hc.largeht hok
  have hfree : s.heap.free a = .ok ⟨s.heap.live.erase (largeChunk s a), s.heap.tick⟩ :=
    free_spec hc.apart hlive
  simp only [ha, and_self, if_true] at hdel
  have hcore : Core { s with
      heap := ⟨s.heap.live.erase (largeChunk s a), s.heap.tick⟩
      config := { s.config with largeht := t' } } ps fs [] (ls.erase a) M B := by
    have hcfg := hc.config
    exact
      { config := ⟨hcfg.size, hcfg.again, hcfg.freepool, hcfg.low, hcfg.high⟩
        chain := @Chain.congr s { s with
          heap := ⟨s.heap.live.erase (largeChunk s a), s.heap.tick⟩
          config := { s.config with largeht := t' } } ps fs hc.chain rfl rfl rfl rfl
          (fun _ => rfl) (fun _ => rfl)
        out := hc.out
        size := hc.size
        inv := hc.inv
        idle := hc.idle
        few := hc.few
        apart := hc.apart.sublist List.erase_sublist
        range := fun c h => hc.range c (List.mem_of_mem_erase h)
        owned := by
          intro c
          have hold := hc.owned c
          show (c ∈ s.heap.live.erase (largeChunk s a) ∧ c.kind ≠ .other) ↔
            (∃ x ∈ s.base :: ps ++ fs ++ [], c = poolChunk s x) ∨
              ∃ x ∈ ls.erase a, c = largeChunk s x
          rw [mem_erase_chunk hc.apart]
          constructor
          · rintro ⟨⟨hca, hcl⟩, hk⟩
            rcases hold.mp ⟨hcl, hk⟩ with h | ⟨x, hx, rfl⟩
            · exact Or.inl h
            · have hxa : x ≠ a := fun he => hca (he ▸ rfl)
              exact Or.inr ⟨x, (List.mem_erase_of_ne hxa).mpr hx, rfl⟩
          · rintro (⟨x, hx, rfl⟩ | ⟨x, hx, rfl⟩)
            · have := hold.mpr (Or.inl ⟨x, hx, rfl⟩)
              refine ⟨⟨fun he => ?_, this.1⟩, this.2⟩
              have hk := congrArg Chunk.kind he
              simp [largeChunk, poolChunk] at hk
            · obtain ⟨hxa, hx⟩ := hc.largeht.nodup.mem_erase_iff.mp hx
              have := hold.mpr (Or.inr ⟨x, hx, rfl⟩)
              exact ⟨⟨fun he => hxa (congrArg Chunk.addr he), this.1⟩, this.2⟩
        ht := hc.ht
        largeht := hreg
        registered := hc.registered }
  refine ⟨_, ?_, hcore.counters (sameLists_subAlloced s.property (largeBytes (s.larges a))),
    rfl, rfl, rfl, rfl, hnone, rfl⟩
  have hall : s.heap.freeAll [a] = .ok ⟨s.heap.live.erase (largeChunk s a), s.heap.tick⟩ := by
    rw [Heap.freeAll, hfree]
    rfl
  rw [pfree, if_neg (by rw [largeSize]; omega)]
  simp only [checkLarge_large hc ha, usub_largeSize hc ha, ok_bind, if_true, freeLarge, hdel, hall]

end Calls

end CLearning.MempoolFree
