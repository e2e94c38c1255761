import CLearning.MempoolCore
import Mathlib.Algebra.BigOperators.Group.List.Basic

/-!
# Getting memory

`palloc` serves a request out of the linked pools, out of a pool it takes from
the parked ones or from `malloc`, or out of a chunk of its own. The invariant
goes with every step, and `Acct` says what the counters of the base pool count.
-/

set_option autoImplicit false

namespace CLearning.MempoolGrow
open CLearning.Machine CLearning.LinkedLists CLearning.MempoolBytes CLearning.MempoolPool
open CLearning.MempoolHeap CLearning.MempoolSplit CLearning.MempoolServe CLearning.MempoolState CLearning.Mempool
open CLearning.MempoolChain CLearning.MempoolRegistry CLearning.MempoolCore

section Counters

variable {s s' : State} {ps ps' fs xs ls M : List ℕ} {B : ℕ → List ℕ} {a b o size : ℕ}

theorem subLeftsize_of_le {p : Property} {n : ℕ} (hn : n ≤ p.total_leftsize)
    (ht : p.total_leftsize < 2^64) :
    (p.subLeftsize n).total_leftsize = p.total_leftsize-n ∧
      (p.subLeftsize n).total_alloced = p.total_alloced ∧
      (p.subLeftsize n).wrapped = p.wrapped := by
  unfold Property.subLeftsize
  rw [usub_of_le hn ht, decide_eq_false (Nat.not_lt.mpr hn), Bool.or_false]
  exact ⟨rfl, rfl, rfl⟩

theorem subAlloced_of_le {p : Property} {n : ℕ} (hn : n ≤ p.total_alloced)
    (ht : p.total_alloced < 2^64) :
    (p.subAlloced n).total_alloced = p.total_alloced-n ∧
      (p.subAlloced n).total_leftsize = p.total_leftsize ∧
      (p.subAlloced n).wrapped = p.wrapped := by
  unfold Property.subAlloced
  rw [usub_of_le hn ht, decide_eq_false (Nat.not_lt.mpr hn), Bool.or_false]
  exact ⟨rfl, rfl, rfl⟩

theorem addLeftsize_of_lt {p : Property} {n : ℕ} (ht : p.total_leftsize+n < 2^64) :
    (p.addLeftsize n).total_leftsize = p.total_leftsize+n ∧
      (p.addLeftsize n).total_alloced = p.total_alloced ∧
      (p.addLeftsize n).wrapped = p.wrapped := by
  unfold Property.addLeftsize
  rw [Nat.mod_eq_of_lt ht]
  exact ⟨rfl, rfl, rfl⟩

theorem addAlloced_of_lt {p : Property} {n : ℕ} (ht : p.total_alloced+n < 2^64) :
    (p.addAlloced n).total_alloced = p.total_alloced+n ∧
      (p.addAlloced n).total_leftsize = p.total_leftsize ∧
      (p.addAlloced n).wrapped = p.wrapped := by
  unfold Property.addAlloced
  rw [Nat.mod_eq_of_lt ht]
  exact ⟨rfl, rfl, rfl⟩

structure Acct (s : State) (ps ls : List ℕ) : Prop where
  alloced : s.property.total_alloced =
    s.config.pool_size*ps.length+(ls.map fun a => largeBytes (s.larges a)).sum
  leftsize : s.property.total_leftsize =
    ((s.base :: ps).map fun a => (s.pools a).leftsize).sum
  wrapped : s.property.wrapped = false
  cap : s.property.total_alloced < 2^36

theorem leftsize_le {p : Pool} {Q : List ℕ} (h : PoolInv p Q) : p.leftsize ≤ p.pool_size := by
  obtain ⟨T, L, hi, -⟩ := h
  have hle := hi.tiles.freeBytes_le
  rw [hi.left]
  omega

theorem pool_idle {p : Pool} (h : PoolInv p []) :
    p.busylist = none ∧ p.freelist 4 = some 0 ∧ p.leftsize = p.pool_size-mempoolSize := by
  obtain ⟨T, L, hi, hb⟩ := h
  have hnone : p.busylist = none := by
    have h0 := hi.lists.head_eq .busy
    rw [hb] at h0
    exact h0
  obtain ⟨-, -, h4, -, -, hl⟩ := heapInv_idle hi hnone
  have h0 := hi.lists.head_eq (.free 4)
  rw [h4] at h0
  exact ⟨hnone, h0, hl⟩

theorem sum_left_le (hc : Core s ps fs xs ls M B) (qs : List ℕ)
    (hq : ∀ a ∈ qs, a ∈ s.base :: ps) :
    (qs.map fun a => (s.pools a).leftsize).sum ≤ s.config.pool_size*qs.length := by
  induction qs with
  | nil => simp
  | cons a qs ih =>
    have ha := hq a (by simp)
    have h1 := leftsize_le (hc.linked_inv ha)
    rw [hc.size a (hc.linked ha)] at h1
    have h2 := ih fun x hx => hq x (by simp [hx])
    rw [List.map_cons, List.sum_cons, List.length_cons, Nat.mul_succ]
    omega

theorem Acct.quiet (h : Acct s ps ls) (hq : Quiet B s s') (hp : ps'.Perm ps) : Acct s' ps' ls where
  alloced := by
    rw [hq.kept.alloced, hq.kept.config, hq.kept.larges, hp.length_eq]
    exact h.alloced
  leftsize := by
    have hperm : (s.base :: ps').Perm (s.base :: ps) := hp.cons _
    rw [hq.kept.leftsize, hq.kept.base, h.leftsize]
    simp only [hq.left]
    exact ((hperm.map _).sum_eq).symm
  wrapped := by
    rw [hq.kept.wrapped]
    exact h.wrapped
  cap := by
    rw [hq.kept.alloced]
    exact h.cap

theorem sum_left_take {l : List ℕ} {f g : ℕ → ℕ} {n : ℕ} (hl : l.Nodup) (hb : b ∈ l)
    (hg : g b+n = f b) (ho : ∀ a, a ≠ b → g a = f a) : (l.map g).sum+n = (l.map f).sum := by
  induction l with
  | nil => cases hb
  | cons a l ih =>
    obtain ⟨hal, hnd⟩ := List.nodup_cons.mp hl
    rw [List.map_cons, List.map_cons, List.sum_cons, List.sum_cons]
    by_cases hab : a = b
    · subst hab
      have he : l.map g = l.map f :=
        List.map_congr_left fun x hx => ho x (fun hc => hal (hc ▸ hx))
      rw [he]
      omega
    · have hbl : b ∈ l := (List.mem_cons.mp hb).resolve_left (Ne.symm hab)
      have := ih hnd hbl
      rw [ho a hab]
      omega

theorem Acct.alloced_eq (h : Acct s ps ls) (h' : Acct s' ps' ls)
    (hsz : s'.config.pool_size = s.config.pool_size) (hl : s'.larges = s.larges)
    (hp : ps'.length = ps.length) : s'.property.total_alloced = s.property.total_alloced := by
  rw [h'.alloced, h.alloced, hsz, hl, hp]

theorem Acct.leftsize_lt (h : Acct s ps ls) (hc : Core s ps fs xs ls M B) :
    s.property.total_leftsize < 2^37 := by
  have hle := sum_left_le hc (s.base :: ps) fun a ha => ha
  have ha := h.alloced
  have hcap := h.cap
  have hsz := hc.config.size.2
  rw [← h.leftsize, List.length_cons, Nat.mul_succ] at hle
  omega

theorem Acct.granted (h : Acct s ps ls) (hc : Core s ps fs xs ls M B)
    (hg : Granted B s s' b o size) (hp : ps'.Perm ps) (hb : b ∈ s.base :: ps') :
    Acct s' ps' ls := by
  obtain ⟨s₁, ht, rfl⟩ := hg
  have hk := ht.kept
  have hperm : (s.base :: ps').Perm (s.base :: ps) := hp.cons _
  have hnd : (s.base :: ps').Nodup := hperm.nodup_iff.mpr hc.chain.nodup
  have hsum := @sum_left_take b _ (fun a => (s.pools a).leftsize) (fun a => (s₁.pools a).leftsize)
    _ hnd hb ht.left ht.others
  have htot : s₁.property.total_leftsize =
      ((s.base :: ps').map fun a => (s.pools a).leftsize).sum := by
    rw [hk.leftsize, h.leftsize]
    exact ((hperm.map _).sum_eq).symm
  have hlt := h.leftsize_lt hc
  rw [← hk.leftsize] at hlt
  obtain ⟨h1, h2, h3⟩ := @subLeftsize_of_le s₁.property ((s₁.pools b).rd o .size) (by omega) (by omega)
  refine ⟨?_, ?_, ?_, ?_⟩
  · show (s₁.property.subLeftsize _).total_alloced = s₁.config.pool_size*ps'.length+
      (ls.map fun a => largeBytes (s₁.larges a)).sum
    rw [h2, hk.alloced, hk.config, hk.larges, hp.length_eq]
    exact h.alloced
  · show (s₁.property.subLeftsize _).total_leftsize =
      ((s₁.base :: ps').map fun a => (s₁.pools a).leftsize).sum
    rw [h1, hk.base]
    omega
  · show (s₁.property.subLeftsize _).wrapped = false
    rw [h3, hk.wrapped]
    exact h.wrapped
  · show (s₁.property.subLeftsize _).total_alloced < 2^36
    rw [h2, hk.alloced]
    exact h.cap

theorem Acct.congr (h : Acct s ps ls) (hp : s'.property = s.property)
    (hcfg : s'.config = s.config) (hl : s'.larges = s.larges) (hb : s'.base = s.base)
    (hleft : ∀ a, (s'.pools a).leftsize = (s.pools a).leftsize) : Acct s' ps ls where
  alloced := by
    rw [hp, hcfg, hl]
    exact h.alloced
  leftsize := by
    rw [hp, hb]
    simp only [hleft]
    exact h.leftsize
  wrapped := hp ▸ h.wrapped
  cap := hp ▸ h.cap

theorem Acct.large {a n : ℕ} (h : Acct s ps ls) (hp : s'.property = s.property.addAlloced n)
    (hsz : s'.config.pool_size = s.config.pool_size) (hb : s'.base = s.base)
    (hpools : s'.pools = s.pools) (hl : ∀ x ∈ ls, s'.larges x = s.larges x)
    (hn : largeBytes (s'.larges a) = n) (hroom : s.property.total_alloced+n < 2^36) :
    Acct s' ps (a :: ls) := by
  obtain ⟨h1, h2, h3⟩ := @addAlloced_of_lt s.property n (by omega)
  have hsum : (ls.map fun a => largeBytes (s'.larges a)) = ls.map fun a => largeBytes (s.larges a) :=
    List.map_congr_left fun x hx => by rw [hl x hx]
  refine ⟨?_, ?_, ?_, ?_⟩
  · rw [hp, h1, h.alloced, hsz, List.map_cons, List.sum_cons, hn, hsum]
    omega
  · rw [hp, h2, hb, hpools]
    exact h.leftsize
  · rw [hp, h3]
    exact h.wrapped
  · rw [hp, h1]
    exact hroom

end Counters

section Idle

variable {s s' : State} {ps fs xs ls M : List ℕ} {B : ℕ → List ℕ} {b size : ℕ}

theorem searchPools_idle (hc : Core s ps fs xs ls M B) (hb : b ∈ s.base :: ps) (hB : B b = [])
    (hs : size ≤ s.config.pool_size-mempoolSize) (fuel n : ℕ) :
    ∃ q o, takeRealdata (s.pools b) size = some (q, o) ∧
      searchPools size (fuel+1) s (some b) n = .ok ⟨s.setPool b q, some b, some o⟩ := by
  have hmem := hc.linked hb
  have hinv := hc.linked_inv hb
  rw [hB] at hinv
  obtain ⟨hbusy, hfree, hleft⟩ := pool_idle hinv
  rw [hc.size b hmem] at hleft
  have hnot : ¬((s.pools b).leftsize < size ∨ mempoolGetFreelist (s.pools b) size = none) := by
    rintro (h | h)
    · omega
    · rw [mempoolGetFreelist, firstFreelist_eq_none] at h
      have h4 := h 4 (mem_classesFrom.mpr (Fin.le_last _))
      rw [hfree] at h4
      cases h4
  obtain ⟨⟨q, o⟩, htake⟩ : ∃ r, takeRealdata (s.pools b) size = some r :=
    ⟨_, takeRealdata_idle hbusy hfree⟩
  refine ⟨q, o, htake, ?_⟩
  rw [searchPools, if_neg hnot]
  simp only [htake]

theorem allocRealdata_idle (hc : Core s ps fs xs ls M B) (hb : b ∈ s.base :: ps) (hB : B b = [])
    (h16 : 16 ≤ size) (hs : size ≤ s.config.pool_size-mempoolSize) (fuel n : ℕ) :
    ∃ s' o, allocRealdata size (fuel+1) s (some b) n = .ok (s', some (b, o)) ∧
      Core s' ps fs xs ls M (Function.update B b (o :: B b)) ∧ Granted B s s' b o size := by
  obtain ⟨q, o, htake, hrun⟩ := searchPools_idle hc hb hB hs fuel 0
  have hmem := hc.linked hb
  have hinv := hc.linked_inv hb
  rw [hB] at hinv
  have hleft := (pool_idle hinv).2.2
  rw [hc.size b hmem] at hleft
  obtain ⟨hcore, htook⟩ := take_core hc hb h16 (by omega) htake
  refine ⟨_, o, ?_, hcore.counters (sameLists_subLeftsize _ _), s.setPool b q, htook, rfl⟩
  rw [allocRealdata, hrun, ok_bind]

end Idle

section NewPool

variable {s s' : State} {ps fs xs ls M : List ℕ} {B : ℕ → List ℕ} {a : ℕ}

theorem malloc_spec (env : Env) (h : Heap) (n : ℕ) (k : Kind) :
    h.malloc env n k = (⟨h.live, h.tick+1⟩, none) ∨
      ∃ a, h.malloc env n k = (⟨⟨a, n, k⟩ :: h.live, h.tick+1⟩, some a) ∧ 0 < a ∧
        (a % 16 = 0 ∧ a+max n 1 ≤ 2^64) ∧ ∀ c ∈ h.live, Chunk.Apart ⟨a, n, k⟩ c := by
  rw [Heap.malloc]
  cases hm : env.malloc h.tick h.live n with
  | none => exact Or.inl rfl
  | some a => exact Or.inr ⟨a, rfl, env.fresh _ _ _ a k hm⟩

/-- `mempool_init_extra` for a linked pool: the pool is as long as the base pool
and one free block. -/
theorem newPool_spec (env : Env) (h : Heap) {n : ℕ} (hn : initSize n = n) (m : ℤ) :
    mempoolInitExtra env h n 0 0 0 m false = .ok (⟨h.live, h.tick+1⟩, none) ∨
      ∃ a f p, mempoolInitExtra env h n 0 0 0 m false =
          .ok (⟨⟨a, n, .pool⟩ :: h.live, h.tick+1⟩, some (a, f)) ∧ f.pool = initMempool p ∧
        p.pool_size = n ∧ 0 < a ∧ (a % 16 = 0 ∧ a+max n 1 ≤ 2^64) ∧
        ∀ c ∈ h.live, Chunk.Apart ⟨a, n, .pool⟩ c := by
  rw [mempoolInitExtra]
  simp only [hn]
  rcases malloc_spec env h n .pool with hm | ⟨a, hm, h1, h2, h3⟩
  · left
    simp only [hm]
  · right
    simp only [hm, mempoolSetMaxmem, Nat.lt_irrefl, gt_iff_lt, false_and, if_false, ok_bind]
    exact ⟨a, _, _, rfl, rfl, rfl, h1, h2, h3⟩

/-- `malloc` hands out the chunk of a new pool. -/
theorem addPool_core {p : Pool} {t : ℕ} (hc : Core s ps fs [] ls M B)
    (hp : p.pool_size = s.config.pool_size) (h0 : 0 < a)
    (hr : a % 16 = 0 ∧ a+max s.config.pool_size 1 ≤ 2^64)
    (ha : ∀ c ∈ s.heap.live, Chunk.Apart ⟨a, s.config.pool_size, .pool⟩ c) :
    Core ({ s with heap := ⟨⟨a, s.config.pool_size, .pool⟩ :: s.heap.live, t⟩ }.setPool a
      (initMempool p)) ps fs [a] ls M B ∧ PoolInv (initMempool p) [] := by
  obtain ⟨hnew, -⟩ := hc.fresh ha
  rw [List.append_nil] at hnew
  have hne : ∀ x, x ∈ s.base :: ps ++ fs → x ≠ a := fun x hx he => hnew (he ▸ hx)
  have hall : ∀ x, x ∈ s.base :: ps ++ fs ++ [a] ↔ x ∈ s.base :: ps ++ fs ++ [] ∨ x = a := by
    intro x
    simp [or_assoc]
  obtain ⟨hinv, -, -, -, -, -, hsame⟩ := initMempool_spec (hp ▸ hc.config.size)
  have hpn : PoolInv (initMempool p) [] := ⟨_, _, hinv, rfl⟩
  have hps : (initMempool p).pool_size = s.config.pool_size := by
    rw [hsame]
    exact hp
  set s' := { s with heap := ⟨⟨a, s.config.pool_size, .pool⟩ :: s.heap.live, t⟩ }.setPool a
    (initMempool p) with hs'
  have hself : s'.pools a = initMempool p := pools_setPool_self _ _ _
  have hold : ∀ x, x ≠ a → s'.pools x = s.pools x := fun x hx => pools_setPool_ne _ _ hx
  have hlive : s'.heap.live = ⟨a, s.config.pool_size, .pool⟩ :: s.heap.live := rfl
  have hring : ∀ r, ∀ x ∈ rings s.base ps fs r, x ≠ a := by
    intro r x hx
    apply hne x
    cases r with
    | linked => exact List.mem_append_left _ hx
    | parked => exact List.mem_append_right _ hx
  have hcfg : s'.config = s.config := rfl
  have hbase : s'.base = s.base := rfl
  have hlg : s'.larges = s.larges := rfl
  have hprop : s'.property = s.property := rfl
  clear_value s'
  refine ⟨?_, hpn⟩
  exact
    { config := hcfg ▸ hc.config
      chain :=
        { family := by
            rw [hbase]
            apply hc.chain.family.congr
            · intro r
              cases r with
              | linked => simp [chainHeads, hbase]
              | parked => simp [chainHeads, hprop]
            · intro r x hx
              simp [chainLinks, hold x (hring r x hx)]
            · intro r x hx
              simp [chainLinks, hold x (hring r x hx)]
          tail := hprop ▸ hc.chain.tail
          count := hprop ▸ hc.chain.count }
      out := by
        intro x hx
        rw [List.mem_singleton.mp hx, hbase]
        exact ⟨fun h => hne a (List.mem_append_left _ h) rfl,
          fun h => hne a (List.mem_append_right _ h) rfl⟩
      size := by
        intro x hx
        rw [hbase, hall] at hx
        rcases hx with hx | rfl
        · rw [hold x (hne x (by simpa using hx)), hcfg]
          exact hc.size x hx
        · rw [hself, hps, hcfg]
      inv := by
        intro x hx
        rw [hbase] at hx
        rw [hold x (hne x hx)]
        exact hc.inv x hx
      idle := hc.idle
      few := hc.few
      apart := by
        rw [hlive, List.pairwise_cons]
        exact ⟨ha, hc.apart⟩
      range := by
        intro c hcl
        rw [hlive] at hcl
        rcases List.mem_cons.mp hcl with rfl | hcl
        · exact ⟨h0, hr⟩
        · exact hc.range c hcl
      owned := by
        intro c
        have hold' := hc.owned c
        rw [hlive, hbase]
        simp only [hall, poolChunk, largeChunk, hcfg, hlg] at hold' ⊢
        constructor
        · rintro ⟨hcl, hk⟩
          rcases List.mem_cons.mp hcl with rfl | hcl
          · exact Or.inl ⟨a, Or.inr rfl, rfl⟩
          · rcases hold'.mp ⟨hcl, hk⟩ with ⟨x, hx, rfl⟩ | hx
            · exact Or.inl ⟨x, Or.inl hx, rfl⟩
            · exact Or.inr hx
        · rintro (⟨x, hx | rfl, rfl⟩ | hx)
          · have := hold'.mpr (Or.inl ⟨x, hx, rfl⟩)
            exact ⟨List.mem_cons_of_mem _ this.1, this.2⟩
          · exact ⟨List.mem_cons_self, by simp⟩
          · have := hold'.mpr (Or.inr hx)
            exact ⟨List.mem_cons_of_mem _ this.1, this.2⟩
      ht := hcfg ▸ hc.ht
      largeht := hcfg ▸ hc.largeht
      registered := by
        intro x hx
        rw [hbase]
        have := hc.registered x hx
        rw [List.append_nil] at this
        exact List.mem_append_left _ this }

structure Gained (ps : List ℕ) (s s' : State) : Prop where
  base : s'.base = s.base
  config : s'.config = { s.config with ht := s'.config.ht }
  larges : s'.larges = s.larges
  wrapped : s'.property.wrapped = s.property.wrapped
  same : ∀ x ∈ s.base :: ps, SameBlocks (s.pools x) (s'.pools x)
  created : s'.config.ht = none ↔ s.config.ht = none

/-- A parked pool or a new one stands ready. -/
theorem takeMempool_spec (env : Env) (hc : Core s ps fs [] ls M B) {r : Option ℕ}
    (hrun : takeMempool env s = .ok (s', r)) :
    r = none ∨ ∃ a, r = some a ∧ Core s' ps fs.tail [a] ls M B ∧ PoolInv (s'.pools a) [] ∧
      Gained ps s s' ∧ s'.config.ht = s.config.ht ∧
      s'.property.total_alloced = s.property.total_alloced ∧
      s'.property.total_leftsize = s.property.total_leftsize := by
  cases fs with
  | cons a fs =>
    have hcount : (a :: fs).length < 2^32 := Nat.lt_trans hc.few (by decide)
    obtain ⟨s₁, hrun₁, hch, hr⟩ := takeMempool_parked env hc.chain hcount
    rw [hrun₁, Except.ok.injEq, Prod.mk.injEq] at hrun
    obtain ⟨rfl, rfl⟩ := hrun
    have hk := @Relinked.kept _ _ B hr
    right
    have hsame := Relinked.sameBlocks hr
    refine ⟨a, rfl, ?_, ?_, ⟨hk.base, ?_, hk.larges, hk.wrapped, fun x _ => hsame x,
      by rw [hk.config]⟩, by rw [hk.config], hk.alloced, hk.leftsize⟩
    · apply hc.rebuild hk.base _ hk.heap hk.larges (fun x => (hsame x).pool_size) hch
      · intro x hx
        apply (hc.inv x _).congr (hsame x)
        simp only [List.mem_append, List.mem_cons] at hx ⊢
        tauto
      · intro x
        simp only [List.mem_append, List.mem_cons, List.not_mem_nil]
        tauto
      · intro x hx
        rw [List.mem_singleton.mp hx]
        have hnd := hc.chain.family.nodup .parked
        exact ⟨fun h => hc.chain.not_parked h (by simp), (List.nodup_cons.mp hnd).1⟩
      · exact fun x hx => hc.idle x (by simp [hx])
      · exact Nat.lt_trans (Nat.lt_succ_self _) hc.few
      · rw [hk.config]
        exact hc.ht
      · intro x hx
        have := hc.registered x hx
        rw [List.append_nil] at this
        exact List.mem_append_left _ this
      · rw [hk.config]
    · have hidle := hc.inv a (by simp)
      rw [hc.idle a (by simp)] at hidle
      exact hidle.congr (hsame a)
    · rw [hk.config]
  | nil =>
    have hfree : s.property.freepool = none := hc.chain.family.head_eq .parked
    rw [takeMempool, hfree] at hrun
    simp only at hrun
    rcases newPool_spec env s.heap hc.config.again s.config.max_searchpool with
      hn | ⟨a, f, p, hn, hf, hp, h0, hr, ha⟩
    · rw [hn, ok_bind] at hrun
      simp only [Except.ok.injEq, Prod.mk.injEq] at hrun
      exact Or.inl hrun.2.symm
    · rw [hn, ok_bind] at hrun
      simp only [Except.ok.injEq, Prod.mk.injEq] at hrun
      obtain ⟨rfl, rfl⟩ := hrun
      have hnew := (hc.fresh ha).1
      have hne : ∀ x ∈ s.base :: ps, x ≠ a := fun x hx he =>
        hnew (he ▸ hc.linked hx)
      right
      have hadd := @addPool_core s ps [] ls M B a p (s.heap.tick+1) hc hp h0 hr ha
      refine ⟨a, rfl, ?_, ?_, ⟨rfl, rfl, rfl, rfl, fun x hx => ?_, Iff.rfl⟩, rfl, rfl, rfl⟩
      · rw [hf]
        exact hadd.1
      · rw [pools_setPool_self, hf]
        exact hadd.2
      · rw [pools_setPool_ne _ _ (hne x hx)]
        exact SameBlocks.refl _

theorem Acct.gained {qs : List ℕ} (h : Acct s qs ls) (hq : ∀ x ∈ qs, x ∈ ps)
    (hg : Gained ps s s')
    (ha : s'.property.total_alloced = s.property.total_alloced)
    (hl : s'.property.total_leftsize = s.property.total_leftsize) : Acct s' qs ls where
  alloced := by
    have hsz : s'.config.pool_size = s.config.pool_size := by rw [hg.config]
    rw [ha, hsz, hg.larges]
    exact h.alloced
  leftsize := by
    rw [hl, hg.base, h.leftsize]
    apply congrArg List.sum
    apply List.map_congr_left
    intro x hx
    apply ((hg.same x _).leftsize).symm
    rcases List.mem_cons.mp hx with rfl | hx
    · exact List.mem_cons_self
    · exact List.mem_cons_of_mem _ (hq x hx)
  wrapped := hg.wrapped.trans h.wrapped
  cap := ha ▸ h.cap

/-- The counters of a pool that joins. -/
theorem Acct.join (h : Acct s ps ls) (hc : Core s ps fs xs ls M B)
    (ha : a ∈ s.base :: ps ++ fs ++ xs) {Q : List ℕ} (hi : PoolInv (s.pools a) Q)
    (hroom : s.property.total_alloced+s.config.pool_size < 2^36) :
    Acct { s with
      property := (s.property.addAlloced s.config.pool_size).addLeftsize (s.pools a).leftsize }
      (a :: ps) ls := by
  have hlt := h.leftsize_lt hc
  have hle := leftsize_le hi
  rw [hc.size a ha] at hle
  have hsz := hc.config.size.2
  obtain ⟨h1, h2, h3⟩ := @addAlloced_of_lt s.property s.config.pool_size (by omega)
  obtain ⟨h4, h5, h6⟩ := @addLeftsize_of_lt (s.property.addAlloced s.config.pool_size)
    (s.pools a).leftsize (by omega)
  refine ⟨?_, ?_, ?_, ?_⟩
  · show ((s.property.addAlloced s.config.pool_size).addLeftsize _).total_alloced =
      s.config.pool_size*(a :: ps).length+(ls.map fun a => largeBytes (s.larges a)).sum
    rw [h5, h1, h.alloced, List.length_cons, Nat.mul_succ]
    omega
  · show ((s.property.addAlloced s.config.pool_size).addLeftsize _).total_leftsize =
      ((s.base :: a :: ps).map fun a => (s.pools a).leftsize).sum
    rw [h4, h2, h.leftsize]
    simp only [List.map_cons, List.sum_cons]
    omega
  · show ((s.property.addAlloced s.config.pool_size).addLeftsize _).wrapped = false
    rw [h6, h3]
    exact h.wrapped
  · show ((s.property.addAlloced s.config.pool_size).addLeftsize _).total_alloced < 2^36
    rw [h5, h1]
    exact hroom

theorem getMempool_spec (env : Env) (hc : Core s ps fs [] ls M B) {r : Option ℕ}
    (hrun : getMempool env s = .ok (s', r)) :
    Gained ps s s' ∧
      (r = none ∧ Core s' ps fs.tail [] ls M B ∧
          s'.property.total_alloced = s.property.total_alloced ∧
          s'.property.total_leftsize = s.property.total_leftsize ∨
        ∃ a, r = some a ∧ Core s' ps fs.tail [a] ls (a :: M) B ∧ PoolInv (s'.pools a) [] ∧
          (Acct s ps ls → s.property.total_alloced+s.config.pool_size < 2^36 →
            Acct s' (a :: ps) ls)) := by
  obtain ⟨⟨s₁, np⟩, htake, hrest⟩ := bind_ok_iff.mp hrun
  rcases takeMempool_spec env hc htake with rfl | ⟨a, rfl, hc₁, hi, hg, hht, hal, hle⟩
  · cases hrest
  have ha : a ∈ s₁.base :: ps ++ fs.tail ++ [a] := by simp
  have hrange := hc₁.range _ (hc₁.pool_live ha)
  have haM : a ∉ M := by
    intro hM
    have hout := (hc₁.out a (by simp)).1
    have := hc.registered a hM
    rw [List.append_nil, ← hg.base] at this
    exact hout this
  have hMx : ∀ x ∈ M, x ∈ s₁.base :: ps ++ [a] := hc₁.registered
  obtain ⟨t', r', hins, hnone, hcase⟩ := insertAddr_spec hc₁.ht (a := a)
    ⟨hrange.1, by have := hrange.2.2; simp only [poolChunk] at this; omega⟩
  simp only [hins, ok_bind] at hrest
  have hg' : ∀ (p : Property) (h : Heap), p.wrapped = s₁.property.wrapped →
      Gained ps s { s₁ with
        config := { s₁.config with ht := t' }
        property := p
        heap := h } := by
    intro p h hw
    refine ⟨hg.base, ?_, hg.larges, hw.trans hg.wrapped, hg.same, ?_⟩
    · show ({ s₁.config with ht := t' } : Config) = { s.config with ht := t' }
      rw [hg.config]
    · show t' = none ↔ s.config.ht = none
      rw [hnone, hg.created]
  rcases hcase with ⟨hr0, -, hreg⟩ | ⟨hr0, hreg⟩
  · have hc₂ : Core { s₁ with config := { s₁.config with ht := t' } } ps fs.tail [a] ls (a :: M)
        B := by
      apply hc₁.setHt hreg
      intro x hx
      rcases List.mem_cons.mp hx with rfl | hx
      · simp
      · exact hMx x hx
    rw [if_neg (by simp [hr0])] at hrest
    simp only [Except.ok.injEq, Prod.mk.injEq] at hrest
    obtain ⟨rfl, rfl⟩ := hrest
    refine ⟨hg' _ s₁.heap ?_, Or.inr ⟨a, rfl, ?_, hi, ?_⟩⟩
    · simp [Property.addAlloced, Property.addLeftsize]
    · exact hc₂.counters ((sameLists_addAlloced _ _).trans (sameLists_addLeftsize _ _))
    · intro hacct hroom
      have h₁ : Acct s₁ ps ls := hacct.gained (fun x hx => hx) hg hal hle
      have hsz : s₁.config.pool_size = s.config.pool_size := by rw [hg.config]
      have h₂ := h₁.join hc₁ ha hi (by rw [hal, hsz]; exact hroom)
      exact ⟨h₂.alloced, h₂.leftsize, h₂.wrapped, h₂.cap⟩
  · have hc₂ : Core { s₁ with config := { s₁.config with ht := t' } } ps fs.tail [a] ls M B :=
      hc₁.setHt hreg hMx
    obtain ⟨hfree, hc₃⟩ := hc₂.dropPool haM
    rw [if_pos hr0] at hrest
    simp only [hfree, ok_bind, Except.ok.injEq, Prod.mk.injEq] at hrest
    obtain ⟨rfl, rfl⟩ := hrest
    exact ⟨hg' _ _ rfl, Or.inl ⟨rfl, hc₃, hal, hle⟩⟩

theorem linkMempool_core (hc : Core s ps fs [a] ls M B) (hi : PoolInv (s.pools a) []) :
    Core (linkMempool s a) (a :: ps) fs [] ls M (Function.update B a []) ∧ Kept B s (linkMempool s a) ∧
      ∀ x, SameBlocks (s.pools x) ((linkMempool s a).pools x) := by
  have hout := hc.out a (by simp)
  obtain ⟨hch, hr⟩ := linkMempool_spec hc.chain hout.1 hout.2
  have hk := @Relinked.kept _ _ B hr
  refine ⟨?_, hk, Relinked.sameBlocks hr⟩
  have hsame := Relinked.sameBlocks hr
  apply hc.rebuild hk.base _ hk.heap hk.larges (fun x => (hsame x).pool_size) hch
  · intro x hx
    by_cases hxa : x = a
    · rw [hxa, Function.update_self]
      exact hi.congr (hsame a)
    · rw [Function.update_of_ne hxa]
      apply (hc.inv x _).congr (hsame x)
      simp only [List.mem_append, List.mem_cons] at hx ⊢
      tauto
  · intro x
    simp only [List.mem_append, List.mem_cons, List.not_mem_nil]
    tauto
  · simp
  · intro x hx
    have hne : x ≠ a := fun he => hout.2 (he ▸ hx)
    rw [Function.update_of_ne hne]
    exact hc.idle x hx
  · exact hc.few
  · rw [hk.config]
    exact hc.ht
  · intro x hx
    have := hc.registered x hx
    simp only [List.mem_append, List.mem_cons, List.not_mem_nil] at this ⊢
    tauto
  · rw [hk.config]

end NewPool

section Loop

variable {s s' : State} {ps ps' fs ls M M' : List ℕ} {B B' : ℕ → List ℕ} {b o size : ℕ}

def Registered (s : State) (ps M : List ℕ) : Prop :=
  s.config.ht ≠ none → ∀ a ∈ s.base :: ps, a ∈ M

structure Steady (ps : List ℕ) (B : ℕ → List ℕ) (s s' : State) : Prop where
  base : s'.base = s.base
  config : s'.config = { s.config with ht := s'.config.ht, largeht := s'.config.largeht }
  ht : s'.config.ht = none ↔ s.config.ht = none
  largeht : s'.config.largeht = none ↔ s.config.largeht = none
  blocks : ∀ a ∈ s.base :: ps, ∀ x ∈ B a, (s'.pools a).rd x .size = (s.pools a).rd x .size ∧
    (s'.pools a).rd x .used = (s.pools a).rd x .used

theorem steady_of_quiet (h : Quiet B s s') : Steady ps B s s' :=
  ⟨h.kept.base, by rw [h.kept.config], by rw [h.kept.config], by rw [h.kept.config],
    fun a _ x hx => h.kept.blocks a x hx⟩

theorem Steady.trans {t : State} (h : Steady ps B s s') (h' : Steady ps' B' s' t)
    (hps : ∀ a ∈ s.base :: ps, a ∈ s.base :: ps') (hB : ∀ a ∈ s.base :: ps, ∀ x ∈ B a, x ∈ B' a) :
    Steady ps B s t where
  base := h'.base.trans h.base
  config := by rw [h'.config, h.config]
  ht := h'.ht.trans h.ht
  largeht := h'.largeht.trans h.largeht
  blocks a ha x hx := by
    obtain ⟨h1, h2⟩ := h.blocks a ha x hx
    obtain ⟨h3, h4⟩ := h'.blocks a (h.base.symm ▸ hps a ha) x (hB a ha x hx)
    exact ⟨h3.trans h1, h4.trans h2⟩

theorem Gained.steady (h : Gained ps s s') : Steady ps B s s' where
  base := h.base
  config := by
    have hl : s'.config.largeht = s.config.largeht := by rw [h.config]
    rw [hl, ← h.config]
  ht := h.created
  largeht := by
    have hl : s'.config.largeht = s.config.largeht := by rw [h.config]
    rw [hl]
  blocks a ha x _ := by
    rw [Pool.rd, Pool.rd, Pool.rd, Pool.rd, (h.same a ha).data]
    exact ⟨rfl, rfl⟩

structure Denied (s : State) (ps ps' M M' : List ℕ) (B B' : ℕ → List ℕ) : Prop where
  pools : ps'.Perm ps
  registered : M' = M
  busy : ∀ x ∈ s.base :: ps, B' x = B x

structure Handed (s s' : State) (ps ps' : List ℕ) (B B' : ℕ → List ℕ) (b o size : ℕ) : Prop where
  mem : b ∈ s.base :: ps'
  old : ∀ x ∈ ps, x ∈ ps'
  pools : ∀ x ∈ ps', x ∈ ps ∨ x = b
  busy : ∀ a ∈ s.base :: ps', ∀ x, x ∈ B' a ↔ (a ∈ s.base :: ps ∧ x ∈ B a) ∨ (a = b ∧ x = o)
  fresh : b ∈ s.base :: ps → o ∉ B b
  fits : size ≤ (s'.pools b).rd o .size

theorem steady_of_granted (h : Granted B s s' b o size) : Steady ps B s s' := by
  obtain ⟨s₁, ht, rfl⟩ := h
  have hk := ht.kept
  exact ⟨hk.base, by rw [← hk.config], by rw [← hk.config], by rw [← hk.config],
    fun a _ x hx => hk.blocks a x hx⟩

theorem mem_busy_update {a x : ℕ} :
    x ∈ Function.update B b (o :: B b) a ↔ x ∈ B a ∨ (a = b ∧ x = o) := by
  by_cases hab : a = b
  · subst hab
    rw [Function.update_self, List.mem_cons]
    tauto
  · simp [hab]

theorem handed_of_granted (h : Granted B s s' b o size) (hb : b ∈ s.base :: ps') (hp : ps'.Perm ps) :
    Handed s s' ps ps' B (Function.update B b (o :: B b)) b o size := by
  obtain ⟨s₁, ht, rfl⟩ := h
  refine ⟨hb, fun x hx => hp.mem_iff.mpr hx, fun x hx => Or.inl (hp.mem_iff.mp hx),
    fun a ha x => ?_, fun _ => ht.fresh, ht.fits⟩
  have ha' : a ∈ s.base :: ps := by simpa [hp.mem_iff] using ha
  rw [mem_busy_update]
  simp [ha']

theorem Registered.perm (h : Registered s ps M) (hst : Steady ps B s s') (hp : ps'.Perm ps) :
    Registered s' ps' M := by
  intro hht a ha
  rw [hst.base] at ha
  apply h (fun hn => hht (hst.ht.mpr hn))
  simpa [hp.mem_iff] using ha

theorem Handed.perm {t : State} {ps₁ : List ℕ} (h : Handed t s' ps₁ ps' B B' b o size)
    (hbase : t.base = s.base) (hp : ps₁.Perm ps) : Handed s s' ps ps' B B' b o size where
  mem := hbase ▸ h.mem
  old x hx := h.old x (hp.mem_iff.mpr hx)
  pools x hx := (h.pools x hx).imp_left hp.mem_iff.mp
  busy a ha x := by simpa [hp.mem_iff, hbase] using h.busy a (hbase.symm ▸ ha) x
  fresh hb := h.fresh (by simpa [hp.mem_iff, hbase] using hb)
  fits := h.fits

/-- A further pool is linked and serves the request. -/
theorem further_spec (env : Env) (h16 : 16 ≤ size) (fuel : ℕ) {a : ℕ} {t : State}
    {r : Option (ℕ × ℕ)} (hc : Core s ps fs [] ls M B)
    (hs : size ≤ s.config.pool_size-mempoolSize) (hget : getMempool env s = .ok (t, some a))
    (hrun : allocAgain env size fuel (linkMempool t a) (some a) = .ok (s', r)) :
    ∃ o B', r = some (a, o) ∧ Core s' (a :: ps) fs.tail [] ls (a :: M) B' ∧ Steady ps B s s' ∧
      s'.larges = s.larges ∧
      (Acct s ps ls → s.property.total_alloced+s.config.pool_size < 2^36 →
        Acct s' (a :: ps) ls ∧
          s'.property.total_alloced = s.property.total_alloced+s.config.pool_size) ∧
      (Registered s ps M → Registered s' (a :: ps) (a :: M)) ∧
      Handed s s' ps (a :: ps) B B' a o size := by
  obtain ⟨hgain, hcase⟩ := getMempool_spec env hc hget
  rcases hcase with ⟨h, -⟩ | ⟨a', ha', hc₂, hi₂, hacct₂⟩
  · cases h
  obtain rfl := Option.some.inj ha'
  obtain ⟨hc₃, hk₃, hsame₃⟩ := linkMempool_core hc₂ hi₂
  have hnew : a ∉ s.base :: ps := by
    have hout := (hc₂.out a (by simp)).1
    rwa [hgain.base] at hout
  have hB : ∀ x ∈ s.base :: ps, Function.update B a [] x = B x := fun x hx =>
    Function.update_of_ne (fun he : x = a => hnew (he ▸ hx)) _ _
  have hidle : Function.update B a [] a = [] := Function.update_self ..
  generalize Function.update B a [] = B₂ at hc₃ hB hidle
  have hsz : (linkMempool t a).config.pool_size = s.config.pool_size := by
    rw [hk₃.config, hgain.config]
  have hquiet : Quiet B t (linkMempool t a) := ⟨hk₃, fun x => (hsame₃ x).leftsize⟩
  cases fuel with
  | zero => cases hrun
  | succ fuel =>
    obtain ⟨s₄, o, hrun₄, hc₄, hg₄⟩ := allocRealdata_idle hc₃ (by simp) hidle h16
      (hsz.symm ▸ hs) fuel 0
    have hst : Steady ps B s s₄ := by
      have hlinked : Steady ps B s (linkMempool t a) :=
        hgain.steady.trans (steady_of_quiet hquiet : Steady ps B t _) (fun _ h => h)
          (fun _ _ _ h => h)
      apply @Steady.trans s _ ps (a :: ps) B B₂ _ hlinked (steady_of_granted hg₄)
      · intro x hx
        rcases List.mem_cons.mp hx with rfl | hx
        · exact List.mem_cons_self
        · exact List.mem_cons_of_mem _ (List.mem_cons_of_mem _ hx)
      · intro x hx y hy
        rw [hB x hx]
        exact hy
    simp only [allocAgain, hrun₄, ok_bind, Except.ok.injEq, Prod.mk.injEq] at hrun
    obtain ⟨rfl, rfl⟩ := hrun
    obtain ⟨s₅, ht₄, hs₄⟩ := id hg₄
    have hlarges : s₄.larges = s.larges := by
      rw [hs₄]
      exact ht₄.kept.larges.trans (hk₃.larges.trans hgain.larges)
    refine ⟨o, _, rfl, hc₄, hst, hlarges, fun h hlt => ?_, fun hreg hht x hx => ?_,
      ⟨by simp, fun x hx => List.mem_cons_of_mem _ hx, fun x hx => ?_, fun x hx y => ?_,
        fun h => absurd h hnew, ?_⟩⟩
    · have h₄ := ((hacct₂ h hlt).quiet hquiet (List.Perm.refl _)).granted hc₃ hg₄
        (List.Perm.refl _) (by simp)
      refine ⟨h₄, ?_⟩
      have hsz₄ : s₄.config.pool_size = s.config.pool_size := by rw [hst.config]
      have htot := h₄.alloced
      rw [hlarges, hsz₄, List.length_cons, Nat.mul_succ] at htot
      rw [htot, h.alloced]
      omega
    · rw [hst.base] at hx
      have hne : s.config.ht ≠ none := fun hn => hht (hst.ht.mpr hn)
      rcases List.mem_cons.mp hx with rfl | hx
      · exact List.mem_cons_of_mem _ (hreg hne _ (by simp))
      · rcases List.mem_cons.mp hx with rfl | hx
        · simp
        · exact List.mem_cons_of_mem _ (hreg hne x (by simp [hx]))
    · rcases List.mem_cons.mp hx with rfl | hx
      · exact Or.inr rfl
      · exact Or.inl hx
    · rw [mem_busy_update]
      by_cases hxa : x = a
      · subst hxa
        simp [hidle, hnew]
      · have hx' : x ∈ s.base :: ps := by simpa [hxa] using hx
        simp [hB x hx', hx', hxa]
    · rw [hs₄]
      exact ht₄.fits

/-- The loop of `palloc` over the linked pools and, at most once, a further pool. -/
theorem allocAgain_spec (env : Env) (h16 : 16 ≤ size) (fuel : ℕ) {tmp : Option ℕ}
    {r : Option (ℕ × ℕ)} (hc : Core s ps fs [] ls M B)
    (hs : size ≤ s.config.pool_size-mempoolSize)
    (ht : ∀ a, tmp = some a → a ∈ s.base :: ps)
    (hrun : allocAgain env size fuel s tmp = .ok (s', r)) :
    ∃ ps' fs' M' B', Core s' ps' fs' [] ls M' B' ∧ Steady ps B s s' ∧ s'.larges = s.larges ∧
      (Acct s ps ls → Acct s' ps' ls ∧
        (s'.property.total_alloced = s.property.total_alloced ∨
          s'.property.total_alloced+s.config.pool_size ≤ s.config.max_memsize)) ∧
      (Registered s ps M → Registered s' ps' M') ∧
      (r = none ∧ Denied s ps ps' M M' B B' ∨
        ∃ b o, r = some (b, o) ∧ Handed s s' ps ps' B B' b o size) := by
  cases fuel with
  | zero => cases hrun
  | succ fuel =>
    rw [allocAgain] at hrun
    obtain ⟨⟨s₁, r₁⟩, halloc, hrest⟩ := bind_ok_iff.mp hrun
    obtain ⟨ps₁, hp, hcase⟩ := allocRealdata_spec h16 _ hc ht halloc
    rcases hcase with ⟨rfl, hc₁, hq⟩ | ⟨b, o, rfl, hb, hc₁, hg⟩
    · have hst₁ : Steady ps B s s₁ := steady_of_quiet hq
      have hacct₁ : Acct s ps ls → Acct s₁ ps₁ ls := fun h => h.quiet hq hp
      have hcfg₁ := hq.kept.config
      simp only at hrest
      split at hrest
      · simp only [Except.ok.injEq, Prod.mk.injEq] at hrest
        obtain ⟨rfl, rfl⟩ := hrest
        exact ⟨ps₁, fs, M, B, hc₁, hst₁, hq.kept.larges,
          fun h => ⟨hacct₁ h, Or.inl hq.kept.alloced⟩, fun h => h.perm hst₁ hp,
          Or.inl ⟨rfl, hp, rfl, fun _ _ => rfl⟩⟩
      · next hroom =>
        obtain ⟨⟨s₂, np⟩, hget, hrest⟩ := bind_ok_iff.mp hrest
        have hold : ∀ a ∈ s.base :: ps, a ∈ s.base :: ps₁ := by
          intro a ha
          simpa [hp.mem_iff] using ha
        cases np with
        | none =>
          obtain ⟨hgain, hcase⟩ := getMempool_spec env hc₁ hget
          have hst₂ : Steady ps B s s₂ := hst₁.trans hgain.steady hold (fun _ _ _ hx => hx)
          rcases hcase with ⟨-, hc₂, hal, hle⟩ | ⟨a, h, -⟩
          · simp only [Except.ok.injEq, Prod.mk.injEq] at hrest
            obtain ⟨rfl, rfl⟩ := hrest
            exact ⟨ps₁, fs.tail, M, B, hc₂, hst₂, hgain.larges.trans hq.kept.larges,
              fun h => ⟨(hacct₁ h).gained (fun x hx => hx) hgain hal hle,
                Or.inl (hal.trans hq.kept.alloced)⟩, fun h => h.perm hst₂ hp,
              Or.inl ⟨rfl, hp, rfl, fun _ _ => rfl⟩⟩
          · cases h
        | some a =>
          have hs₁ : size ≤ s₁.config.pool_size-mempoolSize := by rwa [hcfg₁]
          obtain ⟨o, B', rfl, hc', hst', hlg', hacct', hreg', hhand⟩ :=
            further_spec env h16 fuel hc₁ hs₁ hget hrest
          refine ⟨a :: ps₁, fs.tail, a :: M, B', hc', hst₁.trans hst' hold (fun _ _ _ h => h),
            hlg'.trans hq.kept.larges, fun h => ?_, fun h => hreg' (h.perm hst₁ hp),
            Or.inr ⟨a, o, rfl, hhand.perm hq.kept.base hp⟩⟩
          have h₁ := hacct₁ h
          have hcap := h₁.cap
          have hsz₁ := hc₁.config.size.2
          have hhigh := hc₁.config.high
          rw [mempoolMaxTotal] at hhigh
          rw [Nat.mod_eq_of_lt (by omega), Nat.not_le] at hroom
          obtain ⟨h₂, htot⟩ := hacct' h₁ (by omega)
          refine ⟨h₂, Or.inr ?_⟩
          rw [htot, ← hcfg₁]
          omega
    · simp only [Except.ok.injEq, Prod.mk.injEq] at hrest
      obtain ⟨rfl, rfl⟩ := hrest
      have hlarges : s₁.larges = s.larges := by
        obtain ⟨s₂, ht₂, rfl⟩ := id hg
        exact ht₂.kept.larges
      refine ⟨ps₁, fs, M, _, hc₁, steady_of_granted hg, hlarges, fun h => ?_,
        fun h => h.perm (steady_of_granted hg) hp, Or.inr ⟨b, o, rfl, handed_of_granted hg hb hp⟩⟩
      have h' := h.granted hc hg hp hb
      have hst : Steady ps B s s₁ := steady_of_granted hg
      exact ⟨h', Or.inl (h.alloced_eq h' (by rw [hst.config]) hlarges hp.length_eq)⟩

end Loop

end CLearning.MempoolGrow
