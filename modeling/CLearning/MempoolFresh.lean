import CLearning.MempoolInit
import CLearning.MpHashSize

/-!
# New pools

What `mempool_init_extra` makes of the size it is asked for, and of the bytes
the chunk held before.
-/

set_option autoImplicit false

namespace CLearning.MempoolFresh
open CLearning.Machine CLearning.MempoolBytes CLearning.MempoolPool CLearning.MempoolHeap
open CLearning.MempoolServe CLearning.MpHash CLearning.MempoolState CLearning.Mempool
open CLearning.MempoolRegistry CLearning.MempoolGrow CLearning.MempoolAlloc CLearning.MempoolInit

section Process

def top (live : List Chunk) : ℕ := live.foldr (fun c t => max (c.addr+max c.size 1) t) 16

theorem le_top (live : List Chunk) :
    16 ≤ top live ∧ ∀ c ∈ live, c.addr+max c.size 1 ≤ top live := by
  induction live with
  | nil => exact ⟨Nat.le_refl _, by simp⟩
  | cons d live ih =>
    refine ⟨Nat.le_trans ih.1 (Nat.le_max_right _ _), fun c hc => ?_⟩
    rcases List.mem_cons.mp hc with rfl | hc
    · exact Nat.le_max_left _ _
    · exact Nat.le_trans (ih.2 c hc) (Nat.le_max_right _ _)

/-- A process whose `malloc` goes upwards and fails at the end of memory only;
`junk` is what fresh memory holds. -/
def upwards (junk : ℕ → Junk) : Env where
  malloc _ live n :=
    if (top live+15) / 16*16+max n 1 ≤ 2^64 then some ((top live+15) / 16*16) else none
  fresh t live n a k h := by
    have htop := le_top live
    rw [Option.ite_none_right_eq_some, Option.some_inj] at h
    obtain ⟨hend, rfl⟩ := h
    refine ⟨by omega, ⟨by omega, hend⟩, fun c hc => Or.inr ?_⟩
    have := htop.2 c hc
    show c.addr+max c.size 1 ≤ (top live+15) / 16*16
    omega
  calloc _ _ := true
  junk := junk
  outside _ _ := 0
  judge _ _ := 1

end Process

section Shape

variable {env : Env} {h h' : Heap} {c c' : Config} {size maxmem single_max max_freepool a : ℕ}
  {max_searchpool : ℤ} {judge_alloc : Bool} {f : Fresh}

def maxMemsize (maxmem pool_size : ℕ) : ℕ := max (min (maxmem % 2^56) mempoolMaxTotal) pool_size

def hashSize (maxmem pool_size : ℕ) : ℕ := (maxMemsize maxmem pool_size / pool_size+1) % 2^32

def Tables (env : Env) (tick n a : ℕ) (ht largeht : Option (Table ℕ)) : Prop :=
  ∃ t r, mpHashTableCreate hashMemaddr (some hashMemcmp) false n (env.calloc tick) = .ok t ∧
    insertAddr t a = .ok (ht, r) ∧
    mpHashTableCreate hashMemaddr (some hashMemcmp) true n (env.calloc (tick+1)) = .ok largeht

theorem mempoolSetMaxmem_shape (hht : c.ht = none) (hlt : c.largeht = none)
    (hrun : mempoolSetMaxmem env a c h maxmem = .ok (c', h')) :
    h'.live = h.live ∧
      (∃ k, c' = { c with
        ht := c'.ht
        largeht := c'.largeht
        max_memsize := maxMemsize maxmem c.pool_size
        single_max := k }) ∧
      if maxmem > 0 ∧ maxmem ≠ c.max_memsize then
        Tables env h.tick (hashSize maxmem c.pool_size) a c'.ht c'.largeht
      else c'.ht = none ∧ c'.largeht = none := by
  rw [mempoolSetMaxmem] at hrun
  split
  · next hnew =>
    rw [if_pos hnew, rebuildTables] at hrun
    simp only [hht, hlt, tableAddrs, Heap.freeAll, ok_bind] at hrun
    split at hrun
    · cases hrun
    obtain ⟨t, ht, hrun⟩ := bind_ok_iff.mp hrun
    obtain ⟨⟨t', r⟩, hins, hrun⟩ := bind_ok_iff.mp hrun
    obtain ⟨lt, hlt', hrun⟩ := bind_ok_iff.mp hrun
    rw [Except.ok.injEq, Prod.mk.injEq] at hrun
    obtain ⟨rfl, rfl⟩ := hrun
    exact ⟨rfl, ⟨_, rfl⟩, t, r, ht, hins, hlt'⟩
  · next hold =>
    rw [if_neg hold, Except.ok.injEq, Prod.mk.injEq] at hrun
    obtain ⟨rfl, rfl⟩ := hrun
    exact ⟨rfl, ⟨_, rfl⟩, hht, hlt⟩

def firstPool (pool_size : ℕ) (data : Bytes) : Pool :=
  initMempool
    { freelist := fun _ => none, busylist := none, prev := none, next := none,
      pool_size := pool_size, leftsize := 0, failed := 0, data := data }

def firstConfig (size maxmem single_max max_freepool : ℕ) (max_searchpool : ℤ) (judge_alloc : Bool)
    (ht largeht : Option (Table ℕ)) : Config :=
  { ht := ht, largeht := largeht, max_memsize := maxMemsize maxmem (initSize size),
    max_freepool := min max_freepool mempoolFreepoolMax % 2^8,
    single_max := if single_max > maxMemsize maxmem (initSize size) then
      maxMemsize maxmem (initSize size) else single_max,
    max_searchpool := max_searchpool, pool_size := initSize size,
    failed_memsize := initSize size / 4, judge_alloc := judge_alloc }

theorem mempoolInitExtra_shape
    (hrun : mempoolInitExtra env h size maxmem single_max max_freepool max_searchpool judge_alloc =
      .ok (h', some (a, f))) :
    h.malloc env (initSize size) .pool =
        (⟨⟨a, initSize size, .pool⟩ :: h.live, h.tick+1⟩, some a) ∧
      h'.live = ⟨a, initSize size, .pool⟩ :: h.live ∧ a % 16 = 0 ∧ AddrOk a ∧
      f.pool = firstPool (initSize size) (env.junk h.tick).data ∧
      f.property = ⟨none, none, 0, f.pool.leftsize, 0, false⟩ ∧
      ∃ ht largeht, f.config =
          firstConfig size maxmem single_max max_freepool max_searchpool judge_alloc ht largeht ∧
        if maxmem > 0 ∧ maxmem ≠ (env.junk h.tick).max_memsize % 2^56 then
          Tables env (h.tick+1) (hashSize maxmem (initSize size)) a ht largeht
        else ht = none ∧ largeht = none := by
  rw [mempoolInitExtra] at hrun
  rcases malloc_spec env h (initSize size) .pool with hm | ⟨a', hm, h0, hal, -⟩
  · simp [hm] at hrun
  simp only [hm] at hrun
  obtain ⟨⟨c', h''⟩, hset, hrun⟩ := bind_ok_iff.mp hrun
  rw [Except.ok.injEq, Prod.mk.injEq, Option.some_inj, Prod.mk.injEq] at hrun
  obtain ⟨rfl, rfl, rfl⟩ := hrun
  obtain ⟨hlive, ⟨k, hc⟩, htab⟩ := mempoolSetMaxmem_shape rfl rfl hset
  refine ⟨hm, hlive, hal.1, ⟨h0, by omega⟩, rfl, rfl, c'.ht, c'.largeht, ?_, htab⟩
  rw [hc]
  rfl

end Shape

section Opened

variable {env : Env} {size maxmem single_max max_freepool : ℕ} {s : State}

def opened (env : Env) (size maxmem single_max max_freepool : ℕ) : Run State := do
  let r ← mempoolInitExtra env ⟨[], 0⟩ size maxmem single_max max_freepool (-1) false
  match r with
  | (heap, some (a, f)) => .ok (f.state a heap)
  | (_, none) => .error .nullDeref

theorem opened_start (h : opened env size maxmem single_max max_freepool = .ok s) :
    Start env s ∧ s.config.pool_size = initSize size := by
  obtain ⟨⟨heap, r⟩, hrun, h⟩ := bind_ok_iff.mp h
  cases r with
  | none => cases h
  | some r =>
    obtain ⟨a, f⟩ := r
    rw [Except.ok.injEq] at h
    obtain ⟨-, -, -, -, -, -, ht, lt, hc, -⟩ := mempoolInitExtra_shape hrun
    have hclean : Clean ⟨[], 0⟩ := ⟨List.Pairwise.nil, by simp, by simp⟩
    refine ⟨⟨⟨[], 0⟩, heap, size, maxmem, single_max, max_freepool, -1, false, a, f, hclean, hrun,
      h.symm⟩, ?_⟩
    rw [← h]
    show f.config.pool_size = _
    rw [hc]
    rfl

end Opened

section Sizes

theorem init_ok (h : Heap) (size : ℕ) (hm : ∃ h' a, h.malloc (upwards fun _ => ⟨fun _ => 0, 0, 0⟩)
      (initSize size) .pool = (h', some a)) : ∃ h' a f,
    mempoolInitExtra (upwards fun _ => ⟨fun _ => 0, 0, 0⟩) h size 0 0 0 (-1) false =
      .ok (h', some (a, f)) := by
  obtain ⟨h', a, hm⟩ := hm
  rw [mempoolInitExtra]
  simp only [hm]
  exact ⟨_, _, _, rfl⟩

/-- The pool has room for its own header and for every request it is meant for. -/
structure Usable (h : Heap) (a : ℕ) (f : Fresh) : Prop where
  chunk : ∃ c ∈ h.live, c.addr = a ∧ c.size = f.config.pool_size ∧ mempoolSize+realdataSize ≤ c.size
  block : f.pool.rd 0 .size+mempoolSize = f.config.pool_size
  limit : threshold (f.state a h)+mempoolSize+realdataSize = f.config.pool_size
  fits : ∀ req, 0 < req → req ≤ threshold (f.state a h) →
    ∃ q o, takeRealdata f.pool (req+realdataSize) = some (q, o) ∧ req+realdataSize ≤ q.rd o .size

theorem initSize_room {size : ℕ} (hs : size < 2^32) :
    mempoolSize+realdataSize < initSize size ↔ size = 0 ∨ 200 < size := by
  unfold initSize mempoolMaxsize mempoolGetpagesize mempoolDefaultPoolsize memalign mempoolSize
    realdataSize
  grind

theorem initSize_mod (size : ℕ) : initSize size % 8 = 0 := by
  unfold initSize mempoolMaxsize mempoolGetpagesize mempoolDefaultPoolsize memalign
  grind

/-- Requests of 1 to 200 bytes give pools without room; all others are usable. -/
theorem size_usable (env : Env) (h h' : Heap) (size maxmem single_max max_freepool a : ℕ)
    (max_searchpool : ℤ) (judge_alloc : Bool) (f : Fresh) (hs : size < 2^32)
    (hrun : mempoolInitExtra env h size maxmem single_max max_freepool max_searchpool judge_alloc =
      .ok (h', some (a, f))) :
    Usable h' a f ↔ size = 0 ∨ 200 < size := by
  obtain ⟨-, hlive, -, -, hp, -, ht, lt, hc, -⟩ := mempoolInitExtra_shape hrun
  have hle := initSize_le size
  have h8 := initSize_mod size
  have hsz : f.config.pool_size = initSize size := by rw [hc, firstConfig]
  rw [← initSize_room hs]
  generalize initSize size = n at *
  constructor
  · intro hu
    obtain ⟨x, -, -, hxs, hroom⟩ := hu.chunk
    rw [hxs, hsz] at hroom
    simp only [mempoolSize, realdataSize] at *
    omega
  · intro hroom
    have hok : SizeOk n := ⟨hroom, hle⟩
    obtain ⟨hinv, hbusy, -, -, -, -, hsame⟩ := initMempool_spec (p :=
      { freelist := fun _ => none, busylist := none, prev := none, next := none, pool_size := n,
        leftsize := 0, failed := 0, data := (env.junk h.tick).data }) hok
    rw [show initMempool _ = firstPool n (env.junk h.tick).data from rfl, ← hp] at hinv hbusy hsame
    obtain ⟨-, -, h4, -, h0, hleft⟩ := heapInv_idle hinv hbusy
    have hpn : f.pool.pool_size = n := by rw [hsame]
    rw [hpn] at h0 hleft
    simp only [mempoolSize, realdataSize] at hroom
    have hlim : threshold (f.state a h') = n-207 := by
      have hcp : (f.state a h').config.pool_size = n := hsz
      rw [threshold, hcp, mempoolSize, realdataSize, usub_of_le (show 192 ≤ n by omega) (by omega),
        usub_of_le (by omega) (by omega)]
      omega
    have hhead : f.pool.freelist 4 = some 0 := by
      have := hinv.lists.head_eq (.free 4)
      rw [h4] at this
      exact this
    refine ⟨⟨_, hlive ▸ List.mem_cons_self, rfl, hsz.symm, ?_⟩, ?_, ?_, fun req hreq hle' => ?_⟩
    · simp only [mempoolSize, realdataSize]
      omega
    · rw [h0, hsz, mempoolSize]
      omega
    · rw [hlim, hsz, mempoolSize, realdataSize]
      omega
    · rw [hlim] at hle'
      have htake := @takeRealdata_idle _ (req+realdataSize) hbusy hhead
      obtain ⟨T₁, T₂, T₂', L', -, hserved, -⟩ := takeRealdata_spec hinv
        (by rw [realdataSize]; omega) (by rw [hleft, realdataSize, mempoolSize]; omega) htake
      exact ⟨_, 0, htake, hserved.fits⟩

/-- A request for one byte leaves a chunk of eight. -/
theorem size_unusable :
    ¬∀ (env : Env) (h h' : Heap) (size maxmem single_max max_freepool a : ℕ) (max_searchpool : ℤ)
        (judge_alloc : Bool) (f : Fresh), size < 2^32 →
      mempoolInitExtra env h size maxmem single_max max_freepool max_searchpool judge_alloc =
        .ok (h', some (a, f)) → Usable h' a f := by
  intro hall
  obtain ⟨h', a, f, hrun⟩ := init_ok ⟨[], 0⟩ 1 ⟨_, _, rfl⟩
  obtain ⟨x, -, -, hxs, hroom⟩ :=
    (hall _ _ h' 1 0 0 0 a (-1) false f (by decide) hrun).chunk
  obtain ⟨-, -, -, -, -, -, ht, lt, hc, -⟩ := mempoolInitExtra_shape hrun
  have hsize : (firstConfig 1 0 0 0 (-1) false ht lt).pool_size = initSize 1 := rfl
  rw [hxs, hc, hsize] at hroom
  exact absurd hroom (by decide)

theorem size_usable_page : ∃ h' a f,
    mempoolInitExtra (upwards fun _ => ⟨fun _ => 0, 0, 0⟩) ⟨[], 0⟩ 0 0 0 0 (-1) false =
      .ok (h', some (a, f)) ∧ Usable h' a f := by
  obtain ⟨h', a, f, hrun⟩ := init_ok ⟨[], 0⟩ 0 ⟨_, _, rfl⟩
  exact ⟨h', a, f, hrun, (size_usable _ _ h' 0 0 0 0 a (-1) false f (by decide) hrun).mpr
    (Or.inl rfl)⟩

end Sizes

section Leftovers

variable {env : Env} {tick n a : ℕ} {ht largeht : Option (Table ℕ)}

/-- Two new pools that differ in bytes nobody has written yet only. -/
structure Alike (f g : Fresh) : Prop where
  config : g.config = f.config
  property : g.property = f.property
  pool : g.pool = { f.pool with data := g.pool.data }
  header : ∀ x < 15, x ≠ 12 → x ≠ 13 → g.pool.data x = f.pool.data x

def Equipped (a : ℕ) (f : Fresh) : Prop :=
  f.config.ht ≠ none ∧ f.config.largeht ≠ none ∧ findAddr f.config.ht a = .ok (some a)

def Callocs (env : Env) (tick : ℕ) : Prop :=
  ∀ i, env.calloc tick i = true ∧ env.calloc (tick+1) i = true

theorem firstPool_header (n : ℕ) (d e : Bytes) :
    ∀ x < 15, x ≠ 12 → x ≠ 13 → (firstPool n e).data x = (firstPool n d).data x := by
  intro x hx h12 h13
  have hcases : x = 0 ∨ x = 1 ∨ x = 2 ∨ x = 3 ∨ x = 4 ∨ x = 5 ∨ x = 6 ∨ x = 7 ∨ x = 8 ∨ x = 9 ∨
      x = 10 ∨ x = 11 ∨ x = 14 := by omega
  rcases hcases with rfl | rfl | rfl | rfl | rfl | rfl | rfl | rfl | rfl | rfl | rfl | rfl | rfl <;>
    simp [firstPool, initMempool, Pool.setRd, MempoolBytes.set, store16, Field.pos, Pool.setStatus,
      MempoolBytes.setStatus, store8]

theorem pool_eq {p q : Pool} (h1 : q.freelist = p.freelist) (h2 : q.busylist = p.busylist)
    (h3 : q.prev = p.prev) (h4 : q.next = p.next) (h5 : q.pool_size = p.pool_size)
    (h6 : q.leftsize = p.leftsize) (h7 : q.failed = p.failed) : q = { p with data := q.data } := by
  cases q
  cases p
  simp_all

theorem initMempool_fields (p : Pool) :
    (initMempool p).freelist = (fun i => if i = 4 then some 0 else none) ∧
      (initMempool p).busylist = none ∧ (initMempool p).prev = p.prev ∧
      (initMempool p).next = p.next ∧ (initMempool p).pool_size = p.pool_size ∧
      (initMempool p).leftsize = (initMempool p).rd 0 .size ∧ (initMempool p).failed = 0 :=
  ⟨rfl, rfl, rfl, rfl, rfl, rfl, rfl⟩

theorem firstPool_alike (n : ℕ) (d e : Bytes) :
    firstPool n e = { firstPool n d with data := (firstPool n e).data } := by
  have h2 := firstPool_header n d e 2 (by decide) (by decide) (by decide)
  have h3 := firstPool_header n d e 3 (by decide) (by decide) (by decide)
  have hsize : (firstPool n e).rd 0 .size = (firstPool n d).rd 0 .size := by
    rw [Pool.rd, Pool.rd, MempoolBytes.get, MempoolBytes.get, load16, load16]
    simp only [Field.pos, Nat.zero_add, Nat.reduceAdd, h2, h3]
  obtain ⟨d1, d2, d3, d4, d5, d6, d7⟩ := initMempool_fields
    { freelist := fun _ => none, busylist := none, prev := none, next := none, pool_size := n,
      leftsize := 0, failed := 0, data := d }
  obtain ⟨e1, e2, e3, e4, e5, e6, e7⟩ := initMempool_fields
    { freelist := fun _ => none, busylist := none, prev := none, next := none, pool_size := n,
      leftsize := 0, failed := 0, data := e }
  exact pool_eq (e1.trans d1.symm) (e2.trans d2.symm) (e3.trans d3.symm) (e4.trans d4.symm)
    (e5.trans d5.symm) ((e6.trans hsize).trans d6.symm) (e7.trans d7.symm)

theorem created_iff {free : Bool} {calloc : Fin 3 → Bool} {t : Option (Table ℕ)} (hn : n ≠ 0)
    (hrun : mpHashTableCreate hashMemaddr (some hashMemcmp) free n calloc = .ok t) :
    t ≠ none ↔ ∀ i, calloc i = true := by
  rw [mpHashTableCreate, if_neg hn] at hrun
  obtain ⟨m, -, hrun⟩ := bind_ok_iff.mp hrun
  have hall : (∀ i, calloc i = true) ↔ calloc 0 ∧ calloc 1 ∧ calloc 2 := by
    simp [Fin.forall_fin_succ]
  rw [hall]
  split at hrun
  · next hc =>
    rw [Except.ok.injEq] at hrun
    exact ⟨fun _ => hc, fun _ => by simp [← hrun]⟩
  · next hc =>
    rw [Except.ok.injEq] at hrun
    exact ⟨fun h => absurd hrun.symm h, fun h => absurd h hc⟩

theorem not_insert_one {free : Bool} {calloc : Fin 3 → Bool} {t : Table ℕ}
    (hrun : mpHashTableCreate hashMemaddr (some hashMemcmp) free 1 calloc = .ok (some t))
    (ha : AddrOk a) : insertAddr (some t) a = .error .divByZero := by
  have hone : mpHashTableCreate hashMemaddr (some hashMemcmp) free 1 calloc =
      if calloc 0 ∧ calloc 1 ∧ calloc 2 then
        .ok (some (MpHashRep.emptyTable hashMemaddr (some hashMemcmp) free 1)) else .ok none := rfl
  rw [hone] at hrun
  split at hrun
  · rw [Except.ok.injEq, Option.some_inj] at hrun
    subst hrun
    rw [insertAddr, if_neg (Nat.ne_of_gt ha.1)]
    rfl
  · cases hrun

/-- Registries that were made hold the pool. -/
theorem tables_equipped (htab : Tables env tick n a ht largeht) (ha : AddrOk a) (hn : n < 2^32) :
    (ht ≠ none ∧ largeht ≠ none ∧ findAddr ht a = .ok (some a)) ↔ n ≠ 0 ∧ Callocs env tick := by
  obtain ⟨t, r, hct, hins, hcl⟩ := htab
  by_cases hn0 : n = 0
  · subst hn0
    have htn : mpHashTableCreate hashMemaddr (some hashMemcmp) false 0 (env.calloc tick) = .ok none :=
      rfl
    rw [htn, Except.ok.injEq] at hct
    subst hct
    have hnone : insertAddr none a = .ok (none, -1) := rfl
    rw [hnone, Except.ok.injEq, Prod.mk.injEq] at hins
    exact ⟨fun h => absurd hins.1.symm h.1, fun h => absurd rfl h.1⟩
  have hb := created_iff hn0 hct
  have hl := created_iff hn0 hcl
  have hcallocs : Callocs env tick ↔ t ≠ none ∧ largeht ≠ none := by
    rw [hb, hl]
    exact ⟨fun h => ⟨fun i => (h i).1, fun i => (h i).2⟩, fun h i => ⟨h.1 i, h.2 i⟩⟩
  rw [hcallocs]
  cases t with
  | none =>
    have hnone : insertAddr none a = .ok (none, -1) := rfl
    rw [hnone, Except.ok.injEq, Prod.mk.injEq] at hins
    exact ⟨fun h => absurd hins.1.symm h.1, fun h => absurd rfl h.2.1⟩
  | some t =>
    have h31 : n ≤ 2^31 := by
      by_contra hbig
      rw [mpHashTableCreate, if_neg hn0, MpHashSize.bucketsSize_diverges (by omega) hn] at hct
      cases hct
    have h2 : 2 ≤ n := by
      by_contra hlt
      have hone : n = 1 := by omega
      subst hone
      have hfalse := not_insert_one hct ha
      rw [hins] at hfalse
      cases hfalse
    obtain ⟨t', r', hins', hnone, hreg⟩ := insertAddr_first (registers_created h2 h31 hct) ha
    rw [hins, Except.ok.injEq, Prod.mk.injEq] at hins'
    obtain ⟨rfl, rfl⟩ := hins'
    have hne : ht ≠ none := fun h => by simpa using hnone.mp h
    rw [if_neg hne] at hreg
    have hfind := findAddr_spec hreg ha.2
    rw [if_pos (List.mem_singleton_self a)] at hfind
    exact ⟨fun h => ⟨hn0, by simp, h.2.1⟩, fun h => ⟨hne, h.2.2, hfind⟩⟩

theorem tables_unique {ht' largeht' : Option (Table ℕ)} (h : Tables env tick n a ht largeht)
    (h' : Tables env tick n a ht' largeht') : ht' = ht ∧ largeht' = largeht := by
  obtain ⟨t, r, h1, h2, h3⟩ := h
  obtain ⟨t', r', h1', h2', h3'⟩ := h'
  rw [h1, Except.ok.injEq] at h1'
  subst h1'
  rw [h2, Except.ok.injEq, Prod.mk.injEq] at h2'
  rw [h3, Except.ok.injEq] at h3'
  exact ⟨h2'.1.symm, h3'.symm⟩

/-- The registries are made unless the limit that stood in the chunk is the new one. -/
theorem equipped_iff {size maxmem single_max max_freepool old : ℕ} {max_searchpool : ℤ}
    {judge_alloc : Bool} {f : Fresh} (hmax : 0 < maxmem) (ha : AddrOk a)
    (hc : f.config =
      firstConfig size maxmem single_max max_freepool max_searchpool judge_alloc ht largeht)
    (htab : if maxmem > 0 ∧ maxmem ≠ old then
        Tables env tick (hashSize maxmem (initSize size)) a ht largeht
      else ht = none ∧ largeht = none) :
    Equipped a f ↔ old ≠ maxmem ∧ hashSize maxmem (initSize size) ≠ 0 ∧ Callocs env tick := by
  have hlt : hashSize maxmem (initSize size) < 2^32 := Nat.mod_lt _ (by decide)
  rw [Equipped, hc]
  split at htab
  · next hne =>
    exact (tables_equipped htab ha hlt).trans ⟨fun h => ⟨Ne.symm hne.2, h⟩, fun h => h.2⟩
  · next he =>
    have hold : old = maxmem := by
      by_contra hne
      exact he ⟨hmax, Ne.symm hne⟩
    constructor
    · rintro ⟨h1, -⟩
      exact absurd htab.1 h1
    · rintro ⟨h1, -⟩
      exact absurd hold h1

theorem hashSize_bounds (maxmem : ℕ) (hn : 207 < n ∧ n ≤ 65536) :
    2 ≤ hashSize maxmem n ∧ hashSize maxmem n ≤ 2^31 := by
  have hlow : n ≤ maxMemsize maxmem n := Nat.le_max_right _ _
  have hhigh : maxMemsize maxmem n ≤ mempoolMaxTotal := by
    rw [maxMemsize, mempoolMaxTotal]
    omega
  have hdiv : 1 ≤ maxMemsize maxmem n / n ∧ maxMemsize maxmem n / n ≤ 2^30 := by
    refine ⟨(Nat.one_le_div_iff (by omega)).mpr hlow, Nat.div_le_of_le_mul ?_⟩
    rw [mempoolMaxTotal] at hhigh
    omega
  rw [hashSize, Nat.mod_eq_of_lt (by omega)]
  omega

theorem created_ok (free : Bool) (h2 : 2 ≤ n) (h31 : n ≤ 2^31) (calloc : Fin 3 → Bool) :
    ∃ t, mpHashTableCreate hashMemaddr (some hashMemcmp) free n calloc = .ok t := by
  rcases @MpHashRep.mpHashTableCreate_spec ℕ n hashMemaddr (some hashMemcmp) free calloc h2 h31 with
    ⟨hrun, -⟩ | ⟨m, -, -, hrun⟩
  · exact ⟨_, hrun⟩
  · exact ⟨_, hrun⟩

theorem mempoolSetMaxmem_returns (env : Env) (c : Config) (h : Heap) (maxmem : ℕ)
    (hn : 207 < c.pool_size ∧ c.pool_size ≤ 65536) (hht : c.ht = none) (hlt : c.largeht = none)
    (ha : AddrOk a) : ∃ r, mempoolSetMaxmem env a c h maxmem = .ok r := by
  obtain ⟨h2, h31⟩ := hashSize_bounds maxmem hn
  rw [mempoolSetMaxmem]
  split
  · obtain ⟨t, ht⟩ := created_ok false h2 h31 (env.calloc h.tick)
    obtain ⟨t', r, hins, -⟩ := insertAddr_first (registers_created h2 h31 ht) ha
    obtain ⟨lt, hlarge⟩ := created_ok true h2 h31 (env.calloc (h.tick+1))
    rw [hashSize, maxMemsize] at ht hlarge
    rw [rebuildTables]
    simp only [hht, hlt, tableAddrs, Heap.freeAll, ok_bind]
    rw [if_neg (by omega), ht, ok_bind, hins, ok_bind, hlarge]
    exact ⟨_, rfl⟩
  · exact ⟨_, rfl⟩

section Calls

variable {h : Heap} {size maxmem single_max max_freepool : ℕ} {max_searchpool : ℤ}
  {judge_alloc : Bool} {f : Fresh}

/-- The call returns the pool at `a`, and all that it stores lies in the chunk. -/
def Made (env : Env) (h : Heap) (size maxmem single_max max_freepool : ℕ) (max_searchpool : ℤ)
    (judge_alloc : Bool) (a : ℕ) (f : Fresh) : Prop :=
  (∃ h', mempoolInitExtra env h size maxmem single_max max_freepool max_searchpool judge_alloc =
    .ok (h', some (a, f))) ∧ mempoolSize+realdataSize ≤ f.config.pool_size

theorem made_room (hsize : size < 2^32)
    (hmade : Made env h size maxmem single_max max_freepool max_searchpool judge_alloc a f) :
    size = 0 ∨ 200 < size := by
  obtain ⟨⟨h', hrun⟩, hroom⟩ := hmade
  obtain ⟨-, -, -, -, -, -, ht, lt, hc, -⟩ := mempoolInitExtra_shape hrun
  have h8 := initSize_mod size
  have hsz : f.config.pool_size = initSize size := by rw [hc, firstConfig]
  rw [hsz] at hroom
  rw [← initSize_room hsize]
  simp only [mempoolSize, realdataSize] at *
  omega

theorem made_of_room (env : Env) (maxmem single_max max_freepool : ℕ) (max_searchpool : ℤ)
    (judge_alloc : Bool) (hsize : size < 2^32) (hroom : size = 0 ∨ 200 < size)
    (hm : (h.malloc env (initSize size) .pool).2 = some a) :
    ∃ f, Made env h size maxmem single_max max_freepool max_searchpool judge_alloc a f := by
  have h207 : 207 < initSize size := (initSize_room hsize).mpr hroom
  have hle := initSize_le size
  rcases malloc_spec env h (initSize size) .pool with hnone | ⟨a', hsome, h0, hal, -⟩
  · rw [hnone] at hm
    cases hm
  rw [hsome, Option.some_inj] at hm
  subst hm
  have haddr : AddrOk a' := ⟨h0, by omega⟩
  obtain ⟨r, hset⟩ := mempoolSetMaxmem_returns env
    { ht := none, largeht := none, max_memsize := (env.junk h.tick).max_memsize % 2^56
      max_freepool := 0, single_max := (env.junk h.tick).single_max % 2^32, max_searchpool := 0
      pool_size := initSize size, failed_memsize := initSize size / 4, judge_alloc := false }
    ⟨⟨a', initSize size, .pool⟩ :: h.live, h.tick+1⟩ maxmem ⟨h207, hle⟩ rfl rfl haddr
  have hrun : ∃ h' f, mempoolInitExtra env h size maxmem single_max max_freepool max_searchpool
      judge_alloc = .ok (h', some (a', f)) := by
    rw [mempoolInitExtra]
    simp only [hsome]
    rw [hset]
    exact ⟨_, _, rfl⟩
  obtain ⟨h', f, hrun⟩ := hrun
  obtain ⟨-, -, -, -, -, -, ht, lt, hc, -⟩ := mempoolInitExtra_shape hrun
  have hsz : f.config.pool_size = initSize size := by rw [hc, firstConfig]
  refine ⟨f, ⟨h', hrun⟩, ?_⟩
  rw [hsz, mempoolSize, realdataSize]
  exact Nat.le_of_lt h207

theorem made_equipped (hmax : 0 < maxmem)
    (hmade : Made env h size maxmem single_max max_freepool max_searchpool judge_alloc a f) :
    Equipped a f ↔ (env.junk h.tick).max_memsize % 2^56 ≠ maxmem ∧
      hashSize maxmem (initSize size) ≠ 0 ∧ Callocs env (h.tick+1) := by
  obtain ⟨⟨h', hrun⟩, -⟩ := hmade
  obtain ⟨-, -, -, ha, -, -, ht, lt, hc, htab⟩ := mempoolInitExtra_shape hrun
  exact equipped_iff hmax ha hc htab

end Calls

/-- Whatever two chunks `malloc` returns hold, both calls make the same pool with both
registries, exactly when neither held the new limit where `max_memsize` lies, `calloc`
answers and the pool has room for its own header. -/
theorem init_forgets (env : Env) (junk junk' : ℕ → Junk) (h : Heap)
    (size maxmem single_max max_freepool a : ℕ) (max_searchpool : ℤ) (judge_alloc : Bool)
    (hsize : size < 2^32) (hmax : 0 < maxmem)
    (hm : (h.malloc env (initSize size) .pool).2 = some a) :
    (∃ f₁ f₂,
        Made { env with junk := junk } h size maxmem single_max max_freepool max_searchpool
          judge_alloc a f₁ ∧
        Made { env with junk := junk' } h size maxmem single_max max_freepool max_searchpool
          judge_alloc a f₂ ∧
        Alike f₁ f₂ ∧ Equipped a f₁ ∧ Equipped a f₂) ↔
      ((junk h.tick).max_memsize % 2^56 ≠ maxmem ∧ (junk' h.tick).max_memsize % 2^56 ≠ maxmem) ∧
        Callocs env (h.tick+1) ∧ (size = 0 ∨ 200 < size) := by
  constructor
  · rintro ⟨f₁, f₂, hmade₁, hmade₂, -, he₁, he₂⟩
    obtain ⟨h1, -, hcalloc⟩ := (made_equipped hmax hmade₁).mp he₁
    obtain ⟨h2, -, -⟩ := (made_equipped hmax hmade₂).mp he₂
    exact ⟨⟨h1, h2⟩, hcalloc, made_room hsize hmade₁⟩
  · rintro ⟨⟨h1, h2⟩, hcalloc, hroom⟩
    obtain ⟨f₁, hmade₁⟩ := made_of_room { env with junk := junk } maxmem single_max
      max_freepool max_searchpool judge_alloc hsize hroom hm
    obtain ⟨f₂, hmade₂⟩ := made_of_room { env with junk := junk' } maxmem single_max
      max_freepool max_searchpool judge_alloc hsize hroom hm
    have hle := initSize_le size
    have hhash : hashSize maxmem (initSize size) ≠ 0 := by
      have := (hashSize_bounds maxmem ⟨(initSize_room hsize).mpr hroom, hle⟩).1
      omega
    have he₁ := (made_equipped hmax hmade₁).mpr ⟨h1, hhash, hcalloc⟩
    have he₂ := (made_equipped hmax hmade₂).mpr ⟨h2, hhash, hcalloc⟩
    refine ⟨f₁, f₂, hmade₁, hmade₂, ?_, he₁, he₂⟩
    obtain ⟨⟨h₁, hrun₁⟩, -⟩ := hmade₁
    obtain ⟨⟨h₂, hrun₂⟩, -⟩ := hmade₂
    obtain ⟨-, -, -, -, hp₁, hq₁, ht₁, lt₁, hc₁, htab₁⟩ := mempoolInitExtra_shape hrun₁
    obtain ⟨-, -, -, -, hp₂, hq₂, ht₂, lt₂, hc₂, htab₂⟩ := mempoolInitExtra_shape hrun₂
    rw [if_pos ⟨hmax, Ne.symm h1⟩] at htab₁
    rw [if_pos ⟨hmax, Ne.symm h2⟩] at htab₂
    obtain ⟨rfl, rfl⟩ := tables_unique htab₁ htab₂
    have hpool := firstPool_alike (initSize size) (junk h.tick).data (junk' h.tick).data
    have hhead := firstPool_header (initSize size) (junk h.tick).data (junk' h.tick).data
    have e₁ : f₁.pool = firstPool (initSize size) (junk h.tick).data := hp₁
    have e₂ : f₂.pool = firstPool (initSize size) (junk' h.tick).data := hp₂
    rw [← e₁, ← e₂] at hpool hhead
    have hleft : f₂.pool.leftsize = f₁.pool.leftsize := by rw [hpool]
    exact ⟨hc₂.trans hc₁.symm, by rw [hq₁, hq₂, hleft], hpool, hhead⟩

/-- A cleared chunk and one full of ones make the same pool. -/
theorem init_forgets_clear : ∃ f₁ f₂,
    Made { upwards fun _ => ⟨fun _ => 0, 0, 0⟩ with junk := fun _ => ⟨fun _ => 0, 0, 0⟩ } ⟨[], 0⟩
      4096 8192 0 0 (-1) false 16 f₁ ∧
    Made { upwards fun _ => ⟨fun _ => 0, 0, 0⟩ with
      junk := fun _ => ⟨fun _ => 255, 2^56-1, 2^32-1⟩ } ⟨[], 0⟩ 4096 8192 0 0 (-1) false 16 f₂ ∧
    Alike f₁ f₂ ∧ Equipped 16 f₁ ∧ Equipped 16 f₂ :=
  (init_forgets (upwards fun _ => ⟨fun _ => 0, 0, 0⟩) (fun _ => ⟨fun _ => 0, 0, 0⟩)
    (fun _ => ⟨fun _ => 255, 2^56-1, 2^32-1⟩) ⟨[], 0⟩ 4096 8192 0 0 16 (-1) false (by decide)
    (by decide) rfl).mpr ⟨⟨by decide, by decide⟩, fun _ => ⟨rfl, rfl⟩, Or.inr (by decide)⟩

theorem leftover_ok : ∃ h a f, mempoolInitExtra
    { upwards fun _ => ⟨fun _ => 0, 0, 0⟩ with junk := fun _ => ⟨fun _ => 0, 8192, 0⟩ } ⟨[], 0⟩ 4096
    8192 0 0 (-1) false = .ok (h, some (a, f)) :=
  ⟨_, _, _, rfl⟩

/-- A chunk left behind by a pool with the limit 8192: the new pool gets no registry. -/
theorem init_remembers :
    ¬∀ (env : Env) (junk junk' : ℕ → Junk) (h h₁ h₂ : Heap)
        (size maxmem single_max max_freepool a₁ a₂ : ℕ) (max_searchpool : ℤ) (judge_alloc : Bool)
        (f₁ f₂ : Fresh), 0 < maxmem → (∀ t i, env.calloc t i = true) →
      mempoolInitExtra { env with junk := junk } h size maxmem single_max max_freepool
        max_searchpool judge_alloc = .ok (h₁, some (a₁, f₁)) →
      mempoolInitExtra { env with junk := junk' } h size maxmem single_max max_freepool
        max_searchpool judge_alloc = .ok (h₂, some (a₂, f₂)) →
      a₂ = a₁ ∧ Alike f₁ f₂ ∧ Equipped a₁ f₁ ∧ Equipped a₂ f₂ := by
  intro hall
  obtain ⟨h₁, a, f, hrun⟩ := leftover_ok
  obtain ⟨-, -, he, -⟩ := hall (upwards fun _ => ⟨fun _ => 0, 0, 0⟩) (fun _ => ⟨fun _ => 0, 8192, 0⟩)
    (fun _ => ⟨fun _ => 0, 8192, 0⟩) ⟨[], 0⟩ h₁ h₁ 4096 8192 0 0 a a (-1) false f f (by decide)
    (fun _ _ => rfl) hrun hrun
  obtain ⟨-, -, -, -, -, -, ht, lt, hc, htab⟩ := mempoolInitExtra_shape hrun
  rw [if_neg (fun h => h.2 rfl)] at htab
  rw [Equipped, hc] at he
  exact he.1 htab.1

end Leftovers

end CLearning.MempoolFresh
