import CLearning.MempoolState

/-!
# The memory pool

The calls of `mempool.c` on a base pool with its linked pools, its parked pools
and its large chunks. A call takes the environment and yields a fault or its
result. The searches of `palloc` are bounded by fuel only; fuel running out is
a fault of its own. Percentages are compared in whole numbers, which agrees with
the comparison in `double` below 2^53.
-/

set_option autoImplicit false

namespace CLearning.Mempool
open CLearning.Machine CLearning.MempoolBytes CLearning.MempoolPool CLearning.MpHash
open CLearning.MempoolState

def mempoolMaxsize : ℕ := 65536
def mempoolDefaultPoolsize : ℕ := 4096
def mempoolMaxTotal : ℕ := 34359738368
def mempoolFreepoolMax : ℕ := 256
def mempoolFailedSkip : ℕ := 8
def mempoolReallocMaxchks : ℕ := 8
def mempoolInpoolSize : ℕ := 268435456
def mempoolInpoolAllocPercent : ℕ := 20
def mempoolAllocPercent : ℕ := 10
def mempoolLargeflag : ℕ := 0xffffffff

def memalign (size : ℕ) : ℕ := (size+7) % 2^32 / 8 * 8

def mempoolGetpagesize : ℕ := mempoolDefaultPoolsize

section Init

def rebuildTables (env : Env) (pool : ℕ) (config : Config) (heap : Heap) : Run (Config × Heap) := do
  let heap ← heap.freeAll (tableAddrs config.ht)
  let heap ← heap.freeAll (tableAddrs config.largeht)
  if config.pool_size = 0 then .error .divByZero
  else do
    let hash_size := (config.max_memsize / config.pool_size+1) % 2^32
    let ht ← mpHashTableCreate hashMemaddr (some hashMemcmp) false hash_size (env.calloc heap.tick)
    let r ← insertAddr ht pool
    let largeht ← mpHashTableCreate hashMemaddr (some hashMemcmp) true hash_size
      (env.calloc (heap.tick+1))
    .ok ({ config with ht := r.1, largeht := largeht }, { heap with tick := heap.tick+2 })

def mempoolSetMaxmem (env : Env) (pool : ℕ) (config : Config) (heap : Heap) (maxmem : ℕ) :
    Run (Config × Heap) :=
  let old_maxmem := config.max_memsize
  let max_memsize := min (maxmem % 2^56) mempoolMaxTotal
  let max_memsize := max max_memsize config.pool_size
  let single_max := if config.single_max > max_memsize then max_memsize else config.single_max
  let config := { config with max_memsize := max_memsize, single_max := single_max }
  if maxmem > 0 ∧ maxmem ≠ old_maxmem then rebuildTables env pool config heap
  else .ok (config, heap)

def mempoolSetSingleMax (config : Config) (single_max : ℕ) : Config :=
  { config with
    single_max := if single_max > config.max_memsize then config.max_memsize else single_max }

def initSize (size : ℕ) : ℕ :=
  let size := if size > 0 then memalign size else size
  if size = 0 ∨ size > mempoolMaxsize then mempoolGetpagesize else size

/-- One `mempool_t`: what only a base pool uses of it, and the pool. -/
structure Fresh where
  config : Config
  property : Property
  pool : Pool

def mempoolInitExtra (env : Env) (heap : Heap) (size maxmem single_max max_freepool : ℕ)
    (max_searchpool : ℤ) (judge_alloc : Bool) : Run (Heap × Option (ℕ × Fresh)) :=
  let size := initSize size
  let junk := env.junk heap.tick
  match heap.malloc env size .pool with
  | (heap, none) => .ok (heap, none)
  | (heap, some a) => do
    let config : Config :=
      { ht := none, largeht := none, max_memsize := junk.max_memsize % 2^56, max_freepool := 0,
        single_max := junk.single_max % 2^32, max_searchpool := 0, pool_size := size,
        failed_memsize := size / 4, judge_alloc := false }
    let (config, heap) ← mempoolSetMaxmem env a config heap maxmem
    let config := mempoolSetSingleMax config single_max
    let config := { config with
      max_freepool := min max_freepool mempoolFreepoolMax % 2^8
      max_searchpool := max_searchpool
      judge_alloc := judge_alloc }
    let pool := initMempool
      { freelist := fun _ => none, busylist := none, prev := none, next := none, pool_size := size,
        leftsize := 0, failed := 0, data := junk.data }
    let property : Property :=
      { freepool := none, pooltail := none, total_alloced := 0, total_leftsize := pool.leftsize,
        pfree_count := 0, wrapped := false }
    .ok (heap, some (a, ⟨config, property, pool⟩))

def Fresh.state (f : Fresh) (a : ℕ) (heap : Heap) : State :=
  { base := a, config := f.config, property := f.property, pools := fun _ => f.pool,
    larges := fun _ _ => 0, heap := heap }

end Init

def mempoolAlloced (s : State) : ℕ := (s.property.total_alloced+s.config.pool_size) % 2^64

section Alloc

def allocLarge (env : Env) (s : State) (size : ℕ) : Run (State × Option ℕ) :=
  let size := memalign ((size+largeSize) % 2^32)
  let junk := (env.junk s.heap.tick).data
  match s.heap.malloc env size .large with
  | (heap, none) => .ok ({ s with heap := heap }, none)
  | (heap, some large) => do
    let s := { s with heap := heap }
    let s := s.setLarge large (store32 (store32 (store32 junk 0 mempoolLargeflag) 4 size) 8 0)
    let r ← insertAddr s.config.largeht large
    let s := { s with config := { s.config with largeht := r.1 } }
    if r.2 = 0 then
      .ok ({ s with property := s.property.addAlloced size }, some (large+largeSize))
    else do
      let heap ← s.heap.free large
      .ok ({ s with heap := heap }, none)

def mempoolMove2tail (s : State) (pool : ℕ) : Run State :=
  if pool = s.base ∨ s.property.pooltail = some pool then .ok s
  else do
    let prev ← deref (s.pools pool).prev
    let s := s.setNext prev (s.pools pool).next
    let next ← deref (s.pools pool).next
    let s := s.setPrev next (s.pools pool).prev
    let s := (s.setNext pool none).setPrev pool none
    let tail ← deref s.property.pooltail
    let s := s.setNext tail (some pool)
    let s := s.setPrev pool s.property.pooltail
    .ok { s with property := { s.property with pooltail := some pool } }

/-- Where the walk over the linked pools stopped: the pool it stands at and the
block it found there. -/
structure Found where
  state : State
  tmp : Option ℕ
  realdata : Option ℕ

def countFailed (s : State) (a : ℕ) : State :=
  if (s.pools a).leftsize < s.config.failed_memsize then s.setFailed a ((s.pools a).failed+1)
  else s

def searchPools (size : ℕ) : ℕ → State → Option ℕ → ℕ → Run Found
  | 0, _, _, _ => .error .outOfFuel
  | _+1, s, none, _ => .ok ⟨s, none, none⟩
  | fuel+1, s, some tmp, search_failed =>
    let p := s.pools tmp
    let search_failed' := if s.config.max_searchpool > 0 then search_failed+1 else search_failed
    let stop := s.config.max_searchpool > 0 ∧ (search_failed' : ℤ) ≥ s.config.max_searchpool
    if p.leftsize < size ∨ mempoolGetFreelist p size = none then do
      let tmp2 := p.next
      let s ← if p.failed < mempoolFailedSkip then .ok (countFailed s tmp)
        else mempoolMove2tail s tmp
      if stop then .ok ⟨s, some tmp, none⟩ else searchPools size fuel s tmp2 search_failed'
    else
      match p.busylist, takeRealdata p size with
      | _, some (q, realdata) => .ok ⟨s.setPool tmp q, some tmp, some realdata⟩
      | none, none => .error .nullDeref
      | some _, none =>
        let s := if p.failed < mempoolFailedSkip then countFailed s tmp else s
        if stop then .ok ⟨s, some tmp, none⟩
        else searchPools size fuel s (s.pools tmp).next search_failed'

def allocRealdata (size : ℕ) : ℕ → State → Option ℕ → ℕ → Run (State × Option (ℕ × ℕ))
  | 0, _, _, _ => .error .outOfFuel
  | fuel+1, s, tmp, checked_times => do
    let r ← searchPools size (fuel+1) s tmp 0
    let s := r.state
    match r.tmp, r.realdata with
    | some tmp, some realdata =>
      let n := (s.pools tmp).rd realdata .size
      .ok ({ s with property := s.property.subLeftsize n }, some (tmp, realdata))
    | some tmp, none =>
      let left := s.property.total_leftsize
      let total := s.property.total_alloced+s.config.pool_size
      if checked_times < mempoolReallocMaxchks then
        if left*100 ≥ mempoolInpoolAllocPercent*total ∨ left ≥ mempoolInpoolSize then
          allocRealdata size fuel s (s.pools tmp).next 0
        else if left*100 ≥ mempoolAllocPercent*total then
          allocRealdata size fuel s (s.pools tmp).next (checked_times+1)
        else .ok (s, none)
      else .ok (s, none)
    | none, _ => .ok (s, none)

def takeMempool (env : Env) (s : State) : Run (State × Option ℕ) :=
  match s.property.freepool with
  | some newpool =>
    let s := { s with property := { s.property with freepool := (s.pools newpool).next } }
    let s := s.setPrev? s.property.freepool none
    .ok ({ s with property :=
      { s.property with pfree_count := usub 32 s.property.pfree_count 1 } }, some newpool)
  | none => do
    let r ← mempoolInitExtra env s.heap s.config.pool_size 0 0 0 s.config.max_searchpool false
    match r with
    | (heap, none) => .ok ({ s with heap := heap }, none)
    | (heap, some (a, fresh)) => .ok ({ s with heap := heap }.setPool a fresh.pool, some a)

def getMempool (env : Env) (s : State) : Run (State × Option ℕ) := do
  let (s, newpool) ← takeMempool env s
  match newpool with
  | none => .error .nullDeref
  | some newpool =>
    let r ← insertAddr s.config.ht newpool
    let s := { s with config := { s.config with ht := r.1 } }
    if r.2 ≠ 0 then do
      let heap ← s.heap.free newpool
      .ok ({ s with heap := heap }, none)
    else
      let property := s.property.addAlloced s.config.pool_size
      let property := property.addLeftsize (s.pools newpool).leftsize
      .ok ({ s with property := property }, some newpool)

def linkMempool (s : State) (newpool : ℕ) : State :=
  let s := s.setNext newpool (s.pools s.base).next
  let s := s.setPrev? (s.pools s.base).next (some newpool)
  let s := s.setPrev newpool (some s.base)
  let s := s.setNext s.base (some newpool)
  match s.property.pooltail with
  | none => { s with property := { s.property with pooltail := some newpool } }
  | some _ => s

def allocAgain (env : Env) (realsize : ℕ) : ℕ → State → Option ℕ → Run (State × Option (ℕ × ℕ))
  | 0, _, _ => .error .outOfFuel
  | fuel+1, s, tmp => do
    let (s, realdata) ← allocRealdata realsize (fuel+1) s tmp 0
    match realdata with
    | some r => .ok (s, some r)
    | none =>
      if (s.property.total_alloced+2*s.config.pool_size) % 2^64 ≥ s.config.max_memsize then
        .ok (s, none)
      else do
        let (s, newpool) ← getMempool env s
        match newpool with
        | none => .ok (s, none)
        | some newpool => allocAgain env realsize fuel (linkMempool s newpool) (some newpool)

def judged (env : Env) (s : State) (size : ℕ) : State × Bool :=
  if s.config.judge_alloc then
    ({ s with heap := { s.heap with tick := s.heap.tick+1 } }, env.judge s.heap.tick size = 1)
  else (s, true)

def payload (pool realdata : ℕ) : ℕ := pool+mempoolSize+realdata+realdataSize

def refuses (s : State) (size : ℕ) : Bool :=
  mempoolAlloced s ≥ s.config.max_memsize || size > s.config.single_max || size = 0

/-- The largest size served out of the pools. -/
def threshold (s : State) : ℕ := usub 64 (usub 64 s.config.pool_size mempoolSize) realdataSize

def pallocSmall (env : Env) (fuel : ℕ) (s : State) (size : ℕ) : Run (State × Option ℕ) := do
  let realsize := (size+realdataSize) % 2^32
  let tmp := if (s.pools s.base).leftsize > realsize then some s.base else (s.pools s.base).next
  let (s, r) ← allocAgain env realsize fuel s tmp
  match r with
  | none => .ok (s, none)
  | some (pool, realdata) =>
    let s := s.setPool pool ((s.pools pool).setRd realdata .used 0)
    .ok (s, some (payload pool realdata))

def palloc (env : Env) (fuel : ℕ) (s : State) (size : ℕ) : Run (State × Option ℕ) :=
  if refuses s size then .ok (s, none)
  else
    let (s, ok) := judged env s size
    if !ok then .ok (s, none)
    else if size > threshold s then allocLarge env s size
    else pallocSmall env fuel s size

def pcalloc (env : Env) (fuel : ℕ) (s : State) (size : ℕ) : Run (State × Option ℕ) := do
  let (s, data) ← palloc env fuel s size
  match data with
  | none => .ok (s, none)
  | some a => do
    let s ← s.store a size fun _ => 0
    .ok (s, some a)

end Alloc

section Free

def checkLargeInPool (s : State) (large : ℕ) : Run Bool := do
  let ptmp ← findAddr s.config.largeht large
  .ok (ptmp = some large)

/-- `__check_realdata_in_pool`, with the pool memory and the place in it where
the header at `realdata` lies. -/
def checkRealdataInPool (s : State) (realdata : ℕ) : Run (Option ℕ × ℕ × ℕ) := do
  let (b, off) ← s.header realdata
  let offset := (s.pools b).rd off .offset
  let realpool ← findAddr s.config.ht (usub 64 (usub 64 realdata offset) mempoolSize)
  .ok (realpool, b, off)

def freeLarge (s : State) (large : ℕ) : Run State := do
  let s := { s with property := s.property.subAlloced (largeBytes (s.larges large)) }
  let (largeht, freed) ← deleteAddr s.config.largeht large
  let heap ← s.heap.freeAll freed
  .ok { s with config := { s.config with largeht := largeht }, heap := heap }

def unlinkPool (s : State) (pool : ℕ) : State :=
  let s := if s.property.pooltail = some pool then
      let tail := (s.pools pool).prev
      { s with property :=
        { s.property with pooltail := if tail = some s.base then none else tail } }
    else s
  let s := s.setNext? (s.pools pool).prev (s.pools pool).next
  s.setPrev? (s.pools pool).next (s.pools pool).prev

def parkPool (s : State) (pool : ℕ) : State :=
  let s := s.setPool pool (initMempool (s.pools pool))
  let s := s.setNext pool s.property.freepool
  let s := s.setPrev? s.property.freepool (some pool)
  let s := { s with property := { s.property with freepool := some pool } }
  let s := s.setPrev pool none
  { s with property := { s.property with pfree_count := (s.property.pfree_count+1) % 2^32 } }

def mempoolInternalDestroy (s : State) (pool : ℕ) : Run State := do
  let s := unlinkPool s pool
  let (ht, _) ← deleteAddr s.config.ht pool
  let s := { s with config := { s.config with ht := ht } }
  let s := { s with property := s.property.subLeftsize (s.pools pool).leftsize }
  let s ← if s.property.pfree_count < s.config.max_freepool then .ok (parkPool s pool)
    else do
      let heap ← s.heap.free pool
      .ok { s with heap := heap }
  .ok { s with property := s.property.subAlloced s.config.pool_size }

def moveflag (s : State) (pool : ℕ) : ℕ → Option ℕ → ℕ → Run ℕ
  | 0, _, flag => .ok flag
  | fuel+1, pnext, flag => do
    let a ← deref pnext
    let q := s.pools a
    let p := s.pools pool
    if q.failed > mempoolFailedSkip / 2 ∧ p.leftsize > q.leftsize ∧ p.leftsize ≥ p.pool_size / 2 then
      if flag+1 > mempoolFailedSkip / 2 ∨ q.next = none then .ok (flag+1)
      else moveflag s pool fuel q.next (flag+1)
    else .ok flag

def mempoolMove2header (s : State) (pool : ℕ) : Run State :=
  if pool = s.base ∨ (s.pools s.base).next = some pool then .ok s
  else do
    let flag ← moveflag s pool (mempoolFailedSkip / 2+1) (s.pools s.base).next 0
    if flag > mempoolFailedSkip / 2 then do
      let s := if s.property.pooltail = some pool then
          { s with property := { s.property with pooltail := (s.pools pool).prev } }
        else s
      let pprev ← deref (s.pools pool).prev
      let pnext := (s.pools pool).next
      let s := s.setNext pprev pnext
      let s := s.setPrev? pnext (some pprev)
      let pnext ← deref (s.pools s.base).next
      let s := s.setNext pool (some pnext)
      let s := s.setPrev pnext (some pool)
      let s := s.setNext s.base (some pool)
      .ok (s.setPrev pool (some s.base))
    else .ok s

def pfreeRealdata (s : State) (pool realdata : ℕ) : Run State :=
  let s := s.setPool pool (unlinkBusy (s.pools pool) realdata)
  let n := (s.pools pool).rd realdata .size
  let s := { s with property := s.property.addLeftsize n }
  if (s.pools pool).busylist = none then
    if pool ≠ s.base then
      mempoolInternalDestroy { s with property := s.property.subLeftsize n } pool
    else .ok (s.setPool pool (initMempool (s.pools pool)))
  else if (s.pools pool).leftsize = 0 then
    mempoolMove2header (s.setPool pool (refillFreelist (s.pools pool) realdata)) pool
  else .ok (s.setPool pool (freeRealdata (s.pools pool) realdata))

def pfree (s : State) (data : ℕ) : Run (State × ℤ) :=
  if data = 0 then .ok (s, -1)
  else do
    let large := usub 64 data largeSize
    let isLarge ← checkLargeInPool s large
    if isLarge then do
      let s ← freeLarge s large
      .ok (s, 0)
    else do
      let r ← checkRealdataInPool s (usub 64 data realdataSize)
      match r with
      | (none, _, _) => .ok (s, -1)
      | (some realpool, b, realdata) =>
        if (s.pools b).status realdata = 0 then .ok (s, 0)
        else if realpool ≠ b then .error .wildAccess
        else do
          let s ← pfreeRealdata s realpool realdata
          .ok (s, 0)

def destroyFreepool (s : State) : ℕ → Heap → Option ℕ → Run Heap
  | 0, _, _ => .error .outOfFuel
  | _+1, heap, none => .ok heap
  | fuel+1, heap, some tmp =>
    if (s.pools tmp).busylist ≠ none then .error .assertFailed
    else do
      let heap ← heap.free tmp
      destroyFreepool s fuel heap (s.pools tmp).next

def destroyPools (s : State) : ℕ → Heap → Option ℕ → Run Heap
  | 0, _, _ => .error .outOfFuel
  | _+1, heap, none => .ok heap
  | fuel+1, heap, some p => do
    let heap ← heap.free p
    destroyPools s fuel heap (s.pools p).next

def mempoolDestroy (fuel : ℕ) (s : State) : Run Heap := do
  let heap ← s.heap.freeAll (tableAddrs s.config.largeht)
  let heap ← destroyFreepool s fuel heap s.property.freepool
  let heap ← heap.freeAll (tableAddrs s.config.ht)
  destroyPools s fuel heap (some s.base)

end Free

section Payload

def toInt32 (n : ℕ) : ℤ := if n % 2^32 < 2^31 then (n % 2^32 : ℕ) else (n % 2^32 : ℕ)-2^32

def pmemcpyBytes (env : Env) (s : State) (dest dsize used src n : ℕ) : Run (State × ℤ) :=
  let left := usub 32 dsize used
  if n > left then .ok (s, -1)
  else if (dest ≥ src ∧ dest ≤ src+n) ∨ (src ≥ dest ∧ src ≤ dest+dsize) then .ok (s, -2)
  else do
    let s' ← s.store (dest+used) n fun i => s.load env (src+i)
    .ok (s', toInt32 n)

def pmemcpyExtra (env : Env) (s : State) (dest src n : ℕ) : Run (State × Option ℕ) := do
  let large := usub 64 dest largeSize
  let isLarge ← checkLargeInPool s large
  if isLarge then do
    let used := largeUsed (s.larges large)
    let size := usub 32 (largeBytes (s.larges large)) largeSize
    let (s, cpylen) ← pmemcpyBytes env s dest size used src n
    let s := if cpylen > 0 then
        s.setLarge large (store32 (s.larges large) 8 (largeUsed (s.larges large)+cpylen.toNat))
      else s
    .ok (s, some dest)
  else do
    let r ← checkRealdataInPool s (usub 64 dest realdataSize)
    match r with
    | (none, _, _) => .ok (s, none)
    | (some _, pool, realdata) => do
      let used := (s.pools pool).rd realdata .used
      let size := usub 32 ((s.pools pool).rd realdata .size) realdataSize
      let (s, cpylen) ← pmemcpyBytes env s dest size used src n
      let s := if cpylen > 0 then
          s.setPool pool ((s.pools pool).setRd realdata .used
            ((s.pools pool).rd realdata .used+cpylen.toNat))
        else s
      .ok (s, some dest)

/-- The shared tail of `psprintf_extra`: what `vsnprintf` leaves of `text` in the
`leftlen` bytes at `dest`, and the growth of the append mark. -/
def vsnprintf (s : State) (dest leftlen : ℕ) (text : List UInt8) : Run State :=
  s.store dest (min (text.length+1) leftlen) fun i => if i+1 < leftlen then text.getD i 0 else 0

def psprintfExtra (s : State) (data : ℕ) (text : List UInt8) : Run (State × ℤ) :=
  if data = 0 then .ok (s, -1)
  else do
    let large := usub 64 data largeSize
    let isLarge ← checkLargeInPool s large
    if isLarge then
      let used := largeUsed (s.larges large)
      let leftlen := toInt32 (usub 32 (usub 32 (largeBytes (s.larges large)) largeSize) used)
      if leftlen > 0 then do
        let s ← vsnprintf s (data+used) leftlen.toNat text
        let s := if text.length > 0 then
            s.setLarge large (store32 (s.larges large) 8
              (largeUsed (s.larges large)+min text.length leftlen.toNat))
          else s
        .ok (s, text.length)
      else .ok (s, 0)
    else do
      let r ← checkRealdataInPool s (usub 64 data realdataSize)
      match r with
      | (none, _, _) => .ok (s, -1)
      | (some _, pool, realdata) =>
        let used := (s.pools pool).rd realdata .used
        let leftlen := toInt32 (usub 32 (usub 32 ((s.pools pool).rd realdata .size) realdataSize) used)
        if leftlen > 0 then do
          let s ← vsnprintf s (data+used) leftlen.toNat text
          let s := if text.length > 0 then
              s.setPool pool ((s.pools pool).setRd realdata .used
                ((s.pools pool).rd realdata .used+min text.length leftlen.toNat))
            else s
          .ok (s, text.length)
        else .ok (s, 0)

def pzeroExtra (s : State) (data : ℕ) : Run State := do
  let large := usub 64 data largeSize
  let isLarge ← checkLargeInPool s large
  if isLarge then .ok (s.setLarge large (store32 (s.larges large) 8 0))
  else do
    let r ← checkRealdataInPool s (usub 64 data realdataSize)
    match r with
    | (none, _, _) => .ok s
    | (some _, pool, realdata) =>
      .ok (s.setPool pool ((s.pools pool).setRd realdata .used 0))

def word (w v : ℕ) : Bytes := fun i => if i < w then UInt8.ofNat (v / 256^i) else 0

/-- The growth of a block the source takes for a large one: the new header is
written as the header of a large block whatever it is. -/
def reallocLarge (env : Env) (fuel : ℕ) (s : State) (addr newsize : ℕ) :
    Run (State × Option ℕ) := do
  let large := usub 64 addr largeSize
  if largeBytes (s.larges large) = newsize then .ok (s, none)
  else do
    let (s, newaddr) ← palloc env fuel s newsize
    match newaddr with
    | none => .ok (s, none)
    | some newaddr => do
      let size := usub 32 (largeBytes (s.larges large)) largeSize
      let (s, _) ← pmemcpyExtra env s newaddr addr (if size > newsize then newsize else size)
      let s ← s.store (newaddr-largeSize+8) 4 (word 4 (largeUsed (s.larges large)))
      let (s, _) ← pfree s addr
      .ok (s, some newaddr)

/-- The growth of a small block: the new header is written as the header of a
small block whatever it is. -/
def reallocSmall (env : Env) (fuel : ℕ) (s : State) (addr newsize pool realdata : ℕ) :
    Run (State × Option ℕ) := do
  if (s.pools pool).rd realdata .size ≥ newsize then .ok (s, none)
  else do
    let (s, newaddr) ← palloc env fuel s newsize
    match newaddr with
    | none => .ok (s, none)
    | some newaddr => do
      let size := usub 32 ((s.pools pool).rd realdata .size) realdataSize
      let (s, _) ← pmemcpyExtra env s newaddr addr (if size > newsize then newsize else size)
      let s ← s.store (newaddr-realdataSize+12) 2 (word 2 ((s.pools pool).rd realdata .used))
      let (s, _) ← pfree s addr
      .ok (s, some newaddr)

def prealloc (env : Env) (fuel : ℕ) (s : State) (addr newsize : ℕ) : Run (State × Option ℕ) :=
  if addr = 0 then palloc env fuel s newsize
  else do
    let isLarge ← checkLargeInPool s (usub 64 addr largeSize)
    if isLarge then reallocLarge env fuel s addr newsize
    else do
      let r ← checkRealdataInPool s (usub 64 addr realdataSize)
      match r with
      | (none, _, _) => .ok (s, none)
      | (some _, pool, realdata) => reallocSmall env fuel s addr newsize pool realdata

def pdatasize (s : State) (data : ℕ) : Run ℤ :=
  if data = 0 then .ok (-1)
  else do
    let large := usub 64 data largeSize
    let isLarge ← checkLargeInPool s large
    if isLarge then .ok (toInt32 (usub 32 (largeBytes (s.larges large)) largeSize))
    else do
      let r ← checkRealdataInPool s (usub 64 data realdataSize)
      match r with
      | (none, _, _) => .ok (-1)
      | (some _, pool, realdata) =>
        .ok (toInt32 (usub 32 ((s.pools pool).rd realdata .size) realdataSize))

end Payload

section Headers

def largeHeaderAt (s : State) (a : ℕ) : Run Bytes :=
  match s.locate a largeSize with
  | some (.pool b off) => .ok fun i => (s.pools b).data (off+i)
  | some (.large b off) => .ok fun i => s.larges b (off+i)
  | none => .error .wildAccess

def checkLargeHeader (s : State) (large : ℕ) : Run Bool := do
  let h ← largeHeaderAt s large
  .ok (largeFlag h = mempoolLargeflag && largeUsed h ≤ largeBytes h)

/-- Through the header of a small block `pmemcpy_extra` does the same with a pool
and without. -/
def pmemcpySmall (env : Env) (s : State) (dest src n pool realdata : ℕ) :
    Run (State × Option ℕ) := do
  let used := (s.pools pool).rd realdata .used
  let size := usub 32 ((s.pools pool).rd realdata .size) realdataSize
  let (s, cpylen) ← pmemcpyBytes env s dest size used src n
  let s := if cpylen > 0 then
      s.setPool pool ((s.pools pool).setRd realdata .used
        ((s.pools pool).rd realdata .used+cpylen.toNat))
    else s
  .ok (s, some dest)

def pmemcpy (env : Env) (s : State) (dest src n : ℕ) : Run (State × Option ℕ) := do
  let large := usub 64 dest largeSize
  let isLarge ← checkLargeHeader s large
  if isLarge then do
    let h ← largeHeaderAt s large
    let (s, cpylen) ← pmemcpyBytes env s dest (usub 32 (largeBytes h) largeSize) (largeUsed h) src n
    if cpylen > 0 then do
      let h ← largeHeaderAt s large
      let s ← s.store (large+8) 4 (word 4 (largeUsed h+cpylen.toNat))
      .ok (s, some dest)
    else .ok (s, some dest)
  else do
    let (pool, realdata) ← s.header (usub 64 dest realdataSize)
    pmemcpySmall env s dest src n pool realdata

def psprintfSmall (s : State) (data : ℕ) (text : List UInt8) (pool realdata : ℕ) :
    Run (State × ℤ) :=
  let used := (s.pools pool).rd realdata .used
  let leftlen := toInt32 (usub 32 (usub 32 ((s.pools pool).rd realdata .size) realdataSize) used)
  if leftlen > 0 then do
    let s ← vsnprintf s (data+used) leftlen.toNat text
    let s := if text.length > 0 then
        s.setPool pool ((s.pools pool).setRd realdata .used
          ((s.pools pool).rd realdata .used+min text.length leftlen.toNat))
      else s
    .ok (s, text.length)
  else .ok (s, 0)

def psprintf (s : State) (data : ℕ) (text : List UInt8) : Run (State × ℤ) :=
  if data = 0 then .ok (s, -1)
  else do
    let large := usub 64 data largeSize
    let isLarge ← checkLargeHeader s large
    if isLarge then do
      let h ← largeHeaderAt s large
      let leftlen := toInt32 (usub 32 (usub 32 (largeBytes h) largeSize) (largeUsed h))
      if leftlen > 0 then do
        let s ← vsnprintf s (data+largeUsed h) leftlen.toNat text
        if text.length > 0 then do
          let h ← largeHeaderAt s large
          let s ← s.store (large+8) 4 (word 4 (largeUsed h+min text.length leftlen.toNat))
          .ok (s, text.length)
        else .ok (s, text.length)
      else .ok (s, 0)
    else do
      let (pool, realdata) ← s.header (usub 64 data realdataSize)
      psprintfSmall s data text pool realdata

def pzero (s : State) (data : ℕ) : Run State := do
  let large := usub 64 data largeSize
  let isLarge ← checkLargeHeader s large
  if isLarge then s.store (large+8) 4 (word 4 0)
  else do
    let (pool, realdata) ← s.header (usub 64 data realdataSize)
    .ok (s.setPool pool ((s.pools pool).setRd realdata .used 0))

end Headers

end CLearning.Mempool
