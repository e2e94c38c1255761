import CLearning.MempoolPool
import CLearning.MpHash

/-!
# State of the memory pool

Addresses are numbers. The heap records the chunks `malloc` has handed out; a
pool chunk starts with the `mempool_t` and its blocks follow, a large chunk is
plain memory with a twelve-byte header. What the process around the pool
decides, the answers of `malloc` and `calloc`, the contents of fresh memory and
the verdicts of the judge, is the environment. It may change its mind from one
question to the next, but `malloc` never hands out memory that is in use, and what
it hands out is aligned for every type.
-/

set_option autoImplicit false

namespace CLearning.MempoolState
open CLearning.Machine CLearning.MempoolBytes CLearning.MempoolPool CLearning.MpHash

section Heap

inductive Kind where
  | pool
  | large
  | other
  deriving DecidableEq, Repr

structure Chunk where
  addr : ℕ
  size : ℕ
  kind : Kind
  deriving DecidableEq, Repr

def Chunk.Apart (c d : Chunk) : Prop :=
  c.addr+max c.size 1 ≤ d.addr ∨ d.addr+max d.size 1 ≤ c.addr

/-- What a fresh `mempool_t` chunk holds before its fields are set. -/
structure Junk where
  data : Bytes
  max_memsize : ℕ
  single_max : ℕ

structure Env where
  malloc : ℕ → List Chunk → ℕ → Option ℕ
  fresh : ∀ t live n a k, malloc t live n = some a →
    0 < a ∧ (a % 16 = 0 ∧ a+max n 1 ≤ 2^64) ∧ ∀ c ∈ live, Chunk.Apart ⟨a, n, k⟩ c
  calloc : ℕ → Fin 3 → Bool
  junk : ℕ → Junk
  outside : ℕ → Bytes
  judge : ℕ → ℕ → ℤ

/-- `tick` counts the questions the environment has answered. -/
structure Heap where
  live : List Chunk
  tick : ℕ

def Heap.malloc (h : Heap) (env : Env) (n : ℕ) (kind : Kind) : Heap × Option ℕ :=
  match env.malloc h.tick h.live n with
  | some a => (⟨⟨a, n, kind⟩ :: h.live, h.tick+1⟩, some a)
  | none => (⟨h.live, h.tick+1⟩, none)

def Heap.free (h : Heap) (a : ℕ) : Run Heap :=
  if ∃ c ∈ h.live, c.addr = a then .ok { h with live := h.live.eraseP (·.addr = a) }
  else .error .badFree

def Heap.freeAll (h : Heap) : List ℕ → Run Heap
  | [] => .ok h
  | a :: as => do
    let h ← h.free a
    h.freeAll as

end Heap

/-- `sizeof(mempool_large_t)`. -/
def largeSize : ℕ := 12

def load32 (m : Bytes) (a : ℕ) : ℕ := load16 m a+65536*load16 m (a+2)

def store32 (m : Bytes) (a v : ℕ) : Bytes := store16 (store16 m a v) (a+2) (v / 65536)

def largeFlag (m : Bytes) : ℕ := load32 m 0
def largeBytes (m : Bytes) : ℕ := load32 m 4
def largeUsed (m : Bytes) : ℕ := load32 m 8

structure Config where
  ht : Option (Table ℕ)
  largeht : Option (Table ℕ)
  max_memsize : ℕ
  max_freepool : ℕ
  single_max : ℕ
  max_searchpool : ℤ
  pool_size : ℕ
  failed_memsize : ℕ
  judge_alloc : Bool

/-- The counters of the base pool. `wrapped` is no field of the source: it
records whether a subtraction ever took one of the totals below zero. -/
structure Property where
  freepool : Option ℕ
  pooltail : Option ℕ
  total_alloced : ℕ
  total_leftsize : ℕ
  pfree_count : ℕ
  wrapped : Bool

namespace Property

def addAlloced (p : Property) (n : ℕ) : Property :=
  { p with total_alloced := (p.total_alloced+n) % 2^64 }

def subAlloced (p : Property) (n : ℕ) : Property :=
  { p with
    total_alloced := usub 64 p.total_alloced n
    wrapped := p.wrapped || decide (p.total_alloced < n) }

def addLeftsize (p : Property) (n : ℕ) : Property :=
  { p with total_leftsize := (p.total_leftsize+n) % 2^64 }

def subLeftsize (p : Property) (n : ℕ) : Property :=
  { p with
    total_leftsize := usub 64 p.total_leftsize n
    wrapped := p.wrapped || decide (p.total_leftsize < n) }

end Property

/-- The pools hang off the base pool; `larges` is the memory of the large chunks. -/
structure State where
  base : ℕ
  config : Config
  property : Property
  pools : ℕ → Pool
  larges : ℕ → Bytes
  heap : Heap

namespace State

def setPool (s : State) (a : ℕ) (p : Pool) : State :=
  { s with pools := Function.update s.pools a p }

def setNext (s : State) (a : ℕ) (v : Option ℕ) : State :=
  s.setPool a { s.pools a with next := v }

def setPrev (s : State) (a : ℕ) (v : Option ℕ) : State :=
  s.setPool a { s.pools a with prev := v }

def setNext? (s : State) (a : Option ℕ) (v : Option ℕ) : State :=
  match a with
  | some a => s.setNext a v
  | none => s

def setPrev? (s : State) (a : Option ℕ) (v : Option ℕ) : State :=
  match a with
  | some a => s.setPrev a v
  | none => s

def setFailed (s : State) (a n : ℕ) : State := s.setPool a { s.pools a with failed := n }

def setLarge (s : State) (a : ℕ) (m : Bytes) : State :=
  { s with larges := Function.update s.larges a m }

inductive Place where
  | pool (b off : ℕ)
  | large (b off : ℕ)

def locate (s : State) (a n : ℕ) : Option Place :=
  s.heap.live.findSome? fun c =>
    match c.kind with
    | .pool => if c.addr+mempoolSize ≤ a ∧ a+n ≤ c.addr+c.size then
        some (.pool c.addr (a-c.addr-mempoolSize)) else none
    | .large => if c.addr ≤ a ∧ a+n ≤ c.addr+c.size then some (.large c.addr (a-c.addr)) else none
    | .other => none

def load (s : State) (env : Env) (a : ℕ) : UInt8 :=
  match s.locate a 1 with
  | some (.pool b off) => (s.pools b).data off
  | some (.large b off) => s.larges b off
  | none => env.outside s.heap.tick a

def splice (m : Bytes) (off n : ℕ) (f : Bytes) : Bytes :=
  fun x => if off ≤ x ∧ x < off+n then f (x-off) else m x

def store (s : State) (a n : ℕ) (f : Bytes) : Run State :=
  match s.locate a n with
  | some (.pool b off) =>
    .ok (s.setPool b { s.pools b with data := splice (s.pools b).data off n f })
  | some (.large b off) => .ok (s.setLarge b (splice (s.larges b) off n f))
  | none => .error .wildAccess

/-- The pool whose memory holds the fifteen bytes of a block header at `a`, and
the place of the header in it. -/
def header (s : State) (a : ℕ) : Run (ℕ × ℕ) :=
  match s.locate a realdataSize with
  | some (.pool b off) => .ok (b, off)
  | _ => .error .wildAccess

end State

section Registry

def addrBytes (a : ℕ) : List UInt8 := (List.range 8).map fun i => UInt8.ofNat (a / 256^i)

def hashMemaddr (a : ℕ) : ℕ := mpHash (addrBytes a)

def hashMemcmp (a b : ℕ) : ℤ :=
  let result := usub 64 (a % 2^64) (b % 2^64)
  if result = 0 then 0 else if result < 2^63 then 1 else -1

def insertAddr (t : Option (Table ℕ)) (a : ℕ) : Run (Option (Table ℕ) × ℤ) :=
  match t with
  | none => .ok (none, -1)
  | some t =>
    if a = 0 then .ok (some t, -1)
    else do
      let r ← mpHashTableInsert t a
      .ok (some r.1, r.2)

def deleteAddr (t : Option (Table ℕ)) (a : ℕ) : Run (Option (Table ℕ) × List ℕ) :=
  match t with
  | none => .ok (none, [])
  | some t =>
    if a = 0 then .ok (some t, [])
    else do
      let r ← mpHashTableDelete t a
      .ok (some r.1, r.2.2)

def findAddr (t : Option (Table ℕ)) (a : ℕ) : Run (Option ℕ) :=
  match t with
  | none => .ok none
  | some t => if a = 0 then .ok none else mpHashTableFind t a

def tableAddrs (t : Option (Table ℕ)) : List ℕ :=
  match t with
  | none => []
  | some t => mpHashTableFree t

end Registry

end CLearning.MempoolState
