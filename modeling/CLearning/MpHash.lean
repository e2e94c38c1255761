import CLearning.Machine
import Mathlib.Data.Int.Notation
import Mathlib.Logic.Function.Basic

/-!
# The hash table of the memory pool

`mphash` keeps a fixed array of nodes. Every node is either on the list of
free nodes or in one of the buckets, which are sorted by the bit-reversed hash.
Node pointers are indices into the array. The element type, the hash function
and the comparison are parameters, as in the source. A deletion and the release
of the table hand back the elements their `free` callback is applied to.
-/

set_option autoImplicit false

namespace CLearning.MpHash
open CLearning.Machine

def reversedByte : Array ℕ := #[
  0, 128, 64, 192, 32, 160, 96, 224, 16, 144, 80, 208, 48, 176, 112, 240,
  8, 136, 72, 200, 40, 168, 104, 232, 24, 152, 88, 216, 56, 184, 120, 248,
  4, 132, 68, 196, 36, 164, 100, 228, 20, 148, 84, 212, 52, 180, 116, 244,
  12, 140, 76, 204, 44, 172, 108, 236, 28, 156, 92, 220, 60, 188, 124, 252,
  2, 130, 66, 194, 34, 162, 98, 226, 18, 146, 82, 210, 50, 178, 114, 242,
  10, 138, 74, 202, 42, 170, 106, 234, 26, 154, 90, 218, 58, 186, 122, 250,
  6, 134, 70, 198, 38, 166, 102, 230, 22, 150, 86, 214, 54, 182, 118, 246,
  14, 142, 78, 206, 46, 174, 110, 238, 30, 158, 94, 222, 62, 190, 126, 254,
  1, 129, 65, 193, 33, 161, 97, 225, 17, 145, 81, 209, 49, 177, 113, 241,
  9, 137, 73, 201, 41, 169, 105, 233, 25, 153, 89, 217, 57, 185, 121, 249,
  5, 133, 69, 197, 37, 165, 101, 229, 21, 149, 85, 213, 53, 181, 117, 245,
  13, 141, 77, 205, 45, 173, 109, 237, 29, 157, 93, 221, 61, 189, 125, 253,
  3, 131, 67, 195, 35, 163, 99, 227, 19, 147, 83, 211, 51, 179, 115, 243,
  11, 139, 75, 203, 43, 171, 107, 235, 27, 155, 91, 219, 59, 187, 123, 251,
  7, 135, 71, 199, 39, 167, 103, 231, 23, 151, 87, 215, 55, 183, 119, 247,
  15, 143, 79, 207, 47, 175, 111, 239, 31, 159, 95, 223, 63, 191, 127, 255]

def reverse (key : ℕ) : ℕ :=
  (reversedByte.getD (key % 256) 0 <<< 24) ||| (reversedByte.getD (key / 2^8 % 256) 0 <<< 16) |||
    (reversedByte.getD (key / 2^16 % 256) 0 <<< 8) ||| reversedByte.getD (key / 2^24 % 256) 0

def isPowerOf2 (n : ℕ) : Bool := n ≠ 0 && n &&& (n-1) = 0

def mpHash (data : List UInt8) : ℕ :=
  data.foldl (fun hash b => (hash*0x01000193 % 2^32) ^^^ b.toNat) 0x811c9dc5

structure Entry (α : Type) where
  prev : Option ℕ
  next : Option ℕ
  data : Option α
  key : ℕ
  reversed : ℕ

/-- `mp_hash_table_t`; `free` says whether a free callback is set. -/
structure Table (α : Type) where
  num_buckets : ℕ
  num_elements : ℕ
  mask : ℕ
  table_buckets : ℕ → Option ℕ
  bucket_nodes : ℕ → Entry α
  free_buckets : Option ℕ
  hash : α → ℕ
  cmp : Option (α → α → ℤ)
  free : Bool

section Table

variable {α : Type}

/-- The rounding loop of `mp_hash_table_create` on a 32-bit `size`. -/
def roundUp (buckets_size : ℕ) : ℕ → ℕ → Run ℕ
  | 0, _ => .error .outOfFuel
  | fuel+1, size =>
    if size < buckets_size then roundUp buckets_size fuel (2*size % 2^32) else .ok size

def bucketsSize (buckets_size : ℕ) : Run ℕ :=
  if isPowerOf2 buckets_size then .ok buckets_size else roundUp buckets_size 33 1

def newEntry (num_buckets i : ℕ) : Entry α :=
  ⟨if 0 < i ∧ i < num_buckets then some (i-1) else none,
    if i+1 < num_buckets then some (i+1) else none, none, 0, 0⟩

/-- `calloc` answers the three allocations of the table. -/
def mpHashTableCreate (hash : α → ℕ) (cmp : Option (α → α → ℤ)) (free : Bool)
    (buckets_size : ℕ) (calloc : Fin 3 → Bool) : Run (Option (Table α)) :=
  if buckets_size = 0 then .ok none
  else do
    let size ← bucketsSize buckets_size
    if calloc 0 ∧ calloc 1 ∧ calloc 2 then
      .ok (some ⟨size, 0, size-1, fun _ => none, newEntry size, some 0, hash, cmp, free⟩)
    else .ok none

namespace Table

def setEntry (ht : Table α) (i : ℕ) (f : Entry α → Entry α) : Table α :=
  { ht with bucket_nodes := Function.update ht.bucket_nodes i (f (ht.bucket_nodes i)) }

def setPrev (ht : Table α) (i : ℕ) (v : Option ℕ) : Table α :=
  ht.setEntry i fun e => { e with prev := v }

def setNext (ht : Table α) (i : ℕ) (v : Option ℕ) : Table α :=
  ht.setEntry i fun e => { e with next := v }

def setPrev? (ht : Table α) (i : Option ℕ) (v : Option ℕ) : Table α :=
  match i with
  | some i => ht.setPrev i v
  | none => ht

def setHead (ht : Table α) (pos : ℕ) (v : Option ℕ) : Table α :=
  { ht with table_buckets := Function.update ht.table_buckets pos v }

/-- `ht->cmp && ht->cmp(a, b)`. -/
def differ (ht : Table α) (a : α) (b : Option α) : Bool :=
  match ht.cmp, b with
  | some cmp, some b => cmp a b ≠ 0
  | _, _ => false

def pos (ht : Table α) (key : ℕ) : Run ℕ :=
  if ht.mask = 0 then .error .divByZero else .ok (key % ht.mask)

end Table

def mpGetFreeEntry (ht : Table α) : Option (Table α × ℕ) :=
  ht.free_buckets.map fun entry =>
    let ht := { ht with free_buckets := (ht.bucket_nodes entry).next }
    let ht := ht.setPrev? ht.free_buckets none
    (ht.setEntry entry fun e => { e with data := none, prev := none, next := none, key := 0 },
      entry)

def mpPutFreeEntry (ht : Table α) (entry : ℕ) : Table α :=
  let next := ht.free_buckets
  let ht := ht.setEntry entry fun _ => ⟨none, next, none, 0, 0⟩
  let ht := ht.setPrev? next (some entry)
  { ht with free_buckets := some entry }

/-- The walk of `mp_list_insert`: `none` at an element equal to the new one,
otherwise the node to insert behind. -/
def insertAfter (ht : Table α) (data : α) (reversed : ℕ) :
    ℕ → Option ℕ → Option ℕ → Option (Option ℕ)
  | 0, _, last => some last
  | _+1, none, last => some last
  | fuel+1, some cur, last =>
    let e := ht.bucket_nodes cur
    if e.reversed > reversed then some last
    else if e.reversed = reversed then
      if ht.differ data e.data then insertAfter ht data reversed fuel e.next (some cur) else none
    else insertAfter ht data reversed fuel e.next (some cur)

def mpListInsert (ht : Table α) (pos entry : ℕ) (data : α) : Option (Table α) :=
  match ht.table_buckets pos with
  | none => some (ht.setHead pos (some entry))
  | some head =>
    (insertAfter ht data (ht.bucket_nodes entry).reversed (ht.num_buckets+1) (some head)
      none).map fun last =>
        match last with
        | some last =>
          let next := (ht.bucket_nodes last).next
          let ht := ht.setPrev entry (some last)
          let ht := match next with
            | some n => (ht.setPrev n (some entry)).setNext entry (some n)
            | none => ht
          ht.setNext last (some entry)
        | none =>
          let ht := ht.setNext entry (some head)
          let ht := ht.setPrev head (some entry)
          ht.setHead pos (some entry)

def mpListFind (ht : Table α) (data : α) (reversed : ℕ) : ℕ → Option ℕ → Option ℕ
  | 0, _ => none
  | _+1, none => none
  | fuel+1, some cur =>
    let e := ht.bucket_nodes cur
    if e.reversed > reversed then none
    else if e.reversed = reversed then
      if ht.differ data e.data then mpListFind ht data reversed fuel e.next else some cur
    else mpListFind ht data reversed fuel e.next

def mpListDelete (ht : Table α) (pos : ℕ) (data : α) (reversed : ℕ) : Option (Table α × ℕ) :=
  (mpListFind ht data reversed (ht.num_buckets+1) (ht.table_buckets pos)).map fun cur =>
    let e := ht.bucket_nodes cur
    let ht := match e.prev with
      | some p => ht.setNext p e.next
      | none => (ht.setHead pos e.next).setPrev? e.next none
    let ht := ht.setPrev? e.next e.prev
    (ht.setEntry cur fun e => { e with prev := none, next := none }, cur)

def mpHashTableInsert (ht : Table α) (data : α) : Run (Table α × ℤ) := do
  if ht.num_elements ≥ ht.num_buckets then return (ht, -1)
  let key := ht.hash data
  let pos ← ht.pos key
  match mpGetFreeEntry ht with
  | none => return (ht, -1)
  | some (ht, entry) =>
    let ht := ht.setEntry entry fun e =>
      { e with data := some data, key := key, reversed := reverse key }
    match mpListInsert ht pos entry data with
    | none => return (mpPutFreeEntry ht entry, -1)
    | some ht => return ({ ht with num_elements := ht.num_elements+1 }, 0)

/-- `mp_hash_table_delete`; the last component lists the elements passed to the
free callback. -/
def mpHashTableDelete (ht : Table α) (data : α) : Run (Table α × ℤ × List α) := do
  let key := ht.hash data
  let pos ← ht.pos key
  match mpListDelete ht pos data (reverse key) with
  | none => return (ht, -1, [])
  | some (ht, entry) =>
    let freed := if ht.free then (ht.bucket_nodes entry).data.toList else []
    let ht := mpPutFreeEntry ht entry
    return ({ ht with num_elements := usub 32 ht.num_elements 1 }, 0, freed)

def mpHashTableFind (ht : Table α) (data : α) : Run (Option α) := do
  let key := ht.hash data
  let pos ← ht.pos key
  match mpListFind ht data (reverse key) (ht.num_buckets+1) (ht.table_buckets pos) with
  | none => return none
  | some entry => return (ht.bucket_nodes entry).data

def bucketData (ht : Table α) : ℕ → Option ℕ → List α
  | 0, _ => []
  | _+1, none => []
  | fuel+1, some cur =>
    (ht.bucket_nodes cur).data.toList ++ bucketData ht fuel (ht.bucket_nodes cur).next

/-- All elements in the order in which `mp_hash_table_walk` and
`mp_hash_table_free` meet them. -/
def tableData (ht : Table α) : List α :=
  (List.range ht.num_buckets).flatMap fun i =>
    bucketData ht (ht.num_buckets+1) (ht.table_buckets i)

/-- The inner loop of `mp_hash_table_walk`: the context and the last result of
`walkfunc`, which stops the walk when it is not zero. -/
def walkBucket {γ : Type} (ht : Table α) (walkfunc : γ → Option α → γ × ℤ) :
    ℕ → Option ℕ → γ → γ × ℤ
  | 0, _, ctx => (ctx, 0)
  | _+1, none, ctx => (ctx, 0)
  | fuel+1, some entry, ctx =>
    let r := walkfunc ctx (ht.bucket_nodes entry).data
    if r.2 ≠ 0 then r else walkBucket ht walkfunc fuel (ht.bucket_nodes entry).next r.1

def walkBuckets {γ : Type} (ht : Table α) (walkfunc : γ → Option α → γ × ℤ) :
    List ℕ → γ → γ × ℤ
  | [], ctx => (ctx, 0)
  | i :: is, ctx =>
    let r := walkBucket ht walkfunc (ht.num_buckets+1) (ht.table_buckets i) ctx
    if r.2 ≠ 0 then r else walkBuckets ht walkfunc is r.1

def mpHashTableWalk {γ : Type} (ht : Table α) (walkfunc : γ → Option α → γ × ℤ) (ctx : γ) :
    γ × ℤ :=
  walkBuckets ht walkfunc (List.range ht.num_buckets) ctx

def mpHashTableFree (ht : Table α) : List α := if ht.free then tableData ht else []

end Table

end CLearning.MpHash
