import CLearning.Machine
import Mathlib.Logic.Function.Basic
import Mathlib.Data.Int.Notation

/-!
# The dict

`dict.c` chains entries in an array of buckets. A chain is the list of its
entries, the first one first. The callbacks of a `dictType` are functions with
the private data already applied; callbacks that may be absent are options.
Allocation succeeds. Counts of entries stay below the number of addresses, so
`used` is a number without a width.
-/

set_option autoImplicit false

namespace CLearning.DictTable
open CLearning.Machine

section Source

variable {K V : Type}

structure DictType (K V : Type) where
  hashFunction : K → ℕ
  keyDup : Option (K → K)
  valDup : Option (V → V)
  keyCompare : Option (K → K → ℤ)

/-- `dictEntry`; the value is not set until `dictSetVal`. -/
structure DictEntry (K V : Type) where
  key : K
  val : Option V
  deriving DecidableEq

structure Dictht (K V : Type) where
  table : Option (ℕ → List (DictEntry K V))
  size : ℕ
  sizemask : ℕ
  used : ℕ

structure Dict (K V : Type) where
  type : DictType K V
  ht : Dictht K V

def dictOk : ℕ := 0
def dictErr : ℕ := 1
def dictHtInitialSize : ℕ := 4
def dictForceResizeRatio : ℕ := 5
def longMax : ℕ := 2^63-1

variable [DecidableEq K]

def DictType.compareKeys (t : DictType K V) (key1 key2 : K) : Bool :=
  match t.keyCompare with
  | some f => f key1 key2 ≠ 0
  | none => key1 = key2

def DictType.hashKey (t : DictType K V) (key : K) : ℕ := t.hashFunction key % 2^32

/-- `dictSetKey` and `dictSetVal`: what is stored for a key and a value. -/
def DictType.dupKey (t : DictType K V) (key : K) : K := t.keyDup.elim key fun f => f key
def DictType.dupVal (t : DictType K V) (val : V) : V := t.valDup.elim val fun f => f val

def dictReset : Dictht K V := ⟨none, 0, 0, 0⟩

def dictCreate (type : DictType K V) : Dict K V := ⟨type, dictReset⟩

def nextPowerFrom (size : ℕ) : ℕ → ℕ → Run ℕ
  | 0, _ => .error .outOfFuel
  | fuel+1, i => if i ≥ size then .ok i else nextPowerFrom size fuel (i*2 % 2^64)

def dictNextPower (size : ℕ) : Run ℕ :=
  if size ≥ longMax then .ok longMax else nextPowerFrom size 64 dictHtInitialSize

def dictExpand (d : Dict K V) (size : ℕ) : Run (Dict K V × ℕ) := do
  let realsize ← dictNextPower size
  if d.ht.used > size then .ok (d, dictErr)
  else
    let n : Dictht K V := ⟨some fun _ => [], realsize, realsize-1, 0⟩
    match d.ht.table with
    | none => .ok ({ d with ht := n }, dictOk)
    | some _ => .ok (d, dictOk)

def toInt (n : ℕ) : ℤ := if n % 2^32 < 2^31 then (n % 2^32 : ℕ) else (n % 2^32 : ℕ)-2^32

def dictResize (d : Dict K V) : Run (Dict K V × ℕ) :=
  let minimal := toInt d.ht.used
  let minimal := if minimal < dictHtInitialSize then dictHtInitialSize else minimal.toNat
  dictExpand d minimal

def dictExpandIfNeeded (d : Dict K V) : Run (Dict K V × ℕ) :=
  if d.ht.size = 0 then dictExpand d dictHtInitialSize
  else if d.ht.used ≥ d.ht.size ∧ d.ht.used / d.ht.size > dictForceResizeRatio then
    dictExpand d (d.ht.used*2)
  else .ok (d, dictOk)

def walk (t : DictType K V) (key : K) : List (DictEntry K V) → Option ℕ
  | [] => none
  | he :: rest => if t.compareKeys key he.key then some 0 else (walk t key rest).map (·+1)

/-- `_dictKeyIndex`: the `unsigned int` index is returned as an `int`. -/
def dictKeyIndex (d : Dict K V) (key : K) : Run (Dict K V × ℤ) := do
  let (d, ret) ← dictExpandIfNeeded d
  if ret = dictErr then .ok (d, -1)
  else do
    let idx := d.type.hashKey key &&& d.ht.sizemask
    let table ← deref d.ht.table
    match walk d.type key (table idx) with
    | some _ => .ok (d, -1)
    | none => .ok (d, toInt idx)

def setChain (d : Dict K V) (table : ℕ → List (DictEntry K V)) (idx : ℕ)
    (chain : List (DictEntry K V)) : Dict K V :=
  { d with ht := { d.ht with table := some (Function.update table idx chain) } }

/-- `dictAddRaw`: the bucket whose first entry is the new one. -/
def dictAddRaw (d : Dict K V) (key : K) : Run (Dict K V × Option ℕ) := do
  let (d, index) ← dictKeyIndex d key
  if index = -1 then .ok (d, none)
  else if index < 0 then .error .wildAccess
  else do
    let table ← deref d.ht.table
    let d := setChain d table index.toNat
      (⟨d.type.dupKey key, none⟩ :: table index.toNat)
    .ok ({ d with ht := { d.ht with used := d.ht.used+1 } }, some index.toNat)

/-- `dictSetVal` on the entry at a place of a bucket. -/
def dictSetVal (d : Dict K V) (idx place : ℕ) (val : V) : Run (Dict K V) := do
  let table ← deref d.ht.table
  .ok (setChain d table idx
    ((table idx).modify place fun e => { e with val := some (d.type.dupVal val) }))

def dictAdd (d : Dict K V) (key : K) (val : V) : Run (Dict K V × ℕ) := do
  let (d, entry) ← dictAddRaw d key
  match entry with
  | none => .ok (d, dictErr)
  | some idx => do
    let d ← dictSetVal d idx 0 val
    .ok (d, dictOk)

/-- `dictFind`: the bucket of the entry and its place there. -/
def dictFind (d : Dict K V) (key : K) : Run (Option (ℕ × ℕ)) :=
  if d.ht.size = 0 then .ok none
  else do
    let idx := d.type.hashKey key &&& d.ht.sizemask
    let table ← deref d.ht.table
    .ok ((walk d.type key (table idx)).map fun place => (idx, place))

def entryAt (d : Dict K V) (p : ℕ × ℕ) : Option (DictEntry K V) :=
  (d.ht.table.elim [] fun table => table p.1)[p.2]?

def dictFetchValue (d : Dict K V) (key : K) : Run (Option V) := do
  let he ← dictFind d key
  match he with
  | none => .ok none
  | some p => do
    let e ← deref (entryAt d p)
    .ok e.val

def dictReplace (d : Dict K V) (key : K) (val : V) : Run (Dict K V × ℕ) := do
  let (d, ret) ← dictAdd d key val
  if ret = dictOk then .ok (d, 1)
  else do
    let entry ← dictFind d key
    let p ← deref entry
    let d ← dictSetVal d p.1 p.2 val
    .ok (d, 0)

/-- The walk of `dictGenericDelete`: the chain without the entry, and the entry. -/
def unlink (t : DictType K V) (key : K) :
    List (DictEntry K V) → Option (List (DictEntry K V) × DictEntry K V)
  | [] => none
  | he :: rest =>
    if t.compareKeys key he.key then some (rest, he)
    else (unlink t key rest).map fun r => (he :: r.1, r.2)

/-- `dictGenericDelete`; the last component lists the entries whose key and value
go to the destructors. -/
def dictGenericDelete (d : Dict K V) (key : K) (nofree : Bool) :
    Run (Dict K V × ℕ × List (DictEntry K V)) :=
  if d.ht.size = 0 then .ok (d, dictErr, [])
  else do
    let idx := d.type.hashKey key &&& d.ht.sizemask
    let table ← deref d.ht.table
    match unlink d.type key (table idx) with
    | none => .ok (d, dictErr, [])
    | some (chain, he) =>
      let d := setChain d table idx chain
      .ok ({ d with ht := { d.ht with used := d.ht.used-1 } }, dictOk,
        if nofree then [] else [he])

def dictDelete (d : Dict K V) (key : K) : Run (Dict K V × ℕ × List (DictEntry K V)) :=
  dictGenericDelete d key false

def dictDeleteNoFree (d : Dict K V) (key : K) : Run (Dict K V × ℕ × List (DictEntry K V)) :=
  dictGenericDelete d key true

/-- The loop of `_dictClear`: the entries it releases. -/
def clearBuckets (table : ℕ → List (DictEntry K V)) : List ℕ → ℕ → List (DictEntry K V)
  | [], _ => []
  | i :: is, used =>
    if used > 0 then table i ++ clearBuckets table is (used-(table i).length) else []

/-- `dictEmpty`, with the entries whose key and value go to the destructors. -/
def dictEmpty (d : Dict K V) : Dict K V × List (DictEntry K V) :=
  ({ d with ht := dictReset },
    d.ht.table.elim [] fun table => clearBuckets table (List.range d.ht.size) d.ht.used)

end Source

end CLearning.DictTable
