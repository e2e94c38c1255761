import CLearning.MempoolBytes

/-!
# One pool of the memory pool

The block structures of a single `mempool_t`: the five size-class free lists,
the busy list and the address order, all threaded through the packed headers
of its memory. Pointers into the pool are byte offsets behind the `mempool_t`.
A freelist index of `none` is the source's `-1`.
-/

set_option autoImplicit false

namespace CLearning.MempoolPool
open CLearning.Machine CLearning.MempoolBytes

/-- `sizeof(mempool_t)` in the build without `__USE_POOLNAME`. -/
def mempoolSize : ℕ := 192

/-- `MEMPOOL_MAX_SEARCHINPOOL`. -/
def maxSearchInPool : ℕ := 8

instance neZero_classes : NeZero 5 := ⟨by decide⟩

structure Pool where
  freelist : Fin 5 → Option ℕ
  busylist : Option ℕ
  prev : Option ℕ
  next : Option ℕ
  pool_size : ℕ
  leftsize : ℕ
  failed : ℕ
  data : Bytes

namespace Pool

def rd (p : Pool) (o : ℕ) (f : Field) : ℕ := get p.data o f

def setRd (p : Pool) (o : ℕ) (f : Field) (v : ℕ) : Pool := { p with data := set p.data o f v }

def status (p : Pool) (o : ℕ) : ℕ := MempoolBytes.status p.data o

def setStatus (p : Pool) (o v : ℕ) : Pool := { p with data := MempoolBytes.setStatus p.data o v }

def setRd? (p : Pool) (o : Option ℕ) (f : Field) (v : ℕ) : Pool :=
  match o with
  | some o => p.setRd o f v
  | none => p

def setFreelist (p : Pool) (i : Fin 5) (o : Option ℕ) : Pool :=
  { p with freelist := Function.update p.freelist i o }

def setFreelist? (p : Pool) (i : Option (Fin 5)) (o : Option ℕ) : Pool :=
  match i with
  | some i => p.setFreelist i o
  | none => p

end Pool

def initMempool (p : Pool) : Pool :=
  let p := { p with freelist := fun i => if i = 4 then some 0 else none }
  let p := p.setRd 0 .offset 0
  let p := p.setRd 0 .size (usub 64 p.pool_size mempoolSize)
  let p := (p.setRd 0 .next NULL).setRd 0 .prev NULL
  let p := (p.setRd 0 .realnext NULL).setRd 0 .realprev NULL
  let p := p.setStatus 0 0
  { p with busylist := none, leftsize := p.rd 0 .size, failed := 0 }

def getFreeidx (size : ℕ) : Fin 5 :=
  if size > 4096 then 4
  else if size > 1024 then 3
  else if size > 512 then 2
  else if size > 128 then 1
  else 0

def classesFrom (i : Fin 5) : List (Fin 5) := (List.finRange 5).filter (i ≤ ·)

/-- The climb of `mempool_get_freelist`: an empty class sends `tmp_size` just
past its bound, which selects the next class. -/
def firstFreelist (p : Pool) : List (Fin 5) → Option (ℕ × Fin 5)
  | [] => none
  | i :: is => match p.freelist i with
    | some o => some (o, i)
    | none => firstFreelist p is

def mempoolGetFreelist (p : Pool) (size : ℕ) : Option (ℕ × Fin 5) :=
  firstFreelist p (classesFrom (getFreeidx size))

def removeFreenode (p : Pool) (freenode : ℕ) (freeidx : Option (Fin 5)) : Pool :=
  let freeidx := freeidx.getD (getFreeidx (p.rd freenode .size))
  let next := ref (p.rd freenode .next)
  if p.freelist freeidx ≠ some freenode then
    let p := p.setRd (p.rd freenode .prev) .next (p.rd freenode .next)
    p.setRd? next .prev (p.rd freenode .prev)
  else
    let p := p.setFreelist freeidx next
    p.setRd? next .prev NULL

def addFreenode (p : Pool) (freenode : ℕ) (freeidx : Option (Fin 5)) : Pool :=
  let freeidx := freeidx.getD (getFreeidx (p.rd freenode .size))
  let p := match p.freelist freeidx with
    | some h =>
      let p := p.setRd freenode .next (p.rd h .offset)
      p.setRd h .prev (p.rd freenode .offset)
    | none => p.setRd freenode .next NULL
  let p := p.setFreelist freeidx (some freenode)
  p.setRd freenode .prev NULL

/-- The branch of `__split_realdata` that hands the whole block out: it leaves
the free list. -/
def detachRealdata (p : Pool) (rd : ℕ) (freelist : Option ℕ) (freeidx : Option (Fin 5)) : Pool :=
  let prev := ref (p.rd rd .prev)
  let next := ref (p.rd rd .next)
  if some rd ≠ freelist then
    let p := p.setRd? prev .next (p.rd rd .next)
    p.setRd? next .prev (p.rd rd .prev)
  else
    let p := p.setFreelist? freeidx next
    p.setRd? next .prev NULL

def writeLeft (p : Pool) (rd size : ℕ) : Pool :=
  let left := rd+size
  let p := p.setRd left .offset (p.rd rd .offset+size)
  let p := p.setRd left .size (usub 32 (p.rd rd .size) size)
  let p := p.setRd left .prev (p.rd rd .prev)
  let p := p.setRd left .next (p.rd rd .next)
  let p := p.setRd left .realprev (p.rd rd .offset)
  let p := p.setRd left .realnext (p.rd rd .realnext)
  p.setStatus left 0

/-- The branch of `__split_realdata` that cuts the block: the remainder takes
its place in the free list, then moves to the list of its own size class. -/
def carveRealdata (p : Pool) (rd size : ℕ) (freelist : Option ℕ) (freeidx : Option (Fin 5)) :
    Pool :=
  let prev := ref (p.rd rd .prev)
  let next := ref (p.rd rd .next)
  let left := rd+size
  let p := writeLeft p rd size
  let p := p.setRd? (ref (p.rd rd .realnext)) .realprev (p.rd left .offset)
  let p := p.setRd rd .size size
  let p := p.setRd rd .realnext (p.rd left .offset)
  let p := p.setRd? next .prev (p.rd left .offset)
  let p := if some rd ≠ freelist then p.setRd? prev .next (p.rd left .offset)
    else p.setFreelist? freeidx (some left)
  let freeidx2 := getFreeidx (p.rd left .size)
  if some freeidx2 ≠ freeidx then
    addFreenode (removeFreenode p left freeidx) left (some freeidx2)
  else p

def splitRealdata (p : Pool) (rd size : ℕ) : Pool × Option ℕ :=
  let freelist := (mempoolGetFreelist p (p.rd rd .size)).map Prod.fst
  let freeidx := (mempoolGetFreelist p (p.rd rd .size)).map Prod.snd
  let r : Pool × Option ℕ :=
    if usub 32 (p.rd rd .size) size < 2*realdataSize then
      (detachRealdata p rd freelist freeidx, none)
    else (carveRealdata p rd size freelist freeidx, some (rd+size))
  let p := (r.1.setRd rd .prev NULL).setRd rd .next NULL
  (p.setStatus rd 1, r.2)

/-- The search loop over one free list; `n` counts the blocks it may still
look at. -/
def scanFreelist (p : Pool) (size : ℕ) : ℕ → Option ℕ → ℕ → ℕ
  | 0, _, avadata => avadata
  | _+1, none, avadata => avadata
  | n+1, some tmp, avadata =>
    let avadata := if p.rd tmp .size ≥ size ∧ p.rd avadata .size > p.rd tmp .size then tmp
      else avadata
    scanFreelist p size n (ref (p.rd tmp .next)) avadata

/-- The climb of `__get_availdata` over the classes whose list may still be
searched. -/
def availFrom (p : Pool) (size : ℕ) : List (Fin 5) → Option ℕ
  | [] => none
  | i :: is => match p.freelist i with
    | none => availFrom p size is
    | some o =>
      let avadata := scanFreelist p size (maxSearchInPool+1) (some o) o
      if p.rd avadata .size ≥ size then some avadata else availFrom p size is

def getAvaildata (p : Pool) (size : ℕ) : Option ℕ :=
  availFrom p size (classesFrom (getFreeidx size))

/-- The part of `__alloc_realdata` that takes a block out of the pool it stands
at; `none` when the search in the pool finds nothing. -/
def takeRealdata (p : Pool) (size : ℕ) : Option (Pool × ℕ) :=
  match p.busylist with
  | some b =>
    (getAvaildata p size).map fun realdata =>
      let p := { p with failed := 0 }
      let p := (splitRealdata p realdata size).1
      let p := p.setRd realdata .next (p.rd b .offset)
      let p := p.setRd b .prev (p.rd realdata .offset)
      ({ p with busylist := some realdata,
                leftsize := usub 24 p.leftsize (p.rd realdata .size) }, realdata)
  | none =>
    (p.freelist 4).map fun realdata =>
      let r := splitRealdata p realdata size
      let p := match r.2 with
        | some left =>
          let freeidx := getFreeidx (r.1.rd left .size)
          if freeidx = 4 then r.1.setFreelist 4 (some left)
          else (r.1.setFreelist 4 none).setFreelist freeidx (some left)
        | none => r.1.setFreelist 4 none
      ({ p with busylist := some realdata,
                leftsize := usub 24 p.leftsize (p.rd realdata .size) }, realdata)

def joinPrev (p : Pool) (realdata : ℕ) : Pool × ℕ :=
  match ref (p.rd realdata .realprev) with
  | some realprev =>
    if p.status realprev = 0 then
      let p := removeFreenode p realprev none
      let p := p.setRd realprev .size (p.rd realprev .size+p.rd realdata .size)
      (p.setRd realprev .realnext (p.rd realdata .realnext), realprev)
    else (p, realdata)
  | none => (p, realdata)

def joinNext (p : Pool) (freeheader : ℕ) (realnext : Option ℕ) : Pool :=
  match realnext with
  | some realnext =>
    if p.status realnext = 0 then
      let p := removeFreenode p realnext none
      let p := p.setRd freeheader .size (p.rd freeheader .size+p.rd realnext .size)
      p.setRd freeheader .realnext (p.rd realnext .realnext)
    else p
  | none => p

def freeRealdata (p : Pool) (realdata : ℕ) : Pool :=
  let realnext := ref (p.rd realdata .realnext)
  let freesize := p.rd realdata .size
  let freeheader := (joinPrev p realdata).2
  let p := joinNext (joinPrev p realdata).1 freeheader realnext
  let p := p.setRd? (ref (p.rd freeheader .realnext)) .realprev (p.rd freeheader .offset)
  let p := addFreenode p freeheader none
  let p := p.setStatus freeheader 0
  { p with leftsize := (p.leftsize+freesize) % 2^24, failed := 0 }

/-- The opening of `__pfree_realdata`: the block leaves the busy list. -/
def unlinkBusy (p : Pool) (realdata : ℕ) : Pool :=
  let p := match ref (p.rd realdata .prev) with
    | some q => p.setRd q .next (p.rd realdata .next)
    | none =>
      let p := { p with busylist := ref (p.rd realdata .next) }
      p.setRd? p.busylist .prev NULL
  let p := p.setRd? (ref (p.rd realdata .next)) .prev (p.rd realdata .prev)
  (p.setRd realdata .next NULL).setRd realdata .prev NULL

def refillFreelist (p : Pool) (realdata : ℕ) : Pool :=
  let freeidx := getFreeidx (p.rd realdata .size)
  let p := (p.setFreelist freeidx (some realdata)).setStatus realdata 0
  { p with leftsize := (p.leftsize+p.rd realdata .size) % 2^24, failed := 0 }

end CLearning.MempoolPool
