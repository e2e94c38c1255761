import CLearning.Machine
import CLearning.Decimal
import CLearning.Ledger

/-!
# The parser of cJSON

A pointer into the text is the list of bytes from it to the end of the memory
the text lies in, so that a read past that end is a fault. The chain at `next`
and the chain at `child` of an item are chains themselves; a null pointer is
the empty one. The blocks `malloc` returns are numbered by its calls, any of
which may fail. What a `double` computes is a parameter.
-/

set_option autoImplicit false

namespace CLearning.Json
open CLearning.Machine CLearning.Decimal CLearning.Ledger

abbrev Text := List UInt8

inductive NumberFormat where
  | whole -- "%.0f"
  | scientific -- "%e"
  | fixed -- "%f"
  deriving DecidableEq, Repr

/-- The operations on `double` the program uses, conversions and `sprintf` included. -/
class Double (D : Type) where
  ofInt : ℤ → D
  micro : D -- 1.0e-6
  epsilon : D -- DBL_EPSILON
  add : D → D → D
  sub : D → D → D
  mul : D → D → D
  pow : D → D → D
  fabs : D → D
  floor : D → D
  lt : D → D → Bool
  le : D → D → Bool
  toInt : D → ℤ
  sprintf : NumberFormat → D → Text

section Items

abbrev Str := ℕ × Text

/-- The fields of an item other than its links. -/
structure Data (D : Type) where
  block : ℕ
  type : ℕ
  valuestring : Option Str
  valueint : ℤ
  valuedouble : D
  string : Option Str

inductive Chain (D : Type) where
  | null
  | item (data : Data D) (next child : Chain D)

def cJSON_False : ℕ := 0
def cJSON_True : ℕ := 1
def cJSON_NULL : ℕ := 2
def cJSON_Number : ℕ := 3
def cJSON_String : ℕ := 4
def cJSON_Array : ℕ := 5
def cJSON_Object : ℕ := 6
def cJSON_IsReference : ℕ := 256

variable {D : Type}

def Data.isReference (d : Data D) : Bool := d.type &&& cJSON_IsReference ≠ 0

/-- The blocks `cJSON_Delete` frees, in its order. -/
def delete : Chain D → List ℕ
  | .null => []
  | .item d next child =>
    (if d.isReference then [] else delete child ++ (d.valuestring.map Prod.fst).toList) ++
      (d.string.map Prod.fst).toList ++ d.block :: delete next

end Items

section Memory

/-- The heap, and the pointer to where a parse failed. -/
structure World extends Heap where
  ep : Option Text

def World.malloc (w : World) : Option ℕ × World :=
  (w.toHeap.malloc.1, { w with toHeap := w.toHeap.malloc.2 })

def World.free (w : World) (blocks : List ℕ) : World :=
  { w with toHeap := w.toHeap.free blocks }

variable {D : Type} [Double D]

/-- The item `cJSON_New_Item` fills with zeros. -/
def blank (block : ℕ) : Data D := ⟨block, 0, none, 0, Double.ofInt 0, none⟩

end Memory

section Strings

def peek : Text → Run UInt8
  | [] => .error .wildAccess
  | c :: _ => .ok c

def hexDigit (c : UInt8) : Option ℕ :=
  if 48 ≤ c ∧ c ≤ 57 then some (c.toNat-48)
  else if 65 ≤ c ∧ c ≤ 70 then some (10+c.toNat-65)
  else if 97 ≤ c ∧ c ≤ 102 then some (10+c.toNat-97)
  else none

def parseHex : ℕ → ℕ → Text → Run ℕ
  | 0, h, _ => .ok h
  | _+1, _, [] => .error .wildAccess
  | k+1, h, c :: str =>
    match hexDigit c with
    | none => .ok 0
    | some d => parseHex k ((h <<< 4)+d) str

def parseHex4 (str : Text) : Run ℕ := parseHex 4 0 str

def firstByteMark : ℕ → ℕ
  | 2 => 0xC0
  | 3 => 0xE0
  | 4 => 0xF0
  | _ => 0

/-- The bytes the fall-through `switch` stores, the last one first. -/
def storeTail : ℕ → ℕ → Text → ℕ × Text
  | 0, uc, out => (uc, out)
  | k+1, uc, out => storeTail k (uc >>> 6) (UInt8.ofNat ((uc ||| 0x80) &&& 0xBF) :: out)

def transcode (uc : ℕ) : Text :=
  let len := if uc < 0x80 then 1 else if uc < 0x800 then 2 else if uc < 0x10000 then 3 else 4
  let (uc, out) := storeTail (len-1) uc []
  UInt8.ofNat (uc ||| firstByteMark len) :: out

/-- The case `'u'` of `parse_string`, from the character `u` on: the bytes stored and
the pointer that the common `ptr++` moves on. -/
def unescapeUnicode (ptr : Text) : Run (Text × Text) := do
  let uc ← parseHex4 (ptr.drop 1)
  let ptr := ptr.drop 4
  if (0xDC00 ≤ uc ∧ uc ≤ 0xDFFF) ∨ uc = 0 then .ok ([], ptr)
  else if 0xD800 ≤ uc ∧ uc ≤ 0xDBFF then do
    let c ← peek (ptr.drop 1)
    if c ≠ 92 then .ok ([], ptr)
    else do
      let c ← peek (ptr.drop 2)
      if c ≠ 117 then .ok ([], ptr)
      else do
        let uc2 ← parseHex4 (ptr.drop 3)
        let ptr := ptr.drop 6
        if uc2 < 0xDC00 ∨ uc2 > 0xDFFF then .ok ([], ptr)
        else .ok (transcode (0x10000+(((uc &&& 0x3FF) <<< 10) ||| (uc2 &&& 0x3FF))), ptr)
  else .ok (transcode uc, ptr)

/-- The `switch` on the character after a backslash. -/
def unescape (ptr : Text) : Run (Text × Text) := do
  let c ← peek ptr
  if c = 98 then .ok ([8], ptr)
  else if c = 102 then .ok ([12], ptr)
  else if c = 110 then .ok ([10], ptr)
  else if c = 114 then .ok ([13], ptr)
  else if c = 116 then .ok ([9], ptr)
  else if c = 117 then unescapeUnicode ptr
  else .ok ([c], ptr)

def countCharacters : Text → Run ℕ
  | [] => .error .wildAccess
  | [c] => if c = 34 ∨ c = 0 then .ok 0 else .error .wildAccess
  | c :: c' :: ptr =>
    if c = 34 ∨ c = 0 then .ok 0
    else if c = 92 then do
      let len ← countCharacters ptr
      .ok (len+1)
    else do
      let len ← countCharacters (c' :: ptr)
      .ok (len+1)

/-- The size of the buffer for a string: no `++len` overflows unless `len + 1` does. -/
def countString (ptr : Text) : Run ℕ := do
  let len ← countCharacters ptr
  intSize (len+1)

/-- The loop that stores the string in the `room` bytes left of `out`, its
terminator, and the pointer it stops at. -/
def copyString : ℕ → Text → ℕ → Run (Text × Text)
  | 0, _, _ => .error .outOfFuel
  | fuel+1, ptr, room => do
    let c ← peek ptr
    if c = 34 ∨ c = 0 then
      if 0 < room then .ok ([], ptr) else .error .wildAccess
    else do
      let (out, ptr) ← (if c = 92 then unescape ptr.tail else .ok ([c], ptr))
      if out.length ≤ room then do
        let (rest, ptr) ← copyString fuel ptr.tail (room-out.length)
        .ok (out ++ rest, ptr)
      else .error .wildAccess

variable {D : Type}

structure Outcome (D : Type) where
  data : Data D
  child : Chain D
  rest : Option Text
  world : World

def parseString (w : World) (d : Data D) (str : Text) : Run (Outcome D) := do
  let c ← peek str
  if c ≠ 34 then .ok ⟨d, .null, none, { w with ep := some str }⟩
  else do
    let size ← countString str.tail
    match w.malloc with
    | (none, w) => .ok ⟨d, .null, none, w⟩
    | (some block, w) => do
      let (out, ptr) ← copyString str.length str.tail size
      let c ← peek ptr
      let ptr := if c = 34 then ptr.tail else ptr
      .ok ⟨{ d with valuestring := some (block, out), type := cJSON_String }, .null, some ptr, w⟩

end Strings

section Numbers

def digits {α : Type} (f : α → ℕ → α) : α → Text → Run (α × Text)
  | _, [] => .error .wildAccess
  | a, c :: num => if IsDigit c then digits f (f a (c.toNat-48)) num else .ok (a, c :: num)

def int (n : ℤ) : Run ℤ := if -2^31 ≤ n ∧ n < 2^31 then .ok n else .error .intOverflow

def exponentDigits : ℤ → Text → Run (ℤ × Text)
  | _, [] => .error .wildAccess
  | subscale, c :: num =>
    if IsDigit c then do
      let subscale ← int (subscale*10)
      let subscale ← int (subscale+(c.toNat-48))
      exponentDigits subscale num
    else .ok (subscale, c :: num)

/-- The sign at `num`, and the pointer past it. -/
def takeSign (plus : Bool) (num : Text) : Run (ℤ × Text) := do
  let c ← peek num
  if plus ∧ c = 43 then .ok (1, num.tail)
  else if c = 45 then .ok (-1, num.tail)
  else .ok (1, num)

def exponent (num : Text) : Run (ℤ × Text) := do
  let (signsubscale, num) ← takeSign true num
  let (subscale, num) ← exponentDigits 0 num
  .ok (subscale*signsubscale, num)

variable {D : Type} [Double D]
open Double

/-- `n * 10.0 + digit`. -/
def pushDigit (n : D) (digit : ℕ) : D := add (mul n (ofInt 10)) (ofInt digit)

def parseNumber (d : Data D) (num : Text) : Run (Data D × Text) := do
  let (sign, num) ← takeSign false num
  let c ← peek num
  let num := if c = 48 then num.tail else num
  let c ← peek num
  let (n, num) ← (if 49 ≤ c ∧ c ≤ 57 then digits pushDigit (ofInt 0) num else .ok (ofInt 0, num))
  let c ← peek num
  let point ← (if c = 46 then peek num.tail else .ok 0)
  let ((n, scale), num) ← (if IsDigit point then
      digits (fun a digit => (pushDigit a.1 digit, sub a.2 (ofInt 1))) (n, (ofInt 0 : D)) num.tail
    else .ok ((n, ofInt 0), num))
  let c ← peek num
  let (subscale, num) ← (if c = 101 ∨ c = 69 then exponent num.tail else .ok (0, num))
  let n := mul (mul (ofInt sign) n) (pow (ofInt 10) (add scale (ofInt subscale)))
  .ok ({ d with valuedouble := n, valueint := toInt n, type := cJSON_Number }, num)

end Numbers

section Values

variable {D : Type} [Double D]

def skip : Text → Run Text
  | [] => .error .wildAccess
  | c :: text => if c ≠ 0 ∧ c ≤ 32 then skip text else .ok (c :: text)

def strncmp : Text → Text → Run Bool
  | _, [] => .ok true
  | [], _ :: _ => .error .wildAccess
  | c :: s, l :: literal => if c = l then strncmp s literal else .ok false

abbrev Member (D : Type) := World → Data D → Text → Run (Outcome D)

def parseMembers (member : Member D) (close : UInt8) : ℕ → World → Text →
    Run (Chain D × Option Text × World)
  | 0, _, _ => .error .outOfFuel
  | fuel+1, w, value =>
    match w.malloc with
    | (none, w) => .ok (.null, none, w)
    | (some block, w) => do
      let value ← skip value
      let o ← member w (blank block) value
      match o.rest with
      | none => .ok (.item o.data .null o.child, none, o.world)
      | some value => do
        let value ← skip value
        let c ← peek value
        if c = 44 then do
          let (next, rest, w) ← parseMembers member close fuel o.world value.tail
          .ok (.item o.data next o.child, rest, w)
        else if c = close then .ok (.item o.data .null o.child, some value.tail, o.world)
        else .ok (.item o.data .null o.child, none, { o.world with ep := some value })

def parseBody (member : Member D) (close : UInt8) (fuel : ℕ) (w : World) (d : Data D)
    (value : Text) : Run (Outcome D) := do
  let value ← skip value
  let c ← peek value
  if c = close then .ok ⟨d, .null, some value.tail, w⟩
  else do
    let (child, rest, w) ← parseMembers member close fuel w value
    .ok ⟨d, child, rest, w⟩

def parsePair (parseValue : Member D) : Member D := fun w d value => do
  let o ← parseString w d value
  match o.rest with
  | none => .ok o
  | some value => do
    let value ← skip value
    let d := { o.data with string := o.data.valuestring, valuestring := none }
    let c ← peek value
    if c ≠ 58 then .ok ⟨d, .null, none, { o.world with ep := some value }⟩
    else do
      let value ← skip value.tail
      parseValue o.world d value

def parseArray (parseValue : Member D) (fuel : ℕ) (w : World) (d : Data D) (value : Text) :
    Run (Outcome D) := do
  let c ← peek value
  if c ≠ 91 then .ok ⟨d, .null, none, { w with ep := some value }⟩
  else parseBody parseValue 93 fuel w { d with type := cJSON_Array } value.tail

def parseObject (parseValue : Member D) (fuel : ℕ) (w : World) (d : Data D) (value : Text) :
    Run (Outcome D) := do
  let c ← peek value
  if c ≠ 123 then .ok ⟨d, .null, none, { w with ep := some value }⟩
  else parseBody (parsePair parseValue) 125 fuel w { d with type := cJSON_Object } value.tail

def nullText : Text := [110, 117, 108, 108]
def falseText : Text := [102, 97, 108, 115, 101]
def trueText : Text := [116, 114, 117, 101]

def parseValue : ℕ → Member D
  | 0, _, _, _ => .error .outOfFuel
  | fuel+1, w, d, value => do
    if ← strncmp value nullText then
      .ok ⟨{ d with type := cJSON_NULL }, .null, some (value.drop 4), w⟩
    else if ← strncmp value falseText then
      .ok ⟨{ d with type := cJSON_False }, .null, some (value.drop 5), w⟩
    else if ← strncmp value trueText then
      .ok ⟨{ d with type := cJSON_True, valueint := 1 }, .null, some (value.drop 4), w⟩
    else do
      let c ← peek value
      if c = 34 then parseString w d value
      else if c = 45 ∨ (48 ≤ c ∧ c ≤ 57) then do
        let (d, rest) ← parseNumber d value
        .ok ⟨d, .null, some rest, w⟩
      else if c = 91 then parseArray (parseValue fuel) fuel w d value
      else if c = 123 then parseObject (parseValue fuel) fuel w d value
      else .ok ⟨d, .null, none, { w with ep := some value }⟩

/-- `cJSON_ParseWithOpts`: the item, the end of what was parsed and the world. -/
def parseWithOpts (w : World) (value : Option Text) (requireNullTerminated : Bool) :
    Run (Chain D × Option Text × World) :=
  match w.malloc with
  | (none, w) => .ok (.null, none, { w with ep := none })
  | (some block, w) => do
    let w := { w with ep := none }
    match value with
    | none => .ok (.null, none, w.free [block])
    | some value => do
      let value ← skip value
      let o ← parseValue (D := D) (value.length+1) w (blank block) value
      let root := Chain.item o.data .null o.child
      match o.rest with
      | none => .ok (.null, none, o.world.free (delete root))
      | some rest => do
        if requireNullTerminated then do
          let rest ← skip rest
          let c ← peek rest
          if c ≠ 0 then
            .ok (.null, none, { o.world.free (delete root) with ep := some rest })
          else .ok (root, some rest, o.world)
        else .ok (root, some rest, o.world)

end Values

end CLearning.Json
