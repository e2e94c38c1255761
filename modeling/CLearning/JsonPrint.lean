import CLearning.Json

/-!
# The printer of cJSON

Every output buffer has the size its allocation asked for, so that a store
past it is a fault. The pointer into a buffer is the number of bytes stored.
-/

set_option autoImplicit false

namespace CLearning.Json
open CLearning.Machine CLearning.Decimal CLearning.Ledger

section Buffers

structure Buffer where
  size : ℕ
  bytes : Text

/-- `*ptr++ = c`. -/
def Buffer.put (b : Buffer) (c : UInt8) : Run Buffer :=
  if b.bytes.length < b.size then .ok { b with bytes := b.bytes ++ [c] } else .error .wildAccess

/-- A string copied to `ptr` with its terminator, and `ptr` moved on to that. -/
def Buffer.strcpy (b : Buffer) (s : Text) : Run Buffer :=
  if b.bytes.length+s.length < b.size then .ok { b with bytes := b.bytes ++ s }
  else .error .wildAccess

/-- `*ptr = 0`: the string in the buffer. -/
def Buffer.terminate (b : Buffer) : Run Text :=
  if b.bytes.length < b.size then .ok b.bytes else .error .wildAccess

def Buffer.putMany (b : Buffer) (c : UInt8) : ℕ → Run Buffer
  | 0 => .ok b
  | k+1 => do
    let b ← b.put c
    b.putMany c k

end Buffers

section Source

/-- A string composed by `f` in an output buffer of its own. -/
def fill (h : Heap) (size : ℕ) (f : Buffer → Run Buffer) : Run (Option Str × Heap) :=
  match h.malloc with
  | (none, h) => .ok (none, h)
  | (some block, h) => do
    let b ← f ⟨size, []⟩
    let text ← b.terminate
    .ok (some (block, text), h)

def strdup (h : Heap) (str : Text) : Option Str × Heap :=
  (h.malloc.1.map fun block => (block, str), h.malloc.2)

def escapedLength : Text → ℕ
  | [] => 0
  | token :: ptr =>
    if token = 0 then 0
    else
      1+(if token ∈ [34, 92, 8, 12, 10, 13, 9] then 1 else if token < 32 then 5 else 0)+
        escapedLength ptr

/-- The cases of the `switch` with a letter of their own. -/
def shortEscape (token : UInt8) : Option UInt8 :=
  if token = 92 then some 92
  else if token = 34 then some 34
  else if token = 8 then some 98
  else if token = 12 then some 102
  else if token = 10 then some 110
  else if token = 13 then some 114
  else if token = 9 then some 116
  else none

def hexChar (n : ℕ) : UInt8 := UInt8.ofNat (if n < 10 then 48+n else 87+n)

def unicodeEscape (token : UInt8) : Text :=
  [117, 48, 48, hexChar (token.toNat/16), hexChar (token.toNat%16)]

def storeEscape (c : UInt8) (b : Buffer) : Run Buffer :=
  match shortEscape c with
  | some letter => b.put letter
  | none => b.strcpy (unicodeEscape c)

def storeEscaped : Text → Buffer → Run Buffer
  | [], b => .ok b
  | c :: ptr, b =>
    if c = 0 then .ok b
    else if c > 31 ∧ c ≠ 34 ∧ c ≠ 92 then do
      let b ← b.put c
      storeEscaped ptr b
    else do
      let b ← b.put 92
      let b ← storeEscape c b
      storeEscaped ptr b

def printStringPtr (h : Heap) (str : Option Text) : Run (Option Str × Heap) :=
  match str with
  | none => .ok (strdup h [])
  | some str => do
    let size ← intSize (escapedLength str+3)
    fill h size fun b => do
      let b ← b.put 34
      let b ← storeEscaped str b
      b.put 34

/-- `"%d"`. -/
def printInt (n : ℤ) : Text := if n < 0 then 45 :: decimal n.natAbs else decimal n.natAbs

variable {D : Type} [Double D]
open Double

def isInt (d : Data D) : Bool :=
  le (fabs (sub (ofInt d.valueint) d.valuedouble)) epsilon &&
    le d.valuedouble (ofInt (2^31-1)) && le (ofInt (-2^31)) d.valuedouble

def numberFormat (v : D) : NumberFormat :=
  if le (fabs (sub (floor v) v)) epsilon && lt (fabs v) (ofInt (10^60)) then .whole
  else if lt (fabs v) micro || lt (ofInt (10^9)) (fabs v) then .scientific
  else .fixed

def printNumber (h : Heap) (d : Data D) : Run (Option Str × Heap) :=
  if isInt d then fill h 21 fun b => b.strcpy (printInt d.valueint)
  else fill h 64 fun b => b.strcpy (sprintf (numberFormat d.valuedouble) d.valuedouble)

/-- What the loops of `print_array` and `print_object` collect of one child. -/
structure Entry where
  name : Option Str
  text : Option Str

def Entry.blocks (e : Entry) : List ℕ :=
  (e.name.map Prod.fst).toList ++ (e.text.map Prod.fst).toList

/-- What the child adds to the length of an array or an object, `extra` for what stands around
it. -/
def Entry.length (object : Bool) (extra : ℕ) (e : Entry) : ℕ :=
  match object, e.name, e.text with
  | false, _, some text => text.2.length+extra
  | true, some name, some text => text.2.length+name.2.length+extra
  | _, _, _ => 0

def contents (s : Option Str) : Text := (s.map Prod.snd).getD []

/-- The loop of `print_array` that composes the output. -/
def storeArray (fmt : Bool) : List Entry → Buffer → Run Buffer
  | [], b => .ok b
  | e :: es, b => do
    let b ← b.strcpy (contents e.text)
    if es.isEmpty then .ok b
    else do
      let b ← b.put 44
      let b ← (if fmt then b.put 32 else .ok b)
      let _ ← b.terminate
      storeArray fmt es b

def printArray (children : ℕ → Heap → Run (List Entry × Heap)) (numentries depth : ℕ) (fmt : Bool)
    (h : Heap) : Run (Option Str × Heap) :=
  if numentries = 0 then .ok (strdup h [91, 93])
  else do
    let _ ← intSize numentries
    match h.malloc with
    | (none, h) => .ok (none, h)
    | (some array, h) => do
      let (es, h) ← children (depth+1) h
      let len ← intSize (5+(es.map (Entry.length false (2+if fmt then 1 else 0))).sum)
      let (out, h) ← (if es.all fun e => e.text.isSome then
          fill h len fun b => do
            let b ← b.put 91
            let _ ← b.terminate
            let b ← storeArray fmt es b
            b.put 93
        else .ok (none, h))
      .ok (out, h.free (es.flatMap Entry.blocks ++ [array]))

/-- The loop of `print_object` that composes the output. -/
def storeObject (fmt : Bool) (depth : ℕ) : List Entry → Buffer → Run Buffer
  | [], b => .ok b
  | e :: es, b => do
    let b ← (if fmt then b.putMany 9 depth else .ok b)
    let b ← b.strcpy (contents e.name)
    let b ← b.put 58
    let b ← (if fmt then b.put 9 else .ok b)
    let b ← b.strcpy (contents e.text)
    let b ← (if es.isEmpty then .ok b else b.put 44)
    let b ← (if fmt then b.put 10 else .ok b)
    let _ ← b.terminate
    storeObject fmt depth es b

def printObject (children : ℕ → Heap → Run (List Entry × Heap)) (numentries depth : ℕ) (fmt : Bool)
    (h : Heap) : Run (Option Str × Heap) :=
  if numentries = 0 then do
    let size ← intSize (if fmt then depth+4 else 3)
    fill h size fun b => do
      let b ← b.put 123
      let b ← (if fmt then b.put 10 else .ok b)
      let b ← (if fmt then b.putMany 9 (depth-1) else .ok b)
      b.put 125
  else do
    let _ ← intSize numentries
    match h.malloc with
    | (none, h) => .ok (none, h)
    | (some entries, h) =>
      match h.malloc with
      | (none, h) => .ok (none, h.free [entries])
      | (some names, h) => do
        let depth := depth+1
        let (es, h) ← children depth h
        let len ← intSize (7+(if fmt then depth else 0)+
          (es.map (Entry.length true (2+if fmt then 2+depth else 0))).sum)
        let (out, h) ← (if es.all fun e => e.name.isSome && e.text.isSome then
            fill h len fun b => do
              let b ← b.put 123
              let b ← (if fmt then b.put 10 else .ok b)
              let _ ← b.terminate
              let b ← storeObject fmt depth es b
              let b ← (if fmt then b.putMany 9 (depth-1) else .ok b)
              b.put 125
          else .ok (none, h))
        .ok (out, h.free (es.flatMap Entry.blocks ++ [names, entries]))

/-- `print_value` of an item whose children are printed by `children`: those of an
object with their names. -/
def printItem (children : Bool → ℕ → Heap → Run (List Entry × Heap)) (numentries : ℕ) (d : Data D)
    (depth : ℕ) (fmt : Bool) (h : Heap) : Run (Option Str × Heap) :=
  let type := d.type &&& 255
  if type = cJSON_NULL then .ok (strdup h nullText)
  else if type = cJSON_False then .ok (strdup h falseText)
  else if type = cJSON_True then .ok (strdup h trueText)
  else if type = cJSON_Number then printNumber h d
  else if type = cJSON_String then printStringPtr h (d.valuestring.map Prod.snd)
  else if type = cJSON_Array then printArray (children false) numentries depth fmt h
  else if type = cJSON_Object then printObject (children true) numentries depth fmt h
  else .ok (none, h)

def numentries : Chain D → ℕ
  | .null => 0
  | .item _ next _ => numentries next+1

def printChildren (fmt : Bool) : Chain D → Bool → ℕ → Heap → Run (List Entry × Heap)
  | .null, _, _, h => .ok ([], h)
  | .item d next child, object, depth, h => do
    let (name, h) ← (if object then printStringPtr h (d.string.map Prod.snd) else .ok (none, h))
    let (text, h) ← printItem (printChildren fmt child) (numentries child) d depth fmt h
    if !object && text.isNone then .ok ([⟨name, text⟩], h)
    else do
      let (es, h) ← printChildren fmt next object depth h
      .ok (⟨name, text⟩ :: es, h)

def printValue (item : Chain D) (depth : ℕ) (fmt : Bool) (h : Heap) : Run (Option Str × Heap) :=
  match item with
  | .null => .ok (none, h)
  | .item d _ child => printItem (printChildren fmt child) (numentries child) d depth fmt h

def print (item : Chain D) (h : Heap) : Run (Option Str × Heap) := printValue item 0 true h

def printUnformatted (item : Chain D) (h : Heap) : Run (Option Str × Heap) :=
  printValue item 0 false h

end Source

section Text

def escapeByte (c : UInt8) : Text :=
  if c > 31 ∧ c ≠ 34 ∧ c ≠ 92 then [c]
  else 92 :: (shortEscape c).elim (unicodeEscape c) fun letter => [letter]

def escape (str : Text) : Text := (str.takeWhile (· ≠ 0)).flatMap escapeByte

def quoted (str : Text) : Text := 34 :: escape str ++ [34]

def tabs (fmt : Bool) (k : ℕ) : Text := if fmt then List.replicate k 9 else []

def space (fmt : Bool) (c : UInt8) : Text := if fmt then [c] else []

def joined (fmt : Bool) : List Text → Text
  | [] => []
  | e :: es => e ++ if es.isEmpty then [] else 44 :: space fmt 32 ++ joined fmt es

def arrayText (fmt : Bool) (es : List Text) : Text := 91 :: joined fmt es ++ [93]

def pairs (fmt : Bool) (depth : ℕ) : List (Text × Text) → Text
  | [] => []
  | (name, e) :: es => tabs fmt depth ++ name ++ 58 :: space fmt 9 ++ e ++
      (if es.isEmpty then [] else [44]) ++ space fmt 10 ++ pairs fmt depth es

def objectText (fmt : Bool) (depth : ℕ) (es : List (Text × Text)) : Text :=
  if es.isEmpty then 123 :: space fmt 10 ++ tabs fmt (depth-1) ++ [125]
  else 123 :: space fmt 10 ++ pairs fmt (depth+1) es ++ tabs fmt depth ++ [125]

variable {D : Type} [Double D]
open Double

def numberText (d : Data D) : Text :=
  if isInt d then printInt d.valueint else sprintf (numberFormat d.valuedouble) d.valuedouble

def itemText (fmt : Bool) (children : Option (List (Text × Text))) (d : Data D) (depth : ℕ) :
    Option Text :=
  let type := d.type &&& 255
  if type = cJSON_NULL then some nullText
  else if type = cJSON_False then some falseText
  else if type = cJSON_True then some trueText
  else if type = cJSON_Number then some (numberText d)
  else if type = cJSON_String then some (d.valuestring.elim [] fun s => quoted s.2)
  else if type = cJSON_Array then children.map fun es => arrayText fmt (es.map Prod.snd)
  else if type = cJSON_Object then children.map (objectText fmt depth)
  else none

def childrenText (fmt : Bool) : Chain D → ℕ → Option (List (Text × Text))
  | .null, _ => some []
  | .item d next child, depth => do
    let text ← itemText fmt (childrenText fmt child (depth+1)) d depth
    let es ← childrenText fmt next depth
    some ((d.string.elim [] fun s => quoted s.2, text) :: es)

def valueText (fmt : Bool) (item : Chain D) (depth : ℕ) : Option Text :=
  match item with
  | .null => none
  | .item d _ child => itemText fmt (childrenText fmt child (depth+1)) d depth

end Text

section Stores

variable {f g : Buffer → Run Buffer} {s t : Text} {b : Buffer} {c : UInt8}

def Stores (f : Buffer → Run Buffer) (s : Text) : Prop :=
  ∀ b : Buffer, b.bytes.length+s.length < b.size → f b = .ok { b with bytes := b.bytes ++ s }

theorem stores_ok : Stores .ok [] := by
  intro b hb
  simp

theorem stores_put (c : UInt8) : Stores (Buffer.put · c) [c] := by
  intro b hb
  exact if_pos (by rw [List.length_singleton] at hb; omega)

theorem stores_strcpy (s : Text) : Stores (Buffer.strcpy · s) s := fun _ hb => if_pos hb

theorem Stores.bind (hf : Stores f s) (hg : Stores g t) : Stores (fun b => f b >>= g) (s ++ t) := by
  intro b hb
  rw [List.length_append] at hb
  have hroom : (b.bytes ++ s).length+t.length < b.size := by
    rw [List.length_append]
    omega
  change f b >>= g = _
  rw [hf b (by omega), ok_bind, hg _ hroom, List.append_assoc]

theorem stores_space (fmt : Bool) (c : UInt8) :
    Stores (fun b => if fmt then b.put c else .ok b) (space fmt c) := by
  cases fmt with
  | false => exact stores_ok
  | true => exact stores_put c

theorem stores_tabs (fmt : Bool) (k : ℕ) :
    Stores (fun b => if fmt then b.putMany 9 k else .ok b) (tabs fmt k) := by
  cases fmt with
  | false => exact stores_ok
  | true =>
    change Stores (Buffer.putMany · 9 k) (List.replicate k 9)
    induction k with
    | zero => exact stores_ok
    | succ k ih => exact (stores_put 9).bind ih

theorem Stores.terminated (hf : Stores f s) :
    Stores (fun b => b.terminate >>= fun _ => f b) s := by
  intro b hb
  have ht : b.terminate = .ok b.bytes := if_pos (by omega)
  change (b.terminate >>= fun _ => f b) = _
  rw [ht, ok_bind]
  exact hf b hb

theorem Stores.terminate (hf : Stores f s) (hroom : s.length < b.size) (hb : b.bytes = []) :
    (f b >>= Buffer.terminate) = .ok s := by
  rw [hf b (by rw [hb]; simpa using hroom), ok_bind, hb, List.nil_append]
  exact if_pos hroom

theorem stores_storeEscape (c : UInt8) :
    Stores (storeEscape c) ((shortEscape c).elim (unicodeEscape c) fun letter => [letter]) := by
  intro b
  rw [storeEscape]
  cases shortEscape c with
  | none => exact stores_strcpy _ b
  | some letter => exact stores_put letter b

theorem escape_cons (h : c ≠ 0) : escape (c :: s) = escapeByte c ++ escape s := by
  rw [escape, List.takeWhile_cons_of_pos (by simpa using h), List.flatMap_cons, escape]

theorem escape_zero (s : Text) : escape (0 :: s) = [] := by
  rw [escape, List.takeWhile_cons_of_neg (by simp), List.flatMap_nil]

theorem stores_escaped (str : Text) : Stores (storeEscaped str) (escape str) := by
  induction str with
  | nil => exact stores_ok
  | cons c str ih =>
    intro b hb
    rw [storeEscaped]
    by_cases h0 : c = 0
    · rw [if_pos h0, h0, escape_zero]
      exact stores_ok b (by rw [h0, escape_zero] at hb; exact hb)
    · rw [escape_cons h0] at hb ⊢
      rw [if_neg h0]
      by_cases hc : c > 31 ∧ c ≠ 34 ∧ c ≠ 92
      · rw [if_pos hc]
        have hstore := (stores_put c).bind ih
        rw [escapeByte, if_pos hc] at hb ⊢
        exact hstore b hb
      · rw [if_neg hc]
        rw [escapeByte, if_neg hc] at hb ⊢
        exact ((stores_put 92).bind ((stores_storeEscape c).bind ih)) b hb

theorem escapedLength_eq (str : Text) : escapedLength str = (escape str).length := by
  induction str with
  | nil => rfl
  | cons c str ih =>
    rw [escapedLength]
    by_cases h0 : c = 0
    · rw [if_pos h0, h0, escape_zero]
      rfl
    · rw [if_neg h0, escape_cons h0, List.length_append, ih]
      congr 1
      clear ih
      obtain ⟨⟨n⟩⟩ := c
      revert n
      decide +kernel

end Stores

end CLearning.Json
