import Mathlib.Data.Nat.Notation
import Mathlib.Data.Int.Notation
import CLearning.Machine

/-!
# Base64

`base64.c` encodes bytes and has two decoders. One is compiled in two ways:
with `_BASE64_CHECKDATA` it takes one character at a time, without it four. The
source pointer is the list of the bytes from it to the end of the text, and the
destination is the list of the bytes written to it. A store past the length the
caller gave, a read past the text and an index past a table are faults, and so
is an `int` that overflows.
-/

set_option autoImplicit false

namespace CLearning.Base64
open CLearning.Machine

def errBufferTooSmall : ℤ := -0x0010
def errInvalidCharacter : ℤ := -0x0012

section Tables

def base64EncMap : List UInt8 := [
  65, 66, 67, 68, 69, 70, 71, 72, 73, 74,
  75, 76, 77, 78, 79, 80, 81, 82, 83, 84,
  85, 86, 87, 88, 89, 90, 97, 98, 99, 100,
  101, 102, 103, 104, 105, 106, 107, 108, 109, 110,
  111, 112, 113, 114, 115, 116, 117, 118, 119, 120,
  121, 122, 48, 49, 50, 51, 52, 53, 54, 55,
  56, 57, 43, 47]

def base64DecMap : List ℕ := [
  127, 127, 127, 127, 127, 127, 127, 127, 127, 127,
  127, 127, 127, 127, 127, 127, 127, 127, 127, 127,
  127, 127, 127, 127, 127, 127, 127, 127, 127, 127,
  127, 127, 127, 127, 127, 127, 127, 127, 127, 127,
  127, 127, 127, 62, 127, 127, 127, 63, 52, 53,
  54, 55, 56, 57, 58, 59, 60, 61, 127, 127,
  127, 64, 127, 127, 127, 0, 1, 2, 3, 4,
  5, 6, 7, 8, 9, 10, 11, 12, 13, 14,
  15, 16, 17, 18, 19, 20, 21, 22, 23, 24,
  25, 127, 127, 127, 127, 127, 127, 26, 27, 28,
  29, 30, 31, 32, 33, 34, 35, 36, 37, 38,
  39, 40, 41, 42, 43, 44, 45, 46, 47, 48,
  49, 50, 51, 127, 127, 127, 127, 127]

/-- `base64_dec_map[c]`. -/
def decAt (c : UInt8) : Run ℕ :=
  match base64DecMap[c.toNat]? with
  | some v => .ok v
  | none => .error .wildAccess

def peek (src : List UInt8) (n : ℕ) : Run UInt8 :=
  match src[n]? with
  | some c => .ok c
  | none => .error .wildAccess

def put (dlen : ℤ) (out : List UInt8) (b : ℕ) : Run (List UInt8) :=
  if out.length < dlen then .ok (out ++ [UInt8.ofNat b]) else .error .wildAccess

end Tables

/-- What a call leaves: its result, `*dlen` and the bytes in `dst`. -/
structure Result where
  ret : ℤ
  dlen : ℤ
  dst : List UInt8
  deriving DecidableEq

section Encode

/-- `base64_enc_map[n & 0x3F]`. -/
def enc (n : ℕ) : UInt8 := base64EncMap.getD (n &&& 0x3F) 0

def encodeGroup (c1 c2 c3 : ℕ) : List UInt8 :=
  [enc (c1 >>> 2), enc (((c1 &&& 3) <<< 4)+(c2 >>> 4)), enc (((c2 &&& 15) <<< 2)+(c3 >>> 6)), enc c3]

def encodeTail (src : List UInt8) (i : ℕ) : List UInt8 :=
  if i < src.length then
    let c1 := (src.getD i 0).toNat
    let c2 := if i+1 < src.length then (src.getD (i+1) 0).toNat else 0
    [enc (c1 >>> 2), enc (((c1 &&& 3) <<< 4)+(c2 >>> 4)),
      if i+1 < src.length then enc ((c2 &&& 15) <<< 2) else 61, 61]
  else []

def base64Encode (dlen : ℤ) (src : List UInt8) : Run Result :=
  let slen := src.length
  if slen = 0 then .ok ⟨0, dlen, []⟩
  else if slen <<< 3 ≥ 2^31 then .error .intOverflow
  else
    let n := (slen <<< 3) / 6
    let n := if (slen <<< 3)-n*6 = 2 then n+3 else if (slen <<< 3)-n*6 = 4 then n+2 else n
    if dlen < n+1 then .ok ⟨errBufferTooSmall, n+1, []⟩
    else
      let n := slen / 3*3
      let whole := (List.range (slen / 3)).flatMap fun g =>
        encodeGroup (src.getD (3*g) 0).toNat (src.getD (3*g+1) 0).toNat (src.getD (3*g+2) 0).toNat
      let text := whole ++ encodeTail src n
      .ok ⟨0, text.length, text ++ [0]⟩

end Encode

section Decode

def isBreak (c : UInt8) : Bool := c = 13 || c = 10

def isBlank (c : UInt8) : Bool := c = 32 || isBreak c

def trim (src : List UInt8) : ℕ → ℕ
  | 0 => 0
  | n+1 => if isBlank (src.getD n 0) then trim src n else n+1

structure Dec where
  i : ℕ
  src : List UInt8
  j : ℕ
  k : ℕ
  count : ℤ
  tmp : List ℕ
  out : List UInt8

abbrev Next := Dec × Option ℤ

def pad (v : ℕ) : ℕ := if v = 64 then 1 else 0

def byte0 (t0 t1 : ℕ) : ℕ := ((t0 &&& 0x3F) <<< 2) ||| ((t1 >>> 4) &&& 0x3F)
def byte1 (t1 t2 : ℕ) : ℕ := ((t1 &&& 0xF) <<< 4) ||| ((t2 >>> 2) &&& 0xF)
def byte2 (t2 t3 : ℕ) : ℕ := ((t2 &&& 0x3) <<< 6) ||| (t3 &&& 0x3F)

def store (dlen : ℤ) (out : List UInt8) (big : ℕ → Bool) (b0 b1 b2 : ℕ) : Run (List UInt8) := do
  let out ← if big 0 then put dlen out b0 else .ok out
  let out ← if big 1 then put dlen out b1 else .ok out
  if big 2 then put dlen out b2 else .ok out

def flush (dlen : ℤ) (t0 t1 t2 t3 : ℕ) (s : Dec) : Run Next := do
  let j := usub 32 s.j (pad t0+pad t1+pad t2+pad t3)
  let count := (s.count+j).bmod (2^32)
  if dlen < count then .ok (s, some errBufferTooSmall)
  else do
    let out ← store dlen s.out (fun n => j > n) (byte0 t0 t1) (byte1 t1 t2) (byte2 t2 t3)
    .ok ({ s with j, count, tmp := [], out }, none)

def checkedRound (dlen : ℤ) (s : Dec) : Run Next := do
  let c ← peek s.src 0
  if isBreak c then .ok ({ s with i := s.i+1, src := s.src.drop 1 }, none)
  else if c = 32 then .ok (s, some errInvalidCharacter)
  else
    let k := if c = 61 then s.k+1 else s.k
    if c = 61 ∧ k > 2 then .ok (s, some errInvalidCharacter)
    else if c > 127 then .ok (s, some errInvalidCharacter)
    else do
      let v ← decAt c
      if v = 127 then .ok (s, some errInvalidCharacter)
      else if v < 64 ∧ k ≠ 0 then .ok (s, some errInvalidCharacter)
      else
        let s := { s with i := s.i+1, src := s.src.drop 1, k, tmp := s.tmp ++ [v] }
        match s.tmp with
        | [t0, t1, t2, t3] => flush dlen t0 t1 t2 t3 s
        | _ => .ok (s, none)

def plainRound (dlen : ℤ) (s : Dec) : Run Next := do
  let c ← peek s.src 0
  if isBreak c then .ok ({ s with i := s.i+1, src := s.src.drop 1 }, none)
  else do
    let t0 ← decAt c
    let t1 ← (peek s.src 1) >>= decAt
    let t2 ← (peek s.src 2) >>= decAt
    let t3 ← (peek s.src 3) >>= decAt
    flush dlen t0 t1 t2 t3 { s with i := s.i+4, src := s.src.drop 4 }

def decodeLoop (slen : ℕ) (round : Dec → Run Next) : ℕ → Dec → Run Next
  | 0, s => if s.i < slen then .error .outOfFuel else .ok (s, none)
  | fuel+1, s =>
    if s.i < slen then do
      match ← round s with
      | (s, none) => decodeLoop slen round fuel s
      | (s, some ret) => .ok (s, some ret)
    else .ok (s, none)

/-- `base64_decode` with pointers that are not null, compiled with or without
`_BASE64_CHECKDATA`. -/
def base64Decode (checkdata : Bool) (dlen : ℤ) (src : List UInt8) : Run Result := do
  if dlen ≤ 0 ∨ src.length ≤ 3 then .ok ⟨-1, dlen, []⟩
  else
    let slen := trim src src.length
    if slen = 1 then .ok ⟨0, 0, []⟩
    else do
      let round := if checkdata then checkedRound dlen else plainRound dlen
      match ← decodeLoop slen round slen ⟨0, src, 3, 0, 0, [], []⟩ with
      | (s, none) => .ok ⟨0, s.out.length, s.out⟩
      | (s, some ret) => .ok ⟨ret, dlen, s.out⟩

end Decode

section Old

/-- The first loop of `base64_decode_old`. The table is read for every
character that is counted. -/
def oldCount : List UInt8 → ℕ → Run ℕ
  | [], n => .ok n
  | c :: src, n =>
    if c = 13 ∧ src.head? = some 10 then oldCount src n
    else if c = 10 then oldCount src n
    else do
      let _ ← decAt c
      oldCount src (n+1)

def oldLoop (dlen : ℤ) : List UInt8 → ℤ → ℕ → ℕ → List UInt8 → Run (List UInt8)
  | [], _, _, _, out => .ok out
  | c :: src, j, n, x, out =>
    if isBreak c then oldLoop dlen src j n x out
    else do
      let v ← decAt c
      let j := j-pad v
      let x := ((x <<< 6) ||| (v &&& 0x3F)) % 2^64
      if n+1 = 4 then do
        let out ← store dlen out (fun m => j > m) (x >>> 16) (x >>> 8) x
        oldLoop dlen src j 0 x out
      else oldLoop dlen src j (n+1) x out

def base64DecodeOld (dlen : ℤ) (src : List UInt8) : Run Result := do
  let n ← oldCount src 0
  if n = 0 then .ok ⟨0, dlen, []⟩
  else if n*6+7 ≥ 2^31 then .error .intOverflow
  else
    let n := (n*6+7) >>> 3
    if dlen < n then .ok ⟨errBufferTooSmall, n, []⟩
    else do
      let out ← oldLoop dlen src 3 0 0 []
      .ok ⟨0, out.length, out⟩

end Old

end CLearning.Base64
