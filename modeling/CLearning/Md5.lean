import Mathlib.Algebra.GroupWithZero.Nat
import Mathlib.Data.Nat.Notation
import Mathlib.Data.List.Basic
import Mathlib.Logic.Function.Basic

/-!
# MD5

`md5.c` keeps four state words, a bit count in two words and a buffer for a
partial block. A message arrives in chunks. The lines of `MD5Transform` are a
table of macro calls on four registers, in the order of the source.
-/

set_option autoImplicit false

namespace CLearning.Md5

abbrev Word := BitVec 32

def funF (x y z : Word) : Word := (x &&& y) ||| (~~~x &&& z)
def funG (x y z : Word) : Word := (x &&& z) ||| (y &&& ~~~z)
def funH (x y z : Word) : Word := x ^^^ y ^^^ z
def funI (x y z : Word) : Word := y ^^^ (x ||| ~~~z)

def rotateLeft (x : Word) (n : ℕ) : Word := (x <<< n) ||| (x >>> (32-n))

inductive Reg where
  | a
  | b
  | c
  | d
  deriving DecidableEq

inductive Fn where
  | FF
  | GG
  | HH
  | II
  deriving DecidableEq

def Fn.fn : Fn → Word → Word → Word → Word
  | .FF => funF
  | .GG => funG
  | .HH => funH
  | .II => funI

structure Line where
  fn : Fn
  a : Reg
  b : Reg
  c : Reg
  d : Reg
  k : ℕ
  s : ℕ
  ac : Word
  deriving DecidableEq

abbrev Regs := Reg → Word

def Line.exec (l : Line) (x : ℕ → Word) (r : Regs) : Regs :=
  let r := Function.update r l.a (r l.a+(l.fn.fn (r l.b) (r l.c) (r l.d)+x l.k+l.ac))
  let r := Function.update r l.a (rotateLeft (r l.a) l.s)
  Function.update r l.a (r l.a+r l.b)

def transformLines : List Line := [
  ⟨.FF, .a, .b, .c, .d, 0, 7, 0xd76aa478⟩, ⟨.FF, .d, .a, .b, .c, 1, 12, 0xe8c7b756⟩,
  ⟨.FF, .c, .d, .a, .b, 2, 17, 0x242070db⟩, ⟨.FF, .b, .c, .d, .a, 3, 22, 0xc1bdceee⟩,
  ⟨.FF, .a, .b, .c, .d, 4, 7, 0xf57c0faf⟩, ⟨.FF, .d, .a, .b, .c, 5, 12, 0x4787c62a⟩,
  ⟨.FF, .c, .d, .a, .b, 6, 17, 0xa8304613⟩, ⟨.FF, .b, .c, .d, .a, 7, 22, 0xfd469501⟩,
  ⟨.FF, .a, .b, .c, .d, 8, 7, 0x698098d8⟩, ⟨.FF, .d, .a, .b, .c, 9, 12, 0x8b44f7af⟩,
  ⟨.FF, .c, .d, .a, .b, 10, 17, 0xffff5bb1⟩, ⟨.FF, .b, .c, .d, .a, 11, 22, 0x895cd7be⟩,
  ⟨.FF, .a, .b, .c, .d, 12, 7, 0x6b901122⟩, ⟨.FF, .d, .a, .b, .c, 13, 12, 0xfd987193⟩,
  ⟨.FF, .c, .d, .a, .b, 14, 17, 0xa679438e⟩, ⟨.FF, .b, .c, .d, .a, 15, 22, 0x49b40821⟩,
  ⟨.GG, .a, .b, .c, .d, 1, 5, 0xf61e2562⟩, ⟨.GG, .d, .a, .b, .c, 6, 9, 0xc040b340⟩,
  ⟨.GG, .c, .d, .a, .b, 11, 14, 0x265e5a51⟩, ⟨.GG, .b, .c, .d, .a, 0, 20, 0xe9b6c7aa⟩,
  ⟨.GG, .a, .b, .c, .d, 5, 5, 0xd62f105d⟩, ⟨.GG, .d, .a, .b, .c, 10, 9, 0x2441453⟩,
  ⟨.GG, .c, .d, .a, .b, 15, 14, 0xd8a1e681⟩, ⟨.GG, .b, .c, .d, .a, 4, 20, 0xe7d3fbc8⟩,
  ⟨.GG, .a, .b, .c, .d, 9, 5, 0x21e1cde6⟩, ⟨.GG, .d, .a, .b, .c, 14, 9, 0xc33707d6⟩,
  ⟨.GG, .c, .d, .a, .b, 3, 14, 0xf4d50d87⟩, ⟨.GG, .b, .c, .d, .a, 8, 20, 0x455a14ed⟩,
  ⟨.GG, .a, .b, .c, .d, 13, 5, 0xa9e3e905⟩, ⟨.GG, .d, .a, .b, .c, 2, 9, 0xfcefa3f8⟩,
  ⟨.GG, .c, .d, .a, .b, 7, 14, 0x676f02d9⟩, ⟨.GG, .b, .c, .d, .a, 12, 20, 0x8d2a4c8a⟩,
  ⟨.HH, .a, .b, .c, .d, 5, 4, 0xfffa3942⟩, ⟨.HH, .d, .a, .b, .c, 8, 11, 0x8771f681⟩,
  ⟨.HH, .c, .d, .a, .b, 11, 16, 0x6d9d6122⟩, ⟨.HH, .b, .c, .d, .a, 14, 23, 0xfde5380c⟩,
  ⟨.HH, .a, .b, .c, .d, 1, 4, 0xa4beea44⟩, ⟨.HH, .d, .a, .b, .c, 4, 11, 0x4bdecfa9⟩,
  ⟨.HH, .c, .d, .a, .b, 7, 16, 0xf6bb4b60⟩, ⟨.HH, .b, .c, .d, .a, 10, 23, 0xbebfbc70⟩,
  ⟨.HH, .a, .b, .c, .d, 13, 4, 0x289b7ec6⟩, ⟨.HH, .d, .a, .b, .c, 0, 11, 0xeaa127fa⟩,
  ⟨.HH, .c, .d, .a, .b, 3, 16, 0xd4ef3085⟩, ⟨.HH, .b, .c, .d, .a, 6, 23, 0x4881d05⟩,
  ⟨.HH, .a, .b, .c, .d, 9, 4, 0xd9d4d039⟩, ⟨.HH, .d, .a, .b, .c, 12, 11, 0xe6db99e5⟩,
  ⟨.HH, .c, .d, .a, .b, 15, 16, 0x1fa27cf8⟩, ⟨.HH, .b, .c, .d, .a, 2, 23, 0xc4ac5665⟩,
  ⟨.II, .a, .b, .c, .d, 0, 6, 0xf4292244⟩, ⟨.II, .d, .a, .b, .c, 7, 10, 0x432aff97⟩,
  ⟨.II, .c, .d, .a, .b, 14, 15, 0xab9423a7⟩, ⟨.II, .b, .c, .d, .a, 5, 21, 0xfc93a039⟩,
  ⟨.II, .a, .b, .c, .d, 12, 6, 0x655b59c3⟩, ⟨.II, .d, .a, .b, .c, 3, 10, 0x8f0ccc92⟩,
  ⟨.II, .c, .d, .a, .b, 10, 15, 0xffeff47d⟩, ⟨.II, .b, .c, .d, .a, 1, 21, 0x85845dd1⟩,
  ⟨.II, .a, .b, .c, .d, 8, 6, 0x6fa87e4f⟩, ⟨.II, .d, .a, .b, .c, 15, 10, 0xfe2ce6e0⟩,
  ⟨.II, .c, .d, .a, .b, 6, 15, 0xa3014314⟩, ⟨.II, .b, .c, .d, .a, 13, 21, 0x4e0811a1⟩,
  ⟨.II, .a, .b, .c, .d, 4, 6, 0xf7537e82⟩, ⟨.II, .d, .a, .b, .c, 11, 10, 0xbd3af235⟩,
  ⟨.II, .c, .d, .a, .b, 2, 15, 0x2ad7d2bb⟩, ⟨.II, .b, .c, .d, .a, 9, 21, 0xeb86d391⟩]

def decodeWord (input : List UInt8) (j : ℕ) : Word :=
  BitVec.ofNat 32 ((input.getD j 0).toNat ||| ((input.getD (j+1) 0).toNat <<< 8) |||
    ((input.getD (j+2) 0).toNat <<< 16) ||| ((input.getD (j+3) 0).toNat <<< 24))

def md5Decode (input : List UInt8) : ℕ → Word := fun i => decodeWord input (4*i)

def encodeWord (w : ℕ) : List UInt8 :=
  [UInt8.ofNat (w &&& 0xff), UInt8.ofNat ((w >>> 8) &&& 0xff), UInt8.ofNat ((w >>> 16) &&& 0xff),
    UInt8.ofNat ((w >>> 24) &&& 0xff)]

def md5Encode (input : List ℕ) : List UInt8 := input.flatMap encodeWord

def md5Transform (state : Regs) (block : List UInt8) : Regs :=
  let x := md5Decode block
  let r := transformLines.foldl (fun r l => l.exec x r) state
  fun i => state i+r i

structure Md5Ctx where
  count0 : ℕ
  count1 : ℕ
  state : Regs
  buffer : List UInt8

def initState : Regs
  | .a => 0x67452301
  | .b => 0xEFCDAB89
  | .c => 0x98BADCFE
  | .d => 0x10325476

/-- `MD5Init`; the buffer keeps what memory held. -/
def md5Init (junk : List UInt8) : Md5Ctx := ⟨0, 0, initState, junk⟩

def splice (buffer : List UInt8) (index : ℕ) (bytes : List UInt8) : List UInt8 :=
  buffer.take index ++ bytes ++ buffer.drop (index+bytes.length)

/-- The loop over whole blocks of the input, from `i` on; `n` bounds the number
of rounds. It yields the state and the final `i`. -/
def transformBlocks (input : List UInt8) : ℕ → ℕ → Regs → Regs × ℕ
  | 0, i, state => (state, i)
  | n+1, i, state =>
    if i+64 ≤ input.length then
      transformBlocks input n (i+64) (md5Transform state ((input.drop i).take 64))
    else (state, i)

def md5Update (context : Md5Ctx) (input : List UInt8) : Md5Ctx :=
  let inputlen := input.length
  let index := (context.count0 >>> 3) &&& 0x3F
  let partlen := 64-index
  let count0 := (context.count0+inputlen*8 % 2^32) % 2^32
  let count1 := if count0 < inputlen*8 % 2^32 then (context.count1+1) % 2^32 else context.count1
  let count1 := (count1+inputlen / 2^29) % 2^32
  if inputlen ≥ partlen then
    let buffer := splice context.buffer index (input.take partlen)
    let r := transformBlocks input inputlen partlen (md5Transform context.state buffer)
    ⟨count0, count1, r.1, splice buffer 0 (input.drop r.2)⟩
  else ⟨count0, count1, context.state, splice context.buffer index input⟩

def padding : List UInt8 := 0x80 :: List.replicate 63 0

def md5Final (context : Md5Ctx) : List UInt8 :=
  let index := (context.count0 >>> 3) &&& 0x3F
  let padlen := if index < 56 then 56-index else 120-index
  let bits := md5Encode [context.count0, context.count1]
  let context := md5Update context (padding.take padlen)
  let context := md5Update context bits
  md5Encode ([Reg.a, .b, .c, .d].map fun i => (context.state i).toNat)

def md5Lower : ℕ := 2

def hexDigit (lower : Bool) (n : ℕ) : Char :=
  if n < 10 then Char.ofNat (48+n) else Char.ofNat ((if lower then 87 else 55)+n)

def hexByte (lower : Bool) (b : UInt8) : List Char :=
  [hexDigit lower (b.toNat / 16), hexDigit lower (b.toNat % 16)]

def getMd5 (junk data : List UInt8) (flag : ℕ) : List Char :=
  let md5 := md5Update (md5Init junk) data
  (md5Final md5).flatMap (hexByte (flag &&& md5Lower ≠ 0))

end CLearning.Md5
