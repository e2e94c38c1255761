import CLearning.Md5

/-!
# The digest of RFC 1321

The message is padded to whole blocks and the blocks are compressed one after
the other. Fed in chunks, the source computes this digest.
-/

set_option autoImplicit false

namespace CLearning.Md5Rfc
open CLearning.Md5

section Rfc

def rfcT : Array Word := #[
  0xd76aa478, 0xe8c7b756, 0x242070db, 0xc1bdceee,
  0xf57c0faf, 0x4787c62a, 0xa8304613, 0xfd469501,
  0x698098d8, 0x8b44f7af, 0xffff5bb1, 0x895cd7be,
  0x6b901122, 0xfd987193, 0xa679438e, 0x49b40821,
  0xf61e2562, 0xc040b340, 0x265e5a51, 0xe9b6c7aa,
  0xd62f105d, 0x2441453, 0xd8a1e681, 0xe7d3fbc8,
  0x21e1cde6, 0xc33707d6, 0xf4d50d87, 0x455a14ed,
  0xa9e3e905, 0xfcefa3f8, 0x676f02d9, 0x8d2a4c8a,
  0xfffa3942, 0x8771f681, 0x6d9d6122, 0xfde5380c,
  0xa4beea44, 0x4bdecfa9, 0xf6bb4b60, 0xbebfbc70,
  0x289b7ec6, 0xeaa127fa, 0xd4ef3085, 0x4881d05,
  0xd9d4d039, 0xe6db99e5, 0x1fa27cf8, 0xc4ac5665,
  0xf4292244, 0x432aff97, 0xab9423a7, 0xfc93a039,
  0x655b59c3, 0x8f0ccc92, 0xffeff47d, 0x85845dd1,
  0x6fa87e4f, 0xfe2ce6e0, 0xa3014314, 0x4e0811a1,
  0xf7537e82, 0xbd3af235, 0x2ad7d2bb, 0xeb86d391]

def rfcShift (i : ℕ) : ℕ :=
  #[7, 12, 17, 22, 5, 9, 14, 20, 4, 11, 16, 23, 6, 10, 15, 21].getD (i / 16*4+i % 4) 0

def rfcIndex (i : ℕ) : ℕ :=
  if i < 16 then i else if i < 32 then (5*i+1) % 16 else if i < 48 then (3*i+5) % 16
  else 7*i % 16

def rfcFn (i : ℕ) : Word → Word → Word → Word := fun x y z =>
  if i < 16 then (x &&& y) ||| (~~~x &&& z)
  else if i < 32 then (x &&& z) ||| (y &&& ~~~z)
  else if i < 48 then x ^^^ y ^^^ z
  else y ^^^ (x ||| ~~~z)

structure Quad where
  A : Word
  B : Word
  C : Word
  D : Word

def rfcStep (X : ℕ → Word) (q : Quad) (i : ℕ) : Quad :=
  ⟨q.D, q.B+(q.A+rfcFn i q.B q.C q.D+X (rfcIndex i)+rfcT.getD i 0).rotateLeft (rfcShift i), q.B, q.C⟩

def rfcWord (block : List UInt8) (k : ℕ) : Word :=
  BitVec.ofNat 32 ((block.getD (4*k) 0).toNat+2^8*(block.getD (4*k+1) 0).toNat+
    2^16*(block.getD (4*k+2) 0).toNat+2^24*(block.getD (4*k+3) 0).toNat)

def rfcBlock (q : Quad) (block : List UInt8) : Quad :=
  let r := (List.range 64).foldl (rfcStep (rfcWord block)) q
  ⟨q.A+r.A, q.B+r.B, q.C+r.C, q.D+r.D⟩

def rfcBlocks (q : Quad) (message : List UInt8) (n : ℕ) : Quad :=
  (List.range n).foldl (fun q i => rfcBlock q ((message.drop (64*i)).take 64)) q

def littleEndian (n width : ℕ) : List UInt8 :=
  (List.range width).map fun i => UInt8.ofNat (n / 256^i)

def rfcPad (message : List UInt8) : List UInt8 :=
  message ++ 0x80 :: List.replicate ((119-message.length % 64) % 64) 0 ++
    littleEndian (8*message.length) 8

def rfcInit : Quad := ⟨0x67452301, 0xEFCDAB89, 0x98BADCFE, 0x10325476⟩

def rfcDigest (message : List UInt8) : List UInt8 :=
  let q := rfcBlocks rfcInit (rfcPad message) ((rfcPad message).length / 64)
  littleEndian q.A.toNat 4 ++ littleEndian q.B.toNat 4 ++ littleEndian q.C.toNat 4 ++
    littleEndian q.D.toNat 4

end Rfc

section Transform

def regA (i : ℕ) : Reg := if i % 4 = 0 then .a else if i % 4 = 1 then .d else if i % 4 = 2 then .c else .b
def regB (i : ℕ) : Reg := regA (i+3)
def regC (i : ℕ) : Reg := regA (i+2)
def regD (i : ℕ) : Reg := regA (i+1)

def fnOf (i : ℕ) : Fn := if i < 16 then .FF else if i < 32 then .GG else if i < 48 then .HH else .II

def lineOf (i : ℕ) : Line :=
  ⟨fnOf i, regA i, regB i, regC i, regD i, rfcIndex i, rfcShift i, rfcT.getD i 0⟩

theorem transformLines_eq : transformLines = (List.range 64).map lineOf := by decide +kernel

theorem fnOf_fn (i : ℕ) : (fnOf i).fn = rfcFn i := by
  funext x y z
  simp only [fnOf, rfcFn]
  split_ifs <;> rfl

theorem rotateLeft_eq (x : Word) {n : ℕ} (h : n < 32) : Md5.rotateLeft x n = x.rotateLeft n := by
  rw [Md5.rotateLeft, BitVec.rotateLeft_def, Nat.mod_eq_of_lt h]

theorem rfcShift_lt : ∀ i < 64, rfcShift i < 32 := by decide

def view (r : Regs) (i : ℕ) : Quad := ⟨r (regA i), r (regB i), r (regC i), r (regD i)⟩

theorem reg_ne : ∀ i < 64, regB i ≠ regA i ∧ regC i ≠ regA i ∧ regD i ≠ regA i := by decide

theorem regA_add_four (i : ℕ) : regA (i+4) = regA i := by simp [regA]

/-- A macro call on the registers is a step, after which the registers are read
in the order of the next step. -/
theorem view_exec (x : ℕ → Word) (r : Regs) {i : ℕ} (hi : i < 64) :
    view ((lineOf i).exec x r) (i+1) = rfcStep x (view r i) i := by
  obtain ⟨hb, hc, hd⟩ := reg_ne i hi
  have ha : regB (i+1) = regA i := regA_add_four i
  rw [view, ha, show regA (i+1) = regD i from rfl, show regC (i+1) = regB i from rfl,
    show regD (i+1) = regC i from rfl]
  simp only [Line.exec, lineOf, Function.update_self, Function.update_of_ne hb,
    Function.update_of_ne hc, Function.update_of_ne hd, rfcStep, view, fnOf_fn,
    rotateLeft_eq _ (rfcShift_lt i hi), Quad.mk.injEq, true_and, and_true]
  rw [BitVec.add_comm (r (regB i)), BitVec.add_assoc, BitVec.add_assoc (r (regA i)),
    BitVec.add_assoc (r (regA i)), BitVec.add_assoc (rfcFn i _ _ _)]

theorem view_fold (x : ℕ → Word) (r : Regs) {n : ℕ} (hn : n ≤ 64) :
    view (((List.range n).map lineOf).foldl (fun r l => l.exec x r) r) n =
      (List.range n).foldl (rfcStep x) (view r 0) := by
  induction n with
  | zero => rfl
  | succ n ih =>
    rw [List.range_succ, List.map_append, List.foldl_append, List.foldl_append, List.map_cons,
      List.map_nil, List.foldl_cons, List.foldl_nil, view_exec x _ (by omega), ih (by omega)]
    rfl

theorem or_shift (a b c d : ℕ) (ha : a < 2^8) (hb : b < 2^8) (hc : c < 2^8) :
    a ||| (b <<< 8) ||| (c <<< 16) ||| (d <<< 24) = a+2^8*b+2^16*c+2^24*d := by
  have hor : ∀ x y i, x < 2^i → x ||| (y <<< i) = x+2^i*y := fun x y i hx => by
    rw [Nat.or_comm, ← Nat.shiftLeft_add_eq_or_of_lt hx, Nat.shiftLeft_eq, Nat.mul_comm,
      Nat.add_comm]
  rw [hor a b 8 ha, hor _ c 16 (by omega), hor _ d 24 (by omega)]

theorem md5Decode_eq (block : List UInt8) : md5Decode block = rfcWord block := by
  funext k
  rw [md5Decode, decodeWord, rfcWord, or_shift _ _ _ _ (UInt8.toNat_lt _) (UInt8.toNat_lt _)
    (UInt8.toNat_lt _)]

def quadOf (r : Regs) : Quad := ⟨r .a, r .b, r .c, r .d⟩

theorem md5Transform_eq (state : Regs) (block : List UInt8) :
    quadOf (md5Transform state block) = rfcBlock (quadOf state) block := by
  have h := view_fold (rfcWord block) state (n := 64) (by omega)
  rw [← transformLines_eq] at h
  rw [rfcBlock, show quadOf state = view state 0 from rfl, ← h, md5Transform, md5Decode_eq]
  rfl

end Transform

section Blocks

theorem rfcBlocks_succ (q : Quad) (m : List UInt8) (n : ℕ) :
    rfcBlocks q m (n+1) = rfcBlock (rfcBlocks q m n) ((m.drop (64*n)).take 64) := by
  rw [rfcBlocks, List.range_succ, List.foldl_append]
  rfl

theorem rfcBlocks_append (q : Quad) (m m' : List UInt8) {n : ℕ} (h : 64*n ≤ m.length) :
    rfcBlocks q (m ++ m') n = rfcBlocks q m n := by
  induction n with
  | zero => simp [rfcBlocks]
  | succ n ih =>
    rw [rfcBlocks_succ, rfcBlocks_succ, ih (by omega), List.drop_append_of_le_length (by omega),
      List.take_append_of_le_length (by rw [List.length_drop]; omega)]

/-- The context has taken in the message `m`: its bits are counted, its whole
blocks are compressed and the rest is in the buffer. -/
structure Absorbed (context : Md5Ctx) (m : List UInt8) : Prop where
  count0 : context.count0 = 8*m.length % 2^32
  count1 : context.count1 = 8*m.length / 2^32 % 2^32
  state : quadOf context.state = rfcBlocks rfcInit m (m.length / 64)
  size : context.buffer.length = 64
  buffer : context.buffer.take (m.length % 64) = m.drop (64*(m.length / 64))

theorem md5Init_absorbed {junk : List UInt8} (h : junk.length = 64) : Absorbed (md5Init junk) [] :=
  ⟨by simp [md5Init], by simp [md5Init], by simp [md5Init, rfcBlocks, quadOf, initState, rfcInit], h,
    by simp⟩

theorem index_eq {context : Md5Ctx} {m : List UInt8} (h : Absorbed context m) :
    (context.count0 >>> 3) &&& 0x3F = m.length % 64 := by
  rw [h.count0, Nat.shiftRight_eq_div_pow, show (0x3F : ℕ) = 2^6-1 from rfl,
    Nat.and_two_pow_sub_one_eq_mod]
  omega

theorem counts_eq (l n : ℕ) :
    (8*l % 2^32+n*8 % 2^32) % 2^32 = 8*(l+n) % 2^32 ∧
    ((if (8*l % 2^32+n*8 % 2^32) % 2^32 < n*8 % 2^32 then (8*l / 2^32 % 2^32+1) % 2^32
      else 8*l / 2^32 % 2^32)+n / 2^29) % 2^32 = 8*(l+n) / 2^32 % 2^32 := by
  constructor
  · omega
  · split <;> omega

theorem splice_length {buffer bytes : List UInt8} {index : ℕ} (h : index+bytes.length ≤ buffer.length) :
    (splice buffer index bytes).length = buffer.length := by
  simp only [splice, List.length_append, List.length_take, List.length_drop]
  omega

theorem splice_take {buffer bytes : List UInt8} {index : ℕ} (h : index ≤ buffer.length) :
    (splice buffer index bytes).take (index+bytes.length) = buffer.take index ++ bytes := by
  have hlen : (buffer.take index ++ bytes).length = index+bytes.length := by
    rw [List.length_append, List.length_take, Nat.min_eq_left h]
  rw [splice, List.take_append_of_le_length (Nat.le_of_eq hlen.symm),
    List.take_of_length_le (Nat.le_of_eq hlen)]

/-- The loop compresses the blocks that start at `i` in the input, which lies at
`64 * b` in the message. -/
theorem transformBlocks_spec (m input : List UInt8) (n i b : ℕ) (state : Regs)
    (hm : m.drop (64*b) = input.drop i) (hi : i ≤ input.length) (hb : 64*b ≤ m.length)
    (hn : input.length ≤ i+64*n) (hs : quadOf state = rfcBlocks rfcInit m b) :
    quadOf (transformBlocks input n i state).1 = rfcBlocks rfcInit m (m.length / 64) ∧
      input.drop (transformBlocks input n i state).2 = m.drop (64*(m.length / 64)) := by
  have hlen : m.length-64*b = input.length-i := by
    have := congrArg List.length hm
    simpa using this
  induction n generalizing i b state with
  | zero =>
    have hb' : m.length / 64 = b := by omega
    rw [transformBlocks, hb']
    exact ⟨hs, hm.symm⟩
  | succ n ih =>
    rw [transformBlocks]
    split
    · rename_i hblock
      refine ih (i+64) (b+1) _ ?_ hblock (by omega) (by omega) ?_ (by omega)
      · rw [Nat.mul_succ, ← List.drop_drop, hm, List.drop_drop]
      · rw [md5Transform_eq, hs, rfcBlocks_succ, hm]
    · have hb' : m.length / 64 = b := by omega
      rw [hb']
      exact ⟨hs, hm.symm⟩

/-- An update takes in its input. -/
theorem md5Update_absorbed {context : Md5Ctx} {m : List UInt8} (h : Absorbed context m)
    (input : List UInt8) : Absorbed (md5Update context input) (m ++ input) := by
  obtain ⟨hc0, hc1⟩ := counts_eq m.length input.length
  have hsize := h.size
  have hmod : m.length % 64 < 64 := Nat.mod_lt _ (by decide)
  have hm : 64*(m.length / 64)+m.length % 64 = m.length := Nat.div_add_mod _ _
  simp only [md5Update, index_eq h]
  simp only [h.count0, h.count1]
  by_cases hfill : input.length ≥ 64-m.length % 64
  · rw [if_pos hfill]
    set part := input.take (64-m.length % 64) with hpart
    have hpl : part.length = 64-m.length % 64 := by
      rw [hpart, List.length_take]
      omega
    set buffer := splice context.buffer (m.length % 64) part with hbuffer
    have hbl : buffer.length = 64 := by
      rw [hbuffer, splice_length (by omega), hsize]
    have hbuf : buffer = ((m ++ input).drop (64*(m.length / 64))).take 64 := by
      have htake : buffer.take (m.length % 64+part.length) = _ := splice_take (by omega)
      rw [hpl, show m.length % 64+(64-m.length % 64) = 64 by omega,
        List.take_of_length_le (by omega), h.buffer] at htake
      rw [htake, List.drop_append_of_le_length (by omega), List.take_append,
        List.take_of_length_le (by rw [List.length_drop]; omega), hpart]
      congr 2
      rw [List.length_drop]
      omega
    have hstate : quadOf (md5Transform context.state buffer) =
        rfcBlocks rfcInit (m ++ input) (m.length / 64+1) := by
      rw [md5Transform_eq, h.state, rfcBlocks_succ, rfcBlocks_append _ _ _ (by omega), hbuf]
    have halign : (m ++ input).drop (64*(m.length / 64+1)) = input.drop (64-m.length % 64) := by
      rw [show 64*(m.length / 64+1) = m.length+(64-m.length % 64) by omega, ← List.drop_drop,
        List.drop_left]
    obtain ⟨hq, hd⟩ := transformBlocks_spec (m ++ input) input input.length (64-m.length % 64)
      (m.length / 64+1) (md5Transform context.state buffer) halign hfill
      (by rw [List.length_append]; omega) (by omega) hstate
    have hrest : (input.drop (transformBlocks input input.length (64-m.length % 64)
        (md5Transform context.state buffer)).2).length = (m ++ input).length % 64 := by
      rw [hd, List.length_drop]
      omega
    refine ⟨?_, ?_, hq, ?_, ?_⟩
    · rw [List.length_append, ← hc0]
    · rw [List.length_append, ← hc1]
    · rw [splice_length (by rw [hrest, hbl]; omega), hbl]
    · have htake := @splice_take buffer (input.drop (transformBlocks input input.length
        (64-m.length % 64) (md5Transform context.state buffer)).2) 0 (by omega)
      rw [Nat.zero_add, hrest] at htake
      rw [htake, List.take_zero, List.nil_append, hd]
  · rw [if_neg hfill]
    have hq : (m ++ input).length / 64 = m.length / 64 := by
      rw [List.length_append]
      omega
    have hr : (m ++ input).length % 64 = m.length % 64+input.length := by
      rw [List.length_append]
      omega
    refine ⟨?_, ?_, ?_, ?_, ?_⟩
    · rw [List.length_append, ← hc0]
    · rw [List.length_append, ← hc1]
    · rw [hq, rfcBlocks_append _ _ _ (by omega), h.state]
    · rw [splice_length (by omega), hsize]
    · rw [hr, splice_take (by omega), h.buffer, hq, List.drop_append_of_le_length (by omega)]

end Blocks

section Digest

theorem encodeWord_eq (w : ℕ) : encodeWord w = littleEndian w 4 := by
  have hbyte : ∀ n, UInt8.ofNat (n &&& 0xff) = UInt8.ofNat n := fun n => by
    rw [show (0xff : ℕ) = 2^8-1 from rfl, Nat.and_two_pow_sub_one_eq_mod]
    apply UInt8.toNat_inj.mp
    simp
  simp [encodeWord, littleEndian, hbyte, List.range_succ, Nat.shiftRight_eq_div_pow]

theorem littleEndian_mod (n : ℕ) : littleEndian (n % 2^32) 4 = littleEndian n 4 := by
  refine List.map_congr_left fun i hi => UInt8.toNat_inj.mp ?_
  have hi : i < 4 := List.mem_range.mp hi
  simp only [UInt8.toNat_ofNat']
  rcases (show i = 0 ∨ i = 1 ∨ i = 2 ∨ i = 3 by omega) with rfl | rfl | rfl | rfl <;> omega

theorem littleEndian_split (n : ℕ) :
    littleEndian n 8 = littleEndian n 4 ++ littleEndian (n / 2^32) 4 := by
  simp only [littleEndian, show (8 : ℕ) = 4+4 from rfl, List.range_add, List.map_append, List.map_map]
  congr 1
  refine List.map_congr_left fun i _ => ?_
  rw [Function.comp, Nat.pow_add, ← Nat.div_div_eq_div_mul, show (256 : ℕ)^4 = 2^32 by decide]

theorem md5Encode_count {context : Md5Ctx} {m : List UInt8} (h : Absorbed context m) :
    md5Encode [context.count0, context.count1] = littleEndian (8*m.length) 8 := by
  rw [md5Encode, List.flatMap_cons, List.flatMap_cons, List.flatMap_nil, encodeWord_eq, encodeWord_eq,
    h.count0, h.count1, littleEndian_mod, littleEndian_mod, List.append_nil, ← littleEndian_split]

theorem md5Encode_state (state : Regs) :
    md5Encode ([Reg.a, .b, .c, .d].map fun i => (state i).toNat) =
      littleEndian (quadOf state).A.toNat 4 ++ littleEndian (quadOf state).B.toNat 4 ++
        littleEndian (quadOf state).C.toNat 4 ++ littleEndian (quadOf state).D.toNat 4 := by
  simp [md5Encode, encodeWord_eq, quadOf]

theorem padding_take {index : ℕ} (h : index < 64) :
    padding.take (if index < 56 then 56-index else 120-index) =
      0x80 :: List.replicate ((119-index) % 64) 0 := by
  have hpos : (if index < 56 then 56-index else 120-index) = (119-index) % 64+1 := by
    split <;> omega
  rw [hpos, padding, List.take_succ_cons, List.take_replicate]
  congr 2
  omega

theorem md5Final_eq {context : Md5Ctx} {m : List UInt8} (h : Absorbed context m) :
    md5Final context = rfcDigest m := by
  have hpad := md5Update_absorbed (md5Update_absorbed h
    (padding.take (if m.length % 64 < 56 then 56-m.length % 64 else 120-m.length % 64)))
    (md5Encode [context.count0, context.count1])
  rw [md5Encode_count h, padding_take (Nat.mod_lt _ (by decide))] at hpad
  rw [md5Final]
  simp only [index_eq h]
  rw [md5Encode_state, md5Encode_count h, padding_take (Nat.mod_lt _ (by decide)), hpad.state]
  rfl

theorem md5Update_chunks {context : Md5Ctx} {m : List UInt8} (h : Absorbed context m)
    (chunks : List (List UInt8)) :
    Absorbed (chunks.foldl md5Update context) (m ++ chunks.flatten) := by
  induction chunks generalizing context m with
  | nil => simpa using h
  | cons c cs ih =>
    rw [List.foldl_cons, List.flatten_cons, ← List.append_assoc]
    exact ih (md5Update_absorbed h c)

def hexText (lower : Bool) (bytes : List UInt8) : List Char :=
  bytes.flatMap fun b => [b.toNat / 16, b.toNat % 16].map fun n =>
    (if lower then "0123456789abcdef" else "0123456789ABCDEF").toList.getD n '0'

theorem hexDigit_eq : ∀ lower, ∀ n < 16, hexDigit lower n =
    (if lower then "0123456789abcdef" else "0123456789ABCDEF").toList.getD n '0' := by
  decide

theorem hexByte_eq (lower : Bool) (bytes : List UInt8) :
    bytes.flatMap (hexByte lower) = hexText lower bytes := by
  refine List.flatMap_congr fun b _ => ?_
  have hb : b.toNat < 256 := b.toNat_lt
  rw [hexByte, hexDigit_eq lower _ (by omega), hexDigit_eq lower _ (by omega)]
  rfl

/-- However a message is cut into chunks, the source computes its digest, and
`get_md5` prints it. The index of `md5Update` does not wrap, so chunks of at most
`INT_MAX` bytes are meant; past 64 bits of length both sides count modulo `2 ^ 64`. -/
theorem md5_rfc (junk : List UInt8) (hjunk : junk.length = 64) :
    (∀ chunks : List (List UInt8),
      md5Final (chunks.foldl md5Update (md5Init junk)) = rfcDigest chunks.flatten) ∧
    (∀ chunks chunks' : List (List UInt8), chunks.flatten = chunks'.flatten →
      md5Final (chunks.foldl md5Update (md5Init junk)) =
        md5Final (chunks'.foldl md5Update (md5Init junk))) ∧
    ∀ data flag, getMd5 junk data flag = hexText (flag &&& md5Lower ≠ 0) (rfcDigest data) := by
  have hrun : ∀ chunks : List (List UInt8),
      md5Final (chunks.foldl md5Update (md5Init junk)) = rfcDigest chunks.flatten :=
    fun chunks => md5Final_eq (by simpa using md5Update_chunks (md5Init_absorbed hjunk) chunks)
  refine ⟨hrun, fun chunks chunks' h => by rw [hrun, hrun, h], fun data flag => ?_⟩
  have hone := hrun [data]
  rw [List.foldl_cons, List.foldl_nil, List.flatten_singleton] at hone
  rw [getMd5, hone, hexByte_eq]

theorem md5_rfc_abc :
    md5Final ([[97], [], [98, 99]].foldl md5Update (md5Init (List.replicate 64 0))) =
      rfcDigest [97, 98, 99] :=
  (md5_rfc (List.replicate 64 0) (by decide)).1 [[97], [], [98, 99]]

/-- A test of the document. -/
example : hexText true (rfcDigest [97, 98, 99]) = "900150983cd24fb0d6963f7d28e17f72".toList := by
  decide +kernel

end Digest

end CLearning.Md5Rfc
