import CLearning.Machine
import CLearning.Md5Rfc

/-!
# The length of an update

In `MD5Update` the index into the input is an `unsigned int`; here it wraps
around, and a read outside the input is a fault. The blocks that are handed to
`MD5Transform` are recorded.
-/

set_option autoImplicit false

namespace CLearning.Md5Length
open CLearning.Machine CLearning.Md5 CLearning.Md5Rfc

section Source

def readInput (input : List UInt8) (i n : ℕ) : Run (List UInt8) :=
  if i+n ≤ input.length then .ok ((input.drop i).take n) else .error .wildAccess

/-- `memcpy` into the buffer of 64 bytes. -/
def fillBuffer (buffer : List UInt8) (index : ℕ) (bytes : List UInt8) : Run (List UInt8) :=
  if index+bytes.length ≤ 64 then .ok (splice buffer index bytes) else .error .wildAccess

def blockLoop (input : List UInt8) :
    ℕ → ℕ → Regs → List (List UInt8) → Run (ℕ × Regs × List (List UInt8))
  | 0, _, _, _ => .error .outOfFuel
  | fuel+1, i, state, blocks =>
    if (i+64) % 2^32 ≤ input.length then do
      let block ← readInput input i 64
      blockLoop input fuel ((i+64) % 2^32) (md5Transform state block) (blocks ++ [block])
    else .ok (i, state, blocks)

def fillLevel (context : Md5Ctx) : ℕ := (context.count0 >>> 3) &&& 0x3F

/-- `MD5Update` with the blocks it hands to `MD5Transform`. -/
def md5UpdateWrap (fuel : ℕ) (context : Md5Ctx) (input : List UInt8) :
    Run (Md5Ctx × List (List UInt8)) := do
  let inputlen := input.length
  let index := fillLevel context
  let partlen := 64-index
  let count0 := (context.count0+inputlen*8 % 2^32) % 2^32
  let count1 := if count0 < inputlen*8 % 2^32 then (context.count1+1) % 2^32 else context.count1
  let count1 := (count1+inputlen / 2^29) % 2^32
  if inputlen ≥ partlen then do
    let part ← readInput input 0 partlen
    let buffer ← fillBuffer context.buffer index part
    let r ← blockLoop input fuel partlen (md5Transform context.state buffer) [buffer]
    let rest ← readInput input r.1 (usub 32 inputlen r.1)
    let buffer ← fillBuffer buffer 0 rest
    .ok (⟨count0, count1, r.2.1, buffer⟩, r.2.2)
  else do
    let rest ← readInput input 0 inputlen
    let buffer ← fillBuffer context.buffer index rest
    .ok (⟨count0, count1, context.state, buffer⟩, [])

end Source

/-- The call ends; the blocks it hands over and the bytes it keeps are those of the
old partial block followed by the input. -/
def Absorbs (context : Md5Ctx) (input : List UInt8) : Prop :=
  ∃ fuel context' blocks, md5UpdateWrap fuel context input = .ok (context', blocks) ∧
    blocks.length = (fillLevel context+input.length) / 64 ∧
    (∀ b ∈ blocks, b.length = 64) ∧
    context'.state = blocks.foldl md5Transform context.state ∧
    context'.buffer.length = 64 ∧
    blocks.flatten ++ context'.buffer.take ((fillLevel context+input.length) % 64) =
      context.buffer.take (fillLevel context) ++ input

variable {context : Md5Ctx} {input : List UInt8} {fuel i n : ℕ} {state : Regs}
  {blocks : List (List UInt8)}

theorem fillLevel_lt (context : Md5Ctx) : fillLevel context < 64 := by
  have : fillLevel context ≤ 0x3F := Nat.and_le_right
  omega

theorem readInput_ok (h : i+n ≤ input.length) :
    readInput input i n = .ok ((input.drop i).take n) :=
  if_pos h

/-- The loop goes through the whole blocks while the index stays below 2^32. -/
theorem blockLoop_ok (fuel i : ℕ) (state : Regs) (blocks : List (List UInt8))
    (hi : i+64*n ≤ input.length) (hend : input.length < i+64*(n+1)) (hwrap : i+64*(n+1) < 2^32)
    (hfuel : n < fuel) :
    ∃ bs, blockLoop input fuel i state blocks =
        .ok (i+64*n, bs.foldl md5Transform state, blocks ++ bs) ∧
      bs.length = n ∧ (∀ b ∈ bs, b.length = 64) ∧
      bs.flatten ++ input.drop (i+64*n) = input.drop i := by
  induction n generalizing fuel i state blocks with
  | zero =>
    obtain ⟨fuel, rfl⟩ := Nat.exists_eq_add_of_le' hfuel
    refine ⟨[], ?_, rfl, by simp, rfl⟩
    rw [Nat.succ_eq_add_one, Nat.zero_add, blockLoop, if_neg, List.append_nil]
    · rfl
    · rw [Nat.mod_eq_of_lt (by omega)]
      omega
  | succ n ih =>
    obtain ⟨fuel, rfl⟩ := Nat.exists_eq_add_of_le' (Nat.one_le_of_lt hfuel)
    have hmod : (i+64) % 2^32 = i+64 := Nat.mod_eq_of_lt (by omega)
    obtain ⟨bs, hrun, hlen, hall, hflat⟩ :=
      ih fuel (i+64) (md5Transform state ((input.drop i).take 64))
        (blocks ++ [(input.drop i).take 64]) (by omega) (by omega) (by omega) (by omega)
    have hnext : i+64+64*n = i+64*(n+1) := by omega
    rw [hnext] at hrun hflat
    refine ⟨(input.drop i).take 64 :: bs, ?_, ?_, ?_, ?_⟩
    · rw [blockLoop, hmod, if_pos (by omega), readInput_ok (by omega), ok_bind, hrun,
        List.foldl_cons, List.append_assoc]
      rfl
    · rw [List.length_cons, hlen]
    · refine List.forall_mem_cons.mpr ⟨?_, hall⟩
      rw [List.length_take, List.length_drop]
      omega
    · rw [List.flatten_cons, List.append_assoc, hflat, ← List.drop_drop, List.take_append_drop]

theorem blockLoop_wild (hi : i+64*n ≤ input.length) (hlen : input.length < 2^32)
    (hend : input.length < i+64*(n+1)) (hwrap : 2^32 ≤ i+64*(n+1))
    (r : ℕ × Regs × List (List UInt8)) : blockLoop input fuel i state blocks ≠ .ok r := by
  intro hrun
  induction n generalizing fuel i state blocks with
  | zero =>
    cases fuel with
    | zero => cases hrun
    | succ fuel =>
      rw [blockLoop, if_pos (by omega), readInput, if_neg (by omega)] at hrun
      cases hrun
  | succ n ih =>
    cases fuel with
    | zero => cases hrun
    | succ fuel =>
      have hmod : (i+64) % 2^32 = i+64 := Nat.mod_eq_of_lt (by omega)
      rw [blockLoop, hmod, if_pos (by omega), readInput_ok (by omega), ok_bind] at hrun
      exact ih (by omega) (by omega) (by omega) hrun

theorem fillBuffer_ok {buffer bytes : List UInt8} {index : ℕ} (h : index+bytes.length ≤ 64) :
    fillBuffer buffer index bytes = .ok (splice buffer index bytes) :=
  if_pos h

theorem absorbs_short (hsize : context.buffer.length = 64)
    (h : input.length < 64-fillLevel context) : Absorbs context input := by
  have hrun := md5UpdateWrap.eq_1 0 context input
  have hread : readInput input 0 input.length = .ok input := by
    rw [readInput_ok (by omega), List.drop_zero, List.take_length]
  rw [if_neg (by omega), hread, ok_bind, fillBuffer_ok (by omega), ok_bind] at hrun
  refine ⟨0, _, [], hrun, ?_, by simp, rfl, ?_, ?_⟩
  · rw [Nat.div_eq_of_lt (by omega)]
    rfl
  · exact (splice_length (by omega)).trans hsize
  · rw [Nat.mod_eq_of_lt (by omega)]
    exact splice_take (by omega)

/-- The buffer is filled up, and the loop goes through the rest. -/
theorem absorbs_long (hsize : context.buffer.length = 64) (hlen : input.length < 2^32)
    (h : 64-fillLevel context ≤ input.length)
    (hwrap : 64-fillLevel context+64*((fillLevel context+input.length) / 64) < 2^32) :
    Absorbs context input := by
  have hlt := fillLevel_lt context
  set index := fillLevel context with hindex
  set part := input.take (64-index) with hpart
  have hpl : part.length = 64-index := by
    rw [hpart, List.length_take]
    omega
  set buffer := splice context.buffer index part with hbuffer
  have hbl : buffer.length = 64 := by
    rw [hbuffer, splice_length (by omega), hsize]
  have hbuf : buffer = context.buffer.take index ++ part := by
    have htake : buffer.take (index+part.length) = _ := splice_take (by omega)
    rwa [List.take_of_length_le (by omega)] at htake
  obtain ⟨n, hn⟩ : ∃ n, (index+input.length) / 64 = n+1 :=
    Nat.exists_eq_add_of_le' (by omega)
  obtain ⟨bs, hloop, hbs, hall, hflat⟩ := @blockLoop_ok input n (n+1) (64-index)
    (md5Transform context.state buffer) [buffer] (by omega) (by omega) (by omega) (by omega)
  set i := 64-index+64*n with hi
  have hrest : usub 32 input.length i = input.length-i := usub_of_le (by omega) hlen
  have hdrop : readInput input i (input.length-i) = .ok (input.drop i) := by
    rw [readInput_ok (by omega), List.take_of_length_le (Nat.le_of_eq List.length_drop)]
  have hdl : (input.drop i).length = (index+input.length) % 64 := by
    rw [List.length_drop]
    omega
  have hread : readInput input 0 (64-index) = .ok part := by
    rw [readInput_ok (by omega), List.drop_zero]
  have hrun := md5UpdateWrap.eq_1 (n+1) context input
  rw [← hindex, if_pos h, hread, ok_bind, fillBuffer_ok (by omega), ok_bind, ← hbuffer, hloop,
    ok_bind] at hrun
  dsimp only at hrun
  rw [hrest, hdrop, ok_bind, fillBuffer_ok (by omega), ok_bind] at hrun
  refine ⟨n+1, _, _, hrun, ?_, ?_, rfl, ?_, ?_⟩
  · rw [List.length_append, hbs, List.length_singleton]
    omega
  · exact List.forall_mem_cons.mpr ⟨hbl, hall⟩
  · exact (splice_length (by omega)).trans hbl
  · have htake : (splice buffer 0 (input.drop i)).take (0+(input.drop i).length) = _ :=
      splice_take (Nat.zero_le _)
    rw [Nat.zero_add, hdl, List.take_zero, List.nil_append] at htake
    dsimp only
    rw [htake, List.flatten_append, List.flatten_singleton, List.append_assoc, hflat, hbuf,
      List.append_assoc, hpart, List.take_append_drop]

theorem not_absorbs (hlen : input.length < 2^32) (h : 64-fillLevel context ≤ input.length)
    (hwrap : 2^32 ≤ 64-fillLevel context+64*((fillLevel context+input.length) / 64)) :
    ¬Absorbs context input := by
  have hlt := fillLevel_lt context
  obtain ⟨n, hn⟩ : ∃ n, (fillLevel context+input.length) / 64 = n+1 :=
    Nat.exists_eq_add_of_le' (by omega)
  rintro ⟨fuel, context', blocks, hrun, -⟩
  rw [md5UpdateWrap.eq_1, if_pos h] at hrun
  obtain ⟨part, -, hrun⟩ := bind_ok_iff.mp hrun
  obtain ⟨buffer, -, hrun⟩ := bind_ok_iff.mp hrun
  obtain ⟨r, hloop, -⟩ := bind_ok_iff.mp hrun
  exact blockLoop_wild (n := n) (by omega) hlen (by omega) (by omega) r hloop

theorem blockLoop_transformBlocks (hshort : input.length+64 < 2^32) (hi : i ≤ input.length)
    (hend : input.length < i+64*(n+1)) (state : Regs) (blocks : List (List UInt8)) :
    ∃ blocks', blockLoop input (n+1) i state blocks = .ok ((transformBlocks input n i state).2,
        (transformBlocks input n i state).1, blocks') ∧
      (transformBlocks input n i state).2 ≤ input.length ∧
      input.length < (transformBlocks input n i state).2+64 := by
  have hmod : (i+64) % 2^32 = i+64 := Nat.mod_eq_of_lt (by omega)
  induction n generalizing i state blocks with
  | zero =>
    refine ⟨blocks, ?_, hi, hend⟩
    rw [blockLoop, hmod, if_neg (by omega)]
    rfl
  | succ n ih =>
    rw [blockLoop, hmod, transformBlocks]
    by_cases hmore : i+64 ≤ input.length
    · rw [if_pos hmore, if_pos hmore, readInput_ok hmore, ok_bind]
      exact ih (by omega) (by omega) _ _ (Nat.mod_eq_of_lt (by omega))
    · rw [if_neg hmore, if_neg hmore]
      exact ⟨blocks, rfl, hi, by omega⟩

/-- On a chunk that ends well below 2^32 the update is the one without a wrap. -/
theorem md5UpdateWrap_update (hshort : input.length+64 < 2^32) :
    ∃ blocks, md5UpdateWrap (input.length+1) context input =
      .ok (md5Update context input, blocks) := by
  have hlt := fillLevel_lt context
  rw [md5UpdateWrap, md5Update]
  change ∃ blocks, (if input.length ≥ 64-fillLevel context then _ else _) =
    Except.ok (if input.length ≥ 64-fillLevel context then _ else _, blocks)
  by_cases h : input.length ≥ 64-fillLevel context
  · have hpart : ((input.drop 0).take (64-fillLevel context)).length = 64-fillLevel context := by
      rw [List.length_take, List.length_drop]
      omega
    rw [if_pos h, if_pos h, readInput_ok (by omega), ok_bind, fillBuffer_ok (by omega), ok_bind,
      List.drop_zero]
    obtain ⟨blocks, hloop, hle, hend⟩ := blockLoop_transformBlocks (n := input.length) hshort h
      (by omega) (md5Transform context.state (splice context.buffer (fillLevel context)
        (input.take (64-fillLevel context)))) [splice context.buffer (fillLevel context)
        (input.take (64-fillLevel context))]
    rw [hloop, ok_bind]
    dsimp only
    rw [usub_of_le hle (by omega), readInput_ok (by omega),
      List.take_of_length_le (Nat.le_of_eq List.length_drop), ok_bind,
      fillBuffer_ok (by rw [List.length_drop]; omega), ok_bind]
    exact ⟨blocks, rfl⟩
  · rw [if_neg h, if_neg h, readInput_ok (by omega), ok_bind, List.drop_zero, List.take_length,
      fillBuffer_ok (by omega), ok_bind]
    exact ⟨[], rfl⟩

/-- An update is right exactly for the lengths whose blocks end below 2^32. -/
theorem md5Update_absorbs_iff (context : Md5Ctx) (input : List UInt8)
    (hsize : context.buffer.length = 64) (hlen : input.length < 2^32) :
    Absorbs context input ↔ (fillLevel context = 0 → input.length < 2^32-64) ∧
      (0 < fillLevel context → fillLevel context+input.length < 2^32) := by
  have hlt := fillLevel_lt context
  by_cases hshort : input.length < 64-fillLevel context
  · apply iff_of_true (absorbs_short hsize hshort)
    constructor <;> intro <;> omega
  · by_cases hwrap : 64-fillLevel context+64*((fillLevel context+input.length) / 64) < 2^32
    · apply iff_of_true (absorbs_long hsize hlen (by omega) hwrap)
      constructor <;> intro <;> omega
    · apply iff_of_false (not_absorbs hlen (by omega) (by omega))
      intro h
      omega

/-- Three bytes for a fresh context. -/
theorem md5Update_absorbs_abc : Absorbs (md5Init (List.replicate 64 0)) [97, 98, 99] :=
  (md5Update_absorbs_iff _ _ rfl (by decide)).mpr ⟨fun _ => by decide, fun _ => by decide⟩

/-- The first length for which a fresh context fails. -/
theorem md5Update_reads_on :
    ¬Absorbs (md5Init (List.replicate 64 0)) (List.replicate (2^32-64) 0) := by
  have hlen : (List.replicate (2^32-64) (0 : UInt8)).length = 2^32-64 := List.length_replicate
  have hindex : fillLevel (md5Init (List.replicate 64 0)) = 0 := rfl
  apply not_absorbs
  · omega
  · omega
  · omega

end CLearning.Md5Length
