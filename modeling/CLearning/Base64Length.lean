import CLearning.Base64RoundTrip

/-!
# The length of the encoding

`base64_encode` works out the room it needs from `slen << 3`, which leaves the
range of `int` from 2^28 bytes on, and writes by another count. Here the
arithmetic on `int` wraps around.
-/

set_option autoImplicit false

namespace CLearning.Base64Length
open CLearning.Machine CLearning.Base64 CLearning.Base64RoundTrip

section Source

/-- `(slen << 3) / 6` with the correction for the remainder. -/
def neededChars (slen : ℕ) : ℤ :=
  let bits := ((slen <<< 3 : ℕ) : ℤ).bmod (2^32)
  let n := bits.tdiv 6
  if bits-n*6 = 2 then n+3 else if bits-n*6 = 4 then n+2 else n

/-- `base64_encode` with `int` arithmetic modulo 2^32. -/
def base64EncodeWrap (dlen : ℤ) (src : List UInt8) : Result :=
  let slen := src.length
  if slen = 0 then ⟨0, dlen, []⟩
  else
    let n := neededChars slen
    if dlen < n+1 then ⟨errBufferTooSmall, n+1, []⟩
    else
      let n := slen / 3*3
      let whole := (List.range (slen / 3)).flatMap fun g =>
        encodeGroup (src.getD (3*g) 0).toNat (src.getD (3*g+1) 0).toNat (src.getD (3*g+2) 0).toNat
      let text := whole ++ encodeTail src n
      ⟨0, (text.length : ℤ).bmod (2^32), text ++ [0]⟩

end Source

/-- The call refuses the buffer, writes nothing and tells the length needed, or it
stays within the buffer and tells the number of characters. -/
def Honours (dlen : ℤ) (src : List UInt8) (r : Result) : Prop :=
  r.ret = errBufferTooSmall ∧ r.dst = [] ∧ r.dlen = (text src).length+1 ∨
    r.ret = 0 ∧ r.dst.length ≤ dlen ∧ r.dlen = (text src).length

variable {dlen : ℤ} {src : List UInt8}

theorem encodeWrap_eq (h : src ≠ []) : base64EncodeWrap dlen src =
    if dlen < neededChars src.length+1 then
      ⟨errBufferTooSmall, neededChars src.length+1, []⟩
    else ⟨0, ((text src).length : ℤ).bmod (2^32), text src ++ [0]⟩ := by
  have h0 : src.length ≠ 0 := fun h0 => h (List.length_eq_zero_iff.mp h0)
  rw [base64EncodeWrap]
  dsimp only
  rw [if_neg h0, encode_text]

theorem bmod_int {x : ℤ} (h₀ : 0 ≤ x) (h₁ : x < 2147483648) : x.bmod (2^32) = x := by
  have hpow : (2^32 : ℕ) = 4294967296 := by decide
  rw [hpow, Int.bmod_def]
  split <;> omega

theorem bmod_int_lt (x : ℤ) : x.bmod (2^32) < 2147483648 := by
  have hpow : (2^32 : ℕ) = 4294967296 := by decide
  rw [hpow, Int.bmod_def]
  split <;> omega

theorem bits_eq {slen : ℕ} (h : slen < 2^28) :
    ((slen <<< 3 : ℕ) : ℤ).bmod (2^32) = 8*slen := by
  have hshift : slen <<< 3 = slen*8 := Nat.shiftLeft_eq slen 3
  rw [hshift, bmod_int (by omega) (by omega)]
  omega

theorem Honours.served {n : ℤ} (hn : n = (text src).length) (hd : (text src).length+1 ≤ dlen) :
    Honours dlen src ⟨0, n, text src ++ [0]⟩ := by
  refine Or.inr ⟨rfl, ?_, hn⟩
  rw [List.length_append, List.length_singleton]
  exact hd

theorem neededChars_bits {slen : ℕ} {bits : ℤ}
    (h : ((slen <<< 3 : ℕ) : ℤ).bmod (2^32) = bits) : neededChars slen =
    if bits-bits.tdiv 6*6 = 2 then bits.tdiv 6+3
    else if bits-bits.tdiv 6*6 = 4 then bits.tdiv 6+2 else bits.tdiv 6 := by
  subst h
  rfl

theorem neededChars_eq {slen : ℕ} (h : slen < 2^28) : neededChars slen = 4*((slen+2) / 3) := by
  rw [neededChars_bits (bits_eq h), Int.tdiv_eq_ediv_of_nonneg (by omega)]
  split_ifs <;> omega

theorem neededChars_lt {slen : ℕ} (h : 2^28 ≤ slen) :
    neededChars slen < (4*((slen+2) / 3) : ℕ) := by
  have hbits := bmod_int_lt ((slen <<< 3 : ℕ) : ℤ)
  rw [neededChars_bits rfl]
  generalize ((slen <<< 3 : ℕ) : ℤ).bmod (2^32) = bits at hbits
  have hdiv := Int.mul_tdiv_add_tmod bits 6
  have hmod := Int.tmod_lt_of_pos bits (b := 6) (by decide)
  have hmod' := Int.lt_tmod_of_pos bits (b := 6) (by decide)
  split_ifs <;> omega

theorem encode_honours_iff (src : List UInt8) (dlen : ℤ) (hd : 0 ≤ dlen) (hd' : dlen < 2^31)
    (hs : src.length < 2^31) : Honours dlen src (base64EncodeWrap dlen src) ↔
      (src = [] → dlen = 0) ∧ (2^28 ≤ src.length → 4*((src.length+2) / 3)+1 ≤ dlen) := by
  by_cases hnil : src = []
  · subst hnil
    have hrun : base64EncodeWrap dlen [] = ⟨0, dlen, []⟩ := rfl
    rw [hrun]
    constructor
    · rintro (⟨h, -⟩ | ⟨-, -, h⟩)
      · cases h
      · exact ⟨fun _ => h, fun h => absurd h (by decide)⟩
    · intro h
      exact Or.inr ⟨rfl, hd, h.1 rfl⟩
  · have htext := text_length src
    rw [encodeWrap_eq hnil]
    by_cases hlong : 2^28 ≤ src.length
    · have hlt := neededChars_lt hlong
      split_ifs with hroom
      · constructor
        · rintro (⟨-, -, h⟩ | ⟨h, -⟩)
          · dsimp only at h
            omega
          · cases h
        · intro h
          have := h.2 hlong
          omega
      · constructor
        · rintro (⟨h, -⟩ | ⟨-, h, -⟩)
          · cases h
          · rw [List.length_append, List.length_singleton] at h
            exact ⟨fun h => absurd h hnil, fun _ => by omega⟩
        · intro h
          have := h.2 hlong
          exact Honours.served (bmod_int (by omega) (by omega)) (by omega)
    · rw [neededChars_eq (by omega)]
      apply iff_of_true
      · split_ifs with hroom
        · refine Or.inl ⟨rfl, rfl, ?_⟩
          dsimp only
          omega
        · exact Honours.served (bmod_int (by omega) (by omega)) (by omega)
      · exact ⟨fun h => absurd h hnil, fun h => absurd h hlong⟩

/-- The text "hi" fits in five bytes. -/
theorem encode_honours_hi : Honours 5 [104, 105] (base64EncodeWrap 5 [104, 105]) :=
  (encode_honours_iff [104, 105] 5 (by decide) (by decide) (by decide)).mpr
    ⟨by decide, by decide⟩

/-- The encoding of nothing leaves the length of the buffer as it was. -/
theorem encode_dishonours : ¬Honours 8 [] (base64EncodeWrap 8 []) := by
  rintro (⟨h, -⟩ | ⟨-, -, h⟩)
  · cases h
  · cases h

end CLearning.Base64Length
