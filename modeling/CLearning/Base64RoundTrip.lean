import CLearning.Base64Text

/-!
# The round trip

The encoder writes four characters for every three bytes, with pads in place of
what the last group lacks. Such a text is valid and has no line breaks, and its
bytes are the ones that were encoded.
-/

set_option autoImplicit false

namespace CLearning.Base64RoundTrip
open CLearning.Machine CLearning.Base64 CLearning.Base64Loops CLearning.Base64Text

section Text

def text : List UInt8 → List UInt8
  | c1 :: c2 :: c3 :: s => encodeGroup c1.toNat c2.toNat c3.toNat ++ text s
  | [c1, c2] => [enc (c1.toNat >>> 2), enc (((c1.toNat &&& 3) <<< 4)+(c2.toNat >>> 4)),
      enc ((c2.toNat &&& 15) <<< 2), 61]
  | [c1] => [enc (c1.toNat >>> 2), enc (((c1.toNat &&& 3) <<< 4)+(0 >>> 4)), 61, 61]
  | [] => []

theorem encodeTail_group (c1 c2 c3 : UInt8) (s : List UInt8) (i : ℕ) :
    encodeTail (c1 :: c2 :: c3 :: s) (i+3) = encodeTail s i := by
  have h1 : ∀ n, i+3+n < s.length+1+1+1 ↔ i+n < s.length := by omega
  simp only [encodeTail, List.length_cons, h1 0, h1 1, Nat.add_zero,
    show ∀ n, (c1 :: c2 :: c3 :: s).getD (n+3) 0 = s.getD n 0 from fun _ => rfl,
    show i+3+1 = i+1+3 by omega]

theorem encode_text (s : List UInt8) :
    ((List.range (s.length / 3)).flatMap fun g =>
      encodeGroup (s.getD (3*g) 0).toNat (s.getD (3*g+1) 0).toNat (s.getD (3*g+2) 0).toNat) ++
        encodeTail s (s.length / 3*3) = text s := by
  fun_induction text s with
  | case1 c1 c2 c3 s ih =>
    have hlen : (c1 :: c2 :: c3 :: s).length / 3 = s.length / 3+1 := by
      simp only [List.length_cons]
      omega
    rw [hlen, List.range_succ_eq_map, List.flatMap_cons, List.flatMap_map,
      Nat.succ_mul (s.length / 3) 3, encodeTail_group, List.append_assoc, ← ih]
    rfl
  | case2 c1 c2 => simp [encodeTail]
  | case3 c1 => simp [encodeTail]
  | case4 => rfl

theorem text_length (s : List UInt8) : (text s).length = 4*((s.length+2) / 3) := by
  fun_induction text s with
  | case1 c1 c2 c3 s ih =>
    rw [List.length_append, ih]
    simp only [encodeGroup, List.length_cons, List.length_nil]
    omega
  | case2 c1 c2 => simp
  | case3 c1 => simp
  | case4 => rfl

theorem base64EncMap_spec : ∀ n < 64, isBlank (base64EncMap.getD n 0) = false ∧
    base64EncMap.getD n 0 ≠ 61 ∧ (base64EncMap.getD n 0).toNat < 128 ∧
    val (base64EncMap.getD n 0) = n := by
  decide

/-- What the encoder writes for a number, the decoder reads as that number
modulo 64. -/
theorem enc_spec (n : ℕ) : isBlank (enc n) = false ∧ enc n ≠ 61 ∧ (enc n).toNat < 128 ∧
    val (enc n) = n % 64 := by
  rw [enc, show (0x3F : ℕ) = 2^6-1 from rfl, Nat.and_two_pow_sub_one_eq_mod]
  exact base64EncMap_spec (n % 64) (Nat.mod_lt _ (by decide))

theorem enc_good (n : ℕ) : Good 0 (enc n) := by
  obtain ⟨hb, h61, h128, hv⟩ := enc_spec n
  refine ⟨?_, h128, by omega, by rw [if_neg h61]⟩
  rintro h32
  rw [h32] at hb
  exact absurd hb (by decide)

theorem valid_enc (n : ℕ) {l : List UInt8} (h : Valid 0 l) : Valid 0 (enc n :: l) :=
  ⟨enc_good n, by rwa [if_neg (enc_spec n).2.1]⟩

theorem valid_pad : Valid 0 [61] := ⟨by decide, trivial⟩

theorem valid_pads : Valid 0 [61, 61] := ⟨by decide, by decide, trivial⟩

theorem text_valid (s : List UInt8) : Valid 0 (text s) := by
  fun_induction text s with
  | case1 c1 c2 c3 s ih => exact valid_enc _ (valid_enc _ (valid_enc _ (valid_enc _ ih)))
  | case2 c1 c2 => exact valid_enc _ (valid_enc _ (valid_enc _ valid_pad))
  | case3 c1 => exact valid_enc _ (valid_enc _ valid_pads)
  | case4 => trivial

theorem text_solid (s : List UInt8) : ∀ c ∈ text s, isBlank c = false := by
  have henc : ∀ n, isBlank (enc n) = false := fun n => (enc_spec n).1
  fun_induction text s with
  | case1 c1 c2 c3 s ih =>
    intro c hc
    rcases List.mem_append.mp hc with hc | hc
    · simp only [encodeGroup, List.mem_cons, List.not_mem_nil, or_false] at hc
      rcases hc with rfl | rfl | rfl | rfl
      · exact henc _
      · exact henc _
      · exact henc _
      · exact henc _
    · exact ih c hc
  | case2 c1 c2 => simp [henc, show isBlank 61 = false by decide]
  | case3 c1 => simp [henc, show isBlank 61 = false by decide]
  | case4 => simp

theorem aligned_solid {l : List UInt8} (h : ∀ c ∈ l, isBreak c = false) {r : ℕ} (hr : r < 4)
    (hl : (r+l.length) % 4 = 0) : Aligned r l := by
  induction l generalizing r with
  | nil =>
    rw [Aligned]
    simp only [List.length_nil] at hl
    omega
  | cons c l ih =>
    rw [aligned_cons (h c (by simp))]
    apply ih (fun d hd => h d (by simp [hd]))
    · omega
    · rw [List.length_cons] at hl
      omega

end Text

section Bytes

theorem and_eq_mod (a i : ℕ) : a &&& (2^i-1) = a % 2^i := Nat.and_two_pow_sub_one_eq_mod a i

theorem val_pad : val 61 = 64 := by decide

theorem val_first (c : ℕ) (hc : c < 256) : val (enc (c >>> 2)) = c / 4 := by
  rw [(enc_spec _).2.2.2, Nat.shiftRight_eq_div_pow]
  omega

theorem val_second (c d : ℕ) (hd : d < 256) :
    val (enc (((c &&& 3) <<< 4)+(d >>> 4))) = c % 4*16+d / 16 := by
  rw [(enc_spec _).2.2.2, show (3 : ℕ) = 2^2-1 from rfl, and_eq_mod, Nat.shiftRight_eq_div_pow,
    Nat.shiftLeft_eq]
  omega

theorem val_third (c d : ℕ) (hd : d < 256) :
    val (enc (((c &&& 15) <<< 2)+(d >>> 6))) = c % 16*4+d / 64 := by
  rw [(enc_spec _).2.2.2, show (15 : ℕ) = 2^4-1 from rfl, and_eq_mod, Nat.shiftRight_eq_div_pow,
    Nat.shiftLeft_eq]
  omega

theorem text_bytes (s : List UInt8) : groupBytes 3 (vals (text s)) = s := by
  have hofNat : ∀ c : UInt8, UInt8.ofNat c.toNat = c := fun c => UInt8.ofNat_toNat
  fun_induction text s with
  | case1 c1 c2 c3 s ih =>
    have h1 := c1.toNat_lt
    have h2 := c2.toNat_lt
    have h3 := c3.toNat_lt
    have hv : vals (encodeGroup c1.toNat c2.toNat c3.toNat ++ text s) =
        c1.toNat / 4 :: (c1.toNat % 4*16+c2.toNat / 16) :: (c2.toNat % 16*4+c3.toNat / 64) ::
          c3.toNat % 64 :: vals (text s) := by
      simp only [vals, encodeGroup, List.map_append, List.map_cons, List.map_nil, val_first _ h1,
        val_second _ _ h2, val_third _ _ h3, (enc_spec c3.toNat).2.2.2]
      rfl
    have hp : pads [c1.toNat / 4, c1.toNat % 4*16+c2.toNat / 16, c2.toNat % 16*4+c3.toNat / 64,
        c3.toNat % 64] = 0 := by
      rw [pads_quad, pad, pad, pad, pad, if_neg (by omega), if_neg (by omega), if_neg (by omega),
        if_neg (by omega)]
    have e0 : c1.toNat / 4 % 64*4+(c1.toNat % 4*16+c2.toNat / 16) / 16 = c1.toNat := by omega
    have e1 : (c1.toNat % 4*16+c2.toNat / 16) % 16*16+(c2.toNat % 16*4+c3.toNat / 64) / 4 =
        c2.toNat := by omega
    have e2 : (c2.toNat % 16*4+c3.toNat / 64) % 4*64+c3.toNat % 64 % 64 = c3.toNat := by omega
    rw [hv, groupBytes_cons, hp, ih, quad, byte0_eq _ (by omega), byte1_eq _ (by omega), byte2_eq,
      e0, e1, e2]
    simp [hofNat]
  | case2 c1 c2 =>
    have h1 := c1.toNat_lt
    have h2 := c2.toNat_lt
    have hv3 : val (enc ((c2.toNat &&& 15) <<< 2)) = c2.toNat % 16*4 := val_third c2.toNat 0 (by omega)
    have hp : pads [c1.toNat / 4, c1.toNat % 4*16+c2.toNat / 16, c2.toNat % 16*4, 64] = 1 := by
      rw [pads_quad, pad, pad, pad, pad, if_neg (by omega), if_neg (by omega), if_neg (by omega),
        if_pos rfl]
    have e0 : c1.toNat / 4 % 64*4+(c1.toNat % 4*16+c2.toNat / 16) / 16 = c1.toNat := by omega
    have e1 : (c1.toNat % 4*16+c2.toNat / 16) % 16*16+c2.toNat % 16*4 / 4 = c2.toNat := by omega
    simp only [vals, List.map_cons, List.map_nil, val_first _ h1, val_second _ _ h2, hv3, val_pad]
    rw [groupBytes_cons, hp, quad, byte0_eq _ (by omega), byte1_eq _ (by omega), e0, e1]
    simp [hofNat, groupBytes]
  | case3 c1 =>
    have h1 := c1.toNat_lt
    have hv2 : val (enc (((c1.toNat &&& 3) <<< 4)+(0 >>> 4))) = c1.toNat % 4*16 :=
      val_second c1.toNat 0 (by omega)
    have hp : pads [c1.toNat / 4, c1.toNat % 4*16, 64, 64] = 2 := by
      rw [pads_quad, pad, pad, pad, if_neg (by omega), if_neg (by omega), if_pos rfl]
    have e0 : c1.toNat / 4 % 64*4+c1.toNat % 4*16 / 16 = c1.toNat := by omega
    simp only [vals, List.map_cons, List.map_nil, val_first _ h1, hv2, val_pad]
    rw [groupBytes_cons, hp, quad, byte0_eq _ (by omega), e0]
    simp [hofNat, groupBytes]
  | case4 => rfl

end Bytes

section RoundTrip

theorem base64Encode_text {s : List UInt8} {dlen : ℤ} (h1 : 1 ≤ s.length) (h2 : s.length < 2^28)
    (hd : 4*((s.length+2) / 3 : ℕ)+1 ≤ dlen) :
    base64Encode dlen s = .ok ⟨0, (4*((s.length+2) / 3) : ℕ), text s ++ [0]⟩ := by
  have hlen := text_length s
  rw [base64Encode]
  simp only [Nat.shiftLeft_eq]
  rw [if_neg (by omega), if_neg (by omega), encode_text, hlen]
  have hn : (if s.length*2^3-s.length*2^3 / 6*6 = 2 then s.length*2^3 / 6+3
      else if s.length*2^3-s.length*2^3 / 6*6 = 4 then s.length*2^3 / 6+2
      else s.length*2^3 / 6) = 4*((s.length+2) / 3) := by
    split
    · omega
    · split <;> omega
  rw [hn, if_neg (by omega)]


theorem body_text (s : List UInt8) : body (text s) = text s := by
  rw [body]
  cases hn : (text s).length with
  | zero => rw [List.length_eq_zero_iff.mp hn, List.take_nil]
  | succ n =>
    have hlast : isBlank ((text s).getD n 0) = false := by
      rw [List.getD_eq_getElem?_getD, List.getElem?_eq_getElem (by omega)]
      exact text_solid s _ (List.getElem_mem _)
    rw [trim, if_neg (by simp only [hlast]; decide), ← hn, List.take_length]

/-- Encoding and then decoding a text gives it back, in both builds. -/
theorem base64_roundtrip (s : List UInt8) (h1 : 1 ≤ s.length) (h2 : s.length < 2^28)
    (elen dlen : ℤ) (he : 4*((s.length+2) / 3 : ℕ)+1 ≤ elen) (hd : s.length ≤ dlen) :
    ∃ dst, base64Encode elen s = .ok ⟨0, (4*((s.length+2) / 3) : ℕ), dst⟩ ∧
      ∀ checkdata, base64Decode checkdata dlen (dst.take (4*((s.length+2) / 3))) =
        .ok ⟨0, s.length, s⟩ := by
  refine ⟨text s ++ [0], base64Encode_text h1 h2 he, fun checkdata => ?_⟩
  have hlen := text_length s
  have hbytes := text_bytes s
  have hbreak : ∀ c ∈ text s, isBreak c = false := fun c hc => by
    have := text_solid s c hc
    rw [isBlank, Bool.or_eq_false_iff] at this
    exact this.2
  have hchars : chars (text s) = text s :=
    List.filter_eq_self.mpr fun c hc => by simp [hbreak c hc]
  have hal : Aligned 0 (text s) := aligned_solid hbreak (by decide) (by omega)
  have hbody : body (text s) = text s := body_text s
  rw [List.take_append_of_le_length (by omega), List.take_of_length_le (by omega)]
  have hruns : Runs dlen (text s) := ⟨by omega, by omega, by rw [hbody]; omega⟩
  cases checkdata with
  | true =>
    have hdec := (decode_checked hruns (by rw [hbody, hchars, hbytes]; exact hd)
      (by rw [hbody, hchars, hbytes]; omega)).1
    rw [hbody, hchars, hbytes] at hdec
    exact hdec (text_valid s)
  | false =>
    have hdec := decode_aligned hruns (by rw [hbody]; exact hal)
      (by rw [hbody, hchars]; exact text_valid s) (by rw [hbody, hchars, hbytes]; exact hd)
      (by rw [hbody, hchars, hbytes]; omega)
    rw [hbody, hchars, hbytes] at hdec
    exact hdec

theorem base64_roundtrip_hello :
    ∃ dst, base64Encode 9 [104, 101, 108, 108, 111] = .ok ⟨0, 8, dst⟩ ∧
      ∀ checkdata, base64Decode checkdata 5 (dst.take 8) = .ok ⟨0, 5, [104, 101, 108, 108, 111]⟩ :=
  base64_roundtrip [104, 101, 108, 108, 111] (by decide) (by decide) 9 5 (by decide) (by decide)

end RoundTrip

end CLearning.Base64RoundTrip
