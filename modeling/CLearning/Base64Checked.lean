import CLearning.Base64RoundTrip
import CLearning.Base64Agree

/-!
# What the checking decoder accepts

With `_BASE64_CHECKDATA` the decoder looks at every character and counts the
pads, but not at where in a group the text ends. The texts that are base64 are
given by their groups, and their bytes by the places of the characters in the
alphabet.
-/

set_option autoImplicit false

namespace CLearning.Base64Checked
open CLearning.Machine CLearning.Base64 CLearning.Base64Loops CLearning.Base64Text
open CLearning.Base64RoundTrip CLearning.Base64Agree

section Grammar

/-- Groups of four characters of the alphabet; in the last one the last two may be
pads. -/
inductive Complete : List UInt8 → Prop
  | nil : Complete []
  | group {c0 c1 c2 c3 : UInt8} {l : List UInt8} (h0 : c0 ∈ base64EncMap)
      (h1 : c1 ∈ base64EncMap) (h2 : c2 ∈ base64EncMap) (h3 : c3 ∈ base64EncMap)
      (h : Complete l) : Complete (c0 :: c1 :: c2 :: c3 :: l)
  | onePad {c0 c1 c2 : UInt8} (h0 : c0 ∈ base64EncMap) (h1 : c1 ∈ base64EncMap)
      (h2 : c2 ∈ base64EncMap) : Complete [c0, c1, c2, 61]
  | twoPads {c0 c1 : UInt8} (h0 : c0 ∈ base64EncMap) (h1 : c1 ∈ base64EncMap) :
      Complete [c0, c1, 61, 61]

def sextet (c : UInt8) : ℕ := if c = 61 then 0 else base64EncMap.idxOf c

def octets (c0 c1 c2 c3 : UInt8) : List UInt8 :=
  let n := sextet c0*2^18+sextet c1*2^12+sextet c2*2^6+sextet c3
  [n / 2^16, n / 2^8 % 2^8, n % 2^8].map UInt8.ofNat

def standard : List UInt8 → List UInt8
  | c0 :: c1 :: c2 :: c3 :: l =>
    (octets c0 c1 c2 c3).take (3-[c0, c1, c2, c3].count 61) ++ standard l
  | _ => []

end Grammar

variable {c c0 c1 c2 c3 : UInt8} {l src : List UInt8} {dlen : ℤ}

theorem alphabet_val : ∀ c ∈ base64EncMap,
    val c = base64EncMap.idxOf c ∧ val c < 64 ∧ c ≠ 61 ∧ Good 0 c := by
  decide +kernel

theorem alphabet_mem : ∀ n < 128, base64DecMap.getD n 127 < 64 → UInt8.ofNat n ∈ base64EncMap := by
  decide +kernel

theorem mem_alphabet (h : val c < 64) : c ∈ base64EncMap := by
  by_cases hlt : c.toNat < 128
  · have := alphabet_mem c.toNat hlt h
    rwa [UInt8.ofNat_toNat] at this
  · have hlen : base64DecMap.length ≤ c.toNat := Nat.le_of_not_lt hlt
    rw [val, List.getD_eq_getElem?_getD, List.getElem?_eq_none hlen] at h
    exact absurd h (by decide)

theorem sextet_alphabet (h : c ∈ base64EncMap) : sextet c = val c := by
  rw [sextet, if_neg (alphabet_val c h).2.2.1, (alphabet_val c h).1]

theorem sextet_pad : sextet 61 = 0 := rfl

theorem pad_alphabet (h : c ∈ base64EncMap) : pad (val c) = 0 := by
  have := (alphabet_val c h).2.1
  rw [pad, if_neg (by omega)]

theorem count_alphabet (h : c ∈ base64EncMap) : (c :: l).count 61 = l.count 61 :=
  List.count_cons_of_ne (alphabet_val c h).2.2.1

theorem bytes_eq {t0 t1 t2 t3 : ℕ} (h0 : t0 < 64) (h1 : t1 < 64) (h2 : t2 < 64) (h3 : t3 < 64) :
    byte0 t0 t1 = (t0*2^18+t1*2^12+t2*2^6+t3) / 2^16 ∧
    byte1 t1 t2 = (t0*2^18+t1*2^12+t2*2^6+t3) / 2^8 % 2^8 ∧
    byte2 t2 t3 = (t0*2^18+t1*2^12+t2*2^6+t3) % 2^8 := by
  rw [byte0_eq t0 h1, byte1_eq t1 h2, byte2_eq]
  omega

theorem take_two (x y z : ℕ) :
    ([x, y, z].map UInt8.ofNat).take 2 = [UInt8.ofNat x, UInt8.ofNat y] := rfl

theorem take_one (x y z : ℕ) : ([x, y, z].map UInt8.ofNat).take 1 = [UInt8.ofNat x] := rfl

/-- The bytes the decoder writes for a complete text. -/
theorem groupBytes_standard (h : Complete l) : groupBytes 3 (vals l) = standard l := by
  induction h with
  | nil => rfl
  | @group c0 c1 c2 c3 l h0 h1 h2 h3 h ih =>
    obtain ⟨hb0, hb1, hb2⟩ := bytes_eq (alphabet_val c0 h0).2.1 (alphabet_val c1 h1).2.1
      (alphabet_val c2 h2).2.1 (alphabet_val c3 h3).2.1
    have hpads : pads [val c0, val c1, val c2, val c3] = 0 := by
      rw [pads_quad, pad_alphabet h0, pad_alphabet h1, pad_alphabet h2, pad_alphabet h3]
    have hvals : vals (c0 :: c1 :: c2 :: c3 :: l) =
        val c0 :: val c1 :: val c2 :: val c3 :: vals l := rfl
    rw [hvals, groupBytes_cons, hpads, ih, standard, count_alphabet h0, count_alphabet h1,
      count_alphabet h2, count_alphabet h3, quad, octets, sextet_alphabet h0, sextet_alphabet h1,
      sextet_alphabet h2, sextet_alphabet h3, hb0, hb1, hb2, List.count_nil]
  | @onePad c0 c1 c2 h0 h1 h2 =>
    obtain ⟨hb0, hb1, -⟩ := bytes_eq (alphabet_val c0 h0).2.1 (alphabet_val c1 h1).2.1
      (alphabet_val c2 h2).2.1 (show 0 < 64 by decide)
    have hpads : pads [val c0, val c1, val c2, val 61] = 1 := by
      rw [pads_quad, pad_alphabet h0, pad_alphabet h1, pad_alphabet h2]
      rfl
    have hcount : 3-[(61 : UInt8)].count 61 = 2 := rfl
    have hvals : vals [c0, c1, c2, 61] = [val c0, val c1, val c2, val 61] := rfl
    rw [hvals, groupBytes_cons, hpads, standard, count_alphabet h0, count_alphabet h1,
      count_alphabet h2, quad, octets, sextet_alphabet h0, sextet_alphabet h1, sextet_alphabet h2,
      sextet_pad, hb0, hb1, hcount, show 3-1 = 2 from rfl, take_two, take_two]
    rfl
  | @twoPads c0 c1 h0 h1 =>
    obtain ⟨hb0, -⟩ := bytes_eq (alphabet_val c0 h0).2.1 (alphabet_val c1 h1).2.1
      (show 0 < 64 by decide) (show 0 < 64 by decide)
    have hpads : pads [val c0, val c1, val 61, val 61] = 2 := by
      rw [pads_quad, pad_alphabet h0, pad_alphabet h1]
      rfl
    have hcount : 3-[(61 : UInt8), 61].count 61 = 1 := rfl
    have hvals : vals [c0, c1, 61, 61] = [val c0, val c1, val 61, val 61] := rfl
    rw [hvals, groupBytes_cons, hpads, standard, count_alphabet h0, count_alphabet h1, quad, octets,
      sextet_alphabet h0, sextet_alphabet h1, sextet_pad, hb0, hcount,
      show 3-2 = 1 from rfl, take_one, take_one]
    rfl

theorem valid_alphabet (hc : c ∈ base64EncMap) (h : Valid 0 l) : Valid 0 (c :: l) := by
  obtain ⟨-, -, hne, hgood⟩ := alphabet_val c hc
  refine ⟨hgood, ?_⟩
  rwa [if_neg hne]

theorem Complete.valid (h : Complete l) : Valid 0 l := by
  induction h with
  | nil => trivial
  | group h0 h1 h2 h3 _ ih =>
    exact valid_alphabet h0 (valid_alphabet h1 (valid_alphabet h2 (valid_alphabet h3 ih)))
  | onePad h0 h1 h2 => exact valid_alphabet h0 (valid_alphabet h1 (valid_alphabet h2 valid_pad))
  | twoPads h0 h1 => exact valid_alphabet h0 (valid_alphabet h1 Base64RoundTrip.valid_pads)

theorem Complete.length (h : Complete l) : l.length % 4 = 0 := by
  induction h with
  | nil => rfl
  | group _ _ _ _ _ ih =>
    simp only [List.length_cons]
    omega
  | onePad => simp
  | twoPads => simp

theorem val_good {k : ℕ} (hg : Good k c) (hc : c ≠ 61) : val c < 64 := by
  rcases val_cases c with h | h | h
  · exact absurd h.2 hc
  · exact h.2
  · exact absurd h.2 hg.2.2.1

/-- Of a valid text of whole groups only the last two characters can be pads. -/
theorem complete_of_valid : ∀ l : List UInt8, Valid 0 l → l.length % 4 = 0 → Complete l
  | [], _, _ => .nil
  | [_], _, hlen => absurd hlen (by simp)
  | [_, _], _, hlen => absurd hlen (by simp)
  | [_, _, _], _, hlen => absurd hlen (by simp)
  | c0 :: c1 :: c2 :: c3 :: l, h, hlen => by
    have hrest : l.length % 4 = 0 := by
      simp only [List.length_cons] at hlen
      omega
    obtain ⟨h0, hv⟩ := valid_data h (by simp)
    obtain ⟨h1, hv⟩ := valid_data hv (by simp)
    obtain ⟨hg2, hv2⟩ := hv
    by_cases hc2 : c2 = 61
    · rw [if_pos hc2] at hv2
      have hshort := valid_after hv2 (by decide) (by decide)
      rw [List.length_cons] at hshort
      obtain rfl : l = [] := List.length_eq_zero_iff.mp (by omega)
      have hc3 : c3 = 61 := by
        by_contra hne
        have := hv2.1.2.2.2
        rw [if_neg hne] at this
        exact absurd this (by decide)
      rw [hc2, hc3]
      exact .twoPads (mem_alphabet h0) (mem_alphabet h1)
    · rw [if_neg hc2] at hv2
      have h2 : val c2 < 64 := val_good hg2 hc2
      obtain ⟨hg3, hv3⟩ := hv2
      by_cases hc3 : c3 = 61
      · rw [if_pos hc3] at hv3
        have hshort := valid_after hv3 (by decide) (by decide)
        obtain rfl : l = [] := List.length_eq_zero_iff.mp (by omega)
        rw [hc3]
        exact .onePad (mem_alphabet h0) (mem_alphabet h1) (mem_alphabet h2)
      · rw [if_neg hc3] at hv3
        have h3 : val c3 < 64 := val_good hg3 hc3
        exact .group (mem_alphabet h0) (mem_alphabet h1) (mem_alphabet h2) (mem_alphabet h3)
          (complete_of_valid l hv3 hrest)

/-- Whatever the call accepts is base64, and it writes its bytes. -/
def Honest (dlen : ℤ) (src : List UInt8) : Prop :=
  ∃ r, base64Decode true dlen src = .ok r ∧ (r.ret = 0 → Complete (chars (body src)) ∧
    r.dst = standard (chars (body src)) ∧ r.dlen = r.dst.length)

theorem chars_body_one (h : (body src).length = 1) : (chars (body src)).length = 1 := by
  have htrim : trim src src.length = 1 := by rwa [body_length] at h
  have hlast := trim_last src (n := src.length) (by omega)
  rw [htrim] at hlast
  obtain ⟨c, hc⟩ := List.length_eq_one_iff.mp h
  have hmem : src.getD 0 0 = c := by
    have htake : (src.take 1).getD 0 0 = c := by
      rw [body, htrim] at hc
      rw [hc]
      rfl
    rw [← htake]
    cases src <;> rfl
  rw [Nat.sub_self, hmem] at hlast
  have hbreak : isBreak c = false := by
    rw [isBlank, Bool.or_eq_false_iff] at hlast
    exact hlast.2
  rw [hc, chars_cons hbreak]
  rfl

/-- The checks are enough exactly where more than one byte is left and the accepted
characters fill their groups. -/
theorem checked_honest_iff (src : List UInt8) (dlen : ℤ) (h3 : 3 < src.length)
    (hsmall : src.length < 2^31) (hd : src.length ≤ dlen) : Honest dlen src ↔
      (body src).length ≠ 1 ∧
        (Valid 0 (chars (body src)) → (chars (body src)).length % 4 = 0) := by
  have hle := accepted_le src
  by_cases h1 : (body src).length = 1
  · apply iff_of_false
    · rintro ⟨r, hrun, hret⟩
      rw [decode_one true (by omega) h3 h1] at hrun
      cases hrun
      have hlen := (hret rfl).1.length
      rw [chars_body_one h1] at hlen
      exact absurd hlen (by decide)
    · exact fun h => h.1 h1
  · obtain ⟨hv, hnv⟩ := @decode_checked dlen src ⟨by omega, h3, h1⟩
      (by rw [← accepted]; omega) (by rw [← accepted]; omega)
    constructor
    · rintro ⟨r, hrun, hret⟩
      refine ⟨h1, fun hvalid => ?_⟩
      rw [hv hvalid] at hrun
      cases hrun
      exact (hret rfl).1.length
    · rintro ⟨-, hwhole⟩
      by_cases hvalid : Valid 0 (chars (body src))
      · have hcomplete := complete_of_valid _ hvalid (hwhole hvalid)
        exact ⟨_, hv hvalid, fun _ => ⟨hcomplete, groupBytes_standard hcomplete, rfl⟩⟩
      · obtain ⟨r, hrun, hret⟩ := hnv hvalid
        refine ⟨r, hrun, fun hzero => ?_⟩
        rw [hret] at hzero
        exact absurd hzero (by decide)

/-- "QUJD" -/
theorem checked_honest_abc : Honest 4 [81, 85, 74, 68] :=
  (checked_honest_iff [81, 85, 74, 68] 4 (by decide) (by decide) (by decide)).mpr
    ⟨by decide, fun _ => by decide⟩

/-- "QUJDQ" is accepted. -/
theorem checked_dishonest : ¬Honest 5 [81, 85, 74, 68, 81] := by
  rintro ⟨r, hrun, hret⟩
  have hdec : base64Decode true 5 [81, 85, 74, 68, 81] = .ok ⟨0, 3, [65, 66, 67]⟩ := by decide +kernel
  rw [hdec] at hrun
  cases hrun
  exact absurd (hret rfl).1.length (by decide)

end CLearning.Base64Checked
