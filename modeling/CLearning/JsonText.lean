import CLearning.JsonPrinted
import Mathlib.Data.List.TakeWhile

/-!
# The strings of cJSON

The parser reads back what the printer escapes, and turns the UTF-16 of the
`u` escapes into the UTF-8 of the same characters.
-/

set_option autoImplicit false

namespace CLearning.Json
open CLearning.Machine CLearning.Decimal CLearning.Ledger

section Scanning

variable {c c' l : UInt8} {s t rest out ptr : Text} {n room fuel : ℕ}

theorem peek_cons (c : UInt8) (t : Text) : peek (c :: t) = .ok c := rfl

theorem countCharacters_plain (hc : c ≠ 34 ∧ c ≠ 0 ∧ c ≠ 92) (ht : t ≠ []) (h : countCharacters t = .ok n) :
    countCharacters (c :: t) = .ok (n+1) := by
  cases t with
  | nil => exact absurd rfl ht
  | cons c' t =>
    have hstop : ¬(c = 34 ∨ c = 0) := by tauto
    rw [countCharacters, if_neg hstop, if_neg hc.2.2, h]
    rfl

theorem countCharacters_escaped (h : countCharacters t = .ok n) :
    countCharacters (92 :: l :: t) = .ok (n+1) := by
  rw [countCharacters, if_neg (by decide), if_pos rfl, h]
  rfl

theorem countCharacters_quote (t : Text) : countCharacters (34 :: t) = .ok 0 := by
  cases t with
  | nil => rfl
  | cons c t => rfl

theorem copyString_quote (hroom : 0 < room) (t : Text) :
    copyString (fuel+1) (34 :: t) room = .ok ([], 34 :: t) := by
  rw [copyString, peek_cons, ok_bind, if_pos (.inl rfl), if_pos hroom]

theorem copyString_plain (hc : c ≠ 34 ∧ c ≠ 0 ∧ c ≠ 92)
    (h : copyString fuel t room = .ok (s, rest)) :
    copyString (fuel+1) (c :: t) (room+1) = .ok (c :: s, rest) := by
  have hstop : ¬(c = 34 ∨ c = 0) := by tauto
  rw [copyString, peek_cons, ok_bind, if_neg hstop, if_neg hc.2.2, ok_bind]
  simp [h]

theorem copyString_escaped (hu : unescape ptr = .ok (out, l :: t))
    (h : copyString fuel t room = .ok (s, rest)) :
    copyString (fuel+1) (92 :: ptr) (room+out.length) = .ok (out ++ s, rest) := by
  rw [copyString, peek_cons, ok_bind, if_neg (by decide), if_pos rfl, List.tail_cons, hu, ok_bind]
  simp [h]

end Scanning

section Hexadecimal

variable {n : ℕ} {src : Text}

inductive Hex4 (n : ℕ) : Text → Prop
  | digits {c₁ c₂ c₃ c₄ : UInt8} (h₁ : hexDigit c₁ = some (n/4096%16))
      (h₂ : hexDigit c₂ = some (n/256%16)) (h₃ : hexDigit c₃ = some (n/16%16))
      (h₄ : hexDigit c₄ = some (n%16)) : Hex4 n [c₁, c₂, c₃, c₄]

theorem hexDigit_hexChar {k : ℕ} (hk : k < 16) : hexDigit (hexChar k) = some k := by
  revert k
  decide +kernel

theorem hex4_hexChar (n : ℕ) :
    Hex4 n [hexChar (n/4096%16), hexChar (n/256%16), hexChar (n/16%16), hexChar (n%16)] :=
  have hmod := fun k => hexDigit_hexChar (Nat.mod_lt k (by decide : 0 < 16))
  .digits (hmod _) (hmod _) (hmod _) (hmod _)

theorem hexDigit_ne {c : UInt8} (hc : (hexDigit c).isSome) : c ≠ 34 ∧ c ≠ 0 ∧ c ≠ 92 := by
  refine ⟨?_, ?_, ?_⟩
  · rintro rfl
    exact absurd hc (by decide)
  · rintro rfl
    exact absurd hc (by decide)
  · rintro rfl
    exact absurd hc (by decide)

theorem parseHex_hexDigit {c : UInt8} {d h : ℕ} (hc : hexDigit c = some d) (k : ℕ) (t : Text) :
    parseHex (k+1) h (c :: t) = parseHex k (h*16+d) t := by
  rw [parseHex, hc, Nat.shiftLeft_eq]

theorem parseHex4_hex4 (hx : Hex4 n src) (hn : n < 65536) (t : Text) :
    parseHex4 (src ++ t) = .ok n := by
  cases hx with
  | digits h₁ h₂ h₃ h₄ =>
    rw [parseHex4]
    simp only [List.cons_append, List.nil_append]
    rw [parseHex_hexDigit h₁, parseHex_hexDigit h₂, parseHex_hexDigit h₃, parseHex_hexDigit h₄,
      parseHex]
    congr 1
    omega

end Hexadecimal

section Escapes

variable {c : UInt8} {src : Text} {n : ℕ}

theorem unescape_short {l : UInt8} (h : shortEscape c = some l) (t : Text) :
    unescape (l :: t) = .ok ([c], l :: t) := by
  rw [shortEscape] at h
  split at h
  · next hc =>
    rw [hc, ← Option.some_inj.mp h]
    rfl
  split at h
  · next hc =>
    rw [hc, ← Option.some_inj.mp h]
    rfl
  split at h
  · next hc =>
    rw [hc, ← Option.some_inj.mp h]
    rfl
  split at h
  · next hc =>
    rw [hc, ← Option.some_inj.mp h]
    rfl
  split at h
  · next hc =>
    rw [hc, ← Option.some_inj.mp h]
    rfl
  split at h
  · next hc =>
    rw [hc, ← Option.some_inj.mp h]
    rfl
  split at h
  · next hc =>
    rw [hc, ← Option.some_inj.mp h]
    rfl
  · exact absurd h.symm (Option.some_ne_none l)

theorem unescape_unicode (hx : Hex4 n src) (h0 : n ≠ 0)
    (hn : n < 0xD800 ∨ 0xE000 ≤ n ∧ n < 0x10000) (t : Text) :
    ∃ l, unescape (117 :: src ++ t) = .ok (transcode n, l :: t) := by
  have hlow : ¬((0xDC00 ≤ n ∧ n ≤ 0xDFFF) ∨ n = 0) := by omega
  have hhigh : ¬(0xD800 ≤ n ∧ n ≤ 0xDBFF) := by omega
  have hhex : parseHex4 ((117 :: src ++ t).drop 1) = .ok n := parseHex4_hex4 hx (by omega) t
  cases hx with
  | @digits c₁ c₂ c₃ c₄ h₁ h₂ h₃ h₄ =>
    refine ⟨c₄, ?_⟩
    change unescapeUnicode _ = _
    rw [unescapeUnicode, hhex, ok_bind]
    simp only [if_neg hlow, if_neg hhigh]
    rfl

theorem transcode_ascii (h : c < 128) : transcode c.toNat = [c] := by
  have hc : c.toNat < 0x80 := h
  rw [transcode, if_pos hc]
  simp [storeTail, firstByteMark]

theorem unicodeEscape_hex4 (c : UInt8) :
    ∃ src, unicodeEscape c = 117 :: src ∧ Hex4 c.toNat src := by
  have hc := UInt8.toNat_lt c
  refine ⟨_, ?_, hex4_hexChar c.toNat⟩
  rw [unicodeEscape, show c.toNat/4096%16 = 0 by omega, show c.toNat/256%16 = 0 by omega,
    show c.toNat/16%16 = c.toNat/16 by omega]
  rfl

theorem unicode_escaped (h0 : c ≠ 0) (hc : ¬(c > 31 ∧ c ≠ 34 ∧ c ≠ 92))
    (hs : shortEscape c = none) : c.toNat ≠ 0 ∧ c < 32 := by
  refine ⟨fun h => h0 (UInt8.toNat_inj.mp h), ?_⟩
  by_contra hge
  refine hc ⟨UInt8.lt_of_lt_of_le (by decide) (UInt8.not_lt.mp hge), ?_, ?_⟩
  · rintro rfl
    exact absurd hs (by decide)
  · rintro rfl
    exact absurd hs (by decide)

end Escapes

section Transcoding

theorem continuation (n : ℕ) : (n ||| 0x80) &&& 0xBF = n%64+0x80 := by
  have hbyte : ∀ k < 256, (k ||| 0x80) &&& 0xBF = k%64+0x80 := by decide +kernel
  have hmod : (n ||| 0x80) &&& 0xBF = ((n%256) ||| 0x80) &&& 0xBF := by
    have hor := Nat.or_mod_two_pow (a := n) (b := 0x80) (n := 8)
    calc (n ||| 0x80) &&& 0xBF = (n ||| 0x80) &&& ((2^8-1) &&& 0xBF) := rfl
      _ = ((n ||| 0x80) % 2^8) &&& 0xBF := by
        rw [← Nat.and_assoc, Nat.and_two_pow_sub_one_eq_mod]
      _ = ((n%256) ||| 0x80) &&& 0xBF := by
        rw [hor]
  rw [hmod, hbyte _ (Nat.mod_lt n (by decide))]
  omega

theorem lead_two {n : ℕ} (h : n < 32) : n ||| 0xC0 = n+0xC0 := by
  revert n
  decide +kernel

theorem lead_three {n : ℕ} (h : n < 16) : n ||| 0xE0 = n+0xE0 := by
  revert n
  decide +kernel

theorem lead_four {n : ℕ} (h : n < 8) : n ||| 0xF0 = n+0xF0 := by
  revert n
  decide +kernel

/-- The `switch` on the length stores the UTF-8 encoding. -/
theorem transcode_utf8 (c : Char) : transcode c.val.toNat = String.utf8EncodeChar c := by
  have hmax : c.val.toNat < 0x110000 := by
    have hv := c.valid
    simp only [UInt32.isValidChar, Nat.isValidChar] at hv
    omega
  rw [String.utf8EncodeChar, transcode]
  generalize c.val.toNat = v at hmax
  by_cases h1 : v < 0x80
  · rw [if_pos h1, if_pos (by omega)]
    simp [storeTail, firstByteMark]
  by_cases h2 : v < 0x800
  · rw [if_neg h1, if_pos h2, if_neg (by omega), if_pos (by omega)]
    simp only [storeTail, continuation, firstByteMark, Nat.shiftRight_eq_div_pow]
    rw [lead_two (by omega), show v/2^6 = v/64%32 by omega]
  by_cases h3 : v < 0x10000
  · rw [if_neg h1, if_neg h2, if_pos h3, if_neg (by omega), if_neg (by omega), if_pos (by omega)]
    simp only [storeTail, continuation, firstByteMark, Nat.shiftRight_eq_div_pow]
    rw [lead_three (by omega), show v/2^6/2^6 = v/4096%16 by omega, show v/2^6 = v/64 by omega]
  · rw [if_neg h1, if_neg h2, if_neg h3, if_neg (by omega), if_neg (by omega), if_neg (by omega)]
    simp only [storeTail, continuation, firstByteMark, Nat.shiftRight_eq_div_pow]
    rw [lead_four (by omega), show v/2^6/2^6/2^6 = v/262144%8 by omega,
      show v/2^6/2^6 = v/4096 by omega, show v/2^6 = v/64 by omega]

end Transcoding

section Surrogates

variable {src src' : Text} {a b : ℕ}

theorem join_surrogates (ha : a < 1024) (hb : b < 1024) :
    0x10000+((((0xD800+a) &&& 0x3FF) <<< 10) ||| ((0xDC00+b) &&& 0x3FF)) = 0x10000+a*1024+b := by
  have hhigh : (0xD800+a) &&& 0x3FF = a := by
    have hmod := Nat.and_two_pow_sub_one_eq_mod (0xD800+a) 10
    rw [show 2^10-1 = 0x3FF from rfl] at hmod
    rw [hmod]
    omega
  have hlow : (0xDC00+b) &&& 0x3FF = b := by
    have hmod := Nat.and_two_pow_sub_one_eq_mod (0xDC00+b) 10
    rw [show 2^10-1 = 0x3FF from rfl] at hmod
    rw [hmod]
    omega
  rw [hhigh, hlow, ← Nat.shiftLeft_add_eq_or_of_lt (show b < 2^10 from hb), Nat.shiftLeft_eq]
  omega

/-- The `u` escapes of a surrogate pair. -/
theorem unescape_surrogates (hx : Hex4 (0xD800+a) src) (hx' : Hex4 (0xDC00+b) src')
    (ha : a < 1024) (hb : b < 1024) (t : Text) :
    ∃ l, unescape (117 :: src ++ 92 :: 117 :: src' ++ t) =
      .ok (transcode (0x10000+a*1024+b), l :: t) := by
  have hlow : ¬((0xDC00 ≤ 0xD800+a ∧ 0xD800+a ≤ 0xDFFF) ∨ 0xD800+a = 0) := by omega
  have hhigh : 0xD800 ≤ 0xD800+a ∧ 0xD800+a ≤ 0xDBFF := by omega
  have hsecond : ¬(0xDC00+b < 0xDC00 ∨ 0xDC00+b > 0xDFFF) := by omega
  rw [List.append_assoc]
  have hhex : parseHex4 ((117 :: src ++ (92 :: 117 :: src' ++ t)).drop 1) = .ok (0xD800+a) :=
    parseHex4_hex4 hx (by omega) _
  have hhex2 : parseHex4 (src' ++ t) = .ok (0xDC00+b) := parseHex4_hex4 hx' (by omega) t
  cases hx with
  | @digits c₁ c₂ c₃ c₄ h₁ h₂ h₃ h₄ =>
  cases hx' with
  | @digits c₁' c₂' c₃' c₄' h₁' h₂' h₃' h₄' =>
    refine ⟨c₄', ?_⟩
    change unescapeUnicode _ = _
    rw [unescapeUnicode, hhex, ok_bind]
    simp only [if_neg hlow, if_pos hhigh]
    change (parseHex4 ([c₁', c₂', c₃', c₄'] ++ t) >>= _) = _
    rw [hhex2, ok_bind]
    simp only [if_neg hsecond, join_surrogates ha hb]
    rfl

end Surrogates

section Pieces

variable {src out src' out' t s rest ptr : Text} {n room room' fuel fuel' : ℕ}

theorem copyString_mono {r : Text × Text} (h : copyString fuel ptr room = .ok r)
    (hfuel : fuel ≤ fuel') (hroom : room ≤ room') : copyString fuel' ptr room' = .ok r := by
  induction fuel generalizing ptr room fuel' room' r with
  | zero => exact absurd h (by simp [copyString])
  | succ fuel ih =>
    obtain ⟨fuel', rfl⟩ : ∃ k, fuel' = k+1 := ⟨fuel'-1, by omega⟩
    rw [copyString] at h ⊢
    obtain ⟨c, hc, h⟩ := bind_ok_iff.mp h
    rw [hc, ok_bind]
    by_cases hstop : c = 34 ∨ c = 0
    · rw [if_pos hstop] at h ⊢
      by_cases hpos : 0 < room
      · rw [if_pos hpos] at h
        rw [if_pos (by omega)]
        exact h
      · rw [if_neg hpos] at h
        exact absurd h (by simp)
    · rw [if_neg hstop] at h ⊢
      obtain ⟨⟨out, ptr'⟩, hout, h⟩ := bind_ok_iff.mp h
      rw [hout, ok_bind]
      simp only at h ⊢
      by_cases hlen : out.length ≤ room
      · rw [if_pos hlen] at h
        obtain ⟨⟨out', ptr''⟩, hcopy, h⟩ := bind_ok_iff.mp h
        rw [if_pos (by omega), ih hcopy (by omega) (by omega), ok_bind]
        exact h
      · rw [if_neg hlen] at h
        exact absurd h (by simp)

structure Piece (src out : Text) : Prop where
  nonempty : 0 < src.length
  counts : ∀ {t n}, t ≠ [] → countCharacters t = .ok n →
    ∃ m, countCharacters (src ++ t) = .ok m ∧ n+out.length ≤ m ∧ m ≤ n+src.length
  stores : ∀ {fuel t room s rest}, copyString fuel t room = .ok (s, rest) →
    copyString (fuel+1) (src ++ t) (room+out.length) = .ok (out ++ s, rest)

theorem piece_plain {c : UInt8} (hc : c ≠ 34 ∧ c ≠ 0 ∧ c ≠ 92) : Piece [c] [c] where
  nonempty := Nat.one_pos
  counts ht h := ⟨_, countCharacters_plain hc ht h, Nat.le_refl _, Nat.le_refl _⟩
  stores h := copyString_plain hc h

theorem piece_short {c l : UInt8} (h : shortEscape c = some l) : Piece [92, l] [c] where
  nonempty := Nat.two_pos
  counts _ hn := ⟨_, countCharacters_escaped hn, Nat.le_refl _, Nat.le_succ _⟩
  stores hcopy := copyString_escaped (unescape_short h _) hcopy

theorem countCharacters_hex4 {k : ℕ} (hx : Hex4 k src) (ht : t ≠ [])
    (h : countCharacters t = .ok n) :
    countCharacters (92 :: 117 :: src ++ t) = .ok (n+1+1+1+1+1) := by
  cases hx with
  | digits h₁ h₂ h₃ h₄ =>
    have hplain := fun (c : UInt8) (d : ℕ) (hc : hexDigit c = some d) =>
      hexDigit_ne (c := c) (by rw [hc]; rfl)
    have hne := fun (c : UInt8) (t : Text) => List.cons_ne_nil c t
    exact countCharacters_escaped (countCharacters_plain (hplain _ _ h₁) (hne _ _)
      (countCharacters_plain (hplain _ _ h₂) (hne _ _) (countCharacters_plain (hplain _ _ h₃)
        (hne _ _) (countCharacters_plain (hplain _ _ h₄) ht h))))

theorem Hex4.length {k : ℕ} (hx : Hex4 k src) : src.length = 4 := by
  cases hx with
  | digits h₁ h₂ h₃ h₄ => rfl

theorem piece_unicode (hx : Hex4 n src) (h0 : n ≠ 0)
    (hn : n < 0xD800 ∨ 0xE000 ≤ n ∧ n < 0x10000) (hlen : (transcode n).length ≤ 5) :
    Piece (92 :: 117 :: src) (transcode n) where
  nonempty := Nat.succ_pos _
  counts ht h := by
    have hsrc := hx.length
    exact ⟨_, countCharacters_hex4 hx ht h, by omega, by simp only [List.length_cons]; omega⟩
  stores {_ t _ _ _} h := by
    obtain ⟨l, hl⟩ := unescape_unicode hx h0 hn t
    exact copyString_escaped hl h

theorem piece_surrogates {a b : ℕ} (hx : Hex4 (0xD800+a) src) (hx' : Hex4 (0xDC00+b) src')
    (ha : a < 1024) (hb : b < 1024) (hlen : (transcode (0x10000+a*1024+b)).length ≤ 5) :
    Piece (92 :: 117 :: src ++ 92 :: 117 :: src') (transcode (0x10000+a*1024+b)) where
  nonempty := Nat.succ_pos _
  counts {t _} ht h := by
    have hsrc := hx.length
    have hsrc' := hx'.length
    have hlow := countCharacters_hex4 hx' ht h
    have hhigh := countCharacters_hex4 hx (List.cons_ne_nil _ _) hlow
    rw [List.append_assoc]
    refine ⟨_, hhigh, by omega, ?_⟩
    simp only [List.length_append, List.length_cons]
    omega
  stores {_ t _ _ _} h := by
    obtain ⟨l, hl⟩ := unescape_surrogates hx hx' ha hb t
    exact copyString_escaped hl h

theorem pieces {srcs outs : List Text} (hp : List.Forall₂ Piece srcs outs) (rest : Text) :
    (∃ m, countCharacters (srcs.flatten ++ 34 :: rest) = .ok m ∧ outs.flatten.length ≤ m ∧
      m ≤ srcs.flatten.length) ∧
      copyString (srcs.length+1) (srcs.flatten ++ 34 :: rest) (1+outs.flatten.length) =
        .ok (outs.flatten, 34 :: rest) := by
  induction hp with
  | nil =>
    exact ⟨⟨0, countCharacters_quote rest, Nat.le_refl 0, Nat.le_refl 0⟩,
      copyString_quote Nat.one_pos rest⟩
  | @cons src out srcs outs hpiece _ ih =>
    obtain ⟨⟨m, hm, hout, hsrc⟩, hcopy⟩ := ih
    simp only [List.flatten_cons, List.append_assoc, List.length_append, List.length_cons]
    refine ⟨?_, ?_⟩
    · obtain ⟨m', hm', hle, hle'⟩ := hpiece.counts (by simp) hm
      exact ⟨m', hm', by omega, by omega⟩
    · have hstore := hpiece.stores hcopy
      rw [show 1+(out.length+outs.flatten.length) = 1+outs.flatten.length+out.length by omega]
      exact hstore

theorem pieces_length {srcs outs : List Text} (hp : List.Forall₂ Piece srcs outs) :
    srcs.length ≤ srcs.flatten.length := by
  induction hp with
  | nil => exact Nat.le_refl 0
  | cons hpiece _ ih =>
    have hpos := hpiece.nonempty
    rw [List.flatten_cons, List.length_append, List.length_cons]
    omega

end Pieces

section Strings

variable {D : Type} {w : World} {block : ℕ}

theorem parseString_pieces {srcs outs : List Text} (hp : List.Forall₂ Piece srcs outs)
    (hlen : srcs.flatten.length+1 < 2^31) (hg : w.granted w.requests) (d : Data D) (rest : Text) :
    parseString w d (34 :: srcs.flatten ++ 34 :: rest) =
      .ok ⟨{ d with valuestring := some (w.requests, outs.flatten), type := cJSON_String }, .null,
        some rest, w.malloc.2⟩ := by
  obtain ⟨⟨m, hm, hout, hsrc⟩, hcopy⟩ := pieces hp rest
  have hpieces := pieces_length hp
  have hfuel : srcs.length+1 ≤ (34 :: srcs.flatten ++ 34 :: rest).length := by
    rw [List.cons_append, List.length_cons, List.length_append]
    omega
  have hcopy := copyString_mono hcopy hfuel (show 1+outs.flatten.length ≤ m+1 by omega)
  have hmalloc : w.malloc = (some w.requests, w.malloc.2) := by
    rw [World.malloc, Heap.malloc, if_pos hg]
  have hsize : countString (srcs.flatten ++ 34 :: rest) = .ok (m+1) := by
    rw [countString, hm, ok_bind, intSize, if_pos (by omega)]
  rw [parseString]
  simp only [List.cons_append, peek_cons, ok_bind, ne_eq, not_true_eq_false, if_false,
    List.tail_cons, hsize]
  rw [hmalloc]
  simp only [List.cons_append] at hcopy
  simp only [hcopy, ok_bind, peek_cons, if_true, List.tail_cons]

theorem piece_escape {c : UInt8} (h0 : c ≠ 0) : Piece (escapeByte c) [c] := by
  rw [escapeByte]
  by_cases hc : c > 31 ∧ c ≠ 34 ∧ c ≠ 92
  · rw [if_pos hc]
    exact piece_plain ⟨hc.2.1, h0, hc.2.2⟩
  · rw [if_neg hc]
    cases hs : shortEscape c with
    | some l => exact piece_short hs
    | none =>
      obtain ⟨hpos, hlt⟩ := unicode_escaped h0 hc hs
      obtain ⟨src, hsrc, hx⟩ := unicodeEscape_hex4 c
      have hascii := transcode_ascii (c := c) (UInt8.lt_trans hlt (by decide))
      have hpiece := piece_unicode hx hpos (.inl (Nat.lt_trans hlt (by decide)))
        (by rw [hascii, List.length_singleton]; omega)
      rw [hascii] at hpiece
      rw [Option.elim_none, hsrc]
      exact hpiece

theorem parseString_quoted (hg : w.granted w.requests) (d : Data D) (s rest : Text)
    (hlen : (quoted s).length ≤ 2^31) :
    parseString w d (quoted s ++ rest) =
      .ok ⟨{ d with valuestring := some (w.requests, s.takeWhile (· ≠ 0)), type := cJSON_String },
        .null, some rest, w.malloc.2⟩ := by
  have hp : List.Forall₂ Piece ((s.takeWhile (· ≠ 0)).map escapeByte)
      ((s.takeWhile (· ≠ 0)).map fun c => [c]) := by
    rw [List.forall₂_map_left_iff, List.forall₂_map_right_iff, List.forall₂_same]
    exact fun c hc => piece_escape (by simpa using List.mem_takeWhile_imp hc)
  rw [quoted, escape] at hlen
  have hparse := parseString_pieces hp (by simpa [List.flatMap_def] using hlen) hg d rest
  rw [← List.flatMap_def, ← List.flatMap_def, List.flatMap_singleton'] at hparse
  rw [quoted, escape, List.append_assoc]
  exact hparse

/-- The `u` escapes of a character's UTF-16 code units. -/
inductive Utf16 (c : Char) : Text → Prop
  | unit {src : Text} : c.val.toNat < 0x10000 → Hex4 c.val.toNat src → Utf16 c (92 :: 117 :: src)
  | pair {src src' : Text} : 0x10000 ≤ c.val.toNat →
      Hex4 (0xD800+(c.val.toNat-0x10000)/1024) src →
      Hex4 (0xDC00+(c.val.toNat-0x10000)%1024) src' →
      Utf16 c (92 :: 117 :: src ++ 92 :: 117 :: src')

theorem piece_utf16 {c : Char} {src : Text} (h : Utf16 c src) (h0 : c.val.toNat ≠ 0) :
    Piece src (String.utf8EncodeChar c) := by
  have hlen : (transcode c.val.toNat).length ≤ 5 := by
    rw [transcode_utf8, String.length_utf8EncodeChar]
    exact Nat.le_trans (Char.utf8Size_le_four c) (by decide)
  have hv := c.valid
  simp only [UInt32.isValidChar, Nat.isValidChar] at hv
  rw [← transcode_utf8]
  cases h with
  | unit hbmp hx => exact piece_unicode hx h0 (by omega) hlen
  | pair hbmp hx hx' =>
    have hjoin : 0x10000+(c.val.toNat-0x10000)/1024*1024+(c.val.toNat-0x10000)%1024 =
        c.val.toNat := by omega
    have hpiece := piece_surrogates hx hx' (by omega) (by omega)
    rw [hjoin] at hpiece
    exact hpiece hlen

/-- Text in `u` escapes, surrogate pairs included, is stored in UTF-8. -/
theorem utf16_decoded {s : List Char} {srcs : List Text} (hs : List.Forall₂ Utf16 s srcs)
    (h0 : ∀ c ∈ s, c.val.toNat ≠ 0) (hlen : srcs.flatten.length+1 < 2^31)
    (hg : w.granted w.requests) (d : Data D) (rest : Text) :
    parseString w d (34 :: srcs.flatten ++ 34 :: rest) =
      .ok ⟨{ d with
        valuestring := some (w.requests, s.flatMap String.utf8EncodeChar), type := cJSON_String },
        .null, some rest, w.malloc.2⟩ := by
  have hp : List.Forall₂ Piece srcs (s.map String.utf8EncodeChar) := by
    rw [List.forall₂_map_right_iff]
    clear hlen
    induction hs with
    | nil => exact .nil
    | cons hc _ ih =>
      exact .cons (piece_utf16 hc (h0 _ List.mem_cons_self))
        (ih fun c hc => h0 c (List.mem_cons_of_mem _ hc))
  have hparse := parseString_pieces hp hlen hg d rest
  rw [← List.flatMap_def] at hparse
  exact hparse

/-- A character and a surrogate pair, in digits of both cases. -/
theorem utf16_decoded_pair :
    parseString ⟨⟨fun _ => true, 0, []⟩, none⟩ (blank 7 : Data ℤ)
      (34 :: [[92, 117, 50, 48, 97, 67], [92, 117, 68, 56, 51, 68, 92, 117, 100, 101, 48, 48]].flatten ++
        34 :: [0]) =
      .ok ⟨{ (blank 7 : Data ℤ) with
        valuestring := some (0, [Char.ofNat 0x20AC, Char.ofNat 0x1F600].flatMap String.utf8EncodeChar),
        type := cJSON_String }, .null, some [0], ⟨⟨fun _ => true, 1, []⟩, none⟩⟩ :=
  utf16_decoded
    (.cons (.unit (by decide) (.digits (by decide) (by decide) (by decide) (by decide)))
      (.cons (@Utf16.pair _ [68, 56, 51, 68] [100, 101, 48, 48] (by decide)
        (.digits (by decide) (by decide) (by decide) (by decide))
        (.digits (by decide) (by decide) (by decide) (by decide))) .nil))
    (by simp) (by decide) rfl _ [0]

end Strings

end CLearning.Json
