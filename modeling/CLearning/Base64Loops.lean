import CLearning.Base64
import Mathlib.Data.List.Basic

/-!
# The decoding loops

The bytes that stand for a row of table values are given by `groupBytes`. The
loop that takes single characters computes it for the characters between the
line breaks, and the loop that takes four for the groups it walks over.
-/

set_option autoImplicit false

namespace CLearning.Base64Loops
open CLearning.Machine CLearning.Base64

section Bytes

def pads (vs : List ℕ) : ℕ := vs.count 64

def quad (t0 t1 t2 t3 : ℕ) : List UInt8 := [byte0 t0 t1, byte1 t1 t2, byte2 t2 t3].map UInt8.ofNat

/-- The bytes of the whole groups of a row of values. A group has `j` bytes, less
one for every pad so far. -/
def groupBytes : ℕ → List ℕ → List UInt8
  | j, t0 :: t1 :: t2 :: t3 :: vs =>
    (quad t0 t1 t2 t3).take (j-pads [t0, t1, t2, t3]) ++ groupBytes (j-pads [t0, t1, t2, t3]) vs
  | _, _ => []

/-- The table value of a character, with the value of an invalid one past the
table. -/
def val (c : UInt8) : ℕ := base64DecMap.getD c.toNat 127

def vals (l : List UInt8) : List ℕ := l.map val

theorem decAt_of_lt {c : UInt8} (h : c.toNat < 128) : decAt c = .ok (val c) := by
  have hlen : c.toNat < base64DecMap.length := h
  rw [decAt, val, List.getD_eq_getElem?_getD, List.getElem?_eq_getElem hlen]
  rfl

theorem decAt_of_ge {c : UInt8} (h : 128 ≤ c.toNat) : decAt c = .error .wildAccess := by
  have hlen : base64DecMap.length ≤ c.toNat := h
  rw [decAt, List.getElem?_eq_none hlen]

theorem base64DecMap_cases :
    ∀ n < 128, base64DecMap.getD n 127 = 64 ∧ n = 61 ∨ n ≠ 61 ∧ base64DecMap.getD n 127 < 64 ∨
      n ≠ 61 ∧ base64DecMap.getD n 127 = 127 := by
  decide

theorem val_cases (c : UInt8) : val c = 64 ∧ c = 61 ∨ c ≠ 61 ∧ val c < 64 ∨ c ≠ 61 ∧ val c = 127 := by
  have hc : c = 61 ↔ c.toNat = 61 := UInt8.toNat_inj.symm
  by_cases h : c.toNat < 128
  · rcases base64DecMap_cases c.toNat h with h | h | h
    · exact Or.inl ⟨h.1, hc.mpr h.2⟩
    · exact Or.inr (Or.inl ⟨fun he => h.1 (hc.mp he), h.2⟩)
    · exact Or.inr (Or.inr ⟨fun he => h.1 (hc.mp he), h.2⟩)
  · refine Or.inr (Or.inr ⟨fun he => ?_, ?_⟩)
    · have := hc.mp he
      omega
    · have hlen : base64DecMap.length ≤ c.toNat := Nat.le_of_not_lt h
      rw [val, List.getD_eq_getElem?_getD, List.getElem?_eq_none hlen]
      rfl

theorem val_eq_pad (c : UInt8) : val c = 64 ↔ c = 61 := by
  have := val_cases c
  constructor
  · intro h
    by_contra hne
    rcases this with h' | h' | h'
    · exact hne h'.2
    · omega
    · omega
  · intro h
    rcases this with h' | h' | h'
    · exact h'.1
    · exact absurd h h'.1
    · exact absurd h h'.1

theorem pads_cons (v : ℕ) (vs : List ℕ) : pads (v :: vs) = pad v+pads vs := by
  rw [pads, List.count_cons, pads, pad]
  by_cases h : v = 64
  · simp [h, Nat.add_comm]
  · simp [h]

theorem pads_append (vs ws : List ℕ) : pads (vs ++ ws) = pads vs+pads ws := List.count_append

theorem pads_quad (t0 t1 t2 t3 : ℕ) : pads [t0, t1, t2, t3] = pad t0+pad t1+pad t2+pad t3 := by
  rw [pads_cons, pads_cons, pads_cons, pads_cons, show pads [] = 0 from rfl]
  omega

theorem quad_length (t0 t1 t2 t3 : ℕ) : (quad t0 t1 t2 t3).length = 3 := rfl

theorem shiftLeft_or {a b i : ℕ} (h : b < 2^i) : (a <<< i) ||| b = a*2^i+b := by
  rw [← Nat.shiftLeft_add_eq_or_of_lt h, Nat.shiftLeft_eq]

theorem byte0_eq (t0 : ℕ) {t1 : ℕ} (h : t1 < 64) : byte0 t0 t1 = t0 % 64*4+t1 / 16 := by
  rw [byte0, show (0x3F : ℕ) = 2^6-1 from rfl, Nat.and_two_pow_sub_one_eq_mod,
    Nat.and_two_pow_sub_one_eq_mod, Nat.shiftRight_eq_div_pow, shiftLeft_or (by omega)]
  omega

theorem byte1_eq (t1 : ℕ) {t2 : ℕ} (h : t2 < 64) : byte1 t1 t2 = t1 % 16*16+t2 / 4 := by
  rw [byte1, show (0xF : ℕ) = 2^4-1 from rfl, Nat.and_two_pow_sub_one_eq_mod,
    Nat.and_two_pow_sub_one_eq_mod, Nat.shiftRight_eq_div_pow, shiftLeft_or (by omega)]
  omega

theorem byte2_eq (t2 t3 : ℕ) : byte2 t2 t3 = t2 % 4*64+t3 % 64 := by
  have h3 : t3 &&& 0x3F = t3 % 64 := Nat.and_two_pow_sub_one_eq_mod t3 6
  have h2 : t2 &&& 0x3 = t2 % 4 := Nat.and_two_pow_sub_one_eq_mod t2 2
  have hlt : t3 % 64 < 2^6 := Nat.mod_lt _ (by decide)
  rw [byte2, h2, h3]
  exact shiftLeft_or hlt

/-- The three guarded stores write the first `j` bytes, if there is room. -/
theorem store_eq {dlen : ℤ} {out : List UInt8} (h : out.length ≤ dlen) (j b0 b1 b2 : ℕ) :
    store dlen out (fun n => j > n) b0 b1 b2 =
      if (out.length+min j 3 : ℕ) ≤ dlen then .ok (out ++ ([b0, b1, b2].map UInt8.ofNat).take j)
      else .error .wildAccess := by
  have hput : ∀ (o : List UInt8) b, put dlen o b =
      if (o.length : ℤ) < dlen then .ok (o ++ [UInt8.ofNat b]) else .error .wildAccess := fun _ _ => rfl
  rcases (show j = 0 ∨ j = 1 ∨ j = 2 ∨ 3 ≤ j by omega) with rfl | rfl | rfl | hj
  · simp [store, h]
  · by_cases h1 : (out.length : ℤ) < dlen
    · rw [if_pos (by omega)]
      simp [store, hput, h1]
    · rw [if_neg (by omega)]
      simp [store, hput, h1]
  · by_cases h2 : (out.length+1 : ℤ) < dlen
    · rw [if_pos (by omega)]
      simp [store, hput, h2, show (out.length : ℤ) < dlen by omega]
    · rw [if_neg (by omega)]
      by_cases h1 : (out.length : ℤ) < dlen
      · simp [store, hput, h1, h2]
      · simp [store, hput, h1]
  · rw [List.take_of_length_le (show ([b0, b1, b2].map UInt8.ofNat).length ≤ j from hj)]
    have e0 : j > 0 := by omega
    have e1 : j > 1 := by omega
    have e2 : j > 2 := by omega
    by_cases h3 : (out.length+2 : ℤ) < dlen
    · rw [if_pos (by omega)]
      simp [store, hput, e0, e1, e2, h3, show (out.length : ℤ) < dlen by omega,
        show (out.length+1 : ℤ) < dlen by omega]
    · rw [if_neg (by omega)]
      by_cases h2 : (out.length+1 : ℤ) < dlen
      · simp [store, hput, e0, e1, e2, h2, h3, show (out.length : ℤ) < dlen by omega]
      · by_cases h1 : (out.length : ℤ) < dlen
        · simp [store, hput, e0, e1, h1, h2]
        · simp [store, hput, e0, h1]

theorem groupBytes_short {j : ℕ} {vs : List ℕ} (h : vs.length < 4) : groupBytes j vs = [] := by
  rcases vs with _ | ⟨t0, _ | ⟨t1, _ | ⟨t2, _ | ⟨t3, vs⟩⟩⟩⟩
  · rfl
  · rfl
  · rfl
  · rfl
  · simp only [List.length_cons] at h
    omega

theorem groupBytes_cons {j t0 t1 t2 t3 : ℕ} {vs : List ℕ} :
    groupBytes j (t0 :: t1 :: t2 :: t3 :: vs) =
      (quad t0 t1 t2 t3).take (j-pads [t0, t1, t2, t3]) ++ groupBytes (j-pads [t0, t1, t2, t3]) vs := rfl

theorem eq_quad {vs : List ℕ} (h : vs.length = 4) : ∃ t0 t1 t2 t3, vs = [t0, t1, t2, t3] := by
  rcases vs with _ | ⟨t0, _ | ⟨t1, _ | ⟨t2, _ | ⟨t3, _ | ⟨t4, vs⟩⟩⟩⟩⟩
  · simp at h
  · simp at h
  · simp at h
  · simp at h
  · exact ⟨t0, t1, t2, t3, rfl⟩
  · simp at h

/-- The block at the end of a group, as long as no more pads have come than a
group has bytes. -/
theorem flush_spec {dlen : ℤ} {s : Dec} {t0 t1 t2 t3 : ℕ} (hj : s.j ≤ 3)
    (hp : pads [t0, t1, t2, t3] ≤ s.j) (hc : s.count = s.out.length)
    (hroom : (s.out.length+(s.j-pads [t0, t1, t2, t3]) : ℕ) ≤ dlen)
    (hsmall : s.out.length+(s.j-pads [t0, t1, t2, t3]) < 2^31) :
    flush dlen t0 t1 t2 t3 s = .ok ({ s with
      j := s.j-pads [t0, t1, t2, t3]
      count := (s.out.length+(s.j-pads [t0, t1, t2, t3]) : ℕ)
      tmp := []
      out := s.out ++ (quad t0 t1 t2 t3).take (s.j-pads [t0, t1, t2, t3]) }, none) := by
  rw [flush, ← pads_quad, usub_of_le hp (by omega), hc]
  have hcount : ((s.out.length : ℤ)+((s.j-pads [t0, t1, t2, t3] : ℕ) : ℤ)).bmod (2^32) =
      (s.out.length+(s.j-pads [t0, t1, t2, t3]) : ℕ) := by
    rw [← Int.natCast_add]
    apply Int.bmod_eq_of_le
    · omega
    · omega
  simp only [hcount]
  rw [if_neg (by omega), store_eq (by omega), if_pos (by omega)]
  rfl

end Bytes

section Checked

def chars (l : List UInt8) : List UInt8 := l.filter fun c => !isBreak c

def Good (k : ℕ) (c : UInt8) : Prop :=
  c ≠ 32 ∧ c.toNat < 128 ∧ val c ≠ 127 ∧ if c = 61 then k < 2 else k = 0

instance (k : ℕ) (c : UInt8) : Decidable (Good k c) :=
  inferInstanceAs (Decidable (c ≠ 32 ∧ c.toNat < 128 ∧ val c ≠ 127 ∧ if c = 61 then k < 2 else k = 0))

def Valid : ℕ → List UInt8 → Prop
  | _, [] => True
  | k, c :: cs => Good k c ∧ Valid (if c = 61 then k+1 else k) cs

instance : ∀ k l, Decidable (Valid k l)
  | _, [] => isTrue trivial
  | k, c :: cs =>
    have := instDecidableValid (if c = 61 then k+1 else k) cs
    inferInstanceAs (Decidable (Good k c ∧ Valid (if c = 61 then k+1 else k) cs))

theorem chars_break {c : UInt8} {l : List UInt8} (h : isBreak c = true) : chars (c :: l) = chars l := by
  simp [chars, h]

theorem chars_cons {c : UInt8} {l : List UInt8} (h : isBreak c = false) :
    chars (c :: l) = c :: chars l := by
  simp [chars, h]

/-- The state with one more character in its group. -/
def Dec.take (s : Dec) (c : UInt8) : Dec :=
  { s with
    i := s.i+1
    src := s.src.drop 1
    k := if c = 61 then s.k+1 else s.k
    tmp := s.tmp ++ [val c] }

/-- One round on a character that is no line break. -/
theorem checkedRound_spec {dlen : ℤ} {s : Dec} {c : UInt8} {src : List UInt8} (hs : s.src = c :: src)
    (hb : isBreak c = false) :
    (Good s.k c → checkedRound dlen s =
      match (Dec.take s c).tmp with
      | [t0, t1, t2, t3] => flush dlen t0 t1 t2 t3 (Dec.take s c)
      | _ => .ok (Dec.take s c, none)) ∧
    (¬Good s.k c → checkedRound dlen s = .ok (s, some errInvalidCharacter)) := by
  have hpeek : peek s.src 0 = .ok c := by rw [hs]; rfl
  have hlt : c > 127 ↔ ¬c.toNat < 128 := by
    rw [gt_iff_lt, UInt8.lt_iff_toNat_lt, show (127 : UInt8).toNat = 127 from rfl]
    omega
  have hv := val_cases c
  rw [checkedRound, hpeek, ok_bind, if_neg (by simp [hb])]
  constructor
  · rintro ⟨h32, h128, h127, hk⟩
    rw [if_neg h32]
    simp only [decAt_of_lt h128, ok_bind]
    by_cases h61 : c = 61
    · have hk2 : s.k < 2 := by simpa [h61] using hk
      have hv64 : val c = 64 := (val_eq_pad c).mpr h61
      rw [if_neg (by rw [if_pos h61]; omega), if_neg (by rw [hlt]; omega), if_neg h127,
        if_neg (by omega)]
      rfl
    · have hk0 : s.k = 0 := by simpa [h61] using hk
      rw [if_neg (fun h => h61 h.1), if_neg (by rw [hlt]; omega), if_neg h127,
        if_neg (by rw [if_neg h61]; omega)]
      rfl
  · intro hbad
    by_cases h32 : c = 32
    · rw [if_pos h32]
    rw [if_neg h32]
    by_cases h61 : c = 61
    · subst h61
      have hk2 : ¬s.k < 2 := fun hk => hbad ⟨by decide, by decide, by decide, by simpa using hk⟩
      rw [if_pos ⟨rfl, by rw [if_pos rfl]; omega⟩]
    · rw [if_neg (fun h => h61 h.1)]
      by_cases h128 : c.toNat < 128
      · rw [if_neg (by rw [hlt]; omega), decAt_of_lt h128, ok_bind]
        by_cases h127 : val c = 127
        · rw [if_pos h127]
        · have h64 : val c < 64 := by
            rcases hv with h | h | h
            · exact absurd h.2 h61
            · exact h.2
            · exact absurd h.2 h127
          have hk0 : s.k ≠ 0 := fun hk => hbad ⟨h32, h128, h127, by rw [if_neg h61, hk]⟩
          rw [if_neg h127, if_pos ⟨h64, by rw [if_neg h61]; exact hk0⟩]
      · rw [if_pos (hlt.mpr h128)]

theorem decodeLoop_done {slen fuel : ℕ} {round : Dec → Run Next} {s : Dec} (h : slen ≤ s.i) :
    decodeLoop slen round fuel s = .ok (s, none) := by
  cases fuel with
  | zero => rw [decodeLoop, if_neg (by omega)]
  | succ fuel => rw [decodeLoop, if_neg (by omega)]

theorem decodeLoop_next {slen fuel : ℕ} {round : Dec → Run Next} {s s' : Dec} (h : s.i < slen)
    (hr : round s = .ok (s', none)) :
    decodeLoop slen round (fuel+1) s = decodeLoop slen round fuel s' := by
  rw [decodeLoop, if_pos h, hr]
  rfl

theorem decodeLoop_return {slen fuel : ℕ} {round : Dec → Run Next} {s s' : Dec} {ret : ℤ}
    (h : s.i < slen) (hr : round s = .ok (s', some ret)) :
    decodeLoop slen round (fuel+1) s = .ok (s', some ret) := by
  rw [decodeLoop, if_pos h, hr]
  rfl

theorem decodeLoop_error {slen fuel : ℕ} {round : Dec → Run Next} {s : Dec} {e : Fault}
    (h : s.i < slen) (hr : round s = .error e) :
    decodeLoop slen round (fuel+1) s = .error e := by
  rw [decodeLoop, if_pos h, hr]
  rfl

/-- What holds between the rounds: the pads are counted in `k` and taken off
`j` a group at a time, and `count` is the number of bytes written. -/
structure Between (dlen : ℤ) (slen : ℕ) (s : Dec) (body tail : List UInt8) : Prop where
  src : s.src = body ++ tail
  len : s.i+body.length = slen
  tmp : s.tmp.length < 4
  padded : s.k+s.j = 3+pads s.tmp
  k : s.k ≤ 2
  j : s.j ≤ 3
  count : s.count = s.out.length
  room : (s.out.length+(groupBytes s.j (s.tmp ++ vals (chars body))).length : ℕ) ≤ dlen
  small : s.out.length+(groupBytes s.j (s.tmp ++ vals (chars body))).length < 2^31

theorem Between.skip {dlen : ℤ} {slen : ℕ} {s : Dec} {c : UInt8} {body tail : List UInt8}
    (h : Between dlen slen s (c :: body) tail) (hc : isBreak c = true) :
    Between dlen slen { s with i := s.i+1, src := s.src.drop 1 } body tail := by
  have hlen := h.len
  rw [List.length_cons] at hlen
  have hroom := h.room
  have hsmall := h.small
  rw [chars_break hc] at hroom hsmall
  exact ⟨by simp [h.src], by simp only; omega, h.tmp, h.padded, h.k, h.j, h.count, hroom, hsmall⟩

/-- A good character either stays in its group or completes it. -/
theorem Between.step {dlen : ℤ} {slen : ℕ} {s : Dec} {c : UInt8} {body tail : List UInt8}
    (h : Between dlen slen s (c :: body) tail) (hc : isBreak c = false) (hg : Good s.k c) :
    ∃ s', checkedRound dlen s = .ok (s', none) ∧ Between dlen slen s' body tail ∧
      s'.k = (if c = 61 then s.k+1 else s.k) ∧
      s'.out ++ groupBytes s'.j (s'.tmp ++ vals (chars body)) =
        s.out ++ groupBytes s.j (s.tmp ++ vals (chars (c :: body))) := by
  have hround : checkedRound dlen s = _ := (checkedRound_spec h.src hc).1 hg
  have hsrc : (Dec.take s c).src = body ++ tail := by simp [Dec.take, h.src]
  have hlen : (Dec.take s c).i+body.length = slen := by
    have := h.len
    rw [List.length_cons] at this
    simp only [Dec.take]
    omega
  have hvals : s.tmp ++ vals (chars (c :: body)) = (Dec.take s c).tmp ++ vals (chars body) := by
    rw [chars_cons hc]
    simp [vals, Dec.take]
  have hk : (Dec.take s c).k+s.j = 3+pads (Dec.take s c).tmp := by
    have hp := h.padded
    have hpad : pad (val c) = if c = 61 then 1 else 0 := by
      rw [pad]
      simp only [val_eq_pad]
    simp only [Dec.take, pads_append, pads_cons, hpad, show pads [] = 0 from rfl]
    split <;> omega
  have hk2 : (Dec.take s c).k ≤ 2 := by
    have hgk := hg.2.2.2
    have := h.k
    simp only [Dec.take]
    split
    · rename_i h61
      rw [if_pos h61] at hgk
      omega
    · exact h.k
  have hroom := h.room
  have hsmall := h.small
  rw [hvals] at hroom hsmall ⊢
  by_cases h4 : (Dec.take s c).tmp.length = 4
  · obtain ⟨t0, t1, t2, t3, ht⟩ := eq_quad h4
    simp only [ht] at hround
    rw [ht] at hk hroom hsmall ⊢
    simp only [List.cons_append, List.nil_append, groupBytes_cons, List.length_append,
      List.length_take, quad_length] at hroom hsmall ⊢
    have hj := h.j
    have hp : pads [t0, t1, t2, t3] ≤ s.j := by omega
    have hmin : min (s.j-pads [t0, t1, t2, t3]) 3 = s.j-pads [t0, t1, t2, t3] := by omega
    rw [hmin] at hroom hsmall
    have hflush := @flush_spec dlen (Dec.take s c) t0 t1 t2 t3 h.j hp h.count
      (by simp only [Dec.take]; omega) (by simp only [Dec.take]; omega)
    refine ⟨_, hround.trans hflush, ⟨hsrc, hlen, by simp, ?_, hk2, ?_, ?_, ?_, ?_⟩, rfl, ?_⟩
    · simp only [Dec.take] at hk ⊢
      rw [show pads [] = 0 from rfl]
      omega
    · simp only [Dec.take]
      omega
    · simp [Dec.take, quad_length, hmin]
    · simp only [Dec.take, List.length_append, List.length_take, quad_length, hmin, List.nil_append]
      omega
    · simp only [Dec.take, List.length_append, List.length_take, quad_length, hmin, List.nil_append]
      omega
    · simp [Dec.take]
  · have hstay : checkedRound dlen s = .ok (Dec.take s c, none) := by
      rw [hround]
      split
      · rename_i ht
        rw [ht] at h4
        exact absurd rfl h4
      · rfl
    have h3 : (Dec.take s c).tmp.length < 4 := by
      have := h.tmp
      simp only [Dec.take, List.length_append, List.length_singleton] at h4 ⊢
      omega
    exact ⟨_, hstay, ⟨hsrc, hlen, h3, hk, hk2, h.j, h.count, hroom, hsmall⟩, rfl, rfl⟩

/-- The loop accepts the valid texts and writes their bytes. -/
theorem checkedLoop_spec {dlen : ℤ} {slen fuel : ℕ} {s : Dec} {body tail : List UInt8}
    (h : Between dlen slen s body tail) (hf : body.length ≤ fuel) :
    (Valid s.k (chars body) → ∃ s', decodeLoop slen (checkedRound dlen) fuel s = .ok (s', none) ∧
      s'.out = s.out ++ groupBytes s.j (s.tmp ++ vals (chars body))) ∧
    (¬Valid s.k (chars body) →
      ∃ s', decodeLoop slen (checkedRound dlen) fuel s = .ok (s', some errInvalidCharacter)) := by
  induction body generalizing fuel s with
  | nil =>
    have hi : slen ≤ s.i := Nat.le_of_eq (by simpa using h.len.symm)
    refine ⟨fun _ => ⟨s, decodeLoop_done hi, ?_⟩, fun hv => absurd trivial hv⟩
    rw [groupBytes_short (by simpa [chars, vals] using h.tmp), List.append_nil]
  | cons c body ih =>
    obtain ⟨fuel, rfl⟩ : ∃ f, fuel = f+1 := ⟨fuel-1, by rw [List.length_cons] at hf; omega⟩
    have hi : s.i < slen := by
      have := h.len
      rw [List.length_cons] at this
      omega
    have hf : body.length ≤ fuel := by simpa using hf
    cases hc : isBreak c with
    | true =>
      have hround : checkedRound dlen s = .ok ({ s with i := s.i+1, src := s.src.drop 1 }, none) := by
        rw [checkedRound, show peek s.src 0 = .ok c by rw [h.src]; rfl, ok_bind, if_pos hc]
      rw [decodeLoop_next hi hround, chars_break hc]
      exact ih (h.skip hc) hf
    | false =>
      by_cases hg : Good s.k c
      · obtain ⟨s', hround, hb, hk, hout⟩ := h.step hc hg
        obtain ⟨ih1, ih2⟩ := ih hb hf
        rw [decodeLoop_next hi hround, chars_cons hc, Valid, ← hk]
        rw [chars_cons hc] at hout
        constructor
        · rintro ⟨-, hv⟩
          obtain ⟨s'', h1, h2⟩ := ih1 hv
          exact ⟨s'', h1, by rw [h2, hout]⟩
        · exact fun hv => ih2 (fun hv' => hv ⟨hg, hv'⟩)
      · have hround : checkedRound dlen s = .ok (s, some errInvalidCharacter) :=
          (checkedRound_spec h.src hc).2 hg
        rw [decodeLoop_return hi hround, chars_cons hc, Valid]
        exact ⟨fun hv => absurd hv.1 hg, fun _ => ⟨s, rfl⟩⟩

end Checked

section Plain

/-- The groups the loop walks over in the first `m` characters: it skips line
breaks, and takes four characters whatever they are where it finds another one.
`skip` characters belong to the last group. -/
def walk : ℕ → List UInt8 → ℕ → List (List UInt8)
  | 0, _, _ => []
  | _+1, [], _ => []
  | m+1, c :: cs, 0 => if isBreak c then walk m cs 0 else (c :: cs.take 3) :: walk m cs 3
  | m+1, _ :: cs, skip+1 => walk m cs skip

/-- The group lies in the text and has no byte past the table. -/
def Whole (g : List UInt8) : Prop := g.length = 4 ∧ ∀ c ∈ g, c.toNat < 128

instance (g : List UInt8) : Decidable (Whole g) :=
  inferInstanceAs (Decidable (g.length = 4 ∧ ∀ c ∈ g, c.toNat < 128))

def quadOf : List ℕ → List UInt8
  | [t0, t1, t2, t3] => quad t0 t1 t2 t3
  | _ => []

def runGroups (dlen : ℤ) : List (List UInt8) → ℕ → ℤ → List UInt8 → Run (Option ℤ × List UInt8)
  | [], _, _, out => .ok (none, out)
  | g :: gs, j, count, out =>
    if Whole g then
      let j := usub 32 j (pads (vals g))
      let count := (count+j).bmod (2^32)
      if dlen < count then .ok (some errBufferTooSmall, out)
      else if (out.length+min j 3 : ℕ) ≤ dlen then
        runGroups dlen gs j count (out ++ (quadOf (vals g)).take j)
      else .error .wildAccess
    else .error .wildAccess

theorem walk_group {m : ℕ} {c c1 c2 c3 : UInt8} {cs : List UInt8} (hc : isBreak c = false) :
    walk (m+1) (c :: c1 :: c2 :: c3 :: cs) 0 = [c, c1, c2, c3] :: walk (m-3) cs 0 := by
  rw [walk, if_neg (by simp [hc])]
  rcases m with _ | _ | _ | m
  · rw [walk, walk]
    rfl
  · rw [walk, walk, walk]
    rfl
  · rw [walk, walk, walk, walk]
    rfl
  · rw [walk, walk, walk]
    rfl

theorem peek_cases (src : List UInt8) (n : ℕ) :
    (∃ c, src[n]? = some c ∧ c.toNat < 128) ∨ (peek src n >>= decAt) = .error .wildAccess := by
  rw [peek]
  cases h : src[n]? with
  | none => exact Or.inr rfl
  | some c =>
    by_cases hc : c.toNat < 128
    · exact Or.inl ⟨c, rfl, hc⟩
    · exact Or.inr (decAt_of_ge (by omega))

theorem peek_some {src : List UInt8} {n : ℕ} {c : UInt8} (h : src[n]? = some c)
    (hc : c.toNat < 128) : (peek src n >>= decAt) = .ok (val c) := by
  rw [peek, h]
  exact decAt_of_lt hc

/-- One round on a character that is no line break. -/
theorem plainRound_spec {dlen : ℤ} {s : Dec} {c : UInt8} {src : List UInt8} (hs : s.src = c :: src)
    (hc : isBreak c = false) :
    (∀ c1 c2 c3 cs, src = c1 :: c2 :: c3 :: cs → Whole [c, c1, c2, c3] → plainRound dlen s =
      flush dlen (val c) (val c1) (val c2) (val c3) { s with i := s.i+4, src := cs }) ∧
    (¬Whole (c :: src.take 3) → plainRound dlen s = .error .wildAccess) := by
  have hpeek : peek s.src 0 = .ok c := by rw [hs]; rfl
  rw [plainRound, hpeek, ok_bind, if_neg (by simp [hc])]
  constructor
  · rintro c1 c2 c3 cs rfl ⟨-, hlt⟩
    simp only [List.mem_cons, List.not_mem_nil, or_false, forall_eq_or_imp, forall_eq] at hlt
    obtain ⟨h0, h1, h2, h3⟩ := hlt
    have p1 : (peek s.src 1 >>= decAt) = .ok (val c1) := peek_some (by rw [hs]; rfl) h1
    have p2 : (peek s.src 2 >>= decAt) = .ok (val c2) := peek_some (by rw [hs]; rfl) h2
    have p3 : (peek s.src 3 >>= decAt) = .ok (val c3) := peek_some (by rw [hs]; rfl) h3
    rw [decAt_of_lt h0, ok_bind, p1, ok_bind, p2, ok_bind, p3, ok_bind, hs]
    rfl
  · intro hw
    by_cases h0 : c.toNat < 128
    · rw [decAt_of_lt h0, ok_bind]
      rcases peek_cases s.src 1 with ⟨c1, e1, h1⟩ | he
      · rw [peek_some e1 h1, ok_bind]
        rcases peek_cases s.src 2 with ⟨c2, e2, h2⟩ | he
        · rw [peek_some e2 h2, ok_bind]
          rcases peek_cases s.src 3 with ⟨c3, e3, h3⟩ | he
          · rw [hs] at e1 e2 e3
            rcases src with _ | ⟨d1, _ | ⟨d2, _ | ⟨d3, cs⟩⟩⟩
            · cases e1
            · cases e2
            · cases e3
            · obtain rfl : d1 = c1 := Option.some.inj e1
              obtain rfl : d2 = c2 := Option.some.inj e2
              obtain rfl : d3 = c3 := Option.some.inj e3
              refine absurd ⟨rfl, ?_⟩ hw
              simp [h0, h1, h2, h3]
          · rw [he]
            rfl
        · rw [he]
          rfl
      · rw [he]
        rfl
    · rw [decAt_of_ge (by omega)]
      rfl

theorem flush_eq {dlen : ℤ} {s : Dec} {t0 t1 t2 t3 : ℕ} (ho : s.out.length ≤ dlen) :
    flush dlen t0 t1 t2 t3 s =
      let j := usub 32 s.j (pads [t0, t1, t2, t3])
      let count := (s.count+j).bmod (2^32)
      if dlen < count then .ok (s, some errBufferTooSmall)
      else if (s.out.length+min j 3 : ℕ) ≤ dlen then
        .ok ({ s with j, count, tmp := [], out := s.out ++ (quad t0 t1 t2 t3).take j }, none)
      else .error .wildAccess := by
  rw [flush, ← pads_quad]
  simp only
  split
  · rfl
  · rw [store_eq ho]
    split
    · rfl
    · rfl

/-- The loop without checks runs on the groups it walks over. -/
theorem plainLoop_eq {dlen : ℤ} {slen fuel : ℕ} {s : Dec} (hf : slen-s.i ≤ fuel)
    (hs : slen-s.i ≤ s.src.length) (ho : s.out.length ≤ dlen) :
    (decodeLoop slen (plainRound dlen) fuel s).map (fun r => (r.2, r.1.out)) =
      runGroups dlen (walk (slen-s.i) s.src 0) s.j s.count s.out := by
  induction fuel generalizing s with
  | zero =>
    rw [decodeLoop_done (by omega), show slen-s.i = 0 by omega]
    rfl
  | succ fuel ih =>
    by_cases hi : s.i < slen
    · obtain ⟨m, hm⟩ : ∃ m, slen-s.i = m+1 := ⟨slen-s.i-1, by omega⟩
      obtain ⟨c, src, hsrc⟩ : ∃ c src, s.src = c :: src := by
        cases h : s.src with
        | nil =>
          rw [h] at hs
          simp only [List.length_nil] at hs
          omega
        | cons c src => exact ⟨c, src, rfl⟩
      rw [hsrc, List.length_cons] at hs
      cases hc : isBreak c with
      | true =>
        have hround : plainRound dlen s = .ok ({ s with i := s.i+1, src := s.src.drop 1 }, none) := by
          rw [plainRound, show peek s.src 0 = .ok c by rw [hsrc]; rfl, ok_bind, if_pos hc]
        have hm' : slen-(s.i+1) = m := by omega
        have := ih (s := { s with i := s.i+1, src := s.src.drop 1 }) (by simp only; omega)
          (by simp only [hsrc, List.drop_succ_cons, List.drop_zero]; omega) ho
        rw [decodeLoop_next hi hround, this, hm, hsrc, walk, if_pos hc]
        simp [hm']
      | false =>
        by_cases hw : Whole (c :: src.take 3)
        · obtain ⟨c1, c2, c3, cs, rfl⟩ : ∃ c1 c2 c3 cs, src = c1 :: c2 :: c3 :: cs := by
            rcases src with _ | ⟨d1, _ | ⟨d2, _ | ⟨d3, cs⟩⟩⟩
            · exact absurd hw.1 (by simp)
            · exact absurd hw.1 (by simp)
            · exact absurd hw.1 (by simp)
            · exact ⟨d1, d2, d3, cs, rfl⟩
          have hw : Whole [c, c1, c2, c3] := hw
          have hround : plainRound dlen s = _ := (plainRound_spec hsrc hc).1 c1 c2 c3 cs rfl hw
          rw [flush_eq (s := { s with i := s.i+4, src := cs }) ho] at hround
          rw [hm, hsrc, walk_group hc, runGroups, if_pos hw]
          simp only [vals, List.map_cons, List.map_nil] at hround ⊢
          generalize usub 32 s.j (pads [val c, val c1, val c2, val c3]) = j at hround ⊢
          generalize (s.count+j).bmod (2^32) = count at hround ⊢
          by_cases hd : dlen < count
          · rw [if_pos hd] at hround ⊢
            rw [decodeLoop_return hi hround]
            rfl
          · rw [if_neg hd] at hround ⊢
            by_cases hr : (s.out.length+min j 3 : ℕ) ≤ dlen
            · rw [if_pos hr] at hround ⊢
              rw [decodeLoop_next hi hround, ih]
              · simp only [show slen-(s.i+4) = m-3 by omega]
                rfl
              · simp only
                omega
              · simp only [List.length_cons] at hs ⊢
                omega
              · simp only [List.length_append, List.length_take, quad_length]
                exact hr
            · rw [if_neg hr] at hround ⊢
              rw [decodeLoop_error hi hround]
              rfl
        · have hround : plainRound dlen s = _ := (plainRound_spec hsrc hc).2 hw
          rw [decodeLoop_error hi hround, hm, hsrc, walk, if_neg (by simp [hc]), runGroups, if_neg hw]
          rfl
    · rw [decodeLoop_done (by omega), show slen-s.i = 0 by omega]
      rfl

theorem quadOf_vals {g : List UInt8} (h : g.length = 4) (j : ℕ) (vs : List ℕ) :
    groupBytes j (vals g ++ vs) =
      (quadOf (vals g)).take (j-pads (vals g)) ++ groupBytes (j-pads (vals g)) vs := by
  obtain ⟨t0, t1, t2, t3, ht⟩ := @eq_quad (vals g) (by rw [vals, List.length_map, h])
  rw [ht]
  rfl

/-- As long as no more pads come than a group has bytes, the loop writes the
bytes of its groups, and faults at the first group that is not whole. -/
theorem runGroups_eq {dlen : ℤ} {gs : List (List UInt8)} {j : ℕ} {count : ℤ} {out : List UInt8}
    (hj : j ≤ 3) (hp : pads (vals gs.flatten) ≤ j) (hc : count = out.length)
    (hroom : (out.length+(groupBytes j (vals gs.flatten)).length : ℕ) ≤ dlen)
    (hsmall : out.length+(groupBytes j (vals gs.flatten)).length < 2^31) :
    runGroups dlen gs j count out =
      if ∀ g ∈ gs, Whole g then .ok (none, out ++ groupBytes j (vals gs.flatten))
      else .error .wildAccess := by
  induction gs generalizing j count out with
  | nil => simp [runGroups, vals, groupBytes]
  | cons g gs ih =>
    by_cases hg : Whole g
    · have hflat : vals (g :: gs).flatten = vals g ++ vals gs.flatten := by
        rw [List.flatten_cons, vals, List.map_append]
        rfl
      rw [hflat] at hp hroom hsmall ⊢
      rw [quadOf_vals hg.1] at hroom hsmall ⊢
      rw [pads_append] at hp
      have hlen : ((quadOf (vals g)).take (j-pads (vals g))).length = j-pads (vals g) := by
        obtain ⟨t0, t1, t2, t3, ht⟩ := @eq_quad (vals g) (by rw [vals, List.length_map, hg.1])
        rw [ht, List.length_take]
        exact Nat.min_eq_left (by rw [quadOf, quad_length]; omega)
      rw [List.length_append, hlen] at hroom hsmall
      have hcount : (count+((j-pads (vals g) : ℕ) : ℤ)).bmod (2^32) =
          (out.length+(j-pads (vals g)) : ℕ) := by
        rw [hc, ← Int.natCast_add]
        apply Int.bmod_eq_of_le
        · omega
        · omega
      rw [runGroups, if_pos hg]
      simp only [usub_of_le (show pads (vals g) ≤ j by omega) (show j < 2^32 by omega), hcount]
      rw [if_neg (by omega), if_pos (by omega), ih (by omega) (by omega)]
      · simp only [List.mem_cons, forall_eq_or_imp, hg, true_and, List.append_assoc]
      · rw [List.length_append, hlen]
      · rw [List.length_append, hlen]
        omega
      · rw [List.length_append, hlen]
        omega
    · rw [runGroups, if_neg hg, if_neg (fun h => hg (h g (by simp)))]

end Plain

end CLearning.Base64Loops