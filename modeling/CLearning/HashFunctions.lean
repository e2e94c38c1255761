import CLearning.FnvHash
import CLearning.Mixing

/-!
# Hash functions

`demo_hash.h` and `dict.c` share a 32 bit mix of integers, MurmurHash2 and the
hash of 33 that ignores case; `demo_hash.h` adds the hash of 33 over a string.
The seed is a global of each file. Memory is little-endian, a `char` is signed.
-/

set_option autoImplicit false

namespace CLearning.HashFunctions
open CLearning.Machine CLearning.FnvHash CLearning.Mixing

section Source

def intHash (key : BitVec 32) : BitVec 32 :=
  let key := key+~~~(key <<< 15)
  let key := key ^^^ (key >>> 10)
  let key := key+(key <<< 3)
  let key := key ^^^ (key >>> 6)
  let key := key+~~~(key <<< 11)
  key ^^^ (key >>> 16)

def dictIntHashFunction : BitVec 32 → BitVec 32 := intHash

def m : BitVec 32 := 0x5bd1e995
def r : ℕ := 24

def widen (octet : UInt8) : BitVec 32 := octet.toBitVec.setWidth 32

def word (a b c d : UInt8) : BitVec 32 :=
  BitVec.ofNat 32 (a.toNat+b.toNat*2^8+c.toNat*2^16+d.toNat*2^24)

def readWord (key : List UInt8) (p : ℕ) : Run (BitVec 32) := do
  let a ← readOctet key p
  let b ← readOctet key (p+1)
  let c ← readOctet key (p+2)
  let d ← readOctet key (p+3)
  .ok (word a b c d)

def mixWord (h k : BitVec 32) : BitVec 32 :=
  let k := k*m
  let k := k ^^^ (k >>> r)
  let k := k*m
  let h := h*m
  h ^^^ k

/-- The `while` loop of `MurmurHash2`: the hash, with what is left of `len` and where
`data` stands. -/
def murmurLoop (key : List UInt8) : ℕ → ℕ → BitVec 32 → Run (BitVec 32 × ℕ × ℕ)
  | len+4, data, h => do
    let k ← readWord key data
    murmurLoop key len (data+4) (mixWord h k)
  | len, data, h => .ok (h, len, data)

/-- The cases of its `switch`, each of which falls through to the next. -/
def murmurCase1 (key : List UInt8) (data : ℕ) (h : BitVec 32) : Run (BitVec 32) := do
  let octet ← readOctet key data
  .ok ((h ^^^ widen octet)*m)

def murmurCase2 (key : List UInt8) (data : ℕ) (h : BitVec 32) : Run (BitVec 32) := do
  let octet ← readOctet key (data+1)
  murmurCase1 key data (h ^^^ (widen octet <<< 8))

def murmurCase3 (key : List UInt8) (data : ℕ) (h : BitVec 32) : Run (BitVec 32) := do
  let octet ← readOctet key (data+2)
  murmurCase2 key data (h ^^^ (widen octet <<< 16))

def murmurSwitch (key : List UInt8) (len data : ℕ) (h : BitVec 32) : Run (BitVec 32) :=
  match len with
  | 3 => murmurCase3 key data h
  | 2 => murmurCase2 key data h
  | 1 => murmurCase1 key data h
  | _ => .ok h

def finalMix (h : BitVec 32) : BitVec 32 :=
  let h := h ^^^ (h >>> 13)
  let h := h*m
  h ^^^ (h >>> 15)

/-- What `MurmurHash2` takes into `h`, from where `data` stands. -/
def murmurOctets (key : List UInt8) (len data : ℕ) (h : BitVec 32) : Run (BitVec 32) := do
  let (h, len, data) ← murmurLoop key len data h
  murmurSwitch key len data h

/-- `MurmurHash2` behind the first value of `h`. -/
def murmur (h : BitVec 32) (key : List UInt8) (len : ℕ) : Run (BitVec 32) := do
  let h ← murmurOctets key len 0 h
  .ok (finalMix h)

/-- `MurmurHash2`, with a `size_t` for a length. -/
def murmurHash2 (seed : BitVec 32) (key : List UInt8) (len : ℕ) : Run (BitVec 32) :=
  murmur (seed ^^^ BitVec.ofNat 32 len) key len

/-- `dictGenHashFunction`, with an `int`: one below zero enters neither loop nor `switch`. -/
def dictGenHashFunction (seed : BitVec 32) (key : List UInt8) (len : ℤ) : Run (BitVec 32) :=
  murmur (seed ^^^ BitVec.ofInt 32 len) key len.toNat

def djbLoop : List UInt8 → BitVec 32 → Run (BitVec 32)
  | [], _ => .error .wildAccess
  | c :: str, hash =>
    if c = 0 then .ok hash else djbLoop str (((hash <<< 5)+hash)+c.toBitVec.signExtend 32)

def djbHash (seed : BitVec 32) (str : List UInt8) : Run (BitVec 32) := do
  let hash ← djbLoop str seed
  .ok (hash &&& ~~~((1 : BitVec 32) <<< 31))

/-- `tolower` of the C locale. -/
def tolower (c : UInt8) : UInt8 := if 65 ≤ c ∧ c ≤ 90 then c+32 else c

def djbCaseLoop (key : List UInt8) : ℕ → ℕ → BitVec 32 → Run (BitVec 32)
  | 0, _, hash => .ok hash
  | len+1, buf, hash => do
    let c ← readOctet key buf
    djbCaseLoop key len (buf+1) (((hash <<< 5)+hash)+widen (tolower c))

def djbCaseHash (seed : BitVec 32) (buf : List UInt8) (len : ℕ) : Run (BitVec 32) :=
  djbCaseLoop buf len 0 seed

/-- `dictGenCaseHashFunction`; an `int` below zero counts down past what any buffer holds. -/
def dictGenCaseHashFunction (seed : BitVec 32) (buf : List UInt8) (len : ℤ) : Run (BitVec 32) :=
  if 0 ≤ len then djbCaseLoop buf len.toNat 0 seed else .error .wildAccess

end Source

section Integers

theorem intHash_injective : Function.Injective intHash := by
  have h1 := add_not_injective (w := 32) (s := 15) (n := 0x40008001) (by decide)
  have h2 := (xorShift_injective (w := 32) (s := 10) (by decide)).comp h1
  have h3 := (add_shiftLeft_injective (w := 32) (s := 3) (n := 0x38e38e39) (by decide)).comp h2
  have h4 := (xorShift_injective (w := 32) (s := 6) (by decide)).comp h3
  have h5 := (add_not_injective (w := 32) (s := 11) (n := 0x400801) (by decide)).comp h4
  exact (xorShift_injective (w := 32) (s := 16) (by decide)).comp h5

/-- No two integers have the same hash, and every value is the hash of one. -/
theorem intHash_bijective :
    Function.Bijective intHash ∧ Function.Bijective dictIntHashFunction := by
  have hfinite : Finite (BitVec 32) := Finite.of_injective _ BitVec.toFin_injective
  have hbij := Finite.injective_iff_bijective.mp intHash_injective
  exact ⟨hbij, hbij⟩

end Integers

section Words

variable {a b c d : UInt8} {key t : List UInt8} {p : ℕ} {h : BitVec 32}

theorem readOctet_drop {i : ℕ} (hdrop : key.drop p = t) (ha : t[i]? = some a) :
    readOctet key (p+i) = .ok a := by
  rw [← hdrop, List.getElem?_drop] at ha
  rw [readOctet, ha]

theorem readWord_drop (hdrop : key.drop p = a :: b :: c :: d :: t) :
    readWord key p = .ok (word a b c d) := by
  have hlow : readOctet key p = .ok a := readOctet_drop (i := 0) hdrop rfl
  rw [readWord, hlow, readOctet_drop (i := 1) hdrop rfl,
    readOctet_drop (i := 2) hdrop rfl, readOctet_drop (i := 3) hdrop rfl]
  rfl

theorem word_inj {a' b' c' d' : UInt8} (hw : word a b c d = word a' b' c' d') :
    a = a' ∧ b = b' ∧ c = c' ∧ d = d' := by
  have hn := congrArg BitVec.toNat hw
  simp only [word, BitVec.toNat_ofNat] at hn
  simp only [← UInt8.toNat_inj]
  have := a.toNat_lt
  have := b.toNat_lt
  have := c.toNat_lt
  have := d.toNat_lt
  have := a'.toNat_lt
  have := b'.toNat_lt
  have := c'.toNat_lt
  have := d'.toNat_lt
  omega

theorem pack_inj {a' b' c' : UInt8}
    (h : (widen c <<< 16) ^^^ ((widen b <<< 8) ^^^ widen a) =
      (widen c' <<< 16) ^^^ ((widen b' <<< 8) ^^^ widen a')) : a = a' ∧ b = b' ∧ c = c' := by
  have hbit := fun i => congrArg (·.getLsbD i) h
  simp only [widen, BitVec.getLsbD_xor, BitVec.getLsbD_shiftLeft, BitVec.getLsbD_setWidth] at hbit
  have inj {x y : UInt8} (hxy : ∀ i < 8, x.toBitVec.getLsbD i = y.toBitVec.getLsbD i) : x = y :=
    UInt8.toBitVec_inj.mp (BitVec.eq_of_getLsbD_eq hxy)
  refine ⟨inj fun i hi => ?_, inj fun i hi => ?_, inj fun i hi => ?_⟩
  · have := hbit i
    simpa [show i < 16 by omega, hi, show i < 32 by omega] using this
  · have := hbit (i+8)
    simpa [show ¬i+8 < 8 by omega, show i+8 < 16 by omega, show i+8 < 32 by omega,
      show i < 32 by omega] using this
  · have := hbit (i+16)
    simpa [show ¬i+16 < 16 by omega, show i+16 < 32 by omega, show i < 32 by omega,
      show i+8 < 32 by omega, show i+16-8 = i+8 by omega] using this

end Words

section Murmur

variable {l a b t key : List UInt8} {s s' : BitVec 32}

def words : List UInt8 → List (BitVec 32)
  | a :: b :: c :: d :: key => word a b c d :: words key
  | _ => []

def rest : List UInt8 → List UInt8
  | _ :: _ :: _ :: _ :: key => rest key
  | key => key

def absorbRest (h : BitVec 32) : List UInt8 → BitVec 32
  | [a, b, c] => ((h ^^^ (widen c <<< 16)) ^^^ (widen b <<< 8) ^^^ widen a)*m
  | [a, b] => (h ^^^ (widen b <<< 8) ^^^ widen a)*m
  | [a] => (h ^^^ widen a)*m
  | _ => h

def absorb (h : BitVec 32) (key : List UInt8) : BitVec 32 :=
  absorbRest ((words key).foldl mixWord h) (rest key)

theorem murmurLoop_word (len p : ℕ) (s : BitVec 32) :
    murmurLoop key (len+4) p s =
      readWord key p >>= fun k => murmurLoop key len (p+4) (mixWord s k) := rfl

theorem murmurOctets_rest {len p : ℕ} (hlen : len < 4) :
    murmurOctets key len p s = murmurSwitch key len p s := by
  have hloop : murmurLoop key len p s = .ok (s, len, p) := by
    rw [murmurLoop]
    omega
  rw [murmurOctets, hloop, ok_bind]

theorem length_of_no_word (h : ∀ a b c d key, t = a :: b :: c :: d :: key → False) :
    t.length < 4 := by
  rcases t with _ | ⟨a, _ | ⟨b, _ | ⟨c, _ | ⟨d, t⟩⟩⟩⟩
  case cons.cons.cons.cons => exact (h a b c d t rfl).elim
  all_goals simp

theorem murmurSwitch_drop {p : ℕ} (hp : key.drop p = t) (ht : t.length < 4) :
    murmurSwitch key t.length p s = .ok (absorbRest s t) := by
  have h0 {a : UInt8} (ha : t[0]? = some a) : readOctet key p = .ok a :=
    readOctet_drop (i := 0) hp ha
  have h1 {b : UInt8} (hb : t[1]? = some b) : readOctet key (p+1) = .ok b := readOctet_drop hp hb
  have h2 {c : UInt8} (hc : t[2]? = some c) : readOctet key (p+2) = .ok c := readOctet_drop hp hc
  rcases t with _ | ⟨a, _ | ⟨b, _ | ⟨c, _ | ⟨d, t⟩⟩⟩⟩
  · rfl
  · change murmurCase1 key p s = _
    rw [murmurCase1, h0 rfl, ok_bind, absorbRest]
  · change murmurCase2 key p s = _
    rw [murmurCase2, h1 rfl, ok_bind, murmurCase1, h0 rfl, ok_bind, absorbRest]
  · change murmurCase3 key p s = _
    rw [murmurCase3, h2 rfl, ok_bind, murmurCase2, h1 rfl, ok_bind, murmurCase1, h0 rfl, ok_bind,
      absorbRest]
  · exact absurd ht (Nat.not_lt.mpr (Nat.le_add_left 4 t.length))

theorem murmurOctets_drop (t : List UInt8) :
    ∀ p s, key.drop p = t → murmurOctets key t.length p s = .ok (absorb s t) := by
  induction t using words.induct with
  | case1 a b c d t ih =>
    intro p s hp
    have hlength : (a :: b :: c :: d :: t).length = t.length+4 := rfl
    rw [murmurOctets, hlength, murmurLoop_word, readWord_drop hp, ok_bind, ← murmurOctets, absorb,
      words, rest, List.foldl_cons]
    exact ih (p+4) _ (by rw [← List.drop_drop, hp]; rfl)
  | case2 t h =>
    intro p s hp
    have ht := length_of_no_word h
    rw [murmurOctets_rest ht, murmurSwitch_drop hp ht, absorb, words.eq_2 t h, rest.eq_2 t h,
      List.foldl_nil]

theorem murmur_eq (s : BitVec 32) (key : List UInt8) :
    murmur s key key.length = .ok (finalMix (absorb s key)) := by
  rw [murmur, murmurOctets_drop key 0 s rfl, ok_bind]

theorem mul_m_injective : Function.Injective (·*m) := mul_injective (n := 0xe59b19bd) (by decide)

theorem finalMix_injective : Function.Injective finalMix :=
  (xorShift_injective (by decide)).comp
    (mul_m_injective.comp (xorShift_injective (w := 32) (s := 13) (by decide)))

theorem mixWord_state (k : BitVec 32) : Function.Injective (mixWord · k) := by
  intro x y hxy
  exact mul_m_injective ((BitVec.xor_left_inj _).mp hxy)

theorem mixWord_word (h : BitVec 32) : Function.Injective (mixWord h) := by
  intro x y hxy
  have hk := (BitVec.xor_right_inj _).mp hxy
  exact mul_m_injective (xorShift_injective (by decide) (mul_m_injective hk))

theorem absorbRest_state (t : List UInt8) : Function.Injective (absorbRest · t) := by
  intro s s' h
  rcases t with _ | ⟨a, _ | ⟨b, _ | ⟨c, _ | ⟨d, t⟩⟩⟩⟩
  · exact h
  · simpa only [BitVec.xor_left_inj] using mul_m_injective h
  · simpa only [BitVec.xor_left_inj] using mul_m_injective h
  · simpa only [BitVec.xor_left_inj] using mul_m_injective h
  · exact h

/-- What is left behind the last word can be told from what it makes of `h`. -/
theorem absorbRest_octets (hlen : a.length = b.length) (hlt : a.length < 4)
    (h : absorbRest s a = absorbRest s b) : a = b := by
  rcases a with _ | ⟨a₀, _ | ⟨a₁, _ | ⟨a₂, _ | ⟨a₃, a⟩⟩⟩⟩
  · exact (List.length_eq_zero_iff.mp hlen.symm).symm
  · obtain ⟨b₀, rfl⟩ := List.length_eq_one_iff.mp hlen.symm
    have hoctet := (BitVec.xor_right_inj s).mp (mul_m_injective h)
    have hpack : (widen 0 <<< 16) ^^^ ((widen 0 <<< 8) ^^^ widen a₀) =
        (widen 0 <<< 16) ^^^ ((widen 0 <<< 8) ^^^ widen b₀) := by rw [hoctet]
    obtain ⟨rfl, -, -⟩ := pack_inj hpack
    rfl
  · obtain ⟨b₀, b₁, rfl⟩ := List.length_eq_two.mp hlen.symm
    have hxor := mul_m_injective h
    rw [BitVec.xor_assoc, BitVec.xor_assoc, BitVec.xor_right_inj] at hxor
    have hpack : (widen 0 <<< 16) ^^^ ((widen a₁ <<< 8) ^^^ widen a₀) =
        (widen 0 <<< 16) ^^^ ((widen b₁ <<< 8) ^^^ widen b₀) := by rw [hxor]
    obtain ⟨rfl, rfl, -⟩ := pack_inj hpack
    rfl
  · obtain ⟨b₀, b₁, b₂, rfl⟩ := List.length_eq_three.mp hlen.symm
    have hxor := mul_m_injective h
    rw [BitVec.xor_assoc, BitVec.xor_assoc, BitVec.xor_assoc, BitVec.xor_assoc,
      BitVec.xor_right_inj] at hxor
    obtain ⟨rfl, rfl, rfl⟩ := pack_inj hxor
    rfl
  · exact absurd hlt (Nat.not_lt.mpr (Nat.le_add_left 4 a.length))

theorem words_append (t : List UInt8) (hl : 4 ∣ l.length) :
    words (l ++ t) = words l ++ words t ∧ rest (l ++ t) = rest t := by
  induction l using words.induct with
  | case1 a b c d l ih =>
    obtain ⟨hwords, hrest⟩ := ih ((Nat.dvd_add_left (dvd_refl 4)).mp hl)
    exact ⟨congrArg (word a b c d :: ·) hwords, hrest⟩
  | case2 l h =>
    have hnil := List.length_eq_zero_iff.mp (Nat.eq_zero_of_dvd_of_lt hl (length_of_no_word h))
    subst hnil
    exact ⟨rfl, rfl⟩

theorem words_of_lt (ht : t.length < 4) : words t = [] ∧ rest t = t := by
  have h : ∀ a b c d key, t = a :: b :: c :: d :: key → False := by
    rintro a b c d key rfl
    exact absurd ht (Nat.not_lt.mpr (Nat.le_add_left 4 key.length))
  exact ⟨words.eq_2 t h, rest.eq_2 t h⟩

theorem absorb_ne (hl : 4 ∣ l.length) (hlen : a.length = b.length)
    (hunit : a.length = 4 ∨ a.length < 4 ∧ t = []) (hne : a ≠ b) :
    absorb s (l ++ (a ++ t)) ≠ absorb s (l ++ (b ++ t)) := by
  rw [absorb, absorb, (words_append _ hl).1, (words_append _ hl).1, (words_append _ hl).2,
    (words_append _ hl).2]
  rcases hunit with h4 | ⟨hlt, rfl⟩
  · obtain ⟨a₀, a₁, a₂, a₃, rfl⟩ := List.length_eq_four.mp h4
    obtain ⟨b₀, b₁, b₂, b₃, rfl⟩ := List.length_eq_four.mp (hlen.symm.trans h4)
    have hword : word a₀ a₁ a₂ a₃ ≠ word b₀ b₁ b₂ b₃ := by
      rintro hw
      obtain ⟨rfl, rfl, rfl, rfl⟩ := word_inj hw
      exact hne rfl
    exact fun h => foldl_ne mixWord_state mixWord_word hword _ _ s (absorbRest_state (rest t) h)
  · intro h
    have hlt' : b.length < 4 := hlen ▸ hlt
    rw [List.append_nil, List.append_nil, (words_of_lt hlt).1, (words_of_lt hlt).2,
      (words_of_lt hlt').1, (words_of_lt hlt').2] at h
    exact hne (absorbRest_octets hlen hlt h)

/-- Keys of one length that differ in one aligned word, or in what is left behind the last
word, have different hashes under every seed, and both functions compute the same. -/
theorem murmurHash2_ne (seed : BitVec 32) (hl : 4 ∣ l.length) (hlen : a.length = b.length)
    (hunit : a.length = 4 ∨ a.length < 4 ∧ t = []) (hne : a ≠ b) :
    ∃ x y, x ≠ y ∧
      murmurHash2 seed (l ++ (a ++ t)) (l ++ (a ++ t)).length = .ok x ∧
      murmurHash2 seed (l ++ (b ++ t)) (l ++ (b ++ t)).length = .ok y ∧
      dictGenHashFunction seed (l ++ (a ++ t)) (l ++ (a ++ t)).length = .ok x ∧
      dictGenHashFunction seed (l ++ (b ++ t)) (l ++ (b ++ t)).length = .ok y := by
  have hlength : (l ++ (b ++ t)).length = (l ++ (a ++ t)).length := by
    simp only [List.length_append, hlen]
  refine ⟨_, _, fun h => ?_, murmur_eq _ _, murmur_eq _ _, ?_, ?_⟩
  · rw [hlength] at h
    exact absorb_ne hl hlen hunit hne (finalMix_injective h)
  · rw [dictGenHashFunction, BitVec.ofInt_natCast]
    exact murmur_eq _ _
  · rw [dictGenHashFunction, BitVec.ofInt_natCast]
    exact murmur_eq _ _

theorem murmurHash2_ne_tail : ∃ x y, x ≠ y ∧
    murmurHash2 5381 ([104, 101, 108, 108] ++ ([111] ++ [])) 5 = .ok x ∧
    murmurHash2 5381 ([104, 101, 108, 108] ++ ([112] ++ [])) 5 = .ok y ∧
    dictGenHashFunction 5381 ([104, 101, 108, 108] ++ ([111] ++ [])) 5 = .ok x ∧
    dictGenHashFunction 5381 ([104, 101, 108, 108] ++ ([112] ++ [])) 5 = .ok y :=
  murmurHash2_ne 5381 (l := [104, 101, 108, 108]) (t := []) (by decide) rfl
    (.inr ⟨by decide, rfl⟩) (by decide)

end Murmur

section Octets

variable {l l' t t' s s' : List UInt8} {a b : UInt8} {hash : BitVec 32}

def times33 {w : ℕ} (f : UInt8 → BitVec w) (hash : BitVec w) (c : UInt8) : BitVec w := hash*33+f c

theorem times33_eq (hash x : BitVec 32) : ((hash <<< 5)+hash)+x = hash*33+x := by
  rw [BitVec.add_comm (hash <<< 5), add_shiftLeft]
  rfl

theorem djbLoop_eq (hs : ∀ c ∈ s, c ≠ 0) (rest : List UInt8) (hash : BitVec 32) :
    djbLoop (s ++ 0 :: rest) hash =
      .ok (s.foldl (times33 fun c => c.toBitVec.signExtend 32) hash) := by
  induction s generalizing hash with
  | nil => rfl
  | cons c s ih =>
    rw [List.cons_append, djbLoop, if_neg (hs c List.mem_cons_self), times33_eq]
    exact ih (fun x hx => hs x (List.mem_cons_of_mem c hx)) _

theorem times33_low (s : List UInt8) (hash : BitVec 32) :
    (s.foldl (times33 fun c => c.toBitVec.signExtend 32) hash).setWidth 31 =
      s.foldl (times33 fun c => (c.toBitVec.signExtend 32).setWidth 31) (hash.setWidth 31) := by
  refine (List.foldl_hom (BitVec.setWidth 31) fun hash c => ?_).symm
  rw [times33, times33, BitVec.setWidth_add _ _ (by decide), BitVec.setWidth_mul _ _ (by decide)]
  rfl

theorem strip_low (hash : BitVec 32) :
    (hash &&& ~~~((1 : BitVec 32) <<< 31)).setWidth 31 = hash.setWidth 31 := by
  rw [BitVec.setWidth_and, show (~~~((1 : BitVec 32) <<< 31)).setWidth 31 = BitVec.allOnes 31 from
    rfl, BitVec.and_allOnes]

theorem times33_state {w : ℕ} {n : BitVec w} (h : 33*n = 1) (f : UInt8 → BitVec w) (c : UInt8) :
    Function.Injective (times33 f · c) := by
  intro x y hxy
  exact mul_injective h (add_right_cancel hxy)

theorem signed_injective :
    Function.Injective fun c : UInt8 => (c.toBitVec.signExtend 32).setWidth 31 := by
  intro a b h
  refine UInt8.toBitVec_inj.mp (BitVec.eq_of_getLsbD_eq fun i hi => ?_)
  have hbit := congrArg (·.getLsbD i) h
  simpa only [BitVec.getLsbD_setWidth, BitVec.getLsbD_signExtend, show i < 31 by omega,
    show i < 32 by omega, hi, decide_true, Bool.true_and, if_true] using hbit

/-- Strings that differ in one character have different hashes, whatever lies behind them. -/
theorem djbHash_ne (seed : BitVec 32) (ha : ∀ c ∈ l ++ a :: t, c ≠ 0)
    (hb : ∀ c ∈ l ++ b :: t, c ≠ 0) (hne : a ≠ b) (after after' : List UInt8) :
    ∃ x y, x ≠ y ∧ djbHash seed ((l ++ a :: t) ++ 0 :: after) = .ok x ∧
      djbHash seed ((l ++ b :: t) ++ 0 :: after') = .ok y := by
  refine ⟨_, _, fun h => ?_, by rw [djbHash, djbLoop_eq ha, ok_bind],
    by rw [djbHash, djbLoop_eq hb, ok_bind]⟩
  have hlow := congrArg (BitVec.setWidth 31) h
  rw [strip_low, strip_low, times33_low, times33_low] at hlow
  refine foldl_ne (times33_state (n := 0x3e0f83e1) (by decide) _) (fun hash x y hxy => ?_) hne l t
    _ hlow
  exact signed_injective (add_left_cancel hxy)

theorem djbHash_ne_first : ∃ x y, x ≠ y ∧
    djbHash 5381 (([] ++ 104 :: [105]) ++ 0 :: [9]) = .ok x ∧
      djbHash 5381 (([] ++ 72 :: [105]) ++ 0 :: []) = .ok y :=
  djbHash_ne 5381 (l := []) (t := [105]) (by simp) (by simp) (by decide) [9] []

theorem djbCaseLoop_drop (s : List UInt8) :
    ∀ buf hash, l.drop buf = s → djbCaseLoop l s.length buf hash =
      .ok ((s.map tolower).foldl (times33 widen) hash) := by
  induction s with
  | nil => exact fun _ _ _ => rfl
  | cons c s ih =>
    intro buf hash hdrop
    have hc : readOctet l buf = .ok c := readOctet_drop (i := 0) hdrop rfl
    rw [List.length_cons, djbCaseLoop, hc, ok_bind, times33_eq]
    exact ih (buf+1) _ (by rw [← List.drop_drop, hdrop]; rfl)

theorem djbCaseHash_eq (seed : BitVec 32) (buf : List UInt8) :
    djbCaseHash seed buf buf.length = .ok ((buf.map tolower).foldl (times33 widen) seed) :=
  djbCaseLoop_drop buf 0 seed rfl

theorem dictGenCaseHashFunction_eq (seed : BitVec 32) (buf : List UInt8) :
    dictGenCaseHashFunction seed buf buf.length = djbCaseHash seed buf buf.length := by
  rw [dictGenCaseHashFunction, if_pos (Int.natCast_nonneg _)]
  rfl

theorem widen_injective : Function.Injective widen := by
  intro a b h
  refine UInt8.toBitVec_inj.mp (BitVec.eq_of_getLsbD_eq fun i hi => ?_)
  have hbit := congrArg (·.getLsbD i) h
  simpa only [widen, BitVec.getLsbD_setWidth, show i < 32 by omega, decide_true, Bool.true_and]
    using hbit

/-- Buffers that are the same up to case but for one octet have the same hash just when that
octet is the same up to case. -/
theorem djbCaseHash_iff (seed : BitVec 32) (hl : l.map tolower = l'.map tolower)
    (ht : t.map tolower = t'.map tolower) (a b : UInt8) :
    ∃ x y, djbCaseHash seed (l ++ a :: t) (l ++ a :: t).length = .ok x ∧
      djbCaseHash seed (l' ++ b :: t') (l' ++ b :: t').length = .ok y ∧
      dictGenCaseHashFunction seed (l ++ a :: t) (l ++ a :: t).length = .ok x ∧
      dictGenCaseHashFunction seed (l' ++ b :: t') (l' ++ b :: t').length = .ok y ∧
      (x = y ↔ tolower a = tolower b) := by
  refine ⟨_, _, djbCaseHash_eq _ _, djbCaseHash_eq _ _,
    (dictGenCaseHashFunction_eq _ _).trans (djbCaseHash_eq _ _),
    (dictGenCaseHashFunction_eq _ _).trans (djbCaseHash_eq _ _), ?_⟩
  simp only [List.map_append, List.map_cons, hl, ht]
  constructor
  · intro h
    by_contra hne
    exact foldl_ne (times33_state (n := 0x3e0f83e1) (by decide) widen)
      (fun hash x y hxy => widen_injective (add_left_cancel hxy)) hne _ _ seed h
  · rintro hab
    rw [hab]

theorem djbCaseHash_iff_hello : ∃ x y,
    djbCaseHash 5381 ([104] ++ 101 :: [76, 108]) 4 = .ok x ∧
      djbCaseHash 5381 ([72] ++ 69 :: [108, 76]) 4 = .ok y ∧
      dictGenCaseHashFunction 5381 ([104] ++ 101 :: [76, 108]) 4 = .ok x ∧
      dictGenCaseHashFunction 5381 ([72] ++ 69 :: [108, 76]) 4 = .ok y ∧
      (x = y ↔ tolower 101 = tolower 69) :=
  djbCaseHash_iff 5381 (l := [104]) (t := [76, 108]) rfl rfl 101 69

def fnvStep (hash : BitVec 32) (octet : UInt8) : BitVec 32 := (hash*16777619) ^^^ widen octet

theorem ofNat_fold (hash : ℕ) (octet : UInt8) :
    fnvStep (BitVec.ofNat 32 hash) octet = BitVec.ofNat 32 (fold hash octet) := by
  have hmod : BitVec.ofNat 32 (hash*0x01000193 % 2^32) = BitVec.ofNat 32 (hash*0x01000193) :=
    BitVec.eq_of_toNat_eq (by simp)
  have hwiden : BitVec.ofNat 32 octet.toNat = widen octet := BitVec.ofNat_toNat 32 octet.toBitVec
  rw [fold, BitVec.ofNat_xor, hmod, BitVec.ofNat_mul, hwiden]
  rfl

theorem fold_ne (hne : a ≠ b) (l t : List UInt8) (hash : ℕ) :
    (l ++ a :: t).foldl fold hash ≠ (l ++ b :: t).foldl fold hash := by
  intro h
  have hbits := congrArg (BitVec.ofNat 32) h
  rw [← List.foldl_hom (BitVec.ofNat 32) ofNat_fold, ← List.foldl_hom (BitVec.ofNat 32) ofNat_fold]
    at hbits
  refine foldl_ne (fun octet x y hxy => ?_) (fun hash x y hxy => ?_) hne l t _ hbits
  · exact mul_injective (n := 0x359c449b) (by decide) ((BitVec.xor_left_inj _).mp hxy)
  · exact widen_injective ((BitVec.xor_right_inj _).mp hxy)

/-- Keys that differ in one octet have different hashes under `FNVHash` and under `mp_hash`. -/
theorem fnvHash_ne (hne : a ≠ b) (l t : List UInt8) :
    (∃ x y octets octets', x ≠ y ∧
      fnvHash 0 (l ++ a :: t) (l ++ a :: t).length = .ok (x, octets) ∧
      fnvHash 0 (l ++ b :: t) (l ++ b :: t).length = .ok (y, octets')) ∧
    ∃ x y octets octets', x ≠ y ∧
      mpHashOctets (l ++ a :: t) (l ++ a :: t).length = .ok (x, octets) ∧
      mpHashOctets (l ++ b :: t) (l ++ b :: t).length = .ok (y, octets') := by
  refine ⟨⟨_, _, _, _, ?_, fnvHash_eq _, fnvHash_eq _⟩,
    ⟨_, _, _, _, fold_ne hne l t _, mpHashOctets_eq _, mpHashOctets_eq _⟩⟩
  simp only [List.reverse_append, List.reverse_cons, List.append_assoc, List.singleton_append]
  exact fold_ne hne _ _ _

theorem fnvHash_ne_first : (∃ x y octets octets', x ≠ y ∧
      fnvHash 0 ([] ++ 104 :: [105]) 2 = .ok (x, octets) ∧
      fnvHash 0 ([] ++ 72 :: [105]) 2 = .ok (y, octets')) ∧
    ∃ x y octets octets', x ≠ y ∧
      mpHashOctets ([] ++ 104 :: [105]) 2 = .ok (x, octets) ∧
      mpHashOctets ([] ++ 72 :: [105]) 2 = .ok (y, octets') :=
  fnvHash_ne (by decide) [] [105]

end Octets

end CLearning.HashFunctions
