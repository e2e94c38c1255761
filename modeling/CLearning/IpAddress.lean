import CLearning.Machine
import CLearning.Decimal
import Mathlib.Data.List.TakeWhile

/-!
# IPv4 addresses as text and as integers

`ip2int` cuts the text in place at each dot and places the fields from the
highest octet down; `int2ip` prints the four octets.
-/

set_option autoImplicit false

namespace CLearning.IpAddress
open CLearning.Machine CLearning.Decimal

section Source

def isSpace (c : UInt8) : Bool := c = 32 || 9 ≤ c && c ≤ 13

def takeSign : List UInt8 → Bool × List UInt8
  | 45 :: s => (true, s)
  | 43 :: s => (false, s)
  | s => (false, s)

/-- `atoi`; a value outside `int` is undefined. -/
def atoi (s : List UInt8) : Run ℤ :=
  let (minus, s) := takeSign (s.dropWhile isSpace)
  let n : ℤ := value (s.takeWhile IsDigit)
  let n := if minus then -n else n
  if -2^31 ≤ n ∧ n < 2^31 then .ok n else .error .intOverflow

/-- The string at `offset`; one without an end runs out of the buffer. -/
def stringAt (buf : List UInt8) (offset : ℕ) : Run (List UInt8) :=
  if (0 : UInt8) ∈ buf.drop offset then .ok ((buf.drop offset).takeWhile (· ≠ 0))
  else .error .wildAccess

def toUint32 (n : ℤ) : ℕ := (n % 2^32).toNat

/-- A shift of an `int` by a count that may be out of range. -/
def shiftLeft (n count : ℤ) : Run ℕ :=
  if 0 ≤ count ∧ count < 32 then .ok (toUint32 (n*2^count.toNat)) else .error .intOverflow

/-- The loop of `ip2int`, with at most `fuel` characters to look at. -/
def ip2intLoop : ℕ → List UInt8 → ℕ → ℕ → ℤ → ℕ → Run (ℕ × List UInt8)
  | 0, _, _, _, _, _ => .error .outOfFuel
  | fuel+1, ip, p, offset, index, ip_32 =>
    match ip[p]? with
    | none => .error .wildAccess
    | some 0 => do
      let s ← stringAt ip offset
      let n ← atoi s
      .ok (ip_32 ||| toUint32 n, ip)
    | some 46 => do
      let ip := ip.set p 0
      let s ← stringAt ip offset
      let n ← atoi s
      let n ← shiftLeft n (index*8)
      ip2intLoop fuel ip (p+1) (p+1) (index-1) (ip_32 ||| n)
    | some _ => ip2intLoop fuel ip (p+1) offset index ip_32

/-- `ip2int` with the buffer it leaves. -/
def ip2int (ip : List UInt8) : Run (ℕ × List UInt8) := ip2intLoop (ip.length+1) ip 0 0 3 0

/-- `snprintf` of `text` into the `len` bytes at the start of `buf`. -/
def snprintf (buf : List UInt8) (len : ℕ) (text : List UInt8) : Run (List UInt8 × ℕ) :=
  let out := if len = 0 then [] else text.take (len-1) ++ [0]
  if out.length ≤ buf.length then .ok (out ++ buf.drop out.length, text.length)
  else .error .wildAccess

def quad (a b c d : List UInt8) : List UInt8 := a ++ 46 :: b ++ 46 :: c ++ 46 :: d

def int2ip (ip_32 : ℕ) (buf : List UInt8) (len : ℕ) : Run (List UInt8 × ℕ) :=
  snprintf buf len (quad (decimal ((ip_32 >>> 24) &&& 255))
    (decimal ((((ip_32 <<< 8) % 2^32) >>> 24) &&& 255))
    (decimal ((((ip_32 <<< 16) % 2^32) >>> 24) &&& 255)) (decimal (ip_32 &&& 255)))

end Source

section Scan

variable {pre f ip rest s : List UInt8} {c : UInt8} {p offset x fuel k : ℕ} {index : ℤ}

structure Field (f : List UInt8) : Prop extends Numeral f where
  bound : value f < 256

/-- Four fields from 0 to 255 without leading zeros. -/
def Quad (s : List UInt8) : Prop :=
  ∃ a b c d, Field a ∧ Field b ∧ Field c ∧ Field d ∧ s = quad a b c d

theorem field_decimal {n : ℕ} (h : n < 256) : Field (decimal n) where
  toNumeral := decimal_numeral n
  bound := by
    rw [value_decimal]
    exact h

theorem isDigit_ne (h : IsDigit c) : c ≠ 0 ∧ c ≠ 46 ∧ c ≠ 45 ∧ c ≠ 43 ∧ isSpace c = false := by
  obtain ⟨hlo, hhi⟩ := h
  refine ⟨?_, ?_, ?_, ?_, ?_⟩
  · rintro rfl
    exact absurd hlo (by decide)
  · rintro rfl
    exact absurd hlo (by decide)
  · rintro rfl
    exact absurd hlo (by decide)
  · rintro rfl
    exact absurd hlo (by decide)
  · have h32 : c ≠ 32 := by
      rintro rfl
      exact absurd hlo (by decide)
    have h13 : ¬c ≤ 13 := fun h => by
      have := UInt8.le_iff_toNat_le.mp h
      exact absurd hlo (by simp at this; omega)
    simp [isSpace, h32, h13]

theorem atoi_numeral (h : Numeral s) (hv : value s < 2^31) : atoi s = .ok (value s : ℤ) := by
  obtain ⟨c, t, rfl⟩ := List.exists_cons_of_ne_nil h.nonempty
  obtain ⟨-, -, hminus, hplus, hspace⟩ := isDigit_ne (h.digits c List.mem_cons_self)
  have hsign : takeSign (c :: t) = (false, c :: t) := by
    rw [takeSign]
    · rintro s ⟨rfl, -⟩
      exact hminus rfl
    · rintro s ⟨rfl, -⟩
      exact hplus rfl
  have htake : (c :: t).takeWhile (fun b => decide (IsDigit b)) = c :: t :=
    List.takeWhile_eq_self_iff.mpr fun b hb => decide_eq_true (h.digits b hb)
  rw [atoi, List.dropWhile_cons_of_neg (by simp [hspace]), hsign]
  simp only [htake, Bool.false_eq_true, if_false]
  rw [if_pos (by omega)]

theorem stringAt_eq (h : ∀ c ∈ f, c ≠ 0) : stringAt (pre ++ f ++ 0 :: rest) pre.length = .ok f := by
  have hdrop : (pre ++ f ++ 0 :: rest).drop pre.length = f ++ 0 :: rest := by
    rw [List.append_assoc, List.drop_left]
  rw [stringAt, hdrop, if_pos (by simp), List.takeWhile_append_of_pos fun c hc => by simp [h c hc]]
  simp

theorem loop_other (hc : ip[p]? = some c) (h0 : c ≠ 0) (h46 : c ≠ 46) :
    ip2intLoop (fuel+1) ip p offset index x = ip2intLoop fuel ip (p+1) offset index x := by
  rw [ip2intLoop, hc]
  split
  · next h => cases h
  · next h => exact absurd (Option.some_inj.mp h) h0
  · next h => exact absurd (Option.some_inj.mp h) h46
  · rfl

theorem loop_skip (h : ∀ c ∈ f, c ≠ 0 ∧ c ≠ 46) :
    ip2intLoop (f.length+fuel) (pre ++ f ++ rest) pre.length offset index x =
      ip2intLoop fuel (pre ++ f ++ rest) (pre.length+f.length) offset index x := by
  induction f generalizing pre with
  | nil => rw [List.length_nil, Nat.zero_add, Nat.add_zero]
  | cons c f ih =>
    obtain ⟨h0, h46⟩ := h c List.mem_cons_self
    have hc : (pre ++ c :: f ++ rest)[pre.length]? = some c := by simp
    have hpre : pre ++ c :: f ++ rest = (pre ++ [c]) ++ f ++ rest := by simp
    have hrest := @ih (pre ++ [c]) fun b hb => h b (List.mem_cons_of_mem _ hb)
    rw [← hpre, List.length_append, List.length_singleton] at hrest
    rw [List.length_cons, show f.length+1+fuel = f.length+fuel+1 by omega, loop_other hc h0 h46,
      hrest, show pre.length+(f.length+1) = pre.length+1+f.length by omega]

theorem shiftLeft_eq (hk : k < 4) (hv : value f < 256) :
    shiftLeft (value f) ((k : ℤ)*8) = .ok (value f*2^(8*k)) := by
  have hcount : ((k : ℤ)*8).toNat = 8*k := by omega
  have hlt : value f*2^(8*k) < 2^32 := calc
    value f*2^(8*k) < 2^8*2^(8*k) := Nat.mul_lt_mul_of_pos_right hv (by positivity)
    _ = 2^(8+8*k) := (Nat.pow_add _ _ _).symm
    _ ≤ 2^32 := Nat.pow_le_pow_right (by decide) (by omega)
  have hcast : (value f : ℤ)*2^(8*k) = ((value f*2^(8*k) : ℕ) : ℤ) := by push_cast; rfl
  rw [shiftLeft, if_pos (by omega), hcount, hcast, toUint32]
  congr 1
  omega

theorem loop_field (h : Field f) (hk : k < 4) :
    ip2intLoop (f.length+(fuel+1)) (pre ++ f ++ 46 :: rest) pre.length pre.length k x =
      ip2intLoop fuel (pre ++ f ++ 0 :: rest) (pre.length+f.length+1) (pre.length+f.length+1)
        ((k : ℤ)-1) (x ||| value f*2^(8*k)) := by
  have hne : ∀ c ∈ f, c ≠ 0 ∧ c ≠ 46 := fun c hc =>
    ⟨(isDigit_ne (h.digits c hc)).1, (isDigit_ne (h.digits c hc)).2.1⟩
  have hdot : (pre ++ f ++ 46 :: rest)[pre.length+f.length]? = some 46 := by
    rw [← List.length_append, List.getElem?_append_right (Nat.le_refl _), Nat.sub_self]
    rfl
  have hset : (pre ++ f ++ 46 :: rest).set (pre.length+f.length) 0 = pre ++ f ++ 0 :: rest := by
    rw [← List.length_append, List.set_append_right _ _ (Nat.le_refl _), Nat.sub_self]
    rfl
  rw [loop_skip hne, ip2intLoop, hdot]
  simp only [hset, stringAt_eq fun c hc => (hne c hc).1, ok_bind,
    atoi_numeral h.toNumeral (Nat.lt_trans h.bound (by decide)), shiftLeft_eq hk h.bound]

theorem loop_last (h : Field f) :
    ip2intLoop (f.length+(fuel+1)) (pre ++ f ++ 0 :: rest) pre.length pre.length index x =
      .ok (x ||| value f, pre ++ f ++ 0 :: rest) := by
  have hne : ∀ c ∈ f, c ≠ 0 ∧ c ≠ 46 := fun c hc =>
    ⟨(isDigit_ne (h.digits c hc)).1, (isDigit_ne (h.digits c hc)).2.1⟩
  have hend : (pre ++ f ++ 0 :: rest)[pre.length+f.length]? = some 0 := by
    rw [← List.length_append, List.getElem?_append_right (Nat.le_refl _), Nat.sub_self]
    rfl
  have hv := h.bound
  have hcast : toUint32 (value f) = value f := by
    rw [toUint32]
    omega
  rw [loop_skip hne, ip2intLoop, hend]
  simp only [stringAt_eq fun c hc => (hne c hc).1, ok_bind,
    atoi_numeral h.toNumeral (Nat.lt_trans h.bound (by decide)), hcast]

end Scan

section Inverse

variable {a b c d s rest buf : List UInt8} {m v k x : ℕ}

theorem or_octet (hv : v < 256) : 2^(k+8)*m ||| v*2^k = 2^k*(2^8*m+v) := by
  have hlt : v*2^k < 2^(k+8) := by
    rw [Nat.pow_add, Nat.mul_comm]
    exact Nat.mul_lt_mul_of_pos_left hv (Nat.two_pow_pos k)
  rw [← Nat.two_pow_add_eq_or_of_lt hlt, Nat.pow_add, Nat.mul_add, Nat.mul_assoc, Nat.mul_comm v]

def joined (sep : UInt8) : List UInt8 → List (List UInt8) → List UInt8
  | f, [] => f
  | f, g :: gs => f ++ sep :: joined sep g gs

def place : ℕ → List UInt8 → List (List UInt8) → ℕ
  | m, f, [] => 2^8*m+value f
  | m, f, g :: gs => place (2^8*m+value f) g gs

/-- The loop over the fields that are left, the last of them in the lowest octet. -/
theorem loop_fields (fs : List (List UInt8)) (f pre : List UInt8) (m fuel : ℕ)
    (hlen : fs.length < 4) (h : ∀ g ∈ f :: fs, Field g) :
    ip2intLoop ((joined 46 f fs).length+(fuel+1)) (pre ++ joined 46 f fs ++ 0 :: rest) pre.length
        pre.length fs.length (2^(8*fs.length+8)*m) =
      .ok (place m f fs, pre ++ joined 0 f fs ++ 0 :: rest) := by
  induction fs generalizing f pre m with
  | nil =>
    have hf := h f List.mem_cons_self
    have hor := @or_octet m (value f) 0 hf.bound
    rw [Nat.pow_zero, Nat.mul_one, Nat.one_mul] at hor
    rw [joined, loop_last hf, place, joined, ← hor]
    rfl
  | cons g gs ih =>
    have hf := h f List.mem_cons_self
    have hrest := ih g (pre ++ f ++ [0]) (2^8*m+value f) (Nat.lt_of_succ_lt hlen)
      fun e he => h e (List.mem_cons_of_mem _ he)
    have hfield := @loop_field pre f (joined 46 g gs ++ 0 :: rest) (2^(8*(gs.length+1)+8)*m)
      ((joined 46 g gs).length+(fuel+1)) (gs.length+1) hf hlen
    have hlast : (joined 46 f (g :: gs)).length+(fuel+1) =
        f.length+((joined 46 g gs).length+(fuel+1)+1) := by
      rw [joined, List.length_append, List.length_cons]
      omega
    have hbuf : pre ++ joined 46 f (g :: gs) ++ 0 :: rest =
        pre ++ f ++ 46 :: (joined 46 g gs ++ 0 :: rest) := by
      simp [joined]
    have hcut : pre ++ f ++ 0 :: (joined 46 g gs ++ 0 :: rest) =
        pre ++ f ++ [0] ++ joined 46 g gs ++ 0 :: rest := by
      simp
    have hpre : pre.length+f.length+1 = (pre ++ f ++ [0]).length := by
      simp [Nat.add_assoc]
    have hindex : ((gs.length+1 : ℕ) : ℤ)-1 = (gs.length : ℕ) := by omega
    rw [hlast, hbuf, List.length_cons, hfield, or_octet hf.bound, hindex, hcut, hpre, Nat.mul_succ,
      hrest, place, joined]
    simp

def address (a b c d : List UInt8) : ℕ := value a*2^24+value b*2^16+value c*2^8+value d

theorem ip2int_quad (ha : Field a) (hb : Field b) (hc : Field c) (hd : Field d) :
    ∃ cut, ip2int (quad a b c d ++ 0 :: rest) = .ok (address a b c d, cut) := by
  have hall : ∀ g ∈ [a, b, c, d], Field g := by
    simp [ha, hb, hc, hd]
  have hrun := @loop_fields rest [b, c, d] a [] 0 (rest.length+1) (show 3 < 4 by decide) hall
  have hquad : quad a b c d = joined 46 a [b, c, d] := by
    simp [quad, joined]
  have hplace : place 0 a [b, c, d] = address a b c d := by
    simp only [place, address]
    omega
  rw [hplace] at hrun
  refine ⟨joined 0 a [b, c, d] ++ 0 :: rest, ?_⟩
  rw [ip2int, hquad, List.length_append, List.length_cons]
  exact hrun

theorem snprintf_fits (h : s.length < 16) (hbuf : buf.length = 16) :
    snprintf buf 16 s = .ok (s ++ 0 :: buf.drop (s.length+1), s.length) := by
  have hout : (if 16 = 0 then [] else s.take (16-1) ++ [0]) = s ++ [0] := by
    rw [if_neg (by decide), List.take_of_length_le (by omega)]
  rw [snprintf, hout]
  simp only [List.length_append, List.length_singleton, hbuf]
  rw [if_pos (by omega)]
  simp

theorem quad_length (ha : a.length ≤ 3) (hb : b.length ≤ 3) (hc : c.length ≤ 3)
    (hd : d.length ≤ 3) : (quad a b c d).length < 16 := by
  simp only [quad, List.length_append, List.length_cons]
  omega

theorem int2ip_eq (hx : x < 2^32) :
    ∃ a b c d, a < 256 ∧ b < 256 ∧ c < 256 ∧ d < 256 ∧ x = a*2^24+b*2^16+c*2^8+d ∧
      (quad (decimal a) (decimal b) (decimal c) (decimal d)).length < 16 ∧
      int2ip x buf 16 = snprintf buf 16 (quad (decimal a) (decimal b) (decimal c) (decimal d)) := by
  have hand : ∀ y, y &&& 255 = y % 2^8 := fun y => Nat.and_two_pow_sub_one_eq_mod y 8
  have hshort : ∀ y, y < 256 → (decimal y).length ≤ 3 := fun y hy =>
    decimal_length_le (by decide) (by omega)
  refine ⟨x / 2^24, x / 2^16 % 256, x / 2^8 % 256, x % 256, by omega, by omega, by omega, by omega,
    by omega, quad_length (hshort _ (by omega)) (hshort _ (by omega)) (hshort _ (by omega))
    (hshort _ (by omega)), ?_⟩
  have h1 : (x >>> 24) &&& 255 = x / 2^24 := by
    rw [hand, Nat.shiftRight_eq_div_pow]
    omega
  have h2 : (((x <<< 8) % 2^32) >>> 24) &&& 255 = x / 2^16 % 256 := by
    rw [hand, Nat.shiftRight_eq_div_pow, Nat.shiftLeft_eq]
    omega
  have h3 : (((x <<< 16) % 2^32) >>> 24) &&& 255 = x / 2^8 % 256 := by
    rw [hand, Nat.shiftRight_eq_div_pow, Nat.shiftLeft_eq]
    omega
  have h4 : x &&& 255 = x % 256 := hand x
  rw [int2ip, h1, h2, h3, h4]

/-- The text of every integer is a dotted quad that reads back as it, and every
dotted quad is the text of its integer. -/
theorem round_trip :
    (∀ (x : ℕ) (buf : List UInt8), x < 2^32 → buf.length = 16 → ∃ s rest cut, Quad s ∧
      s.length < 16 ∧ int2ip x buf 16 = .ok (s ++ 0 :: rest, s.length) ∧
      ip2int (s ++ 0 :: rest) = .ok (x, cut)) ∧
    ∀ (s rest buf : List UInt8), Quad s → buf.length = 16 → ∃ x cut rest', x < 2^32 ∧
      ip2int (s ++ 0 :: rest) = .ok (x, cut) ∧
      int2ip x buf 16 = .ok (s ++ 0 :: rest', s.length) := by
  constructor
  · intro x buf hx hbuf
    obtain ⟨a, b, c, d, ha, hb, hc, hd, hsum, hlen, hrun⟩ := @int2ip_eq buf _ hx
    obtain ⟨cut, hback⟩ := @ip2int_quad _ _ _ _
      (buf.drop ((quad (decimal a) (decimal b) (decimal c) (decimal d)).length+1))
      (field_decimal ha) (field_decimal hb) (field_decimal hc) (field_decimal hd)
    rw [address, value_decimal, value_decimal, value_decimal, value_decimal, ← hsum] at hback
    rw [snprintf_fits hlen hbuf] at hrun
    exact ⟨_, _, cut, ⟨_, _, _, _, field_decimal ha, field_decimal hb, field_decimal hc,
      field_decimal hd, rfl⟩, hlen, hrun, hback⟩
  · rintro s rest buf ⟨a, b, c, d, ha, hb, hc, hd, rfl⟩ hbuf
    obtain ⟨cut, hback⟩ := @ip2int_quad _ _ _ _ rest ha hb hc hd
    have h1 := ha.bound
    have h2 := hb.bound
    have h3 := hc.bound
    have h4 := hd.bound
    have hx : address a b c d < 2^32 := by
      rw [address]
      omega
    obtain ⟨a', b', c', d', ha', hb', hc', hd', hsum, hlen, hrun⟩ := @int2ip_eq buf _ hx
    rw [address] at hsum
    obtain ⟨rfl, rfl, rfl, rfl⟩ : value a = a' ∧ value b = b' ∧ value c = c' ∧ value d = d' := by
      omega
    rw [snprintf_fits hlen hbuf, decimal_value ha.toNumeral, decimal_value hb.toNumeral,
      decimal_value hc.toNumeral, decimal_value hd.toNumeral] at hrun
    exact ⟨_, cut, _, hx, hback, hrun⟩

/-- The address of the program's `main`. -/
theorem round_trip_main : ∃ s rest cut, Quad s ∧
    int2ip 3232261121 (List.replicate 16 0) 16 = .ok (s ++ 0 :: rest, s.length) ∧
    ip2int (s ++ 0 :: rest) = .ok (3232261121, cut) := by
  obtain ⟨s, rest, cut, hs, -, hrun, hback⟩ :=
    round_trip.1 3232261121 (List.replicate 16 0) (by decide) (by simp)
  exact ⟨s, rest, cut, hs, hrun, hback⟩

end Inverse

end CLearning.IpAddress
