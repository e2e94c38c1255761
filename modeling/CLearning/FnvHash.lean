import CLearning.MpHash
import Mathlib.Data.Nat.Bitwise
import Mathlib.Data.Nat.ModEq

/-!
# Two FNV hashes

`FNVHash` of `demo_hash.h` counts its length down and so takes the octets from
the last to the first; `mp_hash` of `mphash.c` takes them from the first to the
last. Both loops record the octets they fold in.
-/

set_option autoImplicit false

namespace CLearning.FnvHash
open CLearning.Machine CLearning.MpHash

section Source

def readOctet (key : List UInt8) (i : ℕ) : Run UInt8 :=
  match key[i]? with
  | some octet => .ok octet
  | none => .error .wildAccess

def mMask : ℕ := 0x8765fed1

def fnvLoop (key : List UInt8) : ℕ → ℕ → List UInt8 → Run (ℕ × List UInt8)
  | 0, hash, octets => .ok (hash, octets)
  | len+1, hash, octets => do
    let octet ← readOctet key len
    fnvLoop key len ((hash*16777619 % 2^32) ^^^ octet.toNat) (octets ++ [octet])

/-- `FNVHash` with its global `M_SHIFT`; a shift by the width of the type or more
is undefined. -/
def fnvHash (m_shift : ℕ) (key : List UInt8) (len : ℕ) : Run (ℕ × List UInt8) := do
  let (hash, octets) ← fnvLoop key len 2166136261 []
  if m_shift = 0 then .ok (hash, octets)
  else if m_shift ≥ 32 then .error .intOverflow
  else .ok ((hash ^^^ (hash >>> m_shift)) &&& mMask, octets)

/-- The `while` loop of `mp_hash`, `left` octets before its end. -/
def mpLoop (data : List UInt8) : ℕ → ℕ → ℕ → List UInt8 → Run (ℕ × List UInt8)
  | 0, _, hash, octets => .ok (hash, octets)
  | left+1, p, hash, octets => do
    let octet ← readOctet data p
    mpLoop data left (p+1) ((hash*0x01000193 % 2^32) ^^^ octet.toNat) (octets ++ [octet])

/-- `mp_hash` with the octets it folds in. -/
def mpHashOctets (data : List UInt8) (size : ℕ) : Run (ℕ × List UInt8) :=
  mpLoop data size 0 0x811c9dc5 []

end Source

section Order

variable {key data : List UInt8} {octets : List UInt8} {hash n : ℕ}

def fold (hash : ℕ) (octet : UInt8) : ℕ := (hash*0x01000193 % 2^32) ^^^ octet.toNat

theorem readOctet_of_lt {i : ℕ} (h : i < key.length) : readOctet key i = .ok key[i] := by
  rw [readOctet, List.getElem?_eq_getElem h]

theorem fnvLoop_eq (h : n ≤ key.length) :
    fnvLoop key n hash octets =
      .ok ((key.take n).reverse.foldl fold hash, octets ++ (key.take n).reverse) := by
  induction n generalizing hash octets with
  | zero => simp [fnvLoop]
  | succ n ih =>
    have hlt : n < key.length := by omega
    rw [fnvLoop, readOctet_of_lt hlt, ok_bind, ih (by omega),
      List.take_succ_eq_append_getElem hlt, List.reverse_append, List.reverse_singleton,
      List.singleton_append, List.foldl_cons, List.append_assoc, List.singleton_append]
    rfl

theorem fnvHash_eq (key : List UInt8) :
    fnvHash 0 key key.length = .ok (mpHash key.reverse, key.reverse) := by
  rw [fnvHash, fnvLoop_eq (Nat.le_refl _), ok_bind, List.take_length, List.nil_append]
  rfl

theorem mpLoop_eq {p : ℕ} (h : p+n = data.length) :
    mpLoop data n p hash octets =
      .ok ((data.drop p).foldl fold hash, octets ++ data.drop p) := by
  induction n generalizing p hash octets with
  | zero => simp [mpLoop, List.drop_of_length_le (show data.length ≤ p by omega)]
  | succ n ih =>
    have hlt : p < data.length := by omega
    rw [mpLoop, readOctet_of_lt hlt, ok_bind, ih (by omega), List.drop_eq_getElem_cons hlt,
      List.foldl_cons, List.append_assoc, List.singleton_append]
    rfl

theorem mpHashOctets_eq (data : List UInt8) :
    mpHashOctets data data.length = .ok (mpHash data, data) := by
  rw [mpHashOctets, mpLoop_eq (Nat.zero_add _), List.drop_zero, List.nil_append]
  rfl

/-- Both calls yield one hash, and both fold in the octets in order. -/
def Agrees (key : List UInt8) : Prop :=
  ∃ hash, fnvHash 0 key key.length = .ok (hash, key) ∧ mpHashOctets key key.length = .ok (hash, key)

/-- The two are the same FNV-1 exactly on the buffers that read the same from
both ends. -/
theorem fnv_agrees_iff (key : List UInt8) : Agrees key ↔ key.reverse = key := by
  rw [Agrees, fnvHash_eq, mpHashOctets_eq]
  constructor
  · rintro ⟨hash, hfnv, -⟩
    rw [Except.ok.injEq, Prod.mk.injEq] at hfnv
    exact hfnv.2
  · intro h
    rw [h]
    exact ⟨mpHash key, rfl, rfl⟩

/-- Hashes alone may agree by chance. -/
example : mpHash [124, 121, 204, 177, 94, 210] = mpHash [210, 94, 177, 204, 121, 124] := by
  decide

/-- The hashes of two octets in different order. -/
theorem fnv_differs : ¬∀ key : List UInt8, ∃ hash octets octets',
    fnvHash 0 key key.length = .ok (hash, octets) ∧
      mpHashOctets key key.length = .ok (hash, octets') := by
  intro h
  obtain ⟨hash, octets, octets', hfnv, hmp⟩ := h [1, 2]
  rw [fnvHash_eq, Except.ok.injEq, Prod.mk.injEq] at hfnv
  rw [mpHashOctets_eq, Except.ok.injEq, Prod.mk.injEq] at hmp
  have heq := hfnv.1.trans hmp.1.symm
  revert heq
  decide

end Order

section Lengths

variable {n i j : ℕ}

theorem foldl_zeros (n hash : ℕ) (h : hash < 2^32) :
    (List.replicate n 0).foldl fold hash = hash*0x01000193^n % 2^32 := by
  induction n generalizing hash with
  | zero => simpa using (Nat.mod_eq_of_lt h).symm
  | succ n ih =>
    have hstep : fold hash 0 = hash*0x01000193 % 2^32 := Nat.xor_zero _
    rw [List.replicate_succ, List.foldl_cons, hstep, ih _ (Nat.mod_lt _ (by decide)), Nat.mod_mul_mod,
      Nat.mul_assoc, ← Nat.pow_succ']

theorem fold_one {hash : ℕ} (h : Odd hash) : fold hash 1+1 = hash*0x01000193 % 2^32 := by
  have hodd : Odd (hash*0x01000193 % 2^32) := by
    rw [Nat.odd_iff, Nat.mod_mod_of_dvd _ (by decide)]
    exact Nat.odd_iff.mp (h.mul (by decide))
  have hpos : 0 < hash*0x01000193 % 2^32 := by
    obtain ⟨k, hk⟩ := hodd
    rw [hk]
    exact Nat.succ_pos _
  have hoctet : (1 : UInt8).toNat = 1 := rfl
  rw [fold, hoctet, Nat.xor_one_of_odd hodd, Nat.sub_add_cancel hpos]

/-- One octet 1 among zeros takes a power of the prime off the hash of zeros. -/
theorem mpHash_single (i j : ℕ) :
    mpHash (List.replicate i 0 ++ 1 :: List.replicate j 0)+0x01000193^j ≡
      0x811c9dc5*0x01000193^(i+j+1) [MOD 2^32] := by
  have hzeros := foldl_zeros i 0x811c9dc5 (by decide)
  have hodd : Odd ((List.replicate i 0).foldl fold 0x811c9dc5) := by
    rw [hzeros, Nat.odd_iff, Nat.mod_mod_of_dvd _ (by decide)]
    exact Nat.odd_iff.mp (Odd.mul (by decide) (Odd.pow (by decide)))
  have hone := fold_one hodd
  have hy : fold ((List.replicate i 0).foldl fold 0x811c9dc5) 1 < 2^32 := by
    have hlt := Nat.mod_lt ((List.replicate i 0).foldl fold 0x811c9dc5*0x01000193)
      (show 2^32 > 0 by decide)
    rw [← hone] at hlt
    exact Nat.lt_of_succ_lt hlt
  have hhash : mpHash (List.replicate i 0 ++ 1 :: List.replicate j 0) =
      fold ((List.replicate i 0).foldl fold 0x811c9dc5) 1*0x01000193^j % 2^32 := by
    rw [← foldl_zeros j _ hy, ← List.foldl_cons, ← List.foldl_append]
    rfl
  rw [hhash]
  calc _ ≡ fold ((List.replicate i 0).foldl fold 0x811c9dc5) 1*0x01000193^j+0x01000193^j
          [MOD 2^32] := (Nat.mod_modEq _ _).add_right _
    _ = (fold ((List.replicate i 0).foldl fold 0x811c9dc5) 1+1)*0x01000193^j := by
      rw [Nat.add_mul, Nat.one_mul]
    _ ≡ 0x811c9dc5*0x01000193^i*0x01000193*0x01000193^j [MOD 2^32] := by
      rw [hone, hzeros, Nat.mod_mul_mod]
      exact (Nat.mod_modEq _ _).mul_right _
    _ = 0x811c9dc5*0x01000193^(i+j+1) := by
      rw [Nat.mul_assoc, Nat.mul_assoc, ← Nat.pow_succ', ← Nat.pow_add, Nat.add_assoc]

theorem single_agrees (h : mpHash (List.replicate j 0 ++ 1 :: List.replicate i 0) =
    mpHash (List.replicate i 0 ++ 1 :: List.replicate j 0)) :
    0x01000193^i ≡ 0x01000193^j [MOD 2^32] := by
  have hi := mpHash_single i j
  have hj := mpHash_single j i
  rw [← h] at hi
  rw [Nat.add_comm j i] at hj
  exact Nat.ModEq.add_left_cancel' _ (hj.trans hi.symm)

/-- The hashes are equal on all buffers of a length only when it is 0 or 1. -/
theorem agree_all_iff (n : ℕ) :
    (∀ key : List UInt8, key.length = n → ∃ octets, fnvHash 0 key n = .ok (mpHash key, octets)) ↔
      n ≤ 1 := by
  constructor
  · intro h
    by_contra hn
    have hsingle : ∀ i j, i+j+1 = n → 0x01000193^i ≡ 0x01000193^j [MOD 2^32] := by
      intro i j hij
      have hlen : (List.replicate i (0 : UInt8) ++ 1 :: List.replicate j 0).length = n := by
        rw [List.length_append, List.length_cons, List.length_replicate, List.length_replicate,
          ← hij, Nat.add_assoc]
      have hrev : (List.replicate i (0 : UInt8) ++ 1 :: List.replicate j 0).reverse =
          List.replicate j 0 ++ 1 :: List.replicate i 0 := by
        simp
      obtain ⟨octets, hrun⟩ := h _ hlen
      have heq := fnvHash_eq (List.replicate i 0 ++ 1 :: List.replicate j 0)
      rw [hlen, hrun, hrev, Except.ok.injEq, Prod.mk.injEq] at heq
      exact single_agrees heq.1.symm
    -- the octet in the first and in the second place together give p^2 = 1
    obtain ⟨m, rfl⟩ : ∃ m, n = m+2 := ⟨n-2, by omega⟩
    have hfirst := hsingle 0 (m+1) (by omega)
    have hsecond := hsingle 1 m (by omega)
    have hsq : 1 ≡ 0x01000193^2 [MOD 2^32] := calc
      1 ≡ 0x01000193^(m+1) [MOD 2^32] := hfirst
      _ = 0x01000193^m*0x01000193 := Nat.pow_succ _ _
      _ ≡ 0x01000193^1*0x01000193 [MOD 2^32] := hsecond.symm.mul_right _
      _ = 0x01000193^2 := (Nat.pow_succ _ _).symm
    revert hsq
    decide
  · intro hn key hlen
    have hrev : key.reverse = key := by
      match key, hlen with
      | [], _ => rfl
      | [_], _ => rfl
      | _ :: _ :: _, hlen => simp at hlen; omega
    refine ⟨key.reverse, ?_⟩
    rw [← hlen, fnvHash_eq, hrev]

end Lengths

end CLearning.FnvHash
