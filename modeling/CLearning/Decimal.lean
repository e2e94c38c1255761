import Mathlib.Data.Nat.Digits.Lemmas

/-!
# Decimal numerals

The numerals in ASCII: printing a number, the value of a string of digits, and
that the two are inverse on the strings without leading zeros.
-/

set_option autoImplicit false

namespace CLearning.Decimal

def IsDigit (b : UInt8) : Prop := 48 ≤ b.toNat ∧ b.toNat ≤ 57

instance (b : UInt8) : Decidable (IsDigit b) := inferInstanceAs (Decidable (_ ∧ _))

def digit (d : ℕ) : UInt8 := UInt8.ofNat (48+d)

def decimal (n : ℕ) : List UInt8 :=
  if n = 0 then [digit 0] else ((Nat.digits 10 n).map digit).reverse

def value (ds : List UInt8) : ℕ := ds.foldl (fun v b => 10*v+(b.toNat-48)) 0

structure Numeral (ds : List UInt8) : Prop where
  nonempty : ds ≠ []
  digits : ∀ b ∈ ds, IsDigit b
  leading : ds.head? = some (digit 0) → ds.length = 1

variable {d n k : ℕ} {b : UInt8} {ds : List UInt8}

theorem toNat_digit (h : d < 10) : (digit d).toNat = 48+d := by
  rw [digit, UInt8.toNat_ofNat']
  omega

theorem isDigit_digit (h : d < 10) : IsDigit (digit d) := by
  rw [IsDigit, toNat_digit h]
  omega

theorem digit_toNat (h : IsDigit b) : digit (b.toNat-48) = b := by
  obtain ⟨hlo, hhi⟩ := h
  apply UInt8.toNat_inj.mp
  rw [toNat_digit (by omega)]
  omega

theorem value_reverse {L : List ℕ} (h : ∀ d ∈ L, d < 10) :
    value (L.map digit).reverse = Nat.ofDigits 10 L := by
  induction L with
  | nil => rfl
  | cons d L ih =>
    have hd := toNat_digit (h d List.mem_cons_self)
    have hL := ih fun e he => h e (List.mem_cons_of_mem _ he)
    rw [value] at hL
    rw [List.map_cons, List.reverse_cons, value, List.foldl_append, List.foldl_cons, List.foldl_nil,
      hL, hd, Nat.ofDigits_cons]
    omega

theorem value_decimal (n : ℕ) : value (decimal n) = n := by
  rw [decimal]
  split
  · next h =>
    rw [h]
    rfl
  · rw [value_reverse fun d hd => Nat.digits_lt_base (by decide) hd, Nat.ofDigits_digits]

theorem decimal_numeral (n : ℕ) : Numeral (decimal n) := by
  rw [decimal]
  split
  · exact ⟨by simp, by simpa using isDigit_digit (by decide), fun _ => rfl⟩
  · next h =>
    have hne : Nat.digits 10 n ≠ [] := Nat.digits_ne_nil_iff_ne_zero.mpr h
    refine ⟨by simpa using hne, ?_, ?_⟩
    · intro b hb
      simp only [List.mem_reverse, List.mem_map] at hb
      obtain ⟨d, hd, rfl⟩ := hb
      exact isDigit_digit (Nat.digits_lt_base (by decide) hd)
    · intro hhead
      rw [List.head?_reverse, List.getLast?_map, List.getLast?_eq_some_getLast hne, Option.map_some,
        Option.some_inj] at hhead
      have hlast := Nat.digits_lt_base (by decide) (List.getLast_mem hne)
      have hzero := congrArg UInt8.toNat hhead
      rw [toNat_digit hlast, toNat_digit (by decide)] at hzero
      exact absurd (by omega) (Nat.getLast_digit_ne_zero 10 h)

theorem decimal_length_le (hk : 0 < k) (h : n < 10^k) : (decimal n).length ≤ k := by
  rw [decimal]
  split
  · exact hk
  · rw [List.length_reverse, List.length_map, Nat.digits_length_le_iff (by decide)]
    exact h

/-- A numeral is printed from its value. -/
theorem decimal_value (h : Numeral ds) : decimal (value ds) = ds := by
  have hds : ((ds.map fun b => b.toNat-48).reverse.map digit).reverse = ds := by
    rw [List.map_reverse, List.reverse_reverse, List.map_map]
    conv_rhs => rw [← List.map_id ds]
    exact List.map_congr_left fun b hb => digit_toNat (h.digits b hb)
  obtain ⟨L, hL⟩ : ∃ L, (ds.map fun b => b.toNat-48).reverse = L := ⟨_, rfl⟩
  have hlt : ∀ d ∈ L, d < 10 := by
    intro d hd
    rw [← hL, List.mem_reverse, List.mem_map] at hd
    obtain ⟨b, hb, rfl⟩ := hd
    have hdigit := (h.digits b hb).2
    omega
  rw [hL] at hds
  have hne : L ≠ [] := by
    rintro rfl
    exact h.nonempty (by simpa using hds.symm)
  have hhead : ds.head? = some (digit (L.getLast hne)) := by
    rw [← hds, List.head?_reverse, List.getLast?_map, List.getLast?_eq_some_getLast hne,
      Option.map_some]
  by_cases hzero : L.getLast hne = 0
  · -- a leading zero stands alone
    rw [hzero] at hhead
    have hlen := h.leading hhead
    rw [List.head?_eq_some_iff] at hhead
    obtain ⟨tl, rfl⟩ := hhead
    obtain rfl : tl = [] := by simpa using hlen
    rfl
  · have hdigits : Nat.digits 10 (Nat.ofDigits 10 L) = L :=
      Nat.digits_ofDigits 10 (by decide) L hlt fun _ => hzero
    have hpos : Nat.ofDigits 10 L ≠ 0 := by
      intro h0
      rw [h0, Nat.digits_zero] at hdigits
      exact hne hdigits.symm
    rw [← hds, value_reverse hlt, decimal, if_neg hpos, hdigits]

end CLearning.Decimal
