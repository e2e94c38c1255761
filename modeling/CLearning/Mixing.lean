import Mathlib.Data.BitVec
import Mathlib.Logic.Function.Basic

/-!
# Mixing steps

The steps multiplicative hashes are made of lose nothing: words that differ
before a step differ after it. A fold of such steps tells texts apart that
differ in a single input.
-/

set_option autoImplicit false

namespace CLearning.Mixing

section Words

variable {w : ℕ}

theorem xorShift_injective {s : ℕ} (hs : 0 < s) :
    Function.Injective fun x : BitVec w => x ^^^ (x >>> s) := by
  intro x y h
  have hbit : ∀ n i, w ≤ i+n → x.getLsbD i = y.getLsbD i := by
    intro n
    induction n with
    | zero =>
      intro i hi
      rw [BitVec.getLsbD_of_ge x i hi, BitVec.getLsbD_of_ge y i hi]
    | succ n ih =>
      intro i hi
      have hfold := congrArg (·.getLsbD i) h
      simp only [BitVec.getLsbD_xor, BitVec.getLsbD_ushiftRight, ih (s+i) (by omega)] at hfold
      exact Bool.xor_left_inj.mp hfold
  exact BitVec.eq_of_getLsbD_eq fun i _ => hbit w i (Nat.le_add_left w i)

theorem mul_injective {m n : BitVec w} (h : m*n = 1) : Function.Injective (·*m) := by
  intro x y hxy
  calc x = x*m*n := by rw [mul_assoc, h, mul_one]
    _ = y*m*n := congrArg (·*n) hxy
    _ = y := by rw [mul_assoc, h, mul_one]

theorem add_shiftLeft (x : BitVec w) (s : ℕ) : x+(x <<< s) = x*(1+BitVec.twoPow w s) := by
  rw [BitVec.shiftLeft_eq_mul_twoPow, mul_add, mul_one]

theorem add_not_shiftLeft (x : BitVec w) (s : ℕ) :
    x+~~~(x <<< s) = x*(1-BitVec.twoPow w s)-1 := by
  rw [BitVec.not_eq_neg_add, BitVec.shiftLeft_eq_mul_twoPow, mul_sub, mul_one, sub_eq_add_neg x,
    ← add_sub_assoc]
  rfl

theorem add_shiftLeft_injective {s : ℕ} {n : BitVec w} (h : (1+BitVec.twoPow w s)*n = 1) :
    Function.Injective fun x : BitVec w => x+(x <<< s) := by
  intro x y hxy
  simp only [add_shiftLeft] at hxy
  exact mul_injective h hxy

theorem add_not_injective {s : ℕ} {n : BitVec w} (h : (1-BitVec.twoPow w s)*n = 1) :
    Function.Injective fun x : BitVec w => x+~~~(x <<< s) := by
  intro x y hxy
  simp only [add_not_shiftLeft] at hxy
  exact mul_injective h (sub_left_injective hxy)

end Words

section Fold

variable {σ α : Type} {step : σ → α → σ} {a b : α}

theorem foldl_injective (h : ∀ a, Function.Injective (step · a)) (l : List α) :
    Function.Injective (l.foldl step) := by
  induction l with
  | nil => exact Function.injective_id
  | cons a l ih => exact ih.comp (h a)

theorem foldl_ne (hstate : ∀ a, Function.Injective (step · a))
    (hinput : ∀ s, Function.Injective (step s)) (hne : a ≠ b) (l r : List α) (s : σ) :
    (l ++ a :: r).foldl step s ≠ (l ++ b :: r).foldl step s := by
  rw [List.foldl_append, List.foldl_append, List.foldl_cons, List.foldl_cons]
  exact fun h => hne (hinput _ (foldl_injective hstate r h))

end Fold

end CLearning.Mixing
