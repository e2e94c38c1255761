import CLearning.Machine
import Mathlib.Algebra.Order.Ring.Int
import Mathlib.Data.List.Pairwise

/-!
# The trend of a list

`ordered` of `demo_pthread.c` compares neighbours from the end of an array and
folds the answers, -1, 1 and 2, with a product and a minimum.
-/

set_option autoImplicit false

namespace CLearning.Trend
open CLearning.Machine

section Source

def truth (p : Prop) [Decidable p] : ℤ := if p then 1 else 0

/-- `ordered`; without elements it reads past the array. -/
def ordered : List ℤ → Run ℤ
  | [] => .error .wildAccess
  | [_] => .ok 2
  | a :: b :: pdat => do
    let t := truth (a < b)-truth (a > b)+2*truth (a = b)
    let order ← ordered (b :: pdat)
    if t*order = 0 ∨ t*order = -1 then .ok 0
    else if t > order then .ok order
    else .ok t

end Source

variable {a b : ℤ} {l : List ℤ}

def Rises (l : List ℤ) : Prop := ∃ (i : ℕ) (h : i+1 < l.length), l[i] < l[i+1]

def Falls (l : List ℤ) : Prop := ∃ (i : ℕ) (h : i+1 < l.length), l[i+1] < l[i]

theorem rises_cons : Rises (a :: b :: l) ↔ a < b ∨ Rises (b :: l) := by
  constructor
  · rintro ⟨i, h, hi⟩
    cases i with
    | zero => exact Or.inl hi
    | succ i => exact Or.inr ⟨i, Nat.lt_of_succ_lt_succ h, hi⟩
  · rintro (h | ⟨i, h, hi⟩)
    · exact ⟨0, by simp, h⟩
    · exact ⟨i+1, Nat.succ_lt_succ h, hi⟩

theorem falls_cons : Falls (a :: b :: l) ↔ b < a ∨ Falls (b :: l) := by
  constructor
  · rintro ⟨i, h, hi⟩
    cases i with
    | zero => exact Or.inl hi
    | succ i => exact Or.inr ⟨i, Nat.lt_of_succ_lt_succ h, hi⟩
  · rintro (h | ⟨i, h, hi⟩)
    · exact ⟨0, by simp, h⟩
    · exact ⟨i+1, Nat.succ_lt_succ h, hi⟩

theorem not_rises_single : ¬Rises [a] := by
  rintro ⟨i, h, -⟩
  simp at h

theorem not_falls_single : ¬Falls [a] := by
  rintro ⟨i, h, -⟩
  simp at h

theorem pairwise_le_iff : l.Pairwise (· ≤ ·) ↔ ¬Falls l := by
  rw [← List.isChain_iff_pairwise, List.isChain_iff_getElem, Falls]
  push Not
  rfl

theorem pairwise_ge_iff : l.Pairwise (· ≥ ·) ↔ ¬Rises l := by
  rw [← List.isChain_iff_pairwise, List.isChain_iff_getElem, Rises]
  push Not
  rfl

def Coded (r : ℤ) (up down : Prop) : Prop :=
  ¬up ∧ ¬down ∧ r = 2 ∨ up ∧ ¬down ∧ r = 1 ∨ ¬up ∧ down ∧ r = -1 ∨ up ∧ down ∧ r = 0

/-- The table of `ordered`: a step in front of a list with a known code. -/
theorem ordered_coded (l : List ℤ) (a : ℤ) :
    ∃ r, ordered (a :: l) = .ok r ∧ Coded r (Rises (a :: l)) (Falls (a :: l)) := by
  induction l generalizing a with
  | nil => exact ⟨2, rfl, Or.inl ⟨not_rises_single, not_falls_single, rfl⟩⟩
  | cons b l ih =>
    obtain ⟨order, hrun, hcode⟩ := ih b
    rw [rises_cons, falls_cons, ordered, hrun, ok_bind]
    generalize Rises (b :: l) = up at hcode ⊢
    generalize Falls (b :: l) = down at hcode ⊢
    rcases lt_trichotomy a b with hab | hab | hab
    · have ht : truth (a < b)-truth (a > b)+2*truth (a = b) = 1 := by
        simp [truth, hab, hab.ne, hab.le]
      rw [ht]
      rcases hcode with ⟨hu, hd, rfl⟩ | ⟨hu, hd, rfl⟩ | ⟨hu, hd, rfl⟩ | ⟨hu, hd, rfl⟩ <;>
        simp [Coded, hab, hab.le, hu, hd]
    · have ht : truth (a < b)-truth (a > b)+2*truth (a = b) = 2 := by
        simp [truth, hab]
      rw [ht]
      rcases hcode with ⟨hu, hd, rfl⟩ | ⟨hu, hd, rfl⟩ | ⟨hu, hd, rfl⟩ | ⟨hu, hd, rfl⟩ <;>
        simp [Coded, hab, hu, hd]
    · have ht : truth (a < b)-truth (a > b)+2*truth (a = b) = -1 := by
        simp [truth, hab, hab.ne', hab.le]
      rw [ht]
      rcases hcode with ⟨hu, hd, rfl⟩ | ⟨hu, hd, rfl⟩ | ⟨hu, hd, rfl⟩ | ⟨hu, hd, rfl⟩ <;>
        simp [Coded, hab, hab.le, hu, hd]

theorem all_equal_iff : (∀ x ∈ l, ∀ y ∈ l, x = y) ↔ ¬Rises l ∧ ¬Falls l := by
  rw [← pairwise_ge_iff, ← pairwise_le_iff]
  constructor
  · intro h
    constructor
    · exact List.pairwise_of_forall_mem_list fun x hx y hy => (h x hx y hy).ge
    · exact List.pairwise_of_forall_mem_list fun x hx y hy => (h x hx y hy).le
  · rintro ⟨hge, hle⟩
    have heq : l.Pairwise (· = ·) := by
      apply (hge.and hle).imp
      intro x y h
      exact le_antisymm h.2 h.1
    intro x hx y hy
    exact List.Pairwise.forall_of_forall (fun _ _ => rfl) heq hx hy

/-- The four answers of `ordered` tell the four kinds of lists apart. -/
theorem ordered_classifies (l : List ℤ) (hl : l ≠ []) : ∃ r, ordered l = .ok r ∧
    (r = 2 ↔ ∀ x ∈ l, ∀ y ∈ l, x = y) ∧ (r = 1 ↔ l.Pairwise (· ≤ ·) ∧ Rises l) ∧
    (r = -1 ↔ l.Pairwise (· ≥ ·) ∧ Falls l) ∧ (r = 0 ↔ Rises l ∧ Falls l) := by
  obtain ⟨a, l, rfl⟩ := List.exists_cons_of_ne_nil hl
  obtain ⟨r, hrun, hcode⟩ := ordered_coded l a
  refine ⟨r, hrun, ?_⟩
  rw [all_equal_iff, pairwise_le_iff, pairwise_ge_iff]
  generalize Rises (a :: l) = up at hcode ⊢
  generalize Falls (a :: l) = down at hcode ⊢
  rcases hcode with ⟨hu, hd, rfl⟩ | ⟨hu, hd, rfl⟩ | ⟨hu, hd, rfl⟩ | ⟨hu, hd, rfl⟩ <;>
    simp [hu, hd]

theorem ordered_classifies_plateau : ∃ r, ordered [1, 1, 2] = .ok r ∧ r = 1 := by
  obtain ⟨r, hrun, -, h1, -⟩ := ordered_classifies [1, 1, 2] (by decide)
  exact ⟨r, hrun, h1.mpr ⟨by decide, 1, by decide, by decide⟩⟩

end CLearning.Trend
