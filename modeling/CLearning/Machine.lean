import Mathlib.Algebra.GroupWithZero.Nat
import Mathlib.Algebra.Group.Int.Defs
import Mathlib.Data.Nat.Notation

/-!
# Runs of C calls

Every call is modelled as a computation that yields its result or the fault
it runs into. Running out of fuel stands for not returning. Unsigned arithmetic
wraps at the width of its type.
-/

set_option autoImplicit false

namespace CLearning.Machine

inductive Fault where
  | divByZero
  | nullDeref
  | badFree
  | wildAccess
  | assertFailed
  | intOverflow
  | outOfFuel
  deriving DecidableEq, Repr

/-- A C call: its result, or the fault that ends it. -/
abbrev Run (α : Type) := Except Fault α

def usub (w a b : ℕ) : ℕ := (a+2^w-b) % 2^w

theorem usub_of_le {w a b : ℕ} (h : b ≤ a) (ha : a < 2^w) : usub w a b = a-b := by
  rw [usub, show a+2^w-b = (a-b)+2^w by omega, Nat.add_mod_right]
  exact Nat.mod_eq_of_lt (by omega)

section Bind

variable {α β : Type}

theorem bind_ok_iff {x : Run α} {f : α → Run β} {b : β} :
    (x >>= f) = .ok b ↔ ∃ a, x = .ok a ∧ f a = .ok b := by
  cases x with
  | error e => simp [bind, Except.bind]
  | ok a => simp [bind, Except.bind]

@[simp] theorem ok_bind {a : α} {f : α → Run β} : ((.ok a : Run α) >>= f) = f a := rfl

@[simp] theorem error_bind {e : Fault} {f : α → Run β} :
    ((.error e : Run α) >>= f) = .error e := rfl

@[simp] theorem pure_eq_ok {a : α} : (pure a : Run α) = .ok a := rfl

def deref (o : Option α) : Run α :=
  match o with
  | some a => .ok a
  | none => .error .nullDeref

@[simp] theorem deref_some {a : α} : deref (some a) = .ok a := rfl

end Bind

section Lengths

/-- A size kept in an `int`. Past its range the source's arithmetic is undefined, or, where a
`size_t` is brought back to `int`, up to the compiler. -/
def intSize (n : ℕ) : Run ℕ := if n < 2^31 then .ok n else .error .intOverflow

theorem intSize_cases (n : ℕ) :
    intSize n = .ok n ∨ intSize n = .error .intOverflow ∧ 2^31 ≤ n := by
  rw [intSize]
  split
  · exact Or.inl rfl
  · exact Or.inr ⟨rfl, by omega⟩

end Lengths

end CLearning.Machine
