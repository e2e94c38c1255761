import CLearning.Machine
import Mathlib.Data.Option.Basic
import Mathlib.Data.Nat.Notation
import Mathlib.Logic.Function.Basic
import Mathlib.Tactic.SplitIfs

/-!
# Packed block headers in pool memory

The memory behind a `mempool_t` is a map from byte offsets to bytes, and a
`realdata_t` is fifteen packed bytes of it: seven little-endian 16-bit fields
and the status byte. Stores truncate as the C assignments do. Two headers are
apart when their fifteen bytes do not overlap.
-/

set_option autoImplicit false

namespace CLearning.MempoolBytes
open CLearning.Machine

abbrev Bytes := ℕ → UInt8

def load16 (m : Bytes) (a : ℕ) : ℕ := (m a).toNat+256*(m (a+1)).toNat

def store16 (m : Bytes) (a v : ℕ) : Bytes :=
  fun i => if i = a then UInt8.ofNat v else if i = a+1 then UInt8.ofNat (v/256) else m i

def store8 (m : Bytes) (a v : ℕ) : Bytes := fun i => if i = a then UInt8.ofNat v else m i

theorem load16_lt (m : Bytes) (a : ℕ) : load16 m a < 65536 := by
  have h0 := (m a).toNat_lt
  have h1 := (m (a+1)).toNat_lt
  unfold load16
  omega

theorem load16_store16_self (m : Bytes) (a : ℕ) {v : ℕ} (hv : v < 65536) :
    load16 (store16 m a v) a = v := by
  simp [load16, store16]
  omega

theorem load16_store16_apart (m : Bytes) {a b : ℕ} (v : ℕ) (h : b+2 ≤ a ∨ a+2 ≤ b) :
    load16 (store16 m a v) b = load16 m b := by
  simp [load16, store16, show b ≠ a by omega, show b ≠ a+1 by omega,
    show b+1 ≠ a by omega]

theorem store16_load16 (m : Bytes) (a : ℕ) : store16 m a (load16 m a) = m := by
  have h0 := (m a).toNat_lt
  have h1 := (m (a+1)).toNat_lt
  funext i
  unfold store16 load16
  split
  · subst i
    apply UInt8.toNat_inj.mp
    rw [UInt8.toNat_ofNat']
    omega
  · split
    · subst i
      apply UInt8.toNat_inj.mp
      rw [UInt8.toNat_ofNat']
      omega
    · rfl

theorem store16_frame (m : Bytes) {a x : ℕ} (v : ℕ) (h : x < a ∨ a+2 ≤ x) :
    store16 m a v x = m x := by
  simp [store16, show x ≠ a by omega, show x ≠ a+1 by omega]

theorem store8_frame (m : Bytes) {a x : ℕ} (v : ℕ) (h : x ≠ a) : store8 m a v x = m x := by
  simp [store8, h]

/-- `sizeof(realdata_t)`. -/
def realdataSize : ℕ := 15

inductive Field where
  | offset
  | size
  | prev
  | next
  | realprev
  | realnext
  | used
  deriving DecidableEq, Repr

def Field.pos : Field → ℕ
  | .offset => 0
  | .size => 2
  | .prev => 4
  | .next => 6
  | .realprev => 8
  | .realnext => 10
  | .used => 12

theorem Field.pos_le (f : Field) : f.pos ≤ 12 := by
  cases f <;> decide

theorem Field.pos_apart {f g : Field} (h : f ≠ g) : f.pos+2 ≤ g.pos ∨ g.pos+2 ≤ f.pos := by
  cases f <;> cases g <;> simp_all [Field.pos]

def get (m : Bytes) (o : ℕ) (f : Field) : ℕ := load16 m (o+f.pos)

def set (m : Bytes) (o : ℕ) (f : Field) (v : ℕ) : Bytes := store16 m (o+f.pos) v

def status (m : Bytes) (o : ℕ) : ℕ := (m (o+14)).toNat

def setStatus (m : Bytes) (o v : ℕ) : Bytes := store8 m (o+14) v

def Apart (a b : ℕ) : Prop := a+15 ≤ b ∨ b+15 ≤ a

theorem get_lt (m : Bytes) (o : ℕ) (f : Field) : get m o f < 65536 := load16_lt m _

theorem get_set {m : Bytes} {o o' v : ℕ} {f g : Field} (h : o = o' ∨ Apart o o')
    (hv : v < 65536) :
    get (set m o f v) o' g = if o' = o ∧ g = f then v else get m o' g := by
  have hf := f.pos_le
  have hg := g.pos_le
  unfold get set
  rcases h with rfl | h
  · by_cases hfg : g = f
    · subst hfg
      simp [load16_store16_self m _ hv]
    · rw [if_neg (fun hc => hfg hc.2)]
      have := Field.pos_apart hfg
      exact load16_store16_apart m v (by omega)
  · unfold Apart at h
    rw [if_neg (by omega)]
    exact load16_store16_apart m v (by omega)

theorem set_get (m : Bytes) (o : ℕ) (f : Field) : set m o f (get m o f) = m := store16_load16 m _

theorem status_set {m : Bytes} {o o' v : ℕ} {f : Field} (h : o = o' ∨ Apart o o') :
    status (set m o f v) o' = status m o' := by
  have hf := f.pos_le
  unfold status set Apart at *
  rw [store16_frame m v (by omega)]

theorem get_setStatus {m : Bytes} {o o' v : ℕ} {g : Field} (h : o = o' ∨ Apart o o') :
    get (setStatus m o v) o' g = get m o' g := by
  have hg := g.pos_le
  unfold get setStatus load16 Apart at *
  rw [store8_frame m v (by omega), store8_frame m v (by omega)]

theorem get_status_setStatus {m : Bytes} {o o' v : ℕ} (hv : v < 256) :
    status (setStatus m o v) o' = if o' = o then v else status m o' := by
  unfold status setStatus store8
  by_cases h : o' = o <;> simp [h]
  omega

theorem set_frame {m : Bytes} {o v x : ℕ} {f : Field} (h : x < o ∨ o+15 ≤ x) :
    set m o f v x = m x := by
  have hf := f.pos_le
  exact store16_frame m v (by omega)

theorem setStatus_frame {m : Bytes} {o v x : ℕ} (h : x < o ∨ o+15 ≤ x) :
    setStatus m o v x = m x :=
  store8_frame m v (by omega)

def NULL : ℕ := 65535

/-- `mempool_get_realdata`. -/
def ref (v : ℕ) : Option ℕ := if v = NULL then none else some v

theorem ref_eq_some {v o : ℕ} : ref v = some o ↔ v = o ∧ v ≠ NULL := by
  unfold ref
  split <;> simp_all

theorem ref_eq_none {v : ℕ} : ref v = none ↔ v = NULL := by
  unfold ref
  split <;> simp_all

end CLearning.MempoolBytes
