import CLearning.Machine
import Mathlib.Data.List.Basic
import Mathlib.Data.Int.Order.Lemmas
import Mathlib.Tactic.Linarith
import Mathlib.Tactic.Ring

/-!
# Adding two numbers given as lists

The lists hold decimal digits, least significant first. `malloc` is assumed to
succeed; the node it returns has any content. The node of the last carry keeps
the `next` it came with, so what the result is depends on this content.
-/

set_option autoImplicit false

namespace CLearning.ListAddition
open CLearning.Machine

section Source

structure ListNode where
  val : ℤ
  next : Option ℕ

/-- The nodes that exist and the number of calls of `malloc` so far. -/
structure Heap where
  node : ℕ → Option ListNode
  calls : ℕ

/-- The addresses `malloc` returns and what is found there. -/
structure Malloc where
  addr : ℕ → ℕ
  content : ℕ → ListNode

def malloc (M : Malloc) (s : Heap) : Heap × ℕ :=
  (⟨Function.update s.node (M.addr s.calls) (some (M.content s.calls)), s.calls+1⟩,
    M.addr s.calls)

def load (s : Heap) (a : ℕ) : Run ListNode :=
  match s.node a with
  | some n => .ok n
  | none => .error .wildAccess

def setNext (s : Heap) (a : ℕ) (v : Option ℕ) : Run Heap := do
  let n ← load s a
  .ok { s with node := Function.update s.node a (some { n with next := v }) }

def setVal (s : Heap) (a : ℕ) (v : ℤ) : Run Heap := do
  let n ← load s a
  .ok { s with node := Function.update s.node a (some { n with val := v }) }

/-- `p ? p->val : 0` -/
def digit (s : Heap) : Option ℕ → Run ℤ
  | some a => do
    let n ← load s a
    .ok n.val
  | none => .ok 0

/-- `if (p) p = p->next` -/
def advance (s : Heap) : Option ℕ → Run (Option ℕ)
  | some a => do
    let n ← load s a
    .ok n.next
  | none => .ok none

/-- The loop of `addTwoNumbers`; it yields the last node and the carry. The sum of
two digits and a carry is in the range of `int`. -/
def addLoop (M : Malloc) : ℕ → Heap → Option ℕ → Option ℕ → ℕ → ℤ → Run (Heap × ℕ × ℤ)
  | 0, _, _, _, _, _ => .error .outOfFuel
  | fuel+1, s, p1, p2, pres, carry =>
    if p1 = none ∧ p2 = none then .ok (s, pres, carry)
    else do
      let x ← digit s p1
      let y ← digit s p2
      let r := malloc M s
      let s ← setNext r.1 pres (some r.2)
      let s ← setNext s r.2 none
      let s ← setVal s r.2 ((x+y+carry).tmod 10)
      let carry := (x+y+carry).tdiv 10
      let p1 ← advance s p1
      let p2 ← advance s p2
      addLoop M fuel s p1 p2 r.2 carry

/-- The node of the carry; its `next` is not set. -/
def addCarry (M : Malloc) (s : Heap) (pres : ℕ) (carry : ℤ) : Run Heap :=
  if carry = 0 then .ok s
  else do
    let r := malloc M s
    let s ← setNext r.1 pres (some r.2)
    setVal s r.2 1

def addTwoNumbers (M : Malloc) (fuel : ℕ) (s : Heap) (l1 l2 : Option ℕ) :
    Run (Heap × Option ℕ) := do
  let r := malloc M s
  let q ← addLoop M fuel r.1 l1 l2 r.2 0
  let s ← addCarry M q.1 q.2.1 q.2.2
  let n ← load s r.2
  .ok (s, n.next)

end Source

section Numbers

def value : List ℤ → ℤ
  | [] => 0
  | d :: l => d + 10*value l

def Digits (l : List ℤ) : Prop := ∀ d ∈ l, 0 ≤ d ∧ d ≤ 9

def Superfluous (l : List ℤ) : Prop := 1 < l.length ∧ l.getLast? = some 0

def columns (xs ys : List ℤ) : List ℤ :=
  List.zipWithAll (fun x y => x.getD 0 + y.getD 0) xs ys

def settle : List ℤ → ℤ → List ℤ
  | [], c => if c = 0 then [] else [1]
  | z :: zs, c => (z+c).tmod 10 :: settle zs ((z+c).tdiv 10)

def finalCarry : List ℤ → ℤ → ℤ
  | [], c => c
  | z :: zs, c => finalCarry zs ((z+c).tdiv 10)

variable {xs ys l l' zs : List ℤ} {c z : ℤ}

theorem value_append : value (l ++ l') = value l + 10^l.length*value l' := by
  induction l with
  | nil => simp [value]
  | cons d l ih =>
    rw [List.cons_append, value, value, ih, List.length_cons, pow_succ]
    ring

theorem Digits.tail (h : Digits l) : Digits l.tail :=
  fun d hd => h d (List.mem_of_mem_tail hd)

theorem Digits.head (h : Digits l) : 0 ≤ l.headD 0 ∧ l.headD 0 ≤ 9 := by
  cases l with
  | nil => exact ⟨le_rfl, by decide⟩
  | cons d l => exact h d List.mem_cons_self

theorem Digits.bounds (h : Digits l) : 0 ≤ value l ∧ value l < 10^l.length := by
  induction l with
  | nil => exact ⟨le_rfl, by decide⟩
  | cons d l ih =>
    have hd := h d List.mem_cons_self
    have hl := ih h.tail
    rw [value, List.length_cons, pow_succ]
    constructor <;> linarith

theorem value_headD (l : List ℤ) : value l = l.headD 0 + 10*value l.tail := by
  cases l with
  | nil => rfl
  | cons d l => rfl

theorem columns_cons (h : ¬(xs = [] ∧ ys = [])) :
    columns xs ys = (xs.headD 0 + ys.headD 0) :: columns xs.tail ys.tail := by
  cases xs with
  | nil =>
    cases ys with
    | nil => exact absurd ⟨rfl, rfl⟩ h
    | cons y ys => cases ys <;> simp [columns, List.zipWithAll]
  | cons x xs =>
    cases ys with
    | nil => cases xs <;> simp [columns, List.zipWithAll]
    | cons y ys => simp [columns, List.zipWithAll]

theorem columns_induct {P : List ℤ → List ℤ → Prop} (nil : P [] [])
    (cons : ∀ xs ys, ¬(xs = [] ∧ ys = []) → P xs.tail ys.tail → P xs ys)
    (xs ys : List ℤ) : P xs ys := by
  induction hn : max xs.length ys.length generalizing xs ys with
  | zero =>
    rw [List.length_eq_zero_iff.mp (by omega : xs.length = 0),
      List.length_eq_zero_iff.mp (by omega : ys.length = 0)]
    exact nil
  | succ n ih =>
    apply cons
    · rintro ⟨rfl, rfl⟩
      simp at hn
    · apply ih
      rw [List.length_tail, List.length_tail]
      omega

theorem columns_length (xs ys : List ℤ) :
    (columns xs ys).length = max xs.length ys.length := by
  induction xs, ys using columns_induct with
  | nil => rfl
  | cons xs ys h ih =>
    rw [columns_cons h, List.length_cons, ih, List.length_tail, List.length_tail]
    have hpos : 0 < xs.length ∨ 0 < ys.length := by
      rw [List.length_pos_iff, List.length_pos_iff]
      tauto
    omega

theorem value_columns (xs ys : List ℤ) : value (columns xs ys) = value xs + value ys := by
  induction xs, ys using columns_induct with
  | nil => rfl
  | cons xs ys h ih =>
    rw [columns_cons h, value, ih, value_headD xs, value_headD ys]
    ring

def Columns (zs : List ℤ) : Prop := ∀ z ∈ zs, 0 ≤ z ∧ z ≤ 18

theorem columns_columns (hx : Digits xs) (hy : Digits ys) : Columns (columns xs ys) := by
  induction xs, ys using columns_induct with
  | nil =>
    intro z hz
    cases hz
  | cons xs ys h ih =>
    rw [columns_cons h]
    intro z hz
    rcases List.mem_cons.mp hz with rfl | hz
    · have := hx.head
      have := hy.head
      omega
    · exact ih hx.tail hy.tail z hz

theorem column_step (hz : 0 ≤ z ∧ z ≤ 18) (hc : c = 0 ∨ c = 1) :
    (0 ≤ (z+c).tmod 10 ∧ (z+c).tmod 10 ≤ 9) ∧ ((z+c).tdiv 10 = 0 ∨ (z+c).tdiv 10 = 1) ∧
      (z+c).tmod 10 + 10*(z+c).tdiv 10 = z+c := by
  rw [Int.tdiv_eq_ediv_of_nonneg (by omega), Int.tmod_eq_emod_of_nonneg (by omega)]
  omega

theorem value_settle (hz : Columns zs) (hc : c = 0 ∨ c = 1) :
    value (settle zs c) = value zs + c := by
  induction zs generalizing c with
  | nil => rcases hc with rfl | rfl <;> rfl
  | cons z zs ih =>
    obtain ⟨-, hq, hsum⟩ := column_step (hz z List.mem_cons_self) hc
    rw [settle, value, value, ih (fun y hy => hz y (List.mem_cons_of_mem z hy)) hq]
    linarith

theorem settle_digits (hz : Columns zs) (hc : c = 0 ∨ c = 1) : Digits (settle zs c) := by
  induction zs generalizing c with
  | nil =>
    rcases hc with rfl | rfl
    · intro d hd
      cases hd
    · intro d hd
      rw [show d = 1 from List.mem_singleton.mp hd]
      decide
  | cons z zs ih =>
    obtain ⟨hr, hq, -⟩ := column_step (hz z List.mem_cons_self) hc
    intro d hd
    rcases List.mem_cons.mp hd with rfl | hd
    · exact hr
    · exact ih (fun y hy => hz y (List.mem_cons_of_mem z hy)) hq d hd

theorem settle_length (zs : List ℤ) (c : ℤ) :
    (settle zs c).length = zs.length + (if finalCarry zs c = 0 then 0 else 1) := by
  induction zs generalizing c with
  | nil =>
    rw [settle, finalCarry]
    split_ifs <;> rfl
  | cons z zs ih =>
    rw [settle, finalCarry, List.length_cons, List.length_cons, ih]
    omega

theorem settle_getLast (h : finalCarry zs c ≠ 0) : (settle zs c).getLast? = some 1 := by
  induction zs generalizing c with
  | nil =>
    rw [finalCarry] at h
    rw [settle, if_neg h]
    rfl
  | cons z zs ih =>
    rw [settle, List.getLast?_cons, ih h]
    rfl

theorem finalCarry_iff (hz : Columns zs) (hc : c = 0 ∨ c = 1) :
    finalCarry zs c = 0 ↔ value zs + c < 10^zs.length := by
  induction zs generalizing c with
  | nil => rcases hc with rfl | rfl <;> simp [finalCarry, value]
  | cons z zs ih =>
    obtain ⟨hr, hq, hsum⟩ := column_step (hz z List.mem_cons_self) hc
    rw [finalCarry, ih (fun y hy => hz y (List.mem_cons_of_mem z hy)) hq, value,
      List.length_cons, pow_succ]
    constructor <;> intro h <;> omega

theorem Superfluous.value_lt (hs : Superfluous l) (h : Digits l) :
    value l < 10^(l.length-1) := by
  obtain ⟨init, rfl⟩ := List.getLast?_eq_some_iff.mp hs.2
  have hinit : Digits init := fun d hd => h d (List.mem_append_left _ hd)
  rw [value_append, List.length_append]
  simpa [value] using hinit.bounds.2

theorem le_value_of_not_superfluous (hs : ¬Superfluous l) (h : Digits l) (hl : 1 < l.length) :
    10^(l.length-1) ≤ value l := by
  obtain ⟨d, hd⟩ : ∃ d, l.getLast? = some d :=
    Option.ne_none_iff_exists'.mp (fun hc => by simp_all)
  obtain ⟨init, rfl⟩ := List.getLast?_eq_some_iff.mp hd
  have hinit : Digits init := fun e he => h e (List.mem_append_left _ he)
  have hpos := (h d (by simp)).1
  have hne : d ≠ 0 := fun hc => hs ⟨hl, by rw [hd, hc]⟩
  have hone : 1 ≤ d := by omega
  rw [value_append, List.length_append]
  have := hinit.bounds.1
  have hpow : (0 : ℤ) < 10^init.length := by positivity
  have hmul := mul_le_mul_of_nonneg_left hone hpow.le
  simp only [List.length_singleton, Nat.add_sub_cancel, value]
  linarith

theorem superfluous_zeros {zs : List ℤ} (hl : 0 < l.length) (hne : zs ≠ [])
    (hzero : ∀ z ∈ zs, z = 0) : Superfluous (l ++ zs) := by
  constructor
  · have hpos := List.length_pos_iff.mpr hne
    rw [List.length_append]
    omega
  · rw [List.getLast?_append_of_ne_nil _ hne, List.getLast?_eq_getLast_of_ne_nil hne,
      hzero _ (List.getLast_mem hne)]

/-- The digits of the sum have no superfluous zero when the summands have none. -/
theorem settle_not_superfluous (hx : Digits xs) (hy : Digits ys) (hsx : ¬Superfluous xs)
    (hsy : ¬Superfluous ys) : ¬Superfluous (settle (columns xs ys) 0) := by
  intro hs
  have hz := columns_columns hx hy
  by_cases hc : finalCarry (columns xs ys) 0 = 0
  · have hlt := hs.value_lt (settle_digits hz (Or.inl rfl))
    have hlen := hs.1
    rw [value_settle hz (Or.inl rfl), value_columns, settle_length, if_pos hc,
      columns_length] at hlt
    rw [settle_length, if_pos hc, columns_length] at hlen
    have hx0 := hx.bounds.1
    have hy0 := hy.bounds.1
    rcases le_total ys.length xs.length with hle | hle
    · rw [max_eq_left hle] at hlt hlen
      have := le_value_of_not_superfluous hsx hx (by omega)
      rw [Nat.add_zero] at hlt
      linarith
    · rw [max_eq_right hle] at hlt hlen
      have := le_value_of_not_superfluous hsy hy (by omega)
      rw [Nat.add_zero] at hlt
      linarith
  · have := hs.2
    rw [settle_getLast hc] at this
    cases this

end Numbers

section Nodes

variable {node node' m : ℕ → Option ListNode} {p q r : Option ℕ} {ds es : List ℤ}

def Reaches (node : ℕ → Option ListNode) : Option ℕ → List ℤ → Option ℕ → Prop
  | p, [], q => p = q
  | p, d :: ds, q => ∃ a n, p = some a ∧ node a = some n ∧ n.val = d ∧ Reaches node n.next ds q

def IsList (node : ℕ → Option ListNode) (p : Option ℕ) (ds : List ℤ) : Prop :=
  Reaches node p ds none

theorem reaches_append :
    Reaches node p (ds ++ es) q ↔ ∃ r, Reaches node p ds r ∧ Reaches node r es q := by
  induction ds generalizing p with
  | nil => simp [Reaches]
  | cons d ds ih =>
    simp only [List.cons_append, Reaches, ih]
    constructor
    · rintro ⟨a, n, hp, hn, hd, r, h₁, h₂⟩
      exact ⟨r, ⟨a, n, hp, hn, hd, h₁⟩, h₂⟩
    · rintro ⟨r, ⟨a, n, hp, hn, hd, h₁⟩, h₂⟩
      exact ⟨a, n, hp, hn, hd, r, h₁, h₂⟩

theorem Reaches.mono (h : Reaches node p ds q)
    (hkeep : ∀ a, node a ≠ none → node' a = node a) : Reaches node' p ds q := by
  induction ds generalizing p with
  | nil => exact h
  | cons d ds ih =>
    obtain ⟨a, n, hp, hn, hd, hrest⟩ := h
    exact ⟨a, n, hp, (hkeep a (by simp [hn])).trans hn, hd, ih hrest⟩

theorem IsList.after (h : IsList node p es) (hr : Reaches node p ds q) :
    ∃ zs, es = ds ++ zs ∧ IsList node q zs := by
  induction ds generalizing p es with
  | nil =>
    cases hr
    exact ⟨es, rfl, h⟩
  | cons d ds ih =>
    obtain ⟨a, n, rfl, hn, hd, hrest⟩ := hr
    cases es with
    | nil => cases h
    | cons e es =>
      obtain ⟨a', n', ha, hn', he, hrest'⟩ := h
      cases ha
      rw [hn] at hn'
      cases hn'
      obtain ⟨zs, rfl, hz⟩ := ih hrest' hrest
      exact ⟨zs, by rw [← hd, ← he]; rfl, hz⟩

theorem IsList.null (h : IsList node none ds) : ds = [] := by
  cases ds with
  | nil => rfl
  | cons d ds =>
    obtain ⟨a, n, hp, -⟩ := h
    cases hp

theorem IsList.null_iff (h : IsList node p ds) : p = none ↔ ds = [] := by
  constructor
  · rintro rfl
    exact h.null
  · rintro rfl
    exact h

theorem IsList.digit {s : Heap} (h : IsList m p ds) (hs : ∀ a, m a ≠ none → s.node a = m a) :
    digit s p = .ok (ds.headD 0) := by
  cases ds with
  | nil =>
    cases h
    rfl
  | cons d ds =>
    obtain ⟨a, n, rfl, hn, hd, -⟩ := h
    rw [ListAddition.digit, load, hs a (by simp [hn]), hn, ← hd]
    rfl

theorem IsList.advance {s : Heap} (h : IsList m p ds)
    (hs : ∀ a, m a ≠ none → s.node a = m a) :
    ∃ p', advance s p = .ok p' ∧ IsList m p' ds.tail := by
  cases ds with
  | nil =>
    cases h
    exact ⟨none, rfl, rfl⟩
  | cons d ds =>
    obtain ⟨a, n, rfl, hn, -, hrest⟩ := h
    refine ⟨n.next, ?_, hrest⟩
    rw [ListAddition.advance, load, hs a (by simp [hn]), hn]
    rfl

end Nodes

section Calls

variable {M : Malloc} {m : ℕ → Option ListNode} {s s' : Heap} {n : ListNode} {pres : ℕ}
  {p p1 p2 : Option ℕ} {xs ys : List ℤ} {c : ℤ} {fuel : ℕ}

/-- `malloc` returns memory that is not in use, each time another. -/
structure Malloc.Fresh (M : Malloc) (m : ℕ → Option ListNode) : Prop where
  distinct : Function.Injective M.addr
  unused : ∀ k, m (M.addr k) = none

structure Appended (M : Malloc) (s s' : Heap) (pres : ℕ) (n node : ListNode) : Prop where
  calls : s'.calls = s.calls+1
  new : s'.node (M.addr s.calls) = some node
  last : s'.node pres = some ⟨n.val, some (M.addr s.calls)⟩
  old : ∀ b, b ≠ pres → b ≠ M.addr s.calls → s'.node b = s.node b

theorem load_ok {a : ℕ} (h : s.node a = some n) : load s a = .ok n := by
  rw [load, h]

theorem setNext_ok {a : ℕ} {v : Option ℕ} (h : s.node a = some n) : setNext s a v =
    .ok { s with node := Function.update s.node a (some { n with next := v }) } := by
  rw [setNext, load_ok h]
  rfl

theorem setVal_ok {a : ℕ} {v : ℤ} (h : s.node a = some n) : setVal s a v =
    .ok { s with node := Function.update s.node a (some { n with val := v }) } := by
  rw [setVal, load_ok h]
  rfl

theorem link_new (hpres : s.node pres = some n) (hnew : s.node (M.addr s.calls) = none) :
    ∃ s₁, setNext (malloc M s).1 pres (some (malloc M s).2) = .ok s₁ ∧
      Appended M s s₁ pres n (M.content s.calls) := by
  have hne : pres ≠ M.addr s.calls := by
    rintro rfl
    rw [hnew] at hpres
    cases hpres
  refine ⟨_, setNext_ok (n := n) ?_, rfl, ?_, ?_, ?_⟩
  · simp [malloc, hne, hpres]
  · simp [malloc, hne.symm]
  · simp [malloc]
  · intro b hb hb'
    simp [malloc, hb, hb']

theorem Appended.setNext {node : ListNode} {v : Option ℕ} (h : Appended M s s' pres n node)
    (hne : pres ≠ M.addr s.calls) : ∃ s₁, setNext s' (M.addr s.calls) v = .ok s₁ ∧
      Appended M s s₁ pres n { node with next := v } := by
  refine ⟨_, setNext_ok h.new, h.calls, Function.update_self .., ?_, fun b hb hb' => ?_⟩
  · exact (Function.update_of_ne hne ..).trans h.last
  · exact (Function.update_of_ne hb' ..).trans (h.old b hb hb')

theorem Appended.setVal {node : ListNode} {v : ℤ} (h : Appended M s s' pres n node)
    (hne : pres ≠ M.addr s.calls) : ∃ s₁, setVal s' (M.addr s.calls) v = .ok s₁ ∧
      Appended M s s₁ pres n { node with val := v } := by
  refine ⟨_, setVal_ok h.new, h.calls, Function.update_self .., ?_, fun b hb hb' => ?_⟩
  · exact (Function.update_of_ne hne ..).trans h.last
  · exact (Function.update_of_ne hb' ..).trans (h.old b hb hb')

/-- What the calls rely on: the summands are untouched, the last node is one of
the result, and what `malloc` is going to return is not in use. -/
structure Ready (M : Malloc) (m : ℕ → Option ListNode) (s : Heap) (pres : ℕ) (n : ListNode) :
    Prop where
  kept : ∀ a, m a ≠ none → s.node a = m a
  free : ∀ k, s.calls ≤ k → s.node (M.addr k) = none
  here : s.node pres = some n
  new : m pres = none

theorem Ready.ne (h : Ready M m s pres n) : pres ≠ M.addr s.calls := by
  intro hc
  have := h.free s.calls le_rfl
  rw [← hc, h.here] at this
  cases this

theorem Ready.appended {node : ListNode} (hM : M.Fresh m) (h : Ready M m s pres n)
    (hs : Appended M s s' pres n node) : Ready M m s' (M.addr s.calls) node := by
  refine ⟨fun a ha => ?_, fun k hk => ?_, hs.new, hM.unused s.calls⟩
  · rw [hs.old a, h.kept a ha]
    · rintro rfl
      exact ha h.new
    · rintro rfl
      exact ha (hM.unused s.calls)
  · rw [hs.calls] at hk
    rw [hs.old, h.free k (by omega)]
    · rintro rfl
      have := h.free k (by omega)
      rw [h.here] at this
      cases this
    · intro hc
      have := hM.distinct hc
      omega

/-- One turn of the loop. -/
theorem addLoop_succ (fuel : ℕ) (hM : M.Fresh m) (h : Ready M m s pres n) (h1 : IsList m p1 xs)
    (h2 : IsList m p2 ys) (hne : ¬(xs = [] ∧ ys = [])) : ∃ s' p1' p2',
      addLoop M (fuel+1) s p1 p2 pres c = addLoop M fuel s' p1' p2' (M.addr s.calls)
        ((xs.headD 0+ys.headD 0+c).tdiv 10) ∧
      Appended M s s' pres n ⟨(xs.headD 0+ys.headD 0+c).tmod 10, none⟩ ∧
      IsList m p1' xs.tail ∧ IsList m p2' ys.tail := by
  have hnull : ¬(p1 = none ∧ p2 = none) := by
    rw [h1.null_iff, h2.null_iff]
    exact hne
  obtain ⟨s₁, hlink, hs₁⟩ := link_new h.here (h.free s.calls le_rfl)
  obtain ⟨s₂, hnext, hs₂⟩ := hs₁.setNext (v := none) h.ne
  obtain ⟨s₃, hval, hs₃⟩ := hs₂.setVal (v := (xs.headD 0+ys.headD 0+c).tmod 10) h.ne
  have hready := h.appended hM hs₃
  obtain ⟨p1', hadv1, h1'⟩ := h1.advance hready.kept
  obtain ⟨p2', hadv2, h2'⟩ := h2.advance hready.kept
  refine ⟨s₃, p1', p2', ?_, hs₃, h1', h2'⟩
  have hnext' : setNext s₁ (malloc M s).2 none = .ok s₂ := hnext
  have hval' : setVal s₂ (malloc M s).2 ((xs.headD 0+ys.headD 0+c).tmod 10) = .ok s₃ := hval
  rw [addLoop, if_neg hnull, h1.digit h.kept, ok_bind, h2.digit h.kept, ok_bind]
  dsimp only
  rw [hlink, ok_bind, hnext', ok_bind, hval', ok_bind, hadv1, ok_bind, hadv2, ok_bind]
  rfl

def addRest (M : Malloc) (fuel : ℕ) (s : Heap) (p1 p2 : Option ℕ) (pres : ℕ) (c : ℤ) :
    Run Heap := do
  let q ← addLoop M fuel s p1 p2 pres c
  addCarry M q.1 q.2.1 q.2.2

/-- Where the list of the result leads to: nowhere, or where the memory of the
last carry pointed to. -/
def leadsTo (M : Malloc) (calls : ℕ) (zs : List ℤ) (c : ℤ) : Option ℕ :=
  if finalCarry zs c = 0 then none else (M.content (calls+zs.length)).next

structure Grown (M : Malloc) (s s' : Heap) (pres : ℕ) (n : ListNode) (zs : List ℤ) (c : ℤ) :
    Prop where
  last : ∃ nx, s'.node pres = some ⟨n.val, nx⟩ ∧
    Reaches s'.node nx (settle zs c) (leadsTo M s.calls zs c)
  kept : ∀ b, s.node b ≠ none → b ≠ pres → s'.node b = s.node b
  grown : ∀ b, s.node b = none → s'.node b ≠ none →
    ∃ ws, ws ≠ [] ∧ Reaches s'.node (some b) ws (leadsTo M s.calls zs c)

theorem addCarry_grown (h : Ready M m s pres n) (hn : n.next = none) (hc : c = 0 ∨ c = 1) :
    ∃ s', addCarry M s pres c = .ok s' ∧ Grown M s s' pres n [] c := by
  rcases hc with rfl | rfl
  · refine ⟨s, rfl, ⟨n.next, h.here, ?_⟩, fun _ _ _ => rfl, fun b hb hb' => absurd hb hb'⟩
    rw [leadsTo, finalCarry, if_pos rfl, hn]
    rfl
  · obtain ⟨s₁, hlink, hs₁⟩ := link_new h.here (h.free s.calls le_rfl)
    obtain ⟨s₂, hval, hs₂⟩ := hs₁.setVal (v := 1) h.ne
    have hval' : setVal s₁ (malloc M s).2 1 = .ok s₂ := hval
    have hlead : leadsTo M s.calls [] 1 = (M.content s.calls).next := rfl
    refine ⟨s₂, ?_, ⟨some (M.addr s.calls), hs₂.last, ?_⟩, fun b hb hb' => ?_, fun b hb hb' => ?_⟩
    · rw [addCarry, if_neg one_ne_zero]
      dsimp only
      rw [hlink, ok_bind, hval']
    · rw [hlead]
      exact ⟨_, _, rfl, hs₂.new, rfl, rfl⟩
    · apply hs₂.old b hb'
      rintro rfl
      exact hb (h.free s.calls le_rfl)
    · have hbn : b = M.addr s.calls := by
        by_contra hc
        rw [hs₂.old b _ hc] at hb'
        · exact hb' hb
        · rintro rfl
          rw [h.here] at hb
          cases hb
      rw [hlead, hbn]
      exact ⟨[1], by simp, _, _, rfl, hs₂.new, rfl, rfl⟩

theorem addRest_grown (hM : M.Fresh m) (h : Ready M m s pres n) (h1 : IsList m p1 xs)
    (h2 : IsList m p2 ys) (hnull : xs = [] → ys = [] → n.next = none) (hx : Digits xs)
    (hy : Digits ys) (hc : c = 0 ∨ c = 1) (hfuel : max xs.length ys.length < fuel) :
    ∃ s', addRest M fuel s p1 p2 pres c = .ok s' ∧ Grown M s s' pres n (columns xs ys) c := by
  induction fuel generalizing s p1 p2 pres n c xs ys with
  | zero => omega
  | succ fuel ih =>
    by_cases hne : xs = [] ∧ ys = []
    · obtain ⟨rfl, rfl⟩ := hne
      obtain ⟨s', hrun, hs'⟩ := addCarry_grown h (hnull rfl rfl) hc
      refine ⟨s', ?_, hs'⟩
      rw [addRest, addLoop, if_pos ⟨h1.null_iff.mpr rfl, h2.null_iff.mpr rfl⟩]
      exact hrun
    · obtain ⟨s₁, p1', p2', hloop, hs₁, h1', h2'⟩ := addLoop_succ fuel hM h h1 h2 hne
      have hcol := columns_columns hx hy
      rw [columns_cons hne] at hcol ⊢
      obtain ⟨-, hq, -⟩ := column_step (hcol _ List.mem_cons_self) hc
      have hlen : max xs.tail.length ys.tail.length < fuel := by
        have hpos : 0 < xs.length ∨ 0 < ys.length := by
          rw [List.length_pos_iff, List.length_pos_iff]
          tauto
        rw [List.length_tail, List.length_tail]
        omega
      have hready := h.appended hM hs₁
      obtain ⟨s', hrun, hs'⟩ := ih hready h1' h2' (fun _ _ => rfl) hx.tail hy.tail hq hlen
      have hlead : leadsTo M s₁.calls (columns xs.tail ys.tail)
          ((xs.headD 0+ys.headD 0+c).tdiv 10) =
          leadsTo M s.calls ((xs.headD 0+ys.headD 0) :: columns xs.tail ys.tail) c := by
        rw [leadsTo, leadsTo, finalCarry, hs₁.calls, List.length_cons,
          show s.calls+1+(columns xs.tail ys.tail).length =
            s.calls+((columns xs.tail ys.tail).length+1) by omega]
      obtain ⟨nx, hnode, hreach⟩ := hs'.last
      rw [hlead] at hreach
      have hnew : Reaches s'.node (some (M.addr s.calls))
          (settle ((xs.headD 0+ys.headD 0) :: columns xs.tail ys.tail) c)
          (leadsTo M s.calls ((xs.headD 0+ys.headD 0) :: columns xs.tail ys.tail) c) :=
        ⟨_, _, rfl, hnode, rfl, hreach⟩
      refine ⟨s', ?_, ⟨some (M.addr s.calls), ?_, hnew⟩, fun b hb hb' => ?_, fun b hb hb' => ?_⟩
      · rw [addRest, hloop]
        exact hrun
      · rw [hs'.kept pres (by simp [hs₁.last]) h.ne, hs₁.last]
      · have hbn : b ≠ M.addr s.calls := by
          rintro rfl
          exact hb (h.free s.calls le_rfl)
        have hold := hs₁.old b hb' hbn
        rw [hs'.kept b (by rwa [hold]) hbn, hold]
      · by_cases hbn : b = M.addr s.calls
        · rw [hbn]
          exact ⟨_, by simp [settle], hnew⟩
        · have hold := hs₁.old b (by rintro rfl; simp [h.here] at hb) hbn
          rw [← hlead]
          exact hs'.grown b (hold.trans hb) hb'

end Calls

section Results

variable {M : Malloc} {m : ℕ → Option ListNode} {l1 l2 : ℕ} {xs ys : List ℤ} {fuel fuel' : ℕ}

theorem addLoop_agree {s : Heap} {p1 p2 : Option ℕ} {pres : ℕ} {c : ℤ} {r : Heap × ℕ × ℤ}
    (hle : fuel ≤ fuel') (h : addLoop M fuel s p1 p2 pres c = .ok r) :
    addLoop M fuel' s p1 p2 pres c = .ok r := by
  induction fuel generalizing fuel' s p1 p2 pres c with
  | zero => cases h
  | succ fuel ih =>
    obtain ⟨fuel', rfl⟩ := Nat.exists_eq_add_of_le' (Nat.one_le_of_lt hle)
    rw [addLoop] at h ⊢
    split_ifs at h ⊢ with hend
    · exact h
    · obtain ⟨x, hx, h⟩ := bind_ok_iff.mp h
      obtain ⟨y, hy, h⟩ := bind_ok_iff.mp h
      obtain ⟨s₁, hs₁, h⟩ := bind_ok_iff.mp h
      obtain ⟨s₂, hs₂, h⟩ := bind_ok_iff.mp h
      obtain ⟨s₃, hs₃, h⟩ := bind_ok_iff.mp h
      obtain ⟨p1', h1, h⟩ := bind_ok_iff.mp h
      obtain ⟨p2', h2, h⟩ := bind_ok_iff.mp h
      rw [hx, ok_bind, hy, ok_bind]
      dsimp only
      rw [hs₁, ok_bind, hs₂, ok_bind, hs₃, ok_bind, h1, ok_bind, h2, ok_bind]
      exact ih (by omega) h

theorem addTwoNumbers_agree {s : Heap} {p1 p2 : Option ℕ} {r : Heap × Option ℕ}
    (hle : fuel ≤ fuel') (h : addTwoNumbers M fuel s p1 p2 = .ok r) :
    addTwoNumbers M fuel' s p1 p2 = .ok r := by
  obtain ⟨q, hloop, h⟩ := bind_ok_iff.mp h
  rw [addTwoNumbers, addLoop_agree hle hloop]
  exact h

structure Added (M : Malloc) (m : ℕ → Option ListNode) (s : Heap) (p : Option ℕ)
    (zs : List ℤ) : Prop where
  reaches : Reaches s.node p (settle zs 0) (leadsTo M 1 zs 0)
  kept : ∀ a, m a ≠ none → s.node a = m a
  grown : ∀ b, m b = none → s.node b ≠ none →
    ∃ ws, ws ≠ [] ∧ Reaches s.node (some b) ws (leadsTo M 1 zs 0)

theorem addTwoNumbers_added (hM : M.Fresh m) (h1 : IsList m (some l1) xs)
    (h2 : IsList m (some l2) ys) (hx : Digits xs) (hy : Digits ys)
    (hfuel : max xs.length ys.length < fuel) :
    ∃ s p, addTwoNumbers M fuel ⟨m, 0⟩ (some l1) (some l2) = .ok (s, p) ∧
      Added M m s p (columns xs ys) := by
  set s₀ := (malloc M ⟨m, 0⟩).1 with hs₀
  have hother : ∀ b, b ≠ M.addr 0 → s₀.node b = m b := fun b hb => by
    simp [hs₀, malloc, hb]
  have hready : Ready M m s₀ (M.addr 0) (M.content 0) := by
    refine ⟨fun a ha => hother a ?_, fun k hk => ?_, ?_, hM.unused 0⟩
    · rintro rfl
      exact ha (hM.unused 0)
    · rw [hother, hM.unused k]
      intro hc
      have hk' : 1 ≤ k := hk
      have := hM.distinct hc
      omega
    · simp [hs₀, malloc]
  have hnull : xs = [] → ys = [] → (M.content 0).next = none := by
    rintro rfl
    cases h1
  obtain ⟨s, hrun, hgrown⟩ := addRest_grown hM hready h1 h2 hnull hx hy (Or.inl rfl) hfuel
  obtain ⟨nx, hres, hreach⟩ := hgrown.last
  refine ⟨s, nx, ?_, hreach, fun a ha => ?_, fun b hb hb' => ?_⟩
  · obtain ⟨q, hloop, hcarry⟩ := bind_ok_iff.mp hrun
    have hres' : load s (malloc M ⟨m, 0⟩).2 = .ok ⟨(M.content 0).val, nx⟩ := load_ok hres
    have hloop' : addLoop M fuel (malloc M ⟨m, 0⟩).1 (some l1) (some l2) (malloc M ⟨m, 0⟩).2 0 =
      .ok q := hloop
    rw [addTwoNumbers, hloop', ok_bind, hcarry, ok_bind, hres']
    rfl
  · have hne : a ≠ M.addr 0 := by
      rintro rfl
      exact ha (hM.unused 0)
    rw [hgrown.kept a (by rwa [hother a hne]) hne, hother a hne]
  · by_cases hb0 : b = M.addr 0
    · rw [hb0]
      exact ⟨_ :: settle (columns xs ys) 0, by simp, _, _, rfl, hres, rfl, hreach⟩
    · exact hgrown.grown b (by rwa [hother b hb0]) hb'

theorem IsList.unique {node : ℕ → Option ListNode} {p : Option ℕ} {ds es : List ℤ}
    (h : IsList node p ds) (h' : IsList node p es) : ds = es := by
  obtain ⟨zs, hzs, hnull⟩ := h.after h'
  rw [hzs, hnull.null, List.append_nil]

/-- The rest of a list that is met from itself: it does not go through a node of
the result, from which it would be met again. -/
theorem Added.old {s : Heap} {p q : Option ℕ} {cs zs ws : List ℤ} (h : Added M m s p cs)
    (hz : IsList s.node (leadsTo M 1 cs 0) zs) (hw : IsList s.node q ws)
    (hle : ws.length ≤ zs.length) : IsList m q ws := by
  induction ws generalizing q with
  | nil => exact hw
  | cons d ws ih =>
    obtain ⟨a, n, rfl, hn, hd, hrest⟩ := hw
    by_cases ha : m a = none
    · obtain ⟨us, hne, hreach⟩ := h.grown a ha (by simp [hn])
      have hlist : IsList s.node (some a) (d :: ws) := ⟨a, n, rfl, hn, hd, hrest⟩
      obtain ⟨vs, hvs, hv⟩ := hlist.after hreach
      have hlen := congrArg List.length hvs
      have hpos := List.length_pos_iff.mpr hne
      rw [hv.unique hz, List.length_append] at hlen
      omega
    · rw [h.kept a ha] at hn
      rw [List.length_cons] at hle
      exact ⟨a, n, rfl, hn, hd, ih hrest (by omega)⟩

theorem Added.leadsTo_iff {s : Heap} {p : Option ℕ} {cs zs : List ℤ} (h : Added M m s p cs) :
    IsList s.node (leadsTo M 1 cs 0) zs ↔ IsList m (leadsTo M 1 cs 0) zs :=
  ⟨fun hz => h.old hz hz le_rfl, fun hz => hz.mono h.kept⟩

theorem value_eq_zero_iff {l : List ℤ} (h : Digits l) : value l = 0 ↔ ∀ z ∈ l, z = 0 := by
  induction l with
  | nil => simp [value]
  | cons d l ih =>
    have hd := h d List.mem_cons_self
    have hl := h.tail.bounds.1
    rw [List.tail_cons] at hl
    rw [value, List.forall_mem_cons, ← ih h.tail]
    constructor
    · intro hsum
      constructor <;> linarith
    · rintro ⟨rfl, hl⟩
      rw [hl]
      rfl

/-- The call returns a list of the digits of the sum. -/
def Adds (M : Malloc) (m : ℕ → Option ListNode) (l1 l2 : ℕ) (xs ys : List ℤ) : Prop :=
  ∃ fuel s p rs, addTwoNumbers M fuel ⟨m, 0⟩ (some l1) (some l2) = .ok (s, p) ∧
    IsList s.node p rs ∧ Digits rs ∧ value rs = value xs + value ys ∧
    (¬Superfluous xs → ¬Superfluous ys → ¬Superfluous rs)

theorem Adds.added (h : Adds M m l1 l2 xs ys) (hM : M.Fresh m) (h1 : IsList m (some l1) xs)
    (h2 : IsList m (some l2) ys) (hx : Digits xs) (hy : Digits ys) :
    ∃ s p rs, Added M m s p (columns xs ys) ∧ IsList s.node p rs ∧ Digits rs ∧
      value rs = value xs + value ys ∧
      (¬Superfluous xs → ¬Superfluous ys → ¬Superfluous rs) := by
  obtain ⟨s, p, hrun, hadd⟩ := addTwoNumbers_added hM h1 h2 hx hy (Nat.lt_succ_self _)
  obtain ⟨fuel, s', p', rs, hrun', hlist, hrs, hval, hsup⟩ := h
  have hsame : (s, p) = (s', p') := by
    rcases le_total fuel (max xs.length ys.length).succ with hle | hle
    · exact Except.ok.inj (hrun.symm.trans (addTwoNumbers_agree hle hrun'))
    · exact Except.ok.inj ((addTwoNumbers_agree hle hrun).symm.trans hrun')
  cases hsame
  exact ⟨s, p, rs, hadd, hlist, hrs, hval, hsup⟩

/-- The list of the result is closed where the memory of the last carry happens to
close it. -/
theorem addTwoNumbers_adds_iff (hM : M.Fresh m) (h1 : IsList m (some l1) xs)
    (h2 : IsList m (some l2) ys) (hx : Digits xs) (hy : Digits ys) :
    Adds M m l1 l2 xs ys ↔ value xs + value ys < 10^max xs.length ys.length ∨
      ∃ zs, IsList m (M.content (1+max xs.length ys.length)).next zs ∧ (∀ z ∈ zs, z = 0) ∧
        (zs = [] ∨ Superfluous xs ∨ Superfluous ys) := by
  have hcol := columns_columns hx hy
  have hdigits := settle_digits hcol (Or.inl rfl)
  have hvalue := value_settle hcol (Or.inl rfl)
  have hnone := settle_not_superfluous hx hy
  have hcarry := finalCarry_iff hcol (Or.inl rfl)
  rw [value_columns, add_zero] at hvalue
  rw [value_columns, add_zero, columns_length] at hcarry
  rw [← hcarry]
  constructor
  · intro h
    obtain ⟨s, p, rs, hadd, hlist, hrs, hval, hsup⟩ := h.added hM h1 h2 hx hy
    by_cases hc : finalCarry (columns xs ys) 0 = 0
    · exact Or.inl hc
    · obtain ⟨zs, rfl, hz⟩ := hlist.after hadd.reaches
      rw [hadd.leadsTo_iff, leadsTo, if_neg hc, columns_length] at hz
      have hzd : Digits zs := fun d hd => hrs d (List.mem_append_right _ hd)
      rw [value_append, hvalue] at hval
      have hz0 : value zs = 0 := by
        have hpow : (10:ℤ)^(settle (columns xs ys) 0).length ≠ 0 := by positivity
        have := mul_eq_zero.mp (show (10:ℤ)^(settle (columns xs ys) 0).length*value zs = 0 by
          linarith)
        tauto
      have hzero := (value_eq_zero_iff hzd).mp hz0
      refine Or.inr ⟨zs, hz, hzero, ?_⟩
      by_contra hcon
      push Not at hcon
      obtain ⟨hne, hsx, hsy⟩ := hcon
      apply hsup hsx hsy
      apply superfluous_zeros _ hne hzero
      rw [settle_length, if_neg hc]
      exact Nat.succ_pos _
  · obtain ⟨s, p, hrun, hadd⟩ := addTwoNumbers_added hM h1 h2 hx hy (Nat.lt_succ_self _)
    have hreach := hadd.reaches
    rintro (hc | ⟨zs, hz, hzero, hsup⟩)
    · rw [leadsTo, if_pos hc] at hreach
      exact ⟨_, s, p, _, hrun, hreach, hdigits, hvalue, hnone⟩
    · by_cases hc : finalCarry (columns xs ys) 0 = 0
      · rw [leadsTo, if_pos hc] at hreach
        exact ⟨_, s, p, _, hrun, hreach, hdigits, hvalue, hnone⟩
      · have hzd : Digits zs := fun d hd => by
          rw [hzero d hd]
          decide
        have hz' := hadd.leadsTo_iff.mpr (by rwa [leadsTo, if_neg hc, columns_length])
        refine ⟨_, s, p, settle (columns xs ys) 0 ++ zs, hrun,
          reaches_append.mpr ⟨_, hreach, hz'⟩, fun d hd => ?_, ?_, fun hsx hsy => ?_⟩
        · exact (List.mem_append.mp hd).elim (hdigits d) (hzd d)
        · rw [value_append, (value_eq_zero_iff hzd).mpr hzero, hvalue, mul_zero, add_zero]
        · rw [(hsup.resolve_right (by tauto) : zs = []), List.append_nil]
          exact hnone hsx hsy

def twoDigits (x y : ℤ) : ℕ → Option ListNode
  | 1 => some ⟨x, none⟩
  | 2 => some ⟨y, none⟩
  | _ => none

def junk : Malloc := ⟨fun k => k+3, fun _ => ⟨0, some 0⟩⟩

theorem junk_fresh (x y : ℤ) : junk.Fresh (twoDigits x y) :=
  ⟨fun _ _ h => Nat.add_right_cancel h, fun _ => rfl⟩

theorem twoDigits_fst (x y : ℤ) : IsList (twoDigits x y) (some 1) [x] :=
  ⟨1, _, rfl, rfl, rfl, rfl⟩

theorem twoDigits_snd (x y : ℤ) : IsList (twoDigits x y) (some 2) [y] :=
  ⟨2, _, rfl, rfl, rfl, rfl⟩

theorem digits_single {d : ℤ} (h : 0 ≤ d ∧ d ≤ 9) : Digits [d] := fun e he => by
  rwa [List.mem_singleton.mp he]

def unequal : ℕ → Option ListNode
  | 0 => some ⟨5, some 1⟩
  | 1 => some ⟨8, none⟩
  | 2 => some ⟨7, none⟩
  | _ => none

/-- The carry goes on past the end of the shorter list. -/
theorem addTwoNumbers_adds_unequal : Adds junk unequal 0 2 [5, 8] [7] := by
  have hfst : IsList unequal (some 0) [5, 8] := ⟨0, _, rfl, rfl, rfl, 1, _, rfl, rfl, rfl, rfl⟩
  have hsnd : IsList unequal (some 2) [7] := ⟨2, _, rfl, rfl, rfl, rfl⟩
  have hdigits : Digits [5, 8] := List.forall_mem_cons.mpr ⟨by decide, digits_single (by decide)⟩
  exact (addTwoNumbers_adds_iff ⟨fun _ _ h => Nat.add_right_cancel h, fun _ => rfl⟩ hfst hsnd
    hdigits (digits_single (by decide))).mpr (Or.inl (by decide))

/-- The list of the result leads on from the node of the last carry. -/
theorem addTwoNumbers_leads_on : ¬Adds junk (twoDigits 9 1) 1 2 [9] [1] := by
  intro h
  obtain ⟨s, p, rs, hadd, hlist, -⟩ := h.added (junk_fresh 9 1) (twoDigits_fst 9 1)
    (twoDigits_snd 9 1) (digits_single (by decide)) (digits_single (by decide))
  obtain ⟨zs, -, hz⟩ := hlist.after hadd.reaches
  rw [hadd.leadsTo_iff] at hz
  cases zs with
  | nil => cases hz
  | cons z zs =>
    obtain ⟨a, n, ha, hn, -⟩ := hz
    cases ha
    cases hn

end Results

end CLearning.ListAddition
