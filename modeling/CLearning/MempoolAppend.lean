import CLearning.MempoolRun
import CLearning.MempoolFresh

/-!
# Appending to a block

`pmemcpy_extra`, `psprintf_extra` and `pzero_extra` seen from the memory: which
bytes they change, what becomes of the append mark, and when a call stays in its
block.
-/

set_option autoImplicit false

namespace CLearning.MempoolAppend
open CLearning.Machine CLearning.LinkedLists CLearning.MempoolBytes CLearning.MempoolPool
open CLearning.MempoolHeap CLearning.MempoolServe CLearning.MpHash CLearning.MempoolState
open CLearning.Mempool CLearning.MempoolChain CLearning.MempoolRegistry CLearning.MempoolCore
open CLearning.MempoolGrow CLearning.MempoolAlloc CLearning.MempoolFree
open CLearning.MempoolStore CLearning.MempoolInit CLearning.MempoolFresh CLearning.MempoolRun

section Memory

variable {env : Env} {s s' : State} {a b n y off : ℕ} {f : Bytes}

theorem locate_mem {p : State.Place} (h : s.locate a n = some p) :
    ∃ c ∈ s.heap.live, a+n ≤ c.addr+c.size ∧
      (c.kind = .pool ∧ c.addr+mempoolSize ≤ a ∧ p = .pool c.addr (a-c.addr-mempoolSize) ∨
        c.kind = .large ∧ c.addr ≤ a ∧ p = .large c.addr (a-c.addr)) := by
  rw [State.locate] at h
  obtain ⟨c, hc, hp⟩ := List.exists_of_findSome?_eq_some h
  cases hk : c.kind with
  | pool =>
    simp only [hk, Option.ite_none_right_eq_some, Option.some_inj] at hp
    obtain ⟨hin, rfl⟩ := hp
    exact ⟨c, hc, hin.2, Or.inl ⟨hk, hin.1, rfl⟩⟩
  | large =>
    simp only [hk, Option.ite_none_right_eq_some, Option.some_inj] at hp
    obtain ⟨hin, rfl⟩ := hp
    exact ⟨c, hc, hin.2, Or.inr ⟨hk, hin.1, rfl⟩⟩
  | other => simp [hk] at hp

structure Untouched (s s' : State) : Prop where
  base : s'.base = s.base
  config : s'.config = s.config
  property : s'.property = s.property
  heap : s'.heap = s.heap
  pools : ∀ x, s'.pools x = { s.pools x with data := (s'.pools x).data }

theorem Untouched.refl (s : State) : Untouched s s := ⟨rfl, rfl, rfl, rfl, fun _ => rfl⟩

theorem Untouched.trans {t : State} (h : Untouched s s') (h' : Untouched s' t) : Untouched s t where
  base := h'.base.trans h.base
  config := h'.config.trans h.config
  property := h'.property.trans h.property
  heap := h'.heap.trans h.heap
  pools x := by rw [h'.pools x, h.pools x]

theorem untouched_setPool (s : State) (b : ℕ) (m : Bytes) :
    Untouched s (s.setPool b { s.pools b with data := m }) := by
  refine ⟨rfl, rfl, rfl, rfl, fun x => ?_⟩
  by_cases hx : x = b
  · rw [hx, pools_setPool_self]
  · rw [pools_setPool_ne _ _ hx]

theorem untouched_setLarge (s : State) (b : ℕ) (m : Bytes) : Untouched s (s.setLarge b m) :=
  ⟨rfl, rfl, rfl, rfl, fun _ => rfl⟩

theorem untouched_store (h : s.store a n f = .ok s') : Untouched s s' := by
  rw [State.store] at h
  split at h
  · rw [Except.ok.injEq] at h
    rw [← h]
    exact untouched_setPool _ _ _
  · rw [Except.ok.injEq] at h
    rw [← h]
    exact untouched_setLarge _ _ _
  · cases h

theorem load_setPool {m : Bytes}
    (h : (s.setPool b { s.pools b with data := m }).load env y ≠ s.load env y) :
    b+mempoolSize ≤ y ∧ m (y-b-mempoolSize) ≠ (s.pools b).data (y-b-mempoolSize) := by
  have hloc : (s.setPool b { s.pools b with data := m }).locate y 1 = s.locate y 1 := rfl
  rw [State.load, State.load, hloc] at h
  cases hl : s.locate y 1 with
  | none => simp [hl, State.setPool] at h
  | some p =>
    obtain ⟨c, -, -, ⟨-, hge, rfl⟩ | ⟨-, -, rfl⟩⟩ := locate_mem hl
    · simp only [hl] at h
      by_cases hcb : c.addr = b
      · subst hcb
        rw [pools_setPool_self] at h
        exact ⟨hge, h⟩
      · rw [pools_setPool_ne _ _ hcb] at h
        exact absurd rfl h
    · simp [hl, State.setPool] at h

theorem load_setLarge {m : Bytes} (h : (s.setLarge b m).load env y ≠ s.load env y) :
    b ≤ y ∧ m (y-b) ≠ s.larges b (y-b) := by
  have hloc : (s.setLarge b m).locate y 1 = s.locate y 1 := rfl
  rw [State.load, State.load, hloc] at h
  cases hl : s.locate y 1 with
  | none => simp [hl, State.setLarge] at h
  | some p =>
    obtain ⟨c, -, -, ⟨-, -, rfl⟩ | ⟨-, hge, rfl⟩⟩ := locate_mem hl
    · simp [hl, State.setLarge] at h
    · simp only [hl, State.setLarge] at h
      by_cases hcb : c.addr = b
      · subst hcb
        rw [Function.update_self] at h
        exact ⟨hge, h⟩
      · rw [Function.update_of_ne hcb] at h
        exact absurd rfl h

/-- What the memory holds after a store. -/
theorem load_store (hp : s.heap.live.Pairwise Chunk.Apart) (h : s.store a n f = .ok s') (y : ℕ) :
    s'.load env y = if a ≤ y ∧ y < a+n then f (y-a) else s.load env y := by
  split
  · next hin =>
    rw [State.store] at h
    cases hl : s.locate a n with
    | none => simp [hl] at h
    | some p =>
      obtain ⟨c, hc, hle, hcase⟩ := locate_mem hl
      have hy := locate_unique (a := y) (n := 1) hp hc (Nat.le_refl _) (by omega) (by omega)
      rcases hcase with ⟨hk, hge, rfl⟩ | ⟨hk, hge, rfl⟩
      · simp only [hl, Except.ok.injEq] at h
        simp only [hk, if_pos (show c.addr+mempoolSize ≤ y by omega)] at hy
        rw [← h, State.load]
        have hloc : (s.setPool c.addr { s.pools c.addr with
          data := State.splice (s.pools c.addr).data (a-c.addr-mempoolSize) n f }).locate y 1 =
            s.locate y 1 := rfl
        have he : y-c.addr-mempoolSize-(a-c.addr-mempoolSize) = y-a := by omega
        rw [hloc, hy]
        simp only [pools_setPool_self]
        rw [State.splice, if_pos (by omega), he]
      · simp only [hl, Except.ok.injEq] at h
        simp only [hk] at hy
        rw [← h, State.load]
        have hloc : (s.setLarge c.addr (State.splice (s.larges c.addr) (a-c.addr) n f)).locate y 1 =
            s.locate y 1 := rfl
        have he : y-c.addr-(a-c.addr) = y-a := by omega
        rw [hloc, hy]
        simp only [State.setLarge, Function.update_self]
        rw [State.splice, if_pos (by omega), he]
  · next hout =>
    by_contra hne
    rw [State.store] at h
    cases hl : s.locate a n with
    | none => simp [hl] at h
    | some p =>
      obtain ⟨c, -, -, ⟨-, hge, rfl⟩ | ⟨-, hge, rfl⟩⟩ := locate_mem hl
      · simp only [hl, Except.ok.injEq] at h
        rw [← h] at hne
        obtain ⟨hy, hne⟩ := load_setPool hne
        rw [State.splice, if_neg (by omega)] at hne
        exact hne rfl
      · simp only [hl, Except.ok.injEq] at h
        rw [← h] at hne
        obtain ⟨hy, hne⟩ := load_setLarge hne
        rw [State.splice, if_neg (by omega)] at hne
        exact hne rfl

end Memory

section Views

/-- The header of a block: its kind, its append mark and its size. -/
structure View where
  large : Bool
  used : ℕ
  size : ℕ
  deriving DecidableEq, Repr

namespace View

def header (v : View) : ℕ := if v.large then largeSize else realdataSize

def Mark (v : View) (x a : ℕ) : Prop := if v.large then x ≤ a+4 ∧ a < x else x ≤ a+3 ∧ a+1 < x

end View

/-- The header in front of `x`, read as the kind of chunk it lies in says. -/
def view (s : State) (x : ℕ) : Option View :=
  if s.heap.live.any fun c => c.kind = .large && c.addr+largeSize = x then
    some ⟨true, largeUsed (s.larges (x-largeSize)), largeBytes (s.larges (x-largeSize))⟩
  else
    match s.header (x-realdataSize) with
    | .ok (b, o) => some ⟨false, (s.pools b).rd o .used, (s.pools b).rd o .size⟩
    | .error _ => none

def smallView (s : State) (b o : ℕ) : View :=
  ⟨false, (s.pools b).rd o .used, (s.pools b).rd o .size⟩

def largeView (s : State) (a : ℕ) : View := ⟨true, largeUsed (s.larges a), largeBytes (s.larges a)⟩

variable {s s' : State} {ps fs ls M : List ℕ} {B : ℕ → List ℕ} {a b o m n k : ℕ} {f : Bytes}

theorem view_small (hc : Core s ps fs [] ls M B) (hb : b ∈ s.base :: ps) (ho : o ∈ B b) :
    view s (payload b o) = some (smallView s b o) := by
  have hno : ¬(s.heap.live.any fun c => c.kind = .large && c.addr+largeSize = payload b o) := by
    simp only [List.any_eq_true, Bool.and_eq_true, decide_eq_true_eq, not_exists, not_and]
    intro c hcl hk hx
    rcases (hc.owned c).mp ⟨hcl, by simp [hk]⟩ with ⟨p, -, rfl⟩ | ⟨p, hp, rfl⟩
    · simp [poolChunk] at hk
    · exact payload_ne_large hc hb ho hp hx.symm
  rw [view, if_neg hno, header_at hc hb ho, smallView]

theorem view_large (hc : Core s ps fs [] ls M B) (ha : a ∈ ls) :
    view s (a+largeSize) = some (largeView s a) := by
  have hlive := hc.large_live ha
  have hyes : s.heap.live.any fun c => c.kind = .large && c.addr+largeSize = a+largeSize := by
    simp only [List.any_eq_true, Bool.and_eq_true, decide_eq_true_eq]
    exact ⟨_, hlive, rfl, rfl⟩
  rw [view, if_pos hyes, Nat.add_sub_cancel, largeView]

theorem fill_small (hc : Core s ps fs [] ls M B) (hb : b ∈ s.base :: ps) (ho : o ∈ B b)
    (hk : 0 < k) (hfit : (s.pools b).rd o .used+realdataSize+k ≤ (s.pools b).rd o .size) :
    ∃ t, s.store (payload b o+(s.pools b).rd o .used) k f = .ok t ∧ Core t ps fs [] ls M B ∧
      b ∈ t.base :: ps ∧ (t.pools b).rd o .used = (s.pools b).rd o .used ∧
      (t.pools b).rd o .size = (s.pools b).rd o .size := by
  obtain ⟨t, hstore, hct, hw, -⟩ := store_small (f := f) (n := k)
    (d := o+realdataSize+(s.pools b).rd o .used) hc hb ho hk (by omega) (by omega)
  obtain ⟨h1, h2⟩ := hw.blocks b hb o ho
  have haddr : payload b o+(s.pools b).rd o .used =
      b+mempoolSize+(o+realdataSize+(s.pools b).rd o .used) := by
    rw [payload]
    omega
  rw [haddr]
  exact ⟨t, hstore, hct, hw.base.symm ▸ hb, h2, h1⟩

theorem fill_large (hc : Core s ps fs [] ls M B) (ha : a ∈ ls) (hk : 0 < k)
    (hfit : largeUsed (s.larges a)+largeSize+k ≤ largeBytes (s.larges a)) :
    ∃ t, s.store (a+largeSize+largeUsed (s.larges a)) k f = .ok t ∧ Core t ps fs [] ls M B ∧
      largeUsed (t.larges a) = largeUsed (s.larges a) ∧
      largeBytes (t.larges a) = largeBytes (s.larges a) := by
  obtain ⟨t, hstore, hct, hw, -⟩ := store_large (f := f) (n := k)
    (d := largeSize+largeUsed (s.larges a)) hc ha hk (by omega) (by omega)
  obtain ⟨-, h1, h2⟩ := hw.larges a ha
  have haddr : a+largeSize+largeUsed (s.larges a) = a+(largeSize+largeUsed (s.larges a)) := by
    omega
  rw [haddr]
  exact ⟨t, hstore, hct, h2, h1⟩

theorem mark_small_view (env : Env) (hc : Core s ps fs [] ls M B) (hb : b ∈ s.base :: ps)
    (ho : o ∈ B b) (hm : m < 65536) :
    view (s.setPool b ((s.pools b).setRd o .used m)) (payload b o) =
        some ⟨false, m, (s.pools b).rd o .size⟩ ∧
      Untouched s (s.setPool b ((s.pools b).setRd o .used m)) ∧
      ∀ y, (s.setPool b ((s.pools b).setRd o .used m)).load env y ≠ s.load env y →
        payload b o ≤ y+3 ∧ y+1 < payload b o := by
  obtain ⟨hcore, hblk, -⟩ := setUsed_core hc hb ho hm
  obtain ⟨h1, h2⟩ := hblk b hb o ho
  rw [if_pos ⟨rfl, rfl⟩] at h2
  refine ⟨?_, untouched_setPool _ _ _, fun y hy => ?_⟩
  · rw [view_small hcore hb ho, smallView, h1, h2]
  · obtain ⟨hge, hne⟩ := load_setPool hy
    have hin : ¬(y-b-mempoolSize < o+12 ∨ o+12+2 ≤ y-b-mempoolSize) := fun h =>
      hne (store16_frame _ _ h)
    simp only [payload, mempoolSize, realdataSize] at *
    omega

theorem store32_frame (mem : Bytes) {x y : ℕ} (v : ℕ) (h : y < x ∨ x+4 ≤ y) :
    store32 mem x v y = mem y := by
  rw [store32, store16_frame _ _ (by omega), store16_frame _ _ (by omega)]

theorem mark_large_view (env : Env) (hc : Core s ps fs [] ls M B) (ha : a ∈ ls) (hm : m < 2^32)
    (hfit : m = 0 ∨ m+largeSize ≤ largeBytes (s.larges a)) :
    view (s.setLarge a (store32 (s.larges a) 8 m)) (a+largeSize) =
        some ⟨true, m, largeBytes (s.larges a)⟩ ∧
      Untouched s (s.setLarge a (store32 (s.larges a) 8 m)) ∧
      ∀ y, (s.setLarge a (store32 (s.larges a) 8 m)).load env y ≠ s.load env y →
        a+largeSize ≤ y+4 ∧ y < a+largeSize := by
  obtain ⟨hcore, -⟩ := mark_large (a := a) hc hm hfit
  have hself : (s.setLarge a (store32 (s.larges a) 8 m)).larges a = store32 (s.larges a) 8 m :=
    Function.update_self ..
  refine ⟨?_, untouched_setLarge _ _ _, fun y hy => ?_⟩
  · rw [view_large hcore ha, largeView, hself, largeUsed, load32_store32_self _ _ hm, largeBytes,
      load32_store32_apart _ _ (by omega), largeBytes]
  · obtain ⟨hge, hne⟩ := load_setLarge hy
    have hin : ¬(y-a < 8 ∨ 8+4 ≤ y-a) := fun h => hne (store32_frame _ _ h)
    rw [largeSize]
    omega

end Views

section Calls

inductive Append where
  | memcpy (src n : ℕ)
  | sprintf (text : List UInt8)
  | zero

namespace Append

def run (env : Env) (s : State) (x : ℕ) : Append → Run State
  | .memcpy src n => do
    let r ← pmemcpyExtra env s x src n
    .ok r.1
  | .sprintf text => do
    let r ← psprintfExtra s x text
    .ok r.1
  | .zero => pzeroExtra s x

end Append

def Copies (v : View) (x src n : ℕ) : Prop :=
  n ≤ usub 32 (usub 32 v.size v.header) v.used ∧
    ¬((x ≥ src ∧ x ≤ src+n) ∨ (src ≥ x ∧ src ≤ x+usub 32 v.size v.header))

structure Appended (env : Env) (s s' : State) (x : ℕ) (v v' : View) (c : Append) : Prop where
  untouched : Untouched s s'
  large : v'.large = v.large
  size : v'.size = v.size
  fits : v'.used+v'.header ≤ v'.size
  bytes : ∀ a, s'.load env a ≠ s.load env a →
    (x+v.used ≤ a ∧ a+v.header < x+v.size) ∨ v.Mark x a
  copied : ∀ src n, c = .memcpy src n →
    (v'.used = v.used+n ∧ ∀ i < n, s'.load env (x+v.used+i) = s.load env (src+i)) ∨
      (v'.used = v.used ∧ ∀ a, s'.load env a = s.load env a)
  apart : ∀ src n, c = .memcpy src n → Copies v x src n → src+n ≤ x+v.used ∨ x+v.used+n ≤ src

/-- The call comes back and did only what it may. -/
def Safe (env : Env) (s : State) (x : ℕ) (c : Append) : Prop :=
  ∃ s' v v', c.run env s x = .ok s' ∧ view s x = some v ∧ view s' x = some v' ∧
    Appended env s s' x v v' c

variable {env : Env} {s s' t : State} {ps fs ls M : List ℕ} {B : ℕ → List ℕ} {v v' : View}
  {a b o x src n k : ℕ} {f : Bytes} {c : Append}

theorem mark_lt (h : v.Mark x a) : a < x := by
  rw [View.Mark] at h
  split at h <;> omega

theorem copies_apart (hfit : v.used+v.header ≤ v.size) (hsz : v.size < 2^32)
    (h : Copies v x src n) :
    v.used+v.header+n ≤ v.size ∧ (src+n ≤ x+v.used ∨ x+v.used+n ≤ src) := by
  obtain ⟨hle, hno⟩ := h
  rw [usub_of_le (show v.header ≤ v.size by omega) hsz] at hle hno
  rw [usub_of_le (by omega) (by omega)] at hle
  omega

theorem appended_refl (hfit : v.used+v.header ≤ v.size) (hsz : v.size < 2^32) (c : Append) :
    Appended env s s x v v c where
  untouched := Untouched.refl s
  large := rfl
  size := rfl
  fits := hfit
  bytes _ h := absurd rfl h
  copied _ _ _ := Or.inr ⟨rfl, fun _ => rfl⟩
  apart _ _ _ h := (copies_apart hfit hsz h).2

theorem changed_bytes (hp : s.heap.live.Pairwise Chunk.Apart)
    (hstore : s.store (x+v.used) k f = .ok t) (hle : v.used+v.header+k ≤ v.size)
    (hmark : ∀ y, s'.load env y ≠ t.load env y → v.Mark x y) (y : ℕ)
    (hy : s'.load env y ≠ s.load env y) :
    (x+v.used ≤ y ∧ y+v.header < x+v.size) ∨ v.Mark x y := by
  by_cases ht : s'.load env y = t.load env y
  · rw [ht, load_store hp hstore] at hy
    split at hy
    · exact Or.inl (by omega)
    · exact absurd rfl hy
  · exact Or.inr (hmark y ht)

theorem memcpy_appended (hp : s.heap.live.Pairwise Chunk.Apart) (hsz : v.size < 2^32)
    (hstore : s.store (x+v.used) n (fun i => s.load env (src+i)) = .ok t)
    (hle : v.used+v.header+n ≤ v.size) (hu : Untouched t s')
    (hmark : ∀ y, s'.load env y ≠ t.load env y → v.Mark x y) :
    Appended env s s' x v { v with used := v.used+n } (.memcpy src n) where
  untouched := (untouched_store hstore).trans hu
  large := rfl
  size := rfl
  fits := by
    show v.used+n+v.header ≤ v.size
    omega
  bytes := changed_bytes hp hstore hle hmark
  copied src' n' he := by
    obtain ⟨rfl, rfl⟩ : src = src' ∧ n = n' := by simpa using he
    refine Or.inl ⟨rfl, fun i hi => ?_⟩
    have hkeep : s'.load env (x+v.used+i) = t.load env (x+v.used+i) := by
      by_contra hne
      have := mark_lt (hmark _ hne)
      omega
    rw [hkeep, load_store hp hstore, if_pos (by omega), Nat.add_sub_cancel_left]
  apart _ _ _ h := (copies_apart (by omega) hsz h).2

theorem sprintf_appended {m : ℕ} {text : List UInt8} (hp : s.heap.live.Pairwise Chunk.Apart)
    (hstore : s.store (x+v.used) k f = .ok t) (hle : v.used+v.header+k ≤ v.size)
    (hm : v.used+v.header+m ≤ v.size) (hu : Untouched t s')
    (hmark : ∀ y, s'.load env y ≠ t.load env y → v.Mark x y) :
    Appended env s s' x v { v with used := v.used+m } (.sprintf text) where
  untouched := (untouched_store hstore).trans hu
  large := rfl
  size := rfl
  fits := by
    show v.used+m+v.header ≤ v.size
    omega
  bytes := changed_bytes hp hstore hle hmark
  copied _ _ he := by cases he
  apart _ _ he := by cases he

theorem zero_appended (hfit : v.header ≤ v.size) (hu : Untouched s s')
    (hmark : ∀ y, s'.load env y ≠ s.load env y → v.Mark x y) :
    Appended env s s' x v { v with used := 0 } .zero where
  untouched := hu
  large := rfl
  size := rfl
  fits := by
    show 0+v.header ≤ v.size
    omega
  bytes y hy := Or.inr (hmark y hy)
  copied _ _ he := by cases he
  apart _ _ he := by cases he

theorem pmemcpyBytes_refused (env : Env) (h : ¬Copies v x src n) :
    ∃ r, r ≤ 0 ∧ pmemcpyBytes env s x (usub 32 v.size v.header) v.used src n = .ok (s, r) := by
  rw [pmemcpyBytes]
  split
  · exact ⟨-1, by decide, rfl⟩
  · next hle =>
    rw [if_pos]
    · exact ⟨-2, by decide, rfl⟩
    · by_contra hno
      exact h ⟨Nat.le_of_not_lt hle, hno⟩

theorem pmemcpyBytes_done (env : Env) (h : Copies v x src n)
    (hstore : s.store (x+v.used) n (fun i => s.load env (src+i)) = .ok t) :
    pmemcpyBytes env s x (usub 32 v.size v.header) v.used src n = .ok (t, toInt32 n) := by
  rw [pmemcpyBytes]
  rw [if_neg (Nat.not_lt.mpr h.1), if_neg h.2, hstore, ok_bind]

theorem toInt32_of_lt (h : n < 2^31) : toInt32 n = n := by
  rw [toInt32, if_pos (by omega), Nat.mod_eq_of_lt (by omega)]

/-- A store of no bytes inside a chunk does nothing. -/
theorem store_none {d : Chunk} (hd : d ∈ s.heap.live) (hk : d.kind ≠ .other)
    (hlo : d.addr+mempoolSize ≤ a ∨ d.kind = .large ∧ d.addr ≤ a) (hhi : a ≤ d.addr+d.size) :
    s.store a 0 f = .ok s := by
  have hsome : s.locate a 0 ≠ none := by
    rw [State.locate]
    intro hnone
    have h := List.findSome?_eq_none_iff.mp hnone d hd
    cases hkd : d.kind with
    | pool =>
      have hlo' : d.addr+mempoolSize ≤ a := by
        rcases hlo with h | ⟨h, -⟩
        · exact h
        · simp [hkd] at h
      simp [hkd, hlo', hhi] at h
    | large =>
      have hlo' : d.addr ≤ a := by
        rcases hlo with h | ⟨-, h⟩
        · omega
        · exact h
      simp [hkd, hlo', hhi] at h
    | other => exact hk hkd
  cases hst : s.store a 0 f with
  | ok t => rw [store_zero hst]
  | error e =>
    rw [State.store] at hst
    split at hst
    · cases hst
    · cases hst
    · next h => exact absurd h hsome

theorem pmemcpyExtra_large (env : Env) (hc : Core s ps fs [] ls M B) (ha : a ∈ ls) :
    pmemcpyExtra env s (a+largeSize) src n = (do
      let (t, r) ← pmemcpyBytes env s (a+largeSize) (usub 32 (largeBytes (s.larges a)) largeSize)
        (largeUsed (s.larges a)) src n
      .ok (if r > 0 then
          t.setLarge a (store32 (t.larges a) 8 (largeUsed (t.larges a)+r.toNat))
        else t, some (a+largeSize))) := by
  rw [pmemcpyExtra]
  dsimp only
  rw [usub_largeSize hc ha, checkLarge_large hc ha, ok_bind, if_pos rfl]

/-- A copy into a small block. -/
theorem memcpy_small_safe (env : Env) (hc : Core s ps fs [] ls M B) (hb : b ∈ s.base :: ps)
    (ho : o ∈ B b) (hM : b ∈ M)
    (hu : (s.pools b).rd o .used+realdataSize ≤ (s.pools b).rd o .size) (src n : ℕ) :
    Safe env s (payload b o) (.memcpy src n) := by
  have hlt : (s.pools b).rd o .size < 65536 := rd_lt
  have hview : view s (payload b o) = some (smallView s b o) := view_small hc hb ho
  have hfit : (smallView s b o).used+(smallView s b o).header ≤ (smallView s b o).size := hu
  have hsz : (smallView s b o).size < 2^32 := Nat.lt_trans hlt (by decide)
  have hreal := checkRealdata_small hc hb ho
  rw [if_pos hM] at hreal
  have hrun : pmemcpyExtra env s (payload b o) src n = pmemcpySmall env s (payload b o) src n b o :=
    pmemcpyExtra_small env (checkLarge_small hc hb ho) hreal
  by_cases hcp : Copies (smallView s b o) (payload b o) src n
  · have hle : (s.pools b).rd o .used+realdataSize+n ≤ (s.pools b).rd o .size :=
      (copies_apart hfit hsz hcp).1
    rcases Nat.eq_zero_or_pos n with rfl | hn
    · obtain ⟨-, hend, -, -⟩ := block_bounds hc hb ho
      obtain ⟨hlive, -, -, h208⟩ := pool_range hc hb
      have hstore : s.store (payload b o+(s.pools b).rd o .used) 0
          (fun i => s.load env (src+i)) = .ok s := by
        apply store_none hlive (by simp [poolChunk])
        · left
          simp only [poolChunk, payload]
          omega
        · simp only [poolChunk, payload, mempoolSize, realdataSize] at *
          omega
      have hbytes : pmemcpyBytes env s (payload b o) (usub 32 ((s.pools b).rd o .size) realdataSize)
          ((s.pools b).rd o .used) src 0 = .ok (s, toInt32 0) :=
        pmemcpyBytes_done (v := smallView s b o) env hcp hstore
      refine ⟨s, _, _, ?_, hview, hview, ?_⟩
      · rw [Append.run, hrun, pmemcpySmall, hbytes]
        rfl
      · exact memcpy_appended hc.apart hsz hstore hle (Untouched.refl s)
          (fun y hy => absurd rfl hy)
    · obtain ⟨t, hstore, hct, hbt, h1, h2⟩ := fill_small (f := fun i => s.load env (src+i)) hc hb ho
        hn hle
      have hbytes : pmemcpyBytes env s (payload b o) (usub 32 ((s.pools b).rd o .size) realdataSize)
          ((s.pools b).rd o .used) src n = .ok (t, toInt32 n) :=
        pmemcpyBytes_done (v := smallView s b o) env hcp hstore
      rw [toInt32_of_lt (by omega)] at hbytes
      obtain ⟨hv, hunt, hmark⟩ := mark_small_view (m := (t.pools b).rd o .used+n) env hct hbt ho
        (by omega)
      have hv' : (⟨false, (t.pools b).rd o .used+n, (t.pools b).rd o .size⟩ : View) =
          { smallView s b o with used := (smallView s b o).used+n } := by
        rw [h1, h2]
        rfl
      refine ⟨_, _, _, ?_, hview, hv' ▸ hv, ?_⟩
      · rw [Append.run, hrun, pmemcpySmall, hbytes, ok_bind]
        dsimp only
        rw [if_pos (by omega), Int.toNat_natCast]
        rfl
      · exact memcpy_appended hc.apart hsz hstore hle hunt hmark
  · obtain ⟨r, hr, hbytes⟩ := pmemcpyBytes_refused (s := s) env hcp
    have hbytes' : pmemcpyBytes env s (payload b o) (usub 32 ((s.pools b).rd o .size) realdataSize)
        ((s.pools b).rd o .used) src n = .ok (s, r) := hbytes
    refine ⟨s, _, _, ?_, hview, hview, appended_refl hfit hsz _⟩
    rw [Append.run, hrun, pmemcpySmall, hbytes', ok_bind]
    dsimp only
    rw [if_neg (by omega)]
    rfl

/-- A copy of 2^31 bytes or more: the bytes arrive, the mark stays where it was. -/
theorem memcpy_stuck (env : Env) (hc : Core s ps fs [] ls M B) (ha : a ∈ ls)
    (hu : largeUsed (s.larges a)+largeSize ≤ largeBytes (s.larges a))
    (hcp : Copies (largeView s a) (a+largeSize) src n) (h31 : 2^31 ≤ n) :
    ∃ t, (Append.memcpy src n).run env s (a+largeSize) = .ok t ∧
      view t (a+largeSize) = some (largeView s a) ∧ Untouched s t ∧
      ∀ y, t.load env y = if a+largeSize+largeUsed (s.larges a) ≤ y ∧
          y < a+largeSize+largeUsed (s.larges a)+n then
        s.load env (src+(y-(a+largeSize+largeUsed (s.larges a)))) else s.load env y := by
  have hsz : largeBytes (s.larges a) < 2^32 := load32_lt _ _
  have hle : largeUsed (s.larges a)+largeSize+n ≤ largeBytes (s.larges a) :=
    (copies_apart (v := largeView s a) hu hsz hcp).1
  obtain ⟨t, hstore, hct, h1, h2⟩ := fill_large (f := fun i => s.load env (src+i)) hc ha
    (by omega) hle
  have hbytes : pmemcpyBytes env s (a+largeSize) (usub 32 (largeBytes (s.larges a)) largeSize)
      (largeUsed (s.larges a)) src n = .ok (t, toInt32 n) :=
    pmemcpyBytes_done (v := largeView s a) env hcp hstore
  have hneg : ¬toInt32 n > 0 := by
    rw [toInt32, if_neg (by omega)]
    omega
  refine ⟨t, ?_, ?_, untouched_store hstore, fun y => load_store hc.apart hstore y⟩
  · rw [Append.run, pmemcpyExtra_large env hc ha, hbytes, ok_bind]
    dsimp only
    rw [if_neg hneg]
    rfl
  · rw [view_large hct ha, largeView, h1, h2, largeView]

/-- A copy into a large block. -/
theorem memcpy_large_safe (env : Env) (hc : Core s ps fs [] ls M B) (ha : a ∈ ls)
    (hu : largeUsed (s.larges a)+largeSize ≤ largeBytes (s.larges a)) (src n : ℕ)
    (hsame : Copies (largeView s a) (a+largeSize) src n → 2^31 ≤ n → ∀ i < n,
      s.load env (src+i) = s.load env (a+largeSize+largeUsed (s.larges a)+i)) :
    Safe env s (a+largeSize) (.memcpy src n) := by
  have hview : view s (a+largeSize) = some (largeView s a) := view_large hc ha
  have hfit : (largeView s a).used+(largeView s a).header ≤ (largeView s a).size := hu
  have hsz : (largeView s a).size < 2^32 := load32_lt _ _
  have hsz' : largeBytes (s.larges a) < 2^32 := load32_lt _ _
  have hrun := @pmemcpyExtra_large s ps fs ls M B a src n env hc ha
  by_cases hcp : Copies (largeView s a) (a+largeSize) src n
  · have hle : largeUsed (s.larges a)+largeSize+n ≤ largeBytes (s.larges a) :=
      (copies_apart hfit hsz hcp).1
    rcases Nat.eq_zero_or_pos n with rfl | hn
    · have hstore : s.store (a+largeSize+largeUsed (s.larges a)) 0
          (fun i => s.load env (src+i)) = .ok s := by
        apply store_none (hc.large_live ha) (by simp [largeChunk])
        · right
          refine ⟨rfl, ?_⟩
          simp only [largeChunk]
          omega
        · simp only [largeChunk]
          omega
      have hbytes : pmemcpyBytes env s (a+largeSize) (usub 32 (largeBytes (s.larges a)) largeSize)
          (largeUsed (s.larges a)) src 0 = .ok (s, toInt32 0) :=
        pmemcpyBytes_done (v := largeView s a) env hcp hstore
      refine ⟨s, _, _, ?_, hview, hview, ?_⟩
      · rw [Append.run, hrun, hbytes]
        rfl
      · exact memcpy_appended hc.apart hsz hstore hle (Untouched.refl s)
          (fun y hy => absurd rfl hy)
    · obtain ⟨t, hstore, hct, h1, h2⟩ := fill_large (f := fun i => s.load env (src+i)) hc ha hn hle
      have hbytes : pmemcpyBytes env s (a+largeSize) (usub 32 (largeBytes (s.larges a)) largeSize)
          (largeUsed (s.larges a)) src n = .ok (t, toInt32 n) :=
        pmemcpyBytes_done (v := largeView s a) env hcp hstore
      by_cases h31 : n < 2^31
      · rw [toInt32_of_lt h31] at hbytes
        rw [largeSize] at hle
        obtain ⟨hv, hunt, hmark⟩ := mark_large_view (m := largeUsed (t.larges a)+n) env hct ha
          (by omega) (Or.inr (by rw [h1, h2, largeSize]; omega))
        have hv' : (⟨true, largeUsed (t.larges a)+n, largeBytes (t.larges a)⟩ : View) =
            { largeView s a with used := (largeView s a).used+n } := by
          rw [h1, h2]
          rfl
        refine ⟨_, _, _, ?_, hview, hv' ▸ hv, ?_⟩
        · rw [Append.run, hrun, hbytes, ok_bind]
          dsimp only
          rw [if_pos (by omega), Int.toNat_natCast]
          rfl
        · exact memcpy_appended hc.apart hsz hstore hle hunt hmark
      · -- the mark stays behind, which does not show when the bytes were there before
        obtain ⟨t, hrun', hv, hunt, hload⟩ := memcpy_stuck env hc ha hu hcp (Nat.le_of_not_lt h31)
        have hkept : ∀ y, t.load env y = s.load env y := by
          intro y
          rw [hload]
          split
          · next hin =>
            rw [hsame hcp (Nat.le_of_not_lt h31) _ (by omega)]
            congr 1
            omega
          · rfl
        exact ⟨t, _, _, hrun', hview, hv,
          { untouched := hunt
            large := rfl
            size := rfl
            fits := hfit
            bytes := fun y hy => absurd (hkept y) hy
            copied := fun _ _ _ => Or.inr ⟨rfl, hkept⟩
            apart := fun _ _ _ h => (copies_apart hfit hsz h).2 }⟩
  · obtain ⟨r, hr, hbytes⟩ := pmemcpyBytes_refused (s := s) env hcp
    have hbytes' : pmemcpyBytes env s (a+largeSize) (usub 32 (largeBytes (s.larges a)) largeSize)
        (largeUsed (s.larges a)) src n = .ok (s, r) := hbytes
    refine ⟨s, _, _, ?_, hview, hview, appended_refl hfit hsz _⟩
    rw [Append.run, hrun, hbytes', ok_bind]
    dsimp only
    rw [if_neg (by omega)]
    rfl

theorem sprintf_small_safe (env : Env) (hc : Core s ps fs [] ls M B) (hb : b ∈ s.base :: ps)
    (ho : o ∈ B b) (hM : b ∈ M)
    (hu : (s.pools b).rd o .used+realdataSize ≤ (s.pools b).rd o .size) (text : List UInt8) :
    Safe env s (payload b o) (.sprintf text) := by
  have hlt : (s.pools b).rd o .size < 65536 := rd_lt
  have hview : view s (payload b o) = some (smallView s b o) := view_small hc hb ho
  have hfit : (smallView s b o).used+(smallView s b o).header ≤ (smallView s b o).size := hu
  have hsz : (smallView s b o).size < 2^32 := Nat.lt_trans hlt (by decide)
  have hreal := checkRealdata_small hc hb ho
  rw [if_pos hM] at hreal
  have hrun : psprintfExtra s (payload b o) text = psprintfSmall s (payload b o) text b o :=
    psprintfExtra_small (payload_pos hc hb) (checkLarge_small hc hb ho) hreal
  have hleft : toInt32 (usub 32 (usub 32 ((s.pools b).rd o .size) realdataSize)
      ((s.pools b).rd o .used)) =
      ((s.pools b).rd o .size-realdataSize-(s.pools b).rd o .used : ℕ) := by
    rw [usub_of_le (show realdataSize ≤ (s.pools b).rd o .size by omega) (by omega),
      usub_of_le (by omega) (by omega), toInt32_of_lt (by omega)]
  rw [psprintfSmall] at hrun
  dsimp only at hrun
  rw [hleft] at hrun
  generalize hn : (s.pools b).rd o .size-realdataSize-(s.pools b).rd o .used = n at *
  rcases Nat.eq_zero_or_pos n with rfl | hpos
  · rw [if_neg (by decide)] at hrun
    refine ⟨s, _, _, ?_, hview, hview, appended_refl hfit hsz _⟩
    rw [Append.run, hrun]
    rfl
  · rw [if_pos (by omega), Int.toNat_natCast, vsnprintf] at hrun
    obtain ⟨t, hstore, hct, hbt, h1, h2⟩ := fill_small (k := min (text.length+1) n)
      (f := fun i => if i+1 < n then text.getD i 0 else 0) hc hb ho (by omega) (by omega)
    rw [hstore, ok_bind] at hrun
    by_cases hlen : text.length > 0
    · rw [if_pos hlen] at hrun
      obtain ⟨hv, hunt, hmark⟩ := mark_small_view
        (m := (t.pools b).rd o .used+min text.length n) env hct hbt ho (by omega)
      have hv' : (⟨false, (t.pools b).rd o .used+min text.length n, (t.pools b).rd o .size⟩ : View) =
          { smallView s b o with used := (smallView s b o).used+min text.length n } := by
        rw [h1, h2]
        rfl
      refine ⟨_, _, _, ?_, hview, hv' ▸ hv, ?_⟩
      · rw [Append.run, hrun]
        rfl
      · apply sprintf_appended hc.apart hstore _ _ hunt hmark
        · show (s.pools b).rd o .used+realdataSize+min (text.length+1) n ≤ (s.pools b).rd o .size
          omega
        · show (s.pools b).rd o .used+realdataSize+min text.length n ≤ (s.pools b).rd o .size
          omega
    · rw [if_neg hlen] at hrun
      have hv' : smallView t b o = { smallView s b o with used := (smallView s b o).used+0 } := by
        rw [smallView, h1, h2, smallView]
        rfl
      refine ⟨t, _, _, ?_, hview, hv' ▸ view_small hct hbt ho, ?_⟩
      · rw [Append.run, hrun]
        rfl
      · apply sprintf_appended hc.apart hstore _ _ (Untouched.refl t) (fun y hy => absurd rfl hy)
        · show (s.pools b).rd o .used+realdataSize+min (text.length+1) n ≤ (s.pools b).rd o .size
          omega
        · exact hfit

theorem sprintf_large_safe (env : Env) (hc : Core s ps fs [] ls M B) (ha : a ∈ ls)
    (hu : largeUsed (s.larges a)+largeSize ≤ largeBytes (s.larges a)) (text : List UInt8) :
    Safe env s (a+largeSize) (.sprintf text) := by
  have hview : view s (a+largeSize) = some (largeView s a) := view_large hc ha
  have hfit : (largeView s a).used+(largeView s a).header ≤ (largeView s a).size := hu
  have hsz : (largeView s a).size < 2^32 := load32_lt _ _
  have hlt : largeBytes (s.larges a) < 2^32 := load32_lt _ _
  have hrun : psprintfExtra s (a+largeSize) text = psprintfExtra s (a+largeSize) text := rfl
  conv at hrun => rhs; rw [psprintfExtra, if_neg (by rw [largeSize]; omega)]
  dsimp only at hrun
  rw [usub_largeSize hc ha, checkLarge_large hc ha, ok_bind, if_pos rfl,
    usub_of_le (show largeSize ≤ largeBytes (s.larges a) by omega) hlt,
    usub_of_le (by omega) (by omega)] at hrun
  generalize hn : largeBytes (s.larges a)-largeSize-largeUsed (s.larges a) = n at *
  by_cases hpos : toInt32 n > 0
  · have htn := toInt32_pos hpos
    rw [Nat.mod_eq_of_lt (by omega)] at htn
    rw [if_pos hpos, htn, vsnprintf] at hrun
    obtain ⟨t, hstore, hct, h1, h2⟩ := fill_large (k := min (text.length+1) n)
      (f := fun i => if i+1 < n then text.getD i 0 else 0) hc ha (by omega) (by omega)
    rw [hstore, ok_bind] at hrun
    by_cases hlen : text.length > 0
    · rw [if_pos hlen] at hrun
      obtain ⟨hv, hunt, hmark⟩ := mark_large_view
        (m := largeUsed (t.larges a)+min text.length n) env hct ha
        (by rw [largeSize] at *; omega) (Or.inr (by omega))
      have hv' : (⟨true, largeUsed (t.larges a)+min text.length n, largeBytes (t.larges a)⟩ : View) =
          { largeView s a with used := (largeView s a).used+min text.length n } := by
        rw [h1, h2]
        rfl
      refine ⟨_, _, _, ?_, hview, hv' ▸ hv, ?_⟩
      · rw [Append.run, hrun]
        rfl
      · apply sprintf_appended hc.apart hstore _ _ hunt hmark
        · show largeUsed (s.larges a)+largeSize+min (text.length+1) n ≤ largeBytes (s.larges a)
          omega
        · show largeUsed (s.larges a)+largeSize+min text.length n ≤ largeBytes (s.larges a)
          omega
    · rw [if_neg hlen] at hrun
      have hv' : largeView t a = { largeView s a with used := (largeView s a).used+0 } := by
        rw [largeView, h1, h2, largeView]
        rfl
      refine ⟨t, _, _, ?_, hview, hv' ▸ view_large hct ha, ?_⟩
      · rw [Append.run, hrun]
        rfl
      · apply sprintf_appended hc.apart hstore _ _ (Untouched.refl t) (fun y hy => absurd rfl hy)
        · show largeUsed (s.larges a)+largeSize+min (text.length+1) n ≤ largeBytes (s.larges a)
          omega
        · exact hfit
  · rw [if_neg hpos] at hrun
    refine ⟨s, _, _, ?_, hview, hview, appended_refl hfit hsz _⟩
    rw [Append.run, hrun]
    rfl

theorem zero_small_safe (env : Env) (hc : Core s ps fs [] ls M B) (hb : b ∈ s.base :: ps)
    (ho : o ∈ B b) (hM : b ∈ M)
    (hu : (s.pools b).rd o .used+realdataSize ≤ (s.pools b).rd o .size) :
    Safe env s (payload b o) .zero := by
  obtain ⟨hv, hunt, hmark⟩ := mark_small_view (m := 0) env hc hb ho (by decide)
  refine ⟨_, smallView s b o, _, ?_, view_small hc hb ho, hv, ?_⟩
  · rw [Append.run, pzeroExtra]
    simp only [checkLarge_small hc hb ho, checkRealdata_small hc hb ho, ok_bind, if_pos hM,
      Bool.false_eq_true, if_false]
  · exact zero_appended (v := smallView s b o) (Nat.le_trans (Nat.le_add_left _ _) hu) hunt hmark

theorem zero_large_safe (env : Env) (hc : Core s ps fs [] ls M B) (ha : a ∈ ls)
    (hu : largeUsed (s.larges a)+largeSize ≤ largeBytes (s.larges a)) :
    Safe env s (a+largeSize) .zero := by
  obtain ⟨hv, hunt, hmark⟩ := mark_large_view (m := 0) env hc ha (by decide) (Or.inl rfl)
  refine ⟨_, largeView s a, _, ?_, view_large hc ha, hv, ?_⟩
  · rw [Append.run, pzeroExtra]
    simp only [usub_largeSize hc ha, checkLarge_large hc ha, ok_bind, if_true]
  · exact zero_appended (v := largeView s a) (Nat.le_trans (Nat.le_add_left _ _) hu) hunt hmark

theorem unregistered_safe (env : Env) (hc : Core s ps fs [] ls M B) (hb : b ∈ s.base :: ps)
    (ho : o ∈ B b) (hM : b ∉ M)
    (hu : (s.pools b).rd o .used+realdataSize ≤ (s.pools b).rd o .size) (c : Append) :
    Safe env s (payload b o) c := by
  have hlt : (s.pools b).rd o .size < 65536 := rd_lt
  have hlarge := checkLarge_small hc hb ho
  have hreal := checkRealdata_small hc hb ho
  rw [if_neg hM] at hreal
  refine ⟨s, smallView s b o, _, ?_, view_small hc hb ho, view_small hc hb ho,
    appended_refl hu (Nat.lt_trans hlt (by decide)) c⟩
  cases c with
  | memcpy src n =>
    rw [Append.run, pmemcpyExtra_none env hlarge hreal]
    rfl
  | sprintf text =>
    rw [Append.run, psprintfExtra_none (payload_pos hc hb) hlarge hreal]
    rfl
  | zero =>
    rw [Append.run, pzeroExtra]
    simp only [hlarge, hreal, ok_bind, Bool.false_eq_true, if_false]

end Calls

section Appends

def filled (b : UInt8) : Env := upwards fun _ => ⟨fun _ => b, 0, 0⟩

variable {env : Env} {s₀ s : State} {live ps fs ls M : List ℕ} {B : ℕ → List ℕ} {v : View}
  {a x src n i : ℕ} {c : Append}

/-- The chunk has room for its header, and 2^31 bytes or more are copied into a
large block only where they already stand. -/
def Sound (env : Env) (s : State) (x : ℕ) (c : Append) : Prop :=
  ∀ v, view s x = some v → v.header ≤ v.size ∧ ∀ src n, c = .memcpy src n → v.large = true →
    Copies v x src n → 2^31 ≤ n → ∀ i < n, s.load env (src+i) = s.load env (x+v.used+i)

theorem safe_header (h : Safe env s x c) (hv : view s x = some v) : v.header ≤ v.size := by
  obtain ⟨s', w, w', -, hw, -, happ⟩ := h
  rw [hv, Option.some_inj] at hw
  subst hw
  have hfits := happ.fits
  rw [happ.size, View.header, happ.large, ← View.header] at hfits
  omega

theorem safe_stuck (hc : Core s ps fs [] ls M B) (ha : a ∈ ls)
    (hu : largeUsed (s.larges a)+largeSize ≤ largeBytes (s.larges a))
    (hcp : Copies (largeView s a) (a+largeSize) src n) (h31 : 2^31 ≤ n)
    (h : Safe env s (a+largeSize) (.memcpy src n)) (hi : i < n) :
    s.load env (src+i) = s.load env (a+largeSize+largeUsed (s.larges a)+i) := by
  obtain ⟨t, hrun, hv, -, hload⟩ := memcpy_stuck env hc ha hu hcp h31
  obtain ⟨s', w, w', hrun', hw, hw', happ⟩ := h
  rw [hrun, Except.ok.injEq] at hrun'
  subst hrun'
  rw [view_large hc ha, Option.some_inj] at hw
  rw [hv, Option.some_inj] at hw'
  subst hw hw'
  rcases happ.copied src n rfl with ⟨hused, -⟩ | ⟨-, hsame⟩
  · omega
  · have h1 := hload (a+largeSize+largeUsed (s.larges a)+i)
    rw [if_pos (by omega), Nat.add_sub_cancel_left] at h1
    rw [← h1, hsame]

theorem used_fits (hI : Inv s₀ s live ps fs ls M B) (ha : a ∈ ls)
    (h : largeSize ≤ largeBytes (s.larges a)) :
    largeUsed (s.larges a)+largeSize ≤ largeBytes (s.larges a) := by
  rcases (hI.large a ha).2 with h0 | h0
  · rw [h0, Nat.zero_add]
    exact h
  · exact h0

/-- An append call on a live block stays in the block and its mark follows the
bytes, except in two cases. -/
theorem append_safe_iff (hs : Start env s₀) (hr : Roomy s₀) (h : Reach env s₀ s live)
    (hx : x ∈ live) (c : Append) : Safe env s x c ↔ Sound env s x c := by
  obtain ⟨ps, fs, ls, M, B, hI⟩ := reach_inv hs hr h
  have hc := hI.core
  rcases hI.held x hx with ⟨b, hb, o, ho, rfl⟩ | ⟨a, ha, rfl⟩
  · have hu := hI.marks b hb o ho
    constructor
    · intro _ v hv
      rw [view_small hc hb ho, Option.some_inj] at hv
      subst hv
      exact ⟨Nat.le_trans (Nat.le_add_left _ _) hu, fun _ _ _ hl => by cases hl⟩
    · intro _
      by_cases hM : b ∈ M
      · cases c with
        | memcpy src n => exact memcpy_small_safe env hc hb ho hM hu src n
        | sprintf text => exact sprintf_small_safe env hc hb ho hM hu text
        | zero => exact zero_small_safe env hc hb ho hM hu
      · exact unregistered_safe env hc hb ho hM hu c
  · constructor
    · intro hsafe v hv
      have hroom := safe_header hsafe hv
      rw [view_large hc ha, Option.some_inj] at hv
      subst hv
      refine ⟨hroom, fun src n he _ hcp h31 i hi => ?_⟩
      subst he
      exact safe_stuck hc ha (used_fits hI ha hroom) hcp h31 hsafe hi
    · intro hsound
      obtain ⟨hroom, hsame⟩ := hsound _ (view_large hc ha)
      have hu := used_fits hI ha hroom
      cases c with
      | memcpy src n =>
        exact memcpy_large_safe env hc ha hu src n fun hcp h31 => hsame src n rfl rfl hcp h31
      | sprintf text => exact sprintf_large_safe env hc ha hu text
      | zero => exact zero_large_safe env hc ha hu

/-- A block of 100 bytes takes ten bytes of text. -/
theorem append_safe_text : ∃ s₀ s x, opened (filled 0) 4096 8192 4096 0 = .ok s₀ ∧
    palloc (filled 0) 3 s₀ 100 = .ok (s, some x) ∧
    Safe (filled 0) s x (.sprintf (List.replicate 10 65)) := by
  have hrun : (do
      let s₀ ← opened (filled 0) 4096 8192 4096 0
      let r ← palloc (filled 0) 3 s₀ 100
      .ok (r.2, r.2.bind (view r.1))) =
      (.ok (some 223, some ⟨false, 0, 115⟩) : Run (Option ℕ × Option View)) := by
    decide +kernel
  obtain ⟨s₀, h₀, hrun⟩ := bind_ok_iff.mp hrun
  obtain ⟨⟨s, r⟩, h₁, hrun⟩ := bind_ok_iff.mp hrun
  simp only [Except.ok.injEq, Prod.mk.injEq] at hrun
  obtain ⟨rfl, hview⟩ := hrun
  obtain ⟨hs, hsize⟩ := opened_start h₀
  have hroomy : Roomy s₀ := by
    rw [Roomy, hsize]
    decide
  have hreach := Reach.step .start (Step.palloc 3 100 (some 223) (by decide) h₁)
  refine ⟨s₀, s, 223, h₀, h₁, (append_safe_iff hs hroomy hreach (by simp) _).mpr ?_⟩
  intro v hv
  rw [Option.bind_some, hv, Option.some_inj] at hview
  subst hview
  exact ⟨by decide, fun _ _ he => by cases he⟩

/-- 2^31 bytes copied into a block of that size do not move its mark. -/
theorem append_loses :
    ¬∀ (env : Env) (s₀ s : State) (live : List ℕ) (x : ℕ) (c : Append), Start env s₀ → Roomy s₀ →
      Reach env s₀ s live → x ∈ live → Safe env s x c := by
  intro hall
  have hrun : (do
      let s₀ ← opened (filled 1) 4096 8589934592 4294967295 0
      let r ← palloc (filled 1) 3 s₀ 2147483648
      .ok (r.2, r.2.bind (view r.1), r.1.load (filled 1) 4124,
        r.1.load (filled 1) 1099511627776)) =
      (.ok (some 4124, some ⟨true, 0, 2147483664⟩, 1, 0) :
        Run (Option ℕ × Option View × UInt8 × UInt8)) := by
    decide +kernel
  obtain ⟨s₀, h₀, hrun⟩ := bind_ok_iff.mp hrun
  obtain ⟨⟨s, r⟩, h₁, hrun⟩ := bind_ok_iff.mp hrun
  simp only [Except.ok.injEq, Prod.mk.injEq] at hrun
  obtain ⟨rfl, hview, hhere, hthere⟩ := hrun
  obtain ⟨hs, hsize⟩ := opened_start h₀
  have hroomy : Roomy s₀ := by
    rw [Roomy, hsize]
    decide
  have hreach := Reach.step .start (Step.palloc 3 2147483648 (some 4124) (by decide) h₁)
  have hsafe := hall _ s₀ s _ 4124 (.memcpy 1099511627776 2147483648) hs hroomy hreach (by simp)
  obtain ⟨ps, fs, ls, M, B, hI⟩ := reach_inv hs hroomy hreach
  rw [Option.bind_some] at hview
  rcases hI.held 4124 (by simp) with ⟨b, hb, o, ho, hx⟩ | ⟨a, ha, hx⟩
  · rw [hx, view_small hI.core hb ho, Option.some_inj, smallView] at hview
    cases hview
  · have hcp : Copies ⟨true, 0, 2147483664⟩ 4124 1099511627776 2147483648 := by
      simp only [Copies, View.header, largeSize]
      decide
    rw [hx] at hview hcp hsafe
    rw [view_large hI.core ha, Option.some_inj] at hview
    rw [← hview] at hcp
    obtain ⟨hused, hbytes⟩ : largeUsed (s.larges a) = 0 ∧ largeBytes (s.larges a) = 2147483664 := by
      simpa [largeView] using hview
    have hsame := safe_stuck hI.core ha (by rw [hused, hbytes]; decide) hcp (Nat.le_refl _) hsafe
      (i := 0) (by decide)
    rw [hused, Nat.add_zero, Nat.add_zero, ← hx, hhere, hthere] at hsame
    exact absurd hsame (by decide)

end Appends

end CLearning.MempoolAppend
