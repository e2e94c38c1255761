import CLearning.DictGrowth
import Mathlib.Data.Nat.Pairing

/-!
# Iterating over a dict

Here the entries of a dict are nodes with pointers, and a node that is freed is
gone: to follow a pointer to it is a fault. The caller of `dictNext` deletes the
entry it was given or keeps it. Every dict of `DictTable` has such a heap.
-/

set_option autoImplicit false

namespace CLearning.DictIterate
open CLearning.Machine CLearning.DictTable CLearning.DictMap

section Source

variable {K V : Type}

structure Node (K V : Type) where
  entry : DictEntry K V
  next : Option ℕ

/-- `dict` with the nodes that are not freed. -/
structure Heap (K V : Type) where
  type : DictType K V
  size : ℕ
  sizemask : ℕ
  used : ℕ
  table : ℕ → Option ℕ
  node : ℕ → Option (Node K V)

/-- `dictIterator`. -/
structure Iterator where
  index : ℤ
  entry : Option ℕ
  nextEntry : Option ℕ

def load (p : Heap K V) (a : ℕ) : Run (Node K V) :=
  match p.node a with
  | some n => .ok n
  | none => .error .wildAccess

def setNext (p : Heap K V) (a : ℕ) (v : Option ℕ) : Run (Heap K V) := do
  let n ← load p a
  .ok { p with node := Function.update p.node a (some { n with next := v }) }

def setHead (p : Heap K V) (idx : ℕ) (v : Option ℕ) : Heap K V :=
  { p with table := Function.update p.table idx v }

def zfree (p : Heap K V) (a : ℕ) : Heap K V :=
  { p with node := Function.update p.node a none }

variable [DecidableEq K]

def deleteLoop (p : Heap K V) (key : K) (idx : ℕ) (nofree : Bool) :
    ℕ → Option ℕ → Option ℕ → Run (Heap K V × ℕ × List (DictEntry K V))
  | 0, _, _ => .error .outOfFuel
  | fuel+1, prevHe, he =>
    match he with
    | none => .ok (p, dictErr, [])
    | some a => do
      let n ← load p a
      if p.type.compareKeys key n.entry.key then do
        let p ← match prevHe with
          | some b => setNext p b n.next
          | none => .ok (setHead p idx n.next)
        .ok ({ zfree p a with used := p.used-1 }, dictOk, if nofree then [] else [n.entry])
      else deleteLoop p key idx nofree fuel he n.next

def dictGenericDelete (fuel : ℕ) (p : Heap K V) (key : K) (nofree : Bool) :
    Run (Heap K V × ℕ × List (DictEntry K V)) :=
  if p.size = 0 then .ok (p, dictErr, [])
  else
    let idx := p.type.hashKey key &&& p.sizemask
    deleteLoop p key idx nofree fuel none (p.table idx)

def dictGetIterator : Iterator := ⟨-1, none, none⟩

/-- `dictNext`. A table has fewer buckets than `long` has numbers. -/
def dictNext (p : Heap K V) : ℕ → Iterator → Run (Iterator × Option ℕ)
  | 0, _ => .error .outOfFuel
  | fuel+1, iter =>
    if iter.entry = none ∧ iter.index+1 ≥ p.size then
      .ok ({ iter with index := iter.index+1 }, none)
    else
      let iter := if iter.entry = none then
          { iter with index := iter.index+1, entry := p.table (iter.index+1).toNat }
        else { iter with entry := iter.nextEntry }
      match iter.entry with
      | some a => do
        let n ← load p a
        .ok ({ iter with nextEntry := n.next }, some a)
      | none => dictNext p fuel iter

/-- The loop of a caller. In turn `k` the entry is kept (`none`) or deleted, with or
without the destructors. It yields the entries `dictNext` returned. -/
def iterateLoop (inner : ℕ) (choice : ℕ → Option Bool) :
    ℕ → ℕ → Heap K V → Iterator → Run (Heap K V × List ℕ)
  | 0, _, _, _ => .error .outOfFuel
  | fuel+1, k, p, iter => do
    let r ← dictNext p inner iter
    match r.2 with
    | none => .ok (p, [])
    | some a => do
      let p ← match choice k with
        | none => .ok p
        | some nofree => do
          let n ← load p a
          let q ← dictGenericDelete inner p n.entry.key nofree
          .ok q.1
      let q ← iterateLoop inner choice fuel (k+1) p r.1
      .ok (q.1, a :: q.2)

def iterate (fuel : ℕ) (choice : ℕ → Option Bool) (p : Heap K V) : Run (Heap K V × List ℕ) :=
  iterateLoop fuel choice fuel 0 p dictGetIterator

end Source

section Chains

variable {K V : Type} {node node' : ℕ → Option (Node K V)} {h : Option ℕ} {a b : ℕ}
  {e f : DictEntry K V} {l m : List (ℕ × DictEntry K V)}

/-- The nodes from a pointer on, with their entries. -/
def Chain (node : ℕ → Option (Node K V)) : Option ℕ → List (ℕ × DictEntry K V) → Prop
  | h, [] => h = none
  | h, (a, e) :: l => h = some a ∧ ∃ nx, node a = some ⟨e, nx⟩ ∧ Chain node nx l

def firstAddr (l : List (ℕ × DictEntry K V)) : Option ℕ := l.head?.map Prod.fst

theorem Chain.head_eq (hc : Chain node h l) : h = firstAddr l := by
  cases l with
  | nil => exact hc
  | cons x l => exact hc.1

theorem Chain.congr (hc : Chain node h l) (hsame : ∀ x ∈ l, node' x.1 = node x.1) :
    Chain node' h l := by
  induction l generalizing h with
  | nil => exact hc
  | cons x l ih =>
    obtain ⟨rfl, nx, hx, hrest⟩ := hc
    exact ⟨rfl, nx, (hsame x List.mem_cons_self).trans hx,
      ih hrest fun y hy => hsame y (List.mem_cons_of_mem _ hy)⟩

theorem Chain.mem (hc : Chain node h l) (hx : (a, e) ∈ l) : ∃ nx, node a = some ⟨e, nx⟩ := by
  induction l generalizing h with
  | nil => cases hx
  | cons x l ih =>
    obtain ⟨-, nx, hnode, hrest⟩ := hc
    rcases List.mem_cons.mp hx with rfl | hx
    · exact ⟨nx, hnode⟩
    · exact ih hrest hx

theorem Chain.middle (hc : Chain node h (l ++ (a, e) :: m)) : node a = some ⟨e, firstAddr m⟩ := by
  induction l generalizing h with
  | nil =>
    obtain ⟨-, nx, hnode, hrest⟩ := hc
    rw [hnode, hrest.head_eq]
  | cons x l ih =>
    obtain ⟨-, nx, -, hrest⟩ := hc
    exact ih hrest

/-- A chain without one of its nodes. -/
theorem Chain.unlink (hc : Chain node h (l ++ (b, f) :: (a, e) :: m))
    (hnd : ((l ++ (b, f) :: (a, e) :: m).map Prod.fst).Nodup)
    (hb : node' b = some ⟨f, firstAddr m⟩)
    (hother : ∀ c, c ≠ a → c ≠ b → node' c = node c) : Chain node' h (l ++ (b, f) :: m) := by
  induction l generalizing h with
  | nil =>
    obtain ⟨rfl, nx, -, -, ny, -, hrest⟩ := hc
    refine ⟨rfl, firstAddr m, hb, ?_⟩
    rw [← hrest.head_eq]
    simp only [List.nil_append, List.map_cons, List.nodup_cons, List.mem_cons, not_or] at hnd
    obtain ⟨⟨-, hbm⟩, ham, -⟩ := hnd
    apply hrest.congr
    intro x hx
    apply hother
    · intro hxa
      apply ham
      rw [← hxa]
      exact List.mem_map_of_mem hx
    · intro hxb
      apply hbm
      rw [← hxb]
      exact List.mem_map_of_mem hx
  | cons x l ih =>
    obtain ⟨rfl, nx, hx, hrest⟩ := hc
    obtain ⟨hxm, hnd⟩ := List.nodup_cons.mp hnd
    refine ⟨rfl, nx, ?_, ih hrest hnd⟩
    rw [hother, hx]
    · intro hxa
      exact hxm (by simp [hxa])
    · intro hxb
      exact hxm (by simp [hxb])

end Chains

section States

variable {K V : Type} {p : Heap K V} {C : ℕ → List (ℕ × DictEntry K V)}
  {a b i j : ℕ} {e f : DictEntry K V} {l l₁ l₂ m : List (ℕ × DictEntry K V)} {key : K}

def entriesFrom (p : Heap K V) (C : ℕ → List (ℕ × DictEntry K V)) (i : ℕ) :
    List (ℕ × DictEntry K V) :=
  (List.range' i (p.size-i)).flatMap C

def entries (p : Heap K V) (C : ℕ → List (ℕ × DictEntry K V)) : List (ℕ × DictEntry K V) :=
  entriesFrom p C 0

theorem entriesFrom_end (h : p.size ≤ i) : entriesFrom p C i = [] := by
  rw [entriesFrom, Nat.sub_eq_zero_of_le h]
  rfl

theorem entriesFrom_succ (h : i < p.size) :
    entriesFrom p C i = C i ++ entriesFrom p C (i+1) := by
  rw [entriesFrom, entriesFrom, show p.size-i = (p.size-(i+1))+1 by omega, List.range'_succ,
    List.flatMap_cons]

theorem entriesFrom_congr {p' : Heap K V} {C' : ℕ → List (ℕ × DictEntry K V)}
    (hsize : p'.size = p.size) (h : ∀ j, i ≤ j → C' j = C j) :
    entriesFrom p' C' i = entriesFrom p C i := by
  rw [entriesFrom, entriesFrom, hsize]
  apply List.flatMap_congr
  intro j hj
  exact h j (List.mem_range'_1.mp hj).1

theorem load_ok {n : Node K V} (h : p.node a = some n) : load p a = .ok n := by
  rw [load, h]

variable [DecidableEq K]

/-- A dict on the heap: the chains, where the entries belong, and how many there are. -/
structure State (p : Heap K V) (C : ℕ → List (ℕ × DictEntry K V)) : Prop where
  shape : p.size = 0 ∨ (∃ j, p.size = 2^j) ∧ p.sizemask = p.size-1
  chains : ∀ i < p.size, Chain p.node (p.table i) (C i)
  home : ∀ i < p.size, ∀ x ∈ C i, p.type.hashKey x.2.key &&& p.sizemask = i
  distinct : ∀ i < p.size, Distinct p.type ((C i).map Prod.snd)
  used : p.used = ∑ i ∈ Finset.range p.size, (C i).length

theorem State.unique (h : State p C) (hi : i < p.size) (hj : j < p.size) (ha : (a, e) ∈ C i)
    (hb : (a, f) ∈ C j) : e = f ∧ i = j := by
  obtain ⟨nx, hn⟩ := (h.chains i hi).mem ha
  obtain ⟨nx', hn'⟩ := (h.chains j hj).mem hb
  rw [hn] at hn'
  cases hn'
  exact ⟨rfl, (h.home i hi _ ha).symm.trans (h.home j hj _ hb)⟩

theorem State.bucket_nodup (h : State p C) (ht : Lawful p.type) (hi : i < p.size) :
    ((C i).map Prod.fst).Nodup := by
  have hdis := h.distinct i hi
  rw [Distinct, List.pairwise_map] at hdis
  rw [List.Nodup, List.pairwise_map]
  apply (List.Pairwise.and_mem.mp hdis).imp
  rintro ⟨a, e⟩ ⟨b, f⟩ ⟨ha, hb, hef⟩ hab
  dsimp only at hab hef
  subst hab
  obtain ⟨rfl, -⟩ := h.unique hi hi ha hb
  rw [ht.refl] at hef
  cases hef

theorem State.entries_nodup (h : State p C) (ht : Lawful p.type) (i : ℕ) :
    ((entriesFrom p C i).map Prod.fst).Nodup := by
  induction hn : p.size-i generalizing i with
  | zero =>
    rw [entriesFrom_end (by omega)]
    exact List.nodup_nil
  | succ n ih =>
    have hi : i < p.size := by omega
    rw [entriesFrom_succ hi, List.map_append, List.nodup_append']
    refine ⟨h.bucket_nodup ht hi, ih (i+1) (by omega), fun a ha hb => ?_⟩
    obtain ⟨x, hx, rfl⟩ := List.mem_map.mp ha
    obtain ⟨y, hy, hxy⟩ := List.mem_map.mp hb
    obtain ⟨j, hj, hy⟩ := List.mem_flatMap.mp hy
    rw [List.mem_range'_1] at hj
    have hy' : (x.1, y.2) ∈ C j := by
      rw [← hxy]
      exact hy
    have := (h.unique hi (by omega) hx hy').2
    omega

def cut (C : ℕ → List (ℕ × DictEntry K V)) (i : ℕ) (l : List (ℕ × DictEntry K V)) :
    ℕ → List (ℕ × DictEntry K V) :=
  Function.update C i l

structure Deleted (p p' : Heap K V) (C : ℕ → List (ℕ × DictEntry K V)) (i : ℕ)
    (l : List (ℕ × DictEntry K V)) : Prop where
  type : p'.type = p.type
  size : p'.size = p.size
  mask : p'.sizemask = p.sizemask
  used : p'.used = p.used-1
  chain : Chain p'.node (p'.table i) l
  table : ∀ j, j ≠ i → p'.table j = p.table j
  node : ∀ b, (∀ f, (b, f) ∉ C i) → p'.node b = p.node b

/-- The walk of `dictGenericDelete` up to the entry it takes out. -/
theorem deleteLoop_eq {fuel : ℕ} {he : Option ℕ} (i : ℕ) (nofree : Bool) (prevHe : Option ℕ)
    (hc : Chain p.node he (l ++ (a, e) :: m))
    (hno : ∀ x ∈ l, p.type.compareKeys key x.2.key = false)
    (hyes : p.type.compareKeys key e.key = true) (hfuel : l.length < fuel) :
    deleteLoop p key i nofree fuel prevHe he = (do
      let p ← match (l.getLast?.map Prod.fst).or prevHe with
        | some b => setNext p b (firstAddr m)
        | none => .ok (setHead p i (firstAddr m))
      .ok ({ zfree p a with used := p.used-1 }, dictOk, if nofree then [] else [e])) := by
  induction l generalizing fuel prevHe he with
  | nil =>
    obtain ⟨fuel, rfl⟩ := Nat.exists_eq_add_of_le' (Nat.one_le_of_lt hfuel)
    obtain ⟨rfl, nx, hn, hrest⟩ := hc
    rw [hrest.head_eq] at hn
    rw [deleteLoop, load_ok hn, ok_bind, if_pos hyes]
    rfl
  | cons x l ih =>
    obtain ⟨fuel, rfl⟩ := Nat.exists_eq_add_of_le' (Nat.one_le_of_lt hfuel)
    obtain ⟨rfl, nx, hn, hrest⟩ := hc
    have hx : ¬p.type.compareKeys key x.2.key = true := by
      rw [hno x List.mem_cons_self]
      exact Bool.false_ne_true
    rw [deleteLoop, load_ok hn, ok_bind, if_neg hx,
      ih (some x.1) hrest (fun y hy => hno y (List.mem_cons_of_mem x hy))
        (Nat.lt_of_succ_lt_succ hfuel),
      List.getLast?_cons]
    cases l.getLast? <;> rfl

/-- Taking the first entry of a bucket out. -/
theorem deleted_first (h : State p C) (ht : Lawful p.type) (hi : i < p.size)
    (hC : C i = (a, e) :: m) :
    Deleted p { zfree (setHead p i (firstAddr m)) a with used := p.used-1 } C i m := by
  have hchain := h.chains i hi
  have hnd := h.bucket_nodup ht hi
  rw [hC] at hchain hnd
  obtain ⟨-, nx, -, hrest⟩ := hchain
  rw [List.map_cons, List.nodup_cons] at hnd
  have hhead : (zfree (setHead p i (firstAddr m)) a).table i = firstAddr m :=
    Function.update_self ..
  constructor
  · rfl
  · rfl
  · rfl
  · rfl
  · dsimp only
    rw [hhead, ← hrest.head_eq]
    apply hrest.congr
    intro x hx
    apply Function.update_of_ne
    intro hxa
    apply hnd.1
    show a ∈ m.map Prod.fst
    rw [← hxa]
    exact List.mem_map_of_mem hx
  · intro j hj
    exact Function.update_of_ne hj ..
  · intro b hb
    apply Function.update_of_ne
    rintro rfl
    exact hb e (by simp [hC])

/-- Taking an entry out behind another one. -/
theorem deleted_after (h : State p C) (ht : Lawful p.type) (hi : i < p.size)
    (hC : C i = l ++ (b, f) :: (a, e) :: m) :
    ∃ q, setNext p b (firstAddr m) = .ok q ∧
      Deleted p { zfree q a with used := q.used-1 } C i (l ++ (b, f) :: m) := by
  have hchain := h.chains i hi
  have hnd := h.bucket_nodup ht hi
  rw [hC] at hchain hnd
  have hb := hchain.middle
  have hba : b ≠ a := by
    rintro rfl
    rw [List.map_append, List.nodup_append'] at hnd
    exact (List.nodup_cons.mp hnd.2.1).1 List.mem_cons_self
  rw [setNext, load_ok hb, ok_bind]
  refine ⟨_, rfl, rfl, rfl, rfl, rfl, ?_, fun j hj => rfl, fun c hc => ?_⟩
  · apply hchain.unlink hnd
    · simp [zfree, hba]
    · intro c hca hcb
      simp [zfree, hca, hcb]
  · have hca : c ≠ a := by
      rintro rfl
      exact hc e (by simp [hC])
    have hcb : c ≠ b := by
      rintro rfl
      exact hc f (by simp [hC])
    simp [zfree, hca, hcb]

/-- Deleting by the key of an entry takes this entry out. -/
theorem dictGenericDelete_deleted {fuel : ℕ} (h : State p C) (ht : Lawful p.type) (hi : i < p.size)
    (hC : C i = l ++ (a, e) :: m) (nofree : Bool) (hfuel : l.length < fuel) :
    ∃ p', dictGenericDelete fuel p e.key nofree =
        .ok (p', dictOk, if nofree then [] else [e]) ∧ Deleted p p' C i (l ++ m) := by
  have hchain := h.chains i hi
  have hdis := h.distinct i hi
  have hidx : p.type.hashKey e.key &&& p.sizemask = i := h.home i hi (a, e) (by simp [hC])
  rw [hC] at hchain
  rw [hC, List.map_append, List.map_cons, Distinct, List.pairwise_append] at hdis
  have hno : ∀ x ∈ l, p.type.compareKeys e.key x.2.key = false := fun x hx => by
    rw [ht.comm]
    exact hdis.2.2 x.2 (List.mem_map_of_mem hx) e List.mem_cons_self
  have hloop := deleteLoop_eq i nofree none hchain hno (ht.refl e.key) hfuel
  have hrun : dictGenericDelete fuel p e.key nofree =
      deleteLoop p e.key i nofree fuel none (p.table i) := by
    rw [dictGenericDelete, if_neg (by omega), hidx]
  rw [hrun, hloop]
  rcases List.eq_nil_or_concat' l with rfl | ⟨l, ⟨b, f⟩, rfl⟩
  · exact ⟨_, rfl, deleted_first h ht hi hC⟩
  · rw [List.append_assoc, List.singleton_append] at hC
    obtain ⟨q, hnext, hd⟩ := deleted_after h ht hi hC
    have hlast : ((l ++ [(b, f)]).getLast?.map Prod.fst).or none = some b := by simp
    rw [hlast]
    dsimp only
    rw [hnext, List.append_assoc, List.singleton_append]
    exact ⟨_, rfl, hd⟩

omit [DecidableEq K] in
theorem cut_sum (hi : i < p.size) (hC : C i = l ++ (a, e) :: m) :
    (∑ j ∈ Finset.range p.size, (cut C i (l ++ m) j).length)+1 =
      ∑ j ∈ Finset.range p.size, (C j).length := by
  have hrest : ∑ j ∈ (Finset.range p.size).erase i, (cut C i (l ++ m) j).length =
      ∑ j ∈ (Finset.range p.size).erase i, (C j).length :=
    Finset.sum_congr rfl fun j hj => by
      rw [cut, Function.update_of_ne (Finset.ne_of_mem_erase hj)]
  rw [← Finset.add_sum_erase _ _ (Finset.mem_range.mpr hi),
    ← Finset.add_sum_erase _ (fun j => (C j).length) (Finset.mem_range.mpr hi), hrest, cut,
    Function.update_self, hC]
  simp only [List.length_append, List.length_cons]
  omega

/-- What is left is a dict without the entry. -/
theorem Deleted.state {p' : Heap K V} (h : State p C) (hi : i < p.size)
    (hC : C i = l ++ (a, e) :: m) (hd : Deleted p p' C i (l ++ m)) :
    State p' (cut C i (l ++ m)) := by
  have hsub : (l ++ m).Sublist (C i) := by
    rw [hC]
    exact (List.Sublist.refl l).append (List.sublist_cons_self (a, e) m)
  have hself : cut C i (l ++ m) i = l ++ m := Function.update_self ..
  have hother : ∀ j, j ≠ i → cut C i (l ++ m) j = C j := fun j hj => Function.update_of_ne hj ..
  constructor
  · rw [hd.size, hd.mask]
    exact h.shape
  · intro j hj
    rw [hd.size] at hj
    by_cases hji : j = i
    · rw [hji, hself]
      exact hd.chain
    · rw [hother j hji, hd.table j hji]
      apply (h.chains j hj).congr
      intro x hx
      apply hd.node
      intro f hf
      exact hji (h.unique hj hi hx hf).2
  · intro j hj x hx
    rw [hd.size] at hj
    rw [hd.type, hd.mask]
    apply h.home j hj
    by_cases hji : j = i
    · rw [hji, hself] at hx
      rw [hji]
      exact hsub.subset hx
    · rwa [hother j hji] at hx
  · intro j hj
    rw [hd.size] at hj
    rw [hd.type]
    refine List.Pairwise.sublist ?_ (h.distinct j hj)
    by_cases hji : j = i
    · rw [hji, hself]
      exact hsub.map Prod.snd
    · rw [hother j hji]
  · have hsum := cut_sum hi hC
    rw [hd.used, hd.size, h.used]
    omega

end States

section Addresses

variable {K V : Type} {d : Dict K V} {T : ℕ → List (DictEntry K V)} {i : ℕ}

def place (T : ℕ → List (DictEntry K V)) (i : ℕ) : List (ℕ × DictEntry K V) :=
  (T i).mapIdx fun j e => (Nat.pair i j, e)

def heapOf (d : Dict K V) (T : ℕ → List (DictEntry K V)) : Heap K V where
  type := d.type
  size := d.ht.size
  sizemask := d.ht.sizemask
  used := d.ht.used
  table i := firstAddr (place T i)
  node a := (T a.unpair.1)[a.unpair.2]?.map fun e =>
    ⟨e, firstAddr ((place T a.unpair.1).drop (a.unpair.2+1))⟩

theorem place_map (T : ℕ → List (DictEntry K V)) (i : ℕ) : (place T i).map Prod.snd = T i := by
  apply List.ext_getElem
  · rw [List.length_map, place, List.length_mapIdx]
  · intro j h₁ h₂
    simp [place]

theorem place_chain (d : Dict K V) (T : ℕ → List (DictEntry K V)) (i j : ℕ) :
    Chain (heapOf d T).node (firstAddr ((place T i).drop j)) ((place T i).drop j) := by
  induction hn : (T i).length-j generalizing j with
  | zero =>
    rw [List.drop_eq_nil_of_le (by rw [place, List.length_mapIdx]; omega)]
    rfl
  | succ n ih =>
    have hj : j < (T i).length := by omega
    have hcons : (place T i).drop j = (Nat.pair i j, (T i)[j]) :: (place T i).drop (j+1) := by
      rw [List.drop_eq_getElem_cons (by rw [place, List.length_mapIdx]; exact hj)]
      congr 1
      exact List.getElem_mapIdx ..
    rw [hcons]
    refine ⟨rfl, _, ?_, ih (j+1) (by omega)⟩
    simp [heapOf, hj]

variable [DecidableEq K]

theorem heapOf_state (h : Filled d T) : State (heapOf d T) (place T) := by
  obtain ⟨j, -, hj⟩ := h.size
  have hmem : ∀ i, ∀ x ∈ place T i, x.2 ∈ T i := fun i x hx => by
    rw [← place_map T i]
    exact List.mem_map_of_mem hx
  constructor
  · exact Or.inr ⟨⟨j, hj⟩, h.mask⟩
  · intro i _
    exact place_chain d T i 0
  · intro i _ x hx
    exact h.home i x.2 (hmem i x hx)
  · intro i _
    rw [place_map]
    exact h.distinct i
  · rw [show (heapOf d T).used = d.ht.used from rfl, h.used]
    apply Finset.sum_congr rfl
    intro i _
    rw [place, List.length_mapIdx]

end Addresses

section Walk

variable {K V : Type} [DecidableEq K] {p : Heap K V} {C : ℕ → List (ℕ × DictEntry K V)}
  {iter : Iterator} {todo done : List (ℕ × DictEntry K V)} {fuel i : ℕ}

/-- What an iterator is still going to return. It stands in front of a bucket, or in
a chain, between the entries it has passed and those ahead. -/
def Ahead (p : Heap K V) (C : ℕ → List (ℕ × DictEntry K V)) (iter : Iterator)
    (todo : List (ℕ × DictEntry K V)) : Prop :=
  (∃ i : ℕ, iter.index = (i : ℤ)-1 ∧ iter.entry = none ∧ todo = entriesFrom p C i) ∨
  ∃ (i : ℕ) (l₁ l₂ : List (ℕ × DictEntry K V)), i < p.size ∧ iter.index = i ∧
    iter.entry ≠ none ∧ iter.nextEntry = firstAddr l₂ ∧ C i = l₁ ++ l₂ ∧
    todo = l₂ ++ entriesFrom p C (i+1)

structure At (p : Heap K V) (C : ℕ → List (ℕ × DictEntry K V)) (iter : Iterator) (i a : ℕ)
    (e : DictEntry K V) (l₁ l₂ : List (ℕ × DictEntry K V)) : Prop where
  bucket : i < p.size
  index : iter.index = i
  entry : iter.entry = some a
  next : iter.nextEntry = firstAddr l₂
  chain : C i = l₁ ++ (a, e) :: l₂

def Returns (p : Heap K V) (C : ℕ → List (ℕ × DictEntry K V)) (r : Run (Iterator × Option ℕ)) :
    List (ℕ × DictEntry K V) → Prop
  | [] => ∃ iter, r = .ok (iter, none)
  | (a, e) :: rest => ∃ iter i l₁ l₂, r = .ok (iter, some a) ∧ At p C iter i a e l₁ l₂ ∧
      rest = l₂ ++ entriesFrom p C (i+1)

theorem dictNext_bucket (h : State p C) (hindex : iter.index = (i : ℤ)-1)
    (hentry : iter.entry = none) (hfuel : p.size-i < fuel) :
    Returns p C (dictNext p fuel iter) (entriesFrom p C i) := by
  induction fuel generalizing iter i with
  | zero => omega
  | succ fuel ih =>
    have hnext : iter.index+1 = i := by omega
    rw [dictNext, hentry, hnext]
    by_cases hi : p.size ≤ i
    · rw [if_pos ⟨rfl, by omega⟩, entriesFrom_end hi]
      exact ⟨_, rfl⟩
    · rw [if_neg (fun hc => hi (by omega)), if_pos rfl, Int.toNat_natCast,
        entriesFrom_succ (by omega)]
      have hchain := h.chains i (by omega)
      cases hC : C i with
      | nil =>
        rw [hC] at hchain
        dsimp only
        rw [show p.table i = none from hchain]
        exact ih (by dsimp only; omega) rfl (by omega)
      | cons x l =>
        rw [hC] at hchain
        obtain ⟨hhead, nx, hn, hrest⟩ := hchain
        dsimp only
        rw [hhead]
        dsimp only
        rw [load_ok hn]
        exact ⟨_, i, [], l, rfl, ⟨by omega, rfl, rfl, hrest.head_eq, hC⟩, rfl⟩

theorem dictNext_returns (h : State p C) (ha : Ahead p C iter todo) (hfuel : p.size+1 < fuel) :
    Returns p C (dictNext p fuel iter) todo := by
  rcases ha with ⟨i, hindex, hentry, rfl⟩ | ⟨i, l₁, l₂, hi, hindex, hentry, hnext, hC, rfl⟩
  · exact dictNext_bucket h hindex hentry (by omega)
  · obtain ⟨fuel, rfl⟩ := Nat.exists_eq_add_of_le' (Nat.one_le_of_lt hfuel)
    rw [dictNext, if_neg (fun hc => hentry hc.1), if_neg hentry]
    cases l₂ with
    | nil =>
      dsimp only
      rw [hnext]
      exact dictNext_bucket h (by dsimp only; omega) rfl (by omega)
    | cons x l₂ =>
      obtain ⟨a, e⟩ := x
      have hchain := h.chains i hi
      rw [hC] at hchain
      dsimp only
      rw [hnext]
      dsimp only [firstAddr, List.head?_cons, Option.map_some]
      rw [load_ok hchain.middle]
      exact ⟨_, i, l₁, l₂, rfl, ⟨hi, hindex, rfl, rfl, hC⟩, rfl⟩

end Walk

section Loop

variable {K V : Type} {p p' : Heap K V} {C : ℕ → List (ℕ × DictEntry K V)}
  {iter : Iterator} {todo done l₁ l₂ : List (ℕ × DictEntry K V)} {fuel inner i a k : ℕ}
  {e : DictEntry K V}

/-- The entries that are not deleted; the first is returned in turn `k`. -/
def keep (choice : ℕ → Option Bool) : ℕ → List (ℕ × DictEntry K V) → List (ℕ × DictEntry K V)
  | _, [] => []
  | k, x :: l => if (choice k).isNone then x :: keep choice (k+1) l else keep choice (k+1) l

theorem At.kept (h : At p C iter i a e l₁ l₂) :
    Ahead p C iter (l₂ ++ entriesFrom p C (i+1)) := by
  refine Or.inr ⟨i, l₁ ++ [(a, e)], l₂, h.bucket, h.index, ?_, h.next, ?_, rfl⟩
  · rw [h.entry]
    exact Option.some_ne_none a
  · rw [h.chain, List.append_assoc]
    rfl

theorem Deleted.later (hd : Deleted p p' C i l₁) :
    entriesFrom p' (cut C i l₁) (i+1) = entriesFrom p C (i+1) :=
  entriesFrom_congr hd.size fun _ hj => Function.update_of_ne (by omega) ..

theorem At.deleted (h : At p C iter i a e l₁ l₂) (hd : Deleted p p' C i (l₁ ++ l₂)) :
    Ahead p' (cut C i (l₁ ++ l₂)) iter (l₂ ++ entriesFrom p C (i+1)) := by
  refine Or.inr ⟨i, l₁, l₂, ?_, h.index, ?_, h.next, Function.update_self .., ?_⟩
  · rw [hd.size]
    exact h.bucket
  · rw [h.entry]
    exact Option.some_ne_none a
  · rw [hd.later]

theorem entries_split (hi : i < p.size) :
    entries p C = (List.range' 0 i).flatMap C ++ (C i ++ entriesFrom p C (i+1)) := by
  rw [← entriesFrom_succ hi, entries, entriesFrom, entriesFrom, ← List.flatMap_append]
  congr 1
  have happend := @List.range'_append_1 0 i (p.size-i)
  rw [Nat.zero_add] at happend
  rw [happend]
  congr 1
  omega

theorem entries_deleted (h : At p C iter i a e l₁ l₂) (hd : Deleted p p' C i (l₁ ++ l₂))
    (hall : entries p C = done ++ (a, e) :: (l₂ ++ entriesFrom p C (i+1))) :
    entries p' (cut C i (l₁ ++ l₂)) = done ++ (l₂ ++ entriesFrom p C (i+1)) := by
  have hbefore : (List.range' 0 i).flatMap (cut C i (l₁ ++ l₂)) = (List.range' 0 i).flatMap C := by
    apply List.flatMap_congr
    intro j hj
    rw [List.mem_range'_1] at hj
    exact Function.update_of_ne (by omega) ..
  have hself : cut C i (l₁ ++ l₂) i = l₁ ++ l₂ := Function.update_self ..
  rw [entries_split h.bucket, h.chain, List.append_assoc, ← List.append_assoc,
    List.cons_append] at hall
  rw [entries_split (by rw [hd.size]; exact h.bucket), hbefore, hself, hd.later, List.append_assoc,
    ← List.append_assoc, List.append_cancel_right hall]

variable [DecidableEq K]

/-- One turn of the caller, who keeps the entry or deletes it. -/
theorem turn (h : State p C) (ht : Lawful p.type) (hat : At p C iter i a e l₁ l₂)
    (hall : entries p C = done ++ (a, e) :: (l₂ ++ entriesFrom p C (i+1)))
    (hinner : (entries p C).length < inner) (kept : Option Bool) :
    ∃ p' C', (kept = none → p' = p) ∧
      (∀ nofree, kept = some nofree →
        ∃ r, dictGenericDelete inner p e.key nofree = .ok (p', r)) ∧
      p'.type = p.type ∧ p'.size = p.size ∧ State p' C' ∧
      Ahead p' C' iter (l₂ ++ entriesFrom p C (i+1)) ∧
      entries p' C' =
        done ++ (if kept.isNone then [(a, e)] else []) ++ (l₂ ++ entriesFrom p C (i+1)) := by
  cases kept with
  | none =>
    refine ⟨p, C, fun _ => rfl, fun _ hk => (by cases hk), rfl, rfl, h, hat.kept, ?_⟩
    rw [hall, Option.isNone_none, if_pos rfl, List.append_assoc]
    rfl
  | some nofree =>
    have hlen : l₁.length < inner := by
      have := congrArg List.length (entries_split (C := C) hat.bucket)
      rw [hat.chain] at this
      simp only [List.length_append, List.length_cons] at this
      omega
    obtain ⟨p', hdel, hd⟩ := dictGenericDelete_deleted h ht hat.bucket hat.chain nofree hlen
    refine ⟨p', _, fun hk => (by cases hk), fun nofree' hk => ?_, hd.type, hd.size,
      hd.state h hat.bucket hat.chain, hat.deleted hd, ?_⟩
    · cases hk
      exact ⟨_, hdel⟩
    · rw [entries_deleted hat hd hall, Option.isNone_some, if_neg Bool.false_ne_true,
        List.append_nil]

/-- The caller's loop returns what lies ahead and leaves what is kept. -/
theorem iterateLoop_spec (choice : ℕ → Option Bool) (k : ℕ) (done : List (ℕ × DictEntry K V))
    (h : State p C) (ht : Lawful p.type) (ha : Ahead p C iter todo)
    (hall : entries p C = done ++ todo) (hfuel : todo.length < fuel)
    (hinner : p.size+1+(entries p C).length < inner) :
    ∃ p' C', iterateLoop inner choice fuel k p iter = .ok (p', todo.map Prod.fst) ∧
      p'.type = p.type ∧ p'.size = p.size ∧ State p' C' ∧
      entries p' C' = done ++ keep choice k todo := by
  induction fuel generalizing k p C iter todo done with
  | zero => omega
  | succ fuel ih =>
    have hnext := dictNext_returns h ha (show p.size+1 < inner by omega)
    rw [iterateLoop]
    cases todo with
    | nil =>
      obtain ⟨iter', hrun⟩ := hnext
      rw [hrun, ok_bind]
      exact ⟨p, C, rfl, rfl, rfl, h, by rw [hall]; rfl⟩
    | cons x todo =>
      obtain ⟨a, e⟩ := x
      obtain ⟨iter', i, l₁, l₂, hrun, hat, rfl⟩ := hnext
      obtain ⟨p₁, C₁, hkept, hdeleted, htype₁, hsize₁, hstate₁, hahead, hall₁⟩ :=
        turn h ht hat hall (show (entries p C).length < inner by omega) (choice k)
      have hchain := h.chains i hat.bucket
      rw [hat.chain] at hchain
      have hcount := congrArg List.length hall
      have hcount₁ := congrArg List.length hall₁
      have hone : (if (choice k).isNone then [(a, e)] else []).length ≤ 1 := by
        split <;> simp
      rw [List.length_append, List.length_cons] at hcount
      rw [List.length_append, List.length_append] at hcount₁
      rw [List.length_cons] at hfuel
      obtain ⟨p', C', hloop, htype, hsize, hstate, hkeep⟩ :=
        ih (k+1) _ hstate₁ (by rwa [htype₁]) hahead hall₁ (by omega) (by omega)
      refine ⟨p', C', ?_, htype.trans htype₁, hsize.trans hsize₁, hstate, ?_⟩
      · rw [hrun, ok_bind]
        dsimp only
        cases hk : choice k with
        | none =>
          rw [hkept hk] at hloop
          dsimp only
          rw [ok_bind, hloop]
          rfl
        | some nofree =>
          obtain ⟨r, hdel⟩ := hdeleted nofree hk
          dsimp only
          rw [load_ok hchain.middle, ok_bind, hdel, ok_bind, ok_bind, hloop]
          rfl
      · rw [hkeep, keep, List.append_assoc]
        cases choice k <;> rfl

/-- Iterating over a dict while deleting returns every entry once and leaves a dict
of the entries that were kept. -/
theorem iterate_tolerates (h : State p C) (ht : Lawful p.type) (choice : ℕ → Option Bool) :
    ((entries p C).map Prod.fst).Nodup ∧
      ∃ fuel p' C', iterate fuel choice p = .ok (p', (entries p C).map Prod.fst) ∧
        State p' C' ∧ entries p' C' = keep choice 0 (entries p C) := by
  refine ⟨h.entries_nodup ht 0, p.size+2+(entries p C).length, ?_⟩
  have hahead : Ahead p C dictGetIterator (entries p C) := Or.inl ⟨0, rfl, rfl, rfl⟩
  have hfuel : (entries p C).length < p.size+2+(entries p C).length := by omega
  have hinner : p.size+1+(entries p C).length < p.size+2+(entries p C).length := by omega
  obtain ⟨p', C', hloop, -, -, hstate, hkeep⟩ := iterateLoop_spec choice 0 [] h ht
    hahead rfl hfuel hinner
  exact ⟨p', C', hloop, hstate, hkeep⟩

end Loop

section Pair

def pairChain (i : ℕ) : List (DictEntry ℕ ℕ) :=
  if i = 1 then [⟨5, some 50⟩, ⟨1, some 10⟩] else []

def pairDict : Dict ℕ ℕ := ⟨DictGrowth.numbers, some pairChain, 4, 3, 2⟩

theorem pairDict_filled : Filled pairDict pairChain := by
  have hmem : ∀ i, ∀ e ∈ pairChain i, i = 1 ∧ (e = ⟨5, some 50⟩ ∨ e = ⟨1, some 10⟩) := by
    intro i e he
    rw [pairChain] at he
    split at he
    · exact ⟨‹_›, by simpa using he⟩
    · cases he
  constructor
  · rfl
  · exact ⟨2, Nat.le_refl _, rfl⟩
  · rfl
  · intro i e he
    obtain ⟨rfl, rfl | rfl⟩ := hmem i e he <;> decide
  · intro i
    rw [Distinct, pairChain]
    split
    · decide
    · exact List.Pairwise.nil
  · intro i e he
    obtain ⟨-, rfl | rfl⟩ := hmem i e he <;> exact Option.some_ne_none _
  · decide

/-- The first of two entries is deleted while it is the iterator's. -/
theorem iterate_tolerates_pair :
    ∃ fuel p' C', iterate fuel (fun k => if k = 0 then some false else none)
        (heapOf pairDict pairChain) = .ok (p', [2, 3]) ∧
      State p' C' ∧ entries p' C' = [(3, ⟨1, some 10⟩)] :=
  (iterate_tolerates (heapOf_state pairDict_filled) DictGrowth.numbers_lawful
    fun k => if k = 0 then some false else none).2

end Pair

end CLearning.DictIterate
