import CLearning.ChildLists
import CLearning.Json
import CLearning.LinkedLists

/-!
# Items of cJSON in memory

The calls that build and change a tree work on the cells of the items, linked
by `next`, `prev` and `child`. A cell that was freed is gone, and whoever
follows a pointer to it faults. `malloc` gives out any cell that is not in use.
-/

set_option autoImplicit false

namespace CLearning.Json
open CLearning.Machine CLearning.LinkedLists CLearning.ChildLists

section Source

variable {D : Type}

structure Cell (D : Type) where
  next : Option ℕ
  prev : Option ℕ
  child : Option ℕ
  data : Data D

abbrev Memory (D : Type) := ℕ → Option (Cell D)

def load (m : Memory D) (c : ℕ) : Run (Cell D) :=
  match m c with
  | some cell => .ok cell
  | none => .error .wildAccess

def write (m : Memory D) (c : ℕ) (f : Cell D → Cell D) : Run (Memory D) := do
  let cell ← load m c
  .ok (Function.update m c (some (f cell)))

def setNext (m : Memory D) (c : ℕ) (p : Option ℕ) : Run (Memory D) :=
  write m c fun cell => { cell with next := p }

def setPrev (m : Memory D) (c : ℕ) (p : Option ℕ) : Run (Memory D) :=
  write m c fun cell => { cell with prev := p }

def setChild (m : Memory D) (c : ℕ) (p : Option ℕ) : Run (Memory D) :=
  write m c fun cell => { cell with child := p }

def through (m : Memory D) (p : Option ℕ) (store : ℕ → Run (Memory D)) : Run (Memory D) :=
  match p with
  | none => .ok m
  | some c => store c

/-- `while (c && c->next) c = c->next`. -/
def lastItem (m : Memory D) : ℕ → ℕ → Run ℕ
  | 0, _ => .error .outOfFuel
  | fuel+1, c => do
    let cell ← load m c
    match cell.next with
    | none => .ok c
    | some next => lastItem m fuel next

/-- `while (c && which > 0) c = c->next, which--`. -/
def nthItem (m : Memory D) : ℕ → Option ℕ → Run (Option ℕ)
  | 0, c => .ok c
  | _+1, none => .ok none
  | which+1, some c => do
    let cell ← load m c
    nthItem m which cell.next

def tolower (c : UInt8) : UInt8 := if 65 ≤ c ∧ c ≤ 90 then c+32 else c

abbrev Chars := Option (Option ℕ × Text)

def cut (s : Text) : Text := s.takeWhile (· ≠ 0)

def strcasecmp (s1 s2 : Option Text) : Bool :=
  match s1, s2 with
  | none, none => true
  | some s1, some s2 => (cut s1).map tolower = (cut s2).map tolower
  | _, _ => false

/-- `cJSON_strdup` after the block `freed` was freed; `block` is what `malloc` returns. -/
def strdupChars (string : Chars) (freed block : Option ℕ) : Run (Option Str) := do
  let (home, text) ← deref string
  if home.isSome ∧ home = freed then .error .wildAccess
  else .ok (block.map fun block => (block, cut text))

/-- `while (c && cJSON_strcasecmp(c->string, string)) i++, c = c->next`. -/
def namedItem (m : Memory D) (string : Option Text) : ℕ → Option ℕ → ℕ → Run (Option ℕ × ℕ)
  | _, none, i => .ok (none, i)
  | 0, some _, _ => .error .outOfFuel
  | fuel+1, some c, i => do
    let cell ← load m c
    if strcasecmp (cell.data.string.map Prod.snd) string then .ok (some c, i)
    else namedItem m string fuel cell.next (i+1)

def findObjectItem (m : Memory D) (fuel object : ℕ) (string : Chars) : Run (Option ℕ × ℕ) := do
  let cell ← load m object
  namedItem m (string.map Prod.snd) fuel cell.child 0

def suffixObject (m : Memory D) (prev item : ℕ) : Run (Memory D) := do
  let m ← setNext m prev (some item)
  setPrev m item (some prev)

def addItemToArray (m : Memory D) (fuel array : ℕ) (item : Option ℕ) : Run (Memory D) := do
  let cell ← load m array
  match item with
  | none => .ok m
  | some item =>
    match cell.child with
    | none => setChild m array (some item)
    | some c => do
      let c ← lastItem m fuel c
      suffixObject m c item

def setString (m : Memory D) (item : ℕ) (copy : Option Str) : Run (Memory D) :=
  write m item fun cell => { cell with data := { cell.data with string := copy } }

/-- `cJSON_AddItemToObject`: the item's name is freed before `string` is copied. -/
def addItemToObject (m : Memory D) (fuel object : ℕ) (string : Chars) (block item : Option ℕ) :
    Run (Memory D) :=
  match item with
  | none => .ok m
  | some item => do
    let cell ← load m item
    let copy ← strdupChars string (cell.data.string.map Prod.fst) block
    let m ← setString m item copy
    addItemToArray m fuel object (some item)

def detachItemFromArray (m : Memory D) (array : ℕ) (which : ℤ) : Run (Memory D × Option ℕ) := do
  let cell ← load m array
  let c ← nthItem m which.toNat cell.child
  match c with
  | none => .ok (m, none)
  | some c => do
    let cell ← load m c
    let m ← through m cell.prev fun prev => setNext m prev cell.next
    let cell ← load m c
    let m ← through m cell.next fun next => setPrev m next cell.prev
    let first ← load m array
    let cell ← load m c
    let m ← (if some c = first.child then setChild m array cell.next else .ok m)
    let m ← setNext m c none
    let m ← setPrev m c none
    .ok (m, some c)

def detachItemFromObject (m : Memory D) (fuel object : ℕ) (string : Chars) :
    Run (Memory D × Option ℕ) := do
  let (c, i) ← findObjectItem m fuel object string
  let i ← intSize i
  match c with
  | none => .ok (m, none)
  | some _ => detachItemFromArray m object i

/-- `cJSON_Delete` of an item with what follows it and is below it: the items freed, in order. -/
def deleteItems : ℕ → Memory D → Option ℕ → Run (Memory D × List ℕ)
  | _, m, none => .ok (m, [])
  | 0, _, some _ => .error .outOfFuel
  | fuel+1, m, some c => do
    let cell ← load m c
    let (m, freed) ← (if cell.data.isReference then .ok (m, []) else deleteItems fuel m cell.child)
    let _ ← load m c
    let m := Function.update m c none
    let (m, rest) ← deleteItems fuel m cell.next
    .ok (m, freed ++ c :: rest)

def replaceItemInArray (m : Memory D) (fuel array : ℕ) (which : ℤ) (newitem : ℕ) :
    Run (Memory D) := do
  let cell ← load m array
  let c ← nthItem m which.toNat cell.child
  match c with
  | none => .ok m
  | some c => do
    let cell ← load m c
    let m ← setNext m newitem cell.next
    let cell ← load m c
    let m ← setPrev m newitem cell.prev
    let new ← load m newitem
    let m ← through m new.next fun next => setPrev m next (some newitem)
    let first ← load m array
    let m ← (if some c = first.child then setChild m array (some newitem) else do
      let new ← load m newitem
      let prev ← deref new.prev
      setNext m prev (some newitem))
    let m ← setPrev m c none
    let m ← setNext m c none
    let (m, _) ← deleteItems fuel m (some c)
    .ok m

end Source

section Cells

variable {D : Type} {m m' : Memory D} {a b c : ℕ} {cell : Cell D} {p q : Option ℕ}

def links (m : Memory D) : Links ℕ := ⟨fun a => (m a).bind Cell.prev, fun a => (m a).bind Cell.next⟩

def child (m : Memory D) (a : ℕ) : Option ℕ := (m a).bind Cell.child

def data (m : Memory D) (a : ℕ) : Option (Data D) := (m a).map Cell.data

theorem load_of (h : m c = some cell) : load m c = .ok cell := by
  rw [load, h]

theorem write_of (h : m c = some cell) (f : Cell D → Cell D) :
    write m c f = .ok (Function.update m c (some (f cell))) := by
  rw [write, load_of h, ok_bind]

theorem lastItem_seg {l : List ℕ} {fuel : ℕ} (h : Seg (links m) p (c :: l) none)
    (hm : ∀ x ∈ c :: l, (m x).isSome) (hf : l.length < fuel) :
    lastItem m fuel c = .ok ((c :: l).getLast (List.cons_ne_nil c l)) := by
  induction l generalizing p c fuel with
  | nil =>
    obtain ⟨fuel, rfl⟩ := Nat.exists_eq_add_one_of_ne_zero (Nat.ne_zero_of_lt hf)
    obtain ⟨cell, hc⟩ := Option.isSome_iff_exists.mp (hm c List.mem_cons_self)
    have hnext : cell.next = none := by simpa [links, hc] using h.2.1
    rw [lastItem, load_of hc, ok_bind, hnext]
    rfl
  | cons d l ih =>
    obtain ⟨fuel, rfl⟩ := Nat.exists_eq_add_one_of_ne_zero (Nat.ne_zero_of_lt hf)
    obtain ⟨cell, hc⟩ := Option.isSome_iff_exists.mp (hm c List.mem_cons_self)
    have hnext : cell.next = some d := by simpa [links, hc] using h.2.1
    rw [lastItem, load_of hc, ok_bind, hnext]
    have hrest := ih h.2.2 (fun x hx => hm x (List.mem_cons_of_mem c hx))
      (Nat.lt_of_succ_lt_succ hf)
    rw [List.getLast_cons (List.cons_ne_nil d l)]
    exact hrest

theorem nthItem_seg {l : List ℕ} (h : Seg (links m) p l none) (hm : ∀ x ∈ l, (m x).isSome)
    (which : ℕ) : nthItem m which l.head? = .ok l[which]? := by
  induction l generalizing p which with
  | nil => cases which <;> rfl
  | cons c l ih =>
    cases which with
    | zero => rfl
    | succ which =>
      obtain ⟨cell, hc⟩ := Option.isSome_iff_exists.mp (hm c List.mem_cons_self)
      have hnext : cell.next = l.head? := by simpa [links, hc] using h.2.1
      rw [List.head?_cons, nthItem, load_of hc, ok_bind, hnext, List.getElem?_cons_succ]
      exact ih h.2.2 (fun x hx => hm x (List.mem_cons_of_mem c hx)) which

def Named (m : Memory D) (string : Option Text) (c : ℕ) : Bool :=
  strcasecmp (((data m c).bind Data.string).map Prod.snd) string

theorem namedItem_seg {l : List ℕ} {string : Option Text} {fuel i : ℕ} (h : Seg (links m) p l none)
    (hm : ∀ x ∈ l, (m x).isSome) (hf : l.length ≤ fuel) :
    namedItem m string fuel l.head? i =
      .ok (l[l.findIdx (Named m string)]?, i+l.findIdx (Named m string)) := by
  induction l generalizing p fuel i with
  | nil => cases fuel <;> rfl
  | cons c l ih =>
    obtain ⟨fuel, rfl⟩ := Nat.exists_eq_add_one_of_ne_zero (Nat.ne_zero_of_lt hf)
    obtain ⟨cell, hc⟩ := Option.isSome_iff_exists.mp (hm c List.mem_cons_self)
    have hnext : cell.next = l.head? := by simpa [links, hc] using h.2.1
    have hnamed : Named m string c = strcasecmp (cell.data.string.map Prod.snd) string := by
      simp [Named, data, hc]
    rw [List.head?_cons, namedItem, load_of hc, ok_bind, List.findIdx_cons, hnamed]
    by_cases hs : strcasecmp (cell.data.string.map Prod.snd) string = true
    · rw [if_pos hs, hs]
      rfl
    · have hrest := ih (i := i+1) h.2.2 (fun x hx => hm x (List.mem_cons_of_mem c hx))
        (Nat.le_of_succ_le_succ hf)
      rw [if_neg hs, Bool.eq_false_iff.mpr hs, hnext, hrest, cond_false, List.getElem?_cons_succ,
        Nat.add_assoc, Nat.add_comm 1]

theorem load_live (h : (data m c).isSome) : ∃ cell, load m c = .ok cell ∧ cell.next = (links m).next c ∧
    cell.prev = (links m).prev c ∧ cell.child = child m c ∧ data m c = some cell.data := by
  rw [data, Option.isSome_map] at h
  obtain ⟨cell, hc⟩ := Option.isSome_iff_exists.mp h
  exact ⟨cell, load_of hc, by simp [links, hc], by simp [links, hc], by simp [child, hc],
    by simp [data, hc]⟩

theorem write_spec (h : (data m c).isSome) (f : Cell D → Cell D) (hf : ∀ cell, (f cell).data = cell.data) :
    ∃ m' cell, write m c f = .ok m' ∧ m c = some cell ∧
      (links m').prev = Function.update (links m).prev c (f cell).prev ∧
      (links m').next = Function.update (links m).next c (f cell).next ∧
      child m' = Function.update (child m) c (f cell).child ∧ data m' = data m := by
  rw [data, Option.isSome_map] at h
  obtain ⟨cell, hc⟩ := Option.isSome_iff_exists.mp h
  refine ⟨_, cell, write_of hc f, hc, ?_, ?_, ?_, ?_⟩
  · funext x
    by_cases hx : x = c <;> simp [links, hx]
  · funext x
    by_cases hx : x = c <;> simp [links, hx]
  · funext x
    by_cases hx : x = c <;> simp [child, hx]
  · funext x
    by_cases hx : x = c <;> simp [data, hx, hc, hf]

theorem setNext_spec (h : (data m c).isSome) (p : Option ℕ) : ∃ m', setNext m c p = .ok m' ∧
    (links m').prev = (links m).prev ∧ (links m').next = Function.update (links m).next c p ∧
      child m' = child m ∧ data m' = data m := by
  obtain ⟨m', cell, hm, hc, hprev, hnext, hchild, hdata⟩ :=
    write_spec h (fun cell => { cell with next := p }) fun _ => rfl
  refine ⟨m', hm, hprev.trans ?_, hnext, hchild.trans ?_, hdata⟩
  · exact Function.update_eq_self_iff.mpr (by simp [links, hc])
  · exact Function.update_eq_self_iff.mpr (by simp [child, hc])

theorem setPrev_spec (h : (data m c).isSome) (p : Option ℕ) : ∃ m', setPrev m c p = .ok m' ∧
    (links m').prev = Function.update (links m).prev c p ∧ (links m').next = (links m).next ∧
      child m' = child m ∧ data m' = data m := by
  obtain ⟨m', cell, hm, hc, hprev, hnext, hchild, hdata⟩ :=
    write_spec h (fun cell => { cell with prev := p }) fun _ => rfl
  refine ⟨m', hm, hprev, hnext.trans ?_, hchild.trans ?_, hdata⟩
  · exact Function.update_eq_self_iff.mpr (by simp [links, hc])
  · exact Function.update_eq_self_iff.mpr (by simp [child, hc])

theorem setChild_spec (h : (data m c).isSome) (p : Option ℕ) : ∃ m', setChild m c p = .ok m' ∧
    (links m').prev = (links m).prev ∧ (links m').next = (links m).next ∧
      child m' = Function.update (child m) c p ∧ data m' = data m := by
  obtain ⟨m', cell, hm, hc, hprev, hnext, hchild, hdata⟩ :=
    write_spec h (fun cell => { cell with child := p }) fun _ => rfl
  refine ⟨m', hm, hprev.trans ?_, hnext.trans ?_, hchild, hdata⟩
  · exact Function.update_eq_self_iff.mpr (by simp [links, hc])
  · exact Function.update_eq_self_iff.mpr (by simp [links, hc])

theorem through_setNext_spec (h : ∀ c, p = some c → (data m c).isSome) (q : Option ℕ) :
    ∃ m', through m p (fun c => setNext m c q) = .ok m' ∧
      (links m').prev = (links m).prev ∧
        (∀ x, (links m').next x = if p = some x then q else (links m).next x) ∧
          child m' = child m ∧ data m' = data m := by
  cases p with
  | none => exact ⟨m, rfl, rfl, by simp, rfl, rfl⟩
  | some c =>
    obtain ⟨m', hm, hprev, hnext, hrest⟩ := setNext_spec (h c rfl) q
    refine ⟨m', hm, hprev, fun x => ?_, hrest⟩
    simp [hnext, Function.update_apply, eq_comm]

theorem through_setPrev_spec (h : ∀ c, p = some c → (data m c).isSome) (q : Option ℕ) :
    ∃ m', through m p (fun c => setPrev m c q) = .ok m' ∧
      (∀ x, (links m').prev x = if p = some x then q else (links m).prev x) ∧
        (links m').next = (links m).next ∧ child m' = child m ∧ data m' = data m := by
  cases p with
  | none => exact ⟨m, rfl, by simp, rfl, rfl, rfl⟩
  | some c =>
    obtain ⟨m', hm, hprev, hrest⟩ := setPrev_spec (h c rfl) q
    refine ⟨m', hm, fun x => ?_, hrest⟩
    simp [hprev, Function.update_apply, eq_comm]

end Cells

section Trees

variable {D : Type}

/-- The children of every item, in order, and what the live items hold. -/
structure Tree (D : Type) where
  children : ℕ → List ℕ
  data : ℕ → Option (Data D)

/-- The cells in memory are the items of a forest. -/
structure Represents (m : Memory D) (t : Tree D) : Prop where
  data : Json.data m = t.data
  family : Family (links m) (child m) t.children
  forest : Forest t.children
  live : ∀ a, ∀ b ∈ t.children a, (t.data b).isSome
  loose : ∀ b, (∀ a, b ∉ t.children a) → (links m).prev b = none ∧ (links m).next b = none
  owned : ∀ a d, t.data a = some d → d.isReference = false

variable {m m' : Memory D} {t : Tree D} {a i c : ℕ}

namespace Represents

theorem memory (h : Represents m t) (hb : c ∈ t.children a) : (m c).isSome := by
  have hlive := h.live a c hb
  rw [← h.data] at hlive
  simpa [Json.data] using hlive

theorem prev_live (h : Represents m t) (hc : c ∈ t.children a) {p : ℕ}
    (hp : (links m).prev c = some p) : p ∈ t.children a ∧ (Json.data m p).isSome := by
  have hmem := (h.family.seg a).prev_mem hc hp
  rw [h.data]
  exact ⟨hmem, h.live a p hmem⟩

theorem next_live (h : Represents m t) (hc : c ∈ t.children a) {n : ℕ}
    (hn : (links m).next c = some n) : n ∈ t.children a ∧ (Json.data m n).isSome := by
  have hmem := (h.family.seg a).next_mem hc hn
  rw [h.data]
  exact ⟨hmem, h.live a n hmem⟩

theorem relinked (h : Represents m t) {L : ℕ → List ℕ} (hdata : Json.data m' = Json.data m)
    (hfamily : Family (links m') (child m') L) (hforest : Forest L)
    (hlive : ∀ a, ∀ b ∈ L a, (t.data b).isSome)
    (hloose : ∀ b, (∀ a, b ∉ L a) → (links m').prev b = none ∧ (links m').next b = none) :
    Represents m' { t with children := L } :=
  ⟨hdata.trans h.data, hfamily, hforest, hlive, hloose, h.owned⟩

end Represents

structure Addable (t : Tree D) (a i : ℕ) : Prop where
  array : (t.data a).isSome
  item : (t.data i).isSome
  root : ∀ x, i ∉ t.children x
  notAbove : ¬Under t.children i a

/-- `cJSON_AddItemToArray` puts a root behind the children of the array. -/
theorem addItemToArray_spec (h : Represents m t) (hadd : Addable t a i) :
    ∃ m', (∀ fuel, (t.children a).length ≤ fuel → addItemToArray m fuel a (some i) = .ok m') ∧
      Represents m' { t with children := Function.update t.children a (t.children a ++ [i]) } := by
  have hforest : Forest (Function.update t.children a (t.children a ++ [i])) := by
    refine h.forest.hang hadd.root hadd.notAbove (by simp) ?_
    rw [List.nodup_append]
    refine ⟨h.forest.nodup a, List.nodup_singleton i, fun x hx y hy hxy => ?_⟩
    rw [List.mem_singleton.mp hy] at hxy
    exact hadd.root a (hxy ▸ hx)
  have hlive : ∀ x, ∀ b ∈ Function.update t.children a (t.children a ++ [i]) x,
      (t.data b).isSome := by
    intro x b hb
    by_cases hx : x = a
    · rw [hx, Function.update_self, List.mem_append, List.mem_singleton] at hb
      rcases hb with hb | rfl
      · exact h.live a b hb
      · exact hadd.item
    · rw [Function.update_of_ne hx] at hb
      exact h.live x b hb
  have hmem : ∀ b, (∀ x, b ∉ Function.update t.children a (t.children a ++ [i]) x) →
      b ≠ i ∧ ∀ x, b ∉ t.children x := by
    intro b hb
    have ha := hb a
    rw [Function.update_self, List.mem_append, List.mem_singleton, not_or] at ha
    refine ⟨ha.2, fun x => ?_⟩
    by_cases hx : x = a
    · rw [hx]
      exact ha.1
    · have hbx := hb x
      rwa [Function.update_of_ne hx] at hbx
  obtain ⟨hprev, hnext⟩ := h.loose i hadd.root
  obtain ⟨cell, hload, -, -, hchild, -⟩ := load_live (m := m) (c := a) (h.data ▸ hadd.array)
  simp only [addItemToArray, hload, ok_bind, hchild, h.family.head_eq a]
  rcases List.eq_nil_or_concat (t.children a) with hnil | ⟨l, z, hl⟩
  · obtain ⟨m', hm, hprev', hnext', hchild', hdata⟩ := setChild_spec (h.data ▸ hadd.array) (some i)
    refine ⟨m', fun fuel _ => by rw [hnil]; exact hm, h.relinked hdata ?_ hforest hlive ?_⟩
    · rw [hnil]
      refine h.family.insert (show t.children a = [] ++ [] from hnil) hadd.root ?_ ?_ (fun j x _ => ?_)
        (fun j x _ => ?_) ?_ fun j hj => ?_
      · rw [hprev', hprev]
        rfl
      · rw [hnext', hnext]
        rfl
      · rw [hnext']
        rfl
      · rw [hprev']
        rfl
      · rw [hchild', Function.update_self]
        rfl
      · rw [hchild', Function.update_of_ne hj]
    · intro b hb
      rw [hprev', hnext']
      exact h.loose b (hmem b hb).2
  · rw [List.concat_eq_append] at hl
    have hz : z ∈ t.children a := by simp [hl]
    have hzi : z ≠ i := fun heq => hadd.root a (heq ▸ hz)
    have hlast : ∀ fuel c l', t.children a = c :: l' → (t.children a).length ≤ fuel →
        lastItem m fuel c = .ok z := by
      intro fuel c l' hcl hf
      have hseg := h.family.seg a
      rw [hcl] at hseg hf
      rw [lastItem_seg hseg (fun x hx => h.memory (hcl ▸ hx)) hf]
      congr 1
      rw [List.getLast_eq_iff_getLast?_eq_some, ← hcl, hl, List.getLast?_concat]
    obtain ⟨m₁, hm₁, hprev₁, hnext₁, hchild₁, hdata₁⟩ :=
      setNext_spec (m := m) (c := z) (h.data ▸ h.live a z hz) (some i)
    obtain ⟨m₂, hm₂, hprev₂, hnext₂, hchild₂, hdata₂⟩ :=
      setPrev_spec (m := m₁) (c := i) (hdata₁ ▸ h.data ▸ hadd.item) (some z)
    rw [hprev₁] at hprev₂
    rw [hnext₁] at hnext₂
    refine ⟨m₂, fun fuel hf => ?_, h.relinked (hdata₂.trans hdata₁) ?_ hforest hlive ?_⟩
    · cases hcl : t.children a with
      | nil => simp [hcl] at hz
      | cons c l' =>
        simp only [List.head?_cons, hlast fuel c l' hcl hf, ok_bind, suffixObject, hm₁, hm₂]
    · rw [hl]
      refine h.family.insert (show t.children a = (l ++ [z]) ++ [] by rw [hl, List.append_nil])
        hadd.root ?_ ?_ (fun j x hx => ?_) (fun j x hx => ?_) ?_ fun j _ => ?_
      · rw [hprev₂, List.getLast?_concat, Function.update_self]
      · rw [hnext₂, Function.update_of_ne hzi.symm, hnext]
        rfl
      · rw [hnext₂, List.getLast?_concat, Function.update_apply]
        simp only [Option.some_inj, eq_comm]
      · have hxi : x ≠ i := fun heq => hadd.root j (heq ▸ hx)
        rw [hprev₂, Function.update_of_ne hxi]
        rfl
      · rw [hchild₂, hchild₁, h.family.head_eq a, hl]
        cases l <;> rfl
      · rw [hchild₂, hchild₁]
    · intro b hb
      obtain ⟨hbi, hb'⟩ := hmem b hb
      have hbz : b ≠ z := fun heq => hb' a (heq ▸ hz)
      rw [hprev₂, hnext₂, Function.update_of_ne hbi, Function.update_of_ne hbz]
      exact h.loose b hb'

theorem Represents.eraseIdx_forest (h : Represents m t) (a k : ℕ) :
    Forest (Function.update t.children a ((t.children a).eraseIdx k)) := by
  refine h.forest.sub (fun x b hb => ?_) fun x => ?_
  · by_cases hx : x = a
    · rw [hx, Function.update_self] at hb
      exact hx ▸ (List.eraseIdx_sublist _ k).subset hb
    · rwa [Function.update_of_ne hx] at hb
  · by_cases hx : x = a
    · rw [hx, Function.update_self]
      exact (h.forest.nodup a).sublist (List.eraseIdx_sublist _ k)
    · rw [Function.update_of_ne hx]
      exact h.forest.nodup x

/-- The item at a position is taken out of its list. -/
theorem detachItemFromArray_some (h : Represents m t) (ha : (t.data a).isSome) {which : ℤ}
    (hk : (t.children a)[which.toNat]? = some c) :
    ∃ m', detachItemFromArray m a which = .ok (m', some c) ∧ Represents m' { t with
      children := Function.update t.children a ((t.children a).eraseIdx which.toNat) } := by
  have hc : c ∈ t.children a := List.mem_of_getElem? hk
  have hcl : (data m c).isSome := h.data ▸ h.live a c hc
  obtain ⟨first, hfirst, -, -, hchild, -⟩ := load_live (m := m) (c := a) (h.data ▸ ha)
  have hnth := nthItem_seg (h.family.seg a) (fun x hx => h.memory hx) which.toNat
  rw [detachItemFromArray, hfirst, ok_bind, hchild, h.family.head_eq a, hnth, hk]
  obtain ⟨cell, hcell, hnextc, hprevc, -, -⟩ := load_live hcl
  obtain ⟨m₁, hm₁, hprev₁, hnext₁, hchild₁, hdata₁⟩ := through_setNext_spec (m := m)
    (fun p hp => (h.prev_live hc hp).2) ((links m).next c)
  obtain ⟨cell₁, hcell₁, hnextc₁, hprevc₁, -, -⟩ := load_live (m := m₁) (hdata₁ ▸ hcl)
  rw [hnext₁, if_neg (h.family.prev_ne hc)] at hnextc₁
  rw [hprev₁] at hprevc₁
  obtain ⟨m₂, hm₂, hprev₂, hnext₂, hchild₂, hdata₂⟩ := through_setPrev_spec (m := m₁)
    (fun n hn => hdata₁ ▸ (h.next_live hc hn).2) ((links m).prev c)
  obtain ⟨first₂, hfirst₂, -, -, hchildf, -⟩ :=
    load_live (m := m₂) (c := a) (hdata₂ ▸ hdata₁ ▸ h.data ▸ ha)
  obtain ⟨cell₂, hcell₂, hnextc₂, -, -, -⟩ := load_live (m := m₂) (hdata₂ ▸ hdata₁ ▸ hcl)
  rw [hnext₂, hnext₁, if_neg (h.family.prev_ne hc)] at hnextc₂
  rw [hchild₂, hchild₁] at hchildf
  obtain ⟨m₃, hm₃, hprev₃, hnext₃, hchild₃, hdata₃⟩ : ∃ m₃,
      (if some c = child m a then setChild m₂ a ((links m).next c) else .ok m₂) = .ok m₃ ∧
        (links m₃).prev = (links m₂).prev ∧ (links m₃).next = (links m₂).next ∧
          (∀ x, child m₃ x = if x = a ∧ some c = child m a then (links m).next c else child m x) ∧
            data m₃ = data m₂ := by
    by_cases hfirst : some c = child m a
    · rw [if_pos hfirst]
      obtain ⟨m₃, hm₃, hprev₃, hnext₃, hchild₃, hdata₃⟩ :=
        setChild_spec (m := m₂) (c := a) (hdata₂ ▸ hdata₁ ▸ h.data ▸ ha) ((links m).next c)
      refine ⟨m₃, hm₃, hprev₃, hnext₃, fun x => ?_, hdata₃⟩
      simp [hchild₃, hchild₂, hchild₁, hfirst, Function.update_apply]
    · rw [if_neg hfirst]
      refine ⟨m₂, rfl, rfl, rfl, fun x => ?_, rfl⟩
      simp [hchild₂, hchild₁, hfirst]
  have hdata' : data m₃ = data m := hdata₃.trans (hdata₂.trans hdata₁)
  obtain ⟨m₄, hm₄, hprev₄, hnext₄, hchild₄, hdata₄⟩ := setNext_spec (m := m₃) (hdata' ▸ hcl) none
  obtain ⟨m₅, hm₅, hprev₅, hnext₅, hchild₅, hdata₅⟩ :=
    setPrev_spec (m := m₄) (hdata₄ ▸ hdata' ▸ hcl) none
  have hnext : ∀ x, (links m₅).next x = if x = c then none else
      if (links m).prev c = some x then (links m).next c else (links m).next x := by
    intro x
    rw [hnext₅, hnext₄, Function.update_apply, hnext₃, hnext₂, hnext₁]
  have hprev : ∀ x, (links m₅).prev x = if x = c then none else
      if (links m).next c = some x then (links m).prev c else (links m).prev x := by
    intro x
    rw [hprev₅, Function.update_apply, hprev₄, hprev₃, hprev₂, hprev₁]
  have herase : (t.children a).eraseIdx which.toNat = (t.children a).erase c := by
    obtain ⟨hlt, hget⟩ := List.getElem?_eq_some_iff.mp hk
    rw [← hget, (h.forest.nodup a).erase_getElem]
  refine ⟨m₅, ?_, h.relinked (hdata₅.trans (hdata₄.trans hdata')) ?_ (h.eraseIdx_forest a _) ?_ ?_⟩
  · simp only [ok_bind, hcell, hprevc, hnextc, hm₁, hcell₁, hnextc₁, hprevc₁, hm₂, hfirst₂, hcell₂,
      hchildf, hnextc₂, hm₃, hm₄, hm₅]
  · rw [herase]
    refine h.family.unlink hc (fun j x _ hx => ?_) (fun j x _ hx => ?_) ?_ fun j hj => ?_
    · rw [hnext, if_neg hx]
    · rw [hprev, if_neg hx]
    · rw [hchild₅, hchild₄, hchild₃]
      simp only [true_and, eq_comm]
    · rw [hchild₅, hchild₄, hchild₃, if_neg fun hand => hj hand.1]
  · intro x b hb
    by_cases hx : x = a
    · rw [hx, Function.update_self] at hb
      exact h.live a b ((List.eraseIdx_sublist _ _).subset hb)
    · rw [Function.update_of_ne hx] at hb
      exact h.live x b hb
  · intro b hb
    rw [hnext, hprev]
    by_cases hbc : b = c
    · rw [if_pos hbc, if_pos hbc]
      exact ⟨rfl, rfl⟩
    · have hfree : ∀ x, b ∉ t.children x := by
        intro x hbx
        by_cases hx : x = a
        · refine hb a ?_
          rw [Function.update_self, herase, (h.forest.nodup a).mem_erase_iff]
          exact ⟨hbc, hx ▸ hbx⟩
        · refine hb x ?_
          rwa [Function.update_of_ne hx]
      have hprevb : ¬(links m).prev c = some b := fun hp => hfree a (h.prev_live hc hp).1
      have hnextb : ¬(links m).next c = some b := fun hn => hfree a (h.next_live hc hn).1
      rw [if_neg hbc, if_neg hbc, if_neg hprevb, if_neg hnextb]
      exact h.loose b hfree

theorem detachItemFromArray_spec (h : Represents m t) (ha : (t.data a).isSome) (which : ℤ) :
    ∃ m', detachItemFromArray m a which = .ok (m', (t.children a)[which.toNat]?) ∧
      Represents m' { t with
        children := Function.update t.children a ((t.children a).eraseIdx which.toNat) } := by
  cases hk : (t.children a)[which.toNat]? with
  | some c => exact detachItemFromArray_some h ha hk
  | none =>
    obtain ⟨first, hfirst, -, -, hchild, -⟩ := load_live (m := m) (c := a) (h.data ▸ ha)
    have hnth := nthItem_seg (h.family.seg a) (fun x hx => h.memory hx) which.toNat
    refine ⟨m, ?_, ?_⟩
    · rw [detachItemFromArray, hfirst, ok_bind, hchild, h.family.head_eq a, hnth, hk]
      rfl
    · rw [List.eraseIdx_of_length_le (List.getElem?_eq_none_iff.mp hk), Function.update_eq_self]
      exact h

/-- The links of `cJSON_ReplaceItemInArray`: the item `c` gives way to a root. -/
theorem replaced (h : Represents m t) (hadd : Addable t a i) {which : ℕ}
    (hk : (t.children a)[which]? = some c)
    (hdata : data m' = data m)
    (hnext : ∀ x, (links m').next x = if x = c then none else if x = i then (links m).next c else
      if (links m).prev c = some x then some i else (links m).next x)
    (hprev : ∀ x, (links m').prev x = if x = c then none else if x = i then (links m).prev c else
      if (links m).next c = some x then some i else (links m).prev x)
    (hchild : ∀ x, child m' x =
      if x = a ∧ some c = child m a then some i else child m x) :
    Represents m' { t with
      children := Function.update t.children a ((t.children a).set which i) } := by
  have hc : c ∈ t.children a := List.mem_of_getElem? hk
  have hic : i ≠ c := fun heq => hadd.root a (heq ▸ hc)
  obtain ⟨l₁, l₂, hl, hset, herase⟩ : ∃ l₁ l₂, t.children a = l₁ ++ c :: l₂ ∧
      (t.children a).set which i = l₁ ++ i :: l₂ ∧ (t.children a).eraseIdx which = l₁ ++ l₂ := by
    obtain ⟨hlt, hget⟩ := List.getElem?_eq_some_iff.mp hk
    refine ⟨(t.children a).take which, (t.children a).drop (which+1), ?_, ?_, ?_⟩
    · rw [← hget, ← List.drop_eq_getElem_cons hlt, List.take_append_drop]
    · rw [List.set_eq_take_append_cons_drop, if_pos hlt]
    · rw [List.eraseIdx_eq_take_drop_succ]
  have hnd := h.forest.nodup a
  rw [hl] at hnd
  have hold : ∀ x ∈ l₁ ++ l₂, x ∈ t.children a := by
    intro x hx
    rw [hl, List.mem_append, List.mem_cons]
    rw [List.mem_append] at hx
    exact hx.imp id .inr
  have hrest := (List.nodup_cons.mp (List.nodup_middle.mp hnd)).2
  have hi : i ∉ l₁ ++ l₂ := fun hi => hadd.root a (hold i hi)
  have hforest : Forest (Function.update t.children a (l₁ ++ i :: l₂)) := by
    have herased := h.eraseIdx_forest a which
    rw [herase] at herased
    have hsub : ∀ x, ∀ b ∈ Function.update t.children a (l₁ ++ l₂) x, b ∈ t.children x := by
      intro x b hb
      by_cases hx : x = a
      · rw [hx, Function.update_self] at hb
        exact hx ▸ hold b hb
      · rwa [Function.update_of_ne hx] at hb
    have hhang := herased.hang (i := i) (a := a) (l := l₁ ++ i :: l₂)
      (fun x hx => hadd.root x (hsub x i hx))
      (fun hu => hadd.notAbove (Relation.ReflTransGen.mono hsub i a hu))
      (fun x => by simp only [Function.update_self, List.mem_append, List.mem_cons]; tauto) ?_
    · rwa [Function.update_idem] at hhang
    · exact List.nodup_middle.mpr (List.nodup_cons.mpr ⟨hi, hrest⟩)
  rw [hset]
  refine h.relinked hdata ?_ hforest ?_ ?_
  · refine h.family.replace hl hadd.root ?_ ?_ (fun j x hx hxc => ?_) (fun j x hx hxc => ?_) ?_
      fun j hj => ?_
    · rw [hprev, if_neg hic, if_pos rfl]
    · rw [hnext, if_neg hic, if_pos rfl]
    · have hxi : x ≠ i := fun heq => hadd.root j (heq ▸ hx)
      rw [hnext, if_neg hxc, if_neg hxi]
    · have hxi : x ≠ i := fun heq => hadd.root j (heq ▸ hx)
      rw [hprev, if_neg hxc, if_neg hxi]
    · rw [hchild]
      simp only [true_and, eq_comm]
    · rw [hchild, if_neg fun hand => hj hand.1]
  · intro x b hb
    by_cases hx : x = a
    · rw [hx, Function.update_self, List.mem_append, List.mem_cons] at hb
      rcases hb with hb | rfl | hb
      · exact h.live a b (hold b (List.mem_append_left l₂ hb))
      · exact hadd.item
      · exact h.live a b (hold b (List.mem_append_right l₁ hb))
    · rw [Function.update_of_ne hx] at hb
      exact h.live x b hb
  · intro b hb
    have hb' := hb a
    rw [Function.update_self, List.mem_append, List.mem_cons, not_or, not_or] at hb'
    rw [hnext, hprev]
    by_cases hbc : b = c
    · rw [if_pos hbc, if_pos hbc]
      exact ⟨rfl, rfl⟩
    · have hfree : ∀ x, b ∉ t.children x := by
        intro x hbx
        by_cases hx : x = a
        · rw [hx, hl, List.mem_append, List.mem_cons] at hbx
          tauto
        · refine hb x ?_
          rwa [Function.update_of_ne hx]
      have hprevb : ¬(links m).prev c = some b := fun hp => hfree a (h.prev_live hc hp).1
      have hnextb : ¬(links m).next c = some b := fun hn => hfree a (h.next_live hc hn).1
      rw [if_neg hbc, if_neg hbc, if_neg hb'.2.1, if_neg hb'.2.1, if_neg hprevb, if_neg hnextb]
      exact h.loose b hfree

end Trees

section Deletes

variable {D : Type} {m m₀ m' : Memory D} {t : Tree D} {c x : ℕ} {l : List ℕ} {p : Option ℕ}

open scoped Classical in
noncomputable def cleared (t : Tree D) (m : Memory D) (l : List ℕ) : Memory D :=
  fun x => if ∃ b ∈ l, Under t.children b x then none else m x

theorem cleared_in (h : ∃ b ∈ l, Under t.children b x) : cleared t m l x = none := if_pos h

theorem cleared_out (h : ¬∃ b ∈ l, Under t.children b x) : cleared t m l x = m x := if_neg h

def Deletes (t : Tree D) (m : Memory D) (l : List ℕ) : Prop :=
  ∃ enough freed, (∀ fuel, enough ≤ fuel → deleteItems fuel m l.head? = .ok (cleared t m l, freed)) ∧
    freed.Nodup ∧ ∀ x, x ∈ freed ↔ ∃ b ∈ l, Under t.children b x

theorem under_iff (L : ℕ → List ℕ) (c x : ℕ) :
    Under L c x ↔ x = c ∨ ∃ b ∈ L c, Under L b x := by
  rw [Under, Relation.ReflTransGen.cases_head_iff]
  exact or_congr eq_comm Iff.rfl

/-- The loop over siblings, given what the recursion does below each of them. -/
theorem deletes_list (h : Represents m t) (hseg : Seg (links m) p l none) (hl : l.Nodup)
    (hlive : ∀ c ∈ l, (t.data c).isSome)
    (hapart : ∀ a ∈ l, ∀ b ∈ l, ∀ x, Under t.children a x → Under t.children b x → a = b)
    (hbelow : ∀ c ∈ l, ∀ m₀ : Memory D, (∀ x, Under t.children c x → m₀ x = m x) →
      Deletes t m₀ (t.children c))
    (m₀ : Memory D) (hsame : ∀ b ∈ l, ∀ x, Under t.children b x → m₀ x = m x) :
    Deletes t m₀ l := by
  induction l generalizing p m₀ with
  | nil =>
    refine ⟨0, [], fun fuel _ => ?_, List.nodup_nil, by simp⟩
    have hcleared : cleared t m₀ [] = m₀ := by
      funext x
      simp [cleared]
    rw [hcleared, List.head?_nil]
    cases fuel <;> rfl
  | cons c l ih =>
    have hc : c ∈ c :: l := List.mem_cons_self
    obtain ⟨cell, hload, hnext, -, hchild, hdata⟩ := load_live (h.data ▸ hlive c hc)
    have hnext : cell.next = l.head? := by
      rw [hnext, hseg.2.1, Option.or_none]
    have howned : cell.data.isReference = false := by
      rw [h.data] at hdata
      exact h.owned c _ hdata
    obtain ⟨enough, freed, hdelete, hnodup, hfreed⟩ := hbelow c hc m₀ (hsame c hc)
    obtain ⟨hcl, hl⟩ := List.nodup_cons.mp hl
    have hself : ¬∃ b ∈ t.children c, Under t.children b c := by
      rintro ⟨b, hb, hu⟩
      exact h.forest.not_under hb hu
    have hload₀ : load m₀ c = .ok cell := by
      rw [← hload, load, load, hsame c hc c .refl]
    have hload₁ : load (cleared t m₀ (t.children c)) c = .ok cell := by
      rw [← hload₀, load, load, cleared_out hself]
    have hfreedc : ∀ x, Under t.children c x →
        Function.update (cleared t m₀ (t.children c)) c none x = none := by
      intro x hx
      by_cases hxc : x = c
      · rw [hxc, Function.update_self]
      · rw [Function.update_of_ne hxc]
        exact cleared_in (((under_iff t.children c x).mp hx).resolve_left hxc)
    have hkept : ∀ x, ¬Under t.children c x →
        Function.update (cleared t m₀ (t.children c)) c none x = m₀ x := by
      intro x hx
      have hnot := fun hor => hx ((under_iff t.children c x).mpr hor)
      rw [Function.update_of_ne fun hxc => hnot (.inl hxc)]
      exact cleared_out fun hex => hnot (.inr hex)
    have hother : ∀ b ∈ l, ∀ x, Under t.children b x → ¬Under t.children c x := by
      intro b hb x hbx hcx
      have hbc := hapart c hc b (List.mem_cons_of_mem c hb) x hcx hbx
      exact hcl (hbc ▸ hb)
    obtain ⟨enough', freed', hdelete', hnodup', hfreed'⟩ := ih hseg.2.2 hl
      (fun b hb => hlive b (List.mem_cons_of_mem c hb))
      (fun a ha b hb => hapart a (List.mem_cons_of_mem c ha) b (List.mem_cons_of_mem c hb))
      (fun b hb => hbelow b (List.mem_cons_of_mem c hb))
      (Function.update (cleared t m₀ (t.children c)) c none) (fun b hb x hbx => by
        rw [hkept x (hother b hb x hbx)]
        exact hsame b (List.mem_cons_of_mem c hb) x hbx)
    refine ⟨max enough enough'+1, freed ++ c :: freed', fun fuel hf => ?_, ?_, fun x => ?_⟩
    · obtain ⟨fuel, rfl⟩ := Nat.exists_eq_add_one_of_ne_zero (Nat.ne_zero_of_lt hf)
      have hdel := hdelete fuel (by omega)
      have hdel' := hdelete' fuel (by omega)
      rw [List.head?_cons, deleteItems, hload₀, ok_bind, howned, hchild, h.family.head_eq c]
      simp only [Bool.false_eq_true, if_false, hdel, ok_bind, hload₁, hnext, hdel']
      congr 2
      funext x
      by_cases hcx : Under t.children c x
      · rw [cleared_in ⟨c, hc, hcx⟩]
        by_cases hlx : ∃ b ∈ l, Under t.children b x
        · rw [cleared_in hlx]
        · rw [cleared_out hlx, hfreedc x hcx]
      · by_cases hlx : ∃ b ∈ l, Under t.children b x
        · obtain ⟨b, hb, hbx⟩ := hlx
          rw [cleared_in ⟨b, hb, hbx⟩, cleared_in ⟨b, List.mem_cons_of_mem c hb, hbx⟩]
        · rw [cleared_out hlx, hkept x hcx, cleared_out]
          rintro ⟨b, hb, hbx⟩
          rcases List.mem_cons.mp hb with rfl | hb
          · exact hcx hbx
          · exact hlx ⟨b, hb, hbx⟩
    · have hcfreed : c ∉ freed := fun hmem => hself ((hfreed c).mp hmem)
      have hcfreed' : c ∉ freed' := by
        intro hmem
        obtain ⟨b, hb, hbc⟩ := (hfreed' c).mp hmem
        exact hother b hb c hbc .refl
      rw [List.nodup_middle, List.nodup_cons, List.mem_append, not_or]
      refine ⟨⟨hcfreed, hcfreed'⟩, List.nodup_append.mpr ⟨hnodup, hnodup', ?_⟩⟩
      intro x hx y hy hxy
      obtain ⟨b, hb, hbx⟩ := (hfreed x).mp hx
      obtain ⟨b', hb', hbx'⟩ := (hfreed' y).mp hy
      refine hother b' hb' y hbx' ?_
      rw [← hxy]
      exact (under_iff t.children c x).mpr (.inr ⟨b, hb, hbx⟩)
    · rw [List.mem_append, List.mem_cons, hfreed x, hfreed' x]
      rw [List.exists_mem_cons_iff, under_iff t.children c x, or_left_comm, or_assoc]

theorem deletes_root (h : Represents m t) (hlive : (t.data c).isSome)
    (hroot : ∀ a, c ∉ t.children a) : Deletes t m [c] := by
  have hbelow : ∀ c, ∀ m₀ : Memory D, (∀ x, Under t.children c x → m₀ x = m x) →
      Deletes t m₀ (t.children c) := by
    intro c
    induction c using h.forest.acyclic.induction with
    | _ c ih =>
      intro m₀ hsame
      refine deletes_list h (h.family.seg c) (h.forest.nodup c) (h.live c)
        (fun a ha b hb x => h.forest.siblings ha hb) (fun b hb => ih b hb) m₀ ?_
      intro b hb x hbx
      exact hsame x ((under_iff t.children c x).mpr (.inr ⟨b, hb, hbx⟩))
  obtain ⟨hprev, hnext⟩ := h.loose c hroot
  have hseg : Seg (links m) none [c] none := ⟨hprev, hnext, trivial⟩
  refine deletes_list h hseg (List.nodup_singleton c) ?_ ?_
    (fun c _ => hbelow c) m fun _ _ _ _ => rfl
  · intro b hb
    rw [List.mem_singleton.mp hb]
    exact hlive
  · intro a ha b hb x _ _
    rw [List.mem_singleton.mp ha, List.mem_singleton.mp hb]

open scoped Classical in
noncomputable def Tree.delete (t : Tree D) (c : ℕ) : Tree D where
  children x := if Under t.children c x then [] else t.children x
  data x := if Under t.children c x then none else t.data x

theorem cleared_root_in (h : Under t.children c x) : cleared t m [c] x = none :=
  cleared_in ⟨c, List.mem_singleton_self c, h⟩

theorem cleared_root_out (h : ¬Under t.children c x) : cleared t m [c] x = m x := by
  refine cleared_out ?_
  rintro ⟨b, hb, hu⟩
  exact h (List.mem_singleton.mp hb ▸ hu)

/-- What is left after `cJSON_Delete` of a root is the rest of the forest. -/
theorem Represents.deleted (h : Represents m t) (hroot : ∀ a, c ∉ t.children a) :
    Represents (cleared t m [c]) (t.delete c) := by
  have hin {x : ℕ} (hx : Under t.children c x) : (t.delete c).children x = [] := if_pos hx
  have hout {x : ℕ} (hx : ¬Under t.children c x) : (t.delete c).children x = t.children x :=
    if_neg hx
  have hsub : ∀ x, ∀ b ∈ (t.delete c).children x, b ∈ t.children x ∧ ¬Under t.children c b := by
    intro x b hb
    by_cases hx : Under t.children c x
    · rw [hin hx] at hb
      exact absurd hb List.not_mem_nil
    · rw [hout hx] at hb
      refine ⟨hb, fun hcb => ?_⟩
      rcases Relation.ReflTransGen.cases_tail hcb with rfl | ⟨y, hcy, hyb⟩
      · exact hroot x hb
      · exact hx (h.forest.parent hb hyb ▸ hcy)
  have hnodup : ∀ x, ((t.delete c).children x).Nodup := by
    intro x
    by_cases hx : Under t.children c x
    · rw [hin hx]
      exact List.nodup_nil
    · rw [hout hx]
      exact h.forest.nodup x
  have hforest : Forest (t.delete c).children :=
    h.forest.sub (fun x b hb => (hsub x b hb).1) hnodup
  have hlinks {x : ℕ} (hx : ¬Under t.children c x) :
      (links (cleared t m [c])).prev x = (links m).prev x ∧
        (links (cleared t m [c])).next x = (links m).next x := by
    simp [links, cleared_root_out hx]
  have hdatain {x : ℕ} (hx : Under t.children c x) : (t.delete c).data x = none := if_pos hx
  have hdataout {x : ℕ} (hx : ¬Under t.children c x) : (t.delete c).data x = t.data x := if_neg hx
  refine ⟨?_, ⟨fun x => ?_, fun x => ?_, hnodup, fun x y hxy b hb hb' => ?_⟩, hforest, ?_, ?_, ?_⟩
  · funext x
    by_cases hx : Under t.children c x
    · rw [Json.data, cleared_root_in hx, hdatain hx]
      rfl
    · rw [Json.data, cleared_root_out hx, hdataout hx, ← h.data]
      rfl
  · by_cases hx : Under t.children c x
    · rw [hin hx]
      trivial
    · have hseg := h.family.seg x
      rw [← hout hx] at hseg
      exact hseg.congr (fun b hb => (hlinks (hsub x b hb).2).1) fun b hb => (hlinks (hsub x b hb).2).2
  · by_cases hx : Under t.children c x
    · rw [hin hx, child, cleared_root_in hx]
      rfl
    · rw [hout hx, child, cleared_root_out hx]
      exact h.family.head_eq x
  · exact hxy (hforest.parent hb hb')
  · intro a b hb
    obtain ⟨hmem, hnot⟩ := hsub a b hb
    rw [hdataout hnot]
    exact h.live a b hmem
  · intro b hb
    by_cases hx : Under t.children c b
    · simp [links, cleared_root_in hx]
    · rw [(hlinks hx).1, (hlinks hx).2]
      refine h.loose b fun a hab => hb a ?_
      have ha : ¬Under t.children c a := fun hca => hx (hca.tail hab)
      rw [hout ha]
      exact hab
  · intro a d ha
    by_cases hx : Under t.children c a
    · rw [hdatain hx] at ha
      exact absurd ha.symm (Option.some_ne_none d)
    · rw [hdataout hx] at ha
      exact h.owned a d ha

end Deletes

section Replaces

variable {D : Type} {m : Memory D} {t : Tree D} {a i c : ℕ}

noncomputable def Tree.replace (t : Tree D) (a which i : ℕ) : Tree D :=
  match (t.children a)[which]? with
  | none => t
  | some c => Tree.delete { t with
      children := Function.update t.children a ((t.children a).set which i) } c

theorem replaced_root (h : Represents m t) (hadd : Addable t a i) {which : ℕ}
    (hk : (t.children a)[which]? = some c) (x : ℕ) :
    c ∉ Function.update t.children a ((t.children a).set which i) x := by
  have hc : c ∈ t.children a := List.mem_of_getElem? hk
  intro hx
  by_cases hxa : x = a
  · rw [hxa, Function.update_self] at hx
    obtain ⟨hlt, hget⟩ := List.getElem?_eq_some_iff.mp hk
    obtain ⟨j, hj, hjc⟩ := List.getElem_of_mem hx
    rw [List.length_set] at hj
    rw [List.getElem_set] at hjc
    split at hjc
    · exact hadd.root a (hjc ▸ hc)
    · next hne =>
      have heq : which = j := (h.forest.nodup a).getElem_inj_iff.mp (hget.trans hjc.symm)
      exact hne heq
  · rw [Function.update_of_ne hxa] at hx
    exact hxa (h.forest.parent hx hc)

theorem replaceItemInArray_some (h : Represents m t) (hadd : Addable t a i) {which : ℤ}
    (hk : (t.children a)[which.toNat]? = some c) :
    ∃ enough m', (∀ fuel, enough ≤ fuel → replaceItemInArray m fuel a which i = .ok m') ∧
      Represents m' (Tree.delete { t with
        children := Function.update t.children a ((t.children a).set which.toNat i) } c) := by
  have hc : c ∈ t.children a := List.mem_of_getElem? hk
  have hcl : (data m c).isSome := h.data ▸ h.live a c hc
  have hil : (data m i).isSome := h.data ▸ hadd.item
  have hal : (data m a).isSome := h.data ▸ hadd.array
  have hprevi : (links m).prev c ≠ some i := fun hp => hadd.root a (h.prev_live hc hp).1
  have hnexti : (links m).next c ≠ some i := fun hn => hadd.root a (h.next_live hc hn).1
  obtain ⟨first, hfirst, -, -, hchild, -⟩ := load_live hal
  have hnth := nthItem_seg (h.family.seg a) (fun x hx => h.memory hx) which.toNat
  obtain ⟨cell, hcell, hnextc, -, -, -⟩ := load_live hcl
  obtain ⟨m₁, hm₁, hprev₁, hnext₁, hchild₁, hdata₁⟩ := setNext_spec hil ((links m).next c)
  obtain ⟨cell₁, hcell₁, -, hprevc₁, -, -⟩ := load_live (m := m₁) (hdata₁ ▸ hcl)
  rw [hprev₁] at hprevc₁
  obtain ⟨m₂, hm₂, hprev₂, hnext₂, hchild₂, hdata₂⟩ :=
    setPrev_spec (m := m₁) (hdata₁ ▸ hil) ((links m).prev c)
  have hdata' : data m₂ = data m := hdata₂.trans hdata₁
  obtain ⟨new₂, hnew₂, hnextn₂, -, -, -⟩ := load_live (m := m₂) (hdata' ▸ hil)
  rw [hnext₂, hnext₁, Function.update_self] at hnextn₂
  obtain ⟨m₃, hm₃, hprev₃, hnext₃, hchild₃, hdata₃⟩ := through_setPrev_spec (m := m₂)
    (fun n hn => hdata' ▸ (h.next_live hc hn).2) (some i)
  rw [hdata'] at hdata₃
  obtain ⟨first₃, hfirst₃, -, -, hchildf, -⟩ := load_live (m := m₃) (hdata₃ ▸ hal)
  rw [hchild₃, hchild₂, hchild₁] at hchildf
  obtain ⟨new₃, hnew₃, -, hprevn₃, -, -⟩ := load_live (m := m₃) (hdata₃ ▸ hil)
  rw [hprev₃, if_neg hnexti, hprev₂, Function.update_self] at hprevn₃
  -- the first item is replaced at its parent, another one at the item before it
  obtain ⟨m₄, hm₄, hprev₄, hnext₄, hchild₄, hdata₄⟩ : ∃ m₄,
      (if some c = child m a then setChild m₃ a (some i) else do
        let new ← load m₃ i
        let prev ← deref new.prev
        setNext m₃ prev (some i)) = .ok m₄ ∧ (links m₄).prev = (links m₃).prev ∧
          (∀ x, (links m₄).next x =
            if (links m).prev c = some x then some i else (links m₃).next x) ∧
              (∀ x, child m₄ x = if x = a ∧ some c = child m a then some i else child m x) ∧
                data m₄ = data m := by
    have hfirst := h.family.prev_eq_none_iff hc
    cases hp : (links m).prev c with
    | none =>
      obtain ⟨m₄, hm₄, hprev₄, hnext₄, hchild₄, hdata₄⟩ :=
        setChild_spec (m := m₃) (hdata₃ ▸ hal) (some i)
      rw [if_pos (hfirst.mp hp).symm]
      refine ⟨m₄, hm₄, hprev₄, fun x => ?_, fun x => ?_, hdata₄.trans hdata₃⟩
      · rw [hnext₄, if_neg (Option.some_ne_none x).symm]
      · simp [hchild₄, hchild₃, hchild₂, hchild₁, hfirst.mp hp, Function.update_apply]
    | some p =>
      have hne : ¬some c = child m a := fun heq => by
        rw [hfirst.mpr heq.symm] at hp
        exact Option.some_ne_none p hp.symm
      obtain ⟨m₄, hm₄, hprev₄, hnext₄, hchild₄, hdata₄⟩ :=
        setNext_spec (m := m₃) (hdata₃ ▸ (h.prev_live hc hp).2) (some i)
      rw [if_neg hne]
      refine ⟨m₄, ?_, hprev₄, fun x => ?_, fun x => ?_, hdata₄.trans hdata₃⟩
      · rw [hnew₃, ok_bind, hprevn₃, hp, deref_some, ok_bind, hm₄]
      · rw [hnext₄, Function.update_apply]
        simp only [Option.some_inj, eq_comm]
      · simp [hchild₄, hchild₃, hchild₂, hchild₁, hne]
  obtain ⟨m₅, hm₅, hprev₅, hnext₅, hchild₅, hdata₅⟩ := setPrev_spec (m := m₄) (hdata₄ ▸ hcl) none
  obtain ⟨m₆, hm₆, hprev₆, hnext₆, hchild₆, hdata₆⟩ :=
    setNext_spec (m := m₅) (hdata₅ ▸ hdata₄ ▸ hcl) none
  have hrep := replaced h hadd hk (show data m₆ = data m from hdata₆.trans (hdata₅.trans hdata₄))
    (fun x => ?_) (fun x => ?_) fun x => ?_
  · obtain ⟨enough, freed, hdelete, -, -⟩ :=
      deletes_root hrep (h.live a c hc) (replaced_root h hadd hk)
    refine ⟨enough, _, fun fuel hf => ?_, hrep.deleted (replaced_root h hadd hk)⟩
    have hdel := hdelete fuel hf
    rw [List.head?_singleton] at hdel
    rw [replaceItemInArray, hfirst, ok_bind, hchild, h.family.head_eq a, hnth, hk]
    simp only [ok_bind, hcell, hnextc, hm₁, hcell₁, hprevc₁, hm₂, hnew₂, hnextn₂, hm₃, hfirst₃,
      hchildf, hm₄, hm₅, hm₆, hdel]
  · rw [hnext₆, Function.update_apply, hnext₅, hnext₄, hnext₃, hnext₂, hnext₁,
      Function.update_apply]
    by_cases hxi : x = i
    · rw [hxi, if_neg hprevi, if_pos rfl, if_pos rfl]
    · rw [if_neg hxi, if_neg hxi]
  · rw [hprev₆, hprev₅, Function.update_apply, hprev₄, hprev₃, hprev₂, hprev₁,
      Function.update_apply]
    by_cases hxi : x = i
    · rw [hxi, if_neg hnexti, if_pos rfl, if_pos rfl]
    · rw [if_neg hxi, if_neg hxi]
  · rw [hchild₆, hchild₅, hchild₄]

/-- `cJSON_ReplaceItemInArray` deletes the item at a position, if there is one, in favour of a
root. -/
theorem replaceItemInArray_spec (h : Represents m t) (hadd : Addable t a i) (which : ℤ) :
    ∃ enough m', (∀ fuel, enough ≤ fuel → replaceItemInArray m fuel a which i = .ok m') ∧
      Represents m' (t.replace a which.toNat i) := by
  rw [Tree.replace]
  cases hk : (t.children a)[which.toNat]? with
  | some c => exact replaceItemInArray_some h hadd hk
  | none =>
    obtain ⟨first, hfirst, -, -, hchild, -⟩ := load_live (m := m) (c := a) (h.data ▸ hadd.array)
    have hnth := nthItem_seg (h.family.seg a) (fun x hx => h.memory hx) which.toNat
    refine ⟨0, m, fun fuel _ => ?_, h⟩
    rw [replaceItemInArray, hfirst, ok_bind, hchild, h.family.head_eq a, hnth, hk]
    rfl

end Replaces

end CLearning.Json
