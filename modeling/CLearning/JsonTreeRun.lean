import CLearning.JsonTree

/-!
# Runs of calls on cJSON trees

Any sequence of calls that create, look up, add, detach, replace and delete
items does to the memory what it does to a forest of lists of children, as
long as only roots are added or deleted, none is added to a tree of its own,
and none under its own name, which the call frees first.
-/

set_option autoImplicit false

namespace CLearning.Json
open CLearning.Machine CLearning.LinkedLists CLearning.ChildLists

section Source

variable {D : Type}

/-- What is passed as a name: null, a text of the caller's, or `item->string`. -/
inductive Name where
  | null
  | text (s : Text)
  | ofItem (item : ℕ)

/-- The calls; those that copy a name are given the block of the copy, none if it was refused. -/
inductive Op (D : Type) where
  | create (item : ℕ) (d : Data D)
  | getArrayItem (array : ℕ) (which : ℤ)
  | getObjectItem (object : ℕ) (string : Name)
  | addItemToArray (array item : ℕ)
  | addItemToObject (object : ℕ) (string : Name) (block : Option ℕ) (item : ℕ)
  | detachItemFromArray (array : ℕ) (which : ℤ)
  | detachItemFromObject (object : ℕ) (string : Name)
  | replaceItemInArray (array : ℕ) (which : ℤ) (newitem : ℕ)
  | replaceItemInObject (object : ℕ) (string : Name) (block : Option ℕ) (newitem : ℕ)
  | delete (item : ℕ)

def nameOf (d : Data D) : Chars := d.string.map fun s => (some s.1, s.2)

def Name.chars (m : Memory D) : Name → Run Chars
  | .null => .ok none
  | .text s => .ok (some (none, s))
  | .ofItem item => do
    let cell ← load m item
    .ok (nameOf cell.data)

def getArrayItem (m : Memory D) (array : ℕ) (item : ℤ) : Run (Option ℕ) := do
  let cell ← load m array
  nthItem m item.toNat cell.child

def getObjectItem (m : Memory D) (fuel object : ℕ) (string : Chars) : Run (Option ℕ) := do
  let (c, _) ← findObjectItem m fuel object string
  .ok c

/-- `cJSON_ReplaceItemInObject`: here the old name of `newitem` is not freed. -/
def replaceItemInObject (m : Memory D) (fuel object : ℕ) (string : Chars) (block : Option ℕ)
    (newitem : ℕ) : Run (Memory D) := do
  let (c, i) ← findObjectItem m fuel object string
  let i ← intSize i
  match c with
  | none => .ok m
  | some _ => do
    let copy ← strdupChars string none block
    let m ← setString m newitem copy
    replaceItemInArray m fuel object i newitem

def call (m : Memory D) (fuel : ℕ) : Op D → Run (Memory D × Option ℕ)
  | .create item d => .ok (Function.update m item (some ⟨none, none, none, d⟩), some item)
  | .getArrayItem array which => do
    let c ← getArrayItem m array which
    .ok (m, c)
  | .getObjectItem object string => do
    let string ← string.chars m
    let c ← getObjectItem m fuel object string
    .ok (m, c)
  | .addItemToArray array item => do
    let m ← addItemToArray m fuel array (some item)
    .ok (m, none)
  | .addItemToObject object string block item => do
    let string ← string.chars m
    let m ← addItemToObject m fuel object string block (some item)
    .ok (m, none)
  | .detachItemFromArray array which => detachItemFromArray m array which
  | .detachItemFromObject object string => do
    let string ← string.chars m
    detachItemFromObject m fuel object string
  | .replaceItemInArray array which newitem => do
    let m ← replaceItemInArray m fuel array which newitem
    .ok (m, none)
  | .replaceItemInObject object string block newitem => do
    let string ← string.chars m
    let m ← replaceItemInObject m fuel object string block newitem
    .ok (m, none)
  | .delete item => do
    let (m, _) ← deleteItems fuel m (some item)
    .ok (m, none)

def calls (fuel : ℕ) : Memory D → List (Op D) → Run (Memory D × List (Option ℕ))
  | m, [] => .ok (m, [])
  | m, op :: ops => do
    let (m, r) ← call m fuel op
    let (m, rs) ← calls fuel m ops
    .ok (m, r :: rs)

end Source

section Forests

variable {D : Type}

namespace Tree

variable (t : Tree D)

/-- What a name stands for, null if it is null or the item has none. -/
def chars : Name → Chars
  | .null => none
  | .text s => some (none, s)
  | .ofItem item => (t.data item).bind nameOf

def copied (string : Name) (block : Option ℕ) : Option Str :=
  (t.chars string).bind fun s => block.map fun block => (block, cut s.2)

/-- The position of the first child of that name, the number of children if there is none. -/
def find (object : ℕ) (string : Name) : ℕ :=
  (t.children object).findIdx fun c =>
    strcasecmp (((t.data c).bind Data.string).map Prod.snd) ((t.chars string).map Prod.snd)

def create (item : ℕ) (d : Data D) : Tree D :=
  { t with data := Function.update t.data item (some d) }

def rename (item : ℕ) (copy : Option Str) : Tree D :=
  { t with
    data := Function.update t.data item ((t.data item).map fun d => { d with string := copy }) }

def add (array item : ℕ) : Tree D :=
  { t with children := Function.update t.children array (t.children array ++ [item]) }

def detach (array which : ℕ) : Tree D :=
  { t with children := Function.update t.children array ((t.children array).eraseIdx which) }

noncomputable def apply : Op D → Tree D × Option ℕ
  | .create item d => (t.create item d, some item)
  | .getArrayItem array which => (t, (t.children array)[which.toNat]?)
  | .getObjectItem object string => (t, (t.children object)[t.find object string]?)
  | .addItemToArray array item => (t.add array item, none)
  | .addItemToObject object string block item =>
    ((t.rename item (t.copied string block)).add object item, none)
  | .detachItemFromArray array which =>
    (t.detach array which.toNat, (t.children array)[which.toNat]?)
  | .detachItemFromObject object string =>
    (t.detach object (t.find object string), (t.children object)[t.find object string]?)
  | .replaceItemInArray array which newitem => (t.replace array which.toNat newitem, none)
  | .replaceItemInObject object string block newitem =>
    (if t.find object string < (t.children object).length then
      (t.rename newitem (t.copied string block)).replace object (t.find object string) newitem
      else t, none)
  | .delete item => (t.delete item, none)

def Holds (a n : ℕ) : Prop := ∃ d s, t.data a = some d ∧ d.string = some (n, s)

/-- No two items have their names in one block. -/
def Owns : Prop := ∀ a b n, t.Holds a n → t.Holds b n → a = b

def Readable : Name → Prop
  | .null => True
  | .text _ => True
  | .ofItem item => (t.data item).isSome

structure Copyable (string : Name) (block : Option ℕ) (item : ℕ) : Prop where
  readable : t.Readable string
  text : (t.chars string).isSome
  fresh : ∀ n a, block = some n → t.Holds a n → a = item

/-- What the caller answers for: the items are live, `malloc` gives out what is free, what is
added or deleted is a root, not above the place it is added to, a name that is copied is not
null, nor the one that the call frees, and the position of a name is an `int`. -/
def Legal : Op D → Prop
  | .create item d =>
    t.data item = none ∧ d.isReference = false ∧ ∀ n s, d.string = some (n, s) → ∀ a, ¬t.Holds a n
  | .getArrayItem array _ => (t.data array).isSome
  | .getObjectItem object string => (t.data object).isSome ∧ t.Readable string
  | .addItemToArray array item => Addable t array item
  | .addItemToObject object string block item =>
    Addable t object item ∧ t.Copyable string block item ∧ string ≠ .ofItem item
  | .detachItemFromArray array _ => (t.data array).isSome
  | .detachItemFromObject object string =>
    (t.data object).isSome ∧ t.Readable string ∧ (t.children object).length < 2^31
  | .replaceItemInArray array _ newitem => Addable t array newitem
  | .replaceItemInObject object string block newitem =>
    Addable t object newitem ∧ t.Copyable string block newitem ∧
      (t.children object).length < 2^31
  | .delete item => (t.data item).isSome ∧ ∀ x, item ∉ t.children x

noncomputable def applyAll (t : Tree D) : List (Op D) → Tree D × List (Option ℕ)
  | [] => (t, [])
  | op :: ops => (((t.apply op).1.applyAll ops).1, (t.apply op).2 :: ((t.apply op).1.applyAll ops).2)

def LegalAll (t : Tree D) : List (Op D) → Prop
  | [] => True
  | op :: ops => t.Legal op ∧ (t.apply op).1.LegalAll ops

end Tree

variable {m m' : Memory D} {t : Tree D} {a b i c : ℕ}

/-- With enough fuel the call does to the memory what it does to the forest. -/
def Refines (m : Memory D) (t : Tree D) (op : Op D) : Prop :=
  ∃ enough m', (∀ fuel, enough ≤ fuel → call m fuel op = .ok (m', (t.apply op).2)) ∧
    Represents m' (t.apply op).1

theorem Represents.dead (h : Represents m t) (hb : t.data b = none) :
    m b = none ∧ t.children b = [] ∧ ∀ a, b ∉ t.children a := by
  have hm : m b = none := by
    have hdata := congrFun h.data b
    rw [hb, Json.data, Option.map_eq_none_iff] at hdata
    exact hdata
  refine ⟨hm, ?_, fun a hba => ?_⟩
  · have hhead := h.family.head_eq b
    rw [child, hm, Option.bind_none] at hhead
    exact List.head?_eq_none_iff.mp hhead.symm
  · have hlive := h.live a b hba
    rw [hb] at hlive
    exact Bool.false_ne_true hlive

theorem refines_create {d : Data D} (h : Represents m t) (hdead : t.data b = none)
    (hown : d.isReference = false) : Refines m t (.create b d) := by
  obtain ⟨hm, hnil, hfree⟩ := h.dead hdead
  refine ⟨0, _, fun fuel _ => rfl, ?_⟩
  have hcell {x : ℕ} (hx : x ≠ b) :
      Function.update m b (some ⟨none, none, none, d⟩) x = m x := Function.update_of_ne hx _ _
  have hmem {a x : ℕ} (hx : x ∈ t.children a) : x ≠ b := fun heq => hfree a (heq ▸ hx)
  refine ⟨?_, h.family.congr (fun x => ?_) (fun a x hx => ?_) fun a x hx => ?_, h.forest, ?_, ?_, ?_⟩
  · funext x
    by_cases hx : x = b
    · simp [Json.data, Tree.apply, Tree.create, hx]
    · have hdata := congrFun h.data x
      simpa [Json.data, Tree.apply, Tree.create, hx] using hdata
  · by_cases hx : x = b
    · simp [child, hx, hm]
    · simp [child, hcell hx]
  · simp [links, hcell (hmem hx)]
  · simp [links, hcell (hmem hx)]
  · intro a x hx
    have hlive := h.live a x hx
    simpa [Tree.apply, Tree.create, hmem hx] using hlive
  · intro x hx
    by_cases hxb : x = b
    · simp [links, hxb]
    · have hloose := h.loose x hx
      simpa [links, hcell hxb] using hloose
  · intro a d' ha
    by_cases hab : a = b
    · simp only [Tree.apply, Tree.create, hab, Function.update_self, Option.some_inj] at ha
      rw [← ha]
      exact hown
    · simp only [Tree.apply, Tree.create, Function.update_of_ne hab] at ha
      exact h.owned a d' ha

/-- A store of a name changes what the item holds and no link. -/
theorem setString_spec (h : Represents m t) (hi : (t.data i).isSome) (copy : Option Str) :
    ∃ m', setString m i copy = .ok m' ∧ Represents m' (t.rename i copy) := by
  have hlive : (Json.data m i).isSome := h.data ▸ hi
  rw [Json.data, Option.isSome_map] at hlive
  obtain ⟨cell, hc⟩ := Option.isSome_iff_exists.mp hlive
  refine ⟨_, write_of hc _, ?_⟩
  have hrename : (t.rename i copy).data = Function.update t.data i
      ((t.data i).map fun d => { d with string := copy }) := rfl
  have hcelli : t.data i = some cell.data := by
    rw [← h.data, Json.data, hc]
    rfl
  have hsome {x : ℕ} (hx : (t.data x).isSome) : ((t.rename i copy).data x).isSome := by
    by_cases hxi : x = i
    · simp [hrename, hxi, hcelli]
    · simpa [hrename, hxi] using hx
  refine ⟨?_, h.family.congr (fun x => ?_) (fun a x _ => ?_) fun a x _ => ?_, h.forest, ?_, ?_, ?_⟩
  · funext x
    by_cases hxi : x = i
    · simp [Json.data, hrename, hxi, hcelli]
    · have hdata := congrFun h.data x
      simpa [Json.data, hrename, hxi] using hdata
  · by_cases hxi : x = i
    · simp [child, hxi, hc]
    · simp [child, hxi]
  · by_cases hxi : x = i
    · simp [links, hxi, hc]
    · simp [links, hxi]
  · by_cases hxi : x = i
    · simp [links, hxi, hc]
    · simp [links, hxi]
  · exact fun a x hx => hsome (h.live a x hx)
  · intro x hx
    have hloose := h.loose x hx
    by_cases hxi : x = i
    · rw [hxi] at hloose ⊢
      simpa [links, hc] using hloose
    · simpa [links, hxi] using hloose
  · intro a d ha
    by_cases hai : a = i
    · rw [hrename, hai, Function.update_self, hcelli] at ha
      rw [← Option.some_inj.mp ha]
      exact h.owned i cell.data hcelli
    · rw [hrename, Function.update_of_ne hai] at ha
      exact h.owned a d ha

theorem chars_spec (h : Represents m t) {string : Name} (hr : t.Readable string) :
    string.chars m = .ok (t.chars string) := by
  cases string with
  | null => rfl
  | text s => rfl
  | ofItem item =>
    obtain ⟨cell, hload, -, -, -, hcell⟩ := load_live (m := m) (c := item) (h.data ▸ hr)
    rw [h.data] at hcell
    rw [Name.chars, hload, ok_bind, Tree.chars, hcell, Option.bind_some]

theorem Tree.chars_holds {string : Name} {n : ℕ} {s : Text} (h : t.chars string = some (some n, s)) :
    ∃ x, string = .ofItem x ∧ t.Holds x n := by
  cases string with
  | null => exact absurd h (by simp [Tree.chars])
  | text s' => exact absurd h (by simp [Tree.chars])
  | ofItem x =>
    obtain ⟨d, hd, hname⟩ := Option.bind_eq_some_iff.mp h
    obtain ⟨⟨n', s'⟩, hs, heq⟩ := Option.map_eq_some_iff.mp hname
    obtain ⟨hn, rfl⟩ := Prod.ext_iff.mp heq
    obtain rfl : n' = n := Option.some_inj.mp hn
    exact ⟨x, rfl, d, s', hd, hs⟩

theorem strdupChars_spec {string : Name} {freed block : Option ℕ} (hs : (t.chars string).isSome)
    (hfreed : ∀ n s, t.chars string = some (some n, s) → freed ≠ some n) :
    strdupChars (t.chars string) freed block = .ok (t.copied string block) := by
  obtain ⟨⟨home, s⟩, hchars⟩ := Option.isSome_iff_exists.mp hs
  have hread : ¬(home.isSome ∧ home = freed) := by
    rintro ⟨hhome, heq⟩
    obtain ⟨n, rfl⟩ := Option.isSome_iff_exists.mp hhome
    exact hfreed n s hchars heq.symm
  rw [strdupChars, Tree.copied, hchars]
  exact if_neg hread

theorem findIdx_named (h : Represents m t) (a : ℕ) (string : Name) :
    (t.children a).findIdx (Named m ((t.chars string).map Prod.snd)) = t.find a string := by
  have hnamed : Named m ((t.chars string).map Prod.snd) = fun c =>
      strcasecmp (((t.data c).bind Data.string).map Prod.snd) ((t.chars string).map Prod.snd) := by
    funext c
    rw [Named, h.data]
  rw [Tree.find, hnamed]

theorem findObjectItem_spec (h : Represents m t) (ha : (t.data a).isSome) (string : Name) (fuel : ℕ)
    (hf : (t.children a).length ≤ fuel) : findObjectItem m fuel a (t.chars string) =
      .ok ((t.children a)[t.find a string]?, t.find a string) := by
  obtain ⟨first, hfirst, -, -, hchild, -⟩ := load_live (m := m) (c := a) (h.data ▸ ha)
  have hnamed : namedItem m ((t.chars string).map Prod.snd) fuel (t.children a).head? 0 = _ :=
    namedItem_seg (h.family.seg a) (fun x hx => h.memory hx) hf
  rw [findObjectItem, hfirst, ok_bind, hchild, h.family.head_eq a, hnamed, findIdx_named h,
    Nat.zero_add]

theorem intSize_find {string : Name} (hlen : (t.children a).length < 2^31) :
    intSize (t.find a string) = .ok (t.find a string) :=
  if_pos (Nat.lt_of_le_of_lt List.findIdx_le_length hlen)

theorem getArrayItem_spec (h : Represents m t) (ha : (t.data a).isSome) (which : ℤ) :
    getArrayItem m a which = .ok (t.children a)[which.toNat]? := by
  obtain ⟨first, hfirst, -, -, hchild, -⟩ := load_live (m := m) (c := a) (h.data ▸ ha)
  have hnth := nthItem_seg (h.family.seg a) (fun x hx => h.memory hx) which.toNat
  rw [getArrayItem, hfirst, ok_bind, hchild, h.family.head_eq a, hnth]

theorem Addable.renamed (hadd : Addable t a i) (copy : Option Str) :
    Addable (t.rename i copy) a i where
  array := by
    by_cases hai : a = i
    · simpa [Tree.rename, hai] using hadd.item
    · simpa [Tree.rename, hai] using hadd.array
  item := by simpa [Tree.rename] using hadd.item
  root := hadd.root
  notAbove := hadd.notAbove

theorem refines_addItemToObject {string : Name} {block : Option ℕ} (h : Represents m t)
    (ho : t.Owns) (hadd : Addable t a i) (hcopy : t.Copyable string block i)
    (hown : string ≠ .ofItem i) : Refines m t (.addItemToObject a string block i) := by
  obtain ⟨cell, hload, -, -, -, hcell⟩ := load_live (m := m) (c := i) (h.data ▸ hadd.item)
  rw [h.data] at hcell
  -- the name is in no block, or in that of another item
  have hfreed : ∀ n s, t.chars string = some (some n, s) →
      cell.data.string.map Prod.fst ≠ some n := by
    intro n s hchars hname
    obtain ⟨x, rfl, hx⟩ := Tree.chars_holds hchars
    obtain ⟨⟨n', s'⟩, hs', rfl⟩ := Option.map_eq_some_iff.mp hname
    exact hown (congrArg Name.ofItem (ho x i _ hx ⟨cell.data, s', hcell, hs'⟩))
  obtain ⟨m₁, hm₁, h₁⟩ := setString_spec h hadd.item (t.copied string block)
  obtain ⟨m', hm', h'⟩ := addItemToArray_spec h₁ (hadd.renamed (t.copied string block))
  refine ⟨(t.children a).length, m', fun fuel hf => ?_, h'⟩
  have hlink := hm' fuel hf
  rw [call, chars_spec h hcopy.readable, ok_bind, addItemToObject, hload, ok_bind,
    strdupChars_spec hcopy.text hfreed, ok_bind, hm₁, ok_bind, hlink]
  rfl

theorem refines_detachItemFromObject {string : Name} (h : Represents m t)
    (ha : (t.data a).isSome) (hr : t.Readable string) (hlen : (t.children a).length < 2^31) :
    Refines m t (.detachItemFromObject a string : Op D) := by
  have hget := fun fuel => findObjectItem_spec h ha string fuel
  by_cases hfound : t.find a string < (t.children a).length
  · obtain ⟨m', hm', h'⟩ := detachItemFromArray_spec h ha (t.find a string)
    refine ⟨(t.children a).length, m', fun fuel hf => ?_, h'⟩
    rw [call, chars_spec h hr, ok_bind, detachItemFromObject, hget fuel hf, ok_bind,
      List.getElem?_eq_getElem hfound]
    simp only [intSize_find hlen, ok_bind]
    exact hm'
  · have hle := Nat.le_of_not_lt hfound
    refine ⟨(t.children a).length, m, fun fuel hf => ?_, ?_⟩
    · rw [call, chars_spec h hr, ok_bind, detachItemFromObject, hget fuel hf, ok_bind, Tree.apply,
        List.getElem?_eq_none hle]
      simp only [intSize_find hlen, ok_bind]
    · rw [Tree.apply, Tree.detach, List.eraseIdx_of_length_le hle, Function.update_eq_self]
      exact h

theorem refines_replaceItemInObject {string : Name} {block : Option ℕ} (h : Represents m t)
    (hadd : Addable t a i) (hcopy : t.Copyable string block i)
    (hlen : (t.children a).length < 2^31) :
    Refines m t (.replaceItemInObject a string block i) := by
  have hget := fun fuel => findObjectItem_spec h hadd.array string fuel
  by_cases hfound : t.find a string < (t.children a).length
  · obtain ⟨m₁, hm₁, h₁⟩ := setString_spec h hadd.item (t.copied string block)
    obtain ⟨enough, m', hm', h'⟩ :=
      replaceItemInArray_spec h₁ (hadd.renamed (t.copied string block)) (t.find a string)
    refine ⟨max enough (t.children a).length, m', fun fuel hf => ?_, ?_⟩
    · have hreplace := hm' fuel (by omega)
      have hcopied : strdupChars (t.chars string) none block = .ok (t.copied string block) :=
        strdupChars_spec hcopy.text fun n _ _ => (Option.some_ne_none n).symm
      rw [call, chars_spec h hcopy.readable, ok_bind, replaceItemInObject, hget fuel (by omega),
        ok_bind, List.getElem?_eq_getElem hfound]
      simp only [intSize_find hlen, hcopied, hm₁, ok_bind, hreplace]
      rfl
    · rw [Tree.apply, if_pos hfound]
      exact h'
  · refine ⟨(t.children a).length, m, fun fuel hf => ?_, ?_⟩
    · rw [call, chars_spec h hcopy.readable, ok_bind, replaceItemInObject, hget fuel hf, ok_bind,
        List.getElem?_eq_none (Nat.le_of_not_lt hfound)]
      simp only [intSize_find hlen, ok_bind]
      rfl
    · rw [Tree.apply, if_neg hfound]
      exact h

/-- Every legal call, with enough fuel, does to the memory what it does to the forest. -/
theorem refines (h : Represents m t) (ho : t.Owns) (op : Op D) (hl : t.Legal op) :
    Refines m t op := by
  cases op with
  | create item d => exact refines_create h hl.1 hl.2.1
  | getArrayItem array which =>
    refine ⟨0, m, fun fuel _ => ?_, h⟩
    rw [call, getArrayItem_spec h hl]
    rfl
  | getObjectItem object string =>
    refine ⟨(t.children object).length, m, fun fuel hf => ?_, h⟩
    rw [call, chars_spec h hl.2, ok_bind, getObjectItem, findObjectItem_spec h hl.1 string fuel hf]
    rfl
  | addItemToArray array item =>
    obtain ⟨m', hm', h'⟩ := addItemToArray_spec h hl
    refine ⟨(t.children array).length, m', fun fuel hf => ?_, h'⟩
    rw [call, hm' fuel hf]
    rfl
  | addItemToObject object string block item =>
    exact refines_addItemToObject h ho hl.1 hl.2.1 hl.2.2
  | detachItemFromArray array which =>
    obtain ⟨m', hm', h'⟩ := detachItemFromArray_spec h hl which
    exact ⟨0, m', fun fuel _ => hm', h'⟩
  | detachItemFromObject object string => exact refines_detachItemFromObject h hl.1 hl.2.1 hl.2.2
  | replaceItemInArray array which newitem =>
    obtain ⟨enough, m', hm', h'⟩ := replaceItemInArray_spec h hl which
    refine ⟨enough, m', fun fuel hf => ?_, h'⟩
    rw [call, hm' fuel hf]
    rfl
  | replaceItemInObject object string block newitem =>
    exact refines_replaceItemInObject h hl.1 hl.2.1 hl.2.2
  | delete item =>
    obtain ⟨enough, freed, hdelete, -, -⟩ := deletes_root h hl.1 hl.2
    refine ⟨enough, _, fun fuel hf => ?_, h.deleted hl.2⟩
    have hdel := hdelete fuel hf
    rw [List.head?_singleton] at hdel
    rw [call, hdel]
    rfl

namespace Tree

theorem Owns.of_holds {t' : Tree D} (ho : t.Owns) (hsub : ∀ x n, t'.Holds x n → t.Holds x n) :
    t'.Owns := fun a b n ha hb => ho a b n (hsub a n ha) (hsub b n hb)

theorem Owns.update {t' : Tree D} {d : Option (Data D)} (ho : t.Owns)
    (ht : t'.data = Function.update t.data i d)
    (hfresh : ∀ d' n s, d = some d' → d'.string = some (n, s) → ∀ a, t.Holds a n → a = i) :
    t'.Owns := by
  have hcases {x n : ℕ} (hx : t'.Holds x n) :
      x = i ∧ (∃ d' s, d = some d' ∧ d'.string = some (n, s)) ∨ x ≠ i ∧ t.Holds x n := by
    obtain ⟨d', s, hd', hs⟩ := hx
    rw [ht] at hd'
    by_cases hxi : x = i
    · rw [hxi, Function.update_self] at hd'
      exact .inl ⟨hxi, d', s, hd', hs⟩
    · rw [Function.update_of_ne hxi] at hd'
      exact .inr ⟨hxi, d', s, hd', hs⟩
  intro a b n ha hb
  rcases hcases ha with ⟨hai, d₁, s₁, hd₁, hs₁⟩ | ⟨hai, ha⟩
  · rcases hcases hb with ⟨hbi, -⟩ | ⟨hbi, hb⟩
    · rw [hai, hbi]
    · exact absurd (hfresh d₁ n s₁ hd₁ hs₁ b hb) hbi
  · rcases hcases hb with ⟨hbi, d₂, s₂, hd₂, hs₂⟩ | ⟨hbi, hb⟩
    · exact absurd (hfresh d₂ n s₂ hd₂ hs₂ a ha) hai
    · exact ho a b n ha hb

theorem Owns.rename {string : Name} {block : Option ℕ} (ho : t.Owns)
    (hcopy : t.Copyable string block i) : (t.rename i (t.copied string block)).Owns := by
  refine ho.update rfl fun d' n s hd' hs a ha => hcopy.fresh n a ?_ ha
  obtain ⟨d, -, rfl⟩ := Option.map_eq_some_iff.mp hd'
  obtain ⟨p, -, hp⟩ := Option.bind_eq_some_iff.mp hs
  obtain ⟨n', rfl, heq⟩ := Option.map_eq_some_iff.mp hp
  exact congrArg some (Prod.ext_iff.mp heq).1

theorem Owns.delete (ho : t.Owns) (c : ℕ) : (t.delete c).Owns := by
  refine ho.of_holds fun x n hx => ?_
  obtain ⟨d, s, hd, hs⟩ := hx
  simp only [Tree.delete] at hd
  by_cases hu : Under t.children c x
  · rw [if_pos hu] at hd
    exact absurd hd.symm (Option.some_ne_none d)
  · rw [if_neg hu] at hd
    exact ⟨d, s, hd, hs⟩

theorem Owns.replace (ho : t.Owns) (a which i : ℕ) : (t.replace a which i).Owns := by
  rw [Tree.replace]
  cases (t.children a)[which]? with
  | none => exact ho
  | some c =>
    have howns : Owns { t with
        children := Function.update t.children a ((t.children a).set which i) } := ho
    exact howns.delete c

theorem Owns.apply (ho : t.Owns) {op : Op D} (hl : t.Legal op) : (t.apply op).1.Owns := by
  cases op with
  | create item d =>
    refine ho.update rfl fun d' n s hd' hs a ha => ?_
    rw [← Option.some_inj.mp hd'] at hs
    exact absurd ha (hl.2.2 n s hs a)
  | getArrayItem array which => exact ho
  | getObjectItem object string => exact ho
  | addItemToArray array item => exact ho
  | addItemToObject object string block item => exact ho.rename hl.2.1
  | detachItemFromArray array which => exact ho
  | detachItemFromObject object string => exact ho
  | replaceItemInArray array which newitem => exact ho.replace _ _ _
  | replaceItemInObject object string block newitem =>
    rw [Tree.apply]
    split
    · exact (ho.rename hl.2.1).replace _ _ _
    · exact ho
  | delete item => exact ho.delete item

end Tree

/-- Any sequence of legal calls does to the memory what it does to the forest, and faults
nowhere: no freed item or name is used again. -/
theorem calls_refine (m : Memory D) (t : Tree D) (h : Represents m t) (ho : t.Owns)
    (ops : List (Op D)) (hl : t.LegalAll ops) :
    ∃ enough m', (∀ fuel, enough ≤ fuel → calls fuel m ops = .ok (m', (t.applyAll ops).2)) ∧
      Represents m' (t.applyAll ops).1 ∧ (t.applyAll ops).1.Owns := by
  induction ops generalizing m t with
  | nil => exact ⟨0, m, fun _ _ => rfl, h, ho⟩
  | cons op ops ih =>
    obtain ⟨enough, m₁, hm₁, h₁⟩ := refines h ho op hl.1
    obtain ⟨enough', m₂, hm₂, h₂⟩ := ih m₁ _ h₁ (ho.apply hl.1) hl.2
    refine ⟨max enough enough', m₂, fun fuel hf => ?_, h₂⟩
    rw [calls, hm₁ fuel (by omega), ok_bind]
    simp only [hm₂ fuel (by omega), ok_bind]
    rfl

def Tree.empty : Tree D := ⟨fun _ => [], fun _ => none⟩

theorem represents_empty : Represents (fun _ => none : Memory D) Tree.empty where
  data := rfl
  family := ⟨fun _ => trivial, fun _ => rfl, fun _ => List.nodup_nil, fun _ _ _ _ h =>
    absurd h List.not_mem_nil⟩
  forest := ⟨fun _ => List.nodup_nil, fun h _ => absurd h List.not_mem_nil,
    ⟨fun a => ⟨a, fun _ h => absurd h List.not_mem_nil⟩⟩⟩
  live := fun _ _ h => absurd h List.not_mem_nil
  loose := fun _ _ => ⟨rfl, rfl⟩
  owned := fun _ d h => absurd h.symm (Option.some_ne_none d)

end Forests

section Sample

/-- An object gets two numbers under one name, the second copied from the first, and loses the
first under the name in capitals. -/
def sampleCalls : List (Op ℤ) :=
  [.create 0 ⟨0, cJSON_Object, none, 0, 0, none⟩, .create 1 ⟨1, cJSON_Number, none, 7, 7, none⟩,
    .create 2 ⟨2, cJSON_Number, none, 8, 8, none⟩, .addItemToObject 0 (.text [97]) (some 3) 1,
    .addItemToObject 0 (.ofItem 1) (some 4) 2, .detachItemFromObject 0 (.text [65]), .delete 1]

theorem calls_refine_sample : ∃ enough m', (∀ fuel, enough ≤ fuel →
    calls fuel (fun _ => none) sampleCalls = .ok (m', (Tree.empty.applyAll sampleCalls).2)) ∧
      Represents m' (Tree.empty.applyAll sampleCalls).1 ∧
        (Tree.empty.applyAll sampleCalls).1.Owns := by
  have hnone (n : ℕ) (s : Text) (h : (none : Option Str) = some (n, s)) {P : Prop} : P :=
    absurd h.symm (Option.some_ne_none _)
  have howns : (Tree.empty : Tree ℤ).Owns := by
    rintro a b n ⟨d, s, hd, -⟩ -
    exact absurd hd.symm (Option.some_ne_none d)
  refine calls_refine _ _ represents_empty howns sampleCalls ?_
  refine ⟨⟨rfl, rfl, fun n s h => hnone n s h⟩, ⟨rfl, rfl, fun n s h => hnone n s h⟩,
    ⟨rfl, rfl, fun n s h => hnone n s h⟩, ⟨⟨rfl, rfl, fun _ => List.not_mem_nil, fun hu => ?_⟩,
      ⟨trivial, rfl, fun n a hn ha => ?_⟩, by simp⟩,
    ⟨⟨rfl, rfl, fun x hx => ?_, fun hu => ?_⟩, ⟨rfl, rfl, fun n a hn ha => ?_⟩, by simp⟩,
    ⟨rfl, trivial, ?_⟩, ⟨rfl, fun x hx => ?_⟩, trivial⟩
  · rcases (under_iff _ 1 0).mp hu with h | ⟨b, hb, -⟩
    · exact absurd h (by decide)
    · exact absurd hb List.not_mem_nil
  · obtain ⟨d, s, hd, hs⟩ := ha
    simp only [Tree.apply, Tree.create, Tree.empty, Function.update_apply] at hd
    split_ifs at hd
    all_goals
      obtain rfl := Option.some_inj.mp hd
      exact hnone n s hs
  · by_cases h0 : x = 0
    · rw [h0] at hx
      exact absurd (List.mem_singleton.mp hx) (by decide)
    · change 2 ∈ (Function.update (fun _ => []) 0 _ : ℕ → List ℕ) x at hx
      rw [Function.update_of_ne h0] at hx
      exact absurd hx List.not_mem_nil
  · rcases (under_iff _ 2 0).mp hu with h | ⟨b, hb, -⟩
    · exact absurd h (by decide)
    · exact absurd hb List.not_mem_nil
  · obtain ⟨d, s, hd, hs⟩ := ha
    obtain rfl := Option.some_inj.mp hn
    by_cases h1 : a = 1
    · rw [h1] at hd
      obtain rfl := Option.some_inj.mp hd
      have hblock : some ((3 : ℕ), [97]) = some (4, s) := hs
      exact absurd (congrArg Prod.fst (Option.some_inj.mp hblock)) (by decide : (3 : ℕ) ≠ 4)
    · simp only [Tree.apply, Tree.create, Tree.add, Tree.rename, Tree.empty, Function.update_apply,
        if_neg h1] at hd
      split_ifs at hd
      all_goals
        obtain rfl := Option.some_inj.mp hd
        exact hnone _ s hs
  · decide
  · by_cases h0 : x = 0
    · rw [h0] at hx
      exact absurd (List.mem_singleton.mp hx) (by decide)
    · change 1 ∈ (Function.update (Function.update (Function.update (fun _ => []) 0 _) 0 _) 0 _ :
        ℕ → List ℕ) x at hx
      rw [Function.update_of_ne h0, Function.update_of_ne h0, Function.update_of_ne h0] at hx
      exact absurd hx List.not_mem_nil

end Sample

end CLearning.Json
