import CLearning.JsonPrinted
import CLearning.JsonTreeRun

/-!
# Arrays made at once

The calls that make an array of numbers or strings keep a pointer to the last
item instead of looking for it. Items are filled at the cell `malloc` gives, none
if it was refused.
-/

set_option autoImplicit false

namespace CLearning.Json
open CLearning.Machine CLearning.LinkedLists CLearning.ChildLists

section Source

variable {D E : Type}

def newItem (m : Memory D) (cell : Option ℕ) (d : ℕ → Data D) : Memory D :=
  match cell with
  | none => m
  | some c => Function.update m c (some ⟨none, none, none, d c⟩)

/-- `suffix_object` of pointers nobody has tested. -/
def suffixPointers (m : Memory D) (prev item : Option ℕ) : Run (Memory D) := do
  let p ← deref prev
  let m ← setNext m p item
  let n ← deref item
  setPrev m n prev

/-- `if (!i) a->child = n; else suffix_object(p, n);` -/
def link (m : Memory D) (a i : ℕ) (p n : Option ℕ) : Run (Memory D) :=
  if i = 0 then setChild m a n else suffixPointers m p n

/-- The loop of the four calls over what is left, each with what `malloc` gives for it. -/
def createItems (make : E → ℕ → Data D) (a : ℕ) :
    Memory D → ℕ → Option ℕ → List (E × Option ℕ) → Run (Memory D)
  | m, _, _, [] => .ok m
  | m, i, p, e :: rest => do
    let m ← link (newItem m e.2 (make e.1)) a i p e.2
    createItems make a m (i+1) e.2 rest

variable [Double D]

def arrayData (block : ℕ) : Data D := { (blank block : Data D) with type := cJSON_Array }

/-- What `cJSON_CreateNumber` fills in. -/
def numberData (num : D) (block : ℕ) : Data D :=
  { (blank block : Data D) with
    type := cJSON_Number, valuedouble := num, valueint := Double.toInt num }

/-- What `cJSON_CreateString` fills in, with the copy `cJSON_strdup` returns. -/
def stringData (copy : Option Str) (block : ℕ) : Data D :=
  { (blank block : Data D) with type := cJSON_String, valuestring := copy }

def createArrayOf (make : E → ℕ → Data D) (m : Memory D) (a : Option ℕ)
    (elements : List (E × Option ℕ)) : Run (Memory D × Option ℕ) :=
  match a with
  | none => .ok (m, none)
  | some c => do
    let m ← createItems make c (newItem m (some c) arrayData) 0 none elements
    .ok (m, some c)

def createIntArray (m : Memory D) (a : Option ℕ) (numbers : List (ℤ × Option ℕ)) :
    Run (Memory D × Option ℕ) :=
  createArrayOf (fun n => numberData (Double.ofInt n)) m a numbers

def createFloatArray (widen : E → D) (m : Memory D) (a : Option ℕ)
    (numbers : List (E × Option ℕ)) : Run (Memory D × Option ℕ) :=
  createArrayOf (fun x => numberData (widen x)) m a numbers

def createDoubleArray (m : Memory D) (a : Option ℕ) (numbers : List (D × Option ℕ)) :
    Run (Memory D × Option ℕ) :=
  createArrayOf numberData m a numbers

def createStringArray (m : Memory D) (a : Option ℕ) (strings : List (Option Str × Option ℕ)) :
    Run (Memory D × Option ℕ) :=
  createArrayOf stringData m a strings

end Source

section Granted

variable {D E : Type} {m m' : Memory D} {t : Tree D} {a c : ℕ}

theorem addItemToArray_link (h : Represents m t) (ha : (t.data a).isSome) {fuel : ℕ}
    (hf : (t.children a).length ≤ fuel) : addItemToArray m fuel a (some c) =
      link m a (t.children a).length (t.children a).getLast? (some c) := by
  obtain ⟨cell, hload, -, -, hchild, -⟩ := load_live (m := m) (c := a) (h.data ▸ ha)
  rw [h.family.head_eq a] at hchild
  rw [addItemToArray, hload, ok_bind, hchild, link]
  cases hl : t.children a with
  | nil => rfl
  | cons b l =>
    have hseg := h.family.seg a
    rw [hl] at hseg hf
    have hlast := lastItem_seg hseg (fun x hx => h.memory (hl ▸ hx)) hf
    rw [List.head?_cons, if_neg (show (b :: l).length ≠ 0 from Nat.succ_ne_zero l.length),
      List.getLast?_eq_getLast_of_ne_nil (List.cons_ne_nil b l)]
    simp only [hlast, ok_bind]
    rfl

def additions (make : E → ℕ → Data D) (a : ℕ) (es : List (E × ℕ)) : List (Op D) :=
  es.flatMap fun e => [.create e.2 (make e.1 e.2), .addItemToArray a e.2]

theorem addable_new (h : Represents m t) (ha : (t.data a).isSome) (hc : t.data c = none)
    (d : Data D) : Addable (t.create c d) a c := by
  obtain ⟨-, hnil, hfree⟩ := h.dead hc
  have hne : a ≠ c := by
    rintro rfl
    rw [hc] at ha
    exact Bool.false_ne_true ha
  refine ⟨?_, by simp [Tree.create], hfree, fun hu => ?_⟩
  · simpa [Tree.create, hne] using ha
  · rcases (under_iff t.children c a).mp hu with heq | ⟨b, hb, -⟩
    · exact hne heq
    · rw [hnil] at hb
      exact absurd hb List.not_mem_nil

/-- Where every item is granted, the loop does what the calls that add the items one by one
do. -/
theorem createItems_adds {make : E → ℕ → Data D}
    (hmake : ∀ e c, (make e c).isReference = false) (es : List (E × ℕ)) (m : Memory D) (t : Tree D)
    (h : Represents m t) (ha : (t.data a).isSome) (hfree : ∀ e ∈ es, t.data e.2 = none)
    (hnodup : (es.map Prod.snd).Nodup) : ∃ enough m',
      createItems make a m (t.children a).length (t.children a).getLast?
        (es.map fun e => (e.1, some e.2)) = .ok m' ∧
      (∀ fuel, enough ≤ fuel → calls fuel m (additions make a es) =
        .ok (m', (t.applyAll (additions make a es)).2)) ∧
      Represents m' (t.applyAll (additions make a es)).1 ∧
      (t.applyAll (additions make a es)).1.children a = t.children a ++ es.map Prod.snd := by
  induction es generalizing m t with
  | nil => exact ⟨0, m, rfl, fun _ _ => rfl, h, (List.append_nil _).symm⟩
  | cons e es ih =>
    have hdead := hfree e List.mem_cons_self
    obtain ⟨enough₁, m₁, hm₁, h₁⟩ := refines_create h hdead (hmake e.1 e.2)
    have hnew : newItem m (some e.2) (make e.1) = m₁ :=
      (Prod.mk.inj (Except.ok.inj (hm₁ _ (Nat.le_refl _)))).1
    have hadd := addable_new h ha hdead (make e.1 e.2)
    obtain ⟨m₂, hm₂, h₂⟩ := addItemToArray_spec h₁ hadd
    have hlink := hm₂ _ (Nat.le_refl _)
    rw [addItemToArray_link h₁ hadd.array (Nat.le_refl _)] at hlink
    obtain ⟨hnotin, hnodup⟩ := List.nodup_cons.mp hnodup
    have hfree₂ : ∀ e' ∈ es, ((t.create e.2 (make e.1 e.2)).add a e.2).data e'.2 = none := by
      intro e' he'
      have hne : e'.2 ≠ e.2 := fun heq => hnotin (heq ▸ List.mem_map_of_mem he')
      exact (Function.update_of_ne hne _ _).trans (hfree e' (List.mem_cons_of_mem e he'))
    have hchildren : ((t.create e.2 (make e.1 e.2)).add a e.2).children a =
        t.children a ++ [e.2] := Function.update_self ..
    obtain ⟨enough, m', hitems, hcalls, hrep, hall⟩ :=
      ih m₂ ((t.create e.2 (make e.1 e.2)).add a e.2) h₂ hadd.array hfree₂ hnodup
    refine ⟨max enough (max enough₁ (t.children a).length), m', ?_, fun fuel hf => ?_, hrep, ?_⟩
    · have hlink' : link m₁ a (t.children a).length (t.children a).getLast? (some e.2) = .ok m₂ :=
        hlink
      rw [hchildren, List.length_append, List.length_singleton, List.getLast?_concat] at hitems
      rw [List.map_cons, createItems, hnew, hlink', ok_bind]
      exact hitems
    · have hcreate := hm₁ fuel (by omega)
      have hitem := hm₂ fuel (by omega : (t.children a).length ≤ fuel)
      have hrest := hcalls fuel (by omega)
      change calls fuel m (.create e.2 (make e.1 e.2) :: .addItemToArray a e.2 ::
        additions make a es) = _
      rw [calls, hcreate, ok_bind]
      simp only [calls, call, hitem, ok_bind]
      rw [hrest]
      rfl
    · rw [List.map_cons, List.append_cons, ← hchildren]
      exact hall

/-- With every item granted, an array made at once is the array made by adding to an empty one,
cell by cell. -/
theorem createArrayOf_adds [Double D] {make : E → ℕ → Data D}
    (hmake : ∀ e c, (make e c).isReference = false) (h : Represents m t) (ha : t.data a = none)
    (es : List (E × ℕ)) (hfree : ∀ e ∈ es, t.data e.2 = none)
    (hnodup : (a :: es.map Prod.snd).Nodup) : ∃ enough m',
      createArrayOf make m (some a) (es.map fun e => (e.1, some e.2)) = .ok (m', some a) ∧
      (∀ fuel, enough ≤ fuel → calls fuel m (.create a (arrayData a) :: additions make a es) =
        .ok (m', (t.applyAll (.create a (arrayData a) :: additions make a es)).2)) ∧
      Represents m' (t.applyAll (.create a (arrayData a) :: additions make a es)).1 ∧
      (t.applyAll (.create a (arrayData a) :: additions make a es)).1.children a =
        es.map Prod.snd := by
  obtain ⟨hnotin, hnodup⟩ := List.nodup_cons.mp hnodup
  have hown : (arrayData a : Data D).isReference = false :=
    show decide (cJSON_Array &&& cJSON_IsReference ≠ 0) = false by decide
  obtain ⟨enough₁, m₁, hm₁, h₁⟩ := refines_create h ha hown
  have hnew : newItem m (some a) arrayData = m₁ :=
    (Prod.mk.inj (Except.ok.inj (hm₁ _ (Nat.le_refl _)))).1
  have hnil : (t.create a (arrayData a)).children a = [] := (h.dead ha).2.1
  have hfree₁ : ∀ e ∈ es, (t.create a (arrayData a)).data e.2 = none := by
    intro e he
    have hne : e.2 ≠ a := fun heq => hnotin (heq ▸ List.mem_map_of_mem he)
    exact (Function.update_of_ne hne _ _).trans (hfree e he)
  have hlive : ((t.create a (arrayData a)).data a).isSome := by simp [Tree.create]
  obtain ⟨enough, m', hitems, hcalls, hrep, hall⟩ :=
    createItems_adds hmake es m₁ (t.create a (arrayData a)) h₁ hlive hfree₁ hnodup
  rw [hnil] at hitems hall
  refine ⟨max enough enough₁, m', ?_, fun fuel hf => ?_, hrep, hall⟩
  · have hloop : createItems make a m₁ 0 none (es.map fun e => (e.1, some e.2)) = .ok m' := hitems
    rw [createArrayOf, hnew, hloop, ok_bind]
  · rw [calls, hm₁ fuel (by omega), ok_bind]
    simp only [hcalls fuel (by omega), ok_bind]
    rfl

end Granted

section Owned

variable {D : Type} [Double D]

theorem numberData_owned (num : D) (c : ℕ) : (numberData num c).isReference = false :=
  show decide (cJSON_Number &&& cJSON_IsReference ≠ 0) = false by decide

theorem stringData_owned (copy : Option Str) (c : ℕ) :
    (stringData copy c : Data D).isReference = false :=
  show decide (cJSON_String &&& cJSON_IsReference ≠ 0) = false by decide

def twoIntegers : List (Op ℤ) :=
  .create 0 (arrayData 0) :: additions (fun n => numberData (Double.ofInt n)) 0 [(7, 1), (-7, 2)]

theorem createArrayOf_adds_two : ∃ enough m',
    createIntArray (D := ℤ) (fun _ => none) (some 0) [(7, some 1), (-7, some 2)] =
      .ok (m', some 0) ∧
    (∀ fuel, enough ≤ fuel → calls fuel (fun _ => none) twoIntegers =
      .ok (m', (Tree.empty.applyAll twoIntegers).2)) ∧
    Represents m' (Tree.empty.applyAll twoIntegers).1 ∧
    (Tree.empty.applyAll twoIntegers).1.children 0 = [1, 2] :=
  createArrayOf_adds (fun n => numberData_owned (Double.ofInt n)) represents_empty rfl
    [(7, 1), (-7, 2)] (fun _ _ => rfl) (by decide)

end Owned

section Refused

variable {D E : Type} {m m' : Memory D} {t : Tree D} {a i : ℕ} {make : E → ℕ → Data D}

theorem suffixPointers_granted {prev item : Option ℕ} (h : suffixPointers m prev item = .ok m') :
    prev.isSome ∧ item.isSome := by
  rw [suffixPointers] at h
  cases prev with
  | none => cases h
  | some p =>
    rw [deref_some, ok_bind] at h
    cases hnext : setNext m p item with
    | error f =>
      rw [hnext] at h
      cases h
    | ok m₁ =>
      rw [hnext, ok_bind] at h
      cases item with
      | none => cases h
      | some n => exact ⟨rfl, rfl⟩

theorem createItems_granted {p : Option ℕ} {elements : List (E × Option ℕ)}
    (h : createItems make a m (i+1) p elements = .ok m') :
    elements = [] ∨ p.isSome ∧ ∀ e ∈ elements, e.2.isSome := by
  induction elements generalizing m i p with
  | nil => exact .inl rfl
  | cons e elements ih =>
    rw [createItems, link, if_neg (Nat.succ_ne_zero i)] at h
    cases hlink : suffixPointers (newItem m e.2 (make e.1)) p e.2 with
    | error f =>
      rw [hlink] at h
      cases h
    | ok m₁ =>
      rw [hlink, ok_bind] at h
      obtain ⟨hp, he⟩ := suffixPointers_granted hlink
      refine .inr ⟨hp, List.forall_mem_cons.mpr ⟨he, ?_⟩⟩
      rcases ih h with hnil | ⟨-, hall⟩
      · rw [hnil]
        exact fun e he => absurd he List.not_mem_nil
      · exact hall

def granted (elements : List (E × Option ℕ)) : List (E × ℕ) :=
  elements.filterMap fun e => e.2.map fun c => (e.1, c)

theorem granted_all {elements : List (E × Option ℕ)} (hall : ∀ e ∈ elements, e.2.isSome) :
    (granted elements).map (fun e => (e.1, some e.2)) = elements := by
  induction elements with
  | nil => rfl
  | cons e elements ih =>
    obtain ⟨c, hc⟩ := Option.isSome_iff_exists.mp (hall e List.mem_cons_self)
    have hrest := ih fun x hx => hall x (List.mem_cons_of_mem e hx)
    rw [granted, List.filterMap_cons, hc, Option.map_some, List.map_cons]
    exact congrArg₂ List.cons (Prod.ext rfl hc.symm) hrest

/-- Where an item is refused, the call faults as soon as another one comes before or behind it:
it ends just when all items are granted or there is no more than one. -/
theorem createArrayOf_ends_iff [Double D] (hmake : ∀ e c, (make e c).isReference = false)
    (h : Represents m t) (ha : t.data a = none) (elements : List (E × Option ℕ))
    (hfree : ∀ e ∈ granted elements, t.data e.2 = none)
    (hnodup : (a :: (granted elements).map Prod.snd).Nodup) :
    (∃ m', createArrayOf make m (some a) elements = .ok (m', some a)) ↔
      (∀ e ∈ elements, e.2.isSome) ∨ elements.length ≤ 1 := by
  constructor
  · rintro ⟨m', hm'⟩
    rw [createArrayOf] at hm'
    cases elements with
    | nil => exact .inr (Nat.zero_le 1)
    | cons e elements =>
      cases hloop : createItems make a (newItem m (some a) arrayData) 0 none (e :: elements) with
      | error f =>
        rw [hloop] at hm'
        cases hm'
      | ok m₁ =>
        rw [createItems, link, if_pos rfl] at hloop
        cases hfirst : setChild (newItem (newItem m (some a) arrayData) e.2 (make e.1)) a e.2 with
        | error f =>
          rw [hfirst] at hloop
          cases hloop
        | ok m₂ =>
          rw [hfirst, ok_bind] at hloop
          rcases createItems_granted hloop with rfl | ⟨he, hall⟩
          · exact .inr (Nat.le_refl 1)
          · exact .inl (List.forall_mem_cons.mpr ⟨he, hall⟩)
  · intro hends
    by_cases hall : ∀ e ∈ elements, e.2.isSome
    · obtain ⟨-, m', hm', -⟩ := createArrayOf_adds hmake h ha (granted elements) hfree hnodup
      rw [granted_all hall] at hm'
      exact ⟨m', hm'⟩
    · have hlen := hends.resolve_left hall
      rcases elements with _ | ⟨e, _ | ⟨e', elements⟩⟩
      · exact absurd (fun e he => absurd he List.not_mem_nil) hall
      · have he : e.2 = none := by
          by_contra hsome
          exact hall (List.forall_mem_singleton.mpr (Option.ne_none_iff_isSome.mp hsome))
        have hlive : (data (newItem m (some a) arrayData) a).isSome := by simp [data, newItem]
        obtain ⟨m', hm', -⟩ := setChild_spec hlive none
        have hlink : link (newItem (newItem m (some a) arrayData) e.2 (make e.1)) a 0 none e.2 =
            .ok m' := by
          rw [he]
          exact hm'
        refine ⟨m', ?_⟩
        rw [createArrayOf, createItems, hlink]
        rfl
      · exact absurd hlen (by simp)

/-- The second of two strings is refused. -/
theorem createArrayOf_ends_iff_refused :
    ¬∃ m', createStringArray (D := ℤ) (fun _ => none) (some 0)
      [(some (9, [97]), some 1), (none, none)] = .ok (m', some 0) := by
  intro hends
  have hgranted := (createArrayOf_ends_iff (fun copy => stringData_owned copy) represents_empty rfl
    [(some (9, [97]), some 1), (none, none)] (fun _ _ => rfl) (by decide)).mp hends
  simp at hgranted

end Refused

end CLearning.Json
