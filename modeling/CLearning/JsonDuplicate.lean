import CLearning.JsonSafety

/-!
# Copies of cJSON trees

`cJSON_Duplicate` copies an item and, on demand, all that is below it; when a
request is refused it deletes the copy it has made so far. The copy of an item
that refers to another one is no reference.
-/

set_option autoImplicit false

namespace CLearning.Json
open CLearning.Machine CLearning.Ledger

section Source

variable {D : Type}

def duplicateString (h : Heap) : Option Str → Bool × Option Str × Heap
  | none => (true, none, h)
  | some s => ((strdup h s.2).1.isSome, strdup h s.2)

/-- `cJSON_Duplicate` up to the test of `recurse`. -/
def duplicateData (h : Heap) (item : Data D) : Option (Data D) × Heap :=
  match h.malloc with
  | (none, h) => (none, h)
  | (some block, h) =>
    let type := item.type &&& 0xFFFFFEFF
    let (ok, valuestring, h) := duplicateString h item.valuestring
    let newitem : Data D := ⟨block, type, valuestring, item.valueint, item.valuedouble, none⟩
    if ok then
      let (ok, string, h) := duplicateString h item.string
      let newitem := { newitem with string := string }
      if ok then (some newitem, h) else (none, h.free (delete (.item newitem .null .null)))
    else (none, h.free (delete (.item newitem .null .null)))

/-- The loop over the children from `cptr` on: whether all were copied, and those that were. -/
def duplicateChildren (h : Heap) : Chain D → Bool × Chain D × Heap
  | .null => (true, .null, h)
  | .item item next child =>
    match duplicateData h item with
    | (none, h) => (false, .null, h)
    | (some newitem, h) =>
      match duplicateChildren h child with
      | (false, newchild, h) => (false, .null, h.free (delete (.item newitem .null newchild)))
      | (true, newchild, h) =>
        let (ok, rest, h) := duplicateChildren h next
        (ok, .item newitem rest newchild, h)

def duplicate (h : Heap) (item : Chain D) (recurse : Bool) : Chain D × Heap :=
  match item with
  | .null => (.null, h)
  | .item item _ child =>
    match duplicateData h item with
    | (none, h) => (.null, h)
    | (some newitem, h) =>
      if recurse then
        match duplicateChildren h child with
        | (false, newchild, h) => (.null, h.free (delete (.item newitem .null newchild)))
        | (true, newchild, h) => (.item newitem .null newchild, h)
      else (.item newitem .null .null, h)

end Source

section Copies

variable {D : Type} {h : Heap} {d d' : Data D} {item item' : Chain D}

structure Like (d d' : Data D) : Prop where
  type : d'.type = d.type &&& 0xFFFFFEFF
  valuestring : d'.valuestring.map Prod.snd = d.valuestring.map Prod.snd
  valueint : d'.valueint = d.valueint
  valuedouble : d'.valuedouble = d.valuedouble
  string : d'.string.map Prod.snd = d.string.map Prod.snd

def Alike : Chain D → Chain D → Prop
  | .null, .null => True
  | .item d next child, .item d' next' child' => Like d d' ∧ Alike next next' ∧ Alike child child'
  | _, _ => False

theorem Like.isReference (hl : Like d d') : d'.isReference = false := by
  have hmask : (d.type &&& 0xFFFFFEFF) &&& cJSON_IsReference = 0 := by
    rw [Nat.and_assoc, show 0xFFFFFEFF &&& cJSON_IsReference = 0 from rfl, Nat.and_zero]
  rw [Data.isReference, hl.type, hmask]
  rfl

theorem duplicateString_cases (h : Heap) (s : Option Str) :
    (∃ s' h', duplicateString h s = (true, s', h') ∧ Owes h h' (s'.map Prod.fst).toList ∧
      s'.map Prod.snd = s.map Prod.snd) ∨
    ∃ h', duplicateString h s = (false, none, h') ∧ Owes h h' [] ∧ ¬h.Ample := by
  cases s with
  | none => exact .inl ⟨none, h, rfl, .refl h, rfl⟩
  | some s =>
    rcases malloc_cases h with ⟨block, hm, ho⟩ | ⟨hm, ho, hna⟩
    · refine .inl ⟨some (block, s.2), h.malloc.2, ?_, ho, rfl⟩
      rw [duplicateString, strdup, hm]
      rfl
    · refine .inr ⟨h.malloc.2, ?_, ho, hna⟩
      rw [duplicateString, strdup, hm]
      rfl

structure Copied (h : Heap) (d : Data D) (r : Option (Data D) × Heap) : Prop where
  like : ∀ d', r.1 = some d' → Like d d'
  full : h.Ample → r.1.isSome
  owes : Owes h r.2 (r.1.elim [] fun d' => delete (.item d' .null .null))

theorem copied_none {h' : Heap} (hna : ¬h.Ample) (ho : Owes h h' []) : Copied h d (none, h') where
  like d' hd' := absurd hd'.symm (Option.some_ne_none d')
  full ha := absurd ha hna
  owes := ho

theorem copied_some {h' : Heap} (hl : Like d d')
    (ho : Owes h h' (delete (.item d' .null .null))) : Copied h d (some d', h') where
  like _ hd := Option.some_inj.mp hd ▸ hl
  full _ := rfl
  owes := ho

theorem owes_freed {h' : Heap} {blocks : List ℕ} (ho : Owes h h' blocks) :
    Owes h (h'.free blocks) [] :=
  ho.free (List.Perm.of_eq (List.append_nil blocks).symm)

theorem duplicateData_copied (h : Heap) (d : Data D) : Copied h d (duplicateData h d) := by
  rw [duplicateData]
  rcases malloc_cases h with ⟨block, hm, ho⟩ | ⟨hm, ho, hna⟩
  · rw [hm]
    have hmask : (d.type &&& 0xFFFFFEFF) &&& cJSON_IsReference = 0 := by
      rw [Nat.and_assoc, show 0xFFFFFEFF &&& cJSON_IsReference = 0 from rfl, Nat.and_zero]
    have hdelete (v s : Option Str) : delete (.item ⟨block, d.type &&& 0xFFFFFEFF, v, d.valueint,
        d.valuedouble, s⟩ .null .null) = (v.map Prod.fst).toList ++ ((s.map Prod.fst).toList ++
          [block]) := by
      simp [delete, Data.isReference, hmask]
    rcases duplicateString_cases h.malloc.2 d.valuestring with
      ⟨v, h₁, hv, ho₁, hlike₁⟩ | ⟨h₁, hv, ho₁, hna⟩
    · simp only [hv, if_true]
      rcases duplicateString_cases h₁ d.string with ⟨s, h₂, hs, ho₂, hlike₂⟩ | ⟨h₂, hs, ho₂, hna⟩
      · simp only [hs, if_true]
        refine copied_some ⟨rfl, hlike₁, rfl, rfl, hlike₂⟩ ?_
        rw [hdelete v s, ← List.append_assoc]
        refine ((ho.trans ho₁).trans ho₂).perm ?_
        rw [List.append_assoc]
        exact List.perm_append_comm
      · simp only [hs]
        refine copied_none (fun ha => hna ((ha.owes ho).owes ho₁)) (owes_freed ?_)
        rw [hdelete v none]
        refine ((ho.trans ho₁).trans ho₂).perm ?_
        rw [List.append_nil]
        exact List.perm_append_comm
    · simp only [hv]
      refine copied_none (fun ha => hna (ha.owes ho)) (owes_freed ?_)
      rw [hdelete none none]
      exact ho.trans ho₁
  · rw [hm]
    exact copied_none hna ho

theorem delete_child (hl : Like d d') (child : Chain D) :
    delete (.item d' .null child) = delete child ++ delete (.item d' .null .null) := by
  simp [delete, hl.isReference]

structure Collected (h : Heap) (item : Chain D) (r : Bool × Chain D × Heap) : Prop where
  alike : r.1 = true → Alike item r.2.1
  full : h.Ample → r.1 = true
  owes : Owes h r.2.2 (delete r.2.1)

theorem duplicateChildren_collected (h : Heap) (item : Chain D) :
    Collected h item (duplicateChildren h item) := by
  induction item generalizing h with
  | null => exact ⟨fun _ => trivial, fun _ => rfl, .refl h⟩
  | item d next child ihnext ihchild =>
    rw [duplicateChildren]
    have hcopied := duplicateData_copied h d
    cases hd : duplicateData h d with
    | mk newitem h₁ =>
      rw [hd] at hcopied
      cases newitem with
      | none =>
        refine ⟨fun hf => absurd hf Bool.false_ne_true, fun ha => ?_, hcopied.owes⟩
        exact absurd (hcopied.full ha) Bool.false_ne_true
      | some d' =>
        have hlike := hcopied.like d' rfl
        have hchild := ihchild h₁
        cases hc : duplicateChildren h₁ child with
        | mk ok r =>
          obtain ⟨newchild, h₂⟩ := r
          rw [hc] at hchild
          have howes : Owes h h₂ (delete (.item d' .null newchild)) := by
            rw [delete_child hlike]
            exact (hcopied.owes.trans hchild.owes).perm List.perm_append_comm
          simp only [hc]
          cases ok with
          | false =>
            refine ⟨fun hf => absurd hf Bool.false_ne_true, fun ha => ?_, owes_freed howes⟩
            exact absurd (hchild.full (ha.owes hcopied.owes)) Bool.false_ne_true
          | true =>
            have hnext := ihnext h₂
            refine ⟨fun hok => ⟨hlike, hnext.alike hok, hchild.alike rfl⟩,
              fun ha => hnext.full (ha.owes howes), ?_⟩
            rw [delete_next]
            exact howes.trans hnext.owes

end Copies

section Prints

variable {D : Type} [Double D] {d d' : Data D} {item item' : Chain D}

theorem option_elim_snd {s s' : Option Str} (h : s'.map Prod.snd = s.map Prod.snd) :
    (s'.elim [] fun s => quoted s.2) = s.elim [] fun s => quoted s.2 := by
  have helim (s : Option Str) : (s.elim [] fun s => quoted s.2) =
      (s.map Prod.snd).elim [] quoted := by
    cases s <;> rfl
  rw [helim, helim, h]

theorem itemText_like (hl : Like d d') (fmt : Bool) (children : Option (List (Text × Text)))
    (depth : ℕ) : itemText fmt children d' depth = itemText fmt children d depth := by
  have hmask : d'.type &&& 255 = d.type &&& 255 := by
    rw [hl.type, Nat.and_assoc, show 0xFFFFFEFF &&& 255 = 255 from rfl]
  have hnumber : numberText d' = numberText d := by
    rw [numberText, numberText, isInt, isInt, hl.valueint, hl.valuedouble]
  rw [itemText, itemText, hmask, hnumber, option_elim_snd hl.valuestring]

theorem childrenText_alike (h : Alike item item') (fmt : Bool) (depth : ℕ) :
    childrenText fmt item' depth = childrenText fmt item depth := by
  induction item generalizing item' depth with
  | null =>
    cases item' with
    | null => rfl
    | item => exact absurd h id
  | item d next child ihnext ihchild =>
    cases item' with
    | null => exact absurd h id
    | item d' next' child' =>
      obtain ⟨hlike, hnext, hchild⟩ := h
      rw [childrenText, childrenText, ihchild hchild, ihnext hnext, itemText_like hlike,
        option_elim_snd hlike.string]

/-- Whichever request is refused, what `cJSON_Duplicate` was granted is in the copy it returns
or has been freed; the copy has the same values, and is printed like the original. -/
theorem duplicate_safe (h : Heap) (item : Chain D) (recurse : Bool) :
    Owes h (duplicate h item recurse).2 (delete (duplicate h item recurse).1) ∧
      (h.Ample → item ≠ .null → (duplicate h item recurse).1 ≠ .null) ∧
      ∀ d next child, item = .item d next child → (duplicate h item recurse).1 ≠ .null →
        ∃ d' child', (duplicate h item recurse).1 = .item d' .null child' ∧ Like d d' ∧
          if recurse then Alike child child' ∧ ∀ fmt depth,
            valueText fmt (duplicate h item recurse).1 depth = valueText fmt item depth
          else child' = .null := by
  cases item with
  | null => exact ⟨.refl h, fun _ hne => absurd rfl hne, fun _ _ _ _ hne => absurd rfl hne⟩
  | item d next child =>
    rw [duplicate]
    have hcopied := duplicateData_copied h d
    cases hd : duplicateData h d with
    | mk newitem h₁ =>
      rw [hd] at hcopied
      cases newitem with
      | none =>
        refine ⟨hcopied.owes, fun ha => ?_, fun _ _ _ _ hne => absurd rfl hne⟩
        exact absurd (hcopied.full ha) Bool.false_ne_true
      | some d' =>
        have hlike := hcopied.like d' rfl
        have hne {next child : Chain D} : Chain.item d' next child ≠ .null := nofun
        cases recurse with
        | false =>
          refine ⟨hcopied.owes, fun _ _ => hne, fun d₀ next₀ child₀ heq _ => ?_⟩
          obtain ⟨rfl, rfl, rfl⟩ := Chain.item.inj heq
          exact ⟨d', .null, rfl, hlike, rfl⟩
        | true =>
          have hchild := duplicateChildren_collected h₁ child
          cases hc : duplicateChildren h₁ child with
          | mk ok r =>
            obtain ⟨newchild, h₂⟩ := r
            rw [hc] at hchild
            have howes : Owes h h₂ (delete (.item d' .null newchild)) := by
              rw [delete_child hlike]
              exact (hcopied.owes.trans hchild.owes).perm List.perm_append_comm
            simp only [hc, if_true]
            cases ok with
            | false =>
              refine ⟨owes_freed howes, fun ha => ?_, fun _ _ _ _ hne => absurd rfl hne⟩
              exact absurd (hchild.full (ha.owes hcopied.owes)) Bool.false_ne_true
            | true =>
              refine ⟨howes, fun _ _ => hne, fun d₀ next₀ child₀ heq _ => ?_⟩
              obtain ⟨rfl, rfl, rfl⟩ := Chain.item.inj heq
              have halike := hchild.alike rfl
              refine ⟨d', newchild, rfl, hlike, halike, fun fmt depth => ?_⟩
              rw [valueText, valueText, childrenText_alike halike, itemText_like hlike]

end Prints

end CLearning.Json
