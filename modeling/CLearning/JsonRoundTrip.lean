import CLearning.JsonText

/-!
# Parsing what cJSON prints

An item stands for a value. The text an item prints as, formatted or not, is
read back as an item that stands for the same value.
-/

set_option autoImplicit false

namespace CLearning.Json
open CLearning.Machine CLearning.Decimal CLearning.Ledger

section Meaning

inductive Value where
  | null
  | bool (b : Bool)
  | number (n : ℤ)
  | string (s : Text)
  | array (elements : List Value)
  | object (members : List (Text × Value))

variable {D : Type}

def cstring (s : Str) : Text := s.2.takeWhile (· ≠ 0)

def Data.value (d : Data D) (children : List (Option Text × Value)) : Option Value :=
  let type := d.type &&& 255
  if type = cJSON_NULL then some .null
  else if type = cJSON_False then some (.bool false)
  else if type = cJSON_True then some (.bool true)
  else if type = cJSON_Number then some (.number d.valueint)
  else if type = cJSON_String then d.valuestring.map fun s => .string (cstring s)
  else if type = cJSON_Array then some (.array (children.map Prod.snd))
  else if type = cJSON_Object then
    if children.all fun c => c.1.isSome then
      some (.object (children.map fun c => (c.1.getD [], c.2)))
    else none
  else none

def values : Chain D → Option (List (Option Text × Value))
  | .null => some []
  | .item d next child => do
    let children ← values child
    let v ← d.value children
    let vs ← values next
    some ((d.string.map cstring, v) :: vs)

def value : Chain D → Option Value
  | .null => none
  | .item d _ child => (values child).bind d.value

section Types

variable {d : Data D} {es : List (Option Text × Value)} {child : Chain D}

end Types

variable [Double D]
open Double

/-- Every number along a chain and below is an `int`. -/
def Whole : Chain D → Prop
  | .null => True
  | .item d next child => (d.type &&& 255 = cJSON_Number →
      d.valuedouble = ofInt d.valueint ∧ -2^31 ≤ d.valueint ∧ d.valueint < 2^31) ∧
    Whole next ∧ Whole child

end Meaning

section Numbers

variable {D : Type} [Double D]
open Double

def Follows (c : UInt8) : Prop := ¬IsDigit c ∧ c ≠ 46 ∧ c ≠ 101 ∧ c ≠ 69

instance (c : UInt8) : Decidable (Follows c) := inferInstanceAs (Decidable (_ ∧ _))

variable {c : UInt8} {ds rest : Text} {n : ℤ}

end Numbers

section Tokens

variable {c l : UInt8} {ws t literal : Text}

def Blank (ws : Text) : Prop := ∀ b ∈ ws, b ≠ 0 ∧ b ≤ 32

theorem blank_space (fmt : Bool) (hl : l ≠ 0 ∧ l ≤ 32) : Blank (space fmt l) := by
  cases fmt with
  | false => exact fun b hb => absurd hb List.not_mem_nil
  | true =>
    intro b hb
    rw [List.mem_singleton.mp hb]
    exact hl

theorem Blank.append {ws' : Text} (h : Blank ws) (h' : Blank ws') : Blank (ws ++ ws') := by
  intro b hb
  rcases List.mem_append.mp hb with hb | hb
  · exact h b hb
  · exact h' b hb

theorem skip_blank (h : Blank ws) (hc : ¬(c ≠ 0 ∧ c ≤ 32)) (t : Text) :
    skip (ws ++ c :: t) = .ok (c :: t) := by
  induction ws with
  | nil => rw [List.nil_append, skip, if_neg hc]
  | cons b ws ih =>
    rw [List.cons_append, skip, if_pos (h b List.mem_cons_self),
      ih fun b hb => h b (List.mem_cons_of_mem _ hb)]

theorem strncmp_literal (literal t : Text) : strncmp (literal ++ t) literal = .ok true := by
  induction literal with
  | nil =>
    rw [List.nil_append, strncmp]
  | cons l literal ih => rw [List.cons_append, strncmp, if_pos rfl, ih]

theorem strncmp_ne (h : c ≠ l) : strncmp (c :: t) (l :: literal) = .ok false := by
  rw [strncmp, if_neg h]

variable {D : Type} [Double D] {w : World} {d : Data D} {fuel : ℕ}

theorem parseValue_null (w : World) (d : Data D) (t : Text) :
    parseValue (fuel+1) w d (nullText ++ t) =
      .ok ⟨{ d with type := cJSON_NULL }, .null, some t, w⟩ := by
  rw [parseValue, strncmp_literal, ok_bind, if_pos rfl]
  rfl

theorem parseValue_false (w : World) (d : Data D) (t : Text) :
    parseValue (fuel+1) w d (falseText ++ t) =
      .ok ⟨{ d with type := cJSON_False }, .null, some t, w⟩ := by
  rw [parseValue, strncmp_literal]
  rfl

theorem parseValue_true (w : World) (d : Data D) (t : Text) :
    parseValue (fuel+1) w d (trueText ++ t) =
      .ok ⟨{ d with type := cJSON_True, valueint := 1 }, .null, some t, w⟩ := by
  rw [parseValue, strncmp_literal]
  rfl

theorem parseValue_other (h : c ≠ 110 ∧ c ≠ 102 ∧ c ≠ 116) (w : World) (d : Data D) (t : Text) :
    parseValue (fuel+1) w d (c :: t) =
      if c = 34 then parseString w d (c :: t)
      else if c = 45 ∨ (48 ≤ c ∧ c ≤ 57) then
        parseNumber d (c :: t) >>= fun r => .ok ⟨r.1, .null, some r.2, w⟩
      else if c = 91 then parseArray (parseValue fuel) fuel w d (c :: t)
      else if c = 123 then parseObject (parseValue fuel) fuel w d (c :: t)
      else .ok ⟨d, .null, none, { w with ep := some (c :: t) }⟩ := by
  rw [parseValue, nullText, falseText, trueText, strncmp_ne h.1, strncmp_ne h.2.1,
    strncmp_ne h.2.2]
  rfl

theorem parseValue_string (w : World) (d : Data D) (t : Text) :
    parseValue (fuel+1) w d (34 :: t) = parseString w d (34 :: t) := by
  rw [parseValue_other (by decide), if_pos rfl]

theorem parseValue_array (w : World) (d : Data D) (t : Text) :
    parseValue (fuel+1) w d (91 :: t) =
      parseBody (parseValue fuel) 93 fuel w { d with type := cJSON_Array } t := by
  rw [parseValue_other (by decide)]
  rfl

theorem parseValue_object (w : World) (d : Data D) (t : Text) :
    parseValue (fuel+1) w d (123 :: t) =
      parseBody (parsePair (parseValue fuel)) 125 fuel w { d with type := cJSON_Object } t := by
  rw [parseValue_other (by decide)]
  rfl

end Tokens

section Rows

variable {D : Type} [Double D] {member : Member D} {close c : UInt8} {wsEnd src t rest : Text}
  {e : Option Text × Value} {es : List (Option Text × Value)} {rows : List (Text × Text)}
  {k : ℕ} {w : World}

def Starts (src : Text) : Prop := ∃ c t, src = c :: t ∧ 32 < c ∧ c ≠ 93 ∧ c ≠ 125

structure MemberReads (member : Member D) (src : Text) (e : Option Text × Value) : Prop where
  starts : Starts src
  reads : ∀ (w : World) (block : ℕ) (c : UInt8) (t : Text), w.Ample → Follows c →
    ∃ o, member w (blank block) (src ++ c :: t) = .ok o ∧ o.rest = some (c :: t) ∧ o.world.Ample ∧
      o.data.string.map cstring = e.1 ∧ value (.item o.data .null o.child) = some e.2 ∧
        Whole (.item o.data .null o.child)

theorem Starts.skip (h : Starts src) {ws : Text} (hws : Blank ws) (t : Text) :
    skip (ws ++ (src ++ t)) = .ok (src ++ t) := by
  obtain ⟨c, tl, rfl, hc, -, -⟩ := h
  exact skip_blank hws (fun hle => absurd hle.2 (UInt8.not_le.mpr hc)) _

end Rows

section Layout

variable {fmt : Bool} {depth k : ℕ} {ws wsEnd : Text} {close : UInt8}

end Layout

section Reading

variable {D : Type} [Double D] {text : Text} {v : Value} {fmt : Bool} {depth fuel : ℕ}

structure Reads (D : Type) [Double D] (text : Text) (v : Value) : Prop where
  starts : Starts text
  reads : ∀ (fuel : ℕ), text.length ≤ fuel → text.length ≤ 2^31 →
    ∀ (w : World) (d : Data D) (c : UInt8) (t : Text), w.Ample → Follows c →
      ∃ o, parseValue fuel w d (text ++ c :: t) = .ok o ∧ o.rest = some (c :: t) ∧ o.world.Ample ∧
        o.data.string = d.string ∧
        value (.item o.data .null o.child) = some v ∧ Whole (.item o.data .null o.child)

theorem Starts.pos (h : Starts text) : 0 < text.length := by
  obtain ⟨c, t, rfl, -⟩ := h
  exact Nat.succ_pos _

theorem starts_quoted (s t : Text) : Starts (quoted s ++ t) :=
  ⟨34, escape s ++ [34] ++ t, rfl, by decide, by decide, by decide⟩

theorem takeWhile_idem (s : Text) :
    (s.takeWhile (· ≠ 0)).takeWhile (· ≠ 0) = s.takeWhile (· ≠ 0) := by
  rw [List.takeWhile_takeWhile]
  simp

theorem Reads.pair (h : Reads D text v) (hf : text.length ≤ fuel) (fmt : Bool) (s : Text)
    (hlong : (quoted s ++ (58 :: space fmt 9 ++ text)).length ≤ 2^31) :
    MemberReads (parsePair (parseValue (D := D) fuel))
      (quoted s ++ (58 :: space fmt 9 ++ text)) (some (s.takeWhile (· ≠ 0)), v) where
  starts := starts_quoted s _
  reads w block c t ha hc := by
    have htext : quoted s ++ (58 :: space fmt 9 ++ text) ++ c :: t =
        quoted s ++ (58 :: (space fmt 9 ++ (text ++ c :: t))) := by
      simp
    rw [List.length_append, List.length_append, List.length_cons] at hlong
    have hparse := parseString_quoted (ha w.requests) (blank (D := D) block) s
      (58 :: (space fmt 9 ++ (text ++ c :: t))) (by omega)
    have ha' : w.malloc.2.Ample := ha
    have hcolon : skip (58 :: (space fmt 9 ++ (text ++ c :: t))) =
      .ok (58 :: (space fmt 9 ++ (text ++ c :: t))) := rfl
    have hskip := h.starts.skip (blank_space fmt (by decide : (9 : UInt8) ≠ 0 ∧ (9 : UInt8) ≤ 32))
      (c :: t)
    obtain ⟨o, ho, hrest, hao, hname, hval, hwhole⟩ := h.reads fuel hf (by omega) w.malloc.2
      { blank (D := D) block with
        string := some (w.requests, s.takeWhile (· ≠ 0)), type := cJSON_String } c t ha' hc
    refine ⟨o, ?_, hrest, hao, ?_, hval, hwhole⟩
    · rw [htext, parsePair, hparse]
      simp only [ok_bind, hcolon, peek_cons, ne_eq, not_true_eq_false, if_false, List.tail_cons,
        hskip]
      simp only [ne_eq] at ho
      exact ho
    · rw [hname]
      exact congrArg some (takeWhile_idem s)

end Reading

section Sample

end Sample

end CLearning.Json
