import CLearning.JsonRoundTrip

/-!
# Minifying a text in place

`cJSON_Minify` writes over the text it reads: the bytes stored so far, the
bytes between the two pointers that were read and not stored over, and the
bytes from the read pointer on. Space and comments go, strings stay as they are.
-/

set_option autoImplicit false

namespace CLearning.Json
open CLearning.Machine CLearning.Decimal CLearning.Ledger

section Source

/-- The text cut at `into` and at `json`. -/
structure Tape where
  stored : Text
  gap : Text
  json : Text
  deriving Repr

/-- `json++`. -/
def Tape.skip (m : Tape) : Run Tape :=
  match m.json with
  | [] => .error .wildAccess
  | c :: json => .ok { m with gap := m.gap ++ [c], json }

/-- `*into++ = *json++`. -/
def Tape.copy (m : Tape) : Run Tape :=
  match m.json with
  | [] => .error .wildAccess
  | c :: json => .ok ⟨m.stored ++ [c], (m.gap ++ [c]).tail, json⟩

def lineComment : ℕ → Tape → Run Tape
  | 0, _ => .error .outOfFuel
  | fuel+1, m => do
    let c ← peek m.json
    if c ≠ 0 ∧ c ≠ 10 then do
      let m ← m.skip
      lineComment fuel m
    else .ok m

def blockComment : ℕ → Tape → Run Tape
  | 0, _ => .error .outOfFuel
  | fuel+1, m => do
    let c ← peek m.json
    if c = 0 then .ok m
    else do
      let c' ← (if c = 42 then peek m.json.tail else .ok 0)
      if c = 42 ∧ c' = 47 then .ok m
      else do
        let m ← m.skip
        blockComment fuel m

def literal : ℕ → Tape → Run Tape
  | 0, _ => .error .outOfFuel
  | fuel+1, m => do
    let c ← peek m.json
    if c ≠ 0 ∧ c ≠ 34 then do
      let m ← (if c = 92 then m.copy else .ok m)
      let m ← m.copy
      literal fuel m
    else .ok m

def IsBlank (c : UInt8) : Prop := c = 32 ∨ c = 9 ∨ c = 13 ∨ c = 10

instance (c : UInt8) : Decidable (IsBlank c) := inferInstanceAs (Decidable (_ ∨ _))

def minifyLoop : ℕ → Tape → Run Tape
  | 0, _ => .error .outOfFuel
  | fuel+1, m => do
    let c ← peek m.json
    if c = 0 then .ok m
    else if IsBlank c then do
      let m ← m.skip
      minifyLoop fuel m
    else do
      let c' ← (if c = 47 then peek m.json.tail else .ok 0)
      if c = 47 ∧ c' = 47 then do
        let m ← lineComment (m.json.length+1) m
        minifyLoop fuel m
      else if c = 47 ∧ c' = 42 then do
        let m ← blockComment (m.json.length+1) m
        let m ← m.skip
        let m ← m.skip
        minifyLoop fuel m
      else if c = 34 then do
        let m ← m.copy
        let m ← literal (m.json.length+1) m
        let m ← m.copy
        minifyLoop fuel m
      else do
        let m ← m.copy
        minifyLoop fuel m

/-- `cJSON_Minify` of the memory at `json`. -/
def minify (json : Text) : Run Text := do
  let m ← minifyLoop (json.length+1) ⟨[], [], json⟩
  .ok (m.stored ++ 0 :: (m.gap ++ m.json).tail)

end Source

section Runs

variable {src out src' out' t s : Text} {fuel : ℕ} {c : UInt8}

def Tape.size (m : Tape) : ℕ := m.stored.length+m.gap.length+m.json.length

def Yields (fuel : ℕ) (m : Tape) (s : Text) : Prop :=
  ∃ m', minifyLoop fuel m = .ok m' ∧ m'.stored = s ∧ m'.json ≠ [] ∧ m'.size = m.size

def Squeezes (src out : Text) : Prop :=
  ∀ (fuel : ℕ) (stored t s : Text), t ≠ [] →
    (∀ gap, Yields fuel ⟨stored ++ out, gap, t⟩ s) →
      ∀ gap, Yields (fuel+src.length) ⟨stored, gap, src ++ t⟩ s

theorem squeezes_nil : Squeezes [] [] := by
  intro fuel stored t s _ h gap
  have := h gap
  rw [List.append_nil] at this
  exact this

theorem Squeezes.append (h : Squeezes src out) (h' : Squeezes src' out') :
    Squeezes (src ++ src') (out ++ out') := by
  intro fuel stored t s ht hy gap
  rw [List.length_append, List.append_assoc,
    show fuel+(src.length+src'.length) = fuel+src'.length+src.length by omega]
  refine h _ _ _ _ (by simp [ht]) (fun gap => h' _ _ _ _ ht (fun gap => ?_) gap) gap
  rw [List.append_assoc]
  exact hy gap

theorem squeezes_flatMap {α : Type} {src out : α → Text} {L : List α}
    (h : ∀ a ∈ L, Squeezes (src a) (out a)) : Squeezes (L.flatMap src) (L.flatMap out) := by
  induction L with
  | nil => exact squeezes_nil
  | cons a L ih =>
    rw [List.flatMap_cons, List.flatMap_cons]
    exact (h a List.mem_cons_self).append (ih fun b hb => h b (List.mem_cons_of_mem _ hb))

/-- More fuel does not change what the loop yields. -/
theorem minifyLoop_mono {m m' : Tape} {fuel' : ℕ} (h : minifyLoop fuel m = .ok m')
    (hle : fuel ≤ fuel') : minifyLoop fuel' m = .ok m' := by
  induction fuel generalizing m fuel' with
  | zero => exact absurd h (by simp [minifyLoop])
  | succ fuel ih =>
    obtain ⟨fuel', rfl⟩ : ∃ k, fuel' = k+1 := ⟨fuel'-1, by omega⟩
    have hle' : fuel ≤ fuel' := Nat.le_of_succ_le_succ hle
    rw [minifyLoop] at h ⊢
    obtain ⟨c, hc, h⟩ := bind_ok_iff.mp h
    rw [hc, ok_bind]
    split at h
    · next h0 =>
      rw [if_pos h0]
      exact h
    next h0 =>
    rw [if_neg h0]
    split at h
    · next hspace =>
      obtain ⟨m1, hm1, h⟩ := bind_ok_iff.mp h
      rw [if_pos hspace, hm1, ok_bind, ih h hle']
    next hspace =>
    obtain ⟨c', hc', h⟩ := bind_ok_iff.mp h
    rw [if_neg hspace, hc', ok_bind]
    split at h
    · next hline =>
      obtain ⟨m1, hm1, h⟩ := bind_ok_iff.mp h
      rw [if_pos hline, hm1, ok_bind, ih h hle']
    next hline =>
    rw [if_neg hline]
    split at h
    · next hblock =>
      obtain ⟨m1, hm1, h⟩ := bind_ok_iff.mp h
      obtain ⟨m2, hm2, h⟩ := bind_ok_iff.mp h
      obtain ⟨m3, hm3, h⟩ := bind_ok_iff.mp h
      rw [if_pos hblock, hm1, ok_bind, hm2, ok_bind, hm3, ok_bind, ih h hle']
    next hblock =>
    rw [if_neg hblock]
    split at h
    · next hquote =>
      obtain ⟨m1, hm1, h⟩ := bind_ok_iff.mp h
      obtain ⟨m2, hm2, h⟩ := bind_ok_iff.mp h
      obtain ⟨m3, hm3, h⟩ := bind_ok_iff.mp h
      rw [if_pos hquote, hm1, ok_bind, hm2, ok_bind, hm3, ok_bind, ih h hle']
    next hquote =>
    obtain ⟨m1, hm1, h⟩ := bind_ok_iff.mp h
    rw [if_neg hquote, hm1, ok_bind, ih h hle']

theorem Yields.mono {m : Tape} {fuel' : ℕ} (h : Yields fuel m s) (hle : fuel ≤ fuel') :
    Yields fuel' m s := by
  obtain ⟨m', hm', hrest⟩ := h
  exact ⟨m', minifyLoop_mono hm' hle, hrest⟩

theorem Yields.step {m m1 : Tape} (h : Yields fuel m1 s)
    (hstep : minifyLoop (fuel+1) m = minifyLoop fuel m1) (hsize : m1.size = m.size) :
    Yields (fuel+1) m s := by
  obtain ⟨m', hm', hs, hne, hm⟩ := h
  exact ⟨m', hstep.trans hm', hs, hne, hm.trans hsize⟩

end Runs

section Lexemes

variable {src out body t s stored gap : Text} {fuel : ℕ} {c : UInt8}

theorem squeezes_blank (hc : IsBlank c) : Squeezes [c] [] := by
  intro fuel stored t s _ h gap
  have h0 : c ≠ 0 := by
    rintro rfl
    exact absurd hc (by decide)
  have hnext := h (gap ++ [c])
  rw [List.append_nil] at hnext
  refine hnext.step ?_ ?_
  · rw [minifyLoop]
    simp only [List.singleton_append, peek_cons, ok_bind, if_neg h0, if_pos hc, Tape.skip]
  · simp [Tape.size]
    omega

def IsPlain (c : UInt8) : Prop := c ≠ 0 ∧ ¬IsBlank c ∧ c ≠ 47 ∧ c ≠ 34

instance (c : UInt8) : Decidable (IsPlain c) := inferInstanceAs (Decidable (_ ∧ _))

theorem squeezes_plain (hc : IsPlain c) : Squeezes [c] [c] := by
  intro fuel stored t s _ h gap
  refine (h (gap ++ [c]).tail).step ?_ ?_
  · have hline : ¬(c = 47 ∧ (0 : UInt8) = 47) := fun h => hc.2.2.1 h.1
    have hblock : ¬(c = 47 ∧ (0 : UInt8) = 42) := fun h => hc.2.2.1 h.1
    rw [minifyLoop]
    simp only [List.singleton_append, peek_cons, ok_bind, if_neg hc.1, if_neg hc.2.1,
      if_neg hc.2.2.1, if_neg hline, if_neg hblock, if_neg hc.2.2.2, Tape.copy]
  · simp [Tape.size]
    omega

inductive Quotable : Text → Prop
  | nil : Quotable []
  | plain {c : UInt8} {t : Text} (hc : c ≠ 0 ∧ c ≠ 34 ∧ c ≠ 92) (h : Quotable t) : Quotable (c :: t)
  | escaped (c : UInt8) {t : Text} (h : Quotable t) : Quotable (92 :: c :: t)

theorem Quotable.append (h : Quotable s) (ht : Quotable t) : Quotable (s ++ t) := by
  induction h with
  | nil => exact ht
  | plain hc _ ih => exact .plain hc ih
  | escaped c _ ih => exact .escaped c ih

theorem literal_quotable (h : Quotable body) (hf : body.length < fuel) (stored gap t : Text) :
    ∃ gap', literal fuel ⟨stored, gap, body ++ 34 :: t⟩ = .ok ⟨stored ++ body, gap', 34 :: t⟩ ∧
      gap'.length = gap.length := by
  induction h generalizing fuel stored gap with
  | nil =>
    obtain ⟨fuel, rfl⟩ : ∃ k, fuel = k+1 := ⟨fuel-1, by omega⟩
    refine ⟨gap, ?_, rfl⟩
    rw [List.append_nil]
    rfl
  | @plain c body hc _ ih =>
    rw [List.length_cons] at hf
    obtain ⟨fuel, rfl⟩ : ∃ k, fuel = k+1 := ⟨fuel-1, by omega⟩
    obtain ⟨gap', hrun, hlen⟩ := ih (show body.length < fuel by omega) (stored ++ [c])
      (gap ++ [c]).tail
    refine ⟨gap', ?_, by simpa using hlen⟩
    rw [List.append_assoc] at hrun
    rw [literal]
    simp only [List.cons_append, peek_cons, ok_bind]
    rw [if_pos ⟨hc.1, hc.2.1⟩, if_neg hc.2.2]
    exact hrun
  | @escaped c body _ ih =>
    rw [List.length_cons, List.length_cons] at hf
    obtain ⟨fuel, rfl⟩ : ∃ k, fuel = k+1 := ⟨fuel-1, by omega⟩
    obtain ⟨gap', hrun, hlen⟩ := ih (show body.length < fuel by omega)
      (stored ++ [92] ++ [c]) ((gap ++ [92]).tail ++ [c]).tail
    refine ⟨gap', ?_, by simpa using hlen⟩
    rw [show stored ++ [92] ++ [c] ++ body = stored ++ 92 :: c :: body by simp] at hrun
    rw [literal]
    simp only [List.cons_append, peek_cons, ok_bind]
    rw [if_pos (by decide), if_pos trivial]
    simp only [Tape.copy, ok_bind]
    exact hrun

theorem squeezes_string (h : Quotable body) : Squeezes (34 :: body ++ [34]) (34 :: body ++ [34]) := by
  intro fuel stored t s ht hy gap
  obtain ⟨gap', hrun, hlen⟩ := literal_quotable h
    (show body.length < (body ++ 34 :: t).length+1 by simp) (stored ++ [34])
    (gap ++ [34]).tail t
  have hnext := (hy (gap' ++ [34]).tail).mono (Nat.le_add_right fuel (body.length+1))
  have hlength : (34 :: body ++ [34] : Text).length = body.length+1+1 := by
    simp
  rw [hlength, ← Nat.add_assoc]
  refine hnext.step ?_ ?_
  · rw [minifyLoop]
    simp only [List.cons_append, List.append_assoc, List.nil_append, peek_cons, ok_bind]
    rw [if_neg (by decide), if_neg (by decide), if_neg (by decide), ok_bind, if_neg (by decide),
      if_neg (by decide), if_pos trivial]
    change (literal ((body ++ 34 :: t).length+1) ⟨stored ++ [34], (gap ++ [34]).tail,
      body ++ 34 :: t⟩ >>= _) = _
    rw [hrun, ok_bind]
    simp [Tape.copy]
  · simp [Tape.size, hlen]
    omega

def Unclosed : Text → Prop
  | [] => True
  | c :: t => ¬(c = 42 ∧ t.head? = some 47) ∧ Unclosed t

inductive Lexeme where
  | blank (c : UInt8)
  | line (body : Text)
  | block (body : Text)
  | string (body : Text)
  | char (c : UInt8)

namespace Lexeme

def kept : Lexeme → Text
  | string body => 34 :: body ++ [34]
  | char c => [c]
  | _ => []

def Valid : Lexeme → Prop
  | blank c => IsBlank c
  | line body => ∀ b ∈ body, b ≠ 0 ∧ b ≠ 10
  | block body => (∀ b ∈ body, b ≠ 0) ∧ Unclosed (42 :: body ++ [42])
  | string body => Quotable body
  | char c => IsPlain c

end Lexeme

theorem Squeezes.minify (h : Squeezes src out) (after : Text) :
    ∃ junk, minify (src ++ 0 :: after) = .ok (out ++ 0 :: junk) ∧
      out.length+junk.length = src.length+after.length := by
  have hend : ∀ gap, Yields (after.length+1+1) ⟨[] ++ out, gap, 0 :: after⟩ out :=
    fun gap => ⟨_, rfl, rfl, List.cons_ne_nil _ _, rfl⟩
  obtain ⟨m, hrun, hstored, hne, hsize⟩ := h _ _ _ _ (List.cons_ne_nil _ _) hend []
  have hlen : (src ++ 0 :: after).length+1 = after.length+1+1+src.length := by
    simp
    omega
  refine ⟨(m.gap ++ m.json).tail, ?_, ?_⟩
  · rw [Json.minify, hlen, hrun, ok_bind, hstored]
  · have hpos : 0 < m.json.length := List.length_pos_iff.mpr hne
    simp only [Tape.size, hstored, List.length_append, List.length_nil, List.length_cons] at hsize
    rw [List.length_tail, List.length_append]
    omega

end Lexemes

section Printed

variable {D : Type} [Double D] {fmt : Bool} {t : Text} {c : UInt8} {k : ℕ}

theorem quotable_escapeByte (h0 : c ≠ 0) : Quotable (escapeByte c) := by
  rw [escapeByte]
  by_cases hc : c > 31 ∧ c ≠ 34 ∧ c ≠ 92
  · rw [if_pos hc]
    exact .plain ⟨h0, hc.2⟩ .nil
  · rw [if_neg hc]
    cases shortEscape c with
    | some l => exact .escaped l .nil
    | none =>
      have hplain : ∀ (c : UInt8) (k : ℕ), hexDigit c = some k → c ≠ 0 ∧ c ≠ 34 ∧ c ≠ 92 := by
        intro c k hc
        obtain ⟨h34, h0, h92⟩ := hexDigit_ne (c := c) (by rw [hc]; rfl)
        exact ⟨h0, h34, h92⟩
      obtain ⟨src, hsrc, hx⟩ := unicodeEscape_hex4 c
      rw [Option.elim_none, hsrc]
      cases hx with
      | digits h₁ h₂ h₃ h₄ =>
        exact .escaped 117 (.plain (hplain _ _ h₁) (.plain (hplain _ _ h₂)
          (.plain (hplain _ _ h₃) (.plain (hplain _ _ h₄) .nil))))

theorem quotable_escape (s : Text) : Quotable (escape s) := by
  rw [escape]
  have hs : ∀ c ∈ s.takeWhile (· ≠ 0), c ≠ 0 := fun c hc => by
    simpa using List.mem_takeWhile_imp hc
  generalize s.takeWhile (· ≠ 0) = s at hs
  induction s with
  | nil => exact .nil
  | cons c s ih =>
    rw [List.flatMap_cons]
    exact (quotable_escapeByte (hs c List.mem_cons_self)).append
      (ih fun b hb => hs b (List.mem_cons_of_mem _ hb))

theorem squeezes_text (h : ∀ c ∈ t, IsPlain c) : Squeezes t t := by
  have hall : Squeezes (t.flatMap fun c => [c]) (t.flatMap fun c => [c]) :=
    squeezes_flatMap fun c hc => squeezes_plain (h c hc)
  rw [List.flatMap_singleton'] at hall
  exact hall

theorem squeezes_blanks (h : ∀ c ∈ t, IsBlank c) : Squeezes t [] := by
  induction t with
  | nil => exact squeezes_nil
  | cons c t ih =>
    exact (squeezes_blank (h c List.mem_cons_self)).append
      (ih fun b hb => h b (List.mem_cons_of_mem _ hb))

theorem squeezes_space (fmt : Bool) (hc : IsBlank c) : Squeezes (space fmt c) [] := by
  cases fmt with
  | false => exact squeezes_nil
  | true => exact squeezes_blank hc

theorem squeezes_tabs (fmt : Bool) (k : ℕ) : Squeezes (tabs fmt k) [] := by
  cases fmt with
  | false => exact squeezes_nil
  | true =>
    refine squeezes_blanks fun c hc => ?_
    rw [List.eq_of_mem_replicate hc]
    decide

theorem squeezes_quoted (s : Option Str) :
    Squeezes (s.elim [] fun s => quoted s.2) (s.elim [] fun s => quoted s.2) := by
  cases s with
  | none => exact squeezes_nil
  | some s => exact squeezes_string (quotable_escape s.2)

theorem squeezes_joined {ts ts' : List Text} (h : List.Forall₂ Squeezes ts ts') :
    Squeezes (joined fmt ts) (joined false ts') := by
  induction h with
  | nil => exact squeezes_nil
  | @cons t t' ts ts' ht hts ih =>
    rw [joined, joined]
    cases hts with
    | nil => exact ht.append squeezes_nil
    | cons h1 h2 =>
      exact ht.append ((squeezes_plain (c := 44) (by decide)).append
        ((squeezes_space fmt (by decide)).append ih))

def Tightens (t t' : Text × Text) : Prop := Squeezes t.1 t'.1 ∧ Squeezes t.2 t'.2

theorem squeezes_pairs {ts ts' : List (Text × Text)} (h : List.Forall₂ Tightens ts ts')
    (depth depth' : ℕ) : Squeezes (pairs fmt depth ts) (pairs false depth' ts') := by
  induction h with
  | nil => exact squeezes_nil
  | @cons t t' ts ts' ht hts ih =>
    obtain ⟨name, e⟩ := t
    obtain ⟨name', e'⟩ := t'
    have hcomma : Squeezes (if ts.isEmpty then [] else [44]) (if ts'.isEmpty then [] else [44]) := by
      cases hts with
      | nil => exact squeezes_nil
      | cons h1 h2 => exact squeezes_plain (by decide)
    exact (((((((squeezes_tabs fmt depth).append ht.1).append
      ((squeezes_plain (c := 58) (by decide)).append (squeezes_space fmt (by decide)))).append
        ht.2).append hcomma).append (squeezes_space fmt (by decide))).append ih)

theorem squeezes_object {ts ts' : List (Text × Text)} (h : List.Forall₂ Tightens ts ts')
    (depth depth' : ℕ) : Squeezes (objectText fmt depth ts) (objectText false depth' ts') := by
  have hopen := (squeezes_plain (c := 123) (by decide)).append
    (squeezes_space (c := 10) fmt (by decide))
  have hclose := squeezes_plain (c := 125) (by decide)
  cases h with
  | nil => exact (hopen.append (squeezes_tabs fmt (depth-1))).append hclose
  | cons h1 h2 =>
    exact ((hopen.append (squeezes_pairs (.cons h1 h2) (depth+1) (depth'+1))).append
      (squeezes_tabs fmt depth)).append hclose

/-- `sprintf` of a `double` writes no space, no slash, no quote and no terminator. -/
def PlainNumbers (D : Type) [Double D] : Prop :=
  ∀ (f : NumberFormat) (v : D), ∀ c ∈ Double.sprintf f v, IsPlain c

theorem isPlain_digit (h : IsDigit c) : IsPlain c := by
  refine ⟨?_, ?_, ?_, ?_⟩
  · rintro rfl
    exact absurd h (by decide)
  · intro hb
    rcases hb with rfl | rfl | rfl | rfl
    · exact absurd h (by decide)
    · exact absurd h (by decide)
    · exact absurd h (by decide)
    · exact absurd h (by decide)
  · rintro rfl
    exact absurd h (by decide)
  · rintro rfl
    exact absurd h (by decide)

theorem isPlain_printInt (n : ℤ) : ∀ c ∈ printInt n, IsPlain c := by
  have hdigits := fun b hb => isPlain_digit ((decimal_numeral n.natAbs).digits b hb)
  intro c hc
  rw [printInt] at hc
  split at hc
  · rcases List.mem_cons.mp hc with rfl | hc
    · decide
    · exact hdigits c hc
  · exact hdigits c hc

theorem squeezes_number (hp : PlainNumbers D) (d : Data D) :
    Squeezes (numberText d) (numberText d) := by
  refine squeezes_text ?_
  rw [numberText]
  split
  · exact isPlain_printInt d.valueint
  · exact hp _ d.valuedouble

/-- Without its space, the text of an item is its unformatted text. -/
theorem squeezes_item (hp : PlainNumbers D) {d : Data D} {kids kids' : Option (List (Text × Text))}
    (h : ∀ ts, kids = some ts → ∃ ts', kids' = some ts' ∧ List.Forall₂ Tightens ts ts') {depth : ℕ}
    (ht : itemText fmt kids d depth = some t) (depth' : ℕ) :
    ∃ t', itemText false kids' d depth' = some t' ∧ Squeezes t t' := by
  rw [itemText] at ht ⊢
  split at ht
  · next h1 =>
    rw [if_pos h1]
    exact ⟨_, rfl, Option.some_inj.mp ht ▸ squeezes_text (by decide +kernel)⟩
  next h1 =>
  rw [if_neg h1]
  split at ht
  · next h2 =>
    rw [if_pos h2]
    exact ⟨_, rfl, Option.some_inj.mp ht ▸ squeezes_text (by decide +kernel)⟩
  next h2 =>
  rw [if_neg h2]
  split at ht
  · next h3 =>
    rw [if_pos h3]
    exact ⟨_, rfl, Option.some_inj.mp ht ▸ squeezes_text (by decide +kernel)⟩
  next h3 =>
  rw [if_neg h3]
  split at ht
  · next h4 =>
    rw [if_pos h4]
    exact ⟨_, rfl, Option.some_inj.mp ht ▸ squeezes_number hp d⟩
  next h4 =>
  rw [if_neg h4]
  split at ht
  · next h5 =>
    rw [if_pos h5]
    exact ⟨_, rfl, Option.some_inj.mp ht ▸ squeezes_quoted d.valuestring⟩
  next h5 =>
  rw [if_neg h5]
  split at ht
  · next h6 =>
    obtain ⟨ts, hts, rfl⟩ := Option.map_eq_some_iff.mp ht
    obtain ⟨ts', hts', htight⟩ := h ts hts
    have hmap : List.Forall₂ Squeezes (ts.map Prod.snd) (ts'.map Prod.snd) := by
      rw [List.forall₂_map_left_iff, List.forall₂_map_right_iff]
      exact htight.imp fun _ _ hh => hh.2
    rw [if_pos h6, hts', Option.map_some]
    exact ⟨_, rfl, ((squeezes_plain (c := 91) (by decide)).append (squeezes_joined hmap)).append
      (squeezes_plain (c := 93) (by decide))⟩
  next h6 =>
  rw [if_neg h6]
  split at ht
  · next h7 =>
    obtain ⟨ts, hts, rfl⟩ := Option.map_eq_some_iff.mp ht
    obtain ⟨ts', hts', htight⟩ := h ts hts
    rw [if_pos h7, hts', Option.map_some]
    exact ⟨_, rfl, squeezes_object htight depth depth'⟩
  next h7 => exact absurd ht.symm (Option.some_ne_none t)

theorem squeezes_children (hp : PlainNumbers D) {c : Chain D} {depth : ℕ} {ts : List (Text × Text)}
    (ht : childrenText fmt c depth = some ts) (depth' : ℕ) :
    ∃ ts', childrenText false c depth' = some ts' ∧ List.Forall₂ Tightens ts ts' := by
  induction c generalizing depth depth' ts with
  | null =>
    rw [childrenText, Option.some_inj] at ht
    rw [← ht]
    exact ⟨[], rfl, .nil⟩
  | item d next child ihn ihc =>
    rw [childrenText] at ht
    simp only [Option.bind_eq_bind, Option.bind_eq_some_iff] at ht
    obtain ⟨t, hitem, ts, hts, heq⟩ := ht
    obtain ⟨t', ht', hsq⟩ := squeezes_item hp (fun _ hkids => ihc hkids (depth'+1)) hitem depth'
    obtain ⟨ts', hts', hrest⟩ := ihn hts depth'
    refine ⟨(d.string.elim [] fun s => quoted s.2, t') :: ts', ?_, ?_⟩
    · rw [childrenText, ht', hts']
      rfl
    · rw [← Option.some_inj.mp heq]
      exact .cons ⟨squeezes_quoted d.string, hsq⟩ hrest

/-- `cJSON_Minify` turns what `cJSON_Print` prints into what `cJSON_PrintUnformatted`
prints, within the same memory. -/
theorem minify_print (hfit : SprintfFits D) (hp : PlainNumbers D) {item : Chain D}
    (hi : Ints item) {h h' h1 h2 : Heap} {b b' : ℕ} {t t' : Text}
    (ht : print item h = .ok (some (b, t), h1))
    (ht' : printUnformatted item h' = .ok (some (b', t'), h2)) (after : Text) :
    ∃ junk, minify (t ++ 0 :: after) = .ok (t' ++ 0 :: junk) ∧
      t'.length+junk.length = t.length+after.length := by
  cases item with
  | null => exact absurd ht (by simp [print, printValue])
  | item d next child =>
    have hprints :=
      (prints_item hfit hi.1.1 hi.1.2 (prints_children hfit true hi.2.2) 0 h).returned ht
    have hprints' :=
      (prints_item hfit hi.1.1 hi.1.2 (prints_children hfit false hi.2.2) 0 h').returned ht'
    obtain ⟨t'', ht'', hsq⟩ := squeezes_item hp (fun _ hkids => squeezes_children hp hkids 1)
      (hprints.contents _ rfl) 0
    have heq := (hprints'.contents _ rfl).symm.trans ht''
    rw [Option.some_inj] at heq
    obtain rfl : t' = t'' := heq
    exact hsq.minify after

theorem plainNumbers_integers : PlainNumbers ℤ := by
  intro f v c hc
  cases f with
  | whole => exact isPlain_printInt v c hc
  | scientific => exact isPlain_printInt v c (List.mem_of_mem_take hc)
  | fixed =>
    rcases List.mem_append.mp hc with hc | hc
    · exact isPlain_printInt v c hc
    · revert hc
      exact (by decide +kernel : ∀ c ∈ ([46, 48, 48, 48, 48, 48, 48] : Text), IsPlain c) c

def nested : Chain ℤ :=
  .item ⟨0, cJSON_Object, none, 0, 0, none⟩ .null
    (.item ⟨1, cJSON_Array, none, 0, 0, some (2, [97])⟩ .null
      (.item ⟨3, cJSON_String, some (4, [10]), 0, 0, none⟩ .null .null))

theorem nested_ints : Ints nested :=
  ⟨by decide, trivial, by decide, trivial, by decide, trivial, trivial⟩

theorem minify_print_nested : ∃ junk,
    minify ([123, 10, 9, 34, 97, 34, 58, 9, 91, 34, 92, 110, 34, 93, 10, 125] ++ 0 :: []) =
        .ok ([123, 34, 97, 34, 58, 91, 34, 92, 110, 34, 93, 125] ++ 0 :: junk) ∧
      ([123, 34, 97, 34, 58, 91, 34, 92, 110, 34, 93, 125] : Text).length+junk.length =
        ([123, 10, 9, 34, 97, 34, 58, 9, 91, 34, 92, 110, 34, 93, 10, 125] : Text).length+
          ([] : Text).length :=
  minify_print integers_fit plainNumbers_integers nested_ints
    (show print nested ⟨fun _ => true, 0, []⟩ = .ok (some (6, _), ⟨fun _ => true, 7, _⟩) from rfl)
    (show printUnformatted nested ⟨fun _ => true, 0, []⟩ =
      .ok (some (6, _), ⟨fun _ => true, 7, _⟩) from rfl) []

end Printed

end CLearning.Json
