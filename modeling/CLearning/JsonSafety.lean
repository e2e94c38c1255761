import CLearning.JsonMinify

/-!
# The parser of cJSON stays inside its text

On a terminated text in which every escape is complete the parser reads no
byte past the terminator and stores none past a buffer, whichever allocation
is refused; what it was granted and does not return it has freed.
-/

set_option autoImplicit false

namespace CLearning.Json
open CLearning.Machine CLearning.Decimal CLearning.Ledger

section Safely

variable {α β : Type} {x : Run α} {f : α → Run β} {P : α → Prop} {Q : β → Prop} {a : α}

/-- The call returns a result with `P`, or overflows an `int`. -/
def Safely (x : Run α) (P : α → Prop) : Prop :=
  (∃ a, x = .ok a ∧ P a) ∨ x = .error .intOverflow

theorem Safely.ok (h : P a) : Safely (.ok a) P := .inl ⟨a, rfl, h⟩

theorem Safely.bind (hx : Safely x P) (hf : ∀ a, P a → Safely (f a) Q) : Safely (x >>= f) Q := by
  rcases hx with ⟨a, rfl, ha⟩ | rfl
  · exact hf a ha
  · exact .inr rfl

theorem Safely.imp {P' : α → Prop} (hx : Safely x P) (h : ∀ a, P a → P' a) : Safely x P' := by
  rcases hx with ⟨a, rfl, ha⟩ | rfl
  · exact .ok (h a ha)
  · exact .inr rfl

end Safely

section Texts

/-- A terminated text whose escapes are complete. -/
inductive Terminated : Text → Prop
  | terminator (after : Text) : Terminated (0 :: after)
  | char {c : UInt8} {t : Text} (h0 : c ≠ 0) (hc : c ≠ 92) (h : Terminated t) : Terminated (c :: t)
  | escaped {c : UInt8} {t : Text} (h0 : c ≠ 0) (hc : c ≠ 117) (h : Terminated t) :
      Terminated (92 :: c :: t)
  | unicode {digits t : Text} (hlen : digits.length = 4)
      (hdigits : ∀ c ∈ digits, (hexDigit c).isSome) (h : Terminated t) :
      Terminated (92 :: 117 :: (digits ++ t))

variable {c : UInt8} {p q t : Text}

def Within (p q : Text) : Prop := Terminated q ∧ q <:+ p

def Past (p q : Text) : Prop := Within p q ∧ q.length < p.length

theorem Within.refl (h : Terminated p) : Within p p := ⟨h, List.suffix_rfl⟩

theorem Within.trans {r : Text} (h : Within p q) (h' : Within q r) : Within p r :=
  ⟨h'.1, h'.2.trans h.2⟩

theorem Past.trans {r : Text} (h : Within p q) (h' : Past q r) : Past p r :=
  ⟨h.trans h'.1, Nat.lt_of_lt_of_le h'.2 h.2.length_le⟩

theorem Past.trans' {r : Text} (h : Past p q) (h' : Within q r) : Past p r :=
  ⟨h.1.trans h', Nat.lt_of_le_of_lt h'.2.length_le h.2⟩

theorem Terminated.cons (h : Terminated p) : ∃ c t, p = c :: t := by
  cases h with
  | terminator after => exact ⟨0, after, rfl⟩
  | char => exact ⟨_, _, rfl⟩
  | escaped => exact ⟨_, _, rfl⟩
  | unicode => exact ⟨_, _, rfl⟩

theorem Terminated.tail (h : Terminated (c :: t)) (h0 : c ≠ 0) (hc : c ≠ 92) : Terminated t := by
  cases h with
  | terminator => exact absurd rfl h0
  | char _ _ h => exact h
  | escaped => exact absurd rfl hc
  | unicode => exact absurd rfl hc

theorem Terminated.past (h : Terminated (c :: t)) (h0 : c ≠ 0) (hc : c ≠ 92) : Past (c :: t) t :=
  ⟨⟨h.tail h0 hc, List.suffix_cons c t⟩, Nat.lt_succ_self _⟩

theorem skip_terminated (h : Terminated p) : ∃ q, skip p = .ok q ∧ Within p q := by
  induction h with
  | terminator after => exact ⟨_, rfl, .refl (.terminator after)⟩
  | @char c t h0 hc h ih =>
    rw [skip]
    by_cases hblank : c ≠ 0 ∧ c ≤ 32
    · rw [if_pos hblank]
      obtain ⟨q, hq, hw⟩ := ih
      exact ⟨q, hq, hw.1, hw.2.trans (List.suffix_cons c t)⟩
    · rw [if_neg hblank]
      exact ⟨_, rfl, .refl (.char h0 hc h)⟩
  | escaped h0 hc h => exact ⟨_, rfl, .refl (.escaped h0 hc h)⟩
  | unicode hlen hdigits h => exact ⟨_, rfl, .refl (.unicode hlen hdigits h)⟩

theorem strncmp_terminated {literal : Text} (hl : ∀ l ∈ literal, l ≠ 0 ∧ l ≠ 92) (h : Terminated p) :
    ∃ b, strncmp p literal = .ok b ∧ (b = true → Within p (p.drop literal.length) ∧
      (p.drop literal.length).length+literal.length = p.length) := by
  induction literal generalizing p with
  | nil =>
    refine ⟨true, ?_, fun _ => ⟨.refl h, rfl⟩⟩
    rw [strncmp]
  | cons l literal ih =>
    obtain ⟨c, t, rfl⟩ := h.cons
    rw [strncmp]
    by_cases hcl : c = l
    · obtain ⟨h0, h92⟩ := hl l List.mem_cons_self
      have hpast := h.past (hcl ▸ h0) (hcl ▸ h92)
      obtain ⟨b, hb, hw⟩ := ih (fun l hl' => hl l (List.mem_cons_of_mem _ hl')) hpast.1.1
      rw [if_pos hcl]
      refine ⟨b, hb, fun htrue => ?_⟩
      obtain ⟨hw, hlen⟩ := hw htrue
      refine ⟨hpast.1.trans hw, ?_⟩
      simp only [List.length_cons, List.drop_succ_cons]
      omega
    · rw [if_neg hcl]
      exact ⟨false, rfl, fun hf => absurd hf Bool.false_ne_true⟩

end Texts

section Numbers

variable {c : UInt8} {p : Text}

theorem isDigit_char (h : IsDigit c) : c ≠ 0 ∧ c ≠ 92 := by
  refine ⟨?_, ?_⟩
  · rintro rfl
    exact absurd h (by decide)
  · rintro rfl
    exact absurd h (by decide)

theorem digits_terminated {α : Type} (f : α → ℕ → α) (h : Terminated p) (a : α) :
    ∃ r, digits f a p = .ok r ∧ Within p r.2 := by
  induction h generalizing a with
  | terminator after => exact ⟨_, rfl, .refl (.terminator after)⟩
  | @char c t h0 hc h ih =>
    rw [digits]
    by_cases hd : IsDigit c
    · rw [if_pos hd]
      obtain ⟨r, hr, hw⟩ := ih (f a (c.toNat-48))
      exact ⟨r, hr, hw.1, hw.2.trans (List.suffix_cons c t)⟩
    · rw [if_neg hd]
      exact ⟨_, rfl, .refl (.char h0 hc h)⟩
  | escaped h0 hc h => exact ⟨_, rfl, .refl (.escaped h0 hc h)⟩
  | unicode hlen hdigits h => exact ⟨_, rfl, .refl (.unicode hlen hdigits h)⟩

theorem safely_int (n : ℤ) : Safely (int n) fun _ => True := by
  rw [int]
  split
  · exact .ok trivial
  · exact .inr rfl

theorem safely_exponentDigits (h : Terminated p) (n : ℤ) :
    Safely (exponentDigits n p) fun r => Within p r.2 := by
  induction h generalizing n with
  | terminator after => exact .ok (.refl (.terminator after))
  | @char c t h0 hc h ih =>
    rw [exponentDigits]
    by_cases hd : IsDigit c
    · rw [if_pos hd]
      refine (safely_int _).bind fun _ _ => (safely_int _).bind fun n _ => ?_
      exact (ih n).imp fun r hw => ⟨hw.1, hw.2.trans (List.suffix_cons c t)⟩
    · rw [if_neg hd]
      exact .ok (.refl (.char h0 hc h))
  | escaped h0 hc h => exact .ok (.refl (.escaped h0 hc h))
  | unicode hlen hdigits h => exact .ok (.refl (.unicode hlen hdigits h))

theorem takeSign_terminated (plus : Bool) (h : Terminated p) :
    ∃ r, takeSign plus p = .ok r ∧ Within p r.2 := by
  obtain ⟨c, t, rfl⟩ := h.cons
  rw [takeSign, peek_cons, ok_bind]
  by_cases hplus : plus = true ∧ c = 43
  · rw [if_pos hplus]
    have hc : c ≠ 0 ∧ c ≠ 92 := by
      rw [hplus.2]
      decide
    exact ⟨_, rfl, (h.past hc.1 hc.2).1⟩
  · rw [if_neg hplus]
    by_cases hminus : c = 45
    · rw [if_pos hminus]
      have hc : c ≠ 0 ∧ c ≠ 92 := by
        rw [hminus]
        decide
      exact ⟨_, rfl, (h.past hc.1 hc.2).1⟩
    · rw [if_neg hminus]
      exact ⟨_, rfl, .refl h⟩

theorem safely_exponent (h : Terminated p) : Safely (exponent p) fun r => Within p r.2 := by
  obtain ⟨⟨sign, num⟩, hsign, hw⟩ := takeSign_terminated true h
  rw [exponent, hsign, ok_bind]
  exact (safely_exponentDigits hw.1 0).bind fun r hr => .ok (hw.trans hr)

variable {D : Type} [Double D]
open Double

/-- The digits before the point: a pointer that starts with a sign or a digit moves on. -/
theorem leading_terminated (h : Terminated p) (hstart : ∀ c t, p = c :: t → c = 45 ∨ IsDigit c) :
    ∃ sign num head b num' v num'', takeSign false p = .ok (sign, num) ∧ peek num = .ok head ∧
      (if head = 48 then num.tail else num) = num' ∧ peek num' = .ok b ∧
      (if 49 ≤ b ∧ b ≤ 57 then digits pushDigit (ofInt 0 : D) num' else .ok (ofInt 0, num')) =
        .ok (v, num'') ∧ Past p num'' := by
  obtain ⟨c, t, rfl⟩ := h.cons
  have hc : c ≠ 0 ∧ c ≠ 92 := by
    rcases hstart c t rfl with rfl | hd
    · decide
    · exact isDigit_char hd
  obtain ⟨⟨sign, num⟩, hsign, hw⟩ := takeSign_terminated false h
  obtain ⟨head, num1, rfl⟩ := hw.1.cons
  have hzero : Within (head :: num1) (if head = 48 then num1 else head :: num1) := by
    split
    · next h48 =>
      have h0 : head ≠ 0 ∧ head ≠ 92 := by
        rw [h48]
        decide
      exact (hw.1.past h0.1 h0.2).1
    · exact .refl hw.1
  obtain ⟨b, num2, hnum'⟩ := hzero.1.cons
  obtain ⟨⟨v, num''⟩, hv, hw''⟩ : ∃ r, (if 49 ≤ b ∧ b ≤ 57 then
      digits pushDigit (ofInt 0 : D) (b :: num2) else .ok (ofInt 0, b :: num2)) = .ok r ∧
        Within (b :: num2) r.2 := by
    rw [hnum'] at hzero
    split
    · exact digits_terminated pushDigit hzero.1 (ofInt 0)
    · exact ⟨_, rfl, .refl hzero.1⟩
  refine ⟨sign, head :: num1, head, b, b :: num2, v, num'', hsign, rfl, hnum', rfl, hv, ?_⟩
  rw [hnum'] at hzero
  -- the pointer moves on with the sign, the leading zero or the first digit
  by_cases hminus : c = 45
  · have hnum : t = head :: num1 := by
      rw [hminus] at hsign
      exact (Prod.ext_iff.mp (Except.ok.inj hsign)).2
    rw [← hnum] at hzero hw
    exact (h.past hc.1 hc.2).trans' (hzero.trans hw'')
  · have hd := (hstart c t rfl).resolve_left hminus
    have hplus : ¬(false = true ∧ c = 43) := fun h => absurd h.1 Bool.false_ne_true
    rw [takeSign, peek_cons, ok_bind, if_neg hplus, if_neg hminus] at hsign
    obtain ⟨rfl, rfl⟩ : c = head ∧ t = num1 := by
      simpa using (Prod.ext_iff.mp (Except.ok.inj hsign)).2
    by_cases h48 : c = 48
    · rw [if_pos h48] at hnum'
      rw [← hnum'] at hzero hw''
      exact (h.past hc.1 hc.2).trans' hw''
    · rw [if_neg h48] at hnum'
      obtain ⟨rfl, rfl⟩ : c = b ∧ t = num2 := by simpa using hnum'
      have hlead : 49 ≤ c ∧ c ≤ 57 := by
        obtain ⟨hlo, hhi⟩ := hd
        have hne : c.toNat ≠ 48 := fun h => h48 (UInt8.toNat_inj.mp h)
        refine ⟨UInt8.le_iff_toNat_le.mpr ?_, UInt8.le_iff_toNat_le.mpr hhi⟩
        change 49 ≤ c.toNat
        omega
      rw [if_pos hlead, digits, if_pos hd] at hv
      obtain ⟨r, hr, hw'⟩ := digits_terminated pushDigit (h.tail hc.1 hc.2)
        (pushDigit (ofInt 0 : D) (c.toNat-48))
      obtain rfl : r = (v, num'') := Except.ok.inj (hr.symm.trans hv)
      exact (h.past hc.1 hc.2).trans' hw'

theorem safely_parseNumber (d : Data D) (h : Terminated p)
    (hstart : ∀ c t, p = c :: t → c = 45 ∨ IsDigit c) :
    Safely (parseNumber d p) fun r => Past p r.2 ∧ r.1.valuestring = d.valuestring ∧
      r.1.string = d.string ∧ r.1.block = d.block ∧ r.1.type = cJSON_Number := by
  obtain ⟨sign, num, head, b, num', v, num'', hsign, hhead, hzero, hb, hv, hpast⟩ :=
    leading_terminated (D := D) h hstart
  obtain ⟨c, t, rfl⟩ := hpast.1.1.cons
  rw [parseNumber, hsign, ok_bind]
  simp only [hhead, ok_bind, hzero, hb, hv, peek_cons]
  have hpoint : ∃ point, (if c = 46 then peek t else .ok 0) = .ok point ∧
      (IsDigit point → Within (c :: t) t) := by
    by_cases hc : c = 46
    · have hdot : c ≠ 0 ∧ c ≠ 92 := by
        rw [hc]
        decide
      have hw := (hpast.1.1.past hdot.1 hdot.2).1
      obtain ⟨c', t', rfl⟩ := hw.1.cons
      rw [if_pos hc]
      exact ⟨c', rfl, fun _ => hw⟩
    · rw [if_neg hc]
      exact ⟨0, rfl, fun hd => absurd hd (by decide)⟩
  obtain ⟨point, hpoint, hfraction⟩ := hpoint
  rw [List.tail_cons, hpoint, ok_bind]
  obtain ⟨⟨⟨n, scale⟩, num3⟩, hnum3, hw3⟩ : ∃ r, (if IsDigit point then
      digits (fun (a : D × D) digit => (pushDigit a.1 digit, sub a.2 (ofInt 1))) (v, ofInt 0) t
      else .ok ((v, ofInt 0), c :: t)) = .ok r ∧ Within (c :: t) r.2 := by
    split
    · next hd =>
      obtain ⟨r, hr, hw⟩ := digits_terminated (fun (a : D × D) digit =>
        (pushDigit a.1 digit, sub a.2 (ofInt 1))) (hfraction hd).1 (v, ofInt 0)
      exact ⟨r, hr, (hfraction hd).trans hw⟩
    · exact ⟨_, rfl, .refl hpast.1.1⟩
  simp only [hnum3, ok_bind]
  obtain ⟨c', t', rfl⟩ := hw3.1.cons
  simp only [peek_cons, ok_bind]
  have hexp : Safely (if c' = 101 ∨ c' = 69 then exponent t' else .ok (0, c' :: t'))
      fun r => Within (c' :: t') r.2 := by
    split
    · next he =>
      have hne : c' ≠ 0 ∧ c' ≠ 92 := by
        rcases he with rfl | rfl
        · decide
        · decide
      have hw := (hw3.1.past hne.1 hne.2).1
      exact (safely_exponent hw.1).imp fun r hr => hw.trans hr
    · exact .ok (.refl hw3.1)
  exact hexp.bind fun r hr => .ok ⟨hpast.trans' (hw3.trans hr), rfl, rfl, rfl, rfl⟩

end Numbers

section Strings

variable {p t digits : Text} {n : ℕ}

/-- What an escape at `p` does: it stores no more than the count allows for it. -/
structure Escape (p out q : Text) : Prop where
  past : Past p q
  counts : ∀ n, countCharacters q = .ok n → ∃ m, countCharacters p = .ok m ∧ n+out.length ≤ m

theorem parseHex_complete (hdigits : ∀ c ∈ digits, (hexDigit c).isSome) (h : ℕ) (t : Text) :
    ∃ n, parseHex digits.length h (digits ++ t) = .ok n := by
  induction digits generalizing h with
  | nil => exact ⟨h, by rw [List.length_nil, parseHex]⟩
  | cons c digits ih =>
    obtain ⟨d, hd⟩ := Option.isSome_iff_exists.mp (hdigits c List.mem_cons_self)
    obtain ⟨n, hn⟩ := ih (fun c hc => hdigits c (List.mem_cons_of_mem _ hc)) (h*16+d)
    exact ⟨n, (parseHex_hexDigit hd digits.length (digits ++ t)).trans hn⟩

theorem parseHex4_complete (hlen : digits.length = 4) (hdigits : ∀ c ∈ digits, (hexDigit c).isSome)
    (t : Text) : ∃ n, parseHex4 (digits ++ t) = .ok n := by
  rw [parseHex4, ← hlen]
  exact parseHex_complete hdigits 0 t

theorem countCharacters_digits (hdigits : ∀ c ∈ digits, (hexDigit c).isSome) (ht : t ≠ [])
    (h : countCharacters t = .ok n) : countCharacters (digits ++ t) = .ok (n+digits.length) := by
  induction digits with
  | nil => exact h
  | cons c digits ih =>
    refine countCharacters_plain (hexDigit_ne (hdigits c List.mem_cons_self)) ?_
      (ih fun c hc => hdigits c (List.mem_cons_of_mem _ hc))
    exact List.append_ne_nil_of_right_ne_nil digits ht

theorem transcode_length (uc : ℕ) : (transcode uc).length ≤ 4 := by
  have hstore : ∀ k uc out, (storeTail k uc out).2.length = k+out.length := by
    intro k
    induction k with
    | zero => intro uc out; rw [storeTail, Nat.zero_add]
    | succ k ih =>
      intro uc out
      rw [storeTail, ih, List.length_cons]
      omega
  rw [transcode, List.length_cons, hstore]
  split_ifs <;> simp

theorem unicode_escape (hlen : digits.length = 4) (hdigits : ∀ c ∈ digits, (hexDigit c).isSome)
    (h : Terminated t) {out : Text} (hout : out.length ≤ 5) :
    Escape (92 :: 117 :: (digits ++ t)) out t := by
  refine ⟨⟨⟨h, ?_⟩, ?_⟩, fun n hn => ⟨n+4+1, ?_, by omega⟩⟩
  · exact List.suffix_append (92 :: 117 :: digits) t
  · simp only [List.length_cons, List.length_append]
    omega
  · obtain ⟨c, t, rfl⟩ := h.cons
    rw [← hlen]
    exact countCharacters_escaped (countCharacters_digits hdigits (List.cons_ne_nil c t) hn)

theorem Escape.trans {out q r : Text} (h : Escape p [] q) (h' : Escape q out r) :
    Escape p out r := by
  refine ⟨h.past.trans' h'.past.1, fun n hn => ?_⟩
  obtain ⟨m, hm, hle⟩ := h'.counts n hn
  obtain ⟨m', hm', hle'⟩ := h.counts m hm
  rw [List.length_nil] at hle'
  exact ⟨m', hm', by omega⟩

/-- A complete pair of `u` escapes whose first one is a high surrogate. -/
theorem unescapeUnicode_terminated {a b c d : UInt8}
    (hdigits : ∀ x ∈ [a, b, c, d], (hexDigit x).isSome) (h : Terminated t) :
    ∃ out l q, unescapeUnicode (117 :: a :: b :: c :: d :: t) = .ok (out, l :: q) ∧
      Escape (92 :: 117 :: a :: b :: c :: d :: t) out q := by
  have hfirst (out : Text) (hout : out.length ≤ 5) :
      Escape (92 :: 117 :: a :: b :: c :: d :: t) out t := unicode_escape rfl hdigits h hout
  have hskip := hfirst [] (Nat.zero_le 5)
  obtain ⟨uc, huc⟩ := parseHex4_complete rfl hdigits t
  have hparse : parseHex4 (a :: b :: c :: d :: t) = .ok uc := huc
  rw [unescapeUnicode, List.drop_succ_cons, List.drop_zero, hparse, ok_bind]
  simp only [List.drop_succ_cons, List.drop_zero]
  by_cases hinvalid : (0xDC00 ≤ uc ∧ uc ≤ 0xDFFF) ∨ uc = 0
  · rw [if_pos hinvalid]
    exact ⟨[], d, t, rfl, hskip⟩
  rw [if_neg hinvalid]
  by_cases hhigh : 0xD800 ≤ uc ∧ uc ≤ 0xDBFF
  · rw [if_pos hhigh]
    cases h with
    | terminator after => exact ⟨[], d, 0 :: after, rfl, hskip⟩
    | @char c' t h0 hc h =>
      rw [peek_cons, ok_bind, if_pos hc]
      exact ⟨[], d, c' :: t, rfl, hskip⟩
    | @escaped c' t h0 hc h =>
      simp only [List.drop_succ_cons, List.drop_zero, peek_cons, ok_bind, ne_eq, not_true_eq_false,
        if_false, if_pos hc]
      exact ⟨[], d, 92 :: c' :: t, rfl, hskip⟩
    | @unicode digits t hlen hdigits h =>
      obtain ⟨a', b', c', d', rfl⟩ := List.length_eq_four.mp hlen
      obtain ⟨uc2, huc2⟩ := parseHex4_complete hlen hdigits t
      have hpair (out : Text) (hout : out.length ≤ 5) :=
        hskip.trans (unicode_escape hlen hdigits h hout)
      simp only [List.drop_succ_cons, List.drop_zero, peek_cons, ok_bind, ne_eq, not_true_eq_false,
        if_false, huc2]
      by_cases hlow : uc2 < 0xDC00 ∨ uc2 > 0xDFFF
      · rw [if_pos hlow]
        exact ⟨[], d', t, rfl, hpair [] (Nat.zero_le 5)⟩
      · rw [if_neg hlow]
        exact ⟨_, d', t, rfl, hpair _ (Nat.le_succ_of_le (transcode_length _))⟩
  · rw [if_neg hhigh]
    exact ⟨_, d, t, rfl, hfirst _ (Nat.le_succ_of_le (transcode_length uc))⟩

theorem unescape_terminated (h : Terminated (92 :: p)) :
    ∃ out l q, unescape p = .ok (out, l :: q) ∧ Escape (92 :: p) out q := by
  cases h with
  | char h0 hc h => exact absurd rfl hc
  | @escaped c t h0 hc h =>
    have hescape {l : UInt8} : Escape (92 :: c :: t) [l] t := by
      refine ⟨⟨⟨h, List.suffix_append [92, c] t⟩, ?_⟩, fun n hn => ⟨n+1, countCharacters_escaped hn, ?_⟩⟩
      · simp only [List.length_cons]
        omega
      · exact Nat.le_refl _
    rw [unescape, peek_cons, ok_bind, if_neg hc]
    split_ifs
    all_goals exact ⟨_, c, t, rfl, hescape⟩
  | @unicode digits t hlen hdigits h =>
    obtain ⟨a, b, c, d, rfl⟩ := List.length_eq_four.mp hlen
    exact unescapeUnicode_terminated hdigits h

/-- The loop that copies stays in the room that the loop that counts asks for. -/
theorem copyString_terminated (n : ℕ) (h : Terminated p) (hn : p.length ≤ n) :
    ∃ len, countCharacters p = .ok len ∧ ∀ fuel room, n < fuel → len < room →
      ∃ out q, copyString fuel p room = .ok (out, q) ∧ Within p q := by
  induction n generalizing p with
  | zero =>
    obtain ⟨c, t, rfl⟩ := h.cons
    exact absurd hn (Nat.not_succ_le_zero _)
  | succ n ih =>
    obtain ⟨c, t, rfl⟩ := h.cons
    by_cases hstop : c = 34 ∨ c = 0
    · refine ⟨0, ?_, fun fuel room hf hr => ⟨[], c :: t, ?_, .refl h⟩⟩
      · cases t with
        | nil => rw [countCharacters, if_pos hstop]
        | cons c' t => rw [countCharacters, if_pos hstop]
      · obtain ⟨fuel, rfl⟩ := Nat.exists_eq_add_one_of_ne_zero (Nat.ne_zero_of_lt hf)
        rw [copyString, peek_cons, ok_bind, if_pos hstop, if_pos hr]
    · -- one step of the copy stores `out` and goes on at `q`
      obtain ⟨out, l, q, hstep, hescape⟩ : ∃ out l q, (if c = 92 then unescape t else
          .ok ([c], c :: t)) = .ok (out, l :: q) ∧ Escape (c :: t) out q := by
        by_cases h92 : c = 92
        · rw [if_pos h92]
          rw [h92] at h ⊢
          exact unescape_terminated h
        · rw [if_neg h92]
          have hc : c ≠ 34 ∧ c ≠ 0 ∧ c ≠ 92 := ⟨fun h => hstop (.inl h), fun h => hstop (.inr h), h92⟩
          refine ⟨[c], c, t, rfl, h.past hc.2.1 h92, fun n hn => ⟨n+1, ?_, Nat.le_refl _⟩⟩
          obtain ⟨c', t', rfl⟩ := (h.tail hc.2.1 h92).cons
          exact countCharacters_plain hc (List.cons_ne_nil c' t') hn
      obtain ⟨hpast, hcounts⟩ := hescape
      obtain ⟨len, hlen, hcopy⟩ := ih hpast.1.1 (Nat.le_of_lt_succ (Nat.lt_of_lt_of_le hpast.2 hn))
      obtain ⟨m, hm, hle⟩ := hcounts len hlen
      refine ⟨m, hm, fun fuel room hf hr => ?_⟩
      obtain ⟨fuel, rfl⟩ := Nat.exists_eq_add_one_of_ne_zero (Nat.ne_zero_of_lt hf)
      obtain ⟨s, r, hs, hw⟩ := hcopy fuel (room-out.length) (by omega) (by omega)
      refine ⟨out ++ s, r, ?_, hpast.1.trans hw⟩
      rw [copyString, peek_cons, ok_bind, if_neg hstop, List.tail_cons, hstep, ok_bind]
      simp only [List.tail_cons, hs, ok_bind]
      rw [if_pos (by omega)]

end Strings

section Items

variable {D : Type} {d d' : Data D} {p q : Text} {w w' : World} {o : Outcome D}

theorem World.malloc_cases (w : World) :
    (∃ block, w.malloc = (some block, w.malloc.2) ∧ Owes w.toHeap w.malloc.2.toHeap [block]) ∨
      w.malloc = (none, w.malloc.2) ∧ Owes w.toHeap w.malloc.2.toHeap [] := by
  rcases Ledger.malloc_cases w.toHeap with ⟨block, hm, ho⟩ | ⟨hm, ho, -⟩
  · exact .inl ⟨block, by rw [World.malloc, hm], ho⟩
  · exact .inr ⟨by rw [World.malloc, hm], ho⟩

/-- An item that a parser may fill: its value owns nothing. -/
structure Fresh (d : Data D) : Prop where
  valuestring : d.valuestring = none
  notReference : d.isReference = false

theorem isReference_of_type (ht : d.type ≤ cJSON_Object) : d.isReference = false := by
  have hsmall : ∀ t ≤ cJSON_Object, t &&& cJSON_IsReference = 0 := by decide
  rw [Data.isReference, hsmall d.type ht]
  rfl

theorem Fresh.of_type (hv : d.valuestring = none) (ht : d.type ≤ cJSON_Object) : Fresh d :=
  ⟨hv, isReference_of_type ht⟩

theorem delete_fresh (h : Fresh d) (next child : Chain D) :
    delete (.item d next child) =
      delete child ++ ((d.string.map Prod.fst).toList ++ d.block :: delete next) := by
  simp [delete, h.valuestring, h.notReference]

theorem delete_next (d : Data D) (next child : Chain D) :
    delete (.item d next child) = delete (.item d .null child) ++ delete next := by
  simp [delete]

structure Parses (w : World) (d : Data D) (p : Text) (o : Outcome D) : Prop where
  past : ∀ q, o.rest = some q → Past p q
  owes : ∃ kept, Owes w.toHeap o.world.toHeap kept ∧
    (delete (.item o.data .null o.child)).Perm (delete (.item d .null .null) ++ kept)

theorem Parses.children {rest : Option Text} {child : Chain D} (h : Fresh d) (h' : Fresh d')
    (hstring : d'.string = d.string) (hblock : d'.block = d.block)
    (hpast : ∀ q, rest = some q → Past p q) (ho : Owes w.toHeap w'.toHeap (delete child)) :
    Parses w d p ⟨d', child, rest, w'⟩ := by
  refine ⟨hpast, delete child, ho, ?_⟩
  rw [delete_fresh h, delete_fresh h', hstring, hblock]
  exact List.perm_append_comm

theorem Parses.leaf {rest : Option Text} {ep : Option Text} (h : Fresh d) (h' : Fresh d')
    (hstring : d'.string = d.string) (hblock : d'.block = d.block)
    (hpast : ∀ q, rest = some q → Past p q) :
    Parses w d p ⟨d', .null, rest, { w with ep := ep }⟩ :=
  .children h h' hstring hblock hpast (.refl w.toHeap)

theorem literal_parses (w : World) (hd : Fresh d) (hd' : Fresh d')
    (hstring : d'.string = d.string) (hblock : d'.block = d.block) (hpast : Past p q) :
    Safely (.ok ⟨d', .null, some q, w⟩) (Parses w d p) := by
  refine .ok (.leaf hd hd' hstring hblock fun r hr => ?_)
  rw [← Option.some_inj.mp hr]
  exact hpast

theorem parseString_terminated (h : Terminated p) (w : World) (d : Data D) :
    parseString w d p = .error .intOverflow ∨
    (∃ w', parseString w d p = .ok ⟨d, .null, none, w'⟩ ∧ Owes w.toHeap w'.toHeap []) ∨
      ∃ w' block out q, parseString w d p =
          .ok ⟨{ d with valuestring := some (block, out), type := cJSON_String }, .null, some q, w'⟩ ∧
        Owes w.toHeap w'.toHeap [block] ∧ Past p q := by
  obtain ⟨c, t, rfl⟩ := h.cons
  rw [parseString, peek_cons, ok_bind]
  by_cases hquote : c = 34
  · have hpast : Past (c :: t) t := h.past (by rw [hquote]; decide) (by rw [hquote]; decide)
    obtain ⟨len, hlen, hcopy⟩ := copyString_terminated t.length hpast.1.1 (Nat.le_refl _)
    rw [if_neg (not_not.mpr hquote), List.tail_cons, countString, hlen, ok_bind]
    rcases intSize_cases (len+1) with hsize | ⟨hover, -⟩
    swap
    · rw [hover]
      exact .inl rfl
    rw [hsize, ok_bind]
    refine .inr ?_
    rcases w.malloc_cases with ⟨block, hm, ho⟩ | ⟨hm, ho⟩
    · obtain ⟨out, q, hout, hw⟩ := hcopy (c :: t).length (len+1) (Nat.lt_succ_self _)
        (Nat.lt_succ_self _)
      obtain ⟨l, q', rfl⟩ := hw.1.cons
      rw [hm]
      simp only [hout, ok_bind, peek_cons, List.tail_cons]
      refine .inr ⟨w.malloc.2, block, out, _, rfl, ho, ?_⟩
      by_cases hl : l = 34
      · rw [if_pos hl]
        exact hpast.trans' (hw.trans (hw.1.past (by rw [hl]; decide) (by rw [hl]; decide)).1)
      · rw [if_neg hl]
        exact hpast.trans' hw
    · rw [hm]
      exact .inl ⟨w.malloc.2, rfl, ho⟩
  · rw [if_pos hquote]
    exact .inr (.inl ⟨_, rfl, .refl w.toHeap⟩)

def Parser (member : Member D) (P : Data D → Prop) (n : ℕ) : Prop :=
  ∀ w d p, Terminated p → p.length ≤ n → P d → Safely (member w d p) (Parses w d p)

def Unnamed (d : Data D) : Prop := Fresh d ∧ d.string = none

end Items

section Values

variable {D : Type} {p t : Text} {member : Member D} {n : ℕ}

theorem unnamed_blank [Double D] (block : ℕ) : Unnamed (blank block : Data D) :=
  ⟨.of_type rfl (Nat.zero_le _), rfl⟩

theorem parsePair_terminated (hv : Parser member Fresh n) :
    Parser (parsePair member) Unnamed n := by
  intro w d p h hn hd
  rw [parsePair]
  rcases parseString_terminated h w d with hover | ⟨w', hstring, ho⟩ |
    ⟨w', block, out, q, hstring, ho, hpast⟩
  · rw [hover]
    exact .inr rfl
  · rw [hstring, ok_bind]
    exact .ok (.children hd.1 hd.1 rfl rfl (fun q hq => absurd hq (Option.some_ne_none q).symm) ho)
  · rw [hstring, ok_bind]
    obtain ⟨q, hq, hw⟩ := skip_terminated hpast.1.1
    obtain ⟨c, t, rfl⟩ := hw.1.cons
    have hfresh : Fresh { d with
        valuestring := none, type := cJSON_String, string := some (block, out) } :=
      .of_type rfl (show cJSON_String ≤ cJSON_Object by decide)
    -- the block of the string is the name's
    have hnamed : (delete (.item { d with
        valuestring := none, type := cJSON_String, string := some (block, out) } .null .null)).Perm
          (delete (.item d .null .null) ++ [block]) := by
      rw [delete_fresh hfresh, delete_fresh hd.1, hd.2]
      exact (List.perm_append_comm : ([block] ++ _).Perm _)
    simp only [hq, ok_bind, peek_cons, List.tail_cons]
    by_cases hcolon : c = 58
    · have hpast' := hw.1.past (by rw [hcolon]; decide) (by rw [hcolon]; decide)
      obtain ⟨q, hq, hw'⟩ := skip_terminated hpast'.1.1
      have hpast := hpast.trans' (hw.trans (hpast'.trans' hw').1)
      rw [if_neg (not_not.mpr hcolon), hq, ok_bind]
      have hle := hpast.2
      refine (hv w' _ q hpast.1.1 (by omega) hfresh).imp fun o ho' => ⟨fun r hr => ?_, ?_⟩
      · exact Past.trans hpast.1 (ho'.past r hr)
      · obtain ⟨kept, ho', hperm⟩ := ho'.owes
        refine ⟨[block] ++ kept, ho.trans ho', hperm.trans ?_⟩
        rw [← List.append_assoc]
        exact hnamed.append_right kept
    · rw [if_pos hcolon]
      exact .ok ⟨fun q hq => absurd hq (Option.some_ne_none q).symm, [block], ho, hnamed⟩

variable [Double D]

/-- The members of an array or an object, one after the other. -/
theorem parseMembers_terminated {close : UInt8} (hclose : close ≠ 0 ∧ close ≠ 92)
    (hmember : Parser member Unnamed n) (fuel : ℕ) (w : World) (h : Terminated p)
    (hn : p.length ≤ n) (hf : p.length < fuel) :
    Safely (parseMembers member close fuel w p) fun r =>
      (∀ q, r.2.1 = some q → Past p q) ∧ Owes w.toHeap r.2.2.toHeap (delete r.1) := by
  induction fuel generalizing w p with
  | zero => exact absurd hf (Nat.not_lt_zero _)
  | succ fuel ih =>
    rw [parseMembers]
    rcases w.malloc_cases with ⟨block, hm, ho⟩ | ⟨hm, ho⟩
    · obtain ⟨q, hq, hw⟩ := skip_terminated h
      have hle := hw.2.length_le
      rw [hm]
      simp only [hq, ok_bind]
      refine (hmember w.malloc.2 (blank block) q hw.1 (by omega) (unnamed_blank block)).bind
        fun o hparses => ?_
      obtain ⟨kept, ho', hperm⟩ := hparses.owes
      have howes : Owes w.toHeap o.world.toHeap (delete (.item o.data .null o.child)) := by
        rw [delete_fresh (unnamed_blank block).1] at hperm
        exact (ho.trans ho').perm hperm.symm
      cases hrest : o.rest with
      | none => exact .ok ⟨fun q hq => absurd hq (Option.some_ne_none q).symm, howes⟩
      | some rest =>
        have hpast := Past.trans hw (hparses.past rest hrest)
        obtain ⟨q', hq', hw'⟩ := skip_terminated hpast.1.1
        obtain ⟨c, t, rfl⟩ := hw'.1.cons
        simp only [hq', ok_bind, peek_cons, List.tail_cons]
        by_cases hcomma : c = 44
        · have hnext := hw'.1.past (by rw [hcomma]; decide) (by rw [hcomma]; decide)
          have hpast' := hpast.trans' (hw'.trans hnext.1)
          have hlt := hpast'.2
          rw [if_pos hcomma]
          refine (ih o.world hpast'.1.1 (by omega) (by omega)).bind fun r hr => .ok ⟨?_, ?_⟩
          · exact fun q hq => Past.trans hpast'.1 (hr.1 q hq)
          · rw [delete_next]
            exact howes.trans hr.2
        · rw [if_neg hcomma]
          by_cases hend : c = close
          · have hnext := hw'.1.past (hend ▸ hclose.1) (hend ▸ hclose.2)
            rw [if_pos hend]
            refine .ok ⟨fun q hq => ?_, howes⟩
            rw [← Option.some_inj.mp hq]
            exact hpast.trans' (hw'.trans hnext.1)
          · rw [if_neg hend]
            exact .ok ⟨fun q hq => absurd hq (Option.some_ne_none q).symm, howes⟩
    · rw [hm]
      exact .ok ⟨fun q hq => absurd hq (Option.some_ne_none q).symm, ho⟩

theorem parseBody_terminated {close : UInt8} (hclose : close ≠ 0 ∧ close ≠ 92)
    (hmember : Parser member Unnamed n) {fuel : ℕ} (w : World) (d : Data D)
    (h : Terminated p) (hn : p.length ≤ n) (hf : p.length < fuel) :
    Safely (parseBody member close fuel w d p) fun o =>
      (∀ q, o.rest = some q → Within p q) ∧ o.data = d ∧
        Owes w.toHeap o.world.toHeap (delete o.child) := by
  obtain ⟨q, hq, hw⟩ := skip_terminated h
  obtain ⟨c, t, rfl⟩ := hw.1.cons
  have hle := hw.2.length_le
  rw [parseBody, hq, ok_bind, peek_cons, ok_bind]
  by_cases hend : c = close
  · have hnext := hw.1.past (hend ▸ hclose.1) (hend ▸ hclose.2)
    rw [if_pos hend]
    refine .ok ⟨fun q hq => ?_, rfl, .refl w.toHeap⟩
    rw [← Option.some_inj.mp hq]
    exact hw.trans hnext.1
  · rw [if_neg hend]
    refine (parseMembers_terminated hclose hmember fuel w hw.1 (by omega) (by omega)).bind
      fun r hr => .ok ⟨fun q hq => hw.trans (hr.1 q hq).1, rfl, hr.2⟩

theorem opened_terminated {close : UInt8} {fuel type : ℕ} {d : Data D}
    (hclose : close ≠ 0 ∧ close ≠ 92) (hmember : Parser member Unnamed n) (w : World)
    (hd : Fresh d) (htype : type ≤ cJSON_Object) (hpast : Past p t) (hn : p.length ≤ n+1)
    (hf : n < fuel) :
    Safely (parseBody member close fuel w { d with type := type } t) (Parses w d p) := by
  have hlt := hpast.2
  refine (parseBody_terminated hclose hmember w _ hpast.1.1 (by omega) (by omega)).imp
    fun o ho => ?_
  obtain ⟨hwithin, hdata, howes⟩ := ho
  have hfresh : Fresh { d with type := type } := .of_type hd.valuestring htype
  refine ⟨fun q hq => hpast.trans' (hwithin q hq), delete o.child, howes, ?_⟩
  rw [hdata, delete_fresh hd, delete_fresh hfresh]
  exact List.perm_append_comm

theorem parseArray_terminated (hv : Parser member Fresh n) {fuel : ℕ} (w : World) {d : Data D}
    (hd : Fresh d) (h : Terminated p) (hn : p.length ≤ n+1) (hf : n < fuel) :
    Safely (parseArray member fuel w d p) (Parses w d p) := by
  obtain ⟨c, t, rfl⟩ := h.cons
  rw [parseArray, peek_cons, ok_bind]
  by_cases hopen : c = 91
  · have hpast := h.past (by rw [hopen]; decide) (by rw [hopen]; decide)
    rw [if_neg (not_not.mpr hopen), List.tail_cons]
    exact opened_terminated (by decide) (fun w d p h hn hd => hv w d p h hn hd.1) w hd
      (by decide) hpast hn hf
  · rw [if_pos hopen]
    exact .ok (.leaf hd hd rfl rfl fun q hq => absurd hq (Option.some_ne_none q).symm)

theorem parseObject_terminated (hv : Parser member Fresh n) {fuel : ℕ} (w : World) {d : Data D}
    (hd : Fresh d) (h : Terminated p) (hn : p.length ≤ n+1) (hf : n < fuel) :
    Safely (parseObject member fuel w d p) (Parses w d p) := by
  obtain ⟨c, t, rfl⟩ := h.cons
  rw [parseObject, peek_cons, ok_bind]
  by_cases hopen : c = 123
  · have hpast := h.past (by rw [hopen]; decide) (by rw [hopen]; decide)
    rw [if_neg (not_not.mpr hopen), List.tail_cons]
    exact opened_terminated (by decide) (parsePair_terminated hv) w hd (by decide) hpast hn hf
  · rw [if_pos hopen]
    exact .ok (.leaf hd hd rfl rfl fun q hq => absurd hq (Option.some_ne_none q).symm)

theorem literal_terminated {literal : Text} (hl : ∀ l ∈ literal, l ≠ 0 ∧ l ≠ 92)
    (hpos : 0 < literal.length) (h : Terminated p) :
    ∃ b, strncmp p literal = .ok b ∧ (b = true → Past p (p.drop literal.length)) := by
  obtain ⟨b, hb, hw⟩ := strncmp_terminated hl h
  refine ⟨b, hb, fun htrue => ⟨(hw htrue).1, ?_⟩⟩
  have hlen := (hw htrue).2
  omega

theorem parseValue_terminated (fuel : ℕ) : Parser (parseValue (D := D) (fuel+1)) Fresh fuel := by
  induction fuel with
  | zero =>
    intro w d p h hn hd
    obtain ⟨c, t, rfl⟩ := h.cons
    exact absurd hn (Nat.not_succ_le_zero _)
  | succ fuel ih =>
    intro w d p h hn hd
    obtain ⟨isNull, hnull, hpast⟩ := literal_terminated (p := p) (show
      ∀ l ∈ nullText, l ≠ 0 ∧ l ≠ 92 by simp [nullText]) (by decide) h
    rw [parseValue, hnull, ok_bind]
    by_cases hisNull : isNull = true
    · rw [if_pos hisNull]
      exact literal_parses w hd (.of_type hd.valuestring (show cJSON_NULL ≤ cJSON_Object by decide))
        rfl rfl (hpast hisNull)
    rw [if_neg hisNull]
    obtain ⟨isFalse, hfalse, hpast⟩ := literal_terminated (p := p) (show
      ∀ l ∈ falseText, l ≠ 0 ∧ l ≠ 92 by simp [falseText]) (by decide) h
    rw [hfalse, ok_bind]
    by_cases hisFalse : isFalse = true
    · rw [if_pos hisFalse]
      exact literal_parses w hd (.of_type hd.valuestring (show cJSON_False ≤ cJSON_Object by decide))
        rfl rfl (hpast hisFalse)
    rw [if_neg hisFalse]
    obtain ⟨isTrue, htrue, hpast⟩ := literal_terminated (p := p) (show
      ∀ l ∈ trueText, l ≠ 0 ∧ l ≠ 92 by simp [trueText]) (by decide) h
    rw [htrue, ok_bind]
    by_cases hisTrue : isTrue = true
    · rw [if_pos hisTrue]
      exact literal_parses w hd (.of_type hd.valuestring (show cJSON_True ≤ cJSON_Object by decide))
        rfl rfl (hpast hisTrue)
    rw [if_neg hisTrue]
    obtain ⟨c, t, rfl⟩ := h.cons
    rw [peek_cons, ok_bind]
    by_cases hquote : c = 34
    · rw [if_pos hquote]
      rcases parseString_terminated h w d with hover | ⟨w', hstring, ho⟩ |
        ⟨w', block, out, q, hstring, ho, hp⟩
      · rw [hover]
        exact .inr rfl
      · rw [hstring]
        exact .ok (.children hd hd rfl rfl (fun q hq => absurd hq (Option.some_ne_none q).symm) ho)
      · rw [hstring]
        refine .ok ⟨fun r hr => ?_, [block], ho, ?_⟩
        · rw [← Option.some_inj.mp hr]
          exact hp
        · have htype : ({ d with
              valuestring := some (block, out), type := cJSON_String } : Data D).isReference = false :=
            isReference_of_type (show cJSON_String ≤ cJSON_Object by decide)
          rw [delete_fresh hd]
          simp only [delete, htype]
          exact (List.perm_append_comm : ([block] ++ _).Perm _)
    rw [if_neg hquote]
    by_cases hnumber : c = 45 ∨ (48 ≤ c ∧ c ≤ 57)
    · rw [if_pos hnumber]
      have hstart : ∀ c' t', c :: t = c' :: t' → c' = 45 ∨ IsDigit c' := by
        rintro c' t' heq
        obtain ⟨rfl, rfl⟩ := List.cons.inj heq
        exact hnumber
      refine (safely_parseNumber d h hstart).bind fun r hr => ?_
      obtain ⟨hp, hvaluestring, hstring, hblock, htype⟩ := hr
      refine literal_parses w hd (.of_type (hvaluestring.trans hd.valuestring) ?_) hstring hblock hp
      rw [htype]
      decide
    rw [if_neg hnumber]
    by_cases harray : c = 91
    · rw [if_pos harray]
      exact parseArray_terminated ih w hd h hn (Nat.lt_succ_self fuel)
    rw [if_neg harray]
    by_cases hobject : c = 123
    · rw [if_pos hobject]
      exact parseObject_terminated ih w hd h hn (Nat.lt_succ_self fuel)
    rw [if_neg hobject]
    exact .ok (.leaf hd hd rfl rfl fun q hq => absurd hq (Option.some_ne_none q).symm)

/-- Whichever request is refused, the parser reads nothing past the text and every block it
was granted is in the tree it returns or has been freed once. -/
theorem parse_safe (w : World) (value : Option Text) (h : ∀ t, value = some t → Terminated t)
    (requireNullTerminated : Bool) :
    Safely (parseWithOpts (D := D) w value requireNullTerminated) fun r =>
      Owes w.toHeap r.2.2.toHeap (delete r.1) ∧
        (∀ t q, value = some t → r.2.1 = some q → Within t q) ∧ (r.1 = .null ↔ r.2.1 = none) := by
  have hnone {w' : World} (ho : Owes w.toHeap w'.toHeap []) :
      Safely (.ok ((.null : Chain D), (none : Option Text), w')) fun r =>
        Owes w.toHeap r.2.2.toHeap (delete r.1) ∧
          (∀ t q, value = some t → r.2.1 = some q → Within t q) ∧ (r.1 = .null ↔ r.2.1 = none) :=
    .ok ⟨ho, fun t q _ hq => absurd hq (Option.some_ne_none q).symm, by simp⟩
  have hsome {w' : World} {d : Data D} {next child : Chain D} {rest : Text}
      (ho : Owes w.toHeap w'.toHeap (delete (.item d next child)))
      (hw : ∀ t, value = some t → Within t rest) :
      Safely (.ok (Chain.item d next child, some rest, w')) fun r =>
        Owes w.toHeap r.2.2.toHeap (delete r.1) ∧
          (∀ t q, value = some t → r.2.1 = some q → Within t q) ∧ (r.1 = .null ↔ r.2.1 = none) := by
    refine .ok ⟨ho, fun t q ht hq => ?_, by simp⟩
    rw [← Option.some_inj.mp hq]
    exact hw t ht
  rw [parseWithOpts]
  rcases w.malloc_cases with ⟨block, hm, ho⟩ | ⟨hm, ho⟩
  · rw [hm]
    cases value with
    | none => exact hnone (ho.free (List.Perm.of_eq (List.append_nil _).symm))
    | some t =>
      obtain ⟨q, hq, hw⟩ := skip_terminated (h t rfl)
      have hfresh := (unnamed_blank (D := D) block).1
      simp only [hq, ok_bind]
      refine (parseValue_terminated q.length { w.malloc.2 with ep := none } (blank block) q hw.1
        (Nat.le_refl _) hfresh).bind fun o hparses => ?_
      obtain ⟨kept, ho', hperm⟩ := hparses.owes
      have howes : Owes w.toHeap o.world.toHeap (delete (.item o.data .null o.child)) := by
        rw [delete_fresh hfresh] at hperm
        exact (ho.trans ho').perm hperm.symm
      have hfreed := howes.free (List.Perm.of_eq (List.append_nil _).symm)
      cases hrest : o.rest with
      | none => exact hnone hfreed
      | some rest =>
        have hpast := Past.trans hw (hparses.past rest hrest)
        cases requireNullTerminated with
        | false =>
          refine hsome howes fun t' ht' => ?_
          rw [← Option.some_inj.mp ht']
          exact hpast.1
        | true =>
          obtain ⟨q', hq', hw'⟩ := skip_terminated hpast.1.1
          obtain ⟨c, t', rfl⟩ := hw'.1.cons
          simp only [hq', ok_bind, peek_cons, if_true]
          by_cases hend : c ≠ 0
          · rw [if_pos hend]
            exact hnone hfreed
          · rw [if_neg hend]
            refine hsome howes fun t'' ht'' => ?_
            rw [← Option.some_inj.mp ht'']
            exact hpast.1.trans hw'
  · rw [hm]
    exact hnone ho

end Values

/-- An escape in an array, with the third request refused. -/
theorem parse_safe_refused :
    ∃ r, parseWithOpts (D := ℤ) ⟨⟨fun n => n ≠ 2, 0, []⟩, none⟩
      (some (91 :: 34 :: 92 :: 117 :: ([48, 48, 101, 57] ++ [34, 93, 0]))) true = .ok r ∧
        Owes ⟨fun n => n ≠ 2, 0, []⟩ r.2.2.toHeap (delete r.1) ∧
          (∀ t q, some (91 :: 34 :: 92 :: 117 :: ([48, 48, 101, 57] ++ [34, 93, 0])) = some t →
            r.2.1 = some q → Within t q) ∧ (r.1 = .null ↔ r.2.1 = none) := by
  refine (parse_safe _ _ (fun t ht => ?_) true).resolve_right ?_
  · rw [← Option.some_inj.mp ht]
    refine .char (by decide) (by decide) (.char (by decide) (by decide) (.unicode rfl (by decide +kernel) ?_))
    exact .char (by decide) (by decide) (.char (by decide) (by decide) (.terminator []))
  · intro hover
    have hrun : parseWithOpts (D := ℤ) ⟨⟨fun n => n ≠ 2, 0, []⟩, none⟩
        (some (91 :: 34 :: 92 :: 117 :: ([48, 48, 101, 57] ++ [34, 93, 0]))) true =
          .ok (.null, none, _) := rfl
    rw [hrun] at hover
    exact absurd hover (by simp)

/-- A backslash before the terminator takes the parser past it. -/
example : parseWithOpts (D := ℤ) ⟨⟨fun _ => true, 0, []⟩, none⟩ (some [34, 92, 0]) true =
    .error .wildAccess := rfl

end CLearning.Json
