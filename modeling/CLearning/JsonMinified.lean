import CLearning.JsonSafety

/-!
# Parsing a minified text

A text the parser accepts to its end gives the same tree after `cJSON_Minify`,
as long as its strings are closed and their escapes complete. The parser skips
every control character between two lexemes; only blanks are taken out.
-/

set_option autoImplicit false

namespace CLearning.Json
open CLearning.Machine CLearning.Decimal CLearning.Ledger

section Bodies

variable {D : Type} {c : UInt8} {p t body digits : Text}

inductive Body : Text → Prop
  | nil : Body []
  | plain {c : UInt8} {t : Text} (hc : c ≠ 34 ∧ c ≠ 0 ∧ c ≠ 92) (h : Body t) : Body (c :: t)
  | escaped {c : UInt8} {t : Text} (h0 : c ≠ 0) (hc : c ≠ 117) (h : Body t) : Body (92 :: c :: t)
  | unicode {digits t : Text} (hlen : digits.length = 4)
      (hdigits : ∀ c ∈ digits, (hexDigit c).isSome) (h : Body t) :
      Body (92 :: 117 :: (digits ++ t))

/-- A terminated text of closed strings and other characters. -/
inductive Quoted : Text → Prop
  | terminator (after : Text) : Quoted (0 :: after)
  | char {c : UInt8} {t : Text} (h0 : c ≠ 0) (hc : c ≠ 34) (h : Quoted t) : Quoted (c :: t)
  | string {body t : Text} (hb : Body body) (h : Quoted t) : Quoted (34 :: (body ++ 34 :: t))

theorem Body.quotable (h : Body body) : Quotable body := by
  induction h with
  | nil => exact .nil
  | plain hc _ ih => exact .plain ⟨hc.2.1, hc.1, hc.2.2⟩ ih
  | escaped h0 hc _ ih => exact .escaped _ ih
  | @unicode digits t hlen hdigits _ ih =>
    refine .escaped 117 (Quotable.append ?_ ih)
    clear hlen
    induction digits with
    | nil => exact .nil
    | cons c digits ih' =>
      obtain ⟨h34, h0, h92⟩ := hexDigit_ne (hdigits c List.mem_cons_self)
      exact .plain ⟨h0, h34, h92⟩ (ih' fun x hx => hdigits x (List.mem_cons_of_mem c hx))

theorem Body.count (h : Body body) : ∃ n, ∀ t, countCharacters (body ++ 34 :: t) = .ok n := by
  induction h with
  | nil =>
    refine ⟨0, fun t => ?_⟩
    cases t with
    | nil => rfl
    | cons c t => rfl
  | @plain c body hc _ ih =>
    obtain ⟨n, hn⟩ := ih
    exact ⟨n+1, fun t => countCharacters_plain hc (by simp) (hn t)⟩
  | escaped h0 hc _ ih =>
    obtain ⟨n, hn⟩ := ih
    exact ⟨n+1, fun t => countCharacters_escaped (hn t)⟩
  | @unicode digits body hlen hdigits _ ih =>
    obtain ⟨n, hn⟩ := ih
    refine ⟨n+digits.length+1, fun t => ?_⟩
    have hcount := countCharacters_digits hdigits (by simp) (hn t)
    rw [← List.append_assoc] at hcount
    exact countCharacters_escaped hcount

theorem parseHex_uniform (hdigits : ∀ c ∈ digits, (hexDigit c).isSome) (h : ℕ) :
    ∃ n, ∀ t, parseHex digits.length h (digits ++ t) = .ok n := by
  induction digits generalizing h with
  | nil => exact ⟨h, fun t => by rw [List.length_nil, parseHex]⟩
  | cons c digits ih =>
    obtain ⟨d, hd⟩ := Option.isSome_iff_exists.mp (hdigits c List.mem_cons_self)
    obtain ⟨n, hn⟩ := ih (fun c hc => hdigits c (List.mem_cons_of_mem _ hc)) (h*16+d)
    exact ⟨n, fun t => (parseHex_hexDigit hd digits.length (digits ++ t)).trans (hn t)⟩

theorem parseHex4_uniform (hlen : digits.length = 4)
    (hdigits : ∀ c ∈ digits, (hexDigit c).isSome) : ∃ n, ∀ t, parseHex4 (digits ++ t) = .ok n := by
  obtain ⟨n, hn⟩ := parseHex_uniform hdigits 0
  exact ⟨n, fun t => by rw [parseHex4, ← hlen, hn]⟩

/-- A `u` escape inside a string, whatever follows the closing quote. -/
theorem unescapeUnicode_body {a b c d : UInt8} (hdigits : ∀ x ∈ [a, b, c, d], (hexDigit x).isSome)
    (h : Body p) : ∃ out l p', Body p' ∧ p'.length ≤ p.length ∧ ∀ t,
      unescapeUnicode (117 :: a :: b :: c :: d :: (p ++ 34 :: t)) =
        .ok (out, l :: (p' ++ 34 :: t)) := by
  obtain ⟨uc, huc⟩ := parseHex4_uniform rfl hdigits
  have hparse (t : Text) : parseHex4 (a :: b :: c :: d :: t) = .ok uc := huc t
  by_cases hinvalid : (0xDC00 ≤ uc ∧ uc ≤ 0xDFFF) ∨ uc = 0
  · refine ⟨[], d, p, h, Nat.le_refl _, fun t => ?_⟩
    rw [unescapeUnicode, List.drop_succ_cons, List.drop_zero, hparse, ok_bind, if_pos hinvalid]
    rfl
  by_cases hhigh : 0xD800 ≤ uc ∧ uc ≤ 0xDBFF
  · have hopen (t : Text) : unescapeUnicode (117 :: a :: b :: c :: d :: t) = (do
        let c ← peek t
        if c ≠ 92 then .ok ([], d :: t)
        else do
          let c ← peek t.tail
          if c ≠ 117 then .ok ([], d :: t)
          else do
            let uc2 ← parseHex4 (t.drop 2)
            if uc2 < 0xDC00 ∨ uc2 > 0xDFFF then .ok ([], t.drop 5)
            else .ok (transcode (0x10000+(((uc &&& 0x3FF) <<< 10) ||| (uc2 &&& 0x3FF))),
              t.drop 5)) := by
      rw [unescapeUnicode, List.drop_succ_cons, List.drop_zero, hparse, ok_bind,
        if_neg hinvalid, if_pos hhigh]
      simp only [List.drop_succ_cons, List.drop_zero, ← List.drop_one]
    cases h with
    | nil => exact ⟨[], d, [], .nil, Nat.le_refl _, fun t => hopen _⟩
    | @plain c' p hc h =>
      refine ⟨[], d, c' :: p, .plain hc h, Nat.le_refl _, fun t => (hopen _).trans ?_⟩
      rw [List.cons_append, peek_cons, ok_bind, if_pos hc.2.2]
    | @escaped c' p h0 hc h =>
      refine ⟨[], d, 92 :: c' :: p, .escaped h0 hc h, Nat.le_refl _, fun t => (hopen _).trans ?_⟩
      simp only [List.cons_append, peek_cons, ok_bind, List.tail_cons, ne_eq, not_true_eq_false,
        if_false, if_pos hc]
    | @unicode digits p hlen hdigits h =>
      obtain ⟨a', b', c', d', rfl⟩ := List.length_eq_four.mp hlen
      obtain ⟨uc2, huc2⟩ := parseHex4_uniform hlen hdigits
      have hparse2 (t : Text) : parseHex4 (a' :: b' :: c' :: d' :: t) = .ok uc2 := huc2 t
      have hle : p.length ≤ (92 :: 117 :: ([a', b', c', d'] ++ p)).length := by
        simp only [List.length_cons, List.length_append]
        omega
      by_cases hlow : uc2 < 0xDC00 ∨ uc2 > 0xDFFF
      · refine ⟨[], d', p, h, hle, fun t => (hopen _).trans ?_⟩
        simp only [List.cons_append, List.nil_append, peek_cons, ok_bind, List.tail_cons, ne_eq,
          not_true_eq_false, if_false, List.drop_succ_cons, List.drop_zero, hparse2, if_pos hlow]
      · refine ⟨transcode (0x10000+(((uc &&& 0x3FF) <<< 10) ||| (uc2 &&& 0x3FF))), d', p, h, hle,
          fun t => (hopen _).trans ?_⟩
        simp only [List.cons_append, List.nil_append, peek_cons, ok_bind, List.tail_cons, ne_eq,
          not_true_eq_false, if_false, List.drop_succ_cons, List.drop_zero, hparse2, if_neg hlow]
  · refine ⟨transcode uc, d, p, h, Nat.le_refl _, fun t => ?_⟩
    rw [unescapeUnicode, List.drop_succ_cons, List.drop_zero, hparse, ok_bind, if_neg hinvalid,
      if_neg hhigh]
    rfl

theorem unescape_body (h : Body (92 :: p)) : ∃ out l p', Body p' ∧ p'.length ≤ p.length ∧ ∀ t,
    unescape (p ++ 34 :: t) = .ok (out, l :: (p' ++ 34 :: t)) := by
  cases h with
  | plain hc h => exact absurd rfl hc.2.2
  | @escaped c p h0 hc h =>
    refine ⟨if c = 98 then [8] else if c = 102 then [12] else if c = 110 then [10] else
      if c = 114 then [13] else if c = 116 then [9] else [c], c, p, h, Nat.le_succ _, fun t => ?_⟩
    rw [List.cons_append, unescape, peek_cons, ok_bind, if_neg hc]
    split_ifs <;> rfl
  | @unicode digits p hlen hdigits h =>
    obtain ⟨a, b, c, d, rfl⟩ := List.length_eq_four.mp hlen
    obtain ⟨out, l, p', hp', hle, hrun⟩ := unescapeUnicode_body hdigits h
    refine ⟨out, l, p', hp', ?_, hrun⟩
    simp only [List.length_cons, List.length_append]
    omega

theorem copyString_closed {out q : Text} {fuel room : ℕ}
    (h : copyString fuel ([] ++ 34 :: t) room = .ok (out, q)) :
    q = 34 :: t ∧ ∀ t' fuel', ([] : Text).length < fuel' →
      copyString fuel' ([] ++ 34 :: t') room = .ok (out, 34 :: t') := by
  cases fuel with
  | zero => cases h
  | succ fuel =>
    rw [List.nil_append, copyString, peek_cons, ok_bind, if_pos (.inl rfl)] at h
    split at h
    · next hroom =>
      obtain ⟨rfl, rfl⟩ := Prod.mk.inj (Except.ok.inj h)
      refine ⟨rfl, fun t' fuel' hf => ?_⟩
      obtain ⟨fuel', rfl⟩ := Nat.exists_eq_add_one_of_ne_zero (Nat.ne_zero_of_lt hf)
      rw [List.nil_append, copyString, peek_cons, ok_bind, if_pos (.inl rfl), if_pos hroom]
    · cases h

/-- What is copied depends on the inside alone. -/
theorem copyString_body (n : ℕ) : ∀ {body t out q : Text} {fuel room : ℕ}, Body body →
    body.length ≤ n → copyString fuel (body ++ 34 :: t) room = .ok (out, q) →
      q = 34 :: t ∧ ∀ t' fuel', body.length < fuel' →
        copyString fuel' (body ++ 34 :: t') room = .ok (out, 34 :: t') := by
  induction n with
  | zero =>
    intro body t out q fuel room hb hn h
    obtain rfl := List.length_eq_zero_iff.mp (Nat.le_zero.mp hn)
    exact copyString_closed h
  | succ n ih =>
    intro body t out q fuel room hb hn h
    cases body with
    | nil => exact copyString_closed h
    | cons c body =>
      -- one step stores `piece` and goes on at `body'`
      obtain ⟨piece, l, body', hstop, hb', hle, hstep⟩ : ∃ piece l body', ¬(c = 34 ∨ c = 0) ∧
          Body body' ∧ body'.length ≤ body.length ∧ ∀ t, (if c = 92 then unescape (body ++ 34 :: t)
            else .ok ([c], c :: (body ++ 34 :: t))) = .ok (piece, l :: (body' ++ 34 :: t)) := by
        by_cases h92 : c = 92
        · rw [h92] at hb
          obtain ⟨piece, l, body', hb', hle, hrun⟩ := unescape_body hb
          refine ⟨piece, l, body', by rw [h92]; decide, hb', hle, fun t => ?_⟩
          rw [if_pos h92, hrun t]
        · cases hb with
          | @plain _ _ hc hb =>
            exact ⟨[c], c, body, fun h => h.elim hc.1 hc.2.1, hb, Nat.le_refl _, fun t => by
              rw [if_neg h92]⟩
          | escaped => exact absurd rfl h92
          | unicode => exact absurd rfl h92
      have hlen : body'.length ≤ n := Nat.le_trans hle (Nat.le_of_succ_le_succ hn)
      cases fuel with
      | zero => cases h
      | succ fuel =>
        rw [List.cons_append, copyString, peek_cons, ok_bind, if_neg hstop, List.tail_cons,
          hstep t, ok_bind] at h
        simp only [List.tail_cons] at h
        split at h
        · next hroom =>
          obtain ⟨r, hr, h⟩ := bind_ok_iff.mp h
          obtain ⟨hq, hrun⟩ := ih hb' hlen hr
          obtain ⟨rfl, rfl⟩ := Prod.mk.inj (Except.ok.inj h)
          refine ⟨hq, fun t' fuel' hf => ?_⟩
          obtain ⟨fuel', rfl⟩ := Nat.exists_eq_add_one_of_ne_zero (Nat.ne_zero_of_lt hf)
          have hrest := hrun t' fuel' (by rw [List.length_cons] at hf; omega)
          rw [List.cons_append, copyString, peek_cons, ok_bind, if_neg hstop, List.tail_cons,
            hstep t', ok_bind]
          simp only [List.tail_cons, if_pos hroom, hrest, ok_bind]
        · cases h

/-- What is parsed from a closed string depends on its inside alone. -/
theorem parseString_body {w : World} {d : Data D} {o : Outcome D} {q : Text} (hb : Body body)
    (h : parseString w d (34 :: (body ++ 34 :: t)) = .ok o) (hr : o.rest = some q) :
    q = t ∧ ∀ t', parseString w d (34 :: (body ++ 34 :: t')) = .ok { o with rest := some t' } := by
  obtain ⟨n, hn⟩ := hb.count
  rw [parseString, peek_cons, ok_bind, if_neg (not_not.mpr rfl), List.tail_cons] at h
  rcases intSize_cases (n+1) with hsize | ⟨hover, -⟩
  swap
  · rw [countString, hn t, ok_bind, hover] at h
    cases h
  have hcount : ∀ t, countString (body ++ 34 :: t) = .ok (n+1) := fun t => by
    rw [countString, hn t, ok_bind, hsize]
  rw [hcount t, ok_bind] at h
  cases hm : w.malloc with
  | mk block w' =>
    rw [hm] at h
    cases block with
    | none =>
      rw [← Except.ok.inj h] at hr
      cases hr
    | some block =>
      obtain ⟨⟨out, ptr⟩, hcopy, h⟩ := bind_ok_iff.mp h
      obtain ⟨rfl, hrun⟩ := copyString_body body.length hb (Nat.le_refl _) hcopy
      simp only [peek_cons, ok_bind, if_true, List.tail_cons] at h
      rw [← Except.ok.inj h] at hr ⊢
      refine ⟨(Option.some_inj.mp hr).symm, fun t' => ?_⟩
      have hrest := hrun t' (34 :: (body ++ 34 :: t')).length (by simp)
      rw [parseString, peek_cons, ok_bind, if_neg (not_not.mpr rfl), List.tail_cons, hcount t', ok_bind,
        hm]
      simp only [hrest, ok_bind, peek_cons, if_true, List.tail_cons]

end Bodies

section Gaps

variable {c : UInt8} {p q t : Text}

def IsSpace (c : UInt8) : Prop := c ≠ 0 ∧ c ≤ 32

instance (c : UInt8) : Decidable (IsSpace c) := inferInstanceAs (Decidable (_ ∧ _))

def kept (gap : Text) : Text := gap.filter fun c => ¬IsBlank c

theorem skip_gap (h : skip p = .ok q) : ∃ gap c t, p = gap ++ q ∧ (∀ x ∈ gap, IsSpace x) ∧
    q = c :: t ∧ ¬IsSpace c := by
  induction p with
  | nil => cases h
  | cons c p ih =>
    rw [skip] at h
    split at h
    · next hc =>
      obtain ⟨gap, c', t, rfl, hgap, hq, hc'⟩ := ih h
      exact ⟨c :: gap, c', t, rfl, List.forall_mem_cons.mpr ⟨hc, hgap⟩, hq, hc'⟩
    · next hc =>
      exact ⟨[], c, p, Except.ok.inj h, fun x hx => absurd hx List.not_mem_nil,
        (Except.ok.inj h).symm, hc⟩

theorem gap_skip {gap : Text} (hgap : ∀ x ∈ gap, IsSpace x) (hc : ¬IsSpace c) (t : Text) :
    skip (gap ++ c :: t) = .ok (c :: t) := by
  induction gap with
  | nil => exact if_neg hc
  | cons x gap ih =>
    have hx : x ≠ 0 ∧ x ≤ 32 := hgap x List.mem_cons_self
    rw [List.cons_append, skip, if_pos hx]
    exact ih fun y hy => hgap y (List.mem_cons_of_mem x hy)

theorem kept_spaces {gap : Text} (hgap : ∀ x ∈ gap, IsSpace x) : ∀ x ∈ kept gap, IsSpace x :=
  fun x hx => hgap x (List.mem_of_mem_filter hx)

theorem squeezes_gap {gap : Text} (hgap : ∀ x ∈ gap, IsSpace x) : Squeezes gap (kept gap) := by
  induction gap with
  | nil => exact squeezes_nil
  | cons c gap ih =>
    obtain ⟨h0, hle⟩ := hgap c List.mem_cons_self
    have hrest := ih fun y hy => hgap y (List.mem_cons_of_mem c hy)
    by_cases hc : IsBlank c
    · rw [kept, List.filter_cons_of_neg (by simpa using hc)]
      exact (squeezes_blank hc).append hrest
    · rw [kept, List.filter_cons_of_pos (by simpa using hc)]
      refine (squeezes_plain ⟨h0, hc, ?_, ?_⟩).append hrest
      · rintro rfl
        exact absurd hle (by decide)
      · rintro rfl
        exact absurd hle (by decide)

theorem Quoted.tail (h : Quoted (c :: t)) (h0 : c ≠ 0) (hc : c ≠ 34) : Quoted t := by
  cases h with
  | terminator => exact absurd rfl h0
  | char _ _ h => exact h
  | string => exact absurd rfl hc

theorem Quoted.past {l : Text} (h : Quoted (l ++ t)) (hl : ∀ x ∈ l, x ≠ 0 ∧ x ≠ 34) : Quoted t := by
  induction l with
  | nil => exact h
  | cons c l ih =>
    obtain ⟨h0, hc⟩ := hl c List.mem_cons_self
    exact ih (h.tail h0 hc) fun x hx => hl x (List.mem_cons_of_mem c hx)

theorem Quoted.past_gap {gap : Text} (h : Quoted (gap ++ t)) (hgap : ∀ x ∈ gap, IsSpace x) :
    Quoted t := by
  refine h.past fun x hx => ⟨(hgap x hx).1, ?_⟩
  rintro rfl
  exact absurd (hgap 34 hx).2 (by decide)

end Gaps

section Numerals

variable {c : UInt8} {p q t : Text}

def Head (P : UInt8 → Prop) (p : Text) : Prop := ∃ c t, p = c :: t ∧ P c

def IsNumeric (c : UInt8) : Prop := IsDigit c ∨ c = 43 ∨ c = 45 ∨ c = 46 ∨ c = 69 ∨ c = 101

instance (c : UInt8) : Decidable (IsNumeric c) := inferInstanceAs (Decidable (_ ∨ _))

def Stops : Text → Prop := Head fun c => ¬IsNumeric c

theorem Head.imp {P Q : UInt8 → Prop} (h : Head P p) (hPQ : ∀ c, P c → Q c) : Head Q p := by
  obtain ⟨c, t, rfl, hc⟩ := h
  exact ⟨c, t, rfl, hPQ c hc⟩

theorem Head.append {P : UInt8 → Prop} (h : Head P q) (hp : ∀ x ∈ p, P x) : Head P (p ++ q) := by
  cases p with
  | nil => exact h
  | cons c p => exact ⟨c, p ++ q, rfl, hp c List.mem_cons_self⟩

theorem Head.of_head {P : UInt8 → Prop} (h : Head P p) (hq : q.head? = p.head?) : Head P q := by
  obtain ⟨c, t, rfl, hc⟩ := h
  obtain ⟨t', rfl⟩ := List.head?_eq_some_iff.mp hq
  exact ⟨c, t', rfl, hc⟩

theorem Head.head_append {P : UInt8 → Prop} (h : Head P p) (q : Text) :
    (p ++ q).head? = p.head? := by
  obtain ⟨c, t, rfl, -⟩ := h
  rfl

theorem Head.left {P : UInt8 → Prop} (h : Head P p) (q : Text) : Head P (p ++ q) := by
  obtain ⟨c, t, rfl, hc⟩ := h
  exact ⟨c, t ++ q, rfl, hc⟩

theorem digits_split {α : Type} {f : α → ℕ → α} {a b : α} (h : digits f a p = .ok (b, q)) :
    ∃ ds, p = ds ++ q ∧ (∀ x ∈ ds, IsDigit x) ∧
      ∀ q', Head (fun c => ¬IsDigit c) q' → digits f a (ds ++ q') = .ok (b, q') := by
  induction p generalizing a with
  | nil => cases h
  | cons c p ih =>
    rw [digits] at h
    split at h
    · next hc =>
      obtain ⟨ds, rfl, hds, hrun⟩ := ih h
      refine ⟨c :: ds, rfl, List.forall_mem_cons.mpr ⟨hc, hds⟩, fun q' hq' => ?_⟩
      rw [List.cons_append, digits, if_pos hc]
      exact hrun q' hq'
    · obtain ⟨rfl, rfl⟩ := Prod.mk.inj (Except.ok.inj h)
      refine ⟨[], rfl, fun x hx => absurd hx List.not_mem_nil, ?_⟩
      rintro q' ⟨c', t', rfl, hc'⟩
      rw [List.nil_append, digits, if_neg hc']

theorem exponentDigits_split {a b : ℤ} (h : exponentDigits a p = .ok (b, q)) :
    ∃ ds, p = ds ++ q ∧ (∀ x ∈ ds, IsDigit x) ∧
      ∀ q', Head (fun c => ¬IsDigit c) q' → exponentDigits a (ds ++ q') = .ok (b, q') := by
  induction p generalizing a with
  | nil => cases h
  | cons c p ih =>
    rw [exponentDigits] at h
    split at h
    · next hc =>
      obtain ⟨a₁, ha₁, h⟩ := bind_ok_iff.mp h
      obtain ⟨a₂, ha₂, h⟩ := bind_ok_iff.mp h
      obtain ⟨ds, rfl, hds, hrun⟩ := ih h
      refine ⟨c :: ds, rfl, List.forall_mem_cons.mpr ⟨hc, hds⟩, fun q' hq' => ?_⟩
      rw [List.cons_append, exponentDigits, if_pos hc, ha₁, ok_bind, ha₂, ok_bind]
      exact hrun q' hq'
    · obtain ⟨rfl, rfl⟩ := Prod.mk.inj (Except.ok.inj h)
      refine ⟨[], rfl, fun x hx => absurd hx List.not_mem_nil, ?_⟩
      rintro q' ⟨c', t', rfl, hc'⟩
      rw [List.nil_append, exponentDigits, if_neg hc']

theorem takeSign_split {plus : Bool} {sign : ℤ} (h : takeSign plus p = .ok (sign, q)) :
    ∃ sg, p = sg ++ q ∧ (∀ x ∈ sg, x = 43 ∨ x = 45) ∧
      ∀ q', Head (fun c => c ≠ 45 ∧ (plus = true → c ≠ 43)) q' →
        takeSign plus (sg ++ q') = .ok (sign, q') := by
  rw [takeSign] at h
  obtain ⟨c, hc, h⟩ := bind_ok_iff.mp h
  obtain ⟨t, rfl⟩ : ∃ t, p = c :: t := by
    cases p with
    | nil => cases hc
    | cons c' t => exact ⟨t, by rw [Except.ok.inj hc]⟩
  split at h
  · next hplus =>
    obtain ⟨rfl, rfl⟩ := Prod.mk.inj (Except.ok.inj h)
    refine ⟨[c], rfl, fun x hx => .inl (List.mem_singleton.mp hx ▸ hplus.2), fun q' _ => ?_⟩
    rw [List.singleton_append, takeSign, peek_cons, ok_bind, if_pos hplus, List.tail_cons]
  next hplus =>
  split at h
  · next hminus =>
    obtain ⟨rfl, rfl⟩ := Prod.mk.inj (Except.ok.inj h)
    refine ⟨[c], rfl, fun x hx => .inr (List.mem_singleton.mp hx ▸ hminus), fun q' _ => ?_⟩
    rw [List.singleton_append, takeSign, peek_cons, ok_bind, if_neg hplus, if_pos hminus,
      List.tail_cons]
  · obtain ⟨rfl, rfl⟩ := Prod.mk.inj (Except.ok.inj h)
    refine ⟨[], rfl, fun x hx => absurd hx List.not_mem_nil, ?_⟩
    rintro q' ⟨c', t', rfl, hc'⟩
    have hplus' : ¬(plus = true ∧ c' = 43) := fun h => hc'.2 h.1 h.2
    rw [List.nil_append, takeSign, peek_cons, ok_bind, if_neg hplus', if_neg hc'.1]

theorem exponent_split {r : ℤ} (h : exponent p = .ok (r, q)) : ∃ e, p = e ++ q ∧
    (∀ x ∈ e, IsNumeric x) ∧ ∀ q', Stops q' → exponent (e ++ q') = .ok (r, q') := by
  rw [exponent] at h
  obtain ⟨⟨sign, p₁⟩, hsign, h⟩ := bind_ok_iff.mp h
  obtain ⟨⟨n, p₂⟩, hn, h⟩ := bind_ok_iff.mp h
  obtain ⟨rfl, rfl⟩ := Prod.mk.inj (Except.ok.inj h)
  obtain ⟨sg, rfl, hsg, hsignrun⟩ := takeSign_split hsign
  obtain ⟨ds, rfl, hds, hdsrun⟩ := exponentDigits_split hn
  refine ⟨sg ++ ds, by rw [List.append_assoc], fun x hx => ?_, fun q' hq' => ?_⟩
  · rcases List.mem_append.mp hx with hx | hx
    · rcases hsg x hx with rfl | rfl
      · exact .inr (.inl rfl)
      · exact .inr (.inr (.inl rfl))
    · exact .inl (hds x hx)
  · have hhead : Head (fun c => c ≠ 45 ∧ (true = true → c ≠ 43)) (ds ++ q') := by
      refine Head.append (hq'.imp fun c hc => ⟨?_, fun _ => ?_⟩) fun x hx => ⟨?_, fun _ => ?_⟩
      · exact fun h => hc (.inr (.inr (.inl h)))
      · exact fun h => hc (.inr (.inl h))
      · rintro rfl
        exact absurd (hds 45 hx) (by decide)
      · rintro rfl
        exact absurd (hds 43 hx) (by decide)
    rw [List.append_assoc, exponent, hsignrun _ hhead, ok_bind]
    simp only [hdsrun q' (hq'.imp fun c hc hd => hc (.inl hd)), ok_bind]

theorem peek_ok (h : peek p = .ok c) : ∃ t, p = c :: t := by
  cases p with
  | nil => cases h
  | cons c' t => exact ⟨t, by rw [Except.ok.inj h]⟩

theorem zero_split (h : peek p = .ok c) (hq : (if c = 48 then p.tail else p) = q) :
    ∃ z, p = z ++ q ∧ (∀ x ∈ z, x = 48) ∧ (c = 48 → z ≠ []) ∧
      ∀ q', Head (fun c => c ≠ 48 ∧ c ≠ 45) q' → ∃ c', peek (z ++ q') = .ok c' ∧
        (if c' = 48 then (z ++ q').tail else z ++ q') = q' := by
  obtain ⟨t, rfl⟩ := peek_ok h
  by_cases hc : c = 48
  · rw [if_pos hc] at hq
    refine ⟨[c], by rw [← hq]; rfl, fun x hx => List.mem_singleton.mp hx ▸ hc, fun _ => by simp,
      fun q' _ => ⟨c, rfl, by rw [if_pos hc]; rfl⟩⟩
  · rw [if_neg hc] at hq
    refine ⟨[], hq, fun x hx => absurd hx List.not_mem_nil, fun h => absurd h hc, ?_⟩
    rintro q' ⟨c', t', rfl, hc'⟩
    exact ⟨c', rfl, if_neg hc'.1⟩

theorem isDigit_of_range (h : 49 ≤ c ∧ c ≤ 57) : IsDigit c ∧ c ≠ 48 ∧ c ≠ 45 := by
  have hlo : 49 ≤ c.toNat := UInt8.le_iff_toNat_le.mp h.1
  have hhi : c.toNat ≤ 57 := UInt8.le_iff_toNat_le.mp h.2
  refine ⟨⟨by omega, hhi⟩, ?_, ?_⟩
  · rintro rfl
    exact absurd hlo (by decide)
  · rintro rfl
    exact absurd hlo (by decide)

theorem isDigit_ne (h : IsDigit c) : c ≠ 45 ∧ c ≠ 46 ∧ c ≠ 101 ∧ c ≠ 69 := by
  refine ⟨?_, ?_, ?_, ?_⟩ <;> rintro rfl <;> exact absurd h (by decide)

variable {D : Type} [Double D]
open Double

/-- The digits before the point. -/
theorem integer_split {n : D} (h : peek p = .ok c)
    (hq : (if 49 ≤ c ∧ c ≤ 57 then digits pushDigit (ofInt 0 : D) p else .ok (ofInt 0, p)) =
      .ok (n, q)) :
    ∃ ds, p = ds ++ q ∧ (∀ x ∈ ds, IsDigit x) ∧ (49 ≤ c ∧ c ≤ 57 → ds ≠ []) ∧
      ∀ q', Head (fun c => ¬IsDigit c ∧ c ≠ 45) q' →
        Head (fun c => c ≠ 48 ∧ c ≠ 45) (ds ++ q') ∧ ∃ c', peek (ds ++ q') = .ok c' ∧
          (if 49 ≤ c' ∧ c' ≤ 57 then digits pushDigit (ofInt 0 : D) (ds ++ q')
            else .ok (ofInt 0, ds ++ q')) = .ok (n, q') := by
  obtain ⟨t, rfl⟩ := peek_ok h
  by_cases hc : 49 ≤ c ∧ c ≤ 57
  · rw [if_pos hc] at hq
    obtain ⟨hdigit, h48, h45⟩ := isDigit_of_range hc
    obtain ⟨ds, hds, hall, hrun⟩ := digits_split hq
    cases ds with
    | nil =>
      rw [digits, if_pos hdigit] at hq
      obtain ⟨ds', ht, -, -⟩ := digits_split hq
      have hlen := congrArg List.length (hds.symm.trans (congrArg (c :: ·) ht))
      simp only [List.nil_append, List.length_cons, List.length_append] at hlen
      omega
    | cons x ds =>
      obtain ⟨rfl, -⟩ := List.cons.inj hds
      refine ⟨c :: ds, hds, hall, fun _ => List.cons_ne_nil c ds, fun q' hq' => ?_⟩
      refine ⟨⟨c, ds ++ q', rfl, h48, h45⟩, c, rfl, ?_⟩
      rw [if_pos hc]
      exact hrun q' (hq'.imp fun c hc => hc.1)
  · rw [if_neg hc] at hq
    obtain ⟨rfl, rfl⟩ := Prod.mk.inj (Except.ok.inj hq)
    refine ⟨[], rfl, fun x hx => absurd hx List.not_mem_nil, fun h => absurd h hc, ?_⟩
    rintro q' ⟨c', t', rfl, hdigit, h45⟩
    have h48 : c' ≠ 48 := by
      rintro rfl
      exact hdigit (by decide)
    refine ⟨⟨c', t', rfl, h48, h45⟩, c', rfl, if_neg fun h => ?_⟩
    exact hdigit (isDigit_of_range h).1

/-- The digits behind the point, if there are any. -/
theorem fraction_split {α : Type} {f : α → ℕ → α} {a b : α} {point : UInt8} (h : peek p = .ok c)
    (hpoint : (if c = 46 then peek p.tail else .ok 0) = .ok point)
    (hq : (if IsDigit point then digits f a p.tail else .ok (a, p)) = .ok (b, q)) :
    ∃ l, p = l ++ q ∧ (∀ x ∈ l, IsNumeric x) ∧
      ∀ q', Head (fun c => ¬IsDigit c ∧ c ≠ 46 ∧ c ≠ 45) q' →
        Head (fun c => ¬IsDigit c ∧ c ≠ 45) (l ++ q') ∧ ∃ c' point', peek (l ++ q') = .ok c' ∧
          (if c' = 46 then peek (l ++ q').tail else .ok 0) = .ok point' ∧
          (if IsDigit point' then digits f a (l ++ q').tail else .ok (a, l ++ q')) = .ok (b, q') := by
  obtain ⟨t, rfl⟩ := peek_ok h
  have hzero : ¬IsDigit 0 := by decide
  by_cases hdigit : IsDigit point
  · have hc : c = 46 := by
      by_contra hc
      rw [if_neg hc] at hpoint
      exact hzero (Except.ok.inj hpoint ▸ hdigit)
    rw [if_pos hc, List.tail_cons] at hpoint
    rw [if_pos hdigit, List.tail_cons] at hq
    obtain ⟨t, rfl⟩ := peek_ok hpoint
    obtain ⟨ds, hds, hall, hrun⟩ := digits_split hq
    cases ds with
    | nil =>
      rw [digits, if_pos hdigit] at hq
      obtain ⟨ds', ht, -, -⟩ := digits_split hq
      have hlen := congrArg List.length (hds.symm.trans (congrArg (point :: ·) ht))
      simp only [List.nil_append, List.length_cons, List.length_append] at hlen
      omega
    | cons x ds =>
      obtain ⟨rfl, -⟩ := List.cons.inj hds
      refine ⟨c :: point :: ds, congrArg (c :: ·) hds, ?_, fun q' hq' => ?_⟩
      · exact List.forall_mem_cons.mpr ⟨.inr (.inr (.inr (.inl hc))), fun x hx => .inl (hall x hx)⟩
      · refine ⟨⟨c, point :: ds ++ q', rfl, ?_, ?_⟩, c, point, rfl, if_pos hc, ?_⟩
        · rw [hc]
          decide
        · rw [hc]
          decide
        · rw [if_pos hdigit]
          exact hrun q' (hq'.imp fun c hc => hc.1)
  · rw [if_neg hdigit] at hq
    obtain ⟨rfl, rfl⟩ := Prod.mk.inj (Except.ok.inj hq)
    refine ⟨[], rfl, fun x hx => absurd hx List.not_mem_nil, ?_⟩
    rintro q' ⟨c', t', rfl, hnot, h46, h45⟩
    exact ⟨⟨c', t', rfl, hnot, h45⟩, c', 0, rfl, if_neg h46, if_neg hzero⟩

/-- The exponent, if there is one. -/
theorem scale_split {r : ℤ} (h : peek p = .ok c)
    (hq : (if c = 101 ∨ c = 69 then exponent p.tail else .ok (0, p)) = .ok (r, q)) :
    ∃ e, p = e ++ q ∧ (∀ x ∈ e, IsNumeric x) ∧ ∀ q', Stops q' →
      Head (fun c => ¬IsDigit c ∧ c ≠ 46 ∧ c ≠ 45) (e ++ q') ∧ ∃ c', peek (e ++ q') = .ok c' ∧
        (if c' = 101 ∨ c' = 69 then exponent (e ++ q').tail else .ok (0, e ++ q')) =
          .ok (r, q') := by
  obtain ⟨t, rfl⟩ := peek_ok h
  by_cases hc : c = 101 ∨ c = 69
  · rw [if_pos hc, List.tail_cons] at hq
    obtain ⟨e, rfl, hall, hrun⟩ := exponent_split hq
    refine ⟨c :: e, rfl, List.forall_mem_cons.mpr ⟨?_, hall⟩, fun q' hq' => ?_⟩
    · exact .inr (.inr (.inr (.inr hc.symm)))
    · refine ⟨⟨c, e ++ q', rfl, ?_⟩, c, rfl, ?_⟩
      · rcases hc with rfl | rfl <;> decide
      · rw [if_pos hc]
        exact hrun q' hq'
  · rw [if_neg hc] at hq
    obtain ⟨rfl, rfl⟩ := Prod.mk.inj (Except.ok.inj hq)
    refine ⟨[], rfl, fun x hx => absurd hx List.not_mem_nil, ?_⟩
    rintro q' ⟨c', t', rfl, hc'⟩
    refine ⟨⟨c', t', rfl, fun h => hc' (.inl h), fun h => hc' (.inr (.inr (.inr (.inl h)))),
      fun h => hc' (.inr (.inr (.inl h)))⟩, c', rfl, if_neg fun h => ?_⟩
    exact hc' (.inr (.inr (.inr (.inr h.symm))))

/-- A number ends in the same place, and is the same, before any text that does not go on with
it. -/
theorem parseNumber_split {d d' : Data D} (h : parseNumber d p = .ok (d', q)) :
    ∃ num, p = num ++ q ∧ (∀ x ∈ num, IsNumeric x) ∧
      (Head (fun c => c = 45 ∨ IsDigit c) p → num ≠ []) ∧
      ∀ q', Stops q' → parseNumber d (num ++ q') = .ok (d', q') := by
  rw [parseNumber] at h
  obtain ⟨⟨sign, p₁⟩, hsign, h⟩ := bind_ok_iff.mp h
  obtain ⟨c₁, hc₁, h⟩ := bind_ok_iff.mp h
  generalize hzero : (if c₁ = 48 then p₁.tail else p₁) = p₂ at h
  obtain ⟨c₂, hc₂, h⟩ := bind_ok_iff.mp h
  obtain ⟨⟨n, p₃⟩, hn, h⟩ := bind_ok_iff.mp h
  obtain ⟨c₃, hc₃, h⟩ := bind_ok_iff.mp h
  obtain ⟨point, hpoint, h⟩ := bind_ok_iff.mp h
  obtain ⟨⟨⟨n', scale⟩, p₄⟩, hf, h⟩ := bind_ok_iff.mp h
  obtain ⟨c₄, hc₄, h⟩ := bind_ok_iff.mp h
  obtain ⟨⟨subscale, p₅⟩, he, h⟩ := bind_ok_iff.mp h
  obtain ⟨rfl, rfl⟩ := Prod.mk.inj (Except.ok.inj h)
  obtain ⟨sg, hp, hsg, hsignrun⟩ := takeSign_split hsign
  obtain ⟨z, hp₁, hz, hz48, hzrun⟩ := zero_split hc₁ hzero
  obtain ⟨ds, hp₂, hds, hds49, hdsrun⟩ := integer_split hc₂ hn
  obtain ⟨l, hp₃, hl, hlrun⟩ := fraction_split hc₃ hpoint hf
  obtain ⟨e, hp₄, hall, herun⟩ := scale_split hc₄ he
  refine ⟨sg ++ (z ++ (ds ++ (l ++ e))), ?_, fun x hx => ?_, fun hstart hnil => ?_,
    fun q' hq' => ?_⟩
  · simp only [List.append_assoc, ← hp₄, ← hp₃, ← hp₂, ← hp₁, ← hp]
  · simp only [List.mem_append] at hx
    rcases hx with hx | hx | hx | hx | hx
    · exact (hsg x hx).elim (fun h => .inr (.inl h)) fun h => .inr (.inr (.inl h))
    · exact .inl (by rw [hz x hx]; decide)
    · exact .inl (hds x hx)
    · exact hl x hx
    · exact hall x hx
  · -- nothing was taken off, so the text starts with no sign and no digit
    simp only [List.append_eq_nil_iff] at hnil
    obtain ⟨rfl, rfl, rfl, -, -⟩ := hnil
    rw [List.nil_append] at hp hp₁
    obtain ⟨c, t, hpc, hc⟩ := hstart
    rw [← hp, hpc] at hc₁
    rw [← hp₁, ← hp, hpc] at hc₂
    obtain rfl := Except.ok.inj hc₁
    obtain rfl := Except.ok.inj hc₂
    have h45 : c ≠ 45 := by
      intro h45
      have hplus : ¬(false = true ∧ c = 43) := fun h => Bool.false_ne_true h.1
      rw [hpc, takeSign, peek_cons, ok_bind, if_neg hplus, if_pos h45, ← hp, hpc] at hsign
      have hlen := congrArg List.length (Prod.mk.inj (Except.ok.inj hsign)).2
      rw [List.tail_cons, List.length_cons] at hlen
      omega
    have h48 : c ≠ 48 := fun h48 => hz48 h48 rfl
    obtain ⟨hlo, hhi⟩ := hc.resolve_left h45
    have hne : c.toNat ≠ 48 := fun h => h48 (UInt8.toNat_inj.mp h)
    refine hds49 ⟨UInt8.le_iff_toNat_le.mpr ?_, UInt8.le_iff_toNat_le.mpr hhi⟩ rfl
    change 49 ≤ c.toNat
    omega
  · obtain ⟨h4, c4, hc4, he'⟩ := herun q' hq'
    obtain ⟨h3, c3, point', hc3, hpoint', hf'⟩ := hlrun _ h4
    obtain ⟨h2, c2, hc2, hn'⟩ := hdsrun _ h3
    obtain ⟨c1, hc1, hz'⟩ := hzrun _ h2
    have h1 : Head (fun c => c ≠ 45 ∧ (false = true → c ≠ 43)) (z ++ (ds ++ (l ++ (e ++ q')))) := by
      refine Head.append (h2.imp fun c hc => ⟨hc.2, fun h => absurd h Bool.false_ne_true⟩) ?_
      intro x hx
      rw [hz x hx]
      exact ⟨by decide, fun h => absurd h Bool.false_ne_true⟩
    simp only [List.append_assoc]
    rw [parseNumber, hsignrun _ h1, ok_bind]
    simp only [hc1, ok_bind, hz', hc2, hn', hc3, hpoint', hf', hc4, he']

end Numerals

section Shrunk

variable {c : UInt8} {p q r v out out' : Text}

structure Shrunk (p q out : Text) : Prop where
  quoted : Quoted q
  squeezed : ∃ src, p = src ++ q ∧ Squeezes src out

theorem Shrunk.refl (h : Quoted p) : Shrunk p p [] := ⟨h, [], rfl, squeezes_nil⟩

theorem Shrunk.trans (h : Shrunk p q out) (h' : Shrunk q r out') : Shrunk p r (out ++ out') := by
  obtain ⟨src, rfl, hs⟩ := h.squeezed
  obtain ⟨src', rfl, hs'⟩ := h'.squeezed
  exact ⟨h'.quoted, src ++ src', by rw [List.append_assoc], hs.append hs'⟩

theorem shrunk_plain {l : Text} (h : Quoted (l ++ q)) (hl : ∀ x ∈ l, IsPlain x) :
    Shrunk (l ++ q) q l :=
  ⟨h.past fun x hx => ⟨(hl x hx).1, (hl x hx).2.2.2⟩, l, rfl, squeezes_text hl⟩

theorem skip_shrinks (hp : Quoted p) (h : skip p = .ok v) : ∃ gap, (∀ x ∈ gap, IsSpace x) ∧
    Shrunk p v gap ∧ Head (fun c => ¬IsSpace c) v ∧
      (∀ t, Head (fun c => ¬IsSpace c) t → skip (gap ++ t) = .ok t) ∧
      (Head (fun c => ¬IsSpace c) p → gap = [] ∧ v = p) := by
  obtain ⟨gap, c, t, rfl, hgap, hv, hc⟩ := skip_gap h
  refine ⟨kept gap, kept_spaces hgap, ⟨hp.past_gap hgap, gap, rfl, squeezes_gap hgap⟩,
    ⟨c, t, hv, hc⟩, ?_, fun hhead => ?_⟩
  · rintro t ⟨c', t', rfl, hc'⟩
    exact gap_skip (kept_spaces hgap) hc' t'
  · cases gap with
    | nil => exact ⟨rfl, rfl⟩
    | cons x gap =>
      obtain ⟨c', t', heq, hc'⟩ := hhead
      rw [List.cons_append] at heq
      exact absurd ((List.cons.inj heq).1 ▸ hgap x List.mem_cons_self) hc'

theorem not_numeric_of_space (h : IsSpace c) : ¬IsNumeric c := by
  have hle : c.toNat ≤ 32 := UInt8.le_iff_toNat_le.mp h.2
  rintro (⟨hlo, -⟩ | rfl | rfl | rfl | rfl | rfl)
  · omega
  all_goals exact absurd hle (by decide)

theorem plain_of_numeric (h : IsNumeric c) : IsPlain c ∧ ¬IsSpace c := by
  have hplain : 33 ≤ c.toNat ∧ c ≠ 34 ∧ c ≠ 47 := by
    rcases h with ⟨hlo, hhi⟩ | rfl | rfl | rfl | rfl | rfl
    · refine ⟨by omega, ?_, ?_⟩
      · rintro rfl
        exact absurd hlo (by decide)
      · rintro rfl
        exact absurd hlo (by decide)
    all_goals decide
  obtain ⟨h33, h34, h47⟩ := hplain
  refine ⟨⟨?_, ?_, h47, h34⟩, fun hs => ?_⟩
  · rintro rfl
    exact absurd h33 (by decide)
  · rintro (rfl | rfl | rfl | rfl) <;> exact absurd h33 (by decide)
  · have hle : c.toNat ≤ 32 := UInt8.le_iff_toNat_le.mp hs.2
    omega

end Shrunk

section Parsers

variable {D : Type} {m : Member D} {m' : ℕ → Member D} {close : UInt8} {p q literal : Text}

def Shrinks (m : Member D) (m' : ℕ → Member D) : Prop :=
  ∀ (w : World) (d : Data D) (p q : Text) (o : Outcome D), Quoted p →
    Head (fun c => ¬IsSpace c) p → m w d p = .ok o → o.rest = some q →
      ∃ out, Shrunk p q out ∧ out.head? = p.head? ∧
        ∀ q' fuel, Stops q' → (out ++ q').length < fuel →
          m' fuel w d (out ++ q') = .ok { o with rest := some q' }

theorem parseMembers_shrinks [Double D] (hm : Shrinks m m') (hclose : IsPlain close ∧ close ≠ 44 ∧
    ¬IsNumeric close ∧ ¬IsSpace close) {fuel : ℕ} : ∀ {w w' : World} {p q : Text} {chain : Chain D},
    Quoted p → parseMembers m close fuel w p = .ok (chain, some q, w') →
      ∃ out, Shrunk p q out ∧ (Head (fun c => ¬IsSpace c) p → out.head? = p.head?) ∧
        ∀ q' fuel' n, (out ++ q').length < fuel' → (out ++ q').length < n →
          parseMembers (m' fuel') close n w (out ++ q') = .ok (chain, some q', w') := by
  induction fuel with
  | zero =>
    intro w w' p q chain _ h
    cases h
  | succ fuel ih =>
    intro w w' p q chain hp h
    rw [parseMembers] at h
    cases hmalloc : w.malloc with
    | mk block w₁ =>
      rw [hmalloc] at h
      cases block with
      | none => cases h
      | some block =>
        obtain ⟨v, hv, h⟩ := bind_ok_iff.mp h
        obtain ⟨o, ho, h⟩ := bind_ok_iff.mp h
        obtain ⟨gap, hgap, hshrunk, hhead, hskip, hstart⟩ := skip_shrinks hp hv
        cases hrest : o.rest with
        | none =>
          rw [hrest] at h
          cases h
        | some r =>
          rw [hrest] at h
          obtain ⟨v₂, hv₂, h⟩ := bind_ok_iff.mp h
          obtain ⟨c, hc, h⟩ := bind_ok_iff.mp h
          obtain ⟨out, hmember, houthead, hrun⟩ := hm w₁ _ v r o hshrunk.quoted hhead ho hrest
          have hout := hhead.of_head houthead
          obtain ⟨gap₂, hgap₂, hshrunk₂, hhead₂, hskip₂, -⟩ := skip_shrinks hmember.quoted hv₂
          have hfirst (t : Text) (hp : Head (fun c => ¬IsSpace c) p) :
              (gap ++ (out ++ t)).head? = p.head? := by
            obtain ⟨rfl, rfl⟩ := hstart hp
            exact (hout.head_append t).trans houthead
          obtain ⟨t, rfl⟩ := peek_ok hc
          have hvalue (l : UInt8) (hl : ¬IsNumeric l ∧ ¬IsSpace l) (t' : Text) (fuel' n : ℕ)
              (hf : (gap ++ (out ++ (gap₂ ++ l :: t'))).length < fuel')
              (hn : (gap ++ (out ++ (gap₂ ++ l :: t'))).length < n) :
              skip (gap ++ (out ++ (gap₂ ++ l :: t'))) = .ok (out ++ (gap₂ ++ l :: t')) ∧
              m' fuel' w₁ (blank block) (out ++ (gap₂ ++ l :: t')) =
                .ok { o with rest := some (gap₂ ++ l :: t') } ∧
              skip (gap₂ ++ l :: t') = .ok (l :: t') ∧ t'.length < n-1 := by
            have hstops : Stops (gap₂ ++ l :: t') :=
              Head.append ⟨l, t', rfl, hl.1⟩ fun x hx => not_numeric_of_space (hgap₂ x hx)
            simp only [List.length_append, List.length_cons] at hf hn
            refine ⟨hskip _ (hout.left _), hrun _ fuel' hstops ?_, hskip₂ _ ⟨l, t', rfl, hl.2⟩,
              by omega⟩
            simp only [List.length_append, List.length_cons]
            omega
          split at h
          · next hcomma =>
            obtain ⟨⟨next, rest, w₂⟩, hnext, h⟩ := bind_ok_iff.mp h
            obtain ⟨rfl, hq⟩ := Prod.mk.inj (Except.ok.inj h)
            obtain ⟨rfl, rfl⟩ := Prod.mk.inj hq
            have hplain : ∀ x ∈ ([c] : Text), IsPlain x := by
              rw [hcomma]
              exact List.forall_mem_singleton.mpr (by decide)
            have hsep := shrunk_plain (l := [c]) (q := t) hshrunk₂.quoted hplain
            obtain ⟨out₃, hshrunk₃, -, hrun₃⟩ := ih hsep.quoted hnext
            refine ⟨gap ++ (out ++ (gap₂ ++ ([c] ++ out₃))), hshrunk.trans (hmember.trans
              (hshrunk₂.trans (hsep.trans hshrunk₃))), hfirst _, fun q' fuel' n hf hn => ?_⟩
            simp only [List.append_assoc, List.cons_append, List.nil_append] at hf hn ⊢
            have hl : ¬IsNumeric c ∧ ¬IsSpace c := by
              rw [hcomma]
              exact ⟨by decide, by decide⟩
            obtain ⟨e1, e2, e3, hlt⟩ := hvalue c hl (out₃ ++ q') fuel' n hf hn
            obtain ⟨n, rfl⟩ := Nat.exists_eq_add_one_of_ne_zero (Nat.ne_zero_of_lt hn)
            have hf₃ : (out₃ ++ q').length < fuel' := by
              simp only [List.length_append, List.length_cons] at hf ⊢
              omega
            have e4 := hrun₃ q' fuel' n hf₃ hlt
            rw [parseMembers, hmalloc]
            simp only [e1, ok_bind, e2, e3, peek_cons, if_pos hcomma, List.tail_cons, e4]
          next hcomma =>
          split at h
          · next hend =>
            obtain ⟨rfl, hq⟩ := Prod.mk.inj (Except.ok.inj h)
            obtain ⟨htail, rfl⟩ := Prod.mk.inj hq
            obtain rfl := Option.some_inj.mp htail
            have hsep := shrunk_plain (l := [c]) (q := t) hshrunk₂.quoted
              (List.forall_mem_singleton.mpr (hend ▸ hclose.1))
            refine ⟨gap ++ (out ++ (gap₂ ++ [c])), hshrunk.trans (hmember.trans
              (hshrunk₂.trans hsep)), hfirst _, fun q' fuel' n hf hn => ?_⟩
            simp only [List.append_assoc, List.singleton_append] at hf hn ⊢
            obtain ⟨e1, e2, e3, -⟩ := hvalue c (hend ▸ hclose.2.2) q' fuel' n hf hn
            obtain ⟨n, rfl⟩ := Nat.exists_eq_add_one_of_ne_zero (Nat.ne_zero_of_lt hn)
            rw [parseMembers, hmalloc]
            simp only [e1, ok_bind, e2, e3, peek_cons, if_neg hcomma, if_pos hend, List.tail_cons]
          · cases h

theorem parseBody_shrinks [Double D] (hm : Shrinks m m') (hclose : IsPlain close ∧ close ≠ 44 ∧
    ¬IsNumeric close ∧ ¬IsSpace close) {fuel : ℕ} {w : World} {d : Data D} {o : Outcome D}
    (hp : Quoted p) (h : parseBody m close fuel w d p = .ok o) (hr : o.rest = some q) :
    ∃ out, Shrunk p q out ∧ ∀ q' fuel' n, (out ++ q').length < fuel' → (out ++ q').length < n →
      parseBody (m' fuel') close n w d (out ++ q') = .ok { o with rest := some q' } := by
  rw [parseBody] at h
  obtain ⟨v, hv, h⟩ := bind_ok_iff.mp h
  obtain ⟨c, hc, h⟩ := bind_ok_iff.mp h
  obtain ⟨gap, hgap, hshrunk, hhead, hskip, -⟩ := skip_shrinks hp hv
  obtain ⟨t, rfl⟩ := peek_ok hc
  split at h
  · next hend =>
    rw [← Except.ok.inj h] at hr ⊢
    obtain rfl := Option.some_inj.mp hr
    have hsep := shrunk_plain (l := [c]) (q := t) hshrunk.quoted
      (List.forall_mem_singleton.mpr (hend ▸ hclose.1))
    refine ⟨gap ++ [c], hshrunk.trans hsep, fun q' fuel' n _ _ => ?_⟩
    have e1 := hskip (c :: q') ⟨c, q', rfl, hend ▸ hclose.2.2.2⟩
    rw [List.append_assoc, List.singleton_append, parseBody, e1, ok_bind]
    simp only [peek_cons, ok_bind, if_pos hend, List.tail_cons]
  · next hend =>
    obtain ⟨⟨chain, rest, w'⟩, hmembers, h⟩ := bind_ok_iff.mp h
    rw [← Except.ok.inj h] at hr ⊢
    obtain rfl : rest = some q := hr
    obtain ⟨out, hout, hfirst, hrun⟩ := parseMembers_shrinks hm hclose hshrunk.quoted hmembers
    obtain ⟨t', rfl⟩ := List.head?_eq_some_iff.mp (hfirst hhead)
    refine ⟨gap ++ c :: t', hshrunk.trans hout, fun q' fuel' n hf hn => ?_⟩
    simp only [List.append_assoc, List.length_append] at hf hn
    have e1 := hskip (c :: t' ++ q') ((hhead.of_head (q := c :: t') rfl).left q')
    have e2 := hrun q' fuel' n (by rw [List.length_append]; omega) (by rw [List.length_append]; omega)
    rw [List.append_assoc, parseBody, e1, ok_bind]
    simp only [List.cons_append, peek_cons, ok_bind, if_neg hend] at e2 ⊢
    rw [e2, ok_bind]

theorem Quoted.string_inv {t : Text} (h : Quoted (34 :: t)) :
    ∃ body t', t = body ++ 34 :: t' ∧ Body body ∧ Quoted t' := by
  cases h with
  | char h0 hc h => exact absurd rfl hc
  | @string body t' hb h => exact ⟨body, t', rfl, hb, h⟩

theorem parseString_shrinks {w : World} {d : Data D} {o : Outcome D} (hp : Quoted p)
    (h : parseString w d p = .ok o) (hr : o.rest = some q) :
    ∃ out, Shrunk p q out ∧ out.head? = p.head? ∧ Head (fun c => ¬IsSpace c) out ∧
      ∀ q', parseString w d (out ++ q') = .ok { o with rest := some q' } := by
  have hpeek := h
  rw [parseString] at hpeek
  obtain ⟨c, hc, hpeek⟩ := bind_ok_iff.mp hpeek
  obtain ⟨t, rfl⟩ := peek_ok hc
  have h34 : c = 34 := by
    by_contra hne
    rw [if_pos hne] at hpeek
    rw [← Except.ok.inj hpeek] at hr
    cases hr
  rw [h34] at hp h ⊢
  obtain ⟨body, t, rfl, hb, ht⟩ := hp.string_inv
  obtain ⟨rfl, hrun⟩ := parseString_body hb h hr
  refine ⟨34 :: body ++ [34], ⟨ht, 34 :: body ++ [34], by simp, squeezes_string hb.quotable⟩, rfl,
    ⟨34, body ++ [34], rfl, by decide⟩, fun q' => ?_⟩
  have htext : 34 :: body ++ [34] ++ q' = 34 :: (body ++ 34 :: q') := by simp
  rw [htext]
  exact hrun q'

theorem parsePair_shrinks [Double D] (hm : Shrinks m m') :
    Shrinks (parsePair m) fun fuel => parsePair (m' fuel) := by
  intro w d p q o hp hhead h hr
  rw [parsePair] at h
  obtain ⟨o₁, ho₁, h⟩ := bind_ok_iff.mp h
  cases hrest : o₁.rest with
  | none =>
    rw [hrest] at h
    rw [← Except.ok.inj h, hrest] at hr
    cases hr
  | some r =>
    rw [hrest] at h
    obtain ⟨v, hv, h⟩ := bind_ok_iff.mp h
    obtain ⟨c, hc, h⟩ := bind_ok_iff.mp h
    obtain ⟨t, rfl⟩ := peek_ok hc
    split at h
    · rw [← Except.ok.inj h] at hr
      cases hr
    next hcolon =>
    obtain ⟨v₂, hv₂, h⟩ := bind_ok_iff.mp h
    obtain ⟨out, hname, hfirst, hout, hrun⟩ := parseString_shrinks hp ho₁ hrest
    obtain ⟨gap, hgap, hshrunk, -, hskip, -⟩ := skip_shrinks hname.quoted hv
    have hplain : ∀ x ∈ ([c] : Text), IsPlain x := by
      rw [not_not.mp hcolon]
      exact List.forall_mem_singleton.mpr (by decide)
    have hspace : ¬IsSpace c := by
      rw [not_not.mp hcolon]
      decide
    have hsep := shrunk_plain (l := [c]) (q := t) hshrunk.quoted hplain
    obtain ⟨gap₂, hgap₂, hshrunk₂, hhead₂, hskip₂, -⟩ := skip_shrinks hsep.quoted hv₂
    obtain ⟨out₂, hvalue, hfirst₂, hrun₂⟩ := hm _ _ _ _ _ hshrunk₂.quoted hhead₂ h hr
    refine ⟨out ++ (gap ++ ([c] ++ (gap₂ ++ out₂))), hname.trans (hshrunk.trans (hsep.trans
      (hshrunk₂.trans hvalue))), (hout.head_append _).trans hfirst, fun q' fuel hstops hf => ?_⟩
    simp only [List.append_assoc, List.cons_append, List.nil_append] at hf ⊢
    have e1 := hskip (c :: (gap₂ ++ (out₂ ++ q'))) ⟨c, _, rfl, hspace⟩
    have e2 := hskip₂ (out₂ ++ q') ((hhead₂.of_head hfirst₂).left q')
    have e3 := hrun₂ q' fuel hstops (by
      simp only [List.length_append, List.length_cons] at hf ⊢
      omega)
    rw [parsePair, hrun, ok_bind]
    simp only [e1, ok_bind, peek_cons, if_neg hcolon, List.tail_cons, e2, e3]

theorem strncmp_true {literal : Text} (h : strncmp p literal = .ok true) :
    ∃ t, p = literal ++ t := by
  induction literal generalizing p with
  | nil => exact ⟨p, rfl⟩
  | cons l literal ih =>
    cases p with
    | nil => cases h
    | cons c p =>
      rw [strncmp] at h
      split at h
      · next hc =>
        obtain ⟨t, rfl⟩ := ih h
        exact ⟨t, by rw [hc]; rfl⟩
      · cases h

theorem literal_shrinks [Double D] {literal : Text} {w : World} {d : Data D} {o : Outcome D}
    (hp : Quoted p) (hb : strncmp p literal = .ok true) (hne : literal ≠ [])
    (hplain : ∀ x ∈ literal, IsPlain x) (o' : Outcome D)
    (h : { o' with rest := some (p.drop literal.length) } = o) (hr : o.rest = some q)
    (hrun : ∀ fuel t, parseValue (fuel+1) w d (literal ++ t) = .ok { o' with rest := some t }) :
    ∃ out, Shrunk p q out ∧ out.head? = p.head? ∧ ∀ q' fuel, Stops q' →
      (out ++ q').length < fuel → parseValue fuel w d (out ++ q') = .ok { o with rest := some q' } := by
  obtain ⟨t, rfl⟩ := strncmp_true hb
  rw [List.drop_left] at h
  rw [← h] at hr ⊢
  obtain rfl := Option.some_inj.mp hr
  refine ⟨literal, shrunk_plain hp hplain, ?_, fun q' fuel _ hf => ?_⟩
  · cases literal with
    | nil => exact absurd rfl hne
    | cons l literal => rfl
  · obtain ⟨fuel, rfl⟩ := Nat.exists_eq_add_one_of_ne_zero (Nat.ne_zero_of_lt hf)
    exact hrun fuel q'

theorem isDigit_of_le {c : UInt8} (h : 48 ≤ c ∧ c ≤ 57) : IsDigit c := by
  have hlo : (48 : UInt8).toNat ≤ c.toNat := UInt8.le_iff_toNat_le.mp h.1
  have hhi : c.toNat ≤ (57 : UInt8).toNat := UInt8.le_iff_toNat_le.mp h.2
  exact ⟨hlo, hhi⟩

theorem bracket_shrinks [Double D] (hm : Shrinks m m') (hclose : IsPlain close ∧ close ≠ 44 ∧
    ¬IsNumeric close ∧ ¬IsSpace close) {opening : UInt8} {fuel : ℕ} {t : Text} {w : World}
    {d d' : Data D} {o : Outcome D} (hopen : IsPlain opening) (hp : Quoted (opening :: t))
    (h : parseBody m close fuel w d' t = .ok o) (hr : o.rest = some q)
    (hrun : ∀ fuel t, parseValue (fuel+1) w d (opening :: t) =
      parseBody (m' fuel) close fuel w d' t) :
    ∃ out, Shrunk (opening :: t) q out ∧ out.head? = (opening :: t).head? ∧
      ∀ q' fuel', Stops q' → (out ++ q').length < fuel' →
        parseValue fuel' w d (out ++ q') = .ok { o with rest := some q' } := by
  have hfirst : Shrunk (opening :: t) t [opening] :=
    shrunk_plain hp (List.forall_mem_singleton.mpr hopen)
  obtain ⟨out, hout, hbody⟩ := parseBody_shrinks hm hclose hfirst.quoted h hr
  refine ⟨[opening] ++ out, hfirst.trans hout, rfl, fun q' fuel' _ hf => ?_⟩
  obtain ⟨fuel', rfl⟩ := Nat.exists_eq_add_one_of_ne_zero (Nat.ne_zero_of_lt hf)
  simp only [List.cons_append, List.nil_append, List.length_cons] at hf ⊢
  rw [hrun]
  exact hbody q' fuel' fuel' (by omega) (by omega)

/-- The end of a number is where the text stops being one. -/
theorem number_shrinks [Double D] {c : UInt8} {t : Text} {w : World} {d d' : Data D}
    (hnumber : c = 45 ∨ (48 ≤ c ∧ c ≤ 57)) (hp : Quoted (c :: t))
    (h : parseNumber d (c :: t) = .ok (d', q)) :
    ∃ out, Shrunk (c :: t) q out ∧ out.head? = (c :: t).head? ∧
      ∀ q' fuel, Stops q' → (out ++ q').length < fuel →
        parseValue fuel w d (out ++ q') = .ok ⟨d', .null, some q', w⟩ := by
  obtain ⟨num, hsrc, hall, hne, hrun⟩ := parseNumber_split h
  have hstart : Head (fun c => c = 45 ∨ IsDigit c) (c :: t) :=
    ⟨c, t, rfl, hnumber.imp_right isDigit_of_le⟩
  have hplain : ∀ x ∈ num, IsPlain x := fun x hx => (plain_of_numeric (hall x hx)).1
  obtain ⟨x, num, rfl⟩ := List.exists_cons_of_ne_nil (hne hstart)
  rw [hsrc] at hp ⊢
  refine ⟨x :: num, shrunk_plain hp hplain, rfl, fun q' fuel hstops hf => ?_⟩
  obtain ⟨fuel, rfl⟩ := Nat.exists_eq_add_one_of_ne_zero (Nat.ne_zero_of_lt hf)
  obtain ⟨rfl, -⟩ := List.cons.inj hsrc
  have hother : c ≠ 110 ∧ c ≠ 102 ∧ c ≠ 116 := by
    refine ⟨?_, ?_, ?_⟩ <;> rintro rfl <;> exact absurd hnumber (by decide)
  have hquote : c ≠ 34 := by
    rintro rfl
    exact absurd hnumber (by decide)
  have hnum := hrun q' hstops
  rw [List.cons_append] at hnum ⊢
  rw [parseValue_other hother, if_neg hquote, if_pos hnumber, hnum]
  rfl

theorem parseValue_shrinks [Double D] (fuel : ℕ) : Shrinks (D := D) (parseValue fuel) parseValue := by
  induction fuel with
  | zero =>
    intro w d p q o _ _ h
    cases h
  | succ fuel ih =>
    intro w d p q o hp hhead h hr
    rw [parseValue] at h
    obtain ⟨b, hb, h⟩ := bind_ok_iff.mp h
    split at h
    · next htrue =>
      rw [htrue] at hb
      exact literal_shrinks hp hb (by decide) (by decide +kernel)
        ⟨{ d with type := cJSON_NULL }, .null, none, w⟩ (Except.ok.inj h) hr
        fun _ => parseValue_null w d
    obtain ⟨b, hb, h⟩ := bind_ok_iff.mp h
    split at h
    · next htrue =>
      rw [htrue] at hb
      exact literal_shrinks hp hb (by decide) (by decide +kernel)
        ⟨{ d with type := cJSON_False }, .null, none, w⟩ (Except.ok.inj h) hr
        fun _ => parseValue_false w d
    obtain ⟨b, hb, h⟩ := bind_ok_iff.mp h
    split at h
    · next htrue =>
      rw [htrue] at hb
      exact literal_shrinks hp hb (by decide) (by decide +kernel)
        ⟨{ d with type := cJSON_True, valueint := 1 }, .null, none, w⟩ (Except.ok.inj h) hr
        fun _ => parseValue_true w d
    obtain ⟨c, hc, h⟩ := bind_ok_iff.mp h
    obtain ⟨t, rfl⟩ := peek_ok hc
    split at h
    · next hquote =>
      obtain ⟨out, hout, hfirst, -, hrun⟩ := parseString_shrinks hp h hr
      refine ⟨out, hout, hfirst, fun q' fuel' _ hf => ?_⟩
      obtain ⟨fuel', rfl⟩ := Nat.exists_eq_add_one_of_ne_zero (Nat.ne_zero_of_lt hf)
      obtain ⟨t', rfl⟩ := List.head?_eq_some_iff.mp hfirst
      have hstring := hrun q'
      rw [List.cons_append, hquote] at hstring ⊢
      rw [parseValue_string, hstring]
    next hquote =>
    split at h
    · next hnumber =>
      obtain ⟨⟨d', rest⟩, hnum, h⟩ := bind_ok_iff.mp h
      rw [← Except.ok.inj h] at hr ⊢
      obtain rfl := Option.some_inj.mp hr
      exact number_shrinks hnumber hp hnum
    next hnumber =>
    split at h
    · next harray =>
      rw [parseArray, peek_cons, ok_bind, if_neg (not_not.mpr harray), List.tail_cons] at h
      rw [harray] at hp ⊢
      exact bracket_shrinks ih ⟨by decide, by decide, by decide, by decide⟩ (by decide) hp h hr
        fun _ => parseValue_array w d
    next harray =>
    split at h
    · next hobject =>
      rw [parseObject, peek_cons, ok_bind, if_neg (not_not.mpr hobject), List.tail_cons] at h
      rw [hobject] at hp ⊢
      exact bracket_shrinks (parsePair_shrinks ih) ⟨by decide, by decide, by decide, by decide⟩
        (by decide) hp h hr fun _ => parseValue_object w d
    · rw [← Except.ok.inj h] at hr
      cases hr

/-- A text that the parser accepts to its end is the same tree for the parser after
`cJSON_Minify`. -/
theorem parse_minify [Double D] {w w' : World} {text rest : Text} {root : Chain D}
    (htext : Quoted text)
    (h : parseWithOpts w (some text) true = .ok (root, some rest, w')) :
    ∃ text' rest', minify text = .ok text' ∧
      parseWithOpts w (some text') true = .ok (root, some rest', w') := by
  rw [parseWithOpts] at h
  cases hmalloc : w.malloc with
  | mk block w₁ =>
    rw [hmalloc] at h
    cases block with
    | none => cases h
    | some block =>
      obtain ⟨v, hv, h⟩ := bind_ok_iff.mp h
      obtain ⟨o, ho, h⟩ := bind_ok_iff.mp h
      obtain ⟨gap, hgap, hshrunk, hhead, hskip, -⟩ := skip_shrinks htext hv
      cases hrest : o.rest with
      | none =>
        simp only [hrest] at h
        cases h
      | some r =>
        simp only [hrest, if_true] at h
        obtain ⟨v₂, hv₂, h⟩ := bind_ok_iff.mp h
        obtain ⟨c, hc, h⟩ := bind_ok_iff.mp h
        obtain ⟨t, rfl⟩ := peek_ok hc
        obtain ⟨out, hvalue, hfirst, hrun⟩ :=
          parseValue_shrinks _ _ _ _ _ _ hshrunk.quoted hhead ho hrest
        obtain ⟨gap₂, hgap₂, hshrunk₂, -, hskip₂, -⟩ := skip_shrinks hvalue.quoted hv₂
        split at h
        · cases h
        next hzero =>
        obtain rfl := not_not.mp hzero
        obtain ⟨src, hsrc, hsqueezes⟩ := (hshrunk.trans (hvalue.trans hshrunk₂)).squeezed
        obtain ⟨junk, hminify, -⟩ := hsqueezes.minify t
        refine ⟨_, 0 :: junk, by rw [hsrc, hminify], ?_⟩
        have hend : ¬IsSpace 0 := by decide
        have hfollow : Stops (gap₂ ++ 0 :: junk) :=
          Head.append ⟨0, junk, rfl, by decide⟩ fun x hx => not_numeric_of_space (hgap₂ x hx)
        have hvalue' := hrun (gap₂ ++ 0 :: junk) _ hfollow (Nat.lt_succ_self _)
        simp only [List.append_assoc]
        rw [parseWithOpts, hmalloc]
        simp only [hskip _ ((hhead.of_head hfirst).left (gap₂ ++ 0 :: junk)), ok_bind, hvalue',
          hskip₂ _ ⟨0, junk, rfl, hend⟩, peek_cons, if_true, ne_eq, not_true_eq_false, if_false]
        obtain ⟨hroot, hrest'⟩ := Prod.mk.inj (Except.ok.inj h)
        obtain ⟨-, hw⟩ := Prod.mk.inj hrest'
        rw [← hroot, ← hw]

end Parsers

section Sample

/-- ` [1 ,<tab>"a\""<newline>] `. -/
def spaced : Text := [32, 91, 49, 32, 44, 9, 34, 97, 92, 34, 34, 10, 93, 32, 0]

theorem spaced_quoted : Quoted spaced := by
  refine .char (by decide) (by decide) (.char (by decide) (by decide) ?_)
  refine .char (by decide) (by decide) (.char (by decide) (by decide) ?_)
  refine .char (by decide) (by decide) (.char (by decide) (by decide) ?_)
  refine @Quoted.string [97, 92, 34] _ (.plain (by decide) (.escaped (by decide) (by decide) .nil)) ?_
  refine .char (by decide) (by decide) (.char (by decide) (by decide) ?_)
  exact .char (by decide) (by decide) (.terminator [])

theorem parse_minify_spaced : ∃ root rest w',
    parseWithOpts (D := ℤ) ⟨⟨fun _ => true, 0, []⟩, none⟩ (some spaced) true =
      .ok (root, some rest, w') ∧
    ∃ text' rest', minify spaced = .ok text' ∧
      parseWithOpts ⟨⟨fun _ => true, 0, []⟩, none⟩ (some text') true =
        .ok (root, some rest', w') :=
  ⟨_, _, _, rfl, parse_minify spaced_quoted rfl⟩

end Sample

end CLearning.Json
