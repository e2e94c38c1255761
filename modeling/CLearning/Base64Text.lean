import CLearning.Base64Loops

/-!
# Texts with line breaks and trailing blanks

The decoder cuts the blanks off the end. In what is left, the groups the loop
walks over hold the characters between the line breaks, and nothing else exactly
when every break stands between two of them.
-/

set_option autoImplicit false

namespace CLearning.Base64Text
open CLearning.Machine CLearning.Base64 CLearning.Base64Loops

section Trim

theorem trim_le (src : List UInt8) (n : ℕ) : trim src n ≤ n := by
  induction n with
  | zero => exact Nat.le_refl 0
  | succ n ih =>
    rw [trim]
    split
    · omega
    · exact Nat.le_refl _

theorem trim_blank (src : List UInt8) {n i : ℕ} (hi : trim src n ≤ i) (hn : i < n) :
    isBlank (src.getD i 0) = true := by
  induction n with
  | zero => omega
  | succ n ih =>
    rw [trim] at hi
    split at hi
    · rename_i hb
      by_cases hin : i = n
      · rw [hin]
        exact hb
      · exact ih hi (by omega)
    · omega

theorem trim_last (src : List UInt8) {n : ℕ} (h : trim src n ≠ 0) :
    isBlank (src.getD (trim src n-1) 0) = false := by
  induction n with
  | zero => exact absurd rfl h
  | succ n ih =>
    rw [trim] at h ⊢
    split
    · rename_i hb
      rw [if_pos hb] at h
      exact ih h
    · rename_i hb
      simpa using hb

def body (src : List UInt8) : List UInt8 := src.take (trim src src.length)

theorem body_length (src : List UInt8) : (body src).length = trim src src.length := by
  rw [body, List.length_take]
  exact Nat.min_eq_left (trim_le src src.length)

def rest (src : List UInt8) : List UInt8 := src.drop (trim src src.length)

theorem body_rest (src : List UInt8) : body src ++ rest src = src := List.take_append_drop _ _

theorem rest_blank (src : List UInt8) : ∀ c ∈ rest src, isBlank c = true := by
  intro c hc
  obtain ⟨i, hi, rfl⟩ := List.getElem_of_mem hc
  rw [rest, List.length_drop] at hi
  have := trim_blank src (n := src.length) (i := trim src src.length+i) (by omega) (by omega)
  rw [List.getD_eq_getElem?_getD, List.getElem?_eq_getElem (by omega)] at this
  simpa [rest] using this

end Trim

section Groups

/-- Every line break stands between two groups of four characters, and so does
the end of the text; `r` characters belong to the first group already. -/
def Aligned : ℕ → List UInt8 → Prop
  | r, [] => r = 0
  | r, c :: cs => if isBreak c then r = 0 ∧ Aligned 0 cs else Aligned ((r+1) % 4) cs

instance : ∀ r l, Decidable (Aligned r l)
  | r, [] => inferInstanceAs (Decidable (r = 0))
  | r, c :: cs =>
    have := instDecidableAligned 0 cs
    have := instDecidableAligned ((r+1) % 4) cs
    inferInstanceAs (Decidable (if isBreak c then r = 0 ∧ Aligned 0 cs else Aligned ((r+1) % 4) cs))

theorem aligned_break {r : ℕ} {c : UInt8} {l : List UInt8} (h : isBreak c = true) :
    Aligned r (c :: l) ↔ r = 0 ∧ Aligned 0 l := by
  rw [Aligned, if_pos h]

theorem aligned_cons {r : ℕ} {c : UInt8} {l : List UInt8} (h : isBreak c = false) :
    Aligned r (c :: l) ↔ Aligned ((r+1) % 4) l := by
  rw [Aligned, if_neg (by simp [h])]

theorem aligned_group {b : List UInt8} (h : Aligned 1 b) :
    ∃ c1 c2 c3 b', b = c1 :: c2 :: c3 :: b' ∧ isBreak c1 = false ∧ isBreak c2 = false ∧
      isBreak c3 = false ∧ Aligned 0 b' := by
  have hnext : ∀ {r : ℕ} {l : List UInt8}, r ≠ 0 → Aligned r l →
      ∃ c l', l = c :: l' ∧ isBreak c = false ∧ Aligned ((r+1) % 4) l' := by
    intro r l hr hl
    cases l with
    | nil => exact absurd hl hr
    | cons c l =>
      cases hc : isBreak c with
      | true => exact absurd ((aligned_break hc).mp hl).1 hr
      | false => exact ⟨c, l, rfl, hc, (aligned_cons hc).mp hl⟩
  obtain ⟨c1, b1, rfl, h1, hb⟩ := hnext (by decide) h
  obtain ⟨c2, b2, rfl, h2, hb⟩ := hnext (by decide) hb
  obtain ⟨c3, b3, rfl, h3, hb⟩ := hnext (by decide) hb
  exact ⟨c1, c2, c3, b3, rfl, h1, h2, h3, hb⟩

theorem walk_skip {m skip : ℕ} (h : m ≤ skip) (l : List UInt8) : walk m l skip = [] := by
  induction m generalizing skip l with
  | zero => rw [walk]
  | succ m ih =>
    obtain ⟨skip, rfl⟩ : ∃ k, skip = k+1 := ⟨skip-1, by omega⟩
    cases l with
    | nil => rw [walk]
    | cons c l =>
      rw [walk]
      exact ih (by omega) l

theorem walk_length (m : ℕ) (l : List UInt8) (skip : ℕ) :
    (walk m l skip).flatten.length ≤ l.length-skip := by
  induction m generalizing l skip with
  | zero => simp [walk]
  | succ m ih =>
    cases l with
    | nil => simp [walk]
    | cons c l =>
      cases skip with
      | zero =>
        rw [walk]
        split
        · have := ih l 0
          rw [List.length_cons]
          omega
        · have := ih l 3
          rw [List.flatten_cons, List.length_append, List.length_cons, List.length_take,
            List.length_cons]
          omega
      | succ skip =>
        have := ih l skip
        rw [walk, List.length_cons]
        omega

def solid (l : List UInt8) : List UInt8 := l.filter fun c => !isBlank c

theorem solid_append (l m : List UInt8) : solid (l ++ m) = solid l ++ solid m := List.filter_append ..

theorem solid_blank {l : List UInt8} (h : ∀ c ∈ l, isBlank c = true) : solid l = [] := by
  rw [solid, List.filter_eq_nil_iff]
  intro c hc
  simp [h c hc]

structure Walked (b : List UInt8) (gs : List (List UInt8)) : Prop where
  held : solid gs.flatten = solid b
  aligned : Aligned 0 b → gs.flatten = chars b ∧ ∀ g ∈ gs, g.length = 4
  length : (∀ g ∈ gs, g.length = 4) → (chars b).length ≤ gs.flatten.length ∧
    (gs.flatten.length ≤ (chars b).length → Aligned 0 b)

theorem chars_length_le (b : List UInt8) : (chars b).length ≤ b.length := List.length_filter_le ..

theorem Walked.skip {c : UInt8} {b : List UInt8} {gs : List (List UInt8)} (h : Walked b gs)
    (hc : isBreak c = true) : Walked (c :: b) gs := by
  have hsolid : solid (c :: b) = solid b := by simp [solid, isBlank, hc]
  have hal : Aligned 0 (c :: b) ↔ Aligned 0 b := by rw [aligned_break hc]; simp
  constructor
  · rw [hsolid]
    exact h.held
  · rw [hal, chars_break hc]
    exact h.aligned
  · rw [hal, chars_break hc]
    exact h.length

theorem Walked.group {c c1 c2 c3 : UInt8} {b : List UInt8} {gs : List (List UInt8)} (h : Walked b gs)
    (hc : isBreak c = false) : Walked (c :: c1 :: c2 :: c3 :: b) ([c, c1, c2, c3] :: gs) := by
  have hsplit : c :: c1 :: c2 :: c3 :: b = [c, c1, c2, c3] ++ b := rfl
  have hchars : chars (c :: c1 :: c2 :: c3 :: b) = chars [c, c1, c2, c3] ++ chars b := by
    rw [hsplit, chars, List.filter_append]
    rfl
  refine ⟨?_, fun hal => ?_, fun hgs => ?_⟩
  · rw [List.flatten_cons, hsplit, solid_append, solid_append, h.held]
  · obtain ⟨_, _, _, _, heq, h1, h2, h3, hb⟩ := aligned_group ((aligned_cons hc).mp hal)
    cases heq
    obtain ⟨hflat, hlen⟩ := h.aligned hb
    constructor
    · rw [List.flatten_cons, hflat, chars_cons hc, chars_cons h1, chars_cons h2, chars_cons h3]
      rfl
    · simpa using hlen
  · obtain ⟨hle, hal⟩ := h.length (fun g hg => hgs g (by simp [hg]))
    have h4 := chars_length_le [c, c1, c2, c3]
    rw [hchars, List.flatten_cons, List.length_append, List.length_append]
    simp only [List.length_cons, List.length_nil] at h4 ⊢
    refine ⟨by omega, fun hge => ?_⟩
    have hall : chars [c, c1, c2, c3] = [c, c1, c2, c3] :=
      List.filter_eq_self.mpr (List.length_filter_eq_length_iff.mp (show (chars _).length = 4 by omega))
    have hmem : ∀ d ∈ [c, c1, c2, c3], isBreak d = false := fun d hd => by
      rw [← hall, chars, List.mem_filter] at hd
      simpa using hd.2
    rw [aligned_cons hc, aligned_cons (hmem c1 (by simp)), aligned_cons (hmem c2 (by simp)),
      aligned_cons (hmem c3 (by simp))]
    exact hal (by omega)

theorem walked_ragged {c : UInt8} {b tail : List UInt8} (hc : isBreak c = false) (hb : b.length < 3)
    (ht : ∀ d ∈ tail, isBlank d = true) : Walked (c :: b) [c :: (b ++ tail).take 3] := by
  have htake : (b ++ tail).take 3 = b ++ tail.take (3-b.length) := by
    rw [List.take_append, List.take_of_length_le (by omega)]
  refine ⟨?_, fun hal => ?_, fun hgs => ?_⟩
  · have htail : solid (tail.take (3-b.length)) = [] :=
      solid_blank fun d hd => ht d (List.mem_of_mem_take hd)
    rw [List.flatten_singleton, htake, ← List.cons_append, solid_append, htail, List.append_nil]
  · obtain ⟨_, _, _, _, heq, -⟩ := aligned_group ((aligned_cons hc).mp hal)
    rw [heq] at hb
    simp only [List.length_cons] at hb
    omega
  · have h4 := hgs _ (List.mem_singleton.mpr rfl)
    have hle := chars_length_le (c :: b)
    rw [List.length_cons] at hle
    rw [List.flatten_singleton, h4]
    exact ⟨by omega, fun hge => by omega⟩

theorem walk_spec (b : List UInt8) {tail : List UInt8} (ht : ∀ c ∈ tail, isBlank c = true) :
    Walked b (walk b.length (b ++ tail) 0) := by
  induction hn : b.length using Nat.strongRecOn generalizing b with
  | ind n ih =>
    subst hn
    cases b with
    | nil => exact ⟨rfl, fun _ => ⟨rfl, by simp [walk]⟩, fun _ => ⟨Nat.le_refl _, fun _ => rfl⟩⟩
    | cons c b =>
      cases hc : isBreak c with
      | true =>
        rw [List.length_cons, List.cons_append, walk, if_pos hc]
        exact (ih b.length (by simp) b rfl).skip hc
      | false =>
        by_cases hb : b.length < 3
        · rw [List.length_cons, List.cons_append, walk, if_neg (by simp [hc]), walk_skip (by omega)]
          exact walked_ragged hc hb ht
        · rcases b with _ | ⟨c1, _ | ⟨c2, _ | ⟨c3, b⟩⟩⟩
          · simp at hb
          · simp at hb
          · simp at hb
          · simp only [List.length_cons, List.cons_append]
            rw [walk_group hc, Nat.add_sub_cancel]
            exact (ih b.length (by simp only [List.length_cons]; omega) b rfl).group hc

end Groups

section Calls

variable {dlen : ℤ} {src : List UInt8}

/-- A call that goes past the checks of its arguments and of a text of one
character. -/
structure Runs (dlen : ℤ) (src : List UInt8) : Prop where
  room : 0 < dlen
  long : 3 < src.length
  body : (body src).length ≠ 1

def outcome (dlen : ℤ) (r : Option ℤ × List UInt8) : Result :=
  match r.1 with
  | none => ⟨0, r.2.length, r.2⟩
  | some ret => ⟨ret, dlen, r.2⟩

theorem decode_one (checkdata : Bool) (hd : 0 < dlen) (h3 : 3 < src.length)
    (h1 : (body src).length = 1) : base64Decode checkdata dlen src = .ok ⟨0, 0, []⟩ := by
  rw [body_length] at h1
  rw [base64Decode, if_neg (by omega)]
  simp only [h1, if_true]

theorem decode_eq (checkdata : Bool) (h : Runs dlen src) :
    base64Decode checkdata dlen src =
      (decodeLoop (body src).length (if checkdata then checkedRound dlen else plainRound dlen)
        (body src).length ⟨0, src, 3, 0, 0, [], []⟩).map fun r => outcome dlen (r.2, r.1.out) := by
  obtain ⟨hd, h3, h1⟩ := h
  rw [base64Decode, if_neg (by omega)]
  rw [body_length] at h1 ⊢
  simp only [if_neg h1]
  generalize decodeLoop _ _ _ _ = r
  rcases r with e | ⟨s, _ | ret⟩
  · rfl
  · rfl
  · rfl

theorem decode_checked (h : Runs dlen src)
    (hroom : (groupBytes 3 (vals (chars (body src)))).length ≤ dlen)
    (hsmall : (groupBytes 3 (vals (chars (body src)))).length < 2^31) :
    (Valid 0 (chars (body src)) →
      base64Decode true dlen src = .ok (outcome dlen (none, groupBytes 3 (vals (chars (body src)))))) ∧
    (¬Valid 0 (chars (body src)) →
      ∃ r, base64Decode true dlen src = .ok r ∧ r.ret = errInvalidCharacter) := by
  have hb : Between dlen (body src).length ⟨0, src, 3, 0, 0, [], []⟩ (body src) (rest src) :=
    ⟨(body_rest src).symm, by simp, by simp, rfl, by simp, by simp, rfl, by simpa using hroom,
      by simpa using hsmall⟩
  obtain ⟨hv, hnv⟩ := checkedLoop_spec hb (Nat.le_refl _)
  rw [decode_eq true h]
  constructor
  · intro hvalid
    obtain ⟨s', hs', hout⟩ := hv hvalid
    simp only [if_true, hs', Except.map, hout, List.nil_append]
  · intro hvalid
    obtain ⟨s', hs'⟩ := hnv hvalid
    exact ⟨outcome dlen (some errInvalidCharacter, s'.out), by simp only [if_true, hs', Except.map], rfl⟩

theorem decode_plain (h : Runs dlen src) :
    base64Decode false dlen src =
      (runGroups dlen (walk (body src).length src 0) 3 0 []).map (outcome dlen) := by
  have hle : (body src).length ≤ src.length := by
    rw [body_length]
    exact trim_le _ _
  have hd := h.room
  have hrun := @plainLoop_eq dlen (body src).length (body src).length ⟨0, src, 3, 0, 0, [], []⟩
    (Nat.le_refl _) hle (by simp only [List.length_nil]; omega)
  rw [decode_eq false h]
  simp only [Nat.sub_zero] at hrun
  rw [← hrun]
  simp only [Bool.false_eq_true, if_false]
  generalize decodeLoop _ _ _ _ = r
  cases r with
  | error e => rfl
  | ok r => rfl

theorem valid_pads {k : ℕ} {l : List UInt8} (h : Valid k l) (hk : k ≤ 2) : k+pads (vals l) ≤ 2 := by
  induction l generalizing k with
  | nil => exact hk
  | cons c l ih =>
    obtain ⟨hg, hv⟩ := h
    have hgk := hg.2.2.2
    rw [vals, List.map_cons, pads_cons, pad]
    simp only [val_eq_pad]
    by_cases h61 : c = 61
    · rw [if_pos h61] at hgk hv ⊢
      have := ih hv (by omega)
      rw [vals] at this
      omega
    · rw [if_neg h61] at hv ⊢
      have := ih hv hk
      rw [vals] at this
      omega

theorem valid_good {k : ℕ} {l : List UInt8} (h : Valid k l) :
    ∀ c ∈ l, c.toNat < 128 ∧ c ≠ 32 := by
  induction l generalizing k with
  | nil => simp
  | cons c l ih =>
    intro d hd
    rcases List.mem_cons.mp hd with rfl | hd
    · exact ⟨h.1.2.1, h.1.1⟩
    · exact ih h.2 d hd

/-- On an aligned text the build without checks writes the bytes of its
characters. -/
theorem decode_aligned (h : Runs dlen src) (hal : Aligned 0 (body src))
    (hv : Valid 0 (chars (body src)))
    (hroom : (groupBytes 3 (vals (chars (body src)))).length ≤ dlen)
    (hsmall : (groupBytes 3 (vals (chars (body src)))).length < 2^31) :
    base64Decode false dlen src = .ok (outcome dlen (none, groupBytes 3 (vals (chars (body src))))) := by
  have hw := (walk_spec (body src) (rest_blank src)).aligned hal
  rw [body_rest] at hw
  obtain ⟨hflat, hlen⟩ := hw
  have hp := valid_pads hv (by decide)
  have hwhole : ∀ g ∈ walk (body src).length src 0, Whole g := fun g hg =>
    ⟨hlen g hg, fun c hc => (valid_good hv c (hflat ▸ List.mem_flatten.mpr ⟨g, hg, hc⟩)).1⟩
  have hrun := @runGroups_eq dlen (walk (body src).length src 0) 3 0 [] (by decide)
    (by rw [hflat]; omega) rfl (by rw [hflat]; simpa using hroom) (by rw [hflat]; simpa using hsmall)
  rw [decode_plain h, hrun, if_pos hwhole, hflat]
  rfl

end Calls

end CLearning.Base64Text
