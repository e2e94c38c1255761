import CLearning.Base64Text
import Mathlib.Algebra.BigOperators.Group.Finset.Basic
import Mathlib.Algebra.Order.BigOperators.Group.Finset

/-!
# The three decoders on one text

On a text the checking build accepts, the other build agrees exactly when the
line breaks stand between groups, and the old decoder exactly when the blanks at
the end do not complete a group.
-/

set_option autoImplicit false

namespace CLearning.Base64Agree
open CLearning.Machine CLearning.Base64 CLearning.Base64Loops CLearning.Base64Text

section OldLoop

def oldGroupBytes : ℕ → List ℕ → List UInt8
  | j, t0 :: t1 :: t2 :: t3 :: vs =>
    (quad (t0 % 64) (t1 % 64) (t2 % 64) (t3 % 64)).take (j-pads [t0, t1, t2, t3]) ++
      oldGroupBytes (j-pads [t0, t1, t2, t3]) vs
  | _, _ => []

theorem oldGroupBytes_cons {j t0 t1 t2 t3 : ℕ} {vs : List ℕ} :
    oldGroupBytes j (t0 :: t1 :: t2 :: t3 :: vs) =
      (quad (t0 % 64) (t1 % 64) (t2 % 64) (t3 % 64)).take (j-pads [t0, t1, t2, t3]) ++
        oldGroupBytes (j-pads [t0, t1, t2, t3]) vs := rfl

theorem oldGroupBytes_short {j : ℕ} {vs : List ℕ} (h : vs.length < 4) : oldGroupBytes j vs = [] := by
  rcases vs with _ | ⟨t0, _ | ⟨t1, _ | ⟨t2, _ | ⟨t3, vs⟩⟩⟩⟩
  · rfl
  · rfl
  · rfl
  · rfl
  · simp only [List.length_cons] at h
    omega

def pack (vs : List ℕ) : ℕ := vs.foldl (fun x v => x*64+v % 64) 0

theorem pack_snoc (vs : List ℕ) (v : ℕ) : pack (vs ++ [v]) = pack vs*64+v % 64 := by
  rw [pack, List.foldl_append]
  rfl

theorem shift_in {x n v : ℕ} {vs : List ℕ} (hn : n < 4) (hx : x % 64^n = pack vs) :
    (((x <<< 6) ||| (v &&& 0x3F)) % 2^64) % 64^(n+1) = pack (vs ++ [v]) := by
  rw [pack_snoc, ← hx, show (0x3F : ℕ) = 2^6-1 from rfl, Nat.and_two_pow_sub_one_eq_mod,
    shiftLeft_or (Nat.mod_lt _ (by decide))]
  rcases (show n = 0 ∨ n = 1 ∨ n = 2 ∨ n = 3 by omega) with rfl | rfl | rfl | rfl
  · omega
  · omega
  · omega
  · omega

theorem pack_quad {x t0 t1 t2 t3 : ℕ} (hx : x % 64^4 = pack [t0, t1, t2, t3]) :
    [x >>> 16, x >>> 8, x].map UInt8.ofNat = quad (t0 % 64) (t1 % 64) (t2 % 64) (t3 % 64) := by
  have hpack : pack [t0, t1, t2, t3] =
      ((((0*64+t0 % 64)*64+t1 % 64)*64+t2 % 64)*64+t3 % 64) := rfl
  have hbyte : ∀ a b : ℕ, a % 256 = b % 256 → UInt8.ofNat a = UInt8.ofNat b := fun a b h => by
    apply UInt8.toNat_inj.mp
    simpa using h
  rw [hpack] at hx
  rw [quad, byte0_eq _ (Nat.mod_lt _ (by decide)), byte1_eq _ (Nat.mod_lt _ (by decide)), byte2_eq]
  simp only [List.map_cons, List.map_nil, Nat.shiftRight_eq_div_pow]
  have e0 := hbyte (x / 2^16) (t0 % 64 % 64*4+t1 % 64 / 16) (by omega)
  have e1 := hbyte (x / 2^8) (t1 % 64 % 16*16+t2 % 64 / 4) (by omega)
  have e2 := hbyte x (t2 % 64 % 4*64+t3 % 64 % 64) (by omega)
  rw [e0, e1, e2]

structure Shifted (j : ℤ) (n x jc : ℕ) (p : List ℕ) : Prop where
  left : j = (jc-pads p : ℕ)
  enough : pads p ≤ jc
  len : p.length = n
  few : n < 4
  acc : x % 64^n = pack p

theorem oldLoop_spec {dlen : ℤ} {src : List UInt8} (hsrc : ∀ c ∈ src, c.toNat < 128) {j : ℤ}
    {n x jc : ℕ} {p : List ℕ} {out : List UInt8} (hs : Shifted j n x jc p) (hj : jc ≤ 3)
    (hp : pads (p ++ vals (chars src)) ≤ jc)
    (hroom : (out.length+(oldGroupBytes jc (p ++ vals (chars src))).length : ℕ) ≤ dlen) :
    oldLoop dlen src j n x out = .ok (out ++ oldGroupBytes jc (p ++ vals (chars src))) := by
  induction src generalizing j n x jc p out with
  | nil =>
    rw [oldLoop, oldGroupBytes_short (by simpa [chars, vals, hs.len] using hs.few), List.append_nil]
  | cons c src ih =>
    have hrest : ∀ d ∈ src, d.toNat < 128 := fun d hd => hsrc d (by simp [hd])
    cases hc : isBreak c with
    | true =>
      rw [chars_break hc] at hp hroom ⊢
      rw [oldLoop, if_pos hc]
      exact ih hrest hs hj hp hroom
    | false =>
      have hsplit : p ++ vals (chars (c :: src)) = (p ++ [val c]) ++ vals (chars src) := by
        rw [chars_cons hc]
        simp [vals]
      rw [hsplit] at hp hroom ⊢
      have hpp : pads (p ++ [val c]) = pads p+pad (val c) := by
        rw [pads_append, pads_cons]
        rfl
      have hle : pads (p ++ [val c]) ≤ jc := by
        rw [pads_append] at hp
        omega
      have hacc := shift_in (v := val c) hs.few hs.acc
      have hleft : j-(pad (val c) : ℤ) = (jc-pads (p ++ [val c]) : ℕ) := by
        rw [hs.left, hpp]
        omega
      rw [oldLoop, if_neg (by simp [hc]), decAt_of_lt (hsrc c (by simp)), ok_bind]
      simp only [hleft]
      generalize ((x <<< 6) ||| (val c &&& 0x3F)) % 2^64 = x' at hacc ⊢
      by_cases h4 : n+1 = 4
      · rw [if_pos h4]
        obtain ⟨t0, t1, t2, t3, ht⟩ := @eq_quad (p ++ [val c]) (by simp [hs.len, h4])
        rw [ht] at hp hroom hle hacc ⊢
        rw [h4] at hacc
        simp only [List.cons_append, List.nil_append, oldGroupBytes_cons, List.length_append,
          List.length_take, quad_length] at hroom ⊢
        have hstore := @store_eq dlen out (by omega) (jc-pads [t0, t1, t2, t3]) (x' >>> 16)
          (x' >>> 8) x'
        rw [if_pos (by omega), pack_quad hacc] at hstore
        have hfun : (fun m : ℕ => decide (((jc-pads [t0, t1, t2, t3] : ℕ) : ℤ) > (m : ℤ))) =
            fun m => decide (jc-pads [t0, t1, t2, t3] > m) := by
          funext m
          simp only [gt_iff_lt, Int.ofNat_lt]
        have hnext : Shifted ((jc-pads [t0, t1, t2, t3] : ℕ) : ℤ) 0 x' (jc-pads [t0, t1, t2, t3]) [] :=
          ⟨rfl, Nat.zero_le _, rfl, by decide, Nat.mod_one _⟩
        have hp' := pads_append [t0, t1, t2, t3] (vals (chars src))
        have hroom' : ((out ++ (quad (t0 % 64) (t1 % 64) (t2 % 64) (t3 % 64)).take
            (jc-pads [t0, t1, t2, t3])).length+(oldGroupBytes (jc-pads [t0, t1, t2, t3])
              ([] ++ vals (chars src))).length : ℕ) ≤ dlen := by
          simp only [List.nil_append, List.length_append, List.length_take, quad_length]
          omega
        have hrun := ih hrest hnext (by omega) (by rw [List.nil_append]; omega) hroom'
        rw [hfun, hstore, ok_bind, hrun, List.nil_append, List.append_assoc]
      · rw [if_neg h4]
        have hfew := hs.few
        exact ih hrest ⟨rfl, hle, by simp [hs.len], by omega, hacc⟩ hj hp hroom

/-- The characters the first loop counts: all but line feeds and returns before
one. -/
def counted : List UInt8 → ℕ
  | [] => 0
  | c :: src => if c = 13 ∧ src.head? = some 10 ∨ c = 10 then counted src else counted src+1

theorem counted_le (src : List UInt8) : counted src ≤ src.length := by
  induction src with
  | nil => exact Nat.le_refl 0
  | cons c src ih =>
    rw [counted, List.length_cons]
    split <;> omega

theorem oldCount_ok {src : List UInt8} (h : ∀ c ∈ src, c.toNat < 128) (n : ℕ) :
    oldCount src n = .ok (n+counted src) := by
  induction src generalizing n with
  | nil => rfl
  | cons c src ih =>
    have ih := ih fun d hd => h d (by simp [hd])
    rw [oldCount, counted]
    by_cases h1 : c = 13 ∧ src.head? = some 10
    · rw [if_pos h1, if_pos (Or.inl h1), ih]
    · rw [if_neg h1]
      by_cases h2 : c = 10
      · rw [if_pos h2, if_pos (Or.inr h2), ih]
      · rw [if_neg h2, if_neg (by rintro (h | h); exact h1 h; exact h2 h),
          decAt_of_lt (h c (by simp)), ok_bind, ih]
        congr 1
        omega

theorem oldCount_error {src : List UInt8} (h : ¬∀ c ∈ src, c.toNat < 128) (n : ℕ) :
    oldCount src n = .error .wildAccess := by
  induction src generalizing n with
  | nil => simp at h
  | cons c src ih =>
    rw [oldCount]
    by_cases hc : c.toNat < 128
    · have ih := ih fun hall => h fun d hd => by
        rcases List.mem_cons.mp hd with rfl | hd
        · exact hc
        · exact hall d hd
      rw [decAt_of_lt hc, ok_bind, ih, ih]
      simp
    · have h13 : c ≠ 13 := by
        rintro rfl
        exact hc (by decide)
      have h10 : c ≠ 10 := by
        rintro rfl
        exact hc (by decide)
      rw [if_neg (fun h => h13 h.1), if_neg h10, decAt_of_ge (by omega)]
      rfl

end OldLoop

section Lengths

theorem short_of {vs : List ℕ} (h : ∀ t0 t1 t2 t3 ws, vs = t0 :: t1 :: t2 :: t3 :: ws → False) :
    vs.length < 4 := by
  rcases vs with _ | ⟨t0, _ | ⟨t1, _ | ⟨t2, _ | ⟨t3, vs⟩⟩⟩⟩
  · decide
  · simp
  · simp
  · simp
  · exact (h t0 t1 t2 t3 vs rfl).elim

open Finset in
theorem groupBytes_length {j : ℕ} (hj : j ≤ 3) (vs : List ℕ) :
    (groupBytes j vs).length = ∑ k ∈ range (vs.length / 4), (j-pads (vs.take (4*(k+1)))) := by
  fun_induction groupBytes j vs with
  | case1 j t0 t1 t2 t3 vs ih =>
    have hlen : (t0 :: t1 :: t2 :: t3 :: vs).length / 4 = vs.length / 4+1 := by
      simp only [List.length_cons]
      omega
    have htake : ∀ k, pads ((t0 :: t1 :: t2 :: t3 :: vs).take (4*(k+1+1))) =
        pads [t0, t1, t2, t3]+pads (vs.take (4*(k+1))) := fun k => by
      rw [← pads_append]
      rfl
    rw [List.length_append, ih (by omega), hlen, sum_range_succ', List.length_take, quad_length]
    simp only [htake, Nat.sub_add_eq]
    rw [Nat.add_comm]
    congr 1
    have h0 : (t0 :: t1 :: t2 :: t3 :: vs).take (4*(0+1)) = [t0, t1, t2, t3] := rfl
    rw [h0]
    omega
  | case2 j vs h =>
    rw [Nat.div_eq_of_lt (short_of h)]
    rfl

theorem oldGroupBytes_length (j : ℕ) (vs : List ℕ) :
    (oldGroupBytes j vs).length = (groupBytes j vs).length := by
  fun_induction groupBytes j vs with
  | case1 j t0 t1 t2 t3 vs ih =>
    rw [oldGroupBytes_cons, List.length_append, List.length_append, ih, List.length_take,
      List.length_take, quad_length, quad_length]
  | case2 j vs h => rw [oldGroupBytes_short (short_of h)]

theorem groupBytes_length_le (j : ℕ) (vs : List ℕ) :
    (groupBytes j vs).length ≤ vs.length / 4*3 := by
  fun_induction groupBytes j vs with
  | case1 j t0 t1 t2 t3 vs ih =>
    rw [List.length_append, List.length_take, quad_length]
    simp only [List.length_cons]
    omega
  | case2 j vs h => exact Nat.zero_le _

open Finset in
/-- A row with at least as few pads up to every place and one more whole group
has more bytes. -/
theorem groupBytes_lt {vs ws : List ℕ} (hp : ∀ m, pads (ws.take m) ≤ pads (vs.take m))
    (h2 : pads vs ≤ 2) (hl : vs.length / 4 < ws.length / 4) :
    (groupBytes 3 vs).length < (groupBytes 3 ws).length := by
  have hle : ∀ m, pads (vs.take m) ≤ 2 := fun m => by
    have := pads_append (vs.take m) (vs.drop m)
    rw [List.take_append_drop] at this
    omega
  rw [groupBytes_length (by decide), groupBytes_length (by decide)]
  calc
    ∑ k ∈ range (vs.length / 4), (3-pads (vs.take (4*(k+1))))
      ≤ ∑ k ∈ range (vs.length / 4), (3-pads (ws.take (4*(k+1)))) :=
        sum_le_sum fun k _ => Nat.sub_le_sub_left (hp _) 3
    _ < ∑ k ∈ range (vs.length / 4+1), (3-pads (ws.take (4*(k+1)))) := by
        rw [sum_range_succ]
        have h1 := hp (4*(vs.length / 4+1))
        have h2 := hle (4*(vs.length / 4+1))
        omega
    _ ≤ ∑ k ∈ range (ws.length / 4), (3-pads (ws.take (4*(k+1)))) :=
        sum_le_sum_of_subset (range_mono hl)

end Lengths

section Valid

theorem valid_after {k : ℕ} {l : List UInt8} (h : Valid k l) (h0 : 0 < k) (h2 : k ≤ 2) :
    k+l.length ≤ 2 := by
  induction l generalizing k with
  | nil => exact h2
  | cons c l ih =>
    obtain ⟨hg, hv⟩ := h
    have hgk := hg.2.2.2
    by_cases h61 : c = 61
    · rw [if_pos h61] at hgk hv
      have := ih hv (by omega) (by omega)
      rw [List.length_cons]
      omega
    · rw [if_neg h61] at hgk
      omega

theorem valid_data {c : UInt8} {l : List UInt8} (h : Valid 0 (c :: l)) (hl : 2 ≤ l.length) :
    val c < 64 ∧ Valid 0 l := by
  obtain ⟨hg, hv⟩ := h
  by_cases h61 : c = 61
  · rw [if_pos h61] at hv
    have := valid_after hv (by decide) (by decide)
    omega
  · rw [if_neg h61] at hv
    rcases val_cases c with hc | hc | hc
    · exact absurd hc.2 h61
    · exact ⟨hc.2, hv⟩
    · exact absurd hc.2 hg.2.2.1

/-- On valid characters the masks of the two decoders make no difference. -/
theorem oldGroupBytes_eq (l : List UInt8) (h : Valid 0 l) :
    oldGroupBytes 3 (vals l) = groupBytes 3 (vals l) := by
  induction hn : l.length using Nat.strongRecOn generalizing l with
  | ind n ih =>
    by_cases hs : l.length < 4
    · rw [oldGroupBytes_short (by simpa [vals] using hs), groupBytes_short (by simpa [vals] using hs)]
    rcases l with _ | ⟨c0, _ | ⟨c1, _ | ⟨c2, _ | ⟨c3, l⟩⟩⟩⟩
    · simp at hs
    · simp at hs
    · simp at hs
    · simp at hs
    obtain ⟨h0, hv⟩ := valid_data h (by simp)
    obtain ⟨h1, hv⟩ := valid_data hv (by simp)
    have hvals : vals (c0 :: c1 :: c2 :: c3 :: l) = val c0 :: val c1 :: val c2 :: val c3 :: vals l := rfl
    have hn0 : pad (val c0) = 0 := if_neg (by omega)
    have hn1 : pad (val c1) = 0 := if_neg (by omega)
    rw [hvals, oldGroupBytes_cons, groupBytes_cons, pads_quad, hn0, hn1, Nat.mod_eq_of_lt h0,
      Nat.mod_eq_of_lt h1]
    obtain ⟨hg2, hv⟩ := hv
    by_cases h2 : c2 = 61
    · rw [if_pos h2] at hv
      have hlen := valid_after hv (by decide) (by decide)
      rw [List.length_cons] at hlen
      have h3 : c3 = 61 := by
        by_contra h3
        have hg3 := hv.1.2.2.2
        rw [if_neg h3] at hg3
        omega
      have hl : (vals l).length < 4 := by
        rw [vals, List.length_map]
        omega
      rw [oldGroupBytes_short hl, groupBytes_short hl, h2, h3, show pad (val 61) = 1 by decide]
      rfl
    · rw [if_neg h2] at hv
      have hd2 : val c2 < 64 := by
        rcases val_cases c2 with hc | hc | hc
        · exact absurd hc.2 h2
        · exact hc.2
        · exact absurd hc.2 hg2.2.2.1
      have hn2 : pad (val c2) = 0 := if_neg (by omega)
      rw [hn2, Nat.mod_eq_of_lt hd2]
      obtain ⟨hg3, hv⟩ := hv
      by_cases h3 : c3 = 61
      · rw [if_pos h3] at hv
        have hlen := valid_after hv (by decide) (by decide)
        have hl : (vals l).length < 4 := by
          rw [vals, List.length_map]
          omega
        rw [oldGroupBytes_short hl, groupBytes_short hl, h3, show pad (val 61) = 1 by decide]
        rfl
      · rw [if_neg h3] at hv
        have hd3 : val c3 < 64 := by
          rcases val_cases c3 with hc | hc | hc
          · exact absurd hc.2 h3
          · exact hc.2
          · exact absurd hc.2 hg3.2.2.1
        have hn3 : pad (val c3) = 0 := if_neg (by omega)
        rw [hn3, Nat.mod_eq_of_lt hd3, ih l.length (by simp only [← hn, List.length_cons]; omega) l hv rfl]

end Valid

section Agree

variable {dlen : ℤ} {src : List UInt8} {r : Result}

def accepted (src : List UInt8) : List UInt8 := groupBytes 3 (vals (chars (body src)))

theorem groupBytes_le (j : ℕ) (l : List UInt8) : (groupBytes j (vals l)).length ≤ l.length := by
  have h := groupBytes_length_le j (vals l)
  rw [vals, List.length_map] at h
  rw [vals]
  omega

theorem accepted_le (src : List UInt8) : (accepted src).length ≤ src.length := by
  have h1 := groupBytes_le 3 (chars (body src))
  have h2 := chars_length_le (body src)
  have h3 := trim_le src src.length
  rw [← body_length] at h3
  rw [accepted]
  omega

structure Accepted (dlen : ℤ) (src : List UInt8) (r : Result) : Prop where
  room : src.length ≤ dlen
  small : src.length < 2^31
  dec : base64Decode true dlen src = .ok r
  ret : r.ret = 0

theorem Accepted.long (h : Accepted dlen src r) : 3 < src.length := by
  by_contra hs
  have hdec := h.dec
  rw [base64Decode, if_pos (Or.inr (by omega))] at hdec
  have hret : (-1 : ℤ) = 0 := by
    have hret := h.ret
    rw [← Except.ok.inj hdec] at hret
    exact hret
  exact absurd hret (by decide)

theorem Accepted.spec (h : Accepted dlen src r) :
    r = ⟨0, (accepted src).length, accepted src⟩ ∧
      ((body src).length ≠ 1 → Valid 0 (chars (body src))) := by
  have hlong := h.long
  have hroom := h.room
  have hdec := h.dec
  have hle := accepted_le src
  by_cases h1 : (body src).length = 1
  · have hone := @decode_one dlen src true (by omega) hlong h1
    have hshort : (vals (chars (body src))).length < 4 := by
      have := chars_length_le (body src)
      rw [vals, List.length_map]
      omega
    rw [hdec] at hone
    rw [Except.ok.inj hone, accepted, groupBytes_short hshort]
    exact ⟨rfl, fun hne => absurd h1 hne⟩
  · have hsmall := h.small
    obtain ⟨hv, hnv⟩ := @decode_checked dlen src ⟨by omega, hlong, h1⟩
      (by rw [← accepted]; omega) (by rw [← accepted]; omega)
    by_cases hvalid : Valid 0 (chars (body src))
    · have hok := hv hvalid
      rw [hdec] at hok
      rw [Except.ok.inj hok]
      exact ⟨rfl, fun _ => hvalid⟩
    · obtain ⟨r', hr', hret'⟩ := hnv hvalid
      rw [hdec] at hr'
      have hret := h.ret
      rw [Except.ok.inj hr', hret'] at hret
      exact absurd hret (by decide)

theorem pads_vals (l : List UInt8) : pads (vals l) = l.count 61 := by
  induction l with
  | nil => rfl
  | cons c l ih =>
    rw [vals, List.map_cons, pads_cons, pad, List.count_cons]
    simp only [val_eq_pad]
    rw [vals] at ih
    rw [ih, Nat.add_comm]
    by_cases h : c = 61
    · simp [h]
    · simp [h]

theorem chars_solid {l : List UInt8} (h : Valid 0 (chars l)) : chars l = solid l := by
  rw [chars, solid]
  refine List.filter_congr fun c hc => ?_
  cases hb : isBreak c with
  | true => simp [isBlank, hb]
  | false =>
    have hmem : c ∈ chars l := List.mem_filter.mpr ⟨hc, by simp [hb]⟩
    simp [isBlank, hb, (valid_good h c hmem).2]

/-- Blanks put in between move the pads back. -/
theorem count_take_solid (l : List UInt8) (m : ℕ) :
    (l.take m).count 61 ≤ ((solid l).take m).count 61 := by
  induction l generalizing m with
  | nil => simp [solid]
  | cons c l ih =>
    cases m with
    | zero => simp
    | succ m =>
      cases hb : isBlank c with
      | true =>
        have hc : c ≠ 61 := by
          rintro rfl
          exact absurd hb (by decide)
        have hs : solid (c :: l) = solid l := by simp [solid, hb]
        rw [hs, List.take_succ_cons, List.count_cons_of_ne hc]
        refine Nat.le_trans (ih m) (List.Sublist.count_le _ ?_)
        exact (List.take_prefix_take_left (Nat.le_succ m)).sublist
      | false =>
        have hs : solid (c :: l) = c :: solid l := by simp [solid, hb]
        rw [hs, List.take_succ_cons, List.take_succ_cons, List.count_cons, List.count_cons]
        have := ih m
        omega

theorem flatten_length {gs : List (List UInt8)} (h : ∀ g ∈ gs, g.length = 4) :
    gs.flatten.length = 4*gs.length := by
  induction gs with
  | nil => rfl
  | cons g gs ih =>
    rw [List.flatten_cons, List.length_append, h g (by simp), ih fun g' hg => h g' (by simp [hg]),
      List.length_cons]
    omega

/-- Where the other build agrees: the text has one character before its
blanks, or its line breaks stand between groups. -/
def PlainAgrees (src : List UInt8) : Prop := (body src).length = 1 ∨ Aligned 0 (body src)

instance (src : List UInt8) : Decidable (PlainAgrees src) :=
  inferInstanceAs (Decidable ((body src).length = 1 ∨ Aligned 0 (body src)))

theorem plain_agrees_iff (h : Accepted dlen src r) :
    base64Decode false dlen src = .ok r ↔ PlainAgrees src := by
  have hlong := h.long
  have hroom := h.room
  have hsmall := h.small
  have hle := accepted_le src
  obtain ⟨hr, hvalid⟩ := h.spec
  by_cases h1 : (body src).length = 1
  · have hone := @decode_one dlen src false (by omega) hlong h1
    have htrue := @decode_one dlen src true (by omega) hlong h1
    rw [h.dec] at htrue
    rw [hone, htrue]
    exact ⟨fun _ => Or.inl h1, fun _ => rfl⟩
  have hruns : Runs dlen src := ⟨by omega, hlong, h1⟩
  have hv := hvalid h1
  constructor
  · intro hplain
    refine Or.inr ?_
    by_contra hal
    have hw := walk_spec (body src) (rest_blank src)
    rw [body_rest] at hw
    have hsolid := hw.held
    rw [← chars_solid hv] at hsolid
    have hwl := walk_length (body src).length src 0
    have hpads : ∀ m, pads ((vals (walk (body src).length src 0).flatten).take m) ≤
        pads ((vals (chars (body src))).take m) := fun m => by
      have := count_take_solid (walk (body src).length src 0).flatten m
      rw [hsolid, ← pads_vals, ← pads_vals, vals, vals, List.map_take, List.map_take] at this
      exact this
    have hp2 := valid_pads hv (by decide)
    have hp := hpads (vals (walk (body src).length src 0).flatten).length
    rw [List.take_length] at hp
    have htot : pads ((vals (chars (body src))).take
        (vals (walk (body src).length src 0).flatten).length) ≤ pads (vals (chars (body src))) :=
      (List.take_sublist _ _).count_le _
    have hgl := groupBytes_le 3 (walk (body src).length src 0).flatten
    have hrun := @runGroups_eq dlen (walk (body src).length src 0) 3 0 [] (by decide) (by omega) rfl
      (by simp only [List.length_nil]; omega) (by simp only [List.length_nil]; omega)
    rw [decode_plain hruns, hrun] at hplain
    by_cases hall : ∀ g ∈ walk (body src).length src 0, Whole g
    · rw [if_pos hall] at hplain
      have heq := Except.ok.inj hplain
      rw [hr] at heq
      have hdst : groupBytes 3 (vals (walk (body src).length src 0).flatten) = accepted src := by
        simpa [outcome] using congrArg Result.dst heq
      obtain ⟨hlen, hiff⟩ := hw.length fun g hg => (hall g hg).1
      have hlt : (chars (body src)).length < (walk (body src).length src 0).flatten.length := by
        by_contra hge
        exact hal (hiff (by omega))
      have h4 := flatten_length fun g hg => (hall g hg).1
      have := @groupBytes_lt (vals (chars (body src))) (vals (walk (body src).length src 0).flatten)
        hpads (by omega) (by rw [vals, vals, List.length_map, List.length_map]; omega)
      rw [hdst, accepted] at this
      omega
    · rw [if_neg hall] at hplain
      cases hplain
  · rintro (h' | hal)
    · exact absurd h' h1
    · rw [decode_aligned hruns hal hv (by rw [← accepted]; omega) (by rw [← accepted]; omega), hr]
      rfl

def blanks (src : List UInt8) : ℕ := (rest src).count 32

theorem chars_rest_length (src : List UInt8) : (chars (rest src)).length = blanks src := by
  rw [blanks, chars, List.count_eq_length_filter]
  congr 1
  refine List.filter_congr fun c hc => ?_
  have hb := rest_blank src c hc
  rw [isBlank, Bool.or_eq_true, decide_eq_true_eq] at hb
  rcases hb with rfl | hb
  · decide
  · have hne : c ≠ 32 := by
      rintro rfl
      exact absurd hb (by decide)
    simp [hb, hne]

theorem pads_rest (src : List UInt8) : pads (vals (chars (rest src))) = 0 := by
  rw [pads_vals, List.count_eq_zero]
  intro hmem
  have hb := rest_blank src 61 (List.mem_filter.mp hmem).1
  exact absurd hb (by decide)

theorem chars_split (src : List UInt8) :
    vals (chars src) = vals (chars (body src)) ++ vals (chars (rest src)) := by
  conv_lhs => rw [← body_rest src]
  rw [chars, List.filter_append, vals, List.map_append]
  rfl

theorem oldGroupBytes_append (j : ℕ) (vs ws : List ℕ) (h : vs.length % 4+ws.length < 4) :
    oldGroupBytes j (vs ++ ws) = oldGroupBytes j vs := by
  fun_induction oldGroupBytes j vs with
  | case1 j t0 t1 t2 t3 vs ih =>
    simp only [List.length_cons] at h
    rw [List.cons_append, List.cons_append, List.cons_append, List.cons_append, oldGroupBytes_cons,
      ih (by omega)]
  | case2 j vs hs =>
    have hlen := short_of hs
    rw [oldGroupBytes_short]
    rw [List.length_append]
    omega

/-- Where the old decoder agrees: every byte is in the table, there is something
other than line feeds and returns before them, but not so much that six times
its length overflows, and the spaces at the end complete no group. -/
def OldAgrees (src : List UInt8) : Prop :=
  (∀ c ∈ src, c.toNat < 128) ∧ counted src ≠ 0 ∧ counted src*6+7 < 2^31 ∧
    (chars (body src)).length % 4+blanks src < 4

instance (src : List UInt8) : Decidable (OldAgrees src) :=
  inferInstanceAs (Decidable ((∀ c ∈ src, c.toNat < 128) ∧ counted src ≠ 0 ∧
    counted src*6+7 < 2^31 ∧ (chars (body src)).length % 4+blanks src < 4))

theorem old_agrees_iff (h : Accepted dlen src r) :
    base64DecodeOld dlen src = .ok r ↔ OldAgrees src := by
  have hlong := h.long
  have hroom := h.room
  have hle := accepted_le src
  obtain ⟨hr, hvalid⟩ := h.spec
  rw [base64DecodeOld, OldAgrees]
  by_cases hc : ∀ c ∈ src, c.toNat < 128
  swap
  · rw [oldCount_error hc]
    exact ⟨fun hb => (by cases hb), fun hb => absurd hb.1 hc⟩
  rw [oldCount_ok hc, Nat.zero_add, ok_bind]
  by_cases h0 : counted src = 0
  · rw [if_pos h0]
    refine ⟨fun heq => ?_, fun hb => absurd h0 hb.2.1⟩
    have hd := congrArg Result.dlen (Except.ok.inj heq)
    rw [hr] at hd
    simp only at hd
    have hg := groupBytes_length_le 3 (vals (chars (body src)))
    rw [← accepted, vals, List.length_map] at hg
    have h2 := chars_length_le (body src)
    have h3 := trim_le src src.length
    rw [← body_length] at h3
    omega
  rw [if_neg h0]
  by_cases hof : counted src*6+7 ≥ 2^31
  · rw [if_pos hof]
    exact ⟨fun hb => (by cases hb), fun hb => absurd hb.2.2.1 (by omega)⟩
  rw [if_neg hof]
  have hcl := counted_le src
  have hlt : ¬dlen < (((counted src*6+7) >>> 3 : ℕ) : ℤ) := by
    rw [Nat.shiftRight_eq_div_pow]
    omega
  have hpb : pads (vals (chars (body src))) ≤ 2 := by
    by_cases h1 : (body src).length = 1
    · have hle1 := chars_length_le (body src)
      have : pads (vals (chars (body src))) ≤ (vals (chars (body src))).length := List.count_le_length
      rw [vals, List.length_map] at this
      rw [vals]
      omega
    · have := valid_pads (hvalid h1) (by decide)
      omega
  have hps : pads (vals (chars src)) ≤ 2 := by
    rw [chars_split src, pads_append, pads_rest]
    exact hpb
  have hol : (oldGroupBytes 3 (vals (chars src))).length ≤ src.length := by
    rw [oldGroupBytes_length]
    exact Nat.le_trans (groupBytes_le 3 (chars src)) (chars_length_le src)
  have hrun : oldLoop dlen src 3 0 0 [] = .ok ([] ++ oldGroupBytes 3 ([] ++ vals (chars src))) :=
    oldLoop_spec hc ⟨rfl, Nat.zero_le _, rfl, by decide, rfl⟩ (by decide)
      (by rw [List.nil_append]; omega) (by simp only [List.nil_append, List.length_nil]; omega)
  rw [List.nil_append, List.nil_append] at hrun
  simp only [if_neg hlt, hrun, ok_bind]
  have hblen : (vals (chars (body src))).length = (chars (body src)).length := by
    rw [vals, List.length_map]
  have hslen : (vals (chars (rest src))).length = blanks src := by
    rw [vals, List.length_map, chars_rest_length]
  by_cases hfit : (chars (body src)).length % 4+blanks src < 4
  · have hold : oldGroupBytes 3 (vals (chars src)) = accepted src := by
      rw [chars_split src, oldGroupBytes_append 3 _ _ (by omega), accepted]
      by_cases h1 : (body src).length = 1
      · have hle1 := chars_length_le (body src)
        rw [oldGroupBytes_short (by omega), groupBytes_short (by omega)]
      · exact oldGroupBytes_eq _ (hvalid h1)
    rw [hold, hr]
    exact ⟨fun _ => ⟨hc, h0, by omega, hfit⟩, fun _ => rfl⟩
  · refine ⟨fun heq => ?_, fun hb => absurd hb.2.2.2 hfit⟩
    have hdst : oldGroupBytes 3 (vals (chars src)) = accepted src := by
      have := congrArg Result.dst (Except.ok.inj heq)
      rw [hr] at this
      exact this
    have hlt := @groupBytes_lt (vals (chars (body src))) (vals (chars src)) (fun m => by
      rw [chars_split src, List.take_append, pads_append]
      have : pads ((vals (chars (rest src))).take (m-(vals (chars (body src))).length)) ≤
          pads (vals (chars (rest src))) := (List.take_sublist _ _).count_le _
      rw [pads_rest] at this
      omega) hpb (by rw [chars_split src, List.length_append]; omega)
    rw [← oldGroupBytes_length 3 (vals (chars src)), hdst, accepted] at hlt
    omega

/-- On a text the checking build accepts, with a buffer as long as the text, the
three decoders agree exactly under both conditions. -/
theorem decoders_agree_iff (src : List UInt8) (dlen : ℤ) (r : Result) (hd : src.length ≤ dlen)
    (hlen : src.length < 2^31) (hr : base64Decode true dlen src = .ok r) (h0 : r.ret = 0) :
    base64Decode false dlen src = .ok r ∧ base64DecodeOld dlen src = .ok r ↔
      PlainAgrees src ∧ OldAgrees src := by
  have h : Accepted dlen src r := ⟨hd, hlen, hr, h0⟩
  rw [plain_agrees_iff h, old_agrees_iff h]

theorem decoders_agree_abc :
    base64Decode false 4 [81, 85, 74, 68] = .ok ⟨0, 3, [65, 66, 67]⟩ ∧
        base64DecodeOld 4 [81, 85, 74, 68] = .ok ⟨0, 3, [65, 66, 67]⟩ ↔
      PlainAgrees [81, 85, 74, 68] ∧ OldAgrees [81, 85, 74, 68] :=
  decoders_agree_iff [81, 85, 74, 68] 4 ⟨0, 3, [65, 66, 67]⟩ (by decide) (by decide) (by decide)
    (by decide)

theorem abc_accepted {src : List UInt8} (h3 : 3 < src.length) (h8 : src.length ≤ 8)
    (h1 : (body src).length ≠ 1) (hv : Valid 0 (chars (body src)))
    (hg : accepted src = [65, 66, 67]) {dlen : ℤ} (hd : 8 ≤ dlen) :
    Accepted dlen src ⟨0, 3, [65, 66, 67]⟩ := by
  have hdec := (@decode_checked dlen src ⟨by omega, h3, h1⟩
    (by rw [← accepted, hg, List.length_cons, List.length_cons, List.length_singleton]; omega)
    (by rw [← accepted, hg]; decide)).1 hv
  rw [← accepted, hg] at hdec
  exact ⟨by omega, by omega, hdec, rfl⟩

/-- However large the buffer: with a line feed inside a group the checking build
accepts a text that the other one does not decode to the same, and with four
spaces at the end one that the old decoder does not. -/
theorem decoders_agree_fails :
    (∀ dlen : ℤ, 8 ≤ dlen →
      base64Decode true dlen [81, 85, 10, 74, 68] = .ok ⟨0, 3, [65, 66, 67]⟩ ∧
      base64Decode false dlen [81, 85, 10, 74, 68] ≠ .ok ⟨0, 3, [65, 66, 67]⟩) ∧
    ∀ dlen : ℤ, 8 ≤ dlen →
      base64Decode true dlen [81, 85, 74, 68, 32, 32, 32, 32] = .ok ⟨0, 3, [65, 66, 67]⟩ ∧
      base64DecodeOld dlen [81, 85, 74, 68, 32, 32, 32, 32] ≠ .ok ⟨0, 3, [65, 66, 67]⟩ := by
  constructor
  · intro dlen hd
    have h1 : Accepted dlen [81, 85, 10, 74, 68] ⟨0, 3, [65, 66, 67]⟩ :=
      abc_accepted (by decide) (by decide) (by decide) (by decide) (by decide) hd
    exact ⟨h1.dec, fun h => absurd ((plain_agrees_iff h1).mp h) (by decide +kernel)⟩
  · intro dlen hd
    have h2 : Accepted dlen [81, 85, 74, 68, 32, 32, 32, 32] ⟨0, 3, [65, 66, 67]⟩ :=
      abc_accepted (by decide) (by decide) (by decide) (by decide) (by decide) hd
    exact ⟨h2.dec, fun h => absurd ((old_agrees_iff h2).mp h) (by decide +kernel)⟩

end Agree

end CLearning.Base64Agree
