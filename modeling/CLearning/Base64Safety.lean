import CLearning.Base64Text

/-!
# Safety of the decoder without checks

Up to the third pad the size test counts the bytes exactly. From the fourth pad
on `j` has wrapped around: every group stores three bytes while the count goes
down, so the test no longer protects the destination.
-/

set_option autoImplicit false

namespace CLearning.Base64Safety
open CLearning.Machine CLearning.Base64 CLearning.Base64Loops CLearning.Base64Text

/-- No fault, and the length reported on success is the number of bytes
written. -/
def Safe (dlen : ℤ) (src : List UInt8) : Prop :=
  ∃ r, base64Decode false dlen src = .ok r ∧ (r.ret = 0 → r.dlen = r.dst.length)

section Counts

def padsTo (gs : List (List UInt8)) (k : ℕ) : ℕ := pads (vals (gs.take k).flatten)

def written (gs : List (List UInt8)) : ℕ → ℕ
  | 0 => 0
  | k+1 => written gs k+if padsTo gs (k+1) ≤ 3 then 3-padsTo gs (k+1) else 3

/-- What the first `k` groups add up to when each counts three less all the pads
so far. -/
def total (gs : List (List UInt8)) : ℕ → ℤ
  | 0 => 0
  | k+1 => total gs k+(3-padsTo gs (k+1))

def owed (gs : List (List UInt8)) (k : ℕ) : ℤ := (total gs k).bmod (2^32)

/-- Group `k` lies in the text and in the table, and if it comes after the third
pad and passes the size test it still finds room. -/
def GroupFits (dlen : ℤ) (gs : List (List UInt8)) (k : ℕ) : Prop :=
  Whole (gs.getD k []) ∧
    (3 < padsTo gs (k+1) → owed gs (k+1) ≤ dlen → written gs (k+1) ≤ dlen)

theorem padsTo_succ {gs : List (List UInt8)} {k : ℕ} (hk : k < gs.length) :
    padsTo gs (k+1) = padsTo gs k+pads (vals (gs.getD k [])) := by
  rw [padsTo, List.take_succ_eq_append_getElem hk, List.flatten_append, List.flatten_singleton, vals,
    List.map_append, pads_append, List.getD_eq_getElem?_getD, List.getElem?_eq_getElem hk]
  rfl

theorem padsTo_le {gs : List (List UInt8)} (k : ℕ) : padsTo gs k ≤ gs.flatten.length := by
  have hsub : (gs.take k).flatten.length ≤ gs.flatten.length := by
    rw [← List.take_append_drop k gs, List.flatten_append, List.length_append,
      List.take_append_drop]
    omega
  refine Nat.le_trans ?_ hsub
  rw [padsTo, pads]
  exact Nat.le_trans List.count_le_length (Nat.le_of_eq (by rw [vals, List.length_map]))

theorem written_le (gs : List (List UInt8)) (k : ℕ) : written gs k ≤ 3*k := by
  induction k with
  | zero => exact Nat.le_refl 0
  | succ k ih =>
    rw [written]
    split <;> omega

theorem total_eq {gs : List (List UInt8)} {k : ℕ} (hk : k ≤ gs.length) (h : padsTo gs k ≤ 3) :
    total gs k = written gs k := by
  induction k with
  | zero => rfl
  | succ k ih =>
    have hle : padsTo gs k ≤ padsTo gs (k+1) := by
      rw [padsTo_succ (by omega)]
      omega
    rw [total, written, ih (by omega) (by omega), if_pos h]
    omega

end Counts

section Runs

structure Before (dlen : ℤ) (gs : List (List UInt8)) (k j : ℕ) (count : ℤ) (out : List UInt8) :
    Prop where
  left : (j : ℤ) = (3-padsTo gs k) % ((2^32 : ℕ) : ℤ)
  counted : count = owed gs k
  stored : out.length = written gs k
  room : out.length ≤ dlen
  whole : ∀ m < k, (gs.getD m []).length = 4

theorem whole_length {gs : List (List UInt8)} {k : ℕ} (hk : k ≤ gs.length)
    (h : ∀ m < k, (gs.getD m []).length = 4) : 4*k ≤ gs.flatten.length := by
  induction gs generalizing k with
  | nil =>
    simp only [List.length_nil] at hk
    omega
  | cons g gs ih =>
    cases k with
    | zero => omega
    | succ k =>
      have hg : g.length = 4 := h 0 (by omega)
      have := ih (k := k) (by simpa using hk) (fun m hm => h (m+1) (by omega))
      rw [List.flatten_cons, List.length_append]
      omega

theorem Before.usub {dlen : ℤ} {gs : List (List UInt8)} {k j : ℕ} {count : ℤ} {out : List UInt8}
    (h : Before dlen gs k j count out) (hk : k < gs.length) (hg : (gs.getD k []).length = 4) :
    (Machine.usub 32 j (pads (vals (gs.getD k []))) : ℤ) =
      (3-padsTo gs (k+1)) % ((2^32 : ℕ) : ℤ) := by
  have hp : pads (vals (gs.getD k [])) ≤ 4 := by
    rw [pads]
    exact Nat.le_trans List.count_le_length (Nat.le_of_eq (by rw [vals, List.length_map, hg]))
  have hj := h.left
  rw [padsTo_succ hk, Machine.usub]
  omega

theorem stored_succ {gs : List (List UInt8)} {k j : ℕ} (hlen : gs.flatten.length < 2^31)
    (hj : (j : ℤ) = (3-padsTo gs (k+1)) % ((2^32 : ℕ) : ℤ)) :
    written gs k+min j 3 = written gs (k+1) := by
  have hp := @padsTo_le gs (k+1)
  rw [written]
  split
  · omega
  · omega

theorem runGroups_ok_iff {dlen : ℤ} {gs : List (List UInt8)} (hlen : gs.flatten.length < 2^31)
    {k j : ℕ} {count : ℤ} {out : List UInt8} (hk : k ≤ gs.length) (h : Before dlen gs k j count out) :
    (∃ r, runGroups dlen (gs.drop k) j count out = .ok r) ↔
      ∀ m, k ≤ m → m < gs.length → (∀ i, k < i → i ≤ m → owed gs i ≤ dlen) → GroupFits dlen gs m := by
  induction hn : gs.length-k generalizing k j count out with
  | zero =>
    rw [List.drop_of_length_le (by omega)]
    exact ⟨fun _ m h1 h2 => absurd h2 (by omega), fun _ => ⟨_, rfl⟩⟩
  | succ n ih =>
    have hlt : k < gs.length := by omega
    have hdrop : gs.drop k = gs.getD k [] :: gs.drop (k+1) := by
      rw [List.drop_eq_getElem_cons hlt, List.getD_eq_getElem?_getD, List.getElem?_eq_getElem hlt]
      rfl
    rw [hdrop, runGroups]
    by_cases hw : Whole (gs.getD k [])
    · have hj := h.usub hlt hw.1
      rw [if_pos hw]
      generalize Machine.usub 32 j (pads (vals (gs.getD k []))) = j' at hj ⊢
      have hcount : (count+j').bmod (2^32) = owed gs (k+1) := by
        rw [h.counted, hj, Int.add_emod_bmod, owed, Int.bmod_add_bmod, owed, total]
      have hstored := stored_succ hlen hj
      simp only [hcount]
      rw [h.stored, hstored]
      by_cases hd : dlen < owed gs (k+1)
      · rw [if_pos hd]
        refine ⟨fun _ m h1 h2 hm => ?_, fun _ => ⟨_, rfl⟩⟩
        rcases Nat.eq_or_lt_of_le h1 with rfl | hkm
        · exact ⟨hw, fun _ ho => absurd ho (by omega)⟩
        · exact absurd (hm (k+1) (by omega) hkm) (by omega)
      · rw [if_neg hd]
        by_cases hr : (written gs (k+1) : ℤ) ≤ dlen
        · rw [if_pos hr]
          have hnext : Before dlen gs (k+1) j' (owed gs (k+1))
              (out ++ (quadOf (vals (gs.getD k []))).take j') := by
            have hql : (quadOf (vals (gs.getD k []))).length = 3 := by
              obtain ⟨t0, t1, t2, t3, ht⟩ := @eq_quad (vals (gs.getD k []))
                (by rw [vals, List.length_map, hw.1])
              rw [ht]
              rfl
            have hout : (out ++ (quadOf (vals (gs.getD k []))).take j').length = written gs (k+1) := by
              rw [List.length_append, List.length_take, hql, h.stored, hstored]
            refine ⟨hj, rfl, hout, by rw [hout]; exact hr, fun m hm => ?_⟩
            rcases Nat.lt_succ_iff_lt_or_eq.mp hm with hm | rfl
            · exact h.whole m hm
            · exact hw.1
          rw [ih (by omega) hnext (by omega)]
          constructor
          · intro hall m h1 h2 hm
            rcases Nat.eq_or_lt_of_le h1 with rfl | hkm
            · exact ⟨hw, fun _ _ => hr⟩
            · exact hall m hkm h2 fun i h3 h4 => hm i (by omega) h4
          · intro hall m h1 h2 hm
            refine hall m (by omega) h2 fun i h3 h4 => ?_
            rcases Nat.eq_or_lt_of_le (show k+1 ≤ i from h3) with rfl | hki
            · omega
            · exact hm i hki h4
        · rw [if_neg hr]
          refine ⟨?_, fun hall => ?_⟩
          · rintro ⟨r, hc⟩
            cases hc
          have hfit := hall k (Nat.le_refl k) hlt (fun i h3 h4 => by omega)
          have h4k := @whole_length gs (k+1) (by omega) (fun m hm => by
            rcases Nat.lt_succ_iff_lt_or_eq.mp hm with hm | rfl
            · exact h.whole m hm
            · exact hw.1)
          have hle := written_le gs (k+1)
          by_cases hp : 3 < padsTo gs (k+1)
          · exact absurd (hfit.2 hp (by omega)) hr
          · exfalso
            apply hr
            have ho : owed gs (k+1) = written gs (k+1) := by
              rw [owed, total_eq (by omega) (by omega)]
              apply Int.bmod_eq_of_le
              · omega
              · omega
            omega
    · rw [if_neg hw]
      refine ⟨?_, fun hall => ?_⟩
      · rintro ⟨r, hc⟩
        cases hc
      exact absurd (hall k (Nat.le_refl k) hlt (fun i h3 h4 => by omega)).1 hw

theorem runGroups_ret {dlen : ℤ} {gs : List (List UInt8)} {j : ℕ} {count ret : ℤ}
    {out out' : List UInt8} (h : runGroups dlen gs j count out = .ok (some ret, out')) :
    ret = errBufferTooSmall := by
  induction gs generalizing j count out with
  | nil => cases h
  | cons g gs ih =>
    rw [runGroups] at h
    split at h
    · simp only at h
      split at h
      · cases h
        rfl
      · split at h
        · exact ih h
        · cases h
    · cases h

end Runs

section Safety

/-- The groups the loop comes to: it skips the line breaks before a group and
takes four characters for it. -/
def groups (src : List UInt8) : List (List UInt8) := walk (body src).length src 0

/-- Every group that the size tests before it let the loop reach fits. -/
def Fits (dlen : ℤ) (src : List UInt8) : Prop :=
  src.length ≤ 3 ∨ (body src).length = 1 ∨
    ∀ m < (groups src).length, (∀ i ≤ m, owed (groups src) i ≤ dlen) →
      GroupFits dlen (groups src) m

/-- The decoder is safe on a text exactly when the groups it reaches fit. -/
theorem base64_decode_safe_iff (src : List UInt8) (dlen : ℤ) (hd : 0 < dlen)
    (hlen : src.length < 2^31) : Safe dlen src ↔ Fits dlen src := by
  by_cases h3 : src.length ≤ 3
  · have hdec : base64Decode false dlen src = .ok ⟨-1, dlen, []⟩ := by
      rw [base64Decode, if_pos (Or.inr h3)]
    exact ⟨fun _ => Or.inl h3, fun _ => ⟨_, hdec, fun h => by simp at h⟩⟩
  by_cases h1 : (body src).length = 1
  · have hdec := decode_one false hd (by omega) h1
    exact ⟨fun _ => Or.inr (Or.inl h1), fun _ => ⟨_, hdec, fun _ => rfl⟩⟩
  have hdec := @decode_plain dlen src ⟨hd, by omega, h1⟩
  have hwl := walk_length (body src).length src 0
  have hbefore : Before dlen (groups src) 0 3 0 [] :=
    ⟨rfl, rfl, rfl, by simpa using Int.le_of_lt hd, fun m hm => absurd hm (by omega)⟩
  have hiff := @runGroups_ok_iff dlen (groups src) (by rw [groups]; omega) _ _ _ _ (Nat.zero_le _) hbefore
  rw [List.drop_zero] at hiff
  have hsafe : Safe dlen src ↔ ∃ r, runGroups dlen (groups src) 3 0 [] = .ok r := by
    rw [Safe, hdec, groups]
    cases hr : runGroups dlen (walk (body src).length src 0) 3 0 [] with
    | error e => simp [Except.map]
    | ok r =>
      obtain ⟨ret, out⟩ := r
      refine ⟨fun _ => ⟨_, rfl⟩, fun _ => ⟨_, rfl, fun h0 => ?_⟩⟩
      cases ret with
      | none => rfl
      | some ret =>
        have hret : ret = errBufferTooSmall := runGroups_ret hr
        have h0 : ret = 0 := h0
        rw [hret] at h0
        exact absurd h0 (by decide)
  rw [hsafe, hiff, Fits]
  have h0 : owed (groups src) 0 ≤ dlen := by
    rw [owed, total]
    exact Int.le_of_lt hd
  constructor
  · intro hall
    exact Or.inr (Or.inr fun m hm ho => hall m (Nat.zero_le m) hm fun i _ hi => ho i hi)
  · rintro (h | h | hall)
    · exact absurd h h3
    · exact absurd h h1
    · intro m _ hm ho
      refine hall m hm fun i hi => ?_
      cases i with
      | zero => exact h0
      | succ i => exact ho (i+1) (by omega) hi

/-- Four pads and room for one byte: `j` wraps to the largest value, the count
goes down to minus one, and three bytes are stored. -/
theorem base64_decode_safe_fails : ¬Safe 1 [61, 61, 61, 61] := by
  have hdec : base64Decode false 1 [61, 61, 61, 61] = .error .wildAccess := by decide
  rintro ⟨r, hr, -⟩
  rw [hdec] at hr
  cases hr

theorem base64_decode_safe_three : Safe 3 [81, 85, 74, 68] ↔ Fits 3 [81, 85, 74, 68] :=
  base64_decode_safe_iff [81, 85, 74, 68] 3 (by decide) (by decide)

end Safety

end CLearning.Base64Safety
