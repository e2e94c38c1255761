import CLearning.MempoolReset

/-!
# Telling large blocks by their headers

Without a pool `pmemcpy`, `psprintf` and `pzero` take the twelve bytes before a
block for the header of a large one. For a small block these are the middle of
its own header.
-/

set_option autoImplicit false

namespace CLearning.MempoolHeader
open CLearning.Machine CLearning.LinkedLists CLearning.MempoolBytes CLearning.MempoolPool
open CLearning.MempoolHeap CLearning.MempoolServe CLearning.MpHash CLearning.MempoolState
open CLearning.Mempool CLearning.MempoolChain CLearning.MempoolRegistry CLearning.MempoolCore
open CLearning.MempoolGrow CLearning.MempoolAlloc CLearning.MempoolFree
open CLearning.MempoolStore CLearning.MempoolInit CLearning.MempoolFresh CLearning.MempoolRun
open CLearning.MempoolAppend CLearning.MempoolCache CLearning.MempoolTables

section Words

variable {p : Pool} {T : List ℕ} {L : Cls → List ℕ} {o : ℕ}

def middle (p : Pool) (o : ℕ) : Bytes := fun i => p.data (o+3+i)

theorem middle_flag : largeFlag (middle p o) =
    p.rd o .size / 256+256*p.rd o .prev+2^24*(p.rd o .next % 256) := by
  have h2 := (p.data (o+2)).toNat_lt
  have h6 := (p.data (o+6)).toNat_lt
  simp only [largeFlag, load32, load16, middle, Pool.rd, MempoolBytes.get, Field.pos, Nat.add_assoc,
    Nat.reduceAdd]
  omega

theorem middle_bytes : largeBytes (middle p o) =
    p.rd o .next / 256+256*p.rd o .realprev+2^24*(p.rd o .realnext % 256) := by
  have h6 := (p.data (o+6)).toNat_lt
  have h10 := (p.data (o+10)).toNat_lt
  simp only [largeBytes, load32, load16, middle, Pool.rd, MempoolBytes.get, Field.pos, Nat.add_assoc,
    Nat.reduceAdd]
  omega

theorem middle_used : largeUsed (middle p o) =
    p.rd o .realnext / 256+256*p.rd o .used+2^24*p.status o := by
  have h10 := (p.data (o+10)).toNat_lt
  simp only [largeUsed, load32, load16, middle, Pool.rd, Pool.status, MempoolBytes.status,
    MempoolBytes.get, Field.pos, Nat.add_assoc, Nat.reduceAdd]
  omega

/-- The only busy block of its pool, of 65280 bytes or more, and no block behind it
starts at 65280. -/
def Giant (p : Pool) (o : ℕ) : Prop :=
  65280 ≤ p.rd o .size ∧ p.rd o .realnext ≠ 65280 ∧ p.busylist = some o ∧ p.rd o .next = NULL

/-- The header test on the middle of a small header. -/
theorem middle_large_iff (hi : HeapInv p T L) (ho : o ∈ L .busy) :
    (largeFlag (middle p o) = mempoolLargeflag ∧ largeUsed (middle p o) ≤ largeBytes (middle p o)) ↔
      Giant p o := by
  obtain ⟨hoT, hst⟩ := (hi.mem_busy o).mp ho
  have hsz := hi.size_ok.2
  obtain ⟨-, -, hend⟩ := hi.tiles.bounds.2 o hoT
  rw [mempoolSize] at hend
  have hlt : p.rd o .size < 65536 := rd_lt
  have hused : p.rd o .used < 65536 := rd_lt
  have hprev : p.rd o .prev = 65535 ↔ p.busylist = some o := by
    have hiff : ref (p.rd o .prev) = none ↔ p.busylist = some o := hi.lists.prev_eq_none_iff ho
    rw [← hiff, ref_eq_none, NULL]
  have hpl : p.rd o .prev < 65536 := rd_lt
  have hnl : p.rd o .next < 65536 := rd_lt
  rw [middle_flag, middle_bytes, middle_used, hst, Giant, ← hprev, mempoolLargeflag, NULL]
  by_cases hbig : 65280 ≤ p.rd o .size
  · obtain ⟨T₁, T₂, rfl⟩ := List.append_of_mem hoT
    obtain ⟨hrp, hrn⟩ := hi.order.neighbours
    rw [Option.or_none] at hrp hrn
    have hrealnext : p.rd o .realnext = 65535 ∨ p.rd o .realnext = o+p.rd o .size := by
      cases T₂ with
      | nil => exact Or.inl (ref_eq_none.mp hrn)
      | cons y T₂ =>
        have hy : y = o+p.rd o .size := hi.tiles.next.1
        exact Or.inr (hy ▸ (ref_eq_some.mp hrn).1)
    have hrealprev : p.rd o .realprev = 65535 ∧ o = 0 ∨ 16 ≤ o := by
      cases hlast : T₁.getLast? with
      | none =>
        obtain rfl := List.getLast?_eq_none_iff.mp hlast
        rw [hlast] at hrp
        exact Or.inl ⟨ref_eq_none.mp hrp, hi.tiles.1⟩
      | some y =>
        right
        have hyT : y ∈ T₁ := List.mem_of_getLast? hlast
        have hle := (List.pairwise_append.mp hi.tiles.pairwise).2.2 y hyT o List.mem_cons_self
        have h16 := (hi.tiles.bounds.2 y (List.mem_append_left _ hyT)).2.1
        omega
    have hnext : p.rd o .next = 65535 ∨ p.rd o .next % 256 ≤ 64 := by
      cases hn : ref (p.rd o .next) with
      | none => exact Or.inl (ref_eq_none.mp hn)
      | some y =>
        right
        rw [(ref_eq_some.mp hn).1]
        have hyb : y ∈ L .busy := (hi.lists.seg .busy).next_mem ho hn
        have hyT := ((hi.mem_busy y).mp hyb).1
        obtain ⟨-, h16, hyend⟩ := hi.tiles.bounds.2 y hyT
        rw [mempoolSize] at hyend
        by_cases hyo : y = o
        · omega
        · rcases hi.tiles.disjoint hyT hoT hyo with h | h
          · omega
          · omega
    omega
  · omega

end Words

section Tests

variable {env : Env} {s₀ s s' : State} {live ps fs ls M : List ℕ} {B : ℕ → List ℕ}
  {a b o x : ℕ}

/-- The test of the header and the test of the registry say the same. -/
def Agree (s : State) (x : ℕ) : Prop :=
  ∃ r, checkLargeHeader s (usub 64 x largeSize) = .ok r ∧
    checkLargeInPool s (usub 64 x largeSize) = .ok r

/-- A large chunk has room for its header; a small block is no giant. -/
def Distinct (s : State) (x : ℕ) : Prop :=
  (∃ v, view s x = some v ∧ v.large = true ∧ largeSize ≤ v.size) ∨
    ∃ b o, s.header (usub 64 x realdataSize) = .ok (b, o) ∧
      view s x = some (smallView s b o) ∧ ¬Giant (s.pools b) o

theorem header_payload (hc : Core s ps fs [] ls M B) (hb : b ∈ s.base :: ps) (ho : o ∈ B b) :
    s.header (usub 64 (payload b o) realdataSize) = .ok (b, o) := by
  obtain ⟨h16, hle, -, -⟩ := block_bounds hc hb ho
  obtain ⟨-, -, hend, h208⟩ := pool_range hc hb
  simp only [mempoolSize] at hle
  have hsub : usub 64 (payload b o) realdataSize = b+mempoolSize+o := by
    rw [payload, mempoolSize, realdataSize, usub_of_le (by omega) (by omega)]
    omega
  rw [hsub]
  exact header_small hc hb ho

theorem checkLargeHeader_small (hc : Core s ps fs [] ls M B) (hb : b ∈ s.base :: ps)
    (ho : o ∈ B b) :
    checkLargeHeader s (usub 64 (payload b o) largeSize) =
      .ok (largeFlag (middle (s.pools b) o) = mempoolLargeflag &&
        largeUsed (middle (s.pools b) o) ≤ largeBytes (middle (s.pools b) o)) := by
  obtain ⟨h16, hle, -, -⟩ := block_bounds hc hb ho
  obtain ⟨hlive, -, hend, h208⟩ := pool_range hc hb
  simp only [mempoolSize] at hle
  have hsub : usub 64 (payload b o) largeSize = b+mempoolSize+(o+3) := by
    rw [payload, mempoolSize, realdataSize, largeSize, usub_of_le (by omega) (by omega)]
    omega
  have hloc := locate_unique (a := b+mempoolSize+(o+3)) (n := largeSize) hc.apart hlive (by decide)
    (by simp only [poolChunk, mempoolSize]; omega)
    (by simp only [poolChunk, mempoolSize, largeSize]; omega)
  have hoff : b+mempoolSize+(o+3)-b-mempoolSize = o+3 := by omega
  have hge : b+mempoolSize ≤ b+mempoolSize+(o+3) := by omega
  simp only [poolChunk, hoff, hge, if_true] at hloc
  rw [hsub, checkLargeHeader, largeHeaderAt, hloc]
  rfl

theorem agree_small (hc : Core s ps fs [] ls M B) (hb : b ∈ s.base :: ps) (ho : o ∈ B b) :
    Agree s (payload b o) ↔ ¬Giant (s.pools b) o := by
  obtain ⟨T, L, hi, hL⟩ := hc.linked_inv hb
  rw [← middle_large_iff hi (hL ▸ ho), Agree, checkLargeHeader_small hc hb ho,
    checkLarge_small hc hb ho]
  constructor
  · rintro ⟨r, hr, hfalse⟩ ⟨hflag, hle⟩
    rw [Except.ok.injEq] at hr hfalse
    subst hfalse
    simp [hflag, hle] at hr
  · intro hno
    refine ⟨false, ?_, rfl⟩
    simpa using hno

theorem largeHeaderAt_large (hc : Core s ps fs [] ls M B) (ha : a ∈ ls)
    (hsz : largeSize ≤ largeBytes (s.larges a)) :
    largeHeaderAt s a = .ok fun i => s.larges a (0+i) := by
  have hloc := locate_unique (a := a) (n := largeSize) hc.apart (hc.large_live ha) (by decide)
    (Nat.le_refl _) (by simp only [largeChunk]; omega)
  simp only [largeChunk, Nat.sub_self] at hloc
  rw [largeHeaderAt, hloc]

theorem checkLargeHeader_large (hI : Inv s₀ s live ps fs ls M B) (ha : a ∈ ls)
    (hsz : largeSize ≤ largeBytes (s.larges a)) : checkLargeHeader s a = .ok true := by
  obtain ⟨hflag, hu⟩ := hI.large a ha
  have hle : largeUsed (s.larges a) ≤ largeBytes (s.larges a) := by
    rcases hu with hu | hu
    · omega
    · omega
  rw [checkLargeHeader, largeHeaderAt_large hI.core ha hsz]
  simp only [Nat.zero_add, ok_bind]
  simp [hflag, hle]

theorem agree_large (hI : Inv s₀ s live ps fs ls M B) (ha : a ∈ ls) :
    Agree s (a+largeSize) ↔ largeSize ≤ largeBytes (s.larges a) := by
  have hc := hI.core
  rw [Agree, usub_largeSize hc ha, checkLarge_large hc ha]
  constructor
  · rintro ⟨r, hr, -⟩
    by_contra hsmall
    rw [checkLargeHeader, largeHeaderAt] at hr
    -- no chunk holds the twelve bytes
    have hnone : s.locate a largeSize = none := by
      rw [Option.eq_none_iff_forall_ne_some]
      intro q hq
      obtain ⟨c, hcl, hend, hcase⟩ := locate_mem hq
      have hlo : c.addr ≤ a := by
        rcases hcase with ⟨-, h, -⟩ | ⟨-, h, -⟩
        · omega
        · exact h
      rw [largeSize] at hend hsmall
      by_cases he : c = largeChunk s a
      · subst he
        simp only [largeChunk] at hend
        omega
      · rcases apart_of_mem hc.apart hcl (hc.large_live ha) he with h | h
        · simp only [largeChunk] at h
          omega
        · simp only [largeChunk] at h
          omega
    rw [hnone] at hr
    cases hr
  · intro hsz
    exact ⟨true, checkLargeHeader_large hI ha hsz, rfl⟩

theorem distinct_small (hc : Core s ps fs [] ls M B) (hb : b ∈ s.base :: ps) (ho : o ∈ B b) :
    Distinct s (payload b o) ↔ ¬Giant (s.pools b) o := by
  constructor
  · rintro (⟨v, hv, hl, -⟩ | ⟨c, p, hh, -, hno⟩)
    · rw [view_small hc hb ho, Option.some_inj] at hv
      subst hv
      cases hl
    · rw [header_payload hc hb ho, Except.ok.injEq, Prod.mk.injEq] at hh
      obtain ⟨rfl, rfl⟩ := hh
      exact hno
  · intro hno
    exact Or.inr ⟨b, o, header_payload hc hb ho, view_small hc hb ho, hno⟩

theorem distinct_large (hc : Core s ps fs [] ls M B) (ha : a ∈ ls) :
    Distinct s (a+largeSize) ↔ largeSize ≤ largeBytes (s.larges a) := by
  constructor
  · rintro (⟨v, hv, -, hsz⟩ | ⟨c, p, -, hv, -⟩)
    · rw [view_large hc ha, Option.some_inj] at hv
      subst hv
      exact hsz
    · rw [view_large hc ha, Option.some_inj] at hv
      cases congrArg View.large hv
  · intro hsz
    exact Or.inl ⟨_, view_large hc ha, rfl, hsz⟩

theorem agree_iff (hI : Inv s₀ s live ps fs ls M B) (hx : x ∈ live) : Agree s x ↔ Distinct s x := by
  have hc := hI.core
  rcases hI.held x hx with ⟨b, hb, o, ho, rfl⟩ | ⟨a, ha, rfl⟩
  · rw [agree_small hc hb ho, distinct_small hc hb ho]
  · rw [agree_large hI ha, distinct_large hc ha]

end Tests

section Runs

variable {env : Env} {s₀ s s' : State} {live ps fs ls M : List ℕ} {B : ℕ → List ℕ}
  {a b o x v : ℕ}

/-- A run that also calls the append functions without a pool, on blocks that the
header test takes for what they are. -/
inductive AppendRun (env : Env) (s₀ : State) : State → List ℕ → Prop
  | start : AppendRun env s₀ s₀ []
  | step {s s' : State} {live live' : List ℕ} (hrun : AppendRun env s₀ s live)
      (h : Step env s live s' live') : AppendRun env s₀ s' live'
  | pmemcpy {s s' : State} {live : List ℕ} (dest src n : ℕ) (r : Option ℕ) (hn : n < 2^32)
      (hrun : AppendRun env s₀ s live) (hd : dest ∈ live) (hok : Distinct s dest)
      (h : pmemcpy env s dest src n = .ok (s', r)) : AppendRun env s₀ s' live
  | psprintf {s s' : State} {live : List ℕ} (data : ℕ) (text : List UInt8) (len : ℤ)
      (hrun : AppendRun env s₀ s live) (hd : data ∈ live) (hok : Distinct s data)
      (h : psprintf s data text = .ok (s', len)) : AppendRun env s₀ s' live
  | pzero {s s' : State} {live : List ℕ} (data : ℕ) (hrun : AppendRun env s₀ s live)
      (hd : data ∈ live) (hok : Distinct s data) (h : pzero s data = .ok s') :
      AppendRun env s₀ s' live

/-- Storing the append mark of a large chunk as four bytes. -/
theorem store_mark (hc : Core s ps fs [] ls M B) (ha : a ∈ ls)
    (hsz : largeSize ≤ largeBytes (s.larges a)) :
    s.store (a+8) 4 (word 4 v) = .ok (s.setLarge a (store32 (s.larges a) 8 v)) := by
  have hloc := locate_unique (a := a+8) (n := 4) hc.apart (hc.large_live ha) (by decide)
    (by simp only [largeChunk]; omega)
    (by rw [largeSize] at hsz; simp only [largeChunk]; omega)
  have hoff : a+8-a = 8 := by omega
  simp only [largeChunk, hoff] at hloc
  rw [State.store, hloc]
  have hbytes : State.splice (s.larges a) 8 4 (word 4 v) = store32 (s.larges a) 8 v := by
    funext i
    by_cases hin : 8 ≤ i ∧ i < 8+4
    · rw [State.splice, if_pos hin]
      have hi : i = 8 ∨ i = 9 ∨ i = 10 ∨ i = 11 := by omega
      rcases hi with rfl | rfl | rfl | rfl
      · simp [word, store32, store16]
      · simp [word, store32, store16]
      · simp [word, store32, store16]
      · simp [word, store32, store16, Nat.div_div_eq_div_mul]
    · rw [State.splice, if_neg hin, store32, store16_frame _ _ (by omega),
        store16_frame _ _ (by omega)]
  dsimp only
  rw [hbytes]

theorem checked_false (hc : Core s ps fs [] ls M B) (hb : b ∈ s.base :: ps) (ho : o ∈ B b)
    (hok : Distinct s (payload b o)) :
    checkLargeHeader s (usub 64 (payload b o) largeSize) = .ok false := by
  obtain ⟨r, hr, hreg⟩ := (agree_small hc hb ho).mpr ((distinct_small hc hb ho).mp hok)
  rw [checkLarge_small hc hb ho, Except.ok.injEq] at hreg
  exact hreg ▸ hr

theorem marked_large (hm : Marked ps ls B s s') (ha : a ∈ ls)
    (hsz : largeSize ≤ largeBytes (s.larges a)) : largeSize ≤ largeBytes (s'.larges a) := by
  rw [(hm.larges a ha).2.1]
  exact hsz

theorem pmemcpy_inv (hI : Inv s₀ s live ps fs ls M B) {dest src n : ℕ} {r : Option ℕ}
    (hd : dest ∈ live) (hn : n < 2^32) (hok : Distinct s dest)
    (hrun : pmemcpy env s dest src n = .ok (s', r)) : Inv s₀ s' live ps fs ls M B := by
  have hc := hI.core
  rcases hI.held dest hd with ⟨b, hb, o, ho, rfl⟩ | ⟨a, ha, rfl⟩
  · rw [pmemcpy] at hrun
    dsimp only at hrun
    rw [checked_false hc hb ho hok, ok_bind, if_neg Bool.false_ne_true, header_payload hc hb ho,
      ok_bind] at hrun
    obtain ⟨hc', hm⟩ := pmemcpySmall_spec env hc hb ho (hI.marks b hb o ho) hn hrun
    exact inv_marked hI hc' hm
  · have hsz := (distinct_large hc ha).mp hok
    obtain ⟨-, hu⟩ := hI.large a ha
    rw [pmemcpy] at hrun
    dsimp only at hrun
    rw [usub_largeSize hc ha, checkLargeHeader_large hI ha hsz, ok_bind, if_pos rfl,
      largeHeaderAt_large hc ha hsz, ok_bind] at hrun
    simp only [Nat.zero_add] at hrun
    obtain ⟨⟨t, c⟩, hcpy, hrun⟩ := bind_ok_iff.mp hrun
    obtain ⟨⟨hct, hmt⟩, hmark⟩ := pmemcpyBytes_large env hc ha hu hn hcpy
    dsimp only at hrun
    split at hrun
    · next hpos =>
      have hszt := marked_large hmt ha hsz
      rw [largeHeaderAt_large hct ha hszt, ok_bind] at hrun
      simp only [Nat.zero_add] at hrun
      rw [store_mark hct ha hszt, ok_bind, Except.ok.injEq, Prod.mk.injEq] at hrun
      obtain ⟨rfl, -⟩ := hrun
      exact inv_marked hI (hmark hpos).1 (hmark hpos).2
    · rw [Except.ok.injEq, Prod.mk.injEq] at hrun
      obtain ⟨rfl, -⟩ := hrun
      exact inv_marked hI hct hmt

theorem psprintf_inv (hI : Inv s₀ s live ps fs ls M B) {data : ℕ} {text : List UInt8} {len : ℤ}
    (hd : data ∈ live) (hok : Distinct s data) (hrun : psprintf s data text = .ok (s', len)) :
    Inv s₀ s' live ps fs ls M B := by
  have hc := hI.core
  rcases hI.held data hd with ⟨b, hb, o, ho, rfl⟩ | ⟨a, ha, rfl⟩
  · rw [psprintf, if_neg (payload_pos hc hb)] at hrun
    dsimp only at hrun
    rw [checked_false hc hb ho hok, ok_bind, if_neg Bool.false_ne_true, header_payload hc hb ho,
      ok_bind] at hrun
    obtain ⟨hc', hm⟩ := psprintfSmall_spec hc hb ho (hI.marks b hb o ho) hrun
    exact inv_marked hI hc' hm
  · have hsz := (distinct_large hc ha).mp hok
    obtain ⟨-, hu⟩ := hI.large a ha
    rw [psprintf, if_neg (by rw [largeSize]; omega)] at hrun
    dsimp only at hrun
    rw [usub_largeSize hc ha, checkLargeHeader_large hI ha hsz, ok_bind, if_pos rfl,
      largeHeaderAt_large hc ha hsz, ok_bind] at hrun
    simp only [Nat.zero_add] at hrun
    split at hrun
    · next hpos =>
      obtain ⟨t, hprint, hrun⟩ := bind_ok_iff.mp hrun
      obtain ⟨⟨hct, hmt⟩, hmark⟩ := vsnprintf_large hc ha hu hpos rfl hprint
      split at hrun
      · have hszt := marked_large hmt ha hsz
        rw [largeHeaderAt_large hct ha hszt, ok_bind] at hrun
        simp only [Nat.zero_add] at hrun
        rw [store_mark hct ha hszt, ok_bind, Except.ok.injEq, Prod.mk.injEq] at hrun
        obtain ⟨rfl, -⟩ := hrun
        exact inv_marked hI hmark.1 hmark.2
      · rw [Except.ok.injEq, Prod.mk.injEq] at hrun
        obtain ⟨rfl, -⟩ := hrun
        exact inv_marked hI hct hmt
    · rw [Except.ok.injEq, Prod.mk.injEq] at hrun
      exact hrun.1 ▸ hI

theorem pzero_inv (hI : Inv s₀ s live ps fs ls M B) {data : ℕ} (hd : data ∈ live)
    (hok : Distinct s data) (hrun : pzero s data = .ok s') : Inv s₀ s' live ps fs ls M B := by
  have hc := hI.core
  rcases hI.held data hd with ⟨b, hb, o, ho, rfl⟩ | ⟨a, ha, rfl⟩
  · rw [pzero] at hrun
    dsimp only at hrun
    rw [checked_false hc hb ho hok, ok_bind, if_neg Bool.false_ne_true, header_payload hc hb ho,
      ok_bind, Except.ok.injEq] at hrun
    exact hrun ▸ pzero_small hI hb ho
  · have hsz := (distinct_large hc ha).mp hok
    rw [pzero] at hrun
    dsimp only at hrun
    rw [usub_largeSize hc ha, checkLargeHeader_large hI ha hsz, ok_bind, if_pos rfl,
      store_mark hc ha hsz, Except.ok.injEq] at hrun
    exact hrun ▸ pzero_large hI a

theorem appendRun_inv (hs : Start env s₀) (hr : Roomy s₀) (h : AppendRun env s₀ s live) :
    ∃ ps fs ls M B, Inv s₀ s live ps fs ls M B := by
  induction h with
  | start =>
    obtain ⟨M, hI⟩ := start_inv hs hr
    exact ⟨[], [], [], M, _, hI⟩
  | step hrun h ih =>
    obtain ⟨ps, fs, ls, M, B, hI⟩ := ih
    exact step_inv hI h
  | pmemcpy dest src n r hn hrun hd hok h ih =>
    obtain ⟨ps, fs, ls, M, B, hI⟩ := ih
    exact ⟨ps, fs, ls, M, B, pmemcpy_inv hI hd hn hok h⟩
  | psprintf data text len hrun hd hok h ih =>
    obtain ⟨ps, fs, ls, M, B, hI⟩ := ih
    exact ⟨ps, fs, ls, M, B, psprintf_inv hI hd hok h⟩
  | pzero data hrun hd hok h ih =>
    obtain ⟨ps, fs, ls, M, B, hI⟩ := ih
    exact ⟨ps, fs, ls, M, B, pzero_inv hI hd hok h⟩

/-- In every state of such a run the header test is right about a live block exactly
when the block is not a small giant and its chunk holds a header. -/
theorem header_agrees_iff (env : Env) (s₀ s : State) (live : List ℕ) (x : ℕ) (hs : Start env s₀)
    (hr : Roomy s₀) (hrun : AppendRun env s₀ s live) (hx : x ∈ live) :
    Agree s x ↔ Distinct s x := by
  obtain ⟨ps, fs, ls, M, B, hI⟩ := appendRun_inv hs hr hrun
  exact agree_iff hI hx

/-- A block of 100 bytes is told from a large one. -/
theorem header_agrees_hundred : ∃ s₀ s, palloc (filled 0) 3 s₀ 100 = .ok (s, some 223) ∧
    Agree s 223 := by
  have hrun : (do
      let s₀ ← opened (filled 0) 4096 8192 4096 0
      let r ← palloc (filled 0) 3 s₀ 100
      let h ← r.1.header 208
      .ok (r.2, r.2.bind (view r.1), h, (r.1.pools 16).rd 0 .size, (r.1.pools 16).rd 0 .used)) =
      (.ok (some 223, some ⟨false, 0, 115⟩, (16, 0), 115, 0) :
        Run (Option ℕ × Option View × (ℕ × ℕ) × ℕ × ℕ)) := by
    decide +kernel
  obtain ⟨s₀, h₀, hrun⟩ := bind_ok_iff.mp hrun
  obtain ⟨⟨s, r⟩, h₁, hrun⟩ := bind_ok_iff.mp hrun
  obtain ⟨h, hh, hrun⟩ := bind_ok_iff.mp hrun
  simp only [Except.ok.injEq, Prod.mk.injEq] at hrun
  obtain ⟨rfl, hview, rfl, hsize, hused⟩ := hrun
  refine ⟨s₀, s, h₁, (header_agrees_iff (filled 0) s₀ s _ 223 (opened_start h₀).1
    (opened_roomy h₀ (by decide)) (.step .start (.palloc 3 100 (some 223) (by decide) h₁))
    (by simp)).mpr (Or.inr ⟨16, 0, hh, ?_, ?_⟩)⟩
  · rw [smallView, hsize, hused]
    exact hview
  · rw [Giant, hsize]
    omega

/-- A block of 65270 bytes alone in a pool of 65536 is taken for a large one. -/
theorem header_disagrees : ¬∀ (env : Env) (s₀ s : State) (live : List ℕ) (x : ℕ), Start env s₀ →
    Roomy s₀ → AppendRun env s₀ s live → x ∈ live → Agree s x := by
  intro hall
  have hrun : (do
      let s₀ ← opened (filled 0) 65536 1048576 65536 0
      let r ← palloc (filled 0) 3 s₀ 65270
      let h ← checkLargeHeader r.1 (usub 64 223 largeSize)
      let l ← checkLargeInPool r.1 (usub 64 223 largeSize)
      .ok (r.2, h, l)) =
      (.ok (some 223, true, false) : Run (Option ℕ × Bool × Bool)) := by
    decide +kernel
  obtain ⟨s₀, h₀, hrun⟩ := bind_ok_iff.mp hrun
  obtain ⟨⟨s, r⟩, h₁, hrun⟩ := bind_ok_iff.mp hrun
  obtain ⟨h, hh, hrun⟩ := bind_ok_iff.mp hrun
  obtain ⟨l, hl, hrun⟩ := bind_ok_iff.mp hrun
  simp only [Except.ok.injEq, Prod.mk.injEq] at hrun
  obtain ⟨rfl, rfl, rfl⟩ := hrun
  obtain ⟨r, hhead, hreg⟩ := hall _ s₀ s _ 223 (opened_start h₀).1 (opened_roomy h₀ (by decide))
    (.step .start (.palloc 3 65270 (some 223) (by decide) h₁)) (by simp)
  rw [hh, Except.ok.injEq] at hhead
  rw [hl, Except.ok.injEq] at hreg
  rw [← hreg] at hhead
  cases hhead

end Runs

end CLearning.MempoolHeader
