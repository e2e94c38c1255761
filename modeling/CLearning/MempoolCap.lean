import CLearning.MempoolLaws

/-!
# Sizes and the memory cap

A block from the pools always holds what was asked for; the size of a large chunk
wraps near 2^32. The cap is kept by the pools, but a large block is added after
the test.
-/

set_option autoImplicit false

namespace CLearning.MempoolCap
open CLearning.Machine CLearning.LinkedLists CLearning.MempoolBytes CLearning.MempoolPool
open CLearning.MempoolHeap CLearning.MempoolServe CLearning.MpHash CLearning.MempoolState
open CLearning.Mempool CLearning.MempoolChain CLearning.MempoolRegistry CLearning.MempoolCore
open CLearning.MempoolGrow CLearning.MempoolAlloc CLearning.MempoolFree
open CLearning.MempoolStore CLearning.MempoolInit CLearning.MempoolFresh CLearning.MempoolRun
open CLearning.MempoolAppend CLearning.MempoolCache CLearning.MempoolTables
open CLearning.MempoolFailure CLearning.MempoolLaws

section Sizes

variable {s s' : State} {n size : ℕ}

theorem memalign_fits (h : size < 2^32) :
    largeSize+size ≤ memalign ((size+largeSize) % 2^32) ↔ size+19 < 2^32 := by
  rw [memalign, largeSize]
  omega

/-- The block at `x` and its chunk have room for the header and `size` bytes. -/
def Provides (s : State) (x size : ℕ) : Prop :=
  ∃ v, view s x = some v ∧ v.header+size ≤ v.size ∧
    ∃ c ∈ s.heap.live, c.addr+v.header ≤ x ∧ x+size ≤ c.addr+c.size

/-- The bytes asked for are there exactly when the size of a large chunk does not wrap. -/
theorem palloc_provides_iff (env : Env) (s₀ s s' : State) (live : List ℕ) (fuel size x : ℕ)
    (hs : Start env s₀) (hr : Roomy s₀) (hreach : Reach env s₀ s live) (hsize : size < 2^32)
    (hrun : palloc env fuel s size = .ok (s', some x)) :
    Provides s' x size ↔ (threshold s < size → size+19 < 2^32) := by
  obtain ⟨ps, fs, ls, M, B, hI⟩ := reach_inv hs hr hreach
  have hc := hI.core
  have hthr := threshold_eq hc.config
  have hsz := hc.config.size
  simp only [SizeOk, mempoolSize, realdataSize] at hsz
  obtain ⟨ps', fs', ls', M', B', hc', hst, -, -, -, hout⟩ := palloc_spec env fuel hc hrun
  cases hout with
  | small b o h hl hsmall hu =>
    have hb := hst.base.symm ▸ h.mem
    have ho : o ∈ B' b := (h.busy b h.mem o).mpr (Or.inr ⟨rfl, rfl⟩)
    constructor
    · intro _ hbig
      omega
    · intro _
      have hfits := h.fits
      obtain ⟨-, hle, -, -⟩ := block_bounds hc' hb ho
      obtain ⟨hlive, -, -, h208⟩ := pool_range hc' hb
      refine ⟨_, view_small hc' hb ho, ?_, poolChunk s' b, hlive, ?_, ?_⟩
      · show realdataSize+size ≤ (s'.pools b).rd o .size
        omega
      · show b+realdataSize ≤ payload b o
        rw [payload]
        omega
      · show payload b o+size ≤ b+s'.config.pool_size
        rw [payload]
        rw [mempoolSize] at hle ⊢
        omega
  | large a hp hM hB hl hnew hbig hf hn hu =>
    have ha : a ∈ ls' := hl ▸ List.mem_cons_self
    rw [← memalign_fits hsize, ← hn]
    constructor
    · rintro ⟨v, hv, hroom, -⟩ -
      rw [view_large hc' ha, Option.some_inj] at hv
      subst hv
      exact hroom
    · intro h
      have hroom := h (by omega)
      refine ⟨_, view_large hc' ha, hroom, largeChunk s' a, hc'.large_live ha, Nat.le_refl _, ?_⟩
      show a+largeSize+size ≤ a+largeBytes (s'.larges a)
      omega

theorem large_block : ∃ s₀ s, Start (filled 0) s₀ ∧ Roomy s₀ ∧ threshold s₀ = 3889 ∧
    mempoolAlloced s₀ = 4096 ∧ s₀.config.max_memsize = 10000 ∧ mempoolAlloced s = 9112 ∧
    palloc (filled 0) 3 s₀ 5000 = .ok (s, some 4124) := by
  have hrun : (do
      let s₀ ← opened (filled 0) 4096 10000 10000 0
      let r ← palloc (filled 0) 3 s₀ 5000
      .ok (r.2, threshold s₀, mempoolAlloced s₀, s₀.config.max_memsize, mempoolAlloced r.1)) =
      (.ok (some 4124, 3889, 4096, 10000, 9112) : Run (Option ℕ × ℕ × ℕ × ℕ × ℕ)) := by
    decide +kernel
  obtain ⟨s₀, h₀, hrun⟩ := bind_ok_iff.mp hrun
  obtain ⟨⟨s, r⟩, h₁, hrun⟩ := bind_ok_iff.mp hrun
  simp only [Except.ok.injEq, Prod.mk.injEq] at hrun
  obtain ⟨rfl, hthr, hbefore, hmax, hafter⟩ := hrun
  exact ⟨s₀, s, (opened_start h₀).1, opened_roomy h₀ (by decide), hthr, hbefore, hmax, hafter, h₁⟩

theorem palloc_provides_large : ∃ s₀ s x, palloc (filled 0) 3 s₀ 5000 = .ok (s, some x) ∧
    threshold s₀ < 5000 ∧ Provides s x 5000 := by
  obtain ⟨s₀, s, hs, hr, hthr, -, -, -, h⟩ := large_block
  exact ⟨s₀, s, 4124, h, by omega, (palloc_provides_iff (filled 0) s₀ s₀ s [] 3 5000 4124 hs hr
    .start (by decide) h).mpr fun _ => by decide⟩

/-- `palloc` of 2^32-1 bytes returns a chunk of 16. -/
theorem palloc_provides_fails : ¬∀ (env : Env) (s₀ s s' : State) (live : List ℕ) (fuel size x : ℕ),
    Start env s₀ → Roomy s₀ → Reach env s₀ s live → size < 2^32 →
      palloc env fuel s size = .ok (s', some x) → Provides s' x size := by
  intro hall
  have hrun : (do
      let s₀ ← opened (filled 0) 4096 8589934592 4294967295 0
      let r ← palloc (filled 0) 3 s₀ 4294967295
      .ok (r.2, r.2.bind (view r.1))) =
      (.ok (some 4124, some ⟨true, 0, 16⟩) : Run (Option ℕ × Option View)) := by
    decide +kernel
  obtain ⟨s₀, h₀, hrun⟩ := bind_ok_iff.mp hrun
  obtain ⟨⟨s, r⟩, h₁, hrun⟩ := bind_ok_iff.mp hrun
  simp only [Except.ok.injEq, Prod.mk.injEq] at hrun
  obtain ⟨rfl, hview⟩ := hrun
  obtain ⟨v, hv, hroom, -⟩ := hall _ s₀ s₀ s _ 3 4294967295 4124 (opened_start h₀).1
    (opened_roomy h₀ (by decide)) .start (by decide) h₁
  rw [Option.bind_some, hv, Option.some_inj] at hview
  subst hview
  exact absurd hroom (by decide)

end Sizes

section Cap

variable {env : Env} {s₀ s s' : State} {live live' ps fs ls M : List ℕ} {B : ℕ → List ℕ}
  {fuel size : ℕ} {r : Option ℕ}

/-- A large block that is served keeps below the cap. -/
def Fits (env : Env) (s : State) (size : ℕ) : Prop :=
  Passes env s size → threshold s < size →
    env.malloc (judged env s size).1.heap.tick s.heap.live (memalign ((size+largeSize) % 2^32)) ≠
      none → elements s.config.largeht < buckets s.config.largeht →
    mempoolAlloced s+memalign ((size+largeSize) % 2^32) ≤ s.config.max_memsize

/-- A run in which every large block that is served fits. -/
inductive FittingRun (env : Env) (s₀ : State) : State → List ℕ → Prop
  | start : FittingRun env s₀ s₀ []
  | palloc {s s' : State} {live : List ℕ} (fuel size : ℕ) (r : Option ℕ) (hs : size < 2^32)
      (hrun : FittingRun env s₀ s live) (hfit : Fits env s size)
      (h : palloc env fuel s size = .ok (s', r)) : FittingRun env s₀ s' (r.toList ++ live)
  | pcalloc {s s' : State} {live : List ℕ} (fuel size : ℕ) (r : Option ℕ) (hs : size < 2^32)
      (hrun : FittingRun env s₀ s live) (hfit : Fits env s size)
      (h : pcalloc env fuel s size = .ok (s', r)) : FittingRun env s₀ s' (r.toList ++ live)
  | pfree {s s' : State} {live : List ℕ} (data : ℕ) (ret : ℤ) (hd : data ∈ live)
      (hrun : FittingRun env s₀ s live) (h : pfree s data = .ok (s', ret)) :
      FittingRun env s₀ s' (live.filter (· ≠ data))

theorem FittingRun.reach (h : FittingRun env s₀ s live) : Reach env s₀ s live := by
  induction h with
  | start => exact .start
  | palloc fuel size r hs hrun hfit h ih => exact .step ih (.palloc fuel size r hs h)
  | pcalloc fuel size r hs hrun hfit h ih => exact .step ih (.pcalloc fuel size r hs h)
  | pfree data ret hd hrun h ih => exact .step ih (.pfree data ret hd h)

theorem mempoolAlloced_eq (hc : Core s ps fs [] ls M B) (ha : Acct s ps ls) :
    mempoolAlloced s = s.property.total_alloced+s.config.pool_size := by
  have hcap := ha.cap
  have hsz := hc.config.size.2
  rw [mempoolAlloced]
  exact Nat.mod_eq_of_lt (by omega)

/-- `palloc` keeps below the cap when its large block fits. -/
theorem palloc_capped (hI : Inv s₀ s live ps fs ls M B) (hfit : Fits env s size)
    (hcap : s.property.total_alloced+s.config.pool_size ≤ s.config.max_memsize)
    (hrun : palloc env fuel s size = .ok (s', r)) :
    s'.property.total_alloced+s.config.pool_size ≤ s.config.max_memsize := by
  have hc := hI.core
  obtain ⟨t, htick, hc₁, hcase⟩ := palloc_cases env fuel hc hrun
  rcases hcase with ⟨-, -, -, hp⟩ | ⟨hpass, hbig, hlarge⟩ |
    ⟨-, h0, hsmall, hfirst, s₁, b, hagain, -, hp, -⟩
  · rw [hp]
    exact hcap
  · obtain ⟨-, -, -, -, -, hcase⟩ := allocLarge_spec env hc₁ hlarge
    rcases hcase with ⟨-, -, hp⟩ | ⟨a, rfl, -, -, hp, -⟩
    · rw [hp]
      exact hcap
    · obtain ⟨s₂, r₂, hrun₂, hserved⟩ := allocLarge_total env size hc₁
      rw [hlarge, Except.ok.injEq, Prod.mk.injEq] at hrun₂
      obtain ⟨rfl, rfl⟩ := hrun₂
      obtain ⟨hm, hroom⟩ := hserved.mp (by simp)
      have hthr : threshold s < size := by
        have hsz := hc.config.size
        simp only [SizeOk, mempoolSize, realdataSize] at hsz
        rw [threshold_eq hc.config]
        omega
      have hle := hfit hpass hthr (by rw [htick]; exact hm) hroom
      rw [mempoolAlloced_eq hc hI.acct] at hle
      rw [hp]
      show (s.property.total_alloced+memalign ((size+largeSize) % 2^32)) % 2^64+_ ≤ _
      have hmod := Nat.mod_le (s.property.total_alloced+memalign ((size+largeSize) % 2^32)) (2^64)
      omega
  · have h16 : 16 ≤ size+realdataSize := by
      rw [realdataSize]
      omega
    have hfit : size+realdataSize ≤ s.config.pool_size-mempoolSize := by
      rw [realdataSize, mempoolSize]
      omega
    obtain ⟨ps', fs', M', B', -, -, -, hacct, -⟩ := allocAgain_spec env h16 fuel hc₁ hfit hfirst
      hagain
    rw [hp]
    have ha := hI.acct
    rcases (hacct ⟨ha.alloced, ha.leftsize, ha.wrapped, ha.cap⟩).2 with h | h
    · rw [h]
      exact hcap
    · exact h

theorem pcalloc_capped (hI : Inv s₀ s live ps fs ls M B) (hfit : Fits env s size)
    (hcap : s.property.total_alloced+s.config.pool_size ≤ s.config.max_memsize)
    (hrun : pcalloc env fuel s size = .ok (s', r)) :
    s'.property.total_alloced+s.config.pool_size ≤ s.config.max_memsize := by
  obtain ⟨⟨s₁, r₁⟩, hpal, hrest⟩ := bind_ok_iff.mp hrun
  have h₁ := palloc_capped hI hfit hcap hpal
  cases r₁ with
  | none =>
    rw [Except.ok.injEq, Prod.mk.injEq] at hrest
    rw [← hrest.1]
    exact h₁
  | some a =>
    obtain ⟨t, hstore, hrest⟩ := bind_ok_iff.mp hrest
    rw [Except.ok.injEq, Prod.mk.injEq] at hrest
    rw [← hrest.1, (untouched_store hstore).property]
    exact h₁

theorem pfree_capped (hI : Inv s₀ s live ps fs ls M B) {data : ℕ} {ret : ℤ} (hd : data ∈ live)
    (hrun : pfree s data = .ok (s', ret)) :
    s'.property.total_alloced ≤ s.property.total_alloced := by
  have hc := hI.core
  rcases hI.held data hd with ⟨b, hb, o, ho, rfl⟩ | ⟨a, ha, rfl⟩
  · by_cases hM : b ∈ M
    · obtain ⟨t, ps', fs', M', B', hrun', -, -, hacct, -⟩ := (pfree_small hc hb ho).2 hM
      rw [hrun', Except.ok.injEq, Prod.mk.injEq] at hrun
      rw [← hrun.1]
      exact (hacct hI.acct).2
    · rw [(pfree_small hc hb ho).1 hM, Except.ok.injEq, Prod.mk.injEq] at hrun
      rw [← hrun.1]
  · obtain ⟨t, hrun', -, -, -, -, -, -, hp⟩ := pfree_large hc ha
    rw [hrun', Except.ok.injEq, Prod.mk.injEq] at hrun
    rw [← hrun.1, hp]
    have hacct := hI.acct
    have hle : largeBytes (s.larges a) ≤ s.property.total_alloced := by
      have hsum := ((List.perm_cons_erase ha).map fun x => largeBytes (s.larges x)).sum_eq
      rw [List.map_cons, List.sum_cons] at hsum
      rw [hacct.alloced, hsum]
      omega
    have hcap := hacct.cap
    show usub 64 s.property.total_alloced (largeBytes (s.larges a)) ≤ _
    rw [usub_of_le hle (by omega)]
    exact Nat.sub_le _ _

/-- In every run whose large blocks fit, `mempool_alloced` stays within the cap. -/
theorem alloced_capped (env : Env) (s₀ s : State) (live : List ℕ) (hs : Start env s₀)
    (hr : Roomy s₀) (hrun : FittingRun env s₀ s live) :
    mempoolAlloced s ≤ s.config.max_memsize := by
  have hall : s.property.total_alloced+s.config.pool_size ≤ s.config.max_memsize := by
    induction hrun with
    | start =>
      obtain ⟨M, hI⟩ := start_inv hs hr
      rw [hI.acct.alloced]
      simpa using hI.core.config.low
    | palloc fuel size r hsz hrun hfit h ih =>
      obtain ⟨ps, fs, ls, M, B, hI⟩ := reach_inv hs hr hrun.reach
      obtain ⟨ps', fs', ls', M', B', hI'⟩ := reach_inv hs hr
        (.step hrun.reach (.palloc fuel size r hsz h))
      have hle := palloc_capped hI hfit ih h
      rw [hI'.config]
      rw [hI.config] at hle
      exact hle
    | pcalloc fuel size r hsz hrun hfit h ih =>
      obtain ⟨ps, fs, ls, M, B, hI⟩ := reach_inv hs hr hrun.reach
      obtain ⟨ps', fs', ls', M', B', hI'⟩ := reach_inv hs hr
        (.step hrun.reach (.pcalloc fuel size r hsz h))
      have hle := pcalloc_capped hI hfit ih h
      rw [hI'.config]
      rw [hI.config] at hle
      exact hle
    | pfree data ret hd hrun h ih =>
      obtain ⟨ps, fs, ls, M, B, hI⟩ := reach_inv hs hr hrun.reach
      obtain ⟨ps', fs', ls', M', B', hI'⟩ := reach_inv hs hr
        (.step hrun.reach (.pfree data ret hd h))
      have hle := pfree_capped hI hd h
      rw [hI.config] at ih
      rw [hI'.config]
      exact Nat.le_trans (Nat.add_le_add_right hle _) ih
  obtain ⟨ps, fs, ls, M, B, hI⟩ := reach_inv hs hr hrun.reach
  rw [mempoolAlloced_eq hI.core hI.acct]
  exact hall

theorem alloced_capped_large : ∃ s₀ s, palloc (filled 0) 3 s₀ 5000 = .ok (s, some 4124) ∧
    threshold s₀ < 5000 ∧ mempoolAlloced s = 9112 ∧ mempoolAlloced s ≤ s.config.max_memsize := by
  obtain ⟨s₀, s, hs, hr, hthr, hbefore, hmax, hafter, h⟩ := large_block
  have hfit : Fits (filled 0) s₀ 5000 := by
    intro _ _ _ _
    rw [hbefore, hmax]
    decide
  exact ⟨s₀, s, h, by omega, hafter, alloced_capped (filled 0) s₀ s _ hs hr
    (.palloc 3 5000 (some 4124) (by decide) .start hfit h)⟩

/-- 9000 bytes are served though the cap leaves room for 5904. -/
theorem alloced_exceeds : ¬∀ (env : Env) (s₀ s : State) (live : List ℕ), Start env s₀ → Roomy s₀ →
    Reach env s₀ s live → mempoolAlloced s ≤ s.config.max_memsize := by
  intro hall
  have hrun : (do
      let s₀ ← opened (filled 0) 4096 10000 10000 0
      let r ← palloc (filled 0) 3 s₀ 9000
      .ok (r.2, mempoolAlloced r.1, r.1.config.max_memsize)) =
      (.ok (some 4124, 13112, 10000) : Run (Option ℕ × ℕ × ℕ)) := by
    decide +kernel
  obtain ⟨s₀, h₀, hrun⟩ := bind_ok_iff.mp hrun
  obtain ⟨⟨s, r⟩, h₁, hrun⟩ := bind_ok_iff.mp hrun
  simp only [Except.ok.injEq, Prod.mk.injEq] at hrun
  obtain ⟨rfl, hal, hmax⟩ := hrun
  have hle := hall _ s₀ s _ (opened_start h₀).1 (opened_roomy h₀ (by decide))
    (.step .start (.palloc 3 9000 (some 4124) (by decide) h₁))
  rw [hal, hmax] at hle
  omega

end Cap

end CLearning.MempoolCap
