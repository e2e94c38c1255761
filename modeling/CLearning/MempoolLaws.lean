import CLearning.MempoolFailure

/-!
# What every run keeps

The blocks of each pool tile it, the counters add up, the pools are where the
base pool can find them, and a pool all of whose blocks were freed looks as it
did at first.
-/

set_option autoImplicit false

namespace CLearning.MempoolLaws
open CLearning.Machine CLearning.LinkedLists CLearning.MempoolBytes CLearning.MempoolPool
open CLearning.MempoolHeap CLearning.MempoolServe CLearning.MpHash CLearning.MempoolState
open CLearning.Mempool CLearning.MempoolChain CLearning.MempoolRegistry CLearning.MempoolCore
open CLearning.MempoolGrow CLearning.MempoolAlloc CLearning.MempoolFree
open CLearning.MempoolStore CLearning.MempoolInit CLearning.MempoolFresh CLearning.MempoolRun
open CLearning.MempoolAppend CLearning.MempoolCache CLearning.MempoolTables
open CLearning.MempoolFailure

section Blocks

variable {s : State} {ps fs ls M : List ℕ} {B : ℕ → List ℕ} {a b c d o p i x y : ℕ} {v w : View}

/-- Byte `i` of memory belongs to the block at `x`, header or payload. -/
def Covers (v : View) (x i : ℕ) : Prop := x ≤ i+v.header ∧ i+v.header < x+v.size

theorem covers_small (h : Covers (smallView s b o) (payload b o) i) :
    b+mempoolSize+o ≤ i ∧ i < b+mempoolSize+o+(s.pools b).rd o .size := by
  rw [Covers, show (smallView s b o).header = realdataSize from rfl, payload] at h
  rw [show (smallView s b o).size = (s.pools b).rd o .size from rfl] at h
  omega

theorem covers_large (h : Covers (largeView s a) (a+largeSize) i) :
    a ≤ i ∧ i < a+largeBytes (s.larges a) := by
  rw [Covers, show (largeView s a).header = largeSize from rfl] at h
  rw [show (largeView s a).size = largeBytes (s.larges a) from rfl] at h
  omega

theorem covers_chunk (hc : Core s ps fs [] ls M B) (hx : Block s.base ps ls B x)
    (hv : view s x = some v) (hi : Covers v x i) :
    ∃ c ∈ s.heap.live, c.addr ≤ i ∧ i < c.addr+c.size ∧
      ((∃ b ∈ s.base :: ps, ∃ o ∈ B b, x = payload b o ∧ v = smallView s b o ∧ c = poolChunk s b) ∨
        ∃ a ∈ ls, x = a+largeSize ∧ v = largeView s a ∧ c = largeChunk s a) := by
  rcases hx with ⟨b, hb, o, ho, rfl⟩ | ⟨a, ha, rfl⟩
  · rw [view_small hc hb ho, Option.some_inj] at hv
    subst hv
    obtain ⟨hlo, hhi⟩ := covers_small hi
    obtain ⟨-, hle, -, -⟩ := block_bounds hc hb ho
    obtain ⟨hlive, -, -, h208⟩ := pool_range hc hb
    refine ⟨poolChunk s b, hlive, ?_, ?_, Or.inl ⟨b, hb, o, ho, rfl, rfl, rfl⟩⟩
    · show b ≤ i
      omega
    · show i < b+s.config.pool_size
      rw [mempoolSize] at hle hhi
      omega
  · rw [view_large hc ha, Option.some_inj] at hv
    subst hv
    exact ⟨largeChunk s a, hc.large_live ha, (covers_large hi).1, (covers_large hi).2,
      Or.inr ⟨a, ha, rfl, rfl, rfl⟩⟩

theorem block_apart (hc : Core s ps fs [] ls M B) (hx : Block s.base ps ls B x)
    (hy : Block s.base ps ls B y) (hne : x ≠ y) (hv : view s x = some v) (hw : view s y = some w) :
    ¬(Covers v x i ∧ Covers w y i) := by
  rintro ⟨hi, hj⟩
  obtain ⟨c, hcl, hlo, hhi, hcase⟩ := covers_chunk hc hx hv hi
  obtain ⟨d, hdl, hlo', hhi', hcase'⟩ := covers_chunk hc hy hw hj
  have hcd : c = d := by
    by_contra hn
    rcases apart_of_mem hc.apart hcl hdl hn with h | h
    · omega
    · omega
  subst hcd
  rcases hcase with ⟨b, hb, o, ho, rfl, rfl, rfl⟩ | ⟨a, ha, rfl, rfl, rfl⟩
  · rcases hcase' with ⟨b', hb', o', ho', rfl, rfl, he⟩ | ⟨a', ha', -, -, he⟩
    · have hbb : b = b' := congrArg Chunk.addr he
      subst hbb
      have hoo : o ≠ o' := fun h => hne (h ▸ rfl)
      obtain ⟨T, L, hh, hL⟩ := hc.linked_inv hb
      have hT := ((hh.mem_busy o).mp (hL ▸ ho)).1
      have hT' := ((hh.mem_busy o').mp (hL ▸ ho')).1
      have h₁ := covers_small hi
      have h₂ := covers_small hj
      rcases hh.tiles.disjoint hT hT' hoo with h | h
      · omega
      · omega
    · have hk := congrArg Chunk.kind he
      cases hk
  · rcases hcase' with ⟨b', hb', o', ho', -, -, he⟩ | ⟨a', ha', rfl, -, he⟩
    · have hk := congrArg Chunk.kind he
      cases hk
    · have haa : a = a' := congrArg Chunk.addr he
      exact hne (by rw [haa])

end Blocks

section Laws

variable {env : Env} {s₀ s s' : State} {live live' ps fs ls M : List ℕ} {B : ℕ → List ℕ}
  {a x : ℕ}

/-- Two blocks in the base pool, one in a linked pool and a large one, while another pool is
parked; and the pool after all of them were freed. -/
theorem several_blocks : ∃ s₀ s t, Start (filled 0) s₀ ∧ Roomy s₀ ∧ s₀.config.ht ≠ none ∧
    Reach (filled 0) s₀ s [12316, 4319, 338, 223] ∧ s.property.pfree_count = 1 ∧
    (s.pools s.base).next = some 4112 ∧ Reach (filled 0) s₀ t [] := by
  have hrun : (do
      let s₀ ← opened (filled 0) 4096 1048576 65536 4
      let r₁ ← palloc (filled 0) 9 s₀ 100
      let r₂ ← palloc (filled 0) 9 r₁.1 3000
      let r₃ ← palloc (filled 0) 9 r₂.1 3000
      let r₄ ← palloc (filled 0) 9 r₃.1 3800
      let r₅ ← palloc (filled 0) 9 r₄.1 5000
      let t₁ ← pfree r₅.1 8415
      let t₂ ← pfree t₁.1 338
      let t₃ ← pfree t₂.1 12316
      let t₄ ← pfree t₃.1 223
      let t₅ ← pfree t₄.1 4319
      .ok ([r₁.2, r₂.2, r₃.2, r₄.2, r₅.2], s₀.config.ht.isSome, t₁.1.property.pfree_count,
        (t₁.1.pools t₁.1.base).next)) =
      (.ok ([some 223, some 338, some 4319, some 8415, some 12316], true, 1, some 4112) :
        Run (List (Option ℕ) × Bool × ℕ × Option ℕ)) := by
    decide +kernel
  obtain ⟨s₀, h₀, hrun⟩ := bind_ok_iff.mp hrun
  obtain ⟨⟨s₁, r₁⟩, h₁, hrun⟩ := bind_ok_iff.mp hrun
  obtain ⟨⟨s₂, r₂⟩, h₂, hrun⟩ := bind_ok_iff.mp hrun
  obtain ⟨⟨s₃, r₃⟩, h₃, hrun⟩ := bind_ok_iff.mp hrun
  obtain ⟨⟨s₄, r₄⟩, h₄, hrun⟩ := bind_ok_iff.mp hrun
  obtain ⟨⟨s₅, r₅⟩, h₅, hrun⟩ := bind_ok_iff.mp hrun
  obtain ⟨⟨t₁, c₁⟩, g₁, hrun⟩ := bind_ok_iff.mp hrun
  obtain ⟨⟨t₂, c₂⟩, g₂, hrun⟩ := bind_ok_iff.mp hrun
  obtain ⟨⟨t₃, c₃⟩, g₃, hrun⟩ := bind_ok_iff.mp hrun
  obtain ⟨⟨t₄, c₄⟩, g₄, hrun⟩ := bind_ok_iff.mp hrun
  obtain ⟨⟨t₅, c₅⟩, g₅, hrun⟩ := bind_ok_iff.mp hrun
  simp only [Except.ok.injEq, Prod.mk.injEq, List.cons.injEq, and_true] at hrun
  obtain ⟨⟨rfl, rfl, rfl, rfl, rfl⟩, hht, hparked, hnext⟩ := hrun
  have k₁ := Reach.step .start (Step.palloc 9 100 (some 223) (by decide) h₁)
  have k₂ := k₁.step (Step.palloc 9 3000 (some 338) (by decide) h₂)
  have k₃ := k₂.step (Step.palloc 9 3000 (some 4319) (by decide) h₃)
  have k₄ := k₃.step (Step.palloc 9 3800 (some 8415) (by decide) h₄)
  have k₅ := k₄.step (Step.palloc 9 5000 (some 12316) (by decide) h₅)
  have f₁ := k₅.step (Step.pfree 8415 c₁ (by simp) g₁)
  have f₂ := f₁.step (Step.pfree 338 c₂ (by simp) g₂)
  have f₃ := f₂.step (Step.pfree 12316 c₃ (by simp) g₃)
  have f₄ := f₃.step (Step.pfree 223 c₄ (by simp) g₄)
  have f₅ := f₄.step (Step.pfree 4319 c₅ (by simp) g₅)
  exact ⟨s₀, t₁, t₅, (opened_start h₀).1, opened_roomy h₀ (by decide),
    Option.isSome_iff_ne_none.mp hht, f₁, hparked, hnext, f₅⟩

theorem step_nodup (hI : Inv s₀ s live ps fs ls M B) (hnd : live.Nodup)
    (h : Step env s live s' live') : live'.Nodup := by
  have hnew : ∀ {size : ℕ} {r : Option ℕ}, Palloced s s' ps ls M B size r →
      (r.toList ++ live).Nodup := by
    intro size r hp
    cases r with
    | none => exact hnd
    | some q =>
      obtain ⟨ps', fs', ls', M', B', hc, hst, -, -, -, hout⟩ := hp
      exact List.nodup_cons.mpr ⟨fun hq => outcome_new hc hst.base hout (hI.held q hq), hnd⟩
  cases h with
  | palloc fuel size r hsz hrun => exact hnew (palloc_spec env fuel hI.core hrun)
  | pcalloc fuel size r hsz hrun => exact hnew (pcalloc_spec env fuel hI.core hrun)
  | pfree data ret hd hrun => exact hnd.filter _
  | pmemcpyExtra dest src n r hn hd hrun => exact hnd
  | psprintfExtra data text len hd hrun => exact hnd
  | pzeroExtra data hd hrun => exact hnd
  | write data y n cap f hd hcap hn hlo hhi hrun => exact hnd

theorem reach_nodup (hs : Start env s₀) (hr : Roomy s₀) (hreach : Reach env s₀ s live) :
    live.Nodup := by
  induction hreach with
  | start => exact List.nodup_nil
  | step hreach hstep ih =>
    obtain ⟨ps, fs, ls, M, B, hI⟩ := reach_inv hs hr hreach
    exact step_nodup hI ih hstep

/-- In every state of a run the blocks of each linked pool tile it and its lists
are sound, no block is handed out twice, and no two live blocks share a byte. -/
theorem heap_sound (env : Env) (s₀ s : State) (live : List ℕ) (hs : Start env s₀) (hr : Roomy s₀)
    (hreach : Reach env s₀ s live) :
    (∀ a, Linked s a → ∃ T L, HeapInv (s.pools a) T L) ∧ live.Nodup ∧
      (∀ x ∈ live, Live s x ∧ ∃ v, view s x = some v) ∧
      ∀ x ∈ live, ∀ y ∈ live, x ≠ y → ∀ v w, view s x = some v → view s y = some w →
        ∀ i, ¬(Covers v x i ∧ Covers w y i) := by
  obtain ⟨ps, fs, ls, M, B, hI⟩ := reach_inv hs hr hreach
  have hc := hI.core
  refine ⟨fun a ha => ?_, reach_nodup hs hr hreach, fun x hx => ⟨(live_iff hc).mpr (hI.held x hx), ?_⟩, ?_⟩
  · obtain ⟨T, L, hi, -⟩ := hc.linked_inv ((linked_iff hc).mp ha)
    exact ⟨T, L, hi⟩
  · rcases hI.held x hx with ⟨b, hb, o, ho, rfl⟩ | ⟨a, ha, rfl⟩
    · exact ⟨_, view_small hc hb ho⟩
    · exact ⟨_, view_large hc ha⟩
  · intro x hx y hy hne v w hv hw i
    exact block_apart hc (hI.held x hx) (hI.held y hy) hne hv hw

theorem heap_sound_several : ∃ s₀ s, Reach (filled 0) s₀ s [12316, 4319, 338, 223] ∧
    s.property.pfree_count = 1 ∧ (∃ T L, HeapInv (s.pools s.base) T L) ∧
    ∀ v w, view s 338 = some v → view s 4319 = some w → ∀ i, ¬(Covers v 338 i ∧ Covers w 4319 i) := by
  obtain ⟨s₀, s, t, hs, hr, -, hreach, hparked, -, -⟩ := several_blocks
  obtain ⟨hinv, -, -, hdisjoint⟩ := heap_sound (filled 0) s₀ s _ hs hr hreach
  exact ⟨s₀, s, hreach, hparked, hinv s.base (.here _),
    hdisjoint 338 (by simp) 4319 (by simp) (by decide)⟩

theorem palloced_large {r : Option ℕ} {size : ℕ} (hc : Core s ps fs [] ls M B)
    (hlive : ∀ a, Holds s.config.largeht a → a+largeSize ∈ live)
    (h : Palloced s s' ps ls M B size r) :
    ∀ a, Holds s'.config.largeht a → a+largeSize ∈ r.toList ++ live := by
  obtain ⟨ps', fs', ls', M', B', hc', -, -, -, -, hout⟩ := h
  intro a ha
  rw [holds_iff hc'.largeht] at ha
  have hold : a ∈ ls → a+largeSize ∈ r.toList ++ live := fun h =>
    List.mem_append_right _ (hlive a ((holds_iff hc.largeht).mpr h))
  cases hout with
  | null h hl => exact hold (hl ▸ ha)
  | small b o h hl hs hu => exact hold (hl ▸ ha)
  | large c hp hM hB hl hnew hs hf hn hu =>
    rw [hl] at ha
    rcases List.mem_cons.mp ha with rfl | ha
    · exact List.mem_append_left _ (List.mem_singleton_self _)
    · exact hold ha

/-- A registered large chunk carries a live block. -/
theorem step_large (hI : Inv s₀ s live ps fs ls M B)
    (hlive : ∀ a, Holds s.config.largeht a → a+largeSize ∈ live) (h : Step env s live s' live') :
    ∀ a, Holds s'.config.largeht a → a+largeSize ∈ live' := by
  have hc := hI.core
  cases h with
  | palloc fuel size r hsz hrun => exact palloced_large hc hlive (palloc_spec env fuel hc hrun)
  | pcalloc fuel size r hsz hrun => exact palloced_large hc hlive (pcalloc_spec env fuel hc hrun)
  | pfree data ret hd hrun =>
    have keep : ∀ a, a+largeSize ≠ data → a ∈ ls → a+largeSize ∈ live.filter (· ≠ data) := by
      intro a hne ha
      rw [List.mem_filter]
      exact ⟨hlive a ((holds_iff hc.largeht).mpr ha), decide_eq_true hne⟩
    rcases hI.held data hd with ⟨b, hb, o, ho, rfl⟩ | ⟨c, hcl, rfl⟩
    · have hls : ∀ a, Holds s'.config.largeht a → a ∈ ls := by
        intro a ha
        by_cases hM : b ∈ M
        · obtain ⟨t, ps', fs', M', B', hrun', hc', -⟩ := (pfree_small hc hb ho).2 hM
          rw [hrun', Except.ok.injEq, Prod.mk.injEq] at hrun
          rw [← hrun.1, holds_iff hc'.largeht] at ha
          exact ha
        · rw [(pfree_small hc hb ho).1 hM, Except.ok.injEq, Prod.mk.injEq] at hrun
          rw [← hrun.1, holds_iff hc.largeht] at ha
          exact ha
      intro a ha
      exact keep a (fun he => payload_ne_large hc hb ho (hls a ha) he.symm) (hls a ha)
    · obtain ⟨t, hrun', hc', -⟩ := pfree_large hc hcl
      rw [hrun', Except.ok.injEq, Prod.mk.injEq] at hrun
      intro a ha
      rw [← hrun.1, holds_iff hc'.largeht] at ha
      obtain ⟨hne, ha⟩ := hc.largeht.nodup.mem_erase_iff.mp ha
      exact keep a (fun he => hne (Nat.add_right_cancel he)) ha
  | pmemcpyExtra dest src n r hn hd hrun =>
    rw [(pmemcpyExtra_untouched hrun).config]
    exact hlive
  | psprintfExtra data text len hd hrun =>
    rw [(psprintfExtra_untouched hrun).config]
    exact hlive
  | pzeroExtra data hd hrun =>
    rw [(pzeroExtra_untouched hrun).config]
    exact hlive
  | write data y n cap f hd hcap hn hlo hhi hrun =>
    rw [(untouched_store hrun).config]
    exact hlive

theorem reach_large (hs : Start env s₀) (hr : Roomy s₀) (hreach : Reach env s₀ s live) :
    ∀ a, Holds s.config.largeht a → a+largeSize ∈ live := by
  induction hreach with
  | start =>
    obtain ⟨M, hI⟩ := start_inv hs hr
    intro a ha
    rw [holds_iff hI.core.largeht] at ha
    cases ha
  | step hreach hstep ih =>
    obtain ⟨ps, fs, ls, M, B, hI⟩ := reach_inv hs hr hreach
    exact step_large hI ih hstep

theorem follows_linked (h : Chain s ps fs) : Follows s (some s.base) (s.base :: ps) :=
  follows_seg (h.family.seg .linked)

/-- In every state of a run the two totals are what the pools and the live large
blocks add up to, and neither ever went below zero. `ps` are the linked pools
behind the base pool and `ls` the large chunks; every live block is a busy one of
these pools or lies in one of these chunks. -/
theorem accounting (env : Env) (s₀ s : State) (live : List ℕ) (hs : Start env s₀) (hr : Roomy s₀)
    (hreach : Reach env s₀ s live) :
    ∃ ps ls : List ℕ, Follows s (some s.base) (s.base :: ps) ∧ ls.Nodup ∧
      (∀ a, a ∈ ls ↔ Holds s.config.largeht a) ∧
      (∀ a ∈ ls, a+largeSize ∈ live ∧ ⟨a, largeBytes (s.larges a), .large⟩ ∈ s.heap.live) ∧
      live.Nodup ∧
      (∀ x ∈ live, (∃ b ∈ s.base :: ps, ∃ o, Busy (s.pools b) o ∧ x = payload b o) ∨
        ∃ a ∈ ls, x = a+largeSize) ∧
      s.property.total_alloced =
        s.config.pool_size*ps.length+(ls.map fun a => largeBytes (s.larges a)).sum ∧
      s.property.total_leftsize = ((s.base :: ps).map fun a => (s.pools a).leftsize).sum ∧
      s.property.wrapped = false := by
  obtain ⟨ps, fs, ls, M, B, hI⟩ := reach_inv hs hr hreach
  have hc := hI.core
  refine ⟨ps, ls, follows_linked hc.chain, hc.largeht.nodup,
    fun a => (holds_iff hc.largeht).symm, fun a ha => ⟨?_, hc.large_live ha⟩,
    reach_nodup hs hr hreach, fun x hx => ?_, hI.acct.alloced, hI.acct.leftsize, hI.acct.wrapped⟩
  · exact reach_large hs hr hreach a ((holds_iff hc.largeht).mpr ha)
  · rcases hI.held x hx with ⟨b, hb, o, ho, rfl⟩ | hlarge
    · exact Or.inl ⟨b, hb, o, (busy_iff (hc.linked_inv hb)).mpr ho, rfl⟩
    · exact Or.inr hlarge

theorem accounting_several : ∃ s₀ s, Reach (filled 0) s₀ s [12316, 4319, 338, 223] ∧
    s.property.pfree_count = 1 ∧ ∃ ps ls : List ℕ, Follows s (some s.base) (s.base :: ps) ∧
      s.property.total_alloced =
        s.config.pool_size*ps.length+(ls.map fun a => largeBytes (s.larges a)).sum ∧
      s.property.total_leftsize = ((s.base :: ps).map fun a => (s.pools a).leftsize).sum ∧
      s.property.wrapped = false := by
  obtain ⟨s₀, s, t, hs, hr, -, hreach, hparked, -, -⟩ := several_blocks
  obtain ⟨ps, ls, hps, -, -, -, -, -, halloced, hleft, hwrapped⟩ :=
    accounting (filled 0) s₀ s _ hs hr hreach
  exact ⟨s₀, s, hreach, hparked, ps, ls, hps, halloced, hleft, hwrapped⟩

end Laws

section Ownership

variable {env : Env} {s₀ s : State} {live ps fs ls M qs : List ℕ} {B : ℕ → List ℕ}

theorem freeAll_append (h : Heap) (as bs : List ℕ) :
    h.freeAll (as ++ bs) = (do
      let h ← h.freeAll as
      h.freeAll bs) := by
  induction as generalizing h with
  | nil => rfl
  | cons a as ih =>
    rw [List.cons_append, Heap.freeAll, Heap.freeAll]
    cases h.free a with
    | error e => rfl
    | ok h' => exact ih h'

theorem destroyPools_eq {p : Option ℕ} (h : Follows s p qs) (heap : Heap) {fuel : ℕ}
    (hf : qs.length < fuel) : destroyPools s fuel heap p = heap.freeAll qs := by
  induction qs generalizing p heap fuel with
  | nil =>
    obtain rfl : p = none := h
    cases fuel with
    | zero => cases hf
    | succ fuel => rfl
  | cons a qs ih =>
    obtain ⟨rfl, hnext⟩ := h
    cases fuel with
    | zero => cases hf
    | succ fuel =>
      rw [destroyPools, Heap.freeAll]
      cases heap.free a with
      | error e => rfl
      | ok heap' => exact ih hnext heap' (Nat.lt_of_succ_lt_succ hf)

theorem destroyFreepool_eq {p : Option ℕ} (h : Follows s p qs)
    (hidle : ∀ a ∈ qs, (s.pools a).busylist = none) (heap : Heap) {fuel : ℕ}
    (hf : qs.length < fuel) : destroyFreepool s fuel heap p = heap.freeAll qs := by
  induction qs generalizing p heap fuel with
  | nil =>
    obtain rfl : p = none := h
    cases fuel with
    | zero => cases hf
    | succ fuel => rfl
  | cons a qs ih =>
    obtain ⟨rfl, hnext⟩ := h
    cases fuel with
    | zero => cases hf
    | succ fuel =>
      rw [destroyFreepool, Heap.freeAll, if_neg (not_not.mpr (hidle a List.mem_cons_self))]
      cases heap.free a with
      | error e => rfl
      | ok heap' =>
        exact ih hnext (fun x hx => hidle x (List.mem_cons_of_mem _ hx)) heap'
          (Nat.lt_of_succ_lt_succ hf)

/-- `mempool_destroy` releases every large chunk, every parked and every linked pool
once, and nothing else. -/
theorem mempoolDestroy_spec (hc : Core s ps fs [] ls M B) {fuel : ℕ} (hps : ps.length+1 < fuel)
    (hfs : fs.length < fuel) :
    ∃ heap, mempoolDestroy fuel s = .ok heap ∧
      ∀ c, c ∈ heap.live ↔ c ∈ s.heap.live ∧ c.kind = .other := by
  set ts := tableAddrs s.config.largeht with hts
  have hperm : ts.Perm ls := tableAddrs_spec hc.largeht
  have hht : tableAddrs s.config.ht = [] := (tableAddrs_spec hc.ht).eq_nil
  have hidle : ∀ a ∈ fs, (s.pools a).busylist = none := by
    intro a ha
    have hi := hc.inv a (List.mem_append_right _ ha)
    rw [hc.idle a ha] at hi
    exact (pool_idle hi).1
  set cs := ts.map (largeChunk s) ++ (fs ++ s.base :: ps).map (poolChunk s) with hcs
  have hmem : ∀ c, c ∈ cs ↔ c ∈ s.heap.live ∧ c.kind ≠ .other := by
    intro c
    rw [hc.owned c, hcs]
    simp only [List.mem_append, List.mem_map, List.mem_cons, List.not_mem_nil, or_false,
      hperm.mem_iff]
    constructor
    · rintro (⟨a, ha, rfl⟩ | ⟨a, ha, rfl⟩)
      · exact Or.inr ⟨a, ha, rfl⟩
      · exact Or.inl ⟨a, ha.symm, rfl⟩
    · rintro (⟨a, ha, rfl⟩ | ⟨a, ha, rfl⟩)
      · exact Or.inr ⟨a, ha.symm, rfl⟩
      · exact Or.inl ⟨a, ha, rfl⟩
  have hnd : cs.Nodup := by
    rw [hcs, List.nodup_append]
    refine ⟨?_, ?_, ?_⟩
    · apply List.Nodup.map _ (hperm.nodup_iff.mpr hc.largeht.nodup)
      exact fun x y h => congrArg Chunk.addr h
    · apply List.Nodup.map
      · exact fun x y h => congrArg Chunk.addr h
      · rw [List.nodup_append]
        refine ⟨hc.chain.family.nodup .parked, hc.chain.family.nodup .linked, ?_⟩
        rintro x hx y hy rfl
        exact hc.chain.not_parked hy hx
    · simp only [List.mem_map]
      rintro c ⟨x, -, rfl⟩ d ⟨y, -, rfl⟩ he
      have hk := congrArg Chunk.kind he
      cases hk
  have haddr : cs.map Chunk.addr = ts ++ (fs ++ s.base :: ps) := by
    rw [hcs, List.map_append, List.map_map, List.map_map]
    congr 1
    · exact List.map_id' ts
    · exact List.map_id' _
  obtain ⟨l, hfree, -, hl⟩ := freeAll_spec cs hc.apart hnd fun c hcc => ((hmem c).mp hcc).1
  refine ⟨⟨l, s.heap.tick⟩, ?_, fun c => ?_⟩
  · rw [haddr, freeAll_append] at hfree
    obtain ⟨h₁, hfree₁, hfree⟩ := bind_ok_iff.mp hfree
    rw [freeAll_append] at hfree
    obtain ⟨h₂, hfree₂, hfree⟩ := bind_ok_iff.mp hfree
    rw [mempoolDestroy, ← hts, hfree₁, ok_bind,
      destroyFreepool_eq (follows_parked hc.chain) hidle h₁ hfs, hfree₂, ok_bind, hht]
    show destroyPools s fuel h₂ (some s.base) = _
    rw [destroyPools_eq (follows_linked hc.chain) h₂ (by simpa using hps)]
    exact hfree
  · show c ∈ l ↔ _
    rw [hl, hmem]
    tauto

/-- In every state of a run on a pool with a registry the pools are owned: the chain
behind the base pool and the free pools are sound and hold every pool there is, the
registry holds the linked ones, and `mempool_destroy` releases them all. -/
theorem ownership (env : Env) (s₀ s : State) (live : List ℕ) (hs : Start env s₀) (hr : Roomy s₀)
    (hht : s₀.config.ht ≠ none) (hreach : Reach env s₀ s live) :
    ∃ ps fs : List ℕ, Seg (chainLinks s) none (s.base :: ps) none ∧ (s.base :: ps).Nodup ∧
      s.property.pooltail = ps.getLast? ∧ Seg (chainLinks s) none fs none ∧
      s.property.freepool = fs.head? ∧ fs.Nodup ∧ (∀ a ∈ fs, a ∉ s.base :: ps) ∧
      s.property.pfree_count = fs.length ∧ (∀ a ∈ fs, (s.pools a).busylist = none) ∧
      (∀ a, Holds s.config.ht a ↔ a ∈ s.base :: ps) ∧
      (∀ c ∈ s.heap.live, c.kind = .pool → c.addr ∈ s.base :: ps ++ fs) ∧
      ∀ fuel, ps.length+fs.length+1 < fuel → ∃ heap, mempoolDestroy fuel s = .ok heap ∧
        ∀ c, c ∈ heap.live ↔ c ∈ s.heap.live ∧ c.kind = .other := by
  obtain ⟨ps, fs, ls, M, B, hI⟩ := reach_inv hs hr hreach
  have hc := hI.core
  have hne : s.config.ht ≠ none := fun h => hht (hI.ht.mp h)
  refine ⟨ps, fs, hc.chain.family.seg .linked, hc.chain.family.nodup .linked, hc.chain.tail,
    hc.chain.family.seg .parked, hc.chain.family.head_eq .parked, hc.chain.family.nodup .parked,
    fun a ha h => hc.chain.not_parked h ha, hc.chain.count, ?_, ?_, ?_, ?_⟩
  · intro a ha
    have hi := hc.inv a (List.mem_append_right _ ha)
    rw [hc.idle a ha] at hi
    exact (pool_idle hi).1
  · intro a
    rw [holds_iff hc.ht]
    constructor
    · intro ha
      simpa using hc.registered a ha
    · exact hI.registered hne a
  · intro c hcl hk
    rcases (hc.owned c).mp ⟨hcl, by rw [hk]; decide⟩ with ⟨a, ha, rfl⟩ | ⟨a, -, rfl⟩
    · rw [List.append_nil] at ha
      exact ha
    · cases hk
  · intro fuel hf
    exact mempoolDestroy_spec hc (by omega) (by omega)

theorem ownership_several : ∃ s₀ s, Reach (filled 0) s₀ s [12316, 4319, 338, 223] ∧
    s.property.pfree_count = 1 ∧
    ∃ fuel heap, mempoolDestroy fuel s = .ok heap ∧ ∀ c ∈ heap.live, c.kind = .other := by
  obtain ⟨s₀, s, t, hs, hr, hht, hreach, hparked, -, -⟩ := several_blocks
  obtain ⟨ps, fs, -, -, -, -, -, -, -, -, -, -, -, hdestroy⟩ :=
    ownership (filled 0) s₀ s _ hs hr hht hreach
  obtain ⟨heap, hrun, hleft⟩ := hdestroy _ (Nat.lt_succ_self _)
  exact ⟨s₀, s, hreach, hparked, _, heap, hrun, fun c hc => ((hleft c).mp hc).2⟩

/-- When every block was freed only the base pool is left, whole. -/
theorem freed_all (env : Env) (s₀ s : State) (hs : Start env s₀) (hr : Roomy s₀)
    (hht : s₀.config.ht ≠ none) (hreach : Reach env s₀ s []) :
    (s.pools s.base).next = none ∧ s.property.pooltail = none ∧
      elements s.config.largeht = 0 ∧ (∀ a, ¬Holds s.config.largeht a) ∧
      s.property.total_alloced = 0 ∧ WholeFree (s.pools s.base) ∧
      (s.pools s.base).leftsize = s.config.pool_size-mempoolSize ∧
      s.property.total_leftsize = s.config.pool_size-mempoolSize := by
  obtain ⟨ps, fs, ls, M, B, hI⟩ := reach_inv hs hr hreach
  have hc := hI.core
  have hne : s.config.ht ≠ none := fun h => hht (hI.ht.mp h)
  have hempty : ∀ x, ¬Block s.base ps ls B x := by
    intro x hx
    cases hI.all hne x hx
  have hB : ∀ b ∈ s.base :: ps, B b = [] := by
    intro b hb
    rw [List.eq_nil_iff_forall_not_mem]
    exact fun o ho => hempty _ (Or.inl ⟨b, hb, o, ho, rfl⟩)
  obtain rfl : ls = [] := by
    rw [List.eq_nil_iff_forall_not_mem]
    exact fun a ha => hempty _ (Or.inr ⟨a, ha, rfl⟩)
  obtain rfl : ps = [] := by
    rw [List.eq_nil_iff_forall_not_mem]
    exact fun a ha => hI.busy a ha (hB a (List.mem_cons_of_mem _ ha))
  have hbase : s.base ∈ s.base :: ([] : List ℕ) := List.mem_cons_self
  have hidle := hc.linked_inv hbase
  rw [hB _ hbase] at hidle
  have hleft : (s.pools s.base).leftsize = s.config.pool_size-mempoolSize := by
    rw [(pool_idle hidle).2.2, hc.size _ (hc.linked hbase)]
  have hacct := hI.acct
  refine ⟨(hc.chain.family.seg .linked).2.1, hc.chain.tail, registers_elements hc.largeht, ?_, ?_,
    wholeFree_idle hidle, hleft, ?_⟩
  · intro a ha
    rw [holds_iff hc.largeht] at ha
    cases ha
  · rw [hacct.alloced]
    rfl
  · rw [hacct.leftsize, List.map_cons, List.map_nil, List.sum_cons, List.sum_nil, hleft]
    exact Nat.add_zero _

theorem freed_all_several : ∃ s₀ s t, Reach (filled 0) s₀ s [12316, 4319, 338, 223] ∧
    Reach (filled 0) s₀ t [] ∧ t.property.total_alloced = 0 ∧ WholeFree (t.pools t.base) := by
  obtain ⟨s₀, s, t, hs, hr, hht, hreach, -, -, hempty⟩ := several_blocks
  obtain ⟨-, -, -, -, htotal, hwhole, -⟩ := freed_all (filled 0) s₀ t hs hr hht hempty
  exact ⟨s₀, s, t, hreach, hempty, htotal, hwhole⟩

end Ownership

end CLearning.MempoolLaws
