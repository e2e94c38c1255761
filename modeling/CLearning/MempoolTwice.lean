import CLearning.MempoolLaws

/-!
# Repeated `pfree`

A block that was given back keeps its old header in the free memory. A second
`pfree` relies on the status byte in it alone, which a merge with the block in
front leaves set.
-/

set_option autoImplicit false

namespace CLearning.MempoolTwice
open CLearning.Machine CLearning.LinkedLists CLearning.MempoolBytes CLearning.MempoolPool
open CLearning.MempoolHeap CLearning.MpHash CLearning.MempoolState CLearning.Mempool
open CLearning.MempoolChain CLearning.MempoolRegistry CLearning.MempoolCore CLearning.MempoolGrow
open CLearning.MempoolAlloc CLearning.MempoolFree CLearning.MempoolInit CLearning.MempoolFresh
open CLearning.MempoolRun CLearning.MempoolAppend CLearning.MempoolCache CLearning.MempoolTables
open CLearning.MempoolFailure CLearning.MempoolLaws

section History

/-- The block of `n` bytes at `o` of the linked pool `b` was handed out and given
back, and no byte of it was handed out since. -/
inductive Freed (env : Env) (s₀ : State) (b o n : ℕ) : State → List ℕ → Prop
  | freed {s s' : State} {live : List ℕ} {ret : ℤ} (hr : Reach env s₀ s live) (hb : Linked s b)
      (ho : Busy (s.pools b) o) (hn : (s.pools b).rd o .size = n) (hd : payload b o ∈ live)
      (h : pfree s (payload b o) = .ok (s', ret)) (hl : Linked s' b) :
      Freed env s₀ b o n s' (live.filter (· ≠ payload b o))
  | later {s s' : State} {live live' : List ℕ} (hf : Freed env s₀ b o n s live)
      (h : Step env s live s' live') (hl : Linked s' b)
      (hnew : ∀ y ∈ live', y ∉ live → ∀ v, view s' y = some v → ∀ i, Covers v y i →
        ¬(b+mempoolSize+o ≤ i ∧ i < b+mempoolSize+o+n)) : Freed env s₀ b o n s' live'

/-- The call leaves the whole state as it was. -/
def Harmless (s : State) (data : ℕ) : Prop := ∃ ret, pfree s data = .ok (s, ret)

/-- The tests of `pfree` stop before the block is given back: the offset in the old
header leads to no registered pool, or its status byte is clear. -/
def Guarded (s : State) (b o : ℕ) : Prop :=
  ¬Holds s.config.ht
      (usub 64 (usub 64 (b+mempoolSize+o) ((s.pools b).rd o .offset)) mempoolSize) ∨
    (s.pools b).status o = 0

variable {env : Env} {s₀ s s' : State} {live ps fs ls M : List ℕ} {B : ℕ → List ℕ} {b o n : ℕ}

theorem freed_room (hs : Start env s₀) (hr : Roomy s₀) (h : Freed env s₀ b o n s live) :
    Reach env s₀ s live ∧ Linked s b ∧ o+mempoolSize+realdataSize < s.config.pool_size := by
  induction h with
  | @freed s s' live ret hreach hb ho hn hd h hl =>
    have hreach' := hreach.step (.pfree _ _ hd h)
    obtain ⟨ps, fs, ls, M, B, hI⟩ := reach_inv hs hr hreach
    obtain ⟨ps', fs', ls', M', B', hI'⟩ := reach_inv hs hr hreach'
    have hmem := (linked_iff hI.core).mp hb
    have hroom := header_room hI.core hmem ((busy_iff (hI.core.linked_inv hmem)).mp ho)
    refine ⟨hreach', hl, ?_⟩
    rw [hI.config] at hroom
    rw [hI'.config]
    exact hroom
  | @later s s' live live' hf h hl hnew ih =>
    obtain ⟨hreach, -, hroom⟩ := ih
    have hreach' := hreach.step h
    obtain ⟨ps, fs, ls, M, B, hI⟩ := reach_inv hs hr hreach
    obtain ⟨ps', fs', ls', M', B', hI'⟩ := reach_inv hs hr hreach'
    refine ⟨hreach', hl, ?_⟩
    rw [hI.config] at hroom
    rw [hI'.config]
    exact hroom

end History

section Again

variable {env : Env} {s₀ s s' : State} {live ps fs ls M : List ℕ} {B : ℕ → List ℕ} {b o n : ℕ}

theorem move2header_leftsize (hrun : mempoolMove2header s b = .ok s') :
    s'.property.total_leftsize = s.property.total_leftsize := by
  rw [mempoolMove2header] at hrun
  split at hrun
  · rw [Except.ok.injEq] at hrun
    rw [hrun]
  · obtain ⟨flag, -, hrun⟩ := bind_ok_iff.mp hrun
    split at hrun
    · obtain ⟨pprev, -, hrun⟩ := bind_ok_iff.mp hrun
      obtain ⟨pnext, -, hrun⟩ := bind_ok_iff.mp hrun
      rw [Except.ok.injEq] at hrun
      rw [← hrun]
      simp only [setPrev_property, setNext_property, setPrev?_property]
      split <;> rfl
    · rw [Except.ok.injEq] at hrun
      rw [hrun]

theorem unlinkPool_alloced : (unlinkPool s b).property.total_alloced = s.property.total_alloced := by
  rw [unlinkPool]
  split <;> simp

theorem parkPool_alloced : (parkPool s b).property.total_alloced = s.property.total_alloced := by
  simp only [parkPool, setPrev_property, setPrev?_property, setNext_property]
  rfl

theorem subLeftsize_alloced (p : Property) (n : ℕ) :
    (p.subLeftsize n).total_alloced = p.total_alloced := by
  unfold Property.subLeftsize
  rfl

theorem destroy_alloced (hrun : mempoolInternalDestroy s b = .ok s') :
    s'.property.total_alloced = usub 64 s.property.total_alloced s.config.pool_size := by
  rw [mempoolInternalDestroy] at hrun
  dsimp only at hrun
  obtain ⟨⟨t, l⟩, -, hrun⟩ := bind_ok_iff.mp hrun
  split at hrun
  · rw [ok_bind, Except.ok.injEq] at hrun
    rw [← hrun]
    simp only [Property.subAlloced, parkPool_alloced, parkPool_config, Property.subLeftsize,
      unlinkPool_alloced, unlinkPool_config]
  · obtain ⟨heap, -, hrun⟩ := bind_ok_iff.mp hrun
    rw [ok_bind, Except.ok.injEq] at hrun
    rw [← hrun]
    simp only [Property.subAlloced, Property.subLeftsize, unlinkPool_alloced, unlinkPool_config]

/-- Past the first lines of `__pfree_realdata` a total changes by the bytes of the pool
or not at all. -/
theorem giveBack_totals {t : State} (hrun : (if (t.pools b).busylist = none then
      if b ≠ t.base then
        mempoolInternalDestroy { t with property := t.property.subLeftsize n } b
      else .ok (t.setPool b (initMempool (t.pools b)))
    else if (t.pools b).leftsize = 0 then
      mempoolMove2header (t.setPool b (refillFreelist (t.pools b) o)) b
    else .ok (t.setPool b (freeRealdata (t.pools b) o))) = .ok s') :
    s'.property.total_alloced = usub 64 t.property.total_alloced t.config.pool_size ∨
      s'.property.total_leftsize = t.property.total_leftsize := by
  split at hrun
  · split at hrun
    · have h := destroy_alloced hrun
      dsimp only at h
      rw [subLeftsize_alloced] at h
      exact Or.inl h
    · rw [Except.ok.injEq] at hrun
      rw [← hrun]
      exact Or.inr rfl
  · split at hrun
    · have h := move2header_leftsize hrun
      exact Or.inr h
    · rw [Except.ok.injEq] at hrun
      rw [← hrun]
      exact Or.inr rfl

theorem pfreeRealdata_totals (hrun : pfreeRealdata s b o = .ok s') :
    s'.property.total_alloced = usub 64 s.property.total_alloced s.config.pool_size ∨
      s'.property.total_leftsize =
        (s.property.total_leftsize+(unlinkBusy (s.pools b) o).rd o .size) % 2^64 := by
  have hself := pools_setPool_self s b (unlinkBusy (s.pools b) o)
  rw [← hself]
  exact giveBack_totals hrun

theorem pfreeRealdata_changes (hsz : 0 < s.config.pool_size ∧ s.config.pool_size < 2^64)
    (hn : (unlinkBusy (s.pools b) o).rd o .size ≠ 0) (ha : s.property.total_alloced < 2^64) :
    pfreeRealdata s b o ≠ .ok s := by
  intro hrun
  have hlt : (unlinkBusy (s.pools b) o).rd o .size < 65536 := rd_lt
  rcases pfreeRealdata_totals hrun with h | h
  · rw [usub] at h
    omega
  · omega

/-- A second `pfree` of a block is harmless where one of its two tests stops it, and
only there unless the old header has lost its size. -/
theorem repeat_harmless (env : Env) (s₀ s : State) (live : List ℕ) (b o n : ℕ) (hs : Start env s₀)
    (hr : Roomy s₀) (h : Freed env s₀ b o n s live) :
    (Guarded s b o → Harmless s (payload b o)) ∧ (Harmless s (payload b o) →
      Guarded s b o ∨ (unlinkBusy (s.pools b) o).rd o .size = 0) := by
  obtain ⟨hreach, hb, hroom⟩ := freed_room hs hr h
  obtain ⟨ps, fs, ls, M, B, hI⟩ := reach_inv hs hr hreach
  have hc := hI.core
  have hmem := (linked_iff hc).mp hb
  set a := usub 64 (usub 64 (b+mempoolSize+o) ((s.pools b).rd o .offset)) mempoolSize with ha
  have hholds := @holds_iff M a s.config.ht false hc.ht
  rw [Guarded, Harmless, ← ha, hholds, pfree_inside hc hmem hroom ha.symm]
  constructor
  · rintro (haM | hst)
    · exact ⟨-1, if_neg haM⟩
    · by_cases haM : a ∈ M
      · rw [if_pos haM, if_pos hst]
        exact ⟨0, rfl⟩
      · exact ⟨-1, if_neg haM⟩
  · rintro ⟨ret, hrun⟩
    by_contra hno
    rw [not_or, not_or, not_not] at hno
    obtain ⟨⟨haM, hst⟩, hsize⟩ := hno
    rw [if_pos haM, if_neg hst] at hrun
    split at hrun
    · cases hrun
    · next hab =>
      rw [not_not] at hab
      obtain ⟨t, hfree, hrun⟩ := bind_ok_iff.mp hrun
      rw [Except.ok.injEq, Prod.mk.injEq] at hrun
      rw [hrun.1, hab] at hfree
      obtain ⟨-, -, hend, h208⟩ := pool_range hc hmem
      have hcap := hI.acct.cap
      exact pfreeRealdata_changes ⟨by omega, by have := hc.config.size.2; omega⟩ hsize (by omega)
        hfree

/-- The only block of a pool starts at offset zero, where the reset clears its status. -/
theorem repeat_harmless_only : ∃ s, opened (filled 0) 4096 8192 4096 0 = .ok s ∧
    ∃ t u, palloc (filled 0) 3 s 100 = .ok (t, some 223) ∧ pfree t 223 = .ok (u, 0) ∧
      Harmless u 223 := by
  have hrun : (do
      let s ← opened (filled 0) 4096 8192 4096 0
      let t ← palloc (filled 0) 3 s 100
      let u ← pfree t.1 223
      .ok (t.2, u.2, decide (t.1.base = 16) && decide ((t.1.pools 16).busylist = some 0) &&
        decide (u.1.base = 16) && decide ((u.1.pools 16).status 0 = 0))) =
      (.ok (some 223, 0, true) : Run (Option ℕ × ℤ × Bool)) := by
    decide +kernel
  obtain ⟨s, h₀, hrun⟩ := bind_ok_iff.mp hrun
  obtain ⟨⟨t, r⟩, h₁, hrun⟩ := bind_ok_iff.mp hrun
  obtain ⟨⟨u, c⟩, h₂, hrun⟩ := bind_ok_iff.mp hrun
  simp only [Except.ok.injEq, Prod.mk.injEq, Bool.and_eq_true, decide_eq_true_eq, and_assoc] at hrun
  obtain ⟨rfl, rfl, hbase, hbusy, hbase', hst⟩ := hrun
  have hreach := Reach.step .start (Step.palloc 3 100 (some 223) (by decide) h₁)
  have hlinked : Linked t 16 := by
    rw [Linked, hbase]
    exact .here _
  have hlinked' : Linked u 16 := by
    rw [Linked, hbase']
    exact .here _
  have hbusy : Busy (t.pools 16) 0 := by
    rw [Busy, hbusy]
    exact .here _
  have hfreed := @Freed.freed (filled 0) s 16 0 _ t u [223] 0 hreach hlinked hbusy rfl
    List.mem_cons_self h₂ hlinked'
  exact ⟨s, h₀, t, u, h₁, h₂, (repeat_harmless (filled 0) s u _ 16 0 _ (opened_start h₀).1
    (opened_roomy h₀ (by decide)) hfreed).1 (Or.inr hst)⟩

/-- The second of three blocks of ten bytes is merged with the first one and keeps
its status; freed again, it counts twice and takes the third one with it. -/
theorem repeat_harms : ¬∀ (env : Env) (s₀ s : State) (live : List ℕ) (b o n : ℕ), Start env s₀ →
    Roomy s₀ → Freed env s₀ b o n s live → Harmless s (payload b o) := by
  intro hall
  have hrun : (do
      let s₀ ← opened (filled 0) 4096 8192 4096 0
      let r₁ ← palloc (filled 0) 3 s₀ 10
      let r₂ ← palloc (filled 0) 3 r₁.1 10
      let r₃ ← palloc (filled 0) 3 r₂.1 10
      let t₁ ← pfree r₃.1 223
      let t₂ ← pfree t₁.1 248
      let t₃ ← pfree t₂.1 248
      .ok (r₁.2, r₂.2, r₃.2, decide (t₁.1.base = 16) &&
        decide ((t₁.1.pools 16).busylist = some 50) &&
        decide (ref ((t₁.1.pools 16).rd 50 .next) = some 25) && decide (t₂.1.base = 16) &&
        decide (t₃.1.property.total_leftsize ≠ t₂.1.property.total_leftsize))) =
      (.ok (some 223, some 248, some 273, true) :
        Run (Option ℕ × Option ℕ × Option ℕ × Bool)) := by
    decide +kernel
  obtain ⟨s₀, h₀, hrun⟩ := bind_ok_iff.mp hrun
  obtain ⟨⟨s₁, r₁⟩, h₁, hrun⟩ := bind_ok_iff.mp hrun
  obtain ⟨⟨s₂, r₂⟩, h₂, hrun⟩ := bind_ok_iff.mp hrun
  obtain ⟨⟨s₃, r₃⟩, h₃, hrun⟩ := bind_ok_iff.mp hrun
  obtain ⟨⟨t₁, c₁⟩, h₄, hrun⟩ := bind_ok_iff.mp hrun
  obtain ⟨⟨t₂, c₂⟩, h₅, hrun⟩ := bind_ok_iff.mp hrun
  obtain ⟨⟨t₃, c₃⟩, h₆, hrun⟩ := bind_ok_iff.mp hrun
  simp only [Except.ok.injEq, Prod.mk.injEq, Bool.and_eq_true, decide_eq_true_eq, and_assoc] at hrun
  obtain ⟨rfl, rfl, rfl, hbase, hbusy, hnext, hbase', hleft⟩ := hrun
  have hreach₁ := Reach.step .start (Step.palloc 3 10 (some 223) (by decide) h₁)
  have hreach₂ := hreach₁.step (Step.palloc 3 10 (some 248) (by decide) h₂)
  have hreach₃ := hreach₂.step (Step.palloc 3 10 (some 273) (by decide) h₃)
  have hreach₄ := hreach₃.step (Step.pfree 223 c₁ (by decide) h₄)
  have hlinked : Linked t₁ 16 := by
    rw [Linked, hbase]
    exact .here _
  have hlinked' : Linked t₂ 16 := by
    rw [Linked, hbase']
    exact .here _
  have hbusy : Busy (t₁.pools 16) 25 := by
    rw [Busy, hbusy]
    apply Meets.further
    rw [hnext]
    exact .here _
  have hfreed := @Freed.freed (filled 0) s₀ 16 25 _ t₁ t₂ _ c₂ hreach₄ hlinked hbusy rfl
    (by decide) h₅ hlinked'
  obtain ⟨ret, h⟩ := hall (filled 0) s₀ t₂ _ 16 25 _ (opened_start h₀).1
    (opened_roomy h₀ (by decide)) hfreed
  have he := h₆.symm.trans h
  rw [Except.ok.injEq, Prod.mk.injEq] at he
  exact hleft (by rw [he.1])

end Again

end CLearning.MempoolTwice
