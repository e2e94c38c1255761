import CLearning.MempoolRealloc

/-!
# The contract of `prealloc`

A call that returns a block moved the old one there, and a call that returns none
left it alone: the contract, and the calls that keep it.
-/

set_option autoImplicit false

namespace CLearning.MempoolPrealloc
open CLearning.Machine CLearning.LinkedLists CLearning.MempoolBytes CLearning.MempoolPool
open CLearning.MempoolHeap CLearning.MempoolServe CLearning.MpHash CLearning.MempoolState
open CLearning.Mempool CLearning.MempoolChain CLearning.MempoolRegistry CLearning.MempoolCore
open CLearning.MempoolGrow CLearning.MempoolAlloc CLearning.MempoolFree
open CLearning.MempoolStore CLearning.MempoolInit CLearning.MempoolFresh CLearning.MempoolRun
open CLearning.MempoolAppend CLearning.MempoolCache CLearning.MempoolTables CLearning.MempoolFailure
open CLearning.MempoolCap CLearning.MempoolLaws CLearning.MempoolReset CLearning.MempoolPayload
open CLearning.MempoolHeader CLearning.MempoolRealloc

section Contract

def Asks (s : State) (v : View) (newsize : ℕ) : Prop :=
  if v.large then v.size ≠ newsize else s.config.ht ≠ none ∧ v.size < newsize

/-- What a call that returns the block `q` for the block at `x` with header `v` has to
do: `t` is the state `palloc` left and `w` the header it made. The status and the
links of a small block are those of its pool's lists, which `sound` keeps. -/
structure Replaced (env : Env) (fuel : ℕ) (s s' : State) (x : ℕ) (v : View) (newsize q : ℕ) :
    Prop where
  fresh : ∃ t w m, palloc env fuel s newsize = .ok (t, some q) ∧ view t q = some w ∧
    newsize+w.header ≤ w.size ∧ view s' q = some { w with used := m } ∧ m+w.header ≤ w.size ∧
    (w.large = true → largeFlag (s'.larges (q-largeSize)) = mempoolLargeflag)
  live : ∀ y, Live s' y ↔ y = q ∨ Live s y ∧ y ≠ x
  copied : ∀ i < min (v.size-v.header) newsize, s'.load env (q+i) = s.load env (x+i)
  others : ∀ y, Live s y → y ≠ x → Stays env s s' y
  sound : ∀ a, Linked s' a → ∃ T L, HeapInv (s'.pools a) T L

/-- The contract of `prealloc`. -/
def Regrown (env : Env) (fuel : ℕ) (s s' : State) (x : ℕ) (v : View) (newsize : ℕ) :
    Option ℕ → Prop
  | none => Live s' x ∧ Stays env s s' x ∧
      ((∃ t, palloc env fuel s newsize = .ok (t, none)) ∨ newsize+v.header ≤ v.size)
  | some q => Replaced env fuel s s' x v newsize q

inductive Moved (env : Env) (t u : State) (qs ls M : List ℕ) (B : ℕ → List ℕ) (q newsize : ℕ) :
    ℕ → Prop
  | small (p r : ℕ) (hp : p ∈ qs) (hr : r ∈ B p) (hM : p ∈ M)
      (h : moveSmall env t (payload p r) q newsize p r = .ok u) :
      Moved env t u qs ls M B q newsize (payload p r)
  | large (e : ℕ) (he : e ∈ ls) (h : moveLarge env t (e+largeSize) q newsize = .ok u) :
      Moved env t u qs ls M B q newsize (e+largeSize)

variable {env : Env} {s s' t u : State} {ps ps' fs fs' ls ls' M M' : List ℕ} {B B' : ℕ → List ℕ}
  {a b fuel k m n o p q r x y : ℕ} {v w : View}

theorem header_of_large (h : v.large = true) : v.header = largeSize := by
  rw [View.header, h, if_pos rfl]

theorem header_of_small (h : v.large = false) : v.header = realdataSize := by
  rw [View.header, h, if_neg Bool.false_ne_true]

theorem registry_some (hc : Core s ps fs [] ls M B) (hp : p ∈ M) : s.config.ht ≠ none := by
  intro hnone
  have hempty := hc.ht
  rw [hnone] at hempty
  rw [show M = [] from hempty] at hp
  cases hp

theorem prealloc_small (env : Env) (fuel n : ℕ) (hc : Core s ps fs [] ls M B)
    (hp : p ∈ s.base :: ps) (hr : r ∈ B p) :
    prealloc env fuel s (payload p r) n =
      if p ∈ M then reallocSmall env fuel s (payload p r) n p r else .ok (s, none) := by
  rw [prealloc, if_neg (payload_pos hc hp)]
  simp only [checkLarge_small hc hp hr, checkRealdata_small hc hp hr, ok_bind, Bool.false_eq_true,
    if_false]
  by_cases hM : p ∈ M
  · simp only [if_pos hM]
  · simp only [if_neg hM]

theorem prealloc_large (env : Env) (fuel n : ℕ) (hc : Core s ps fs [] ls M B) (ha : a ∈ ls) :
    prealloc env fuel s (a+largeSize) n = reallocLarge env fuel s (a+largeSize) n := by
  rw [prealloc, if_neg (by rw [largeSize]; omega)]
  simp only [usub_largeSize hc ha, checkLarge_large hc ha, ok_bind, if_true]

/-- The ways a call can go. -/
theorem prealloc_cases {res : Option ℕ} (hc : Core s ps fs [] ls M B) (hreg : Registered s ps M)
    (hx : Block s.base ps ls B x) (hv : view s x = some v)
    (hrun : prealloc env fuel s x n = .ok (s', res)) :
    (¬Asks s v n ∧ s' = s ∧ res = none) ∨
      Asks s v n ∧ ((palloc env fuel s n = .ok (s', none) ∧ res = none) ∨
        ∃ t q u ret, palloc env fuel s n = .ok (t, some q) ∧ res = some q ∧
          Moved env t u (s.base :: ps) ls M B q n x ∧ pfree u x = .ok (s', ret)) := by
  rcases hx with ⟨p, hp, r, hr, rfl⟩ | ⟨e, he, rfl⟩
  · rw [view_small hc hp hr, Option.some_inj] at hv
    subst hv
    have hmem : p ∈ M ↔ s.config.ht ≠ none := ⟨registry_some hc, fun hne => hreg hne p hp⟩
    have hasks : Asks s (smallView s p r) n ↔ p ∈ M ∧ (s.pools p).rd r .size < n := by
      rw [hmem]
      rfl
    rw [hasks]
    rw [prealloc_small env fuel n hc hp hr, reallocSmall_eq] at hrun
    by_cases hM : p ∈ M
    · rw [if_pos hM] at hrun
      split at hrun
      · next hle =>
        rw [Except.ok.injEq, Prod.mk.injEq] at hrun
        exact Or.inl ⟨by omega, hrun.1.symm, hrun.2.symm⟩
      · next hle =>
        refine Or.inr ⟨⟨hM, by omega⟩, ?_⟩
        obtain ⟨⟨t, q⟩, hpal, hrun⟩ := bind_ok_iff.mp hrun
        cases q with
        | none =>
          rw [Except.ok.injEq, Prod.mk.injEq] at hrun
          obtain ⟨rfl, rfl⟩ := hrun
          exact Or.inl ⟨hpal, rfl⟩
        | some q =>
          obtain ⟨u, hmove, hrun⟩ := bind_ok_iff.mp hrun
          obtain ⟨⟨z, ret⟩, hfree, hrun⟩ := bind_ok_iff.mp hrun
          rw [Except.ok.injEq, Prod.mk.injEq] at hrun
          obtain ⟨rfl, rfl⟩ := hrun
          exact Or.inr ⟨t, q, u, ret, hpal, rfl, .small p r hp hr hM hmove, hfree⟩
    · rw [if_neg hM, Except.ok.injEq, Prod.mk.injEq] at hrun
      exact Or.inl ⟨fun h => hM h.1, hrun.1.symm, hrun.2.symm⟩
  · rw [view_large hc he, Option.some_inj] at hv
    subst hv
    have hasks : Asks s (largeView s e) n ↔ largeBytes (s.larges e) ≠ n := Iff.rfl
    rw [hasks]
    rw [prealloc_large env fuel n hc he, reallocLarge_eq, usub_largeSize hc he] at hrun
    split at hrun
    · next heq =>
      rw [Except.ok.injEq, Prod.mk.injEq] at hrun
      exact Or.inl ⟨not_not_intro heq, hrun.1.symm, hrun.2.symm⟩
    · next hne =>
      refine Or.inr ⟨hne, ?_⟩
      obtain ⟨⟨t, q⟩, hpal, hrun⟩ := bind_ok_iff.mp hrun
      cases q with
      | none =>
        rw [Except.ok.injEq, Prod.mk.injEq] at hrun
        obtain ⟨rfl, rfl⟩ := hrun
        exact Or.inl ⟨hpal, rfl⟩
      | some q =>
        obtain ⟨u, hmove, hrun⟩ := bind_ok_iff.mp hrun
        obtain ⟨⟨z, ret⟩, hfree, hrun⟩ := bind_ok_iff.mp hrun
        rw [Except.ok.injEq, Prod.mk.injEq] at hrun
        obtain ⟨rfl, rfl⟩ := hrun
        exact Or.inr ⟨t, q, u, ret, hpal, rfl, .large e he hmove, hfree⟩

theorem pfree_leaves {ret : ℤ} (hc : Core u ps fs [] ls M B) (hx : Block u.base ps ls B x)
    (hreg : ∀ b ∈ u.base :: ps, ∀ o ∈ B b, x = payload b o → b ∈ M)
    (hrun : pfree u x = .ok (s', ret)) :
    ∃ ps' fs' ls' M' B', Core s' ps' fs' [] ls' M' B' ∧
      (∀ y, Block s'.base ps' ls' B' y ↔ Block u.base ps ls B y ∧ y ≠ x) ∧
      s'.larges = u.larges := by
  rcases hx with ⟨b, hb, o, ho, rfl⟩ | ⟨a, ha, rfl⟩
  · obtain ⟨t, ps', fs', M', B', hrun', hc', hr, -⟩ :=
      (pfree_small hc hb ho).2 (hreg b hb o ho rfl)
    rw [hrun', Except.ok.injEq, Prod.mk.injEq] at hrun
    obtain ⟨rfl, -⟩ := hrun
    exact ⟨ps', fs', ls, M', B', hc', fun y => released_block hc hb ho hr y, hr.larges⟩
  · obtain ⟨t, hrun', hc', hbase, -, hl, -⟩ := pfree_large hc ha
    rw [hrun', Except.ok.injEq, Prod.mk.injEq] at hrun
    obtain ⟨rfl, -⟩ := hrun
    exact ⟨ps, fs, ls.erase a, M, B, hc', fun y => hbase.symm ▸ erased_block hc ha y, hl⟩

/-- With the new block filled and the old one freed the contract is kept exactly when
the mark fits. -/
theorem replaced_iff {ret : ℤ} (hc : Core s ps fs [] ls M B) (ht : Core t ps' fs' [] ls' M' B')
    (hx : Block s.base ps ls B x)
    (hblocks : ∀ y, Block t.base ps' ls' B' y ↔ y = q ∨ Block s.base ps ls B y)
    (hnew : ¬Block s.base ps ls B q)
    (hreg : ∀ b ∈ t.base :: ps', ∀ o ∈ B' b, x = payload b o → b ∈ M')
    (hflag : ∀ a ∈ ls', largeFlag (t.larges a) = mempoolLargeflag)
    (hpal : palloc env fuel s n = .ok (t, some q)) (hv : view s x = some v)
    (hw : view t q = some w) (hroom : n+w.header ≤ w.size)
    (hfill : Filled env t u ps' fs' ls' M' B' q x (min (v.size-v.header) n) w m)
    (hfree : pfree u x = .ok (s', ret)) :
    Replaced env fuel s s' x v n q ↔ m+w.header ≤ w.size := by
  have hbase := hfill.untouched.base
  have hqx : q ≠ x := fun h => hnew (h ▸ hx)
  have hxt : Block t.base ps' ls' B' x := (hblocks x).mpr (Or.inr hx)
  have hqt : Block t.base ps' ls' B' q := (hblocks q).mpr (Or.inl rfl)
  have hxu : Block u.base ps' ls' B' x := hbase.symm ▸ hxt
  have hqu : Block u.base ps' ls' B' q := hbase.symm ▸ hqt
  obtain ⟨w', hwu, hws, hkept⟩ := pfree_stays env hfill.core hxu hqu hqx hfree
  obtain rfl : { w with used := m } = w' := Option.some_inj.mp (hfill.view.symm.trans hwu)
  obtain ⟨ps₁, fs₁, ls₁, M₁, B₁, hc₁, hleft, hlarges⟩ :=
    pfree_leaves hfill.core hxu (hbase.symm ▸ hreg) hfree
  constructor
  · rintro ⟨⟨t', w', m', hpal', hw', -, hview, hfit, -⟩, -, -, -, -⟩
    rw [hpal, Except.ok.injEq, Prod.mk.injEq] at hpal'
    obtain ⟨rfl, -⟩ := hpal'
    obtain rfl : w = w' := Option.some_inj.mp (hw.symm.trans hw')
    have hm : m = m' := congrArg View.used (Option.some_inj.mp (hws.symm.trans hview))
    rw [hm]
    exact hfit
  · intro hfit
    refine ⟨⟨t, w, m, hpal, hw, hroom, hws, hfit, ?_⟩, ?_, ?_, ?_, ?_⟩
    · intro hlarge
      rcases hqt with ⟨b, hb, o, ho, rfl⟩ | ⟨a, ha, rfl⟩
      · rw [view_small ht hb ho, Option.some_inj] at hw
        rw [← hw] at hlarge
        cases hlarge
      · rw [hlarges, Nat.add_sub_cancel, hfill.flags a ha]
        exact hflag a ha
    · intro y
      rw [live_iff hc₁, live_iff hc, hleft, hbase, hblocks]
      constructor
      · rintro ⟨rfl | hy, hne⟩
        · exact Or.inl rfl
        · exact Or.inr ⟨hy, hne⟩
      · rintro (rfl | ⟨hy, hne⟩)
        · exact ⟨Or.inl rfl, hqx⟩
        · exact ⟨Or.inr hy, hne⟩
    · intro i hi
      obtain ⟨v', hv', -, hold⟩ := palloc_stays env fuel hc hx hpal
      obtain rfl : v = v' := Option.some_inj.mp (hv.symm.trans hv')
      have hin : i+w.header < w.size := by omega
      rw [hkept i hin, hfill.copied i hi, hold i (by omega)]
    · intro y hy hne
      have hys := (live_iff hc).mp hy
      have hyq : y ≠ q := fun h => hnew (h ▸ hys)
      have hyt := (hblocks y).mpr (Or.inr hys)
      exact (palloc_stays env fuel hc hys hpal).trans
        ((hfill.stays ht hqt hw hyt hyq).trans
          (pfree_stays env hfill.core hxu (hbase.symm ▸ hyt) hne hfree))
    · intro c hcl
      obtain ⟨T, L, hi, -⟩ := hc₁.linked_inv ((linked_iff hc₁).mp hcl)
      exact ⟨T, L, hi⟩

end Contract

section Overwriting

variable {env : Env} {s s' t : State} {ps fs ls M : List ℕ} {B : ℕ → List ℕ}
  {a b e m n o u x y : ℕ} {p : Pool} {T T' : List ℕ} {L L' : Cls → List ℕ} {v w : View}

def overwrite (p : Pool) (o u : ℕ) : Pool :=
  { p with data := State.splice p.data (o+11) 4 (word 4 u) }

theorem realnext_tiles {o' k : ℕ} (prev : Option ℕ) (ht : Tiles p o' T k)
    (hs : Seg (realLinks p) prev T none) (ho : o ∈ T) :
    ref (p.rd o .realnext) = if o+p.rd o .size = k then none else some (o+p.rd o .size) := by
  induction T generalizing o' prev with
  | nil => cases ho
  | cons c T ih =>
    obtain ⟨rfl, h16, ht⟩ := ht
    obtain ⟨hprev, hnext, hs⟩ := hs
    rcases List.mem_cons.mp ho with rfl | ho
    · cases T with
      | nil =>
        rw [if_pos (show o+p.rd o .size = k from ht)]
        exact hnext
      | cons d T =>
        obtain ⟨rfl, h16', ht⟩ := ht
        have hle := ht.bounds.1
        rw [if_neg (by omega)]
        exact hnext
    · exact ih _ ht hs ho

theorem realnext_same {p' : Pool} (hi : HeapInv p T L) (hi' : HeapInv p' T' L') (ho : o ∈ T)
    (ho' : o ∈ T') (hsize : p'.rd o .size = p.rd o .size) (hpool : p'.pool_size = p.pool_size) :
    p'.rd o .realnext = p.rd o .realnext := by
  have h := realnext_tiles none hi.tiles hi.order ho
  have h' := realnext_tiles none hi'.tiles hi'.order ho'
  rw [hsize, hpool, ← h] at h'
  cases hr : ref (p.rd o .realnext) with
  | none => rw [ref_eq_none.mp hr, ref_eq_none.mp (h'.trans hr)]
  | some c => rw [(ref_eq_some.mp hr).1, (ref_eq_some.mp (h'.trans hr)).1]

theorem overwrite_size : (overwrite p o u).rd o .size = p.rd o .size :=
  load16_splice (by simp only [Field.pos]; omega)

theorem overwrite_byte {i : ℕ} (hi : i < 4) :
    ((overwrite p o u).data (o+11+i)).toNat = u / 256^i % 256 := by
  have hin : o+11 ≤ o+11+i ∧ o+11+i < o+11+4 := ⟨Nat.le_add_right _ _, by omega⟩
  show (State.splice p.data (o+11) 4 (word 4 u) (o+11+i)).toNat = _
  rw [State.splice, if_pos hin, Nat.add_sub_cancel_left, word, if_pos hi, UInt8.toNat_ofNat']

theorem overwrite_used : (overwrite p o u).rd o .used = u / 256 % 65536 := by
  have h1 := @overwrite_byte o u p 1 (by decide)
  have h2 := @overwrite_byte o u p 2 (by decide)
  show ((overwrite p o u).data (o+11+1)).toNat+256*((overwrite p o u).data (o+11+2)).toNat = _
  rw [h1, h2]
  omega

theorem overwrite_realnext : (overwrite p o u).rd o .realnext / 256 = u % 256 := by
  have h0 := @overwrite_byte o u p 0 (by decide)
  have hlt := ((overwrite p o u).data (o+10)).toNat_lt
  show (((overwrite p o u).data (o+10)).toNat+256*((overwrite p o u).data (o+11+0)).toNat)/256 = _
  rw [h0]
  omega

theorem overwrite_status : (overwrite p o u).status o = u / 2^24 % 256 := by
  have h3 := @overwrite_byte o u p 3 (by decide)
  show ((overwrite p o u).data (o+11+3)).toNat = _
  rw [h3, show 256^3 = 2^24 by decide]

theorem freeLarge_setPool (q : Pool) (h : freeLarge s a = .ok s') :
    freeLarge (s.setPool b q) a = .ok (s'.setPool b q) := by
  rw [freeLarge] at h ⊢
  obtain ⟨⟨t, freed⟩, hdel, h⟩ := bind_ok_iff.mp h
  obtain ⟨heap, hfree, h⟩ := bind_ok_iff.mp h
  rw [Except.ok.injEq] at h
  subst h
  have hdel' : deleteAddr (s.setPool b q).config.largeht a = .ok (t, freed) := hdel
  have hfree' : (s.setPool b q).heap.freeAll freed = .ok heap := hfree
  dsimp only
  rw [hdel', ok_bind]
  dsimp only
  rw [hfree', ok_bind]
  rfl

theorem pfree_setPool (q : Pool) (hc : Core s ps fs [] ls M B) (ha : a ∈ ls)
    (h : pfree s (a+largeSize) = .ok (s', 0)) :
    pfree (s.setPool b q) (a+largeSize) = .ok (s'.setPool b q, 0) := by
  have h0 : a+largeSize ≠ 0 := by
    rw [largeSize]
    omega
  have hsame : checkLargeInPool (s.setPool b q) a = checkLargeInPool s a := rfl
  have hcheck := hsame.trans (checkLarge_large hc ha)
  rw [pfree, if_neg h0, usub_largeSize hc ha] at h ⊢
  dsimp only at h ⊢
  rw [checkLarge_large hc ha, ok_bind, if_pos rfl] at h
  obtain ⟨t, hfree, h⟩ := bind_ok_iff.mp h
  rw [Except.ok.injEq, Prod.mk.injEq] at h
  rw [hcheck, ok_bind, if_pos rfl, freeLarge_setPool q hfree, ok_bind, h.1]

theorem view_setPool (q : Pool) (hc : Core s ps fs [] ls M B) (hb : b ∈ s.base :: ps)
    (ho : o ∈ B b) :
    view (s.setPool b q) (payload b o) = some ⟨false, q.rd o .used, q.rd o .size⟩ := by
  have hview := view_small hc hb ho
  rw [view] at hview ⊢
  have hany : ((s.setPool b q).heap.live.any
      fun c => c.kind = .large && c.addr+largeSize = payload b o) =
        s.heap.live.any fun c => c.kind = .large && c.addr+largeSize = payload b o := rfl
  have hhead : (s.setPool b q).header (payload b o-realdataSize) =
      s.header (payload b o-realdataSize) := rfl
  rw [hany, hhead]
  split at hview
  · rw [Option.some_inj] at hview
    have hl := congrArg View.large hview
    cases hl
  · next hno =>
    rw [if_neg hno, header_at hc hb ho]
    dsimp only
    rw [pools_setPool_self]

end Overwriting

section Chance

variable {env : Env} {s s' t u u₁ : State} {ps ps' fs fs' ls ls' M M' : List ℕ} {B B' : ℕ → List ℕ}
  {a b c e fuel k m n o q x y : ℕ} {v w : View}

/-- `palloc` finds a small block for a large one, and its header is right by chance: its
`realnext` ends in the lowest byte of the mark, the highest byte of the mark is the
status of a busy block, and the two bytes between make a mark that fits. Without a
registry nothing is copied, so the bytes have to be there too. -/
def Chance (env : Env) (fuel : ℕ) (s : State) (x : ℕ) (v : View) (newsize : ℕ) : Prop :=
  ∃ t q b o, palloc env fuel s newsize = .ok (t, some q) ∧
    t.header (q-realdataSize) = .ok (b, o) ∧ (t.pools b).rd o .realnext / 256 = v.used % 256 ∧
    v.used / 2^24 = 1 ∧ v.used / 256 % 65536+realdataSize ≤ (t.pools b).rd o .size ∧
    (s.config.ht = none → ∀ i < min (v.size-v.header) newsize, t.load env (q+i) = t.load env (x+i))

/-- A small block that replaces a large one, before its mark is written. -/
theorem moved_over (env : Env) (hc : Core t ps fs [] ls M B) (hreg : Registered t ps M) (he : e ∈ ls)
    (hb : b ∈ t.base :: ps) (ho : o ∈ B b) (hu : (t.pools b).rd o .used = 0)
    (hsize : c+largeSize = largeBytes (t.larges e))
    (hto : min c n+realdataSize ≤ (t.pools b).rd o .size)
    (hmove : moveLarge env t (e+largeSize) (payload b o) n = .ok u) :
    ∃ u₁ m, u = u₁.setPool b (overwrite (u₁.pools b) o (largeUsed (t.larges e))) ∧
      m+realdataSize ≤ (t.pools b).rd o .size ∧
      Filled env t u₁ ps fs ls M B (payload b o) (e+largeSize) 0 (smallView t b o) m ∧
      ((t.config.ht = none →
          ∀ i < min c n, t.load env (payload b o+i) = t.load env (e+largeSize+i)) →
        Filled env t u₁ ps fs ls M B (payload b o) (e+largeSize) (min c n) (smallView t b o) m) ∧
      (t.config.ht = none → u₁ = t) := by
  have hview := view_small hc hb ho
  by_cases hM : b ∈ M
  · have hne := registry_some hc hM
    obtain ⟨u₁, hfill, hrun⟩ := moveLarge_small env hc he hb ho hM hu hsize hto
    rw [hmove, Except.ok.injEq] at hrun
    exact ⟨u₁, _, hrun, hto, hfill.less (Nat.zero_le _), fun _ => hfill, fun h => absurd h hne⟩
  · have hnone : t.config.ht = none := by
      by_contra hne
      exact hM (hreg hne b hb)
    have hreal := checkRealdata_small hc hb ho
    rw [if_neg hM] at hreal
    rw [moveLarge] at hmove
    dsimp only at hmove
    rw [pmemcpyExtra_none env (checkLarge_small hc hb ho) hreal, ok_bind] at hmove
    dsimp only at hmove
    rw [usub_largeSize hc he, store_over hc hb ho, Except.ok.injEq] at hmove
    have h16 := (block_bounds hc hb ho).1
    refine ⟨t, 0, hmove.symm, ?_, ?_, fun h => ?_, fun _ => rfl⟩
    · rw [realdataSize]
      omega
    · exact filled_none hc hview hu fun _ hi => absurd hi (Nat.not_lt_zero _)
    · exact filled_none hc hview hu (h hnone)

theorem filled_realnext (hc : Core t ps fs [] ls M B) (hb : b ∈ t.base :: ps) (ho : o ∈ B b)
    (hfill : Filled env t u ps fs ls M B (payload b o) x k (smallView t b o) m) :
    (u.pools b).rd o .realnext = (t.pools b).rd o .realnext := by
  obtain ⟨T, L, hi, hL⟩ := hc.linked_inv hb
  obtain ⟨T', L', hi', hL'⟩ := hfill.core.linked_inv (hfill.linked hb)
  have hview := hfill.view
  rw [view_small hfill.core (hfill.linked hb) ho, Option.some_inj] at hview
  apply realnext_same hi hi' (hi.mem .busy o (hL ▸ ho)) (hi'.mem .busy o (hL' ▸ ho))
  · exact congrArg View.size hview
  · rw [hfill.untouched.pools b]

/-- The mark of a large block goes well over the header of a small one by chance only. -/
theorem chance_of_replaced {ret : ℤ} (hc : Core s ps fs [] ls M B)
    (ht : Core t ps' fs' [] ls' M' B') (hx : Block s.base ps ls B (e+largeSize))
    (hnone : t.config.ht = none ↔ s.config.ht = none) (he : e ∈ ls') (hb : b ∈ t.base :: ps')
    (ho : o ∈ B' b) (hpal : palloc env fuel s n = .ok (t, some (payload b o)))
    (hv : view s (e+largeSize) = some v) (hvt : view t (e+largeSize) = some v)
    (hroom : n+realdataSize ≤ (t.pools b).rd o .size)
    (hfill : Filled env t u₁ ps' fs' ls' M' B' (payload b o) (e+largeSize) 0 (smallView t b o) m)
    (hsame : t.config.ht = none → u₁ = t)
    (hfree : pfree (u₁.setPool b (overwrite (u₁.pools b) o v.used)) (e+largeSize) = .ok (s', ret))
    (h : Replaced env fuel s s' (e+largeSize) v n (payload b o)) :
    Chance env fuel s (e+largeSize) v n := by
  have hbu := hfill.linked hb
  have hlt : v.used < 2^32 := by
    rw [view_large ht he, Option.some_inj] at hvt
    rw [← hvt]
    exact load32_lt _ _
  -- the state `pfree` makes of the filled one, and the overwritten header in it
  obtain ⟨s₁, hrun, hc₁, hbase₁, hpools₁, -, -, -, -⟩ := pfree_large hfill.core he
  rw [pfree_setPool _ hfill.core he hrun, Except.ok.injEq, Prod.mk.injEq] at hfree
  obtain ⟨rfl, -⟩ := hfree
  have hb₁ : b ∈ s₁.base :: ps' := hbase₁.symm ▸ hbu
  have hlinks : ∀ c, Linked (s₁.setPool b (overwrite (u₁.pools b) o v.used)) c ↔ Linked s₁ c := by
    intro c
    have hnext : (fun y => ((s₁.setPool b (overwrite (u₁.pools b) o v.used)).pools y).next) =
        fun y => (s₁.pools y).next := by
      funext y
      by_cases hy : y = b
      · rw [hy, pools_setPool_self, hpools₁]
        rfl
      · rw [pools_setPool_ne _ _ hy]
    rw [Linked, Linked, hnext]
    exact Iff.rfl
  obtain ⟨T', L', hi'⟩ := h.sound b ((hlinks b).mpr ((linked_iff hc₁).mpr hb₁))
  rw [pools_setPool_self] at hi'
  -- the new block is out, so it is a busy one of the overwritten pool
  have hbusy : o ∈ L' .busy := by
    rcases (h.live (payload b o)).mpr (Or.inl rfl) with ⟨c, r, hcl, hr, heq⟩ | ⟨a, ha, heq⟩
    · have hcm := (linked_iff hc₁).mp ((hlinks c).mp hcl)
      by_cases hcb : c = b
      · subst hcb
        rw [pools_setPool_self] at hr
        obtain rfl : o = r := by
          simp only [payload] at heq
          omega
        exact (busy_iff ⟨T', L', hi', rfl⟩).mp hr
      · rw [pools_setPool_ne _ _ hcb] at hr
        have hrB := (busy_iff (hc₁.linked_inv hcm)).mp hr
        exact absurd (payload_inj hc₁ hb₁ ho hcm hrB heq).1 (Ne.symm hcb)
    · have ha' := (holds_iff hc₁.largeht).mp ha
      exact absurd heq (payload_ne_large hc₁ hb₁ ho ha')
  obtain ⟨hoT', hst⟩ := (hi'.mem_busy o).mp hbusy
  rw [overwrite_status] at hst
  -- its size gives the link to the next block
  obtain ⟨T, L, hheap, hL⟩ := hfill.core.linked_inv hbu
  have hnext := realnext_same hheap hi' (hheap.mem .busy o (hL ▸ ho)) hoT' overwrite_size rfl
  have hreal := @overwrite_realnext o v.used (u₁.pools b)
  rw [hnext, filled_realnext ht hb ho hfill] at hreal
  -- and its mark is what the contract says
  obtain ⟨t', w, m', hpal', hw, -, hview, hfit, -⟩ := h.fresh
  rw [hpal, Except.ok.injEq, Prod.mk.injEq] at hpal'
  obtain ⟨rfl, -⟩ := hpal'
  rw [view_small ht hb ho, Option.some_inj] at hw
  subst hw
  rw [view_setPool _ hc₁ hb₁ ho, Option.some_inj, overwrite_used] at hview
  have hm : v.used / 256 % 65536 = m' := congrArg View.used hview
  refine ⟨t, payload b o, b, o, hpal, header_at ht hb ho, hreal, by omega, hm ▸ hfit, fun hn i hi => ?_⟩
  obtain rfl := (hsame (hnone.mpr hn)).symm
  have hcopied := h.copied i hi
  obtain ⟨v', hv', -, hold⟩ := palloc_stays env fuel hc hx hpal
  obtain rfl : v = v' := Option.some_inj.mp (hv.symm.trans hv')
  rw [hold i (by omega), ← hcopied]
  -- the payload is not overwritten
  have hcov : Covers (smallView t b o) (payload b o) (payload b o+i) := by
    refine ⟨Nat.le_trans (Nat.le_add_right _ i) (Nat.le_add_right _ _), ?_⟩
    show payload b o+i+realdataSize < payload b o+(t.pools b).rd o .size
    omega
  have hview₁ : smallView s₁ b o = smallView t b o := by
    rw [smallView, smallView, hpools₁]
  have hkept : s₁.load env (payload b o+i) = t.load env (payload b o+i) := by
    rw [load_small env ht hb ho hcov, load_small env hc₁ hb₁ ho (hview₁.symm ▸ hcov), hpools₁]
  rw [← hkept]
  by_contra hne
  have hne' := Ne.symm hne
  rw [overwrite, ← hpools₁] at hne'
  obtain ⟨-, hdiff⟩ := load_setPool hne'
  apply hdiff
  apply splice_outside
  simp only [payload, realdataSize]
  omega

/-- By chance the header is right. -/
theorem chance_filled (hc : Core t ps' fs' [] ls' M' B')
    (hnone : t.config.ht = none ↔ s.config.ht = none) (hb : b ∈ t.base :: ps')
    (ho : o ∈ B' b) (hpal : palloc env fuel s n = .ok (t, some (payload b o)))
    (hm : m+realdataSize ≤ (t.pools b).rd o .size)
    (hmore : (t.config.ht = none → ∀ i < min (v.size-v.header) n,
        t.load env (payload b o+i) = t.load env (x+i)) →
      Filled env t u₁ ps' fs' ls' M' B' (payload b o) x (min (v.size-v.header) n)
        (smallView t b o) m)
    (h : Chance env fuel s x v n) :
    v.used / 256 % 65536+realdataSize ≤ (t.pools b).rd o .size ∧
      Filled env t (u₁.setPool b (overwrite (u₁.pools b) o v.used)) ps' fs' ls' M' B' (payload b o) x
        (min (v.size-v.header) n) (smallView t b o) (v.used / 256 % 65536) := by
  obtain ⟨t', q, c, r, hpal', hhead, hreal, htop, hfit, hcopy⟩ := h
  rw [hpal, Except.ok.injEq, Prod.mk.injEq, Option.some_inj] at hpal'
  obtain ⟨rfl, rfl⟩ := hpal'
  rw [header_at hc hb ho, Except.ok.injEq, Prod.mk.injEq] at hhead
  obtain ⟨rfl, rfl⟩ := hhead
  have hfill := hmore fun hn => hcopy (hnone.mp hn)
  have hst := (block_bounds hfill.core (hfill.linked hb) ho).2.2.2
  have hbyte : ((u₁.pools b).data (o+11)).toNat = v.used % 256 := by
    rw [← filled_realnext hc hb ho hfill] at hreal
    have hlt := ((u₁.pools b).data (o+10)).toNat_lt
    have hrd : (u₁.pools b).rd o .realnext =
        ((u₁.pools b).data (o+10)).toNat+256*((u₁.pools b).data (o+11)).toNat := rfl
    omega
  have hover : overwrite (u₁.pools b) o v.used =
      (u₁.pools b).setRd o .used (v.used / 256 % 65536) := splice_over hbyte (hst.trans htop.symm)
  rw [hover]
  exact ⟨hfit, hfill.mark_small hc hb ho rfl hm (Nat.mod_lt (v.used / 256) (by decide))⟩

end Chance

section Condition

variable {env : Env} {s₀ s s' t u : State} {live ps ps' fs fs' ls ls' M M' : List ℕ}
  {B B' : ℕ → List ℕ} {fuel n q x : ℕ} {v w : View} {res : Option ℕ}

def newMark (v : View) : ℕ :=
  if v.large then v.used else (v.size-realdataSize) % 256+256*v.used

def Fitting (env : Env) (fuel : ℕ) (s : State) (x : ℕ) (v : View) (newsize : ℕ) : Prop :=
  if threshold s < newsize then
    newsize+19 < 2^32 ∧ newMark v+largeSize ≤ memalign (newsize+largeSize)
  else v.large = true → Chance env fuel s x v newsize

def Grows (env : Env) (fuel : ℕ) (s : State) (x : ℕ) (v : View) (newsize : ℕ) : Prop :=
  (∃ t, palloc env fuel s newsize = .ok (t, none)) ∨
    (Asks s v newsize ∧ Fitting env fuel s x v newsize) ∨
    (¬Asks s v newsize ∧ newsize+v.header ≤ v.size)

structure Given (s₀ s t : State) (live ps ps' fs' ls ls' M' : List ℕ) (B B' : ℕ → List ℕ)
    (n q : ℕ) (w : View) : Prop where
  inv : Inv s₀ t (q :: live) ps' fs' ls' M' B'
  view : view t q = some w
  used : w.used = 0
  blocks : ∀ y, Block t.base ps' ls' B' y ↔ y = q ∨ Block s.base ps ls B y
  new : ¬Block s.base ps ls B q
  pools : ∀ p ∈ s.base :: ps, ∀ r ∈ B p, p ∈ t.base :: ps' ∧ r ∈ B' p
  larges : ∀ a ∈ ls, a ∈ ls'
  ht : t.config.ht = none ↔ s.config.ht = none
  kind : w.large = true ↔ threshold s < n
  small : w.large = false → n+realdataSize ≤ w.size
  large : w.large = true → w.size = memalign ((n+largeSize) % 2^32)

theorem palloc_given (hI : Inv s₀ s live ps fs ls M B)
    (hpal : palloc env fuel s n = .ok (t, some q)) :
    ∃ ps' fs' ls' M' B' w, Given s₀ s t live ps ps' fs' ls ls' M' B B' n q w := by
  have hc := hI.core
  have hthr := threshold_eq hc.config
  have hsz := hc.config.size
  simp only [SizeOk, mempoolSize, realdataSize] at hsz
  obtain ⟨ps', fs', ls', M', B', hct, hst, hlg, hacct, hreg, hout⟩ := palloc_spec env fuel hc hpal
  have hI' := outcome_inv hI hct hst hlg (hacct hI.acct).1 (hreg hI.registered) hout
  have hblocks : ∀ y, Block t.base ps' ls' B' y ↔ y = q ∨ Block s.base ps ls B y := by
    intro y
    rw [hst.base, outcome_block hout y]
    simp
  have hpools : ∀ p ∈ s.base :: ps, ∀ r ∈ B p, p ∈ t.base :: ps' ∧ r ∈ B' p := by
    intro p hp r hr
    rw [hst.base]
    exact outcome_old hout hp hr
  have hnew : ¬Block s.base ps ls B q := outcome_new hct hst.base hout
  refine ⟨ps', fs', ls', M', B', ?_⟩
  cases hout with
  | small b o h hl hsmall hu =>
    have hb : b ∈ t.base :: ps' := hst.base.symm ▸ h.mem
    have ho : o ∈ B' b := (h.busy b h.mem o).mpr (Or.inr ⟨rfl, rfl⟩)
    refine ⟨_, hI', view_small hct hb ho, hu, hblocks, hnew, hpools, fun a ha => hl ▸ ha, hst.ht,
      ?_, fun _ => h.fits, fun hf => by cases hf⟩
    · constructor
      · intro hf
        cases hf
      · intro hbig
        omega
  | large a hp hM hB hl hfresh hbig hf hn hu =>
    have ha : a ∈ ls' := hl ▸ List.mem_cons_self
    refine ⟨_, hI', view_large hct ha, hu, hblocks, hnew, hpools,
      fun c hcl => hl ▸ List.mem_cons_of_mem _ hcl, hst.ht, ?_, (fun hf => by cases hf),
      fun _ => hn⟩
    · exact ⟨fun _ => by omega, fun _ => rfl⟩

/-- The copy and the mark, unless a small block replaces a large one. -/
theorem moved_filled (hc : Core s ps fs [] ls M B)
    (hg : Given s₀ s t live ps ps' fs' ls ls' M' B B' n q w)
    (hpal : palloc env fuel s n = .ok (t, some q)) (hx : Block s.base ps ls B x)
    (hv : view s x = some v) (hfit : v.used+v.header ≤ v.size) (hasks : Asks s v n)
    (hroom : n+w.header ≤ w.size) (hkind : w.large = true ∨ v.large = false)
    (hmove : Moved env t u (s.base :: ps) ls M B q n x) :
    Filled env t u ps' fs' ls' M' B' q x (min (v.size-v.header) n) w
      (if w.large then newMark v else v.used) := by
  have hct := hg.inv.core
  obtain ⟨v', hv', hvt, -⟩ := palloc_stays env fuel hc hx hpal
  obtain rfl : v = v' := Option.some_inj.mp (hv.symm.trans hv')
  have hqx : x ≠ q := fun h => hg.new (h ▸ hx)
  have hu := hg.used
  have hview := hg.view
  cases hmove with
  | small p r hp hr hM hmove =>
    obtain ⟨hpt, hrt⟩ := hg.pools p hp r hr
    rw [view_small hct hpt hrt, Option.some_inj] at hvt
    subst hvt
    obtain ⟨hht, hlt⟩ : s.config.ht ≠ none ∧ (t.pools p).rd r .size < n := hasks
    have hroom' : (t.pools p).rd r .used+realdataSize ≤ (t.pools p).rd r .size := hfit
    have hk : min ((smallView t p r).size-(smallView t p r).header) n =
        (t.pools p).rd r .size-realdataSize := by
      show min ((t.pools p).rd r .size-realdataSize) n = _
      omega
    rw [hk]
    rcases hg.inv.held q List.mem_cons_self with ⟨b, hb, o, ho, rfl⟩ | ⟨a, ha, rfl⟩
    · rw [view_small hct hb ho, Option.some_inj] at hview
      subst hview
      have hto : n+realdataSize ≤ (t.pools b).rd o .size := hroom
      have hMb := hg.inv.registered (fun h => hht (hg.ht.mp h)) b hb
      obtain ⟨u', hrun, hfill⟩ := moveSmall_small (n := n) env hct hpt hrt hb ho hMb hu hqx
        (Nat.sub_add_cancel (by omega)) (by omega) (by omega)
      rw [hmove, Except.ok.injEq] at hrun
      exact hrun ▸ hfill
    · rw [view_large hct ha, Option.some_inj] at hview
      subst hview
      have hto : n+largeSize ≤ largeBytes (t.larges a) := hroom
      obtain ⟨u', hrun, hfill⟩ := moveSmall_large (n := n) env hct hpt hrt ha hu
        (Nat.sub_add_cancel (by omega)) (by omega) (by omega)
      rw [hmove, Except.ok.injEq] at hrun
      exact hrun ▸ hfill
  | large e he hmove =>
    have het := hg.larges e he
    rw [view_large hct het, Option.some_inj] at hvt
    subst hvt
    have hroom' : largeUsed (t.larges e)+largeSize ≤ largeBytes (t.larges e) := hfit
    rcases hg.inv.held q List.mem_cons_self with ⟨b, hb, o, ho, rfl⟩ | ⟨a, ha, rfl⟩
    · rw [view_small hct hb ho, Option.some_inj] at hview
      subst hview
      rcases hkind with h | h
      · cases h
      · cases h
    · rw [view_large hct ha, Option.some_inj] at hview
      subst hview
      have hto : n+largeSize ≤ largeBytes (t.larges a) := hroom
      obtain ⟨u', hrun, hfill⟩ := moveLarge_large (n := n)
        (c := largeBytes (t.larges e)-largeSize) env hct het ha hu
        (fun h => hqx (h ▸ rfl)) (Nat.sub_add_cancel (by omega)) (by omega)
      rw [hmove, Except.ok.injEq] at hrun
      exact hrun ▸ hfill

theorem moved_registered (hc : Core s ps fs [] ls M B)
    (hg : Given s₀ s t live ps ps' fs' ls ls' M' B B' n q w)
    (hmove : Moved env t u (s.base :: ps) ls M B q n x) :
    ∀ b ∈ t.base :: ps', ∀ o ∈ B' b, x = payload b o → b ∈ M' := by
  intro b hb o ho heq
  cases hmove with
  | small p r hp hr hM hmove =>
    exact hg.inv.registered (fun h => registry_some hc hM (hg.ht.mp h)) b hb
  | large e he hmove =>
    exact absurd heq.symm (payload_ne_large hg.inv.core hb ho (hg.larges e he))

/-- A small block that replaces a large one. -/
theorem moved_large_small (hc : Core s ps fs [] ls M B)
    (hg : Given s₀ s t live ps ps' fs' ls ls' M' B B' n q w)
    (hpal : palloc env fuel s n = .ok (t, some q)) (hx : Block s.base ps ls B x)
    (hv : view s x = some v) (hfit : v.used+v.header ≤ v.size) (hlarge : w.large = false)
    (hold : v.large = true) (hmove : Moved env t u (s.base :: ps) ls M B q n x) :
    ∃ e b o u₁ m, x = e+largeSize ∧ q = payload b o ∧ w = smallView t b o ∧ e ∈ ls' ∧
      b ∈ t.base :: ps' ∧ o ∈ B' b ∧ u = u₁.setPool b (overwrite (u₁.pools b) o v.used) ∧
      m+realdataSize ≤ (t.pools b).rd o .size ∧
      Filled env t u₁ ps' fs' ls' M' B' q x 0 w m ∧
      ((t.config.ht = none → ∀ i < min (v.size-v.header) n, t.load env (q+i) = t.load env (x+i)) →
        Filled env t u₁ ps' fs' ls' M' B' q x (min (v.size-v.header) n) w m) ∧
      (t.config.ht = none → u₁ = t) := by
  have hct := hg.inv.core
  obtain ⟨v', hv', hvt, -⟩ := palloc_stays env fuel hc hx hpal
  obtain rfl : v = v' := Option.some_inj.mp (hv.symm.trans hv')
  have hle := hg.small hlarge
  cases hmove with
  | small p r hp hr hM hmove =>
    rw [view_small hc hp hr, Option.some_inj] at hv
    rw [← hv] at hold
    cases hold
  | large e he hmove =>
    have het := hg.larges e he
    have hview := hg.view
    rw [view_large hct het, Option.some_inj] at hvt
    subst hvt
    rcases hg.inv.held q List.mem_cons_self with ⟨b, hb, o, ho, rfl⟩ | ⟨a, ha, rfl⟩
    · rw [view_small hct hb ho, Option.some_inj] at hview
      subst hview
      obtain ⟨u₁, m, hu, hm, hfill, hmore, hsame⟩ := moved_over
        (c := largeBytes (t.larges e)-largeSize) env hct hg.inv.registered het hb ho hg.used
        (Nat.sub_add_cancel (Nat.le_trans (Nat.le_add_left _ _) hfit))
        (Nat.le_trans (Nat.add_le_add_right (Nat.min_le_right _ _) _) hle) hmove
      exact ⟨e, b, o, u₁, m, rfl, rfl, rfl, het, hb, ho, hu, hm, hfill, hmore, hsame⟩
    · rw [view_large hct ha, Option.some_inj] at hview
      rw [← hview] at hlarge
      cases hlarge

theorem room_iff (hn : n < 2^32) :
    n+largeSize ≤ memalign ((n+largeSize) % 2^32) ↔ n+19 < 2^32 := by
  rw [← memalign_fits hn, Nat.add_comm largeSize n]

/-- A block whose header is right was filled. -/
theorem fitting_filled (hI : Inv s₀ s live ps fs ls M B)
    (hg : Given s₀ s t live ps ps' fs' ls ls' M' B B' n q w) (hn : n < 2^32)
    (hpal : palloc env fuel s n = .ok (t, some q)) (hx : Block s.base ps ls B x)
    (hv : view s x = some v) (hfit : v.used+v.header ≤ v.size) (hasks : Asks s v n)
    (hmove : Moved env t u (s.base :: ps) ls M B q n x) (h : Fitting env fuel s x v n) :
    n+w.header ≤ w.size ∧ ∃ m, m+w.header ≤ w.size ∧
      Filled env t u ps' fs' ls' M' B' q x (min (v.size-v.header) n) w m := by
  have hc := hI.core
  cases hlarge : w.large with
  | true =>
    have hhead := header_of_large hlarge
    rw [Fitting, if_pos (hg.kind.mp hlarge)] at h
    have hsize := hg.large hlarge
    have hroom : n+w.header ≤ w.size := by
      rw [hhead, hsize]
      exact (room_iff hn).mpr h.1
    have hfill := moved_filled hc hg hpal hx hv hfit hasks hroom (Or.inl hlarge) hmove
    rw [hlarge, if_pos rfl] at hfill
    rw [Nat.mod_eq_of_lt (by rw [largeSize]; omega)] at hsize
    refine ⟨hroom, _, ?_, hfill⟩
    rw [hhead, hsize]
    exact h.2
  | false =>
    have hhead := header_of_small hlarge
    have hle := hg.small hlarge
    have hroom : n+w.header ≤ w.size := hhead.symm ▸ hle
    refine ⟨hroom, ?_⟩
    cases hold : v.large with
    | false =>
      have hfill := moved_filled hc hg hpal hx hv hfit hasks hroom (Or.inr hold) hmove
      rw [hlarge, if_neg Bool.false_ne_true] at hfill
      refine ⟨_, ?_, hfill⟩
      -- a small block asks for more bytes than it has
      rw [Asks, hold, if_neg Bool.false_ne_true] at hasks
      rw [header_of_small hold] at hfit
      omega
    | true =>
      have hthr : ¬threshold s < n := by
        rw [← hg.kind, hlarge]
        exact Bool.false_ne_true
      rw [Fitting, if_neg hthr] at h
      obtain ⟨e, b, o, u₁, m, rfl, rfl, rfl, -, hb, ho, rfl, hm, -, hmore, -⟩ :=
        moved_large_small hc hg hpal hx hv hfit hlarge hold hmove
      obtain ⟨hmark, hfill⟩ := chance_filled hg.inv.core hg.ht hb ho hpal hm hmore (h hold)
      exact ⟨_, hmark, hfill⟩

/-- A block that was replaced as the contract says has a header that is right. -/
theorem fitting_of_replaced {ret : ℤ} (hI : Inv s₀ s live ps fs ls M B)
    (hg : Given s₀ s t live ps ps' fs' ls ls' M' B B' n q w) (hn : n < 2^32)
    (hpal : palloc env fuel s n = .ok (t, some q)) (hx : Block s.base ps ls B x)
    (hv : view s x = some v) (hfit : v.used+v.header ≤ v.size) (hasks : Asks s v n)
    (hmove : Moved env t u (s.base :: ps) ls M B q n x) (hfree : pfree u x = .ok (s', ret))
    (h : Replaced env fuel s s' x v n q) : Fitting env fuel s x v n := by
  have hc := hI.core
  have hct := hg.inv.core
  cases hlarge : w.large with
  | true =>
    have hhead := header_of_large hlarge
    have hsize := hg.large hlarge
    have hroom : n+w.header ≤ w.size := by
      obtain ⟨t', w', m, hpal', hw, hle, -⟩ := h.fresh
      rw [hpal, Except.ok.injEq, Prod.mk.injEq] at hpal'
      obtain ⟨rfl, -⟩ := hpal'
      obtain rfl : w = w' := Option.some_inj.mp (hg.view.symm.trans hw)
      exact hle
    have hfill := moved_filled hc hg hpal hx hv hfit hasks hroom (Or.inl hlarge) hmove
    rw [hlarge, if_pos rfl] at hfill
    have hmark := (replaced_iff hc hct hx hg.blocks hg.new (moved_registered hc hg hmove)
      (fun a ha => (hg.inv.large a ha).1) hpal hv hg.view hroom hfill hfree).mp h
    rw [hhead, hsize, room_iff hn] at hroom
    rw [hhead, hsize, Nat.mod_eq_of_lt (by rw [largeSize]; omega)] at hmark
    rw [Fitting, if_pos (hg.kind.mp hlarge)]
    exact ⟨hroom, hmark⟩
  | false =>
    have hthr : ¬threshold s < n := by
      rw [← hg.kind, hlarge]
      exact Bool.false_ne_true
    rw [Fitting, if_neg hthr]
    intro hold
    have hle := hg.small hlarge
    obtain ⟨v', hv', hvt, -⟩ := palloc_stays env fuel hc hx hpal
    obtain rfl : v = v' := Option.some_inj.mp (hv.symm.trans hv')
    obtain ⟨e, b, o, u₁, m, rfl, rfl, rfl, he, hb, ho, rfl, -, hfill, -, hsame⟩ :=
      moved_large_small hc hg hpal hx hv hfit hlarge hold hmove
    exact chance_of_replaced hc hct hx hg.ht he hb ho hpal hv hvt hle hfill hsame hfree h

theorem replaced_fitting {ret : ℤ} (hI : Inv s₀ s live ps fs ls M B)
    (hg : Given s₀ s t live ps ps' fs' ls ls' M' B B' n q w) (hn : n < 2^32)
    (hpal : palloc env fuel s n = .ok (t, some q)) (hx : Block s.base ps ls B x)
    (hv : view s x = some v) (hfit : v.used+v.header ≤ v.size) (hasks : Asks s v n)
    (hmove : Moved env t u (s.base :: ps) ls M B q n x) (hfree : pfree u x = .ok (s', ret)) :
    Replaced env fuel s s' x v n q ↔ Fitting env fuel s x v n := by
  refine ⟨fitting_of_replaced hI hg hn hpal hx hv hfit hasks hmove hfree, fun h => ?_⟩
  obtain ⟨hroom, m, hmark, hfill⟩ := fitting_filled hI hg hn hpal hx hv hfit hasks hmove h
  exact (replaced_iff hI.core hg.inv.core hx hg.blocks hg.new (moved_registered hI.core hg hmove)
    (fun a ha => (hg.inv.large a ha).1) hpal hv hg.view hroom hfill hfree).mpr hmark

/-- Where a call returns, it keeps the contract exactly when it is one of those. -/
theorem regrown_iff (hI : Inv s₀ s live ps fs ls M B) (hx : x ∈ live) (hn : n < 2^32)
    (hv : view s x = some v) (hfit : v.used+v.header ≤ v.size)
    (hrun : prealloc env fuel s x n = .ok (s', res)) :
    Regrown env fuel s s' x v n res ↔ Grows env fuel s x v n := by
  have hc := hI.core
  have hblock := hI.held x hx
  rcases prealloc_cases hc hI.registered hblock hv hrun with
    ⟨hno, rfl, rfl⟩ | ⟨hasks, ⟨hpal, rfl⟩ | ⟨t, q, u, ret, hpal, rfl, hmove, hfree⟩⟩
  · have hkept : Live s' x ∧ Stays env s' s' x := ⟨(live_iff hc).mpr hblock, stays_refl hc hblock⟩
    constructor
    · rintro ⟨-, -, hpal | hle⟩
      · exact Or.inl hpal
      · exact Or.inr (Or.inr ⟨hno, hle⟩)
    · rintro (hpal | ⟨hasks, -⟩ | ⟨-, hle⟩)
      · exact ⟨hkept.1, hkept.2, Or.inl hpal⟩
      · exact absurd hasks hno
      · exact ⟨hkept.1, hkept.2, Or.inr hle⟩
  · obtain ⟨ps', fs', ls', M', B', hc', hst, -, -, -, hout⟩ := palloc_spec env fuel hc hpal
    have hlive : Live s' x := by
      rw [live_iff hc', hst.base, outcome_block hout]
      exact Or.inr hblock
    exact ⟨fun _ => Or.inl ⟨s', hpal⟩,
      fun _ => ⟨hlive, palloc_stays env fuel hc hblock hpal, Or.inl ⟨s', hpal⟩⟩⟩
  · obtain ⟨ps', fs', ls', M', B', w, hg⟩ := palloc_given hI hpal
    refine (replaced_fitting hI hg hn hpal hblock hv hfit hasks hmove hfree).trans ?_
    constructor
    · exact fun h => Or.inr (Or.inl ⟨hasks, h⟩)
    · rintro (⟨t', hpal'⟩ | ⟨-, h⟩ | ⟨hno, -⟩)
      · rw [hpal] at hpal'
        cases hpal'
      · exact h
      · exact absurd hasks hno

theorem grows_shrunk (h : Grows env fuel s x v n) (hpal : palloc env fuel s n = .ok (t, some q))
    (hold : v.large = true) (hne : v.size ≠ n) (hthr : ¬threshold s < n) :
    Chance env fuel s x v n := by
  rcases h with ⟨t', hpal'⟩ | ⟨-, hfit⟩ | ⟨hno, -⟩
  · rw [hpal] at hpal'
    cases hpal'
  · rw [Fitting, if_neg hthr] at hfit
    exact hfit hold
  · rw [Asks, if_pos hold] at hno
    exact absurd hne hno

end Condition

section Runs

variable {env : Env} {s₀ s s' t u : State} {live ps ps' fs fs' ls ls' M M' : List ℕ}
  {B B' : ℕ → List ℕ} {b fuel m n o q x : ℕ} {v w : View} {res : Option ℕ}

/-- A run that also calls `prealloc` on live blocks, where it keeps its contract. -/
inductive GrowRun (env : Env) (s₀ : State) : State → List ℕ → Prop
  | start : GrowRun env s₀ s₀ []
  | step {s s' : State} {live live' : List ℕ} (hrun : GrowRun env s₀ s live)
      (h : Step env s live s' live') : GrowRun env s₀ s' live'
  | kept {s s' : State} {live : List ℕ} (fuel addr newsize : ℕ) (v : View)
      (hrun : GrowRun env s₀ s live) (hd : addr ∈ live) (hn : newsize < 2^32)
      (hv : view s addr = some v) (hfit : v.used+v.header ≤ v.size)
      (hok : Grows env fuel s addr v newsize)
      (h : prealloc env fuel s addr newsize = .ok (s', none)) : GrowRun env s₀ s' live
  | moved {s s' : State} {live : List ℕ} (fuel addr newsize q : ℕ) (v : View)
      (hrun : GrowRun env s₀ s live) (hd : addr ∈ live) (hn : newsize < 2^32)
      (hv : view s addr = some v) (hfit : v.used+v.header ≤ v.size)
      (hok : Grows env fuel s addr v newsize)
      (h : prealloc env fuel s addr newsize = .ok (s', some q)) :
      GrowRun env s₀ s' (q :: live.filter (· ≠ addr))

/-- A block that was moved as the contract says leaves the invariant. -/
theorem moved_inv (hI : Inv s₀ s live ps fs ls M B) (hx : x ∈ live) (hn : n < 2^32)
    (hv : view s x = some v) (hfit : v.used+v.header ≤ v.size) (hok : Grows env fuel s x v n)
    (hrun : prealloc env fuel s x n = .ok (s', some q)) :
    ∃ ps' fs' ls' M' B', Inv s₀ s' (q :: live.filter (· ≠ x)) ps' fs' ls' M' B' := by
  have hc := hI.core
  have hblock := hI.held x hx
  rcases prealloc_cases hc hI.registered hblock hv hrun with
    ⟨-, -, hno⟩ | ⟨hasks, ⟨-, hno⟩ | ⟨t, q', u, ret, hpal, hq, hmove, hfree⟩⟩
  · cases hno
  · cases hno
  · obtain rfl : q = q' := Option.some_inj.mp hq
    obtain ⟨ps', fs', ls', M', B', w, hg⟩ := palloc_given hI hpal
    have hfitting : Fitting env fuel s x v n := by
      rcases hok with ⟨t', hpal'⟩ | ⟨-, h⟩ | ⟨hno, -⟩
      · rw [hpal] at hpal'
        cases hpal'
      · exact h
      · exact absurd hasks hno
    obtain ⟨-, m, hmark, hfill⟩ := fitting_filled hI hg hn hpal hblock hv hfit hasks hmove hfitting
    have hIu := inv_marked hg.inv hfill.core (hfill.marked hmark)
    obtain ⟨ps₁, fs₁, ls₁, M₁, B₁, hI₁⟩ := pfree_inv hIu (List.mem_cons_of_mem q hx) hfree
    have hqx : q ≠ x := fun h => hg.new (h ▸ hblock)
    rw [List.filter_cons_of_pos (by simpa using hqx)] at hI₁
    exact ⟨ps₁, fs₁, ls₁, M₁, B₁, hI₁⟩

theorem kept_inv (hI : Inv s₀ s live ps fs ls M B) (hx : x ∈ live) (hv : view s x = some v)
    (hrun : prealloc env fuel s x n = .ok (s', none)) :
    ∃ ps' fs' ls' M' B', Inv s₀ s' live ps' fs' ls' M' B' := by
  have hc := hI.core
  rcases prealloc_cases hc hI.registered (hI.held x hx) hv hrun with
    ⟨-, rfl, -⟩ | ⟨-, ⟨hpal, -⟩ | ⟨t, q, u, ret, -, hno, -⟩⟩
  · exact ⟨ps, fs, ls, M, B, hI⟩
  · exact palloced_inv hI (palloc_spec env fuel hc hpal)
  · cases hno

theorem growRun_inv (hs : Start env s₀) (hr : Roomy s₀) (h : GrowRun env s₀ s live) :
    ∃ ps fs ls M B, Inv s₀ s live ps fs ls M B := by
  induction h with
  | start =>
    obtain ⟨M, hI⟩ := start_inv hs hr
    exact ⟨[], [], [], M, _, hI⟩
  | step hrun h ih =>
    obtain ⟨ps, fs, ls, M, B, hI⟩ := ih
    exact step_inv hI h
  | kept fuel addr newsize v hrun hd hn hv hfit hok h ih =>
    obtain ⟨ps, fs, ls, M, B, hI⟩ := ih
    exact kept_inv hI hd hv h
  | moved fuel addr newsize q v hrun hd hn hv hfit hok h ih =>
    obtain ⟨ps, fs, ls, M, B, hI⟩ := ih
    exact moved_inv hI hd hn hv hfit hok h

/-- In every state of such a run, for every live block whose mark fits, a call of
`prealloc` that returns keeps its contract exactly when it is one of those. -/
theorem prealloc_keeps_iff (env : Env) (s₀ s s' : State) (live : List ℕ) (fuel x n : ℕ) (v : View)
    (res : Option ℕ) (hs : Start env s₀) (hr : Roomy s₀) (hrun : GrowRun env s₀ s live)
    (hx : x ∈ live) (hn : n < 2^32) (hv : view s x = some v) (hfit : v.used+v.header ≤ v.size)
    (h : prealloc env fuel s x n = .ok (s', res)) :
    Regrown env fuel s s' x v n res ↔ Grows env fuel s x v n := by
  obtain ⟨ps, fs, ls, M, B, hI⟩ := growRun_inv hs hr hrun
  exact regrown_iff hI hx hn hv hfit h

/-- A block of 100 bytes grows to 200. -/
theorem prealloc_keeps_hundred : ∃ s s' v, prealloc (filled 0) 3 s 223 200 = .ok (s', some 338) ∧
    Regrown (filled 0) 3 s s' 223 v 200 (some 338) := by
  have hrun : (do
      let s₀ ← opened (filled 0) 4096 8192 4096 0
      let r ← palloc (filled 0) 3 s₀ 100
      let q ← prealloc (filled 0) 3 r.1 223 200
      .ok (r.2, q.2, r.2.bind (view r.1), r.1.config.ht.isSome, threshold r.1)) =
      (.ok (some 223, some 338, some ⟨false, 0, 115⟩, true, 3889) :
        Run (Option ℕ × Option ℕ × Option View × Bool × ℕ)) := by
    decide +kernel
  obtain ⟨s₀, h₀, hrun⟩ := bind_ok_iff.mp hrun
  obtain ⟨⟨s, r⟩, h₁, hrun⟩ := bind_ok_iff.mp hrun
  obtain ⟨⟨s', q⟩, h₂, hrun⟩ := bind_ok_iff.mp hrun
  simp only [Except.ok.injEq, Prod.mk.injEq] at hrun
  obtain ⟨rfl, rfl, hview, hht, hthr⟩ := hrun
  have hgrow := GrowRun.step .start (Step.palloc 3 100 (some 223) (by decide) h₁)
  refine ⟨s, s', ⟨false, 0, 115⟩, h₂, (prealloc_keeps_iff (filled 0) s₀ s s' _ 3 223 200 _ _
    (opened_start h₀).1 (opened_roomy h₀ (by decide)) hgrow (by simp) (by decide) hview (by decide)
    h₂).mpr (Or.inr (Or.inl ⟨⟨Option.isSome_iff_ne_none.mp hht, by decide⟩, ?_⟩))⟩
  rw [Fitting, hthr, if_neg (by decide)]
  intro hf
  cases hf

/-- A block of 5000 bytes shrunk to 100: the mark it had goes over the status of the
new block. -/
theorem prealloc_breaks : ¬∀ (env : Env) (s₀ s s' : State) (live : List ℕ) (fuel x n : ℕ) (v : View)
    (res : Option ℕ), Start env s₀ → Roomy s₀ → GrowRun env s₀ s live → x ∈ live → n < 2^32 →
      view s x = some v → v.used+v.header ≤ v.size → prealloc env fuel s x n = .ok (s', res) →
        Regrown env fuel s s' x v n res := by
  intro hall
  have hrun : (do
      let s₀ ← opened (filled 0) 4096 65536 65536 0
      let r ← palloc (filled 0) 3 s₀ 5000
      let q ← prealloc (filled 0) 3 r.1 4124 100
      let t ← palloc (filled 0) 3 r.1 100
      .ok (r.2, q.2, t.2, r.2.bind (view r.1), threshold r.1)) =
      (.ok (some 4124, some 223, some 223, some ⟨true, 0, 5016⟩, 3889) :
        Run (Option ℕ × Option ℕ × Option ℕ × Option View × ℕ)) := by
    decide +kernel
  obtain ⟨s₀, h₀, hrun⟩ := bind_ok_iff.mp hrun
  obtain ⟨⟨s, r⟩, h₁, hrun⟩ := bind_ok_iff.mp hrun
  obtain ⟨⟨s', q⟩, h₂, hrun⟩ := bind_ok_iff.mp hrun
  obtain ⟨⟨t, q'⟩, h₃, hrun⟩ := bind_ok_iff.mp hrun
  simp only [Except.ok.injEq, Prod.mk.injEq] at hrun
  obtain ⟨rfl, rfl, rfl, hview, hthr⟩ := hrun
  have hs := (opened_start h₀).1
  have hr := opened_roomy h₀ (by decide)
  have hgrow := GrowRun.step .start (Step.palloc 3 5000 (some 4124) (by decide) h₁)
  have hkept := hall (filled 0) s₀ s s' _ 3 4124 100 _ _ hs hr hgrow (by simp) (by decide) hview
    (by decide) h₂
  obtain ⟨ps, fs, ls, M, B, hI⟩ := growRun_inv hs hr hgrow
  have hgrows := (regrown_iff hI (by simp) (by decide) hview (by decide) h₂).mp hkept
  obtain ⟨-, -, -, -, -, -, -, htop, -⟩ :=
    grows_shrunk hgrows h₃ rfl (by decide) (by rw [hthr]; decide)
  exact absurd htop (by decide)

end Runs

end CLearning.MempoolPrealloc
