import CLearning.MempoolTables

/-!
# Failed allocations

`palloc` may fail to get a new pool, to register it, to get a large chunk or to
register that. Every failure leaves the blocks, the totals and the registries as
they were, except one: the null pool of a failed `malloc` is dereferenced.
-/

set_option autoImplicit false

namespace CLearning.MempoolFailure
open CLearning.Machine CLearning.LinkedLists CLearning.MempoolBytes CLearning.MempoolPool
open CLearning.MempoolHeap CLearning.MempoolServe CLearning.MpHash CLearning.MempoolState
open CLearning.Mempool CLearning.MempoolChain CLearning.MempoolRegistry CLearning.MempoolCore
open CLearning.MempoolGrow CLearning.MempoolAlloc CLearning.MempoolFree
open CLearning.MempoolStore CLearning.MempoolInit CLearning.MempoolFresh CLearning.MempoolRun
open CLearning.MempoolAppend CLearning.MempoolCache CLearning.MempoolTables

section Observed

variable {s s' : State} {ps ps' fs fs' ls M M' : List ℕ} {B B' : ℕ → List ℕ} {a b o x : ℕ}
  {t : Option (Table ℕ)} {free : Bool}

def Linked (s : State) (a : ℕ) : Prop := Meets (fun x => (s.pools x).next) (some s.base) a

def Parked (s : State) (a : ℕ) : Prop := Meets (fun x => (s.pools x).next) s.property.freepool a

def Busy (p : Pool) (o : ℕ) : Prop := Meets (fun x => ref (p.rd x .next)) p.busylist o

def Holds (t : Option (Table ℕ)) (a : ℕ) : Prop := a < 2^64 ∧ findAddr t a = .ok (some a)

def Live (s : State) (x : ℕ) : Prop :=
  (∃ b o, Linked s b ∧ Busy (s.pools b) o ∧ x = payload b o) ∨
    ∃ a, Holds s.config.largeht a ∧ x = a+largeSize

/-- What a failed call leaves: blocks, totals and registries as before, and no
pool that is neither registered nor parked. -/
structure Unchanged (s s' : State) : Prop where
  live : ∀ x, Live s' x ↔ Live s x
  alloced : s'.property.total_alloced = s.property.total_alloced
  leftsize : s'.property.total_leftsize = s.property.total_leftsize
  ht : ∀ a, Holds s'.config.ht a ↔ Holds s.config.ht a
  largeht : ∀ a, Holds s'.config.largeht a ↔ Holds s.config.largeht a
  reachable : ∀ a, Linked s' a ∨ Parked s' a → Holds s'.config.ht a ∨ Parked s' a
  kept : ∀ c ∈ s'.heap.live, c.kind = .pool → Linked s' c.addr ∨ Parked s' c.addr

theorem linked_iff (hc : Core s ps fs [] ls M B) : Linked s a ↔ a ∈ s.base :: ps :=
  Seg.meets (hc.chain.family.seg .linked)

theorem parked_iff (hc : Core s ps fs [] ls M B) : Parked s a ↔ a ∈ fs := by
  have hhead : s.property.freepool = fs.head? := hc.chain.family.head_eq .parked
  rw [Parked, hhead]
  exact Seg.meets (hc.chain.family.seg .parked)

theorem busy_iff {p : Pool} {Q : List ℕ} (h : PoolInv p Q) : Busy p o ↔ o ∈ Q := by
  obtain ⟨T, L, hi, rfl⟩ := h
  have hhead : p.busylist = (L .busy).head? := hi.lists.head_eq .busy
  rw [Busy, hhead]
  exact Seg.meets (hi.lists.seg .busy)

theorem holds_iff (h : Registers t free M) : Holds t a ↔ a ∈ M := by
  constructor
  · rintro ⟨hlt, hfind⟩
    rw [findAddr_spec h hlt] at hfind
    by_contra hn
    rw [if_neg hn] at hfind
    cases hfind
  · intro ha
    have hlt := (h.ok a ha).2
    refine ⟨hlt, ?_⟩
    rw [findAddr_spec h hlt, if_pos ha]

theorem live_iff (hc : Core s ps fs [] ls M B) : Live s x ↔ Block s.base ps ls B x := by
  simp only [Live, Block, linked_iff hc, holds_iff hc.largeht]
  constructor
  · rintro (⟨b, o, hb, ho, rfl⟩ | ha)
    · exact Or.inl ⟨b, hb, o, (busy_iff (hc.linked_inv hb)).mp ho, rfl⟩
    · exact Or.inr ha
  · rintro (⟨b, hb, o, ho, rfl⟩ | ha)
    · exact Or.inl ⟨b, o, hb, (busy_iff (hc.linked_inv hb)).mpr ho, rfl⟩
    · exact Or.inr ha

/-- The same lists, up to the order of the linked pools, look the same. -/
theorem unchanged_of_core (hc : Core s ps fs [] ls M B) (hc' : Core s' ps' fs' [] ls M B)
    (hp : ps'.Perm ps) (hb : s'.base = s.base)
    (hal : s'.property.total_alloced = s.property.total_alloced)
    (hle : s'.property.total_leftsize = s.property.total_leftsize)
    (hreg : ∀ a ∈ s.base :: ps, a ∈ M) : Unchanged s s' where
  live x := by
    have hiff : ∀ b, b ∈ s.base :: ps' ↔ b ∈ s.base :: ps := fun b => by simp [hp.mem_iff]
    rw [live_iff hc, live_iff hc', Block, Block, hb]
    simp only [hiff]
  alloced := hal
  leftsize := hle
  ht a := by rw [holds_iff hc.ht, holds_iff hc'.ht]
  largeht a := by rw [holds_iff hc.largeht, holds_iff hc'.largeht]
  reachable a h := by
    rw [linked_iff hc', hb, List.mem_cons, hp.mem_iff, ← List.mem_cons] at h
    rw [holds_iff hc'.ht]
    exact h.imp (hreg a) id
  kept c hcl hk := by
    rw [linked_iff hc', parked_iff hc']
    rcases (hc'.owned c).mp ⟨hcl, by rw [hk]; decide⟩ with ⟨a, ha, rfl⟩ | ⟨a, -, rfl⟩
    · simpa [poolChunk, or_assoc] using ha
    · cases hk

theorem not_unchanged (hc' : Core s' ps' fs' [] ls M B) (hht : s'.config.ht = none) :
    ¬Unchanged s s' := by
  intro h
  rcases h.reachable s'.base (Or.inl (.here _)) with hh | hh
  · rw [hht] at hh
    cases hh.2
  · exact hc'.chain.not_parked List.mem_cons_self ((parked_iff hc').mp hh)

end Observed

section Faults

variable {env : Env} {s s' : State} {ps fs xs ls M : List ℕ} {B : ℕ → List ℕ} {size : ℕ}

theorem idle_of_busylist {p : Pool} {Q : List ℕ} (h : PoolInv p Q) (hb : p.busylist = none) :
    Q = [] := by
  obtain ⟨T, L, hi, rfl⟩ := h
  have hhead : p.busylist = (L .busy).head? := hi.lists.head_eq .busy
  rw [hb] at hhead
  exact List.head?_eq_none_iff.mp hhead.symm

/-- The walk over the linked pools dereferences no null. -/
theorem searchPools_sound (fuel : ℕ) {tmp : Option ℕ} {n : ℕ}
    (hc : Core s ps fs xs ls M B) (hs : size ≤ s.config.pool_size-mempoolSize)
    (ht : ∀ a, tmp = some a → a ∈ s.base :: ps) :
    searchPools size fuel s tmp n ≠ .error .nullDeref := by
  induction fuel generalizing s ps tmp n with
  | zero =>
    intro h
    cases h
  | succ fuel ih =>
    cases tmp with
    | none =>
      intro h
      cases h
    | some tmp =>
      have htmp := ht tmp rfl
      have pass : ∀ (s₁ : State) (ps₁ : List ℕ) (m : ℕ) (c : Prop) [Decidable c]
          (nx : Option ℕ), Core s₁ ps₁ fs xs ls M B → Kept B s s₁ → ps₁.Perm ps →
          nx = (s.pools tmp).next →
          (if c then (.ok ⟨s₁, some tmp, none⟩ : Run Found)
            else searchPools size fuel s₁ nx m) ≠ .error .nullDeref := by
        intro s₁ ps₁ m c _ nx hc₁ hk hperm hnx
        split
        · intro h
          cases h
        · apply ih hc₁
          · rw [hk.config]
            exact hs
          · intro a ha
            have hmem := chain_next_mem hc.chain htmp (hnx ▸ ha)
            rw [hk.base]
            simpa [hperm.mem_iff] using hmem
      have hcount := countFailed_kept s tmp B
      rw [searchPools]
      by_cases hskip : (s.pools tmp).leftsize < size ∨
          mempoolGetFreelist (s.pools tmp) size = none
      · rw [if_pos hskip]
        by_cases hf : (s.pools tmp).failed < mempoolFailedSkip
        · simp only [if_pos hf, ok_bind]
          exact pass _ ps _ _ _ (countFailed_core hc tmp) hcount.1 (List.Perm.refl _) rfl
        · obtain ⟨s₂, ps₂, hrun₂, hperm, hc₂, hk₂, -⟩ := move2tail_core hc htmp
          simp only [if_neg hf, hrun₂, ok_bind]
          exact pass _ ps₂ _ _ _ hc₂ hk₂ hperm rfl
      · rw [if_neg hskip]
        cases htake : takeRealdata (s.pools tmp) size with
        | none =>
          cases hbusy : (s.pools tmp).busylist with
          | none =>
            -- an idle pool is one free block, which the search finds
            have hidle := idle_of_busylist (hc.linked_inv htmp) hbusy
            obtain ⟨q, o, hsome, -⟩ := searchPools_idle hc htmp hidle hs 0 0
            rw [htake] at hsome
            cases hsome
          | some b =>
            by_cases hf : (s.pools tmp).failed < mempoolFailedSkip
            · simp only [if_pos hf]
              exact pass _ ps _ _ _ (countFailed_core hc tmp) hcount.1 (List.Perm.refl _)
                (hcount.2.2.1 tmp).2
            · simp only [if_neg hf]
              exact pass _ ps _ _ _ hc (Kept.refl _ _) (List.Perm.refl _) rfl
        | some qo =>
          intro h
          cases h

theorem bind_sound {α β : Type} {e : Fault} {x : Run α} {f : α → Run β} (hx : x ≠ .error e)
    (hf : ∀ a, x = .ok a → f a ≠ .error e) : (x >>= f) ≠ .error e := by
  cases x with
  | error e' =>
    intro h
    exact hx (by cases h; rfl)
  | ok a => exact hf a rfl

theorem allocRealdata_sound (h16 : 16 ≤ size) (fuel : ℕ) {tmp : Option ℕ} {n : ℕ}
    (hc : Core s ps fs xs ls M B) (hs : size ≤ s.config.pool_size-mempoolSize)
    (ht : ∀ a, tmp = some a → a ∈ s.base :: ps) :
    allocRealdata size fuel s tmp n ≠ .error .nullDeref := by
  induction fuel generalizing s ps tmp n with
  | zero =>
    intro h
    cases h
  | succ fuel ih =>
    rw [allocRealdata]
    apply bind_sound (searchPools_sound _ hc hs ht)
    intro f hf
    obtain ⟨ps₁, -, hcase⟩ := searchPools_spec h16 _ hc ht hf
    rcases hcase with ⟨hnone, hc₁, hq, htmp⟩ | ⟨b, o, htmp, hsome, -⟩
    · cases hft : f.tmp with
      | none =>
        intro h
        cases h
      | some a =>
        have ha : a ∈ f.state.base :: ps₁ := by
          rw [hq.kept.base]
          exact htmp a hft
        have again : ∀ m, allocRealdata size fuel f.state (f.state.pools a).next m ≠
            .error .nullDeref := by
          intro m
          apply ih hc₁
          · rw [hq.kept.config]
            exact hs
          · exact fun x hx => chain_next_mem hc₁.chain ha hx
        simp only [hnone]
        split
        · split
          · exact again _
          · split
            · exact again _
            · intro h
              cases h
        · intro h
          cases h
    · intro h
      simp only [htmp, hsome] at h
      cases h

def Stocked (env : Env) (s : State) : Prop :=
  s.property.freepool ≠ none ∨ env.malloc s.heap.tick s.heap.live s.config.pool_size ≠ none

theorem getMempool_null (hc : Core s ps fs [] ls M B) (h : ¬Stocked env s) :
    getMempool env s = .error .nullDeref := by
  rw [Stocked, not_or, not_not, not_not] at h
  have htake : takeMempool env s =
      .ok ({ s with heap := ⟨s.heap.live, s.heap.tick+1⟩ }, none) := by
    rw [takeMempool, h.1]
    dsimp only
    rw [mempoolInitExtra]
    dsimp only
    rw [hc.config.again, Heap.malloc, h.2]
    rfl
  rw [getMempool, htake]
  rfl

theorem takeMempool_stocked (hc : Core s ps fs [] ls M B) (h : Stocked env s) :
    ∃ s₁ a, takeMempool env s = .ok (s₁, some a) := by
  cases hfree : s.property.freepool with
  | some a =>
    rw [takeMempool, hfree]
    exact ⟨_, a, rfl⟩
  | none =>
    rcases newPool_spec env s.heap hc.config.again s.config.max_searchpool with
      hn | ⟨a, f, p, hn, -⟩
    · rcases h with h | h
      · exact absurd hfree h
      · exfalso
        cases hm : env.malloc s.heap.tick s.heap.live s.config.pool_size with
        | none => exact h hm
        | some a =>
          have hm' : s.heap.malloc env s.config.pool_size .pool =
              (⟨⟨a, s.config.pool_size, .pool⟩ :: s.heap.live, s.heap.tick+1⟩, some a) := by
            rw [Heap.malloc, hm]
          simp only [mempoolInitExtra, hc.config.again, hm', mempoolSetMaxmem, Nat.lt_irrefl,
            gt_iff_lt, false_and, if_false, ok_bind, Except.ok.injEq, Prod.mk.injEq] at hn
          cases hn.2
    · rw [takeMempool, hfree]
      dsimp only
      rw [hn]
      exact ⟨_, a, rfl⟩

/-- With a pool in hand `__get_mempool` comes to an end; it hands none over when
there is no registry. -/
theorem getMempool_stocked (hc : Core s ps fs [] ls M B) (h : Stocked env s) :
    ∃ s₁ r, getMempool env s = .ok (s₁, r) ∧ (s.config.ht = none → r = none) := by
  obtain ⟨s₁, a, htake⟩ := takeMempool_stocked hc h
  rcases takeMempool_spec env hc htake with h | ⟨a', ha', hc₁, -, hg, hht, -⟩
  · cases h
  obtain rfl := Option.some.inj ha'
  have hrange := hc₁.range _ (hc₁.pool_live (a := a) (by simp))
  have haM : a ∉ M := by
    intro hM
    have hout := (hc₁.out a (by simp)).1
    rw [hg.base] at hout
    exact hout (by simpa using hc.registered a hM)
  obtain ⟨t', r', hins, -, hcase⟩ := insertAddr_spec hc₁.ht (a := a)
    ⟨hrange.1, by have := hrange.2.2; simp only [poolChunk] at this; omega⟩
  rw [getMempool, htake, ok_bind]
  dsimp only
  rw [hins, ok_bind]
  dsimp only
  split
  · next hr =>
    rcases hcase with ⟨h0, -⟩ | ⟨-, hreg⟩
    · exact absurd h0 hr
    have hc₂ : Core { s₁ with config := { s₁.config with ht := t' } } ps fs.tail [a] ls M B :=
      hc₁.setHt hreg hc₁.registered
    have hfree := (hc₂.dropPool haM).1
    dsimp only at hfree
    rw [hfree, ok_bind]
    exact ⟨_, none, rfl, fun _ => rfl⟩
  · next hr =>
    refine ⟨_, some a, rfl, fun hn => ?_⟩
    rw [← hht] at hn
    rw [hn, insertAddr, Except.ok.injEq, Prod.mk.injEq] at hins
    exact absurd (hins.2 ▸ (by decide : (-1 : ℤ) ≠ 0)) hr

end Faults

section Calls

variable {env : Env} {s s' : State} {ps fs ls M : List ℕ} {B : ℕ → List ℕ} {size : ℕ}
  {tmp : Option ℕ}

def AtCap (s : State) : Prop :=
  (s.property.total_alloced+2*s.config.pool_size) % 2^64 ≥ s.config.max_memsize

/-- The loop of `palloc` ends without a block only where it asks for a pool. -/
theorem allocAgain_none (h16 : 16 ≤ size) (fuel : ℕ) (hc : Core s ps fs [] ls M B)
    (hs : size ≤ s.config.pool_size-mempoolSize) (ht : ∀ a, tmp = some a → a ∈ s.base :: ps)
    (hrun : allocAgain env size fuel s tmp = .ok (s', none)) :
    ∃ s₁ ps₁, allocRealdata size fuel s tmp 0 = .ok (s₁, none) ∧ ps₁.Perm ps ∧
      Core s₁ ps₁ fs [] ls M B ∧ Quiet B s s₁ ∧
      (AtCap s₁ ∧ s' = s₁ ∨ ¬AtCap s₁ ∧ getMempool env s₁ = .ok (s', none)) := by
  cases fuel with
  | zero => cases hrun
  | succ fuel =>
    rw [allocAgain] at hrun
    obtain ⟨⟨s₁, r₁⟩, halloc, hrest⟩ := bind_ok_iff.mp hrun
    obtain ⟨ps₁, hp, hcase⟩ := allocRealdata_spec h16 _ hc ht halloc
    rcases hcase with ⟨rfl, hc₁, hq⟩ | ⟨b, o, rfl, -⟩
    · refine ⟨s₁, ps₁, halloc, hp, hc₁, hq, ?_⟩
      dsimp only at hrest
      split at hrest
      · next hcap =>
        rw [Except.ok.injEq, Prod.mk.injEq] at hrest
        exact Or.inl ⟨hcap, hrest.1.symm⟩
      · next hcap =>
        right
        obtain ⟨⟨s₂, np⟩, hget, hrest⟩ := bind_ok_iff.mp hrest
        cases np with
        | none =>
          rw [Except.ok.injEq, Prod.mk.injEq] at hrest
          obtain ⟨rfl, -⟩ := hrest
          exact ⟨hcap, hget⟩
        | some a =>
          -- a new pool serves the block
          exfalso
          obtain ⟨hgain, hcase⟩ := getMempool_spec env hc₁ hget
          rcases hcase with ⟨hn, -⟩ | ⟨a', ha', hc₂, hi₂, -⟩
          · cases hn
          obtain rfl := Option.some.inj ha'
          obtain ⟨hc₃, hk₃, -⟩ := linkMempool_core hc₂ hi₂
          have hsz : (linkMempool s₂ a).config.pool_size = s.config.pool_size := by
            rw [hk₃.config, hgain.config, hq.kept.config]
          cases fuel with
          | zero => cases hrest
          | succ fuel =>
            obtain ⟨s₄, o, hrun₄, -⟩ := allocRealdata_idle hc₃ (by simp)
              (Function.update_self ..) h16 (hsz.symm ▸ hs) fuel 0
            simp only [allocAgain, hrun₄, ok_bind] at hrest
            cases hrest
    · rw [Except.ok.injEq, Prod.mk.injEq] at hrest
      cases hrest.2

theorem allocAgain_asks (fuel : ℕ) {s₁ : State}
    (h : allocRealdata size fuel s tmp 0 = .ok (s₁, none)) (hcap : ¬AtCap s₁) :
    ∃ k, allocAgain env size fuel s tmp = (do
      let r ← getMempool env s₁
      match r.2 with
      | none => .ok (r.1, none)
      | some a => allocAgain env size k (linkMempool r.1 a) (some a)) := by
  cases fuel with
  | zero => cases h
  | succ fuel =>
    refine ⟨fuel, ?_⟩
    rw [AtCap] at hcap
    rw [allocAgain, h, ok_bind]
    dsimp only
    exact if_neg hcap

theorem allocAgain_sound (h16 : 16 ≤ size) (fuel : ℕ) (hc : Core s ps fs [] ls M B)
    (hs : size ≤ s.config.pool_size-mempoolSize) (ht : ∀ a, tmp = some a → a ∈ s.base :: ps)
    (hstock : ∀ s₁, allocRealdata size fuel s tmp 0 = .ok (s₁, none) → ¬AtCap s₁ →
      Stocked env s₁) :
    allocAgain env size fuel s tmp ≠ .error .nullDeref := by
  cases fuel with
  | zero =>
    intro h
    cases h
  | succ fuel =>
    rw [allocAgain]
    apply bind_sound (allocRealdata_sound h16 _ hc hs ht)
    rintro ⟨s₁, r₁⟩ halloc
    obtain ⟨ps₁, -, hcase⟩ := allocRealdata_spec h16 _ hc ht halloc
    rcases hcase with ⟨rfl, hc₁, hq⟩ | ⟨b, o, rfl, -⟩
    · dsimp only
      split
      · intro h
        cases h
      · next hcap =>
        obtain ⟨s₂, r, hget, -⟩ := getMempool_stocked hc₁ (hstock s₁ halloc hcap)
        rw [hget, ok_bind]
        cases r with
        | none =>
          intro h
          cases h
        | some a =>
          obtain ⟨hgain, hcase⟩ := getMempool_spec env hc₁ hget
          rcases hcase with ⟨hn, -⟩ | ⟨a', ha', hc₂, hi₂, -⟩
          · cases hn
          obtain rfl := Option.some.inj ha'
          obtain ⟨hc₃, hk₃, -⟩ := linkMempool_core hc₂ hi₂
          have hsz : (linkMempool s₂ a).config.pool_size = s.config.pool_size := by
            rw [hk₃.config, hgain.config, hq.kept.config]
          dsimp only
          cases fuel with
          | zero =>
            intro h
            cases h
          | succ fuel =>
            obtain ⟨s₄, o, hrun₄, -⟩ := allocRealdata_idle hc₃ (by simp)
              (Function.update_self ..) h16 (hsz.symm ▸ hs) fuel 0
            rw [allocAgain, hrun₄]
            intro h
            cases h
    · intro h
      cases h

/-- `__alloc_large` comes to an end: with a block if there is memory for it and room
in the registry. -/
theorem allocLarge_total (env : Env) (size : ℕ) (hc : Core s ps fs [] ls M B) :
    ∃ s' r, allocLarge env s size = .ok (s', r) ∧ (r ≠ none ↔
      env.malloc s.heap.tick s.heap.live (memalign ((size+largeSize) % 2^32)) ≠ none ∧
        elements s.config.largeht < buckets s.config.largeht) := by
  rw [registers_elements hc.largeht]
  cases hm : env.malloc s.heap.tick s.heap.live (memalign ((size+largeSize) % 2^32)) with
  | none =>
    refine ⟨{ s with heap := ⟨s.heap.live, s.heap.tick+1⟩ }, none, ?_, by simp⟩
    rw [allocLarge]
    dsimp only
    rw [Heap.malloc, hm]
  | some a =>
    have hrun : ∃ s' r, allocLarge env s size = .ok (s', r) := by
      rw [allocLarge]
      generalize memalign ((size+largeSize) % 2^32) = n at hm
      obtain ⟨h0, hr, -⟩ := env.fresh _ _ _ a .large hm
      obtain ⟨t', c, hins, -⟩ := insertAddr_spec hc.largeht (a := a) ⟨h0, by omega⟩
      dsimp only
      rw [Heap.malloc, hm]
      dsimp only
      have hins' : ∀ m, insertAddr (State.setLarge { s with
          heap := ⟨⟨a, n, .large⟩ :: s.heap.live, s.heap.tick+1⟩ } a m).config.largeht a =
          .ok (t', c) := fun _ => hins
      rw [hins', ok_bind]
      dsimp only
      split
      · exact ⟨_, _, rfl⟩
      · rw [Heap.free, if_pos ⟨_, List.mem_cons_self, rfl⟩]
        exact ⟨_, _, rfl⟩
    obtain ⟨s', r, hrun⟩ := hrun
    refine ⟨s', r, hrun, ?_⟩
    rw [allocLarge_room env hc (by rw [hm]; simp) hrun]
    simp

end Calls

section Failures

variable {env : Env} {s₀ s s' : State} {live ps fs ls M : List ℕ} {B : ℕ → List ℕ} {size : ℕ}

def Exhausted (env : Env) (s : State) (size : ℕ) : Prop :=
  ∃ fuel s₁, allocRealdata (size+realdataSize) fuel (judged env s size).1 (firstMempool s size) 0 =
    .ok (s₁, none)

/-- The one `malloc` whose failure is not tested succeeds or is not needed; where
there is no registry of pools nothing fails. -/
def Supplied (env : Env) (s : State) (size : ℕ) : Prop :=
  (threshold s < size → s.config.ht = none →
    env.malloc (judged env s size).1.heap.tick s.heap.live (memalign ((size+largeSize) % 2^32)) ≠
        none ∧ elements s.config.largeht < buckets s.config.largeht) ∧
  (size ≤ threshold s → Exhausted env s size → ¬AtCap s →
    Stocked env (judged env s size).1 ∧ s.config.ht ≠ none)

/-- No null pointer is dereferenced, and null because of a failure, not because of a
test, leaves everything as it was. -/
def Clean (env : Env) (s : State) (size : ℕ) : Prop :=
  ∀ fuel, palloc env fuel s size ≠ .error .nullDeref ∧
    ∀ s', palloc env fuel s size = .ok (s', none) → ¬Capped env s s' size → Unchanged s s'

theorem atCap_congr (ha : s'.property.total_alloced = s.property.total_alloced)
    (hp : s'.config.pool_size = s.config.pool_size)
    (hm : s'.config.max_memsize = s.config.max_memsize) : AtCap s' ↔ AtCap s := by
  rw [AtCap, AtCap, ha, hp, hm]

theorem quiet_atCap (h : Quiet B s s') : AtCap s' ↔ AtCap s :=
  atCap_congr h.kept.alloced (by rw [h.kept.config]) (by rw [h.kept.config])

theorem quiet_stocked {ps' : List ℕ} (hc : Core s ps fs [] ls M B)
    (hc' : Core s' ps' fs [] ls M B) (h : Quiet B s s') : Stocked env s' ↔ Stocked env s := by
  have hf : s'.property.freepool = s.property.freepool :=
    (hc'.chain.family.head_eq .parked).trans (hc.chain.family.head_eq .parked).symm
  rw [Stocked, Stocked, hf, h.kept.heap, h.kept.config]

theorem large_clean (hI : Inv s₀ s live ps fs ls M B) (hp : Passes env s size)
    (hs : threshold s < size) : Clean env s size ↔ (s.config.ht = none →
      env.malloc (judged env s size).1.heap.tick s.heap.live (memalign ((size+largeSize) % 2^32)) ≠
          none ∧ elements s.config.largeht < buckets s.config.largeht) := by
  obtain ⟨t, ht⟩ := judged_tick env s size
  have hc₁ := hI.core.tick t
  obtain ⟨s', r, hrun, hr⟩ := allocLarge_total env size hc₁
  have hpal : ∀ fuel, palloc env fuel s size = .ok (s', r) := by
    intro fuel
    rw [palloc_large fuel hp hs, ht]
    exact hrun
  have hopen : ¬Capped env s s' size := by
    rintro (h | ⟨h, -⟩)
    · exact h hp
    · omega
  obtain ⟨hbase, -, hcfg, -, -, hcase⟩ := allocLarge_spec env hc₁ hrun
  have hht : s'.config.ht = s.config.ht := by rw [hcfg]
  rw [ht]
  constructor
  · intro hclean hnone
    rw [← hr]
    rintro rfl
    rcases hcase with ⟨-, hc', -⟩ | ⟨a, ha, -⟩
    · exact not_unchanged hc' (hht.trans hnone) ((hclean 0).2 s' (hpal 0) hopen)
    · cases ha
  · intro hsup fuel
    rw [hpal]
    refine ⟨fun h => (by cases h), fun s'' h _ => ?_⟩
    rw [Except.ok.injEq, Prod.mk.injEq] at h
    obtain ⟨rfl, rfl⟩ := h
    rcases hcase with ⟨-, hc', hprop⟩ | ⟨a, ha, -⟩
    · apply unchanged_of_core hI.core hc' (List.Perm.refl _) hbase
      · rw [hprop]
      · rw [hprop]
      · apply hI.registered
        intro hnone
        exact (hr.mpr (hsup hnone)) rfl
    · cases ha

theorem small_clean (hI : Inv s₀ s live ps fs ls M B) (hp : Passes env s size)
    (hs : size ≤ threshold s) : Clean env s size ↔ (Exhausted env s size → ¬AtCap s →
      Stocked env (judged env s size).1 ∧ s.config.ht ≠ none) := by
  have hc := hI.core
  obtain ⟨t, ht⟩ := judged_tick env s size
  have hc₁ := hc.tick t
  have hsz := hc.config.size
  have hle := hs
  simp only [SizeOk, mempoolSize, realdataSize] at hsz
  rw [threshold_eq hc.config] at hle
  have h0 : 0 < size := by
    have href := hp.1
    simp only [refuses, Bool.or_eq_false_iff, decide_eq_false_iff_not] at href
    omega
  have h16 : 16 ≤ size+realdataSize := by
    rw [realdataSize]
    omega
  have hfit : size+realdataSize ≤ s.config.pool_size-mempoolSize := by
    rw [realdataSize, mempoolSize]
    omega
  have hfirst : ∀ a, firstMempool s size = some a → a ∈ s.base :: ps :=
    fun a ha => start_linked hc _ a ha
  rw [Clean, Exhausted]
  simp only [palloc_small _ hc hp hs, ht]
  constructor
  · rintro hclean ⟨fuel, s₁, halloc⟩ hcap
    obtain ⟨hfault, hunch⟩ := hclean fuel
    obtain ⟨ps₁, hperm, hcase⟩ := allocRealdata_spec h16 _ hc₁ hfirst halloc
    rcases hcase with ⟨-, hc₂, hq⟩ | ⟨b, o, hsome, -⟩
    swap
    · cases hsome
    have hcap₁ : ¬AtCap s₁ := fun h => hcap ((quiet_atCap hq).mp h)
    obtain ⟨k, hasks⟩ := @allocAgain_asks env _ _ _ fuel s₁ halloc hcap₁
    rw [hasks] at hfault hunch
    have hst : Stocked env s₁ := by
      by_contra hno
      rw [getMempool_null hc₂ hno] at hfault
      exact hfault rfl
    refine ⟨(quiet_stocked hc₁ hc₂ hq).mp hst, fun hnone => ?_⟩
    obtain ⟨s₂, r, hget, hr⟩ := getMempool_stocked hc₂ hst
    have hnone₁ : s₁.config.ht = none := by
      rw [hq.kept.config]
      exact hnone
    obtain rfl := hr hnone₁
    obtain ⟨hg, hcase⟩ := getMempool_spec env hc₂ hget
    rcases hcase with ⟨-, hc₃, hal, -⟩ | ⟨a, ha, -⟩
    · rw [hget] at hunch
      refine not_unchanged hc₃ (hg.created.mpr hnone₁) (hunch s₂ rfl ?_)
      have hcap₂ : ¬AtCap s₂ := by
        rw [atCap_congr hal (by rw [hg.config]) (by rw [hg.config])]
        exact hcap₁
      rintro (h | ⟨-, h⟩)
      · exact h hp
      · apply hcap₂
        rw [AtCap, hg.config, hq.kept.config]
        exact h
    · cases ha
  · intro hsup fuel
    have hstock : ∀ s₁, allocRealdata (size+realdataSize) fuel { s with heap := ⟨s.heap.live, t⟩ }
        (firstMempool s size) 0 = .ok (s₁, none) → ¬AtCap s₁ →
        Stocked env s₁ ∧ s.config.ht ≠ none := by
      intro s₁ halloc hcap₁
      obtain ⟨ps₁, hperm, hcase⟩ := allocRealdata_spec h16 _ hc₁ hfirst halloc
      rcases hcase with ⟨-, hc₂, hq⟩ | ⟨b, o, hsome, -⟩
      · obtain ⟨hst, hne⟩ := hsup ⟨fuel, s₁, halloc⟩ fun h => hcap₁ ((quiet_atCap hq).mpr h)
        exact ⟨(quiet_stocked hc₁ hc₂ hq).mpr hst, hne⟩
      · cases hsome
    constructor
    · apply bind_sound
      · exact allocAgain_sound h16 fuel hc₁ hfit hfirst fun s₁ ha hcap => (hstock s₁ ha hcap).1
      · rintro ⟨u, _ | b⟩ - h
        · cases h
        · cases h
    · intro s' hrun hopen
      obtain ⟨⟨s₂, b⟩, hagain, hrest⟩ := bind_ok_iff.mp hrun
      cases b with
      | some b =>
        rw [Except.ok.injEq, Prod.mk.injEq] at hrest
        cases hrest.2
      | none =>
        rw [Except.ok.injEq, Prod.mk.injEq] at hrest
        obtain ⟨rfl, -⟩ := hrest
        obtain ⟨s₁, ps₁, halloc, hperm, hc₂, hq, hcase⟩ := allocAgain_none h16 fuel hc₁ hfit hfirst
          hagain
        rcases hcase with ⟨hcap, rfl⟩ | ⟨hcap, hget⟩
        · exfalso
          apply hopen
          rw [AtCap, hq.kept.config] at hcap
          exact Or.inr ⟨hs, hcap⟩
        · have hne := (hstock s₁ halloc hcap).2
          obtain ⟨hg, hcase⟩ := getMempool_spec env hc₂ hget
          rcases hcase with ⟨-, hc₃, hal, hle⟩ | ⟨a, ha, -⟩
          · exact unchanged_of_core hc hc₃ hperm (hg.base.trans hq.kept.base)
              (hal.trans hq.kept.alloced) (hle.trans hq.kept.leftsize) (hI.registered hne)
          · cases ha

/-- A failed allocation is clean exactly when the pool `__get_mempool` needs is
there: the result of its `malloc` is used unseen. -/
theorem failure_clean_iff (env : Env) (s₀ s : State) (live : List ℕ) (size : ℕ)
    (hs : Start env s₀) (hr : Roomy s₀) (hreach : Reach env s₀ s live) :
    Clean env s size ↔ (Passes env s size → Supplied env s size) := by
  obtain ⟨ps, fs, ls, M, B, hI⟩ := reach_inv hs hr hreach
  by_cases hp : Passes env s size
  · by_cases hbig : threshold s < size
    · rw [large_clean hI hp hbig, Supplied]
      constructor
      · exact fun h _ => ⟨fun _ => h, fun h' => by omega⟩
      · exact fun h => (h hp).1 hbig
    · rw [Nat.not_lt] at hbig
      rw [small_clean hI hp hbig, Supplied]
      constructor
      · exact fun h _ => ⟨fun h' => by omega, fun _ => h⟩
      · exact fun h => (h hp).2 hbig
  · constructor
    · exact fun _ h => absurd h hp
    · intro _ fuel
      obtain ⟨s', hrun, -⟩ := palloc_refused fuel hp
      rw [hrun]
      exact ⟨fun h => (by cases h), fun s' _ hopen => absurd (Or.inl hp) hopen⟩

def scarce : Env where
  malloc t live n := if live.isEmpty then (filled 0).malloc t live n else none
  fresh t live n a k h := by
    rw [Option.ite_none_right_eq_some] at h
    exact (filled 0).fresh t live n a k h.2
  calloc := (filled 0).calloc
  junk := (filled 0).junk
  outside := (filled 0).outside
  judge := (filled 0).judge

/-- With memory for a second pool the second block of 3000 bytes is no danger. -/
theorem failure_clean_second : ∃ s₀ s, opened (filled 0) 4096 1048576 8192 0 = .ok s₀ ∧
    palloc (filled 0) 4 s₀ 3000 = .ok (s, some 223) ∧ Clean (filled 0) s 3000 := by
  have hrun : (do
      let s₀ ← opened (filled 0) 4096 1048576 8192 0
      let r ← palloc (filled 0) 4 s₀ 3000
      let t := (judged (filled 0) r.1 3000).1
      .ok (r.2, decide (3000 ≤ threshold r.1) && (r.1.config.ht.isSome &&
        ((filled 0).malloc t.heap.tick t.heap.live t.config.pool_size).isSome))) =
      (.ok (some 223, true) : Run (Option ℕ × Bool)) := by
    decide +kernel
  obtain ⟨s₀, h₀, hrun⟩ := bind_ok_iff.mp hrun
  obtain ⟨⟨s, r⟩, h₁, hrun⟩ := bind_ok_iff.mp hrun
  simp only [Except.ok.injEq, Prod.mk.injEq, Bool.and_eq_true, decide_eq_true_eq] at hrun
  obtain ⟨rfl, hthr, hht, hm⟩ := hrun
  refine ⟨s₀, s, h₀, h₁, ?_⟩
  apply (failure_clean_iff (filled 0) s₀ s _ 3000 (opened_start h₀).1
    (opened_roomy h₀ (by decide)) (Reach.step .start (Step.palloc 4 3000 (some 223) (by decide)
      h₁))).mpr
  refine fun _ => ⟨fun h => by omega, fun _ _ _ => ⟨Or.inr ?_, ?_⟩⟩
  · exact Option.isSome_iff_ne_none.mp hm
  · exact Option.isSome_iff_ne_none.mp hht

/-- The second pool of a process without memory is null and is used all the same. -/
theorem failure_unclean : ¬∀ (env : Env) (s₀ s : State) (live : List ℕ) (size : ℕ),
    Start env s₀ → Roomy s₀ → Reach env s₀ s live → Clean env s size := by
  intro hall
  have hrun : (do
      let s₀ ← opened scarce 4096 1048576 8192 0
      let r ← palloc scarce 4 s₀ 3000
      .ok (r.2, match palloc scarce 4 r.1 3000 with
        | .error .nullDeref => true
        | _ => false)) = (.ok (some 223, true) : Run (Option ℕ × Bool)) := by
    decide +kernel
  obtain ⟨s₀, h₀, hrun⟩ := bind_ok_iff.mp hrun
  obtain ⟨⟨s, r⟩, h₁, hrun⟩ := bind_ok_iff.mp hrun
  simp only [Except.ok.injEq, Prod.mk.injEq] at hrun
  obtain ⟨rfl, hnull⟩ := hrun
  have hclean := (hall scarce s₀ s _ 3000 (opened_start h₀).1 (opened_roomy h₀ (by decide))
    (Reach.step .start (Step.palloc 4 3000 (some 223) (by decide) h₁)) 4).1
  split at hnull
  · next h => exact hclean h
  · cases hnull

end Failures

end CLearning.MempoolFailure
