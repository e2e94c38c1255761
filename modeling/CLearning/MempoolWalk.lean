import CLearning.MempoolFailure
import CLearning.RotatingWalk

/-!
# The end of `palloc`

`__alloc_realdata` walks the linked pools and moves those that failed often
behind the others while it walks. Where the length of a search is not bounded,
it is a rotating walk: two such pools and none that serves keep it going.
-/

set_option autoImplicit false

namespace CLearning.MempoolWalk
open CLearning.Machine CLearning.LinkedLists CLearning.RotatingWalk CLearning.MempoolBytes
open CLearning.MempoolPool CLearning.MempoolHeap CLearning.MempoolServe CLearning.MpHash
open CLearning.MempoolState CLearning.Mempool CLearning.MempoolChain CLearning.MempoolRegistry
open CLearning.MempoolCore CLearning.MempoolGrow CLearning.MempoolAlloc CLearning.MempoolInit
open CLearning.MempoolFresh CLearning.MempoolRun CLearning.MempoolAppend CLearning.MempoolCache
open CLearning.MempoolTables CLearning.MempoolFailure

section Pools

variable {p q : Pool} {Q : List ℕ} {size : ℕ}

def Skipped (p : Pool) (size : ℕ) : Prop :=
  p.leftsize < size ∨ mempoolGetFreelist p size = none

/-- The pool has a block for the request. -/
def Serves (p : Pool) (size : ℕ) : Prop :=
  ¬Skipped p size ∧ (p.busylist = none ∨ getAvaildata p size ≠ none)

def Dead (s : State) (size a : ℕ) : Prop :=
  a ≠ s.base ∧ Skipped (s.pools a) size ∧ mempoolFailedSkip ≤ (s.pools a).failed

theorem firstFreelist_congr (hf : q.freelist = p.freelist) (is : List (Fin 5)) :
    firstFreelist q is = firstFreelist p is := by
  induction is with
  | nil => rfl
  | cons i is ih => rw [firstFreelist, firstFreelist, hf, ih]

theorem rd_congr (hd : q.data = p.data) : q.rd = p.rd := by
  funext o f
  rw [Pool.rd, Pool.rd, hd]

theorem scanFreelist_congr (hd : q.data = p.data) (n : ℕ) (tmp : Option ℕ) (ava : ℕ) :
    scanFreelist q size n tmp ava = scanFreelist p size n tmp ava := by
  induction n generalizing tmp ava with
  | zero => rfl
  | succ n ih =>
    cases tmp with
    | none => rfl
    | some a => rw [scanFreelist, scanFreelist, rd_congr hd, ih]

theorem availFrom_congr (hf : q.freelist = p.freelist) (hd : q.data = p.data)
    (is : List (Fin 5)) : availFrom q size is = availFrom p size is := by
  induction is with
  | nil => rfl
  | cons i is ih =>
    have hscan : ∀ n tmp ava, scanFreelist q size n tmp ava = scanFreelist p size n tmp ava :=
      scanFreelist_congr hd
    rw [availFrom, availFrom, hf, ih, rd_congr hd]
    simp only [hscan]

theorem skipped_congr (h : SameBlocks p q) : Skipped q size ↔ Skipped p size := by
  rw [Skipped, Skipped, mempoolGetFreelist, mempoolGetFreelist, h.leftsize,
    firstFreelist_congr h.freelist]

theorem serves_congr (h : SameBlocks p q) : Serves q size ↔ Serves p size := by
  rw [Serves, Serves, skipped_congr h, h.busylist, getAvaildata, getAvaildata,
    availFrom_congr h.freelist h.data]

theorem takeRealdata_iff (h : PoolInv p Q) :
    takeRealdata p size ≠ none ↔ p.busylist = none ∨ getAvaildata p size ≠ none := by
  cases hb : p.busylist with
  | none =>
    obtain rfl := idle_of_busylist h hb
    obtain ⟨r, hr⟩ : ∃ r, takeRealdata p size = some r :=
      ⟨_, takeRealdata_idle hb (pool_idle h).2.1⟩
    rw [hr]
    exact ⟨fun _ => Or.inl rfl, fun _ => Option.some_ne_none r⟩
  | some b =>
    rw [takeRealdata_busy hb, ne_eq, Option.map_eq_none_iff]
    exact ⟨Or.inr, fun h => h.resolve_left (Option.some_ne_none b)⟩

end Pools

section Search

variable {s s' : State} {ps ps' fs xs ls M W pre : List ℕ} {B : ℕ → List ℕ} {size a : ℕ}

def Spent (s : State) (n : ℕ) : Prop :=
  s.config.max_searchpool > 0 ∧ (n : ℤ) ≥ s.config.max_searchpool

instance (s : State) (n : ℕ) : Decidable (Spent s n) := by
  unfold Spent
  infer_instance

def countSearched (s : State) (n : ℕ) : ℕ := if s.config.max_searchpool > 0 then n+1 else n

structure Past (s s' : State) (fs xs ls M : List ℕ) (B : ℕ → List ℕ) (size a : ℕ)
    (W : List ℕ) : Prop where
  kept : Kept B s s'
  same : ∀ x, SameBlocks (s.pools x) (s'.pools x)
  failed : ∀ x, Dead s size a ∨ x ≠ a → (s'.pools x).failed = (s.pools x).failed
  onward : ∃ ps' pre' W', Core s' ps' fs xs ls M B ∧ s.base :: ps' = pre' ++ W' ∧
    Onward (Dead s size a) a W W' ∧
    ((s'.pools a).next = none ∨ W' = W ∧ (s'.pools a).next = W.head?)

theorem countFailed_failed (s : State) {a x : ℕ} (h : x ≠ a) :
    ((countFailed s a).pools x).failed = (s.pools x).failed := by
  unfold countFailed
  split
  · simp [State.setFailed, State.setPool, h]
  · rfl

theorem move2tail_failed (h : Relinked s s') (x : ℕ) :
    (s'.pools x).failed = (s.pools x).failed := by
  rw [h.pools x]

theorem suffix_next (hc : Core s ps fs xs ls M B) (hW : s.base :: ps = pre ++ a :: W) :
    (s.pools a).next = W.head? := by
  have hs : Seg (chainLinks s) none (pre ++ a :: W) none := by
    rw [← hW]
    exact hc.chain.family.seg .linked
  rw [← Option.or_none (o := W.head?)]
  exact hs.neighbours.2

theorem past_stay (hc : Core s ps fs xs ls M B) (hW : s.base :: ps = pre ++ a :: W)
    (hd : ¬Dead s size a ∨ W = []) : Past s s fs xs ls M B size a W where
  kept := Kept.refl _ _
  same x := SameBlocks.refl _
  failed x _ := rfl
  onward := ⟨ps, pre ++ [a], W, hc, by rw [hW, List.append_assoc]; rfl, Or.inl ⟨hd, rfl⟩,
    Or.inr ⟨rfl, suffix_next hc hW⟩⟩

theorem past_count (hc : Core s ps fs xs ls M B) (hW : s.base :: ps = pre ++ a :: W)
    (hf : (s.pools a).failed < mempoolFailedSkip) :
    Past s (countFailed s a) fs xs ls M B size a W := by
  obtain ⟨hk, hsame, hl, -⟩ := countFailed_kept s a B
  have hd : ¬Dead s size a := fun hd => absurd hf (Nat.not_lt.mpr hd.2.2)
  refine ⟨hk, hsame, fun x hx => countFailed_failed s (hx.resolve_left hd),
    ps, pre ++ [a], W, countFailed_core hc a, by rw [hW, List.append_assoc]; rfl,
    Or.inl ⟨Or.inl hd, rfl⟩, Or.inr ⟨rfl, ?_⟩⟩
  rw [(hl a).2]
  exact suffix_next hc hW

theorem past_move (hc : Core s ps fs xs ls M B) (hW : s.base :: ps = pre ++ a :: W)
    (hs : Skipped (s.pools a) size) (hf : ¬(s.pools a).failed < mempoolFailedSkip) :
    ∃ s', mempoolMove2tail s a = .ok s' ∧ Past s s' fs xs ls M B size a W := by
  by_cases hb : a = s.base
  · exact ⟨s, mempoolMove2tail_last hc.chain (Or.inl hb),
      past_stay hc hW (Or.inl fun hd => hd.1 hb)⟩
  -- the base pool is in front of the pool
  obtain ⟨p₁, rfl⟩ : ∃ p₁, pre = s.base :: p₁ := by
    cases pre with
    | nil => exact absurd (List.cons.inj hW).1.symm hb
    | cons c p₁ =>
      obtain rfl := (List.cons.inj hW).1
      exact ⟨p₁, rfl⟩
  obtain rfl : ps = p₁ ++ a :: W := (List.cons.inj hW).2
  by_cases hnil : W = []
  · subst hnil
    exact ⟨s, mempoolMove2tail_last hc.chain (Or.inr (by simp)), past_stay hc hW (Or.inr rfl)⟩
  · obtain ⟨s', hrun, hch, hr⟩ := mempoolMove2tail_spec hc.chain hnil
    have hperm : (p₁ ++ W ++ [a]).Perm (p₁ ++ a :: W) := by
      rw [List.append_assoc]
      exact List.Perm.append_left p₁ (List.perm_append_singleton a W)
    have hc' : Core s' (p₁ ++ W ++ [a]) fs xs ls M B :=
      hc.reorder (Relinked.kept hr) (Relinked.sameBlocks hr) hch hperm
    refine ⟨s', hrun, Relinked.kept hr, Relinked.sameBlocks hr, fun x _ => move2tail_failed hr x,
      p₁ ++ W ++ [a], s.base :: p₁, W ++ [a], hc', by simp,
      Or.inr ⟨⟨hb, hs, Nat.not_lt.mp hf⟩, hnil, rfl⟩, Or.inl ?_⟩
    exact @suffix_next s' _ fs xs ls M [] (s'.base :: (p₁ ++ W)) B a hc' (by simp)

theorem search_serves (hc : Core s ps fs xs ls M B) (ha : a ∈ s.base :: ps)
    (h : Serves (s.pools a) size) (fuel n : ℕ) :
    ∃ s' o, searchPools size (fuel+1) s (some a) n = .ok ⟨s', some a, some o⟩ := by
  obtain ⟨hskip, havail⟩ := h
  have htake := (@takeRealdata_iff _ _ size (hc.linked_inv ha)).mpr havail
  obtain ⟨⟨q, o⟩, htake⟩ := Option.ne_none_iff_exists'.mp htake
  rw [Skipped] at hskip
  rw [searchPools, if_neg hskip, htake]
  exact ⟨_, o, rfl⟩

/-- At any other pool it ends because it is spent, or goes on. -/
theorem search_passes (hc : Core s ps fs xs ls M B) (hW : s.base :: ps = pre ++ a :: W)
    (h : ¬Serves (s.pools a) size) :
    ∃ s', Past s s' fs xs ls M B size a W ∧ ∀ fuel n, searchPools size (fuel+1) s (some a) n =
      if Spent s (countSearched s n) then .ok ⟨s', some a, none⟩
      else searchPools size fuel s' W.head? (countSearched s n) := by
  have ha : a ∈ s.base :: ps := by simp [hW]
  have hnext := suffix_next hc hW
  by_cases hskip : Skipped (s.pools a) size
  · by_cases hf : (s.pools a).failed < mempoolFailedSkip
    · refine ⟨_, past_count hc hW hf, fun fuel n => ?_⟩
      rw [Skipped] at hskip
      rw [searchPools, if_pos hskip, if_pos hf, hnext]
      rfl
    · obtain ⟨s', hrun, hp⟩ := past_move hc hW hskip hf
      refine ⟨s', hp, fun fuel n => ?_⟩
      rw [Skipped] at hskip
      rw [searchPools, if_pos hskip, if_neg hf, hrun, hnext]
      rfl
  · have havail : ¬((s.pools a).busylist = none ∨ getAvaildata (s.pools a) size ≠ none) :=
      fun h' => h ⟨hskip, h'⟩
    have htake := mt (@takeRealdata_iff _ _ size (hc.linked_inv ha)).mp havail
    rw [not_not] at htake
    obtain ⟨b, hb⟩ := Option.ne_none_iff_exists'.mp fun hb => havail (Or.inl hb)
    have hd : ¬Dead s size a := fun hd => hskip hd.2.1
    rw [Skipped] at hskip
    by_cases hf : (s.pools a).failed < mempoolFailedSkip
    · refine ⟨_, past_count hc hW hf, fun fuel n => ?_⟩
      have hn := ((countFailed_kept s a B).2.2.1 a).2.trans hnext
      rw [searchPools, if_neg hskip, htake, hb]
      dsimp only
      rw [if_pos hf, hn]
      rfl
    · refine ⟨s, past_stay hc hW (Or.inl hd), fun fuel n => ?_⟩
      rw [searchPools, if_neg hskip, htake, hb]
      dsimp only
      rw [if_neg hf, hnext]
      rfl

/-- The walk of the source without a limit is the rotating walk over the pools ahead. -/
theorem search_ends_iff (fuel n : ℕ) (hmax : s.config.max_searchpool ≤ 0)
    (hc : Core s ps fs xs ls M B) (hW : s.base :: ps = pre ++ W) :
    searchPools size fuel s W.head? n ≠ .error .outOfFuel ↔
      Ends (fun a => Serves (s.pools a) size) (Dead s size) fuel W := by
  induction fuel generalizing s ps pre W n with
  | zero => exact ⟨fun h => absurd rfl h, fun h => absurd h id⟩
  | succ fuel ih =>
    cases W with
    | nil =>
      rw [List.head?_nil, searchPools]
      exact ⟨fun _ => trivial, fun _ h => by cases h⟩
    | cons a W =>
      rw [List.head?_cons]
      by_cases hs : Serves (s.pools a) size
      · obtain ⟨s', o, hrun⟩ := search_serves hc (by simp [hW]) hs fuel n
        rw [hrun]
        exact ⟨fun _ => Or.inl hs, fun _ h => by cases h⟩
      · obtain ⟨s', hp, hrun⟩ := search_passes hc hW hs
        obtain ⟨ps', pre', W', hc', hW', ho, -⟩ := hp.onward
        have hspent : ¬Spent s (countSearched s n) := fun h => absurd h.1 (Int.not_lt.mpr hmax)
        rw [← hp.kept.base] at hW'
        have hcons := @ends_cons _ (fun a => Serves (s.pools a) size) (Dead s size) fuel a W W' hs ho
        rw [hrun, if_neg hspent, ho.head_eq, ih _ (by rw [hp.kept.config]; exact hmax) hc' hW',
          hcons]
        -- the pool that was passed keeps its count where it is met again
        have hnd : (a :: W).Nodup := by
          have h := hc.chain.nodup
          rw [hW] at h
          exact h.of_append_right
        apply ends_iff_of_agree
        · intro x _
          exact serves_congr (hp.same x)
        · intro x hx
          have hfail : Dead s size a ∨ x ≠ a := by
            rcases ho with ⟨-, rfl⟩ | ⟨hd, -⟩
            · exact Or.inr fun h => (List.nodup_cons.mp hnd).1 (h ▸ hx)
            · exact Or.inl hd
          rw [Dead, Dead, hp.failed x hfail, skipped_congr (hp.same x), hp.kept.base]

/-- With a limit a search ends after that many pools. -/
theorem search_bounded (fuel n : ℕ) (hn : n < s.config.max_searchpool)
    (hf : s.config.max_searchpool < n+fuel) (hc : Core s ps fs xs ls M B)
    (hW : s.base :: ps = pre ++ W) :
    searchPools size fuel s W.head? n ≠ .error .outOfFuel := by
  induction fuel generalizing s ps pre W n with
  | zero => omega
  | succ fuel ih =>
    cases W with
    | nil =>
      intro h
      cases h
    | cons a W =>
      rw [List.head?_cons]
      by_cases hs : Serves (s.pools a) size
      · obtain ⟨s', o, hrun⟩ := search_serves hc (by simp [hW]) hs fuel n
        rw [hrun]
        intro h
        cases h
      · obtain ⟨s', hp, hrun⟩ := search_passes hc hW hs
        obtain ⟨ps', pre', W', hc', hW', ho, -⟩ := hp.onward
        have hcount : countSearched s n = n+1 := if_pos (by omega)
        rw [hrun, hcount]
        split
        · intro h
          cases h
        · next hspent =>
          rw [Spent, not_and, not_le] at hspent
          have hlt := hspent (by omega)
          rw [← hp.kept.base] at hW'
          rw [ho.head_eq]
          apply ih _ (by rw [hp.kept.config]; exact hlt) _ hc' hW'
          rw [hp.kept.config]
          push_cast
          omega

/-- A search in vain ran out of pools, or it is spent with fewer of them ahead. -/
theorem search_vain (fuel n : ℕ) {f : Found} (hc : Core s ps fs xs ls M B)
    (hW : s.base :: ps = pre ++ W) (hrun : searchPools size fuel s W.head? n = .ok f)
    (hnone : f.realdata = none) : Kept B s f.state ∧ ∀ a, f.tmp = some a →
      s.config.max_searchpool > 0 ∧ ∃ ps' pre' W', Core f.state ps' fs xs ls M B ∧
        s.base :: ps' = pre' ++ W' ∧ W'.length < W.length ∧
        (f.state.pools a).next = W'.head? := by
  induction fuel generalizing s ps pre W n with
  | zero => cases hrun
  | succ fuel ih =>
    cases W with
    | nil =>
      rw [List.head?_nil, searchPools, Except.ok.injEq] at hrun
      subst hrun
      exact ⟨Kept.refl _ _, fun a ha => by cases ha⟩
    | cons a W =>
      rw [List.head?_cons] at hrun
      by_cases hs : Serves (s.pools a) size
      · obtain ⟨s', o, hrun'⟩ := search_serves hc (by simp [hW]) hs fuel n
        rw [hrun', Except.ok.injEq] at hrun
        subst hrun
        cases hnone
      · obtain ⟨s', hp, hrun'⟩ := search_passes hc hW hs
        obtain ⟨ps', pre', W', hc', hW', ho, hnext⟩ := hp.onward
        rw [hrun'] at hrun
        split at hrun
        · next hspent =>
          rw [Except.ok.injEq] at hrun
          subst hrun
          refine ⟨hp.kept, fun x hx => ⟨hspent.1, ?_⟩⟩
          obtain rfl := Option.some.inj hx
          rcases hnext with hnext | ⟨rfl, hnext⟩
          · exact ⟨ps', s.base :: ps', [], hc', by simp, by simp, hnext⟩
          · exact ⟨ps', pre', W', hc', hW', by simp, hnext⟩
        · rw [ho.head_eq] at hrun
          rw [← hp.kept.base] at hW'
          obtain ⟨hk, hahead⟩ := ih _ hc' hW' hrun
          refine ⟨hp.kept.trans hk, fun x hx => ?_⟩
          obtain ⟨hpos, ps₂, pre₂, W₂, hc₂, hW₂, hlt, hnx⟩ := hahead x hx
          rw [hp.kept.config] at hpos
          rw [hp.kept.base] at hW₂
          have hle := ho.length_le
          exact ⟨hpos, ps₂, pre₂, W₂, hc₂, hW₂, by rw [List.length_cons]; omega, hnx⟩

end Search

section Restarts

variable {s s' : State} {ps fs xs ls M W pre : List ℕ} {B : ℕ → List ℕ} {size : ℕ}

theorem alloc_bounded (fuel n : ℕ) (hpos : s.config.max_searchpool > 0)
    (hf : s.config.max_searchpool+W.length < fuel) (hc : Core s ps fs xs ls M B)
    (hW : s.base :: ps = pre ++ W) :
    allocRealdata size fuel s W.head? n ≠ .error .outOfFuel := by
  induction fuel generalizing s ps pre W n with
  | zero => omega
  | succ fuel ih =>
    rw [allocRealdata]
    apply bind_sound (search_bounded _ _ (by omega) (by omega) hc hW)
    intro f hrun
    obtain ⟨t, tmp, realdata⟩ := f
    cases realdata with
    | some o =>
      intro h
      cases tmp <;> cases h
    | none =>
      obtain ⟨hk, hahead⟩ := search_vain _ _ hc hW hrun rfl
      cases tmp with
      | none =>
        intro h
        cases h
      | some a =>
        obtain ⟨-, ps', pre', W', hc', hW', hlt, hnext⟩ := hahead a rfl
        have again : ∀ m, allocRealdata size fuel t (t.pools a).next m ≠ .error .outOfFuel := by
          intro m
          rw [hnext]
          rw [← hk.base] at hW'
          apply ih _ (by rw [hk.config]; exact hpos) _ hc' hW'
          rw [hk.config]
          omega
        dsimp only
        split
        · split
          · exact again _
          · split
            · exact again _
            · intro h
              cases h
        · intro h
          cases h

/-- Without a limit there is no restart. -/
theorem alloc_once (fuel n : ℕ) (hmax : s.config.max_searchpool ≤ 0)
    (hc : Core s ps fs xs ls M B) (hW : s.base :: ps = pre ++ W) :
    allocRealdata size (fuel+1) s W.head? n ≠ .error .outOfFuel ↔
      searchPools size (fuel+1) s W.head? 0 ≠ .error .outOfFuel := by
  rw [allocRealdata]
  cases hrun : searchPools size (fuel+1) s W.head? 0 with
  | error e =>
    rw [error_bind]
    exact ⟨fun h h' => h (by rw [Except.error.injEq] at h' ⊢; exact h'),
      fun h h' => h (by rw [Except.error.injEq] at h' ⊢; exact h')⟩
  | ok f =>
    refine ⟨fun _ h => (by cases h), fun _ => ?_⟩
    obtain ⟨t, tmp, realdata⟩ := f
    cases realdata with
    | some o =>
      intro h
      cases tmp <;> cases h
    | none =>
      cases tmp with
      | none =>
        intro h
        cases h
      | some a =>
        have hpos := ((search_vain _ _ hc hW hrun rfl).2 a rfl).1
        omega

end Restarts

section Calls

variable {env : Env} {s₀ s s' : State} {live ps fs ls M W pre : List ℕ} {B : ℕ → List ℕ}
  {size : ℕ} {tmp : Option ℕ}

theorem getMempool_ends (hc : Core s ps fs [] ls M B) : getMempool env s ≠ .error .outOfFuel := by
  by_cases h : Stocked env s
  · obtain ⟨s₁, r, hrun, -⟩ := getMempool_stocked hc h
    rw [hrun]
    intro h
    cases h
  · rw [getMempool_null hc h]
    intro h
    cases h

/-- The loop of `palloc` turns at most twice, as a new pool serves the request. -/
theorem allocAgain_ends (h16 : 16 ≤ size) (fuel : ℕ) (hc : Core s ps fs [] ls M B)
    (hs : size ≤ s.config.pool_size-mempoolSize) (ht : ∀ a, tmp = some a → a ∈ s.base :: ps)
    (h : allocRealdata size (fuel+2) s tmp 0 ≠ .error .outOfFuel) :
    allocAgain env size (fuel+2) s tmp ≠ .error .outOfFuel := by
  rw [allocAgain]
  apply bind_sound h
  rintro ⟨s₁, r₁⟩ halloc
  obtain ⟨ps₁, -, hcase⟩ := allocRealdata_spec h16 _ hc ht halloc
  rcases hcase with ⟨rfl, hc₁, hq⟩ | ⟨b, o, rfl, -⟩
  · dsimp only
    split
    · intro h
      cases h
    · apply bind_sound (getMempool_ends hc₁)
      rintro ⟨s₂, r⟩ hget
      cases r with
      | none =>
        intro h
        cases h
      | some a =>
        obtain ⟨hgain, hcase⟩ := getMempool_spec env hc₁ hget
        rcases hcase with ⟨hn, -⟩ | ⟨a', ha', hc₂, hi₂, -⟩
        · cases hn
        obtain rfl := Option.some.inj ha'
        obtain ⟨hc₃, hk₃, -⟩ := linkMempool_core hc₂ hi₂
        have hsz : (linkMempool s₂ a).config.pool_size = s.config.pool_size := by
          rw [hk₃.config, hgain.config, hq.kept.config]
        obtain ⟨s₄, o, hrun₄, -⟩ := allocRealdata_idle hc₃ (by simp)
          (Function.update_self ..) h16 (hsz.symm ▸ hs) fuel 0
        dsimp only
        rw [allocAgain, hrun₄]
        intro h
        cases h
  · intro h
    cases h

theorem allocAgain_out (fuel : ℕ) (h : ∀ fuel, allocRealdata size fuel s tmp 0 = .error .outOfFuel) :
    allocAgain env size fuel s tmp = .error .outOfFuel := by
  cases fuel with
  | zero => rfl
  | succ fuel =>
    rw [allocAgain, h]
    rfl

def Ahead (s : State) (size a : ℕ) : Prop :=
  Meets (fun x => (s.pools x).next) (firstMempool s size) a

/-- Searches are not limited, no pool of the walk serves the request, and at least
two of them are moved behind the others whenever they are met. -/
def Stuck (s : State) (size : ℕ) : Prop :=
  s.config.max_searchpool ≤ 0 ∧
    (∀ a, Ahead s size a → ¬Serves (s.pools a) (size+realdataSize)) ∧
    ∃ a b, a ≠ b ∧ (Ahead s size a ∧ Dead s (size+realdataSize) a) ∧
      (Ahead s size b ∧ Dead s (size+realdataSize) b)

def Terminates (env : Env) (s : State) (size : ℕ) : Prop :=
  ∃ fuel, palloc env fuel s size ≠ .error .outOfFuel

theorem walk_pools (hc : Core s ps fs [] ls M B) (size : ℕ) : ∃ pre W, s.base :: ps = pre ++ W ∧
    firstMempool s size = W.head? ∧ ∀ a, Ahead s size a ↔ a ∈ W := by
  have hseg : Seg (chainLinks s) none (s.base :: ps) none := hc.chain.family.seg .linked
  by_cases hb : (s.pools s.base).leftsize > size+realdataSize
  · have hfirst : firstMempool s size = (s.base :: ps).head? := if_pos hb
    refine ⟨[], s.base :: ps, rfl, hfirst, fun a => ?_⟩
    rw [Ahead, hfirst]
    exact Seg.meets hseg
  · have hfirst : firstMempool s size = ps.head? := (if_neg hb).trans hc.chain.base_next
    refine ⟨[s.base], ps, rfl, hfirst, fun a => ?_⟩
    rw [Ahead, hfirst]
    exact Seg.meets hseg.2.2

theorem small_ends_iff (hc : Core s ps fs [] ls M B) (h16 : 16 ≤ size+realdataSize)
    (hs : size+realdataSize ≤ s.config.pool_size-mempoolSize) :
    (∃ fuel, allocAgain env (size+realdataSize) fuel s (firstMempool s size) ≠
      .error .outOfFuel) ↔ ¬Stuck s size := by
  obtain ⟨pre, W, hW, hfirst, hahead⟩ := walk_pools hc size
  have hmem : ∀ a, W.head? = some a → a ∈ s.base :: ps := by
    intro a ha
    rw [hW]
    exact List.mem_append_right _ (List.mem_of_mem_head? ha)
  have hnd : W.Nodup := by
    have h := hc.chain.nodup
    rw [hW] at h
    exact h.of_append_right
  rw [hfirst]
  by_cases hmax : s.config.max_searchpool > 0
  · have hfree : ¬Stuck s size := fun h => absurd h.1 (Int.not_le.mpr hmax)
    refine ⟨fun _ => hfree, fun _ => ⟨s.config.max_searchpool.toNat+W.length+2, ?_⟩⟩
    apply allocAgain_ends h16 _ hc hs hmem
    apply alloc_bounded _ _ hmax _ hc hW
    push_cast
    omega
  · rw [not_lt] at hmax
    have halloc : ∀ fuel, allocRealdata (size+realdataSize) (fuel+1) s W.head? 0 ≠
        .error .outOfFuel ↔ Ends (fun a => Serves (s.pools a) (size+realdataSize))
          (Dead s (size+realdataSize)) (fuel+1) W := by
      intro fuel
      rw [alloc_once fuel 0 hmax hc hW, search_ends_iff _ _ hmax hc hW]
    have hstuck : ¬Stuck s size ↔ ∃ n, Ends (fun a => Serves (s.pools a) (size+realdataSize))
        (Dead s (size+realdataSize)) n W := by
      rw [ends_iff hnd, Stuck]
      simp only [hahead, hmax, true_and]
    rw [hstuck]
    constructor
    · rintro ⟨fuel, h⟩
      by_contra hno
      rw [not_exists] at hno
      apply h
      apply allocAgain_out
      intro n
      cases n with
      | zero => rfl
      | succ n => exact not_not.mp (mt (halloc n).mp (hno _))
    · rintro ⟨n, h⟩
      refine ⟨n+2, allocAgain_ends h16 n hc hs hmem ?_⟩
      exact (halloc (n+1)).mpr (h.mono (by omega))

/-- `palloc` comes to an end exactly where its walk is not stuck. -/
theorem terminates_iff (env : Env) (hc : Core s ps fs [] ls M B) :
    Terminates env s size ↔ (Passes env s size → size ≤ threshold s → ¬Stuck s size) := by
  by_cases hp : Passes env s size
  · by_cases hle : size ≤ threshold s
    · obtain ⟨t, ht⟩ := judged_tick env s size
      have hsz := hc.config.size
      have hle' := hle
      simp only [SizeOk, mempoolSize, realdataSize] at hsz
      rw [threshold_eq hc.config] at hle'
      have h0 : 0 < size := by
        have href := hp.1
        simp only [refuses, Bool.or_eq_false_iff, decide_eq_false_iff_not] at href
        omega
      have hiff := @small_ends_iff env _ ps fs ls M B size (hc.tick t)
        (by rw [realdataSize]; omega) (by rw [realdataSize, mempoolSize]; dsimp only; omega)
      have hagain : Terminates env s size ↔ ∃ fuel, allocAgain env (size+realdataSize) fuel
          { s with heap := ⟨s.heap.live, t⟩ } (firstMempool s size) ≠ .error .outOfFuel := by
        apply exists_congr
        intro fuel
        rw [palloc_small fuel hc hp hle, ht]
        cases allocAgain env (size+realdataSize) fuel { s with heap := ⟨s.heap.live, t⟩ }
          (firstMempool s size) with
        | error e => simp
        | ok r =>
          obtain ⟨u, _ | b⟩ := r <;> simp
      rw [hagain]
      exact ⟨fun h _ _ => hiff.mp h, fun h => hiff.mpr (h hp hle)⟩
    · refine ⟨fun _ _ hle' => absurd hle' hle, fun _ => ⟨0, ?_⟩⟩
      obtain ⟨t, ht⟩ := judged_tick env s size
      obtain ⟨s', r, hrun, -⟩ := allocLarge_total env size (hc.tick t)
      rw [palloc_large 0 hp (Nat.not_le.mp hle), ht, hrun]
      intro h
      cases h
  · refine ⟨fun _ hp' => absurd hp' hp, fun _ => ⟨0, ?_⟩⟩
    obtain ⟨s', hrun, -⟩ := @palloc_refused env s size 0 hp
    rw [hrun]
    intro h
    cases h

theorem palloc_ends_iff (env : Env) (s₀ s : State) (live : List ℕ) (size : ℕ) (hs : Start env s₀)
    (hr : Roomy s₀) (h : Reach env s₀ s live) :
    Terminates env s size ↔ (Passes env s size → size ≤ threshold s → ¬Stuck s size) := by
  obtain ⟨ps, fs, ls, M, B, hI⟩ := reach_inv hs hr h
  exact terminates_iff env hI.core

def pallocs (env : Env) (fuel size : ℕ) : ℕ → State → List ℕ → Run (State × List ℕ)
  | 0, s, live => .ok (s, live)
  | n+1, s, live => do
    let r ← palloc env fuel s size
    pallocs env fuel size n r.1 (r.2.toList ++ live)

theorem pallocs_reach (fuel n : ℕ) (hs : size < 2^32) {live' : List ℕ} (hr : Reach env s₀ s live)
    (hrun : pallocs env fuel size n s live = .ok (s', live')) : Reach env s₀ s' live' := by
  induction n generalizing s live with
  | zero =>
    rw [pallocs, Except.ok.injEq, Prod.mk.injEq] at hrun
    obtain ⟨rfl, rfl⟩ := hrun
    exact hr
  | succ n ih =>
    obtain ⟨⟨t, r⟩, h, hrest⟩ := bind_ok_iff.mp hrun
    exact ih (hr.step (.palloc fuel size r hs h)) hrest

theorem follows_meets {p : Option ℕ} {l : List ℕ} {a : ℕ} (h : Follows s p l) :
    Meets (fun x => (s.pools x).next) p a ↔ a ∈ l := by
  induction l generalizing p with
  | nil =>
    obtain rfl : p = none := h
    constructor <;> intro h <;> cases h
  | cons b l ih =>
    obtain ⟨rfl, h⟩ := h
    rw [List.mem_cons, ← ih h]
    constructor
    · intro hm
      cases hm with
      | here => exact Or.inl rfl
      | further hm => exact Or.inr hm
    · rintro (rfl | hm)
      · exact .here _
      · exact .further hm

instance decidableFollows (s : State) : (p : Option ℕ) → (l : List ℕ) → Decidable (Follows s p l)
  | p, [] => inferInstanceAs (Decidable (p = none))
  | p, a :: as =>
    have := decidableFollows s (s.pools a).next as
    inferInstanceAs (Decidable (p = some a ∧ Follows s (s.pools a).next as))

/-- Nine pools of 208 bytes hold one block each and have nothing left. Only the oldest failed
eight times: the next request for a byte moves it behind the others and ends. -/
theorem palloc_ends_moved : ∃ s₀ s live, Reach (filled 0) s₀ s live ∧ live.length = 9 ∧
    Ahead s 1 224 ∧ Dead s (1+realdataSize) 224 ∧ Terminates (filled 0) s 1 := by
  let pools := [1888, 1680, 1472, 1264, 1056, 848, 640, 432, 224]
  have hrun : (do
      let s₀ ← opened (filled 0) 208 8192 8192 0
      let r ← pallocs (filled 0) 20 1 9 s₀ []
      let s := r.1
      .ok (decide (r.2.length = 9) && decide (s.base = 16) &&
        decide (Follows s (firstMempool s 1) pools) &&
        decide ((s.pools 224).leftsize < 16) && decide (8 ≤ (s.pools 224).failed) &&
        pools.all (fun a => decide (a = 224) || decide ((s.pools a).failed < 8)))) =
      (.ok true : Run Bool) := by
    decide +kernel
  obtain ⟨s₀, h₀, hrun⟩ := bind_ok_iff.mp hrun
  obtain ⟨⟨s, live⟩, h₁, hrun⟩ := bind_ok_iff.mp hrun
  simp only [Except.ok.injEq, Bool.and_eq_true, Bool.or_eq_true, decide_eq_true_eq,
    List.all_eq_true] at hrun
  obtain ⟨⟨⟨⟨⟨hlen, hbase⟩, hpools⟩, hleft⟩, hfailed⟩, honly⟩ := hrun
  have hreach := pallocs_reach 20 9 (by decide) .start h₁
  refine ⟨s₀, s, live, hreach, hlen, (follows_meets hpools).mpr (by decide),
    ⟨by rw [hbase]; decide, Or.inl hleft, hfailed⟩, ?_⟩
  refine (palloc_ends_iff (filled 0) s₀ s live 1 (opened_start h₀).1
    (opened_roomy h₀ (by decide)) hreach).mpr fun _ _ hstuck => ?_
  obtain ⟨-, -, a, b, hab, ⟨ha, -, -, hfa⟩, ⟨hb, -, -, hfb⟩⟩ := hstuck
  have hlast : ∀ x, Ahead s 1 x → mempoolFailedSkip ≤ (s.pools x).failed → x = 224 := by
    intro x hx hfx
    rcases honly x ((follows_meets hpools).mp hx) with h | h
    · exact h
    · rw [mempoolFailedSkip] at hfx
      omega
  exact hab ((hlast a ha hfa).trans (hlast b hb hfb).symm)

/-- Ten pools of 208 bytes hold one block each and have nothing left. The oldest two
failed eight times, and the eleventh request for a byte circles among the ten. -/
theorem palloc_circles : ¬∀ (env : Env) (s₀ s : State) (live : List ℕ) (size : ℕ),
    Start env s₀ → Roomy s₀ → Reach env s₀ s live → size < 2^32 → Terminates env s size := by
  intro hall
  let pools := [2096, 1888, 1680, 1472, 1264, 1056, 848, 640, 432, 224]
  have hrun : (do
      let s₀ ← opened (filled 0) 208 8192 8192 0
      let r ← pallocs (filled 0) 20 1 10 s₀ []
      let s := r.1
      .ok (!refuses s 1 && (judged (filled 0) s 1).2 && decide (1 ≤ threshold s) &&
        decide (s.config.max_searchpool = -1) && decide (s.base = 16) &&
        decide (Follows s (firstMempool s 1) pools) &&
        pools.all (fun a => decide ((s.pools a).leftsize < 16)) &&
        decide (8 ≤ (s.pools 224).failed) && decide (8 ≤ (s.pools 432).failed))) =
      (.ok true : Run Bool) := by
    decide +kernel
  obtain ⟨s₀, h₀, hrun⟩ := bind_ok_iff.mp hrun
  obtain ⟨⟨s, live⟩, hs, hrun⟩ := bind_ok_iff.mp hrun
  simp only [Except.ok.injEq, Bool.and_eq_true, Bool.not_eq_true', decide_eq_true_eq,
    List.all_eq_true, and_assoc] at hrun
  obtain ⟨href, hj, hthr, hmax, hbase, hpools, hleft, h224, h432⟩ := hrun
  have hstart := (opened_start h₀).1
  have hroomy := opened_roomy h₀ (by decide)
  have hreach := pallocs_reach 20 10 (by decide) .start hs
  obtain ⟨ps, fs, ls, M, B, hI⟩ := reach_inv hstart hroomy hreach
  have hahead : ∀ a, Ahead s 1 a ↔ a ∈ pools := fun a => follows_meets hpools
  have hskip : ∀ a ∈ pools, Skipped (s.pools a) (1+realdataSize) := by
    intro a ha
    exact Or.inl (hleft a ha)
  have hends := hall (filled 0) s₀ s live 1 hstart hroomy hreach (by decide)
  apply (terminates_iff (filled 0) hI.core).mp hends ⟨href, hj⟩ hthr
  refine ⟨by omega, fun a ha hserves => hserves.1 (hskip a ((hahead a).mp ha)), 224, 432,
    by decide, ⟨(hahead 224).mpr (by decide), ?_, hskip 224 (by decide), h224⟩,
    (hahead 432).mpr (by decide), ?_, hskip 432 (by decide), h432⟩
  · rw [hbase]
    decide
  · rw [hbase]
    decide

end Calls

end CLearning.MempoolWalk
