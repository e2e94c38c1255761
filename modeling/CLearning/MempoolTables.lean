import CLearning.MempoolCache

/-!
# The size of the registries

Both registries have `max_memsize / pool_size+1` buckets, rounded up to a power
of two. The linked pools always fit; large blocks may be so small that more of
them pass the tests of `palloc` than the registry holds.
-/

set_option autoImplicit false

namespace CLearning.MempoolTables
open CLearning.Machine CLearning.LinkedLists CLearning.MempoolBytes CLearning.MempoolPool
open CLearning.MempoolHeap CLearning.MempoolServe CLearning.MpHash CLearning.MpHashSet
open CLearning.MempoolState CLearning.Mempool CLearning.MempoolChain CLearning.MempoolRegistry
open CLearning.MempoolCore CLearning.MempoolGrow CLearning.MempoolAlloc CLearning.MempoolFree
open CLearning.MempoolStore CLearning.MempoolInit CLearning.MempoolFresh CLearning.MempoolRun
open CLearning.MempoolAppend CLearning.MempoolCache

section Buckets

variable {t t' : Option (Table ℕ)} {free : Bool} {M : List ℕ} {a : ℕ} {r : ℤ}

def buckets (t : Option (Table ℕ)) : ℕ :=
  match t with
  | none => 0
  | some t => t.num_buckets

def elements (t : Option (Table ℕ)) : ℕ :=
  match t with
  | none => 0
  | some t => t.num_elements

theorem registers_elements (h : Registers t free M) : elements t = M.length := by
  cases t with
  | none =>
    rw [show M = [] from h]
    rfl
  | some t =>
    obtain ⟨-, -, L, S, h⟩ := h
    exact h.count

/-- A new address is taken in as long as there is a free bucket. -/
theorem insertAddr_room (h : Registers t free M) (ha : AddrOk a)
    (hrun : insertAddr t a = .ok (t', r)) :
    buckets t' = buckets t ∧ (a ∉ M → (r = 0 ↔ M.length < buckets t)) := by
  cases t with
  | none =>
    rw [insertAddr, Except.ok.injEq, Prod.mk.injEq] at hrun
    obtain ⟨rfl, rfl⟩ := hrun
    exact ⟨rfl, fun _ => ⟨fun h => absurd h (by decide), fun h => absurd h (Nat.not_lt_zero _)⟩⟩
  | some t =>
    obtain ⟨-, hM, L, S, h⟩ := h
    obtain ⟨t'', L', S', hstep, -, hk⟩ := h.step (.insert a)
    obtain ⟨⟨u, c⟩, hins, hres⟩ := bind_ok_iff.mp hstep
    rw [Except.ok.injEq, Prod.mk.injEq] at hres
    obtain ⟨rfl, hres⟩ := hres
    rw [insertAddr, if_neg (Nat.ne_of_gt ha.1), hins, ok_bind, Except.ok.injEq, Prod.mk.injEq] at hrun
    obtain ⟨rfl, rfl⟩ := hrun
    refine ⟨hk.1, fun hnew => ?_⟩
    have hdiff : ∀ x ∈ M, hashMemcmp a x ≠ 0 := fun x hx he =>
      hnew ((same_of_ok ha (hM x hx)).mp he ▸ hx)
    by_cases hroom : M.length < t.num_buckets
    · simp only [setStep, if_pos (And.intro hroom hdiff), Res.code.injEq] at hres
      exact ⟨fun _ => hroom, fun _ => hres.1⟩
    · simp only [setStep, if_neg (fun h : M.length < t.num_buckets ∧ _ => hroom h.1),
        Res.code.injEq] at hres
      refine ⟨fun h0 => ?_, fun h => absurd h hroom⟩
      have hc0 : c = 0 := h0
      omega

theorem deleteAddr_buckets {l : List ℕ} (h : Registers t free M) (ha : AddrOk a)
    (hrun : deleteAddr t a = .ok (t', l)) : buckets t' = buckets t := by
  cases t with
  | none =>
    rw [deleteAddr, Except.ok.injEq, Prod.mk.injEq] at hrun
    rw [← hrun.1]
  | some t =>
    obtain ⟨-, -, L, S, h⟩ := h
    obtain ⟨t'', L', S', hstep, -, hk⟩ := h.step (.delete a)
    obtain ⟨⟨u, c, d⟩, hdel, hres⟩ := bind_ok_iff.mp hstep
    rw [Except.ok.injEq, Prod.mk.injEq] at hres
    obtain ⟨rfl, -⟩ := hres
    rw [deleteAddr, if_neg (Nat.ne_of_gt ha.1), hdel, ok_bind, Except.ok.injEq, Prod.mk.injEq] at hrun
    rw [← hrun.1]
    exact hk.1

theorem created_buckets {n : ℕ} {calloc : Fin 3 → Bool} (h0 : n ≠ 0) (hn : n ≤ 2^31)
    (hrun : mpHashTableCreate hashMemaddr (some hashMemcmp) free n calloc = .ok t) (ht : t ≠ none) :
    n ≤ buckets t := by
  obtain ⟨m, hm, -, hle, -⟩ := MpHashSize.bucketsSize_spec hn
  rw [mpHashTableCreate, if_neg h0, hm, ok_bind] at hrun
  split at hrun
  · rw [Except.ok.injEq] at hrun
    rw [← hrun]
    exact hle
  · rw [Except.ok.injEq] at hrun
    exact absurd hrun.symm ht

end Buckets

section Pools

variable {s s' : State} {ps fs ls M : List ℕ} {B : ℕ → List ℕ} {size : ℕ}

/-- What `__get_mempool` does to the registry of pools. -/
theorem getMempool_buckets (env : Env) (hc : Core s ps fs [] ls M B) {r : Option ℕ}
    (hrun : getMempool env s = .ok (s', r)) :
    buckets s'.config.ht = buckets s.config.ht ∧
      (M.length < buckets s.config.ht → r ≠ none) := by
  obtain ⟨⟨s₁, np⟩, htake, hrest⟩ := bind_ok_iff.mp hrun
  rcases takeMempool_spec env hc htake with rfl | ⟨a, rfl, hc₁, -, hg, hht, -, -⟩
  · cases hrest
  have hrange := hc₁.range _ (hc₁.pool_live (a := a) (by simp))
  have hok : AddrOk a := ⟨hrange.1, by have := hrange.2.2; simp only [poolChunk] at this; omega⟩
  have hnew : a ∉ M := by
    intro hM
    have hin := hc.registered a hM
    rw [List.append_nil, ← hg.base] at hin
    exact (hc₁.out a (by simp)).1 hin
  obtain ⟨⟨t', c⟩, hins, hrest⟩ := bind_ok_iff.mp hrest
  obtain ⟨hb, hroom⟩ := insertAddr_room hc₁.ht hok hins
  rw [hht] at hb hroom
  dsimp only at hrest
  split at hrest
  · next hne =>
    obtain ⟨heap, -, hrest⟩ := bind_ok_iff.mp hrest
    rw [Except.ok.injEq, Prod.mk.injEq] at hrest
    rw [← hrest.1]
    exact ⟨hb, fun h => absurd ((hroom hnew).mpr h) hne⟩
  · rw [Except.ok.injEq, Prod.mk.injEq] at hrest
    obtain ⟨rfl, rfl⟩ := hrest
    exact ⟨hb, fun _ h => by cases h⟩

theorem allocAgain_buckets (env : Env) (h16 : 16 ≤ size) (fuel : ℕ) {tmp : Option ℕ}
    {r : Option (ℕ × ℕ)} (hc : Core s ps fs [] ls M B) (ht : ∀ a, tmp = some a → a ∈ s.base :: ps)
    (hrun : allocAgain env size fuel s tmp = .ok (s', r)) :
    buckets s'.config.ht = buckets s.config.ht := by
  induction fuel generalizing s ps fs M B tmp with
  | zero => cases hrun
  | succ fuel ih =>
    rw [allocAgain] at hrun
    obtain ⟨⟨s₁, r₁⟩, halloc, hrest⟩ := bind_ok_iff.mp hrun
    obtain ⟨ps₁, -, hcase⟩ := allocRealdata_spec h16 _ hc ht halloc
    rcases hcase with ⟨rfl, hc₁, hq⟩ | ⟨b, o, rfl, -, -, s₂, htook, rfl⟩
    · simp only at hrest
      split at hrest
      · rw [Except.ok.injEq, Prod.mk.injEq] at hrest
        rw [← hrest.1, hq.kept.config]
      · obtain ⟨⟨s₂, np⟩, hget, hrest⟩ := bind_ok_iff.mp hrest
        have hb := (getMempool_buckets env hc₁ hget).1
        rw [hq.kept.config] at hb
        obtain ⟨-, hcase⟩ := getMempool_spec env hc₁ hget
        rcases hcase with ⟨rfl, -⟩ | ⟨a, rfl, hc₂, hi₂, -⟩
        · rw [Except.ok.injEq, Prod.mk.injEq] at hrest
          rw [← hrest.1, hb]
        · obtain ⟨hc₃, hk₃, -⟩ := linkMempool_core hc₂ hi₂
          have hlink := ih hc₃ (fun x hx => by rw [← Option.some_inj.mp hx]; simp) hrest
          rw [hlink, hk₃.config, hb]
    · rw [Except.ok.injEq, Prod.mk.injEq] at hrest
      rw [← hrest.1]
      show buckets s₂.config.ht = _
      rw [htook.kept.config]

/-- A small request is refused by the second test of the cap only. -/
theorem allocAgain_refused (env : Env) (h16 : 16 ≤ size) (hs : size ≤ s.config.pool_size-mempoolSize)
    (fuel : ℕ) {tmp : Option ℕ} (hc : Core s ps fs [] ls M B) (hacct : Acct s ps ls)
    (hbuckets : s.config.max_memsize / s.config.pool_size+1 ≤ buckets s.config.ht)
    (ht : ∀ a, tmp = some a → a ∈ s.base :: ps)
    (hrun : allocAgain env size fuel s tmp = .ok (s', none)) :
    (s'.property.total_alloced+2*s.config.pool_size) % 2^64 ≥ s.config.max_memsize := by
  cases fuel with
  | zero => cases hrun
  | succ fuel =>
    rw [allocAgain] at hrun
    obtain ⟨⟨s₁, r₁⟩, halloc, hrest⟩ := bind_ok_iff.mp hrun
    obtain ⟨ps₁, hperm, hcase⟩ := allocRealdata_spec h16 _ hc ht halloc
    rcases hcase with ⟨rfl, hc₁, hq⟩ | ⟨b, o, rfl, -⟩
    · have hcfg := hq.kept.config
      simp only at hrest
      split at hrest
      · next hcap =>
        rw [Except.ok.injEq, Prod.mk.injEq] at hrest
        rw [← hrest.1]
        rw [hcfg] at hcap
        exact hcap
      · next hcap =>
        exfalso
        obtain ⟨⟨s₂, np⟩, hget, hrest⟩ := bind_ok_iff.mp hrest
        obtain ⟨hgain, hcase⟩ := getMempool_spec env hc₁ hget
        rcases hcase with ⟨rfl, -⟩ | ⟨a, rfl, hc₂, hi₂, -⟩
        · -- a registry of this size has room for every pool the cap admits
          have hsub : M.length ≤ (s₁.base :: ps₁).length := by
            apply (List.subperm_of_subset hc₁.ht.nodup _).length_le
            intro x hx
            have := hc₁.registered x hx
            rwa [List.append_nil] at this
          have hacct₁ := hacct.quiet hq hperm
          have halloced := hacct₁.alloced
          have hcap' := hacct₁.cap
          have hsz := hc.config.size.2
          have h208 := hc.config.size.1
          rw [hcfg] at halloced hcap
          rw [Nat.mod_eq_of_lt (by omega), Nat.not_le] at hcap
          have hmul : s.config.pool_size*(ps₁.length+2) < s.config.max_memsize := by
            rw [Nat.mul_add]
            omega
          have hdiv : ps₁.length+2 ≤ s.config.max_memsize / s.config.pool_size := by
            rw [Nat.le_div_iff_mul_le (by omega), Nat.mul_comm]
            omega
          have hb := (getMempool_buckets env hc₁ hget).2
          rw [hcfg] at hb
          rw [List.length_cons] at hsub
          exact hb (by omega) rfl
        · obtain ⟨hc₃, hk₃, -⟩ := linkMempool_core hc₂ hi₂
          have hidle : Function.update B a [] a = [] := Function.update_self ..
          have hsz : (linkMempool s₂ a).config.pool_size = s.config.pool_size := by
            rw [hk₃.config, hgain.config, hcfg]
          cases fuel with
          | zero => cases hrest
          | succ fuel =>
            obtain ⟨s₄, o, hrun₄, -⟩ := allocRealdata_idle hc₃ (by simp) hidle h16
              (hsz.symm ▸ hs) fuel 0
            simp only [allocAgain, hrun₄, ok_bind, Except.ok.injEq, Prod.mk.injEq] at hrest
            cases hrest.2
    · rw [Except.ok.injEq, Prod.mk.injEq] at hrest
      cases hrest.2

/-- A large request that `malloc` serves depends on the registry alone. -/
theorem allocLarge_room (env : Env) (hc : Core s ps fs [] ls M B) {r : Option ℕ}
    (hm : env.malloc s.heap.tick s.heap.live (memalign ((size+largeSize) % 2^32)) ≠ none)
    (hrun : allocLarge env s size = .ok (s', r)) :
    r ≠ none ↔ ls.length < buckets s.config.largeht := by
  have hlt : memalign ((size+largeSize) % 2^32) < 2^32 := memalign_lt _
  rw [allocLarge] at hrun
  generalize memalign ((size+largeSize) % 2^32) = n at *
  dsimp only at hrun
  cases ha : env.malloc s.heap.tick s.heap.live n with
  | none => exact absurd ha hm
  | some a =>
    obtain ⟨h0, hr, hap⟩ := env.fresh _ _ _ a .large ha
    have hmal : s.heap.malloc env n .large =
        (⟨⟨a, n, .large⟩ :: s.heap.live, s.heap.tick+1⟩, some a) := by
      rw [Heap.malloc, ha]
    simp only [hmal] at hrun
    obtain ⟨⟨t', c⟩, hins, hrest⟩ := bind_ok_iff.mp hrun
    have hins' : insertAddr s.config.largeht a = .ok (t', c) := hins
    obtain ⟨-, hroom⟩ := insertAddr_room hc.largeht ⟨h0, by omega⟩ hins'
    rw [← hroom (hc.fresh hap).2]
    dsimp only at hrest
    split at hrest
    · next h0 =>
      rw [Except.ok.injEq, Prod.mk.injEq] at hrest
      rw [← hrest.2]
      exact ⟨fun _ => h0, fun _ h => by cases h⟩
    · next h0 =>
      obtain ⟨heap, -, hrest⟩ := bind_ok_iff.mp hrest
      rw [Except.ok.injEq, Prod.mk.injEq] at hrest
      rw [← hrest.2]
      exact ⟨fun h => absurd rfl h, fun h => absurd h h0⟩

end Pools

section Frees

variable {s s' : State} {ps fs ls M : List ℕ} {B : ℕ → List ℕ} {a b o : ℕ} {v : Option ℕ}

@[simp] theorem setPool_config (p : Pool) : (s.setPool a p).config = s.config := rfl
@[simp] theorem setNext_config : (s.setNext a v).config = s.config := rfl
@[simp] theorem setPrev_config : (s.setPrev a v).config = s.config := rfl

@[simp] theorem setNext?_config {c : Option ℕ} : (s.setNext? c v).config = s.config := by
  cases c <;> rfl

@[simp] theorem setPrev?_config {c : Option ℕ} : (s.setPrev? c v).config = s.config := by
  cases c <;> rfl

theorem unlinkPool_config : (unlinkPool s b).config = s.config := by
  rw [unlinkPool]
  split <;> simp

theorem parkPool_config : (parkPool s b).config = s.config := by
  simp [parkPool]

theorem destroy_table (hrun : mempoolInternalDestroy s b = .ok s') :
    ∃ l, deleteAddr s.config.ht b = .ok (s'.config.ht, l) := by
  rw [mempoolInternalDestroy] at hrun
  dsimp only at hrun
  rw [unlinkPool_config] at hrun
  obtain ⟨⟨t, l⟩, hdel, hrun⟩ := bind_ok_iff.mp hrun
  refine ⟨l, ?_⟩
  split at hrun
  · rw [ok_bind, Except.ok.injEq] at hrun
    rw [hdel, ← hrun]
    dsimp only
    rw [parkPool_config]
  · obtain ⟨heap, -, hrun⟩ := bind_ok_iff.mp hrun
    rw [ok_bind, Except.ok.injEq] at hrun
    rw [hdel, ← hrun]

theorem move2header_config (hrun : mempoolMove2header s b = .ok s') : s'.config = s.config := by
  rw [mempoolMove2header] at hrun
  split at hrun
  · rw [Except.ok.injEq] at hrun
    rw [hrun]
  · obtain ⟨flag, -, hrun⟩ := bind_ok_iff.mp hrun
    split at hrun
    · obtain ⟨pprev, -, hrun⟩ := bind_ok_iff.mp hrun
      obtain ⟨pnext, -, hrun⟩ := bind_ok_iff.mp hrun
      rw [Except.ok.injEq] at hrun
      rw [← hrun]
      simp only [setPrev_config, setNext_config, setPrev?_config]
      split <;> rfl
    · rw [Except.ok.injEq] at hrun
      rw [hrun]

theorem pfreeRealdata_table (hrun : pfreeRealdata s b o = .ok s') :
    s'.config.ht = s.config.ht ∨ ∃ l, deleteAddr s.config.ht b = .ok (s'.config.ht, l) := by
  rw [pfreeRealdata] at hrun
  dsimp only at hrun
  split at hrun
  · split at hrun
    · have h := destroy_table hrun
      exact Or.inr h
    · rw [Except.ok.injEq] at hrun
      rw [← hrun]
      exact Or.inl rfl
  · split at hrun
    · rw [move2header_config hrun]
      exact Or.inl rfl
    · rw [Except.ok.injEq] at hrun
      rw [← hrun]
      exact Or.inl rfl

theorem pfree_buckets {ret : ℤ} (hc : Core s ps fs [] ls M B) (hb : b ∈ s.base :: ps) (ho : o ∈ B b)
    (hrun : pfree s (payload b o) = .ok (s', ret)) :
    buckets s'.config.ht = buckets s.config.ht := by
  obtain ⟨-, -, -, hst⟩ := block_bounds hc hb ho
  obtain ⟨hlive, h0, hend, h208⟩ := pool_range hc hb
  rw [pfree, if_neg (payload_pos hc hb)] at hrun
  simp only [checkLarge_small hc hb ho, checkRealdata_small hc hb ho, ok_bind, Bool.false_eq_true,
    if_false] at hrun
  by_cases hM : b ∈ M
  · simp only [if_pos hM, hst, if_neg Nat.one_ne_zero, ne_eq, not_true_eq_false, if_false] at hrun
    obtain ⟨t, ht, hrun⟩ := bind_ok_iff.mp hrun
    rw [Except.ok.injEq, Prod.mk.injEq] at hrun
    obtain ⟨rfl, -⟩ := hrun
    rcases pfreeRealdata_table ht with h | ⟨l, hdel⟩
    · rw [h]
    · exact deleteAddr_buckets hc.ht ⟨h0, by omega⟩ hdel
  · rw [if_neg hM, Except.ok.injEq, Prod.mk.injEq] at hrun
    rw [← hrun.1]

end Frees

section Runs

variable {env : Env} {s₀ s s' : State} {live live' ps fs ls M : List ℕ} {B : ℕ → List ℕ} {size : ℕ}

theorem palloc_buckets (env : Env) (fuel : ℕ) {r : Option ℕ} (hc : Core s ps fs [] ls M B)
    (hrun : palloc env fuel s size = .ok (s', r)) :
    buckets s'.config.ht = buckets s.config.ht := by
  obtain ⟨t, -, hc₁, hcase⟩ := palloc_cases env fuel hc hrun
  rcases hcase with ⟨-, -, hcfg, -⟩ | ⟨-, -, hlarge⟩ | ⟨-, h0, -, hfirst, s₁, b, hagain, hcfg, -, -⟩
  · rw [hcfg]
  · obtain ⟨-, -, hcfg, -⟩ := allocLarge_spec env hc₁ hlarge
    rw [hcfg]
  · have h16 : 16 ≤ size+realdataSize := by
      rw [realdataSize]
      omega
    have hb : buckets s₁.config.ht =
        buckets ({ s with heap := ⟨s.heap.live, t⟩ } : State).config.ht :=
      allocAgain_buckets env h16 fuel hc₁ hfirst hagain
    rw [hcfg]
    exact hb

theorem pcalloc_buckets (env : Env) (fuel : ℕ) {r : Option ℕ} (hc : Core s ps fs [] ls M B)
    (hrun : pcalloc env fuel s size = .ok (s', r)) :
    buckets s'.config.ht = buckets s.config.ht := by
  obtain ⟨⟨s₁, r₁⟩, hpal, hrest⟩ := bind_ok_iff.mp hrun
  have hb := palloc_buckets env fuel hc hpal
  cases r₁ with
  | none =>
    rw [Except.ok.injEq, Prod.mk.injEq] at hrest
    rw [← hrest.1]
    exact hb
  | some a =>
    obtain ⟨t, hstore, hrest⟩ := bind_ok_iff.mp hrest
    rw [Except.ok.injEq, Prod.mk.injEq] at hrest
    rw [← hrest.1, (untouched_store hstore).config]
    exact hb

theorem pmemcpyBytes_untouched {dest dsize used src n : ℕ} {c : ℤ}
    (hrun : pmemcpyBytes env s dest dsize used src n = .ok (s', c)) : Untouched s s' := by
  rcases pmemcpyBytes_cases env hrun with ⟨rfl, -⟩ | ⟨-, -, f, hstore⟩
  · exact Untouched.refl _
  · exact untouched_store hstore

theorem pmemcpyExtra_untouched {dest src n : ℕ} {r : Option ℕ}
    (hrun : pmemcpyExtra env s dest src n = .ok (s', r)) : Untouched s s' := by
  rw [pmemcpyExtra] at hrun
  dsimp only at hrun
  obtain ⟨isLarge, -, hrun⟩ := bind_ok_iff.mp hrun
  split at hrun
  · obtain ⟨⟨t, c⟩, hcpy, hrun⟩ := bind_ok_iff.mp hrun
    rw [Except.ok.injEq, Prod.mk.injEq] at hrun
    rw [← hrun.1]
    have ht := pmemcpyBytes_untouched hcpy
    dsimp only
    split
    · exact ht.trans (untouched_setLarge _ _ _)
    · exact ht
  · obtain ⟨⟨p, b, o⟩, -, hrun⟩ := bind_ok_iff.mp hrun
    cases p with
    | none =>
      rw [Except.ok.injEq, Prod.mk.injEq] at hrun
      rw [← hrun.1]
      exact Untouched.refl s
    | some p =>
      obtain ⟨⟨t, c⟩, hcpy, hrun⟩ := bind_ok_iff.mp hrun
      rw [Except.ok.injEq, Prod.mk.injEq] at hrun
      rw [← hrun.1]
      have ht := pmemcpyBytes_untouched hcpy
      dsimp only
      split
      · exact ht.trans (untouched_setPool _ _ _)
      · exact ht

theorem psprintfExtra_untouched {data : ℕ} {text : List UInt8} {len : ℤ}
    (hrun : psprintfExtra s data text = .ok (s', len)) : Untouched s s' := by
  rw [psprintfExtra] at hrun
  dsimp only at hrun
  split at hrun
  · rw [Except.ok.injEq, Prod.mk.injEq] at hrun
    rw [← hrun.1]
    exact Untouched.refl s
  obtain ⟨isLarge, -, hrun⟩ := bind_ok_iff.mp hrun
  split at hrun
  · split at hrun
    · obtain ⟨t, hprint, hrun⟩ := bind_ok_iff.mp hrun
      rw [Except.ok.injEq, Prod.mk.injEq] at hrun
      rw [← hrun.1]
      have ht := untouched_store hprint
      split
      · exact ht.trans (untouched_setLarge _ _ _)
      · exact ht
    · rw [Except.ok.injEq, Prod.mk.injEq] at hrun
      rw [← hrun.1]
      exact Untouched.refl s
  · obtain ⟨⟨p, b, o⟩, -, hrun⟩ := bind_ok_iff.mp hrun
    cases p with
    | none =>
      rw [Except.ok.injEq, Prod.mk.injEq] at hrun
      rw [← hrun.1]
      exact Untouched.refl s
    | some p =>
      dsimp only at hrun
      split at hrun
      · obtain ⟨t, hprint, hrun⟩ := bind_ok_iff.mp hrun
        rw [Except.ok.injEq, Prod.mk.injEq] at hrun
        rw [← hrun.1]
        have ht := untouched_store hprint
        split
        · exact ht.trans (untouched_setPool _ _ _)
        · exact ht
      · rw [Except.ok.injEq, Prod.mk.injEq] at hrun
        rw [← hrun.1]
        exact Untouched.refl s

theorem pzeroExtra_untouched {data : ℕ} (hrun : pzeroExtra s data = .ok s') : Untouched s s' := by
  rw [pzeroExtra] at hrun
  obtain ⟨isLarge, -, hrun⟩ := bind_ok_iff.mp hrun
  split at hrun
  · rw [Except.ok.injEq] at hrun
    rw [← hrun]
    exact untouched_setLarge _ _ _
  · obtain ⟨⟨p, b, o⟩, -, hrun⟩ := bind_ok_iff.mp hrun
    cases p with
    | none =>
      rw [Except.ok.injEq] at hrun
      rw [← hrun]
      exact Untouched.refl s
    | some p =>
      rw [Except.ok.injEq] at hrun
      rw [← hrun]
      exact untouched_setPool _ _ _

theorem step_buckets (hI : Inv s₀ s live ps fs ls M B) (h : Step env s live s' live') :
    buckets s'.config.ht = buckets s.config.ht := by
  cases h with
  | palloc fuel size r hs hrun => exact palloc_buckets env fuel hI.core hrun
  | pcalloc fuel size r hs hrun => exact pcalloc_buckets env fuel hI.core hrun
  | pfree data ret hd hrun =>
    rcases hI.held data hd with ⟨b, hb, o, ho, rfl⟩ | ⟨a, ha, rfl⟩
    · exact pfree_buckets hI.core hb ho hrun
    · obtain ⟨t, hrun', -, -, -, -, hcfg, -⟩ := pfree_large hI.core ha
      rw [hrun', Except.ok.injEq, Prod.mk.injEq] at hrun
      rw [← hrun.1, hcfg]
  | pmemcpyExtra dest src n r hn hd hrun => rw [(pmemcpyExtra_untouched hrun).config]
  | psprintfExtra data text len hd hrun => rw [(psprintfExtra_untouched hrun).config]
  | pzeroExtra data hd hrun => rw [(pzeroExtra_untouched hrun).config]
  | write data y n cap f hd hcap hn hlo hhi hrun => rw [(untouched_store hrun).config]

theorem start_buckets (hs : Start env s₀) (hr : Roomy s₀) (hht : s₀.config.ht ≠ none) :
    s₀.config.max_memsize / s₀.config.pool_size+1 ≤ buckets s₀.config.ht := by
  obtain ⟨h, h', sz, maxmem, single_max, max_freepool, max_searchpool, judge_alloc, a, f, hclean,
    hrun, rfl⟩ := hs
  obtain ⟨-, -, -, hok, -, -, ht, largeht, hcfg, htab⟩ := mempoolInitExtra_shape hrun
  have hcfg' : (f.state a h').config = f.config := rfl
  rw [Roomy, hcfg', hcfg, mempoolSize, realdataSize] at hr
  rw [hcfg', hcfg] at hht ⊢
  have hroom : 207 < initSize sz := hr
  have hne : ht ≠ none := hht
  show maxMemsize maxmem (initSize sz) / initSize sz+1 ≤ buckets ht
  split at htab
  · obtain ⟨t, r, hcreate, hins, -⟩ := htab
    have hdiv : maxMemsize maxmem (initSize sz) / initSize sz ≤ 2^30 := by
      have hle := initSize_le sz
      apply Nat.div_le_of_le_mul
      rw [maxMemsize, mempoolMaxTotal]
      omega
    have hlow : 1 ≤ maxMemsize maxmem (initSize sz) / initSize sz :=
      (Nat.one_le_div_iff (by omega)).mpr (Nat.le_max_right _ _)
    have hsize : hashSize maxmem (initSize sz) = maxMemsize maxmem (initSize sz) / initSize sz+1 := by
      rw [hashSize, Nat.mod_eq_of_lt (by omega)]
    rw [hsize] at hcreate
    have hreg := registers_created (by omega) (by omega) hcreate
    have hb := (insertAddr_room hreg hok hins).1
    have htn : t ≠ none := by
      rintro rfl
      rw [insertAddr, Except.ok.injEq, Prod.mk.injEq] at hins
      exact hne hins.1.symm
    rw [hb]
    exact created_buckets (by omega) (by omega) hcreate htn
  · exact absurd htab.1 hne

theorem reach_buckets (hs : Start env s₀) (hr : Roomy s₀) (hht : s₀.config.ht ≠ none)
    (h : Reach env s₀ s live) :
    s₀.config.max_memsize / s₀.config.pool_size+1 ≤ buckets s.config.ht := by
  induction h with
  | start => exact start_buckets hs hr hht
  | step hreach hstep ih =>
    obtain ⟨ps, fs, ls, M, B, hI⟩ := reach_inv hs hr hreach
    rw [step_buckets hI hstep]
    exact ih

end Runs

section Registries

variable {env : Env} {s₀ s s' : State} {live ps fs ls M : List ℕ} {B : ℕ → List ℕ} {size : ℕ}
  {r : Option ℕ}

/-- A request that fails one of the tests of `palloc`: one on entry, or for a small
one the test of the cap before a new pool is fetched. -/
def Capped (env : Env) (s s' : State) (size : ℕ) : Prop :=
  ¬Passes env s size ∨ size ≤ threshold s ∧
    (s'.property.total_alloced+2*s.config.pool_size) % 2^64 ≥ s.config.max_memsize

/-- `malloc` has the chunk `palloc` may ask for. -/
def Serves (env : Env) (s : State) (size : ℕ) : Prop :=
  ∀ n, n = s.config.pool_size ∨ n = memalign ((size+largeSize) % 2^32) →
    env.malloc (judged env s size).1.heap.tick s.heap.live n ≠ none

/-- `palloc` returns null for a request that passes its tests exactly when the
insertion into a registry fails. The insertion of a pool never does; that of a
large block does when the registry holds as many as it has buckets. -/
theorem registries_suffice (env : Env) (s₀ s s' : State) (live : List ℕ) (fuel size : ℕ)
    (r : Option ℕ) (hs : Start env s₀) (hr : Roomy s₀) (hht : s₀.config.ht ≠ none)
    (hreach : Reach env s₀ s live) (hm : Serves env s size)
    (hrun : palloc env fuel s size = .ok (s', r)) :
    (r = none → Capped env s s' size) ↔ (Passes env s size → threshold s < size →
      elements s.config.largeht < buckets s.config.largeht) := by
  obtain ⟨ps, fs, ls, M, B, hI⟩ := reach_inv hs hr hreach
  have hc := hI.core
  have hbuckets := reach_buckets hs hr hht hreach
  have hsz := hc.config.size
  simp only [SizeOk, mempoolSize, realdataSize] at hsz
  rw [registers_elements hc.largeht, threshold_eq hc.config]
  obtain ⟨t, htick, hc₁, hcase⟩ := palloc_cases env fuel hc hrun
  rcases hcase with ⟨hno, -⟩ | ⟨hpass, hbig, hlarge⟩ | ⟨hpass, h0, hsmall, hfirst, s₁, b, hagain, -,
    hprop, hnone⟩
  · exact iff_of_true (fun _ => Or.inl hno) (fun h => absurd h hno)
  · have hmal := hm _ (Or.inr rfl)
    rw [htick] at hmal
    have hroom := allocLarge_room env hc₁ hmal hlarge
    constructor
    · intro hgrant _ _
      apply hroom.mp
      intro hn
      rcases hgrant hn with h | ⟨h, -⟩
      · exact h hpass
      · rw [threshold_eq hc.config] at h
        omega
    · intro hlt hn
      exact absurd hn (hroom.mpr (hlt hpass (by omega)))
  · refine iff_of_true (fun hn => Or.inr ⟨?_, ?_⟩) (fun _ h => by omega)
    · rw [threshold_eq hc.config]
      omega
    · rw [hnone.mp hn] at hagain
      have hcap := allocAgain_refused env (by rw [realdataSize]; omega)
        (by simp only [realdataSize, mempoolSize]; omega) fuel hc₁
        (@Acct.congr s { s with heap := ⟨s.heap.live, t⟩ } ps ls hI.acct rfl rfl rfl rfl fun _ => rfl)
        (by rw [hI.config] at hbuckets ⊢; exact hbuckets) hfirst hagain
      rw [hprop]
      exact hcap

/-- In a pool of 208 bytes with room for 415 in all two blocks of two bytes fill the
registry of large blocks. -/
theorem two_large : ∃ s₀ s₁ s₂ s₃, opened (filled 0) 208 415 415 0 = .ok s₀ ∧
    palloc (filled 0) 3 s₀ 2 = .ok (s₁, some 236) ∧ palloc (filled 0) 3 s₁ 2 = .ok (s₂, some 252) ∧
    palloc (filled 0) 3 s₂ 2 = .ok (s₃, none) ∧ s₀.config.ht.isSome = true ∧
    Serves (filled 0) s₁ 2 ∧ Serves (filled 0) s₂ 2 ∧
    elements s₁.config.largeht < buckets s₁.config.largeht ∧
    Passes (filled 0) s₂ 2 ∧ threshold s₂ < 2 := by
  have hrun : (do
      let s₀ ← opened (filled 0) 208 415 415 0
      let r₁ ← palloc (filled 0) 3 s₀ 2
      let r₂ ← palloc (filled 0) 3 r₁.1 2
      let r₃ ← palloc (filled 0) 3 r₂.1 2
      let h₁ := (judged (filled 0) r₁.1 2).1.heap.tick
      let h₂ := (judged (filled 0) r₂.1 2).1.heap.tick
      .ok (r₁.2, r₂.2, r₃.2, s₀.config.ht.isSome &&
        (((filled 0).malloc h₁ r₁.1.heap.live 208).isSome &&
          (((filled 0).malloc h₁ r₁.1.heap.live 16).isSome && (r₁.1.config.pool_size == 208 &&
            decide (elements r₁.1.config.largeht < buckets r₁.1.config.largeht)))) &&
        (((filled 0).malloc h₂ r₂.1.heap.live 208).isSome &&
          (((filled 0).malloc h₂ r₂.1.heap.live 16).isSome && (r₂.1.config.pool_size == 208 &&
            (!refuses r₂.1 2 && ((judged (filled 0) r₂.1 2).2 && threshold r₂.1 == 1))))))) =
      (.ok (some 236, some 252, none, true) : Run (Option ℕ × Option ℕ × Option ℕ × Bool)) := by
    decide +kernel
  obtain ⟨s₀, h₀, hrun⟩ := bind_ok_iff.mp hrun
  obtain ⟨⟨s₁, r₁⟩, h₁, hrun⟩ := bind_ok_iff.mp hrun
  obtain ⟨⟨s₂, r₂⟩, h₂, hrun⟩ := bind_ok_iff.mp hrun
  obtain ⟨⟨s₃, r₃⟩, h₃, hrun⟩ := bind_ok_iff.mp hrun
  simp only [Except.ok.injEq, Prod.mk.injEq, Bool.and_eq_true, decide_eq_true_eq, beq_iff_eq,
    Bool.not_eq_true'] at hrun
  obtain ⟨rfl, rfl, rfl, ⟨hht, hm₁, hm₂, hp₁, hlt⟩, hm₃, hm₄, hp₂, href, hj, hthr⟩ := hrun
  have h16 : memalign ((2+largeSize) % 2^32) = 16 := by decide
  refine ⟨s₀, s₁, s₂, s₃, h₀, h₁, h₂, h₃, hht, fun n hn => ?_, fun n hn => ?_, hlt, ⟨href, hj⟩,
    by rw [hthr]; decide⟩
  · rcases hn with rfl | rfl
    · rw [hp₁]
      exact Option.isSome_iff_ne_none.mp hm₁
    · rw [h16]
      exact Option.isSome_iff_ne_none.mp hm₂
  · rcases hn with rfl | rfl
    · rw [hp₂]
      exact Option.isSome_iff_ne_none.mp hm₃
    · rw [h16]
      exact Option.isSome_iff_ne_none.mp hm₄

theorem opened_roomy {sz maxmem single_max max_freepool : ℕ}
    (h : opened env sz maxmem single_max max_freepool = .ok s)
    (hsz : mempoolSize+realdataSize < initSize sz) : Roomy s := by
  rw [Roomy, (opened_start h).2]
  exact hsz

/-- The second block of two bytes is served. -/
theorem registries_suffice_second : ∃ s₁ s₂ r, palloc (filled 0) 3 s₁ 2 = .ok (s₂, r) ∧
    (r = none → Capped (filled 0) s₁ s₂ 2) := by
  obtain ⟨s₀, s₁, s₂, s₃, h₀, h₁, h₂, -, hht, hm, -, hlt, -⟩ := two_large
  have hreach := Reach.step .start (Step.palloc 3 2 (some 236) (by decide) h₁)
  refine ⟨s₁, s₂, some 252, h₂, (registries_suffice (filled 0) s₀ s₁ s₂ _ 3 2 (some 252)
    (opened_start h₀).1 (opened_roomy h₀ (by decide)) (Option.isSome_iff_ne_none.mp hht) hreach hm h₂).mpr ?_⟩
  exact fun _ _ => hlt

/-- The third one is refused though the cap has room for it. -/
theorem registries_fill :
    ¬∀ (env : Env) (s₀ s s' : State) (live : List ℕ) (fuel size : ℕ) (r : Option ℕ), Start env s₀ →
      Roomy s₀ → s₀.config.ht ≠ none → Reach env s₀ s live → Serves env s size →
      palloc env fuel s size = .ok (s', r) → r = none → Capped env s s' size := by
  intro hall
  obtain ⟨s₀, s₁, s₂, s₃, h₀, h₁, h₂, h₃, hht, -, hm, -, hpass, hthr⟩ := two_large
  have hreach := Reach.step (.step .start (Step.palloc 3 2 (some 236) (by decide) h₁))
    (Step.palloc 3 2 (some 252) (by decide) h₂)
  rcases hall (filled 0) s₀ s₂ s₃ _ 3 2 none (opened_start h₀).1 (opened_roomy h₀ (by decide))
    (Option.isSome_iff_ne_none.mp hht) hreach hm h₃ rfl with h | ⟨h, -⟩
  · exact h hpass
  · omega

end Registries

end CLearning.MempoolTables
