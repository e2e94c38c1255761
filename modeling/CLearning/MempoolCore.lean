import CLearning.MempoolChain
import CLearning.MempoolRegistry
import CLearning.MempoolServe

/-!
# The invariant of a memory pool

A memory pool is the chain of its pools, the heap invariant of each of them,
the chunks `malloc` gave it and the two registries. `B` lists the busy blocks of
every pool, `ls` the large chunks and `M` the registered pools. The search of
`palloc` reorders the chain and takes at most one block.
-/

set_option autoImplicit false

namespace CLearning.MempoolCore
open CLearning.Machine CLearning.LinkedLists CLearning.MempoolBytes CLearning.MempoolPool
open CLearning.MempoolHeap CLearning.MempoolServe CLearning.MempoolState CLearning.Mempool
open CLearning.MempoolChain CLearning.MempoolRegistry

section Chunks

variable {h : Heap} {l : List Chunk} {c d : Chunk}

theorem not_apart_self (c : Chunk) : ¬Chunk.Apart c c := by
  rintro (h | h) <;> omega

theorem apart_of_mem (hp : l.Pairwise Chunk.Apart) (hc : c ∈ l) (hd : d ∈ l) (hcd : c ≠ d) :
    Chunk.Apart c d := by
  have : Std.Symm Chunk.Apart := ⟨fun _ _ => Or.symm⟩
  exact hp.forall hc hd hcd

theorem addr_ne (hp : l.Pairwise Chunk.Apart) (hc : c ∈ l) (hd : d ∈ l) (hcd : c ≠ d) :
    c.addr ≠ d.addr := by
  intro he
  rcases apart_of_mem hp hc hd hcd with h | h <;> omega

theorem nodup_of_apart (hp : l.Pairwise Chunk.Apart) : l.Nodup :=
  hp.imp fun {c d} (hcd : Chunk.Apart c d) (he : c = d) => not_apart_self d (he ▸ hcd)

theorem eraseP_addr (hp : l.Pairwise Chunk.Apart) (hc : c ∈ l) :
    l.eraseP (·.addr = c.addr) = l.erase c := by
  rw [List.erase_eq_eraseP]
  induction l with
  | nil => rfl
  | cons d l ih =>
    have hp' := (List.pairwise_cons.mp hp).2
    by_cases hcd : c = d
    · subst hcd
      rw [List.eraseP_cons_of_pos (by simp), List.eraseP_cons_of_pos (by simp)]
    · have hne := addr_ne hp hc (by simp) hcd
      have hcl : c ∈ l := (List.mem_cons.mp hc).resolve_left hcd
      rw [List.eraseP_cons_of_neg (by simpa using Ne.symm hne),
        List.eraseP_cons_of_neg (by simpa using hcd), ih hp' hcl]

theorem free_spec (hp : h.live.Pairwise Chunk.Apart) (hc : c ∈ h.live) :
    h.free c.addr = .ok ⟨h.live.erase c, h.tick⟩ := by
  rw [Heap.free, if_pos ⟨c, hc, rfl⟩, eraseP_addr hp hc]

theorem mem_erase_chunk (hp : h.live.Pairwise Chunk.Apart) :
    d ∈ h.live.erase c ↔ d ≠ c ∧ d ∈ h.live :=
  (nodup_of_apart hp).mem_erase_iff

theorem freeAll_spec (cs : List Chunk) (hp : h.live.Pairwise Chunk.Apart) (hnd : cs.Nodup)
    (hc : ∀ c ∈ cs, c ∈ h.live) :
    ∃ l, h.freeAll (cs.map Chunk.addr) = .ok ⟨l, h.tick⟩ ∧ l.Sublist h.live ∧
      ∀ d, d ∈ l ↔ d ∈ h.live ∧ d ∉ cs := by
  induction cs generalizing h with
  | nil => exact ⟨h.live, rfl, List.Sublist.refl _, by simp⟩
  | cons c cs ih =>
    have hcc := hc c (by simp)
    obtain ⟨hccs, hnd'⟩ := List.nodup_cons.mp hnd
    have hsub : (h.live.erase c).Sublist h.live := List.erase_sublist
    obtain ⟨l, hrun, hl, hmem⟩ := @ih ⟨h.live.erase c, h.tick⟩ (hp.sublist hsub) hnd'
      (fun d hd => (mem_erase_chunk hp).mpr ⟨fun he => hccs (he ▸ hd), hc d (by simp [hd])⟩)
    refine ⟨l, ?_, hl.trans hsub, fun d => ?_⟩
    · rw [List.map_cons, Heap.freeAll, free_spec hp hcc, ok_bind, hrun]
    · rw [hmem, mem_erase_chunk hp, List.mem_cons, not_or]
      tauto

theorem locate_unique {s : State} {a n : ℕ} (hp : s.heap.live.Pairwise Chunk.Apart)
    (hc : c ∈ s.heap.live) (hn : 1 ≤ n) (ha : c.addr ≤ a) (hb : a+n ≤ c.addr+c.size) :
    s.locate a n = (match c.kind with
      | .pool => if c.addr+mempoolSize ≤ a then some (.pool c.addr (a-c.addr-mempoolSize)) else none
      | .large => some (.large c.addr (a-c.addr))
      | .other => none) := by
  unfold State.locate
  generalize s.heap.live = l at *
  induction l with
  | nil => cases hc
  | cons d l ih =>
    by_cases hcd : c = d
    · subst hcd
      have hrest : ∀ e ∈ l, Chunk.Apart c e := (List.pairwise_cons.mp hp).1
      have hnone : l.findSome? (fun c => match c.kind with
          | .pool => if c.addr+mempoolSize ≤ a ∧ a+n ≤ c.addr+c.size then
              some (State.Place.pool c.addr (a-c.addr-mempoolSize)) else none
          | .large => if c.addr ≤ a ∧ a+n ≤ c.addr+c.size then
              some (State.Place.large c.addr (a-c.addr)) else none
          | .other => none) = none := by
        rw [List.findSome?_eq_none_iff]
        intro e he
        have hap := hrest e he
        cases e.kind with
        | pool => exact if_neg (fun hin => by rcases hap with h | h <;> omega)
        | large => exact if_neg (fun hin => by rcases hap with h | h <;> omega)
        | other => rfl
      rw [List.findSome?_cons]
      cases hk : c.kind with
      | pool =>
        by_cases hin : c.addr+mempoolSize ≤ a
        · simp [hin, hb]
        · simp only [hin, false_and, if_false]
          exact hnone
      | large => simp [ha, hb]
      | other => exact hnone
    · have hcl : c ∈ l := (List.mem_cons.mp hc).resolve_left hcd
      have hap := apart_of_mem hp hc (by simp) hcd
      have hpool : ¬(d.addr+mempoolSize ≤ a ∧ a+n ≤ d.addr+d.size) :=
        fun hin => by rcases hap with h | h <;> omega
      have hlarge : ¬(d.addr ≤ a ∧ a+n ≤ d.addr+d.size) :=
        fun hin => by rcases hap with h | h <;> omega
      rw [List.findSome?_cons, ← ih (List.pairwise_cons.mp hp).2 hcl]
      cases d.kind <;> simp [hpool, hlarge]

end Chunks

structure ConfigOk (c : Config) : Prop where
  size : SizeOk c.pool_size
  again : initSize c.pool_size = c.pool_size
  freepool : c.max_freepool < 256
  low : c.pool_size ≤ c.max_memsize
  high : c.max_memsize ≤ mempoolMaxTotal

def PoolInv (p : Pool) (B : List ℕ) : Prop := ∃ T L, HeapInv p T L ∧ L .busy = B

def poolChunk (s : State) (a : ℕ) : Chunk := ⟨a, s.config.pool_size, .pool⟩
def largeChunk (s : State) (a : ℕ) : Chunk := ⟨a, largeBytes (s.larges a), .large⟩

structure Core (s : State) (ps fs xs ls M : List ℕ) (B : ℕ → List ℕ) : Prop where
  config : ConfigOk s.config
  chain : Chain s ps fs
  out : ∀ a ∈ xs, a ∉ s.base :: ps ∧ a ∉ fs
  size : ∀ a ∈ s.base :: ps ++ fs ++ xs, (s.pools a).pool_size = s.config.pool_size
  inv : ∀ a ∈ s.base :: ps ++ fs, PoolInv (s.pools a) (B a)
  idle : ∀ a ∈ fs, B a = []
  few : fs.length < 256
  apart : s.heap.live.Pairwise Chunk.Apart
  range : ∀ c ∈ s.heap.live, 0 < c.addr ∧ c.addr % 16 = 0 ∧ c.addr+max c.size 1 ≤ 2^64
  owned : ∀ c, (c ∈ s.heap.live ∧ c.kind ≠ .other) ↔
    (∃ a ∈ s.base :: ps ++ fs ++ xs, c = poolChunk s a) ∨ ∃ a ∈ ls, c = largeChunk s a
  ht : Registers s.config.ht false M
  largeht : Registers s.config.largeht true ls
  registered : ∀ a ∈ M, a ∈ s.base :: ps ++ xs

structure SameBlocks (p q : Pool) : Prop where
  freelist : q.freelist = p.freelist
  busylist : q.busylist = p.busylist
  pool_size : q.pool_size = p.pool_size
  leftsize : q.leftsize = p.leftsize
  data : q.data = p.data

theorem PoolInv.congr {p q : Pool} {B : List ℕ} (h : PoolInv p B) (hs : SameBlocks p q) :
    PoolInv q B := by
  obtain ⟨T, L, hi, hb⟩ := h
  exact ⟨T, L, hi.congr hs.freelist hs.busylist hs.pool_size hs.leftsize hs.data, hb⟩

structure Kept (B : ℕ → List ℕ) (s s' : State) : Prop where
  base : s'.base = s.base
  config : s'.config = s.config
  heap : s'.heap = s.heap
  larges : s'.larges = s.larges
  alloced : s'.property.total_alloced = s.property.total_alloced
  leftsize : s'.property.total_leftsize = s.property.total_leftsize
  wrapped : s'.property.wrapped = s.property.wrapped
  blocks : ∀ a, ∀ o ∈ B a, (s'.pools a).rd o .size = (s.pools a).rd o .size ∧
    (s'.pools a).rd o .used = (s.pools a).rd o .used

theorem Kept.refl (B : ℕ → List ℕ) (s : State) : Kept B s s :=
  ⟨rfl, rfl, rfl, rfl, rfl, rfl, rfl, fun _ _ _ => ⟨rfl, rfl⟩⟩

theorem Kept.trans {B : ℕ → List ℕ} {s t u : State} (h : Kept B s t) (h' : Kept B t u) :
    Kept B s u where
  base := h'.base.trans h.base
  config := h'.config.trans h.config
  heap := h'.heap.trans h.heap
  larges := h'.larges.trans h.larges
  alloced := h'.alloced.trans h.alloced
  leftsize := h'.leftsize.trans h.leftsize
  wrapped := h'.wrapped.trans h.wrapped
  blocks a o ho := ⟨(h'.blocks a o ho).1.trans (h.blocks a o ho).1,
    (h'.blocks a o ho).2.trans (h.blocks a o ho).2⟩

section Moves

variable {s s' : State} {ps ps' fs xs ls M : List ℕ} {B : ℕ → List ℕ} {a : ℕ}

theorem SameBlocks.refl (p : Pool) : SameBlocks p p := ⟨rfl, rfl, rfl, rfl, rfl⟩

theorem Relinked.sameBlocks (h : Relinked s s') (a : ℕ) : SameBlocks (s.pools a) (s'.pools a) := by
  rw [h.pools a]
  exact ⟨rfl, rfl, rfl, rfl, rfl⟩

theorem Relinked.kept (h : Relinked s s') : Kept B s s' := by
  rw [h.same]
  refine ⟨rfl, rfl, rfl, rfl, rfl, rfl, rfl, fun a o _ => ?_⟩
  rw [Pool.rd, Pool.rd, Pool.rd, Pool.rd, (Relinked.sameBlocks h a).data]
  exact ⟨rfl, rfl⟩

theorem mem_all {b : ℕ} {fs : List ℕ} (h : ps'.Perm ps) (x : ℕ) :
    x ∈ b :: ps' ++ fs ↔ x ∈ b :: ps ++ fs := by
  simp [h.mem_iff]

theorem Core.linked (_ : Core s ps fs xs ls M B) (ha : a ∈ s.base :: ps) :
    a ∈ s.base :: ps ++ fs ++ xs :=
  List.mem_append_left _ (List.mem_append_left _ ha)

theorem Core.linked_inv (hc : Core s ps fs xs ls M B) (ha : a ∈ s.base :: ps) :
    PoolInv (s.pools a) (B a) := hc.inv a (List.mem_append_left _ ha)

/-- The same pools, in other lists or in another order. -/
theorem Core.rebuild {ps' fs' xs' M' : List ℕ} {B' : ℕ → List ℕ} (hc : Core s ps fs xs ls M B)
    (hb : s'.base = s.base) (hcfg : s'.config = { s.config with ht := s'.config.ht })
    (hh : s'.heap = s.heap) (hl : s'.larges = s.larges)
    (hsz : ∀ a, (s'.pools a).pool_size = (s.pools a).pool_size) (hch : Chain s' ps' fs')
    (hinv : ∀ a ∈ s.base :: ps' ++ fs', PoolInv (s'.pools a) (B' a))
    (hmem : ∀ x, x ∈ s.base :: ps' ++ fs' ++ xs' ↔ x ∈ s.base :: ps ++ fs ++ xs)
    (hout : ∀ x ∈ xs', x ∉ s.base :: ps' ∧ x ∉ fs') (hidle : ∀ x ∈ fs', B' x = [])
    (hfew : fs'.length < 256)
    (hreg : Registers s'.config.ht false M') (hM : ∀ x ∈ M', x ∈ s.base :: ps' ++ xs') :
    Core s' ps' fs' xs' ls M' B' where
  config := by
    have h := hc.config
    rw [hcfg]
    exact ⟨h.size, h.again, h.freepool, h.low, h.high⟩
  chain := hch
  out a ha := by
    rw [hb]
    exact hout a ha
  size a ha := by
    rw [hb, hmem] at ha
    rw [hsz a, hcfg]
    exact hc.size a ha
  inv a ha := by
    rw [hb] at ha
    exact hinv a ha
  idle := hidle
  few := hfew
  apart := hh ▸ hc.apart
  range := hh ▸ hc.range
  owned c := by
    have hsz : s'.config.pool_size = s.config.pool_size := by rw [hcfg]
    rw [hh, hc.owned c]
    simp only [poolChunk, largeChunk, hb, hsz, hl, hmem]
  ht := hreg
  largeht := by
    have hlt : s'.config.largeht = s.config.largeht := by rw [hcfg]
    rw [hlt]
    exact hc.largeht
  registered a ha := by
    rw [hb]
    exact hM a ha

theorem Core.reorder (hc : Core s ps fs xs ls M B) (hk : Kept B s s')
    (hp : ∀ a, SameBlocks (s.pools a) (s'.pools a)) (hch : Chain s' ps' fs)
    (hperm : ps'.Perm ps) : Core s' ps' fs xs ls M B := by
  apply hc.rebuild hk.base _ hk.heap hk.larges (fun a => (hp a).pool_size) hch _ _ _ hc.idle hc.few
  · rw [hk.config]
    exact hc.ht
  · intro x hx
    simpa [hperm.mem_iff] using hc.registered x hx
  · rw [hk.config]
  · intro x hx
    rw [mem_all hperm] at hx
    exact (hc.inv x hx).congr (hp x)
  · intro x
    simp [hperm.mem_iff]
  · intro x hx
    simpa [hperm.mem_iff] using hc.out x hx

theorem countFailed_kept (s : State) (a : ℕ) (B : ℕ → List ℕ) :
    Kept B s (countFailed s a) ∧ (∀ x, SameBlocks (s.pools x) ((countFailed s a).pools x)) ∧
      (∀ x, ((countFailed s a).pools x).prev = (s.pools x).prev ∧
        ((countFailed s a).pools x).next = (s.pools x).next) ∧
      (countFailed s a).property = s.property := by
  unfold countFailed
  split
  · have hx : ∀ x, SameBlocks (s.pools x) ((s.setFailed a ((s.pools a).failed+1)).pools x) ∧
        ((s.setFailed a ((s.pools a).failed+1)).pools x).prev = (s.pools x).prev ∧
        ((s.setFailed a ((s.pools a).failed+1)).pools x).next = (s.pools x).next := by
      intro x
      by_cases hxa : x = a
      · subst hxa
        have he : (s.setFailed x ((s.pools x).failed+1)).pools x =
            { s.pools x with failed := (s.pools x).failed+1 } := by
          simp [State.setFailed, State.setPool]
        rw [he]
        exact ⟨⟨rfl, rfl, rfl, rfl, rfl⟩, rfl, rfl⟩
      · have he : (s.setFailed a ((s.pools a).failed+1)).pools x = s.pools x := by
          simp [State.setFailed, State.setPool, hxa]
        rw [he]
        exact ⟨SameBlocks.refl _, rfl, rfl⟩
    refine ⟨⟨rfl, rfl, rfl, rfl, rfl, rfl, rfl, fun x o _ => ?_⟩, fun x => (hx x).1,
      fun x => (hx x).2, rfl⟩
    rw [Pool.rd, Pool.rd, Pool.rd, Pool.rd, (hx x).1.data]
    exact ⟨rfl, rfl⟩
  · exact ⟨Kept.refl _ _, fun _ => SameBlocks.refl _, fun _ => ⟨rfl, rfl⟩, rfl⟩

theorem countFailed_core (hc : Core s ps fs xs ls M B) (a : ℕ) :
    Core (countFailed s a) ps fs xs ls M B := by
  obtain ⟨hk, hp, hl, hq⟩ := countFailed_kept s a B
  exact hc.reorder hk hp (hc.chain.congr hk.base (by rw [hq]) (by rw [hq]) (by rw [hq])
    (fun x => (hl x).1) (fun x => (hl x).2)) (List.Perm.refl _)

theorem move2tail_core (hc : Core s ps fs xs ls M B) (ha : a ∈ s.base :: ps) :
    ∃ s' ps', mempoolMove2tail s a = .ok s' ∧ ps'.Perm ps ∧ Core s' ps' fs xs ls M B ∧
      Kept B s s' ∧ ∀ x, SameBlocks (s.pools x) (s'.pools x) := by
  by_cases hlast : a = s.base ∨ ps.getLast? = some a
  · exact ⟨s, ps, mempoolMove2tail_last hc.chain hlast, List.Perm.refl _, hc, Kept.refl _ _,
      fun _ => SameBlocks.refl _⟩
  · rw [not_or] at hlast
    have hps : a ∈ ps := (List.mem_cons.mp ha).resolve_left hlast.1
    obtain ⟨p₁, p₂, rfl, -, -, -⟩ := hc.chain.split hps
    have hp₂ : p₂ ≠ [] := by
      rintro rfl
      exact hlast.2 (by simp)
    obtain ⟨s', hrun, hch, hr⟩ := mempoolMove2tail_spec hc.chain hp₂
    have hperm : (p₁ ++ p₂ ++ [a]).Perm (p₁ ++ a :: p₂) := by
      rw [List.append_assoc]
      exact List.Perm.append_left p₁ (List.perm_append_singleton a p₂)
    exact ⟨s', _, hrun, hperm,
      hc.reorder (Relinked.kept hr) (Relinked.sameBlocks hr) hch hperm, Relinked.kept hr,
      Relinked.sameBlocks hr⟩

theorem chain_next_mem (h : Chain s ps fs) (ha : a ∈ s.base :: ps) {b : ℕ}
    (hb : (s.pools a).next = some b) : b ∈ s.base :: ps :=
  (h.family.seg .linked).next_mem ha hb

end Moves

section Facts

variable {s : State} {ps fs xs ls M : List ℕ} {B : ℕ → List ℕ} {a : ℕ}

theorem Core.tick (hc : Core s ps fs xs ls M B) (t : ℕ) :
    Core { s with heap := ⟨s.heap.live, t⟩ } ps fs xs ls M B where
  config := hc.config
  chain := @Chain.congr s { s with heap := ⟨s.heap.live, t⟩ } ps fs hc.chain rfl rfl rfl rfl
    (fun _ => rfl) (fun _ => rfl)
  out := hc.out
  size := hc.size
  inv := hc.inv
  idle := hc.idle
  few := hc.few
  apart := hc.apart
  range := hc.range
  owned := hc.owned
  ht := hc.ht
  largeht := hc.largeht
  registered := hc.registered

theorem Core.pool_live (hc : Core s ps fs xs ls M B) (ha : a ∈ s.base :: ps ++ fs ++ xs) :
    poolChunk s a ∈ s.heap.live := ((hc.owned _).mpr (Or.inl ⟨a, ha, rfl⟩)).1

theorem Core.large_live (hc : Core s ps fs xs ls M B) (ha : a ∈ ls) :
    largeChunk s a ∈ s.heap.live := ((hc.owned _).mpr (Or.inr ⟨a, ha, rfl⟩)).1

theorem Core.fresh (hc : Core s ps fs xs ls M B) {n : ℕ} {k : Kind}
    (ha : ∀ c ∈ s.heap.live, Chunk.Apart ⟨a, n, k⟩ c) :
    a ∉ s.base :: ps ++ fs ++ xs ∧ a ∉ ls := by
  have hne : ∀ c ∈ s.heap.live, c.addr ≠ a := by
    intro c hc he
    rcases ha c hc with h | h <;> simp only [he] at h <;> omega
  exact ⟨fun h => hne _ (hc.pool_live h) rfl, fun h => hne _ (hc.large_live h) rfl⟩

theorem Core.relist {B' : ℕ → List ℕ} (hc : Core s ps fs xs ls M B)
    (hB : ∀ x ∈ s.base :: ps ++ fs, B' x = B x) : Core s ps fs xs ls M B' where
  config := hc.config
  chain := hc.chain
  out := hc.out
  size := hc.size
  inv x hx := by
    rw [hB x hx]
    exact hc.inv x hx
  idle x hx := by
    rw [hB x (List.mem_append_right _ hx)]
    exact hc.idle x hx
  few := hc.few
  apart := hc.apart
  range := hc.range
  owned := hc.owned
  ht := hc.ht
  largeht := hc.largeht
  registered := hc.registered

theorem Core.setHt {t : Option (MpHash.Table ℕ)} {M' : List ℕ} (hc : Core s ps fs xs ls M B)
    (ht : Registers t false M') (hM : ∀ x ∈ M', x ∈ s.base :: ps ++ xs) :
    Core { s with config := { s.config with ht := t } } ps fs xs ls M' B := by
  have hch := @Chain.congr s { s with config := { s.config with ht := t } } ps fs hc.chain rfl rfl
    rfl rfl (fun _ => rfl) (fun _ => rfl)
  exact hc.rebuild rfl rfl rfl rfl (fun _ => rfl) hch hc.inv (fun _ => Iff.rfl) hc.out hc.idle
    hc.few ht hM

/-- A pool in neither list goes back to `malloc`. -/
theorem Core.dropPool (hc : Core s ps fs [a] ls M B) (hM : a ∉ M) :
    s.heap.free a = .ok ⟨s.heap.live.erase (poolChunk s a), s.heap.tick⟩ ∧
      Core { s with heap := ⟨s.heap.live.erase (poolChunk s a), s.heap.tick⟩ } ps fs [] ls M B := by
  have hlive := hc.pool_live (a := a) (by simp)
  have hout := hc.out a (by simp)
  have hne : ∀ x, x ∈ s.base :: ps ++ fs → x ≠ a := by
    rintro x hx rfl
    rcases List.mem_append.mp hx with hx | hx
    · exact hout.1 hx
    · exact hout.2 hx
  have hall : ∀ x, x ∈ s.base :: ps ++ fs ++ [a] ↔ x ∈ s.base :: ps ++ fs ++ [] ∨ x = a := by
    intro x
    simp [or_assoc]
  refine ⟨free_spec hc.apart hlive, ?_⟩
  exact
    { config := hc.config
      chain := @Chain.congr s { s with heap := _ } ps fs hc.chain rfl rfl rfl rfl
        (fun _ => rfl) (fun _ => rfl)
      out := by simp
      size := fun x hx => hc.size x ((hall x).mpr (Or.inl hx))
      inv := hc.inv
      idle := hc.idle
      few := hc.few
      apart := hc.apart.sublist List.erase_sublist
      range := fun c hcl => hc.range c (List.mem_of_mem_erase hcl)
      owned := by
        intro c
        have hold := hc.owned c
        show (c ∈ s.heap.live.erase (poolChunk s a) ∧ c.kind ≠ .other) ↔
          (∃ x ∈ s.base :: ps ++ fs ++ [], c = poolChunk s x) ∨ ∃ x ∈ ls, c = largeChunk s x
        rw [mem_erase_chunk hc.apart]
        constructor
        · rintro ⟨⟨hca, hcl⟩, hk⟩
          rcases hold.mp ⟨hcl, hk⟩ with ⟨x, hx, rfl⟩ | hx
          · rcases (hall x).mp hx with hx | rfl
            · exact Or.inl ⟨x, hx, rfl⟩
            · exact absurd rfl hca
          · exact Or.inr hx
        · rintro (⟨x, hx, rfl⟩ | ⟨x, hx, rfl⟩)
          · have hxa := hne x (by simpa using hx)
            have := hold.mpr (Or.inl ⟨x, (hall x).mpr (Or.inl hx), rfl⟩)
            exact ⟨⟨fun he => hxa (congrArg Chunk.addr he), this.1⟩, this.2⟩
          · have := hold.mpr (Or.inr ⟨x, hx, rfl⟩)
            refine ⟨⟨fun he => ?_, this.1⟩, this.2⟩
            have hk := congrArg Chunk.kind he
            simp [largeChunk, poolChunk] at hk
      ht := hc.ht
      largeht := hc.largeht
      registered := by
        intro x hx
        have := hc.registered x hx
        rcases List.mem_append.mp this with h | h
        · exact List.mem_append_left _ h
        · rw [List.mem_singleton] at h
          exact absurd (h ▸ hx) hM }

end Facts

section Search

variable {s s' : State} {ps ps' fs xs ls M : List ℕ} {B : ℕ → List ℕ} {b o size : ℕ}

structure Quiet (B : ℕ → List ℕ) (s s' : State) : Prop where
  kept : Kept B s s'
  left : ∀ a, (s'.pools a).leftsize = (s.pools a).leftsize

theorem Quiet.refl (B : ℕ → List ℕ) (s : State) : Quiet B s s := ⟨Kept.refl B s, fun _ => rfl⟩

theorem Quiet.trans {t : State} (h : Quiet B s s') (h' : Quiet B s' t) : Quiet B s t :=
  ⟨h.kept.trans h'.kept, fun a => (h'.left a).trans (h.left a)⟩

structure Took (B : ℕ → List ℕ) (s s' : State) (b o size : ℕ) : Prop where
  kept : Kept B s s'
  fresh : o ∉ B b
  fits : size ≤ (s'.pools b).rd o .size
  left : (s'.pools b).leftsize+(s'.pools b).rd o .size = (s.pools b).leftsize
  others : ∀ a, a ≠ b → (s'.pools a).leftsize = (s.pools a).leftsize

theorem Quiet.took {t : State} (h : Quiet B s s') (h' : Took B s' t b o size) :
    Took B s t b o size :=
  ⟨h.kept.trans h'.kept, h'.fresh, h'.fits, h'.left.trans (h.left b),
    fun a ha => (h'.others a ha).trans (h.left a)⟩

theorem pools_setPool_self (s : State) (a : ℕ) (p : Pool) : (s.setPool a p).pools a = p := by
  simp [State.setPool]

theorem pools_setPool_ne (s : State) {a x : ℕ} (p : Pool) (h : x ≠ a) :
    (s.setPool a p).pools x = s.pools x := by
  simp [State.setPool, h]

/-- One pool is replaced by a consistent one that stands at the same place. -/
theorem Core.setPool {q : Pool} {Q : List ℕ} (hc : Core s ps fs xs ls M B) (hb : b ∈ s.base :: ps)
    (hq : PoolInv q Q) (hp : q.prev = (s.pools b).prev) (hn : q.next = (s.pools b).next)
    (hs : q.pool_size = (s.pools b).pool_size) :
    Core (s.setPool b q) ps fs xs ls M (Function.update B b Q) where
  config := hc.config
  chain := by
    apply @Chain.congr s (s.setPool b q) ps fs hc.chain rfl rfl rfl rfl
    · intro x
      by_cases hx : x = b
      · rw [hx, pools_setPool_self, hp]
      · rw [pools_setPool_ne s q hx]
    · intro x
      by_cases hx : x = b
      · rw [hx, pools_setPool_self, hn]
      · rw [pools_setPool_ne s q hx]
  out := hc.out
  size a ha := by
    by_cases hx : a = b
    · rw [hx, pools_setPool_self, hs]
      exact hc.size b (hc.linked hb)
    · rw [pools_setPool_ne s q hx]
      exact hc.size a ha
  inv a ha := by
    by_cases hx : a = b
    · rw [hx, pools_setPool_self, Function.update_self]
      exact hq
    · rw [pools_setPool_ne s q hx, Function.update_of_ne hx]
      exact hc.inv a ha
  idle a ha := by
    have hx : a ≠ b := by
      rintro rfl
      exact hc.chain.not_parked hb ha
    rw [Function.update_of_ne hx]
    exact hc.idle a ha
  few := hc.few
  apart := hc.apart
  range := hc.range
  owned := hc.owned
  ht := hc.ht
  largeht := hc.largeht
  registered := hc.registered

theorem Frame.place {T C : List ℕ} {p q : Pool} (h : Frame T C p q) :
    q.prev = p.prev ∧ q.next = p.next ∧ q.pool_size = p.pool_size := by
  rw [h.same]
  exact ⟨rfl, rfl, rfl⟩

/-- Serving a request out of one pool. -/
theorem take_core {q : Pool} (hc : Core s ps fs xs ls M B) (hb : b ∈ s.base :: ps) (h16 : 16 ≤ size)
    (hs : size ≤ (s.pools b).leftsize) (ht : takeRealdata (s.pools b) size = some (q, o)) :
    Core (s.setPool b q) ps fs xs ls M (Function.update B b (o :: B b)) ∧
      Took B s (s.setPool b q) b o size := by
  obtain ⟨T, L, hi, hL⟩ := hc.linked_inv hb
  obtain ⟨T₁, T₂, T₂', L', rfl, hv, -⟩ := takeRealdata_spec hi h16 hs ht
  obtain ⟨hp, hn, hsz⟩ := Frame.place hv.frame
  have hq : PoolInv q (o :: B b) := ⟨_, L', hv.inv, by rw [hv.busy, hL]⟩
  have hfresh : o ∉ B b := by
    intro ho
    have h1 := ((hi.mem_busy o).mp (hL ▸ ho)).2
    rw [hv.free] at h1
    exact absurd h1 (by decide)
  refine ⟨hc.setPool hb hq hp hn hsz, ⟨rfl, rfl, rfl, rfl, rfl, rfl, rfl, fun a x hx => ?_⟩,
    hfresh, ?_, ?_, fun a ha => by rw [pools_setPool_ne s q ha]⟩
  · by_cases hab : a = b
    · subst hab
      rw [pools_setPool_self]
      have hxT := ((hi.mem_busy x).mp (hL ▸ hx)).1
      have hxo : x ≠ o := fun he => hfresh (he ▸ hx)
      have hx' : x ∈ T₁ ++ T₂ := by simpa [hxo] using hxT
      exact ⟨hv.frame.size x hx', hv.frame.used x hx'⟩
    · rw [pools_setPool_ne s q hab]
      exact ⟨rfl, rfl⟩
  · rw [pools_setPool_self]
    exact hv.fits
  · rw [pools_setPool_self]
    exact hv.left

def Searched (s : State) (ps fs xs ls M : List ℕ) (B : ℕ → List ℕ) (size : ℕ) (r : Found) : Prop :=
  ∃ ps', ps'.Perm ps ∧
    (r.realdata = none ∧ Core r.state ps' fs xs ls M B ∧ Quiet B s r.state ∧
        (∀ a, r.tmp = some a → a ∈ s.base :: ps') ∨
      ∃ b o, r.tmp = some b ∧ r.realdata = some o ∧ b ∈ s.base :: ps' ∧
        Core r.state ps' fs xs ls M (Function.update B b (o :: B b)) ∧ Took B s r.state b o size)

theorem Searched.after {r : Found} (hq : Quiet B s s') (hperm : ps'.Perm ps)
    (h : Searched s' ps' fs xs ls M B size r) : Searched s ps fs xs ls M B size r := by
  obtain ⟨qs, hqs, hcase⟩ := h
  rw [hq.kept.base] at hcase
  refine ⟨qs, hqs.trans hperm, ?_⟩
  rcases hcase with ⟨h1, h2, h3, h4⟩ | ⟨b, o, h1, h2, h3, h4, h5⟩
  · exact Or.inl ⟨h1, h2, hq.trans h3, h4⟩
  · exact Or.inr ⟨b, o, h1, h2, h3, h4, hq.took h5⟩

theorem searchPools_spec (h16 : 16 ≤ size) (fuel : ℕ) {tmp : Option ℕ} {n : ℕ} {r : Found}
    (hc : Core s ps fs xs ls M B) (ht : ∀ a, tmp = some a → a ∈ s.base :: ps)
    (hrun : searchPools size fuel s tmp n = .ok r) : Searched s ps fs xs ls M B size r := by
  induction fuel generalizing s ps tmp n with
  | zero => cases hrun
  | succ fuel ih =>
    cases tmp with
    | none =>
      rw [searchPools, Except.ok.injEq] at hrun
      subst hrun
      exact ⟨ps, List.Perm.refl _, Or.inl ⟨rfl, hc, Quiet.refl _ _, by simp⟩⟩
    | some tmp =>
      have htmp := ht tmp rfl
      have hmem : ∀ {s₁ : State} {ps₁ : List ℕ} {a : ℕ}, Quiet B s s₁ → ps₁.Perm ps →
          a ∈ s.base :: ps → a ∈ s₁.base :: ps₁ := by
        intro s₁ ps₁ a hq hperm ha
        rw [hq.kept.base]
        simpa [hperm.mem_iff] using ha
      -- the walk stops at this pool, or goes on behind it in the state `s₁`
      have pass : ∀ (s₁ : State) (ps₁ : List ℕ) (m : ℕ) (c : Prop) [Decidable c]
          (nx : Option ℕ), Core s₁ ps₁ fs xs ls M B → Quiet B s s₁ → ps₁.Perm ps →
          nx = (s.pools tmp).next →
          (if c then (.ok ⟨s₁, some tmp, none⟩ : Run Found)
            else searchPools size fuel s₁ nx m) = .ok r → Searched s ps fs xs ls M B size r := by
        intro s₁ ps₁ m c _ nx hc₁ hq hperm hnx hr
        apply Searched.after hq hperm
        split at hr
        · rw [Except.ok.injEq] at hr
          subst hr
          refine ⟨ps₁, List.Perm.refl _, Or.inl ⟨rfl, hc₁, Quiet.refl _ _, fun a ha => ?_⟩⟩
          rw [← Option.some.inj ha]
          exact hmem hq hperm htmp
        · apply ih hc₁ _ hr
          intro a ha
          exact hmem hq hperm (chain_next_mem hc.chain htmp (hnx ▸ ha))
      have hcount := countFailed_kept s tmp B
      have hquiet : Quiet B s (countFailed s tmp) := ⟨hcount.1, fun x => (hcount.2.1 x).leftsize⟩
      rw [searchPools] at hrun
      by_cases hskip : (s.pools tmp).leftsize < size ∨
          mempoolGetFreelist (s.pools tmp) size = none
      · rw [if_pos hskip] at hrun
        by_cases hf : (s.pools tmp).failed < mempoolFailedSkip
        · simp only [if_pos hf, ok_bind] at hrun
          exact pass _ ps _ _ _ (countFailed_core hc tmp) hquiet (List.Perm.refl _) rfl hrun
        · obtain ⟨s₂, ps₂, hrun₂, hperm, hc₂, hk₂, hsame⟩ := move2tail_core hc htmp
          simp only [if_neg hf, hrun₂, ok_bind] at hrun
          exact pass _ ps₂ _ _ _ hc₂ ⟨hk₂, fun x => (hsame x).leftsize⟩ hperm rfl hrun
      · rw [if_neg hskip] at hrun
        rw [not_or, Nat.not_lt] at hskip
        cases htake : takeRealdata (s.pools tmp) size with
        | none =>
          cases hbusy : (s.pools tmp).busylist with
          | none => simp [htake, hbusy] at hrun
          | some b =>
            simp only [htake, hbusy] at hrun
            by_cases hf : (s.pools tmp).failed < mempoolFailedSkip
            · simp only [if_pos hf] at hrun
              exact pass _ ps _ _ _ (countFailed_core hc tmp) hquiet (List.Perm.refl _)
                (hcount.2.2.1 tmp).2 hrun
            · simp only [if_neg hf] at hrun
              exact pass _ ps _ _ _ hc (Quiet.refl _ _) (List.Perm.refl _) rfl hrun
        | some qo =>
          obtain ⟨q, o⟩ := qo
          simp only [htake, Except.ok.injEq] at hrun
          subst hrun
          obtain ⟨hcore, htook⟩ := take_core hc htmp h16 hskip.1 htake
          exact ⟨ps, List.Perm.refl _, Or.inr ⟨tmp, o, rfl, rfl, htmp, hcore, htook⟩⟩

structure SameLists (p q : Property) : Prop where
  freepool : q.freepool = p.freepool
  pooltail : q.pooltail = p.pooltail
  pfree_count : q.pfree_count = p.pfree_count

theorem SameLists.trans {p q r : Property} (h : SameLists p q) (h' : SameLists q r) :
    SameLists p r :=
  ⟨h'.freepool.trans h.freepool, h'.pooltail.trans h.pooltail,
    h'.pfree_count.trans h.pfree_count⟩

-- The counters are generalised: the kernel is never to compare their values.
theorem sameLists_subLeftsize (p : Property) (n : ℕ) : SameLists p (p.subLeftsize n) := by
  unfold Property.subLeftsize
  generalize usub 64 p.total_leftsize n = v
  exact ⟨rfl, rfl, rfl⟩

theorem sameLists_addLeftsize (p : Property) (n : ℕ) : SameLists p (p.addLeftsize n) := by
  unfold Property.addLeftsize
  generalize (p.total_leftsize+n) % 2^64 = v
  exact ⟨rfl, rfl, rfl⟩

theorem sameLists_subAlloced (p : Property) (n : ℕ) : SameLists p (p.subAlloced n) := by
  unfold Property.subAlloced
  generalize usub 64 p.total_alloced n = v
  exact ⟨rfl, rfl, rfl⟩

theorem sameLists_addAlloced (p : Property) (n : ℕ) : SameLists p (p.addAlloced n) := by
  unfold Property.addAlloced
  generalize (p.total_alloced+n) % 2^64 = v
  exact ⟨rfl, rfl, rfl⟩

theorem Core.counters {p : Property} (hc : Core s ps fs xs ls M B) (hp : SameLists s.property p) :
    Core { s with property := p } ps fs xs ls M B where
  config := hc.config
  chain := @Chain.congr s { s with property := p } ps fs hc.chain rfl hp.freepool hp.pooltail
    hp.pfree_count (fun _ => rfl) (fun _ => rfl)
  out := hc.out
  size := hc.size
  inv := hc.inv
  idle := hc.idle
  few := hc.few
  apart := hc.apart
  range := hc.range
  owned := hc.owned
  ht := hc.ht
  largeht := hc.largeht
  registered := hc.registered

def Granted (B : ℕ → List ℕ) (s s' : State) (b o size : ℕ) : Prop :=
  ∃ s₁, Took B s s₁ b o size ∧
    s' = { s₁ with property := s₁.property.subLeftsize ((s₁.pools b).rd o .size) }

theorem allocRealdata_spec (h16 : 16 ≤ size) (fuel : ℕ) {tmp : Option ℕ} {n : ℕ}
    {r : Option (ℕ × ℕ)} (hc : Core s ps fs xs ls M B) (ht : ∀ a, tmp = some a → a ∈ s.base :: ps)
    (hrun : allocRealdata size fuel s tmp n = .ok (s', r)) :
    ∃ ps', ps'.Perm ps ∧
      (r = none ∧ Core s' ps' fs xs ls M B ∧ Quiet B s s' ∨
        ∃ b o, r = some (b, o) ∧ b ∈ s.base :: ps' ∧
          Core s' ps' fs xs ls M (Function.update B b (o :: B b)) ∧ Granted B s s' b o size) := by
  induction fuel generalizing s ps tmp n with
  | zero => cases hrun
  | succ fuel ih =>
    rw [allocRealdata] at hrun
    obtain ⟨f, hf, hr⟩ := bind_ok_iff.mp hrun
    obtain ⟨ps₁, hperm, hcase⟩ := searchPools_spec h16 _ hc ht hf
    rcases hcase with ⟨hnone, hc₁, hq, htmp⟩ | ⟨b, o, htmp, hsome, hb, hc₁, htook⟩
    · have stop : (Except.ok (f.state, none) : Run (State × Option (ℕ × ℕ))) = .ok (s', r) →
          ∃ ps', ps'.Perm ps ∧ (r = none ∧ Core s' ps' fs xs ls M B ∧ Quiet B s s' ∨
            ∃ b o, r = some (b, o) ∧ b ∈ s.base :: ps' ∧
              Core s' ps' fs xs ls M (Function.update B b (o :: B b)) ∧
              Granted B s s' b o size) := by
        intro he
        rw [Except.ok.injEq, Prod.mk.injEq] at he
        exact ⟨ps₁, hperm, Or.inl ⟨he.2.symm, he.1 ▸ hc₁, he.1 ▸ hq⟩⟩
      cases hft : f.tmp with
      | none =>
        simp only [hft] at hr
        exact stop hr
      | some a =>
        have ha : a ∈ f.state.base :: ps₁ := by
          rw [hq.kept.base]
          exact htmp a hft
        have again : ∀ m, allocRealdata size fuel f.state (f.state.pools a).next m = .ok (s', r) →
            ∃ ps', ps'.Perm ps ∧ (r = none ∧ Core s' ps' fs xs ls M B ∧ Quiet B s s' ∨
              ∃ b o, r = some (b, o) ∧ b ∈ s.base :: ps' ∧
                Core s' ps' fs xs ls M (Function.update B b (o :: B b)) ∧
                Granted B s s' b o size) := by
          intro m hm
          obtain ⟨ps', hps', hcase⟩ := ih hc₁ (fun x hx => chain_next_mem hc₁.chain ha hx) hm
          rw [hq.kept.base] at hcase
          refine ⟨ps', hps'.trans hperm, ?_⟩
          rcases hcase with ⟨h1, h2, h3⟩ | ⟨b, o, h1, h2, h3, s₁, h4, h5⟩
          · exact Or.inl ⟨h1, h2, hq.trans h3⟩
          · exact Or.inr ⟨b, o, h1, h2, h3, s₁, hq.took h4, h5⟩
        simp only [hft, hnone] at hr
        split at hr
        · split at hr
          · exact again _ hr
          · split at hr
            · exact again _ hr
            · exact stop hr
        · exact stop hr
    · simp only [htmp, hsome, Except.ok.injEq, Prod.mk.injEq] at hr
      obtain ⟨hs', rfl⟩ := hr
      refine ⟨ps₁, hperm, Or.inr ⟨b, o, rfl, hb, ?_, f.state, htook, hs'.symm⟩⟩
      rw [← hs']
      exact hc₁.counters (sameLists_subLeftsize _ _)

end Search

end CLearning.MempoolCore
