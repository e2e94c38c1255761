import CLearning.MempoolStore
import CLearning.MempoolInit

/-!
# Runs of the memory pool

A run starts at a pool `mempool_init_extra` made and takes any sequence of
`palloc`, `pcalloc`, `pfree` of a block that is live, the append calls on live
blocks, and writes of the program into the blocks it holds. The invariant holds
along every run.
-/

set_option autoImplicit false

namespace CLearning.MempoolRun
open CLearning.Machine CLearning.LinkedLists CLearning.MempoolBytes CLearning.MempoolPool
open CLearning.MempoolHeap CLearning.MempoolServe CLearning.MpHash CLearning.MempoolState
open CLearning.Mempool CLearning.MempoolChain CLearning.MempoolRegistry CLearning.MempoolCore
open CLearning.MempoolGrow CLearning.MempoolAlloc CLearning.MempoolFree
open CLearning.MempoolStore CLearning.MempoolInit

section Runs

def Block (base : ℕ) (ps ls : List ℕ) (B : ℕ → List ℕ) (x : ℕ) : Prop :=
  (∃ b ∈ base :: ps, ∃ o ∈ B b, x = payload b o) ∨ ∃ a ∈ ls, x = a+largeSize

/-- The calls of a run; `live` lists the blocks the program holds. -/
inductive Step (env : Env) : State → List ℕ → State → List ℕ → Prop
  | palloc {s s' : State} {live : List ℕ} (fuel size : ℕ) (r : Option ℕ) (hs : size < 2^32)
      (h : palloc env fuel s size = .ok (s', r)) : Step env s live s' (r.toList ++ live)
  | pcalloc {s s' : State} {live : List ℕ} (fuel size : ℕ) (r : Option ℕ) (hs : size < 2^32)
      (h : pcalloc env fuel s size = .ok (s', r)) : Step env s live s' (r.toList ++ live)
  | pfree {s s' : State} {live : List ℕ} (data : ℕ) (ret : ℤ) (hd : data ∈ live)
      (h : pfree s data = .ok (s', ret)) : Step env s live s' (live.filter (· ≠ data))
  | pmemcpyExtra {s s' : State} {live : List ℕ} (dest src n : ℕ) (r : Option ℕ) (hn : n < 2^32)
      (hd : dest ∈ live) (h : pmemcpyExtra env s dest src n = .ok (s', r)) : Step env s live s' live
  | psprintfExtra {s s' : State} {live : List ℕ} (data : ℕ) (text : List UInt8) (len : ℤ)
      (hd : data ∈ live) (h : psprintfExtra s data text = .ok (s', len)) : Step env s live s' live
  | pzeroExtra {s s' : State} {live : List ℕ} (data : ℕ) (hd : data ∈ live)
      (h : pzeroExtra s data = .ok s') : Step env s live s' live
  | write {s s' : State} {live : List ℕ} (data a n : ℕ) (cap : ℤ) (f : Bytes) (hd : data ∈ live)
      (hcap : pdatasize s data = .ok cap) (hn : 0 < n) (hlo : data ≤ a)
      (hhi : ((a+n : ℕ) : ℤ) ≤ data+cap) (h : s.store a n f = .ok s') : Step env s live s' live

inductive Reach (env : Env) (s₀ : State) : State → List ℕ → Prop
  | start : Reach env s₀ s₀ []
  | step {s s' : State} {live live' : List ℕ} (hr : Reach env s₀ s live)
      (h : Step env s live s' live') : Reach env s₀ s' live'

structure Inv (s₀ s : State) (live ps fs ls M : List ℕ) (B : ℕ → List ℕ) : Prop where
  core : Core s ps fs [] ls M B
  acct : Acct s ps ls
  registered : Registered s ps M
  busy : ∀ a ∈ ps, B a ≠ []
  held : ∀ x ∈ live, Block s.base ps ls B x
  all : s.config.ht ≠ none → ∀ x, Block s.base ps ls B x → x ∈ live
  marks : ∀ a ∈ s.base :: ps, ∀ o ∈ B a,
    (s.pools a).rd o .used+realdataSize ≤ (s.pools a).rd o .size
  large : ∀ a ∈ ls, largeFlag (s.larges a) = mempoolLargeflag ∧
    (largeUsed (s.larges a) = 0 ∨ largeUsed (s.larges a)+largeSize ≤ largeBytes (s.larges a))
  base : s.base = s₀.base
  config : s.config = { s₀.config with ht := s.config.ht, largeht := s.config.largeht }
  ht : s.config.ht = none ↔ s₀.config.ht = none
  largeht : s.config.largeht = none ↔ s₀.config.largeht = none

variable {env : Env} {s₀ s s' : State} {live ps fs ls M : List ℕ} {B : ℕ → List ℕ}
  {a b o size : ℕ}

theorem start_inv (hs : Start env s₀) (hr : Roomy s₀) :
    ∃ M, Inv s₀ s₀ [] [] [] [] M (fun _ => []) := by
  obtain ⟨M, hcore, hacct, hreg⟩ := start_core hs hr
  refine ⟨M, hcore, hacct, hreg, by simp, by simp, ?_, by simp, by simp, rfl, rfl, Iff.rfl, Iff.rfl⟩
  rintro - x (⟨b, -, o, ho, -⟩ | ⟨a, ha, -⟩)
  · cases ho
  · cases ha

/-- What an allocation adds to the blocks that are out. -/
theorem outcome_block {ps' ls' M' : List ℕ} {B' : ℕ → List ℕ} {r : Option ℕ}
    (h : Outcome s s' ps ps' ls ls' M M' B B' size r) (x : ℕ) :
    Block s.base ps' ls' B' x ↔ x ∈ r.toList ∨ Block s.base ps ls B x := by
  cases h with
  | null h hl =>
    have hiff : ∀ b, b ∈ s.base :: ps' ↔ b ∈ s.base :: ps := fun b => by simp [h.pools.mem_iff]
    simp only [Option.toList_none, List.not_mem_nil, false_or, Block, hl, hiff]
    constructor
    · rintro (⟨b, hb, o, ho, rfl⟩ | ha)
      · exact Or.inl ⟨b, hb, o, h.busy b hb ▸ ho, rfl⟩
      · exact Or.inr ha
    · rintro (⟨b, hb, o, ho, rfl⟩ | ha)
      · exact Or.inl ⟨b, hb, o, (h.busy b hb).symm ▸ ho, rfl⟩
      · exact Or.inr ha
  | small c p h hl hs hu =>
    simp only [Option.toList_some, List.mem_singleton, Block, hl]
    constructor
    · rintro (⟨b, hb, o, ho, rfl⟩ | ha)
      · rcases (h.busy b hb o).mp ho with ⟨hb', ho'⟩ | ⟨rfl, rfl⟩
        · exact Or.inr (Or.inl ⟨b, hb', o, ho', rfl⟩)
        · exact Or.inl rfl
      · exact Or.inr (Or.inr ha)
    · rintro (rfl | ⟨b, hb, o, ho, rfl⟩ | ha)
      · exact Or.inl ⟨c, h.mem, p, (h.busy c h.mem p).mpr (Or.inr ⟨rfl, rfl⟩), rfl⟩
      · obtain ⟨hb', ho'⟩ := outcome_old (.small c p h hl hs hu : Outcome s s' ps ps' ls ls' M M' B
          B' size _) hb ho
        exact Or.inl ⟨b, hb', o, ho', rfl⟩
      · exact Or.inr ha
  | large c hp hM hB hl hnew hs hf hn hu =>
    simp only [Option.toList_some, List.mem_singleton, Block, hp, hB, hl]
    constructor
    · rintro (hb | ⟨a, ha, rfl⟩)
      · exact Or.inr (Or.inl hb)
      · rcases List.mem_cons.mp ha with rfl | ha
        · exact Or.inl rfl
        · exact Or.inr (Or.inr ⟨a, ha, rfl⟩)
    · rintro (rfl | hb | ⟨a, ha, rfl⟩)
      · exact Or.inr ⟨c, List.mem_cons_self, rfl⟩
      · exact Or.inl hb
      · exact Or.inr ⟨a, List.mem_cons_of_mem _ ha, rfl⟩

/-- The invariant after an allocation, with the lists of the new state. -/
theorem outcome_inv {r : Option ℕ} {ps' fs' ls' M' : List ℕ} {B' : ℕ → List ℕ}
    (hI : Inv s₀ s live ps fs ls M B) (hc : Core s' ps' fs' [] ls' M' B') (hst : Steady ps B s s')
    (hlg : ∀ x ∈ ls, s'.larges x = s.larges x) (hacct : Acct s' ps' ls')
    (hreg : Registered s' ps' M') (hout : Outcome s s' ps ps' ls ls' M M' B B' size r) :
    Inv s₀ s' (r.toList ++ live) ps' fs' ls' M' B' := by
  have hblock := outcome_block hout
  refine ⟨hc, hacct, hreg, ?_, ?_, ?_, ?_, ?_, hst.base.trans hI.base, ?_, hst.ht.trans hI.ht,
    hst.largeht.trans hI.largeht⟩
  · intro a ha
    cases hout with
    | null h hl =>
      have ha' := h.pools.mem_iff.mp ha
      rw [h.busy a (List.mem_cons_of_mem _ ha')]
      exact hI.busy a ha'
    | small c p h hl hs hu =>
      rcases h.pools a ha with ha' | rfl
      · obtain ⟨o, ho⟩ := List.exists_mem_of_ne_nil _ (hI.busy a ha')
        have := (h.busy a (List.mem_cons_of_mem _ ha) o).mpr
          (Or.inl ⟨List.mem_cons_of_mem _ ha', ho⟩)
        exact List.ne_nil_of_mem this
      · exact List.ne_nil_of_mem ((h.busy a h.mem p).mpr (Or.inr ⟨rfl, rfl⟩))
    | large c hp hM hB hl hnew hs hf hn hu =>
      rw [hB]
      exact hI.busy a (hp ▸ ha)
  · intro x hx
    rw [hst.base, hblock]
    rcases List.mem_append.mp hx with hx | hx
    · exact Or.inl hx
    · exact Or.inr (hI.held x hx)
  · intro hne x hx
    rw [hst.base, hblock] at hx
    rcases hx with hx | hx
    · exact List.mem_append_left _ hx
    · exact List.mem_append_right _ (hI.all (fun hn => hne (hst.ht.mpr hn)) x hx)
  · intro a ha o ho
    rw [hst.base] at ha
    have hold : a ∈ s.base :: ps → o ∈ B a →
        (s'.pools a).rd o .used+realdataSize ≤ (s'.pools a).rd o .size := by
      intro ha' ho'
      obtain ⟨h1, h2⟩ := hst.blocks a ha' o ho'
      rw [h1, h2]
      exact hI.marks a ha' o ho'
    cases hout with
    | null h hl =>
      have ha' : a ∈ s.base :: ps := by simpa [h.pools.mem_iff] using ha
      exact hold ha' (h.busy a ha' ▸ ho)
    | small c p h hl hs hu =>
      rcases (h.busy a ha o).mp ho with ⟨ha', ho'⟩ | ⟨rfl, rfl⟩
      · exact hold ha' ho'
      · have := h.fits
        omega
    | large c hp hM hB hl hnew hs hf hn hu => exact hold (hp ▸ ha) (hB ▸ ho)
  · intro a ha
    have hold : a ∈ ls → largeFlag (s'.larges a) = mempoolLargeflag ∧
        (largeUsed (s'.larges a) = 0 ∨
          largeUsed (s'.larges a)+largeSize ≤ largeBytes (s'.larges a)) := by
      intro ha'
      rw [hlg a ha']
      exact hI.large a ha'
    cases hout with
    | null h hl => exact hold (hl ▸ ha)
    | small c p h hl hs hu => exact hold (hl ▸ ha)
    | large c hp hM hB hl hnew hs hf hn hu =>
      rw [hl] at ha
      rcases List.mem_cons.mp ha with rfl | ha
      · exact ⟨hf, Or.inl hu⟩
      · exact hold ha
  · rw [hst.config, hI.config]

theorem palloced_inv {r : Option ℕ} (hI : Inv s₀ s live ps fs ls M B)
    (h : Palloced s s' ps ls M B size r) :
    ∃ ps' fs' ls' M' B', Inv s₀ s' (r.toList ++ live) ps' fs' ls' M' B' := by
  obtain ⟨ps', fs', ls', M', B', hc, hst, hlg, hacct, hreg, hout⟩ := h
  exact ⟨ps', fs', ls', M', B', outcome_inv hI hc hst hlg (hacct hI.acct).1 (hreg hI.registered)
    hout⟩

theorem inv_marked (hI : Inv s₀ s live ps fs ls M B) (hc : Core s' ps fs [] ls M B)
    (hm : Marked ps ls B s s') : Inv s₀ s' live ps fs ls M B where
  core := hc
  acct := by
    have h := hI.acct
    refine ⟨?_, ?_, hm.property ▸ h.wrapped, hm.property ▸ h.cap⟩
    · have hsum : (ls.map fun a => largeBytes (s'.larges a)) =
          ls.map fun a => largeBytes (s.larges a) :=
        List.map_congr_left fun x hx => (hm.larges x hx).2.1
      rw [hm.property, hm.config, hsum]
      exact h.alloced
    · rw [hm.property, hm.base]
      simp only [hm.left]
      exact h.leftsize
  registered := by
    have h := hI.registered
    rw [Registered, hm.config, hm.base]
    exact h
  busy := hI.busy
  held x hx := hm.base.symm ▸ hI.held x hx
  all := by
    rw [hm.config, hm.base]
    exact hI.all
  marks a ha o ho := by
    rw [hm.base] at ha
    obtain ⟨h1, h2⟩ := hm.blocks a ha o ho
    rw [h1]
    rcases h2 with h2 | h2
    · rw [h2]
      exact hI.marks a ha o ho
    · exact h2
  large a ha := by
    obtain ⟨h1, h2, h3⟩ := hm.larges a ha
    obtain ⟨h4, h5⟩ := hI.large a ha
    rw [h1, h2]
    refine ⟨h4, ?_⟩
    rcases h3 with h3 | h3
    · rw [h3]
      exact h5
    · exact h3
  base := hm.base.trans hI.base
  config := by
    rw [hm.config]
    exact hI.config
  ht := by
    rw [hm.config]
    exact hI.ht
  largeht := by
    rw [hm.config]
    exact hI.largeht

theorem payload_inj {c p : ℕ} (hc : Core s ps fs [] ls M B) (hb : b ∈ s.base :: ps) (ho : o ∈ B b)
    (hb' : c ∈ s.base :: ps) (hp : p ∈ B c) (h : payload b o = payload c p) : b = c ∧ o = p := by
  obtain ⟨-, hle, -, -⟩ := block_bounds hc hb ho
  obtain ⟨-, hle', -, -⟩ := block_bounds hc hb' hp
  obtain ⟨hlive, -, -, -⟩ := pool_range hc hb
  obtain ⟨hlive', -, -, -⟩ := pool_range hc hb'
  simp only [payload, mempoolSize, realdataSize] at h hle hle'
  by_cases hbc : b = c
  · exact ⟨hbc, by omega⟩
  · exfalso
    have hne : poolChunk s b ≠ poolChunk s c := fun he => hbc (congrArg Chunk.addr he)
    have h16 := (block_bounds hc hb ho).1
    have h16' := (block_bounds hc hb' hp).1
    rcases apart_of_mem hc.apart hlive hlive' hne with h | h
    · simp only [poolChunk] at h
      omega
    · simp only [poolChunk] at h
      omega

theorem payload_ne_large (hc : Core s ps fs [] ls M B) (hb : b ∈ s.base :: ps) (ho : o ∈ B b)
    (ha : a ∈ ls) : payload b o ≠ a+largeSize := by
  obtain ⟨h16, hle, -, -⟩ := block_bounds hc hb ho
  intro h
  simp only [payload, mempoolSize, realdataSize, largeSize] at h hle
  have hnot := not_large hc hb (n := o+195) (by omega)
  exact hnot ((show a = b+(o+195) by omega) ▸ ha)

theorem outcome_new {ps' fs' ls' M' : List ℕ} {B' : ℕ → List ℕ} {q : ℕ}
    (hc : Core s' ps' fs' [] ls' M' B') (hbase : s'.base = s.base)
    (h : Outcome s s' ps ps' ls ls' M M' B B' size (some q)) : ¬Block s.base ps ls B q := by
  have hold : ∀ p ∈ s.base :: ps, ∀ r ∈ B p, p ∈ s'.base :: ps' ∧ r ∈ B' p := by
    intro p hp r hr
    rw [hbase]
    exact outcome_old h hp hr
  cases h with
  | small b o h hl hs hu =>
    have hb : b ∈ s'.base :: ps' := hbase.symm ▸ h.mem
    have ho : o ∈ B' b := (h.busy b h.mem o).mpr (Or.inr ⟨rfl, rfl⟩)
    rintro (⟨p, hp, r, hr, heq⟩ | ⟨a, ha, heq⟩)
    · obtain ⟨hp', hr'⟩ := hold p hp r hr
      obtain ⟨rfl, rfl⟩ := payload_inj hc hb ho hp' hr' heq
      exact h.fresh hp hr
    · exact payload_ne_large hc hb ho (hl ▸ ha) heq
  | large a hp hM hB hl hnew hs hf hn hu =>
    rintro (⟨p, hp, r, hr, heq⟩ | ⟨c, hcl, heq⟩)
    · obtain ⟨hp', hr'⟩ := hold p hp r hr
      exact payload_ne_large hc hp' hr' (hl ▸ List.mem_cons_self) heq.symm
    · exact hnew (Nat.add_right_cancel heq ▸ hcl)

/-- After a small block was given back the blocks that are out are the others. -/
theorem released_block (hc : Core s ps fs [] ls M B) (hb : b ∈ s.base :: ps) (ho : o ∈ B b)
    {ps' : List ℕ} {B' : ℕ → List ℕ} (hr : Released s s' ps ps' B B' b o) (x : ℕ) :
    Block s'.base ps' ls B' x ↔ Block s.base ps ls B x ∧ x ≠ payload b o := by
  obtain ⟨T, L, hi, hL⟩ := hc.linked_inv hb
  have hnd : (B b).Nodup := hL ▸ hi.lists.nodup .busy
  rw [hr.steady.base]
  constructor
  · rintro (⟨c, hcm', p, hp, rfl⟩ | ⟨a, ha, rfl⟩)
    · have hcm : c ∈ s.base :: ps := by
        rcases List.mem_cons.mp hcm' with rfl | hcm'
        · exact List.mem_cons_self
        · exact List.mem_cons_of_mem _ (hr.pools c hcm')
      rw [hr.busy c hcm'] at hp
      have hpc : p ∈ B c ∧ (c = b → p ≠ o) := by
        by_cases hcb : c = b
        · subst hcb
          rw [if_pos rfl, hnd.mem_erase_iff] at hp
          exact ⟨hp.2, fun _ => hp.1⟩
        · rw [if_neg hcb] at hp
          exact ⟨hp, fun h => absurd h hcb⟩
      refine ⟨Or.inl ⟨c, hcm, p, hpc.1, rfl⟩, fun he => ?_⟩
      obtain ⟨rfl, rfl⟩ := payload_inj hc hcm hpc.1 hb ho he
      exact hpc.2 rfl rfl
    · exact ⟨Or.inr ⟨a, ha, rfl⟩, (payload_ne_large hc hb ho ha).symm⟩
  · rintro ⟨⟨c, hcm, p, hp, rfl⟩ | ⟨a, ha, rfl⟩, hne⟩
    · have hpe : c = b → p ∈ (B b).erase o := by
        rintro rfl
        exact hnd.mem_erase_iff.mpr ⟨fun h => hne (h ▸ rfl), hp⟩
      have hcm' : c ∈ s.base :: ps' := by
        rcases List.mem_cons.mp hcm with rfl | hcm
        · exact List.mem_cons_self
        · rcases hr.gone c hcm with h | ⟨rfl, h⟩
          · exact List.mem_cons_of_mem _ h
          · exact absurd (hpe rfl) (h ▸ List.not_mem_nil)
      refine Or.inl ⟨c, hcm', p, ?_, rfl⟩
      rw [hr.busy c hcm']
      by_cases hcb : c = b
      · rw [if_pos hcb]
        exact hpe hcb
      · rw [if_neg hcb]
        exact hp
    · exact Or.inr ⟨a, ha, rfl⟩

theorem freed_small (hI : Inv s₀ s live ps fs ls M B) (hb : b ∈ s.base :: ps) (ho : o ∈ B b)
    {ps' fs' M' : List ℕ} {B' : ℕ → List ℕ} (hc : Core s' ps' fs' [] ls M' B')
    (hr : Released s s' ps ps' B B' b o) (hacct : Acct s' ps' ls)
    (hreg : Registered s' ps' M') :
    Inv s₀ s' (live.filter (· ≠ payload b o)) ps' fs' ls M' B' := by
  have hst := hr.steady
  have hblock := released_block hI.core hb ho hr
  have hcfg := hst.config
  refine ⟨hc, hacct, hreg, fun a ha => ?_, fun x hx => ?_, fun hne x hx => ?_, fun a ha p hp => ?_,
    fun a ha => ?_, hst.base.trans hI.base, ?_, hst.ht.trans hI.ht, hst.largeht.trans hI.largeht⟩
  · rw [hr.busy a (List.mem_cons_of_mem _ ha)]
    by_cases hab : a = b
    · rw [if_pos hab]
      exact hr.kept (hab ▸ ha)
    · rw [if_neg hab]
      exact hI.busy a (hr.pools a ha)
  · simp only [List.mem_filter, decide_eq_true_eq] at hx
    exact (hblock x).mpr ⟨hI.held x hx.1, hx.2⟩
  · have hx' := (hblock x).mp hx
    simp only [List.mem_filter, decide_eq_true_eq]
    exact ⟨hI.all (fun hn => hne (hst.ht.mpr hn)) x hx'.1, hx'.2⟩
  · obtain ⟨h1, h2⟩ := hst.blocks a (by rw [hst.base] at ha; exact ha) p hp
    rw [h1, h2]
    rw [hst.base] at ha
    have ham : a ∈ s.base :: ps := by
      rcases List.mem_cons.mp ha with rfl | ha
      · exact List.mem_cons_self
      · exact List.mem_cons_of_mem _ (hr.pools a ha)
    have hpB : p ∈ B a := by
      rw [hr.busy a ha] at hp
      by_cases hab : a = b
      · rw [if_pos hab] at hp
        exact hab ▸ List.mem_of_mem_erase hp
      · rw [if_neg hab] at hp
        exact hp
    exact hI.marks a ham p hpB
  · rw [hr.larges]
    exact hI.large a ha
  · rw [hcfg, hI.config]

theorem erased_block (hc : Core s ps fs [] ls M B) (ha : a ∈ ls) (x : ℕ) :
    Block s.base ps (ls.erase a) B x ↔ Block s.base ps ls B x ∧ x ≠ a+largeSize := by
  have hnd : ls.Nodup := hc.largeht.nodup
  constructor
  · rintro (⟨c, hcm, p, hpc, rfl⟩ | ⟨c, hcm, rfl⟩)
    · exact ⟨Or.inl ⟨c, hcm, p, hpc, rfl⟩, payload_ne_large hc hcm hpc ha⟩
    · obtain ⟨hca, hcm⟩ := hnd.mem_erase_iff.mp hcm
      exact ⟨Or.inr ⟨c, hcm, rfl⟩, fun he => hca (Nat.add_right_cancel he)⟩
  · rintro ⟨h | ⟨c, hcm, rfl⟩, hne⟩
    · exact Or.inl h
    · exact Or.inr ⟨c, hnd.mem_erase_iff.mpr ⟨fun he => hne (he ▸ rfl), hcm⟩, rfl⟩

theorem freed_large (hI : Inv s₀ s live ps fs ls M B) (ha : a ∈ ls)
    (hc : Core s' ps fs [] (ls.erase a) M B) (hbase : s'.base = s.base)
    (hpools : s'.pools = s.pools) (hl : s'.larges = s.larges)
    (hcfg : s'.config = { s.config with largeht := s'.config.largeht })
    (hnone : s'.config.largeht = none ↔ s.config.largeht = none)
    (hp : s'.property = s.property.subAlloced (largeBytes (s.larges a))) :
    Inv s₀ s' (live.filter (· ≠ a+largeSize)) ps fs (ls.erase a) M B := by
  have hht : s'.config.ht = s.config.ht := by rw [hcfg]
  have hsz : s'.config.pool_size = s.config.pool_size := by rw [hcfg]
  have hblock : ∀ x, Block s'.base ps (ls.erase a) B x ↔
      Block s.base ps ls B x ∧ x ≠ a+largeSize := by
    intro x
    rw [hbase]
    exact erased_block hI.core ha x
  have hacct : Acct s' ps (ls.erase a) := by
    have h := hI.acct
    have hcap := h.cap
    have hsum : (ls.map fun x => largeBytes (s.larges x)).sum = largeBytes (s.larges a)+
        ((ls.erase a).map fun x => largeBytes (s.larges x)).sum := by
      rw [((List.perm_cons_erase ha).map _).sum_eq, List.map_cons, List.sum_cons]
    have hal := h.alloced
    obtain ⟨h1, h2, h3⟩ := @subAlloced_of_le s.property (largeBytes (s.larges a)) (by omega)
      (by omega)
    refine ⟨?_, ?_, ?_, ?_⟩
    · rw [hp, h1, hsz, hl]
      omega
    · rw [hp, h2, hbase, hpools]
      exact h.leftsize
    · rw [hp, h3]
      exact h.wrapped
    · rw [hp, h1]
      omega
  refine ⟨hc, hacct, ?_, hI.busy, fun x hx => ?_, fun hne x hx => ?_, ?_, fun x hx => ?_,
    hbase.trans hI.base, ?_, ?_, hnone.trans hI.largeht⟩
  · have h := hI.registered
    rw [Registered, hht, hbase]
    exact h
  · simp only [List.mem_filter, decide_eq_true_eq] at hx
    exact (hblock x).mpr ⟨hI.held x hx.1, hx.2⟩
  · have hx' := (hblock x).mp hx
    simp only [List.mem_filter, decide_eq_true_eq]
    exact ⟨hI.all (hht ▸ hne) x hx'.1, hx'.2⟩
  · rw [hbase, hpools]
    exact hI.marks
  · rw [hl]
    exact hI.large x (List.mem_of_mem_erase hx)
  · rw [hcfg, hI.config]
  · rw [hht]
    exact hI.ht

theorem pfree_inv (hI : Inv s₀ s live ps fs ls M B) {data : ℕ} (hd : data ∈ live) {ret : ℤ}
    (hrun : pfree s data = .ok (s', ret)) :
    ∃ ps' fs' ls' M' B', Inv s₀ s' (live.filter (· ≠ data)) ps' fs' ls' M' B' := by
  rcases hI.held data hd with ⟨b, hb, o, ho, rfl⟩ | ⟨a, ha, rfl⟩
  · obtain ⟨hout, hin⟩ := pfree_small hI.core hb ho
    by_cases hM : b ∈ M
    · obtain ⟨t, ps', fs', M', B', hrun', hc, hr, hacct, hreg, -⟩ := hin hM
      rw [hrun', Except.ok.injEq, Prod.mk.injEq] at hrun
      obtain ⟨rfl, -⟩ := hrun
      exact ⟨ps', fs', ls, M', B', freed_small hI hb ho hc hr (hacct hI.acct).1
        (hreg hI.registered)⟩
    · rw [hout hM, Except.ok.injEq, Prod.mk.injEq] at hrun
      obtain ⟨rfl, -⟩ := hrun
      refine ⟨ps, fs, ls, M, B, { hI with held := fun x hx => ?_, all := fun hne => ?_ }⟩
      · exact hI.held x (List.mem_of_mem_filter hx)
      · exact absurd (hI.registered hne b hb) hM
  · obtain ⟨t, hrun', hc, hbase, hpools, hl, hcfg, hnone, hp⟩ := pfree_large hI.core ha
    rw [hrun', Except.ok.injEq, Prod.mk.injEq] at hrun
    obtain ⟨rfl, -⟩ := hrun
    exact ⟨ps, fs, ls.erase a, M, B, freed_large hI ha hc hbase hpools hl hcfg hnone hp⟩

theorem toInt32_le (k : ℕ) : toInt32 k ≤ (k % 2^32 : ℕ) := by
  rw [toInt32]
  split
  · exact le_refl _
  · omega

theorem toInt32_neg {k : ℕ} (h : k < largeSize) : toInt32 (usub 32 k largeSize) < 0 := by
  rw [largeSize] at h
  have hwrap : usub 32 k largeSize = 2^32-12+k := by
    rw [usub, largeSize]
    omega
  rw [hwrap, toInt32, if_neg (by omega)]
  omega

/-- A write of the program into the capacity of a block. -/
theorem write_inv (hI : Inv s₀ s live ps fs ls M B) {data x n : ℕ} {cap : ℤ} {f : Bytes}
    (hd : data ∈ live) (hcap : pdatasize s data = .ok cap) (hn : 0 < n) (hlo : data ≤ x)
    (hhi : ((x+n : ℕ) : ℤ) ≤ data+cap) (hrun : s.store x n f = .ok s') :
    Inv s₀ s' live ps fs ls M B := by
  rcases hI.held data hd with ⟨b, hb, o, ho, rfl⟩ | ⟨a, ha, rfl⟩
  · obtain ⟨h16, -, -, -⟩ := block_bounds hI.core hb ho
    have hlt : (s.pools b).rd o .size < 65536 := rd_lt
    rw [pdatasize, if_neg (payload_pos hI.core hb)] at hcap
    simp only [checkLarge_small hI.core hb ho, checkRealdata_small hI.core hb ho, ok_bind,
      Bool.false_eq_true, if_false] at hcap
    by_cases hM : b ∈ M
    · rw [if_pos hM] at hcap
      simp only [Except.ok.injEq] at hcap
      have hle := toInt32_le (usub 32 ((s.pools b).rd o .size) realdataSize)
      rw [hcap, usub_of_le (by rw [realdataSize]; omega) (by omega), realdataSize] at hle
      simp only [payload, mempoolSize, realdataSize] at hlo hhi
      obtain ⟨t, hstore, hc, hw, -⟩ := store_small (f := f) (n := n) (d := x-b-mempoolSize)
        hI.core hb ho hn (by simp only [mempoolSize, realdataSize]; omega)
        (by simp only [mempoolSize]; omega)
      have haddr : b+mempoolSize+(x-b-mempoolSize) = x := by
        simp only [mempoolSize]
        omega
      rw [haddr, hrun, Except.ok.injEq] at hstore
      subst hstore
      exact inv_marked hI hc (marked_of_written hw)
    · rw [if_neg hM] at hcap
      simp only [Except.ok.injEq] at hcap
      omega
  · have hlt : largeBytes (s.larges a) < 2^32 := load32_lt _ _
    rw [pdatasize, if_neg (by rw [largeSize]; omega)] at hcap
    simp only [usub_largeSize hI.core ha, checkLarge_large hI.core ha, ok_bind, if_true,
      Except.ok.injEq] at hcap
    have hfit : (x-a)+n ≤ largeBytes (s.larges a) := by
      by_cases h12 : largeSize ≤ largeBytes (s.larges a)
      · have hle := toInt32_le (usub 32 (largeBytes (s.larges a)) largeSize)
        rw [hcap, usub_of_le h12 hlt] at hle
        simp only [largeSize] at *
        omega
      · -- the capacity of a chunk without room for its header reads as a negative number
        have hneg := toInt32_neg (Nat.lt_of_not_le h12)
        omega
    obtain ⟨t, hstore, hc, hw, -⟩ := store_large (f := f) (n := n) (d := x-a) hI.core ha hn
      (by omega) hfit
    have haddr : a+(x-a) = x := by omega
    rw [haddr, hrun, Except.ok.injEq] at hstore
    subst hstore
    exact inv_marked hI hc (marked_of_written hw)

theorem pmemcpyExtra_inv (hI : Inv s₀ s live ps fs ls M B) {dest src n : ℕ} {r : Option ℕ}
    (hd : dest ∈ live) (hn : n < 2^32) (hrun : pmemcpyExtra env s dest src n = .ok (s', r)) :
    Inv s₀ s' live ps fs ls M B := by
  rcases hI.held dest hd with ⟨b, hb, o, ho, rfl⟩ | ⟨a, ha, rfl⟩
  · have hreal := checkRealdata_small hI.core hb ho
    by_cases hM : b ∈ M
    · rw [if_pos hM] at hreal
      rw [pmemcpyExtra_small env (checkLarge_small hI.core hb ho) hreal] at hrun
      obtain ⟨hc, hm⟩ := pmemcpySmall_spec env hI.core hb ho (hI.marks b hb o ho) hn hrun
      exact inv_marked hI hc hm
    · rw [if_neg hM] at hreal
      rw [pmemcpyExtra_none env (checkLarge_small hI.core hb ho) hreal, Except.ok.injEq,
        Prod.mk.injEq] at hrun
      exact hrun.1 ▸ hI
  · obtain ⟨-, hu⟩ := hI.large a ha
    rw [pmemcpyExtra] at hrun
    dsimp only at hrun
    rw [usub_largeSize hI.core ha, checkLarge_large hI.core ha, ok_bind, if_pos rfl] at hrun
    obtain ⟨⟨t, c⟩, hcpy, hrun⟩ := bind_ok_iff.mp hrun
    rw [Except.ok.injEq, Prod.mk.injEq] at hrun
    obtain ⟨rfl, -⟩ := hrun
    obtain ⟨hplain, hmark⟩ := pmemcpyBytes_large env hI.core ha hu hn hcpy
    split
    · next hpos => exact inv_marked hI (hmark hpos).1 (hmark hpos).2
    · exact inv_marked hI hplain.1 hplain.2

theorem psprintfExtra_inv (hI : Inv s₀ s live ps fs ls M B) {data : ℕ} {text : List UInt8}
    {len : ℤ} (hd : data ∈ live) (hrun : psprintfExtra s data text = .ok (s', len)) :
    Inv s₀ s' live ps fs ls M B := by
  rcases hI.held data hd with ⟨b, hb, o, ho, rfl⟩ | ⟨a, ha, rfl⟩
  · have hreal := checkRealdata_small hI.core hb ho
    have hpos : payload b o ≠ 0 := payload_pos hI.core hb
    by_cases hM : b ∈ M
    · rw [if_pos hM] at hreal
      rw [psprintfExtra_small hpos (checkLarge_small hI.core hb ho) hreal] at hrun
      obtain ⟨hc, hm⟩ := psprintfSmall_spec hI.core hb ho (hI.marks b hb o ho) hrun
      exact inv_marked hI hc hm
    · rw [if_neg hM] at hreal
      rw [psprintfExtra_none hpos (checkLarge_small hI.core hb ho) hreal, Except.ok.injEq,
        Prod.mk.injEq] at hrun
      exact hrun.1 ▸ hI
  · obtain ⟨hflag, hu⟩ := hI.large a ha
    rw [psprintfExtra, if_neg (by rw [largeSize]; omega)] at hrun
    dsimp only at hrun
    rw [usub_largeSize hI.core ha, checkLarge_large hI.core ha, ok_bind, if_pos rfl] at hrun
    split at hrun
    · next hpos =>
      obtain ⟨t, hprint, hrun⟩ := bind_ok_iff.mp hrun
      rw [Except.ok.injEq, Prod.mk.injEq] at hrun
      obtain ⟨rfl, -⟩ := hrun
      obtain ⟨hplain, hmark⟩ := vsnprintf_large hI.core ha hu hpos rfl hprint
      split
      · exact inv_marked hI hmark.1 hmark.2
      · exact inv_marked hI hplain.1 hplain.2
    · rw [Except.ok.injEq, Prod.mk.injEq] at hrun
      exact hrun.1 ▸ hI

theorem pzero_small (hI : Inv s₀ s live ps fs ls M B) (hb : b ∈ s.base :: ps) (ho : o ∈ B b) :
    Inv s₀ (s.setPool b ((s.pools b).setRd o .used 0)) live ps fs ls M B := by
  have hu := hI.marks b hb o ho
  obtain ⟨hc, hm⟩ := mark_small (v := 0) hI.core hb ho (by omega)
  exact inv_marked hI hc hm

theorem pzero_large (hI : Inv s₀ s live ps fs ls M B) (a : ℕ) :
    Inv s₀ (s.setLarge a (store32 (s.larges a) 8 0)) live ps fs ls M B := by
  obtain ⟨hc, hm⟩ := mark_large (a := a) (v := 0) hI.core (by decide) (Or.inl rfl)
  exact inv_marked hI hc hm

theorem pzeroExtra_inv (hI : Inv s₀ s live ps fs ls M B) {data : ℕ} (hd : data ∈ live)
    (hrun : pzeroExtra s data = .ok s') : Inv s₀ s' live ps fs ls M B := by
  rcases hI.held data hd with ⟨b, hb, o, ho, rfl⟩ | ⟨a, ha, rfl⟩
  · simp only [pzeroExtra, checkLarge_small hI.core hb ho, checkRealdata_small hI.core hb ho,
      ok_bind, Bool.false_eq_true, if_false] at hrun
    by_cases hM : b ∈ M
    · rw [if_pos hM] at hrun
      simp only [Except.ok.injEq] at hrun
      exact hrun ▸ pzero_small hI hb ho
    · rw [if_neg hM, Except.ok.injEq] at hrun
      exact hrun ▸ hI
  · simp only [pzeroExtra, usub_largeSize hI.core ha, checkLarge_large hI.core ha, ok_bind,
      if_true, Except.ok.injEq] at hrun
    exact hrun ▸ pzero_large hI a

theorem step_inv {live' : List ℕ} (hI : Inv s₀ s live ps fs ls M B)
    (h : Step env s live s' live') : ∃ ps' fs' ls' M' B', Inv s₀ s' live' ps' fs' ls' M' B' := by
  cases h with
  | palloc fuel size r hs hrun => exact palloced_inv hI (palloc_spec env fuel hI.core hrun)
  | pcalloc fuel size r hs hrun => exact palloced_inv hI (pcalloc_spec env fuel hI.core hrun)
  | pfree data ret hd hrun => exact pfree_inv hI hd hrun
  | pmemcpyExtra dest src n r hn hd hrun =>
    exact ⟨ps, fs, ls, M, B, pmemcpyExtra_inv hI hd hn hrun⟩
  | psprintfExtra data text len hd hrun =>
    exact ⟨ps, fs, ls, M, B, psprintfExtra_inv hI hd hrun⟩
  | pzeroExtra data hd hrun => exact ⟨ps, fs, ls, M, B, pzeroExtra_inv hI hd hrun⟩
  | write data x n cap f hd hcap hn hlo hhi hrun =>
    exact ⟨ps, fs, ls, M, B, write_inv hI hd hcap hn hlo hhi hrun⟩

theorem reach_inv (hs : Start env s₀) (hr : Roomy s₀) (h : Reach env s₀ s live) :
    ∃ ps fs ls M B, Inv s₀ s live ps fs ls M B := by
  induction h with
  | start =>
    obtain ⟨M, hI⟩ := start_inv hs hr
    exact ⟨[], [], [], M, _, hI⟩
  | step _ hstep ih =>
    obtain ⟨ps, fs, ls, M, B, hI⟩ := ih
    exact step_inv hI hstep

end Runs

end CLearning.MempoolRun
