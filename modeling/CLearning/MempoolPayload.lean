import CLearning.MempoolReset

/-!
# Payload bytes

`palloc` and `pfree` write into headers only: the bytes behind the header of a
block that stays out are the same afterwards.
-/

set_option autoImplicit false

namespace CLearning.MempoolPayload
open CLearning.Machine CLearning.LinkedLists CLearning.MempoolBytes CLearning.MempoolPool
open CLearning.MempoolHeap CLearning.MempoolServe CLearning.MpHash CLearning.MempoolState
open CLearning.Mempool CLearning.MempoolChain CLearning.MempoolRegistry CLearning.MempoolCore
open CLearning.MempoolGrow CLearning.MempoolAlloc CLearning.MempoolFree
open CLearning.MempoolStore CLearning.MempoolInit CLearning.MempoolFresh CLearning.MempoolRun
open CLearning.MempoolAppend CLearning.MempoolCache CLearning.MempoolFailure
open CLearning.MempoolCoalesce CLearning.MempoolLaws CLearning.MempoolReset

section Search

variable {s s' t : State} {ps ps' fs xs ls M qs : List ℕ} {B : ℕ → List ℕ} {a b o i size : ℕ}

theorem payload_outside {p : Pool} {T : List ℕ} {L : Cls → List ℕ} (hi : HeapInv p T L)
    (ho : o ∈ T) (h15 : 15 ≤ i) (hsize : i < p.rd o .size) : Outside T (o+i) := by
  intro x hx
  have := splice_apart (n := 1) hi ho (Nat.add_le_add_left h15 o) (by omega) hx
  omega

def Intact (qs : List ℕ) (B : ℕ → List ℕ) (s s' : State) : Prop :=
  ∀ a ∈ qs, ∀ o ∈ B a, ∀ i, 15 ≤ i → i < (s.pools a).rd o .size →
    (s'.pools a).data (o+i) = (s.pools a).data (o+i)

theorem Intact.trans (h : Intact qs B s t)
    (hk : ∀ a ∈ qs, ∀ o ∈ B a, (t.pools a).rd o .size = (s.pools a).rd o .size)
    (h' : Intact qs B t s') : Intact qs B s s' := by
  intro a ha o ho i h15 hi
  rw [h' a ha o ho i h15 (by rw [hk a ha o ho]; exact hi), h a ha o ho i h15 hi]

theorem intact_same (h : ∀ x ∈ qs, (s'.pools x).data = (s.pools x).data) : Intact qs B s s' := by
  intro a ha o _ i _ _
  rw [h a ha]

theorem Intact.counters (h : Intact qs B s t) (p : Property) :
    Intact qs B s { t with property := p } := h

/-- Taking a block out of a pool. -/
theorem take_intact {q : Pool} (hc : Core s ps fs xs ls M B) (hb : b ∈ s.base :: ps)
    (h16 : 16 ≤ size) (hs : size ≤ (s.pools b).leftsize)
    (ht : takeRealdata (s.pools b) size = some (q, o)) : Intact qs B s (s.setPool b q) := by
  obtain ⟨T, L, hi, hL⟩ := hc.linked_inv hb
  obtain ⟨T₁, T₂, T₂', L', rfl, hv, -⟩ := takeRealdata_spec hi h16 hs ht
  intro a _ x hx i h15 hsize
  by_cases hab : a = b
  · subst hab
    rw [pools_setPool_self]
    obtain ⟨hxT, hst⟩ := (hi.mem_busy x).mp (hL ▸ hx)
    have hxo : x ≠ o := by
      rintro rfl
      rw [hv.free] at hst
      exact absurd hst (by decide)
    have hx' : x ∈ T₁ ++ T₂ := by simpa [hxo] using hxT
    have hmem : x ∈ T₁ ++ o :: T₂' := by
      rcases hv.shape with ⟨rfl, -⟩ | ⟨rfl, -⟩
      · exact hxT
      · rcases List.mem_append.mp hx' with h | h
        · exact List.mem_append_left _ h
        · exact List.mem_append_right _ (List.mem_cons_of_mem _ (List.mem_cons_of_mem _ h))
    apply hv.frame.data
    apply payload_outside hv.inv hmem h15
    rw [hv.frame.size x hx']
    exact hsize
  · rw [pools_setPool_ne s q hab]

theorem searchPools_intact (h16 : 16 ≤ size) (fuel : ℕ) {tmp : Option ℕ} {n : ℕ} {r : Found}
    (hc : Core s ps fs xs ls M B) (ht : ∀ a, tmp = some a → a ∈ s.base :: ps)
    (hrun : searchPools size fuel s tmp n = .ok r) : Intact qs B s r.state := by
  induction fuel generalizing s ps tmp n with
  | zero => cases hrun
  | succ fuel ih =>
    cases tmp with
    | none =>
      rw [searchPools, Except.ok.injEq] at hrun
      subst hrun
      exact intact_same fun _ _ => rfl
    | some tmp =>
      have htmp := ht tmp rfl
      -- the walk stops at this pool, or goes on behind it in the state `s₁`
      have pass : ∀ (s₁ : State) (ps₁ : List ℕ) (m : ℕ) (c : Prop) [Decidable c]
          (nx : Option ℕ), Core s₁ ps₁ fs xs ls M B → Kept B s s₁ → ps₁.Perm ps →
          (∀ x, SameBlocks (s.pools x) (s₁.pools x)) → nx = (s.pools tmp).next →
          (if c then (.ok ⟨s₁, some tmp, none⟩ : Run Found)
            else searchPools size fuel s₁ nx m) = .ok r → Intact qs B s r.state := by
        intro s₁ ps₁ m c _ nx hc₁ hk hperm hsame hnx hr
        split at hr
        · rw [Except.ok.injEq] at hr
          subst hr
          exact intact_same fun x _ => (hsame x).data
        · apply (intact_same fun x _ => (hsame x).data).trans fun a _ o ho => (hk.blocks a o ho).1
          apply ih hc₁ _ hr
          intro a ha
          have := chain_next_mem hc.chain htmp (hnx ▸ ha)
          rw [hk.base]
          simpa [hperm.mem_iff] using this
      have hcount := countFailed_kept s tmp B
      rw [searchPools] at hrun
      by_cases hskip : (s.pools tmp).leftsize < size ∨
          mempoolGetFreelist (s.pools tmp) size = none
      · rw [if_pos hskip] at hrun
        by_cases hf : (s.pools tmp).failed < mempoolFailedSkip
        · simp only [if_pos hf, ok_bind] at hrun
          exact pass _ ps _ _ _ (countFailed_core hc tmp) hcount.1 (List.Perm.refl _) hcount.2.1 rfl
            hrun
        · obtain ⟨s₂, ps₂, hrun₂, hperm, hc₂, hk₂, hsame⟩ := move2tail_core hc htmp
          simp only [if_neg hf, hrun₂, ok_bind] at hrun
          exact pass _ ps₂ _ _ _ hc₂ hk₂ hperm hsame rfl hrun
      · rw [if_neg hskip] at hrun
        rw [not_or, Nat.not_lt] at hskip
        cases htake : takeRealdata (s.pools tmp) size with
        | none =>
          cases hbusy : (s.pools tmp).busylist with
          | none => simp [htake, hbusy] at hrun
          | some b =>
            simp only [htake, hbusy] at hrun
            by_cases hf : (s.pools tmp).failed < mempoolFailedSkip
            · simp only [if_pos hf] at hrun
              exact pass _ ps _ _ _ (countFailed_core hc tmp) hcount.1 (List.Perm.refl _) hcount.2.1
                (hcount.2.2.1 tmp).2 hrun
            · simp only [if_neg hf] at hrun
              exact pass _ ps _ _ _ hc (Kept.refl _ _) (List.Perm.refl _)
                (fun _ => SameBlocks.refl _) rfl hrun
        | some qo =>
          obtain ⟨q, o⟩ := qo
          simp only [htake, Except.ok.injEq] at hrun
          subst hrun
          exact take_intact hc htmp h16 hskip.1 htake

theorem allocRealdata_intact (h16 : 16 ≤ size) (fuel : ℕ) {tmp : Option ℕ} {n : ℕ}
    {r : Option (ℕ × ℕ)} (hc : Core s ps fs xs ls M B) (ht : ∀ a, tmp = some a → a ∈ s.base :: ps)
    (hrun : allocRealdata size fuel s tmp n = .ok (s', r)) : Intact qs B s s' := by
  induction fuel generalizing s ps tmp n with
  | zero => cases hrun
  | succ fuel ih =>
    rw [allocRealdata] at hrun
    obtain ⟨f, hf, hr⟩ := bind_ok_iff.mp hrun
    have hfirst : Intact qs B s f.state := searchPools_intact h16 _ hc ht hf
    obtain ⟨ps₁, -, hcase⟩ := searchPools_spec h16 _ hc ht hf
    have stop : ∀ v, (Except.ok (f.state, v) : Run (State × Option (ℕ × ℕ))) = .ok (s', r) →
        Intact qs B s s' := by
      intro v he
      rw [Except.ok.injEq, Prod.mk.injEq] at he
      rw [← he.1]
      exact hfirst
    rcases hcase with ⟨hnone, hc₁, hq, htmp⟩ | ⟨b, o, htmp, hsome, hb, hc₁, htook⟩
    · cases hft : f.tmp with
      | none =>
        simp only [hft] at hr
        exact stop _ hr
      | some a =>
        have ha : a ∈ f.state.base :: ps₁ := by
          rw [hq.kept.base]
          exact htmp a hft
        have again : ∀ m, allocRealdata size fuel f.state (f.state.pools a).next m = .ok (s', r) →
            Intact qs B s s' := fun m hm =>
          hfirst.trans (fun a _ o ho => (hq.kept.blocks a o ho).1) (ih hc₁ (fun x hx => chain_next_mem hc₁.chain ha hx) hm)
        simp only [hft, hnone] at hr
        split at hr
        · split at hr
          · exact again _ hr
          · split at hr
            · exact again _ hr
            · exact stop _ hr
        · exact stop _ hr
    · simp only [htmp, hsome, Except.ok.injEq, Prod.mk.injEq] at hr
      rw [← hr.1]
      exact hfirst.counters _

end Search

section Calls

variable {s s' t : State} {ps ps' fs xs ls M qs : List ℕ} {B B' : ℕ → List ℕ} {a b o size : ℕ}

/-- The loop of `palloc`. -/
theorem allocAgain_intact (env : Env) (h16 : 16 ≤ size) (fuel : ℕ) {tmp : Option ℕ}
    {r : Option (ℕ × ℕ)} (hc : Core s ps fs [] ls M B) (ht : ∀ a, tmp = some a → a ∈ s.base :: ps)
    (hrun : allocAgain env size fuel s tmp = .ok (s', r)) : Intact (s.base :: ps) B s s' := by
  induction fuel generalizing s ps fs M B tmp with
  | zero => cases hrun
  | succ fuel ih =>
    rw [allocAgain] at hrun
    obtain ⟨⟨s₁, r₁⟩, halloc, hrest⟩ := bind_ok_iff.mp hrun
    have hfirst : Intact (s.base :: ps) B s s₁ := allocRealdata_intact h16 _ hc ht halloc
    obtain ⟨ps₁, hperm, hcase⟩ := allocRealdata_spec h16 _ hc ht halloc
    rcases hcase with ⟨rfl, hc₁, hq⟩ | ⟨b, o, rfl, -⟩
    · have hsize : ∀ a ∈ s.base :: ps, ∀ o ∈ B a,
          (s₁.pools a).rd o .size = (s.pools a).rd o .size :=
        fun a _ o ho => (hq.kept.blocks a o ho).1
      simp only at hrest
      split at hrest
      · rw [Except.ok.injEq, Prod.mk.injEq] at hrest
        rw [← hrest.1]
        exact hfirst
      · obtain ⟨⟨s₂, np⟩, hget, hrest⟩ := bind_ok_iff.mp hrest
        obtain ⟨hgain, hcase⟩ := getMempool_spec env hc₁ hget
        have hmem : ∀ x ∈ s.base :: ps, x ∈ s₁.base :: ps₁ := fun x hx => by
          rw [hq.kept.base]
          simpa [hperm.mem_iff] using hx
        have hsecond : Intact (s.base :: ps) B s s₂ :=
          hfirst.trans hsize (intact_same fun x hx => (hgain.same x (hmem x hx)).data)
        rcases hcase with ⟨rfl, -⟩ | ⟨a, rfl, hc₂, hi₂, -⟩
        · rw [Except.ok.injEq, Prod.mk.injEq] at hrest
          rw [← hrest.1]
          exact hsecond
        · obtain ⟨hc₃, hk₃, hsame₃⟩ := linkMempool_core hc₂ hi₂
          have hlast := ih hc₃ (fun x hx => by rw [← Option.some_inj.mp hx]; simp) hrest
          have hsame : ∀ x ∈ s.base :: ps, ((linkMempool s₂ a).pools x).data = (s₁.pools x).data :=
            fun x hx => (hsame₃ x).data.trans (hgain.same x (hmem x hx)).data
          have ha : a ∉ s.base :: ps := fun h => (hc₂.out a (by simp)).1 (by
            rw [hgain.base]
            exact hmem a h)
          have hlink : Intact (s.base :: ps) B s (linkMempool s₂ a) :=
            hfirst.trans hsize (intact_same hsame)
          apply hlink.trans
          · intro x hx o ho
            rw [Pool.rd, hsame x hx]
            exact hsize x hx o ho
          · intro x hx o ho
            apply hlast x
            · rw [hk₃.base, hgain.base, hq.kept.base]
              simp only [List.mem_cons, hperm.mem_iff] at hx ⊢
              tauto
            · rw [Function.update_of_ne (fun h : x = a => ha (h ▸ hx))]
              exact ho
    · rw [Except.ok.injEq, Prod.mk.injEq] at hrest
      rw [← hrest.1]
      exact hfirst

theorem setUsed_intact (hc : Core s ps fs xs ls M B) (hb : b ∈ s.base :: ps) (ho : o ∈ B b)
    (v : ℕ) :
    Intact qs B s (s.setPool b ((s.pools b).setRd o .used v)) := by
  intro a _ x hx i h15 hsize
  by_cases hab : a = b
  · subst hab
    obtain ⟨T, L, hi, hL⟩ := hc.linked_inv hb
    rw [pools_setPool_self]
    exact data_setRd (hi.mem .busy o (hL ▸ ho))
      (payload_outside hi (hi.mem .busy x (hL ▸ hx)) h15 hsize)
  · rw [pools_setPool_ne _ _ hab]

/-- `palloc` leaves the payloads of the blocks that are out as they are. -/
theorem palloc_intact (env : Env) (fuel : ℕ) {r : Option ℕ} (hc : Core s ps fs [] ls M B)
    (hrun : palloc env fuel s size = .ok (s', r)) : Intact (s.base :: ps) B s s' := by
  obtain ⟨t, htick⟩ := judged_tick env s size
  have hc₁ := hc.tick t
  by_cases hp : Passes env s size
  · by_cases hs : size ≤ threshold s
    · have h0 : 0 < size := by
        have href := hp.1
        simp only [refuses, Bool.or_eq_false_iff, decide_eq_false_iff_not] at href
        omega
      have hfirst : ∀ a, firstMempool s size = some a → a ∈ s.base :: ps :=
        fun a ha => start_linked hc _ a ha
      rw [palloc_small fuel hc hp hs, htick] at hrun
      obtain ⟨⟨s₁, b⟩, hagain, hrest⟩ := bind_ok_iff.mp hrun
      have hsz := hc.config.size
      simp only [SizeOk, mempoolSize, realdataSize] at hsz
      have hle := hs
      rw [threshold_eq hc.config] at hle
      have h16 : 16 ≤ size+realdataSize := by
        rw [realdataSize]
        omega
      have hagain' := allocAgain_intact env h16 fuel hc₁ hfirst hagain
      have hintact : Intact (s.base :: ps) B s s₁ := hagain'
      obtain ⟨ps', fs', M', B', hc', hst, -, -, -, hcase⟩ := allocAgain_spec env h16 fuel hc₁
        (show size+realdataSize ≤ s.config.pool_size-mempoolSize by
          rw [realdataSize, mempoolSize]
          omega) hfirst hagain
      cases b with
      | none =>
        rw [Except.ok.injEq, Prod.mk.injEq] at hrest
        rw [← hrest.1]
        exact hintact
      | some b =>
        rw [Except.ok.injEq, Prod.mk.injEq] at hrest
        rcases hcase with ⟨hb, -⟩ | ⟨b', o, hb, hh⟩
        · cases hb
        · cases hb
          rw [← hrest.1]
          have hmem : b' ∈ s₁.base :: ps' := by
            rw [hst.base]
            exact hh.mem
          have ho : o ∈ B' b' := (hh.busy b' hh.mem o).mpr (Or.inr ⟨rfl, rfl⟩)
          apply hintact.trans
          · exact fun a ha x hx => (hst.blocks a ha x hx).1
          · intro a ha x hx
            apply @setUsed_intact s₁ ps' fs' [] ls M' (s.base :: ps) B' b' o hc' hmem ho 0 a ha x
            have ha' : a ∈ s.base :: ps' := by
              rcases List.mem_cons.mp ha with rfl | ha
              · exact List.mem_cons_self
              · exact List.mem_cons_of_mem _ (hh.old a ha)
            exact (hh.busy a ha' x).mpr (Or.inl ⟨ha, hx⟩)
    · rw [palloc_large fuel hp (Nat.lt_of_not_le hs), htick] at hrun
      obtain ⟨-, hpools, -⟩ := allocLarge_spec env hc₁ hrun
      apply intact_same
      intro x _
      rw [hpools]
  · obtain ⟨u, hu, -, -, hpools⟩ := palloc_refused fuel hp
    rw [hu] at hrun
    cases hrun
    apply intact_same
    intro x _
    rw [hpools]

theorem putBack_data {p : Pool} {Q : List ℕ} (hi : PoolInv p Q) (ho : o ∈ Q) (hne : Q.erase o ≠ [])
    {x i : ℕ} (hx : x ∈ Q.erase o) (h15 : 15 ≤ i) (hsize : i < p.rd x .size) :
    (putBack p o).data (x+i) = p.data (x+i) := by
  obtain ⟨T, L, hi, rfl⟩ := hi
  obtain ⟨T₁, T₂, rfl⟩ := heapInv_split hi ho
  obtain ⟨hh, hord, hed, hprev, hnext⟩ := unlinkBusy_spec hi ho
  have hbusy : Function.update L .busy ((L .busy).erase o) .busy = (L .busy).erase o :=
    Function.update_self ..
  have hne' : Function.update L .busy ((L .busy).erase o) .busy ≠ [] := by rwa [hbusy]
  have hxT : x ∈ T₁ ++ o :: T₂ := hi.mem .busy x (List.mem_of_mem_erase hx)
  have hout := payload_outside hi hxT h15 hsize
  have hfr : ∀ y, Outside (T₁ ++ o :: T₂) y → (putBack p o).data y = (unlinkBusy p o).data y := by
    rw [putBack]
    split
    · next h0 =>
      obtain ⟨L', -, -, hfr, -⟩ := refillFreelist_spec hh hord hne' hprev hnext h0
      exact hfr.data
    · obtain ⟨T', L', -, -, hfr, -⟩ := freeRealdata_spec hh hne'
      exact hfr.data
  rw [hfr _ hout, hed.data _ hout]

/-- `__pfree_realdata` leaves the payloads of the other blocks as they are. -/
theorem pfreeRealdata_intact (hc : Core s ps fs [] ls M B) (hb : b ∈ s.base :: ps) (ho : o ∈ B b)
    (hrun : pfreeRealdata s b o = .ok s') :
    Intact (s.base :: ps) (Function.update B b ((B b).erase o)) s s' := by
  have hi := hc.linked_inv hb
  have hn : (s.pools b).rd o .size < 65536 := rd_lt
  rw [pfreeRealdata_eq hi ho rfl] at hrun
  by_cases hlast : (B b).erase o = []
  · rw [if_pos hlast] at hrun
    -- the pool has no other block, so only the other pools matter
    have hother : ∀ a, ∀ x ∈ Function.update B b ((B b).erase o) a, a ≠ b := by
      rintro a x hx rfl
      rw [Function.update_self, hlast] at hx
      cases hx
    by_cases hbb : b = s.base
    · rw [if_neg (not_not_intro hbb), Except.ok.injEq] at hrun
      intro a _ x hx i _ _
      rw [← hrun]
      exact congrArg (fun q : Pool => q.data (x+i)) (pools_setPool_ne s _ (hother a x hx))
    · rw [if_pos hbb] at hrun
      have hbps : b ∈ ps := (List.mem_cons.mp hb).resolve_left hbb
      obtain ⟨u, ps', fs', hrun', hperm, -, -, -, -, -, -, hblk, -⟩ := destroy_emptied hc hbps ho
      obtain rfl : u = s' := Except.ok.inj (hrun'.symm.trans hrun)
      intro a ha x hxa i _ _
      have hab := hother a x hxa
      have ha' : a ∈ s.base :: ps' := by
        rcases List.mem_cons.mp ha with rfl | ha
        · exact List.mem_cons_self
        · exact List.mem_cons_of_mem _ ((List.mem_cons.mp (hperm.mem_iff.mpr ha)).resolve_left hab)
      rw [(hblk a ha').data]
  · rw [if_neg hlast] at hrun
    have hput : ∀ (t : State), (∀ a, t.pools a = (s.setPool b (putBack (s.pools b) o)).pools a) →
        Intact (s.base :: ps) (Function.update B b ((B b).erase o)) s t := by
      intro t ht a _ x hxa i h15 hi'
      rw [ht]
      by_cases hab : a = b
      · subst hab
        rw [Function.update_self] at hxa
        rw [pools_setPool_self]
        exact putBack_data hi ho hlast hxa h15 hi'
      · rw [pools_setPool_ne _ _ hab]
    by_cases h0 : (unlinkBusy (s.pools b) o).leftsize = 0
    · rw [if_pos h0] at hrun
      obtain ⟨hq, hql, hqp, hqx, hqs, hqb⟩ := putBack_spec hi ho hlast
      obtain ⟨hcore, -, -⟩ := give_core hc hb hq hn hql hqp hqx hqs hqb (fun _ => hlast)
      have hint := hput { s.setPool b (putBack (s.pools b) o) with
        property := s.property.addLeftsize ((s.pools b).rd o .size) } fun _ => rfl
      obtain ⟨u, ps', hrun', -, -, hr⟩ := mempoolMove2header_spec hcore.chain hb
      obtain rfl : u = s' := Except.ok.inj (hrun'.symm.trans hrun)
      have hsame := Relinked.sameBlocks hr
      intro a ha x hxa i h15 hi'
      rw [(hsame a).data]
      exact hint a ha x hxa i h15 hi'
    · rw [if_neg h0, Except.ok.injEq] at hrun
      rw [← hrun]
      exact hput _ fun _ => rfl

end Calls

section Blocks

variable {env : Env} {s s' t : State} {ps ps' fs fs' ls ls' M M' : List ℕ} {B B' : ℕ → List ℕ}
  {a b o x y size : ℕ}

def Stays (env : Env) (s s' : State) (x : ℕ) : Prop :=
  ∃ v, view s x = some v ∧ view s' x = some v ∧
    ∀ i, i+v.header < v.size → s'.load env (x+i) = s.load env (x+i)

theorem Stays.trans (h : Stays env s t x) (h' : Stays env t s' x) : Stays env s s' x := by
  obtain ⟨v, hv, hvt, hbytes⟩ := h
  obtain ⟨w, hwt, hw, hbytes'⟩ := h'
  obtain rfl : v = w := Option.some_inj.mp (hvt.symm.trans hwt)
  exact ⟨v, hv, hw, fun i hi => (hbytes' i hi).trans (hbytes i hi)⟩

theorem block_view (hc : Core s ps fs [] ls M B) (hx : Block s.base ps ls B x) :
    ∃ v, view s x = some v := by
  rcases hx with ⟨b, hb, o, ho, rfl⟩ | ⟨a, ha, rfl⟩
  · exact ⟨_, view_small hc hb ho⟩
  · exact ⟨_, view_large hc ha⟩

theorem stays_refl (hc : Core s ps fs [] ls M B) (hx : Block s.base ps ls B x) :
    Stays env s s x := by
  obtain ⟨v, hv⟩ := block_view hc hx
  exact ⟨v, hv, hv, fun _ _ => rfl⟩

theorem stays_small (env : Env) (hc : Core s ps fs [] ls M B) (hb : b ∈ s.base :: ps) (ho : o ∈ B b)
    (hc' : Core s' ps' fs' [] ls' M' B') (hb' : b ∈ s'.base :: ps') (ho' : o ∈ B' b)
    (hsize : (s'.pools b).rd o .size = (s.pools b).rd o .size)
    (hused : (s'.pools b).rd o .used = (s.pools b).rd o .used)
    (hdata : ∀ i, 15 ≤ i → i < (s.pools b).rd o .size →
      (s'.pools b).data (o+i) = (s.pools b).data (o+i)) : Stays env s s' (payload b o) := by
  have hview : smallView s' b o = smallView s b o := by
    rw [smallView, smallView, hsize, hused]
  refine ⟨smallView s b o, view_small hc hb ho, hview ▸ view_small hc' hb' ho', fun i hi => ?_⟩
  have hfit : i+15 < (s.pools b).rd o .size := hi
  have hcov : Covers (smallView s b o) (payload b o) (payload b o+i) :=
    ⟨by omega, by
      show payload b o+i+15 < payload b o+(s.pools b).rd o .size
      omega⟩
  have hoff : payload b o+i-b-mempoolSize = o+(15+i) := by
    rw [payload, realdataSize]
    omega
  rw [load_small env hc hb ho hcov, load_small env hc' hb' ho' (hview.symm ▸ hcov), hoff,
    hdata (15+i) (Nat.le_add_right _ _) (by omega)]

theorem stays_large (env : Env) (hc : Core s ps fs [] ls M B) (ha : a ∈ ls)
    (hc' : Core s' ps' fs' [] ls' M' B') (ha' : a ∈ ls') (hl : s'.larges a = s.larges a) :
    Stays env s s' (a+largeSize) := by
  have hview : largeView s' a = largeView s a := by
    rw [largeView, largeView, hl]
  refine ⟨largeView s a, view_large hc ha, hview ▸ view_large hc' ha', fun i hi => ?_⟩
  have hfit : i+12 < largeBytes (s.larges a) := hi
  have hcov : Covers (largeView s a) (a+largeSize) (a+largeSize+i) :=
    ⟨by omega, by
      show a+largeSize+i+12 < a+largeSize+largeBytes (s.larges a)
      omega⟩
  rw [load_large env hc ha hcov, load_large env hc' ha' (hview.symm ▸ hcov), hl]

theorem palloc_stays (env : Env) (fuel : ℕ) {r : Option ℕ} (hc : Core s ps fs [] ls M B)
    (hx : Block s.base ps ls B x) (hrun : palloc env fuel s size = .ok (s', r)) :
    Stays env s s' x := by
  have hintact := palloc_intact env fuel hc hrun
  obtain ⟨ps', fs', ls', M', B', hc', hst, hl, -, -, hout⟩ := palloc_spec env fuel hc hrun
  rcases hx with ⟨b, hb, o, ho, rfl⟩ | ⟨a, ha, rfl⟩
  · obtain ⟨hb', ho'⟩ := outcome_old hout hb ho
    obtain ⟨hsize, hused⟩ := hst.blocks b hb o ho
    exact stays_small env hc hb ho hc' (hst.base.symm ▸ hb') ho' hsize hused
      fun i h15 hi => hintact b hb o ho i h15 hi
  · have ha' : a ∈ ls' := by
      cases hout with
      | null h hl => exact hl ▸ ha
      | small b o h hl hs hu => exact hl ▸ ha
      | large c hp hM hB hl hnew hs hf hn hu =>
        rw [hl]
        exact List.mem_cons_of_mem _ ha
    exact stays_large env hc ha hc' ha' (hl a ha)

/-- `pfree` of one block changes no other. -/
theorem pfree_stays (env : Env) {ret : ℤ} (hc : Core s ps fs [] ls M B)
    (hx : Block s.base ps ls B x) (hy : Block s.base ps ls B y) (hne : y ≠ x)
    (hrun : pfree s x = .ok (s', ret)) : Stays env s s' y := by
  rcases hx with ⟨b, hb, o, ho, rfl⟩ | ⟨a, ha, rfl⟩
  · obtain ⟨hout, hin⟩ := pfree_small hc hb ho
    by_cases hM : b ∈ M
    · obtain ⟨t, ps', fs', M', B', hrun', hc', hr, -⟩ := hin hM
      rw [hrun', Except.ok.injEq, Prod.mk.injEq] at hrun
      obtain ⟨rfl, -⟩ := hrun
      have hinner : pfreeRealdata s b o = .ok t := by
        obtain ⟨-, -, -, hst⟩ := block_bounds hc hb ho
        have hreal := checkRealdata_small hc hb ho
        rw [if_pos hM] at hreal
        rw [pfree, if_neg (payload_pos hc hb)] at hrun'
        simp only [checkLarge_small hc hb ho, hreal, ok_bind, Bool.false_eq_true, if_false, hst,
          Nat.one_ne_zero, ne_eq, not_true_eq_false] at hrun'
        obtain ⟨u, hu, hrun'⟩ := bind_ok_iff.mp hrun'
        rw [Except.ok.injEq, Prod.mk.injEq] at hrun'
        exact hrun'.1 ▸ hu
      have hintact := pfreeRealdata_intact hc hb ho hinner
      rcases (released_block hc hb ho hr y).mpr ⟨hy, hne⟩ with ⟨c, hcm', p, hp', rfl⟩ | ⟨a, ha, rfl⟩
      · rw [hr.steady.base] at hcm'
        have hcm : c ∈ s.base :: ps := by
          rcases List.mem_cons.mp hcm' with rfl | h
          · exact List.mem_cons_self
          · exact List.mem_cons_of_mem _ (hr.pools c h)
        have hupd : p ∈ Function.update B b ((B b).erase o) c := by
          have h := hp'
          rw [hr.busy c hcm'] at h
          rwa [Function.update_apply]
        have hp : p ∈ B c := by
          rw [Function.update_apply] at hupd
          split at hupd
          · next h => exact h ▸ List.mem_of_mem_erase hupd
          · exact hupd
        obtain ⟨hsize, hused⟩ := hr.steady.blocks c hcm' p hp'
        exact stays_small env hc hcm hp hc' (hr.steady.base.symm ▸ hcm') hp' hsize hused
          fun i h15 hi => hintact c hcm p hupd i h15 hi
      · exact stays_large env hc ha hc' ha (congrFun hr.larges a)
    · rw [hout hM, Except.ok.injEq, Prod.mk.injEq] at hrun
      rw [← hrun.1]
      exact stays_refl hc hy
  · obtain ⟨t, hrun', hc', hbase, hpools, hl, -⟩ := pfree_large hc ha
    rw [hrun', Except.ok.injEq, Prod.mk.injEq] at hrun
    obtain ⟨rfl, -⟩ := hrun
    rcases hy with ⟨c, hcm, p, hp, rfl⟩ | ⟨d, hd, rfl⟩
    · exact stays_small env hc hcm hp hc' (hbase.symm ▸ hcm) hp (by rw [hpools]) (by rw [hpools])
        fun i _ _ => by rw [hpools]
    · have hda : d ≠ a := fun h => hne (h ▸ rfl)
      exact stays_large env hc hd hc' (hc.largeht.nodup.mem_erase_iff.mpr ⟨hda, hd⟩) (by rw [hl])

end Blocks

end CLearning.MempoolPayload
