import CLearning.MempoolHeap

/-!
# Freeing a block and merging its neighbours

A freed block first leaves the busy list, which opens a hole in the invariant.
The hole absorbs the free block before it and the free block after it, the
right neighbour is linked back, and the hole closes as one free block.
-/

set_option autoImplicit false

namespace CLearning.MempoolCoalesce
open CLearning.Machine CLearning.LinkedLists CLearning.MempoolBytes CLearning.MempoolPool CLearning.MempoolHeap

variable {p : Pool} {T T₁ T₂ : List ℕ} {h d : ℕ} {L : Cls → List ℕ}

def closeFree (p : Pool) (h d : ℕ) : Pool :=
  let q := (addFreenode p h none).setStatus h 0
  { q with leftsize := (q.leftsize+d) % 2^24, failed := 0 }

theorem mem_update_cons {L : Cls → List ℕ} {i : Fin 5} {h a : ℕ} {c : Cls} :
    a ∈ Function.update L (.free i) (h :: L (.free i)) c ↔
      a ∈ L c ∨ a = h ∧ c = .free i := by
  by_cases hc : c = .free i
  · subst hc
    simp [or_comm]
  · simp [hc]

/-- The block heads the list of its class; of the other headers only links change. -/
theorem closeFree_spec (hh : Hole p T₁ T₂ h d L) :
    Family (listLinks (closeFree p h d)) (heads (closeFree p h d))
        (Function.update L (.free (getFreeidx (p.rd h .size)))
          (h :: L (.free (getFreeidx (p.rd h .size))))) ∧
      (∀ x ∈ T₁ ++ h :: T₂, ∀ f, f ≠ .prev → f ≠ .next →
        (closeFree p h d).rd x f = p.rd x f) ∧
      (∀ x ∈ T₁ ++ h :: T₂, (closeFree p h d).status x = if x = h then 0 else p.status x) ∧
      (∀ x, Outside (T₁ ++ h :: T₂) x → (closeFree p h d).data x = p.data x) ∧
      closeFree p h d = { p with
        freelist := (closeFree p h d).freelist, busylist := (closeFree p h d).busylist,
        data := (closeFree p h d).data, leftsize := (p.leftsize+d) % 2^24, failed := 0 } := by
  have hT := hh.tiles.grid
  have hhT : h ∈ T₁ ++ h :: T₂ := by simp
  obtain ⟨hfam, hed⟩ := addFreenode_spec none hT (hh.tiles.lt_null hh.size_ok)
    (fun c a ha => mem_mid (hh.mem c a ha)) hh.lists hh.offset hhT hh.not_mem rfl
  have hrd : ∀ x ∈ T₁ ++ h :: T₂, ∀ f, (closeFree p h d).rd x f = (addFreenode p h none).rd x f :=
    fun x hx f => rd_setStatus hT hhT hx
  have hmT : ∀ c, ∀ a ∈ Function.update L (.free (getFreeidx (p.rd h .size)))
      (h :: L (.free (getFreeidx (p.rd h .size)))) c, a ∈ T₁ ++ h :: T₂ := by
    intro c a ha
    rcases mem_update_cons.mp ha with ha | ⟨rfl, _⟩
    · exact mem_mid (hh.mem c a ha)
    · exact hhT
  refine ⟨listLinks_congr hfam (fun c => by cases c <;> rfl)
    (fun c a ha => hrd a (hmT c a ha) .prev) (fun c a ha => hrd a (hmT c a ha) .next),
    fun x hx f hp hn => (hrd x hx f).trans (hed.rd x hx f hp hn), fun x hx => ?_, fun x hx => ?_, ?_⟩
  · have h1 : (closeFree p h d).status x = if x = h then 0 else (addFreenode p h none).status x :=
      status_setStatus (by decide)
    rw [h1, hed.status x hx]
  · have h1 : (closeFree p h d).data x = (addFreenode p h none).data x := data_setStatus hhT hx
    rw [h1, hed.data x hx]
  · unfold closeFree
    rw [hed.same]
    rfl

/-- A hole between busy blocks closes as one free block. -/
theorem hole_closeFree (hh : Hole p T₁ T₂ h d L)
    (ho : Seg (realLinks p) none (T₁ ++ h :: T₂) none) (hb : L .busy ≠ [])
    (h₁ : ∀ a, T₁.getLast? = some a → p.status a ≠ 0)
    (h₂ : ∀ a, T₂.head? = some a → p.status a ≠ 0) :
    HeapInv (closeFree p h d) (T₁ ++ h :: T₂)
      (Function.update L (.free (getFreeidx (p.rd h .size)))
        (h :: L (.free (getFreeidx (p.rd h .size))))) := by
  have hhT : h ∈ T₁ ++ h :: T₂ := by simp
  have hnd := hh.tiles.nodup
  obtain ⟨hfam, hkeep, hst, -, hsame⟩ := closeFree_spec hh
  have hst' : ∀ x ∈ T₁ ++ T₂, (closeFree p h d).status x = p.status x := by
    intro x hx
    rw [hst x (mem_mid hx), if_neg (ne_of_mid hnd hx)]
  have hsz : (closeFree p h d).pool_size = p.pool_size := by rw [hsame]
  have hbusy : Function.update L (.free (getFreeidx (p.rd h .size)))
      (h :: L (.free (getFreeidx (p.rd h .size)))) .busy = L .busy := by simp
  refine
    { size_ok := by rw [hsz]; exact hh.size_ok
      tiles := by
        rw [hsz]
        exact hh.tiles.congr (fun a ha => hkeep a ha .size (by decide) (by decide))
      offset := fun a ha =>
        (hkeep a ha .offset (by decide) (by decide)).trans (hh.offset a ha)
      order := realLinks_congr ho (fun a ha => hkeep a ha .realprev (by decide) (by decide))
        (fun a ha => hkeep a ha .realnext (by decide) (by decide))
      lists := hfam
      status := fun a ha => ?_
      mem_free := fun a => ?_
      mem_busy := fun a => ?_
      classes := fun _ i a ha => ?_
      pristine := fun he => absurd (hbusy ▸ he) hb
      coalesced := ?_
      left := ?_ }
  · rw [hst a ha]
    split
    · exact Or.inl rfl
    · next hah => exact hh.status a (mid_of_ne ha hah)
  · constructor
    · rintro ⟨i, hi⟩
      rcases mem_update_cons.mp hi with hi | ⟨rfl, _⟩
      · obtain ⟨ha, ha0⟩ := (hh.mem_free a).mp ⟨i, hi⟩
        exact ⟨mem_mid ha, by rw [hst' a ha, ha0]⟩
      · exact ⟨hhT, by rw [hst a hhT, if_pos rfl]⟩
    · rintro ⟨ha, ha0⟩
      by_cases hah : a = h
      · exact ⟨_, mem_update_cons.mpr (Or.inr ⟨hah, rfl⟩)⟩
      · have ha' := mid_of_ne ha hah
        obtain ⟨i, hi⟩ := (hh.mem_free a).mpr ⟨ha', by rw [← hst' a ha', ha0]⟩
        exact ⟨i, mem_update_cons.mpr (Or.inl hi)⟩
  · rw [hbusy, hh.mem_busy a]
    constructor
    · rintro ⟨ha, ha1⟩
      exact ⟨mem_mid ha, by rw [hst' a ha, ha1]⟩
    · rintro ⟨ha, ha1⟩
      have hah : a ≠ h := by
        rintro rfl
        rw [hst a hhT, if_pos rfl] at ha1
        exact absurd ha1 (by decide)
      have ha' := mid_of_ne ha hah
      exact ⟨ha', by rw [← hst' a ha', ha1]⟩
  · rcases mem_update_cons.mp ha with ha | ⟨rfl, hc⟩
    · rw [hkeep a (mem_mid (hh.mem _ a ha)) .size (by decide) (by decide)]
      exact hh.classes i a ha
    · rw [hkeep a hhT .size (by decide) (by decide)]
      exact (Cls.free.inj hc).symm
  · have hs₁ : T₁.IsChain (Settled (closeFree p h d)) :=
      settled_congr hh.chain₁ (fun a ha => hst' a (by simp [ha]))
    have hs₂ : T₂.IsChain (Settled (closeFree p h d)) :=
      settled_congr hh.chain₂ (fun a ha => hst' a (by simp [ha]))
    rw [List.isChain_append]
    refine ⟨hs₁, ?_, fun a ha b hb' => ?_⟩
    · rw [List.isChain_cons]
      refine ⟨fun b hb' hc => h₂ b hb' ?_, hs₂⟩
      rw [← hst' b (by simp [List.mem_of_head? hb'])]
      exact hc.2
    · rintro ⟨ha0, -⟩
      rw [hst' a (by simp [List.mem_of_getLast? ha])] at ha0
      exact h₁ a ha ha0
  · have h1 := hh.left
    have h2 := hh.room_lt
    have h3 : freeBytes (closeFree p h d) (T₁ ++ T₂) = freeBytes p (T₁ ++ T₂) :=
      freeBytes_congr (fun a ha => hkeep a (mem_mid ha) .size (by decide) (by decide)) hst'
    rw [freeBytes_append, freeBytes_cons, hst h hhT, if_pos rfl, if_pos rfl,
      hkeep h hhT .size (by decide) (by decide)]
    rw [freeBytes_append] at h3 h1 h2
    have h4 : (closeFree p h d).leftsize = (p.leftsize+d) % 2^24 := by rw [hsame]
    rw [h4, Nat.mod_eq_of_lt (by omega)]
    rw [freeBytes_append] at h3
    omega

/-- Both merges: `r` leaves its free list and the header `a` takes over the
extent `v` and the right neighbour `w`. -/
def absorb (p : Pool) (r a v w : ℕ) : Pool :=
  ((removeFreenode p r none).setRd a .size v).setRd a .realnext w

structure Absorbed (T : List ℕ) (p q : Pool) (a v w : ℕ) : Prop where
  rd : ∀ x ∈ T, ∀ f, f ≠ .prev → f ≠ .next → ¬(x = a ∧ (f = .size ∨ f = .realnext)) →
    q.rd x f = p.rd x f
  size : q.rd a .size = v
  realnext : q.rd a .realnext = w
  status : ∀ x ∈ T, q.status x = p.status x
  data : ∀ x, Outside T x → q.data x = p.data x
  same : q = { p with freelist := q.freelist, busylist := q.busylist, data := q.data }

theorem absorb_spec {i : Fin 5} {r a v w : ℕ} (hT : Grid T) (hL : ∀ c, ∀ x ∈ L c, x ∈ T)
    (hf : Family (listLinks p) (heads p) L) (hr : r ∈ L (.free i))
    (hi : getFreeidx (p.rd r .size) = i) (ha : a ∈ T) (hv : v < 65536) (hw : w < 65536) :
    Family (listLinks (absorb p r a v w)) (heads (absorb p r a v w))
      (Function.update L (.free i) ((L (.free i)).erase r)) ∧
    Absorbed T p (absorb p r a v w) a v w := by
  obtain ⟨hfam, hed⟩ := removeFreenode_spec none hT hL hf hr hi
  have hrd : ∀ x ∈ T, ∀ f, (absorb p r a v w).rd x f =
      if x = a ∧ f = .realnext then w
      else if x = a ∧ f = .size then v else (removeFreenode p r none).rd x f := by
    intro x hx f
    rw [absorb, rd_setRd hT ha hx hw, rd_setRd hT ha hx hv]
  have hsub : ∀ c, ∀ x ∈ Function.update L (.free i) ((L (.free i)).erase r) c, x ∈ T := by
    intro c x hx
    by_cases hc : c = .free i
    · subst hc
      rw [Function.update_self] at hx
      exact hL _ x (List.mem_of_mem_erase hx)
    · rw [Function.update_of_ne hc] at hx
      exact hL c x hx
  constructor
  · refine listLinks_congr hfam (fun c => by cases c <;> rfl) (fun c x hx => ?_) (fun c x hx => ?_)
    · simp [hrd x (hsub c x hx)]
    · simp [hrd x (hsub c x hx)]
  · refine ⟨fun x hx f hp hn hxa => ?_, ?_, ?_, fun x hx => ?_, fun x hx => ?_, ?_⟩
    · rw [hrd x hx, if_neg (fun h => hxa ⟨h.1, Or.inr h.2⟩),
        if_neg (fun h => hxa ⟨h.1, Or.inl h.2⟩), hed.rd x hx f hp hn]
    · simp [hrd a ha]
    · simp [hrd a ha]
    · rw [absorb, status_setRd hT ha hx, status_setRd hT ha hx, hed.status x hx]
    · rw [absorb, data_setRd ha hx, data_setRd ha hx, hed.data x hx]
    · unfold absorb
      rw [hed.same]
      rfl

/-- What the blocks of `U`, all of them but the hole and `r`, are listed as when `r` has
left its free list. -/
theorem absorbed_lists {q : Pool} {i : Fin 5} {r a v w : ℕ} {U : List ℕ} (hh : Hole p T₁ T₂ h d L)
    (hi : r ∈ L (.free i)) (ha : Absorbed (T₁ ++ h :: T₂) p q a v w)
    (hU : ∀ x, x ∈ U ↔ x ∈ T₁ ++ T₂ ∧ x ≠ r)
    (hsize : ∀ x ∈ U, q.rd x .size = p.rd x .size) :
    (∀ x ∈ U, q.status x = 0 ∨ q.status x = 1) ∧
    (∀ x, (∃ j, x ∈ Function.update L (.free i) ((L (.free i)).erase r) (.free j)) ↔
      x ∈ U ∧ q.status x = 0) ∧
    (∀ x, x ∈ Function.update L (.free i) ((L (.free i)).erase r) .busy ↔
      x ∈ U ∧ q.status x = 1) ∧
    ∀ j, ∀ x ∈ Function.update L (.free i) ((L (.free i)).erase r) (.free j),
      getFreeidx (q.rd x .size) = j := by
  have hr : p.status r = 0 := ((hh.mem_free r).mp ⟨i, hi⟩).2
  have hst : ∀ x ∈ T₁ ++ T₂, q.status x = p.status x := fun x hx => ha.status x (mem_mid hx)
  refine ⟨fun x hx => ?_, fun x => ?_, fun x => ?_, fun j x hx => ?_⟩
  · have hx' := ((hU x).mp hx).1
    rw [hst x hx']
    exact hh.status x hx'
  · simp only [hh.lists.mem_erase hi, exists_and_right, hh.mem_free x, hU]
    constructor
    · rintro ⟨⟨h1, h2⟩, h3⟩
      exact ⟨⟨h1, h3⟩, by rw [hst x h1, h2]⟩
    · rintro ⟨⟨h1, h3⟩, h2⟩
      exact ⟨⟨h1, by rw [← hst x h1, h2]⟩, h3⟩
  · rw [Function.update_of_ne (by simp), hh.mem_busy x, hU]
    constructor
    · rintro ⟨h1, h2⟩
      refine ⟨⟨h1, ?_⟩, by rw [hst x h1, h2]⟩
      rintro rfl
      exact absurd (hr.symm.trans h2) (by decide)
    · rintro ⟨⟨h1, -⟩, h2⟩
      exact ⟨h1, by rw [← hst x h1, h2]⟩
  · obtain ⟨h1, h2⟩ := (hh.lists.mem_erase hi _ _).mp hx
    rw [hsize x ((hU x).mpr ⟨hh.mem _ x h1, h2⟩)]
    exact hh.classes j x h1

theorem hole_absorbNext {n : ℕ} {T₃ : List ℕ} (hh : Hole p T₁ (n :: T₃) h d L)
    (hn : p.status n = 0) :
    ∃ L', Hole (absorb p n h (p.rd h .size+p.rd n .size) (p.rd n .realnext)) T₁ T₃ h d L' ∧
      L' .busy = L .busy ∧
      Absorbed (T₁ ++ h :: n :: T₃) p
        (absorb p n h (p.rd h .size+p.rd n .size) (p.rd n .realnext)) h
        (p.rd h .size+p.rd n .size) (p.rd n .realnext) := by
  obtain ⟨i, hi⟩ := (hh.mem_free n).mpr ⟨by simp, hn⟩
  have hT := hh.tiles.grid
  have hhT : h ∈ T₁ ++ h :: n :: T₃ := by simp
  have hroom := hh.room_lt
  rw [freeBytes_append, freeBytes_cons, if_pos hn] at hroom
  obtain ⟨hfam, ha⟩ := absorb_spec (a := h) (v := p.rd h .size+p.rd n .size)
    (w := p.rd n .realnext) hT (fun c a ha => mem_mid (hh.mem c a ha)) hh.lists hi
    (hh.classes i n hi) hhT (by omega) rd_lt
  generalize absorb p n h (p.rd h .size+p.rd n .size) (p.rd n .realnext) = q at *
  have hnd := hh.tiles.nodup
  have hkeep : ∀ x ∈ T₁ ++ n :: T₃, ∀ f, f ≠ .prev → f ≠ .next → q.rd x f = p.rd x f :=
    fun x hx f h1 h2 => ha.rd x (mem_mid hx) f h1 h2 (fun hc => ne_of_mid hnd hx hc.1)
  have hsz : q.pool_size = p.pool_size := by rw [ha.same]
  have hnext : ref (p.rd n .realnext) = T₃.head? := by
    obtain ⟨x, hx⟩ := hh.after
    simpa [realLinks] using hx.2.1
  have hnd₁ : (T₁ ++ [h]).Nodup := by
    refine List.Nodup.sublist ?_ hnd
    exact List.Sublist.append_left (by simp) T₁
  have hnd₃ : (T₁ ++ n :: T₃).Nodup := by
    refine List.Nodup.sublist ?_ hnd
    exact List.Sublist.append_left (by simp) T₁
  have hU : ∀ x, x ∈ T₁ ++ T₃ ↔ x ∈ T₁ ++ n :: T₃ ∧ x ≠ n := fun x =>
    ⟨fun hx => ⟨mem_mid hx, ne_of_mid hnd₃ hx⟩, fun hx => mid_of_ne hx.1 hx.2⟩
  have hst : ∀ x ∈ T₁ ++ T₃, q.status x = p.status x :=
    fun x hx => ha.status x (mem_mid (mem_mid hx))
  have hsize : ∀ x ∈ T₁ ++ T₃, q.rd x .size = p.rd x .size :=
    fun x hx => hkeep x (mem_mid hx) .size (by decide) (by decide)
  obtain ⟨hs, hfree, hbusy, hcls⟩ := absorbed_lists hh hi ha hU hsize
  refine ⟨_, ⟨?_, ?_, ?_, ?_, ?_, hfam, hs, hfree, hbusy, hcls, ?_, ?_, ?_⟩, by simp, ha⟩
  · rw [hsz]
    exact hh.size_ok
  · rw [hsz]
    obtain ⟨m, h1, rfl, h3, rfl, h5, h6⟩ := (tiles_append _ _ _ _).mp hh.tiles
    refine (tiles_append _ _ _ _).mpr ⟨_, h1.congr (fun a ha' => hsize a (by simp [ha'])), rfl,
      ?_, ?_⟩
    · rw [ha.size]
      omega
    · rw [ha.size, ← Nat.add_assoc]
      exact h6.congr (fun a ha' => hsize a (by simp [ha']))
  · intro a ha'
    rw [ha.rd a (by simp at ha' ⊢; tauto) .offset (by decide) (by decide) (by simp)]
    exact hh.offset a (by simp at ha' ⊢; tauto)
  · refine hh.before.relinkLast hnd₁ (fun x hx => ?_) (fun x hx => ?_)
    · have hx' : x ∈ T₁ ++ h :: n :: T₃ := by simp at hx ⊢; tauto
      simp [realLinks, ha.rd x hx' .realprev (by decide) (by decide) (by simp)]
    · by_cases hxh : x = h
      · subst hxh
        simp [realLinks, ha.realnext, hnext]
      · have hx' : x ∈ T₁ := by simpa [hxh] using hx
        simp [realLinks, hkeep x (by simp [hx']) .realnext (by decide) (by decide), Ne.symm hxh]
  · obtain ⟨x, hx⟩ := hh.after
    exact ⟨some n, realLinks_congr hx.2.2
      (fun a ha' => hkeep a (by simp [ha']) .realprev (by decide) (by decide))
      (fun a ha' => hkeep a (by simp [ha']) .realnext (by decide) (by decide))⟩
  · exact settled_congr hh.chain₁ (fun a ha' => hst a (by simp [ha']))
  · exact settled_congr (List.isChain_cons.mp hh.chain₂).2 (fun a ha' => hst a (by simp [ha']))
  · have h1 := hh.left
    rw [freeBytes_append, freeBytes_cons, if_pos hn] at h1
    rw [freeBytes_congr hsize hst, ha.size, freeBytes_append,
      show q.leftsize = p.leftsize by rw [ha.same]]
    omega

theorem hole_absorbPrev {r : ℕ} {T₀ : List ℕ} (hh : Hole p (T₀ ++ [r]) T₂ h d L)
    (hr : p.status r = 0) :
    ∃ L', Hole (absorb p r r (p.rd r .size+p.rd h .size) (p.rd h .realnext)) T₀ T₂ r d L' ∧
      L' .busy = L .busy ∧
      Absorbed (T₀ ++ [r] ++ h :: T₂) p
        (absorb p r r (p.rd r .size+p.rd h .size) (p.rd h .realnext)) r
        (p.rd r .size+p.rd h .size) (p.rd h .realnext) := by
  obtain ⟨i, hi⟩ := (hh.mem_free r).mpr ⟨by simp, hr⟩
  have hT := hh.tiles.grid
  have hrT : r ∈ T₀ ++ [r] ++ h :: T₂ := by simp
  have hroom := hh.room_lt
  rw [freeBytes_append, freeBytes_append, freeBytes_cons, if_pos hr] at hroom
  obtain ⟨hfam, ha⟩ := absorb_spec (a := r) (v := p.rd r .size+p.rd h .size)
    (w := p.rd h .realnext) hT (fun c a ha => mem_mid (hh.mem c a ha)) hh.lists hi
    (hh.classes i r hi) hrT (by omega) rd_lt
  generalize absorb p r r (p.rd r .size+p.rd h .size) (p.rd h .realnext) = q at *
  have hnd := hh.tiles.nodup
  have hnd₀ : (T₀ ++ r :: T₂).Nodup := by
    refine List.Nodup.sublist ?_ hnd
    rw [List.append_assoc]
    exact List.Sublist.append_left (by simp) T₀
  have hU : ∀ x, x ∈ T₀ ++ T₂ ↔ x ∈ T₀ ++ [r] ++ T₂ ∧ x ≠ r := fun x => by
    rw [List.append_assoc, List.singleton_append]
    exact ⟨fun hx => ⟨mem_mid hx, ne_of_mid hnd₀ hx⟩, fun hx => mid_of_ne hx.1 hx.2⟩
  have hsub : ∀ x ∈ T₀ ++ T₂, x ∈ T₀ ++ [r] ++ h :: T₂ := fun x hx => mem_mid ((hU x).mp hx).1
  have hkeep : ∀ x ∈ T₀ ++ T₂, ∀ f, f ≠ .prev → f ≠ .next → q.rd x f = p.rd x f :=
    fun x hx f h1 h2 => ha.rd x (hsub x hx) f h1 h2 (fun hc => ((hU x).mp hx).2 hc.1)
  have hsz : q.pool_size = p.pool_size := by rw [ha.same]
  have hnext : ref (p.rd h .realnext) = T₂.head? := by
    simpa [realLinks] using hh.before.neighbours.2
  have hnd₁ : (T₀ ++ [r]).Nodup := (List.nodup_append.mp hnd).1
  have hst : ∀ x ∈ T₀ ++ T₂, q.status x = p.status x := fun x hx => ha.status x (hsub x hx)
  have hsize : ∀ x ∈ T₀ ++ T₂, q.rd x .size = p.rd x .size :=
    fun x hx => hkeep x hx .size (by decide) (by decide)
  obtain ⟨hs, hfree, hbusy, hcls⟩ := absorbed_lists hh hi ha hU hsize
  refine ⟨_, ⟨?_, ?_, ?_, ?_, ?_, hfam, hs, hfree, hbusy, hcls, ?_, ?_, ?_⟩, by simp, ha⟩
  · rw [hsz]
    exact hh.size_ok
  · rw [hsz]
    have ht := hh.tiles
    rw [List.append_assoc] at ht
    obtain ⟨m, h1, rfl, h3, rfl, h5, h6⟩ := (tiles_append _ _ _ _).mp ht
    refine (tiles_append _ _ _ _).mpr ⟨_, h1.congr (fun a ha' => hsize a (by simp [ha'])), rfl,
      ?_, ?_⟩
    · rw [ha.size]
      omega
    · rw [ha.size, ← Nat.add_assoc]
      exact h6.congr (fun a ha' => hsize a (by simp [ha']))
  · intro a ha'
    rw [ha.rd a (by simp at ha' ⊢; tauto) .offset (by decide) (by decide) (by simp)]
    exact hh.offset a (by simp at ha' ⊢; tauto)
  · have hb := ((seg_append _ _ _ _).mp hh.before).1
    refine hb.relinkLast hnd₁ (fun x hx => ?_) (fun x hx => ?_)
    · have hx' : x ∈ T₀ ++ [r] ++ h :: T₂ := by simp at hx ⊢; tauto
      simp [realLinks, ha.rd x hx' .realprev (by decide) (by decide) (by simp)]
    · by_cases hxr : x = r
      · subst hxr
        simp [realLinks, ha.realnext, hnext]
      · have hx' : x ∈ T₀ := by simpa [hxr] using hx
        simp [realLinks, hkeep x (by simp [hx']) .realnext (by decide) (by decide), Ne.symm hxr]
  · obtain ⟨x, hx⟩ := hh.after
    exact ⟨x, realLinks_congr hx
      (fun a ha' => hkeep a (by simp [ha']) .realprev (by decide) (by decide))
      (fun a ha' => hkeep a (by simp [ha']) .realnext (by decide) (by decide))⟩
  · exact settled_congr (List.isChain_append.mp hh.chain₁).1 (fun a ha' => hst a (by simp [ha']))
  · exact settled_congr hh.chain₂ (fun a ha' => hst a (by simp [ha']))
  · have h1 := hh.left
    rw [freeBytes_append, freeBytes_append, freeBytes_cons, if_pos hr] at h1
    have h3 : freeBytes p [] = 0 := rfl
    rw [freeBytes_congr hsize hst, ha.size, freeBytes_append,
      show q.leftsize = p.leftsize by rw [ha.same]]
    omega

def mend (p : Pool) (h : ℕ) : Pool :=
  p.setRd? (ref (p.rd h .realnext)) .realprev (p.rd h .offset)

theorem hole_mend (hh : Hole p T₁ T₂ h d L) :
    Hole (mend p h) T₁ T₂ h d L ∧ Seg (realLinks (mend p h)) none (T₁ ++ h :: T₂) none ∧
      (∀ x ∈ T₁ ++ h :: T₂, ∀ f, f ≠ .realprev → (mend p h).rd x f = p.rd x f) ∧
      (∀ x ∈ T₁ ++ h :: T₂, (mend p h).status x = p.status x) ∧
      (∀ x, Outside (T₁ ++ h :: T₂) x → (mend p h).data x = p.data x) ∧
      mend p h = { p with data := (mend p h).data } := by
  have hT := hh.tiles.grid
  have hhT : h ∈ T₁ ++ h :: T₂ := by simp
  have hhN := hh.tiles.lt_null hh.size_ok h hhT
  have hnext : ref (p.rd h .realnext) = T₂.head? := by
    simpa [realLinks] using hh.before.neighbours.2
  have he : mend p h = p.setRd? T₂.head? .realprev h := by
    rw [mend, hnext, hh.offset h hhT]
  have hnT : ∀ a, T₂.head? = some a → a ∈ T₁ ++ h :: T₂ := fun a ha => by
    simp [List.mem_of_head? ha]
  have hrd : ∀ x ∈ T₁ ++ h :: T₂, ∀ f, (mend p h).rd x f =
      if T₂.head? = some x ∧ f = .realprev then h else p.rd x f := fun x hx f => by
    rw [he, rd_setRd? hT hnT hx (lt_of_lt_null hhN)]
  have hkeep : ∀ x ∈ T₁ ++ h :: T₂, ∀ f, f ≠ .realprev → (mend p h).rd x f = p.rd x f :=
    fun x hx f hf => by rw [hrd x hx, if_neg (fun hc => hf hc.2)]
  have hst : ∀ x ∈ T₁ ++ h :: T₂, (mend p h).status x = p.status x := fun x hx => by
    rw [he, status_setRd? hT hnT hx]
  have hsame : mend p h = { p with data := (mend p h).data } := by
    rw [he]
    cases T₂ <;> rfl
  have hsz : (mend p h).pool_size = p.pool_size := by rw [hsame]
  have hnd := hh.tiles.nodup
  have hleft : ∀ x ∈ T₁ ++ [h], T₂.head? ≠ some x := by
    intro x hx hc
    rw [← List.singleton_append, ← List.append_assoc, List.nodup_append] at hnd
    exact hnd.2.2 x hx x (List.mem_of_head? hc) rfl
  have hbefore : Seg (realLinks (mend p h)) none (T₁ ++ [h]) T₂.head? :=
    realLinks_congr hh.before
      (fun a ha => by
        rw [hrd a (by simp at ha ⊢; tauto), if_neg (fun hc => hleft a ha hc.1)])
      (fun a ha => hkeep a (by simp at ha ⊢; tauto) .realnext (by decide))
  have hafter : Seg (realLinks (mend p h)) (some h) T₂ none := by
    obtain ⟨x, hx⟩ := hh.after
    refine hx.relinkFirst ((List.nodup_cons.mp (List.nodup_append.mp hnd).2.1).2)
      (fun a ha => ?_) (fun a ha => ?_)
    · have haT : a ∈ T₁ ++ h :: T₂ := by simp [ha]
      simp only [realLinks, hrd a haT, and_true]
      split
      · exact ref_of_lt hhN
      · rfl
    · simp [realLinks, hkeep a (by simp [ha]) .realnext (by decide)]
  refine ⟨⟨?_, ?_, ?_, hbefore, ⟨_, hafter⟩, ?_, ?_, ?_, ?_, ?_, ?_, ?_, ?_⟩, ?_, hkeep, hst,
    fun x hx => by rw [he, data_setRd? hnT hx], hsame⟩
  · rw [hsz]
    exact hh.size_ok
  · rw [hsz]
    exact hh.tiles.congr (fun a ha => hkeep a ha .size (by decide))
  · exact fun a ha => (hkeep a ha .offset (by decide)).trans (hh.offset a ha)
  · refine listLinks_congr hh.lists (fun c => by rw [hsame]; cases c <;> rfl)
      (fun c a ha => hkeep a (mem_mid (hh.mem c a ha)) .prev (by decide))
      (fun c a ha => hkeep a (mem_mid (hh.mem c a ha)) .next (by decide))
  · intro a ha
    rw [hst a (mem_mid ha)]
    exact hh.status a ha
  · intro a
    rw [hh.mem_free a]
    exact and_congr_right (fun ha => by rw [hst a (mem_mid ha)])
  · intro a
    rw [hh.mem_busy a]
    exact and_congr_right (fun ha => by rw [hst a (mem_mid ha)])
  · intro i a ha
    rw [hkeep a (mem_mid (hh.mem _ a ha)) .size (by decide)]
    exact hh.classes i a ha
  · exact settled_congr hh.chain₁ (fun a ha => hst a (by simp [ha]))
  · exact settled_congr hh.chain₂ (fun a ha => hst a (by simp [ha]))
  · rw [hkeep h hhT .size (by decide), freeBytes_congr
      (fun a ha => hkeep a (mem_mid ha) .size (by decide)) (fun a ha => hst a (mem_mid ha)),
      show (mend p h).leftsize = p.leftsize by rw [hsame]]
    exact hh.left
  · rw [← List.singleton_append, ← List.append_assoc, seg_append]
    exact ⟨by simpa using hbefore, by simpa using hafter⟩

theorem Absorbed.frame {B : List ℕ} {q : Pool} {a v w : ℕ} (h : Absorbed T p q a v w)
    (hB : ∀ x ∈ B, x ∈ T ∧ x ≠ a) : Frame T B p q where
  size x hx := h.rd x (hB x hx).1 .size (by decide) (by decide) (fun hc => (hB x hx).2 hc.1)
  used x hx := h.rd x (hB x hx).1 .used (by decide) (by decide) (fun hc => (hB x hx).2 hc.1)
  status x hx := h.status x (hB x hx).1
  data := h.data
  same := by rw [h.same]

theorem hole_frame {B : List ℕ} (hh : Hole p T₁ T₂ h d L) (hB : ∀ x ∈ B, x ∈ L .busy) :
    ∀ x ∈ B, x ∈ T₁ ++ h :: T₂ ∧ x ≠ h := by
  refine fun x hx => ⟨mem_mid (hh.mem _ x (hB x hx)), ?_⟩
  rintro rfl
  exact hh.not_mem _ (hB x hx)

theorem closeFree_frame (hh : Hole p T₁ T₂ h d L) :
    Frame (T₁ ++ h :: T₂) (L .busy) p (closeFree p h d) := by
  have hB := hole_frame hh (fun x hx => hx)
  obtain ⟨-, hkeep, hst, hdata, hsame⟩ := closeFree_spec hh
  refine ⟨fun x hx => hkeep x (hB x hx).1 .size (by decide) (by decide),
    fun x hx => hkeep x (hB x hx).1 .used (by decide) (by decide), fun x hx => ?_, hdata, ?_⟩
  · rw [hst x (hB x hx).1, if_neg (hB x hx).2]
  · rw [hsame]

theorem closeFree_leftsize (hh : Hole p T₁ T₂ h d L) :
    (closeFree p h d).leftsize = p.leftsize+d := by
  have h1 := hh.left
  have h2 := hh.room_lt
  obtain ⟨-, -, -, -, hsame⟩ := closeFree_spec hh
  have h3 : (closeFree p h d).leftsize = (p.leftsize+d) % 2^24 := by rw [hsame]
  rw [h3, Nat.mod_eq_of_lt (by omega)]

theorem freeRealdata_eq (p : Pool) (h : ℕ) :
    freeRealdata p h =
      closeFree (mend (joinNext (joinPrev p h).1 (joinPrev p h).2 (ref (p.rd h .realnext)))
        (joinPrev p h).2) (joinPrev p h).2 (p.rd h .size) := rfl

theorem setRd?_leftsize (p : Pool) (o : Option ℕ) (f : Field) (v : ℕ) :
    (p.setRd? o f v).leftsize = p.leftsize := by
  cases o <;> rfl

theorem removeFreenode_leftsize (p : Pool) (o : ℕ) (idx : Option (Fin 5)) :
    (removeFreenode p o idx).leftsize = p.leftsize := by
  unfold removeFreenode
  dsimp only
  split <;> exact setRd?_leftsize _ _ _ _

theorem joinPrev_leftsize (p : Pool) (h : ℕ) : (joinPrev p h).1.leftsize = p.leftsize := by
  unfold joinPrev
  split
  · split
    · exact removeFreenode_leftsize _ _ _
    · rfl
  · rfl

theorem joinNext_leftsize (p : Pool) (h : ℕ) (n : Option ℕ) :
    (joinNext p h n).leftsize = p.leftsize := by
  unfold joinNext
  split
  · split
    · exact removeFreenode_leftsize _ _ _
    · rfl
  · rfl

theorem joinPrev_spec (hh : Hole p T₁ T₂ h d L) :
    ∃ T₁' h' L', Hole (joinPrev p h).1 T₁' T₂ h' d L' ∧ (joinPrev p h).2 = h' ∧
      L' .busy = L .busy ∧ Frame (T₁ ++ h :: T₂) (L .busy) p (joinPrev p h).1 ∧
      (∀ a ∈ T₁' ++ h' :: T₂, a ∈ T₁ ++ h :: T₂) ∧
      (∀ a, T₁'.getLast? = some a → (joinPrev p h).1.status a ≠ 0) ∧
      (∀ a ∈ T₂, (joinPrev p h).1.status a = p.status a) ∧
      ((∀ a, T₁.getLast? = some a → p.status a ≠ 0) → h' = h) := by
  have hprev : ref (p.rd h .realprev) = T₁.getLast? := by
    simpa [realLinks] using hh.before.neighbours.1
  have hstay : (∀ a, T₁.getLast? = some a → p.status a ≠ 0) → joinPrev p h = (p, h) := by
    intro hs
    unfold joinPrev
    rw [hprev]
    cases hl : T₁.getLast? with
    | none => rfl
    | some r => simp [hs r hl]
  by_cases hs : ∀ a, T₁.getLast? = some a → p.status a ≠ 0
  · rw [hstay hs]
    exact ⟨T₁, h, L, hh, rfl, rfl, ⟨fun _ _ => rfl, fun _ _ => rfl, fun _ _ => rfl,
      fun _ _ => rfl, rfl⟩, fun _ ha => ha, hs, fun _ _ => rfl, fun _ => rfl⟩
  · push Not at hs
    obtain ⟨r, hl, hr⟩ := hs
    obtain ⟨T₀, rfl⟩ := List.getLast?_eq_some_iff.mp hl
    obtain ⟨L', hole, hbusy, ha⟩ := hole_absorbPrev hh hr
    have hT := hh.tiles.grid
    have hrT : r ∈ T₀ ++ [r] ++ h :: T₂ := by simp
    have hhT : h ∈ T₀ ++ [r] ++ h :: T₂ := by simp
    obtain ⟨i, hi⟩ := (hh.mem_free r).mpr ⟨by simp, hr⟩
    obtain ⟨-, hed⟩ := removeFreenode_spec none hT
      (fun c a ha => mem_mid (hh.mem c a ha)) hh.lists hi (hh.classes i r hi)
    have hroom := hh.room_lt
    rw [freeBytes_append, freeBytes_append, freeBytes_cons, if_pos hr] at hroom
    have hnd := hh.tiles.nodup
    have hhr : h ≠ r := fun hc => (List.nodup_append.mp hnd).2.2 r (by simp) h (by simp) hc.symm
    have he : joinPrev p h =
        (absorb p r r (p.rd r .size+p.rd h .size) (p.rd h .realnext), r) := by
      simp only [joinPrev, hprev, hl, hr, if_true, absorb,
        hed.rd r hrT .size (by decide) (by decide), hed.rd h hhT .size (by decide) (by decide),
        rd_setRd hT hrT hhT (show p.rd r .size+p.rd h .size < 65536 by omega), hhr, false_and,
        if_false, hed.rd h hhT .realnext (by decide) (by decide)]
    rw [he]
    refine ⟨T₀, r, L', hole, rfl, hbusy, ha.frame (fun x hx => ?_), fun a ha' => ?_,
      fun a ha' => ?_, fun a ha' => ha.status a (by simp [ha']), fun hc => absurd hr (hc r hl)⟩
    · refine ⟨(hole_frame hh (fun x hx => hx) x hx).1, ?_⟩
      rintro rfl
      exact absurd (hr.symm.trans ((hh.mem_busy x).mp hx).2) (by decide)
    · simp at ha' ⊢
      tauto
    · rw [ha.status a (by simp [List.mem_of_getLast? ha'])]
      obtain ⟨T₀', rfl⟩ := List.getLast?_eq_some_iff.mp ha'
      have hc := hh.chain₁
      rw [List.append_assoc, List.isChain_append] at hc
      have := List.isChain_cons.mp hc.2.1
      exact fun h0 => this.1 r (by simp) ⟨h0, hr⟩

theorem joinNext_spec (hh : Hole p T₁ T₂ h d L) :
    ∃ T₂' L', Hole (joinNext p h T₂.head?) T₁ T₂' h d L' ∧
      L' .busy = L .busy ∧ Frame (T₁ ++ h :: T₂) (L .busy) p (joinNext p h T₂.head?) ∧
      (∀ a ∈ T₁ ++ h :: T₂', a ∈ T₁ ++ h :: T₂) ∧
      (∀ a, T₂'.head? = some a → (joinNext p h T₂.head?).status a ≠ 0) ∧
      (∀ a ∈ T₁, (joinNext p h T₂.head?).status a = p.status a) := by
  cases T₂ with
  | nil =>
    exact ⟨[], L, hh, rfl, ⟨fun _ _ => rfl, fun _ _ => rfl, fun _ _ => rfl, fun _ _ => rfl, rfl⟩,
      fun _ ha => ha, by simp, fun _ _ => rfl⟩
  | cons n T₃ =>
    by_cases hn : p.status n = 0
    · obtain ⟨L', hole, hbusy, ha⟩ := hole_absorbNext hh hn
      have hT := hh.tiles.grid
      have hnT : n ∈ T₁ ++ h :: n :: T₃ := by simp
      have hhT : h ∈ T₁ ++ h :: n :: T₃ := by simp
      obtain ⟨i, hi⟩ := (hh.mem_free n).mpr ⟨by simp, hn⟩
      obtain ⟨-, hed⟩ := removeFreenode_spec none hT
        (fun c a ha => mem_mid (hh.mem c a ha)) hh.lists hi (hh.classes i n hi)
      have hroom := hh.room_lt
      rw [freeBytes_append, freeBytes_cons, if_pos hn] at hroom
      have hnd := hh.tiles.nodup
      have hnh : n ≠ h := by
        rintro rfl
        simp [List.nodup_append] at hnd
      have he : joinNext p h (n :: T₃).head? =
          absorb p n h (p.rd h .size+p.rd n .size) (p.rd n .realnext) := by
        simp only [joinNext, List.head?_cons, hn, if_true, absorb,
          hed.rd h hhT .size (by decide) (by decide), hed.rd n hnT .size (by decide) (by decide),
          rd_setRd hT hhT hnT (show p.rd h .size+p.rd n .size < 65536 by omega), hnh, false_and,
          if_false, hed.rd n hnT .realnext (by decide) (by decide)]
      rw [he]
      refine ⟨T₃, L', hole, hbusy, ha.frame (fun x hx => hole_frame hh (fun x hx => hx) x hx),
        fun a ha' => ?_, fun a ha' => ?_, fun a ha' => ha.status a (by simp [ha'])⟩
      · simp at ha' ⊢
        tauto
      · rw [ha.status a (by simp [List.mem_of_head? ha'])]
        have := (List.isChain_cons.mp hh.chain₂).1 a ha'
        exact fun h0 => this ⟨hn, h0⟩
    · have he : joinNext p h (n :: T₃).head? = p := by simp [joinNext, hn]
      rw [he]
      exact ⟨n :: T₃, L, hh, rfl, ⟨fun _ _ => rfl, fun _ _ => rfl, fun _ _ => rfl, fun _ _ => rfl,
        rfl⟩, fun _ ha => ha, fun a ha => by simpa [← Option.some.inj ha] using hn, fun _ _ => rfl⟩

theorem freeRealdata_spec (hh : Hole p T₁ T₂ h (p.rd h .size) L) (hb : L .busy ≠ []) :
    ∃ T' L', HeapInv (freeRealdata p h) T' L' ∧ L' .busy = L .busy ∧
      Frame (T₁ ++ h :: T₂) (L .busy) p (freeRealdata p h) ∧
      (∀ a ∈ T', a ∈ T₁ ++ h :: T₂) ∧
      (freeRealdata p h).leftsize = p.leftsize+p.rd h .size ∧
      ((∀ a, T₁.getLast? = some a → p.status a ≠ 0) →
        h ∈ T' ∧ (freeRealdata p h).status h = 0) := by
  have hnext : ref (p.rd h .realnext) = T₂.head? := by
    simpa [realLinks] using hh.before.neighbours.2
  obtain ⟨T₁', h', L₁, hole₁, rfl, hb₁, hfr₁, hsub₁, hlast₁, hst₁, hh₁⟩ := joinPrev_spec hh
  have hl₁ := joinPrev_leftsize p h
  rw [freeRealdata_eq, hnext]
  generalize hq : joinPrev p h = r at *
  obtain ⟨q, f⟩ := r
  simp only at *
  obtain ⟨T₂', L₂, hole₂, hb₂, hfr₂, hsub₂, hhead₂, hst₂⟩ := joinNext_spec hole₁
  have hl₂ := joinNext_leftsize q f T₂.head?
  generalize joinNext q f T₂.head? = q₂ at *
  obtain ⟨hole₃, hseg, hrd₃, hst₃, hdata₃, hsame₃⟩ := hole_mend hole₂
  have hfr₃ : Frame (T₁' ++ f :: T₂') (L₂ .busy) q₂ (mend q₂ f) := by
    have hB := hole_frame hole₂ (fun x hx => hx)
    exact ⟨fun x hx => hrd₃ x (hB x hx).1 .size (by decide),
      fun x hx => hrd₃ x (hB x hx).1 .used (by decide), fun x hx => hst₃ x (hB x hx).1,
      hdata₃, by rw [hsame₃]⟩
  have hfr₄ := closeFree_frame hole₃
  have hlast : ∀ a, T₁'.getLast? = some a → (mend q₂ f).status a ≠ 0 := fun a ha => by
    rw [hst₃ a (by simp [List.mem_of_getLast? ha]), hst₂ a (by simp [List.mem_of_getLast? ha])]
    exact hlast₁ a ha
  have hhead : ∀ a, T₂'.head? = some a → (mend q₂ f).status a ≠ 0 := fun a ha => by
    rw [hst₃ a (by simp [List.mem_of_head? ha])]
    exact hhead₂ a ha
  have hinv := hole_closeFree hole₃ hseg (by rw [hb₂, hb₁]; exact hb) hlast hhead
  refine ⟨_, _, hinv, by simp [hb₂, hb₁], ?_, fun a ha => hsub₁ a (hsub₂ a ha), ?_, ?_⟩
  · rw [hb₂, hb₁] at hfr₃ hfr₄
    rw [hb₁] at hfr₂
    exact hfr₁.trans (hfr₂.trans (hfr₃.trans hfr₄ (fun _ h => h)) hsub₂) hsub₁
  · rw [closeFree_leftsize hole₃, ← hl₁, ← hl₂, hsame₃]
  · intro hs
    have := hh₁ hs
    subst this
    have hfT : f ∈ T₁' ++ f :: T₂' := by simp
    exact ⟨hfT, ((hinv.mem_free f).mp ⟨getFreeidx ((mend q₂ f).rd f .size), by simp⟩).2⟩

theorem mem_erase_busy (hf : Family (listLinks p) (heads p) L) (c : Cls) (x : ℕ) :
    x ∈ Function.update L .busy ((L .busy).erase h) c ↔ x ∈ L c ∧ ¬(c = .busy ∧ x = h) := by
  by_cases hc : c = .busy
  · subst hc
    rw [Function.update_self, (hf.nodup _).mem_erase_iff]
    tauto
  · simp [hc]

theorem unlinkBusy_prev {q : ℕ} (hq : ref (p.rd h .prev) = some q) :
    unlinkBusy p h = let p' := p.setRd q .next (p.rd h .next)
      (((p'.setRd? (ref (p'.rd h .next)) .prev (p'.rd h .prev)).setRd h .next NULL).setRd
        h .prev NULL) := by
  simp [unlinkBusy, hq]

theorem unlinkBusy_first (hq : ref (p.rd h .prev) = none) :
    unlinkBusy p h =
      let p' := ({ p with busylist := ref (p.rd h .next) } : Pool).setRd? (ref (p.rd h .next))
        Field.prev NULL
      (((p'.setRd? (ref (p'.rd h .next)) .prev (p'.rd h .prev)).setRd h .next NULL).setRd
        h .prev NULL) := by
  simp [unlinkBusy, hq]

theorem unlinkBusy_lists (hT : Grid T) (hL : ∀ c, ∀ a ∈ L c, a ∈ T)
    (hf : Family (listLinks p) (heads p) L) (hh : h ∈ L .busy) :
    Family (listLinks (unlinkBusy p h)) (heads (unlinkBusy p h))
      (Function.update L .busy ((L .busy).erase h)) ∧
    ListEdit T p (unlinkBusy p h) ∧ (unlinkBusy p h).rd h .prev = NULL ∧
    (unlinkBusy p h).rd h .next = NULL := by
  have hhT := hL _ h hh
  have hn : ∀ a, ref (p.rd h .next) = some a → a ∈ T := fun a => next_mem hf hL hh
  have hnh : ref (p.rd h .next) ≠ some h := hf.next_ne hh
  cases hq : ref (p.rd h .prev) with
  | none =>
    have hhead : p.busylist = some h := (hf.prev_eq_none_iff hh).mp hq
    have hnull : p.rd h .prev = NULL := ref_eq_none.mp hq
    set p' := ({ p with busylist := ref (p.rd h .next) } : Pool).setRd? (ref (p.rd h .next))
      Field.prev NULL with hp'
    have hrd' : ∀ x ∈ T, ∀ f, p'.rd x f =
        if ref (p.rd h .next) = some x ∧ f = .prev then NULL else p.rd x f :=
      fun x hx f => rd_setRd? hT hn hx null_lt
    have he : unlinkBusy p h = ((p'.setRd? (ref (p.rd h .next)) .prev NULL).setRd h .next
        NULL).setRd h .prev NULL := by
      rw [unlinkBusy_first hq]
      simp [← hp', hrd' h hhT, hnh, hnull]
    have hrd : ∀ x ∈ T, ∀ f, (unlinkBusy p h).rd x f =
        if x = h ∧ (f = .prev ∨ f = .next) then NULL
        else if ref (p.rd h .next) = some x ∧ f = .prev then NULL else p.rd x f := by
      intro x hx f
      rw [he, rd_setRd hT hhT hx null_lt, rd_setRd hT hhT hx null_lt,
        rd_setRd? hT hn hx null_lt, hrd' x hx]
      split_ifs <;> first | rfl | simp_all
    refine ⟨?_, ⟨fun x hx f h1 h2 => ?_, fun x hx => ?_, fun x hx => ?_, ?_⟩, ?_, ?_⟩
    · refine hf.unlink hh (fun j x hx hxh => ?_) (fun j x hx hxh => ?_) ?_ (fun j hj => ?_)
      · simp [listLinks, hrd x (hL j x hx), hxh, hq]
      · simp only [listLinks, hrd x (hL j x hx), hxh, hq]
        by_cases hc : ref (p.rd h .next) = some x <;> simp [hc, ref_null]
      · have : heads (unlinkBusy p h) .busy = ref (p.rd h .next) := by
          rw [he, hp']
          cases ref (p.rd h .next) <;> rfl
        rw [this]
        simp [heads, hhead, listLinks]
      · cases j with
        | busy => exact absurd rfl hj
        | free j =>
          rw [he, hp']
          cases ref (p.rd h .next) <;> rfl
    · simp [hrd x hx, h1, h2]
    · rw [he, status_setRd hT hhT hx, status_setRd hT hhT hx, status_setRd? hT hn hx, hp',
        status_setRd? hT hn hx]
      rfl
    · rw [he, data_setRd hhT hx, data_setRd hhT hx, data_setRd? hn hx, hp', data_setRd? hn hx]
    · rw [he, hp']
      cases ref (p.rd h .next) <;> rfl
    · simp [hrd h hhT]
    · simp [hrd h hhT]
  | some q =>
    have hqT : q ∈ T := prev_mem hf hL hh hq
    have hhead : p.busylist ≠ some h := fun hc => by
      have h1 := (hf.prev_eq_none_iff hh).mpr hc
      rw [show (listLinks p).prev h = ref (p.rd h .prev) from rfl, hq] at h1
      cases h1
    have hqh : h ≠ q := fun hc => hf.prev_ne hh (hc.symm ▸ hq)
    set p' := p.setRd q .next (p.rd h .next) with hp'
    have hrd' : ∀ x ∈ T, ∀ f, p'.rd x f =
        if x = q ∧ f = .next then p.rd h .next else p.rd x f :=
      fun x hx f => rd_setRd hT hqT hx rd_lt
    have he : unlinkBusy p h = ((p'.setRd? (ref (p.rd h .next)) .prev (p.rd h .prev)).setRd
        h .next NULL).setRd h .prev NULL := by
      rw [unlinkBusy_prev hq]
      simp [← hp', hrd' h hhT, hqh]
    have hrd : ∀ x ∈ T, ∀ f, (unlinkBusy p h).rd x f =
        if x = h ∧ (f = .prev ∨ f = .next) then NULL
        else if ref (p.rd h .next) = some x ∧ f = .prev then p.rd h .prev
        else if x = q ∧ f = .next then p.rd h .next else p.rd x f := by
      intro x hx f
      rw [he, rd_setRd hT hhT hx null_lt, rd_setRd hT hhT hx null_lt,
        rd_setRd? hT hn hx rd_lt, hrd' x hx]
      split_ifs <;> first | rfl | simp_all
    refine ⟨?_, ⟨fun x hx f h1 h2 => ?_, fun x hx => ?_, fun x hx => ?_, ?_⟩, ?_, ?_⟩
    · refine hf.unlink hh (fun j x hx hxh => ?_) (fun j x hx hxh => ?_) ?_ (fun j hj => ?_)
      · simp only [listLinks, hrd x (hL j x hx), hxh, hq]
        by_cases hc : x = q
        · simp [hc]
        · simp [hc, Ne.symm hc]
      · simp only [listLinks, hrd x (hL j x hx), hxh]
        by_cases hc : ref (p.rd h .next) = some x <;> simp [hc]
      · have : heads (unlinkBusy p h) .busy = p.busylist := by
          rw [he, hp']
          cases ref (p.rd h .next) <;> rfl
        rw [this]
        simp [heads, hhead]
      · rw [he, hp']
        cases j <;> cases ref (p.rd h .next) <;> rfl
    · simp [hrd x hx, h1, h2]
    · rw [he, status_setRd hT hhT hx, status_setRd hT hhT hx, status_setRd? hT hn hx, hp',
        status_setRd hT hqT hx]
    · rw [he, data_setRd hhT hx, data_setRd hhT hx, data_setRd? hn hx, hp', data_setRd hqT hx]
    · rw [he, hp']
      cases ref (p.rd h .next) <;> rfl
    · simp [hrd h hhT]
    · simp [hrd h hhT]

theorem unlinkBusy_spec (hi : HeapInv p (T₁ ++ h :: T₂) L) (hh : h ∈ L .busy) :
    Hole (unlinkBusy p h) T₁ T₂ h ((unlinkBusy p h).rd h .size)
      (Function.update L .busy ((L .busy).erase h)) ∧
    Seg (realLinks (unlinkBusy p h)) none (T₁ ++ h :: T₂) none ∧
    ListEdit (T₁ ++ h :: T₂) p (unlinkBusy p h) ∧
    (unlinkBusy p h).rd h .prev = NULL ∧ (unlinkBusy p h).rd h .next = NULL := by
  obtain ⟨hfam, hed, hpn, hnn⟩ := unlinkBusy_lists hi.grid hi.mem hi.lists hh
  have hkeep := hed.rd
  have hhT : h ∈ T₁ ++ h :: T₂ := by simp
  have hh1 : p.status h = 1 := ((hi.mem_busy h).mp hh).2
  have hnd := hi.tiles.nodup
  have hne : ∀ x ∈ T₁ ++ T₂, x ≠ h := by
    rintro x hx rfl
    rw [List.nodup_append] at hnd
    rcases List.mem_append.mp hx with h1 | h2
    · exact hnd.2.2 x h1 x (by simp) rfl
    · exact (List.nodup_cons.mp hnd.2.1).1 h2
  have hmid : ∀ x, x ∈ T₁ ++ T₂ ↔ x ∈ T₁ ++ h :: T₂ ∧ x ≠ h := fun x => by
    refine ⟨fun hx => ⟨mem_mid hx, hne x hx⟩, fun hx => ?_⟩
    have h1 := hx.1
    simp only [List.mem_append, List.mem_cons] at h1 ⊢
    tauto
  have hsz : (unlinkBusy p h).pool_size = p.pool_size := by rw [hed.same]
  have hsize : ∀ a ∈ T₁ ++ h :: T₂, (unlinkBusy p h).rd a .size = p.rd a .size :=
    fun a ha => hkeep a ha .size (by decide) (by decide)
  have hseg : Seg (realLinks (unlinkBusy p h)) none (T₁ ++ h :: T₂) none :=
    realLinks_congr hi.order (fun a ha => hkeep a ha .realprev (by decide) (by decide))
      (fun a ha => hkeep a ha .realnext (by decide) (by decide))
  have hseg' := hseg
  rw [← List.singleton_append, ← List.append_assoc, seg_append] at hseg'
  refine ⟨⟨?_, ?_, ?_, by simpa using hseg'.1, ⟨_, hseg'.2⟩, hfam, ?_, ?_, ?_, ?_, ?_, ?_, ?_⟩,
    hseg, hed, hpn, hnn⟩
  · rw [hsz]
    exact hi.size_ok
  · rw [hsz]
    exact hi.tiles.congr hsize
  · exact fun a ha => (hkeep a ha .offset (by decide) (by decide)).trans (hi.offset a ha)
  · intro a ha
    rw [hed.status a (mem_mid ha)]
    exact hi.status a (mem_mid ha)
  · intro a
    simp only [mem_erase_busy hi.lists, reduceCtorEq, false_and, not_false_eq_true, and_true]
    rw [hi.mem_free a, hmid]
    constructor
    · rintro ⟨h1, h2⟩
      refine ⟨⟨h1, ?_⟩, by rw [hed.status a h1, h2]⟩
      rintro rfl
      exact absurd (h2.symm.trans hh1) (by decide)
    · rintro ⟨⟨h1, _⟩, h2⟩
      exact ⟨h1, by rw [← hed.status a h1, h2]⟩
  · intro a
    rw [mem_erase_busy hi.lists, hi.mem_busy a, hmid]
    constructor
    · rintro ⟨⟨h1, h2⟩, h3⟩
      exact ⟨⟨h1, fun hc => h3 ⟨rfl, hc⟩⟩, by rw [hed.status a h1, h2]⟩
    · rintro ⟨⟨h1, h2⟩, h3⟩
      exact ⟨⟨h1, by rw [← hed.status a h1, h3]⟩, fun hc => h2 hc.2⟩
  · intro i a ha
    have ha' := ((mem_erase_busy hi.lists _ _).mp ha).1
    rw [hsize a (hi.mem _ a ha')]
    exact hi.classes (List.ne_nil_of_mem hh) i a ha'
  · exact settled_congr (List.isChain_append.mp hi.coalesced).1
      (fun a ha => hed.status a (by simp [ha]))
  · exact settled_congr (List.isChain_cons.mp (List.isChain_append.mp hi.coalesced).2.1).2
      (fun a ha => hed.status a (by simp [ha]))
  · have h1 := hi.left
    rw [freeBytes_append, freeBytes_cons, if_neg (by rw [hh1]; decide)] at h1
    rw [hsize h hhT, freeBytes_congr (fun a ha => hsize a (mem_mid ha))
      (fun a ha => hed.status a (mem_mid ha)), freeBytes_append,
      show (unlinkBusy p h).leftsize = p.leftsize by rw [hed.same]]
    omega

theorem refillFreelist_eq (hnone : p.freelist (getFreeidx (p.rd h .size)) = none)
    (hp : p.rd h .prev = NULL) (hn : p.rd h .next = NULL) :
    refillFreelist p h = closeFree p h (p.rd h .size) := by
  have h1 : p.setRd h .next NULL = p := setRd_self hn
  have h2 : p.setRd h .prev NULL = p := setRd_self hp
  have h3 : addFreenode p h none = p.setFreelist (getFreeidx (p.rd h .size)) (some h) := by
    simp only [addFreenode, Option.getD_none, hnone, h1]
    exact congrArg (fun q => Pool.setFreelist q _ (some h)) h2
  have h4 : ((p.setFreelist (getFreeidx (p.rd h .size)) (some h)).setStatus h 0).rd h .size =
      p.rd h .size := get_setStatus (Or.inl rfl)
  rw [closeFree, h3]
  simp only [refillFreelist, h4]

theorem freeBytes_eq_zero (hT : ∀ a ∈ T, 16 ≤ p.rd a .size) (h0 : freeBytes p T = 0) :
    ∀ a ∈ T, p.status a ≠ 0 := by
  induction T with
  | nil => simp
  | cons b T ih =>
    rw [freeBytes_cons] at h0
    have hb := hT b (by simp)
    intro a ha ha0
    rcases List.mem_cons.mp ha with rfl | ha'
    · rw [if_pos ha0] at h0
      omega
    · exact ih (fun c hc => hT c (by simp [hc])) (by omega) a ha' ha0

theorem refillFreelist_spec (hh : Hole p T₁ T₂ h (p.rd h .size) L)
    (ho : Seg (realLinks p) none (T₁ ++ h :: T₂) none) (hb : L .busy ≠ [])
    (hp : p.rd h .prev = NULL) (hn : p.rd h .next = NULL) (h0 : p.leftsize = 0) :
    ∃ L', HeapInv (refillFreelist p h) (T₁ ++ h :: T₂) L' ∧ L' .busy = L .busy ∧
      Frame (T₁ ++ h :: T₂) (L .busy) p (refillFreelist p h) ∧
      (refillFreelist p h).leftsize = p.leftsize+p.rd h .size ∧
      (refillFreelist p h).status h = 0 := by
  have hleft := hh.left
  have hbusy : ∀ a ∈ T₁ ++ T₂, p.status a ≠ 0 :=
    freeBytes_eq_zero (fun a ha => (hh.tiles.bounds.2 a (mem_mid ha)).2.1) (by omega)
  have hnone : p.freelist (getFreeidx (p.rd h .size)) = none := by
    have h1 := hh.lists.head_eq (.free (getFreeidx (p.rd h .size)))
    rw [show p.freelist (getFreeidx (p.rd h .size)) = _ from h1]
    cases hl : L (.free (getFreeidx (p.rd h .size))) with
    | nil => rfl
    | cons a l =>
      have ha := (hh.mem_free a).mp ⟨getFreeidx (p.rd h .size), by simp [hl]⟩
      exact absurd ha.2 (hbusy a ha.1)
  rw [refillFreelist_eq hnone hp hn]
  have hinv := hole_closeFree hh ho hb
    (fun a ha => hbusy a (by simp [List.mem_of_getLast? ha]))
    (fun a ha => hbusy a (by simp [List.mem_of_head? ha]))
  have hst := ((hinv.mem_free h).mp ⟨getFreeidx (p.rd h .size), by simp⟩).2
  exact ⟨_, hinv, by simp, closeFree_frame hh, closeFree_leftsize hh, hst⟩

end CLearning.MempoolCoalesce
