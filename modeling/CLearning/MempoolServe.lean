import CLearning.MempoolSplit

/-!
# Serving a request out of one pool

A block taken off its free list is handed out by putting it in front of the
busy list. The search among the free lists, or the first use of an idle pool,
finds the block. A pool just initialised is one free block.
-/

set_option autoImplicit false

namespace CLearning.MempoolServe
open CLearning.Machine CLearning.LinkedLists CLearning.MempoolBytes CLearning.MempoolPool CLearning.MempoolHeap
open CLearning.MempoolCoalesce CLearning.MempoolSplit

variable {p : Pool} {T T₁ T₂ : List ℕ} {h size : ℕ} {L : Cls → List ℕ} {i : Fin 5}

section HandOut

/-- The end of `__split_realdata` and the busy-list insertion of
`__alloc_realdata`. -/
def handOut (p : Pool) (h : ℕ) : Pool :=
  let q := ((p.setRd h .prev NULL).setRd h .next NULL).setStatus h 1
  let q := match q.busylist with
    | some b =>
      let q := q.setRd h .next (q.rd b .offset)
      q.setRd b .prev (q.rd h .offset)
    | none => q
  { q with busylist := some h, leftsize := usub 24 q.leftsize (q.rd h .size) }

theorem handOut_lists {q : Pool} (hT : Grid T) (hN : ∀ a ∈ T, a < NULL)
    (hL : ∀ c, ∀ a ∈ L c, a ∈ T) (hf : Family (listLinks q) (heads q) L)
    (hoff : ∀ a ∈ T, q.rd a .offset = a) (hhT : h ∈ T) (hh : ∀ c, h ∉ L c) :
    Family (listLinks (handOut q h)) (heads (handOut q h))
      (Function.update L .busy (h :: L .busy)) ∧
    (∀ x ∈ T, ∀ f, f ≠ .prev → f ≠ .next → (handOut q h).rd x f = q.rd x f) ∧
    (∀ x ∈ T, (handOut q h).status x = if x = h then 1 else q.status x) ∧
    (∀ x, Outside T x → (handOut q h).data x = q.data x) ∧
    handOut q h = { q with busylist := some h, data := (handOut q h).data,
                           leftsize := usub 24 q.leftsize (q.rd h .size) } := by
  have h16 : h < 65536 := lt_of_lt_null (hN h hhT)
  have hbT : ∀ b, q.busylist = some b → b ∈ T := fun b hb =>
    hL .busy b (List.mem_of_head? ((hf.head_eq .busy).symm.trans hb))
  have hq1 : ∀ x ∈ T, ∀ f, (((q.setRd h .prev NULL).setRd h .next NULL).setStatus h 1).rd x f =
      if x = h ∧ f = .next then NULL else if x = h ∧ f = .prev then NULL else q.rd x f := by
    intro x hx f
    rw [rd_setStatus hT hhT hx, rd_setRd hT hhT hx null_lt, rd_setRd hT hhT hx null_lt]
  obtain ⟨v, hv, hvr, he⟩ : ∃ v, v < 65536 ∧ ref v = q.busylist ∧ handOut q h =
      { (((((q.setRd h .prev NULL).setRd h .next NULL).setStatus h 1).setRd h .next v).setRd?
          q.busylist .prev h) with
        busylist := some h, leftsize := usub 24 q.leftsize (q.rd h .size) } := by
    cases hb : q.busylist with
    | none =>
      refine ⟨NULL, null_lt, rfl, ?_⟩
      have h1 : (((q.setRd h .prev NULL).setRd h .next NULL).setStatus h 1).setRd h .next NULL =
          ((q.setRd h .prev NULL).setRd h .next NULL).setStatus h 1 :=
        setRd_self (by rw [hq1 h hhT, if_pos ⟨rfl, rfl⟩])
      simp [handOut, hb, setRd?_none, h1, hq1 h hhT]
      rfl
    | some b =>
      have hbT' := hbT b hb
      have hb16 := lt_of_lt_null (hN b hbT')
      refine ⟨b, hb16, ref_of_lt (hN b hbT'), ?_⟩
      simp [handOut, hb, setRd?_some, hq1 b hbT', hq1 h hhT, hoff b hbT', hoff h hhT,
        rd_setRd hT hhT hhT hb16, rd_setRd hT hbT' hhT h16]
      rfl
  have hrd : ∀ x ∈ T, ∀ f, (handOut q h).rd x f =
      if q.busylist = some x ∧ f = .prev then h
      else if x = h ∧ f = .next then v
      else if x = h ∧ f = .prev then NULL else q.rd x f := by
    intro x hx f
    have h1 : (handOut q h).rd x f = (((((q.setRd h .prev NULL).setRd h .next NULL).setStatus h
        1).setRd h .next v).setRd? q.busylist .prev h).rd x f := by
      rw [he]
      rfl
    rw [h1, rd_setRd? hT hbT hx h16, rd_setRd hT hhT hx hv, hq1 x hx]
    split_ifs <;> simp_all
  have hbl : (handOut q h).busylist = some h := by rw [he]
  have hfl : (handOut q h).freelist = q.freelist := by
    rw [he]
    cases q.busylist <;> rfl
  have hqh : q.busylist ≠ some h := fun hb =>
    hh .busy (List.mem_of_head? ((hf.head_eq .busy).symm.trans hb))
  refine ⟨?_, fun x hx f h1 h2 => ?_, fun x hx => ?_, fun x hx => ?_, ?_⟩
  · refine hf.push hh ?_ ?_ (fun j x hx => ?_) (fun j x hx => ?_) hbl (fun j hj => ?_)
    · simp [listLinks, hrd h hhT, hqh, ref_null]
    · simpa [listLinks, hrd h hhT, heads] using hvr
    · have hxh : x ≠ h := fun h' => hh j (h' ▸ hx)
      simp [listLinks, hrd x (hL j x hx), hxh]
    · have hxh : x ≠ h := fun h' => hh j (h' ▸ hx)
      simp only [listLinks, hrd x (hL j x hx), hxh, heads]
      by_cases hc : q.busylist = some x <;> simp [hc, ref_of_lt (hN h hhT)]
    · cases j with
      | busy => exact absurd rfl hj
      | free j => exact congrFun hfl j
  · rw [hrd x hx, if_neg (fun h' => h1 h'.2), if_neg (fun h' => h2 h'.2),
      if_neg (fun h' => h1 h'.2)]
  · have h1 : (handOut q h).status x = (((((q.setRd h .prev NULL).setRd h .next NULL).setStatus h
        1).setRd h .next v).setRd? q.busylist .prev h).status x := by
      rw [he]
      rfl
    rw [h1, status_setRd? hT hbT hx, status_setRd hT hhT hx, status_setStatus (by decide),
      status_setRd hT hhT hx, status_setRd hT hhT hx]
  · have h1 : (handOut q h).data x = (((((q.setRd h .prev NULL).setRd h .next NULL).setStatus h
        1).setRd h .next v).setRd? q.busylist .prev h).data x := by
      rw [he]
    rw [h1, data_setRd? hbT hx, data_setRd hhT hx, data_setStatus hhT hx, data_setRd hhT hx,
      data_setRd hhT hx]
  · rw [setRd?_same q.busylist] at he
    generalize (((((q.setRd h .prev NULL).setRd h .next NULL).setStatus h 1).setRd h .next v).setRd?
      q.busylist .prev h).data = d at he
    have hd : (handOut q h).data = d := congrArg Pool.data he
    rw [hd]
    exact he

theorem taken_handOut {q : Pool} {B : List ℕ} {L' : Cls → List ℕ}
    (ht : Taken p q T₁ T₂ h B L L') (hB : ∀ x ∈ B, x ∈ T₁ ++ T₂) :
    HeapInv (handOut q h) (T₁ ++ h :: T₂) (Function.update L' .busy (h :: L .busy)) ∧
    Frame (T₁ ++ h :: T₂) B p (handOut q h) ∧
    (∀ x ∈ T₁ ++ h :: T₂, (handOut q h).rd x .size = q.rd x .size) ∧
    (handOut q h).leftsize+q.rd h .size = p.leftsize ∧
    (handOut q h).failed = p.failed := by
  have hh := ht.hole
  have hnd := hh.tiles.nodup
  have hhT : h ∈ T₁ ++ h :: T₂ := by simp
  obtain ⟨hfam, hrd, hst, hdata, hsame⟩ := handOut_lists hh.tiles.grid (hh.tiles.lt_null hh.size_ok)
    (fun c a ha => mem_mid (hh.mem c a ha)) hh.lists hh.offset hhT hh.not_mem
  rw [ht.busy] at hfam
  generalize handOut q h = r at *
  have hsz : r.pool_size = q.pool_size := by rw [hsame]
  have hsize : ∀ a ∈ T₁ ++ h :: T₂, r.rd a .size = q.rd a .size :=
    fun a ha => hrd a ha .size (by decide) (by decide)
  have hst' : ∀ a ∈ T₁ ++ T₂, r.status a = q.status a := fun a ha => by
    rw [hst a (mem_mid ha), if_neg (ne_of_mid hnd ha)]
  have hsh : r.status h = 1 := by rw [hst h hhT, if_pos rfl]
  have hleft := hh.left
  have hroom := hh.room_lt
  have hl : r.leftsize+q.rd h .size = q.leftsize := by
    have h1 : r.leftsize = usub 24 q.leftsize (q.rd h .size) := by rw [hsame]
    rw [h1, usub_of_le (by omega) (by omega)]
    omega
  refine ⟨⟨?_, ?_, fun a ha => ?_, ?_, hfam, fun a ha => ?_, fun a => ?_, fun a => ?_,
    fun _ j a ha => ?_, fun he => absurd he (by simp), ?_, ?_⟩, ?_, hsize, ?_, ?_⟩
  · rw [hsz]
    exact hh.size_ok
  · rw [hsz]
    exact hh.tiles.congr hsize
  · exact (hrd a ha .offset (by decide) (by decide)).trans (hh.offset a ha)
  · exact realLinks_congr ht.order (fun a ha => hrd a ha .realprev (by decide) (by decide))
      (fun a ha => hrd a ha .realnext (by decide) (by decide))
  · by_cases hah : a = h
    · exact Or.inr (hah ▸ hsh)
    · rw [hst' a (mid_of_ne ha hah)]
      exact hh.status a (mid_of_ne ha hah)
  · simp only [Function.update_of_ne (show Cls.free _ ≠ Cls.busy by simp), hh.mem_free a]
    constructor
    · rintro ⟨ha, ha0⟩
      exact ⟨mem_mid ha, by rw [hst' a ha, ha0]⟩
    · rintro ⟨ha, ha0⟩
      have hah : a ≠ h := by
        rintro rfl
        exact absurd (ha0.symm.trans hsh) (by decide)
      exact ⟨mid_of_ne ha hah, by rw [← hst' a (mid_of_ne ha hah), ha0]⟩
  · rw [Function.update_self, List.mem_cons, ← ht.busy, hh.mem_busy a]
    constructor
    · rintro (rfl | ⟨ha, ha1⟩)
      · exact ⟨hhT, hsh⟩
      · exact ⟨mem_mid ha, by rw [hst' a ha, ha1]⟩
    · rintro ⟨ha, ha1⟩
      by_cases hah : a = h
      · exact Or.inl hah
      · exact Or.inr ⟨mid_of_ne ha hah, by rw [← hst' a (mid_of_ne ha hah), ha1]⟩
  · rw [Function.update_of_ne (by simp)] at ha
    rw [hsize a (mem_mid (hh.mem _ a ha))]
    exact hh.classes j a ha
  · rw [List.isChain_append, List.isChain_cons]
    refine ⟨settled_congr hh.chain₁ (fun a ha => hst' a (by simp [ha])),
      ⟨fun b _ hs => ?_, settled_congr hh.chain₂ (fun a ha => hst' a (by simp [ha]))⟩,
      fun a _ b hb hs => ?_⟩
    · exact absurd (hs.1.symm.trans hsh) (by decide)
    · obtain rfl : h = b := by simpa using hb
      exact absurd (hs.2.symm.trans hsh) (by decide)
  · have h1 : freeBytes r (T₁ ++ T₂) = freeBytes q (T₁ ++ T₂) :=
      freeBytes_congr (fun a ha => hsize a (mem_mid ha)) hst'
    rw [freeBytes_append] at h1 hleft
    rw [freeBytes_append, freeBytes_cons, hsh, if_neg (by decide)]
    rw [freeBytes_append] at h1
    omega
  · refine ht.frame.trans ⟨fun x hx => hsize x (mem_mid (hB x hx)),
      fun x hx => hrd x (mem_mid (hB x hx)) .used (by decide) (by decide),
      fun x hx => hst' x (hB x hx), hdata, ?_⟩ (fun _ hx => hx)
    rw [hsame]
  · rw [hl, ht.kept.1]
  · rw [show r.failed = q.failed by rw [hsame], ht.kept.2.1]

end HandOut

section Serve

/-- The pool after a request was served out of block `h`, whose tail may have
become a block of its own. -/
structure Served (p q : Pool) (T₁ T₂ T₂' : List ℕ) (h size : ℕ) (L L' : Cls → List ℕ) :
    Prop where
  inv : HeapInv q (T₁ ++ h :: T₂') L'
  busy : L' .busy = h :: L .busy
  frame : Frame (T₁ ++ h :: T₂') (T₁ ++ T₂) p q
  free : p.status h = 0
  fits : size ≤ q.rd h .size
  left : q.leftsize+q.rd h .size = p.leftsize
  shape : T₂' = T₂ ∧ q.rd h .size = p.rd h .size ∨
    T₂' = (h+size) :: T₂ ∧ q.rd h .size = size ∧ size+30 ≤ p.rd h .size ∧
      q.rd (h+size) .size = p.rd h .size-size

/-- One call of `__split_realdata` on a free block that is found under its class. -/
theorem split_served (hi : HeapInv p (T₁ ++ h :: T₂) L) (hh : h ∈ L (.free i))
    (hcl : Classed p h L) {o : ℕ} (hg : mempoolGetFreelist p (p.rd h .size) = some (o, i))
    (h16 : 16 ≤ size) (hs : size ≤ p.rd h .size) :
    ∃ (q : Pool) (T₂' : List ℕ) (L₁ L' : Cls → List ℕ), (splitRealdata p h size).1 =
        ((q.setRd h .prev NULL).setRd h .next NULL).setStatus h 1 ∧ q.busylist = p.busylist ∧
      (∀ k, q.freelist k = (L₁ (.free k)).head?) ∧
      (∀ k a, a ∈ L₁ (.free k) ↔ (a ∈ L (.free k) ∧ a ≠ h) ∨
        ((splitRealdata p h size).2 = some a ∧ k = getFreeidx (q.rd a .size))) ∧
      (∀ a, (splitRealdata p h size).2 = some a → a ∈ T₁ ++ h :: T₂') ∧
      Served p (handOut q h) T₁ T₂ T₂' h size L L' ∧ (handOut q h).failed = p.failed := by
  have ho : p.freelist i = some o := (firstFreelist_eq_some hg).2
  have h0 : p.status h = 0 := ((hi.mem_free h).mp ⟨i, hh⟩).2
  have hsu : usub 32 (p.rd h .size) size = p.rd h .size-size :=
    usub_of_le hs (by have := @rd_lt p h .size; omega)
  by_cases hc : p.rd h .size-size < 2*realdataSize
  · have he : splitRealdata p h size = ((((removeFreenode p h (some i)).setRd h .prev NULL).setRd
        h .next NULL).setStatus h 1, none) := by
      simp [splitRealdata, hg, hsu, hc, detachRealdata_eq hi hh ho]
    obtain ⟨L₁, ht, hsize, hm⟩ := detach_taken hi hh hcl
    obtain ⟨h1, h2, h3, h4, h5⟩ := taken_handOut ht (fun x hx => hx)
    rw [he]
    refine ⟨_, T₂, L₁, _, rfl, ht.kept.2.2, fun k => ht.hole.lists.head_eq (.free k),
      fun k a => ?_, fun a ha => by simp at ha,
      ⟨h1, by simp, h2, h0, ?_, ?_, Or.inl ⟨rfl, ?_⟩⟩, h5⟩
    · rw [hm]
      simp
    · rw [h3 h (by simp), hsize]
      exact hs
    · rw [h3 h (by simp)]
      exact h4
    · rw [h3 h (by simp), hsize]
  · have hroom : size+30 ≤ p.rd h .size := by unfold realdataSize at hc; omega
    have hcut : CutAt p T₁ T₂ h size L i := ⟨hi, hh, h16, hroom⟩
    have he : splitRealdata p h size = ((((reclass (cut p h size i) (h+size) i
        (getFreeidx (p.rd h .size-size))).setRd h .prev NULL).setRd h .next NULL).setStatus h 1,
          some (h+size)) := by
      simp [splitRealdata, hg, hsu, hc, carveRealdata_eq hcut ho]
    obtain ⟨L₁, ht, hsize, hlsize, hm⟩ := carve_taken hcut hcl rfl
    have hmid : ∀ x ∈ T₁ ++ T₂, x ∈ T₁ ++ (h+size) :: T₂ := fun x hx => mem_mid hx
    obtain ⟨h1, h2, h3, h4, h5⟩ := taken_handOut ht hmid
    have hne : h+size ≠ h := by omega
    rw [he]
    refine ⟨_, (h+size) :: T₂, L₁, _, rfl, ht.kept.2.2, fun k => ht.hole.lists.head_eq (.free k),
      fun k a => ?_, fun a ha => by simp [← Option.some.inj ha],
      ⟨h1, by simp, h2, h0, ?_, ?_, Or.inr ⟨rfl, ?_, hroom, ?_⟩⟩, h5⟩
    · rw [hm]
      simp only [Option.some.injEq, Cls.free.injEq]
      constructor
      · rintro (ha | ⟨rfl, rfl⟩)
        · exact Or.inl ha
        · exact Or.inr ⟨rfl, by rw [hlsize]⟩
      · rintro (ha | ⟨rfl, rfl⟩)
        · exact Or.inl ha
        · exact Or.inr ⟨rfl, by rw [hlsize]⟩
    · rw [h3 h (by simp), hsize]
    · rw [h3 h (by simp)]
      exact h4
    · rw [h3 h (by simp), hsize]
    · rw [h3 _ (by simp), hlsize]

theorem scanFreelist_mem (hf : Family (listLinks p) (heads p) L) {c : Cls} (n : ℕ)
    (tmp : Option ℕ) (ava : ℕ) (ht : ∀ t, tmp = some t → t ∈ L c) (ha : ava ∈ L c) :
    scanFreelist p size n tmp ava ∈ L c := by
  induction n generalizing tmp ava with
  | zero => exact ha
  | succ n ih =>
    cases tmp with
    | none => exact ha
    | some t =>
      have htL := ht t rfl
      refine ih _ _ (fun t' ht' => (hf.seg c).next_mem htL ht') ?_
      split
      · exact htL
      · exact ha

/-- A block the climb finds is a large enough member of a list it searches. -/
theorem availFrom_mem (hf : Family (listLinks p) (heads p) L) {is : List (Fin 5)} {o : ℕ}
    (h : availFrom p size is = some o) : ∃ i ∈ is, o ∈ L (.free i) ∧ size ≤ p.rd o .size := by
  induction is with
  | nil => simp [availFrom] at h
  | cons j is ih =>
    have hlater : availFrom p size is = some o →
        ∃ i ∈ j :: is, o ∈ L (.free i) ∧ size ≤ p.rd o .size := by
      intro h
      obtain ⟨i, hi, ho⟩ := ih h
      exact ⟨i, List.mem_cons_of_mem _ hi, ho⟩
    rw [availFrom] at h
    cases hj : p.freelist j with
    | none =>
      rw [hj] at h
      exact hlater h
    | some a =>
      rw [hj] at h
      simp only at h
      split at h
      · obtain rfl := Option.some.inj h
        have ha : a ∈ L (.free j) := List.mem_of_head? ((hf.head_eq (.free j)).symm.trans hj)
        exact ⟨j, List.mem_cons_self,
          scanFreelist_mem hf _ _ _ (fun t ht => Option.some.inj ht ▸ ha) ha, ‹_›⟩
      · exact hlater h

theorem getAvaildata_spec (hf : Family (listLinks p) (heads p) L) {o : ℕ}
    (h : getAvaildata p size = some o) : ∃ i, o ∈ L (.free i) ∧ size ≤ p.rd o .size := by
  obtain ⟨i, -, ho⟩ := availFrom_mem hf h
  exact ⟨i, ho⟩

/-- A pool with nothing handed out is one free block. -/
theorem heapInv_idle (hi : HeapInv p T L) (hb : p.busylist = none) :
    T = [0] ∧ L .busy = [] ∧ L (.free 4) = [0] ∧ (∀ j, j ≠ 4 → L (.free j) = []) ∧
      p.rd 0 .size = p.pool_size-mempoolSize ∧ p.leftsize = p.pool_size-mempoolSize := by
  have hbusy : L .busy = [] := by
    have h1 := hi.lists.head_eq .busy
    rw [show heads p .busy = none from hb] at h1
    exact List.head?_eq_none_iff.mp h1.symm
  have hT := hi.pristine hbusy
  have h0 : ∀ a ∈ T, p.status a = 0 := fun a ha => ((hi.mem_free a).mp ⟨4, hT ▸ ha⟩).2
  have ht := hi.tiles
  have hch := hi.coalesced
  have hso := hi.size_ok
  have hT1 : T = [0] ∧ p.rd 0 .size = p.pool_size-mempoolSize := by
    cases T with
    | nil =>
      have h1 : 0 = p.pool_size-mempoolSize := ht
      unfold SizeOk at hso
      omega
    | cons a T =>
      obtain ⟨rfl, _, h2⟩ := ht
      cases T with
      | nil => exact ⟨rfl, by simpa [Tiles] using h2⟩
      | cons b T =>
        rw [List.isChain_cons] at hch
        exact absurd ⟨h0 0 (by simp), h0 b (by simp)⟩ (hch.1 b rfl)
  obtain ⟨rfl, hsz⟩ := hT1
  refine ⟨rfl, hbusy, hT.symm, fun j hj => ?_, hsz, ?_⟩
  · rw [List.eq_nil_iff_forall_not_mem]
    intro a ha
    have h1 := hi.mem _ a ha
    rw [hT] at h1
    exact hi.lists.disjoint _ _ (fun h => hj (Cls.free.inj h)) a ha h1
  · rw [hi.left, freeBytes_cons, h0 0 (by simp), if_pos rfl, hsz]
    simp [freeBytes]

theorem heapInv_split (hi : HeapInv p T L) {c : Cls} (hh : h ∈ L c) :
    ∃ T₁ T₂, T = T₁ ++ h :: T₂ :=
  List.append_of_mem (hi.mem c h hh)

theorem setFreelist_self {a : Option ℕ} (h : p.freelist i = a) : p.setFreelist i a = p := by
  subst h
  simp [Pool.setFreelist]

theorem head?_eq_of_mem {l : List ℕ} {a : ℕ} (h : ∀ x, x ∈ l ↔ x = a) : l.head? = some a := by
  cases l with
  | nil => simpa using h a
  | cons b l =>
    have := (h b).mp (by simp)
    simp [this]

theorem takeRealdata_idle (hb : p.busylist = none) (h4 : p.freelist 4 = some 0) :
    takeRealdata p size = some (
      let r := splitRealdata p 0 size
      let q := match r.2 with
        | some left =>
          let freeidx := getFreeidx (r.1.rd left .size)
          if freeidx = 4 then r.1.setFreelist 4 (some left)
          else (r.1.setFreelist 4 none).setFreelist freeidx (some left)
        | none => r.1.setFreelist 4 none
      ({ q with busylist := some 0, leftsize := usub 24 q.leftsize (q.rd 0 .size) }, 0)) := by
  unfold takeRealdata
  split
  · rename_i b hb'
    exact absurd (hb'.symm.trans hb) (by simp)
  · have hmap : ∀ f : ℕ → Pool × ℕ, (p.freelist 4).map f = some (f 0) := fun f => by
      rw [h4, Option.map_some]
    exact hmap _

/-- First use: the remainder already stands where the source puts it. -/
theorem takeRealdata_first {s : Pool} {left : Option ℕ} (hb : p.busylist = none)
    (h4 : p.freelist 4 = some 0) (hs : splitRealdata p 0 size = (s, left))
    (hf : ∀ k, s.freelist k = left.filter fun l => getFreeidx (s.rd l .size) = k) :
    takeRealdata p size =
      some ({ s with busylist := some 0, leftsize := usub 24 s.leftsize (s.rd 0 .size) }, 0) := by
  rw [takeRealdata_idle hb h4, hs]
  cases left with
  | none =>
    have h1 : s.freelist 4 = none := hf 4
    simp only
    rw [setFreelist_self h1]
  | some l =>
    have h1 : ∀ k, s.freelist k = if getFreeidx (s.rd l .size) = k then some l else none :=
      fun k => by simp [hf k, Option.filter_some]
    by_cases hc : getFreeidx (s.rd l .size) = 4
    · have h2 : s.freelist 4 = some l := by rw [h1, if_pos hc]
      simp only [hc, if_true]
      rw [setFreelist_self h2]
    · have h2 : s.freelist 4 = none := by rw [h1, if_neg hc]
      have h3 : s.freelist (getFreeidx (s.rd l .size)) = some l := by rw [h1, if_pos rfl]
      simp only [hc, if_false]
      rw [setFreelist_self h2, setFreelist_self h3]

theorem takeRealdata_busy {b : ℕ} (hb : p.busylist = some b) :
    takeRealdata p size = (getAvaildata p size).map fun a =>
      let q := (splitRealdata { p with failed := 0 } a size).1
      let q := q.setRd a .next (q.rd b .offset)
      let q := q.setRd b .prev (q.rd a .offset)
      ({ q with busylist := some a, leftsize := usub 24 q.leftsize (q.rd a .size) }, a) := by
  unfold takeRealdata
  split
  · rename_i b' hb'
    obtain rfl : b' = b := Option.some.inj (hb'.symm.trans hb)
    rfl
  · rename_i hb'
    exact absurd (hb'.symm.trans hb) (by simp)

/-- The search in a pool in use serves the request out of one free block. -/
theorem takeRealdata_used (hi : HeapInv p T L) (h16 : 16 ≤ size) {b : ℕ} (hb : p.busylist = some b)
    {q : Pool} {o : ℕ} (ht : takeRealdata p size = some (q, o)) :
    ∃ T₁ T₂ T₂' L', T = T₁ ++ o :: T₂ ∧ Served p q T₁ T₂ T₂' o size L L' ∧ q.failed = 0 := by
  have hbL : b ∈ L .busy := List.mem_of_head? ((hi.lists.head_eq .busy).symm.trans hb)
  rw [takeRealdata_busy hb, Option.map_eq_some_iff] at ht
  obtain ⟨a, ha, hqa⟩ := ht
  rw [Prod.mk.injEq] at hqa
  obtain ⟨hq, rfl⟩ := hqa
  obtain ⟨i, hai, has⟩ := getAvaildata_spec hi.lists ha
  obtain ⟨T₁, T₂, rfl⟩ := heapInv_split hi hai
  have hi' : HeapInv { p with failed := 0 } (T₁ ++ a :: T₂) L := hi.congr rfl rfl rfl rfl rfl
  have hcl : ∀ j, ∀ x ∈ L (.free j), getFreeidx (p.rd x .size) = j :=
    hi.classes (List.ne_nil_of_mem hbL)
  have hia : getFreeidx (p.rd a .size) = i := hcl i a hai
  obtain ⟨l, hl⟩ : ∃ l, p.freelist i = some l := by
    have h1 : p.freelist i = (L (.free i)).head? := hi.lists.head_eq (.free i)
    cases hL : L (.free i) with
    | nil => simp [hL] at hai
    | cons l _ => exact ⟨l, by rw [h1, hL]; rfl⟩
  have hg : mempoolGetFreelist { p with failed := 0 } (p.rd a .size) = some (l, i) := by
    have h1 := mempoolGetFreelist_self (p := { p with failed := 0 })
      (o := l) (by rw [hia]; exact hl)
    rwa [hia] at h1
  obtain ⟨r, T₂', L₁, L', hsp, hrb, -, -, -, hsv, hfa⟩ := split_served hi' hai
    (fun j x hx _ => hcl j x hx) hg h16 has
  have hqr : q = handOut r a := by
    rw [← hq, hsp, handOut]
    have h1 : (((r.setRd a .prev NULL).setRd a .next NULL).setStatus a 1).busylist = some b :=
      hrb.trans hb
    simp only [h1]
  subst hqr
  refine ⟨T₁, T₂, T₂', L', rfl, ⟨hsv.inv, hsv.busy, ⟨hsv.frame.size, hsv.frame.used,
    hsv.frame.status, hsv.frame.data, ?_⟩, hsv.free, hsv.fits, hsv.left, hsv.shape⟩, ?_⟩
  · rw [hsv.frame.same]
  · simpa using hfa

/-- The first use of a pool cuts the request off its only block. -/
theorem takeRealdata_unused (hi : HeapInv p T L) (h16 : 16 ≤ size) (hs : size ≤ p.leftsize)
    (hb : p.busylist = none) {q : Pool} {o : ℕ} (ht : takeRealdata p size = some (q, o)) :
    ∃ T₁ T₂ T₂' L', T = T₁ ++ o :: T₂ ∧ Served p q T₁ T₂ T₂' o size L L' ∧
      q.failed = p.failed := by
  obtain ⟨rfl, hLb, hL4, hLj, hsz, hleft⟩ := heapInv_idle hi hb
  have h4 : p.freelist 4 = some 0 := by
    have h1 : p.freelist 4 = (L (.free 4)).head? := hi.lists.head_eq (.free 4)
    rw [h1, hL4]
    rfl
  have hj : ∀ j, j ≠ 4 → p.freelist j = none := fun j hj => by
    have h1 : p.freelist j = (L (.free j)).head? := hi.lists.head_eq (.free j)
    rw [h1, hLj j hj]
    rfl
  have hcl : Classed p 0 L := by
    intro j x hx hx0
    by_cases hj4 : j = 4
    · subst hj4
      rw [hL4] at hx
      exact absurd (by simpa using hx) hx0
    · rw [hLj j hj4] at hx
      cases hx
  have hg : mempoolGetFreelist p (p.rd 0 .size) = some (0, 4) := by
    cases hm : mempoolGetFreelist p (p.rd 0 .size) with
    | none =>
      have h1 := firstFreelist_eq_none.mp hm 4 (mem_classesFrom.mpr (Fin.le_last _))
      rw [h4] at h1
      cases h1
    | some r =>
      obtain ⟨o', k⟩ := r
      obtain ⟨-, h1⟩ := firstFreelist_eq_some hm
      by_cases hk : k = 4
      · subst hk
        rw [h4] at h1
        rw [Option.some.inj h1]
      · rw [hj k hk] at h1
        cases h1
  have h0L : 0 ∈ L (.free 4) := by simp [hL4]
  obtain ⟨r, T₂', L₁, L', hsp, hrb, hfl, hm, hmT, hsv, hfa⟩ := split_served
    (show HeapInv _ ([] ++ 0 :: []) _ from hi) h0L hcl hg h16 (by omega)
  generalize hS : splitRealdata p 0 size = S at hsp hm hmT
  obtain ⟨s, left⟩ := S
  simp only at hsp hm hmT
  have hl₁ : ∀ k a, a ∈ L₁ (.free k) ↔ left = some a ∧ k = getFreeidx (r.rd a .size) := by
    intro k a
    rw [hm]
    constructor
    · rintro (⟨h1, h2⟩ | h1)
      · have := hi.mem _ a h1
        simp only [List.mem_singleton] at this
        exact absurd this h2
      · exact h1
    · exact Or.inr
  have hrd : ∀ a ∈ [] ++ 0 :: T₂', s.rd a .size = r.rd a .size := by
    intro a ha
    have hT := hsv.inv.tiles.grid
    have h0 : 0 ∈ [] ++ 0 :: T₂' := by simp
    rw [hsp, rd_setStatus hT h0 ha, rd_setRd hT h0 ha null_lt, rd_setRd hT h0 ha null_lt,
      if_neg (by simp), if_neg (by simp)]
  have hfl' : ∀ k, s.freelist k = left.filter fun l => getFreeidx (s.rd l .size) = k := by
    intro k
    have h1 : s.freelist k = r.freelist k := by rw [hsp]; rfl
    rw [h1, hfl k]
    cases left with
    | none =>
      have h2 : L₁ (.free k) = [] :=
        List.eq_nil_iff_forall_not_mem.mpr (fun a ha => by simpa using ((hl₁ k a).mp ha).1)
      rw [h2]
      rfl
    | some l =>
      simp only [Option.filter_some, decide_eq_true_eq, hrd l (hmT l rfl)]
      split_ifs with hk
      · refine head?_eq_of_mem (fun a => ?_)
        rw [hl₁]
        constructor
        · rintro ⟨h2, -⟩
          exact (Option.some.inj h2).symm
        · rintro rfl
          exact ⟨rfl, hk.symm⟩
      · rw [List.head?_eq_none_iff, List.eq_nil_iff_forall_not_mem]
        intro a ha
        obtain ⟨h2, h3⟩ := (hl₁ k a).mp ha
        obtain rfl := Option.some.inj h2
        exact hk h3.symm
  have hqr : q = handOut r 0 ∧ o = 0 := by
    have hfirst := takeRealdata_first hb h4 hS hfl'
    rw [ht, Option.some.injEq, Prod.mk.injEq] at hfirst
    refine ⟨?_, hfirst.2⟩
    have h1 : (((r.setRd 0 .prev NULL).setRd 0 .next NULL).setStatus 0 1).busylist = none :=
      hrb.trans hb
    rw [hfirst.1, hsp, handOut]
    simp only [h1]
  obtain ⟨rfl, rfl⟩ := hqr
  exact ⟨[], [], T₂', L', rfl, hsv, by simpa using hfa⟩

theorem takeRealdata_spec (hi : HeapInv p T L) (h16 : 16 ≤ size) (hs : size ≤ p.leftsize)
    {q : Pool} {o : ℕ} (ht : takeRealdata p size = some (q, o)) :
    ∃ T₁ T₂ T₂' L', T = T₁ ++ o :: T₂ ∧ Served p q T₁ T₂ T₂' o size L L' ∧
      q.failed = if p.busylist = none then p.failed else 0 := by
  cases hb : p.busylist with
  | some b => simpa using takeRealdata_used hi h16 hb ht
  | none => simpa using takeRealdata_unused hi h16 hs hb ht

end Serve

section Init

theorem tiles_singleton {e : ℕ} (h : e = p.rd 0 .size) (h16 : 16 ≤ e) : Tiles p 0 [0] e :=
  ⟨rfl, by omega, by rw [h]; simp [Tiles]⟩

def freshLists : Cls → List ℕ
  | .free i => if i = 4 then [0] else []
  | .busy => []

theorem eq_of_mem_freshLists {c : Cls} {a : ℕ} (h : a ∈ freshLists c) : c = .free 4 := by
  cases c with
  | busy => simp [freshLists] at h
  | free i =>
    by_cases hi : i = 4
    · rw [hi]
    · simp [freshLists, hi] at h

theorem initMempool_spec (hs : SizeOk p.pool_size) :
    HeapInv (initMempool p) [0] freshLists ∧ (initMempool p).busylist = none ∧
      (initMempool p).leftsize = p.pool_size-mempoolSize ∧ (initMempool p).failed = 0 ∧
      (∀ x, 15 ≤ x → (initMempool p).data x = p.data x) ∧ (initMempool p).status 0 = 0 ∧
      initMempool p = { p with
        freelist := (initMempool p).freelist, busylist := none, data := (initMempool p).data,
        leftsize := (initMempool p).leftsize, failed := 0 } := by
  have hT : Grid [0] := by simp [Grid]
  have h0 : (0 : ℕ) ∈ [0] := by simp
  have hu : usub 64 p.pool_size mempoolSize = p.pool_size-mempoolSize := by
    unfold SizeOk at hs
    exact usub_of_le (by omega) (by omega)
  have hsz : p.pool_size-mempoolSize < 65536 := by
    unfold SizeOk mempoolSize at *
    omega
  obtain ⟨w, hw⟩ : ∃ w, w = (((((({ p with freelist := fun i => if i = 4 then some 0
      else none } : Pool).setRd 0 .offset 0).setRd 0 .size (p.pool_size-mempoolSize)).setRd 0 .next
        NULL).setRd 0 .prev NULL).setRd 0 .realnext NULL).setRd 0 .realprev NULL := ⟨_, rfl⟩
  have hinit : initMempool p = { w.setStatus 0 0 with
      busylist := none, leftsize := (w.setStatus 0 0).rd 0 .size, failed := 0 } := by
    simp only [hw, initMempool, setRd_pool_size, hu]
  have hrd : ∀ f, (w.setStatus 0 0).rd 0 f =
      match f with
      | .offset => 0
      | .size => p.pool_size-mempoolSize
      | .used => p.rd 0 .used
      | _ => NULL := by
    intro f
    rw [hw]
    simp only [rd_setStatus hT h0 h0, rd_setRd hT h0 h0 null_lt, rd_setRd hT h0 h0 hsz,
      rd_setRd hT h0 h0 (show 0 < 65536 by decide)]
    cases f <;> simp
    rfl
  have hst : (w.setStatus 0 0).status 0 = 0 := by
    rw [status_setStatus (by decide), if_pos rfl]
  have hdata : ∀ x, 15 ≤ x → (w.setStatus 0 0).data x = p.data x := by
    intro x hx
    have ho : Outside [0] x := by
      intro o ho
      obtain rfl := List.mem_singleton.mp ho
      exact Or.inr hx
    rw [hw]
    simp only [data_setStatus h0 ho, data_setRd h0 ho]
  have hfl : (w.setStatus 0 0).freelist = fun i => if i = 4 then some 0 else none := by
    rw [hw]
    rfl
  have hsame : w.setStatus 0 0 = { p with
      freelist := (w.setStatus 0 0).freelist, data := (w.setStatus 0 0).data } := by
    rw [hw]
    rfl
  generalize w.setStatus 0 0 = v at *
  have hps : v.pool_size = p.pool_size := by rw [hsame]
  have hvs : v.rd 0 .size = p.pool_size-mempoolSize := hrd .size
  rw [hinit]
  refine ⟨⟨?_, ?_, ?_, ?_, ⟨fun c => ?_, fun c => ?_, fun c => ?_, fun c c' hcc a ha ha' => ?_⟩,
    ?_, fun a => ?_, fun a => ?_, fun hb => absurd rfl hb, fun _ => rfl, ?_, ?_⟩,
    rfl, hvs, rfl, hdata, hst, ?_⟩
  · exact hps ▸ hs
  · rw [show ({ v with busylist := none, leftsize := v.rd 0 .size, failed := 0 } : Pool).pool_size =
      p.pool_size from hps]
    refine tiles_singleton hvs.symm ?_
    unfold SizeOk realdataSize at hs
    omega
  · intro a ha
    obtain rfl := List.mem_singleton.mp ha
    exact hrd .offset
  · refine ⟨?_, ?_, trivial⟩
    · exact ref_eq_none.mpr (hrd .realprev)
    · exact ref_eq_none.mpr (hrd .realnext)
  · by_cases hc : c = .free 4
    · subst hc
      exact ⟨ref_eq_none.mpr (hrd .prev), ref_eq_none.mpr (hrd .next), trivial⟩
    · have h1 : freshLists c = [] := by
        cases c with
        | busy => rfl
        | free i => simp [freshLists, show i ≠ 4 from fun h => hc (h ▸ rfl)]
      rw [h1]
      trivial
  · cases c with
    | busy => rfl
    | free i =>
      change v.freelist i = _
      rw [hfl]
      by_cases hi : i = 4 <;> simp [freshLists, hi]
  · cases c with
    | busy => simp [freshLists]
    | free i => by_cases hi : i = 4 <;> simp [freshLists, hi]
  · refine hcc ?_
    rw [eq_of_mem_freshLists ha, eq_of_mem_freshLists ha']
  · intro a ha
    obtain rfl := List.mem_singleton.mp ha
    exact Or.inl hst
  · constructor
    · rintro ⟨i, hi⟩
      by_cases hi4 : i = 4
      · rw [hi4] at hi
        obtain rfl : a = 0 := by simpa [freshLists] using hi
        exact ⟨h0, hst⟩
      · simp [freshLists, hi4] at hi
    · rintro ⟨ha, -⟩
      exact ⟨4, by simpa [freshLists] using ha⟩
  · constructor
    · intro ha
      cases ha
    · rintro ⟨ha, ha1⟩
      obtain rfl := List.mem_singleton.mp ha
      exact absurd (hst.symm.trans ha1) (by decide)
  · exact List.isChain_singleton 0
  · have h1 : freeBytes v [0] = v.rd 0 .size := by
      rw [freeBytes_cons, if_pos hst]
      simp [freeBytes]
    exact h1.symm
  · rw [hsame]

end Init

end CLearning.MempoolServe
