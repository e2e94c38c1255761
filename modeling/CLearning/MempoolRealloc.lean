import CLearning.MempoolPayload
import CLearning.MempoolHeader

/-!
# Replacing a block

`prealloc` allocates a second block, copies into it, writes its append mark through
the kind of the first one and frees that. Where the two kinds differ, the mark
lands beside its field.
-/

set_option autoImplicit false

namespace CLearning.MempoolRealloc
open CLearning.Machine CLearning.LinkedLists CLearning.MempoolBytes CLearning.MempoolPool
open CLearning.MempoolHeap CLearning.MempoolServe CLearning.MpHash CLearning.MempoolState
open CLearning.Mempool CLearning.MempoolChain CLearning.MempoolRegistry CLearning.MempoolCore
open CLearning.MempoolGrow CLearning.MempoolAlloc CLearning.MempoolFree
open CLearning.MempoolStore CLearning.MempoolInit CLearning.MempoolFresh CLearning.MempoolRun
open CLearning.MempoolAppend CLearning.MempoolCache CLearning.MempoolFailure
open CLearning.MempoolCap CLearning.MempoolLaws CLearning.MempoolReset CLearning.MempoolPayload
open CLearning.MempoolHeader

section Marks

variable {s : State} {ps fs ls M : List ℕ} {B : ℕ → List ℕ} {a b o u : ℕ}

theorem locate_field {d n : ℕ} (hc : Core s ps fs [] ls M B) (hb : b ∈ s.base :: ps) (ho : o ∈ B b)
    (hn : 0 < n) (hd : d+n ≤ realdataSize) :
    s.locate (b+mempoolSize+(o+d)) n = some (.pool b (o+d)) := by
  obtain ⟨h16, hle, -, -⟩ := block_bounds hc hb ho
  obtain ⟨hlive, -, -, h208⟩ := pool_range hc hb
  simp only [mempoolSize] at hle
  rw [realdataSize] at hd
  have hloc := locate_unique (a := b+mempoolSize+(o+d)) (n := n) hc.apart hlive hn
    (by simp only [poolChunk, mempoolSize]; omega) (by simp only [poolChunk, mempoolSize]; omega)
  have hoff : b+mempoolSize+(o+d)-b-mempoolSize = o+d := by omega
  have hge : b+mempoolSize ≤ b+mempoolSize+(o+d) := by omega
  simpa only [poolChunk, hoff, hge, if_true] using hloc

theorem store_used (hc : Core s ps fs [] ls M B) (hb : b ∈ s.base :: ps) (ho : o ∈ B b) :
    s.store (payload b o-realdataSize+12) 2 (word 2 u) =
      .ok (s.setPool b ((s.pools b).setRd o .used u)) := by
  have haddr : payload b o-realdataSize+12 = b+mempoolSize+(o+12) := by
    rw [payload]
    omega
  rw [haddr, State.store, locate_field hc hb ho (by decide) (by decide)]
  have hbytes : State.splice (s.pools b).data (o+12) 2 (word 2 u) =
      MempoolBytes.set (s.pools b).data o .used u := by
    funext i
    by_cases hin : o+12 ≤ i ∧ i < o+12+2
    · rw [State.splice, if_pos hin]
      have hi : i = o+12 ∨ i = o+12+1 := by omega
      rcases hi with rfl | rfl
      · simp [word, MempoolBytes.set, store16, Field.pos]
      · simp [word, MempoolBytes.set, store16, Field.pos]
    · rw [State.splice, if_neg hin, MempoolBytes.set, store16_frame]
      simp only [Field.pos]
      omega
  dsimp only
  rw [hbytes, Pool.setRd]

/-- Four bytes put on the last byte of `realnext`, the mark and the status of a small
block. -/
theorem store_over (hc : Core s ps fs [] ls M B) (hb : b ∈ s.base :: ps) (ho : o ∈ B b) :
    s.store (payload b o-largeSize+8) 4 (word 4 u) =
      .ok (s.setPool b { s.pools b with
        data := State.splice (s.pools b).data (o+11) 4 (word 4 u) }) := by
  have haddr : payload b o-largeSize+8 = b+mempoolSize+(o+11) := by
    rw [payload, realdataSize, largeSize]
    omega
  rw [haddr, State.store, locate_field hc hb ho (by decide) (by decide)]

/-- Where the outer two bytes are there already, only the mark changes. -/
theorem splice_over {p : Pool} (hnext : (p.data (o+11)).toNat = u % 256)
    (hstatus : p.status o = u / 2^24) :
    { p with data := State.splice p.data (o+11) 4 (word 4 u) } =
      p.setRd o .used (u/256 % 65536) := by
  have hbytes : State.splice p.data (o+11) 4 (word 4 u) =
      MempoolBytes.set p.data o .used (u/256 % 65536) := by
    funext i
    by_cases hin : o+11 ≤ i ∧ i < o+11+4
    · rw [State.splice, if_pos hin]
      have hi : i = o+11 ∨ i = o+12 ∨ i = o+13 ∨ i = o+14 := by omega
      rcases hi with rfl | rfl | rfl | rfl
      · rw [MempoolBytes.set, store16_frame _ _ (by simp only [Field.pos]; omega)]
        apply UInt8.toNat_inj.mp
        rw [hnext]
        simp [word]
      · apply UInt8.toNat_inj.mp
        simp [word, MempoolBytes.set, store16, Field.pos, show o+12-(o+11) = 1 by omega]
      · apply UInt8.toNat_inj.mp
        simp [word, MempoolBytes.set, store16, Field.pos, show o+13-(o+11) = 2 by omega]
        omega
      · rw [MempoolBytes.set, store16_frame _ _ (by simp only [Field.pos]; omega)]
        have hst : (p.data (o+14)).toNat = u / 2^24 := hstatus
        have hlt := (p.data (o+14)).toNat_lt
        apply UInt8.toNat_inj.mp
        rw [hst]
        simp [word, show o+14-(o+11) = 3 by omega]
        omega
    · rw [State.splice, if_neg hin, MempoolBytes.set, store16_frame]
      simp only [Field.pos]
      omega
  rw [hbytes, Pool.setRd]

/-- Two bytes put on the middle of the mark of a large block. -/
theorem store_inside {m : ℕ} (hc : Core s ps fs [] ls M B) (ha : a ∈ ls)
    (hsz : largeSize ≤ largeBytes (s.larges a)) (hm : largeUsed (s.larges a) = m) (hlt : m < 65536)
    (hu : u < 65536) :
    s.store (a+largeSize-realdataSize+12) 2 (word 2 u) =
      .ok (s.setLarge a (store32 (s.larges a) 8 (m % 256+256*u))) := by
  obtain ⟨h0, hal, -⟩ := hc.range _ (hc.large_live ha)
  simp only [largeChunk] at h0 hal
  have haddr : a+largeSize-realdataSize+12 = a+9 := by
    rw [largeSize, realdataSize]
    omega
  have hloc := locate_unique (a := a+9) (n := 2) hc.apart (hc.large_live ha) (by decide)
    (by simp only [largeChunk]; omega)
    (by rw [largeSize] at hsz; simp only [largeChunk]; omega)
  have hoff : a+9-a = 9 := by omega
  simp only [largeChunk, hoff] at hloc
  rw [haddr, State.store, hloc]
  have hm' : (s.larges a 8).toNat+256*(s.larges a 9).toNat+
      65536*((s.larges a 10).toNat+256*(s.larges a 11).toNat) = m := hm
  have h8 := (s.larges a 8).toNat_lt
  have h9 := (s.larges a 9).toNat_lt
  have h10 := (s.larges a 10).toNat_lt
  have h11 := (s.larges a 11).toNat_lt
  have hbytes : State.splice (s.larges a) 9 2 (word 2 u) =
      store32 (s.larges a) 8 (m % 256+256*u) := by
    funext i
    by_cases hin : 8 ≤ i ∧ i < 8+4
    · have hi : i = 8 ∨ i = 9 ∨ i = 10 ∨ i = 11 := by omega
      rcases hi with rfl | rfl | rfl | rfl
      · apply UInt8.toNat_inj.mp
        simp [State.splice, store32, store16]
        omega
      · apply UInt8.toNat_inj.mp
        simp [State.splice, word, store32, store16]
        omega
      · apply UInt8.toNat_inj.mp
        simp [State.splice, word, store32, store16]
        omega
      · apply UInt8.toNat_inj.mp
        simp [State.splice, store32, store16]
        omega
    · rw [State.splice, if_neg (by omega), store32, store16_frame _ _ (by omega),
        store16_frame _ _ (by omega)]
  dsimp only
  rw [hbytes]

end Marks

section Filling

/-- The block at `q` with header `w` was filled: it holds the `k` bytes from `src` and
has the mark `m`, and nothing else changed. -/
structure Filled (env : Env) (t u : State) (ps fs ls M : List ℕ) (B : ℕ → List ℕ) (q src k : ℕ)
    (w : View) (m : ℕ) : Prop where
  core : Core u ps fs [] ls M B
  untouched : Untouched t u
  marked : m+w.header ≤ w.size → Marked ps ls B t u
  view : view u q = some { w with used := m }
  others : ∀ y, Block t.base ps ls B y → y ≠ q → MempoolAppend.view u y = MempoolAppend.view t y
  flags : ∀ a ∈ ls, largeFlag (u.larges a) = largeFlag (t.larges a)
  bytes : ∀ i, u.load env i ≠ t.load env i → Covers w q i
  copied : ∀ i < k, u.load env (q+i) = t.load env (src+i)

variable {env : Env} {t u : State} {ps fs ls M : List ℕ} {B : ℕ → List ℕ}
  {a b o k m n q src x y : ℕ} {v w : View} {f : Bytes}

theorem written_view (hc : Core t ps fs [] ls M B) (hc' : Core u ps fs [] ls M B)
    (hw : Written ps ls B t u) (hy : Block t.base ps ls B y) : view u y = view t y := by
  rcases hy with ⟨b, hb, o, ho, rfl⟩ | ⟨a, ha, rfl⟩
  · obtain ⟨h1, h2⟩ := hw.blocks b hb o ho
    rw [view_small hc hb ho, view_small hc' (hw.base.symm ▸ hb) ho, smallView, smallView, h1, h2]
  · obtain ⟨-, h1, h2⟩ := hw.larges a ha
    rw [view_large hc ha, view_large hc' ha, largeView, largeView, h1, h2]

theorem filled_store (hc : Core t ps fs [] ls M B) (hc' : Core u ps fs [] ls M B)
    (hw : Written ps ls B t u) (hq : Block t.base ps ls B q) (hv : view t q = some w)
    (hu : w.used = 0) (hfit : k+w.header ≤ w.size)
    (hstore : t.store q k (fun i => t.load env (src+i)) = .ok u) :
    Filled env t u ps fs ls M B q src k w 0 where
  core := hc'
  untouched := untouched_store hstore
  marked _ := marked_of_written hw
  view := by
    rw [written_view hc hc' hw hq, hv, ← hu]
  others y hy _ := written_view hc hc' hw hy
  flags a ha := (hw.larges a ha).1
  bytes i hi := by
    rw [load_store hc.apart hstore] at hi
    split at hi
    · exact ⟨by omega, by omega⟩
    · exact absurd rfl hi
  copied i hi := by
    rw [load_store hc.apart hstore, if_pos (by omega), Nat.add_sub_cancel_left]

theorem filled_none (hc : Core t ps fs [] ls M B) (hv : view t q = some w) (hu : w.used = 0)
    (hsame : ∀ i < k, t.load env (q+i) = t.load env (src+i)) :
    Filled env t t ps fs ls M B q src k w 0 where
  core := hc
  untouched := Untouched.refl t
  marked _ := marked_refl t
  view := by
    rw [hv, ← hu]
  others _ _ _ := rfl
  flags _ _ := rfl
  bytes _ hi := absurd rfl hi
  copied := hsame

theorem filled_small (env : Env) (hc : Core t ps fs [] ls M B) (hb : b ∈ t.base :: ps)
    (ho : o ∈ B b) (hu : (t.pools b).rd o .used = 0)
    (hfit : k+realdataSize ≤ (t.pools b).rd o .size) :
    ∃ u, t.store (payload b o) k (fun i => t.load env (src+i)) = .ok u ∧
      Filled env t u ps fs ls M B (payload b o) src k (smallView t b o) 0 := by
  have hview := view_small hc hb ho
  rcases Nat.eq_zero_or_pos k with rfl | hk
  · obtain ⟨-, hle, -, -⟩ := block_bounds hc hb ho
    obtain ⟨hlive, -, -, h208⟩ := pool_range hc hb
    refine ⟨t, store_none hlive (by simp [poolChunk]) (Or.inl ?_) ?_,
      filled_none hc hview hu fun _ hi => absurd hi (Nat.not_lt_zero _)⟩
    · simp only [poolChunk, payload]
      omega
    · simp only [poolChunk, payload, mempoolSize, realdataSize] at *
      omega
  · obtain ⟨u, hstore, hcu, hw, -⟩ := store_small (f := fun i => t.load env (src+i)) (n := k)
      (d := o+realdataSize) hc hb ho hk (Nat.le_refl _) (by omega)
    have haddr : b+mempoolSize+(o+realdataSize) = payload b o := by
      rw [payload]
      omega
    rw [haddr] at hstore
    exact ⟨u, hstore, filled_store hc hcu hw (Or.inl ⟨b, hb, o, ho, rfl⟩) hview hu hfit hstore⟩

theorem filled_large (env : Env) (hc : Core t ps fs [] ls M B) (ha : a ∈ ls)
    (hu : largeUsed (t.larges a) = 0) (hfit : k+largeSize ≤ largeBytes (t.larges a)) :
    ∃ u, t.store (a+largeSize) k (fun i => t.load env (src+i)) = .ok u ∧
      Filled env t u ps fs ls M B (a+largeSize) src k (largeView t a) 0 := by
  have hview := view_large hc ha
  rcases Nat.eq_zero_or_pos k with rfl | hk
  · refine ⟨t, store_none (hc.large_live ha) (by simp [largeChunk]) (Or.inr ⟨rfl, ?_⟩) ?_,
      filled_none hc hview hu fun _ hi => absurd hi (Nat.not_lt_zero _)⟩
    · simp only [largeChunk]
      omega
    · simp only [largeChunk]
      omega
  · obtain ⟨u, hstore, hcu, hw, -⟩ := store_large (f := fun i => t.load env (src+i)) (n := k)
      (d := largeSize) hc ha hk (Nat.le_refl _) (by omega)
    exact ⟨u, hstore, filled_store hc hcu hw (Or.inr ⟨a, ha, rfl⟩) hview hu hfit hstore⟩

theorem Filled.linked (h : Filled env t u ps fs ls M B q src k w m) (hb : b ∈ t.base :: ps) :
    b ∈ u.base :: ps := h.untouched.base.symm ▸ hb

/-- Another mark for the block that was filled. -/
theorem Filled.mark_small (h : Filled env t u ps fs ls M B (payload b o) src k w m)
    (hc : Core t ps fs [] ls M B) (hb : b ∈ t.base :: ps) (ho : o ∈ B b) (hw : w = smallView t b o)
    (hm : m+w.header ≤ w.size) (hn : n < 65536) :
    Filled env t (u.setPool b ((u.pools b).setRd o .used n)) ps fs ls M B (payload b o) src k w n
    where
  core := (setUsed_core h.core (h.linked hb) ho hn).1
  untouched := h.untouched.trans (untouched_setPool _ _ _)
  marked hfit := by
    have hbu := h.linked hb
    have hsame := (h.marked hm).blocks b hb o ho
    apply (h.marked hm).trans (MempoolStore.mark_small h.core hbu ho _).2
    rw [hsame.1]
    subst hw
    exact hfit
  view := by
    have hbu := h.linked hb
    have hsame := (h.marked hm).blocks b hb o ho
    rw [(mark_small_view env h.core hbu ho hn).1, hsame.1, hw]
    rfl
  others y hy hne := by
    have hbu := h.linked hb
    obtain ⟨hcore, hblk, -⟩ := setUsed_core h.core hbu ho hn
    rw [← h.others y hy hne]
    rcases hy with ⟨c, hcm, p, hp, rfl⟩ | ⟨a, ha, rfl⟩
    · have hcu := h.linked hcm
      obtain ⟨h1, h2⟩ := hblk c hcu p hp
      rw [if_neg (by rintro ⟨rfl, rfl⟩; exact hne rfl)] at h2
      rw [view_small h.core hcu hp, view_small hcore hcu hp, smallView, smallView, h1, h2]
    · rw [view_large h.core ha, view_large hcore ha]
      rfl
  flags := h.flags
  bytes i hi := by
    have hbu := h.linked hb
    by_cases hui : u.load env i = t.load env i
    · have hmark := (mark_small_view env h.core hbu ho hn).2.2 i (hui.symm ▸ hi)
      have h16 := (block_bounds hc hb ho).1
      subst hw
      refine ⟨?_, ?_⟩
      · show payload b o ≤ i+realdataSize
        rw [realdataSize]
        omega
      · show i+realdataSize < payload b o+(t.pools b).rd o .size
        rw [realdataSize]
        omega
    · exact h.bytes i hui
  copied i hi := by
    have hbu := h.linked hb
    rw [← h.copied i hi]
    by_contra hne
    have hmark := (mark_small_view env h.core hbu ho hn).2.2 _ hne
    omega

theorem Filled.mark_large (h : Filled env t u ps fs ls M B (a+largeSize) src k w m)
    (ha : a ∈ ls) (hw : w = largeView t a) (hm : m+w.header ≤ w.size) (hn : n < 2^32) :
    Filled env t (u.setLarge a (store32 (u.larges a) 8 n)) ps fs ls M B (a+largeSize) src k w n
    where
  core := (setLarge_mark h.core hn).1
  untouched := h.untouched.trans (untouched_setLarge _ _ _)
  marked hfit := by
    have hsame := (h.marked hm).larges a ha
    apply (h.marked hm).trans (MempoolStore.mark_large h.core hn _).2
    rw [hsame.2.1]
    subst hw
    exact Or.inr hfit
  view := by
    obtain ⟨hcore, hfields⟩ := @setLarge_mark u ps fs ls M B a n h.core hn
    obtain ⟨-, h1, h2⟩ := hfields a
    rw [if_pos rfl] at h2
    rw [view_large hcore ha, largeView, h1, h2, ((h.marked hm).larges a ha).2.1, hw]
    rfl
  others y hy hne := by
    obtain ⟨hcore, hfields⟩ := @setLarge_mark u ps fs ls M B a n h.core hn
    rw [← h.others y hy hne]
    rcases hy with ⟨c, hcm, p, hp, rfl⟩ | ⟨d, hd, rfl⟩
    · have hcu := h.linked hcm
      rw [view_small h.core hcu hp, view_small hcore hcu hp]
      rfl
    · obtain ⟨-, h1, h2⟩ := hfields d
      rw [if_neg (by rintro rfl; exact hne rfl)] at h2
      rw [view_large h.core hd, view_large hcore hd, largeView, largeView, h1, h2]
  flags d hd := ((setLarge_mark h.core hn).2 d).1.trans (h.flags d hd)
  bytes i hi := by
    by_cases hui : u.load env i = t.load env i
    · obtain ⟨hge, hne⟩ := load_setLarge (hui.symm ▸ hi)
      have hin : ¬(i-a < 8 ∨ 8+4 ≤ i-a) := fun h => hne (store32_frame _ _ h)
      subst hw
      have hroom : m+largeSize ≤ largeBytes (t.larges a) := hm
      rw [largeSize] at hroom
      refine ⟨?_, ?_⟩
      · show a+largeSize ≤ i+largeSize
        omega
      · show i+largeSize < a+largeSize+largeBytes (t.larges a)
        rw [largeSize]
        omega
    · exact h.bytes i hui
  copied i hi := by
    rw [← h.copied i hi]
    by_contra hne
    obtain ⟨hge, hne⟩ := load_setLarge hne
    rw [largeSize] at hne
    exact hne (store32_frame _ _ (by omega))

theorem Filled.old_small (h : Filled env t u ps fs ls M B q src k w m)
    (hc : Core t ps fs [] ls M B) (hb : b ∈ t.base :: ps) (ho : o ∈ B b) (hne : payload b o ≠ q) :
    (u.pools b).rd o .used = (t.pools b).rd o .used := by
  have hview := h.others _ (Or.inl ⟨b, hb, o, ho, rfl⟩) hne
  rw [view_small hc hb ho, view_small h.core (h.linked hb) ho, Option.some_inj] at hview
  exact congrArg View.used hview

theorem Filled.old_large (h : Filled env t u ps fs ls M B q src k w m)
    (hc : Core t ps fs [] ls M B) (ha : a ∈ ls) (hne : a+largeSize ≠ q) :
    largeUsed (u.larges a) = largeUsed (t.larges a) := by
  have hview := h.others _ (Or.inr ⟨a, ha, rfl⟩) hne
  rw [view_large hc ha, view_large h.core ha, Option.some_inj] at hview
  exact congrArg View.used hview

theorem Filled.less (h : Filled env t u ps fs ls M B q src k w m) (hle : n ≤ k) :
    Filled env t u ps fs ls M B q src n w m :=
  { h with copied := fun i hi => h.copied i (Nat.lt_of_lt_of_le hi hle) }

theorem Filled.stays (h : Filled env t u ps fs ls M B q src k w m) (hc : Core t ps fs [] ls M B)
    (hq : Block t.base ps ls B q) (hw : MempoolAppend.view t q = some w)
    (hy : Block t.base ps ls B y) (hne : y ≠ q) : Stays env t u y := by
  obtain ⟨v, hv⟩ := block_view hc hy
  refine ⟨v, hv, (h.others y hy hne).trans hv, fun i hi => ?_⟩
  by_contra hload
  apply block_apart hc hy hq hne hv hw
  exact ⟨⟨by omega, by omega⟩, h.bytes _ hload⟩

end Filling

section Copying

variable {t : State} {ps fs ls M : List ℕ} {B : ℕ → List ℕ} {a b o k q x : ℕ} {v w : View}

theorem header_le (hc : Core t ps fs [] ls M B) (hx : Block t.base ps ls B x)
    (hv : view t x = some v) : v.header ≤ x := by
  rcases hx with ⟨b, hb, o, ho, rfl⟩ | ⟨a, ha, rfl⟩
  · rw [view_small hc hb ho, Option.some_inj] at hv
    subst hv
    exact Nat.le_add_left _ _
  · rw [view_large hc ha, Option.some_inj] at hv
    subst hv
    exact Nat.le_add_left _ _

/-- The tests of `__pmemcpy` let a copy from one block to an empty other one through. -/
theorem copies_blocks (hc : Core t ps fs [] ls M B) (hx : Block t.base ps ls B x)
    (hq : Block t.base ps ls B q) (hne : x ≠ q) (hv : view t x = some v) (hw : view t q = some w)
    (hu : w.used = 0) (hsz : w.size < 2^32) (hfrom : k+v.header ≤ v.size)
    (hto : k+w.header ≤ w.size) : Copies w q x k := by
  have hxv := header_le hc hx hv
  have hqw := header_le hc hq hw
  have hpos : ∀ z : View, 0 < z.header := by
    intro z
    rw [View.header]
    split <;> decide
  have hv0 := hpos v
  have hw0 := hpos w
  have happ := fun i => @block_apart t ps fs ls M B i x q v w hc hx hq hne hv hw
  rw [Copies, hu, usub_of_le (show w.header ≤ w.size by omega) hsz, usub_of_le (by omega) (by omega)]
  refine ⟨by omega, ?_⟩
  -- the later of the two headers starts in the block of the other one
  by_cases hlater : q-w.header ≤ x-v.header
  · have hi := happ (x-v.header)
    simp only [Covers] at hi
    omega
  · have hi := happ (q-w.header)
    simp only [Covers] at hi
    omega

theorem copy_small (env : Env) (hc : Core t ps fs [] ls M B) (hb : b ∈ t.base :: ps) (ho : o ∈ B b)
    (hM : b ∈ M) (hu : (t.pools b).rd o .used = 0) (hx : Block t.base ps ls B x)
    (hne : x ≠ payload b o) (hv : view t x = some v) (hfrom : k+v.header ≤ v.size)
    (hto : k+realdataSize ≤ (t.pools b).rd o .size) :
    ∃ u, pmemcpyExtra env t (payload b o) x k = .ok (u, some (payload b o)) ∧
      Filled env t u ps fs ls M B (payload b o) x k (smallView t b o) k := by
  have hlt : (t.pools b).rd o .size < 65536 := rd_lt
  have hcp : Copies (smallView t b o) (payload b o) x k :=
    copies_blocks hc hx (Or.inl ⟨b, hb, o, ho, rfl⟩) hne hv (view_small hc hb ho) hu
      (Nat.lt_trans hlt (by decide)) hfrom hto
  obtain ⟨u, hstore, hfill⟩ := @filled_small t ps fs ls M B b o k x env hc hb ho hu hto
  have hreal := checkRealdata_small hc hb ho
  rw [if_pos hM] at hreal
  have hrun := @pmemcpyExtra_small t b o k x env (payload b o) b (checkLarge_small hc hb ho) hreal
  have hbytes : pmemcpyBytes env t (payload b o) (usub 32 ((t.pools b).rd o .size) realdataSize)
      ((t.pools b).rd o .used) x k = .ok (u, toInt32 k) := by
    apply pmemcpyBytes_done (v := smallView t b o) env hcp
    rw [show (smallView t b o).used = 0 from hu, Nat.add_zero]
    exact hstore
  rw [toInt32_of_lt (by omega)] at hbytes
  rw [hrun, pmemcpySmall, hbytes, ok_bind]
  dsimp only
  have hroom : 0+(smallView t b o).header ≤ (smallView t b o).size := by
    show 0+realdataSize ≤ (t.pools b).rd o .size
    omega
  have hused : (u.pools b).rd o .used = 0 := by
    have h := hfill.view
    rw [view_small hfill.core (hfill.linked hb) ho, Option.some_inj] at h
    exact congrArg View.used h
  rcases Nat.eq_zero_or_pos k with rfl | hk
  · exact ⟨u, by rw [if_neg (by omega)], hfill⟩
  · refine ⟨_, by rw [if_pos (by omega)], ?_⟩
    rw [Int.toNat_natCast, hused, Nat.zero_add]
    exact hfill.mark_small hc hb ho rfl hroom (by omega)

theorem copy_large (env : Env) (hc : Core t ps fs [] ls M B) (ha : a ∈ ls)
    (hu : largeUsed (t.larges a) = 0) (hx : Block t.base ps ls B x) (hne : x ≠ a+largeSize)
    (hv : view t x = some v) (hfrom : k+v.header ≤ v.size)
    (hto : k+largeSize ≤ largeBytes (t.larges a)) :
    ∃ u m, pmemcpyExtra env t (a+largeSize) x k = .ok (u, some (a+largeSize)) ∧
      Filled env t u ps fs ls M B (a+largeSize) x k (largeView t a) m ∧
      m+largeSize ≤ largeBytes (t.larges a) ∧ (k < 2^31 → m = k) := by
  have hlt : largeBytes (t.larges a) < 2^32 := load32_lt _ _
  have hcp : Copies (largeView t a) (a+largeSize) x k :=
    copies_blocks hc hx (Or.inr ⟨a, ha, rfl⟩) hne hv (view_large hc ha) hu hlt hfrom hto
  obtain ⟨u, hstore, hfill⟩ := @filled_large t ps fs ls M B a k x env hc ha hu hto
  have hbytes : pmemcpyBytes env t (a+largeSize) (usub 32 (largeBytes (t.larges a)) largeSize)
      (largeUsed (t.larges a)) x k = .ok (u, toInt32 k) := by
    apply pmemcpyBytes_done (v := largeView t a) env hcp
    rw [show (largeView t a).used = 0 from hu, Nat.add_zero]
    exact hstore
  rw [pmemcpyExtra_large env hc ha, hbytes, ok_bind]
  dsimp only
  have hroom : 0+(largeView t a).header ≤ (largeView t a).size := by
    show 0+largeSize ≤ largeBytes (t.larges a)
    omega
  have hused : largeUsed (u.larges a) = 0 := by
    have h := hfill.view
    rw [view_large hfill.core ha, Option.some_inj] at h
    exact congrArg View.used h
  by_cases hpos : toInt32 k > 0
  · have hk := toInt32_pos hpos
    rw [Nat.mod_eq_of_lt (by omega)] at hk
    refine ⟨_, k, by rw [if_pos hpos], ?_, hto, fun _ => rfl⟩
    rw [hk, hused, Nat.zero_add]
    exact hfill.mark_large ha rfl hroom (by omega)
  · refine ⟨u, 0, by rw [if_neg hpos], hfill, by omega, fun h31 => ?_⟩
    rw [toInt32_of_lt h31] at hpos
    omega

end Copying

section Moving

def moveLarge (env : Env) (s : State) (addr newaddr newsize : ℕ) : Run State := do
  let large := usub 64 addr largeSize
  let size := usub 32 (largeBytes (s.larges large)) largeSize
  let (s, _) ← pmemcpyExtra env s newaddr addr (if size > newsize then newsize else size)
  s.store (newaddr-largeSize+8) 4 (word 4 (largeUsed (s.larges large)))

def moveSmall (env : Env) (s : State) (addr newaddr newsize pool realdata : ℕ) : Run State := do
  let size := usub 32 ((s.pools pool).rd realdata .size) realdataSize
  let (s, _) ← pmemcpyExtra env s newaddr addr (if size > newsize then newsize else size)
  s.store (newaddr-realdataSize+12) 2 (word 2 ((s.pools pool).rd realdata .used))

variable {s t u : State} {ps fs ls M : List ℕ} {B : ℕ → List ℕ} {a b c e n o p r : ℕ}

theorem reallocLarge_eq (env : Env) (fuel addr newsize : ℕ) :
    reallocLarge env fuel s addr newsize =
      if largeBytes (s.larges (usub 64 addr largeSize)) = newsize then .ok (s, none)
      else (do
        let (s, newaddr) ← palloc env fuel s newsize
        match newaddr with
        | none => .ok (s, none)
        | some newaddr => do
          let s ← moveLarge env s addr newaddr newsize
          let (s, _) ← pfree s addr
          .ok (s, some newaddr)) := by
  rw [reallocLarge]
  split
  · rfl
  · cases palloc env fuel s newsize with
    | error e => rfl
    | ok r =>
      obtain ⟨t, newaddr⟩ := r
      cases newaddr with
      | none => rfl
      | some newaddr => simp only [ok_bind, moveLarge, bind_assoc]

theorem reallocSmall_eq (env : Env) (fuel addr newsize pool realdata : ℕ) :
    reallocSmall env fuel s addr newsize pool realdata =
      if (s.pools pool).rd realdata .size ≥ newsize then .ok (s, none)
      else (do
        let (s, newaddr) ← palloc env fuel s newsize
        match newaddr with
        | none => .ok (s, none)
        | some newaddr => do
          let s ← moveSmall env s addr newaddr newsize pool realdata
          let (s, _) ← pfree s addr
          .ok (s, some newaddr)) := by
  rw [reallocSmall]
  split
  · rfl
  · cases palloc env fuel s newsize with
    | error e => rfl
    | ok r =>
      obtain ⟨t, newaddr⟩ := r
      cases newaddr with
      | none => rfl
      | some newaddr => simp only [ok_bind, moveSmall, bind_assoc]

theorem moveSmall_small (env : Env) (hc : Core t ps fs [] ls M B) (hp : p ∈ t.base :: ps)
    (hr : r ∈ B p) (hb : b ∈ t.base :: ps) (ho : o ∈ B b) (hM : b ∈ M)
    (hu : (t.pools b).rd o .used = 0) (hne : payload p r ≠ payload b o)
    (hsize : c+realdataSize = (t.pools p).rd r .size) (hn : c ≤ n)
    (hto : c+realdataSize ≤ (t.pools b).rd o .size) :
    ∃ u, moveSmall env t (payload p r) (payload b o) n p r = .ok u ∧
      Filled env t u ps fs ls M B (payload b o) (payload p r) c (smallView t b o)
        ((t.pools p).rd r .used) := by
  have hlt : (t.pools p).rd r .size < 65536 := rd_lt
  obtain ⟨u, hcopy, hfill⟩ := @copy_small t ps fs ls M B b o c (payload p r) _ env hc hb ho hM hu
    (Or.inl ⟨p, hp, r, hr, rfl⟩) hne (view_small hc hp hr) (Nat.le_of_eq hsize) hto
  have hold := hfill.old_small hc hp hr hne
  refine ⟨_, ?_, hfill.mark_small hc hb ho rfl hto rd_lt⟩
  rw [moveSmall]
  dsimp only
  rw [usub_of_le (by omega) (by omega), ← hsize, Nat.add_sub_cancel, if_neg (by omega), hcopy,
    ok_bind]
  dsimp only
  rw [hold, store_used hfill.core (hfill.linked hb) ho]

/-- A small block replaced by a large one: the mark is that of the copy in its lowest
byte and the old one above. -/
theorem moveSmall_large (env : Env) (hc : Core t ps fs [] ls M B) (hp : p ∈ t.base :: ps)
    (hr : r ∈ B p) (ha : a ∈ ls) (hu : largeUsed (t.larges a) = 0)
    (hsize : c+realdataSize = (t.pools p).rd r .size) (hn : c ≤ n)
    (hto : c+largeSize ≤ largeBytes (t.larges a)) :
    ∃ u, moveSmall env t (payload p r) (a+largeSize) n p r = .ok u ∧
      Filled env t u ps fs ls M B (a+largeSize) (payload p r) c (largeView t a)
        (c % 256+256*(t.pools p).rd r .used) := by
  have hlt : (t.pools p).rd r .size < 65536 := rd_lt
  have hused : (t.pools p).rd r .used < 65536 := rd_lt
  have hne := payload_ne_large hc hp hr ha
  obtain ⟨u, m, hcopy, hfill, hroom, hm⟩ := @copy_large t ps fs ls M B a c (payload p r) _ env hc ha
    hu (Or.inl ⟨p, hp, r, hr, rfl⟩) hne (view_small hc hp hr) (Nat.le_of_eq hsize) hto
  obtain rfl := hm (by omega)
  have hold := hfill.old_small hc hp hr hne
  have hview := hfill.view
  rw [view_large hfill.core ha, Option.some_inj] at hview
  have hmark : largeUsed (u.larges a) = m := congrArg View.used hview
  have hbytes : largeBytes (u.larges a) = largeBytes (t.larges a) := congrArg View.size hview
  refine ⟨_, ?_, hfill.mark_large ha rfl hto (by omega)⟩
  rw [moveSmall]
  dsimp only
  rw [usub_of_le (by omega) (by omega), ← hsize, Nat.add_sub_cancel, if_neg (by omega), hcopy,
    ok_bind]
  dsimp only
  rw [hold, store_inside hfill.core ha (by rw [hbytes]; omega) hmark (by omega) hused]

/-- A large block replaced by a large one. -/
theorem moveLarge_large (env : Env) (hc : Core t ps fs [] ls M B) (he : e ∈ ls) (ha : a ∈ ls)
    (hu : largeUsed (t.larges a) = 0) (hne : e ≠ a)
    (hsize : c+largeSize = largeBytes (t.larges e))
    (hto : min c n+largeSize ≤ largeBytes (t.larges a)) :
    ∃ u, moveLarge env t (e+largeSize) (a+largeSize) n = .ok u ∧
      Filled env t u ps fs ls M B (a+largeSize) (e+largeSize) (min c n) (largeView t a)
        (largeUsed (t.larges e)) := by
  have hlt : largeBytes (t.larges e) < 2^32 := load32_lt _ _
  have hne' : e+largeSize ≠ a+largeSize := fun h => hne (Nat.add_right_cancel h)
  have hk : (if c > n then n else c) = min c n := by
    split <;> omega
  obtain ⟨u, m, hcopy, hfill, hroom, -⟩ := @copy_large t ps fs ls M B a (min c n) (e+largeSize) _ env
    hc ha hu (Or.inr ⟨e, he, rfl⟩) hne' (view_large hc he)
    (show min c n+largeSize ≤ largeBytes (t.larges e) by omega) hto
  have hold := hfill.old_large hc he hne'
  have hview := hfill.view
  rw [view_large hfill.core ha, Option.some_inj] at hview
  have hbytes : largeBytes (u.larges a) = largeBytes (t.larges a) := congrArg View.size hview
  refine ⟨_, ?_, hfill.mark_large ha rfl hroom (load32_lt _ _)⟩
  rw [moveLarge]
  dsimp only
  rw [usub_largeSize hc he, usub_of_le (by omega) hlt, ← hsize, Nat.add_sub_cancel, hk, hcopy,
    ok_bind]
  dsimp only
  rw [hold, Nat.add_sub_cancel, store_mark hfill.core ha (by rw [hbytes]; omega)]

/-- A large block replaced by a small one: the mark goes over four bytes of the
header. -/
theorem moveLarge_small (env : Env) (hc : Core t ps fs [] ls M B) (he : e ∈ ls)
    (hb : b ∈ t.base :: ps) (ho : o ∈ B b) (hM : b ∈ M) (hu : (t.pools b).rd o .used = 0)
    (hsize : c+largeSize = largeBytes (t.larges e))
    (hto : min c n+realdataSize ≤ (t.pools b).rd o .size) :
    ∃ u, Filled env t u ps fs ls M B (payload b o) (e+largeSize) (min c n) (smallView t b o)
        (min c n) ∧
      moveLarge env t (e+largeSize) (payload b o) n = .ok (u.setPool b { u.pools b with
        data := State.splice (u.pools b).data (o+11) 4 (word 4 (largeUsed (t.larges e))) }) := by
  have hlt : largeBytes (t.larges e) < 2^32 := load32_lt _ _
  have hne := (payload_ne_large hc hb ho he).symm
  have hk : (if c > n then n else c) = min c n := by
    split <;> omega
  obtain ⟨u, hcopy, hfill⟩ := @copy_small t ps fs ls M B b o (min c n) (e+largeSize) _ env hc hb ho hM
    hu (Or.inr ⟨e, he, rfl⟩) hne (view_large hc he)
    (show min c n+largeSize ≤ largeBytes (t.larges e) by omega) hto
  have hold := hfill.old_large hc he hne
  refine ⟨u, hfill, ?_⟩
  rw [moveLarge]
  dsimp only
  rw [usub_largeSize hc he, usub_of_le (by omega) hlt, ← hsize, Nat.add_sub_cancel, hk, hcopy,
    ok_bind]
  dsimp only
  rw [hold, store_over hfill.core (hfill.linked hb) ho]

end Moving

end CLearning.MempoolRealloc
