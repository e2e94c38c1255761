import CLearning.LinkedLists
import CLearning.MempoolPool
import Mathlib.Data.List.Chain

/-!
# The heap invariant of one pool

The blocks of a pool are described by the list of their offsets in address
order and by one list of offsets for each of the five free lists and for the
busy list. Everything else the invariant says is read from the headers. The
free-list operations are specified here: each changes the links of one list
and leaves every other header field, and every byte outside the headers, alone.
-/

set_option autoImplicit false

namespace CLearning.MempoolHeap
open CLearning.Machine CLearning.LinkedLists CLearning.MempoolBytes CLearning.MempoolPool

inductive Cls where
  | free (i : Fin 5)
  | busy
  deriving DecidableEq

def heads (p : Pool) : Cls → Option ℕ
  | .free i => p.freelist i
  | .busy => p.busylist

def listLinks (p : Pool) : Links ℕ :=
  ⟨fun o => ref (p.rd o .prev), fun o => ref (p.rd o .next)⟩

def realLinks (p : Pool) : Links ℕ :=
  ⟨fun o => ref (p.rd o .realprev), fun o => ref (p.rd o .realnext)⟩

def Tiles (p : Pool) : ℕ → List ℕ → ℕ → Prop
  | o, [], e => o = e
  | o, a :: T, e => a = o ∧ 16 ≤ p.rd a .size ∧ Tiles p (o+p.rd a .size) T e

def Settled (p : Pool) (a b : ℕ) : Prop := ¬(p.status a = 0 ∧ p.status b = 0)

def freeBytes (p : Pool) (T : List ℕ) : ℕ :=
  ((T.filter (p.status · = 0)).map (p.rd · .size)).sum

/-- The pool sizes that leave room for a header and a byte; `mempool_init_extra`
admits none above `MEMPOOL_MAXSIZE`. -/
def SizeOk (n : ℕ) : Prop := mempoolSize+realdataSize < n ∧ n ≤ 65536

structure HeapInv (p : Pool) (T : List ℕ) (L : Cls → List ℕ) : Prop where
  size_ok : SizeOk p.pool_size
  tiles : Tiles p 0 T (p.pool_size-mempoolSize)
  offset : ∀ a ∈ T, p.rd a .offset = a
  order : Seg (realLinks p) none T none
  lists : Family (listLinks p) (heads p) L
  status : ∀ a ∈ T, p.status a = 0 ∨ p.status a = 1
  mem_free : ∀ a, (∃ i, a ∈ L (.free i)) ↔ a ∈ T ∧ p.status a = 0
  mem_busy : ∀ a, a ∈ L .busy ↔ a ∈ T ∧ p.status a = 1
  classes : L .busy ≠ [] → ∀ i, ∀ a ∈ L (.free i), getFreeidx (p.rd a .size) = i
  pristine : L .busy = [] → T = L (.free 4)
  coalesced : T.IsChain (Settled p)
  left : p.leftsize = freeBytes p T

section Stores

variable {p : Pool} {T : List ℕ} {o x v : ℕ} {f g : Field}

def Grid (T : List ℕ) : Prop := ∀ a ∈ T, ∀ b ∈ T, a = b ∨ Apart a b

def Outside (T : List ℕ) (x : ℕ) : Prop := ∀ o ∈ T, x < o ∨ o+15 ≤ x

@[simp] theorem setRd_freelist : (p.setRd o f v).freelist = p.freelist := rfl
@[simp] theorem setRd_busylist : (p.setRd o f v).busylist = p.busylist := rfl
@[simp] theorem setRd_pool_size : (p.setRd o f v).pool_size = p.pool_size := rfl
@[simp] theorem setStatus_freelist : (p.setStatus o v).freelist = p.freelist := rfl
@[simp] theorem setStatus_busylist : (p.setStatus o v).busylist = p.busylist := rfl

theorem setRd?_some : p.setRd? (some o) f v = p.setRd o f v := rfl
theorem setRd?_none : p.setRd? none f v = p := rfl

theorem setRd?_same (o : Option ℕ) :
    p.setRd? o f v = { p with data := (p.setRd? o f v).data } := by
  cases o <;> rfl

@[simp] theorem setRd?_freelist (o : Option ℕ) : (p.setRd? o f v).freelist = p.freelist := by
  cases o <;> rfl

@[simp] theorem setRd?_busylist (o : Option ℕ) : (p.setRd? o f v).busylist = p.busylist := by
  cases o <;> rfl

@[simp] theorem setFreelist_rd (i : Fin 5) (a : Option ℕ) :
    (p.setFreelist i a).rd o f = p.rd o f := rfl

@[simp] theorem setFreelist_status (i : Fin 5) (a : Option ℕ) :
    (p.setFreelist i a).status o = p.status o := rfl

@[simp] theorem setFreelist_busylist (i : Fin 5) (a : Option ℕ) :
    (p.setFreelist i a).busylist = p.busylist := rfl

theorem setFreelist_freelist (i : Fin 5) (a : Option ℕ) :
    (p.setFreelist i a).freelist = Function.update p.freelist i a := rfl

theorem setRd_self (h : p.rd o f = v) : p.setRd o f v = p := by
  subst h
  rw [Pool.setRd, Pool.rd, set_get]

theorem rd_lt : p.rd o f < 65536 := get_lt _ _ _

theorem rd_setRd (hT : Grid T) (ho : o ∈ T) (hx : x ∈ T) (hv : v < 65536) :
    (p.setRd o f v).rd x g = if x = o ∧ g = f then v else p.rd x g :=
  get_set (hT o ho x hx) hv

theorem rd_setRd? {o : Option ℕ} (hT : Grid T) (ho : ∀ a, o = some a → a ∈ T) (hx : x ∈ T)
    (hv : v < 65536) :
    (p.setRd? o f v).rd x g = if o = some x ∧ g = f then v else p.rd x g := by
  cases o with
  | none => simp [setRd?_none]
  | some o =>
    rw [setRd?_some, rd_setRd hT (ho o rfl) hx hv]
    simp [eq_comm]

theorem rd_setRd?_ne {o : Option ℕ} (hT : Grid T) (ho : ∀ a, o = some a → a ∈ T) (hx : x ∈ T)
    (hv : v < 65536) (hg : g ≠ f) : (p.setRd? o f v).rd x g = p.rd x g := by
  rw [rd_setRd? hT ho hx hv, if_neg (fun h => hg h.2)]

theorem status_setRd (hT : Grid T) (ho : o ∈ T) (hx : x ∈ T) :
    (p.setRd o f v).status x = p.status x :=
  status_set (hT o ho x hx)

theorem status_setRd? {o : Option ℕ} (hT : Grid T) (ho : ∀ a, o = some a → a ∈ T)
    (hx : x ∈ T) : (p.setRd? o f v).status x = p.status x := by
  cases o with
  | none => rfl
  | some o => exact status_setRd hT (ho o rfl) hx

theorem rd_setStatus (hT : Grid T) (ho : o ∈ T) (hx : x ∈ T) :
    (p.setStatus o v).rd x g = p.rd x g :=
  get_setStatus (hT o ho x hx)

theorem status_setStatus (hv : v < 256) :
    (p.setStatus o v).status x = if x = o then v else p.status x :=
  get_status_setStatus hv

theorem data_setRd (ho : o ∈ T) (hx : Outside T x) : (p.setRd o f v).data x = p.data x :=
  set_frame (hx o ho)

theorem data_setRd? {o : Option ℕ} (ho : ∀ a, o = some a → a ∈ T) (hx : Outside T x) :
    (p.setRd? o f v).data x = p.data x := by
  cases o with
  | none => rfl
  | some o => exact data_setRd (ho o rfl) hx

theorem data_setStatus (ho : o ∈ T) (hx : Outside T x) :
    (p.setStatus o v).data x = p.data x :=
  setStatus_frame (hx o ho)

end Stores

section Lists

variable {p p' : Pool} {T : List ℕ} {L : Cls → List ℕ} {o : ℕ} {i : Fin 5}

structure ListEdit (T : List ℕ) (p p' : Pool) : Prop where
  rd : ∀ x ∈ T, ∀ f, f ≠ .prev → f ≠ .next → p'.rd x f = p.rd x f
  status : ∀ x ∈ T, p'.status x = p.status x
  data : ∀ x, Outside T x → p'.data x = p.data x
  same : p' = { p with freelist := p'.freelist, busylist := p'.busylist, data := p'.data }

theorem ListEdit.trans {q : Pool} (h : ListEdit T p p') (h' : ListEdit T p' q) :
    ListEdit T p q where
  rd x hx f hp hn := (h'.rd x hx f hp hn).trans (h.rd x hx f hp hn)
  status x hx := (h'.status x hx).trans (h.status x hx)
  data x hx := (h'.data x hx).trans (h.data x hx)
  same := by rw [h'.same, h.same]

theorem ref_null : ref NULL = none := rfl

theorem null_lt : NULL < 65536 := by decide

theorem lt_of_lt_null {a : ℕ} (h : a < NULL) : a < 65536 := Nat.lt_trans h null_lt

theorem ref_of_lt {a : ℕ} (h : a < NULL) : ref a = some a := ref_eq_some.mpr ⟨rfl, Nat.ne_of_lt h⟩

theorem next_mem (hf : Family (listLinks p) (heads p) L) (hL : ∀ c, ∀ a ∈ L c, a ∈ T) {c : Cls}
    (ho : o ∈ L c) {a : ℕ} (ha : ref (p.rd o .next) = some a) : a ∈ T :=
  hL c a ((hf.seg c).next_mem ho ha)

theorem prev_mem (hf : Family (listLinks p) (heads p) L) (hL : ∀ c, ∀ a ∈ L c, a ∈ T) {c : Cls}
    (ho : o ∈ L c) {a : ℕ} (ha : ref (p.rd o .prev) = some a) : a ∈ T :=
  hL c a ((hf.seg c).prev_mem ho ha)

theorem removeFreenode_spec (idx : Option (Fin 5)) (hT : Grid T) (hL : ∀ c, ∀ a ∈ L c, a ∈ T)
    (hf : Family (listLinks p) (heads p) L) (ho : o ∈ L (.free i))
    (hi : idx.getD (getFreeidx (p.rd o .size)) = i) :
    Family (listLinks (removeFreenode p o idx)) (heads (removeFreenode p o idx))
      (Function.update L (.free i) ((L (.free i)).erase o)) ∧
    ListEdit T p (removeFreenode p o idx) := by
  have hn : ∀ a, ref (p.rd o .next) = some a → a ∈ T := fun a => next_mem hf hL ho
  have hp : ∀ a, ref (p.rd o .prev) = some a → a ∈ T := fun a => prev_mem hf hL ho
  by_cases hh : p.freelist i = some o
  · have hpo : ref (p.rd o .prev) = none := (hf.prev_eq_none_iff ho).mpr hh
    have he : removeFreenode p o idx =
        (p.setFreelist i (ref (p.rd o .next))).setRd? (ref (p.rd o .next)) .prev NULL := by
      simp [removeFreenode, hi, hh]
    rw [he]
    constructor
    · refine hf.unlink ho (fun j x hx _ => ?_) (fun j x hx _ => ?_) ?_ (fun j hj => ?_)
      · simp [listLinks, rd_setRd? hT hn (hL j x hx) null_lt, hpo]
      · simp only [listLinks, rd_setRd? hT hn (hL j x hx) null_lt, setFreelist_rd, and_true, hpo]
        split <;> rfl
      · simp [heads, hh, setFreelist_freelist, listLinks]
      · cases j with
        | busy => simp [heads]
        | free j =>
          have hji : j ≠ i := fun h => hj (h ▸ rfl)
          simp [heads, setFreelist_freelist, hji]
    · refine ⟨fun x hx f hfp _ => ?_, fun x hx => ?_, fun x hx => ?_, ?_⟩
      · rw [rd_setRd?_ne hT hn hx null_lt hfp, setFreelist_rd]
      · rw [status_setRd? hT hn hx, setFreelist_status]
      · exact data_setRd? hn hx
      · cases ref (p.rd o .next) <;> rfl
  · obtain ⟨q, hq⟩ : ∃ q, ref (p.rd o .prev) = some q := by
      rw [← Option.ne_none_iff_exists']
      exact fun h => hh ((hf.prev_eq_none_iff ho).mp h)
    have hqT := hp q hq
    obtain ⟨hqv, -⟩ := ref_eq_some.mp hq
    have hoT := hL _ o ho
    have he : removeFreenode p o idx =
        (p.setRd q .next (p.rd o .next)).setRd? (ref (p.rd o .next)) .prev (p.rd o .prev) := by
      simp [removeFreenode, hi, hh, hqv, rd_setRd hT hqT hoT rd_lt]
    rw [he]
    constructor
    · refine hf.unlink ho (fun j x hx _ => ?_) (fun j x hx _ => ?_) ?_ (fun j _ => ?_)
      · have hxT := hL j x hx
        simp [listLinks, rd_setRd? hT hn hxT rd_lt, rd_setRd hT hqT hxT rd_lt, hq,
          apply_ite ref, eq_comm]
      · have hxT := hL j x hx
        simp only [listLinks, rd_setRd? hT hn hxT rd_lt, rd_setRd hT hqT hxT rd_lt]
        by_cases hc : ref (p.rd o .next) = some x <;> simp [hc]
      · simp [heads, hh]
      · cases j <;> simp [heads]
    · refine ⟨fun x hx f hfp hfn => ?_, fun x hx => ?_, fun x hx => ?_, ?_⟩
      · rw [rd_setRd?_ne hT hn hx rd_lt hfp, rd_setRd hT hqT hx rd_lt,
          if_neg (fun h => hfn h.2)]
      · rw [status_setRd? hT hn hx, status_setRd hT hqT hx]
      · rw [data_setRd? hn hx, data_setRd hqT hx]
      · cases ref (p.rd o .next) <;> rfl

theorem addFreenode_spec (idx : Option (Fin 5)) (hT : Grid T) (hN : ∀ a ∈ T, a < NULL)
    (hL : ∀ c, ∀ a ∈ L c, a ∈ T) (hf : Family (listLinks p) (heads p) L)
    (hoff : ∀ a ∈ T, p.rd a .offset = a)
    (hoT : o ∈ T) (ho : ∀ c, o ∉ L c)
    (hi : idx.getD (getFreeidx (p.rd o .size)) = i) :
    Family (listLinks (addFreenode p o idx)) (heads (addFreenode p o idx))
      (Function.update L (.free i) (o :: L (.free i))) ∧
    ListEdit T p (addFreenode p o idx) := by
  have hfT : ∀ h, p.freelist i = some h → h ∈ T := fun h hh =>
    hL (.free i) h (List.mem_of_head? ((hf.head_eq (.free i)).symm.trans hh))
  have ho16 : o < 65536 := lt_of_lt_null (hN o hoT)
  obtain ⟨v, hv, hvr, he⟩ : ∃ v, v < 65536 ∧ ref v = p.freelist i ∧
      addFreenode p o idx = (((p.setRd o .next v).setRd? (p.freelist i) .prev o).setFreelist i
        (some o)).setRd o .prev NULL := by
    cases hh : p.freelist i with
    | none => exact ⟨NULL, null_lt, rfl, by simp [addFreenode, hi, hh, setRd?_none]⟩
    | some h =>
      have hhT := hfT h hh
      refine ⟨h, lt_of_lt_null (hN h hhT), ref_of_lt (hN h hhT), ?_⟩
      simp [addFreenode, hi, hh, setRd?_some, hoff h hhT, hoff o hoT,
        rd_setRd hT hoT hoT (show h < 65536 from lt_of_lt_null (hN h hhT))]
  rw [he]
  constructor
  · refine hf.push ho ?_ ?_ (fun j x hx => ?_) (fun j x hx => ?_) ?_ (fun j hj => ?_)
    · simp [listLinks, rd_setRd hT hoT hoT null_lt, ref_null]
    · simp [listLinks, rd_setRd hT hoT hoT null_lt, rd_setRd? hT hfT hoT ho16,
        rd_setRd hT hoT hoT hv, hvr, heads]
    · have hxT := hL j x hx
      have hxo : x ≠ o := fun h => ho j (h ▸ hx)
      simp [listLinks, rd_setRd hT hoT hxT null_lt, rd_setRd? hT hfT hxT ho16,
        rd_setRd hT hoT hxT hv, hxo]
    · have hxT := hL j x hx
      have hxo : x ≠ o := fun h => ho j (h ▸ hx)
      simp only [listLinks, rd_setRd hT hoT hxT null_lt, setFreelist_rd,
        rd_setRd? hT hfT hxT ho16, rd_setRd hT hoT hxT hv, hxo, heads]
      by_cases hc : p.freelist i = some x <;> simp [hc, ref_of_lt (hN o hoT)]
    · simp [heads, setFreelist_freelist]
    · cases j with
      | busy => simp [heads]
      | free j =>
        have hji : j ≠ i := fun h => hj (h ▸ rfl)
        simp [heads, setFreelist_freelist, hji]
  · refine ⟨fun x hx f hfp hfn => ?_, fun x hx => ?_, fun x hx => ?_, ?_⟩
    · simp [rd_setRd hT hoT hx null_lt, rd_setRd? hT hfT hx ho16, rd_setRd hT hoT hx hv, hfp, hfn]
    · rw [status_setRd hT hoT hx, setFreelist_status, status_setRd? hT hfT hx,
        status_setRd hT hoT hx]
    · rw [data_setRd hoT hx]
      exact (data_setRd? hfT hx).trans (data_setRd hoT hx)
    · cases p.freelist i <;> rfl

end Lists

section Tiling

variable {p p' : Pool} {T T₁ T₂ : List ℕ} {o e a b : ℕ}

theorem tiles_append (T₁ T₂ : List ℕ) (o e : ℕ) :
    Tiles p o (T₁ ++ T₂) e ↔ ∃ m, Tiles p o T₁ m ∧ Tiles p m T₂ e := by
  induction T₁ generalizing o with
  | nil => simp [Tiles]
  | cons a T₁ ih => simp [Tiles, ih, and_assoc]

theorem Tiles.congr (h : Tiles p o T e) (hs : ∀ a ∈ T, p'.rd a .size = p.rd a .size) :
    Tiles p' o T e := by
  induction T generalizing o with
  | nil => exact h
  | cons a T ih =>
    obtain ⟨h1, h2, h3⟩ := h
    have ha := hs a (by simp)
    exact ⟨h1, by rwa [ha], by rw [ha]; exact ih h3 (fun b hb => hs b (by simp [hb]))⟩

theorem Tiles.bounds (h : Tiles p o T e) :
    o ≤ e ∧ ∀ a ∈ T, o ≤ a ∧ 16 ≤ p.rd a .size ∧ a+p.rd a .size ≤ e := by
  induction T generalizing o with
  | nil => exact ⟨Nat.le_of_eq h, by simp⟩
  | cons a T ih =>
    obtain ⟨rfl, h2, h3⟩ := h
    obtain ⟨h4, h5⟩ := ih h3
    refine ⟨by omega, fun b hb => ?_⟩
    rcases List.mem_cons.mp hb with rfl | hb
    · exact ⟨Nat.le_refl _, h2, h4⟩
    · obtain ⟨h6, h7, h8⟩ := h5 b hb
      exact ⟨by omega, h7, h8⟩

theorem Tiles.pairwise (h : Tiles p o T e) : T.Pairwise (fun a b => a+p.rd a .size ≤ b) := by
  induction T generalizing o with
  | nil => exact List.Pairwise.nil
  | cons a T ih =>
    obtain ⟨rfl, _, h3⟩ := h
    exact List.Pairwise.cons (fun b hb => (h3.bounds.2 b hb).1) (ih h3)

theorem Tiles.disjoint (h : Tiles p o T e) (ha : a ∈ T) (hb : b ∈ T) (hab : a ≠ b) :
    a+p.rd a .size ≤ b ∨ b+p.rd b .size ≤ a := by
  induction T generalizing o with
  | nil => simp at ha
  | cons c T ih =>
    obtain ⟨rfl, _, h3⟩ := h
    rcases List.mem_cons.mp ha with rfl | ha' <;> rcases List.mem_cons.mp hb with rfl | hb'
    · exact absurd rfl hab
    · exact Or.inl (h3.bounds.2 b hb').1
    · exact Or.inr (h3.bounds.2 a ha').1
    · exact ih h3 ha' hb'

theorem Tiles.grid (h : Tiles p o T e) : Grid T := by
  intro a ha b hb
  by_cases hab : a = b
  · exact Or.inl hab
  · have h1 := (h.bounds.2 a ha).2.1
    have h2 := (h.bounds.2 b hb).2.1
    have := h.disjoint ha hb hab
    unfold Apart
    omega

theorem Tiles.nodup (h : Tiles p o T e) : T.Nodup := by
  have hb : ∀ a ∈ T, 16 ≤ p.rd a .size := fun a ha => (h.bounds.2 a ha).2.1
  refine List.Pairwise.imp_of_mem (fun ha _ hle hab => ?_) h.pairwise
  have := hb _ ha
  omega

theorem Tiles.next (h : Tiles p o (T₁ ++ a :: T₂) e) : Tiles p (a+p.rd a .size) T₂ e := by
  obtain ⟨m, _, rfl, _, h2⟩ := (tiles_append T₁ (a :: T₂) o e).mp h
  exact h2

theorem Tiles.lt_null (h : Tiles p 0 T (p.pool_size-mempoolSize)) (hs : SizeOk p.pool_size) :
    ∀ a ∈ T, a < NULL := by
  intro a ha
  have := h.bounds.2 a ha
  unfold SizeOk mempoolSize at hs
  unfold mempoolSize at this
  unfold NULL
  omega

theorem freeBytes_append (p : Pool) (T₁ T₂ : List ℕ) :
    freeBytes p (T₁ ++ T₂) = freeBytes p T₁+freeBytes p T₂ := by
  simp [freeBytes]

theorem freeBytes_cons (p : Pool) (a : ℕ) (T : List ℕ) :
    freeBytes p (a :: T) = (if p.status a = 0 then p.rd a .size else 0)+freeBytes p T := by
  by_cases h : p.status a = 0 <;> simp [freeBytes, h]

theorem freeBytes_congr (hs : ∀ a ∈ T, p'.rd a .size = p.rd a .size)
    (ht : ∀ a ∈ T, p'.status a = p.status a) : freeBytes p' T = freeBytes p T := by
  induction T with
  | nil => rfl
  | cons a T ih =>
    rw [freeBytes_cons, freeBytes_cons, ht a (by simp), hs a (by simp),
      ih (fun b hb => hs b (by simp [hb])) (fun b hb => ht b (by simp [hb]))]

theorem Tiles.freeBytes_le (h : Tiles p o T e) : freeBytes p T ≤ e-o := by
  induction T generalizing o with
  | nil => simp [freeBytes]
  | cons a T ih =>
    obtain ⟨rfl, _, h3⟩ := h
    have h4 := ih h3
    have h5 := h3.bounds.1
    rw [freeBytes_cons]
    split <;> omega

theorem settled_congr (hc : T.IsChain (Settled p))
    (ht : ∀ a ∈ T, p'.status a = p.status a) : T.IsChain (Settled p') := by
  refine List.IsChain.imp_of_mem_imp (fun a b ha hb h => ?_) hc
  unfold Settled
  rwa [ht a ha, ht b hb]

end Tiling

/-- A pool between two consistent states: the block `h` is on no list, the link
back to it from its right neighbour may be stale, and `d` of its bytes are not
yet counted in `leftsize`. -/
structure Hole (p : Pool) (T₁ T₂ : List ℕ) (h d : ℕ) (L : Cls → List ℕ) : Prop where
  size_ok : SizeOk p.pool_size
  tiles : Tiles p 0 (T₁ ++ h :: T₂) (p.pool_size-mempoolSize)
  offset : ∀ a ∈ T₁ ++ h :: T₂, p.rd a .offset = a
  before : Seg (realLinks p) none (T₁ ++ [h]) T₂.head?
  after : ∃ x, Seg (realLinks p) x T₂ none
  lists : Family (listLinks p) (heads p) L
  status : ∀ a ∈ T₁ ++ T₂, p.status a = 0 ∨ p.status a = 1
  mem_free : ∀ a, (∃ i, a ∈ L (.free i)) ↔ a ∈ T₁ ++ T₂ ∧ p.status a = 0
  mem_busy : ∀ a, a ∈ L .busy ↔ a ∈ T₁ ++ T₂ ∧ p.status a = 1
  classes : ∀ i, ∀ a ∈ L (.free i), getFreeidx (p.rd a .size) = i
  chain₁ : T₁.IsChain (Settled p)
  chain₂ : T₂.IsChain (Settled p)
  left : p.leftsize+d = freeBytes p (T₁ ++ T₂)+p.rd h .size

section Facts

variable {p : Pool} {T T₁ T₂ : List ℕ} {h d : ℕ} {L : Cls → List ℕ}

theorem HeapInv.grid (hi : HeapInv p T L) : Grid T := hi.tiles.grid

theorem HeapInv.lt_null (hi : HeapInv p T L) : ∀ a ∈ T, a < NULL := hi.tiles.lt_null hi.size_ok

theorem HeapInv.congr {q : Pool} (hi : HeapInv p T L) (hf : q.freelist = p.freelist)
    (hb : q.busylist = p.busylist) (hs : q.pool_size = p.pool_size)
    (hl : q.leftsize = p.leftsize) (hd : q.data = p.data) : HeapInv q T L := by
  obtain ⟨fl, bl, _, _, ps, ls, _, d⟩ := q
  simp only at hf hb hs hl hd
  subst hf hb hs hl hd
  exact ⟨hi.size_ok, hi.tiles.congr (fun _ _ => rfl), hi.offset, hi.order, hi.lists, hi.status,
    hi.mem_free, hi.mem_busy, hi.classes, hi.pristine, hi.coalesced, hi.left⟩

theorem HeapInv.mem (hi : HeapInv p T L) (c : Cls) : ∀ a ∈ L c, a ∈ T := by
  intro a ha
  cases c with
  | free i => exact ((hi.mem_free a).mp ⟨i, ha⟩).1
  | busy => exact ((hi.mem_busy a).mp ha).1

theorem Hole.mem (hh : Hole p T₁ T₂ h d L) (c : Cls) : ∀ a ∈ L c, a ∈ T₁ ++ T₂ := by
  intro a ha
  cases c with
  | free i => exact ((hh.mem_free a).mp ⟨i, ha⟩).1
  | busy => exact ((hh.mem_busy a).mp ha).1

theorem mem_mid {a : ℕ} (ha : a ∈ T₁ ++ T₂) : a ∈ T₁ ++ h :: T₂ := by
  simp only [List.mem_append, List.mem_cons] at ha ⊢
  tauto

theorem ne_of_mid {a : ℕ} (hnd : (T₁ ++ h :: T₂).Nodup) (ha : a ∈ T₁ ++ T₂) : a ≠ h := by
  rintro rfl
  rw [List.nodup_append] at hnd
  rcases List.mem_append.mp ha with h1 | h2
  · exact hnd.2.2 a h1 a (by simp) rfl
  · exact (List.nodup_cons.mp hnd.2.1).1 h2

theorem mid_of_ne {a : ℕ} (ha : a ∈ T₁ ++ h :: T₂) (hah : a ≠ h) : a ∈ T₁ ++ T₂ := by
  simp only [List.mem_append, List.mem_cons] at ha ⊢
  tauto

theorem Hole.not_mem (hh : Hole p T₁ T₂ h d L) (c : Cls) : h ∉ L c :=
  fun hc => ne_of_mid hh.tiles.nodup (hh.mem c h hc) rfl

theorem Hole.room (hh : Hole p T₁ T₂ h d L) :
    freeBytes p (T₁ ++ T₂)+p.rd h .size ≤ p.pool_size-mempoolSize := by
  obtain ⟨m, h1, rfl, _, h2⟩ := (tiles_append _ _ _ _).mp hh.tiles
  have hb1 := h1.freeBytes_le
  have hb2 := h2.freeBytes_le
  have hb3 := h2.bounds.1
  rw [freeBytes_append]
  omega

theorem Hole.room_lt (hh : Hole p T₁ T₂ h d L) :
    freeBytes p (T₁ ++ T₂)+p.rd h .size < 65536 := by
  have h1 := hh.room
  have h2 := hh.size_ok.2
  unfold mempoolSize at h1
  omega

theorem realLinks_congr {p' : Pool} {x n : Option ℕ} (hs : Seg (realLinks p) x T n)
    (hp : ∀ a ∈ T, p'.rd a .realprev = p.rd a .realprev)
    (hn : ∀ a ∈ T, p'.rd a .realnext = p.rd a .realnext) : Seg (realLinks p') x T n :=
  hs.congr (fun a ha => by simp [realLinks, hp a ha]) (fun a ha => by simp [realLinks, hn a ha])

theorem listLinks_congr {p' : Pool} (hf : Family (listLinks p) (heads p) L)
    (hh : ∀ c, heads p' c = heads p c) (hp : ∀ c, ∀ a ∈ L c, p'.rd a .prev = p.rd a .prev)
    (hn : ∀ c, ∀ a ∈ L c, p'.rd a .next = p.rd a .next) :
    Family (listLinks p') (heads p') L :=
  hf.congr hh (fun c a ha => by simp [listLinks, hp c a ha])
    (fun c a ha => by simp [listLinks, hn c a ha])

structure Frame (T B : List ℕ) (p q : Pool) : Prop where
  size : ∀ x ∈ B, q.rd x .size = p.rd x .size
  used : ∀ x ∈ B, q.rd x .used = p.rd x .used
  status : ∀ x ∈ B, q.status x = p.status x
  data : ∀ x, Outside T x → q.data x = p.data x
  same : q = { p with freelist := q.freelist, busylist := q.busylist, data := q.data,
                      leftsize := q.leftsize, failed := q.failed }

theorem Frame.trans {B T' : List ℕ} {p q r : Pool} (h : Frame T B p q) (h' : Frame T' B q r)
    (hT : ∀ x ∈ T', x ∈ T) : Frame T B p r where
  size x hx := (h'.size x hx).trans (h.size x hx)
  used x hx := (h'.used x hx).trans (h.used x hx)
  status x hx := (h'.status x hx).trans (h.status x hx)
  data x hx := (h'.data x (fun o ho => hx o (hT o ho))).trans (h.data x hx)
  same := by rw [h'.same, h.same]

theorem ListEdit.frame {B : List ℕ} {q : Pool} (h : ListEdit T p q) (hB : ∀ x ∈ B, x ∈ T) :
    Frame T B p q where
  size x hx := h.rd x (hB x hx) .size (by decide) (by decide)
  used x hx := h.rd x (hB x hx) .used (by decide) (by decide)
  status x hx := h.status x (hB x hx)
  data := h.data
  same := by rw [h.same]

end Facts

end CLearning.MempoolHeap
