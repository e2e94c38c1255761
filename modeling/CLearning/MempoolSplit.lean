import CLearning.MempoolCoalesce

/-!
# Splitting a free block

`__split_realdata` takes a block off its free list. When enough of it would be
left over, the tail becomes a block of its own: it first stands in the free
list where the whole block stood and then moves to the list of its own class.
Either way the block is a hole of the invariant that lacks no bytes.
-/

set_option autoImplicit false

namespace CLearning.MempoolSplit
open CLearning.Machine CLearning.LinkedLists CLearning.MempoolBytes CLearning.MempoolPool CLearning.MempoolHeap
open CLearning.MempoolCoalesce

variable {p : Pool} {T T₁ T₂ : List ℕ} {h size : ℕ} {L : Cls → List ℕ} {i : Fin 5}

section Classes

theorem firstFreelist_eq_some {is : List (Fin 5)} {o : ℕ} {i : Fin 5}
    (h : firstFreelist p is = some (o, i)) : i ∈ is ∧ p.freelist i = some o := by
  induction is with
  | nil => simp [firstFreelist] at h
  | cons j is ih =>
    rw [firstFreelist] at h
    cases hj : p.freelist j with
    | none =>
      rw [hj] at h
      exact ⟨List.mem_cons_of_mem _ (ih h).1, (ih h).2⟩
    | some o' =>
      rw [hj] at h
      simp only [Option.some.injEq, Prod.mk.injEq] at h
      obtain ⟨rfl, rfl⟩ := h
      exact ⟨by simp, hj⟩

theorem firstFreelist_eq_none {is : List (Fin 5)} :
    firstFreelist p is = none ↔ ∀ i ∈ is, p.freelist i = none := by
  induction is with
  | nil => simp [firstFreelist]
  | cons j is ih =>
    rw [firstFreelist]
    cases hj : p.freelist j with
    | none => simp [ih, hj]
    | some o => simp [hj]

theorem mem_classesFrom {i j : Fin 5} : j ∈ classesFrom i ↔ i ≤ j := by
  simp [classesFrom]

theorem classesFrom_cons (i : Fin 5) : ∃ is, classesFrom i = i :: is := by
  match i with
  | 0 => exact ⟨_, rfl⟩
  | 1 => exact ⟨_, rfl⟩
  | 2 => exact ⟨_, rfl⟩
  | 3 => exact ⟨_, rfl⟩
  | 4 => exact ⟨_, rfl⟩

theorem mempoolGetFreelist_self {size o : ℕ} (h : p.freelist (getFreeidx size) = some o) :
    mempoolGetFreelist p size = some (o, getFreeidx size) := by
  obtain ⟨is, his⟩ := classesFrom_cons (getFreeidx size)
  rw [mempoolGetFreelist, his, firstFreelist, h]

end Classes

section Cut

/-- A block loses its tail to a remainder, which takes over its place in the
free list. -/
def cut (p : Pool) (rd size : ℕ) (i : Fin 5) : Pool :=
  let left := rd+size
  let q := writeLeft p rd size
  let q := q.setRd? (ref (p.rd rd .realnext)) .realprev left
  let q := (q.setRd rd .size size).setRd rd .realnext left
  let q := q.setRd? (ref (p.rd rd .next)) .prev left
  let q := q.setRd? (ref (p.rd rd .prev)) .next left
  if p.freelist i = some rd then q.setFreelist i (some left) else q

def leftField (p : Pool) (rd size : ℕ) : Field → ℕ
  | .offset => rd+size
  | .size => p.rd rd .size-size
  | .prev => p.rd rd .prev
  | .next => p.rd rd .next
  | .realprev => rd
  | .realnext => p.rd rd .realnext
  | .used => p.rd (rd+size) .used

/-- The blocks before the cut and the place of the remainder do not overlap. -/
theorem grid_cut {e : ℕ} (ht : Tiles p 0 (T₁ ++ h :: T₂) e) (h16 : 16 ≤ size)
    (hs : size+30 ≤ p.rd h .size) : Grid (T₁ ++ h :: (h+size) :: T₂) := by
  obtain ⟨m, h1, rfl, h2, h3⟩ := (tiles_append _ _ _ _).mp ht
  have hl : ∀ a ∈ T₁ ++ h :: T₂, a = h+size ∨ Apart a (h+size) := by
    intro a ha
    unfold Apart
    rcases List.mem_append.mp ha with ha | ha
    · have := h1.bounds.2 a ha
      omega
    · rcases List.mem_cons.mp ha with rfl | ha
      · omega
      · have := h3.bounds.2 a ha
        omega
  have hg := ht.grid
  intro a ha b hb
  have hmem : ∀ x ∈ T₁ ++ h :: (h+size) :: T₂, x = h+size ∨ x ∈ T₁ ++ h :: T₂ := by
    intro x hx
    simp only [List.mem_append, List.mem_cons] at hx ⊢
    tauto
  rcases hmem a ha with rfl | ha' <;> rcases hmem b hb with rfl | hb'
  · exact Or.inl rfl
  · rcases hl b hb' with hb' | hb'
    · exact Or.inl hb'.symm
    · exact Or.inr (Or.symm hb')
  · exact hl a ha'
  · exact hg a ha' b hb'

theorem writeLeft_rd {T : List ℕ} {x : ℕ} {f : Field} (hT : Grid T) (hh : h ∈ T)
    (hl : h+size ∈ T) (h16 : 16 ≤ size) (hx : x ∈ T) (hoff : p.rd h .offset = h)
    (hb : h+size < 65536) (hs : size ≤ p.rd h .size) :
    (writeLeft p h size).rd x f =
      if x = h+size then leftField p h size f else p.rd x f := by
  have hne : h ≠ h+size := by omega
  have hu : usub 32 (p.rd h .size) size = p.rd h .size-size :=
    usub_of_le hs (by have := @rd_lt p h .size; omega)
  have hd : p.rd h .size-size < 65536 := by have := @rd_lt p h .size; omega
  have hh' : h < 65536 := by omega
  unfold writeLeft
  simp only [hu, hoff, rd_setStatus hT hl hx, rd_setRd hT hl hx, rd_setRd hT hl hh, hb, hd, hh', hne,
    false_and, if_false, rd_lt]
  by_cases hxl : x = h+size
  · subst hxl
    cases f <;> simp [leftField]
  · simp [hxl]

structure CutAt (p : Pool) (T₁ T₂ : List ℕ) (h size : ℕ) (L : Cls → List ℕ) (i : Fin 5) :
    Prop where
  inv : HeapInv p (T₁ ++ h :: T₂) L
  mem : h ∈ L (.free i)
  big : 16 ≤ size
  room : size+30 ≤ p.rd h .size

namespace CutAt

theorem grid (hc : CutAt p T₁ T₂ h size L i) : Grid (T₁ ++ h :: (h+size) :: T₂) :=
  grid_cut hc.inv.tiles hc.big hc.room

theorem old {a : ℕ} (ha : a ∈ T₁ ++ h :: T₂) : a ∈ T₁ ++ h :: (h+size) :: T₂ := by
  simp only [List.mem_append, List.mem_cons] at ha ⊢
  tauto

theorem bound (hc : CutAt p T₁ T₂ h size L i) : h+size+30 < 65536 := by
  have h1 := (hc.inv.tiles.bounds.2 h (by simp)).2.2
  have h2 := hc.inv.size_ok.2
  have h3 := hc.room
  unfold mempoolSize at h1
  omega

theorem left_not_mem (hc : CutAt p T₁ T₂ h size L i) : h+size ∉ T₁ ++ h :: T₂ := by
  intro hm
  have h1 := hc.inv.tiles.disjoint (a := h) (b := h+size) (by simp) hm (by have := hc.big; omega)
  have := hc.room
  have := hc.big
  omega

theorem next (hc : CutAt p T₁ T₂ h size L i) :
    ∀ a, ref (p.rd h .next) = some a → a ∈ T₁ ++ h :: T₂ :=
  fun _ => next_mem hc.inv.lists hc.inv.mem hc.mem

theorem prev (hc : CutAt p T₁ T₂ h size L i) :
    ∀ a, ref (p.rd h .prev) = some a → a ∈ T₁ ++ h :: T₂ :=
  fun _ => prev_mem hc.inv.lists hc.inv.mem hc.mem

theorem realnext (hc : CutAt p T₁ T₂ h size L i) : ref (p.rd h .realnext) = T₂.head? := by
  simpa [realLinks] using hc.inv.order.neighbours.2

theorem realnext_mem (hc : CutAt p T₁ T₂ h size L i) :
    ∀ a, ref (p.rd h .realnext) = some a → a ∈ T₁ ++ h :: T₂ := by
  intro a ha
  rw [hc.realnext] at ha
  simp [List.mem_of_head? ha]

theorem rd_cut (hc : CutAt p T₁ T₂ h size L i) {x : ℕ} (hx : x ∈ T₁ ++ h :: (h+size) :: T₂)
    (f : Field) : (cut p h size i).rd x f =
      if ref (p.rd h .prev) = some x ∧ f = .next then h+size
      else if ref (p.rd h .next) = some x ∧ f = .prev then h+size
      else if x = h ∧ f = .realnext then h+size
      else if x = h ∧ f = .size then size
      else if ref (p.rd h .realnext) = some x ∧ f = .realprev then h+size
      else if x = h+size then leftField p h size f else p.rd x f := by
  have hT := hc.grid
  have hb := hc.bound
  have hhT : h ∈ T₁ ++ h :: (h+size) :: T₂ := by simp
  have hl : h+size < 65536 := by omega
  have hp := fun a ha => @old T₁ T₂ h size a (hc.prev a ha)
  have hn := fun a ha => @old T₁ T₂ h size a (hc.next a ha)
  have hr := fun a ha => @old T₁ T₂ h size a (hc.realnext_mem a ha)
  have hw := writeLeft_rd (f := f) hT hhT (by simp) hc.big hx (hc.inv.offset h (by simp)) hl
    (by have := hc.room; omega)
  have he : (cut p h size i).rd x f = ((((((writeLeft p h size).setRd? (ref (p.rd h .realnext))
      .realprev (h+size)).setRd h .size size).setRd h .realnext (h+size)).setRd?
        (ref (p.rd h .next)) .prev (h+size)).setRd? (ref (p.rd h .prev)) .next (h+size)).rd x f := by
    unfold cut
    simp only
    split <;> rfl
  rw [he, rd_setRd? hT hp hx hl, rd_setRd? hT hn hx hl, rd_setRd hT hhT hx hl,
    rd_setRd hT hhT hx (by omega), rd_setRd? hT hr hx hl, hw]

theorem status_cut (hc : CutAt p T₁ T₂ h size L i) {x : ℕ}
    (hx : x ∈ T₁ ++ h :: (h+size) :: T₂) :
    (cut p h size i).status x = if x = h+size then 0 else p.status x := by
  have hT := hc.grid
  have hhT : h ∈ T₁ ++ h :: (h+size) :: T₂ := by simp
  have hlT : h+size ∈ T₁ ++ h :: (h+size) :: T₂ := by simp
  have hp := fun a ha => @old T₁ T₂ h size a (hc.prev a ha)
  have hn := fun a ha => @old T₁ T₂ h size a (hc.next a ha)
  have hr := fun a ha => @old T₁ T₂ h size a (hc.realnext_mem a ha)
  have he : (cut p h size i).status x = ((((((writeLeft p h size).setRd? (ref (p.rd h .realnext))
      .realprev (h+size)).setRd h .size size).setRd h .realnext (h+size)).setRd?
        (ref (p.rd h .next)) .prev (h+size)).setRd? (ref (p.rd h .prev)) .next
          (h+size)).status x := by
    unfold cut
    simp only
    split <;> rfl
  rw [he, status_setRd? hT hp hx, status_setRd? hT hn hx, status_setRd hT hhT hx,
    status_setRd hT hhT hx, status_setRd? hT hr hx, writeLeft]
  simp only [status_setStatus (show 0 < 256 by decide), status_setRd hT hlT hx]

theorem data_cut (hc : CutAt p T₁ T₂ h size L i) {x : ℕ}
    (hx : Outside (T₁ ++ h :: (h+size) :: T₂) x) : (cut p h size i).data x = p.data x := by
  have hhT : h ∈ T₁ ++ h :: (h+size) :: T₂ := by simp
  have hlT : h+size ∈ T₁ ++ h :: (h+size) :: T₂ := by simp
  have hp := fun a ha => @old T₁ T₂ h size a (hc.prev a ha)
  have hn := fun a ha => @old T₁ T₂ h size a (hc.next a ha)
  have hr := fun a ha => @old T₁ T₂ h size a (hc.realnext_mem a ha)
  have he : (cut p h size i).data x = ((((((writeLeft p h size).setRd? (ref (p.rd h .realnext))
      .realprev (h+size)).setRd h .size size).setRd h .realnext (h+size)).setRd?
        (ref (p.rd h .next)) .prev (h+size)).setRd? (ref (p.rd h .prev)) .next
          (h+size)).data x := by
    unfold cut
    simp only
    split <;> rfl
  rw [he, data_setRd? hp hx, data_setRd? hn hx, data_setRd hhT hx, data_setRd hhT hx,
    data_setRd? hr hx, writeLeft]
  simp only [data_setStatus hlT hx, data_setRd hlT hx]

theorem same_cut : cut p h size i =
    { p with freelist := (cut p h size i).freelist, data := (cut p h size i).data } := by
  have hs : ∀ {q : Pool} (o : ℕ) (f : Field) (v : ℕ),
      (∃ d, q = { p with data := d }) → ∃ d, q.setRd o f v = { p with data := d } := by
    rintro q o f v ⟨d, rfl⟩
    exact ⟨_, rfl⟩
  have hs? : ∀ {q : Pool} (o : Option ℕ) (f : Field) (v : ℕ),
      (∃ d, q = { p with data := d }) → ∃ d, q.setRd? o f v = { p with data := d } := by
    rintro q o f v hq
    cases o with
    | none => exact hq
    | some o => exact hs o f v hq
  have hst : ∀ {q : Pool} (o v : ℕ),
      (∃ d, q = { p with data := d }) → ∃ d, q.setStatus o v = { p with data := d } := by
    rintro q o v ⟨d, rfl⟩
    exact ⟨_, rfl⟩
  have hw : ∃ d, writeLeft p h size = { p with data := d } := by
    unfold writeLeft
    exact hst _ _ (hs _ _ _ (hs _ _ _ (hs _ _ _ (hs _ _ _ (hs _ _ _ (hs _ _ _ ⟨_, rfl⟩))))))
  obtain ⟨d, hd⟩ := hs? (ref (p.rd h .prev)) .next (h+size)
    (hs? (ref (p.rd h .next)) .prev (h+size) (hs h .realnext (h+size) (hs h .size size
      (hs? (ref (p.rd h .realnext)) .realprev (h+size) hw))))
  simp only [cut, hd]
  split <;> rfl

theorem freelist_cut : (cut p h size i).freelist =
    if p.freelist i = some h then Function.update p.freelist i (some (h+size))
    else p.freelist := by
  unfold cut
  simp only
  split <;> simp [setFreelist_freelist, writeLeft]

/-- The remainder stands where the block stood. -/
theorem lists_cut (hc : CutAt p T₁ T₂ h size L i) :
    ∃ l, Family (listLinks (cut p h size i)) (heads (cut p h size i))
        (Function.update L (.free i) l) ∧ ∀ a, a ∈ l ↔ (a ∈ L (.free i) ∧ a ≠ h) ∨ a = h+size := by
  have hb := hc.bound
  have href : ref (h+size) = some (h+size) := ref_of_lt (by unfold NULL; omega)
  have hlm : ∀ j, h+size ∉ L j := fun j hj => hc.left_not_mem (hc.inv.mem j _ hj)
  obtain ⟨l₁, l₂, hl⟩ := List.append_of_mem hc.mem
  have hnd := hc.inv.lists.nodup (.free i)
  have hpl : ref (p.rd h .prev) ≠ some (h+size) := fun h' => hc.left_not_mem (hc.prev _ h')
  have hnl : ref (p.rd h .next) ≠ some (h+size) := fun h' => hc.left_not_mem (hc.next _ h')
  have hmT : ∀ j, ∀ x ∈ L j, x ∈ T₁ ++ h :: (h+size) :: T₂ := fun j x hx => old (hc.inv.mem j x hx)
  have hlT : h+size ∈ T₁ ++ h :: (h+size) :: T₂ := by simp
  have hne : ∀ j, ∀ x ∈ L j, x ≠ h+size := fun j x hx h' => hlm j (h' ▸ hx)
  refine ⟨l₁ ++ (h+size) :: l₂, ?_, fun a => ?_⟩
  · refine hc.inv.lists.replace hl hlm ?_ ?_ (fun j x hx hxh => ?_) (fun j x hx hxh => ?_) ?_
      (fun j hj => ?_)
    · simp [listLinks, hc.rd_cut hlT, hnl, leftField]
    · simp [listLinks, hc.rd_cut hlT, hpl, leftField]
    · simp only [listLinks, hc.rd_cut (hmT j x hx), hne j x hx]
      by_cases hx' : ref (p.rd h .prev) = some x <;> simp [hx', href]
    · simp only [listLinks, hc.rd_cut (hmT j x hx), hne j x hx]
      by_cases hx' : ref (p.rd h .next) = some x <;> simp [hx', href]
    · change (cut p h size i).freelist i = if p.freelist i = some h then some (h+size) else p.freelist i
      rw [freelist_cut]
      split <;> simp
    · cases j with
      | busy =>
        rw [same_cut]
        rfl
      | free j =>
        have hji : j ≠ i := fun h' => hj (h' ▸ rfl)
        change (cut p h size i).freelist j = p.freelist j
        rw [freelist_cut]
        split <;> simp [hji]
  · rw [hl] at hnd ⊢
    have h1 : h ∉ l₁ := fun hm => (List.nodup_append.mp hnd).2.2 h hm h (by simp) rfl
    have h2 : h ∉ l₂ := (List.nodup_cons.mp (List.nodup_append.mp hnd).2.1).1
    simp only [List.mem_append, List.mem_cons]
    constructor
    · rintro (ha | rfl | ha)
      · exact Or.inl ⟨Or.inl ha, fun hah => h1 (hah ▸ ha)⟩
      · exact Or.inr rfl
      · exact Or.inl ⟨Or.inr (Or.inr ha), fun hah => h2 (hah ▸ ha)⟩
    · rintro (⟨ha | rfl | ha, hah⟩ | rfl)
      · exact Or.inl ha
      · exact absurd rfl hah
      · exact Or.inr (Or.inr ha)
      · exact Or.inr (Or.inl rfl)

end CutAt

end Cut

section Carve

def reclass (p : Pool) (o : ℕ) (i j : Fin 5) : Pool :=
  if j ≠ i then addFreenode (removeFreenode p o (some i)) o (some j) else p

theorem reclass_spec {j : Fin 5} {o : ℕ} (hT : Grid T) (hN : ∀ a ∈ T, a < NULL)
    (hL : ∀ c, ∀ a ∈ L c, a ∈ T) (hf : Family (listLinks p) (heads p) L)
    (hoff : ∀ a ∈ T, p.rd a .offset = a) (ho : o ∈ L (.free i)) :
    ∃ L', Family (listLinks (reclass p o i j)) (heads (reclass p o i j)) L' ∧
      ListEdit T p (reclass p o i j) ∧ L' .busy = L .busy ∧
      ∀ c a, a ∈ L' c ↔ (a ∈ L c ∧ a ≠ o) ∨ (a = o ∧ c = .free j) := by
  by_cases hij : j = i
  · subst hij
    refine ⟨L, by simpa [reclass] using hf, ?_, rfl, fun c a => ?_⟩
    · simp only [reclass, ne_eq, not_true_eq_false, if_false]
      exact ⟨fun _ _ _ _ _ => rfl, fun _ _ => rfl, fun _ _ => rfl, rfl⟩
    · constructor
      · intro ha
        by_cases hao : a = o
        · subst hao
          exact Or.inr ⟨rfl, hf.eq_of_mem ha ho⟩
        · exact Or.inl ⟨ha, hao⟩
      · rintro (⟨ha, _⟩ | ⟨rfl, rfl⟩)
        · exact ha
        · exact ho
  · have hoT := hL _ o ho
    obtain ⟨hf₁, he₁⟩ := removeFreenode_spec (some i) hT hL hf ho rfl
    have hm₁ : ∀ c a, a ∈ Function.update L (.free i) ((L (.free i)).erase o) c ↔
        a ∈ L c ∧ a ≠ o := fun c a => hf.mem_erase ho c a
    obtain ⟨hf₂, he₂⟩ := addFreenode_spec (some j) hT hN
      (fun c a ha => hL c a ((hm₁ c a).mp ha).1) hf₁
      (fun a ha => (he₁.rd a ha .offset (by decide) (by decide)).trans (hoff a ha)) hoT
      (fun c hc => ((hm₁ c o).mp hc).2 rfl) rfl
    have he : reclass p o i j = addFreenode (removeFreenode p o (some i)) o (some j) := by
      simp [reclass, hij]
    rw [he]
    exact ⟨_, hf₂, he₁.trans he₂, by simp, fun c a => by
      rw [mem_update_cons, hm₁, Option.getD_some]⟩

theorem carveRealdata_eq (hc : CutAt p T₁ T₂ h size L i) {o : ℕ} (ho : p.freelist i = some o) :
    carveRealdata p h size (some o) (some i) =
      reclass (cut p h size i) (h+size) i (getFreeidx (p.rd h .size-size)) := by
  have hT := hc.grid
  have hb := hc.bound
  have hl : h+size < 65536 := by omega
  have hlT : h+size ∈ T₁ ++ h :: (h+size) :: T₂ := by simp
  have hhT : h ∈ T₁ ++ h :: (h+size) :: T₂ := by simp
  have hne : h+size ≠ h := by have := hc.big; omega
  have hr := fun a ha => @CutAt.old T₁ T₂ h size a (hc.realnext_mem a ha)
  have hn := fun a ha => @CutAt.old T₁ T₂ h size a (hc.next a ha)
  have hpl : ref (p.rd h .prev) ≠ some (h+size) := fun h' => hc.left_not_mem (hc.prev _ h')
  have hnl : ref (p.rd h .next) ≠ some (h+size) := fun h' => hc.left_not_mem (hc.next _ h')
  have hrl : ref (p.rd h .realnext) ≠ some (h+size) :=
    fun h' => hc.left_not_mem (hc.realnext_mem _ h')
  have hoff := hc.inv.offset h (by simp)
  have hs : size ≤ p.rd h .size := by have := hc.room; omega
  have hw : ∀ x ∈ T₁ ++ h :: (h+size) :: T₂, ∀ f, (writeLeft p h size).rd x f =
      if x = h+size then leftField p h size f else p.rd x f :=
    fun x hx f => writeLeft_rd hT hhT hlT hc.big hx hoff hl hs
  have hsize : (cut p h size i).rd (h+size) .size = p.rd h .size-size := by
    have hs0 : size ≠ 0 := by have := hc.big; omega
    simp [hc.rd_cut hlT, leftField, hs0]
  have hcut : (if some h ≠ some o then
        ((((((writeLeft p h size).setRd? (ref (p.rd h .realnext)) .realprev (h+size)).setRd h
          .size size).setRd h .realnext (h+size)).setRd? (ref (p.rd h .next)) .prev
            (h+size)).setRd? (ref (p.rd h .prev)) .next (h+size))
      else ((((((writeLeft p h size).setRd? (ref (p.rd h .realnext)) .realprev (h+size)).setRd h
          .size size).setRd h .realnext (h+size)).setRd? (ref (p.rd h .next)) .prev
            (h+size)).setFreelist? (some i) (some (h+size)))) = cut p h size i := by
    by_cases hho : o = h
    · have hp : ref (p.rd h .prev) = none :=
        (hc.inv.lists.prev_eq_none_iff hc.mem).mpr (hho ▸ ho)
      simp [cut, ho, hho, hp, setRd?_none, Pool.setFreelist?]
    · simp [cut, ho, hho, Ne.symm hho]
  simp only [carveRealdata, hw _ hhT, hw _ hlT, leftField, hne.symm, if_true, if_false,
    rd_setRd hT hhT hlT (show size < 65536 by omega), rd_setRd hT hhT hlT hl,
    rd_setRd? hT hr hlT hl, rd_setRd? hT hn hlT hl, hrl, hne, false_and, ite_self]
  rw [hcut, hsize]
  simp [reclass]

end Carve

section Take

structure Taken (p q : Pool) (T₁ T₂ : List ℕ) (h : ℕ) (B : List ℕ) (L L' : Cls → List ℕ) :
    Prop where
  hole : Hole q T₁ T₂ h 0 L'
  order : Seg (realLinks q) none (T₁ ++ h :: T₂) none
  busy : L' .busy = L .busy
  frame : Frame (T₁ ++ h :: T₂) B p q
  kept : q.leftsize = p.leftsize ∧ q.failed = p.failed ∧ q.busylist = p.busylist

def Classed (p : Pool) (h : ℕ) (L : Cls → List ℕ) : Prop :=
  ∀ i, ∀ a ∈ L (.free i), a ≠ h → getFreeidx (p.rd a .size) = i

theorem detachRealdata_eq (hi : HeapInv p T L) {o : ℕ} (hh : h ∈ L (.free i))
    (ho : p.freelist i = some o) :
    detachRealdata p h (some o) (some i) = removeFreenode p h (some i) := by
  by_cases hho : o = h
  · subst hho
    simp [detachRealdata, removeFreenode, ho, Pool.setFreelist?]
  · obtain ⟨q, hq⟩ : ∃ q, ref (p.rd h .prev) = some q := by
      rw [← Option.ne_none_iff_exists']
      exact fun h' => hho (Option.some.inj (ho.symm.trans
        ((hi.lists.prev_eq_none_iff (i := .free i) hh).mp h')))
    have hqv := (ref_eq_some.mp hq).1
    have hqr : ref q = some q := hqv ▸ hq
    simp [detachRealdata, removeFreenode, ho, hho, Ne.symm hho, setRd?_some, hqv, hqr]

theorem detach_taken (hi : HeapInv p (T₁ ++ h :: T₂) L) (hh : h ∈ L (.free i))
    (hcl : Classed p h L) :
    ∃ L', Taken p (removeFreenode p h (some i)) T₁ T₂ h (T₁ ++ T₂) L L' ∧
      (removeFreenode p h (some i)).rd h .size = p.rd h .size ∧
      ∀ c a, a ∈ L' c ↔ a ∈ L c ∧ a ≠ h := by
  obtain ⟨hfam, hed⟩ := removeFreenode_spec (some i) hi.grid hi.mem hi.lists hh rfl
  generalize removeFreenode p h (some i) = q at *
  have hnd := hi.tiles.nodup
  have hhT : h ∈ T₁ ++ h :: T₂ := by simp
  have h0 : p.status h = 0 := ((hi.mem_free h).mp ⟨i, hh⟩).2
  have hsz : q.pool_size = p.pool_size := by rw [hed.same]
  have hsize : ∀ a ∈ T₁ ++ h :: T₂, q.rd a .size = p.rd a .size :=
    fun a ha => hed.rd a ha .size (by decide) (by decide)
  have hord : Seg (realLinks q) none (T₁ ++ h :: T₂) none :=
    realLinks_congr hi.order (fun a ha => hed.rd a ha .realprev (by decide) (by decide))
      (fun a ha => hed.rd a ha .realnext (by decide) (by decide))
  have hord' := hord
  rw [← List.singleton_append, ← List.append_assoc, seg_append] at hord'
  refine ⟨_, ⟨⟨?_, ?_, fun a ha => ?_, by simpa using hord'.1, ⟨_, hord'.2⟩, hfam, fun a ha => ?_,
    fun a => ?_, fun a => ?_, fun j a ha => ?_, ?_, ?_, ?_⟩, hord, by simp, hed.frame (fun x hx => mem_mid hx), ?_⟩,
    hsize h hhT, hi.lists.mem_erase hh⟩
  · rw [hsz]
    exact hi.size_ok
  · rw [hsz]
    exact hi.tiles.congr hsize
  · exact (hed.rd a ha .offset (by decide) (by decide)).trans (hi.offset a ha)
  · rw [hed.status a (mem_mid ha)]
    exact hi.status a (mem_mid ha)
  · simp only [hi.lists.mem_erase hh, exists_and_right, hi.mem_free a]
    constructor
    · rintro ⟨⟨h1, h2⟩, h3⟩
      exact ⟨mid_of_ne h1 h3, by rw [hed.status a h1, h2]⟩
    · rintro ⟨h1, h2⟩
      exact ⟨⟨mem_mid h1, by rw [← hed.status a (mem_mid h1), h2]⟩, ne_of_mid hnd h1⟩
  · rw [Function.update_of_ne (by simp), hi.mem_busy a]
    constructor
    · rintro ⟨h1, h2⟩
      refine ⟨mid_of_ne h1 ?_, by rw [hed.status a h1, h2]⟩
      rintro rfl
      exact absurd (h0.symm.trans h2) (by decide)
    · rintro ⟨h1, h2⟩
      exact ⟨mem_mid h1, by rw [← hed.status a (mem_mid h1), h2]⟩
  · obtain ⟨h1, h2⟩ := (hi.lists.mem_erase hh _ _).mp ha
    rw [hsize a (hi.mem _ a h1)]
    exact hcl j a h1 h2
  · exact settled_congr (List.isChain_append.mp hi.coalesced).1
      (fun a ha => hed.status a (by simp [ha]))
  · exact settled_congr (List.isChain_cons.mp (List.isChain_append.mp hi.coalesced).2.1).2
      (fun a ha => hed.status a (by simp [ha]))
  · have h1 := hi.left
    rw [freeBytes_append, freeBytes_cons, if_pos h0] at h1
    rw [hsize h hhT, freeBytes_congr (fun a ha => hsize a (mem_mid ha))
      (fun a ha => hed.status a (mem_mid ha)), freeBytes_append,
      show q.leftsize = p.leftsize by rw [hed.same]]
    omega
  · have hb : q.busylist = p.busylist := by
      have h1 := hfam.head_eq .busy
      have h2 := hi.lists.head_eq .busy
      rw [Function.update_of_ne (by simp)] at h1
      exact h1.trans h2.symm
    exact ⟨by rw [hed.same], by rw [hed.same], hb⟩

structure Carved (p q : Pool) (T₁ T₂ : List ℕ) (h size : ℕ) : Prop where
  rd : ∀ x ∈ T₁ ++ h :: (h+size) :: T₂, ∀ f, f ≠ .prev → f ≠ .next →
    q.rd x f = if x = h ∧ f = .realnext then h+size
      else if x = h ∧ f = .size then size
      else if ref (p.rd h .realnext) = some x ∧ f = .realprev then h+size
      else if x = h+size then leftField p h size f else p.rd x f
  status : ∀ x ∈ T₁ ++ h :: (h+size) :: T₂, q.status x = if x = h+size then 0 else p.status x
  data : ∀ x, Outside (T₁ ++ h :: (h+size) :: T₂) x → q.data x = p.data x
  same : q = { p with freelist := q.freelist, busylist := q.busylist, data := q.data }

theorem CutAt.carved (hc : CutAt p T₁ T₂ h size L i) : Carved p (cut p h size i) T₁ T₂ h size where
  rd x hx f h1 h2 := by
    rw [hc.rd_cut hx, if_neg (fun h' => h2 h'.2), if_neg (fun h' => h1 h'.2)]
  status _ hx := hc.status_cut hx
  data _ hx := hc.data_cut hx
  same := by
    have hb : (cut p h size i).busylist = p.busylist := by rw [CutAt.same_cut]
    rw [hb]
    exact CutAt.same_cut

namespace Carved

variable {q : Pool}

theorem edit {r : Pool} (hq : Carved p q T₁ T₂ h size)
    (he : ListEdit (T₁ ++ h :: (h+size) :: T₂) q r) : Carved p r T₁ T₂ h size where
  rd x hx f h1 h2 := (he.rd x hx f h1 h2).trans (hq.rd x hx f h1 h2)
  status x hx := (he.status x hx).trans (hq.status x hx)
  data x hx := (he.data x hx).trans (hq.data x hx)
  same := by rw [he.same, hq.same]

theorem mem_cases {a : ℕ} (ha : a ∈ T₁ ++ h :: (h+size) :: T₂) :
    a = h+size ∨ a ∈ T₁ ++ h :: T₂ := by
  simp only [List.mem_append, List.mem_cons] at ha ⊢
  tauto

theorem left_ne (hc : CutAt p T₁ T₂ h size L i) {a : ℕ} (ha : a ∈ T₁ ++ h :: T₂) : a ≠ h+size :=
  fun he => hc.left_not_mem (he ▸ ha)

theorem size_taken (hq : Carved p q T₁ T₂ h size) : q.rd h .size = size := by
  simp [hq.rd h (by simp)]

theorem size_left (hq : Carved p q T₁ T₂ h size) (hc : CutAt p T₁ T₂ h size L i) :
    q.rd (h+size) .size = p.rd h .size-size := by
  have hs0 : size ≠ 0 := by have := hc.big; omega
  simp [hq.rd (h+size) (by simp), leftField, hs0]

theorem status_left (hq : Carved p q T₁ T₂ h size) : q.status (h+size) = 0 := by
  rw [hq.status _ (by simp), if_pos rfl]

theorem status_old (hq : Carved p q T₁ T₂ h size) (hc : CutAt p T₁ T₂ h size L i) {x : ℕ}
    (hx : x ∈ T₁ ++ h :: T₂) : q.status x = p.status x := by
  rw [hq.status x (CutAt.old hx), if_neg (left_ne hc hx)]

theorem kept (hq : Carved p q T₁ T₂ h size) (hc : CutAt p T₁ T₂ h size L i) {x : ℕ}
    (hx : x ∈ T₁ ++ T₂) {f : Field} (h1 : f ≠ .prev) (h2 : f ≠ .next) (h3 : f ≠ .realprev) :
    q.rd x f = p.rd x f := by
  have hx' := mem_mid (h := h) hx
  have hne := ne_of_mid hc.inv.tiles.nodup hx
  rw [hq.rd x (CutAt.old hx') f h1 h2, if_neg (fun h' => hne h'.1), if_neg (fun h' => hne h'.1),
    if_neg (fun h' => h3 h'.2), if_neg (left_ne hc hx')]

theorem kept_size (hq : Carved p q T₁ T₂ h size) (hc : CutAt p T₁ T₂ h size L i) {x : ℕ}
    (hx : x ∈ T₁ ++ T₂) : q.rd x .size = p.rd x .size :=
  hq.kept hc hx (by decide) (by decide) (by decide)

theorem offset (hq : Carved p q T₁ T₂ h size) (hc : CutAt p T₁ T₂ h size L i) {a : ℕ}
    (ha : a ∈ T₁ ++ h :: (h+size) :: T₂) : q.rd a .offset = a := by
  rw [hq.rd a ha .offset (by decide) (by decide)]
  rcases mem_cases ha with rfl | ha
  · simp [leftField]
  · simp [left_ne hc ha, hc.inv.offset a ha]

theorem tiles (hq : Carved p q T₁ T₂ h size) (hc : CutAt p T₁ T₂ h size L i) :
    Tiles q 0 (T₁ ++ h :: (h+size) :: T₂) (p.pool_size-mempoolSize) := by
  have hroom := hc.room
  obtain ⟨m, h1, rfl, h2, h3⟩ := (tiles_append _ _ _ _).mp hc.inv.tiles
  refine (tiles_append _ _ _ _).mpr ⟨_, h1.congr (fun a ha => hq.kept_size hc (by simp [ha])), rfl,
    by rw [hq.size_taken]; exact hc.big, by rw [hq.size_taken],
    by rw [hq.size_left hc]; omega, ?_⟩
  rw [hq.size_taken, hq.size_left hc, show h+size+(p.rd h .size-size) = h+p.rd h .size by omega]
  exact h3.congr (fun a ha => hq.kept_size hc (by simp [ha]))

/-- The remainder stands between the block and the one behind it. -/
theorem order (hq : Carved p q T₁ T₂ h size) (hc : CutAt p T₁ T₂ h size L i) :
    Seg (realLinks q) none (T₁ ++ h :: (h+size) :: T₂) none := by
  have hi := hc.inv
  have hs0 : size ≠ 0 := by have := hc.big; omega
  have hhT : h ∈ T₁ ++ h :: (h+size) :: T₂ := by simp
  have hlT : h+size ∈ T₁ ++ h :: (h+size) :: T₂ := by simp
  have hnext := hc.realnext
  have hold := hi.order
  rw [seg_append] at hold
  obtain ⟨ho₁, hoh, hon, ho₂⟩ := hold
  have hd := List.nodup_append.mp hi.tiles.nodup
  have hd₂ := (List.nodup_cons.mp hd.2.1).2
  have hnT₁ : ∀ x ∈ T₁, ref (p.rd h .realnext) ≠ some x := by
    intro x hx h'
    rw [hnext] at h'
    exact hd.2.2 x hx x (by simp [List.mem_of_head? h']) rfl
  have href : ref (h+size) = some (h+size) := by
    have := hc.bound
    exact ref_of_lt (by unfold NULL; omega)
  rw [seg_append]
  refine ⟨?_, ?_, ?_, ?_, ?_, ?_⟩
  · refine ho₁.congr (fun x hx => ?_) (fun x hx => ?_)
    · have hx' : x ∈ T₁ ++ h :: T₂ := by simp [hx]
      simp [realLinks, hq.rd x (CutAt.old hx'), hnT₁ x hx, left_ne hc hx']
    · simp [realLinks, hq.kept hc (x := x) (f := .realnext) (by simp [hx])]
  · have hhn : ref (p.rd h .realnext) ≠ some h := fun h' => by
      rw [hnext] at h'
      exact (List.nodup_cons.mp hd.2.1).1 (List.mem_of_head? h')
    simpa [realLinks, hq.rd h hhT, hhn, hs0] using hoh
  · simp [realLinks, hq.rd h hhT, href]
  · have hl : ref (p.rd h .realnext) ≠ some (h+size) := fun h' =>
      hc.left_not_mem (hc.realnext_mem _ h')
    have hhN := ref_of_lt (hi.lt_null h (by simp))
    simp [realLinks, hq.rd _ hlT, hl, leftField, hhN]
  · simpa [realLinks, hq.rd _ hlT, hs0, leftField] using hnext
  · refine ho₂.relinkFirst hd₂ (fun x hx => ?_) (fun x hx => ?_)
    · have hx' : x ∈ T₁ ++ h :: T₂ := by simp [hx]
      simp only [realLinks, hq.rd x (CutAt.old hx') .realprev (by decide) (by decide), hnext,
        left_ne hc hx', reduceCtorEq, and_false, if_false, and_true]
      split <;> simp [href]
    · simp [realLinks, hq.kept hc (x := x) (f := .realnext) (by simp [hx])]

theorem left (hq : Carved p q T₁ T₂ h size) (hc : CutAt p T₁ T₂ h size L i)
    (h0 : p.status h = 0) :
    q.leftsize = freeBytes q (T₁ ++ (h+size) :: T₂)+q.rd h .size := by
  have hroom := hc.room
  have h1 := hc.inv.left
  have h2 : freeBytes q T₁ = freeBytes p T₁ :=
    freeBytes_congr (fun a ha => hq.kept_size hc (by simp [ha]))
      (fun a ha => hq.status_old hc (by simp [ha]))
  have h3 : freeBytes q T₂ = freeBytes p T₂ :=
    freeBytes_congr (fun a ha => hq.kept_size hc (by simp [ha]))
      (fun a ha => hq.status_old hc (by simp [ha]))
  rw [freeBytes_append, freeBytes_cons, if_pos h0] at h1
  rw [freeBytes_append, freeBytes_cons, hq.status_left, if_pos rfl, hq.size_left hc, hq.size_taken,
    h2, h3, show q.leftsize = p.leftsize by rw [hq.same]]
  omega

end Carved

/-- The lists once the remainder has moved to the list of its class. -/
theorem CutAt.reclassed (hc : CutAt p T₁ T₂ h size L i) (j : Fin 5) :
    ∃ L', Family (listLinks (reclass (cut p h size i) (h+size) i j))
        (heads (reclass (cut p h size i) (h+size) i j)) L' ∧
      Carved p (reclass (cut p h size i) (h+size) i j) T₁ T₂ h size ∧ L' .busy = L .busy ∧
      ∀ c a, a ∈ L' c ↔ (a ∈ L c ∧ a ≠ h) ∨ (a = h+size ∧ c = .free j) := by
  have hi := hc.inv
  have hb := hc.bound
  have hlT : h+size ∈ T₁ ++ h :: (h+size) :: T₂ := by simp
  have hN : ∀ a ∈ T₁ ++ h :: (h+size) :: T₂, a < NULL := by
    intro a ha
    rcases Carved.mem_cases ha with rfl | ha
    · unfold NULL
      omega
    · exact hi.lt_null a ha
  obtain ⟨l, hfam, hl⟩ := hc.lists_cut
  have hcut : ∀ c a, a ∈ Function.update L (.free i) l c ↔
      (a ∈ L c ∧ a ≠ h) ∨ (a = h+size ∧ c = .free i) := by
    intro c a
    by_cases hci : c = .free i
    · subst hci
      rw [Function.update_self, hl]
      tauto
    · rw [Function.update_of_ne hci]
      refine ⟨fun ha => Or.inl ⟨ha, ?_⟩, ?_⟩
      · rintro rfl
        exact hci (hi.lists.eq_of_mem ha hc.mem)
      · rintro (⟨ha, _⟩ | ⟨_, hc'⟩)
        · exact ha
        · exact absurd hc' hci
  obtain ⟨L', hfam', hed, hbusy, hL'⟩ := reclass_spec (j := j) hc.grid hN
    (fun c a ha => by
      rcases (hcut c a).mp ha with ⟨ha, _⟩ | ⟨rfl, _⟩
      · exact CutAt.old (hi.mem c a ha)
      · exact hlT) hfam (fun a ha => hc.carved.offset hc ha) ((hcut _ _).mpr (Or.inr ⟨rfl, rfl⟩))
  rw [Function.update_of_ne (by simp)] at hbusy
  refine ⟨L', hfam', hc.carved.edit hed, hbusy, fun c a => ?_⟩
  rw [hL', hcut]
  constructor
  · rintro (⟨⟨ha, hah⟩ | ⟨rfl, _⟩, hal⟩ | hr)
    · exact Or.inl ⟨ha, hah⟩
    · exact absurd rfl hal
    · exact Or.inr hr
  · rintro (⟨ha, hah⟩ | hr)
    · exact Or.inl ⟨Or.inl ⟨ha, hah⟩, Carved.left_ne hc (hi.mem c a ha)⟩
    · exact Or.inr hr

theorem carve_taken (hc : CutAt p T₁ T₂ h size L i) (hcl : Classed p h L) {j : Fin 5}
    (hj : getFreeidx (p.rd h .size-size) = j) :
    ∃ L', Taken p (reclass (cut p h size i) (h+size) i j) T₁ ((h+size) :: T₂) h (T₁ ++ T₂) L L' ∧
      (reclass (cut p h size i) (h+size) i j).rd h .size = size ∧
      (reclass (cut p h size i) (h+size) i j).rd (h+size) .size = p.rd h .size-size ∧
      ∀ c a, a ∈ L' c ↔ (a ∈ L c ∧ a ≠ h) ∨ (a = h+size ∧ c = .free j) := by
  have hi := hc.inv
  have hnd := hi.tiles.nodup
  obtain ⟨L', hfam, hq, hbusy, hm⟩ := hc.reclassed j
  generalize reclass (cut p h size i) (h+size) i j = q at *
  have hsz : q.pool_size = p.pool_size := by rw [hq.same]
  have h0 : p.status h = 0 := ((hi.mem_free h).mp ⟨i, hc.mem⟩).2
  have hst : ∀ x ∈ T₁ ++ T₂, q.status x = p.status x := fun x hx => hq.status_old hc (mem_mid hx)
  have hmid : ∀ a, a ∈ T₁ ++ (h+size) :: T₂ ↔ a = h+size ∨ a ∈ T₁ ++ T₂ := by
    intro a
    simp only [List.mem_append, List.mem_cons]
    tauto
  have hord := hq.order hc
  have hord' := hord
  rw [← List.singleton_append, ← List.append_assoc, seg_append] at hord'
  have hB : ∀ x ∈ L .busy, x ∈ T₁ ++ T₂ := fun x hx => by
    have hx' := (hi.mem_busy x).mp hx
    refine mid_of_ne hx'.1 ?_
    rintro rfl
    exact absurd (h0.symm.trans hx'.2) (by decide)
  refine ⟨L', ⟨⟨hsz ▸ hi.size_ok, hsz ▸ hq.tiles hc, fun a ha => hq.offset hc ha,
    by simpa using hord'.1, ⟨_, hord'.2⟩, hfam, fun a ha => ?_, fun a => ?_, fun a => ?_,
    fun k a ha => ?_, ?_, ?_, hq.left hc h0⟩, hord, hbusy, ?_, ?_⟩, hq.size_taken,
    hq.size_left hc, hm⟩
  · rcases (hmid a).mp ha with rfl | ha
    · exact Or.inl hq.status_left
    · rw [hst a ha]
      exact hi.status a (mem_mid ha)
  · constructor
    · rintro ⟨k, hk⟩
      rcases (hm _ a).mp hk with ⟨ha, hah⟩ | ⟨rfl, _⟩
      · obtain ⟨ha, ha0⟩ := (hi.mem_free a).mp ⟨k, ha⟩
        have ha' := mid_of_ne ha hah
        exact ⟨(hmid a).mpr (Or.inr ha'), by rw [hst a ha', ha0]⟩
      · exact ⟨by simp, hq.status_left⟩
    · rintro ⟨ha, ha0⟩
      rcases (hmid a).mp ha with rfl | ha
      · exact ⟨j, (hm _ _).mpr (Or.inr ⟨rfl, rfl⟩)⟩
      · rw [hst a ha] at ha0
        obtain ⟨k, hk⟩ := (hi.mem_free a).mpr ⟨mem_mid ha, ha0⟩
        exact ⟨k, (hm _ a).mpr (Or.inl ⟨hk, ne_of_mid hnd ha⟩)⟩
  · rw [hbusy]
    constructor
    · intro ha
      exact ⟨(hmid a).mpr (Or.inr (hB a ha)),
        by rw [hst a (hB a ha), ((hi.mem_busy a).mp ha).2]⟩
    · rintro ⟨ha, ha1⟩
      rcases (hmid a).mp ha with rfl | ha
      · rw [hq.status_left] at ha1
        cases ha1
      · exact (hi.mem_busy a).mpr ⟨mem_mid ha, by rw [← hst a ha, ha1]⟩
  · rcases (hm _ a).mp ha with ⟨ha, hah⟩ | ⟨rfl, hk⟩
    · rw [hq.kept_size hc (mid_of_ne (hi.mem _ a ha) hah)]
      exact hcl k a ha hah
    · rw [hq.size_left hc, hj]
      exact (Cls.free.inj hk).symm
  · exact settled_congr (List.isChain_append.mp hi.coalesced).1 (fun a ha => hst a (by simp [ha]))
  · have hch := (List.isChain_append.mp hi.coalesced).2.1
    rw [List.isChain_cons] at hch ⊢
    refine ⟨fun b hb' hs => hch.1 b hb' ⟨h0, ?_⟩,
      settled_congr hch.2 (fun a ha => hst a (by simp [ha]))⟩
    rw [← hst b (by simp [List.mem_of_head? hb'])]
    exact hs.2
  · exact ⟨fun x hx => hq.kept_size hc hx,
      fun x hx => hq.kept hc hx (by decide) (by decide) (by decide), hst, fun x hx => hq.data x hx,
      by rw [hq.same]⟩
  · have hbl : q.busylist = p.busylist := by
      have h1 := hfam.head_eq .busy
      rw [hbusy] at h1
      exact h1.trans (hi.lists.head_eq .busy).symm
    exact ⟨by rw [hq.same], by rw [hq.same], hbl⟩

end Take

end CLearning.MempoolSplit
