import CLearning.MempoolServe
import Mathlib.Order.Fin.Basic

/-!
# The search for a block

`__get_availdata` walks at most nine blocks of one free list and keeps a
candidate that it only ever replaces by a smaller one. The candidate it starts
with is the head of the list, large enough or not.
-/

set_option autoImplicit false

namespace CLearning.MempoolSearch
open CLearning.Machine CLearning.LinkedLists CLearning.MempoolBytes CLearning.MempoolPool CLearning.MempoolHeap
open CLearning.MempoolSplit CLearning.MempoolServe

variable {p : Pool} {T l : List ℕ} {h o size : ℕ} {L : Cls → List ℕ} {i j : Fin 5}

def examined (L : Cls → List ℕ) (i : Fin 5) : List ℕ := (L (.free i)).take (maxSearchInPool+1)

def Fittest (p : Pool) (size : ℕ) (l : List ℕ) (r : ℕ) : Prop :=
  r ∈ l ∧ size ≤ p.rd r .size ∧ ∀ o ∈ l, size ≤ p.rd o .size → p.rd r .size ≤ p.rd o .size

/-- The search finds a block of the list it is sent to or of a higher class, and
the best one among those it examines. -/
def Finds (p : Pool) (L : Cls → List ℕ) (size : ℕ) : Prop :=
  ∀ h i, mempoolGetFreelist p size = some (h, i) →
    ((∃ o ∈ examined L i, size ≤ p.rd o .size) ∨
        (∃ j > i, ∃ o ∈ L (.free j), size ≤ p.rd o .size) →
      ∃ r, getAvaildata p size = some r ∧ size ≤ p.rd r .size) ∧
    ((∃ o ∈ examined L i, size ≤ p.rd o .size) →
      ∃ r, getAvaildata p size = some r ∧ Fittest p size (examined L i) r)

section Scan

theorem fittest_singleton (h : size ≤ p.rd o .size) : Fittest p size [o] o := by
  refine ⟨List.mem_singleton_self _, h, fun a ha _ => ?_⟩
  rw [List.mem_singleton.mp ha]

/-- A candidate that is too small stays; one that fits ends as the fittest. -/
theorem scanFreelist_spec {pr : Option ℕ} (hs : Seg (listLinks p) pr l none) (n ava : ℕ) :
    (p.rd ava .size < size → scanFreelist p size n l.head? ava = ava) ∧
    (size ≤ p.rd ava .size →
      Fittest p size (ava :: l.take n) (scanFreelist p size n l.head? ava)) := by
  induction l generalizing n ava pr with
  | nil =>
    have hr : scanFreelist p size n none ava = ava := by cases n <;> rfl
    rw [List.head?_nil, hr, List.take_nil]
    exact ⟨fun _ => rfl, fittest_singleton⟩
  | cons a l ih =>
    obtain ⟨-, hnext, hs⟩ := hs
    rw [Option.or_none] at hnext
    cases n with
    | zero =>
      exact ⟨fun _ => rfl, fittest_singleton⟩
    | succ n =>
      have hstep : scanFreelist p size (n+1) (some a) ava = scanFreelist p size n l.head?
          (if p.rd a .size ≥ size ∧ p.rd ava .size > p.rd a .size then a else ava) := by
        rw [scanFreelist]
        exact congrArg (fun t => scanFreelist p size n t _) hnext
      rw [List.head?_cons, hstep, List.take_succ_cons]
      split
      · next hc =>
        obtain ⟨hr, hfit, hmin⟩ := (ih hs n a).2 hc.1
        refine ⟨fun hlt => by omega, fun hava => ⟨List.mem_cons_of_mem _ hr, hfit, fun o ho hos => ?_⟩⟩
        rcases List.mem_cons.mp ho with rfl | ho
        · have := hmin a List.mem_cons_self hc.1
          omega
        · exact hmin o ho hos
      · next hc =>
        refine ⟨(ih hs n ava).1, fun hava => ?_⟩
        obtain ⟨hr, hfit, hmin⟩ := (ih hs n ava).2 hava
        refine ⟨?_, hfit, fun o ho hos => ?_⟩
        · rcases List.mem_cons.mp hr with hr | hr
          · rw [hr]
            exact List.mem_cons_self
          · exact List.mem_cons_of_mem _ (List.mem_cons_of_mem _ hr)
        · rcases List.mem_cons.mp ho with rfl | ho
          · exact hmin o List.mem_cons_self hos
          rcases List.mem_cons.mp ho with rfl | ho
          · have := hmin ava List.mem_cons_self hava
            by_contra hlt
            exact hc ⟨hos, by omega⟩
          · exact hmin o (List.mem_cons_of_mem _ ho) hos

/-- The first list: the search ends in it or goes on with the later classes. -/
theorem availFrom_first {is : List (Fin 5)} (hf : firstFreelist p is = some (h, i)) :
    ∃ pre post, is = pre ++ i :: post ∧ (∀ j ∈ pre, p.freelist j = none) ∧
      availFrom p size is =
        if p.rd (scanFreelist p size (maxSearchInPool+1) (some h) h) .size ≥ size then
          some (scanFreelist p size (maxSearchInPool+1) (some h) h)
        else availFrom p size post := by
  induction is with
  | nil => cases hf
  | cons j is ih =>
    rw [firstFreelist] at hf
    cases hj : p.freelist j with
    | none =>
      rw [hj] at hf
      obtain ⟨pre, post, rfl, hpre, hav⟩ := ih hf
      refine ⟨j :: pre, post, rfl, fun k hk => ?_, ?_⟩
      · rcases List.mem_cons.mp hk with rfl | hk
        · exact hj
        · exact hpre k hk
      · rw [availFrom, hj]
        exact hav
    | some a =>
      rw [hj, Option.some_inj, Prod.mk.injEq] at hf
      obtain ⟨rfl, rfl⟩ := hf
      refine ⟨[], is, rfl, by simp, ?_⟩
      rw [availFrom, hj]

/-- A list whose head fits ends the search. -/
theorem availFrom_some {is : List (Fin 5)} (hf : Family (listLinks p) (heads p) L) (hj : j ∈ is)
    (ho : p.freelist j = some o)
    (hfit : ∀ k ∈ is, ∀ a, p.freelist k = some a → size ≤ p.rd a .size) :
    ∃ r, availFrom p size is = some r ∧ size ≤ p.rd r .size := by
  induction is with
  | nil => cases hj
  | cons k is ih =>
    cases hk : p.freelist k with
    | none =>
      have hj' : j ∈ is := by
        rcases List.mem_cons.mp hj with rfl | hj
        · rw [ho] at hk
          cases hk
        · exact hj
      rw [availFrom, hk]
      exact ih hj' fun c hc => hfit c (List.mem_cons_of_mem _ hc)
    | some a =>
      have hhead : (L (.free k)).head? = some a := (hf.head_eq (.free k)).symm.trans hk
      have hscan := (@scanFreelist_spec _ _ size _ (hf.seg (.free k)) (maxSearchInPool+1) a).2
        (hfit k List.mem_cons_self a hk)
      rw [hhead] at hscan
      rw [availFrom, hk]
      exact ⟨_, if_pos hscan.2.1, hscan.2.1⟩

end Scan

section Classes

theorem getFreeidx_mono {m n : ℕ} (h : m ≤ n) : getFreeidx m ≤ getFreeidx n := by
  unfold getFreeidx
  split_ifs <;> first | decide | omega

theorem fits_above (hi : HeapInv p T L) (hb : L .busy ≠ []) (ho : o ∈ L (.free j))
    (hj : getFreeidx size < j) : size ≤ p.rd o .size := by
  by_contra hlt
  have hle := getFreeidx_mono (Nat.le_of_not_le hlt)
  rw [hi.classes hb j o ho] at hle
  exact absurd (lt_of_le_of_lt hle hj) (lt_irrefl _)

theorem head_mem (hi : HeapInv p T L) (ho : p.freelist j = some o) : o ∈ L (.free j) :=
  List.mem_of_head? ((hi.lists.head_eq (.free j)).symm.trans ho)

theorem head_of_mem (hi : HeapInv p T L) (ho : o ∈ L (.free j)) : ∃ a, p.freelist j = some a := by
  cases hf : p.freelist j with
  | some a => exact ⟨a, rfl⟩
  | none =>
    have hnil := List.head?_eq_none_iff.mp ((hi.lists.head_eq (.free j)).symm.trans hf)
    rw [hnil] at ho
    cases ho

end Classes

section Sent

variable {post : List (Fin 5)}

/-- The list the search is sent to, and the classes it goes on with. -/
theorem getAvaildata_sent (hi : HeapInv p T L) (hsel : mempoolGetFreelist p size = some (h, i)) :
    (L (.free i)).head? = some h ∧ ∃ post, i ∉ post ∧ (∀ j ∈ post, getFreeidx size < j) ∧
      (∀ j > i, ∀ o ∈ L (.free j), j ∈ post) ∧ getAvaildata p size =
        if p.rd (scanFreelist p size (maxSearchInPool+1) (some h) h) .size ≥ size then
          some (scanFreelist p size (maxSearchInPool+1) (some h) h)
        else availFrom p size post := by
  obtain ⟨hmem, hhead⟩ := firstFreelist_eq_some hsel
  obtain ⟨pre, post, his, hpre, hav⟩ := @availFrom_first _ _ size _ _ hsel
  have hsorted : (classesFrom (getFreeidx size)).Pairwise (· < ·) := by
    apply List.Pairwise.filter
    decide
  rw [his, List.pairwise_append, List.pairwise_cons] at hsorted
  have hle := mem_classesFrom.mp hmem
  refine ⟨(hi.lists.head_eq (.free i)).symm.trans hhead, post, fun hm => ?_, fun j hj => ?_,
    fun j hj o ho => ?_, hav⟩
  · exact lt_irrefl _ (hsorted.2.1.1 i hm)
  · exact lt_of_le_of_lt hle (hsorted.2.1.1 j hj)
  · have hjm : j ∈ classesFrom (getFreeidx size) :=
      mem_classesFrom.mpr (le_of_lt (lt_of_le_of_lt hle hj))
    rw [his] at hjm
    rcases List.mem_append.mp hjm with hjm | hjm
    · obtain ⟨a, ha⟩ := head_of_mem hi ho
      rw [hpre j hjm] at ha
      cases ha
    · rcases List.mem_cons.mp hjm with rfl | hjm
      · exact absurd hj (lt_irrefl _)
      · exact hjm

theorem scan_short (hi : HeapInv p T L) (hhead : (L (.free i)).head? = some h)
    (hlt : p.rd h .size < size) : scanFreelist p size (maxSearchInPool+1) (some h) h = h := by
  have hscan := (@scanFreelist_spec _ _ size _ (hi.lists.seg (.free i)) (maxSearchInPool+1) h).1 hlt
  rwa [hhead] at hscan

theorem scan_fits (hi : HeapInv p T L) (hhead : (L (.free i)).head? = some h)
    (hfit : size ≤ p.rd h .size) :
    Fittest p size (examined L i) (scanFreelist p size (maxSearchInPool+1) (some h) h) := by
  have hscan := (@scanFreelist_spec _ _ size _ (hi.lists.seg (.free i)) (maxSearchInPool+1) h).2 hfit
  rw [hhead] at hscan
  obtain ⟨hm, hs, hmin⟩ := hscan
  have hex : h ∈ examined L i := by
    obtain ⟨l, hl⟩ := List.head?_eq_some_iff.mp hhead
    rw [examined, hl]
    exact List.mem_cons_self
  refine ⟨?_, hs, fun o ho => hmin o (List.mem_cons_of_mem _ ho)⟩
  rcases List.mem_cons.mp hm with hm | hm
  · rw [hm]
    exact hex
  · exact hm

theorem availFrom_above (hi : HeapInv p T L) (hb : L .busy ≠ [])
    (hpost : ∀ k ∈ post, getFreeidx size < k) (hj : j ∈ post) (ho : o ∈ L (.free j)) :
    ∃ r, availFrom p size post = some r ∧ size ≤ p.rd r .size := by
  obtain ⟨a, ha⟩ := head_of_mem hi ho
  exact availFrom_some hi.lists hj ha fun k hk c hc =>
    fits_above hi hb (head_mem hi hc) (hpost k hk)

end Sent

/-- The search does what it should exactly when the head of the list it is sent
to fits, or nothing it examines there does. -/
theorem getAvaildata_finds (p : Pool) (T : List ℕ) (L : Cls → List ℕ) (size : ℕ)
    (hi : HeapInv p T L) (hb : L .busy ≠ []) :
    Finds p L size ↔ ∀ h i, mempoolGetFreelist p size = some (h, i) →
      size ≤ p.rd h .size ∨ ∀ o ∈ examined L i, p.rd o .size < size := by
  constructor
  · intro hfinds h i hsel
    by_contra hno
    rw [not_or] at hno
    obtain ⟨hsmall, hex⟩ := hno
    simp only [not_forall, Nat.not_lt] at hex
    obtain ⟨o, ho, hos⟩ := hex
    obtain ⟨hhead, post, hip, -, -, hav⟩ := getAvaildata_sent hi hsel
    obtain ⟨r, hr, hrm, hrs, -⟩ := (hfinds h i hsel).2 ⟨o, ho, hos⟩
    -- the head stays the candidate, so the block comes out of a later class
    rw [scan_short hi hhead (Nat.lt_of_not_le hsmall), if_neg hsmall] at hav
    rw [hav] at hr
    obtain ⟨j, hj, hrj, -⟩ := availFrom_mem hi.lists hr
    have hne : (Cls.free i) ≠ .free j := fun he => hip (by
      rw [Cls.free.injEq] at he
      exact he ▸ hj)
    exact hi.lists.disjoint _ _ hne r (List.mem_of_mem_take hrm) hrj
  · intro hcond h i hsel
    obtain ⟨hhead, post, -, hpost, habove, hav⟩ := getAvaildata_sent hi hsel
    rcases hcond h i hsel with hfit | hnone
    · have hr := scan_fits hi hhead hfit
      rw [if_pos hr.2.1] at hav
      exact ⟨fun _ => ⟨_, hav, hr.2.1⟩, fun _ => ⟨_, hav, hr⟩⟩
    · have hex : ¬∃ o ∈ examined L i, size ≤ p.rd o .size := by
        rintro ⟨o, ho, hos⟩
        have := hnone o ho
        omega
      refine ⟨fun hany => ?_, fun h => absurd h hex⟩
      obtain ⟨j, hj, o, ho, -⟩ := hany.resolve_left hex
      obtain ⟨r, hr, hrs⟩ := availFrom_above hi hb hpost (habove j hj o ho) ho
      rw [hav]
      split
      · next hs => exact ⟨_, rfl, hs⟩
      · exact ⟨r, hr, hrs⟩

section Misses

/-- A pool of 600 bytes: a free block of 100 bytes, a busy one of 20, a free one
of 32 and a busy one of 256. The list of the class of both free blocks starts
with the smaller one. -/
def missing : Pool :=
  let d := set (set (set (fun _ => 0) 0 .size 100) 0 .prev 120) 0 .next NULL
  let d := set (set d 0 .realprev NULL) 0 .realnext 100
  let d := set (set (set (set d 100 .offset 100) 100 .size 20) 100 .prev NULL) 100 .next 152
  let d := setStatus (set (set d 100 .realprev 0) 100 .realnext 120) 100 1
  let d := set (set (set (set d 120 .offset 120) 120 .size 32) 120 .prev NULL) 120 .next 0
  let d := set (set d 120 .realprev 100) 120 .realnext 152
  let d := set (set (set (set d 152 .offset 152) 152 .size 256) 152 .prev 100) 152 .next NULL
  let d := setStatus (set (set d 152 .realprev 120) 152 .realnext NULL) 152 1
  { freelist := fun i => if i = 0 then some 120 else none, busylist := some 100, prev := none,
    next := none, pool_size := 600, leftsize := 132, failed := 0, data := d }

def missingLists : Cls → List ℕ
  | .free i => if i = 0 then [120, 0] else []
  | .busy => [100, 152]

theorem missing_mem {c : Cls} {a : ℕ} :
    a ∈ missingLists c ↔ c = .free 0 ∧ (a = 120 ∨ a = 0) ∨ c = .busy ∧ (a = 100 ∨ a = 152) := by
  cases c with
  | free i =>
    by_cases hi : i = 0 <;> simp [missingLists, hi]
  | busy => simp [missingLists]

theorem missing_seg (c : Cls) : Seg (listLinks missing) none (missingLists c) none := by
  cases c with
  | free i =>
    by_cases hi : i = 0
    · subst hi
      exact ⟨by decide, by decide, by decide, by decide, trivial⟩
    · rw [missingLists, if_neg hi]
      trivial
  | busy => exact ⟨by decide, by decide, by decide, by decide, trivial⟩

theorem missing_inv : HeapInv missing [0, 100, 120, 152] missingLists where
  size_ok := by
    unfold SizeOk
    decide
  tiles :=
    ⟨rfl, by decide, by decide, by decide, by decide, by decide, by decide, by decide, rfl⟩
  offset := by decide
  order :=
    ⟨by decide, by decide, by decide, by decide, by decide, by decide, by decide, by decide, trivial⟩
  lists :=
    { seg := missing_seg
      head_eq := fun c => by
        cases c with
        | free i => by_cases hi : i = 0 <;> simp [heads, missing, missingLists, hi]
        | busy => rfl
      nodup := fun c => by
        cases c with
        | free i => by_cases hi : i = 0 <;> simp [missingLists, hi]
        | busy => decide
      disjoint := fun c c' hne a ha ha' => by
        rw [missing_mem] at ha ha'
        rcases ha with ⟨rfl, ha⟩ | ⟨rfl, ha⟩
        · rcases ha' with ⟨rfl, -⟩ | ⟨-, ha'⟩
          · exact hne rfl
          · omega
        · rcases ha' with ⟨-, ha'⟩ | ⟨rfl, -⟩
          · omega
          · exact hne rfl }
  status := by decide
  mem_free a := by
    simp only [missing_mem, Cls.free.injEq, reduceCtorEq, false_and, or_false]
    constructor
    · rintro ⟨i, rfl, rfl | rfl⟩ <;> decide
    · rintro ⟨ha, hs⟩
      refine ⟨0, rfl, ?_⟩
      simp only [List.mem_cons, List.not_mem_nil, or_false] at ha
      rcases ha with rfl | rfl | rfl | rfl <;> revert hs <;> decide
  mem_busy a := by
    simp only [missing_mem, reduceCtorEq, false_and, false_or, true_and]
    constructor
    · rintro (rfl | rfl) <;> decide
    · rintro ⟨ha, hs⟩
      simp only [List.mem_cons, List.not_mem_nil, or_false] at ha
      rcases ha with rfl | rfl | rfl | rfl <;> revert hs <;> decide
  classes _ i a ha := by
    rcases missing_mem.mp ha with ⟨hi, ha⟩ | ⟨hi, -⟩
    · rw [Cls.free.injEq] at hi
      rcases ha with rfl | rfl <;> rw [hi] <;> decide
    · cases hi
  pristine h := by cases h
  coalesced := by
    simp only [List.isChain_cons_cons, List.isChain_singleton, Settled]
    decide
  left := by decide

/-- A request for 90 bytes that the second block of its list could serve. -/
theorem getAvaildata_misses :
    ¬∀ (p : Pool) (T : List ℕ) (L : Cls → List ℕ) (size : ℕ), HeapInv p T L → L .busy ≠ [] →
      Finds p L size := by
  intro h
  have hsel : mempoolGetFreelist missing 90 = some (120, 0) := by decide
  have hfit : ∃ o ∈ examined missingLists 0, 90 ≤ missing.rd o .size := ⟨0, by decide, by decide⟩
  obtain ⟨r, hr, -⟩ := (h missing _ missingLists 90 missing_inv (by decide) 120 0 hsel).2 hfit
  have hnone : getAvaildata missing 90 = none := by decide
  rw [hnone] at hr
  cases hr

/-- Twenty bytes are found in the first block of the list. -/
theorem getAvaildata_finds_twenty : Finds missing missingLists 20 := by
  have hsel : mempoolGetFreelist missing 20 = some (120, 0) := by decide
  refine (getAvaildata_finds missing [0, 100, 120, 152] missingLists 20 missing_inv (by decide)).mpr
    fun h i hi => ?_
  rw [hsel, Option.some_inj, Prod.mk.injEq] at hi
  obtain ⟨rfl, rfl⟩ := hi
  exact Or.inl (by decide)

end Misses

end CLearning.MempoolSearch
