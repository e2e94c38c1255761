import CLearning.Mempool
import CLearning.LinkedLists

/-!
# The chain of pools

The base pool and the pools linked behind it form one doubly linked list, the
parked pools another. Every operation that relinks pools is specified by what
it makes of the two lists; it leaves what is in the pools alone.
-/

set_option autoImplicit false

namespace CLearning.MempoolChain
open CLearning.Machine CLearning.LinkedLists CLearning.MempoolPool CLearning.MempoolState
open CLearning.Mempool

inductive Ring where
  | linked
  | parked
  deriving DecidableEq

def chainLinks (s : State) : Links ℕ := ⟨fun a => (s.pools a).prev, fun a => (s.pools a).next⟩

def chainHeads (s : State) : Ring → Option ℕ
  | .linked => some s.base
  | .parked => s.property.freepool

def rings (base : ℕ) (ps fs : List ℕ) : Ring → List ℕ
  | .linked => base :: ps
  | .parked => fs

/-- `ps` are the linked pools behind the base pool and `fs` the parked ones. -/
structure Chain (s : State) (ps fs : List ℕ) : Prop where
  family : Family (chainLinks s) (chainHeads s) (rings s.base ps fs)
  tail : s.property.pooltail = ps.getLast?
  count : s.property.pfree_count = fs.length

structure Relinked (s s' : State) : Prop where
  pools : ∀ a, s'.pools a =
    { s.pools a with prev := (s'.pools a).prev, next := (s'.pools a).next }
  same : s' = { s with
    pools := s'.pools
    property := { s.property with
      freepool := s'.property.freepool
      pooltail := s'.property.pooltail
      pfree_count := s'.property.pfree_count } }

theorem Relinked.refl (s : State) : Relinked s s := ⟨fun _ => rfl, rfl⟩

theorem Relinked.trans {s t u : State} (h : Relinked s t) (h' : Relinked t u) : Relinked s u where
  pools a := by rw [h'.pools a, h.pools a]
  same := by rw [h'.same, h.same]

section Stores

variable {s : State} {a b : ℕ} {v : Option ℕ}

theorem setNext_next : ((s.setNext a v).pools b).next = if b = a then v else (s.pools b).next := by
  by_cases h : b = a <;> simp [State.setNext, State.setPool, h]

theorem setNext_prev : ((s.setNext a v).pools b).prev = (s.pools b).prev := by
  by_cases h : b = a <;> simp [State.setNext, State.setPool, h]

theorem setPrev_prev : ((s.setPrev a v).pools b).prev = if b = a then v else (s.pools b).prev := by
  by_cases h : b = a <;> simp [State.setPrev, State.setPool, h]

theorem setPrev_next : ((s.setPrev a v).pools b).next = (s.pools b).next := by
  by_cases h : b = a <;> simp [State.setPrev, State.setPool, h]

theorem setPrev?_prev {a : Option ℕ} :
    ((s.setPrev? a v).pools b).prev = if a = some b then v else (s.pools b).prev := by
  cases a with
  | none => simp [State.setPrev?]
  | some a => simp [State.setPrev?, setPrev_prev, eq_comm]

theorem setPrev?_next {a : Option ℕ} : ((s.setPrev? a v).pools b).next = (s.pools b).next := by
  cases a with
  | none => rfl
  | some a => exact setPrev_next

theorem setNext?_next {a : Option ℕ} :
    ((s.setNext? a v).pools b).next = if a = some b then v else (s.pools b).next := by
  cases a with
  | none => simp [State.setNext?]
  | some a => simp [State.setNext?, setNext_next, eq_comm]

theorem setNext?_prev {a : Option ℕ} : ((s.setNext? a v).pools b).prev = (s.pools b).prev := by
  cases a with
  | none => rfl
  | some a => exact setNext_prev

theorem relinked_setNext (s : State) (a : ℕ) (v : Option ℕ) : Relinked s (s.setNext a v) := by
  refine ⟨fun b => ?_, rfl⟩
  by_cases h : b = a <;> simp [State.setNext, State.setPool, h]

theorem relinked_setPrev (s : State) (a : ℕ) (v : Option ℕ) : Relinked s (s.setPrev a v) := by
  refine ⟨fun b => ?_, rfl⟩
  by_cases h : b = a <;> simp [State.setPrev, State.setPool, h]

theorem relinked_property (s : State) (f t : Option ℕ) (c : ℕ) : Relinked s { s with
    property := { s.property with freepool := f, pooltail := t, pfree_count := c } } :=
  ⟨fun _ => rfl, rfl⟩

theorem relinked_setPrev? (s : State) (a v : Option ℕ) : Relinked s (s.setPrev? a v) := by
  cases a with
  | none => exact Relinked.refl s
  | some a => exact relinked_setPrev s a v

theorem relinked_setNext? (s : State) (a v : Option ℕ) : Relinked s (s.setNext? a v) := by
  cases a with
  | none => exact Relinked.refl s
  | some a => exact relinked_setNext s a v

@[simp] theorem setNext_property : (s.setNext a v).property = s.property := rfl
@[simp] theorem setPrev_property : (s.setPrev a v).property = s.property := rfl
@[simp] theorem setNext_base : (s.setNext a v).base = s.base := rfl
@[simp] theorem setPrev_base : (s.setPrev a v).base = s.base := rfl

@[simp] theorem setPrev?_property {a : Option ℕ} : (s.setPrev? a v).property = s.property := by
  cases a <;> rfl

@[simp] theorem setPrev?_base {a : Option ℕ} : (s.setPrev? a v).base = s.base := by
  cases a <;> rfl

@[simp] theorem setNext?_property {a : Option ℕ} : (s.setNext? a v).property = s.property := by
  cases a <;> rfl

@[simp] theorem setNext?_base {a : Option ℕ} : (s.setNext? a v).base = s.base := by
  cases a <;> rfl

end Stores

section Rings

variable {s s' : State} {ps ps' fs fs' : List ℕ} {a b : ℕ}

theorem update_linked (l : List ℕ) :
    Function.update (rings b ps fs) .linked (b :: l) = rings b l fs := by
  funext r
  cases r <;> simp [rings]

theorem update_parked (l : List ℕ) :
    Function.update (rings b ps fs) .parked l = rings b ps l := by
  funext r
  cases r <;> simp [rings]

theorem Chain.nodup (h : Chain s ps fs) : (s.base :: ps).Nodup := h.family.nodup .linked

theorem Chain.not_parked (h : Chain s ps fs) (ha : a ∈ s.base :: ps) : a ∉ fs :=
  h.family.disjoint .linked .parked (by simp) a ha

theorem Chain.base_not_mem (h : Chain s ps fs) : s.base ∉ ps := (List.nodup_cons.mp h.nodup).1

theorem Chain.congr (h : Chain s ps fs) (hb : s'.base = s.base)
    (hf : s'.property.freepool = s.property.freepool)
    (ht : s'.property.pooltail = s.property.pooltail)
    (hc : s'.property.pfree_count = s.property.pfree_count)
    (hp : ∀ a, (s'.pools a).prev = (s.pools a).prev)
    (hn : ∀ a, (s'.pools a).next = (s.pools a).next) : Chain s' ps fs where
  family := by
    rw [hb]
    refine h.family.congr (fun r => ?_) (fun _ a _ => hp a) (fun _ a _ => hn a)
    cases r with
    | linked => simp [chainHeads, hb]
    | parked => exact hf
  tail := ht.trans h.tail
  count := hc.trans h.count

theorem Chain.base_next (h : Chain s ps fs) : (s.pools s.base).next = ps.head? := by
  have := (h.family.seg .linked)
  simpa [rings, chainLinks] using this.2.1

theorem Chain.neighbours {p₁ p₂ : List ℕ} (h : Chain s (p₁ ++ a :: p₂) fs) :
    (s.pools a).prev = some ((s.base :: p₁).getLast (by simp)) ∧
      (s.pools a).next = p₂.head? := by
  have hs := h.family.seg .linked
  rw [show rings s.base (p₁ ++ a :: p₂) fs .linked = (s.base :: p₁) ++ a :: p₂ from rfl] at hs
  have := hs.neighbours
  rw [Option.or_none, Option.or_none, List.getLast?_eq_getLast_of_ne_nil (by simp)] at this
  exact this

end Rings

section Moves

variable {s s' : State} {ps fs p₁ p₂ : List ℕ} {a b : ℕ}

theorem erase_mid (hb : b ≠ a) (ha : a ∉ p₁) :
    (b :: (p₁ ++ a :: p₂)).erase a = b :: (p₁ ++ p₂) := by
  rw [List.erase_cons_tail (by simpa using hb), List.erase_append_right _ ha, List.erase_cons_head]

theorem Chain.split (h : Chain s ps fs) (ha : a ∈ ps) :
    ∃ p₁ p₂, ps = p₁ ++ a :: p₂ ∧ s.base ≠ a ∧ a ∉ p₁ ∧ a ∉ p₂ := by
  obtain ⟨p₁, p₂, rfl⟩ := List.append_of_mem ha
  have hnd := h.nodup
  rw [List.nodup_cons, List.nodup_append, List.nodup_cons] at hnd
  refine ⟨p₁, p₂, rfl, fun hc => hnd.1 (by simp [hc]), fun hc => ?_, hnd.2.2.1.1⟩
  exact hnd.2.2.2 a hc a (by simp) rfl

theorem Chain.family_unlink (h : Chain s (p₁ ++ a :: p₂) fs) {s' : State}
    (hb : s'.base = s.base) (hf : s'.property.freepool = s.property.freepool)
    (hn : ∀ x, x ≠ a → (s'.pools x).next =
      if (s.pools a).prev = some x then (s.pools a).next else (s.pools x).next)
    (hp : ∀ x, x ≠ a → (s'.pools x).prev =
      if (s.pools a).next = some x then (s.pools a).prev else (s.pools x).prev) :
    Family (chainLinks s') (chainHeads s') (rings s.base (p₁ ++ p₂) fs) := by
  obtain ⟨q₁, q₂, -, hba, -, -⟩ := h.split (a := a) (by simp)
  have hnd := h.nodup
  rw [List.nodup_cons, List.nodup_append] at hnd
  have ha : a ∉ p₁ := fun hc => hnd.2.2.2 a hc a (by simp) rfl
  have hu : Family (chainLinks s') (chainHeads s') _ := h.family.unlink (i := .linked) (a := a)
    (by simp [rings]) (fun j x _ hx => hn x hx) (fun j x _ hx => hp x hx)
    (by simp [chainHeads, hb, hba]) (fun j hj => by
      cases j with
      | linked => exact absurd rfl hj
      | parked => exact hf)
  rw [show (rings s.base (p₁ ++ a :: p₂) fs .linked).erase a = s.base :: (p₁ ++ p₂) from
    erase_mid hba ha, update_linked] at hu
  exact hu

theorem Chain.outside (h : Chain s (p₁ ++ a :: p₂) fs) (r : Ring) :
    a ∉ rings s.base (p₁ ++ p₂) fs r := by
  have hnd := h.nodup
  rw [List.nodup_cons, List.nodup_middle, List.nodup_cons] at hnd
  intro hr
  cases r with
  | linked =>
    rcases List.mem_cons.mp hr with hc | hc
    · exact hnd.1 (by simp [hc])
    · exact hnd.2.1 hc
  | parked => exact h.not_parked (by simp) hr

theorem mempoolMove2tail_last (h : Chain s ps fs) (ha : a = s.base ∨ ps.getLast? = some a) :
    mempoolMove2tail s a = .ok s := by
  rw [mempoolMove2tail, if_pos]
  rcases ha with ha | ha
  · exact Or.inl ha
  · exact Or.inr (h.tail.trans ha)

theorem mempoolMove2tail_spec (h : Chain s (p₁ ++ a :: p₂) fs) (hp₂ : p₂ ≠ []) :
    ∃ s', mempoolMove2tail s a = .ok s' ∧ Chain s' (p₁ ++ p₂ ++ [a]) fs ∧ Relinked s s' := by
  obtain ⟨hprev, hnext⟩ := h.neighbours
  have hnd := h.nodup
  have hnd' := hnd
  rw [List.nodup_cons, List.nodup_append, List.nodup_cons] at hnd'
  have hba : s.base ≠ a := fun hc => hnd'.1 (by simp [hc])
  have ha₁ : a ∉ p₁ := fun hc => hnd'.2.2.2 a hc a (by simp) rfl
  have ha₂ : a ∉ p₂ := hnd'.2.2.1.1
  obtain ⟨t, ht⟩ : ∃ t, p₂.getLast? = some t := by
    rw [← Option.ne_none_iff_exists', ne_eq, List.getLast?_eq_none_iff]
    exact hp₂
  obtain ⟨n, hn⟩ : ∃ n, p₂.head? = some n := by
    rw [← Option.ne_none_iff_exists', ne_eq, List.head?_eq_none_iff]
    exact hp₂
  have htm := List.mem_of_getLast? ht
  have hta : t ≠ a := fun hc => ha₂ (hc ▸ htm)
  have htail : s.property.pooltail = some t := by
    rw [h.tail, List.getLast?_append_of_ne_nil _ (by simp), List.getLast?_cons, ht]
    rfl
  generalize hp : (s.base :: p₁).getLast (by simp) = p at hprev
  have hpm : p ∈ s.base :: p₁ := hp ▸ List.getLast_mem _
  have hpa : p ≠ a := by
    rintro rfl
    rcases List.mem_cons.mp hpm with hc | hc
    · exact hba hc.symm
    · exact ha₁ hc
  set s₁ := ((((s.setNext p (some n)).setPrev n (some p)).setNext a none).setPrev a none) with hs₁
  set s₂ := (s₁.setNext t (some a)).setPrev a (some t) with hs₂
  have hrun : mempoolMove2tail s a =
      .ok { s₂ with property := { s₂.property with pooltail := some a } } := by
    rw [mempoolMove2tail, if_neg (by rw [htail]; simp [hta, Ne.symm hba])]
    simp only [hprev, deref_some, ok_bind, setNext_next, setNext_prev, Ne.symm hpa, if_false, hnext,
      hn, setPrev_property, setNext_property, htail, ← hs₁, ← hs₂]
    rfl
  have hf₁ : Family (chainLinks s₁) (chainHeads s₁) (rings s.base (p₁ ++ p₂) fs) := by
    refine h.family_unlink rfl rfl (fun x hx => ?_) (fun x hx => ?_)
    · simp only [hs₁, setPrev_next, setNext_next, hx, if_false, hprev, hnext, hn, Option.some.injEq,
        eq_comm]
    · simp only [hs₁, setPrev_prev, setNext_prev, hx, if_false, hprev, hnext, hn, Option.some.injEq,
        eq_comm]
  have hout := h.outside
  have hlast : (s.base :: (p₁ ++ p₂)).getLast? = some t := by
    rw [List.getLast?_cons, List.getLast?_append_of_ne_nil _ hp₂, ht]
    rfl
  refine ⟨_, hrun, ⟨?_, ?_, h.count⟩, ?_⟩
  · have hmid : rings s.base (p₁ ++ p₂) fs .linked = s.base :: (p₁ ++ p₂) ++ [] := by simp [rings]
    have hi : Family (chainLinks s₂) (chainHeads s₂) _ := hf₁.insert (a := a) hmid hout ?_ ?_
      (fun j x hx => ?_) (fun j x hx => ?_) ?_ (fun j hj => ?_)
    · rw [show s.base :: (p₁ ++ p₂) ++ [a] = s.base :: (p₁ ++ p₂ ++ [a]) by simp,
        update_linked] at hi
      exact hi.congr (fun r => by cases r <;> rfl) (fun _ _ _ => rfl) (fun _ _ _ => rfl)
    · simp [chainLinks, hs₂, setPrev_prev, hlast]
    · simp [chainLinks, hs₂, setPrev_next, setNext_next, Ne.symm hta, hs₁]
    · rw [hlast]
      simp only [chainLinks, hs₂, setPrev_next, setNext_next, Option.some.injEq, eq_comm]
    · have hxa : x ≠ a := fun hc => hout j (hc ▸ hx)
      simp [chainLinks, hs₂, setPrev_prev, setNext_prev, hxa]
    · simp [chainHeads, hs₂, hs₁]
    · cases j with
      | linked => exact absurd rfl hj
      | parked => rfl
  · simp
  · have hr : Relinked s s₂ := by
      rw [hs₂, hs₁]
      exact (((((relinked_setNext s p _).trans (relinked_setPrev _ n _)).trans
        (relinked_setNext _ a _)).trans (relinked_setPrev _ a _)).trans
          (relinked_setNext _ t _)).trans (relinked_setPrev _ a _)
    exact ⟨hr.pools, by rw [hr.same]⟩

theorem moveflag_ok (h : Chain s ps fs) (pool fuel flag : ℕ) {b : ℕ} (hb : b ∈ ps) :
    ∃ f, moveflag s pool fuel (some b) flag = .ok f := by
  induction fuel generalizing flag b with
  | zero => exact ⟨flag, rfl⟩
  | succ fuel ih =>
    simp only [moveflag, deref_some, ok_bind]
    split
    · split
      · exact ⟨_, rfl⟩
      · rename_i hstop
        rw [not_or] at hstop
        obtain ⟨c, hc⟩ := Option.ne_none_iff_exists'.mp hstop.2
        rw [hc]
        obtain ⟨p₁, p₂, rfl⟩ := List.append_of_mem hb
        rw [h.neighbours.2] at hc
        exact ih _ (by simp [List.mem_of_head? hc])
    · exact ⟨flag, rfl⟩

/-- The pool stays where it is or becomes the first linked pool. -/
theorem mempoolMove2header_spec (h : Chain s ps fs) (ha : a ∈ s.base :: ps) :
    ∃ s' ps', mempoolMove2header s a = .ok s' ∧ Chain s' ps' fs ∧ ps'.Perm ps ∧
      Relinked s s' := by
  by_cases hstay : a = s.base ∨ (s.pools s.base).next = some a
  · exact ⟨s, ps, by rw [mempoolMove2header, if_pos hstay], h, List.Perm.refl _,
      Relinked.refl s⟩
  rw [not_or] at hstay
  have hap : a ∈ ps := by
    rcases List.mem_cons.mp ha with hc | hc
    · exact absurd hc hstay.1
    · exact hc
  obtain ⟨p₁, p₂, rfl, hba, -, ha₂⟩ := h.split hap
  have hhead := h.base_next
  have hp₁ : p₁ ≠ [] := by
    rintro rfl
    rw [hhead] at hstay
    exact hstay.2 rfl
  obtain ⟨m, hm⟩ : ∃ m, p₁.head? = some m := by
    rw [← Option.ne_none_iff_exists', ne_eq, List.head?_eq_none_iff]
    exact hp₁
  have hmem : m ∈ p₁ := List.mem_of_head? hm
  have hbm : (s.pools s.base).next = some m := by
    rw [hhead, List.head?_append_of_ne_nil _ hp₁, hm]
  obtain ⟨flag, hflag⟩ := moveflag_ok h a (mempoolFailedSkip / 2+1) 0
    (b := m) (by simp [hmem])
  by_cases hf : flag > mempoolFailedSkip / 2
  swap
  · refine ⟨s, _, ?_, h, List.Perm.refl _, Relinked.refl s⟩
    rw [mempoolMove2header, if_neg (not_or.mpr hstay), hbm, hflag, ok_bind, if_neg hf]
  obtain ⟨hprev, -⟩ := h.neighbours
  have hnd := h.nodup
  rw [List.nodup_cons, List.nodup_append, List.nodup_cons] at hnd
  rw [List.getLast_cons hp₁] at hprev
  generalize hp : p₁.getLast hp₁ = p at hprev
  have hpm : p ∈ p₁ := hp ▸ List.getLast_mem _
  have hbp : s.base ≠ p := fun hc => hnd.1 (by simp [hc, hpm])
  set s₀ := if s.property.pooltail = some a then
      { s with property := { s.property with pooltail := (s.pools a).prev } } else s with hs₀
  have h₀ : s₀.pools = s.pools ∧ s₀.base = s.base ∧ s₀.property.freepool = s.property.freepool ∧
      s₀.property.pfree_count = s.property.pfree_count ∧
      s₀.property.pooltail = (p₁ ++ p₂).getLast? ∧ Relinked s s₀ := by
    rw [hs₀]
    have htail := h.tail
    by_cases hp₂ : p₂ = []
    · subst hp₂
      rw [List.getLast?_append_of_ne_nil _ (by simp), List.getLast?_singleton] at htail
      rw [if_pos htail, List.append_nil, List.getLast?_eq_getLast_of_ne_nil hp₁, hp]
      exact ⟨rfl, rfl, rfl, rfl, hprev, ⟨fun _ => rfl, rfl⟩⟩
    · obtain ⟨t, ht⟩ : ∃ t, p₂.getLast? = some t := by
        rw [← Option.ne_none_iff_exists', ne_eq, List.getLast?_eq_none_iff]
        exact hp₂
      rw [List.getLast?_append_of_ne_nil _ (by simp), List.getLast?_cons, ht] at htail
      have hta : t ≠ a := fun hc => ha₂ (hc ▸ List.mem_of_getLast? ht)
      rw [if_neg (by rw [htail]; simp [hta])]
      refine ⟨rfl, rfl, rfl, rfl, ?_, Relinked.refl s⟩
      rw [htail, List.getLast?_append_of_ne_nil _ hp₂, ht]
      rfl
  clear_value s₀
  obtain ⟨hk₀, hb₀, hf₀, hc₀, ht₀, hr₀⟩ := h₀
  set s₁ := (s₀.setNext p (s.pools a).next).setPrev? (s.pools a).next (some p) with hs₁
  set s₂ := (((s₁.setNext a (some m)).setPrev m (some a)).setNext s.base (some a)).setPrev a
    (some s.base) with hs₂
  have hbm₁ : (s₁.pools s.base).next = some m := by
    rw [hs₁, setPrev?_next, setNext_next, if_neg hbp, hk₀, hbm]
  have hrun : mempoolMove2header s a = .ok s₂ := by
    rw [mempoolMove2header, if_neg (not_or.mpr hstay), hbm, hflag, ok_bind, if_pos hf]
    simp only [← hs₀]
    rw [hk₀, hprev, deref_some, ok_bind, ← hs₁]
    have hb₁ : s₁.base = s.base := by simp [hs₁, hb₀]
    simp only [setPrev_base, setNext_base, hb₁]
    rw [hbm₁, deref_some, ok_bind]
  have hb₁ : s₁.base = s.base := by simp [hs₁, hb₀]
  have hprop : s₁.property = s₀.property := by simp [hs₁]
  have hf₁ : Family (chainLinks s₁) (chainHeads s₁) (rings s.base (p₁ ++ p₂) fs) := by
    refine h.family_unlink hb₁ (by rw [hprop, hf₀]) (fun x hx => ?_) (fun x hx => ?_)
    · simp only [hs₁, setPrev?_next, setNext_next, hk₀, hprev, Option.some.injEq, eq_comm]
    · simp only [hs₁, setPrev?_prev, setNext_prev, hk₀, hprev]
  have hout := h.outside
  have hhm : (p₁ ++ p₂).head? = some m := by rw [List.head?_append_of_ne_nil _ hp₁, hm]
  refine ⟨s₂, a :: (p₁ ++ p₂), hrun, ⟨?_, ?_, ?_⟩, List.perm_middle.symm, ?_⟩
  · have hmid : rings s.base (p₁ ++ p₂) fs .linked = [s.base] ++ (p₁ ++ p₂) := rfl
    have hi : Family (chainLinks s₂) (chainHeads s₂) _ := hf₁.insert (a := a) hmid hout ?_ ?_
      (fun j x hx => ?_) (fun j x hx => ?_) ?_ (fun j hj => ?_)
    · rw [List.singleton_append, update_linked] at hi
      rw [show s₂.base = s.base by simp [hs₂, hb₁]]
      exact hi
    · simp [chainLinks, hs₂, setPrev_prev]
    · simp [chainLinks, hs₂, setPrev_next, setNext_next, Ne.symm hba, hhm]
    · have hxa : x ≠ a := fun hc => hout j (hc ▸ hx)
      simp only [chainLinks, hs₂, setPrev_next, setNext_next, hxa, if_false, List.getLast?_singleton,
        Option.some.injEq]
      simp only [eq_comm]
    · have hxa : x ≠ a := fun hc => hout j (hc ▸ hx)
      simp only [chainLinks, hs₂, setPrev_prev, setNext_prev, hxa, if_false, hhm,
        Option.some.injEq]
      simp only [eq_comm]
    · simp [chainHeads, hs₂, hb₁]
    · cases j with
      | linked => exact absurd rfl hj
      | parked => simp [chainHeads, hs₂]
  · simp only [hs₂, setPrev_property, setNext_property, hprop, ht₀]
    rw [List.getLast?_cons, List.getLast?_eq_getLast_of_ne_nil (by simp [hp₁])]
    simp
  · simp only [hs₂, setPrev_property, setNext_property, hprop, hc₀]
    exact h.count
  · rw [hs₂, hs₁]
    exact (((((hr₀.trans (relinked_setNext s₀ p _)).trans (relinked_setPrev? _ _ _)).trans
      (relinked_setNext _ a _)).trans (relinked_setPrev _ m _)).trans
        (relinked_setNext _ s.base _)).trans (relinked_setPrev _ a _)

/-- The pool leaves the linked ones. -/
theorem unlinkPool_spec (h : Chain s (p₁ ++ a :: p₂) fs) :
    Chain (unlinkPool s a) (p₁ ++ p₂) fs ∧ Relinked s (unlinkPool s a) := by
  obtain ⟨hprev, -⟩ := h.neighbours
  have hnd := h.nodup
  rw [List.nodup_cons, List.nodup_middle, List.nodup_cons] at hnd
  have hmem : a ∈ rings s.base (p₁ ++ a :: p₂) fs .linked := by simp [rings]
  have hpa : (s.pools a).prev ≠ some a := h.family.prev_ne hmem
  set s₀ := if s.property.pooltail = some a then
      { s with property := { s.property with
        pooltail := if (s.pools a).prev = some s.base then none else (s.pools a).prev } }
    else s with hs₀
  have h₀ : s₀.pools = s.pools ∧ s₀.base = s.base ∧ s₀.property.freepool = s.property.freepool ∧
      s₀.property.pfree_count = s.property.pfree_count ∧
      s₀.property.pooltail = (p₁ ++ p₂).getLast? ∧ Relinked s s₀ := by
    rw [hs₀]
    have htail := h.tail
    by_cases hp₂ : p₂ = []
    · subst hp₂
      rw [List.getLast?_append_of_ne_nil _ (by simp), List.getLast?_singleton] at htail
      rw [if_pos htail, List.append_nil, hprev]
      refine ⟨rfl, rfl, rfl, rfl, ?_, ⟨fun _ => rfl, rfl⟩⟩
      by_cases hp₁ : p₁ = []
      · simp [hp₁]
      · have hne : p₁.getLast hp₁ ≠ s.base := fun hc =>
          hnd.1 (by simp [← hc, List.getLast_mem])
        simp only [List.getLast_cons hp₁, Option.some_inj, hne, if_false]
        exact (List.getLast?_eq_getLast_of_ne_nil hp₁).symm
    · obtain ⟨t, ht⟩ : ∃ t, p₂.getLast? = some t := by
        rw [← Option.ne_none_iff_exists', ne_eq, List.getLast?_eq_none_iff]
        exact hp₂
      rw [List.getLast?_append_of_ne_nil _ (by simp), List.getLast?_cons, ht] at htail
      have hta : t ≠ a := fun hc => hnd.2.1 (by simp [hc ▸ List.mem_of_getLast? ht])
      rw [if_neg (by rw [htail]; simp [hta])]
      refine ⟨rfl, rfl, rfl, rfl, ?_, Relinked.refl s⟩
      rw [htail, List.getLast?_append_of_ne_nil _ hp₂, ht]
      rfl
  have hrun : unlinkPool s a = (s₀.setNext? (s₀.pools a).prev (s₀.pools a).next).setPrev?
      ((s₀.setNext? (s₀.pools a).prev (s₀.pools a).next).pools a).next
      ((s₀.setNext? (s₀.pools a).prev (s₀.pools a).next).pools a).prev := rfl
  clear_value s₀
  obtain ⟨hk₀, hb₀, hf₀, hc₀, ht₀, hr₀⟩ := h₀
  rw [hrun, hk₀]
  simp only [setNext?_next, setNext?_prev, hk₀, hpa, if_false]
  refine ⟨⟨?_, ?_, ?_⟩, ?_⟩
  · rw [show ((s₀.setNext? (s.pools a).prev (s.pools a).next).setPrev? (s.pools a).next
      (s.pools a).prev).base = s.base by simp [hb₀]]
    refine h.family_unlink (by simp [hb₀]) (by simp [hf₀]) (fun x hx => ?_) (fun x hx => ?_)
    · rw [setPrev?_next, setNext?_next, hk₀]
    · rw [setPrev?_prev, setNext?_prev, hk₀]
  · simp [ht₀]
  · simp only [setPrev?_property, setNext?_property, hc₀]
    rw [h.count]
  · exact (hr₀.trans (relinked_setNext? _ _ _)).trans (relinked_setPrev? _ _ _)

/-- A pool in neither list becomes the first parked one. -/
theorem parkPool_spec (h : Chain s ps fs) (ha : a ∉ s.base :: ps) (ha' : a ∉ fs)
    (hc : fs.length+1 < 2^32) :
    Chain (parkPool s a) ps (a :: fs) ∧
      Relinked (s.setPool a (initMempool (s.pools a))) (parkPool s a) := by
  set s₁ := s.setPool a (initMempool (s.pools a)) with hs₁
  have hp₁ : ∀ x, x ≠ a → s₁.pools x = s.pools x := fun x hx => by simp [hs₁, State.setPool, hx]
  have hq₁ : s₁.property = s.property := rfl
  have hb₁ : s₁.base = s.base := rfl
  set s₂ := ((s₁.setNext a s.property.freepool).setPrev? s.property.freepool (some a)) with hs₂
  have hq₂ : s₂.property = s.property := by simp [hs₂, hq₁]
  have hb₂ : s₂.base = s.base := by simp [hs₂, hb₁]
  set s₃ := ({ s₂ with property := { s₂.property with freepool := some a } } : State).setPrev a
    none with hs₃
  have hn₃ : ∀ x, (s₃.pools x).next = if x = a then s.property.freepool else (s₁.pools x).next := by
    intro x
    rw [hs₃, setPrev_next, hs₂, setPrev?_next, setNext_next]
  have hv₃ : ∀ x, (s₃.pools x).prev = if x = a then none else
      if s.property.freepool = some x then some a else (s₁.pools x).prev := by
    intro x
    rw [hs₃, setPrev_prev, hs₂, setPrev?_prev, setNext_prev]
  have hq₃ : s₃.property = { s.property with freepool := some a } := by
    rw [hs₃, setPrev_property, hq₂]
  have hb₃ : s₃.base = s.base := hb₂
  have hr₃ : Relinked s₁ s₃ :=
    (((relinked_setNext _ _ _).trans (relinked_setPrev? _ _ _)).trans
      (relinked_property s₂ (some a) _ _)).trans (relinked_setPrev _ _ _)
  have hrun : parkPool s a = { s₃ with property :=
      { s₃.property with pfree_count := (s₃.property.pfree_count+1) % 2^32 } } := rfl
  clear_value s₃
  have hout : ∀ r, a ∉ rings s.base ps fs r := fun r => by
    cases r with
    | linked => exact ha
    | parked => exact ha'
  rw [hrun]
  refine ⟨⟨?_, ?_, ?_⟩, hr₃.trans (relinked_property s₃ _ _ _)⟩
  · have hi : Family (chainLinks s₃) (chainHeads s₃) _ := h.family.push (i := .parked) (a := a) hout ?_ ?_ (fun j x hx => ?_) (fun j x hx => ?_) ?_ (fun j hj => ?_)
    · rw [show rings s.base ps fs .parked = fs from rfl, update_parked] at hi
      exact hb₃ ▸ hi.congr (fun r => by cases r <;> simp [chainHeads, hb₃]) (fun _ _ _ => rfl)
        (fun _ _ _ => rfl)
    · simp [chainLinks, hv₃]
    · simp [chainLinks, hn₃, chainHeads]
    · have hxa : x ≠ a := fun hc => hout j (hc ▸ hx)
      simp [hn₃, hxa, chainLinks, hp₁]
    · have hxa : x ≠ a := fun hc => hout j (hc ▸ hx)
      simp only [hv₃, hxa, if_false, chainLinks, chainHeads, hp₁ x hxa]
      congr
    · simp [chainHeads, hq₃]
    · cases j with
      | linked => simp [chainHeads, hb₃]
      | parked => exact absurd rfl hj
  · simp [hq₃, h.tail]
  · simp only [hq₃, h.count, List.length_cons]
    omega

/-- A pool in neither list becomes the first one behind the base pool. -/
theorem linkMempool_spec (h : Chain s ps fs) (ha : a ∉ s.base :: ps) (ha' : a ∉ fs) :
    Chain (linkMempool s a) (a :: ps) fs ∧ Relinked s (linkMempool s a) := by
  have hab : a ≠ s.base := fun hc => ha (by simp [hc])
  have hbase := h.base_next
  set s₁ := (((s.setNext a (s.pools s.base).next).setPrev? (s.pools s.base).next (some a)).setPrev a
    (some s.base)).setNext s.base (some a) with hs₁
  have hn₁ : ∀ x, (s₁.pools x).next = if x = s.base then some a else
      if x = a then (s.pools s.base).next else (s.pools x).next := by
    intro x
    rw [hs₁, setNext_next, setPrev_next, setPrev?_next, setNext_next]
  have hv₁ : ∀ x, (s₁.pools x).prev = if x = a then some s.base else
      if (s.pools s.base).next = some x then some a else (s.pools x).prev := by
    intro x
    rw [hs₁, setNext_prev, setPrev_prev, setPrev?_prev, setNext_prev]
  have hq₁ : s₁.property = s.property := by simp [hs₁]
  have hb₁ : s₁.base = s.base := by simp [hs₁]
  have hr₁ : Relinked s s₁ := (((relinked_setNext _ _ _).trans (relinked_setPrev? _ _ _)).trans
    (relinked_setPrev _ _ _)).trans (relinked_setNext _ _ _)
  have hrun : ∀ t, s₁.property.pooltail = t → linkMempool s a =
      t.elim { s₁ with property := { s₁.property with pooltail := some a } } fun _ => s₁ := by
    intro t ht
    simp only [linkMempool, setNext_base, setPrev?_base, setPrev_base, setNext_next, Ne.symm hab,
      if_false, ← hs₁, ht]
    cases t with
    | none => rfl
    | some _ => rfl
  clear_value s₁
  have hout : ∀ r, a ∉ rings s.base ps fs r := fun r => by
    cases r with
    | linked => exact ha
    | parked => exact ha'
  have hf : Family (chainLinks s₁) (chainHeads s₁) (rings s.base (a :: ps) fs) := by
    have hmid : rings s.base ps fs .linked = [s.base] ++ ps := rfl
    have hi : Family (chainLinks s₁) (chainHeads s₁) _ := h.family.insert (a := a) hmid hout ?_ ?_
      (fun j x hx => ?_) (fun j x hx => ?_) ?_ (fun j hj => ?_)
    · rwa [List.singleton_append, update_linked] at hi
    · simp [chainLinks, hv₁]
    · simp [chainLinks, hn₁, hab, hbase]
    · have hxa : x ≠ a := fun hc => hout j (hc ▸ hx)
      simp only [chainLinks, hn₁, hxa, if_false, List.getLast?_singleton, Option.some_inj]
      simp only [eq_comm]
    · have hxa : x ≠ a := fun hc => hout j (hc ▸ hx)
      simp only [chainLinks, hv₁, hxa, if_false, hbase]
    · simp [chainHeads, hb₁]
    · cases j with
      | linked => exact absurd rfl hj
      | parked => simp [chainHeads, hq₁]
  cases ht : s.property.pooltail with
  | none =>
    rw [hrun none (hq₁ ▸ ht), Option.elim_none]
    have hps : ps = [] := by
      rw [← List.getLast?_eq_none_iff, ← h.tail, ht]
    subst hps
    refine ⟨⟨?_, rfl, by simp [hq₁, h.count]⟩, hr₁.trans (relinked_property s₁ _ _ _)⟩
    exact hb₁ ▸ hf.congr (fun r => by cases r <;> simp [chainHeads, hb₁]) (fun _ _ _ => rfl)
      (fun _ _ _ => rfl)
  | some t =>
    rw [hrun (some t) (hq₁ ▸ ht), Option.elim_some]
    refine ⟨⟨hb₁ ▸ hf, ?_, by rw [hq₁, h.count]⟩, hr₁⟩
    have := h.tail
    rw [ht] at this
    rw [hq₁, ht, List.getLast?_cons, ← this]
    rfl

/-- The first parked pool is taken out. -/
theorem takeMempool_parked (env : Env) (h : Chain s ps (a :: fs)) (hc : (a :: fs).length < 2^32) :
    ∃ s', takeMempool env s = .ok (s', some a) ∧ Chain s' ps fs ∧ Relinked s s' := by
  have hhead : s.property.freepool = some a := h.family.head_eq .parked
  have hnd := h.family.nodup .parked
  rw [show rings s.base ps (a :: fs) .parked = a :: fs from rfl, List.nodup_cons] at hnd
  have hseg := h.family.seg .parked
  have hprev : (s.pools a).prev = none := hseg.1
  set s₁ := ({ s with property := { s.property with freepool := (s.pools a).next } } :
    State).setPrev? (s.pools a).next none with hs₁
  have hr₁ : Relinked s s₁ := (relinked_property s _ _ _).trans (relinked_setPrev? _ _ _)
  have hq₁ : s₁.property = { s.property with freepool := (s.pools a).next } := by
    rw [hs₁, setPrev?_property]
  have hb₁ : s₁.base = s.base := by simp [hs₁]
  have hn₁ : ∀ x, (s₁.pools x).next = (s.pools x).next := fun x => by rw [hs₁, setPrev?_next]
  have hv₁ : ∀ x, (s₁.pools x).prev =
      if (s.pools a).next = some x then none else (s.pools x).prev := fun x => by
    rw [hs₁, setPrev?_prev]
  have hlen : usub 32 s₁.property.pfree_count 1 = fs.length := by
    rw [hq₁, h.count, usub_of_le (by simp) hc, List.length_cons, Nat.add_sub_cancel]
  have hrun : takeMempool env s = .ok ({ s₁ with property :=
      { s₁.property with pfree_count := fs.length } }, some a) := by
    rw [takeMempool, hhead]
    simp only [← hs₁, hlen]
  clear hlen
  clear_value s₁
  have hr₂ : Relinked s₁ { s₁ with property := { s₁.property with pfree_count := fs.length } } :=
    relinked_property s₁ s₁.property.freepool s₁.property.pooltail fs.length
  refine ⟨_, hrun, ⟨?_, ?_, rfl⟩, hr₁.trans hr₂⟩
  · have hu : Family (chainLinks s₁) (chainHeads s₁) _ := h.family.unlink (i := .parked) (a := a)
      (by simp [rings]) (fun j x _ hx => ?_) (fun j x _ hx => ?_) ?_
      (fun j hj => ?_)
    · rw [show rings s.base ps (a :: fs) .parked = a :: fs from rfl, List.erase_cons_head,
        update_parked] at hu
      exact hb₁ ▸ hu.congr (fun r => by cases r <;> simp [chainHeads, hb₁]) (fun _ _ _ => rfl)
        (fun _ _ _ => rfl)
    · simp [chainLinks, hn₁, hprev]
    · simp only [chainLinks, hv₁, hprev]
    · simp [chainHeads, hq₁, hhead, chainLinks]
    · cases j with
      | linked => simp [chainHeads, hb₁]
      | parked => exact absurd rfl hj
  · simp [hq₁, h.tail]

end Moves

end CLearning.MempoolChain
