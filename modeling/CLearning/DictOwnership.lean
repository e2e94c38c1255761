import CLearning.DictGrowth
import Mathlib.Data.List.Flatten
import Mathlib.Data.List.Perm.Basic

/-!
# Who frees the values of a dict

With `valDup` and `valDestructor` set, every value in a dict is one that `valDup`
returned, and the dict owns it. Beside the dict a ledger keeps what `valDup`
returned, what went to `valDestructor`, and what `dictDeleteNoFree` left to its
caller.
-/

set_option autoImplicit false

namespace CLearning.DictOwnership
open CLearning.Machine CLearning.DictTable CLearning.DictMap

section Source

variable {K V : Type}

structure Ledger (K V : Type) where
  dict : Dict K V
  created : List V
  destroyed : List V
  left : List V

def dictCreate (type : DictType K V) : Ledger K V := ⟨DictTable.dictCreate type, [], [], []⟩

/-- `dictSetVal` with a `valDup` whose result depends on the number of the call. -/
def dictSetVal (valDup : ℕ → V → V) (w : Ledger K V) (idx place : ℕ) (val : V) :
    Run (Ledger K V) := do
  let table ← deref w.dict.ht.table
  let v := valDup w.created.length val
  .ok { w with
    dict := setChain w.dict table idx ((table idx).modify place fun e => { e with val := some v })
    created := w.created ++ [v] }

def dictFreeVal (w : Ledger K V) (e : DictEntry K V) : Run (Ledger K V) := do
  let v ← deref e.val
  .ok { w with destroyed := w.destroyed ++ [v] }

def dictFreeVals (w : Ledger K V) : List (DictEntry K V) → Run (Ledger K V)
  | [] => .ok w
  | e :: l => do
    let w ← dictFreeVal w e
    dictFreeVals w l

/-- `dictEmpty`; its callback sees the private data only. -/
def dictEmpty (w : Ledger K V) : Run (Ledger K V) :=
  let r := DictTable.dictEmpty w.dict
  dictFreeVals { w with dict := r.1 } r.2

/-- `dictRelease` up to the `zfree` of the dict. -/
def dictRelease (w : Ledger K V) : Run (Ledger K V) := dictEmpty w

variable [DecidableEq K]

def dictAdd (valDup : ℕ → V → V) (w : Ledger K V) (key : K) (val : V) :
    Run (Ledger K V × ℕ) := do
  let (d, entry) ← dictAddRaw w.dict key
  match entry with
  | none => .ok ({ w with dict := d }, dictErr)
  | some idx => do
    let w ← dictSetVal valDup { w with dict := d } idx 0 val
    .ok (w, dictOk)

def dictReplace (valDup : ℕ → V → V) (w : Ledger K V) (key : K) (val : V) :
    Run (Ledger K V × ℕ) := do
  let (w, ret) ← dictAdd valDup w key val
  if ret = dictOk then .ok (w, 1)
  else do
    let entry ← dictFind w.dict key
    let p ← deref entry
    let auxentry ← deref (entryAt w.dict p)
    let w ← dictSetVal valDup w p.1 p.2 val
    let w ← dictFreeVal w auxentry
    .ok (w, 0)

def dictDelete (w : Ledger K V) (key : K) : Run (Ledger K V × ℕ) := do
  let (d, ret, freed) ← DictTable.dictDelete w.dict key
  let w ← dictFreeVals { w with dict := d } freed
  .ok (w, ret)

/-- `dictDeleteNoFree`. What it leaves is the value `dictDelete` would free. -/
def dictDeleteNoFree (w : Ledger K V) (key : K) : Run (Ledger K V × ℕ) := do
  let (_, _, removed) ← DictTable.dictDelete w.dict key
  let (d, ret, freed) ← DictTable.dictDeleteNoFree w.dict key
  let w ← dictFreeVals { w with dict := d } freed
  .ok ({ w with left := w.left ++ removed.filterMap DictEntry.val }, ret)

inductive Op (K V : Type) where
  | add (key : K) (val : V)
  | replace (key : K) (val : V)
  | delete (key : K)
  | deleteNoFree (key : K)
  | empty

def step (valDup : ℕ → V → V) (w : Ledger K V) : Op K V → Run (Ledger K V)
  | .add key val => (dictAdd valDup w key val).map Prod.fst
  | .replace key val => (dictReplace valDup w key val).map Prod.fst
  | .delete key => (dictDelete w key).map Prod.fst
  | .deleteNoFree key => (dictDeleteNoFree w key).map Prod.fst
  | .empty => dictEmpty w

def run (valDup : ℕ → V → V) (w : Ledger K V) : List (Op K V) → Run (Ledger K V)
  | [] => .ok w
  | op :: ops => do
    let w ← step valDup w op
    run valDup w ops

end Source

section Entries

variable {K V : Type} {T : ℕ → List (DictEntry K V)} {i : ℕ}

def entries (T : ℕ → List (DictEntry K V)) : List (DictEntry K V) := (List.range 4).flatMap T

def others (T : ℕ → List (DictEntry K V)) (i : ℕ) : List (DictEntry K V) :=
  ((List.range 4).erase i).flatMap T

def vals (l : List (DictEntry K V)) : List V := l.filterMap DictEntry.val

theorem entries_update (hi : i < 4) (chain : List (DictEntry K V)) :
    (entries (Function.update T i chain)).Perm (chain ++ others T i) := by
  have hperm := (List.perm_cons_erase (List.mem_range.mpr hi)).flatMap_right
    (Function.update T i chain)
  rw [List.flatMap_cons, Function.update_self] at hperm
  have hothers : ((List.range 4).erase i).flatMap (Function.update T i chain) = others T i := by
    apply List.flatMap_congr
    intro j hj
    exact Function.update_of_ne (List.nodup_range.mem_erase_iff.mp hj).1 ..
  rw [hothers] at hperm
  exact hperm

theorem entries_perm (hi : i < 4) : (entries T).Perm (T i ++ others T i) := by
  have := entries_update (T := T) hi (T i)
  rwa [Function.update_eq_self] at this

theorem clearBuckets_eq (T : ℕ → List (DictEntry K V)) (l : List ℕ) :
    clearBuckets T l (l.flatMap T).length = l.flatMap T := by
  induction l with
  | nil => rfl
  | cons i l ih =>
    rw [clearBuckets, List.flatMap_cons]
    by_cases hpos : (T i ++ l.flatMap T).length > 0
    · have hrest : (T i ++ l.flatMap T).length-(T i).length = (l.flatMap T).length := by
        rw [List.length_append]
        omega
      rw [if_pos hpos, hrest, ih]
    · rw [if_neg hpos]
      exact (List.eq_nil_of_length_eq_zero (by omega)).symm

theorem dictFreeVals_eq {w : Ledger K V} {l : List (DictEntry K V)} (h : ∀ e ∈ l, e.val ≠ none) :
    dictFreeVals w l = .ok { w with destroyed := w.destroyed ++ vals l } := by
  induction l generalizing w with
  | nil => simp [dictFreeVals, vals]
  | cons e l ih =>
    obtain ⟨v, hv⟩ := Option.ne_none_iff_exists'.mp (h e List.mem_cons_self)
    rw [dictFreeVals, dictFreeVal, hv, deref_some, ok_bind, ok_bind,
      ih fun x hx => h x (List.mem_cons_of_mem e hx)]
    simp [vals, hv]

variable [DecidableEq K] {t : DictType K V} {key : K}

theorem unlink_perm {l chain : List (DictEntry K V)} {he : DictEntry K V}
    (h : unlink t key l = some (chain, he)) : l.Perm (he :: chain) := by
  induction l generalizing chain with
  | nil => cases h
  | cons x rest ih =>
    rw [unlink] at h
    split at h
    · cases h
      exact List.Perm.refl _
    · obtain ⟨⟨c, y⟩, hc, heq⟩ := Option.map_eq_some_iff.mp h
      cases heq
      exact ((ih hc).cons x).trans (List.Perm.swap ..)

theorem walk_split {l : List (DictEntry K V)} {p : ℕ} (h : walk t key l = some p) :
    ∃ l₁ e l₂, l = l₁ ++ e :: l₂ ∧ l₁.length = p := by
  have hp : p < l.length := by
    induction l generalizing p with
    | nil => cases h
    | cons x rest ih =>
      rw [walk] at h
      split at h
      · cases h
        exact Nat.succ_pos _
      · obtain ⟨q, hq, rfl⟩ := Option.map_eq_some_iff.mp h
        exact Nat.succ_lt_succ (ih hq)
  refine ⟨l.take p, l[p], l.drop (p+1), ?_, List.length_take_of_le (Nat.le_of_lt hp)⟩
  rw [← List.drop_eq_getElem_cons hp, List.take_append_drop]

end Entries

section Tables

variable {K V : Type} {T : ℕ → List (DictEntry K V)} {d : Dict K V} {i : ℕ} {key : K}

def full (T : ℕ → List (DictEntry K V)) : Dictht K V := ⟨some T, 4, 3, (entries T).length⟩

def Shape (ht : Dictht K V) (T : ℕ → List (DictEntry K V)) : Prop :=
  (ht = dictReset ∧ T = fun _ => []) ∨ ht = full T

def home (t : DictType K V) (key : K) : ℕ := t.hashKey key &&& 3

theorem home_lt (t : DictType K V) (key : K) : home t key < 4 :=
  Nat.lt_succ_of_le Nat.and_le_right

theorem full_update (hi : i < 4) {chain : List (DictEntry K V)} {n : ℕ}
    (hn : n+(T i).length = (entries T).length+chain.length) :
    (⟨some (Function.update T i chain), 4, 3, n⟩ : Dictht K V) =
      full (Function.update T i chain) := by
  have hnew := (entries_update (T := T) hi chain).length_eq
  have hold := (entries_perm (T := T) hi).length_eq
  rw [List.length_append] at hnew hold
  rw [full, show n = (entries (Function.update T i chain)).length by omega]

theorem dictExpandIfNeeded_full (h : Shape d.ht T) :
    dictExpandIfNeeded d = .ok ({ d with ht := full T }, dictOk) := by
  obtain ⟨type, ht⟩ := d
  rcases h with ⟨hr, rfl⟩ | hf
  · dsimp only at hr
    subst hr
    rfl
  · dsimp only at hf
    subst hf
    rw [dictExpandIfNeeded, if_neg (show ¬(full T).size = 0 by simp [full])]
    split
    · obtain ⟨q, hq⟩ := dictNextPower_ok ((full T).used*2)
      rw [dictExpand, hq, ok_bind, if_neg (show ¬(full T).used > (full T).used*2 by omega)]
      rfl
    · rfl

theorem dictEmpty_full (h : Shape d.ht T) :
    DictTable.dictEmpty d = ({ d with ht := dictReset }, entries T) := by
  obtain ⟨type, ht⟩ := d
  rcases h with ⟨hr, rfl⟩ | hf
  · dsimp only at hr
    subst hr
    rfl
  · dsimp only at hf
    subst hf
    have hclear : clearBuckets T (List.range 4) (entries T).length = entries T :=
      clearBuckets_eq T (List.range 4)
    rw [DictTable.dictEmpty]
    dsimp only [full, Option.elim_some]
    rw [hclear]

variable [DecidableEq K]

theorem dictAddRaw_full (h : Shape d.ht T) (key : K) :
    dictAddRaw d key = .ok (match walk d.type key (T (home d.type key)) with
      | some _ => ({ d with ht := full T }, none)
      | none => ({ d with ht := full (Function.update T (home d.type key)
          (⟨d.type.dupKey key, none⟩ :: T (home d.type key))) }, some (home d.type key))) := by
  have hlt := home_lt d.type key
  rw [dictAddRaw, dictKeyIndex, dictExpandIfNeeded_full h, ok_bind]
  dsimp only
  rw [if_neg (show ¬dictOk = dictErr by decide), show (full T).table = some T from rfl, deref_some,
    ok_bind, show d.type.hashKey key &&& (full T).sizemask = home d.type key from rfl]
  cases walk d.type key (T (home d.type key)) with
  | some p => rfl
  | none =>
    dsimp only
    rw [ok_bind]
    dsimp only
    rw [toInt_of_lt (by omega), if_neg (by omega), if_neg (by omega), Int.toNat_natCast,
      ← full_update hlt (n := (entries T).length+1) (by rw [List.length_cons]; omega)]
    rfl

theorem dictGenericDelete_full (h : Shape d.ht T) (key : K) :
    (∀ nofree, dictGenericDelete d key nofree = .ok (d, dictErr, [])) ∨
      ∃ chain he, (T (home d.type key)).Perm (he :: chain) ∧
        ∀ nofree, dictGenericDelete d key nofree =
          .ok ({ d with ht := full (Function.update T (home d.type key) chain) }, dictOk,
            if nofree then [] else [he]) := by
  have hlt := home_lt d.type key
  obtain ⟨type, ht⟩ := d
  rcases h with ⟨hr, rfl⟩ | hf
  · dsimp only at hr
    subst hr
    exact Or.inl fun _ => rfl
  · dsimp only at hf hlt ⊢
    subst hf
    have hrun : ∀ r, unlink type key (T (home type key)) = r → ∀ nofree,
        dictGenericDelete ⟨type, full T⟩ key nofree =
          .ok (r.elim (⟨type, full T⟩, dictErr, []) fun r =>
            (⟨type, some (Function.update T (home type key) r.1), 4, 3, (entries T).length-1⟩,
              dictOk, if nofree then [] else [r.2])) := by
      intro r hr nofree
      rw [dictGenericDelete, if_neg (show ¬(full T).size = 0 by simp [full])]
      dsimp only
      rw [show (full T).table = some T from rfl, deref_some, ok_bind,
        show type.hashKey key &&& (full T).sizemask = home type key from rfl, hr]
      cases r with
      | none => rfl
      | some _ => rfl
    cases hu : unlink type key (T (home type key)) with
    | none => exact Or.inl (hrun none hu)
    | some r =>
      obtain ⟨chain, he⟩ := r
      have hperm := unlink_perm hu
      have hlen := hperm.length_eq
      have hall := (entries_perm (T := T) hlt).length_eq
      rw [List.length_append] at hall
      rw [List.length_cons] at hlen
      refine Or.inr ⟨chain, he, hperm, fun nofree => ?_⟩
      rw [hrun _ hu, Option.elim_some]
      dsimp only
      rw [full_update hlt (by omega)]

theorem dictFind_full (hd : d.ht = full T) (key : K) : dictFind d key =
    .ok ((walk d.type key (T (home d.type key))).map fun place => (home d.type key, place)) := by
  obtain ⟨type, ht⟩ := d
  dsimp only at hd
  subst hd
  rfl

end Tables

section Ownership

variable {K V : Type} {T : ℕ → List (DictEntry K V)} {w : Ledger K V} {valDup : ℕ → V → V}
  {i : ℕ} {key : K} {val : V}

def Numbered (valDup : ℕ → V → V) (l : List V) : Prop :=
  ∀ n v, l[n]? = some v → ∃ u, v = valDup n u

theorem Numbered.snoc {l : List V} (h : Numbered valDup l) (u : V) :
    Numbered valDup (l ++ [valDup l.length u]) := by
  intro n v hv
  by_cases hn : n < l.length
  · rw [List.getElem?_append_left hn] at hv
    exact h n v hv
  · rw [List.getElem?_append_right (by omega)] at hv
    obtain ⟨hn', hv⟩ := List.getElem?_eq_some_iff.mp hv
    rw [List.length_singleton] at hn'
    rw [List.getElem_singleton] at hv
    rw [show n = l.length by omega]
    exact ⟨u, hv.symm⟩

structure Owned (valDup : ℕ → V → V) (w : Ledger K V) (T : ℕ → List (DictEntry K V)) : Prop where
  shape : Shape w.dict.ht T
  set : ∀ e ∈ entries T, e.val ≠ none
  numbered : Numbered valDup w.created
  created : w.created.Perm (vals (entries T) ++ (w.destroyed ++ w.left))

theorem dictCreate_owned (t : DictType K V) : Owned valDup (dictCreate t) fun _ => [] :=
  ⟨Or.inl ⟨rfl, rfl⟩, fun _ he => by simp [entries] at he, fun _ _ hv => by simp [dictCreate] at hv,
    List.Perm.refl _⟩

theorem vals_perm {l l' : List (DictEntry K V)} (h : l.Perm l') : (vals l).Perm (vals l') :=
  h.filterMap DictEntry.val

theorem vals_append (l l' : List (DictEntry K V)) : vals (l ++ l') = vals l ++ vals l' :=
  List.filterMap_append ..

theorem Owned.set_chain (h : Owned valDup w T) (hi : i < 4) : ∀ e ∈ T i, e.val ≠ none :=
  fun e he => h.set e ((entries_perm hi).mem_iff.mpr (List.mem_append_left _ he))

theorem Owned.update (h : Owned valDup w T) (hi : i < 4) {w' : Ledger K V}
    {chain : List (DictEntry K V)} (ht : w'.dict.ht = full (Function.update T i chain))
    (hset : ∀ e ∈ chain, e.val ≠ none) (hnum : Numbered valDup w'.created)
    (hcreated : ∀ r, w.created.Perm (vals (T i) ++ (r ++ (w.destroyed ++ w.left))) →
      w'.created.Perm (vals chain ++ (r ++ (w'.destroyed ++ w'.left)))) :
    Owned valDup w' (Function.update T i chain) := by
  have hnew := entries_update (T := T) hi chain
  have hold := entries_perm (T := T) hi
  constructor
  · exact Or.inr ht
  · intro e he
    rcases List.mem_append.mp (hnew.mem_iff.mp he) with he | he
    · exact hset e he
    · exact h.set e (hold.mem_iff.mpr (List.mem_append_right _ he))
  · exact hnum
  · have hin := h.created.trans ((vals_perm hold).append_right _)
    rw [vals_append, List.append_assoc] at hin
    have hout := hcreated _ hin
    rw [← List.append_assoc, ← vals_append] at hout
    exact hout.trans ((vals_perm hnew).symm.append_right _)

theorem dictSetVal_full (hd : w.dict.ht = full T) (hi : i < 4) (place : ℕ) (val : V) :
    dictSetVal valDup w i place val = .ok { w with
      dict := { w.dict with ht := full (Function.update T i ((T i).modify place fun e =>
        { e with val := some (valDup w.created.length val) })) }
      created := w.created ++ [valDup w.created.length val] } := by
  rw [dictSetVal, hd, ← full_update hi (n := (entries T).length) (by rw [List.length_modify])]
  simp only [full, deref_some, ok_bind, setChain, hd]

theorem modify_split (l₁ l₂ : List (DictEntry K V)) (e : DictEntry K V)
    (f : DictEntry K V → DictEntry K V) :
    (l₁ ++ e :: l₂).modify l₁.length f = l₁ ++ f e :: l₂ := by
  induction l₁ with
  | nil => rfl
  | cons x l₁ ih =>
    rw [List.cons_append, List.length_cons, List.modify_succ_cons, ih]
    rfl

variable [DecidableEq K]

theorem dictAdd_owned (h : Owned valDup w T) (key : K) (val : V) :
    ∃ w' ret T', dictAdd valDup w key val = .ok (w', ret) ∧ Owned valDup w' T' ∧
      (ret = dictOk ∨ ∃ p, w'.dict.ht = full T' ∧
        walk w'.dict.type key (T' (home w'.dict.type key)) = some p) := by
  have hlt := home_lt w.dict.type key
  rw [dictAdd, dictAddRaw_full h.shape, ok_bind]
  cases hw : walk w.dict.type key (T (home w.dict.type key)) with
  | some p =>
    exact ⟨_, dictErr, T, rfl, ⟨Or.inr rfl, h.set, h.numbered, h.created⟩, Or.inr ⟨p, rfl, hw⟩⟩
  | none =>
    dsimp only
    rw [dictSetVal_full rfl hlt, ok_bind, Function.update_idem, Function.update_self]
    refine ⟨_, dictOk, _, rfl, h.update hlt rfl ?_ (h.numbered.snoc val) ?_, Or.inl rfl⟩
    · intro e he
      rcases List.mem_cons.mp he with rfl | he
      · exact Option.some_ne_none _
      · exact h.set_chain hlt e he
    · intro r hr
      exact (hr.append_right _).trans (List.perm_append_singleton ..)

theorem dictReplace_owned (h : Owned valDup w T) (key : K) (val : V) :
    ∃ w' ret T', dictReplace valDup w key val = .ok (w', ret) ∧ Owned valDup w' T' := by
  obtain ⟨w', ret, T', hadd, h', hret⟩ := dictAdd_owned h key val
  rw [dictReplace, hadd, ok_bind]
  by_cases hok : ret = dictOk
  · dsimp only
    rw [if_pos hok]
    exact ⟨w', 1, T', rfl, h'⟩
  · obtain ⟨p, hfull, hwalk⟩ := hret.resolve_left hok
    have hlt := home_lt w'.dict.type key
    obtain ⟨l₁, e, l₂, hsplit, rfl⟩ := walk_split hwalk
    obtain ⟨old, hold⟩ := Option.ne_none_iff_exists'.mp
      (h'.set_chain hlt e (by rw [hsplit]; exact List.mem_append_right _ List.mem_cons_self))
    have hentry : entryAt w'.dict (home w'.dict.type key, l₁.length) = some e := by
      rw [entryAt, hfull]
      simp [full, hsplit]
    dsimp only
    rw [if_neg hok, dictFind_full hfull, hwalk, Option.map_some, ok_bind, deref_some, ok_bind,
      hentry, deref_some, ok_bind, dictSetVal_full hfull hlt, ok_bind, dictFreeVal, hold,
      deref_some, ok_bind, ok_bind, hsplit, modify_split]
    refine ⟨_, 0, _, rfl, h'.update hlt rfl ?_ (h'.numbered.snoc val) ?_⟩
    · intro x hx
      rcases List.mem_append.mp hx with hx | hx
      · exact h'.set_chain hlt x (by rw [hsplit]; exact List.mem_append_left _ hx)
      · rcases List.mem_cons.mp hx with rfl | hx
        · exact Option.some_ne_none _
        · exact h'.set_chain hlt x (by
            rw [hsplit]
            exact List.mem_append_right _ (List.mem_cons_of_mem _ hx))
    · classical
      intro r hr
      rw [hsplit, vals_append] at hr
      rw [vals_append, List.perm_iff_count] at *
      intro v
      have hv := hr v
      simp only [vals, List.filterMap_cons, hold, List.count_append, List.count_cons,
        List.count_nil] at hv ⊢
      omega

omit [DecidableEq K] in
/-- An entry that leaves its chain takes one value with it. -/
theorem Owned.unlinked (h : Owned valDup w T) (hi : i < 4) {w' : Ledger K V}
    {chain : List (DictEntry K V)} {he : DictEntry K V} {v : V} (hv : he.val = some v)
    (hperm : (T i).Perm (he :: chain)) (ht : w'.dict.ht = full (Function.update T i chain))
    (hcreated : w'.created = w.created)
    (hleft : (w'.destroyed ++ w'.left).Perm (v :: (w.destroyed ++ w.left))) :
    Owned valDup w' (Function.update T i chain) := by
  apply h.update hi ht
  · intro x hx
    exact h.set_chain hi x (hperm.mem_iff.mpr (List.mem_cons_of_mem _ hx))
  · rw [hcreated]
    exact h.numbered
  · classical
    intro r hr
    have hvals := vals_perm hperm
    rw [hcreated]
    rw [List.perm_iff_count] at *
    intro u
    have hu := hr u
    have hu' := hvals u
    have hu'' := hleft u
    simp only [vals, List.filterMap_cons, hv, List.count_append, List.count_cons]
      at hu hu' hu'' ⊢
    omega

theorem dictDelete_owned (h : Owned valDup w T) (key : K) :
    ∃ w' ret T', dictDelete w key = .ok (w', ret) ∧ Owned valDup w' T' := by
  have hlt := home_lt w.dict.type key
  rw [dictDelete, DictTable.dictDelete]
  rcases dictGenericDelete_full h.shape key with hno | ⟨chain, he, hperm, hyes⟩
  · rw [hno, ok_bind]
    exact ⟨w, dictErr, T, rfl, h⟩
  · obtain ⟨v, hv⟩ := Option.ne_none_iff_exists'.mp
      (h.set_chain hlt he (hperm.mem_iff.mpr List.mem_cons_self))
    have hvals : vals [he] = [v] := by simp [vals, hv]
    rw [hyes, ok_bind]
    dsimp only
    rw [if_neg Bool.false_ne_true, dictFreeVals_eq (by simp [hv]), ok_bind, hvals]
    refine ⟨_, dictOk, _, rfl, h.unlinked hlt hv hperm rfl rfl ?_⟩
    rw [List.append_assoc]
    exact List.perm_middle

theorem dictDeleteNoFree_owned (h : Owned valDup w T) (key : K) :
    ∃ w' ret T', dictDeleteNoFree w key = .ok (w', ret) ∧ Owned valDup w' T' := by
  have hlt := home_lt w.dict.type key
  rw [dictDeleteNoFree, DictTable.dictDelete, DictTable.dictDeleteNoFree]
  rcases dictGenericDelete_full h.shape key with hno | ⟨chain, he, hperm, hyes⟩
  · rw [hno, hno, ok_bind]
    dsimp only
    rw [ok_bind]
    refine ⟨_, dictErr, T, rfl, h.shape, h.set, h.numbered, ?_⟩
    simpa using h.created
  · obtain ⟨v, hv⟩ := Option.ne_none_iff_exists'.mp
      (h.set_chain hlt he (hperm.mem_iff.mpr List.mem_cons_self))
    have hvals : [he].filterMap DictEntry.val = [v] := by simp [hv]
    rw [hyes, hyes, ok_bind]
    dsimp only
    rw [ok_bind]
    dsimp only
    rw [if_neg Bool.false_ne_true, if_pos rfl, dictFreeVals, ok_bind, hvals]
    refine ⟨_, dictOk, _, rfl, h.unlinked hlt hv hperm rfl rfl ?_⟩
    rw [← List.append_assoc]
    exact List.perm_append_singleton ..

omit [DecidableEq K] in
theorem dictEmpty_owned (h : Owned valDup w T) :
    dictEmpty w = .ok { w with
      dict := { w.dict with ht := dictReset }
      destroyed := w.destroyed ++ vals (entries T) } := by
  rw [dictEmpty, dictEmpty_full h.shape]
  exact dictFreeVals_eq h.set

omit [DecidableEq K] in
theorem Owned.cleared (h : Owned valDup w T) : Owned valDup { w with
    dict := { w.dict with ht := dictReset }
    destroyed := w.destroyed ++ vals (entries T) } fun _ => [] := by
  refine ⟨Or.inl ⟨rfl, rfl⟩, fun _ he => by simp [entries] at he, h.numbered, ?_⟩
  have hperm : (vals (entries T) ++ (w.destroyed ++ w.left)).Perm
      ((w.destroyed ++ vals (entries T)) ++ w.left) := by
    rw [← List.append_assoc]
    exact List.perm_append_comm.append_right _
  exact h.created.trans hperm

theorem step_owned (h : Owned valDup w T) (op : Op K V) :
    ∃ w' T', step valDup w op = .ok w' ∧ Owned valDup w' T' := by
  cases op with
  | add key val =>
    obtain ⟨w', ret, T', hrun, h', -⟩ := dictAdd_owned h key val
    exact ⟨w', T', by rw [step, hrun]; rfl, h'⟩
  | replace key val =>
    obtain ⟨w', ret, T', hrun, h'⟩ := dictReplace_owned h key val
    exact ⟨w', T', by rw [step, hrun]; rfl, h'⟩
  | delete key =>
    obtain ⟨w', ret, T', hrun, h'⟩ := dictDelete_owned h key
    exact ⟨w', T', by rw [step, hrun]; rfl, h'⟩
  | deleteNoFree key =>
    obtain ⟨w', ret, T', hrun, h'⟩ := dictDeleteNoFree_owned h key
    exact ⟨w', T', by rw [step, hrun]; rfl, h'⟩
  | empty => exact ⟨_, _, dictEmpty_owned h, h.cleared⟩

theorem run_owned (h : Owned valDup w T) (ops : List (Op K V)) :
    ∃ w' T', run valDup w ops = .ok w' ∧ Owned valDup w' T' := by
  induction ops generalizing w T with
  | nil => exact ⟨w, T, rfl, h⟩
  | cons op ops ih =>
    obtain ⟨w', T', hstep, h'⟩ := step_owned h op
    rw [run, hstep, ok_bind]
    exact ih h'

theorem Numbered.nodup {l : List V} (h : Numbered valDup l)
    (hfresh : ∀ n m u v, valDup n u = valDup m v → n = m) : l.Nodup := by
  rw [List.nodup_iff_getElem?_ne_getElem?]
  intro i j hij hj heq
  obtain ⟨u, hu⟩ := h j _ (List.getElem?_eq_getElem hj)
  obtain ⟨v, hv⟩ := h i l[j] (by rw [heq, List.getElem?_eq_getElem hj])
  have := hfresh i j v u (hv.symm.trans hu)
  omega

def allEntries (d : Dict K V) : List (DictEntry K V) :=
  d.ht.table.elim [] fun table => (List.range d.ht.size).flatMap table

omit [DecidableEq K] in
theorem Owned.allEntries_eq (h : Owned valDup w T) : allEntries w.dict = entries T := by
  rcases h.shape with ⟨hr, rfl⟩ | hf
  · rw [allEntries, hr]
    rfl
  · rw [allEntries, hf]
    rfl

omit [DecidableEq K] in
theorem Owned.released [DecidableEq V] (h : Owned valDup w fun _ => [])
    (hfresh : ∀ n m u v, valDup n u = valDup m v → n = m) :
    w.created.Perm (w.destroyed ++ w.left) ∧
      ∀ v ∈ w.created, w.destroyed.count v = if v ∈ w.left then 0 else 1 := by
  have hperm : w.created.Perm (w.destroyed ++ w.left) := h.created
  refine ⟨hperm, fun v hv => ?_⟩
  have hone := List.count_eq_one_of_mem (h.numbered.nodup hfresh) hv
  rw [hperm.count_eq, List.count_append] at hone
  by_cases hleft : v ∈ w.left
  · have := List.count_pos_iff.mpr hleft
    rw [if_pos hleft]
    omega
  · rw [List.count_eq_zero_of_not_mem hleft] at hone
    rw [if_neg hleft]
    exact hone

/-- After any run that ends with `dictRelease`, every value `valDup` returned has been
destroyed once, or was left to the caller of `dictDeleteNoFree` and never destroyed. -/
theorem values_released [DecidableEq V] (t : DictType K V) (valDup : ℕ → V → V)
    (hfresh : ∀ n m u v, valDup n u = valDup m v → n = m) (ops : List (Op K V)) :
    ∃ w w', run valDup (dictCreate t) ops = .ok w ∧
      (DictTable.dictEmpty w.dict).2 = allEntries w.dict ∧ dictRelease w = .ok w' ∧
      w'.created.Perm (w'.destroyed ++ w'.left) ∧
      ∀ v ∈ w'.created, w'.destroyed.count v = if v ∈ w'.left then 0 else 1 := by
  have hstart : Owned valDup (dictCreate t) fun _ => [] := dictCreate_owned t
  obtain ⟨w, T, hrun, h⟩ := run_owned hstart ops
  have hall : (DictTable.dictEmpty w.dict).2 = allEntries w.dict := by
    rw [dictEmpty_full h.shape, h.allEntries_eq]
  exact ⟨w, _, hrun, hall, dictEmpty_owned h, h.cleared.released hfresh⟩

/-- One value replaced, one deleted, one left. -/
theorem values_released_numbers :
    ∃ w w', run (fun n _ => n) (dictCreate DictGrowth.numbers)
        [.add 1 7, .replace 1 8, .add 2 9, .delete 1, .deleteNoFree 2] = .ok w ∧
      (DictTable.dictEmpty w.dict).2 = allEntries w.dict ∧ dictRelease w = .ok w' ∧
      w'.created.Perm (w'.destroyed ++ w'.left) ∧
      ∀ v ∈ w'.created, w'.destroyed.count v = if v ∈ w'.left then 0 else 1 :=
  values_released DictGrowth.numbers (fun n _ => n) (fun _ _ _ _ h => h)
    [.add 1 7, .replace 1 8, .add 2 9, .delete 1, .deleteNoFree 2]

end Ownership

end CLearning.DictOwnership
