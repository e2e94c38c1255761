import Mathlib.Data.List.Nodup
import Mathlib.Data.List.Perm.Basic

/-!
# A ledger of allocations

Allocations are numbered in the order they are asked for; any of them may be
refused. The heap remembers what was freed, in order. A computation owes the
blocks it was granted and has not freed.
-/

set_option autoImplicit false

namespace CLearning.Ledger

structure Heap where
  granted : ℕ → Bool
  requests : ℕ
  freed : List ℕ

namespace Heap

def malloc (h : Heap) : Option ℕ × Heap :=
  (if h.granted h.requests then some h.requests else none, { h with requests := h.requests+1 })

def free (h : Heap) (blocks : List ℕ) : Heap := { h with freed := h.freed ++ blocks }

def Ample (h : Heap) : Prop := ∀ n, h.granted n = true

def grants (h h' : Heap) : List ℕ :=
  (List.range' h.requests (h'.requests-h.requests)).filter h.granted

end Heap

/-- Between `h` and `h'` every block granted is freed once, or kept. -/
structure Owes (h h' : Heap) (kept : List ℕ) : Prop where
  granted : h'.granted = h.granted
  requests : h.requests ≤ h'.requests
  ledger : ∃ blocks, h'.freed = h.freed ++ blocks ∧ (blocks ++ kept).Perm (h.grants h')

variable {h h' h'' : Heap} {kept kept' blocks rest : List ℕ} {b : ℕ}

theorem Owes.refl (h : Heap) : Owes h h [] := by
  refine ⟨rfl, Nat.le_refl _, [], (List.append_nil _).symm, ?_⟩
  simp [Heap.grants]

theorem Owes.perm (ho : Owes h h' kept) (hp : kept.Perm kept') : Owes h h' kept' := by
  obtain ⟨blocks, hb, hperm⟩ := ho.ledger
  exact ⟨ho.granted, ho.requests, blocks, hb, (hp.symm.append_left blocks).trans hperm⟩

theorem grants_trans (ho : Owes h h' kept) (ho' : Owes h' h'' kept') :
    h.grants h' ++ h'.grants h'' = h.grants h'' := by
  have hr := ho.requests
  have hr' := ho'.requests
  have hsplit : List.range' h.requests (h'.requests-h.requests) ++
      List.range' (h.requests+1*(h'.requests-h.requests)) (h''.requests-h'.requests) =
        List.range' h.requests (h'.requests-h.requests+(h''.requests-h'.requests)) :=
    List.range'_append
  rw [show h.requests+1*(h'.requests-h.requests) = h'.requests by omega,
    show h'.requests-h.requests+(h''.requests-h'.requests) = h''.requests-h.requests by omega]
    at hsplit
  rw [Heap.grants, Heap.grants, Heap.grants, ho.granted, ← List.filter_append, hsplit]

theorem Owes.trans (ho : Owes h h' kept) (ho' : Owes h' h'' kept') :
    Owes h h'' (kept ++ kept') := by
  obtain ⟨bs, hb, hperm⟩ := ho.ledger
  obtain ⟨bs', hb', hperm'⟩ := ho'.ledger
  refine ⟨ho'.granted.trans ho.granted, Nat.le_trans ho.requests ho'.requests, bs ++ bs', ?_, ?_⟩
  · rw [hb', hb, List.append_assoc]
  · rw [← grants_trans ho ho']
    refine List.Perm.trans ?_ (hperm.append hperm')
    rw [List.append_assoc, List.append_assoc]
    refine List.Perm.append_left bs ?_
    rw [← List.append_assoc, ← List.append_assoc]
    exact List.perm_append_comm.append_right kept'

theorem Owes.free (ho : Owes h h' kept) (hp : kept.Perm (blocks ++ rest)) :
    Owes h (h'.free blocks) rest := by
  obtain ⟨bs, hb, hperm⟩ := ho.ledger
  refine ⟨ho.granted, ho.requests, bs ++ blocks, ?_, ?_⟩
  · rw [Heap.free, hb, List.append_assoc]
  · rw [List.append_assoc]
    exact (hp.symm.append_left bs).trans hperm

theorem Owes.malloc (ho : Owes h h' kept) :
    Owes h h'.malloc.2 (h'.malloc.1.toList ++ kept) := by
  have hm : Owes h' h'.malloc.2 h'.malloc.1.toList := by
    refine ⟨rfl, Nat.le_succ _, [], (List.append_nil _).symm, ?_⟩
    rw [Heap.grants, Heap.malloc, Nat.add_sub_cancel_left, List.range'_one]
    by_cases hg : h'.granted h'.requests
    · simp [hg]
    · simp [hg]
  exact (ho.trans hm).perm List.perm_append_comm

theorem Owes.nodup (ho : Owes h h' kept) :
    ∃ blocks, h'.freed = h.freed ++ blocks ∧ (blocks ++ kept).Nodup := by
  obtain ⟨bs, hb, hperm⟩ := ho.ledger
  exact ⟨bs, hb, hperm.nodup_iff.mpr (List.Nodup.filter _ List.nodup_range')⟩

theorem Heap.Ample.malloc (ha : h.Ample) :
    h.malloc = (some h.requests, { h with requests := h.requests+1 }) := by
  rw [Heap.malloc, ha, if_pos rfl]

theorem malloc_cases (h : Heap) :
    (∃ b, h.malloc = (some b, h.malloc.2) ∧ Owes h h.malloc.2 [b]) ∨
      h.malloc = (none, h.malloc.2) ∧ Owes h h.malloc.2 [] ∧ ¬h.Ample := by
  have ho := (Owes.refl h).malloc
  rw [List.append_nil] at ho
  cases hm : h.malloc.1 with
  | none =>
    rw [hm] at ho
    refine .inr ⟨Prod.ext hm rfl, ho, fun ha => ?_⟩
    rw [ha.malloc] at hm
    exact absurd hm (Option.some_ne_none _)
  | some b =>
    rw [hm] at ho
    exact .inl ⟨b, Prod.ext hm rfl, ho⟩

theorem Heap.Ample.owes (ha : h.Ample) (ho : Owes h h' kept) : h'.Ample := by
  intro n
  rw [ho.granted]
  exact ha n

end CLearning.Ledger
