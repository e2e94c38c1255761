import Mathlib.Data.List.Nodup
import Mathlib.Logic.Relation

/-!
# Forests given by lists of children

Every node has a list of children. In a forest no node is in two lists or twice
in one, and no node is below itself. Roots may be hung under nodes that are not
below them, and children may be taken out.
-/

set_option autoImplicit false

namespace CLearning.ChildLists
open Relation

variable {α : Type} {L L' : α → List α} {a b c i x : α} {l : List α}

def Child (L : α → List α) (a b : α) : Prop := b ∈ L a

def Under (L : α → List α) : α → α → Prop := ReflTransGen (Child L)

structure Forest (L : α → List α) : Prop where
  nodup : ∀ a, (L a).Nodup
  parent : ∀ {a b x : α}, x ∈ L a → x ∈ L b → a = b
  acyclic : WellFounded fun b a => Child L a b

namespace Forest

theorem not_under (h : Forest L) (hb : b ∈ L a) : ¬Under L b a := by
  intro hu
  have hcycle : TransGen (Child L) a a := TransGen.head' hb hu
  have hirrefl : ∀ x, ¬TransGen (fun b a => Child L a b) x x := by
    intro x
    induction x using h.acyclic.transGen.induction with
    | _ x ih => exact fun hx => ih x hx hx
  exact hirrefl a (transGen_swap.mpr hcycle)

theorem under_linear (h : Forest L) (ha : Under L a x) (hb : Under L b x) :
    Under L a b ∨ Under L b a := by
  induction ha with
  | refl => exact .inr hb
  | @tail y x hay hyx ih =>
    rcases ReflTransGen.cases_tail hb with rfl | ⟨y', hby, hyx'⟩
    · exact .inl (hay.tail hyx)
    · obtain rfl := h.parent hyx hyx'
      exact ih hby

theorem siblings (h : Forest L) (ha : a ∈ L c) (hb : b ∈ L c) (hx : Under L a x)
    (hx' : Under L b x) : a = b := by
  have habove {a b : α} (ha : a ∈ L c) (hb : b ∈ L c) (hab : Under L a b) : a = b := by
    rcases ReflTransGen.cases_tail hab with heq | ⟨y, hay, hyb⟩
    · exact heq.symm
    · obtain rfl := h.parent hb hyb
      exact absurd hay (h.not_under ha)
  rcases h.under_linear hx hx' with hab | hba
  · exact habove ha hb hab
  · exact (habove hb ha hba).symm

theorem sub (h : Forest L) (hsub : ∀ a, ∀ b ∈ L' a, b ∈ L a) (hnodup : ∀ a, (L' a).Nodup) :
    Forest L' where
  nodup := hnodup
  parent ha hb := h.parent (hsub _ _ ha) (hsub _ _ hb)
  acyclic := Subrelation.wf (hsub _ _) h.acyclic

variable [DecidableEq α]

/-- A root that is not above `a` becomes a child of `a`. -/
theorem hang (h : Forest L) (hroot : ∀ x, i ∉ L x) (hia : ¬Under L i a)
    (hl : ∀ x, x ∈ l ↔ x ∈ L a ∨ x = i) (hnodup : l.Nodup) : Forest (Function.update L a l) where
  nodup x := by
    by_cases hx : x = a
    · rw [hx, Function.update_self]
      exact hnodup
    · rw [Function.update_of_ne hx]
      exact h.nodup x
  parent {b c x} hb hc := by
    have hmem {b : α} (hb : x ∈ Function.update L a l b) : x ∈ L b ∨ b = a ∧ x = i := by
      by_cases hba : b = a
      · rw [hba, Function.update_self, hl] at hb
        exact hb.imp (fun hx => hba ▸ hx) fun hx => ⟨hba, hx⟩
      · rw [Function.update_of_ne hba] at hb
        exact .inl hb
    rcases hmem hb with hb' | ⟨rfl, rfl⟩
    · rcases hmem hc with hc' | ⟨rfl, rfl⟩
      · exact h.parent hb' hc'
      · exact absurd hb' (hroot b)
    · rcases hmem hc with hc' | ⟨rfl, -⟩
      · exact absurd hc' (hroot c)
      · rfl
  acyclic := by
    have hstep {x y : α} (hy : Child (Function.update L a l) x y) :
        Child L x y ∨ x = a ∧ y = i := by
      rw [Child] at hy
      by_cases hxa : x = a
      · rw [hxa, Function.update_self, hl] at hy
        exact hy.imp (fun hy => hxa ▸ hy) fun hy => ⟨hxa, hy⟩
      · rw [Function.update_of_ne hxa] at hy
        exact .inl hy
    -- nothing has changed at and below the root
    have hbelow : ∀ x, Under L i x → Acc (fun y x => Child (Function.update L a l) x y) x := by
      intro x
      induction x using h.acyclic.induction with
      | _ x ih =>
        intro hix
        refine ⟨x, fun y hy => ?_⟩
        rcases hstep hy with hxy | ⟨rfl, -⟩
        · exact ih y hxy (hix.tail hxy)
        · exact absurd hix hia
    refine ⟨fun x => ?_⟩
    induction x using h.acyclic.induction with
    | _ x ih =>
      refine ⟨x, fun y hy => ?_⟩
      rcases hstep hy with hxy | ⟨-, rfl⟩
      · exact ih y hxy
      · exact hbelow y .refl

end Forest

end CLearning.ChildLists
