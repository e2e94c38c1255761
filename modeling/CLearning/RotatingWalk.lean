import Mathlib.Data.List.Basic
import Mathlib.Data.List.Nodup

/-!
# Rotating walks

A walk takes the elements of a list in order. It ends at a stopping element or
when none is left. Some elements turn back: while others are waiting, they join
the end of the list and are met again.
-/

set_option autoImplicit false

namespace CLearning.RotatingWalk

variable {α : Type*} {stop back stop' back' : α → Prop} {n m : ℕ} {a b : α} {l l' : List α}

def Onward (turns : Prop) (a : α) (l l' : List α) : Prop :=
  (¬turns ∨ l = []) ∧ l' = l ∨ turns ∧ l ≠ [] ∧ l' = l ++ [a]

def Ends (stop back : α → Prop) : ℕ → List α → Prop
  | 0, _ => False
  | _+1, [] => True
  | n+1, a :: l => stop a ∨ ∃ l', Onward (back a) a l l' ∧ Ends stop back n l'

theorem Onward.mem_of_mem {turns : Prop} (h : Onward turns a l l') {x : α} (hx : x ∈ l') :
    x ∈ a :: l := by
  rcases h with ⟨-, rfl⟩ | ⟨-, -, rfl⟩
  · exact List.mem_cons_of_mem _ hx
  · rcases List.mem_append.mp hx with hx | hx
    · exact List.mem_cons_of_mem _ hx
    · rw [List.mem_singleton.mp hx]
      exact List.mem_cons_self

theorem Onward.unique {turns : Prop} {l₁ l₂ : List α} (h₁ : Onward turns a l l₁)
    (h₂ : Onward turns a l l₂) : l₁ = l₂ := by
  rcases h₁ with ⟨h₁, rfl⟩ | ⟨ht, hl, rfl⟩
  · rcases h₂ with ⟨-, rfl⟩ | ⟨ht, hl, -⟩
    · rfl
    · exact absurd h₁ (by tauto)
  · rcases h₂ with ⟨h₂, -⟩ | ⟨-, -, rfl⟩
    · exact absurd h₂ (by tauto)
    · rfl

theorem Onward.head_eq {turns : Prop} (h : Onward turns a l l') : l.head? = l'.head? := by
  rcases h with ⟨-, rfl⟩ | ⟨-, hne, rfl⟩
  · rfl
  · exact (List.head?_append_of_ne_nil _ hne).symm

theorem Onward.length_le {turns : Prop} (h : Onward turns a l l') : l'.length ≤ l.length+1 := by
  rcases h with ⟨-, rfl⟩ | ⟨-, -, rfl⟩
  · exact Nat.le_succ _
  · simp

theorem ends_cons (hs : ¬stop a) (h : Onward (back a) a l l') :
    Ends stop back (n+1) (a :: l) ↔ Ends stop back n l' := by
  rw [Ends]
  constructor
  · rintro (hstop | ⟨l₂, h₂, hends⟩)
    · exact absurd hstop hs
    · rw [h.unique h₂]
      exact hends
  · intro hends
    exact Or.inr ⟨l', h, hends⟩

theorem Ends.mono (h : Ends stop back n l) (hnm : n ≤ m) : Ends stop back m l := by
  induction n generalizing m l with
  | zero => exact absurd h id
  | succ n ih =>
    obtain ⟨m, rfl⟩ := Nat.exists_eq_add_of_le' hnm
    rw [← Nat.add_assoc]
    cases l with
    | nil => trivial
    | cons a l =>
      rcases h with hs | ⟨l', ho, h⟩
      · exact Or.inl hs
      · exact Or.inr ⟨l', ho, ih h (by omega)⟩

theorem Ends.congr (h : Ends stop back n l) (hs : ∀ a ∈ l, stop a ↔ stop' a)
    (hb : ∀ a ∈ l, back a ↔ back' a) : Ends stop' back' n l := by
  induction n generalizing l with
  | zero => exact absurd h id
  | succ n ih =>
    cases l with
    | nil => trivial
    | cons a l =>
      rcases h with h | ⟨l', ho, h⟩
      · exact Or.inl ((hs a List.mem_cons_self).mp h)
      · refine Or.inr ⟨l', ?_, ih h (fun x hx => hs x (ho.mem_of_mem hx))
          fun x hx => hb x (ho.mem_of_mem hx)⟩
        rw [← hb a List.mem_cons_self]
        exact ho

theorem ends_iff_of_agree (hs : ∀ a ∈ l, stop a ↔ stop' a) (hb : ∀ a ∈ l, back a ↔ back' a) :
    Ends stop back n l ↔ Ends stop' back' n l :=
  ⟨fun h => h.congr hs hb, fun h => h.congr (fun a ha => (hs a ha).symm) fun a ha => (hb a ha).symm⟩

theorem not_ends (hs : ∀ x ∈ l, ¬stop x) (hab : a ≠ b) (ha : a ∈ l) (hb : b ∈ l) (hta : back a)
    (htb : back b) : ¬Ends stop back n l := by
  induction n generalizing l with
  | zero => exact id
  | succ n ih =>
    cases l with
    | nil => cases ha
    | cons c l =>
      rintro (hc | ⟨l', ho, h⟩)
      · exact hs c List.mem_cons_self hc
      have hkeep : ∀ x ∈ c :: l, back x → x ∈ l' := by
        intro x hx htx
        rcases ho with ⟨hn, rfl⟩ | ⟨-, -, rfl⟩
        · rcases List.mem_cons.mp hx with rfl | hx
          · obtain rfl := hn.resolve_left (not_not_intro htx)
            simp only [List.mem_singleton] at ha hb
            exact absurd (ha.trans hb.symm) hab
          · exact hx
        · simpa [or_comm] using hx
      exact ih (fun x hx => hs x (ho.mem_of_mem hx)) (hkeep a ha hta) (hkeep b hb htb) h

theorem ends_of_stop (l₁ l₂ : List α) (hb : stop b) :
    Ends stop back (l₁.length+1) (l₁ ++ b :: l₂) := by
  induction l₁ generalizing l₂ with
  | nil => exact Or.inl hb
  | cons a l₁ ih =>
    by_cases ha : back a
    · have h := ih (l₂ ++ [a])
      rw [← List.cons_append, ← List.append_assoc] at h
      exact Or.inr ⟨_, Or.inr ⟨ha, by simp, rfl⟩, h⟩
    · exact Or.inr ⟨_, Or.inl ⟨Or.inl ha, rfl⟩, ih l₂⟩

theorem ends_of_last (h : ∀ x ∈ l.dropLast, ¬back x) : Ends stop back (l.length+1) l := by
  induction l with
  | nil => trivial
  | cons a l ih =>
    refine Or.inr ⟨l, Or.inl ⟨?_, rfl⟩, ?_⟩
    · cases l with
      | nil => exact Or.inr rfl
      | cons b l => exact Or.inl (h a (by simp))
    · apply ih
      intro x hx
      cases l with
      | nil => cases hx
      | cons b l => exact h x (by simp [hx])

theorem ends_of_single (l₁ l₂ : List α) (h₁ : ∀ x ∈ l₁, ¬back x) (h₂ : ∀ x ∈ l₂, ¬back x) :
    Ends stop back (l₁.length+l₂.length+3) (l₁ ++ b :: l₂) := by
  induction l₁ with
  | nil =>
    have hlast := @ends_of_last _ stop back (l₂ ++ [b]) (by simpa using h₂)
    rw [List.length_append] at hlast
    by_cases hb : back b ∧ l₂ ≠ []
    · rw [List.length_nil, Nat.zero_add]
      exact Or.inr ⟨_, Or.inr ⟨hb.1, hb.2, rfl⟩, hlast⟩
    · refine Or.inr ⟨l₂, Or.inl ⟨by tauto, rfl⟩, ?_⟩
      apply Ends.mono (@ends_of_last _ stop back l₂ fun x hx => h₂ x (List.dropLast_subset _ hx))
      omega
  | cons a l₁ ih =>
    have h := ih fun x hx => h₁ x (List.mem_cons_of_mem _ hx)
    rw [List.length_cons, Nat.add_right_comm l₁.length]
    exact Or.inr ⟨_, Or.inl ⟨Or.inl (h₁ a List.mem_cons_self), rfl⟩, h⟩

/-- The walk ends exactly when something stops it or at most one element turns back. -/
theorem ends_iff (hl : l.Nodup) : (∃ n, Ends stop back n l) ↔
    ¬((∀ x ∈ l, ¬stop x) ∧ ∃ a b, a ≠ b ∧ (a ∈ l ∧ back a) ∧ (b ∈ l ∧ back b)) := by
  constructor
  · rintro ⟨n, h⟩ ⟨hs, a, b, hab, ⟨ha, hta⟩, hb, htb⟩
    exact not_ends hs hab ha hb hta htb h
  · intro h
    by_cases hs : ∀ x ∈ l, ¬stop x
    · by_cases hb : ∃ b ∈ l, back b
      · obtain ⟨b, hb, htb⟩ := hb
        obtain ⟨l₁, l₂, rfl⟩ := List.append_of_mem hb
        have hne : ∀ x ∈ l₁ ++ l₂, ¬back x := by
          intro x hx htx
          have hxb : x ≠ b := by
            rintro rfl
            exact (List.nodup_middle.mp hl).notMem hx
          refine h ⟨hs, x, b, hxb, ⟨?_, htx⟩, hb, htb⟩
          rcases List.mem_append.mp hx with hx | hx <;> simp [hx]
        exact ⟨_, ends_of_single l₁ l₂ (fun x hx => hne x (List.mem_append_left _ hx))
          fun x hx => hne x (List.mem_append_right _ hx)⟩
      · simp only [not_exists, not_and] at hb
        exact ⟨_, ends_of_last fun x hx => hb x (List.dropLast_subset _ hx)⟩
    · simp only [not_forall, not_not] at hs
      obtain ⟨b, hb, hsb⟩ := hs
      obtain ⟨l₁, l₂, rfl⟩ := List.append_of_mem hb
      exact ⟨_, ends_of_stop l₁ l₂ hsb⟩

end CLearning.RotatingWalk
