import CLearning.Machine
import Mathlib.Data.Finset.Card
import Mathlib.Order.Interval.Finset.Nat
import Mathlib.Data.List.Pairwise
import Mathlib.Algebra.BigOperators.Group.List.Basic

/-!
# A counting allocator

The replacement allocator of the libevent sample puts the size of a block in
front of it and keeps the sum of the sizes. What `malloc` and `realloc` answer
is part of a run; a `realloc` to no bytes frees the block, as in glibc.
-/

set_option autoImplicit false

namespace CLearning.AllocationAccounting
open CLearning.Machine

section Source

def alignment : ℕ := 8

/-- A piece of memory as it was asked of `malloc`. -/
structure Chunk where
  base : ℕ
  size : ℕ

/-- The live chunks, the `size_t` stored at an address, and `total_allocated`. -/
structure Memory where
  chunks : List Chunk
  word : ℕ → ℕ
  totalAllocated : ℕ

def remove (m : Memory) (p : ℕ) : Memory :=
  { m with chunks := m.chunks.filter fun c => c.base ≠ p }

def malloc (m : Memory) (n : ℕ) : Option ℕ → Memory × Option ℕ
  | none => (m, none)
  | some p => ({ m with chunks := ⟨p, n⟩ :: m.chunks }, some p)

def free (m : Memory) (p : ℕ) : Run Memory :=
  if m.chunks.any fun c => c.base = p then .ok (remove m p) else .error .badFree

def realloc (m : Memory) (ptr : Option ℕ) (n : ℕ) (answer : Option ℕ) :
    Run (Memory × Option ℕ) :=
  match ptr with
  | none => .ok (malloc m n answer)
  | some p => do
    let rest ← free m p
    if n = 0 then .ok (rest, none)
    else
      match answer with
      | none => .ok (m, none)
      | some q =>
        .ok ({ rest with
          chunks := ⟨q, n⟩ :: rest.chunks
          word := Function.update rest.word q (rest.word p) }, some q)

def outptr (p : ℕ) : ℕ := p+alignment

def inptr (p : ℕ) : ℕ := p-alignment

def replacementMalloc (m : Memory) (sz : ℕ) (answer : Option ℕ) : Memory × Option ℕ :=
  let r := malloc m ((sz+alignment) % 2^64) answer
  match r.2 with
  | none => (r.1, none)
  | some chunk =>
    let m := { r.1 with totalAllocated := (r.1.totalAllocated+sz) % 2^64 }
    ({ m with word := Function.update m.word chunk sz }, some (outptr chunk))

def replacementRealloc (m : Memory) (ptr : Option ℕ) (sz : ℕ) (answer : Option ℕ) :
    Run (Memory × Option ℕ) := do
  let ptr := ptr.map inptr
  let oldSize := match ptr with
    | some p => m.word p
    | none => 0
  let r ← realloc m ptr ((sz+alignment) % 2^64) answer
  match r.2 with
  | none => .ok (r.1, none)
  | some chunk =>
    let m := { r.1 with word := Function.update r.1.word chunk sz }
    .ok ({ m with totalAllocated := (usub 64 m.totalAllocated oldSize+sz) % 2^64 },
      some (outptr chunk))

def replacementFree (m : Memory) (ptr : ℕ) : Run Memory :=
  let ptr := inptr ptr
  free { m with totalAllocated := usub 64 m.totalAllocated (m.word ptr) } ptr

/-- A call with what the allocator below answers in it. -/
inductive Call where
  | malloc (sz : ℕ) (answer : Option ℕ)
  | realloc (ptr : Option ℕ) (sz : ℕ) (answer : Option ℕ)
  | free (ptr : ℕ)

def Call.run (m : Memory) : Call → Run (Memory × Option ℕ)
  | .malloc sz answer => .ok (replacementMalloc m sz answer)
  | .realloc ptr sz answer => replacementRealloc m ptr sz answer
  | .free ptr => do
    let m ← replacementFree m ptr
    .ok (m, none)

end Source

section Ledger

/-- The memory, and the live blocks with the sizes last granted to them. -/
structure System where
  memory : Memory
  ledger : List (ℕ × ℕ)

def forget (ledger : List (ℕ × ℕ)) (p : ℕ) : List (ℕ × ℕ) :=
  ledger.filter fun b => b.1 ≠ p

def record (ledger : List (ℕ × ℕ)) : Call → Option ℕ → List (ℕ × ℕ)
  | .malloc sz _, some p => (p, sz) :: ledger
  | .realloc none sz _, some p => (p, sz) :: ledger
  | .realloc (some q) sz _, some p => (p, sz) :: forget ledger q
  | .free p, _ => forget ledger p
  | _, none => ledger

def Fits (chunks : List Chunk) (n p : ℕ) : Prop :=
  0 < p ∧ p+n < 2^64 ∧ ∀ c ∈ chunks, p+n ≤ c.base ∨ c.base+c.size ≤ p

/-- Sizes are of type `size_t`, blocks are live, and answers are pieces of memory
that are not in use. -/
def Valid (σ : System) : Call → Prop
  | .malloc sz answer => sz < 2^64 ∧
      ∀ p ∈ answer, Fits σ.memory.chunks ((sz+alignment) % 2^64) p
  | .realloc none sz answer => sz < 2^64 ∧
      ∀ p ∈ answer, Fits σ.memory.chunks ((sz+alignment) % 2^64) p
  | .realloc (some q) sz answer => sz < 2^64 ∧ q ∈ σ.ledger.map Prod.fst ∧
      ∀ p ∈ answer, Fits (remove σ.memory (inptr q)).chunks ((sz+alignment) % 2^64) p
  | .free q => q ∈ σ.ledger.map Prod.fst

/-- The counter is the sum of the granted sizes, and every block has its bytes
behind the header. -/
structure Accounted (σ : System) : Prop where
  total : σ.memory.totalAllocated = (σ.ledger.map Prod.snd).sum
  usable : ∀ b ∈ σ.ledger, ∃ c ∈ σ.memory.chunks, outptr c.base = b.1 ∧ alignment+b.2 ≤ c.size

def Failed : Call → Option ℕ → Prop
  | .free _, _ => False
  | _, r => r = none

/-- The call keeps the accounts, and changes nothing when it fails. -/
def Honours (σ : System) (call : Call) : Prop :=
  ∃ m r, call.run σ.memory = .ok (m, r) ∧ Accounted ⟨m, record σ.ledger call r⟩ ∧
    (Failed call r → m = σ.memory)

/-- The size with its header is a `size_t`, or the allocator below refuses without
freeing anything. -/
def Mild : Call → Prop
  | .malloc sz answer => sz+alignment < 2^64 ∨ answer = none
  | .realloc none sz answer => sz+alignment < 2^64 ∨ answer = none
  | .realloc (some _) sz answer =>
      sz+alignment < 2^64 ∨ answer = none ∧ sz+alignment ≠ 2^64
  | .free _ => True

/-- The states of the runs whose calls are all mild. -/
inductive Reachable : System → Prop
  | start (word : ℕ → ℕ) : Reachable ⟨⟨[], word, 0⟩, []⟩
  | call {σ : System} {call : Call} {m : Memory} {r : Option ℕ} (h : Reachable σ)
      (hvalid : Valid σ call) (hmild : Mild call) (hrun : call.run σ.memory = .ok (m, r)) :
      Reachable ⟨m, record σ.ledger call r⟩

end Ledger

section Packing

variable {chunks : List Chunk}

def Apart (c d : Chunk) : Prop := c.base+c.size ≤ d.base ∨ d.base+d.size ≤ c.base

def cover : List Chunk → Finset ℕ
  | [] => ∅
  | c :: l => Finset.Ico c.base (c.base+c.size) ∪ cover l

theorem mem_cover {a : ℕ} :
    a ∈ cover chunks ↔ ∃ c ∈ chunks, c.base ≤ a ∧ a < c.base+c.size := by
  induction chunks with
  | nil => simp [cover]
  | cons c l ih => simp [cover, ih]

theorem cover_card (h : chunks.Pairwise Apart) :
    (cover chunks).card = (chunks.map Chunk.size).sum := by
  induction chunks with
  | nil => rfl
  | cons c l ih =>
    obtain ⟨hc, hl⟩ := List.pairwise_cons.mp h
    rw [cover, Finset.card_union_of_disjoint, ih hl, Nat.card_Ico, List.map_cons, List.sum_cons,
      Nat.add_sub_cancel_left]
    apply Finset.disjoint_left.mpr
    intro a ha hm
    rw [Finset.mem_Ico] at ha
    obtain ⟨d, hd, hlo, hhi⟩ := mem_cover.mp hm
    rcases hc d hd with hcd | hdc <;> omega

theorem sizes_le (h : chunks.Pairwise Apart) (top : ℕ)
    (hin : ∀ c ∈ chunks, c.base+c.size ≤ top) : (chunks.map Chunk.size).sum ≤ top := by
  rw [← cover_card h, ← Finset.card_range top]
  apply Finset.card_le_card
  intro a ha
  obtain ⟨c, hc, -, hhi⟩ := mem_cover.mp ha
  exact Finset.mem_range.mpr (lt_of_lt_of_le hhi (hin c hc))

end Packing

section Invariant

variable {σ : System} {m : Memory} {ledger : List (ℕ × ℕ)} {chunks : List Chunk} {c : Chunk}
  {call : Call} {p q sz : ℕ} {answer : Option ℕ}

def block (c : Chunk) : ℕ × ℕ := (outptr c.base, c.size-alignment)

structure Kept (σ : System) : Prop where
  ledger : σ.ledger = σ.memory.chunks.map block
  room : ∀ c ∈ σ.memory.chunks, alignment ≤ c.size
  header : ∀ c ∈ σ.memory.chunks, σ.memory.word c.base = c.size-alignment
  inside : ∀ c ∈ σ.memory.chunks, c.base+c.size < 2^64
  apart : σ.memory.chunks.Pairwise Apart
  total : σ.memory.totalAllocated = (σ.ledger.map Prod.snd).sum

theorem start_kept (word : ℕ → ℕ) : Kept ⟨⟨[], word, 0⟩, []⟩ where
  ledger := rfl
  room := by simp
  header := by simp
  inside := by simp
  apart := List.Pairwise.nil
  total := rfl

theorem block_sum_le (chunks : List Chunk) :
    ((chunks.map block).map Prod.snd).sum ≤ (chunks.map Chunk.size).sum := by
  induction chunks with
  | nil => exact le_rfl
  | cons c l ih =>
    simp only [List.map_cons, List.sum_cons, block]
    omega

theorem block_sum_lt (hapart : chunks.Pairwise Apart)
    (hin : ∀ c ∈ chunks, c.base+c.size < 2^64) :
    ((chunks.map block).map Prod.snd).sum < 2^64 := by
  have hle := sizes_le hapart (2^64-1) (fun c hc => by have := hin c hc; omega)
  have := block_sum_le chunks
  omega

theorem Kept.accounted (h : Kept σ) : Accounted σ := by
  refine ⟨h.total, fun b hb => ?_⟩
  rw [h.ledger] at hb
  obtain ⟨c, hc, rfl⟩ := List.mem_map.mp hb
  have := h.room c hc
  exact ⟨c, hc, rfl, by rw [block]; omega⟩

/-- A new block, wherever the memory for it comes from. -/
theorem Kept.grant {w v : ℕ → ℕ} {total : ℕ} (h : Kept ⟨⟨chunks, w, total⟩, ledger⟩)
    (hfit : Fits chunks (sz+alignment) p) (hword : v p = sz)
    (hother : ∀ a, a ≠ p → v a = w a) :
    Kept ⟨⟨⟨p, sz+alignment⟩ :: chunks, v, (total+sz) % 2^64⟩, (outptr p, sz) :: ledger⟩ := by
  obtain ⟨-, hend, hapart⟩ := hfit
  have hledger : (outptr p, sz) :: ledger = (⟨p, sz+alignment⟩ :: chunks).map block := by
    rw [List.map_cons, ← h.ledger, block]
    simp
  have hin : ∀ c ∈ (⟨p, sz+alignment⟩ : Chunk) :: chunks, c.base+c.size < 2^64 :=
    List.forall_mem_cons.mpr ⟨hend, h.inside⟩
  have hall : ((⟨p, sz+alignment⟩ : Chunk) :: chunks).Pairwise Apart :=
    List.pairwise_cons.mpr ⟨hapart, h.apart⟩
  refine ⟨hledger, ?_, ?_, hin, hall, ?_⟩
  · exact List.forall_mem_cons.mpr ⟨by dsimp only; omega, h.room⟩
  · dsimp only
    rw [List.forall_mem_cons]
    constructor
    · dsimp only
      rw [hword, Nat.add_sub_cancel]
    · intro c hc
      have hroom := h.room c hc
      have hne : c.base ≠ p := by
        have := hapart c hc
        rw [alignment] at this hroom
        omega
      exact (hother _ hne).trans (h.header c hc)
  · have hlt := block_sum_lt hall hin
    rw [← hledger, List.map_cons, List.sum_cons] at hlt
    have htotal : total = (ledger.map Prod.snd).sum := h.total
    dsimp only at hlt ⊢
    rw [List.map_cons, List.sum_cons, htotal, Nat.mod_eq_of_lt (by omega), Nat.add_comm]

theorem filter_sum (f : Chunk → ℕ) (hapart : chunks.Pairwise Apart)
    (hroom : ∀ c ∈ chunks, alignment ≤ c.size) (hc : c ∈ chunks) :
    ((chunks.filter fun d => d.base ≠ c.base).map f).sum + f c = (chunks.map f).sum := by
  induction chunks with
  | nil => cases hc
  | cons d l ih =>
    obtain ⟨hd, hl⟩ := List.pairwise_cons.mp hapart
    obtain ⟨hdroom, hlroom⟩ := List.forall_mem_cons.mp hroom
    have hne : ∀ e ∈ l, e.base ≠ d.base := fun e he heq => by
      have := hd e he
      have := hlroom e he
      rw [Apart, alignment] at *
      omega
    rcases List.mem_cons.mp hc with rfl | hc
    · have hkeep : (l.filter fun e => e.base ≠ c.base) = l :=
        List.filter_eq_self.mpr (by simpa using hne)
      rw [List.filter_cons_of_neg (by simp), hkeep, List.map_cons, List.sum_cons, Nat.add_comm]
    · rw [List.filter_cons_of_pos (by simpa using (hne c hc).symm), List.map_cons, List.map_cons,
        List.sum_cons, List.sum_cons, Nat.add_assoc, ih hl hlroom hc]

theorem forget_blocks (chunks : List Chunk) (p : ℕ) :
    forget (chunks.map block) (outptr p) = (chunks.filter fun c => c.base ≠ p).map block := by
  rw [forget, List.filter_map]
  congr 1
  apply List.filter_congr
  intro c _
  simp [block, outptr]

/-- A block is given back. -/
theorem Kept.drop (h : Kept σ) (hc : c ∈ σ.memory.chunks) :
    Kept ⟨{ remove σ.memory c.base with
      totalAllocated := usub 64 σ.memory.totalAllocated (σ.memory.word c.base) },
      forget σ.ledger (outptr c.base)⟩ := by
  have hsub : (remove σ.memory c.base).chunks.Sublist σ.memory.chunks := List.filter_sublist
  refine ⟨?_, fun d hd => h.room d (hsub.subset hd), fun d hd => h.header d (hsub.subset hd),
    fun d hd => h.inside d (hsub.subset hd), h.apart.sublist hsub, ?_⟩
  · dsimp only
    rw [h.ledger, forget_blocks]
    rfl
  · have hsum := filter_sum (fun d => (block d).2) h.apart h.room hc
    have hlt := block_sum_lt h.apart h.inside
    have htotal := h.total
    rw [h.ledger] at htotal
    dsimp only
    rw [h.ledger, forget_blocks, htotal, h.header c hc, List.map_map, List.map_map]
    rw [List.map_map] at hlt
    have hcomp : (Prod.snd ∘ block) = fun d => (block d).2 := rfl
    have hsize : (block c).2 = c.size-alignment := rfl
    rw [hcomp] at hlt ⊢
    rw [usub_of_le (by omega) (by omega)]
    omega

theorem Kept.find (h : Kept σ) (hq : q ∈ σ.ledger.map Prod.fst) :
    ∃ c ∈ σ.memory.chunks, q = outptr c.base ∧ inptr q = c.base := by
  rw [h.ledger, List.map_map] at hq
  obtain ⟨c, hc, rfl⟩ := List.mem_map.mp hq
  exact ⟨c, hc, rfl, Nat.add_sub_cancel ..⟩

theorem free_ok (hc : c ∈ m.chunks) : free m c.base = .ok (remove m c.base) := by
  rw [free, if_pos (List.any_eq_true.mpr ⟨c, hc, by simp⟩)]

theorem malloc_kept (h : Kept σ) (hmild : sz+alignment < 2^64 ∨ answer = none)
    (hfit : ∀ p ∈ answer, Fits σ.memory.chunks ((sz+alignment) % 2^64) p) :
    ∃ m r, replacementMalloc σ.memory sz answer = (m, r) ∧
      Kept ⟨m, record σ.ledger (.malloc sz answer) r⟩ ∧ (r = none → m = σ.memory) := by
  cases answer with
  | none => exact ⟨σ.memory, none, rfl, h, fun _ => rfl⟩
  | some p =>
    have hsz := hmild.resolve_right (by simp)
    have hp := hfit p rfl
    rw [Nat.mod_eq_of_lt hsz] at hp
    have hkept := h.grant hp (Function.update_self p sz σ.memory.word)
      (fun a ha => Function.update_of_ne ha ..)
    refine ⟨_, some (outptr p), ?_, hkept, by simp⟩
    rw [replacementMalloc, Nat.mod_eq_of_lt hsz]
    rfl

theorem Kept.total_lt (h : Kept σ) : σ.memory.totalAllocated < 2^64 := by
  rw [h.total, h.ledger]
  exact block_sum_lt h.apart h.inside

theorem realloc_null (h : Kept σ) :
    replacementRealloc σ.memory none sz answer = .ok (replacementMalloc σ.memory sz answer) := by
  cases answer with
  | none => rfl
  | some p =>
    have husub : usub 64 σ.memory.totalAllocated 0 = σ.memory.totalAllocated :=
      usub_of_le (Nat.zero_le _) h.total_lt
    rw [replacementRealloc, replacementMalloc, Option.map_none, realloc]
    dsimp only [malloc, ok_bind]
    rw [husub]

theorem realloc_kept (h : Kept σ) (hq : q ∈ σ.ledger.map Prod.fst)
    (hmild : sz+alignment < 2^64 ∨ answer = none ∧ sz+alignment ≠ 2^64) (hsz : sz < 2^64)
    (hfit : ∀ p ∈ answer, Fits (remove σ.memory (inptr q)).chunks ((sz+alignment) % 2^64) p) :
    ∃ m r, replacementRealloc σ.memory (some q) sz answer = .ok (m, r) ∧
      Kept ⟨m, record σ.ledger (.realloc (some q) sz answer) r⟩ ∧ (r = none → m = σ.memory) := by
  obtain ⟨c, hc, rfl, hbase⟩ := h.find hq
  rw [hbase] at hfit
  have hne : (sz+alignment) % 2^64 ≠ 0 := by
    rw [alignment] at hmild ⊢
    omega
  cases answer with
  | none =>
    refine ⟨σ.memory, none, ?_, h, fun _ => rfl⟩
    rw [replacementRealloc, Option.map_some, hbase, realloc]
    dsimp only
    rw [free_ok hc, ok_bind, if_neg hne]
    rfl
  | some p =>
    have hlt := hmild.resolve_right (by simp)
    have hp := hfit p rfl
    rw [Nat.mod_eq_of_lt hlt] at hp
    have hkept := (h.drop hc).grant hp (v := Function.update
      (Function.update σ.memory.word p (σ.memory.word c.base)) p sz)
      (Function.update_self ..) (fun a ha => by
        rw [Function.update_of_ne ha, Function.update_of_ne ha]
        rfl)
    refine ⟨_, some (outptr p), ?_, hkept, by simp⟩
    rw [replacementRealloc, Option.map_some, hbase, realloc]
    dsimp only
    rw [free_ok hc, ok_bind, if_neg hne, Nat.mod_eq_of_lt hlt]
    rfl

theorem free_kept (h : Kept σ) (hq : q ∈ σ.ledger.map Prod.fst) :
    ∃ m, replacementFree σ.memory q = .ok m ∧ Kept ⟨m, forget σ.ledger q⟩ := by
  obtain ⟨c, hc, rfl, hbase⟩ := h.find hq
  refine ⟨_, ?_, h.drop hc⟩
  rw [replacementFree, hbase]
  exact free_ok hc

theorem call_kept (h : Kept σ) (hvalid : Valid σ call) (hmild : Mild call) :
    ∃ m r, call.run σ.memory = .ok (m, r) ∧ Kept ⟨m, record σ.ledger call r⟩ ∧
      (Failed call r → m = σ.memory) := by
  match call with
  | .malloc sz answer =>
    obtain ⟨m, r, hrun, hkept, hfail⟩ := malloc_kept h hmild hvalid.2
    exact ⟨m, r, congrArg _ hrun, hkept, hfail⟩
  | .realloc none sz answer =>
    obtain ⟨m, r, hrun, hkept, hfail⟩ := malloc_kept h hmild hvalid.2
    refine ⟨m, r, (realloc_null h).trans (congrArg _ hrun), ?_, hfail⟩
    cases r <;> exact hkept
  | .realloc (some q) sz answer =>
    obtain ⟨hsz, hq, hfit⟩ := hvalid
    exact realloc_kept h hq hmild hsz hfit
  | .free q =>
    obtain ⟨m, hrun, hkept⟩ := free_kept h hvalid
    refine ⟨m, none, ?_, hkept, False.elim⟩
    rw [Call.run, hrun]
    rfl

theorem reachable_kept (h : Reachable σ) : Kept σ := by
  induction h with
  | start word => exact start_kept word
  | call _ hvalid hmild hrun ih =>
    obtain ⟨m, r, hrun', hkept, -⟩ := call_kept ih hvalid hmild
    rw [hrun] at hrun'
    cases hrun'
    exact hkept

theorem not_accounted (hbig : 2^64 ≤ sz+alignment) (hmem : (p, sz) ∈ σ.ledger)
    (hsmall : ∀ c ∈ σ.memory.chunks, c.size < 2^64) : ¬Accounted σ := by
  intro h
  obtain ⟨c, hc, -, hle⟩ := h.usable _ hmem
  have := hsmall c hc
  omega

theorem Kept.size_lt (h : Kept σ) : ∀ c ∈ σ.memory.chunks, c.size < 2^64 := fun c hc => by
  have := h.inside c hc
  omega

theorem malloc_dishonours (h : Kept σ) (hbig : 2^64 ≤ sz+alignment) :
    ¬Accounted ⟨(replacementMalloc σ.memory sz (some p)).1, (outptr p, sz) :: σ.ledger⟩ := by
  apply not_accounted hbig List.mem_cons_self
  intro c hc
  rcases List.mem_cons.mp hc with rfl | hc
  · exact Nat.mod_lt _ (by decide)
  · exact h.size_lt c hc

theorem mild_of_honours (h : Kept σ) (hvalid : Valid σ call) (hon : Honours σ call) :
    Mild call := by
  obtain ⟨m, r, hrun, hacc, -⟩ := hon
  by_contra hmild
  match call with
  | .malloc sz answer =>
    rw [Mild, not_or, not_lt] at hmild
    obtain ⟨p, rfl⟩ := Option.ne_none_iff_exists'.mp hmild.2
    cases hrun
    exact malloc_dishonours h hmild.1 hacc
  | .realloc none sz answer =>
    rw [Mild, not_or, not_lt] at hmild
    obtain ⟨p, rfl⟩ := Option.ne_none_iff_exists'.mp hmild.2
    rw [Call.run, realloc_null h] at hrun
    cases hrun
    exact malloc_dishonours h hmild.1 hacc
  | .realloc (some q) sz answer =>
    obtain ⟨-, hq, -⟩ := hvalid
    obtain ⟨c, hc, rfl, hbase⟩ := h.find hq
    rw [Mild, not_or, not_lt] at hmild
    obtain ⟨hbig, hanswer⟩ := hmild
    rw [Call.run, replacementRealloc, Option.map_some, hbase, realloc] at hrun
    dsimp only at hrun
    rw [free_ok hc, ok_bind] at hrun
    by_cases hzero : (sz+alignment) % 2^64 = 0
    · rw [if_pos hzero] at hrun
      cases hrun
      obtain ⟨b, hb, hfst⟩ := List.mem_map.mp hq
      obtain ⟨d, hd, hd', -⟩ := hacc.usable b hb
      have hbase' : d.base = c.base := Nat.add_right_cancel (hd'.trans hfst)
      have := List.mem_filter.mp hd
      simp [hbase'] at this
    · rw [if_neg hzero] at hrun
      have hsome : answer ≠ none := fun hc => hanswer ⟨hc, fun heq => hzero (by rw [heq]; rfl)⟩
      obtain ⟨p, rfl⟩ := Option.ne_none_iff_exists'.mp hsome
      cases hrun
      refine not_accounted hbig List.mem_cons_self (fun d hd => ?_) hacc
      rcases List.mem_cons.mp hd with rfl | hd
      · exact Nat.mod_lt _ (by decide)
      · exact h.size_lt d (List.mem_filter.mp hd).1
  | .free q => exact hmild trivial

/-- Runs of mild calls keep the accounts, and a call that is not mild breaks them. -/
theorem accounts_kept (h : Reachable σ) :
    Accounted σ ∧ ∀ call, Valid σ call → (Honours σ call ↔ Mild call) := by
  have hkept := reachable_kept h
  refine ⟨hkept.accounted, fun call hvalid => ⟨mild_of_honours hkept hvalid, fun hmild => ?_⟩⟩
  obtain ⟨m, r, hrun, hkept', hfail⟩ := call_kept hkept hvalid hmild
  exact ⟨m, r, hrun, hkept'.accounted, hfail⟩

def empty : System := ⟨⟨[], fun _ => 0, 0⟩, []⟩

/-- A block of sixteen bytes is moved and grown. -/
theorem accounts_kept_moved : ∃ σ, Reachable σ ∧ σ.ledger = [(4104, 16)] ∧
    Honours σ (.realloc (some 4104) 32 (some 8192)) := by
  have hmalloc : Valid empty (.malloc 16 (some 4096)) := by
    refine ⟨by decide, fun p hp => ?_⟩
    cases hp
    exact ⟨by decide, by decide, by simp [empty]⟩
  have h := Reachable.call (.start fun _ => 0) hmalloc (Or.inl (by decide)) rfl
  refine ⟨_, h, rfl, ((accounts_kept h).2 (.realloc (some 4104) 32 (some 8192))
    ⟨by decide, by decide, fun p hp => ?_⟩).mpr (Or.inl (by decide))⟩
  cases hp
  exact ⟨by decide, by decide, by decide⟩

/-- The size with its header wraps around to seven bytes. -/
theorem accounts_wrap : Valid empty (.malloc (2^64-1) (some 4096)) ∧
    ¬Honours empty (.malloc (2^64-1) (some 4096)) := by
  refine ⟨⟨by decide, fun p hp => ?_⟩, ?_⟩
  · cases hp
    exact ⟨by decide, by decide, by simp [empty]⟩
  · rintro ⟨m, r, hrun, hacc, -⟩
    cases hrun
    exact malloc_dishonours (start_kept fun _ => 0) (by decide) hacc

end Invariant

end CLearning.AllocationAccounting
