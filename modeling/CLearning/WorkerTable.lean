import CLearning.Machine
import Mathlib.Data.List.Range
import Mathlib.Data.List.Perm.Basic
import Mathlib.Logic.Function.Basic

/-!
# The table of workers

`threadpool_incre_worker` puts a thread at the end of the table,
`threadpool_decre_worker` walks the table from its start, cancels the threads
that are too old and only counts them off. What the clock reads and how
`pthread_create` and `pthread_cancel` end is part of a run.
-/

set_option autoImplicit false

namespace CLearning.WorkerTable
open CLearning.Machine

section Source

structure Worker where
  tId : ℕ
  createTime : ℤ

/-- The fields of `thread_pool_t` these calls use, and the threads that were created
and not cancelled. -/
structure Pool where
  coreSize : ℤ
  maxSize : ℤ
  currentSize : ℤ
  maxIdle : ℤ
  workers : ℕ → Worker
  live : List ℕ

/-- How `pthread_create` ends, and what `time` returns after it. -/
structure Spawn where
  thread : Option ℕ
  time : ℤ

def slot (s : Pool) (i : ℤ) : Run ℕ :=
  if 0 ≤ i ∧ i < s.maxSize then .ok i.toNat else .error .wildAccess

def setWorker (s : Pool) (i : ℕ) (w : Worker) : Pool :=
  { s with workers := Function.update s.workers i w }

/-- A `pthread_create` that fails leaves the thread id as it was. -/
def threadpoolIncreWorker (s : Pool) (o : Spawn) : Run (Pool × ℤ) :=
  if s.currentSize ≥ s.maxSize then .ok (s, -1)
  else do
    let i ← slot s s.currentSize
    let s := match o.thread with
      | some t => { setWorker s i { s.workers i with tId := t } with live := s.live ++ [t] }
      | none => s
    let s := setWorker s i { s.workers i with createTime := o.time }
    .ok ({ s with currentSize := s.currentSize+1 }, 0)

def fillLoop : ℕ → (ℕ → Spawn) → Pool → Run Pool
  | 0, _, _ => .error .outOfFuel
  | fuel+1, o, s =>
    if s.currentSize < s.coreSize then do
      let r ← threadpoolIncreWorker s (o 0)
      fillLoop fuel (fun k => o (k+1)) r.1
    else .ok s

def threadpoolCreate (fuel : ℕ) (coreSize maxSize maxIdle : ℤ) (table : ℕ → Worker)
    (o : ℕ → Spawn) : Run Pool :=
  fillLoop fuel o ⟨coreSize, maxSize, 0, maxIdle, table, []⟩

/-- The worker is too old, and `pthread_cancel` succeeds. -/
def removes (s : Pool) (clock : ℕ → ℤ) (cancel : ℕ → Bool) (i : ℕ) : Bool :=
  clock i-(s.workers i).createTime ≥ s.maxIdle && cancel i

/-- The loop of `threadpool_decre_worker`. -/
def decreLoop (clock : ℕ → ℤ) (cancel : ℕ → Bool) : ℕ → Pool → ℕ → Run Pool
  | 0, _, _ => .error .outOfFuel
  | fuel+1, s, i =>
    if s.currentSize > s.coreSize then do
      let _ ← slot s i
      let s := if removes s clock cancel i then
          { s with currentSize := s.currentSize-1, live := s.live.erase (s.workers i).tId }
        else s
      decreLoop clock cancel fuel s (i+1)
    else .ok s

def threadpoolDecreWorker (fuel : ℕ) (s : Pool) (clock : ℕ → ℤ) (cancel : ℕ → Bool) :
    Run (Pool × ℤ) :=
  if s.currentSize ≤ s.coreSize then .ok (s, -1)
  else do
    let s ← decreLoop clock cancel fuel s 0
    .ok (s, 0)

def joinLoop (s : Pool) : ℕ → ℕ → Run (List ℕ)
  | 0, _ => .ok []
  | n+1, i => do
    let _ ← slot s i
    let ts ← joinLoop s n (i+1)
    .ok ((s.workers i).tId :: ts)

/-- The threads that `threadpool_wait` joins. -/
def threadpoolWait (s : Pool) : Run (List ℕ) := joinLoop s s.currentSize.toNat 0

inductive Call where
  | incre (o : Spawn)
  | decre (clock : ℕ → ℤ) (cancel : ℕ → Bool)

def Call.run (fuel : ℕ) (s : Pool) : Call → Run (Pool × ℤ)
  | .incre o => threadpoolIncreWorker s o
  | .decre clock cancel => threadpoolDecreWorker fuel s clock cancel

end Source

def listing (s : Pool) (i n : ℕ) : List ℕ :=
  (List.range' i n).map fun k => (s.workers k).tId

/-- The table lists the live threads, and `threadpool_wait` joins them. -/
structure Sound (s : Pool) : Prop where
  atLeast : s.coreSize ≤ s.currentSize
  atMost : s.currentSize ≤ s.maxSize
  listed : (listing s 0 s.currentSize.toNat).Perm s.live
  joined : ∃ ts, threadpoolWait s = .ok ts ∧ ts.Perm s.live

/-- The core fits in the table, and each attempt to fill it succeeds. -/
def CreateMild (coreSize maxSize : ℤ) (o : ℕ → Spawn) : Prop :=
  coreSize ≤ maxSize ∧ ∀ i : ℕ, i < coreSize → (o i).thread ≠ none

/-- A thread that is to be created is created; if there are threads beyond the core,
exactly these are too old and can be cancelled. -/
def Mild (s : Pool) : Call → Prop
  | .incre o => s.maxSize ≤ s.currentSize ∨ o.thread ≠ none
  | .decre clock cancel => s.currentSize ≤ s.coreSize ∨
      0 ≤ s.coreSize ∧ ∀ i : ℕ, i < s.currentSize → (removes s clock cancel i ↔ s.coreSize ≤ i)

inductive Reachable (s₀ : Pool) : Pool → Prop
  | start : Reachable s₀ s₀
  | call {fuel : ℕ} {s s' : Pool} {call : Call} {r : ℤ} (h : Reachable s₀ s)
      (hmild : Mild s call) (hrun : call.run fuel s = .ok (s', r)) : Reachable s₀ s'

structure Kept (s : Pool) : Prop where
  nonneg : 0 ≤ s.currentSize
  atMost : s.currentSize ≤ s.maxSize
  listed : (listing s 0 s.currentSize.toNat).Perm s.live

variable {s s' : Pool} {o : Spawn} {os : ℕ → Spawn} {clock : ℕ → ℤ} {cancel : ℕ → Bool}
  {fuel fuel' i n : ℕ} {call : Call}

theorem slot_ok {k : ℤ} (h₀ : 0 ≤ k) (h₁ : k < s.maxSize) : slot s k = .ok k.toNat :=
  if_pos ⟨h₀, h₁⟩

theorem joinLoop_ok (h : ((i+n : ℕ) : ℤ) ≤ s.maxSize) : joinLoop s n i = .ok (listing s i n) := by
  induction n generalizing i with
  | zero => rfl
  | succ n ih =>
    rw [joinLoop, slot_ok (by omega) (by omega), ok_bind, ih (by omega)]
    rfl

theorem Kept.sound (h : Kept s) (hcore : s.coreSize ≤ s.currentSize) : Sound s := by
  refine ⟨hcore, h.atMost, h.listed, _, joinLoop_ok ?_, h.listed⟩
  have := h.atMost
  have := h.nonneg
  omega

theorem listing_congr (h : ∀ k < i+n, (s'.workers k).tId = (s.workers k).tId) :
    listing s' i n = listing s i n := by
  apply List.map_congr_left
  intro k hk
  rw [List.mem_range'_1] at hk
  exact h k hk.2

theorem listing_append (s : Pool) (i m n : ℕ) :
    listing s i m ++ listing s (i+m) n = listing s i (m+n) := by
  rw [listing, listing, ← List.map_append, List.range'_append_1]
  rfl

/-- A thread that was created stands at the end of the listing. -/
theorem increWorker_kept (h : Kept s) (hmild : s.maxSize ≤ s.currentSize ∨ o.thread ≠ none) :
    ∃ s' r, threadpoolIncreWorker s o = .ok (s', r) ∧ Kept s' ∧ s'.coreSize = s.coreSize ∧
      s'.maxSize = s.maxSize ∧
      s'.currentSize = if s.currentSize < s.maxSize then s.currentSize+1 else s.currentSize := by
  rw [threadpoolIncreWorker]
  split_ifs with hfull hroom hroom
  · omega
  · exact ⟨s, -1, rfl, h, rfl, rfl, rfl⟩
  · obtain ⟨t, ht⟩ := Option.ne_none_iff_exists'.mp (hmild.resolve_left hfull)
    have hnonneg := h.nonneg
    rw [slot_ok hnonneg hroom, ok_bind, ht]
    refine ⟨_, 0, rfl, ⟨?_, ?_, ?_⟩, rfl, rfl, rfl⟩
    · dsimp only [setWorker]
      omega
    · dsimp only [setWorker]
      omega
    · dsimp only [setWorker]
      rw [show (s.currentSize+1).toNat = s.currentSize.toNat+1 by omega, ← listing_append]
      apply List.Perm.append
      · rw [listing_congr (s := s)]
        · exact h.listed
        · intro k hk
          have hne : k ≠ s.currentSize.toNat := by omega
          simp [hne]
      · simp [listing]
  · omega

theorem fillLoop_kept (h : Kept s) (hfit : s.coreSize ≤ s.maxSize)
    (hspawn : ∀ i : ℕ, i < s.coreSize-s.currentSize → (os i).thread ≠ none)
    (hfuel : (s.coreSize-s.currentSize).toNat < fuel) :
    ∃ s', fillLoop fuel os s = .ok s' ∧ Kept s' ∧ s'.coreSize ≤ s'.currentSize := by
  induction fuel generalizing s os with
  | zero => omega
  | succ fuel ih =>
    rw [fillLoop]
    split_ifs with hmore
    · obtain ⟨s₁, r, hrun, h₁, hcore, hmax, hcur⟩ :=
        increWorker_kept h (Or.inr (hspawn 0 (by omega)))
      rw [if_pos (by omega)] at hcur
      rw [hrun, ok_bind]
      apply ih h₁ (by omega)
      · intro i hi
        exact hspawn (i+1) (by omega)
      · omega
    · exact ⟨s, rfl, h, by omega⟩

theorem create_kept {coreSize maxSize maxIdle : ℤ} {table : ℕ → Worker} (hmax : 0 ≤ maxSize)
    (hmild : CreateMild coreSize maxSize os) (hfuel : coreSize.toNat < fuel) :
    ∃ s, threadpoolCreate fuel coreSize maxSize maxIdle table os = .ok s ∧ Kept s ∧
      s.coreSize ≤ s.currentSize := by
  refine fillLoop_kept ⟨Int.le_refl 0, hmax, List.Perm.refl _⟩ hmild.1 (fun i hi => ?_) ?_
  · exact hmild.2 i (by simpa using hi)
  · simpa using hfuel

theorem decreLoop_core (fuel : ℕ) (hmore : s.currentSize > s.coreSize) (hin : ((i+n : ℕ) : ℤ) ≤ s.maxSize)
    (hkeep : ∀ k < i+n, ¬removes s clock cancel k) :
    decreLoop clock cancel (fuel+n) s i = decreLoop clock cancel fuel s (i+n) := by
  induction n generalizing i with
  | zero => rfl
  | succ n ih =>
    rw [← Nat.add_assoc, decreLoop, if_pos hmore, slot_ok (by omega) (by omega), ok_bind,
      if_neg (hkeep i (by omega))]
    dsimp only
    rw [ih (by omega) (fun k hk => hkeep k (by omega)), Nat.add_right_comm, Nat.add_assoc]

/-- The walk beyond the core cancels everybody and ends at the last one. -/
theorem decreLoop_beyond (fuel : ℕ) (h₀ : 0 ≤ s.coreSize) (hcur : s.currentSize = s.coreSize+n)
    (hin : ((i+n : ℕ) : ℤ) ≤ s.maxSize) (hle : s.coreSize ≤ i)
    (hremove : ∀ k, i ≤ k → k < i+n → removes s clock cancel k)
    (hlive : (listing s 0 s.coreSize.toNat ++ listing s i n).Perm s.live) (hfuel : n < fuel) :
    ∃ s', decreLoop clock cancel fuel s i = .ok s' ∧ Kept s' ∧
      s'.coreSize ≤ s'.currentSize := by
  induction n generalizing s i fuel with
  | zero =>
    obtain ⟨fuel, rfl⟩ := Nat.exists_eq_add_of_le' hfuel
    have hzero : s.currentSize = s.coreSize := by omega
    refine ⟨s, ?_, ⟨by omega, by omega, ?_⟩, by omega⟩
    · rw [Nat.succ_eq_add_one, Nat.zero_add, decreLoop, if_neg (by omega)]
    · rw [hzero]
      simpa [listing] using hlive
  | succ n ih =>
    obtain ⟨fuel, rfl⟩ := Nat.exists_eq_add_of_le' (Nat.one_le_of_lt hfuel)
    rw [decreLoop, if_pos (by omega), slot_ok (by omega) (by omega), ok_bind,
      if_pos (hremove i le_rfl (by omega))]
    apply ih fuel
    · exact h₀
    · dsimp only
      omega
    · dsimp only
      omega
    · dsimp only
      omega
    · intro k hk hk'
      exact hremove k (by omega) (by omega)
    · have hcons : listing s i (n+1) = (s.workers i).tId :: listing s (i+1) n := rfl
      rw [hcons] at hlive
      have herase := (List.perm_middle.symm.trans hlive).erase (s.workers i).tId
      rwa [List.erase_cons_head] at herase
    · omega

theorem decreLoop_agree (hle : fuel ≤ fuel') (h : decreLoop clock cancel fuel s i = .ok s') :
    decreLoop clock cancel fuel' s i = .ok s' := by
  induction fuel generalizing fuel' s i with
  | zero => cases h
  | succ fuel ih =>
    obtain ⟨fuel', rfl⟩ := Nat.exists_eq_add_of_le' (Nat.one_le_of_lt hle)
    rw [decreLoop] at h ⊢
    split_ifs at h ⊢ with hmore hremove
    · obtain ⟨k, hslot, hrest⟩ := bind_ok_iff.mp h
      rw [hslot, ok_bind]
      exact ih (by omega) hrest
    · obtain ⟨k, hslot, hrest⟩ := bind_ok_iff.mp h
      rw [hslot, ok_bind]
      exact ih (by omega) hrest
    · exact h

theorem call_agree {r : Pool × ℤ} (hle : fuel ≤ fuel') (h : call.run fuel s = .ok r) :
    call.run fuel' s = .ok r := by
  cases call with
  | incre o => exact h
  | decre clock cancel =>
    rw [Call.run, threadpoolDecreWorker] at h ⊢
    split_ifs at h ⊢ with hcore
    · exact h
    · obtain ⟨s', hloop, hrest⟩ := bind_ok_iff.mp h
      rw [decreLoop_agree hle hloop, ok_bind]
      exact hrest

theorem decreWorker_kept (h : Kept s) (hcore : s.coreSize ≤ s.currentSize)
    (hmild : Mild s (.decre clock cancel)) (hfuel : s.currentSize.toNat < fuel) :
    ∃ s' r, threadpoolDecreWorker fuel s clock cancel = .ok (s', r) ∧ Kept s' ∧
      s'.coreSize ≤ s'.currentSize := by
  rw [threadpoolDecreWorker]
  split_ifs with hnone
  · exact ⟨s, -1, rfl, h, hcore⟩
  · obtain ⟨h₀, hexact⟩ := hmild.resolve_left hnone
    have hmax := h.atMost
    obtain ⟨c, hc⟩ := Int.eq_ofNat_of_zero_le h₀
    obtain ⟨n, hn⟩ := Int.eq_ofNat_of_zero_le (show 0 ≤ s.currentSize-s.coreSize by omega)
    have hkeep : ∀ k < 0+c, ¬removes s clock cancel k := fun k hk hr => by
      have := (hexact k (by omega)).mp hr
      omega
    have hwalk := decreLoop_core (fuel-c) (show s.currentSize > s.coreSize by omega)
      (by omega) hkeep
    rw [Nat.sub_add_cancel (by omega), Nat.zero_add] at hwalk
    have hlive := h.listed
    rw [show s.currentSize.toNat = c+n by omega, ← listing_append, Nat.zero_add] at hlive
    obtain ⟨s', hrun, hs', hcore'⟩ := decreLoop_beyond (i := c) (n := n) (fuel-c) h₀
      (by omega) (by omega) (by omega)
      (fun k hk hk' => (hexact k (by omega)).mpr (by omega))
      (by rwa [show s.coreSize.toNat = c by omega]) (by omega)
    refine ⟨s', 0, ?_, hs', hcore'⟩
    rw [hwalk, hrun]
    rfl

theorem call_kept (h : Kept s) (hcore : s.coreSize ≤ s.currentSize) (hmild : Mild s call)
    (hfuel : s.currentSize.toNat < fuel) : ∃ s' r, call.run fuel s = .ok (s', r) ∧ Kept s' ∧
      s'.coreSize ≤ s'.currentSize := by
  cases call with
  | incre o =>
    obtain ⟨s', r, hrun, hs', hcore', -, hcur⟩ := increWorker_kept h hmild
    refine ⟨s', r, hrun, hs', ?_⟩
    split_ifs at hcur <;> omega
  | decre clock cancel => exact decreWorker_kept h hcore hmild hfuel

theorem reachable_kept {s₀ : Pool} (h₀ : Kept s₀ ∧ s₀.coreSize ≤ s₀.currentSize)
    (h : Reachable s₀ s) : Kept s ∧ s.coreSize ≤ s.currentSize := by
  induction h with
  | start => exact h₀
  | @call fuel s _ _ _ _ hmild hrun ih =>
    obtain ⟨s', r, hrun', hkept⟩ := call_kept ih.1 ih.2 hmild (Nat.lt_succ_self _)
    rcases le_total (s.currentSize.toNat+1) fuel with hle | hle
    · cases hrun.symm.trans (call_agree hle hrun')
      exact hkept
    · cases hrun'.symm.trans (call_agree hle hrun)
      exact hkept

/-- The pool is created, and as long as the calls are mild every call ends and the
table lists the live threads. -/
theorem workers_sound (coreSize maxSize maxIdle : ℤ) (table : ℕ → Worker) (os : ℕ → Spawn)
    (hmax : 0 ≤ maxSize) (hmild : CreateMild coreSize maxSize os) :
    ∃ fuel s₀, threadpoolCreate fuel coreSize maxSize maxIdle table os = .ok s₀ ∧
      ∀ s, Reachable s₀ s → Sound s ∧
        ∀ call, Mild s call → ∃ fuel s' r, call.run fuel s = .ok (s', r) := by
  obtain ⟨s₀, hrun, h₀⟩ := create_kept hmax hmild (Nat.lt_succ_self _)
  refine ⟨_, s₀, hrun, fun s h => ?_⟩
  obtain ⟨hkept, hcore⟩ := reachable_kept h₀ h
  refine ⟨hkept.sound hcore, fun call hmild => ?_⟩
  obtain ⟨s', r, hrun, -⟩ := call_kept hkept hcore hmild (Nat.lt_succ_self _)
  exact ⟨_, s', r, hrun⟩

def spawns (k : ℕ) : Spawn := ⟨some (k+10), 0⟩

theorem spawns_mild : CreateMild 1 2 spawns :=
  ⟨by decide, fun _ _ h => by cases h⟩

/-- A second thread is made, at an earlier time by the clock; it alone is too old and is
cancelled. -/
theorem workers_sound_shrunk : ∃ s₀ s₁ s₂,
    threadpoolCreate 2 1 2 3 (fun _ => ⟨0, 0⟩) (fun _ => ⟨some 10, 4⟩) = .ok s₀ ∧
    Call.run 0 s₀ (.incre ⟨some 11, 1⟩) = .ok (s₁, 0) ∧
    Call.run 3 s₁ (.decre (fun _ => 5) fun _ => true) = .ok (s₂, 0) ∧
    s₁.live = [10, 11] ∧ s₂.live = [10] ∧ Sound s₁ ∧ Sound s₂ := by
  obtain ⟨fuel, s₀, hrun, hsound⟩ := workers_sound 1 2 3 (fun _ => ⟨0, 0⟩) (fun _ => ⟨some 10, 4⟩)
    (by decide) ⟨by decide, fun _ _ h => by cases h⟩
  have hstart : Reachable s₀ s₀ := .start
  rcases fuel with _ | _ | fuel
  · cases hrun
  · cases hrun
  · cases hrun
    have h₁ := hstart.call (by exact Or.inr (Option.some_ne_none 11))
      (show Call.run 0 _ (.incre ⟨some 11, 1⟩) = .ok (_, 0) from rfl)
    have h₂ := h₁.call (by
      refine Or.inr ⟨by decide, fun i hi => ?_⟩
      have htwo : (i : ℤ) < 2 := hi
      rcases i with _ | _ | i
      · decide
      · decide
      · omega)
      (show Call.run 3 _ (.decre (fun _ => 5) fun _ => true) = .ok (_, 0) from rfl)
    exact ⟨_, _, _, rfl, rfl, rfl, rfl, rfl, (hsound _ h₁).1, (hsound _ h₂).1⟩

/-- One core thread and one more; the core thread is too old and is cancelled. -/
theorem workers_unsound : ∃ s s₁ s₂,
    threadpoolCreate 2 1 2 0 (fun _ => ⟨0, 0⟩) spawns = .ok s ∧
    Call.run 0 s (.incre ⟨some 11, 0⟩) = .ok (s₁, 0) ∧
    Call.run 2 s₁ (.decre (fun _ => 5) fun _ => true) = .ok (s₂, 0) ∧ ¬Sound s₂ := by
  refine ⟨_, _, _, rfl, rfl, rfl, fun h => ?_⟩
  exact absurd h.listed (by decide)

end CLearning.WorkerTable
