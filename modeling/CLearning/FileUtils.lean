import CLearning.Machine
import Mathlib.Data.List.TakeWhile

/-!
# Files as strings

`file_read_str` of `file_utils.h` reads a file line by line into a buffer that
`realloc` makes larger by just the line, and appends the line with `strcat`. A
stream is the list of the lines that `getline` has yet to return.
-/

set_option autoImplicit false

namespace CLearning.FileUtils
open CLearning.Machine

section Source

def lines : List UInt8 → List (List UInt8)
  | [] => []
  | c :: s =>
    if c = 10 then [c] :: lines s
    else
      match lines s with
      | [] => [[c]]
      | line :: rest => (c :: line) :: rest

/-- `file_write_str`: the file and the result; `opened` says whether `fopen` succeeds. -/
def fileWriteStr (opened : Bool) (file content : List UInt8) (length : ℕ) :
    Run (List UInt8 × ℤ) :=
  if !opened then .ok (file, -1)
  else if length ≤ content.length then .ok (content.take length, 0)
  else .error .wildAccess

def fresh (memory : ℕ → UInt8) (a n : ℕ) : List UInt8 := (List.range' a n).map memory

/-- A served `realloc`: the old bytes, then what memory held. -/
def realloc (memory : ℕ → UInt8) (content : List UInt8) (size : ℕ) : List UInt8 :=
  content.take size ++ fresh memory (content.take size).length (size-content.length)

def stringOf (line : List UInt8) : List UInt8 := line.takeWhile (· ≠ 0)

/-- `strcat`: from the first zero byte of `content` on, the string in `line` and its end. -/
def strcat (content line : List UInt8) : Run (List UInt8) :=
  let src := stringOf line ++ [0]
  match content.findIdx? (· = 0) with
  | none => .error .wildAccess
  | some p =>
    if p+src.length ≤ content.length then
      .ok (content.take p ++ src ++ content.drop (p+src.length))
    else .error .wildAccess

/-- The loop of `file_read_str`; no buffer before the first line. -/
def readLoop (memory : ℕ → UInt8) :
    List (List UInt8) → Option (List UInt8) → ℕ → Run (Option (List UInt8) × ℕ)
  | [], content, total => .ok (content, total)
  | line :: rest, content, total => do
    let content ← strcat (realloc memory (content.getD []) (total+line.length)) line
    readLoop memory rest (some content) (total+line.length)

/-- `file_read_str`: the buffer and `*length`. A file that does not open is read
through a null stream. -/
def fileReadStr (memory : ℕ → UInt8) (opened : Bool) (file : List UInt8) :
    Run (Option (List UInt8) × ℕ) :=
  if !opened then .error .nullDeref else readLoop memory (lines file) none 0

end Source

section Lines

variable {l line s : List UInt8} {rest : List (List UInt8)}

theorem lines_flatten (s : List UInt8) : (lines s).flatten = s := by
  induction s with
  | nil => rfl
  | cons c s ih =>
    rw [lines]
    split
    · rw [List.flatten_cons, ih, List.singleton_append]
    · split
      · next h =>
        rw [h] at ih
        rw [← ih]
        rfl
      · next line rest h =>
        rw [h] at ih
        rw [← ih]
        rfl

theorem flatten_of_lines (h : lines s = l :: rest) : s = l ++ rest.flatten := by
  rw [← lines_flatten s, h, List.flatten_cons]

theorem lines_ne_nil (hl : l ∈ lines s) : l ≠ [] := by
  induction s generalizing l with
  | nil => cases hl
  | cons c s ih =>
    rw [lines] at hl
    split at hl
    · rcases List.mem_cons.mp hl with rfl | hl
      · exact List.cons_ne_nil _ _
      · exact ih hl
    · split at hl
      · rw [List.mem_singleton.mp hl]
        exact List.cons_ne_nil _ _
      · next h =>
        rcases List.mem_cons.mp hl with rfl | hl
        · exact List.cons_ne_nil _ _
        · exact ih (h ▸ List.mem_cons_of_mem _ hl)

theorem lines_eq_nil_iff : lines s = [] ↔ s = [] := by
  constructor
  · intro h
    rw [← lines_flatten s, h]
    rfl
  · rintro rfl
    rfl

end Lines

section Strings

variable {memory : ℕ → UInt8} {a b x y s tail line content : List UInt8} {m n : ℕ}

theorem fresh_eq_iff (memory : ℕ → UInt8) (m : ℕ) (s : List UInt8) :
    fresh memory m s.length = s ↔ ∀ i b, s[i]? = some b → memory (m+i) = b := by
  constructor
  · intro h i b hi
    rw [← h, fresh, List.getElem?_map, Option.map_eq_some_iff] at hi
    obtain ⟨j, hj, rfl⟩ := hi
    rw [List.getElem?_eq_some_iff] at hj
    obtain ⟨-, rfl⟩ := hj
    simp
  · intro h
    apply List.ext_getElem
    · simp [fresh]
    · intro i h₁ h₂
      have hi := h i s[i] (List.getElem?_eq_getElem h₂)
      simp [fresh, hi]

@[simp] theorem fresh_length (memory : ℕ → UInt8) (m n : ℕ) : (fresh memory m n).length = n := by
  simp [fresh]

theorem fresh_append (memory : ℕ → UInt8) (a m n : ℕ) :
    fresh memory a m ++ fresh memory (a+m) n = fresh memory a (m+n) := by
  rw [fresh, fresh, ← List.map_append, fresh, ← List.range'_append_1]

theorem fresh_drop (memory : ℕ → UInt8) (a m n : ℕ) :
    (fresh memory a n).drop m = fresh memory (a+m) (n-m) := by
  rw [fresh, fresh, ← List.map_drop, List.drop_range']
  simp

theorem realloc_grow (n : ℕ) :
    realloc memory content (content.length+n) = content ++ fresh memory content.length n := by
  rw [realloc, List.take_of_length_le (Nat.le_add_right _ _), Nat.add_sub_cancel_left]

theorem realloc_none (memory : ℕ → UInt8) (n : ℕ) :
    realloc memory [] (0+n) = fresh memory 0 n :=
  @realloc_grow memory [] n

theorem zero_unique (h : a ++ 0 :: x = b ++ 0 :: y) (ha : 0 ∉ a) (hb : 0 ∉ b) :
    a = b ∧ x = y := by
  induction a generalizing b with
  | nil =>
    cases b with
    | nil => simpa using h
    | cons c b =>
      rw [List.nil_append, List.cons_append, List.cons.injEq] at h
      exact absurd (h.1 ▸ List.mem_cons_self) hb
  | cons c a ih =>
    cases b with
    | nil =>
      rw [List.nil_append, List.cons_append, List.cons.injEq] at h
      exact absurd (h.1 ▸ List.mem_cons_self) ha
    | cons d b =>
      rw [List.cons_append, List.cons_append, List.cons.injEq] at h
      obtain ⟨rfl, h⟩ := h
      obtain ⟨rfl, rfl⟩ := ih h (fun hm => ha (List.mem_cons_of_mem _ hm))
        fun hm => hb (List.mem_cons_of_mem _ hm)
      exact ⟨rfl, rfl⟩

theorem stringOf_zero (hs : 0 ∉ s) : stringOf (s ++ 0 :: tail) = s := by
  have hpos : ∀ c ∈ s, decide (c ≠ 0) = true := fun c hc =>
    decide_eq_true fun hz => hs (hz ▸ hc)
  rw [stringOf, List.takeWhile_append_of_pos hpos, List.takeWhile_cons_of_neg (by decide),
    List.append_nil]

theorem stringOf_self (hs : 0 ∉ s) : stringOf s = s :=
  List.takeWhile_eq_self_iff.mpr fun _ hc => decide_eq_true fun hz => hs (hz ▸ hc)

theorem zero_notMem_stringOf : 0 ∉ stringOf line := fun hz =>
  absurd (List.mem_takeWhile_imp hz) (by decide)

theorem head_of_stringOf_nil (hne : line ≠ []) (h : stringOf line = []) :
    line.head? = some 0 := by
  obtain ⟨c, t, rfl⟩ := List.exists_cons_of_ne_nil hne
  by_cases hc : c = 0
  · rw [hc]
    rfl
  · rw [stringOf, List.takeWhile_cons, if_pos (decide_eq_true hc)] at h
    cases h

theorem strcat_full (h : 0 ∉ content) : strcat content line = .error .wildAccess := by
  have hnone : content.findIdx? (· = 0) = none := by
    rw [List.findIdx?_eq_none_iff]
    intro c hc
    exact decide_eq_false fun hz => h (hz ▸ hc)
  rw [strcat, hnone]

theorem strcat_eq (hs : 0 ∉ s) (line : List UInt8) :
    strcat (s ++ 0 :: tail) line =
      if (stringOf line).length ≤ tail.length then
        .ok (s ++ stringOf line ++ 0 :: tail.drop (stringOf line).length)
      else .error .wildAccess := by
  have hnone : s.findIdx? (fun c => decide (c = 0)) = none := by
    rw [List.findIdx?_eq_none_iff]
    intro c hc
    exact decide_eq_false fun hz => hs (hz ▸ hc)
  have hfind : (s ++ 0 :: tail).findIdx? (fun c => decide (c = 0)) = some s.length := by
    rw [List.findIdx?_append, hnone]
    simp [List.findIdx?_cons]
  have hdrop : (s ++ 0 :: tail).drop (s.length+((stringOf line).length+1)) =
      tail.drop (stringOf line).length := by
    rw [List.drop_append, List.drop_of_length_le (by omega), Nat.add_sub_cancel_left,
      List.drop_succ_cons, List.nil_append]
  rw [strcat, hfind]
  simp only [List.length_append, List.length_cons, List.length_nil, Nat.zero_add, hdrop,
    List.take_left, Nat.add_le_add_iff_left, Nat.add_le_add_iff_right]
  simp

end Strings

section RoundTrip

variable {memory : ℕ → UInt8} {s tail line bytes : List UInt8} {rest : List (List UInt8)} {i : ℕ}

/-- Lines that start with a zero byte: the buffer grows by what memory held. -/
theorem loop_blank (hs : 0 ∉ s) (h : ∀ l ∈ rest, l.head? = some 0) :
    readLoop memory rest (some (s ++ 0 :: tail)) (s ++ 0 :: tail).length =
      .ok (some (s ++ 0 :: (tail ++ fresh memory (s ++ 0 :: tail).length rest.flatten.length)),
        (s ++ 0 :: tail).length+rest.flatten.length) := by
  induction rest generalizing tail with
  | nil => simp [readLoop, fresh]
  | cons line rest ih =>
    obtain ⟨t, rfl⟩ := List.head?_eq_some_iff.mp (h line List.mem_cons_self)
    have hgrow := @realloc_grow memory (s ++ 0 :: tail) (0 :: t).length
    rw [List.append_assoc, List.cons_append] at hgrow
    have hcat := @strcat_eq s (tail ++ fresh memory (s ++ 0 :: tail).length (0 :: t).length) hs
      (0 :: t)
    have hsrc : stringOf (0 :: t) = [] := List.takeWhile_cons_of_neg (by decide)
    rw [hsrc, List.length_nil, if_pos (Nat.zero_le _), List.append_nil, List.drop_zero] at hcat
    have hnext := @ih (tail ++ fresh memory (s ++ 0 :: tail).length (0 :: t).length)
      fun l hl => h l (List.mem_cons_of_mem _ hl)
    have hlen : (s ++ 0 :: (tail ++ fresh memory (s ++ 0 :: tail).length (0 :: t).length)).length =
        (s ++ 0 :: tail).length+(0 :: t).length := by
      simp only [List.length_append, List.length_cons, fresh_length]
      omega
    rw [hlen] at hnext
    have hflat : ((0 :: t) :: rest).flatten.length = (0 :: t).length+rest.flatten.length := by
      rw [List.flatten_cons, List.length_append]
    rw [readLoop, Option.getD_some, hgrow, hcat, ok_bind, hnext, List.append_assoc, fresh_append,
      hflat, Nat.add_assoc]

/-- What the string in the buffer becomes. -/
theorem loop_extends {content : Option (List UInt8)} {total n : ℕ} (hs : 0 ∉ s)
    (hne : ∀ l ∈ rest, l ≠ []) (htotal : total = (s ++ 0 :: tail).length)
    (hrun : readLoop memory rest (some (s ++ 0 :: tail)) total = .ok (content, n)) :
    ∃ s' tail', content = some (s ++ s' ++ 0 :: tail') ∧ 0 ∉ s' ∧
      (s' = [] → ∀ l ∈ rest, l.head? = some 0) := by
  induction rest generalizing s tail total with
  | nil =>
    rw [readLoop, Except.ok.injEq, Prod.mk.injEq] at hrun
    exact ⟨[], tail, by rw [List.append_nil, hrun.1], List.not_mem_nil, by simp⟩
  | cons line rest ih =>
    subst htotal
    have hgrow := @realloc_grow memory (s ++ 0 :: tail) line.length
    rw [List.append_assoc, List.cons_append] at hgrow
    rw [readLoop, Option.getD_some, hgrow, strcat_eq hs] at hrun
    split at hrun
    · next hfit =>
      rw [ok_bind] at hrun
      have hsrc := @zero_notMem_stringOf line
      obtain ⟨s', tail', hcontent, hs', hblank⟩ := ih (by simp [hs, hsrc])
        (fun l hl => hne l (List.mem_cons_of_mem _ hl)) (by
          simp only [List.length_append, List.length_cons, List.length_drop, fresh_length] at hfit ⊢
          omega) hrun
      refine ⟨stringOf line ++ s', tail', by rw [hcontent]; simp, by simp [hs', hsrc], ?_⟩
      intro hnil l hl
      obtain ⟨htake, hnil'⟩ := List.append_eq_nil_iff.mp hnil
      rcases List.mem_cons.mp hl with rfl | hl
      · exact head_of_stringOf_nil (hne l List.mem_cons_self) htake
      · exact hblank hnil' l hl
    · cases hrun

/-- The file is written, and read back it is the same bytes and their number. -/
def RoundTrips (memory : ℕ → UInt8) (old bytes : List UInt8) : Prop :=
  ∃ file content, fileWriteStr true old bytes bytes.length = .ok (file, 0) ∧
    fileReadStr memory true file = .ok (content, bytes.length) ∧ content.getD [] = bytes

/-- The file is empty; or its first line has a zero byte, each later line starts
with one, and memory holds one first and the rest of the file behind the first. -/
def Lucky (memory : ℕ → UInt8) (bytes : List UInt8) : Prop :=
  bytes = [] ∨ ∃ line rest, lines bytes = line :: rest ∧ 0 ∈ line ∧
    (∀ l ∈ rest, l.head? = some 0) ∧ memory 0 = 0 ∧
    ∀ i b, bytes[i]? = some b → (stringOf line).length < i → memory i = b

theorem roundTrips_read (memory : ℕ → UInt8) (old bytes : List UInt8) :
    RoundTrips memory old bytes ↔ ∃ content,
      readLoop memory (lines bytes) none 0 = .ok (content, bytes.length) ∧
        content.getD [] = bytes := by
  have hwrite : fileWriteStr true old bytes bytes.length = .ok (bytes, 0) := by
    simp [fileWriteStr]
  constructor
  · rintro ⟨file, content, hrun, hread, hsame⟩
    rw [hwrite, Except.ok.injEq, Prod.mk.injEq] at hrun
    obtain ⟨rfl, -⟩ := hrun
    exact ⟨content, hread, hsame⟩
  · rintro ⟨content, hread, hsame⟩
    exact ⟨bytes, content, hwrite, hread, hsame⟩

/-- The run on a file whose first line has a zero byte, when memory starts with one. -/
theorem read_blank {t : List UInt8} (hlines : lines bytes = (s ++ 0 :: t) :: rest) (hs : 0 ∉ s)
    (hblank : ∀ l ∈ rest, l.head? = some 0) (hzero : memory 0 = 0) :
    readLoop memory (lines bytes) none 0 =
      .ok (some (s ++ 0 :: fresh memory (s.length+1) (t ++ rest.flatten).length),
        bytes.length) := by
  have hbytes : bytes = s ++ 0 :: (t ++ rest.flatten) := by
    rw [flatten_of_lines hlines, List.append_assoc, List.cons_append]
  have hgrow : realloc memory [] (0+(s ++ 0 :: t).length) =
      0 :: fresh memory 1 (s.length+t.length) := by
    rw [realloc_none, List.length_append, List.length_cons, ← Nat.add_assoc, fresh,
      List.range'_succ, List.map_cons, hzero]
    rfl
  have hcat := @strcat_eq [] (fresh memory 1 (s.length+t.length)) List.not_mem_nil (s ++ 0 :: t)
  rw [stringOf_zero hs, fresh_length, if_pos (Nat.le_add_right _ _), List.nil_append,
    List.nil_append, fresh_drop, Nat.add_sub_cancel_left] at hcat
  have hloop := @loop_blank memory s (fresh memory (1+s.length) t.length) rest hs hblank
  have hlen : (s ++ 0 :: fresh memory (1+s.length) t.length).length =
      0+(s ++ 0 :: t).length := by
    simp
  have hplace : 0+(s ++ 0 :: t).length = 1+s.length+t.length := by
    simp only [List.length_append, List.length_cons]
    omega
  have htotal : 0+(s ++ 0 :: t).length+rest.flatten.length = bytes.length := by
    rw [hbytes]
    simp only [List.length_append, List.length_cons]
    omega
  rw [hlen, htotal, hplace, fresh_append, ← List.length_append] at hloop
  rw [hlines, readLoop, Option.getD_none, hgrow, hcat, ok_bind, hplace, hloop, Nat.add_comm 1]

theorem memory_iff {t : List UInt8} (hbytes : bytes = s ++ 0 :: t) :
    (∀ i b, bytes[i]? = some b → s.length < i → memory i = b) ↔
      fresh memory (s.length+1) t.length = t := by
  have hget : ∀ i, bytes[s.length+1+i]? = t[i]? := by
    intro i
    rw [hbytes, List.getElem?_append_right (by omega),
      show s.length+1+i-s.length = i+1 by omega, List.getElem?_cons_succ]
  rw [fresh_eq_iff]
  constructor
  · intro h i b hi
    exact h _ b ((hget i).trans hi) (by omega)
  · intro h i b hi hlt
    obtain ⟨j, rfl⟩ : ∃ j, i = s.length+1+j := ⟨i-(s.length+1), by omega⟩
    exact h j b ((hget j).symm.trans hi)

/-- A file that comes back was lucky. -/
theorem lucky_of_read {content : Option (List UInt8)} {n : ℕ} (hlines : lines bytes = line :: rest)
    (hrun : readLoop memory (lines bytes) none 0 = .ok (content, n))
    (hsame : content.getD [] = bytes) :
    0 ∈ line ∧ (∀ l ∈ rest, l.head? = some 0) ∧ memory 0 = 0 := by
  have hrest : ∀ l ∈ rest, l ≠ [] := fun l hl =>
    lines_ne_nil (hlines ▸ List.mem_cons_of_mem _ hl)
  have hbytes := flatten_of_lines hlines
  rw [hlines, readLoop, Option.getD_none, realloc_none] at hrun
  by_cases hz : 0 ∈ fresh memory 0 line.length
  · obtain ⟨s, tail, hfresh, hs⟩ := List.eq_append_cons_of_mem hz
    have hlen : s.length+(tail.length+1) = line.length := by
      rw [← fresh_length memory 0 line.length, hfresh, List.length_append, List.length_cons]
    rw [hfresh, strcat_eq hs] at hrun
    split at hrun
    · next hfit =>
      have hline : 0 ∈ line := by
        by_contra h
        rw [stringOf_self h] at hfit
        omega
      obtain ⟨a, t, rfl, ha⟩ := List.eq_append_cons_of_mem hline
      rw [stringOf_zero ha] at hrun hfit
      obtain ⟨s', tail', rfl, hs', hblank⟩ := loop_extends (by simp [hs, ha]) hrest (by
        simp only [List.length_append, List.length_cons, List.length_drop] at hlen ⊢
        omega) hrun
      -- the string in the buffer ends where the first zero byte of the file stands
      rw [Option.getD_some, hbytes, List.append_assoc a, List.cons_append] at hsame
      have hstring := (zero_unique hsame (by simp [hs, ha, hs']) ha).1
      have hlength := congrArg List.length hstring
      simp only [List.length_append] at hlength
      obtain rfl : s = [] := List.length_eq_zero_iff.mp (by omega)
      obtain rfl : s' = [] := List.length_eq_zero_iff.mp (by omega)
      refine ⟨hline, hblank rfl, ?_⟩
      rw [← hlen, List.length_nil, Nat.zero_add, fresh, List.range'_succ, List.map_cons,
        List.nil_append, List.cons.injEq] at hfresh
      exact hfresh.1
    · cases hrun
  · rw [strcat_full hz] at hrun
    cases hrun

/-- What is written comes back exactly when the file is empty or lucky with the
memory it is read into. -/
theorem round_trips_iff (memory : ℕ → UInt8) (old bytes : List UInt8) :
    RoundTrips memory old bytes ↔ Lucky memory bytes := by
  rw [roundTrips_read]
  cases hlines : lines bytes with
  | nil =>
    rw [lines_eq_nil_iff.mp hlines]
    exact ⟨fun _ => Or.inl rfl, fun _ => ⟨none, rfl, rfl⟩⟩
  | cons line rest =>
    have hbytes := flatten_of_lines hlines
    constructor
    · rintro ⟨content, hrun, hsame⟩
      rw [← hlines] at hrun
      obtain ⟨hline, hblank, hzero⟩ := lucky_of_read hlines hrun hsame
      obtain ⟨a, t, rfl, ha⟩ := List.eq_append_cons_of_mem hline
      rw [List.append_assoc, List.cons_append] at hbytes
      refine Or.inr ⟨_, rest, hlines, hline, hblank, hzero, ?_⟩
      rw [stringOf_zero ha, memory_iff hbytes]
      rw [read_blank hlines ha hblank hzero, Except.ok.injEq, Prod.mk.injEq] at hrun
      rw [← hrun.1, Option.getD_some] at hsame
      exact (zero_unique (hsame.trans hbytes) ha ha).2
    · rintro (rfl | ⟨line, rest, hlines', hline, hblank, hzero, hmem⟩)
      · cases hlines
      · rw [hlines, List.cons.injEq] at hlines'
        obtain ⟨rfl, rfl⟩ := hlines'
        obtain ⟨a, t, rfl, ha⟩ := List.eq_append_cons_of_mem hline
        rw [List.append_assoc, List.cons_append] at hbytes
        rw [stringOf_zero ha, memory_iff hbytes] at hmem
        rw [← hlines, read_blank hlines ha hblank hzero, hmem]
        exact ⟨_, rfl, hbytes.symm⟩

theorem round_trips_always_iff (bytes : List UInt8) :
    (∀ memory old, RoundTrips memory old bytes) ↔ bytes = [] := by
  constructor
  · intro h
    rcases (round_trips_iff (fun _ => 1) [] bytes).mp (h _ _) with rfl | ⟨_, _, _, _, _, hzero, _⟩
    · rfl
    · exact absurd hzero (by decide)
  · rintro rfl memory old
    exact (round_trips_iff memory old []).mpr (Or.inl rfl)

theorem text_overruns (memory : ℕ → UInt8) (hne : bytes ≠ []) (hzero : 0 ∉ bytes) :
    fileReadStr memory true bytes = .error .wildAccess := by
  cases hlines : lines bytes with
  | nil => exact absurd (lines_eq_nil_iff.mp hlines) hne
  | cons line rest =>
    have hline : 0 ∉ line := fun h => hzero (by
      rw [flatten_of_lines hlines]
      exact List.mem_append_left _ h)
    have hcat : strcat (fresh memory 0 line.length) line = .error .wildAccess := by
      by_cases hz : 0 ∈ fresh memory 0 line.length
      · obtain ⟨s, tail, hfresh, hs⟩ := List.eq_append_cons_of_mem hz
        have hlen := congrArg List.length hfresh
        rw [fresh_length, List.length_append, List.length_cons] at hlen
        rw [hfresh, strcat_eq hs, stringOf_self hline, if_neg (by omega)]
      · exact strcat_full hz
    rw [fileReadStr, Bool.not_true, if_neg Bool.false_ne_true, hlines, readLoop, Option.getD_none,
      realloc_none, hcat, error_bind]

/-- The `hello world` of the program's `main`. -/
theorem round_trips_fails : ¬∀ (memory : ℕ → UInt8) (old bytes : List UInt8),
    RoundTrips memory old bytes := by
  intro h
  obtain ⟨file, content, hwrite, hread, -⟩ := h (fun _ => 0) []
    [104, 101, 108, 108, 111, 32, 119, 111, 114, 108, 100]
  have hfile : file = [104, 101, 108, 108, 111, 32, 119, 111, 114, 108, 100] := by
    simpa [fileWriteStr] using hwrite.symm
  rw [hfile, text_overruns _ (by decide) (by decide)] at hread
  cases hread

end RoundTrip

end CLearning.FileUtils
