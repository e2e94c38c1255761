import CLearning.FnvHash

/-!
# Printing a QR code

`writeUTF8` of `demo_qrencode.c` prints two rows of modules as one line of block
characters. The lowest bit of an octet says whether its module is dark. What is
written to the file is a list of octets.
-/

set_option autoImplicit false

namespace CLearning.QrCode
open CLearning.Machine CLearning.FnvHash

section Source

def margin : ℕ := 2

structure Strings where
  empty : List UInt8
  lowhalf : List UInt8
  uphalf : List UInt8
  full : List UInt8
  white : List UInt8
  reset : List UInt8

def blocks : Strings where
  empty := [32]
  lowhalf := [0xE2, 0x96, 0x84]
  uphalf := [0xE2, 0x96, 0x80]
  full := [0xE2, 0x96, 0x88]
  white := []
  reset := []

def invertBlocks (s : Strings) : Strings :=
  { s with empty := s.full, full := s.empty, lowhalf := s.uphalf, uphalf := s.lowhalf }

def ansi (use_ansi : ℕ) (s : Strings) : Strings :=
  if use_ansi = 0 then s
  else if use_ansi = 2 then
    { s with
      white := [27, 91, 51, 56, 59, 53, 59, 50, 51, 49, 109, 27, 91, 52, 56, 59, 53, 59, 49, 54,
        109]
      reset := [27, 91, 48, 109] }
  else
    { s with
      white := [27, 91, 52, 48, 59, 51, 55, 59, 49, 109]
      reset := [27, 91, 48, 109] }

def strings (use_ansi : ℕ) (invert : Bool) : Strings :=
  ansi use_ansi (if invert then invertBlocks blocks else blocks)

def times (n : ℕ) (text : List UInt8) : List UInt8 := (List.replicate n text).flatten

def writeUTF8Margin (s : Strings) (realwidth : ℕ) : List UInt8 :=
  times (margin/2) (s.white ++ times realwidth s.full ++ s.reset ++ [10])

/-- Whether `data` has a dark module at `x` in row `y`. -/
def dark (data : List UInt8) (width y x : ℕ) : Run Bool := do
  let octet ← readOctet data (y*width+x)
  .ok (octet &&& 1 != 0)

def darkBelow (data : List UInt8) (width y x : ℕ) : Run Bool :=
  if y+1 < width then dark data width (y+1) x else .ok false

def writeModule (s : Strings) (data : List UInt8) (width y x : ℕ) : Run (List UInt8) := do
  let row1 ← dark data width y x
  if row1 then
    let row2 ← darkBelow data width y x
    if row2 then .ok s.empty else .ok s.lowhalf
  else
    let row2 ← darkBelow data width y x
    if row2 then .ok s.uphalf else .ok s.full

/-- The loop over a line, `left` modules before its end. -/
def writeModules (s : Strings) (data : List UInt8) (width y : ℕ) : ℕ → ℕ → Run (List UInt8)
  | 0, _ => .ok []
  | left+1, x => do
    let text ← writeModule s data width y x
    let line ← writeModules s data width y left (x+1)
    .ok (text ++ line)

def writeLine (s : Strings) (data : List UInt8) (width y : ℕ) : Run (List UInt8) := do
  let _ ← intSize (y*width)
  let line ← writeModules s data width y width 0
  .ok (s.white ++ (times margin s.full ++ (line ++ (times margin s.full ++ (s.reset ++ [10])))))

def writeLines (s : Strings) (data : List UInt8) (width : ℕ) : ℕ → ℕ → Run (List UInt8)
  | 0, _ => .error .outOfFuel
  | fuel+1, y =>
    if y < width then do
      let line ← writeLine s data width y
      let lines ← writeLines s data width fuel (y+2)
      .ok (line ++ lines)
    else .ok []

def writeUTF8 (data : List UInt8) (width use_ansi : ℕ) (invert : Bool) : Run (List UInt8) := do
  let s := strings use_ansi invert
  let realwidth ← intSize (width+margin*2)
  let lines ← writeLines s data width (width+1) 0
  .ok (writeUTF8Margin s realwidth ++ (lines ++ writeUTF8Margin s realwidth))

end Source

section Pieces

theorem flatMap_readable {f g : ℕ → List UInt8} {P : ℕ → Prop} {t t' : List UInt8} {l : List ℕ}
    (hpiece : ∀ i ∈ l, ∀ t t', f i ++ t = g i ++ t' → P i ∧ t = t')
    (h : l.flatMap f ++ t = l.flatMap g ++ t') : (∀ i ∈ l, P i) ∧ t = t' := by
  induction l with
  | nil => exact ⟨fun i hi => absurd hi List.not_mem_nil, h⟩
  | cons i l ih =>
    rw [List.flatMap_cons, List.flatMap_cons, List.append_assoc, List.append_assoc] at h
    obtain ⟨hi, hrest⟩ := hpiece i List.mem_cons_self _ _ h
    obtain ⟨hl, ht⟩ := ih (fun j hj => hpiece j (List.mem_cons_of_mem i hj)) hrest
    exact ⟨List.forall_mem_cons.mpr ⟨hi, hl⟩, ht⟩

end Pieces

section Lines

variable {data data' : List UInt8} {width y x : ℕ} {s : Strings}

def modules (data : List UInt8) (width y x : ℕ) : Bool := data.getD (y*width+x) 0 &&& 1 != 0

def block (s : Strings) (row1 row2 : Bool) : List UInt8 :=
  if row1 then if row2 then s.empty else s.lowhalf else if row2 then s.uphalf else s.full

def line (s : Strings) (m : ℕ → ℕ → Bool) (width y : ℕ) : List UInt8 :=
  (List.range' 0 width).flatMap fun x => block s (m y x) (decide (y+1 < width) && m (y+1) x)

def framed (s : Strings) (m : ℕ → ℕ → Bool) (width y : ℕ) : List UInt8 :=
  s.white ++ (times margin s.full ++ (line s m width y ++
    (times margin s.full ++ (s.reset ++ [10]))))

theorem dark_eq (hlen : data.length = width*width) (hy : y < width) (hx : x < width) :
    dark data width y x = .ok (modules data width y x) := by
  have hlt : y*width+x < data.length := by
    have := Nat.mul_le_mul_right width (Nat.succ_le_of_lt hy)
    rw [Nat.succ_mul] at this
    omega
  rw [dark, readOctet_of_lt hlt, ok_bind, modules, List.getD_eq_getElem _ _ hlt]

theorem darkBelow_eq (hlen : data.length = width*width) (hx : x < width) :
    darkBelow data width y x = .ok (decide (y+1 < width) && modules data width (y+1) x) := by
  rw [darkBelow]
  by_cases hy : y+1 < width
  · rw [if_pos hy, dark_eq hlen hy hx, decide_eq_true hy, Bool.true_and]
  · rw [if_neg hy, decide_eq_false hy, Bool.false_and]

theorem writeModule_eq (hlen : data.length = width*width) (hy : y < width) (hx : x < width) :
    writeModule s data width y x = .ok (block s (modules data width y x)
      (decide (y+1 < width) && modules data width (y+1) x)) := by
  rw [writeModule, dark_eq hlen hy hx, ok_bind]
  simp only [darkBelow_eq hlen hx, ok_bind, block]
  split <;> split <;> rfl

theorem writeModules_eq (hlen : data.length = width*width) (hy : y < width) (left x : ℕ)
    (hx : x+left = width) :
    writeModules s data width y left x = .ok ((List.range' x left).flatMap fun x =>
      block s (modules data width y x) (decide (y+1 < width) && modules data width (y+1) x)) := by
  induction left generalizing x with
  | zero => rfl
  | succ left ih =>
    rw [writeModules, writeModule_eq hlen hy (by omega), ok_bind, ih (x+1) (by omega), ok_bind]
    rfl

theorem writeLine_eq (hlen : data.length = width*width) (hint : width*width < 2^31)
    (hy : y < width) : writeLine s data width y = .ok (framed s (modules data width) width y) := by
  have hrow : y*width < 2^31 :=
    Nat.lt_of_le_of_lt (Nat.mul_le_mul_right width (Nat.le_of_lt hy)) hint
  rw [writeLine, intSize, if_pos hrow, ok_bind,
    writeModules_eq hlen hy width 0 (Nat.zero_add width), ok_bind]
  rfl

theorem writeLines_eq (hlen : data.length = width*width) (hint : width*width < 2^31)
    (n fuel k : ℕ) (hn : n < fuel) (hk : k+n = (width+1)/2) :
    writeLines s data width fuel (2*k) =
      .ok ((List.range' k n).flatMap fun k => framed s (modules data width) width (2*k)) := by
  induction n generalizing fuel k with
  | zero =>
    obtain ⟨fuel, rfl⟩ := Nat.exists_eq_succ_of_ne_zero (Nat.ne_of_gt hn)
    rw [writeLines, if_neg (by omega)]
    rfl
  | succ n ih =>
    obtain ⟨fuel, rfl⟩ := Nat.exists_eq_succ_of_ne_zero (Nat.ne_of_gt (Nat.zero_lt_of_lt hn))
    have hnext := ih fuel (k+1) (by omega) (by omega)
    rw [Nat.mul_add, Nat.mul_one] at hnext
    rw [writeLines, if_pos (by omega), writeLine_eq hlen hint (by omega), ok_bind, hnext, ok_bind]
    rfl

end Lines

section Reading

variable {data data' : List UInt8} {width use_ansi : ℕ} {invert : Bool} {s : Strings}

def Readable (s : Strings) : Prop :=
  ∀ row1 row2 row1' row2' t t', block s row1 row2 ++ t = block s row1' row2' ++ t' →
    (row1 = row1' ∧ row2 = row2') ∧ t = t'

theorem readable_blocks : Readable blocks := by
  intro row1 row2 row1' row2' t t' h
  cases row1 <;> cases row2 <;> cases row1' <;> cases row2' <;>
    simp_all [block, blocks]

theorem readable_invert (h : Readable s) : Readable (invertBlocks s) := by
  have hblock : ∀ row1 row2, block (invertBlocks s) row1 row2 = block s (!row1) (!row2) := by
    intro row1 row2
    cases row1 <;> cases row2 <;> rfl
  intro row1 row2 row1' row2' t t' ht
  rw [hblock, hblock] at ht
  obtain ⟨⟨h1, h2⟩, htail⟩ := h _ _ _ _ _ _ ht
  exact ⟨⟨Bool.not_inj h1, Bool.not_inj h2⟩, htail⟩

theorem readable_strings (use_ansi : ℕ) (invert : Bool) : Readable (strings use_ansi invert) := by
  have hblocks : Readable (if invert then invertBlocks blocks else blocks) := by
    split
    · exact readable_invert readable_blocks
    · exact readable_blocks
  rw [strings, ansi]
  split
  · exact hblocks
  · split <;> exact hblocks

theorem framed_readable (hs : Readable s) {m m' : ℕ → ℕ → Bool} {y : ℕ} {t t' : List UInt8}
    (h : framed s m width y ++ t = framed s m' width y ++ t') :
    (∀ x < width, m y x = m' y x ∧ (y+1 < width → m (y+1) x = m' (y+1) x)) ∧ t = t' := by
  simp only [framed, List.append_assoc] at h
  have hline := List.append_cancel_left (List.append_cancel_left h)
  obtain ⟨hmods, htail⟩ := flatMap_readable (P := fun x => m y x = m' y x ∧
    (decide (y+1 < width) && m (y+1) x) = (decide (y+1 < width) && m' (y+1) x))
    (fun x _ t t' => hs _ _ _ _ t t') hline
  refine ⟨fun x hx => ?_, List.append_cancel_left (List.append_cancel_left
    (List.append_cancel_left htail))⟩
  obtain ⟨h1, h2⟩ := hmods x (List.mem_range'_1.mpr ⟨Nat.zero_le x, by omega⟩)
  refine ⟨h1, fun hy => ?_⟩
  simpa only [decide_eq_true hy, Bool.true_and] using h2

theorem and_one_eq {a b : UInt8} (h : (a &&& 1 != 0) = (b &&& 1 != 0)) : a &&& 1 = b &&& 1 := by
  have hbit (c : UInt8) : c &&& 1 = 0 ∨ c &&& 1 = 1 := by
    have hc : (c &&& 1).toNat = c.toNat % 2 := by
      rw [UInt8.toNat_and]
      exact Nat.and_one_is_mod _
    rcases Nat.mod_two_eq_zero_or_one c.toNat with h0 | h1
    · exact .inl (UInt8.toNat_inj.mp (hc.trans h0))
    · exact .inr (UInt8.toNat_inj.mp (hc.trans h1))
  rcases hbit a with ha | ha <;> rcases hbit b with hb | hb <;> rw [ha, hb] at h ⊢ <;>
    exact absurd h (by decide)

theorem map_of_modules (hlen : data.length = width*width) (hlen' : data'.length = width*width)
    (h : ∀ y < width, ∀ x < width, modules data width y x = modules data' width y x) :
    data.map (· &&& 1) = data'.map (· &&& 1) := by
  refine List.ext_getElem (by simp [hlen, hlen']) fun i hi hi' => ?_
  rw [List.length_map] at hi hi'
  have hpos : 0 < width := Nat.pos_of_ne_zero fun hz => by simp [hlen, hz] at hi
  have hmod := h (i/width) (Nat.div_lt_of_lt_mul (hlen ▸ hi)) (i % width) (Nat.mod_lt i hpos)
  rw [modules, modules, Nat.div_add_mod', List.getD_eq_getElem _ _ hi,
    List.getD_eq_getElem _ _ hi'] at hmod
  rw [List.getElem_map, List.getElem_map]
  exact and_one_eq hmod

theorem modules_of_map (h : data.map (· &&& 1) = data'.map (· &&& 1)) :
    modules data width = modules data' width := by
  have hlow (data : List UInt8) (i : ℕ) :
      data.getD i 0 &&& 1 = (data.map (· &&& 1)).getD i (0 &&& 1) :=
    (List.getD_map data 0 fun octet : UInt8 => octet &&& 1).symm
  funext y x
  rw [modules, modules, hlow, hlow, h]

/-- Every square of octets whose size is an `int` is printed without a read outside
it, and the text shows just the lowest bits: two codes of one width are printed alike
if and only if their modules are. -/
theorem writeUTF8_readable (hlen : data.length = width*width)
    (hlen' : data'.length = width*width) (hint : width*width < 2^31) (use_ansi : ℕ)
    (invert : Bool) :
    ∃ text text', writeUTF8 data width use_ansi invert = .ok text ∧
      writeUTF8 data' width use_ansi invert = .ok text' ∧
      (text = text' ↔ data.map (· &&& 1) = data'.map (· &&& 1)) := by
  have hreal : intSize (width+margin*2) = .ok (width+margin*2) := by
    refine if_pos ?_
    by_contra hge
    have hsq := Nat.mul_le_mul (show 2^16 ≤ width by rw [margin] at hge; omega)
      (show 2^16 ≤ width by rw [margin] at hge; omega)
    omega
  have hprint {data : List UInt8} (hlen : data.length = width*width) :=
    writeLines_eq (s := strings use_ansi invert) hlen hint ((width+1)/2) (width+1) 0 (by omega)
      (Nat.zero_add _)
  refine ⟨_, _, by rw [writeUTF8, hreal, ok_bind, hprint hlen, ok_bind],
    by rw [writeUTF8, hreal, ok_bind, hprint hlen', ok_bind], ?_⟩
  constructor
  · intro h
    refine map_of_modules hlen hlen' ?_
    obtain ⟨hrows, -⟩ := flatMap_readable (fun k _ t t' =>
      framed_readable (readable_strings use_ansi invert)) (List.append_cancel_left h)
    intro y hy x hx
    have hrow := hrows (y/2) (List.mem_range'_1.mpr ⟨Nat.zero_le _, by omega⟩) x hx
    rcases Nat.mod_two_eq_zero_or_one y with h0 | h1
    · rw [show 2*(y/2) = y by omega] at hrow
      exact hrow.1
    · rw [show 2*(y/2)+1 = y by omega] at hrow
      exact hrow.2 hy
  · intro h
    rw [modules_of_map h]

/-- Three rows: the last line has no second row. -/
theorem writeUTF8_readable_three : ∃ text text',
    writeUTF8 [3, 2, 1, 0, 1, 0, 1, 1, 192] 3 2 true = .ok text ∧
      writeUTF8 [1, 0, 1, 0, 1, 0, 1, 1, 0] 3 2 true = .ok text' ∧
      (text = text' ↔ ([3, 2, 1, 0, 1, 0, 1, 1, 192] : List UInt8).map (· &&& 1) =
        [1, 0, 1, 0, 1, 0, 1, 1, 0].map (· &&& 1)) :=
  writeUTF8_readable rfl rfl (by decide) 2 true

end Reading

end CLearning.QrCode
