import CLearning.JsonPrint
import Mathlib.Algebra.Order.BigOperators.Group.List

/-!
# What the printer of cJSON leaves

The buffers are large enough whatever is printed, and whichever allocation is
refused, nothing but the returned text stays allocated.
-/

set_option autoImplicit false

namespace CLearning.Json
open CLearning.Machine CLearning.Decimal CLearning.Ledger

section Arrays

variable {fmt : Bool} {depth : ℕ} {es : List Entry} {b : Buffer}

theorem space_length (fmt : Bool) (c : UInt8) : (space fmt c).length = fmt.toNat := by
  cases fmt with
  | false => rfl
  | true => rfl

theorem tabs_length (fmt : Bool) (k : ℕ) : (tabs fmt k).length = if fmt then k else 0 := by
  cases fmt with
  | false => rfl
  | true => exact List.length_replicate

theorem stores_array (fmt : Bool) (es : List Entry) :
    Stores (storeArray fmt es) (joined fmt (es.map fun e : Entry => contents e.text)) := by
  induction es with
  | nil => exact stores_ok
  | cons e es ih =>
    cases es with
    | nil =>
      have hlast := (stores_strcpy (contents e.text)).bind stores_ok
      exact hlast
    | cons e' es =>
      have hrest := (stores_put 44).bind ((stores_space fmt 32).bind ih.terminated)
      exact (stores_strcpy (contents e.text)).bind hrest

theorem stores_object (fmt : Bool) (depth : ℕ) (es : List Entry) :
    Stores (storeObject fmt depth es)
      (pairs fmt depth (es.map fun e : Entry => (contents e.name, contents e.text))) := by
  induction es with
  | nil => exact stores_ok
  | cons e es ih =>
    have hcomma : Stores (fun b => if es.isEmpty then .ok b else b.put 44)
        (if es.isEmpty then [] else [44]) := by
      cases es with
      | nil => exact stores_ok
      | cons e' es => exact stores_put 44
    have hmember := (stores_tabs fmt depth).bind ((stores_strcpy (contents e.name)).bind
      ((stores_put 58).bind ((stores_space fmt 9).bind ((stores_strcpy (contents e.text)).bind
        (hcomma.bind ((stores_space fmt 10).bind ih.terminated))))))
    have htext : pairs fmt depth ((e :: es).map fun e => (contents e.name, contents e.text)) =
        tabs fmt depth ++ (contents e.name ++ ([58] ++ (space fmt 9 ++ (contents e.text ++
          ((if es.isEmpty then [] else [44]) ++ (space fmt 10 ++
            pairs fmt depth (es.map fun e : Entry => (contents e.name, contents e.text)))))))) := by
      simp [pairs, List.append_assoc]
    rw [htext]
    exact hmember

theorem joined_length (fmt : Bool) (es : List Text) :
    (joined fmt es).length ≤ (es.map fun e => e.length+2+fmt.toNat).sum := by
  induction es with
  | nil => exact Nat.le_refl 0
  | cons e es ih =>
    rw [joined, List.map_cons, List.sum_cons, List.length_append]
    by_cases hes : es.isEmpty
    · rw [if_pos hes, List.length_nil]
      omega
    · rw [if_neg hes, List.length_append, List.length_cons, space_length]
      omega

theorem pairs_length (fmt : Bool) (depth : ℕ) (es : List (Text × Text)) :
    (pairs fmt depth es).length ≤
      (es.map fun e => e.2.length+e.1.length+2+if fmt then 2+depth else 0).sum := by
  induction es with
  | nil => exact Nat.le_refl 0
  | cons e es ih =>
    obtain ⟨name, e⟩ := e
    rw [List.map_cons, List.sum_cons]
    cases fmt with
    | false =>
      by_cases hes : es.isEmpty
      · simp [pairs, tabs, space, hes] at ih ⊢
        omega
      · simp [pairs, tabs, space, hes] at ih ⊢
        omega
    | true =>
      by_cases hes : es.isEmpty
      · simp [pairs, tabs, space, hes] at ih ⊢
        omega
      · simp [pairs, tabs, space, hes] at ih ⊢
        omega

theorem le_joined_length (fmt : Bool) (es : List Text) :
    (es.map fun e => e.length+1+fmt.toNat).sum ≤ (joined fmt es).length+1+fmt.toNat := by
  induction es with
  | nil => exact Nat.zero_le _
  | cons e es ih =>
    rw [joined, List.map_cons, List.sum_cons, List.length_append]
    cases es with
    | nil => exact Nat.le_of_eq (by simp)
    | cons e' es =>
      rw [List.isEmpty_cons, if_neg Bool.false_ne_true, List.length_append, List.length_cons,
        space_length]
      omega

theorem le_pairs_length (fmt : Bool) (depth : ℕ) (es : List (Text × Text)) :
    (es.map fun e => e.2.length+e.1.length+2+if fmt then 2+depth else 0).sum ≤
      (pairs fmt depth es).length+1 := by
  induction es with
  | nil => exact Nat.zero_le _
  | cons e es ih =>
    obtain ⟨name, e⟩ := e
    rw [List.map_cons, List.sum_cons]
    cases es with
    | nil => cases fmt <;> simp [pairs, tabs, space] <;> omega
    | cons e' es =>
      rw [pairs]
      cases fmt <;> simp [tabs, space] at ih ⊢ <;> omega

end Arrays

section Results

variable {h : Heap} {text : Option Text} {s : Text} {f : Buffer → Run Buffer} {size : ℕ}

/-- A result of printing: `text` in a block of its own, or a refused allocation. -/
structure Prints (h : Heap) (text : Option Text) (r : Option Str × Heap) : Prop where
  contents : ∀ s, r.1 = some s → text = some s.2
  full : h.Ample → text.isSome → r.1.isSome
  owes : Owes h r.2 (r.1.map Prod.fst).toList

theorem prints_none {h' : Heap} (hfull : h.Ample → text = none) (ho : Owes h h' []) :
    Prints h text (none, h') where
  contents s hs := absurd hs.symm (Option.some_ne_none s)
  full ha hs := by
    rw [hfull ha] at hs
    exact hs
  owes := ho

theorem prints_some {h' : Heap} {block : ℕ} (ho : Owes h h' [block]) :
    Prints h (some s) (some (block, s), h') where
  contents t ht := by
    rw [← Option.some_inj.mp ht]
  full _ _ := rfl
  owes := ho

theorem prints_strdup (h : Heap) (s : Text) : Prints h (some s) (strdup h s) := by
  rw [strdup]
  rcases malloc_cases h with ⟨block, hm, ho⟩ | ⟨hm, ho, hna⟩
  · rw [hm]
    exact prints_some ho
  · rw [hm]
    exact prints_none (fun ha => absurd ha hna) ho

theorem prints_fill (hf : Stores f s) (hroom : s.length < size) (h : Heap) :
    ∃ r, fill h size f = .ok r ∧ Prints h (some s) r := by
  rw [fill]
  rcases malloc_cases h with ⟨block, hm, ho⟩ | ⟨hm, ho, hna⟩
  · rw [hm]
    refine ⟨_, ?_, prints_some ho⟩
    have hs : (f ⟨size, []⟩ >>= Buffer.terminate) = .ok s := hf.terminate hroom rfl
    obtain ⟨b, hb, ht⟩ := bind_ok_iff.mp hs
    simp only [hb, ht, ok_bind]
  · rw [hm]
    exact ⟨_, rfl, prints_none (fun ha => absurd ha hna) ho⟩

/-- The call has such a result, or a length leaves `int`: then the text is none or has almost
2^30 characters. -/
def Printing (h : Heap) (text : Option Text) (run : Run (Option Str × Heap)) : Prop :=
  (∃ r, run = .ok r ∧ Prints h text r) ∨
    run = .error .intOverflow ∧ ∀ s, text = some s → 2^30 < s.length+3

theorem Printing.of_prints {run : Run (Option Str × Heap)} {r : Option Str × Heap}
    (hrun : run = .ok r) (hp : Prints h text r) : Printing h text run := Or.inl ⟨r, hrun, hp⟩

theorem Printing.returned {run : Run (Option Str × Heap)} {r : Option Str × Heap}
    (hp : Printing h text run) (hrun : run = .ok r) : Prints h text r := by
  obtain ⟨r', hrun', hprints⟩ | ⟨hover, -⟩ := hp
  · rw [hrun', Except.ok.injEq] at hrun
    rwa [← hrun]
  · rw [hover] at hrun
    exact absurd hrun (by simp)

theorem printing_fill (hf : Stores f s) (hroom : s.length < size)
    (hlong : 2^31 ≤ size → 2^30 < s.length+3) (h : Heap) :
    Printing h (some s) (intSize size >>= fun size => fill h size f) := by
  rcases intSize_cases size with hsize | ⟨hsize, hover⟩
  · rw [hsize, ok_bind]
    exact Or.inl (prints_fill hf hroom h)
  · rw [hsize, error_bind]
    exact Or.inr ⟨rfl, fun t ht => Option.some_inj.mp ht ▸ hlong hover⟩

theorem prints_string (h : Heap) (str : Option Text) :
    Printing h (some (str.elim [] quoted)) (printStringPtr h str) := by
  cases str with
  | none => exact .of_prints rfl (prints_strdup h [])
  | some str =>
    have hstore := (stores_put 34).bind ((stores_escaped str).bind (stores_put 34))
    have hlen : escapedLength str+3 = ([34] ++ (escape str ++ [34])).length+1 := by
      rw [escapedLength_eq]
      simp
    exact printing_fill hstore (by omega) (by omega) h

end Results

section Values

variable {D : Type} [Double D]
open Double

/-- How long `sprintf` of a `double` gets. -/
structure SprintfFits (D : Type) [Double D] : Prop where
  whole : ∀ v : D, lt (fabs v) (ofInt (10^60)) → (sprintf .whole v).length < 64
  scientific : ∀ v : D, (sprintf .scientific v).length < 64
  fixed : ∀ v : D, ¬lt (ofInt (10^9)) (fabs v) → (sprintf .fixed v).length < 64

/-- Every `valueint` along a chain and below is an `int`. -/
def Ints : Chain D → Prop
  | .null => True
  | .item d next child => (-2^31 ≤ d.valueint ∧ d.valueint < 2^31) ∧ Ints next ∧ Ints child

variable {h : Heap} {d : Data D} {fmt object : Bool} {depth : ℕ} {es : List Entry}
  {texts : Option (List (Text × Text))}

theorem printInt_length {n : ℤ} (hlo : -2^31 ≤ n) (hhi : n < 2^31) : (printInt n).length < 21 := by
  have hdec : (decimal n.natAbs).length ≤ 10 := decimal_length_le (by decide) (by omega)
  rw [printInt]
  split
  · rw [List.length_cons]
    omega
  · omega

theorem numberFormat_fits (hfit : SprintfFits D) (v : D) :
    (sprintf (numberFormat v) v).length < 64 := by
  rw [numberFormat]
  split
  · next hw =>
    rw [Bool.and_eq_true] at hw
    exact hfit.whole v hw.2
  · split
    · exact hfit.scientific v
    · next hs =>
      refine hfit.fixed v fun hlt => hs ?_
      rw [hlt, Bool.or_true]

theorem prints_number (hfit : SprintfFits D) (hlo : -2^31 ≤ d.valueint) (hhi : d.valueint < 2^31)
    (h : Heap) : ∃ r, printNumber h d = .ok r ∧ Prints h (some (numberText d)) r := by
  rw [printNumber, numberText]
  by_cases hi : isInt d
  · rw [if_pos hi, if_pos hi]
    exact prints_fill (stores_strcpy _) (printInt_length hlo hhi) h
  · rw [if_neg hi, if_neg hi]
    exact prints_fill (stores_strcpy _) (numberFormat_fits hfit _) h

def Complete (object : Bool) (es : List Entry) : Prop :=
  ∀ e ∈ es, (object → e.name.isSome) ∧ e.text.isSome

structure Collects (h : Heap) (object : Bool) (texts : Option (List (Text × Text)))
    (r : List Entry × Heap) : Prop where
  contents : Complete object r.1 → ∃ ts, texts = some ts ∧
    ts.map Prod.snd = r.1.map (fun e => Json.contents e.text) ∧
    (object → ts = r.1.map fun e => (Json.contents e.name, Json.contents e.text))
  full : h.Ample → texts.isSome → Complete object r.1
  owes : Owes h r.2 (r.1.flatMap Entry.blocks)
  within : ∀ ts, texts = some ts → ∀ extra, (r.1.map (Entry.length object extra)).sum ≤
    (ts.map fun t => t.2.length+(if object then t.1.length else 0)+extra).sum

def Collecting (h : Heap) (object : Bool) (texts : Option (List (Text × Text)))
    (run : Run (List Entry × Heap)) : Prop :=
  (∃ r, run = .ok r ∧ Collects h object texts r) ∨
    run = .error .intOverflow ∧ ∀ ts, texts = some ts →
      ∃ t ∈ ts, 2^30 < t.2.length+3 ∨ object ∧ 2^30 < t.1.length+3

theorem childrenText_length (fmt : Bool) {c : Chain D} {depth : ℕ} {ts : List (Text × Text)}
    (ht : childrenText fmt c depth = some ts) : ts.length = numentries c := by
  induction c generalizing depth ts with
  | null =>
    rw [childrenText, Option.some_inj] at ht
    rw [← ht]
    rfl
  | item d next child ihn ihc =>
    rw [childrenText] at ht
    simp only [Option.bind_eq_bind, Option.bind_eq_some_iff] at ht
    obtain ⟨text, -, ts', hts', hts⟩ := ht
    rw [← Option.some_inj.mp hts, List.length_cons, ihn hts', numentries]

theorem all_iff_complete_false :
    (es.all fun e => e.text.isSome) = true ↔ Complete false es := by
  simp [Complete]

theorem all_iff_complete_true :
    (es.all fun e => e.name.isSome && e.text.isSome) = true ↔ Complete true es := by
  simp [Complete]

theorem entries_length (hc : Complete object es) (extra : ℕ) :
    (es.map (Entry.length object extra)).sum = (es.map fun e => (contents e.text).length+
      (if object then (contents e.name).length else 0)+extra).sum := by
  congr 1
  apply List.map_congr_left
  intro e he
  obtain ⟨hname, htext⟩ := hc e he
  obtain ⟨text, ht⟩ := Option.isSome_iff_exists.mp htext
  cases object with
  | false => simp [Entry.length, contents, ht]
  | true =>
    obtain ⟨name, hn⟩ := Option.isSome_iff_exists.mp (hname rfl)
    simp [Entry.length, contents, hn, ht]

theorem prints_composed {h' h'' : Heap} {r : Option Str × Heap} {blocks : List ℕ} {s : Text}
    (ho : Owes h h' blocks) (hs : Prints h' (some s) (r.1, h'')) :
    Prints h (some s) (r.1, h''.free blocks) where
  contents := hs.contents
  full ha _ := hs.full (ha.owes ho) rfl
  owes := (ho.trans hs.owes).free (.refl _)

theorem arrayText_length (fmt : Bool) (es : List Text) :
    es.length+1 ≤ (arrayText fmt es).length ∧ (∀ e ∈ es, e.length ≤ (arrayText fmt es).length) ∧
      5+(es.map fun e => e.length+(2+if fmt then 1 else 0)).sum ≤ 2*(arrayText fmt es).length+5 := by
  have hlow := le_joined_length fmt es
  have hlen : (arrayText fmt es).length = (joined fmt es).length+2 := by simp [arrayText]
  have hcount : (es.map fun e => e.length+(2+if fmt then 1 else 0)).sum =
      (es.map fun e => e.length+1+fmt.toNat).sum+es.length := by
    clear hlow hlen
    induction es with
    | nil => rfl
    | cons e es ih =>
      rw [List.map_cons, List.map_cons, List.sum_cons, List.sum_cons, ih, List.length_cons]
      cases fmt <;> simp <;> omega
  have hmany : es.length*(1+fmt.toNat) ≤ (es.map fun e => e.length+1+fmt.toNat).sum := by
    clear hlow hlen hcount
    induction es with
    | nil => simp
    | cons e es ih =>
      rw [List.map_cons, List.sum_cons, List.length_cons, Nat.succ_mul]
      omega
  refine ⟨?_, fun e he => ?_, ?_⟩
  · cases fmt <;> simp at hmany hlow <;> omega
  · have hmem := List.single_le_sum (fun x _ => Nat.zero_le x) _
      (List.mem_map_of_mem (f := fun e : Text => e.length+1+fmt.toNat) he)
    omega
  · cases fmt <;> simp at hmany hlow hcount ⊢ <;> omega

theorem prints_array {children : ℕ → Heap → Run (List Entry × Heap)} {n : ℕ}
    (hc : ∀ h, Collecting h false texts (children (depth+1) h))
    (hn : ∀ ts, texts = some ts → ts.length = n) (h0 : n = 0 → texts = some []) (h : Heap) :
    Printing h (texts.map fun ts => arrayText fmt (ts.map Prod.snd))
      (printArray children n depth fmt h) := by
  have hover {m : ℕ} (hm : ∀ ts, texts = some ts →
      m ≤ 2*(arrayText fmt (ts.map Prod.snd)).length+5) (hbig : 2^31 ≤ m) :
      ∀ s, (texts.map fun ts => arrayText fmt (ts.map Prod.snd)) = some s → 2^30 < s.length+3 := by
    intro s hs
    obtain ⟨ts, hts, rfl⟩ := Option.map_eq_some_iff.mp hs
    have := hm ts hts
    omega
  rw [printArray]
  by_cases hzero : n = 0
  · rw [if_pos hzero, h0 hzero]
    exact .of_prints rfl (prints_strdup h [91, 93])
  rw [if_neg hzero]
  rcases intSize_cases n with hsize | ⟨hsize, hbig⟩
  swap
  · rw [hsize, error_bind]
    refine Or.inr ⟨rfl, hover (fun ts hts => ?_) hbig⟩
    have hlen := (arrayText_length fmt (ts.map Prod.snd)).1
    rw [List.length_map, hn ts hts] at hlen
    omega
  rw [hsize, ok_bind]
  rcases malloc_cases h with ⟨array, hm, ho⟩ | ⟨hm, ho, hna⟩
  swap
  · rw [hm]
    exact .of_prints rfl (prints_none (fun ha => absurd ha hna) ho)
  rw [hm]
  rcases hc h.malloc.2 with ⟨⟨es, h'⟩, hchildren, hcollects⟩ | ⟨hchildren, hlong⟩
  swap
  · simp only [hchildren, error_bind]
    refine Or.inr ⟨rfl, fun s hs => ?_⟩
    obtain ⟨ts, hts, rfl⟩ := Option.map_eq_some_iff.mp hs
    obtain ⟨t, ht, hlong | ⟨hfalse, -⟩⟩ := hlong ts hts
    · have hlen := (arrayText_length fmt (ts.map Prod.snd)).2.1 t.2 (List.mem_map_of_mem ht)
      omega
    · cases hfalse
  simp only [hchildren, ok_bind]
  rcases intSize_cases (5+(es.map (Entry.length false (2+if fmt then 1 else 0))).sum) with
    hlen | ⟨hlen, hbig⟩
  swap
  · rw [hlen, error_bind]
    refine Or.inr ⟨rfl, hover (fun ts hts => ?_) hbig⟩
    have hwithin := hcollects.within ts hts (2+if fmt then 1 else 0)
    have htext := (arrayText_length fmt (ts.map Prod.snd)).2.2
    simp only [List.map_map, Function.comp_def, Bool.false_eq_true, if_false, Nat.add_zero]
      at hwithin htext
    exact Nat.le_trans (Nat.add_le_add_left hwithin 5) htext
  rw [hlen, ok_bind]
  have howes : Owes h h' (es.flatMap Entry.blocks ++ [array]) :=
    (ho.trans hcollects.owes).perm List.perm_append_comm
  by_cases hall : (es.all fun e => e.text.isSome) = true
  · have hcomplete := all_iff_complete_false.mp hall
    obtain ⟨ts, hts, hmap, -⟩ := hcollects.contents hcomplete
    have hstore := (stores_put 91).bind ((stores_array fmt es).bind (stores_put 93)).terminated
    have hroom : (([91] : Text) ++ (joined fmt (es.map fun e : Entry => contents e.text) ++ [93])).length <
        5+(es.map (Entry.length false (2+if fmt then 1 else 0))).sum := by
      have hlen := joined_length fmt (es.map fun e : Entry => contents e.text)
      have hsum := entries_length hcomplete (2+if fmt then 1 else 0)
      simp only [List.map_map, List.length_append, List.length_singleton, Function.comp_def,
        Bool.false_eq_true, if_false, Nat.add_zero, Nat.add_assoc] at hlen hsum ⊢
      have hfmt : fmt.toNat = if fmt then 1 else 0 := by cases fmt <;> rfl
      rw [hfmt] at hlen
      omega
    obtain ⟨r, hr, hp⟩ := prints_fill hstore hroom h'
    rw [if_pos hall, hr, ok_bind, hts, Option.map_some, hmap]
    exact .of_prints rfl (prints_composed howes hp)
  · rw [if_neg hall, ok_bind]
    refine .of_prints rfl (prints_none (fun ha => ?_) (howes.free (List.append_nil _ ▸ .refl _)))
    cases hts : texts with
    | none => rfl
    | some ts =>
      exact absurd (all_iff_complete_false.mpr (hcollects.full (ha.owes ho) (by rw [hts]; rfl)))
        hall

theorem stores_braces (fmt : Bool) (depth : ℕ) (es : List Entry) :
    Stores (fun b => do
      let b ← b.put 123
      let b ← (if fmt then b.put 10 else .ok b)
      let _ ← b.terminate
      let b ← storeObject fmt (depth+1) es b
      let b ← (if fmt then b.putMany 9 (depth+1-1) else .ok b)
      b.put 125) (([123] : Text) ++ (space fmt 10 ++ (pairs fmt (depth+1)
        (es.map fun e : Entry => (contents e.name, contents e.text)) ++ (tabs fmt depth ++ [125])))) :=
  (stores_put 123).bind ((stores_space fmt 10).bind
    ((stores_object fmt (depth+1) es).bind ((stores_tabs fmt depth).bind (stores_put 125))).terminated)

theorem braces_length (fmt : Bool) (depth : ℕ) (hc : Complete true es) :
    (([123] : Text) ++ (space fmt 10 ++ (pairs fmt (depth+1)
      (es.map fun e : Entry => (contents e.name, contents e.text)) ++ (tabs fmt depth ++ [125])))).length <
      7+(if fmt then depth+1 else 0)+
        (es.map (Entry.length true (2+if fmt then 2+(depth+1) else 0))).sum := by
  have hlen := pairs_length fmt (depth+1) (es.map fun e : Entry => (contents e.name, contents e.text))
  have hsum := entries_length hc (2+if fmt then 2+(depth+1) else 0)
  rw [List.map_map] at hlen
  simp only [List.length_append, List.length_singleton, space_length, tabs_length,
    Function.comp_def, if_true, Nat.add_assoc] at hlen hsum ⊢
  cases fmt with
  | false =>
    simp only [Bool.toNat_false, Bool.false_eq_true, if_false] at hlen hsum ⊢
    omega
  | true =>
    simp only [Bool.toNat_true, if_true] at hlen hsum ⊢
    omega

theorem objectText_length (fmt : Bool) (depth : ℕ) {es : List (Text × Text)} (hne : es ≠ []) :
    es.length+1 ≤ (objectText fmt depth es).length ∧
      (∀ e ∈ es, e.1.length ≤ (objectText fmt depth es).length ∧
        e.2.length ≤ (objectText fmt depth es).length) ∧
      7+(if fmt then depth+1 else 0)+(es.map fun e => e.2.length+e.1.length+
        (2+if fmt then 2+(depth+1) else 0)).sum ≤ (objectText fmt depth es).length+6 := by
  have hlow := le_pairs_length fmt (depth+1) es
  simp only [Nat.add_assoc] at hlow ⊢
  have hlen : (objectText fmt depth es).length =
      2+fmt.toNat+(pairs fmt (depth+1) es).length+(if fmt then depth else 0) := by
    rw [objectText, List.isEmpty_eq_false_iff.mpr hne]
    simp only [Bool.false_eq_true, if_false, List.cons_append, List.length_cons,
      List.length_append, space_length, tabs_length, List.length_nil]
    omega
  have hmany : es.length*2 ≤
      (es.map fun e => e.2.length+(e.1.length+(2+if fmt then 2+(depth+1) else 0))).sum := by
    clear hlow hlen hne
    induction es with
    | nil => simp
    | cons e es ih =>
      rw [List.map_cons, List.sum_cons, List.length_cons, Nat.succ_mul]
      omega
  have hpos := List.length_pos_iff.mpr hne
  refine ⟨by omega, fun e he => ?_, ?_⟩
  · have hmem := List.single_le_sum (fun x _ => Nat.zero_le x) _ (List.mem_map_of_mem
      (f := fun e : Text × Text => e.2.length+(e.1.length+(2+if fmt then 2+(depth+1) else 0))) he)
    omega
  · cases fmt with
    | false =>
      simp only [Bool.toNat_false, Bool.false_eq_true, if_false] at hlen hlow ⊢
      omega
    | true =>
      simp only [Bool.toNat_true, if_true] at hlen hlow ⊢
      omega

theorem prints_empty (fmt : Bool) (depth : ℕ) (h : Heap) :
    Printing h (some (objectText fmt depth [])) (do
      let size ← intSize (if fmt then depth+4 else 3)
      fill h size fun b => do
        let b ← b.put 123
        let b ← (if fmt then b.put 10 else .ok b)
        let b ← (if fmt then b.putMany 9 (depth-1) else .ok b)
        b.put 125) := by
  have hstore := (stores_put 123).bind ((stores_space fmt 10).bind
    ((stores_tabs fmt (depth-1)).bind (stores_put 125)))
  have hlen : (([123] : Text) ++ (space fmt 10 ++ (tabs fmt (depth-1) ++ [125]))).length =
      if fmt then depth-1+3 else 2 := by
    simp only [List.length_append, List.length_singleton, space_length, tabs_length]
    cases fmt with
    | false => rfl
    | true =>
      simp only [Bool.toNat_true, if_true]
      omega
  have htext : objectText fmt depth [] =
      ([123] : Text) ++ (space fmt 10 ++ (tabs fmt (depth-1) ++ [125])) := by
    simp [objectText]
  rw [htext]
  refine printing_fill hstore ?_ ?_ h
  · rw [hlen]
    split <;> omega
  · rw [hlen]
    split <;> omega

theorem prints_object {children : ℕ → Heap → Run (List Entry × Heap)} {n : ℕ}
    (hc : ∀ h, Collecting h true texts (children (depth+1) h))
    (hn : ∀ ts, texts = some ts → ts.length = n) (h0 : n = 0 → texts = some []) (h : Heap) :
    Printing h (texts.map (objectText fmt depth)) (printObject children n depth fmt h) := by
  rw [printObject]
  by_cases hzero : n = 0
  · rw [if_pos hzero, h0 hzero]
    exact prints_empty fmt depth h
  have hover {m : ℕ} (hm : ∀ ts, texts = some ts → ts ≠ [] →
      m ≤ (objectText fmt depth ts).length+6) (hbig : 2^31 ≤ m) :
      ∀ s, texts.map (objectText fmt depth) = some s → 2^30 < s.length+3 := by
    intro s hs
    obtain ⟨ts, hts, rfl⟩ := Option.map_eq_some_iff.mp hs
    have hne : ts ≠ [] := List.length_pos_iff.mp (by have := hn ts hts; omega)
    have := hm ts hts hne
    omega
  rw [if_neg hzero]
  rcases intSize_cases n with hsize | ⟨hsize, hbig⟩
  swap
  · rw [hsize, error_bind]
    refine Or.inr ⟨rfl, hover (fun ts hts hne => ?_) hbig⟩
    have hlen := (objectText_length fmt depth hne).1
    rw [hn ts hts] at hlen
    omega
  rw [hsize, ok_bind]
  rcases malloc_cases h with ⟨entries, hm, ho⟩ | ⟨hm, ho, hna⟩
  swap
  · rw [hm]
    exact .of_prints rfl (prints_none (fun ha => absurd ha hna) ho)
  rw [hm]
  dsimp only
  rcases malloc_cases h.malloc.2 with ⟨names, hm', ho'⟩ | ⟨hm', ho', hna⟩
  swap
  · rw [hm']
    refine .of_prints rfl (prints_none (fun ha => absurd (ha.owes ho) hna) ?_)
    exact (ho.trans ho').free (.refl _)
  rw [hm']
  rcases hc h.malloc.2.malloc.2 with ⟨⟨es, h'⟩, hchildren, hcollects⟩ | ⟨hchildren, hlong⟩
  swap
  · simp only [hchildren, error_bind]
    refine Or.inr ⟨rfl, fun s hs => ?_⟩
    obtain ⟨ts, hts, rfl⟩ := Option.map_eq_some_iff.mp hs
    obtain ⟨t, ht, hlong⟩ := hlong ts hts
    obtain ⟨hname, htext⟩ := (objectText_length fmt depth (List.ne_nil_of_mem ht)).2.1 t ht
    rcases hlong with hlong | ⟨-, hlong⟩
    · omega
    · omega
  simp only [hchildren, ok_bind]
  rcases intSize_cases (7+(if fmt then depth+1 else 0)+
    (es.map (Entry.length true (2+if fmt then 2+(depth+1) else 0))).sum) with hlen | ⟨hlen, hbig⟩
  swap
  · rw [hlen, error_bind]
    refine Or.inr ⟨rfl, hover (fun ts hts hne => ?_) hbig⟩
    have hwithin := hcollects.within ts hts (2+if fmt then 2+(depth+1) else 0)
    have htext := (objectText_length fmt depth hne).2.2
    simp only [if_true] at hwithin
    omega
  rw [hlen, ok_bind]
  have howes : Owes h h' (es.flatMap Entry.blocks ++ [names, entries]) := by
    refine ((ho.trans ho').trans hcollects.owes).perm ?_
    exact List.perm_append_comm.trans ((List.Perm.swap names entries []).append_left _)
  by_cases hall : (es.all fun e => e.name.isSome && e.text.isSome) = true
  · have hcomplete := all_iff_complete_true.mp hall
    obtain ⟨ts, hts, -, hnames⟩ := hcollects.contents hcomplete
    obtain ⟨r, hr, hp⟩ := prints_fill (stores_braces fmt depth es)
      (braces_length fmt depth hcomplete) h'
    have htext : objectText fmt depth ts = ([123] : Text) ++ (space fmt 10 ++ (pairs fmt (depth+1)
        (es.map fun e : Entry => (contents e.name, contents e.text)) ++ (tabs fmt depth ++ [125]))) := by
      have hne : ts.isEmpty = false := by
        have hlen := hn ts hts
        cases ts with
        | nil => exact absurd hlen.symm hzero
        | cons t ts => rfl
      rw [objectText, hne, hnames rfl]
      simp
    rw [if_pos hall, hr, ok_bind, hts, Option.map_some, htext]
    exact .of_prints rfl (prints_composed howes hp)
  · rw [if_neg hall, ok_bind]
    refine .of_prints rfl (prints_none (fun ha => ?_) (howes.free (List.append_nil _ ▸ .refl _)))
    cases hts : texts with
    | none => rfl
    | some ts =>
      have hcomplete := hcollects.full (ha.owes (ho.trans ho')) (by rw [hts]; rfl)
      exact absurd (all_iff_complete_true.mpr hcomplete) hall

def ChildrenPrint (fmt : Bool) (c : Chain D) : Prop :=
  ∀ (object : Bool) (depth : ℕ) (h : Heap),
    Collecting h object (childrenText fmt c depth) (printChildren fmt c object depth h)

theorem prints_item (hfit : SprintfFits D) (hlo : -2^31 ≤ d.valueint) (hhi : d.valueint < 2^31)
    {child : Chain D} (hc : ChildrenPrint fmt child) (depth : ℕ) (h : Heap) :
    Printing h (itemText fmt (childrenText fmt child (depth+1)) d depth)
      (printItem (printChildren fmt child) (numentries child) d depth fmt h) := by
  have h0 : numentries child = 0 → childrenText fmt child (depth+1) = some [] := by
    intro hzero
    cases child with
    | null => rfl
    | item d next child => exact absurd hzero (Nat.succ_ne_zero _)
  have hn : ∀ ts, childrenText fmt child (depth+1) = some ts → ts.length = numentries child :=
    fun _ hts => childrenText_length fmt hts
  rw [printItem, itemText]
  split
  · exact .of_prints rfl (prints_strdup h _)
  split
  · exact .of_prints rfl (prints_strdup h _)
  split
  · exact .of_prints rfl (prints_strdup h _)
  split
  · exact Or.inl (prints_number hfit hlo hhi h)
  split
  · have hs := prints_string h (d.valuestring.map Prod.snd)
    rw [Option.elim_map] at hs
    exact hs
  split
  · exact prints_array (hc false (depth+1)) hn h0 h
  split
  · exact prints_object (hc true (depth+1)) hn h0 h
  · exact .of_prints rfl (prints_none (fun _ => rfl) (.refl h))

theorem prints_name (object : Bool) (h : Heap) (str : Option Text) :
    (∃ name h', (if object then printStringPtr h str else .ok (none, h)) = .ok (name, h') ∧
      (object → Prints h (some (str.elim [] quoted)) (name, h')) ∧
        Owes h h' (name.map Prod.fst).toList) ∨
    (if object then printStringPtr h str else .ok (none, h)) = .error .intOverflow ∧
      object ∧ 2^30 < (str.elim [] quoted).length+3 := by
  cases object with
  | false => exact Or.inl ⟨none, h, rfl, fun hfalse => absurd hfalse Bool.false_ne_true, .refl h⟩
  | true =>
    rcases prints_string h str with ⟨r, hr, hp⟩ | ⟨hrun, hlong⟩
    · exact Or.inl ⟨r.1, r.2, hr, fun _ => hp, hp.owes⟩
    · exact Or.inr ⟨hrun, rfl, hlong _ rfl⟩

theorem childrenText_item {next child : Chain D} {ts : List (Text × Text)}
    (hts : childrenText fmt (.item d next child) depth = some ts) :
    ∃ t es, itemText fmt (childrenText fmt child (depth+1)) d depth = some t ∧
      childrenText fmt next depth = some es ∧
        ts = (d.string.elim [] fun s => quoted s.2, t) :: es := by
  rw [childrenText] at hts
  simp only [Option.bind_eq_bind, Option.bind_eq_some_iff] at hts
  obtain ⟨t, ht, es, hes, hts⟩ := hts
  exact ⟨t, es, ht, hes, (Option.some_inj.mp hts).symm⟩

theorem entry_length_le {h h1 h2 : Heap} {name text : Option Str} {str t : Text}
    (hname : object → Prints h (some str) (name, h1)) (htext : Prints h1 (some t) (text, h2))
    (extra : ℕ) : Entry.length object extra ⟨name, text⟩ ≤
      t.length+(if object then str.length else 0)+extra := by
  cases text with
  | none => cases object <;> cases name <;> exact Nat.zero_le _
  | some s =>
    rw [Option.some_inj.mp (htext.contents s rfl)]
    cases object with
    | false => exact Nat.le_refl _
    | true =>
      cases name with
      | none => exact Nat.zero_le _
      | some n =>
        rw [Option.some_inj.mp ((hname rfl).contents n rfl)]
        exact Nat.le_refl _

theorem prints_children (hfit : SprintfFits D) (fmt : Bool) {c : Chain D} (hi : Ints c) :
    ChildrenPrint fmt c := by
  induction c with
  | null =>
    intro object depth h
    refine Or.inl ⟨_, rfl, ?_, ?_, .refl h, fun _ _ _ => Nat.zero_le _⟩
    · exact fun _ => ⟨[], rfl, rfl, fun _ => rfl⟩
    · exact fun _ _ e he => absurd he List.not_mem_nil
  | item d next child ihn ihc =>
    obtain ⟨⟨hlo, hhi⟩, hin, hic⟩ := hi
    intro object depth h
    rcases prints_name object h (d.string.map Prod.snd) with
      ⟨name, h1, hname, hnp, hn1⟩ | ⟨hname, hobject, hlong⟩
    swap
    · rw [printChildren, hname, error_bind]
      refine Or.inr ⟨rfl, fun ts hts => ?_⟩
      obtain ⟨t, es, -, -, rfl⟩ := childrenText_item hts
      rw [Option.elim_map] at hlong
      exact ⟨_, List.mem_cons_self, Or.inr ⟨hobject, hlong⟩⟩
    rcases prints_item hfit hlo hhi (ihc hic) depth h1 with ⟨⟨text, h2⟩, htext, htp⟩ | ⟨htext, hlong⟩
    swap
    · rw [printChildren, hname, ok_bind]
      simp only [htext, error_bind]
      refine Or.inr ⟨rfl, fun ts hts => ?_⟩
      obtain ⟨t, es, ht, -, rfl⟩ := childrenText_item hts
      exact ⟨_, List.mem_cons_self, Or.inl (hlong t ht)⟩
    have howes : Owes h h2 (Entry.mk name text).blocks := hn1.trans htp.owes
    rw [Option.elim_map] at hnp
    rw [printChildren, hname, ok_bind]
    simp only [htext, ok_bind]
    by_cases hstop : (!object && text.isNone) = true
    · -- the loop of an array ends at the child that failed
      rw [if_pos hstop]
      rw [Bool.and_eq_true, Option.isNone_iff_eq_none] at hstop
      obtain ⟨-, rfl⟩ := hstop
      refine Or.inl ⟨_, rfl, fun hc => ?_, fun ha hs => ?_, by simpa using howes,
        fun ts hts extra => ?_⟩
      · exact absurd (hc _ List.mem_cons_self).2 Bool.false_ne_true
      · obtain ⟨ts, hts⟩ := Option.isSome_iff_exists.mp hs
        obtain ⟨t, es, ht, -, -⟩ := childrenText_item hts
        exact absurd (htp.full (ha.owes hn1) (by rw [ht]; rfl)) Bool.false_ne_true
      · have hnone : Entry.length object extra ⟨name, none⟩ = 0 := by
          cases object <;> cases name <;> rfl
        rw [List.map_singleton, List.sum_singleton, hnone]
        exact Nat.zero_le _
    · rw [if_neg hstop]
      rcases ihn hin object depth h2 with ⟨⟨es, h3⟩, hes, hcollects⟩ | ⟨hes, hlong⟩
      swap
      · simp only [hes, error_bind]
        refine Or.inr ⟨rfl, fun ts hts => ?_⟩
        obtain ⟨t, es, -, hes, rfl⟩ := childrenText_item hts
        obtain ⟨u, hu, hlong⟩ := hlong es hes
        exact ⟨u, List.mem_cons_of_mem _ hu, hlong⟩
      simp only [hes, ok_bind]
      refine Or.inl ⟨_, rfl, fun hc => ?_, fun ha hs => ?_, ?_, fun ts hts extra => ?_⟩
      · obtain ⟨ts, hts, hmap, hnames⟩ :=
          hcollects.contents fun e he => hc e (List.mem_cons_of_mem _ he)
        obtain ⟨hcn, hct⟩ := hc _ List.mem_cons_self
        obtain ⟨t, ht⟩ := Option.isSome_iff_exists.mp hct
        simp only at ht
        have hitem := htp.contents t ht
        refine ⟨(d.string.elim [] fun s => quoted s.2, t.2) :: ts, ?_, ?_, fun ho => ?_⟩
        · rw [childrenText, hitem, hts]
          rfl
        · rw [List.map_cons, List.map_cons, hmap, ht]
          rfl
        · obtain ⟨n, hnn⟩ := Option.isSome_iff_exists.mp (hcn ho)
          simp only at hnn
          have hn := Option.some_inj.mp ((hnp ho).contents n hnn)
          rw [List.map_cons, ← hnames ho, ht, hnn]
          exact congrArg (fun x => (x, t.2) :: ts) hn
      · obtain ⟨ts, hts⟩ := Option.isSome_iff_exists.mp hs
        obtain ⟨t, es', ht, hes', -⟩ := childrenText_item hts
        intro e he
        rcases List.mem_cons.mp he with rfl | he
        · exact ⟨fun ho => (hnp ho).full ha rfl, htp.full (ha.owes hn1) (by rw [ht]; rfl)⟩
        · exact hcollects.full (ha.owes howes) (by rw [hes']; rfl) e he
      · rw [List.flatMap_cons]
        exact howes.trans hcollects.owes
      · obtain ⟨t, es', ht, hes', rfl⟩ := childrenText_item hts
        rw [ht] at htp
        have hfirst := entry_length_le hnp htp extra
        have hrest := hcollects.within es' hes' extra
        rw [List.map_cons, List.map_cons, List.sum_cons, List.sum_cons]
        exact Nat.add_le_add hfirst hrest

end Values

section Laws

variable {D : Type} [Double D]

/-- Whatever is printed and whichever allocations are refused, no store leaves its buffer; the
result is the item's text, or null; nothing else stays allocated. A length leaves `int` only
for an item whose text has almost 2^30 characters, or that has no text. -/
theorem print_safe (hfit : SprintfFits D) (fmt : Bool) (depth : ℕ) (item : Chain D)
    (hi : Ints item) (h : Heap) :
    (∃ r, printValue item depth fmt h = .ok r ∧ Prints h (valueText fmt item depth) r) ∨
      printValue item depth fmt h = .error .intOverflow ∧
        ∀ s, valueText fmt item depth = some s → 2^30 < s.length+3 := by
  cases item with
  | null => exact Printing.of_prints rfl (prints_none (fun _ => rfl) (.refl h))
  | item d next child =>
    exact prints_item hfit hi.1.1 hi.1.2 (prints_children hfit fmt hi.2.2) depth h

end Laws

section Sample

instance integers : Double ℤ where
  ofInt := id
  micro := 1
  epsilon := 0
  add := (· + ·)
  sub := (· - ·)
  mul := (· * ·)
  pow a b := a^b.toNat
  fabs a := |a|
  floor := id
  lt a b := a < b
  le a b := a ≤ b
  toInt := id
  sprintf
    | .whole, v => printInt v
    | .scientific, v => (printInt v).take 20
    | .fixed, v => printInt v ++ [46, 48, 48, 48, 48, 48, 48]

theorem printInt_length_le {k : ℕ} (hk : 0 < k) {n : ℤ} (h : n.natAbs < 10^k) :
    (printInt n).length ≤ k+1 := by
  have hdec := decimal_length_le hk h
  rw [printInt]
  split
  · rw [List.length_cons]
    omega
  · omega

theorem integers_fit : SprintfFits ℤ where
  whole v h := by
    have hv : |v| < 10^60 := of_decide_eq_true h
    have hle := printInt_length_le (k := 60) (by decide) (n := v)
      (by rw [Int.abs_eq_natAbs] at hv; exact_mod_cast hv)
    exact Nat.lt_of_le_of_lt hle (by decide)
  scientific v := Nat.lt_of_le_of_lt (List.length_take_le 20 _) (by decide)
  fixed v h := by
    have hv : ¬(10^9 : ℤ) < |v| := fun hlt => h (decide_eq_true hlt)
    have hle := printInt_length_le (k := 10) (by decide) (n := v)
      (by rw [Int.abs_eq_natAbs] at hv; omega)
    change (printInt v ++ _).length < 64
    rw [List.length_append]
    simp only [List.length_cons, List.length_nil]
    omega

def sample : Chain ℤ :=
  .item ⟨0, cJSON_Object, none, 0, 0, none⟩ .null
    (.item ⟨1, cJSON_Array, none, 0, 0, some (2, [97])⟩ .null
      (.item ⟨3, cJSON_Number, none, -7, -7, none⟩
        (.item ⟨4, cJSON_String, some (5, [10]), 0, 0, none⟩ .null .null) .null))

theorem sample_ints : Ints sample :=
  ⟨by decide, trivial, by decide, trivial, by decide, ⟨by decide, trivial, trivial⟩, trivial⟩

theorem print_safe_sample : ∃ r, printValue sample 0 true ⟨fun n => n ≠ 6, 0, []⟩ = .ok r ∧
    Prints ⟨fun n => n ≠ 6, 0, []⟩ (valueText true sample 0) r :=
  (print_safe integers_fit true 0 sample sample_ints _).resolve_right fun hlong =>
    absurd (hlong.2 _ rfl) (by decide)

end Sample

end CLearning.Json
