import CoverageLedger.Proofs.Json.Scalars

/-!
# Documents in JSON

The reader makes one value of the text of every value that is `Legible`: its whole numbers lie in
the 64-bit ranges, something is read of its other numbers, and it does not nest too deep.  When its
other numbers read back it is `Readable`, and the reader undoes the writer.  This also holds of
readers that ask only for a `Form`, as long as the form asks for all that the value has.
-/

namespace CoverageLedger.Json

open Text

/-! ## 1. Values that can be read back -/

mutual

/-- Whole numbers are in range, other numbers read back, and the nesting stays inside a depth. -/
def Readable : Nat → Json → Prop
  | _, .int i => -0x8000000000000000 ≤ i ∧ i < 0x10000000000000000
  | _, .float x => parse? (floatChars x) = some (.float x)
  | depth, .array items => 1 < depth ∧ ReadableItems (depth - 1) items
  | depth, .object fields => 1 < depth ∧ ReadableFields (depth - 1) fields
  | _, _ => True

def ReadableItems : Nat → List Json → Prop
  | _, [] => True
  | depth, j :: rest => Readable depth j ∧ ReadableItems depth rest

def ReadableFields : Nat → List (String × Json) → Prop
  | _, [] => True
  | depth, (_, j) :: rest => Readable depth j ∧ ReadableFields depth rest

end

/-- Whether a certain number that is not whole was read. -/
def decidableReadsFloat (x : Binary64) : (read : Option Json) → Decidable (read = some (.float x))
  | some (.float y) => decidable_of_iff (y = x) (by simp)
  | none | some .null | some (.bool _) | some (.int _) | some (.string _) | some (.array _)
  | some (.object _) => isFalse fun h => by cases h

mutual

def decidableReadable : (depth : Nat) → (j : Json) → Decidable (Readable depth j)
  | _, .null | _, .bool _ | _, .string _ => isTrue trivial
  | _, .int i => inferInstanceAs (Decidable (-0x8000000000000000 ≤ i ∧ i < 0x10000000000000000))
  | _, .float x => decidableReadsFloat x _
  | depth, .array items =>
    @instDecidableAnd _ _ (Nat.decLt 1 depth) (decidableReadableItems (depth - 1) items)
  | depth, .object fields =>
    @instDecidableAnd _ _ (Nat.decLt 1 depth) (decidableReadableFields (depth - 1) fields)

def decidableReadableItems : (depth : Nat) → (items : List Json) →
    Decidable (ReadableItems depth items)
  | _, [] => isTrue trivial
  | depth, j :: rest =>
    @instDecidableAnd _ _ (decidableReadable depth j) (decidableReadableItems depth rest)

def decidableReadableFields : (depth : Nat) → (fields : List (String × Json)) →
    Decidable (ReadableFields depth fields)
  | _, [] => isTrue trivial
  | depth, (_, j) :: rest =>
    @instDecidableAnd _ _ (decidableReadable depth j) (decidableReadableFields depth rest)

end

instance (depth : Nat) (j : Json) : Decidable (j.Readable depth) := decidableReadable depth j

mutual

/-- Whole numbers are in range, something is read of other numbers, and the nesting stays inside a
depth. -/
def Legible : Nat → Json → Prop
  | _, .int i => -0x8000000000000000 ≤ i ∧ i < 0x10000000000000000
  | _, .float x => (parse? (floatChars x)).isSome
  | depth, .array items => 1 < depth ∧ LegibleItems (depth - 1) items
  | depth, .object fields => 1 < depth ∧ LegibleFields (depth - 1) fields
  | _, _ => True

def LegibleItems : Nat → List Json → Prop
  | _, [] => True
  | depth, j :: rest => Legible depth j ∧ LegibleItems depth rest

def LegibleFields : Nat → List (String × Json) → Prop
  | _, [] => True
  | depth, (_, j) :: rest => Legible depth j ∧ LegibleFields depth rest

end

mutual

/-- What is read where a value was written: a number that is not whole may become another one. -/
def reread : Json → Json
  | .float x => (parse? (floatChars x)).getD .null
  | .array items => .array (rereadItems items)
  | .object fields => .object (rereadFields fields)
  | j => j

def rereadItems : List Json → List Json
  | [] => []
  | j :: rest => j.reread :: rereadItems rest

def rereadFields : List (String × Json) → List (String × Json)
  | [] => []
  | (name, j) :: rest => (name, j.reread) :: rereadFields rest

end

mutual

theorem Readable.legible : ∀ {j : Json} {depth : Nat}, j.Readable depth →
    j.Legible depth ∧ j.reread = j
  | .null, _, _ | .bool _, _, _ | .string _, _, _ => ⟨trivial, rfl⟩
  | .int _, _, h => ⟨h, rfl⟩
  | .float x, _, h => by
    have hread : parse? (floatChars x) = some (.float x) := h
    refine ⟨?_, ?_⟩
    · rw [Legible, hread]
      rfl
    · rw [reread, hread]
      rfl
  | .array items, _, ⟨hdepth, h⟩ =>
    have hitems := legible_items items h
    ⟨⟨hdepth, hitems.1⟩, congrArg Json.array hitems.2⟩
  | .object fields, _, ⟨hdepth, h⟩ =>
    have hfields := legible_fields fields h
    ⟨⟨hdepth, hfields.1⟩, congrArg Json.object hfields.2⟩

theorem legible_items : ∀ (items : List Json) {depth : Nat}, ReadableItems depth items →
    LegibleItems depth items ∧ rereadItems items = items
  | [], _, _ => ⟨trivial, rfl⟩
  | _ :: rest, _, ⟨hj, hrest⟩ => by
    obtain ⟨hlegible, hsame⟩ := hj.legible
    obtain ⟨hmore, hothers⟩ := legible_items rest hrest
    exact ⟨⟨hlegible, hmore⟩, by rw [rereadItems, hsame, hothers]⟩

theorem legible_fields : ∀ (fields : List (String × Json)) {depth : Nat},
    ReadableFields depth fields → LegibleFields depth fields ∧ rereadFields fields = fields
  | [], _, _ => ⟨trivial, rfl⟩
  | (_, _) :: rest, _, ⟨hj, hrest⟩ => by
    obtain ⟨hlegible, hsame⟩ := hj.legible
    obtain ⟨hmore, hothers⟩ := legible_fields rest hrest
    exact ⟨⟨hlegible, hmore⟩, by rw [rereadFields, hsame, hothers]⟩

end

theorem rereadItems_eq_map (items : List Json) : rereadItems items = items.map reread := by
  induction items with
  | nil => rfl
  | cons j rest ih => rw [rereadItems, ih, List.map_cons]

theorem legibleItems_iff {depth : Nat} {items : List Json} :
    LegibleItems depth items ↔ ∀ j ∈ items, j.Legible depth := by
  induction items with
  | nil => exact iff_of_true trivial fun _ hj => absurd hj List.not_mem_nil
  | cons j rest ih => rw [List.forall_mem_cons, ← ih, LegibleItems]

theorem readableFields_iff {depth : Nat} {fields : List (String × Json)} :
    ReadableFields depth fields ↔ ∀ f ∈ fields, f.2.Readable depth := by
  induction fields with
  | nil => exact iff_of_true trivial nofun
  | cons f rest ih => rw [List.forall_mem_cons, ← ih, ReadableFields]

/-- Names that a form reads as they are written. -/
def Form.ReadsName : Form → String → Prop
  | .numbered _, name => ∀ c ∈ name.toList, c.isDigit = true
  | _, _ => True

mutual

/-- The form asks for everything in a value. -/
def Form.Covers : Form → Json → Prop
  | form, .array items => CoversItems form.items items
  | form, .object fields => CoversFields form fields
  | _, _ => True

def Form.CoversItems : List Form → List Json → Prop
  | _, [] => True
  | forms, j :: rest => (forms.headD .whole).Covers j ∧ CoversItems forms.tail rest

def Form.CoversFields : Form → List (String × Json) → Prop
  | _, [] => True
  | form, (name, j) :: rest =>
    (form.ReadsName name ∧ ∃ part, form.field? name = some part ∧ part.Covers j) ∧
      CoversFields form rest

end

mutual

theorem Form.covers_whole : ∀ j : Json, Form.whole.Covers j
  | .null | .bool _ | .int _ | .float _ | .string _ => trivial
  | .array items => covers_wholeItems items
  | .object fields => covers_wholeFields fields

theorem Form.covers_wholeItems : ∀ items : List Json, Form.CoversItems [] items
  | [] => trivial
  | j :: rest => ⟨covers_whole j, covers_wholeItems rest⟩

theorem Form.covers_wholeFields : ∀ fields : List (String × Json), Form.whole.CoversFields fields
  | [] => trivial
  | (_, j) :: rest => ⟨⟨trivial, .whole, rfl, covers_whole j⟩, covers_wholeFields rest⟩

end

/-! ## 2. Scalars inside a document -/

variable {c : Char} {cs rest : List Char} {form : Form} {depth fuel : Nat}

theorem value?_of_isDigit (hc : c.isDigit = true) :
    value? (fuel + 1) form depth (c :: cs) = unsignedNumber? false (c :: cs) := by
  rw [value?, skipBlanks_of_not_blank (not_isBlank_of_isDigit hc)]
  split
  all_goals first
    | rename_i heq
      exact absurd ((List.cons.inj heq).1 ▸ hc) (by decide)
    | rfl

theorem value?_minus :
    value? (fuel + 1) form depth ('-' :: cs) = unsignedNumber? true cs := by
  rw [value?, skipBlanks_of_not_blank (by decide)]
  rfl

theorem value?_quoted (s : String) :
    value? (fuel + 1) form depth (quoted s ++ rest) = some (.string s, rest) := by
  rw [quoted, List.cons_append, List.append_assoc, List.singleton_append, value?,
    skipBlanks_of_not_blank (by decide)]
  show (stringRest? [] _).map _ = _
  rw [stringRest?_quoted]
  rfl

/-- Without a sign the reader chooses by the first digit. -/
theorem value?_intChars (i : Int) :
    value? (fuel + 1) form depth (Decimal.intChars [] i ++ rest) =
      unsignedNumber? (decide (i < 0)) (Nat.toDigits 10 i.natAbs ++ rest) := by
  rw [Decimal.intChars]
  by_cases hneg : i < 0
  · rw [if_pos hneg, decide_eq_true hneg, List.singleton_append, List.cons_append, value?_minus]
    rfl
  · obtain ⟨c, cs, hcs⟩ :=
      List.exists_cons_of_ne_nil (Nat.toDigits_ne_nil (n := i.natAbs) (b := 10))
    have hc : c.isDigit = true := isDigit_of_mem_toDigits (by rw [hcs]; exact List.mem_cons_self)
    rw [if_neg hneg, decide_eq_false hneg, List.nil_append, Decimal.digitChars, hcs,
      List.cons_append, value?_of_isDigit hc]

theorem value?_int {i : Int} (h : -0x8000000000000000 ≤ i ∧ i < 0x10000000000000000)
    (hrest : Ended rest) :
    value? (fuel + 1) form depth (Decimal.intChars [] i ++ rest) = some (.int i, rest) := by
  have hfits : i.natAbs < word64 := by
    unfold word64
    omega
  have hvalue : wholeNumber (decide (i < 0)) i.natAbs = .int i := by
    by_cases hneg : i < 0
    · rw [decide_eq_true hneg, wholeNumber, if_pos rfl, if_neg (by omega)]
      congr 1
      omega
    · rw [decide_eq_false hneg, wholeNumber, if_neg (by decide)]
      congr 1
      omega
  rw [value?_intChars, unsignedNumber?_append hrest, unsignedNumber?_toDigits _ hfits, hvalue]
  rfl

/-- A text that begins like a number is read by the reader of numbers. -/
theorem exists_value?_floatChars {x : Binary64} (hx : x.isFinite = true) :
    ∃ negative number, (∀ c ∈ number, IsNumberChar c) ∧
      ∀ rest (fuel : Nat) (form : Form) (depth : Nat),
        value? (fuel + 1) form depth (floatChars x ++ rest) =
          unsignedNumber? negative (number ++ rest) := by
  obtain ⟨c, cs, hcs, hc⟩ := exists_render_eq_cons (Decimal.shortest x)
  have hnumber : ∀ d ∈ c :: cs, IsNumberChar d := fun d hd => isNumberChar_render (by rwa [hcs])
  rw [floatChars, if_pos hx, hcs]
  cases x.negative with
  | true =>
    refine ⟨true, c :: cs, hnumber, fun rest fuel form depth => ?_⟩
    exact value?_minus
  | false =>
    refine ⟨false, c :: cs, hnumber, fun rest fuel form depth => ?_⟩
    exact value?_of_isDigit hc

theorem parse?_eq_some {j : Json} (h : parse? cs = some j) :
    ∃ left, value? (2 * cs.length + 2) .whole depthLimit cs = some (j, left) ∧
      skipBlanks left = [] := by
  rw [parse?, parseAs?] at h
  split at h
  · rename_i k left hvalue
    split at h
    · rename_i hleft
      cases h
      exact ⟨left, hvalue, List.isEmpty_iff.1 hleft⟩
    · cases h
  · cases h

/-- A number is read inside a document as it is by itself. -/
theorem value?_float {x : Binary64} {found : Json} (h : parse? (floatChars x) = some found)
    (hrest : Ended rest) :
    value? (fuel + 1) form depth (floatChars x ++ rest) = some (found, rest) := by
  cases hx : x.isFinite with
  | false =>
    rw [floatChars, hx] at h ⊢
    rw [← (Option.some.inj h : Json.null = found), value?]
    rfl
  | true =>
  obtain ⟨negative, number, hnumber, hstart⟩ := exists_value?_floatChars hx
  obtain ⟨left, hvalue, hleft⟩ := parse?_eq_some h
  have halone := hstart [] (2 * (floatChars x).length + 1) .whole depthLimit
  rw [List.append_nil, List.append_nil] at halone
  rw [show 2 * (floatChars x).length + 2 = 2 * (floatChars x).length + 1 + 1 from rfl, halone]
    at hvalue
  -- nothing of a number is blank, so nothing is left over
  have hnil : left = [] := by
    cases left with
    | nil => rfl
    | cons d ds =>
      have hmem : d ∈ number := (unsignedNumber?_suffix hvalue).subset List.mem_cons_self
      have hblank := (hnumber d hmem).not_isBlank
      rw [skipBlanks_of_not_blank hblank] at hleft
      cases hleft
  subst hnil
  rw [hstart rest fuel form depth, unsignedNumber?_append hrest, hvalue]
  rfl

/-! ## 3. Arrays and objects -/

/-- No value begins with a blank or like the end of an array. -/
theorem exists_chars_eq_cons (j : Json) :
    ∃ c cs, j.chars = c :: cs ∧ isBlank c = false ∧ c ≠ ']' := by
  have hdigit {c : Char} (hc : c.isDigit = true) : isBlank c = false ∧ c ≠ ']' := by
    refine ⟨not_isBlank_of_isDigit hc, ?_⟩
    rintro rfl
    exact absurd hc (by decide)
  have hminus : isBlank '-' = false ∧ '-' ≠ ']' := by decide
  cases j with
  | null => exact ⟨_, _, rfl, by decide⟩
  | bool b => cases b <;> exact ⟨_, _, rfl, by decide⟩
  | int i =>
    obtain ⟨c, cs, hcs⟩ :=
      List.exists_cons_of_ne_nil (Nat.toDigits_ne_nil (n := i.natAbs) (b := 10))
    have hc : c.isDigit = true := isDigit_of_mem_toDigits (by rw [hcs]; exact List.mem_cons_self)
    rw [chars, Decimal.intChars, Decimal.digitChars, hcs]
    split
    · exact ⟨_, _, rfl, hminus⟩
    · exact ⟨_, _, rfl, hdigit hc⟩
  | float x =>
    obtain ⟨c, cs, hcs, hc⟩ := exists_render_eq_cons (Decimal.shortest x)
    rw [chars, floatChars, hcs]
    split
    · cases x.negative with
      | true => exact ⟨_, _, rfl, hminus⟩
      | false => exact ⟨_, _, rfl, hdigit hc⟩
    · exact ⟨_, _, rfl, by decide⟩
  | string s => exact ⟨_, _, rfl, by decide⟩
  | array items => cases items <;> exact ⟨_, _, rfl, by decide⟩
  | object fields => cases fields <;> exact ⟨_, _, rfl, by decide⟩

theorem length_chars_pos (j : Json) : 0 < j.chars.length := by
  obtain ⟨c, cs, hcs, -⟩ := exists_chars_eq_cons j
  rw [hcs]
  exact Nat.succ_pos _

theorem value?_array (hdepth : 1 < depth) (j : Json) (cs : List Char) :
    value? (fuel + 1) form depth ('[' :: (j.chars ++ cs)) =
      items? fuel form.items (depth - 1) [] (j.chars ++ cs) := by
  obtain ⟨c, tail, htail, hblank, hend⟩ := exists_chars_eq_cons j
  rw [value?, skipBlanks_of_not_blank (by decide)]
  show (if depth ≤ 1 then none else _) = _
  rw [if_neg (by omega), htail, List.cons_append, skipBlanks_of_not_blank hblank]
  split
  · rename_i heq
    exact absurd (List.cons.inj heq).1 hend
  · rfl

theorem value?_object (hdepth : 1 < depth) (name : String) (cs : List Char) :
    value? (fuel + 1) form depth ('{' :: (quoted name ++ cs)) =
      fields? fuel form (depth - 1) [] (quoted name ++ cs) := by
  rw [value?, skipBlanks_of_not_blank (by decide)]
  show (if depth ≤ 1 then none else _) = _
  rw [if_neg (by omega), quoted, List.cons_append, skipBlanks_of_not_blank (by decide)]
  rfl

theorem escapeChar_of_isDigit (hc : c.isDigit = true) : escapeChar c = [c] := by
  have hrange : 48 ≤ c.toNat := by
    simp only [Char.isDigit, Bool.and_eq_true, decide_eq_true_eq] at hc
    exact UInt32.le_iff_toNat_le.1 hc.1
  have hne (d : Char) (hd : d.isDigit = false) : c ≠ d := by
    rintro rfl
    rw [hd] at hc
    cases hc
  rw [escapeChar, if_neg (hne _ rfl), if_neg (hne _ rfl), if_neg (hne _ rfl), if_neg (hne _ rfl),
    if_neg (hne _ rfl), if_neg (by omega), if_neg (by omega), if_neg (by omega)]

theorem fieldName?_quoted {name : String} (h : form.ReadsName name) (cs : List Char) :
    fieldName? form (name.toList.flatMap escapeChar ++ '"' :: cs) = some (name, cs) := by
  have hread := stringRest?_quoted name cs
  cases form with
  | whole => exact hread
  | record fields => exact hread
  | numbered each =>
    have hdigits : ∀ c ∈ name.toList, c.isDigit = true := h
    -- digits need no escapes
    have hplain : name.toList.flatMap escapeChar = name.toList := by
      generalize name.toList = l at hdigits
      induction l with
      | nil => rfl
      | cons c cs ih =>
        rw [List.flatMap_cons, escapeChar_of_isDigit (hdigits c List.mem_cons_self),
          ih fun d hd => hdigits d (List.mem_cons_of_mem c hd)]
        rfl
    have hne (d : Char) (hd : d.isDigit = false) : d ∉ name.toList := fun hmem => by
      rw [hdigits d hmem] at hd
      cases hd
    have htake : (name.toList ++ '"' :: cs).takeWhile (· != '"') = name.toList := by
      rw [List.takeWhile_append_of_pos]
      · simp
      · intro d hd
        have hdne : d ≠ '"' := by
          rintro rfl
          exact hne _ rfl hd
        simpa using hdne
    -- without a backslash the name ends at the first quotation mark
    have hno : name.toList.contains '\\' = false := by
      rw [Bool.eq_false_iff, ne_eq, List.contains_iff_mem]
      exact hne _ rfl
    rw [hplain] at hread ⊢
    rw [fieldName?, htake, hno]
    exact hread

theorem fields?_quoted {name : String} {part : Form} {acc : List (String × Json)}
    (hname : form.ReadsName name) (hpart : form.field? name = some part) :
    fields? (fuel + 1) form depth acc (quoted name ++ ':' :: cs) =
      (value? fuel part depth cs).bind fun (j, left) =>
        match skipBlanks left with
        | ',' :: rest => fields? fuel form depth ((name, j) :: acc) rest
        | '}' :: rest => some (.object ((name, j) :: acc).reverse, rest)
        | _ => none := by
  have hstart : quoted name ++ ':' :: cs =
      '"' :: (name.toList.flatMap escapeChar ++ '"' :: ':' :: cs) := by
    rw [quoted, List.cons_append, List.append_assoc, List.singleton_append]
  rw [hstart, fields?, skipBlanks_of_not_blank (by decide)]
  split
  · rename_i tail heq
    obtain ⟨-, rfl⟩ := List.cons.inj heq
    rw [fieldName?_quoted hname]
    dsimp only
    rw [skipBlanks_of_not_blank (by decide)]
    split
    · rename_i tail heq
      obtain ⟨-, rfl⟩ := List.cons.inj heq
      rw [hpart]
      dsimp only
      cases value? fuel part depth cs <;> rfl
    · rename_i hcolon
      exact absurd rfl (hcolon cs)
  · rename_i hquote
    exact absurd rfl (hquote _)

mutual

/-- **Of a legible value one value is read**, and what follows it is left. -/
theorem value?_chars : ∀ (j : Json) {form : Form} {depth fuel : Nat} {rest : List Char},
    j.Legible depth → form.Covers j → Ended rest → j.chars.length ≤ fuel →
    value? fuel form depth (j.chars ++ rest) = some (j.reread, rest)
  | j, form, depth, 0, rest, _, _, _, hfuel => by
    have hpos := length_chars_pos j
    omega
  | .null, form, depth, fuel + 1, rest, _, _, _, _ => by
    rw [value?]
    rfl
  | .bool true, form, depth, fuel + 1, rest, _, _, _, _ => by
    rw [value?]
    rfl
  | .bool false, form, depth, fuel + 1, rest, _, _, _, _ => by
    rw [value?]
    rfl
  | .int i, form, depth, fuel + 1, rest, hread, _, hrest, _ => by
    rw [chars]
    exact value?_int hread hrest
  | .float x, form, depth, fuel + 1, rest, hread, _, hrest, _ => by
    obtain ⟨found, hfound⟩ := Option.isSome_iff_exists.1 hread
    rw [chars, reread, hfound]
    exact value?_float hfound hrest
  | .string s, form, depth, fuel + 1, rest, _, _, _, _ => by
    rw [chars]
    exact value?_quoted s
  | .array [], form, depth, fuel + 1, rest, hread, _, _, _ => by
    obtain ⟨hdepth, -⟩ := hread
    rw [value?, chars, List.cons_append, skipBlanks_of_not_blank (by decide)]
    show (if depth ≤ 1 then none else _) = _
    rw [if_neg (by omega)]
    rfl
  | .array (j :: more), form, depth, fuel + 1, rest, hread, hform, hrest, hfuel => by
    obtain ⟨hdepth, hitems⟩ := hread
    rw [chars, List.length_cons] at hfuel
    rw [chars, List.cons_append, List.append_assoc, value?_array hdepth, ← List.append_assoc]
    exact items?_chars (j :: more) j more rfl [] hitems hform hrest (by omega)
  | .object [], form, depth, fuel + 1, rest, hread, _, _, _ => by
    obtain ⟨hdepth, -⟩ := hread
    rw [value?, chars, List.cons_append, skipBlanks_of_not_blank (by decide)]
    show (if depth ≤ 1 then none else _) = _
    rw [if_neg (by omega)]
    rfl
  | .object ((name, j) :: more), form, depth, fuel + 1, rest, hread, hform, hrest, hfuel => by
    obtain ⟨hdepth, hfields⟩ := hread
    rw [chars, List.length_cons] at hfuel
    rw [chars, List.cons_append, List.append_assoc, value?_object hdepth, ← List.append_assoc]
    exact fields?_chars ((name, j) :: more) name j more rfl [] hfields hform hrest (by omega)

theorem items?_chars : ∀ (items : List Json) (j : Json) (more : List Json), items = j :: more →
    ∀ {forms : List Form} {depth fuel : Nat} {rest : List Char} (acc : List Json),
    LegibleItems depth items → Form.CoversItems forms items → Ended rest →
    (j.chars ++ itemChars more).length ≤ fuel →
    items? fuel forms depth acc (j.chars ++ itemChars more ++ rest) =
      some (.array (acc.reverse ++ rereadItems items), rest)
  | [], _, _, heq, _, _, _, _, _, _, _, _, _ => by cases heq
  | j :: more, _, _, rfl, forms, depth, 0, rest, acc, _, _, _, hfuel => by
    have hpos := length_chars_pos j
    rw [List.length_append] at hfuel
    omega
  | j :: more, _, _, rfl, forms, depth, fuel + 1, rest, acc, hread, hform, hrest, hfuel => by
    obtain ⟨hj, hmore⟩ := hread
    obtain ⟨hcovers, hcoversMore⟩ := hform
    have hpos := length_chars_pos j
    rw [List.length_append] at hfuel
    cases more with
    | nil =>
      -- the last item, before the closing bracket
      have hvalue := value?_chars j hj hcovers (ended_cons (.inr (.inl rfl)) rest)
        (show j.chars.length ≤ fuel by rw [itemChars, List.length_singleton] at hfuel; omega)
      rw [itemChars, List.append_assoc, List.singleton_append, items?, hvalue]
      dsimp only
      rw [skipBlanks_of_not_blank (by decide), rereadItems, rereadItems, ← List.reverse_cons]
      rfl
    | cons k others =>
      have hvalue := value?_chars j hj hcovers
        (ended_cons (.inl rfl) (k.chars ++ itemChars others ++ rest))
        (show j.chars.length ≤ fuel by rw [itemChars, List.length_cons] at hfuel; omega)
      -- the mutual call is on the rest of the list, with one step of fuel less
      have hnext := items?_chars (k :: others) k others rfl (j.reread :: acc) hmore hcoversMore hrest
        (show _ ≤ fuel by rw [itemChars, List.length_cons] at hfuel; omega)
      rw [itemChars, List.append_assoc, List.cons_append, items?, hvalue]
      dsimp only
      rw [skipBlanks_of_not_blank (by decide)]
      show items? fuel forms.tail depth (j.reread :: acc) _ = _
      rw [hnext, List.reverse_cons, List.append_assoc, List.singleton_append]
      rfl

theorem fields?_chars : ∀ (fields : List (String × Json)) (name : String) (j : Json)
    (more : List (String × Json)), fields = (name, j) :: more →
    ∀ {form : Form} {depth fuel : Nat} {rest : List Char} (acc : List (String × Json)),
    LegibleFields depth fields → form.CoversFields fields → Ended rest →
    (quoted name ++ ':' :: (j.chars ++ fieldChars more)).length ≤ fuel →
    fields? fuel form depth acc (quoted name ++ ':' :: (j.chars ++ fieldChars more) ++ rest) =
      some (.object (acc.reverse ++ rereadFields fields), rest)
  | [], _, _, _, heq, _, _, _, _, _, _, _, _, _ => by cases heq
  | (name, j) :: more, _, _, _, rfl, form, depth, 0, rest, acc, _, _, _, hfuel => by
    rw [List.length_append, List.length_cons] at hfuel
    omega
  | (name, j) :: more, _, _, _, rfl, form, depth, fuel + 1, rest, acc, hread, hform, hrest,
      hfuel => by
    obtain ⟨hj, hmore⟩ := hread
    obtain ⟨⟨hname, part, hpart, hcovers⟩, hcoversMore⟩ := hform
    rw [List.length_append, List.length_cons, List.length_append] at hfuel
    rw [List.append_assoc, List.cons_append]
    cases more with
    | nil =>
      have hvalue := value?_chars j hj hcovers (ended_cons (.inr (.inr rfl)) rest)
        (show j.chars.length ≤ fuel by omega)
      rw [fieldChars, List.append_assoc, List.singleton_append, fields?_quoted hname hpart,
        hvalue, Option.bind_some]
      dsimp only
      rw [skipBlanks_of_not_blank (by decide), rereadFields, rereadFields, ← List.reverse_cons]
      rfl
    | cons field others =>
      obtain ⟨name', k⟩ := field
      have hvalue := value?_chars j hj hcovers
        (ended_cons (.inl rfl) (quoted name' ++ ':' :: (k.chars ++ fieldChars others) ++ rest))
        (show j.chars.length ≤ fuel by omega)
      have hnext := fields?_chars ((name', k) :: others) name' k others rfl ((name, j.reread) :: acc)
        hmore hcoversMore hrest
        (show _ ≤ fuel by rw [fieldChars, List.length_cons] at hfuel; omega)
      rw [fieldChars, List.append_assoc, List.cons_append, fields?_quoted hname hpart,
        hvalue, Option.bind_some]
      dsimp only
      rw [skipBlanks_of_not_blank (by decide)]
      show fields? fuel form depth ((name, j.reread) :: acc) _ = _
      rw [hnext, List.reverse_cons, List.append_assoc, List.singleton_append]
      rfl

end

theorem parseAs?_legible {j : Json} (h : j.Legible depthLimit) (hform : form.Covers j) :
    parseAs? form j.chars = some j.reread := by
  have hvalue := value?_chars j h hform ended_nil
    (show j.chars.length ≤ 2 * j.chars.length + 2 by omega)
  rw [List.append_nil] at hvalue
  rw [parseAs?, hvalue]
  rfl

theorem parse?_legible {j : Json} (h : j.Legible depthLimit) : parse? j.chars = some j.reread :=
  parseAs?_legible h (Form.covers_whole j)

/-- **The text of a value is read as the value** by any reader that asks for all of it. -/
theorem parseAs?_chars {j : Json} (h : j.Readable depthLimit) (hform : form.Covers j) :
    parseAs? form j.chars = some j := by
  obtain ⟨hlegible, hsame⟩ := h.legible
  rw [parseAs?_legible hlegible hform, hsame]

theorem parse?_chars {j : Json} (h : j.Readable depthLimit) : parse? j.chars = some j :=
  parseAs?_chars h (Form.covers_whole j)

/-! ## 4. Rows of text -/

/-- No control character stands in a text, so that it has one row. -/
def printable (cs : List Char) : Bool := cs.all fun c => 32 ≤ c.toNat

theorem le_toNat_of_printable (h : printable cs = true) (hc : c ∈ cs) : 32 ≤ c.toNat :=
  of_decide_eq_true (List.all_eq_true.1 h c hc)

theorem printable_cons : printable (c :: cs) = (decide (32 ≤ c.toNat) && printable cs) :=
  List.all_cons

theorem printable_append {ds : List Char} :
    printable (cs ++ ds) = (printable cs && printable ds) := List.all_append

theorem printable_of_isNumberChar (h : ∀ c ∈ cs, IsNumberChar c) : printable cs = true := by
  refine List.all_eq_true.2 fun c hc => decide_eq_true ?_
  rcases h c hc with hdigit | hsign
  · simp only [Char.isDigit, Bool.and_eq_true, decide_eq_true_eq] at hdigit
    have hle := UInt32.le_iff_toNat_le.1 hdigit.1
    exact Nat.le_trans (by decide) hle
  · have hsigns : printable ['.', 'e', '+', '-'] = true := rfl
    exact le_toNat_of_printable hsigns hsign

theorem printable_hexDigit : ∀ n < 16, 32 ≤ (hexDigit n).toNat := by decide

theorem printable_escapeChar (c : Char) : printable (escapeChar c) = true := by
  unfold escapeChar
  by_cases hlow : c.toNat < 32
  · -- by name or, with two digits of sixteen, by number
    have hhigh := printable_hexDigit (c.toNat / 16) (by omega)
    have hrest := printable_hexDigit (c.toNat % 16) (by omega)
    rw [if_pos hlow]
    repeat' split
    any_goals rfl
    simp only [printable_cons, hhigh, hrest, decide_true, Bool.true_and]
    rfl
  · rw [if_neg hlow]
    repeat' split
    any_goals rfl
    simp only [printable_cons, Nat.le_of_not_lt hlow, decide_true, Bool.true_and]
    rfl

theorem printable_quoted (s : String) : printable (quoted s) = true := by
  have hinside : printable (s.toList.flatMap escapeChar) = true := by
    induction s.toList with
    | nil => rfl
    | cons c cs ih => rw [List.flatMap_cons, printable_append, printable_escapeChar, ih]; rfl
  rw [quoted, printable_cons, printable_append, hinside]
  rfl

theorem printable_floatChars (x : Binary64) : printable (floatChars x) = true := by
  rw [floatChars]
  split
  · rw [printable_append, printable_of_isNumberChar fun c hc => isNumberChar_render hc,
      Bool.and_true]
    split <;> rfl
  · rfl

mutual

theorem printable_chars : ∀ j : Json, printable j.chars = true
  | .null | .bool true | .bool false | .array [] | .object [] => rfl
  | .int i => printable_of_isNumberChar fun c hc =>
      isNumberChar_intChars (fun d hd => absurd hd List.not_mem_nil) hc
  | .float x => printable_floatChars x
  | .string s => printable_quoted s
  | .array (j :: rest) => by
    rw [chars, printable_cons, printable_append, printable_chars j, printable_itemChars rest]
    rfl
  | .object ((k, j) :: rest) => by
    rw [chars, printable_cons, printable_append, printable_quoted, printable_cons, printable_append,
      printable_chars j, printable_fieldChars rest]
    rfl

theorem printable_itemChars : ∀ items : List Json, printable (itemChars items) = true
  | [] => rfl
  | j :: rest => by
    rw [itemChars, printable_cons, printable_append, printable_chars j, printable_itemChars rest]
    rfl

theorem printable_fieldChars : ∀ fields : List (String × Json),
    printable (fieldChars fields) = true
  | [] => rfl
  | (k, j) :: rest => by
    rw [fieldChars, printable_cons, printable_append, printable_quoted, printable_cons,
      printable_append, printable_chars j, printable_fieldChars rest]
    rfl

end

theorem not_mem_chars (hc : c.toNat < 32) (j : Json) : c ∉ j.chars := fun h => by
  have hle := le_toNat_of_printable (printable_chars j) h
  omega

theorem getLast?_itemChars (items : List Json) : (itemChars items).getLast? = some ']' := by
  induction items with
  | nil => rfl
  | cons j rest ih => rw [itemChars, ← List.cons_append, List.getLast?_append, ih]; rfl

theorem getLast?_fieldChars (fields : List (String × Json)) :
    (fieldChars fields).getLast? = some '}' := by
  induction fields with
  | nil => rfl
  | cons field rest ih =>
    rw [fieldChars, ← List.cons_append, ← List.cons_append, ← List.append_assoc,
      List.getLast?_append, ih]
    rfl

theorem trim_array (items : List Json) : trim (Json.array items).chars = (Json.array items).chars := by
  cases items with
  | nil => rfl
  | cons j rest =>
    apply trim_eq_self
    · intro c hc
      rw [← Option.some.inj hc]
      decide
    · intro c hc
      rw [chars, ← List.cons_append, List.getLast?_append, getLast?_itemChars] at hc
      rw [← Option.some.inj hc]
      decide

theorem trim_object (fields : List (String × Json)) :
    trim (Json.object fields).chars = (Json.object fields).chars := by
  cases fields with
  | nil => rfl
  | cons field rest =>
    apply trim_eq_self
    · intro c hc
      rw [← Option.some.inj hc]
      decide
    · intro c hc
      rw [chars, ← List.cons_append, ← List.cons_append, ← List.append_assoc,
        List.getLast?_append, getLast?_fieldChars] at hc
      rw [← Option.some.inj hc]
      decide

end CoverageLedger.Json
