import CoverageLedger.Proofs.Json.Documents
import Mathlib.Data.List.Forall2

/-!
# Texts that a reader accepts

A number may be read as another one, so that not every value is read back from its text.  But when a
reader makes something of the text, it has come to the end of it, and nothing but numbers can have
changed (`ReadAs`).
-/

namespace CoverageLedger.Json

open Text

/-! ## 1. Where a reader stops -/

/-- A reader has come to the end of a value, or it stopped inside a number. -/
def Stops (rest left : List Char) : Prop :=
  left = rest ∨ ∃ c cs, left = c :: cs ∧ IsNumberChar c

variable {rest left : List Char} {form : Form} {depth fuel : Nat} {j found : Json}

/-- What stands after a value in an array or an object. -/
def Mark (c : Char) : Prop := c = ',' ∨ c = ']' ∨ c = '}'

/-- A mark that comes next is the one that the text has after the value. -/
theorem Stops.mark {c d : Char} {cs ds : List Char} (h : Stops (c :: cs) left) (hc : Mark c)
    (hnext : skipBlanks left = d :: ds) (hd : Mark d) : left = c :: cs ∧ d = c ∧ ds = cs := by
  rcases h with rfl | ⟨e, es, rfl, he⟩
  · have hblank : isBlank c = false := by
      rcases hc with rfl | rfl | rfl <;> decide
    rw [skipBlanks_of_not_blank hblank] at hnext
    obtain ⟨rfl, rfl⟩ := List.cons.inj hnext
    exact ⟨rfl, rfl, rfl⟩
  · rw [skipBlanks_of_not_blank he.not_isBlank] at hnext
    obtain ⟨rfl, -⟩ := List.cons.inj hnext
    -- no mark is part of a number
    unfold IsNumberChar at he
    rcases hd with rfl | rfl | rfl <;> exact absurd he (by decide)

/-- Where nothing but blanks is left, the text has come to its end. -/
theorem Stops.eq_nil (h : Stops [] left) (hblank : skipBlanks left = []) : left = [] := by
  rcases h with rfl | ⟨c, cs, rfl, hc⟩
  · rfl
  · rw [skipBlanks_of_not_blank hc.not_isBlank] at hblank
    cases hblank

/-- What is left of a number begins inside it. -/
theorem stops_unsignedNumber? {negative : Bool} {number : List Char}
    (hnumber : ∀ c ∈ number, IsNumberChar c) (hrest : Ended rest)
    (h : unsignedNumber? negative (number ++ rest) = some (found, left)) : Stops rest left := by
  rw [unsignedNumber?_append hrest] at h
  obtain ⟨⟨own, tail⟩, hown, heq⟩ := Option.map_eq_some_iff.1 h
  obtain ⟨-, rfl⟩ := Prod.mk.inj heq
  cases tail with
  | nil => exact .inl rfl
  | cons c cs =>
    have hmem : c ∈ number := (unsignedNumber?_suffix hown).subset List.mem_cons_self
    exact .inr ⟨c, cs ++ rest, rfl, hnumber c hmem⟩

theorem stops_float {x : Binary64} (hrest : Ended rest)
    (h : value? (fuel + 1) form depth (floatChars x ++ rest) = some (found, left)) :
    Stops rest left := by
  cases hx : x.isFinite with
  | true =>
    obtain ⟨negative, number, hnumber, hstart⟩ := exists_value?_floatChars hx
    rw [hstart] at h
    exact stops_unsignedNumber? hnumber hrest h
  | false =>
    rw [floatChars, hx, value?] at h
    exact .inl (Prod.mk.inj (Option.some.inj h)).2.symm

/-! ## 2. What it has read -/

/-- Fields of one name, with values that belong together. -/
inductive Field (rel : Json → Json → Prop) : String × Json → String × Json → Prop
  | intro (name : String) {j found : Json} (h : rel j found) : Field rel (name, j) (name, found)

/-- What a reader may make of the text of a value.  A whole number that 64 bits do not hold becomes
another number, and so may a number that is not whole. -/
inductive ReadAs : Json → Json → Prop
  | null : ReadAs .null .null
  | bool (b : Bool) : ReadAs (.bool b) (.bool b)
  | int (i : Int) : ReadAs (.int i) (.int i)
  | wide (i : Int) (x : Binary64) (h : i < -0x8000000000000000 ∨ 0x10000000000000000 ≤ i) :
      ReadAs (.int i) (.float x)
  | float (x : Binary64) (found : Json) (h : parse? (floatChars x) = some found) :
      ReadAs (.float x) found
  | string (s : String) : ReadAs (.string s) (.string s)
  | array {items own : List Json} (h : List.Forall₂ ReadAs items own) :
      ReadAs (.array items) (.array own)
  | object {fields own : List (String × Json)}
      (h : List.Forall₂ (Field ReadAs) fields own) : ReadAs (.object fields) (.object own)

mutual

/-- What is readable is there again. -/
theorem ReadAs.eq_of_readable : ∀ {j found : Json} {depth : Nat}, ReadAs j found →
    j.Readable depth → found = j
  | .null, _, _, .null, _ => rfl
  | .bool _, _, _, .bool _, _ => rfl
  | .int _, _, _, .int _, _ => rfl
  | .int i, _, _, .wide _ _ h, ⟨hmin, hmax⟩ => by omega
  | .float x, _, _, .float _ _ h, hread => by
    have hown : parse? (floatChars x) = some (.float x) := hread
    exact Option.some.inj (h.symm.trans hown)
  | .string _, _, _, .string _, _ => rfl
  | .array items, _, _, .array h, ⟨_, hread⟩ => congrArg _ (items_eq_of_readable items h hread)
  | .object fields, _, _, .object h, ⟨_, hread⟩ =>
    congrArg _ (fields_eq_of_readable fields h hread)

theorem items_eq_of_readable : ∀ (items : List Json) {own : List Json} {depth : Nat},
    List.Forall₂ ReadAs items own → ReadableItems depth items → own = items
  | [], _, _, .nil, _ => rfl
  | j :: rest, _, _, .cons hitem hrest, ⟨hread, hmore⟩ => by
    rw [hitem.eq_of_readable hread, items_eq_of_readable rest hrest hmore]

theorem fields_eq_of_readable : ∀ (fields : List (String × Json)) {own : List (String × Json)}
    {depth : Nat}, List.Forall₂ (Field ReadAs) fields own → ReadableFields depth fields → own = fields
  | [], _, _, .nil, _ => rfl
  | (_, _) :: rest, _, _, .cons (.intro _ hfield) hrest, ⟨hread, hmore⟩ => by
    rw [hfield.eq_of_readable hread, fields_eq_of_readable rest hrest hmore]

end

/-! ## 3. Whole numbers -/

/-- Digits are all taken or left out; when none is left out, they make up the number. -/
theorem exists_wordDigits {cs : List Char} (h : ∀ c ∈ cs, c.isDigit = true) (acc taken dropped : Nat)
    (hacc : acc < word64) : ∃ n t d, wordDigits acc taken dropped cs = (n, t, d, []) ∧
      dropped ≤ d ∧ (d = 0 → n = Nat.ofDigitChars 10 cs acc) ∧ n < word64 := by
  induction cs generalizing acc taken dropped with
  | nil => exact ⟨acc, taken, dropped, rfl, Nat.le_refl _, fun _ => Nat.ofDigitChars_nil.symm, hacc⟩
  | cons c cs ih =>
    have hrest : ∀ c ∈ cs, c.isDigit = true := fun d hd => h d (List.mem_cons_of_mem c hd)
    rw [wordDigits, digit?_of_isDigit (h c List.mem_cons_self)]
    dsimp only
    split
    · rename_i hfits
      obtain ⟨n, t, d, hdigits, -, hn, hword⟩ := ih hrest _ (taken + 1) 0 hfits.2
      refine ⟨n, t, d, hdigits, by omega, fun hd => ?_, hword⟩
      rw [hn hd, Nat.ofDigitChars_cons, Nat.mul_comm]
      rfl
    · obtain ⟨n, t, d, hdigits, hle, -, hword⟩ := ih hrest acc taken (dropped + 1) hacc
      exact ⟨n, t, d, hdigits, by omega, by omega, hword⟩

/-- No character of a whole number is left over. -/
theorem readAs_of_unsignedNumber? {i : Int}
    (h : unsignedNumber? (decide (i < 0)) (Nat.toDigits 10 i.natAbs) = some (found, left)) :
    left = [] ∧ ReadAs (.int i) found := by
  by_cases hfits : i.natAbs < word64
  · rw [unsignedNumber?_toDigits _ hfits] at h
    obtain ⟨rfl, rfl⟩ := Prod.mk.inj (Option.some.inj h)
    refine ⟨rfl, ?_⟩
    unfold wholeNumber
    unfold word64 at hfits
    by_cases hneg : i < 0
    · rw [decide_eq_true hneg, if_pos rfl]
      split
      · exact .wide i _ (by omega)
      · rw [show - (i.natAbs : Int) = i by omega]
        exact .int i
    · rw [decide_eq_false hneg, if_neg (by decide), show (i.natAbs : Int) = i by omega]
      exact .int i
  · -- digits of a number beyond 64 bits are left out, and what remains is scaled
    have hdigit : ∀ c ∈ Nat.toDigits 10 i.natAbs, c.isDigit = true :=
      fun _ => isDigit_of_mem_toDigits
    obtain ⟨n, t, d, hdigits, -, hall, hword⟩ := exists_wordDigits hdigit 0 0 0 (by decide)
    have hd : d ≠ 0 := fun hzero => by
      rw [hall hzero, Nat.ofDigitChars_ten_toDigits] at hword
      exact hfits hword
    rw [unsignedNumber?, hdigits] at h
    dsimp only at h
    split at h
    · cases h
    · split at h
      · cases h
      · rw [afterWhole?, if_neg hd] at h
        · obtain ⟨j, hj, heq⟩ := Option.map_eq_some_iff.1 h
          obtain ⟨rfl, rfl⟩ := Prod.mk.inj heq
          obtain ⟨y, -, rfl⟩ := Option.map_eq_some_iff.1 hj
          unfold word64 at hfits
          exact ⟨rfl, .wide i _ (by omega)⟩
        all_goals
          intro tail htail
          cases htail

theorem value?_int_accepted {i : Int} (hrest : Ended rest)
    (h : value? (fuel + 1) form depth (Decimal.intChars [] i ++ rest) = some (found, left)) :
    left = rest ∧ ReadAs (.int i) found := by
  rw [value?_intChars, unsignedNumber?_append hrest] at h
  obtain ⟨⟨own, tail⟩, hown, heq⟩ := Option.map_eq_some_iff.1 h
  obtain ⟨rfl, rfl⟩ := Prod.mk.inj heq
  obtain ⟨rfl, hread⟩ := readAs_of_unsignedNumber? hown
  exact ⟨rfl, hread⟩

/-- A number that is read to its end inside a document is read alike by itself. -/
theorem value?_float_accepted {x : Binary64} (hrest : Ended rest)
    (h : value? (fuel + 1) form depth (floatChars x ++ rest) = some (found, rest)) :
    ReadAs (.float x) found := by
  refine .float x found ?_
  cases hx : x.isFinite with
  | true =>
    obtain ⟨negative, number, -, hstart⟩ := exists_value?_floatChars hx
    rw [hstart, unsignedNumber?_append hrest] at h
    obtain ⟨⟨own, tail⟩, hown, heq⟩ := Option.map_eq_some_iff.1 h
    obtain ⟨rfl, htail⟩ := Prod.mk.inj heq
    obtain rfl : tail = [] := List.append_left_eq_self.1 htail
    have halone := hstart [] (2 * (floatChars x).length + 1) .whole depthLimit
    rw [List.append_nil, List.append_nil, hown] at halone
    rw [parse?, parseAs?, halone]
    rfl
  | false =>
    rw [floatChars, hx, value?] at h
    rw [floatChars, hx, ← (Prod.mk.inj (Option.some.inj h)).1]
    rfl

/-! ## 4. Documents -/

mutual

/-- A reader that comes to the end of the text of a value has read the value. -/
theorem value?_accepted : ∀ (j : Json) {form : Form} {depth fuel : Nat} {rest left : List Char}
    {found : Json}, form.Covers j → Ended rest →
    value? fuel form depth (j.chars ++ rest) = some (found, left) →
    Stops rest left ∧ (left = rest → ReadAs j found)
  | _, _, _, 0, _, _, _, _, _, h => by cases h
  | .null, form, depth, fuel + 1, rest, left, found, _, _, h => by
    rw [value?] at h
    obtain ⟨rfl, rfl⟩ := Prod.mk.inj (Option.some.inj h)
    exact ⟨.inl rfl, fun _ => .null⟩
  | .bool true, form, depth, fuel + 1, rest, left, found, _, _, h => by
    rw [value?] at h
    obtain ⟨rfl, rfl⟩ := Prod.mk.inj (Option.some.inj h)
    exact ⟨.inl rfl, fun _ => .bool true⟩
  | .bool false, form, depth, fuel + 1, rest, left, found, _, _, h => by
    rw [value?] at h
    obtain ⟨rfl, rfl⟩ := Prod.mk.inj (Option.some.inj h)
    exact ⟨.inl rfl, fun _ => .bool false⟩
  | .int i, form, depth, fuel + 1, rest, left, found, _, hrest, h => by
    obtain ⟨hleft, hread⟩ := value?_int_accepted hrest h
    exact ⟨.inl hleft, fun _ => hread⟩
  | .float x, form, depth, fuel + 1, rest, left, found, _, hrest, h => by
    refine ⟨stops_float hrest h, ?_⟩
    rintro rfl
    exact value?_float_accepted hrest h
  | .string s, form, depth, fuel + 1, rest, left, found, _, _, h => by
    rw [chars, value?_quoted] at h
    obtain ⟨rfl, rfl⟩ := Prod.mk.inj (Option.some.inj h)
    exact ⟨.inl rfl, fun _ => .string s⟩
  | .array [], form, depth, fuel + 1, rest, left, found, _, _, h => by
    rw [value?, chars, List.cons_append, skipBlanks_of_not_blank (by decide)] at h
    change (if depth ≤ 1 then none else some (Json.array [], rest)) = _ at h
    split at h
    · cases h
    · obtain ⟨rfl, rfl⟩ := Prod.mk.inj (Option.some.inj h)
      exact ⟨.inl rfl, fun _ => .array .nil⟩
  | .array (j :: more), form, depth, fuel + 1, rest, left, found, hform, hrest, h => by
    by_cases hdepth : 1 < depth
    · rw [chars, List.cons_append, List.append_assoc, value?_array hdepth,
        ← List.append_assoc] at h
      obtain ⟨hleft, own, rfl, hitems⟩ := items?_accepted (j :: more) j more rfl [] hform hrest h
      exact ⟨.inl hleft, fun _ => .array hitems⟩
    · rw [chars, List.cons_append, value?, skipBlanks_of_not_blank (by decide)] at h
      change (if depth ≤ 1 then none else _) = _ at h
      rw [if_pos (by omega)] at h
      cases h
  | .object [], form, depth, fuel + 1, rest, left, found, _, _, h => by
    rw [value?, chars, List.cons_append, skipBlanks_of_not_blank (by decide)] at h
    change (if depth ≤ 1 then none else some (Json.object [], rest)) = _ at h
    split at h
    · cases h
    · obtain ⟨rfl, rfl⟩ := Prod.mk.inj (Option.some.inj h)
      exact ⟨.inl rfl, fun _ => .object .nil⟩
  | .object ((name, j) :: more), form, depth, fuel + 1, rest, left, found, hform, hrest, h => by
    by_cases hdepth : 1 < depth
    · rw [chars, List.cons_append, List.append_assoc, value?_object hdepth,
        ← List.append_assoc] at h
      obtain ⟨hleft, own, rfl, hfields⟩ :=
        fields?_accepted ((name, j) :: more) name j more rfl [] hform hrest h
      exact ⟨.inl hleft, fun _ => .object hfields⟩
    · rw [chars, List.cons_append, value?, skipBlanks_of_not_blank (by decide)] at h
      change (if depth ≤ 1 then none else _) = _ at h
      rw [if_pos (by omega)] at h
      cases h

theorem items?_accepted : ∀ (items : List Json) (j : Json) (more : List Json), items = j :: more →
    ∀ {forms : List Form} {depth fuel : Nat} {rest left : List Char} {found : Json}
    (acc : List Json), Form.CoversItems forms items → Ended rest →
    items? fuel forms depth acc (j.chars ++ itemChars more ++ rest) = some (found, left) →
    left = rest ∧ ∃ own, found = .array (acc.reverse ++ own) ∧ List.Forall₂ ReadAs items own
  | [], _, _, heq, _, _, _, _, _, _, _, _, _, _ => by cases heq
  | j :: more, _, _, rfl, forms, depth, 0, rest, left, found, acc, _, _, h => by cases h
  | j :: more, _, _, rfl, forms, depth, fuel + 1, rest, left, found, acc, hform, hrest, h => by
    obtain ⟨hcovers, hcoversMore⟩ := hform
    cases more with
    | nil =>
      rw [itemChars, List.append_assoc, List.singleton_append, items?] at h
      cases hvalue : value? fuel (forms.headD .whole) depth (j.chars ++ ']' :: rest) with
      | none =>
        rw [hvalue] at h
        cases h
      | some found =>
        obtain ⟨item, tail⟩ := found
        obtain ⟨hstops, hitem⟩ :=
          value?_accepted j hcovers (ended_cons (.inr (.inl rfl)) rest) hvalue
        rw [hvalue] at h
        dsimp only at h
        split at h
        · rename_i hnext
          exact absurd (hstops.mark (.inr (.inl rfl)) hnext (.inl rfl)).2.1 (by decide)
        · rename_i hnext
          obtain ⟨hend, -, rfl⟩ := hstops.mark (.inr (.inl rfl)) hnext (.inr (.inl rfl))
          obtain ⟨rfl, rfl⟩ := Prod.mk.inj (Option.some.inj h)
          exact ⟨rfl, [item], by rw [List.reverse_cons], .cons (hitem hend) .nil⟩
        · cases h
    | cons k others =>
      rw [itemChars, List.append_assoc, List.cons_append, items?] at h
      cases hvalue : value? fuel (forms.headD .whole) depth
          (j.chars ++ ',' :: (k.chars ++ itemChars others ++ rest)) with
      | none =>
        rw [hvalue] at h
        cases h
      | some found =>
        obtain ⟨item, tail⟩ := found
        obtain ⟨hstops, hitem⟩ := value?_accepted j hcovers
          (ended_cons (.inl rfl) (k.chars ++ itemChars others ++ rest)) hvalue
        rw [hvalue] at h
        dsimp only at h
        split at h
        · rename_i hnext
          obtain ⟨hend, -, rfl⟩ := hstops.mark (.inl rfl) hnext (.inl rfl)
          obtain ⟨hleft, own, rfl, hmore⟩ :=
            items?_accepted (k :: others) k others rfl (item :: acc) hcoversMore hrest h
          refine ⟨hleft, item :: own, ?_, .cons (hitem hend) hmore⟩
          rw [List.reverse_cons, List.append_assoc, List.singleton_append]
        · rename_i hnext
          exact absurd (hstops.mark (.inl rfl) hnext (.inr (.inl rfl))).2.1 (by decide)
        · cases h

theorem fields?_accepted : ∀ (fields : List (String × Json)) (name : String) (j : Json)
    (more : List (String × Json)), fields = (name, j) :: more →
    ∀ {form : Form} {depth fuel : Nat} {rest left : List Char} {found : Json}
    (acc : List (String × Json)), form.CoversFields fields → Ended rest →
    fields? fuel form depth acc (quoted name ++ ':' :: (j.chars ++ fieldChars more) ++ rest) =
      some (found, left) →
    left = rest ∧ ∃ own, found = .object (acc.reverse ++ own) ∧
      List.Forall₂ (Field ReadAs) fields own
  | [], _, _, _, heq, _, _, _, _, _, _, _, _, _, _ => by cases heq
  | (name, j) :: more, _, _, _, rfl, form, depth, 0, rest, left, found, acc, _, _, h => by cases h
  | (name, j) :: more, _, _, _, rfl, form, depth, fuel + 1, rest, left, found, acc, hform, hrest,
      h => by
    obtain ⟨⟨hname, part, hpart, hcovers⟩, hcoversMore⟩ := hform
    rw [List.append_assoc, List.cons_append] at h
    cases more with
    | nil =>
      rw [fieldChars, List.append_assoc, List.singleton_append, fields?_quoted hname hpart] at h
      obtain ⟨⟨value, tail⟩, hvalue, hafter⟩ := Option.bind_eq_some_iff.1 h
      obtain ⟨hstops, hfield⟩ :=
        value?_accepted j hcovers (ended_cons (.inr (.inr rfl)) rest) hvalue
      dsimp only at hafter
      split at hafter
      · rename_i hnext
        exact absurd (hstops.mark (.inr (.inr rfl)) hnext (.inl rfl)).2.1 (by decide)
      · rename_i hnext
        obtain ⟨hend, -, rfl⟩ := hstops.mark (.inr (.inr rfl)) hnext (.inr (.inr rfl))
        obtain ⟨rfl, rfl⟩ := Prod.mk.inj (Option.some.inj hafter)
        exact ⟨rfl, [(name, value)], by rw [List.reverse_cons], .cons (.intro name (hfield hend)) .nil⟩
      · cases hafter
    | cons field others =>
      obtain ⟨name', k⟩ := field
      rw [fieldChars, List.append_assoc, List.cons_append, fields?_quoted hname hpart] at h
      obtain ⟨⟨value, tail⟩, hvalue, hafter⟩ := Option.bind_eq_some_iff.1 h
      obtain ⟨hstops, hfield⟩ := value?_accepted j hcovers
        (ended_cons (.inl rfl) (quoted name' ++ ':' :: (k.chars ++ fieldChars others) ++ rest))
        hvalue
      dsimp only at hafter
      split at hafter
      · rename_i hnext
        obtain ⟨hend, -, rfl⟩ := hstops.mark (.inl rfl) hnext (.inl rfl)
        obtain ⟨hleft, own, rfl, hmore⟩ := fields?_accepted ((name', k) :: others) name' k others
          rfl ((name, value) :: acc) hcoversMore hrest hafter
        refine ⟨hleft, (name, value) :: own, ?_, .cons (.intro name (hfield hend)) hmore⟩
        rw [List.reverse_cons, List.append_assoc, List.singleton_append]
      · rename_i hnext
        exact absurd (hstops.mark (.inl rfl) hnext (.inr (.inr rfl))).2.1 (by decide)
      · cases hafter

end

/-- **A text that is accepted** has been read as the value that it was written for. -/
theorem parseAs?_accepted (hform : form.Covers j) (h : parseAs? form j.chars = some found) :
    ReadAs j found := by
  rw [parseAs?] at h
  split at h
  · rename_i value left hvalue
    split at h
    · rename_i hblank
      rw [← List.append_nil j.chars] at hvalue
      obtain ⟨hstops, hread⟩ := value?_accepted j hform ended_nil hvalue
      rw [← Option.some.inj h]
      exact hread (hstops.eq_nil (List.isEmpty_iff.1 hblank))
    · cases h
  · cases h

/-! ## 5. Tables -/

variable {κ α β : Type} {write : α → Json} {read : Json → Option β}

/-- A value that was read for a written one. -/
def Accepts (write : α → Json) (read : Json → Option β) (a : α) (b : β) : Prop :=
  ∃ j, ReadAs (write a) j ∧ read j = some b

theorem entries_accepted {key? : String → Option κ} {name : κ → String}
    (hkey : ∀ k k', key? (name k) = some k' → k' = k) {entries : List (κ × α)}
    {own : List (String × Json)} {items : List (κ × β)}
    (hown : List.Forall₂ (Field ReadAs) (entries.map fun e => (name e.1, write e.2)) own)
    (hitems : own.mapM (fun f => (key? f.1).bind fun k => (read f.2).map fun v => (k, v)) =
      some items) :
    items.map Prod.fst = entries.map Prod.fst ∧
      ∀ k a, (k, a) ∈ entries → ∃ b, (k, b) ∈ items ∧ Accepts write read a b := by
  induction entries generalizing own items with
  | nil =>
    obtain rfl := List.forall₂_nil_left_iff.1 hown
    obtain rfl := Option.some.inj hitems
    exact ⟨rfl, fun k a hmem => by cases hmem⟩
  | cons e rest ih =>
    obtain ⟨k, a⟩ := e
    obtain ⟨_, more, ⟨_, hvalue⟩, hmore, rfl⟩ := List.forall₂_cons_left_iff.1 hown
    rw [List.mapM_cons] at hitems
    simp only [Option.bind_eq_bind, Option.bind_eq_some_iff] at hitems
    obtain ⟨item, ⟨k', hk, hread⟩, others, hothers, heq⟩ := hitems
    obtain rfl := Option.some.inj heq
    obtain ⟨b, hb, rfl⟩ := Option.map_eq_some_iff.1 hread
    obtain rfl := hkey k k' hk
    obtain ⟨hkeys, hfound⟩ := ih hmore hothers
    refine ⟨congrArg (k' :: ·) hkeys, fun k'' a' hmem => ?_⟩
    rcases List.mem_cons.1 hmem with heq | hmem
    · obtain ⟨rfl, rfl⟩ := Prod.mk.inj heq
      exact ⟨b, List.mem_cons_self, _, hvalue, hb⟩
    · obtain ⟨b', hb', haccepts⟩ := hfound k'' a' hmem
      exact ⟨b', List.mem_cons_of_mem _ hb', haccepts⟩

/-- The keys of a written table are there again, and each value was read for the one of its key. -/
theorem ofList_accepted [TableKey κ] {key? : String → Option κ} {name : κ → String}
    (hkey : ∀ k k', key? (name k) = some k' → k' = k) {t : Table κ α}
    {own : List (String × Json)} {items : List (κ × β)}
    (hown : List.Forall₂ (Field ReadAs) (t.entries.map fun e => (name e.1, write e.2)) own)
    (hitems : own.mapM (fun f => (key? f.1).bind fun k => (read f.2).map fun v => (k, v)) =
      some items) :
    (Table.ofList items).keys = t.keys ∧ ∀ k a, t.get? k = some a →
      ∃ b, (Table.ofList items).get? k = some b ∧ Accepts write read a b := by
  obtain ⟨hkeys, hfound⟩ := entries_accepted hkey hown hitems
  have hascending : items.Pairwise fun a b => Precedes a.1 b.1 := by
    rw [← List.pairwise_map (R := Precedes), hkeys]
    exact t.keys_ascending
  have hentries := Table.entries_ofList hascending
  refine ⟨by rw [Table.keys, hentries, hkeys, Table.keys], fun k a ha => ?_⟩
  obtain ⟨b, hb, haccepts⟩ := hfound k a ((t.get?_eq_some_iff).1 ha)
  exact ⟨b, (Table.get?_eq_some_iff _).2 (by rwa [hentries]), haccepts⟩

theorem table?_accepted {t : Table String α} {u : Table String β}
    (hj : ReadAs (.ofTable (t.map fun _ a => write a)) j) (h : table? read j = some u) :
    u.keys = t.keys ∧ ∀ name a, t.get? name = some a →
      ∃ b, u.get? name = some b ∧ Accepts write read a b := by
  cases hj with | object hown =>
  obtain ⟨items, hitems, rfl⟩ := Option.map_eq_some_iff.1 h
  have hkey : ∀ k k' : String, some (id k) = some k' → k' = k := fun k k' hk =>
    (Option.some.inj hk).symm
  exact @ofList_accepted _ _ _ write read _ some id hkey t _ items hown hitems

end CoverageLedger.Json
