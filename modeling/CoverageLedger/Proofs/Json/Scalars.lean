import CoverageLedger.Json.Printer
import CoverageLedger.Json.Reader
import CoverageLedger.Proofs.Text.Pieces

/-!
# Numbers and strings in JSON

The reader of numbers and strings undoes the writer.  Inside a document a scalar is followed by the
rest of its array or object (`Ended`), and what the reader of numbers does with a text does not
depend on such a rest (`unsignedNumber?_append`).  So a number that reads back by itself reads back
anywhere.
-/

namespace CoverageLedger.Json

open Text

/-! ## 1. What follows a value -/

/-- A text that goes on as arrays and objects do after a value. -/
def Ended (rest : List Char) : Prop :=
  ∀ c, rest.head? = some c → c = ',' ∨ c = ']' ∨ c = '}'

variable {rest : List Char}

theorem ended_nil : Ended [] := fun c h => by cases h

theorem ended_cons {c : Char} (h : c = ',' ∨ c = ']' ∨ c = '}') (cs : List Char) :
    Ended (c :: cs) := fun d hd => by
  obtain rfl := Option.some.inj hd
  exact h

theorem Ended.digit? {c : Char} {cs : List Char} (h : Ended (c :: cs)) : digit? c = none := by
  rcases h c rfl with rfl | rfl | rfl <;> rfl

theorem Ended.ne {c d : Char} {cs : List Char} (h : Ended (c :: cs)) (hcomma : d ≠ ',')
    (hitems : d ≠ ']') (hfields : d ≠ '}') : c ≠ d := by
  rintro rfl
  rcases h c rfl with h | h | h
  · exact hcomma h
  · exact hitems h
  · exact hfields h

theorem skipBlanks_of_not_blank {c : Char} (h : isBlank c = false) (cs : List Char) :
    skipBlanks (c :: cs) = c :: cs := by
  rw [skipBlanks, List.dropWhile_cons, if_neg]
  intro hc
  simp only [Bool.or_eq_true, beq_iff_eq] at hc
  rcases hc with ((rfl | rfl) | rfl) | rfl <;> exact absurd h (by decide)

/-! ## 2. Numbers before a rest -/

theorem wordDigits_append (h : Ended rest) (cs : List Char) (acc taken dropped : Nat) :
    wordDigits acc taken dropped (cs ++ rest) =
      ((wordDigits acc taken dropped cs).1, (wordDigits acc taken dropped cs).2.1,
        (wordDigits acc taken dropped cs).2.2.1, (wordDigits acc taken dropped cs).2.2.2 ++ rest) := by
  induction cs generalizing acc taken dropped with
  | nil =>
    cases rest with
    | nil => rfl
    | cons c cs => simp only [List.nil_append, wordDigits, h.digit?]
  | cons c cs ih =>
    rw [List.cons_append, wordDigits, wordDigits]
    cases digit? c with
    | none => rfl
    | some d =>
      dsimp only
      split
      · exact ih _ _ _
      · exact ih _ _ _

theorem exponentDigits_append (h : Ended rest) (cs : List Char) (acc : Option Nat) :
    exponentDigits acc (cs ++ rest) =
      ((exponentDigits acc cs).1, (exponentDigits acc cs).2 ++ rest) := by
  induction cs generalizing acc with
  | nil =>
    cases rest with
    | nil => rfl
    | cons c cs => simp only [List.nil_append, exponentDigits, h.digit?]
  | cons c cs ih =>
    rw [List.cons_append, exponentDigits, exponentDigits]
    cases digit? c with
    | none => rfl
    | some d => exact ih _

/-- A result before a rest. -/
abbrev before (rest : List Char) (p : Json × List Char) : Json × List Char := (p.1, p.2 ++ rest)

theorem exponentValue?_append (h : Ended rest) (negative down : Bool) (significand : Nat)
    (power : Int) (cs : List Char) :
    exponentValue? negative down significand power (cs ++ rest) =
      (exponentValue? negative down significand power cs).map (before rest) := by
  cases cs with
  | nil =>
    cases rest with
    | nil => rfl
    | cons c cs => simp only [List.nil_append, exponentValue?, h.digit?, Option.map_none]
  | cons c cs =>
    rw [List.cons_append, exponentValue?, exponentValue?]
    -- what ends a number is no digit, so the exponent ends where it did
    cases digit? c with
    | none => rfl
    | some d =>
      dsimp only
      rw [exponentDigits_append h]
      obtain ⟨o, r⟩ := exponentDigits (some d) cs
      cases o with
      | none =>
        dsimp only
        split <;> rfl
      | some n =>
        dsimp only
        rw [Option.map_map]
        rfl

theorem exponentPart?_append (h : Ended rest) (negative : Bool) (significand : Nat) (power : Int)
    (cs : List Char) : exponentPart? negative significand power (cs ++ rest) =
      (exponentPart? negative significand power cs).map (before rest) := by
  rw [exponentPart?.eq_def negative significand power cs]
  split
  · exact exponentValue?_append h _ _ _ _ _
  · exact exponentValue?_append h _ _ _ _ _
  · rename_i hplus hminus
    rw [exponentPart?, exponentValue?_append h]
    -- the rest of a document begins with no sign either
    all_goals
      intro tail heq
      cases cs with
      | nil =>
        rw [List.nil_append] at heq
        subst heq
        exact absurd rfl (h.ne (by decide) (by decide) (by decide))
      | cons c cs =>
        obtain ⟨rfl, -⟩ := List.cons.inj heq
        first | exact hplus _ rfl | exact hminus _ rfl

theorem afterDigits?_append (h : Ended rest) (negative : Bool) (significand : Nat) (power : Int)
    (cs : List Char) : afterDigits? negative significand power (cs ++ rest) =
      (afterDigits? negative significand power cs).map (before rest) := by
  cases cs with
  | nil =>
    cases rest with
    | nil =>
      rw [List.append_nil, afterDigits?, Option.map_map]
      rfl
    | cons c cs =>
      have he : ¬ (c = 'e' ∨ c = 'E') := not_or.2
        ⟨h.ne (by decide) (by decide) (by decide), h.ne (by decide) (by decide) (by decide)⟩
      simp only [List.nil_append, afterDigits?, if_neg he, Option.map_map]
      rfl
  | cons c cs =>
    rw [List.cons_append, afterDigits?, afterDigits?]
    split
    · exact exponentPart?_append h _ _ _ _
    · rw [Option.map_map]
      rfl

theorem afterWhole?_append (h : Ended rest) (negative : Bool) (n dropped : Nat) (cs : List Char) :
    afterWhole? negative n dropped (cs ++ rest) =
      (afterWhole? negative n dropped cs).map (before rest) := by
  rw [afterWhole?.eq_def negative n dropped cs]
  split
  · rename_i fraction
    rw [List.cons_append, afterWhole?, wordDigits_append h]
    obtain ⟨all, added, more, r⟩ := wordDigits n 0 0 fraction
    dsimp only
    split
    · rfl
    · exact afterDigits?_append h _ _ _ _
  · exact exponentPart?_append h _ _ _ _
  · exact exponentPart?_append h _ _ _ _
  · rename_i hpoint he hE
    rw [afterWhole?]
    · split
      · rfl
      · rw [Option.map_map]
        rfl
    -- neither the text nor a rest begins with a point or an exponent
    all_goals
      intro tail heq
      cases cs with
      | nil =>
        rw [List.nil_append] at heq
        subst heq
        exact absurd rfl (h.ne (by decide) (by decide) (by decide))
      | cons c cs =>
        obtain ⟨rfl, -⟩ := List.cons.inj heq
        first | exact hpoint _ rfl | exact he _ rfl | exact hE _ rfl

/-- A number is read alike whatever a document goes on with. -/
theorem unsignedNumber?_append (h : Ended rest) (negative : Bool) (cs : List Char) :
    unsignedNumber? negative (cs ++ rest) = (unsignedNumber? negative cs).map (before rest) := by
  cases cs with
  | nil =>
    cases rest with
    | nil => rfl
    | cons c cs =>
      rw [List.nil_append, unsignedNumber?, wordDigits, h.digit?]
      rfl
  | cons c cs =>
    rw [unsignedNumber?, unsignedNumber?, wordDigits_append h]
    obtain ⟨n, taken, dropped, r⟩ := wordDigits 0 0 0 (c :: cs)
    have hhead : (c :: cs ++ rest).head? = (c :: cs).head? := rfl
    dsimp only
    rw [hhead]
    split
    · rfl
    · split
      · rfl
      · exact afterWhole?_append h _ _ _ _

/-! ## 3. What is left over -/

theorem wordDigits_suffix (cs : List Char) (acc taken dropped : Nat) :
    (wordDigits acc taken dropped cs).2.2.2 <:+ cs := by
  induction cs generalizing acc taken dropped with
  | nil => exact List.suffix_refl []
  | cons c cs ih =>
    rw [wordDigits]
    cases digit? c with
    | none => exact List.suffix_refl _
    | some d =>
      dsimp only
      split
      · exact (ih _ _ _).trans (List.suffix_cons c cs)
      · exact (ih _ _ _).trans (List.suffix_cons c cs)

theorem exponentDigits_suffix (cs : List Char) (acc : Option Nat) :
    (exponentDigits acc cs).2 <:+ cs := by
  induction cs generalizing acc with
  | nil => exact List.suffix_refl []
  | cons c cs ih =>
    rw [exponentDigits]
    cases digit? c with
    | none => exact List.suffix_refl _
    | some d => exact (ih _).trans (List.suffix_cons c cs)

variable {negative : Bool} {cs left : List Char} {j : Json}

theorem exponentValue?_suffix {down : Bool} {significand : Nat} {power : Int}
    (h : exponentValue? negative down significand power cs = some (j, left)) : left <:+ cs := by
  cases cs with
  | nil => cases h
  | cons c cs =>
    rw [exponentValue?] at h
    cases hd : digit? c with
    | none =>
      rw [hd] at h
      cases h
    | some d =>
      have hsuffix := exponentDigits_suffix cs (some d)
      cases hpair : exponentDigits (some d) cs with | mk o r =>
      rw [hpair] at hsuffix
      rw [hd] at h
      dsimp only at h
      rw [hpair] at h
      cases o with
      | none =>
        dsimp only at h
        split at h
        · cases h
        · cases h
          exact hsuffix.trans (List.suffix_cons c cs)
      | some n =>
        obtain ⟨k, -, hk⟩ := Option.map_eq_some_iff.1 h
        cases hk
        exact hsuffix.trans (List.suffix_cons c cs)

theorem exponentPart?_suffix {significand : Nat} {power : Int}
    (h : exponentPart? negative significand power cs = some (j, left)) : left <:+ cs := by
  rw [exponentPart?.eq_def] at h
  split at h
  · exact (exponentValue?_suffix h).trans (List.suffix_cons _ _)
  · exact (exponentValue?_suffix h).trans (List.suffix_cons _ _)
  · exact exponentValue?_suffix h

theorem afterDigits?_suffix {significand : Nat} {power : Int}
    (h : afterDigits? negative significand power cs = some (j, left)) : left <:+ cs := by
  cases cs with
  | nil =>
    obtain ⟨k, -, hk⟩ := Option.map_eq_some_iff.1 h
    cases hk
    exact List.suffix_refl []
  | cons c cs =>
    rw [afterDigits?] at h
    split at h
    · exact (exponentPart?_suffix h).trans (List.suffix_cons c cs)
    · obtain ⟨k, -, hk⟩ := Option.map_eq_some_iff.1 h
      cases hk
      exact List.suffix_refl _

theorem afterWhole?_suffix {n dropped : Nat}
    (h : afterWhole? negative n dropped cs = some (j, left)) : left <:+ cs := by
  rw [afterWhole?.eq_def] at h
  split at h
  · rename_i fraction
    have hsuffix := wordDigits_suffix fraction n 0 0
    obtain ⟨all, added, more, r⟩ := wordDigits n 0 0 fraction
    dsimp only at h
    split at h
    · cases h
    · exact ((afterDigits?_suffix h).trans hsuffix).trans (List.suffix_cons _ _)
  · exact (exponentPart?_suffix h).trans (List.suffix_cons _ _)
  · exact (exponentPart?_suffix h).trans (List.suffix_cons _ _)
  · split at h
    · cases h
      exact List.suffix_refl _
    · obtain ⟨k, -, hk⟩ := Option.map_eq_some_iff.1 h
      cases hk
      exact List.suffix_refl _

theorem unsignedNumber?_suffix (h : unsignedNumber? negative cs = some (j, left)) :
    left <:+ cs := by
  rw [unsignedNumber?] at h
  have hsuffix := wordDigits_suffix cs 0 0 0
  obtain ⟨n, taken, dropped, r⟩ := wordDigits 0 0 0 cs
  dsimp only at h
  split at h
  · cases h
  · split at h
    · cases h
    · exact (afterWhole?_suffix h).trans hsuffix

/-! ## 4. Whole numbers -/

theorem le_ofDigitChars (cs : List Char) (acc : Nat) : acc ≤ Nat.ofDigitChars 10 cs acc := by
  rw [Nat.ofDigitChars_eq_ofDigitChars_zero]
  have hpos : 0 < 10 ^ cs.length := Nat.pow_pos (by decide)
  have hle : acc ≤ 10 ^ cs.length * acc := Nat.le_mul_of_pos_left acc hpos
  omega

theorem wordDigits_of_isDigit {cs : List Char} (h : ∀ c ∈ cs, c.isDigit = true) {acc : Nat}
    (hbound : Nat.ofDigitChars 10 cs acc < word64) (taken : Nat) :
    wordDigits acc taken 0 cs = (Nat.ofDigitChars 10 cs acc, taken + cs.length, 0, []) := by
  induction cs generalizing acc taken with
  | nil => rw [wordDigits, Nat.ofDigitChars_nil]; rfl
  | cons c cs ih =>
    have hc := digit?_of_isDigit (h c List.mem_cons_self)
    have hvalue : Nat.ofDigitChars 10 (c :: cs) acc =
        Nat.ofDigitChars 10 cs (acc * 10 + (c.toNat - 48)) := by
      rw [Nat.ofDigitChars_cons, Nat.mul_comm]
      rfl
    rw [hvalue] at hbound ⊢
    have hfits : acc * 10 + (c.toNat - 48) < word64 :=
      Nat.lt_of_le_of_lt (le_ofDigitChars cs _) hbound
    rw [wordDigits, hc]
    dsimp only
    rw [if_pos ⟨rfl, hfits⟩, ih (fun d hd => h d (List.mem_cons_of_mem c hd)) hbound,
      List.length_cons]
    congr 2
    omega

theorem unsignedNumber?_toDigits (negative : Bool) {n : Nat} (h : n < word64) :
    unsignedNumber? negative (Nat.toDigits 10 n) = some (wholeNumber negative n, []) := by
  have hfits : Nat.ofDigitChars 10 (Nat.toDigits 10 n) 0 < word64 := by
    rwa [Nat.ofDigitChars_ten_toDigits]
  have hdigits := wordDigits_of_isDigit (fun _ => isDigit_of_mem_toDigits) hfits 0
  have hpos : 0 < (Nat.toDigits 10 n).length := Nat.length_toDigits_pos
  have hzero : ¬ ((Nat.toDigits 10 n).head? = some '0' ∧
      1 < 0 + (Nat.toDigits 10 n).length + 0) := by
    rintro ⟨hhead, hlen⟩
    by_cases hn : n = 0
    · rw [hn, Nat.toDigits_zero] at hlen
      exact absurd hlen (by decide)
    · exact head?_toDigits_ne_zero hn hhead
  rw [unsignedNumber?, hdigits, Nat.ofDigitChars_ten_toDigits]
  dsimp only
  rw [if_neg (by omega), if_neg hzero]
  rfl

/-! ## 5. Numbers with a fraction -/

/-- The characters of written numbers. -/
def IsNumberChar (c : Char) : Prop := c.isDigit = true ∨ c ∈ ['.', 'e', '+', '-']

theorem IsNumberChar.not_isBlank {c : Char} (h : IsNumberChar c) : isBlank c = false := by
  rcases h with h | h
  · exact not_isBlank_of_isDigit h
  · have hall : (['.', 'e', '+', '-'].all fun d => !isBlank d) = true := by decide
    have hc := List.all_eq_true.1 hall c h
    rwa [Bool.not_eq_true'] at hc

theorem isNumberChar_toDigits {n : Nat} {c : Char} (h : c ∈ Nat.toDigits 10 n) : IsNumberChar c :=
  .inl (isDigit_of_mem_toDigits h)

theorem isNumberChar_replicate {n : Nat} {c : Char} (h : c ∈ List.replicate n '0') :
    IsNumberChar c := by
  rw [(List.mem_replicate.1 h).2]
  exact .inl (by decide)

theorem isNumberChar_intChars {plus : List Char} (hplus : ∀ c ∈ plus, IsNumberChar c) {i : Int}
    {c : Char} (h : c ∈ Decimal.intChars plus i) : IsNumberChar c := by
  rw [Decimal.intChars, List.mem_append] at h
  rcases h with h | h
  · split at h
    · exact .inr (by rw [List.mem_singleton.1 h]; decide)
    · exact hplus c h
  · exact isNumberChar_toDigits h

theorem isNumberChar_render {d : Decimal} {c : Char} (h : c ∈ numberLayout.render d) :
    IsNumberChar c := by
  have hdigits {c : Char} (h : c ∈ Decimal.digitChars d.digits) : IsNumberChar c :=
    isNumberChar_toDigits h
  have hzero : IsNumberChar '0' := .inl (by decide)
  have hpoint : IsNumberChar '.' := .inr (by decide)
  have he : IsNumberChar 'e' := .inr (by decide)
  have hplus : ∀ c ∈ ['+'], IsNumberChar c := fun c hc => by
    rw [List.mem_singleton.1 hc]
    exact .inr (by decide)
  have hend : ∀ c ∈ ['.', '0'], IsNumberChar c := fun c hc => by
    rcases List.mem_cons.1 hc with rfl | hc
    · exact hpoint
    · rw [List.mem_singleton.1 hc]
      exact hzero
  -- the cases are those of the layout
  rw [Decimal.Layout.render] at h
  split at h
  · rcases List.mem_cons.1 h with rfl | h
    · exact hzero
    · exact hend c h
  · split at h
    · rcases List.mem_append.1 h with h | h
      · -- the point stands after the first digit
        split at h
        · cases h
        · rename_i hcs
          exact hdigits (by rw [hcs]; exact h)
        · rename_i hcs
          rw [hcs] at hdigits
          rcases List.mem_cons.1 h with rfl | h
          · exact hdigits List.mem_cons_self
          · rcases List.mem_cons.1 h with rfl | h
            · exact hpoint
            · exact hdigits (List.mem_cons_of_mem _ h)
      · rcases List.mem_cons.1 h with rfl | h
        · exact he
        · exact isNumberChar_intChars hplus h
    · split at h
      · rcases List.mem_append.1 h with h | h
        · rcases List.mem_append.1 h with h | h
          · exact hdigits h
          · exact isNumberChar_replicate h
        · exact hend c h
      · split at h
        · rcases List.mem_append.1 h with h | h
          · exact hdigits (List.mem_of_mem_take h)
          · rcases List.mem_cons.1 h with rfl | h
            · exact hpoint
            · exact hdigits (List.mem_of_mem_drop h)
        · rcases List.mem_append.1 h with h | h
          · rcases List.mem_cons.1 h with rfl | h
            · exact hzero
            · rcases List.mem_cons.1 h with rfl | h
              · exact hpoint
              · exact isNumberChar_replicate h
          · exact hdigits h

/-- Every layout begins with a digit. -/
theorem exists_render_eq_cons (d : Decimal) :
    ∃ c cs, numberLayout.render d = c :: cs ∧ c.isDigit = true := by
  obtain ⟨c, cs, hcs⟩ := List.exists_cons_of_ne_nil (Nat.toDigits_ne_nil (n := d.digits) (b := 10))
  have hdigits : Decimal.digitChars d.digits = c :: cs := hcs
  have hc : c.isDigit = true := isDigit_of_mem_toDigits (by rw [hcs]; exact List.mem_cons_self)
  rw [Decimal.Layout.render, hdigits]
  split
  · exact ⟨_, _, rfl, by decide⟩
  · split
    · cases cs with
      | nil => exact ⟨_, _, rfl, hc⟩
      | cons e es => exact ⟨_, _, rfl, hc⟩
    · split
      · exact ⟨_, _, rfl, hc⟩
      · split
        · rename_i hlead
          -- the point lies after at least one digit
          have htake : ∃ k, (d.power + (c :: cs).length - 1 + 1).toNat = k + 1 :=
            ⟨(d.power + (c :: cs).length - 1).toNat, by omega⟩
          obtain ⟨k, hk⟩ := htake
          rw [hk]
          exact ⟨_, _, rfl, hc⟩
        · exact ⟨_, _, rfl, by decide⟩

/-! ## 6. Strings -/

theorem hexDigit?_hexDigit : ∀ n < 16, hexDigit? (hexDigit n) = some n := by decide

theorem hexUnit?_of_lt {n : Nat} (h : n < 32) :
    hexUnit? '0' '0' (hexDigit (n / 16)) (hexDigit (n % 16)) = some n := by
  have hzero : hexDigit? '0' = some 0 := rfl
  rw [hexUnit?, hzero, hexDigit?_hexDigit _ (by omega), hexDigit?_hexDigit _ (by omega)]
  show some (((0 * 16 + 0) * 16 + n / 16) * 16 + n % 16) = some n
  congr 1
  omega

theorem eq_ofNat {c : Char} {n : Nat} (h : c.toNat = n) : c = Char.ofNat n := by
  rw [← h, Char.ofNat_toNat]

/-- A character that was escaped is read back. -/
theorem stringRest?_escapeChar (acc : List Char) (c : Char) (rest : List Char) :
    stringRest? acc (escapeChar c ++ rest) = stringRest? (c :: acc) rest := by
  rw [escapeChar]
  by_cases hquote : c = '"'
  · rw [if_pos hquote, hquote]
    rfl
  rw [if_neg hquote]
  by_cases hback : c = '\\'
  · rw [if_pos hback, hback]
    rfl
  rw [if_neg hback]
  by_cases hfeed : c = '\n'
  · rw [if_pos hfeed, hfeed]
    rfl
  rw [if_neg hfeed]
  by_cases hreturn : c = '\r'
  · rw [if_pos hreturn, hreturn]
    rfl
  rw [if_neg hreturn]
  by_cases htab : c = '\t'
  · rw [if_pos htab, htab]
    rfl
  rw [if_neg htab]
  by_cases hbackspace : c.toNat = 8
  · rw [if_pos hbackspace, eq_ofNat hbackspace]
    rfl
  rw [if_neg hbackspace]
  by_cases hform : c.toNat = 12
  · rw [if_pos hform, eq_ofNat hform]
    rfl
  rw [if_neg hform]
  by_cases hcontrol : c.toNat < 32
  · -- the number of a control character is no half of a pair
    rw [if_pos hcontrol]
    simp only [List.cons_append, List.nil_append]
    rw [stringRest?, hexUnit?_of_lt hcontrol]
    dsimp only
    rw [if_neg (by omega), if_neg (by omega), Char.ofNat_toNat]
  · rw [if_neg hcontrol, List.singleton_append, stringRest?.eq_def]
    split
    · rename_i h
      cases h
    · rename_i h
      exact absurd (List.cons.inj h).1 hquote
    · rename_i h
      exact absurd (List.cons.inj h).1 hback
    · rename_i h
      exact absurd (List.cons.inj h).1 hback
    · rename_i h
      obtain ⟨rfl, rfl⟩ := List.cons.inj h
      rw [if_neg (not_or.2 ⟨hcontrol, hback⟩)]

theorem stringRest?_flatMap (cs acc rest : List Char) :
    stringRest? acc (cs.flatMap escapeChar ++ '"' :: rest) =
      some (String.ofList (acc.reverse ++ cs), rest) := by
  induction cs generalizing acc with
  | nil => rw [List.flatMap_nil, List.nil_append, List.append_nil]; rfl
  | cons c cs ih =>
    rw [List.flatMap_cons, List.append_assoc, stringRest?_escapeChar, ih, List.reverse_cons,
      List.append_assoc, List.singleton_append]

theorem stringRest?_quoted (s : String) (rest : List Char) :
    stringRest? [] (s.toList.flatMap escapeChar ++ '"' :: rest) = some (s, rest) := by
  rw [stringRest?_flatMap, List.reverse_nil, List.nil_append, String.ofList_toList]

end CoverageLedger.Json
