import CoverageLedger.Text.Blank
import CoverageLedger.Text.Numeral
import CoverageLedger.Text.Rows

/-!
# Text that was put together

The readers of `Text` undo what the writers do: numerals, rows joined by line feeds, and chunks
joined by a separator.  A separator is found at the joints only, because no piece holds its first
two characters side by side.
-/

namespace CoverageLedger.Text

/-! ## 1. Numerals -/

theorem digit?_of_isDigit {c : Char} (h : c.isDigit = true) : digit? c = some (c.toNat - 48) := by
  have hrange : '0' ≤ c ∧ c ≤ '9' := by
    simp only [Char.isDigit, Bool.and_eq_true, decide_eq_true_eq] at h
    exact ⟨h.1, h.2⟩
  rw [digit?, if_pos hrange]
  rfl

theorem isDigit_of_mem_toDigits {n : Nat} {c : Char} (h : c ∈ Nat.toDigits 10 n) :
    c.isDigit = true :=
  Nat.isDigit_of_mem_toDigits (by decide) (by decide) h

theorem head?_toDigits_ne_zero {n : Nat} (hn : n ≠ 0) : (Nat.toDigits 10 n).head? ≠ some '0' := by
  induction n using Nat.strongRecOn with
  | _ n ih =>
    by_cases hlt : n < 10
    · rw [Nat.toDigits_of_lt_base hlt, List.head?_cons, ne_eq, Option.some.injEq,
        Nat.digitChar_eq_zero]
      exact hn
    · -- the first digit is the first one of the leading part
      have hlead := ih (n / 10) (by omega) (by omega)
      rw [Nat.toDigits_of_base_le (by decide) (by omega), List.head?_append]
      cases h : Nat.toDigits 10 (n / 10) with
      | nil => exact absurd h Nat.toDigits_ne_nil
      | cons c rest => rwa [h] at hlead

theorem digitsFrom_of_isDigit {cs : List Char} (h : ∀ c ∈ cs, c.isDigit = true) (acc : Nat) :
    digitsFrom acc cs = some (Nat.ofDigitChars 10 cs acc) := by
  induction cs generalizing acc with
  | nil => rw [digitsFrom, Nat.ofDigitChars_nil]
  | cons c rest ih =>
    have hc := digit?_of_isDigit (h c List.mem_cons_self)
    rw [digitsFrom, hc]
    simp only
    rw [ih fun d hd => h d (List.mem_cons_of_mem c hd), Nat.ofDigitChars_cons, Nat.mul_comm]
    rfl

theorem digits?_toDigits (n : Nat) : digits? (Nat.toDigits 10 n) = some n := by
  have hread := digitsFrom_of_isDigit (fun c => isDigit_of_mem_toDigits (n := n) (c := c)) 0
  rw [Nat.ofDigitChars_ten_toDigits] at hread
  rw [← hread]
  cases h : Nat.toDigits 10 n with
  | nil => exact absurd h Nat.toDigits_ne_nil
  | cons c rest => rfl

theorem isDigit_of_digit? {c : Char} {d : Nat} (h : digit? c = some d) : c.isDigit = true := by
  rw [digit?] at h
  split at h
  · rename_i hrange
    simp only [Char.isDigit, Bool.and_eq_true, decide_eq_true_eq]
    exact hrange
  · cases h

theorem isDigit_of_digitsFrom {cs : List Char} {acc n : Nat} (h : digitsFrom acc cs = some n) :
    ∀ c ∈ cs, c.isDigit = true := by
  induction cs generalizing acc with
  | nil => exact fun c hc => absurd hc List.not_mem_nil
  | cons c rest ih =>
    rw [digitsFrom] at h
    cases hd : digit? c with
    | none =>
      rw [hd] at h
      cases h
    | some d =>
      rw [hd] at h
      exact List.forall_mem_cons.2 ⟨isDigit_of_digit? hd, ih h⟩

/-- One or more decimal digits stand for a number. -/
structure IsNumeral (cs : List Char) (n : Nat) : Prop where
  ne_nil : cs ≠ []
  digits : ∀ c ∈ cs, c.isDigit = true
  value : Nat.ofDigitChars 10 cs 0 = n

theorem digits?_eq_some_iff {cs : List Char} {n : Nat} : digits? cs = some n ↔ IsNumeral cs n := by
  cases cs with
  | nil => exact ⟨nofun, fun h => absurd rfl h.ne_nil⟩
  | cons c rest =>
    constructor
    · intro h
      have hdigits := isDigit_of_digitsFrom h
      exact ⟨List.cons_ne_nil c rest, hdigits,
        Option.some.inj ((digitsFrom_of_isDigit hdigits 0).symm.trans h)⟩
    · intro h
      exact (digitsFrom_of_isDigit h.digits 0).trans (congrArg some h.value)

theorem isNumeral_toDigits (n : Nat) : IsNumeral (Nat.toDigits 10 n) n :=
  digits?_eq_some_iff.1 (digits?_toDigits n)

theorem toList_toString (n : Nat) : (toString n).toList = Nat.toDigits 10 n := by
  rw [Nat.toString_eq_repr, Nat.toList_repr]

theorem nat32?_toDigits {n : Nat} (h : n < word32) : nat32? (Nat.toDigits 10 n) = some n := by
  unfold nat32? natBelow?
  split
  · rename_i rest heq
    have hplus : ('+' : Char).isDigit = true :=
      isDigit_of_mem_toDigits (n := n) (by rw [heq]; exact List.mem_cons_self)
    exact absurd hplus (by decide)
  · rw [digits?_toDigits, Option.filter_some, if_pos (by simpa using h)]

theorem lt_word32_of_nat32? {cs : List Char} {n : Nat} (h : nat32? cs = some n) : n < word32 :=
  of_decide_eq_true (Option.filter_eq_some_iff.1 h).2

/-! ## 2. Trimming -/

theorem dropLastWhile_eq_self {α : Type} {p : α → Bool} {l : List α}
    (h : ∀ a, l.getLast? = some a → p a = false) : dropLastWhile p l = l := by
  rw [dropLastWhile]
  cases hl : l.reverse with
  | nil => rw [List.reverse_eq_nil_iff.1 hl]; rfl
  | cons a rest =>
    have hlast : l.getLast? = some a := by rw [← List.head?_reverse, hl]; rfl
    rw [List.dropWhile_cons, h a hlast]
    simp only [Bool.false_eq_true, if_false]
    rw [← hl, List.reverse_reverse]

/-- What was dropped at the end passes the test. -/
theorem exists_eq_dropLastWhile_append {α : Type} (p : α → Bool) (l : List α) :
    ∃ dropped, l = dropLastWhile p l ++ dropped ∧ ∀ a ∈ dropped, p a = true := by
  refine ⟨(l.reverse.takeWhile p).reverse, ?_, fun a ha => ?_⟩
  · rw [dropLastWhile, ← List.reverse_append, List.takeWhile_append_dropWhile, List.reverse_reverse]
  · exact List.all_eq_true.1 List.all_takeWhile a (List.mem_reverse.1 ha)

/-- A text between two characters that are no blanks has nothing to trim. -/
theorem trim_eq_self {cs : List Char} (hfirst : ∀ c, cs.head? = some c → isBlank c = false)
    (hlast : ∀ c, cs.getLast? = some c → isBlank c = false) : trim cs = cs := by
  have hstart : trimStart cs = cs := by
    rw [trimStart]
    cases cs with
    | nil => rfl
    | cons c rest =>
      rw [List.dropWhile_cons, hfirst c rfl]
      rfl
  rw [trim, hstart, trimEnd]
  exact dropLastWhile_eq_self hlast

theorem not_isBlank_of_isDigit {c : Char} (h : c.isDigit = true) : isBlank c = false := by
  have hrange : 48 ≤ c.toNat ∧ c.toNat ≤ 57 := by
    simp only [Char.isDigit, Bool.and_eq_true, decide_eq_true_eq] at h
    exact ⟨UInt32.le_iff_toNat_le.1 h.1, UInt32.le_iff_toNat_le.1 h.2⟩
  have hall : ∀ n, n ≤ 57 → 48 ≤ n → isBlank (Char.ofNat n) = false := by decide
  have hc := hall c.toNat hrange.2 hrange.1
  rwa [Char.ofNat_toNat] at hc

theorem trim_toDigits (n : Nat) : trim (Nat.toDigits 10 n) = Nat.toDigits 10 n := by
  apply trim_eq_self
  · intro c hc
    exact not_isBlank_of_isDigit (isDigit_of_mem_toDigits (List.mem_of_head? hc))
  · intro c hc
    exact not_isBlank_of_isDigit (isDigit_of_mem_toDigits (List.mem_of_getLast? hc))

/-! ## 3. Rows -/

variable {sep : Char} {piece p : List Char}

theorem splitGo_ne_nil (sep : Char) (piece cs : List Char) : splitGo sep piece cs ≠ [] := by
  induction cs generalizing piece with
  | nil => exact List.cons_ne_nil _ _
  | cons c cs ih =>
    rw [splitGo]
    split
    · exact List.cons_ne_nil _ _
    · exact ih (c :: piece)

theorem splitGo_cons_piece (h : sep ∉ p) (rest : List Char) :
    splitGo sep piece (p ++ sep :: rest) = (piece.reverse ++ p) :: splitGo sep [] rest := by
  induction p generalizing piece with
  | nil => rw [List.nil_append, splitGo, if_pos rfl, List.append_nil]
  | cons c cs ih =>
    have hc := List.ne_of_not_mem_cons h
    have hcs := List.not_mem_of_not_mem_cons h
    rw [List.cons_append, splitGo, if_neg (Ne.symm hc), ih hcs, List.reverse_cons,
      List.append_assoc, List.singleton_append]

theorem splitGo_last_piece (h : sep ∉ p) : splitGo sep piece p = [piece.reverse ++ p] := by
  induction p generalizing piece with
  | nil => rw [splitGo, List.append_nil]
  | cons c cs ih =>
    have hc := List.ne_of_not_mem_cons h
    have hcs := List.not_mem_of_not_mem_cons h
    rw [splitGo, if_neg (Ne.symm hc), ih hcs, List.reverse_cons, List.append_assoc,
      List.singleton_append]

/-- What follows a separator is split by itself. -/
theorem splitGo_append (cs rest : List Char) :
    splitGo sep piece (cs ++ sep :: rest) = splitGo sep piece cs ++ splitAt sep rest := by
  induction cs generalizing piece with
  | nil =>
    show splitGo sep piece (sep :: rest) = piece.reverse :: splitGo sep [] rest
    rw [splitGo, if_pos rfl]
  | cons c cs ih =>
    rw [List.cons_append, splitGo, splitGo, ih, ih]
    split
    · rw [List.cons_append]
    · rfl

theorem splitAt_append (sep : Char) (cs rest : List Char) :
    splitAt sep (cs ++ sep :: rest) = splitAt sep cs ++ splitAt sep rest := splitGo_append cs rest

theorem splitAt_intercalate {pieces : List (List Char)} (hne : pieces ≠ [])
    (h : ∀ p ∈ pieces, sep ∉ p) : splitAt sep ([sep].intercalate pieces) = pieces := by
  rw [splitAt]
  induction pieces with
  | nil => exact absurd rfl hne
  | cons p rest ih =>
    have hp := h p List.mem_cons_self
    cases rest with
    | nil => rw [List.intercalate_singleton, splitGo_last_piece hp]; rfl
    | cons q others =>
      rw [List.intercalate_cons_cons, List.append_assoc, List.singleton_append,
        splitGo_cons_piece hp, ih (by simp) fun r hr => h r (List.mem_cons_of_mem p hr)]
      rfl

theorem dropReturn_eq_self (h : p.getLast? ≠ some '\r') : dropReturn p = p := if_neg h

/-- What a text begins with is still there without a carriage return at the end. -/
theorem prefix_dropReturn {start : List Char} (hstart : start.getLast? ≠ some '\r')
    (h : start <+: p) : start <+: dropReturn p := by
  rw [dropReturn]
  split
  · rename_i hlast
    obtain ⟨tail, rfl⟩ := h
    cases tail with
    | nil =>
      rw [List.append_nil] at hlast
      exact absurd hlast hstart
    | cons c cs =>
      rw [List.dropLast_append_of_ne_nil (List.cons_ne_nil c cs)]
      exact List.prefix_append _ _
  · exact h

theorem rowsOfPieces_eq_self {pieces : List (List Char)} (h : ∀ p ∈ pieces, '\r' ∉ p)
    (hlast : pieces.getLast? ≠ some []) : rowsOfPieces pieces = pieces := by
  induction pieces with
  | nil => rfl
  | cons p rest ih =>
    have hp := h p List.mem_cons_self
    cases rest with
    | nil =>
      have hne : p.isEmpty = false := by
        rw [List.isEmpty_eq_false_iff]
        rintro rfl
        exact hlast rfl
      rw [rowsOfPieces, hne]
      rfl
    | cons q others =>
      have hkeep := dropReturn_eq_self fun hr => hp (List.mem_of_getLast? hr)
      rw [rowsOfPieces, hkeep, ih (fun r hr => h r (List.mem_cons_of_mem p hr))]
      · rwa [List.getLast?_cons_cons] at hlast
      · exact List.cons_ne_nil q others

/-- The rows that were joined, when none holds a line end and the last is not empty. -/
theorem rows_intercalate {pieces : List (List Char)} (hne : pieces ≠ [])
    (h : ∀ p ∈ pieces, '\n' ∉ p ∧ '\r' ∉ p) (hlast : pieces.getLast? ≠ some []) :
    rows (['\n'].intercalate pieces) = pieces := by
  rw [rows, splitAt_intercalate hne fun p hp => (h p hp).1]
  exact rowsOfPieces_eq_self (fun p hp => (h p hp).2) hlast

/-- The rows of a text in which each row has an end: a carriage return before it belongs to it. -/
theorem rows_flatMap {pieces : List (List Char)} (h : ∀ p ∈ pieces, '\n' ∉ p) :
    rows (pieces.flatMap fun p => p ++ ['\n']) = pieces.map dropReturn := by
  rw [rows, splitAt]
  induction pieces with
  | nil => rfl
  | cons p rest ih =>
    have hrest := ih fun q hq => h q (List.mem_cons_of_mem p hq)
    rw [List.flatMap_cons, List.append_assoc, List.singleton_append,
      splitGo_cons_piece (h p List.mem_cons_self), List.map_cons, ← hrest]
    cases hsplit : splitGo '\n' [] (rest.flatMap fun p => p ++ ['\n']) with
    | nil => exact absurd hsplit (splitGo_ne_nil _ _ _)
    | cons q others => rfl

theorem afterStart_append (start rest : List Char) :
    afterStart start (start ++ rest) = some rest := by
  rw [afterStart, if_pos (List.isPrefixOf_iff_prefix.2 (List.prefix_append start rest)),
    List.drop_left]

theorem afterStart_eq_some_iff {start cs rest : List Char} :
    afterStart start cs = some rest ↔ cs = start ++ rest := by
  constructor
  · intro h
    rw [afterStart, Option.ite_none_right_eq_some, List.isPrefixOf_iff_prefix] at h
    obtain ⟨⟨more, rfl⟩, h⟩ := h
    rw [List.drop_left] at h
    rw [Option.some.inj h]
  · rintro rfl
    exact afterStart_append start rest

theorem splitOnce_append (h : sep ∉ p) (rest : List Char) :
    splitOnce sep (p ++ sep :: rest) = some (p, rest) := by
  induction p with
  | nil => rw [List.nil_append, splitOnce, if_pos rfl]
  | cons c cs ih =>
    have hc := List.ne_of_not_mem_cons h
    have hcs := List.not_mem_of_not_mem_cons h
    rw [List.cons_append, splitOnce, if_neg (Ne.symm hc), ih hcs]
    rfl

theorem splitOnce_of_not_mem (h : sep ∉ p) : splitOnce sep p = none := by
  induction p with
  | nil => rfl
  | cons c cs ih =>
    have hc := List.ne_of_not_mem_cons h
    have hcs := List.not_mem_of_not_mem_cons h
    rw [splitOnce, if_neg (Ne.symm hc), ih hcs]
    rfl

theorem splitOnce_eq_some {cs a b : List Char} (h : splitOnce sep cs = some (a, b)) :
    sep ∉ a ∧ cs = a ++ sep :: b := by
  induction cs generalizing a with
  | nil => cases h
  | cons c cs ih =>
    rw [splitOnce] at h
    split at h
    · rename_i hc
      obtain ⟨rfl, rfl⟩ := Prod.mk.inj (Option.some.inj h)
      exact ⟨List.not_mem_nil, congrArg (· :: cs) hc⟩
    · rename_i hc
      obtain ⟨⟨a', b'⟩, hsplit, heq⟩ := Option.map_eq_some_iff.1 h
      obtain ⟨rfl, rfl⟩ := Prod.mk.inj heq
      obtain ⟨hout, rfl⟩ := ih hsplit
      exact ⟨List.not_mem_cons_of_ne_of_not_mem (Ne.symm hc) hout, rfl⟩

/-- Splitting goes on after the first separator. -/
theorem splitGo_eq_splitOnce (sep : Char) (piece cs : List Char) :
    splitGo sep piece cs =
      match splitOnce sep cs with
      | none => [piece.reverse ++ cs]
      | some (a, b) => (piece.reverse ++ a) :: splitAt sep b := by
  induction cs generalizing piece with
  | nil => rw [splitGo, splitOnce, List.append_nil]
  | cons c cs ih =>
    rw [splitGo, splitOnce]
    by_cases hc : c = sep
    · rw [if_pos hc, if_pos hc]
      dsimp only
      rw [List.append_nil, splitAt]
    · rw [if_neg hc, if_neg hc, ih]
      cases splitOnce sep cs with
      | none =>
        simp only [Option.map_none, List.reverse_cons, List.append_assoc, List.singleton_append]
      | some ab =>
        simp only [Option.map_some, List.reverse_cons, List.append_assoc, List.singleton_append]

theorem splitAt_eq_splitOnce (sep : Char) (cs : List Char) :
    splitAt sep cs =
      match splitOnce sep cs with
      | none => [cs]
      | some (a, b) => a :: splitAt sep b :=
  splitGo_eq_splitOnce sep [] cs

/-! ## 4. Chunks -/

section splitText

variable {a b : Char} {more : List Char}

theorem splitTextGo_skip (sep piece l rest : List Char) :
    splitTextGo sep piece l.length (l ++ rest) = splitTextGo sep piece 0 rest := by
  induction l with
  | nil => rfl
  | cons c cs ih => rw [List.length_cons, List.cons_append, splitTextGo, ih]

/-- The first two characters of a separator do not stand at a place of a piece, nor at its end,
where the next character is the first of a separator. -/
theorem not_isPrefixOf_of_not_infix {c : Char} {cs rest : List Char} (hab : a ≠ b)
    (h : ¬ [a, b] <:+: c :: cs) (hnext : rest = [] ∨ rest.head? = some a) :
    (a :: b :: more).isPrefixOf (c :: (cs ++ rest)) = false := by
  rw [Bool.eq_false_iff]
  intro hpre
  obtain ⟨hc, hcs⟩ := List.cons_prefix_cons.1 (List.isPrefixOf_iff_prefix.1 hpre)
  subst hc
  cases cs with
  | cons d ds =>
    obtain ⟨rfl, -⟩ := List.cons_prefix_cons.1 hcs
    exact h ⟨[], ds, rfl⟩
  | nil =>
    rcases hnext with rfl | hrest
    · exact absurd (List.prefix_nil.1 hcs) (List.cons_ne_nil _ _)
    · cases rest with
      | nil => cases hrest
      | cons d ds =>
        obtain ⟨rfl, -⟩ := List.cons_prefix_cons.1 hcs
        exact hab (Option.some.inj hrest).symm

theorem splitTextGo_piece (hab : a ≠ b) (h : ¬ [a, b] <:+: p) {rest : List Char}
    (hnext : rest = [] ∨ rest.head? = some a) :
    splitTextGo (a :: b :: more) piece 0 (p ++ rest) =
      splitTextGo (a :: b :: more) (p.reverse ++ piece) 0 rest := by
  induction p generalizing piece with
  | nil => rfl
  | cons c cs ih =>
    have hcs : ¬ [a, b] <:+: cs := fun hin => h (List.infix_cons hin)
    rw [List.cons_append, splitTextGo, not_isPrefixOf_of_not_infix hab h hnext]
    simp only [Bool.false_eq_true, if_false]
    rw [ih hcs, List.reverse_cons, List.append_assoc, List.singleton_append]

theorem splitText_intercalate (hab : a ≠ b) {pieces : List (List Char)} (hne : pieces ≠ [])
    (h : ∀ p ∈ pieces, ¬ [a, b] <:+: p) :
    splitText (a :: b :: more) ((a :: b :: more).intercalate pieces) = pieces := by
  rw [splitText]
  induction pieces with
  | nil => exact absurd rfl hne
  | cons p rest ih =>
    have hp := h p List.mem_cons_self
    cases rest with
    | nil =>
      have hone : splitTextGo (a :: b :: more) [] 0 (p ++ []) =
          splitTextGo (a :: b :: more) (p.reverse ++ []) 0 [] :=
        splitTextGo_piece hab hp (.inl rfl)
      rw [List.append_nil] at hone
      rw [List.intercalate_singleton, hone, splitTextGo, List.append_nil, List.reverse_reverse]
    | cons q others =>
      have hmark : (a :: b :: more).isPrefixOf
          (a :: (b :: more ++ (a :: b :: more).intercalate (q :: others))) = true := by
        rw [List.isPrefixOf_iff_prefix]
        exact ⟨_, rfl⟩
      -- the rest of the separator is passed over
      have hskip := splitTextGo_skip (a :: b :: more) [] (b :: more)
        ((a :: b :: more).intercalate (q :: others))
      rw [List.intercalate_cons_cons, List.append_assoc,
        splitTextGo_piece hab hp (.inr rfl), List.append_nil, List.cons_append, splitTextGo, hmark]
      simp only [if_true, List.reverse_reverse]
      rw [show (a :: b :: more).length - 1 = (b :: more).length from rfl, hskip,
        ih (by simp) fun r hr => h r (List.mem_cons_of_mem p hr)]

/-- In joined rows, a line feed stands before a certain character only if a row begins with it. -/
theorem not_infix_intercalate (hab : a ≠ b) {p : List Char} {rows : List (List Char)}
    (hp : a ∉ p) (h : ∀ q ∈ rows, a ∉ q ∧ q.head? ≠ some b) :
    ¬ [a, b] <:+: [a].intercalate (p :: rows) := by
  -- a piece without the first character cannot hold the beginning of the pair
  have hpiece {q rest : List Char} (hq : a ∉ q) (hin : [a, b] <:+: q ++ rest) :
      [a, b] <:+: rest := by
    induction q with
    | nil => exact hin
    | cons c cs ih =>
      have hc := List.ne_of_not_mem_cons hq
      have hcs := List.not_mem_of_not_mem_cons hq
      rcases List.infix_cons_iff.1 hin with hpre | hin
      · exact absurd (List.cons_prefix_cons.1 hpre).1 hc
      · exact ih hcs hin
  induction rows generalizing p with
  | nil =>
    rw [List.intercalate_singleton]
    intro hin
    exact hp (hin.subset List.mem_cons_self)
  | cons q others ih =>
    obtain ⟨hq, hhead⟩ := h q List.mem_cons_self
    rw [List.intercalate_cons_cons, List.append_assoc, List.singleton_append]
    intro hin
    rcases List.infix_cons_iff.1 (hpiece hp hin) with hpre | hin
    · -- the row after the line feed begins with the second character
      obtain ⟨t, ht⟩ := (List.cons_prefix_cons.1 hpre).2
      cases q with
      | cons d ds =>
        cases others with
        | nil =>
          rw [List.intercalate_singleton] at ht
          exact hhead (congrArg List.head? ht.symm)
        | cons r more =>
          rw [List.intercalate_cons_cons] at ht
          exact hhead (congrArg List.head? ht.symm)
      | nil =>
        cases others with
        | nil => cases ht
        | cons r more =>
          rw [List.intercalate_cons_cons] at ht
          exact hab (congrArg List.head? ht |> Option.some.inj |>.symm)
    · exact ih hq (fun r hr => h r (List.mem_cons_of_mem q hr)) hin

end splitText

/-! ## 5. Joining what was split -/

theorem intercalate_concat {α : Type} (sep : List α) {pieces : List (List α)} (hne : pieces ≠ [])
    (last : List α) :
    sep.intercalate (pieces ++ [last]) = sep.intercalate pieces ++ sep ++ last := by
  induction pieces with
  | nil => exact absurd rfl hne
  | cons p rest ih =>
    cases rest with
    | nil =>
      rw [List.singleton_append, List.intercalate_cons_cons, List.intercalate_singleton,
        List.intercalate_singleton]
    | cons q others =>
      rw [List.cons_append, List.intercalate_cons_of_ne_nil (by simp), ih (by simp),
        List.intercalate_cons_cons]
      simp only [List.append_assoc]

theorem splitTextGo_ne_nil (sep piece : List Char) (skip : Nat) (cs : List Char) :
    splitTextGo sep piece skip cs ≠ [] := by
  induction cs generalizing piece skip with
  | nil => exact List.cons_ne_nil _ _
  | cons c cs ih =>
    cases skip with
    | succ n => exact ih piece n
    | zero =>
      rw [splitTextGo]
      split
      · exact List.cons_ne_nil _ _
      · exact ih (c :: piece) 0

theorem splitText_ne_nil (sep cs : List Char) : splitText sep cs ≠ [] :=
  splitTextGo_ne_nil sep [] 0 cs

theorem intercalate_splitTextGo {sep : List Char} (hsep : sep ≠ []) (piece : List Char)
    (skip : Nat) (cs : List Char) :
    sep.intercalate (splitTextGo sep piece skip cs) = piece.reverse ++ cs.drop skip := by
  induction cs generalizing piece skip with
  | nil => rw [splitTextGo, List.intercalate_singleton, List.drop_nil, List.append_nil]
  | cons c cs ih =>
    cases skip with
    | succ n => rw [splitTextGo, ih, List.drop_succ_cons]
    | zero =>
      rw [splitTextGo]
      split
      · rename_i hprefix
        obtain ⟨rest, hrest⟩ := List.isPrefixOf_iff_prefix.1 hprefix
        -- the separator has a first character, which is the present one
        have hdrop : cs.drop (sep.length - 1) = rest := by
          cases sep with
          | nil => exact absurd rfl hsep
          | cons a more =>
            obtain ⟨-, rfl⟩ := List.cons.inj hrest
            exact List.drop_left
        rw [List.intercalate_cons_of_ne_nil (splitTextGo_ne_nil _ _ _ _), ih, hdrop, List.drop_zero,
          ← hrest, List.append_assoc]
        rfl
      · rw [ih, List.reverse_cons, List.append_assoc]
        rfl

/-- **The pieces of a text, joined again, are the text**, wherever separators stand in it. -/
theorem intercalate_splitText {sep : List Char} (hsep : sep ≠ []) (cs : List Char) :
    sep.intercalate (splitText sep cs) = cs :=
  intercalate_splitTextGo hsep [] 0 cs

end CoverageLedger.Text
