import CoverageLedger.Decimal.Reader
import CoverageLedger.Proofs.Decimal.Rounding
import CoverageLedger.Proofs.Json.Scalars

/-!
# Written numbers read back

The decimal with the fewest digits is read as the number that it was made from, and a decimal that
is written out is read as that decimal, with an exponent or without one.  So every finite number
reads back from its text as itself (`read?_floatChars`), and two numbers with one text are one
number.

The reader never forms a power of ten beyond the range of the format.  What it gives there at once
is what rounding the quotient would give (`ofDecimal_eq`), so decimals can be compared as quotients
everywhere else.
-/

namespace CoverageLedger.Decimal

open Binary64 Text

/-! ## 1. Decimals as quotients -/

/-- The value of a decimal as a quotient. -/
def ratio (d : Decimal) : Nat × Nat :=
  if 0 ≤ d.power then (d.digits * 10 ^ d.power.toNat, 1) else (d.digits, 10 ^ (-d.power).toNat)

theorem ratio_pos (d : Decimal) : 0 < d.ratio.2 := by
  unfold ratio
  split
  · exact Nat.one_pos
  · exact Nat.pow_pos (by decide)

variable {negative : Bool} {x : Binary64}

/-- A quotient of at least 10^400 is rounded to infinity. -/
theorem ofRatio_huge {num den p : Nat} (hp : 400 ≤ p) (hden : 0 < den) (h : 10 ^ p * den ≤ num) :
    ofRatio negative num den = infinity negative := by
  have hmost : (ofRatio false (10 ^ 400) 1).rank = infiniteRank := by decide +kernel
  have hpow {k : Nat} (hk : k ≤ p) : 10 ^ k * 1 ≤ 10 ^ p * 1 :=
    Nat.mul_le_mul_right 1 (Nat.pow_le_pow_right (by decide) hk)
  have hmono : (ofRatio false (10 ^ 400) 1).rank ≤ (ofRatio false (10 ^ p) 1).rank :=
    rank_ofRatio_mono Nat.one_pos Nat.one_pos (hpow hp)
  have hmore : (ofRatio false (10 ^ p) 1).rank ≤ (ofRatio negative num den).rank :=
    rank_ofRatio_mono Nat.one_pos hden (by omega)
  have hleast := rank_ofRatio_le negative num den
  apply eq_of_rank
  · exact negative_ofRatio negative num den
  · show (ofRatio negative num den).rank = infiniteRank
    omega

/-- A quotient of at most 10^-400 is rounded to zero. -/
theorem ofRatio_tiny {num den p : Nat} (hp : 400 ≤ p) (hden : 0 < den) (h : num * 10 ^ p ≤ den) :
    ofRatio negative num den = ⟨negative, 0⟩ := by
  have hleast : (ofRatio false 1 (10 ^ 400)).rank = 0 := by decide +kernel
  have hpos (k : Nat) : 0 < 10 ^ k := Nat.pow_pos (by decide)
  have hpow {k : Nat} (hk : k ≤ p) : 1 * 10 ^ k ≤ 1 * 10 ^ p :=
    Nat.mul_le_mul_left 1 (Nat.pow_le_pow_right (by decide) hk)
  have hmono : (ofRatio false 1 (10 ^ p)).rank ≤ (ofRatio false 1 (10 ^ 400)).rank :=
    rank_ofRatio_mono (hpos p) (hpos 400) (hpow hp)
  have hless : (ofRatio negative num den).rank ≤ (ofRatio false 1 (10 ^ p)).rank :=
    rank_ofRatio_mono hden (hpos p) (by omega)
  apply eq_of_rank
  · exact negative_ofRatio negative num den
  · show (ofRatio negative num den).rank = 0
    omega

/-- **A decimal is read as what its quotient is rounded to**, also where its power is cut off. -/
theorem ofDecimal_eq (negative : Bool) (d : Decimal) :
    ofDecimal negative d.digits d.power = ofRatio negative d.ratio.1 d.ratio.2 := by
  obtain ⟨n, power⟩ := d
  unfold ofDecimal ratio
  dsimp only
  by_cases hzero : n = 0
  · rw [hzero, if_pos rfl]
    split
    · rw [Nat.zero_mul, ofRatio_zero]
    · rw [ofRatio_zero]
  rw [if_neg hzero]
  by_cases hhigh : 400 < power
  · have hmore : 10 ^ power.toNat * 1 ≤ n * 10 ^ power.toNat := by
      rw [Nat.mul_one]
      exact Nat.le_mul_of_pos_left _ (Nat.pos_of_ne_zero hzero)
    rw [if_pos hhigh, if_pos (by omega), ofRatio_huge (by omega) Nat.one_pos hmore]
  rw [if_neg hhigh]
  by_cases hlow : power < -(400 + (n.log2 : Int))
  · -- a number of so many bits is below the same power of ten
    obtain ⟨p, hp⟩ : ∃ p, (-power).toNat = n.log2 + 1 + p :=
      ⟨(-power).toNat - (n.log2 + 1), by omega⟩
    have hless : n * 10 ^ p ≤ 10 ^ (-power).toNat := by
      rw [hp, Nat.pow_add]
      apply Nat.mul_le_mul_right
      exact Nat.le_trans Nat.lt_log2_self.le (Nat.pow_le_pow_left (by decide) _)
    rw [if_pos hlow, if_neg (by omega), ofRatio_tiny (by omega) (Nat.pow_pos (by decide)) hless]
  -- inside the range the power of ten is formed
  rw [if_neg hlow]
  split <;> rfl

/-- Zeros at the end of the digits are powers of ten. -/
theorem ofDecimal_shift (n : Nat) (power : Int) (k : Nat) :
    ofDecimal negative (n * 10 ^ k) power = ofDecimal negative n (power + k) := by
  rw [ofDecimal_eq negative ⟨n * 10 ^ k, power⟩, ofDecimal_eq negative ⟨n, power + k⟩]
  apply ofRatio_congr (ratio_pos _) (ratio_pos _)
  unfold ratio
  dsimp only
  by_cases hplain : 0 ≤ power
  · rw [if_pos hplain, if_pos (by omega), show (power + k).toNat = k + power.toNat by omega]
    dsimp only
    rw [Nat.pow_add, Nat.mul_assoc n]
  rw [if_neg hplain]
  split
  · rename_i hwhole
    rw [Nat.mul_one, Nat.mul_assoc, ← Nat.pow_add,
      show (power + k).toNat + (-power).toNat = k by omega]
  · rename_i hfraction
    rw [Nat.mul_assoc, ← Nat.pow_add, show k + (-(power + k)).toNat = (-power).toNat by omega]

/-! ## 2. The fewest digits -/

theorem rank_ofDecimal (negative : Bool) (n : Nat) (power : Int) :
    ofDecimal negative n power = ⟨negative, (ofDecimal false n power).rank⟩ := by
  have hrank (b : Bool) : (ofRatio b (ratio ⟨n, power⟩).1 (ratio ⟨n, power⟩).2).rank =
      (ofRatio false (ratio ⟨n, power⟩).1 (ratio ⟨n, power⟩).2).rank := by
    unfold ofRatio
    split <;> rfl
  rw [ofDecimal_eq negative ⟨n, power⟩, ofDecimal_eq false ⟨n, power⟩, ← hrank negative]
  exact eq_of_rank (negative_ofRatio _ _ _) rfl

/-- All digits of a number are read as it. -/
theorem exact_reads (h : x.rank ≤ infiniteRank) :
    ofDecimal x.negative (exact x).digits (exact x).power = x := by
  rw [ofDecimal_eq]
  refine Eq.trans ?_ (ofRatio_ratio h)
  apply ofRatio_congr (ratio_pos _) (ratio_spec x).1
  unfold exact Binary64.ratio scaleBy
  by_cases hwhole : 0 ≤ x.exponent
  · rw [if_pos hwhole, if_pos hwhole]
    unfold ratio
    dsimp only
    rw [if_pos (by decide), Int.toNat_zero, Nat.pow_zero, Nat.mul_one]
  · rw [if_neg hwhole, if_neg hwhole]
    unfold ratio
    dsimp only
    rw [if_neg hwhole, Nat.one_shiftLeft, Nat.mul_assoc]
    show x.mantissa * (5 ^ (-x.exponent).toNat * 2 ^ (-x.exponent).toNat) = _
    rw [← Nat.mul_pow]

theorem searchFrom_reads {num den : Nat} {top : Int} {fuel count : Nat} {d : Decimal}
    (h : searchFrom x num den top fuel count = some d) :
    ofDecimal false d.digits d.power = x := by
  induction fuel generalizing count with
  | zero => cases h
  | succ fuel ih =>
    rw [searchFrom] at h
    split at h
    · rename_i n hfound
      obtain rfl := Option.some.inj h
      have hread := List.find?_some hfound
      exact eq_of_beq hread
    · exact ih h

theorem trimZeros_reads (negative : Bool) (fuel : Nat) (d : Decimal) :
    ofDecimal negative (trimZeros fuel d).digits (trimZeros fuel d).power =
      ofDecimal negative d.digits d.power := by
  induction fuel generalizing d with
  | zero => rfl
  | succ fuel ih =>
    rw [trimZeros]
    split
    · rename_i hzero
      have hdigits : d.digits / 10 * 10 ^ 1 = d.digits :=
        Nat.div_mul_cancel (Nat.dvd_of_mod_eq_zero hzero.2)
      rw [ih]
      dsimp only
      rw [← hdigits, ofDecimal_shift, hdigits]
      rfl
    · rfl

/-- **The fewest digits of a finite number are read as the number.** -/
theorem shortest_reads (h : x.isFinite = true) :
    ofDecimal x.negative (shortest x).digits (shortest x).power = x := by
  have hrank : x.rank ≤ infiniteRank := Nat.le_of_lt (of_decide_eq_true h)
  have hmagnitude : ofDecimal false (shortest x).digits (shortest x).power = ⟨false, x.rank⟩ := by
    have hself := ofRatio_ratio (x := ⟨false, x.rank⟩) hrank
    unfold shortest
    dsimp only
    split
    · rename_i hzero
      rw [hzero, ofRatio_zero] at hself
      rw [← hself]
      rfl
    · rw [trimZeros_reads]
      cases hsearch : searchFrom ⟨false, x.rank⟩ (Binary64.ratio ⟨false, x.rank⟩).1
          (Binary64.ratio ⟨false, x.rank⟩).2 (topPower (Binary64.ratio ⟨false, x.rank⟩).1
            (Binary64.ratio ⟨false, x.rank⟩).2) 17 1 with
      | none => exact exact_reads (x := ⟨false, x.rank⟩) hrank
      -- a decimal that the search stops at was tried out
      | some d => exact searchFrom_reads hsearch
  rw [rank_ofDecimal, hmagnitude]

/-! ## 3. Reading digits, points and exponents -/

theorem takeDigits_append {cs rest : List Char} (h : ∀ c ∈ cs, c.isDigit = true)
    (hrest : ∀ c, rest.head? = some c → digit? c = none) (acc count : Nat) :
    takeDigits acc count (cs ++ rest) = (Nat.ofDigitChars 10 cs acc, count + cs.length, rest) := by
  induction cs generalizing acc count with
  | nil =>
    cases rest with
    | nil => rfl
    | cons c rest =>
      rw [List.nil_append, takeDigits, hrest c rfl]
      rfl
  | cons c cs ih =>
    have hc := digit?_of_isDigit (h c List.mem_cons_self)
    rw [List.cons_append, takeDigits, hc]
    dsimp only
    rw [ih (fun d hd => h d (List.mem_cons_of_mem c hd)), Nat.ofDigitChars_cons, List.length_cons,
      Nat.mul_comm acc, Nat.add_right_comm]
    rfl

/-- What may stand after the digits of a number. -/
def IsEnd (rest : List Char) : Prop := rest = [] ∨ rest.head? = some 'e'

variable {whole fraction rest : List Char}

theorem IsEnd.digit? (h : IsEnd rest) : ∀ c, rest.head? = some c → digit? c = none := by
  rcases h with rfl | h
  · intro c hc
    cases hc
  · intro c hc
    rw [h] at hc
    rw [← Option.some.inj hc]
    rfl

theorem unsigned?_whole (hwhole : ∀ c ∈ whole, c.isDigit = true) (hne : whole ≠ [])
    (hend : IsEnd rest) : unsigned? negative (whole ++ rest) =
      (exponent? rest).map fun e => ofDecimal negative (Nat.ofDigitChars 10 whole 0) e := by
  have hlen : 0 < whole.length := List.length_pos_iff.2 hne
  rw [unsigned?, takeDigits_append hwhole hend.digit?]
  dsimp only
  split
  · rename_i tail
    rcases hend with hnil | hhead
    · cases hnil
    · cases hhead
  · rw [if_neg (by omega)]
    simp

theorem unsigned?_point (hwhole : ∀ c ∈ whole, c.isDigit = true) (hne : whole ≠ [])
    (hfraction : ∀ c ∈ fraction, c.isDigit = true) (hend : IsEnd rest) :
    unsigned? negative (whole ++ '.' :: (fraction ++ rest)) =
      (exponent? rest).map fun e =>
        ofDecimal negative (Nat.ofDigitChars 10 (whole ++ fraction) 0) (e - fraction.length) := by
  have hlen : 0 < whole.length := List.length_pos_iff.2 hne
  have hpoint : ∀ c, ('.' :: (fraction ++ rest)).head? = some c → Text.digit? c = none := by
    intro c hc
    rw [← Option.some.inj hc]
    rfl
  rw [unsigned?, takeDigits_append hwhole hpoint]
  simp only [takeDigits_append hfraction hend.digit?, Nat.ofDigitChars_append]
  rw [if_neg (by omega), Nat.zero_add]

/-- Digits with a point among them. -/
theorem unsigned?_plain (hwhole : ∀ c ∈ whole, c.isDigit = true) (hne : whole ≠ [])
    (hfraction : ∀ c ∈ fraction, c.isDigit = true) :
    unsigned? negative (whole ++ '.' :: fraction) =
      some (ofDecimal negative (Nat.ofDigitChars 10 (whole ++ fraction) 0)
        (-(fraction.length : Int))) := by
  have hread : unsigned? negative (whole ++ '.' :: (fraction ++ [])) = _ :=
    unsigned?_point hwhole hne hfraction (.inl rfl)
  rw [List.append_nil] at hread
  rw [hread, exponent?, Option.map_some, Int.zero_sub]

theorem exponent?_intChars (i : Int) : exponent? ('e' :: intChars ['+'] i) = some i := by
  rw [exponent?, if_pos (.inl rfl), intChars, digitChars]
  by_cases h : i < 0
  · rw [if_pos h]
    simp only [List.cons_append, List.nil_append, takeSign, digits?_toDigits]
    show some (-(i.natAbs : Int)) = some i
    rw [show -(i.natAbs : Int) = i by omega]
  · rw [if_neg h]
    simp only [List.cons_append, List.nil_append, takeSign, digits?_toDigits]
    show some (i.natAbs : Int) = some i
    rw [show (i.natAbs : Int) = i by omega]

/-! ## 4. Reading a layout -/

/-- The digits of a decimal with a point after the first one, if there are more. -/
def pointed : List Char → List Char
  | [] => []
  | [first] => [first]
  | first :: rest => first :: '.' :: rest

theorem unsigned?_pointed {cs : List Char} (hdigits : ∀ c ∈ cs, c.isDigit = true) (hne : cs ≠ [])
    (i : Int) : unsigned? negative (pointed cs ++ 'e' :: intChars ['+'] i) =
      some (ofDecimal negative (Nat.ofDigitChars 10 cs 0) (i - (cs.length - 1))) := by
  have hend : IsEnd ('e' :: intChars ['+'] i) := .inr rfl
  cases cs with
  | nil => exact absurd rfl hne
  | cons first rest =>
    have hfirst : ∀ c ∈ [first], c.isDigit = true :=
      fun c hc => hdigits c (List.mem_cons.2 (.inl (List.mem_singleton.1 hc)))
    have hrest : ∀ c ∈ rest, c.isDigit = true := fun c hc => hdigits c (List.mem_cons_of_mem _ hc)
    cases rest with
    | nil =>
      show unsigned? negative ([first] ++ 'e' :: intChars ['+'] i) = _
      rw [unsigned?_whole hfirst (List.cons_ne_nil _ _) hend, exponent?_intChars, Option.map_some]
      simp
    | cons second more =>
      show unsigned? negative ([first] ++ '.' :: (second :: more ++ 'e' :: intChars ['+'] i)) = _
      rw [unsigned?_point hfirst (List.cons_ne_nil _ _) hrest hend, exponent?_intChars,
        Option.map_some, List.singleton_append, List.length_cons (a := first)]
      congr 2
      omega

/-- **A decimal that is written out is read as that decimal.** -/
theorem unsigned?_render (negative : Bool) (d : Decimal) :
    unsigned? negative (Json.numberLayout.render d) =
      some (ofDecimal negative d.digits d.power) := by
  obtain ⟨n, power⟩ := d
  have hdigits : ∀ c ∈ Nat.toDigits 10 n, c.isDigit = true := fun _ => isDigit_of_mem_toDigits
  have hvalue : Nat.ofDigitChars 10 (Nat.toDigits 10 n) 0 = n := Nat.ofDigitChars_ten_toDigits
  have hpos : 0 < (Nat.toDigits 10 n).length := Nat.length_toDigits_pos
  have hzeros (k : Nat) : ∀ c ∈ List.replicate k '0', c.isDigit = true := by
    intro c hc
    rw [(List.mem_replicate.1 hc).2]
    rfl
  have hzero : ∀ c ∈ ['0'], c.isDigit = true := hzeros 1
  rw [Layout.render, digitChars]
  dsimp only
  by_cases hn : n = 0
  · rw [if_pos hn, hn]
    show unsigned? negative (['0'] ++ '.' :: ['0']) = _
    rw [unsigned?_plain hzero (List.cons_ne_nil _ _) hzero,
      show Nat.ofDigitChars 10 (['0'] ++ ['0']) 0 = 0 from rfl, ofDecimal, if_pos rfl, ofDecimal,
      if_pos rfl]
  rw [if_neg hn]
  generalize hlead : power + ((Nat.toDigits 10 n).length : Int) - 1 = lead
  -- the power of the last digit is read off the exponent or the number of digits after the point
  by_cases hexponent : lead < Json.numberLayout.plainFrom ∨ Json.numberLayout.plainBelow ≤ lead
  · rw [if_pos hexponent]
    show unsigned? negative (pointed (Nat.toDigits 10 n) ++ 'e' :: intChars ['+'] lead) = _
    rw [unsigned?_pointed hdigits Nat.toDigits_ne_nil, hvalue]
    congr 2
    omega
  rw [if_neg hexponent]
  by_cases hwhole : 0 ≤ power
  · rw [if_pos hwhole]
    have hall : ∀ c ∈ Nat.toDigits 10 n ++ List.replicate power.toNat '0', c.isDigit = true := by
      intro c hc
      rcases List.mem_append.1 hc with hc | hc
      · exact hdigits c hc
      · exact hzeros _ c hc
    have hne : Nat.toDigits 10 n ++ List.replicate power.toNat '0' ≠ [] := by
      intro h
      exact Nat.toDigits_ne_nil (List.append_eq_nil_iff.1 h).1
    -- the zero after the point is one more of the zeros
    have hmore : Nat.toDigits 10 n ++ List.replicate power.toNat '0' ++ ['0'] =
        Nat.toDigits 10 n ++ List.replicate (power.toNat + 1) '0' := by
      rw [List.append_assoc, List.replicate_succ']
    show unsigned? negative
      (Nat.toDigits 10 n ++ List.replicate power.toNat '0' ++ '.' :: ['0']) = _
    rw [unsigned?_plain hall hne hzero, hmore, Nat.ofDigitChars_append, hvalue,
      Nat.ofDigitChars_replicate_zero, Nat.mul_comm, ofDecimal_shift]
    congr 2
    show -((1 : Nat) : Int) + _ = power
    omega
  rw [if_neg hwhole]
  by_cases hpoint : 0 ≤ lead
  · rw [if_pos hpoint]
    have htake : ∀ c ∈ (Nat.toDigits 10 n).take (lead + 1).toNat, c.isDigit = true :=
      fun c hc => hdigits c (List.mem_of_mem_take hc)
    have hdrop : ∀ c ∈ (Nat.toDigits 10 n).drop (lead + 1).toNat, c.isDigit = true :=
      fun c hc => hdigits c (List.mem_of_mem_drop hc)
    have hne : (Nat.toDigits 10 n).take (lead + 1).toNat ≠ [] := by
      intro h
      have hlen := congrArg List.length h
      rw [List.length_take, List.length_nil] at hlen
      omega
    rw [unsigned?_plain htake hne hdrop, List.take_append_drop, hvalue, List.length_drop]
    congr 2
    omega
  · -- zeros before the digits do not count
    rw [if_neg hpoint]
    have hall : ∀ c ∈ List.replicate (-lead - 1).toNat '0' ++ Nat.toDigits 10 n,
        c.isDigit = true := by
      intro c hc
      rcases List.mem_append.1 hc with hc | hc
      · exact hzeros _ c hc
      · exact hdigits c hc
    show unsigned? negative
      (['0'] ++ '.' :: (List.replicate (-lead - 1).toNat '0' ++ Nat.toDigits 10 n)) = _
    rw [unsigned?_plain hzero (List.cons_ne_nil _ _) hall, Nat.ofDigitChars_append,
      Nat.ofDigitChars_append, show Nat.ofDigitChars 10 ['0'] 0 = 0 from rfl,
      Nat.ofDigitChars_replicate_zero, Nat.mul_zero, hvalue, List.length_append,
      List.length_replicate]
    congr 2
    omega

/-! ## 5. Numbers -/

theorem takeSign_of_isDigit {c : Char} (hc : c.isDigit = true) (cs : List Char) :
    takeSign (c :: cs) = (false, c :: cs) := by
  unfold takeSign
  split
  · rename_i heq
    rw [(List.cons.inj heq).1] at hc
    cases hc
  · rename_i heq
    rw [(List.cons.inj heq).1] at hc
    cases hc
  · rfl

/-- **A finite number reads back from its text.** -/
theorem read?_floatChars (h : x.isFinite = true) : read? (Json.floatChars x) = some x := by
  obtain ⟨c, cs, hcs, hc⟩ := Json.exists_render_eq_cons (shortest x)
  have hread := unsigned?_render x.negative (shortest x)
  rw [shortest_reads h] at hread
  rw [Json.floatChars, if_pos h]
  cases hsign : x.negative with
  | true =>
    rw [hsign] at hread
    exact hread
  | false =>
    rw [hsign, hcs] at hread
    rw [if_neg (by decide), List.nil_append, hcs, read?, takeSign_of_isDigit hc]
    exact hread

theorem ofDecimal_zero (negative : Bool) (n : Nat) :
    ofDecimal negative n 0 = ofRatio negative n 1 := by
  rw [ofDecimal_eq negative ⟨n, 0⟩]
  show ofRatio negative (n * 1) 1 = _
  rw [Nat.mul_one]

theorem read?_toDigits (n : Nat) : read? (Nat.toDigits 10 n) = some (.ofNat n) := by
  have hdigits : ∀ c ∈ Nat.toDigits 10 n, c.isDigit = true := fun _ => isDigit_of_mem_toDigits
  have hread : unsigned? false (Nat.toDigits 10 n ++ []) = some (.ofNat n) := by
    rw [unsigned?_whole hdigits Nat.toDigits_ne_nil (.inl rfl), exponent?, Option.map_some,
      Nat.ofDigitChars_ten_toDigits, ofDecimal_zero, Binary64.ofNat]
  rw [List.append_nil] at hread
  obtain ⟨c, cs, hcs⟩ := List.exists_cons_of_ne_nil (Nat.toDigits_ne_nil (n := n) (b := 10))
  rw [hcs] at hdigits hread ⊢
  rw [read?, takeSign_of_isDigit (hdigits c List.mem_cons_self)]
  exact hread

end CoverageLedger.Decimal
