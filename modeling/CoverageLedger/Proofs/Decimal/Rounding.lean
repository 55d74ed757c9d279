import CoverageLedger.Proofs.Decimal.Binary64
import Mathlib.Tactic.Ring

/-!
# Rounding keeps the order

A greater quotient is never rounded to a smaller number, and a number of a higher rank has a greater
value.  So bounds on a quotient that are numbers themselves are bounds on what it is rounded to,
what a quotient is rounded to does not depend on how it is written, and a number is what its own
value is rounded to.
-/

namespace CoverageLedger.Binary64

/-! ## 1. Whole quotients -/

/-- The rounded quotient is no farther off than a half, and even where it is as far off. -/
theorem roundDiv_spec (n : Nat) {d : Nat} (hd : 0 < d) :
    2 * (roundDiv n d * d) ≤ 2 * n + d ∧ 2 * n ≤ 2 * (roundDiv n d * d) + d ∧
      (2 * (roundDiv n d * d) = 2 * n + d ∨ 2 * n = 2 * (roundDiv n d * d) + d →
        roundDiv n d % 2 = 0) := by
  have hdiv := Nat.div_add_mod n d
  have hmod := Nat.mod_lt n hd
  have hnext : (n / d + 1) * d = d * (n / d) + d := by ring
  unfold roundDiv
  dsimp only
  split
  · rw [Nat.mul_comm (n / d)]
    omega
  · split
    · rw [hnext]
      omega
    · split
      · rw [Nat.mul_comm (n / d)]
        omega
      · rw [hnext]
        omega

theorem roundDiv_mono {n d n' d' : Nat} (hd : 0 < d) (hd' : 0 < d') (h : n * d' ≤ n' * d) :
    roundDiv n d ≤ roundDiv n' d' := by
  by_contra hless
  obtain ⟨hlow, -, heven⟩ := roundDiv_spec n hd
  obtain ⟨-, hhigh, heven'⟩ := roundDiv_spec n' hd'
  generalize roundDiv n d = q at *
  generalize roundDiv n' d' = q' at *
  have hlow' : 2 * (q * (d * d')) ≤ 2 * (n * d') + d * d' := by
    calc 2 * (q * (d * d')) = 2 * (q * d) * d' := by ring
      _ ≤ (2 * n + d) * d' := Nat.mul_le_mul_right d' hlow
      _ = 2 * (n * d') + d * d' := by ring
  have hhigh' : 2 * (n' * d) ≤ 2 * (q' * (d * d')) + d * d' := by
    calc 2 * (n' * d) = 2 * n' * d := by ring
      _ ≤ (2 * (q' * d') + d') * d := Nat.mul_le_mul_right d hhigh
      _ = 2 * (q' * (d * d')) + d * d' := by ring
  have hpos : 0 < d * d' := Nat.mul_pos hd hd'
  have hnext : q' * (d * d') + d * d' ≤ q * (d * d') := by
    rw [← Nat.succ_mul]
    exact Nat.mul_le_mul_right _ (by omega)
  -- both quotients lie halfway between two neighbours, of which only one is even
  have hq : q = q' + 1 := by
    refine Nat.eq_of_mul_eq_mul_right hpos ?_
    rw [Nat.succ_mul]
    omega
  have htie : 2 * (q * d) = 2 * n + d := by
    refine Nat.eq_of_mul_eq_mul_right hd' ?_
    calc 2 * (q * d) * d' = 2 * (q * (d * d')) := by ring
      _ = 2 * (n * d') + d * d' := by omega
      _ = (2 * n + d) * d' := by ring
  have htie' : 2 * n' = 2 * (q' * d') + d' := by
    refine Nat.eq_of_mul_eq_mul_right hd ?_
    calc 2 * n' * d = 2 * (n' * d) := by ring
      _ = 2 * (q' * (d * d')) + d * d' := by omega
      _ = (2 * (q' * d') + d') * d := by ring
  have hparity := heven (.inl htie)
  have hparity' := heven' (.inr htie')
  omega

theorem roundDiv_mul (m : Nat) {d : Nat} (hd : 0 < d) : roundDiv (m * d) d = m := by
  unfold roundDiv
  dsimp only
  rw [Nat.mul_mod_left, Nat.mul_div_cancel m hd, if_pos hd]

/-- What a quotient is rounded to does not depend on how it is written. -/
theorem roundDiv_congr {n d n' d' : Nat} (hd : 0 < d) (hd' : 0 < d') (h : n * d' = n' * d) :
    roundDiv n d = roundDiv n' d' :=
  Nat.le_antisymm (roundDiv_mono hd hd' h.le) (roundDiv_mono hd' hd h.ge)

/-! ## 2. The step about a quotient -/

/-- How often the smallest number goes into one. -/
def unitsOfOne : Nat := 2 ^ 1074

theorem unitsOfOne_pos : 0 < unitsOfOne := by
  unfold unitsOfOne
  apply Nat.pow_pos
  decide

theorem unitsOfOne_eq {s : Nat} (h : s ≤ 1074) : unitsOfOne = 2 ^ (1074 - s) * 2 ^ s := by
  rw [← Nat.pow_add, Nat.sub_add_cancel h]
  rfl

/-- The power of two below a positive quotient. -/
theorem floorLog2_spec {num den : Nat} (hnum : num ≠ 0) (hden : 0 < den) :
    ∃ a b : Nat, floorLog2 num den = (a : Int) - b ∧ den * 2 ^ a ≤ num * 2 ^ b ∧
      num * 2 ^ b < den * 2 ^ (a + 1) := by
  have hdenlow : 2 ^ den.log2 ≤ den := Nat.log2_self_le (by omega)
  have hdenhigh : den < 2 ^ (den.log2 + 1) := Nat.lt_log2_self
  have hnumlow : 2 ^ num.log2 ≤ num := Nat.log2_self_le hnum
  have hnumhigh : num < 2 ^ (num.log2 + 1) := Nat.lt_log2_self
  unfold floorLog2
  generalize num.log2 = a at hnumlow hnumhigh ⊢
  generalize den.log2 = b at hdenlow hdenhigh ⊢
  -- with both sides moved up, the guess is compared in one way whatever its sign
  have hreached : (if 0 ≤ (a : Int) - b then decide (den <<< ((a : Int) - b).toNat ≤ num)
      else decide (den ≤ num <<< (-((a : Int) - b)).toNat)) =
      decide (den * 2 ^ a ≤ num * 2 ^ b) := by
    split
    · obtain ⟨g, rfl⟩ : ∃ g : Nat, a = g + b := ⟨a - b, by omega⟩
      rw [show ((g + b : Nat) : Int) - b = g by omega, Int.toNat_natCast, Nat.shiftLeft_eq,
        decide_eq_decide, Nat.pow_add, ← Nat.mul_assoc]
      exact (Nat.mul_le_mul_right_iff (Nat.two_pow_pos b)).symm
    · obtain ⟨g, rfl⟩ : ∃ g : Nat, b = g + a := ⟨b - a, by omega⟩
      rw [show -((a : Int) - ((g + a : Nat) : Int)) = g by omega, Int.toNat_natCast,
        Nat.shiftLeft_eq, decide_eq_decide, Nat.pow_add, ← Nat.mul_assoc]
      exact (Nat.mul_le_mul_right_iff (Nat.two_pow_pos a)).symm
  simp only [hreached, decide_eq_true_eq]
  split
  · rename_i hle
    refine ⟨a, b, rfl, hle, ?_⟩
    calc num * 2 ^ b < 2 ^ (a + 1) * 2 ^ b :=
          Nat.mul_lt_mul_of_pos_right hnumhigh (Nat.two_pow_pos b)
      _ = 2 ^ b * 2 ^ (a + 1) := Nat.mul_comm _ _
      _ ≤ den * 2 ^ (a + 1) := Nat.mul_le_mul_right _ hdenlow
  · rename_i hless
    refine ⟨a, b + 1, by omega, ?_, ?_⟩
    · calc den * 2 ^ a ≤ 2 ^ (b + 1) * 2 ^ a := Nat.mul_le_mul_right _ hdenhigh.le
        _ = 2 ^ a * 2 ^ (b + 1) := Nat.mul_comm _ _
        _ ≤ num * 2 ^ (b + 1) := Nat.mul_le_mul_right _ hnumlow
    · have hpow : num * 2 ^ (b + 1) = 2 * (num * 2 ^ b) := by ring
      have hpow' : den * 2 ^ (a + 1) = 2 * (den * 2 ^ a) := by ring
      omega

/-- Numbers about a quotient are two to the power `s` apart, in units of the smallest number: it has
53 bits in such steps, or no more than that when the steps are the smallest. -/
structure Step (num den s : Nat) : Prop where
  low : s = 0 ∨ den * 2 ^ (s + 52) ≤ num * unitsOfOne
  high : num * unitsOfOne < den * 2 ^ (s + 53)

section Step

variable {num den num' den' s s' : Nat}

/-- About a greater quotient the steps are no smaller. -/
theorem Step.le (h : Step num den s) (h' : Step num' den' s') (hden : 0 < den)
    (hle : num * den' ≤ num' * den) : s ≤ s' := by
  rcases h.low with hzero | hlow
  · omega
  · -- 53 bits in smaller steps would be less than the 53 bits that the smaller quotient has
    by_contra hless
    have hcontra : num' * unitsOfOne * den < num' * unitsOfOne * den := by
      calc num' * unitsOfOne * den < den' * 2 ^ (s' + 53) * den :=
            Nat.mul_lt_mul_of_pos_right h'.high hden
        _ ≤ den' * 2 ^ (s + 52) * den := by
            apply Nat.mul_le_mul_right
            apply Nat.mul_le_mul_left
            exact Nat.pow_le_pow_right (by decide) (by omega)
        _ = den * 2 ^ (s + 52) * den' := by ring
        _ ≤ num * unitsOfOne * den' := Nat.mul_le_mul_right _ hlow
        _ = num * den' * unitsOfOne := by ring
        _ ≤ num' * den * unitsOfOne := Nat.mul_le_mul_right _ hle
        _ = num' * unitsOfOne * den := by ring
    omega

theorem Step.unique (h : Step num den s) (h' : Step num den s') (hden : 0 < den) : s = s' :=
  Nat.le_antisymm (h.le h' hden le_rfl) (h'.le h hden le_rfl)

/-- A quotient is at most 2^53 steps, and no less than half of that unless the steps are the
smallest. -/
theorem Step.roundDiv_le (h : Step num den s) (hden : 0 < den) :
    roundDiv (num * unitsOfOne) (den * 2 ^ s) ≤ 2 * ranksPerExponent := by
  have hpos : 0 < den * 2 ^ s := Nat.mul_pos hden (Nat.two_pow_pos s)
  rw [← roundDiv_one (2 * ranksPerExponent)]
  apply roundDiv_mono hpos Nat.one_pos
  calc num * unitsOfOne * 1 ≤ den * 2 ^ (s + 53) := by
        rw [Nat.mul_one]
        exact h.high.le
    _ = 2 ^ 53 * (den * 2 ^ s) := by ring

theorem Step.le_roundDiv (h : Step num den s) (hden : 0 < den) (hs : s ≠ 0) :
    ranksPerExponent ≤ roundDiv (num * unitsOfOne) (den * 2 ^ s) := by
  have hpos : 0 < den * 2 ^ s := Nat.mul_pos hden (Nat.two_pow_pos s)
  rw [← roundDiv_one ranksPerExponent]
  apply roundDiv_mono Nat.one_pos hpos
  calc 2 ^ 52 * (den * 2 ^ s) = den * 2 ^ (s + 52) := by ring
    _ ≤ num * unitsOfOne := h.low.resolve_left hs
    _ = num * unitsOfOne * 1 := (Nat.mul_one _).symm

theorem roundDiv_scaleBy (num : Nat) (hden : 0 < den) (s : Nat) :
    roundDiv (scaleBy num den (-((s : Int) - 1074))).1 (scaleBy num den (-((s : Int) - 1074))).2 =
      roundDiv (num * unitsOfOne) (den * 2 ^ s) := by
  have hpow : 0 < 2 ^ s := Nat.two_pow_pos s
  unfold scaleBy
  by_cases hs : s ≤ 1074
  · rw [if_pos (by omega), show (-((s : Int) - 1074)).toNat = 1074 - s by omega, Nat.shiftLeft_eq]
    apply roundDiv_congr hden (Nat.mul_pos hden hpow)
    rw [unitsOfOne_eq hs]
    ring
  · have hpast : 2 ^ s = 2 ^ (s - 1074) * unitsOfOne := by
      rw [unitsOfOne, ← Nat.pow_add, Nat.sub_add_cancel (by omega)]
    rw [if_neg (by omega), show (- -((s : Int) - 1074)).toNat = s - 1074 by omega, Nat.shiftLeft_eq]
    apply roundDiv_congr (Nat.mul_pos hden (Nat.two_pow_pos _)) (Nat.mul_pos hden hpow)
    rw [hpast]
    ring

/-- A positive quotient is rounded to whole steps. -/
theorem exists_step (hnum : num ≠ 0) (hden : 0 < den) :
    ∃ s, Step num den s ∧ ∀ negative, (ofRatio negative num den).rank =
      min (s * ranksPerExponent + roundDiv (num * unitsOfOne) (den * 2 ^ s)) infiniteRank := by
  obtain ⟨a, b, hlog, hlow, hhigh⟩ := floorLog2_spec hnum hden
  have hpow : 0 < 2 ^ b := Nat.two_pow_pos b
  obtain ⟨s, hs⟩ : ∃ s : Nat, max (floorLog2 num den - 52) leastExponent = (s : Int) - 1074 := by
    refine ⟨(max (floorLog2 num den - 52) leastExponent + 1074).toNat, ?_⟩
    unfold leastExponent
    omega
  have hplace : max ((a : Int) - b - 52) (-1074) = (s : Int) - 1074 := by
    rw [← hlog, ← hs, leastExponent]
  -- both bounds are those of the power of two below the quotient, moved by 52 places
  refine ⟨s, ⟨?_, ?_⟩, fun negative => ?_⟩
  · by_cases hzero : s = 0
    · exact .inl hzero
    · right
      apply Nat.le_of_mul_le_mul_right _ hpow
      calc den * 2 ^ (s + 52) * 2 ^ b = den * 2 ^ a * unitsOfOne := by
            rw [unitsOfOne, Nat.mul_assoc, ← Nat.pow_add, Nat.mul_assoc, ← Nat.pow_add,
              show s + 52 + b = a + 1074 by omega]
        _ ≤ num * 2 ^ b * unitsOfOne := Nat.mul_le_mul_right _ hlow
        _ = num * unitsOfOne * 2 ^ b := Nat.mul_right_comm _ _ _
  · apply Nat.lt_of_mul_lt_mul_right (a := 2 ^ b)
    calc num * unitsOfOne * 2 ^ b = num * 2 ^ b * unitsOfOne := Nat.mul_right_comm _ _ _
      _ < den * 2 ^ (a + 1) * unitsOfOne := Nat.mul_lt_mul_of_pos_right hhigh unitsOfOne_pos
      _ ≤ den * 2 ^ (s + 53) * 2 ^ b := by
          rw [unitsOfOne, Nat.mul_assoc, ← Nat.pow_add, Nat.mul_assoc, ← Nat.pow_add]
          apply Nat.mul_le_mul_left
          exact Nat.pow_le_pow_right (by decide) (by omega)
  · have hrank : ((s : Int) - 1074 - leastExponent).toNat = s := by
      unfold leastExponent
      omega
    unfold ofRatio
    rw [if_neg hnum, hs]
    dsimp only
    rw [hrank, roundDiv_scaleBy num hden s]

end Step

/-! ## 3. Rounded quotients -/

section Rounded

variable {negative negative' : Bool} {num den num' den' : Nat}

theorem ofRatio_zero (negative : Bool) (den : Nat) : ofRatio negative 0 den = ⟨negative, 0⟩ := by
  rw [ofRatio, if_pos rfl]

/-- **Rounding keeps the order** of quotients. -/
theorem rank_ofRatio_mono (hden : 0 < den) (hden' : 0 < den') (h : num * den' ≤ num' * den) :
    (ofRatio negative num den).rank ≤ (ofRatio negative' num' den').rank := by
  by_cases hnum : num = 0
  · rw [hnum, ofRatio_zero]
    exact Nat.zero_le _
  have hnum' : num' ≠ 0 := by
    rintro rfl
    have hpos := Nat.mul_pos (Nat.pos_of_ne_zero hnum) hden'
    omega
  obtain ⟨s, hstep, hrank⟩ := exists_step hnum hden
  obtain ⟨s', hstep', hrank'⟩ := exists_step hnum' hden'
  rw [hrank, hrank']
  apply Nat.le_min.2 ⟨Nat.le_trans (Nat.min_le_left _ _) _, Nat.min_le_right _ _⟩
  rcases Nat.lt_or_eq_of_le (hstep.le hstep' hden h) with hlt | rfl
  · -- the smaller one is at most as far up in its steps as the greater one at least is
    have hmost := hstep.roundDiv_le hden
    have hleast := hstep'.le_roundDiv hden' (by omega)
    have hsteps : (s + 1) * ranksPerExponent ≤ s' * ranksPerExponent :=
      Nat.mul_le_mul_right _ hlt
    rw [Nat.succ_mul] at hsteps
    omega
  · apply Nat.add_le_add_left
    have hpow : 0 < 2 ^ s := Nat.two_pow_pos s
    apply roundDiv_mono (Nat.mul_pos hden hpow) (Nat.mul_pos hden' hpow)
    calc num * unitsOfOne * (den' * 2 ^ s) = num * den' * (unitsOfOne * 2 ^ s) := by ring
      _ ≤ num' * den * (unitsOfOne * 2 ^ s) := Nat.mul_le_mul_right _ h
      _ = num' * unitsOfOne * (den * 2 ^ s) := by ring

theorem eq_of_rank {x y : Binary64} (hsign : x.negative = y.negative) (hrank : x.rank = y.rank) :
    x = y := by
  cases x
  cases y
  rw [mk.injEq]
  exact ⟨hsign, hrank⟩

/-- What a quotient is rounded to does not depend on how it is written. -/
theorem ofRatio_congr (hden : 0 < den) (hden' : 0 < den') (h : num * den' = num' * den) :
    ofRatio negative num den = ofRatio negative num' den' := by
  apply eq_of_rank
  · rw [negative_ofRatio, negative_ofRatio]
  · exact Nat.le_antisymm (rank_ofRatio_mono hden hden' h.le) (rank_ofRatio_mono hden' hden h.ge)

theorem rank_ofNat_mono {m n : Nat} (h : m ≤ n) : (ofNat m).rank ≤ (ofNat n).rank :=
  rank_ofRatio_mono Nat.one_pos Nat.one_pos (by omega)

end Rounded

/-! ## 4. Values -/

section Values

variable {x y : Binary64}

/-- The power of two of a step about a number, in units of the smallest number. -/
def stepOf (x : Binary64) : Nat := x.rank / ranksPerExponent - 1

/-- The value of a number, in units of the smallest. -/
def units (x : Binary64) : Nat := x.mantissa * 2 ^ x.stepOf

theorem exponent_eq (x : Binary64) : x.exponent = (x.stepOf : Int) - 1074 := by
  unfold exponent stepOf
  split
  · rename_i hless
    rw [Nat.div_eq_of_lt hless]
    rfl
  · rename_i hnormal
    have hplace : 1 ≤ x.rank / ranksPerExponent :=
      (Nat.le_div_iff_mul_le (by decide)).2 (by omega)
    omega

/-- The rank of a number counts the steps to it. -/
theorem rank_eq (x : Binary64) : x.stepOf * ranksPerExponent + x.mantissa = x.rank := by
  unfold mantissa stepOf
  split
  · rename_i hless
    rw [Nat.div_eq_of_lt hless]
    omega
  · rename_i hnormal
    have hplace : 1 ≤ x.rank / ranksPerExponent :=
      (Nat.le_div_iff_mul_le (by decide)).2 (by omega)
    have hdiv := Nat.div_add_mod' x.rank ranksPerExponent
    have hstep : x.rank / ranksPerExponent * ranksPerExponent =
        (x.rank / ranksPerExponent - 1) * ranksPerExponent + ranksPerExponent := by
      rw [← Nat.succ_mul, Nat.succ_eq_add_one, Nat.sub_add_cancel hplace]
    omega

theorem mantissa_lt (x : Binary64) : x.mantissa < 2 * ranksPerExponent := by
  have hmod : x.rank % ranksPerExponent < ranksPerExponent := Nat.mod_lt _ (by decide)
  unfold mantissa
  split <;> omega

theorem le_mantissa (h : x.stepOf ≠ 0) : ranksPerExponent ≤ x.mantissa := by
  have hnormal : ¬ x.rank < ranksPerExponent := by
    intro hless
    apply h
    rw [stepOf, Nat.div_eq_of_lt hless]
  rw [mantissa, if_neg hnormal]
  exact Nat.le_add_right _ _

theorem units_mono (h : x.rank ≤ y.rank) : x.units ≤ y.units := by
  have hx := rank_eq x
  have hy := rank_eq y
  have hle : x.stepOf ≤ y.stepOf := Nat.sub_le_sub_right (Nat.div_le_div_right h) 1
  unfold units
  rcases Nat.lt_or_eq_of_le hle with hlt | heq
  · have hleast := le_mantissa (x := y) (by omega)
    calc x.mantissa * 2 ^ x.stepOf ≤ 2 * ranksPerExponent * 2 ^ x.stepOf :=
          Nat.mul_le_mul_right _ (mantissa_lt x).le
      _ = ranksPerExponent * 2 ^ (x.stepOf + 1) := by ring
      _ ≤ ranksPerExponent * 2 ^ y.stepOf :=
          Nat.mul_le_mul_left _ (Nat.pow_le_pow_right (by decide) hlt)
      _ ≤ y.mantissa * 2 ^ y.stepOf := Nat.mul_le_mul_right _ hleast
  · rw [heq] at hx ⊢
    apply Nat.mul_le_mul_right
    omega

theorem ratio_spec (x : Binary64) :
    0 < x.ratio.2 ∧ x.ratio.1 * unitsOfOne = x.units * x.ratio.2 := by
  unfold ratio scaleBy units
  rw [exponent_eq]
  by_cases hstep : 1074 ≤ x.stepOf
  · have hpow : 2 ^ (x.stepOf - 1074) * unitsOfOne = 2 ^ x.stepOf := by
      rw [unitsOfOne, ← Nat.pow_add, Nat.sub_add_cancel hstep]
    rw [if_pos (by omega), Nat.shiftLeft_eq,
      show ((x.stepOf : Int) - 1074).toNat = x.stepOf - 1074 by omega]
    refine ⟨Nat.one_pos, ?_⟩
    dsimp only
    rw [Nat.mul_assoc, hpow, Nat.mul_one]
  · rw [if_neg (by omega), Nat.shiftLeft_eq, Nat.one_mul,
      show (-((x.stepOf : Int) - 1074)).toNat = 1074 - x.stepOf by omega]
    refine ⟨Nat.two_pow_pos _, ?_⟩
    dsimp only
    rw [unitsOfOne_eq (show x.stepOf ≤ 1074 by omega), Nat.mul_assoc, Nat.mul_comm (2 ^ x.stepOf)]

/-- Numbers of a higher rank have a greater value. -/
theorem ratio_mono (h : x.rank ≤ y.rank) : x.ratio.1 * y.ratio.2 ≤ y.ratio.1 * x.ratio.2 := by
  obtain ⟨-, hxunits⟩ := ratio_spec x
  obtain ⟨-, hyunits⟩ := ratio_spec y
  apply Nat.le_of_mul_le_mul_right _ unitsOfOne_pos
  calc x.ratio.1 * y.ratio.2 * unitsOfOne = x.ratio.1 * unitsOfOne * y.ratio.2 := by ring
    _ = x.units * (x.ratio.2 * y.ratio.2) := by rw [hxunits, Nat.mul_assoc]
    _ ≤ y.units * (x.ratio.2 * y.ratio.2) := Nat.mul_le_mul_right _ (units_mono h)
    _ = y.ratio.1 * unitsOfOne * x.ratio.2 := by rw [hyunits]; ring
    _ = y.ratio.1 * x.ratio.2 * unitsOfOne := by ring

theorem step_units (x : Binary64) : Step x.units unitsOfOne x.stepOf where
  low := by
    by_cases hzero : x.stepOf = 0
    · exact .inl hzero
    · right
      calc unitsOfOne * 2 ^ (x.stepOf + 52)
          = ranksPerExponent * (2 ^ x.stepOf * unitsOfOne) := by
            rw [Nat.pow_add, show ranksPerExponent = 2 ^ 52 from rfl]
            ring
        _ ≤ x.mantissa * (2 ^ x.stepOf * unitsOfOne) := Nat.mul_le_mul_right _ (le_mantissa hzero)
        _ = x.units * unitsOfOne := (Nat.mul_assoc _ _ _).symm
  high := by
    calc x.units * unitsOfOne = x.mantissa * (2 ^ x.stepOf * unitsOfOne) := Nat.mul_assoc _ _ _
      _ < 2 * ranksPerExponent * (2 ^ x.stepOf * unitsOfOne) :=
          Nat.mul_lt_mul_of_pos_right (mantissa_lt x)
            (Nat.mul_pos (Nat.two_pow_pos _) unitsOfOne_pos)
      _ = unitsOfOne * 2 ^ (x.stepOf + 53) := by
          rw [Nat.pow_add, show 2 * ranksPerExponent = 2 ^ 53 from rfl]
          ring

/-- **A number is what its value is rounded to.** -/
theorem ofRatio_ratio (h : x.rank ≤ infiniteRank) :
    ofRatio x.negative x.ratio.1 x.ratio.2 = x := by
  obtain ⟨hpos, hunits⟩ := ratio_spec x
  rw [ofRatio_congr hpos unitsOfOne_pos hunits]
  apply eq_of_rank (negative_ofRatio _ _ _)
  by_cases hzero : x.units = 0
  · -- a number that is not zero has a mantissa
    have hmantissa : x.mantissa = 0 :=
      (Nat.mul_eq_zero.1 hzero).resolve_right (Nat.two_pow_pos _).ne'
    have hstep : x.stepOf = 0 := by
      by_contra hstep
      have hleast := le_mantissa hstep
      unfold ranksPerExponent at hleast
      omega
    rw [hzero, ofRatio_zero, ← rank_eq x, hmantissa, hstep, Nat.zero_mul]
  · -- the steps about its value are its own, and it is a whole number of them
    obtain ⟨s, hs, hrank⟩ := exists_step hzero unitsOfOne_pos
    have hwhole : x.units * unitsOfOne = x.mantissa * (unitsOfOne * 2 ^ x.stepOf) := by
      unfold units
      ring
    rw [hrank, hs.unique (step_units x) unitsOfOne_pos, hwhole,
      roundDiv_mul _ (Nat.mul_pos unitsOfOne_pos (Nat.two_pow_pos _)), rank_eq]
    exact Nat.min_eq_left h

end Values

/-! ## 5. Whole numbers as bounds -/

/-- A whole number that rounding does not change. -/
def Exact (n : Nat) : Prop := (ofNat n).ratio.1 = n * (ofNat n).ratio.2

instance (n : Nat) : Decidable (Exact n) := inferInstanceAs (Decidable (_ = _))

variable {n : Nat} {x : Binary64}

theorem exact_of_lt (hn : n ≠ 0) (h : n < 2 ^ 53) : Exact n := by
  have hbits : n.log2 < 53 := (Nat.log2_lt hn).2 h
  have hlow : 2 ^ n.log2 ≤ n := Nat.log2_self_le hn
  have hhigh : n < 2 ^ (n.log2 + 1) := Nat.lt_log2_self
  obtain ⟨k, hk⟩ : ∃ k, n.log2 + k = 52 := ⟨52 - n.log2, by omega⟩
  have hranks : ranksPerExponent = 2 ^ n.log2 * 2 ^ k := by
    rw [← Nat.pow_add, hk]
    rfl
  have hleast : ranksPerExponent ≤ n * 2 ^ k := by
    rw [hranks]
    exact Nat.mul_le_mul_right _ hlow
  have hmost : n * 2 ^ k < 2 * ranksPerExponent := by
    calc n * 2 ^ k < 2 ^ (n.log2 + 1) * 2 ^ k :=
          Nat.mul_lt_mul_of_pos_right hhigh (Nat.two_pow_pos k)
      _ = 2 * ranksPerExponent := by rw [hranks, Nat.pow_succ]; ring
  have hrank : (ofNat n).rank = (1074 - k) * ranksPerExponent + n * 2 ^ k := by
    rw [ofNat_of_mantissa (Nat.shiftLeft_eq n k).symm hleast hmost (by omega)]
  have hstep : (ofNat n).stepOf = 1074 - k := by
    have hplaces : (1075 - k) * ranksPerExponent =
        (1074 - k) * ranksPerExponent + ranksPerExponent := by
      rw [show 1075 - k = 1074 - k + 1 by omega, Nat.succ_mul]
    have hdiv : (ofNat n).rank / ranksPerExponent = 1075 - k :=
      Nat.div_eq_of_lt_le (by omega) (by rw [Nat.succ_mul]; omega)
    rw [stepOf, hdiv]
    omega
  have hmantissa : (ofNat n).mantissa = n * 2 ^ k := by
    have hsum := rank_eq (ofNat n)
    rw [hstep] at hsum
    omega
  obtain ⟨-, hvalue⟩ := ratio_spec (ofNat n)
  apply Nat.eq_of_mul_eq_mul_right unitsOfOne_pos
  rw [hvalue, units, hmantissa, hstep, unitsOfOne_eq (show k ≤ 1074 by omega)]
  ring

/-- A number that is no smaller than a whole one has no smaller value. -/
theorem Exact.le_ratio (h : Exact n) (hx : (ofNat n).rank ≤ x.rank) :
    n * x.ratio.2 ≤ x.ratio.1 := by
  obtain ⟨hpos, -⟩ := ratio_spec (ofNat n)
  have hmono := ratio_mono hx
  rw [h] at hmono
  apply Nat.le_of_mul_le_mul_right _ hpos
  calc n * x.ratio.2 * (ofNat n).ratio.2 = n * (ofNat n).ratio.2 * x.ratio.2 := by ring
    _ ≤ x.ratio.1 * (ofNat n).ratio.2 := hmono

theorem Exact.ratio_le (h : Exact n) (hx : x.rank ≤ (ofNat n).rank) :
    x.ratio.1 ≤ n * x.ratio.2 := by
  obtain ⟨hpos, -⟩ := ratio_spec (ofNat n)
  have hmono := ratio_mono hx
  rw [h] at hmono
  apply Nat.le_of_mul_le_mul_right _ hpos
  calc x.ratio.1 * (ofNat n).ratio.2 ≤ n * (ofNat n).ratio.2 * x.ratio.2 := hmono
    _ = n * x.ratio.2 * (ofNat n).ratio.2 := by ring

theorem exact_pow_ten : ∀ k ≤ 20, Exact (10 ^ k) := by decide +kernel

/-- From 2^53 on every number is whole, and the nearest to its own value. -/
theorem ofNat_mantissa_shiftLeft (hsign : x.negative = false)
    (hlow : (ofNat (2 ^ 53)).rank ≤ x.rank) (hhigh : x.rank ≤ infiniteRank) :
    0 ≤ x.exponent ∧ ofNat (x.mantissa <<< x.exponent.toNat) = x := by
  have hplace : 1076 ≤ x.rank / ranksPerExponent :=
    (Nat.le_div_iff_mul_le (by decide)).2 (Nat.le_trans (by decide +kernel) hlow)
  have hexponent : 0 ≤ x.exponent := by
    rw [exponent_eq, stepOf]
    omega
  have hratio : x.ratio = (x.mantissa <<< x.exponent.toNat, 1) := by
    rw [ratio, scaleBy, if_pos hexponent]
  have hself := ofRatio_ratio hhigh
  rw [hratio, hsign] at hself
  exact ⟨hexponent, hself⟩

end CoverageLedger.Binary64
