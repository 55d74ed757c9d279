import CoverageLedger.Decimal.Binary64

/-!
# Ranks and rounding

Numbers that are not negative compare as their ranks, rounding a quotient always gives a number, and
rounding a whole number of at most 53 bits changes nothing.
-/

namespace CoverageLedger.Binary64

/-! ## 1. Comparing ranks -/

theorem rank_one : one.rank = 1023 * ranksPerExponent := rfl

theorem one_le_infinite : one.rank ≤ infiniteRank := by decide

theorem isNaN_of_le {x : Binary64} (h : x.rank ≤ infiniteRank) : x.isNaN = false := by
  unfold isNaN
  rw [decide_eq_false_iff_not]
  omega

theorem lt_of_rank {j k : Nat} (hj : j ≤ infiniteRank) (hk : k ≤ infiniteRank) :
    (⟨false, j⟩ : Binary64).lt ⟨false, k⟩ = decide (j < k) := by
  have hnj : (⟨false, j⟩ : Binary64).isNaN = false := isNaN_of_le hj
  have hnk : (⟨false, k⟩ : Binary64).isNaN = false := isNaN_of_le hk
  have hplace : ((j : Int) < (k : Int)) ↔ j < k := by omega
  rw [lt, hnj, hnk]
  simp only [Bool.not_false, Bool.true_and, place, Bool.false_eq_true, if_false, hplace]

theorem le_of_rank {j k : Nat} (hj : j ≤ infiniteRank) (hk : k ≤ infiniteRank) :
    (⟨false, j⟩ : Binary64).le ⟨false, k⟩ = decide (j ≤ k) := by
  have hnj : (⟨false, j⟩ : Binary64).isNaN = false := isNaN_of_le hj
  have hnk : (⟨false, k⟩ : Binary64).isNaN = false := isNaN_of_le hk
  have hplace : ((j : Int) ≤ (k : Int)) ↔ j ≤ k := by omega
  rw [le, hnj, hnk]
  simp only [Bool.not_false, Bool.true_and, place, Bool.false_eq_true, if_false, hplace]

/-! ## 2. Rounding -/

theorem negative_ofRatio (negative : Bool) (num den : Nat) :
    (ofRatio negative num den).negative = negative := by
  unfold ofRatio
  split <;> rfl

theorem rank_ofRatio_le (negative : Bool) (num den : Nat) :
    (ofRatio negative num den).rank ≤ infiniteRank := by
  unfold ofRatio
  split
  · exact Nat.zero_le _
  · exact Nat.min_le_right _ _

theorem ofNat_eq (n : Nat) : ofNat n = ⟨false, (ofNat n).rank⟩ := by
  have hsign : (ofNat n).negative = false := negative_ofRatio false n 1
  rw [← hsign]

/-! ## 3. Whole numbers -/

theorem log2_shiftLeft {n : Nat} (hn : n ≠ 0) (k : Nat) : (n <<< k).log2 = n.log2 + k := by
  induction k with
  | zero => rfl
  | succ k ih =>
    have hne : n <<< k ≠ 0 := fun h => hn (Nat.shiftLeft_eq_zero_iff.1 h)
    rw [Nat.shiftLeft_succ, Nat.log2_two_mul hne, ih, Nat.add_assoc]

theorem floorLog2_one {n : Nat} (hn : n ≠ 0) : floorLog2 n 1 = n.log2 := by
  have hlog : Nat.log2 1 = 0 := by decide
  have hle : 1 <<< n.log2 ≤ n := by
    rw [Nat.one_shiftLeft]
    exact Nat.log2_self_le hn
  rw [floorLog2, hlog]
  simp [hle]

theorem roundDiv_one (n : Nat) : roundDiv n 1 = n := by
  unfold roundDiv
  rw [Nat.mod_one, Nat.div_one]
  rfl

/-- A whole number of at most 53 bits is its own nearest number: moved up to 53 bits, it is the
mantissa. -/
theorem ofNat_of_mantissa {n m k : Nat} (hm : m = n <<< k) (hlow : ranksPerExponent ≤ m)
    (hhigh : m < 2 * ranksPerExponent) (hk : k ≤ 52) :
    ofNat n = ⟨false, (1074 - k) * ranksPerExponent + m⟩ := by
  have hmne : m ≠ 0 := by
    unfold ranksPerExponent at hlow
    omega
  have hn : n ≠ 0 := by
    rintro rfl
    rw [Nat.zero_shiftLeft] at hm
    exact hmne hm
  -- shifting by `k` moves the highest bit up to bit 52
  have hlog : n.log2 = 52 - k := by
    have hbits : m.log2 = 52 := (Nat.log2_eq_iff hmne).2 ⟨hlow, hhigh⟩
    rw [hm, log2_shiftLeft hn] at hbits
    omega
  have hexp : max (floorLog2 n 1 - 52) leastExponent = -(k : Int) := by
    rw [floorLog2_one hn, hlog, leastExponent]
    omega
  -- scaling is exact, so nothing is rounded
  have hscale : scaleBy n 1 (- -(k : Int)) = (m, 1) := by
    rw [Int.neg_neg, scaleBy, if_pos (by omega), Int.toNat_natCast, hm]
  have hrank : (-(k : Int) - leastExponent).toNat = 1074 - k := by
    rw [leastExponent]
    omega
  unfold ofNat ofRatio
  rw [if_neg hn, hexp]
  dsimp only
  rw [hscale]
  dsimp only
  rw [roundDiv_one, hrank, Nat.min_eq_left]
  unfold infiniteRank
  unfold ranksPerExponent at hhigh ⊢
  omega

/-- A whole number from one on is rounded to no less than one. -/
theorem one_le_rank_ofNat {n : Nat} (hn : n ≠ 0) : one.rank ≤ (ofNat n).rank := by
  by_cases h1 : n = 1
  · rw [h1]
    decide
  · have hlog : 1 ≤ n.log2 := (Nat.le_log2 hn).2 (by omega)
    have hexp : max (floorLog2 n 1 - 52) leastExponent = (n.log2 : Int) - 52 := by
      rw [floorLog2_one hn, leastExponent]
      omega
    have hrank : ((n.log2 : Int) - 52 - leastExponent).toNat = n.log2 + 1022 := by
      rw [leastExponent]
      omega
    unfold ofNat ofRatio
    rw [if_neg hn, hexp]
    dsimp only
    rw [hrank, rank_one, Nat.le_min]
    unfold infiniteRank ranksPerExponent
    omega
/-- Of a number from one on whose value is whole and below 2^53, the mantissa is the value moved up
to 53 bits. -/
theorem mantissa_of_toInt? {x : Binary64} (hsign : x.negative = false) (hone : one.rank ≤ x.rank)
    {i : Int} (h : x.toInt? = some i) (hi : i.natAbs < 2 * ranksPerExponent) :
    ∃ n k : Nat, i = n ∧ x.mantissa = n <<< k ∧ k ≤ 52 ∧ x.rank / ranksPerExponent = 1075 - k := by
  have hq : 1023 ≤ x.rank / ranksPerExponent := (Nat.le_div_iff_mul_le (by decide)).2 hone
  have hlarge : ¬ x.rank < ranksPerExponent := by
    rw [rank_one] at hone
    omega
  have hmantissa : ranksPerExponent ≤ x.mantissa := by
    rw [mantissa, if_neg hlarge]
    exact Nat.le_add_right _ _
  have hexponent : x.exponent = ((x.rank / ranksPerExponent : Nat) : Int) - 1075 := by
    rw [exponent, if_neg hlarge]
    rfl
  unfold toInt? ratio scaleBy at h
  rw [hexponent, hsign] at h
  generalize x.rank / ranksPerExponent = q at hq h ⊢
  generalize x.mantissa = m at hmantissa h ⊢
  split at h
  · by_cases he : (0 : Int) ≤ (q : Int) - 1075
    · -- the exponent cannot lie above zero: one more bit would pass the bound
      rw [if_pos he] at h
      simp only [Nat.mod_one, Nat.div_one, if_true, Bool.false_eq_true, if_false,
        Option.some.injEq] at h
      rw [← h, Int.natAbs_natCast] at hi
      have hzero : ((q : Int) - 1075).toNat = 0 := by
        cases hs : ((q : Int) - 1075).toNat with
        | zero => rfl
        | succ s =>
          have hle : m ≤ m <<< s := Nat.le_shiftLeft
          rw [hs, Nat.shiftLeft_succ] at hi
          omega
      rw [hzero, Nat.shiftLeft_zero] at h
      exact ⟨m, 0, h.symm, rfl, by decide, by omega⟩
    · rw [if_neg he] at h
      dsimp only at h
      generalize hs : (-((q : Int) - 1075)).toNat = s at h
      split at h
      · rename_i hzero
        refine ⟨m / (1 <<< s), s, (Option.some.inj h).symm, ?_, by omega, by omega⟩
        have hdvd : 1 <<< s ∣ m := Nat.dvd_of_mod_eq_zero hzero
        rw [Nat.one_shiftLeft] at hdvd ⊢
        rw [Nat.shiftLeft_eq, Nat.div_mul_cancel hdvd]
      · cases h
  · cases h

/-- A number from one on that is whole and small enough is the nearest to its own value. -/
theorem ofInt_of_toInt? {x : Binary64} (hsign : x.negative = false) (hone : one.rank ≤ x.rank)
    {i : Int} (h : x.toInt? = some i) (hi : i.natAbs < 2 * ranksPerExponent) : ofInt i = x := by
  obtain ⟨n, k, rfl, hvalue, hk, hplace⟩ := mantissa_of_toInt? hsign hone h hi
  have hlarge : ¬ x.rank < ranksPerExponent := by
    rw [rank_one] at hone
    omega
  have hmantissa : x.mantissa = ranksPerExponent + x.rank % ranksPerExponent := by
    rw [mantissa, if_neg hlarge]
  have hmod : x.rank % ranksPerExponent < ranksPerExponent := Nat.mod_lt _ (by decide)
  have hnat : ofInt (n : Int) = ofNat n := by
    rw [ofInt, decide_eq_false (by omega), Int.natAbs_natCast]
    rfl
  have hsame : (1074 - k) * ranksPerExponent + x.mantissa = x.rank := by
    calc
      (1074 - k) * ranksPerExponent + x.mantissa
          = (1075 - k) * ranksPerExponent + x.rank % ranksPerExponent := by
        rw [hmantissa, show 1075 - k = 1074 - k + 1 by omega, Nat.succ_mul, Nat.add_assoc]
      _ = x.rank := by rw [← hplace, Nat.div_add_mod']
  rw [hnat, ofNat_of_mantissa hvalue (by omega) (by omega) hk, hsame, ← hsign]

end CoverageLedger.Binary64
