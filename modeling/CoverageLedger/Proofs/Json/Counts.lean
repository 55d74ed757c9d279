import CoverageLedger.Proofs.Decimal.ReadBack
import CoverageLedger.Proofs.Json.Documents

/-!
# Great counts in JSON

A count from 2^53 on is written with the fewest digits that read back, but the reader of documents
takes digits and power of ten apart and rounds twice.  So a count may come back as another number.
It comes back as one that is as great, though: no smaller than 2^53 and no greater than 10^20, when
it was so before.
-/

namespace CoverageLedger

namespace Binary64

/-- A number that is written with a point although it is whole, and is no greater than any count. -/
structure Great (x : Binary64) : Prop where
  sign : x.negative = false
  low : (ofNat (2 ^ 53)).rank ≤ x.rank
  high : x.rank ≤ (ofNat (10 ^ 20)).rank

namespace Great

variable {x : Binary64}

theorem one_le (h : x.Great) : one.rank ≤ x.rank := Nat.le_trans (by decide +kernel) h.low

theorem lt_infinite (h : x.Great) : x.rank < infiniteRank :=
  Nat.lt_of_le_of_lt h.high (by decide +kernel)

theorem isFinite (h : x.Great) : x.isFinite = true := decide_eq_true h.lt_infinite

theorem le_ratio (h : x.Great) : 2 ^ 53 * x.ratio.2 ≤ x.ratio.1 :=
  Exact.le_ratio (by decide +kernel) h.low

theorem eq_of_rank (h : x.Great) : (⟨false, x.rank⟩ : Binary64) = x := by
  rw [← h.sign]

/-- A quotient between the bounds is rounded to a number between them. -/
theorem ofRatio {num den : Nat} (hden : 0 < den) (hlow : 2 ^ 53 * den ≤ num)
    (hhigh : num ≤ 10 ^ 20 * den) : (ofRatio false num den).Great where
  sign := negative_ofRatio false num den
  low := rank_ofRatio_mono Nat.one_pos hden (by omega)
  high := rank_ofRatio_mono hden Nat.one_pos (by omega)

end Great

theorem isNaN_false {x : Binary64} (h : x.rank < infiniteRank) : x.isNaN = false :=
  isNaN_of_le (Nat.le_of_lt h)

theorem isInfinite_false {x : Binary64} (h : x.rank < infiniteRank) : x.isInfinite = false := by
  rw [isInfinite, beq_eq_false_iff_ne]
  omega

theorem isZero_false {x : Binary64} (h : one.rank ≤ x.rank) : x.isZero = false := by
  rw [isZero, beq_eq_false_iff_ne]
  rw [rank_one] at h
  unfold ranksPerExponent at h
  omega

theorem mul_eq {x y : Binary64} (hx : x.rank < infiniteRank) (hy : y.rank < infiniteRank) :
    x.mul y = ofRatio (x.negative != y.negative) (x.ratio.1 * y.ratio.1) (x.ratio.2 * y.ratio.2) := by
  rw [mul, isNaN_false hx, isNaN_false hy, isInfinite_false hx, isInfinite_false hy]
  rfl

theorem div_eq {x y : Binary64} (hx : x.rank < infiniteRank) (hy : y.rank < infiniteRank)
    (hone : one.rank ≤ y.rank) :
    x.div y = ofRatio (x.negative != y.negative) (x.ratio.1 * y.ratio.2) (x.ratio.2 * y.ratio.1) := by
  rw [div, isNaN_false hx, isNaN_false hy, isInfinite_false hx, isInfinite_false hy,
    isZero_false hone]
  rfl

/-- A whole number has no greater value than a whole number above it that is exact. -/
theorem ratio_ofNat_le {m n : Nat} (h : m ≤ n) (hn : Exact n) :
    (ofNat m).ratio.1 ≤ n * (ofNat m).ratio.2 :=
  hn.ratio_le (rank_ofNat_mono h)

theorem le_ratio_ofNat {m n : Nat} (h : m ≤ n) (hexact : Exact m) :
    m * (ofNat n).ratio.2 ≤ (ofNat n).ratio.1 :=
  hexact.le_ratio (rank_ofNat_mono h)

end Binary64

namespace Json

open Binary64

theorem negative_ofNat (n : Nat) : (ofNat n).negative = false := negative_ofRatio false n 1

theorem rank_powerOfTen_lt {p : Nat} (hp : p ≤ 20) : (powerOfTen p).rank < infiniteRank := by
  have hle : (powerOfTen p).rank ≤ (ofNat (10 ^ 20)).rank :=
    rank_ofNat_mono (Nat.pow_le_pow_right (by decide) hp)
  exact Nat.lt_of_le_of_lt hle (by decide +kernel)

theorem rank_ofNat_lt {n : Nat} (h : n ≤ 10 ^ 20) : (ofNat n).rank < infiniteRank :=
  Nat.lt_of_le_of_lt (rank_ofNat_mono h) (by decide +kernel)

/-- Digits times a power of ten, when that is between the bounds. -/
theorem scaled?_up {s p : Nat} (hlow : 2 ^ 53 ≤ s * 10 ^ p) (hhigh : s * 10 ^ p ≤ 10 ^ 20) :
    ∃ y, scaled? false s p = some (.float y) ∧ y.Great := by
  have hs : s ≠ 0 := by
    rintro rfl
    omega
  have hpow : 0 < 10 ^ p := Nat.pow_pos (by decide)
  have hp : p ≤ 20 := by
    refine (Nat.pow_le_pow_iff_right (by decide : 1 < 10)).1 (Nat.le_trans ?_ hhigh)
    exact Nat.le_mul_of_pos_left _ (by omega)
  have hten : (powerOfTen p).ratio.1 = 10 ^ p * (powerOfTen p).ratio.2 := exact_pow_ten p hp
  have hsle : s ≤ 10 ^ (20 - p) := by
    refine Nat.le_of_mul_le_mul_right (Nat.le_trans hhigh ?_) hpow
    rw [← Nat.pow_add, Nat.sub_add_cancel hp]
  have hsmax : s ≤ 10 ^ 20 := Nat.le_trans (Nat.le_mul_of_pos_right s hpow) hhigh
  have hpos := (ratio_spec (ofNat s)).1
  have htenpos : 0 < (powerOfTen p).ratio.2 :=
    (ratio_spec _).1
  have hvalue : 2 ^ 53 * (ofNat s).ratio.2 ≤ (ofNat s).ratio.1 * 10 ^ p := by
    by_cases hsmall : s < 2 ^ 53
    · -- digits of 53 bits are not rounded
      rw [exact_of_lt hs hsmall]
      calc 2 ^ 53 * (ofNat s).ratio.2 ≤ s * 10 ^ p * (ofNat s).ratio.2 :=
            Nat.mul_le_mul_right _ hlow
        _ = s * (ofNat s).ratio.2 * 10 ^ p := by ring
    · calc 2 ^ 53 * (ofNat s).ratio.2 ≤ (ofNat s).ratio.1 :=
            le_ratio_ofNat (by omega) (by decide +kernel)
        _ ≤ (ofNat s).ratio.1 * 10 ^ p := Nat.le_mul_of_pos_right _ hpow
  have hmost := ratio_ofNat_le hsle (exact_pow_ten (20 - p) (Nat.sub_le _ _))
  have hgreat : ((ofNat s).mul (powerOfTen p)).Great := by
    rw [mul_eq (rank_ofNat_lt hsmax) (rank_powerOfTen_lt hp), powerOfTen, negative_ofNat,
      negative_ofNat, ← powerOfTen, hten]
    refine .ofRatio (Nat.mul_pos hpos htenpos) ?_ ?_
    · calc 2 ^ 53 * ((ofNat s).ratio.2 * (powerOfTen p).ratio.2)
          = 2 ^ 53 * (ofNat s).ratio.2 * (powerOfTen p).ratio.2 := by ring
        _ ≤ (ofNat s).ratio.1 * 10 ^ p * (powerOfTen p).ratio.2 := Nat.mul_le_mul_right _ hvalue
        _ = (ofNat s).ratio.1 * (10 ^ p * (powerOfTen p).ratio.2) := by ring
    · calc (ofNat s).ratio.1 * (10 ^ p * (powerOfTen p).ratio.2)
          ≤ 10 ^ (20 - p) * (ofNat s).ratio.2 * (10 ^ p * (powerOfTen p).ratio.2) :=
            Nat.mul_le_mul_right _ hmost
        _ = 10 ^ (20 - p) * 10 ^ p * ((ofNat s).ratio.2 * (powerOfTen p).ratio.2) := by ring
        _ = 10 ^ 20 * ((ofNat s).ratio.2 * (powerOfTen p).ratio.2) := by
            rw [← Nat.pow_add, Nat.sub_add_cancel hp]
  refine ⟨(ofNat s).mul (powerOfTen p), ?_, hgreat⟩
  have hfits : ((p : Int) ≤ stepPower) := by
    unfold stepPower
    omega
  rw [scaled?, if_neg (by omega), if_pos hfits]
  dsimp only
  rw [Int.toNat_natCast, isInfinite_false hgreat.lt_infinite, if_neg (by decide), Option.map_some,
    hgreat.eq_of_rank]

/-- Digits with one of them after the point. -/
theorem scaled?_down {s : Nat} (hlow : 10 * 2 ^ 53 ≤ s) (hhigh : s ≤ 10 ^ 17) :
    ∃ y, scaled? false s (-1) = some (.float y) ∧ y.Great := by
  have hs : s ≠ 0 := by omega
  have hten : (powerOfTen 1).ratio.1 = 10 ^ 1 * (powerOfTen 1).ratio.2 :=
    exact_pow_ten 1 (by decide)
  have hpos := (ratio_spec (ofNat s)).1
  have hone : one.rank ≤ (powerOfTen 1).rank := one_le_rank_ofNat (by decide)
  have htenpos := (ratio_spec (powerOfTen 1)).1
  have hleast := le_ratio_ofNat hlow (by decide +kernel)
  have hmost := ratio_ofNat_le hhigh (exact_pow_ten 17 (by decide))
  have hgreat : ((ofNat s).div (powerOfTen 1)).Great := by
    rw [div_eq (rank_ofNat_lt (by omega)) (rank_powerOfTen_lt (by decide)) hone, powerOfTen,
      negative_ofNat, negative_ofNat, ← powerOfTen, hten]
    refine .ofRatio (Nat.mul_pos hpos (Nat.mul_pos (by decide) htenpos)) ?_ ?_
    · calc 2 ^ 53 * ((ofNat s).ratio.2 * (10 ^ 1 * (powerOfTen 1).ratio.2))
          = 10 * 2 ^ 53 * (ofNat s).ratio.2 * (powerOfTen 1).ratio.2 := by ring
        _ ≤ (ofNat s).ratio.1 * (powerOfTen 1).ratio.2 := Nat.mul_le_mul_right _ hleast
    · calc (ofNat s).ratio.1 * (powerOfTen 1).ratio.2
          ≤ 10 ^ 17 * (ofNat s).ratio.2 * (powerOfTen 1).ratio.2 := Nat.mul_le_mul_right _ hmost
        _ ≤ 10 ^ 21 * (ofNat s).ratio.2 * (powerOfTen 1).ratio.2 :=
            Nat.mul_le_mul_right _ (Nat.mul_le_mul_right _ (by decide))
        _ = 10 ^ 20 * ((ofNat s).ratio.2 * (10 ^ 1 * (powerOfTen 1).ratio.2)) := by ring
  refine ⟨(ofNat s).div (powerOfTen 1), ?_, hgreat⟩
  rw [scaled?, if_pos (by decide), divideByPower, dif_pos (by decide), Option.map_some]
  exact congrArg (fun y => some (Json.float y)) hgreat.eq_of_rank

/-! ## 3. The digits that are written -/

end Json

namespace Decimal

open Binary64

/-- The number that a decimal without places after the point stands for. -/
def whole (d : Decimal) : Nat := d.digits * 10 ^ d.power.toNat

theorem ofDecimal_of_nonneg {d : Decimal} (hpower : 0 ≤ d.power) :
    ofDecimal false d.digits d.power = ofNat d.whole := by
  rw [ofDecimal_eq, ratio, if_pos hpower]
  rfl

/-- A search that comes by the power zero stops there at the latest. -/
theorem power_of_searchFrom {x : Binary64} {v : Nat} (hv : ofDecimal false v 0 = x) {top : Int}
    {fuel count : Nat} {d : Decimal} (hcount : (count : Int) ≤ top)
    (h : searchFrom x v 1 top fuel count = some d) : 0 ≤ d.power := by
  induction fuel generalizing count with
  | zero => cases h
  | succ fuel ih =>
    rw [searchFrom] at h
    split at h
    · obtain rfl := Option.some.inj h
      dsimp only
      omega
    · rename_i hnone
      apply ih _ h
      have hne : top - count ≠ 0 := by
        intro hzero
        have hself : v ∈ neighbours v 1 (top - count) := by
          rw [hzero, neighbours, if_pos (by decide)]
          dsimp only
          rw [Int.toNat_zero, show Nat.pow 10 0 = 1 from rfl, Nat.mul_one, Nat.mod_one,
            Nat.div_one, if_pos (.inl (by decide))]
          exact List.mem_cons_self
        have hmiss := List.find?_eq_none.1 hnone v hself
        rw [hzero, hv, beq_self_eq_true] at hmiss
        exact hmiss rfl
      omega

theorem le_power_trimZeros (fuel : Nat) (d : Decimal) : d.power ≤ (trimZeros fuel d).power := by
  induction fuel generalizing d with
  | zero => exact Int.le_refl _
  | succ fuel ih =>
    rw [trimZeros]
    split
    · have hle := ih ⟨d.digits / 10, d.power + 1⟩
      dsimp only at hle
      omega
    · exact Int.le_refl _

variable {x : Binary64}

/-- A great number is whole, and so are the fewest digits for it. -/
theorem power_shortest (h : x.Great) : 0 ≤ (shortest x).power := by
  obtain ⟨hexponent, hvalue⟩ :=
    ofNat_mantissa_shiftLeft h.sign h.low (Nat.le_of_lt h.lt_infinite)
  have hratio : x.ratio = (x.mantissa <<< x.exponent.toNat, 1) := by
    rw [Binary64.ratio, scaleBy, if_pos hexponent]
  have hexact : exact x = ⟨x.mantissa <<< x.exponent.toNat, 0⟩ := by
    rw [exact, if_pos hexponent]
  have hne : x.mantissa <<< x.exponent.toNat ≠ 0 := by
    have hleast := h.le_ratio
    rw [hratio] at hleast
    dsimp only at hleast
    omega
  generalize x.mantissa <<< x.exponent.toNat = v at hvalue hratio hexact hne
  have hread : ofDecimal false v 0 = x := (ofDecimal_zero false v).trans hvalue
  have htop : ((1 : Nat) : Int) ≤ topPower v 1 := by
    rw [topPower, if_pos (by omega)]
    exact Int.ofNat_le.2 Nat.length_toDigits_pos
  rw [shortest, h.eq_of_rank, hratio]
  dsimp only
  rw [if_neg hne]
  apply Int.le_trans _ (le_power_trimZeros _ _)
  cases hsearch : searchFrom x v 1 (topPower v 1) 17 1 with
  | none =>
    rw [Option.getD_none, hexact]
  | some d => exact power_of_searchFrom hread htop hsearch

theorem ofNat_whole_shortest (h : x.Great) : ofNat (shortest x).whole = x := by
  have hread := shortest_reads h.isFinite
  rw [h.sign, ofDecimal_of_nonneg (power_shortest h)] at hread
  exact hread

/-- The decimal that is written for a great number lies between the bounds. -/
theorem shortest_whole (h : x.Great) :
    0 ≤ (shortest x).power ∧ 2 ^ 53 ≤ (shortest x).whole ∧ (shortest x).whole ≤ 10 ^ 20 := by
  have hpower := power_shortest h
  have hread := ofNat_whole_shortest h
  have hne : (shortest x).whole ≠ 0 := by
    intro hzero
    rw [hzero] at hread
    rw [← hread] at h
    exact absurd h.low (by decide +kernel)
  refine ⟨hpower, ?_, ?_⟩
  · by_contra hless
    have hexact := exact_of_lt hne (by omega)
    have hleast := h.le_ratio
    have hpos := (ratio_spec x).1
    rw [← hread] at hleast hpos
    rw [hexact] at hleast
    have hle := Nat.le_of_mul_le_mul_right hleast hpos
    omega
  · rcases Nat.lt_or_eq_of_le h.high with hlt | heq
    · by_contra hmore
      have hmono := rank_ofNat_mono (Nat.le_of_not_le hmore)
      rw [hread] at hmono
      omega
    · -- the greatest one of all is a power of ten
      have hx : x = ofNat (10 ^ 20) := by
        rw [← h.eq_of_rank, heq, ← ofNat_eq]
      rw [hx]
      decide +kernel

end Decimal

namespace Json

open Binary64 Text

/-! ## 4. Reading the digits -/

/-- What is read of a number when digits are left out at its end: nearly all of it. -/
structure Cut (n left v : Nat) : Prop where
  le : n * 10 ^ left ≤ v
  eq : left = 0 → n = v
  long : left ≠ 0 → 2 ^ 60 ≤ n

theorem Cut.refl (n : Nat) : Cut n 0 n := ⟨by omega, fun _ => rfl, fun h => absurd rfl h⟩

/-- A number that is small enough is read whole. -/
theorem Cut.eq_of_lt {n left v : Nat} (h : Cut n left v) (hv : v < 2 ^ 60) : left = 0 ∧ n = v := by
  by_cases hleft : left = 0
  · exact ⟨hleft, h.eq hleft⟩
  · have hlong := h.long hleft
    have hle := h.le
    have hmore : n ≤ n * 10 ^ left := Nat.le_mul_of_pos_right n (Nat.pow_pos (by decide))
    omega

theorem Cut.step {n left v : Nat} (h : Cut n left v) {d : Nat} :
    (left = 0 ∧ n * 10 + d < word64 → Cut (n * 10 + d) 0 (v * 10 + d)) ∧
      (¬ (left = 0 ∧ n * 10 + d < word64) → d < 10 → Cut n (left + 1) (v * 10 + d)) := by
  refine ⟨fun hfits => ?_, fun hfull hd => ⟨?_, fun hnone => by omega, fun _ => ?_⟩⟩
  · rw [h.eq hfits.1]
    exact .refl _
  · have hle := h.le
    rw [Nat.pow_succ, ← Nat.mul_assoc]
    omega
  · by_cases hleft : left = 0
    · have hlarge : ¬ n * 10 + d < word64 := fun hless => hfull ⟨hleft, hless⟩
      unfold word64 at hlarge
      omega
    · exact h.long hleft

theorem digit?_head {c : Char} (hc : digit? c = none) (rest : List Char) :
    ∀ d, (c :: rest).head? = some d → digit? d = none := by
  intro d hd
  rw [← Option.some.inj hd]
  exact hc

theorem toNat_sub_lt_of_isDigit {c : Char} (h : c.isDigit = true) : c.toNat - 48 < 10 := by
  simp only [Char.isDigit, Bool.and_eq_true, decide_eq_true_eq] at h
  have hle : c.toNat ≤ 57 := UInt32.le_iff_toNat_le.1 h.2
  omega

theorem wordDigits_cut {cs rest : List Char} (h : ∀ c ∈ cs, c.isDigit = true)
    (hrest : ∀ c, rest.head? = some c → digit? c = none) {n left v : Nat} (hcut : Cut n left v)
    (taken : Nat) : ∃ n' taken' left', wordDigits n taken left (cs ++ rest) =
      (n', taken', left', rest) ∧ taken' + left' = taken + left + cs.length ∧
      Cut n' left' (Nat.ofDigitChars 10 cs v) := by
  induction cs generalizing n left v taken with
  | nil =>
    refine ⟨n, taken, left, ?_, rfl, by rwa [Nat.ofDigitChars_nil]⟩
    cases rest with
    | nil => rfl
    | cons c rest => rw [List.nil_append, wordDigits, hrest c rfl]
  | cons c cs ih =>
    have hc := h c List.mem_cons_self
    have htail : ∀ d ∈ cs, d.isDigit = true := fun d hd => h d (List.mem_cons_of_mem c hd)
    have hvalue : Nat.ofDigitChars 10 (c :: cs) v =
        Nat.ofDigitChars 10 cs (v * 10 + (c.toNat - 48)) := by
      rw [Nat.ofDigitChars_cons, Nat.mul_comm]
      rfl
    rw [hvalue, List.cons_append, wordDigits, digit?_of_isDigit hc]
    dsimp only
    split
    · rename_i hfits
      obtain ⟨n', taken', left', heq, hsum, hcut'⟩ := ih htail (hcut.step.1 hfits) (taken + 1)
      exact ⟨n', taken', left', heq, by rw [List.length_cons]; omega, hcut'⟩
    · rename_i hfull
      obtain ⟨n', taken', left', heq, hsum, hcut'⟩ := ih htail (hcut.step.2 hfull (toNat_sub_lt_of_isDigit hc)) taken
      exact ⟨n', taken', left', heq, by rw [List.length_cons]; omega, hcut'⟩

/-- An exponent of two digits, as great numbers have it. -/
theorem exponentPart?_lead {l : Nat} (hlow : 16 ≤ l) (hhigh : l ≤ 20) (s : Nat) (power : Int) :
    exponentPart? false s power (Decimal.intChars ['+'] l) =
      (scaled? false s (addPower power l)).map fun j => (j, []) := by
  obtain rfl | rfl | rfl | rfl | rfl : l = 16 ∨ l = 17 ∨ l = 18 ∨ l = 19 ∨ l = 20 := by omega
  all_goals rfl

theorem wordDigits_zero {n : Nat} (h : n * 10 < word64) :
    wordDigits n 0 0 ['0'] = (n * 10, 1, 0, []) := by
  rw [wordDigits, digit?_of_isDigit rfl]
  dsimp only
  rw [if_pos ⟨rfl, h⟩]
  rfl

/-- A whole number before a zero after the point. -/
theorem unsignedNumber?_pointZero {v : Nat} (hlow : 2 ^ 53 ≤ v) (hhigh : v ≤ 10 ^ 16)
    {cs : List Char} (hdigits : ∀ c ∈ cs, c.isDigit = true) (hhead : cs.head? ≠ some '0')
    (hvalue : Nat.ofDigitChars 10 cs 0 = v) :
    ∃ y, unsignedNumber? false (cs ++ ['.', '0']) = some (.float y, []) ∧ y.Great := by
  obtain ⟨y, hy, hgreat⟩ := scaled?_down (s := v * 10) (by omega) (by omega)
  refine ⟨y, ?_, hgreat⟩
  have hne : cs ≠ [] := by
    rintro rfl
    rw [Nat.ofDigitChars_nil] at hvalue
    omega
  have hlen : 0 < cs.length := List.length_pos_iff.2 hne
  have hhead' : (cs ++ ['.', '0']).head? ≠ some '0' := by
    cases cs with
    | nil => exact absurd rfl hne
    | cons c cs => exact hhead
  obtain ⟨n, t, left, hwhole, hsum, hcut⟩ :=
    wordDigits_cut hdigits (digit?_head (c := '.') rfl ['0']) (Cut.refl 0) 0
  rw [hvalue] at hcut
  obtain ⟨rfl, rfl⟩ := hcut.eq_of_lt (by omega)
  rw [unsignedNumber?, hwhole]
  dsimp only
  rw [if_neg (by omega), if_neg (fun h => hhead' h.1), afterWhole?,
    wordDigits_zero (by unfold word64; omega)]
  dsimp only
  rw [if_neg (by decide), afterDigits?]
  show (scaled? false (n * 10) (-1)).map _ = _
  rw [hy, Option.map_some]

/-- Nearly all digits, with the power that stands for those left out. -/
theorem Cut.scaled? {n left d p : Nat} (h : Cut n left d) (hlow : 2 ^ 53 ≤ d * 10 ^ p)
    (hhigh : d * 10 ^ p ≤ 10 ^ 20) :
    ∃ y, Json.scaled? false n ((p + left : Nat) : Int) = some (.float y) ∧ y.Great := by
  refine scaled?_up ?_ ?_
  · by_cases hleft : left = 0
    · rw [h.eq hleft, hleft]
      exact hlow
    · calc 2 ^ 53 ≤ n := Nat.le_trans (by decide) (h.long hleft)
        _ ≤ n * 10 ^ (p + left) := Nat.le_mul_of_pos_right n (Nat.pow_pos (by decide))
  · calc n * 10 ^ (p + left) = n * 10 ^ left * 10 ^ p := by ring
      _ ≤ d * 10 ^ p := Nat.mul_le_mul_right _ h.le
      _ ≤ 10 ^ 20 := hhigh

theorem unsignedNumber?_cons {c : Char} (hc : c.isDigit = true) {rest : List Char}
    (hrest : ∀ c, rest.head? = some c → digit? c = none) :
    unsignedNumber? false (c :: rest) =
      afterWhole? false (Nat.ofDigitChars 10 [c] 0) 0 rest := by
  have hdigits : ∀ d ∈ [c], d.isDigit = true := List.forall_mem_singleton.2 hc
  obtain ⟨n, t, left, hread, hsum, hcut⟩ := wordDigits_cut hdigits hrest (Cut.refl 0) 0
  have hsmall : Nat.ofDigitChars 10 [c] 0 < 2 ^ 60 := by
    rw [Nat.ofDigitChars_cons, Nat.ofDigitChars_nil]
    have hless := toNat_sub_lt_of_isDigit hc
    omega
  obtain ⟨rfl, rfl⟩ := hcut.eq_of_lt hsmall
  rw [List.length_singleton] at hsum
  rw [unsignedNumber?, show c :: rest = [c] ++ rest from rfl, hread]
  dsimp only
  rw [if_neg (by omega), if_neg (by omega)]

/-- Digits with a point after the first one, if there are more, and an exponent. -/
theorem unsignedNumber?_exponent {d p l : Nat} (hlow : 2 ^ 53 ≤ d * 10 ^ p)
    (hhigh : d * 10 ^ p ≤ 10 ^ 20) {cs : List Char} (hdigits : ∀ c ∈ cs, c.isDigit = true)
    (hne : cs ≠ []) (hvalue : Nat.ofDigitChars 10 cs 0 = d) (hlead : l + 1 = p + cs.length)
    (hleast : 16 ≤ l) (hmost : l ≤ 20) :
    ∃ y, unsignedNumber? false (Decimal.pointed cs ++ 'e' :: Decimal.intChars ['+'] l) =
      some (.float y, []) ∧ y.Great := by
  have he := digit?_head (c := 'e') rfl (Decimal.intChars ['+'] l)
  obtain ⟨first, rest, rfl⟩ := List.exists_cons_of_ne_nil hne
  have hfirst := hdigits first List.mem_cons_self
  have hrest : ∀ c ∈ rest, c.isDigit = true := fun c hc => hdigits c (List.mem_cons_of_mem _ hc)
  rw [List.length_cons] at hlead
  cases rest with
  | nil =>
    obtain ⟨y, hy, hgreat⟩ := (Cut.refl d).scaled? hlow hhigh
    refine ⟨y, ?_, hgreat⟩
    have hpower : addPower ((0 : Nat) : Int) l = ((p + 0 : Nat) : Int) := by
      rw [List.length_nil] at hlead
      unfold addPower
      omega
    rw [Decimal.pointed, List.singleton_append, unsignedNumber?_cons hfirst he, hvalue, afterWhole?,
      exponentPart?_lead hleast hmost, hpower, hy, Option.map_some]
  | cons second more =>
    obtain ⟨n, t, left, hread, hsum, hcut⟩ :=
      wordDigits_cut hrest he (Cut.refl (Nat.ofDigitChars 10 [first] 0)) 0
    rw [← Nat.ofDigitChars_append, List.singleton_append, hvalue] at hcut
    obtain ⟨y, hy, hgreat⟩ := hcut.scaled? hlow hhigh
    refine ⟨y, ?_, hgreat⟩
    have hpoint :=
      digit?_head (c := '.') rfl (second :: more ++ 'e' :: Decimal.intChars ['+'] l)
    have hpower : addPower (((0 : Nat) : Int) - t) l = ((p + left : Nat) : Int) := by
      unfold addPower
      omega
    rw [List.length_cons] at hsum
    rw [Decimal.pointed, List.cons_append, List.cons_append, unsignedNumber?_cons hfirst hpoint,
      afterWhole?, hread]
    dsimp only
    rw [if_neg (by omega), afterDigits?, if_pos (.inl rfl), exponentPart?_lead hleast hmost, hpower,
      hy, Option.map_some]
    exact List.cons_ne_nil second more

/-! ## 5. Great counts -/

theorem length_toDigits_bounds {d : Nat} (hd : d ≠ 0) :
    ∃ k, (Nat.toDigits 10 d).length = k + 1 ∧ 10 ^ k ≤ d ∧ d < 10 ^ (k + 1) := by
  have hpos : 0 < (Nat.toDigits 10 d).length := Nat.length_toDigits_pos
  obtain ⟨k, hk⟩ : ∃ k, (Nat.toDigits 10 d).length = k + 1 := ⟨_, (Nat.sub_add_cancel hpos).symm⟩
  have hless := (Nat.length_toDigits_le_iff (n := d) (by decide) (Nat.succ_pos k)).1 hk.le
  refine ⟨k, hk, ?_, hless⟩
  cases k with
  | zero => rw [Nat.pow_zero]; omega
  | succ k =>
    refine Nat.le_of_not_lt fun hlt => ?_
    have hle := (Nat.length_toDigits_le_iff (by decide) (Nat.succ_pos k)).2 hlt
    omega

theorem unsignedNumber?_render {d : Decimal} (hpower : 0 ≤ d.power) (hlow : 2 ^ 53 ≤ d.whole)
    (hhigh : d.whole ≤ 10 ^ 20) :
    ∃ y, unsignedNumber? false (numberLayout.render d) = some (.float y, []) ∧ y.Great := by
  obtain ⟨d, power⟩ := d
  obtain ⟨p, rfl⟩ := Int.eq_ofNat_of_zero_le hpower
  unfold Decimal.whole at hlow hhigh
  rw [Int.toNat_natCast] at hlow hhigh
  dsimp only at hlow hhigh
  have hne : d ≠ 0 := by
    rintro rfl
    omega
  have hdigits : ∀ c ∈ Nat.toDigits 10 d, c.isDigit = true := fun _ => isDigit_of_mem_toDigits
  have hvalue : Nat.ofDigitChars 10 (Nat.toDigits 10 d) 0 = d := Nat.ofDigitChars_ten_toDigits
  obtain ⟨k, hk, hleast, hmost⟩ := length_toDigits_bounds hne
  have hlead : (p : Int) + (Nat.toDigits 10 d).length - 1 = ((p + k : Nat) : Int) := by
    rw [hk]
    omega
  have hbelow : p + k ≤ 20 := by
    refine (Nat.pow_le_pow_iff_right (by decide : 1 < 10)).1 (Nat.le_trans ?_ hhigh)
    rw [Nat.pow_add, Nat.mul_comm]
    exact Nat.mul_le_mul_right _ hleast
  rw [Decimal.Layout.render, Decimal.digitChars]
  dsimp only
  rw [if_neg hne, hlead]
  by_cases hplain : p + k < 16
  · have hvalue' : Nat.ofDigitChars 10 (Nat.toDigits 10 d ++ List.replicate p '0') 0 = d * 10 ^ p := by
      rw [Nat.ofDigitChars_append, hvalue, Nat.ofDigitChars_replicate_zero, Nat.mul_comm]
    have hsmall : d * 10 ^ p ≤ 10 ^ 16 := by
      calc d * 10 ^ p ≤ 10 ^ (k + 1) * 10 ^ p := Nat.mul_le_mul_right _ hmost.le
        _ = 10 ^ (k + 1 + p) := (Nat.pow_add ..).symm
        _ ≤ 10 ^ 16 := Nat.pow_le_pow_right (by decide) (by omega)
    have hhead : (Nat.toDigits 10 d ++ List.replicate p '0').head? ≠ some '0' := by
      have hfirst := head?_toDigits_ne_zero hne
      obtain ⟨c, cs, hcs⟩ := List.exists_cons_of_ne_nil (Nat.toDigits_ne_nil (n := d) (b := 10))
      rw [hcs] at hfirst ⊢
      exact hfirst
    rw [if_neg (by unfold numberLayout; dsimp only; omega), if_pos hpower, Int.toNat_natCast]
    refine unsignedNumber?_pointZero hlow hsmall (fun c hc => ?_) hhead hvalue'
    rcases List.mem_append.1 hc with hc | hc
    · exact hdigits c hc
    · rw [(List.mem_replicate.1 hc).2]
      rfl
  · rw [if_pos (by unfold numberLayout; dsimp only; omega)]
    exact unsignedNumber?_exponent hlow hhigh hdigits Nat.toDigits_ne_nil hvalue (by omega)
      (by omega) hbelow

/-- **A great count is read as a great count.** -/
theorem parse?_floatChars_great {x : Binary64} (h : x.Great) :
    ∃ y, parse? (floatChars x) = some (.float y) ∧ y.Great := by
  obtain ⟨hpower, hlow, hhigh⟩ := Decimal.shortest_whole h
  obtain ⟨y, hread, hgreat⟩ := unsignedNumber?_render hpower hlow hhigh
  obtain ⟨c, cs, hcs, hc⟩ := exists_render_eq_cons (Decimal.shortest x)
  refine ⟨y, ?_, hgreat⟩
  rw [parse?, parseAs?, floatChars, if_pos h.isFinite, h.sign, if_neg (by decide), List.nil_append]
  rw [hcs] at hread ⊢
  rw [value?_of_isDigit hc, hread]
  rfl

end Json

end CoverageLedger
