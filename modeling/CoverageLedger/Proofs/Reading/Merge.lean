import CoverageLedger.Proofs.Decimal.Binary64
import CoverageLedger.Reading.Merge

/-!
# Joining readings in any order

Readings without column ranges come in a few kinds: none, skipped, a number (`ofRank`), a yes or no,
and a ratio.  One equation for each pair of kinds says what `Reading.merge` makes of them; from these
equations it follows that readings can be joined in any order (`mergeAll_perm`).
-/

namespace CoverageLedger.Reading

open Binary64 (infiniteRank)

variable {m : Option (List BranchArm)} {arms : List BranchArm} {j k : Nat}

/-! ## 1. Numbers -/

/-- The reading of the number of a rank that is not negative. -/
def ofRank (k : Nat) : Reading := ofNumber ⟨false, k⟩

theorem ofRank_zero : ofRank 0 = .miss := rfl

theorem ofRank_of_lt (h0 : 0 < k) (h1 : k < Binary64.one.rank) :
    ofRank k = .fraction ⟨false, k⟩ := by
  have hk : k ≤ infiniteRank := Nat.le_trans (Nat.le_of_lt h1) Binary64.one_le_infinite
  have hzero : (⟨false, k⟩ : Binary64).isZero = false := beq_false_of_ne (Nat.ne_of_gt h0)
  have hlt : (⟨false, k⟩ : Binary64).lt .one = true := by
    have hrank := Binary64.lt_of_rank hk Binary64.one_le_infinite
    rw [decide_eq_true h1] at hrank
    exact hrank
  rw [ofRank, ofNumber, Binary64.isNegative, hzero, hlt]
  rfl

theorem ofRank_of_le (h1 : Binary64.one.rank ≤ k) (hk : k ≤ infiniteRank) :
    ofRank k = .hit ⟨false, k⟩ := by
  have hpos : 0 < Binary64.one.rank := by decide
  have hne : k ≠ 0 := by omega
  have hzero : (⟨false, k⟩ : Binary64).isZero = false := beq_false_of_ne hne
  have hlt : (⟨false, k⟩ : Binary64).lt .one = false := by
    have hrank := Binary64.lt_of_rank hk Binary64.one_le_infinite
    rw [decide_eq_false (by omega)] at hrank
    exact hrank
  rw [ofRank, ofNumber, Binary64.isNegative, hzero, hlt]
  rfl

theorem ofCount_eq (n : Nat) : ofCount n = ofRank (Binary64.ofNat n).rank := by
  rw [ofCount, Binary64.ofNat_eq, ofRank]

/-- The ranks of the numbers above zero. -/
abbrev Positive : Type := { k : Nat // 0 < k ∧ k ≤ infiniteRank }

namespace Positive

/-- The greater rank. -/
def sup (p q : Positive) : Positive :=
  ⟨max p.1 q.1, Nat.lt_of_lt_of_le p.2.1 (Nat.le_max_left _ _), Nat.max_le.2 ⟨p.2.2, q.2.2⟩⟩

theorem sup_comm (p q : Positive) : p.sup q = q.sup p := Subtype.ext (Nat.max_comm _ _)

theorem sup_assoc (p q r : Positive) : (p.sup q).sup r = p.sup (q.sup r) :=
  Subtype.ext (Nat.max_assoc _ _ _)

theorem sup_left_comm (p q r : Positive) : p.sup (q.sup r) = q.sup (p.sup r) := by
  rw [← sup_assoc, sup_comm p q, sup_assoc]

end Positive

/-- The reading of a number above zero. -/
def positive (p : Positive) : Reading := ofRank p.1

/-- A number above zero is a fraction or a hit. -/
theorem positive_cases (p : Positive) :
    positive p = .fraction ⟨false, p.1⟩ ∨ positive p = .hit ⟨false, p.1⟩ := by
  by_cases h1 : p.1 < Binary64.one.rank
  · exact .inl (ofRank_of_lt p.2.1 h1)
  · exact .inr (ofRank_of_le (by omega) p.2.2)

/-- The readings without column ranges. -/
inductive Plain : Reading → Prop
  | absent : Plain .absent
  | skipped : Plain .skipped
  | miss : Plain .miss
  | positive (p : Positive) : Plain (positive p)
  | flag (b : Bool) : Plain (.flag b)
  | ratio (taken total : Nat) : Plain (.ratio taken total)

theorem plain_ofRank (hk : k ≤ infiniteRank) : Plain (ofRank k) := by
  by_cases h0 : k = 0
  · rw [h0, ofRank_zero]
    exact .miss
  · exact .positive ⟨k, by omega, hk⟩

theorem plain_ofCount (n : Nat) : Plain (ofCount n) := by
  rw [ofCount_eq]
  exact plain_ofRank (Binary64.rank_ofRatio_le false n 1)

/-! ## 2. One equation for each pair of kinds -/

section pairs

variable {p q : Positive} {b c : Bool} {taken total taken' total' : Nat}

@[simp] theorem merge_absent_left (a : Reading) : merge .absent a m = a := rfl

@[simp] theorem merge_absent_right (a : Reading) : merge a .absent m = a := by
  cases a <;> rfl

@[simp] theorem merge_skipped_left (a : Reading) : merge .skipped a m = .skipped := by
  cases a <;> rfl

@[simp] theorem merge_skipped_right (a : Reading) : merge a .skipped m = .skipped := by
  cases a <;> rfl

@[simp] theorem merge_miss_miss : merge .miss .miss m = .miss := rfl

theorem merge_of_number? {a a' : Reading} {x y : Binary64} (ha : a.number? = some x)
    (ha' : a'.number? = some y) : merge a a' m = if y.le x then a else a' := by
  cases a with
  | miss | hit | fraction =>
    cases a' with
    | miss | hit | fraction =>
      obtain rfl := Option.some.inj ha
      obtain rfl := Option.some.inj ha'
      rfl
    | _ => cases ha'
  | _ => cases ha

theorem number?_positive : (positive p).number? = some ⟨false, p.1⟩ := by
  rcases positive_cases p with h | h <;> rw [h] <;> rfl

@[simp] theorem merge_miss_positive : merge .miss (positive p) m = positive p := by
  have hpos : ¬ p.1 ≤ 0 := by omega
  have hmiss : Reading.miss.number? = some ⟨false, 0⟩ := rfl
  rw [merge_of_number? hmiss number?_positive, Binary64.le_of_rank p.2.2 (Nat.zero_le _),
    decide_eq_false hpos, if_neg Bool.false_ne_true]

@[simp] theorem merge_positive_miss : merge (positive p) .miss m = positive p := by
  have hmiss : Reading.miss.number? = some ⟨false, 0⟩ := rfl
  rw [merge_of_number? number?_positive hmiss, Binary64.le_of_rank (Nat.zero_le _) p.2.2,
    decide_eq_true (Nat.zero_le _), if_pos rfl]

/-- Of two numbers the greater stays. -/
@[simp] theorem merge_positive_positive :
    merge (positive p) (positive q) m = positive (p.sup q) := by
  rw [merge_of_number? number?_positive number?_positive, Binary64.le_of_rank q.2.2 p.2.2]
  by_cases h : q.1 ≤ p.1
  · have hsup : p.sup q = p := Subtype.ext (Nat.max_eq_left h)
    rw [decide_eq_true h, if_pos rfl, hsup]
  · have hsup : p.sup q = q := Subtype.ext (Nat.max_eq_right (by omega))
    rw [decide_eq_false h, if_neg Bool.false_ne_true, hsup]

@[simp] theorem merge_flag_flag : merge (.flag b) (.flag c) m = .flag (b || c) := rfl

@[simp] theorem merge_miss_flag : merge .miss (.flag b) m = .flag b := rfl

@[simp] theorem merge_flag_miss : merge (.flag b) .miss m = .flag b := rfl

@[simp] theorem merge_positive_flag : merge (positive p) (.flag b) m = positive p := by
  rcases positive_cases p with h | h <;> rw [h] <;> rfl

@[simp] theorem merge_flag_positive : merge (.flag b) (positive p) m = positive p := by
  rcases positive_cases p with h | h <;> rw [h] <;> rfl

/-! Nothing is known of single arms: a ratio stands over everything but a number above zero. -/

@[simp] theorem merge_miss_ratio :
    merge .miss (.ratio taken total) none = .ratio taken total := rfl

@[simp] theorem merge_ratio_miss :
    merge (.ratio taken total) .miss none = .ratio taken total := rfl

@[simp] theorem merge_flag_ratio :
    merge (.flag b) (.ratio taken total) none = .ratio taken total := rfl

@[simp] theorem merge_ratio_flag :
    merge (.ratio taken total) (.flag b) none = .ratio taken total := rfl

@[simp] theorem merge_positive_ratio :
    merge (positive p) (.ratio taken total) none = positive p := by
  rcases positive_cases p with h | h <;> rw [h] <;> rfl

@[simp] theorem merge_ratio_positive :
    merge (.ratio taken total) (positive p) none = positive p := by
  rcases positive_cases p with h | h <;> rw [h] <;> rfl

@[simp] theorem merge_ratio_ratio :
    merge (.ratio taken total) (.ratio taken' total') none =
      .ratio (max taken taken') (max total total') := by
  have hmerge : merge (.ratio taken total) (.ratio taken' total') none =
      if (Reading.ratio taken total == .ratio taken' total') = true then .ratio taken total
      else .ratio (max taken taken') (max total total') := rfl
  rw [hmerge]
  split
  · rename_i heq
    obtain ⟨rfl, rfl⟩ := Reading.ratio.inj (eq_of_beq heq)
    rw [Nat.max_self, Nat.max_self]
  · rfl

/-! The arms that no session took are known: they decide every ratio. -/

@[simp] theorem merge_miss_ratio_arms :
    merge .miss (.ratio taken total) (some arms) = .ratio (total - arms.length) total := by
  show Reading.ratio (max 0 total - arms.length) (max 0 total) = _
  rw [Nat.max_eq_right (Nat.zero_le _)]

@[simp] theorem merge_ratio_miss_arms :
    merge (.ratio taken total) .miss (some arms) = .ratio (total - arms.length) total := by
  show Reading.ratio (max total 0 - arms.length) (max total 0) = _
  rw [Nat.max_eq_left (Nat.zero_le _)]

@[simp] theorem merge_flag_ratio_arms :
    merge (.flag b) (.ratio taken total) (some arms) = .ratio (total - arms.length) total :=
  merge_miss_ratio_arms

@[simp] theorem merge_ratio_flag_arms :
    merge (.ratio taken total) (.flag b) (some arms) = .ratio (total - arms.length) total :=
  merge_ratio_miss_arms

@[simp] theorem merge_positive_ratio_arms :
    merge (positive p) (.ratio taken total) (some arms) = .ratio (total - arms.length) total := by
  rcases positive_cases p with h | h <;> rw [h] <;> exact merge_miss_ratio_arms

@[simp] theorem merge_ratio_positive_arms :
    merge (.ratio taken total) (positive p) (some arms) = .ratio (total - arms.length) total := by
  rcases positive_cases p with h | h <;> rw [h] <;> exact merge_ratio_miss_arms

@[simp] theorem merge_ratio_ratio_arms :
    merge (.ratio taken total) (.ratio taken' total') (some arms) =
      .ratio (max total total' - arms.length) (max total total') := rfl

end pairs

/-! ## 3. Any order -/

theorem Plain.merge {a b : Reading} (ha : a.Plain) (hb : b.Plain) : (a.merge b m).Plain := by
  cases m with
  | none =>
    cases ha <;> cases hb <;> simp <;> constructor
  | some arms =>
    cases ha <;> cases hb <;> simp <;> constructor

/-- Two readings can be joined into a third in either order. -/
theorem merge_right_comm {a b c : Reading} (ha : a.Plain) (hb : b.Plain) (hc : c.Plain) :
    (a.merge b m).merge c m = (a.merge c m).merge b m := by
  cases m with
  | none =>
    cases ha <;> cases hb <;> cases hc <;>
      simp [Positive.sup_comm, Positive.sup_left_comm, Bool.or_comm, Bool.or_left_comm,
        Nat.max_comm, Nat.max_left_comm]
  | some arms =>
    cases ha <;> cases hb <;> cases hc <;>
      simp [Positive.sup_comm, Positive.sup_left_comm, Bool.or_comm, Bool.or_left_comm,
        Nat.max_comm, Nat.max_left_comm]

/-- Without any reading to start from, the first one is joined like the others. -/
theorem mergeAll_eq_foldl (l : List Reading) :
    mergeAll l m = l.foldl (fun acc r => acc.merge r m) .absent := by
  cases l with
  | nil => rfl
  | cons first rest => rw [mergeAll, List.foldl_cons, merge_absent_left]

theorem foldl_merge_perm {l l' : List Reading} (h : l.Perm l') (hl : ∀ r ∈ l, r.Plain)
    {acc : Reading} (hacc : acc.Plain) :
    l.foldl (fun acc r => acc.merge r m) acc = l'.foldl (fun acc r => acc.merge r m) acc := by
  induction h generalizing acc with
  | nil => rfl
  | cons r _ ih =>
    exact ih (fun q hq => hl q (List.mem_cons_of_mem r hq)) (hacc.merge (hl r List.mem_cons_self))
  | swap r q rest =>
    have hr : r.Plain := hl r (List.mem_cons_of_mem q List.mem_cons_self)
    have hq : q.Plain := hl q List.mem_cons_self
    rw [List.foldl_cons, List.foldl_cons, List.foldl_cons, List.foldl_cons,
      merge_right_comm hacc hq hr]
  | trans h₁ _ ih₁ ih₂ =>
    rw [ih₁ hl hacc, ih₂ (fun r hr => hl r (h₁.mem_iff.2 hr)) hacc]

/-- **Readings can be joined in any order.** -/
theorem mergeAll_perm {l l' : List Reading} (h : l.Perm l') (hl : ∀ r ∈ l, r.Plain) :
    mergeAll l m = mergeAll l' m := by
  rw [mergeAll_eq_foldl, mergeAll_eq_foldl, foldl_merge_perm h hl .absent]

end CoverageLedger.Reading
