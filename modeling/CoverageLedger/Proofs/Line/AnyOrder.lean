import CoverageLedger.Proofs.Line.Sessions
import CoverageLedger.Proofs.Reading.Columns

/-!
# Readings and sessions in any order

Of two readings whose numbers stand where `ofNumber` puts them (`Proper`) it does not matter which
comes first (`merge_commutes`).  The order of the sessions of a line does not matter either, as long
as none has column ranges (`readingOf_any_order`).  For that it is enough that numbers are above zero
and that none is both a count and a share: of two equal numbers the first stays
(`first_of_equals_stays`).
-/

namespace CoverageLedger

namespace Reading

variable {a b : Reading} {m : Option (List BranchArm)} {x : Binary64}

/-! ## 1. Numbers in their places -/

/-- A count is at least one, and a share is more than nothing and less than one. -/
def Proper : Reading → Prop
  | .hit x => Binary64.one.le x = true
  | .fraction x => Binary64.zero.lt x = true ∧ x.lt .one = true
  | _ => True

/-- Reading a number never gives anything else. -/
theorem proper_ofNumber (h : x.isNaN = false) : (ofNumber x).Proper := by
  have hone : Binary64.one.isNaN = false := rfl
  have hzero : Binary64.zero.isNaN = false := rfl
  rw [ofNumber]
  split
  · trivial
  · rename_i hsign
    split
    · trivial
    · rename_i hne
      have hrank : x.rank ≠ 0 := by simpa [Binary64.isZero] using hne
      have hpositive : x.negative = false := by
        simpa [Binary64.isNegative, hne, h] using hsign
      have hplace : x.place = x.rank := by rw [Binary64.place, hpositive, if_neg Bool.false_ne_true]
      split
      · rename_i hlt
        refine ⟨?_, hlt⟩
        simp only [Binary64.lt, h, hzero, hplace, Bool.not_false, Bool.true_and, decide_eq_true_eq]
        show (0 : Int) < x.rank
        omega
      · rename_i hge
        simp only [Binary64.lt, h, hone, Bool.not_false, Bool.true_and, decide_eq_true_eq] at hge
        simp only [Proper, Binary64.le, h, hone, Bool.not_false, Bool.true_and, decide_eq_true_eq]
        omega

/-- A number above zero has a rank above zero and no sign. -/
theorem eq_positive_of_lt (h : Binary64.zero.lt x = true) :
    ∃ p : Positive, x = ⟨false, p.1⟩ := by
  obtain ⟨sign, rank⟩ := x
  simp only [Binary64.lt, Binary64.isNaN, Bool.and_eq_true, Bool.not_eq_true',
    decide_eq_false_iff_not, decide_eq_true_eq] at h
  obtain ⟨⟨-, hnan⟩, hplace⟩ := h
  rw [show Binary64.zero.place = 0 from rfl] at hplace
  cases sign with
  | true =>
    simp only [Binary64.place, if_true] at hplace
    omega
  | false =>
    simp only [Binary64.place, Bool.false_eq_true, if_false] at hplace
    exact ⟨⟨rank, by omega, by omega⟩, rfl⟩

/-- A number, if there is one, is above zero. -/
def AboveZero : Reading → Prop
  | .hit x | .fraction x => Binary64.zero.lt x = true
  | _ => True

theorem Proper.aboveZero (h : a.Proper) : a.AboveZero := by
  cases a with
  | hit x =>
    have hone : Binary64.one.le x = true := h
    have hplace : Binary64.zero.place < Binary64.one.place := by decide
    simp only [Binary64.le, Bool.and_eq_true, decide_eq_true_eq] at hone
    simp only [AboveZero, Binary64.lt, hone.1.2, Bool.and_true, Bool.and_eq_true, decide_eq_true_eq]
    exact ⟨rfl, by omega⟩
  | fraction x => exact h.1
  | _ => trivial

theorem Proper.plain (h : a.Proper) (hranges : a.isRanges = false) : a.Plain := by
  cases a with
  | absent => exact .absent
  | skipped => exact .skipped
  | miss => exact .miss
  | flag b => exact .flag b
  | ratio taken total => exact .ratio taken total
  | ranges l => cases hranges
  | hit x =>
    obtain ⟨p, rfl⟩ := eq_positive_of_lt h.aboveZero
    have hone : Binary64.one.le ⟨false, p.1⟩ = true := h
    simp only [Binary64.le, Bool.and_eq_true, decide_eq_true_eq] at hone
    have hle : Binary64.one.rank ≤ p.1 := by
      have hrank := hone.2
      simp only [Binary64.place, Binary64.one, Bool.false_eq_true, if_false] at hrank
      exact Int.ofNat_le.1 hrank
    rw [← ofRank_of_le hle p.2.2]
    exact .positive p
  | fraction x =>
    obtain ⟨hpos, hlt⟩ := h
    obtain ⟨p, rfl⟩ := eq_positive_of_lt hpos
    have hbelow : p.1 < Binary64.one.rank := by
      have hrank := Binary64.lt_of_rank p.2.2 Binary64.one_le_infinite
      rw [show (⟨false, Binary64.one.rank⟩ : Binary64) = .one from rfl, hlt] at hrank
      exact of_decide_eq_true hrank.symm
    rw [← ofRank_of_lt p.2.1 hbelow]
    exact .positive p

/-! ## 2. Two readings -/

theorem Plain.merge_comm (ha : a.Plain) (hb : b.Plain) : a.merge b m = b.merge a m := by
  cases m with
  | none =>
    cases ha <;> cases hb <;> simp [Positive.sup_comm, Bool.or_comm, Nat.max_comm]
  | some arms =>
    cases ha <;> cases hb <;> simp [Positive.sup_comm, Bool.or_comm, Nat.max_comm]

/-- Beside a number or a ratio, ranges count as the ratio that they amount to. -/
theorem merge_ranges_left (l : List ColumnRange) (hb : b.number?.isSome ∨ b.isRatio) :
    merge (.ranges l) b m = (ratioOfRanges l).merge b m := by
  cases b with
  | miss | hit | fraction | ratio => rfl
  | _ => simp [number?, isRatio] at hb

theorem merge_ranges_right (l : List ColumnRange) (hb : b.number?.isSome ∨ b.isRatio) :
    b.merge (.ranges l) m = b.merge (ratioOfRanges l) m := by
  cases b with
  | miss | hit | fraction | ratio => rfl
  | _ => simp [number?, isRatio] at hb

theorem merge_ranges_comm (l : List ColumnRange) (hb : b.Proper) :
    merge (.ranges l) b m = b.merge (.ranges l) m := by
  have hratio : (ratioOfRanges l).Plain := .ratio _ _
  cases b with
  | absent => rw [merge_absent_left, merge_absent_right]
  | skipped => rw [merge_skipped_left, merge_skipped_right]
  | flag => rfl
  | ranges l' =>
    have hmem (r : ColumnRange) : r ∈ l ++ l' ↔ r ∈ l' ++ l := by
      rw [List.mem_append, List.mem_append, or_comm]
    exact congrArg ranges (ColumnRange.combine_congr (ColumnRange.columnMap_eq_of_mem_iff hmem))
  | miss | hit | fraction | ratio =>
    rw [merge_ranges_left l (by simp [number?, isRatio]),
      merge_ranges_right l (by simp [number?, isRatio]), hratio.merge_comm (hb.plain rfl)]

theorem Proper.merge_comm (ha : a.Proper) (hb : b.Proper) : a.merge b m = b.merge a m := by
  cases ha' : a.isRanges with
  | true =>
    cases a with
    | ranges l => exact merge_ranges_comm l hb
    | _ => cases ha'
  | false =>
    cases hb' : b.isRanges with
    | true =>
      cases b with
      | ranges l => exact (merge_ranges_comm l ha).symm
      | _ => cases hb'
    | false => exact (ha.plain ha').merge_comm (hb.plain hb')

/-- **Of two readings it does not matter which comes first**, whatever is known of single arms.  No
reading at all leaves the other as it is, and a skipped one takes over. -/
theorem merge_commutes (ha : a.Proper) (hb : b.Proper) (missing : Option (List BranchArm)) :
    a.merge b missing = b.merge a missing ∧
      merge .absent a missing = a ∧ a.merge .absent missing = a ∧
      merge .skipped a missing = .skipped ∧ a.merge .skipped missing = .skipped :=
  ⟨ha.merge_comm hb, merge_absent_left a, merge_absent_right a, merge_skipped_left a,
    merge_skipped_right a⟩

/-- Ranges and half a line, of two branches of which one is known to be missed. -/
theorem merge_commutes_ranges_half :
    let half : Reading := .fraction (.ofRatio false 1 2)
    let columns : Reading := .ranges [⟨none, some 3, true⟩, ⟨some 2, none, false⟩]
    (half.Proper ∧ columns.Proper) ∧
      half.merge columns (some [.index 1]) = columns.merge half (some [.index 1]) ∧
      half.merge columns (some [.index 1]) = .ratio 1 2 := by
  intro half columns
  have hhalf : half.Proper := ⟨by decide +kernel, by decide +kernel⟩
  have hcolumns : columns.Proper := trivial
  exact ⟨⟨hhalf, hcolumns⟩, (merge_commutes hhalf hcolumns _).1, by decide +kernel⟩

end Reading

/-! ## 3. Numbers in other places

A number above zero may also be a count below one or a share from one on.  To put it where
`ofNumber` puts it changes nothing in how readings are joined, so that what is known of plain
readings says which number stays.  Whether it stays as a count or as a share can depend on the order
only when some number is both.
-/

namespace Reading

variable {a b : Reading} {m : Option (List BranchArm)} {x y : Binary64} {l l' : List Reading}

/-- No number is both a count and a share. -/
def Unmixed (l : List Reading) : Prop := ∀ x, .hit x ∈ l → .fraction x ∉ l

/-- The same reading, with a number where `ofNumber` puts it. -/
def placed : Reading → Reading
  | .hit x | .fraction x => ofNumber x
  | r => r

theorem AboveZero.plain_placed (h : a.AboveZero) (hranges : a.isRanges = false) :
    a.placed.Plain := by
  cases a with
  | absent => exact .absent
  | skipped => exact .skipped
  | miss => exact .miss
  | flag b => exact .flag b
  | ratio taken total => exact .ratio taken total
  | ranges l => cases hranges
  | hit x | fraction x =>
    obtain ⟨p, rfl⟩ := eq_positive_of_lt h
    exact .positive p

theorem AboveZero.number?_placed (h : a.AboveZero) : a.placed.number? = a.number? := by
  cases a with
  | hit x | fraction x =>
    obtain ⟨p, rfl⟩ := eq_positive_of_lt h
    exact number?_positive
  | _ => rfl

/-- Readings that are the same once their numbers are put in place are the same but for counts that
are shares. -/
theorem eq_or_mixed_of_placed (ha : a.AboveZero) (hb : b.AboveZero) (h : a.placed = b.placed) :
    a = b ∨ ∃ x, (a = .hit x ∧ b = .fraction x) ∨ (a = .fraction x ∧ b = .hit x) := by
  have hnumber : a.number? = b.number? := by rw [← ha.number?_placed, h, hb.number?_placed]
  have hzero : ¬Binary64.zero.lt .zero = true := by decide
  cases a with
  | hit x =>
    cases b with
    | hit y => exact .inl (congrArg hit (Option.some.inj hnumber))
    | fraction y =>
      obtain rfl := Option.some.inj hnumber
      exact .inr ⟨x, .inl ⟨rfl, rfl⟩⟩
    | miss =>
      obtain rfl := Option.some.inj hnumber
      exact absurd ha hzero
    | _ => cases hnumber
  | fraction x =>
    cases b with
    | fraction y => exact .inl (congrArg fraction (Option.some.inj hnumber))
    | hit y =>
      obtain rfl := Option.some.inj hnumber
      exact .inr ⟨x, .inr ⟨rfl, rfl⟩⟩
    | miss =>
      obtain rfl := Option.some.inj hnumber
      exact absurd ha hzero
    | _ => cases hnumber
  | miss =>
    cases b with
    | hit y | fraction y =>
      obtain rfl := Option.some.inj hnumber
      exact absurd hb hzero
    | _ => exact .inl h
  | absent | skipped | flag | ratio | ranges =>
    cases b with
    | hit y | fraction y => cases hnumber
    | _ => exact .inl h

theorem placed_merge_of_number? (ha : a.AboveZero) (hb : b.AboveZero) (hx : a.number? = some x)
    (hy : b.number? = some y) : (a.merge b m).placed = a.placed.merge b.placed m := by
  rw [merge_of_number? hx hy, merge_of_number? (ha.number?_placed.trans hx)
    (hb.number?_placed.trans hy), apply_ite placed]

theorem placed_merge (ha : a.AboveZero) (hb : b.AboveZero) (har : a.isRanges = false)
    (hbr : b.isRanges = false) : (a.merge b m).placed = a.placed.merge b.placed m := by
  cases a with
  | absent => rfl
  | skipped =>
    rw [merge_skipped_left]
    exact (merge_skipped_left _).symm
  | ranges l => cases har
  | miss =>
    cases b with
    | miss | hit | fraction => exact placed_merge_of_number? ha hb rfl rfl
    | ranges l => cases hbr
    | absent | skipped | flag | ratio => cases m <;> rfl
  | hit x | fraction x =>
    obtain ⟨p, rfl⟩ := eq_positive_of_lt ha
    cases b with
    | miss | hit | fraction => exact placed_merge_of_number? ha hb rfl rfl
    | ranges l => cases hbr
    | absent => exact (merge_absent_right _).symm
    | skipped => exact (merge_skipped_right _).symm
    | flag c => exact merge_positive_flag.symm
    | ratio taken total =>
      cases m with
      | none => exact merge_positive_ratio.symm
      | some arms => exact merge_positive_ratio_arms.symm
  | flag c =>
    cases b with
    | hit y | fraction y =>
      obtain ⟨p, rfl⟩ := eq_positive_of_lt hb
      exact merge_flag_positive.symm
    | ranges l => cases hbr
    | absent | skipped | miss | flag | ratio => cases m <;> rfl
  | ratio taken total =>
    cases b with
    | hit y | fraction y =>
      obtain ⟨p, rfl⟩ := eq_positive_of_lt hb
      cases m with
      | none => exact merge_ratio_positive.symm
      | some arms =>
        exact (congrArg placed merge_ratio_miss_arms).trans merge_ratio_positive_arms.symm
    | ranges l => cases hbr
    | ratio taken' total' =>
      cases m with
      | none =>
        rw [merge_ratio_ratio]
        exact merge_ratio_ratio.symm
      | some arms => rfl
    | absent | skipped | miss | flag => cases m <;> rfl

/-- What two readings without ranges give is one of them, a ratio, or a yes or no. -/
theorem merge_cases (ha : a.isRanges = false) (hb : b.isRanges = false) :
    a.merge b m = a ∨ a.merge b m = b ∨ (∃ taken total, a.merge b m = .ratio taken total) ∨
      ∃ partly, a.merge b m = .flag partly := by
  have hnumbers {x y : Binary64} (hx : a.number? = some x) (hy : b.number? = some y) :
      a.merge b m = a ∨ a.merge b m = b := by
    rw [merge_of_number? hx hy]
    split
    · exact .inl rfl
    · exact .inr rfl
  cases a with
  | absent => exact .inr (.inl rfl)
  | skipped => exact .inl (merge_skipped_left _)
  | ranges l => cases ha
  | miss | hit | fraction =>
    cases b with
    | miss | hit | fraction => exact (hnumbers rfl rfl).imp_right .inl
    | ranges l => cases hb
    | absent => exact .inl rfl
    | skipped => exact .inr (.inl rfl)
    | flag => first | exact .inl rfl | exact .inr (.inl rfl)
    | ratio =>
      cases m with
      | none => first | exact .inl rfl | exact .inr (.inl rfl)
      | some arms => exact .inr (.inr (.inl ⟨_, _, rfl⟩))
  | flag c =>
    cases b with
    | ranges l => cases hb
    | absent | miss => exact .inl rfl
    | skipped | hit | fraction => exact .inr (.inl rfl)
    | flag => exact .inr (.inr (.inr ⟨_, rfl⟩))
    | ratio =>
      cases m with
      | none => exact .inr (.inl rfl)
      | some arms => exact .inr (.inr (.inl ⟨_, _, rfl⟩))
  | ratio taken total =>
    cases b with
    | ranges l => cases hb
    | absent => exact .inl rfl
    | skipped => exact .inr (.inl rfl)
    | miss | flag =>
      cases m with
      | none => exact .inl rfl
      | some arms => exact .inr (.inr (.inl ⟨_, _, rfl⟩))
    | hit | fraction =>
      cases m with
      | none => exact .inr (.inl rfl)
      | some arms => exact .inr (.inr (.inl ⟨_, _, rfl⟩))
    | ratio taken' total' =>
      cases m with
      | none => exact .inr (.inr (.inl ⟨_, _, merge_ratio_ratio⟩))
      | some arms => exact .inr (.inr (.inl ⟨_, _, rfl⟩))

/-- Readings without ranges whose numbers are above zero. -/
def Joinable (a : Reading) : Prop := a.AboveZero ∧ a.isRanges = false

theorem joinable_absent : Joinable .absent := ⟨trivial, rfl⟩

theorem Joinable.merge (ha : a.Joinable) (hb : b.Joinable) : (a.merge b m).Joinable := by
  rcases merge_cases (m := m) ha.2 hb.2 with h | h | ⟨taken, total, h⟩ | ⟨partly, h⟩
  · rw [h]
    exact ha
  · rw [h]
    exact hb
  · rw [h]
    exact ⟨trivial, rfl⟩
  · rw [h]
    exact ⟨trivial, rfl⟩

theorem placed_foldl_merge (hl : ∀ r ∈ l, r.Joinable) {acc : Reading} (hacc : acc.Joinable) :
    (l.foldl (fun acc r => acc.merge r m) acc).placed =
      (l.map placed).foldl (fun acc r => acc.merge r m) acc.placed := by
  induction l generalizing acc with
  | nil => rfl
  | cons r rest ih =>
    have hr := hl r List.mem_cons_self
    rw [List.map_cons, List.foldl_cons, List.foldl_cons,
      ih (fun q hq => hl q (List.mem_cons_of_mem r hq)) (hacc.merge hr),
      placed_merge hacc.1 hr.1 hacc.2 hr.2]

/-- What is joined from the first to the last is as before, one of the readings, or no number. -/
theorem foldl_merge_cases (hl : ∀ r ∈ l, r.Joinable) {acc : Reading} (hacc : acc.Joinable) :
    (l.foldl (fun acc r => acc.merge r m) acc).Joinable ∧
      (l.foldl (fun acc r => acc.merge r m) acc = acc ∨
        l.foldl (fun acc r => acc.merge r m) acc ∈ l ∨
        (l.foldl (fun acc r => acc.merge r m) acc).number? = none) := by
  induction l generalizing acc with
  | nil => exact ⟨hacc, .inl rfl⟩
  | cons r rest ih =>
    have hr := hl r List.mem_cons_self
    rw [List.foldl_cons]
    obtain ⟨hjoinable, hcases⟩ :=
      ih (fun q hq => hl q (List.mem_cons_of_mem r hq)) (hacc.merge (m := m) hr)
    refine ⟨hjoinable, ?_⟩
    rcases hcases with hfirst | hin | hnone
    · rw [hfirst]
      rcases merge_cases (m := m) hacc.2 hr.2 with h | h | ⟨taken, total, h⟩ | ⟨partly, h⟩
      · exact .inl h
      · exact .inr (.inl (List.mem_cons.2 (.inl h)))
      · exact .inr (.inr (congrArg number? h))
      · exact .inr (.inr (congrArg number? h))
    · exact .inr (.inl (List.mem_cons_of_mem r hin))
    · exact .inr (.inr hnone)

theorem mergeAll_cases (hl : ∀ r ∈ l, r.Joinable) :
    (mergeAll l m).Joinable ∧ (mergeAll l m ∈ l ∨ (mergeAll l m).number? = none) := by
  rw [mergeAll_eq_foldl]
  obtain ⟨hjoinable, hcases⟩ := foldl_merge_cases (m := m) hl joinable_absent
  refine ⟨hjoinable, ?_⟩
  rcases hcases with hfirst | hin | hnone
  · exact .inr (congrArg number? hfirst)
  · exact .inl hin
  · exact .inr hnone

theorem placed_mergeAll (hl : ∀ r ∈ l, r.Joinable) :
    (mergeAll l m).placed = mergeAll (l.map placed) m := by
  rw [mergeAll_eq_foldl, mergeAll_eq_foldl, placed_foldl_merge hl joinable_absent]
  rfl

/-- **Readings can be joined in any order** when their numbers are above zero and unmixed. -/
theorem mergeAll_perm_of_unmixed (h : l.Perm l') (hl : ∀ r ∈ l, r.Joinable)
    (hunmixed : Unmixed l) : mergeAll l m = mergeAll l' m := by
  have hl' : ∀ r ∈ l', r.Joinable := fun r hr => hl r (h.mem_iff.2 hr)
  have hsame : (mergeAll l m).placed = (mergeAll l' m).placed := by
    rw [placed_mergeAll hl, placed_mergeAll hl']
    refine mergeAll_perm (h.map placed) fun r hr => ?_
    obtain ⟨q, hq, rfl⟩ := List.mem_map.1 hr
    exact (hl q hq).1.plain_placed (hl q hq).2
  obtain ⟨hjoined, hcases⟩ := mergeAll_cases (m := m) hl
  obtain ⟨hjoined', hcases'⟩ := mergeAll_cases (m := m) hl'
  -- a number comes from the readings themselves, where it cannot be both
  have hin {x : Binary64} (hx : (mergeAll l m).number? = some x) : mergeAll l m ∈ l :=
    hcases.resolve_right fun hnone => by
      rw [hnone] at hx
      cases hx
  have hin' {x : Binary64} (hx : (mergeAll l' m).number? = some x) : mergeAll l' m ∈ l :=
    h.mem_iff.2 (hcases'.resolve_right fun hnone => by
      rw [hnone] at hx
      cases hx)
  rcases eq_or_mixed_of_placed hjoined.1 hjoined'.1 hsame with heq | ⟨x, ⟨hx, hx'⟩ | ⟨hx, hx'⟩⟩
  · exact heq
  · exact absurd (hx' ▸ hin' (congrArg number? hx')) (hunmixed x (hx ▸ hin (congrArg number? hx)))
  · exact absurd (hx ▸ hin (congrArg number? hx)) (hunmixed x (hx' ▸ hin' (congrArg number? hx')))

/-- Numbers in their places are unmixed. -/
theorem unmixed_of_proper (h : ∀ r ∈ l, r.Proper) : Unmixed l := by
  intro x hhit hshare
  have hone : Binary64.one.le x = true := h _ hhit
  have hlt : x.lt .one = true := (h _ hshare).2
  simp only [Binary64.le, Binary64.lt, Bool.and_eq_true, decide_eq_true_eq] at hone hlt
  omega

end Reading

/-! ## 4. The sessions of a line -/

namespace LineSession

variable {sessions others : List LineSession}

/-- **The sessions of a line can come in any order.**  The arms that none of them took are the same.
So is the reading that they give, when none has column ranges, numbers are above zero and none is
both a count and a share. -/
theorem readingOf_any_order (h : sessions.Perm others) :
    mergeMissing sessions = mergeMissing others ∧
      ((∀ s ∈ sessions, s.reading.isRanges = false) → (∀ s ∈ sessions, s.reading.AboveZero) →
        Reading.Unmixed (sessions.map (·.reading)) → readingOf sessions = readingOf others) := by
  have hmissing := mergeMissing_perm h
  refine ⟨hmissing, fun hranges habove hunmixed => ?_⟩
  rw [readingOf, readingOf, hmissing]
  refine Reading.mergeAll_perm_of_unmixed (h.map _) (fun r hr => ?_) hunmixed
  obtain ⟨s, hs, rfl⟩ := List.mem_map.1 hr
  exact ⟨habove s hs, hranges s hs⟩

/-- Two ratios with an arm that both miss, a yes and a share, in another order. -/
theorem readingOf_any_order_mixed :
    let one : LineSession :=
      { id := 0, reading := .ratio 1 3, missing := some [.index 2, .index 0] }
    let two : LineSession := { id := 1, reading := .ratio 2 3, missing := some [.index 2] }
    let three : LineSession := { id := 2, reading := .flag true }
    let four : LineSession := { id := 3, reading := .fraction (.ofRatio false 3 4) }
    let sessions := [one, two, three, four]
    (sessions.Perm [four, two, one, three] ∧ (∀ s ∈ sessions, s.reading.isRanges = false) ∧
      (∀ s ∈ sessions, s.reading.AboveZero) ∧ Reading.Unmixed (sessions.map (·.reading))) ∧
      mergeMissing [four, two, one, three] = some [.index 2] ∧
      readingOf [four, two, one, three] = readingOf sessions := by
  intro one two three four sessions
  have hperm : sessions.Perm [four, two, one, three] := by decide +kernel
  have hranges : ∀ s ∈ sessions, s.reading.isRanges = false := by decide +kernel
  have hproper : ∀ s ∈ sessions, s.reading.Proper := by
    simp only [sessions, List.forall_mem_cons, List.not_mem_nil, false_implies, implies_true,
      and_true]
    exact ⟨trivial, trivial, trivial, by decide +kernel, by decide +kernel⟩
  have habove : ∀ s ∈ sessions, s.reading.AboveZero := fun s hs => (hproper s hs).aboveZero
  have hunmixed : Reading.Unmixed (sessions.map (·.reading)) :=
    Reading.unmixed_of_proper (List.forall_mem_map.2 hproper)
  obtain ⟨harms, hreading⟩ := readingOf_any_order hperm
  exact ⟨⟨hperm, hranges, habove, hunmixed⟩, harms ▸ by decide +kernel,
    (hreading hranges habove hunmixed).symm⟩

/-- Of a half as a count and as a share, and of nothing as a count and a miss, the first stays.  A
count of less than nothing hides a no from the miss that follows. -/
theorem first_of_equals_stays :
    let half : Binary64 := .ofRatio false 1 2
    let minusOne : Binary64 := .ofRatio true 1 1
    let count : LineSession := { id := 0, reading := .hit half }
    let share : LineSession := { id := 1, reading := .fraction half }
    let nothing : LineSession := { id := 2, reading := .hit .zero }
    let miss : LineSession := { id := 3, reading := .miss }
    let less : LineSession := { id := 4, reading := .hit minusOne }
    let no : LineSession := { id := 5, reading := .flag false }
    (half.isFinite ∧ Binary64.zero.isFinite ∧ minusOne.isFinite) ∧
      ([count, share].Perm [share, count] ∧
        readingOf [count, share] = .hit half ∧ readingOf [share, count] = .fraction half) ∧
      ([nothing, miss].Perm [miss, nothing] ∧
        readingOf [nothing, miss] = .hit .zero ∧ readingOf [miss, nothing] = .miss) ∧
      [less, no, miss].Perm [less, miss, no] ∧
        readingOf [less, no, miss] = .miss ∧ readingOf [less, miss, no] = .flag false := by
  decide +kernel

end LineSession

end CoverageLedger
