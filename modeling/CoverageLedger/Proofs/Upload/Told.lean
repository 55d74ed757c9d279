import CoverageLedger.Proofs.Decimal.Rounding
import CoverageLedger.Proofs.Upload.Order
import Mathlib.Data.List.Induction
import Mathlib.Data.List.Nodup
import Mathlib.Data.List.Perm.Subperm

/-!
# What tracefiles tell of a line

A tracefile tells of a line either how often it ran, or how many arms of its branch were taken and
which were not.  `LineSession.Told` is the form of both, in which the ratio and the list of arms say
the same.  Sessions of this form are joined into one of this form (`Told.ofJoined`), so the reading
of a line with arms is the number of arms less those that all sessions miss.
-/

namespace CoverageLedger

/-! ## 1. Counts and ratios -/

namespace Reading

variable {a b : Reading} {n : Nat} {arms : List BranchArm} {m : Option (List BranchArm)}

theorem ofCount_zero : ofCount 0 = .miss := rfl

theorem ofCount_eq_positive (hn : n ≠ 0) : ∃ p : Positive, ofCount n = positive p := by
  have hone := Binary64.one_le_rank_ofNat hn
  have hpos : 0 < Binary64.one.rank := by decide
  refine ⟨⟨(Binary64.ofNat n).rank, by omega, Binary64.rank_ofRatio_le false n 1⟩, ?_⟩
  rw [ofCount_eq, positive]

theorem ofCount_of_ne_zero (hn : n ≠ 0) : ofCount n = .hit (.ofNat n) := by
  rw [ofCount_eq, ofRank_of_le (Binary64.one_le_rank_ofNat hn) (Binary64.rank_ofRatio_le false n 1),
    ← Binary64.ofNat_eq]

theorem outcome_ofCount (n : Nat) :
    (ofCount n).outcome = some (if n = 0 then .miss else .hit) := by
  by_cases hn : n = 0
  · rw [hn, ofCount_zero]
    rfl
  · rw [ofCount_of_ne_zero hn, if_neg hn]
    rfl

/-- The greater of two counts stays, also where both are rounded to one number. -/
theorem merge_ofCount_max (j k : Nat) (m : Option (List BranchArm)) :
    (ofCount j).merge (ofCount k) m = ofCount (max j k) := by
  by_cases hj : j = 0
  · rw [hj, Nat.zero_max, ofCount_zero]
    by_cases hk : k = 0
    · rw [hk, ofCount_zero, merge_miss_miss]
    · obtain ⟨p, hp⟩ := ofCount_eq_positive hk
      rw [hp, merge_miss_positive]
  by_cases hk : k = 0
  · obtain ⟨p, hp⟩ := ofCount_eq_positive hj
    rw [hk, Nat.max_zero, ofCount_zero, hp, merge_positive_miss]
  have hnumber {n : Nat} (hn : n ≠ 0) :
      (ofCount n).number? = some ⟨false, (Binary64.ofNat n).rank⟩ := by
    rw [ofCount_of_ne_zero hn, ← Binary64.ofNat_eq]
    rfl
  have hfinite (n : Nat) : (Binary64.ofNat n).rank ≤ Binary64.infiniteRank :=
    Binary64.rank_ofRatio_le false n 1
  rw [merge_of_number? (hnumber hj) (hnumber hk), Binary64.le_of_rank (hfinite k) (hfinite j)]
  rcases Nat.le_total k j with hle | hle
  · rw [decide_eq_true (Binary64.rank_ofNat_mono hle), if_pos rfl, Nat.max_eq_left hle]
  · rw [Nat.max_eq_right hle]
    split
    · -- the smaller count is kept only when both have the same number
      rename_i hrank
      have hback := of_decide_eq_true hrank
      have hsame := Nat.le_antisymm (Binary64.rank_ofNat_mono hle) hback
      rw [ofCount_eq, ofCount_eq, hsame]
    · rfl

/-- Two counts are joined into one of them. -/
theorem merge_ofCount (k n : Nat) (m : Option (List BranchArm)) :
    ∃ c, (ofCount k).merge (ofCount n) m = ofCount c ∧ (c ≠ 0 ↔ k ≠ 0 ∨ n ≠ 0) :=
  ⟨max k n, merge_ofCount_max k n m, by omega⟩

/-- The readings that a tracefile gives: counts and ratios. -/
inductive Traced : Reading → Prop
  | count (n : Nat) : Traced (ofCount n)
  | ratio (taken total : Nat) : Traced (.ratio taken total)

theorem isRatio_ofCount (n : Nat) : (ofCount n).isRatio = false := by
  by_cases hn : n = 0
  · rw [hn, ofCount_zero]
    rfl
  · rw [ofCount_of_ne_zero hn]
    rfl

theorem branchTotal_ofCount (n : Nat) : (ofCount n).branchTotal = 0 := by
  by_cases hn : n = 0
  · rw [hn, ofCount_zero]
    rfl
  · rw [ofCount_of_ne_zero hn]
    rfl

/-- As soon as there is a ratio, the arms that are missing decide. -/
theorem merge_arms (ha : a.Traced) (hb : b.Traced) (h : a.isRatio = true ∨ b.isRatio = true) :
    a.merge b (some arms) = .ratio (max a.branchTotal b.branchTotal - arms.length)
      (max a.branchTotal b.branchTotal) := by
  cases ha with
  | ratio taken total =>
    cases hb with
    | ratio taken' total' => exact merge_ratio_ratio_arms
    | count n =>
      rw [branchTotal_ofCount, branchTotal, Nat.max_eq_left (Nat.zero_le _)]
      by_cases hn : n = 0
      · rw [hn, ofCount_zero, merge_ratio_miss_arms]
      · obtain ⟨p, hp⟩ := ofCount_eq_positive hn
        rw [hp, merge_ratio_positive_arms]
  | count k =>
    cases hb with
    | ratio taken total =>
      rw [branchTotal_ofCount, branchTotal, Nat.max_eq_right (Nat.zero_le _)]
      by_cases hk : k = 0
      · rw [hk, ofCount_zero, merge_miss_ratio_arms]
      · obtain ⟨p, hp⟩ := ofCount_eq_positive hk
        rw [hp, merge_positive_ratio_arms]
    | count n =>
      rw [isRatio_ofCount, isRatio_ofCount] at h
      rcases h with h | h <;> cases h

/-- The greatest number of arms that some readings count. -/
def greatestTotal (l : List Reading) : Nat := l.foldr (fun r most => max r.branchTotal most) 0

theorem branchTotal_le_greatestTotal {l : List Reading} (h : a ∈ l) :
    a.branchTotal ≤ greatestTotal l := by
  induction l with
  | nil => cases h
  | cons r rest ih =>
    rw [greatestTotal, List.foldr_cons]
    rcases List.mem_cons.1 h with rfl | h
    · exact Nat.le_max_left _ _
    · exact Nat.le_trans (ih h) (Nat.le_max_right _ _)

theorem greatestTotal_append (l l' : List Reading) :
    greatestTotal (l ++ l') = max (greatestTotal l) (greatestTotal l') := by
  induction l with
  | nil => exact (Nat.max_eq_right (Nat.zero_le _)).symm
  | cons r rest ih =>
    have hcons (l : List Reading) : greatestTotal (r :: l) = max r.branchTotal (greatestTotal l) :=
      rfl
    rw [List.cons_append, hcons, hcons, ih, Nat.max_assoc]

/-- Joining from a reading on gives a ratio when a ratio takes part in a step. -/
theorem foldl_merge_arms {l : List Reading} (ha : a.Traced) (hl : ∀ r ∈ l, r.Traced)
    (h : (a.isRatio = true ∧ l ≠ []) ∨ ∃ r ∈ l, r.isRatio = true) :
    l.foldl (fun acc r => acc.merge r (some arms)) a =
      .ratio (max a.branchTotal (greatestTotal l) - arms.length)
        (max a.branchTotal (greatestTotal l)) := by
  induction l generalizing a with
  | nil =>
    rcases h with ⟨-, hnil⟩ | ⟨r, hr, -⟩
    · exact absurd rfl hnil
    · cases hr
  | cons r rest ih =>
    have hr := hl r List.mem_cons_self
    have hrest : ∀ q ∈ rest, q.Traced := fun q hq => hl q (List.mem_cons_of_mem r hq)
    have htotal : greatestTotal (r :: rest) = max r.branchTotal (greatestTotal rest) := rfl
    rw [List.foldl_cons, htotal, ← Nat.max_assoc]
    by_cases hratio : a.isRatio = true ∨ r.isRatio = true
    · rw [merge_arms ha hr hratio]
      cases rest with
      | nil =>
        show Reading.ratio _ _ = .ratio (max _ 0 - _) (max _ 0)
        rw [Nat.max_eq_left (Nat.zero_le _)]
      | cons q others => exact ih (.ratio _ _) hrest (.inl ⟨rfl, List.cons_ne_nil q others⟩)
    · -- two counts make a count, and the ratio is still to come
      cases ha with
      | ratio taken total => exact absurd (.inl rfl) hratio
      | count k =>
        cases hr with
        | ratio taken total => exact absurd (.inr rfl) hratio
        | count n =>
          have hlater : ∃ q ∈ rest, q.isRatio = true := by
            rcases h with ⟨hk, -⟩ | ⟨q, hq, hqratio⟩
            · exact absurd (.inl hk) hratio
            · rcases List.mem_cons.1 hq with rfl | hq
              · exact absurd (.inr hqratio) hratio
              · exact ⟨q, hq, hqratio⟩
          obtain ⟨c, hc, -⟩ := merge_ofCount k n (some arms)
          rw [hc, ih (.count c) hrest (.inr hlater)]
          simp only [branchTotal_ofCount, Nat.max_self]

/-- Counts alone give a count, which is a hit when one of them is. -/
theorem foldl_merge_counts {l : List Reading} (k : Nat) (hl : ∀ r ∈ l, ∃ n, r = ofCount n) :
    ∃ c, l.foldl (fun acc r => acc.merge r m) (ofCount k) = ofCount c ∧
      (c ≠ 0 ↔ k ≠ 0 ∨ ∃ n, n ≠ 0 ∧ ofCount n ∈ l) := by
  induction l generalizing k with
  | nil => exact ⟨k, rfl, by simp⟩
  | cons r rest ih =>
    obtain ⟨n, rfl⟩ := hl r List.mem_cons_self
    obtain ⟨c, hc, hstep⟩ := merge_ofCount k n m
    obtain ⟨last, hlast, hrest⟩ := ih c fun q hq => hl q (List.mem_cons_of_mem _ hq)
    refine ⟨last, ?_, ?_⟩
    · rw [List.foldl_cons, hc, hlast]
    · rw [hrest, hstep]
      constructor
      · rintro ((hk | hn) | ⟨j, hj, hmem⟩)
        · exact .inl hk
        · exact .inr ⟨n, hn, List.mem_cons_self⟩
        · exact .inr ⟨j, hj, List.mem_cons_of_mem _ hmem⟩
      · rintro (hk | ⟨j, hj, hmem⟩)
        · exact .inl (.inl hk)
        · rcases List.mem_cons.1 hmem with heq | hmem
          · -- two counts that are the same reading are zero together
            refine .inl (.inr fun hn => ?_)
            rw [hn, ofCount_zero, ofCount_of_ne_zero hj] at heq
            cases heq
          · exact .inr ⟨j, hj, hmem⟩

end Reading

/-! ## 2. Numbered arms -/

namespace TraceRecord

/-- The arms of a line are numbered one after the other. -/
theorem arms_armHits (n : Nat) (earlier : List Nat) (records : List TraceRecord) :
    ((armHits earlier records).filter fun a => a.line == n).map (·.arm) =
      List.range' (earlier.count n) ((armHits earlier records).filter fun a => a.line == n).length := by
  induction records generalizing earlier with
  | nil => rfl
  | cons record rest ih =>
    cases record with
    | branch line hits =>
      rw [armHits]
      by_cases hline : line = n
      · rw [List.filter_cons_of_pos (by simp [hline]), List.map_cons, List.length_cons,
          List.range'_succ, ih, hline, List.count_cons_self]
      · rw [List.filter_cons_of_neg (by simp [hline]), ih,
          List.count_cons_of_ne (by simpa using hline)]
    | _ => exact ih earlier

end TraceRecord

namespace TracedFile

/-- The arms of every line are numbered from zero on. -/
def NumbersArms (f : TracedFile) : Prop :=
  ∀ n arms, f.armsByLine.get? n = some arms → arms.map (·.arm) = List.range arms.length

theorem numbersArms_ofSection (path : String) (records : List TraceRecord) :
    (ofSection path records).NumbersArms := by
  intro n arms harms
  have hvalues (l : List ArmHits) : Table.valuesAt n (l.map fun a => (a.line, a)) =
      l.filter fun a => a.line == n := by
    rw [Table.valuesAt, List.filter_map, List.map_map]
    exact List.map_id _
  rw [armsByLine, Table.get?_group, hvalues] at harms
  split at harms
  · cases harms
  · obtain rfl := Option.some.inj harms
    have hnumbers := TraceRecord.arms_armHits n [] records
    rw [List.count_nil, ← List.range_eq_range'] at hnumbers
    exact hnumbers

theorem numbersArms_of_ofBytes? {bytes : ByteArray} {files : List TracedFile}
    (h : ofBytes? bytes = .ok files) : ∀ f ∈ files, f.NumbersArms := by
  intro f hf
  rw [ofBytes?] at h
  split at h
  · obtain rfl := Except.ok.inj h
    rw [ofText, ofRows, List.mem_map] at hf
    obtain ⟨found, -, rfl⟩ := hf
    exact numbersArms_ofSection _ _
  · cases h

end TracedFile

theorem BranchArm.precedes_index {i j : Nat} (h : i < j) :
    Precedes (BranchArm.index i) (BranchArm.index j) := by
  show compare (i : Int) j = .lt
  exact Int.compare_eq_lt.2 (Int.ofNat_lt.2 h)

/-! ## 3. Sessions of a tracefile -/

namespace LineSession

variable {s t : LineSession} {sessions : List LineSession} {arms : List BranchArm}

/-- Arms of a branch with some number of arms, in order. -/
structure ArmsBelow (total : Nat) (arms : List BranchArm) : Prop where
  ascending : arms.Pairwise Precedes
  below : ∀ a ∈ arms, ∃ i : Nat, a = .index i ∧ i < total

/-- What a tracefile can tell of a line: a count, or a ratio with the arms that are missing from
it. -/
inductive Told (s : LineSession) : Prop
  | count (n : Nat) (missing : s.missing = none) (reading : s.reading = .ofCount n)
  | arms (arms : List BranchArm) (total : Nat) (missing : s.missing = some arms)
      (below : ArmsBelow total arms) (reading : s.reading = .ratio (total - arms.length) total)

theorem length_le_of_subset {l : List BranchArm} (h : l.Pairwise Precedes) (hsub : l ⊆ arms) :
    l.length ≤ arms.length := by
  have hnodup : l.Nodup := h.imp Precedes.ne
  exact (hnodup.subperm hsub).length_le

theorem ArmsBelow.length_le {total : Nat} (h : ArmsBelow total arms) : arms.length ≤ total := by
  have hsub : arms ⊆ (List.range total).map fun i : Nat => BranchArm.index i := by
    intro a ha
    obtain ⟨i, rfl, hi⟩ := h.below a ha
    exact List.mem_map.2 ⟨i, List.mem_range.2 hi, rfl⟩
  have hle := length_le_of_subset h.ascending hsub
  rwa [List.length_map, List.length_range] at hle

theorem Told.traced (h : s.Told) : s.reading.Traced := by
  cases h with
  | count n _ hreading => rw [hreading]; exact .count n
  | arms arms total _ _ hreading => rw [hreading]; exact .ratio _ _

theorem Told.isRatio (h : s.Told) (hm : s.missing = some arms) : s.reading.isRatio = true := by
  cases h with
  | count n hmissing _ => rw [hmissing] at hm; cases hm
  | arms _ _ _ _ hreading => rw [hreading]; rfl

theorem Told.below (h : s.Told) (hm : s.missing = some arms) :
    ArmsBelow s.reading.branchTotal arms := by
  cases h with
  | count n hmissing _ => rw [hmissing] at hm; cases hm
  | arms own total hmissing hbelow hreading =>
    rw [hmissing] at hm
    obtain rfl := Option.some.inj hm
    rw [hreading]
    exact hbelow

/-- The greatest number of arms that some sessions count. -/
def armTotal (sessions : List LineSession) : Nat :=
  Reading.greatestTotal (sessions.map (·.reading))

theorem exists_missing (h : mergeMissing sessions = some arms) :
    ∃ s ∈ sessions, ∃ own, s.missing = some own := by
  by_contra hnone
  have hall : ∀ s ∈ sessions, s.missing = none := by
    intro s hs
    cases hm : s.missing with
    | none => rfl
    | some own => exact absurd ⟨s, hs, own, hm⟩ hnone
  rw [mergeMissing_eq_none.2 hall] at h
  cases h

/-- The arms that all sessions miss are arms of the branch with the most arms. -/
theorem armsBelow_mergeMissing (h : ∀ s ∈ sessions, s.Told)
    (hm : mergeMissing sessions = some arms) : ArmsBelow (armTotal sessions) arms := by
  obtain ⟨hasc, hmem⟩ := mem_mergeMissing hm
  obtain ⟨s, hs, own, hown⟩ := exists_missing hm
  refine ⟨hasc, fun a ha => ?_⟩
  obtain ⟨i, hi, hlt⟩ := ((h s hs).below hown).below a (((hmem a).1 ha s hs).2 own hown)
  exact ⟨i, hi, Nat.lt_of_lt_of_le hlt
    (Reading.branchTotal_le_greatestTotal (List.mem_map.2 ⟨s, hs, rfl⟩))⟩

/-- **With arms, a line reads the number of arms less those that all sessions miss.** -/
theorem readingOf_of_missing (h : ∀ s ∈ sessions, s.Told)
    (hm : mergeMissing sessions = some arms) :
    readingOf sessions = .ratio (armTotal sessions - arms.length) (armTotal sessions) := by
  obtain ⟨s, hs, own, hown⟩ := exists_missing hm
  rw [readingOf, hm]
  cases sessions with
  | nil => cases hs
  | cons first rest =>
    cases rest with
    | nil =>
      -- one session keeps its reading, and its arms are the missing ones already
      obtain rfl := List.mem_singleton.1 hs
      cases h s hs with
      | count n hmissing _ => rw [hmissing] at hown; cases hown
      | arms found total hmissing hbelow hreading =>
        obtain ⟨hasc, hmem⟩ := mem_mergeMissing hm
        have heq : arms = found := by
          refine eq_of_ascending hasc hbelow.ascending fun a => ?_
          rw [hmem]
          constructor
          · intro hall
            exact (hall s hs).2 found hmissing
          · intro ha t ht
            obtain rfl := List.mem_singleton.1 ht
            refine ⟨fun hran => ?_, fun other hother => ?_⟩
            · rw [hran.1] at hmissing
              cases hmissing
            · rw [hmissing] at hother
              exact Option.some.inj hother ▸ ha
        have htotal : armTotal [s] = total := by
          show max s.reading.branchTotal 0 = total
          rw [hreading]
          exact Nat.max_eq_left (Nat.zero_le _)
        rw [htotal, heq]
        exact hreading
    | cons second others =>
      have hratio := (h s hs).isRatio hown
      apply Reading.foldl_merge_arms (h first List.mem_cons_self).traced
      · intro r hr
        obtain ⟨t, ht, rfl⟩ := List.mem_map.1 hr
        exact (h t (List.mem_cons_of_mem first ht)).traced
      · rcases List.mem_cons.1 hs with rfl | hs
        · exact .inl ⟨hratio, List.cons_ne_nil _ _⟩
        · exact .inr ⟨s.reading, List.mem_map.2 ⟨s, hs, rfl⟩, hratio⟩

/-- Without arms, a line reads a count, which is a hit when a session hit the line. -/
theorem readingOf_of_counts (h : ∀ s ∈ sessions, s.Told) (hne : sessions ≠ [])
    (hm : mergeMissing sessions = none) :
    ∃ c, readingOf sessions = .ofCount c ∧ (c ≠ 0 ↔ ∃ s ∈ sessions, s.RanAll) := by
  have hnone := mergeMissing_eq_none.1 hm
  have hcount : ∀ s ∈ sessions, ∃ n, s.reading = .ofCount n := by
    intro s hs
    cases h s hs with
    | count n _ hreading => exact ⟨n, hreading⟩
    | arms own total hmissing _ _ => rw [hnone s hs] at hmissing; cases hmissing
  have hran : ∀ s ∈ sessions, ∀ n, s.reading = .ofCount n → (s.RanAll ↔ n ≠ 0) := by
    intro s hs n hn
    rw [RanAll, hn, Reading.outcome_ofCount]
    by_cases hzero : n = 0 <;> simp [hzero, hnone s hs]
  cases sessions with
  | nil => exact absurd rfl hne
  | cons first rest =>
    obtain ⟨k, hk⟩ := hcount first List.mem_cons_self
    have hrest : ∀ r ∈ rest.map (·.reading), ∃ n, r = .ofCount n := by
      intro r hr
      obtain ⟨t, ht, rfl⟩ := List.mem_map.1 hr
      exact hcount t (List.mem_cons_of_mem first ht)
    obtain ⟨c, hc, hiff⟩ := Reading.foldl_merge_counts (m := none) k hrest
    refine ⟨c, ?_, ?_⟩
    · rw [readingOf, hm, List.map_cons, Reading.mergeAll, hk, hc]
    · rw [hiff]
      constructor
      · rintro (hpos | ⟨n, hpos, hmem⟩)
        · exact ⟨first, List.mem_cons_self, (hran first List.mem_cons_self k hk).2 hpos⟩
        · obtain ⟨t, ht, hread⟩ := List.mem_map.1 hmem
          have hin := List.mem_cons_of_mem first ht
          exact ⟨t, hin, (hran t hin n hread).2 hpos⟩
      · rintro ⟨t, ht, hall⟩
        obtain ⟨n, hn⟩ := hcount t ht
        have hpos := (hran t ht n hn).1 hall
        rcases List.mem_cons.1 ht with rfl | ht
        · left
          intro hzero
          exact (hran t List.mem_cons_self k hk).1 hall hzero
        · exact .inr ⟨n, hpos, List.mem_map.2 ⟨t, ht, hn⟩⟩

/-- **Sessions of tracefiles are joined into one like them.** -/
theorem Told.ofJoined (h : ∀ t ∈ sessions, t.Told) (hne : sessions ≠ [])
    (hmissing : s.missing = mergeMissing sessions) (hreading : s.reading = readingOf sessions) :
    s.Told := by
  cases hm : mergeMissing sessions with
  | none =>
    obtain ⟨c, hc, -⟩ := readingOf_of_counts h hne hm
    exact .count c (hmissing.trans hm) (hreading.trans hc)
  | some arms =>
    exact .arms arms (armTotal sessions) (hmissing.trans hm) (armsBelow_mergeMissing h hm)
      (hreading.trans (readingOf_of_missing h hm))

theorem Told.merge (hs : s.Told) (ht : t.Told) : (s.merge t).Told := by
  refine Told.ofJoined ?_ (List.cons_ne_nil s [t]) rfl rfl
  intro q hq
  rcases List.mem_cons.1 hq with rfl | hq
  · exact hs
  · rw [List.mem_singleton.1 hq]
    exact ht

/-- What is said of a line, if anything is. -/
def TellsOnly (own : Option LineSession) : Prop := ∀ s, own = some s → s.Told

theorem TellsOnly.none : TellsOnly none := fun _ h => by cases h

theorem TellsOnly.join {own : Option LineSession} (h : TellsOnly own) (hs : s.Told) :
    TellsOnly (join own s) := by
  intro t ht
  cases own with
  | none =>
    obtain rfl := Option.some.inj ht
    exact hs
  | some q =>
    obtain rfl := Option.some.inj ht
    exact (h q rfl).merge hs

end LineSession

/-! ## 4. From tracefiles to sessions -/

namespace TracedFile

open LineSession

variable {f : TracedFile}

theorem told_plainSession (hits : Nat) : (plainSession hits).Told := .count hits rfl rfl

theorem told_branchSession {arms : List ArmHits} (h : arms.map (·.arm) = List.range arms.length) :
    (branchSession arms).Told := by
  have hsub : (arms.filter fun a => a.hits = 0).map (·.arm) |>.Sublist
      (List.range arms.length) := by
    rw [← h]
    exact List.filter_sublist.map _
  have hlt : ((arms.filter fun a => a.hits = 0).map (·.arm)).Pairwise (· < ·) :=
    List.pairwise_lt_range.sublist hsub
  refine .arms _ arms.length rfl ⟨?_, ?_⟩ ?_
  · rw [List.pairwise_map] at hlt ⊢
    exact hlt.imp BranchArm.precedes_index
  · intro a ha
    obtain ⟨hit, hhit, rfl⟩ := List.mem_map.1 ha
    exact ⟨hit.arm, rfl, List.mem_range.1 (hsub.subset (List.mem_map.2 ⟨hit, hhit, rfl⟩))⟩
  · have hcount : arms.countP (fun a => 0 < a.hits) =
        arms.length - (arms.filter fun a => a.hits = 0).length := by
      rw [← List.countP_eq_length_filter,
        List.length_eq_countP_add_countP fun a : ArmHits => decide (a.hits = 0)]
      have hnot : arms.countP (fun a => decide (0 < a.hits)) =
          arms.countP fun a => decide (¬ decide (a.hits = 0) = true) := by
        apply List.countP_congr
        intro a _
        simp only [decide_eq_true_eq]
        omega
      rw [hnot]
      omega
    rw [List.length_map, branchSession, hcount]

theorem tellsOnly_reads (h : f.NumbersArms) (n : Nat) : TellsOnly (f.reads n) := fun _ hs =>
  forall_reads (fun _ _ ha hb => ha.merge hb) (fun n arms harms => told_branchSession (h n arms harms))
    (fun l _ => told_plainSession l.hits) (fun g _ => told_plainSession g.hits) hs

end TracedFile

open LineSession in
/-- Whatever an upload says of a line is of this form. -/
theorem tellsOnly_uploadReads {files : List TracedFile} (h : ∀ f ∈ files, f.NumbersArms)
    (name : String) (n : Nat) : TellsOnly (uploadReads files name n) := by
  induction files using List.reverseRecOn with
  | nil => exact TellsOnly.none
  | append_singleton files f ih =>
    have hfiles := ih fun g hg => h g (List.mem_append_left _ hg)
    rw [uploadReads_concat]
    split
    · split
      · rename_i s hs
        have hf := h f (List.mem_append_right _ List.mem_cons_self)
        exact hfiles.join (TracedFile.tellsOnly_reads hf n s hs)
      · exact hfiles
    · exact hfiles

end CoverageLedger
