import CoverageLedger.Proofs.Reading.Columns
import Mathlib.Data.List.Induction

/-!
# Joining ranges column by column

Ranges can be joined without cuts, by a walk over their columns (`walk`).  Closed ranges mark each
of theirs, open ones each of theirs up to the furthest column that any range names, and the rest of
the line has a mark of its own.  Columns are then taken one after the other into runs, and the rest
of the line comes last.  The walk takes a step for each column, and it gives what `combine` gives:
the canonical form of the map (`combine_is_canonical_form`).
-/

namespace CoverageLedger.ColumnRange

variable {l runs : List ColumnRange} {r : ColumnRange} {marks : Table Nat Bool}
  {first stop c : Nat} {last : Option Nat} {ran : Bool}

/-! ## 1. The walk -/

/-- Mark a column, which has run if it did before or does now. -/
def markColumn (ran : Bool) (marks : Table Nat Bool) (column : Nat) : Table Nat Bool :=
  marks.insert column ((marks.get? column).getD false || ran)

/-- Mark the columns of ranges from where each begins, before where it is to stop. -/
def markRanges (stop : ColumnRange → Nat) (l : List ColumnRange) (marks : Table Nat Bool) :
    Table Nat Bool :=
  l.foldl (fun marks r =>
    (List.range' r.start (stop r - r.start)).foldl (markColumn r.hit) marks) marks

def closedRanges (l : List ColumnRange) : List ColumnRange := l.filter (·.last.isSome)

def openRanges (l : List ColumnRange) : List ColumnRange := l.filter (·.last.isNone)

/-- The marks of the closed ranges. -/
def closedMarks (l : List ColumnRange) : Table Nat Bool :=
  markRanges (fun r => max (r.last.getD 0) r.start + 1) (closedRanges l) ∅

/-- Right after the furthest column at which an open range begins or that a closed one has. -/
def restStart (l : List ColumnRange) : Nat :=
  ((openRanges l).map start ++ (closedMarks l).keys).max?.getD 0 + 1

/-- The marks of all ranges up to the rest of the line. -/
def marksBeforeRest (l : List ColumnRange) : Table Nat Bool :=
  markRanges (fun _ => restStart l) (openRanges l) (closedMarks l)

/-- The mark of the rest of the line, which only open ranges have. -/
def restMark (l : List ColumnRange) : Option Bool :=
  (openRanges l).foldl (fun mark r => some (mark.getD false || r.hit)) none

/-- Put columns after runs, of which the last comes first; they go into that run when they begin
right after it and have the same mark. -/
def attach (first : Nat) (last : Option Nat) (ran : Bool) : List ColumnRange → List ColumnRange
  | [] => [⟨some first, last, ran⟩]
  | run :: rest =>
    if run.hit = ran ∧ run.last.map (· + 1) = some first then { run with last } :: rest
    else ⟨some first, last, ran⟩ :: run :: rest

/-- The runs of marked columns, the last one first. -/
def runsOfMarks (marks : List (Nat × Bool)) : List ColumnRange :=
  marks.foldl (fun runs e => attach e.1 (some e.1) e.2 runs) []

/-- Join ranges by a walk over their columns. -/
def walk (l : List ColumnRange) : List ColumnRange :=
  let runs := runsOfMarks (marksBeforeRest l).entries
  match restMark l with
  | some ran => (attach (restStart l) none ran runs).reverse
  | none => runs.reverse

/-! ## 2. Marks -/

/-- What is said of a column after what was said before, range by range. -/
theorem merge_columnMap_cons (mark : Option Bool) (r : ColumnRange) (rest : List ColumnRange)
    (c : Nat) : Option.merge (· || ·) mark (columnMap (r :: rest) c) =
      Option.merge (· || ·) (if r.Spans c then some (mark.getD false || r.hit) else mark)
        (columnMap rest c) := by
  rw [columnMap_cons]
  by_cases hspans : r.Spans c <;> cases mark <;> cases columnMap rest c <;>
    simp [hspans, Option.merge, Bool.or_assoc]

theorem get?_foldl_markColumn (columns : List Nat) (marks : Table Nat Bool) (c : Nat) :
    (columns.foldl (markColumn ran) marks).get? c =
      if c ∈ columns then some ((marks.get? c).getD false || ran) else marks.get? c := by
  induction columns generalizing marks with
  | nil => rfl
  | cons column rest ih =>
    rw [List.foldl_cons, ih, markColumn, Table.get?_insert]
    by_cases hc : c = column
    · subst hc
      simp
    · simp [hc]

/-- A column of which all ranges speak as far as they are marked gets what they say. -/
theorem get?_markRanges {stop : ColumnRange → Nat}
    (h : ∀ r ∈ l, r.Spans c ↔ r.start ≤ c ∧ c < stop r) :
    (markRanges stop l marks).get? c = Option.merge (· || ·) (marks.get? c) (columnMap l c) := by
  induction l generalizing marks with
  | nil =>
    rw [columnMap_nil, Option.merge_none_right]
    rfl
  | cons r rest ih =>
    obtain ⟨hr, hrest⟩ := List.forall_mem_cons.1 h
    have hin : c ∈ List.range' r.start (stop r - r.start) ↔ r.Spans c := by
      rw [hr, List.mem_range'_1]
      omega
    show (markRanges stop rest _).get? c = _
    rw [merge_columnMap_cons, ih hrest, get?_foldl_markColumn]
    simp only [hin]

/-- And one that none of them is marked to reach keeps what it had. -/
theorem get?_markRanges_of_le {stop : ColumnRange → Nat} (h : ∀ r ∈ l, stop r ≤ c) :
    (markRanges stop l marks).get? c = marks.get? c := by
  induction l generalizing marks with
  | nil => rfl
  | cons r rest ih =>
    obtain ⟨hr, hrest⟩ := List.forall_mem_cons.1 h
    have hout : c ∉ List.range' r.start (stop r - r.start) := by
      rw [List.mem_range'_1]
      omega
    show (markRanges stop rest _).get? c = _
    rw [ih hrest, get?_foldl_markColumn, if_neg hout]

/-- Open and closed ranges together are all ranges. -/
theorem columnMap_closed_open (l : List ColumnRange) (c : Nat) :
    columnMap l c =
      Option.merge (· || ·) (columnMap (closedRanges l) c) (columnMap (openRanges l) c) := by
  rw [← columnMap_append]
  refine congrFun (columnMap_eq_of_mem_iff fun r => ?_) c
  rw [List.mem_append, closedRanges, openRanges, List.mem_filter, List.mem_filter]
  cases r.last <;> simp

theorem get?_closedMarks (l : List ColumnRange) (c : Nat) :
    (closedMarks l).get? c = columnMap (closedRanges l) c := by
  rw [closedMarks, get?_markRanges, Table.get?_empty, Option.merge_none_left]
  intro r hr
  obtain ⟨last, hlast⟩ := Option.isSome_iff_exists.1 (List.mem_filter.1 hr).2
  refine and_congr_right fun _ => ?_
  rw [hlast, Option.getD_some]
  show (∀ e, some last = some e → c ≤ max e r.start) ↔ c < max last r.start + 1
  simp only [Option.some.injEq, forall_eq', Nat.lt_succ_iff]

theorem start_lt_restStart (hr : r ∈ openRanges l) : r.start < restStart l :=
  Nat.lt_succ_of_le (List.le_max?_getD_of_mem (List.mem_append_left _ (List.mem_map_of_mem hr)))

theorem closedMarks_of_rest (hc : restStart l ≤ c) : (closedMarks l).get? c = none := by
  refine (Table.get?_eq_none_iff _).2 fun hkey => ?_
  have hlt : c < restStart l :=
    Nat.lt_succ_of_le (List.le_max?_getD_of_mem (List.mem_append_right _ hkey))
  omega

theorem spans_open (hr : r ∈ openRanges l) : r.Spans c ↔ r.start ≤ c := by
  have hlast : r.last = none := Option.isNone_iff_eq_none.1 (List.mem_filter.1 hr).2
  simp only [Spans, hlast, reduceCtorEq, false_implies, implies_true, and_true]
  rfl

theorem get?_marksBeforeRest_of_lt (hc : c < restStart l) :
    (marksBeforeRest l).get? c = columnMap l c := by
  rw [marksBeforeRest, get?_markRanges, get?_closedMarks, ← columnMap_closed_open]
  intro r hr
  rw [spans_open hr]
  exact (and_iff_left hc).symm

theorem get?_marksBeforeRest_of_le (hc : restStart l ≤ c) :
    (marksBeforeRest l).get? c = none := by
  rw [marksBeforeRest, get?_markRanges_of_le fun _ _ => hc, closedMarks_of_rest hc]

/-- From there on only open ranges have columns, and each has all. -/
theorem columnMap_of_rest (hc : restStart l ≤ c) : columnMap l c = restMark l := by
  have hopen {opened : List ColumnRange} (hspans : ∀ r ∈ opened, r.Spans c) (mark : Option Bool) :
      opened.foldl (fun mark r => some (mark.getD false || r.hit)) mark =
        Option.merge (· || ·) mark (columnMap opened c) := by
    induction opened generalizing mark with
    | nil => rw [List.foldl_nil, columnMap_nil, Option.merge_none_right]
    | cons r rest ih =>
      obtain ⟨hr, hrest⟩ := List.forall_mem_cons.1 hspans
      rw [List.foldl_cons, ih hrest, merge_columnMap_cons, if_pos hr]
  have hspans : ∀ r ∈ openRanges l, r.Spans c := fun r hr =>
    (spans_open hr).2 (Nat.le_trans (Nat.le_of_lt (start_lt_restStart hr)) hc)
  rw [restMark, hopen hspans, Option.merge_none_left, columnMap_closed_open, ← get?_closedMarks,
    closedMarks_of_rest hc, Option.merge_none_left]

/-! ## 3. Runs -/

theorem canonical_concat :
    Canonical (l ++ [r]) ↔ Canonical l ∧ r.IsRun ∧ ∀ s ∈ l, EndsBefore s r := by
  constructor
  · rintro ⟨hruns, hapart⟩
    obtain ⟨hall, -, hbefore⟩ := List.pairwise_append.1 hapart
    exact ⟨⟨fun s hs => hruns s (List.mem_append_left _ hs), hall⟩,
      hruns r (List.mem_append_right _ (List.mem_singleton_self r)),
      fun s hs => hbefore s hs r (List.mem_singleton_self r)⟩
  · rintro ⟨⟨hruns, hapart⟩, hrun, hbefore⟩
    refine ⟨fun s hs => ?_, List.pairwise_append.2 ⟨hapart, List.pairwise_singleton _ _, ?_⟩⟩
    · rcases List.mem_append.1 hs with hs | hs
      · exact hruns s hs
      · rwa [List.mem_singleton.1 hs]
    · intro s hs k hk
      rw [List.mem_singleton.1 hk]
      exact hbefore s hs

theorem canonical_reverse_cons : Canonical (r :: runs).reverse ↔
    Canonical runs.reverse ∧ r.IsRun ∧ ∀ s ∈ runs, EndsBefore s r := by
  rw [List.reverse_cons, canonical_concat]
  simp only [List.mem_reverse]

/-- All runs end before a column. -/
def EndBefore (runs : List ColumnRange) (stop : Nat) : Prop :=
  ∀ r ∈ runs, ∃ e, r.last = some e ∧ e < stop

theorem EndBefore.columnMap_eq_none (hend : EndBefore runs stop) (h : Canonical runs.reverse)
    (hc : stop ≤ c) : columnMap runs c = none := by
  refine columnMap_eq_none_iff.2 fun s hs hspans => ?_
  obtain ⟨e, he, hlt⟩ := hend s hs
  obtain ⟨own, hown, hfits⟩ := h.runs s (List.mem_reverse.2 hs)
  have hle := hspans.2 e he
  have hfit := hfits e he
  rw [hown, Option.getD_some] at hle
  omega

/-- A run that is given a later end keeps its columns and gets those up to there. -/
theorem IsRun.spans_extended {e : Nat} (h : r.IsRun) (he : r.last = some e)
    (hlast : ∀ k, last = some k → e < k) : Spans { r with last } c ↔
      r.Spans c ∨ (e + 1 ≤ c ∧ ∀ k, last = some k → c ≤ k) := by
  obtain ⟨_, _, hit⟩ := r
  obtain ⟨own, rfl, hfits⟩ := h
  obtain rfl := he
  have hle : own ≤ e := hfits e rfl
  rw [spans_run hfits, spans_run fun k hk => Nat.le_trans hle (Nat.le_of_lt (hlast k hk))]
  simp only [Option.some.injEq, forall_eq']
  constructor
  · rintro ⟨hge, hk⟩
    by_cases hc : c ≤ e
    · exact .inl ⟨hge, hc⟩
    · exact .inr ⟨by omega, hk⟩
  · rintro (⟨hge, hc⟩ | ⟨hge, hk⟩)
    · exact ⟨hge, fun k hk => Nat.le_trans hc (Nat.le_of_lt (hlast k hk))⟩
    · exact ⟨by omega, hk⟩

theorem canonical_attach (hlast : ∀ e, last = some e → first ≤ e) (h : Canonical runs.reverse)
    (hend : EndBefore runs first) : Canonical (attach first last ran runs).reverse := by
  have hnew : IsRun ⟨some first, last, ran⟩ := ⟨first, rfl, hlast⟩
  cases runs with
  | nil =>
    exact canonical_reverse_cons.2
      ⟨canonical_nil, hnew, fun s hs => absurd hs List.not_mem_nil⟩
  | cons run rest =>
    obtain ⟨hrest, ⟨own, hown, hfits⟩, hbefore⟩ := canonical_reverse_cons.1 h
    obtain ⟨e, he, hlt⟩ := hend run List.mem_cons_self
    have hle := hfits e he
    rw [attach]
    split
    · refine canonical_reverse_cons.2 ⟨hrest, ⟨own, hown, fun k hk => ?_⟩, hbefore⟩
      have hk := hlast k hk
      omega
    · rename_i hglue
      refine canonical_reverse_cons.2 ⟨h, hnew, fun s hs => ?_⟩
      rcases List.mem_cons.1 hs with rfl | hs
      · refine ⟨e, first, he, rfl, hlt, fun heq hhit => hglue ⟨hhit, ?_⟩⟩
        rw [he, heq]
        rfl
      · -- only the last of the runs can end right before the column
        obtain ⟨k, from', hk, hfrom, hlt', -⟩ := hbefore s hs
        obtain rfl := Option.some.inj (hown.symm.trans hfrom)
        exact ⟨k, first, hk, rfl, by omega, fun heq => by omega⟩

theorem columnMap_attach (hlast : ∀ e, last = some e → first ≤ e) (h : Canonical runs.reverse)
    (hend : EndBefore runs first) (c : Nat) : columnMap (attach first last ran runs) c =
      if first ≤ c ∧ ∀ e, last = some e → c ≤ e then some ran else columnMap runs c := by
  have hnone (hc : first ≤ c) : columnMap runs c = none := hend.columnMap_eq_none h hc
  have hprepend : columnMap (⟨some first, last, ran⟩ :: runs) c =
      if first ≤ c ∧ ∀ e, last = some e → c ≤ e then some ran else columnMap runs c := by
    split
    · rename_i hin
      exact columnMap_cons_of_spans ((spans_run hlast).2 hin) (hnone hin.1)
    · rename_i hout
      exact columnMap_cons_of_not_spans fun hspans => hout ((spans_run hlast).1 hspans)
  cases runs with
  | nil => exact hprepend
  | cons run rest =>
    rw [attach]
    split
    · rename_i hglue
      obtain ⟨-, hrun, -⟩ := canonical_reverse_cons.1 h
      obtain ⟨e, he, rfl⟩ := Option.map_eq_some_iff.1 hglue.2
      have hlonger := hrun.spans_extended he (c := c) hlast
      by_cases hin : e + 1 ≤ c ∧ ∀ k, last = some k → c ≤ k
      · have hrest : columnMap rest c = none := columnMap_eq_none_iff.2 fun s hs =>
          columnMap_eq_none_iff.1 (hnone hin.1) s (List.mem_cons_of_mem run hs)
        rw [if_pos hin, columnMap_cons_of_spans (hlonger.2 (.inr hin)) hrest]
        exact congrArg some hglue.1
      · simp only [if_neg hin, columnMap_cons, hlonger, or_iff_left hin]
    · exact hprepend

theorem endBefore_attach (hend : EndBefore runs first) :
    EndBefore (attach first (some first) ran runs) (first + 1) := by
  have hlater : ∀ r ∈ runs, ∃ e, r.last = some e ∧ e < first + 1 := fun r hr => by
    obtain ⟨e, he, hlt⟩ := hend r hr
    exact ⟨e, he, Nat.lt_succ_of_lt hlt⟩
  have hnew (r : ColumnRange) (hr : r.last = some first) : ∃ e, r.last = some e ∧ e < first + 1 :=
    ⟨first, hr, Nat.lt_succ_self first⟩
  cases runs with
  | nil => exact List.forall_mem_singleton.2 (hnew _ rfl)
  | cons run rest =>
    rw [attach]
    split
    · exact List.forall_mem_cons.2 ⟨hnew _ rfl, (List.forall_mem_cons.1 hlater).2⟩
    · exact List.forall_mem_cons.2 ⟨hnew _ rfl, hlater⟩

/-- Taking ascending columns into runs one after the other gives the runs of their map. -/
theorem runsOfMarks_spec {marks : List (Nat × Bool)}
    (hasc : marks.Pairwise fun a b => a.1 < b.1) (hstop : ∀ e ∈ marks, e.1 < stop) :
    Canonical (runsOfMarks marks).reverse ∧ EndBefore (runsOfMarks marks) stop ∧
      ∀ c hit, columnMap (runsOfMarks marks) c = some hit ↔ (c, hit) ∈ marks := by
  induction marks using List.reverseRecOn generalizing stop with
  | nil =>
    refine ⟨canonical_nil, fun r hr => absurd hr List.not_mem_nil, fun c hit => ?_⟩
    rw [show runsOfMarks [] = [] from rfl, columnMap_nil]
    simp
  | append_singleton marks e ih =>
    obtain ⟨hinit, -, hbefore⟩ := List.pairwise_append.1 hasc
    have hlt : ∀ k ∈ marks, k.1 < e.1 := fun k hk => hbefore k hk e (List.mem_singleton_self e)
    obtain ⟨hcanonical, hend, hmap⟩ := ih hinit hlt
    have hself : ∀ k, some e.1 = some k → e.1 ≤ k := fun k hk => Nat.le_of_eq (Option.some.inj hk)
    have hstep : runsOfMarks (marks ++ [e]) = attach e.1 (some e.1) e.2 (runsOfMarks marks) := by
      rw [runsOfMarks, List.foldl_append]
      rfl
    rw [hstep]
    refine ⟨canonical_attach hself hcanonical hend, fun r hr => ?_, fun c hit => ?_⟩
    · obtain ⟨k, hk, hle⟩ := endBefore_attach hend r hr
      have hin := hstop e (List.mem_append_right _ (List.mem_singleton_self e))
      exact ⟨k, hk, by omega⟩
    · rw [columnMap_attach hself hcanonical hend, List.mem_append, List.mem_singleton]
      by_cases hc : c = e.1
      · have hout : (c, hit) ∉ marks := fun hin => absurd (hlt _ hin) (by simp [hc])
        subst hc
        simp [hout, Prod.ext_iff, eq_comm]
      · have hne : (c, hit) ≠ e := fun heq => hc (congrArg Prod.fst heq)
        rw [if_neg fun h => hc (Nat.le_antisymm (h.2 e.1 rfl) h.1), hmap, or_iff_left hne]

/-- The columns before the rest of the line, in runs. -/
theorem runsBeforeRest_spec (l : List ColumnRange) :
    Canonical (runsOfMarks (marksBeforeRest l).entries).reverse ∧
      EndBefore (runsOfMarks (marksBeforeRest l).entries) (restStart l) ∧
      columnMap (runsOfMarks (marksBeforeRest l).entries) = (marksBeforeRest l).get? := by
  have hasc : (marksBeforeRest l).entries.Pairwise fun a b => a.1 < b.1 :=
    (marksBeforeRest l).ascending.imp Nat.compare_eq_lt.1
  have hstop : ∀ e ∈ (marksBeforeRest l).entries, e.1 < restStart l := fun e he => by
    refine Nat.lt_of_not_le fun hle => ?_
    have hsome := (marksBeforeRest l).get?_eq_some_iff.2 he
    rw [get?_marksBeforeRest_of_le hle] at hsome
    cases hsome
  obtain ⟨hcanonical, hend, hmap⟩ := runsOfMarks_spec hasc hstop
  refine ⟨hcanonical, hend, funext fun c => Option.ext fun hit => ?_⟩
  rw [hmap, Table.get?_eq_some_iff]

/-! ## 4. The same as by cuts -/

theorem columnMap_reverse (runs : List ColumnRange) : columnMap runs.reverse = columnMap runs :=
  columnMap_eq_of_mem_iff fun _ => List.mem_reverse

theorem walk_spec (l : List ColumnRange) :
    Canonical (walk l) ∧ columnMap (walk l) = columnMap l := by
  obtain ⟨hcanonical, hend, hmap⟩ := runsBeforeRest_spec l
  rw [walk]
  cases hrest : restMark l with
  | none =>
    refine ⟨hcanonical, ?_⟩
    rw [columnMap_reverse, hmap]
    funext c
    by_cases hc : c < restStart l
    · exact get?_marksBeforeRest_of_lt hc
    · rw [get?_marksBeforeRest_of_le (Nat.le_of_not_lt hc), columnMap_of_rest (Nat.le_of_not_lt hc),
        hrest]
  | some ran =>
    have hopen : ∀ e, (none : Option Nat) = some e → restStart l ≤ e := fun e he => by cases he
    refine ⟨canonical_attach hopen hcanonical hend, ?_⟩
    rw [columnMap_reverse]
    funext c
    rw [columnMap_attach hopen hcanonical hend, hmap]
    by_cases hc : c < restStart l
    · rw [if_neg fun h => absurd h.1 (Nat.not_le_of_lt hc),
        get?_marksBeforeRest_of_lt hc]
    · rw [if_pos ⟨Nat.le_of_not_lt hc, fun e he => by cases he⟩,
        columnMap_of_rest (Nat.le_of_not_lt hc), hrest]

/-- **Going over the columns one by one gives the same list as going from cut to cut.** -/
theorem walk_eq_combine (l : List ColumnRange) : walk l = combine l := by
  obtain ⟨hcanonical, hmap⟩ := walk_spec l
  exact hcanonical.unique (canonical_combine l) (by rw [hmap, columnMap_combine])

/-- **Joining ranges gives the canonical form of their map**, by cuts as by columns.  It says the
same of every column, in maximal runs, and it is the only list of maximal runs that does.  So
joining again changes nothing, neither order nor repetition matters, and ranges can be joined in
parts. -/
theorem combine_is_canonical_form (l : List ColumnRange) :
    walk l = combine l ∧ columnMap (combine l) = columnMap l ∧ Canonical (combine l) ∧
      (∀ l', Canonical l' → columnMap l' = columnMap l → l' = combine l) ∧
      combine (combine l) = combine l ∧
      (∀ l', (∀ r, r ∈ l' ↔ r ∈ l) → combine l' = combine l) ∧
      ∀ others, combine (combine l ++ others) = combine (l ++ others) := by
  refine ⟨walk_eq_combine l, columnMap_combine l, canonical_combine l, fun l' h hmap => ?_, ?_,
    fun l' hmem => ?_, fun others => ?_⟩
  · exact h.unique (canonical_combine l) (by rw [hmap, columnMap_combine])
  · exact combine_congr (columnMap_combine l)
  · exact combine_congr (columnMap_eq_of_mem_iff hmem)
  · refine combine_congr (funext fun c => ?_)
    rw [columnMap_append, columnMap_append, columnMap_combine]

-- An inverted range is its first column, and a hit there leaves the open miss around it in two.
example : combine [⟨some 2, none, false⟩, ⟨some 4, some 1, true⟩] =
    [⟨some 2, some 3, false⟩, ⟨some 4, some 4, true⟩, ⟨some 5, none, false⟩] := by decide

end CoverageLedger.ColumnRange
