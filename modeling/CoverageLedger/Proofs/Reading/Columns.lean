import CoverageLedger.Reading.Merge

/-!
# The canonical form of column ranges

A list of ranges is read as a map of columns (`columnMap`): nothing is said of a column, or that it
did not run, or that it did.  A list is `Canonical` when it consists of the maximal runs of its map,
from the first to the last, and each map has at most one such list (`Canonical.unique`).  `combine`
gives it (`combine_spec`), so what it makes of a list depends on the map alone.
-/

namespace CoverageLedger.ColumnRange

variable {l l' rest : List ColumnRange} {r s : ColumnRange} {c : Nat}

/-! ## 1. Lists of ranges as maps of columns -/

/-- The columns of a range: from its first one, or that of the line when none is given, through its
last one, or through its first when the last lies before it, or without end. -/
def Spans (r : ColumnRange) (column : Nat) : Prop :=
  r.first.getD 0 ≤ column ∧ ∀ last, r.last = some last → column ≤ max last (r.first.getD 0)

theorem covers_iff_spans : r.covers c = true ↔ r.Spans c := by
  rw [covers, Bool.and_eq_true, decide_eq_true_eq]
  refine and_congr_right fun _ => ?_
  cases hlast : r.last with
  | none => exact ⟨fun _ => nofun, fun _ => rfl⟩
  | some last =>
    rw [decide_eq_true_eq]
    exact ⟨fun hle e he => Option.some.inj he ▸ hle, fun h => h last rfl⟩

instance (r : ColumnRange) (column : Nat) : Decidable (r.Spans column) :=
  decidable_of_iff _ covers_iff_spans

/-- What a list of ranges says of a column: nothing when no range has it, and otherwise whether any
of those that have it ran. -/
def columnMap (l : List ColumnRange) (column : Nat) : Option Bool :=
  if ∃ r ∈ l, r.Spans column ∧ r.hit = true then some true
  else if ∃ r ∈ l, r.Spans column then some false
  else none

theorem columnMap_eq_none_iff : columnMap l c = none ↔ ∀ r ∈ l, ¬ r.Spans c := by
  unfold columnMap
  split
  · rename_i h
    obtain ⟨r, hr, hspans, -⟩ := h
    exact ⟨nofun, fun h => absurd hspans (h r hr)⟩
  · split
    · rename_i h
      obtain ⟨r, hr, hspans⟩ := h
      exact ⟨nofun, fun h => absurd hspans (h r hr)⟩
    · rename_i h
      exact ⟨fun _ r hr hspans => h ⟨r, hr, hspans⟩, fun _ => rfl⟩

theorem columnMap_nil : columnMap [] c = none :=
  columnMap_eq_none_iff.2 fun _ h => absurd h List.not_mem_nil

theorem exists_of_columnMap {hit : Bool} (h : columnMap l c = some hit) :
    ∃ r ∈ l, r.Spans c ∧ r.hit = hit := by
  unfold columnMap at h
  split at h
  · rename_i hran
    obtain rfl := Option.some.inj h
    exact hran
  · rename_i hran
    split at h
    · rename_i hsome
      obtain rfl := Option.some.inj h
      obtain ⟨r, hr, hspans⟩ := hsome
      exact ⟨r, hr, hspans, Bool.eq_false_iff.2 fun hhit => hran ⟨r, hr, hspans, hhit⟩⟩
    · cases h

/-- A map depends on the ranges only through the columns they have. -/
theorem columnMap_congr {c d : Nat} (h : ∀ hit, (∃ r ∈ l, r.Spans c ∧ r.hit = hit) ↔
    ∃ r ∈ l', r.Spans d ∧ r.hit = hit) : columnMap l c = columnMap l' d := by
  have hany (l : List ColumnRange) (c : Nat) : (∃ r ∈ l, r.Spans c) ↔
      ∃ hit, ∃ r ∈ l, r.Spans c ∧ r.hit = hit :=
    ⟨fun ⟨r, hr, hspans⟩ => ⟨r.hit, r, hr, hspans, rfl⟩,
      fun ⟨_, r, hr, hspans, _⟩ => ⟨r, hr, hspans⟩⟩
  have hsome : (∃ r ∈ l, r.Spans c) ↔ ∃ r ∈ l', r.Spans d := by
    rw [hany, hany]
    exact exists_congr h
  simp only [columnMap, h true, hsome]

theorem columnMap_eq_of_mem_iff (h : ∀ r, r ∈ l ↔ r ∈ l') : columnMap l = columnMap l' :=
  funext fun _ => columnMap_congr fun _ => by simp only [h]

/-- Two lists together say what either says, and that a column ran when either says so. -/
theorem columnMap_append (l l' : List ColumnRange) (c : Nat) :
    columnMap (l ++ l') c = Option.merge (· || ·) (columnMap l c) (columnMap l' c) := by
  have hmem (p : ColumnRange → Prop) :
      (∃ r ∈ l ++ l', p r) ↔ (∃ r ∈ l, p r) ∨ ∃ r ∈ l', p r := by
    simp only [List.mem_append, or_and_right, exists_or]
  simp only [columnMap, hmem]
  by_cases h₁ : ∃ r ∈ l, r.Spans c ∧ r.hit = true <;>
    by_cases h₂ : ∃ r ∈ l', r.Spans c ∧ r.hit = true <;>
    by_cases h₃ : ∃ r ∈ l, r.Spans c <;>
    by_cases h₄ : ∃ r ∈ l', r.Spans c <;> simp [h₁, h₂, h₃, h₄, Option.merge]

theorem columnMap_singleton : columnMap [r] c = if r.Spans c then some r.hit else none := by
  simp only [columnMap, List.mem_singleton, exists_eq_left]
  by_cases hspans : r.Spans c <;> cases hhit : r.hit <;> simp [hspans]

theorem columnMap_cons (r : ColumnRange) (rest : List ColumnRange) (c : Nat) :
    columnMap (r :: rest) c = Option.merge (· || ·)
      (if r.Spans c then some r.hit else none) (columnMap rest c) := by
  rw [← List.singleton_append, columnMap_append, columnMap_singleton]

theorem columnMap_cons_of_spans (h : r.Spans c) (hrest : columnMap rest c = none) :
    columnMap (r :: rest) c = some r.hit := by
  rw [columnMap_cons, if_pos h, hrest, Option.merge_none_right]

theorem columnMap_cons_of_not_spans (h : ¬ r.Spans c) :
    columnMap (r :: rest) c = columnMap rest c := by
  rw [columnMap_cons, if_neg h, Option.merge_none_left]

/-- The marks by which ranges are joined are this map. -/
theorem markAt_eq_columnMap (l : List ColumnRange) : markAt l = columnMap l := by
  funext c
  have hmem (r : ColumnRange) : r ∈ l.filter (·.covers c) ↔ r ∈ l ∧ r.Spans c := by
    rw [List.mem_filter, covers_iff_spans]
  have hran : ((l.filter (·.covers c)).any (·.hit)) = true ↔
      ∃ r ∈ l, r.Spans c ∧ r.hit = true := by
    simp only [List.any_eq_true, hmem, and_assoc]
  unfold markAt
  split
  · rename_i hempty
    refine (columnMap_eq_none_iff.2 fun r hr hspans => ?_).symm
    have hin := (hmem r).2 ⟨hr, hspans⟩
    rw [hempty] at hin
    exact List.not_mem_nil hin
  · rename_i hne
    obtain ⟨r, hr⟩ := List.exists_mem_of_ne_nil _ hne
    have hsome : ∃ r ∈ l, r.Spans c := ⟨r, (hmem r).1 hr⟩
    rw [columnMap, if_pos hsome]
    by_cases h : ∃ r ∈ l, r.Spans c ∧ r.hit = true
    · rw [if_pos h, hran.2 h]
    · rw [if_neg h, Bool.eq_false_iff.2 fun hany => h (hran.1 hany)]

/-! ## 2. Maximal runs -/

/-- A range that begins at a column and ends there or later, or never. -/
def IsRun (r : ColumnRange) : Prop :=
  ∃ first, r.first = some first ∧ ∀ last, r.last = some last → first ≤ last

/-- The second run begins after the end of the first, and has another mark when it begins right
after it. -/
def EndsBefore (r s : ColumnRange) : Prop :=
  ∃ last first, r.last = some last ∧ s.first = some first ∧ last < first ∧
    (first = last + 1 → r.hit ≠ s.hit)

/-- Maximal runs from the first to the last.  Only the last one can be open, as all others end. -/
structure Canonical (l : List ColumnRange) : Prop where
  runs : ∀ r ∈ l, r.IsRun
  apart : l.Pairwise EndsBefore

theorem canonical_nil : Canonical [] := ⟨fun _ h => absurd h List.not_mem_nil, .nil⟩

theorem canonical_cons :
    Canonical (r :: rest) ↔ r.IsRun ∧ (∀ s ∈ rest, EndsBefore r s) ∧ Canonical rest := by
  constructor
  · rintro ⟨hruns, hapart⟩
    obtain ⟨hhead, hrest⟩ := List.pairwise_cons.1 hapart
    exact ⟨hruns r List.mem_cons_self, hhead,
      fun s hs => hruns s (List.mem_cons_of_mem r hs), hrest⟩
  · rintro ⟨hrun, hhead, hruns, hapart⟩
    exact ⟨List.forall_mem_cons.2 ⟨hrun, hruns⟩, List.pairwise_cons.2 ⟨hhead, hapart⟩⟩

theorem spans_run {first : Nat} {last : Option Nat} {hit : Bool}
    (h : ∀ e, last = some e → first ≤ e) :
    Spans ⟨some first, last, hit⟩ c ↔ first ≤ c ∧ ∀ e, last = some e → c ≤ e := by
  refine and_congr_right fun hfirst => forall₂_congr fun e he => ?_
  have hle := h e he
  show c ≤ max e first ↔ c ≤ e
  omega

theorem IsRun.spans_first (h : r.IsRun) {first : Nat} (hfirst : r.first = some first) :
    r.Spans first := by
  obtain ⟨_, last, hit⟩ := r
  obtain ⟨_, rfl, hlast⟩ := h
  obtain rfl := Option.some.inj hfirst
  exact (spans_run hlast).2 ⟨Nat.le_refl _, hlast⟩

/-- Runs with one beginning and the same columns end alike. -/
theorem IsRun.last_eq (h : r.IsRun) (h' : s.IsRun) (hfirst : r.first = s.first)
    (hspans : ∀ c, r.Spans c ↔ s.Spans c) : r.last = s.last := by
  obtain ⟨_, last, hit⟩ := r
  obtain ⟨_, last', hit'⟩ := s
  obtain ⟨first, rfl, hlast⟩ := h
  obtain ⟨first', rfl, hlast'⟩ := h'
  obtain rfl := Option.some.inj hfirst
  simp only [spans_run hlast, spans_run hlast'] at hspans
  -- a run that ends does not go on after its last column, so neither does the other
  cases last with
  | none =>
    cases last' with
    | none => rfl
    | some e' =>
      have hle := ((hspans (e' + 1)).1 ⟨Nat.le_succ_of_le (hlast' e' rfl), by simp⟩).2 e' rfl
      omega
  | some e =>
    have hle := hlast e rfl
    cases last' with
    | none =>
      have hout := ((hspans (e + 1)).2 ⟨by omega, by simp⟩).2 e rfl
      omega
    | some e' =>
      have hle' := hlast' e' rfl
      have h₁ : e ≤ e' := ((hspans e).1 ⟨hle, by simp⟩).2 e' rfl
      have h₂ : e' ≤ e := ((hspans e').2 ⟨hle', by simp⟩).2 e rfl
      exact congrArg some (Nat.le_antisymm h₁ h₂)

/-- A column lies in one run at most. -/
theorem Canonical.rest_eq_none (h : Canonical (r :: rest)) (hspans : r.Spans c) :
    columnMap rest c = none := by
  obtain ⟨-, hhead, hrest⟩ := canonical_cons.1 h
  refine columnMap_eq_none_iff.2 fun s hs hs' => ?_
  obtain ⟨last, first, hlast, hfirst, hlt, -⟩ := hhead s hs
  have hle := hspans.2 last hlast
  have hge := hs'.1
  rw [hfirst, Option.getD_some] at hge
  obtain ⟨own, hown, hend⟩ := (canonical_cons.1 h).1
  have hfits := hend last hlast
  rw [hown, Option.getD_some] at hle
  omega

theorem Canonical.columnMap_head (h : Canonical (r :: rest)) (hspans : r.Spans c) :
    columnMap (r :: rest) c = some r.hit :=
  columnMap_cons_of_spans hspans (h.rest_eq_none hspans)

theorem Canonical.columnMap_rest (h : Canonical (r :: rest)) :
    columnMap rest c = if r.Spans c then none else columnMap (r :: rest) c := by
  split
  · rename_i hspans
    exact h.rest_eq_none hspans
  · rename_i hspans
    rw [columnMap_cons_of_not_spans hspans]

/-- Nothing is said of the columns before the first run. -/
theorem Canonical.first_le (h : Canonical (r :: rest)) {first : Nat} (hfirst : r.first = some first)
    (hc : columnMap (r :: rest) c ≠ none) : first ≤ c := by
  obtain ⟨hrun, hhead, -⟩ := canonical_cons.1 h
  obtain ⟨hit, hhit⟩ := Option.ne_none_iff_exists'.1 hc
  obtain ⟨s, hs, hspans, -⟩ := exists_of_columnMap hhit
  have hle := hspans.1
  rcases List.mem_cons.1 hs with rfl | hs
  · rwa [hfirst, Option.getD_some] at hle
  · obtain ⟨last, own, hlast, hown, hlt, -⟩ := hhead s hs
    obtain ⟨_, heq, hend⟩ := hrun
    rw [hfirst] at heq
    obtain rfl := Option.some.inj heq
    have hfits := hend last hlast
    rw [hown, Option.getD_some] at hle
    omega

/-- The first run goes on for as long as the map has its mark. -/
theorem Canonical.spans_head_iff (h : Canonical (r :: rest)) {first : Nat}
    (hfirst : r.first = some first) : r.Spans c ↔
      first ≤ c ∧ ∀ d, first ≤ d → d ≤ c → columnMap (r :: rest) d = some r.hit := by
  obtain ⟨hrun, hhead, -⟩ := canonical_cons.1 h
  obtain ⟨own, hown, hend⟩ := hrun
  obtain rfl : own = first := Option.some.inj (hown.symm.trans hfirst)
  have hstart : r.first.getD 0 = own := by rw [hown, Option.getD_some]
  constructor
  · intro hspans
    obtain ⟨hle, hlast⟩ := hspans
    rw [hstart] at hle
    refine ⟨hle, fun d hd hdc => h.columnMap_head ⟨?_, fun last hlast' => ?_⟩⟩
    · rwa [hstart]
    · exact Nat.le_trans hdc (hlast last hlast')
  · rintro ⟨hle, hmark⟩
    refine ⟨by rwa [hstart], fun last hlast => ?_⟩
    have hfits := hend last hlast
    -- were the run to end earlier, the next column would belong to a run of another mark
    rw [hstart]
    refine Nat.le_of_not_lt fun hgt => ?_
    have hnext := hmark (last + 1) (by omega) (by omega)
    have hout : ¬ r.Spans (last + 1) := fun hspans => by
      have hin := hspans.2 last hlast
      omega
    rw [columnMap_cons_of_not_spans hout] at hnext
    obtain ⟨s, hs, hspans, hhit⟩ := exists_of_columnMap hnext
    obtain ⟨_, first, hlast', hfirst', hlt, htouch⟩ := hhead s hs
    obtain rfl := Option.some.inj (hlast.symm.trans hlast')
    have hge := hspans.1
    rw [hfirst', Option.getD_some] at hge
    exact htouch (by omega) hhit.symm

/-- **A map has one list of maximal runs at most.** -/
theorem Canonical.unique (h : Canonical l) (h' : Canonical l')
    (hmap : columnMap l = columnMap l') : l = l' := by
  induction l generalizing l' with
  | nil =>
    cases l' with
    | nil => rfl
    | cons s rest' =>
      obtain ⟨hrun, -, -⟩ := canonical_cons.1 h'
      have ⟨first, hfirst, _⟩ := hrun
      have hsome := h'.columnMap_head (hrun.spans_first hfirst)
      rw [← hmap, columnMap_nil] at hsome
      cases hsome
  | cons r rest ih =>
    obtain ⟨hrun, -, hrest⟩ := canonical_cons.1 h
    have ⟨first, hfirst, _⟩ := hrun
    have hmark := h.columnMap_head (hrun.spans_first hfirst)
    cases l' with
    | nil =>
      rw [hmap, columnMap_nil] at hmark
      cases hmark
    | cons s rest' =>
      obtain ⟨hrun', -, hrest'⟩ := canonical_cons.1 h'
      have ⟨first', hfirst', _⟩ := hrun'
      have hmark' := h'.columnMap_head (hrun'.spans_first hfirst')
      -- both first runs begin at the first column with a mark, and go on as far as it does
      have hle : first' ≤ first := h'.first_le hfirst' (by rw [← hmap, hmark]; simp)
      have hge : first ≤ first' := h.first_le hfirst (by rw [hmap, hmark']; simp)
      obtain rfl : first = first' := Nat.le_antisymm hge hle
      have hhit : r.hit = s.hit := by
        rw [hmap, hmark'] at hmark
        exact (Option.some.inj hmark).symm
      have hspans (c : Nat) : r.Spans c ↔ s.Spans c := by
        rw [h.spans_head_iff hfirst, h'.spans_head_iff hfirst', hmap, hhit]
      have hsame : r.first = s.first := hfirst.trans hfirst'.symm
      obtain rfl : r = s := by
        have hlast := hrun.last_eq hrun' hsame hspans
        cases r
        cases s
        simp only [ColumnRange.mk.injEq]
        exact ⟨hsame, hlast, hhit⟩
      refine congrArg (r :: ·) (ih hrest hrest' (funext fun c => ?_))
      rw [h.columnMap_rest, h'.columnMap_rest, hmap]

/-! ## 3. Runs between cuts -/

section extend

variable {column next : Nat} {ran : Bool}

theorem canonical_extend (hlt : column < next) (h : Canonical l)
    (hbelow : ∀ c < next, columnMap l c = none) : Canonical (extend column next ran l) := by
  have hnew : IsRun ⟨some column, some (next - 1), ran⟩ := by
    refine ⟨column, rfl, fun last hlast => ?_⟩
    obtain rfl := Option.some.inj hlast
    omega
  cases l with
  | nil => exact canonical_cons.2 ⟨hnew, fun s hs => absurd hs List.not_mem_nil, canonical_nil⟩
  | cons run rest =>
    obtain ⟨hrun, hhead, hrest⟩ := canonical_cons.1 h
    have ⟨first, hfirst, hend⟩ := hrun
    have hnext : next ≤ first := by
      refine Nat.le_of_not_lt fun hgt => ?_
      have hmark := h.columnMap_head (hrun.spans_first hfirst)
      rw [hbelow first hgt] at hmark
      cases hmark
    rw [extend]
    split
    · rename_i hglue
      refine canonical_cons.2 ⟨⟨column, rfl, fun last hlast => ?_⟩, fun s hs => ?_, hrest⟩
      · have hfits := hend last hlast
        omega
      · obtain ⟨last, own, hlast, hown, hafter, htouch⟩ := hhead s hs
        exact ⟨last, own, hlast, hown, hafter, fun heq => hglue.1 ▸ htouch heq⟩
    · rename_i hglue
      refine canonical_cons.2 ⟨hnew, fun s hs => ?_, h⟩
      rcases List.mem_cons.1 hs with rfl | hs
      · refine ⟨next - 1, first, rfl, hfirst, by omega, fun heq hhit => ?_⟩
        exact hglue ⟨hhit.symm, by rw [hfirst, heq, Nat.sub_add_cancel (by omega)]⟩
      · -- only the first of the later runs can begin at the cut
        obtain ⟨last, own, hlast, hown, hafter, -⟩ := hhead s hs
        have hfits := hend last hlast
        exact ⟨next - 1, own, rfl, hown, by omega, fun heq => by omega⟩

theorem columnMap_extend (hlt : column < next) (h : Canonical l)
    (hbelow : ∀ c < next, columnMap l c = none) (c : Nat) :
    columnMap (extend column next ran l) c =
      if column ≤ c ∧ c < next then some ran else columnMap l c := by
  have hnew : Spans ⟨some column, some (next - 1), ran⟩ c ↔ column ≤ c ∧ c < next := by
    rw [spans_run (by intro e he; obtain rfl := Option.some.inj he; omega)]
    simp only [Option.some.injEq, forall_eq']
    omega
  have hprepend : columnMap (⟨some column, some (next - 1), ran⟩ :: l) c =
      if column ≤ c ∧ c < next then some ran else columnMap l c := by
    split
    · rename_i hin
      exact columnMap_cons_of_spans (hnew.2 hin) (hbelow c hin.2)
    · rename_i hout
      exact columnMap_cons_of_not_spans fun hspans => hout (hnew.1 hspans)
  cases l with
  | nil => exact hprepend
  | cons run rest =>
    rw [extend]
    split
    · rename_i hglue
      obtain ⟨hhit, hfirst⟩ := hglue
      obtain ⟨⟨own, hown, hend⟩, -, -⟩ := canonical_cons.1 h
      obtain rfl : own = next := Option.some.inj (hown.symm.trans hfirst)
      have hrun : run.Spans c ↔ own ≤ c ∧ ∀ e, run.last = some e → c ≤ e := by
        obtain ⟨_, last, hit⟩ := run
        obtain rfl := hown
        exact spans_run hend
      have hlonger : Spans ⟨some column, run.last, ran⟩ c ↔
          (column ≤ c ∧ c < own) ∨ run.Spans c := by
        rw [spans_run (fun e he => Nat.le_trans (Nat.le_of_lt hlt) (hend e he)), hrun]
        constructor
        · rintro ⟨hge, hle⟩
          by_cases hc : c < own
          · exact .inl ⟨hge, hc⟩
          · exact .inr ⟨by omega, hle⟩
        · rintro (⟨hge, hc⟩ | ⟨hge, hle⟩)
          · refine ⟨hge, fun e he => ?_⟩
            have hfits := hend e he
            omega
          · exact ⟨by omega, hle⟩
      by_cases hspans : (column ≤ c ∧ c < own) ∨ run.Spans c
      · have hrest : columnMap rest c = none := by
          rcases hspans with hin | hin
          · have hnone := columnMap_eq_none_iff.1 (hbelow c hin.2)
            exact columnMap_eq_none_iff.2 fun s hs => hnone s (List.mem_cons_of_mem run hs)
          · exact h.rest_eq_none hin
        rw [columnMap_cons_of_spans (hlonger.2 hspans) hrest]
        split
        · rfl
        · rename_i hout
          rw [h.columnMap_head (hspans.resolve_left hout), hhit]
      · rw [columnMap_cons_of_not_spans (fun hin => hspans (hlonger.1 hin)),
          if_neg fun hin => hspans (.inl hin),
          columnMap_cons_of_not_spans fun hin => hspans (.inr hin)]
    · exact hprepend

end extend

/-- Where marks change only at the cuts, the runs between them are the runs of the map. -/
theorem runs_spec {mark : Nat → Option Bool} {cut : Nat} {cuts : List Nat}
    (hasc : (cut :: cuts).Pairwise (· < ·))
    (hsteady : ∀ c, cut ≤ c → c + 1 ∉ cuts → mark (c + 1) = mark c) :
    Canonical (runs mark (cut :: cuts)) ∧
      ∀ c, columnMap (runs mark (cut :: cuts)) c = if cut ≤ c then mark c else none := by
  induction cuts generalizing cut with
  | nil =>
    have hsame (c : Nat) (hc : cut ≤ c) : mark c = mark cut := by
      induction hc with
      | refl => rfl
      | step hc ih => rw [hsteady _ hc List.not_mem_nil, ih]
    rw [runs]
    cases hmark : mark cut with
    | none =>
      refine ⟨canonical_nil, fun c => ?_⟩
      rw [columnMap_nil]
      split
      · rename_i hc
        rw [hsame c hc, hmark]
      · rfl
    | some ran =>
      refine ⟨canonical_cons.2 ⟨⟨cut, rfl, fun last h => by cases h⟩,
        fun s hs => absurd hs List.not_mem_nil, canonical_nil⟩, fun c => ?_⟩
      have hspans : Spans ⟨some cut, none, ran⟩ c ↔ cut ≤ c := by simp [Spans]
      rw [columnMap_singleton]
      simp only [hspans]
      split
      · rename_i hc
        rw [hsame c hc, hmark]
      · rfl
  | cons next cuts ih =>
    obtain ⟨hhead, hrest⟩ := List.pairwise_cons.1 hasc
    obtain ⟨hnext, -⟩ := List.pairwise_cons.1 hrest
    have hlt : cut < next := hhead next List.mem_cons_self
    obtain ⟨hcanonical, hmap⟩ := ih hrest fun c hc hout => hsteady c (by omega) fun hin => by
      rcases List.mem_cons.1 hin with heq | hin
      · omega
      · exact hout hin
    -- up to the next cut the mark stays what it is at this one
    have hsame (c : Nat) (hc : cut ≤ c) (hc' : c < next) : mark c = mark cut := by
      induction hc with
      | refl => rfl
      | @step c hc ih =>
        have hout : c + 1 ∉ next :: cuts := fun hin => by
          rcases List.mem_cons.1 hin with heq | hin
          · omega
          · have hgt := hnext _ hin
            omega
        rw [hsteady c hc hout, ih (Nat.lt_of_succ_lt hc')]
    have hbelow (c : Nat) (hc : c < next) : columnMap (runs mark (next :: cuts)) c = none := by
      rw [hmap, if_neg (by omega)]
    rw [runs]
    cases hmark : mark cut with
    | none =>
      refine ⟨hcanonical, fun c => ?_⟩
      rw [hmap]
      by_cases hc : next ≤ c
      · rw [if_pos hc, if_pos (by omega)]
      · rw [if_neg hc]
        split
        · rename_i hcut
          rw [hsame c hcut (by omega), hmark]
        · rfl
    | some ran =>
      refine ⟨canonical_extend hlt hcanonical hbelow, fun c => ?_⟩
      rw [columnMap_extend hlt hcanonical hbelow, hmap]
      by_cases hcut : cut ≤ c
      · by_cases hc : c < next
        · rw [if_pos ⟨hcut, hc⟩, if_pos hcut, hsame c hcut hc, hmark]
        · rw [if_neg fun h => hc h.2, if_pos hcut, if_pos (by omega)]
      · rw [if_neg fun h => hcut h.1, if_neg hcut, if_neg (by omega)]

/-! ## 4. Joining ranges -/

theorem mem_cuts : c ∈ cuts l ↔ ∃ r ∈ l, c ∈ r.edges := by
  rw [cuts, mem_ascend, List.mem_flatMap]

theorem start_mem_edges (r : ColumnRange) : r.start ∈ r.edges := by
  obtain ⟨first, last, hit⟩ := r
  cases last <;> simp [edges]

/-- Away from its edges a range has a column with the one before it. -/
theorem spans_succ_iff (h : c + 1 ∉ r.edges) : r.Spans (c + 1) ↔ r.Spans c := by
  obtain ⟨first, last, hit⟩ := r
  cases last with
  | none =>
    simp only [edges, start, List.mem_singleton] at h
    simp only [Spans, reduceCtorEq, false_implies, implies_true, and_true]
    omega
  | some last =>
    simp only [edges, start, List.mem_cons, List.not_mem_nil, or_false, not_or] at h
    simp only [Spans, Option.some.injEq, forall_eq']
    omega

theorem columnMap_succ (h : c + 1 ∉ cuts l) : columnMap l (c + 1) = columnMap l c := by
  refine columnMap_congr fun hit => exists_congr fun r => and_congr_right fun hr => ?_
  rw [spans_succ_iff fun hedge => h (mem_cuts.2 ⟨r, hr, hedge⟩)]

theorem columnMap_eq_none_of_lt (h : ∀ cut ∈ cuts l, c < cut) : columnMap l c = none := by
  refine columnMap_eq_none_iff.2 fun r hr hspans => ?_
  have hlt := h r.start (mem_cuts.2 ⟨r, hr, start_mem_edges r⟩)
  exact Nat.not_le_of_lt hlt hspans.1

theorem combine_spec (l : List ColumnRange) :
    Canonical (combine l) ∧ columnMap (combine l) = columnMap l := by
  have hasc : (cuts l).Pairwise (· < ·) :=
    (ascend_ascending (l.flatMap edges)).imp Nat.compare_eq_lt.1
  rw [combine, markAt_eq_columnMap]
  have hsteady (c : Nat) (h : c + 1 ∉ cuts l) := columnMap_succ h
  have hbefore (c : Nat) (h : ∀ cut ∈ cuts l, c < cut) := columnMap_eq_none_of_lt h
  generalize cuts l = found at hasc hsteady hbefore
  cases found with
  | nil =>
    refine ⟨canonical_nil, funext fun c => ?_⟩
    rw [runs, columnMap_nil, hbefore c fun cut h => absurd h List.not_mem_nil]
  | cons cut rest =>
    have hfirst := (List.pairwise_cons.1 hasc).1
    obtain ⟨hcanonical, hmap⟩ := runs_spec hasc fun c hc hout => hsteady c fun hin => by
      rcases List.mem_cons.1 hin with heq | hin
      · omega
      · exact hout hin
    refine ⟨hcanonical, funext fun c => ?_⟩
    rw [hmap]
    split
    · rfl
    · rename_i hc
      refine (hbefore c fun k hk => ?_).symm
      rcases List.mem_cons.1 hk with rfl | hk
      · omega
      · have hgt := hfirst k hk
        omega

theorem canonical_combine (l : List ColumnRange) : Canonical (combine l) := (combine_spec l).1

@[simp] theorem columnMap_combine (l : List ColumnRange) : columnMap (combine l) = columnMap l :=
  (combine_spec l).2

/-- Lists of one map are joined to one list. -/
theorem combine_congr (h : columnMap l = columnMap l') : combine l = combine l' :=
  (canonical_combine l).unique (canonical_combine l')
    (by rw [columnMap_combine, columnMap_combine, h])

end CoverageLedger.ColumnRange
