import CoverageLedger.Proofs.SourceFile.Shifted
import CoverageLedger.Proofs.SourceFile.Sound

/-!
# What following a diff keeps

Hunks that are refused change nothing.  Hunks that are accepted are in order on the side that line
numbers come from, their headers are complete, and their rows are as many as the headers say; but
nothing has said where their other side begins.  So a file that follows them keeps its lines
unaltered, though of two lines that are sent to one number only the later one stays.  When each hunk
begins on the other side where the hunks before it have left that side (`Hunk.InStep`), what was
accepted fits together in full, no two lines meet, and nothing is lost but what the hunks take away
(`shift_keeps`).
-/

namespace CoverageLedger

/-! ## 1. The last entry of a key -/

namespace Table

variable {κ α : Type} [TableKey κ]

/-- Of entries that are stored one after the other, the last one of a key stays. -/
theorem get?_insertAll_eq_some [DecidableEq κ] {l : List (κ × α)} {t : Table κ α} {k : κ} {v : α} :
    (t.insertAll l).get? k = some v ↔
      (∃ earlier later, l = earlier ++ (k, v) :: later ∧ ∀ e ∈ later, e.1 ≠ k) ∨
        (∀ e ∈ l, e.1 ≠ k) ∧ t.get? k = some v := by
  induction l generalizing t with
  | nil => simp [insertAll]
  | cons head rest ih =>
    obtain ⟨q, w⟩ := head
    have step : t.insertAll ((q, w) :: rest) = (t.insert q w).insertAll rest := rfl
    rw [step, ih, get?_insert]
    constructor
    · rintro (⟨earlier, later, rfl, hlater⟩ | ⟨hrest, hown⟩)
      · exact .inl ⟨(q, w) :: earlier, later, rfl, hlater⟩
      · split at hown
        · rename_i hk
          subst hk
          cases hown
          exact .inl ⟨[], rest, rfl, hrest⟩
        · rename_i hk
          exact .inr ⟨List.forall_mem_cons.2 ⟨Ne.symm hk, hrest⟩, hown⟩
    · rintro (⟨earlier, later, heq, hlater⟩ | ⟨hall, hown⟩)
      · rcases List.cons_eq_append_iff.1 heq with ⟨rfl, hhead⟩ | ⟨earlier', rfl, rfl⟩
        · cases hhead
          exact .inr ⟨hlater, if_pos rfl⟩
        · exact .inl ⟨earlier', later, rfl, hlater⟩
      · obtain ⟨hk, hrest⟩ := List.forall_mem_cons.1 hall
        exact .inr ⟨hrest, by rw [if_neg (Ne.symm hk)]; exact hown⟩

theorem get?_ofList_eq_some [DecidableEq κ] {l : List (κ × α)} {k : κ} {v : α} :
    (ofList l).get? k = some v ↔
      ∃ earlier later, l = earlier ++ (k, v) :: later ∧ ∀ e ∈ later, e.1 ≠ k := by
  rw [ofList, get?_insertAll_eq_some, get?_empty]
  exact or_iff_left fun h => Option.some_ne_none v h.2.symm

end Table

/-! ## 2. What an accepted hunk is -/

namespace HunkShift

open Hunk (rowCount)
open HunkSpan (first)

variable {d : Direction} {fault : HunkFault} {p q p' q' n m : Nat} {rows : List String}
  {moved : List (Nat × Option Nat)} {h : Hunk} {stop : Nat} {shift : HunkShift}

theorem bounded?_eq_ok : bounded? fault n = .ok m ↔ n < Text.word32 ∧ n = m := by
  unfold bounded?
  split
  · rename_i hlt
    rw [Except.ok.injEq]
    exact (and_iff_right hlt).symm
  · rename_i hge
    exact ⟨fun heq => (nomatch heq), fun hand => absurd hand.1 hge⟩

/-- A walk that gives a result ends on each side after the rows of that side. -/
theorem stops_of_walk (hwalk : walk d fault p q rows = .ok (moved, p', q')) :
    p' = p + rowCount d rows ∧ q' = q + rowCount d.flip rows := by
  induction rows generalizing p q moved with
  | nil =>
    cases hwalk
    exact ⟨rfl, rfl⟩
  | cons row rest ih =>
    rw [walk] at hwalk
    rw [rowCount, rowCount, LineMark.seen_flip]
    cases hmark : (LineMark.of row).seen d with
    | added =>
      simp only [hmark, Result.bind_eq_ok, bounded?_eq_ok] at hwalk
      obtain ⟨_, ⟨-, rfl⟩, hrest⟩ := hwalk
      have hstops := ih hrest
      simp only [LineMark.opposite]
      omega
    | removed =>
      simp only [hmark, Result.bind_eq_ok, bounded?_eq_ok] at hwalk
      obtain ⟨_, ⟨-, rfl⟩, ⟨_, _⟩, hrest, heq⟩ := hwalk
      cases heq
      have hstops := ih hrest
      simp only [LineMark.opposite]
      omega
    | kept =>
      simp only [hmark, Result.bind_eq_ok, bounded?_eq_ok] at hwalk
      obtain ⟨_, ⟨-, rfl⟩, _, ⟨-, rfl⟩, ⟨_, _⟩, hrest, heq⟩ := hwalk
      cases heq
      have hstops := ih hrest
      simp only [LineMark.opposite]
      omega

theorem eq_first_of_sideStart {side : Nat × Nat} (h : sideStart fault side.1 side.2 = .ok n) :
    n = first side := by
  unfold sideStart at h
  unfold first
  split at h
  · rename_i hempty
    rw [if_pos hempty]
    exact ((bounded?_eq_ok.1 h).2).symm
  · rename_i hrows
    rw [if_neg hrows]
    exact (Except.ok.inj h).symm

/-- An accepted hunk has a complete header and as many rows as that says, ends at numbers of 32 bits
and does not begin before the line where the last one has ended. -/
theorem seen_of_ofHunk? (hhunk : ofHunk? d stop h = .ok shift) :
    ∃ s, h.Seen d s ∧ stop ≤ first (s.source d) ∧
      shift.stop = first (s.source d) + (s.source d).2 := by
  simp only [ofHunk?, Result.bind_eq_ok, bounded?_eq_ok] at hhunk
  obtain ⟨s, hheader, p, hp, q, hq, pStop, ⟨hpLt, rfl⟩, qStop, ⟨hqLt, rfl⟩, hhunk⟩ := hhunk
  obtain rfl := eq_first_of_sideStart hp
  rw [HunkSpan.target_eq_source_flip] at hq hqLt hhunk
  obtain rfl := eq_first_of_sideStart hq
  split at hhunk
  · cases hhunk
  rename_i hafter
  simp only [Result.bind_eq_ok] at hhunk
  obtain ⟨⟨moved, source, target⟩, hwalk, hhunk⟩ := hhunk
  obtain ⟨hsource, htarget⟩ := stops_of_walk hwalk
  -- where the rows end is where the header ends, so there are as many of each side as it says
  dsimp only at hhunk
  split at hhunk
  · cases hhunk
  rename_i hends
  rw [not_or, not_not, not_not] at hends
  obtain ⟨rfl, rfl⟩ := hends
  cases hhunk
  exact ⟨s, ⟨hheader, by omega, by omega, hpLt, hqLt⟩, Nat.le_of_not_lt hafter, rfl⟩

end HunkShift

/-! ## 3. Hunks whose sides are in step -/

namespace Hunk

open HunkSpan (first)

variable {d : Direction} {gain : Int} {p q stop : Nat} {hunks : List Hunk} {plan : ShiftPlan}

/-- Hunks with complete headers, none of which begins at line zero on the side that numbers come
from, and each of which begins on the other side later by what the hunks before it have gained. -/
inductive InStep (d : Direction) : Int → List Hunk → Prop
  | nil (gain : Int) : InStep d gain []
  | cons {gain : Int} {h : Hunk} {s : HunkSpan} {rest : List Hunk}
      (header : h.span? = .ok s)
      (positive : 0 < first (s.source d))
      (gained : (first (s.target d) : Int) = first (s.source d) + gain)
      (others : InStep d (gain + (s.target d).2 - (s.source d).2) rest) :
      InStep d gain (h :: rest)

/-- Accepted hunks that are in step fit together. -/
theorem InStep.aligned (hstep : InStep d gain hunks)
    (hplan : ShiftPlan.buildFrom? d stop hunks = .ok plan) (hp : p = max 1 stop)
    (hq : (q : Int) = p + gain) : Aligned d p q hunks := by
  induction hstep generalizing p q stop plan with
  | nil => exact .nil p q
  | @cons gain h s rest header positive gained others ih =>
    simp only [ShiftPlan.buildFrom?, Result.bind_eq_ok] at hplan
    obtain ⟨shift, hshift, later, hlater, -⟩ := hplan
    obtain ⟨s', hseen, hafter, hstop⟩ := HunkShift.seen_of_ofHunk? hshift
    obtain rfl : s = s' := Except.ok.inj (header.symm.trans hseen.header)
    rw [HunkSpan.target_eq_source_flip] at gained
    -- as many lines lie between this hunk and the one before it on either side
    have hstart : first (s.source d) = p + (first (s.source d) - p) := by omega
    have hstart' : first (s.source d.flip) = q + (first (s.source d) - p) := by omega
    refine .cons _ hseen hstart hstart' (ih hlater ?_ ?_)
    · omega
    · rw [HunkSpan.target_eq_source_flip]
      omega

end Hunk

/-! ## 4. What is kept -/

namespace SourceFile

open Hunk (Aligned InStep lost)

variable {f : SourceFile} {hunks : List Hunk} {d : Direction} {plan : ShiftPlan}
  {table : Table Nat Line}

/-- The keys after an entry are the ones that follow it. -/
theorem lt_iff_mem_later {e : Nat × Line} {before after : List (Nat × Line)} {k : Nat}
    (hsplit : table.entries = before ++ e :: after) (hk : k ∈ table.keys) :
    e.1 < k ↔ k ∈ after.map Prod.fst := by
  have hasc := table.keys_ascending.imp Nat.compare_eq_lt.1
  rw [Table.keys, hsplit, List.map_append, List.map_cons] at hasc hk
  obtain ⟨-, hrest, hcross⟩ := List.pairwise_append.1 hasc
  constructor
  · intro hlt
    rcases List.mem_append.1 hk with hin | hin
    · exact absurd (hcross k hin e.1 List.mem_cons_self) (Nat.not_lt_of_lt hlt)
    · exact (List.mem_cons.1 hin).resolve_left (Nat.ne_of_gt hlt)
  · exact fun hin => (List.pairwise_cons.1 hrest).1 k hin

/-- A line that is stored after the move is unaltered, and the last one sent to its number. -/
theorem get?_shiftLines {m : Nat} {l : Line} :
    (shiftLines plan table).get? m = some l ↔
      ∃ n, table.get? n = some l ∧ plan.map? n = some m ∧
        ∀ k ∈ table.keys, n < k → plan.map? k ≠ some m := by
  rw [shiftLines, Table.get?_ofList_eq_some]
  constructor
  · rintro ⟨earlier, later, hsplit, hlater⟩
    -- the entry that the found one comes from, and those after it
    obtain ⟨before, rest, hentries, -, hrest⟩ := List.filterMap_eq_append_iff.1 hsplit
    obtain ⟨skipped, ⟨n, own⟩, after, rfl, -, hown, rfl⟩ := List.filterMap_eq_cons_iff.1 hrest
    obtain ⟨k, hk, heq⟩ := Option.map_eq_some_iff.1 hown
    obtain ⟨rfl, rfl⟩ := Prod.mk.inj heq
    rw [← List.append_assoc] at hentries
    refine ⟨n, ?_, hk, fun j hj hlt hjk => ?_⟩
    · exact (Table.get?_eq_some_iff _).2 (by simp [hentries])
    · obtain ⟨e, he, rfl⟩ := List.mem_map.1 ((lt_iff_mem_later hentries hj).1 hlt)
      exact hlater _ (List.mem_filterMap.2 ⟨e, he, congrArg (Option.map fun m => (m, e.2)) hjk⟩) rfl
  · rintro ⟨n, hn, hto, hlast⟩
    obtain ⟨before, after, hentries⟩ := List.append_of_mem ((Table.get?_eq_some_iff _).1 hn)
    simp only [hentries, List.filterMap_append, List.filterMap_cons, hto, Option.map_some]
    refine ⟨_, _, rfl, fun e he hm => ?_⟩
    obtain ⟨⟨k, own⟩, hk, heq⟩ := List.mem_filterMap.1 he
    obtain ⟨j, hj, rfl⟩ := Option.map_eq_some_iff.1 heq
    -- an entry that comes after it has a greater number
    have hkey : k ∈ table.keys :=
      List.mem_map_of_mem (f := Prod.fst) (hentries ▸ by simp [hk] : (k, own) ∈ table.entries)
    have hlater := (lt_iff_mem_later hentries hkey).2 (List.mem_map_of_mem hk)
    exact hlast k hkey hlater (hm ▸ hj)

section moved

variable {gone new : List Nat} {shifted : Table Nat Line}

theorem values_of_moved (hmoved : List.Forall₂ (Moved gone new) table.entries shifted.entries) :
    shifted.values = table.values := by
  have hlines := List.forall₂_map_left_iff.2 (List.forall₂_map_right_iff.2
    (hmoved.imp fun _ _ he => he.line))
  rw [List.forall₂_eq_eq_eq] at hlines
  exact hlines.symm

theorem keys_of_moved (hmoved : List.Forall₂ (Moved gone new) table.entries shifted.entries) :
    List.Forall₂ (Lands 1 1 gone new) table.keys shifted.keys :=
  List.forall₂_map_left_iff.2 (List.forall₂_map_right_iff.2 (hmoved.imp fun _ _ he => he.lands))

end moved

/-- **A shift is all or nothing, and loses nothing through hunks that are in step.**  Refused hunks
change nothing.  Accepted ones that send no line to number zero, where none can be stored, leave
lines unaltered: each one that is stored comes from a line of the file, the last one that the plan
sends to its number.  When the hunks are in step, all lines that they do not take away are stored,
in order, each where it lands, and no two at one number. -/
theorem shift_keeps (hnumbers : ∀ n ∈ f.lines.keys, 0 < n ∧ n < Text.word32) :
    (∀ shifted, f.shift hunks d = (false, shifted) → shifted = f) ∧
    ∀ shifted, f.shift hunks d = (true, shifted) →
      (f.StaysNumbered hunks d →
        ∃ plan, ShiftPlan.build? d hunks = .ok plan ∧
          ∀ m l, shifted.line? m = some l ↔
            ∃ n, f.line? n = some l ∧ plan.map? n = some m ∧
              ∀ k ∈ f.lines.keys, n < k → plan.map? k ≠ some m) ∧
      (InStep d 0 hunks →
        (∀ n ∈ f.lines.keys, ∀ m,
          Lands 1 1 (hunks.flatMap (lost d)) (hunks.flatMap (lost d.flip)) n m → m < Text.word32) →
        shifted.lines.values = (f.withoutLines (hunks.flatMap (lost d))).lines.values ∧
        List.Forall₂ (Lands 1 1 (hunks.flatMap (lost d)) (hunks.flatMap (lost d.flip)))
          (f.withoutLines (hunks.flatMap (lost d))).lines.keys shifted.lines.keys ∧
        shifted.lines.keys.Nodup ∧ ∀ m ∈ shifted.lines.keys, 1 ≤ m) := by
  unfold shift
  cases hbuild : ShiftPlan.build? d hunks with
  | error fault =>
    refine ⟨fun shifted h => (Prod.mk.inj h).2.symm, fun shifted h => ?_⟩
    exact absurd (Prod.mk.inj h).1 Bool.false_ne_true
  | ok plan =>
    refine ⟨fun shifted h => absurd (Prod.mk.inj h).1.symm Bool.false_ne_true, fun shifted h => ?_⟩
    obtain rfl := (Prod.mk.inj h).2
    refine ⟨fun _ => ⟨plan, rfl, fun m l => get?_shiftLines⟩, fun hstep hlanding => ?_⟩
    -- what was accepted and is in step is aligned, and of that the landings are known
    have hfit : Aligned d 1 1 hunks := hstep.aligned hbuild rfl rfl
    obtain ⟨plan', hplan', hcarries⟩ := ShiftPlan.exists_plan hfit
    obtain rfl : plan = plan' := Except.ok.inj (hbuild.symm.trans hplan')
    have hmoved := entries_shiftLines hfit.nodup_lost hfit.flip.nodup_lost hcarries hnumbers hlanding
    refine ⟨values_of_moved hmoved, keys_of_moved hmoved, ?_, fun m hm => ?_⟩
    · exact (Table.keys_ascending _).imp Precedes.ne
    · obtain ⟨e', he', rfl⟩ := List.mem_map.1 hm
      obtain ⟨e, -, he⟩ := exists_of_mem_forall₂ hmoved he'
      exact he.target

/-- Back through two hunks: the changed line goes, and further down so do the two lines that had
come in; the others are where they were before. -/
theorem shift_keeps_edited :
    let line (n : Nat) : Line := { reading := .ratio n 9 }
    let change : Hunk := ⟨[some 1, some 4, some 1, some 3], [" a", "-b", "+B", "-c", " d"]⟩
    let insertion : Hunk := ⟨[some 5, some 0, some 5, some 2], ["+x", "+y"]⟩
    let hunks := [change, insertion]
    let f : SourceFile :=
      { name := "a"
        content := .lines <| .ofList
          [(1, line 1), (2, line 2), (4, line 4), (5, line 0), (7, line 7)] }
    ((∀ n ∈ f.lines.keys, 0 < n ∧ n < Text.word32) ∧ InStep .backward 0 hunks) ∧
      ∃ shifted, f.shift hunks .backward = (true, shifted) ∧
        shifted.lines.values = [line 1, line 4, line 7] ∧ shifted.lines.keys = [1, 5, 6] ∧
        shifted.lines.keys.Nodup := by
  intro line change insertion hunks f
  have hnumbers : ∀ n ∈ f.lines.keys, 0 < n ∧ n < Text.word32 := by decide
  have hstep : InStep .backward 0 hunks :=
    .cons rfl (by decide) rfl (.cons rfl (by decide) rfl (.nil _))
  have hlanding : ∀ n ∈ f.lines.keys, ∀ m,
      Lands 1 1 (hunks.flatMap (lost .backward)) (hunks.flatMap (lost .forward)) n m →
        m < Text.word32 := by
    intro n hn m hlands
    have hsmall : ∀ n ∈ f.lines.keys, n ≤ 7 := by decide
    have hnew : (hunks.flatMap (lost .forward)).length = 2 := by decide
    have hle := hlands.le_add_length
    have hn := hsmall n hn
    rw [hnew] at hle
    rw [Text.word32]
    omega
  have hshift : f.shift hunks .backward = (true, (f.shift hunks .backward).2) := rfl
  obtain ⟨-, hkeeps⟩ := @shift_keeps f hunks .backward hnumbers
  obtain ⟨hvalues, -, hnodup, -⟩ := (hkeeps _ hshift).2 hstep hlanding
  exact ⟨⟨hnumbers, hstep⟩, _, hshift, hvalues, by decide +kernel, hnodup⟩

/-- A hunk that keeps its one line, and says that it was the first one and is the second one now, is
accepted, although no hunk before it has put a line there.  The second line goes to number 2 as
well, and the first one, which no hunk takes away, is lost. -/
theorem colliding_line_lost :
    let hunks : List Hunk := [⟨[some 1, some 1, some 2, some 1], [" x"]⟩]
    let run : Line := .ofSession { id := 0, reading := .ofCount 1 }
    let missed : Line := .ofSession { id := 0, reading := .miss }
    let f : SourceFile := { name := "a", content := .lines (.ofList [(1, run), (2, missed)]) }
    hunks.flatMap (lost .forward) = [] ∧
      ∃ shifted, f.shift hunks .forward = (true, shifted) ∧ shifted.lines.entries = [(2, missed)] :=
  ⟨by decide, _, rfl, rfl⟩

end SourceFile

end CoverageLedger
