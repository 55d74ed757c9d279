import CoverageLedger.Proofs.SourceFile.Kept
import CoverageLedger.Proofs.SourceFile.Unread

/-!
# Lines that a file refuses

A file with an ignore rule looks at it whenever a line is written, and a rule that is installed
drops the stored lines that it covers.  Shifting looks at no rule.  `breaks_shift_iff` says which
refused numbers one shift fills, and `breaks_of_shift` that nothing else ever does: over any sequence
of calls, a stored line that is refused was put there by a shift, made since the rule in force was
installed.
-/

namespace CoverageLedger

/-! ## 1. Keeping to a rule -/

namespace SourceFile

variable {f g : SourceFile} {n : Nat}

/-- A line is stored under a number that the rule of the file refuses. -/
def Breaks (f : SourceFile) (n : Nat) : Prop := f.ignores n = true ∧ ∃ l, f.lines.get? n = some l

/-- No stored line is refused. -/
def Obeys (f : SourceFile) : Prop := ∀ n, ¬ f.Breaks n

theorem obeys_of_isEmpty (h : f.isEmpty = true) : f.Obeys := by
  rintro n ⟨-, l, hl⟩
  rw [(Table.isEmpty_iff f.lines).1 h] at hl
  cases hl

/-- With a cutoff, the last line of a file that keeps to its rule is not beyond it. -/
theorem Obeys.eof_le {rule : IgnoreRule} {e : Nat} (h : f.Obeys) (hrule : f.ignore = some rule)
    (he : rule.eof = some e) : f.eof ≤ e + 1 := by
  rw [eof, Table.last?]
  cases hlast : f.lines.entries.getLast? with
  | none => exact Nat.le_add_left 1 e
  | some entry =>
    have hstored : f.lines.get? entry.1 = some entry.2 :=
      (Table.get?_eq_some_iff _).2 (List.mem_of_getLast? hlast)
    refine Nat.succ_le_succ (Nat.le_of_not_lt fun hlt => h entry.1 ⟨?_, entry.2, hstored⟩)
    rw [ignores, hrule]
    show rule.covers entry.1 = true
    rw [IgnoreRule.covers, he, Bool.or_eq_true]
    exact .inr (decide_eq_true hlt)

/-- A file with the rule of another, all of whose lines the other stores or does not refuse. -/
structure Respects (f g : SourceFile) : Prop where
  ignore : g.ignore = f.ignore
  lines : ∀ n l, g.lines.get? n = some l → f.ignores n = false ∨ ∃ own, f.lines.get? n = some own

namespace Respects

theorem of_lines (hignore : g.ignore = f.ignore) (hlines : g.lines = f.lines) : Respects f g := by
  refine ⟨hignore, fun n l hl => .inr ⟨l, ?_⟩⟩
  rw [← hlines, hl]

theorem refl (f : SourceFile) : Respects f f := .of_lines rfl rfl

theorem ignores (h : Respects f g) (n : Nat) : g.ignores n = f.ignores n := by
  rw [SourceFile.ignores, SourceFile.ignores, h.ignore]

theorem trans {k : SourceFile} (h : Respects f g) (h' : Respects g k) : Respects f k := by
  refine ⟨h'.ignore.trans h.ignore, fun n l hl => ?_⟩
  rcases h'.lines n l hl with hout | ⟨own, hown⟩
  · exact .inl (h.ignores n ▸ hout)
  · exact h.lines n own hown

theorem breaks (h : Respects f g) (hg : g.Breaks n) : f.Breaks n := by
  obtain ⟨hrefused, l, hl⟩ := hg
  rw [h.ignores] at hrefused
  refine ⟨hrefused, (h.lines n l hl).resolve_left ?_⟩
  rw [hrefused]
  exact Bool.noConfusion

/-- A change that stores no line under a new number keeps to every rule. -/
theorem edit {change : Table Nat Line → Table Nat Line}
    (h : ∀ n l, (change f.lines).get? n = some l → ∃ own, f.lines.get? n = some own) :
    Respects f (f.edit change) := ⟨rfl, fun n l hl => .inr (h n l hl)⟩

/-- So does a line that is written under a number that is not refused. -/
theorem insert {change : Table Nat Line → Table Nat Line} (h : f.ignores n = false) (line : Line)
    (hchange : change f.lines = f.lines.insert n line) : Respects f (f.edit change) := by
  refine ⟨rfl, fun k l hl => ?_⟩
  rw [lines_edit, hchange, Table.get?_insert] at hl
  split at hl
  · rename_i hk
    exact .inl (hk ▸ h)
  · exact .inr ⟨l, hl⟩

theorem opened (f : SourceFile) : Respects f f.opened := .of_lines rfl rfl

theorem afterSessionIds (f : SourceFile) : Respects f f.afterSessionIds :=
  .of_lines ignore_afterSessionIds lines_afterSessionIds

theorem filterMap (rework : Nat → Line → Option Line) :
    Respects f (f.edit fun table => table.filterMap rework) := by
  refine edit fun n l hl => ?_
  rw [Table.get?_filterMap] at hl
  obtain ⟨own, hown, -⟩ := Option.bind_eq_some_iff.1 hl
  exact ⟨own, hown⟩

theorem mergeLines (f : SourceFile) (other : Table Nat Line) (joined : Bool) :
    Respects f (f.mergeLines other joined) := by
  unfold SourceFile.mergeLines
  induction other.entries generalizing f with
  | nil => exact .refl f
  | cons entry rest ih =>
    refine Respects.trans ?_ (ih _)
    show Respects f (if f.ignores entry.1 then f else f.appendLine entry.1 entry.2 joined)
    split
    · exact .refl f
    · rename_i hrefused
      exact insert (Bool.eq_false_iff.2 hrefused) _ rfl

theorem merge (f other : SourceFile) (joined : Bool) : Respects f (f.merge other joined).2 := by
  unfold SourceFile.merge
  split
  · exact .refl f
  · exact mergeLines f other.lines joined

theorem append {line : Line} {joined written : Bool}
    (h : f.append n line joined = .ok (written, g)) : Respects f g := by
  unfold SourceFile.append at h
  split at h
  · cases h
  · split at h
    · cases h
      exact .refl f
    · rename_i hrefused
      cases h
      exact insert (Bool.eq_false_iff.2 hrefused) _ rfl

theorem set {line : Line} (h : f.set n line = .ok g) : Respects f g := by
  unfold SourceFile.set at h
  split at h
  · cases h
  · split at h
    · cases h
      exact .refl f
    · rename_i hrefused
      cases h
      exact insert (Bool.eq_false_iff.2 hrefused) line rfl

theorem remove {l : Option Line} (h : f.remove n = .ok (l, g)) : Respects f g := by
  unfold SourceFile.remove at h
  split at h
  · cases h
  · split at h
    · cases h
      exact .opened f
    · cases h
      refine edit fun k own hown => ⟨own, ?_⟩
      rw [Table.get?_erase] at hown
      split at hown
      · cases hown
      · exact hown

theorem withoutSessions (f : SourceFile) (ids : List Nat) : Respects f (f.withoutSessions ids) := by
  unfold SourceFile.withoutSessions
  split
  · exact (afterSessionIds f).trans (filterMap _)
  · exact afterSessionIds f

theorem withoutLabels (f : SourceFile) (ids labels : List Nat) :
    Respects f (f.withoutLabels ids labels) := by
  unfold SourceFile.withoutLabels
  split
  · exact (afterSessionIds f).trans (filterMap _)
  · exact afterSessionIds f

theorem changeSessionId (f : SourceFile) (old new : Nat) :
    Respects f (f.changeSessionId old new) := by
  unfold SourceFile.changeSessionId
  split
  · refine edit fun n l hl => ?_
    rw [Table.get?_map] at hl
    obtain ⟨own, hown, -⟩ := Option.map_eq_some_iff.1 hl
    exact ⟨own, hown⟩
  · exact afterSessionIds f

end Respects

theorem exists_get?_shiftLines (plan : ShiftPlan) (table : Table Nat Line) :
    (∃ l, (shiftLines plan table).get? n = some l) ↔
      ∃ m l, table.get? m = some l ∧ plan.map? m = some n := by
  rw [← Table.mem_keys_iff, shiftLines, Table.mem_keys_ofList, List.mem_map]
  constructor
  · rintro ⟨moved, hmoved, rfl⟩
    obtain ⟨⟨m, l⟩, hl, hto⟩ := List.mem_filterMap.1 hmoved
    obtain ⟨k, hk, rfl⟩ := Option.map_eq_some_iff.1 hto
    exact ⟨m, l, (Table.get?_eq_some_iff _).2 hl, hk⟩
  · rintro ⟨m, l, hl, hto⟩
    refine ⟨(n, l), List.mem_filterMap.2 ⟨(m, l), (Table.get?_eq_some_iff _).1 hl, ?_⟩, rfl⟩
    exact congrArg (Option.map fun k => (k, l)) hto

/-- Some hunks send a stored line of a file to a number. -/
def Sends (f : SourceFile) (hunks : List Hunk) (direction : Direction) (n : Nat) : Prop :=
  ∃ plan m l, ShiftPlan.build? direction hunks = .ok plan ∧ f.lines.get? m = some l ∧
    plan.map? m = some n

/-- A shift leaves a refused line where it has sent one, or where one was when it does not fit. -/
theorem breaks_shift_iff (hunks : List Hunk) (direction : Direction) :
    (f.shift hunks direction).2.Breaks n ↔ f.ignores n = true ∧ f.Sends hunks direction n ∨
      f.Breaks n ∧ (f.shift hunks direction).1 = false := by
  unfold shift
  cases hbuild : ShiftPlan.build? direction hunks with
  | error e =>
    refine ⟨fun hbreaks => .inr ⟨hbreaks, rfl⟩, ?_⟩
    rintro (⟨-, plan, m, l, hplan, -⟩ | ⟨hbreaks, -⟩)
    · rw [hbuild] at hplan
      cases hplan
    · exact hbreaks
  | ok plan =>
    constructor
    · rintro ⟨hrefused, hstored⟩
      obtain ⟨m, l, hl, hto⟩ := (exists_get?_shiftLines plan f.lines).1 hstored
      exact .inl ⟨hrefused, plan, m, l, hbuild, hl, hto⟩
    · rintro (⟨hrefused, own, m, l, hplan, hl, hto⟩ | ⟨-, hfits⟩)
      · obtain rfl := Except.ok.inj (hbuild.symm.trans hplan)
        exact ⟨hrefused, (exists_get?_shiftLines plan f.lines).2 ⟨m, l, hl, hto⟩⟩
      · cases hfits

/-- A rule that is installed is kept to. -/
theorem obeys_ignoreLines (numbers : List Nat) (eof : Option Nat) :
    (f.ignoreLines numbers eof).Obeys := by
  rintro n ⟨hrefused, l, hl⟩
  have hkept : (f.ignoreLines numbers eof).lines.get? n =
      (f.lines.get? n).filter fun _ => !(f.ignoreLines numbers eof).ignores n :=
    Table.get?_filter _ _ n
  rw [hkept, hrefused] at hl
  obtain ⟨-, hpasses⟩ := Option.filter_eq_some_iff.1 hl
  cases hpasses

end SourceFile

/-! ## 2. Calls one after the other -/

namespace KeptFile

open SourceFile (Respects)

variable {f : KeptFile} {n : Nat}

/-- The file after some calls. -/
def afterCalls (f : KeptFile) (calls : List FileCall) : KeptFile :=
  calls.foldl (fun f c => (f.call c).2) f

/-- Calls that neither install a rule nor shift write no refused line. -/
theorem respects_call (f : KeptFile) {c : FileCall}
    (hrule : ∀ numbers eof, c ≠ .ignoreLines numbers eof)
    (hshift : ∀ hunks direction, c ≠ .shift hunks direction) :
    Respects f.file (f.call c).2.file := by
  cases c with
  | get n =>
    show Respects f.file (f.get n).2.file
    unfold get
    split
    · exact .opened f.file
    · exact .refl f.file
  | lines => exact .opened f.file
  | size => exact .opened f.file
  | isEmpty => exact .opened f.file
  | eof => exact .opened f.file
  | totals =>
    show Respects f.file f.askTotals.2.file
    unfold askTotals
    split
    · exact .refl f.file
    · exact .opened f.file
  | sessionIds => exact .afterSessionIds f.file
  | addedTotals hunks =>
    exact .of_lines (SourceFile.ignore_afterLines _) (SourceFile.lines_afterLines _)
  | encode => exact .refl f.file
  | append n line joined =>
    show Respects f.file (f.append n line joined).2.file
    unfold append
    split
    · rename_i hok
      exact .append hok
    · exact .refl f.file
  | set n line =>
    show Respects f.file (f.set n line).2.file
    unfold set
    split
    · rename_i hok
      exact .set hok
    · exact .refl f.file
  | remove n =>
    show Respects f.file (f.remove n).2.file
    unfold remove
    split
    · rename_i hok
      exact .remove hok
    · exact .refl f.file
  | merge other joined => exact .merge f.file other joined
  | ignoreLines numbers eof => exact absurd rfl (hrule numbers eof)
  | shift hunks direction => exact absurd rfl (hshift hunks direction)
  | deleteSessions ids => exact .withoutSessions f.file ids
  | deleteLabels ids labels => exact .withoutLabels f.file ids labels
  | changeSessionId old new => exact .changeSessionId f.file old new

/-- One call: a refused line that is stored after it was stored before it under the same rule, or
was sent to its number by the call. -/
theorem breaks_call {c : FileCall} (h : (f.call c).2.file.Breaks n) :
    f.file.Breaks n ∧ (∀ numbers eof, c ≠ .ignoreLines numbers eof) ∨
      ∃ hunks direction, c = .shift hunks direction ∧ f.file.Sends hunks direction n := by
  by_cases hrule : ∃ numbers eof, c = .ignoreLines numbers eof
  · obtain ⟨numbers, eof, rfl⟩ := hrule
    exact absurd h (SourceFile.obeys_ignoreLines numbers eof n)
  · have hrule' : ∀ numbers eof, c ≠ .ignoreLines numbers eof := fun numbers eof hc =>
      hrule ⟨numbers, eof, hc⟩
    by_cases hshift : ∃ hunks direction, c = .shift hunks direction
    · obtain ⟨hunks, direction, rfl⟩ := hshift
      rcases (SourceFile.breaks_shift_iff hunks direction).1 h with ⟨-, hsends⟩ | ⟨hbreaks, -⟩
      · exact .inr ⟨hunks, direction, rfl, hsends⟩
      · exact .inl ⟨hbreaks, hrule'⟩
    · have hrespects := respects_call f hrule' fun hunks direction hc =>
        hshift ⟨hunks, direction, hc⟩
      exact .inl ⟨hrespects.breaks h, hrule'⟩

/-- Some calls: by induction on them, from the file before the first. -/
theorem breaks_afterCalls {calls : List FileCall} (h : (f.afterCalls calls).file.Breaks n) :
    f.file.Breaks n ∧ (∀ numbers eof, .ignoreLines numbers eof ∉ calls) ∨
      ∃ before hunks direction after, calls = before ++ .shift hunks direction :: after ∧
        (f.afterCalls before).file.Sends hunks direction n ∧
        ∀ numbers eof, .ignoreLines numbers eof ∉ after := by
  induction calls generalizing f with
  | nil => exact .inl ⟨h, fun numbers eof => List.not_mem_nil⟩
  | cons c rest ih =>
    rcases ih h with ⟨hbreaks, hrest⟩ | ⟨before, hunks, direction, after, rfl, hsends, hafter⟩
    · rcases breaks_call hbreaks with ⟨hstart, hc⟩ | ⟨hunks, direction, rfl, hsends⟩
      · refine .inl ⟨hstart, fun numbers eof hmem => ?_⟩
        rcases List.mem_cons.1 hmem with hfirst | hmem
        · exact hc numbers eof hfirst.symm
        · exact hrest numbers eof hmem
      · exact .inr ⟨[], hunks, direction, rest, rfl, hsends, hrest⟩
    · exact .inr ⟨c :: before, hunks, direction, after, rfl, hsends, hafter⟩

/-- **Only a shift stores a line that the ignore rule refuses.**  Take a file that keeps to its
rule, as a new file does and any file without a rule, and make any calls.  Each stored line that the
rule then in force refuses was sent to its number by a shift, which was made since that rule was
installed.  When a rule was installed after every shift, or none was made, no refused line is
stored, and with a cutoff the file does not end beyond it. -/
theorem breaks_of_shift (h : f.file.Obeys) (calls : List FileCall) :
    (∀ n, (f.afterCalls calls).file.Breaks n →
      ∃ before hunks direction after, calls = before ++ .shift hunks direction :: after ∧
        (f.afterCalls before).file.Sends hunks direction n ∧
        ∀ numbers eof, .ignoreLines numbers eof ∉ after) ∧
    ((∀ before hunks direction after, calls = before ++ .shift hunks direction :: after →
        ∃ numbers eof, .ignoreLines numbers eof ∈ after) →
      (f.afterCalls calls).file.Obeys ∧
      ∀ rule e, (f.afterCalls calls).file.ignore = some rule → rule.eof = some e →
        (f.afterCalls calls).file.eof ≤ e + 1) := by
  have hcause (n : Nat) (hbreaks : (f.afterCalls calls).file.Breaks n) :=
    (breaks_afterCalls hbreaks).resolve_left fun hstart => h n hstart.1
  refine ⟨hcause, fun hinstalled => ?_⟩
  have hobeys : (f.afterCalls calls).file.Obeys := by
    intro n hbreaks
    obtain ⟨before, hunks, direction, after, hcalls, -, hnone⟩ := hcause n hbreaks
    obtain ⟨numbers, eof, hmem⟩ := hinstalled before hunks direction after hcalls
    exact hnone numbers eof hmem
  exact ⟨hobeys, fun rule e => hobeys.eof_le⟩

/-- A new file that is to end at line 2. -/
def cutOff : KeptFile := { file := { name := "a", ignore := some { eof := some 2 } } }

/-- A line is stored at the end, and a diff adds a line before it. -/
def pushed : List FileCall :=
  [.append 2 (.ofSession { id := 0, reading := .hit .one }) true,
    .shift [⟨[some 1, some 0, some 2, some 1], ["+x"]⟩] .forward]

/-- The shift stores the line at 3, beyond the cutoff that is still in force. -/
theorem shifted_beyond_cutoff :
    cutOff.file.Obeys ∧ (cutOff.afterCalls pushed).file.ignore = some { eof := some 2 } ∧
      (cutOff.afterCalls pushed).file.Breaks 3 ∧ (cutOff.afterCalls pushed).file.eof = 4 :=
  ⟨SourceFile.obeys_of_isEmpty rfl, rfl, ⟨rfl, _, rfl⟩, rfl⟩

/-- The line at 3 has its shift, and is gone once the rule is installed again. -/
theorem breaks_of_shift_pushed :
    cutOff.file.Obeys ∧ (cutOff.afterCalls pushed).file.Breaks 3 ∧
      (∃ before hunks direction after, pushed = before ++ .shift hunks direction :: after ∧
        (cutOff.afterCalls before).file.Sends hunks direction 3) ∧
      (cutOff.afterCalls (pushed ++ [.ignoreLines [] (some 2)])).file.eof ≤ 3 := by
  have hobeys : cutOff.file.Obeys := SourceFile.obeys_of_isEmpty rfl
  have hbreaks : (cutOff.afterCalls pushed).file.Breaks 3 := ⟨rfl, _, rfl⟩
  obtain ⟨hcause, -⟩ := breaks_of_shift hobeys pushed
  obtain ⟨-, hkept⟩ := breaks_of_shift hobeys (pushed ++ [.ignoreLines [] (some 2)])
  obtain ⟨before, hunks, direction, after, hcalls, hsends, -⟩ := hcause 3 hbreaks
  refine ⟨hobeys, hbreaks, ⟨before, hunks, direction, after, hcalls, hsends⟩, ?_⟩
  have hinstalled : ∀ before hunks direction after,
      pushed ++ [.ignoreLines [] (some 2)] = before ++ .shift hunks direction :: after →
        ∃ numbers eof, .ignoreLines numbers eof ∈ after := by
    intro before hunks direction after hsplit
    rcases before with _ | ⟨first, _ | ⟨second, _ | ⟨third, rest⟩⟩⟩
    · cases hsplit
    · cases hsplit
      exact ⟨_, _, List.mem_singleton_self _⟩
    · cases hsplit
    · simp [pushed] at hsplit
  exact (hkept hinstalled).2 _ 2 rfl rfl

end KeptFile

end CoverageLedger
