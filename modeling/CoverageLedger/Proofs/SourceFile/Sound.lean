import CoverageLedger.Proofs.Json.Records
import CoverageLedger.Proofs.SourceFile.Sessions

/-!
# Files whose lines have numbers

Line numbers start at one.  A file that is `Sound` has no line under number zero, and what a header
declared of its sessions comes in ascending order.  New files and files of a chunk are sound, and
every operation that a file or a report offers keeps a file so.  Only a diff with a header that puts
a line on number zero does not, and there is no file after following one.
-/

namespace CoverageLedger

/-- Ids that a header can declare: of 32 bits, each once and in order. -/
structure Declarable (ids : List Nat) : Prop where
  ascending : ids.Pairwise Precedes
  bounded : ∀ id ∈ ids, id < Text.word32

/-- No line under number zero, and ids that were declared as a header can. -/
structure SourceFile.Sound (f : SourceFile) : Prop where
  numbers : ∀ n l, f.lines.get? n = some l → n ≠ 0
  declared : ∀ ids, f.declared = some ids → Declarable ids

namespace SourceFile

variable {f g : SourceFile} {ids : List Nat}

/-! ## 1. Where files come from -/

theorem Sound.new (name : String) : Sound { name } where
  numbers := by
    intro n l h
    cases h
  declared := by
    intro ids h
    cases h

theorem Sound.ofChunk (name chunk : String) : Sound { name, content := .text chunk } where
  numbers := by
    intro n l h
    have hmem : (n, l) ∈ (Chunk.lines chunk).entries := (Table.get?_eq_some_iff _).1 h
    have hle : 1 ≤ n := Chunk.le_of_mem_numbered hmem
    omega
  declared := by
    intro ids h
    cases h

/-! ## 2. Reading -/

theorem declarable_headerIds? {chunk : String} (h : Chunk.headerIds? chunk = some ids) :
    Declarable ids := by
  rw [Chunk.headerIds?] at h
  obtain ⟨header, -, h⟩ := Option.bind_eq_some_iff.1 h
  dsimp only at h
  split at h
  · cases h
  · simp only [Option.bind_eq_bind, Option.bind_eq_some_iff, Option.map_eq_some_iff] at h
    obtain ⟨_, _, _, _, _, hread, declared, rfl, rfl⟩ := h
    refine ⟨ascend_ascending declared, fun id hid => ?_⟩
    exact Json.lt_word32_of_list? (Json.list?_of_optional? hread) id (mem_ascend.1 hid)

/-- Ids of 32 bits on the lines can be declared, and those that were declared can be again. -/
theorem Sound.declarable_sessionIds (h : f.Sound) (hparsed : f.isParsed = true)
    (hids : ∀ n l, f.lines.get? n = some l → ∀ s ∈ l.sessions, s.id < Text.word32) :
    Declarable f.sessionIds := by
  obtain ⟨name, content, declared, ignore⟩ := f
  cases content with
  | text chunk => cases hparsed
  | lines table =>
    cases declared with
    | some ids => exact h.declared ids rfl
    | none =>
      refine ⟨ascend_ascending _, fun id hid => ?_⟩
      obtain ⟨n, l, hl, hmem⟩ := mem_idsOfLines.1 hid
      obtain ⟨s, hs, rfl⟩ := Line.mem_sessionIds.1 hmem
      exact hids n l hl s hs

theorem Sound.opened (h : f.Sound) : f.opened.Sound := ⟨h.numbers, h.declared⟩

theorem Sound.afterLines (h : f.Sound) (numbers : List Nat) : (f.afterLines numbers).Sound := by
  rw [SourceFile.afterLines]
  split
  · exact h
  · exact h.opened

theorem Sound.afterSessionIds (h : f.Sound) : f.afterSessionIds.Sound := by
  rw [SourceFile.afterSessionIds]
  split
  · split
    · rename_i ids hids
      refine ⟨h.numbers, fun own hown => ?_⟩
      obtain rfl := Option.some.inj hown
      exact declarable_headerIds? hids
    · exact h.opened
  · exact h

/-! ## 3. Editing -/

theorem Sound.edit {change : Table Nat Line → Table Nat Line}
    (h : ∀ n l, (change f.lines).get? n = some l → n ≠ 0) : (f.edit change).Sound where
  numbers := h
  declared := by
    intro ids hids
    cases hids

/-- Rules against lines are no matter of soundness. -/
theorem Sound.withIgnore (h : f.Sound) (rule : Option IgnoreRule) :
    Sound { f with ignore := rule } := ⟨h.numbers, h.declared⟩

theorem Sound.withName (h : f.Sound) (name : String) : Sound { f with name } :=
  ⟨h.numbers, h.declared⟩

theorem Sound.filterMap (h : f.Sound) (change : Nat → Line → Option Line) :
    (f.edit fun table => table.filterMap change).Sound := by
  refine .edit fun n l hl => ?_
  rw [Table.get?_filterMap, Option.bind_eq_some_iff] at hl
  obtain ⟨own, hown, -⟩ := hl
  exact h.numbers n own hown

theorem Sound.appendLine (h : f.Sound) {n : Nat} (hn : n ≠ 0) (line : Line) (joined : Bool) :
    (f.appendLine n line joined).Sound := by
  refine .edit fun k l hl => ?_
  rw [Table.get?_insert] at hl
  split at hl
  · rename_i hk
    rw [hk]
    exact hn
  · exact h.numbers k l hl

theorem Sound.append {n : Nat} {line : Line} {joined written : Bool} (h : f.Sound)
    (happ : f.append n line joined = .ok (written, g)) : g.Sound := by
  rw [SourceFile.append] at happ
  split at happ
  · cases happ
  · rename_i hn
    split at happ
    · cases happ
      exact h
    · cases happ
      exact h.appendLine hn line joined

theorem Sound.set {n : Nat} {line : Line} (h : f.Sound) (hset : f.set n line = .ok g) :
    g.Sound := by
  rw [SourceFile.set] at hset
  split at hset
  · cases hset
  · rename_i hn
    split at hset
    · cases hset
      exact h
    · cases hset
      refine .edit fun k l hl => ?_
      rw [Table.get?_insert] at hl
      split at hl
      · rename_i hk
        rw [hk]
        exact hn
      · exact h.numbers k l hl

theorem Sound.remove {n : Nat} {own : Option Line} (h : f.Sound)
    (hrem : f.remove n = .ok (own, g)) : g.Sound := by
  rw [SourceFile.remove] at hrem
  split at hrem
  · cases hrem
  · split at hrem
    · cases hrem
      exact h.opened
    · cases hrem
      refine .edit fun k l hl => ?_
      rw [Table.get?_erase] at hl
      split at hl
      · cases hl
      · exact h.numbers k l hl

theorem Sound.ignoreLines (h : f.Sound) (numbers : List Nat) (eof : Option Nat) :
    (f.ignoreLines numbers eof).Sound := by
  refine Sound.withIgnore (.edit fun n l hl => ?_) _
  rw [Table.get?_filter] at hl
  exact h.numbers n l (Option.filter_eq_some_iff.1 hl).1

theorem Sound.mergeLines (h : f.Sound) {other : Table Nat Line}
    (hother : ∀ n l, other.get? n = some l → n ≠ 0) (joined : Bool) :
    (f.mergeLines other joined).Sound := by
  have hentries : ∀ e ∈ other.entries, e.1 ≠ 0 := fun e he =>
    hother e.1 e.2 ((Table.get?_eq_some_iff _).2 he)
  rw [SourceFile.mergeLines]
  generalize other.entries = entries at hentries
  induction entries generalizing f with
  | nil => exact h
  | cons e rest ih =>
    have hstep : (if f.ignores e.1 then f else f.appendLine e.1 e.2 joined).Sound := by
      split
      · exact h
      · exact h.appendLine (hentries e List.mem_cons_self) e.2 joined
    exact ih hstep fun e' he' => hentries e' (List.mem_cons_of_mem e he')

theorem Sound.merge (h : f.Sound) (hg : g.Sound) (joined : Bool) : (f.merge g joined).2.Sound := by
  rw [SourceFile.merge]
  split
  · exact h
  · exact h.mergeLines hg.numbers joined

theorem Sound.deleteSessions (h : f.Sound) (ids : List Nat) : (f.deleteSessions ids).Sound :=
  h.filterMap _

theorem Sound.withoutSessions (h : f.Sound) (ids : List Nat) : (f.withoutSessions ids).Sound := by
  rw [SourceFile.withoutSessions]
  split
  · exact h.afterSessionIds.deleteSessions ids
  · exact h.afterSessionIds

theorem Sound.deleteLabels (h : f.Sound) (ids labels : List Nat) :
    (f.deleteLabels ids labels).Sound := h.filterMap _

theorem Sound.changeSessionId (h : f.Sound) (old new : Nat) : (f.changeSessionId old new).Sound := by
  rw [SourceFile.changeSessionId]
  split
  · refine .edit fun n l hl => ?_
    rw [Table.get?_map, Option.map_eq_some_iff] at hl
    obtain ⟨own, hown, -⟩ := hl
    exact h.numbers n own hown
  · exact h.afterSessionIds

/-! ## 4. Following a diff -/

/-- No line of the file goes to number zero.  The header of an empty side names the line before it,
which may be none, but a side with lines that starts at zero has no place for its first one. -/
def StaysNumbered (f : SourceFile) (hunks : List Hunk) (direction : Direction) : Prop :=
  ∀ plan, ShiftPlan.build? direction hunks = .ok plan →
    ∀ n l, f.lines.get? n = some l → plan.map? n ≠ some 0

theorem Sound.shift (h : f.Sound) {hunks : List Hunk} {direction : Direction}
    (hstays : f.StaysNumbered hunks direction) : (f.shift hunks direction).2.Sound := by
  rw [SourceFile.shift]
  cases hplan : ShiftPlan.build? direction hunks with
  | error fault => exact h
  | ok plan =>
    refine .edit fun n l hl => ?_
    have hmem := Table.mem_of_mem_ofList ((Table.get?_eq_some_iff _).1 hl)
    obtain ⟨⟨k, own⟩, hown, heq⟩ := List.mem_filterMap.1 hmem
    obtain ⟨m, hm, heq⟩ := Option.map_eq_some_iff.1 heq
    obtain ⟨rfl, rfl⟩ := Prod.mk.inj heq
    rintro rfl
    exact hstays plan hplan k own ((Table.get?_eq_some_iff _).2 hown) hm

end SourceFile

end CoverageLedger
