import CoverageLedger.Proofs.Line.Decoded
import CoverageLedger.Proofs.SourceFile.Unread

/-!
# What totals count

Totals see little of a line: how it counts, its kind, the number of its messages, its complexity,
and the same of each session.  `Line.tally` is that part, and totals of lines, of sessions and the
ids of sessions all follow from the tallies (`totals_congr`, `sessionTotals_congr`,
`idsOfLines_congr`).  So a chunk that gives every line back with its tally gives the totals back.
-/

namespace CoverageLedger

/-! ## 1. Tallies -/

/-- What totals count of one session on a line. -/
structure SessionTally where
  id : Nat
  outcome : Option Outcome
  complexity : Option Complexity
  deriving DecidableEq

/-- What totals count of a line. -/
structure Tally where
  outcome : Option Outcome
  kind : Option LineKind
  messages : Nat
  complexity : Option Complexity
  sessions : List SessionTally
  deriving DecidableEq

def LineSession.tally (s : LineSession) : SessionTally :=
  { id := s.id, outcome := s.reading.outcome, complexity := s.complexity }

def Line.tally (l : Line) : Tally :=
  { outcome := l.reading.outcome
    kind := l.kind
    messages := l.messageCount
    complexity := l.complexity
    sessions := l.sessions.map LineSession.tally }

/-- The readings of the sessions on a line, each as a line of its own. -/
def Tally.readings (t : Tally) : List (Nat × Tally) :=
  t.sessions.map fun s =>
    (s.id, { outcome := s.outcome, kind := t.kind, messages := 0, complexity := s.complexity
             sessions := [] })

/-- What totals of lines count, which is nothing of their sessions. -/
def Tally.alone (t : Tally) : Tally := { t with sessions := [] }

/-- The totals of lines follow from their tallies, their sessions left out. -/
theorem Totals.ofLines_congr_alone {lines lines' : List Line}
    (h : lines'.map (·.tally.alone) = lines.map (·.tally.alone)) :
    ofLines lines' = ofLines lines := by
  have hcount (test : Tally → Bool) :
      lines'.countP (test ∘ (·.tally.alone)) = lines.countP (test ∘ (·.tally.alone)) := by
    rw [← List.countP_map, h, List.countP_map]
  have hcomplexity : lines'.filterMap (·.complexity) = lines.filterMap (·.complexity) := by
    have hmap (l : List Line) : l.filterMap (·.complexity) =
        (l.map (·.tally.alone)).filterMap Tally.complexity := by
      rw [List.filterMap_map]
      rfl
    rw [hmap, hmap, h]
  have hmessages : lines'.map Line.messageCount = lines.map Line.messageCount := by
    have hmap (l : List Line) :
        l.map Line.messageCount = (l.map (·.tally.alone)).map Tally.messages := by
      rw [List.map_map]
      rfl
    rw [hmap, hmap, h]
  have houtcome (outcome : Outcome) : countOutcome outcome lines' = countOutcome outcome lines :=
    hcount fun t => t.outcome == some outcome
  have hkind (kind : LineKind) : countKind kind lines' = countKind kind lines :=
    hcount fun t => t.kind == some kind
  simp only [ofLines, houtcome, hkind, hcomplexity, hmessages]

/-- The totals of lines follow from their tallies. -/
theorem Totals.ofLines_congr {lines lines' : List Line}
    (h : lines'.map Line.tally = lines.map Line.tally) : ofLines lines' = ofLines lines := by
  have halone := congrArg (List.map Tally.alone) h
  rw [List.map_map, List.map_map] at halone
  exact ofLines_congr_alone halone

/-! ## 2. The readings of each session -/

/-- With nothing under the new id, totals are only moved. -/
theorem SessionTotals.get?_changeId {s : SessionTotals} {old new : Nat} (h : s.get? new = none)
    (id : Nat) : (s.changeId old new).get? id =
      if id = new then s.get? old else if id = old then none else s.get? id := by
  cases hold : s.get? old with
  | none =>
    have hsame : s.changeId old new = s := by rw [changeId, hold]
    rw [hsame]
    by_cases hid : id = new
    · rw [if_pos hid, hid, h]
    · rw [if_neg hid]
      by_cases hid' : id = old
      · rw [if_pos hid', hid', hold]
      · rw [if_neg hid']
  | some t =>
    have hmoved : s.changeId old new = (s.erase old).insert new t := by rw [changeId, hold]
    rw [hmoved]
    show ((s.byId.erase old).insert new t).get? id = _
    rw [Table.get?_insert, Table.get?_erase]
    rfl

namespace SourceFile

variable {f g : SourceFile} {id : Nat}

/-- The readings of all sessions, each as a line of its own under the id of the session. -/
def readings (f : SourceFile) : List (Nat × Line) :=
  f.lines.values.flatMap fun l => l.sessions.map fun s =>
    (s.id, { reading := s.reading, kind := l.kind, complexity := s.complexity })

/-- The readings of one session. -/
def readingsOf (f : SourceFile) (id : Nat) : List Line := Table.valuesAt id f.readings

theorem readingsOf_eq (f : SourceFile) (id : Nat) : f.readingsOf id =
    f.lines.values.flatMap fun l => (l.sessions.filter fun s => s.id == id).map fun s =>
      { reading := s.reading, kind := l.kind, complexity := s.complexity } := by
  rw [readingsOf, readings, Table.valuesAt, List.filter_flatMap, List.map_flatMap]
  refine List.flatMap_congr fun l _ => ?_
  rw [List.filter_map, List.map_map]
  rfl

theorem mem_readings {e : Nat × Line} : e ∈ f.readings ↔ ∃ n l, f.lines.get? n = some l ∧
    ∃ s ∈ l.sessions,
      e = (s.id, { reading := s.reading, kind := l.kind, complexity := s.complexity }) := by
  rw [readings, List.mem_flatMap]
  constructor
  · rintro ⟨l, hl, he⟩
    obtain ⟨n, hn⟩ := f.lines.mem_values_iff.1 hl
    obtain ⟨s, hs, rfl⟩ := List.mem_map.1 he
    exact ⟨n, l, hn, s, hs, rfl⟩
  · rintro ⟨n, l, hn, s, hs, rfl⟩
    exact ⟨l, f.lines.mem_values_iff.2 ⟨n, hn⟩, List.mem_map.2 ⟨s, hs, rfl⟩⟩

theorem readingsOf_eq_nil_iff : f.readingsOf id = [] ↔ id ∉ idsOfLines f.lines := by
  rw [mem_idsOfLines, readingsOf, Table.valuesAt, List.map_eq_nil_iff, List.filter_eq_nil_iff]
  constructor
  · rintro h ⟨n, l, hn, hid⟩
    obtain ⟨s, hs, rfl⟩ := Line.mem_sessionIds.1 hid
    exact h _ (mem_readings.2 ⟨n, l, hn, s, hs, rfl⟩) (beq_self_eq_true s.id)
  · intro h e he hid
    obtain ⟨n, l, hn, s, hs, rfl⟩ := mem_readings.1 he
    exact h ⟨n, l, hn, Line.mem_sessionIds.2 ⟨s, hs, eq_of_beq hid⟩⟩

/-- **The totals of a session** are counted from its own readings, and there are none without
one. -/
theorem get?_sessionTotals_eq (f : SourceFile) (id : Nat) : f.sessionTotals.get? id =
    if (f.readingsOf id).isEmpty then none else some (.ofLines (f.readingsOf id)) := by
  have hbyId : f.sessionTotals.byId = Table.insertAll ∅
      ((Table.group f.readings).map fun _ lines => Totals.ofLines lines).entries := by
    show ((Table.group f.readings).entries.foldl
      (fun (t : SessionTotals) e => t.insert e.1 (.ofLines e.2)) {}).byId = _
    rw [Table.insertAll, Table.map, List.foldl_map]
    show _ = (Table.group f.readings).entries.foldl _ ({} : SessionTotals).byId
    generalize ({} : SessionTotals) = start
    induction (Table.group f.readings).entries generalizing start with
    | nil => rfl
    | cons e rest ih =>
      rw [List.foldl_cons, List.foldl_cons, ih]
      rfl
  have hget : f.sessionTotals.get? id = ((Table.group f.readings).get? id).map Totals.ofLines := by
    rw [SessionTotals.get?, hbyId, Table.get?_insertAll (Table.ascending _), Table.get?_empty,
      Option.or_none]
    exact Table.get?_map _ _ id
  rw [hget, Table.get?_group]
  show (if (f.readingsOf id).isEmpty = true then none else some (f.readingsOf id)).map _ = _
  split <;> rfl

theorem get?_sessionTotals (f : SourceFile) (id : Nat) : f.sessionTotals.get? id =
    if id ∈ idsOfLines f.lines then some (.ofLines (f.readingsOf id)) else none := by
  rw [get?_sessionTotals_eq]
  by_cases hid : id ∈ idsOfLines f.lines
  · have hne : f.readingsOf id ≠ [] := fun hnil => readingsOf_eq_nil_iff.1 hnil hid
    rw [if_pos hid, if_neg fun hempty => hne (List.isEmpty_iff.1 hempty)]
  · rw [if_neg hid, readingsOf_eq_nil_iff.2 hid]
    rfl

theorem ids_sessionTotals (f : SourceFile) : f.sessionTotals.ids = idsOfLines f.lines := by
  refine eq_of_ascending (Table.keys_ascending _) (ascend_ascending _) fun id => ?_
  rw [SessionTotals.ids, Table.mem_keys_iff]
  show (∃ t, f.sessionTotals.get? id = some t) ↔ id ∈ ascend _
  rw [get?_sessionTotals]
  by_cases hid : id ∈ idsOfLines f.lines
  · rw [if_pos hid]
    exact ⟨fun _ => hid, fun _ => ⟨_, rfl⟩⟩
  · rw [if_neg hid]
    constructor
    · rintro ⟨t, ht⟩
      cases ht
    · exact fun hin => absurd hin hid

/-! ## 3. Totals of files with the same tallies -/

theorem totals_congr (h : g.lines.values.map Line.tally = f.lines.values.map Line.tally) :
    g.totals = f.totals := Totals.ofLines_congr h

theorem idsOfLines_congr (h : g.lines.values.map Line.tally = f.lines.values.map Line.tally) :
    idsOfLines g.lines = idsOfLines f.lines := by
  have hids (l : List Line) : l.flatMap Line.sessionIds =
      (l.map Line.tally).flatMap fun t => t.sessions.map SessionTally.id := by
    rw [List.flatMap_map]
    refine List.flatMap_congr fun l _ => ?_
    show l.sessions.map (·.id) = (l.sessions.map LineSession.tally).map SessionTally.id
    rw [List.map_map]
    rfl
  rw [idsOfLines, idsOfLines, hids, hids, h]

theorem sessionTotals_congr
    (h : g.lines.values.map Line.tally = f.lines.values.map Line.tally) :
    g.sessionTotals.byId = f.sessionTotals.byId := by
  have hreadings (f : SourceFile) : f.readings.map (fun e => (e.1, e.2.tally)) =
      (f.lines.values.map Line.tally).flatMap Tally.readings := by
    rw [readings, List.map_flatMap, List.flatMap_map]
    refine List.flatMap_congr fun l _ => ?_
    rw [Tally.readings, Line.tally, List.map_map, List.map_map]
    rfl
  have htallies (id : Nat) :
      (g.readingsOf id).map Line.tally = (f.readingsOf id).map Line.tally := by
    rw [readingsOf, readingsOf, ← Table.valuesAt_map, ← Table.valuesAt_map, hreadings, hreadings, h]
  apply Table.ext_get?
  intro id
  show g.sessionTotals.get? id = f.sessionTotals.get? id
  rw [get?_sessionTotals, get?_sessionTotals, idsOfLines_congr h,
    Totals.ofLines_congr (htallies id)]

/-! ## 4. A session under another id -/

/-- The new id has the readings of the old one. -/
theorem readingsOf_changeSessionId {old new : Nat} (hne : old ≠ new) (hexact : f.Exact)
    (hfree : new ∉ idsOfLines f.lines) (id : Nat) :
    (f.changeSessionId old new).readingsOf id =
      if id = new then f.readingsOf old else if id = old then [] else f.readingsOf id := by
  unfold changeSessionId
  by_cases hhas : f.sessionIds.contains old = true
  · have hreadings : (f.edit fun table => table.map fun _ l => l.withSessionId old new).readings =
        f.readings.map fun e => (if e.1 = old then new else e.1, e.2) := by
      rw [readings, readings, lines_edit, Table.values_map, List.flatMap_map, List.map_flatMap]
      refine List.flatMap_congr fun l _ => ?_
      show (l.sessions.map fun s => if s.id = old then { s with id := new } else s).map _ = _
      rw [List.map_map, List.map_map]
      refine List.map_congr_left fun s _ => ?_
      dsimp only [Function.comp_apply]
      split <;> rfl
    have hids : ∀ e ∈ f.readings, e.1 ≠ new := by
      intro e he
      obtain ⟨n, l, hn, s, hs, rfl⟩ := mem_readings.1 he
      rintro rfl
      exact hfree (mem_idsOfLines.2 ⟨n, l, hn, Line.mem_sessionIds.2 ⟨s, hs, rfl⟩⟩)
    rw [if_pos hhas, readingsOf, hreadings, Table.valuesAt_rename hne hids]
    rfl
  · have hold : old ∉ idsOfLines f.lines := by
      rw [← hexact]
      exact fun hin => hhas (List.contains_iff_mem.2 hin)
    have hsame : f.afterSessionIds.readingsOf id = f.readingsOf id := by
      rw [readingsOf, readings, lines_afterSessionIds]
      rfl
    rw [if_neg hhas, hsame]
    split
    · rename_i hid
      rw [hid, readingsOf_eq_nil_iff.2 hfree, readingsOf_eq_nil_iff.2 hold]
    · split
      · rename_i hid
        rw [hid, readingsOf_eq_nil_iff.2 hold]
      · rfl

/-- The new id has the totals of the old one. -/
theorem get?_sessionTotals_changeSessionId {old new : Nat} (hne : old ≠ new) (hexact : f.Exact)
    (hfree : new ∉ idsOfLines f.lines) (id : Nat) :
    (f.changeSessionId old new).sessionTotals.get? id =
      if id = new then f.sessionTotals.get? old
      else if id = old then none else f.sessionTotals.get? id := by
  rw [get?_sessionTotals_eq, readingsOf_changeSessionId hne hexact hfree, get?_sessionTotals_eq,
    get?_sessionTotals_eq]
  split
  · rfl
  · split <;> rfl

/-- Moving the totals of a session to its new id counts as counting anew. -/
theorem sessionTotals_changeSessionId {old new : Nat} (hne : old ≠ new) (hexact : f.Exact)
    (hfree : new ∉ idsOfLines f.lines) :
    (f.changeSessionId old new).sessionTotals.byId = (f.sessionTotals.changeId old new).byId := by
  have hnew : f.sessionTotals.get? new = none := by rw [get?_sessionTotals, if_neg hfree]
  apply Table.ext_get?
  intro id
  show (f.changeSessionId old new).sessionTotals.get? id =
    (f.sessionTotals.changeId old new).get? id
  rw [SessionTotals.get?_changeId hnew, get?_sessionTotals_changeSessionId hne hexact hfree]

end SourceFile

/-! ## 5. Lines that are read -/

namespace Chunk

/-- A row that is written for a line is read as a line that counts the same. -/
def KeepsTally (l : Line) : Prop := (lineOfRow l.text.toList).map Line.tally = some l.tally

instance (l : Line) : Decidable (KeepsTally l) := inferInstanceAs (Decidable (_ = _))

theorem tally_lines_encode {table : Table Nat Line} (ids : List Nat)
    (hnumbers : ∀ n l, table.get? n = some l → n ≠ 0)
    (hrows : ∀ n l, table.get? n = some l → KeepsTally l) :
    (lines (encode ids table)).values.map Line.tally = table.values.map Line.tally := by
  rw [lines_encode_eq_filterMap hnumbers, Table.values_filterMap, List.map_filterMap, Table.values,
    List.map_map, ← List.filterMap_eq_map]
  refine List.filterMap_congr fun e he => ?_
  exact hrows e.1 e.2 ((Table.get?_eq_some_iff _).2 he)

theorem id_lt_of_lines {chunk : String} {n : Nat} {l : Line}
    (h : (lines chunk).get? n = some l) : ∀ s ∈ l.sessions, s.id < Text.word32 := by
  have hnumbered (m : Nat) (rows : List (Option Line)) (e : Nat × Line)
      (he : e ∈ numbered m rows) : some e.2 ∈ rows := by
    induction rows generalizing m with
    | nil => cases he
    | cons row rest ih =>
      cases row with
      | none => exact List.mem_cons_of_mem _ (ih (m + 1) he)
      | some own =>
        rcases List.mem_cons.1 he with rfl | he
        · exact List.mem_cons_self
        · exact List.mem_cons_of_mem _ (ih (m + 1) he)
  have hrow := hnumbered 1 _ (n, l) ((Table.get?_eq_some_iff _).1 h)
  obtain ⟨row, -, hread⟩ := List.mem_map.1 hrow
  unfold lineOfRow at hread
  dsimp only at hread
  split at hread
  · cases hread
  · obtain ⟨j, -, hj⟩ := Option.bind_eq_some_iff.1 hread
    exact Line.id_lt_of_ofJson? hj

end Chunk

end CoverageLedger
