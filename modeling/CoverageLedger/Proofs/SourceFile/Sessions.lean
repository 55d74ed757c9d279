import CoverageLedger.SourceFile

/-!
# Session ids of files and their deletion

What a file says about its sessions (`sessionIds`) does not change by being asked, and taking
sessions out of it leaves the ids of the others.  `SourceFile.withoutSessions` is the state in which
a deletion leaves one file: `withoutSessions_withoutSessions` says that a second pass over the same
file finds nothing to do, so it does not matter under how many names a file is reached.
-/

namespace CoverageLedger

/-! ## 1. One line -/

namespace Line

variable {ids : List Nat} {l l' : Line}

/-- The datapoints of a line without those of some sessions. -/
def datapointsWithout (ids : List Nat) (l : Line) : Option (List Datapoint) :=
  l.datapoints.map fun ds => ds.filter fun d => !ids.contains d.session

theorem withoutSessions_of_sessions_nil (h : l.sessions = []) :
    l.withoutSessions ids = some { l with datapoints := l.datapointsWithout ids } := by
  rw [withoutSessions]
  simp only [h, List.isEmpty_nil, if_true, datapointsWithout]

theorem withoutSessions_of_sessions_ne (h : l.sessions ≠ []) :
    l.withoutSessions ids =
      if (l.sessions.filter fun s => !ids.contains s.id).isEmpty then none
      else some { l with
        datapoints := l.datapointsWithout ids
        sessions := l.sessions.filter fun s => !ids.contains s.id
        reading := LineSession.readingOf (l.sessions.filter fun s => !ids.contains s.id)
        complexity := LineSession.complexityOf (l.sessions.filter fun s => !ids.contains s.id) } := by
  have hne : l.sessions.isEmpty = false := by
    rw [List.isEmpty_eq_false_iff]
    exact h
  rw [withoutSessions]
  simp only [hne, Bool.false_eq_true, if_false, datapointsWithout]

/-- A line goes exactly when it had sessions and loses them all. -/
theorem withoutSessions_eq_none :
    l.withoutSessions ids = none ↔ l.sessions ≠ [] ∧ ∀ s ∈ l.sessions, s.id ∈ ids := by
  by_cases h : l.sessions = []
  · rw [withoutSessions_of_sessions_nil h]
    simp [h]
  · rw [withoutSessions_of_sessions_ne h]
    simp [h]

theorem sessions_withoutSessions (h : l.withoutSessions ids = some l') :
    l'.sessions = l.sessions.filter fun s => !ids.contains s.id := by
  by_cases hs : l.sessions = []
  · rw [withoutSessions_of_sessions_nil hs] at h
    obtain rfl := Option.some.inj h
    simp [hs]
  · rw [withoutSessions_of_sessions_ne hs] at h
    split at h
    · cases h
    · obtain rfl := Option.some.inj h
      rfl

theorem datapoints_withoutSessions (h : l.withoutSessions ids = some l') :
    l'.datapoints = l.datapointsWithout ids := by
  by_cases hs : l.sessions = []
  · rw [withoutSessions_of_sessions_nil hs] at h
    obtain rfl := Option.some.inj h
    rfl
  · rw [withoutSessions_of_sessions_ne hs] at h
    split at h
    · cases h
    · obtain rfl := Option.some.inj h
      rfl

theorem mem_sessionIds {id : Nat} : id ∈ l.sessionIds ↔ ∃ s ∈ l.sessions, s.id = id := by
  rw [sessionIds, List.mem_map]

theorem mem_sessionIds_withoutSessions (h : l.withoutSessions ids = some l') {id : Nat} :
    id ∈ l'.sessionIds ↔ id ∈ l.sessionIds ∧ id ∉ ids := by
  simp only [mem_sessionIds, sessions_withoutSessions h, List.mem_filter, Bool.not_eq_true',
    List.contains_eq_mem, decide_eq_false_iff_not]
  constructor
  · rintro ⟨s, ⟨hs, hout⟩, rfl⟩
    exact ⟨⟨s, hs, rfl⟩, hout⟩
  · rintro ⟨⟨s, hs, rfl⟩, hout⟩
    exact ⟨s, ⟨hs, hout⟩, rfl⟩

/-- A datapoint of some session stands on a line. -/
def HasDatapointOf (ids : List Nat) (l : Line) : Prop :=
  ∃ ds, l.datapoints = some ds ∧ ∃ d ∈ ds, d.session ∈ ids

theorem not_hasDatapointOf_withoutSessions (h : l.withoutSessions ids = some l') :
    ¬ l'.HasDatapointOf ids := by
  rintro ⟨ds, hds, d, hd, hin⟩
  rw [datapoints_withoutSessions h, datapointsWithout] at hds
  obtain ⟨ds', -, rfl⟩ := Option.map_eq_some_iff.1 hds
  have hout := (List.mem_filter.1 hd).2
  simp [hin] at hout

/-- The session of each datapoint is on the line. -/
def Backed (l : Line) : Prop := ∀ ds, l.datapoints = some ds → ∀ d ∈ ds, d.session ∈ l.sessionIds

end Line

/-! ## 2. One file -/

namespace SourceFile

variable {ids : List Nat} {f : SourceFile}

@[simp] theorem lines_opened : f.opened.lines = f.lines := rfl

@[simp] theorem name_opened : f.opened.name = f.name := rfl

@[simp] theorem lines_edit (change : Table Nat Line → Table Nat Line) :
    (f.edit change).lines = change f.lines := rfl

theorem mem_idsOfLines {table : Table Nat Line} {id : Nat} :
    id ∈ idsOfLines table ↔ ∃ n l, table.get? n = some l ∧ id ∈ l.sessionIds := by
  rw [idsOfLines, mem_ascend, List.mem_flatMap]
  constructor
  · rintro ⟨l, hl, hid⟩
    obtain ⟨n, hn⟩ := table.mem_values_iff.1 hl
    exact ⟨n, l, hn, hid⟩
  · rintro ⟨n, l, hn, hid⟩
    exact ⟨l, table.mem_values_iff.2 ⟨n, hn⟩, hid⟩

/-- Once the lines have been changed, the ids are those of the lines. -/
theorem sessionIds_edit (change : Table Nat Line → Table Nat Line) :
    (f.edit change).sessionIds = idsOfLines (change f.lines) := rfl

@[simp] theorem lines_afterSessionIds : f.afterSessionIds.lines = f.lines := by
  rw [afterSessionIds]
  split
  · split <;> rfl
  · rfl

@[simp] theorem name_afterSessionIds : f.afterSessionIds.name = f.name := by
  rw [afterSessionIds]
  split
  · split <;> rfl
  · rfl

@[simp] theorem sessionIds_afterSessionIds : f.afterSessionIds.sessionIds = f.sessionIds := by
  rw [afterSessionIds]
  split
  · rename_i chunk hd hc
    cases hh : Chunk.headerIds? chunk with
    | none => simp [opened, sessionIds, hd, hc, hh]
    | some ids => simp [sessionIds, hd, hc, hh]
  · rfl

/-- Asking for the ids a second time changes nothing more. -/
theorem afterSessionIds_afterSessionIds :
    f.afterSessionIds.afterSessionIds = f.afterSessionIds := by
  obtain ⟨name, content, declared, ignore⟩ := f
  cases declared with
  | some ids => rfl
  | none =>
    cases content with
    | lines table => rfl
    | text chunk => cases hh : Chunk.headerIds? chunk <;> simp [afterSessionIds, hh, opened]

theorem afterSessionIds_edit (change : Table Nat Line → Table Nat Line) :
    (f.edit change).afterSessionIds = f.edit change := rfl

theorem hasAnySession_iff : f.hasAnySession ids = true ↔ ∃ id ∈ f.sessionIds, id ∈ ids := by
  simp only [hasAnySession, List.any_eq_true, List.contains_eq_mem, decide_eq_true_eq]

@[simp] theorem hasAnySession_afterSessionIds :
    f.afterSessionIds.hasAnySession ids = f.hasAnySession ids := by
  rw [hasAnySession, hasAnySession, sessionIds_afterSessionIds]

theorem get?_deleteSessions (n : Nat) :
    (f.deleteSessions ids).lines.get? n = (f.lines.get? n).bind (Line.withoutSessions ids) :=
  Table.get?_filterMap _ _ n

theorem mem_sessionIds_deleteSessions {id : Nat} :
    id ∈ (f.deleteSessions ids).sessionIds ↔ id ∈ idsOfLines f.lines ∧ id ∉ ids := by
  rw [deleteSessions, sessionIds_edit, mem_idsOfLines, mem_idsOfLines]
  simp only [Table.get?_filterMap, Option.bind_eq_some_iff]
  constructor
  · rintro ⟨n, l', ⟨l, hl, hw⟩, hid⟩
    obtain ⟨hin, hout⟩ := (Line.mem_sessionIds_withoutSessions hw).1 hid
    exact ⟨⟨n, l, hl, hin⟩, hout⟩
  · rintro ⟨⟨n, l, hl, hin⟩, hout⟩
    cases hw : l.withoutSessions ids with
    | none =>
      obtain ⟨s, hs, rfl⟩ := Line.mem_sessionIds.1 hin
      exact absurd ((Line.withoutSessions_eq_none.1 hw).2 s hs) hout
    | some l' =>
      exact ⟨n, l', ⟨l, hl, hw⟩, (Line.mem_sessionIds_withoutSessions hw).2 ⟨hin, hout⟩⟩

/-- A file as the deletion of some sessions leaves it: without them when it has any of them by its
own account, and otherwise only with that account taken. -/
def withoutSessions (ids : List Nat) (f : SourceFile) : SourceFile :=
  if f.hasAnySession ids then f.afterSessionIds.deleteSessions ids else f.afterSessionIds

theorem withoutSessions_of_has (h : f.hasAnySession ids = true) :
    f.withoutSessions ids = f.afterSessionIds.deleteSessions ids := by
  rw [withoutSessions, if_pos h]

theorem withoutSessions_of_not_has (h : f.hasAnySession ids = false) :
    f.withoutSessions ids = f.afterSessionIds := by
  rw [withoutSessions, if_neg (by simp [h])]

theorem hasAnySession_withoutSessions : (f.withoutSessions ids).hasAnySession ids = false := by
  cases h : f.hasAnySession ids with
  | false => rw [withoutSessions_of_not_has h, hasAnySession_afterSessionIds, h]
  | true =>
    rw [withoutSessions_of_has h, Bool.eq_false_iff]
    intro hany
    obtain ⟨id, hid, hin⟩ := hasAnySession_iff.1 hany
    exact (mem_sessionIds_deleteSessions.1 hid).2 hin

theorem withoutSessions_withoutSessions :
    (f.withoutSessions ids).withoutSessions ids = f.withoutSessions ids := by
  rw [withoutSessions_of_not_has hasAnySession_withoutSessions]
  cases h : f.hasAnySession ids with
  | false => rw [withoutSessions_of_not_has h, afterSessionIds_afterSessionIds]
  | true => rw [withoutSessions_of_has h, deleteSessions, afterSessionIds_edit]

theorem get?_withoutSessions (n : Nat) : (f.withoutSessions ids).lines.get? n =
    if f.hasAnySession ids then (f.lines.get? n).bind (Line.withoutSessions ids)
    else f.lines.get? n := by
  cases h : f.hasAnySession ids with
  | false => rw [withoutSessions_of_not_has h, lines_afterSessionIds, if_neg Bool.false_ne_true]
  | true => rw [withoutSessions_of_has h, get?_deleteSessions, lines_afterSessionIds, if_pos rfl]

/-- A file whose account of its sessions is right. -/
def Exact (f : SourceFile) : Prop := f.sessionIds = idsOfLines f.lines

theorem mem_sessionIds_withoutSessions (h : f.Exact) {id : Nat} :
    id ∈ (f.withoutSessions ids).sessionIds ↔ id ∈ f.sessionIds ∧ id ∉ ids := by
  cases hany : f.hasAnySession ids with
  | true =>
    rw [withoutSessions_of_has hany, mem_sessionIds_deleteSessions, lines_afterSessionIds, ← h]
  | false =>
    rw [withoutSessions_of_not_has hany, sessionIds_afterSessionIds]
    constructor
    · intro hid
      refine ⟨hid, fun hin => ?_⟩
      rw [hasAnySession_iff.2 ⟨id, hid, hin⟩] at hany
      cases hany
    · exact And.left

/-- The ids that stay are those before without the deleted ones, in order. -/
theorem sessionIds_withoutSessions (h : f.Exact) :
    (f.withoutSessions ids).sessionIds = f.sessionIds.filter fun id => !ids.contains id := by
  have hbefore : f.sessionIds.Pairwise Precedes := by
    rw [h]
    exact ascend_ascending _
  have hafter : (f.withoutSessions ids).sessionIds.Pairwise Precedes := by
    cases hany : f.hasAnySession ids with
    | true =>
      rw [withoutSessions_of_has hany]
      exact ascend_ascending _
    | false =>
      rw [withoutSessions_of_not_has hany, sessionIds_afterSessionIds]
      exact hbefore
  refine eq_of_ascending hafter (hbefore.filter _) fun id => ?_
  rw [mem_sessionIds_withoutSessions h, List.mem_filter]
  simp

/-- No line of the file keeps a session that was deleted. -/
theorem not_mem_of_withoutSessions (h : f.Exact) {n : Nat} {l : Line}
    (hl : (f.withoutSessions ids).lines.get? n = some l) : ∀ s ∈ l.sessions, s.id ∉ ids := by
  intro s hs hin
  have hid : s.id ∈ l.sessionIds := Line.mem_sessionIds.2 ⟨s, hs, rfl⟩
  rw [get?_withoutSessions] at hl
  split at hl
  · obtain ⟨l₀, -, hw⟩ := Option.bind_eq_some_iff.1 hl
    exact ((Line.mem_sessionIds_withoutSessions hw).1 hid).2 hin
  · rename_i hany
    refine hany (hasAnySession_iff.2 ⟨s.id, ?_, hin⟩)
    rw [h]
    exact mem_idsOfLines.2 ⟨n, l, hl, hid⟩

end SourceFile

end CoverageLedger
