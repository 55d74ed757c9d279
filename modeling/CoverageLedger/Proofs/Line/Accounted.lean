import CoverageLedger.Proofs.SourceFile.Sessions
import CoverageLedger.Proofs.Upload.Told

/-!
# Lines that their sessions account for

A line is `Accounted` when its reading and its complexity are those that its sessions give, when
these are sessions that are known, each once, and when each of them says what a tracefile can say of
a line.  Joining two such lines makes one, and so does taking sessions out or renumbering one.
-/

namespace CoverageLedger

/-- The new id for the old one, and every other id for itself. -/
def renamedId (old new id : Nat) : Nat := if id = old then new else id

/-- Ids stay apart when one of them becomes an id that no other is. -/
theorem nodup_map_renamedId {old new : Nat} {ids : List Nat} (h : ids.Nodup)
    (hfree : old ≠ new → new ∉ ids) : (ids.map (renamedId old new)).Nodup := by
  refine h.map_on fun a ha b hb heq => ?_
  have hkept {id : Nat} (hid : id ∈ ids) (hother : id ≠ old) : id ≠ new :=
    fun hnew => hfree (fun hsame => hother (hnew.trans hsame.symm)) (hnew ▸ hid)
  unfold renamedId at heq
  -- only the old id becomes the new one
  split at heq
  · split at heq
    · rename_i ha' hb'
      rw [ha', hb']
    · rename_i hother
      exact absurd heq.symm (hkept hb hother)
  · split at heq
    · rename_i hother _
      exact absurd heq (hkept ha hother)
    · exact heq

namespace LineSession

variable {s : LineSession} {sessions : List LineSession}

/-- An id says nothing about the line. -/
theorem Told.withId (h : s.Told) (id : Nat) : (s.withId id).Told := by
  cases h with
  | count n hmissing hreading => exact .count n hmissing hreading
  | arms arms total hmissing hbelow hreading => exact .arms arms total hmissing hbelow hreading

/-- The session of an id under another one. -/
def renumber (old new : Nat) (s : LineSession) : LineSession :=
  if s.id = old then s.withId new else s

theorem id_renumber (old new : Nat) :
    (s.renumber old new).id = if s.id = old then new else s.id := by
  unfold renumber
  split <;> rfl

/-- What a session read, under another id. -/
def renamed (σ : Nat → Nat) (s : LineSession) : LineSession := s.withId (σ s.id)

theorem renumber_eq_renamed (old new : Nat) :
    renumber old new = renamed (renamedId old new) := by
  funext s
  unfold renumber renamed renamedId
  split <;> rfl

theorem readingOf_renamed (σ : Nat → Nat) :
    readingOf (sessions.map (renamed σ)) = readingOf sessions := by
  rw [← readingOf_anonymous, List.map_map]
  exact readingOf_anonymous

theorem complexityOf_renamed (σ : Nat → Nat) :
    complexityOf (sessions.map (renamed σ)) = complexityOf sessions := by
  unfold complexityOf
  rw [List.foldl_map]
  rfl

theorem readingOf_renumber (old new : Nat) :
    readingOf (sessions.map (renumber old new)) = readingOf sessions := by
  rw [renumber_eq_renamed, readingOf_renamed]

theorem complexityOf_renumber (old new : Nat) :
    complexityOf (sessions.map (renumber old new)) = complexityOf sessions := by
  rw [renumber_eq_renamed, complexityOf_renamed]

end LineSession

namespace Line

variable {knows : Nat → Prop} {l l' : Line} {id : Nat}

/-- The sessions of a line are known and say what its reading says. -/
structure Accounted (knows : Nat → Prop) (l : Line) : Prop where
  sessions : l.sessions ≠ []
  apart : l.sessionIds.Nodup
  known : ∀ s ∈ l.sessions, knows s.id
  told : ∀ s ∈ l.sessions, s.Told
  reading : l.reading = LineSession.readingOf l.sessions
  complexity : l.complexity = LineSession.complexityOf l.sessions

theorem sessions_withSessionId (old new : Nat) (l : Line) :
    (l.withSessionId old new).sessions = l.sessions.map (LineSession.renumber old new) := rfl

theorem sessionIds_withSessionId (old new : Nat) (l : Line) :
    (l.withSessionId old new).sessionIds = l.sessionIds.map (renamedId old new) := by
  rw [sessionIds, sessions_withSessionId, List.map_map, LineSession.renumber_eq_renamed, sessionIds,
    List.map_map]
  rfl

/-- The sessions are known when only one id of theirs changes, to a new one. -/
theorem known_withSessionId {old new : Nat} (h : ∀ s ∈ l.sessions, knows s.id) :
    ∀ s ∈ (l.withSessionId old new).sessions, s.id = new ∨ knows s.id ∧ s.id ≠ old := by
  intro t ht
  rw [sessions_withSessionId] at ht
  obtain ⟨s, hs, rfl⟩ := List.mem_map.1 ht
  rw [LineSession.id_renumber]
  split
  · exact .inl rfl
  · rename_i hne
    exact .inr ⟨h s hs, hne⟩

namespace Accounted

theorem mono {knows' : Nat → Prop} (h : l.Accounted knows) (hknows : ∀ id, knows id → knows' id) :
    l.Accounted knows' :=
  { h with known := fun s hs => hknows s.id (h.known s hs) }

theorem and {p : Nat → Prop} (h : l.Accounted knows) (hp : ∀ s ∈ l.sessions, p s.id) :
    l.Accounted fun id => knows id ∧ p id :=
  { h with known := fun s hs => ⟨h.known s hs, hp s hs⟩ }

theorem of_madeBy {s : LineSession} (h : l.MadeBy id s) (hs : s.Told) (hid : knows id)
    (hcomplexity : l.complexity = LineSession.complexityOf l.sessions) : l.Accounted knows where
  sessions := by
    rw [h.sessions]
    exact List.cons_ne_nil _ _
  apart := by
    rw [sessionIds, h.sessions]
    exact List.nodup_singleton _
  known := by
    intro t ht
    rw [h.sessions] at ht
    rw [List.mem_singleton.1 ht]
    exact hid
  told := by
    intro t ht
    rw [h.sessions] at ht
    rw [List.mem_singleton.1 ht]
    exact hs.withId id
  reading := by
    rw [h.sessions, h.reading]
    rfl
  complexity := hcomplexity

theorem merge (h : l.Accounted knows) (h' : l'.Accounted knows) :
    (l.merge l' true).Accounted knows := by
  have hne : LineSession.mergeLists l.sessions l'.sessions ≠ [] :=
    LineSession.mergeLists_ne_nil h.sessions _
  have hsome : (LineSession.mergeLists l.sessions l'.sessions).isEmpty = false := by
    rwa [List.isEmpty_eq_false_iff]
  refine ⟨hne, LineSession.nodup_ids_mergeLists h.apart _, ?_, ?_, ?_, ?_⟩
  · exact LineSession.forall_mem_mergeLists (P := fun s => knows s.id) (fun _ _ ha _ => ha)
      h.known h'.known
  · exact LineSession.forall_mem_mergeLists (fun _ _ ha hb => ha.merge hb) h.told h'.told
  · simp only [Line.merge, hsome, Bool.not_true, Bool.false_eq_true, if_false]
  · simp only [Line.merge, hsome, Bool.not_true, Bool.false_eq_true, if_false]

theorem withoutSessions {ids : List Nat} (h : l.Accounted knows)
    (hl : l.withoutSessions ids = some l') :
    l'.Accounted fun id => knows id ∧ id ∉ ids := by
  rw [withoutSessions_of_sessions_ne h.sessions] at hl
  split at hl
  · cases hl
  · rename_i hleft
    obtain rfl := Option.some.inj hl
    refine ⟨fun hnil => hleft (List.isEmpty_iff.2 hnil), ?_, fun s hs => ?_, fun s hs => ?_, rfl, rfl⟩
    · exact (List.filter_sublist.map _).nodup h.apart
    · obtain ⟨hin, hout⟩ := List.mem_filter.1 hs
      exact ⟨h.known s hin, by simpa using hout⟩
    · exact h.told s (List.mem_filter.1 hs).1

/-- A session that gets an id which no session has stays apart from the others. -/
theorem withSessionId {old new : Nat} (h : l.Accounted knows) (hfree : ¬ knows new) :
    (l.withSessionId old new).Accounted fun id => id = new ∨ knows id ∧ id ≠ old where
  sessions := by
    rw [sessions_withSessionId]
    exact fun hnil => h.sessions (List.map_eq_nil_iff.1 hnil)
  apart := by
    rw [sessionIds_withSessionId]
    refine nodup_map_renamedId h.apart fun _ hid => ?_
    obtain ⟨s, hs, rfl⟩ := mem_sessionIds.1 hid
    exact hfree (h.known s hs)
  known := known_withSessionId h.known
  told := by
    intro t ht
    rw [sessions_withSessionId] at ht
    obtain ⟨s, hs, rfl⟩ := List.mem_map.1 ht
    unfold LineSession.renumber
    split
    · exact (h.told s hs).withId new
    · exact h.told s hs
  reading := by
    rw [sessions_withSessionId, LineSession.readingOf_renumber]
    exact h.reading
  complexity := by
    rw [sessions_withSessionId, LineSession.complexityOf_renumber]
    exact h.complexity

end Accounted

end Line

end CoverageLedger
