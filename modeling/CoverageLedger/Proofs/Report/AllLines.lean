import CoverageLedger.Proofs.Report.Each

/-!
# What holds of every line

A property that holds of each line of each file, where the files know their sessions (`AllLines`).
Adding a file joins lines, a deletion takes sessions out of them, and a session that is renumbered
changes its id on them; a file in which a session does not occur is passed over, which is why the
files have to know.
-/

namespace CoverageLedger

/-! ## 1. Files -/

namespace SourceFile

/-- The file knows its sessions, and its lines have a property. -/
structure AllLines (Q : Line → Prop) (f : SourceFile) : Prop where
  faithful : f.Faithful
  line : ∀ n l, f.lines.get? n = some l → Q l

variable {Q Q' : Line → Prop} {f g : SourceFile} {ids : List Nat} {old new : Nat}

namespace AllLines

theorem mono (h : f.AllLines Q) (hmono : ∀ l, Q l → Q' l) : f.AllLines Q' :=
  ⟨h.faithful, fun n l hl => hmono l (h.line n l hl)⟩

theorem opened (h : f.AllLines Q) : f.opened.AllLines Q := ⟨h.faithful.opened, h.line⟩

theorem withName (h : f.AllLines Q) (name : String) : AllLines Q { f with name } :=
  ⟨h.faithful.withName name, h.line⟩

theorem mergeLines (h : f.AllLines Q) (hg : g.AllLines Q)
    (hmerge : ∀ l l', Q l → Q l' → Q (l.merge l' true)) :
    (f.mergeLines g.lines true).AllLines Q := by
  refine ⟨h.faithful.mergeLines _ _, fun n l hl => ?_⟩
  rw [get?_mergeLines] at hl
  split at hl
  · rename_i own hown
    split at hl
    · exact h.line n l hl
    · obtain rfl := Option.some.inj hl
      cases hf : f.lines.get? n with
      | none => exact hg.line n own hown
      | some l => exact hmerge l own (h.line n l hf) (hg.line n own hown)
  · exact h.line n l hl

theorem withoutSessions (h : f.AllLines Q)
    (hkept : ∀ l l', Q l → l.withoutSessions ids = some l' → Q' l')
    (hpassed : ∀ l, Q l → (∀ s ∈ l.sessions, s.id ∉ ids) → Q' l) :
    (f.withoutSessions ids).AllLines Q' := by
  refine ⟨h.faithful.withoutSessions ids, fun n l hl => ?_⟩
  have hout := not_mem_of_withoutSessions h.faithful.exact hl
  rw [get?_withoutSessions] at hl
  split at hl
  · obtain ⟨own, hown, hleft⟩ := Option.bind_eq_some_iff.1 hl
    exact hkept own l (h.line n own hown) hleft
  · exact hpassed l (h.line n l hl) hout

theorem changeSessionId (h : f.AllLines Q) (hrenamed : ∀ l, Q l → Q' (l.withSessionId old new))
    (hpassed : ∀ l, Q l → (∀ s ∈ l.sessions, s.id ≠ old) → Q' l) :
    (f.changeSessionId old new).AllLines Q' := by
  refine ⟨h.faithful.changeSessionId old new, fun n l hl => ?_⟩
  unfold SourceFile.changeSessionId at hl
  split at hl
  · rw [lines_edit, Table.get?_map] at hl
    obtain ⟨own, hown, rfl⟩ := Option.map_eq_some_iff.1 hl
    exact hrenamed own (h.line n own hown)
  · rename_i hhas
    rw [lines_afterSessionIds] at hl
    refine hpassed l (h.line n l hl) fun s hs heq => hhas ?_
    have hin := mem_idsOfLines.2 ⟨n, l, hl, Line.mem_sessionIds.2 ⟨s, hs, heq⟩⟩
    rw [← h.faithful.exact] at hin
    exact List.contains_iff_mem.2 hin

/-- Lines may get other numbers, or go. -/
theorem shift (h : f.AllLines Q) (hunks : List Hunk) (direction : Direction) :
    (f.shift hunks direction).2.AllLines Q := by
  refine ⟨h.faithful.shift hunks direction, fun n l hl => ?_⟩
  unfold SourceFile.shift at hl
  split at hl
  · have hmem := Table.mem_of_mem_ofList ((Table.get?_eq_some_iff _).1 hl)
    obtain ⟨⟨k, own⟩, hown, heq⟩ := List.mem_filterMap.1 hmem
    obtain ⟨m, -, heq⟩ := Option.map_eq_some_iff.1 heq
    obtain ⟨rfl, rfl⟩ := Prod.mk.inj heq
    exact h.line k own ((Table.get?_eq_some_iff _).2 hown)
  · exact h.line n l hl

end AllLines

end SourceFile

/-! ## 2. Reports -/

namespace Report

/-- The files know their sessions, and all lines have a property. -/
abbrev AllLines (Q : Line → Prop) : Report → Prop := Each fun _ w => w.file.AllLines Q

variable {Q Q' : Line → Prop} {r r' : Report} {ids : List Nat} {old new : Nat}

namespace AllLines

theorem rename (h : r.AllLines Q) (old new : String) : (r.rename old new).2.AllLines Q :=
  Each.rename h old new fun _ hw => hw.withName new

theorem resolvePaths (h : r.AllLines Q) (fixes : List (String × Option String)) :
    (r.resolvePaths fixes).AllLines Q :=
  Each.resolvePaths h fixes fun _ new _ hw => hw.withName new

theorem deleteSessions (h : r.AllLines Q)
    (hkept : ∀ l l', Q l → l.withoutSessions ids = some l' → Q' l')
    (hpassed : ∀ l, Q l → (∀ s ∈ l.sessions, s.id ∉ ids) → Q' l) :
    (r.deleteSessions ids).AllLines Q' := by
  refine Each.deleteSessions h (fun hids _ _ hw => hw.mono fun l hl => hpassed l hl fun s _ => ?_)
    fun _ _ _ hw hleft =>
      Row.file_withoutSessions (hw.withoutSessions hkept hpassed) (fun _ hf => hf.opened) hleft
  rw [hids]
  exact List.not_mem_nil

theorem foldl_changeSessionIn (h : r.AllLines Q) (old new : Nat) (s : Session)
    (hrenamed : ∀ l, Q l → Q' (l.withSessionId old new))
    (hpassed : ∀ l, Q l → (∀ s ∈ l.sessions, s.id ≠ old) → Q' l) :
    (r.names.foldl (changeSessionIn old new) (r.renumbered old new s)).AllLines Q' ∧
      (r.names.foldl (changeSessionIn old new) (r.renumbered old new s)).sessions =
        (r.sessions.erase old).insert new s :=
  Each.foldl_changeSessionIn h s fun _ _ hw => hw.changeSessionId hrenamed hpassed

theorem shift (h : r.AllLines Q) (d : Diff) (direction : Direction) :
    (r.shift d direction).AllLines Q := by
  refine Each.shift h d direction fun q w f _ hw _ => ?_
  unfold Row.shift
  split
  · exact hw
  · split
    · exact (hw.shift f.hunks direction).opened
    · exact hw

/-- Carrying forward takes out the sessions that have none of the flags. -/
theorem carry [PatternLanguage] {flags paths : List String} {extras : Option (Table String Json)}
    (h : r.AllLines Q) (hok : Carry.report r flags paths extras = .ok r')
    (hkept : ∀ l l', Q l →
      l.withoutSessions (r.sessions.filter fun _ s => !s.hasAnyFlag flags).keys = some l' → Q' l')
    (hpassed : ∀ l, Q l → (∀ s ∈ l.sessions,
      s.id ∉ (r.sessions.filter fun _ s => !s.hasAnyFlag flags).keys) → Q' l) :
    r'.AllLines Q' := by
  obtain ⟨left, hleft, rfl⟩ := carry_cases hok
  have hstart : left.AllLines Q ∧ left.sessions = r.sessions := by
    rcases hleft with ⟨rfl, -⟩ | ⟨filter, -, rfl⟩
    · exact ⟨h, rfl⟩
    · exact ⟨h.foldl_remove _, sessions_chosenFiles filter r⟩
  obtain ⟨hlines, hsessions⟩ := hstart
  rw [← hsessions] at hkept hpassed
  exact (deleteSessions hlines hkept hpassed).of_eq rfl rfl

end AllLines

end Report

end CoverageLedger
