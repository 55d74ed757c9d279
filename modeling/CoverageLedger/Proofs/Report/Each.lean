import CoverageLedger.Carry
import CoverageLedger.Proofs.Report.Rows

/-!
# What holds of every row

Every operation on a report changes rows one by one.  So a property that holds of each row of a
consistent report (`Each`) holds of each one afterwards, as soon as what the operation does to a row
keeps it.  The property may change with the operation, because what is said of a row may depend on
the sessions of the report.
-/

namespace CoverageLedger

namespace Report

variable {r r' : Report} {name old new : String} {f : SourceFile}
  {P P' : String → Row → Prop}

/-! ## 1. Operations on names -/

/-- The report is consistent, and what it has under each name has a property. -/
structure Each (P : String → Row → Prop) (r : Report) : Prop where
  consistent : r.Consistent
  row : ∀ q w, r.row? q = some w → P q w

namespace Each

theorem empty : Each P {} where
  consistent := .empty
  row := by
    intro q w hw
    cases hw

theorem mono (h : Each P r) (hmono : ∀ q w, P q w → P' q w) : Each P' r :=
  ⟨h.consistent, fun q w hw => hmono q w (h.row q w hw)⟩

/-- Every file of a report has a row. -/
theorem of_file? (h : Each P r) (hf : r.file? name = some f) : ∃ w, P name w ∧ w.file = f := by
  obtain ⟨w, hw, hfile⟩ := exists_row? hf
  exact ⟨w, h.row name w hw, hfile⟩

theorem of_rows (h : Each P r) (hconsistent : r'.Consistent)
    (hrows : ∀ q, r'.row? q = r.row? q) : Each P r' := by
  refine ⟨hconsistent, fun q w hw => ?_⟩
  rw [hrows] at hw
  exact h.row q w hw

/-- Rows are made of the manifest and the slots only. -/
theorem of_eq (h : Each P r) (hfiles : r'.files = r.files) (hslots : r'.slots = r.slots) :
    Each P r' := by
  have hin (s : Nat) : r'.inSlot? s = r.inSlot? s := by rw [inSlot?, inSlot?, hslots]
  have hslot (q : String) : r'.slotOf? q = r.slotOf? q := by rw [slotOf?, slotOf?, hfiles]
  exact h.of_rows (h.consistent.congr hslot fun s => by rw [hin]) fun q =>
    row?_congr (file?_congr (hslot q) hin) (by rw [hfiles])

theorem changed (h : Each P r) : Each P r.changed := h.of_eq rfl rfl

theorem actsAt {change : Row → Option Row} (h : Each P r) (hacts : ActsAt name change r r')
    (hchange : ∀ w w', P name w → change w = some w' → P name w') : Each P r' := by
  refine ⟨hacts.consistent, fun q w' hw' => ?_⟩
  rw [hacts.row] at hw'
  by_cases hq : q = name
  · rw [if_pos hq] at hw'
    obtain ⟨w, hw, hnext⟩ := Option.bind_eq_some_iff.1 hw'
    rw [hq] at hw ⊢
    exact hchange w w' (h.row name w hw) hnext
  · rw [if_neg hq] at hw'
    exact h.row q w' hw'

theorem afterReading (h : Each P r) (name : String) {read : SourceFile → SourceFile}
    (hread : ∀ w, P name w → P name { w with file := read w.file }) :
    Each P (r.afterReading name read) := by
  refine h.actsAt (actsAt_afterReading h.consistent name read) fun w w' hw heq => ?_
  rw [← Option.some.inj heq]
  exact hread w hw

theorem remove (h : Each P r) (name : String) : Each P (r.remove name).2 := by
  refine ⟨h.consistent.remove name, fun q w hw => ?_⟩
  rw [row?_remove h.consistent] at hw
  split at hw
  · cases hw
  · exact h.row q w hw

theorem foldl_remove (h : Each P r) (names : List String) :
    Each P (names.foldl (fun r name => (r.remove name).2) r) := by
  induction names generalizing r with
  | nil => exact h
  | cons name rest ih => exact ih (h.remove name)

theorem append (h : Each P r) (f : SourceFile) (joined : Bool)
    (hnew : P f.name (.counted f.opened))
    (hjoin : ∀ w, P f.name w → P f.name (.counted (w.file.mergeLines f.lines joined).opened)) :
    Each P (r.append f joined).2 := by
  by_cases hempty : f.isEmpty = true
  · rw [append_of_isEmpty hempty]
    exact h
  · refine ⟨h.consistent.append f joined, fun q w hw => ?_⟩
    rw [row?_append h.consistent (Bool.eq_false_iff.2 hempty)] at hw
    split at hw
    · rename_i hq
      obtain rfl := Option.some.inj hw
      rw [hq]
      unfold placed
      split
      · rename_i own hown
        obtain ⟨w, hw, rfl⟩ := h.of_file? hown
        exact hjoin w hw
      · exact hnew
    · exact h.row q w hw

theorem merge (h : Each P r) (other : Report) (joined : Bool)
    (hnew : ∀ f ∈ other.sourceFiles, P f.name (.counted f.opened))
    (hjoin : ∀ f ∈ other.sourceFiles, ∀ w, P f.name w →
      P f.name (.counted (w.file.mergeLines f.lines joined).opened)) :
    Each P (r.merge other joined) := by
  unfold Report.merge
  generalize other.sourceFiles = files at hnew hjoin
  induction files generalizing r with
  | nil => exact h
  | cons f rest ih =>
    refine ih (h.append f joined (hnew f List.mem_cons_self) (hjoin f List.mem_cons_self))
      (fun g hg => hnew g (List.mem_cons_of_mem f hg)) fun g hg => ?_
    exact hjoin g (List.mem_cons_of_mem f hg)

/-- Another name is given to a row with the file in it. -/
theorem rename (h : Each P r) (old new : String)
    (hname : ∀ w, P old w → P new { w with file := { w.file with name := new } }) :
    Each P (r.rename old new).2 := by
  rcases rename_cases h.consistent old new with heq | ⟨e, f, hnew, he, hf, heq⟩
  · rw [heq]
    exact h
  · have hleft := h.remove new
    rw [heq]
    refine ⟨hleft.consistent.moved hnew he hf, fun q w hw => ?_⟩
    rw [row?_moved hleft.consistent he hf] at hw
    split at hw
    · rename_i hq
      obtain ⟨own, hown, rfl⟩ := Option.map_eq_some_iff.1 hw
      rw [hq]
      exact hname own (hleft.row old own hown)
    · split at hw
      · cases hw
      · exact hleft.row q w hw

theorem resolvePath (h : Each P r) (before : String) (after : Option String)
    (hname : ∀ new w, P before w → P new { w with file := { w.file with name := new } }) :
    Each P (r.resolvePath before after) := by
  unfold Report.resolvePath
  split
  · exact h
  · split
    · exact h.remove before
    · split
      · exact h
      · exact h.rename before _ (hname _)

theorem resolvePaths (h : Each P r) (fixes : List (String × Option String))
    (hname : ∀ old new w, P old w → P new { w with file := { w.file with name := new } }) :
    Each P (r.resolvePaths fixes) := by
  unfold Report.resolvePaths
  induction fixes generalizing r with
  | nil => exact h
  | cons fix rest ih => exact ih (h.resolvePath fix.1 fix.2 (hname fix.1))

/-- Without sessions to delete, no row is looked at. -/
theorem deleteSessions (h : Each P r) {ids : List Nat} (hnone : ids = [] → ∀ q w, P q w → P' q w)
    (hkept : ∀ q w w', P q w → w.withoutSessions ids = some w' → P' q w') :
    Each P' (r.deleteSessions ids) := by
  by_cases hids : ids = []
  · rw [show r.deleteSessions ids = r by rw [hids, deleteSessions_nil]]
    exact h.mono (hnone hids)
  · refine ⟨h.consistent.deleteSessions ids, fun q w' hw' => ?_⟩
    rw [row?_deleteSessions h.consistent hids] at hw'
    obtain ⟨w, hw, hleft⟩ := Option.bind_eq_some_iff.1 hw'
    exact hkept q w w' (h.row q w hw) hleft

theorem deleteLabels (h : Each P r) (ids labels : List Nat)
    (hkept : ∀ q w w', P q w → w.withoutLabels ids labels = some w' → P q w') :
    Each P (r.deleteLabels ids labels) := by
  unfold Report.deleteLabels
  split
  · exact h
  · apply Each.changed
    generalize r.names = names
    induction names generalizing r with
    | nil => exact h
    | cons name rest ih =>
      exact ih (h.actsAt (actsAt_deleteLabelsIn h.consistent ids labels name) (hkept name))

end Each

theorem Consistent.resolvePath (h : r.Consistent) (before : String) (after : Option String) :
    (r.resolvePath before after).Consistent :=
  (Each.resolvePath (P := fun _ _ => True) ⟨h, fun _ _ _ => trivial⟩ before after
    fun _ _ hw => hw).consistent

/-! ## 2. What leaves the sessions alone -/

@[simp] theorem sessions_changed : r.changed.sessions = r.sessions := rfl

theorem sessions_rename (r : Report) (old new : String) :
    (r.rename old new).2.sessions = r.sessions := by
  unfold rename
  split
  · rfl
  · split
    · rfl
    · dsimp only
      split
      · exact (sessions_afterReading _ _ _).trans sessions_remove
      · exact sessions_remove

theorem sessions_resolvePaths (r : Report) (fixes : List (String × Option String)) :
    (r.resolvePaths fixes).sessions = r.sessions := by
  unfold resolvePaths
  induction fixes generalizing r with
  | nil => rfl
  | cons fix rest ih =>
    obtain ⟨before, after⟩ := fix
    refine (ih _).trans ?_
    show (r.resolvePath before after).sessions = r.sessions
    unfold resolvePath
    split
    · rfl
    · split
      · exact sessions_remove
      · split
        · rfl
        · exact sessions_rename r _ _

theorem sessions_deleteLabels (h : r.Consistent) (ids labels : List Nat) :
    (r.deleteLabels ids labels).sessions = r.sessions := by
  unfold deleteLabels
  split
  · rfl
  · rw [sessions_changed]
    generalize r.names = names
    induction names generalizing r with
    | nil => rfl
    | cons name rest ih =>
      have hone := actsAt_deleteLabelsIn h ids labels name
      exact (ih hone.consistent).trans hone.sessions

theorem sessions_shift (h : r.Consistent) (d : Diff) (direction : Direction) :
    (r.shift d direction).sessions = r.sessions := by
  unfold shift
  generalize d.files.entries = entries
  induction entries generalizing r with
  | nil => rfl
  | cons e rest ih =>
    have hone := actsAt_shiftFile h e.1 e.2 direction
    exact (ih hone.consistent).trans hone.sessions

theorem sessions_afterDiff (r : Report) (d : Diff) : (r.afterDiff d).sessions = r.sessions := by
  unfold afterDiff
  generalize d.files.entries = entries
  induction entries generalizing r with
  | nil => rfl
  | cons e rest ih =>
    refine (ih _).trans ?_
    dsimp only
    split
    · exact sessions_afterReading r _ _
    · rfl

theorem sessions_applyDiff (r : Report) (d : Diff) :
    (r.applyDiff d).2.2.sessions = r.sessions := by
  unfold applyDiff
  split
  · rfl
  · exact sessions_afterDiff r d

theorem sessions_repack (r : Report) : r.repack.2.sessions = r.sessions := by
  unfold repack
  split <;> rfl

/-! ## 3. The session list -/

theorem addSessionWithId_eq_ok {id : Nat} {s : Session} (h : r.addSessionWithId id s = .ok r') :
    r' = { r with sessions := r.sessions.insert id s, knownTotals := none } := by
  unfold addSessionWithId at h
  split at h
  · cases h
  · exact (Except.ok.inj h).symm

/-- The report has a session of an id. -/
def Knows (r : Report) (id : Nat) : Prop := r.sessions.contains id = true

instance (r : Report) (id : Nat) : Decidable (r.Knows id) := inferInstanceAs (Decidable (_ = true))

/-- The report with a session under another id, while its files have it under the old one. -/
def renumbered (r : Report) (old new : Nat) (s : Session) : Report :=
  { r with sessions := (r.sessions.erase old).insert new s }

theorem knows_of_eq (hsessions : r'.sessions = r.sessions) {id : Nat} (h : r.Knows id) :
    r'.Knows id := by
  unfold Knows
  rwa [hsessions]

theorem knows_deleteSessions {ids : List Nat} {id : Nat} (h : r.Knows id ∧ id ∉ ids) :
    (r.deleteSessions ids).Knows id := by
  have hget : (r.deleteSessions ids).sessions.get? id = r.sessions.get? id := by
    rw [get?_sessions_deleteSessions, if_neg h.2]
  unfold Knows Table.contains
  rw [hget]
  exact h.1

theorem knows_renumbered {old new id : Nat} (s : Session)
    (h : id = new ∨ r.Knows id ∧ id ≠ old) : (r.renumbered old new s).Knows id := by
  show ((r.sessions.erase old).insert new s).contains id = true
  unfold Table.contains
  rw [Table.get?_insert, Table.get?_erase]
  rcases h with rfl | ⟨hknown, hother⟩
  · rw [if_pos rfl]
    rfl
  · rw [if_neg hother]
    split
    · rfl
    · exact hknown

/-- A session that there is keeps its id, or it is put under a free id in the session list and in
every file. -/
theorem changeSession_cases {old new : Nat} (h : r.changeSession old new = .ok r') :
    ∃ s, r.sessions.get? old = some s ∧ (old = new ∧ r' = r ∨ old ≠ new ∧ ¬ r.Knows new ∧
      r' = (r.names.foldl (changeSessionIn old new) (r.renumbered old new s)).changed) := by
  unfold changeSession at h
  split at h
  · cases h
  · rename_i s hs
    refine ⟨s, hs, ?_⟩
    split at h
    · rename_i hsame
      cases h
      exact .inl ⟨hsame, rfl⟩
    · rename_i hne
      split at h
      · cases h
      · rename_i hfree
        cases h
        exact .inr ⟨hne, hfree, rfl⟩

/-- Every file is passed, and passed once. -/
theorem foldl_changeSessionIn (h : r.Consistent) (old new : Nat) (s : Session) :
    (r.names.foldl (changeSessionIn old new) (r.renumbered old new s)).Consistent ∧
      (r.names.foldl (changeSessionIn old new) (r.renumbered old new s)).sessions =
        (r.sessions.erase old).insert new s ∧
      ∀ q, (r.names.foldl (changeSessionIn old new) (r.renumbered old new s)).row? q =
        (r.row? q).map (Row.changeSession old new) := by
  have hstart : (r.renumbered old new s).Consistent := h.congr (fun _ => rfl) fun _ => rfl
  have hnodup : (r.names.map id).Nodup := by
    rw [List.map_id]
    exact (Table.keys_ascending r.files).imp Precedes.ne
  obtain ⟨hconsistent, hsessions, hothers, hnamed⟩ := ActsAt.foldl (changeSessionIn old new) _
    (fun r name hr => actsAt_changeSessionIn hr old new name) hnodup hstart
  refine ⟨hconsistent, hsessions, fun q => ?_⟩
  by_cases hq : q ∈ r.names
  · exact (hnamed q hq).trans Option.map_eq_bind.symm
  · rw [List.map_id'] at hothers
    have hnone : r.row? q = none := by
      refine row?_eq_none (Option.eq_none_iff_forall_ne_some.2 fun f hf => hq ?_)
      exact h.mem_names_iff.2 ⟨f, hf⟩
    rw [hothers q hq, hnone]
    exact hnone

theorem Each.foldl_changeSessionIn {old new : Nat} (h : Each P r) (s : Session)
    (hchange : ∀ q w, P q w → P' q (w.changeSession old new)) :
    Each P' (r.names.foldl (changeSessionIn old new) (r.renumbered old new s)) ∧
      (r.names.foldl (changeSessionIn old new) (r.renumbered old new s)).sessions =
        (r.sessions.erase old).insert new s := by
  obtain ⟨hconsistent, hsessions, hrows⟩ := Report.foldl_changeSessionIn h.consistent old new s
  refine ⟨⟨hconsistent, fun q w' hw' => ?_⟩, hsessions⟩
  rw [hrows] at hw'
  obtain ⟨w, hw, rfl⟩ := Option.map_eq_some_iff.1 hw'
  exact hchange q w (h.row q w hw)

/-! ## 4. Diffs and slots -/

namespace Each

theorem shift (h : Each P r) (d : Diff) (direction : Direction)
    (hshift : ∀ q w f, d.files.get? q = some f → P q w → r.row? q = some w →
      P q (w.shift f direction)) : Each P (r.shift d direction) := by
  unfold Report.shift
  have hnodup : (d.files.entries.map Prod.fst).Nodup :=
    (Table.keys_ascending d.files).imp Precedes.ne
  obtain ⟨hconsistent, -, hothers, hnamed⟩ := ActsAt.foldl
    (fun r (e : String × DiffFile) => r.shiftFile e.1 e.2 direction)
    (fun e w => some (w.shift e.2 direction))
    (fun r e hr => actsAt_shiftFile hr e.1 e.2 direction) hnodup h.consistent
  refine ⟨hconsistent, fun q w' hw' => ?_⟩
  by_cases hq : q ∈ d.files.entries.map Prod.fst
  · obtain ⟨e, he, rfl⟩ := List.mem_map.1 hq
    rw [hnamed e he] at hw'
    obtain ⟨w, hw, hdone⟩ := Option.bind_eq_some_iff.1 hw'
    rw [← Option.some.inj hdone]
    exact hshift e.1 w e.2 ((Table.get?_eq_some_iff _).2 he) (h.row e.1 w hw) hw
  · rw [hothers q hq] at hw'
    exact h.row q w' hw'

theorem afterDiff (h : Each P r) (d : Diff)
    (hread : ∀ q w numbers, P q w → P q { w with file := w.file.afterLines numbers }) :
    Each P (r.afterDiff d) := by
  unfold Report.afterDiff
  generalize d.files.entries = entries
  induction entries generalizing r with
  | nil => exact h
  | cons e rest ih =>
    obtain ⟨path, f⟩ := e
    apply ih
    show Each P (if f.contributes then r.afterReading path fun file => file.afterLines f.addedLines
      else r)
    split
    · exact h.afterReading path fun w hw => hread path w f.addedLines hw
    · exact h

theorem applyDiff (h : Each P r) (d : Diff)
    (hread : ∀ q w numbers, P q w → P q { w with file := w.file.afterLines numbers }) :
    Each P (r.applyDiff d).2.2 := by
  unfold Report.applyDiff
  split
  · exact h
  · have hdone := h.afterDiff d hread
    refine hdone.of_rows ?_ (row?_withDiffTotals _)
    exact hdone.consistent.congr (slotOf?_withDiffTotals _) fun _ => rfl

theorem repack (h : Each P r) : Each P r.repack.2 :=
  h.of_rows h.consistent.repack (row?_repack h.consistent)

end Each

/-! ## 5. Carrying forward -/

/-- What carrying forward makes of a report: files are taken out, then sessions, and the sessions
that stay are marked. -/
theorem carry_cases [PatternLanguage] {flags paths : List String}
    {extras : Option (Table String Json)}
    (h : Carry.report r flags paths extras = .ok r') :
    ∃ left : Report, (left = r ∧ paths = [] ∨
        ∃ filter, PathFilter.ofPatterns? paths = .ok filter ∧ left = Carry.chosenFiles filter r) ∧
      r' = { (left.deleteSessions (left.sessions.filter fun _ s => !s.hasAnyFlag flags).keys).changed
        with sessions := (left.deleteSessions
          (left.sessions.filter fun _ s => !s.hasAnyFlag flags).keys).sessions.map fun _ s =>
            Carry.carried extras s } := by
  unfold Carry.report at h
  by_cases hpaths : paths = []
  · rw [hpaths] at h
    exact ⟨r, .inl ⟨rfl, hpaths⟩, (Except.ok.inj h).symm⟩
  · have hsome : paths.isEmpty = false := by
      rw [List.isEmpty_eq_false_iff]
      exact hpaths
    rw [hsome] at h
    cases hfilter : PathFilter.ofPatterns? paths with
    | error fault =>
      rw [hfilter] at h
      cases h
    | ok filter =>
      rw [hfilter] at h
      exact ⟨_, .inr ⟨filter, rfl, rfl⟩, (Except.ok.inj h).symm⟩

theorem sessions_chosenFiles (filter : PathFilter) (r : Report) :
    (Carry.chosenFiles filter r).sessions = r.sessions := sessions_foldl_remove _

/-- The sessions that have one of the flags are kept, and marked. -/
theorem get?_sessions_carry [PatternLanguage] {flags paths : List String}
    {extras : Option (Table String Json)}
    (h : Carry.report r flags paths extras = .ok r') (id : Nat) :
    r'.sessions.get? id = if id ∈ (r.sessions.filter fun _ s => !s.hasAnyFlag flags).keys then none
      else (r.sessions.get? id).map (Carry.carried extras) := by
  obtain ⟨left, hleft, rfl⟩ := carry_cases h
  have hsessions : left.sessions = r.sessions := by
    rcases hleft with ⟨rfl, -⟩ | ⟨filter, -, rfl⟩
    · rfl
    · exact sessions_chosenFiles filter r
  show (Table.map _ _).get? id = _
  rw [Table.get?_map, get?_sessions_deleteSessions, hsessions]
  split
  · rfl
  · rfl

/-- Carrying forward takes rows out, and sessions out of the rows that stay. -/
theorem Each.carry [PatternLanguage] {flags paths : List String}
    {extras : Option (Table String Json)}
    (h : Each P r) (hok : Carry.report r flags paths extras = .ok r') (hsame : ∀ q w, P q w → P' q w)
    (hkept : ∀ ids q w w', P q w → w.withoutSessions ids = some w' → P' q w') : Each P' r' := by
  obtain ⟨left, hleft, rfl⟩ := carry_cases hok
  have hstart : Each P left := by
    rcases hleft with ⟨rfl, -⟩ | ⟨filter, -, rfl⟩
    · exact h
    · exact h.foldl_remove _
  exact (hstart.deleteSessions (fun _ => hsame) (hkept _)).of_eq rfl rfl

end Report

end CoverageLedger
