import CoverageLedger.Proofs.SourceFile.Unread
import CoverageLedger.Proofs.Upload.Improvement

/-!
# Uploads that are taken back

An upload adds its session to lines, and a deletion takes it out again.  `Regained` says what the
upload leaves on a line that the deletion needs: the sessions from before, in order, next to its
own.  What it does not get back is the kind of a line, which the first session that knows one
decides: a line of no kind keeps the kind that the upload gave it.
-/

namespace CoverageLedger

/-! ## 1. Lines of tracefiles -/

/-- A line with nothing but a reading, a kind and sessions. -/
structure Line.Bare (l : Line) : Prop where
  messages : l.messages = none
  complexity : l.complexity = none
  datapoints : l.datapoints = none
  sessions : ∀ s ∈ l.sessions, s.complexity = none

namespace LineSession

variable {s t : LineSession} {l : List LineSession}

theorem complexityOf_of_none (h : ∀ s ∈ l, s.complexity = none) : complexityOf l = none := by
  unfold complexityOf
  induction l with
  | nil => rfl
  | cons s rest ih =>
    rw [List.foldl_cons, h s List.mem_cons_self]
    exact ih fun t ht => h t (List.mem_cons_of_mem s ht)

end LineSession

namespace Line

variable {own l : Line}

theorem Bare.complexityOf (h : l.Bare) : LineSession.complexityOf l.sessions = l.complexity := by
  rw [h.complexity, LineSession.complexityOf_of_none h.sessions]

theorem Bare.merge (hown : own.Bare) (hl : l.Bare) : (own.merge l true).Bare := by
  have hsessions : ∀ s ∈ LineSession.mergeLists own.sessions l.sessions, s.complexity = none := by
    refine LineSession.forall_mem_mergeLists (fun a b ha hb => ?_) hown.sessions hl.sessions
    show Complexity.merge a.complexity b.complexity = none
    rw [ha, hb]
    rfl
  refine ⟨?_, ?_, ?_, hsessions⟩
  · show mergeMessages own.messages l.messages = none
    rw [hown.messages, hl.messages]
    rfl
  · unfold Line.merge
    simp only [Bool.not_true, Bool.false_eq_true, if_false]
    split
    · rw [hown.complexity, hl.complexity]
      rfl
    · exact LineSession.complexityOf_of_none hsessions
  · show Datapoint.mergeLists own.datapoints l.datapoints = none
    rw [hown.datapoints, hl.datapoints]
    rfl

theorem Bare.joinLine {own : Option Line} (hown : ∀ l', own = some l' → l'.Bare) (hl : l.Bare) :
    (SourceFile.joinLine true own l).Bare := by
  cases own with
  | none => exact hl
  | some l' => exact (hown l' rfl).merge hl

end Line

/-- A file that tracefiles made. -/
structure SourceFile.FromTrace (f : SourceFile) : Prop where
  faithful : f.Faithful
  ignore : f.ignore = none
  bare : ∀ n l, f.lines.get? n = some l → l.Bare

namespace SourceFile.FromTrace

variable {f g : SourceFile} {n : Nat} {line : Line}

theorem appendLine (h : f.FromTrace) (hline : line.Bare) :
    (f.appendLine n line true).FromTrace := by
  refine ⟨Faithful.edit _, h.ignore, fun k l hl => ?_⟩
  rw [get?_appendLine] at hl
  split at hl
  · obtain rfl := Option.some.inj hl
    exact hline.joinLine (h.bare n)
  · exact h.bare k l hl

theorem opened (h : f.FromTrace) : f.opened.FromTrace := ⟨h.faithful.opened, h.ignore, h.bare⟩

theorem mergeLines (h : f.FromTrace) (hg : g.FromTrace) :
    (f.mergeLines g.lines true).FromTrace := by
  refine ⟨h.faithful.mergeLines _ _, (ignore_mergeLines _).trans h.ignore, fun n l hl => ?_⟩
  rw [get?_mergeLines] at hl
  split at hl
  · rename_i own hown
    split at hl
    · exact h.bare n l hl
    · obtain rfl := Option.some.inj hl
      exact (hg.bare n own hown).joinLine (h.bare n)
  · exact h.bare n l hl

end SourceFile.FromTrace

namespace TracedFile

/-- A line is joined with what stands under its number, unless the file refuses it. -/
theorem add_cases {f g : SourceFile} {n : Nat} {line : Line} (h : add f n line = .ok g) :
    n ≠ 0 ∧ (g = f ∨ g = f.appendLine n line true) := by
  unfold add SourceFile.append at h
  by_cases hn : n = 0
  · rw [if_pos hn] at h
    cases h
  · rw [if_neg hn] at h
    refine ⟨hn, ?_⟩
    split at h
    · exact .inl (Except.ok.inj h).symm
    · exact .inr (Except.ok.inj h).symm

theorem fromTrace_add {f g : SourceFile} {n : Nat} {line : Line} (h : f.FromTrace)
    (hline : line.Bare) (hadd : add f n line = .ok g) : g.FromTrace := by
  rcases (add_cases hadd).2 with rfl | rfl
  · exact h
  · exact h.appendLine hline

theorem bare_ofSession {s : LineSession} (h : s.complexity = none) (kind : Option LineKind) :
    Line.Bare { Line.ofSession s with kind } :=
  ⟨rfl, h, rfl, fun t ht => by rw [List.mem_singleton.1 ht]; exact h⟩

/-- Steps that all keep a property keep it together. -/
theorem foldlM_keeps {α σ : Type} {P : σ → Prop} {step : σ → α → Result σ} {items : List α}
    {s s' : σ} (hstep : ∀ s a s', P s → step s a = .ok s' → P s') (h : P s)
    (hok : items.foldlM step s = .ok s') : P s' := by
  induction items generalizing s with
  | nil =>
    obtain rfl := Except.ok.inj hok
    exact h
  | cons a rest ih =>
    rw [List.foldlM_cons] at hok
    obtain ⟨next, hnext, hrest⟩ := Result.bind_eq_ok.1 hok
    exact ih (hstep s a next h hnext) hrest

/-- The three passes keep what adding a bare line keeps. -/
theorem source_keeps {P : SourceFile → Prop} {f : TracedFile} {id : Nat} {g : SourceFile}
    (hadd : ∀ s n line s', P s → line.Bare → add s n line = .ok s' → P s')
    (hstart : P { name := f.reportPath }) (h : f.source id = .ok g) : P g := by
  unfold source at h
  obtain ⟨withLines, hlines, h⟩ := Result.bind_eq_ok.1 h
  obtain ⟨withBranches, hbranches, hmethods⟩ := Result.bind_eq_ok.1 h
  have hplain : P withLines := foldlM_keeps
    (fun _ _ _ hs hok => hadd _ _ _ _ hs (bare_ofSession rfl none) hok) hstart hlines
  have hbranch : P withBranches := foldlM_keeps
    (fun _ _ _ hs hok => hadd _ _ _ _ hs (bare_ofSession rfl (some .branch)) hok)
    hplain hbranches
  refine foldlM_keeps (fun s a s' hs hok => ?_) hbranch hmethods
  split at hok
  · obtain rfl := Except.ok.inj hok
    exact hs
  · obtain rfl := Except.ok.inj hok
    exact hs
  · split at hok
    · obtain rfl := Except.ok.inj hok
      exact hs
    · exact hadd _ _ _ _ hs (bare_ofSession rfl (some .method)) hok

theorem fromTrace_source {f : TracedFile} {id : Nat} {g : SourceFile} (h : f.source id = .ok g) :
    g.FromTrace := by
  refine source_keeps (fun _ _ _ _ hs hline hok => fromTrace_add hs hline hok) ?_ h
  refine ⟨⟨fun ids hids => ?_, fun chunk ids hchunk => ?_⟩, rfl, fun n l hl => ?_⟩
  · cases hids
  · cases hchunk
  · cases hl

end TracedFile

/-! ## 2. One line -/

/-- The sessions on a line that may not be there. -/
def sessionsOn (own : Option Line) : List LineSession := own.elim [] Line.sessions

/-- What the session of an id has made of a line so far: next to its own reading the sessions from
before are still there, and a kind from before stays. -/
structure Regained (id : Nat) (before after : Option Line) : Prop where
  sessions : (sessionsOn after).filter (fun s => s.id != id) = sessionsOn before
  same : (∀ s ∈ sessionsOn after, s.id ≠ id) → after = before
  kind : ∀ kind, before.bind (·.kind) = some kind → after.bind (·.kind) = some kind
  stays : after = none → before = none

namespace Regained

variable {id : Nat} {before after : Option Line} {l : Line} {t : LineSession}

theorem refl (h : ∀ s ∈ sessionsOn before, s.id ≠ id) : Regained id before before where
  sessions := by
    rw [List.filter_eq_self]
    intro s hs
    simpa using h s hs
  same := fun _ => rfl
  kind := fun _ hkind => hkind
  stays := fun hnone => hnone

/-- The session says something more of the line. -/
theorem join (h : Regained id before after) (hl : l.sessions = [t]) (ht : t.id = id) :
    Regained id before (some (SourceFile.joinLine true after l)) := by
  have hsessions : (SourceFile.joinLine true after l).sessions =
      LineSession.mergeInto t (sessionsOn after) := by
    cases after with
    | none => exact hl
    | some own =>
      show LineSession.mergeLists own.sessions l.sessions = _
      rw [hl]
      rfl
  refine ⟨?_, fun hnone => ?_, fun kind hkind => ?_, fun hnone => by cases hnone⟩
  · show (SourceFile.joinLine true after l).sessions.filter _ = _
    rw [hsessions, ← ht, LineSession.filter_mergeInto, ht, h.sessions]
  · obtain ⟨s, hs, hid⟩ := LineSession.exists_id_mergeInto t (sessionsOn after)
    rw [← hsessions] at hs
    exact absurd (hid.trans ht) (hnone s hs)
  · have hown := h.kind kind hkind
    cases after with
    | none => cases hown
    | some own =>
      show own.kind.or l.kind = some kind
      rw [show own.kind = some kind from hown]
      rfl

/-- **Taking the session out gives the line back**, except for its kind. -/
theorem withoutSessions (h : Regained id before after)
    (hbefore : ∀ l, before = some l →
      l.Bare ∧ l.sessions ≠ [] ∧ l.reading = LineSession.readingOf l.sessions)
    (hafter : ∀ l, after = some l → l.Bare ∧ l.sessions ≠ []) :
    after.bind (Line.withoutSessions [id]) =
      before.map fun l => { l with kind := after.bind (·.kind) } := by
  cases after with
  | none => rw [h.stays rfl]; rfl
  | some l' =>
    obtain ⟨hbare', hne'⟩ := hafter l' rfl
    have hleft : (l'.sessions.filter fun s => !([id].contains s.id)) = sessionsOn before := by
      rw [← h.sessions]
      apply List.filter_congr
      intro s _
      simp only [List.contains_cons, List.contains_nil, Bool.or_false]
      rfl
    rw [Option.bind_some, Line.withoutSessions_of_sessions_ne hne', hleft]
    cases before with
    | none => rfl
    | some l =>
      obtain ⟨hbare, hne, hreading⟩ := hbefore l rfl
      have hdatapoints : l'.datapointsWithout [id] = l.datapoints := by
        rw [Line.datapointsWithout, hbare'.datapoints, hbare.datapoints]
        rfl
      show (if l.sessions.isEmpty = true then none else _) = _
      rw [if_neg (by rwa [List.isEmpty_iff]), hdatapoints, hbare'.messages, ← hbare.messages]
      show some { l with
        kind := l'.kind
        reading := LineSession.readingOf l.sessions
        complexity := LineSession.complexityOf l.sessions } = _
      rw [hbare.complexityOf, ← hreading]
      rfl

end Regained

namespace Holds

variable {id : Nat} {done : List LineSession} {l : Line}

theorem id_lt (h : Holds id done none (some l)) : ∀ s ∈ l.sessions, s.id < id := by
  obtain ⟨old, hsessions, -, hold, -⟩ := h
  rw [Option.map_none, Option.toList_none, List.append_nil] at hsessions
  rwa [hsessions]

theorem sessions_ne_nil (h : Holds id done none (some l)) : l.sessions ≠ [] := by
  obtain ⟨-, -, -, -, hne, -⟩ := h
  exact hne

theorem reading_eq (h : Holds id done none (some l)) :
    l.reading = LineSession.readingOf l.sessions := by
  obtain ⟨-, -, -, -, -, hreading, -⟩ := h
  exact hreading

end Holds

/-! ## 3. Reports -/

namespace Report

variable {id : Nat} {r r' r₀ : Report} {files : List TracedFile} {names : List String}
  {g : SourceFile} {name : String} {n : Nat}

/-- A report that tracefiles made. -/
structure FromTraces (r : Report) : Prop where
  consistent : r.Consistent
  files : ∀ name f, r.file? name = some f → f.FromTrace

theorem FromTraces.congr (h : r.FromTraces) (hfiles : r'.files = r.files)
    (hslots : r'.slots = r.slots) : r'.FromTraces := by
  have hin (s : Nat) : r'.inSlot? s = r.inSlot? s := by rw [inSlot?, inSlot?, hslots]
  have hslot (q : String) : r'.slotOf? q = r.slotOf? q := by rw [slotOf?, slotOf?, hfiles]
  refine ⟨h.consistent.congr hslot fun s => by rw [hin], fun q f hf => ?_⟩
  rw [file?_congr (hslot q) hin] at hf
  exact h.files q f hf

theorem FromTraces.append (h : r.FromTraces) (hg : g.FromTrace) : (r.append g).2.FromTraces := by
  refine ⟨h.consistent.append g true, fun q f hf => ?_⟩
  rcases file?_append_cases h.consistent hf with hold | ⟨-, rfl⟩
  · exact h.files q f hold
  · unfold placed
    split
    · rename_i own hown
      exact ((h.files g.name own hown).mergeLines hg).opened
    · exact hg.opened

theorem FromTraces.bare (h : r.FromTraces) {l : Line} (hl : r.lineAt? name n = some l) :
    l.Bare := by
  obtain ⟨f, hf, hat⟩ := Option.bind_eq_some_iff.1 hl
  exact (h.files name f hf).bare n l hat

theorem addTraced_cons {f : TracedFile} {rest : List TracedFile}
    (h : addTraced id r (f :: rest) = .ok (names, r')) :
    ∃ g names', f.source id = .ok g ∧ addTraced id (r.append g).2 rest = .ok (names', r') ∧
      names = if g.isEmpty then names' else g.name :: names' := by
  rw [addTraced] at h
  obtain ⟨g, hg, h⟩ := Result.bind_eq_ok.1 h
  obtain ⟨⟨names', last⟩, hrest, hlast⟩ := Result.bind_eq_ok.1 h
  have hpair := Except.ok.inj hlast
  obtain rfl : last = r' := congrArg Prod.snd hpair
  refine ⟨g, names', hg, hrest, (congrArg Prod.fst hpair).symm.trans ?_⟩
  show (if (r.append g).1 = true then g.name :: names' else names') = _
  rw [fst_append]
  cases g.isEmpty <;> rfl

theorem sessions_addTraced (h : addTraced id r files = .ok (names, r')) :
    r'.sessions = r.sessions := by
  induction files generalizing r names with
  | nil =>
    cases h
    rfl
  | cons f rest ih =>
    obtain ⟨g, names', -, hrest, -⟩ := addTraced_cons h
    exact (ih hrest).trans sessions_append

theorem FromTraces.addTraced (h : r.FromTraces)
    (hok : Report.addTraced id r files = .ok (names, r')) : r'.FromTraces := by
  induction files generalizing r names with
  | nil =>
    cases hok
    exact h
  | cons f rest ih =>
    obtain ⟨g, names', hg, hrest, -⟩ := addTraced_cons hok
    exact ih (h.append (TracedFile.fromTrace_source hg)) hrest

/-- What an upload does: it adds its files under the next session, and then says what that session
covers. -/
theorem addUpload_cases {upload : Upload} {summary : UploadSummary}
    (h : r.addUpload files upload = .ok (summary, r')) :
    ∃ names last,
      addTraced r.nextSession (r.addSession (sessionOf upload)).2 files = .ok (names, last) ∧
      summary.session = r.nextSession ∧
      r' = { last.changed with
        sessions := r.sessions.insert r.nextSession
          { sessionOf upload with
            totals := some (last.sessionTotalsIn r.nextSession names) } } := by
  unfold addUpload at h
  obtain ⟨⟨names, last⟩, hadded, hlast⟩ := Result.bind_eq_ok.1 h
  obtain ⟨hsummary, hreport⟩ := Prod.mk.inj (Except.ok.inj hlast)
  refine ⟨names, last, hadded, by rw [← hsummary], ?_⟩
  rw [← hreport]
  refine congrArg (fun sessions => { last.changed with sessions }) (Table.ext_get? fun id => ?_)
  show (last.sessions.modify r.nextSession _).get? id = _
  have hstart : last.sessions = r.sessions.insert r.nextSession (sessionOf upload) :=
    sessions_addTraced hadded
  rw [hstart, Table.get?_modify, Table.get?_insert, Table.get?_insert]
  split <;> rfl

theorem FromTraces.addUpload {upload : Upload} {summary : UploadSummary} (h : r.FromTraces)
    (hok : r.addUpload files upload = .ok (summary, r')) : r'.FromTraces := by
  obtain ⟨names, last, hadded, -, rfl⟩ := addUpload_cases hok
  have hstart : (r.addSession (sessionOf upload)).2.FromTraces :=
    h.congr rfl rfl
  exact (hstart.addTraced hadded).congr rfl rfl

/-- What each upload keeps, all of them keep. -/
theorem addUploads_keeps {P : Report → Prop} {uploads : List (List TracedFile × Upload)}
    (hstep : ∀ u ∈ uploads, ∀ r summary r', P r → r.addUpload u.1 u.2 = .ok (summary, r') → P r')
    (h : P r) (hok : r.addUploads uploads = .ok r') : P r' := by
  unfold Report.addUploads at hok
  induction uploads generalizing r with
  | nil =>
    obtain rfl := Except.ok.inj hok
    exact h
  | cons u rest ih =>
    rw [List.foldlM_cons] at hok
    obtain ⟨next, hnext, hrest⟩ := Result.bind_eq_ok.1 hok
    obtain ⟨⟨summary, last⟩, hadd, hlast⟩ := Result.bind_eq_ok.1 hnext
    obtain rfl : last = next := Except.ok.inj hlast
    exact ih (fun v hv => hstep v (List.mem_cons_of_mem u hv))
      (hstep u List.mem_cons_self r summary last h hadd) hrest

theorem FromTraces.addUploads {uploads : List (List TracedFile × Upload)} (h : r.FromTraces)
    (hok : r.addUploads uploads = .ok r') : r'.FromTraces :=
  addUploads_keeps (fun _ _ _ _ _ hr hadd => hr.addUpload hadd) h hok

/-- What the session of an id has made of the lines of a report so far. -/
def Regains (id : Nat) (before after : Report) : Prop :=
  ∀ name n, Regained id (before.lineAt? name n) (after.lineAt? name n)

theorem Regains.append (h : Regains id r₀ r) (hr : r.FromTraces) {f : TracedFile}
    (hreads : g.Reads id f.reads) : Regains id r₀ (r.append g).2 := by
  intro q n
  rw [lineAt?_append hr.consistent fun own hown => (hr.files g.name own hown).ignore]
  split
  · have hline := hreads.line n
    cases hread : f.reads n with
    | none =>
      rw [hread] at hline
      rw [hline]
      exact h q n
    | some s =>
      rw [hread] at hline
      obtain ⟨l, hl, hmade⟩ := hline
      rw [hl]
      exact (h q n).join hmade.sessions rfl
  · exact h q n

theorem Regains.addTraced (h : Regains id r₀ r) (hr : r.FromTraces)
    (hlines : ∀ f ∈ files, ∀ l ∈ f.lines, l.line ≠ 0)
    (hok : Report.addTraced id r files = .ok (names, r')) : Regains id r₀ r' := by
  induction files generalizing r names with
  | nil =>
    cases hok
    exact h
  | cons f rest ih =>
    obtain ⟨g, names', hg, hrest, -⟩ := addTraced_cons hok
    obtain ⟨g', hg', -, hreads⟩ := f.source_reads (hlines f List.mem_cons_self) id
    rw [hg] at hg'
    obtain rfl := Except.ok.inj hg'
    exact ih (h.append hr hreads) (hr.append (TracedFile.fromTrace_source hg))
      (fun q hq => hlines q (List.mem_cons_of_mem f hq)) hrest

/-! ## 4. The deletion -/

theorem lineAt?_deleteSessions {ids : List Nat} (h : ids ≠ []) :
    (r.deleteSessions ids).lineAt? name n =
      (r.file? name).bind fun f => (f.withoutSessions ids).lines.get? n := by
  rw [lineAt?, file?_deleteSessions h]
  cases r.file? name with
  | none => rfl
  | some f =>
    rw [Option.bind_some, Option.bind_some]
    split
    · rename_i hempty
      exact ((Table.isEmpty_iff _).1 hempty.2 n).symm
    · rfl

/-- No line of a file that passes the session over has a reading of it. -/
theorem id_ne_of_not_hasAnySession {f : SourceFile} (hf : f.Exact)
    (hany : f.hasAnySession [id] = false) {l : Line} (hl : f.lines.get? n = some l) :
    ∀ s ∈ l.sessions, s.id ≠ id := by
  rintro s hs rfl
  rw [Bool.eq_false_iff] at hany
  refine hany (SourceFile.hasAnySession_iff.2 ⟨s.id, ?_, List.mem_singleton_self _⟩)
  rw [hf]
  exact SourceFile.mem_idsOfLines.2 ⟨n, l, hl, Line.mem_sessionIds.2 ⟨s, hs, rfl⟩⟩

/-- **Deleting the session gives every line back**, except for its kind. -/
theorem lineAt?_deleteSession_of_regains (h : Regains id r r') (hr' : r'.FromTraces)
    (hbefore : ∀ name n l, r.lineAt? name n = some l →
      l.Bare ∧ l.sessions ≠ [] ∧ l.reading = LineSession.readingOf l.sessions)
    (hafter : ∀ name n l, r'.lineAt? name n = some l → l.Bare ∧ l.sessions ≠ [])
    (name : String) (n : Nat) :
    (r'.deleteSession id).lineAt? name n =
      (r.lineAt? name n).map fun l => { l with kind := (r'.lineAt? name n).bind (·.kind) } := by
  have hline := h name n
  rw [deleteSession, lineAt?_deleteSessions (List.cons_ne_nil id [])]
  cases hf : r'.file? name with
  | none =>
    have hnone : r'.lineAt? name n = none := by rw [lineAt?, hf]; rfl
    rw [hline.stays hnone]
    rfl
  | some f =>
    have hat : r'.lineAt? name n = f.lines.get? n := by rw [lineAt?, hf]; rfl
    rw [Option.bind_some, SourceFile.get?_withoutSessions]
    cases hany : f.hasAnySession [id] with
    | true =>
      rw [if_pos rfl, ← hat]
      exact hline.withoutSessions (hbefore name n) (hafter name n)
    | false =>
      -- the deletion passes the file over, so the upload said nothing of it
      have hsame : r'.lineAt? name n = r.lineAt? name n := by
        apply hline.same
        rw [hat]
        cases hl : f.lines.get? n with
        | none => exact fun s hs => absurd hs List.not_mem_nil
        | some l => exact id_ne_of_not_hasAnySession (hr'.files name f hf).faithful.exact hany hl
      rw [if_neg Bool.false_ne_true, ← hat, hsame]
      cases r.lineAt? name n <;> rfl

end Report

/-! ## 5. Totals without kinds -/

def Line.withoutKind (l : Line) : Line := { l with kind := none }

/-- Totals without the counts of branches and methods. -/
def Totals.withoutKinds (t : Totals) : Totals := { t with branches := 0, methods := 0 }

/-- What is seen of totals when less is seen of lines. -/
structure Totals.Sees (view : Line → Line) (mask : Totals → Totals) : Prop where
  ofLines : ∀ lines : List Line, Totals.ofLines (lines.map view) = mask (.ofLines lines)
  sum : ∀ items : List Totals, Totals.sum (items.map mask) = mask (.sum items)
  sessions : ∀ (t : Totals) (n : Nat), mask { t with sessions := n } = { mask t with sessions := n }

namespace Totals

theorem sees_all : Sees id id where
  ofLines := fun lines => by rw [List.map_id, id]
  sum := fun items => by rw [List.map_id, id]
  sessions := fun _ _ => rfl

theorem addUp_map_zero {α : Type} (l : List α) : addUp (l.map fun _ => 0) = 0 := by
  induction l with
  | nil => rfl
  | cons a rest ih =>
    show 0 + addUp (rest.map fun _ => 0) = 0
    rw [ih]

theorem sees_withoutKinds : Sees Line.withoutKind withoutKinds where
  ofLines := by
    intro lines
    have hcount (outcome : Outcome) :
        countOutcome outcome (lines.map Line.withoutKind) = countOutcome outcome lines := by
      rw [countOutcome, List.countP_map]
      rfl
    have hkind (kind : LineKind) : countKind kind (lines.map Line.withoutKind) = 0 := by
      rw [countKind, List.countP_map]
      exact List.countP_eq_zero.2 fun _ _ h => by cases h
    have hmessages : (lines.map Line.withoutKind).map Line.messageCount =
        lines.map Line.messageCount := by
      rw [List.map_map]
      rfl
    have hcomplexity : (lines.map Line.withoutKind).filterMap (·.complexity) =
        lines.filterMap (·.complexity) := by
      rw [List.filterMap_map]
      rfl
    simp only [ofLines, withoutKinds, hcount, hkind, hmessages, hcomplexity]
  sum := by
    intro items
    simp only [sum, withoutKinds, List.map_map, Function.comp_def, List.length_map, addUp_map_zero]
  sessions := fun _ _ => rfl

end Totals

namespace Report

variable {r r' : Report} {view : Line → Line} {mask : Totals → Totals}

/-- **Reports with the same lines have the same names and totals**, as far as they are seen. -/
theorem names_and_totals_of_lines (hsees : Totals.Sees view mask) (h : r.Consistent)
    (h' : r'.Consistent) (hcounted : r.Counted) (hcounted' : r'.Counted) (hstored : r.Stored)
    (hstored' : r'.Stored) (hsessions : r.sessions = r'.sessions)
    (hlines : ∀ name n, (r.lineAt? name n).map view = (r'.lineAt? name n).map view) :
    r.names = r'.names ∧ mask r.computedTotals = mask r'.computedTotals := by
  have hsome (name : String) : (∃ f, r.file? name = some f) ↔ ∃ f, r'.file? name = some f := by
    rw [hstored.file?_isSome_iff, hstored'.file?_isSome_iff]
    refine exists_congr fun n => not_congr ?_
    rw [← Option.map_eq_none_iff, hlines, Option.map_eq_none_iff]
  have hnames : r.names = r'.names := by
    refine eq_of_ascending (Table.keys_ascending _) (Table.keys_ascending _) fun name => ?_
    exact h.mem_names_iff.trans ((hsome name).trans h'.mem_names_iff.symm)
  have hfile (name : String) :
      (r.fileTotals? name).map mask = (r'.fileTotals? name).map mask := by
    rw [hcounted.fileTotals? h, hcounted'.fileTotals? h']
    cases hf : r.file? name with
    | none =>
      cases hf' : r'.file? name with
      | none => rfl
      | some f' =>
        obtain ⟨f, hf''⟩ := (hsome name).2 ⟨f', hf'⟩
        rw [hf] at hf''
        cases hf''
    | some f =>
      obtain ⟨f', hf'⟩ := (hsome name).1 ⟨f, hf⟩
      have htable : f.lines.map (fun _ l => view l) = f'.lines.map fun _ l => view l := by
        apply Table.ext_get?
        intro n
        have hn := hlines name n
        rw [lineAt?, lineAt?, hf, hf', Option.bind_some, Option.bind_some] at hn
        rw [Table.get?_map, Table.get?_map]
        exact hn
      have hvalues := congrArg Table.values htable
      rw [Table.values_map, Table.values_map] at hvalues
      rw [hf']
      simp only [Option.map_some, SourceFile.totals, ← hsees.ofLines, hvalues]
  refine ⟨hnames, ?_⟩
  have hitems : (r.names.filterMap r.fileTotals?).map mask =
      (r'.names.filterMap r'.fileTotals?).map mask := by
    rw [List.map_filterMap, List.map_filterMap, hnames]
    exact List.filterMap_congr fun name _ => hfile name
  rw [computedTotals, computedTotals, hsees.sessions, hsees.sessions, ← hsees.sum, ← hsees.sum,
    hitems, hsessions]

/-! ## 6. An upload and the deletion of its session -/

theorem Stored.deleteSessions {ids : List Nat} (h : r.Stored) (hids : ids ≠ []) :
    (r.deleteSessions ids).Stored := by
  intro name g hg
  rw [file?_deleteSessions hids] at hg
  obtain ⟨f, hf, hkept⟩ := Option.bind_eq_some_iff.1 hg
  split at hkept
  · cases hkept
  · rename_i hstays
    obtain rfl := Option.some.inj hkept
    cases hany : f.hasAnySession ids with
    | true => exact Bool.eq_false_iff.2 fun hempty => hstays ⟨hany, hempty⟩
    | false =>
      rw [SourceFile.withoutSessions_of_not_has hany, SourceFile.isEmpty,
        SourceFile.lines_afterSessionIds]
      exact h name f hf

/-- What an upload makes of the lines, when its id is free. -/
theorem FromTraces.regains_addUpload {upload : Upload} {summary : UploadSummary}
    {files : List TracedFile} (h : r.FromTraces)
    (hnonzero : ∀ f ∈ files, ∀ l ∈ f.lines, l.line ≠ 0)
    (hok : r.addUpload files upload = .ok (summary, r'))
    (hids : ∀ name n l, r.lineAt? name n = some l → ∀ s ∈ l.sessions, s.id ≠ r.nextSession) :
    Regains r.nextSession r r' := by
  obtain ⟨names, last, hadded, -, rfl⟩ := addUpload_cases hok
  have hstart : (r.addSession (sessionOf upload)).2.FromTraces :=
    h.congr rfl rfl
  have hold : Regains r.nextSession r (r.addSession (sessionOf upload)).2 := by
    intro name n
    refine Regained.refl fun s hs => ?_
    cases hl : r.lineAt? name n with
    | none =>
      rw [hl] at hs
      exact absurd hs List.not_mem_nil
    | some l =>
      rw [hl] at hs
      exact hids name n l hl s hs
  have hregains : Regains r.nextSession r last := hold.addTraced hstart hnonzero hadded
  exact hregains

/-- The report that the deletion gives back is the one from before the upload, except for the kinds
of lines: a line keeps the kind that it has after the upload. -/
structure UndoneButKinds (before after back : Report) : Prop where
  names : back.names = before.names
  sessions : back.sessions = before.sessions
  lines : ∀ name n, back.lineAt? name n =
    (before.lineAt? name n).map fun l => { l with kind := (after.lineAt? name n).bind (·.kind) }
  /-- Only a line of no kind can have got one. -/
  kinds : ∀ name n kind, (before.lineAt? name n).bind (·.kind) = some kind →
    (after.lineAt? name n).bind (·.kind) = some kind
  totals : back.totals.1.withoutKinds = before.totals.1.withoutKinds
  /-- When no line got a kind, everything is as it was. -/
  whole : (∀ name n l, before.lineAt? name n = some l →
      (after.lineAt? name n).bind (·.kind) = l.kind) →
    (∀ name n, back.lineAt? name n = before.lineAt? name n) ∧ back.totals.1 = before.totals.1

theorem undoneButKinds_of_regains {k : Nat} {done : List (List TracedFile)}
    {files : List TracedFile} (hmade : MadeBy k done [] r)
    (hmade' : MadeBy (k + 1) (done ++ [files]) [] r') (hknown : r.knownTotals = none)
    (htraces : r.FromTraces) (htraces' : r'.FromTraces) (hregains : Regains k r r')
    (hfree : r.sessions.contains k = false) {s : Session}
    (hsessions : r'.sessions = r.sessions.insert k s) :
    UndoneButKinds r r' (r'.deleteSession k) := by
  have hlines := lineAt?_deleteSession_of_regains hregains htraces'
    (fun name n l hl => by
      have hline := hmade.lines name n
      rw [hl] at hline
      exact ⟨htraces.bare hl, hline.sessions_ne_nil, hline.reading_eq⟩)
    (fun name n l hl => by
      have hline := hmade'.lines name n
      rw [hl] at hline
      exact ⟨htraces'.bare hl, hline.sessions_ne_nil⟩)
  have hback : (r'.deleteSession k).sessions = r.sessions := by
    apply Table.ext_get?
    intro id
    rw [deleteSession, get?_sessions_deleteSessions, hsessions, Table.get?_insert]
    by_cases heq : id = k
    · rw [heq, if_pos (List.mem_singleton_self k)]
      rw [Table.contains, Option.isSome_eq_false_iff, Option.isNone_iff_eq_none] at hfree
      exact hfree.symm
    · rw [if_neg (fun hmem => heq (List.mem_singleton.1 hmem)), if_neg heq]
  have hone : [k] ≠ [] := List.cons_ne_nil k []
  have hconsistent : (r'.deleteSession k).Consistent := hmade'.consistent.deleteSessions [k]
  have hcounted : (r'.deleteSession k).Counted :=
    hmade'.counted.deleteSessions hmade'.consistent [k]
  have hstored : (r'.deleteSession k).Stored := Stored.deleteSessions hmade'.stored hone
  have htotals : r.totals.1 = r.computedTotals := by
    rw [totals, hknown]
    rfl
  have htotals' : (r'.deleteSession k).totals.1 = (r'.deleteSession k).computedTotals := by
    have hnone : (r'.deleteSession k).knownTotals = none := by
      rw [deleteSession, deleteSessions_of_ne_nil hone]
    rw [totals, hnone]
    rfl
  have hkindless := names_and_totals_of_lines Totals.sees_withoutKinds hconsistent hmade.consistent
    hcounted hmade.counted hstored hmade.stored hback fun name n => by
      rw [hlines, Option.map_map]
      rfl
  refine ⟨hkindless.1, hback, hlines, fun name n => (hregains name n).kind, ?_, fun hkinds => ?_⟩
  · rw [htotals, htotals']
    exact hkindless.2
  · have hsame : ∀ name n, (r'.deleteSession k).lineAt? name n = r.lineAt? name n := by
      intro name n
      rw [hlines]
      cases hl : r.lineAt? name n with
      | none => rfl
      | some l => rw [Option.map_some, hkinds name n l hl]
    have hall := names_and_totals_of_lines Totals.sees_all hconsistent hmade.consistent hcounted
      hmade.counted hstored hmade.stored hback fun name n => by rw [hsame]
    rw [htotals, htotals']
    exact ⟨hsame, hall.2⟩

/-- **Deleting the session of an upload undoes the upload, but for the kinds of lines.**  Uploads of
what the parser gives never fail.  After one more, taking out the session it was given leads back to
the names, the sessions, the lines without their kinds and the totals without the counts of kinds
from before; a line that had no kind keeps the one that the upload gave it. -/
theorem addUpload_deleteSession (uploads : List (List TracedFile × Upload))
    (files : List TracedFile) (upload : Upload)
    (hparsed : ∀ u ∈ uploads, ∃ bytes, TracedFile.ofBytes? bytes = .ok u.1)
    (hfiles : ∃ bytes, TracedFile.ofBytes? bytes = .ok files) :
    ∃ r summary r', addUploads {} uploads = .ok r ∧ r.addUpload files upload = .ok (summary, r') ∧
      UndoneButKinds r r' (r'.deleteSession summary.session) := by
  obtain ⟨bytes, hbytes⟩ := hfiles
  have hnonzero := TracedFile.line_ne_zero_of_ofBytes? hbytes
  obtain ⟨r, hr, hmade, hnumbers, hknown⟩ := addUploads_of_parsed hparsed
  obtain ⟨summary, r', hr', hmade', -, hknown'⟩ :=
    addUpload_of_madeBy hmade hnumbers hnonzero upload
  have htraces : r.FromTraces := by
    refine FromTraces.addUploads ⟨.empty, fun name f hf => ?_⟩ hr
    cases hf
  have hnext := nextSession_of_numbersSessions hnumbers
  have hregains := htraces.regains_addUpload hnonzero hr' fun name n l hl s hs => by
    have hline := hmade.lines name n
    rw [hl] at hline
    rw [hnext]
    exact Nat.ne_of_lt (hline.id_lt s hs)
  obtain ⟨_, _, -, hid, hlast⟩ := addUpload_cases hr'
  have hsessions := congrArg Report.sessions hlast
  rw [hnext] at hid hregains hsessions
  have hfree : r.sessions.contains uploads.length = false := by
    rw [Bool.eq_false_iff, ne_eq, hnumbers]
    exact Nat.lt_irrefl _
  refine ⟨r, summary, r', hr, hr', ?_⟩
  rw [hid]
  exact undoneButKinds_of_regains hmade hmade' hknown htraces (htraces.addUpload hr') hregains hfree
    hsessions

/-- A missed line is reached by an upload that is taken back. -/
theorem addUpload_deleteSession_missed_reached :
    (∀ u ∈ [missedUpload], ∃ bytes, TracedFile.ofBytes? bytes = .ok u.1) ∧
    (∃ bytes, TracedFile.ofBytes? bytes = .ok reachedUpload.1) ∧
    ∃ r summary r', addUploads {} [missedUpload] = .ok r ∧
      r.addUpload reachedUpload.1 reachedUpload.2 = .ok (summary, r') ∧
      UndoneButKinds r r' (r'.deleteSession summary.session) := by
  have hparsed : ∀ u ∈ [missedUpload], ∃ bytes, TracedFile.ofBytes? bytes = .ok u.1 := by
    intro u hu
    rw [List.mem_singleton.1 hu]
    exact ⟨missedBytes, by rfl⟩
  have hfiles : ∃ bytes, TracedFile.ofBytes? bytes = .ok reachedUpload.1 :=
    ⟨reachedBytes, by rfl⟩
  exact ⟨hparsed, hfiles, addUpload_deleteSession _ _ _ hparsed hfiles⟩

def branchedBytes : ByteArray :=
  ⟨#[83, 70, 58, 97, 10, 66, 82, 68, 65, 58, 49, 44, 48, 44, 48, 44, 49]⟩

def branchedUpload : List TracedFile × Upload := ([{ path := "a", arms := [⟨1, 0, 1⟩] }], {})

/-- A line that was read plainly is a branch for an upload of its arms, and stays one when the
session of that upload is taken out. -/
theorem kind_outlasts_deletion :
    (∃ bytes, TracedFile.ofBytes? bytes = .ok reachedUpload.1) ∧
    (∃ bytes, TracedFile.ofBytes? bytes = .ok branchedUpload.1) ∧
    ∃ r summary r', addUploads {} [reachedUpload] = .ok r ∧
      r.addUpload branchedUpload.1 branchedUpload.2 = .ok (summary, r') ∧
      (r.lineAt? "a" 1).map (·.kind) = some none ∧
      ((r'.deleteSession summary.session).lineAt? "a" 1).map (·.kind) = some (some .branch) ∧
      r.totals.1.branches = 0 ∧ (r'.deleteSession summary.session).totals.1.branches = 1 := by
  refine ⟨⟨reachedBytes, by rfl⟩, ⟨branchedBytes, by rfl⟩, _, _, _, rfl, rfl, ?_, ?_, ?_, ?_⟩
  · rfl
  · rfl
  · rfl
  · rfl

end Report

end CoverageLedger
