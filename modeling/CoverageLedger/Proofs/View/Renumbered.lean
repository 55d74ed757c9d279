import CoverageLedger.Proofs.Report.Renumbered
import CoverageLedger.Proofs.Report.Untagged
import CoverageLedger.View

/-!
# Views and the ids of sessions

A view chooses sessions by their flags, so that it chooses the same ones when a session gets another
id: it shows the same lines under other ids (`linesOf_ofReport`) and counts the same
(`totals_ofReport`).  `Report.changeSession_renames` puts together what renumbering a session does.
-/

namespace CoverageLedger

namespace View

/-! ## 1. One line -/

/-- What is kept of a line is renamed when the line is, if the same sessions are kept. -/
theorem restrict_renamed {σ : Nat → Nat} {ids ids' : List Nat} {l : Line} (hbacked : l.Backed)
    (hmem : ∀ id ∈ l.sessionIds, σ id ∈ ids' ↔ id ∈ ids) :
    restrict ids' (l.renamed σ) = (restrict ids l).map (Line.renamed σ) := by
  have hsessions : ((l.renamed σ).sessions.filter fun s => ids'.contains s.id) =
      (l.sessions.filter fun s => ids.contains s.id).map (LineSession.renamed σ) := by
    rw [Line.renamed, List.filter_map]
    refine congrArg _ (List.filter_congr fun s hs => ?_)
    rw [Function.comp_apply, Bool.eq_iff_iff, List.contains_iff_mem, List.contains_iff_mem]
    exact hmem s.id (Line.mem_sessionIds.2 ⟨s, hs, rfl⟩)
  have hlength : (l.renamed σ).sessions.length = l.sessions.length := List.length_map _
  have hpoints :
      ((l.renamed σ).datapoints.map fun ds => ds.filter fun d => ids'.contains d.session) =
        (l.datapoints.map fun ds => ds.filter fun d => ids.contains d.session).map fun ds =>
          ds.map (Datapoint.renamed σ) := by
    cases hds : l.datapoints with
    | none =>
      rw [Line.renamed, hds]
      rfl
    | some ds =>
      rw [Line.renamed, hds, Option.map_some, Option.map_some, Option.map_some, Option.map_some,
        List.filter_map]
      refine congrArg (some <| List.map _ ·) (List.filter_congr fun d hd => ?_)
      rw [Function.comp_apply, Bool.eq_iff_iff, List.contains_iff_mem, List.contains_iff_mem]
      exact hmem d.session (hbacked ds hds d hd)
  rw [restrict, restrict]
  simp only [hsessions, hlength, hpoints, List.isEmpty_map, List.length_map]
  split
  · rfl
  · split
    · rfl
    · rw [LineSession.readingOf_renamed, LineSession.complexityOf_renamed]
      rfl

/-! ## 2. Sessions and files -/

/-- The same view of another report. -/
def ofReport (v : View) (r : Report) : View := { v with report := r }

variable {v : View} {r' : Report} {old new : Nat} {f f' : SourceFile} {q : String}

/-- The sessions that pass are moved with the others. -/
theorem moved_sessions (h : Report.Renames old new v.report r') :
    Table.Moved old new v.sessions (v.ofReport r').sessions := by
  intro id
  show (r'.sessions.filter fun _ s => v.passes s).get? id = _
  rw [Table.get?_filter, h.sessions, sessions, Table.get?_filter, Table.get?_filter]
  split
  · rfl
  · split <;> rfl

/-- No session passes under an id that is free. -/
theorem get?_sessions_eq_none {id : Nat} (hfree : ¬ v.report.Knows id) :
    v.sessions.get? id = none := by
  rw [sessions, Table.get?_filter, Report.get?_eq_none_of_not_knows hfree]
  rfl

theorem file?_report (hf : v.file? q = some f) : v.report.file? q = some f := by
  rw [file?] at hf
  split at hf
  · exact hf
  · cases hf

/-- A path passes or does not, whatever the report. -/
theorem rel_file? (h : Report.Renames old new v.report r') (q : String) :
    Option.Rel (SourceFile.Renames (renamedId old new)) (v.file? q) ((v.ofReport r').file? q) := by
  show Option.Rel _ _ (if v.includes q then r'.file? q else none)
  rw [file?]
  split
  · exact h.files q
  · exact .none

section renumbered

variable (h : Report.Renames old new v.report r') (hr : v.report.Registered)
  (hfree : old ≠ new → ¬ v.report.Knows new)

include h hfree

/-- The same sessions pass. -/
theorem renamedId_mem_keys_iff {id : Nat} (hid : v.report.Knows id) :
    renamedId old new id ∈ (v.ofReport r').sessions.keys ↔ id ∈ v.sessions.keys := by
  rw [Table.mem_keys_iff, Table.mem_keys_iff,
    (moved_sessions h).get?_renamedId (Report.eq_or_ne_of_knows hfree hid)]

/-- Only a session that passes alone lends its totals. -/
theorem sessionTotals?_ofReport : (v.ofReport r').sessionTotals? = v.sessionTotals? := by
  have hperm := (moved_sessions h).values_perm fun hne => get?_sessions_eq_none (hfree hne)
  unfold sessionTotals?
  generalize (v.ofReport r').sessions.values = after at hperm
  generalize v.sessions.values = before at hperm
  clear h hfree
  obtain ⟨report, options, paths, flags⟩ := v
  -- no session passes, one does, or there are more before and afterwards
  rcases before with _ | ⟨s, _ | ⟨t, rest⟩⟩
  · rw [hperm.eq_nil]
    rfl
  · rw [List.perm_singleton.1 hperm]
    rfl
  · have hlength := hperm.length_eq
    rcases after with _ | ⟨s', _ | ⟨t', rest'⟩⟩
    · cases hlength
    · cases hlength
    · rcases flags with _ | ⟨_ | ⟨flag, _ | _⟩, _ | _⟩ <;> rfl

theorem size_sessions_ofReport : (v.ofReport r').sessions.size = v.sessions.size :=
  (moved_sessions h).size fun hne => get?_sessions_eq_none (hfree hne)

include hr

theorem shown_renamed (hf : v.report.file? q = some f) {n : Nat} {l : Line}
    (hl : f.lines.get? n = some l) : (v.ofReport r').shown (l.renamed (renamedId old new)) =
      (v.shown l).map (Line.renamed (renamedId old new)) := by
  by_cases hflags : v.hasFlagFilter = true
  · have hids : v.sessionIds? = some v.sessions.keys := if_pos hflags
    have hids' : (v.ofReport r').sessionIds? = some (v.ofReport r').sessions.keys := if_pos hflags
    rw [shown, shown, hids, hids']
    exact restrict_renamed (hr.backed q f hf n l hl) fun id hid =>
      renamedId_mem_keys_iff h hfree (hr.lines q f hf n l hl id hid)
  · have hids : v.sessionIds? = none := if_neg hflags
    have hids' : (v.ofReport r').sessionIds? = none := if_neg hflags
    rw [shown, shown, hids, hids']
    rfl

/-- **Under other ids, a view shows the same lines.** -/
theorem linesOf_ofReport (hf : v.report.file? q = some f)
    (hfile : SourceFile.Renames (renamedId old new) f f') :
    (v.ofReport r').linesOf f' = (v.linesOf f).map fun _ l => l.renamed (renamedId old new) := by
  apply Table.ext_get?
  intro n
  rw [linesOf, linesOf, Table.get?_filterMap, Table.get?_map, Table.get?_filterMap, hfile.get?]
  cases hl : f.lines.get? n with
  | none => rfl
  | some l => exact shown_renamed h hr hfree hf hl

theorem totalsOf_ofReport (hf : v.report.file? q = some f)
    (hfile : SourceFile.Renames (renamedId old new) f f') :
    (v.ofReport r').totalsOf f' = v.totalsOf f := by
  rw [totalsOf, totalsOf, linesOf_ofReport h hr hfree hf hfile, Table.values_map]
  refine Totals.ofLines_congr_alone ?_
  rw [List.map_map]
  rfl

theorem contains_ofReport (q : String) : (v.ofReport r').contains q = v.contains q := by
  have hany (o : Option SourceFile) (p : SourceFile → Bool) : o.any p = (o.map p).getD false := by
    cases o <;> rfl
  rw [contains, contains, hany, hany]
  refine congrArg (·.getD false) (map_eq_of_rel (rel_file? h q) fun f f' hf hfile => ?_)
  rw [linesOf_ofReport h hr hfree (file?_report hf) hfile, Table.isEmpty, Table.map,
    List.isEmpty_map]
  rfl

theorem names_ofReport : (v.ofReport r').names = v.names := by
  rw [names, names]
  show r'.names.filter (fun name => v.includes name &&
    (!v.hasFlagFilter || (v.ofReport r').contains name)) = _
  simp only [h.names, contains_ofReport h hr hfree]

theorem fileTotals?_ofReport (hr' : r'.Registered) (q : String) :
    (v.ofReport r').fileTotals? q = v.fileTotals? q := by
  show (if v.hasFlagFilter then ((v.ofReport r').file? q).map (v.ofReport r').totalsOf
    else r'.fileTotals? q) = _
  rw [fileTotals?, h.fileTotals? hr hr']
  split
  · exact map_eq_of_rel (rel_file? h q) fun f f' hf hfile =>
      totalsOf_ofReport h hr hfree (file?_report hf) hfile
  · rfl

/-- **Under other ids, a view has the same totals.** -/
theorem totals_ofReport (hr' : r'.Registered) : (v.ofReport r').totals = v.totals := by
  rw [totals, totals, sessionTotals?_ofReport h hfree, computedTotals, computedTotals,
    names_ofReport h hr hfree, size_sessions_ofReport h hfree,
    funext (fileTotals?_ofReport h hr hfree hr')]

end renumbered

end View

namespace Report

variable {r : Report}

/-- A report of one file is registered when its line has no other sessions than the report. -/
theorem registered_reportOf {k : Line} (hbacked : k.Backed) (hids : ∀ id ∈ k.sessionIds, id < 2) :
    (reportOf k).Registered := by
  have hknows {id : Nat} (hid : id ∈ k.sessionIds) : (reportOf k).Knows id := by
    have hlt := hids id hid
    obtain rfl | rfl : id = 0 ∨ id = 1 := by omega
    · rfl
    · rfl
  have hlines {f : SourceFile} (hf : f = { name := "a", content := .lines (.ofList [(1, k)]) })
      {n : Nat} {l : Line} (hl : f.lines.get? n = some l) : l = k := by
    rw [hf] at hl
    exact congrArg Prod.snd (List.mem_singleton.1 ((Table.get?_eq_some_iff _).1 hl))
  have hentry {q : String} {e : FileEntry} (he : (reportOf k).files.get? q = some e) :
      e = .ofFile 0 { name := "a", content := .lines (.ofList [(1, k)]) } :=
    congrArg Prod.snd (List.mem_singleton.1 ((Table.get?_eq_some_iff _).1 he))
  refine ⟨?_, ?_, ?_, ?_, ?_⟩
  · intro q f hf n l hl id hid
    rw [hlines (file?_reportOf hf) hl] at hid
    exact hknows hid
  · intro q e he id hid
    rw [hentry he, FileEntry.ofFile, SourceFile.ids_sessionTotals, SourceFile.mem_idsOfLines] at hid
    obtain ⟨n, l, hl, hid⟩ := hid
    rw [hlines rfl hl] at hid
    exact hknows hid
  · intro q e f he hf
    rw [hentry he, file?_reportOf hf]
    rfl
  · intro q f hf n l hl
    rw [hlines (file?_reportOf hf) hl]
    exact hbacked
  · intro q f hf
    rw [file?_reportOf hf]
    rfl

/-- **Renumbering a session renames it everywhere and changes nothing else.**  It fails exactly
where there is no session of the old id or another one has the new id.  Otherwise no line, no total
and no view counts anything else than before (if totals that were computed earlier are right, as in
every report that is `Reached`), and the session can be given its old id again, which brings back
what there was. -/
theorem changeSession_renames (h : r.Registered) (old new : Nat) :
    ((∃ e, r.changeSession old new = .error e) ↔ ¬ r.Knows old ∨ new ≠ old ∧ r.Knows new) ∧
      ∀ r', r.changeSession old new = .ok r' →
        r.Renames old new r' ∧ (∀ q, r'.fileTotals? q = r.fileTotals? q) ∧
        (r.KeepsTotals → r'.totals.1 = r.totals.1) ∧
        (∀ v : View, v.report = r → (v.ofReport r').totals = v.totals) ∧
        (∀ q n l l', r.lineAt? q n = some l → r'.lineAt? q n = some l' →
          l.sessionIds.Nodup → l'.sessionIds.Nodup) ∧
        ∃ r'', r'.changeSession new old = .ok r'' ∧ r''.sessions = r.sessions ∧
          (∀ q, (r''.file? q).map SourceFile.lines = (r.file? q).map SourceFile.lines) ∧
          ∀ q, (r''.files.get? q).map (·.sessionTotals.byId) =
            (r.files.get? q).map (·.sessionTotals.byId) := by
  refine ⟨changeSession_eq_error_iff, fun r' hok => ?_⟩
  obtain ⟨hold, hfree⟩ := knows_of_changeSession hok
  have hrenames : r.Renames old new r' := h.renames hok
  have h' : r'.Registered := hrenames.registered h hold hfree
  obtain ⟨r'', hback⟩ := hrenames.exists_back hold
  refine ⟨hrenames, hrenames.fileTotals? h h', fun hkeeps => ?_, ?_, ?_, r'', hback, ?_⟩
  · rw [hkeeps.fst_totals, (hkeeps.of_forgets (forgets_changeSession hok)).fst_totals,
      hrenames.computedTotals h h' hfree]
  · rintro v rfl
    exact View.totals_ofReport hrenames h hfree h'
  · exact fun q n l l' => hrenames.nodup h hfree
  · exact hrenames.back (h'.renames hback) h hfree

/-- Of two sessions on a line, the one that missed it is put under another id. -/
theorem changeSession_renames_missed_run :
    let r := reportOf (labelledPair { id := 0, reading := .miss } { id := 1, reading := .hit .one })
    r.Registered ∧ ∃ r', r.changeSession 0 7 = .ok r' ∧
      (r'.lineAt? "a" 1).map (·.sessionIds) = some [7, 1] ∧ r'.totals.1 = r.totals.1 := by
  intro r
  have hr : r.Registered := by
    refine registered_reportOf ?_ (by decide)
    intro ds hds
    obtain rfl := Option.some.inj hds
    decide
  have hok : ∃ r', r.changeSession 0 7 = .ok r' := ⟨_, rfl⟩
  obtain ⟨r', hok⟩ := hok
  obtain ⟨-, hall⟩ := changeSession_renames hr 0 7
  obtain ⟨hrenames, -, htotals, -⟩ := hall r' hok
  refine ⟨hr, r', hok, ?_, htotals (.of_none rfl)⟩
  rw [hrenames.lineAt?]
  rfl

end Report

end CoverageLedger
