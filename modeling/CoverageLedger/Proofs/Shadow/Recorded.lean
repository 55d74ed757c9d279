import CoverageLedger.Proofs.Shadow.Calls

/-!
# What an analyzer is given

`Analyzer.recorded` is an analyzer that keeps with a handle what it was parsed from, and writes down
which handles it is given. `Shadow.call_told` says of one call that these were parsed from the
report as it is now, or as its handle had it, and `Shadow.call_unrecorded` that the records change
nothing.
-/

namespace CoverageLedger

/-! ## 1. What handles are parsed from -/

/-- What an analyzer parses: the slots of the files, the archive and the flags of the sessions. -/
structure Origin where
  slots : Table String Nat
  archive : String
  flags : Table Nat (List String)

def Report.origin (r : Report) : Origin where
  slots := r.files.map fun _ e => e.slot
  archive := r.archive false
  flags := r.sessions.map fun _ session => session.flags

/-- Totals of a diff in the manifest are not seen by an analyzer. -/
theorem Report.origin_withDiffTotals (r : Report) (t : DiffTotals) :
    (r.withDiffTotals t).origin = r.origin := by
  have hslots : (r.withDiffTotals t).files.map (fun _ e => e.slot) =
      r.files.map fun _ e => e.slot := by
    apply Table.ext_get?
    intro k
    rw [Table.get?_map, Table.get?_map, withDiffTotals, Table.get?_map, Option.map_map]
    congr 1
    funext e
    simp only [Function.comp_apply]
    split <;> rfl
  exact congrArg (fun slots => (⟨slots, r.archive false, _⟩ : Origin)) hslots

/-- What an analyzer was asked, by the handles that it was given. -/
inductive Asked where
  | about (handle : Origin)
  | diff (base head : Origin)

/-- The handle of the report that is asked about has one property, and that of the base another. -/
def Asked.Meets (P Q : Origin → Prop) : Asked → Prop
  | .about handle => P handle
  | .diff base head => Q base ∧ P head

variable {σ η : Type}

/-- An analyzer that keeps with a handle what it was parsed from, and writes down which handles it
is given. -/
def Analyzer.recorded (a : Analyzer σ η) : Analyzer (σ × List Asked) (η × Origin) where
  parse slots archive flags w :=
    let (handle, state) := a.parse slots archive flags w.1
    (handle.map fun h => (h, ⟨slots, archive, flags⟩), state, w.2)
  totals handle w :=
    let (answer, state) := a.totals handle.1 w.1
    (answer, state, w.2 ++ [.about handle.2])
  filtered handle paths flags w :=
    let (answer, state) := a.filtered handle.1 paths flags w.1
    (answer, state, w.2 ++ [.about handle.2])
  diff base head d w :=
    let (answer, state) := a.diff base.1 head.1 d w.1
    (answer, state, w.2 ++ [.diff base.2 head.2])

/-- The questions that were written down between two states of the record, all of which were put
with handles that have some properties. -/
def Told (P Q : Origin → Prop) (before after : List Asked) : Prop :=
  ∃ asked, after = before ++ asked ∧ ∀ question ∈ asked, question.Meets P Q

theorem Told.none {P Q : Origin → Prop} (asked : List Asked) : Told P Q asked asked :=
  ⟨[], (List.append_nil _).symm, nofun⟩

theorem Told.one {P Q : Origin → Prop} (asked : List Asked) {question : Asked}
    (h : question.Meets P Q) : Told P Q asked (asked ++ [question]) := by
  refine ⟨[question], rfl, fun other hother => ?_⟩
  rw [List.mem_singleton.1 hother]
  exact h

namespace Shadow

variable {a : Analyzer σ η} {s : Shadow (η × Origin)} {w : σ × List Asked} {d : Diff}
  {paths flags : List String} {P Q : Origin → Prop}

/-- The handle of a report, if it has one, was parsed from something with a property. -/
def ParsedFrom (P : Origin → Prop) (s : Shadow (η × Origin)) : Prop :=
  ∀ handle, s.handle = some (some handle) → P handle.2

theorem open?_told (hparsed : s.ParsedFrom P) (hnow : P s.report.origin) :
    (open? a.recorded s w).2.1.ParsedFrom P ∧
      (∀ handle, (open? a.recorded s w).1 = some handle → P handle.2) ∧
      (open? a.recorded s w).2.2.2 = w.2 := by
  unfold open?
  split
  · exact ⟨hparsed, nofun, rfl⟩
  split
  · rename_i handle hhandle
    exact ⟨hparsed, fun h hh => hparsed h (hhandle.trans (congrArg some hh)), rfl⟩
  · have hnew : ∀ handle, (a.recorded.parse (s.report.files.map fun _ e => e.slot)
        (s.report.archive false) (s.report.sessions.map fun _ session => session.flags) w).1 =
          some handle → P handle.2 := by
      intro handle hhandle
      obtain ⟨h, -, rfl⟩ := Option.map_eq_some_iff.1 hhandle
      exact hnow
    exact ⟨fun handle hhandle => hnew handle (Option.some.inj hhandle), hnew, rfl⟩

theorem ParsedFrom.compare (hparsed : s.ParsedFrom P) (answer : Option Totals) (computed : Totals) :
    (s.compare answer computed).ParsedFrom P := by
  intro handle hhandle
  have hkeeps : (s.compare answer computed).handle = s.handle := by
    unfold Shadow.compare
    split <;> rfl
  rw [hkeeps] at hhandle
  exact hparsed handle hhandle

/-- A question writes down the handle that it is asked with. -/
def AsksAbout (question : η × Origin → σ × List Asked → Option Totals × σ × List Asked) : Prop :=
  ∀ (P : Origin → Prop) handle w, P handle.2 → Told P P w.2 (question handle w).2.2

theorem asksAbout_totals : AsksAbout a.recorded.totals := by
  intro P handle w h
  exact Told.one w.2 (show Asked.Meets P P (.about handle.2) from h)

theorem asksAbout_filtered :
    AsksAbout fun handle => a.recorded.filtered handle paths flags := by
  intro P handle w h
  exact Told.one w.2 (show Asked.Meets P P (.about handle.2) from h)

theorem asksAbout_diffQuestion :
    AsksAbout fun handle => diffQuestion a.recorded d handle handle := by
  intro P handle w h
  exact Told.one w.2 (show Asked.Meets P P (.diff handle.2 handle.2) from ⟨h, h⟩)

theorem check_told {question : η × Origin → σ × List Asked → Option Totals × σ × List Asked}
    (hquestion : AsksAbout question) (computed : Totals)
    (hparsed : s.ParsedFrom P) (hnow : P s.report.origin) :
    (check a.recorded question computed s w).1.ParsedFrom P ∧
      Told P P w.2 (check a.recorded question computed s w).2.2 := by
  obtain ⟨hopened, hhandle, hlog⟩ := open?_told (a := a) (w := w) hparsed hnow
  unfold check
  split
  · rename_i handle s' w' heq
    rw [heq] at hopened hhandle hlog
    have htold := hquestion P handle w' (hhandle handle rfl)
    rw [show w'.2 = w.2 from hlog] at htold
    exact ⟨hopened.compare _ _, htold⟩
  · rename_i heq
    rw [heq] at hopened hlog
    refine ⟨hopened, ?_⟩
    rw [hlog]
    exact .none _

theorem checkAgainst_told {base : Shadow (η × Origin)} (computed : Totals)
    (hparsed : s.ParsedFrom P) (hnow : P s.report.origin) (hbase : base.ParsedFrom Q)
    (hbasenow : Q base.report.origin) :
    (checkAgainst a.recorded d computed s base w).1.ParsedFrom P ∧
      (checkAgainst a.recorded d computed s base w).2.1.ParsedFrom Q ∧
      Told P Q w.2 (checkAgainst a.recorded d computed s base w).2.2.2 := by
  obtain ⟨hopened, hhead, hlog⟩ := open?_told (a := a) (w := w) hparsed hnow
  rcases h : open? a.recorded s w with ⟨head, s', w'⟩
  rw [h] at hopened hhead hlog
  cases head with
  | none =>
    rw [checkAgainst_of_none h]
    refine ⟨hopened, hbase, ?_⟩
    rw [show w'.2 = w.2 from hlog]
    exact .none _
  | some head =>
    obtain ⟨hbaseopened, hother, hbaselog⟩ := open?_told (a := a) (w := w') hbase hbasenow
    rcases hb : open? a.recorded base w' with ⟨other, base', w''⟩
    rw [hb] at hbaseopened hother hbaselog
    have hsame : w''.2 = w.2 := hbaselog.trans hlog
    cases other with
    | none =>
      rw [checkAgainst_of_base_none h hb]
      refine ⟨hopened, hbaseopened, ?_⟩
      rw [hsame]
      exact .none _
    | some other =>
      rw [checkAgainst_of_some h hb]
      have hasked : Asked.Meets P Q (.diff other.2 head.2) := ⟨hother other rfl, hhead head rfl⟩
      have htold := Told.one w''.2 hasked
      rw [← hsame]
      exact ⟨hopened.compare _ _, hbaseopened, htold⟩

theorem totals_told (hparsed : s.ParsedFrom P)
    (hnow : P (totals a.recorded s w).2.1.report.origin) :
    (totals a.recorded s w).2.1.ParsedFrom P ∧ Told P P w.2 (totals a.recorded s w).2.2.2 := by
  cases h : s.known with
  | some t => rw [totals_of_known h]; exact ⟨hparsed, .none _⟩
  | none =>
    rw [totals_of_unknown h] at hnow ⊢
    rw [report_check] at hnow
    exact check_told asksAbout_totals _ hparsed hnow

theorem calculateDiff_told (hparsed : s.ParsedFrom P)
    (hnow : P (calculateDiff a.recorded d s w).2.1.report.origin) :
    (calculateDiff a.recorded d s w).2.1.ParsedFrom P ∧
      Told P P w.2 (calculateDiff a.recorded d s w).2.2.2 := by
  cases h : s.knownDiff with
  | some t => rw [calculateDiff_of_known h]; exact ⟨hparsed, .none _⟩
  | none =>
    rw [calculateDiff_of_unknown h] at hnow ⊢
    rw [report_check] at hnow
    exact check_told asksAbout_diffQuestion _ hparsed hnow

theorem filteredAnswer_told [PatternLanguage] (hparsed : s.ParsedFrom P)
    (hnow : P (filteredAnswer a.recorded paths flags s w).2.1.report.origin) :
    (filteredAnswer a.recorded paths flags s w).2.1.ParsedFrom P ∧
      Told P P w.2 (filteredAnswer a.recorded paths flags s w).2.2.2 := by
  by_cases hpart : (paths.isEmpty && flags.isEmpty) = true
  · rw [filteredAnswer_of_whole hpart] at hnow ⊢
    exact totals_told hparsed hnow
  cases h : s.knownView? paths flags with
  | some t => rw [filteredAnswer_of_known hpart h]; exact ⟨hparsed, .none _⟩
  | none =>
    cases hv : s.whole.narrow paths flags with
    | error e => rw [filteredAnswer_of_unreadable hpart h hv]; exact ⟨hparsed, .none _⟩
    | ok v =>
      rw [filteredAnswer_of_view hpart h hv] at hnow ⊢
      rw [report_check] at hnow
      exact check_told asksAbout_filtered _ hparsed hnow

theorem calculateDiffAgainst_told {base : Shadow (η × Origin)} (hparsed : s.ParsedFrom P)
    (hnow : P (calculateDiffAgainst a.recorded d s base w).2.1.report.origin)
    (hbase : base.ParsedFrom Q)
    (hbasenow : Q (calculateDiffAgainst a.recorded d s base w).2.2.1.report.origin) :
    (calculateDiffAgainst a.recorded d s base w).2.1.ParsedFrom P ∧
      (calculateDiffAgainst a.recorded d s base w).2.2.1.ParsedFrom Q ∧
      Told P Q w.2 (calculateDiffAgainst a.recorded d s base w).2.2.2.2 := by
  cases h : s.knownDiff with
  | some t =>
    rw [calculateDiffAgainst_of_known h]
    exact ⟨hparsed, hbase, .none _⟩
  | none =>
    rw [calculateDiffAgainst_of_unknown h] at hnow hbasenow ⊢
    obtain ⟨hs, hb⟩ := unwatched_checkAgainst (a := a.recorded) (w := w) (d := d)
      (s := { s with report := s.report.afterDiff d }) (s.report.diffTotals d).totals base
    rw [(Shadow.mk.inj hs).1] at hnow
    rw [(Shadow.mk.inj hb).1] at hbasenow
    exact checkAgainst_told _ hparsed hnow hbase hbasenow

/-- **A call asks about the report as it is, or as its handle had it**, unless it changed the
report: then there is no handle. -/
theorem call_told [PatternLanguage] (c : ShadowCall)
    (hparsed : (call a.recorded s w c).1 ≠ .appended true → s.ParsedFrom P)
    (hnow : P (call a.recorded s w c).2.1.report.origin) :
    (call a.recorded s w c).2.1.ParsedFrom P ∧ Told P P w.2 (call a.recorded s w c).2.2.2 := by
  cases c with
  | totals => exact totals_told (hparsed fun h => by cases h) hnow
  | filteredTotals paths flags =>
    refine filteredAnswer_told (hparsed fun h => ?_) hnow
    rw [call, filteredAnswer] at h
    split at h <;> cases h
  | calculateDiff d => exact calculateDiff_told (hparsed fun h => by cases h) hnow
  | applyDiff d =>
    have hparsed := hparsed fun h => by cases h
    rw [call] at hnow ⊢
    by_cases hempty : d.files.isEmpty = true
    · rw [applyDiff_of_empty hempty]
      exact ⟨hparsed, .none _⟩
    · rw [applyDiff_of_files hempty] at hnow ⊢
      -- the totals that are stored are not part of what is parsed
      rw [recordDiff, Report.origin_withDiffTotals] at hnow
      exact calculateDiff_told hparsed hnow
  | append f joined =>
    refine ⟨?_, .none _⟩
    rcases append_cases s f joined with ⟨-, hhandle, -⟩ | ⟨hfalse, hhandle, -⟩
    · intro handle h
      cases hhandle.symm.trans h
    · intro handle h
      refine hparsed (fun htrue => ?_) handle (hhandle.symm.trans h)
      rw [call, hfalse] at htrue
      cases htrue

/-! ## 2. Records are not noticed -/

/-- The report as the analyzer without records watches it. -/
def unrecorded (s : Shadow (η × Origin)) : Shadow η :=
  { s with handle := s.handle.map (Option.map Prod.fst) }

theorem open?_unrecorded :
    open? a s.unrecorded w.1 = ((open? a.recorded s w).1.map Prod.fst,
      (open? a.recorded s w).2.1.unrecorded, (open? a.recorded s w).2.2.1) := by
  rcases s with ⟨report, active, options, known, knownViews, knownDiff, handle, mismatches⟩
  cases active with
  | false => rfl
  | true =>
    cases handle with
    | some handle => rfl
    | none => simp [open?, unrecorded, Analyzer.recorded, Function.comp_def]

theorem compare_unrecorded (answer : Option Totals) (computed : Totals) :
    s.unrecorded.compare answer computed = (s.compare answer computed).unrecorded := by
  unfold compare
  split <;> rfl

/-- A question put to an analyzer with records is the question put without them. -/
def AsksAs (question' : η × Origin → σ × List Asked → Option Totals × σ × List Asked)
    (question : η → σ → Option Totals × σ) : Prop :=
  ∀ handle w, question handle.1 w.1 = ((question' handle w).1, (question' handle w).2.1)

theorem asksAs_totals : AsksAs a.recorded.totals a.totals := fun _ _ => rfl

theorem asksAs_filtered : AsksAs (fun handle => a.recorded.filtered handle paths flags)
    fun handle => a.filtered handle paths flags := fun _ _ => rfl

theorem asksAs_diffQuestion : AsksAs (fun handle => diffQuestion a.recorded d handle handle)
    fun handle => diffQuestion a d handle handle := fun _ _ => rfl

theorem check_unrecorded {question' : η × Origin → σ × List Asked → Option Totals × σ × List Asked}
    {question : η → σ → Option Totals × σ} (hquestion : AsksAs question' question)
    (computed : Totals) :
    check a question computed s.unrecorded w.1 =
      ((check a.recorded question' computed s w).1.unrecorded,
        (check a.recorded question' computed s w).2.1) := by
  unfold check
  rw [open?_unrecorded]
  rcases open? a.recorded s w with ⟨handle, s', w'⟩
  cases handle with
  | none => rfl
  | some handle =>
    show (Shadow.compare _ (question handle.1 w'.1).1 computed, (question handle.1 w'.1).2) = _
    rw [hquestion handle w', compare_unrecorded]

theorem checkAgainst_unrecorded (base : Shadow (η × Origin)) (computed : Totals) :
    checkAgainst a d computed s.unrecorded base.unrecorded w.1 =
      ((checkAgainst a.recorded d computed s base w).1.unrecorded,
        (checkAgainst a.recorded d computed s base w).2.1.unrecorded,
        (checkAgainst a.recorded d computed s base w).2.2.1) := by
  rcases h : open? a.recorded s w with ⟨head, s', w'⟩
  have hs := open?_unrecorded (a := a) (s := s) (w := w)
  rw [h] at hs
  cases head with
  | none => rw [checkAgainst_of_none h, checkAgainst_of_none hs]
  | some head =>
    rcases hbase : open? a.recorded base w' with ⟨other, base', w''⟩
    have hb := open?_unrecorded (a := a) (s := base) (w := w')
    rw [hbase] at hb
    cases other with
    | none => rw [checkAgainst_of_base_none h hbase, checkAgainst_of_base_none hs hb]
    | some other =>
      rw [checkAgainst_of_some h hbase, checkAgainst_of_some hs hb, compare_unrecorded]
      rfl

theorem totals_unrecorded :
    totals a s.unrecorded w.1 = ((totals a.recorded s w).1, (totals a.recorded s w).2.1.unrecorded,
      (totals a.recorded s w).2.2.1) := by
  cases h : s.known with
  | some t => rw [totals_of_known h, totals_of_known (s := s.unrecorded) h]
  | none =>
    rw [totals_of_unknown h, totals_of_unknown (s := s.unrecorded) h]
    exact congrArg (Prod.mk _)
      (check_unrecorded (s := { s with report := s.report.totals.2 }) asksAs_totals _)

theorem calculateDiff_unrecorded :
    calculateDiff a d s.unrecorded w.1 = ((calculateDiff a.recorded d s w).1,
      (calculateDiff a.recorded d s w).2.1.unrecorded, (calculateDiff a.recorded d s w).2.2.1) := by
  cases h : s.knownDiff with
  | some t => rw [calculateDiff_of_known h, calculateDiff_of_known (s := s.unrecorded) h]
  | none =>
    rw [calculateDiff_of_unknown h, calculateDiff_of_unknown (s := s.unrecorded) h]
    exact congrArg (Prod.mk _)
      (check_unrecorded (s := { s with report := s.report.afterDiff d }) asksAs_diffQuestion _)

theorem calculateDiffAgainst_unrecorded (base : Shadow (η × Origin)) :
    calculateDiffAgainst a d s.unrecorded base.unrecorded w.1 =
      ((calculateDiffAgainst a.recorded d s base w).1,
        (calculateDiffAgainst a.recorded d s base w).2.1.unrecorded,
        (calculateDiffAgainst a.recorded d s base w).2.2.1.unrecorded,
        (calculateDiffAgainst a.recorded d s base w).2.2.2.1) := by
  cases h : s.knownDiff with
  | some t =>
    rw [calculateDiffAgainst_of_known h, calculateDiffAgainst_of_known (s := s.unrecorded) h]
  | none =>
    rw [calculateDiffAgainst_of_unknown h, calculateDiffAgainst_of_unknown (s := s.unrecorded) h]
    exact congrArg (Prod.mk _)
      (checkAgainst_unrecorded (s := { s with report := s.report.afterDiff d }) base _)

theorem filteredAnswer_unrecorded [PatternLanguage] :
    filteredAnswer a paths flags s.unrecorded w.1 = ((filteredAnswer a.recorded paths flags s w).1,
      (filteredAnswer a.recorded paths flags s w).2.1.unrecorded,
      (filteredAnswer a.recorded paths flags s w).2.2.1) := by
  by_cases hpart : (paths.isEmpty && flags.isEmpty) = true
  · rw [filteredAnswer_of_whole hpart, filteredAnswer_of_whole hpart, totals_unrecorded]
  cases h : s.knownView? paths flags with
  | some t =>
    rw [filteredAnswer_of_known hpart h, filteredAnswer_of_known (s := s.unrecorded) hpart h]
  | none =>
    cases hv : s.whole.narrow paths flags with
    | error e =>
      rw [filteredAnswer_of_unreadable hpart h hv,
        filteredAnswer_of_unreadable (s := s.unrecorded) hpart h hv]
    | ok v =>
      rw [filteredAnswer_of_view hpart h hv, filteredAnswer_of_view (s := s.unrecorded) hpart h hv]
      exact congrArg (Prod.mk _)
        (check_unrecorded (s := { s with report := v.afterTotals.report }) asksAs_filtered _)

theorem append_unrecorded (f : SourceFile) (joined : Bool) :
    s.unrecorded.append f joined = ((s.append f joined).1, (s.append f joined).2.unrecorded) := by
  rcases h : s.report.append f joined with ⟨changed, report⟩
  cases changed with
  | true => rw [append_of_true h, append_of_true (s := s.unrecorded) h]; rfl
  | false => rw [append_of_false h, append_of_false (s := s.unrecorded) h]; rfl

/-- **A call with records is the call without them**, also in what becomes of the analyzer. -/
theorem call_unrecorded [PatternLanguage] (c : ShadowCall) :
    call a s.unrecorded w.1 c = ((call a.recorded s w c).1, (call a.recorded s w c).2.1.unrecorded,
      (call a.recorded s w c).2.2.1) := by
  cases c with
  | totals => rw [call, totals_unrecorded]; rfl
  | filteredTotals paths flags => exact filteredAnswer_unrecorded
  | calculateDiff d => rw [call, calculateDiff_unrecorded]; rfl
  | applyDiff d =>
    rw [call]
    by_cases hempty : d.files.isEmpty = true
    · rw [applyDiff_of_empty hempty, call, applyDiff_of_empty hempty]
    · rw [applyDiff_of_files hempty, call, applyDiff_of_files hempty, calculateDiff_unrecorded]
      rfl
  | append f joined => rw [call, append_unrecorded]; rfl

end Shadow

end CoverageLedger
