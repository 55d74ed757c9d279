import CoverageLedger.Shadow

/-!
# Calls on a report with an analyzer

`Shadow.call` is one call on a report that may be watched. An equation for each call says what is
computed and when the analyzer is asked. `Shadow.call_unwatched` says that the answer, the report
and the totals known beforehand are those of the same call without an analyzer, and
`Shadow.call_answer` that the answer is what is known, or else what the report alone gives.
-/

namespace CoverageLedger

/-! ## 1. Calls on one report -/

/-- What is asked of a report that may be watched. -/
inductive ShadowCall where
  | totals
  | filteredTotals (paths flags : List String)
  | calculateDiff (d : Diff)
  | applyDiff (d : Diff)
  | append (f : SourceFile) (joined : Bool)

inductive ShadowAnswer where
  | totals (t : Totals)
  | refused (e : Error)
  | diffTotals (t : DiffTotals)
  | diffApplied (t : Option Totals) (d : Diff)
  | appended (changed : Bool)

namespace Shadow

variable {σ σ' η : Type} {a : Analyzer σ η} {s : Shadow η} {w : σ} {d : Diff}
  {paths flags : List String}

/-- The totals of a view as an answer; a pattern that cannot be read leaves everything as it was. -/
def filteredAnswer [PatternLanguage] (a : Analyzer σ η) (paths flags : List String)
    (s : Shadow η) (w : σ) : ShadowAnswer × Shadow η × σ :=
  match filteredTotals a paths flags s w with
  | .ok (t, s, w) => (.totals t, s, w)
  | .error e => (.refused e, s, w)

def call [PatternLanguage] (a : Analyzer σ η) (s : Shadow η) (w : σ) :
    ShadowCall → ShadowAnswer × Shadow η × σ
  | .totals => (.totals (totals a s w).1, (totals a s w).2)
  | .filteredTotals paths flags => filteredAnswer a paths flags s w
  | .calculateDiff d => (.diffTotals (calculateDiff a d s w).1, (calculateDiff a d s w).2)
  | .applyDiff d =>
    (.diffApplied (applyDiff a d s w).1 (applyDiff a d s w).2.1, (applyDiff a d s w).2.2)
  | .append f joined => (.appended (s.append f joined).1, (s.append f joined).2, w)

theorem totals_of_known {t : Totals} (h : s.known = some t) : totals a s w = (t, s, w) := by
  rw [totals, h]

theorem totals_of_unknown (h : s.known = none) :
    totals a s w = (s.report.totals.1,
      check a a.totals s.report.totals.1 { s with report := s.report.totals.2 } w) := by
  rw [totals, h]

theorem filteredAnswer_of_whole [PatternLanguage]
    (h : (paths.isEmpty && flags.isEmpty) = true) :
    filteredAnswer a paths flags s w = (.totals (totals a s w).1, (totals a s w).2) := by
  rw [filteredAnswer, filteredTotals, if_pos h]

theorem filteredAnswer_of_known [PatternLanguage]
    (hpart : ¬(paths.isEmpty && flags.isEmpty) = true) {t : Totals}
    (h : s.knownView? paths flags = some t) :
    filteredAnswer a paths flags s w = (.totals t, s, w) := by
  rw [filteredAnswer, filteredTotals, if_neg hpart, h]

/-- The whole report, as the views of it start. -/
def whole (s : Shadow η) : View := { report := s.report, options := s.options }

theorem filteredAnswer_of_unreadable [PatternLanguage]
    (hpart : ¬(paths.isEmpty && flags.isEmpty) = true)
    (h : s.knownView? paths flags = none) {e : Error} (he : s.whole.narrow paths flags = .error e) :
    filteredAnswer a paths flags s w = (.refused e, s, w) := by
  have hfiltered : filteredTotals a paths flags s w = .error e := by
    rw [filteredTotals, if_neg hpart, h]
    show (s.whole.narrow paths flags >>= _) = _
    rw [he]
    rfl
  rw [filteredAnswer, hfiltered]

theorem filteredAnswer_of_view [PatternLanguage]
    (hpart : ¬(paths.isEmpty && flags.isEmpty) = true)
    (h : s.knownView? paths flags = none) {v : View} (hv : s.whole.narrow paths flags = .ok v) :
    filteredAnswer a paths flags s w = (.totals v.totals,
      check a (fun handle => a.filtered handle paths flags) v.totals
        { s with report := v.afterTotals.report } w) := by
  have hfiltered : filteredTotals a paths flags s w = .ok (v.totals,
      check a (fun handle => a.filtered handle paths flags) v.totals
        { s with report := v.afterTotals.report } w) := by
    rw [filteredTotals, if_neg hpart, h]
    show (s.whole.narrow paths flags >>= _) = _
    rw [hv]
    rfl
  rw [filteredAnswer, hfiltered]

theorem calculateDiff_of_known {t : DiffTotals} (h : s.knownDiff = some t) :
    calculateDiff a d s w = (t, s, w) := by
  rw [calculateDiff, h]

theorem calculateDiff_of_unknown (h : s.knownDiff = none) :
    calculateDiff a d s w = (s.report.diffTotals d,
      check a (fun handle => diffQuestion a d handle handle) (s.report.diffTotals d).totals
        { s with report := s.report.afterDiff d } w) := by
  rw [calculateDiff, h]
  rfl

/-- A report in whose manifest the totals of a diff are stored. -/
def recordDiff (s : Shadow η) (t : DiffTotals) : Shadow η :=
  { s with report := s.report.withDiffTotals t }

theorem applyDiff_of_empty (h : d.files.isEmpty = true) :
    applyDiff a d s w = (none, d, s, w) := by
  rw [applyDiff, if_pos h]

theorem applyDiff_of_files (h : ¬d.files.isEmpty = true) :
    applyDiff a d s w = (some (calculateDiff a d s w).1.totals,
      d.withFileTotals (calculateDiff a d s w).1,
      (calculateDiff a d s w).2.1.recordDiff (calculateDiff a d s w).1,
      (calculateDiff a d s w).2.2) := by
  rw [applyDiff, if_neg h]
  rfl

/-- Ask about a diff between two reports, if there are handles of both, and compare the answer. -/
def checkAgainst (a : Analyzer σ η) (d : Diff) (computed : Totals) (s base : Shadow η) (w : σ) :
    Shadow η × Shadow η × σ :=
  match open? a s w with
  | (none, s, w) => (s, base, w)
  | (some head, s, w) =>
    match open? a base w with
    | (none, base, w) => (s, base, w)
    | (some other, base, w) =>
      let (answer, w) := diffQuestion a d other head w
      (s.compare answer computed, base, w)

theorem checkAgainst_of_none {computed : Totals} {base s' : Shadow η} {w' : σ}
    (h : open? a s w = (none, s', w')) : checkAgainst a d computed s base w = (s', base, w') := by
  rw [checkAgainst, h]

theorem checkAgainst_of_base_none {computed : Totals} {base s' base' : Shadow η} {w' w'' : σ}
    {head : η} (h : open? a s w = (some head, s', w'))
    (hbase : open? a base w' = (none, base', w'')) :
    checkAgainst a d computed s base w = (s', base', w'') := by
  rw [checkAgainst, h]
  simp only [hbase]

theorem checkAgainst_of_some {computed : Totals} {base s' base' : Shadow η} {w' w'' : σ}
    {head other : η} (h : open? a s w = (some head, s', w'))
    (hbase : open? a base w' = (some other, base', w'')) :
    checkAgainst a d computed s base w =
      (s'.compare (diffQuestion a d other head w'').1 computed, base',
        (diffQuestion a d other head w'').2) := by
  rw [checkAgainst, h]
  simp only [hbase]

theorem calculateDiffAgainst_of_known {base : Shadow η} {t : DiffTotals}
    (h : s.knownDiff = some t) : calculateDiffAgainst a d s base w = (t, s, base, w) := by
  rw [calculateDiffAgainst, h]

theorem calculateDiffAgainst_of_unknown {base : Shadow η} (h : s.knownDiff = none) :
    calculateDiffAgainst a d s base w = (s.report.diffTotals d,
      checkAgainst a d (s.report.diffTotals d).totals
        { s with report := s.report.afterDiff d } base w) := by
  rcases hopen : open? a { s with report := s.report.afterDiff d } w with ⟨head, s', w'⟩
  cases head with
  | none =>
    rw [checkAgainst_of_none hopen]
    simp only [calculateDiffAgainst, h, Report.calculateDiff] at hopen ⊢
    rw [hopen]
  | some head =>
    rcases hbase : open? a base w' with ⟨other, base', w''⟩
    cases other with
    | none =>
      rw [checkAgainst_of_base_none hopen hbase]
      simp only [calculateDiffAgainst, h, Report.calculateDiff] at hopen ⊢
      rw [hopen]
      simp only [hbase]
    | some other =>
      rw [checkAgainst_of_some hopen hbase]
      simp only [calculateDiffAgainst, h, Report.calculateDiff] at hopen ⊢
      rw [hopen]
      simp only [hbase]

/-- An append that changes the report forgets what was known, and the handle. -/
theorem append_of_true {f : SourceFile} {joined : Bool} {r : Report}
    (h : s.report.append f joined = (true, r)) : s.append f joined =
      (true, { s with
        report := r, known := none, knownViews := [], knownDiff := none, handle := none }) := by
  rw [append, h]

theorem append_of_false {f : SourceFile} {joined : Bool} {r : Report}
    (h : s.report.append f joined = (false, r)) :
    s.append f joined = (false, { s with report := r }) := by
  rw [append, h]

/-! ## 2. Reports without an analyzer

Nothing is asked of the analyzer `b` in the following lemmas, whose state `v` stays as it is. -/

variable {b : Analyzer σ' η} {v : σ'}

/-- The same report with the same known totals, and no analyzer. -/
def unwatched (s : Shadow η) : Shadow η :=
  { s with active := false, handle := none, mismatches := 0 }

@[simp] theorem unwatched_open? : (open? a s w).2.1.unwatched = s.unwatched := by
  unfold open?
  split
  · rfl
  · split <;> rfl

@[simp] theorem unwatched_compare (answer : Option Totals) (computed : Totals) :
    (s.compare answer computed).unwatched = s.unwatched := by
  unfold compare
  split <;> rfl

@[simp] theorem unwatched_check (question : η → σ → Option Totals × σ) (computed : Totals) :
    (check a question computed s w).1.unwatched = s.unwatched := by
  have hopen := unwatched_open? (a := a) (s := s) (w := w)
  unfold check
  split
  · rename_i heq
    rw [heq] at hopen
    rw [unwatched_compare]
    exact hopen
  · rename_i heq
    rw [heq] at hopen
    exact hopen

/-- Whatever is asked, the report stays as it is. -/
theorem report_check (question : η → σ → Option Totals × σ) (computed : Totals) :
    (check a question computed s w).1.report = s.report := by
  have h := unwatched_check (a := a) (s := s) (w := w) question computed
  exact (Shadow.mk.inj h).1

theorem unwatched_checkAgainst (computed : Totals) (base : Shadow η) :
    (checkAgainst a d computed s base w).1.unwatched = s.unwatched ∧
      (checkAgainst a d computed s base w).2.1.unwatched = base.unwatched := by
  have hopen := unwatched_open? (a := a) (s := s) (w := w)
  rcases h : open? a s w with ⟨head, s', w'⟩
  rw [h] at hopen
  cases head with
  | none => rw [checkAgainst_of_none h]; exact ⟨hopen, rfl⟩
  | some head =>
    have hother := unwatched_open? (a := a) (s := base) (w := w')
    rcases hbase : open? a base w' with ⟨other, base', w''⟩
    rw [hbase] at hother
    cases other with
    | none => rw [checkAgainst_of_base_none h hbase]; exact ⟨hopen, hother⟩
    | some other =>
      rw [checkAgainst_of_some h hbase, unwatched_compare]
      exact ⟨hopen, hother⟩

theorem totals_unwatched :
    totals b s.unwatched v = ((totals a s w).1, (totals a s w).2.1.unwatched, v) := by
  cases h : s.known with
  | some t => rw [totals_of_known h, totals_of_known (s := s.unwatched) h]
  | none =>
    rw [totals_of_unknown h, totals_of_unknown (s := s.unwatched) h, unwatched_check]
    rfl

theorem calculateDiff_unwatched :
    calculateDiff b d s.unwatched v =
      ((calculateDiff a d s w).1, (calculateDiff a d s w).2.1.unwatched, v) := by
  cases h : s.knownDiff with
  | some t => rw [calculateDiff_of_known h, calculateDiff_of_known (s := s.unwatched) h]
  | none =>
    rw [calculateDiff_of_unknown h, calculateDiff_of_unknown (s := s.unwatched) h, unwatched_check]
    rfl

theorem calculateDiffAgainst_unwatched (base : Shadow η) :
    calculateDiffAgainst b d s.unwatched base.unwatched v =
      ((calculateDiffAgainst a d s base w).1, (calculateDiffAgainst a d s base w).2.1.unwatched,
        (calculateDiffAgainst a d s base w).2.2.1.unwatched, v) := by
  cases h : s.knownDiff with
  | some t =>
    rw [calculateDiffAgainst_of_known h, calculateDiffAgainst_of_known (s := s.unwatched) h]
  | none =>
    rw [calculateDiffAgainst_of_unknown h, calculateDiffAgainst_of_unknown (s := s.unwatched) h]
    obtain ⟨hhead, hbase⟩ := unwatched_checkAgainst (a := a) (w := w) (d := d)
      (s := { s with report := s.report.afterDiff d }) (s.report.diffTotals d).totals base
    rw [hhead, hbase]
    rfl

theorem applyDiff_unwatched :
    applyDiff b d s.unwatched v = ((applyDiff a d s w).1, (applyDiff a d s w).2.1,
      (applyDiff a d s w).2.2.1.unwatched, v) := by
  by_cases h : d.files.isEmpty
  · rw [applyDiff_of_empty h, applyDiff_of_empty h]
  · rw [applyDiff_of_files h, applyDiff_of_files h, calculateDiff_unwatched]
    rfl

theorem append_unwatched (f : SourceFile) (joined : Bool) :
    s.unwatched.append f joined = ((s.append f joined).1, (s.append f joined).2.unwatched) := by
  rcases h : s.report.append f joined with ⟨changed, report⟩
  cases changed with
  | true => rw [append_of_true h, append_of_true (s := s.unwatched) h]; rfl
  | false => rw [append_of_false h, append_of_false (s := s.unwatched) h]; rfl

theorem filteredAnswer_unwatched [PatternLanguage] :
    filteredAnswer b paths flags s.unwatched v = ((filteredAnswer a paths flags s w).1,
      (filteredAnswer a paths flags s w).2.1.unwatched, v) := by
  by_cases hpart : (paths.isEmpty && flags.isEmpty) = true
  · rw [filteredAnswer_of_whole hpart, filteredAnswer_of_whole hpart, totals_unwatched]
  cases h : s.knownView? paths flags with
  | some t =>
    rw [filteredAnswer_of_known hpart h, filteredAnswer_of_known (s := s.unwatched) hpart h]
  | none =>
    cases hv : s.whole.narrow paths flags with
    | error e =>
      rw [filteredAnswer_of_unreadable hpart h hv,
        filteredAnswer_of_unreadable (s := s.unwatched) hpart h hv]
    | ok v =>
      rw [filteredAnswer_of_view hpart h hv,
        filteredAnswer_of_view (s := s.unwatched) hpart h hv, unwatched_check]
      rfl

/-- **A call is answered as without an analyzer**, and leaves the same report and known totals. -/
theorem call_unwatched [PatternLanguage] (c : ShadowCall) :
    call b s.unwatched v c = ((call a s w c).1, (call a s w c).2.1.unwatched, v) := by
  cases c with
  | totals => rw [call, totals_unwatched]; rfl
  | filteredTotals paths flags => exact filteredAnswer_unwatched
  | calculateDiff d => rw [call, calculateDiff_unwatched]; rfl
  | applyDiff d => rw [call, applyDiff_unwatched]; rfl
  | append f joined => rw [call, append_unwatched]; rfl

/-! ## 3. Totals known beforehand -/

/-- The answer that totals known beforehand hold ready for a call. -/
def served? (s : Shadow η) : ShadowCall → Option ShadowAnswer
  | .totals => s.known.map .totals
  | .filteredTotals paths flags =>
    if paths.isEmpty && flags.isEmpty then s.known.map .totals
    else (s.knownView? paths flags).map .totals
  | .calculateDiff _ => s.knownDiff.map .diffTotals
  | .applyDiff d =>
    if d.files.isEmpty then none
    else s.knownDiff.map fun t => .diffApplied (some t.totals) (d.withFileTotals t)
  | .append _ _ => none

/-- The answer that is computed from a report alone. -/
def computed [PatternLanguage] (r : Report) (options : ViewOptions) : ShadowCall → ShadowAnswer
  | .totals => .totals r.totals.1
  | .filteredTotals paths flags =>
    if paths.isEmpty && flags.isEmpty then .totals r.totals.1
    else
      match View.narrow { report := r, options } paths flags with
      | .ok v => .totals v.totals
      | .error e => .refused e
  | .calculateDiff d => .diffTotals (r.calculateDiff d).1
  | .applyDiff d => .diffApplied (r.applyDiff d).1 (r.applyDiff d).2.1
  | .append f joined => .appended (r.append f joined).1

theorem append_fst (f : SourceFile) (joined : Bool) :
    (s.append f joined).1 = (s.report.append f joined).1 := by
  rcases h : s.report.append f joined with ⟨changed, report⟩
  cases changed with
  | true => rw [append_of_true h]
  | false => rw [append_of_false h]

/-- A call is answered by what is known, and else by what is computed from the report. -/
theorem call_answer [PatternLanguage] (c : ShadowCall) :
    (call a s w c).1 = (s.served? c).getD (computed s.report s.options c) := by
  cases c with
  | totals =>
    show ShadowAnswer.totals _ = (s.known.map _).getD (.totals s.report.totals.1)
    cases h : s.known with
    | some t => rw [totals_of_known h]; rfl
    | none => rw [totals_of_unknown h]; rfl
  | filteredTotals paths flags =>
    rw [call, served?, computed]
    by_cases hpart : (paths.isEmpty && flags.isEmpty) = true
    · rw [filteredAnswer_of_whole hpart, if_pos hpart, if_pos hpart]
      cases h : s.known with
      | some t => rw [totals_of_known h]; rfl
      | none => rw [totals_of_unknown h]; rfl
    rw [if_neg hpart, if_neg hpart]
    cases h : s.knownView? paths flags with
    | some t => rw [filteredAnswer_of_known hpart h]; rfl
    | none =>
      show _ = (match s.whole.narrow paths flags with | .ok v => _ | .error e => _)
      cases hv : s.whole.narrow paths flags with
      | error e => rw [filteredAnswer_of_unreadable hpart h hv]
      | ok v => rw [filteredAnswer_of_view hpart h hv]
  | calculateDiff d =>
    show ShadowAnswer.diffTotals _ = (s.knownDiff.map _).getD (.diffTotals (s.report.diffTotals d))
    cases h : s.knownDiff with
    | some t => rw [calculateDiff_of_known h]; rfl
    | none => rw [calculateDiff_of_unknown h]; rfl
  | applyDiff d =>
    rw [call, served?, computed, Report.applyDiff]
    by_cases hempty : d.files.isEmpty = true
    · rw [applyDiff_of_empty hempty, if_pos hempty, if_pos hempty]
      rfl
    · rw [applyDiff_of_files hempty, if_neg hempty, if_neg hempty]
      cases h : s.knownDiff with
      | some t => rw [calculateDiff_of_known h]; rfl
      | none => rw [calculateDiff_of_unknown h]; rfl
  | append f joined => exact congrArg ShadowAnswer.appended (append_fst f joined)

/-- The report with nothing known beforehand. -/
def forgotten (s : Shadow η) : Shadow η :=
  { s with known := none, knownViews := [], knownDiff := none }

/-- The same known totals and options, whatever became of the report. -/
def KnowsAs (s t : Shadow η) : Prop :=
  s.options = t.options ∧ s.known = t.known ∧ s.knownViews = t.knownViews ∧
    s.knownDiff = t.knownDiff

theorem KnowsAs.served? {t : Shadow η} (h : s.KnowsAs t) (c : ShadowCall) :
    s.served? c = t.served? c := by
  obtain ⟨-, hknown, hviews, hdiff⟩ := h
  cases c <;> simp only [Shadow.served?, knownView?, hknown, hviews, hdiff]

theorem served?_forgotten (c : ShadowCall) : s.forgotten.served? c = none := by
  cases c with
  | filteredTotals paths flags =>
    rw [served?]
    split <;> rfl
  | applyDiff d =>
    rw [served?]
    split <;> rfl
  | _ => rfl

theorem knowsAs_of_unwatched {t : Shadow η} (h : s.unwatched = t.unwatched) : s.KnowsAs t := by
  obtain ⟨-, -, hoptions, hknown, hviews, hdiff, -, -⟩ := Shadow.mk.inj h
  exact ⟨hoptions, hknown, hviews, hdiff⟩

theorem KnowsAs.refl : s.KnowsAs s := ⟨rfl, rfl, rfl, rfl⟩

theorem KnowsAs.trans {t u : Shadow η} (h : s.KnowsAs t) (h' : t.KnowsAs u) : s.KnowsAs u :=
  ⟨h.1.trans h'.1, h.2.1.trans h'.2.1, h.2.2.1.trans h'.2.2.1, h.2.2.2.trans h'.2.2.2⟩

/-- What is forgotten is the same whatever was known. -/
theorem KnowsAs.forgotten {t : Shadow η} (h : s.KnowsAs t) :
    s.forgotten.KnowsAs t.forgotten := ⟨h.1, rfl, rfl, rfl⟩

theorem knowsAs_check (question : η → σ → Option Totals × σ) (computed : Totals) (r : Report) :
    (check a question computed { s with report := r } w).1.KnowsAs s :=
  (knowsAs_of_unwatched (unwatched_check ..)).trans ⟨rfl, rfl, rfl, rfl⟩

theorem knowsAs_totals : (totals a s w).2.1.KnowsAs s := by
  cases h : s.known with
  | some t => rw [totals_of_known h]; exact .refl
  | none => rw [totals_of_unknown h]; exact knowsAs_check ..

theorem knowsAs_calculateDiff : (calculateDiff a d s w).2.1.KnowsAs s := by
  cases h : s.knownDiff with
  | some t => rw [calculateDiff_of_known h]; exact .refl
  | none => rw [calculateDiff_of_unknown h]; exact knowsAs_check ..

theorem knowsAs_calculateDiffAgainst (base : Shadow η) :
    (calculateDiffAgainst a d s base w).2.1.KnowsAs s ∧
      (calculateDiffAgainst a d s base w).2.2.1.KnowsAs base := by
  cases h : s.knownDiff with
  | some t => rw [calculateDiffAgainst_of_known h]; exact ⟨.refl, .refl⟩
  | none =>
    rw [calculateDiffAgainst_of_unknown h]
    obtain ⟨hhead, hbase⟩ := unwatched_checkAgainst (a := a) (w := w) (d := d)
      (s := { s with report := s.report.afterDiff d }) (s.report.diffTotals d).totals base
    exact ⟨(knowsAs_of_unwatched hhead).trans ⟨rfl, rfl, rfl, rfl⟩, knowsAs_of_unwatched hbase⟩

theorem knowsAs_filteredAnswer [PatternLanguage] :
    (filteredAnswer a paths flags s w).2.1.KnowsAs s := by
  by_cases hpart : (paths.isEmpty && flags.isEmpty) = true
  · rw [filteredAnswer_of_whole hpart]; exact knowsAs_totals
  cases h : s.knownView? paths flags with
  | some t => rw [filteredAnswer_of_known hpart h]; exact .refl
  | none =>
    cases hv : s.whole.narrow paths flags with
    | error e => rw [filteredAnswer_of_unreadable hpart h hv]; exact .refl
    | ok v => rw [filteredAnswer_of_view hpart h hv]; exact knowsAs_check ..

/-- An append that does not change the report leaves what is known, one that does forgets it. -/
theorem append_cases (s : Shadow η) (f : SourceFile) (joined : Bool) :
    ((s.append f joined).1 = true ∧ (s.append f joined).2.handle = none ∧
      (s.append f joined).2.KnowsAs s.forgotten) ∨
    ((s.append f joined).1 = false ∧ (s.append f joined).2.handle = s.handle ∧
      (s.append f joined).2.KnowsAs s) := by
  rcases h : s.report.append f joined with ⟨changed, report⟩
  cases changed with
  | true => rw [append_of_true h]; exact .inl ⟨rfl, rfl, rfl, rfl, rfl, rfl⟩
  | false => rw [append_of_false h]; exact .inr ⟨rfl, rfl, rfl, rfl, rfl, rfl⟩

theorem knowsAs_call [PatternLanguage] (c : ShadowCall)
    (h : (call a s w c).1 ≠ .appended true) :
    (call a s w c).2.1.KnowsAs s := by
  cases c with
  | totals => exact knowsAs_totals
  | filteredTotals paths flags => exact knowsAs_filteredAnswer
  | calculateDiff d => exact knowsAs_calculateDiff
  | applyDiff d =>
    rw [call]
    by_cases hempty : d.files.isEmpty = true
    · rw [applyDiff_of_empty hempty]; exact .refl
    · rw [applyDiff_of_files hempty]; exact knowsAs_calculateDiff (a := a) (s := s) (w := w)
  | append f joined =>
    rcases append_cases s f joined with ⟨htrue, -, -⟩ | ⟨-, -, hkeeps⟩
    · exact absurd (congrArg ShadowAnswer.appended htrue) h
    · exact hkeeps

theorem knowsAs_call_appended [PatternLanguage] (c : ShadowCall)
    (h : (call a s w c).1 = .appended true) :
    (call a s w c).2.1.KnowsAs s.forgotten ∧ (call a s w c).2.1.handle = none := by
  cases c with
  | append f joined =>
    rcases append_cases s f joined with ⟨-, hhandle, hforgets⟩ | ⟨hfalse, -, -⟩
    · exact ⟨hforgets, hhandle⟩
    · rw [call, hfalse] at h
      cases h
  | filteredTotals paths flags =>
    rw [call, filteredAnswer] at h
    split at h <;> cases h
  | totals => cases h
  | calculateDiff d => cases h
  | applyDiff d => cases h

end Shadow

end CoverageLedger
