import CoverageLedger.Proofs.Upload.Told

/-!
# Uploads make no line worse

A missed line is worse than one that ran in part, and that one is worse than a hit.  What one more
upload tells can only take arms from those that all sessions miss and raise the number of arms, so
the reading of a line does not get worse (`readingOf_noWorse`), and neither do the counts of a
report (`addUpload_noWorse`).
-/

namespace CoverageLedger

/-! ## 1. Grades -/

/-- How good an outcome is: a miss, a part, or a hit.  A line that is skipped has no grade. -/
def Outcome.grade? : Outcome → Option Nat
  | .miss => some 0
  | .partly => some 1
  | .hit => some 2
  | .skipped => none

namespace Reading

def grade? (r : Reading) : Option Nat := r.outcome.bind Outcome.grade?

/-- Two readings with grades, of which the second is not below the first. -/
def NoWorse (before after : Reading) : Prop :=
  ∃ a b, before.grade? = some a ∧ after.grade? = some b ∧ a ≤ b

/-- Whether a reading has a grade from some grade on. -/
def isGraded (least : Nat) (r : Reading) : Bool := r.grade?.any fun g => least ≤ g

theorem NoWorse.isGraded {before after : Reading} (h : before.NoWorse after) {least : Nat}
    (hbefore : before.isGraded least = true) : after.isGraded least = true := by
  obtain ⟨a, b, ha, hb, hle⟩ := h
  rw [Reading.isGraded, ha, Option.any_some, decide_eq_true_eq] at hbefore
  rw [Reading.isGraded, hb, Option.any_some, decide_eq_true_eq]
  exact Nat.le_trans hbefore hle

theorem grade?_ofCount (n : Nat) : (ofCount n).grade? = some (if n = 0 then 0 else 2) := by
  rw [grade?, outcome_ofCount]
  by_cases hn : n = 0
  · rw [if_pos hn, if_pos hn]
    rfl
  · rw [if_neg hn, if_neg hn]
    rfl

theorem grade?_ratio (taken total : Nat) : (Reading.ratio taken total).grade? =
    some (if taken = total then 2 else if taken = 0 then 0 else 1) := by
  show (ratioOutcome taken total).grade? = _
  rw [ratioOutcome]
  split
  · rfl
  · split <;> rfl

/-- More arms, and fewer of them missing. -/
theorem noWorse_ratio {total total' missing missing' : Nat} (htotal : total ≤ total')
    (hmissing : missing' ≤ missing) (hle : missing ≤ total) :
    (ratio (total - missing) total).NoWorse (ratio (total' - missing') total') := by
  refine ⟨_, _, grade?_ratio _ _, grade?_ratio _ _, ?_⟩
  split <;> split <;> (try split) <;> (try split) <;> omega

/-- A line counts when it has a grade. -/
theorem lines_ofLines (lines : List Line) :
    (Totals.ofLines lines).lines = lines.countP fun l => l.reading.isGraded 0 := by
  show Totals.countOutcome .hit lines + Totals.countOutcome .miss lines +
    Totals.countOutcome .partly lines = _
  unfold Totals.countOutcome
  induction lines with
  | nil => rfl
  | cons l rest ih =>
    simp only [List.countP_cons]
    rw [← ih, isGraded, grade?]
    cases l.reading.outcome with
    | none => rfl
    | some outcome => cases outcome <;> simp [Outcome.grade?] <;> omega

theorem hits_ofLines (lines : List Line) :
    (Totals.ofLines lines).hits = lines.countP fun l => l.reading.isGraded 2 := by
  show Totals.countOutcome .hit lines = _
  unfold Totals.countOutcome
  apply List.countP_congr
  intro l _
  rw [isGraded, grade?]
  cases l.reading.outcome with
  | none => simp
  | some outcome => cases outcome <;> simp [Outcome.grade?]

end Reading

/-! ## 2. One line -/

namespace LineSession

variable {told more : List LineSession}

theorem mergeMissing_append_subset {arms arms' : List BranchArm}
    (h : mergeMissing told = some arms) (h' : mergeMissing (told ++ more) = some arms') :
    arms' ⊆ arms := by
  intro a ha
  rw [(mem_mergeMissing h).2]
  intro s hs
  exact ((mem_mergeMissing h').2 a).1 ha s (List.mem_append_left more hs)

/-- Where a session ran the whole line, no arm is missing. -/
theorem mergeMissing_of_ranAll {arms : List BranchArm} {s : LineSession} (hs : s ∈ told)
    (hran : s.RanAll) (h : mergeMissing told = some arms) : arms = [] := by
  rw [List.eq_nil_iff_forall_not_mem]
  intro a ha
  exact (((mem_mergeMissing h).2 a).1 ha s hs).1 hran

/-- **What is told besides makes a reading no worse.** -/
theorem readingOf_noWorse (h : ∀ s ∈ told ++ more, s.Told) (hne : told ≠ []) :
    (readingOf told).NoWorse (readingOf (told ++ more)) := by
  have hold : ∀ s ∈ told, s.Told := fun s hs => h s (List.mem_append_left more hs)
  have hne' : told ++ more ≠ [] := fun hnil => hne (List.append_eq_nil_iff.1 hnil).1
  cases hm' : mergeMissing (told ++ more) with
  | none =>
    -- counts only: a hit among them stays among them
    have hm : mergeMissing told = none := by
      rw [mergeMissing_eq_none] at hm' ⊢
      exact fun s hs => hm' s (List.mem_append_left more hs)
    obtain ⟨c, hc, hiff⟩ := readingOf_of_counts hold hne hm
    obtain ⟨c', hc', hiff'⟩ := readingOf_of_counts h hne' hm'
    refine ⟨_, _, by rw [hc, Reading.grade?_ofCount], by rw [hc', Reading.grade?_ofCount], ?_⟩
    by_cases hzero : c = 0
    · simp [hzero]
    · obtain ⟨s, hs, hran⟩ := hiff.1 hzero
      have hzero' : c' ≠ 0 := hiff'.2 ⟨s, List.mem_append_left more hs, hran⟩
      simp [hzero, hzero']
  | some arms' =>
    have hread' := readingOf_of_missing h hm'
    cases hm : mergeMissing told with
    | none =>
      -- a hit comes before the arms: then none of them is missing
      obtain ⟨c, hc, hiff⟩ := readingOf_of_counts hold hne hm
      refine ⟨_, _, by rw [hc, Reading.grade?_ofCount], by rw [hread', Reading.grade?_ratio], ?_⟩
      by_cases hzero : c = 0
      · simp [hzero]
      · obtain ⟨s, hs, hran⟩ := hiff.1 hzero
        rw [mergeMissing_of_ranAll (List.mem_append_left more hs) hran hm']
        simp [hzero]
    | some arms =>
      have hbelow := armsBelow_mergeMissing hold hm
      have hascending := (armsBelow_mergeMissing h hm').ascending
      have htotal : armTotal told ≤ armTotal (told ++ more) := by
        rw [armTotal, armTotal, List.map_append, Reading.greatestTotal_append]
        exact Nat.le_max_left _ _
      rw [readingOf_of_missing hold hm, hread']
      exact Reading.noWorse_ratio htotal
        (length_le_of_subset hascending (mergeMissing_append_subset hm hm')) hbelow.length_le

end LineSession

namespace Holds

variable {id : Nat} {done : List LineSession} {own : Option Line} {l : Line}

/-- The reading of a line is that of what was told of it. -/
theorem reading (h : Holds id done none (some l)) :
    done ≠ [] ∧ l.reading = LineSession.readingOf done := by
  obtain ⟨old, hsessions, hdone, -, hne, hreading, -⟩ := h
  rw [Option.map_none, Option.toList_none, List.append_nil] at hsessions
  refine ⟨?_, ?_⟩
  · rintro rfl
    rw [hsessions] at hne
    exact hne (List.map_eq_nil_iff.1 hdone)
  · rw [hreading, hsessions, ← LineSession.readingOf_anonymous, hdone,
      LineSession.readingOf_anonymous]

theorem exists_line (h : Holds id done none own) (hne : done ≠ []) : ∃ l, own = some l := by
  cases own with
  | none => exact absurd h.1 hne
  | some l => exact ⟨l, rfl⟩

end Holds

/-! ## 3. Counts of a report -/

/-- Entries of one table that find their like in another one are not more. -/
theorem Table.countP_values_le {κ α : Type} [TableKey κ] {s t : Table κ α} {p q : α → Bool}
    (h : ∀ k v, s.get? k = some v → p v = true → ∃ w, t.get? k = some w ∧ q w = true) :
    s.values.countP p ≤ t.values.countP q := by
  have hcount (u : Table κ α) (test : α → Bool) :
      u.values.countP test = (u.filter fun _ v => test v).keys.length := by
    rw [values, List.countP_map, List.countP_eq_length_filter, keys, List.length_map]
    rfl
  have hnodup : (s.filter fun _ v => p v).keys.Nodup := (keys_ascending _).imp Precedes.ne
  have hsub : (s.filter fun _ v => p v).keys ⊆ (t.filter fun _ v => q v).keys := by
    intro k hk
    obtain ⟨v, hv⟩ := (mem_keys_iff _).1 hk
    rw [get?_filter, Option.filter_eq_some_iff] at hv
    obtain ⟨w, hw, hq⟩ := h k v hv.1 hv.2
    refine (mem_keys_iff _).2 ⟨w, ?_⟩
    rw [get?_filter, hw]
    exact Option.filter_eq_some_iff.2 ⟨rfl, hq⟩
  rw [hcount, hcount]
  exact (hnodup.subperm hsub).length_le

/-- Counts that are there for more names and are no smaller add up to no less. -/
theorem Totals.addUp_le {names names' : List String} {count count' : String → Option Nat}
    (hnames : names.Nodup) (hsub : names ⊆ names')
    (h : ∀ name ∈ names, (count name).getD 0 ≤ (count' name).getD 0) :
    addUp (names.filterMap count) ≤ addUp (names'.filterMap count') := by
  have hsum (l : List String) (f : String → Option Nat) :
      addUp (l.filterMap f) = (l.map fun name => (f name).getD 0).sum := by
    induction l with
    | nil => rfl
    | cons name rest ih =>
      rw [List.map_cons, List.sum_cons, ← ih]
      cases hf : f name with
      | none => rw [List.filterMap_cons_none hf]; exact (Nat.zero_add _).symm
      | some v => rw [List.filterMap_cons_some hf]; rfl
  have hsublist {l l' : List String} (hl : l.Sublist l')
      (hle : ∀ name ∈ l, (count name).getD 0 ≤ (count' name).getD 0) :
      (l.map fun name => (count name).getD 0).sum ≤
        (l'.map fun name => (count' name).getD 0).sum := by
    induction hl with
    | slnil => exact Nat.le_refl _
    | cons name _ ih =>
      rw [List.map_cons, List.sum_cons]
      exact Nat.le_trans (ih hle) (Nat.le_add_left _ _)
    | cons_cons name _ ih =>
      rw [List.map_cons, List.sum_cons, List.map_cons, List.sum_cons]
      exact Nat.add_le_add (hle name List.mem_cons_self)
        (ih fun q hq => hle q (List.mem_cons_of_mem name hq))
  obtain ⟨l, hperm, hl⟩ := hnames.subperm hsub
  rw [hsum, hsum, ← (hperm.map _).sum_nat]
  exact hsublist hl fun name hname => h name (hperm.mem_iff.1 hname)

namespace Report

variable {k : Nat} {done : List (List TracedFile)} {files : List TracedFile} {r r' : Report}

/-- Uploads of what the parser gives, from the empty report on. -/
theorem addUploads_of_parsed {uploads : List (List TracedFile × Upload)}
    (hparsed : ∀ u ∈ uploads, ∃ bytes, TracedFile.ofBytes? bytes = .ok u.1) :
    ∃ r, addUploads {} uploads = .ok r ∧
      MadeBy uploads.length (uploads.map Prod.fst) [] r ∧ NumbersSessions uploads.length r ∧
      r.knownTotals = none := by
  have hlines : ∀ u ∈ uploads, ∀ f ∈ u.1, ∀ l ∈ f.lines, l.line ≠ 0 := by
    intro u hu
    obtain ⟨bytes, hbytes⟩ := hparsed u hu
    exact TracedFile.line_ne_zero_of_ofBytes? hbytes
  have hnumbers : NumbersSessions 0 {} := by
    intro id
    constructor
    · intro h
      cases h
    · intro h
      cases h
  obtain ⟨r, hr, hmade, hsessions, hknown⟩ :=
    addUploads_of_madeBy MadeBy.empty hnumbers rfl hlines
  rw [Nat.zero_add] at hmade hsessions
  exact ⟨r, hr, hmade, hsessions, hknown⟩

/-- A line is still there after one more upload, and it is no worse. -/
theorem lineAt?_noWorse (h : MadeBy k done [] r) (h' : MadeBy (k + 1) (done ++ [files]) [] r')
    (hnumbers : ∀ fs ∈ done ++ [files], ∀ f ∈ fs, f.NumbersArms) {name : String} {n : Nat}
    {l : Line} (hl : r.lineAt? name n = some l) :
    ∃ l', r'.lineAt? name n = some l' ∧ l.reading.NoWorse l'.reading := by
  have hbefore := h.lines name n
  have hafter := h'.lines name n
  rw [hl] at hbefore
  obtain ⟨hne, hreading⟩ := Holds.reading hbefore
  rw [List.filterMap_append] at hafter
  obtain ⟨l', hl'⟩ := Holds.exists_line hafter fun hnil => hne (List.append_eq_nil_iff.1 hnil).1
  rw [hl'] at hafter
  obtain ⟨-, hreading'⟩ := Holds.reading hafter
  refine ⟨l', hl', ?_⟩
  rw [hreading, hreading']
  refine LineSession.readingOf_noWorse ?_ hne
  rw [← List.filterMap_append]
  intro s hs
  obtain ⟨fs, hfs, hsaid⟩ := List.mem_filterMap.1 hs
  exact tellsOnly_uploadReads (hnumbers fs hfs) name n s hsaid

/-- When lines stay and are no worse, no fewer of them have a grade from some grade on. -/
theorem countP_isGraded_le (hlines : ∀ name n l, r.lineAt? name n = some l →
      ∃ l', r'.lineAt? name n = some l' ∧ l.reading.NoWorse l'.reading)
    (least : Nat) {name : String} {f f' : SourceFile} (hf : r.file? name = some f)
    (hf' : r'.file? name = some f') :
    f.lines.values.countP (fun l => l.reading.isGraded least) ≤
      f'.lines.values.countP fun l => l.reading.isGraded least := by
  apply Table.countP_values_le
  intro n l hl hgraded
  have hat : r.lineAt? name n = some l := by
    rw [lineAt?, hf]
    exact hl
  obtain ⟨l', hl', hle⟩ := hlines name n l hat
  rw [lineAt?, hf'] at hl'
  exact ⟨l', hl', hle.isGraded hgraded⟩

/-- **The totals do not go down** when lines stay and are no worse. -/
theorem totals_noWorse (h : MadeBy k done [] r) (h' : MadeBy (k + 1) (done ++ [files]) [] r')
    (hknown : r.knownTotals = none) (hknown' : r'.knownTotals = none)
    (hlines : ∀ name n l, r.lineAt? name n = some l →
      ∃ l', r'.lineAt? name n = some l' ∧ l.reading.NoWorse l'.reading) :
    r.totals.1.lines ≤ r'.totals.1.lines ∧ r.totals.1.hits ≤ r'.totals.1.hits := by
  have hfiles : ∀ name f, r.file? name = some f → ∃ f', r'.file? name = some f' := by
    intro name f hf
    obtain ⟨n, hn⟩ := (h.file?_isSome_iff name).1 ⟨f, hf⟩
    obtain ⟨l, hl⟩ := Option.ne_none_iff_exists'.1 hn
    obtain ⟨l', hl', -⟩ := hlines name n l hl
    exact (h'.file?_isSome_iff name).2 ⟨n, by rw [hl']; exact Option.some_ne_none l'⟩
  have hnodup : r.names.Nodup := (Table.keys_ascending _).imp Precedes.ne
  have hsub : r.names ⊆ r'.names := by
    intro name hname
    obtain ⟨f, hf⟩ := h.consistent.mem_names_iff.1 hname
    exact h'.consistent.mem_names_iff.2 (hfiles name f hf)
  -- both counts are sums over the files of what is counted in each
  have hsum (part : Totals → Nat)
      (hpart : ∀ name f f', r.file? name = some f → r'.file? name = some f' →
        part f.totals ≤ part f'.totals) :
      Totals.addUp ((r.names.filterMap r.fileTotals?).map part) ≤
        Totals.addUp ((r'.names.filterMap r'.fileTotals?).map part) := by
    rw [List.map_filterMap, List.map_filterMap]
    refine Totals.addUp_le hnodup hsub fun name _ => ?_
    rw [h.counted.fileTotals? h.consistent, h'.counted.fileTotals? h'.consistent]
    cases hf : r.file? name with
    | none => exact Nat.zero_le _
    | some f =>
      obtain ⟨f', hf'⟩ := hfiles name f hf
      rw [hf']
      exact hpart name f f' hf hf'
  have htotals : r.totals.1 = r.computedTotals := by
    rw [totals, hknown]
    rfl
  have htotals' : r'.totals.1 = r'.computedTotals := by
    rw [totals, hknown']
    rfl
  rw [htotals, htotals']
  constructor
  · refine hsum (·.lines) fun name f f' hf hf' => ?_
    rw [SourceFile.totals, SourceFile.totals, Reading.lines_ofLines, Reading.lines_ofLines]
    exact countP_isGraded_le hlines 0 hf hf'
  · refine hsum (·.hits) fun name f f' hf hf' => ?_
    rw [SourceFile.totals, SourceFile.totals, Reading.hits_ofLines, Reading.hits_ofLines]
    exact countP_isGraded_le hlines 2 hf hf'

/-- **Uploads make no line worse.**  After uploads of what the parser gives, one more of them
succeeds; every line that was stored is stored afterwards and reads no worse, and the counts of
lines and hits do not go down. -/
theorem addUpload_noWorse (uploads : List (List TracedFile × Upload)) (files : List TracedFile)
    (upload : Upload) (hparsed : ∀ u ∈ uploads, ∃ bytes, TracedFile.ofBytes? bytes = .ok u.1)
    (hfiles : ∃ bytes, TracedFile.ofBytes? bytes = .ok files) :
    ∃ r summary r', addUploads {} uploads = .ok r ∧ r.addUpload files upload = .ok (summary, r') ∧
      (∀ name n l, r.lineAt? name n = some l →
        ∃ l', r'.lineAt? name n = some l' ∧ l.reading.NoWorse l'.reading) ∧
      r.totals.1.lines ≤ r'.totals.1.lines ∧ r.totals.1.hits ≤ r'.totals.1.hits := by
  obtain ⟨bytes, hbytes⟩ := hfiles
  obtain ⟨r, hr, hmade, hsessions, hknown⟩ := addUploads_of_parsed hparsed
  obtain ⟨summary, r', hr', hmade', -, hknown'⟩ := addUpload_of_madeBy hmade hsessions
    (TracedFile.line_ne_zero_of_ofBytes? hbytes) upload
  have hnumbers : ∀ fs ∈ uploads.map Prod.fst ++ [files], ∀ f ∈ fs, f.NumbersArms := by
    intro fs hfs
    rcases List.mem_append.1 hfs with hfs | hfs
    · obtain ⟨u, hu, rfl⟩ := List.mem_map.1 hfs
      obtain ⟨own, hown⟩ := hparsed u hu
      exact TracedFile.numbersArms_of_ofBytes? hown
    · rw [List.mem_singleton.1 hfs]
      exact TracedFile.numbersArms_of_ofBytes? hbytes
  have hlines : ∀ name n l, r.lineAt? name n = some l →
      ∃ l', r'.lineAt? name n = some l' ∧ l.reading.NoWorse l'.reading := fun _ _ _ hl =>
    lineAt?_noWorse hmade hmade' hnumbers hl
  exact ⟨r, summary, r', hr, hr', hlines, totals_noWorse hmade hmade' hknown hknown' hlines⟩

/-- A missed line is reached by the next upload. -/
theorem addUpload_noWorse_missed_reached :
    (∀ u ∈ [missedUpload], ∃ bytes, TracedFile.ofBytes? bytes = .ok u.1) ∧
    (∃ bytes, TracedFile.ofBytes? bytes = .ok reachedUpload.1) ∧
    ∃ r summary r', addUploads {} [missedUpload] = .ok r ∧
      r.addUpload reachedUpload.1 reachedUpload.2 = .ok (summary, r') ∧
      (∀ name n l, r.lineAt? name n = some l →
        ∃ l', r'.lineAt? name n = some l' ∧ l.reading.NoWorse l'.reading) ∧
      r.totals.1.lines ≤ r'.totals.1.lines ∧ r.totals.1.hits ≤ r'.totals.1.hits := by
  have hparsed : ∀ u ∈ [missedUpload], ∃ bytes, TracedFile.ofBytes? bytes = .ok u.1 := by
    intro u hu
    rw [List.mem_singleton.1 hu]
    exact ⟨missedBytes, by rfl⟩
  have hfiles : ∃ bytes, TracedFile.ofBytes? bytes = .ok reachedUpload.1 :=
    ⟨reachedBytes, by rfl⟩
  exact ⟨hparsed, hfiles, addUpload_noWorse _ _ _ hparsed hfiles⟩

end Report

end CoverageLedger
