import CoverageLedger.Proofs.Line.Accounted
import CoverageLedger.Proofs.Report.AllLines
import CoverageLedger.Proofs.Upload.Undone

/-!
# Lines after any run of uploads

The readings of a report are joined, taken apart and renumbered by different operations, and each of
them relies on what the one before has left on the lines.  What they all keep is `Line.Accounted`:
the reading of a line is the one that its sessions give, and these are known and told apart.  The
id that an upload takes has to be free for this, even when ids have been given back
(`not_knows_nextSession`).
-/

namespace CoverageLedger

/-! ## 1. What an upload brings -/

/-- What the session of a tracefile says of a line is all there is on it. -/
theorem TracedFile.allLines_source {f : TracedFile} {id : Nat} {g : SourceFile} {Q : Line → Prop}
    (hlines : ∀ l ∈ f.lines, l.line ≠ 0)
    (hQ : ∀ n s l, f.reads n = some s → l.MadeBy id s → l.Bare → Q l)
    (h : f.source id = .ok g) : g.AllLines Q := by
  have htrace := fromTrace_source h
  obtain ⟨g', hg', -, hreads⟩ := f.source_reads hlines id
  obtain rfl := Except.ok.inj (h.symm.trans hg')
  refine ⟨htrace.faithful, fun n l hl => ?_⟩
  have hline := hreads.line n
  cases hread : f.reads n with
  | none =>
    rw [hread, hl] at hline
    cases hline
  | some s =>
    rw [hread] at hline
    obtain ⟨own, hown, hmade⟩ := hline
    obtain rfl := Option.some.inj (hl.symm.trans hown)
    exact hQ n s l hread hmade (htrace.bare n l hl)

theorem TracedFile.accounted_source {f : TracedFile} {id : Nat} {g : SourceFile}
    {knows : Nat → Prop} (hlines : ∀ l ∈ f.lines, l.line ≠ 0) (hnumbers : f.NumbersArms)
    (hid : knows id) (h : f.source id = .ok g) : g.AllLines (Line.Accounted knows) :=
  allLines_source hlines (fun n s _ hread hmade hbare => .of_madeBy hmade
    (tellsOnly_reads hnumbers n s hread) hid hbare.complexityOf.symm) h

namespace Report

variable {r r' : Report} {files : List TracedFile} {names : List String} {id : Nat}

/-- A number that is taken is found only when there was no free one to try. -/
theorem taken_of_taken_freeFrom {taken : Nat → Bool} {n fuel : Nat}
    (h : taken (freeFrom taken n fuel) = true) {k : Nat} (hk : k < fuel) :
    taken (n + k) = true := by
  induction fuel generalizing n k with
  | zero => omega
  | succ fuel ih =>
    rw [freeFrom] at h
    split at h
    · rename_i hn
      cases k with
      | zero => exact hn
      | succ k =>
        rw [Nat.add_comm k 1, ← Nat.add_assoc]
        exact ih h (by omega)
    · rename_i hn
      exact absurd h hn

/-- The next id is free: the ids that are tried are one more than there are sessions. -/
theorem not_knows_nextSession (r : Report) : ¬ r.Knows r.nextSession := by
  intro htaken
  have hsub : List.range' r.sessions.size (r.sessions.size + 1) ⊆ r.sessions.keys := by
    intro n hn
    obtain ⟨k, hk, rfl⟩ := List.mem_range'.1 hn
    rw [Nat.one_mul]
    exact r.sessions.contains_iff.1 (taken_of_taken_freeFrom htaken hk)
  have hle := ((List.nodup_range' _).subperm hsub).length_le
  rw [List.length_range', Table.keys, List.length_map, ← Table.size] at hle
  omega

theorem Each.addTraced {P : String → Row → Prop} (h : Each P r)
    (hfiles : ∀ f ∈ files, ∀ g, f.source id = .ok g → P g.name (.counted g.opened) ∧
      ∀ w, P g.name w → P g.name (.counted (w.file.mergeLines g.lines true).opened))
    (hok : Report.addTraced id r files = .ok (names, r')) : Each P r' := by
  induction files generalizing r names with
  | nil =>
    cases hok
    exact h
  | cons f rest ih =>
    obtain ⟨g, names', hg, hrest, -⟩ := addTraced_cons hok
    obtain ⟨hnew, hjoin⟩ := hfiles f List.mem_cons_self g hg
    exact ih (h.append g true hnew hjoin) (fun f hf => hfiles f (List.mem_cons_of_mem _ hf)) hrest

theorem knows_addUpload {upload : Upload} {summary : UploadSummary}
    (hok : r.addUpload files upload = .ok (summary, r'))
    (h : id = r.nextSession ∨ r.Knows id) : r'.Knows id := by
  obtain ⟨_, _, -, -, rfl⟩ := addUpload_cases hok
  show (r.sessions.insert r.nextSession _).contains id = true
  unfold Table.contains
  rw [Table.get?_insert]
  split
  · rfl
  · rename_i hne
    exact h.resolve_left hne

/-- An upload changes rows as adding its files does. -/
theorem Each.addUpload {P : String → Row → Prop} {upload : Upload} {summary : UploadSummary}
    (h : Each P r) (hok : r.addUpload files upload = .ok (summary, r'))
    (hfiles : ∀ f ∈ files, ∀ g, f.source r.nextSession = .ok g → P g.name (.counted g.opened) ∧
      ∀ w, P g.name w → P g.name (.counted (w.file.mergeLines g.lines true).opened)) :
    Each P r' := by
  obtain ⟨names, last, hadded, -, rfl⟩ := addUpload_cases hok
  have hstart : Each P (r.addSession (sessionOf upload)).2 := h.of_eq rfl rfl
  exact (hstart.addTraced hfiles hadded).of_eq rfl rfl

theorem AllLines.addUpload {Q : Line → Prop} {upload : Upload} {summary : UploadSummary}
    (h : r.AllLines Q) (hok : r.addUpload files upload = .ok (summary, r'))
    (hmerge : ∀ l l', Q l → Q l' → Q (l.merge l' true))
    (hfiles : ∀ f ∈ files, ∀ g, f.source r.nextSession = .ok g → g.AllLines Q) : r'.AllLines Q :=
  Each.addUpload h hok fun f hf g hg =>
    ⟨(hfiles f hf g hg).opened.opened,
      fun _ hw => (hw.mergeLines (hfiles f hf g hg) hmerge).opened.opened⟩

/-! ## 2. Runs -/

/-- The lines of a report are accounted for by sessions that it has. -/
abbrev Accounted (r : Report) : Prop := r.AllLines (Line.Accounted r.Knows)

namespace Accounted

theorem of_lines (h : r'.AllLines (Line.Accounted r.Knows)) (hsessions : r'.sessions = r.sessions) :
    r'.Accounted :=
  Each.mono h fun _ _ hw => hw.mono fun _ hl => hl.mono fun _ => knows_of_eq hsessions

theorem addUpload {upload : Upload} {summary : UploadSummary} (h : r.Accounted)
    (hparsed : ∃ bytes, TracedFile.ofBytes? bytes = .ok files)
    (hok : r.addUpload files upload = .ok (summary, r')) : r'.Accounted := by
  obtain ⟨bytes, hbytes⟩ := hparsed
  have hbefore : r.AllLines (Line.Accounted r'.Knows) :=
    Each.mono h fun _ _ hw => hw.mono fun _ hl => hl.mono fun _ hid =>
      knows_addUpload hok (.inr hid)
  exact hbefore.addUpload hok (fun _ _ hl hl' => hl.merge hl') fun f hf g =>
    f.accounted_source (TracedFile.line_ne_zero_of_ofBytes? hbytes f hf)
      (TracedFile.numbersArms_of_ofBytes? hbytes f hf) (knows_addUpload hok (.inl rfl))

theorem deleteSessions (h : r.Accounted) (ids : List Nat) : (r.deleteSessions ids).Accounted := by
  have hleft := AllLines.deleteSessions h (fun _ _ hl hkept => hl.withoutSessions hkept)
    fun _ hl hpassed => hl.and (p := (· ∉ ids)) hpassed
  exact Each.mono hleft fun _ _ hw => hw.mono fun _ hl => hl.mono fun _ => knows_deleteSessions

theorem changeSession {old new : Nat} (h : r.Accounted) (hok : r.changeSession old new = .ok r') :
    r'.Accounted := by
  obtain ⟨s, -, ⟨-, rfl⟩ | ⟨-, hfree, rfl⟩⟩ := changeSession_cases hok
  · exact h
  · obtain ⟨hlines, hsessions⟩ := AllLines.foldl_changeSessionIn h old new s
      (fun _ hl => hl.withSessionId hfree) fun _ hl hpassed =>
        (hl.and (p := (· ≠ old)) hpassed).mono fun _ => .inr
    refine Each.mono hlines.changed fun _ _ hw => hw.mono fun _ hl => hl.mono fun id hid => ?_
    exact knows_of_eq hsessions (knows_renumbered s hid)

theorem carry [PatternLanguage] {flags paths : List String} {extras : Option (Table String Json)}
    (h : r.Accounted) (hok : Carry.report r flags paths extras = .ok r') : r'.Accounted := by
  have hleft := AllLines.carry h hok (fun _ _ hl hkept => hl.withoutSessions hkept)
    fun _ hl hpassed => hl.and hpassed
  refine Each.mono hleft fun _ _ hw => hw.mono fun _ hl => hl.mono fun id ⟨hid, hkept⟩ => ?_
  show Option.isSome (r'.sessions.get? id) = true
  rw [get?_sessions_carry hok, if_neg hkept, Option.isSome_map]
  exact hid

end Accounted

/-- One thing that happens to a report that tracefiles fill. -/
inductive Filling (r : Report) : Report → Prop
  | addUpload (files : List TracedFile) (upload : Upload) {summary : UploadSummary} {r' : Report} :
      (∃ bytes, TracedFile.ofBytes? bytes = .ok files) →
      r.addUpload files upload = .ok (summary, r') → Filling r r'
  | deleteSessions (ids : List Nat) : Filling r (r.deleteSessions ids)
  | changeSession (old new : Nat) {r' : Report} :
      r.changeSession old new = .ok r' → Filling r r'
  | shift (d : Diff) (direction : Direction) : Filling r (r.shift d direction)
  | rename (old new : String) : Filling r (r.rename old new).2
  | remove (name : String) : Filling r (r.remove name).2
  | resolvePaths (fixes : List (String × Option String)) : Filling r (r.resolvePaths fixes)
  | repack : Filling r r.repack.2
  | carry [PatternLanguage] (flags paths : List String) (extras : Option (Table String Json))
      {r' : Report} : Carry.report r flags paths extras = .ok r' → Filling r r'

/-- A report that tracefiles fill from empty on. -/
inductive Filled : Report → Prop
  | new : Filled {}
  | next {r r' : Report} : Filled r → Filling r r' → Filled r'

theorem Filling.accounted (h : Filling r r') (hr : r.Accounted) : r'.Accounted := by
  cases h with
  | addUpload files upload hparsed hok => exact hr.addUpload hparsed hok
  | deleteSessions ids => exact hr.deleteSessions ids
  | changeSession old new hok => exact hr.changeSession hok
  | shift d direction =>
    exact .of_lines (AllLines.shift hr d direction) (sessions_shift hr.consistent d direction)
  | rename old new => exact .of_lines (AllLines.rename hr old new) (sessions_rename r old new)
  | remove name => exact .of_lines (Each.remove hr name) sessions_remove
  | resolvePaths fixes =>
    exact .of_lines (AllLines.resolvePaths hr fixes) (sessions_resolvePaths r fixes)
  | repack => exact .of_lines (Each.repack hr) (sessions_repack r)
  | carry flags paths extras hok => exact hr.carry hok

theorem Filled.accounted (h : r.Filled) : r.Accounted := by
  induction h with
  | new => exact Each.empty
  | next _ hnext ih => exact hnext.accounted ih

/-! ## 3. What is on a line -/

end Report

namespace LineSession

variable {s : LineSession}

/-- Arms in order are numbers in order. -/
theorem ArmsBelow.exists_numbers {total : Nat} {arms : List BranchArm}
    (h : ArmsBelow total arms) :
    ∃ m : List Nat, arms = m.map (fun i : Nat => .index i) ∧ m.Pairwise (· < ·) ∧
      ∀ i ∈ m, i < total := by
  induction arms with
  | nil => exact ⟨[], rfl, .nil, fun i hi => absurd hi List.not_mem_nil⟩
  | cons a rest ih =>
    obtain ⟨hfirst, hrest⟩ := List.pairwise_cons.1 h.ascending
    obtain ⟨m, rfl, hasc, hbelow⟩ := ih ⟨hrest, fun b hb => h.below b (List.mem_cons_of_mem a hb)⟩
    obtain ⟨i, rfl, hi⟩ := h.below a List.mem_cons_self
    refine ⟨i :: m, rfl, List.pairwise_cons.2 ⟨fun j hj => ?_, hasc⟩, fun j hj => ?_⟩
    · have hless : compare (i : Int) j = .lt := hfirst _ (List.mem_map.2 ⟨j, hj, rfl⟩)
      exact Int.ofNat_lt.1 (Int.compare_eq_lt.1 hless)
    · rcases List.mem_cons.1 hj with rfl | hj
      · exact hi
      · exact hbelow j hj

/-- The forms that the reading of a session has: it missed the line or hit it and says nothing of
arms, or it has the numbers of the arms that are missing from its ratio. -/
inductive Form (s : LineSession) : Prop
  | missed (missing : s.missing = none) (reading : s.reading = .miss)
  | hit (x : Binary64) (missing : s.missing = none) (reading : s.reading = .hit x)
  | arms (total : Nat) (m : List Nat) (missing : s.missing = some (m.map fun i : Nat => .index i))
      (ascending : m.Pairwise (· < ·)) (below : ∀ i ∈ m, i < total)
      (reading : s.reading = .ratio (total - m.length) total)

theorem Told.form (h : s.Told) : s.Form := by
  cases h with
  | count n hmissing hreading =>
    by_cases hn : n = 0
    · rw [hn, Reading.ofCount_zero] at hreading
      exact .missed hmissing hreading
    · rw [Reading.ofCount_of_ne_zero hn] at hreading
      exact .hit _ hmissing hreading
  | arms arms total hmissing hbelow hreading =>
    obtain ⟨m, rfl, hasc, hlt⟩ := hbelow.exists_numbers
    rw [List.length_map] at hreading
    exact .arms total m hmissing hasc hlt hreading

end LineSession

/-- The sessions on a line are sessions of the report, and what the line says is what they say. -/
structure Line.ExplainedIn (r : Report) (l : Line) : Prop where
  sessions : l.sessions ≠ []
  apart : l.sessionIds.Nodup
  known : ∀ id ∈ l.sessionIds, id ∈ r.sessions.keys
  reading : l.reading = LineSession.readingOf l.sessions
  complexity : l.complexity = LineSession.complexityOf l.sessions
  form : ∀ s ∈ l.sessions, s.Form

theorem Line.Accounted.explainedIn {r : Report} {l : Line} (h : l.Accounted r.Knows) :
    l.ExplainedIn r where
  sessions := h.sessions
  apart := h.apart
  known := by
    intro id hid
    obtain ⟨s, hs, rfl⟩ := mem_sessionIds.1 hid
    exact r.sessions.contains_iff.1 (h.known s hs)
  reading := h.reading
  complexity := h.complexity
  form := fun s hs => (h.told s hs).form

namespace Report

variable {r : Report}

/-- **The sessions of every line explain it.**  Whatever happens to a report that tracefiles fill,
each line in each of its slots has sessions, all of them told apart and known to the report, and
reads what they read. -/
theorem lines_stay_explained (h : r.Filled) {f : SourceFile} (hf : some f ∈ r.slots) {n : Nat}
    {l : Line} (hl : f.lines.get? n = some l) : l.ExplainedIn r := by
  have haccounted := h.accounted
  obtain ⟨name, hname⟩ := haccounted.consistent.exists_file?_of_mem_slots hf
  obtain ⟨w, hw, rfl⟩ := haccounted.of_file? hname
  exact (hw.line n l hl).explainedIn

/-- Three uploads of one line: the third one is given the id of the second, which was deleted. -/
theorem lines_stay_explained_reused :
    ∃ r : Report, r.Filled ∧ ∃ f l, some f ∈ r.slots ∧ f.lines.get? 1 = some l ∧
      l.sessionIds = [0, 1] ∧ l.reading = .ratio 1 1 ∧ l.ExplainedIn r := by
  obtain ⟨_, r, hr, _, r', hr', _, r'', hr'', f, l, hf, hl, hids, hreading⟩ :
      ∃ summary r, ({} : Report).addUpload missedUpload.1 missedUpload.2 = .ok (summary, r) ∧
      ∃ summary' r', r.addUpload reachedUpload.1 reachedUpload.2 = .ok (summary', r') ∧
      ∃ summary'' r'', (r'.deleteSessions [1]).addUpload branchedUpload.1 branchedUpload.2 =
        .ok (summary'', r'') ∧
      ∃ f l, some f ∈ r''.slots ∧ f.lines.get? 1 = some l ∧
        l.sessionIds = [0, 1] ∧ l.reading = .ratio 1 1 :=
    ⟨_, _, rfl, _, _, rfl, _, _, rfl, _, _, List.mem_singleton_self _, rfl, rfl, rfl⟩
  have hfilled : r''.Filled :=
    (((Filled.new.next (.addUpload _ _ ⟨missedBytes, rfl⟩ hr)).next
      (.addUpload _ _ ⟨reachedBytes, rfl⟩ hr')).next (.deleteSessions [1])).next
        (.addUpload _ _ ⟨branchedBytes, rfl⟩ hr'')
  exact ⟨r'', hfilled, f, l, hf, hl, hids, hreading, lines_stay_explained hfilled hf hl⟩

end Report

end CoverageLedger
