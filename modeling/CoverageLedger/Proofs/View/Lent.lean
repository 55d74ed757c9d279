import CoverageLedger.Pattern.Language
import CoverageLedger.Proofs.Store.History
import CoverageLedger.Proofs.Upload.Lines
import CoverageLedger.Proofs.View.Shares

/-!
# Totals that sessions lend

A view of one flag may take its totals from the session that has the flag, which wrote them down at
its upload.  They are still those of the lines: whatever happens to a report that tracefiles fill, no
other session changes what this one says of a line, and a session that gets another id says the same
under it.  What may change is the kind of a line, so that the counts of branches and methods are left
out of account.
-/

namespace CoverageLedger

/-! ## 1. Files -/

namespace SourceFile

/-- A file that tracefiles made, for a report that knows some sessions. -/
structure Lasting (knows : Nat → Prop) (f : SourceFile) : Prop where
  regular : f.Regular knows
  ignore : f.ignore = none
  lines : f.AllLines (Line.Steady knows)

variable {knows knows' : Nat → Prop} {f g : SourceFile} {id : Nat}

namespace Lasting

theorem mono (h : f.Lasting knows) (hknows : ∀ id, knows id → knows' id) : f.Lasting knows' :=
  ⟨h.regular.mono hknows, h.ignore, h.lines.mono fun _ hl => hl.mono hknows⟩

theorem opened (h : f.Lasting knows) : f.opened.Lasting knows :=
  ⟨h.regular.opened, h.ignore, h.lines.opened⟩

theorem fromTrace (h : f.Lasting knows) : f.FromTrace :=
  ⟨h.lines.faithful, h.ignore, fun n l hl => (h.lines.line n l hl).bare⟩

theorem mergeLines (h : f.Lasting knows) (hg : g.Lasting knows) :
    (f.mergeLines g.lines true).opened.Lasting knows where
  regular := h.regular.mergeLines hg.regular.sound.numbers hg.regular.known true
  ignore := (ignore_mergeLines g.lines).trans h.ignore
  lines := (h.lines.mergeLines hg.lines fun _ _ hl hl' => hl.merge hl').opened

theorem withoutSessions (h : f.Lasting knows) (ids : List Nat) :
    (f.withoutSessions ids).Lasting fun id => knows id ∧ id ∉ ids where
  regular := h.regular.withoutSessions ids
  ignore := by
    unfold SourceFile.withoutSessions
    split <;> exact ignore_afterSessionIds.trans h.ignore
  lines := h.lines.withoutSessions (fun _ _ hl hkept => hl.withoutSessions hkept)
    fun _ hl hpassed => hl.and hpassed

theorem changeSessionId {old new : Nat} (h : f.Lasting knows) (hfree : ¬ knows new) :
    (f.changeSessionId old new).Lasting fun id => id = new ∨ knows id ∧ id ≠ old where
  regular := h.regular.changeSessionId old new
  ignore := by
    unfold SourceFile.changeSessionId
    split
    · exact h.ignore
    · exact ignore_afterSessionIds.trans h.ignore
  lines := h.lines.changeSessionId (fun _ hl => hl.withSessionId hfree)
    fun _ hl hpassed => (hl.and hpassed).mono fun _ => .inr

/-- Rows of lines are read back as lines that count the same. -/
theorem keepsTally (h : f.Lasting knows) (hfits : ∀ n l, f.lines.get? n = some l → l.Fits) (n : Nat)
    (l : Line) (hl : f.lines.get? n = some l) : Chunk.KeepsTally l :=
  Chunk.keepsTally_of_steady (h.lines.line n l hl) (hfits n l hl)

theorem reloaded (h : f.Lasting knows) (name : String)
    (hfits : ∀ n l, f.lines.get? n = some l → l.Fits) : (Report.reloaded name f).Lasting knows where
  regular := Report.regular_reloaded h.regular name fun _ => h.keepsTally hfits
  ignore := rfl
  lines := by
    refine ⟨Report.faithful_reloaded h.regular name fun _ => h.keepsTally hfits, fun n l hl => ?_⟩
    change (Chunk.lines f.encode).get? n = some l at hl
    cases hcontent : f.content with
    | text chunk =>
      refine h.lines.line n l (Eq.trans ?_ hl)
      rw [SourceFile.lines, SourceFile.encode, hcontent]
    | lines table =>
      have hparsed : f.isParsed = true := by rw [SourceFile.isParsed, hcontent]
      rw [Report.encode_of_parsed hparsed, Chunk.get?_lines_encode f.sessionIds
        h.regular.sound.numbers fun n l hl => ⟨h.lines.line n l hl, hfits n l hl⟩] at hl
      obtain ⟨own, hown, rfl⟩ := Option.map_eq_some_iff.1 hl
      exact (h.lines.line n own hown).reread

end Lasting

/-- A session that is not known has no readings in the file. -/
theorem Lasting.readingsOf_eq_nil (h : f.Lasting knows) (hid : ¬ knows id) : f.readingsOf id = [] :=
  readingsOf_eq_nil_iff.2 fun hmem => hid (h.regular.known id hmem)

end SourceFile

/-! ### Files of uploads -/

namespace TracedFile

variable {f : TracedFile} {g : SourceFile} {id : Nat} {knows : Nat → Prop}

theorem name_source (h : f.source id = .ok g) : g.name = f.reportPath := by
  refine source_keeps (P := fun g => g.name = f.reportPath) (fun s n line s' hs _ hadd => ?_) rfl h
  rcases (add_cases hadd).2 with rfl | rfl
  · exact hs
  · exact hs

theorem sound_source (h : f.source id = .ok g) : g.Sound := by
  refine source_keeps (P := SourceFile.Sound) (fun s n line s' hs _ hadd => ?_) (.new _) h
  obtain ⟨hn, rfl | rfl⟩ := add_cases hadd
  · exact hs
  · exact hs.appendLine hn line true

theorem steady_reads (h : f.InRange) {n : Nat} {s : LineSession} (hs : f.reads n = some s) :
    s.Steady := by
  refine forall_reads (fun _ _ ha hb => ha.merge hb) (fun n arms _ => ?_) (fun l hl => ?_)
    (fun k hk => ?_) hs
  · exact ⟨.ratio _ _, rfl, rfl⟩
  · exact ⟨Reading.steady_ofCount (h.lines l hl).2, rfl, rfl⟩
  · exact ⟨Reading.steady_ofCount (h.functions k hk), rfl, rfl⟩

theorem lasting_source (h : f.InRange) (hid : knows id) (hg : f.source id = .ok g) :
    g.opened.Lasting knows := by
  have hlines : g.AllLines (Line.Steady knows) :=
    allLines_source (fun l hl => (h.lines l hl).1)
      (fun _ _ _ hread hmade hbare => .of_madeBy hmade hbare (steady_reads h hread) hid) hg
  refine ⟨⟨(sound_source hg).opened, hlines.faithful.opened, fun chunk hchunk => ?_, fun k hk => ?_⟩,
    (fromTrace_source hg).ignore, hlines.opened⟩
  · cases hchunk
  · obtain ⟨n, l, hl, hmem⟩ := SourceFile.mem_idsOfLines.1 hk
    obtain ⟨s, hs, rfl⟩ := Line.mem_sessionIds.1 hmem
    exact (hlines.line n l hl).known s hs

end TracedFile

/-! ## 2. What a session says -/

namespace Line

variable {l : Line} {id k : Nat} {before after : Option Line}

/-- What a session has made of a line changes nothing of what another one says. -/
theorem said_of_regained (h : Regained id before after) (hk : k ≠ id) :
    after.elim [] (said k) = before.elim [] (said k) := by
  have hsaid (own : Option Line) : own.elim [] (said k) =
      ((sessionsOn own).filter fun s => s.id == k).map fun s =>
        (s.reading.outcome, s.complexity) := by
    cases own <;> rfl
  rw [hsaid, hsaid, ← h.sessions, List.filter_filter]
  congr 1
  refine List.filter_congr fun s _ => ?_
  by_cases hs : s.id = k
  · simp [hs, hk]
  · simp [hs]

/-- Taking sessions out changes nothing of what the others say. -/
theorem said_withoutSessions {ids : List Nat} (hne : l.sessions ≠ []) (hk : k ∉ ids) :
    (l.withoutSessions ids).elim [] (said k) = l.said k := by
  have hleft : ((l.sessions.filter fun s => !ids.contains s.id).filter fun s => s.id == k) =
      l.sessions.filter fun s => s.id == k := by
    rw [List.filter_filter]
    refine List.filter_congr fun s _ => ?_
    by_cases hs : s.id = k
    · simp [hs, hk]
    · simp [hs]
  rw [withoutSessions_of_sessions_ne hne]
  split
  · rename_i hempty
    rw [List.isEmpty_iff.1 hempty] at hleft
    rw [said, ← hleft]
    rfl
  · show ((l.sessions.filter fun s => !ids.contains s.id).filter fun s => s.id == k).map _ = _
    rw [hleft]
    rfl

end Line

namespace Report

variable {r r' last loaded : Report} {files : List TracedFile} {names : List String}
  {upload : Upload} {summary : UploadSummary} {id id' k : Nat} {s s' : Session} {q : String}

theorem said_deleteSessions {ids : List Nat}
    (hlines : ∀ q n l, r.lineAt? q n = some l → l.sessions ≠ []) (hk : k ∉ ids) (q : String)
    (n : Nat) : (r.deleteSessions ids).said k q n = r.said k q n := by
  by_cases hids : ids = []
  · rw [hids]
    rfl
  · rw [said, lineAt?_deleteSessions hids, said, lineAt?]
    cases hf : r.file? q with
    | none => rfl
    | some f =>
      rw [Option.bind_some, Option.bind_some, SourceFile.get?_withoutSessions]
      split
      · cases hl : f.lines.get? n with
        | none => rfl
        | some l =>
          refine Line.said_withoutSessions (hlines q n l ?_) hk
          rw [lineAt?, hf, Option.bind_some, hl]
      · rfl

/-- The files of an upload stand under their names, counted just now, and nothing else changes. -/
theorem row?_addTraced (h : r.Consistent) (hok : addTraced id r files = .ok (names, r')) :
    names.Sublist (files.map TracedFile.reportPath) ∧
      (∀ q ∈ names, ∃ f, r'.row? q = some (.counted f)) ∧
      ∀ q, q ∉ names → r'.row? q = r.row? q := by
  induction files generalizing r names with
  | nil =>
    cases hok
    exact ⟨.slnil, fun q hq => absurd hq List.not_mem_nil, fun _ _ => rfl⟩
  | cons f rest ih =>
    obtain ⟨g, names', hg, hrest, hnames⟩ := addTraced_cons hok
    obtain ⟨hsub, hcounted, hothers⟩ := ih (h.append g true) hrest
    rw [List.map_cons, ← TracedFile.name_source hg]
    cases hempty : g.isEmpty with
    | true =>
      rw [hempty, if_pos rfl] at hnames
      rw [append_of_isEmpty hempty] at hothers
      rw [hnames]
      exact ⟨hsub.cons _, hcounted, hothers⟩
    | false =>
      rw [hempty, if_neg (by decide)] at hnames
      have hrow (q : String) := row?_append h hempty true q
      rw [hnames]
      refine ⟨hsub.cons_cons _, fun q hq => ?_, fun q hq => ?_⟩
      · by_cases hlater : q ∈ names'
        · exact hcounted q hlater
        · obtain rfl := (List.mem_cons.1 hq).resolve_right hlater
          exact ⟨_, (hothers _ hlater).trans ((hrow _).trans (if_pos rfl))⟩
      · obtain ⟨hne, hlater⟩ := not_or.1 fun hmem => hq (List.mem_cons.2 hmem)
        rw [hothers q hlater, hrow, if_neg hne]

/-! ## 3. Sessions that lend their totals -/

/-- The totals of a session are its share of the report, but for the kinds of lines. -/
def Lends (r : Report) (id : Nat) (s : Session) : Prop :=
  ∃ t, s.totals = some t ∧ t.withoutKinds = (r.shareOf id).withoutKinds

/-- A report whose files tracefiles made, and whose sessions lend their totals. -/
structure Lasting (r : Report) : Prop where
  rows : Each (fun _ w => w.file.Lasting r.Knows) r
  lends : ∀ id s, r.sessions.get? id = some s → r.Lends id s

/-- Every file has a row. -/
theorem shareIn_eq_row (r : Report) (id : Nat) (q : String) :
    r.shareIn id q = (r.row? q).bind fun w => w.file.sessionTotals.get? id := by
  rw [shareIn]
  cases hf : r.file? q with
  | none =>
    rw [row?_eq_none hf]
    rfl
  | some f =>
    obtain ⟨w, hw, rfl⟩ := exists_row? hf
    rw [hw]
    rfl

/-- The totals of a session over files that were counted just now. -/
theorem sessionTotalsIn_of_counted (hcounted : ∀ q ∈ names, ∃ f, r.row? q = some (.counted f)) :
    r.sessionTotalsIn id names =
      { Totals.sum (names.filterMap (r.shareIn id)) with sessions := 1 } := by
  have hin : (names.filterMap fun q => (r.entry? q).bind fun e => e.sessionTotals.get? id) =
      names.filterMap (r.shareIn id) := by
    refine List.filterMap_congr fun q hq => ?_
    obtain ⟨f, hf⟩ := hcounted q hq
    obtain ⟨e, he, -, -, hsessions⟩ := row?_eq_some.1 hf
    rw [shareIn_eq_row, hf, entry?, he, Option.bind_some, hsessions]
    rfl
  exact congrArg (fun items => ({ Totals.sum items with sessions := 1 } : Totals)) hin

/-- The totals of a session over files that were counted just now, where it is in no others. -/
theorem sessionTotalsIn_eq_shareOf (h : r.Consistent) (hnodup : names.Nodup)
    (hcounted : ∀ q ∈ names, ∃ f, r.row? q = some (.counted f))
    (hothers : ∀ q, q ∉ names → r.shareIn id q = none) :
    r.sessionTotalsIn id names = r.shareOf id := by
  have hperm : (names.filterMap (r.shareIn id)).Perm (r.names.filterMap (r.shareIn id)) := by
    refine filterMap_perm hnodup r.nodup_names fun q t ht => iff_of_true ?_ ?_
    · refine Decidable.byContradiction fun hq => ?_
      rw [hothers q hq] at ht
      cases ht
    · exact mem_names_of_shareIn h ht
  rw [sessionTotalsIn_of_counted hcounted, Totals.sum_perm hperm]
  rfl

namespace Lasting

theorem steady (h : r.Lasting) {n : Nat} {l : Line} (hl : r.lineAt? q n = some l) :
    l.Steady r.Knows := by
  obtain ⟨f, hf, hline⟩ := Option.bind_eq_some_iff.1 hl
  obtain ⟨w, hw, rfl⟩ := h.rows.of_file? hf
  exact hw.lines.line n l hline

theorem fromTraces (h : r.Lasting) : r.FromTraces := by
  refine ⟨h.rows.consistent, fun q f hf => ?_⟩
  obtain ⟨w, hw, rfl⟩ := h.rows.of_file? hf
  exact hw.fromTrace

/-- A session that is not known has no share in any file. -/
theorem shareIn_eq_none (h : r.Lasting) (hid : ¬ r.Knows id) (q : String) :
    r.shareIn id q = none := by
  rw [shareIn_eq_row]
  cases hw : r.row? q with
  | none => rfl
  | some w =>
    rw [Option.bind_some, SourceFile.get?_sessionTotals_eq,
      (h.rows.row q w hw).readingsOf_eq_nil hid]
    rfl

/-- It is enough that each session has the totals and the share of one from before. -/
theorem of_sessions (h : r.Lasting) (hrows : Each (fun _ w => w.file.Lasting r'.Knows) r')
    (hsessions : ∀ id' s', r'.sessions.get? id' = some s' → ∃ id s,
      r.sessions.get? id = some s ∧ s'.totals = s.totals ∧
      ∀ q, (r'.shareIn id' q).map Totals.withoutKinds =
        (r.shareIn id q).map Totals.withoutKinds) : r'.Lasting := by
  refine ⟨hrows, fun id' s' hs' => ?_⟩
  obtain ⟨id, s, hs, htotals, hshare⟩ := hsessions id' s' hs'
  obtain ⟨t, ht, hsame⟩ := h.lends id s hs
  exact ⟨t, htotals.trans ht,
    hsame.trans (shareOf_congr hrows.consistent h.rows.consistent hshare).symm⟩

theorem empty : ({} : Report).Lasting where
  rows := .empty
  lends := by
    intro id s hs
    cases hs

/-! ### Uploads -/

theorem addUpload (h : r.Lasting) (hparsed : ∃ bytes, TracedFile.ofBytes? bytes = .ok files)
    (hpaths : (files.map TracedFile.reportPath).Nodup)
    (hok : r.addUpload files upload = .ok (summary, r')) : r'.Lasting := by
  obtain ⟨bytes, hbytes⟩ := hparsed
  have hrange := TracedFile.inRange_of_ofBytes? hbytes
  have hfree := r.not_knows_nextSession
  have hrows : Each (fun _ w => w.file.Lasting r'.Knows) r' := by
    have hbefore : Each (fun _ w => w.file.Lasting r'.Knows) r :=
      h.rows.mono fun _ _ hw => hw.mono fun _ hid => knows_addUpload hok (.inr hid)
    refine hbefore.addUpload hok fun f hf g hg => ?_
    have hsource : g.opened.Lasting r'.Knows :=
      TracedFile.lasting_source (hrange f hf) (knows_addUpload hok (.inl rfl)) hg
    exact ⟨hsource.opened, fun w hw => (hw.mergeLines hsource).opened⟩
  have hregains : Regains r.nextSession r r' :=
    h.fromTraces.regains_addUpload (fun f hf l hl => ((hrange f hf).lines l hl).1) hok
      fun q n l hl s hs heq => hfree (heq ▸ (h.steady hl).known s hs)
  refine ⟨hrows, fun id s hs => ?_⟩
  obtain ⟨names, last, hadded, -, rfl⟩ := addUpload_cases hok
  change (r.sessions.insert r.nextSession _).get? id = some s at hs
  rw [Table.get?_insert] at hs
  split at hs
  · -- the new session counted the files that it was added to, and it is in no others
    rename_i hid
    obtain rfl := Option.some.inj hs
    have hstart : Each (fun _ w => w.file.Lasting r.Knows) (r.addSession (sessionOf upload)).2 :=
      h.rows.of_eq rfl rfl
    have hlast : Each (fun _ w => w.file.Lasting _) last := hrows.of_eq rfl rfl
    obtain ⟨hsub, hcounted, hothers⟩ := row?_addTraced hstart.consistent hadded
    rw [hid]
    refine ⟨_, rfl, congrArg Totals.withoutKinds (sessionTotalsIn_eq_shareOf hlast.consistent
      (hsub.nodup hpaths) hcounted fun q hq => ?_)⟩
    rw [shareIn_eq_row, hothers q hq]
    exact (r.shareIn_eq_row _ q).symm.trans (h.shareIn_eq_none hfree q)
  · rename_i hother
    obtain ⟨t, ht, hsame⟩ := h.lends id s hs
    refine ⟨t, ht, hsame.trans (shareOf_congr h.rows.consistent hrows.consistent fun q =>
      shareIn_congr fun n => ?_)⟩
    exact (Line.said_of_regained (hregains q n) hother).symm

/-! ### Sessions that go or get another id -/

theorem deleteSessions (h : r.Lasting) (ids : List Nat) : (r.deleteSessions ids).Lasting := by
  have hrows : Each (fun _ w => w.file.Lasting (r.deleteSessions ids).Knows)
      (r.deleteSessions ids) := by
    refine h.rows.deleteSessions (fun hids _ _ hw => hw.mono fun id hid => ?_)
      fun _ _ _ hw hkept => Row.file_withoutSessions
        ((hw.withoutSessions ids).mono fun _ => knows_deleteSessions) (fun _ hf => hf.opened) hkept
    exact knows_deleteSessions ⟨hid, by rw [hids]; exact List.not_mem_nil⟩
  refine h.of_sessions hrows fun id s hs => ?_
  rw [get?_sessions_deleteSessions] at hs
  split at hs
  · cases hs
  · rename_i hid
    exact ⟨id, s, hs, rfl, fun q => shareIn_congr fun n =>
      said_deleteSessions (fun q n l hl => (h.steady hl).sessions) hid q n⟩

theorem changeSession {old new : Nat} (h : r.Lasting) (hok : r.changeSession old new = .ok r') :
    r'.Lasting := by
  obtain ⟨own, hown, ⟨-, rfl⟩ | ⟨hne, hfree, rfl⟩⟩ := changeSession_cases hok
  · exact h
  · obtain ⟨hconsistent, hsessions, hrow⟩ :=
      foldl_changeSessionIn h.rows.consistent old new own
    generalize r.names.foldl (changeSessionIn old new) (r.renumbered old new own) = next
      at hconsistent hsessions hrow
    have hshare (id : Nat) (q : String) : next.changed.shareIn id q =
        if id = new then r.shareIn old q else if id = old then none else r.shareIn id q := by
      rw [shareIn_eq_row, shareIn_eq_row, shareIn_eq_row, row?_changed, hrow]
      cases hw : r.row? q with
      | none => simp
      | some w =>
        have hfile := h.rows.row q w hw
        exact SourceFile.get?_sessionTotals_changeSessionId hne hfile.regular.faithful.exact
          (fun hin => hfree (hfile.regular.known new hin)) id
    refine h.of_sessions ⟨hconsistent.changed, fun q w' hw' => ?_⟩ fun id s hs => ?_
    · rw [row?_changed, hrow] at hw'
      obtain ⟨w, hw, rfl⟩ := Option.map_eq_some_iff.1 hw'
      exact ((h.rows.row q w hw).changeSessionId hfree).mono fun id hid =>
        knows_of_eq hsessions (knows_renumbered own hid)
    · change next.sessions.get? id = some s at hs
      rw [hsessions, Table.get?_insert, Table.get?_erase] at hs
      split at hs
      · rename_i hid
        obtain rfl := Option.some.inj hs
        refine ⟨old, own, hown, rfl, fun q => ?_⟩
        rw [hshare, if_pos hid]
      · rename_i hid
        split at hs
        · cases hs
        · rename_i hid'
          refine ⟨id, s, hs, rfl, fun q => ?_⟩
          rw [hshare, if_neg hid, if_neg hid']

theorem carry [PatternLanguage] {flags : List String} {extras : Option (Table String Json)}
    (h : r.Lasting) (hok : Carry.report r flags [] extras = .ok r') : r'.Lasting := by
  obtain rfl := Except.ok.inj hok
  have hleft := h.deleteSessions (r.sessions.filter fun _ s => !s.hasAnyFlag flags).keys
  refine hleft.of_sessions (Each.mono (Each.of_eq hleft.rows rfl rfl) fun _ _ hw =>
    hw.mono fun id hid => ?_) fun id s hs => ?_
  · show (Table.map _ _).contains id = true
    unfold Table.contains
    rw [Table.get?_map, Option.isSome_map]
    exact hid
  · change (Table.map _ _).get? id = some s at hs
    rw [Table.get?_map] at hs
    obtain ⟨own, hown, rfl⟩ := Option.map_eq_some_iff.1 hs
    exact ⟨id, own, hown, rfl, fun q => rfl⟩

/-! ### Slots and reloads -/

theorem repack (h : r.Lasting) : r.repack.2.Lasting := by
  refine h.of_sessions (h.rows.repack.mono fun _ _ hw => hw.mono fun _ =>
    knows_of_eq (sessions_repack r)) fun id s hs => ?_
  rw [sessions_repack] at hs
  refine ⟨id, s, hs, rfl, fun q => ?_⟩
  rw [shareIn_eq_row, shareIn_eq_row, row?_repack h.rows.consistent]

end Lasting

/-- The numbers of a report lie in the ranges of the fields that they are written to. -/
structure InRange (r : Report) : Prop where
  lines : ∀ name f, r.file? name = some f → ∀ n l, f.lines.get? n = some l → l.Fits
  totals : ∀ id s, r.sessions.get? id = some s → ∀ t, s.totals = some t → t.CountsFit

/-- A session that lends its totals has none of a diff in them. -/
theorem Lends.diff {t : Totals} (h : r.Lends id s) (ht : s.totals = some t) : t.diff = none := by
  obtain ⟨own, hown, hsame⟩ := h
  obtain rfl := Option.some.inj (ht.symm.trans hown)
  have hdiff := congrArg Totals.diff hsame
  exact hdiff

/-- **A reload leaves every session its totals and its share.** -/
theorem Lasting.reload (h : r.Lasting) (hrange : r.InRange) {store : Store} {name : String}
    (hload : (store.save name r).load name = .ok loaded) : loaded.Lasting := by
  rw [Store.load_save] at hload
  obtain ⟨m, hm, rfl⟩ := ofTexts_eq_ok hload
  have hfile {q : String} {f : SourceFile} (hf : r.file? q = some f) : f.Lasting r.Knows := by
    obtain ⟨w, hw, rfl⟩ := h.rows.of_file? hf
    exact hw
  have hloads := h.rows.consistent.loadsAs (fun q f hf => written_of_regular (hfile hf).regular) hm
  obtain ⟨hkeys, hread⟩ := Manifest.sessions_accepted hm
  change m.sessions.keys = r.sessions.keys at hkeys
  have hknows (id : Nat) (hid : r.Knows id) : (ofArchive r.archive m).Knows id := by
    unfold Knows at hid ⊢
    rw [Table.contains_iff] at hid ⊢
    exact hkeys ▸ hid
  refine h.of_sessions ⟨hloads.consistent, fun q w hw => ?_⟩ fun id s' hs' => ?_
  · have hown := file?_of_row? hw
    rw [hloads.file] at hown
    obtain ⟨f, hf, heq⟩ := Option.map_eq_some_iff.1 hown
    rw [← heq]
    exact ((hfile hf).reloaded q (hrange.lines q f hf)).mono hknows
  · obtain ⟨s, hs⟩ : ∃ s, r.sessions.get? id = some s := by
      rw [← Table.mem_keys_iff, ← hkeys, Table.mem_keys_iff]
      exact ⟨s', hs'⟩
    obtain ⟨own, hown, haccepts⟩ := hread id s hs
    obtain rfl := Option.some.inj (hown.symm.trans hs')
    refine ⟨id, s, hs, Session.totals_of_accepts haccepts fun t ht => ?_, fun q => ?_⟩
    · exact ⟨hrange.totals id s hs t ht, (h.lends id s hs).diff ht⟩
    · rw [shareIn, shareIn, hloads.file]
      cases hf : r.file? q with
      | none => rfl
      | some f =>
        rw [Option.map_some, Option.bind_some, Option.bind_some, SessionTotals.get?,
          SourceFile.sessionTotals_congr (tally_reloaded (hfile hf).regular q fun _ =>
            (hfile hf).keepsTally (hrange.lines q f hf))]
        rfl

/-! ## 4. Runs -/

/-- Reading lines changes none of them. -/
theorem Lasting.readLines (h : r.Lasting) (name : String) :
    (r.afterReading name SourceFile.opened).Lasting := by
  have hacts := actsAt_afterReading h.rows.consistent name SourceFile.opened
  have hrows : Each (fun _ w => w.file.Lasting r.Knows) (r.afterReading name SourceFile.opened) :=
    h.rows.afterReading name fun _ hw => hw.opened
  refine h.of_sessions (hrows.mono fun _ _ hw => hw.mono fun _ => knows_of_eq hacts.sessions)
    fun id s hs => ?_
  rw [hacts.sessions] at hs
  refine ⟨id, s, hs, rfl, fun q => ?_⟩
  rw [shareIn_eq_row, shareIn_eq_row, hacts.row]
  split
  · cases r.row? q <;> rfl
  · rfl

/-- One thing that happens to a report that tracefiles fill, its files being left alone otherwise. -/
inductive Upkeep (r : Report) : Report → Prop
  | addUpload (files : List TracedFile) (upload : Upload) {summary : UploadSummary} {r' : Report} :
      (∃ bytes, TracedFile.ofBytes? bytes = .ok files) →
      (files.map TracedFile.reportPath).Nodup →
      r.addUpload files upload = .ok (summary, r') → Upkeep r r'
  | deleteSessions (ids : List Nat) : Upkeep r (r.deleteSessions ids)
  | changeSession (old new : Nat) {r' : Report} :
      r.changeSession old new = .ok r' → Upkeep r r'
  | repack : Upkeep r r.repack.2
  | reload (s : Store) (name : String) {r' : Report} :
      r.InRange → (s.save name r).load name = .ok r' → Upkeep r r'
  | carry [PatternLanguage] (flags : List String) (extras : Option (Table String Json))
      {r' : Report} : Carry.report r flags [] extras = .ok r' → Upkeep r r'
  | readLines (name : String) : Upkeep r (r.afterReading name SourceFile.opened)

/-- A report that was empty at first. -/
inductive Maintained : Report → Prop
  | new : Maintained {}
  | next {r r' : Report} : Maintained r → Upkeep r r' → Maintained r'

theorem Upkeep.lasting (h : Upkeep r r') (hr : r.Lasting) : r'.Lasting := by
  cases h with
  | addUpload files upload hparsed hpaths hok => exact hr.addUpload hparsed hpaths hok
  | deleteSessions ids => exact hr.deleteSessions ids
  | changeSession old new hok => exact hr.changeSession hok
  | repack => exact hr.repack
  | reload s name hrange hload => exact hr.reload hrange hload
  | carry flags extras hok => exact hr.carry hok
  | readLines name => exact hr.readLines name

theorem Maintained.lasting (h : r.Maintained) : r.Lasting := by
  induction h with
  | new => exact .empty
  | next _ hnext ih => exact hnext.lasting ih

end Report

/-! ## 5. Views -/

namespace View

open Report

variable {r : Report} {flag : String} {id : Nat} {s : Session}

/-- A session that passes alone lends its totals to a view that may take them. -/
theorem sessionTotals?_ofFlag (hone : (ofFlag r { useSessionTotals := true } flag).sessions.entries =
    [(id, s)]) : (ofFlag r { useSessionTotals := true } flag).sessionTotals? = s.totals := by
  have hvalues : (ofFlag r { useSessionTotals := true } flag).sessions.values = [s] := by
    rw [Table.values, hone]
    rfl
  rw [sessionTotals?, hvalues]
  rfl

/-- **The totals that a session lends are those of the view.**  Whatever uploads, deletions, changed
ids, repacks, reloads and rounds of carrying forward led to a report, a view of a flag that one
session has gets the same totals from this session as from the lines, but for the counts of branches
and methods. -/
theorem lent_totals_agree [PatternLanguage] (h : r.Maintained)
    (hone : (r.sessions.filter fun _ s => s.flags.contains flag).size = 1) :
    ∃ fast slow,
      narrow { report := r, options := { useSessionTotals := true } } [] [flag] = .ok fast ∧
      narrow { report := r } [] [flag] = .ok slow ∧
      fast.sessionTotals?.isSome ∧ slow.sessionTotals? = none ∧
      fast.totals.withoutKinds = slow.totals.withoutKinds := by
  have hlasting := h.lasting
  obtain ⟨⟨id, s⟩, hentries⟩ := List.length_eq_one_iff.1 hone
  have hsessions {options : ViewOptions} : (ofFlag r options flag).sessions.entries = [(id, s)] := by
    rw [sessions_ofFlag, hentries]
  have hs : r.sessions.get? id = some s := by
    have hin := (Table.get?_eq_some_iff _).2 (hentries ▸ List.mem_singleton_self (id, s))
    rw [Table.get?_filter] at hin
    exact (Option.filter_eq_some_iff.1 hin).1
  obtain ⟨t, ht, hsame⟩ := hlasting.lends id s hs
  have hfast := (sessionTotals?_ofFlag hsessions).trans ht
  have hslow : (ofFlag r {} flag).sessionTotals? = none := by
    rw [sessionTotals?]
    split <;> rfl
  refine ⟨_, _, narrow_flag r _ flag, narrow_flag r _ flag, ?_, hslow, ?_⟩
  · rw [hfast]
    rfl
  · have hcomputed : (ofFlag r {} flag).computedTotals = r.shareOf id :=
      computedTotals_of_alone (fun q f hf n l hl => by
        obtain ⟨w, hw, rfl⟩ := hlasting.rows.of_file? hf
        exact hw.lines.line n l hl) hsessions
    rw [totals, totals, hfast, hslow, Option.getD_some, Option.getD_none, hsame, hcomputed]

/-- A line that session 0 missed and session 1 reached. -/
def contestedLine : Line :=
  { reading := .hit (.ofNat 1)
    sessions := [{ id := 0, reading := .miss }, { id := 1, reading := .hit (.ofNat 1) }] }

def contestedFile : SourceFile :=
  { name := "a", content := .lines ((∅ : Table Nat Line).insert 1 contestedLine) }

theorem fits_contestedLine : contestedLine.Fits where
  reading := ⟨by decide, by decide⟩
  sessions := by
    intro s hs
    rcases List.mem_cons.1 hs with rfl | hs
    · refine ⟨by decide, trivial, ?_, ?_, ?_⟩ <;> (intro _ h; cases h)
    · rw [List.mem_singleton.1 hs]
      refine ⟨by decide, ⟨by decide, by decide⟩, ?_, ?_, ?_⟩ <;> (intro _ h; cases h)
  messages := by
    intro j h
    cases h
  complexity := by
    intro c h
    cases h
  datapoints := by
    intro ds h
    cases h

/-- The totals that an upload of one line of one file gives its session. -/
def uploadTotals (l : Line) : Totals := { Totals.ofLines [l] with files := 1, sessions := 1 }

def contestedSession (flag : String) (t : Totals) : Session :=
  { totals := some t, time := some 0, flags := [flag] }

/-- The report that the two uploads leave. -/
def contestedReport : Report :=
  { files := (∅ : Table String FileEntry).insert "a" (.ofFile 0 contestedFile)
    slots := [some contestedFile]
    sessions := ((∅ : Table Nat Session).insert 0
      (contestedSession "unit" (uploadTotals (.ofSession { id := 0, reading := .miss })))).insert 1
      (contestedSession "e2e" (uploadTotals (.ofSession { id := 1, reading := .hit (.ofNat 1) }))) }

theorem fits_contestedSession (flag : String) {t : Totals} (h : t.Fits) :
    (contestedSession flag t).Fits where
  totals := by
    intro own hown
    obtain rfl := Option.some.inj hown
    exact h
  time := by
    intro i hi
    obtain rfl := Option.some.inj hi
    exact ⟨by decide, by decide⟩
  env := by
    intro j hj
    cases hj
  extras := by
    intro k j hj
    cases hj

theorem fits_contestedManifest : contestedReport.manifest.Fits where
  files := by
    intro name e he
    have hmem : (name, e) ∈ [("a", FileEntry.ofFile 0 contestedFile)] :=
      (Table.get?_eq_some_iff _).1 he
    obtain ⟨-, rfl⟩ := Prod.mk.inj (List.mem_singleton.1 hmem)
    refine ⟨⟨.of_counts (by decide) rfl rfl rfl, fun id t ht => ?_, fun t ht => by cases ht⟩,
      contestedFile.bounded_sessionTotals⟩
    have hid : (id, t) ∈ [(0, Totals.ofLines [.ofSession { id := 0, reading := .miss }]),
        (1, Totals.ofLines [.ofSession { id := 1, reading := .hit (.ofNat 1) }])] :=
      (Table.get?_eq_some_iff _).1 ht
    rcases List.mem_cons.1 hid with hfirst | hsecond
    · obtain ⟨rfl, rfl⟩ := Prod.mk.inj hfirst
      exact ⟨by decide, .of_counts (by decide) rfl rfl rfl⟩
    · obtain ⟨rfl, rfl⟩ := Prod.mk.inj (List.mem_singleton.1 hsecond)
      exact ⟨by decide, .of_counts (by decide) rfl rfl rfl⟩
  sessions := by
    intro id s hs
    rcases List.mem_cons.1 ((Table.get?_eq_some_iff _).1 hs) with hfirst | hsecond
    · obtain ⟨rfl, rfl⟩ := Prod.mk.inj hfirst
      exact ⟨by decide, fits_contestedSession "unit" (.of_counts (by decide) rfl rfl rfl)⟩
    · obtain ⟨rfl, rfl⟩ := Prod.mk.inj (List.mem_singleton.1 hsecond)
      exact ⟨by decide, fits_contestedSession "e2e" (.of_counts (by decide) rfl rfl rfl)⟩

theorem inRange_contestedReport : contestedReport.InRange where
  lines := by
    intro name f hf n l hl
    obtain ⟨s, -, hin⟩ := file?_eq_some.1 hf
    have hslots : contestedReport.slots = [some contestedFile] := rfl
    rw [inSlot?, hslots] at hin
    cases s with
    | zero =>
      obtain rfl := Option.some.inj hin
      have hmem : (n, l) ∈ [(1, contestedLine)] := (Table.get?_eq_some_iff _).1 hl
      rw [(Prod.mk.inj (List.mem_singleton.1 hmem)).2]
      exact fits_contestedLine
    | succ s => cases hin
  totals := by
    intro id s hs t ht
    obtain ⟨own, -⟩ := (fits_contestedManifest.sessions id s hs).2.totals t ht
    exact own

/-- Two uploads of one line, saved and loaded: a session missed it that the other one reached. -/
theorem lent_totals_agree_reloaded :
    ∃ r : Report, r.Maintained ∧
      (r.sessions.filter fun _ s => s.flags.contains "unit").size = 1 ∧
      ∃ fast slow,
        narrow { report := r, options := { useSessionTotals := true } } [] ["unit"] = .ok fast ∧
        narrow { report := r } [] ["unit"] = .ok slow ∧
        fast.sessionTotals?.isSome ∧ slow.sessionTotals? = none ∧
        fast.totals.withoutKinds = slow.totals.withoutKinds := by
  obtain ⟨_, r, hmissed, _, hreached⟩ :
      ∃ s r, ({} : Report).addUpload missedUpload.1 { flags := ["unit"] } = .ok (s, r) ∧
        ∃ s', r.addUpload reachedUpload.1 { flags := ["e2e"] } = .ok (s', contestedReport) :=
    ⟨_, _, rfl, _, rfl⟩
  let loaded := ofArchive contestedReport.archive contestedReport.manifest
  have hload : ((∅ : Store).save "r" contestedReport).load "r" = .ok loaded := by
    rw [Store.load_save, ofTexts, manifestText,
      Manifest.ofText?_render fits_contestedManifest (by decide)]
  have hmaintained : loaded.Maintained :=
    ((Maintained.new.next (.addUpload _ _ ⟨missedBytes, rfl⟩ (by decide) hmissed)).next
      (.addUpload _ _ ⟨reachedBytes, rfl⟩ (by decide) hreached)).next
        (.reload ∅ "r" inRange_contestedReport hload)
  have hone : (loaded.sessions.filter fun _ s => s.flags.contains "unit").size = 1 := by
    have hsessions : loaded.sessions = contestedReport.sessions := rfl
    rw [hsessions]
    decide
  exact ⟨loaded, hmaintained, hone, lent_totals_agree hmaintained hone⟩

end View

end CoverageLedger
