import CoverageLedger.Pattern.Language
import CoverageLedger.Proofs.Report.Current
import CoverageLedger.Proofs.Upload.Contribution

/-!
# What sessions keep of the files that are left behind

Patterns choose the files of a report that are carried forward, and flags its sessions.  A session
keeps the totals that it came with, whatever becomes of its files: they are what it has of the files
that are carried and of those that are left behind, together (`carry_leaves_behind`).  So they hold of
the report that is carried when the session has read none of the files that no pattern chooses, and
only then.
-/

namespace CoverageLedger

/-! ## 1. Totals in two parts -/

namespace Totals

/-- Two totals have the same files, the same lines and the same share of lines hit. -/
structure Agrees (t u : Totals) : Prop where
  files : t.files = u.files
  lines : t.lines = u.lines
  hits : t.hits = u.hits
  misses : t.misses = u.misses
  partials : t.partials = u.partials
  coverage : t.coverage = u.coverage

/-- Totals count what two others count together. -/
structure Parts (t u v : Totals) : Prop where
  files : t.files = u.files + v.files
  lines : t.lines = u.lines + v.lines
  hits : t.hits = u.hits + v.hits
  misses : t.misses = u.misses + v.misses
  partials : t.partials = u.partials + v.partials
  coverage : t.coverage = coverageRatio (u.hits + v.hits) (u.lines + v.lines)

variable {t t' u u' v : Totals} {α : Type}

theorem Agrees.of_withoutKinds (h : t.withoutKinds = u.withoutKinds) : t.Agrees u where
  files := (congrArg Totals.files h :)
  lines := (congrArg Totals.lines h :)
  hits := (congrArg Totals.hits h :)
  misses := (congrArg Totals.misses h :)
  partials := (congrArg Totals.partials h :)
  coverage := (congrArg Totals.coverage h :)

theorem Agrees.trans (h : t.Agrees u) (h' : u.Agrees v) : t.Agrees v :=
  ⟨h.files.trans h'.files, h.lines.trans h'.lines, h.hits.trans h'.hits, h.misses.trans h'.misses,
    h.partials.trans h'.partials, h.coverage.trans h'.coverage⟩

theorem Parts.congr (h : t.Parts u v) (ht : t'.Agrees t) (hu : u.Agrees u') : t'.Parts u' v where
  files := ht.files.trans (hu.files ▸ h.files)
  lines := ht.lines.trans (hu.lines ▸ h.lines)
  hits := ht.hits.trans (hu.hits ▸ h.hits)
  misses := ht.misses.trans (hu.misses ▸ h.misses)
  partials := ht.partials.trans (hu.partials ▸ h.partials)
  coverage := ht.coverage.trans (hu.hits ▸ hu.lines ▸ h.coverage)

theorem addUp_append (l l' : List Nat) : addUp (l ++ l') = addUp l + addUp l' := by
  induction l with
  | nil => exact (Nat.zero_add _).symm
  | cons n rest ih =>
    show n + addUp (rest ++ l') = n + addUp rest + addUp l'
    rw [ih, Nat.add_assoc]

/-- A sum over two lists has the sums over each of them as parts. -/
theorem parts_sum_append (items items' : List Totals) :
    (sum (items ++ items')).Parts (sum items) (sum items') := by
  have hcount (count : Totals → Nat) : addUp ((items ++ items').map count) =
      addUp (items.map count) + addUp (items'.map count) := by
    rw [List.map_append, addUp_append]
  exact ⟨List.length_append, hcount _, hcount _, hcount _, hcount _,
    congrArg₂ coverageRatio (hcount _) (hcount _)⟩

/-- A sum over a list has what is chosen from it, and what is not, as parts. -/
theorem parts_sum_filterMap (items : α → Option Totals) (p : α → Bool) (l : List α) :
    (sum (l.filterMap items)).Parts (sum ((l.filter p).filterMap items))
      (sum ((l.filter (!p ·)).filterMap items)) := by
  rw [← sum_perm ((List.filter_append_perm p l).filterMap items), List.filterMap_append]
  exact parts_sum_append _ _

end Totals

namespace Report

open View (ofFlag)

variable {r r' : Report} {files : List TracedFile} {upload : Upload} {summary : UploadSummary}
  {filter : PathFilter} {flags paths names : List String} {extras : Option (Table String Json)}
  {id : Nat} {s : Session} {q : String}

/-! ## 2. Reports that uploads made -/

/-- The rows of a report stay current when a tracefile is added. -/
theorem Current.addUpload (h : r.Current) (hparsed : ∃ bytes, TracedFile.ofBytes? bytes = .ok files)
    (hok : r.addUpload files upload = .ok (summary, r')) : r'.Current := by
  obtain ⟨bytes, hbytes⟩ := hparsed
  have hknown : Each (fun q w => w.Current r'.Knows q) r :=
    h.each.mono fun _ _ hw => hw.mono fun _ hid => knows_addUpload hok (.inr hid)
  have hrows := hknown.addUpload hok fun f hf g hg => by
    have hsource : g.opened.Regular r'.Knows :=
      (TracedFile.lasting_source (TracedFile.inRange_of_ofBytes? hbytes f hf)
        (knows_addUpload hok (.inl rfl)) hg).regular
    refine ⟨.counted hsource rfl, fun w hw => .counted ?_ ?_⟩
    · exact (hw.regular.mergeLines hsource.sound.numbers hsource.known true).opened
    · exact (name_mergeLines g.lines).trans hw.name
  exact ⟨hrows.consistent, hrows.row⟩

/-- Uploads in which no two records are of one file make a report whose sessions lend their totals
and whose rows are current. -/
theorem lasting_and_current {uploads : List (List TracedFile × Upload)}
    (hparsed : ∀ u ∈ uploads, ∃ bytes, TracedFile.ofBytes? bytes = .ok u.1)
    (hpaths : ∀ u ∈ uploads, (u.1.map TracedFile.reportPath).Nodup) (hlasting : r.Lasting)
    (hcurrent : r.Current) (hok : r.addUploads uploads = .ok r') : r'.Lasting ∧ r'.Current :=
  addUploads_keeps (P := fun r => r.Lasting ∧ r.Current) (fun u hu _ _ _ hr hadd =>
    ⟨hr.1.addUpload (hparsed u hu) (hpaths u hu) hadd, hr.2.addUpload (hparsed u hu) hadd⟩)
    ⟨hlasting, hcurrent⟩ hok

/-! ## 3. What a session has of some files -/

/-- What the manifest keeps of a session is what its readings count. -/
theorem Current.sessionTotalsIn (h : r.Current) (id : Nat) (names : List String) :
    r.sessionTotalsIn id names = r.countOver id names := by
  have hshare : (fun q => (r.entry? q).bind fun e => e.sessionTotals.get? id) = r.shareIn id := by
    funext q
    rw [shareIn_eq_row]
    cases hw : r.row? q with
    | some w =>
      obtain ⟨e, he, -, -, hsessions⟩ := row?_eq_some.1 hw
      rw [Option.bind_some, entry?, he, Option.bind_some, hsessions, SessionTotals.get?,
        (h.rows q w hw).sessionTotals, ← SessionTotals.get?]
    | none =>
      have hout : r.entry? q = none := by
        refine Option.eq_none_iff_forall_ne_some.2 fun e he => ?_
        obtain ⟨f, hf⟩ := h.consistent.file?_of_get? he
        obtain ⟨w, hrow, -⟩ := exists_row? hf
        rw [hw] at hrow
        cases hrow
      rw [hout]
      rfl
  rw [countOver_eq_sum, ← hshare]
  rfl

theorem shareOf_eq_countOver (r : Report) (id : Nat) : r.shareOf id = r.countOver id r.names :=
  (r.countOver_eq_sum id r.names).symm

/-- What a session has of some files is what it has of those that are chosen, and of the others. -/
theorem parts_countOver (r : Report) (id : Nat) (p : String → Bool) (names : List String) :
    (r.countOver id names).Parts (r.countOver id (names.filter p))
      (r.countOver id (names.filter (!p ·))) := by
  have hparts := Totals.parts_sum_filterMap (r.shareIn id) p names
  rw [countOver_eq_sum, countOver_eq_sum, countOver_eq_sum]
  exact ⟨hparts.files, hparts.lines, hparts.hits, hparts.misses, hparts.partials, hparts.coverage⟩

/-- A session has no files among some where it has read none. -/
theorem files_countOver_eq_zero :
    (r.countOver id names).files = 0 ↔ ∀ q ∈ names, r.readingsIn id q = [] := by
  show ((names.filter fun q => !(r.readingsIn id q).isEmpty).map _).length = 0 ↔ _
  rw [List.length_map, List.length_eq_zero_iff, List.filter_eq_nil_iff]
  refine forall₂_congr fun q _ => ?_
  rw [Bool.not_eq_true, Bool.not_eq_false', List.isEmpty_iff]

/-- Files that a session has not read make no difference. -/
theorem countOver_filter {p : String → Bool}
    (h : ∀ q ∈ names, p q = false → r.readingsIn id q = []) :
    r.countOver id (names.filter p) = r.countOver id names := by
  have hread : ((names.filter p).filter fun q => !(r.readingsIn id q).isEmpty) =
      names.filter fun q => !(r.readingsIn id q).isEmpty := by
    rw [List.filter_filter]
    refine List.filter_congr fun q hq => ?_
    cases hp : p q with
    | true => rw [Bool.and_true]
    | false =>
      rw [h q hq hp]
      rfl
  rw [countOver, hread]
  rfl

/-- Totals of all files, next to those of the files that are chosen: the others make the difference,
and there is none just when the session has read none of them. -/
theorem parts_and_agrees_iff {t u : Totals} {p : String → Bool}
    (hall : t.Agrees (r.countOver id names)) (hchosen : (r.countOver id (names.filter p)).Agrees u) :
    t.Parts u (r.countOver id (names.filter (!p ·))) ∧
      (t.Agrees u ↔ ∀ q ∈ names, p q = false → r.readingsIn id q = []) := by
  have hparts := (parts_countOver r id p names).congr hall hchosen
  refine ⟨hparts, fun h q hq hout => ?_, fun h => ?_⟩
  · have hnone : (r.countOver id (names.filter (!p ·))).files = 0 := by
      have hfiles := hparts.files
      rw [h.files] at hfiles
      omega
    exact files_countOver_eq_zero.1 hnone q (List.mem_filter.2 ⟨hq, by rw [hout]; rfl⟩)
  · rw [countOver_filter h] at hchosen
    exact hall.trans hchosen

/-! ## 4. What is carried -/

theorem chosenFiles_of_all (r : Report) (hall : ∀ q, filter.chooses q = true) :
    Carry.chosenFiles filter r = r := by
  have hnone : (r.names.filter (!filter.chooses ·)) = [] :=
    List.filter_eq_nil_iff.2 fun q _ => by rw [hall q]; decide
  rw [Carry.chosenFiles, hnone, List.foldl_nil]

/-- Without patterns, every file is chosen. -/
theorem chooses_of_no_patterns [PatternLanguage]
    (hfilter : PathFilter.ofPatterns? [] = .ok filter) (q : String) : filter.chooses q = true := by
  obtain rfl := Except.ok.inj hfilter
  rfl

/-- A report is carried forward whenever its patterns can be read. -/
theorem carry_eq [PatternLanguage] (r : Report) (flags : List String)
    (extras : Option (Table String Json)) (hfilter : PathFilter.ofPatterns? paths = .ok filter) :
    Carry.report r flags paths extras =
      let left := (Carry.chosenFiles filter r).deleteSessions
        (r.sessions.filter fun _ s => !s.hasAnyFlag flags).keys
      .ok { left.changed with sessions := left.sessions.map fun _ s => Carry.carried extras s } := by
  have hsessions := sessions_chosenFiles filter r
  by_cases hpaths : paths = []
  · subst hpaths
    rw [chosenFiles_of_all r (chooses_of_no_patterns hfilter)]
    rfl
  · have hsome : paths.isEmpty = false := by
      rw [List.isEmpty_eq_false_iff]
      exact hpaths
    simp [Carry.report, hsome, hfilter, hsessions, pure, Except.pure, bind, Except.bind]

/-- The sessions that have one of the flags are carried. -/
theorem knows_carry_iff [PatternLanguage] (hok : Carry.report r flags paths extras = .ok r') :
    r'.Knows id ↔ ∃ own, r.sessions.get? id = some own ∧ own.hasAnyFlag flags = true := by
  have hdropped : id ∈ (r.sessions.filter fun _ s => !s.hasAnyFlag flags).keys ↔
      ∃ own, r.sessions.get? id = some own ∧ own.hasAnyFlag flags = false := by
    simp only [Table.mem_keys_iff, Table.get?_filter, Option.filter_eq_some_iff, Bool.not_eq_true']
  rw [Knows, Table.contains, get?_sessions_carry hok]
  cases hs : r.sessions.get? id with
  | none => simp
  | some own =>
    simp only [hdropped, hs, Option.some.injEq, exists_eq_left']
    cases own.hasAnyFlag flags <;> simp

/-- A session that is carried has the same share as before of each file that is chosen, and none of
the others. -/
theorem shareIn_carry [PatternLanguage] (h : r.Lasting)
    (hfilter : PathFilter.ofPatterns? paths = .ok filter)
    (hok : Carry.report r flags paths extras = .ok r') (hs : r'.sessions.get? id = some s)
    (q : String) :
    (r'.shareIn id q).map Totals.withoutKinds =
      if filter.chooses q then (r.shareIn id q).map Totals.withoutKinds else none := by
  have hchosen (q : String) : (Carry.chosenFiles filter r).file? q =
      if filter.chooses q then r.file? q else none := by
    rw [Carry.chosenFiles, h.rows.consistent.file?_foldl_remove]
    cases hq : filter.chooses q with
    | true => exact if_neg fun hout => by simp [hq] at hout
    | false =>
      refine Eq.trans ?_ (if_neg Bool.false_ne_true).symm
      split
      · rfl
      · rename_i hin
        -- a name that is not there has no file
        refine Option.eq_none_iff_forall_ne_some.2 fun f hf => hin (List.mem_filter.2 ?_)
        exact ⟨h.rows.consistent.mem_names_iff.2 ⟨f, hf⟩, by rw [hq]; rfl⟩
  have hstays : id ∉ (r.sessions.filter fun _ s => !s.hasAnyFlag flags).keys := by
    intro hout
    rw [get?_sessions_carry hok, if_pos hout] at hs
    cases hs
  have hlines : ∀ q n l, (Carry.chosenFiles filter r).lineAt? q n = some l → l.sessions ≠ [] := by
    intro q n l hl
    rw [lineAt?, hchosen] at hl
    split at hl
    · exact (h.steady hl).sessions
    · cases hl
  obtain rfl := Except.ok.inj ((carry_eq r flags extras hfilter).symm.trans hok)
  refine (shareIn_congr fun n => said_deleteSessions hlines hstays q n).trans ?_
  rw [shareIn, hchosen]
  split
  · rfl
  · rfl

/-- What a session that is carried has of the report is what it had of the files that are chosen. -/
theorem countOver_carry [PatternLanguage] (h : r.Lasting) (h' : r'.Consistent)
    (hfilter : PathFilter.ofPatterns? paths = .ok filter)
    (hok : Carry.report r flags paths extras = .ok r') (hs : r'.sessions.get? id = some s) :
    (r'.countOver id r'.names).withoutKinds =
      (r.countOver id (r.names.filter filter.chooses)).withoutKinds := by
  have hmask (r : Report) (names : List String) : (r.countOver id names).withoutKinds =
      { Totals.sum (names.filterMap fun q => (r.shareIn id q).map Totals.withoutKinds) with
        sessions := 1 } := by
    rw [countOver_eq_sum, Totals.sees_withoutKinds.sessions, ← Totals.sees_withoutKinds.sum,
      List.map_filterMap]
  have hshare := shareIn_carry h hfilter hok hs
  have hitems : ((r.names.filter filter.chooses).filterMap fun q =>
      (r.shareIn id q).map Totals.withoutKinds) =
      (r.names.filter filter.chooses).filterMap fun q =>
        (r'.shareIn id q).map Totals.withoutKinds :=
    List.filterMap_congr fun q hq => by rw [hshare, if_pos (List.mem_filter.1 hq).2]
  rw [hmask, hmask, hitems,
    Totals.sum_perm (filterMap_perm r'.nodup_names (r.nodup_names.filter _) ?_)]
  intro q t ht
  refine iff_of_true ?_ (List.mem_filter.2 ?_)
  · obtain ⟨own, hown, -⟩ := Option.map_eq_some_iff.1 ht
    exact mem_names_of_shareIn h' hown
  · rw [hshare] at ht
    split at ht
    · rename_i hchosen
      obtain ⟨own, hown, -⟩ := Option.map_eq_some_iff.1 ht
      exact ⟨mem_names_of_shareIn h.rows.consistent hown, hchosen⟩
    · cases ht

/-- The rows that are carried are current. -/
theorem Current.carry [PatternLanguage] (h : r.Current)
    (hok : Carry.report r flags paths extras = .ok r') : r'.Current := by
  obtain ⟨left, hleft, rfl⟩ := carry_cases hok
  have hcurrent : left.Current := by
    rcases hleft with ⟨rfl, -⟩ | ⟨filter, -, rfl⟩
    · exact h
    · exact .of_each (h.each.foldl_remove _) fun _ => knows_of_eq (sessions_chosenFiles filter r)
  refine (hcurrent.deleteSessions _).of_eq rfl rfl fun id hid => ?_
  show (Table.map _ _).contains id = true
  unfold Table.contains
  rw [Table.get?_map, Option.isSome_map]
  exact hid

/-- A session that is carried keeps the totals that it had, which are of all files. -/
theorem exists_totals_of_carried [PatternLanguage] (h : r.Lasting)
    (hok : Carry.report r flags paths extras = .ok r') (hs : r'.sessions.get? id = some s) :
    ∃ t, s.totals = some t ∧ t.Agrees (r.countOver id r.names) := by
  rw [get?_sessions_carry hok] at hs
  split at hs
  · cases hs
  · obtain ⟨own, hown, rfl⟩ := Option.map_eq_some_iff.1 hs
    obtain ⟨t, ht, hsame⟩ := h.lends id own hown
    rw [shareOf_eq_countOver] at hsame
    exact ⟨t, ht, .of_withoutKinds hsame⟩

/-- A view of a flag that one session has takes the totals that the session keeps, or what counting
its readings gives. -/
theorem totals_of_alone [PatternLanguage] (h : r.Lasting) (hcurrent : r'.Current)
    (hok : Carry.report r flags paths extras = .ok r') {flag : String} {t : Totals}
    (ht : s.totals = some t)
    (hone : (r'.sessions.filter fun _ s => s.flags.contains flag).entries = [(id, s)]) :
    (ofFlag r' { useSessionTotals := true } flag).totals = t ∧
      (ofFlag r' {} flag).totals = r'.sessionTotalsIn id r'.names := by
  have hsessions {options : ViewOptions} : (ofFlag r' options flag).sessions.entries = [(id, s)] := by
    rw [View.sessions_ofFlag, hone]
  have hrows : Each (fun _ w => w.file.Lasting r.Knows) r' :=
    h.rows.carry hok (fun _ _ hw => hw) fun ids _ _ _ hw hkept =>
      Row.file_withoutSessions ((hw.withoutSessions ids).mono fun _ => And.left)
        (fun _ hf => hf.opened) hkept
  have hslow : (ofFlag r' {} flag).sessionTotals? = none := by
    rw [View.sessionTotals?]
    split <;> rfl
  constructor
  · rw [View.totals, View.sessionTotals?_ofFlag hsessions, ht, Option.getD_some]
  · rw [View.totals, hslow, Option.getD_none, hcurrent.sessionTotalsIn, ← shareOf_eq_countOver]
    exact View.computedTotals_of_alone (fun q f hf n l hl => by
      obtain ⟨w, hw, rfl⟩ := hrows.of_file? hf
      exact hw.lines.line n l hl) hsessions

/-! ## 5. What is left behind -/

/-- **What carrying forward leaves in the totals of sessions.**  After any uploads, none of which has
two records of one file, each session with one of the flags is carried with its totals, and they count
what it has of the report that is carried and what it had of the files that no pattern chooses.  They
agree with the totals that the carried report keeps of the session just when it had read none of these
files: always when there are no patterns.  A view of a flag that no other session has shows either
one, as it takes the totals of sessions or does not. -/
theorem carry_leaves_behind [PatternLanguage] {uploads : List (List TracedFile × Upload)}
    (hparsed : ∀ u ∈ uploads, ∃ bytes, TracedFile.ofBytes? bytes = .ok u.1)
    (hpaths : ∀ u ∈ uploads, (u.1.map TracedFile.reportPath).Nodup) (flags : List String)
    (extras : Option (Table String Json)) (hfilter : PathFilter.ofPatterns? paths = .ok filter) :
    ∃ r r', addUploads {} uploads = .ok r ∧ Carry.report r flags paths extras = .ok r' ∧
      (∀ id, r'.Knows id ↔ ∃ own, r.sessions.get? id = some own ∧ own.hasAnyFlag flags = true) ∧
      ∀ id s, r'.sessions.get? id = some s → ∃ t, s.totals = some t ∧
        t.Parts (r'.sessionTotalsIn id r'.names)
          (r.countOver id (r.names.filter (!filter.chooses ·))) ∧
        (t.Agrees (r'.sessionTotalsIn id r'.names) ↔
          ∀ q ∈ r.names, filter.chooses q = false → r.readingsIn id q = []) ∧
        (paths = [] → t.Agrees (r'.sessionTotalsIn id r'.names)) ∧
        ∀ flag, (r'.sessions.filter fun _ s => s.flags.contains flag).entries = [(id, s)] →
          (ofFlag r' { useSessionTotals := true } flag).totals = t ∧
          (ofFlag r' {} flag).totals = r'.sessionTotalsIn id r'.names := by
  obtain ⟨r, hr, -⟩ := addUploads_of_parsed hparsed
  obtain ⟨hlasting, hcurrent⟩ := lasting_and_current hparsed hpaths .empty .empty hr
  obtain ⟨r', hok⟩ : ∃ r', Carry.report r flags paths extras = .ok r' :=
    ⟨_, carry_eq r flags extras hfilter⟩
  have hcarried : r'.Current := hcurrent.carry hok
  refine ⟨r, r', hr, hok, fun id => knows_carry_iff hok, fun id s hs => ?_⟩
  obtain ⟨t, ht, hall⟩ := exists_totals_of_carried hlasting hok hs
  have hchosen : (r.countOver id (r.names.filter filter.chooses)).Agrees
      (r'.sessionTotalsIn id r'.names) := by
    rw [hcarried.sessionTotalsIn]
    exact .of_withoutKinds (countOver_carry hlasting hcarried.consistent hfilter hok hs).symm
  obtain ⟨hparts, hagrees⟩ := parts_and_agrees_iff hall hchosen
  refine ⟨t, ht, hparts, hagrees, fun hnone => hagrees.2 fun q _ hout => ?_,
    fun flag hone => totals_of_alone hlasting hcarried hok ht hone⟩
  subst hnone
  rw [chooses_of_no_patterns hfilter] at hout
  cases hout

/-! Records of two files, each with one line, of which the first was reached. -/

def halvesBytes : ByteArray :=
  ⟨#[83, 70, 58, 97, 10, 68, 65, 58, 49, 44, 49, 10, 101, 110, 100, 95, 111, 102, 95, 114, 101, 99,
    111, 114, 100, 10, 83, 70, 58, 98, 10, 68, 65, 58, 49, 44, 48, 10, 101, 110, 100, 95, 111, 102,
    95, 114, 101, 99, 111, 114, 100, 10]⟩

def halvesUpload : List TracedFile × Upload :=
  ([{ path := "a", lines := [⟨1, 1⟩] }, { path := "b", lines := [⟨1, 0⟩] }], { flags := ["unit"] })

theorem parsed_halves : ∃ bytes, TracedFile.ofBytes? bytes = .ok halvesUpload.1 :=
  ⟨halvesBytes, by rfl⟩

/-- One of two files is carried, of a session that has read both. -/
theorem carry_leaves_behind_halves :
    (∀ u ∈ [halvesUpload, missedUpload], ∃ bytes, TracedFile.ofBytes? bytes = .ok u.1) ∧
    (∀ u ∈ [halvesUpload, missedUpload], (u.1.map TracedFile.reportPath).Nodup) ∧
    ∃ filter, PathFilter.ofPatterns? ["a"] = .ok filter ∧
    ∃ r r' s t, addUploads {} [halvesUpload, missedUpload] = .ok r ∧
      Carry.report r ["unit"] ["a"] none = .ok r' ∧
      r'.sessions.get? 0 = some s ∧ s.totals = some t ∧
      t.Parts (r'.sessionTotalsIn 0 r'.names) (r.countOver 0 (r.names.filter (!filter.chooses ·))) ∧
      (t.Agrees (r'.sessionTotalsIn 0 r'.names) ↔
        ∀ q ∈ r.names, filter.chooses q = false → r.readingsIn 0 q = []) := by
  have hparsed : ∀ u ∈ [halvesUpload, missedUpload],
      ∃ bytes, TracedFile.ofBytes? bytes = .ok u.1 := by
    intro u hu
    rcases List.mem_cons.1 hu with rfl | hu
    · exact parsed_halves
    · obtain rfl := List.mem_singleton.1 hu
      exact ⟨missedBytes, by rfl⟩
  have hpaths : ∀ u ∈ [halvesUpload, missedUpload], (u.1.map TracedFile.reportPath).Nodup := by
    decide
  obtain ⟨filter, hfilter⟩ : ∃ filter, PathFilter.ofPatterns? ["a"] = .ok filter := by
    have hread : (PathFilter.ofPatterns? ["a"]).toOption.isSome = true := by decide +kernel
    obtain ⟨filter, hfilter⟩ := Option.isSome_iff_exists.1 hread
    exact ⟨filter, Result.eq_ok_of_toOption hfilter⟩
  obtain ⟨r, r', hr, hok, -, hsessions⟩ := carry_leaves_behind hparsed hpaths ["unit"] none hfilter
  have hkept : ((addUploads {} [halvesUpload, missedUpload]).toOption.bind fun r =>
      (Carry.report r ["unit"] ["a"] none).toOption.bind fun r' =>
        r'.sessions.get? 0).isSome = true := by
    decide +kernel
  rw [hr, Except.toOption, Option.bind_some, hok, Except.toOption, Option.bind_some] at hkept
  obtain ⟨s, hs⟩ := Option.isSome_iff_exists.1 hkept
  obtain ⟨t, ht, hparts, hagrees, -⟩ := hsessions 0 s hs
  exact ⟨hparsed, hpaths, filter, hfilter, r, r', s, t, hr, hok, hs, ht, hparts, hagrees⟩

/-- Of a session with a line reached in one file and a line missed in another, the first file is
carried: the session still has totals of two files and half of the lines, and so has the view that
takes them, where the carried report has one file with all of its lines reached. -/
theorem totals_outlast_files :
    (∃ bytes, TracedFile.ofBytes? bytes = .ok halvesUpload.1) ∧
    (halvesUpload.1.map TracedFile.reportPath).Nodup ∧
    ∃ r r' s t, addUploads {} [halvesUpload] = .ok r ∧
      Carry.report r ["unit"] ["a"] none = .ok r' ∧ r'.names = ["a"] ∧
      r'.sessions.get? 0 = some s ∧ s.totals = some t ∧
      t.files = 2 ∧ t.coverage = some "50.00000" ∧
      (r'.sessionTotalsIn 0 r'.names).files = 1 ∧
      (r'.sessionTotalsIn 0 r'.names).coverage = some "100" ∧
      (ofFlag r' { useSessionTotals := true } "unit").totals.files = 2 ∧
      (ofFlag r' {} "unit").totals.files = 1 := by
  have hrun : ((addUploads {} [halvesUpload]).toOption.bind fun r =>
      (Carry.report r ["unit"] ["a"] none).toOption.bind fun r' =>
        (r'.sessions.get? 0).bind fun s => s.totals.map fun t =>
          (r'.names, (t.files, t.coverage), ((r'.sessionTotalsIn 0 r'.names).files,
            (r'.sessionTotalsIn 0 r'.names).coverage),
            (ofFlag r' { useSessionTotals := true } "unit").totals.files,
            (ofFlag r' {} "unit").totals.files)) =
      some (["a"], (2, some "50.00000"), (1, some "100"), 2, 1) := by
    decide +kernel
  obtain ⟨r, hr, hrun⟩ := Option.bind_eq_some_iff.1 hrun
  obtain ⟨r', hr', hrun⟩ := Option.bind_eq_some_iff.1 hrun
  obtain ⟨s, hs, hrun⟩ := Option.bind_eq_some_iff.1 hrun
  obtain ⟨t, ht, hrun⟩ := Option.map_eq_some_iff.1 hrun
  simp only [Prod.mk.injEq] at hrun
  obtain ⟨hnames, ⟨hfiles, hrate⟩, ⟨hfiles', hrate'⟩, hfast, hslow⟩ := hrun
  exact ⟨parsed_halves, by decide, r, r', s, t, Result.eq_ok_of_toOption hr,
    Result.eq_ok_of_toOption hr', hnames, hs, ht, hfiles, hrate, hfiles', hrate', hfast, hslow⟩

end Report

end CoverageLedger
