import CoverageLedger.Carry
import CoverageLedger.Pattern.Language
import CoverageLedger.Proofs.Report.Consistency
import CoverageLedger.View

/-!
# The view and the report carried forward

A view restricts each line to the sessions that pass its flags when the line is looked at; carrying a
report forward takes the other sessions out of it once and for all.  On a coherent report both show
the same.  Everything follows from one equation, `lines_carriedFrom`: under each name, the report
carried forward has the lines that the view shows, or no file where the view shows no line.
-/

namespace CoverageLedger

/-! ## 1. Coherent lines -/

namespace Line

/-- A line that its sessions account for. -/
structure Coherent (l : Line) : Prop where
  sessions_ne : l.sessions ≠ []
  datapoints : ∀ ds, l.datapoints = some ds → ∀ d ∈ ds, d.session ∈ l.sessionIds
  reading : l.reading = LineSession.readingOf l.sessions
  complexity : l.complexity = LineSession.complexityOf l.sessions

variable {l : Line} {kept dropped : List Nat}

theorem mem_sessionIds_of_mem {s : LineSession} (hs : s ∈ l.sessions) : s.id ∈ l.sessionIds :=
  mem_sessionIds.2 ⟨s, hs, rfl⟩

theorem restrict_of_subset (hne : l.sessions ≠ []) (hall : ∀ id ∈ l.sessionIds, id ∈ kept) :
    View.restrict kept l = some l := by
  have hfilter : (l.sessions.filter fun s => kept.contains s.id) = l.sessions := by
    rw [List.filter_eq_self]
    intro s hs
    simpa using hall s.id (mem_sessionIds_of_mem hs)
  have hempty : l.sessions.isEmpty = false := by
    rw [List.isEmpty_eq_false_iff]
    exact hne
  simp only [View.restrict, hfilter, hempty, Bool.false_eq_true, if_false, if_true]

/-- Where every id is either kept or dropped, keeping and not dropping choose the same elements. -/
theorem filter_kept {α : Type} {key : α → Nat} {l : List α}
    (h : ∀ a ∈ l, key a ∈ kept ↔ key a ∉ dropped) :
    (l.filter fun a => kept.contains (key a)) = l.filter fun a => !dropped.contains (key a) := by
  apply List.filter_congr
  intro a ha
  by_cases hd : key a ∈ dropped
  · have hk : key a ∉ kept := fun hk => (h a ha).1 hk hd
    simp [hd, hk]
  · simp [hd, (h a ha).2 hd]

/-- Keeping some sessions of a line or deleting the others makes the same line. -/
theorem restrict_eq_withoutSessions (hl : l.Coherent)
    (hsplit : ∀ id ∈ l.sessionIds, id ∈ kept ↔ id ∉ dropped) :
    View.restrict kept l = l.withoutSessions dropped := by
  have hfilter : (l.sessions.filter fun s => kept.contains s.id) =
      l.sessions.filter fun s => !dropped.contains s.id :=
    filter_kept fun s hs => hsplit s.id (mem_sessionIds_of_mem hs)
  have hpoints : ∀ ds, l.datapoints = some ds →
      (ds.filter fun d => kept.contains d.session) =
        ds.filter fun d => !dropped.contains d.session :=
    fun ds hds => filter_kept fun d hd => hsplit d.session (hl.datapoints ds hds d hd)
  rw [withoutSessions_of_sessions_ne hl.sessions_ne, View.restrict]
  simp only [hfilter]
  by_cases hempty : (l.sessions.filter fun s => !dropped.contains s.id).isEmpty = true
  · rw [if_pos hempty, if_pos hempty]
  · rw [if_neg hempty, if_neg hempty]
    split
    · -- no session goes, so the sums over the sessions and the datapoints are those of the line
      rename_i hlen
      have hsame : (l.sessions.filter fun s => !dropped.contains s.id) = l.sessions :=
        List.filter_eq_self.2 (List.length_filter_eq_length_iff.1 hlen)
      have hdatapoints : l.datapointsWithout dropped = l.datapoints := by
        rw [datapointsWithout]
        cases hds : l.datapoints with
        | none => rfl
        | some ds =>
          rw [Option.map_some]
          refine congrArg some (List.filter_eq_self.2 fun d hd => ?_)
          obtain ⟨s, hs, hid⟩ := mem_sessionIds.1 (hl.datapoints ds hds d hd)
          rw [← hid]
          exact List.filter_eq_self.1 hsame s hs
      rw [hsame, hdatapoints, ← hl.reading, ← hl.complexity]
    · congr 2
      rw [datapointsWithout]
      cases hds : l.datapoints with
      | none => rfl
      | some ds =>
        rw [Option.map_some, Option.map_some]
        exact congrArg some (hpoints ds hds)

end Line

/-! ## 2. Totals of lists that differ by empty ones -/

namespace Totals

variable {α : Type} {f g : α → Option Totals}

/-- The totals of no lines add nothing. -/
theorem addUp_map_filterMap {M : Type} [Add M] [OfNat M 0] (hadd : ∀ m : M, 0 + m = m)
    (count : Totals → M) (hzero : count (ofLines []) = 0) {l : List α}
    (h : ∀ a ∈ l, f a = g a ∨ (f a = some (ofLines []) ∧ g a = none)) :
    addUp ((l.filterMap f).map count) = addUp ((l.filterMap g).map count) := by
  induction l with
  | nil => rfl
  | cons a rest ih =>
    have hrest := ih fun b hb => h b (List.mem_cons_of_mem a hb)
    rcases h a List.mem_cons_self with he | ⟨hf, hg⟩
    · cases hga : g a with
      | none => rw [List.filterMap_cons_none (he.trans hga), List.filterMap_cons_none hga, hrest]
      | some t =>
        rw [List.filterMap_cons_some (he.trans hga), List.filterMap_cons_some hga]
        exact congrArg (count t + ·) hrest
    · rw [List.filterMap_cons_some hf, List.filterMap_cons_none hg, ← hrest]
      show count (ofLines []) + addUp _ = addUp _
      rw [hzero, hadd]

/-- Only the number of files tells the sums apart. -/
theorem sum_filterMap {l : List α}
    (h : ∀ a ∈ l, f a = g a ∨ (f a = some (ofLines []) ∧ g a = none)) :
    { (sum (l.filterMap f)).nullIfEmpty with files := 0 } =
      { (sum (l.filterMap g)).nullIfEmpty with files := 0 } := by
  have hlines := addUp_map_filterMap Nat.zero_add (·.lines) rfl h
  have hhits := addUp_map_filterMap Nat.zero_add (·.hits) rfl h
  have hmisses := addUp_map_filterMap Nat.zero_add (·.misses) rfl h
  have hpartials := addUp_map_filterMap Nat.zero_add (·.partials) rfl h
  have hbranches := addUp_map_filterMap Nat.zero_add (·.branches) rfl h
  have hmethods := addUp_map_filterMap Nat.zero_add (·.methods) rfl h
  have hmessages := addUp_map_filterMap Nat.zero_add (·.messages) rfl h
  have hcomplexity := addUp_map_filterMap Int.zero_add (fun t => t.complexity.getD 0) rfl h
  have hwhole := addUp_map_filterMap Int.zero_add (fun t => t.complexityTotal.getD 0) rfl h
  rw [nullIfEmpty, nullIfEmpty, sum, sum]
  simp only [hlines, hhits, hmisses, hpartials, hbranches, hmethods, hmessages, hcomplexity, hwhole]
  split <;> rfl

end Totals

namespace Report

/-- A report whose manifest, slots, sessions and lines fit together. -/
structure Coherent (r : Report) : Prop where
  consistent : r.isConsistent = true
  counted : r.Counted
  stored : ∀ name f, r.file? name = some f → f.isEmpty = false
  exact : ∀ name f, r.file? name = some f → f.Exact
  lines : ∀ name f, r.file? name = some f → ∀ n l, f.lines.get? n = some l →
    l.Coherent ∧ ∀ id ∈ l.sessionIds, r.sessions.contains id = true

end Report

/-! ## 3. What both sides have in common -/

namespace PathFilter

variable [PatternLanguage]

/-- Every pattern that counts can be read. -/
def AllRead (patterns : List String) : Prop :=
  ∀ text ∈ patterns, text ≠ "" → (matcher? text).isSome = true

theorem allRead_iff_given {patterns : List String} :
    AllRead patterns ↔ ∀ text ∈ given patterns, (matcher? text).isSome = true := by
  have hgiven (text : String) : text ∈ given patterns ↔ text ∈ patterns ∧ text ≠ "" := by
    rw [given, mem_ascend, List.mem_filter, Bool.not_eq_true', ← Bool.not_eq_true,
      String.isEmpty_iff]
  simp only [AllRead, hgiven, and_imp]

theorem mapM_read?_cases (texts : List String) :
    ((∀ text ∈ texts, (matcher? text).isSome = true) ∧ ∃ matchers, texts.mapM read? = .ok matchers) ∨
      ((∃ text ∈ texts, matcher? text = none) ∧ texts.mapM read? = .error .pattern) := by
  induction texts with
  | nil => exact .inl ⟨nofun, [], rfl⟩
  | cons text rest ih =>
    rw [List.mapM_cons, read?]
    cases hfirst : matcher? text with
    | none => exact .inr ⟨⟨text, List.mem_cons_self, hfirst⟩, rfl⟩
    | some matcher =>
      rcases ih with ⟨hall, matchers, hok⟩ | ⟨⟨bad, hbad, hnone⟩, hfail⟩
      · refine .inl ⟨fun other hother => ?_, matcher :: matchers, by rw [hok]; rfl⟩
        rcases List.mem_cons.1 hother with rfl | hother
        · rw [hfirst]
          rfl
        · exact hall other hother
      · exact .inr ⟨⟨bad, List.mem_cons_of_mem _ hbad, hnone⟩, by rw [hfail]; rfl⟩

/-- Patterns make a filter when all of them can be read, and one error otherwise. -/
theorem ofPatterns?_cases (patterns : List String) :
    (AllRead patterns ∧ ∃ filter, ofPatterns? patterns = .ok filter) ∨
      (¬AllRead patterns ∧ ofPatterns? patterns = .error .pattern) := by
  have hnot {texts : List String} (hin : ∀ text ∈ texts, text ∈ given patterns)
      (hbad : ∃ text ∈ texts, matcher? text = none) : ¬AllRead patterns := by
    obtain ⟨text, htext, hnone⟩ := hbad
    intro hall
    have hsome := allRead_iff_given.1 hall text (hin text htext)
    rw [hnone] at hsome
    cases hsome
  have hin (p : String → Bool) (text : String) (h : text ∈ (given patterns).filter p) :
      text ∈ given patterns := (List.mem_filter.1 h).1
  rw [ofPatterns?]
  rcases mapM_read?_cases ((given patterns).filter (!excludes ·)) with
    ⟨hincluded, inclusions, hok⟩ | ⟨hbad, hfail⟩
  · rcases mapM_read?_cases ((given patterns).filter excludes) with
      ⟨hexcluded, exclusions, hok'⟩ | ⟨hbad, hfail⟩
    · refine .inl ⟨allRead_iff_given.2 fun text htext => ?_, _, by rw [hok, hok']; rfl⟩
      cases hmark : excludes text with
      | true => exact hexcluded text (List.mem_filter.2 ⟨htext, hmark⟩)
      | false => exact hincluded text (List.mem_filter.2 ⟨htext, by rw [hmark]; rfl⟩)
    · exact .inr ⟨hnot (hin _) hbad, by rw [hok, hfail]; rfl⟩
  · exact .inr ⟨hnot (hin _) hbad, by rw [hfail]; rfl⟩

end PathFilter

namespace View

variable {r : Report} {v : View} {flags paths : List String}
  {extras : Option (Table String Json)}

/-- A view of a report that flags narrowed once, and at most one path filter. -/
structure Narrowed (r : Report) (flags : List String) (v : View) : Prop where
  report : v.report = r
  options : v.options = {}
  flags : v.flags = [ascend flags]

/-- The files that the path filters of a view choose. -/
def chosen (v : View) : Report :=
  (v.report.names.filter (!v.includes ·)).foldl (fun r name => (r.remove name).2) v.report

/-- The sessions that do not pass. -/
def droppedIds (v : View) : List Nat := (v.report.sessions.filter fun _ s => !v.passes s).keys

/-- The report that the files and sessions of a view make when they are carried forward. -/
def carriedForward (v : View) (extras : Option (Table String Json)) : Report :=
  let left := v.chosen.deleteSessions v.droppedIds
  { left.changed with sessions := left.sessions.map fun _ s => Carry.carried extras s }

theorem passes_of_narrowed (h : Narrowed r flags v) (s : Session) :
    v.passes s = s.hasAnyFlag flags := by
  rw [passes, h.flags, List.all_cons, List.all_nil, Bool.and_true, Bool.eq_iff_iff,
    List.any_eq_true, Session.hasAnyFlag, List.any_eq_true]
  simp only [List.contains_eq_mem, decide_eq_true_eq, mem_ascend]
  constructor
  · rintro ⟨x, hs, hx⟩
    exact ⟨x, hx, hs⟩
  · rintro ⟨x, hx, hs⟩
    exact ⟨x, hs, hx⟩

/-- A pattern that cannot be read fails both; otherwise the report carried forward is made from the
files and sessions of the view. -/
theorem narrow_and_carry [PatternLanguage] (r : Report) (hflags : flags ≠ []) :
    (¬PathFilter.AllRead paths ∧ narrow { report := r } paths flags = .error .pattern ∧
      Carry.report r flags paths extras = .error .pattern) ∨
    PathFilter.AllRead paths ∧ ∃ v, narrow { report := r } paths flags = .ok v ∧
      Narrowed r flags v ∧ Carry.report r flags paths extras = .ok (v.carriedForward extras) := by
  have hne : flags.isEmpty = false := by
    rw [List.isEmpty_eq_false_iff]
    exact hflags
  have hcarry (v : View) (hv : Narrowed r flags v) (r' : Report) (hr' : v.chosen = r')
      (hsessions : r'.sessions = r.sessions) :
      v.carriedForward extras =
        let left := r'.deleteSessions (r'.sessions.filter fun _ s => !s.hasAnyFlag flags).keys
        { left.changed with sessions := left.sessions.map fun _ s => Carry.carried extras s } := by
    simp only [carriedForward, droppedIds, hr', hsessions, hv.report, passes_of_narrowed hv]
  by_cases hpaths : paths = []
  · right
    have hread : PathFilter.AllRead paths := by
      rw [hpaths]
      exact nofun
    have hv : Narrowed r flags { report := r, flags := [ascend flags] } := ⟨rfl, rfl, rfl⟩
    have hchosen : chosen { report := r, flags := [ascend flags] } = r := by
      simp [chosen, includes]
    refine ⟨hread, _, ?_, hv, ?_⟩
    · simp [narrow, hpaths, hne, pure, Except.pure, bind, Except.bind]
    · rw [hcarry _ hv r hchosen rfl]
      simp [Carry.report, hpaths, pure, Except.pure, bind, Except.bind]
  · have hpaths' : paths.isEmpty = false := by
      rw [List.isEmpty_eq_false_iff]
      exact hpaths
    -- both read the patterns in the same way, and fail with the same error
    rcases PathFilter.ofPatterns?_cases paths with ⟨hread, filter, hfilter⟩ | ⟨hbad, hfilter⟩
    · right
      have hv : Narrowed r flags { report := r, paths := [filter], flags := [ascend flags] } :=
        ⟨rfl, rfl, rfl⟩
      have hchosen : chosen { report := r, paths := [filter], flags := [ascend flags] } =
          Carry.chosenFiles filter r := by
        simp [chosen, includes, Carry.chosenFiles]
      have hsessions : (Carry.chosenFiles filter r).sessions = r.sessions :=
        Report.sessions_foldl_remove _
      refine ⟨hread, _, ?_, hv, ?_⟩
      · simp [narrow, hpaths', hfilter, hne, pure, Except.pure, bind, Except.bind]
      · rw [hcarry _ hv _ hchosen hsessions]
        simp [Carry.report, hpaths', hfilter, pure, Except.pure, bind, Except.bind]
    · left
      refine ⟨hbad, ?_, ?_⟩
      · simp [narrow, hpaths', hfilter, bind, Except.bind]
      · simp [Carry.report, hpaths', hfilter, bind, Except.bind]

/-! ## 4. Lines -/

section lines

variable {f : SourceFile} {name : String}

theorem shown_of_narrowed (h : Narrowed r flags v) (l : Line) :
    v.shown l = restrict v.sessions.keys l := by
  have hids : v.sessionIds? = some v.sessions.keys := by
    rw [sessionIds?, hasFlagFilter, h.flags]
    rfl
  rw [shown, hids]

theorem mem_keys_sessions_iff {id : Nat} {s : Session}
    (hs : v.report.sessions.get? id = some s) : id ∈ v.sessions.keys ↔ v.passes s = true := by
  rw [sessions, Table.mem_keys_iff]
  simp only [Table.get?_filter, hs, Option.filter_some, Option.ite_none_right_eq_some,
    Option.some.injEq, exists_and_left, exists_eq', and_true]

theorem mem_droppedIds_iff {id : Nat} {s : Session}
    (hs : v.report.sessions.get? id = some s) : id ∈ v.droppedIds ↔ v.passes s = false := by
  rw [droppedIds, Table.mem_keys_iff]
  simp only [Table.get?_filter, hs, Option.filter_some, Option.ite_none_right_eq_some,
    Option.some.injEq, exists_and_left, exists_eq', and_true, Bool.not_eq_true']

/-- Each session of a line either passes or is dropped. -/
theorem split_of_line (hr : r.Coherent) (hv : Narrowed r flags v) (hf : r.file? name = some f)
    {n : Nat} {l : Line} (hl : f.lines.get? n = some l) :
    ∀ id ∈ l.sessionIds, id ∈ v.sessions.keys ↔ id ∉ v.droppedIds := by
  intro id hid
  have hknown : v.report.sessions.contains id = true := by
    rw [hv.report]
    exact (hr.lines name f hf n l hl).2 id hid
  obtain ⟨s, hs⟩ := v.report.sessions.mem_keys_iff.1 (v.report.sessions.contains_iff.1 hknown)
  rw [mem_keys_sessions_iff hs, mem_droppedIds_iff hs, Bool.not_eq_false]

/-- Whether a file is touched by the deletion or passed over, its lines become the shown ones. -/
theorem lines_withoutSessions (hr : r.Coherent) (hv : Narrowed r flags v)
    (hf : r.file? name = some f) :
    (f.withoutSessions v.droppedIds).lines = v.linesOf f := by
  apply Table.ext_get?
  intro n
  rw [SourceFile.get?_withoutSessions, linesOf, Table.get?_filterMap]
  cases hl : f.lines.get? n with
  | none => simp
  | some l =>
    have hcoherent : l.Coherent := (hr.lines name f hf n l hl).1
    have hsplit := split_of_line hr hv hf hl
    simp only [Option.bind_some, shown_of_narrowed hv]
    split
    · rw [Line.restrict_eq_withoutSessions hcoherent hsplit]
    · -- no id of the file is dropped, so no session of this line is
      rename_i hany
      refine (Line.restrict_of_subset hcoherent.sessions_ne fun id hid => ?_).symm
      refine (hsplit id hid).2 fun hdropped => hany ?_
      refine SourceFile.hasAnySession_iff.2 ⟨id, ?_, hdropped⟩
      rw [hr.exact name f hf]
      exact SourceFile.mem_idsOfLines.2 ⟨n, l, hl, hid⟩

theorem emptied_iff (hr : r.Coherent) (hv : Narrowed r flags v) (hf : r.file? name = some f) :
    Report.Emptied v.droppedIds f ↔ (v.linesOf f).isEmpty = true := by
  have hlines := lines_withoutSessions hr hv hf
  rw [← hlines]
  refine ⟨And.right, fun hempty => ⟨?_, hempty⟩⟩
  by_cases hany : f.hasAnySession v.droppedIds = true
  · exact hany
  · -- a file that loses no session keeps its lines, of which there is one
    rw [SourceFile.withoutSessions_of_not_has (Bool.eq_false_iff.2 hany),
      SourceFile.lines_afterSessionIds] at hempty
    have hstored := hr.stored name f hf
    rw [SourceFile.isEmpty, hempty] at hstored
    cases hstored

theorem consistent_of_narrowed (hr : r.Coherent) (hv : Narrowed r flags v) :
    v.report.Consistent := by
  rw [hv.report]
  exact Report.isConsistent_iff.1 hr.consistent

theorem file?_chosen (hr : r.Coherent) (hv : Narrowed r flags v) (name : String) :
    v.chosen.file? name = v.file? name := by
  have hcons := consistent_of_narrowed hr hv
  rw [chosen, hcons.file?_foldl_remove, file?]
  by_cases hin : v.includes name = true
  · simp [hin]
  · cases hf : v.report.file? name with
    | none => simp
    | some f => simp [hin, hcons.mem_names_iff.2 ⟨f, hf⟩]

/-- **The report carried forward, name by name**: the lines that the view shows, or no file where
the view shows none. -/
theorem lines_carriedForward (hr : r.Coherent) (hv : Narrowed r flags v)
    (extras : Option (Table String Json)) (name : String) :
    ((v.carriedForward extras).file? name).map SourceFile.lines =
      (v.file? name).bind fun f =>
        if (v.linesOf f).isEmpty then none else some (v.linesOf f) := by
  have hfile : (v.carriedForward extras).file? name =
      (v.chosen.deleteSessions v.droppedIds).file? name := rfl
  have hpair := Report.lines_deleteSessions v.droppedIds v.chosen name
  rw [file?_chosen hr hv] at hpair
  have hmap := congrArg (Option.map Prod.fst) hpair
  rw [Option.map_map] at hmap
  rw [hfile]
  refine hmap.trans ?_
  cases hf : v.file? name with
  | none => rfl
  | some f =>
    have hown : r.file? name = some f := by
      rw [file?] at hf
      split at hf
      · rw [← hv.report, hf]
      · cases hf
    rw [Option.bind_some, Option.bind_some]
    -- the deletion takes out the files whose lines the view hides
    simp only [emptied_iff hr hv hown, lines_withoutSessions hr hv hown]
    split <;> rfl

theorem carried_of_shown (hr : r.Coherent) (hv : Narrowed r flags v)
    (extras : Option (Table String Json)) (hf : v.file? name = some f)
    (hlines : (v.linesOf f).isEmpty = false) :
    ∃ g, (v.carriedForward extras).file? name = some g ∧ g.lines = v.linesOf f := by
  have heq := lines_carriedForward hr hv extras name
  rw [hf, Option.bind_some, hlines] at heq
  exact Option.map_eq_some_iff.1 heq

theorem shown_of_carried (hr : r.Coherent) (hv : Narrowed r flags v) {g : SourceFile}
    (hg : (v.carriedForward extras).file? name = some g) :
    ∃ f, v.file? name = some f ∧ (v.linesOf f).isEmpty = false ∧ g.lines = v.linesOf f := by
  have heq := lines_carriedForward hr hv extras name
  rw [hg, Option.map_some] at heq
  obtain ⟨f, hf, hkept⟩ := Option.bind_eq_some_iff.1 heq.symm
  split at hkept
  · cases hkept
  · rename_i hlines
    exact ⟨f, hf, Bool.eq_false_iff.2 hlines, (Option.some.inj hkept).symm⟩

end lines

/-! ## 5. Files and totals -/

theorem consistent_carriedForward (hr : r.Coherent) (hv : Narrowed r flags v) :
    (v.carriedForward extras).Consistent := by
  have hchosen : v.chosen.Consistent := (consistent_of_narrowed hr hv).foldl_remove _
  exact (hchosen.deleteSessions v.droppedIds).congr (fun _ => rfl) fun _ => rfl

theorem counted_carriedForward (hr : r.Coherent) (hv : Narrowed r flags v) :
    (v.carriedForward extras).Counted := by
  have hcons := consistent_of_narrowed hr hv
  have hcounted : v.report.Counted := by
    rw [hv.report]
    exact hr.counted
  have hchosen : v.chosen.Counted := hcounted.foldl_remove hcons _
  exact hchosen.deleteSessions (hcons.foldl_remove _) v.droppedIds

theorem mem_names_iff (hr : r.Coherent) (hv : Narrowed r flags v) {name : String} :
    name ∈ v.names ↔ ∃ f, v.file? name = some f ∧ (v.linesOf f).isEmpty = false := by
  have hflag : v.hasFlagFilter = true := by
    rw [hasFlagFilter, hv.flags]
    rfl
  rw [names, List.mem_filter, hflag, Bool.not_true, Bool.false_or, Bool.and_eq_true, contains,
    Option.any_eq_true]
  simp only [Bool.not_eq_true']
  constructor
  · exact fun h => h.2.2
  · rintro ⟨f, hf, hlines⟩
    refine ⟨?_, ?_, f, hf, hlines⟩
    · rw [file?] at hf
      split at hf
      · exact (consistent_of_narrowed hr hv).mem_names_iff.2 ⟨f, hf⟩
      · cases hf
    · rw [file?] at hf
      split at hf
      · assumption
      · cases hf

theorem names_carriedForward (hr : r.Coherent) (hv : Narrowed r flags v)
    (extras : Option (Table String Json)) : v.names = (v.carriedForward extras).names := by
  have hascending : v.names.Pairwise Precedes := (Table.keys_ascending v.report.files).filter _
  refine eq_of_ascending hascending (Table.keys_ascending _) fun name => ?_
  have hcarried : name ∈ (v.carriedForward extras).names ↔
      ∃ g, (v.carriedForward extras).file? name = some g :=
    (consistent_carriedForward hr hv).mem_names_iff
  rw [mem_names_iff hr hv, hcarried]
  constructor
  · rintro ⟨f, hf, hlines⟩
    obtain ⟨g, hg, -⟩ := carried_of_shown hr hv extras hf hlines
    exact ⟨g, hg⟩
  · rintro ⟨g, hg⟩
    obtain ⟨f, hf, hlines, -⟩ := shown_of_carried hr hv hg
    exact ⟨f, hf, hlines⟩

theorem sessions_carriedForward (v : View) (extras : Option (Table String Json)) :
    (v.carriedForward extras).sessions = v.sessions.map fun _ s => Carry.carried extras s := by
  have hleft : (v.chosen.deleteSessions v.droppedIds).sessions = v.sessions := by
    apply Table.ext_get?
    intro id
    rw [Report.get?_sessions_deleteSessions, chosen, Report.sessions_foldl_remove, sessions,
      Table.get?_filter]
    cases hs : v.report.sessions.get? id with
    | none => rw [ite_self, Option.filter_none]
    | some s =>
      cases hp : v.passes s with
      | false => rw [if_pos ((mem_droppedIds_iff hs).2 hp), Option.filter_some, hp, if_neg (by simp)]
      | true =>
        have hstays : id ∉ v.droppedIds := fun hd => by
          rw [(mem_droppedIds_iff hs).1 hd] at hp
          cases hp
        rw [if_neg hstays, Option.filter_some, hp, if_pos rfl]
  have hmap : (v.carriedForward extras).sessions =
      (v.chosen.deleteSessions v.droppedIds).sessions.map fun _ s => Carry.carried extras s := rfl
  rw [hmap, hleft]

theorem totals_carriedForward (hr : r.Coherent) (hv : Narrowed r flags v)
    (extras : Option (Table String Json)) :
    v.totals = (v.carriedForward extras).totals.1 := by
  have hflag : v.hasFlagFilter = true := by
    rw [hasFlagFilter, hv.flags]
    rfl
  have hcomputed : v.totals = v.computedTotals := by
    -- by default no session lends its totals
    have hnone : v.sessionTotals? = none := by
      rw [sessionTotals?, hv.options]
      split <;> rfl
    rw [totals, hnone]
    rfl
  have hfiles : v.names.filterMap v.fileTotals? =
      (v.carriedForward extras).names.filterMap (v.carriedForward extras).fileTotals? := by
    rw [← names_carriedForward hr hv extras]
    apply List.filterMap_congr
    intro name hname
    obtain ⟨f, hf, hlines⟩ := (mem_names_iff hr hv).1 hname
    obtain ⟨g, hg, hsame⟩ := carried_of_shown hr hv extras hf hlines
    rw [(counted_carriedForward hr hv).fileTotals? (consistent_carriedForward hr hv), hg, fileTotals?,
      if_pos hflag, hf, Option.map_some, Option.map_some, totalsOf, SourceFile.totals, hsame]
  have hsize : v.sessions.size = (v.carriedForward extras).sessions.size := by
    rw [sessions_carriedForward, Table.size, Table.size, Table.map, List.length_map]
  have hcarried : (v.carriedForward extras).totals.1 = (v.carriedForward extras).computedTotals := rfl
  rw [hcomputed, hcarried, computedTotals, Report.computedTotals, hfiles, hsize]

/-! ## 6. Diffs -/

/-- The totals of some lines of a file differ only where the view has a file without lines. -/
theorem totals_of_lines (hr : r.Coherent) (hv : Narrowed r flags v)
    (extras : Option (Table String Json)) (path : String) (numbers : List Nat) :
    let shown := (v.file? path).map fun f =>
      Totals.ofLines (numbers.filterMap fun n => (f.line? n).bind v.shown)
    let carried := ((v.carriedForward extras).file? path).map fun g =>
      Totals.ofLines (numbers.filterMap g.line?)
    shown = carried ∨ (shown = some (Totals.ofLines []) ∧ carried = none) := by
  have hline (f : SourceFile) (n : Nat) :
      (f.line? n).bind v.shown = (v.linesOf f).get? n := by
    rw [SourceFile.line?, linesOf, Table.get?_filterMap]
  cases hg : (v.carriedForward extras).file? path with
  | some g =>
    left
    obtain ⟨f, hf, -, hsame⟩ := shown_of_carried hr hv hg
    have hlines : (fun n => (f.line? n).bind v.shown) = g.line? := by
      funext n
      rw [hline, ← hsame, SourceFile.line?]
    rw [hf, Option.map_some, Option.map_some, hlines]
  | none =>
    cases hf : v.file? path with
    | none => exact .inl rfl
    | some f =>
      right
      refine ⟨?_, rfl⟩
      have hempty : (v.linesOf f).isEmpty = true := by
        cases hlines : (v.linesOf f).isEmpty with
        | true => rfl
        | false =>
          obtain ⟨g, hg', -⟩ := carried_of_shown hr hv extras hf hlines
          rw [hg] at hg'
          cases hg'
      rw [Option.map_some]
      simp only [hline, (Table.isEmpty_iff _).1 hempty]
      rw [List.filterMap_eq_nil_iff.2 fun _ _ => rfl]

/-- The entry of one file in the totals of a diff. -/
def diffEntry (source : String → Option (Nat → Option Line)) (path : String) (f : DiffFile) :
    Option Totals :=
  if f.contributes then
    (source path).map fun line? => .ofLines (f.addedLines.filterMap line?)
  else none

theorem diffTotalsOf_eq (d : Diff) (source : String → Option (Nat → Option Line)) :
    Report.diffTotalsOf d source = .ofFiles (d.files.filterMap (diffEntry source)) := rfl

theorem diffEntry_carriedForward (hr : r.Coherent) (hv : Narrowed r flags v)
    (extras : Option (Table String Json)) (path : String) (f : DiffFile) :
    let shown := diffEntry (fun path => (v.file? path).map fun f n => (f.line? n).bind v.shown) path f
    let carried :=
      diffEntry (fun path => ((v.carriedForward extras).file? path).map SourceFile.line?) path f
    shown = carried ∨ (shown = some (Totals.ofLines []) ∧ carried = none) := by
  have hboth := totals_of_lines hr hv extras path f.addedLines
  by_cases hc : f.contributes = true
  · simp only [diffEntry, hc, if_true, Option.map_map, Function.comp_def]
    exact hboth
  · simp only [diffEntry, hc, Bool.false_eq_true, if_false]
    exact .inl trivial

/-! ## 7. Agreement -/

/-- A view and a report show the same coverage.  A diff may name a file of which the view shows no
line: it counts as a file in the totals of the view, with nothing in it. -/
structure Agrees (v : View) (c : Report) : Prop where
  names : v.names = c.names
  lines : ∀ name ∈ v.names, ∃ f g, v.file? name = some f ∧ c.file? name = some g ∧
    v.linesOf f = g.lines ∧ ∀ n, v.get? f n = g.get? n
  totals : v.totals = c.totals.1
  diffFiles : ∀ d path t, t.lines ≠ 0 →
    ((v.diffTotals d).files.get? path = some t ↔ (c.diffTotals d).files.get? path = some t)
  diffSum : ∀ d, { (v.diffTotals d).totals with files := 0 } =
    { (c.diffTotals d).totals with files := 0 }

theorem agrees_carriedForward (hr : r.Coherent) (hv : Narrowed r flags v)
    (extras : Option (Table String Json)) : Agrees v (v.carriedForward extras) where
  names := names_carriedForward hr hv extras
  lines := by
    intro name hname
    obtain ⟨f, hf, hlines⟩ := (mem_names_iff hr hv).1 hname
    obtain ⟨g, hg, hsame⟩ := carried_of_shown hr hv extras hf hlines
    refine ⟨f, g, hf, hg, hsame.symm, fun n => ?_⟩
    rw [get?, SourceFile.get?, SourceFile.get?]
    by_cases hn : n = 0
    · rw [if_pos hn, if_pos hn]
      rfl
    · have hline : (f.line? n).bind v.shown = g.line? n := by
        rw [SourceFile.line?, SourceFile.line?, hsame, linesOf, Table.get?_filterMap]
      rw [if_neg hn, if_neg hn, ← hline]
      rfl
  totals := totals_carriedForward hr hv extras
  diffFiles := by
    intro d path t ht
    have hempty : t ≠ Totals.ofLines [] := by
      rintro rfl
      exact ht rfl
    rw [diffTotals, Report.diffTotals, diffTotalsOf_eq, diffTotalsOf_eq, DiffTotals.ofFiles,
      DiffTotals.ofFiles]
    -- an entry of a path with tracked lines is the same on both sides
    simp only [Table.get?_filterMap]
    cases d.files.get? path with
    | none => rfl
    | some f =>
      rcases diffEntry_carriedForward hr hv extras path f with he | ⟨hshown, hcarried⟩
      · rw [Option.bind_some, Option.bind_some, he]
      · rw [Option.bind_some, Option.bind_some, hshown, hcarried]
        constructor
        · exact fun h => absurd (Option.some.inj h).symm hempty
        · exact fun h => by cases h
  diffSum := by
    intro d
    rw [diffTotals, Report.diffTotals, diffTotalsOf_eq, diffTotalsOf_eq, DiffTotals.ofFiles,
      DiffTotals.ofFiles, Table.values_filterMap, Table.values_filterMap]
    exact Totals.sum_filterMap fun e _ => diffEntry_carriedForward hr hv extras e.1 e.2

/-- **The view and the report carried forward agree.**  On a coherent report, whatever the patterns
match, for any flags and any patterns that can be read, narrowing a view and carrying the report
forward show the same.  With a pattern that cannot be read both fail alike. -/
theorem narrow_agrees_with_carry [PatternLanguage] (r : Report) (hr : r.Coherent)
    (flags : List String) (hflags : flags ≠ []) (paths : List String)
    (extras : Option (Table String Json)) :
    (PathFilter.AllRead paths → ∃ v c, narrow { report := r } paths flags = .ok v ∧
      Carry.report r flags paths extras = .ok c ∧ Agrees v c) ∧
    (¬PathFilter.AllRead paths → narrow { report := r } paths flags = .error .pattern ∧
      Carry.report r flags paths extras = .error .pattern) := by
  rcases narrow_and_carry r hflags with ⟨hbad, hfail⟩ | ⟨hread, v, hnarrow, hv, hcarry⟩
  · exact ⟨fun hread => absurd hread hbad, fun _ => hfail⟩
  · exact ⟨fun _ => ⟨v, v.carriedForward extras, hnarrow, hcarry, agrees_carriedForward hr hv extras⟩,
      fun hbad => absurd hread hbad⟩

/-! A report of two sessions, of which one read every line. -/

def sharedLine : Line :=
  { reading := .miss, sessions := [{ id := 0, reading := .miss }, { id := 1, reading := .miss }] }

def ownLine : Line := { reading := .miss, sessions := [{ id := 1, reading := .miss }] }

def sharedFile : SourceFile :=
  { name := "a", content := .lines (((∅ : Table Nat Line).insert 1 sharedLine).insert 2 ownLine) }

def sharedReport : Report :=
  (((({} : Report).addSession { flags := ["unit"] }).2.addSession { flags := ["e2e"] }).2.append
    sharedFile).2

theorem eq_of_file?_sharedReport {name : String} {f : SourceFile}
    (hf : sharedReport.file? name = some f) : f = sharedFile := by
  obtain ⟨s, -, hin⟩ := Report.file?_eq_some.1 hf
  have hslots : sharedReport.slots = [some sharedFile] := rfl
  rw [Report.inSlot?, hslots] at hin
  cases s with
  | zero => exact (Option.some.inj hin).symm
  | succ s => cases hin

theorem coherent_sharedReport : sharedReport.Coherent where
  consistent := by rfl
  counted := by
    intro name e f he hf
    rw [eq_of_file?_sharedReport hf]
    have hentries : sharedReport.files.entries = [("a", .ofFile 0 sharedFile)] := rfl
    have hmem := (Table.get?_eq_some_iff _).1 he
    rw [hentries, List.mem_singleton] at hmem
    rw [(Prod.mk.inj hmem).2]
    rfl
  stored := by
    intro name f hf
    rw [eq_of_file?_sharedReport hf]
    rfl
  exact := by
    intro name f hf
    rw [eq_of_file?_sharedReport hf]
    rfl
  lines := by
    intro name f hf n l hl
    rw [eq_of_file?_sharedReport hf] at hl
    have hentries : sharedFile.lines.entries = [(1, sharedLine), (2, ownLine)] := rfl
    have hmem := (Table.get?_eq_some_iff _).1 hl
    rw [hentries, List.mem_cons, List.mem_singleton] at hmem
    rcases hmem with he | he
    · rw [(Prod.mk.inj he).2]
      exact ⟨⟨by decide, fun _ hds => (by cases hds), rfl, rfl⟩, by decide⟩
    · rw [(Prod.mk.inj he).2]
      exact ⟨⟨by decide, fun _ hds => (by cases hds), rfl, rfl⟩, by decide⟩

/-- Of the session with the flag, both show line 1 alone; a parenthesis that nothing closes fails
both. -/
theorem narrow_agrees_with_carry_sharedReport :
    sharedReport.Coherent ∧ ["unit"] ≠ [] ∧ PathFilter.AllRead ["a+", "!b"] ∧
    (∃ v c, narrow { report := sharedReport } ["a+", "!b"] ["unit"] = .ok v ∧
      Carry.report sharedReport ["unit"] ["a+", "!b"] none = .ok c ∧ Agrees v c) ∧
    ¬PathFilter.AllRead ["("] ∧
    narrow { report := sharedReport } ["("] ["unit"] = .error .pattern ∧
    Carry.report sharedReport ["unit"] ["("] none = .error .pattern := by
  have hflags : ["unit"] ≠ [] := by decide
  have hread : PathFilter.AllRead ["a+", "!b"] := by
    unfold PathFilter.AllRead
    decide +kernel
  have hbad : ¬PathFilter.AllRead ["("] := by
    unfold PathFilter.AllRead
    decide +kernel
  obtain ⟨hagree, -⟩ := narrow_agrees_with_carry sharedReport coherent_sharedReport ["unit"] hflags
    ["a+", "!b"] none
  obtain ⟨-, hfail⟩ := narrow_agrees_with_carry sharedReport coherent_sharedReport ["unit"] hflags
    ["("] none
  exact ⟨coherent_sharedReport, hflags, hread, hagree hread, hbad, hfail hbad⟩

end View

end CoverageLedger
