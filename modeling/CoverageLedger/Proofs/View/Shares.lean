import CoverageLedger.Proofs.Line.Steady
import CoverageLedger.Proofs.View.Carried

/-!
# What a session has of a report

The share of a session is the sum, over the files, of the totals of its own readings.  It depends on
nothing but what the session says of each line (`shareIn_congr`, `shareOf_congr`), as long as the
kinds of lines are left out of account.  And it is what a view comes to that only this session passes
(`computedTotals_of_alone`).
-/

namespace CoverageLedger

/-! ## 1. Sums in any order -/

namespace Totals

theorem addUp_perm {M : Type} [Add M] [OfNat M 0] (hswap : ∀ a b c : M, a + (b + c) = b + (a + c))
    {l l' : List M} (h : l.Perm l') : addUp l = addUp l' := by
  induction h with
  | nil => rfl
  | cons a _ ih => exact congrArg (a + ·) ih
  | swap a b l => exact hswap b a (addUp l)
  | trans _ _ ih ih' => exact ih.trans ih'

theorem sum_perm {items items' : List Totals} (h : items.Perm items') : sum items = sum items' := by
  have hnat (count : Totals → Nat) : addUp (items.map count) = addUp (items'.map count) :=
    addUp_perm Nat.add_left_comm (h.map count)
  have hint (count : Totals → Int) : addUp (items.map count) = addUp (items'.map count) :=
    addUp_perm Int.add_left_comm (h.map count)
  simp only [sum, hnat, hint, h.length_eq]

end Totals

/-- Lists that differ only where nothing is found give the same, in some order. -/
theorem filterMap_perm {α β : Type} {g : α → Option β} {l l' : List α} (h : l.Nodup)
    (h' : l'.Nodup) (hmem : ∀ a b, g a = some b → (a ∈ l ↔ a ∈ l')) :
    (l.filterMap g).Perm (l'.filterMap g) := by
  have hfound (l : List α) : l.filterMap g = (l.filter fun a => (g a).isSome).filterMap g := by
    rw [List.filterMap_filter]
    refine List.filterMap_congr fun a _ => ?_
    cases g a <;> rfl
  rw [hfound l, hfound l']
  refine List.Perm.filterMap g ((List.perm_ext_iff_of_nodup (h.filter _) (h'.filter _)).2 ?_)
  intro a
  rw [List.mem_filter, List.mem_filter, and_congr_left_iff]
  intro hsome
  obtain ⟨b, hb⟩ := Option.isSome_iff_exists.1 hsome
  exact hmem a b hb

/-- What the values of a table give one after the other depends only on what each key gives. -/
theorem Table.flatMap_values_congr {κ α β γ : Type} [TableKey κ] {t : Table κ α} {t' : Table κ β}
    {g : α → List γ} {g' : β → List γ}
    (h : ∀ k, (t.get? k).elim [] g = (t'.get? k).elim [] g') :
    t.values.flatMap g = t'.values.flatMap g' := by
  have hfound {α : Type} (t : Table κ α) (g : α → List γ) : t.values.flatMap g =
      (t.filterMap fun _ a => some (g a) |>.filter (!·.isEmpty)).values.flatten := by
    rw [Table.values_filterMap, Table.values, List.flatMap_map]
    induction t.entries with
    | nil => rfl
    | cons e rest ih =>
      rw [List.flatMap_cons, ih, List.filterMap_cons]
      cases g e.2 <;> rfl
  have hsame : (t.filterMap fun _ a => some (g a) |>.filter (!·.isEmpty)) =
      t'.filterMap fun _ a => some (g' a) |>.filter (!·.isEmpty) := by
    apply Table.ext_get?
    intro k
    have hget {α : Type} (t : Table κ α) (g : α → List γ) :
        (t.filterMap fun _ a => some (g a) |>.filter (!·.isEmpty)).get? k =
          (some ((t.get? k).elim [] g)).filter (!·.isEmpty) := by
      rw [Table.get?_filterMap]
      cases t.get? k <;> rfl
    rw [hget, hget, h k]
  rw [hfound t g, hfound t' g', hsame]

/-! ## 2. What a session says -/

/-- What totals count of the readings of a session on a line, but for the kind of the line. -/
def Line.said (id : Nat) (l : Line) : List (Option Outcome × Option Complexity) :=
  (l.sessions.filter fun s => s.id == id).map fun s => (s.reading.outcome, s.complexity)

namespace SourceFile

variable {f g : SourceFile} {id id' : Nat}

/-- What a session says of the lines of a file makes its totals in it. -/
theorem sessionTotals_congr_said
    (h : ∀ n, (f.lines.get? n).elim [] (Line.said id) = (g.lines.get? n).elim [] (Line.said id')) :
    (f.sessionTotals.get? id).map Totals.withoutKinds =
      (g.sessionTotals.get? id').map Totals.withoutKinds := by
  have hsaid (f : SourceFile) (id : Nat) :
      ((f.readingsOf id).map Line.withoutKind).map (·.tally.alone) =
        (f.lines.values.flatMap (Line.said id)).map fun s : Option Outcome × Option Complexity =>
          { outcome := s.1, kind := none, messages := 0, complexity := s.2, sessions := [] } := by
    rw [readingsOf_eq, List.map_flatMap, List.map_flatMap, List.map_flatMap]
    refine List.flatMap_congr fun l _ => ?_
    rw [Line.said, List.map_map, List.map_map, List.map_map]
    rfl
  have hsame : ((f.readingsOf id).map Line.withoutKind).map (·.tally.alone) =
      ((g.readingsOf id').map Line.withoutKind).map (·.tally.alone) := by
    rw [hsaid, hsaid, Table.flatMap_values_congr h]
  have htotals : (Totals.ofLines (f.readingsOf id)).withoutKinds =
      (Totals.ofLines (g.readingsOf id')).withoutKinds := by
    rw [← Totals.sees_withoutKinds.ofLines, ← Totals.sees_withoutKinds.ofLines]
    exact Totals.ofLines_congr_alone hsame
  have hempty : (f.readingsOf id).isEmpty = (g.readingsOf id').isEmpty := by
    have hlength := congrArg List.length hsame
    simp only [List.length_map] at hlength
    rw [Bool.eq_iff_iff, List.isEmpty_iff_length_eq_zero, List.isEmpty_iff_length_eq_zero, hlength]
  rw [get?_sessionTotals_eq, get?_sessionTotals_eq, hempty]
  split
  · rfl
  · rw [Option.map_some, Option.map_some, htotals]

end SourceFile

namespace Report

variable {r r' : Report} {id id' : Nat} {flag q : String}

/-- What a session says of a line. -/
def said (r : Report) (id : Nat) (q : String) (n : Nat) : List (Option Outcome × Option Complexity) :=
  (r.lineAt? q n).elim [] (Line.said id)

/-- The totals of the readings of a session in a file. -/
def shareIn (r : Report) (id : Nat) (q : String) : Option Totals :=
  (r.file? q).bind fun f => f.sessionTotals.get? id

/-- The totals of the readings of a session in all files. -/
def shareOf (r : Report) (id : Nat) : Totals :=
  { Totals.sum (r.names.filterMap (r.shareIn id)) with sessions := 1 }

/-- **A session that says the same of each line has the same totals in a file**, but for kinds. -/
theorem shareIn_congr (h : ∀ n, r.said id q n = r'.said id' q n) :
    (r.shareIn id q).map Totals.withoutKinds = (r'.shareIn id' q).map Totals.withoutKinds := by
  -- a file that is not there says as much as one without lines
  have hshare (r : Report) (id : Nat) :
      r.shareIn id q = ((r.file? q).getD { name := q }).sessionTotals.get? id := by
    rw [shareIn]
    cases r.file? q <;> rfl
  have hline (r : Report) (n : Nat) :
      ((r.file? q).getD { name := q }).lines.get? n = r.lineAt? q n := by
    rw [lineAt?]
    cases r.file? q <;> rfl
  rw [hshare, hshare]
  apply SourceFile.sessionTotals_congr_said
  intro n
  rw [hline, hline]
  exact h n

theorem nodup_names (r : Report) : r.names.Nodup := (Table.keys_ascending r.files).imp Precedes.ne

theorem mem_names_of_shareIn (h : r.Consistent) {t : Totals} (ht : r.shareIn id q = some t) :
    q ∈ r.names := by
  obtain ⟨f, hf, -⟩ := Option.bind_eq_some_iff.1 ht
  exact h.mem_names_iff.2 ⟨f, hf⟩

/-- **A session has the same share where it has the same totals in each file**, but for kinds. -/
theorem shareOf_congr (h : r.Consistent) (h' : r'.Consistent)
    (hshare : ∀ q, (r.shareIn id q).map Totals.withoutKinds =
      (r'.shareIn id' q).map Totals.withoutKinds) :
    (r.shareOf id).withoutKinds = (r'.shareOf id').withoutKinds := by
  have hmask (r : Report) (id : Nat) : (r.shareOf id).withoutKinds =
      { Totals.sum (r.names.filterMap fun q => (r.shareIn id q).map Totals.withoutKinds) with
        sessions := 1 } := by
    rw [shareOf, Totals.sees_withoutKinds.sessions, ← Totals.sees_withoutKinds.sum,
      List.map_filterMap]
  have hmem {r : Report} {id : Nat} (h : r.Consistent) {q : String} {t : Totals}
      (ht : (r.shareIn id q).map Totals.withoutKinds = some t) : q ∈ r.names := by
    obtain ⟨own, hown, -⟩ := Option.map_eq_some_iff.1 ht
    exact mem_names_of_shareIn h hown
  rw [hmask, hmask, ← funext hshare,
    Totals.sum_perm (filterMap_perm r.nodup_names r'.nodup_names ?_)]
  intro q t ht
  exact iff_of_true (hmem h ht) (hmem h' ((hshare q).symm.trans ht))

end Report

/-! ## 3. Lines of one session -/

namespace Line

variable {knows : Nat → Prop} {l : Line} {id : Nat}

theorem contains_singleton (id k : Nat) : [id].contains k = (k == id) := by
  rw [List.contains_cons, List.contains_nil, Bool.or_false]

/-- A line restricted to a session counts as the reading of that session does. -/
theorem Steady.restrict (h : l.Steady knows) (id : Nat) :
    (View.restrict [id] l).toList.map (·.tally.alone) =
      ((l.sessions.filter fun s => s.id == id).map fun s =>
        ({ reading := s.reading, kind := l.kind, complexity := s.complexity } : Line)).map
          (·.tally.alone) := by
  have hmessages : l.messageCount = 0 := by rw [messageCount, h.bare.messages]
  have hkept : (l.sessions.filter fun s => [id].contains s.id) =
      l.sessions.filter fun s => s.id == id :=
    List.filter_congr fun s _ => contains_singleton id s.id
  rw [View.restrict]
  simp only [hkept]
  have hapart : (l.sessions.filter fun s => s.id == id).map (·.id) |>.Nodup :=
    (List.filter_sublist.map _).nodup h.apart
  have hin : ∀ s ∈ l.sessions.filter fun s => s.id == id, s ∈ l.sessions ∧ s.id = id := by
    intro s hs
    obtain ⟨hs, hid⟩ := List.mem_filter.1 hs
    exact ⟨hs, eq_of_beq hid⟩
  have hwhole (hlength : (l.sessions.filter fun s => s.id == id).length = l.sessions.length) :
      (l.sessions.filter fun s => s.id == id) = l.sessions :=
    List.filter_eq_self.2 (List.length_filter_eq_length_iff.1 hlength)
  generalize (l.sessions.filter fun s => s.id == id) = kept at hapart hin hwhole ⊢
  cases kept with
  | nil => rfl
  | cons s rest =>
    cases rest with
    | cons t others =>
      -- no second session has the id
      obtain ⟨hout, -⟩ := List.nodup_cons.1 hapart
      have hs := (hin s List.mem_cons_self).2
      have ht := (hin t (List.mem_cons_of_mem s List.mem_cons_self)).2
      exact absurd (List.mem_map.2 ⟨t, List.mem_cons_self, ht.trans hs.symm⟩) hout
    | nil =>
      have hnone := h.bare.sessions s (hin s List.mem_cons_self).1
      simp only [List.isEmpty_cons, Bool.false_eq_true, if_false]
      split
      · rename_i hlength
        have hreading := h.alone s (hwhole hlength).symm
        show [Tally.mk l.reading.outcome l.kind l.messageCount l.complexity []] =
          [Tally.mk s.reading.outcome l.kind 0 s.complexity []]
        rw [hreading, hmessages, h.bare.complexity, hnone]
      · show [Tally.mk s.reading.outcome l.kind l.messageCount
          (LineSession.complexityOf [s]) []] = [Tally.mk s.reading.outcome l.kind 0 s.complexity []]
        rw [hmessages, LineSession.complexityOf_of_none (l := [s])
          fun t ht => by rw [List.mem_singleton.1 ht, hnone], hnone]

end Line

/-! ## 4. Views that one session passes -/

namespace View

open Report

variable {r : Report} {knows : Nat → Prop} {f : SourceFile} {id : Nat} {s : Session} {flag : String}

/-- The view of a flag. -/
def ofFlag (r : Report) (options : ViewOptions) (flag : String) : View :=
  { report := r, options, flags := [[flag]] }

theorem narrow_flag [PatternLanguage] (r : Report) (options : ViewOptions) (flag : String) :
    narrow { report := r, options } [] [flag] = .ok (ofFlag r options flag) := rfl

theorem passes_ofFlag {options : ViewOptions} (s : Session) :
    (ofFlag r options flag).passes s = s.flags.contains flag := by
  rw [passes]
  show ([[flag]].all fun wanted => s.flags.any wanted.contains) = _
  rw [List.all_cons, List.all_nil, Bool.and_true, Bool.eq_iff_iff, List.any_eq_true,
    List.contains_iff_mem]
  simp

/-- The sessions of a report that carry a flag. -/
theorem sessions_ofFlag {options : ViewOptions} :
    (ofFlag r options flag).sessions = r.sessions.filter fun _ s => s.flags.contains flag := by
  rw [sessions]
  congr 1
  funext _ s
  exact passes_ofFlag s

/-- The totals that a view shows of a file are those of the session that passes. -/
theorem share_of_shown {v : View} (hf : ∀ n l, f.lines.get? n = some l → l.Steady knows)
    (hv : v.sessionIds? = some [id]) :
    (if (v.linesOf f).isEmpty then none else some (v.totalsOf f)) = f.sessionTotals.get? id := by
  have hsame : (v.linesOf f).values.map (·.tally.alone) =
      (f.readingsOf id).map (·.tally.alone) := by
    rw [linesOf, Table.values_filterMap, SourceFile.readingsOf_eq, List.filterMap_eq_flatMap_toList,
      Table.values, List.flatMap_map, List.map_flatMap, List.map_flatMap]
    refine List.flatMap_congr fun e he => ?_
    rw [shown, hv]
    exact (hf e.1 e.2 ((Table.get?_eq_some_iff _).2 he)).restrict id
  have hempty : (v.linesOf f).isEmpty = (f.readingsOf id).isEmpty := by
    have hlength := congrArg List.length hsame
    rw [List.length_map, List.length_map, Table.values, List.length_map] at hlength
    rw [Table.isEmpty, Bool.eq_iff_iff, List.isEmpty_iff_length_eq_zero,
      List.isEmpty_iff_length_eq_zero, hlength]
  rw [SourceFile.get?_sessionTotals_eq, hempty, totalsOf, Totals.ofLines_congr_alone hsame]

/-- **A view that one session passes comes to the share of that session.** -/
theorem computedTotals_of_alone {options : ViewOptions}
    (hlines : ∀ q f, r.file? q = some f → ∀ n l, f.lines.get? n = some l → l.Steady knows)
    (hone : (ofFlag r options flag).sessions.entries = [(id, s)]) :
    (ofFlag r options flag).computedTotals = r.shareOf id := by
  generalize hv : ofFlag r options flag = v at hone ⊢
  have hreport : v.report = r := by rw [← hv]; rfl
  have hfilter : v.hasFlagFilter = true := by rw [← hv]; rfl
  have hids : v.sessionIds? = some [id] := by
    rw [sessionIds?, if_pos hfilter, Table.keys, hone]
    rfl
  have hincludes (q : String) : v.includes q = true := by rw [← hv]; rfl
  have hfile (q : String) : v.file? q = r.file? q := by
    rw [file?, if_pos (hincludes q), hreport]
  have hitems : v.names.filterMap v.fileTotals? = r.names.filterMap (r.shareIn id) := by
    rw [View.names, List.filterMap_filter, hreport]
    refine List.filterMap_congr fun q _ => ?_
    rw [View.contains, fileTotals?, if_pos hfilter, hfile, shareIn, hincludes, hfilter]
    cases hq : r.file? q with
    | none => rfl
    | some f =>
      rw [Option.bind_some, ← share_of_shown (hlines q f hq) hids]
      show (if (!(v.linesOf f).isEmpty) = true then some (v.totalsOf f) else none) = _
      cases (v.linesOf f).isEmpty <;> rfl
  rw [View.computedTotals, hitems, shareOf, Table.size, hone]
  rfl

end View

end CoverageLedger
