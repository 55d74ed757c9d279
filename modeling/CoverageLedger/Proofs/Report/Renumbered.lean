import CoverageLedger.Proofs.Line.Accounted
import CoverageLedger.Proofs.Report.Append
import CoverageLedger.Proofs.Report.Each
import CoverageLedger.Proofs.Report.Reached
import CoverageLedger.Proofs.SourceFile.Tally

/-!
# Renumbering a session

The id of a session stands in the session list, in the sessions and the datapoints of every line, in
what a file says about its sessions, and in the totals by session of the manifest.  `Report.Renames`
says that it is another one in all these places, and that nothing else differs.  On the way there,
files are passed over that do not have the session by their own account, and a file that two names
reach is visited twice.
-/

namespace CoverageLedger

/-! ## 1. Entries that are moved -/

section related

variable {α β γ δ : Type} {R : α → β → Prop} {o : Option α} {o' : Option β}

theorem exists_of_rel (h : Option.Rel R o o') {a : α} (ha : o = some a) :
    ∃ b, o' = some b ∧ R a b := by
  subst ha
  cases h with
  | some hab => exact ⟨_, rfl, hab⟩

theorem exists_of_rel' (h : Option.Rel R o o') {b : β} (hb : o' = some b) :
    ∃ a, o = some a ∧ R a b := by
  subst hb
  cases h with
  | some hab => exact ⟨_, rfl, hab⟩

theorem map_eq_of_rel {g : α → γ} {g' : β → γ} (h : Option.Rel R o o')
    (hg : ∀ a b, o = some a → R a b → g' b = g a) : o'.map g' = o.map g := by
  cases h with
  | none => rfl
  | some hab => exact congrArg some (hg _ _ rfl hab)

theorem map_eq_of_rel_rel {R' : β → δ → Prop} {o'' : Option δ} {g : α → γ} {g'' : δ → γ}
    (h : Option.Rel R o o') (h' : Option.Rel R' o' o'')
    (hg : ∀ a b d, o = some a → R a b → R' b d → g'' d = g a) : o''.map g'' = o.map g := by
  cases h with
  | none =>
    cases h' with
    | none => rfl
  | some hab =>
    cases h' with
    | some hbd => exact congrArg some (hg _ _ _ rfl hab hbd)

end related

theorem renamedId_self (old : Nat) : renamedId old old = id := by
  funext key
  unfold renamedId
  split
  · rename_i heq
    exact heq.symm
  · rfl

theorem renamedId_of_ne {old new id : Nat} (h : id ≠ old) : renamedId old new id = id := if_neg h

/-- One id becomes another one and then itself again. -/
theorem renamedId_renamedId {old new id : Nat} (h : id = old ∨ id ≠ new) :
    renamedId new old (renamedId old new id) = id := by
  by_cases hold : id = old
  · rw [hold, renamedId, renamedId, if_pos rfl, if_pos rfl]
  · rw [renamedId_of_ne hold, renamedId_of_ne (h.resolve_left hold)]

namespace Table

variable {α : Type} {old new : Nat} {t t' t'' : Table Nat α}

/-- What stood under one key stands under another, over what was there. -/
def Moved (old new : Nat) (t t' : Table Nat α) : Prop :=
  ∀ id, t'.get? id = if id = new then t.get? old else if id = old then none else t.get? id

theorem Moved.refl (old : Nat) (t : Table Nat α) : Moved old old t t := by
  intro id
  by_cases hid : id = old
  · rw [if_pos hid, hid]
  · rw [if_neg hid, if_neg hid]

theorem Moved.get?_renamedId (h : Moved old new t t') {id : Nat} (hid : id = old ∨ id ≠ new) :
    t'.get? (renamedId old new id) = t.get? id := by
  rw [h]
  by_cases hold : id = old
  · rw [hold, renamedId, if_pos rfl, if_pos rfl]
  · rw [renamedId_of_ne hold, if_neg (hid.resolve_left hold), if_neg hold]

/-- What is moved away and back is where it was, if nothing stood in its way. -/
theorem Moved.back (h : Moved old new t t') (h' : Moved new old t' t'')
    (hfree : old ≠ new → t.get? new = none) : t'' = t := by
  apply ext_get?
  intro id
  rw [h' id]
  by_cases hold : id = old
  · rw [if_pos hold, h new, if_pos rfl, hold]
  · rw [if_neg hold]
    by_cases hnew : id = new
    · rw [if_pos hnew, hnew, hfree fun heq => hold (hnew.trans heq.symm)]
    · rw [if_neg hnew, h id, if_neg hnew, if_neg hold]

theorem Moved.mem_keys_iff (h : Moved old new t t') (hfree : old ≠ new → t.get? new = none)
    {key : Nat} : key ∈ t'.keys ↔ ∃ id ∈ t.keys, renamedId old new id = key := by
  constructor
  · intro hkey
    obtain ⟨a, ha⟩ := t'.mem_keys_iff.1 hkey
    rw [h key] at ha
    split at ha
    · rename_i hnew
      exact ⟨old, t.mem_keys_iff.2 ⟨a, ha⟩, (if_pos rfl).trans hnew.symm⟩
    · split at ha
      · cases ha
      · rename_i hold
        exact ⟨key, t.mem_keys_iff.2 ⟨a, ha⟩, renamedId_of_ne hold⟩
  · rintro ⟨id, hid, rfl⟩
    obtain ⟨a, ha⟩ := t.mem_keys_iff.1 hid
    refine t'.mem_keys_iff.2 ⟨a, (h.get?_renamedId (or_iff_not_imp_left.2 ?_)).trans ha⟩
    rintro hold rfl
    rw [hfree fun heq => hold heq.symm] at ha
    cases ha

theorem values_eq_filterMap (t : Table Nat α) : t.values = t.keys.filterMap t.get? := by
  rw [values, keys, List.filterMap_map, ← List.filterMap_eq_map]
  exact List.filterMap_congr fun e he => ((get?_eq_some_iff t).2 he).symm

/-- The values stay, in some order. -/
theorem Moved.values_perm (h : Moved old new t t') (hfree : old ≠ new → t.get? new = none) :
    t'.values.Perm t.values := by
  have hnodup (t : Table Nat α) : t.keys.Nodup := t.keys_ascending.imp Precedes.ne
  have hkept : old ≠ new → new ∉ t.keys := fun hne => t.get?_eq_none_iff.1 (hfree hne)
  have hkeys : t'.keys.Perm (t.keys.map (renamedId old new)) := by
    refine (List.perm_ext_iff_of_nodup (hnodup t') (nodup_map_renamedId (hnodup t) hkept)).2 ?_
    intro key
    rw [h.mem_keys_iff hfree, List.mem_map]
  rw [values_eq_filterMap, values_eq_filterMap]
  refine (hkeys.filterMap t'.get?).trans (List.Perm.of_eq ?_)
  rw [List.filterMap_map]
  refine List.filterMap_congr fun id hid => h.get?_renamedId (or_iff_not_imp_left.2 ?_)
  rintro hold rfl
  exact hkept (fun heq => hold heq.symm) hid

theorem Moved.size (h : Moved old new t t') (hfree : old ≠ new → t.get? new = none) :
    t'.size = t.size := by
  have hlength := (h.values_perm hfree).length_eq
  rwa [values, values, List.length_map, List.length_map] at hlength

end Table

/-- The totals by session are moved, if there were none under the new id. -/
theorem SessionTotals.moved_changeId {s : SessionTotals} {old new : Nat} (h : s.get? new = none) :
    Table.Moved old new s.byId (s.changeId old new).byId := SessionTotals.get?_changeId h

theorem SessionTotals.changeId_changeId {s : SessionTotals} {old new : Nat} (hne : old ≠ new) :
    (s.changeId old new).changeId old new = s.changeId old new := by
  have hgone : (s.changeId old new).get? old = none := by
    cases hold : s.get? old with
    | none => rw [changeId, hold, hold]
    | some t =>
      have hmoved : s.changeId old new = (s.erase old).insert new t := by rw [changeId, hold]
      rw [hmoved]
      show ((s.byId.erase old).insert new t).get? old = none
      rw [Table.get?_insert, if_neg hne, Table.get?_erase, if_pos rfl]
  rw [changeId, hgone]

/-! ## 2. One line -/

/-- A datapoint of a session under another id. -/
def Datapoint.renamed (σ : Nat → Nat) (d : Datapoint) : Datapoint :=
  { d with session := σ d.session }

namespace Line

variable {σ τ : Nat → Nat} {l : Line}

/-- A line with other ids, in its sessions and in its datapoints. -/
def renamed (σ : Nat → Nat) (l : Line) : Line :=
  { l with
    sessions := l.sessions.map (LineSession.renamed σ)
    datapoints := l.datapoints.map fun ds => ds.map (Datapoint.renamed σ) }

theorem withSessionId_eq_renamed (old new : Nat) :
    Line.withSessionId old new = Line.renamed (renamedId old new) := by
  have hdatapoint :
      (fun d : Datapoint => if d.session = old then { d with session := new } else d) =
        Datapoint.renamed (renamedId old new) := by
    funext d
    unfold Datapoint.renamed renamedId
    split <;> rfl
  funext l
  rw [renamed, ← LineSession.renumber_eq_renamed, ← hdatapoint]
  rfl

theorem sessionIds_renamed (σ : Nat → Nat) (l : Line) :
    (l.renamed σ).sessionIds = l.sessionIds.map σ := by
  rw [sessionIds, sessionIds, renamed, List.map_map, List.map_map]
  rfl

theorem renamed_renamed (σ τ : Nat → Nat) (l : Line) :
    (l.renamed σ).renamed τ = l.renamed (τ ∘ σ) := by
  unfold renamed
  rw [List.map_map, Option.map_map]
  congr 2
  funext ds
  exact List.map_map

/-- Where every id stays the same, the line does. -/
theorem renamed_eq_self (h : l.Backed) (hσ : ∀ id ∈ l.sessionIds, σ id = id) : l.renamed σ = l := by
  have hsessions : l.sessions.map (LineSession.renamed σ) = l.sessions := by
    refine (List.map_congr_left fun s hs => ?_).trans (List.map_id _)
    rw [LineSession.renamed, hσ s.id (mem_sessionIds.2 ⟨s, hs, rfl⟩), LineSession.withId, id]
  have hdatapoints : (l.datapoints.map fun ds => ds.map (Datapoint.renamed σ)) = l.datapoints := by
    cases hds : l.datapoints with
    | none => rfl
    | some ds =>
      refine congrArg some ((List.map_congr_left fun d hd => ?_).trans (List.map_id _))
      rw [Datapoint.renamed, hσ d.session (h ds hds d hd), id]
  rw [renamed, hsessions, hdatapoints]

theorem Backed.renamed (h : l.Backed) (σ : Nat → Nat) : (l.renamed σ).Backed := by
  intro ds hds d' hd'
  obtain ⟨own, hown, rfl⟩ := Option.map_eq_some_iff.1 hds
  obtain ⟨d, hd, rfl⟩ := List.mem_map.1 hd'
  rw [sessionIds_renamed]
  exact List.mem_map_of_mem (h own hown d hd)

end Line

/-! ## 3. One file -/

namespace SourceFile

variable {σ : Nat → Nat} {old new : Nat} {f f' f'' : SourceFile}

/-- A file is another one, but for the ids of the sessions. -/
structure Renames (σ : Nat → Nat) (f f' : SourceFile) : Prop where
  name : f'.name = f.name
  ignore : f'.ignore = f.ignore
  lines : f'.lines = f.lines.map fun _ l => l.renamed σ
  sessionIds : f'.sessionIds = ascend (f.sessionIds.map σ)

theorem idsOfLines_renamed (σ : Nat → Nat) (table : Table Nat Line) :
    idsOfLines (table.map fun _ l => l.renamed σ) = ascend ((idsOfLines table).map σ) := by
  refine ascend_congr fun id => ?_
  rw [Table.values_map, List.flatMap_map, List.mem_map]
  simp only [List.mem_flatMap, Line.sessionIds_renamed, List.mem_map, idsOfLines, mem_ascend]
  constructor
  · rintro ⟨l, hl, own, hown, rfl⟩
    exact ⟨own, ⟨l, hl, hown⟩, rfl⟩
  · rintro ⟨own, ⟨l, hl, hown⟩, rfl⟩
    exact ⟨l, hl, own, hown, rfl⟩

/-- Ids that the file does not have may be renamed. -/
theorem Renames.of_fixed (hexact : f.Exact) (hbacked : ∀ n l, f.lines.get? n = some l → l.Backed)
    (hσ : ∀ id ∈ f.sessionIds, σ id = id) : Renames σ f f where
  name := rfl
  ignore := rfl
  lines := by
    apply Table.ext_get?
    intro n
    rw [Table.get?_map]
    cases hl : f.lines.get? n with
    | none => rfl
    | some l =>
      have hsame : l.renamed σ = l := Line.renamed_eq_self (hbacked n l hl) fun id hid => by
        refine hσ id ?_
        rw [hexact]
        exact mem_idsOfLines.2 ⟨n, l, hl, hid⟩
      rw [Option.map_some, hsame]
  sessionIds := by
    have hsame : f.sessionIds.map σ = f.sessionIds :=
      (List.map_congr_left hσ).trans (List.map_id _)
    have hascending : f.sessionIds.Pairwise Precedes := by
      rw [hexact]
      exact ascend_ascending _
    rw [hsame, ascend_eq_self hascending]

theorem changeSessionId_of_mem (h : old ∈ f.sessionIds) : f.changeSessionId old new =
    f.edit fun table => table.map fun _ l => l.renamed (renamedId old new) := by
  rw [changeSessionId, if_pos (List.contains_iff_mem.2 h), Line.withSessionId_eq_renamed]

theorem changeSessionId_of_not_mem (h : old ∉ f.sessionIds) :
    f.changeSessionId old new = f.afterSessionIds := by
  rw [changeSessionId, if_neg fun hin => h (List.contains_iff_mem.1 hin)]

/-- Also a file that is passed over has its ids renamed: none of them is the old one. -/
theorem renames_changeSessionId (hexact : f.Exact)
    (hbacked : ∀ n l, f.lines.get? n = some l → l.Backed) (old new : Nat) :
    Renames (renamedId old new) f (f.changeSessionId old new) := by
  by_cases hin : old ∈ f.sessionIds
  · rw [changeSessionId_of_mem hin]
    refine ⟨rfl, rfl, rfl, ?_⟩
    rw [sessionIds_edit, idsOfLines_renamed, hexact]
  · -- the file tells the ids of its lines, so that the old id is on none of them
    have hfixed : Renames (renamedId old new) f f :=
      .of_fixed hexact hbacked fun id hid => renamedId_of_ne fun heq => hin (heq ▸ hid)
    rw [changeSessionId_of_not_mem hin]
    refine ⟨name_afterSessionIds, ignore_afterSessionIds, ?_, ?_⟩
    · rw [lines_afterSessionIds]
      exact hfixed.lines
    · rw [sessionIds_afterSessionIds]
      exact hfixed.sessionIds

/-- The id is gone after one pass over a file, so that a second one changes nothing. -/
theorem changeSessionId_changeSessionId (hne : old ≠ new) :
    (f.changeSessionId old new).changeSessionId old new = f.changeSessionId old new := by
  by_cases hin : old ∈ f.sessionIds
  · rw [changeSessionId_of_mem hin]
    have hout : old ∉ (f.edit fun table => table.map fun _ l =>
        l.renamed (renamedId old new)).sessionIds := by
      rw [sessionIds_edit, idsOfLines_renamed, mem_ascend, List.mem_map]
      rintro ⟨id, -, hid⟩
      by_cases hold : id = old
      · rw [hold, renamedId, if_pos rfl] at hid
        exact hne hid.symm
      · exact hold ((renamedId_of_ne hold).symm.trans hid)
    rw [changeSessionId_of_not_mem hout, afterSessionIds_edit]
  · have hout : old ∉ f.afterSessionIds.sessionIds := by rwa [sessionIds_afterSessionIds]
    rw [changeSessionId_of_not_mem hin, changeSessionId_of_not_mem hout,
      afterSessionIds_afterSessionIds]

namespace Renames

theorem get? (h : Renames σ f f') (n : Nat) :
    f'.lines.get? n = (f.lines.get? n).map (Line.renamed σ) := by
  rw [h.lines, Table.get?_map]

theorem exact (h : Renames σ f f') (hexact : f.Exact) : f'.Exact := by
  rw [Exact, h.sessionIds, hexact, h.lines, idsOfLines_renamed]

/-- Totals of lines see no id. -/
theorem totals (h : Renames σ f f') : f'.totals = f.totals := by
  rw [SourceFile.totals, SourceFile.totals, h.lines, Table.values_map]
  refine Totals.ofLines_congr_alone ?_
  rw [List.map_map]
  rfl

theorem lines_back {τ : Nat → Nat} (h : Renames σ f f') (h' : Renames τ f' f'')
    (hbacked : ∀ n l, f.lines.get? n = some l → l.Backed)
    (hτ : ∀ n l, f.lines.get? n = some l → ∀ id ∈ l.sessionIds, τ (σ id) = id) :
    f''.lines = f.lines := by
  apply Table.ext_get?
  intro n
  rw [h'.get?, h.get?]
  cases hl : f.lines.get? n with
  | none => rfl
  | some l =>
    have hsame : l.renamed (τ ∘ σ) = l := Line.renamed_eq_self (hbacked n l hl) (hτ n l hl)
    rw [Option.map_some, Option.map_some, Line.renamed_renamed, hsame]

end Renames

end SourceFile

/-! ## 4. One pass over the files -/

/-- The totals by session of an entry, with one session under another id. -/
def FileEntry.renumbered (old new : Nat) (e : FileEntry) : FileEntry :=
  { e with sessionTotals := e.sessionTotals.changeId old new }

/-- An entry of the manifest is another one, but for the id of a session. -/
structure FileEntry.Renames (old new : Nat) (e e' : FileEntry) : Prop where
  slot : e'.slot = e.slot
  totals : e'.totals = e.totals
  diffTotals : e'.diffTotals = e.diffTotals
  sessionTotals : Table.Moved old new e.sessionTotals.byId e'.sessionTotals.byId

namespace Report

variable {r r' r'' : Report} {old new : Nat} {name : String}

theorem get?_changeSessionIn (q : String) : (changeSessionIn old new r name).files.get? q =
    if q = name then (r.files.get? q).map (FileEntry.renumbered old new) else r.files.get? q := by
  show ((r.changed.afterReading name fun f => f.changeSessionId old new).files.modify name
    (FileEntry.renumbered old new)).get? q = _
  rw [files_afterReading, Table.get?_modify, files_changed]

theorem slotOf?_changeSessionIn (q : String) :
    (changeSessionIn old new r name).slotOf? q = r.slotOf? q := by
  rw [slotOf?, slotOf?, get?_changeSessionIn]
  split
  · rw [Option.map_map]
    rfl
  · rfl

theorem inSlot?_changeSessionIn (i : Nat) : (changeSessionIn old new r name).inSlot? i =
    if r.slotOf? name = some i then (r.inSlot? i).map fun f => f.changeSessionId old new
    else r.inSlot? i :=
  inSlot?_afterReading r.changed name _ i

theorem labels_changeSessionIn : (changeSessionIn old new r name).labels = r.labels :=
  labels_afterReading r.changed name _

theorem sessions_changeSessionIn : (changeSessionIn old new r name).sessions = r.sessions :=
  sessions_afterReading r.changed name _

theorem slotOf?_foldl_changeSessionIn (names : List String) (q : String) :
    (names.foldl (changeSessionIn old new) r).slotOf? q = r.slotOf? q := by
  induction names generalizing r with
  | nil => rfl
  | cons name rest ih => exact ih.trans (slotOf?_changeSessionIn q)

theorem labels_foldl_changeSessionIn (names : List String) :
    (names.foldl (changeSessionIn old new) r).labels = r.labels := by
  induction names generalizing r with
  | nil => rfl
  | cons name rest ih => exact ih.trans labels_changeSessionIn

theorem sessions_foldl_changeSessionIn (names : List String) :
    (names.foldl (changeSessionIn old new) r).sessions = r.sessions := by
  induction names generalizing r with
  | nil => rfl
  | cons name rest ih => exact ih.trans sessions_changeSessionIn

/-- Each name that is passed has its entry renumbered, also when it is passed twice. -/
theorem get?_foldl_changeSessionIn (hne : old ≠ new) (names : List String) (q : String) :
    (names.foldl (changeSessionIn old new) r).files.get? q =
      if q ∈ names then (r.files.get? q).map (FileEntry.renumbered old new)
      else r.files.get? q := by
  have twice (o : Option FileEntry) :
      (o.map (FileEntry.renumbered old new)).map (FileEntry.renumbered old new) =
        o.map (FileEntry.renumbered old new) := by
    rw [Option.map_map]
    refine congrArg (o.map ·) (funext fun e => ?_)
    dsimp only [Function.comp_apply, FileEntry.renumbered]
    rw [SessionTotals.changeId_changeId hne]
  induction names generalizing r with
  | nil => rw [if_neg List.not_mem_nil, List.foldl_nil]
  | cons name rest ih =>
    rw [List.foldl_cons, ih, get?_changeSessionIn]
    by_cases hq : q = name
    · simp only [hq, if_true, twice, List.mem_cons, true_or, ite_self]
    · simp only [hq, if_false, List.mem_cons, false_or]

/-- Each slot that some name reaches holds its file with the session renumbered: two names may share
a slot, which is then visited twice. -/
theorem inSlot?_foldl_changeSessionIn (hne : old ≠ new) (names : List String) (i : Nat) :
    (names.foldl (changeSessionIn old new) r).inSlot? i =
      if ∃ name ∈ names, r.slotOf? name = some i
      then (r.inSlot? i).map fun f => f.changeSessionId old new else r.inSlot? i := by
  have twice (o : Option SourceFile) :
      (o.map fun f => f.changeSessionId old new).map (fun f => f.changeSessionId old new) =
        o.map fun f => f.changeSessionId old new := by
    rw [Option.map_map]
    exact congrArg (o.map ·) (funext fun f => SourceFile.changeSessionId_changeSessionId hne)
  induction names generalizing r with
  | nil =>
    have hnone : ¬ ∃ name ∈ ([] : List String), r.slotOf? name = some i := by
      rintro ⟨name, hname, -⟩
      exact List.not_mem_nil hname
    rw [if_neg hnone, List.foldl_nil]
  | cons name rest ih =>
    -- a slot of this name that is visited again is found as it was left
    rw [List.foldl_cons, ih, inSlot?_changeSessionIn]
    simp only [slotOf?_changeSessionIn, List.mem_cons, exists_eq_or_imp]
    by_cases hname : r.slotOf? name = some i
    · simp only [hname, if_true, twice, true_or, ite_self]
    · simp only [hname, if_false, false_or]

/-- When all names are passed, every file has been. -/
theorem file?_foldl_changeSessionIn (hne : old ≠ new) (q : String) :
    (r.names.foldl (changeSessionIn old new) r).file? q =
      (r.file? q).map fun f => f.changeSessionId old new := by
  rw [file?, file?, slotOf?_foldl_changeSessionIn]
  cases hslot : r.slotOf? q with
  | none => rw [Option.bind_none, Option.bind_none, Option.map_none]
  | some i =>
    obtain ⟨e, he, -⟩ := slotOf?_eq_some.1 hslot
    have hvisited : ∃ name ∈ r.names, r.slotOf? name = some i := ⟨q, mem_names.2 ⟨e, he⟩, hslot⟩
    rw [Option.bind_some, Option.bind_some, inSlot?_foldl_changeSessionIn hne, if_pos hvisited]

/-! ## 5. The whole report -/

/-- The report has the sessions of its lines and of its totals, its manifest has the totals of the
lines, and what is told of sessions elsewhere is what the lines have. -/
structure Registered (r : Report) : Prop where
  lines : ∀ q f, r.file? q = some f → ∀ n l, f.lines.get? n = some l →
    ∀ id ∈ l.sessionIds, r.Knows id
  entries : ∀ q e, r.files.get? q = some e → ∀ id ∈ e.sessionTotals.ids, r.Knows id
  counted : r.Counted
  backed : ∀ q f, r.file? q = some f → ∀ n l, f.lines.get? n = some l → l.Backed
  exact : ∀ q f, r.file? q = some f → f.Exact

/-- A report is another one, but for the id of a session. -/
structure Renames (old new : Nat) (r r' : Report) : Prop where
  labels : r'.labels = r.labels
  sessions : Table.Moved old new r.sessions r'.sessions
  entries : ∀ q, Option.Rel (FileEntry.Renames old new) (r.files.get? q) (r'.files.get? q)
  files : ∀ q, Option.Rel (SourceFile.Renames (renamedId old new)) (r.file? q) (r'.file? q)

theorem knows_iff {id : Nat} : r.Knows id ↔ ∃ s, r.sessions.get? id = some s :=
  Option.isSome_iff_exists

theorem get?_eq_none_of_not_knows {id : Nat} (h : ¬ r.Knows id) : r.sessions.get? id = none :=
  Option.not_isSome_iff_eq_none.1 h

/-- An id that a report has is the old one, or it is not the new one. -/
theorem eq_or_ne_of_knows {id : Nat} (hfree : old ≠ new → ¬ r.Knows new) (h : r.Knows id) :
    id = old ∨ id ≠ new := by
  refine or_iff_not_imp_left.2 fun hold hnew => ?_
  exact hfree (fun heq => hold (hnew.trans heq.symm)) (hnew ▸ h)

/-- What the totals of a file are, whether its lines were read or not. -/
theorem Counted.fileTotals?_eq_entry (h : r.Counted) (q : String) :
    r.fileTotals? q = (r.files.get? q).map (·.totals) := by
  cases he : r.files.get? q with
  | none =>
    rw [Report.fileTotals?, he]
    rfl
  | some e =>
    rw [Report.fileTotals?, he]
    refine congrArg some ?_
    dsimp only
    split
    · rename_i f hf
      have hfile : r.file? q = some f := (file?_of_slotOf? (slotOf?_of_get? he)).trans hf
      rw [h q e f he hfile, ite_self]
    · rfl

namespace Registered

theorem get?_entry_eq_none (h : r.Registered) {q : String} {e : FileEntry}
    (he : r.files.get? q = some e) {id : Nat} (hid : ¬ r.Knows id) :
    e.sessionTotals.get? id = none :=
  (Table.get?_eq_none_iff _).2 fun hin => hid (h.entries q e he id hin)

/-- A report is itself when a session gets the id that it has. -/
theorem renames_self (h : r.Registered) (old : Nat) : Renames old old r r where
  labels := rfl
  sessions := .refl old r.sessions
  entries := by
    intro q
    cases r.files.get? q with
    | none => exact .none
    | some e => exact .some ⟨rfl, rfl, rfl, .refl old _⟩
  files := by
    intro q
    cases hf : r.file? q with
    | none => exact .none
    | some f =>
      rw [renamedId_self]
      exact .some (.of_fixed (h.exact q f hf) (h.backed q f hf) fun _ _ => rfl)

/-- **Each place of an id is renamed**, in the files that are visited and in those that are not. -/
theorem renames_foldl (h : r.Registered) (hne : old ≠ new) (hfree : ¬ r.Knows new) {s : Session}
    (hs : r.sessions.get? old = some s) :
    Renames old new r
      (r.names.foldl (changeSessionIn old new) (r.renumbered old new s)).changed where
  labels := labels_foldl_changeSessionIn _
  sessions := by
    intro id
    show (r.names.foldl (changeSessionIn old new) (r.renumbered old new s)).sessions.get? id = _
    rw [sessions_foldl_changeSessionIn, hs]
    show ((r.sessions.erase old).insert new s).get? id = _
    rw [Table.get?_insert, Table.get?_erase]
  entries := by
    intro q
    rw [files_changed, get?_foldl_changeSessionIn hne]
    show Option.Rel _ _ (if q ∈ r.names then (r.files.get? q).map _ else r.files.get? q)
    cases he : r.files.get? q with
    | none =>
      rw [Option.map_none, ite_self]
      exact .none
    | some e =>
      have hmoved : Table.Moved old new e.sessionTotals.byId
          (e.sessionTotals.changeId old new).byId :=
        SessionTotals.moved_changeId (h.get?_entry_eq_none he hfree)
      rw [if_pos (mem_names.2 ⟨e, he⟩)]
      exact .some ⟨rfl, rfl, rfl, hmoved⟩
  files := by
    intro q
    rw [file?_changed]
    show Option.Rel _ _
      (((r.renumbered old new s).names.foldl (changeSessionIn old new)
        (r.renumbered old new s)).file? q)
    rw [file?_foldl_changeSessionIn hne]
    show Option.Rel _ _ ((r.file? q).map _)
    cases hf : r.file? q with
    | none => exact .none
    | some f =>
      exact .some (SourceFile.renames_changeSessionId (h.exact q f hf) (h.backed q f hf) old new)

theorem renames (h : r.Registered) (hok : r.changeSession old new = .ok r') :
    Renames old new r r' := by
  obtain ⟨s, hs, ⟨hsame, heq⟩ | ⟨hne, hfree, heq⟩⟩ := changeSession_cases hok
  · rw [heq, hsame]
    exact h.renames_self new
  · rw [heq]
    exact h.renames_foldl hne hfree hs

end Registered

/-- It fails exactly where there is no session, or another one has the new id. -/
theorem changeSession_eq_error_iff :
    (∃ e, r.changeSession old new = .error e) ↔ ¬ r.Knows old ∨ new ≠ old ∧ r.Knows new := by
  unfold changeSession
  cases hs : r.sessions.get? old with
  | none =>
    have hunknown : ¬ r.Knows old := fun hknown => by
      obtain ⟨s, hs'⟩ := knows_iff.1 hknown
      rw [hs] at hs'
      cases hs'
    exact iff_of_true ⟨_, rfl⟩ (.inl hunknown)
  | some s =>
    have hknown : r.Knows old := knows_iff.2 ⟨s, hs⟩
    rw [or_iff_right (not_not_intro hknown)]
    dsimp only
    split
    · rename_i hsame
      refine iff_of_false ?_ fun h => h.1 hsame.symm
      rintro ⟨e, he⟩
      cases he
    · rename_i hne
      split
      · rename_i htaken
        exact iff_of_true ⟨_, rfl⟩ ⟨Ne.symm hne, htaken⟩
      · rename_i hfree
        refine iff_of_false ?_ fun h => hfree h.2
        rintro ⟨e, he⟩
        cases he

theorem knows_of_changeSession (hok : r.changeSession old new = .ok r') :
    r.Knows old ∧ (old ≠ new → ¬ r.Knows new) := by
  obtain ⟨s, hs, hcases⟩ := changeSession_cases hok
  refine ⟨knows_iff.2 ⟨s, hs⟩, fun hne => ?_⟩
  rcases hcases with ⟨hsame, -⟩ | ⟨-, hfree, -⟩
  · exact absurd hsame hne
  · exact hfree

namespace Renames

theorem names (h : Renames old new r r') : r'.names = r.names := by
  refine eq_of_ascending (Table.keys_ascending _) (Table.keys_ascending _) fun q => ?_
  show q ∈ r'.names ↔ q ∈ r.names
  rw [mem_names, mem_names]
  constructor
  · rintro ⟨e', he'⟩
    obtain ⟨e, he, -⟩ := exists_of_rel' (h.entries q) he'
    exact ⟨e, he⟩
  · rintro ⟨e, he⟩
    obtain ⟨e', he', -⟩ := exists_of_rel (h.entries q) he
    exact ⟨e', he'⟩

theorem lineAt? (h : Renames old new r r') (q : String) (n : Nat) :
    r'.lineAt? q n = (r.lineAt? q n).map (Line.renamed (renamedId old new)) := by
  have hfile := h.files q
  unfold Report.lineAt?
  generalize r.file? q = o, r'.file? q = o' at hfile
  cases hfile with
  | none => rfl
  | some hfile => exact hfile.get? n

theorem knows (h : Renames old new r r') (hold : r.Knows old) {id : Nat} (hid : r.Knows id) :
    r'.Knows (renamedId old new id) := by
  obtain ⟨s, hs⟩ := knows_iff.1 hid
  obtain ⟨t, ht⟩ := knows_iff.1 hold
  refine knows_iff.2 ?_
  rw [h.sessions]
  by_cases heq : id = old
  · rw [heq, renamedId, if_pos rfl, if_pos rfl]
    exact ⟨t, ht⟩
  · rw [renamedId_of_ne heq, if_neg heq]
    split
    · exact ⟨t, ht⟩
    · exact ⟨s, hs⟩

/-- The report has its sessions afterwards as well. -/
theorem registered (h : Renames old new r r') (hr : r.Registered) (hold : r.Knows old)
    (hfree : old ≠ new → ¬ r.Knows new) : r'.Registered where
  lines := by
    intro q f' hf' n l' hl' id' hid'
    obtain ⟨f, hf, hfile⟩ := exists_of_rel' (h.files q) hf'
    rw [hfile.get?] at hl'
    obtain ⟨l, hl, rfl⟩ := Option.map_eq_some_iff.1 hl'
    rw [Line.sessionIds_renamed] at hid'
    obtain ⟨id, hid, rfl⟩ := List.mem_map.1 hid'
    exact h.knows hold (hr.lines q f hf n l hl id hid)
  entries := by
    intro q e' he' id' hid'
    obtain ⟨e, he, hentry⟩ := exists_of_rel' (h.entries q) he'
    have hnone : old ≠ new → e.sessionTotals.get? new = none :=
      fun hne => hr.get?_entry_eq_none he (hfree hne)
    obtain ⟨id, hid, rfl⟩ := (hentry.sessionTotals.mem_keys_iff hnone).1 hid'
    exact h.knows hold (hr.entries q e he id hid)
  counted := by
    intro q e' f' he' hf'
    obtain ⟨e, he, hentry⟩ := exists_of_rel' (h.entries q) he'
    obtain ⟨f, hf, hfile⟩ := exists_of_rel' (h.files q) hf'
    rw [hentry.totals, hfile.totals]
    exact hr.counted q e f he hf
  backed := by
    intro q f' hf' n l' hl'
    obtain ⟨f, hf, hfile⟩ := exists_of_rel' (h.files q) hf'
    rw [hfile.get?] at hl'
    obtain ⟨l, hl, rfl⟩ := Option.map_eq_some_iff.1 hl'
    exact (hr.backed q f hf n l hl).renamed _
  exact := by
    intro q f' hf'
    obtain ⟨f, hf, hfile⟩ := exists_of_rel' (h.files q) hf'
    exact hfile.exact (hr.exact q f hf)

theorem fileTotals? (h : Renames old new r r') (hr : r.Registered) (hr' : r'.Registered)
    (q : String) : r'.fileTotals? q = r.fileTotals? q := by
  rw [hr.counted.fileTotals?_eq_entry, hr'.counted.fileTotals?_eq_entry]
  exact map_eq_of_rel (h.entries q) fun e e' _ hentry => hentry.totals

theorem computedTotals (h : Renames old new r r') (hr : r.Registered) (hr' : r'.Registered)
    (hfree : old ≠ new → ¬ r.Knows new) : r'.computedTotals = r.computedTotals := by
  have hsize := h.sessions.size fun hne => get?_eq_none_of_not_knows (hfree hne)
  rw [Report.computedTotals, Report.computedTotals, h.names, hsize, funext (h.fileTotals? hr hr')]

/-- Ids on a line stay apart. -/
theorem nodup (h : Renames old new r r') (hr : r.Registered) (hfree : old ≠ new → ¬ r.Knows new)
    {q : String} {n : Nat} {l l' : Line} (hl : r.lineAt? q n = some l)
    (hl' : r'.lineAt? q n = some l') (hnodup : l.sessionIds.Nodup) : l'.sessionIds.Nodup := by
  rw [h.lineAt?, hl] at hl'
  obtain rfl := Option.some.inj hl'
  obtain ⟨f, hf, hline⟩ := Option.bind_eq_some_iff.1 hl
  rw [Line.sessionIds_renamed]
  refine nodup_map_renamedId hnodup fun hne hin => ?_
  exact hfree hne (hr.lines q f hf n l hline new hin)

/-- What is renamed forth and back is as it was, but for how long lists of totals are. -/
theorem back (h : Renames old new r r') (h' : Renames new old r' r'') (hr : r.Registered)
    (hfree : old ≠ new → ¬ r.Knows new) :
    r''.sessions = r.sessions ∧
      (∀ q, (r''.file? q).map SourceFile.lines = (r.file? q).map SourceFile.lines) ∧
      ∀ q, (r''.files.get? q).map (·.sessionTotals.byId) =
        (r.files.get? q).map (·.sessionTotals.byId) := by
  refine ⟨h.sessions.back h'.sessions fun hne => get?_eq_none_of_not_knows (hfree hne), ?_, ?_⟩
  · exact fun q => map_eq_of_rel_rel (h.files q) (h'.files q) fun f f' f'' hf hfile hfile' =>
      hfile.lines_back hfile' (hr.backed q f hf) fun n l hl id hid =>
        renamedId_renamedId (eq_or_ne_of_knows hfree (hr.lines q f hf n l hl id hid))
  · exact fun q => map_eq_of_rel_rel (h.entries q) (h'.entries q) fun e e' e'' he hentry hentry' =>
      hentry.sessionTotals.back hentry'.sessionTotals fun hne =>
        hr.get?_entry_eq_none he (hfree hne)

/-- Afterwards the way back is free. -/
theorem exists_back (h : Renames old new r r') (hold : r.Knows old) :
    ∃ r'', r'.changeSession new old = .ok r'' := by
  have hnew : r'.Knows new := by
    have hknown := h.knows hold hold
    rwa [renamedId, if_pos rfl] at hknown
  have hgone : old ≠ new → ¬ r'.Knows old := by
    intro hne hknown
    obtain ⟨s, hs⟩ := knows_iff.1 hknown
    rw [h.sessions, if_neg hne, if_pos rfl] at hs
    cases hs
  cases hres : r'.changeSession new old with
  | ok r'' => exact ⟨r'', rfl⟩
  | error e =>
    rcases changeSession_eq_error_iff.1 ⟨e, hres⟩ with hunknown | ⟨hne, hknown⟩
    · exact absurd hnew hunknown
    · exact absurd hknown (hgone hne)

end Renames

end Report

end CoverageLedger
