import CoverageLedger.Proofs.Report.Slots
import CoverageLedger.Proofs.SourceFile.Sessions
import CoverageLedger.Report.Edit

/-!
# Deleting sessions from a report

`Report.deleteSessions` passes over the names of the manifest, changes the file of each name in its
slot, and takes out the files that have become empty when all names are done.  `file?_deleteSessions`
says what is found under a name afterwards, for every report: also for one in which two names share
a slot, since the second pass over a file finds nothing to do.
-/

namespace CoverageLedger

/-! ## 1. Erasing several keys -/

theorem Table.get?_foldl_erase {κ α : Type} [TableKey κ] [DecidableEq κ] (ids : List κ)
    (t : Table κ α) (k : κ) :
    (ids.foldl Table.erase t).get? k = if k ∈ ids then none else t.get? k := by
  induction ids generalizing t with
  | nil => simp
  | cons id rest ih =>
    rw [List.foldl_cons, ih, Table.get?_erase]
    by_cases hk : k = id
    · simp [hk]
    · simp [hk]

theorem SessionTotals.byId_foldl_erase (ids : List Nat) (s : SessionTotals) :
    (ids.foldl SessionTotals.erase s).byId = ids.foldl Table.erase s.byId := by
  induction ids generalizing s with
  | nil => rfl
  | cons id rest ih => rw [List.foldl_cons, List.foldl_cons, ih, SessionTotals.erase]

theorem SessionTotals.get?_foldl_erase (ids : List Nat) (s : SessionTotals) (id : Nat) :
    (ids.foldl SessionTotals.erase s).get? id = if id ∈ ids then none else s.get? id := by
  rw [SessionTotals.get?, SessionTotals.byId_foldl_erase, Table.get?_foldl_erase, SessionTotals.get?]

namespace Report

variable {ids : List Nat} {r : Report} {name : String} {f : SourceFile}

/-! ## 2. One name -/

/-- A file loses its last line by the deletion. -/
def Emptied (ids : List Nat) (f : SourceFile) : Prop :=
  f.hasAnySession ids = true ∧ (f.withoutSessions ids).isEmpty = true

instance (ids : List Nat) (f : SourceFile) : Decidable (Emptied ids f) :=
  inferInstanceAs (Decidable (_ ∧ _))

theorem deleteSessionsIn_of_none (h : r.file? name = none) :
    deleteSessionsIn ids r name = (r, false) ∨ deleteSessionsIn ids r name = (r.changed, false) := by
  rw [deleteSessionsIn]
  split
  · exact .inl rfl
  · right
    simp only [file?_changed, h]

/-- The file of a name is put back without the sessions, and the totals in the manifest follow its
lines when it had any of them and keeps some line. -/
theorem deleteSessionsIn_of_file? (h : r.file? name = some f) :
    deleteSessionsIn ids r name =
      if f.hasAnySession ids then
        if (f.withoutSessions ids).isEmpty then
          (r.changed.putFile name (f.withoutSessions ids), true)
        else ((r.changed.putFile name (f.withoutSessions ids)).refresh name, false)
      else (r.changed.putFile name (f.withoutSessions ids), false) := by
  rw [deleteSessionsIn, if_neg (by simp [contains_of_file? h])]
  simp only [file?_changed, h]
  cases hany : f.hasAnySession ids with
  | false =>
    simp only [Bool.false_eq_true, if_false]
    rw [SourceFile.withoutSessions_of_not_has hany]
  | true =>
    simp only [if_true]
    rw [SourceFile.withoutSessions_of_has hany]

theorem file?_putFile_changed (h : r.file? name = some f) (g : SourceFile) :
    (r.changed.putFile name g).file? name = some g := by
  obtain ⟨slot, hslot, -⟩ := file?_eq_some.1 h
  have hslot' : (r.changed.putFile name g).slotOf? name = some slot := by
    rw [slotOf?_putFile]
    exact hslot
  rw [file?_of_slotOf? hslot', inSlot?_putFile (r := r.changed) h]
  exact if_pos hslot

theorem slotOf?_deleteSessionsIn (q : String) :
    (deleteSessionsIn ids r name).1.slotOf? q = r.slotOf? q := by
  cases h : r.file? name with
  | none =>
    rcases deleteSessionsIn_of_none h with he | he
    · rw [he]
    · rw [he]
      rfl
  | some f =>
    rw [deleteSessionsIn_of_file? h]
    split
    · split
      · rw [slotOf?_putFile, slotOf?_changed]
      · rw [slotOf?_refresh, slotOf?_putFile, slotOf?_changed]
    · rw [slotOf?_putFile, slotOf?_changed]

/-- Afterwards the slot of the name holds its file without the sessions; all others are as before. -/
theorem inSlot?_deleteSessionsIn (s : Nat) :
    (deleteSessionsIn ids r name).1.inSlot? s =
      if r.slotOf? name = some s then (r.inSlot? s).map (SourceFile.withoutSessions ids)
      else r.inSlot? s := by
  cases h : r.file? name with
  | none =>
    have hempty : r.slotOf? name = some s → r.inSlot? s = none := fun hs => by
      rw [← file?_of_slotOf? hs, h]
    have hsame : (deleteSessionsIn ids r name).1.inSlot? s = r.inSlot? s := by
      rcases deleteSessionsIn_of_none h with he | he
      · rw [he]
      · rw [he]
        rfl
    rw [hsame]
    split
    · rename_i hs
      rw [hempty hs]
      rfl
    · rfl
  | some f =>
    have hput : (r.changed.putFile name (f.withoutSessions ids)).inSlot? s =
        if r.slotOf? name = some s then (r.inSlot? s).map (SourceFile.withoutSessions ids)
        else r.inSlot? s := by
      rw [inSlot?_putFile (r := r.changed) h]
      by_cases hs : r.slotOf? name = some s
      · have hf : r.inSlot? s = some f := by rw [← file?_of_slotOf? hs, h]
        rw [if_pos hs, slotOf?_changed, if_pos hs, hf]
        rfl
      · rw [if_neg hs, slotOf?_changed, if_neg hs]
        rfl
    rw [deleteSessionsIn_of_file? h]
    split
    · rename_i hany
      split
      · exact hput
      · -- the file is open after the change, so refreshing its totals leaves it as it is
        have hopen : (f.withoutSessions ids).opened = f.withoutSessions ids := by
          rw [SourceFile.withoutSessions_of_has hany]
          rfl
        have hin := inSlot?_refresh (file?_putFile_changed h (f.withoutSessions ids)) s
        rw [hin, hopen, slotOf?_putFile, slotOf?_changed, hput]
        by_cases hs : r.slotOf? name = some s
        · have hf : r.inSlot? s = some f := by rw [← file?_of_slotOf? hs, h]
          rw [if_pos hs, if_pos hs, hf]
          rfl
        · rw [if_neg hs]
    · exact hput

theorem snd_deleteSessionsIn :
    (deleteSessionsIn ids r name).2 = true ↔ ∃ f, r.file? name = some f ∧ Emptied ids f := by
  cases h : r.file? name with
  | none =>
    have hfalse : (deleteSessionsIn ids r name).2 = false := by
      rcases deleteSessionsIn_of_none h with he | he <;> rw [he]
    simp [hfalse]
  | some f =>
    rw [deleteSessionsIn_of_file? h]
    by_cases hany : f.hasAnySession ids = true
    · by_cases hempty : (f.withoutSessions ids).isEmpty = true
      · simp [hany, hempty, Emptied]
      · simp [hany, hempty, Emptied]
    · simp [hany, Emptied]

/-! ## 3. All names -/

theorem slotOf?_deleteSessionsFrom (names : List String) (q : String) :
    (deleteSessionsFrom ids r names).1.slotOf? q = r.slotOf? q := by
  induction names generalizing r with
  | nil => rfl
  | cons name rest ih =>
    have step : (deleteSessionsFrom ids r (name :: rest)).1 =
        (deleteSessionsFrom ids (deleteSessionsIn ids r name).1 rest).1 := rfl
    rw [step, ih, slotOf?_deleteSessionsIn]

/-- Each slot that some name reaches holds its file without the sessions. -/
theorem inSlot?_deleteSessionsFrom (names : List String) (s : Nat) :
    (deleteSessionsFrom ids r names).1.inSlot? s =
      if ∃ name ∈ names, r.slotOf? name = some s
      then (r.inSlot? s).map (SourceFile.withoutSessions ids) else r.inSlot? s := by
  induction names generalizing r with
  | nil => simp [deleteSessionsFrom]
  | cons name rest ih =>
    have step : (deleteSessionsFrom ids r (name :: rest)).1 =
        (deleteSessionsFrom ids (deleteSessionsIn ids r name).1 rest).1 := rfl
    rw [step, ih, inSlot?_deleteSessionsIn]
    simp only [slotOf?_deleteSessionsIn, List.mem_cons, exists_eq_or_imp]
    -- two names may share a slot, which is then visited twice
    have twice (o : Option SourceFile) :
        (o.map (SourceFile.withoutSessions ids)).map (SourceFile.withoutSessions ids) =
          o.map (SourceFile.withoutSessions ids) := by
      rw [Option.map_map]
      exact congrArg (o.map ·) (funext fun f => SourceFile.withoutSessions_withoutSessions)
    by_cases hname : r.slotOf? name = some s
    · by_cases hrest : ∃ q ∈ rest, r.slotOf? q = some s
      · simp [hname, hrest, twice]
      · simp [hname, hrest]
    · simp [hname]

theorem snd_deleteSessionsFrom_cons (name : String) (rest : List String) :
    (deleteSessionsFrom ids r (name :: rest)).2 =
      if (deleteSessionsIn ids r name).2 then
        name :: (deleteSessionsFrom ids (deleteSessionsIn ids r name).1 rest).2
      else (deleteSessionsFrom ids (deleteSessionsIn ids r name).1 rest).2 := rfl

/-- A file that was already passed over is not emptied a second time. -/
theorem file?_of_file?_deleteSessionsIn {q : String} {g : SourceFile}
    (hg : (deleteSessionsIn ids r name).1.file? q = some g) (hempty : Emptied ids g) :
    r.file? q = some g := by
  obtain ⟨s, hs, hin⟩ := file?_eq_some.1 hg
  rw [slotOf?_deleteSessionsIn] at hs
  rw [inSlot?_deleteSessionsIn] at hin
  rw [file?_of_slotOf? hs]
  split at hin
  · obtain ⟨f, -, rfl⟩ := Option.map_eq_some_iff.1 hin
    have hnot : (f.withoutSessions ids).hasAnySession ids = false :=
      SourceFile.hasAnySession_withoutSessions
    rw [hempty.1] at hnot
    cases hnot
  · exact hin

/-- Only names whose files lose their last line are given. -/
theorem emptied_of_mem (names : List String) {q : String}
    (hq : q ∈ (deleteSessionsFrom ids r names).2) : ∃ f, r.file? q = some f ∧ Emptied ids f := by
  induction names generalizing r with
  | nil => exact absurd hq List.not_mem_nil
  | cons name rest ih =>
    have hrest (hm : q ∈ (deleteSessionsFrom ids (deleteSessionsIn ids r name).1 rest).2) :
        ∃ f, r.file? q = some f ∧ Emptied ids f := by
      obtain ⟨g, hg, hempty⟩ := ih hm
      exact ⟨g, file?_of_file?_deleteSessionsIn hg hempty, hempty⟩
    rw [snd_deleteSessionsFrom_cons] at hq
    split at hq
    · rename_i hflag
      rcases List.mem_cons.1 hq with rfl | hm
      · exact snd_deleteSessionsIn.1 hflag
      · exact hrest hm
    · exact hrest hq

/-- Of the names that reach a slot, one is given when its file loses its last line. -/
theorem exists_mem_of_emptied (names : List String) {s : Nat} (hf : r.inSlot? s = some f)
    (hempty : Emptied ids f) (hname : ∃ name ∈ names, r.slotOf? name = some s) :
    ∃ q ∈ (deleteSessionsFrom ids r names).2, r.slotOf? q = some s := by
  induction names generalizing r with
  | nil =>
    obtain ⟨_, hm, -⟩ := hname
    exact absurd hm List.not_mem_nil
  | cons name rest ih =>
    rw [snd_deleteSessionsFrom_cons]
    by_cases hs : r.slotOf? name = some s
    · have hflag : (deleteSessionsIn ids r name).2 = true :=
        snd_deleteSessionsIn.2 ⟨f, by rw [file?_of_slotOf? hs, hf], hempty⟩
      rw [if_pos hflag]
      exact ⟨name, List.mem_cons_self, hs⟩
    · obtain ⟨q, hq, hqs⟩ := hname
      have hqrest : q ∈ rest := (List.mem_cons.1 hq).resolve_left fun e => hs (e ▸ hqs)
      have hin : (deleteSessionsIn ids r name).1.inSlot? s = some f := by
        rw [inSlot?_deleteSessionsIn, if_neg hs, hf]
      obtain ⟨p, hp, hps⟩ := ih hin ⟨q, hqrest, by rw [slotOf?_deleteSessionsIn]; exact hqs⟩
      rw [slotOf?_deleteSessionsIn] at hps
      refine ⟨p, ?_, hps⟩
      split
      · exact List.mem_cons_of_mem _ hp
      · exact hp

/-! ## 4. Taking several files out -/

theorem slotOf?_foldl_remove (names : List String) (q : String) :
    (names.foldl (fun r name => (r.remove name).2) r).slotOf? q =
      if q ∈ names then none else r.slotOf? q := by
  induction names generalizing r with
  | nil => simp
  | cons name rest ih =>
    rw [List.foldl_cons, ih, slotOf?_remove]
    by_cases hq : q = name
    · simp [hq]
    · simp [hq]

theorem inSlot?_foldl_remove (names : List String) (s : Nat) :
    (names.foldl (fun r name => (r.remove name).2) r).inSlot? s =
      if ∃ name ∈ names, r.slotOf? name = some s then none else r.inSlot? s := by
  induction names generalizing r with
  | nil => simp
  | cons name rest ih =>
    rw [List.foldl_cons, ih, inSlot?_remove]
    simp only [slotOf?_remove, List.mem_cons, exists_eq_or_imp]
    by_cases hname : r.slotOf? name = some s
    · simp [hname]
    · have hrest : (∃ q ∈ rest, (if q = name then none else r.slotOf? q) = some s) ↔
          ∃ q ∈ rest, r.slotOf? q = some s := by
        constructor
        · rintro ⟨q, hq, hqs⟩
          split at hqs
          · cases hqs
          · exact ⟨q, hq, hqs⟩
        · rintro ⟨q, hq, hqs⟩
          have hne : q ≠ name := by
            rintro rfl
            exact hname hqs
          refine ⟨q, hq, ?_⟩
          rw [if_neg hne]
          exact hqs
      simp only [hname, false_or, hrest, if_false]

theorem get?_foldl_remove (names : List String) (q : String) :
    (names.foldl (fun r name => (r.remove name).2) r).files.get? q =
      if q ∈ names then none else r.files.get? q := by
  induction names generalizing r with
  | nil => simp
  | cons name rest ih =>
    rw [List.foldl_cons, ih, get?_remove]
    by_cases hq : q = name
    · simp [hq]
    · simp [hq]

theorem sessions_foldl_remove (names : List String) :
    (names.foldl (fun r name => (r.remove name).2) r).sessions = r.sessions := by
  induction names generalizing r with
  | nil => rfl
  | cons name rest ih => rw [List.foldl_cons, ih, sessions_remove]

/-! ## 5. The whole deletion -/

@[simp] theorem deleteSessions_nil : r.deleteSessions [] = r := rfl

/-- The report before the files without lines are taken out. -/
def swept (ids : List Nat) (r : Report) : Report := (deleteSessionsFrom ids r r.names).1

/-- The names of the files that have lost their last line. -/
def emptiedNames (ids : List Nat) (r : Report) : List String := (deleteSessionsFrom ids r r.names).2

theorem deleteSessions_of_ne_nil (h : ids ≠ []) :
    r.deleteSessions ids =
      let left := (emptiedNames ids r).foldl (fun r name => (r.remove name).2) (swept ids r)
      { left with
        files := left.files.map fun _ e =>
          { e with sessionTotals := ids.foldl SessionTotals.erase e.sessionTotals }
        sessions := ids.foldl Table.erase left.sessions
        knownTotals := none } := by
  have hne : ids.isEmpty = false := by
    rw [List.isEmpty_eq_false_iff]
    exact h
  rw [deleteSessions, hne]
  rfl

theorem slotOf?_deleteSessions (h : ids ≠ []) (q : String) :
    (r.deleteSessions ids).slotOf? q =
      if q ∈ emptiedNames ids r then none else r.slotOf? q := by
  rw [deleteSessions_of_ne_nil h, slotOf?]
  simp only [Table.get?_map, Option.map_map, Function.comp_def]
  have hleft := slotOf?_foldl_remove (r := swept ids r) (emptiedNames ids r) q
  rw [swept, slotOf?_deleteSessionsFrom] at hleft
  exact hleft

theorem inSlot?_deleteSessions (h : ids ≠ []) (s : Nat) :
    (r.deleteSessions ids).inSlot? s =
      if ∃ q ∈ emptiedNames ids r, r.slotOf? q = some s then none else (swept ids r).inSlot? s := by
  rw [deleteSessions_of_ne_nil h]
  have hleft := inSlot?_foldl_remove (r := swept ids r) (emptiedNames ids r) s
  simp only [swept, slotOf?_deleteSessionsFrom] at hleft
  exact hleft

/-- **What a deletion leaves under a name**: the file without the sessions, or no file when that was
its last line. -/
theorem file?_deleteSessions (h : ids ≠ []) (name : String) :
    (r.deleteSessions ids).file? name =
      (r.file? name).bind fun f =>
        if Emptied ids f then none else some (f.withoutSessions ids) := by
  cases hslot : r.slotOf? name with
  | none =>
    have hafter : (r.deleteSessions ids).slotOf? name = none := by
      rw [slotOf?_deleteSessions h, hslot, ite_self]
    rw [file?, file?, hafter, hslot]
    rfl
  | some s =>
    have hname : name ∈ r.names := by
      obtain ⟨e, he, -⟩ := slotOf?_eq_some.1 hslot
      exact mem_names.2 ⟨e, he⟩
    have hswept : (swept ids r).inSlot? s = (r.inSlot? s).map (SourceFile.withoutSessions ids) := by
      rw [swept, inSlot?_deleteSessionsFrom, if_pos ⟨name, hname, hslot⟩]
    rw [file?_of_slotOf? hslot]
    cases hf : r.inSlot? s with
    | none =>
      -- the manifest names a slot that holds nothing
      rw [hf] at hswept
      rw [file?, slotOf?_deleteSessions h, hslot]
      split
      · rfl
      · rw [Option.bind_some, inSlot?_deleteSessions h, hswept]
        exact ite_self _
    | some f =>
      rw [hf] at hswept
      rw [Option.bind_some, file?, slotOf?_deleteSessions h, hslot]
      by_cases hempty : Emptied ids f
      · rw [if_pos hempty]
        have hgone : ∃ q ∈ emptiedNames ids r, r.slotOf? q = some s :=
          exists_mem_of_emptied r.names hf hempty ⟨name, hname, hslot⟩
        split
        · rfl
        · rw [Option.bind_some, inSlot?_deleteSessions h, if_pos hgone]
      · -- a name that shares the slot is not given either, as its file is the same one
        have hstays : ¬ ∃ q ∈ emptiedNames ids r, r.slotOf? q = some s := by
          rintro ⟨q, hq, hqs⟩
          obtain ⟨g, hg, hgempty⟩ := emptied_of_mem r.names hq
          rw [file?_of_slotOf? hqs, hf] at hg
          exact hempty (Option.some.inj hg ▸ hgempty)
        have hnot : name ∉ emptiedNames ids r := fun hm => hstays ⟨name, hm, hslot⟩
        rw [if_neg hempty, if_neg hnot, Option.bind_some, inSlot?_deleteSessions h, if_neg hstays,
          hswept]
        rfl

theorem get?_sessions_deleteSessions (id : Nat) :
    (r.deleteSessions ids).sessions.get? id = if id ∈ ids then none else r.sessions.get? id := by
  by_cases h : ids = []
  · simp [h]
  · have hsessions : (swept ids r).sessions = r.sessions := by
      rw [swept]
      -- the pass over the files never touches the session map
      generalize r.names = names
      induction names generalizing r with
      | nil => rfl
      | cons name rest ih =>
        have step : (deleteSessionsFrom ids r (name :: rest)).1 =
            (deleteSessionsFrom ids (deleteSessionsIn ids r name).1 rest).1 := rfl
        rw [step, ih]
        cases hf : r.file? name with
        | none =>
          rcases deleteSessionsIn_of_none hf with he | he
          · rw [he]
          · rw [he]
            rfl
        | some f =>
          rw [deleteSessionsIn_of_file? hf]
          split
          · split
            · rw [sessions_putFile]
              rfl
            · rw [sessions_refresh, sessions_putFile]
              rfl
          · rw [sessions_putFile]
            rfl
    rw [deleteSessions_of_ne_nil h, Table.get?_foldl_erase, sessions_foldl_remove, hsessions]

theorem sessionTotals_deleteSessions {e : FileEntry}
    (he : (r.deleteSessions ids).files.get? name = some e) {id : Nat} (hid : id ∈ ids) :
    e.sessionTotals.get? id = none := by
  have h : ids ≠ [] := by
    rintro rfl
    exact absurd hid List.not_mem_nil
  rw [deleteSessions_of_ne_nil h, Table.get?_map] at he
  obtain ⟨e₀, -, rfl⟩ := Option.map_eq_some_iff.1 he
  rw [SessionTotals.get?_foldl_erase, if_pos hid]

/-! ## 6. What is left of the sessions -/

theorem hasAnySession_nil (f : SourceFile) : f.hasAnySession [] = false := by
  rw [Bool.eq_false_iff]
  intro hany
  obtain ⟨id, -, hid⟩ := SourceFile.hasAnySession_iff.1 hany
  exact absurd hid List.not_mem_nil

/-- Deleting no sessions at all may leave a file unasked for its sessions, so lines and ids are
compared and not the files. -/
theorem lines_deleteSessions (ids : List Nat) (r : Report) (name : String) :
    ((r.deleteSessions ids).file? name).map (fun f => (f.lines, f.sessionIds)) =
      (r.file? name).bind fun f => if Emptied ids f then none
        else some ((f.withoutSessions ids).lines, (f.withoutSessions ids).sessionIds) := by
  by_cases h : ids = []
  · subst h
    have hnot (f : SourceFile) : ¬ Emptied [] f := fun hempty => by
      have hany := hempty.1
      rw [hasAnySession_nil] at hany
      cases hany
    cases hf : r.file? name with
    | none => rw [deleteSessions_nil, hf, Option.map_none, Option.bind_none]
    | some f =>
      rw [deleteSessions_nil, hf, Option.map_some, Option.bind_some, if_neg (hnot f),
        SourceFile.withoutSessions_of_not_has (hasAnySession_nil f),
        SourceFile.lines_afterSessionIds, SourceFile.sessionIds_afterSessionIds]
  · rw [file?_deleteSessions h]
    cases r.file? name with
    | none => rfl
    | some f =>
      rw [Option.bind_some, Option.bind_some]
      split <;> rfl

/-- Each file that stays has the lines and the session ids of its own file without the sessions. -/
theorem own_of_file?_deleteSessions (hf : (r.deleteSessions ids).file? name = some f) :
    ∃ own, r.file? name = some own ∧ f.lines = (own.withoutSessions ids).lines ∧
      f.sessionIds = (own.withoutSessions ids).sessionIds := by
  have hlines := lines_deleteSessions ids r name
  rw [hf, Option.map_some] at hlines
  obtain ⟨own, hown, hkept⟩ := Option.bind_eq_some_iff.1 hlines.symm
  split at hkept
  · cases hkept
  · obtain ⟨h₁, h₂⟩ := Prod.mk.inj (Option.some.inj hkept)
    exact ⟨own, hown, h₁.symm, h₂.symm⟩

/-- A file that has none of the sessions by its own account keeps its lines as they are. -/
theorem lines_deleteSessions_of_not_has (hf : r.file? name = some f)
    (hany : f.hasAnySession ids = false) :
    ∃ g, (r.deleteSessions ids).file? name = some g ∧ g.lines = f.lines := by
  have hstays : ¬ Emptied ids f := fun hempty => by
    rw [hempty.1] at hany
    cases hany
  have hlines := lines_deleteSessions ids r name
  rw [hf, Option.bind_some, if_neg hstays, SourceFile.withoutSessions_of_not_has hany,
    SourceFile.lines_afterSessionIds] at hlines
  obtain ⟨g, hg, hpair⟩ := Option.map_eq_some_iff.1 hlines
  exact ⟨g, hg, (Prod.mk.inj hpair).1⟩

/-- **What a deletion clears**, in a report whose files say exactly which sessions their lines have.
No line keeps a deleted session, the ids of a file that stays are those before without the deleted
ones, and neither the manifest nor the session map has any of them.  Datapoints stay in just those
files that the deletion passes over, as none of the sessions has a reading of its own there. -/
theorem deleteSessions_clears (ids : List Nat) (r : Report)
    (hexact : ∀ name f, r.file? name = some f → f.Exact) :
    (∀ name f, (r.deleteSessions ids).file? name = some f →
      (∀ n l, f.lines.get? n = some l → ∀ s ∈ l.sessions, s.id ∉ ids) ∧
      ∃ own, r.file? name = some own ∧
        f.sessionIds = own.sessionIds.filter fun id => !ids.contains id) ∧
    (∀ name e, (r.deleteSessions ids).files.get? name = some e →
      ∀ id ∈ ids, e.sessionTotals.get? id = none) ∧
    (∀ id ∈ ids, (r.deleteSessions ids).sessions.get? id = none) ∧
    ((∀ name f, (r.deleteSessions ids).file? name = some f →
        ∀ n l, f.lines.get? n = some l → ¬ l.HasDatapointOf ids) ↔
      ∀ name f, r.file? name = some f → f.hasAnySession ids = false →
        ∀ n l, f.lines.get? n = some l → ¬ l.HasDatapointOf ids) := by
  refine ⟨fun name f hf => ?_, fun name e he id hid => sessionTotals_deleteSessions he hid,
    fun id hid => ?_, fun hafter name f hf hany n l hl => ?_, fun hbefore name f hf n l hl => ?_⟩
  · obtain ⟨own, hown, hlines, hids⟩ := own_of_file?_deleteSessions hf
    have hownExact : own.Exact := hexact name own hown
    refine ⟨fun n l hl => ?_, own, hown, ?_⟩
    · rw [hlines] at hl
      exact SourceFile.not_mem_of_withoutSessions hownExact hl
    · rw [hids, SourceFile.sessionIds_withoutSessions hownExact]
  · rw [get?_sessions_deleteSessions, if_pos hid]
  · -- a file that the deletion skips keeps its lines, datapoints included
    obtain ⟨g, hg, hlines⟩ := lines_deleteSessions_of_not_has hf hany
    rw [← hlines] at hl
    exact hafter name g hg n l hl
  · obtain ⟨own, hown, hlines, -⟩ := own_of_file?_deleteSessions hf
    rw [hlines, SourceFile.get?_withoutSessions] at hl
    split at hl
    · obtain ⟨l₀, -, hw⟩ := Option.bind_eq_some_iff.1 hl
      exact Line.not_hasDatapointOf_withoutSessions hw
    · rename_i hany
      exact hbefore name own hown (Bool.eq_false_iff.2 hany) n l hl

/-! A datapoint may come from a session that has no reading of its own in the file. -/

/-- A line that session 0 read, with a datapoint of session 1. -/
def foreignDatapoint : Line :=
  { reading := .hit .one
    sessions := [{ id := 0, reading := .hit .one }]
    datapoints := some [{ session := 1, reading := .hit .one, labels := [] }] }

def foreignDatapointFile : SourceFile :=
  { name := "a", content := .lines ((∅ : Table Nat Line).insert 1 foreignDatapoint) }

def foreignDatapointReport : Report :=
  ((((({} : Report).addSession {}).2.addSession {}).2).append foreignDatapointFile).2

theorem eq_of_file?_foreignDatapointReport (hf : foreignDatapointReport.file? name = some f) :
    f = foreignDatapointFile := by
  obtain ⟨s, -, hin⟩ := file?_eq_some.1 hf
  have hslots : foreignDatapointReport.slots = [some foreignDatapointFile] := rfl
  rw [inSlot?, hslots] at hin
  cases s with
  | zero => exact (Option.some.inj hin).symm
  | succ s => cases hin

/-- The sessions of the report are cleared all the same. -/
theorem deleteSessions_clears_foreignDatapoint :
    (∀ name f, foreignDatapointReport.file? name = some f → f.Exact) ∧
    (foreignDatapointReport.deleteSessions [1]).sessions.get? 1 = none := by
  have hexact : ∀ name f, foreignDatapointReport.file? name = some f → f.Exact := by
    intro name f hf
    rw [eq_of_file?_foreignDatapointReport hf]
    rfl
  exact ⟨hexact, (deleteSessions_clears [1] foreignDatapointReport hexact).2.2.1 1 (by decide)⟩

/-- The datapoint of session 1 outlasts the deletion of session 1. -/
theorem datapoint_outlasts_deletion :
    (∀ name f, foreignDatapointReport.file? name = some f → f.Exact) ∧
    ∃ f, (foreignDatapointReport.deleteSessions [1]).file? "a" = some f ∧
      f.lines.get? 1 = some foreignDatapoint ∧ foreignDatapoint.HasDatapointOf [1] := by
  refine ⟨fun name f hf => ?_, foreignDatapointFile, rfl, rfl, ?_⟩
  · rw [eq_of_file?_foreignDatapointReport hf]
    rfl
  · exact ⟨_, rfl, _, List.mem_singleton_self _, by decide⟩

end Report

end CoverageLedger
