import CoverageLedger.Proofs.Report.Deletion
import Mathlib.Data.List.Nodup
import Mathlib.Data.List.Perm.Subperm

/-!
# Consistent reports

`Report.isConsistent` compares two lists of slot numbers.  `isConsistent_iff` says what that means
for look-ups: every name leads to a file, no two names to the same one, and no slot is occupied
without a name.  In such a report an operation on one name cannot be seen under another, so what a
deletion does to the manifest can be said name by name (`get?_deleteSessions`).
-/

namespace CoverageLedger

theorem length_ascend_iff {κ : Type} [TableKey κ] {l : List κ} :
    (ascend l).length = l.length ↔ l.Nodup := by
  have hnodup : (ascend l).Nodup := (ascend_ascending l).imp Precedes.ne
  constructor
  · intro hlen
    have hsub : (ascend l).Subperm l := List.subperm_of_subset hnodup fun a ha => mem_ascend.1 ha
    have hperm : (ascend l).Perm l := hsub.perm_of_length_le (by omega)
    exact hperm.nodup_iff.1 hnodup
  · intro hl
    have hperm : (ascend l).Perm l := (List.perm_ext_iff_of_nodup hnodup hl).2 fun a => mem_ascend
    exact hperm.length_eq

namespace Report

variable {ids : List Nat} {r : Report} {name : String} {f : SourceFile}

/-! ## 1. Slots that are occupied -/

theorem mem_occupiedFrom {slots : List (Option SourceFile)} {n k : Nat} :
    k ∈ occupiedFrom n slots ↔ n ≤ k ∧ ∃ f, slots[k - n]? = some (some f) := by
  induction slots generalizing n with
  | nil => simp [occupiedFrom]
  | cons o rest ih =>
    -- past the first slot, the number counts from one further on
    have hrest : n + 1 ≤ k → (o :: rest)[k - n]? = rest[k - (n + 1)]? := fun hk => by
      have hsucc : k - n = (k - (n + 1)) + 1 := by omega
      rw [hsucc, List.getElem?_cons_succ]
    have hcases : n ≤ k ↔ k = n ∨ n + 1 ≤ k := by omega
    cases o with
    | none =>
      rw [occupiedFrom, ih]
      constructor
      · rintro ⟨hk, f, hf⟩
        exact ⟨by omega, f, by rw [hrest hk]; exact hf⟩
      · rintro ⟨hk, f, hf⟩
        rcases hcases.1 hk with rfl | hk
        · simp at hf
        · exact ⟨hk, f, by rw [← hrest hk]; exact hf⟩
    | some own =>
      rw [occupiedFrom, List.mem_cons, ih]
      constructor
      · rintro (rfl | ⟨hk, f, hf⟩)
        · exact ⟨Nat.le_refl _, own, by simp⟩
        · exact ⟨by omega, f, by rw [hrest hk]; exact hf⟩
      · rintro ⟨hk, f, hf⟩
        rcases hcases.1 hk with rfl | hk
        · exact .inl rfl
        · exact .inr ⟨hk, f, by rw [← hrest hk]; exact hf⟩

theorem occupiedFrom_ascending (slots : List (Option SourceFile)) (n : Nat) :
    (occupiedFrom n slots).Pairwise Precedes := by
  induction slots generalizing n with
  | nil => exact .nil
  | cons o rest ih =>
    cases o with
    | none => exact ih (n + 1)
    | some f =>
      refine List.pairwise_cons.2 ⟨fun k hk => ?_, ih (n + 1)⟩
      exact Nat.compare_eq_lt.2 (mem_occupiedFrom.1 hk).1

theorem mem_occupied_iff {s : Nat} : s ∈ occupiedFrom 0 r.slots ↔ ∃ f, r.inSlot? s = some f := by
  simp only [mem_occupiedFrom, Nat.zero_le, true_and, Nat.sub_zero, inSlot?_eq_some]

/-! ## 2. Names and slots -/

/-- Names and occupied slots belong together one to one. -/
structure Consistent (r : Report) : Prop where
  filled : ∀ {name s}, r.slotOf? name = some s → ∃ f, r.inSlot? s = some f
  apart : ∀ {a b s}, r.slotOf? a = some s → r.slotOf? b = some s → a = b
  used : ∀ {s f}, r.inSlot? s = some f → ∃ name, r.slotOf? name = some s

/-- A file in a slot is found under a name. -/
theorem Consistent.exists_file?_of_mem_slots (h : r.Consistent) {f : SourceFile}
    (hf : some f ∈ r.slots) : ∃ name, r.file? name = some f := by
  obtain ⟨s, hs, heq⟩ := List.getElem_of_mem hf
  have hin : r.inSlot? s = some f := inSlot?_eq_some.2 (by rw [← heq, List.getElem?_eq_getElem hs])
  obtain ⟨name, hname⟩ := h.used hin
  exact ⟨name, by rw [file?_of_slotOf? hname, hin]⟩

theorem mem_slots_iff {s : Nat} :
    s ∈ r.files.values.map (·.slot) ↔ ∃ name, r.slotOf? name = some s := by
  simp only [List.mem_map, Table.mem_values_iff, slotOf?_eq_some]
  constructor
  · rintro ⟨e, ⟨name, he⟩, hs⟩
    exact ⟨name, e, he, hs⟩
  · rintro ⟨name, e, he, hs⟩
    exact ⟨e, ⟨name, he⟩, hs⟩

/-- No slot number repeats in the manifest when no two names share a slot. -/
theorem nodup_slots_iff : (r.files.values.map (·.slot)).Nodup ↔
    ∀ a b s, r.slotOf? a = some s → r.slotOf? b = some s → a = b := by
  have hslot {q : String × FileEntry} (hq : q ∈ r.files.entries) :
      r.slotOf? q.1 = some q.2.slot :=
    slotOf?_of_get? ((r.files.get?_eq_some_iff).2 hq)
  rw [Table.values, List.map_map]
  constructor
  · intro hnodup a b s ha hb
    obtain ⟨ea, hea, rfl⟩ := slotOf?_eq_some.1 ha
    obtain ⟨eb, heb, heq⟩ := slotOf?_eq_some.1 hb
    have hsame : (a, ea) = (b, eb) :=
      List.inj_on_of_nodup_map hnodup ((r.files.get?_eq_some_iff).1 hea)
        ((r.files.get?_eq_some_iff).1 heb) heq.symm
    exact congrArg Prod.fst hsame
  · intro hapart
    rw [List.nodup_iff_pairwise_ne, List.pairwise_map]
    -- the names are strictly ascending, so two entries of one slot would be of one name
    refine r.files.ascending.imp_of_mem fun {p q} hp hq hpq heq => ?_
    have hkeys : p.1 = q.1 := hapart p.1 q.1 p.2.slot (hslot hp) (by
      rw [hslot hq]
      exact congrArg some heq.symm)
    exact Precedes.ne hpq hkeys

theorem isConsistent_iff : r.isConsistent = true ↔ r.Consistent := by
  have hlen : r.files.size = (r.files.values.map (·.slot)).length := by
    rw [Table.size, Table.values, List.length_map, List.length_map]
  -- both lists are ascending, so they are equal as soon as they have the same members
  have hlists : ascend (r.files.values.map (·.slot)) = occupiedFrom 0 r.slots ↔
      ∀ s, (∃ name, r.slotOf? name = some s) ↔ ∃ f, r.inSlot? s = some f := by
    constructor
    · intro heq s
      rw [← mem_slots_iff, ← mem_occupied_iff, ← heq, mem_ascend]
    · intro hmem
      refine eq_of_ascending (ascend_ascending _) (occupiedFrom_ascending _ _) fun s => ?_
      rw [mem_ascend, mem_slots_iff, mem_occupied_iff, hmem]
  rw [isConsistent, Bool.and_eq_true, beq_iff_eq, beq_iff_eq, hlen, length_ascend_iff,
    nodup_slots_iff, hlists]
  constructor
  · rintro ⟨hapart, hmem⟩
    exact ⟨fun hs => (hmem _).1 ⟨_, hs⟩, fun ha hb => hapart _ _ _ ha hb,
      fun hf => (hmem _).2 ⟨_, hf⟩⟩
  · intro h
    refine ⟨fun a b s ha hb => h.apart ha hb, fun s => ⟨?_, ?_⟩⟩
    · rintro ⟨name, hs⟩
      exact h.filled hs
    · rintro ⟨f, hf⟩
      exact h.used hf

namespace Consistent

theorem file?_of_get? (h : r.Consistent) {e : FileEntry} (he : r.files.get? name = some e) :
    ∃ f, r.file? name = some f := by
  obtain ⟨f, hf⟩ := h.filled (slotOf?_of_get? he)
  exact ⟨f, by rw [file?_of_slotOf? (slotOf?_of_get? he), hf]⟩

theorem get?_of_file? (hf : r.file? name = some f) : ∃ e, r.files.get? name = some e := by
  obtain ⟨s, hs, -⟩ := file?_eq_some.1 hf
  obtain ⟨e, he, -⟩ := slotOf?_eq_some.1 hs
  exact ⟨e, he⟩

theorem mem_names_iff (h : r.Consistent) : name ∈ r.names ↔ ∃ f, r.file? name = some f := by
  rw [mem_names]
  exact ⟨fun ⟨_, he⟩ => h.file?_of_get? he, fun ⟨_, hf⟩ => get?_of_file? hf⟩

theorem empty : ({} : Report).Consistent where
  filled := by
    intro name s h
    cases h
  apart := by
    intro a b s h
    cases h
  used := by
    intro s f h
    cases h

/-- Consistency looks at slot numbers and at which slots are occupied, not at what is in them. -/
theorem congr {r' : Report} (h : r.Consistent) (hslot : ∀ q, r'.slotOf? q = r.slotOf? q)
    (hin : ∀ s, (r'.inSlot? s).isSome = (r.inSlot? s).isSome) : r'.Consistent where
  filled := by
    intro name s hs
    rw [hslot] at hs
    have hsome : (r.inSlot? s).isSome = true := Option.isSome_iff_exists.2 (h.filled hs)
    rw [← hin] at hsome
    exact Option.isSome_iff_exists.1 hsome
  apart := by
    intro a b s ha hb
    rw [hslot] at ha hb
    exact h.apart ha hb
  used := by
    intro s f hf
    have hsome : (r'.inSlot? s).isSome = true := Option.isSome_iff_exists.2 ⟨f, hf⟩
    rw [hin] at hsome
    obtain ⟨own, hown⟩ := Option.isSome_iff_exists.1 hsome
    obtain ⟨name, hname⟩ := h.used hown
    exact ⟨name, by rw [hslot, hname]⟩

/-- A file that was put under a name is found there, and other names do not see it. -/
theorem file?_putFile (h : r.Consistent) (hf : r.file? name = some f) (g : SourceFile)
    (q : String) : (r.putFile name g).file? q = if q = name then some g else r.file? q := by
  obtain ⟨slot, hslot, -⟩ := file?_eq_some.1 hf
  rw [file?, slotOf?_putFile]
  by_cases hq : q = name
  · rw [if_pos hq, hq, hslot, Option.bind_some, inSlot?_putFile hf, if_pos hslot]
  · rw [if_neg hq, file?]
    cases hs : r.slotOf? q with
    | none => rfl
    | some s =>
      have hother : ¬ r.slotOf? name = some s := fun hsame => hq (h.apart hs hsame)
      rw [Option.bind_some, Option.bind_some, inSlot?_putFile hf, if_neg hother]

theorem file?_refresh (h : r.Consistent) (hf : r.file? name = some f) (q : String) :
    (r.refresh name).file? q = if q = name then some f.opened else r.file? q := by
  have hput := h.file?_putFile hf f.opened q
  rw [← hput]
  refine file?_congr ?_ fun s => ?_
  · rw [slotOf?_refresh, slotOf?_putFile]
  · rw [inSlot?_refresh hf, inSlot?_putFile hf]

theorem putFile (h : r.Consistent) (hf : r.file? name = some f) (g : SourceFile) :
    (r.putFile name g).Consistent := by
  refine h.congr (fun _ => slotOf?_putFile _) fun s => ?_
  rw [inSlot?_putFile hf]
  split
  · rename_i hs
    rw [← file?_of_slotOf? hs, hf]
    rfl
  · rfl

theorem refresh (h : r.Consistent) (name : String) : (r.refresh name).Consistent := by
  cases hf : r.file? name with
  | none =>
    rw [refresh_of_none hf]
    exact h
  | some f =>
    refine h.congr (fun _ => slotOf?_refresh _) fun s => ?_
    rw [inSlot?_refresh hf]
    split
    · rename_i hs
      rw [← file?_of_slotOf? hs, hf]
      rfl
    · rfl

theorem changed (h : r.Consistent) : r.changed.Consistent :=
  h.congr (fun _ => rfl) fun _ => rfl

theorem remove (h : r.Consistent) (name : String) : (r.remove name).2.Consistent where
  filled := by
    intro q s hs
    rw [slotOf?_remove] at hs
    rw [inSlot?_remove]
    split at hs
    · cases hs
    · rename_i hq
      -- the slot that was emptied belongs to the name that went
      rw [if_neg fun hname => hq (h.apart hs hname)]
      exact h.filled hs
  apart := by
    intro a b s ha hb
    rw [slotOf?_remove] at ha hb
    split at ha
    · cases ha
    · split at hb
      · cases hb
      · exact h.apart ha hb
  used := by
    intro s f hf
    rw [inSlot?_remove] at hf
    split at hf
    · cases hf
    · rename_i hs
      obtain ⟨q, hq⟩ := h.used hf
      have hne : q ≠ name := by
        rintro rfl
        exact hs hq
      exact ⟨q, by rw [slotOf?_remove, if_neg hne, hq]⟩

theorem foldl_remove (h : r.Consistent) (names : List String) :
    (names.foldl (fun r name => (r.remove name).2) r).Consistent := by
  induction names generalizing r with
  | nil => exact h
  | cons name rest ih => exact ih (h.remove name)

/-- Taking files out of a consistent report leaves the other names their files. -/
theorem file?_foldl_remove (h : r.Consistent) (names : List String) (q : String) :
    (names.foldl (fun r name => (r.remove name).2) r).file? q =
      if q ∈ names then none else r.file? q := by
  rw [file?, slotOf?_foldl_remove]
  by_cases hq : q ∈ names
  · rw [if_pos hq, if_pos hq]
    rfl
  · rw [if_neg hq, if_neg hq]
    cases hs : r.slotOf? q with
    | none =>
      rw [file?, hs]
      rfl
    | some s =>
      have hothers : ¬ ∃ name ∈ names, r.slotOf? name = some s := by
        rintro ⟨name, hname, hslot⟩
        exact hq (h.apart hs hslot ▸ hname)
      rw [Option.bind_some, inSlot?_foldl_remove, if_neg hothers, file?_of_slotOf? hs]

end Consistent

/-! ## 3. Deleting sessions, name by name -/

theorem get?_deleteSessionsIn_of_ne {q : String} (hq : q ≠ name) :
    (deleteSessionsIn ids r name).1.files.get? q = r.files.get? q := by
  cases h : r.file? name with
  | none =>
    rcases deleteSessionsIn_of_none h with he | he
    · rw [he]
    · rw [he, files_changed]
  | some f =>
    rw [deleteSessionsIn_of_file? h]
    split
    · split
      · rw [files_putFile, files_changed]
      · rw [get?_refresh (file?_putFile_changed h _), if_neg hq, files_putFile, files_changed]
    · rw [files_putFile, files_changed]

/-- The entry of a file that keeps some line: its totals are counted again when it lost a session. -/
def entryWithout (ids : List Nat) (f : SourceFile) (e : FileEntry) : FileEntry :=
  if f.hasAnySession ids then
    { e with
      totals := (f.withoutSessions ids).totals
      sessionTotals := (f.withoutSessions ids).sessionTotals }
  else e

theorem get?_deleteSessionsIn_self (h : r.file? name = some f) (hstays : ¬ Emptied ids f) :
    (deleteSessionsIn ids r name).1.files.get? name =
      (r.files.get? name).map (entryWithout ids f) := by
  rw [deleteSessionsIn_of_file? h]
  by_cases hany : f.hasAnySession ids = true
  · have hlines : ¬ (f.withoutSessions ids).isEmpty = true := fun hempty => hstays ⟨hany, hempty⟩
    have hcounted : entryWithout ids f = fun e => { e with
        totals := (f.withoutSessions ids).totals
        sessionTotals := (f.withoutSessions ids).sessionTotals } := by
      funext e
      rw [entryWithout, if_pos hany]
    rw [if_pos hany, if_neg hlines, get?_refresh (file?_putFile_changed h _), if_pos rfl,
      files_putFile, files_changed, hcounted]
  · have hsame : entryWithout ids f = id := by
      funext e
      rw [entryWithout, if_neg hany]
      rfl
    rw [if_neg hany, files_putFile, files_changed, hsame, Option.map_id_fun, id]

/-- Passing over a file a second time finds its totals right. -/
theorem get?_deleteSessionsFrom (h : r.Consistent) (names : List String) {q : String}
    (hf : r.file? q = some f) (hstays : ¬ Emptied ids f) :
    (deleteSessionsFrom ids r names).1.files.get? q =
      if q ∈ names then (r.files.get? q).map (entryWithout ids f) else r.files.get? q := by
  induction names generalizing r f with
  | nil => rfl
  | cons name rest ih =>
    have step : (deleteSessionsFrom ids r (name :: rest)).1 =
        (deleteSessionsFrom ids (deleteSessionsIn ids r name).1 rest).1 := rfl
    have hnext : (deleteSessionsIn ids r name).1.Consistent :=
      h.congr (fun p => slotOf?_deleteSessionsIn p) fun s => by
        rw [inSlot?_deleteSessionsIn]
        split
        · rw [Option.isSome_map]
        · rfl
    obtain ⟨s, hs, hin⟩ := file?_eq_some.1 hf
    rw [step]
    by_cases hq : q = name
    · subst hq
      have hafter : (deleteSessionsIn ids r q).1.file? q = some (f.withoutSessions ids) := by
        rw [file?, slotOf?_deleteSessionsIn, hs, Option.bind_some, inSlot?_deleteSessionsIn,
          if_pos hs, hin, Option.map_some]
      have hnone : (f.withoutSessions ids).hasAnySession ids = false :=
        SourceFile.hasAnySession_withoutSessions
      -- a second visit finds no session of `ids` and leaves the entry alone
      have hagain : entryWithout ids (f.withoutSessions ids) = id := by
        funext e
        rw [entryWithout, hnone]
        rfl
      have hnot : ¬ Emptied ids (f.withoutSessions ids) := fun hempty => by
        rw [hempty.1] at hnone
        cases hnone
      rw [ih hnext hafter hnot, hagain, Option.map_id_fun, id, ite_self,
        get?_deleteSessionsIn_self hf hstays, if_pos List.mem_cons_self]
    · have hafter : (deleteSessionsIn ids r name).1.file? q = some f := by
        rw [file?, slotOf?_deleteSessionsIn, hs, Option.bind_some, inSlot?_deleteSessionsIn,
          if_neg fun hname => hq (h.apart hs hname), hin]
      have hmem : q ∈ name :: rest ↔ q ∈ rest := by
        rw [List.mem_cons]
        exact or_iff_right hq
      rw [ih hnext hafter hstays, get?_deleteSessionsIn_of_ne hq]
      simp only [hmem]

theorem mem_emptiedNames_iff (h : r.Consistent) {q : String} :
    q ∈ emptiedNames ids r ↔ ∃ f, r.file? q = some f ∧ Emptied ids f := by
  constructor
  · exact emptied_of_mem r.names
  · rintro ⟨f, hf, hempty⟩
    obtain ⟨s, hs, hin⟩ := file?_eq_some.1 hf
    have hname : q ∈ r.names := h.mem_names_iff.2 ⟨f, hf⟩
    obtain ⟨p, hp, hps⟩ := exists_mem_of_emptied r.names hin hempty ⟨q, hname, hs⟩
    exact h.apart hps hs ▸ hp

theorem Consistent.swept (h : r.Consistent) (ids : List Nat) : (swept ids r).Consistent := by
  refine h.congr (fun q => slotOf?_deleteSessionsFrom r.names q) fun s => ?_
  rw [Report.swept, inSlot?_deleteSessionsFrom]
  split
  · rw [Option.isSome_map]
  · rfl

theorem Consistent.deleteSessions (h : r.Consistent) (ids : List Nat) :
    (r.deleteSessions ids).Consistent := by
  by_cases hids : ids = []
  · rw [hids]
    exact h
  · have hleft := (h.swept ids).foldl_remove (emptiedNames ids r)
    rw [deleteSessions_of_ne_nil hids]
    refine hleft.congr (fun q => ?_) fun s => rfl
    rw [slotOf?]
    simp only [Table.get?_map, Option.map_map, Function.comp_def]
    rfl

/-- **What a deletion leaves in the manifest** of a consistent report under a name. -/
theorem get?_deleteSessions (h : r.Consistent) (hids : ids ≠ []) (hf : r.file? name = some f) :
    (r.deleteSessions ids).files.get? name =
      if Emptied ids f then none
      else (r.files.get? name).map fun e =>
        { entryWithout ids f e with
          sessionTotals := ids.foldl SessionTotals.erase (entryWithout ids f e).sessionTotals } := by
  have hgone : name ∈ emptiedNames ids r ↔ Emptied ids f := by
    rw [mem_emptiedNames_iff h]
    constructor
    · rintro ⟨g, hg, hempty⟩
      rw [hf] at hg
      exact Option.some.inj hg ▸ hempty
    · exact fun hempty => ⟨f, hf, hempty⟩
  have hname : name ∈ r.names := h.mem_names_iff.2 ⟨f, hf⟩
  rw [deleteSessions_of_ne_nil hids]
  simp only [Table.get?_map, get?_foldl_remove, hgone]
  by_cases hempty : Emptied ids f
  · rw [if_pos hempty, if_pos hempty]
    rfl
  · rw [if_neg hempty, if_neg hempty, Report.swept, get?_deleteSessionsFrom h r.names hf hempty,
      if_pos hname, Option.map_map]
    rfl

/-! ## 4. Totals in the manifest -/

/-- The manifest has the totals of the lines. -/
def Counted (r : Report) : Prop :=
  ∀ name e f, r.files.get? name = some e → r.file? name = some f → e.totals = f.totals

/-- Whether the lines were read or not, the totals of a file are those of its lines. -/
theorem Counted.fileTotals? (hc : r.Counted) (h : r.Consistent) (name : String) :
    r.fileTotals? name = (r.file? name).map SourceFile.totals := by
  cases he : r.files.get? name with
  | none =>
    have hf : r.file? name = none := by rw [file?, slotOf?, he]; rfl
    rw [Report.fileTotals?, he, hf]
    rfl
  | some e =>
    obtain ⟨f, hf⟩ := h.file?_of_get? he
    have hin : r.inSlot? e.slot = some f := by rw [← file?_of_slotOf? (slotOf?_of_get? he), hf]
    rw [Report.fileTotals?, he, hf, Option.map_some, Option.map_some, hin]
    by_cases hp : f.isParsed = true
    · simp only [hp, if_true]
    · simp only [hp, hc name e f he hf, Bool.false_eq_true, if_false]

theorem Counted.foldl_remove (hc : r.Counted) (h : r.Consistent) (names : List String) :
    (names.foldl (fun r name => (r.remove name).2) r).Counted := by
  intro name e f he hf
  rw [get?_foldl_remove] at he
  rw [h.file?_foldl_remove] at hf
  split at he
  · cases he
  · rename_i hname
    rw [if_neg hname] at hf
    exact hc name e f he hf

theorem Counted.deleteSessions (hc : r.Counted) (h : r.Consistent) (ids : List Nat) :
    (r.deleteSessions ids).Counted := by
  by_cases hids : ids = []
  · rw [hids]
    exact hc
  · intro name e g he hg
    rw [file?_deleteSessions hids, Option.bind_eq_some_iff] at hg
    obtain ⟨f, hf, hkept⟩ := hg
    split at hkept
    · cases hkept
    · rename_i hstays
      obtain rfl := Option.some.inj hkept
      rw [get?_deleteSessions h hids hf, if_neg hstays, Option.map_eq_some_iff] at he
      obtain ⟨own, hown, rfl⟩ := he
      show (entryWithout ids f own).totals = (f.withoutSessions ids).totals
      -- an entry is rewritten exactly when the lines of its file are
      by_cases hany : f.hasAnySession ids = true
      · rw [entryWithout, if_pos hany]
      · have hlines : (f.withoutSessions ids).lines = f.lines := by
          rw [SourceFile.withoutSessions_of_not_has (Bool.eq_false_iff.2 hany),
            SourceFile.lines_afterSessionIds]
        rw [entryWithout, if_neg hany, hc name own f hown hf, SourceFile.totals, SourceFile.totals,
          hlines]

end Report

end CoverageLedger
