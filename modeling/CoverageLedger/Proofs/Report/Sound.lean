import CoverageLedger.Proofs.Report.Append
import CoverageLedger.Proofs.Report.Manifest
import CoverageLedger.Proofs.SourceFile.Sound
import CoverageLedger.Report.Edit

/-!
# Reports in order

A report is `Sound` when its manifest and its slots fit together and, under every name, entry and
file do: the file has the name and read lines, and the entry has the totals of these lines.  Every
operation that changes a report keeps it sound.  Most of them change the file of one name and count
its lines again, so that one lemma serves them (`Sound.rewrite`).
-/

namespace CoverageLedger

/-! ## 1. Totals by session -/

namespace SessionTotals

variable {s : SessionTotals}

theorem Bounded.empty : Bounded {} where
  length := by decide
  above := by
    intro id t h
    cases h

theorem Bounded.insert (h : s.Bounded) (id : Nat) (t : Totals) : (s.insert id t).Bounded where
  length := by
    have hlength := h.length
    have hpos : 0 < Text.word32 := by decide
    show max s.realLength (min (id + 1) (Text.word32 - 1)) < Text.word32
    omega
  above := forall_get?_insert (fun k u hk => Nat.le_trans (h.above k u hk) (Nat.le_max_left _ _))
    (Nat.le_max_right _ _)

theorem Bounded.erase (h : s.Bounded) (id : Nat) : (s.erase id).Bounded where
  length := h.length
  above := forall_get?_erase h.above id

theorem Bounded.foldl_erase (h : s.Bounded) (ids : List Nat) :
    (ids.foldl SessionTotals.erase s).Bounded := by
  induction ids generalizing s with
  | nil => exact h
  | cons id rest ih => exact ih (h.erase id)

theorem Bounded.changeId (h : s.Bounded) (old new : Nat) : (s.changeId old new).Bounded := by
  rw [SessionTotals.changeId]
  split
  · exact (h.erase old).insert new _
  · exact h

theorem Bounded.foldl_insert (h : s.Bounded) (entries : List (Nat × List Line)) :
    (entries.foldl (fun t (id, lines) => t.insert id (.ofLines lines)) s).Bounded := by
  induction entries generalizing s with
  | nil => exact h
  | cons e rest ih => exact ih (h.insert e.1 (.ofLines e.2))

end SessionTotals

theorem SourceFile.bounded_sessionTotals (f : SourceFile) : f.sessionTotals.Bounded :=
  SessionTotals.Bounded.empty.foldl_insert _

/-! ## 2. What holds under a name -/

/-- An entry and a file that belong together under a name. -/
structure Settled (name : String) (e : FileEntry) (f : SourceFile) : Prop where
  name : f.name = name
  parsed : f.isParsed = true
  sound : f.Sound
  totals : e.totals = f.totals
  bounded : e.sessionTotals.Bounded

namespace Report

/-- Manifest and slots fit together, and so do entry and file of every name. -/
structure Sound (r : Report) : Prop where
  consistent : r.Consistent
  settled : ∀ name e f, r.files.get? name = some e → r.file? name = some f → Settled name e f

variable {r : Report} {name : String} {f g : SourceFile} {joined : Bool}

theorem Sound.settled_file (h : r.Sound) (hf : r.file? name = some f) :
    ∃ e, Settled name e f := by
  obtain ⟨e, he⟩ := Consistent.get?_of_file? hf
  exact ⟨e, h.settled name e f he hf⟩

theorem Sound.counted (h : r.Sound) : r.Counted := fun name e f he hf =>
  (h.settled name e f he hf).totals

theorem Sound.empty : ({} : Report).Sound where
  consistent := .empty
  settled := by
    intro name e f he
    cases he

/-- Sessions, labels and known totals are no matter of soundness. -/
theorem Sound.of_eq {r' : Report} (h : r.Sound) (hfiles : r'.files = r.files)
    (hslots : r'.slots = r.slots) : r'.Sound := by
  obtain ⟨files, slots, sessions, labels, knownTotals⟩ := r
  obtain ⟨files', slots', sessions', labels', knownTotals'⟩ := r'
  obtain rfl : files' = files := hfiles
  obtain rfl : slots' = slots := hslots
  exact ⟨⟨h.consistent.filled, h.consistent.apart, h.consistent.used⟩, h.settled⟩

theorem Sound.changed (h : r.Sound) : r.changed.Sound := h.of_eq rfl rfl

/-! ## 3. One file written anew -/

/-- A sound file that is put in the place of another, its lines being counted. -/
theorem Sound.rewrite (h : r.Sound) (hf : r.file? name = some f) (hname : g.name = name)
    (hg : g.Sound) : ((r.putFile name g).refresh name).Sound := by
  have hput := h.consistent.file?_putFile hf g
  have hnext := h.consistent.putFile hf g
  have hown : (r.putFile name g).file? name = some g := (hput name).trans (if_pos rfl)
  refine ⟨hnext.refresh name, fun q e own he hown' => ?_⟩
  rw [get?_refresh hown, files_putFile] at he
  rw [hnext.file?_refresh hown, hput] at hown'
  by_cases hq : q = name
  · rw [if_pos hq, Option.map_eq_some_iff] at he
    rw [if_pos hq] at hown'
    obtain ⟨before, -, rfl⟩ := he
    obtain rfl := Option.some.inj hown'
    exact ⟨hname.trans hq.symm, rfl, hg.opened, rfl, g.bounded_sessionTotals⟩
  · rw [if_neg hq] at he
    rw [if_neg hq, if_neg hq] at hown'
    exact h.settled q e own he hown'

/-- Putting a file where it stands changes nothing. -/
theorem putFile_self (hf : r.file? name = some f) : r.putFile name f = r := by
  obtain ⟨slot, hslot, hin⟩ := file?_eq_some.1 hf
  have hset : r.slots.set slot (some f) = r.slots := by
    apply List.ext_getElem?
    intro i
    rw [List.getElem?_set]
    split
    · rename_i heq
      subst heq
      rw [if_pos (lt_length_of_inSlot? hin), inSlot?_eq_some.1 hin]
    · rfl
  rw [putFile_of_slotOf? hslot, setSlot, hset]

/-- A file whose lines were read is not changed by reading. -/
theorem opened_of_isParsed (h : f.isParsed = true) : f.opened = f := by
  obtain ⟨name, content, declared, ignore⟩ := f
  cases content with
  | text chunk => cases h
  | lines table => rfl

theorem afterSessionIds_of_isParsed (h : f.isParsed = true) : f.afterSessionIds = f := by
  obtain ⟨name, content, declared, ignore⟩ := f
  cases content with
  | text chunk => cases h
  | lines table => cases declared <;> rfl

/-! ## 4. Taking files out, and adding them -/

theorem file?_remove (h : r.Consistent) (name q : String) :
    (r.remove name).2.file? q = if q = name then none else r.file? q := by
  have hone := h.file?_foldl_remove [name] q
  simp only [List.mem_singleton] at hone
  exact hone

theorem Sound.remove (h : r.Sound) (name : String) : (r.remove name).2.Sound := by
  refine ⟨h.consistent.remove name, fun q e f he hf => ?_⟩
  rw [get?_remove] at he
  rw [file?_remove h.consistent] at hf
  split at he
  · cases he
  · rename_i hq
    rw [if_neg hq] at hf
    exact h.settled q e f he hf

theorem name_mergeLines (other : Table Nat Line) : (f.mergeLines other joined).name = f.name := by
  rw [SourceFile.mergeLines]
  generalize other.entries = entries
  induction entries generalizing f with
  | nil => rfl
  | cons e rest ih =>
    rw [List.foldl_cons, ih]
    show (if f.ignores e.1 then f else f.appendLine e.1 e.2 joined).name = f.name
    split <;> rfl

theorem Sound.placed (h : r.Sound) (hf : f.Sound) (joined : Bool) :
    (r.placed f joined).Sound ∧ (r.placed f joined).name = f.name := by
  rw [Report.placed]
  cases hown : r.file? f.name with
  | none => exact ⟨hf.opened, rfl⟩
  | some own =>
    obtain ⟨e, hsettled⟩ := h.settled_file hown
    refine ⟨(hsettled.sound.mergeLines hf.numbers joined).opened, ?_⟩
    rw [SourceFile.name_opened, name_mergeLines, hsettled.name]

theorem isParsed_placed (r : Report) (f : SourceFile) (joined : Bool) :
    (r.placed f joined).isParsed = true := by
  rw [placed]
  split <;> rfl

theorem Sound.append (h : r.Sound) (hf : f.Sound) (joined : Bool) :
    (r.append f joined).2.Sound := by
  by_cases hempty : f.isEmpty = true
  · rw [append_of_isEmpty hempty]
    exact h
  · have hne : f.isEmpty = false := Bool.eq_false_iff.2 hempty
    refine ⟨h.consistent.append f joined, fun q e g he hg => ?_⟩
    obtain ⟨diffTotals, hget⟩ := get?_append h.consistent hne joined q
    rw [hget] at he
    rw [file?_append h.consistent hne] at hg
    by_cases hq : q = f.name
    · rw [if_pos hq] at he hg
      obtain rfl := Option.some.inj he
      obtain rfl := Option.some.inj hg
      obtain ⟨hsound, hname⟩ := h.placed hf joined
      exact ⟨hname.trans hq.symm, isParsed_placed r f joined, hsound, rfl,
        SourceFile.bounded_sessionTotals _⟩
    · rw [if_neg hq] at he hg
      exact h.settled q e g he hg

theorem Sound.merge {other : Report} (h : r.Sound) (hother : ∀ f ∈ other.sourceFiles, f.Sound)
    (joined : Bool) : (r.merge other joined).Sound := by
  rw [Report.merge]
  generalize other.sourceFiles = files at hother
  induction files generalizing r with
  | nil => exact h
  | cons f rest ih =>
    exact ih (h.append (hother f List.mem_cons_self) joined) fun g hg =>
      hother g (List.mem_cons_of_mem f hg)

end Report

end CoverageLedger
