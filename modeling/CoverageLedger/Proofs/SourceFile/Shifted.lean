import CoverageLedger.Proofs.Diff.Lands
import CoverageLedger.SourceFile
import Mathlib.Data.List.Forall2

/-!
# Files that follow a diff

A file that follows a diff whose hunks fit together keeps the lines that the diff does not remove,
each where it lands, and following the diff back puts them where they were
(`shift_there_and_back`).  Hunks have to end at numbers of 32 bits: one that goes on past the last
line number is refused, even when the file has no line there (`past_last_line_refused`).
-/

namespace CoverageLedger.SourceFile

open Hunk (Aligned Consistent InRange lost removedLines)
open ShiftPlan (Carries)

/-! ## 1. Lists side by side -/

section forall₂

variable {α β : Type} {R : α → β → Prop} {l : List α} {l' : List β}

theorem exists_of_mem_forall₂ (h : List.Forall₂ R l l') {b : β} (hb : b ∈ l') :
    ∃ a ∈ l, R a b := by
  induction h with
  | nil => cases hb
  | @cons a _ _ _ hR _ ih =>
    rcases List.mem_cons.1 hb with rfl | hb
    · exact ⟨a, List.mem_cons_self, hR⟩
    · obtain ⟨a', ha', hR'⟩ := ih hb
      exact ⟨a', List.mem_cons_of_mem a ha', hR'⟩

/-- What a map makes of the elements that pass a test, when it drops all others. -/
theorem forall₂_filterMap {p : α → Bool} {g : α → Option β}
    (hdrop : ∀ a ∈ l, p a = false → g a = none)
    (hkeep : ∀ a ∈ l, p a = true → ∃ b, g a = some b ∧ R a b) :
    List.Forall₂ R (l.filter p) (l.filterMap g) := by
  induction l with
  | nil => exact .nil
  | cons a rest ih =>
    have hrest := ih (fun b hb => hdrop b (List.mem_cons_of_mem a hb))
      fun b hb => hkeep b (List.mem_cons_of_mem a hb)
    cases hp : p a with
    | false =>
      rw [List.filter_cons_of_neg (by simp [hp]),
        List.filterMap_cons_none (hdrop a List.mem_cons_self hp)]
      exact hrest
    | true =>
      obtain ⟨b, hb, hR⟩ := hkeep a List.mem_cons_self hp
      rw [List.filter_cons_of_pos hp, List.filterMap_cons_some hb]
      exact .cons hR hrest

/-- A map that takes every element back. -/
theorem filterMap_of_forall₂ {g : β → Option α} (h : List.Forall₂ R l l')
    (hg : ∀ a b, R a b → g b = some a) : l'.filterMap g = l := by
  induction h with
  | nil => rfl
  | cons hR _ ih => rw [List.filterMap_cons_some (hg _ _ hR), ih]

/-- Order carries over from one list to the other. -/
theorem pairwise_of_forall₂ {S : α → α → Prop} {T : β → β → Prop} (h : List.Forall₂ R l l')
    (hl : l.Pairwise S) (hS : ∀ a a' b b', R a b → R a' b' → S a a' → T b b') :
    l'.Pairwise T := by
  induction h with
  | nil => exact .nil
  | @cons a b _ _ hR hrest ih =>
    obtain ⟨hhead, htail⟩ := List.pairwise_cons.1 hl
    refine List.pairwise_cons.2 ⟨fun b' hb' => ?_, ih htail⟩
    obtain ⟨a', ha', hR'⟩ := exists_of_mem_forall₂ hrest hb'
    exact hS a a' b b' hR hR' (hhead a' ha')

end forall₂

/-! ## 2. Lines where they land -/

/-- A file without the lines of some numbers. -/
def withoutLines (numbers : List Nat) (f : SourceFile) : SourceFile :=
  f.edit fun table => table.filter fun n _ => !numbers.contains n

/-- A line of a file and the same line where it lands. -/
structure Moved (gone new : List Nat) (e e' : Nat × Line) : Prop where
  lands : Lands 1 1 gone new e.1 e'.1
  line : e.2 = e'.2
  source : 0 < e.1 ∧ e.1 < Text.word32
  target : 0 < e'.1

section moved

variable {gone new : List Nat} {plan : ShiftPlan} {table shifted : Table Nat Line}

/-- A plan moves the lines of a table that stay, and keeps their order. -/
theorem entries_shiftLines (hgone : gone.Nodup) (hnew : new.Nodup)
    (hplan : Carries 1 1 gone new plan.map?)
    (hnumbers : ∀ n ∈ table.keys, 0 < n ∧ n < Text.word32)
    (hlanding : ∀ n ∈ table.keys, ∀ m, Lands 1 1 gone new n m → m < Text.word32) :
    List.Forall₂ (Moved gone new) (table.filter fun n _ => !gone.contains n).entries
      (shiftLines plan table).entries := by
  have hkey (e : Nat × Line) (he : e ∈ table.entries) : e.1 ∈ table.keys :=
    List.mem_map_of_mem he
  have hmoved : List.Forall₂ (Moved gone new)
      (table.entries.filter fun e => !gone.contains e.1)
      (table.entries.filterMap fun e => (plan.map? e.1).map fun m => (m, e.2)) := by
    refine forall₂_filterMap (fun e he hout => ?_) fun e he hin => ?_
    · rw [hplan.drops e.1 (hnumbers e.1 (hkey e he)).1 (by simpa using hout), Option.map_none]
    · obtain ⟨m, hpos, hlands, hto⟩ :=
        hplan.keeps e.1 (hnumbers e.1 (hkey e he)).1 (by simpa using hin)
      refine ⟨(m, e.2), ?_, hlands, rfl, hnumbers e.1 (hkey e he), hpos⟩
      rw [hto (hlanding e.1 (hkey e he) m hlands), Option.map_some]
  have hascending := pairwise_of_forall₂ (T := fun a b => Precedes a.1 b.1) hmoved
    (table.ascending.filter _) fun e k e' k' he hk hlt =>
      Nat.compare_eq_lt.2 (Lands.lt hgone hnew he.lands hk.lands (Nat.compare_eq_lt.1 hlt))
  have hentries : (shiftLines plan table).entries =
      table.entries.filterMap fun e => (plan.map? e.1).map fun m => (m, e.2) :=
    Table.entries_ofList hascending
  rw [hentries]
  exact hmoved

/-- The plan of the other direction takes the lines back. -/
theorem shiftLines_back (hgone : gone.Nodup) (hnew : new.Nodup)
    (hplan : Carries 1 1 new gone plan.map?)
    (hmoved : List.Forall₂ (Moved gone new) table.entries shifted.entries) :
    shiftLines plan shifted = table := by
  have hback : (shifted.entries.filterMap fun e => (plan.map? e.1).map fun m => (m, e.2)) =
      table.entries := by
    refine filterMap_of_forall₂ hmoved fun e e' he => ?_
    rw [hplan.eq_some hnew hgone he.target he.lands.flip he.source.2, Option.map_some, ← he.line]
  show Table.ofList (shifted.entries.filterMap _) = table
  rw [hback, Table.ofList_entries]

end moved

/-! ## 3. There and back -/

variable {f : SourceFile} {hunks : List Hunk}

/-- **Following a diff keeps what the diff does not remove, and following it back restores that.**
The lines that stay are unaltered and in order, each where it lands; none of them counts among the
added lines. -/
theorem shift_there_and_back (hfit : Consistent 1 0 hunks) (hrange : ∀ h ∈ hunks, h.InRange)
    (hnumbers : ∀ n ∈ f.lines.keys, 0 < n ∧ n < Text.word32)
    (hlanding : ∀ n ∈ f.lines.keys, ∀ m,
      Lands 1 1 (removedLines hunks) (hunks.flatMap Hunk.addedLines) n m → m < Text.word32) :
    ∃ shifted, f.shift hunks .forward = (true, shifted) ∧
      shifted.lines.values = (f.withoutLines (removedLines hunks)).lines.values ∧
      List.Forall₂ (Lands 1 1 (removedLines hunks) (hunks.flatMap Hunk.addedLines))
        (f.withoutLines (removedLines hunks)).lines.keys shifted.lines.keys ∧
      shifted.lines.keys.Nodup ∧
      (∀ n ∈ hunks.flatMap Hunk.addedLines, shifted.line? n = none) ∧
      (shifted.addedTotals hunks).lines = 0 ∧
      shifted.shift hunks .backward = (true, f.withoutLines (removedLines hunks)) := by
  have hforward : Aligned .forward 1 1 hunks := hfit.aligned hrange rfl
  have hbackward : Aligned .backward 1 1 hunks := hforward.flip
  have hadded := hforward.addedLines_eq Nat.one_pos
  have hgone : (removedLines hunks).Nodup := hforward.nodup_lost
  have hnew : (hunks.flatMap Hunk.addedLines).Nodup := hadded ▸ hbackward.nodup_lost
  obtain ⟨plan, hplan, hto⟩ := ShiftPlan.exists_plan hforward
  obtain ⟨back, hback, hfrom⟩ := ShiftPlan.exists_plan hbackward
  rw [show Direction.forward.flip = .backward from rfl, ← hadded] at hto
  rw [show Direction.backward.flip = .forward from rfl, ← hadded] at hfrom
  have hmoved := entries_shiftLines hgone hnew hto hnumbers hlanding
  -- no line lands on a number that the diff adds
  have hfree (n : Nat) (hn : n ∈ hunks.flatMap Hunk.addedLines) :
      (shiftLines plan f.lines).get? n = none := by
    refine (Table.get?_eq_none_iff _).2 fun hkey => ?_
    obtain ⟨e', he', rfl⟩ := List.mem_map.1 hkey
    obtain ⟨e, -, he⟩ := exists_of_mem_forall₂ hmoved he'
    exact he.lands.free hn
  have hnone : (hunks.flatMap Hunk.addedLines).filterMap (f.edit (shiftLines plan)).line? = [] :=
    List.filterMap_eq_nil_iff.2 hfree
  refine ⟨f.edit (shiftLines plan), ?_, ?_, ?_, ?_, hfree, ?_, ?_⟩
  · rw [shift, hplan]
  · have hlines := List.forall₂_map_left_iff.2 (List.forall₂_map_right_iff.2
      (hmoved.imp fun e e' he => he.line))
    rw [List.forall₂_eq_eq_eq] at hlines
    exact hlines.symm
  · exact List.forall₂_map_left_iff.2 (List.forall₂_map_right_iff.2
      (hmoved.imp fun e e' he => he.lands))
  · exact (Table.keys_ascending _).imp Precedes.ne
  · rw [addedTotals, hnone]
    rfl
  · rw [shift, hback]
    have htable := shiftLines_back hgone hnew hfrom hmoved
    show (true, f.edit fun _ => shiftLines back (shiftLines plan f.lines)) = _
    rw [htable]
    rfl

/-- A line is changed and another one taken away, and further down two lines come in.  The file has
the line before, the changed one, the one that goes, and lines before and after the new ones. -/
theorem shift_there_and_back_edited :
    let line (n : Nat) : Line := { reading := .ratio n 9 }
    let change : Hunk := ⟨[some 1, some 4, some 1, some 3], [" a", "-b", "+B", "-c", " d"]⟩
    let insertion : Hunk := ⟨[some 5, some 0, some 5, some 2], ["+x", "+y"]⟩
    let hunks := [change, insertion]
    let f : SourceFile :=
      { name := "a"
        content := .lines <| .ofList
          [(1, line 1), (2, line 2), (3, line 0), (5, line 5), (6, line 6)] }
    (Consistent 1 0 hunks ∧ (∀ h ∈ hunks, h.InRange) ∧
      (∀ n ∈ f.lines.keys, 0 < n ∧ n < Text.word32) ∧
      ∀ n ∈ f.lines.keys, ∀ m, Lands 1 1 (removedLines hunks) (hunks.flatMap Hunk.addedLines) n m →
        m < Text.word32) ∧
      ∃ shifted, f.shift hunks .forward = (true, shifted) ∧
        shifted.lines.keys = [1, 4, 7] ∧ shifted.lines.values = [line 1, line 5, line 6] ∧
        shifted.shift hunks .backward = (true, f.withoutLines [2, 3]) := by
  intro line change insertion hunks f
  have hfit : Consistent 1 0 hunks :=
    .cons rfl rfl rfl (by decide) rfl (.cons rfl rfl rfl (by decide) rfl (.nil _ _))
  have hrange : ∀ h ∈ hunks, h.InRange := by
    intro h hh s hs
    rcases List.mem_pair.1 hh with rfl | rfl <;> obtain rfl := Except.ok.inj hs <;> decide
  have hnumbers : ∀ n ∈ f.lines.keys, 0 < n ∧ n < Text.word32 := by decide
  have hadded : (hunks.flatMap Hunk.addedLines).length = 3 := by decide
  have hlanding : ∀ n ∈ f.lines.keys, ∀ m,
      Lands 1 1 (removedLines hunks) (hunks.flatMap Hunk.addedLines) n m → m < Text.word32 := by
    intro n hn m hlands
    have hsmall : ∀ n ∈ f.lines.keys, n ≤ 6 := by decide
    have hle := hlands.le_add_length
    have hn := hsmall n hn
    rw [hadded] at hle
    rw [Text.word32]
    omega
  obtain ⟨shifted, hforward, hvalues, -, -, -, -, hbackward⟩ :=
    shift_there_and_back hfit hrange hnumbers hlanding
  have hkeys : (f.shift hunks .forward).2.lines.keys = [1, 4, 7] := by decide +kernel
  rw [hforward] at hkeys
  exact ⟨⟨hfit, hrange, hnumbers, hlanding⟩, shifted, hforward, hkeys, hvalues, hbackward⟩

/-! ## 4. The last line number -/

/-- A hunk that adds a line after the last one that 32 bits can number is refused, although the only
line of the file comes long before it and would stay. -/
theorem past_last_line_refused :
    let hunks : List Hunk :=
      [⟨[some 4294967295, some 1, some 4294967295, some 2], [" a", "+b"]⟩]
    let f : SourceFile :=
      { name := "a", content := .lines (.ofList [(2, { reading := .ratio 1 2 })]) }
    Consistent 1 0 hunks ∧ (∀ n ∈ f.lines.keys, 0 < n ∧ n < Text.word32) ∧
      (∀ n ∈ f.lines.keys, ∀ m,
        Lands 1 1 (removedLines hunks) (hunks.flatMap Hunk.addedLines) n m → m < Text.word32) ∧
      f.shift hunks .forward = (false, f) := by
  intro hunks f
  refine ⟨.cons rfl rfl rfl (by decide) rfl (.nil _ _), by decide, fun n hn m hlands => ?_, ?_⟩
  · have hadded : (hunks.flatMap Hunk.addedLines).length = 1 := by decide
    have hle := hlands.le_add_length
    have hn : n = 2 := List.mem_singleton.1 hn
    rw [hadded] at hle
    rw [Text.word32]
    omega
  · rfl

end CoverageLedger.SourceFile
