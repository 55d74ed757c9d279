import CoverageLedger.Line.Merge
import CoverageLedger.Proofs.Reading.Merge
import CoverageLedger.Table
import Mathlib.Data.List.Nodup

/-!
# The sessions of a line in any order

`LineSession.mergeMissing` stops at the first session after which no arm can be missing any more.
`mem_mergeMissing` says what it finds without that order: an arm is missing when every session that
reported arms misses it and no session without arms ran the whole line.  With it, and with readings
that can be joined in any order, the reading of a line does not depend on the order of its sessions.
-/

namespace CoverageLedger

/-! ## 1. Branch arms in order -/

namespace BranchArm

instance : Ord BranchArm := ⟨order⟩

theorem order_swap (a b : BranchArm) : order a b = (order b a).swap := by
  cases a with
  | index i =>
    cases b with
    | index j => exact Std.OrientedOrd.eq_swap (a := i) (b := j)
    | name t => rfl
  | name s =>
    cases b with
    | index j => rfl
    | name t => exact Std.OrientedOrd.eq_swap (a := s) (b := t)

theorem order_isLE_trans {a b c : BranchArm} (h₁ : (order a b).isLE) (h₂ : (order b c).isLE) :
    (order a c).isLE := by
  cases a with
  | index i =>
    cases b with
    | index j =>
      cases c with
      | index k => exact Std.TransOrd.isLE_trans (a := i) (b := j) (c := k) h₁ h₂
      | name u => rfl
    | name t =>
      cases c with
      | index k => cases h₂
      | name u => rfl
  | name s =>
    cases b with
    | index j => cases h₁
    | name t =>
      cases c with
      | index k => cases h₂
      | name u => exact Std.TransOrd.isLE_trans (a := s) (b := t) (c := u) h₁ h₂

theorem eq_of_order {a b : BranchArm} (h : order a b = .eq) : a = b := by
  cases a with
  | index i =>
    cases b with
    | index j => exact congrArg index (Std.LawfulEqOrd.eq_of_compare (a := i) (b := j) h)
    | name t => cases h
  | name s =>
    cases b with
    | index j => cases h
    | name t => exact congrArg name (Std.LawfulEqOrd.eq_of_compare (a := s) (b := t) h)

instance : TableKey BranchArm where
  trans := { eq_swap := order_swap _ _, isLE_trans := order_isLE_trans }
  lawful :=
    { compare_self := by
        intro a
        cases a with
        | index i => exact Std.ReflOrd.compare_self (a := i)
        | name s => exact Std.ReflOrd.compare_self (a := s)
      eq_of_compare := eq_of_order }

theorem mem_place {a b : BranchArm} {l : List BranchArm} : b ∈ place a l ↔ b = a ∨ b ∈ l := by
  induction l with
  | nil => simp [place]
  | cons c rest ih =>
    rw [place]
    split
    · simp
    · rename_i h
      rw [eq_of_order h]
      simp
    · simp only [List.mem_cons, ih]
      constructor
      · rintro (h | h | h)
        · exact .inr (.inl h)
        · exact .inl h
        · exact .inr (.inr h)
      · rintro (h | h | h)
        · exact .inr (.inl h)
        · exact .inl h
        · exact .inr (.inr h)

theorem place_ascending (a : BranchArm) {l : List BranchArm} (h : l.Pairwise Precedes) :
    (place a l).Pairwise Precedes := by
  induction l with
  | nil => exact List.pairwise_singleton _ _
  | cons c rest ih =>
    obtain ⟨hc, hrest⟩ := List.pairwise_cons.1 h
    rw [place]
    split
    · rename_i hlt
      refine List.pairwise_cons.2 ⟨fun b hb => ?_, h⟩
      rcases List.mem_cons.1 hb with rfl | hb
      · exact hlt
      · exact Precedes.trans' hlt (hc b hb)
    · exact h
    · rename_i hgt
      refine List.pairwise_cons.2 ⟨fun b hb => ?_, ih hrest⟩
      rcases mem_place.1 hb with rfl | hb
      · exact precedes_of_gt hgt
      · exact hc b hb

theorem mem_ascend {a : BranchArm} {l : List BranchArm} : a ∈ ascend l ↔ a ∈ l := by
  induction l with
  | nil => rfl
  | cons b rest ih => rw [ascend, List.foldr_cons, mem_place, List.mem_cons, ← ih, ascend]

theorem ascend_ascending (l : List BranchArm) : (ascend l).Pairwise Precedes := by
  induction l with
  | nil => exact .nil
  | cons b rest ih => exact place_ascending b ih

end BranchArm

/-! ## 2. Missing arms -/

namespace LineSession

variable {sessions others : List LineSession} {s : LineSession} {a : BranchArm}

/-- A session that reported no arms and ran the whole line, so that it misses none. -/
def RanAll (s : LineSession) : Prop := s.missing = none ∧ s.reading.outcome = some .hit

/-- The session may have missed an arm. -/
def MayMiss (s : LineSession) (a : BranchArm) : Prop :=
  ¬ s.RanAll ∧ ∀ arms, s.missing = some arms → a ∈ arms

/-- The arms found so far allow an arm to be missing; before any are found every arm may be. -/
def Allows (found : Option (List BranchArm)) (a : BranchArm) : Prop :=
  ∀ arms, found = some arms → a ∈ arms

theorem allows_none : Allows none a := fun _ h => by cases h

theorem allows_some {arms : List BranchArm} : Allows (some arms) a ↔ a ∈ arms :=
  ⟨fun h => h arms rfl, fun h _ heq => Option.some.inj heq ▸ h⟩

/-- Arms found so far stand in order. -/
def Ascending (found : Option (List BranchArm)) : Prop :=
  ∀ arms, found = some arms → arms.Pairwise Precedes

/-- What one session adds to the arms found before it. -/
def narrowed (found : Option (List BranchArm)) (arms : List BranchArm) : List BranchArm :=
  match found with
  | some before => before.filter fun a => (BranchArm.ascend arms).contains a
  | none => BranchArm.ascend arms

theorem mem_narrowed {found : Option (List BranchArm)} {arms : List BranchArm} :
    a ∈ narrowed found arms ↔ Allows found a ∧ a ∈ arms := by
  cases found with
  | none =>
    rw [narrowed, BranchArm.mem_ascend]
    exact ⟨fun h => ⟨allows_none, h⟩, And.right⟩
  | some before =>
    rw [narrowed, List.mem_filter, List.contains_eq_mem, decide_eq_true_eq, BranchArm.mem_ascend,
      allows_some]

theorem narrowed_ascending {found : Option (List BranchArm)} (h : Ascending found)
    (arms : List BranchArm) : (narrowed found arms).Pairwise Precedes := by
  cases found with
  | none => exact BranchArm.ascend_ascending arms
  | some before => exact (h before rfl).filter _

/-- The step stops as soon as no arm is left. -/
def settled (found : Option (List BranchArm)) : Except Unit (Option (List BranchArm)) :=
  if found = some [] then .error () else .ok found

theorem missingStep_of_some (found : Option (List BranchArm)) {arms : List BranchArm}
    (h : s.missing = some arms) : missingStep found s = settled (some (narrowed found arms)) := by
  rw [missingStep, h, settled]
  -- with or without arms found before, the step looks only at whether the narrowed list is empty
  cases found
  all_goals
    rw [narrowed]
    simp only
    split
    · rename_i heq
      rw [if_pos (Except.ok.inj heq)]
    · rename_i hne
      rw [if_neg fun heq => hne (congrArg Except.ok heq)]

theorem missingStep_of_none (found : Option (List BranchArm)) (h : s.missing = none)
    (hran : ¬ s.RanAll) : missingStep found s = settled found := by
  have hhit : ¬ s.reading.outcome = some .hit := fun hhit => hran ⟨h, hhit⟩
  rw [missingStep, h]
  simp only [if_neg hhit]
  rw [settled]
  split
  · rename_i heq
    rw [if_pos (Except.ok.inj heq)]
  · rename_i hne
    rw [if_neg fun heq => hne (congrArg Except.ok heq)]

theorem missingStep_of_ranAll (found : Option (List BranchArm)) (h : s.RanAll) :
    missingStep found s = .error () := by
  rw [missingStep, h.1]
  simp only [if_pos h.2]

/-- Where the fold over the sessions ends: an early stop means that no arm is missing. -/
def ended (result : Except Unit (Option (List BranchArm))) : Option (List BranchArm) :=
  match result with
  | .ok found => found
  | .error _ => some []

/-- One session: an arm stays possible when the session may have missed it as well. -/
theorem missingStep_spec (found : Option (List BranchArm)) (s : LineSession) :
    (∃ next, missingStep found s = settled next ∧ (Ascending found → Ascending next) ∧
      (∀ a, Allows next a ↔ Allows found a ∧ s.MayMiss a) ∧
      (next = none ↔ found = none ∧ s.missing = none)) ∨
    (missingStep found s = .error () ∧ ∀ a, ¬ s.MayMiss a) := by
  by_cases hran : s.RanAll
  · exact .inr ⟨missingStep_of_ranAll found hran, fun a h => h.1 hran⟩
  · left
    cases h : s.missing with
    | none =>
      -- a session without arms that did not run the whole line tells nothing
      refine ⟨found, missingStep_of_none found h hran, fun hasc => hasc, fun a => ?_, by simp⟩
      exact ⟨fun ha => ⟨ha, hran, fun arms harms => by rw [h] at harms; cases harms⟩, And.left⟩
    | some arms =>
      refine ⟨some (narrowed found arms), missingStep_of_some found h, ?_, fun a => ?_, by simp⟩
      · intro hasc l hl
        obtain rfl := Option.some.inj hl
        exact narrowed_ascending hasc arms
      · rw [allows_some, mem_narrowed]
        constructor
        · rintro ⟨hfound, ha⟩
          refine ⟨hfound, hran, fun arms' harms' => ?_⟩
          rw [h] at harms'
          exact Option.some.inj harms' ▸ ha
        · rintro ⟨hfound, -, ha⟩
          exact ⟨hfound, ha arms h⟩

/-- All sessions: the fold keeps the arms that every one of them may have missed. -/
theorem foldlM_missingStep (sessions : List LineSession) {found : Option (List BranchArm)}
    (hasc : Ascending found) :
    let last := ended (sessions.foldlM missingStep found)
    Ascending last ∧ (∀ a, Allows last a ↔ Allows found a ∧ ∀ s ∈ sessions, s.MayMiss a) ∧
      (last = none → found = none ∧ ∀ s ∈ sessions, s.missing = none) := by
  induction sessions generalizing found with
  | nil =>
    refine ⟨hasc, fun a => ?_, fun h => ⟨h, fun s hs => absurd hs List.not_mem_nil⟩⟩
    simp [ended, pure, Except.pure]
  | cons s rest ih =>
    have hstop : Ascending (some []) := fun arms h => Option.some.inj h ▸ List.Pairwise.nil
    rw [List.foldlM_cons]
    rcases missingStep_spec found s with ⟨next, hstep, hnext, hallows, hnone⟩ | ⟨hstep, hnot⟩
    · rw [hstep, settled]
      split
      · -- the list of arms has just become empty
        rename_i hempty
        refine ⟨hstop, fun a => ?_, fun h => by cases h⟩
        have hfalse : ¬ Allows next a := by
          rw [hempty, allows_some]
          exact List.not_mem_nil
        constructor
        · intro h
          exact absurd (allows_some.1 h) List.not_mem_nil
        · rintro ⟨hfound, hall⟩
          exact absurd ((hallows a).2 ⟨hfound, hall s List.mem_cons_self⟩) hfalse
      · obtain ⟨hlast, hmem, hends⟩ := ih (hnext hasc)
        refine ⟨hlast, fun a => ?_, fun h => ?_⟩
        · refine (hmem a).trans ?_
          rw [hallows, and_assoc]
          simp only [List.mem_cons, forall_eq_or_imp]
        · obtain ⟨hnextNone, hrest⟩ := hends h
          obtain ⟨hfound, hs⟩ := hnone.1 hnextNone
          refine ⟨hfound, fun q hq => ?_⟩
          rcases List.mem_cons.1 hq with rfl | hq
          · exact hs
          · exact hrest q hq
    · -- a session that ran the whole line ends the search
      rw [hstep]
      refine ⟨hstop, fun a => ?_, fun h => by cases h⟩
      constructor
      · intro h
        exact absurd (allows_some.1 h) List.not_mem_nil
      · rintro ⟨-, hall⟩
        exact absurd (hall s List.mem_cons_self) (hnot a)

theorem mergeMissing_eq_none :
    mergeMissing sessions = none ↔ ∀ s ∈ sessions, s.missing = none := by
  have hall : sessions.all (·.missing.isNone) = true ↔ ∀ s ∈ sessions, s.missing = none := by
    simp only [List.all_eq_true, Option.isNone_iff_eq_none]
  rw [mergeMissing, ← hall]
  by_cases h : sessions.all (·.missing.isNone) = true
  · rw [if_pos h]
    simp only [h]
  · rw [if_neg h]
    simp only [h, Bool.false_eq_true, iff_false]
    split <;> exact fun heq => by cases heq

/-- **The arms that a line misses**: those that every session may have missed, in order. -/
theorem mem_mergeMissing {arms : List BranchArm} (h : mergeMissing sessions = some arms) :
    arms.Pairwise Precedes ∧ ∀ a, a ∈ arms ↔ ∀ s ∈ sessions, s.MayMiss a := by
  have hstart : Ascending none := fun arms h => by cases h
  obtain ⟨hlast, hmem, hends⟩ := foldlM_missingStep sessions hstart
  have hsome : ¬ ∀ s ∈ sessions, s.missing = none := fun hall => by
    rw [mergeMissing_eq_none.2 hall] at h
    cases h
  -- some session reported arms, so the search does not end with nothing
  have hended : ended (sessions.foldlM missingStep none) = some arms := by
    have hall : sessions.all (·.missing.isNone) ≠ true := by
      simp only [ne_eq, List.all_eq_true, Option.isNone_iff_eq_none]
      exact hsome
    rw [mergeMissing, if_neg hall] at h
    cases hfold : sessions.foldlM missingStep none with
    | error e =>
      rw [hfold] at h
      exact h
    | ok found =>
      rw [hfold] at h
      cases found with
      | none =>
        rw [hfold] at hends
        exact absurd (hends rfl).2 hsome
      | some l => exact h
  rw [hended] at hlast hmem
  refine ⟨hlast arms rfl, fun a => ?_⟩
  rw [← allows_some, hmem]
  exact ⟨And.right, fun hall => ⟨allows_none, hall⟩⟩

/-! ## 3. Any order -/

theorem mergeMissing_perm (h : sessions.Perm others) :
    mergeMissing sessions = mergeMissing others := by
  cases hs : mergeMissing sessions with
  | none =>
    have hall := mergeMissing_eq_none.1 hs
    exact (mergeMissing_eq_none.2 fun s hs => hall s (h.mem_iff.2 hs)).symm
  | some arms =>
    obtain ⟨hasc, hmem⟩ := mem_mergeMissing hs
    cases ho : mergeMissing others with
    | none =>
      have hall := mergeMissing_eq_none.1 ho
      rw [mergeMissing_eq_none.2 fun s hs => hall s (h.mem_iff.1 hs)] at hs
      cases hs
    | some arms' =>
      obtain ⟨hasc', hmem'⟩ := mem_mergeMissing ho
      refine congrArg some (eq_of_ascending hasc hasc' fun a => ?_)
      rw [hmem, hmem']
      exact ⟨fun hall s hs => hall s (h.mem_iff.2 hs), fun hall s hs => hall s (h.mem_iff.1 hs)⟩

/-- **The reading of a line does not depend on the order of its sessions.** -/
theorem readingOf_perm (h : sessions.Perm others) (hplain : ∀ s ∈ sessions, s.reading.Plain) :
    readingOf sessions = readingOf others := by
  have hreadings : ∀ r ∈ sessions.map (·.reading), r.Plain := by
    intro r hr
    obtain ⟨s, hs, rfl⟩ := List.mem_map.1 hr
    exact hplain s hs
  rw [readingOf, readingOf, mergeMissing_perm h, Reading.mergeAll_perm (h.map _) hreadings]

/-- A session without its id. -/
def anonymous (s : LineSession) : LineSession := { s with id := 0 }

theorem mergeMissing_anonymous : mergeMissing (sessions.map anonymous) = mergeMissing sessions := by
  have hall : (sessions.map anonymous).all (·.missing.isNone) =
      sessions.all (·.missing.isNone) := by
    rw [List.all_map]
    rfl
  have hfold : (sessions.map anonymous).foldlM missingStep none =
      sessions.foldlM missingStep none := by
    rw [List.foldlM_map]
    rfl
  rw [mergeMissing, mergeMissing, hall, hfold]

theorem readingOf_anonymous : readingOf (sessions.map anonymous) = readingOf sessions := by
  rw [readingOf, readingOf, mergeMissing_anonymous, List.map_map]
  rfl

/-! ## 4. Sessions that are joined -/

/-- Only the session of the same id is joined; the others stay as they are. -/
theorem filter_mergeInto (s : LineSession) (sessions : List LineSession) :
    (mergeInto s sessions).filter (fun t => t.id != s.id) =
      sessions.filter fun t => t.id != s.id := by
  induction sessions with
  | nil => simp [mergeInto]
  | cons own rest ih =>
    rw [mergeInto]
    split
    · rename_i hid
      have hmerge : (own.merge s).id = s.id := hid
      rw [List.filter_cons_of_neg (by simp [hmerge]), List.filter_cons_of_neg (by simp [hid])]
    · rename_i hid
      rw [List.filter_cons_of_pos (by simp [hid]), List.filter_cons_of_pos (by simp [hid]), ih]

theorem mem_mergeInto {t : LineSession} (h : t ∈ mergeInto s sessions) :
    t ∈ sessions ∨ t = s ∨ ∃ own ∈ sessions, t = own.merge s := by
  induction sessions with
  | nil => exact .inr (.inl (List.mem_singleton.1 h))
  | cons own rest ih =>
    rw [mergeInto] at h
    split at h
    · rcases List.mem_cons.1 h with rfl | h
      · exact .inr (.inr ⟨own, List.mem_cons_self, rfl⟩)
      · exact .inl (List.mem_cons_of_mem own h)
    · rcases List.mem_cons.1 h with rfl | h
      · exact .inl List.mem_cons_self
      · rcases ih h with h | h | ⟨q, hq, h⟩
        · exact .inl (List.mem_cons_of_mem own h)
        · exact .inr (.inl h)
        · exact .inr (.inr ⟨q, List.mem_cons_of_mem own hq, h⟩)

theorem exists_id_mergeInto (s : LineSession) (sessions : List LineSession) :
    ∃ t ∈ mergeInto s sessions, t.id = s.id := by
  induction sessions with
  | nil => exact ⟨s, List.mem_singleton_self s, rfl⟩
  | cons own rest ih =>
    rw [mergeInto]
    split
    · rename_i hid
      exact ⟨own.merge s, List.mem_cons_self, hid⟩
    · obtain ⟨t, ht, hid⟩ := ih
      exact ⟨t, List.mem_cons_of_mem own ht, hid⟩

/-- What holds of the sessions of both lists, and of sessions that are joined when it holds of both,
holds of all afterwards. -/
theorem forall_mem_mergeLists {P : LineSession → Prop} (hmerge : ∀ a b, P a → P b → P (a.merge b))
    (hs : ∀ s ∈ sessions, P s) (ho : ∀ s ∈ others, P s) : ∀ s ∈ mergeLists sessions others, P s := by
  unfold mergeLists
  induction others generalizing sessions with
  | nil => exact hs
  | cons s rest ih =>
    have hown := ho s List.mem_cons_self
    refine ih (fun t ht => ?_) fun t ht => ho t (List.mem_cons_of_mem s ht)
    rcases mem_mergeInto ht with ht | rfl | ⟨own, hin, rfl⟩
    · exact hs t ht
    · exact hown
    · exact hmerge own s (hs own hin) hown

theorem ids_mergeInto (s : LineSession) (sessions : List LineSession) :
    (mergeInto s sessions).map (·.id) =
      if s.id ∈ sessions.map (·.id) then sessions.map (·.id)
      else sessions.map (·.id) ++ [s.id] := by
  induction sessions with
  | nil => rfl
  | cons own rest ih =>
    rw [mergeInto]
    by_cases hid : own.id = s.id
    · rw [if_pos hid, if_pos (by rw [List.map_cons, hid]; exact List.mem_cons_self)]
      rfl
    · have hmem : s.id ∈ (own :: rest).map (·.id) ↔ s.id ∈ rest.map (·.id) := by
        rw [List.map_cons, List.mem_cons]
        exact or_iff_right (Ne.symm hid)
      rw [if_neg hid, List.map_cons, ih]
      simp only [hmem]
      split <;> rfl

theorem nodup_ids_mergeLists (h : (sessions.map (·.id)).Nodup) (others : List LineSession) :
    ((mergeLists sessions others).map (·.id)).Nodup := by
  unfold mergeLists
  induction others generalizing sessions with
  | nil => exact h
  | cons s rest ih =>
    apply ih
    rw [ids_mergeInto]
    split
    · exact h
    · rename_i hout
      refine List.nodup_append.2 ⟨h, List.nodup_singleton _, fun a ha b hb heq => ?_⟩
      rw [heq, List.mem_singleton.1 hb] at ha
      exact hout ha

theorem mergeLists_ne_nil (h : sessions ≠ []) (others : List LineSession) :
    mergeLists sessions others ≠ [] := by
  unfold mergeLists
  induction others generalizing sessions with
  | nil => exact h
  | cons s rest ih =>
    apply ih
    obtain ⟨t, ht, -⟩ := exists_id_mergeInto s sessions
    exact List.ne_nil_of_mem ht

/-- Each session afterwards has the id of one from before. -/
theorem exists_id_of_mem_mergeLists {t : LineSession} (h : t ∈ mergeLists sessions others) :
    ∃ own, (own ∈ sessions ∨ own ∈ others) ∧ own.id = t.id := by
  unfold mergeLists at h
  induction others generalizing sessions with
  | nil => exact ⟨t, .inl h, rfl⟩
  | cons s rest ih =>
    obtain ⟨own, hown | hown, hid⟩ := ih h
    · rcases mem_mergeInto hown with hold | rfl | ⟨q, hq, rfl⟩
      · exact ⟨own, .inl hold, hid⟩
      · exact ⟨own, .inr List.mem_cons_self, hid⟩
      · exact ⟨q, .inl hq, hid⟩
    · exact ⟨own, .inr (List.mem_cons_of_mem s hown), hid⟩

end LineSession

end CoverageLedger
