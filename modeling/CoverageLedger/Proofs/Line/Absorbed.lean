import CoverageLedger.Proofs.Line.Accounted
import CoverageLedger.Proofs.Line.Steady

/-!
# Lines that are joined again

What was joined into a line once changes nothing when it is joined again (`Uploaded.merge_again`),
and a line joined with itself stays as it is (`Uploaded.merge_self`).  It is not enough for this that
joining a reading with itself keeps it: the second time a session meets what it became with others
between.  A session keeps its reading whenever the arms that it misses may be missed by the other
one as well and the other one counts no more arms (`LineSession.merge_eq_self`).
-/

namespace CoverageLedger

namespace LineSession

variable {s t u : LineSession} {sessions others : List LineSession}

/-! ## 1. Two sessions -/

theorem forall_mem_pair {P : LineSession → Prop} (hs : P s) (ht : P t) : ∀ q ∈ [s, t], P q :=
  List.forall_mem_cons.2 ⟨hs, List.forall_mem_singleton.2 ht⟩

/-- Arms that a session misses may be missed by it. -/
theorem mayMiss_of_mem {arms : List BranchArm} (hm : s.missing = some arms) {a : BranchArm}
    (ha : a ∈ arms) : s.MayMiss a := by
  refine ⟨fun hran => ?_, fun own hown => ?_⟩
  · rw [hran.1] at hm
    cases hm
  · rw [hm] at hown
    exact Option.some.inj hown ▸ ha

/-- The arms of a session stay when the other one may miss them as well. -/
theorem mergeMissing_eq_left {arms : List BranchArm} (hm : s.missing = some arms)
    (hasc : arms.Pairwise Precedes) (hmay : ∀ a ∈ arms, t.MayMiss a) :
    mergeMissing [s, t] = some arms := by
  cases hboth : mergeMissing [s, t] with
  | none =>
    have hnone := mergeMissing_eq_none.1 hboth s List.mem_cons_self
    rw [hm] at hnone
    cases hnone
  | some both =>
    obtain ⟨hasc', hmem⟩ := mem_mergeMissing hboth
    refine congrArg some (eq_of_ascending hasc' hasc fun a => ?_)
    rw [hmem]
    constructor
    · intro hall
      exact (hall s List.mem_cons_self).2 arms hm
    · intro ha
      exact forall_mem_pair (mayMiss_of_mem hm ha) (hmay a ha)

/-- What takes nothing away from a session and adds nothing to it leaves it as it is. -/
theorem merge_eq_self (hs : s.Told) (hsteady : s.Steady) (ht : t.Told) (htsteady : t.Steady)
    (hcount : s.missing = none →
      t.missing = none ∧ s.reading.merge t.reading none = s.reading)
    (harms : ∀ arms, s.missing = some arms →
      (∀ a ∈ arms, t.MayMiss a) ∧ t.reading.branchTotal ≤ s.reading.branchTotal) :
    s.merge t = s := by
  have hpartials : mergePartials s.partials t.partials = s.partials := by
    rw [hsteady.partials, htsteady.partials]
    rfl
  have hcomplexity : Complexity.merge s.complexity t.complexity = s.complexity := by
    rw [hsteady.complexity, htsteady.complexity]
    rfl
  have hkept : mergeMissing [s, t] = s.missing ∧ readingOf [s, t] = s.reading := by
    cases hm : s.missing with
    | none =>
      obtain ⟨hnone, hreading⟩ := hcount hm
      have hall : mergeMissing [s, t] = none := mergeMissing_eq_none.2 (forall_mem_pair hm hnone)
      rw [readingOf, hall]
      exact ⟨rfl, hreading⟩
    | some arms =>
      obtain ⟨hmay, htotal⟩ := harms arms hm
      have hboth := mergeMissing_eq_left hm (hs.below hm).ascending hmay
      -- both sides are the number of arms less those that are missing
      have harmTotal : armTotal [s, t] = s.reading.branchTotal := by
        show max s.reading.branchTotal (max t.reading.branchTotal 0) = _
        omega
      rw [readingOf_of_missing (forall_mem_pair hs ht) hboth, harmTotal]
      cases hs with
      | count n hmissing _ => rw [hmissing] at hm; cases hm
      | arms own total hmissing _ hreading =>
        obtain rfl := Option.some.inj (hmissing.symm.trans hm)
        rw [hreading]
        exact ⟨hboth, rfl⟩
  show LineSession.mk s.id (readingOf [s, t]) (mergeMissing [s, t])
    (mergePartials s.partials t.partials) (Complexity.merge s.complexity t.complexity) = s
  rw [hkept.1, hkept.2, hpartials, hcomplexity]

theorem merge_self (hs : s.Told) (hsteady : s.Steady) : s.merge s = s := by
  refine merge_eq_self hs hsteady hs hsteady (fun hm => ⟨hm, ?_⟩) fun arms hm => ⟨?_, Nat.le_refl _⟩
  · cases hs with
    | count n _ hreading => rw [hreading, Reading.merge_ofCount_max, Nat.max_self]
    | arms arms total hmissing _ _ => rw [hmissing] at hm; cases hm
  · exact fun a ha => mayMiss_of_mem hm ha

/-- Joining a session once more changes nothing. -/
theorem merge_again (hs : s.Told) (hsteady : s.Steady) (ht : t.Told) (htsteady : t.Steady) :
    (s.merge t).merge t = s.merge t := by
  refine merge_eq_self (hs.merge ht) (hsteady.merge htsteady) ht htsteady (fun hm => ?_)
    fun arms hm => ⟨fun a ha => ?_, ?_⟩
  · -- without arms both are counts, and the greater one stays the greater
    have hall := mergeMissing_eq_none.1 hm
    have hsnone := hall s List.mem_cons_self
    have htnone := hall t (List.mem_cons_of_mem s List.mem_cons_self)
    refine ⟨htnone, ?_⟩
    show (s.reading.merge t.reading (mergeMissing [s, t])).merge t.reading none =
      s.reading.merge t.reading (mergeMissing [s, t])
    cases hs with
    | arms arms total hmissing _ _ => rw [hmissing] at hsnone; cases hsnone
    | count j _ hj =>
      cases ht with
      | arms arms total hmissing _ _ => rw [hmissing] at htnone; cases htnone
      | count k _ hk =>
        rw [hj, hk, Reading.merge_ofCount_max, Reading.merge_ofCount_max, Nat.max_assoc,
          Nat.max_self]
  · exact ((mem_mergeMissing hm).2 a).1 ha t (List.mem_cons_of_mem s List.mem_cons_self)
  · have hreading : (s.merge t).reading = .ratio (armTotal [s, t] - arms.length) (armTotal [s, t]) :=
      readingOf_of_missing (forall_mem_pair hs ht) hm
    rw [hreading]
    exact Reading.branchTotal_le_greatestTotal
      (List.mem_map.2 ⟨t, List.mem_cons_of_mem s List.mem_cons_self, rfl⟩)

/-! ## 2. Sessions of a line -/

/-- A session stays absorbed while sessions of other ids are joined. -/
theorem mergeInto_of_mergeInto (h : mergeInto t sessions = sessions) (hid : u.id ≠ t.id) :
    mergeInto t (mergeInto u sessions) = mergeInto u sessions := by
  induction sessions with
  | nil => cases h
  | cons own rest ih =>
    rw [mergeInto] at h
    by_cases ht : own.id = t.id
    · -- the place of the session is found before the other one is looked for
      rw [if_pos ht] at h
      have hother : own.id ≠ u.id := fun heq => hid (heq.symm.trans ht)
      rw [mergeInto, if_neg hother, mergeInto, if_pos ht, (List.cons.inj h).1]
    · rw [if_neg ht] at h
      have hrest := (List.cons.inj h).2
      by_cases hu : own.id = u.id
      · have hmerged : (own.merge u).id ≠ t.id := ht
        rw [mergeInto, if_pos hu, mergeInto, if_neg hmerged, hrest]
      · rw [mergeInto, if_neg hu, mergeInto, if_neg ht, ih hrest]

theorem mergeInto_mergeLists (h : mergeInto t sessions = sessions)
    (hids : ∀ u ∈ others, u.id ≠ t.id) :
    mergeInto t (mergeLists sessions others) = mergeLists sessions others := by
  unfold mergeLists
  induction others generalizing sessions with
  | nil => exact h
  | cons u rest ih =>
    exact ih (mergeInto_of_mergeInto h (hids u List.mem_cons_self)) fun v hv =>
      hids v (List.mem_cons_of_mem u hv)

/-- A session of a tracefile, alone on a line or joined with others of its id. -/
def Plainly (s : LineSession) : Prop := s.Told ∧ s.Steady

theorem mergeInto_again (h : ∀ s ∈ sessions, s.Plainly) (ht : t.Plainly) :
    mergeInto t (mergeInto t sessions) = mergeInto t sessions := by
  induction sessions with
  | nil =>
    show mergeInto t [t] = [t]
    rw [mergeInto, if_pos rfl, merge_self ht.1 ht.2]
  | cons own rest ih =>
    by_cases hid : own.id = t.id
    · have hmerged : (own.merge t).id = t.id := hid
      obtain ⟨hown, hsteady⟩ := h own List.mem_cons_self
      rw [mergeInto, if_pos hid, mergeInto, if_pos hmerged, merge_again hown hsteady ht.1 ht.2]
    · rw [mergeInto, if_neg hid, mergeInto, if_neg hid,
        ih fun s hs => h s (List.mem_cons_of_mem own hs)]

/-- After sessions were joined, each of them is absorbed. -/
theorem mergeInto_of_mem (h : ∀ s ∈ sessions, s.Plainly) (ho : ∀ s ∈ others, s.Plainly)
    (hapart : (others.map (·.id)).Nodup) (ht : t ∈ others) :
    mergeInto t (mergeLists sessions others) = mergeLists sessions others := by
  induction others generalizing sessions with
  | nil => cases ht
  | cons u rest ih =>
    obtain ⟨hout, hrest⟩ := List.nodup_cons.1 hapart
    have hu := ho u List.mem_cons_self
    show mergeInto t (mergeLists (mergeInto u sessions) rest) = mergeLists (mergeInto u sessions) rest
    rcases List.mem_cons.1 ht with rfl | ht
    · refine mergeInto_mergeLists (mergeInto_again h hu) fun v hv heq => hout ?_
      exact List.mem_map.2 ⟨v, hv, heq⟩
    · refine ih (fun s hs => ?_) (fun s hs => ho s (List.mem_cons_of_mem u hs)) hrest ht
      rcases mem_mergeInto hs with hs | rfl | ⟨own, hown, rfl⟩
      · exact h s hs
      · exact hu
      · exact ⟨(h own hown).1.merge hu.1, (h own hown).2.merge hu.2⟩

/-- Sessions that are all absorbed change nothing together. -/
theorem mergeLists_eq_self (h : ∀ t ∈ others, mergeInto t sessions = sessions) :
    mergeLists sessions others = sessions := by
  unfold mergeLists
  induction others with
  | nil => rfl
  | cons t rest ih =>
    rw [List.foldl_cons, h t List.mem_cons_self]
    exact ih fun u hu => h u (List.mem_cons_of_mem t hu)

theorem mergeLists_again (h : ∀ s ∈ sessions, s.Plainly) (ho : ∀ s ∈ others, s.Plainly)
    (hapart : (others.map (·.id)).Nodup) :
    mergeLists (mergeLists sessions others) others = mergeLists sessions others :=
  mergeLists_eq_self fun _ ht => mergeInto_of_mem h ho hapart ht

/-- Sessions joined with themselves stay as they are. -/
theorem mergeLists_self (h : ∀ s ∈ sessions, s.Plainly) (hapart : (sessions.map (·.id)).Nodup) :
    mergeLists sessions sessions = sessions := by
  refine mergeLists_eq_self fun t ht => ?_
  induction sessions with
  | nil => cases ht
  | cons own rest ih =>
    obtain ⟨hout, hrest⟩ := List.nodup_cons.1 hapart
    rcases List.mem_cons.1 ht with rfl | ht
    · obtain ⟨htold, hsteady⟩ := h t List.mem_cons_self
      rw [mergeInto, if_pos rfl, merge_self htold hsteady]
    · have hid : own.id ≠ t.id := fun heq => hout (List.mem_map.2 ⟨t, ht, heq.symm⟩)
      rw [mergeInto, if_neg hid, ih (fun s hs => h s (List.mem_cons_of_mem own hs)) hrest ht]

end LineSession

/-! ## 3. Lines -/

namespace Line

variable {l l' : Line}

/-- A line that uploads made. -/
structure Uploaded (l : Line) : Prop where
  accounted : l.Accounted fun _ => True
  steady : l.Steady fun _ => True

namespace Uploaded

theorem merge (h : l.Uploaded) (h' : l'.Uploaded) : (l.merge l' true).Uploaded :=
  ⟨h.accounted.merge h'.accounted, h.steady.merge h'.steady⟩

theorem plainly (h : l.Uploaded) : ∀ s ∈ l.sessions, s.Plainly := fun s hs =>
  ⟨h.accounted.told s hs, h.steady.steady s hs⟩

/-- Joining a line changes nothing when its sessions and its kind change nothing. -/
theorem merge_eq_self (h : l.Uploaded) (h' : l'.Uploaded)
    (hsessions : LineSession.mergeLists l.sessions l'.sessions = l.sessions)
    (hkind : l.kind.or l'.kind = l.kind) : l.merge l' true = l := by
  have hsome : l.sessions.isEmpty = false := List.isEmpty_eq_false_iff.2 h.accounted.sessions
  have hmessages : mergeMessages l.messages l'.messages = l.messages := by
    rw [h.steady.bare.messages, h'.steady.bare.messages]
    rfl
  have hdatapoints : Datapoint.mergeLists l.datapoints l'.datapoints = l.datapoints := by
    rw [h.steady.bare.datapoints, h'.steady.bare.datapoints]
    rfl
  have hreading := h.accounted.reading
  have hcomplexity := h.accounted.complexity
  unfold Line.merge
  simp only [hsessions, hsome, Bool.not_true, Bool.false_eq_true, if_false, hkind, hmessages,
    hdatapoints, ← hreading, ← hcomplexity]

/-- A line joined with itself stays as it is. -/
theorem merge_self (h : l.Uploaded) : l.merge l true = l :=
  h.merge_eq_self h (LineSession.mergeLists_self h.plainly h.accounted.apart) (Option.or_self)

/-- **What was joined into a line once changes nothing when it is joined again.** -/
theorem merge_again (h : l.Uploaded) (h' : l'.Uploaded) :
    (l.merge l' true).merge l' true = l.merge l' true := by
  refine (h.merge h').merge_eq_self h' ?_ ?_
  · exact LineSession.mergeLists_again h.plainly h'.plainly h'.accounted.apart
  · show (l.kind.or l'.kind).or l'.kind = l.kind.or l'.kind
    rw [Option.or_assoc, Option.or_self]

end Uploaded

end Line

end CoverageLedger
