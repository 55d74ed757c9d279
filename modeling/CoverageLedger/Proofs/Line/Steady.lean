import CoverageLedger.Proofs.Json.Counts
import CoverageLedger.Proofs.Line.Accounted
import CoverageLedger.Proofs.SourceFile.Tally
import CoverageLedger.Proofs.Upload.Undone

/-!
# Lines that count the same after a reload

A count from 2^53 on may be read back as another number, but as one that is as great.  So the
readings that tracefiles make stay what they are as far as totals are concerned: a hit stays a hit,
and joining such readings makes one again (`Reading.Steady`).  A line is `Steady` when its readings
are, when its sessions are told apart, and when it reads what its session reads if it has only one.
-/

namespace CoverageLedger

/-! ## 1. Counts -/

namespace Binary64

/-- A count: written whole, or so great that it is read back as a great one. -/
inductive Settled (x : Binary64) : Prop
  | small (n : Nat) (hn : n ≠ 0) (hlt : n < 2 ^ 53) (heq : x = ofNat n)
  | great (h : x.Great)

namespace Settled

variable {x : Binary64}

theorem sign (h : x.Settled) : x.negative = false := by
  cases h with
  | small n _ _ heq =>
    rw [heq]
    exact negative_ofRatio false n 1
  | great h => exact h.sign

theorem one_le (h : x.Settled) : one.rank ≤ x.rank := by
  cases h with
  | small n hn _ heq =>
    rw [heq]
    exact one_le_rank_ofNat hn
  | great h => exact h.one_le

theorem lt_infinite (h : x.Settled) : x.rank < infiniteRank := by
  cases h with
  | small n hn hlt heq =>
    rw [heq]
    exact Json.rank_ofNat_lt (Nat.le_trans (Nat.le_of_lt hlt) (by decide))
  | great h => exact h.lt_infinite

/-- A count of 64 bits. -/
theorem ofNat {n : Nat} (hn : n ≠ 0) (h : n < Text.word64) : (Binary64.ofNat n).Settled := by
  by_cases hsmall : n < 2 ^ 53
  · exact .small n hn hsmall rfl
  · refine .great ⟨negative_ofRatio false n 1, rank_ofNat_mono (by omega), ?_⟩
    refine rank_ofNat_mono (Nat.le_trans (Nat.le_of_lt h) ?_)
    unfold Text.word64
    decide

end Settled

end Binary64

/-! ## 2. Readings -/

namespace Reading

open Binary64 (Settled)

/-- The readings that tracefiles make, joined in any way. -/
inductive Steady : Reading → Prop
  | absent : Steady .absent
  | miss : Steady .miss
  | hit (x : Binary64) (h : x.Settled) : Steady (.hit x)
  | ratio (taken total : Nat) : Steady (.ratio taken total)

variable {a b r : Reading} {x : Binary64} {m : Option (List BranchArm)}

theorem ofNumber_of_settled (h : x.Settled) : ofNumber x = .hit x := by
  have hx : x = ⟨false, x.rank⟩ := by rw [← h.sign]
  rw [hx]
  exact ofRank_of_le h.one_le (Nat.le_of_lt h.lt_infinite)

theorem exists_positive (h : x.Settled) : ∃ p : Positive, positive p = .hit x ∧ p.1 = x.rank := by
  have hpos : 0 < x.rank := Nat.lt_of_lt_of_le (by decide) h.one_le
  have hx : x = ⟨false, x.rank⟩ := by rw [← h.sign]
  refine ⟨⟨x.rank, hpos, Nat.le_of_lt h.lt_infinite⟩, ?_, rfl⟩
  rw [positive, ofRank, ← hx, ofNumber_of_settled h]

/-- Readings that are joined make one of them, or a ratio. -/
theorem Steady.merge (ha : a.Steady) (hb : b.Steady) : (a.merge b m).Steady := by
  have hhit {x : Binary64} (h : x.Settled) {p : Positive} (hp : positive p = .hit x) :
      (positive p).Steady := by
    rw [hp]
    exact .hit x h
  cases ha with
  | absent => rwa [merge_absent_left]
  | miss =>
    cases hb with
    | absent => rw [merge_absent_right]; exact .miss
    | miss => exact .miss
    | hit y hy =>
      obtain ⟨p, hp, -⟩ := exists_positive hy
      rw [← hp, merge_miss_positive]
      exact hhit hy hp
    | ratio => cases m <;> simp <;> constructor
  | hit x hx =>
    obtain ⟨p, hp, hrank⟩ := exists_positive hx
    rw [← hp]
    cases hb with
    | absent => rw [merge_absent_right]; exact hhit hx hp
    | miss => rw [merge_positive_miss]; exact hhit hx hp
    | hit y hy =>
      obtain ⟨q, hq, hrank'⟩ := exists_positive hy
      rw [← hq, merge_positive_positive]
      rcases Nat.le_total q.1 p.1 with hle | hle
      · rw [show p.sup q = p from Subtype.ext (Nat.max_eq_left hle)]
        exact hhit hx hp
      · rw [show p.sup q = q from Subtype.ext (Nat.max_eq_right hle)]
        exact hhit hy hq
    | ratio =>
      cases m with
      | none => rw [merge_positive_ratio]; exact hhit hx hp
      | some arms => rw [merge_positive_ratio_arms]; constructor
  | ratio taken total =>
    cases hb with
    | absent => rw [merge_absent_right]; constructor
    | miss => cases m <;> simp <;> constructor
    | hit y hy =>
      obtain ⟨q, hq, -⟩ := exists_positive hy
      rw [← hq]
      cases m with
      | none => rw [merge_ratio_positive]; exact hhit hy hq
      | some arms => rw [merge_ratio_positive_arms]; constructor
    | ratio => cases m <;> simp <;> constructor

theorem Steady.mergeAll {l : List Reading} (h : ∀ r ∈ l, r.Steady) : (mergeAll l m).Steady := by
  rw [mergeAll_eq_foldl]
  have hstart : Reading.absent.Steady := .absent
  generalize Reading.absent = acc at hstart
  induction l generalizing acc with
  | nil => exact hstart
  | cons r rest ih =>
    exact ih (fun s hs => h s (List.mem_cons_of_mem r hs)) _ (hstart.merge (h r List.mem_cons_self))

theorem steady_ofCount {n : Nat} (h : n < Text.word64) : (ofCount n).Steady := by
  by_cases hn : n = 0
  · rw [hn]
    exact .miss
  · rw [ofCount_of_ne_zero hn]
    exact .hit _ (.ofNat hn h)

/-- What is read back of a reading: a great count may be another one. -/
def reread : Reading → Reading
  | .hit x =>
    match (numberToJson x).reread with
    | .float y => .hit y
    | _ => .hit x
  | r => r

theorem numberToJson_great (h : x.Great) : numberToJson x = .float x := by
  have hshare : shareToJson x = .float x := if_pos h.isFinite
  have hle : 2 ^ 53 ≤ x.ratio.1 / x.ratio.2 :=
    (Nat.le_div_iff_mul_le (Binary64.ratio_spec x).1).2 h.le_ratio
  rw [numberToJson]
  split
  · rename_i i hi
    rw [Binary64.toInt?, if_pos h.isFinite, h.sign] at hi
    simp only [Bool.false_eq_true, if_false] at hi
    split at hi
    · -- the value is whole, but not small enough to be written so
      obtain rfl := Option.some.inj hi
      rw [if_neg (by omega), hshare]
    · cases hi
  · exact hshare

theorem numberToJson_small {n : Nat} (hn : n ≠ 0) (h : n < 2 ^ 53) :
    numberToJson (.ofNat n) = .int n := by
  have hsign : (Binary64.ofNat n).negative = false := Binary64.negative_ofRatio false n 1
  have hpos := (Binary64.ratio_spec (Binary64.ofNat n)).1
  have hexact := Binary64.exact_of_lt hn h
  have hfinite : (Binary64.ofNat n).isFinite = true :=
    decide_eq_true (Json.rank_ofNat_lt (Nat.le_trans (Nat.le_of_lt h) (by decide)))
  have hint : (Binary64.ofNat n).toInt? = some (n : Int) := by
    rw [Binary64.toInt?, if_pos hfinite, hsign]
    dsimp only
    rw [hexact, Nat.mul_mod_left, if_pos rfl, Nat.mul_div_cancel n hpos]
    rfl
  rw [numberToJson, hint]
  dsimp only
  rw [if_pos (by omega)]

/-- What is read back of a reading is steady and counts as the reading does. -/
structure ReadBack (r back : Reading) : Prop where
  json : r.toJson.reread = back.toJson
  steady : back.Steady
  outcome : back.outcome = r.outcome
  fits : r.Fits → back.Fits
  legible : ∀ depth, r.toJson.Legible depth

/-- **A steady reading is read back as a steady one that counts the same.** -/
theorem Steady.reread (h : r.Steady) : ReadBack r r.reread := by
  cases h with
  | absent => exact ⟨rfl, .absent, rfl, id, fun _ => trivial⟩
  | miss => exact ⟨rfl, .miss, rfl, id, fun _ => by constructor <;> decide⟩
  | ratio taken total => exact ⟨rfl, .ratio _ _, rfl, id, fun _ => trivial⟩
  | hit x hx =>
    rw [Reading.reread]
    cases hx with
    | small n hn hlt heq =>
      have hjson := numberToJson_small hn hlt
      have hreread : (Json.int n).reread = .int n := rfl
      rw [heq, hjson, hreread]
      refine ⟨?_, .hit _ (.small n hn hlt rfl), rfl, id, fun _ => ?_⟩
      · rw [toJson, hjson, hreread]
      · rw [toJson, hjson]
        constructor <;> omega
    | great hgreat =>
      obtain ⟨y, hread, hy⟩ := Json.parse?_floatChars_great hgreat
      have hreread : (Json.float x).reread = .float y := by
        rw [Json.reread, hread]
        rfl
      rw [numberToJson_great hgreat, hreread]
      refine ⟨?_, .hit y (.great hy), rfl, fun _ => ?_, fun _ => ?_⟩
      · rw [toJson, toJson, numberToJson_great hgreat, numberToJson_great hy, hreread]
      · exact ⟨decide_eq_true hy.lt_infinite, ofNumber_of_settled (.great hy)⟩
      · rw [toJson, numberToJson_great hgreat, Json.Legible, hread]
        rfl

end Reading

/-! ## 3. Sessions of lines -/

theorem BranchArm.reread_toJson (a : BranchArm) : a.toJson.reread = a.toJson := by
  cases a <;> rfl

theorem BranchArm.legible_toJson {a : BranchArm} (h : a.Fits) (depth : Nat) :
    a.toJson.Legible depth := by
  cases a with
  | index i =>
    obtain ⟨hlow, hhigh⟩ : FitsInt64 i := h
    exact ⟨hlow, by omega⟩
  | name s => exact trivial

namespace LineSession

variable {s : LineSession}

/-- A session as tracefiles make it. -/
structure Steady (s : LineSession) : Prop where
  reading : s.reading.Steady
  partials : s.partials = none
  complexity : s.complexity = none

/-- What is read back of a session. -/
def reread (s : LineSession) : LineSession := { s with reading := s.reading.reread }

theorem Steady.withId (h : s.Steady) (id : Nat) : (s.withId id).Steady :=
  ⟨h.reading, h.partials, h.complexity⟩

theorem Steady.merge {t : LineSession} (hs : s.Steady) (ht : t.Steady) : (s.merge t).Steady where
  reading := hs.reading.merge ht.reading
  partials := by
    show mergePartials s.partials t.partials = none
    rw [hs.partials, ht.partials]
    rfl
  complexity := by
    show Complexity.merge s.complexity t.complexity = none
    rw [hs.complexity, ht.complexity]
    rfl

theorem steady_readingOf {l : List LineSession} (h : ∀ s ∈ l, s.Steady) :
    (readingOf l).Steady := by
  apply Reading.Steady.mergeAll
  intro r hr
  obtain ⟨s, hs, rfl⟩ := List.mem_map.1 hr
  exact (h s hs).reading

theorem Steady.items (h : s.Steady) :
    s.items = .nat s.id :: s.reading.toJson ::
      (s.missing.map (Json.ofList BranchArm.toJson)).toList := by
  unfold LineSession.items
  rw [h.partials, h.complexity]
  cases s.missing <;> rfl

theorem Steady.reread (h : s.Steady) : s.reread.Steady :=
  ⟨h.reading.reread.steady, h.partials, h.complexity⟩

theorem Steady.reread_toJson (h : s.Steady) : s.toJson.reread = s.reread.toJson := by
  have hmissing : ((s.missing.map (Json.ofList BranchArm.toJson)).toList).map Json.reread =
      (s.missing.map (Json.ofList BranchArm.toJson)).toList := by
    cases s.missing with
    | none => rfl
    | some arms =>
      show [Json.array (Json.rereadItems (arms.map BranchArm.toJson))] = _
      rw [Json.rereadItems_eq_map, List.map_map]
      exact congrArg (fun l => [Json.array l])
        (List.map_congr_left fun a _ => a.reread_toJson)
  rw [toJson, toJson, h.reread.items, h.items]
  show Json.array (Json.rereadItems _) = _
  rw [Json.rereadItems_eq_map, List.map_cons, List.map_cons, hmissing, h.reading.reread.json]
  rfl

theorem Steady.legible (h : s.Steady) (hfits : s.Fits) {depth : Nat} (hdepth : 2 < depth) :
    s.toJson.Legible depth := by
  have hid := hfits.id
  unfold Text.word32 at hid
  refine ⟨by omega, ?_⟩
  rw [h.items, Json.legibleItems_iff, List.forall_mem_cons, List.forall_mem_cons]
  refine ⟨⟨by omega, by omega⟩, h.reading.reread.legible _, fun j hj => ?_⟩
  cases hmissing : s.missing with
  | none =>
    rw [hmissing] at hj
    cases hj
  | some arms =>
    rw [hmissing] at hj
    rw [List.mem_singleton.1 hj]
    refine ⟨by omega, Json.legibleItems_iff.2 fun j hj => ?_⟩
    obtain ⟨a, ha, rfl⟩ := List.mem_map.1 hj
    exact BranchArm.legible_toJson (hfits.missing arms hmissing a ha) _

theorem Steady.fits_reread (h : s.Steady) (hfits : s.Fits) : s.reread.Fits :=
  { hfits with reading := h.reading.reread.fits hfits.reading }

end LineSession

/-! ## 4. Lines -/

namespace Line

variable {knows : Nat → Prop} {l l' : Line} {id : Nat}

/-- A line that tracefiles made, its sessions being known and told apart.  A single one of them
accounts for the line. -/
structure Steady (knows : Nat → Prop) (l : Line) : Prop where
  bare : l.Bare
  sessions : l.sessions ≠ []
  apart : l.sessionIds.Nodup
  known : ∀ s ∈ l.sessions, knows s.id
  steady : ∀ s ∈ l.sessions, s.Steady
  reading : l.reading.Steady
  alone : ∀ s, l.sessions = [s] → l.reading = s.reading

/-- What is read back of a line. -/
def reread (l : Line) : Line :=
  { l with reading := l.reading.reread, sessions := l.sessions.map LineSession.reread }

namespace Steady

theorem mono {knows' : Nat → Prop} (h : l.Steady knows) (hknows : ∀ id, knows id → knows' id) :
    l.Steady knows' :=
  { h with known := fun s hs => hknows s.id (h.known s hs) }

theorem and {p : Nat → Prop} (h : l.Steady knows) (hp : ∀ s ∈ l.sessions, p s.id) :
    l.Steady fun id => knows id ∧ p id :=
  { h with known := fun s hs => ⟨h.known s hs, hp s hs⟩ }

/-- The line reads what its sessions read. -/
theorem of_readingOf (hbare : l.Bare) (hne : l.sessions ≠ []) (hapart : l.sessionIds.Nodup)
    (hknown : ∀ s ∈ l.sessions, knows s.id) (hsteady : ∀ s ∈ l.sessions, s.Steady)
    (hreading : l.reading = LineSession.readingOf l.sessions) : l.Steady knows where
  bare := hbare
  sessions := hne
  apart := hapart
  known := hknown
  steady := hsteady
  reading := by
    rw [hreading]
    exact LineSession.steady_readingOf hsteady
  alone := by
    intro s hs
    rw [hreading, hs]
    rfl

theorem of_madeBy {s : LineSession} (h : l.MadeBy id s) (hbare : l.Bare) (hs : s.Steady)
    (hid : knows id) : l.Steady knows := by
  have hone {P : LineSession → Prop} (hP : P (s.withId id)) : ∀ t ∈ l.sessions, P t := by
    intro t ht
    rw [h.sessions] at ht
    rwa [List.mem_singleton.1 ht]
  refine .of_readingOf hbare ?_ ?_ (hone hid) (hone (hs.withId id)) ?_
  · rw [h.sessions]
    exact List.cons_ne_nil _ _
  · rw [sessionIds, h.sessions]
    exact List.nodup_singleton _
  · rw [h.sessions, h.reading]
    rfl

theorem merge (h : l.Steady knows) (h' : l'.Steady knows) : (l.merge l' true).Steady knows := by
  have hne : LineSession.mergeLists l.sessions l'.sessions ≠ [] :=
    LineSession.mergeLists_ne_nil h.sessions _
  have hsome : (LineSession.mergeLists l.sessions l'.sessions).isEmpty = false := by
    rwa [List.isEmpty_eq_false_iff]
  refine .of_readingOf (h.bare.merge h'.bare) hne (LineSession.nodup_ids_mergeLists h.apart _)
    ?_ ?_ ?_
  · exact LineSession.forall_mem_mergeLists (P := fun s => knows s.id) (fun _ _ ha _ => ha)
      h.known h'.known
  · exact LineSession.forall_mem_mergeLists (fun _ _ ha hb => ha.merge hb) h.steady h'.steady
  · simp only [Line.merge, hsome, Bool.not_true, Bool.false_eq_true, if_false]

theorem withoutSessions {ids : List Nat} (h : l.Steady knows)
    (hl : l.withoutSessions ids = some l') : l'.Steady fun id => knows id ∧ id ∉ ids := by
  rw [withoutSessions_of_sessions_ne h.sessions] at hl
  split at hl
  · cases hl
  · rename_i hleft
    obtain rfl := Option.some.inj hl
    have hin {s : LineSession} (hs : s ∈ l.sessions.filter fun s => !ids.contains s.id) :=
      List.mem_filter.1 hs
    refine .of_readingOf ⟨h.bare.messages, ?_, ?_, fun s hs => h.bare.sessions s (hin hs).1⟩
      (fun hnil => hleft (List.isEmpty_iff.2 hnil)) ?_ (fun s hs => ⟨h.known s (hin hs).1, ?_⟩)
      (fun s hs => h.steady s (hin hs).1) rfl
    · exact LineSession.complexityOf_of_none fun s hs => h.bare.sessions s (hin hs).1
    · show l.datapointsWithout ids = none
      rw [datapointsWithout, h.bare.datapoints]
      rfl
    · exact (List.filter_sublist.map _).nodup h.apart
    · simpa using (hin hs).2

theorem withSessionId {old new : Nat} (h : l.Steady knows) (hfree : ¬ knows new) :
    (l.withSessionId old new).Steady fun id => id = new ∨ knows id ∧ id ≠ old where
  bare := by
    refine ⟨h.bare.messages, h.bare.complexity, ?_, fun t ht => ?_⟩
    · show l.datapoints.map _ = none
      rw [h.bare.datapoints]
      rfl
    · rw [sessions_withSessionId] at ht
      obtain ⟨s, hs, rfl⟩ := List.mem_map.1 ht
      unfold LineSession.renumber
      split <;> exact h.bare.sessions s hs
  sessions := by
    rw [sessions_withSessionId]
    exact fun hnil => h.sessions (List.map_eq_nil_iff.1 hnil)
  apart := by
    rw [sessionIds_withSessionId]
    refine nodup_map_renamedId h.apart fun _ hid => ?_
    obtain ⟨s, hs, rfl⟩ := mem_sessionIds.1 hid
    exact hfree (h.known s hs)
  known := known_withSessionId h.known
  steady := by
    intro t ht
    rw [sessions_withSessionId] at ht
    obtain ⟨s, hs, rfl⟩ := List.mem_map.1 ht
    unfold LineSession.renumber
    split
    · exact (h.steady s hs).withId new
    · exact h.steady s hs
  reading := h.reading
  alone := by
    intro t ht
    rw [sessions_withSessionId] at ht
    obtain ⟨s, hs, rfl⟩ := List.map_eq_singleton_iff.1 ht
    show l.reading = _
    rw [h.alone s hs]
    unfold LineSession.renumber
    split <;> rfl

/-! ### Lines that are read back -/

theorem reread (h : l.Steady knows) : l.reread.Steady knows := by
  have hmem {P : LineSession → Prop} (hP : ∀ s ∈ l.sessions, P s.reread) :
      ∀ t ∈ l.reread.sessions, P t := by
    intro t ht
    obtain ⟨s, hs, rfl⟩ := List.mem_map.1 ht
    exact hP s hs
  refine ⟨⟨h.bare.messages, h.bare.complexity, h.bare.datapoints, hmem h.bare.sessions⟩,
    fun hnil => h.sessions (List.map_eq_nil_iff.1 hnil), ?_, hmem h.known,
    hmem fun s hs => (h.steady s hs).reread, h.reading.reread.steady, fun t ht => ?_⟩
  · show (l.sessions.map LineSession.reread).map (·.id) |>.Nodup
    rw [List.map_map]
    exact h.apart
  · obtain ⟨s, hs, rfl⟩ := List.map_eq_singleton_iff.1 ht
    exact congrArg Reading.reread (h.alone s hs)

theorem fits_reread (h : l.Steady knows) (hfits : l.Fits) : l.reread.Fits where
  reading := h.reading.reread.fits hfits.reading
  sessions := by
    intro t ht
    obtain ⟨s, hs, rfl⟩ := List.mem_map.1 ht
    exact (h.steady s hs).fits_reread (hfits.sessions s hs)
  messages := hfits.messages
  complexity := hfits.complexity
  datapoints := hfits.datapoints

/-- What totals count is there again. -/
theorem tally_reread (h : l.Steady knows) : l.reread.tally = l.tally := by
  have hsessions : (l.sessions.map LineSession.reread).map LineSession.tally =
      l.sessions.map LineSession.tally := by
    rw [List.map_map]
    refine List.map_congr_left fun s hs => ?_
    show SessionTally.mk s.id s.reading.reread.outcome s.complexity = _
    rw [(h.steady s hs).reading.reread.outcome]
    rfl
  show Tally.mk l.reading.reread.outcome l.kind l.messageCount l.complexity
    ((l.sessions.map LineSession.reread).map LineSession.tally) = _
  rw [hsessions, h.reading.reread.outcome]
  rfl

theorem toJson_eq (h : l.Bare) : l.toJson = .array [l.reading.toJson,
    .ofOption (fun k => .string k.letter) l.kind, .ofList LineSession.toJson l.sessions,
    .null, .null, .null] := by
  rw [toJson, h.messages, h.complexity, h.datapoints]
  rfl

theorem reread_toJson (h : l.Steady knows) : l.toJson.reread = l.reread.toJson := by
  have hsessions : (Json.ofList LineSession.toJson l.sessions).reread =
      .ofList LineSession.toJson (l.sessions.map LineSession.reread) := by
    show Json.array (Json.rereadItems _) = Json.array _
    rw [Json.rereadItems_eq_map, List.map_map, List.map_map]
    exact congrArg Json.array (List.map_congr_left fun s hs => (h.steady s hs).reread_toJson)
  have hkind : (Json.ofOption (fun k : LineKind => .string k.letter) l.kind).reread =
      .ofOption (fun k => .string k.letter) l.kind := by
    cases l.kind <;> rfl
  rw [toJson_eq h.bare, toJson_eq h.reread.bare]
  show Json.array (Json.rereadItems _) = _
  rw [Json.rereadItems_eq_map]
  simp only [List.map_cons, List.map_nil, h.reading.reread.json, hsessions, hkind]
  rfl

theorem legible (h : l.Steady knows) (hfits : l.Fits) : l.toJson.Legible Json.depthLimit := by
  rw [toJson_eq h.bare]
  refine ⟨by decide, h.reading.reread.legible _, ?_, ⟨by decide, ?_⟩, trivial, trivial, trivial,
    trivial⟩
  · cases l.kind <;> exact trivial
  · rw [Json.legibleItems_iff]
    intro j hj
    obtain ⟨s, hs, rfl⟩ := List.mem_map.1 hj
    exact (h.steady s hs).legible (hfits.sessions s hs) (by decide)

/-- **A steady line is read back from its row** but for great counts, which stay great. -/
theorem ofText?_text (h : l.Steady knows) (hfits : l.Fits) :
    Line.ofText? l.text.toList = some l.reread := by
  have hback := h.fits_reread hfits
  rw [Line.ofText?, text, Json.render, String.toList_ofList, Json.parse?_legible (h.legible hfits),
    Option.bind_some, h.reread_toJson, normal_toJson hback, ofJson?_toJson hback.storable]

end Steady

end Line

/-! ## 5. Chunks -/

namespace Chunk

variable {knows : Nat → Prop} {l : Line} {table : Table Nat Line}

theorem lineOfRow_steady (h : l.Steady knows) (hfits : l.Fits) :
    lineOfRow l.text.toList = some l.reread :=
  (lineOfRow_eq_ofText? l).trans (h.ofText?_text hfits)

theorem keepsTally_of_steady (h : l.Steady knows) (hfits : l.Fits) : KeepsTally l := by
  rw [KeepsTally, lineOfRow_steady h hfits, Option.map_some, h.tally_reread]

/-- The chunk of steady lines has each of them under its number, as it is read back. -/
theorem get?_lines_encode (ids : List Nat) (hnumbers : ∀ n l, table.get? n = some l → n ≠ 0)
    (h : ∀ n l, table.get? n = some l → l.Steady knows ∧ l.Fits) (n : Nat) :
    (lines (encode ids table)).get? n = (table.get? n).map Line.reread := by
  rw [lines_encode_eq_filterMap hnumbers, Table.get?_filterMap]
  cases hl : table.get? n with
  | none => rfl
  | some l =>
    obtain ⟨hsteady, hfits⟩ := h n l hl
    exact lineOfRow_steady hsteady hfits

end Chunk

end CoverageLedger
