import CoverageLedger.Proofs.Line.Stored

/-!
# Records that were read

What a reader makes of a record fits the fields of the record, whatever the record looked like: it may
be short, its numbers may be given as text, and the ends of its ranges may be anything.  So what was
read is written and read again as it is, as long as its readings are finite
(`Line.record_reads_back`).
-/

namespace CoverageLedger

/-! ## 1. Readings -/

namespace Reading

/-- Counts and shares are numbers that JSON has. -/
def Finite : Reading → Prop
  | .hit x | .fraction x => x.isFinite = true
  | _ => True

variable {r : Reading} {x : Binary64}

theorem fits_ofNumber (h : (ofNumber x).Finite) : (ofNumber x).Fits := by
  have hcases : ofNumber x = .skipped ∨ ofNumber x = .miss ∨ ofNumber x = .fraction x ∨
      ofNumber x = .hit x := by
    rw [ofNumber]
    split
    · exact .inl rfl
    · split
      · exact .inr (.inl rfl)
      · split
        · exact .inr (.inr (.inl rfl))
        · exact .inr (.inr (.inr rfl))
  rcases hcases with hx | hx | hx | hx
  · rw [hx]
    trivial
  · rw [hx]
    trivial
  · rw [hx] at h ⊢
    exact ⟨h, hx⟩
  · rw [hx] at h ⊢
    exact ⟨h, hx⟩

theorem fits_ofText? {s : String} (h : ofText? s = .ok r) (hfinite : r.Finite) : r.Fits := by
  rw [ofText?] at h
  split at h
  · rename_i found hfound
    obtain rfl := Except.ok.inj h
    split at hfound
    · simp only [Option.bind_eq_bind, Option.bind_eq_some_iff] at hfound
      obtain ⟨taken, htaken, total, htotal, heq⟩ := hfound
      obtain rfl := Option.some.inj heq
      exact ⟨Text.lt_word32_of_nat32? htaken, Text.lt_word32_of_nat32? htotal⟩
    · obtain ⟨x, -, rfl⟩ := Option.map_eq_some_iff.1 hfound
      exact fits_ofNumber hfinite
  · cases h

/-- The ends of a range are cut to 32 bits. -/
theorem fits_rangeOfParts? {parts : List Json} {range : ColumnRange}
    (h : rangeOfParts? parts = .ok range) : range.Fits := by
  have hbound {j : Json} {n : Nat} (hn : ColumnRange.boundOfJson j = some n) : n < Text.word32 := by
    obtain ⟨m, -, rfl⟩ := Option.map_eq_some_iff.1 hn
    exact Nat.mod_lt _ (by decide)
  rw [rangeOfParts?.eq_def] at h
  split at h
  · obtain ⟨reading, -, heq⟩ := Result.bind_eq_ok.1 h
    obtain rfl := Except.ok.inj heq
    exact ⟨fun _ => hbound, fun _ => hbound⟩
  · cases h

theorem fits_rangesOfItems? {items : List Json} {ranges : List ColumnRange}
    (h : rangesOfItems? items = .ok ranges) : ∀ range ∈ ranges, range.Fits := by
  induction items generalizing ranges with
  | nil =>
    obtain rfl := Except.ok.inj h
    exact fun _ hmem => (List.not_mem_nil hmem).elim
  | cons item rest ih =>
    cases item with
    | array parts =>
      obtain ⟨range, hrange, h⟩ := Result.bind_eq_ok.1 h
      obtain ⟨others, hothers, heq⟩ := Result.bind_eq_ok.1 h
      obtain rfl := Except.ok.inj heq
      exact List.forall_mem_cons.2 ⟨fits_rangeOfParts? hrange, ih hothers⟩
    | _ => cases h

/-- Whatever a reading was given as, it fits. -/
theorem fits_ofJson? {j : Json} (h : ofJson? j = .ok r) (hfinite : r.Finite) : r.Fits := by
  cases j with
  | null =>
    obtain rfl := Except.ok.inj h
    trivial
  | bool b =>
    obtain rfl := Except.ok.inj h
    trivial
  | int i =>
    obtain rfl := Except.ok.inj h
    exact fits_ofNumber hfinite
  | float x =>
    obtain rfl := Except.ok.inj h
    exact fits_ofNumber hfinite
  | string s => exact fits_ofText? h hfinite
  | array items =>
    rw [ofJson?] at h
    cases hranges : rangesOfItems? items with
    | error e =>
      rw [hranges] at h
      cases h
    | ok ranges =>
      rw [hranges] at h
      obtain rfl := Except.ok.inj h
      exact fits_rangesOfItems? hranges
  | object fields => cases h

end Reading

/-! ## 2. Places of a record -/

/-- What is read of an array of places is read of the places. -/
theorem exists_of_toOption {α : Type} {read : List Json → Result α} {j : Json} {a : α}
    (h : (j.array?.bind fun items => (read items).toOption) = some a) :
    ∃ items, read items = .ok a := by
  obtain ⟨items, -, hitems⟩ := Option.bind_eq_some_iff.1 h
  exact ⟨items, Result.eq_ok_of_toOption hitems⟩

section slot

variable {α : Type} {read : Json → Option α} {j : Option Json} {a : α}

/-- What stands at a place was read of a value there. -/
theorem slot?_eq_some (h : slot? read j = .ok (some a)) :
    ∃ v, j = some v ∧ v ≠ .null ∧ read v = some a := by
  cases j with
  | none => cases h
  | some v =>
    by_cases hnull : v = .null
    · rw [hnull] at h
      cases h
    · rw [slot?_of_ne_null hnull] at h
      cases hread : read v with
      | none =>
        rw [hread] at h
        cases h
      | some b =>
        rw [hread] at h
        exact ⟨v, rfl, hnull, Except.ok.inj h ▸ hread⟩

/-- What is read of every value of a list holds of the items that stand at a place. -/
theorem forall_of_slot?_list? {l : List α} (h : slot? (Json.list? read) j = .ok (some l))
    {p : α → Prop} (hread : ∀ v a, read v = some a → p a) : ∀ a ∈ l, p a := by
  obtain ⟨v, -, -, hlist⟩ := slot?_eq_some h
  obtain ⟨items, -, hitems⟩ := Option.bind_eq_some_iff.1 hlist
  intro a ha
  obtain ⟨item, -, hitem⟩ := Json.exists_of_mem_mapM hitems ha
  exact hread item a hitem

end slot

theorem fits_readingSlot? {r : Reading} {j : Option Json} (h : readingSlot? j = .ok r)
    (hfinite : r.Finite) : r.Fits := by
  obtain ⟨found, hfound, heq⟩ := Result.bind_eq_ok.1 h
  obtain rfl := Except.ok.inj heq
  cases found with
  | none => trivial
  | some own =>
    obtain ⟨v, -, -, hread⟩ := slot?_eq_some hfound
    exact Reading.fits_ofJson? (Result.eq_ok_of_toOption hread) hfinite

/-! ## 3. Sessions and datapoints -/

theorem lt_of_int64? {j : Json} {i : Int} (h : j.int64? = some i) : i < 0x8000000000000000 := by
  rw [Json.int64?.eq_def] at h
  split at h
  · split at h
    · rename_i hlt
      exact Option.some.inj h ▸ hlt
    · cases h
  · cases h

theorem BranchArm.storable_of_ofJson? {j : Json} {a : BranchArm} (h : ofJson? j = some a) :
    a.Storable := by
  rw [ofJson?.eq_def] at h
  split at h
  · obtain rfl := Option.some.inj h
    trivial
  · obtain ⟨i, hi, rfl⟩ := Option.map_eq_some_iff.1 h
    exact lt_of_int64? hi

theorem Complexity.storable_of_ofJson? {j : Json} {c : Complexity} (h : ofJson? j = some c) :
    c.Storable := by
  rw [ofJson?.eq_def] at h
  split at h
  · simp only [Option.bind_eq_bind, Option.bind_eq_some_iff] at h
    obtain ⟨covered, hcovered, whole, hwhole, heq⟩ := h
    obtain rfl := Option.some.inj heq
    exact ⟨lt_of_int64? hcovered, lt_of_int64? hwhole⟩
  · obtain ⟨n, hn, rfl⟩ := Option.map_eq_some_iff.1 h
    exact lt_of_int64? hn

theorem ColumnRange.fits_of_ofJson? {j : Json} {r : ColumnRange} (h : ofJson? j = some r) :
    r.Fits := by
  rw [ofJson?.eq_def] at h
  split at h
  · exact Reading.fits_rangeOfParts? (Result.eq_ok_of_toOption h)
  · cases h

namespace LineSession

variable {j : Json} {s : LineSession}

/-- Every part of a session was read at its place. -/
theorem slots_of_ofJson? (h : ofJson? j = some s) :
    ∃ items : List Json, slot? Json.nat32? items[0]? = .ok (some s.id) ∧
      readingSlot? items[1]? = .ok s.reading ∧
      slot? (Json.list? BranchArm.ofJson?) items[2]? = .ok s.missing ∧
      slot? (Json.list? ColumnRange.ofJson?) items[3]? = .ok s.partials ∧
      slot? Complexity.ofJson? items[4]? = .ok s.complexity := by
  obtain ⟨items, hitems⟩ := exists_of_toOption h
  rw [ofItems?] at hitems
  split at hitems
  · cases hitems
  · obtain ⟨id, hid, hparts⟩ := Result.bind_eq_ok.1 hitems
    cases id with
    | none => cases hparts
    | some id =>
      simp only [Result.bind_eq_ok] at hparts
      obtain ⟨_, hreading, _, hmissing, _, hpartials, _, hcomplexity, heq⟩ := hparts
      obtain rfl := Except.ok.inj heq
      exact ⟨items, hid, hreading, hmissing, hpartials, hcomplexity⟩

theorem id_lt_of_ofJson? (h : ofJson? j = some s) : s.id < Text.word32 := by
  obtain ⟨items, hid, -⟩ := slots_of_ofJson? h
  obtain ⟨v, -, -, hv⟩ := slot?_eq_some hid
  exact Json.lt_word32_of_nat32? hv

theorem storable_of_ofJson? (h : ofJson? j = some s) (hfinite : s.reading.Finite) :
    s.Storable := by
  obtain ⟨items, -, hreading, hmissing, hpartials, hcomplexity⟩ := slots_of_ofJson? h
  refine ⟨id_lt_of_ofJson? h, fits_readingSlot? hreading hfinite, ?_, ?_, ?_⟩
  · intro arms harms
    rw [harms] at hmissing
    exact forall_of_slot?_list? hmissing fun _ _ => BranchArm.storable_of_ofJson?
  · intro ranges hranges
    rw [hranges] at hpartials
    exact forall_of_slot?_list? hpartials fun _ _ => ColumnRange.fits_of_ofJson?
  · intro c hc
    rw [hc] at hcomplexity
    obtain ⟨v, -, -, hv⟩ := slot?_eq_some hcomplexity
    exact Complexity.storable_of_ofJson? hv

end LineSession

theorem Datapoint.fits_of_ofJson? {j : Json} {d : Datapoint} (h : ofJson? j = some d)
    (hfinite : d.reading.Finite) : d.Fits := by
  obtain ⟨items, hitems⟩ := exists_of_toOption h
  obtain ⟨session, hsession, hparts⟩ := Result.bind_eq_ok.1 hitems
  cases session with
  | none => cases hparts
  | some session =>
    simp only [Result.bind_eq_ok] at hparts
    obtain ⟨reading, hreading, kind, -, labels, hlabels, heq⟩ := hparts
    obtain rfl := Except.ok.inj heq
    refine ⟨?_, fits_readingSlot? hreading hfinite, ?_⟩
    · obtain ⟨v, -, -, hv⟩ := slot?_eq_some hsession
      exact Json.lt_word32_of_nat32? hv
    · cases labels with
      | none => exact fun _ hmem => (List.not_mem_nil hmem).elim
      | some l => exact forall_of_slot?_list? hlabels fun _ _ => Json.lt_word32_of_nat32?

/-! ## 4. Lines -/

namespace Line

variable {j : Json} {l : Line}

/-- Every part of a line was read at its place, and no sessions are none at all. -/
theorem slots_of_ofJson? (h : ofJson? j = some l) :
    ∃ (items : List Json) (sessions : Option (List LineSession)),
      readingSlot? items[0]? = .ok l.reading ∧
      slot? (Json.list? LineSession.ofJson?) items[2]? = .ok sessions ∧
      l.sessions = sessions.getD [] ∧ slot? some items[3]? = .ok l.messages ∧
      slot? Complexity.ofJson? items[4]? = .ok l.complexity ∧
      slot? (Json.list? Datapoint.ofJson?) items[5]? = .ok l.datapoints := by
  obtain ⟨items, hitems⟩ := exists_of_toOption h
  rw [ofItems?] at hitems
  split at hitems
  · cases hitems
  · simp only [Result.bind_eq_ok] at hitems
    obtain ⟨_, hreading, _, -, sessions, hsessions, _, hmessages, _, hcomplexity, _, hdatapoints,
      heq⟩ := hitems
    obtain rfl := Except.ok.inj heq
    exact ⟨items, sessions, hreading, hsessions, rfl, hmessages, hcomplexity, hdatapoints⟩

theorem forall_sessions_of_ofJson? (h : ofJson? j = some l) {p : LineSession → Prop}
    (hread : ∀ v s, LineSession.ofJson? v = some s → p s) : ∀ s ∈ l.sessions, p s := by
  obtain ⟨items, sessions, -, hsessions, heq, -⟩ := slots_of_ofJson? h
  rw [heq]
  cases sessions with
  | none => exact fun _ hmem => (List.not_mem_nil hmem).elim
  | some own => exact forall_of_slot?_list? hsessions hread

theorem id_lt_of_ofJson? (h : ofJson? j = some l) : ∀ s ∈ l.sessions, s.id < Text.word32 :=
  forall_sessions_of_ofJson? h fun _ _ => LineSession.id_lt_of_ofJson?

/-- All readings are finite, those of sessions and datapoints too. -/
structure Finite (l : Line) : Prop where
  reading : l.reading.Finite
  sessions : ∀ s ∈ l.sessions, s.reading.Finite
  datapoints : ∀ ds, l.datapoints = some ds → ∀ d ∈ ds, d.reading.Finite

theorem storable_of_ofJson? (h : ofJson? j = some l) (hfinite : l.Finite) : l.Storable := by
  obtain ⟨items, -, hreading, -, -, hmessages, hcomplexity, hdatapoints⟩ := slots_of_ofJson? h
  have hsessions := forall_sessions_of_ofJson? h (p := fun s => s.reading.Finite → s.Storable)
    fun _ _ => LineSession.storable_of_ofJson?
  refine ⟨fits_readingSlot? hreading hfinite.reading,
    fun s hs => hsessions s hs (hfinite.sessions s hs), ?_, ?_, ?_⟩
  · intro hnull
    rw [hnull] at hmessages
    obtain ⟨v, -, hne, hv⟩ := slot?_eq_some hmessages
    exact hne (Option.some.inj hv)
  · intro c hc
    rw [hc] at hcomplexity
    obtain ⟨v, -, -, hv⟩ := slot?_eq_some hcomplexity
    exact Complexity.storable_of_ofJson? hv
  · intro ds hds
    rw [hds] at hdatapoints
    have hread := forall_of_slot?_list? hdatapoints (p := fun d => d.reading.Finite → d.Fits)
      fun _ _ => Datapoint.fits_of_ofJson?
    exact fun d hd => hread d hd (hfinite.datapoints ds hds d hd)

/-- **Records are read back.**  A line that can be stored is read of its own record.  And what was
read of a record of whatever form, with finite readings, is read of its own record as well: lines,
sessions and datapoints. -/
theorem record_reads_back :
    (∀ l : Line, l.Storable → ofJson? l.toJson = some l) ∧
      (∀ (j : Json) (l : Line), ofJson? j = some l → l.Finite → ofJson? l.toJson = some l) ∧
      (∀ (j : Json) (s : LineSession), LineSession.ofJson? j = some s → s.reading.Finite →
        LineSession.ofJson? s.toJson = some s) ∧
      ∀ (j : Json) (d : Datapoint), Datapoint.ofJson? j = some d → d.reading.Finite →
        Datapoint.ofJson? d.toJson = some d := by
  refine ⟨fun _ => ofJson?_toJson, fun _ _ h hfinite => ?_, fun _ _ h hfinite => ?_,
    fun _ _ h hfinite => ?_⟩
  · exact ofJson?_toJson (storable_of_ofJson? h hfinite)
  · exact LineSession.ofJson?_toJson (LineSession.storable_of_ofJson? h hfinite)
  · exact Datapoint.ofJson?_toJson (Datapoint.fits_of_ofJson? h hfinite)

/-- A line with something at every place. -/
def fullLine : Line where
  reading := .ratio 1 2
  kind := some .branch
  sessions := [{
    id := 0
    reading := .hit .one
    missing := some [.index (-1), .name "0:jump"]
    partials := some [⟨some 1, none, true⟩]
    complexity := some (.pair 1 2) }, { id := 1, reading := .skipped, missing := some [] }]
  messages := some (.array [])
  complexity := some (.total 3)
  datapoints := some [⟨0, .miss, some "b", [4]⟩]

/-- A short record with numbers in texts, a ratio with blanks, and a range that is too long. -/
def legacyRecord : Json :=
  .array [.string " 2 ", .null, .array [.array [.int 0, .string "1 / 2", .null,
    .array [.array [.int 0x100000005, .string "end", .bool true, .null]]]]]

/-- What is read of it. -/
def legacyLine : Line where
  reading := .hit (.ofNat 2)
  sessions := [{ id := 0, reading := .ratio 1 2, partials := some [⟨some 5, none, true⟩] }]

theorem storable_fullLine : fullLine.Storable where
  reading := by constructor <;> decide
  sessions := by
    have hpartial : ColumnRange.Fits ⟨some 1, none, true⟩ :=
      ⟨fun n hn => Option.some.inj hn ▸ by decide, fun n hn => by cases hn⟩
    have hnone {α : Type} {p : α → Prop} : ∀ a ∈ ([] : List α), p a :=
      fun _ hmem => (List.not_mem_nil hmem).elim
    refine List.forall_mem_cons.2 ⟨⟨by decide, ⟨by decide, by decide⟩, ?_, ?_, ?_⟩,
      List.forall_mem_singleton.2 ⟨by decide, trivial, ?_, ?_, ?_⟩⟩
    · rintro _ ⟨⟩
      exact List.forall_mem_cons.2 ⟨(by decide : (-1 : Int) < _), List.forall_mem_singleton.2 trivial⟩
    · rintro _ ⟨⟩
      exact List.forall_mem_singleton.2 hpartial
    · rintro _ ⟨⟩
      constructor <;> decide
    · rintro _ ⟨⟩
      exact hnone
    · rintro _ ⟨⟩
    · rintro _ ⟨⟩
  messages := by rintro ⟨⟩
  complexity := by
    rintro _ ⟨⟩
    show (3 : Int) < _
    decide
  datapoints := by
    rintro _ ⟨⟩
    exact List.forall_mem_singleton.2 ⟨by decide, trivial, by decide⟩

/-- A full line, and a record of an older form with the session in it. -/
theorem record_reads_back_fullLine :
    (fullLine.Storable ∧ ofJson? fullLine.toJson = some fullLine) ∧
      (∃ l, ofJson? legacyRecord = some l ∧ l.Finite ∧ ofJson? l.toJson = some l) ∧
      (∃ s, LineSession.ofJson? (.array [.int 7, .bool true]) = some s ∧ s.reading.Finite ∧
        LineSession.ofJson? s.toJson = some s) ∧
      ∃ d, Datapoint.ofJson? (.array [.int 7]) = some d ∧ d.reading.Finite ∧
        Datapoint.ofJson? d.toJson = some d := by
  have hread : ofJson? legacyRecord = some legacyLine := rfl
  have hfinite : legacyLine.Finite :=
    ⟨rfl, List.forall_mem_singleton.2 trivial, fun _ h => by cases h⟩
  obtain ⟨hline, hagain, hsession, hdatapoint⟩ := record_reads_back
  exact ⟨⟨storable_fullLine, hline _ storable_fullLine⟩,
    ⟨legacyLine, hread, hfinite, hagain _ _ hread hfinite⟩,
    ⟨{ id := 7, reading := .flag true }, rfl, trivial,
      hsession (.array [.int 7, .bool true]) _ rfl trivial⟩,
    ⟨⟨7, .absent, none, []⟩, rfl, trivial, hdatapoint (.array [.int 7]) _ rfl trivial⟩⟩

end Line

end CoverageLedger
