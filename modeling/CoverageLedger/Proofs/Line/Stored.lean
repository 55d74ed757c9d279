import CoverageLedger.Line.Record
import CoverageLedger.Proofs.Decimal.Binary64
import CoverageLedger.Proofs.Json.Documents
import CoverageLedger.Proofs.Json.Records

/-!
# Lines in archives

A line is read back from its record.  What has to hold of it for that is `Line.Storable`: whole
numbers are no larger than their fields allow, counts are finite and are classified as
`Reading.ofNumber` does, and messages are not null.  For the text of a record, whole numbers must not
be too small either, and messages are a value in normal form (`Line.Fits`).
-/

namespace CoverageLedger

open Json (normal_ofList normal_ofOption)

/-- The integers of 64 bits with sign. -/
def FitsInt64 (i : Int) : Prop := -0x8000000000000000 ≤ i ∧ i < 0x8000000000000000

/-! ## 1. Places of a record -/

section slot

variable {α : Type} {read : Json → Option α} {write : α → Json}

theorem slot?_of_ne_null {j : Json} (h : j ≠ .null) :
    slot? read (some j) = jsonResult ((read j).map some) := by
  rw [slot?.eq_def]
  split
  · rename_i heq
    cases heq
  · rename_i heq
    exact absurd (Option.some.inj heq) h
  · rename_i heq
    rw [Option.some.inj heq]

theorem slot?_ofOption {o : Option α} (h : ∀ a, o = some a → read (write a) = some a)
    (hnull : ∀ a, write a ≠ .null) : slot? read (some (Json.ofOption write o)) = .ok o := by
  cases o with
  | none => rfl
  | some a =>
    show slot? read (some (write a)) = _
    rw [slot?_of_ne_null (hnull a), h a rfl]
    rfl

/-- A null that was left out at the end reads like one that was written. -/
theorem slot?_dropLastWhile (l : List Json) (i : Nat) :
    slot? read ((Text.dropLastWhile Json.isNull l)[i]?) = slot? read l[i]? := by
  obtain ⟨nulls, hl, hnulls⟩ := Text.exists_eq_dropLastWhile_append Json.isNull l
  generalize Text.dropLastWhile Json.isNull l = kept at hl
  subst hl
  by_cases hi : i < kept.length
  · rw [List.getElem?_append_left hi]
  · rw [List.getElem?_append_right (by omega), List.getElem?_eq_none (by omega)]
    cases hj : nulls[i - kept.length]? with
    | none => rfl
    | some j =>
      have hnull := hnulls j (List.mem_of_getElem? hj)
      cases j <;> first | rfl | cases hnull

end slot

/-! ## 2. Readings -/

/-- Bounds of 32 bits. -/
def ColumnRange.Fits (r : ColumnRange) : Prop :=
  (∀ n, r.first = some n → n < Text.word32) ∧ ∀ n, r.last = some n → n < Text.word32

namespace Reading

/-- Counts and shares are finite and stand where `ofNumber` puts them. -/
def Fits : Reading → Prop
  | .hit x => x.isFinite = true ∧ ofNumber x = .hit x
  | .fraction x => x.isFinite = true ∧ ofNumber x = .fraction x
  | .ratio taken total => taken < Text.word32 ∧ total < Text.word32
  | .ranges l => ∀ r ∈ l, r.Fits
  | _ => True

variable {x : Binary64}

theorem one_le_of_ofNumber (hfinite : x.isFinite = true) (h : ofNumber x = .hit x) :
    x.negative = false ∧ Binary64.one.rank ≤ x.rank := by
  have hlt : x.rank < Binary64.infiniteRank := by simpa [Binary64.isFinite] using hfinite
  have hnan : x.isNaN = false := Binary64.isNaN_of_le (Nat.le_of_lt hlt)
  rw [ofNumber] at h
  split at h
  · cases h
  · rename_i hnegative
    split at h
    · cases h
    · rename_i hzero
      split at h
      · cases h
      · rename_i hone
        have hsign : x.negative = false := by
          simpa [Binary64.isNegative, hzero, hnan] using hnegative
        have hx : x = ⟨false, x.rank⟩ := by rw [← hsign]
        have hrank := Binary64.lt_of_rank (Nat.le_of_lt hlt) Binary64.one_le_infinite
        refine ⟨hsign, ?_⟩
        rw [hx] at hone
        -- a number that is neither zero, negative nor below one is at least one
        have hplace : (⟨false, x.rank⟩ : Binary64).lt ⟨false, Binary64.one.rank⟩ = false :=
          Bool.eq_false_iff.2 hone
        rw [hrank, decide_eq_false_iff_not] at hplace
        omega

theorem ofJson?_shareToJson (hfinite : x.isFinite = true) :
    ofJson? (shareToJson x) = .ok (ofNumber x) := by
  rw [shareToJson, if_pos hfinite, ofJson?]

theorem ofJson?_numberToJson (hfinite : x.isFinite = true) (h : ofNumber x = .hit x) :
    ofJson? (numberToJson x) = .ok (.hit x) := by
  obtain ⟨hsign, hone⟩ := one_le_of_ofNumber hfinite h
  rw [numberToJson]
  split
  · rename_i i hi
    split
    · rename_i hsmall
      rw [ofJson?, Binary64.ofInt_of_toInt? hsign hone hi hsmall, h]
    · rw [ofJson?_shareToJson hfinite, h]
  · rw [ofJson?_shareToJson hfinite, h]

theorem ofText?_ratioText {taken total : Nat} (htaken : taken < Text.word32)
    (htotal : total < Text.word32) : ofText? (ratioText taken total) = .ok (.ratio taken total) := by
  have hslash : '/' ∉ Nat.toDigits 10 taken := fun h =>
    absurd (Text.isDigit_of_mem_toDigits h) (by decide)
  have hchars : (ratioText taken total).toList =
      Nat.toDigits 10 taken ++ '/' :: Nat.toDigits 10 total := by
    rw [ratioText, String.toList_append, String.toList_append, Text.toList_toString,
      Text.toList_toString, List.append_assoc]
    rfl
  rw [ofText?, hchars, Text.splitOnce_append hslash]
  dsimp only
  rw [Text.trim_toDigits, Text.trim_toDigits, Text.nat32?_toDigits htaken,
    Text.nat32?_toDigits htotal]
  rfl

theorem boundOfJson_ofOption {bound : Option Nat} (h : ∀ n, bound = some n → n < Text.word32) :
    ColumnRange.boundOfJson (Json.ofOption .nat bound) = bound := by
  cases bound with
  | none => rfl
  | some n =>
    show some (n % Text.word32) = some n
    rw [Nat.mod_eq_of_lt (h n rfl)]

theorem truthy_ofInt_toNat (hit : Bool) : (ofNumber (.ofInt hit.toNat)).truthy = hit := by
  cases hit <;> decide

theorem rangeOfParts?_toJson {r : ColumnRange} (h : r.Fits) :
    rangeOfParts? [Json.ofOption .nat r.first, Json.ofOption .nat r.last, .nat r.hit.toNat] =
      .ok r := by
  rw [rangeOfParts?, Json.nat, ofJson?]
  show Except.ok (ColumnRange.mk _ _ _) = _
  rw [boundOfJson_ofOption h.1, boundOfJson_ofOption h.2, truthy_ofInt_toNat]

theorem rangesOfItems?_toJson {l : List ColumnRange} (h : ∀ r ∈ l, r.Fits) :
    rangesOfItems? (l.map ColumnRange.toJson) = .ok l := by
  induction l with
  | nil => rfl
  | cons r rest ih =>
    rw [List.map_cons, ColumnRange.toJson, rangesOfItems?,
      rangeOfParts?_toJson (h r List.mem_cons_self), ih fun s hs => h s (List.mem_cons_of_mem r hs)]
    rfl

/-- **A reading is read back.** -/
theorem ofJson?_toJson {r : Reading} (h : r.Fits) : ofJson? r.toJson = .ok r := by
  cases r with
  | absent => rfl
  | skipped => rfl
  | miss => rfl
  | flag b => rfl
  | hit x => exact ofJson?_numberToJson h.1 h.2
  | fraction x => exact (ofJson?_shareToJson h.1).trans (by rw [h.2])
  | ratio taken total =>
    rw [toJson, ofJson?]
    exact ofText?_ratioText h.1 h.2
  | ranges l =>
    rw [toJson, ofJson?, rangesOfItems?_toJson h]
    rfl

theorem normal_toJson (r : Reading) : r.toJson.normal = r.toJson := by
  have hshare (x : Binary64) : (shareToJson x).normal = shareToJson x := by
    rw [shareToJson]
    split <;> rfl
  cases r with
  | hit x =>
    rw [toJson, numberToJson]
    split
    · split
      · rfl
      · exact hshare x
    · exact hshare x
  | fraction x => exact hshare x
  | ranges l =>
    apply normal_ofList
    rintro ⟨first, last, hit⟩ -
    cases first <;> cases last <;> rfl
  | absent => rfl
  | skipped => rfl
  | miss => rfl
  | flag b => rfl
  | ratio taken total => rfl

end Reading

theorem ColumnRange.ofJson?_toJson {r : ColumnRange} (h : r.Fits) :
    ColumnRange.ofJson? r.toJson = some r := by
  rw [toJson, ofJson?, Reading.rangeOfParts?_toJson h]
  rfl

theorem readingSlot?_toJson {r : Reading} (h : r.Fits) : readingSlot? (some r.toJson) = .ok r := by
  have hread : (Reading.ofJson? r.toJson).toOption = some r := by
    rw [Reading.ofJson?_toJson h]
    rfl
  by_cases hnull : r.toJson = .null
  · rw [hnull] at hread ⊢
    have habsent : r = .absent := (Option.some.inj hread).symm
    rw [habsent]
    rfl
  · rw [readingSlot?, slot?_of_ne_null hnull, hread]
    rfl

/-! ## 3. Sessions and datapoints -/

/-- Indexes of 64 bits. -/
def BranchArm.Fits : BranchArm → Prop
  | .index i => FitsInt64 i
  | .name _ => True

/-- Indexes that are not too large for 64 bits: the reader asks for no more. -/
def BranchArm.Storable : BranchArm → Prop
  | .index i => i < 0x8000000000000000
  | .name _ => True

theorem BranchArm.Fits.storable {a : BranchArm} (h : a.Fits) : a.Storable := by
  cases a with
  | index i => exact h.2
  | name s => trivial

theorem BranchArm.ofJson?_toJson {a : BranchArm} (h : a.Storable) : ofJson? a.toJson = some a := by
  cases a with
  | index i =>
    show (Json.int64? (.int i)).map index = _
    rw [Json.int64?_int h]
    rfl
  | name s => rfl

/-- Numbers of 64 bits. -/
def Complexity.Fits : Complexity → Prop
  | .total n => FitsInt64 n
  | .pair c t => FitsInt64 c ∧ FitsInt64 t

/-- Numbers that are not too large for 64 bits. -/
def Complexity.Storable : Complexity → Prop
  | .total n => n < 0x8000000000000000
  | .pair c t => c < 0x8000000000000000 ∧ t < 0x8000000000000000

namespace Complexity

theorem Fits.storable {c : Complexity} (h : c.Fits) : c.Storable := by
  cases c with
  | total n => exact h.2
  | pair covered whole => exact ⟨h.1.2, h.2.2⟩

theorem ofJson?_toJson {c : Complexity} (h : c.Storable) : ofJson? c.toJson = some c := by
  cases c with
  | total n =>
    show (Json.int64? (.int n)).map total = _
    rw [Json.int64?_int h]
    rfl
  | pair covered whole =>
    rw [toJson, ofJson?, Json.int64?_int h.1, Json.int64?_int h.2]
    rfl

theorem toJson_ne_null (c : Complexity) : c.toJson ≠ .null := by
  cases c <;> exact fun h => by cases h

theorem normal_toJson (c : Complexity) : c.toJson.normal = c.toJson := by
  cases c <;> rfl

end Complexity

/-- Ids of 32 bits, and parts that fit. -/
structure LineSession.Fits (s : LineSession) : Prop where
  id : s.id < Text.word32
  reading : s.reading.Fits
  missing : ∀ arms, s.missing = some arms → ∀ a ∈ arms, a.Fits
  partials : ∀ ranges, s.partials = some ranges → ∀ r ∈ ranges, r.Fits
  complexity : ∀ c, s.complexity = some c → c.Fits

/-- Parts that are read back. -/
structure LineSession.Storable (s : LineSession) : Prop where
  id : s.id < Text.word32
  reading : s.reading.Fits
  missing : ∀ arms, s.missing = some arms → ∀ a ∈ arms, a.Storable
  partials : ∀ ranges, s.partials = some ranges → ∀ r ∈ ranges, r.Fits
  complexity : ∀ c, s.complexity = some c → c.Storable

theorem Json.ofList_ne_null {α : Type} (write : α → Json) (l : List α) :
    Json.ofList write l ≠ .null := fun h => by cases h

namespace LineSession

theorem Fits.storable {s : LineSession} (h : s.Fits) : s.Storable where
  id := h.id
  reading := h.reading
  missing arms harms a ha := (h.missing arms harms a ha).storable
  partials := h.partials
  complexity c hc := (h.complexity c hc).storable

theorem ofItems?_items {s : LineSession} (h : s.Storable) : ofItems? s.items = .ok s := by
  have hlen : ¬ s.items.length < 2 := by
    rw [items, List.length_append]
    exact Nat.not_lt.2 (Nat.le_add_right 2 _)
  have hid : slot? Json.nat32? s.items[0]? = .ok (some s.id) := by
    show slot? Json.nat32? (some (.nat s.id)) = _
    rw [slot?_of_ne_null (fun h => by cases h), Json.nat32?_nat h.id]
    rfl
  have hreading : readingSlot? s.items[1]? = .ok s.reading := readingSlot?_toJson h.reading
  -- the places after the second may have been left out
  have hmissing : slot? (Json.list? BranchArm.ofJson?) s.items[2]? = .ok s.missing := by
    refine (slot?_dropLastWhile _ 0).trans (slot?_ofOption (fun arms harms => ?_) fun _ => ?_)
    · exact Json.list?_ofList fun a ha => BranchArm.ofJson?_toJson (h.missing arms harms a ha)
    · exact Json.ofList_ne_null _ _
  have hpartials : slot? (Json.list? ColumnRange.ofJson?) s.items[3]? = .ok s.partials := by
    refine (slot?_dropLastWhile _ 1).trans (slot?_ofOption (fun ranges hranges => ?_) fun _ => ?_)
    · exact Json.list?_ofList fun r hr =>
        ColumnRange.ofJson?_toJson (h.partials ranges hranges r hr)
    · exact Json.ofList_ne_null _ _
  have hcomplexity : slot? Complexity.ofJson? s.items[4]? = .ok s.complexity :=
    (slot?_dropLastWhile _ 2).trans (slot?_ofOption
      (fun c hc => Complexity.ofJson?_toJson (h.complexity c hc)) Complexity.toJson_ne_null)
  rw [ofItems?, if_neg hlen, hid, hreading, hmissing, hpartials, hcomplexity]
  rfl

theorem ofJson?_toJson {s : LineSession} (h : s.Storable) : ofJson? s.toJson = some s := by
  show (ofItems? s.items).toOption = _
  rw [ofItems?_items h]
  rfl

theorem normal_toJson (s : LineSession) : s.toJson.normal = s.toJson := by
  apply Json.normal_array
  intro j hj
  rw [items, List.mem_append] at hj
  rcases hj with hj | hj
  · rcases List.mem_cons.1 hj with rfl | hj
    · rfl
    · rw [List.mem_singleton.1 hj]
      exact s.reading.normal_toJson
  · have hdropped {j : Json} {l : List Json} (h : j ∈ Text.dropLastWhile Json.isNull l) : j ∈ l :=
      List.mem_reverse.1 ((List.dropWhile_suffix _).subset (List.mem_reverse.1 h))
    rcases List.mem_cons.1 (hdropped hj) with rfl | hj
    · exact normal_ofOption fun arms _ => normal_ofList fun a _ => by cases a <;> rfl
    · rcases List.mem_cons.1 hj with rfl | hj
      · refine normal_ofOption fun ranges _ => normal_ofList fun r _ => ?_
        obtain ⟨first, last, hit⟩ := r
        cases first <;> cases last <;> rfl
      · rw [List.mem_singleton.1 hj]
        exact normal_ofOption fun c _ => c.normal_toJson

end LineSession

/-- Ids and labels of 32 bits, and a reading that fits. -/
structure Datapoint.Fits (d : Datapoint) : Prop where
  session : d.session < Text.word32
  reading : d.reading.Fits
  labels : ∀ n ∈ d.labels, n < Text.word32

namespace Datapoint

theorem ofJson?_toJson {d : Datapoint} (h : d.Fits) : ofJson? d.toJson = some d := by
  have hsession : slot? Json.nat32? (some (.nat d.session)) = .ok (some d.session) := by
    rw [slot?_of_ne_null (fun h => by cases h), Json.nat32?_nat h.session]
    rfl
  have hkind : slot? Json.string? (some (.ofOption .string d.kind)) = .ok d.kind :=
    slot?_ofOption (fun s _ => Json.string?_string s) fun _ h => by cases h
  have hlabels : slot? (Json.list? Json.nat32?) (some (.ofList .nat d.labels)) =
      .ok (some d.labels) := by
    rw [slot?_of_ne_null (Json.ofList_ne_null _ _),
      Json.list?_ofList fun n hn => Json.nat32?_nat (h.labels n hn)]
    rfl
  show (ofItems? [.nat d.session, d.reading.toJson, .ofOption .string d.kind,
    .ofList .nat d.labels]).toOption = _
  simp only [ofItems?, List.getElem?_cons_zero, List.getElem?_cons_succ, hsession,
    readingSlot?_toJson h.reading, hkind, hlabels]
  rfl

theorem normal_toJson (d : Datapoint) : d.toJson.normal = d.toJson := by
  apply Json.normal_array
  intro j hj
  simp only [List.mem_cons, List.not_mem_nil, or_false] at hj
  rcases hj with rfl | rfl | rfl | rfl
  · rfl
  · exact d.reading.normal_toJson
  · exact normal_ofOption fun _ _ => rfl
  · exact normal_ofList fun _ _ => rfl

end Datapoint

/-! ## 4. Lines -/

theorem LineKind.ofJson?_letter (k : LineKind) : LineKind.ofJson? (.string k.letter) = some k := by
  cases k <;> rfl

/-- All parts fit, and messages are a value in normal form other than null. -/
structure Line.Fits (l : Line) : Prop where
  reading : l.reading.Fits
  sessions : ∀ s ∈ l.sessions, s.Fits
  messages : ∀ j, l.messages = some j → j ≠ .null ∧ j.normal = j
  complexity : ∀ c, l.complexity = some c → c.Fits
  datapoints : ∀ ds, l.datapoints = some ds → ∀ d ∈ ds, d.Fits

/-- Parts that are read back, and messages other than null, since that would be none. -/
structure Line.Storable (l : Line) : Prop where
  reading : l.reading.Fits
  sessions : ∀ s ∈ l.sessions, s.Storable
  messages : l.messages ≠ some .null
  complexity : ∀ c, l.complexity = some c → c.Storable
  datapoints : ∀ ds, l.datapoints = some ds → ∀ d ∈ ds, d.Fits

namespace Line

variable {l : Line}

theorem Fits.storable (h : l.Fits) : l.Storable where
  reading := h.reading
  sessions s hs := (h.sessions s hs).storable
  messages hnull := (h.messages .null hnull).1 rfl
  complexity c hc := (h.complexity c hc).storable
  datapoints := h.datapoints

theorem ofJson?_toJson (h : l.Storable) : ofJson? l.toJson = some l := by
  have hkind : slot? LineKind.ofJson? (some (.ofOption (fun k => .string k.letter) l.kind)) =
      .ok l.kind :=
    slot?_ofOption (fun k _ => LineKind.ofJson?_letter k) fun _ h => by cases h
  have hsessions : slot? (Json.list? LineSession.ofJson?)
      (some (.ofList LineSession.toJson l.sessions)) = .ok (some l.sessions) := by
    rw [slot?_of_ne_null (Json.ofList_ne_null _ _),
      Json.list?_ofList fun s hs => LineSession.ofJson?_toJson (h.sessions s hs)]
    rfl
  have hmessages : slot? some (some (l.messages.getD .null)) = .ok l.messages := by
    cases hj : l.messages with
    | none => rfl
    | some j =>
      have hnull : j ≠ .null := fun heq => h.messages (hj.trans (congrArg some heq))
      show slot? some (some j) = _
      rw [slot?_of_ne_null hnull]
      rfl
  have hcomplexity : slot? Complexity.ofJson? (some (.ofOption Complexity.toJson l.complexity)) =
      .ok l.complexity :=
    slot?_ofOption (fun c hc => Complexity.ofJson?_toJson (h.complexity c hc))
      Complexity.toJson_ne_null
  have hdatapoints : slot? (Json.list? Datapoint.ofJson?)
      (some (.ofOption (.ofList Datapoint.toJson) l.datapoints)) = .ok l.datapoints := by
    refine slot?_ofOption (fun ds hds => ?_) (Json.ofList_ne_null _)
    exact Json.list?_ofList fun d hd => Datapoint.ofJson?_toJson (h.datapoints ds hds d hd)
  show (ofItems? [l.reading.toJson, .ofOption (fun k => .string k.letter) l.kind,
    .ofList LineSession.toJson l.sessions, l.messages.getD .null,
    .ofOption Complexity.toJson l.complexity,
    .ofOption (.ofList Datapoint.toJson) l.datapoints]).toOption = _
  simp only [ofItems?, List.isEmpty_cons, List.getElem?_cons_zero, List.getElem?_cons_succ,
    readingSlot?_toJson h.reading, hkind, hsessions, hmessages, hcomplexity, hdatapoints]
  rfl

theorem normal_toJson (h : l.Fits) : l.toJson.normal = l.toJson := by
  apply Json.normal_array
  intro j hj
  simp only [List.mem_cons, List.not_mem_nil, or_false] at hj
  rcases hj with rfl | rfl | rfl | rfl | rfl | rfl
  · exact l.reading.normal_toJson
  · exact normal_ofOption fun _ _ => rfl
  · exact normal_ofList fun s _ => s.normal_toJson
  · cases hj : l.messages with
    | none => rfl
    | some j => exact (h.messages j hj).2
  · exact normal_ofOption fun c _ => c.normal_toJson
  · exact normal_ofOption fun ds _ => normal_ofList fun d _ => d.normal_toJson

/-- **A line is read back from its row.** -/
theorem ofText?_text (h : l.Fits) (hread : l.toJson.Readable Json.depthLimit) :
    ofText? l.text.toList = some l := by
  rw [ofText?, text, Json.render, String.toList_ofList, Json.parse?_chars hread, Option.bind_some,
    normal_toJson h, ofJson?_toJson h.storable]

end Line

end CoverageLedger
