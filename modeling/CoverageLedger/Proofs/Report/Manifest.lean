import CoverageLedger.Proofs.Json.Accepted
import CoverageLedger.Proofs.Line.Stored
import CoverageLedger.Report.Archive

/-!
# Manifests that are read back

`Manifest.ofText?` undoes `Manifest.toJson` for manifests whose numbers lie in the ranges of their
fields.  One field is more than a number: the declared length of totals by session has to be above
their ids (`SessionTotals.Bounded`), because the reader takes the greater of both.  Values alone are
read back as soon as no number is too large for its field (`Storable`).
-/

namespace CoverageLedger

open Json (normal_ofList normal_ofOption)

/-! ## 1. Totals -/

namespace Totals

/-- Counts of 32 bits and complexities of 64. -/
structure CountsFit (t : Totals) : Prop where
  counts : ∀ n ∈ [t.files, t.lines, t.hits, t.misses, t.partials, t.branches, t.methods, t.messages,
    t.sessions], n < Text.word32
  complexity : ∀ i, t.complexity = some i → FitsInt64 i
  complexityTotal : ∀ i, t.complexityTotal = some i → FitsInt64 i

/-- The numbers fit, also in the totals of a diff. -/
inductive Fits : Totals → Prop
  | intro {t : Totals} (own : t.CountsFit) (diff : ∀ d, t.diff = some d → Fits d) : Fits t

def counts (t : Totals) : List Nat :=
  [t.files, t.lines, t.hits, t.misses, t.partials, t.branches, t.methods, t.messages, t.sessions]

/-- Totals with no complexity in them, and none of a diff. -/
theorem Fits.of_counts {t : Totals} (hcounts : ∀ n ∈ t.counts, n < Text.word32)
    (hcomplexity : t.complexity = some 0) (htotal : t.complexityTotal = some 0)
    (hdiff : t.diff = none) : t.Fits := by
  have hzero {i : Int} (hi : some 0 = some i) : FitsInt64 i := by
    obtain rfl := Option.some.inj hi
    exact ⟨by decide, by decide⟩
  refine .intro ⟨hcounts, fun i hi => hzero (hcomplexity ▸ hi),
    fun i hi => hzero (htotal ▸ hi)⟩ fun d hd => ?_
  rw [hdiff] at hd
  cases hd

/-- Counts of 32 bits, and complexities that are not too large for 64. -/
structure CountsStorable (t : Totals) : Prop where
  counts : ∀ n ∈ t.counts, n < Text.word32
  complexity : ∀ i, t.complexity = some i → i < 0x8000000000000000
  complexityTotal : ∀ i, t.complexityTotal = some i → i < 0x8000000000000000

/-- No number is too large, also in the totals of a diff. -/
inductive Storable : Totals → Prop
  | intro {t : Totals} (own : t.CountsStorable) (diff : ∀ d, t.diff = some d → Storable d) :
    Storable t

theorem Fits.storable {t : Totals} (h : t.Fits) : t.Storable := by
  induction h with
  | @intro t own diff ih =>
    exact .intro ⟨own.counts, fun i hi => (own.complexity i hi).2,
      fun i hi => (own.complexityTotal i hi).2⟩ ih

/-- The places before that of the diff. -/
def places (t : Totals) : List Json :=
  [.nat t.files, .nat t.lines, .nat t.hits, .nat t.misses, .nat t.partials,
    .ofOption .string t.coverage, .nat t.branches, .nat t.methods, .nat t.messages, .nat t.sessions,
    .ofOption .int t.complexity, .ofOption .int t.complexityTotal]

/-- The place of the diff. -/
def diffPlace : Option Totals → Json
  | some d => d.toJson
  | none => .nat 0

theorem toJson_eq (t : Totals) : t.toJson = .array (t.places ++ [diffPlace t.diff]) := by
  obtain ⟨_, _, _, _, _, _, _, _, _, _, _, _, diff⟩ := t
  cases diff with
  | none => rw [toJson]; rfl
  | some d => rw [toJson]; rfl

theorem countOfJson_nat {n : Nat} (h : n < Text.word32) :
    countOfJson (some (.nat n)) = n := by
  show n % Text.word32 = n
  exact Nat.mod_eq_of_lt h

theorem complexityOfJson_ofOption {o : Option Int}
    (h : ∀ i, o = some i → i < 0x8000000000000000) :
    complexityOfJson (some (.ofOption .int o)) = o := by
  cases o with
  | none => rfl
  | some i => exact Json.int64?_int (h i rfl)

theorem coverageOfJson_ofOption (o : Option String) :
    coverageOfJson (some (.ofOption .string o)) = o := by
  cases o <;> rfl

theorem ofPlaces_places {t : Totals} (h : t.CountsStorable) (j : Json) :
    ofPlaces (fun i => (t.places ++ [j])[i]?) = { t with diff := none } := by
  have hcounts := h.counts
  simp only [counts, List.mem_cons, List.not_mem_nil, or_false, forall_eq_or_imp, forall_eq] at hcounts
  obtain ⟨h0, h1, h2, h3, h4, h6, h7, h8, h9⟩ := hcounts
  simp only [ofPlaces, places, List.cons_append, List.getElem?_cons_zero, List.getElem?_cons_succ,
    countOfJson_nat h0, countOfJson_nat h1, countOfJson_nat h2, countOfJson_nat h3,
    countOfJson_nat h4, countOfJson_nat h6, countOfJson_nat h7, countOfJson_nat h8,
    countOfJson_nat h9, coverageOfJson_ofOption, complexityOfJson_ofOption h.complexity,
    complexityOfJson_ofOption h.complexityTotal]

theorem ofArrayOrObject?_toJson {t : Totals} (h : t.Storable) : ofArrayOrObject? t.toJson = some t := by
  induction h with
  | @intro t own diff ih =>
    have hlast : ofArrayOrObject? (diffPlace t.diff) = t.diff := by
      cases hd : t.diff with
      | none => rfl
      | some d => exact ih d hd
    have hdiff : diffAt 12 (t.places ++ [diffPlace t.diff]) = t.diff := by
      simp only [places, List.cons_append, List.nil_append, diffAt, hlast]
    rw [toJson_eq, ofArrayOrObject?, ofPlaces_places own, hdiff]
    cases t
    rfl

theorem ofJson?_toJson {t : Totals} (h : t.Storable) : ofJson? t.toJson = .ok t := by
  rw [ofJson?, ofArrayOrObject?_toJson h]

theorem toJson_ne_null (t : Totals) : t.toJson ≠ .null := by
  rw [toJson_eq]
  exact fun h => by cases h

theorem normal_toJson {t : Totals} (h : t.Fits) : t.toJson.normal = t.toJson := by
  induction h with
  | @intro t own diff ih =>
    rw [toJson_eq]
    apply Json.normal_array
    intro j hj
    rcases List.mem_append.1 hj with hj | hj
    · simp only [places, List.mem_cons, List.not_mem_nil, or_false] at hj
      rcases hj with rfl | rfl | rfl | rfl | rfl | rfl | rfl | rfl | rfl | rfl | rfl | rfl
      all_goals first
        | rfl
        | exact normal_ofOption fun _ _ => rfl
    · rw [List.mem_singleton.1 hj]
      cases hd : t.diff with
      | none => rfl
      | some d => exact ih d hd

end Totals

/-! ## 2. Totals by session -/

theorem isDigit_of_mem_toString {n : Nat} {c : Char} (h : c ∈ (toString n).toList) :
    c.isDigit = true := by
  rw [Text.toList_toString] at h
  exact Text.isDigit_of_mem_toDigits h

theorem toString_injective {m n : Nat} (h : toString m = toString n) : m = n := by
  have hdigits : Text.digits? (Nat.toDigits 10 m) = Text.digits? (Nat.toDigits 10 n) := by
    rw [← Text.toList_toString, h, Text.toList_toString]
  rw [Text.digits?_toDigits, Text.digits?_toDigits] at hdigits
  exact Option.some.inj hdigits

theorem toString_ne_meta (n : Nat) : toString n ≠ "meta" := fun h => by
  have hm : ('m' : Char).isDigit = true :=
    isDigit_of_mem_toString (n := n) (by rw [h]; decide)
  cases hm

namespace SessionTotals

/-- The declared length is a number of 32 bits above every id, as far as it can be. -/
structure Bounded (s : SessionTotals) : Prop where
  length : s.realLength < Text.word32
  above : ∀ id t, s.get? id = some t → min (id + 1) (Text.word32 - 1) ≤ s.realLength

/-- Ids of 32 bits, and totals that fit. -/
def Fits (s : SessionTotals) : Prop :=
  ∀ id t, s.get? id = some t → id < Text.word32 ∧ t.Fits

/-- Ids of 32 bits, and totals that are read back. -/
def Storable (s : SessionTotals) : Prop :=
  ∀ id t, s.get? id = some t → id < Text.word32 ∧ t.Storable

variable {s : SessionTotals}

theorem Fits.storable (h : s.Fits) : s.Storable := fun id t ht =>
  ⟨(h id t ht).1, (h id t ht).2.storable⟩

/-- The field with the declared length. -/
def metaJson (s : SessionTotals) : Json := .object [("real_length", .nat s.realLength)]

/-- The fields of the stored form. -/
def fieldTable (s : SessionTotals) : Table String Json :=
  .ofList (("meta", s.metaJson) :: s.byId.entries.map fun (id, t) => (toString id, t.toJson))

theorem toJson_eq (s : SessionTotals) : s.toJson = .ofTable s.fieldTable := rfl

theorem mem_fieldTable {key : String} {j : Json} (h : (key, j) ∈ s.fieldTable.entries) :
    key = "meta" ∧ j = s.metaJson ∨
      ∃ id t, s.get? id = some t ∧ key = toString id ∧ j = t.toJson := by
  rcases List.mem_cons.1 (Table.mem_of_mem_ofList h) with heq | hmem
  · obtain ⟨rfl, rfl⟩ := Prod.mk.inj heq
    exact .inl ⟨rfl, rfl⟩
  · obtain ⟨⟨id, t⟩, he, heq⟩ := List.mem_map.1 hmem
    obtain ⟨rfl, rfl⟩ := Prod.mk.inj heq
    exact .inr ⟨id, t, (s.byId.get?_eq_some_iff).2 he, rfl, rfl⟩

theorem get?_fieldTable_meta (s : SessionTotals) : s.fieldTable.get? "meta" = some s.metaJson := by
  have hkey : "meta" ∈ s.fieldTable.keys := by
    rw [fieldTable, Table.mem_keys_ofList]
    exact List.mem_cons_self
  obtain ⟨j, hj⟩ := (Table.mem_keys_iff _).1 hkey
  rcases mem_fieldTable ((Table.get?_eq_some_iff _).1 hj) with ⟨-, rfl⟩ | ⟨id, t, -, hid, -⟩
  · exact hj
  · exact absurd hid.symm (toString_ne_meta id)

theorem mem_fieldTable_of_get? {id : Nat} {t : Totals} (h : s.get? id = some t) :
    (toString id, t.toJson) ∈ s.fieldTable.entries := by
  have hkey : toString id ∈ s.fieldTable.keys := by
    rw [fieldTable, Table.mem_keys_ofList, List.map_cons, List.map_map]
    refine List.mem_cons_of_mem _ (List.mem_map.2 ⟨(id, t), ?_, rfl⟩)
    exact (s.byId.get?_eq_some_iff).1 h
  obtain ⟨j, hj⟩ := (Table.mem_keys_iff _).1 hkey
  have hmem := (Table.get?_eq_some_iff _).1 hj
  rcases mem_fieldTable hmem with ⟨hmeta, -⟩ | ⟨id', t', ht', hid, rfl⟩
  · exact absurd hmeta (toString_ne_meta id)
  · obtain rfl := toString_injective hid
    rw [h] at ht'
    rw [Option.some.inj ht']
    exact hmem

/-- A field is null, or it stands for the totals of an id. -/
def Holds (s : SessionTotals) (f : String × Json) : Prop :=
  f.2.isNull = true ∨ ∃ id t, s.get? id = some t ∧ id < Text.word32 ∧ f.1 = toString id ∧
    Totals.ofJson? f.2 = .ok t

/-- A field is that of an id, and not null. -/
def GivesId (id : Nat) (f : String × Json) : Prop := f.2.isNull = false ∧ f.1 = toString id

instance (id : Nat) (f : String × Json) : Decidable (GivesId id f) :=
  inferInstanceAs (Decidable (_ ∧ _))

theorem get?_insert (s : SessionTotals) (id : Nat) (t : Totals) (k : Nat) :
    (s.insert id t).get? k = if k = id then some t else s.get? k :=
  Table.get?_insert s.byId id k t

theorem get?_erase (s : SessionTotals) (id k : Nat) :
    (s.erase id).get? k = if k = id then none else s.get? k :=
  Table.get?_erase s.byId id k

/-- What holds of all totals and of the new ones holds afterwards. -/
theorem forall_get?_insert {p : Nat → Totals → Prop} (h : ∀ k u, s.get? k = some u → p k u)
    {id : Nat} {t : Totals} (ht : p id t) : ∀ k u, (s.insert id t).get? k = some u → p k u := by
  intro k u hk
  rw [get?_insert] at hk
  split at hk
  · rename_i heq
    rw [heq, ← Option.some.inj hk]
    exact ht
  · exact h k u hk

theorem forall_get?_erase {p : Nat → Totals → Prop} (h : ∀ k u, s.get? k = some u → p k u)
    (id : Nat) : ∀ k u, (s.erase id).get? k = some u → p k u := by
  intro k u hk
  rw [get?_erase] at hk
  split at hk
  · cases hk
  · exact h k u hk

/-- Reading fields that stand for totals by session puts these totals under their ids, in whatever
order the fields are. -/
theorem ofFields?_spec (hbound : s.Bounded) {fields : List (String × Json)}
    (hfields : ∀ f ∈ fields, s.Holds f) {acc : SessionTotals}
    (hacc : acc.realLength ≤ s.realLength) :
    ∃ result, ofFields? acc fields = .ok result ∧ result.realLength ≤ s.realLength ∧
      ∀ id, result.get? id =
        if ∃ f ∈ fields, GivesId id f then s.get? id else acc.get? id := by
  induction fields generalizing acc with
  | nil =>
    refine ⟨acc, rfl, hacc, fun id => ?_⟩
    rw [if_neg]
    rintro ⟨f, hf, -⟩
    cases hf
  | cons f rest ih =>
    have hrest : ∀ g ∈ rest, s.Holds g := fun g hg => hfields g (List.mem_cons_of_mem f hg)
    obtain ⟨key, j⟩ := f
    cases hnull : j.isNull with
    | true =>
      obtain ⟨result, hresult, hlength, hget⟩ := ih hrest hacc
      refine ⟨result, ?_, hlength, fun id => ?_⟩
      · rw [ofFields?, hnull]
        exact hresult
      · -- a null is passed over
        have hskip : ¬ GivesId id (key, j) := fun h => by
          rw [GivesId, hnull] at h
          cases h.1
        rw [hget]
        simp only [List.exists_mem_cons_iff, hskip, false_or]
    | false =>
      obtain ⟨id, t, ht, hid, rfl, hread⟩ := (hfields _ List.mem_cons_self).resolve_left
        (by rw [hnull]; exact Bool.false_ne_true)
      -- the list of totals never grows beyond the one that was written
      have hinsert : (acc.insert id t).realLength ≤ s.realLength :=
        Nat.max_le.2 ⟨hacc, hbound.above id t ht⟩
      obtain ⟨result, hresult, hlength, hget⟩ := ih hrest hinsert
      refine ⟨result, ?_, hlength, fun k => ?_⟩
      · rw [ofFields?, hnull, Text.toList_toString, Text.nat32?_toDigits hid]
        dsimp only
        rw [hread]
        exact hresult
      · rw [hget, get?_insert]
        by_cases hk : k = id
        · subst hk
          -- a later field of the same id would store the same totals
          rw [if_pos rfl, ← ht, ite_self, if_pos ⟨_, List.mem_cons_self, hnull, rfl⟩]
        · have hother : ¬ GivesId k (toString id, j) := fun h => hk (toString_injective h.2).symm
          rw [if_neg hk]
          simp only [List.exists_mem_cons_iff, hother, false_or]

theorem field?_ofTable (t : Table String Json) (name : String) :
    (Json.ofTable t).field? name = t.get? name := by
  rw [Json.ofTable, Json.field?, ← List.head?_filter, List.filter_reverse,
    Table.filter_entries_key]
  cases t.get? name <;> rfl

/-- Fields that stand for totals by session, with all of them and the declared length among them, are
read as these totals. -/
theorem ofJson?_object (hbound : s.Bounded) {fields : List (String × Json)}
    (hfields : ∀ f ∈ fields, f.1 ≠ "meta" → s.Holds f)
    (hall : ∀ id t, s.get? id = some t → ∃ f ∈ fields, GivesId id f)
    (hdeclared : declaredLength? ((Json.object fields).field? "meta") = some s.realLength) :
    ofJson? (.object fields) = .ok s := by
  have hothers : ∀ f ∈ fields.filter (fun f => f.1 != "meta"), s.Holds f := fun f hf => by
    obtain ⟨hmem, hmeta⟩ := List.mem_filter.1 hf
    exact hfields f hmem (by simpa using hmeta)
  have hempty : ({} : SessionTotals).realLength ≤ s.realLength := Nat.zero_le _
  obtain ⟨result, hresult, hlength, hget⟩ := ofFields?_spec hbound hothers hempty
  have hsame : result.byId = s.byId := by
    refine Table.ext_get? fun id => (hget id).trans ?_
    split
    · rfl
    · rename_i hno
      -- an id with totals has a field
      cases ht : s.byId.get? id with
      | none => rfl
      | some t =>
        obtain ⟨f, hf, hgives⟩ := hall id t ht
        have hmeta : f.1 ≠ "meta" := by
          rw [hgives.2]
          exact toString_ne_meta id
        exact absurd ⟨f, List.mem_filter.2 ⟨hf, by simpa using hmeta⟩, hgives⟩ hno
  rw [ofJson?, hresult]
  simp only [bind, Except.bind, hdeclared]
  rw [Nat.mod_eq_of_lt hbound.length, Nat.max_eq_right hlength, hsame]
  rfl

/-- **Totals by session are read back.** -/
theorem ofJson?_toJson (hs : s.Storable) (hbound : s.Bounded) : ofJson? s.toJson = .ok s := by
  rw [toJson_eq, Json.ofTable]
  refine ofJson?_object hbound (fun f hf hne => ?_) (fun id t ht => ?_) ?_
  · obtain ⟨key, j⟩ := f
    rcases mem_fieldTable hf with ⟨hmeta, -⟩ | ⟨id, t, ht, rfl, rfl⟩
    · exact absurd hmeta hne
    · exact .inr ⟨id, t, ht, (hs id t ht).1, rfl, Totals.ofJson?_toJson (hs id t ht).2⟩
  · refine ⟨_, mem_fieldTable_of_get? ht, ?_, rfl⟩
    rw [Totals.toJson_eq]
    rfl
  · have hmeta : (Json.object s.fieldTable.entries).field? "meta" = some s.metaJson :=
      (field?_ofTable s.fieldTable "meta").trans s.get?_fieldTable_meta
    rw [hmeta]
    rfl

theorem normal_toJson (hfits : s.Fits) : s.toJson.normal = s.toJson := by
  rw [toJson_eq]
  apply Json.normal_ofTable
  intro k j hj
  rcases mem_fieldTable ((Table.get?_eq_some_iff _).1 hj) with ⟨-, rfl⟩ | ⟨id, t, ht, -, rfl⟩
  · rfl
  · exact Totals.normal_toJson (hfits id t ht).2

end SessionTotals

/-! ## 3. Entries of files -/

/-- All totals of an entry can be read back. -/
structure FileEntry.Fits (e : FileEntry) : Prop where
  totals : e.totals.Fits
  sessionTotals : e.sessionTotals.Fits
  diffTotals : ∀ t, e.diffTotals = some t → t.Fits

/-- All totals of an entry are read back. -/
structure FileEntry.Storable (e : FileEntry) : Prop where
  totals : e.totals.Storable
  sessionTotals : e.sessionTotals.Storable
  diffTotals : ∀ t, e.diffTotals = some t → t.Storable

namespace FileEntry

variable {e : FileEntry}

theorem Fits.storable (h : e.Fits) : e.Storable where
  totals := h.totals.storable
  sessionTotals := h.sessionTotals.storable
  diffTotals t ht := (h.diffTotals t ht).storable

theorem ofJson?_toJson (he : e.Storable) (hbound : e.sessionTotals.Bounded) :
    ofJson? e.toJson = .ok e := by
  have htotals : totalsOfJson? e.totals.toJson = .ok e.totals := by
    rw [totalsOfJson?.eq_def]
    split
    · rename_i hnull
      exact absurd hnull (Totals.toJson_ne_null _)
    · exact Totals.ofJson?_toJson he.totals
  have hdiff : diffTotalsOfJson? (.ofOption Totals.toJson e.diffTotals) = e.diffTotals := by
    cases hd : e.diffTotals with
    | none => rfl
    | some t => exact Totals.ofArrayOrObject?_toJson (he.diffTotals t hd)
  show ofJson? (.array [.nat e.slot, e.totals.toJson, e.sessionTotals.toJson,
    .ofOption Totals.toJson e.diffTotals]) = _
  simp only [ofJson?, List.getElem?_cons_zero, List.getElem?_cons_succ, Option.getD_some,
    Json.nat?_nat, htotals, SessionTotals.ofJson?_toJson he.sessionTotals hbound, hdiff]
  rfl

theorem normal_toJson (hfits : e.Fits) : e.toJson.normal = e.toJson := by
  apply Json.normal_array
  intro j hj
  simp only [List.mem_cons, List.not_mem_nil, or_false] at hj
  rcases hj with rfl | rfl | rfl | rfl
  · rfl
  · exact Totals.normal_toJson hfits.totals
  · exact SessionTotals.normal_toJson hfits.sessionTotals
  · exact normal_ofOption fun t ht => Totals.normal_toJson (hfits.diffTotals t ht)

theorem entryOfJson?_toJson (hfits : e.Fits) (hbound : e.sessionTotals.Bounded) :
    Manifest.entryOfJson? e.toJson = some e := by
  rw [Manifest.entryOfJson?, normal_toJson hfits, ofJson?_toJson hfits.storable hbound]
  rfl

end FileEntry

/-! ## 4. Sessions -/

/-- Totals and the time fit, and free values are in normal form; the environment is not null. -/
structure Session.Fits (s : Session) : Prop where
  totals : ∀ t, s.totals = some t → t.Fits
  time : ∀ i, s.time = some i → FitsInt64 i
  env : ∀ j, s.env = some j → j ≠ .null ∧ j.normal = j
  extras : ∀ k j, s.extras.get? k = some j → j.normal = j

namespace Session

/-- The values of the fields of a session record. -/
def fieldValues (s : Session) : List Json :=
  [.ofOption Totals.toJson s.totals, .ofOption .int s.time, .ofOption .string s.archive,
    .ofList .string s.flags, .ofOption .string s.provider, .ofOption .string s.build,
    .ofOption .string s.name, .ofOption .string s.job, .ofOption .string s.url,
    .ofOption .string s.state, s.env.getD .null, .string s.kind.name, .ofTable s.extras]

theorem toJson_eq (s : Session) : s.toJson = .object (fieldNames.zip s.fieldValues) := rfl

theorem nodup_fieldNames : fieldNames.Nodup := by decide

theorem optional?_string (o : Option String) :
    Json.optional? Json.string? (.ofOption .string o) = some o :=
  Json.optional?_ofOption (fun s _ => Json.string?_string s) fun _ h => by cases h

theorem optional?_totals {o : Option Totals} (h : ∀ t, o = some t → t.Fits) :
    Json.optional? totalsOfJson? (.ofOption Totals.toJson o) = some o := by
  refine Json.optional?_ofOption (fun t ht => ?_) Totals.toJson_ne_null
  rw [totalsOfJson?, Totals.ofJson?_toJson (h t ht).storable]
  rfl

theorem textOfJson_ofOption (o : Option String) : textOfJson (.ofOption .string o) = o := by
  cases o <;> rfl

theorem timeOfJson_ofOption {o : Option Int} (h : ∀ i, o = some i → FitsInt64 i) :
    timeOfJson (.ofOption .int o) = o := by
  cases o with
  | none => rfl
  | some i =>
    show ((Json.int i).int64?).or _ = _
    rw [Json.int64?_int (h i rfl).2]
    rfl

/-- **A session is read back.** -/
theorem ofJson?_toJson {s : Session} (h : s.Fits) : ofJson? s.toJson = some s := by
  have hflags : Json.optional? (Json.list? Json.string?) (.ofList .string s.flags) =
      some (some s.flags) := by
    show (Json.list? Json.string? (.ofList .string s.flags)).map some = _
    rw [Json.list?_ofList fun f _ => Json.string?_string f]
    rfl
  have henv : Json.optional? (fun j => some j.normal) (s.env.getD .null) = some s.env := by
    cases hj : s.env with
    | none => rfl
    | some j =>
      obtain ⟨hnull, hnormal⟩ := h.env j hj
      show Json.optional? _ j = _
      rw [Json.optional?.eq_def]
      split
      · exact absurd rfl hnull
      · rw [hnormal]
        rfl
  have hkind : Json.optional? SessionKind.ofJson? (.string s.kind.name) = some (some s.kind) := by
    cases s.kind <;> rfl
  have hextras : Json.optional? (Json.table? fun j => some j.normal) (.ofTable s.extras) =
      some (some s.extras) := by
    have hid : s.extras.map (fun _ j => id j) = s.extras := by
      refine Table.ext_get? fun k => ?_
      rw [Table.get?_map]
      exact Option.map_id_apply
    have hread : Json.table? (fun j => some j.normal)
        (.ofTable (s.extras.map fun _ j => id j)) = some s.extras :=
      Json.table?_ofTable fun k j hj => congrArg some (h.extras k j hj)
    rw [hid] at hread
    show (Json.table? _ (.ofTable s.extras)).map some = _
    rw [hread]
    rfl
  rw [ofJson?, toJson_eq, Json.record?_zip nodup_fieldNames rfl]
  simp only [fieldValues, List.map_cons, List.map_nil, bind, Option.bind_some,
    List.getElem?_cons_zero, List.getElem?_cons_succ, Option.join_some, Option.getD_some,
    optional?_totals h.totals, hflags, henv, hkind, hextras, optional?_string,
    textOfJson_ofOption, timeOfJson_ofOption h.time, pure]

end Session

/-! ## 5. Objects under numbers -/

theorem numericKey?_toString {n : Nat} (h : n < Text.word32) :
    Json.numericKey? (toString n) = some n := by
  rw [Json.numericKey?, Text.toList_toString]
  split
  · rename_i heq
    have hn := Text.digits?_toDigits n
    rw [heq] at hn
    exact hn
  · -- only zero is written with a zero in front
    rename_i hzero heq
    by_cases hn : n = 0
    · rw [hn, Nat.toDigits_zero] at heq
      obtain ⟨-, rfl⟩ := List.cons.inj heq
      exact absurd rfl hzero
    · exact absurd (congrArg List.head? heq) (Text.head?_toDigits_ne_zero hn)
  · rw [Text.digits?_toDigits, Option.filter_some, if_pos (by simpa using h)]

theorem numberedTable?_numberedObject {α : Type} {read : Json → Option α} {write : α → Json}
    {t : Table Nat α} (h : ∀ n a, t.get? n = some a → n < Text.word32 ∧ read (write a) = some a) :
    Json.numberedTable? read (Manifest.numberedObject write t) = some t := by
  have hall : t.entries.mapM ((fun f : String × Json =>
      (Json.numericKey? f.1).bind fun n => (read f.2).map fun v => (n, v)) ∘
      fun e : Nat × α => (toString e.1, write e.2)) = some (t.entries.map id) := by
    apply Json.mapM_eq_some
    intro e he
    obtain ⟨hkey, hread⟩ := h e.1 e.2 (t.get?_eq_some_iff.2 he)
    show (Json.numericKey? (toString e.1)).bind _ = _
    rw [numericKey?_toString hkey, Option.bind_some]
    show (read (write e.2)).map _ = _
    rw [hread]
    rfl
  show Option.map Table.ofList
    (List.mapM _ (t.entries.map fun e : Nat × α => (toString e.1, write e.2))) = _
  rw [List.mapM_map, hall, List.map_id, Option.map_some, Table.ofList_entries]

/-! ## 6. What the forms ask for -/

namespace Json.Form

theorem coversFields_of_forall {form : Form} {fields : List (String × Json)}
    (h : ∀ f ∈ fields, form.ReadsName f.1 ∧ ∃ part, form.field? f.1 = some part ∧ part.Covers f.2) :
    form.CoversFields fields := by
  induction fields with
  | nil => trivial
  | cons f rest ih =>
    exact ⟨h f List.mem_cons_self, ih fun g hg => h g (List.mem_cons_of_mem f hg)⟩

/-- Fields that a form names are read as a whole. -/
theorem covers_ofNames {names : List String} {fields : List (String × Json)}
    (h : ∀ f ∈ fields, f.1 ∈ names) : (Form.ofNames names).Covers (.object fields) := by
  apply coversFields_of_forall
  intro f hf
  have hlookup {name : String} {names : List String} (hname : name ∈ names) :
      (names.map fun name => (name, Form.whole)).lookup name = some .whole := by
    induction names with
    | nil => cases hname
    | cons other rest ih =>
      rw [List.map_cons, List.lookup_cons]
      by_cases heq : name = other
      · rw [heq, beq_self_eq_true]
      · rw [beq_eq_false_iff_ne.2 heq]
        exact ih ((List.mem_cons.1 hname).resolve_left heq)
  exact ⟨trivial, .whole, hlookup (h f hf), covers_whole f.2⟩

/-- Numbers are names that are read as they are written. -/
theorem covers_numbered {α : Type} {each : Form} {write : α → Json} {t : Table Nat α}
    (h : ∀ n a, t.get? n = some a → each.Covers (write a)) :
    (Form.numbered each).Covers (Manifest.numberedObject write t) := by
  apply coversFields_of_forall
  intro f hf
  obtain ⟨⟨n, a⟩, hmem, rfl⟩ := List.mem_map.1 hf
  exact ⟨fun c hc => isDigit_of_mem_toString hc, each, rfl, h n a (t.get?_eq_some_iff.2 hmem)⟩

end Json.Form

theorem Session.covers_form (s : Session) : Session.form.Covers s.toJson :=
  Json.Form.covers_ofNames fun f (hf : f ∈ fieldNames.zip s.fieldValues) =>
    (List.of_mem_zip hf).1

/-! ## 7. Manifests -/

/-- Entries and sessions can be read back, and the ids of sessions have 32 bits. -/
structure Manifest.Fits (m : Manifest) : Prop where
  files : ∀ name e, m.files.get? name = some e → e.Fits ∧ e.sessionTotals.Bounded
  sessions : ∀ id s, m.sessions.get? id = some s → id < Text.word32 ∧ s.Fits

namespace Manifest

variable {m : Manifest}

theorem nodup_fieldNames : fieldNames.Nodup := by decide

theorem ofJson?_fields (files sessions : Json) :
    ofJson? (.object [("files", files), ("sessions", sessions)]) =
      (Json.table? entryOfJson? files).bind fun files =>
        (Json.numberedTable? Session.ofJson? sessions).map fun sessions => { files, sessions } := by
  have hrecord : (Json.object (fieldNames.zip [files, sessions])).record? fieldNames =
      some [some files, some sessions] := Json.record?_zip nodup_fieldNames rfl
  show ofJson? (.object (fieldNames.zip [files, sessions])) = _
  rw [ofJson?, hrecord]
  simp only [bind, Option.bind_some, List.getElem?_cons_zero, List.getElem?_cons_succ,
    Option.join_some, Option.map_eq_bind]
  rfl

theorem ofJson?_toJson (h : m.Fits) : ofJson? m.toJson = some m := by
  have hfiles : Json.table? entryOfJson? (.ofTable (m.files.map fun _ e => e.toJson)) =
      some m.files :=
    Json.table?_ofTable fun name e he =>
      FileEntry.entryOfJson?_toJson (h.files name e he).1 (h.files name e he).2
  have hsessions : Json.numberedTable? Session.ofJson? (numberedObject Session.toJson m.sessions) =
      some m.sessions :=
    numberedTable?_numberedObject fun id s hs =>
      ⟨(h.sessions id s hs).1, Session.ofJson?_toJson (h.sessions id s hs).2⟩
  rw [toJson, ofJson?_fields, hfiles, Option.bind_some, hsessions]
  rfl

theorem covers_form (m : Manifest) : form.Covers m.toJson := by
  apply Json.Form.coversFields_of_forall
  intro f hf
  rcases List.mem_cons.1 hf with rfl | hf
  · exact ⟨trivial, .whole, rfl, Json.Form.covers_whole _⟩
  · rw [List.mem_singleton.1 hf]
    exact ⟨trivial, .numbered Session.form, rfl,
      Json.Form.covers_numbered fun _ s _ => s.covers_form⟩

/-- **A manifest is read back from its text.** -/
theorem ofText?_render (h : m.Fits) (hread : m.toJson.Readable Json.depthLimit) :
    ofText? m.toJson.render = some m := by
  rw [ofText?, Json.render, String.toList_ofList, Json.parseAs?_chars hread m.covers_form,
    Option.bind_some, ofJson?_toJson h]

end Manifest

/-! ## 8. Manifests that are accepted -/

/-- No other number is read of the digits of a number. -/
theorem eq_of_numericKey?_toString {n k : Nat} (h : Json.numericKey? (toString n) = some k) :
    k = n := by
  have hdigits := Text.digits?_toDigits n
  rw [Json.numericKey?, Text.toList_toString] at h
  split at h
  · rename_i heq
    rw [heq] at hdigits
    exact (Option.some.inj h).symm.trans (Option.some.inj hdigits)
  · cases h
  · rw [hdigits] at h
    exact (Option.some.inj (Option.filter_eq_some_iff.1 h).1).symm

/-- A manifest reads its sessions under their numbers. -/
theorem numberedTable?_accepted {α β : Type} {write : α → Json} {read : Json → Option β}
    {t : Table Nat α} {u : Table Nat β} {j : Json}
    (hj : Json.ReadAs (Manifest.numberedObject write t) j)
    (h : Json.numberedTable? read j = some u) :
    u.keys = t.keys ∧ ∀ n a, t.get? n = some a →
      ∃ b, u.get? n = some b ∧ Json.Accepts write read a b := by
  cases hj with | object hown =>
  obtain ⟨items, hitems, rfl⟩ := Option.map_eq_some_iff.1 h
  exact Json.ofList_accepted (fun _ _ => eq_of_numericKey?_toString) hown hitems

/-- Totals whose numbers fit are readable, where they are not of a diff. -/
theorem Totals.readable_toJson {t : Totals} (h : t.CountsFit) (hdiff : t.diff = none) :
    t.toJson.Readable 2 := by
  have hcount {n : Nat} (hn : n < Text.word32) : (Json.nat n).Readable 1 := by
    unfold Text.word32 at hn
    exact ⟨by omega, by omega⟩
  have htext (o : Option String) : (Json.ofOption .string o).Readable 1 := by
    cases o <;> exact trivial
  have hint {o : Option Int} (ho : ∀ i, o = some i → FitsInt64 i) :
      (Json.ofOption .int o).Readable 1 := by
    cases o with
    | none => exact trivial
    | some i =>
      obtain ⟨hmin, hmax⟩ := ho i rfl
      exact ⟨hmin, by omega⟩
  have hcounts := h.counts
  simp only [List.mem_cons, List.not_mem_nil, or_false, forall_eq_or_imp, forall_eq] at hcounts
  obtain ⟨h0, h1, h2, h3, h4, h6, h7, h8, h9⟩ := hcounts
  rw [toJson_eq, hdiff]
  exact ⟨by decide, hcount h0, hcount h1, hcount h2, hcount h3, hcount h4, htext _, hcount h6,
    hcount h7, hcount h8, hcount h9, hint h.complexity, hint h.complexityTotal, hcount (by decide),
    trivial⟩

/-- Fields that belong together have the same names. -/
theorem Json.exists_zip_of_fields {rel : Json → Json → Prop} {names : List String}
    {values : List Json} {own : List (String × Json)} (hlength : names.length = values.length)
    (h : List.Forall₂ (Field rel) (names.zip values) own) :
    ∃ found, List.Forall₂ rel values found ∧ own = names.zip found := by
  induction names generalizing values own with
  | nil =>
    obtain rfl := List.length_eq_zero_iff.1 hlength.symm
    exact ⟨[], .nil, List.forall₂_nil_left_iff.1 h⟩
  | cons name names ih =>
    cases values with
    | nil => cases hlength
    | cons value values =>
      obtain ⟨_, own, hfield, hrest, rfl⟩ := List.forall₂_cons_left_iff.1 h
      cases hfield with | intro _ hvalue =>
      obtain ⟨found, hfound, rfl⟩ := ih (Nat.succ.inj hlength) hrest
      exact ⟨_ :: found, .cons hvalue hfound, rfl⟩

/-- The totals of a session are read of its first field. -/
theorem Session.totals_of_ofJson? {j : Json} {fields : List (Option Json)} {s : Session}
    (hrecord : j.record? fieldNames = some fields) (h : ofJson? j = some s) :
    Json.optional? totalsOfJson? (((fields[0]?).join).getD .null) = some s.totals := by
  simp only [ofJson?, hrecord, bind, Option.bind_some, Option.bind_eq_some_iff, pure,
    Option.some.injEq] at h
  obtain ⟨totals, htotals, _, -, _, -, _, -, _, -, _, -, _, -, _, -, _, -, _, -, rfl⟩ := h
  exact htotals

/-- The totals of a session are there again, whatever is read of its other fields. -/
theorem Session.totals_of_accepts {s s' : Session}
    (h : Json.Accepts Session.toJson Session.ofJson? s s')
    (htotals : ∀ t, s.totals = some t → t.CountsFit ∧ t.diff = none) : s'.totals = s.totals := by
  have hfits : ∀ t, s.totals = some t → t.Fits := by
    intro t ht
    obtain ⟨hcounts, hdiff⟩ := htotals t ht
    exact .intro hcounts fun d hd => by rw [hdiff] at hd; cases hd
  have hreadable : (Json.ofOption Totals.toJson s.totals).Readable 2 := by
    cases ht : s.totals with
    | none => exact trivial
    | some t => exact Totals.readable_toJson (htotals t ht).1 (htotals t ht).2
  obtain ⟨j, hj, hread⟩ := h
  rw [toJson_eq] at hj
  cases hj with | object hown =>
  obtain ⟨found, hfound, rfl⟩ := Json.exists_zip_of_fields rfl hown
  have hrecord : (Json.object (fieldNames.zip found)).record? fieldNames =
      some (found.map some) := Json.record?_zip nodup_fieldNames hfound.length_eq
  cases hfound with | cons hfirst _ =>
  have hown := totals_of_ofJson? hrecord hread
  rw [hfirst.eq_of_readable hreadable] at hown
  exact Option.some.inj (hown.symm.trans (optional?_totals hfits))

theorem FileEntry.nat?_of_ofJson? {j : Json} {rest : List Json} {e : FileEntry}
    (h : ofJson? (.array (j :: rest)) = .ok e) : j.nat? = some e.slot := by
  rw [ofJson?] at h
  simp only [List.getElem?_cons_zero, Option.getD_some] at h
  cases hslot : j.nat? with
  | none =>
    rw [hslot] at h
    cases h
  | some slot =>
    rw [hslot] at h
    simp only [bind, Except.bind] at h
    split at h
    · cases h
    · split at h
      · cases h
      · rw [← Except.ok.inj h]

/-- The slot of an entry is there again, whatever is read of its totals. -/
theorem FileEntry.slot_of_accepts {e e' : FileEntry}
    (h : Json.Accepts FileEntry.toJson Manifest.entryOfJson? e e') : e'.slot = e.slot := by
  obtain ⟨j, hj, hread⟩ := h
  cases hj with | array hitems =>
  obtain ⟨place, rest, hplace, -, rfl⟩ := List.forall₂_cons_left_iff.1 hitems
  have hnat : place.normal.nat? = some e'.slot := by
    rw [Manifest.entryOfJson?, Json.normal, Json.normalItems] at hread
    cases hok : ofJson? (.array (place.normal :: Json.normalItems rest)) with
    | error fault =>
      rw [hok] at hread
      cases hread
    | ok own =>
      rw [hok] at hread
      obtain rfl := Option.some.inj hread
      exact nat?_of_ofJson? hok
  -- a slot that became another number is none
  cases hplace with
  | int => exact (Option.some.inj hnat).symm
  | wide => cases hnat

namespace Manifest

variable {m found : Manifest}

/-- The parts of a manifest whose text is accepted. -/
theorem parts_accepted (h : ofText? m.toJson.render = some found) :
    ∃ files sessions,
      Json.ReadAs (.ofTable (m.files.map fun _ e => e.toJson)) files ∧
      Json.table? entryOfJson? files = some found.files ∧
      Json.ReadAs (numberedObject Session.toJson m.sessions) sessions ∧
      Json.numberedTable? Session.ofJson? sessions = some found.sessions := by
  rw [ofText?, Json.render, String.toList_ofList] at h
  obtain ⟨j, hj, hread⟩ := Option.bind_eq_some_iff.1 h
  cases Json.parseAs?_accepted m.covers_form hj with | object hown =>
  obtain ⟨_, rest, hfiles, hrest, rfl⟩ := List.forall₂_cons_left_iff.1 hown
  obtain ⟨_, rest, hsessions, hnil, rfl⟩ := List.forall₂_cons_left_iff.1 hrest
  obtain rfl := List.forall₂_nil_left_iff.1 hnil
  cases hfiles with | intro _ hfiles =>
  cases hsessions with | intro _ hsessions =>
  rw [ofJson?_fields] at hread
  obtain ⟨files, hfilesRead, hread⟩ := Option.bind_eq_some_iff.1 hread
  obtain ⟨sessions, hsessionsRead, rfl⟩ := Option.map_eq_some_iff.1 hread
  exact ⟨_, _, hfiles, hfilesRead, hsessions, hsessionsRead⟩

/-- **A manifest whose text is accepted** has its entries, when these can be read back. -/
theorem files_accepted
    (hentries : ∀ name e, m.files.get? name = some e →
      e.Fits ∧ e.sessionTotals.Bounded ∧ e.toJson.Readable (Json.depthLimit - 2))
    (h : ofText? m.toJson.render = some found) : found.files = m.files := by
  obtain ⟨files, -, hfiles, hfilesRead, -, -⟩ := parts_accepted h
  have hreadable : (Json.ofTable (m.files.map fun _ e => e.toJson)).Readable
      (Json.depthLimit - 1) := by
    refine ⟨by decide, Json.readableFields_iff.2 fun f hf => ?_⟩
    obtain ⟨⟨name, e⟩, hmem, rfl⟩ := List.mem_map.1 hf
    exact (hentries name e ((Table.get?_eq_some_iff _).2 hmem)).2.2
  have htable : Json.table? entryOfJson? (.ofTable (m.files.map fun _ e => e.toJson)) =
      some m.files :=
    Json.table?_ofTable fun name e he =>
      FileEntry.entryOfJson?_toJson (hentries name e he).1 (hentries name e he).2.1
  rw [hfiles.eq_of_readable hreadable, htable] at hfilesRead
  exact (Option.some.inj hfilesRead).symm

/-- **A manifest whose text is accepted** has its sessions under their ids, and each of them was read
for the one that was written. -/
theorem sessions_accepted (h : ofText? m.toJson.render = some found) :
    found.sessions.keys = m.sessions.keys ∧ ∀ id s, m.sessions.get? id = some s →
      ∃ s', found.sessions.get? id = some s' ∧
        Json.Accepts Session.toJson Session.ofJson? s s' := by
  obtain ⟨_, _, -, -, hsessions, hread⟩ := parts_accepted h
  exact numberedTable?_accepted hsessions hread

/-- **A manifest whose text is accepted** has its names with their slots, whatever is read of the
totals. -/
theorem slots_accepted (h : ofText? m.toJson.render = some found) :
    found.files.keys = m.files.keys ∧
      ∀ name, (found.files.get? name).map (·.slot) = (m.files.get? name).map (·.slot) := by
  obtain ⟨files, -, hfiles, hfilesRead, -⟩ := parts_accepted h
  obtain ⟨hkeys, hfound⟩ := Json.table?_accepted hfiles hfilesRead
  refine ⟨hkeys, fun name => ?_⟩
  cases he : m.files.get? name with
  | none =>
    rw [Table.get?_eq_none_iff, ← hkeys, ← Table.get?_eq_none_iff] at he
    rw [he]
  | some e =>
    obtain ⟨e', he', haccepts⟩ := hfound name e he
    rw [he', Option.map_some, Option.map_some, e.slot_of_accepts haccepts]

end Manifest

end CoverageLedger
