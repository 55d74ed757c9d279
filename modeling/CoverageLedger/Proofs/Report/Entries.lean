import CoverageLedger.Proofs.Line.Decoded
import CoverageLedger.Proofs.Report.Sound

/-!
# Entries of the manifest

Totals by session come from a manifest, in either of two forms, and change as sessions come and go.
Whatever was made of them so far (`Reached`), their length is above their ids, and they are read back,
as is every entry that holds them.  The list of an older manifest and an object that is sparse give
the same (`Sparse.ofJson?_iff`).
-/

namespace CoverageLedger

/-! ## 1. Totals that were read -/

namespace Totals

theorem countOfJson_lt (j : Option Json) : countOfJson j < Text.word32 := by
  have hpos : 0 < Text.word32 := by decide
  rw [countOfJson.eq_def]
  split
  · rename_i text
    cases htext : Text.nat32? text.toList with
    | none => exact hpos
    | some n => exact Text.lt_word32_of_nat32? htext
  · exact Nat.mod_lt _ hpos
  · exact hpos

theorem lt_of_complexityOfJson {j : Option Json} {i : Int} (h : complexityOfJson j = some i) :
    i < 0x8000000000000000 := by
  cases j with
  | none =>
    obtain rfl := Option.some.inj h
    decide
  | some v => exact lt_of_int64? h

theorem countsStorable_ofPlaces (place : Nat → Option Json) (diff : Option Totals) :
    CountsStorable { ofPlaces place with diff } where
  counts := by
    simp only [counts, ofPlaces, List.forall_mem_cons, countOfJson_lt, true_and]
    exact fun _ h => (List.not_mem_nil h).elim
  complexity _ := lt_of_complexityOfJson
  complexityTotal _ := lt_of_complexityOfJson

mutual

/-- Totals that were read can be read back, whatever they were given as and however deep those of
diffs lie. -/
theorem storable_of_ofArrayOrObject? : ∀ {j : Json} {t : Totals}, ofArrayOrObject? j = some t →
    t.Storable
  | .array items, t, h => by
    rw [ofArrayOrObject?] at h
    obtain rfl := Option.some.inj h
    exact .intro (countsStorable_ofPlaces _ _) fun _ hd => storable_of_diffAt 12 items hd
  | .object fields, t, h => by
    rw [ofArrayOrObject?] at h
    obtain rfl := Option.some.inj h
    exact .intro (countsStorable_ofPlaces _ _) fun _ hd => storable_of_diffField fields hd

theorem storable_of_diffAt : ∀ (n : Nat) (items : List Json) {t : Totals},
    diffAt n items = some t → t.Storable
  | 0, j :: _, _, h => storable_of_ofArrayOrObject? (j := j) h
  | n + 1, _ :: rest, _, h => storable_of_diffAt n rest h

theorem storable_of_diffField : ∀ (fields : List (String × Json)) {t : Totals},
    diffField fields = some t → t.Storable
  | (name, j) :: rest, _, h => by
    rw [diffField] at h
    split at h
    · exact storable_of_diffField rest h
    · split at h
      · exact storable_of_ofArrayOrObject? h
      · cases h

end

theorem storable_of_ofJson? {j : Json} {t : Totals} (h : ofJson? j = .ok t) : t.Storable := by
  rw [ofJson?] at h
  split at h
  · rename_i found hfound
    obtain rfl := Except.ok.inj h
    exact storable_of_ofArrayOrObject? hfound
  · cases h

end Totals

/-! ## 2. Totals by session that were read -/

namespace SessionTotals

variable {s acc : SessionTotals} {id : Nat} {items : List Json} {fields : List (String × Json)}

/-- What a place of a list does: null is passed over, and anything else gives the totals of its
number. -/
theorem ofItems?_cons {j : Json} (h : ofItems? id acc (j :: items) = .ok s) :
    (j.isNull = true ∧ ofItems? (id + 1) acc items = .ok s) ∨
      ∃ t, j.isNull = false ∧ Totals.ofJson? j = .ok t ∧
        ofItems? (id + 1) { acc with byId := acc.byId.insert id t } items = .ok s := by
  rw [ofItems?] at h
  split at h
  · exact .inl ⟨‹_›, h⟩
  · obtain ⟨t, ht, hrest⟩ := Result.bind_eq_ok.1 h
    exact .inr ⟨t, Bool.eq_false_iff.2 ‹_›, ht, hrest⟩

/-- The places of a list that are not null are totals, each under its number, and nothing else
changes. -/
theorem ofItems?_spec (h : ofItems? id acc items = .ok s) :
    s.realLength = acc.realLength ∧
      (∀ i j, items[i]? = some j → j.isNull = false →
        ∃ t, Totals.ofJson? j = .ok t ∧ s.get? (id + i) = some t) ∧
      ∀ k, (∀ i j, items[i]? = some j → j.isNull = false → k ≠ id + i) → s.get? k = acc.get? k := by
  induction items generalizing id acc with
  | nil =>
    obtain rfl := Except.ok.inj h
    exact ⟨rfl, fun _ _ hj => (by cases hj), fun _ _ => rfl⟩
  | cons item rest ih =>
    have hplace (i : Nat) : id + (i + 1) = id + 1 + i := by omega
    rcases ofItems?_cons h with ⟨hnull, hrest⟩ | ⟨t, hnull, ht, hrest⟩
    · obtain ⟨hlength, hgiven, hother⟩ := ih hrest
      refine ⟨hlength, fun i j hj hne => ?_, fun k hk => hother k fun i j hj hne => ?_⟩
      · cases i with
        | zero =>
          obtain rfl := Option.some.inj hj
          rw [hnull] at hne
          cases hne
        | succ i =>
          rw [hplace]
          exact hgiven i j hj hne
      · rw [← hplace]
        exact hk (i + 1) j hj hne
    · obtain ⟨hlength, hgiven, hother⟩ := ih hrest
      have hinsert (k : Nat) : ({ acc with byId := acc.byId.insert id t } : SessionTotals).get? k =
          if k = id then some t else acc.get? k := Table.get?_insert acc.byId id k t
      refine ⟨hlength, fun i j hj hne => ?_, fun k hk => ?_⟩
      · cases i with
        | zero =>
          obtain rfl := Option.some.inj hj
          -- later places have greater numbers
          refine ⟨t, ht, (hother id fun i _ _ _ => by omega).trans ?_⟩
          rw [hinsert, if_pos rfl]
        | succ i =>
          rw [hplace]
          exact hgiven i j hj hne
      · rw [hother k fun i j hj hne => by rw [← hplace]; exact hk (i + 1) j hj hne, hinsert,
          if_neg (by simpa using hk 0 item rfl hnull)]

/-- A list is read when its places are. -/
theorem exists_ofItems? (h : ∀ j ∈ items, j.isNull = false → ∃ t, Totals.ofJson? j = .ok t) (id : Nat)
    (acc : SessionTotals) : ∃ s, ofItems? id acc items = .ok s := by
  induction items generalizing id acc with
  | nil => exact ⟨acc, rfl⟩
  | cons item rest ih =>
    have hrest := fun j hj => h j (List.mem_cons_of_mem item hj)
    rw [ofItems?]
    split
    · exact ih hrest (id + 1) acc
    · obtain ⟨t, ht⟩ := h item List.mem_cons_self (Bool.eq_false_iff.2 ‹_›)
      rw [ht]
      exact ih hrest (id + 1) _

/-- What a field of an object does. -/
theorem ofFields?_cons {key : String} {j : Json} (h : ofFields? acc ((key, j) :: fields) = .ok s) :
    (j.isNull = true ∧ ofFields? acc fields = .ok s) ∨
      ∃ id t, id < Text.word32 ∧ Totals.ofJson? j = .ok t ∧
        ofFields? (acc.insert id t) fields = .ok s := by
  rw [ofFields?] at h
  split at h
  · exact .inl ⟨‹_›, h⟩
  · split at h
    · cases h
    · rename_i id hid
      obtain ⟨t, ht, hrest⟩ := Result.bind_eq_ok.1 h
      exact .inr ⟨id, t, Text.lt_word32_of_nat32? hid, ht, hrest⟩

theorem Storable.insert (h : s.Storable) {t : Totals} (hid : id < Text.word32) (ht : t.Storable) :
    (s.insert id t).Storable :=
  forall_get?_insert h ⟨hid, ht⟩

/-- Every field that is not null was read as totals, which are read back. -/
theorem ofFields?_sound (h : ofFields? acc fields = .ok s) (hbound : acc.Bounded)
    (hstorable : acc.Storable) :
    s.Bounded ∧ s.Storable ∧ ∀ f ∈ fields, f.2.isNull = false → ∃ t, Totals.ofJson? f.2 = .ok t := by
  induction fields generalizing acc with
  | nil =>
    obtain rfl := Except.ok.inj h
    exact ⟨hbound, hstorable, fun _ hf => (List.not_mem_nil hf).elim⟩
  | cons f rest ih =>
    rcases ofFields?_cons h with ⟨hnull, hrest⟩ | ⟨id, t, hid, ht, hrest⟩
    · obtain ⟨hb, hs, hread⟩ := ih hrest hbound hstorable
      refine ⟨hb, hs, List.forall_mem_cons.2 ⟨fun hne => ?_, hread⟩⟩
      rw [hnull] at hne
      cases hne
    · obtain ⟨hb, hs, hread⟩ := ih hrest (hbound.insert id t)
        (hstorable.insert hid (Totals.storable_of_ofJson? ht))
      exact ⟨hb, hs, List.forall_mem_cons.2 ⟨fun _ => ⟨t, ht⟩, hread⟩⟩

theorem storable_empty : Storable {} := fun _ _ h => by cases h

/-- Of every form, totals by session are read so that they can be read back. -/
theorem ofJson?_sound {j : Json} (h : ofJson? j = .ok s)
    (hlist : ∀ items, j = .array items → items.length < Text.word32) : s.Bounded ∧ s.Storable := by
  cases j with
  | null =>
    obtain rfl := Except.ok.inj h
    exact ⟨.empty, storable_empty⟩
  | array items =>
    have hlength := hlist items rfl
    obtain ⟨hreal, hgiven, hother⟩ := ofItems?_spec h
    -- totals stand under the number of a place
    have hplace {id : Nat} {t : Totals} (ht : s.get? id = some t) :
        ∃ j, items[id]? = some j ∧ Totals.ofJson? j = .ok t := by
      by_cases hin : ∃ j, items[id]? = some j ∧ j.isNull = false
      · obtain ⟨j, hj, hne⟩ := hin
        obtain ⟨u, hu, hget⟩ := hgiven id j hj hne
        rw [Nat.zero_add, ht] at hget
        exact ⟨j, hj, Option.some.inj hget ▸ hu⟩
      · rw [hother id fun i j hj hne heq => hin ⟨j, by rwa [heq, Nat.zero_add], hne⟩] at ht
        cases ht
    have hid {id : Nat} {t : Totals} (ht : s.get? id = some t) : id < items.length := by
      obtain ⟨j, hj, -⟩ := hplace ht
      exact (List.getElem?_eq_some_iff.1 hj).1
    refine ⟨⟨by rwa [hreal], fun id t ht => ?_⟩, fun id t ht => ⟨Nat.lt_trans (hid ht) hlength, ?_⟩⟩
    · rw [hreal]
      exact Nat.le_trans (Nat.min_le_left _ _) (hid ht)
    · obtain ⟨j, -, hread⟩ := hplace ht
      exact Totals.storable_of_ofJson? hread
  | object fields =>
    obtain ⟨found, hfound, hdeclared⟩ := Result.bind_eq_ok.1 h
    obtain ⟨hb, hs, -⟩ := ofFields?_sound hfound .empty storable_empty
    have hpos : 0 < Text.word32 := by decide
    split at hdeclared
    · rename_i n _
      obtain rfl := Except.ok.inj hdeclared
      exact ⟨⟨Nat.max_lt.2 ⟨hb.length, Nat.mod_lt n hpos⟩, fun id t ht =>
        Nat.le_trans (hb.above id t ht) (Nat.le_max_left _ _)⟩, hs⟩
    · obtain rfl := Except.ok.inj hdeclared
      exact ⟨hb, hs⟩
  | _ => cases h

/-! ## 3. Both forms -/

/-- An object that is sparse where a list has nulls, and declares the length of the list. -/
structure Sparse (items : List Json) (fields : List (String × Json)) : Prop where
  length : ∃ info, (Json.object fields).field? "meta" = some info ∧
    info.field? "real_length" = some (.nat items.length)
  entries : ∀ key j, key ≠ "meta" → j.isNull = false →
    ((key, j) ∈ fields ↔ ∃ id : Nat, key = toString id ∧ items[id]? = some j)

theorem Sparse.declared (h : Sparse items fields) :
    declaredLength? ((Json.object fields).field? "meta") = some items.length := by
  obtain ⟨info, hinfo, hlength⟩ := h.length
  rw [declaredLength?, hinfo, Option.bind_some, hlength]
  rfl

theorem Sparse.ofJson?_object_of_array (h : Sparse items fields) (hlength : items.length < Text.word32)
    (hread : ofJson? (.array items) = .ok s) : ofJson? (.object fields) = .ok s := by
  obtain ⟨hreal, hgiven, hother⟩ := ofItems?_spec hread
  obtain ⟨hbound, hstorable⟩ := ofJson?_sound hread fun _ heq => Json.array.inj heq ▸ hlength
  refine ofJson?_object hbound (fun f hf hmeta => ?_) (fun id t ht => ?_) (by rw [h.declared, hreal])
  · cases hnull : f.2.isNull with
    | true => exact .inl hnull
    | false =>
      obtain ⟨id, hkey, hitem⟩ := (h.entries f.1 f.2 hmeta hnull).1 hf
      obtain ⟨t, ht, hget⟩ := hgiven id f.2 hitem hnull
      rw [Nat.zero_add] at hget
      exact .inr ⟨id, t, hget, (hstorable id t hget).1, hkey, ht⟩
  · -- totals that stand under an id were at its place in the list
    by_cases hin : ∃ j, items[id]? = some j ∧ j.isNull = false
    · obtain ⟨j, hj, hne⟩ := hin
      exact ⟨(toString id, j), (h.entries _ j (toString_ne_meta id) hne).2 ⟨id, rfl, hj⟩, hne, rfl⟩
    · rw [hother id fun i j hj hne heq => hin ⟨j, by rwa [heq, Nat.zero_add], hne⟩] at ht
      cases ht

/-- A list and an object with the same entries are read alike. -/
theorem Sparse.ofJson?_iff (h : Sparse items fields) (hlength : items.length < Text.word32)
    (s : SessionTotals) : ofJson? (.array items) = .ok s ↔ ofJson? (.object fields) = .ok s := by
  refine ⟨h.ofJson?_object_of_array hlength, fun hread => ?_⟩
  obtain ⟨found, hfound, -⟩ := Result.bind_eq_ok.1 hread
  obtain ⟨-, -, htotals⟩ := ofFields?_sound hfound .empty storable_empty
  have hitems : ∀ j ∈ items, j.isNull = false → ∃ t, Totals.ofJson? j = .ok t := by
    intro j hj hne
    obtain ⟨id, hid⟩ := List.mem_iff_getElem?.1 hj
    have hfield := (h.entries _ j (toString_ne_meta id) hne).2 ⟨id, rfl, hid⟩
    exact htotals (toString id, j)
      (List.mem_filter.2 ⟨hfield, by simpa using toString_ne_meta id⟩) hne
  obtain ⟨own, hown⟩ := exists_ofItems? hitems 0 { realLength := items.length }
  have hsame := h.ofJson?_object_of_array hlength hown
  rw [hread] at hsame
  rw [Except.ok.inj hsame]
  exact hown

/-! ## 4. What becomes of them -/

/-- Totals by session that were read of either form and changed since.  No id is the last one of 32
bits. -/
inductive Reached : SessionTotals → Prop
  | read {j : Json} {s : SessionTotals} (h : ofJson? j = .ok s)
      (hlist : ∀ items, j = .array items → items.length < Text.word32)
      (hids : ∀ id t, s.get? id = some t → id + 1 < Text.word32) : Reached s
  | insert {s : SessionTotals} (h : Reached s) {id : Nat} {t : Totals} (hid : id + 1 < Text.word32)
      (ht : t.Storable) : Reached (s.insert id t)
  | erase {s : SessionTotals} (h : Reached s) (id : Nat) : Reached (s.erase id)
  | changeId {s : SessionTotals} (h : Reached s) (old : Nat) {new : Nat}
      (hnew : new + 1 < Text.word32) : Reached (s.changeId old new)

/-- Ids are not the last one, and totals are read back. -/
def Kept (s : SessionTotals) : Prop :=
  ∀ id t, s.get? id = some t → id + 1 < Text.word32 ∧ t.Storable

theorem Kept.insert (h : s.Kept) {t : Totals} (hid : id + 1 < Text.word32) (ht : t.Storable) :
    (s.insert id t).Kept :=
  forall_get?_insert h ⟨hid, ht⟩

theorem Kept.erase (h : s.Kept) (id : Nat) : (s.erase id).Kept := forall_get?_erase h id

/-- The length stays above the ids, whatever happens. -/
theorem Reached.sound (h : s.Reached) : s.Bounded ∧ s.Kept := by
  induction h with
  | read h hlist hids =>
    obtain ⟨hbound, hstorable⟩ := ofJson?_sound h hlist
    exact ⟨hbound, fun id t ht => ⟨hids id t ht, (hstorable id t ht).2⟩⟩
  | @insert s _ id t hid ht ih => exact ⟨ih.1.insert id t, ih.2.insert hid ht⟩
  | erase _ id ih => exact ⟨ih.1.erase id, ih.2.erase id⟩
  | @changeId s _ old new hnew ih =>
    refine ⟨ih.1.changeId old new, ?_⟩
    rw [SessionTotals.changeId]
    split
    · rename_i t ht
      exact (ih.2.erase old).insert hnew (ih.2 old t ht).2
    · exact ih.2

theorem Reached.lt_realLength (h : s.Reached) {t : Totals} (ht : s.get? id = some t) :
    id < s.realLength := by
  obtain ⟨hbound, hkept⟩ := h.sound
  have habove := hbound.above id t ht
  have hlast := (hkept id t ht).1
  omega

theorem Kept.storable (h : s.Kept) : s.Storable := fun id t ht =>
  ⟨Nat.lt_of_succ_lt (h id t ht).1, (h id t ht).2⟩

/-- **Entries are read back in every state.**  Totals by session that were read of a manifest and
changed since have a length above all their ids.  They are read back, and so is every entry that
holds them, whatever its other totals are.  A list and the sparse object with the same entries and
length are read alike. -/
theorem entries_read_back :
    (∀ s : SessionTotals, s.Reached →
      (∀ id t, s.get? id = some t → id < s.realLength) ∧ ofJson? s.toJson = .ok s ∧
      ∀ e : FileEntry, e.sessionTotals = s → e.totals.Storable →
        (∀ t, e.diffTotals = some t → t.Storable) → FileEntry.ofJson? e.toJson = .ok e) ∧
    ∀ (items : List Json) (fields : List (String × Json)), items.length < Text.word32 →
      Sparse items fields →
      ∀ s, ofJson? (.array items) = .ok s ↔ ofJson? (.object fields) = .ok s := by
  refine ⟨fun s h => ?_, fun items fields hlength h => h.ofJson?_iff hlength⟩
  obtain ⟨hbound, hkept⟩ := h.sound
  refine ⟨fun id t => h.lt_realLength, ofJson?_toJson hkept.storable hbound, ?_⟩
  rintro e rfl htotals hdiff
  exact FileEntry.ofJson?_toJson ⟨htotals, hkept.storable, hdiff⟩ hbound

/-- Totals with those of a diff, which has the totals of a diff itself. -/
def deepTotals : Totals :=
  { lines := 2, hits := 1, misses := 1, coverage := some "50.00000"
    diff := some { lines := 1, complexity := none, diff := some {} } }

theorem storable_deepTotals : deepTotals.Storable := by
  have hzero : ∀ i, some (0 : Int) = some i → i < 0x8000000000000000 := by
    rintro i ⟨⟩
    decide
  refine .intro ⟨by decide, hzero, hzero⟩ ?_
  rintro _ ⟨⟩
  refine .intro ⟨by decide, fun _ h => (by cases h), hzero⟩ ?_
  rintro _ ⟨⟩
  exact .intro ⟨by decide, hzero, hzero⟩ fun _ h => by cases h

/-- A list with short totals, no totals, and named ones. -/
def olderList : List Json :=
  [.array [.int 1, .string "3"], .null, .object [("n", .int 2), ("diff", .array [])]]

def olderFields : List (String × Json) :=
  [("2", .object [("n", .int 2), ("diff", .array [])]), ("1", .null),
    ("meta", .object [("real_length", .int 3)]), ("0", .array [.int 1, .string "3"])]

/-- What is read of both. -/
def olderTotals : SessionTotals where
  realLength := 3
  byId := .ofList [(0, { files := 1, lines := 3 }),
    (2, { lines := 2, complexity := none, complexityTotal := none, diff := some {} })]

theorem sparse_olderFields : Sparse olderList olderFields where
  length := ⟨_, rfl, rfl⟩
  entries := by
    intro key j hmeta hnull
    constructor
    · intro hmem
      simp only [olderFields, List.mem_cons, List.not_mem_nil, or_false, Prod.mk.injEq] at hmem
      rcases hmem with ⟨rfl, rfl⟩ | ⟨-, rfl⟩ | ⟨rfl, -⟩ | ⟨rfl, rfl⟩
      · exact ⟨2, rfl, rfl⟩
      · cases hnull
      · exact absurd rfl hmeta
      · exact ⟨0, rfl, rfl⟩
    · rintro ⟨id, rfl, hid⟩
      match id, hid with
      | 0, hid =>
        obtain rfl := Option.some.inj hid
        exact List.mem_of_getElem? (i := 3) rfl
      | 1, hid =>
        obtain rfl := Option.some.inj hid
        cases hnull
      | 2, hid =>
        obtain rfl := Option.some.inj hid
        exact List.mem_cons_self

theorem reached_olderTotals : olderTotals.Reached := by
  have hread : ofJson? (.array olderList) = .ok olderTotals := rfl
  refine .read hread (fun _ heq => Json.array.inj heq ▸ by decide) fun id t ht => ?_
  have hmem := (olderTotals.byId.get?_eq_some_iff).1 ht
  have hall : ∀ e ∈ olderTotals.byId.entries, e.1 + 1 < Text.word32 := by decide
  exact hall _ hmem

/-- Totals that were read of a list, and had an id added, one taken away and one changed. -/
theorem entries_read_back_olderList :
    olderList.length < Text.word32 ∧ Sparse olderList olderFields ∧
      ofJson? (.object olderFields) = .ok olderTotals ∧
      ∃ s : SessionTotals, s.Reached ∧ s.ids = [1, 5] ∧ 5 < s.realLength ∧ ofJson? s.toJson = .ok s ∧
        deepTotals.Storable ∧
        FileEntry.ofJson? (FileEntry.toJson ⟨4, deepTotals, s, some deepTotals⟩) =
          .ok ⟨4, deepTotals, s, some deepTotals⟩ := by
  have hlength : olderList.length < Text.word32 := by decide
  have hlist : ofJson? (.array olderList) = .ok olderTotals := rfl
  have hreached : (((olderTotals.insert 5 deepTotals).erase 0).changeId 2 1).Reached :=
    ((reached_olderTotals.insert (by decide) storable_deepTotals).erase 0).changeId 2 (by decide)
  obtain ⟨hstates, hforms⟩ := entries_read_back
  obtain ⟨habove, hback, hentry⟩ := hstates _ hreached
  refine ⟨hlength, sparse_olderFields, (hforms _ _ hlength sparse_olderFields _).1 hlist, _, hreached,
    by decide, habove 5 deepTotals rfl, hback, storable_deepTotals, ?_⟩
  exact hentry ⟨4, deepTotals, _, some deepTotals⟩ rfl storable_deepTotals
    fun t ht => Option.some.inj ht ▸ storable_deepTotals

end SessionTotals

end CoverageLedger
