import CoverageLedger.Line.Merge
import CoverageLedger.Proofs.Decimal.ReadBack
import CoverageLedger.Proofs.Json.Documents
import CoverageLedger.Proofs.Line.AnyOrder
import CoverageLedger.Proofs.Line.Stored

/-!
# Joining datapoints

Two lists of datapoints are joined by sorting them together and dropping what equals its neighbour.
So a datapoint is left once if nothing else is sorted to its place.  The place of a datapoint
depends on the text of its reading, and readings of every form are told apart by their texts
(`Reading.text_inj`): the reader of texts undoes numbers and ratios, the reader of documents all
others.

It depends on the kind as well, but one that is absent counts as the empty one there.  Datapoints
that differ in nothing else share a place, though they are not equal, and so one of them can be left
more than once, in an order that depends on which list comes first (`joined_kinds_repeat`).  Apart
from them the result is the union of both lists (`mergeLists_is_union`).
-/

namespace CoverageLedger

open Json (IsNumberChar)

namespace Reading

/-! ## 1. Numbers as texts -/

variable {r s : Reading} {x : Binary64} {cs : List Char}

/-- A text that is read as a number is read as the reading of that number. -/
theorem ofText?_of_read? (h : ∀ c ∈ cs, IsNumberChar c) (hread : Decimal.read? cs = some x) :
    ofText? (String.ofList cs) = .ok (ofNumber x) := by
  have hslash : '/' ∉ cs := fun hc => by
    rcases h _ hc with hdigit | hother
    · cases hdigit
    · exact absurd hother (by decide)
  have htrim : Text.trim cs = cs := by
    apply Text.trim_eq_self
    · intro c hc
      exact (h c (List.mem_of_head? hc)).not_isBlank
    · intro c hc
      exact (h c (List.mem_of_getLast? hc)).not_isBlank
  rw [ofText?, String.toList_ofList, Text.splitOnce_of_not_mem hslash]
  dsimp only
  rw [htrim, hread]
  rfl

theorem isNumberChar_int (i : Int) : ∀ c ∈ (Json.int i).chars, IsNumberChar c :=
  fun _ hc => Json.isNumberChar_intChars (fun _ hd => absurd hd List.not_mem_nil) hc

theorem isNumberChar_shareToJson (hfinite : x.isFinite = true) :
    ∀ c ∈ (shareToJson x).chars, IsNumberChar c := by
  intro c hc
  rw [shareToJson, if_pos hfinite, Json.chars, Json.floatChars, if_pos hfinite,
    List.mem_append] at hc
  rcases hc with hc | hc
  · split at hc
    · rw [List.mem_singleton.1 hc]
      exact .inr (by decide)
    · cases hc
  · exact Json.isNumberChar_render hc

theorem read?_shareToJson (hfinite : x.isFinite = true) :
    Decimal.read? (shareToJson x).chars = some x := by
  rw [shareToJson, if_pos hfinite, Json.chars, Decimal.read?_floatChars hfinite]

theorem isNumberChar_numberToJson (hfinite : x.isFinite = true) :
    ∀ c ∈ (numberToJson x).chars, IsNumberChar c := by
  rw [numberToJson]
  split
  · split
    · exact isNumberChar_int _
    · exact isNumberChar_shareToJson hfinite
  · exact isNumberChar_shareToJson hfinite

/-- A count is read back from its text, whether it is written whole or not. -/
theorem read?_numberToJson (hfinite : x.isFinite = true) (h : ofNumber x = .hit x) :
    Decimal.read? (numberToJson x).chars = some x := by
  obtain ⟨hsign, hone⟩ := one_le_of_ofNumber hfinite h
  rw [numberToJson]
  split
  · rename_i i hi
    split
    · -- written whole: the digits are read as the number nearest to their value, which is `x`
      rename_i hsmall
      obtain ⟨n, k, rfl, -⟩ := Binary64.mantissa_of_toInt? hsign hone hi hsmall
      have hvalue : Binary64.ofNat n = x := Binary64.ofInt_of_toInt? hsign hone hi hsmall
      rw [← hvalue]
      exact Decimal.read?_toDigits n
    · exact read?_shareToJson hfinite
  · exact read?_shareToJson hfinite

/-! ## 2. Readings as texts -/

/-- The text of a number or a ratio. -/
def IsPlain (text : String) : Prop := ∀ c ∈ text.toList, IsNumberChar c ∨ c = '/'

theorem text_eq (h : r.isRatio = false) : r.text = String.ofList r.toJson.chars := by
  cases r with
  | ratio => cases h
  | _ => rfl

theorem isPlain_ratioText (taken total : Nat) : IsPlain (ratioText taken total) := by
  intro c hc
  rw [ratioText, String.toList_append, String.toList_append, Text.toList_toString,
    Text.toList_toString, List.mem_append, List.mem_append] at hc
  rcases hc with (hc | hc) | hc
  · exact .inl (Json.isNumberChar_toDigits hc)
  · exact .inr (List.mem_singleton.1 hc)
  · exact .inl (Json.isNumberChar_toDigits hc)

theorem isPlain_of_chars (h : ∀ c ∈ cs, IsNumberChar c) : IsPlain (String.ofList cs) := by
  intro c hc
  rw [String.toList_ofList] at hc
  exact .inl (h c hc)

theorem not_isPlain {c : Char} (hc : ¬ (IsNumberChar c ∨ c = '/')) (cs : List Char) :
    ¬ IsPlain (String.ofList (c :: cs)) := by
  intro h
  apply hc
  apply h
  rw [String.toList_ofList]
  exact List.mem_cons_self

/-- The reader of readings that are given as text undoes the texts of numbers and ratios. -/
theorem ofText?_text (h : r.Fits) (hplain : IsPlain r.text) : ofText? r.text = .ok r := by
  -- what the other texts begin with stands in no number and no ratio
  have hnull : ¬ (IsNumberChar 'n' ∨ 'n' = '/') := by unfold IsNumberChar; decide
  have htrue : ¬ (IsNumberChar 't' ∨ 't' = '/') := by unfold IsNumberChar; decide
  have hfalse : ¬ (IsNumberChar 'f' ∨ 'f' = '/') := by unfold IsNumberChar; decide
  have hlist : ¬ (IsNumberChar '[' ∨ '[' = '/') := by unfold IsNumberChar; decide
  cases r with
  | absent => exact absurd hplain (not_isPlain hnull _)
  | skipped => rfl
  | miss => rfl
  | hit x =>
    rw [text_eq rfl]
    show ofText? (String.ofList (numberToJson x).chars) = _
    rw [ofText?_of_read? (isNumberChar_numberToJson h.1) (read?_numberToJson h.1 h.2), h.2]
  | fraction x =>
    rw [text_eq rfl]
    show ofText? (String.ofList (shareToJson x).chars) = _
    rw [ofText?_of_read? (isNumberChar_shareToJson h.1) (read?_shareToJson h.1), h.2]
  | flag partly =>
    cases partly with
    | true => exact absurd hplain (not_isPlain htrue _)
    | false => exact absurd hplain (not_isPlain hfalse _)
  | ratio taken total => exact ofText?_ratioText h.1 h.2
  | ranges l =>
    rw [text_eq rfl] at hplain
    cases l with
    | nil => exact absurd hplain (not_isPlain hlist _)
    | cons => exact absurd hplain (not_isPlain hlist _)

theorem readable_bound {bound : Option Nat} (h : ∀ n, bound = some n → n < Text.word32)
    (depth : Nat) : (Json.ofOption Json.nat bound).Readable depth := by
  cases bound with
  | none => trivial
  | some n =>
    have hn := h n rfl
    unfold Text.word32 at hn
    show -0x8000000000000000 ≤ (n : Int) ∧ (n : Int) < 0x10000000000000000
    omega

theorem readable_ranges {l : List ColumnRange} (h : ∀ r ∈ l, r.Fits) :
    (Json.array (l.map ColumnRange.toJson)).Readable Json.depthLimit := by
  refine ⟨by decide, ?_⟩
  induction l with
  | nil => trivial
  | cons r rest ih =>
    obtain ⟨hfirst, hlast⟩ := h r List.mem_cons_self
    refine ⟨⟨by decide, readable_bound hfirst _, readable_bound hlast _, ?_, trivial⟩,
      ih fun s hs => h s (List.mem_cons_of_mem r hs)⟩
    cases r.hit <;> decide

/-- The texts of all other readings are documents. -/
theorem parse?_text (h : r.Fits) (hplain : ¬ IsPlain r.text) :
    Json.parse? r.text.toList = some r.toJson := by
  have hreads (hratio : r.isRatio = false) (hreadable : r.toJson.Readable Json.depthLimit) :
      Json.parse? r.text.toList = some r.toJson := by
    rw [text_eq hratio, String.toList_ofList, Json.parse?_chars hreadable]
  cases r with
  | absent => exact hreads rfl trivial
  | flag => exact hreads rfl trivial
  | ranges l => exact hreads rfl (readable_ranges h)
  -- the texts of all others are plain
  | skipped => exact absurd (isPlain_of_chars (isNumberChar_int _)) hplain
  | miss => exact absurd (isPlain_of_chars (isNumberChar_int _)) hplain
  | hit x =>
    rw [text_eq rfl] at hplain
    exact absurd (isPlain_of_chars (isNumberChar_numberToJson h.1)) hplain
  | fraction x =>
    rw [text_eq rfl] at hplain
    exact absurd (isPlain_of_chars (isNumberChar_shareToJson h.1)) hplain
  | ratio taken total => exact absurd (isPlain_ratioText taken total) hplain

/-- **Readings with one text are one reading.** -/
theorem text_inj (hr : r.Fits) (hs : s.Fits) (h : r.text = s.text) : r = s := by
  by_cases hplain : IsPlain r.text
  · have hread := ofText?_text hr hplain
    rw [h, ofText?_text hs (h ▸ hplain)] at hread
    exact (Except.ok.inj hread).symm
  · -- one text is one document, and a document is decoded to one reading
    have hread := parse?_text hr hplain
    rw [h, parse?_text hs (h ▸ hplain)] at hread
    have hjson := Option.some.inj hread
    have hback := ofJson?_toJson hr
    rw [← hjson, ofJson?_toJson hs] at hback
    exact (Except.ok.inj hback).symm

/-! ## 3. Equality -/

theorem positive_of_fits (h : r.Fits) (hx : r = .hit x ∨ r = .fraction x) :
    x.isNaN = false ∧ x.negative = false := by
  have hfinite : x.isFinite = true := by
    rcases hx with rfl | rfl
    · exact h.1
    · exact h.1
  have hnan : x.isNaN = false :=
    Binary64.isNaN_of_le (Nat.le_of_lt (of_decide_eq_true hfinite))
  refine ⟨hnan, ?_⟩
  rcases hx with rfl | rfl
  · exact (one_le_of_ofNumber hfinite h.2).1
  · have hproper := proper_ofNumber hnan
    rw [h.2] at hproper
    -- a share is above zero
    obtain ⟨p, hp⟩ := eq_positive_of_lt hproper.1
    rw [hp]

/-- Numbers without a sign are equal as numbers when they are equal. -/
theorem number_same_iff {y : Binary64} (hx : x.isNaN = false ∧ x.negative = false)
    (hy : y.isNaN = false ∧ y.negative = false) : x.same y = true ↔ x = y := by
  simp only [Binary64.same, Binary64.place, hx.1, hx.2, hy.1, hy.2, Bool.not_false, Bool.true_and,
    Bool.false_eq_true, if_false, beq_iff_eq, Int.natCast_inj]
  constructor
  · intro hrank
    exact Binary64.eq_of_rank (hx.2.trans hy.2.symm) hrank
  · intro heq
    rw [heq]

/-- Readings that fit are equal as numbers are only if they are equal. -/
theorem same_iff (hr : r.Fits) (hs : s.Fits) : r.same s = true ↔ r = s := by
  unfold same
  split
  · rw [number_same_iff (positive_of_fits hr (.inl rfl)) (positive_of_fits hs (.inl rfl)),
      hit.injEq]
  · rw [number_same_iff (positive_of_fits hr (.inr rfl)) (positive_of_fits hs (.inr rfl)),
      fraction.injEq]
  · exact beq_iff_eq

end Reading

namespace Datapoint

variable {d e : Datapoint}

theorem same_iff (hd : d.reading.Fits) (he : e.reading.Fits) : d.same e = true ↔ d = e := by
  simp only [same, Bool.and_eq_true, beq_iff_eq, Reading.same_iff hd he]
  constructor
  · rintro ⟨⟨⟨hsession, hreading⟩, hkind⟩, hlabels⟩
    cases d
    cases e
    rw [mk.injEq]
    exact ⟨hsession, hreading, hkind, hlabels⟩
  · rintro rfl
    exact ⟨⟨⟨rfl, rfl⟩, rfl⟩, rfl⟩

/-! ## 4. The order -/

/-- A datapoint as it is sorted: one without a kind stands where one of the empty kind does. -/
def asSorted (d : Datapoint) : Datapoint := { d with kind := some (d.kind.getD "") }

instance : Std.TransCmp order :=
  inferInstanceAs (Std.TransCmp (compareLex (compareOn session)
    (compareLex (compareOn fun d => d.reading.text)
      (compareLex (compareOn fun d => d.kind.getD "") (compareOn labels)))))

/-- Datapoints have one place only if they are the same as they are sorted. -/
theorem asSorted_eq_of_order (hd : d.reading.Fits) (he : e.reading.Fits) (h : d.order e = .eq) :
    d.asSorted = e.asSorted := by
  simp only [order, sortKey, Ordering.then_eq_eq, Std.compare_eq_iff_eq] at h
  obtain ⟨hsession, htext, hkind, hlabels⟩ := h
  unfold asSorted
  rw [hsession, Reading.text_inj hd he htext, hkind, hlabels]

/-- The order in which lists of datapoints are brought. -/
def le (d e : Datapoint) : Bool := (d.order e).isLE

theorem le_total (d e : Datapoint) : (d.le e || e.le d) = true := by
  have hswap : e.order d = (d.order e).swap := Std.OrientedCmp.eq_swap
  rw [le, le, hswap]
  cases d.order e <;> rfl

theorem le_trans (d e f : Datapoint) (h : d.le e = true) (h' : e.le f = true) : d.le f = true :=
  Std.TransCmp.isLE_trans h h'

theorem order_of_le (h : d.le e = true) (h' : e.le d = true) : d.order e = .eq := by
  have hswap : e.order d = (d.order e).swap := Std.OrientedCmp.eq_swap
  rw [le] at h h'
  rw [hswap] at h'
  cases horder : d.order e with
  | eq => rfl
  | lt => rw [horder] at h'; cases h'
  | gt => rw [horder] at h; cases h

theorem pairwise_mergeSort (ds : List Datapoint) :
    (ds.mergeSort le).Pairwise fun d e => d.le e = true :=
  List.pairwise_mergeSort le_trans le_total ds

/-! ## 5. Dropping repeats -/

section Repeats

variable {previous : Datapoint} {rest : List Datapoint}

/-- Nothing is lost when repeats are dropped. -/
theorem mem_go (hfits : ∀ e ∈ previous :: rest, e.reading.Fits) :
    d ∈ previous :: dropRepeats.go previous rest ↔ d ∈ previous :: rest := by
  induction rest generalizing previous with
  | nil => exact Iff.rfl
  | cons e rest ih =>
    have hprevious := hfits previous List.mem_cons_self
    have he := hfits e (List.mem_cons_of_mem _ List.mem_cons_self)
    have htail := ih fun f hf => hfits f (List.mem_cons_of_mem _ hf)
    rw [dropRepeats.go]
    split
    · rename_i hsame
      -- what is dropped was kept before
      obtain rfl := (same_iff hprevious he).1 hsame
      rw [htail]
      simp
    · rw [List.mem_cons, htail, ← List.mem_cons]

/-- Among sorted datapoints one that shares its place with no other is kept once. -/
theorem count_go (hfits : ∀ e ∈ previous :: rest, e.reading.Fits)
    (hsorted : (previous :: rest).Pairwise fun d e => d.le e = true)
    (halone : ∀ e ∈ previous :: rest, e.order d = .eq → e = d) (hd : d ∈ previous :: rest) :
    (previous :: dropRepeats.go previous rest).count d = 1 := by
  induction rest generalizing previous with
  | nil =>
    rw [List.mem_singleton.1 hd]
    exact List.count_singleton_self
  | cons e rest ih =>
    have hprevious := hfits previous List.mem_cons_self
    have he := hfits e (List.mem_cons_of_mem _ List.mem_cons_self)
    have hfits' : ∀ f ∈ e :: rest, f.reading.Fits := fun f hf => hfits f (List.mem_cons_of_mem _ hf)
    obtain ⟨hbelow, htail⟩ := List.pairwise_cons.1 hsorted
    have hcount := ih hfits' htail fun f hf => halone f (List.mem_cons_of_mem _ hf)
    rw [dropRepeats.go]
    split
    · rename_i hsame
      obtain rfl := (same_iff hprevious he).1 hsame
      apply hcount
      simpa using hd
    · rename_i hsame
      have hne : previous ≠ e := fun heq => hsame ((same_iff hprevious he).2 heq)
      rw [List.count_cons]
      by_cases hlater : d ∈ e :: rest
      · have hother : previous ≠ d := by
          -- otherwise `e` stands between two occurrences of `d` and shares their place
          rintro rfl
          have hle := hbelow e List.mem_cons_self
          have hback : e.le previous = true := by
            rcases List.mem_cons.1 hlater with heq | hrest
            · exact absurd heq hne
            · exact (List.pairwise_cons.1 htail).1 previous hrest
          apply hne
          exact (halone e (List.mem_cons_of_mem _ List.mem_cons_self) (order_of_le hback hle)).symm
        rw [hcount hlater]
        simp [hother]
      · have hfirst : previous = d := ((List.mem_cons.1 hd).resolve_right hlater).symm
        rw [List.count_eq_zero.2 (mt (mem_go hfits').1 hlater)]
        simp [hfirst]

variable {ds : List Datapoint}

theorem mem_dropRepeats (hfits : ∀ e ∈ ds, e.reading.Fits) : d ∈ dropRepeats ds ↔ d ∈ ds := by
  cases ds with
  | nil => exact Iff.rfl
  | cons previous rest => exact mem_go hfits

theorem count_dropRepeats (hfits : ∀ e ∈ ds, e.reading.Fits)
    (hsorted : ds.Pairwise fun d e => d.le e = true) (halone : ∀ e ∈ ds, e.order d = .eq → e = d)
    (hd : d ∈ ds) : (dropRepeats ds).count d = 1 := by
  cases ds with
  | nil => cases hd
  | cons previous rest => exact count_go hfits hsorted halone hd

end Repeats

/-! ## 6. Joining lists -/

section Joining

variable {a b : Option (List Datapoint)}

/-- The datapoints of both lists, where an absent list has none. -/
def together (a b : Option (List Datapoint)) : List Datapoint := a.getD [] ++ b.getD []

/-- No other datapoint of a list differs from this one only in lacking a kind where it has the empty
one, or the other way round. -/
def Clear (ds : List Datapoint) (d : Datapoint) : Prop := ∀ e ∈ ds, e.asSorted = d.asSorted → e = d

instance (ds : List Datapoint) (d : Datapoint) : Decidable (Clear ds d) :=
  inferInstanceAs (Decidable (∀ e ∈ ds, _ → _))

theorem mergeLists_of_some (h : ¬ (a = none ∧ b = none)) :
    mergeLists a b = some (dropRepeats ((together a b).mergeSort le)) := by
  cases a with
  | none =>
    cases b with
    | none => exact absurd ⟨rfl, rfl⟩ h
    | some => rfl
  | some => rfl

theorem mergeLists_eq_none_iff : mergeLists a b = none ↔ a = none ∧ b = none := by
  by_cases h : a = none ∧ b = none
  · rw [h.1, h.2]
    exact iff_of_true rfl ⟨rfl, rfl⟩
  · rw [mergeLists_of_some h]
    exact iff_of_false (Option.some_ne_none _) h

/-- Sorting puts both lists in one order if no two datapoints share a place. -/
theorem mergeSort_together (hfits : ∀ d ∈ together a b, d.reading.Fits)
    (hclear : ∀ d ∈ together a b, Clear (together a b) d) :
    (together a b).mergeSort le = (together b a).mergeSort le := by
  have hswap : (together b a).Perm (together a b) := List.perm_append_comm
  apply List.Perm.eq_of_pairwise _ (pairwise_mergeSort _) (pairwise_mergeSort _)
  · exact (List.mergeSort_perm _ _).trans (hswap.symm.trans (List.mergeSort_perm _ _).symm)
  · intro d e hd he hle hback
    have hd' := List.mem_mergeSort.1 hd
    have he' := hswap.mem_iff.1 (List.mem_mergeSort.1 he)
    apply hclear e he' d hd'
    exact asSorted_eq_of_order (hfits d hd') (hfits e he') (order_of_le hle hback)

/-- **Two lists of datapoints are joined to their union**: nothing is joined to nothing only, what
occurs in either list occurs in the result and nothing else does, each datapoint occurs once, and
the order of the lists makes no difference.  The last two hold for datapoints that no other one
differs from in an empty kind alone. -/
theorem mergeLists_is_union (a b : Option (List Datapoint))
    (hfits : ∀ d ∈ together a b, d.reading.Fits) :
    (mergeLists a b = none ↔ a = none ∧ b = none) ∧
    (∀ ds, mergeLists a b = some ds →
      (∀ d, d ∈ ds ↔ d ∈ a.getD [] ∨ d ∈ b.getD []) ∧
      (∀ d ∈ ds, Clear (together a b) d → ds.count d = 1)) ∧
    ((∀ d ∈ together a b, Clear (together a b) d) → mergeLists a b = mergeLists b a) := by
  refine ⟨mergeLists_eq_none_iff, fun ds hds => ?_, fun hclear => ?_⟩
  · have hsome : ¬ (a = none ∧ b = none) := by
      intro hnone
      rw [mergeLists_eq_none_iff.2 hnone] at hds
      cases hds
    rw [mergeLists_of_some hsome] at hds
    obtain rfl := Option.some.inj hds
    have hfits' : ∀ e ∈ (together a b).mergeSort le, e.reading.Fits :=
      fun e he => hfits e (List.mem_mergeSort.1 he)
    refine ⟨fun d => ?_, fun d hd hclear => ?_⟩
    · rw [mem_dropRepeats hfits', List.mem_mergeSort, together, List.mem_append]
    · have hd' := (mem_dropRepeats hfits').1 hd
      apply count_dropRepeats hfits' (pairwise_mergeSort _) _ hd'
      intro e he horder
      apply hclear e (List.mem_mergeSort.1 he)
      exact asSorted_eq_of_order (hfits' e he) (hfits' d hd') horder
  · by_cases hnone : a = none ∧ b = none
    · rw [hnone.1, hnone.2]
    · rw [mergeLists_of_some hnone, mergeLists_of_some fun h => hnone h.symm,
        mergeSort_together hfits hclear]

end Joining

def half : Binary64 := ⟨false, 1022 * Binary64.ranksPerExponent⟩

def ratioOfBranch : Datapoint := ⟨0, .ratio 1 2, some "branch", [1]⟩

def hitOnce : Datapoint := ⟨0, .hit .one, none, []⟩

def halfRun : Datapoint := ⟨1, .fraction half, none, [3, 4]⟩

/-- A datapoint of both lists, and one of each. -/
theorem mergeLists_is_union_shared :
    (∀ d ∈ together (some [hitOnce, ratioOfBranch]) (some [halfRun, hitOnce]), d.reading.Fits) ∧
    mergeLists (some [hitOnce, ratioOfBranch]) (some [halfRun, hitOnce]) =
      mergeLists (some [halfRun, hitOnce]) (some [hitOnce, ratioOfBranch]) ∧
    ∃ ds, mergeLists (some [hitOnce, ratioOfBranch]) (some [halfRun, hitOnce]) = some ds ∧
      ds.count hitOnce = 1 ∧ ds.count ratioOfBranch = 1 ∧ ds.count halfRun = 1 := by
  have hfits : ∀ d ∈ together (some [hitOnce, ratioOfBranch]) (some [halfRun, hitOnce]),
      d.reading.Fits := by
    have hhit : hitOnce.reading.Fits := ⟨by decide +kernel, by decide +kernel⟩
    have hhalf : halfRun.reading.Fits := ⟨by decide +kernel, by decide +kernel⟩
    have hratio : ratioOfBranch.reading.Fits := ⟨by decide, by decide⟩
    intro d hd
    have hcases : d = hitOnce ∨ d = ratioOfBranch ∨ d = halfRun ∨ d = hitOnce := by
      simpa [together] using hd
    rcases hcases with rfl | rfl | rfl | rfl
    · exact hhit
    · exact hratio
    · exact hhalf
    · exact hhit
  have hclear : ∀ d ∈ together (some [hitOnce, ratioOfBranch]) (some [halfRun, hitOnce]),
      Clear (together (some [hitOnce, ratioOfBranch]) (some [halfRun, hitOnce])) d := by
    decide +kernel
  obtain ⟨hnone, hunion, hcomm⟩ := mergeLists_is_union _ _ hfits
  refine ⟨hfits, hcomm hclear, ?_⟩
  cases hds : mergeLists (some [hitOnce, ratioOfBranch]) (some [halfRun, hitOnce]) with
  | none => exact absurd (hnone.1 hds).1 (Option.some_ne_none _)
  | some ds =>
    obtain ⟨hmem, honce⟩ := hunion ds hds
    have hcount {d : Datapoint}
        (hd : d ∈ together (some [hitOnce, ratioOfBranch]) (some [halfRun, hitOnce])) :
        ds.count d = 1 := honce d ((hmem d).2 (List.mem_append.1 hd)) (hclear d hd)
    refine ⟨ds, rfl, hcount ?_, hcount ?_, hcount ?_⟩
    · decide +kernel
    · decide +kernel
    · decide +kernel

def hitOfEmptyKind : Datapoint := { hitOnce with kind := some "" }

/-- A datapoint without a kind that occurs in both lists is left twice when one of the empty kind
stands between its occurrences, and once when the lists change places. -/
theorem joined_kinds_repeat :
    (∀ d ∈ together (some [hitOnce, hitOfEmptyKind]) (some [hitOnce]), d.reading.Fits) ∧
    mergeLists (some [hitOnce, hitOfEmptyKind]) (some [hitOnce]) =
      some [hitOnce, hitOfEmptyKind, hitOnce] ∧
    [hitOnce, hitOfEmptyKind, hitOnce].count hitOnce = 2 ∧
    mergeLists (some [hitOnce]) (some [hitOnce, hitOfEmptyKind]) =
      some [hitOnce, hitOfEmptyKind] := by
  have hhit : Reading.Fits (.hit .one) := ⟨by decide +kernel, by decide +kernel⟩
  refine ⟨?_, ?_, by decide +kernel, ?_⟩
  · intro d hd
    have hcases : d = hitOnce ∨ d = hitOfEmptyKind ∨ d = hitOnce := by
      simpa [together] using hd
    rcases hcases with rfl | rfl | rfl
    · exact hhit
    · exact hhit
    · exact hhit
  -- all three have one place, so sorting leaves them as they are
  · rw [mergeLists_of_some (by decide), List.mergeSort_of_pairwise (by decide +kernel)]
    decide +kernel
  · rw [mergeLists_of_some (by decide), List.mergeSort_of_pairwise (by decide +kernel)]
    decide +kernel

end Datapoint

end CoverageLedger
