import CoverageLedger.LineRanges
import CoverageLedger.Table
import Mathlib.Data.List.Chain
import Mathlib.Order.Nat
import Mathlib.Data.Nat.Find

/-!
# The maximal bridging of line numbers

A list of ranges is `Bridged` over some listed numbers when it holds each of them once, bridges only
short gaps in which nothing counts, and leaves no such gap open.  The ranges that the single pass
over the numbers makes are bridged (`bridged_lineRanges`), and no others are (`Bridged.unique`):
whether a listed number starts or ends a range depends on its neighbours among the listed numbers
alone (`Bridged.mem_starts_iff`, `Bridged.mem_ends_iff`).
-/

namespace CoverageLedger.LineRanges

variable {lines more countable rest : List Nat} {ranges ranges' : List (Nat × Nat)}
  {r s : Nat × Nat} {a b n first last : Nat}

/-! ## 1. Gaps -/

/-- One number is the next that is listed after another. -/
structure NextListed (lines : List Nat) (a b : Nat) : Prop where
  left : a ∈ lines
  right : b ∈ lines
  lt : a < b
  apart : ∀ n ∈ lines, n ≤ a ∨ b ≤ n

/-- Between two numbers there are at most two, and none of them counts. -/
structure Bridgeable (countable : List Nat) (a b : Nat) : Prop where
  short : b - a - 1 ≤ 2
  free : ∀ n, a < n → n < b → n ∉ countable

theorem mem_between : n ∈ between a b ↔ a < n ∧ n < b := by
  rw [between, List.mem_map]
  constructor
  · rintro ⟨k, hk, rfl⟩
    have hlt := List.mem_range.1 hk
    omega
  · rintro ⟨hleft, hright⟩
    exact ⟨n - (a + 1), List.mem_range.2 (by omega), by omega⟩

theorem bridges_iff : bridges countable a b = true ↔ Bridgeable countable a b := by
  rw [bridges, Bool.and_eq_true, decide_eq_true_eq, List.all_eq_true]
  constructor
  · rintro ⟨hshort, hfree⟩
    refine ⟨hshort, fun n hleft hright hn => ?_⟩
    have hout := hfree n (mem_between.2 ⟨hleft, hright⟩)
    rw [List.contains_iff_mem.2 hn] at hout
    cases hout
  · intro h
    refine ⟨h.short, fun n hn => ?_⟩
    obtain ⟨hleft, hright⟩ := mem_between.1 hn
    rw [Bool.not_eq_true', Bool.eq_false_iff, Ne, List.contains_iff_mem]
    exact h.free n hleft hright

/-- A listed number that is not the first has one before it. -/
theorem exists_nextListed_before (ha : a ∈ lines) (hn : n ∈ lines) (hlt : a < n) :
    ∃ m, a ≤ m ∧ NextListed lines m n := by
  have hle : a ≤ n - 1 := by omega
  have hgreatest := Nat.findGreatest_le (P := (· ∈ lines)) (n - 1)
  refine ⟨Nat.findGreatest (· ∈ lines) (n - 1), Nat.le_findGreatest hle ha,
    Nat.findGreatest_spec hle ha, hn, by omega, fun k hk => ?_⟩
  by_cases hkn : n ≤ k
  · exact .inr hkn
  · exact .inl (Nat.le_findGreatest (by omega) hk)

/-- A listed number that is not the last has one after it. -/
theorem exists_nextListed_after (hn : n ∈ lines) (hb : b ∈ lines) (hlt : n < b) :
    ∃ m, m ≤ b ∧ NextListed lines n m := by
  have hex : ∃ m, n < m ∧ m ∈ lines := ⟨b, hlt, hb⟩
  obtain ⟨hgt, hmem⟩ := Nat.find_spec hex
  refine ⟨Nat.find hex, Nat.find_min' hex ⟨hlt, hb⟩, hn, hmem, hgt, fun k hk => ?_⟩
  by_cases hkn : k ≤ n
  · exact .inl hkn
  · exact .inr (Nat.find_min' hex ⟨by omega, hk⟩)

namespace NextListed

theorem append (h : NextListed lines a b) (hlt : ∀ n ∈ lines, ∀ m ∈ more, n < m) :
    NextListed (lines ++ more) a b where
  left := List.mem_append_left _ h.left
  right := List.mem_append_left _ h.right
  lt := h.lt
  apart := by
    intro n hn
    rcases List.mem_append.1 hn with hn | hn
    · exact h.apart n hn
    · exact .inr (hlt b h.right n hn).le

theorem prepend (h : NextListed more a b) (hlt : ∀ n ∈ lines, ∀ m ∈ more, n < m) :
    NextListed (lines ++ more) a b where
  left := List.mem_append_right _ h.left
  right := List.mem_append_right _ h.right
  lt := h.lt
  apart := by
    intro n hn
    rcases List.mem_append.1 hn with hn | hn
    · exact .inl (hlt n hn a h.left).le
    · exact h.apart n hn

end NextListed

/-! ## 2. Bridged ranges -/

/-- A range has a number. -/
def InRange (r : Nat × Nat) (n : Nat) : Prop := r.1 ≤ n ∧ n ≤ r.2

/-- The listed numbers in ranges that bridge every gap that may be bridged, and no other. -/
structure Bridged (lines countable : List Nat) (ranges : List (Nat × Nat)) : Prop where
  /-- Ranges start and end at listed numbers. -/
  ends : ∀ r ∈ ranges, r.1 ∈ lines ∧ r.2 ∈ lines ∧ r.1 ≤ r.2
  /-- They are ascending and have no number in common. -/
  apart : ranges.Pairwise fun r s => r.2 < s.1
  covers : ∀ n ∈ lines, ∃! r, r ∈ ranges ∧ InRange r n
  /-- What is bridged does not count, and lies in a gap of at most two numbers. -/
  bridged : ∀ r ∈ ranges, ∀ n, n ∉ lines → InRange r n →
    n ∉ countable ∧ ∃ a b, NextListed lines a b ∧ a < n ∧ n < b ∧ b - a - 1 ≤ 2
  /-- What is not bridged has more than two numbers, or one that counts. -/
  maximal : ranges.IsChain fun r s =>
    2 < s.1 - r.2 - 1 ∨ ∃ n ∈ countable, r.2 < n ∧ n < s.1

theorem not_bridgeable_iff : ¬ Bridgeable countable a b ↔
    2 < b - a - 1 ∨ ∃ n ∈ countable, a < n ∧ n < b := by
  constructor
  · intro h
    by_cases hshort : b - a - 1 ≤ 2
    · right
      refine Decidable.byContradiction fun hnone => h ⟨hshort, fun n hleft hright hn => ?_⟩
      exact hnone ⟨n, hn, hleft, hright⟩
    · exact .inl (Nat.lt_of_not_le hshort)
  · rintro (hlong | ⟨n, hn, hleft, hright⟩) h
    · exact absurd h.short (Nat.not_le_of_lt hlong)
    · exact h.free n hleft hright hn

/-- Ranges that stand apart have a number at most once. -/
theorem existsUnique_of_apart (hapart : ranges.Pairwise fun r s => r.2 < s.1)
    (h : ∃ r ∈ ranges, InRange r n) : ∃! r, r ∈ ranges ∧ InRange r n := by
  obtain ⟨r, hr, hrn⟩ := h
  refine ⟨r, ⟨hr, hrn⟩, fun s hs => Decidable.byContradiction fun hne => ?_⟩
  have heither : ranges.Pairwise fun r s => r.2 < s.1 ∨ s.2 < r.1 := hapart.imp .inl
  have hsymm : Std.Symm fun r s : Nat × Nat => r.2 < s.1 ∨ s.2 < r.1 := ⟨fun _ _ => Or.symm⟩
  rcases heither.forall hs.1 hr hne with hlt | hlt
  · exact absurd (hs.2.2.trans_lt hlt) (Nat.not_lt_of_le hrn.1)
  · exact absurd (hrn.2.trans_lt hlt) (Nat.not_lt_of_le hs.2.1)

theorem bridged_nil : Bridged [] countable [] where
  ends := nofun
  apart := .nil
  covers := nofun
  bridged := nofun
  maximal := .nil

theorem bridged_singleton : Bridged [n] countable [(n, n)] where
  ends := by simp
  apart := List.pairwise_singleton _ _
  covers := fun m hm => existsUnique_of_apart (List.pairwise_singleton _ _)
    ⟨(n, n), List.mem_singleton_self _, (List.mem_singleton.1 hm).ge, (List.mem_singleton.1 hm).le⟩
  bridged := by
    intro r hr m hm hrm
    obtain rfl := List.mem_singleton.1 hr
    exact absurd (List.mem_singleton.2 (Nat.le_antisymm hrm.2 hrm.1)) hm
  maximal := .singleton _

namespace Bridged

theorem eq_of_inRange (h : Bridged lines countable ranges) (hn : n ∈ lines) (hr : r ∈ ranges)
    (hrn : InRange r n) (hs : s ∈ ranges) (hsn : InRange s n) : r = s :=
  (h.covers n hn).unique ⟨hr, hrn⟩ ⟨hs, hsn⟩

/-- The only range of some numbers has all of them. -/
theorem le_last (h : Bridged lines countable [(first, last)]) (hn : n ∈ lines) : n ≤ last := by
  obtain ⟨r, ⟨hr, hrn⟩, -⟩ := h.covers n hn
  rw [List.mem_singleton.1 hr] at hrn
  exact hrn.2

/-- A range goes on to the next number over a gap that may be bridged. -/
theorem extend (h : Bridged lines countable [(first, last)]) (hlt : ∀ m ∈ lines, m < n)
    (hgap : Bridgeable countable last n) : Bridged (lines ++ [n]) countable [(first, n)] := by
  obtain ⟨hfirst, hlast, hle⟩ := h.ends _ (List.mem_singleton_self _)
  have hall : ∀ m ∈ lines, ∀ k ∈ [n], m < k := by
    intro m hm k hk
    rw [List.mem_singleton.1 hk]
    exact hlt m hm
  have hnext : NextListed (lines ++ [n]) last n := by
    refine ⟨List.mem_append_left _ hlast, List.mem_append_right _ (List.mem_singleton_self n),
      hlt last hlast, fun m hm => ?_⟩
    rcases List.mem_append.1 hm with hm | hm
    · exact .inl (h.le_last hm)
    · exact .inr (List.mem_singleton.1 hm).ge
  refine ⟨?_, List.pairwise_singleton _ _, fun m hm => ?_, ?_, .singleton _⟩
  · intro r hr
    obtain rfl := List.mem_singleton.1 hr
    exact ⟨List.mem_append_left _ hfirst, hnext.right, (hlt first hfirst).le⟩
  · refine existsUnique_of_apart (List.pairwise_singleton _ _)
      ⟨(first, n), List.mem_singleton_self _, ?_⟩
    rcases List.mem_append.1 hm with hm | hm
    · obtain ⟨r, ⟨hr, hrm⟩, -⟩ := h.covers m hm
      rw [List.mem_singleton.1 hr] at hrm
      exact ⟨hrm.1, (hlt m hm).le⟩
    · rw [List.mem_singleton.1 hm]
      exact ⟨(hlt first hfirst).le, Nat.le_refl n⟩
  · intro r hr m hm hrm
    obtain rfl := List.mem_singleton.1 hr
    have hold : m ∉ lines := fun hin => hm (List.mem_append_left _ hin)
    have hne : m ≠ n := fun heq =>
      hm (List.mem_append_right _ (List.mem_singleton.2 heq))
    have hmn : m < n := Nat.lt_of_le_of_ne hrm.2 hne
    by_cases hin : m ≤ last
    · -- a number that was in the range before
      obtain ⟨hfree, a, b, hab, ham, hmb, hshort⟩ :=
        h.bridged _ (List.mem_singleton_self _) m hold ⟨hrm.1, hin⟩
      exact ⟨hfree, a, b, hab.append hall, ham, hmb, hshort⟩
    · exact ⟨hgap.free m (Nat.lt_of_not_le hin) hmn, last, n, hnext, Nat.lt_of_not_le hin, hmn,
        hgap.short⟩

/-- A range is closed before a gap that may not be bridged. -/
theorem cons (h : Bridged lines countable [r]) (h' : Bridged more countable ranges)
    (hlt : ∀ n ∈ lines, ∀ m ∈ more, n < m)
    (hgap : ∀ s, ranges.head? = some s → ¬ Bridgeable countable r.2 s.1) :
    Bridged (lines ++ more) countable (r :: ranges) := by
  obtain ⟨hfirst, hlast, hle⟩ := h.ends r (List.mem_singleton_self r)
  have hapart : (r :: ranges).Pairwise fun r s => r.2 < s.1 :=
    List.pairwise_cons.2 ⟨fun s hs => hlt _ hlast _ (h'.ends s hs).1, h'.apart⟩
  refine ⟨?_, hapart, fun n hn => existsUnique_of_apart hapart ?_, ?_, ?_⟩
  · intro s hs
    rcases List.mem_cons.1 hs with rfl | hs
    · exact ⟨List.mem_append_left _ hfirst, List.mem_append_left _ hlast, hle⟩
    · obtain ⟨hs1, hs2, hs12⟩ := h'.ends s hs
      exact ⟨List.mem_append_right _ hs1, List.mem_append_right _ hs2, hs12⟩
  · rcases List.mem_append.1 hn with hn | hn
    · obtain ⟨s, ⟨hs, hsn⟩, -⟩ := h.covers n hn
      rw [List.mem_singleton.1 hs] at hsn
      exact ⟨r, List.mem_cons_self, hsn⟩
    · obtain ⟨s, ⟨hs, hsn⟩, -⟩ := h'.covers n hn
      exact ⟨s, List.mem_cons_of_mem r hs, hsn⟩
  · intro s hs n hn hsn
    rw [List.mem_append, not_or] at hn
    rcases List.mem_cons.1 hs with rfl | hs
    · obtain ⟨hfree, a, b, hab, hrest⟩ := h.bridged s (List.mem_singleton_self s) n hn.1 hsn
      exact ⟨hfree, a, b, hab.append hlt, hrest⟩
    · obtain ⟨hfree, a, b, hab, hrest⟩ := h'.bridged s hs n hn.2 hsn
      exact ⟨hfree, a, b, hab.prepend hlt, hrest⟩
  · rw [List.isChain_cons]
    exact ⟨fun s hs => not_bridgeable_iff.1 (hgap s hs), h'.maximal⟩

end Bridged

/-! ## 3. The single pass -/

/-- The open range is the first one to be closed. -/
theorem head?_lineRangesFrom (countable : List Nat) (first last : Nat) (rest : List Nat)
    (hs : (lineRangesFrom countable first last rest).head? = some s) : s.1 = first := by
  induction rest generalizing last with
  | nil => rw [← Option.some.inj hs]
  | cons n rest ih =>
    rw [lineRangesFrom] at hs
    split at hs
    · exact ih n hs
    · rw [← Option.some.inj hs]

/-- What stands in the open range and what is still to come make up the bridged ranges. -/
theorem bridged_lineRangesFrom (h : Bridged lines countable [(first, last)])
    (hlines : (lines ++ rest).Pairwise (· < ·)) :
    Bridged (lines ++ rest) countable (lineRangesFrom countable first last rest) := by
  induction rest generalizing lines first last with
  | nil =>
    rw [List.append_nil]
    exact h
  | cons n rest ih =>
    obtain ⟨-, hrest, hlt⟩ := List.pairwise_append.1 hlines
    rw [lineRangesFrom]
    split
    · rename_i hgap
      have hopen := h.extend (fun m hm => hlt m hm n List.mem_cons_self) (bridges_iff.1 hgap)
      rw [← List.singleton_append, ← List.append_assoc] at hlines ⊢
      exact ih hopen hlines
    · rename_i hgap
      have hlater := ih (bridged_singleton (n := n)) hrest
      refine h.cons hlater hlt fun s hs => ?_
      rw [head?_lineRangesFrom countable n n rest hs, ← bridges_iff]
      exact hgap

theorem bridged_lineRanges (h : lines.Pairwise (· < ·)) (countable : List Nat) :
    Bridged lines countable (lineRanges lines countable) := by
  cases lines with
  | nil => exact bridged_nil
  | cons n rest =>
    have hstart : Bridged [n] countable [(n, n)] := bridged_singleton
    exact bridged_lineRangesFrom hstart h

/-! ## 4. No other ranges -/

namespace Bridged

/-- Neighbours among the listed numbers share a range when their gap may be bridged. -/
theorem joined_iff (h : Bridged lines countable ranges) (hab : NextListed lines a b) :
    (∃ r ∈ ranges, r.1 ≤ a ∧ b ≤ r.2) ↔ Bridgeable countable a b := by
  have hunlisted {n : Nat} (hleft : a < n) (hright : n < b) : n ∉ lines := by
    intro hn
    rcases hab.apart n hn with hle | hle <;> omega
  constructor
  · rintro ⟨r, hr, hra, hrb⟩
    have hbridged {n : Nat} (hleft : a < n) (hright : n < b) :=
      h.bridged r hr n (hunlisted hleft hright) ⟨hra.trans hleft.le, hright.le.trans hrb⟩
    refine ⟨?_, fun n hleft hright => (hbridged hleft hright).1⟩
    by_cases hnext : a + 1 < b
    · -- the gap of the number after `a` is the one from `a` to `b`
      obtain ⟨-, c, d, hcd, hc, hd, hshort⟩ := hbridged (Nat.lt_succ_self a) hnext
      have hda := hcd.apart a hab.left
      have hdb := hcd.apart b hab.right
      have hac := hab.apart c hcd.left
      have had := hab.apart d hcd.right
      omega
    · omega
  · intro hgap
    obtain ⟨r, ⟨hr, hra⟩, -⟩ := h.covers a hab.left
    obtain ⟨s, ⟨hs, hsb⟩, -⟩ := h.covers b hab.right
    by_cases hrs : r = s
    · exact ⟨r, hr, hra.1, hrs ▸ hsb.2⟩
    · exfalso
      obtain ⟨before, after, rfl⟩ := List.append_of_mem hr
      obtain ⟨-, hfrom, hbefore⟩ := List.pairwise_append.1 h.apart
      obtain ⟨hafter, hrest⟩ := List.pairwise_cons.1 hfrom
      have hr2 := hab.apart r.2 (h.ends r hr).2.1
      have hs1 := hab.apart s.1 (h.ends s hs).1
      have hin : s ∈ after := by
        rcases List.mem_append.1 hs with hs | hs
        · have hlt := hbefore s hs r List.mem_cons_self
          have := hab.lt
          have := hra.1
          have := hsb.2
          omega
        · exact (List.mem_cons.1 hs).resolve_left (Ne.symm hrs)
      -- nothing is listed between `r` and `s`, so that they are neighbours
      cases after with
      | nil => cases hin
      | cons t after =>
        have hchain := (List.isChain_append.1 h.maximal).2.1
        have hgap' := not_bridgeable_iff.2 (List.isChain_cons_cons.1 hchain).1
        have hrt := hafter t List.mem_cons_self
        have ht := h.ends t (List.mem_append_right _ (List.mem_cons_of_mem r List.mem_cons_self))
        have ht1 := hab.apart t.1 ht.1
        have hst := hafter s hin
        have := hra.2
        have := hsb.1
        rcases List.mem_cons.1 hin with rfl | hin
        · have hra2 : r.2 = a := by omega
          have hsb1 : s.1 = b := by omega
          rw [hra2, hsb1] at hgap'
          exact hgap' hgap
        · have hts := (List.pairwise_cons.1 hrest).1 s hin
          omega

/-- A listed number starts a range when the gap before it may not be bridged. -/
theorem mem_starts_iff (h : Bridged lines countable ranges) :
    n ∈ ranges.map Prod.fst ↔
      n ∈ lines ∧ ∀ a, NextListed lines a n → ¬ Bridgeable countable a n := by
  rw [List.mem_map]
  constructor
  · rintro ⟨r, hr, rfl⟩
    obtain ⟨hr1, -, hle⟩ := h.ends r hr
    refine ⟨hr1, fun a ha hgap => ?_⟩
    obtain ⟨s, hs, hsa, hsn⟩ := (h.joined_iff ha).2 hgap
    obtain rfl := h.eq_of_inRange hr1 hr ⟨Nat.le_refl _, hle⟩ hs ⟨hsa.trans ha.lt.le, hsn⟩
    exact absurd ha.lt (Nat.not_lt_of_le hsa)
  · rintro ⟨hn, hgaps⟩
    obtain ⟨r, ⟨hr, hrn⟩, -⟩ := h.covers n hn
    refine ⟨r, hr, Nat.le_antisymm hrn.1 (Nat.le_of_not_lt fun hlt => ?_)⟩
    obtain ⟨a, hra, ha⟩ := exists_nextListed_before (h.ends r hr).1 hn hlt
    exact hgaps a ha ((h.joined_iff ha).1 ⟨r, hr, hra, hrn.2⟩)

/-- A listed number ends a range when the gap after it may not be bridged. -/
theorem mem_ends_iff (h : Bridged lines countable ranges) :
    n ∈ ranges.map Prod.snd ↔
      n ∈ lines ∧ ∀ b, NextListed lines n b → ¬ Bridgeable countable n b := by
  rw [List.mem_map]
  constructor
  · rintro ⟨r, hr, rfl⟩
    obtain ⟨-, hr2, hle⟩ := h.ends r hr
    refine ⟨hr2, fun b hb hgap => ?_⟩
    obtain ⟨s, hs, hsn, hsb⟩ := (h.joined_iff hb).2 hgap
    obtain rfl := h.eq_of_inRange hr2 hr ⟨hle, Nat.le_refl _⟩ hs ⟨hsn, hb.lt.le.trans hsb⟩
    exact absurd hb.lt (Nat.not_lt_of_le hsb)
  · rintro ⟨hn, hgaps⟩
    obtain ⟨r, ⟨hr, hrn⟩, -⟩ := h.covers n hn
    refine ⟨r, hr, Nat.le_antisymm (Nat.le_of_not_lt fun hlt => ?_) hrn.2⟩
    obtain ⟨b, hbr, hb⟩ := exists_nextListed_after hn (h.ends r hr).2.1 hlt
    exact hgaps b hb ((h.joined_iff hb).1 ⟨r, hr, hrn.1, hbr⟩)

/-- The starts of bridged ranges, and the ends, are ascending. -/
theorem ascending (h : Bridged lines countable ranges) :
    (ranges.map Prod.fst).Pairwise Precedes ∧ (ranges.map Prod.snd).Pairwise Precedes := by
  have hbetween : ranges.Pairwise fun r s => r.1 < s.1 ∧ r.2 < s.2 := by
    refine h.apart.imp_of_mem fun hr hs hlt => ?_
    exact ⟨(h.ends _ hr).2.2.trans_lt hlt, hlt.trans_le (h.ends _ hs).2.2⟩
  exact ⟨List.pairwise_map.2 (hbetween.imp fun hlt => Nat.compare_eq_lt.2 hlt.1),
    List.pairwise_map.2 (hbetween.imp fun hlt => Nat.compare_eq_lt.2 hlt.2)⟩

/-- **Listed numbers have one maximal bridging.** -/
theorem unique (h : Bridged lines countable ranges) (h' : Bridged lines countable ranges') :
    ranges = ranges' := by
  have hfst : ranges.map Prod.fst = ranges'.map Prod.fst :=
    eq_of_ascending h.ascending.1 h'.ascending.1 fun _ =>
      h.mem_starts_iff.trans h'.mem_starts_iff.symm
  have hsnd : ranges.map Prod.snd = ranges'.map Prod.snd :=
    eq_of_ascending h.ascending.2 h'.ascending.2 fun _ =>
      h.mem_ends_iff.trans h'.mem_ends_iff.symm
  exact (List.zip_of_prod hfst hsnd).trans (List.zip_of_prod rfl rfl).symm

end Bridged

/-! ## 5. Differences of unsigned numbers -/

/-- A difference of unsigned numbers, which there is not below zero. -/
def difference? (a b : Nat) : Option Nat := if b ≤ a then some (a - b) else none

/-- The ranges after an open range, by differences of unsigned numbers. -/
def unsignedRangesFrom? (countable : List Nat) (first last : Nat) :
    List Nat → Option (List (Nat × Nat))
  | [] => some [(first, last)]
  | n :: rest => do
    let gap ← difference? (← difference? n last) 1
    if gap ≤ widestBridge && (between last n).all fun m => !countable.contains m then
      unsignedRangesFrom? countable first n rest
    else return (first, last) :: (← unsignedRangesFrom? countable n n rest)

def unsignedRanges? (lines countable : List Nat) : Option (List (Nat × Nat)) :=
  match lines with
  | [] => some []
  | n :: rest => unsignedRangesFrom? countable n n rest

theorem unsignedRangesFrom?_eq (h : (last :: rest).Pairwise (· < ·)) :
    unsignedRangesFrom? countable first last rest =
      some (lineRangesFrom countable first last rest) := by
  induction rest generalizing first last with
  | nil => rfl
  | cons n rest ih =>
    obtain ⟨hlast, hrest⟩ := List.pairwise_cons.1 h
    have hlt := hlast n List.mem_cons_self
    have hgap : difference? n last = some (n - last) := if_pos hlt.le
    have hgap' : difference? (n - last) 1 = some (n - last - 1) := if_pos (by omega)
    simp only [unsignedRangesFrom?, hgap, hgap', Option.bind_eq_bind, Option.bind_some]
    rw [ih hrest, ih hrest, lineRangesFrom, bridges]
    split <;> rfl

/-- **The ranges of ascending numbers are their maximal bridging**, the only one, and no difference
that is taken on the way falls below zero. -/
theorem lineRanges_maximal (h : lines.Pairwise (· < ·)) (countable : List Nat) :
    unsignedRanges? lines countable = some (lineRanges lines countable) ∧
    Bridged lines countable (lineRanges lines countable) ∧
    ∀ ranges, Bridged lines countable ranges → ranges = lineRanges lines countable := by
  have hbridged := bridged_lineRanges h countable
  refine ⟨?_, hbridged, fun ranges hranges => hranges.unique hbridged⟩
  cases lines with
  | nil => rfl
  | cons n rest => exact unsignedRangesFrom?_eq h

/-- One gap is bridged; one has a number that counts, and one is too long. -/
theorem lineRanges_maximal_gaps :
    [1, 4, 6, 10].Pairwise (· < ·) ∧
    lineRanges [1, 4, 6, 10] [1, 4, 5, 6, 10] = [(1, 4), (6, 6), (10, 10)] ∧
    unsignedRanges? [1, 4, 6, 10] [1, 4, 5, 6, 10] = some [(1, 4), (6, 6), (10, 10)] ∧
    Bridged [1, 4, 6, 10] [1, 4, 5, 6, 10] [(1, 4), (6, 6), (10, 10)] := by
  have hlines : [1, 4, 6, 10].Pairwise (· < ·) := by decide
  obtain ⟨hunsigned, hbridged, -⟩ := lineRanges_maximal hlines [1, 4, 5, 6, 10]
  exact ⟨hlines, rfl, hunsigned, hbridged⟩

end CoverageLedger.LineRanges
