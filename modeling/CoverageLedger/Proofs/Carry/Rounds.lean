import CoverageLedger.Carry
import CoverageLedger.Proofs.Text.Pieces
import Mathlib.Logic.Function.Iterate

/-!
# Names count the rounds

Every name that a round gives starts with a count in brackets, or is the name of a session that had
none.  The next round reads the count back and finds all that follows it as it was, whatever stands
there (`nameAfter_countText`); only the first round tells apart the names that a session may have had
before (`nameAfter_counts`).
-/

namespace CoverageLedger.Carry

variable {fuel r n k : Nat} {cs rest tail digits : List Char}

/-! ## 1. What a name is read as -/

theorem oldRounds_of_unmarked (h : ¬ oldMark <+: cs) (fuel : Nat) : oldRounds fuel cs = (0, cs) := by
  have hnone : Text.afterStart oldMark cs = none :=
    if_neg fun hstart => h (List.isPrefixOf_iff_prefix.1 hstart)
  cases fuel with
  | zero => rfl
  | succ fuel => rw [oldRounds, hnone]

/-- Every mark of an older name is counted, as long as there are as many rounds to try. -/
theorem oldRounds_marked (h : ¬ oldMark <+: rest) (hfuel : r ≤ fuel) :
    oldRounds fuel ((List.replicate r oldMark).flatten ++ rest) = (r, rest) := by
  induction r generalizing fuel with
  | zero => exact oldRounds_of_unmarked h fuel
  | succ r ih =>
    obtain ⟨fuel, rfl⟩ := Nat.exists_eq_succ_of_ne_zero (Nat.ne_of_gt (Nat.lt_of_lt_of_le
      (Nat.succ_pos r) hfuel))
    have hrest := ih (Nat.le_of_succ_le_succ hfuel)
    simp only [List.replicate_succ, List.flatten_cons, List.append_assoc, oldRounds,
      Text.afterStart_append, hrest]

theorem length_marked (r : Nat) (rest : List Char) :
    r ≤ ((List.replicate r oldMark).flatten ++ rest).length := by
  have hlength : oldMark.length = 3 := rfl
  rw [List.length_append, List.length_flatten, List.map_replicate, List.sum_replicate_nat, hlength]
  omega

/-- A name is read as counted when it has a numeral in brackets at its start. -/
theorem countedRounds?_eq_some_iff : countedRounds? cs = some (n, tail) ↔
    n < Text.word64 ∧ ∃ digits, Text.IsNumeral digits n ∧ cs = countMark ++ digits ++ ']' :: tail := by
  constructor
  · intro h
    obtain ⟨inner, hinner, h⟩ := Option.bind_eq_some_iff.1 h
    obtain ⟨⟨digits, after⟩, hsplit, h⟩ := Option.bind_eq_some_iff.1 h
    obtain ⟨m, hdigits, h⟩ := Option.bind_eq_some_iff.1 h
    obtain ⟨hlt, heq⟩ := Option.ite_none_right_eq_some.1 h
    obtain ⟨rfl, rfl⟩ := Prod.mk.inj (Option.some.inj heq)
    refine ⟨hlt, digits, Text.digits?_eq_some_iff.1 hdigits, ?_⟩
    rw [Text.afterStart_eq_some_iff.1 hinner, (Text.splitOnce_eq_some hsplit).2, List.append_assoc]
  · rintro ⟨hlt, digits, hdigits, rfl⟩
    have hout : ']' ∉ digits := fun hin => absurd (hdigits.digits _ hin) (by decide)
    rw [countedRounds?, List.append_assoc, Text.afterStart_append, Option.bind_eq_bind,
      Option.bind_some, Text.splitOnce_append hout, Option.bind_eq_bind, Option.bind_some]
    simp only [Text.digits?_eq_some_iff.2 hdigits, Option.bind_eq_bind, Option.bind_some, if_pos hlt]

/-! ## 2. One round -/

theorem toList_countText (n : Nat) :
    (countText n).toList = countMark ++ Nat.toDigits 10 n ++ [']'] := by
  rw [countText, String.toList_append, String.toList_append, Text.toList_toString]
  rfl

/-- A name with a count in brackets has no older mark. -/
theorem not_oldMark_prefix_countMark : ¬ oldMark <+: countMark ++ cs := by
  rintro ⟨more, h⟩
  exact absurd (List.cons.inj (List.cons.inj (List.cons.inj h).2).2).1 (by decide)

theorem nextName_of_counted {name tail : String} (hn : n < Text.word64)
    (hdigits : Text.IsNumeral digits n)
    (hname : name.toList = countMark ++ digits ++ ']' :: tail.toList) :
    nextName (some name) = countText (n + 1) ++ tail := by
  have hcounted : countedRounds? name.toList = some (n, tail.toList) :=
    countedRounds?_eq_some_iff.2 ⟨hn, digits, hdigits, hname⟩
  have hold : oldRounds name.toList.length name.toList = (0, name.toList) := by
    refine oldRounds_of_unmarked ?_ _
    rw [hname, List.append_assoc]
    exact not_oldMark_prefix_countMark
  have hne : name.toList.isEmpty = false := by
    rw [hname]
    rfl
  rw [nextName, Option.getD_some, hne, hold, hcounted]
  show countText (n + 1) ++ String.ofList tail.toList = _
  rw [String.ofList_toList]

theorem nextName_of_marked {name rest : String} (hr : 1 ≤ r) (hrest : ¬ oldMark <+: rest.toList)
    (hname : name.toList = (List.replicate r oldMark).flatten ++ rest.toList) :
    nextName (some name) = countText r ++ " - " ++ rest := by
  obtain ⟨r, rfl⟩ := Nat.exists_eq_add_of_le' hr
  have hold : oldRounds name.toList.length name.toList = (r + 1, rest.toList) := by
    rw [hname]
    exact oldRounds_marked hrest (length_marked _ _)
  have hne : name.toList.isEmpty = false := by
    rw [hname]
    rfl
  rw [nextName, Option.getD_some, hne, hold]
  show countText (r + 1) ++ " - " ++ String.ofList rest.toList = _
  rw [String.ofList_toList]

theorem nextName_of_other {name : String} (hne : name ≠ "") (hold : ¬ oldMark <+: name.toList)
    (hcounted : countedRounds? name.toList = none) :
    nextName (some name) = countText 1 ++ " - " ++ name := by
  have hempty : name.toList.isEmpty = false := by
    rw [List.isEmpty_eq_false_iff]
    exact fun heq => hne (String.toList_inj.1 heq)
  rw [nextName, Option.getD_some, hempty, oldRounds_of_unmarked hold, hcounted]
  rfl

/-! ## 3. Many rounds -/

/-- The name of a session after some rounds. -/
def nameAfter (k : Nat) (name : Option String) : Option String :=
  (fun name => some (nextName name))^[k] name

theorem nameAfter_succ (k : Nat) (name : Option String) :
    nameAfter (k + 1) name = nameAfter k (some (nextName name)) := rfl

/-- **Rounds count on from a count.**  What follows it is never read as anything else. -/
theorem nameAfter_countText {tail : String} (h : n + k ≤ Text.word64) :
    nameAfter k (some (countText n ++ tail)) = some (countText (n + k) ++ tail) := by
  induction k generalizing n with
  | zero => rfl
  | succ k ih =>
    have hname : (countText n ++ tail).toList =
        countMark ++ Nat.toDigits 10 n ++ ']' :: tail.toList := by
      rw [String.toList_append, toList_countText, List.append_assoc, List.append_assoc]
      rfl
    rw [nameAfter_succ, nextName_of_counted (by omega) (Text.isNumeral_toDigits n) hname,
      ih (by omega), Nat.add_right_comm, Nat.add_assoc]

/-- A first round that starts a count is followed by rounds that go on with it. -/
theorem nameAfter_of_first {name : Option String} {tail : String} (hk : 1 ≤ k)
    (hfirst : nextName name = countText n ++ tail) (h : n + (k - 1) ≤ Text.word64) :
    nameAfter k name = some (countText (n + (k - 1)) ++ tail) := by
  obtain ⟨k, rfl⟩ := Nat.exists_eq_add_of_le' hk
  rw [Nat.add_sub_cancel] at h ⊢
  rw [nameAfter_succ, hfirst, nameAfter_countText h]

/-- What older marks and a rest make up, in characters. -/
theorem toList_marked (r : Nat) (rest : String) :
    (String.join (List.replicate r "CF ") ++ rest).toList =
      (List.replicate r oldMark).flatten ++ rest.toList := by
  rw [String.toList_append, String.toList_join, List.flatMap_def, List.map_replicate]
  rfl

theorem not_oldMark_prefix_iff {name : String} :
    ¬ oldMark <+: name.toList ↔ ∀ more, name ≠ "CF " ++ more := by
  constructor
  · rintro h more rfl
    exact h ⟨more.toList, String.toList_append.symm⟩
  · rintro h ⟨more, heq⟩
    refine h (String.ofList more) (String.toList_inj.1 (heq.symm.trans ?_))
    exact (congrArg (oldMark ++ ·) String.toList_ofList.symm).trans String.toList_append.symm

theorem countText_append_dash (n : Nat) (rest : String) :
    countText n ++ (" - " ++ rest) = "CF[" ++ toString n ++ "] - " ++ rest := by
  simp only [countText, String.append_assoc]
  rfl

theorem nameAfter_marked {rest : String} (hk : 1 ≤ k) (hr : 1 ≤ r)
    (hrest : ∀ more, rest ≠ "CF " ++ more) (hlt : r + k - 1 < Text.word64) :
    nameAfter k (some (String.join (List.replicate r "CF ") ++ rest)) =
      some ("CF[" ++ toString (r + k - 1) ++ "] - " ++ rest) := by
  have hfirst := nextName_of_marked hr (not_oldMark_prefix_iff.2 hrest) (toList_marked r rest)
  rw [nameAfter_of_first hk (hfirst.trans (String.append_assoc ..)) (by omega),
    countText_append_dash, Nat.add_sub_assoc hk]

theorem nameAfter_counted {digits tail : String} (hk : 1 ≤ k)
    (hdigits : Text.IsNumeral digits.toList n) (hlt : n + k < Text.word64) :
    nameAfter k (some ("CF[" ++ digits ++ "]" ++ tail)) =
      some ("CF[" ++ toString (n + k) ++ "]" ++ tail) := by
  have hname : ("CF[" ++ digits ++ "]" ++ tail).toList =
      countMark ++ digits.toList ++ ']' :: tail.toList := by
    simp only [String.toList_append, List.append_assoc]
    rfl
  rw [nameAfter_of_first hk (nextName_of_counted (by omega) hdigits hname) (by omega), countText,
    Nat.add_assoc, Nat.add_sub_cancel' hk]

theorem nameAfter_other {name : String} (hk : 1 ≤ k) (hne : name ≠ "")
    (hold : ∀ more, name ≠ "CF " ++ more) (hcounted : countedRounds? name.toList = none)
    (hlt : k < Text.word64) :
    nameAfter k (some name) = some ("CF[" ++ toString k ++ "] - " ++ name) := by
  have hfirst := nextName_of_other hne (not_oldMark_prefix_iff.2 hold) hcounted
  rw [nameAfter_of_first hk (hfirst.trans (String.append_assoc ..)) (by omega),
    countText_append_dash, Nat.add_sub_cancel' hk]

/-- The first round names the session, and this name is like any other from then on. -/
theorem nameAfter_unnamed {name : Option String} (hk : 1 ≤ k) (hname : name = none ∨ name = some "")
    (hlt : k - 1 < Text.word64) :
    nameAfter k name = some (if k = 1 then "Carriedforward"
      else "CF[" ++ toString (k - 1) ++ "] - " ++ "Carriedforward") := by
  have hfirst : nextName name = "Carriedforward" := by
    rcases hname with rfl | rfl <;> rfl
  obtain ⟨k, rfl⟩ := Nat.exists_eq_add_of_le' hk
  rw [nameAfter_succ, hfirst, Nat.add_sub_cancel] at *
  split
  · rename_i hzero
    obtain rfl : k = 0 := by omega
    rfl
  · have hplain : ¬ oldMark <+: "Carriedforward".toList := by decide
    exact nameAfter_other (by omega) (by decide) (not_oldMark_prefix_iff.1 hplain) (by rfl) hlt

theorem countedRounds?_eq_none {name : String}
    (h : ∀ digits n tail, Text.IsNumeral digits.toList n → name ≠ "CF[" ++ digits ++ "]" ++ tail) :
    countedRounds? name.toList = none := by
  refine Option.eq_none_iff_forall_ne_some.2 ?_
  rintro ⟨n, tail⟩ hread
  obtain ⟨-, digits, hdigits, heq⟩ := countedRounds?_eq_some_iff.1 hread
  refine h (String.ofList digits) n (String.ofList tail) ?_ (String.toList_inj.1 ?_)
  · rw [String.toList_ofList]
    exact hdigits
  · rw [heq]
    simp only [String.toList_append, String.toList_ofList, List.append_assoc]
    rfl

/-- **Names count the rounds.**  After some rounds, a name with older marks counts them and all but
the first of these rounds; a name with a numeral in brackets counts on from it; a session without a
name counts the rounds after the first; and every other name counts them all. -/
theorem nameAfter_counts (hk : 1 ≤ k) :
    (∀ r rest, 1 ≤ r → (∀ more, rest ≠ "CF " ++ more) → r + k - 1 < Text.word64 →
      nameAfter k (some (String.join (List.replicate r "CF ") ++ rest)) =
        some ("CF[" ++ toString (r + k - 1) ++ "] - " ++ rest)) ∧
    (∀ digits n tail, Text.IsNumeral digits.toList n → n + k < Text.word64 →
      nameAfter k (some ("CF[" ++ digits ++ "]" ++ tail)) =
        some ("CF[" ++ toString (n + k) ++ "]" ++ tail)) ∧
    (∀ name, name = none ∨ name = some "" → k - 1 < Text.word64 →
      nameAfter k name = some (if k = 1 then "Carriedforward"
        else "CF[" ++ toString (k - 1) ++ "] - " ++ "Carriedforward")) ∧
    ∀ name, name ≠ "" → (∀ more, name ≠ "CF " ++ more) →
      (∀ digits n tail, Text.IsNumeral digits.toList n → name ≠ "CF[" ++ digits ++ "]" ++ tail) →
      k < Text.word64 →
      nameAfter k (some name) = some ("CF[" ++ toString k ++ "] - " ++ name) := by
  refine ⟨fun r rest hr hrest hlt => nameAfter_marked hk hr hrest hlt,
    fun digits n tail hdigits hlt => nameAfter_counted hk hdigits hlt,
    fun name hname hlt => nameAfter_unnamed hk hname hlt,
    fun name hne hold hcounted hlt => ?_⟩
  exact nameAfter_other hk hne hold (countedRounds?_eq_none hcounted) hlt

/-- Two rounds of an older name, a counted one, none at all, and one with a bracket that counts
nothing. -/
theorem nameAfter_counts_twice :
    1 ≤ 2 ∧
    nameAfter 2 (some "CF CF Dude") = some "CF[3] - Dude" ∧
    nameAfter 2 (some "CF[09]] x") = some "CF[11]] x" ∧
    nameAfter 2 none = some "CF[1] - Carriedforward" ∧
    nameAfter 2 (some "CF[x] - y") = some "CF[2] - CF[x] - y" := by
  have hk : 1 ≤ 2 := by decide
  obtain ⟨hmarked, hcounted, hnone, hother⟩ := nameAfter_counts hk
  have hnine : Text.IsNumeral "09".toList 9 :=
    ⟨by decide, List.all_eq_true.1 (by decide), by decide⟩
  have hrest : ¬ oldMark <+: "Dude".toList := by decide
  have hplain : ¬ oldMark <+: "CF[x] - y".toList := by decide
  refine ⟨hk, hmarked 2 "Dude" (by decide) (not_oldMark_prefix_iff.1 hrest) (by decide),
    hcounted "09" 9 "] x" hnine (by decide), hnone none (.inl rfl) (by decide),
    hother "CF[x] - y" (by decide) (not_oldMark_prefix_iff.1 hplain) ?_ (by decide)⟩
  -- what stands in the brackets starts with no digit
  intro digits n tail hdigits heq
  obtain ⟨c, cs, hcs⟩ := List.exists_cons_of_ne_nil hdigits.ne_nil
  have hlist := congrArg String.toList heq
  rw [String.toList_append, String.toList_append, String.toList_append, hcs] at hlist
  have hc : 'x' = c :=
    (List.cons.inj (List.cons.inj (List.cons.inj (List.cons.inj hlist).2).2).2).1
  have hdigit := hdigits.digits c (hcs ▸ List.mem_cons_self)
  rw [← hc] at hdigit
  exact absurd hdigit (by decide)

end CoverageLedger.Carry
