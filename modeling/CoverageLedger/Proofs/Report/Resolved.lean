import CoverageLedger.Proofs.Report.Untagged

/-!
# Path fixes

Path fixes are applied one after the other to a report that the earlier ones have already renamed.
What stands under each name is then a matter of names only: `stored?_resolvePaths` reduces it to
`applied`, which moves values of any kind.  In all cases a file ends where the fixes lead it one by
one, its lines and totals unaltered, unless a later one takes its place (`resolvePaths_follows`).
That is the name that its own fix gives it, and the file whose fix comes last takes the place, when
no fix leads a file to a name that a later fix is for.
-/

namespace CoverageLedger

/-- A path fix: a name, and the new one for it, or none for a file that is to go. -/
abbrev PathFix := String × Option String

namespace PathFix

/-! ## 1. One fix -/

section apply

variable {α : Type} {m : String → Option α} {before p q : String} {next : Option String} {a : α}

/-- Where a fix leads a name: all names but its own stay. -/
def lead (fix : PathFix) (q : String) : Option String := if q = fix.1 then fix.2 else some q

/-- What stands under each name once a fix was applied. -/
def apply (m : String → Option α) (fix : PathFix) (q : String) : Option α :=
  match m fix.1, fix.2 with
  | none, _ => m q
  | some _, none => if q = fix.1 then none else m q
  | some a, some after => if q = after then some a else if q = fix.1 then none else m q

theorem lead_self : lead (before, next) before = next := if_pos rfl

theorem lead_of_ne (h : q ≠ before) : lead (before, next) q = some q := if_neg h

theorem lead_eq_some : lead (before, next) p = some q ↔
    p = before ∧ next = some q ∨ p ≠ before ∧ p = q := by
  by_cases hp : p = before
  · rw [hp, lead_self]
    simp
  · rw [lead_of_ne hp]
    simp [hp]

/-- A fix for a name without a value changes nothing. -/
theorem apply_of_none (h : m before = none) : apply m (before, next) = m := by
  funext q
  unfold apply
  rw [h]

theorem apply_of_ne (hq : q ≠ before) (hnext : next ≠ some q) : apply m (before, next) q = m q := by
  unfold apply
  cases m before with
  | none => rfl
  | some a =>
    cases next with
    | none => exact if_neg hq
    | some after => exact (if_neg fun heq => hnext (congrArg some heq.symm)).trans (if_neg hq)

/-- The value of a name that a fix is for comes under the new name. -/
theorem apply_new (h : m before = some a) : apply m (before, some q) q = some a := by
  unfold apply
  rw [h]
  exact if_pos rfl

/-- It goes from the old name, unless this is the new one as well. -/
theorem apply_old (h : m before = some a) (hnext : next ≠ some before) :
    apply m (before, next) before = none := by
  unfold apply
  rw [h]
  cases next with
  | none => exact if_pos rfl
  | some after => exact (if_neg fun heq => hnext (congrArg some heq.symm)).trans (if_pos rfl)

/-- A value that stands under a name was under one that the fix leads there. -/
theorem exists_of_apply (h : apply m (before, next) q = some a) :
    ∃ p, lead (before, next) p = some q ∧ m p = some a := by
  cases hbefore : m before with
  | none =>
    rw [apply_of_none hbefore] at h
    have hq : q ≠ before := by
      rintro rfl
      rw [h] at hbefore
      cases hbefore
    exact ⟨q, lead_of_ne hq, h⟩
  | some own =>
    by_cases hnext : next = some q
    · rw [hnext, apply_new hbefore] at h
      exact ⟨before, lead_self.trans hnext, hbefore.trans h⟩
    · have hq : q ≠ before := by
        rintro rfl
        rw [apply_old hbefore hnext] at h
        cases h
      rw [apply_of_ne hq hnext] at h
      exact ⟨q, lead_of_ne hq, h⟩

/-- Where a fix leads a value to, a value stands: it or another. -/
theorem exists_apply (hlead : lead (before, next) p = some q) (h : m p = some a) :
    ∃ b, apply m (before, next) q = some b := by
  rcases lead_eq_some.1 hlead with ⟨rfl, hnext⟩ | ⟨hp, rfl⟩
  · rw [hnext]
    exact ⟨a, apply_new h⟩
  · by_cases hnext : next = some p
    · cases hbefore : m before with
      | none => exact ⟨a, by rw [apply_of_none hbefore, h]⟩
      | some own => exact ⟨own, by rw [hnext, apply_new hbefore]⟩
    · exact ⟨a, by rw [apply_of_ne hp hnext, h]⟩

end apply

/-! ## 2. Fixes one after the other -/

section applied

variable {α : Type} {m : String → Option α} {names : List String} {done fixes : List PathFix}
  {before p q : String} {next : Option String} {a : α}

/-- What stands under each name once some fixes were applied in order. -/
def applied (fixes : List PathFix) (m : String → Option α) : String → Option α :=
  fixes.foldl apply m

/-- Where a name leads when fixes are followed one by one. -/
def destination (fixes : List PathFix) (p : String) : Option String :=
  fixes.foldl (fun reached fix => reached.bind fix.lead) (some p)

theorem applied_append (done : List PathFix) (fix : PathFix) (m : String → Option α) :
    applied (done ++ [fix]) m = apply (applied done m) fix := by
  rw [applied, List.foldl_append]
  rfl

theorem destination_append (done : List PathFix) (fix : PathFix) (p : String) :
    destination (done ++ [fix]) p = (destination done p).bind fix.lead := by
  rw [destination, List.foldl_append]
  rfl

/-- A value has come from a name that leads to where it stands. -/
theorem exists_of_applied (h : applied fixes m q = some a) :
    ∃ p, destination fixes p = some q ∧ m p = some a := by
  induction fixes using List.reverseRecOn generalizing q with
  | nil => exact ⟨q, rfl, h⟩
  | append_singleton done fix ih =>
    rw [applied_append] at h
    obtain ⟨reached, hlead, hreached⟩ := exists_of_apply h
    obtain ⟨p, hp, hvalue⟩ := ih hreached
    exact ⟨p, by rw [destination_append, hp, Option.bind_some, hlead], hvalue⟩

/-- Where a name with a value leads, a value stands. -/
theorem exists_applied (h : m p = some a) (hlead : destination fixes p = some q) :
    ∃ b, applied fixes m q = some b := by
  induction fixes using List.reverseRecOn generalizing q with
  | nil =>
    obtain rfl := Option.some.inj hlead
    exact ⟨a, h⟩
  | append_singleton done fix ih =>
    rw [destination_append] at hlead
    obtain ⟨reached, hreached, hlast⟩ := Option.bind_eq_some_iff.1 hlead
    obtain ⟨b, hb⟩ := ih hreached
    rw [applied_append]
    exact exists_apply hlast hb

/-! ## 3. Fixes of which none follows on another -/

/-- The name that its own fix gives a name: itself when no fix is for it. -/
def target (fixes : List PathFix) (p : String) : Option String := (fixes.lookup p).getD (some p)

/-- The place of a name among fixes, from 1 on, or 0 when none is for it. -/
def rank (fixes : List PathFix) (p : String) : Nat :=
  if p ∈ fixes.map Prod.fst then (fixes.map Prod.fst).idxOf p + 1 else 0

/-- No fix leads a file to a name that a later fix is for. -/
def Unchained (names : List String) (fixes : List PathFix) : Prop :=
  fixes.Pairwise fun fix later => fix.1 ∈ names → fix.2 ≠ some later.1

instance : Decidable (Unchained names fixes) := inferInstanceAs (Decidable (List.Pairwise _ _))

/-- Of the names that have a target, a name is the one whose fix comes last. -/
structure Wins (names : List String) (fixes : List PathFix) (p q : String) : Prop where
  named : p ∈ names
  target : target fixes p = some q
  last : ∀ p' ∈ names, PathFix.target fixes p' = some q → rank fixes p' ≤ rank fixes p

theorem lookup_of_not_mem (h : p ∉ fixes.map Prod.fst) : fixes.lookup p = none := by
  refine List.lookup_eq_none_iff.2 fun fix hfix => bne_iff_ne.2 ?_
  rintro rfl
  exact h (List.mem_map_of_mem hfix)

theorem target_of_not_mem (h : p ∉ fixes.map Prod.fst) : target fixes p = some p := by
  rw [target, lookup_of_not_mem h]
  rfl

/-- A name has another target only by a fix for it. -/
theorem mem_of_target (h : target fixes p = some q) (hne : p ≠ q) : (p, some q) ∈ fixes := by
  rw [target] at h
  cases hfix : fixes.lookup p with
  | none =>
    rw [hfix] at h
    exact absurd (Option.some.inj h) hne
  | some own =>
    rw [hfix] at h
    obtain rfl : own = some q := h
    obtain ⟨earlier, later, rfl, -⟩ := List.lookup_eq_some_iff.1 hfix
    exact List.mem_append_right _ List.mem_cons_self

theorem target_append (hnew : before ∉ done.map Prod.fst) (p : String) :
    target (done ++ [(before, next)]) p = if p = before then next else target done p := by
  rw [target, List.lookup_append]
  by_cases hp : p = before
  · rw [if_pos hp, hp, lookup_of_not_mem hnew, List.lookup_cons, beq_self_eq_true]
    rfl
  · rw [if_neg hp, List.lookup_cons, beq_eq_false_iff_ne.2 hp]
    exact congrArg (·.getD (some p)) Option.or_none

theorem rank_append (hnew : before ∉ done.map Prod.fst) (p : String) :
    rank (done ++ [(before, next)]) p = if p = before then done.length + 1 else rank done p := by
  rw [rank, List.map_append, List.map_singleton]
  by_cases hp : p = before
  · rw [if_pos hp, hp, if_pos (List.mem_append_right _ (List.mem_singleton_self _)),
      List.idxOf_append_of_notMem hnew, List.idxOf_cons_self, List.length_map]
  · rw [if_neg hp, rank]
    by_cases hin : p ∈ done.map Prod.fst
    · rw [if_pos hin, if_pos (List.mem_append_left _ hin), List.idxOf_append_of_mem hin]
    · rw [if_neg hin, if_neg (by simp [hin, hp])]

theorem rank_le_length (p : String) : rank done p ≤ done.length := by
  rw [rank]
  split
  · rename_i hin
    rw [← List.length_map (f := Prod.fst)]
    exact List.idxOf_lt_length_iff.2 hin
  · exact Nat.zero_le _

/-- What stands under a name is the value of the name whose fix comes last of those with the target,
and no name without a value is the target of one that has a value. -/
structure Settled (names : List String) (fixes : List PathFix) (m : String → Option α) (q : String)
    (found : Option α) : Prop where
  winner : ∀ a, found = some a → ∃ p, m p = some a ∧ Wins names fixes p q
  free : found = none → ∀ p ∈ names, target fixes p ≠ some q

theorem Settled.append {found : Option α} (h : Settled names done m q found)
    (hnew : before ∉ done.map Prod.fst) (hq : before ∈ names → q ≠ before ∧ next ≠ some q) :
    Settled names (done ++ [(before, next)]) m q found := by
  -- the fix is for no name that has or gets this target
  have htarget : ∀ p ∈ names, target (done ++ [(before, next)]) p = some q ↔
      p ≠ before ∧ target done p = some q := by
    intro p hp
    rw [target_append hnew]
    by_cases heq : p = before
    · rw [if_pos heq]
      exact iff_of_false (hq (heq ▸ hp)).2 fun hne => hne.1 heq
    · rw [if_neg heq]
      exact (and_iff_right heq).symm
  have hother : ∀ p ∈ names, target done p = some q → p ≠ before := by
    rintro p hp hpq rfl
    rw [target_of_not_mem hnew] at hpq
    exact (hq hp).1 (Option.some.inj hpq).symm
  refine ⟨fun a ha => ?_, fun hnone p hp hpq => h.free hnone p hp ((htarget p hp).1 hpq).2⟩
  obtain ⟨p, hpa, hwins⟩ := h.winner a ha
  have hp := hother p hwins.named hwins.target
  refine ⟨p, hpa, hwins.named, (htarget p hwins.named).2 ⟨hp, hwins.target⟩, fun p' hp' hp'q => ?_⟩
  obtain ⟨hne, hold⟩ := (htarget p' hp').1 hp'q
  rw [rank_append hnew, rank_append hnew, if_neg hne, if_neg hp]
  exact hwins.last p' hp' hold

/-- Fixes with different names, of which none leads to the name of a later one: by induction, with
the last fix apart.  Nothing has come to its name before, and its own rank is the greatest. -/
theorem settled_applied (hnames : ∀ p, p ∈ names ↔ ∃ a, m p = some a)
    (hdistinct : (fixes.map Prod.fst).Nodup) (hunchained : Unchained names fixes) (q : String) :
    Settled names fixes m q (applied fixes m q) := by
  induction fixes using List.reverseRecOn generalizing q with
  | nil =>
    have htarget (p : String) : target [] p = some p := rfl
    refine ⟨fun a ha => ⟨q, ha, (hnames q).2 ⟨a, ha⟩, rfl, fun p' _ _ => Nat.zero_le _⟩,
      fun hnone p hp hpq => ?_⟩
    obtain rfl := Option.some.inj hpq
    obtain ⟨a, ha⟩ := (hnames p).1 hp
    rw [applied, List.foldl_nil, ha] at hnone
    cases hnone
  | append_singleton done fix ih =>
    obtain ⟨before, next⟩ := fix
    rw [List.map_append, List.map_singleton, List.nodup_append] at hdistinct
    obtain ⟨hdone, -, hapart⟩ := hdistinct
    have hnew : before ∉ done.map Prod.fst := fun hin =>
      hapart _ hin _ (List.mem_singleton_self _) rfl
    obtain ⟨hearlier, -, hlast⟩ := List.pairwise_append.1 hunchained
    have hsettled := ih hdone hearlier
    have honly : ∀ p ∈ names, target done p = some before → p = before := by
      intro p hp hpb
      by_contra hne
      exact hlast _ (mem_of_target hpb hne) _ (List.mem_singleton_self _) hp rfl
    -- so under the name of the last fix stands what stood there at the start
    have hstart (a : α) (ha : applied done m before = some a) : m before = some a := by
      obtain ⟨p, hpa, hwins⟩ := (hsettled before).winner a ha
      rwa [honly p hwins.named hwins.target] at hpa
    rw [applied_append]
    cases hbefore : applied done m before with
    | none =>
      have hout : before ∉ names := fun hin =>
        (hsettled before).free hbefore before hin (target_of_not_mem hnew)
      rw [apply_of_none hbefore]
      exact (hsettled q).append hnew fun hin => absurd hin hout
    | some a =>
      have hin : before ∈ names := (hnames before).2 ⟨a, hstart a hbefore⟩
      by_cases hnext : next = some q
      · rw [hnext, apply_new hbefore]
        refine ⟨fun b hb => ⟨before, (hstart a hbefore).trans hb, hin, ?_, fun p' _ _ => ?_⟩,
          fun hnone => (nomatch hnone)⟩
        · rw [target_append hnew, if_pos rfl]
        · rw [rank_append hnew, rank_append hnew, if_pos rfl]
          split
          · exact Nat.le_refl _
          · exact Nat.le_succ_of_le (rank_le_length p')
      · by_cases hq : q = before
        · rw [hq] at hnext ⊢
          rw [apply_old hbefore hnext]
          refine ⟨fun b hb => (nomatch hb), fun _ p hp hpb => ?_⟩
          rw [target_append hnew] at hpb
          split at hpb
          · exact hnext hpb
          · rename_i hne
            exact hne (honly p hp hpb)
        · rw [apply_of_ne hq hnext]
          exact (hsettled q).append hnew fun _ => ⟨hq, hnext⟩

end applied

end PathFix

/-! ## 4. Fixes of a report -/

/-- A row but for the name that the file in it bears. -/
def Row.unnamed (w : Row) : Row := { w with file := { w.file with name := "" } }

namespace Report

open PathFix (applied apply destination target rank Unchained Wins)

variable {r : Report} {fixes : List PathFix} {p q : String}

/-- The totals and the file that a report has under a name, whatever name the file bears. -/
def stored? (r : Report) (q : String) : Option Row := (r.row? q).map Row.unnamed

theorem Consistent.mem_names_iff_stored? (h : r.Consistent) :
    q ∈ r.names ↔ ∃ w, r.stored? q = some w := by
  rw [h.mem_names_iff]
  constructor
  · rintro ⟨f, hf⟩
    obtain ⟨w, hw, -⟩ := exists_row? hf
    exact ⟨w.unnamed, by rw [stored?, hw, Option.map_some]⟩
  · rintro ⟨w, hw⟩
    obtain ⟨own, hown, -⟩ := Option.map_eq_some_iff.1 hw
    exact ⟨own.file, file?_of_row? hown⟩

theorem lineAt?_eq_stored? (r : Report) (q : String) (n : Nat) :
    r.lineAt? q n = (r.stored? q).bind fun w => w.file.lines.get? n := by
  rw [lineAt?_eq_row, stored?]
  cases r.row? q <;> rfl

theorem stored?_remove (h : r.Consistent) (name : String) :
    (r.remove name).2.stored? q = if q = name then none else r.stored? q := by
  rw [stored?, row?_remove h]
  split <;> rfl

theorem stored?_rename (h : r.Consistent) {old new : String} {e : FileEntry} (hne : old ≠ new)
    (he : r.files.get? old = some e) : (r.rename old new).2.stored? q =
      if q = new then r.stored? old else if q = old then none else r.stored? q := by
  obtain ⟨hleft, f, hf, hmoved⟩ := rename_of_get? h hne he
  rw [hmoved, stored?, row?_moved (h.remove new) hleft hf, row?_remove h, row?_remove h, if_neg hne]
  by_cases hq : q = new
  · rw [if_pos hq, if_pos hq, Option.map_map]
    rfl
  · rw [if_neg hq, if_neg hq, if_neg hq]
    split <;> rfl

/-- One fix moves what is stored as it moves any value. -/
theorem stored?_resolvePath (h : r.Consistent) (fix : PathFix) :
    (r.resolvePath fix.1 fix.2).stored? = apply r.stored? fix := by
  obtain ⟨before, next⟩ := fix
  funext q
  show stored? (r.resolvePath before next) q = apply r.stored? (before, next) q
  unfold resolvePath
  cases he : r.files.get? before with
  | none =>
    have hnone : r.stored? before = none := by rw [stored?, row?, he]; rfl
    have hout : r.files.contains before = false := by rw [Table.contains, he]; rfl
    rw [hout, PathFix.apply_of_none hnone]
    rfl
  | some e =>
    have hin : before ∈ r.names := mem_names.2 ⟨e, he⟩
    obtain ⟨w, hw⟩ := h.mem_names_iff_stored?.1 hin
    rw [(Table.contains_iff _).2 hin, Bool.not_true, if_neg Bool.false_ne_true]
    cases next with
    | none =>
      dsimp only
      rw [stored?_remove h]
      by_cases hq : q = before
      · rw [if_pos hq, hq, PathFix.apply_old hw (Option.some_ne_none before).symm]
      · rw [if_neg hq, PathFix.apply_of_ne hq (Option.some_ne_none q).symm]
    | some after =>
      dsimp only
      by_cases hsame : after = before
      · rw [if_pos hsame, hsame]
        by_cases hq : q = before
        · rw [hq, PathFix.apply_new hw, hw]
        · rw [PathFix.apply_of_ne hq fun heq => hq (Option.some.inj heq).symm]
      · rw [if_neg hsame, stored?_rename h (Ne.symm hsame) he]
        by_cases hq : q = after
        · rw [if_pos hq, hq, PathFix.apply_new hw, hw]
        · have hnext : some after ≠ some q := fun heq => hq (Option.some.inj heq).symm
          rw [if_neg hq]
          by_cases hold : q = before
          · rw [if_pos hold, hold, PathFix.apply_old hw fun heq => hsame (Option.some.inj heq)]
          · rw [if_neg hold, PathFix.apply_of_ne hold hnext]

theorem Consistent.resolvePaths (h : r.Consistent) (fixes : List PathFix) :
    (r.resolvePaths fixes).Consistent :=
  (Each.resolvePaths (P := fun _ _ => True) ⟨h, fun _ _ _ => trivial⟩ fixes
    fun _ _ _ hw => hw).consistent

theorem stored?_resolvePaths (h : r.Consistent) (fixes : List PathFix) :
    (r.resolvePaths fixes).stored? = applied fixes r.stored? := by
  induction fixes generalizing r with
  | nil => rfl
  | cons fix rest ih =>
    have hrest := ih (h.resolvePath fix.1 fix.2)
    rw [stored?_resolvePath h] at hrest
    exact hrest

/-- **Path fixes are followed one by one, and the later one wins.**  After any fixes of a consistent
report, the names are those that its names lead to, and under each stands, with all its lines and
totals, a file whose name leads there.

When the fixes are for different names, and none leads a file to a name that a later one is for, the
names are the targets of the names before, and under each target stands the file whose fix comes
last of those with this target; a file without a fix gives way to one with a fix. -/
theorem resolvePaths_follows (h : r.isConsistent = true) (fixes : List PathFix) :
    (∀ q, q ∈ (r.resolvePaths fixes).names ↔ ∃ p ∈ r.names, destination fixes p = some q) ∧
    (∀ q ∈ (r.resolvePaths fixes).names, ∃ p ∈ r.names, destination fixes p = some q ∧
      (r.resolvePaths fixes).stored? q = r.stored? p ∧
      ∀ n, (r.resolvePaths fixes).lineAt? q n = r.lineAt? p n) ∧
    ((fixes.map Prod.fst).Nodup → Unchained r.names fixes →
      (∀ q, q ∈ (r.resolvePaths fixes).names ↔ ∃ p ∈ r.names, target fixes p = some q) ∧
      ∀ q ∈ (r.resolvePaths fixes).names, ∃ p, Wins r.names fixes p q ∧
        (r.resolvePaths fixes).stored? q = r.stored? p ∧
        ∀ n, (r.resolvePaths fixes).lineAt? q n = r.lineAt? p n) := by
  have hconsistent := isConsistent_iff.1 h
  have hnames (p : String) := hconsistent.mem_names_iff_stored? (q := p)
  have hafter (q : String) := (hconsistent.resolvePaths fixes).mem_names_iff_stored? (q := q)
  have hstored := stored?_resolvePaths hconsistent fixes
  have hlines {p q : String} (hsame : (r.resolvePaths fixes).stored? q = r.stored? p) (n : Nat) :
      (r.resolvePaths fixes).lineAt? q n = r.lineAt? p n := by
    rw [lineAt?_eq_stored?, lineAt?_eq_stored?, hsame]
  have hsource {q : String} (hq : q ∈ (r.resolvePaths fixes).names) :
      ∃ p ∈ r.names, destination fixes p = some q ∧
        (r.resolvePaths fixes).stored? q = r.stored? p := by
    obtain ⟨w, hw⟩ := (hafter q).1 hq
    rw [hstored] at hw
    obtain ⟨p, hlead, hp⟩ := PathFix.exists_of_applied hw
    exact ⟨p, (hnames p).2 ⟨w, hp⟩, hlead, by rw [hstored, hw, hp]⟩
  refine ⟨fun q => ⟨fun hq => ?_, ?_⟩, fun q hq => ?_, fun hdistinct hunchained => ?_⟩
  · obtain ⟨p, hp, hlead, -⟩ := hsource hq
    exact ⟨p, hp, hlead⟩
  · rintro ⟨p, hp, hlead⟩
    obtain ⟨w, hw⟩ := (hnames p).1 hp
    rw [hafter, hstored]
    exact PathFix.exists_applied hw hlead
  · obtain ⟨p, hp, hlead, hsame⟩ := hsource hq
    exact ⟨p, hp, hlead, hsame, hlines hsame⟩
  · have hsettled := PathFix.settled_applied hnames hdistinct hunchained
    have hwinner {q : String} (hq : q ∈ (r.resolvePaths fixes).names) :
        ∃ p, Wins r.names fixes p q ∧ (r.resolvePaths fixes).stored? q = r.stored? p := by
      obtain ⟨w, hw⟩ := (hafter q).1 hq
      rw [hstored] at hw
      obtain ⟨p, hp, hwins⟩ := (hsettled q).winner w hw
      exact ⟨p, hwins, by rw [hstored, hw, hp]⟩
    refine ⟨fun q => ⟨fun hq => ?_, ?_⟩, fun q hq => ?_⟩
    · obtain ⟨p, hwins, -⟩ := hwinner hq
      exact ⟨p, hwins.named, hwins.target⟩
    · rintro ⟨p, hp, htarget⟩
      rw [hafter, hstored]
      refine Option.ne_none_iff_exists'.1 fun hnone => ?_
      exact (hsettled q).free hnone p hp htarget
    · obtain ⟨p, hwins, hsame⟩ := hwinner hq
      exact ⟨p, hwins, hsame, hlines hsame⟩

/-- A report of two files, with one line each: the first was run, the second was not. -/
def ranAndMissed : Report :=
  let ran : Line := .ofSession { id := 0, reading := .hit .one }
  let missed : Line := .ofSession { id := 0, reading := .miss }
  ((({} : Report).append { name := "a", content := .lines (.ofList [(1, ran)]) }).2.append
    { name := "b", content := .lines (.ofList [(1, missed)]) }).2

/-- A file makes room first, and another takes its name. -/
theorem resolvePaths_follows_ranAndMissed :
    ranAndMissed.isConsistent = true ∧
      (ranAndMissed.resolvePaths [("b", some "c"), ("a", some "b")]).names = ["b", "c"] ∧
      ∃ p, Wins ranAndMissed.names [("b", some "c"), ("a", some "b")] p "b" ∧ p = "a" ∧
        ∀ n, (ranAndMissed.resolvePaths [("b", some "c"), ("a", some "b")]).lineAt? "b" n =
          ranAndMissed.lineAt? p n := by
  have hconsistent : ranAndMissed.isConsistent = true := by rfl
  have hnames : (ranAndMissed.resolvePaths [("b", some "c"), ("a", some "b")]).names =
      ["b", "c"] := by rfl
  obtain ⟨-, -, hall⟩ := resolvePaths_follows hconsistent [("b", some "c"), ("a", some "b")]
  obtain ⟨-, hfiles⟩ := hall (by decide) (by decide)
  obtain ⟨p, hwins, -, hlines⟩ := hfiles "b" (by rw [hnames]; exact List.mem_cons_self)
  have htarget : ∀ p ∈ ranAndMissed.names,
      target [("b", some "c"), ("a", some "b")] p = some "b" → p = "a" := by decide
  exact ⟨hconsistent, hnames, p, hwins, htarget p hwins.named hwins.target, hlines⟩

/-- Both files are to be under one name, for the second it is its own.  Its fix comes last, and the
other has taken its place already. -/
theorem kept_name_overtaken :
    let fixes : List PathFix := [("a", some "b"), ("b", some "b")]
    ranAndMissed.isConsistent = true ∧ (fixes.map Prod.fst).Nodup ∧
      Wins ranAndMissed.names fixes "b" "b" ∧
      ((ranAndMissed.resolvePaths fixes).lineAt? "b" 1).map (·.reading) = some (.hit .one) ∧
      (ranAndMissed.lineAt? "b" 1).map (·.reading) = some .miss :=
  ⟨rfl, by decide, ⟨by decide, rfl, by decide⟩, rfl, rfl⟩

end Report

end CoverageLedger
