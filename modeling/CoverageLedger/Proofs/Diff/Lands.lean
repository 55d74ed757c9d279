import CoverageLedger.Diff.Shift

/-!
# Line numbers on both sides of a diff

Seen from one side, a diff loses some lines (`Hunk.lost`), and what the other side loses is what
this one gains.  A line that stays `Lands` on the number that has as many lines before it which are
not new as the line itself had before it which are not lost.  This says nothing of hunks, and there
is one such number at most.  For hunks that fit together (`Hunk.Consistent`) there is a plan in each
direction, and it takes every line to where it lands (`exists_plan`).
-/

namespace CoverageLedger

/-! ## 1. Counting the numbers before a number -/

/-- How many numbers of a list come before a number. -/
def before (l : List Nat) (n : Nat) : Nat := l.countP (· < n)

section before

variable {l : List Nat} {n k : Nat}

@[simp] theorem before_append (l l' : List Nat) (n : Nat) :
    before (l ++ l') n = before l n + before l' n := List.countP_append

theorem before_cons (a : Nat) (l : List Nat) (n : Nat) :
    before (a :: l) n = before l n + if a < n then 1 else 0 := by
  simp only [before, List.countP_cons, decide_eq_true_eq]

theorem before_eq_zero (h : ∀ a ∈ l, n ≤ a) : before l n = 0 :=
  List.countP_eq_zero.2 fun a ha => by simpa using h a ha

theorem before_eq_length (h : ∀ a ∈ l, a < n) : before l n = l.length :=
  List.countP_eq_length.2 fun a ha => by simpa using h a ha

theorem before_succ (l : List Nat) (n : Nat) : before l (n + 1) = before l n + l.count n := by
  induction l with
  | nil => rfl
  | cons a rest ih =>
    rw [before_cons, before_cons, ih, List.count_cons]
    by_cases ha : a = n
    · rw [ha, if_pos (Nat.lt_succ_self n), if_neg (Nat.lt_irrefl n), beq_self_eq_true, if_pos rfl]
      omega
    · rw [beq_eq_false_iff_ne.2 ha, if_neg Bool.false_ne_true]
      split <;> split <;> omega

/-- Of numbers that are all different, no more lie in an interval than it is long. -/
theorem before_le (h : l.Nodup) (hle : n ≤ k) : before l k + n ≤ before l n + k := by
  induction hle with
  | refl => exact Nat.le_refl _
  | @step k _ ih =>
    have hcount := List.nodup_iff_count.1 h k
    rw [before_succ]
    omega

/-- And fewer when one of the interval is missing. -/
theorem before_lt (h : l.Nodup) (hlt : n < k) (hn : n ∉ l) : before l k + n < before l n + k := by
  have hsame : before l (n + 1) = before l n := by
    rw [before_succ, List.count_eq_zero_of_not_mem hn, Nat.add_zero]
  have hle := before_le h (n := n + 1) (k := k) hlt
  omega

end before

/-! ## 2. Where lines land -/

/-- Counted from line `p` on one side and from line `q` on the other, a line that stays lands on a
number: the line is not lost, the number is not new, and as many lines that stay come before the
one as numbers that are not new before the other. -/
structure Lands (p q : Nat) (lost new : List Nat) (n m : Nat) : Prop where
  stays : n ∉ lost
  free : m ∉ new
  balance : n + q + before new m = m + p + before lost n

namespace Lands

variable {p q p' q' n n' m m' : Nat} {lost new own own' : List Nat}

theorem flip (h : Lands p q lost new n m) : Lands q p new lost m n :=
  ⟨h.free, h.stays, h.balance.symm⟩

/-- Before all that is lost or new, both sides go on alike. -/
theorem of_lt (hlost : ∀ a ∈ lost, n < a) (hnew : ∀ a ∈ new, m < a) (h : n + q = m + p) :
    Lands p q lost new n m where
  stays := fun hn => Nat.lt_irrefl n (hlost n hn)
  free := fun hm => Nat.lt_irrefl m (hnew m hm)
  balance := by
    rw [before_eq_zero fun a ha => Nat.le_of_lt (hlost a ha),
      before_eq_zero fun a ha => Nat.le_of_lt (hnew a ha), h]

/-- What is lost or new later does not matter. -/
theorem append_later (h : Lands p q lost new n m) (hown : ∀ a ∈ own, n < a)
    (hown' : ∀ a ∈ own', m < a) : Lands p q (lost ++ own) (new ++ own') n m where
  stays := fun hn => (List.mem_append.1 hn).elim h.stays fun hin => Nat.lt_irrefl n (hown n hin)
  free := fun hm => (List.mem_append.1 hm).elim h.free fun hin => Nat.lt_irrefl m (hown' m hin)
  balance := by
    rw [before_append, before_append, before_eq_zero fun a ha => Nat.le_of_lt (hown a ha),
      before_eq_zero fun a ha => Nat.le_of_lt (hown' a ha)]
    exact h.balance

/-- It does not matter where counting begins, if the two sides stay as far apart. -/
theorem of_start (h : Lands p' q' lost new n m) (hstart : p' + q = q' + p) :
    Lands p q lost new n m where
  stays := h.stays
  free := h.free
  balance := by
    have hbalance := h.balance
    omega

/-- Counting can begin earlier on both sides, when as many lines stay in between. -/
theorem append_earlier (h : Lands p' q' lost new n m) (hown : ∀ a ∈ own, a < n)
    (hown' : ∀ a ∈ own', a < m) (hkept : p' + q + own'.length = q' + p + own.length) :
    Lands p q (own ++ lost) (own' ++ new) n m where
  stays := fun hn => (List.mem_append.1 hn).elim (fun hin => Nat.lt_irrefl n (hown n hin)) h.stays
  free := fun hm => (List.mem_append.1 hm).elim (fun hin => Nat.lt_irrefl m (hown' m hin)) h.free
  balance := by
    have hbalance := h.balance
    rw [before_append, before_append, before_eq_length hown, before_eq_length hown']
    omega

/-- No line lands further on than by the number of new ones. -/
theorem le_add_length (h : Lands p q lost new n m) : m + p ≤ n + q + new.length := by
  have hle : before new m ≤ new.length := List.countP_le_length
  have hbalance := h.balance
  omega

/-- Lines keep their order. -/
theorem lt (hlost : lost.Nodup) (hnew : new.Nodup) (h : Lands p q lost new n m)
    (h' : Lands p q lost new n' m') (hlt : n < n') : m < m' := by
  refine Nat.lt_of_not_le fun hle => ?_
  have hfewer := before_lt hlost hlt h.stays
  have hmost := before_le hnew hle
  have hbalance := h.balance
  have hbalance' := h'.balance
  omega

theorem target_unique (hlost : lost.Nodup) (hnew : new.Nodup) (h : Lands p q lost new n m)
    (h' : Lands p q lost new n m') : m = m' := by
  rcases Nat.lt_trichotomy m m' with hlt | heq | hlt
  · exact absurd (lt hnew hlost h.flip h'.flip hlt) (Nat.lt_irrefl n)
  · exact heq
  · exact absurd (lt hnew hlost h'.flip h.flip hlt) (Nat.lt_irrefl n)

end Lands

/-! ## 3. The two sides of a hunk -/

namespace Direction

/-- The other direction. -/
def flip : Direction → Direction
  | .forward => .backward
  | .backward => .forward

@[simp] theorem flip_flip (d : Direction) : d.flip.flip = d := by cases d <;> rfl

end Direction

/-- A mark as the other side sees it. -/
def LineMark.opposite : LineMark → LineMark
  | .added => .removed
  | .removed => .added
  | .kept => .kept

theorem LineMark.seen_flip (d : Direction) (mark : LineMark) :
    mark.seen d.flip = (mark.seen d).opposite := by
  cases d <;> cases mark <;> rfl

namespace HunkSpan

/-- The first line of a side.  The header of an empty side names the line before it. -/
def first (side : Nat × Nat) : Nat := if side.2 = 0 then side.1 + 1 else side.1

theorem target_eq_source_flip (s : HunkSpan) (d : Direction) : s.target d = s.source d.flip := by
  cases d <;> rfl

end HunkSpan

namespace Hunk

variable {d : Direction} {p q n : Nat} {rows : List String}

/-- How many rows of a hunk stand on the side that numbers come from. -/
def rowCount (d : Direction) : List String → Nat
  | [] => 0
  | row :: rest =>
    match (LineMark.of row).seen d with
    | .added => rowCount d rest
    | .removed | .kept => rowCount d rest + 1

/-- The numbers of the lines that are lost among rows from a number on. -/
def lostFrom (d : Direction) (n : Nat) : List String → List Nat
  | [] => []
  | row :: rest =>
    match (LineMark.of row).seen d with
    | .removed => n :: lostFrom d (n + 1) rest
    | .added => lostFrom d n rest
    | .kept => lostFrom d (n + 1) rest

/-- The lines that a hunk takes away from the side that numbers come from. -/
def lost (d : Direction) (h : Hunk) : List Nat :=
  match h.span? with
  | .ok s => lostFrom d (HunkSpan.first (s.source d)) h.lines
  | .error _ => []

/-- The lines of the old side that some hunks take away. -/
def removedLines (hunks : List Hunk) : List Nat := hunks.flatMap (lost .forward)

theorem mem_lostFrom (h : n ∈ lostFrom d p rows) : p ≤ n ∧ n < p + rowCount d rows := by
  induction rows generalizing p with
  | nil => cases h
  | cons row rest ih =>
    rw [lostFrom] at h
    rw [rowCount]
    cases hmark : (LineMark.of row).seen d with
    | added =>
      rw [hmark] at h
      exact ih h
    | kept =>
      rw [hmark] at h
      have hrest := ih h
      dsimp only
      omega
    | removed =>
      rw [hmark] at h
      dsimp only
      rcases List.mem_cons.1 h with rfl | h
      · omega
      · have hrest := ih h
        omega

theorem ascending_lostFrom (d : Direction) (p : Nat) (rows : List String) :
    (lostFrom d p rows).Pairwise (· < ·) := by
  induction rows generalizing p with
  | nil => exact .nil
  | cons row rest ih =>
    rw [lostFrom]
    cases (LineMark.of row).seen d with
    | added => exact ih p
    | kept => exact ih (p + 1)
    | removed => exact List.pairwise_cons.2 ⟨fun n hn => (mem_lostFrom hn).1, ih (p + 1)⟩

/-- The rows that stay are as many on both sides. -/
theorem rowCount_add_length (d : Direction) (p q : Nat) (rows : List String) :
    rowCount d rows + (lostFrom d.flip q rows).length =
      rowCount d.flip rows + (lostFrom d p rows).length := by
  induction rows generalizing p q with
  | nil => rfl
  | cons row rest ih =>
    rw [rowCount, rowCount, lostFrom, lostFrom, LineMark.seen_flip]
    cases (LineMark.of row).seen d with
    | added =>
      have hrest := ih p (q + 1)
      simp only [LineMark.opposite, List.length_cons]
      omega
    | kept =>
      have hrest := ih (p + 1) (q + 1)
      simp only [LineMark.opposite]
      omega
    | removed =>
      have hrest := ih (p + 1) q
      simp only [LineMark.opposite, List.length_cons]
      omega

end Hunk

/-! ## 4. Walking through a hunk -/

namespace HunkShift

open Hunk (rowCount lostFrom mem_lostFrom rowCount_add_length)

variable {d : Direction} {fault : HunkFault} {p q n : Nat} {rows : List String}

/-- The images of the lines of a hunk that begins at a number on each side. -/
def moves (d : Direction) (p q : Nat) : List String → List (Nat × Option Nat)
  | [] => []
  | row :: rest =>
    match (LineMark.of row).seen d with
    | .removed => (p, none) :: moves d (p + 1) q rest
    | .added => moves d p (q + 1) rest
    | .kept => (p, some q) :: moves d (p + 1) (q + 1) rest

/-- Where the line of a number goes. -/
def image (moved : List (Nat × Option Nat)) (n : Nat) : Option Nat :=
  (moved.find? fun e => e.1 == n).bind Prod.snd

theorem image_cons_self (m : Option Nat) (moved : List (Nat × Option Nat)) :
    image ((n, m) :: moved) n = m := by
  simp [image]

theorem image_cons_of_ne (h : p ≠ n) (m : Option Nat) (moved : List (Nat × Option Nat)) :
    image ((p, m) :: moved) n = image moved n := by
  simp [image, h]

theorem walk_eq (hp : p + rowCount d rows < Text.word32)
    (hq : q + rowCount d.flip rows < Text.word32) :
    walk d fault p q rows =
      .ok (moves d p q rows, p + rowCount d rows, q + rowCount d.flip rows) := by
  induction rows generalizing p q with
  | nil => rfl
  | cons row rest ih =>
    rw [rowCount] at hp hq ⊢
    rw [rowCount, LineMark.seen_flip, walk, moves]
    rw [LineMark.seen_flip] at hq
    cases hmark : (LineMark.of row).seen d with
    | added =>
      simp only [hmark, LineMark.opposite] at hp hq ⊢
      rw [bounded?, if_pos (by omega)]
      show walk d fault p (q + 1) rest = _
      rw [ih hp (by omega), Nat.add_right_comm, Nat.add_assoc q]
    | removed =>
      simp only [hmark, LineMark.opposite] at hp hq ⊢
      rw [bounded?, if_pos (by omega)]
      show ((walk d fault (p + 1) q rest).bind fun r => .ok ((p, none) :: r.1, r.2)) = _
      rw [ih (by omega) hq, Nat.add_right_comm, Nat.add_assoc p]
      rfl
    | kept =>
      simp only [hmark, LineMark.opposite] at hp hq ⊢
      rw [bounded?, if_pos (by omega), bounded?, if_pos (by omega)]
      show ((walk d fault (p + 1) (q + 1) rest).bind fun r => .ok ((p, some q) :: r.1, r.2)) = _
      rw [ih (by omega) (by omega), Nat.add_right_comm, Nat.add_assoc p, Nat.add_right_comm q,
        Nat.add_assoc q]
      rfl

theorem image_moves_of_lost (q : Nat) (h : n ∈ lostFrom d p rows) :
    image (moves d p q rows) n = none := by
  induction rows generalizing p q with
  | nil => cases h
  | cons row rest ih =>
    rw [lostFrom] at h
    rw [moves]
    cases hmark : (LineMark.of row).seen d with
    | added =>
      rw [hmark] at h
      exact ih (q + 1) h
    | kept =>
      rw [hmark] at h
      have hle := (mem_lostFrom h).1
      exact (image_cons_of_ne (by omega) _ _).trans (ih (q + 1) h)
    | removed =>
      rw [hmark] at h
      rcases List.mem_cons.1 h with rfl | h
      · exact image_cons_self none _
      · have hle := (mem_lostFrom h).1
        exact (image_cons_of_ne (by omega) _ _).trans (ih q h)

/-- A row that stays goes to where it lands among the rows of the other side. -/
theorem exists_image_moves (hle : p ≤ n) (hlt : n < p + rowCount d rows)
    (hstays : n ∉ lostFrom d p rows) :
    ∃ m, image (moves d p q rows) n = some m ∧ q ≤ m ∧ m < q + rowCount d.flip rows ∧
      Lands p q (lostFrom d p rows) (lostFrom d.flip q rows) n m := by
  induction rows generalizing p q with
  | nil =>
    rw [rowCount] at hlt
    omega
  | cons row rest ih =>
    have hnil (k a : Nat) (h : a ∈ ([] : List Nat)) : a < k := absurd h List.not_mem_nil
    rw [lostFrom] at hstays
    rw [rowCount] at hlt
    simp only [moves, rowCount, lostFrom, LineMark.seen_flip]
    cases hmark : (LineMark.of row).seen d with
    | added =>
      rw [hmark] at hstays hlt
      obtain ⟨m, hm, hge, hend, hlands⟩ := ih (q := q + 1) hle hlt hstays
      have hown : ∀ a ∈ [q], a < m := List.forall_mem_singleton.2 hge
      simp only [LineMark.opposite]
      exact ⟨m, hm, by omega, by omega, hlands.append_earlier (hnil n) hown (by simp; omega)⟩
    | removed =>
      rw [hmark] at hstays hlt
      dsimp only at hlt
      have hne : n ≠ p := fun heq => hstays (heq ▸ List.mem_cons_self)
      obtain ⟨m, hm, hge, hend, hlands⟩ := ih (p := p + 1) (q := q) (by omega) (by omega)
        fun hin => hstays (List.mem_cons_of_mem p hin)
      have hown : ∀ a ∈ [p], a < n := List.forall_mem_singleton.2 (by omega)
      simp only [LineMark.opposite]
      exact ⟨m, (image_cons_of_ne hne.symm _ _).trans hm, hge, hend,
        hlands.append_earlier hown (hnil m) (by simp; omega)⟩
    | kept =>
      rw [hmark] at hstays hlt
      dsimp only at hlt
      simp only [LineMark.opposite]
      by_cases heq : n = p
      · -- this row: all that either side loses comes later
        subst heq
        exact ⟨q, image_cons_self _ _, Nat.le_refl q, by omega,
          .of_lt (fun a ha => (mem_lostFrom ha).1) (fun a ha => (mem_lostFrom ha).1)
            (Nat.add_comm _ _)⟩
      · obtain ⟨m, hm, hge, hend, hlands⟩ :=
          ih (p := p + 1) (q := q + 1) (by omega) (by omega) hstays
        exact ⟨m, (image_cons_of_ne (Ne.symm heq) _ _).trans hm, by omega, by omega,
          hlands.append_earlier (hnil n) (hnil m) (by simp; omega)⟩

/-- The lines `p` up to `p + k` of a side are moved through a hunk to the lines `q` up to `q + k'`
of the other: all that is lost or new lies there, as many lines stay on both sides, and those go
where they land. -/
structure Places (p q k k' : Nat) (own own' : List Nat) (moved : List (Nat × Option Nat)) :
    Prop where
  within : ∀ a ∈ own, p ≤ a ∧ a < p + k
  within' : ∀ a ∈ own', q ≤ a ∧ a < q + k'
  kept : k + own'.length = k' + own.length
  drops : ∀ n ∈ own, image moved n = none
  keeps : ∀ n, p ≤ n → n < p + k → n ∉ own →
    ∃ m, image moved n = some m ∧ q ≤ m ∧ m < q + k' ∧ Lands p q own own' n m

theorem places_moves (d : Direction) (p q : Nat) (rows : List String) :
    Places p q (rowCount d rows) (rowCount d.flip rows) (lostFrom d p rows)
      (lostFrom d.flip q rows) (moves d p q rows) where
  within := fun _ ha => mem_lostFrom ha
  within' := fun _ ha => mem_lostFrom ha
  kept := rowCount_add_length d p q rows
  drops := fun _ hn => image_moves_of_lost q hn
  keeps := fun _ hle hlt hstays => exists_image_moves hle hlt hstays

end HunkShift

/-! ## 5. Hunks that fit together -/

namespace Hunk

open HunkSpan (first)

variable {d : Direction} {p q : Nat} {h : Hunk} {rest hunks : List Hunk} {s : HunkSpan}

/-- Hunks with complete headers whose rows are as many as the headers say, in order: none begins on
the old side before line `stop`, where the one before it has ended, and each begins on the new side
later than on the old one by what the hunks before it have gained. -/
inductive Consistent : Nat → Int → List Hunk → Prop
  | nil (stop : Nat) (gain : Int) : Consistent stop gain []
  | cons {stop : Nat} {gain : Int} {h : Hunk} {s : HunkSpan} {rest : List Hunk}
      (header : h.span? = .ok s)
      (oldRows : s.oldLength = rowCount .forward h.lines)
      (newRows : s.newLength = rowCount .backward h.lines)
      (after : stop ≤ first (s.oldStart, s.oldLength))
      (gained : (first (s.newStart, s.newLength) : Int) = first (s.oldStart, s.oldLength) + gain)
      (others : Consistent (first (s.oldStart, s.oldLength) + s.oldLength)
        (gain + s.newLength - s.oldLength) rest) :
      Consistent stop gain (h :: rest)

/-- A hunk that ends, on both sides, at a number of 32 bits. -/
def InRange (h : Hunk) : Prop :=
  ∀ s, h.span? = .ok s → first (s.oldStart, s.oldLength) + s.oldLength < Text.word32 ∧
    first (s.newStart, s.newLength) + s.newLength < Text.word32

/-- A hunk with its header and rows, seen in a direction. -/
structure Seen (d : Direction) (h : Hunk) (s : HunkSpan) : Prop where
  header : h.span? = .ok s
  rows : (s.source d).2 = rowCount d h.lines
  rows' : (s.source d.flip).2 = rowCount d.flip h.lines
  inRange : first (s.source d) + (s.source d).2 < Text.word32
  inRange' : first (s.source d.flip) + (s.source d.flip).2 < Text.word32

/-- Hunks in order from a line on each side that correspond to each other: between hunks, both
sides go on alike. -/
inductive Aligned (d : Direction) : Nat → Nat → List Hunk → Prop
  | nil (p q : Nat) : Aligned d p q []
  | cons {p q : Nat} {h : Hunk} {s : HunkSpan} {rest : List Hunk} (gap : Nat) (seen : h.Seen d s)
      (start : first (s.source d) = p + gap) (start' : first (s.source d.flip) = q + gap)
      (others : Aligned d (p + gap + (s.source d).2) (q + gap + (s.source d.flip).2) rest) :
      Aligned d p q (h :: rest)

theorem Seen.flip (hseen : h.Seen d s) : h.Seen d.flip s where
  header := hseen.header
  rows := hseen.rows'
  rows' := by
    rw [Direction.flip_flip]
    exact hseen.rows
  inRange := hseen.inRange'
  inRange' := by
    rw [Direction.flip_flip]
    exact hseen.inRange

theorem Aligned.flip (hfit : Aligned d p q hunks) : Aligned d.flip q p hunks := by
  induction hfit with
  | nil p q => exact .nil q p
  | cons gap seen start start' _ ih =>
    refine .cons gap seen.flip start' ?_ ?_ <;> rw [Direction.flip_flip]
    · exact start
    · exact ih

theorem Consistent.aligned {stop : Nat} {gain : Int} (hfit : Consistent stop gain hunks)
    (hrange : ∀ h ∈ hunks, h.InRange) (hq : (q : Int) = stop + gain) :
    Aligned .forward stop q hunks := by
  induction hfit generalizing q with
  | nil => exact .nil _ _
  | @cons stop gain h s rest header oldRows newRows after gained _ ih =>
    obtain ⟨hold, hnew⟩ := hrange h List.mem_cons_self s header
    have hstart : first (s.oldStart, s.oldLength) =
        stop + (first (s.oldStart, s.oldLength) - stop) := by omega
    have hstart' : first (s.newStart, s.newLength) =
        q + (first (s.oldStart, s.oldLength) - stop) := by omega
    refine .cons _ ⟨header, oldRows, newRows, hold, hnew⟩ hstart hstart' ?_
    have hrest := @ih (first (s.newStart, s.newLength) + s.newLength)
      (fun g hg => hrange g (List.mem_cons_of_mem h hg)) (by omega)
    rw [hstart'] at hrest
    rw [← hstart]
    exact hrest

theorem Seen.lost_eq (hseen : h.Seen d s) :
    h.lost d = lostFrom d (first (s.source d)) h.lines := by
  rw [lost, hseen.header]

theorem Aligned.le_of_mem_lost {n : Nat} (hfit : Aligned d p q hunks)
    (hn : n ∈ hunks.flatMap (lost d)) : p ≤ n := by
  induction hfit with
  | nil => cases hn
  | cons gap seen start _ _ ih =>
    rw [List.flatMap_cons, List.mem_append] at hn
    rcases hn with hn | hn
    · rw [seen.lost_eq] at hn
      have hle := (mem_lostFrom hn).1
      omega
    · have hle := ih hn
      omega

theorem Aligned.ascending_lost (hfit : Aligned d p q hunks) :
    (hunks.flatMap (lost d)).Pairwise (· < ·) := by
  induction hfit with
  | nil => exact .nil
  | cons gap seen start _ others ih =>
    rw [List.flatMap_cons, seen.lost_eq]
    refine List.pairwise_append.2 ⟨ascending_lostFrom _ _ _, ih, fun n hn k hk => ?_⟩
    have hlt := (mem_lostFrom hn).2
    have hle := others.le_of_mem_lost hk
    rw [← seen.rows] at hlt
    omega

theorem Aligned.nodup_lost (hfit : Aligned d p q hunks) : (hunks.flatMap (lost d)).Nodup :=
  hfit.ascending_lost.imp Nat.ne_of_lt

/-! The lines that a hunk adds, by its own count on the new side, are those that go backward. -/

theorem addedFrom_eq {n : Nat} {rows : List String}
    (h : n + rowCount .backward rows < Text.word32) :
    addedFrom n rows = lostFrom .backward n rows := by
  induction rows generalizing n with
  | nil => rfl
  | cons row rest ih =>
    rw [rowCount] at h
    rw [addedFrom, lostFrom]
    cases hmark : LineMark.of row with
    | removed =>
      rw [hmark] at h
      exact ih h
    | added =>
      rw [hmark] at h
      simp only [LineMark.seen] at h ⊢
      rw [Nat.min_eq_left (by omega), ih (by omega)]
    | kept =>
      rw [hmark] at h
      simp only [LineMark.seen] at h ⊢
      rw [Nat.min_eq_left (by omega), ih (by omega)]

theorem newStart_eq (hspan : h.span? = .ok s) :
    h.newStart = if 0 < s.newStart then s.newStart else 1 := by
  unfold span? at hspan
  split at hspan
  · rename_i heq
    obtain rfl := Except.ok.inj hspan
    rw [newStart, heq]
    rfl
  · cases hspan

theorem Seen.addedLines_eq (hseen : h.Seen .forward s)
    (hpos : 0 < first (s.newStart, s.newLength)) : h.addedLines = h.lost .backward := by
  have hrange : first (s.newStart, s.newLength) + s.newLength < Text.word32 := hseen.inRange'
  have hrows : s.newLength = rowCount .backward h.lines := hseen.rows'
  have hlost : h.lost .backward = lostFrom .backward (first (s.newStart, s.newLength)) h.lines :=
    hseen.flip.lost_eq
  rw [addedLines, newStart_eq hseen.header, hlost]
  unfold first at hpos hrange ⊢
  dsimp only at hpos hrange ⊢
  by_cases hempty : s.newLength = 0
  · -- no row stands on the new side, so nothing is added wherever it begins
    have hnone (k : Nat) : lostFrom .backward k h.lines = [] :=
      List.eq_nil_iff_forall_not_mem.2 fun n hn => by
        have hbounds := mem_lostFrom hn
        omega
    rw [if_pos hempty] at hrange
    rw [addedFrom_eq (by split <;> omega), hnone, hnone]
  · rw [if_neg hempty] at hpos hrange ⊢
    rw [if_pos hpos, addedFrom_eq (by omega)]

theorem Aligned.addedLines_eq (hfit : Aligned .forward p q hunks) (hq : 0 < q) :
    hunks.flatMap addedLines = hunks.flatMap (lost .backward) := by
  induction hfit with
  | nil => rfl
  | cons gap seen start start' _ ih =>
    have hhere := seen.addedLines_eq (Nat.lt_of_lt_of_eq (by omega) start'.symm)
    rw [List.flatMap_cons, List.flatMap_cons, hhere, ih (by omega)]

end Hunk

/-! ## 6. Plans -/

namespace HunkShift

open HunkSpan (first)

theorem sideStart_eq {fault : HunkFault} {side : Nat × Nat}
    (h : first side + side.2 < Text.word32) : sideStart fault side.1 side.2 = .ok (first side) := by
  unfold sideStart first at *
  split
  · rename_i hempty
    rw [if_pos hempty] at h
    rw [bounded?, if_pos (by omega)]
  · rfl

theorem ofHunk?_eq {d : Direction} {h : Hunk} {s : HunkSpan} {stop : Nat} (hseen : h.Seen d s)
    (hstop : stop ≤ first (s.source d)) :
    ofHunk? d stop h = .ok ⟨first (s.source d), first (s.source d) + (s.source d).2,
      moves d (first (s.source d)) (first (s.source d.flip)) h.lines,
      ((s.source d.flip).2 : Int) - (s.source d).2⟩ := by
  have hrange := hseen.inRange
  have hrange' := hseen.inRange'
  have hwalk (fault : HunkFault) :
      walk d fault (first (s.source d)) (first (s.source d.flip)) h.lines =
        .ok (moves d (first (s.source d)) (first (s.source d.flip)) h.lines,
          first (s.source d) + (s.source d).2, first (s.source d.flip) + (s.source d.flip).2) := by
    rw [hseen.rows, hseen.rows']
    exact walk_eq (hseen.rows ▸ hseen.inRange) (hseen.rows' ▸ hseen.inRange')
  unfold ofHunk?
  simp only [hseen.header, HunkSpan.target_eq_source_flip, bind, Except.bind]
  rw [sideStart_eq hrange]
  dsimp only
  rw [sideStart_eq hrange']
  dsimp only
  rw [bounded?, if_pos hrange]
  dsimp only
  rw [bounded?, if_pos hrange']
  dsimp only
  rw [if_neg (Nat.not_lt_of_le hstop)]
  simp [pure, Except.pure, hwalk]

end HunkShift

namespace ShiftPlan

open Hunk (Aligned lost)
open HunkSpan (first)

variable {d : Direction} {p q n m stop : Nat} {hunks : List Hunk} {plan : ShiftPlan}

theorem moveBy?_eq (hm : (m : Int) = n + ((q : Int) - p)) (hpos : 0 < m) (hlt : m < Text.word32) :
    moveBy? ((q : Int) - p) n = some m := by
  unfold moveBy?
  rw [← hm]
  dsimp only
  rw [if_pos (by omega), Int.toNat_natCast]

/-- A map of line numbers drops what is lost and takes all else to where it lands, if the number
there has 32 bits. -/
structure Carries (p q : Nat) (lost new : List Nat) (map : Nat → Option Nat) : Prop where
  drops : ∀ n, p ≤ n → n ∈ lost → map n = none
  keeps : ∀ n, p ≤ n → n ∉ lost →
    ∃ m, q ≤ m ∧ Lands p q lost new n m ∧ (m < Text.word32 → map n = some m)

section Carries

variable {lost new : List Nat} {map : Nat → Option Nat}

theorem Carries.eq_some (h : Carries p q lost new map) (hlost : lost.Nodup) (hnew : new.Nodup)
    (hn : p ≤ n) (hlands : Lands p q lost new n m) (hm : m < Text.word32) : map n = some m := by
  obtain ⟨k, -, hk, hto⟩ := h.keeps n hn hlands.stays
  obtain rfl := hlands.target_unique hlost hnew hk
  exact hto hm

end Carries

theorem carries_nil (hq : 0 < q) : Carries p q [] [] fun n => mapFrom? ((q : Int) - p) n [] where
  drops := fun _ _ h => absurd h List.not_mem_nil
  keeps := fun n hn _ => by
    have hnil (k a : Nat) (h : a ∈ ([] : List Nat)) : k < a := absurd h List.not_mem_nil
    exact ⟨n + q - p, by omega, .of_lt (hnil n) (hnil _) (by omega),
      moveBy?_eq (by omega) (by omega)⟩

section cons

variable {gap k k' : Nat} {own own' later later' : List Nat} {moved : List (Nat × Option Nat)}

/-- Up to a hunk, both sides go on alike. -/
theorem lands_before (hhunk : HunkShift.Places (p + gap) (q + gap) k k' own own' moved)
    (hlater : ∀ a ∈ later, p + gap + k ≤ a) (hlater' : ∀ a ∈ later', q + gap + k' ≤ a)
    (hn : p ≤ n) (hbefore : n < p + gap) :
    Lands p q (own ++ later) (own' ++ later') n (n + q - p) := by
  have hown : Lands p q own own' n (n + q - p) := by
    refine .of_lt (fun a ha => ?_) (fun a ha => ?_) (by omega)
    · have hge := (hhunk.within a ha).1
      omega
    · have hge := (hhunk.within' a ha).1
      omega
  refine hown.append_later (fun a ha => ?_) fun a ha => ?_
  · have hge := hlater a ha
    omega
  · have hge := hlater' a ha
    omega

/-- A line of a hunk that stays is moved to where it lands, whatever comes later. -/
theorem exists_lands_inside (hhunk : HunkShift.Places (p + gap) (q + gap) k k' own own' moved)
    (hlater : ∀ a ∈ later, p + gap + k ≤ a) (hlater' : ∀ a ∈ later', q + gap + k' ≤ a)
    (hn : p + gap ≤ n) (hinside : n < p + gap + k) (hout : n ∉ own) :
    ∃ m, HunkShift.image moved n = some m ∧ q ≤ m ∧
      Lands p q (own ++ later) (own' ++ later') n m := by
  obtain ⟨m, hm, hge, hend, hlands⟩ := hhunk.keeps n hn hinside hout
  have hown : Lands p q own own' n m := hlands.of_start (by omega)
  refine ⟨m, hm, by omega, hown.append_later (fun a ha => ?_) fun a ha => ?_⟩
  · exact Nat.lt_of_lt_of_le hinside (hlater a ha)
  · exact Nat.lt_of_lt_of_le hend (hlater' a ha)

/-- After a hunk, counting goes on with what it has added and taken away. -/
theorem lands_after (hhunk : HunkShift.Places (p + gap) (q + gap) k k' own own' moved)
    (hn : p + gap + k ≤ n) (hm : q + gap + k' ≤ m)
    (hlands : Lands (p + gap + k) (q + gap + k') later later' n m) :
    Lands p q (own ++ later) (own' ++ later') n m := by
  have hkept := hhunk.kept
  refine hlands.append_earlier (fun a ha => ?_) (fun a ha => ?_) (by omega)
  · exact Nat.lt_of_lt_of_le (hhunk.within a ha).2 hn
  · exact Nat.lt_of_lt_of_le (hhunk.within' a ha).2 hm

/-- Lines before a hunk are moved, those in it follow its rows, and those after it follow the hunks
that come next. -/
theorem carries_cons (hq : 0 < q)
    (hhunk : HunkShift.Places (p + gap) (q + gap) k k' own own' moved)
    (hlater : ∀ a ∈ later, p + gap + k ≤ a) (hlater' : ∀ a ∈ later', q + gap + k' ≤ a)
    (hrest : Carries (p + gap + k) (q + gap + k') later later' fun n =>
      mapFrom? (((q + gap + k' : Nat) : Int) - (p + gap + k : Nat)) n plan) :
    Carries p q (own ++ later) (own' ++ later') fun n =>
      mapFrom? ((q : Int) - p) n (⟨p + gap, p + gap + k, moved, (k' : Int) - k⟩ :: plan) := by
  have hoffset : (q : Int) - p + (k' - k) = ((q + gap + k' : Nat) : Int) - (p + gap + k : Nat) := by
    omega
  constructor
  · intro n hn hin
    simp only [mapFrom?, hoffset]
    rcases List.mem_append.1 hin with hin | hin
    · obtain ⟨hge, hlt⟩ := hhunk.within n hin
      rw [if_neg (by omega), if_pos hlt]
      exact hhunk.drops n hin
    · have hge := hlater n hin
      rw [if_neg (by omega), if_neg (by omega)]
      exact hrest.drops n hge hin
  · intro n hn hout
    rw [List.mem_append, not_or] at hout
    simp only [mapFrom?, hoffset]
    by_cases hbefore : n < p + gap
    · rw [if_pos hbefore]
      exact ⟨n + q - p, by omega, lands_before hhunk hlater hlater' hn hbefore,
        moveBy?_eq (by omega) (by omega)⟩
    rw [if_neg hbefore]
    by_cases hinside : n < p + gap + k
    · obtain ⟨m, hm, hge, hlands⟩ :=
        exists_lands_inside hhunk hlater hlater' (by omega) hinside hout.1
      rw [if_pos hinside]
      exact ⟨m, hge, hlands, fun _ => hm⟩
    · obtain ⟨m, hge, hlands, hto⟩ := hrest.keeps n (by omega) hout.2
      rw [if_neg hinside]
      exact ⟨m, by omega, lands_after hhunk (by omega) hge hlands, hto⟩

end cons

theorem exists_planFrom (hfit : Aligned d p q hunks) (hstop : stop ≤ p) (hq : 0 < q) :
    ∃ plan, buildFrom? d stop hunks = .ok plan ∧
      Carries p q (hunks.flatMap (lost d)) (hunks.flatMap (lost d.flip)) fun n =>
        mapFrom? ((q : Int) - p) n plan := by
  induction hfit generalizing stop with
  | nil p q => exact ⟨[], rfl, carries_nil hq⟩
  | @cons p q h s rest gap seen start start' others ih =>
    obtain ⟨plan, hplan, hcarries⟩ := ih (Nat.le_refl _) (by omega)
    have hhere := HunkShift.ofHunk?_eq seen (show stop ≤ first (s.source d) by omega)
    have hplaces := HunkShift.places_moves d (p + gap) (q + gap) h.lines
    rw [← seen.rows, ← seen.rows'] at hplaces
    rw [List.flatMap_cons, List.flatMap_cons, seen.lost_eq, seen.flip.lost_eq]
    rw [start, start'] at hhere ⊢
    refine ⟨_, ?_, carries_cons hq hplaces (fun a ha => others.le_of_mem_lost ha)
      (fun a ha => others.flip.le_of_mem_lost ha) hcarries⟩
    rw [buildFrom?, hhere]
    show ((buildFrom? d (p + gap + (s.source d).2) rest).bind fun r => .ok (_ :: r)) = _
    rw [hplan]
    rfl

/-- **Hunks that fit together have a plan, and it takes every line to where it lands.** -/
theorem exists_plan (hfit : Aligned d 1 1 hunks) :
    ∃ plan, build? d hunks = .ok plan ∧
      Carries 1 1 (hunks.flatMap (lost d)) (hunks.flatMap (lost d.flip)) plan.map? :=
  exists_planFrom hfit (Nat.zero_le 1) Nat.one_pos

end ShiftPlan

end CoverageLedger
