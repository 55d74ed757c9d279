/-!
# Tables in key order

A `Table κ α` is a finite map kept as the list of its entries in strictly ascending key order.
The manifest of a report, its sessions, the lines of a file and the columns of a line are all
written out in key order, so the order is part of the type.

* `get?_insert`, `get?_erase` and `get?_filter` say what each operation does to look-ups.
* `ext_get?` says that look-ups determine the table, so two tables that answer alike are equal.
* `ascend` sorts a list and drops repetitions; `mem_ascend` says that nothing else is lost.
-/

namespace CoverageLedger

open Std

/-- Keys that can be put in order: equal exactly when they compare equal. -/
class TableKey (κ : Type) extends Ord κ where
  trans : TransOrd κ
  lawful : LawfulEqOrd κ

attribute [instance] TableKey.trans TableKey.lawful

instance : TableKey Nat where
  trans := inferInstance
  lawful := inferInstance

instance : TableKey String where
  trans := inferInstance
  lawful := inferInstance

/-- The first key is strictly smaller. -/
abbrev Precedes {κ : Type} [TableKey κ] (a b : κ) : Prop := compare a b = .lt

section order

variable {κ : Type} [TableKey κ]

theorem Precedes.trans' {a b c : κ} (h₁ : Precedes a b) (h₂ : Precedes b c) : Precedes a c :=
  TransCmp.lt_trans h₁ h₂

theorem not_precedes_self (a : κ) : ¬ Precedes a a := by
  simp [Precedes, ReflCmp.compare_self]

theorem eq_of_compare {a b : κ} (h : compare a b = .eq) : a = b :=
  LawfulEqCmp.compare_eq_iff_eq.1 h

theorem precedes_of_gt {a b : κ} (h : compare a b = .gt) : Precedes b a :=
  OrientedCmp.gt_iff_lt.1 h

theorem Precedes.ne {a b : κ} (h : Precedes a b) : a ≠ b := by
  intro e
  subst e
  exact not_precedes_self a h

end order

/-- A finite map, its entries in strictly ascending key order. -/
structure Table (κ : Type) [TableKey κ] (α : Type) where
  entries : List (κ × α)
  ascending : entries.Pairwise fun a b => Precedes a.1 b.1

namespace Table

variable {κ α β : Type} [TableKey κ]

theorem ext {s t : Table κ α} (h : s.entries = t.entries) : s = t := by
  cases s
  cases t
  simp only [mk.injEq]
  exact h

instance [DecidableEq κ] [DecidableEq α] : DecidableEq (Table κ α) := fun s t =>
  decidable_of_iff (s.entries = t.entries) ⟨ext, fun h => h ▸ rfl⟩

def empty : Table κ α := ⟨[], .nil⟩

instance : EmptyCollection (Table κ α) := ⟨empty⟩

instance : Inhabited (Table κ α) := ⟨empty⟩

instance [Repr κ] [Repr α] : Repr (Table κ α) := ⟨fun t n => reprPrec t.entries n⟩

/-- Look a key up among entries. -/
def find (k : κ) : List (κ × α) → Option α
  | [] => none
  | (k', v) :: rest => if compare k k' = .eq then some v else find k rest

/-- The value stored under a key. -/
def get? (t : Table κ α) (k : κ) : Option α := find k t.entries

/-- Whether a key has an entry. -/
def contains (t : Table κ α) (k : κ) : Bool := (t.get? k).isSome

def keys (t : Table κ α) : List κ := t.entries.map Prod.fst

def values (t : Table κ α) : List α := t.entries.map Prod.snd

def size (t : Table κ α) : Nat := t.entries.length

def isEmpty (t : Table κ α) : Bool := t.entries.isEmpty

/-- Put an entry in its place, over any entry of the same key. -/
def place (k : κ) (v : α) : List (κ × α) → List (κ × α)
  | [] => [(k, v)]
  | (k', v') :: rest =>
    match compare k k' with
    | .lt => (k, v) :: (k', v') :: rest
    | .eq => (k, v) :: rest
    | .gt => (k', v') :: place k v rest

theorem mem_place {k : κ} {v : α} {e : κ × α} {l : List (κ × α)} (h : e ∈ place k v l) :
    e = (k, v) ∨ e ∈ l := by
  induction l with
  | nil => simpa [place] using h
  | cons head rest ih =>
    obtain ⟨k', v'⟩ := head
    rw [place] at h
    split at h <;> simp only [List.mem_cons] at h ⊢
    · exact h
    · exact h.imp_right .inr
    · rcases h with h | h
      · exact .inr (.inl h)
      · exact (ih h).imp_right .inr

theorem place_ascending (k : κ) (v : α) {l : List (κ × α)}
    (h : l.Pairwise fun a b => Precedes a.1 b.1) :
    (place k v l).Pairwise fun a b => Precedes a.1 b.1 := by
  induction l with
  | nil => simp [place]
  | cons head rest ih =>
    obtain ⟨k', v'⟩ := head
    obtain ⟨hhead, hrest⟩ := List.pairwise_cons.1 h
    rw [place]
    split
    · rename_i hlt
      refine List.pairwise_cons.2 ⟨fun e he => ?_, h⟩
      rcases List.mem_cons.1 he with rfl | he
      · exact hlt
      · exact Precedes.trans' hlt (hhead e he)
    · rename_i heq
      obtain rfl := eq_of_compare heq
      exact List.pairwise_cons.2 ⟨hhead, hrest⟩
    · rename_i hgt
      refine List.pairwise_cons.2 ⟨fun e he => ?_, ih hrest⟩
      rcases mem_place he with rfl | he
      · exact precedes_of_gt hgt
      · exact hhead e he

def insert (t : Table κ α) (k : κ) (v : α) : Table κ α :=
  ⟨place k v t.entries, place_ascending k v t.ascending⟩

/-- Keep the entries that pass a test. -/
def filter (t : Table κ α) (p : κ → α → Bool) : Table κ α :=
  ⟨t.entries.filter fun e => p e.1 e.2, t.ascending.filter _⟩

/-- Drop the entry of a key. -/
def erase (t : Table κ α) (k : κ) : Table κ α := t.filter fun k' _ => compare k' k != .eq

theorem filterMap_ascending (f : κ → α → Option β) {l : List (κ × α)}
    (h : l.Pairwise fun a b => Precedes a.1 b.1) :
    (l.filterMap fun e => (f e.1 e.2).map (e.1, ·)).Pairwise fun a b => Precedes a.1 b.1 := by
  rw [List.pairwise_filterMap]
  refine h.imp ?_
  intro a b hab x hx y hy
  obtain ⟨_, _, rfl⟩ := Option.map_eq_some_iff.1 hx
  obtain ⟨_, _, rfl⟩ := Option.map_eq_some_iff.1 hy
  exact hab

/-- Rework every value, dropping the entries that give nothing. -/
def filterMap (t : Table κ α) (f : κ → α → Option β) : Table κ β :=
  ⟨t.entries.filterMap fun e => (f e.1 e.2).map (e.1, ·), filterMap_ascending f t.ascending⟩

def map (t : Table κ α) (f : κ → α → β) : Table κ β :=
  ⟨t.entries.map fun e => (e.1, f e.1 e.2), List.pairwise_map.2 t.ascending⟩

/-- Rework the value of one key, if it has one. -/
def modify (t : Table κ α) (k : κ) (f : α → α) : Table κ α :=
  t.map fun k' v => if compare k' k = .eq then f v else v

/-- Store the entries of a list one after the other, so that the last of a key stays. -/
def insertAll (t : Table κ α) (l : List (κ × α)) : Table κ α :=
  l.foldl (fun t e => t.insert e.1 e.2) t

/-- The table of a list of entries; the last of a key stays. -/
def ofList (l : List (κ × α)) : Table κ α := insertAll ∅ l

/-- Add a value at the end of the list stored under a key. -/
def append (t : Table κ (List α)) (k : κ) (v : α) : Table κ (List α) :=
  t.insert k ((t.get? k).getD [] ++ [v])

/-- The values of a list gathered by their keys, each group in list order. -/
def group (l : List (κ × α)) : Table κ (List α) :=
  l.foldl (fun t e => t.append e.1 e.2) ∅

def last? (t : Table κ α) : Option (κ × α) := t.entries.getLast?

/-! ## Look-ups -/

theorem find_place [DecidableEq κ] (k k' : κ) (v : α) {l : List (κ × α)} :
    find k' (place k v l) = if k' = k then some v else find k' l := by
  induction l with
  | nil =>
    by_cases h : k' = k
    · subst h
      simp [place, find]
    · have : compare k' k ≠ .eq := fun e => h (eq_of_compare e)
      simp [place, find, this, h]
  | cons head rest ih =>
    obtain ⟨q, w⟩ := head
    by_cases h : k' = k
    · subst h
      rw [if_pos rfl, place]
      split
      · simp [find]
      · simp [find]
      · rename_i hgt
        rw [if_pos rfl] at ih
        simp [find, hgt, ih]
    · have hk : compare k' k ≠ .eq := fun e => h (eq_of_compare e)
      rw [if_neg h] at ih ⊢
      rw [place]
      split
      · simp [find, hk]
      · rename_i heq
        obtain rfl := eq_of_compare heq
        simp [find, hk]
      · simp only [find, ih]

@[simp] theorem get?_empty (k : κ) : (∅ : Table κ α).get? k = none := rfl

theorem get?_insert [DecidableEq κ] (t : Table κ α) (k k' : κ) (v : α) :
    (t.insert k v).get? k' = if k' = k then some v else t.get? k' :=
  find_place k k' v

@[simp] theorem get?_insert_self [DecidableEq κ] (t : Table κ α) (k : κ) (v : α) :
    (t.insert k v).get? k = some v := by
  rw [get?_insert, if_pos rfl]

theorem find_eq_none {k : κ} {l : List (κ × α)} :
    find k l = none ↔ ∀ e ∈ l, e.1 ≠ k := by
  induction l with
  | nil => simp [find]
  | cons head rest ih =>
    obtain ⟨q, w⟩ := head
    by_cases h : compare k q = .eq
    · obtain rfl := eq_of_compare h
      simp [find]
    · have hne : q ≠ k := by
        rintro rfl
        exact h ReflCmp.compare_self
      simp [find, h, ih, hne]

theorem find_eq_some {k : κ} {v : α} {l : List (κ × α)}
    (h : l.Pairwise fun a b => Precedes a.1 b.1) : find k l = some v ↔ (k, v) ∈ l := by
  induction l with
  | nil => simp [find]
  | cons head rest ih =>
    obtain ⟨q, w⟩ := head
    obtain ⟨hhead, hrest⟩ := List.pairwise_cons.1 h
    by_cases hq : compare k q = .eq
    · obtain rfl := eq_of_compare hq
      have hout : (k, v) ∉ rest := fun hm => not_precedes_self k (hhead _ hm)
      simp [find, hout, eq_comm]
    · have hne : k ≠ q := by
        rintro rfl
        exact hq ReflCmp.compare_self
      simp [find, hq, ih hrest, hne]

/-- An entry is what a look-up of its key finds. -/
theorem get?_eq_some_iff (t : Table κ α) {k : κ} {v : α} :
    t.get? k = some v ↔ (k, v) ∈ t.entries :=
  find_eq_some t.ascending

theorem get?_eq_none_iff (t : Table κ α) {k : κ} : t.get? k = none ↔ k ∉ t.keys := by
  rw [get?, find_eq_none, keys]
  simp only [List.mem_map, not_exists, not_and]

theorem mem_keys_iff (t : Table κ α) {k : κ} : k ∈ t.keys ↔ ∃ v, t.get? k = some v := by
  simp only [keys, List.mem_map, get?_eq_some_iff]
  constructor
  · rintro ⟨⟨_, v⟩, hm, rfl⟩
    exact ⟨v, hm⟩
  · rintro ⟨v, hm⟩
    exact ⟨(k, v), hm, rfl⟩

theorem contains_iff (t : Table κ α) {k : κ} : t.contains k = true ↔ k ∈ t.keys := by
  rw [contains, Option.isSome_iff_exists, mem_keys_iff]

theorem get?_filter (t : Table κ α) (p : κ → α → Bool) (k : κ) :
    (t.filter p).get? k = (t.get? k).filter (p k) := by
  refine Option.ext fun v => ?_
  rw [get?_eq_some_iff, Option.filter_eq_some_iff, get?_eq_some_iff, filter, List.mem_filter]

theorem get?_erase [DecidableEq κ] (t : Table κ α) (k k' : κ) :
    (t.erase k).get? k' = if k' = k then none else t.get? k' := by
  rw [erase, get?_filter]
  by_cases h : k' = k
  · subst h
    cases t.get? k' <;> simp [Option.filter]
  · have : compare k' k ≠ .eq := fun e => h (eq_of_compare e)
    cases t.get? k' <;> simp [Option.filter, this, h]

theorem get?_filterMap (t : Table κ α) (f : κ → α → Option β) (k : κ) :
    (t.filterMap f).get? k = (t.get? k).bind (f k) := by
  refine Option.ext fun v => ?_
  rw [get?_eq_some_iff, Option.bind_eq_some_iff, filterMap, List.mem_filterMap]
  constructor
  · rintro ⟨⟨q, w⟩, hm, hw⟩
    obtain ⟨x, hx, he⟩ := Option.map_eq_some_iff.1 hw
    obtain ⟨rfl, rfl⟩ := Prod.mk.inj he
    exact ⟨w, t.get?_eq_some_iff.2 hm, hx⟩
  · rintro ⟨w, hm, hx⟩
    exact ⟨(k, w), t.get?_eq_some_iff.1 hm, by simp [hx]⟩

/-- The entries of one key: the one that a look-up finds, if any. -/
theorem filter_entries_key [DecidableEq κ] (t : Table κ α) (k : κ) :
    t.entries.filter (fun e => e.1 == k) = (t.get? k).toList.map fun v => (k, v) := by
  rw [get?]
  have hasc := t.ascending
  generalize t.entries = l at hasc
  induction l with
  | nil => rfl
  | cons e rest ih =>
    obtain ⟨he, hrest⟩ := List.pairwise_cons.1 hasc
    by_cases hk : e.1 = k
    · have hout : rest.filter (fun q => q.1 == k) = [] := by
        rw [List.filter_eq_nil_iff]
        intro q hq
        have hne := Precedes.ne (he q hq)
        rw [hk] at hne
        simpa using hne.symm
      subst hk
      simp [find, hout]
    · have hne : compare k e.1 ≠ .eq := fun h => hk (eq_of_compare h).symm
      rw [List.filter_cons_of_neg (by simpa using hk), ih hrest]
      simp [find, hne]

theorem values_filterMap (t : Table κ α) (f : κ → α → Option β) :
    (t.filterMap f).values = t.entries.filterMap fun e => f e.1 e.2 := by
  simp only [values, filterMap, List.map_filterMap, Option.map_map, Function.comp_def,
    Option.map_id_fun', id]

theorem get?_map (t : Table κ α) (f : κ → α → β) (k : κ) :
    (t.map f).get? k = (t.get? k).map (f k) := by
  refine Option.ext fun v => ?_
  rw [get?_eq_some_iff, Option.map_eq_some_iff, map, List.mem_map]
  constructor
  · rintro ⟨⟨q, w⟩, hm, he⟩
    obtain ⟨rfl, rfl⟩ := Prod.mk.inj he
    exact ⟨w, t.get?_eq_some_iff.2 hm, rfl⟩
  · rintro ⟨w, hm, rfl⟩
    exact ⟨(k, w), t.get?_eq_some_iff.1 hm, rfl⟩

theorem values_map (t : Table κ α) (f : α → β) :
    (t.map fun _ v => f v).values = t.values.map f := by
  simp only [values, map, List.map_map, Function.comp_def]

theorem get?_modify [DecidableEq κ] (t : Table κ α) (k k' : κ) (f : α → α) :
    (t.modify k f).get? k' = if k' = k then (t.get? k').map f else t.get? k' := by
  rw [modify, get?_map]
  by_cases h : k' = k
  · subst h
    simp
  · have : compare k' k ≠ .eq := fun e => h (eq_of_compare e)
    simp [h, this]

/-- The values that a list of entries has under a key, in list order. -/
def valuesAt [DecidableEq κ] (k : κ) (l : List (κ × α)) : List α :=
  (l.filter fun e => e.1 == k).map Prod.snd

omit [TableKey κ] in
theorem valuesAt_map [DecidableEq κ] (k : κ) (l : List (κ × α)) (f : α → β) :
    valuesAt k (l.map fun e => (e.1, f e.2)) = (valuesAt k l).map f := by
  rw [valuesAt, valuesAt, List.filter_map, List.map_map, List.map_map]
  rfl

omit [TableKey κ] in
/-- A key that gets a free name takes its values along. -/
theorem valuesAt_rename [DecidableEq κ] {old new : κ} {l : List (κ × α)} (hne : old ≠ new)
    (hfree : ∀ e ∈ l, e.1 ≠ new) (k : κ) :
    valuesAt k (l.map fun e => (if e.1 = old then new else e.1, e.2)) =
      if k = new then valuesAt old l else if k = old then [] else valuesAt k l := by
  rw [valuesAt, List.filter_map, List.map_map]
  show (l.filter fun e => (if e.1 = old then new else e.1) == k).map Prod.snd = _
  by_cases hk : k = new
  · rw [if_pos hk, valuesAt, hk]
    refine congrArg _ (List.filter_congr fun e he => ?_)
    by_cases heq : e.1 = old
    · rw [if_pos heq, heq, beq_self_eq_true, beq_self_eq_true]
    · rw [if_neg heq, beq_eq_false_iff_ne.2 (hfree e he), beq_eq_false_iff_ne.2 heq]
  · rw [if_neg hk]
    by_cases hold : k = old
    · rw [if_pos hold, List.map_eq_nil_iff, List.filter_eq_nil_iff]
      intro e _ hmatch
      split at hmatch
      · exact hne (hold.symm.trans (eq_of_beq hmatch).symm)
      · rename_i hother
        exact hother ((eq_of_beq hmatch).trans hold)
    · rw [if_neg hold, valuesAt]
      refine congrArg _ (List.filter_congr fun e _ => ?_)
      by_cases heq : e.1 = old
      · rw [if_pos heq, heq, beq_eq_false_iff_ne.2 (Ne.symm hk), beq_eq_false_iff_ne.2 (Ne.symm hold)]
      · rw [if_neg heq]

theorem get?_append [DecidableEq κ] (t : Table κ (List α)) (k k' : κ) (v : α) :
    (t.append k v).get? k' =
      if k' = k then some ((t.get? k).getD [] ++ [v]) else t.get? k' :=
  t.get?_insert k k' _

/-- A group holds the values of its key, and there is none without a value. -/
theorem get?_group [DecidableEq κ] (l : List (κ × α)) (k : κ) :
    (group l).get? k = if (valuesAt k l).isEmpty then none else some (valuesAt k l) := by
  have hfold (t : Table κ (List α)) :
      (l.foldl (fun t e => t.append e.1 e.2) t).get? k =
        if (valuesAt k l).isEmpty then t.get? k
        else some ((t.get? k).getD [] ++ valuesAt k l) := by
    induction l generalizing t with
    | nil => rfl
    | cons e rest ih =>
      rw [List.foldl_cons, ih, get?_append]
      by_cases hk : e.1 = k
      · have hcons : valuesAt k (e :: rest) = e.2 :: valuesAt k rest := by
          rw [valuesAt, List.filter_cons_of_pos (by simp [hk])]
          rfl
        rw [hcons, if_pos hk.symm, hk]
        cases hrest : valuesAt k rest <;> simp
      · have hcons : valuesAt k (e :: rest) = valuesAt k rest := by
          rw [valuesAt, List.filter_cons_of_neg (by simp [hk])]
          rfl
        rw [hcons, if_neg (Ne.symm hk)]
  exact hfold ∅

/-! ## Equal answers, equal tables -/

theorem entries_ext {l₁ l₂ : List (κ × α)}
    (h₁ : l₁.Pairwise fun a b => Precedes a.1 b.1)
    (h₂ : l₂.Pairwise fun a b => Precedes a.1 b.1) (h : ∀ e, e ∈ l₁ ↔ e ∈ l₂) : l₁ = l₂ := by
  induction l₁ generalizing l₂ with
  | nil =>
    cases l₂ with
    | nil => rfl
    | cons b _ => exact absurd ((h b).2 List.mem_cons_self) (by simp)
  | cons a r₁ ih =>
    cases l₂ with
    | nil => exact absurd ((h a).1 List.mem_cons_self) (by simp)
    | cons b r₂ =>
      obtain ⟨ha, hr₁⟩ := List.pairwise_cons.1 h₁
      obtain ⟨hb, hr₂⟩ := List.pairwise_cons.1 h₂
      have hab : a = b := by
        rcases List.mem_cons.1 ((h a).1 List.mem_cons_self) with e | hm
        · exact e
        · rcases List.mem_cons.1 ((h b).2 List.mem_cons_self) with e | hm'
          · exact e.symm
          · exact absurd (Precedes.trans' (hb a hm) (ha b hm')) (not_precedes_self _)
      subst hab
      refine congrArg (a :: ·) (ih hr₁ hr₂ fun e => ?_)
      have hout₁ : ∀ x ∈ r₁, x ≠ a := fun x hx e => not_precedes_self a.1 (e ▸ ha x hx)
      have hout₂ : ∀ x ∈ r₂, x ≠ a := fun x hx e => not_precedes_self a.1 (e ▸ hb x hx)
      constructor
      · intro he
        exact (List.mem_cons.1 ((h e).1 (List.mem_cons_of_mem a he))).resolve_left (hout₁ e he)
      · intro he
        exact (List.mem_cons.1 ((h e).2 (List.mem_cons_of_mem a he))).resolve_left (hout₂ e he)

/-- Tables that answer every look-up alike are equal. -/
theorem ext_get? {s t : Table κ α} (h : ∀ k, s.get? k = t.get? k) : s = t :=
  ext <| entries_ext s.ascending t.ascending fun e => by
    rw [← get?_eq_some_iff, ← get?_eq_some_iff, h]

theorem mem_values_iff (t : Table κ α) {v : α} : v ∈ t.values ↔ ∃ k, t.get? k = some v := by
  simp only [values, List.mem_map, get?_eq_some_iff]
  constructor
  · rintro ⟨⟨k, _⟩, hm, rfl⟩
    exact ⟨k, hm⟩
  · rintro ⟨k, hm⟩
    exact ⟨(k, v), hm, rfl⟩

theorem isEmpty_iff (t : Table κ α) : t.isEmpty = true ↔ ∀ k, t.get? k = none := by
  rw [isEmpty, List.isEmpty_iff]
  constructor
  · intro h k
    rw [get?, h]
    rfl
  · intro h
    have he : t = ∅ := ext_get? fun k => by rw [h k, get?_empty]
    rw [he]
    rfl

theorem mem_keys_insertAll {k : κ} (l : List (κ × α)) (t : Table κ α) :
    k ∈ (t.insertAll l).keys ↔ k ∈ t.keys ∨ k ∈ l.map Prod.fst := by
  induction l generalizing t with
  | nil => simp [insertAll]
  | cons head rest ih =>
    have step : t.insertAll (head :: rest) = (t.insert head.1 head.2).insertAll rest := rfl
    rw [step, ih]
    let : DecidableEq κ := fun _ _ => Classical.propDecidable _
    simp only [mem_keys_iff, get?_insert, List.map_cons, List.mem_cons]
    by_cases h : k = head.1 <;> simp [h]

theorem mem_of_mem_insertAll {e : κ × α} {l : List (κ × α)} {t : Table κ α}
    (h : e ∈ (t.insertAll l).entries) : e ∈ t.entries ∨ e ∈ l := by
  induction l generalizing t with
  | nil => exact .inl h
  | cons head rest ih =>
    rcases ih h with hmem | hmem
    · rcases mem_place hmem with rfl | hmem
      · exact .inr List.mem_cons_self
      · exact .inl hmem
    · exact .inr (List.mem_cons_of_mem head hmem)

/-- With keys in order and none repeated, storing entries one after the other only adds them. -/
theorem get?_insertAll [DecidableEq κ] {l : List (κ × α)}
    (h : l.Pairwise fun a b => Precedes a.1 b.1) (t : Table κ α) (k : κ) :
    (t.insertAll l).get? k = (find k l).or (t.get? k) := by
  induction l generalizing t with
  | nil => rfl
  | cons head rest ih =>
    obtain ⟨hhead, hrest⟩ := List.pairwise_cons.1 h
    have step : t.insertAll (head :: rest) = (t.insert head.1 head.2).insertAll rest := rfl
    rw [step, ih hrest, get?_insert]
    by_cases hk : k = head.1
    · subst hk
      have hout : find head.1 rest = none :=
        find_eq_none.2 fun e he => (Precedes.ne (hhead e he)).symm
      rw [if_pos rfl, hout]
      simp [find]
    · have hne : compare k head.1 ≠ .eq := fun e => hk (eq_of_compare e)
      rw [if_neg hk]
      simp [find, hne]

theorem mem_of_mem_ofList {e : κ × α} {l : List (κ × α)} (h : e ∈ (ofList l).entries) : e ∈ l :=
  (mem_of_mem_insertAll h).resolve_left List.not_mem_nil

theorem mem_keys_ofList {k : κ} {l : List (κ × α)} :
    k ∈ (ofList l).keys ↔ k ∈ l.map Prod.fst := by
  rw [ofList, mem_keys_insertAll]
  exact or_iff_right List.not_mem_nil

/-- The entries of a table in order are the table. -/
theorem ofList_entries (t : Table κ α) : ofList t.entries = t := by
  let : DecidableEq κ := fun _ _ => Classical.propDecidable _
  refine ext_get? fun k => ?_
  rw [ofList, get?_insertAll t.ascending, get?_empty, Option.or_none]
  rfl

/-- A sorted list of entries is what is stored. -/
theorem entries_ofList {l : List (κ × α)} (h : l.Pairwise fun a b => Precedes a.1 b.1) :
    (ofList l).entries = l :=
  congrArg entries (ofList_entries ⟨l, h⟩)

end Table

/-! ## Sorted lists without repetition -/

variable {κ : Type} [TableKey κ]

/-- The elements of a list in ascending order, each once. -/
def ascend (l : List κ) : List κ := (Table.ofList (l.map (·, ()))).keys

/-- Sorting loses and adds nothing. -/
theorem mem_ascend {k : κ} {l : List κ} : k ∈ ascend l ↔ k ∈ l := by
  rw [ascend, Table.ofList, Table.mem_keys_insertAll]
  have : k ∉ (∅ : Table κ Unit).keys := by
    simp [EmptyCollection.emptyCollection, Table.empty, Table.keys]
  simp [this, List.map_map, Function.comp_def]

theorem Table.keys_ascending {α : Type} (t : Table κ α) : t.keys.Pairwise Precedes :=
  List.pairwise_map.2 t.ascending

theorem ascend_ascending (l : List κ) : (ascend l).Pairwise Precedes :=
  Table.keys_ascending _

/-- Ascending lists with the same elements are equal. -/
theorem eq_of_ascending {l₁ l₂ : List κ} (h₁ : l₁.Pairwise Precedes) (h₂ : l₂.Pairwise Precedes)
    (h : ∀ a, a ∈ l₁ ↔ a ∈ l₂) : l₁ = l₂ := by
  have hmap : l₁.map (·, ()) = l₂.map (·, ()) := by
    refine Table.entries_ext (List.pairwise_map.2 h₁) (List.pairwise_map.2 h₂) fun e => ?_
    simp [List.mem_map, Prod.ext_iff, h]
  have hfst := congrArg (List.map Prod.fst) hmap
  simpa [List.map_map, Function.comp_def] using hfst

theorem ascend_eq_self {l : List κ} (h : l.Pairwise Precedes) : ascend l = l :=
  eq_of_ascending (ascend_ascending l) h fun _ => mem_ascend

theorem ascend_congr {l₁ l₂ : List κ} (h : ∀ a, a ∈ l₁ ↔ a ∈ l₂) : ascend l₁ = ascend l₂ :=
  eq_of_ascending (ascend_ascending l₁) (ascend_ascending l₂) fun a => by
    rw [mem_ascend, mem_ascend, h]

end CoverageLedger
