import CoverageLedger.Json.Basic

/-!
# Records in JSON

Every reader of `Json.Basic` undoes the writer that goes with it, given that the same holds of what
is inside.  `Json.normal` leaves alone what the writers of tables make.
-/

namespace CoverageLedger.Json

variable {α : Type} {read : Json → Option α} {write : α → Json}

/-! ## 1. Scalars -/

theorem nat?_nat (n : Nat) : (nat n).nat? = some n := rfl

theorem nat32?_nat {n : Nat} (h : n < Text.word32) : (nat n).nat32? = some n := by
  rw [nat32?, nat?_nat, Option.filter_some, if_pos (by simpa using h)]

theorem lt_word32_of_nat32? {j : Json} {n : Nat} (h : j.nat32? = some n) : n < Text.word32 :=
  of_decide_eq_true (Option.filter_eq_some_iff.1 h).2

theorem int64?_int {i : Int} (h : i < 0x8000000000000000) : (int i).int64? = some i := if_pos h

theorem string?_string (s : String) : (string s).string? = some s := rfl

/-! ## 2. Options, lists and tables -/

theorem optional?_ofOption {o : Option α} (h : ∀ a, o = some a → read (write a) = some a)
    (hnull : ∀ a, write a ≠ .null) : optional? read (ofOption write o) = some o := by
  cases o with
  | none => rfl
  | some a =>
    have hread : optional? read (write a) = (read (write a)).map some := by
      rw [optional?.eq_def]
      split
      · rename_i heq
        exact absurd heq (hnull a)
      · rfl
    show optional? read (write a) = _
    rw [hread, h a rfl]
    rfl

theorem mapM_eq_some {β : Type} {f : α → Option β} {g : α → β} {l : List α}
    (h : ∀ a ∈ l, f a = some (g a)) : l.mapM f = some (l.map g) := by
  induction l with
  | nil => rfl
  | cons a rest ih =>
    rw [List.mapM_cons, h a List.mem_cons_self, ih fun b hb => h b (List.mem_cons_of_mem a hb)]
    rfl

/-- What is read of a list of values is read of one of them. -/
theorem exists_of_mem_mapM {β : Type} {f : α → Option β} {l : List α} {l' : List β}
    (h : l.mapM f = some l') {b : β} (hb : b ∈ l') : ∃ a ∈ l, f a = some b := by
  induction l generalizing l' with
  | nil =>
    obtain rfl := Option.some.inj h
    cases hb
  | cons a rest ih =>
    rw [List.mapM_cons] at h
    simp only [Option.bind_eq_bind, Option.bind_eq_some_iff] at h
    obtain ⟨first, hfirst, others, hothers, heq⟩ := h
    obtain rfl := Option.some.inj heq
    rcases List.mem_cons.1 hb with rfl | hb
    · exact ⟨a, List.mem_cons_self, hfirst⟩
    · obtain ⟨c, hc, hread⟩ := ih hothers hb
      exact ⟨c, List.mem_cons_of_mem a hc, hread⟩

theorem list?_of_optional? {j : Json} {l : List α}
    (h : optional? (list? read) j = some (some l)) : list? read j = some l := by
  rw [optional?.eq_def] at h
  split at h
  · cases h
  · obtain ⟨l', hl', heq⟩ := Option.map_eq_some_iff.1 h
    obtain rfl := Option.some.inj heq
    exact hl'

theorem lt_word32_of_list? {j : Json} {l : List Nat} (h : list? nat32? j = some l) :
    ∀ n ∈ l, n < Text.word32 := by
  intro n hn
  obtain ⟨items, -, hitems⟩ := Option.bind_eq_some_iff.1 h
  obtain ⟨item, -, hread⟩ := exists_of_mem_mapM hitems hn
  exact lt_word32_of_nat32? hread

theorem list?_ofList {l : List α} (h : ∀ a ∈ l, read (write a) = some a) :
    list? read (ofList write l) = some l := by
  have hall : l.mapM (read ∘ write) = some (l.map id) := mapM_eq_some h
  show (l.map write).mapM read = some l
  rw [List.mapM_map, hall, List.map_id]

theorem table?_ofTable {t : Table String α} (h : ∀ k a, t.get? k = some a → read (write a) = some a) :
    table? read (ofTable (t.map fun _ a => write a)) = some t := by
  have hall : t.entries.mapM ((fun f : String × Json => (read f.2).map fun v => (f.1, v)) ∘
      fun e : String × α => (e.1, write e.2)) = some (t.entries.map id) := by
    apply mapM_eq_some
    intro e he
    show (read (write e.2)).map _ = _
    rw [h e.1 e.2 (t.get?_eq_some_iff.2 he)]
    rfl
  show Option.map Table.ofList
    (List.mapM _ (t.entries.map fun e : String × α => (e.1, write e.2))) = _
  rw [List.mapM_map, hall, List.map_id, Option.map_some, Table.ofList_entries]

/-! ## 3. Objects with fixed fields -/

theorem filter_zip {names : List String} (hnodup : names.Nodup) {values : List Json}
    (hlen : names.length = values.length) {i : Nat} (hi : i < names.length) :
    (names.zip values).filter (fun f => f.1 == names[i]) = [(names[i], values[i])] := by
  induction names generalizing values i with
  | nil => exact absurd hi (Nat.not_lt_zero i)
  | cons name rest ih =>
    obtain ⟨hout, hrest⟩ := List.nodup_cons.1 hnodup
    cases values with
    | nil => cases hlen
    | cons j others =>
      have hlen' : rest.length = others.length := Nat.succ.inj hlen
      cases i with
      | zero =>
        have hnone : (rest.zip others).filter (fun f => f.1 == name) = [] := by
          rw [List.filter_eq_nil_iff]
          rintro ⟨k, v⟩ hmem hk
          have hname : k = name := by simpa using hk
          exact hout (hname ▸ (List.of_mem_zip hmem).1)
        simp [hnone]
      | succ i =>
        have hi' : i < rest.length := Nat.lt_of_succ_lt_succ hi
        -- names do not repeat, so the first one is not asked for here
        have hne : name ≠ rest[i] := fun heq => hout (heq ▸ List.getElem_mem hi')
        simp [hne, ih hrest hlen' hi']

/-- An object that has the fields of a record, each once, is read field by field. -/
theorem record?_zip {names : List String} (hnodup : names.Nodup) {values : List Json}
    (hlen : names.length = values.length) :
    (object (names.zip values)).record? names = some (values.map some) := by
  have hfields : (object (names.zip values)).record? names =
      some (names.map fun name => values[names.idxOf name]?) := by
    apply mapM_eq_some
    intro name hname
    obtain ⟨i, hi, rfl⟩ := List.getElem_of_mem hname
    rw [filter_zip hnodup hlen hi, hnodup.idxOf_getElem i hi, List.getElem?_eq_getElem]
  refine hfields.trans (congrArg some (List.ext_getElem? fun i => ?_))
  rw [List.getElem?_map, List.getElem?_map]
  by_cases hi : i < names.length
  · rw [List.getElem?_eq_getElem hi, Option.map_some, hnodup.idxOf_getElem i hi,
      List.getElem?_eq_getElem (hlen ▸ hi)]
    rfl
  · rw [List.getElem?_eq_none (by omega), List.getElem?_eq_none (by omega)]
    rfl

/-! ## 4. Normal forms -/

theorem normalItems_eq_self {items : List Json} (h : ∀ j ∈ items, j.normal = j) :
    normalItems items = items := by
  induction items with
  | nil => rfl
  | cons j rest ih =>
    rw [normalItems, h j List.mem_cons_self, ih fun k hk => h k (List.mem_cons_of_mem j hk)]

theorem normalFields_eq_self {fields : List (String × Json)} (h : ∀ f ∈ fields, f.2.normal = f.2) :
    normalFields fields = fields := by
  induction fields with
  | nil => rfl
  | cons f rest ih =>
    rw [normalFields, h f List.mem_cons_self, ih fun g hg => h g (List.mem_cons_of_mem f hg)]

theorem normal_array {items : List Json} (h : ∀ j ∈ items, j.normal = j) :
    (array items).normal = array items := by
  rw [normal, normalItems_eq_self h]

theorem normal_ofList {l : List α} (h : ∀ a ∈ l, (write a).normal = write a) :
    (ofList write l).normal = ofList write l := by
  apply normal_array
  intro j hj
  obtain ⟨a, ha, rfl⟩ := List.mem_map.1 hj
  exact h a ha

theorem normal_ofOption {o : Option α} (h : ∀ a, o = some a → (write a).normal = write a) :
    (ofOption write o).normal = ofOption write o := by
  cases o with
  | none => rfl
  | some a => exact h a rfl

theorem normal_ofTable {t : Table String Json} (h : ∀ k j, t.get? k = some j → j.normal = j) :
    (ofTable t).normal = ofTable t := by
  have hfields : normalFields t.entries = t.entries :=
    normalFields_eq_self fun f hf => h f.1 f.2 (t.get?_eq_some_iff.2 hf)
  rw [ofTable, normal, hfields, Table.ofList_entries]

end CoverageLedger.Json
