import CoverageLedger.Proofs.Line.Sessions
import CoverageLedger.Proofs.Report.Append
import CoverageLedger.Upload

/-!
# What a tracefile says about a line

`TracedFile.reads` is the session that a traced file makes of a line number, without an id.
`source_reads` says that `TracedFile.source` never fails on what the parser gives, and that under
every id it makes a file with just these sessions, one on each line.
-/

namespace CoverageLedger

/-! ## 1. Lines of one session -/

namespace LineSession

/-- A session under an id. -/
def withId (id : Nat) (s : LineSession) : LineSession := { s with id }

@[simp] theorem id_withId (id : Nat) (s : LineSession) : (s.withId id).id = id := rfl

theorem merge_withId (id : Nat) (a b : LineSession) :
    (a.withId id).merge (b.withId id) = (a.merge b).withId id := rfl

theorem plain_merge {a b : LineSession} (ha : a.reading.Plain) (hb : b.reading.Plain) :
    (a.merge b).reading.Plain := Reading.Plain.merge ha hb

/-- Join a session with what is there. -/
def join : Option LineSession → LineSession → Option LineSession
  | some own, s => some (own.merge s)
  | none, s => some s

end LineSession

/-- A line that a session made by itself. -/
structure Line.MadeBy (id : Nat) (s : LineSession) (l : Line) : Prop where
  sessions : l.sessions = [s.withId id]
  reading : l.reading = s.reading
  plain : s.reading.Plain

theorem Line.MadeBy.merge {id : Nat} {s s' : LineSession} {l l' : Line} (h : l.MadeBy id s)
    (h' : l'.MadeBy id s') : (l.merge l' true).MadeBy id (s.merge s') := by
  have hsessions : LineSession.mergeLists l.sessions l'.sessions = [(s.merge s').withId id] := by
    rw [h.sessions, h'.sessions, LineSession.mergeLists, List.foldl_cons, List.foldl_nil,
      LineSession.mergeInto, LineSession.id_withId, LineSession.id_withId, if_pos rfl,
      LineSession.merge_withId]
  refine ⟨hsessions, ?_, LineSession.plain_merge h.plain h'.plain⟩
  rw [Line.merge]
  simp only [hsessions]
  rfl

namespace SourceFile

/-- The lines of a file are those that the sessions of a table by number make under one id. -/
structure Reads (id : Nat) (reads : Nat → Option LineSession) (f : SourceFile) : Prop where
  ignore : f.ignore = none
  line : ∀ n, match reads n with
    | some s => ∃ l, f.lines.get? n = some l ∧ l.MadeBy id s
    | none => f.lines.get? n = none

end SourceFile

/-! ## 2. What the parser gives -/

theorem Text.getD_nat64?_lt (cs : List Char) : (Text.nat64? cs).getD 0 < Text.word64 := by
  cases h : Text.nat64? cs with
  | none => exact Nat.two_pow_pos 64
  | some n => exact of_decide_eq_true (Option.filter_eq_some_iff.1 h).2

theorem Text.toNat_lt_of_int64? {cs : List Char} {i : Int} (h : Text.int64? cs = some i) :
    i.toNat < Text.word64 := by
  unfold Text.word64
  unfold Text.int64? at h
  split at h
  · obtain ⟨n, hn, rfl⟩ := Option.map_eq_some_iff.1 h
    obtain ⟨k, -, hk⟩ := Option.bind_eq_some_iff.1 hn
    obtain rfl : (k : Int) = n := Option.some.inj hk
    omega
  · obtain ⟨n, hn, rfl⟩ := Option.map_eq_some_iff.1 h
    have hlt : n < 0x8000000000000000 := of_decide_eq_true (Option.filter_eq_some_iff.1 hn).2
    show n < _
    omega

namespace TraceRecord

/-- No record says anything of line zero, and counts have 64 bits. -/
def InRange : TraceRecord → Prop
  | line number hits => number ≠ 0 ∧ hits < Text.word64
  | functionHits _ hits => hits < Text.word64
  | _ => True

theorem inRange_of_line? {value : List Char} {record : TraceRecord}
    (h : line? value = some record) : record.InRange := by
  unfold line? at h
  simp only [Option.bind_eq_bind] at h
  split at h
  · obtain ⟨number, -, h⟩ := Option.bind_eq_some_iff.1 h
    obtain ⟨hits, hhits, h⟩ := Option.bind_eq_some_iff.1 h
    split at h
    · cases h
    · rename_i hnot
      obtain rfl := Option.some.inj h
      exact ⟨fun hzero => hnot (.inl hzero), Text.toNat_lt_of_int64? hhits⟩
  · cases h

theorem inRange_of_function? {value : List Char} {record : TraceRecord}
    (h : function? value = some record) : record.InRange := by
  unfold function? at h
  simp only [Option.bind_eq_bind] at h
  obtain ⟨⟨first, rest⟩, -, h⟩ := Option.bind_eq_some_iff.1 h
  obtain ⟨number, -, h⟩ := Option.bind_eq_some_iff.1 h
  simp only at h
  split at h
  · obtain rfl := Option.some.inj h
    trivial
  · split at h
    · obtain rfl := Option.some.inj h
      trivial
    · obtain rfl := Option.some.inj h
      trivial

theorem inRange_of_functionHits? {value : List Char} {record : TraceRecord}
    (h : functionHits? value = some record) : record.InRange := by
  unfold functionHits? at h
  simp only [Option.bind_eq_bind] at h
  obtain ⟨⟨hits, name⟩, -, h⟩ := Option.bind_eq_some_iff.1 h
  obtain rfl := Option.some.inj h
  exact Text.getD_nat64?_lt hits

theorem inRange_of_branch? {value : List Char} {record : TraceRecord}
    (h : branch? value = some record) : record.InRange := by
  unfold branch? at h
  simp only [Option.bind_eq_bind] at h
  split at h
  · obtain ⟨number, -, h⟩ := Option.bind_eq_some_iff.1 h
    obtain rfl := Option.some.inj h
    trivial
  · cases h

theorem inRange_of_ofRow? {row : List Char} {record : TraceRecord}
    (h : ofRow? row = some record) : record.InRange := by
  unfold ofRow? at h
  simp only [Option.bind_eq_bind] at h
  split at h
  · obtain rfl := Option.some.inj h
    trivial
  · obtain ⟨⟨tag, value⟩, -, h⟩ := Option.bind_eq_some_iff.1 h
    simp only at h
    split at h
    · obtain rfl := Option.some.inj h
      trivial
    · exact inRange_of_function? h
    · exact inRange_of_functionHits? h
    · exact inRange_of_line? h
    · exact inRange_of_branch? h
    · cases h

/-- The calls of a function are counted by one of the records. -/
theorem exists_of_mem_calls {places : Table String (Nat × Option Nat)}
    {records : List TraceRecord} {g : FunctionHits} (h : g ∈ calls places records) :
    functionHits g.name g.hits ∈ records := by
  induction records generalizing places with
  | nil => exact absurd h List.not_mem_nil
  | cons record rest ih =>
    cases record with
    | functionHits name hits =>
      rcases List.mem_cons.1 h with rfl | h
      · exact List.mem_cons_self
      · exact List.mem_cons_of_mem _ (ih h)
    | _ => exact List.mem_cons_of_mem _ (ih h)

/-- The records of a section are among those of the file. -/
theorem mem_of_mem_sectionsFrom {opened : OpenSection} {records : List TraceRecord}
    {found : String × List TraceRecord} (h : found ∈ sectionsFrom opened records)
    {record : TraceRecord} (hr : record ∈ found.2) :
    record ∈ records ∨ ∃ s, opened = some s ∧ record ∈ s.2 := by
  have hclose {opened : OpenSection} (h : found ∈ sectionsFrom.close opened) :
      ∃ s, opened = some s ∧ record ∈ s.2 := by
    rw [sectionsFrom.close, List.mem_map] at h
    obtain ⟨s, hs, rfl⟩ := h
    exact ⟨s, Option.mem_toList.1 hs, List.mem_reverse.1 hr⟩
  induction records generalizing opened with
  | nil =>
    rw [sectionsFrom] at h
    exact .inr (hclose h)
  | cons next rest ih =>
    have hlater {opened' : OpenSection} (h : found ∈ sectionsFrom opened' rest)
        (hopened' : ∀ s, opened' = some s → record ∈ s.2 →
          record = next ∨ ∃ s, opened = some s ∧ record ∈ s.2) :
        record ∈ next :: rest ∨ ∃ s, opened = some s ∧ record ∈ s.2 := by
      rcases ih h with hrest | ⟨s, hs, hin⟩
      · exact .inl (List.mem_cons_of_mem next hrest)
      · rcases hopened' s hs hin with rfl | hin
        · exact .inl List.mem_cons_self
        · exact .inr hin
    rw [sectionsFrom.eq_def] at h
    split at h
    · rename_i heq
      cases heq
    · rename_i path rest' heq
      obtain ⟨rfl, rfl⟩ := List.cons.inj heq
      rcases List.mem_append.1 h with h | h
      · exact .inr (hclose h)
      · exact hlater h fun s hs hin => by
          obtain rfl := Option.some.inj hs
          exact absurd hin List.not_mem_nil
    · rename_i rest' heq
      obtain ⟨rfl, rfl⟩ := List.cons.inj heq
      rcases List.mem_append.1 h with h | h
      · exact .inr (hclose h)
      · exact hlater h fun s hs => by cases hs
    · rename_i r rest' _ _ heq
      obtain ⟨rfl, rfl⟩ := List.cons.inj heq
      exact hlater h fun s hs hin => by
        obtain ⟨own, hown, rfl⟩ := Option.map_eq_some_iff.1 hs
        rcases List.mem_cons.1 hin with rfl | hin
        · exact .inl rfl
        · exact .inr ⟨own, hown, hin⟩

end TraceRecord

/-- What the parser gives: nothing is said of line zero, and counts have 64 bits. -/
structure TracedFile.InRange (f : TracedFile) : Prop where
  lines : ∀ l ∈ f.lines, l.line ≠ 0 ∧ l.hits < Text.word64
  functions : ∀ g ∈ f.functions, g.hits < Text.word64

theorem TracedFile.inRange_of_ofBytes? {bytes : ByteArray} {files : List TracedFile}
    (h : TracedFile.ofBytes? bytes = .ok files) : ∀ f ∈ files, f.InRange := by
  intro f hf
  rw [TracedFile.ofBytes?] at h
  split at h
  · obtain rfl := Except.ok.inj h
    rw [TracedFile.ofText, TracedFile.ofRows, List.mem_map] at hf
    obtain ⟨found, hfound, rfl⟩ := hf
    have hrecords : ∀ record ∈ found.2, record.InRange := by
      intro record hrecord
      rcases TraceRecord.mem_of_mem_sectionsFrom hfound hrecord with hin | ⟨s, hs, -⟩
      · obtain ⟨row, -, hrow⟩ := List.mem_filterMap.1 hin
        exact TraceRecord.inRange_of_ofRow? hrow
      · cases hs
    refine ⟨fun l hl => ?_, fun g hg => hrecords _ (TraceRecord.exists_of_mem_calls hg)⟩
    obtain ⟨record, hrecord, hline⟩ := List.mem_filterMap.1 hl
    have hrange := hrecords record hrecord
    split at hline
    · obtain rfl := Option.some.inj hline
      exact hrange
    · cases hline
  · cases h

/-- What the parser gives says nothing of line zero. -/
theorem TracedFile.line_ne_zero_of_ofBytes? {bytes : ByteArray} {files : List TracedFile}
    (h : TracedFile.ofBytes? bytes = .ok files) :
    ∀ f ∈ files, ∀ l ∈ f.lines, l.line ≠ 0 := fun f hf l hl =>
  ((TracedFile.inRange_of_ofBytes? h f hf).lines l hl).1

namespace TracedFile

open LineSession (join)

variable {id n : Nat} {known : Nat → Option LineSession} {f : SourceFile} {l : Line}
  {s : LineSession}

theorem add_of_ne_zero (hn : n ≠ 0) (h : f.ignore = none) :
    add f n l = .ok (f.appendLine n l true) := by
  have hignores : f.ignores n = false := by rw [SourceFile.ignores, h]
  rw [add, SourceFile.append, if_neg hn, hignores]
  rfl

/-- Adding a line of the session joins what the session says. -/
theorem reads_appendLine (h : f.Reads id known) (hl : l.MadeBy id s) :
    (f.appendLine n l true).Reads id
      (fun k => if k = n then join (known n) s else known k) := by
  refine ⟨h.ignore, fun k => ?_⟩
  rw [SourceFile.get?_appendLine]
  by_cases hk : k = n
  · have hown := h.line n
    simp only [if_pos hk]
    cases hr : known n with
    | none =>
      rw [hr] at hown
      rw [hown]
      exact ⟨l, rfl, hl⟩
    | some own =>
      rw [hr] at hown
      obtain ⟨ownLine, hget, hmade⟩ := hown
      rw [hget]
      exact ⟨_, rfl, hmade.merge hl⟩
  · simp only [if_neg hk]
    exact h.line k

/-! ## 3. The three passes -/

/-- A pass that adds a line for each element. -/
theorem foldlM_add {α : Type} (number : α → Nat) (line : α → Line) (session : α → LineSession)
    (items : List α) (hitems : ∀ a ∈ items, number a ≠ 0 ∧ (line a).MadeBy id (session a))
    (h : f.Reads id known) :
    ∃ g, items.foldlM (fun file a => add file (number a) (line a)) f = .ok g ∧ g.name = f.name ∧
      g.Reads id fun k =>
        (items.filter fun a => number a == k).foldl (fun own a => join own (session a)) (known k) := by
  induction items generalizing f known with
  | nil => exact ⟨f, rfl, rfl, h⟩
  | cons a rest ih =>
    obtain ⟨hn, hmade⟩ := hitems a List.mem_cons_self
    obtain ⟨g, hg, hname, hreads⟩ :=
      ih (fun b hb => hitems b (List.mem_cons_of_mem a hb)) (reads_appendLine h hmade)
    refine ⟨g, ?_, hname, ?_⟩
    · rw [List.foldlM_cons, add_of_ne_zero hn h.ignore]
      exact hg
    · have heq : (fun k => ((a :: rest).filter fun a => number a == k).foldl
            (fun own a => join own (session a)) (known k)) =
          fun k => (rest.filter fun a => number a == k).foldl (fun own a => join own (session a))
            (if k = number a then join (known (number a)) (session a) else known k) := by
        funext k
        by_cases hk : number a = k
        · rw [List.filter_cons_of_pos (by simp [hk]), List.foldl_cons, if_pos hk.symm, hk]
        · rw [List.filter_cons_of_neg (by simp [hk]), if_neg (Ne.symm hk)]
      rw [heq]
      exact hreads

/-- What a number of hits says of a line. -/
def plainSession (hits : Nat) : LineSession := { id := 0, reading := .ofCount hits }

/-- What the arms of a branch say of its line. -/
def branchSession (arms : List ArmHits) : LineSession :=
  { id := 0
    reading := .ratio (arms.countP fun a => 0 < a.hits) arms.length
    missing := some ((arms.filter fun a => a.hits = 0).map fun a => .index a.arm) }

theorem madeBy_plainLine (id hits : Nat) : (plainLine id hits).MadeBy id (plainSession hits) :=
  ⟨rfl, rfl, Reading.plain_ofCount hits⟩

theorem madeBy_branchLine (id : Nat) (arms : List ArmHits) :
    (branchLine id arms).MadeBy id (branchSession arms) :=
  ⟨rfl, rfl, .ratio _ _⟩

theorem madeBy_methodLine (id hits : Nat) : (methodLine id hits).MadeBy id (plainSession hits) :=
  ⟨rfl, rfl, Reading.plain_ofCount hits⟩

/-- What the hits of a line say of it, unless arms say more. -/
def plainReads (f : TracedFile) (n : Nat) : Option LineSession :=
  ((f.lines.filter fun l => !f.armsByLine.contains l.line).filter fun l => l.line == n).foldl
    (fun own l => join own (plainSession l.hits)) none

/-- What the functions that start in a line say of it: the first of them counts. -/
def methodReads (functions : List FunctionHits) (n : Nat) : Option LineSession :=
  if n = 0 then none
  else (functions.find? fun g => g.first == some n).map fun g => plainSession g.hits

/-- The session that a traced file makes of a line: from the arms of its branch, or else from its
hits, or else from a function that starts there. -/
def reads (f : TracedFile) (n : Nat) : Option LineSession :=
  if n = 0 then none
  else ((f.armsByLine.get? n).map branchSession).or
    ((plainReads f n).or (methodReads f.functions n))

/-- What holds of the sessions that arms and counts make holds of all that is said of a line. -/
theorem forall_reads {P : LineSession → Prop} {f : TracedFile}
    (hmerge : ∀ a b, P a → P b → P (a.merge b))
    (harms : ∀ n arms, f.armsByLine.get? n = some arms → P (branchSession arms))
    (hlines : ∀ l ∈ f.lines, P (plainSession l.hits))
    (hfunctions : ∀ g ∈ f.functions, P (plainSession g.hits)) (h : f.reads n = some s) : P s := by
  have hplain (l : List LineHits) (hl : ∀ hits ∈ l, P (plainSession hits.hits))
      {own : Option LineSession} (hown : ∀ t, own = some t → P t) :
      ∀ t, l.foldl (fun own hits => join own (plainSession hits.hits)) own = some t → P t := by
    induction l generalizing own with
    | nil => exact hown
    | cons hits rest ih =>
      refine ih (fun k hk => hl k (List.mem_cons_of_mem hits hk)) fun t ht => ?_
      have hhits := hl hits List.mem_cons_self
      cases own with
      | none =>
        obtain rfl := Option.some.inj ht
        exact hhits
      | some q =>
        obtain rfl := Option.some.inj ht
        exact hmerge q _ (hown q rfl) hhits
  rw [reads] at h
  split at h
  · cases h
  · rcases Option.or_eq_some_iff.1 h with hread | ⟨-, h⟩
    · obtain ⟨arms, hget, rfl⟩ := Option.map_eq_some_iff.1 hread
      exact harms n arms hget
    · rcases Option.or_eq_some_iff.1 h with hhits | ⟨-, hmethod⟩
      · refine hplain _ (fun l hl => hlines l ?_) (fun t ht => by cases ht) s hhits
        exact List.mem_of_mem_filter (List.mem_of_mem_filter hl)
      · rw [methodReads] at hmethod
        split at hmethod
        · cases hmethod
        · obtain ⟨g, hg, rfl⟩ := Option.map_eq_some_iff.1 hmethod
          exact hfunctions g (List.mem_of_find?_eq_some hg)

theorem methodReads_nil (n : Nat) : methodReads [] n = none := by
  rw [methodReads]
  split <;> rfl

theorem methodReads_skip {function : FunctionHits} {rest : List FunctionHits} {n : Nat}
    (h : n ≠ 0 → function.first ≠ some n) :
    methodReads (function :: rest) n = methodReads rest n := by
  rw [methodReads, methodReads]
  by_cases hn : n = 0
  · rw [if_pos hn, if_pos hn]
  · rw [if_neg hn, if_neg hn, List.find?_cons_of_neg (by simp [h hn])]

theorem methodReads_cons {function : FunctionHits} {rest : List FunctionHits} {first : Nat}
    (h : function.first = some (first + 1)) (n : Nat) :
    methodReads (function :: rest) n =
      if n = first + 1 then some (plainSession function.hits) else methodReads rest n := by
  by_cases hn : n = first + 1
  · rw [methodReads, if_neg (by omega), if_pos hn, List.find?_cons_of_pos (by simp [h, hn])]
    rfl
  · rw [if_neg hn]
    exact methodReads_skip fun _ heq => hn (Option.some.inj (heq.symm.trans h))

/-- A function whose line is known already adds nothing. -/
theorem or_methodReads_of_isSome {function : FunctionHits} {rest : List FunctionHits} {first : Nat}
    (h : function.first = some (first + 1)) {own : LineSession}
    (hknown : known (first + 1) = some own) (n : Nat) :
    (known n).or (methodReads (function :: rest) n) = (known n).or (methodReads rest n) := by
  rw [methodReads_cons h]
  split
  · rename_i hn
    rw [hn, hknown]
    rfl
  · rfl

/-- A function whose line is not known yet makes it known, for the functions after it as well. -/
theorem or_methodReads_of_isNone {function : FunctionHits} {rest : List FunctionHits} {first : Nat}
    (h : function.first = some (first + 1)) (hknown : known (first + 1) = none) (n : Nat) :
    (known n).or (methodReads (function :: rest) n) =
      (if n = first + 1 then join (known (first + 1)) (plainSession function.hits) else known n).or
        (methodReads rest n) := by
  rw [methodReads_cons h]
  by_cases hn : n = first + 1
  · rw [if_pos hn, if_pos hn, hn, hknown]
    rfl
  · rw [if_neg hn, if_neg hn]

/-- The pass over the functions leaves lines alone that are there already. -/
theorem foldlM_functions (functions : List FunctionHits) (h : f.Reads id known) :
    ∃ g, functions.foldlM (fun file function =>
        match function.first with
        | none | some 0 => return file
        | some first =>
          if (file.line? first).isSome then return file
          else add file first (methodLine id function.hits)) f = (.ok g : Result SourceFile) ∧
      g.name = f.name ∧ g.Reads id fun k => (known k).or (methodReads functions k) := by
  induction functions generalizing f known with
  | nil =>
    refine ⟨f, rfl, rfl, ?_⟩
    simp only [methodReads_nil, Option.or_none]
    exact h
  | cons function rest ih =>
    rw [List.foldlM_cons]
    -- a function that starts nowhere, or in line zero, is passed over
    match hfirst : function.first with
    | none =>
      have hskip (k : Nat) : methodReads (function :: rest) k = methodReads rest k :=
        methodReads_skip fun _ heq => by rw [hfirst] at heq; cases heq
      obtain ⟨g, hg, hname, hreads⟩ := ih h
      refine ⟨g, hg, hname, ?_⟩
      simp only [hskip]
      exact hreads
    | some 0 =>
      have hskip (k : Nat) : methodReads (function :: rest) k = methodReads rest k :=
        methodReads_skip fun hk heq => hk (Option.some.inj (hfirst.symm.trans heq)).symm
      obtain ⟨g, hg, hname, hreads⟩ := ih h
      refine ⟨g, hg, hname, ?_⟩
      simp only [hskip]
      exact hreads
    | some (first + 1) =>
      have hline := h.line (first + 1)
      cases hknown : known (first + 1) with
      | some own =>
        rw [hknown] at hline
        obtain ⟨l, hl, -⟩ := hline
        obtain ⟨g, hg, hname, hreads⟩ := ih h
        refine ⟨g, ?_, hname, ?_⟩
        · simp only [SourceFile.line?, hl, Option.isSome_some, if_true]
          exact hg
        · simp only [or_methodReads_of_isSome hfirst hknown]
          exact hreads
      | none =>
        rw [hknown] at hline
        have hadd : add f (first + 1) (methodLine id function.hits) = .ok _ :=
          add_of_ne_zero (Nat.succ_ne_zero first) h.ignore
        obtain ⟨g, hg, hname, hreads⟩ :=
          ih (reads_appendLine h (madeBy_methodLine id function.hits))
        refine ⟨g, ?_, hname, ?_⟩
        · simp only [SourceFile.line?, hline, Option.isSome_none, Bool.false_eq_true, if_false, hadd]
          exact hg
        · simp only [or_methodReads_of_isNone hfirst hknown]
          exact hreads

/-! ## 4. The whole source -/

theorem plainReads_zero {f : TracedFile} (hlines : ∀ l ∈ f.lines, l.line ≠ 0) :
    f.plainReads 0 = none := by
  have hnil : (f.lines.filter fun l => !f.armsByLine.contains l.line).filter
      (fun l => l.line == 0) = [] := by
    rw [List.filter_eq_nil_iff]
    intro l hl
    simpa using hlines l (List.mem_of_mem_filter hl)
  rw [plainReads, hnil]
  rfl

theorem plainReads_of_arms {f : TracedFile} {arms : List ArmHits}
    (h : f.armsByLine.get? n = some arms) : f.plainReads n = none := by
  have hnil : (f.lines.filter fun l => !f.armsByLine.contains l.line).filter
      (fun l => l.line == n) = [] := by
    rw [List.filter_eq_nil_iff]
    intro l hl heq
    have hout := (List.mem_filter.1 hl).2
    rw [beq_iff_eq.1 heq, Table.contains, h] at hout
    cases hout
  rw [plainReads, hnil]
  rfl

/-- What the three passes say of a line one after the other is what the traced file says of it. -/
theorem reads_of_passes {f : TracedFile} (hlines : ∀ l ∈ f.lines, l.line ≠ 0) (n : Nat) :
    (((f.armsByLine.entries.filter fun e => e.1 ≠ 0).filter fun e => e.1 == n).foldl
      (fun own e => join own (branchSession e.2)) (f.plainReads n)).or (methodReads f.functions n) =
        f.reads n := by
  rw [reads, List.filter_filter]
  by_cases hn : n = 0
  · have hnil : (f.armsByLine.entries.filter fun e => e.1 == n && decide (e.1 ≠ 0)) = [] := by
      rw [List.filter_eq_nil_iff]
      simp [hn]
    rw [if_pos hn, hnil, hn, List.foldl_nil, plainReads_zero hlines, methodReads, if_pos rfl]
    rfl
  · have hkey : (f.armsByLine.entries.filter fun e => e.1 == n && decide (e.1 ≠ 0)) =
        (f.armsByLine.get? n).toList.map fun v => (n, v) := by
      rw [← Table.filter_entries_key]
      apply List.filter_congr
      intro e _
      by_cases hen : e.1 = n
      · simp [hen, hn]
      · simp [hen]
    rw [if_neg hn, hkey]
    -- the first pass leaves the lines with arms to the second one
    cases harms : f.armsByLine.get? n with
    | none => rfl
    | some arms =>
      rw [plainReads_of_arms harms]
      rfl

/-- **A traced file makes lines under every id**, and each of them says what the file says of that
line. -/
theorem source_reads (f : TracedFile) (hlines : ∀ l ∈ f.lines, l.line ≠ 0) (id : Nat) :
    ∃ g, f.source id = .ok g ∧ g.name = f.reportPath ∧ g.Reads id f.reads := by
  have hstart : SourceFile.Reads id (fun _ => none) { name := f.reportPath } :=
    ⟨rfl, fun n => rfl⟩
  obtain ⟨g₁, hg₁, hname₁, hreads₁⟩ := foldlM_add LineHits.line
    (fun l => plainLine id l.hits) (fun l => plainSession l.hits)
    (f.lines.filter fun l => !f.armsByLine.contains l.line)
    (fun l hl => ⟨hlines l (List.mem_of_mem_filter hl), madeBy_plainLine id l.hits⟩) hstart
  obtain ⟨g₂, hg₂, hname₂, hreads₂⟩ := foldlM_add Prod.fst
    (fun e => branchLine id e.2) (fun e => branchSession e.2)
    (f.armsByLine.entries.filter fun e => e.1 ≠ 0)
    (fun e he => ⟨of_decide_eq_true (List.mem_filter.1 he).2, madeBy_branchLine id e.2⟩) hreads₁
  obtain ⟨g₃, hg₃, hname₃, hreads₃⟩ := foldlM_functions f.functions hreads₂
  refine ⟨g₃, ?_, by rw [hname₃, hname₂, hname₁], ?_⟩
  · rw [source]
    simp only [hg₁, hg₂, bind, Except.bind]
    exact hg₃
  · rw [← funext (reads_of_passes hlines)]
    exact hreads₃

end TracedFile

end CoverageLedger
