import CoverageLedger.Proofs.Shadow.Recorded
import Mathlib.Data.List.Induction
import Mathlib.Logic.Function.Basic

/-!
# Watched reports

`Watch` is a family of reports under keys, all of them watched by one analyzer, and `Watch.run`
carries out calls on them. `analyzer_only_watches` says of a whole run that the analyzer is never
noticed, until when totals known beforehand are served, and that no handle is older than the last
append that changed its report.
-/

namespace CoverageLedger

variable {κ σ η σ' η' : Type}

/-! ## 1. Calls on a family of reports -/

/-- Reports under keys, and the state of the analyzer that watches them. -/
structure Watch (κ σ η : Type) where
  shadow : κ → Shadow η
  state : σ

inductive WatchCall (κ : Type) where
  | on (key : κ) (call : ShadowCall)
  /-- The totals of the lines that a diff adds to a report, taken against another. -/
  | against (key base : κ) (d : Diff)

namespace WatchCall

/-- The report that is called. -/
def key : WatchCall κ → κ
  | on key _ => key
  | against key _ _ => key

/-- The report that a diff is taken against. -/
def base : WatchCall κ → κ
  | on key _ => key
  | against _ base _ => base

/-- What is asked of the report. -/
def asked : WatchCall κ → ShadowCall
  | on _ call => call
  | against _ _ d => .calculateDiff d

end WatchCall

/-- Which report gave which answer. -/
abbrev Answers (κ : Type) := List (κ × ShadowAnswer)

/-- Some append to a report returned true. -/
def Answers.Grew (answers : Answers κ) (k : κ) : Prop := (k, ShadowAnswer.appended true) ∈ answers

namespace Watch

variable [DecidableEq κ]

def put (s : Watch κ σ η) (k : κ) (x : Shadow η × σ) : Watch κ σ η :=
  { shadow := Function.update s.shadow k x.1, state := x.2 }

theorem shadow_put_self (s : Watch κ σ η) (k : κ) (x : Shadow η × σ) : (s.put k x).shadow k = x.1 :=
  Function.update_self ..

theorem shadow_put_of_ne (s : Watch κ σ η) {j k : κ} (h : j ≠ k) (x : Shadow η × σ) :
    (s.put k x).shadow j = s.shadow j := Function.update_of_ne h ..

/-- The shadows and the state of one analyzer as another has them. -/
def map (Φ : Shadow η → Shadow η') (ψ : σ → σ') (s : Watch κ σ η) : Watch κ σ' η' :=
  { shadow := fun k => Φ (s.shadow k), state := ψ s.state }

theorem map_put (Φ : Shadow η → Shadow η') (ψ : σ → σ') (s : Watch κ σ η) (k : κ)
    (x : Shadow η × σ) : (s.map Φ ψ).put k (Φ x.1, ψ x.2) = (s.put k x).map Φ ψ := by
  have h := Function.comp_update Φ s.shadow k x.1
  exact congrArg (fun shadow => (⟨shadow, ψ x.2⟩ : Watch κ σ' η')) h.symm

/-- The handles of the reports, where they have one, were parsed from something with a property. -/
def ParsedFrom (P : κ → Origin → Prop) (s : Watch κ σ (η × Origin)) : Prop :=
  ∀ j, (s.shadow j).ParsedFrom (P j)

variable [PatternLanguage]

def callOn (a : Analyzer σ η) (s : Watch κ σ η) (k : κ) (c : ShadowCall) :
    ShadowAnswer × Watch κ σ η :=
  let x := (s.shadow k).call a s.state c
  (x.1, s.put k x.2)

/-- A report that is its own base has one handle. -/
def call (a : Analyzer σ η) (s : Watch κ σ η) : WatchCall κ → ShadowAnswer × Watch κ σ η
  | .on k c => s.callOn a k c
  | .against k base d =>
    if base = k then s.callOn a k (.calculateDiff d)
    else
      let x := Shadow.calculateDiffAgainst a d (s.shadow k) (s.shadow base) s.state
      (.diffTotals x.1, (s.put base x.2.2).put k (x.2.1, x.2.2.2))

def run (a : Analyzer σ η) (s : Watch κ σ η) : List (WatchCall κ) → Answers κ × Watch κ σ η
  | [] => ([], s)
  | c :: rest =>
    let x := s.call a c
    let y := x.2.run a rest
    ((c.key, x.1) :: y.1, y.2)

section Equations

variable (a : Analyzer σ η) (s : Watch κ σ η)

theorem callOn_eq (k : κ) (c : ShadowCall) :
    s.callOn a k c = (((s.shadow k).call a s.state c).1,
      s.put k ((s.shadow k).call a s.state c).2) := rfl

theorem call_against_self (k : κ) (d : Diff) :
    s.call a (.against k k d) = s.callOn a k (.calculateDiff d) := if_pos rfl

theorem call_against {k base : κ} (h : base ≠ k) (d : Diff) :
    s.call a (.against k base d) =
      (.diffTotals (Shadow.calculateDiffAgainst a d (s.shadow k) (s.shadow base) s.state).1,
        (s.put base (Shadow.calculateDiffAgainst a d (s.shadow k) (s.shadow base) s.state).2.2).put
          k ((Shadow.calculateDiffAgainst a d (s.shadow k) (s.shadow base) s.state).2.1,
            (Shadow.calculateDiffAgainst a d (s.shadow k) (s.shadow base) s.state).2.2.2)) :=
  if_neg h

theorem run_cons (c : WatchCall κ) (rest : List (WatchCall κ)) :
    s.run a (c :: rest) = ((c.key, (s.call a c).1) :: ((s.call a c).2.run a rest).1,
      ((s.call a c).2.run a rest).2) := rfl

theorem run_append (earlier later : List (WatchCall κ)) :
    s.run a (earlier ++ later) = ((s.run a earlier).1 ++ ((s.run a earlier).2.run a later).1,
      ((s.run a earlier).2.run a later).2) := by
  induction earlier generalizing s with
  | nil => rfl
  | cons c rest ih =>
    rw [List.cons_append, run_cons, ih, run_cons]
    rfl

end Equations

/-! ## 2. Runs that follow each other -/

/-- One analyzer's shadows and states go on to be as those of another, whatever is called. -/
structure Follows (b : Analyzer σ' η') (a : Analyzer σ η) (Φ : Shadow η → Shadow η')
    (ψ : σ → σ') : Prop where
  call : ∀ s w c, Shadow.call b (Φ s) (ψ w) c =
    ((Shadow.call a s w c).1, Φ (Shadow.call a s w c).2.1, ψ (Shadow.call a s w c).2.2)
  against : ∀ s base w d, Shadow.calculateDiffAgainst b d (Φ s) (Φ base) (ψ w) =
    ((Shadow.calculateDiffAgainst a d s base w).1, Φ (Shadow.calculateDiffAgainst a d s base w).2.1,
      Φ (Shadow.calculateDiffAgainst a d s base w).2.2.1,
      ψ (Shadow.calculateDiffAgainst a d s base w).2.2.2)

namespace Follows

variable {b : Analyzer σ' η'} {a : Analyzer σ η} {Φ : Shadow η → Shadow η'} {ψ : σ → σ'}

theorem callOn (h : Follows b a Φ ψ) (s : Watch κ σ η) (k : κ) (c : ShadowCall) :
    (s.map Φ ψ).callOn b k c = ((s.callOn a k c).1, (s.callOn a k c).2.map Φ ψ) := by
  rw [callOn_eq, callOn_eq]
  show (((Φ (s.shadow k)).call b (ψ s.state) c).1,
    (s.map Φ ψ).put k ((Φ (s.shadow k)).call b (ψ s.state) c).2) = _
  rw [h.call, map_put]

theorem step (h : Follows b a Φ ψ) (s : Watch κ σ η) (c : WatchCall κ) :
    (s.map Φ ψ).call b c = ((s.call a c).1, (s.call a c).2.map Φ ψ) := by
  cases c with
  | on k c => exact h.callOn s k c
  | against k base d =>
    by_cases hbase : base = k
    · rw [hbase, call_against_self, call_against_self]
      exact h.callOn s k _
    · have hagainst := h.against (s.shadow k) (s.shadow base) s.state d
      rw [call_against _ _ hbase, call_against _ _ hbase,
        show Shadow.calculateDiffAgainst b d ((s.map Φ ψ).shadow k) ((s.map Φ ψ).shadow base)
          (s.map Φ ψ).state = _ from hagainst]
      rcases Shadow.calculateDiffAgainst a d (s.shadow k) (s.shadow base) s.state with ⟨t, x, y, w⟩
      rw [← map_put Φ ψ (s.put base (y, w)) k (x, w), ← map_put Φ ψ s base (y, w)]

theorem run (h : Follows b a Φ ψ) (s : Watch κ σ η) (calls : List (WatchCall κ)) :
    (s.map Φ ψ).run b calls = ((s.run a calls).1, (s.run a calls).2.map Φ ψ) := by
  induction calls generalizing s with
  | nil => rfl
  | cons c rest ih => rw [run_cons, run_cons, h.step, ih]

end Follows

/-- Reports without an analyzer follow watched ones. -/
theorem follows_unwatched (a : Analyzer σ η) (b : Analyzer σ' η) (v : σ') :
    Follows b a Shadow.unwatched (fun _ => v) where
  call _ _ c := Shadow.call_unwatched c
  against _ base _ _ := Shadow.calculateDiffAgainst_unwatched base

/-- An analyzer follows the one that also writes down what it is given. -/
theorem follows_recorded (a : Analyzer σ η) :
    Follows a a.recorded Shadow.unrecorded Prod.fst where
  call _ _ c := Shadow.call_unrecorded c
  against _ base _ _ := Shadow.calculateDiffAgainst_unrecorded base

/-! ## 3. Totals known beforehand -/

variable (a : Analyzer σ η) (s : Watch κ σ η)

/-- A call is answered by what is known, and else by what is computed from the report. -/
theorem call_answer (c : WatchCall κ) :
    (s.call a c).1 = ((s.shadow c.key).served? c.asked).getD
      (Shadow.computed (s.shadow c.key).report (s.shadow c.key).options c.asked) := by
  cases c with
  | on k c => exact Shadow.call_answer c
  | against k base d =>
    by_cases hbase : base = k
    · rw [hbase, call_against_self]
      exact Shadow.call_answer (.calculateDiff d)
    · -- the base has no part in the answer
      have hanswer := Shadow.call_answer (a := a) (s := s.shadow k) (w := s.state) (.calculateDiff d)
      rw [call_against a s hbase]
      refine Eq.trans ?_ hanswer
      rw [Shadow.call]
      cases h : (s.shadow k).knownDiff with
      | some t => rw [Shadow.calculateDiffAgainst_of_known h, Shadow.calculateDiff_of_known h]
      | none => rw [Shadow.calculateDiffAgainst_of_unknown h, Shadow.calculateDiff_of_unknown h]

/-- A call on a report is an append that changes it. -/
def Grows (c : WatchCall κ) (k : κ) : Prop := c.key = k ∧ (s.call a c).1 = .appended true

theorem knowsAs_callOn {k j : κ} {c : ShadowCall}
    (h : ¬(k = j ∧ (s.callOn a k c).1 = .appended true)) :
    ((s.callOn a k c).2.shadow j).KnowsAs (s.shadow j) := by
  rw [callOn_eq] at h ⊢
  by_cases hk : j = k
  · subst hk
    rw [shadow_put_self]
    exact Shadow.knowsAs_call c fun htrue => h ⟨rfl, htrue⟩
  · rw [shadow_put_of_ne s hk]
    exact .refl

theorem knowsAs_call {c : WatchCall κ} {j : κ} (h : ¬s.Grows a c j) :
    ((s.call a c).2.shadow j).KnowsAs (s.shadow j) := by
  cases c with
  | on k c => exact knowsAs_callOn a s h
  | against k base d =>
    by_cases hbase : base = k
    · subst hbase
      rw [call_against_self]
      exact knowsAs_callOn a s fun ⟨_, htrue⟩ => nomatch htrue
    obtain ⟨hhead, hother⟩ := Shadow.knowsAs_calculateDiffAgainst (a := a) (s := s.shadow k)
      (w := s.state) (d := d) (s.shadow base)
    rw [call_against a s hbase]
    by_cases hk : j = k
    · subst hk
      rw [shadow_put_self]
      exact hhead
    rw [shadow_put_of_ne _ hk]
    by_cases hj : j = base
    · subst hj
      rw [shadow_put_self]
      exact hother
    · rw [shadow_put_of_ne s hj]
      exact .refl

/-- Only an append is answered as one. -/
theorem grows_cases {c : WatchCall κ} {j : κ} (h : s.Grows a c j) :
    ∃ own, c = .on j own ∧ ((s.shadow j).call a s.state own).1 = .appended true := by
  obtain ⟨hkey, htrue⟩ := h
  cases c with
  | on k own =>
    obtain rfl : k = j := hkey
    exact ⟨own, rfl, htrue⟩
  | against k base d =>
    by_cases hbase : base = k
    · rw [hbase, call_against_self] at htrue
      cases htrue
    · rw [call_against a s hbase] at htrue
      cases htrue

theorem knowsAs_call_of_grows {c : WatchCall κ} {j : κ} (h : s.Grows a c j) :
    ((s.call a c).2.shadow j).KnowsAs (s.shadow j).forgotten ∧
      ((s.call a c).2.shadow j).handle = none := by
  obtain ⟨own, rfl, htrue⟩ := s.grows_cases a h
  have hshadow : (s.call a (.on j own)).2.shadow j = ((s.shadow j).call a s.state own).2.1 :=
    shadow_put_self ..
  rw [hshadow]
  exact Shadow.knowsAs_call_appended own htrue

/-- **What is known beforehand stays known until an append changes the report**, and is forgotten
then. -/
theorem knowsAs_run (calls : List (WatchCall κ)) (j : κ) :
    (¬(s.run a calls).1.Grew j → ((s.run a calls).2.shadow j).KnowsAs (s.shadow j)) ∧
      ((s.run a calls).1.Grew j →
        ((s.run a calls).2.shadow j).KnowsAs (s.shadow j).forgotten) := by
  induction calls generalizing s with
  | nil => exact ⟨fun _ => .refl, nofun⟩
  | cons c rest ih =>
    obtain ⟨hkept, hforgotten⟩ := ih (s.call a c).2
    have hgrew : (s.run a (c :: rest)).1.Grew j ↔
        s.Grows a c j ∨ ((s.call a c).2.run a rest).1.Grew j := by
      unfold Answers.Grew Grows
      rw [run_cons, List.mem_cons, Prod.mk.injEq, eq_comm (a := j), eq_comm (b := (s.call a c).1)]
    rw [hgrew]
    rw [run_cons]
    refine ⟨fun hnot => ?_, fun h => ?_⟩
    · obtain ⟨hstep, hrest⟩ := not_or.1 hnot
      exact (hkept hrest).trans (s.knowsAs_call a hstep)
    by_cases hstep : s.Grows a c j
    · have hfirst := (s.knowsAs_call_of_grows a hstep).1
      by_cases hrest : ((s.call a c).2.run a rest).1.Grew j
      · exact (hforgotten hrest).trans hfirst.forgotten
      · exact (hkept hrest).trans hfirst
    · have hrest := h.resolve_left hstep
      exact (hforgotten hrest).trans (s.knowsAs_call a hstep).forgotten

/-! ## 4. What the analyzer is given -/

section Handles

variable {a : Analyzer σ η} {s : Watch κ (σ × List Asked) (η × Origin)}
  {P : κ → Origin → Prop}

theorem callOn_told {k : κ} {c : ShadowCall}
    (hparsed : ∀ j, ¬(k = j ∧ (s.callOn a.recorded k c).1 = .appended true) →
      (s.shadow j).ParsedFrom (P j))
    (hnow : P k ((s.callOn a.recorded k c).2.shadow k).report.origin) :
    (s.callOn a.recorded k c).2.ParsedFrom P ∧
      Told (P k) (P k) s.state.2 (s.callOn a.recorded k c).2.state.2 := by
  rw [callOn_eq] at hparsed hnow ⊢
  rw [shadow_put_self] at hnow
  obtain ⟨hself, htold⟩ := Shadow.call_told c (fun h => hparsed k fun htrue => h htrue.2) hnow
  refine ⟨fun j => ?_, htold⟩
  by_cases hk : j = k
  · subst hk
    rw [shadow_put_self]
    exact hself
  · rw [shadow_put_of_ne s hk]
    exact hparsed j fun h => hk h.1.symm

/-- **One call gives the analyzer handles of the reports as they are, or as they were when they were
parsed.** -/
theorem call_told {c : WatchCall κ}
    (hparsed : ∀ j, ¬s.Grows a.recorded c j → (s.shadow j).ParsedFrom (P j))
    (hnow : ∀ j, P j ((s.call a.recorded c).2.shadow j).report.origin) :
    (s.call a.recorded c).2.ParsedFrom P ∧
      Told (P c.key) (P c.base) s.state.2 (s.call a.recorded c).2.state.2 := by
  cases c with
  | on k c => exact callOn_told hparsed (hnow k)
  | against k base d =>
    by_cases hbase : base = k
    · subst hbase
      rw [call_against_self] at hnow ⊢
      exact callOn_told (fun j _ => hparsed j fun h => by
        rw [Grows, call_against_self] at h
        exact nomatch h.2) (hnow base)
    have hparsed (j : κ) : (s.shadow j).ParsedFrom (P j) := by
      refine hparsed j fun h => ?_
      rw [Grows, call_against _ s hbase] at h
      exact nomatch h.2
    have hhead := hnow k
    have hother := hnow base
    rw [call_against _ s hbase] at hhead hother ⊢
    rw [shadow_put_self] at hhead
    rw [shadow_put_of_ne _ hbase, shadow_put_self] at hother
    obtain ⟨hk, hb, htold⟩ := Shadow.calculateDiffAgainst_told (w := s.state) (hparsed k) hhead
      (hparsed base) hother
    refine ⟨fun j => ?_, htold⟩
    by_cases hjk : j = k
    · subst hjk
      rw [shadow_put_self]
      exact hk
    rw [shadow_put_of_ne _ hjk]
    by_cases hjb : j = base
    · subst hjb
      rw [shadow_put_self]
      exact hb
    · rw [shadow_put_of_ne s hjb]
      exact hparsed j

end Handles

/-- What a report was parsed from after some of the calls, and no append changed it after these. -/
def ParsedSince (a : Analyzer σ η) (s : Watch κ σ η) (calls : List (WatchCall κ)) (k : κ)
    (o : Origin) : Prop :=
  ∃ earlier later, calls = earlier ++ later ∧
    o = ((s.run a earlier).2.shadow k).report.origin ∧
    ¬((s.run a earlier).2.run a later).1.Grew k

theorem parsedSince_now (calls : List (WatchCall κ)) (k : κ) :
    s.ParsedSince a calls k ((s.run a calls).2.shadow k).report.origin :=
  ⟨calls, [], (List.append_nil calls).symm, rfl, nofun⟩

theorem ParsedSince.call {calls : List (WatchCall κ)} {k : κ} {o : Origin}
    (h : s.ParsedSince a calls k o) {c : WatchCall κ} (hc : ¬(s.run a calls).2.Grows a c k) :
    s.ParsedSince a (calls ++ [c]) k o := by
  obtain ⟨earlier, later, rfl, ho, hnot⟩ := h
  refine ⟨earlier, later ++ [c], List.append_assoc .., ho, fun hgrew => ?_⟩
  rw [run_append, Answers.Grew, List.mem_append] at hgrew
  rcases hgrew with hgrew | hgrew
  · exact hnot hgrew
  · apply hc
    rw [run_append]
    obtain ⟨hkey, hanswer⟩ := Prod.mk.inj (List.mem_singleton.1 hgrew)
    exact ⟨hkey.symm, hanswer.symm⟩

section Handles

variable {a : Analyzer σ η} {s : Watch κ (σ × List Asked) (η × Origin)}

theorem told_call {calls : List (WatchCall κ)}
    (h : (s.run a.recorded calls).2.ParsedFrom (s.ParsedSince a.recorded calls))
    (c : WatchCall κ) :
    (s.run a.recorded (calls ++ [c])).2.ParsedFrom (s.ParsedSince a.recorded (calls ++ [c])) ∧
      Told (s.ParsedSince a.recorded (calls ++ [c]) c.key)
        (s.ParsedSince a.recorded (calls ++ [c]) c.base)
        (s.run a.recorded calls).2.state.2 (s.run a.recorded (calls ++ [c])).2.state.2 := by
  have hnow (j : κ) := parsedSince_now a.recorded s (calls ++ [c]) j
  rw [run_append] at hnow ⊢
  exact call_told (fun j hj handle hhandle => (h j handle hhandle).call a.recorded s hj) hnow

/-- Whatever is called, no handle is older than the last append that changed its report. -/
theorem parsedFrom_run (hnew : ∀ k, (s.shadow k).handle = none) (calls : List (WatchCall κ)) :
    (s.run a.recorded calls).2.ParsedFrom (s.ParsedSince a.recorded calls) := by
  induction calls using List.reverseRecOn with
  | nil =>
    intro k handle hhandle
    cases (hnew k).symm.trans hhandle
  | append_singleton calls c ih => exact (told_call ih c).1

end Handles

end Watch

/-! ## 5. Whole runs -/

/-- The same report and known totals, before an analyzer was asked about it. -/
def Shadow.anew (s : Shadow η) : Shadow η' :=
  { s with handle := none, mismatches := 0 }

/-- Reports under keys before the analyzer was asked about any of them. -/
def Watch.ofReports (reports : κ → Shadow η) (w : σ) : Watch κ σ η' :=
  { shadow := fun k => (reports k).anew, state := w }

/-- **An analyzer only watches.**  Whatever it answers and wherever it fails, calls on a family of
reports are answered as without an analyzer and leave the same reports.  Totals known beforehand are
served until an append to the report returns true, and are forgotten then.  Every handle that the
analyzer is given was parsed from a report as it was after the last append to it that returned true:
that of the report that is asked about, and that of the base of a diff. -/
theorem analyzer_only_watches [DecidableEq κ] [PatternLanguage] (a : Analyzer σ η)
    (reports : κ → Shadow η) (w : σ) (calls : List (WatchCall κ)) :
    let watched := Watch.run a { shadow := reports, state := w } calls
    (∀ (b : Analyzer σ' η) (v : σ'),
      let alone := Watch.run b { shadow := fun k => (reports k).unwatched, state := v } calls
      watched.1 = alone.1 ∧ (∀ k, (watched.2.shadow k).report = (alone.2.shadow k).report) ∧
        alone.2.state = v) ∧
    (∀ c : WatchCall κ,
      let answer := (watched.2.call a c).1
      let computed := Shadow.computed (watched.2.shadow c.key).report (reports c.key).options c.asked
      (¬watched.1.Grew c.key → answer = ((reports c.key).served? c.asked).getD computed) ∧
        (watched.1.Grew c.key → answer = computed)) ∧
    (let start : Watch κ (σ × List Asked) (η × Origin) := .ofReports reports (w, [])
      let recorded := start.run a.recorded calls
      Watch.run a (.ofReports reports w) calls =
          (recorded.1, recorded.2.map Shadow.unrecorded Prod.fst) ∧
        ∀ c : WatchCall κ, Told (start.ParsedSince a.recorded (calls ++ [c]) c.key)
          (start.ParsedSince a.recorded (calls ++ [c]) c.base)
          recorded.2.state.2 (start.run a.recorded (calls ++ [c])).2.state.2) := by
  intro watched
  refine ⟨fun b v => ?_, fun c => ?_, ?_⟩
  · have hrun := (Watch.follows_unwatched a b v).run { shadow := reports, state := w } calls
    refine ⟨(congrArg Prod.fst hrun).symm, fun k => ?_, congrArg (fun r => r.2.state) hrun⟩
    exact congrArg (fun r => (r.2.shadow k).report) hrun.symm
  · obtain ⟨hkept, hforgotten⟩ := Watch.knowsAs_run a { shadow := reports, state := w } calls c.key
    have hanswer := watched.2.call_answer a c
    refine ⟨fun hnot => ?_, fun hgrew => ?_⟩
    · rw [(hkept hnot).served?, (hkept hnot).1] at hanswer
      exact hanswer
    · rw [(hforgotten hgrew).served?, (hforgotten hgrew).1, Shadow.served?_forgotten] at hanswer
      exact hanswer
  · intro start recorded
    refine ⟨(Watch.follows_recorded a).run start calls, fun c => ?_⟩
    exact (Watch.told_call (Watch.parsedFrom_run (fun _ => rfl) calls) c).2

end CoverageLedger
