import CoverageLedger.Proofs.Report.Renumbered
import CoverageLedger.Proofs.Upload.Lines

/-!
# Ids of new sessions

The search for the id of a new session starts at the number of sessions and counts up past the ids
that are taken.  Ids may have gaps, after deletions and renumberings or because a caller chose them,
but there are no more of them than sessions, so that the search ends before twice the number where it
began.  No session is replaced by a new one or put together with another one, however sessions were
added, renumbered and deleted before (`addSession_takes_free_id`).
-/

namespace CoverageLedger.Report

variable {r : Report} {taken : Nat → Bool} {n m fuel a b c id id' : Nat} {s own : Session}

/-! ## 1. The search -/

/-- The search for a free number, given the number where it starts, how many it tries and which one
it finds.  A number is counted up only to one that its field of 32 bits can hold. -/
inductive Search (taken : Nat → Bool) : Nat → Nat → Nat → Prop
  | found {n : Nat} : taken n = false → Search taken n 1 n
  | next {n tries m : Nat} : taken n = true → n + 1 < Text.word32 →
      Search taken (n + 1) tries m → Search taken n (tries + 1) m

/-- A search ends at the first free number, when its field can hold that number. -/
theorem search_of_first (hle : n ≤ m) (hfree : taken m = false)
    (htaken : ∀ k, n ≤ k → k < m → taken k = true) (hword : m < Text.word32) :
    Search taken n (m - n + 1) m := by
  obtain ⟨d, rfl⟩ := Nat.exists_eq_add_of_le hle
  rw [Nat.add_sub_cancel_left]
  induction d generalizing n with
  | zero => exact .found hfree
  | succ d ih =>
    refine .next (htaken n (Nat.le_refl n) (by omega)) (by omega) ?_
    rw [← Nat.add_assoc, Nat.add_right_comm] at hfree htaken hword ⊢
    exact ih (by omega) hfree (fun k hk => htaken k (by omega)) hword

theorem le_freeFrom (taken : Nat → Bool) (n fuel : Nat) : n ≤ freeFrom taken n fuel := by
  induction fuel generalizing n with
  | zero => exact Nat.le_refl n
  | succ fuel ih =>
    rw [freeFrom]
    split
    · exact Nat.le_of_succ_le (ih (n + 1))
    · exact Nat.le_refl n

/-- The numbers that are passed over are taken. -/
theorem taken_of_lt_freeFrom {k : Nat} (hle : n ≤ k) (hlt : k < freeFrom taken n fuel) :
    taken k = true := by
  induction fuel generalizing n with
  | zero => exact absurd hlt (Nat.not_lt_of_le hle)
  | succ fuel ih =>
    rw [freeFrom] at hlt
    split at hlt
    · rename_i hn
      rcases Nat.eq_or_lt_of_le hle with rfl | hlater
      · exact hn
      · exact ih hlater hlt
    · exact absurd hlt (Nat.not_lt_of_le hle)

theorem size_le_nextSession (r : Report) : r.sessions.size ≤ r.nextSession :=
  le_freeFrom r.sessions.contains _ _

/-- Only as many ids can be passed over as there are sessions. -/
theorem nextSession_le (r : Report) : r.nextSession ≤ 2 * r.sessions.size := by
  have hsub : List.range' r.sessions.size (r.nextSession - r.sessions.size) ⊆ r.sessions.keys := by
    intro k hk
    obtain ⟨hle, hlt⟩ := List.mem_range'_1.1 hk
    rw [Nat.add_sub_cancel' r.size_le_nextSession] at hlt
    exact r.sessions.contains_iff.1 (taken_of_lt_freeFrom hle hlt)
  have hlength := ((List.nodup_range' _).subperm hsub).length_le
  rw [List.length_range', Table.keys, List.length_map, ← Table.size] at hlength
  omega

/-- The search for the id of a new session ends within one try for each session and one more. -/
theorem search_nextSession (hsize : r.sessions.size < 2 ^ 31) :
    ∃ tries ≤ r.sessions.size + 1,
      Search r.sessions.contains r.sessions.size tries r.nextSession := by
  have hle := r.nextSession_le
  have hword : r.nextSession < Text.word32 := by
    rw [Text.word32]
    omega
  exact ⟨r.nextSession - r.sessions.size + 1, by omega,
    search_of_first r.size_le_nextSession (Bool.eq_false_iff.2 r.not_knows_nextSession)
      (fun k => taken_of_lt_freeFrom) hword⟩

/-! ## 2. Calls that add, renumber and delete sessions -/

inductive SessionCall where
  | add (s : Session)
  | addWithId (id : Nat) (s : Session)
  | change (old new : Nat)
  | delete (ids : List Nat)

/-- The report after a call; a call that fails leaves it as it is. -/
def callSession (r : Report) : SessionCall → Report
  | .add s => (r.addSession s).2
  | .addWithId id s => (r.addSessionWithId id s).toOption.getD r
  | .change old new => (r.changeSession old new).toOption.getD r
  | .delete ids => r.deleteSessions ids

/-- The id of a session after a call, unless the call deletes it. -/
def movedId? (r : Report) (c : SessionCall) (id : Nat) : Option Nat :=
  match c with
  | .change old new => if id = old ∧ ¬ r.Knows new then some new else some id
  | .delete ids => if id ∈ ids then none else some id
  | _ => some id

/-- The report after some calls. -/
def callSessions (r : Report) (calls : List SessionCall) : Report := calls.foldl callSession r

/-- The id of a session after some calls, unless they delete it. -/
def followedId? (r : Report) : List SessionCall → Nat → Option Nat
  | [], id => some id
  | c :: calls, id => (r.movedId? c id).bind ((r.callSession c).followedId? calls)

theorem get?_addSession (r : Report) (s : Session) (id : Nat) :
    (r.addSession s).2.sessions.get? id =
      if id = (r.addSession s).1 then some s else r.sessions.get? id :=
  Table.get?_insert ..

/-- Another session is never put where one is. -/
theorem get?_insert_of_free (hfree : ¬ r.Knows id') (h : r.sessions.get? id = some own) :
    (r.sessions.insert id' s).get? id = some own := by
  have hne : id ≠ id' := by
    rintro rfl
    exact hfree (knows_iff.2 ⟨own, h⟩)
  rw [Table.get?_insert, if_neg hne, h]

/-- A session is renumbered when there is one and the new id is free. -/
theorem get?_callSession_change (old new id : Nat) :
    (r.callSession (.change old new)).sessions.get? id =
      if r.Knows old ∧ ¬ r.Knows new then
        if id = new then r.sessions.get? old else if id = old then none else r.sessions.get? id
      else r.sessions.get? id := by
  rw [callSession]
  cases hok : r.changeSession old new with
  | error e =>
    have hfails : ¬ (r.Knows old ∧ ¬ r.Knows new) := by
      rintro ⟨hold, hnew⟩
      rcases changeSession_eq_error_iff.1 ⟨e, hok⟩ with h | h
      · exact h hold
      · exact hnew h.2
    rw [if_neg hfails]
    rfl
  | ok r' =>
    obtain ⟨s, hs, ⟨rfl, rfl⟩ | ⟨hne, hfree, rfl⟩⟩ := changeSession_cases hok
    · rw [if_neg fun h => h.2 h.1]
      rfl
    · rw [if_pos ⟨knows_iff.2 ⟨s, hs⟩, hfree⟩, hs]
      show (r.names.foldl (changeSessionIn old new) (r.renumbered old new s)).sessions.get? id = _
      rw [sessions_foldl_changeSessionIn]
      show ((r.sessions.erase old).insert new s).get? id = _
      rw [Table.get?_insert, Table.get?_erase]

/-- **One call leaves each session as it is**, under the id that it moves to, unless it deletes it. -/
theorem get?_callSession (c : SessionCall) (h : r.sessions.get? id = some own)
    (hmoved : r.movedId? c id = some id') : (r.callSession c).sessions.get? id' = some own := by
  have hknown : r.Knows id := knows_iff.2 ⟨own, h⟩
  cases c with
  | add s =>
    obtain rfl := Option.some.inj hmoved
    exact get?_insert_of_free r.not_knows_nextSession h
  | addWithId k s =>
    obtain rfl := Option.some.inj hmoved
    rw [callSession, addSessionWithId]
    split
    · exact h
    · rename_i hfree
      exact get?_insert_of_free hfree h
  | change old new =>
    rw [get?_callSession_change]
    rw [movedId?] at hmoved
    split at hmoved
    · rename_i hmoves
      obtain ⟨rfl, hfree⟩ := hmoves
      obtain rfl := Option.some.inj hmoved
      rw [if_pos ⟨hknown, hfree⟩, if_pos rfl, h]
    · rename_i hstays
      obtain rfl := Option.some.inj hmoved
      split
      · rename_i hmoves
        have hold : id ≠ old := fun heq => hstays ⟨heq, hmoves.2⟩
        have hnew : id ≠ new := fun heq => hmoves.2 (heq ▸ hknown)
        rw [if_neg hnew, if_neg hold, h]
      · exact h
  | delete ids =>
    rw [movedId?, Option.ite_none_left_eq_some] at hmoved
    obtain ⟨hout, hsame⟩ := hmoved
    obtain rfl := Option.some.inj hsame
    rw [callSession, get?_sessions_deleteSessions, if_neg hout, h]

/-- One call puts no two sessions under one id. -/
theorem movedId?_inj (call : SessionCall) (ha : r.Knows a) (hb : r.Knows b)
    (hac : r.movedId? call a = some c) (hbc : r.movedId? call b = some c) : a = b := by
  cases call with
  | add s => exact (Option.some.inj hac).trans (Option.some.inj hbc).symm
  | addWithId k s => exact (Option.some.inj hac).trans (Option.some.inj hbc).symm
  | change old new =>
    rw [movedId?] at hac hbc
    split at hac <;> split at hbc
    · rename_i hmoves hmoves'
      exact hmoves.1.trans hmoves'.1.symm
    · -- the other session would have had the new id before
      rename_i hmoves _
      obtain rfl := (Option.some.inj hbc).trans (Option.some.inj hac).symm
      exact absurd hb hmoves.2
    · rename_i _ hmoves
      obtain rfl := (Option.some.inj hac).trans (Option.some.inj hbc).symm
      exact absurd ha hmoves.2
    · exact (Option.some.inj hac).trans (Option.some.inj hbc).symm
  | delete ids =>
    rw [movedId?, Option.ite_none_left_eq_some] at hac hbc
    exact (Option.some.inj hac.2).trans (Option.some.inj hbc.2).symm

/-! ## 3. Runs -/

/-- **Calls leave each session as it is**, under the id that it is followed to. -/
theorem get?_callSessions (calls : List SessionCall) (h : r.sessions.get? id = some own)
    (hid : r.followedId? calls id = some id') :
    (r.callSessions calls).sessions.get? id' = some own := by
  induction calls generalizing r id with
  | nil =>
    obtain rfl := Option.some.inj hid
    exact h
  | cons call calls ih =>
    obtain ⟨k, hmoved, hrest⟩ := Option.bind_eq_some_iff.1 hid
    exact ih (get?_callSession call h hmoved) hrest

/-- **Calls put no two sessions under one id.** -/
theorem followedId?_inj (calls : List SessionCall) (ha : r.Knows a) (hb : r.Knows b)
    (hac : r.followedId? calls a = some c) (hbc : r.followedId? calls b = some c) : a = b := by
  induction calls generalizing r a b with
  | nil => exact (Option.some.inj hac).trans (Option.some.inj hbc).symm
  | cons call calls ih =>
    obtain ⟨a', ha', hac'⟩ := Option.bind_eq_some_iff.1 hac
    obtain ⟨b', hb', hbc'⟩ := Option.bind_eq_some_iff.1 hbc
    have hknows {id id' : Nat} (hid : r.Knows id) (hmoved : r.movedId? call id = some id') :
        (r.callSession call).Knows id' := by
      obtain ⟨own, hown⟩ := knows_iff.1 hid
      exact knows_iff.2 ⟨own, get?_callSession call hown hmoved⟩
    obtain rfl := ih (hknows ha ha') (hknows hb hb') hac' hbc'
    exact movedId?_inj call ha hb ha' hb'

/-- **A new session takes an id that no session has.**  After any calls, the search for the id of a
new session ends within one try for each session and one more, at a free id from the number of
sessions to twice that number; the sessions that there are stay as they are, and so do all of those
from before the calls that were not deleted, each under an id of its own. -/
theorem addSession_takes_free_id (r : Report) (calls : List SessionCall) (s : Session)
    (hsize : (r.callSessions calls).sessions.size < 2 ^ 31) :
    ∃ now new later, r.callSessions calls = now ∧ now.addSession s = (new, later) ∧
      (∃ tries ≤ now.sessions.size + 1,
        Search now.sessions.contains now.sessions.size tries new) ∧
      ¬ now.Knows new ∧ now.sessions.size ≤ new ∧ new ≤ 2 * now.sessions.size ∧
      (∀ id, later.sessions.get? id = if id = new then some s else now.sessions.get? id) ∧
      (∀ id own id', r.sessions.get? id = some own → r.followedId? calls id = some id' →
        id' ≠ new ∧ later.sessions.get? id' = some own) ∧
      ∀ a b c, r.Knows a → r.Knows b → r.followedId? calls a = some c →
        r.followedId? calls b = some c → a = b := by
  have hfree := (r.callSessions calls).not_knows_nextSession
  refine ⟨_, _, _, rfl, rfl, search_nextSession hsize, hfree, size_le_nextSession _,
    nextSession_le _, get?_addSession _ s, fun id own id' hown hid => ?_,
    fun a b c ha hb => followedId?_inj calls ha hb⟩
  have hkept := get?_callSessions calls hown hid
  refine ⟨fun heq => hfree (knows_iff.2 ⟨own, heq ▸ hkept⟩), ?_⟩
  exact get?_insert_of_free hfree hkept

/-! A caller chose the id of the only session. -/

def chosenSession : Session := { name := some "seventh" }

def chosenReport : Report := { sessions := (∅ : Table Nat Session).insert 7 chosenSession }

/-- The session is put under an id that the search comes to later. -/
def crowdingCalls : List SessionCall := [.add {}, .change 7 2, .add {}, .delete [1]]

/-- Two sessions are left, under the first two ids that are tried. -/
theorem addSession_takes_free_id_crowded :
    (chosenReport.callSessions crowdingCalls).sessions.size < 2 ^ 31 ∧
    chosenReport.sessions.get? 7 = some chosenSession ∧
    chosenReport.followedId? crowdingCalls 7 = some 2 ∧
    ∃ now new later, chosenReport.callSessions crowdingCalls = now ∧
      now.addSession {} = (new, later) ∧ now.sessions.keys = [2, 3] ∧ new = 4 ∧
      ¬ now.Knows new ∧ later.sessions.get? 2 = some chosenSession := by
  have hsize : (chosenReport.callSessions crowdingCalls).sessions.size < 2 ^ 31 := by decide
  have hstart : chosenReport.sessions.get? 7 = some chosenSession := rfl
  have hfollowed : chosenReport.followedId? crowdingCalls 7 = some 2 := by decide
  obtain ⟨now, new, later, hnow, hadd, -, hfree, -, -, -, hkept, -⟩ :=
    addSession_takes_free_id chosenReport crowdingCalls {} hsize
  refine ⟨hsize, hstart, hfollowed, now, new, later, hnow, hadd, ?_, ?_, hfree,
    (hkept 7 chosenSession 2 hstart hfollowed).2⟩
  · rw [← hnow]
    rfl
  · rw [← hnow] at hadd
    exact (congrArg Prod.fst hadd).symm

end CoverageLedger.Report
