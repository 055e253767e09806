import EndOfInput.Proofs.Restore
import EndOfInput.Proofs.SessionSteps

/-!
# Going back to a saved record

The record saved for a scanner is at all times that of its state when it was last written, however the scanners were
used and abused since then (`Session.saved_after`).  So a scanner that reads the record saved for another takes over
the marker that the other had then, and if it also has the options that the other had then, it goes on like a clone
made at that time (`Session.restored_at_save`).

* (one step) `Session.saved_step`: a saved record changes by a successful write of its scanner, and by nothing else;
* (two runs) `Session.Twins.step`: equal scanners in two sessions with equal cursors do the same, and stay equal.
-/

namespace EndOfInput.Session

universe u v

open Machine

variable {γ : Type u} {μ : Type v} {n m : Nat}

/-! ### Histories -/

/-- Scanner `t` as it was when an entry saved its record, if it is an entry that did. -/
def Entry.saved? (t : Fin n) (e : Entry γ μ n m) : Option Scanner :=
  match e.step, e.reply.answer with
  | .save s _, .saved (.ok _) => if s = t then some (e.before.scanner t) else none
  | _, _ => none

/-- Scanner `t` as it was when its record was last saved. -/
def lastSaved? (t : Fin n) (past : List (Entry γ μ n m)) : Option Scanner :=
  past.findSomeRev? (Entry.saved? t)

/-! ### The saved records -/

section Run

variable [Cursor γ] [Machine γ μ γ]

theorem Entry.saved?_of_ne (x : Session γ n m) {step : Step μ n m} {t : Fin n} (ht : step.scanner? ≠ some t) :
    Entry.saved? t ⟨x, step, x.step step⟩ = none := by
  cases step with
  | save s buffer =>
    have hst : s ≠ t := fun hst => ht (congrArg some hst)
    cases hs : (x.scanner s).saveTo buffer with
    | ok filled => rw [step_save_of_ok hs]; exact if_neg hst
    | error error => rw [step_save_of_error hs]; rfl
  | _ => rfl

/-- A successful write replaces the saved record of its scanner, and no other step changes one. -/
theorem saved_step (x : Session γ n m) (step : Step μ n m) (t : Fin n) :
    (x.step step).session.saved t =
      ((Entry.saved? t ⟨x, step, x.step step⟩).map fun s => s.state.encode).getD (x.saved t) := by
  by_cases ht : step.scanner? = some t
  · cases step with
    | move c move => cases ht
    | save s buffer =>
      cases ht
      cases hs : (x.scanner t).saveTo buffer with
      | ok filled =>
        rw [step_save_of_ok hs, saved_setSaved, if_pos rfl, Scanner.record_of_saveTo hs]
        simp [Entry.saved?]
      | error error =>
        rw [step_save_of_error hs]
        rfl
    | scan s c valid => exact saved_setScanner x s t _
    | load s record | restore s other | reset s | setOptions s options | clone s other =>
      exact saved_setScanner x s t _
    | compare s other => rfl
  · rw [saved_step_of_ne x ht, Entry.saved?_of_ne x ht]
    rfl

/-- The record saved for a scanner is that of its state when it was last written. -/
theorem saved_after (x : Session γ n m) (steps : List (Step μ n m)) (t : Fin n) :
    (after x steps).saved t = ((lastSaved? t (trace x steps)).map fun s => s.state.encode).getD (x.saved t) := by
  induction steps generalizing x with
  | nil => rfl
  | cons step steps ih =>
    rw [after_cons, next_eq, ih, saved_step]
    unfold lastSaved?
    rw [trace_cons, next_eq, List.findSomeRev?]
    cases (trace (x.step step).session steps).findSomeRev? (Entry.saved? t) <;> rfl

/-! ### Restoring -/

/-- A scanner that reads the record of a state takes over the state. -/
theorem step_restore {x : Session γ n m} {other : Fin n} {state : State}
    (h : State.decode (x.saved other) = .ok state) (s : Fin n) :
    x.step (.restore s other : Step μ n m) =
      ⟨.loaded (.ok ()), x.setScanner s ⟨state, (x.scanner s).options⟩, [.reading (x.saved other)]⟩ := by
  show x.load s (x.saved other) = _
  rw [load, Scanner.load_of_ok h]

/-! ### The same continuation twice -/

/-- What is done with one scanner. -/
inductive Use (m : Nat) where
  | scan (c : Fin m) (valid : Acceptable)
  | save (buffer : List UInt8)

/-- A use as a step of scanner `s`. -/
def Use.by (s : Fin n) : Use m → Step μ n m
  | .scan c valid => .scan s c valid
  | .save buffer => .save s buffer

/-- What a step shows: its answer, with the record if one was written, all cursors after it, and the log. -/
structure Seen (γ : Type u) (m : Nat) where
  answer : Answer
  cursors : Vector γ m
  log : Log

def Reply.seen (reply : Reply γ n m) : Seen γ m :=
  ⟨reply.answer, reply.session.cursors, reply.log⟩

/-- Scanner `s` of one session and scanner `r` of another are equal, and so are the cursors. -/
structure Twins {k : Nat} (x : Session γ n m) (s : Fin n) (y : Session γ k m) (r : Fin k) : Prop where
  scanner : x.scanner s = y.scanner r
  cursors : x.cursors = y.cursors

namespace Twins

variable {k : Nat} {x : Session γ n m} {s : Fin n} {y : Session γ k m} {r : Fin k}

/-- Equal scanners show the same when they are used in the same way, and stay equal. -/
theorem step (h : Twins x s y r) (use : Use m) :
    (x.step (use.by s : Step μ n m)).seen = (y.step (use.by r : Step μ k m)).seen ∧
      Twins (x.step (use.by s : Step μ n m)).session s (y.step (use.by r : Step μ k m)).session r := by
  cases use with
  | scan c valid =>
    have hc : x.cursor c = y.cursor c := congrArg (·[c]) h.cursors
    have hscan : (x.scanner s).scan (x.cursor c) valid = (y.scanner r).scan (y.cursor c) valid := by rw [h.scanner, hc]
    rw [Use.by, Use.by, step_scan, step_scan, hscan]
    generalize (y.scanner r).scan (y.cursor c) valid = scanned
    have hcursors : x.cursors.set c scanned.cursor = y.cursors.set c scanned.cursor := by rw [h.cursors]
    refine ⟨congrArg (Seen.mk _ · _) hcursors, ?_, hcursors⟩
    rw [scanner_setCursor, scanner_setCursor, scanner_setScanner, scanner_setScanner, if_pos rfl, if_pos rfl]
  | save buffer =>
    rw [Use.by, Use.by]
    cases ho : (y.scanner r).saveTo buffer with
    | ok filled =>
      rw [step_save_of_ok ho, step_save_of_ok (by rw [h.scanner]; exact ho)]
      refine ⟨congrArg (Seen.mk _ · _) h.cursors, ?_, h.cursors⟩
      rw [scanner_setSaved, scanner_setSaved, h.scanner]
    | error error =>
      rw [step_save_of_error ho, step_save_of_error (by rw [h.scanner]; exact ho)]
      exact ⟨congrArg (Seen.mk _ · _) h.cursors, h⟩

end Twins

/-- The law of saved records.  After any steps of a session that starts with an empty record for scanner `other`,
scanner `s` reads the record saved for `other`.  The record is accepted, the options of `s` stay, and its marker
becomes the one that `other` had when its record was last saved, or clear if that never happened.  If `other` had the
options of `s` then, `s` goes on like any scanner `r` of any session that is equal to what `other` was then, with the
same cursors: every continuation by scans and writes gives the same answers and records, the same cursors and the same
log. -/
theorem restored_at_save (first : Session γ n m) {other : Fin n} (hempty : first.saved other = [])
    (steps : List (Step μ n m)) (s : Fin n) :
    let x := after first steps
    let last? := lastSaved? other (trace first steps)
    let reply := x.step (.restore s other : Step μ n m)
    reply.answer = .loaded (.ok ()) ∧
    (reply.session.scanner s).options = (x.scanner s).options ∧
    (reply.session.scanner s).marked = (last?.map Scanner.marked).getD false ∧
    ∀ (k : Nat) (y : Session γ k m) (r : Fin k), last? = some (y.scanner r) →
      (y.scanner r).options = (x.scanner s).options → y.cursors = x.cursors → ∀ uses : List (Use m),
        (run reply.session (uses.map (Use.by s : Use m → Step μ n m))).map Reply.seen =
          (run y (uses.map (Use.by r : Use m → Step μ k m))).map Reply.seen := by
  intro x last? reply
  have hsaved : x.saved other = (last?.map fun t => t.state.encode).getD [] := by
    rw [← hempty]
    exact saved_after first steps other
  have hdecode : State.decode (x.saved other) = .ok ((last?.map Scanner.state).getD {}) := by
    rw [hsaved]
    cases last? with
    | none => rfl
    | some t => exact State.decode_encode t.state
  have hreply : reply = _ := step_restore hdecode s
  have hscanner : reply.session.scanner s = ⟨(last?.map Scanner.state).getD {}, (x.scanner s).options⟩ := by
    rw [hreply, scanner_setScanner, if_pos rfl]
  refine ⟨?_, ?_, ?_, ?_⟩
  · rw [hreply]
  · rw [hscanner]
  · rw [hscanner]
    cases last? <;> rfl
  · intro k y r hlast hoptions hcursors uses
    have htwins : Twins reply.session s y r := by
      refine ⟨?_, ?_⟩
      · rw [hscanner, hlast, ← hoptions]
        rfl
      · rw [hreply, hcursors]
        rfl
    exact (simulation (R := fun x y => Twins x s y r) (fun use _ _ h => h.step use) htwins uses).1

end Run

/-- The record of scanner 0 is saved, and then the scanner finds the end and cannot find it again.  Scanner 1 that reads
the record finds it, like a clone of scanner 0 from before. -/
theorem found_again_after_restore :
    let slots : Vector Slot 2 := #v[{ scanner := .fresh }, { scanner := .fresh }]
    let first : Session ByteCursor 2 1 := ⟨slots, #v[.atEnd [0x61]]⟩
    let knock (s : Fin 2) : Step ByteCursor.Move 2 1 := .scan s 0 .all
    let steps : List (Step ByteCursor.Move 2 1) := [.save 0 [0], knock 0]
    let x := after first steps
    let y : Session ByteCursor 2 1 := ⟨slots, x.cursors⟩
    let restore : Step ByteCursor.Move 2 1 := .restore 1 0
    first.saved 0 = [] ∧
      (x.step (knock 0)).answer = .scanned none ∧
      lastSaved? 0 (trace first steps) = some (y.scanner 0) ∧
      (run (x.step restore).session [knock 1]).map Reply.seen = (run y [knock 0]).map Reply.seen ∧
      (run y [knock 0]).map Reply.answer = [.scanned (some .endOfInput)] := by
  intro slots first knock steps x y restore
  have hempty : first.saved 0 = [] := rfl
  have hlast : lastSaved? 0 (trace first steps) = some (y.scanner 0) := rfl
  obtain ⟨-, -, -, hcontinue⟩ := restored_at_save first hempty steps 1
  exact ⟨hempty, rfl, hlast, hcontinue 2 y 0 hlast rfl rfl [.scan 0 .all], rfl⟩

end EndOfInput.Session
