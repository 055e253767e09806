import EndOfInput.Proofs.SessionSteps

/-!
# Scanners do not interfere

A scanner that reads no other scanner does not notice what the others do, also if they scan at the same cursors
(`Session.map_view_filter_trace`).  A scan asks of a cursor only whether it is at the end, and leaves nothing on it
but a token, so the places of the cursors carry all that the scanner can notice.

* `Session.Alike`: two sessions that the scanner cannot tell apart;
* (others' steps) `Session.alike_of_omissible`: a step that may be left out leads to a session like the one before;
* (all other steps) `Session.Alike.step`: in sessions that are alike a step shows the same, and they stay alike.
-/

namespace EndOfInput

/-! ### What a cursor shows -/

/-- What a cursor shows apart from the token at it. -/
structure Outlook where
  position : Nat
  isEnd : Bool
  lookahead? : Option Char
  column : UInt32
  deriving DecidableEq

namespace ByteCursor

def outlook (c : ByteCursor) : Outlook :=
  ⟨c.position, c.isEnd, c.lookahead?, c.column⟩

variable {c d : ByteCursor}

theorem SamePlace.isEnd_eq (h : c.SamePlace d) : c.isEnd = d.isEnd := by
  rw [isEnd, isEnd, h.1, h.2]

theorem SamePlace.outlook_eq (h : c.SamePlace d) : c.outlook = d.outlook := by
  have hlookahead : c.lookahead? = d.lookahead? := by rw [lookahead?, lookahead?, rest, rest, h.1, h.2]
  have hcolumn : c.column = d.column := by rw [column, column, before, before, h.1, h.2]
  rw [outlook, outlook, h.2, h.isEnd_eq, hlookahead, hcolumn]

theorem SamePlace.move (h : c.SamePlace d) (change : Move) : (c.move change).SamePlace (d.move change) := by
  cases change with
  | advance skip => exact h.advance skip skip
  | markEnd => exact h
  | setResult kind => exact h
  | beginToken => exact h

end ByteCursor

namespace Session

open Machine

variable {n m : Nat}

/-! ### What one scanner notices -/

/-- A step that reads no scanner but `s`. -/
def Step.ReadsOnly (s : Fin n) : Step ByteCursor.Move n m → Prop
  | .restore _ other | .clone _ other | .compare _ other => other = s
  | _ => True

/-- A step that may be left out as far as scanner `s` is concerned: the steps of the other scanners, and where tokens
begin. -/
def Step.Omissible (s : Fin n) : Step ByteCursor.Move n m → Prop
  | .move _ change => change = .beginToken
  | step => step.scanner? ≠ some s

/-- Scanner `s`, and what the cursors show. -/
structure Scene (m : Nat) where
  scanner : Scanner
  outlook : Fin m → Outlook

def scene (x : Session ByteCursor n m) (s : Fin n) : Scene m :=
  ⟨x.scanner s, fun c => (x.cursor c).outlook⟩

/-- What there is to a step for scanner `s`: the answer and the log if it is a step of the scanner, and the scene before
and after it. -/
structure View (m : Nat) where
  own? : Option (Answer × Log)
  before : Scene m
  after : Scene m

def Entry.view (s : Fin n) (e : Entry ByteCursor ByteCursor.Move n m) : View m where
  own? := if e.step.scanner? = some s then some (e.reply.answer, e.reply.log) else none
  before := e.before.scene s
  after := e.reply.session.scene s

/-! ### Sessions that a scanner cannot tell apart -/

/-- Scanner `s` and its saved record are the same in both sessions, and the cursors are at the same places. -/
structure Alike (s : Fin n) (x y : Session ByteCursor n m) : Prop where
  scanner : x.scanner s = y.scanner s
  saved : x.saved s = y.saved s
  place : ∀ c, (x.cursor c).SamePlace (y.cursor c)

namespace Alike

variable {s : Fin n} {x y z : Session ByteCursor n m}

theorem refl (s : Fin n) (x : Session ByteCursor n m) : Alike s x x :=
  ⟨rfl, rfl, fun _ => .refl _⟩

theorem symm (h : Alike s x y) : Alike s y x :=
  ⟨h.scanner.symm, h.saved.symm, fun c => (h.place c).symm⟩

theorem trans (h : Alike s x y) (h' : Alike s y z) : Alike s x z :=
  ⟨h.scanner.trans h'.scanner, h.saved.trans h'.saved, fun c => (h.place c).trans (h'.place c)⟩

end Alike

/-- A step of another scanner leads to a session like the one before. -/
theorem alike_of_ne (x : Session ByteCursor n m) {s t : Fin n} {step : Step ByteCursor.Move n m}
    (ht : step.scanner? = some t) (hne : t ≠ s) :
    Alike s (x.step step).session x := by
  have hs : step.scanner? ≠ some s := by
    rw [ht]
    exact fun h => hne (Option.some.inj h)
  exact ⟨scanner_step_of_ne x hs, saved_step_of_ne x hs, samePlace_step x ht⟩

theorem alike_move (x : Session ByteCursor n m) (s : Fin n) {c : Fin m} {change : ByteCursor.Move}
    (h : ((x.cursor c).move change).SamePlace (x.cursor c)) : Alike s (x.step (.move c change)).session x := by
  refine ⟨rfl, rfl, fun d => ?_⟩
  show ((x.setCursor c _).cursor d).SamePlace _
  rw [cursor_setCursor]
  split
  · rename_i hd
    subst hd
    exact h
  · exact .refl _

theorem alike_of_omissible (x : Session ByteCursor n m) {s : Fin n} {step : Step ByteCursor.Move n m}
    (h : step.Omissible s) :
    Alike s (x.step step).session x := by
  cases hs : step.scanner? with
  | none =>
    cases step with
    | move c change =>
      cases show change = .beginToken from h
      exact alike_move x s ⟨rfl, rfl⟩
    | _ => cases hs
  | some t =>
    refine alike_of_ne x hs ?_
    rintro rfl
    cases step with
    | move c change => cases hs
    | _ => exact h hs

/-- The answers and the logs are the same, and the sessions are alike. -/
structure AlikeReply (s : Fin n) (p q : Reply ByteCursor n m) : Prop where
  answer : p.answer = q.answer
  log : p.log = q.log
  session : Alike s p.session q.session

namespace Alike

variable {s : Fin n} {x y : Session ByteCursor n m}

theorem scene_eq (h : Alike s x y) : x.scene s = y.scene s := by
  have houtlook : (fun c => (x.cursor c).outlook) = fun c => (y.cursor c).outlook :=
    funext fun c => (h.place c).outlook_eq
  rw [scene, scene, h.scanner, houtlook]

theorem setScanner (h : Alike s x y) (scanner : Scanner) :
    Alike s (x.setScanner s scanner) (y.setScanner s scanner) := by
  refine ⟨?_, ?_, h.place⟩
  · rw [scanner_setScanner, scanner_setScanner, if_pos rfl, if_pos rfl]
  · rw [saved_setScanner, saved_setScanner, h.saved]

theorem changeScanner (h : Alike s x y) (change : Scanner → Scanner) :
    Alike s (x.setScanner s (change (x.scanner s))) (y.setScanner s (change (y.scanner s))) := by
  rw [h.scanner]
  exact h.setScanner _

theorem setSaved (h : Alike s x y) (record : List UInt8) : Alike s (x.setSaved s record) (y.setSaved s record) := by
  refine ⟨?_, ?_, h.place⟩
  · rw [scanner_setSaved, scanner_setSaved, h.scanner]
  · rw [saved_setSaved, saved_setSaved, if_pos rfl, if_pos rfl]

theorem setCursor (h : Alike s x y) {c : Fin m} {cursor cursor' : ByteCursor} (hc : cursor.SamePlace cursor') :
    Alike s (x.setCursor c cursor) (y.setCursor c cursor') := by
  refine ⟨h.scanner, h.saved, fun d => ?_⟩
  rw [cursor_setCursor, cursor_setCursor]
  split
  · exact hc
  · exact h.place d

theorem load (h : Alike s x y) (record : List UInt8) : AlikeReply s (x.load s record) (y.load s record) := by
  rw [Session.load, Session.load, h.scanner]
  exact ⟨rfl, rfl, h.setScanner _⟩

theorem scan (h : Alike s x y) (c : Fin m) (valid : Acceptable) :
    AlikeReply s (x.step (.scan s c valid : Step ByteCursor.Move n m))
      (y.step (.scan s c valid : Step ByteCursor.Move n m)) := by
  have hend : Cursor.isEnd (x.cursor c) = Cursor.isEnd (y.cursor c) := (h.place c).isEnd_eq
  obtain ⟨hresult, hscanner, hlog⟩ := Scanner.scan_congr hend (y.scanner s) valid
  have hplace : ((y.scanner s).scan (x.cursor c) valid).cursor.SamePlace
      ((y.scanner s).scan (y.cursor c) valid).cursor :=
    ((ByteCursor.samePlace_scan _ _ valid).trans (h.place c)).trans (ByteCursor.samePlace_scan _ _ valid).symm
  rw [step_scan, step_scan, h.scanner, hscanner]
  exact ⟨congrArg Answer.scanned hresult, hlog, (h.setScanner _).setCursor hplace⟩

theorem save (h : Alike s x y) (buffer : List UInt8) :
    AlikeReply s (x.step (.save s buffer : Step ByteCursor.Move n m))
      (y.step (.save s buffer : Step ByteCursor.Move n m)) := by
  cases ho : (y.scanner s).saveTo buffer with
  | ok filled =>
    rw [step_save_of_ok ho, step_save_of_ok (by rw [h.scanner]; exact ho)]
    exact ⟨rfl, rfl, h.setSaved _⟩
  | error error =>
    rw [step_save_of_error ho, step_save_of_error (by rw [h.scanner]; exact ho)]
    exact ⟨rfl, rfl, h⟩

/-- A step of scanner `s` that reads no other. -/
theorem own_step (h : Alike s x y) {step : Step ByteCursor.Move n m} (hs : step.scanner? = some s)
    (hr : step.ReadsOnly s) :
    AlikeReply s (x.step step) (y.step step) := by
  cases step with
  | move c change => cases hs
  | scan t c valid => cases hs; exact h.scan c valid
  | save t buffer => cases hs; exact h.save buffer
  | load t record => cases hs; exact h.load record
  | restore t other =>
    cases hs
    cases hr
    show AlikeReply s (x.load s (x.saved s)) (y.load s (y.saved s))
    rw [h.saved]
    exact h.load (y.saved s)
  | reset t => cases hs; exact ⟨rfl, rfl, h.changeScanner Scanner.reset⟩
  | setOptions t options => cases hs; exact ⟨rfl, rfl, h.changeScanner (·.setOptions options)⟩
  | clone t other =>
    cases hs
    cases hr
    exact ⟨rfl, rfl, h.changeScanner id⟩
  | compare t other =>
    cases hs
    cases hr
    refine ⟨?_, rfl, h⟩
    show Answer.compared (x.scanner s = x.scanner s) = .compared (y.scanner s = y.scanner s)
    rw [h.scanner]

theorem move (h : Alike s x y) (c : Fin m) (change : ByteCursor.Move) :
    Alike s (x.step (.move c change)).session (y.step (.move c change)).session :=
  h.setCursor ((h.place c).move change)

/-- A step in two sessions that are alike is the same to scanner `s`, and they stay alike. -/
theorem step (h : Alike s x y) {step : Step ByteCursor.Move n m} (hr : step.scanner? = some s → step.ReadsOnly s) :
    Entry.view s ⟨x, step, x.step step⟩ = Entry.view s ⟨y, step, y.step step⟩ ∧
      Alike s (x.step step).session (y.step step).session := by
  by_cases hs : step.scanner? = some s
  · obtain ⟨hanswer, hlog, hafter⟩ := h.own_step hs (hr hs)
    refine ⟨?_, hafter⟩
    simp only [Entry.view, if_pos hs, hanswer, hlog, h.scene_eq, hafter.scene_eq]
  · have hafter : Alike s (x.step step).session (y.step step).session := by
      cases ht : step.scanner? with
      | none =>
        cases step with
        | move c change => exact h.move c change
        | _ => cases ht
      | some t =>
        have hne : t ≠ s := fun hts => hs (by rw [ht, hts])
        exact ((alike_of_ne x ht hne).trans h).trans (alike_of_ne y ht hne).symm
    refine ⟨?_, hafter⟩
    simp only [Entry.view, if_neg hs, h.scene_eq, hafter.scene_eq]

/-- Of two sessions that are alike, one takes all steps and the other those that are kept. -/
theorem map_view_eq {steps : List (Step ByteCursor.Move n m)} {keep : Step ByteCursor.Move n m → Bool}
    (hreads : ∀ step ∈ steps, step.scanner? = some s → step.ReadsOnly s)
    (hkeep : ∀ step ∈ steps, keep step = false → step.Omissible s) (h : Alike s x y) :
    ((trace x steps).filter fun e => keep e.step).map (Entry.view s) =
      (trace y (steps.filter keep)).map (Entry.view s) := by
  induction steps generalizing x y with
  | nil => rfl
  | cons step steps ih =>
    obtain ⟨hread, hreads⟩ := List.forall_mem_cons.mp hreads
    obtain ⟨homit, hkeep⟩ := List.forall_mem_cons.mp hkeep
    cases hk : keep step with
    | true =>
      obtain ⟨hview, hafter⟩ := h.step hread
      have hrest := ih hreads hkeep hafter
      rw [List.filter_cons_of_pos hk, trace_cons, trace_cons, List.filter_cons_of_pos (by exact hk), List.map_cons,
        List.map_cons, reply_eq, reply_eq, hview, next_eq, next_eq, hrest]
    | false =>
      rw [trace_cons, List.filter_cons_of_neg (by simp [hk]), List.filter_cons_of_neg (by simp [hk])]
      exact ih hreads hkeep ((alike_of_omissible x (homit hk)).trans h)

end Alike

/-- Noninterference.  Whatever steps of the other scanners are left out of a run, a scanner that reads no other sees the
same at every step that is kept: its own answers and log, its state, and of every cursor the position, whether it is at
the end, the lookahead and the column.  What is left out can have changed the token at a cursor only, which is why also
the start of a token may be left out. -/
theorem map_view_filter_trace (x : Session ByteCursor n m) {s : Fin n} {steps : List (Step ByteCursor.Move n m)}
    {keep : Step ByteCursor.Move n m → Bool}
    (hreads : ∀ step ∈ steps, step.scanner? = some s → step.ReadsOnly s)
    (hkeep : ∀ step ∈ steps, keep step = false → step.Omissible s) :
    ((trace x steps).filter fun e => keep e.step).map (Entry.view s) =
      (trace x (steps.filter keep)).map (Entry.view s) :=
  Alike.map_view_eq hreads hkeep (.refl s x)

/-- Two scanners at one end: the first finds it, whatever the second did there before, and again after a reset. -/
theorem found_beside_other :
    let x : Session ByteCursor 2 1 := ⟨#v[{ scanner := .fresh }, { scanner := .fresh }], #v[.atEnd [0x61]]⟩
    let steps : List (Step ByteCursor.Move 2 1) :=
      [.scan 1 0 .all, .scan 0 0 .all, .clone 1 0, .load 1 [0xFF], .reset 0, .scan 1 0 .all, .scan 0 0 .all]
    let own : List (Step ByteCursor.Move 2 1) := [.scan 0 0 .all, .reset 0, .scan 0 0 .all]
    (∀ step ∈ steps, step.scanner? = some 0 → step.ReadsOnly 0) ∧
      (∀ step ∈ steps, (step.scanner? == some 0) = false → step.Omissible 0) ∧
      ((trace x steps).filter fun e => e.step.scanner? == some 0).map (·.reply.answer) =
        [.scanned (some .endOfInput), .done, .scanned (some .endOfInput)] ∧
      ((trace x steps).filter fun e => e.step.scanner? == some 0).map (Entry.view 0) =
        (trace x own).map (Entry.view 0) := by
  intro x steps own
  have hreads : ∀ step ∈ steps, step.scanner? = some 0 → step.ReadsOnly 0 := by
    simp [steps, Step.scanner?, Step.ReadsOnly]
  have hkeep : ∀ step ∈ steps, (step.scanner? == some 0) = false → step.Omissible 0 := by
    simp [steps, Step.scanner?, Step.Omissible]
  exact ⟨hreads, hkeep, rfl, map_view_filter_trace x hreads hkeep⟩

end Session

end EndOfInput
