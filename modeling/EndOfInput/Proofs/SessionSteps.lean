import EndOfInput.Proofs.Boundaries
import EndOfInput.Proofs.Scan
import EndOfInput.Session

/-!
# What a step of a session changes

A step of a scanner changes no other scanner and no other saved record (`Session.scanner_step_of_ne`,
`Session.saved_step_of_ne`), whatever the cursors are.  Byte cursors it leaves where they were
(`Session.samePlace_step`).
-/

namespace EndOfInput

namespace ByteCursor

/-- Two cursors at the same place of the same input, whatever token they are at. -/
def SamePlace (c d : ByteCursor) : Prop :=
  c.input = d.input ∧ c.position = d.position

theorem SamePlace.refl (c : ByteCursor) : c.SamePlace c :=
  ⟨rfl, rfl⟩

theorem SamePlace.symm {c d : ByteCursor} (h : c.SamePlace d) : d.SamePlace c :=
  ⟨h.1.symm, h.2.symm⟩

theorem SamePlace.trans {c d e : ByteCursor} (h : c.SamePlace d) (h' : d.SamePlace e) : c.SamePlace e :=
  ⟨h.1.trans h'.1, h.2.trans h'.2⟩

/-- Where an advance leads depends on the place alone. -/
theorem SamePlace.advance {c d : ByteCursor} (h : c.SamePlace d) (skip skip' : Bool) :
    (c.advance skip).SamePlace (d.advance skip') := by
  refine ⟨?_, position_advance_congr h.1 h.2 skip skip'⟩
  rw [input_advance, input_advance, h.1]

theorem samePlace_scan (s : Scanner) (c : ByteCursor) (valid : Acceptable) : (s.scan c valid).cursor.SamePlace c := by
  rw [Scanner.cursor_scan]
  split
  · exact ⟨rfl, rfl⟩
  · exact .refl c

end ByteCursor

namespace Session

universe u v

variable {γ : Type u} {μ : Type v} {n m : Nat}

/-- The scanner that takes a step.  A move of a cursor is taken by none. -/
def Step.scanner? : Step μ n m → Option (Fin n)
  | .move _ _ => none
  | .scan s _ _ | .save s _ | .load s _ | .restore s _ | .reset s | .setOptions s _ | .clone s _ | .compare s _ =>
    some s

/-! ### Reading a session after a change -/

@[simp] theorem scanner_setCursor (x : Session γ n m) (c : Fin m) (cursor : γ) (s : Fin n) :
    (x.setCursor c cursor).scanner s = x.scanner s := rfl

@[simp] theorem saved_setCursor (x : Session γ n m) (c : Fin m) (cursor : γ) (s : Fin n) :
    (x.setCursor c cursor).saved s = x.saved s := rfl

section Steps

variable [Cursor γ] [Machine γ μ γ]

theorem step_move (x : Session γ n m) (c : Fin m) (move : μ) :
    x.step (.move c move) = ⟨.done, x.setCursor c (Machine.next (x.cursor c) move), []⟩ := rfl

theorem step_scan (x : Session γ n m) (s : Fin n) (c : Fin m) (valid : Acceptable) :
    x.step (.scan s c valid : Step μ n m) =
      ⟨.scanned ((x.scanner s).scan (x.cursor c) valid).result?,
        (x.setScanner s ((x.scanner s).scan (x.cursor c) valid).scanner).setCursor c
          ((x.scanner s).scan (x.cursor c) valid).cursor,
        ((x.scanner s).scan (x.cursor c) valid).log⟩ := rfl

theorem step_save_of_ok {x : Session γ n m} {s : Fin n} {buffer : List UInt8} {filled : Filled}
    (h : (x.scanner s).saveTo buffer = .ok filled) :
    x.step (.save s buffer : Step μ n m) = ⟨.saved (.ok filled), x.setSaved s filled.record, []⟩ := by
  simp only [step, h]

theorem step_save_of_error {x : Session γ n m} {s : Fin n} {buffer : List UInt8} {error : SizeError}
    (h : (x.scanner s).saveTo buffer = .error error) :
    x.step (.save s buffer : Step μ n m) = ⟨.saved (.error error), x, []⟩ := by
  simp only [step, h]

/-! ### What a step leaves alone -/

theorem scanner_step_of_ne (x : Session γ n m) {step : Step μ n m} {t : Fin n} (h : step.scanner? ≠ some t) :
    (x.step step).session.scanner t = x.scanner t := by
  cases step with
  | move c move => rfl
  | scan s c valid =>
    show ((x.setScanner s _).setCursor c _).scanner t = _
    rw [scanner_setCursor, scanner_setScanner, if_neg fun hs => h (congrArg some hs)]
  | save s buffer =>
    cases hs : (x.scanner s).saveTo buffer with
    | ok filled => rw [step_save_of_ok hs, scanner_setSaved]
    | error error => rw [step_save_of_error hs]
  | load s record | restore s other | reset s | setOptions s options | clone s other =>
    show (x.setScanner s _).scanner t = _
    rw [scanner_setScanner, if_neg fun hs => h (congrArg some hs)]
  | compare s other => rfl

theorem saved_step_of_ne (x : Session γ n m) {step : Step μ n m} {t : Fin n} (h : step.scanner? ≠ some t) :
    (x.step step).session.saved t = x.saved t := by
  cases step with
  | move c move => rfl
  | scan s c valid =>
    show ((x.setScanner s _).setCursor c _).saved t = _
    rw [saved_setCursor, saved_setScanner]
  | save s buffer =>
    cases hs : (x.scanner s).saveTo buffer with
    | ok filled => rw [step_save_of_ok hs, saved_setSaved, if_neg fun hs => h (congrArg some hs)]
    | error error => rw [step_save_of_error hs]
  | load s record | restore s other | reset s | setOptions s options | clone s other =>
    exact saved_setScanner x s t _
  | compare s other => rfl

end Steps

/-- A step of a scanner leaves every byte cursor where it was. -/
theorem samePlace_step (x : Session ByteCursor n m) {step : Step ByteCursor.Move n m} {t : Fin n}
    (h : step.scanner? = some t) (c : Fin m) :
    ((x.step step).session.cursor c).SamePlace (x.cursor c) := by
  cases step with
  | move d move => cases h
  | scan s d valid =>
    rw [step_scan, cursor_setCursor]
    split
    · rename_i hd
      subst hd
      exact ByteCursor.samePlace_scan _ _ _
    · exact .refl _
  | save s buffer =>
    cases hs : (x.scanner s).saveTo buffer with
    | ok filled => rw [step_save_of_ok hs]; exact .refl _
    | error error => rw [step_save_of_error hs]; exact .refl _
  | load s record | restore s other | reset s | setOptions s options | clone s other | compare s other => exact .refl _

end Session

end EndOfInput
