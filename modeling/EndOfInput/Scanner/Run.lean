import EndOfInput.Machine
import EndOfInput.Scanner

/-!
# Runs of a scanner

The operations on one scanner, and what each of them answers and reports.  A scanner is a machine that takes operations.
A scan may use any cursor, so the cursors are part of the operations and not of the scanner.
-/

namespace EndOfInput.Scanner

universe u

variable {γ : Type u} [Cursor γ]

/-- An operation on a scanner. -/
inductive Op (γ : Type u) where
  | scan (cursor : γ) (valid : Acceptable)
  | save (buffer : List UInt8)
  | load (record : List UInt8)
  | reset
  | setOptions (options : Options)

/-- What an operation answers. -/
inductive Answer (γ : Type u) where
  | scanned (result? : Option TokenKind) (cursor : γ)
  | saved (outcome : Except SizeError Filled)
  | loaded (outcome : Except RecordError Unit)
  | done

/-- What an operation gives: an answer, the scanner after it, and what was reported. -/
structure Outcome (γ : Type u) where
  answer : Answer γ
  scanner : Scanner
  log : Log

def step (s : Scanner) : Op γ → Outcome γ
  | .scan c valid =>
    let scanned := s.scan c valid
    ⟨.scanned scanned.result? scanned.cursor, scanned.scanner, scanned.log⟩
  | .save buffer => ⟨.saved (s.saveTo buffer), s, []⟩
  | .load record =>
    let loaded := s.load record
    ⟨.loaded loaded.outcome, loaded.scanner, loaded.log⟩
  | .reset => ⟨.done, s.reset, []⟩
  | .setOptions options => ⟨.done, s.setOptions options, []⟩

instance : Machine Scanner (Op γ) (Outcome γ) where
  reply := step
  next s op := (s.step op).scanner

@[simp] theorem reply_eq (s : Scanner) (op : Op γ) : Machine.reply s op = s.step op := rfl

@[simp] theorem next_eq (s : Scanner) (op : Op γ) : Machine.next s op = (s.step op).scanner := rfl

/-- An operation of a run, with the scanner before it and its outcome. -/
abbrev Entry (γ : Type u) := Machine.Entry Scanner (Op γ) (Outcome γ)

/-- The token that an operation found, if it is a scan and found one. -/
def Outcome.token? (outcome : Outcome γ) : Option TokenKind :=
  match outcome.answer with
  | .scanned result? _ => result?
  | _ => none

end EndOfInput.Scanner
