import EndOfInput.Cursor.Bytes
import EndOfInput.Scanner

/-!
# Parsing byte strings

The loop of a parser that offers every boundary to the scanner: it lets a token begin, scans, saves the state, and
moves on by one character.  At the end it may knock, that is, offer the end again.

* `Scanner.visits` are the visits of one parse, from a cursor to the end;
* `Visit.hits`, `Visit.records` and `Visit.logOf` are what is found, saved and reported on the way.
-/

namespace EndOfInput

/-- What a parser keeps of its visit at a boundary. -/
structure Visit where
  position : Nat
  /-- What the scan answered. -/
  result? : Option TokenKind
  /-- Where the token at the cursor begins and ends, if its end is marked after the scan. -/
  span? : Option (Nat × Nat)
  record : List UInt8
  log : Log
  deriving DecidableEq

namespace Visit

/-- The visit at the place of a cursor, after the scan. -/
def ofScanned (scanned : Scanned ByteCursor) : Visit where
  position := scanned.cursor.position
  result? := scanned.result?
  span? := scanned.cursor.tokenSpan?
  record := scanned.scanner.record
  log := scanned.log

/-- What the scan left at the cursor, if it found a token. -/
def hit? (visit : Visit) : Option (Option (Nat × Nat)) :=
  visit.result?.map fun _ => visit.span?

/-- The matches, each with the span of the token that it left. -/
def hits (visits : List Visit) : List (Option (Nat × Nat)) :=
  visits.filterMap hit?

/-- The records saved, in order. -/
def records (visits : List Visit) : List (List UInt8) :=
  visits.map record

def logOf (visits : List Visit) : Log :=
  visits.flatMap log

end Visit

namespace Scanner

/-- Lets a token begin at a cursor and looks for it. -/
def scanFresh (s : Scanner) (valid : Acceptable) (c : ByteCursor) : Scanned ByteCursor :=
  s.scan c.beginToken valid

theorem position_scanFresh (s : Scanner) (valid : Acceptable) (c : ByteCursor) :
    (s.scanFresh valid c).cursor.position = c.position := by
  unfold scanFresh scan
  split
  · rfl
  · split
    · rfl
    · split <;> rfl

theorem input_scanFresh (s : Scanner) (valid : Acceptable) (c : ByteCursor) :
    (s.scanFresh valid c).cursor.input = c.input := by
  unfold scanFresh scan
  split
  · rfl
  · split
    · rfl
    · split <;> rfl

/-- Visits the place of a cursor `n` times. -/
def knocks (s : Scanner) (valid : Acceptable) (c : ByteCursor) : Nat → List Visit
  | 0 => []
  | n + 1 =>
    let scanned := s.scanFresh valid c
    .ofScanned scanned :: scanned.scanner.knocks valid scanned.cursor n

/-- Visits each boundary from a cursor on, and the end `n` times more. -/
def visits (s : Scanner) (valid : Acceptable) (n : Nat) (c : ByteCursor) : List Visit :=
  if c.isEnd then
    s.knocks valid c (n + 1)
  else
    let scanned := s.scanFresh valid c
    .ofScanned scanned :: scanned.scanner.visits valid n (scanned.cursor.advance false)
termination_by c.input.length - c.position
decreasing_by
  rename_i h
  rw [Bool.not_eq_true, ← Bool.not_eq_true, ByteCursor.isEnd_iff] at h
  have hp := position_scanFresh s valid c
  have hi := input_scanFresh s valid c
  have moved : (s.scanFresh valid c).cursor.position < ((s.scanFresh valid c).cursor.advance false).position := by
    apply ByteCursor.position_lt_advance
    rw [← Bool.not_eq_true, ByteCursor.isEnd_iff, hp, hi]
    exact h
  rw [ByteCursor.input_advance, hi]
  omega

end Scanner

end EndOfInput
