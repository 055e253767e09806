import EndOfInput.Cursor
import EndOfInput.Machine
import EndOfInput.Utf8

/-!
# Cursors over bytes

A byte cursor walks a byte string that is held in memory.  It moves by whole pieces of UTF-8 text, so an
ill-formed part counts as one character and is shown as U+FFFD, and it keeps where the token began, where it was
marked to end, and its kind.

* (progress) `ByteCursor.position_lt_advance`: before the end, each advance moves on;
* (the end) `ByteCursor.advance_of_isEnd`: at the end an advance changes nothing;
* `ByteCursor.walk` are the cursors at all boundaries from a position to the end.
-/

namespace EndOfInput

open Utf8

/-- A cursor over a byte string. -/
structure ByteCursor where
  input : List UInt8
  /-- The number of bytes before the cursor. -/
  position : Nat
  /-- Where the token begins. -/
  tokenStart : Nat
  /-- Where the token was marked to end. -/
  markedEnd? : Option Nat := none
  result? : Option TokenKind := none
  deriving DecidableEq

namespace ByteCursor

/-! ### Placing a cursor -/

/-- A cursor before the byte at `offset`, and at the end if there are no more than `offset` bytes. -/
def atOffset (input : List UInt8) (offset : Nat) : ByteCursor :=
  { input, position := min offset input.length, tokenStart := min offset input.length }

def atStart (input : List UInt8) : ByteCursor :=
  .atOffset input 0

def atEnd (input : List UInt8) : ByteCursor :=
  .atOffset input input.length

/-! ### What a cursor shows -/

def before (c : ByteCursor) : List UInt8 :=
  c.input.take c.position

def rest (c : ByteCursor) : List UInt8 :=
  c.input.drop c.position

/-- The character at the cursor, unless it is at the end. -/
def lookahead? (c : ByteCursor) : Option Char :=
  (first? c.rest).map Piece.char

/-- Whether no byte is left. -/
def isEnd (c : ByteCursor) : Bool :=
  c.input.length ≤ c.position

/-- The pieces between the start of the line and the cursor, counted up to the greatest word. -/
def column (c : ByteCursor) : UInt32 :=
  UInt32.ofNat (min (pieces (lastLine c.before)).length (UInt32.size - 1))

/-- Where the token begins and ends, once its end is marked. -/
def tokenSpan? (c : ByteCursor) : Option (Nat × Nat) :=
  c.markedEnd?.map fun stop => (c.tokenStart, stop)

/-! ### Moving a cursor -/

/-- Moves past one piece.  If it is skipped, the token begins after it. -/
def advance (c : ByteCursor) (skip : Bool) : ByteCursor :=
  match first? c.rest with
  | none => c
  | some p =>
    { c with
      position := c.position + p.size
      tokenStart := if skip then c.position + p.size else c.tokenStart }

def markEnd (c : ByteCursor) : ByteCursor :=
  { c with markedEnd? := some c.position }

def setResult (c : ByteCursor) (kind : TokenKind) : ByteCursor :=
  { c with result? := some kind }

/-- Lets a token begin at the cursor: its end and its kind are open. -/
def beginToken (c : ByteCursor) : ByteCursor :=
  { c with tokenStart := c.position, markedEnd? := none, result? := none }

instance : Cursor ByteCursor where
  lookahead? := lookahead?
  isEnd := isEnd
  column := column
  advance := advance
  markEnd := markEnd
  setResult := setResult

/-! ### The end and the way to it -/

@[simp] theorem isEnd_iff {c : ByteCursor} : c.isEnd = true ↔ c.input.length ≤ c.position := by
  simp [isEnd]

theorem rest_eq_nil_iff {c : ByteCursor} : c.rest = [] ↔ c.isEnd = true := by
  rw [isEnd_iff, rest, List.drop_eq_nil_iff]

@[simp] theorem advance_of_isEnd {c : ByteCursor} (h : c.isEnd = true) (skip : Bool) : c.advance skip = c := by
  simp [advance, rest_eq_nil_iff.mpr h]

@[simp] theorem input_advance (c : ByteCursor) (skip : Bool) : (c.advance skip).input = c.input := by
  rw [advance]; split <;> rfl

theorem position_lt_advance {c : ByteCursor} (h : c.isEnd = false) (skip : Bool) :
    c.position < (c.advance skip).position := by
  cases hr : c.rest with
  | nil => rw [rest_eq_nil_iff, h] at hr; contradiction
  | cons b bytes => simp [advance, hr, size_piece]

/-- The cursors at each boundary from a cursor on, the last of them at the end. -/
def walk (c : ByteCursor) : List ByteCursor :=
  if c.isEnd then [c] else c :: walk (c.advance false)
termination_by c.input.length - c.position
decreasing_by
  rename_i h
  have moved := position_lt_advance (Bool.eq_false_iff.mpr h) false
  rw [Bool.not_eq_true, ← Bool.not_eq_true, isEnd_iff] at h
  rw [input_advance]
  omega

/-! ### Steps -/

/-- What a parser does to a byte cursor. -/
inductive Move where
  | advance (skip : Bool)
  | markEnd
  | setResult (kind : TokenKind)
  | beginToken
  deriving DecidableEq

def move (c : ByteCursor) : Move → ByteCursor
  | .advance skip => c.advance skip
  | .markEnd => c.markEnd
  | .setResult kind => c.setResult kind
  | .beginToken => c.beginToken

instance : Machine ByteCursor Move ByteCursor where
  reply := move
  next := move

end ByteCursor

end EndOfInput
