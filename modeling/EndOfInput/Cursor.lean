import EndOfInput.Token

/-!
# Cursors

A cursor is a view of the input from one position on.  A parser places it where a token could begin; a scanner
looks through it and leaves on it where the token ends and of which kind it is.
-/

namespace EndOfInput

universe u

/-- A view of the input from one position on. -/
class Cursor (γ : Type u) where
  /-- The character at the position, unless the input ends there. -/
  lookahead? : γ → Option Char
  /-- Whether the input ends at the position. -/
  isEnd : γ → Bool
  /-- The number of characters between the start of the line and the position. -/
  column : γ → UInt32
  /-- Moves past the character at the position, and keeps it out of the token if it is skipped. -/
  advance : γ → (skip : Bool) → γ
  /-- Lets the token end at the position. -/
  markEnd : γ → γ
  /-- Sets the kind of the token. -/
  setResult : γ → TokenKind → γ

namespace Cursor

/-- What can be asked of a cursor. -/
inductive Request where
  | lookahead
  | isEnd
  | column
  | advance (skip : Bool)
  | markEnd
  | setResult (kind : TokenKind)
  deriving DecidableEq

/-- What a cursor replies. -/
inductive Reply where
  | lookahead (char? : Option Char)
  | isEnd (flag : Bool)
  | column (count : UInt32)
  | done
  deriving DecidableEq

variable {γ : Type u} [Cursor γ]

/-- The reply to a request. -/
def reply (c : γ) : Request → Reply
  | .lookahead => .lookahead (lookahead? c)
  | .isEnd => .isEnd (Cursor.isEnd c)
  | .column => .column (Cursor.column c)
  | .advance _ | .markEnd | .setResult _ => .done

/-- The cursor after a request. -/
def follow (c : γ) : Request → γ
  | .lookahead | .isEnd | .column => c
  | .advance skip => Cursor.advance c skip
  | .markEnd => Cursor.markEnd c
  | .setResult kind => Cursor.setResult c kind

end Cursor

end EndOfInput
