import EndOfInput.Lexer

/-!
# Lexers over code units

A lexer over a list of code units that is held in memory.  It notes what is asked of it: where the token was
marked to end and how often, its symbol, and how it was advanced.  What it tells about the end and the column can
be overridden, as an engine may have its own opinion of both.

* (bounds) `UnitLexer.position_advance_le`: it never moves past the end.
-/

namespace EndOfInput

/-- A lexer over code units. -/
structure UnitLexer where
  units : List Int32
  /-- The number of units before the position. -/
  position : Nat
  /-- What is told about the end instead of the truth. -/
  isEnd? : Option Bool := none
  /-- What is told about the column instead of the position. -/
  column? : Option UInt32 := none
  /-- Where the token was marked to end. -/
  mark? : Option Nat := none
  /-- How often the end was marked. -/
  marks : Nat := 0
  /-- The symbol of the token, and the greatest symbol while there is none. -/
  symbol : UInt16 := 0xFFFF
  /-- For each advance, whether the unit was skipped. -/
  advances : List Bool := []
  deriving DecidableEq

namespace UnitLexer

/-- A lexer before the unit at `offset`, and at the end if there are no more than `offset` units. -/
def atOffset (units : List Int32) (offset : Nat) : UnitLexer :=
  { units, position := min offset units.length }

/-- The unit at the position, and zero at the end. -/
def unit (l : UnitLexer) : Int32 :=
  l.units[l.position]?.getD 0

/-- Whether the input ends at the position, as far as is told. -/
def isEnd (l : UnitLexer) : Bool :=
  l.isEnd?.getD (l.units.length ≤ l.position)

/-- The number of units before the position, unless another column is told. -/
def column (l : UnitLexer) : UInt32 :=
  l.column?.getD (UInt32.ofNat l.position)

/-- Moves past one unit, but not past the end. -/
def advance (l : UnitLexer) (skip : Bool) : UnitLexer :=
  { l with position := min (l.position + 1) l.units.length, advances := l.advances ++ [skip] }

def markEnd (l : UnitLexer) : UnitLexer :=
  { l with mark? := some l.position, marks := l.marks + 1 }

def setSymbol (l : UnitLexer) (symbol : UInt16) : UnitLexer :=
  { l with symbol }

instance : Lexer UnitLexer where
  unit := unit
  isEnd := isEnd
  column := column
  advance := advance
  markEnd := markEnd
  setSymbol := setSymbol

/-- What an engine does to its lexer between two calls. -/
inductive Change where
  /-- A token begins: what was noted is forgotten. -/
  | beginToken
  | place (offset : Nat)
  /-- The end is overridden, or no longer. -/
  | overrideEnd (isEnd? : Option Bool)
  /-- The column is overridden, or no longer. -/
  | overrideColumn (column? : Option UInt32)
  deriving DecidableEq

/-- The lexer after a change. -/
def change (l : UnitLexer) : Change → UnitLexer
  | .beginToken => { l with mark? := none, marks := 0, symbol := 0xFFFF, advances := [] }
  | .place offset => { l with position := min offset l.units.length }
  | .overrideEnd isEnd? => { l with isEnd? }
  | .overrideColumn column? => { l with column? }

theorem position_advance_le (l : UnitLexer) (skip : Bool) : (l.advance skip).position ≤ l.units.length :=
  Nat.min_le_right _ _

end UnitLexer

end EndOfInput
