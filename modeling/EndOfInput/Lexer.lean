import EndOfInput.Cursor
import EndOfInput.Utf8

/-!
# Lexers of an engine

A parsing engine shows its input one code unit at a time, as a signed word, and takes the kind of a token as a
symbol.  Every lexer is a cursor: a unit that is no Unicode scalar value is shown as U+FFFD.

* `scalar?_eq_some_iff`: the units that are characters, and which.
-/

namespace EndOfInput

universe u

/-- What an engine offers to a scanner. -/
class Lexer (η : Type u) where
  /-- The code unit at the position. -/
  unit : η → Int32
  isEnd : η → Bool
  column : η → UInt32
  /-- Moves past one code unit. -/
  advance : η → (skip : Bool) → η
  markEnd : η → η
  setSymbol : η → UInt16 → η

/-- The character that a code unit stands for, if it is a Unicode scalar value. -/
def scalar? (unit : Int32) : Option Char :=
  if 0 ≤ unit.toInt ∧ unit.toInt.toNat.isValidChar then some (Char.ofNat unit.toInt.toNat) else none

theorem scalar?_eq_some_iff {unit : Int32} {c : Char} : scalar? unit = some c ↔ unit.toInt = c.toNat := by
  unfold scalar?
  split
  · rename_i h
    rw [Option.some.injEq, ← Char.toNat_inj, Utf8.toNat_ofNat h.2]
    omega
  · rename_i h
    constructor
    · intro hc; cases hc
    · intro hc
      have hv : (Int.toNat c.toNat).isValidChar := by rw [Int.toNat_natCast]; exact c.valid
      rw [← hc] at hv
      exact absurd ⟨by omega, hv⟩ h

/-- A lexer as a cursor. -/
instance (priority := low) Lexer.toCursor {η : Type u} [Lexer η] : Cursor η where
  lookahead? l := if Lexer.isEnd l then none else some ((scalar? (Lexer.unit l)).getD Utf8.replacement)
  isEnd := Lexer.isEnd
  column := Lexer.column
  advance := Lexer.advance
  markEnd := Lexer.markEnd
  setResult l kind := Lexer.setSymbol l kind.symbol

end EndOfInput
