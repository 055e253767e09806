/-!
# Token kinds

The kinds of token that the scanner recognises, each with its name and its symbol, and the sets of kinds that a
parser is ready to accept.  There is one kind, the end of the input; a set of kinds is a list of flags indexed by
symbol, and a kind without a flag is not in it.

* `TokenKind.ofSymbol?_eq_some_iff`: a symbol stands for the kind that has it, and for no other;
* `Acceptable.mem_all`, `Acceptable.not_mem_empty`: every kind is in the full set and none in the empty one.
-/

namespace EndOfInput

/-! ### Kinds -/

/-- The kinds of token that the scanner recognises. -/
inductive TokenKind where
  /-- The zero-width token at the end of the input. -/
  | endOfInput
  deriving DecidableEq

namespace TokenKind

/-- All kinds, by symbol. -/
def all : List TokenKind :=
  [.endOfInput]

def count : Nat :=
  all.length

/-- The name of a kind in grammars. -/
def name : TokenKind → String
  | .endOfInput => "eof_tok"

/-- The number by which a parser refers to a kind. -/
def symbol : TokenKind → UInt16
  | .endOfInput => 0

/-- The kind with a given symbol. -/
def ofSymbol? (symbol : UInt16) : Option TokenKind :=
  all.find? fun kind => kind.symbol == symbol

theorem mem_all (kind : TokenKind) : kind ∈ all := by
  cases kind; exact List.mem_cons_self

theorem ofSymbol?_eq_some_iff {n : UInt16} {kind : TokenKind} : ofSymbol? n = some kind ↔ kind.symbol = n := by
  cases kind
  by_cases h : symbol .endOfInput = n <;> simp [ofSymbol?, all, h]

end TokenKind

/-! ### Sets of kinds -/

/-- The kinds that a parser accepts at some position: a flag for each symbol. -/
structure Acceptable where
  flags : List Bool
  deriving DecidableEq

namespace Acceptable

/-- A kind is in the set if its flag is there and set. -/
instance : Membership TokenKind Acceptable :=
  ⟨fun valid kind => valid.flags[kind.symbol.toNat]? = some true⟩

theorem mem_iff {valid : Acceptable} {kind : TokenKind} :
    kind ∈ valid ↔ valid.flags[kind.symbol.toNat]? = some true := Iff.rfl

instance (kind : TokenKind) (valid : Acceptable) : Decidable (kind ∈ valid) :=
  decidable_of_iff _ mem_iff.symm

/-- The full set. -/
def all : Acceptable :=
  ⟨List.replicate TokenKind.count true⟩

def empty : Acceptable :=
  ⟨[]⟩

/-- The kinds in the set, by symbol. -/
def toList (valid : Acceptable) : List TokenKind :=
  TokenKind.all.filter fun kind => kind ∈ valid

theorem mem_all (kind : TokenKind) : kind ∈ all := by
  cases kind; rfl

theorem not_mem_empty (kind : TokenKind) : kind ∉ empty := by
  simp [mem_iff, empty]

theorem mem_toList {valid : Acceptable} {kind : TokenKind} : kind ∈ valid.toList ↔ kind ∈ valid := by
  simp [toList, TokenKind.mem_all]

end Acceptable

end EndOfInput
