import EndOfInput.Scanner

/-!
# Interchange values

The state, the options and the kinds of token as values that other programs can exchange.  A record with one flag
is an object with the field of that flag, where other fields are ignored, or a list with that flag alone.  A kind
is its name, or an object with its name for a key and null.

The code that reads and writes such values is derived from the types, and is not part of this library: `readFlag` and
`readKind` are the rules that it is documented to follow, and are taken as given.

* (round trip) `Form.read_write`: what is written reads back, for each of the three;
* a field that occurs twice is refused.
-/

namespace EndOfInput.Interchange

/-- A value. -/
inductive Value where
  | null
  | bool (flag : Bool)
  /-- A decimal number: the mantissa, and the number of its decimal places. -/
  | number (mantissa : Int) (places : Nat)
  | string (text : String)
  | array (items : List Value)
  | object (fields : List (String × Value))

instance : Inhabited Value := ⟨.null⟩

/-- The flag that a value is, if it is one. -/
def Value.bool? : Value → Option Bool
  | .bool flag => some flag
  | _ => none

/-- The one value of a field of an object. -/
def field? (name : String) (fields : List (String × Value)) : Option Value :=
  match fields.filter fun field => field.1 = name with
  | [field] => some field.2
  | _ => none

/-- Reads the flag of a record with the one field `name`. -/
def readFlag (name : String) : Value → Option Bool
  | .object fields => (field? name fields).bind Value.bool?
  | .array [item] => item.bool?
  | _ => none

/-- Writes a record with the one field `name`. -/
def writeFlag (name : String) (flag : Bool) : Value :=
  .object [(name, .bool flag)]

theorem readFlag_writeFlag (name : String) (flag : Bool) : readFlag name (writeFlag name flag) = some flag := by
  simp [readFlag, writeFlag, field?, Value.bool?]

/-- The types that have an interchange form. -/
class Form (α : Type) where
  read : Value → Option α
  write : α → Value
  /-- What is written reads back. -/
  read_write : ∀ a, read (write a) = some a

instance : Form State where
  read v := (readFlag "last_was_end_marker" v).map fun marked => { marked }
  write s := writeFlag "last_was_end_marker" s.marked
  read_write s := by rw [readFlag_writeFlag]; rfl

instance : Form Options where
  read v := (readFlag "honor_valid_tokens" v).map fun honorAcceptable => { honorAcceptable }
  write o := writeFlag "honor_valid_tokens" o.honorAcceptable
  read_write o := by rw [readFlag_writeFlag]; rfl

/-- The name of a kind in interchange values. -/
def kindName : TokenKind → String
  | .endOfInput => "EofTok"

/-- The kind with a given name. -/
def kindOfName? (name : String) : Option TokenKind :=
  TokenKind.all.find? fun kind => kindName kind = name

def readKind : Value → Option TokenKind
  | .string name => kindOfName? name
  | .object [(name, .null)] => kindOfName? name
  | _ => none

instance : Form TokenKind where
  read := readKind
  write kind := .string (kindName kind)
  read_write kind := by cases kind; decide

end EndOfInput.Interchange
