/-!
# UTF-8 text in pieces

A byte string is cut from the left into pieces.  A piece is one well-formed character or, where none stands, the
longest run of bytes that starts some character, and a single byte if there is no such run.  This is how the Unicode
standard recommends to replace ill-formed parts of a text.

The decoder that cuts off a piece is not part of this library: `piece` is what it is documented to do, and is taken as
given.

* `piece b bytes` is the first piece of `b :: bytes`, and `pieces bytes` are all of them in order;
* (nothing is lost) `flatMap_bytes_pieces`: the pieces, one after the other, are the bytes.
-/

namespace EndOfInput.Utf8

/-! ### Leading and continuation bytes -/

/-- What a leading byte calls for: the range of the first continuation byte is what keeps out overlong forms,
surrogates, and code points above U+10FFFF. -/
structure Lead where
  /-- The bits of the code point that the leading byte carries. -/
  bits : Nat
  /-- The number of continuation bytes that follow. -/
  owed : Nat
  /-- The least first continuation byte. -/
  low : UInt8 := 0x80
  /-- The greatest first continuation byte. -/
  high : UInt8 := 0xBF
  deriving DecidableEq

/-- The leading bytes are those up to 0x7F and those from 0xC2 to 0xF4. -/
def Lead.ofByte? (b : UInt8) : Option Lead :=
  if b < 0x80 then some { bits := b.toNat, owed := 0 }
  else if b < 0xC2 then none
  else if b < 0xE0 then some { bits := b.toNat % 32, owed := 1 }
  else if b = 0xE0 then some { bits := 0, owed := 2, low := 0xA0 }
  else if b = 0xED then some { bits := 13, owed := 2, high := 0x9F }
  else if b < 0xF0 then some { bits := b.toNat % 16, owed := 2 }
  else if b = 0xF0 then some { bits := 0, owed := 3, low := 0x90 }
  else if b < 0xF4 then some { bits := b.toNat % 8, owed := 3 }
  else if b = 0xF4 then some { bits := 4, owed := 3, high := 0x8F }
  else none

/-- The continuation bytes at the front of a byte string: at most `n` of them, the first from `low` to `high` and
the others from 0x80 to 0xBF. -/
def continuation (low high : UInt8) : Nat → List UInt8 → List UInt8
  | n + 1, b :: bytes => if low ≤ b ∧ b ≤ high then b :: continuation 0x80 0xBF n bytes else []
  | _, _ => []

/-- The continuation bytes at the front of a byte string that belong to the byte `b` before it. -/
def tail (b : UInt8) (bytes : List UInt8) : List UInt8 :=
  match Lead.ofByte? b with
  | none => []
  | some lead => continuation lead.low lead.high lead.owed bytes

/-! ### Pieces -/

/-- A character, or a part of an ill-formed sequence. -/
structure Piece where
  bytes : List UInt8
  /-- The character that the bytes encode, if they are well formed. -/
  char? : Option Char
  deriving DecidableEq

/-- The character shown in place of an ill-formed part. -/
def replacement : Char := '\uFFFD'

theorem toNat_ofNat {n : Nat} (h : n.isValidChar) : (Char.ofNat n).toNat = n := by
  rw [Char.ofNat, dif_pos h]
  rfl

/-- The character that a piece is shown as. -/
def Piece.char (p : Piece) : Char :=
  p.char?.getD replacement

def Piece.size (p : Piece) : Nat :=
  p.bytes.length

/-- The code point with the leading bits `bits`, six more bits from each continuation byte. -/
def codePoint (bits : Nat) (bytes : List UInt8) : Nat :=
  bytes.foldl (fun code b => code * 64 + b.toNat % 64) bits

/-- The character of a leading byte `b` and the continuation bytes after it, unless some are missing. -/
def decode? (b : UInt8) (tail : List UInt8) : Option Char :=
  match Lead.ofByte? b with
  | none => none
  | some lead => if tail.length = lead.owed then some (Char.ofNat (codePoint lead.bits tail)) else none

/-- The first piece of `b :: bytes`. -/
def piece (b : UInt8) (bytes : List UInt8) : Piece :=
  ⟨b :: tail b bytes, decode? b (tail b bytes)⟩

/-- The first piece of a byte string, unless it is empty. -/
def first? : List UInt8 → Option Piece
  | [] => none
  | b :: bytes => some (piece b bytes)

/-- The pieces of a byte string, from left to right. -/
def pieces : List UInt8 → List Piece
  | [] => []
  | b :: bytes => piece b bytes :: pieces (bytes.drop (tail b bytes).length)
termination_by bytes => bytes.length
decreasing_by rw [List.length_drop, List.length_cons]; omega

/-- The UTF-8 encoding of a text. -/
def encode (text : List Char) : List UInt8 :=
  text.flatMap String.utf8EncodeChar

/-- The bytes after the last line feed. -/
def lastLine (bytes : List UInt8) : List UInt8 :=
  (bytes.reverse.takeWhile fun b => b ≠ 0x0A).reverse

/-! ### What the pieces hold -/

@[simp] theorem first?_nil : first? [] = none := rfl

@[simp] theorem first?_cons (b : UInt8) (bytes : List UInt8) : first? (b :: bytes) = some (piece b bytes) := rfl

@[simp] theorem first?_eq_none_iff {bytes : List UInt8} : first? bytes = none ↔ bytes = [] := by
  cases bytes <;> simp

@[simp] theorem bytes_piece (b : UInt8) (bytes : List UInt8) : (piece b bytes).bytes = b :: tail b bytes := rfl

theorem size_piece (b : UInt8) (bytes : List UInt8) : (piece b bytes).size = (tail b bytes).length + 1 := rfl

@[simp] theorem pieces_nil : pieces [] = [] := by
  rw [pieces]

@[simp] theorem pieces_cons (b : UInt8) (bytes : List UInt8) :
    pieces (b :: bytes) = piece b bytes :: pieces (bytes.drop (tail b bytes).length) := by
  rw [pieces]

private theorem continuation_append_drop (low high : UInt8) (n : Nat) (bytes : List UInt8) :
    continuation low high n bytes ++ bytes.drop (continuation low high n bytes).length = bytes := by
  fun_induction continuation low high n bytes with
  | case1 low high n b bytes _ ih => simp [ih]
  | case2 => simp
  | case3 => simp

/-- The continuation bytes of `b` are a first part of what follows `b`. -/
theorem tail_append_drop (b : UInt8) (bytes : List UInt8) :
    tail b bytes ++ bytes.drop (tail b bytes).length = bytes := by
  rw [tail]
  split
  · rfl
  · exact continuation_append_drop _ _ _ _

theorem length_tail_le_length (b : UInt8) (bytes : List UInt8) : (tail b bytes).length ≤ bytes.length := by
  have h := congrArg List.length (tail_append_drop b bytes)
  rw [List.length_append] at h
  omega

/-- The pieces, one after the other, are the bytes. -/
theorem flatMap_bytes_pieces (bytes : List UInt8) : (pieces bytes).flatMap Piece.bytes = bytes := by
  fun_induction pieces bytes with
  | case1 => rfl
  | case2 b bytes ih => rw [List.flatMap_cons, ih, bytes_piece, List.cons_append, tail_append_drop]

end EndOfInput.Utf8
