/-!
# The state and its record

Between two scans a scanner remembers one thing: whether the end of the input was the latest token.  The state is
kept outside the scanner as a record of one byte: the version of the format in the high four bits, the marker in
the lowest bit, and three reserved bits, which are zero.

* an empty record stands for the initial state, and any other must be the encoding of a state;
* (round trip) `State.decode_encode`;
* (writing in place) `State.writeTo_cons`: of a buffer only the first byte is replaced.
-/

namespace EndOfInput

def recordSize : Nat := 1

def formatVersion : UInt8 := 1

/-- The length of the buffer that a parser offers for a record. -/
def bufferSize : Nat := 1024

/-- The bit of a record that holds the marker. -/
def markerBit : UInt8 := 0x01

/-- The bits of a record that must be zero. -/
def reservedBits : UInt8 := 0x0E

/-! ### Errors -/

/-- A record needs `expected` bytes, and there are `actual`. -/
structure SizeError where
  expected : Nat
  actual : Nat
  deriving DecidableEq

/-- The reasons to refuse a record. -/
inductive RecordError where
  /-- The record is longer than one byte. -/
  | size (error : SizeError)
  /-- The record is of another version of the format. -/
  | unsupportedVersion (version : UInt8)
  /-- The record is of the current version, and some reserved bits are set: these. -/
  | reservedBits (bits : UInt8)
  deriving DecidableEq

/-- A byte as two hexadecimal digits. -/
def hexDigits (b : UInt8) : List Char :=
  [Nat.digitChar (b.toNat / 16), Nat.digitChar (b.toNat % 16)]

def SizeError.message (error : SizeError) : String :=
  "state record needs " ++ toString error.expected ++ " bytes, got " ++ toString error.actual

def RecordError.message : RecordError → String
  | .size error => "size error: " ++ error.message
  | .unsupportedVersion version => "unsupported state format version " ++ toString version.toNat
  | .reservedBits bits => "reserved state bits set: 0x" ++ String.ofList (hexDigits bits)

/-- The error that a record error wraps, if any. -/
def RecordError.source? : RecordError → Option SizeError
  | .size error => some error
  | _ => none

/-! ### The state -/

/-- What a scanner remembers between two scans. -/
structure State where
  /-- Whether the end of the input was the latest token. -/
  marked : Bool := false
  deriving DecidableEq

instance : Inhabited State := ⟨{}⟩

/-- A buffer after a record was written to its front. -/
structure Filled where
  count : Nat
  buffer : List UInt8
  deriving DecidableEq

/-- The bytes that were written. -/
def Filled.record (filled : Filled) : List UInt8 :=
  filled.buffer.take filled.count

namespace State

/-- The one byte of a state's record. -/
def toByte (s : State) : UInt8 :=
  formatVersion <<< 4 ||| if s.marked then markerBit else 0

def encode (s : State) : List UInt8 :=
  [s.toByte]

/-- Writes the record of a state to the front of a buffer, if it is long enough. -/
def writeTo (s : State) (buffer : List UInt8) : Except SizeError Filled :=
  if buffer.length < recordSize then
    .error ⟨recordSize, buffer.length⟩
  else
    .ok ⟨recordSize, s.encode ++ buffer.drop recordSize⟩

/-- Reads a record.  The length is looked at first, then the version, and then the reserved bits. -/
def decode : List UInt8 → Except RecordError State
  | [] => .ok {}
  | [b] =>
    if b >>> 4 ≠ formatVersion then .error (.unsupportedVersion (b >>> 4))
    else if b &&& reservedBits ≠ 0 then .error (.reservedBits (b &&& reservedBits))
    else .ok { marked := b &&& markerBit ≠ 0 }
  | record => .error (.size ⟨recordSize, record.length⟩)

@[simp] theorem length_encode (s : State) : s.encode.length = recordSize := rfl

theorem encode_eq (s : State) : s.encode = [if s.marked then 0x11 else 0x10] := by
  obtain ⟨_ | _⟩ := s <;> rfl

@[simp] theorem decode_encode (s : State) : decode s.encode = .ok s := by
  obtain ⟨_ | _⟩ := s <;> rfl

@[simp] theorem writeTo_nil (s : State) : s.writeTo [] = .error ⟨recordSize, 0⟩ := rfl

@[simp] theorem writeTo_cons (s : State) (b : UInt8) (buffer : List UInt8) :
    s.writeTo (b :: buffer) = .ok ⟨recordSize, s.encode ++ buffer⟩ := by
  simp [writeTo, recordSize]

end State

end EndOfInput
