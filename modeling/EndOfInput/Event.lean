import EndOfInput.Record

/-!
# The log

What a scanner does is reported as a list of events, in order, and each event has one line of text: its level, its
message, and the values that belong to it.  A line that opens the reading of a record shows the whole record, its
bytes in decimal.

The renderer that turns events into lines is not part of this library: `Event.line` is what it is documented to write,
and is taken as given.
-/

namespace EndOfInput

/-- What a scanner reports. -/
inductive Event where
  | reading (record : List UInt8)
  | refused (error : RecordError)
  /-- A record does not fit into the buffer that is offered for it. -/
  | unfit (error : SizeError)
  /-- There is more input after the end was reported. -/
  | continued
  /-- The end of the input was already reported here. -/
  | repeated
  /-- The end of the input is not acceptable here. -/
  | unacceptable
  | emitted
  /-- A scanner that does not exist is destroyed. -/
  | noScanner
  deriving DecidableEq

/-- Events, in order. -/
abbrev Log := List Event

/-- A list of bytes as text. -/
def byteListText (bytes : List UInt8) : String :=
  "[" ++ ", ".intercalate (bytes.map fun b => toString b.toNat) ++ "]"

def Event.line : Event → String
  | .reading record =>
    "TRACE span deserialize bytes=" ++ byteListText record ++ " len=" ++ toString record.length
  | .refused error => "DEBUG refusing scanner state record err=" ++ error.message
  | .unfit error => "DEBUG scanner state did not fit err=" ++ error.message
  | .continued => "TRACE input continues past emitted eof_tok, clearing marker"
  | .repeated => "TRACE eof_tok already emitted at this boundary"
  | .unacceptable => "TRACE eof_tok not acceptable here"
  | .emitted => "TRACE emitting eof_tok"
  | .noScanner => "DEBUG destroy called without a scanner"

def Log.lines (log : Log) : List String :=
  log.map Event.line

end EndOfInput
