import EndOfInput.Cursor
import EndOfInput.Event

/-!
# The scanner

A parser asks the scanner for a token at every position where one could begin, and at the end of its input it may
ask again and again.  There the scanner answers with the token of width zero once, and declines until the input
goes on, the state is replaced, or it is reset.

* (the four cases) `Scanner.scan_of_not_isEnd`, `Scanner.scan_of_marked`, `Scanner.scan_of_not_admits` and
  `Scanner.scan_of_admits` say what a scan does, in the order in which the cases are tried;
* (records) `Scanner.load_of_ok` and `Scanner.load_of_error`: a record replaces the state if it is
  accepted, and the state is the initial one if the record is refused.
-/

namespace EndOfInput

universe u

/-! ### Options -/

/-- What can be chosen for a scanner. -/
structure Options where
  /-- Whether a token is reported only where the parser accepts its kind. -/
  honorAcceptable : Bool := true
  deriving DecidableEq

instance : Inhabited Options := ⟨{}⟩

/-- The end of the input may be reported to a parser that accepts the kinds `valid`. -/
def Options.Admits (options : Options) (valid : Acceptable) : Prop :=
  options.honorAcceptable = true → TokenKind.endOfInput ∈ valid

instance (options : Options) (valid : Acceptable) : Decidable (options.Admits valid) :=
  inferInstanceAs (Decidable (_ → _))

theorem Options.admits_iff {options : Options} {valid : Acceptable} :
    options.Admits valid ↔ options.honorAcceptable = false ∨ TokenKind.endOfInput ∈ valid := by
  obtain ⟨_ | _⟩ := options <;> simp [Admits]

/-! ### Scanners -/

/-- A scanner. -/
structure Scanner where
  state : State := {}
  options : Options := {}
  deriving DecidableEq

instance : Inhabited Scanner := ⟨{}⟩

/-- What a scan gives. -/
structure Scanned (γ : Type u) where
  result? : Option TokenKind
  scanner : Scanner
  cursor : γ
  log : Log

/-- What the reading of a record gives. -/
structure Loaded where
  outcome : Except RecordError Unit
  scanner : Scanner
  log : Log

namespace Scanner

def fresh (options : Options := {}) : Scanner :=
  { options }

/-- Whether the end of the input was the latest token. -/
def marked (s : Scanner) : Bool :=
  s.state.marked

/-- The scanner with its marker set or cleared. -/
def mark (s : Scanner) (marked : Bool) : Scanner :=
  { s with state := { marked } }

/-- The scanner in its initial state, with the options it had. -/
def reset (s : Scanner) : Scanner :=
  { s with state := {} }

/-- The scanner with other options, in the state it had. -/
def setOptions (s : Scanner) (options : Options) : Scanner :=
  { s with options }

/-- Writes the record of the state to the front of a buffer. -/
def saveTo (s : Scanner) (buffer : List UInt8) : Except SizeError Filled :=
  s.state.writeTo buffer

/-- The record of the state, as written to a buffer of the usual length. -/
def record (s : Scanner) : List UInt8 :=
  match s.saveTo (List.replicate bufferSize 0) with
  | .ok filled => filled.record
  | .error _ => []

/-- Replaces the state by the one that a record holds.  A record that is refused leaves the initial state. -/
def load (s : Scanner) (record : List UInt8) : Loaded :=
  match State.decode record with
  | .ok state =>
    { outcome := .ok (), scanner := { s with state }, log := [.reading record] }
  | .error error =>
    { outcome := .error error, scanner := s.reset, log := [.reading record, .refused error] }

/-- Looks for a token at a cursor. -/
def scan {γ : Type u} [Cursor γ] (s : Scanner) (c : γ) (valid : Acceptable) : Scanned γ :=
  if Cursor.isEnd c = false then
    { result? := none, scanner := s.mark false, cursor := c, log := if s.marked then [.continued] else [] }
  else if s.marked then
    { result? := none, scanner := s, cursor := c, log := [.repeated] }
  else if s.options.Admits valid then
    { result? := some .endOfInput, scanner := s.mark true
      cursor := Cursor.setResult (Cursor.markEnd c) .endOfInput, log := [.emitted] }
  else
    { result? := none, scanner := s, cursor := c, log := [.unacceptable] }

/-! ### What the operations do -/

@[simp] theorem marked_mark (s : Scanner) (b : Bool) : (s.mark b).marked = b := rfl

@[simp] theorem options_mark (s : Scanner) (b : Bool) : (s.mark b).options = s.options := rfl

@[simp] theorem options_reset (s : Scanner) : s.reset.options = s.options := rfl

@[ext] theorem ext {s t : Scanner} (hm : s.marked = t.marked) (ho : s.options = t.options) : s = t := by
  obtain ⟨⟨_⟩, _⟩ := s
  obtain ⟨⟨_⟩, _⟩ := t
  cases hm
  cases ho
  rfl

/-- What is written to a buffer is the record of the state, whatever the buffer was. -/
theorem record_of_saveTo {s : Scanner} {buffer : List UInt8} {filled : Filled}
    (h : s.saveTo buffer = .ok filled) : filled.record = s.state.encode := by
  cases buffer with
  | nil => cases h
  | cons b buffer =>
    rw [saveTo, State.writeTo_cons] at h
    cases h
    exact List.take_left' (State.length_encode _)

@[simp] theorem record_eq (s : Scanner) : s.record = s.state.encode := by
  have hl : 0 < (List.replicate bufferSize (0 : UInt8)).length := by rw [List.length_replicate]; decide
  unfold record
  generalize List.replicate bufferSize (0 : UInt8) = buffer at hl ⊢
  cases h : s.saveTo buffer with
  | ok filled => exact record_of_saveTo h
  | error error => cases buffer with
    | nil => cases hl
    | cons b buffer => rw [saveTo, State.writeTo_cons] at h; cases h

theorem load_of_ok {record : List UInt8} {state : State} (h : State.decode record = .ok state) (s : Scanner) :
    s.load record = ⟨.ok (), ⟨state, s.options⟩, [.reading record]⟩ := by
  simp only [load, h]

theorem load_of_error {record : List UInt8} {error : RecordError} (h : State.decode record = .error error)
    (s : Scanner) : s.load record = ⟨.error error, s.reset, [.reading record, .refused error]⟩ := by
  simp only [load, h]

section Scan

variable {γ : Type u} [Cursor γ] {s : Scanner} {c : γ} {valid : Acceptable}

/-- Before the end nothing is found, and the marker is cleared. -/
theorem scan_of_not_isEnd (h : Cursor.isEnd c = false) :
    s.scan c valid = ⟨none, s.mark false, c, if s.marked then [.continued] else []⟩ := by
  rw [scan, if_pos h]

/-- At the end nothing is found while the marker is set. -/
theorem scan_of_marked (h : Cursor.isEnd c = true) (hm : s.marked = true) :
    s.scan c valid = ⟨none, s, c, [.repeated]⟩ := by
  rw [scan, if_neg (by simp [h]), if_pos hm]

/-- At the end nothing is found where the end of the input is not acceptable. -/
theorem scan_of_not_admits (h : Cursor.isEnd c = true) (hm : s.marked = false) (ha : ¬s.options.Admits valid) :
    s.scan c valid = ⟨none, s, c, [.unacceptable]⟩ := by
  rw [scan, if_neg (by simp [h]), if_neg (by simp [hm]), if_neg ha]

/-- Otherwise the end of the input is found: the token ends at the cursor, and the marker is set. -/
theorem scan_of_admits (h : Cursor.isEnd c = true) (hm : s.marked = false) (ha : s.options.Admits valid) :
    s.scan c valid =
      ⟨some .endOfInput, s.mark true, Cursor.setResult (Cursor.markEnd c) .endOfInput, [.emitted]⟩ := by
  rw [scan, if_neg (by simp [h]), if_neg (by simp [hm]), if_pos ha]

end Scan

end Scanner

end EndOfInput
