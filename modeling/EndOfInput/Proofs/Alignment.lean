import EndOfInput.Cursor.Bytes
import EndOfInput.Lexer.Units
import EndOfInput.Machine
import EndOfInput.Proofs.Scan
import EndOfInput.Proofs.Utf8.Encoding

/-!
# Lexers and byte cursors agree

A scanner cannot tell a lexer over code units from a byte cursor over the encoding of the text that the units are
shown as (`Probed.run_eq`).  The two are aligned as long as each offset of the byte cursor is that of the character
at the lexer's, and every probe keeps them aligned: where the lexer moves past one unit the byte cursor moves past
the bytes of one character, and both stay at the end.

* (the text) `getD_scalar?`: a lexer shows each unit as the character that the text has for it;
* (one probe) `Probed.Agree.step`: aligned cursors give the same reply to a probe, and stay aligned.
-/

namespace EndOfInput

universe u

open Machine Utf8

/-! ### Probes -/

/-- What is done at a cursor: something is asked of it, or a scanner looks for a token there. -/
inductive Probe where
  | lookahead
  | isEnd
  | advance (skip : Bool)
  | markEnd
  | setResult (kind : TokenKind)
  | scan (valid : Acceptable)
  deriving DecidableEq

inductive Probe.Reply where
  | lookahead (char? : Option Char)
  | isEnd (flag : Bool)
  | scanned (result? : Option TokenKind) (log : Log)
  | done
  deriving DecidableEq

/-- A scanner and the cursor at which it is probed. -/
structure Probed (γ : Type u) where
  scanner : Scanner
  cursor : γ

namespace Probed

variable {γ : Type u} [Cursor γ]

def step (x : Probed γ) : Probe → Probe.Reply × Probed γ
  | .lookahead => (.lookahead (Cursor.lookahead? x.cursor), x)
  | .isEnd => (.isEnd (Cursor.isEnd x.cursor), x)
  | .advance skip => (.done, { x with cursor := Cursor.advance x.cursor skip })
  | .markEnd => (.done, { x with cursor := Cursor.markEnd x.cursor })
  | .setResult kind => (.done, { x with cursor := Cursor.setResult x.cursor kind })
  | .scan valid =>
    let scanned := x.scanner.scan x.cursor valid
    (.scanned scanned.result? scanned.log, ⟨scanned.scanner, scanned.cursor⟩)

instance : Machine (Probed γ) Probe Probe.Reply where
  reply x probe := (x.step probe).1
  next x probe := (x.step probe).2

end Probed

/-! ### The text of code units -/

/-- A code unit that is no Unicode scalar value: it is negative, a surrogate, or above U+10FFFF. -/
def NoScalar (unit : Int32) : Prop :=
  unit.toInt < 0 ∨ 0xD800 ≤ unit.toInt ∧ unit.toInt ≤ 0xDFFF ∨ 0x10FFFF < unit.toInt

instance (unit : Int32) : Decidable (NoScalar unit) :=
  inferInstanceAs (Decidable (_ ∨ _))

/-- The character that a code unit is shown as. -/
def shownAs (unit : Int32) : Char :=
  if NoScalar unit then '\uFFFD' else Char.ofNat unit.toInt.toNat

/-- The text that code units are shown as. -/
def shown (units : List Int32) : List Char :=
  units.map shownAs

theorem noScalar_iff {unit : Int32} : NoScalar unit ↔ ∀ c : Char, unit.toInt ≠ c.toNat := by
  unfold NoScalar
  constructor
  · intro h c hc
    have hvalid : c.toNat < 0xD800 ∨ 0xDFFF < c.toNat ∧ c.toNat < 0x110000 := c.valid
    omega
  · intro h
    apply Decidable.byContradiction
    intro hscalar
    have hvalid : unit.toInt.toNat.isValidChar := by
      unfold Nat.isValidChar
      omega
    apply h (Char.ofNat unit.toInt.toNat)
    rw [toNat_ofNat hvalid]
    omega

/-- A lexer tells the units that are scalar values from those that are none. -/
theorem getD_scalar? (unit : Int32) : (scalar? unit).getD replacement = shownAs unit := by
  unfold shownAs
  cases h : scalar? unit with
  | none =>
    have hnone : NoScalar unit := by
      rw [noScalar_iff]
      intro c hc
      rw [← scalar?_eq_some_iff, h] at hc
      cases hc
    rw [if_pos hnone]
    rfl
  | some c =>
    have hc : unit.toInt = c.toNat := scalar?_eq_some_iff.mp h
    rw [if_neg fun hnone => noScalar_iff.mp hnone c hc, hc, Int.toNat_natCast, Char.ofNat_toNat]
    rfl

/-! ### Aligned cursors -/

/-- A lexer without overrides and a byte cursor at the same place of the same text, with the same mark and result. -/
structure Aligned (units : List Int32) (l : UnitLexer) (c : ByteCursor) : Prop where
  text : l.units = units
  isEnd? : l.isEnd? = none
  bound : l.position ≤ units.length
  input : c.input = encode (shown units)
  position : c.position = offset (shown units) l.position
  mark : c.markedEnd? = l.mark?.map (offset (shown units))
  symbol : l.symbol = (c.result?.map TokenKind.symbol).getD 0xFFFF

namespace Aligned

/-- A lexer and a byte cursor that are placed before the same character are aligned. -/
theorem atOffset (units : List Int32) (i : Nat) :
    Aligned units (.atOffset units i) (.atOffset (encode (shown units)) (offset (shown units) i)) where
  text := rfl
  isEnd? := rfl
  bound := Nat.min_le_right _ _
  input := rfl
  position := by
    show min (offset (shown units) i) (encode (shown units)).length = offset (shown units) (min i units.length)
    have hlen : (shown units).length = units.length := List.length_map _
    rw [Nat.min_eq_left (offset_le _ _)]
    by_cases h : i ≤ units.length
    · rw [Nat.min_eq_left h]
    · rw [Nat.min_eq_right (by omega), offset_of_le (by omega), offset_of_le (by omega)]
  mark := rfl
  symbol := rfl

variable {units : List Int32} {l : UnitLexer} {c : ByteCursor}

theorem first?_rest (h : Aligned units l c) :
    first? c.rest = (shown units)[l.position]?.map fun ch => ⟨String.utf8EncodeChar ch, some ch⟩ := by
  rw [ByteCursor.rest, h.input, h.position, first?_drop_offset]

theorem lexer_isEnd (h : Aligned units l c) : l.isEnd = decide (units.length ≤ l.position) := by
  rw [UnitLexer.isEnd, h.isEnd?, h.text, Option.getD_none]

theorem isEnd_eq (h : Aligned units l c) : l.isEnd = c.isEnd := by
  have hend : c.isEnd = true ↔ units.length ≤ l.position := by
    rw [← ByteCursor.rest_eq_nil_iff, ← first?_eq_none_iff, h.first?_rest, Option.map_eq_none_iff,
      List.getElem?_eq_none_iff, shown, List.length_map]
  rw [h.lexer_isEnd, Bool.eq_iff_iff, decide_eq_true_iff, hend]

theorem lookahead?_eq (h : Aligned units l c) : Cursor.lookahead? l = c.lookahead? := by
  have hl : Cursor.lookahead? l = if l.isEnd then none else some ((scalar? l.unit).getD replacement) := rfl
  have hget : (shown units)[l.position]? = units[l.position]?.map shownAs := List.getElem?_map
  rw [hl, getD_scalar?, h.lexer_isEnd, ByteCursor.lookahead?, h.first?_rest, hget, UnitLexer.unit, h.text]
  by_cases he : units.length ≤ l.position
  · rw [List.getElem?_eq_none he, if_pos (decide_eq_true he)]
    rfl
  · rw [List.getElem?_eq_getElem (by omega), if_neg (by simpa using he)]
    rfl

theorem advance (h : Aligned units l c) (skip : Bool) : Aligned units (l.advance skip) (c.advance skip) := by
  have hbound := h.bound
  have hlen : (shown units).length = units.length := List.length_map _
  have hpos : (l.advance skip).position = min (l.position + 1) units.length := by rw [← h.text]; rfl
  by_cases he : l.position < units.length
  · have hch : (shown units)[l.position]? = some (shown units)[l.position] := List.getElem?_eq_getElem (by omega)
    have hp : (l.advance skip).position = l.position + 1 := by omega
    -- the byte cursor moves past the encoding of the character at the lexer
    have hadv : c.advance skip =
        { c with
          position := offset (shown units) (l.position + 1)
          tokenStart := if skip then offset (shown units) (l.position + 1) else c.tokenStart } := by
      rw [ByteCursor.advance, h.first?_rest, hch, offset_succ hch, ← h.position]
      rfl
    rw [hadv]
    refine ⟨h.text, h.isEnd?, by omega, h.input, ?_, h.mark, h.symbol⟩
    rw [hp]
  · have hend : c.isEnd = true := by
      rw [← h.isEnd_eq, h.lexer_isEnd]
      exact decide_eq_true (by omega)
    -- neither moves
    have hp : (l.advance skip).position = l.position := by omega
    rw [ByteCursor.advance_of_isEnd hend]
    refine ⟨h.text, h.isEnd?, by omega, h.input, ?_, h.mark, h.symbol⟩
    rw [hp, h.position]

theorem markEnd (h : Aligned units l c) : Aligned units l.markEnd c.markEnd :=
  ⟨h.text, h.isEnd?, h.bound, h.input, h.position, congrArg some h.position, h.symbol⟩

theorem setResult (h : Aligned units l c) (kind : TokenKind) :
    Aligned units (l.setSymbol kind.symbol) (c.setResult kind) :=
  ⟨h.text, h.isEnd?, h.bound, h.input, h.position, h.mark, rfl⟩

end Aligned

/-! ### The same replies -/

namespace Probed

structure Agree (units : List Int32) (x : Probed UnitLexer) (y : Probed ByteCursor) : Prop where
  scanner : x.scanner = y.scanner
  cursor : Aligned units x.cursor y.cursor

variable {units : List Int32}

theorem Agree.scan {x : Probed UnitLexer} {y : Probed ByteCursor} (h : Agree units x y) (valid : Acceptable) :
    (x.step (.scan valid)).1 = (y.step (.scan valid)).1 ∧
      Agree units (x.step (.scan valid)).2 (y.step (.scan valid)).2 := by
  obtain ⟨s, l⟩ := x
  obtain ⟨t, c⟩ := y
  obtain ⟨rfl, hc⟩ : s = t ∧ Aligned units l c := ⟨h.scanner, h.cursor⟩
  obtain ⟨hr, hs, hl⟩ := Scanner.scan_congr (c := l) (d := c) hc.isEnd_eq s valid
  refine ⟨?_, hs, ?_⟩
  · show Probe.Reply.scanned _ _ = Probe.Reply.scanned _ _
    rw [hr, hl]
  · show Aligned units (s.scan l valid).cursor (s.scan c valid).cursor
    rw [Scanner.cursor_scan, Scanner.cursor_scan, hr]
    split
    · exact hc.markEnd.setResult .endOfInput
    · exact hc

/-- Aligned cursors give the same reply to a probe, and stay aligned. -/
theorem Agree.step {x : Probed UnitLexer} {y : Probed ByteCursor} (h : Agree units x y) (probe : Probe) :
    (x.step probe).1 = (y.step probe).1 ∧ Agree units (x.step probe).2 (y.step probe).2 := by
  cases probe with
  | lookahead => exact ⟨congrArg Probe.Reply.lookahead h.cursor.lookahead?_eq, h⟩
  | isEnd => exact ⟨congrArg Probe.Reply.isEnd h.cursor.isEnd_eq, h⟩
  | advance skip => exact ⟨rfl, h.scanner, h.cursor.advance skip⟩
  | markEnd => exact ⟨rfl, h.scanner, h.cursor.markEnd⟩
  | setResult kind => exact ⟨rfl, h.scanner, h.cursor.setResult kind⟩
  | scan valid => exact h.scan valid

theorem Agree.run {x : Probed UnitLexer} {y : Probed ByteCursor} (h : Agree units x y) (probes : List Probe) :
    Machine.run x probes = Machine.run y probes ∧ Agree units (after x probes) (after y probes) :=
  simulation_of_same_steps (fun probe _ _ h => h.step probe) h probes

/-- A lexer over code units and a byte cursor over the encoding of the text that they are shown as, both placed before
the same character, give the same replies to every sequence of probes.  After each probe the scanners are equal, the
byte cursor's position and marked end are the offsets of the lexer's position and mark, and the lexer's symbol is
that of the byte cursor's result. -/
theorem run_eq (s : Scanner) (units : List Int32) (i : Nat) (probes : List Probe) :
    let text := shown units
    let x : Probed UnitLexer := ⟨s, .atOffset units i⟩
    let y : Probed ByteCursor := ⟨s, .atOffset (encode text) (offset text i)⟩
    run x probes = run y probes ∧
      ∀ n,
        let x' := after x (probes.take n)
        let y' := after y (probes.take n)
        x'.scanner = y'.scanner ∧
          y'.cursor.position = offset text x'.cursor.position ∧
          y'.cursor.markedEnd? = x'.cursor.mark?.map (offset text) ∧
          x'.cursor.symbol = (y'.cursor.result?.map TokenKind.symbol).getD 0xFFFF := by
  intro text x y
  have h : Agree units x y := ⟨rfl, Aligned.atOffset units i⟩
  refine ⟨(h.run probes).1, fun n => ?_⟩
  obtain ⟨-, hs, hc⟩ := h.run (probes.take n)
  exact ⟨hs, hc.position, hc.mark, hc.symbol⟩

/-- Units below, between and above the characters, a null character, and an advance past the end. -/
theorem run_eq_of_unshown_units :
    let units : List Int32 := [-1, 0, 0xD800, 0x110000, 0x1F600]
    let text := shown units
    let x : Probed UnitLexer := ⟨.fresh, .atOffset units 0⟩
    let y : Probed ByteCursor := ⟨.fresh, .atOffset (encode text) (offset text 0)⟩
    let pass : List Probe := [.lookahead, .advance false]
    let probes := pass ++ pass ++ pass ++ pass ++ pass ++ [.advance true, .scan .all]
    text = ['\uFFFD', '\x00', '\uFFFD', '\uFFFD', Char.ofNat 0x1F600] ∧
      run x probes = run y probes ∧
      (run x probes).filter (· ≠ .done) = text.map (fun c => .lookahead (some c)) ++
        [.scanned (some .endOfInput) [.emitted]] := by
  intro units text x y pass probes
  exact ⟨by decide, (run_eq .fresh units 0 probes).1, by decide⟩

end Probed

end EndOfInput
