import EndOfInput.Lexer
import EndOfInput.Machine
import EndOfInput.Scanner

/-!
# Calls of an engine

A parsing engine keeps its scanners behind handles and drives them by five calls.  A handle may be null, and so may
the lexer, the buffer and the flags of a call; the handle of a scanner that was destroyed counts as null from then
on.  A call that lacks what it needs does nothing.  Between two calls the engine may use its lexers as it likes.

* `Engine.call` is one call, and `Engine.step` one step: an engine is a machine that takes steps;
* (null handles) `Engine.call_save_of_null`, `Engine.call_load_of_null`, `Engine.call_scan_of_null`.
-/

namespace EndOfInput

universe u

/-- The number of a scanner, or null. -/
abbrev Handle := Option Nat

/-- The buffer that an engine offers for a record. -/
abbrev Buffer := Vector UInt8 bufferSize

/-- The scanners of an engine, and the lexers that it passes to them. -/
structure Engine (η : Type u) where
  /-- The scanners in the order in which they were created, without those that were destroyed. -/
  scanners : List (Option Scanner) := []
  lexers : List η

namespace Engine

variable {η : Type u}

/-- A call. -/
inductive Call where
  | create
  | destroy (h : Handle)
  /-- A scanner writes its record to a buffer. -/
  | save (h : Handle) (buffer? : Option Buffer)
  /-- A scanner reads a record from the first `length` bytes of a buffer. -/
  | load (h : Handle) (buffer? : Option (List UInt8)) (length : Nat)
  /-- A scanner looks for a token at a lexer. -/
  | scan (h : Handle) (lexer? : Option Nat) (flags? : Option (List Bool))
  deriving DecidableEq

/-- What a step answers. -/
inductive Answer where
  | created (k : Nat)
  /-- The number of bytes written, and the buffer after the call. -/
  | saved (count : Nat) (buffer? : Option (List UInt8))
  /-- Whether a token was found. -/
  | scanned (found : Bool)
  /-- The reply of a lexer, unless it is null. -/
  | asked (reply? : Option Cursor.Reply)
  | done
  deriving DecidableEq

/-- What a step gives. -/
structure Reply (η : Type u) where
  answer : Answer
  engine : Engine η
  log : Log

/-- The scanner behind a handle, unless it is null. -/
def scanner? (e : Engine η) (h : Handle) : Option Scanner :=
  h.bind fun k => e.scanners[k]?.join

/-- The lexer of a given number, unless it is null. -/
def lexer? (e : Engine η) (k? : Option Nat) : Option η :=
  k?.bind fun k => e.lexers[k]?

/-- The engine with another scanner, or none, behind a handle. -/
def setScanner (e : Engine η) (h : Handle) (scanner? : Option Scanner) : Engine η :=
  match h with
  | none => e
  | some k => { e with scanners := e.scanners.set k scanner? }

def setLexer (e : Engine η) (k? : Option Nat) (lexer : η) : Engine η :=
  match k? with
  | none => e
  | some k => { e with lexers := e.lexers.set k lexer }

/-- The record in the first `length` bytes of a buffer.  It is empty if there is no buffer. -/
def recordOf (buffer? : Option (List UInt8)) (length : Nat) : List UInt8 :=
  (buffer?.getD []).take length

/-- The kinds that an engine accepts: it passes one flag for each kind, or nothing if it accepts none. -/
def acceptableOf (flags? : Option (List Bool)) : Acceptable :=
  match flags? with
  | none => .empty
  | some flags => ⟨flags.take TokenKind.count⟩

def call [Lexer η] (e : Engine η) : Call → Reply η
  | .create =>
    ⟨.created e.scanners.length, { e with scanners := e.scanners ++ [some .fresh] }, []⟩
  | .destroy h =>
    match e.scanner? h with
    | none => ⟨.done, e, [.noScanner]⟩
    | some _ => ⟨.done, e.setScanner h none, []⟩
  | .save h buffer? =>
    match e.scanner? h, buffer? with
    | some s, some buffer =>
      match s.saveTo buffer.toList with
      | .ok filled => ⟨.saved filled.count (some filled.buffer), e, []⟩
      | .error error => ⟨.saved 0 (some buffer.toList), e, [.unfit error]⟩
    | _, _ => ⟨.saved 0 (buffer?.map Vector.toList), e, []⟩
  | .load h buffer? length =>
    match e.scanner? h with
    | none => ⟨.done, e, []⟩
    | some s =>
      let loaded := s.load (recordOf buffer? length)
      ⟨.done, e.setScanner h (some loaded.scanner), loaded.log⟩
  | .scan h k? flags? =>
    match e.scanner? h, e.lexer? k? with
    | some s, some lexer =>
      let scanned := s.scan lexer (acceptableOf flags?)
      ⟨.scanned scanned.result?.isSome,
        (e.setScanner h (some scanned.scanner)).setLexer k? scanned.cursor, scanned.log⟩
    | _, _ => ⟨.scanned false, e, []⟩

/-- A step of an engine. -/
inductive Step (η : Type u) where
  | call (call : Call)
  /-- Something is asked of a lexer in its role as a cursor. -/
  | ask (lexer? : Option Nat) (request : Cursor.Request)
  /-- Something else is done to a lexer. -/
  | adjust (lexer? : Option Nat) (change : η → η)

/-- One step.  A lexer that is null is left alone, and replies nothing. -/
def step [Lexer η] (e : Engine η) : Step η → Reply η
  | .call c => e.call c
  | .ask k? request =>
    match e.lexer? k? with
    | none => ⟨.asked none, e, []⟩
    | some lexer => ⟨.asked (some (Cursor.reply lexer request)), e.setLexer k? (Cursor.follow lexer request), []⟩
  | .adjust k? change =>
    match e.lexer? k? with
    | none => ⟨.done, e, []⟩
    | some lexer => ⟨.done, e.setLexer k? (change lexer), []⟩

instance [Lexer η] : Machine (Engine η) (Step η) (Reply η) where
  reply := step
  next e step := (e.step step).engine

/-- A step of a run, with the engine before it and what it gave. -/
abbrev Entry (η : Type u) := Machine.Entry (Engine η) (Step η) (Reply η)

@[simp] theorem reply_eq [Lexer η] (e : Engine η) (step : Step η) : Machine.reply e step = e.step step := rfl

@[simp] theorem next_eq [Lexer η] (e : Engine η) (step : Step η) : Machine.next e step = (e.step step).engine := rfl

/-! ### Null handles -/

section Null

variable [Lexer η] {e : Engine η} {h : Handle}

theorem call_save_of_null (hs : e.scanner? h = none) (buffer? : Option Buffer) :
    e.call (.save h buffer?) = ⟨.saved 0 (buffer?.map Vector.toList), e, []⟩ := by
  simp only [call, hs]

theorem call_load_of_null (hs : e.scanner? h = none) (buffer? : Option (List UInt8)) (length : Nat) :
    e.call (.load h buffer? length) = ⟨.done, e, []⟩ := by
  simp only [call, hs]

theorem call_scan_of_null (hs : e.scanner? h = none) (k? : Option Nat) (flags? : Option (List Bool)) :
    e.call (.scan h k? flags?) = ⟨.scanned false, e, []⟩ := by
  simp only [call, hs]

end Null

end Engine

end EndOfInput
