import EndOfInput.Machine
import EndOfInput.Scanner

/-!
# Sessions

Several scanners and several cursors, side by side.  Any scanner may scan at any cursor, each scanner has a record saved
for it, and a record saved for one scanner may be loaded into another.  The cursors are of any type, and are moved by
the steps of a machine of which they are the states.

* `Session.step` is one step: a session is a machine that takes steps;
* a record is saved by a successful write, and stays until the next one.
-/

namespace EndOfInput

universe u v

/-- A scanner and the record saved for it. -/
structure Slot where
  scanner : Scanner
  saved : List UInt8 := []
  deriving DecidableEq

/-- `n` scanners and `m` cursors. -/
structure Session (γ : Type u) (n m : Nat) where
  slots : Vector Slot n
  cursors : Vector γ m

namespace Session

variable {γ : Type u} {μ : Type v} {n m : Nat}

/-- A step of a session. -/
inductive Step (μ : Type v) (n m : Nat) where
  | move (c : Fin m) (move : μ)
  | scan (s : Fin n) (c : Fin m) (valid : Acceptable)
  /-- A scanner writes its record to a buffer, and what it writes is saved. -/
  | save (s : Fin n) (buffer : List UInt8)
  | load (s : Fin n) (record : List UInt8)
  /-- A scanner reads the record saved for another. -/
  | restore (s other : Fin n)
  | reset (s : Fin n)
  | setOptions (s : Fin n) (options : Options)
  /-- A scanner becomes what another is, and keeps its saved record. -/
  | clone (s other : Fin n)
  | compare (s other : Fin n)

/-- What a step answers. -/
inductive Answer where
  | scanned (result? : Option TokenKind)
  | saved (outcome : Except SizeError Filled)
  | loaded (outcome : Except RecordError Unit)
  | compared (equal : Bool)
  | done

/-- What a step gives. -/
structure Reply (γ : Type u) (n m : Nat) where
  answer : Answer
  session : Session γ n m
  log : Log

/-- The session with another scanner in one place. -/
def setScanner (x : Session γ n m) (s : Fin n) (scanner : Scanner) : Session γ n m :=
  { x with slots := x.slots.set s { x.slots[s] with scanner } }

def setSaved (x : Session γ n m) (s : Fin n) (saved : List UInt8) : Session γ n m :=
  { x with slots := x.slots.set s { x.slots[s] with saved } }

def setCursor (x : Session γ n m) (c : Fin m) (cursor : γ) : Session γ n m :=
  { x with cursors := x.cursors.set c cursor }

def scanner (x : Session γ n m) (s : Fin n) : Scanner :=
  x.slots[s].scanner

def saved (x : Session γ n m) (s : Fin n) : List UInt8 :=
  x.slots[s].saved

def cursor (x : Session γ n m) (c : Fin m) : γ :=
  x.cursors[c]

def load (x : Session γ n m) (s : Fin n) (record : List UInt8) : Reply γ n m :=
  let loaded := (x.scanner s).load record
  ⟨.loaded loaded.outcome, x.setScanner s loaded.scanner, loaded.log⟩

def step [Cursor γ] [Machine γ μ γ] (x : Session γ n m) : Step μ n m → Reply γ n m
  | .move c move => ⟨.done, x.setCursor c (Machine.next (x.cursor c) move), []⟩
  | .scan s c valid =>
    let scanned := (x.scanner s).scan (x.cursor c) valid
    ⟨.scanned scanned.result?, (x.setScanner s scanned.scanner).setCursor c scanned.cursor, scanned.log⟩
  | .save s buffer =>
    match (x.scanner s).saveTo buffer with
    | .ok filled => ⟨.saved (.ok filled), x.setSaved s filled.record, []⟩
    | .error error => ⟨.saved (.error error), x, []⟩
  | .load s record => x.load s record
  | .restore s other => x.load s (x.saved other)
  | .reset s => ⟨.done, x.setScanner s (x.scanner s).reset, []⟩
  | .setOptions s options => ⟨.done, x.setScanner s ((x.scanner s).setOptions options), []⟩
  | .clone s other => ⟨.done, x.setScanner s (x.scanner other), []⟩
  | .compare s other => ⟨.compared (x.scanner s = x.scanner other), x, []⟩

instance [Cursor γ] [Machine γ μ γ] : Machine (Session γ n m) (Step μ n m) (Reply γ n m) where
  reply := step
  next x step := (x.step step).session

/-- A step of a run, with the session before it and what it gave. -/
abbrev Entry (γ : Type u) (μ : Type v) (n m : Nat) := Machine.Entry (Session γ n m) (Step μ n m) (Reply γ n m)

@[simp] theorem reply_eq [Cursor γ] [Machine γ μ γ] (x : Session γ n m) (step : Step μ n m) :
    Machine.reply x step = x.step step := rfl

@[simp] theorem next_eq [Cursor γ] [Machine γ μ γ] (x : Session γ n m) (step : Step μ n m) :
    Machine.next x step = (x.step step).session := rfl

/-! ### Reading a session after a change -/

theorem scanner_setScanner (x : Session γ n m) (s t : Fin n) (scanner : Scanner) :
    (x.setScanner s scanner).scanner t = if s = t then scanner else x.scanner t := by
  simp only [Session.scanner, setScanner, Fin.getElem_fin, Vector.getElem_set, ← Fin.ext_iff]
  split <;> rfl

theorem saved_setScanner (x : Session γ n m) (s t : Fin n) (scanner : Scanner) :
    (x.setScanner s scanner).saved t = x.saved t := by
  simp only [saved, setScanner, Fin.getElem_fin, Vector.getElem_set, ← Fin.ext_iff]
  split
  · rename_i h; subst h; rfl
  · rfl

theorem scanner_setSaved (x : Session γ n m) (s t : Fin n) (record : List UInt8) :
    (x.setSaved s record).scanner t = x.scanner t := by
  simp only [scanner, setSaved, Fin.getElem_fin, Vector.getElem_set, ← Fin.ext_iff]
  split
  · rename_i h; subst h; rfl
  · rfl

theorem saved_setSaved (x : Session γ n m) (s t : Fin n) (record : List UInt8) :
    (x.setSaved s record).saved t = if s = t then record else x.saved t := by
  simp only [Session.saved, setSaved, Fin.getElem_fin, Vector.getElem_set, ← Fin.ext_iff]
  split <;> rfl

theorem cursor_setCursor (x : Session γ n m) (c d : Fin m) (cursor : γ) :
    (x.setCursor c cursor).cursor d = if c = d then cursor else x.cursor d := by
  simp only [Session.cursor, setCursor, Fin.getElem_fin, Vector.getElem_set, ← Fin.ext_iff]

end Session

end EndOfInput
