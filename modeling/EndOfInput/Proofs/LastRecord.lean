import EndOfInput.Lexer.Units
import EndOfInput.Proofs.Handles
import EndOfInput.Proofs.RecordFormat

/-!
# The last record wins

A scanner takes records in two ways: directly, where the caller learns whether the record was accepted, and by a call
of an engine, where the caller does not.  A record that is refused leaves the scanner as a reset does, so in both ways
nothing remains of what was there before, and the state after any number of records is that of the last one alone
(`Engine.last_record_wins`).

* (one record) `Scanner.scanner_load`: the scanner after a record, accepted or not;
* (any number) `Scanner.loadAll_append_singleton`, `Engine.Delivery.scanner?_deliverAll`: both ways come to the same;
* (writing again) `Scanner.encode_load`: the record that is then written.
-/

namespace EndOfInput

universe u

/-! ### Records for a scanner -/

namespace Scanner

/-- Loads some records, one after the other. -/
def loadAll (s : Scanner) (records : List (List UInt8)) : Scanner :=
  records.foldl (fun s record => (s.load record).scanner) s

/-- What is written after a record was loaded: the record itself if it was accepted and is not empty, and otherwise the
record of the initial state. -/
def rewritten (record : List UInt8) : List UInt8 :=
  if record ≠ [] ∧ (State.decode record).isOk then record else [0x10]

/-- After a record, accepted or not, the scanner is as after a reset but for the marker. -/
theorem scanner_load (s : Scanner) (record : List UInt8) :
    (s.load record).scanner = s.reset.mark (decide (record = [0x11])) := by
  apply Scanner.ext
  · rw [marked_load, marked_mark]
  · rw [options_load, options_mark, options_reset]

@[simp] theorem options_loadAll (s : Scanner) (records : List (List UInt8)) :
    (s.loadAll records).options = s.options := by
  induction records generalizing s with
  | nil => rfl
  | cons record records ih =>
    show ((s.load record).scanner.loadAll records).options = s.options
    rw [ih, options_load]

/-- Of several records only the last one counts, and of the scanner before it only the options. -/
theorem loadAll_append_singleton {s t : Scanner} (h : t.options = s.options) (past : List (List UInt8))
    (last : List UInt8) : s.loadAll (past ++ [last]) = (t.load last).scanner := by
  have happend : s.loadAll (past ++ [last]) = ((s.loadAll past).load last).scanner := by
    unfold loadAll
    rw [List.foldl_append, List.foldl_cons, List.foldl_nil]
  rw [happend, scanner_load, scanner_load]
  apply Scanner.ext
  · rfl
  · show (s.loadAll past).options = t.options
    rw [options_loadAll, h]

theorem outcome_load (s : Scanner) (record : List UInt8) :
    (s.load record).outcome = (State.decode record).map fun _ => () := by
  cases h : State.decode record with
  | ok state => rw [load_of_ok h]; rfl
  | error error => rw [load_of_error h]; rfl

/-- A record is refused if it is none of the three that are accepted. -/
theorem outcome_load_eq_error_iff {s : Scanner} {record : List UInt8} :
    (∃ error, (s.load record).outcome = .error error) ↔ record ≠ [] ∧ record ≠ [0x10] ∧ record ≠ [0x11] := by
  rw [← State.exists_decode_eq_error_iff, outcome_load]
  cases State.decode record with
  | ok state => simp [Except.map]
  | error error => simp [Except.map]

theorem scanner_load_of_error {s : Scanner} {record : List UInt8} {error : RecordError}
    (h : (s.load record).outcome = .error error) : (s.load record).scanner = s.reset := by
  obtain ⟨-, -, hne⟩ := outcome_load_eq_error_iff.mp ⟨error, h⟩
  rw [scanner_load, decide_eq_false hne]
  rfl

/-- What is written after a record was loaded. -/
theorem encode_load (s : Scanner) (record : List UInt8) :
    (s.load record).scanner.state.encode = rewritten record := by
  cases h : State.decode record with
  | error error =>
    rw [load_of_error h, rewritten, h, if_neg fun hok => Bool.false_ne_true hok.2, State.encode_eq]
    rfl
  | ok state =>
    rw [load_of_ok h, rewritten, h]
    rcases State.decode_eq_ok_iff.mp h with ⟨rfl, rfl⟩ | rfl
    · rw [if_neg fun hok => hok.1 rfl, State.encode_eq]
      rfl
    · rw [if_pos ⟨state.encode_ne_nil, rfl⟩]

/-- A record that was just written loads back and changes nothing. -/
theorem load_encode (s : Scanner) : s.load s.state.encode = ⟨.ok (), s, [.reading s.state.encode]⟩ :=
  load_of_ok (State.decode_encode s.state) s

theorem saveTo_cons (s : Scanner) (b : UInt8) (rest : List UInt8) :
    s.saveTo (b :: rest) = .ok ⟨1, s.state.encode ++ rest⟩ :=
  State.writeTo_cons s.state b rest

end Scanner

/-! ### Records for a scanner behind a handle -/

namespace Engine

variable {η : Type u} {e : Engine η} {h : Handle} {s : Scanner}

/-- A record on its way to a scanner. -/
inductive Delivery where
  /-- By a caller that holds the scanner itself. -/
  | direct (record : List UInt8)
  /-- By a call: the first `length` bytes of a buffer, and an empty record if there is no buffer. -/
  | call (buffer? : Option (List UInt8)) (length : Nat)
  deriving DecidableEq

def Delivery.record : Delivery → List UInt8
  | .direct record => record
  | .call none _ => []
  | .call (some buffer) length => buffer.take length

/-- What the sender of a record learns.  A call drops the outcome. -/
def Delivery.learned (d : Delivery) (outcome : Except RecordError Unit) : Option (Except RecordError Unit) :=
  match d with
  | .direct _ => some outcome
  | .call _ _ => none

/-- What a delivery gives. -/
structure Delivered (η : Type u) where
  outcome? : Option (Except RecordError Unit)
  engine : Engine η

variable [Lexer η]

/-- Delivers a record to the scanner behind a handle. -/
def deliver (e : Engine η) (h : Handle) : Delivery → Delivered η
  | .direct record =>
    match e.scanner? h with
    | none => ⟨none, e⟩
    | some s => ⟨some (s.load record).outcome, e.setScanner h (some (s.load record).scanner)⟩
  | .call buffer? length => ⟨none, (e.call (.load h buffer? length)).engine⟩

def deliverAll (e : Engine η) (h : Handle) (deliveries : List Delivery) : Engine η :=
  deliveries.foldl (fun e d => (e.deliver h d).engine) e

omit [Lexer η] in
theorem scanner?_setScanner (hs : e.scanner? h = some s) (t : Scanner) :
    (e.setScanner h (some t)).scanner? h = some t := by
  cases h with
  | none => cases hs
  | some k =>
    obtain ⟨hk, -⟩ := List.getElem?_eq_some_iff.mp (scanner?_eq_some_iff.mp hs)
    exact scanner?_eq_some_iff.mpr (List.getElem?_set_self hk)

omit [Lexer η] in
theorem setScanner_self (hs : e.scanner? h = some s) : e.setScanner h (some s) = e := by
  have hscanners := scanners_setScanner_self hs
  cases h with
  | none => rfl
  | some k => exact congrArg (fun scanners => { e with scanners }) hscanners

theorem call_load_eq (hs : e.scanner? h = some s) (buffer? : Option (List UInt8)) (length : Nat) :
    e.call (.load h buffer? length) = ⟨.done, e.setScanner h (some (s.load (recordOf buffer? length)).scanner),
      (s.load (recordOf buffer? length)).log⟩ := by
  simp only [call, hs]

/-- The buffer of an engine has room for a record. -/
theorem call_save_eq (hs : e.scanner? h = some s) (buffer : Buffer) :
    e.call (.save h (some buffer)) = ⟨.saved 1 (some (s.state.encode ++ buffer.toList.tail)), e, []⟩ := by
  obtain ⟨b, rest, hbuffer⟩ : ∃ b rest, buffer.toList = b :: rest := by
    apply List.exists_cons_of_length_pos
    rw [Vector.length_toList]
    decide
  simp only [call, hs, hbuffer, Scanner.saveTo_cons, List.tail_cons]

/-- A scanner reads what it wrote to the front of a buffer, and nothing of the engine changes. -/
theorem call_load_of_saved (hs : e.scanner? h = some s) (rest : List UInt8) :
    (e.call (.load h (some (s.state.encode ++ rest)) 1)).engine = e := by
  -- the first byte of the buffer is what was written
  have hrecord : recordOf (some (s.state.encode ++ rest)) 1 = s.state.encode := rfl
  rw [call_load_eq hs, hrecord, Scanner.load_encode]
  exact setScanner_self hs

omit [Lexer η] in
theorem recordOf_eq (buffer? : Option (List UInt8)) (length : Nat) :
    recordOf buffer? length = (Delivery.call buffer? length).record := by
  cases buffer? with
  | none => exact List.take_nil
  | some buffer => rfl

/-- In either way the scanner loads the record, and nothing else of the engine changes. -/
theorem deliver_eq (hs : e.scanner? h = some s) (d : Delivery) :
    e.deliver h d = ⟨d.learned (s.load d.record).outcome, e.setScanner h (some (s.load d.record).scanner)⟩ := by
  cases d with
  | direct record =>
    simp only [deliver, hs]
    rfl
  | call buffer? length =>
    rw [deliver, call_load_eq hs, recordOf_eq]
    rfl

theorem scanner?_deliverAll (hs : e.scanner? h = some s) (deliveries : List Delivery) :
    (e.deliverAll h deliveries).scanner? h = some (s.loadAll (deliveries.map Delivery.record)) := by
  induction deliveries generalizing e s with
  | nil => exact hs
  | cons d deliveries ih =>
    have hd : (e.deliver h d).engine.scanner? h = some (s.load d.record).scanner := by
      rw [deliver_eq hs]
      exact scanner?_setScanner hs _
    exact ih hd

theorem deliverAll_append_singleton (e : Engine η) (h : Handle) (past : List Delivery) (last : Delivery) :
    e.deliverAll h (past ++ [last]) = ((e.deliverAll h past).deliver h last).engine := by
  unfold deliverAll
  rw [List.foldl_append, List.foldl_cons, List.foldl_nil]

/-! ### The law -/

/-- The last record wins.  A scanner behind a handle takes some records, directly or by calls, and then one more.  Its
options stay, and its marker is set if the last record is that of the set marker, and clear if not.  The last load fails
if the record is none of the three accepted ones, which is learned only by who delivered it directly, and then the
scanner is as it was before, but reset.  What is written next is the last record if it was accepted and is not empty,
and the record of the initial state if not, and to load that again changes nothing. -/
theorem last_record_wins (hs : e.scanner? h = some s) (past : List Delivery) (last : Delivery) :
    let before := s.loadAll (past.map Delivery.record)
    let after := s.loadAll ((past ++ [last]).map Delivery.record)
    let delivered := (e.deliverAll h past).deliver h last
    let written := Scanner.rewritten last.record
    (e.deliverAll h past).scanner? h = some before ∧
    delivered.engine = e.deliverAll h (past ++ [last]) ∧ delivered.engine.scanner? h = some after ∧
    delivered.outcome? = last.learned (before.load last.record).outcome ∧
    after.options = s.options ∧ (after.marked = true ↔ last.record = [0x11]) ∧
    ((∃ error, (before.load last.record).outcome = .error error) ↔
      last.record ≠ [] ∧ last.record ≠ [0x10] ∧ last.record ≠ [0x11]) ∧
    (∀ error, (before.load last.record).outcome = .error error → after = before.reset) ∧
    after.load written = ⟨.ok (), after, [.reading written]⟩ ∧
    (∀ (b : UInt8) (rest : List UInt8), after.saveTo (b :: rest) = .ok ⟨1, written ++ rest⟩ ∧
      (delivered.engine.call (.load h (some (written ++ rest)) 1)).engine = delivered.engine) ∧
    ∀ buffer : Buffer, delivered.engine.call (.save h (some buffer)) =
      ⟨.saved 1 (some (written ++ buffer.toList.tail)), delivered.engine, []⟩ := by
  intro before after delivered written
  have hbefore : (e.deliverAll h past).scanner? h = some before := scanner?_deliverAll hs past
  have hdelivered : delivered.engine = e.deliverAll h (past ++ [last]) :=
    (deliverAll_append_singleton e h past last).symm
  have hafter : delivered.engine.scanner? h = some after := by
    rw [hdelivered]
    exact scanner?_deliverAll hs _
  have hlast : ∀ t : Scanner, t.options = s.options → after = (t.load last.record).scanner := by
    intro t ht
    show s.loadAll ((past ++ [last]).map Delivery.record) = _
    rw [List.map_append, List.map_singleton, Scanner.loadAll_append_singleton ht]
  have hwritten : written = after.state.encode := by
    rw [hlast s rfl]
    exact (Scanner.encode_load s last.record).symm
  refine ⟨hbefore, hdelivered, hafter, ?_, Scanner.options_loadAll _ _, ?_, Scanner.outcome_load_eq_error_iff, ?_, ?_,
    ?_, ?_⟩
  · show ((e.deliverAll h past).deliver h last).outcome? = _
    rw [deliver_eq hbefore]
  · rw [hlast s rfl, Scanner.marked_load, decide_eq_true_iff]
  · intro error herror
    rw [hlast before (Scanner.options_loadAll _ _)]
    exact Scanner.scanner_load_of_error herror
  · rw [hwritten]
    exact after.load_encode
  · intro b rest
    rw [hwritten]
    exact ⟨after.saveTo_cons b rest, call_load_of_saved hafter rest⟩
  · rw [hwritten]
    exact call_save_eq hafter

/-- A scanner whose marker is set takes the record of the set marker, and then by a call a longer one that begins with
it. -/
theorem cleared_by_refused_record :
    let s : Scanner := ⟨{ marked := true }, { honorAcceptable := false }⟩
    let e : Engine UnitLexer := { scanners := [none, some s], lexers := [] }
    let past : List Delivery := [.call none 3, .direct [0x11]]
    let last : Delivery := .call (some [0x11, 0x00, 0x11]) 2
    e.scanner? (some 1) = some s ∧
      (e.deliverAll (some 1) past).scanner? (some 1) = some s ∧
      (e.deliverAll (some 1) (past ++ [last])).scanner? (some 1) = some s.reset ∧
      (∃ error, (s.load last.record).outcome = .error error) ∧
      s.reset.saveTo [0xAA, 0xAA] = .ok ⟨1, [0x10, 0xAA]⟩ ∧
      ∀ buffer, ((e.deliverAll (some 1) (past ++ [last])).call (.save (some 1) (some buffer))).answer =
        .saved 1 (some (0x10 :: buffer.toList.tail)) := by
  intro s e past last
  have hs : e.scanner? (some 1) = some s := rfl
  obtain ⟨hbefore, hdelivered, hafter, -, -, -, herror, -, -, hsave, hcall⟩ := last_record_wins hs past last
  rw [hdelivered] at hafter hcall
  exact ⟨hs, hbefore, hafter, herror.mpr (by decide), (hsave 0xAA [0xAA]).1, fun buffer => by rw [hcall buffer]; rfl⟩

end Engine

end EndOfInput
