import EndOfInput.Engine
import EndOfInput.Lexer.Units
import EndOfInput.Scanner.Run

/-!
# Scanners behind handles

An engine that drives many scanners by calls gets from each of them what it would get from a scanner of its own
(`Engine.uses_isolated`).  A scanner is used by the calls with its handle, from its creation to its destruction, that
lack neither a buffer nor a lexer.  All other calls but the creations and destructions do nothing.

* (one call) `Engine.call_of_op?_eq_some`, `Engine.call_of_op?_eq_none` and `Engine.call_of_scanner?_eq_none` say what
  a call does to the scanner behind its handle: it is used, it is left alone, or it is not there;
* (the table of scanners) `Engine.Holds`: what an engine holds for a scanner that is ahead, present, or gone.
-/

namespace EndOfInput.Engine

universe u

open Machine

variable {η : Type u}

/-! ### What is seen of a step -/

/-- What a call shows to the engine: its answer, the lexer that was passed to it as it is afterwards, and the log. -/
structure Seen (η : Type u) where
  answer : Answer
  lexer? : Option η
  log : Log

def Step.passed? : Step η → Option Nat
  | .call (.scan _ k? _) => k?
  | _ => none

def Entry.seen (x : Entry η) : Seen η :=
  ⟨x.reply.answer, x.reply.engine.lexer? x.step.passed?, x.reply.log⟩

/-- What an operation on a scanner of one's own shows.  The reason why a record was not written or was refused is not
answered; the log tells it. -/
def Seen.ofEntry (x : Scanner.Entry η) : Seen η :=
  match x.step, x.reply.answer with
  | _, .scanned result? cursor => ⟨.scanned result?.isSome, some cursor, x.reply.log⟩
  | _, .saved (.ok filled) => ⟨.saved filled.count (some filled.buffer), none, x.reply.log⟩
  | .save buffer, .saved (.error error) => ⟨.saved 0 (some buffer), none, x.reply.log ++ [.unfit error]⟩
  | _, _ => ⟨.done, none, x.reply.log⟩

/-! ### Calls -/

/-- The handle of a call.  A creation has none. -/
def Call.handle : Call → Handle
  | .create => none
  | .destroy h | .save h _ | .load h _ _ | .scan h _ _ => h

/-- The operation that a call asks of the scanner behind its handle, unless it lacks a buffer to write to or a lexer.
A record is the first bytes of the buffer, and of the flags the first one counts. -/
def Call.op? (e : Engine η) : Call → Option (Scanner.Op η)
  | .save _ (some buffer) => some (.save buffer.toList)
  | .load _ none _ => some (.load [])
  | .load _ (some buffer) length => some (.load (buffer.take length))
  | .scan _ k? none => (e.lexer? k?).map fun lexer => .scan lexer .empty
  | .scan _ k? (some flags) => (e.lexer? k?).map fun lexer => .scan lexer ⟨flags.take 1⟩
  | _ => none

theorem Call.ne_create_of_handle {c : Call} {k : Nat} (h : c.handle = some k) : c ≠ .create := by
  rintro rfl
  cases h

/-- The answer of a call that does nothing. -/
def Call.nothing : Call → Answer
  | .save _ buffer? => .saved 0 (buffer?.map Vector.toList)
  | .scan _ _ _ => .scanned false
  | _ => .done

/-- The log of a call that does nothing. -/
def Call.nothingLog : Call → Log
  | .destroy _ => [.noScanner]
  | _ => []

/-! ### Lives -/

/-- How far the life of a scanner has come. -/
inductive Life where
  /-- So many others are created before it. -/
  | ahead (others : Nat)
  | present
  | gone
  deriving DecidableEq

def Life.created : Life → Life
  | .ahead 0 => .present
  | .ahead (n + 1) => .ahead n
  | life => life

def Life.destroyed : Life → Life
  | .present => .gone
  | life => life

/-- The life of scanner `k` after a step. -/
def Life.after (k : Nat) (life : Life) : Step η → Life
  | .call .create => life.created
  | .call (.destroy (some j)) => if j = k then life.destroyed else life
  | _ => life

/-- How far the life of scanner `k` has come after some entries. -/
def lifeAfter (k : Nat) (past : List (Entry η)) : Life :=
  past.foldl (fun life x => life.after k x.step) (.ahead k)

def Present (past : List (Entry η)) (h : Handle) : Prop :=
  ∃ k, h = some k ∧ lifeAfter k past = .present

/-- The number of creations. -/
def creations (past : List (Entry η)) : Nat :=
  past.countP fun x => x.step matches .call .create

/-- A call that lacks its scanner, its buffer or its lexer. -/
def Lacks (past : List (Entry η)) (e : Engine η) : Call → Prop
  | .create => False
  | .destroy h | .load h _ _ => ¬Present past h
  | .save h buffer? => ¬Present past h ∨ buffer? = none
  | .scan h k? _ => ¬Present past h ∨ e.lexer? k? = none

/-- The operation that a step is for scanner `k`, if the scanner is present and the step is a call on it. -/
def Life.op? (k : Nat) (e : Engine η) : Life → Step η → Option (Scanner.Op η)
  | .present, .call c => if c.handle = some k then c.op? e else none
  | _, _ => none

/-- An operation on a scanner, with what was seen of it. -/
structure Use (η : Type u) where
  op : Scanner.Op η
  seen : Seen η

def usesFrom (k : Nat) (life : Life) : List (Entry η) → List (Use η)
  | [] => []
  | x :: xs =>
    match life.op? k x.before x.step with
    | some op => ⟨op, x.seen⟩ :: usesFrom k (life.after k x.step) xs
    | none => usesFrom k (life.after k x.step) xs

/-- The uses of scanner `k` in a run, in order. -/
def uses (k : Nat) (entries : List (Entry η)) : List (Use η) :=
  usesFrom k (.ahead k) entries

/-! ### What a call does -/

theorem lexer?_setScanner (e : Engine η) (h : Handle) (s? : Option Scanner) (k? : Option Nat) :
    (e.setScanner h s?).lexer? k? = e.lexer? k? := by
  cases h <;> rfl

theorem scanners_setLexer (e : Engine η) (k? : Option Nat) (l : η) : (e.setLexer k? l).scanners = e.scanners := by
  cases k? <;> rfl

theorem lexer?_setLexer {e : Engine η} {k? : Option Nat} {l : η} (h : e.lexer? k? = some l) (l' : η) :
    (e.setLexer k? l').lexer? k? = some l' := by
  cases k? with
  | none => cases h
  | some k =>
    obtain ⟨hk, -⟩ := List.getElem?_eq_some_iff.mp (show e.lexers[k]? = some l from h)
    exact List.getElem?_set_self hk

theorem scanner?_eq_some_iff {e : Engine η} {k : Nat} {s : Scanner} :
    e.scanner? (some k) = some s ↔ e.scanners[k]? = some (some s) := by
  show e.scanners[k]?.join = some s ↔ _
  exact Option.join_eq_some_iff

theorem scanners_setScanner_self {e : Engine η} {h : Handle} {s : Scanner} (hs : e.scanner? h = some s) :
    (e.setScanner h (some s)).scanners = e.scanners := by
  cases h with
  | none => rfl
  | some k =>
    obtain ⟨hk, he⟩ := List.getElem?_eq_some_iff.mp (scanner?_eq_some_iff.mp hs)
    show e.scanners.set k (some s) = e.scanners
    rw [← he, List.set_getElem_self]

section Call

variable [Lexer η] {e : Engine η} {c : Call}

theorem call_of_scanner?_eq_none (hs : e.scanner? c.handle = none) (hc : c ≠ .create) :
    e.call c = ⟨c.nothing, e, c.nothingLog⟩ := by
  cases c with
  | create => exact absurd rfl hc
  | destroy h =>
    replace hs : e.scanner? h = none := hs
    simp only [call, hs]
    rfl
  | save h buffer? => exact call_save_of_null hs buffer?
  | load h buffer? length => exact call_load_of_null hs buffer? length
  | scan h k? flags? => exact call_scan_of_null hs k? flags?

theorem call_destroy {h : Handle} {s : Scanner} (hs : e.scanner? h = some s) :
    e.call (.destroy h) = ⟨.done, e.setScanner h none, []⟩ := by
  simp only [call, hs]

/-- A call that lacks its buffer or its lexer does nothing. -/
theorem call_of_op?_eq_none {s : Scanner} (hs : e.scanner? c.handle = some s) (ho : c.op? e = none)
    (hc : ∀ h, c ≠ .destroy h) : e.call c = ⟨c.nothing, e, []⟩ := by
  cases c with
  | create => cases hs
  | destroy h => exact absurd rfl (hc h)
  | save h buffer? =>
    replace hs : e.scanner? h = some s := hs
    cases buffer? with
    | none =>
      simp only [call, hs]
      rfl
    | some buffer => cases ho
  | load h buffer? length => cases buffer? <;> cases ho
  | scan h k? flags? =>
    replace hs : e.scanner? h = some s := hs
    have hl : e.lexer? k? = none := by cases flags? <;> exact Option.map_eq_none_iff.mp ho
    simp only [call, hs, hl]
    rfl

/-- A call for a scan that lacks nothing. -/
theorem call_scan_eq {h : Handle} {s : Scanner} {k? : Option Nat} {l : η} (hs : e.scanner? h = some s)
    (hl : e.lexer? k? = some l) (flags? : Option (List Bool)) :
    e.call (.scan h k? flags?) = ⟨.scanned (s.scan l (acceptableOf flags?)).result?.isSome,
      (e.setScanner h (some (s.scan l (acceptableOf flags?)).scanner)).setLexer k?
        (s.scan l (acceptableOf flags?)).cursor,
      (s.scan l (acceptableOf flags?)).log⟩ := by
  simp only [call, hs, hl]

/-- What a call for a scan leaves on the lexer. -/
theorem lexer?_call_scan {h : Handle} {s : Scanner} {k? : Option Nat} {l : η} (hs : e.scanner? h = some s)
    (hl : e.lexer? k? = some l) (flags? : Option (List Bool)) :
    (e.call (.scan h k? flags?)).engine.lexer? k? = some (s.scan l (acceptableOf flags?)).cursor := by
  have hl' : (e.setScanner h (some (s.scan l (acceptableOf flags?)).scanner)).lexer? k? = some l := by
    rw [lexer?_setScanner, hl]
  rw [call_scan_eq hs hl, lexer?_setLexer hl']

private theorem call_scan {h : Handle} {s : Scanner} {k? : Option Nat} {l : η} (hs : e.scanner? h = some s)
    (hl : e.lexer? k? = some l) {valid : Acceptable} {flags? : Option (List Bool)} (hv : acceptableOf flags? = valid) :
    Entry.seen ⟨e, .call (.scan h k? flags?), e.call (.scan h k? flags?)⟩ =
        Seen.ofEntry ⟨s, .scan l valid, s.step (.scan l valid)⟩ ∧
      (e.call (.scan h k? flags?)).engine.scanners = (e.setScanner h (some (s.scan l valid).scanner)).scanners := by
  subst hv
  have hlexer := lexer?_call_scan hs hl flags?
  rw [call_scan_eq hs hl] at hlexer ⊢
  refine ⟨?_, scanners_setLexer _ _ _⟩
  show Seen.mk _ (Engine.lexer? _ k?) _ = Seen.mk _ _ _
  rw [hlexer]
  rfl

private theorem call_load {h : Handle} {s : Scanner} (hs : e.scanner? h = some s) {record : List UInt8}
    {buffer? : Option (List UInt8)} {length : Nat} (hr : recordOf buffer? length = record) :
    Entry.seen ⟨e, .call (.load h buffer? length), e.call (.load h buffer? length)⟩ =
        Seen.ofEntry ⟨s, .load record, s.step (.load record)⟩ ∧
      (e.call (.load h buffer? length)).engine.scanners =
        (e.setScanner h (some (s.load record).scanner)).scanners := by
  subst hr
  have hc : e.call (.load h buffer? length) = ⟨.done, e.setScanner h (some (s.load (recordOf buffer? length)).scanner),
      (s.load (recordOf buffer? length)).log⟩ := by
    simp only [call, hs]
  rw [hc]
  exact ⟨rfl, rfl⟩

private theorem call_save {h : Handle} {s : Scanner} (hs : e.scanner? h = some s) (buffer : Buffer) :
    Entry.seen ⟨e, .call (.save h (some buffer)), e.call (.save h (some buffer))⟩ =
        Seen.ofEntry ⟨s, .save buffer.toList, s.step (.save buffer.toList)⟩ ∧
      (e.call (.save h (some buffer))).engine = e := by
  have hstep : s.step (.save buffer.toList : Scanner.Op η) = ⟨.saved (s.saveTo buffer.toList), s, []⟩ := rfl
  rw [hstep]
  cases ho : s.saveTo buffer.toList with
  | ok filled =>
    have hc : e.call (.save h (some buffer)) = ⟨.saved filled.count (some filled.buffer), e, []⟩ := by
      simp only [call, hs, ho]
    rw [hc]
    exact ⟨rfl, rfl⟩
  | error error =>
    have hc : e.call (.save h (some buffer)) = ⟨.saved 0 (some buffer.toList), e, [.unfit error]⟩ := by
      simp only [call, hs, ho]
    rw [hc]
    exact ⟨rfl, rfl⟩

/-- A call that lacks nothing does to the scanner behind its handle what the operation does, and shows the same. -/
theorem call_of_op?_eq_some {s : Scanner} {op : Scanner.Op η} (hs : e.scanner? c.handle = some s)
    (ho : c.op? e = some op) :
    Entry.seen ⟨e, .call c, e.call c⟩ = Seen.ofEntry ⟨s, op, s.step op⟩ ∧
      (e.call c).engine.scanners = (e.setScanner c.handle (some (s.step op).scanner)).scanners := by
  cases c with
  | create => cases hs
  | destroy h => cases ho
  | save h buffer? =>
    replace hs : e.scanner? h = some s := hs
    cases buffer? with
    | none => cases ho
    | some buffer =>
      cases ho
      obtain ⟨hseen, he⟩ := call_save hs buffer
      refine ⟨hseen, ?_⟩
      rw [he]
      exact (scanners_setScanner_self hs).symm
  | load h buffer? length =>
    replace hs : e.scanner? h = some s := hs
    cases buffer? with
    | none =>
      cases ho
      exact call_load hs List.take_nil
    | some buffer =>
      cases ho
      exact call_load hs rfl
  | scan h k? flags? =>
    replace hs : e.scanner? h = some s := hs
    cases flags? with
    | none =>
      obtain ⟨l, hl, rfl⟩ := Option.map_eq_some_iff.mp ho
      exact call_scan hs hl rfl
    | some flags =>
      obtain ⟨l, hl, rfl⟩ := Option.map_eq_some_iff.mp ho
      exact call_scan hs hl rfl

end Call

/-! ### The table of scanners -/

/-- What an engine holds for scanner `k`, if the scanner on its own would now be `s`. -/
def Holds (e : Engine η) (k : Nat) (s : Scanner) : Life → Prop
  | .ahead n => e.scanners.length + n = k ∧ s = .fresh
  | .present => e.scanners[k]? = some (some s)
  | .gone => e.scanners[k]? = some none

section Holds

variable {e e' : Engine η} {k : Nat} {s : Scanner} {life : Life}

theorem Holds.scanner?_eq_some (h : Holds e k s .present) : e.scanner? (some k) = some s :=
  scanner?_eq_some_iff.mpr h

theorem Holds.scanner?_eq_none (h : Holds e k s life) (hl : life ≠ .present) : e.scanner? (some k) = none := by
  show e.scanners[k]?.join = none
  cases life with
  | ahead n =>
    obtain ⟨hn, -⟩ := h
    rw [List.getElem?_eq_none (by omega)]
    rfl
  | present => exact absurd rfl hl
  | gone => rw [show e.scanners[k]? = some none from h]; rfl

theorem Holds.of_scanners_eq (h : Holds e k s life) (he : e'.scanners = e.scanners) : Holds e' k s life := by
  unfold Holds at h ⊢
  rw [he]
  exact h

/-- A change of another scanner does not concern scanner `k`. -/
theorem Holds.of_scanners_eq_set (h : Holds e k s life) {j : Nat} (hj : j ≠ k) {x? : Option Scanner}
    (he : e'.scanners = e.scanners.set j x?) : Holds e' k s life := by
  unfold Holds at h ⊢
  rw [he, List.length_set, List.getElem?_set_ne hj]
  exact h

theorem Holds.set {x? : Option Scanner} (h : Holds e k s .present) (he : e'.scanners = e.scanners.set k x?) :
    e'.scanners[k]? = some x? := by
  obtain ⟨hk, -⟩ := List.getElem?_eq_some_iff.mp (show e.scanners[k]? = some (some s) from h)
  rw [he, List.getElem?_set_self hk]

theorem Holds.create (h : Holds e k s life) (he : e'.scanners = e.scanners ++ [some .fresh]) :
    Holds e' k s (life.after k (.call .create : Step η)) := by
  cases life with
  | ahead n =>
    obtain ⟨hn, rfl⟩ := h
    cases n with
    | zero =>
      -- scanner `k` is the one that is created
      show e'.scanners[k]? = some (some .fresh)
      rw [he, ← hn]
      exact List.getElem?_concat_length
    | succ n =>
      refine ⟨?_, rfl⟩
      rw [he, List.length_append, List.length_singleton]
      omega
  | present =>
    obtain ⟨hk, -⟩ := List.getElem?_eq_some_iff.mp (show e.scanners[k]? = some (some s) from h)
    show e'.scanners[k]? = some (some s)
    rw [he, List.getElem?_append_left hk]
    exact h
  | gone =>
    obtain ⟨hk, -⟩ := List.getElem?_eq_some_iff.mp (show e.scanners[k]? = some none from h)
    show e'.scanners[k]? = some none
    rw [he, List.getElem?_append_left hk]
    exact h

end Holds

theorem Life.destroyed_of_ne_present {life : Life} (h : life ≠ .present) : life.destroyed = life := by
  cases life with
  | ahead n => rfl
  | present => exact absurd rfl h
  | gone => rfl

theorem Life.after_call {k : Nat} {c : Call} (hc : c ≠ .create) (hd : c ≠ .destroy (some k)) (life : Life) :
    life.after k (.call c : Step η) = life := by
  cases c with
  | create => exact absurd rfl hc
  | destroy h =>
    cases h with
    | none => rfl
    | some j => exact if_neg fun hj => hd (by rw [hj])
  | save h buffer? => rfl
  | load h buffer? length => rfl
  | scan h k? flags? => rfl

section Step

variable [Lexer η] {e : Engine η} {k : Nat} {s : Scanner} {life : Life}

/-- A call changes no scanner but the one behind its handle. -/
theorem scanners_call {c : Call} {j : Nat} (hh : c.handle = some j) :
    (e.call c).engine.scanners = e.scanners ∨ ∃ x?, (e.call c).engine.scanners = e.scanners.set j x? := by
  cases hs : e.scanner? c.handle with
  | none =>
    left
    rw [call_of_scanner?_eq_none hs (Call.ne_create_of_handle hh)]
  | some s =>
    cases ho : c.op? e with
    | some op =>
      right
      obtain ⟨-, he⟩ := call_of_op?_eq_some hs ho
      rw [hh] at he
      exact ⟨_, he⟩
    | none =>
      by_cases hd : ∃ h, c = .destroy h
      · obtain ⟨h, rfl⟩ := hd
        replace hs : e.scanner? h = some s := hs
        replace hh : h = some j := hh
        right
        rw [call_destroy hs, hh]
        exact ⟨none, rfl⟩
      · left
        rw [call_of_op?_eq_none hs ho fun h hd' => hd ⟨h, hd'⟩]

theorem scanners_step_ask (k? : Option Nat) (request : Cursor.Request) :
    (e.step (.ask k? request)).engine.scanners = e.scanners := by
  cases hl : e.lexer? k? with
  | none => simp only [step, hl]
  | some l => simp only [step, hl, scanners_setLexer]

theorem scanners_step_adjust (k? : Option Nat) (change : η → η) :
    (e.step (.adjust k? change)).engine.scanners = e.scanners := by
  cases hl : e.lexer? k? with
  | none => simp only [step, hl]
  | some l => simp only [step, hl, scanners_setLexer]

/-- A use of scanner `k` shows what the operation shows on a scanner of its own. -/
theorem Holds.step_of_op?_eq_some (h : Holds e k s life) {step : Step η} {op : Scanner.Op η}
    (ho : life.op? k e step = some op) :
    Entry.seen ⟨e, step, e.step step⟩ = Seen.ofEntry ⟨s, op, s.step op⟩ ∧
      Holds (e.step step).engine k (s.step op).scanner (life.after k step) := by
  obtain ⟨rfl, c, rfl, hh, ho⟩ : life = .present ∧ ∃ c, step = .call c ∧ c.handle = some k ∧ c.op? e = some op := by
    cases life with
    | present =>
      cases step with
      | call c => exact ⟨rfl, c, rfl, Option.ite_none_right_eq_some.mp ho⟩
      | ask k? request => cases ho
      | adjust k? change => cases ho
    | ahead n => cases ho
    | gone => cases ho
  have hs : e.scanner? c.handle = some s := by rw [hh, h.scanner?_eq_some]
  obtain ⟨hseen, he⟩ := call_of_op?_eq_some hs ho
  refine ⟨hseen, ?_⟩
  rw [hh] at he
  have hd : c ≠ .destroy (some k) := by
    rintro rfl
    cases ho
  rw [Life.after_call (Call.ne_create_of_handle hh) hd]
  exact h.set he

/-- A call on another scanner, or on none, does not concern scanner `k`. -/
theorem Holds.call_of_handle_ne (h : Holds e k s life) {c : Call} (hc : c ≠ .create) (hh : c.handle ≠ some k) :
    Holds (e.call c).engine k s life := by
  cases hj : c.handle with
  | none =>
    have hs : e.scanner? c.handle = none := by rw [hj]; rfl
    rw [call_of_scanner?_eq_none hs hc]
    exact h
  | some j =>
    have hne : j ≠ k := by
      rintro rfl
      exact hh hj
    rcases scanners_call (e := e) hj with he | ⟨x?, he⟩
    · exact h.of_scanners_eq he
    · exact h.of_scanners_eq_set hne he

/-- A call on scanner `k` while the scanner is not there. -/
theorem Holds.call_of_ne_present (h : Holds e k s life) (hl : life ≠ .present) {c : Call} (hh : c.handle = some k) :
    Holds (e.call c).engine k s (life.after k (.call c : Step η)) := by
  have hc : c ≠ .create := Call.ne_create_of_handle hh
  have hs : e.scanner? c.handle = none := by rw [hh, h.scanner?_eq_none hl]
  have hl' : life.after k (.call c : Step η) = life := by
    by_cases hd : c = .destroy (some k)
    · subst hd
      exact (if_pos rfl).trans (Life.destroyed_of_ne_present hl)
    · exact Life.after_call hc hd life
  rw [call_of_scanner?_eq_none hs hc, hl']
  exact h

/-- A call on scanner `k` that does not use it, which may be its destruction. -/
theorem Holds.call_of_op?_eq_none (h : Holds e k s .present) {c : Call} (hh : c.handle = some k)
    (ho : c.op? e = none) : Holds (e.call c).engine k s (Life.present.after k (.call c : Step η)) := by
  have hs : e.scanner? c.handle = some s := by rw [hh, h.scanner?_eq_some]
  by_cases hd : c = .destroy (some k)
  · subst hd
    rw [call_destroy h.scanner?_eq_some]
    show Holds _ k s (if k = k then .gone else .present)
    rw [if_pos rfl]
    exact h.set rfl
  · have hd' : ∀ h, c ≠ .destroy h := by
      rintro h rfl
      exact hd (congrArg Call.destroy hh)
    rw [Engine.call_of_op?_eq_none hs ho hd', Life.after_call (Call.ne_create_of_handle hh) hd]
    exact h

/-- All other steps leave scanner `k` as it was, unless they create or destroy it. -/
theorem Holds.step_of_op?_eq_none (h : Holds e k s life) {step : Step η} (ho : life.op? k e step = none) :
    Holds (e.step step).engine k s (life.after k step) := by
  cases step with
  | ask k? request => exact h.of_scanners_eq (scanners_step_ask k? request)
  | adjust k? change => exact h.of_scanners_eq (scanners_step_adjust k? change)
  | call c =>
    show Holds (e.call c).engine k s _
    by_cases hc : c = .create
    · subst hc
      exact h.create rfl
    by_cases hh : c.handle = some k
    · by_cases hl : life = .present
      · subst hl
        replace ho : (if c.handle = some k then c.op? e else none) = none := ho
        rw [if_pos hh] at ho
        exact h.call_of_op?_eq_none hh ho
      · exact h.call_of_ne_present hl hh
    · have hd : c ≠ .destroy (some k) := by
        rintro rfl
        exact hh rfl
      rw [Life.after_call hc hd]
      exact h.call_of_handle_ne hc hh

end Step

/-! ### Runs -/

section Run

variable [Lexer η] {e : Engine η} {k : Nat} {s : Scanner} {life : Life}

/-- What the uses of scanner `k` show is what their operations show on a scanner of its own. -/
theorem Holds.seen_usesFrom (h : Holds e k s life) (steps : List (Step η)) :
    (usesFrom k life (trace e steps)).map Use.seen =
      (trace s ((usesFrom k life (trace e steps)).map Use.op)).map Seen.ofEntry := by
  induction steps generalizing e s life with
  | nil => rfl
  | cons step steps ih =>
    rw [trace_cons, usesFrom]
    cases ho : life.op? k e step with
    | some op =>
      obtain ⟨hseen, hstep⟩ := h.step_of_op?_eq_some ho
      simp only [List.map_cons, trace_cons, reply_eq, next_eq, Scanner.reply_eq, Scanner.next_eq, ih hstep, hseen]
    | none => exact ih (h.step_of_op?_eq_none ho)

theorem Holds.exists_after (h : Holds e k s life) (steps : List (Step η)) :
    ∃ t, Holds (Machine.after e steps) k t ((trace e steps).foldl (fun life x => life.after k x.step) life) := by
  induction steps generalizing e s life with
  | nil => exact ⟨s, h⟩
  | cons step steps ih =>
    cases ho : life.op? k e step with
    | some op => exact ih (h.step_of_op?_eq_some ho).2
    | none => exact ih (h.step_of_op?_eq_none ho)

omit [Lexer η] in
theorem holds_start (lexers : List η) (k : Nat) : Holds { lexers } k .fresh (.ahead k) :=
  ⟨Nat.zero_add k, rfl⟩

/-- In a run from the start a handle leads to a scanner exactly if the scanner is present. -/
theorem isSome_scanner?_iff (lexers : List η) (steps : List (Step η)) (h : Handle) :
    (((after ({ lexers } : Engine η) steps).scanner? h).isSome = true ↔
      Present (trace ({ lexers } : Engine η) steps) h) := by
  constructor
  · intro hs
    cases h with
    | none => cases hs
    | some k =>
      obtain ⟨t, ht⟩ := (holds_start lexers k).exists_after steps
      refine ⟨k, rfl, Decidable.byContradiction fun hl => ?_⟩
      rw [ht.scanner?_eq_none hl] at hs
      cases hs
  · rintro ⟨k, rfl, hl⟩
    obtain ⟨t, ht⟩ := (holds_start lexers k).exists_after steps
    rw [show List.foldl _ _ _ = Life.present from hl] at ht
    rw [ht.scanner?_eq_some]
    rfl

theorem length_scanners_step (e : Engine η) (step : Step η) :
    (e.step step).engine.scanners.length = e.scanners.length + if step matches .call .create then 1 else 0 := by
  cases step with
  | ask k? request => rw [scanners_step_ask]; rfl
  | adjust k? change => rw [scanners_step_adjust]; rfl
  | call c =>
    by_cases hc : c = .create
    · subst hc
      exact List.length_append
    · have hlen : (e.call c).engine.scanners.length = e.scanners.length := by
        cases hh : c.handle with
        | none =>
          have hs : e.scanner? c.handle = none := by rw [hh]; rfl
          rw [call_of_scanner?_eq_none hs hc]
        | some j =>
          rcases scanners_call (e := e) hh with he | ⟨x?, he⟩
          · rw [he]
          · rw [he, List.length_set]
      show (e.call c).engine.scanners.length = _
      rw [hlen]
      cases c with
      | create => exact absurd rfl hc
      | _ => rfl

theorem length_scanners_after (e : Engine η) (steps : List (Step η)) :
    (after e steps).scanners.length = e.scanners.length + creations (trace e steps) := by
  induction steps generalizing e with
  | nil => rfl
  | cons step steps ih =>
    have hc : creations (trace e (step :: steps)) =
        creations (trace (e.step step).engine steps) + if step matches .call .create then 1 else 0 :=
      List.countP_cons
    rw [after_cons, next_eq, ih, length_scanners_step, hc]
    omega

theorem call_of_lacks {past : List (Entry η)} {c : Call}
    (hpresent : ∀ h, (e.scanner? h).isSome = true ↔ Present past h) (hl : Lacks past e c) :
    e.call c = ⟨c.nothing, e, c.nothingLog⟩ := by
  have hc : c ≠ .create := by
    rintro rfl
    exact hl
  cases hs : e.scanner? c.handle with
  | none => exact call_of_scanner?_eq_none hs hc
  | some s =>
    have hh : Present past c.handle := (hpresent c.handle).mp (by rw [hs]; rfl)
    -- the scanner is there, so the buffer or the lexer is missing
    cases c with
    | create => exact absurd rfl hc
    | destroy h => exact absurd hh hl
    | load h buffer? length => exact absurd hh hl
    | save h buffer? =>
      rcases hl with hl | rfl
      · exact absurd hh hl
      · exact call_of_op?_eq_none hs rfl fun h hd => by cases hd
    | scan h k? flags? =>
      rcases hl with hl | hl
      · exact absurd hh hl
      · have ho : (Call.scan h k? flags?).op? e = none := by cases flags? <;> exact Option.map_eq_none_iff.mpr hl
        exact call_of_op?_eq_none hs ho fun h hd => by cases hd

/-- The calls of an engine that starts without scanners.

Each scanner behaves as one of its own: what its uses show (the answers, the records written, the lexers afterwards
and the logs) is what their operations show, one after the other, on a fresh scanner that sees no others.  The
creation of a scanner answers its number, and its destruction is silent.  A call that lacks its scanner, because the
handle is null or the scanner was destroyed, or that lacks its buffer or its lexer, leaves the engine as it was,
and answers zero or false; only the destruction of no scanner is reported. -/
theorem uses_isolated (lexers : List η) (steps : List (Step η)) :
    let start : Engine η := { lexers }
    (trace start steps).map Entry.reply = run start steps ∧
    (∀ k, (uses k (trace start steps)).map Use.seen =
      (trace Scanner.fresh ((uses k (trace start steps)).map Use.op)).map Seen.ofEntry) ∧
    ∀ past x future c, trace start steps = past ++ x :: future → x.step = .call c →
      (c = .create → x.reply.answer = .created (creations past) ∧ x.reply.log = []) ∧
      (∀ h, c = .destroy h → Present past h → x.reply.answer = .done ∧ x.reply.log = []) ∧
      (Lacks past x.before c → x.reply = ⟨c.nothing, x.before, c.nothingLog⟩) := by
  intro start
  refine ⟨map_reply_trace start steps, fun k => (holds_start lexers k).seen_usesFrom steps, ?_⟩
  intro past x future c hsplit hstep
  obtain ⟨hp, hb, hr⟩ := eq_of_trace hsplit
  replace hr : x.reply = x.before.call c := by
    rw [hr, hstep]
    rfl
  have hpresent : ∀ h, (x.before.scanner? h).isSome = true ↔ Present past h := by
    intro h
    rw [hb]
    conv => rhs; rw [hp]
    exact isSome_scanner?_iff lexers (past.map Entry.step) h
  refine ⟨?_, ?_, ?_⟩
  · rintro rfl
    have hlen : x.before.scanners.length = creations past := by
      rw [hb, length_scanners_after, ← hp]
      exact Nat.zero_add _
    rw [hr, ← hlen]
    exact ⟨rfl, rfl⟩
  · rintro h rfl hh
    obtain ⟨s, hs⟩ := Option.isSome_iff_exists.mp ((hpresent h).mpr hh)
    rw [hr, call_destroy hs]
    exact ⟨rfl, rfl⟩
  · intro hlacks
    rw [hr, call_of_lacks hpresent hlacks]

end Run

/-- At one end the end of the input is found for each scanner that is still there. -/
example :
    let knock (h : Handle) : Step UnitLexer := .call (.scan h (some 0) (some [true]))
    let steps := [.call .create, .call .create, knock (some 1), knock none, knock (some 0), .call (.destroy (some 1)),
      knock (some 1), knock (some 0)]
    let entries := trace (Engine.mk [] [UnitLexer.atOffset [] 0]) steps
    (uses 0 entries).map (·.seen.answer) = [.scanned true, .scanned false] ∧
      (uses 1 entries).map (·.seen.answer) = [.scanned true] := by
  decide

end EndOfInput.Engine
