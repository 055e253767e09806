import EndOfInput.Proofs.Handles
import EndOfInput.Proofs.TokenHistory

/-!
# What a scan answers and what it leaves on its cursor

A parser learns twice what a scan found: from the answer, and from the token on the cursor.  The two are the same at
every scan that comes right after a token began (`scan_reported`).

* (any cursor) `Scanner.cursor_of_declined`, `Scanner.cursor_of_found`: a cursor is left as it is, or it gets an end and
  a kind;
* (byte cursors) `Session.Inside.step` keeps every cursor of a session inside its input, so the token that a scan found
  is empty and ends where the input ends;
* (lexers) `Engine.reported_call`: what a call leaves on the lexer that is passed to it.
-/

namespace EndOfInput

universe u

open Machine

/-! ### Any cursor -/

namespace Scanner

variable {γ : Type u} [Cursor γ] {s : Scanner} {c : γ} {valid : Acceptable}

theorem cursor_of_declined (h : (s.scan c valid).result? = none) : (s.scan c valid).cursor = c := by
  rw [cursor_scan, h]
  rfl

theorem cursor_of_found (h : (s.scan c valid).result? = some .endOfInput) :
    (s.scan c valid).cursor = Cursor.setResult (Cursor.markEnd c) .endOfInput := by
  rw [cursor_scan, h]
  rfl

end Scanner

/-! ### Byte cursors -/

namespace ByteCursor

/-- The token at the cursor `d` is the one that a scan at `c` answered, and `d` is where `c` was. -/
structure Reported (result? : Option TokenKind) (c d : ByteCursor) : Prop where
  samePlace : d.SamePlace c
  result_iff : result? = some .endOfInput ↔ d.result? = some .endOfInput
  span_iff : result? = some .endOfInput ↔ d.tokenSpan? = some (d.input.length, d.input.length)
  declined : result? = none → d.markedEnd? = none ∧ d.result? = none

/-- A scan where a token began leaves what it answers, and nothing from before. -/
theorem reported_scan {c : ByteCursor} (hc : c.position ≤ c.input.length) (s : Scanner) (valid : Acceptable) :
    Reported (s.scan c.beginToken valid).result? c.beginToken (s.scan c.beginToken valid).cursor := by
  cases h : (s.scan c.beginToken valid).result? with
  | none =>
    rw [Scanner.cursor_of_declined h]
    refine ⟨.refl _, Iff.rfl, ?_, fun _ => ⟨rfl, rfl⟩⟩
    exact iff_of_false (Option.some_ne_none _).symm (Option.some_ne_none _).symm
  | some kind =>
    cases kind
    -- the end is found nowhere else, and the token begins there
    obtain ⟨hend, -⟩ := Scanner.result?_scan_iff.mp h
    have hposition : c.position = c.input.length := Nat.le_antisymm hc (isEnd_iff.mp hend)
    rw [Scanner.cursor_of_found h]
    refine ⟨⟨rfl, rfl⟩, iff_of_true rfl rfl, iff_of_true rfl ?_, fun hn => absurd hn (Option.some_ne_none _)⟩
    show some (c.position, c.position) = some (c.input.length, c.input.length)
    rw [hposition]

end ByteCursor

namespace Session

variable {n m : Nat} {x : Session ByteCursor n m}

/-- No cursor is past the end of its input. -/
def Inside (x : Session ByteCursor n m) : Prop :=
  ∀ c, (x.cursor c).position ≤ (x.cursor c).input.length

theorem inside_atOffset (slots : Vector Slot n) (placed : Vector (List UInt8 × Nat) m) :
    Inside ⟨slots, placed.map fun p => ByteCursor.atOffset p.1 p.2⟩ := by
  intro c
  have hc : (Session.mk slots (placed.map fun p => ByteCursor.atOffset p.1 p.2)).cursor c =
      .atOffset placed[c].1 placed[c].2 := Vector.getElem_map _ c.isLt
  rw [hc]
  exact ByteCursor.position_atOffset_le _ _

/-- Every step keeps the cursors inside their inputs. -/
theorem Inside.step (hx : Inside x) (step : Step ByteCursor.Move n m) : Inside (x.step step).session := by
  intro d
  cases hs : step.scanner? with
  | some t =>
    obtain ⟨hinput, hposition⟩ := samePlace_step x hs d
    rw [hinput, hposition]
    exact hx d
  | none =>
    cases step with
    | move c move =>
      rw [step_move, cursor_setCursor]
      split
      · show ((x.cursor c).act (.move move)).position ≤ ((x.cursor c).act (.move move)).input.length
        rw [ByteCursor.input_act]
        exact ByteCursor.position_act_le (hx c) (.move move)
      · exact hx d
    | _ => cases hs

/-- A scan where a token began answers what it leaves at the cursor. -/
theorem reported_step (hx : Inside x) (s : Fin n) (c : Fin m) (valid : Acceptable) :
    let y := (x.step (.move c .beginToken : Step ByteCursor.Move n m)).session
    let reply := y.step (.scan s c valid : Step ByteCursor.Move n m)
    ∃ result?, reply.answer = .scanned result? ∧
      ByteCursor.Reported result? (y.cursor c) (reply.session.cursor c) := by
  intro y reply
  have hy : y.cursor c = (x.cursor c).beginToken := by
    show (x.setCursor c _).cursor c = _
    rw [cursor_setCursor, if_pos rfl]
    rfl
  refine ⟨((y.scanner s).scan (y.cursor c) valid).result?, rfl, ?_⟩
  show ByteCursor.Reported _ _ ((y.step (.scan s c valid : Step ByteCursor.Move n m)).session.cursor c)
  rw [step_scan, cursor_setCursor, if_pos rfl, hy]
  exact ByteCursor.reported_scan (hx c) (y.scanner s) valid

end Session

/-! ### Lexers -/

/-- What is noted on the lexer `l'` is what a scan at `l` answered, and `l'` is where `l` was. -/
structure UnitLexer.Reported (found : Bool) (l l' : UnitLexer) : Prop where
  position : l'.position = l.position
  advances : l'.advances = l.advances
  noted_iff : found = true ↔ l'.symbol = 0 ∧ l'.mark? = some l'.position ∧ l'.marks = 1
  declined : found = false → l'.mark? = none ∧ l'.marks = 0 ∧ l'.symbol = 0xFFFF

namespace Engine

section Host

variable {η : Type u} [Lexer η] {e : Engine η}

/-- A call for a scan leaves the lexer as it is, or marks the end of the token once and sets its symbol. -/
theorem reported_call {k? : Option Nat} {l : η} (hl : e.lexer? k? = some l) (h : Handle) (flags? : Option (List Bool)) :
    ∃ found, (e.call (.scan h k? flags?)).answer = .scanned found ∧
      (e.call (.scan h k? flags?)).engine.lexer? k? =
        some (if found then Lexer.setSymbol (Lexer.markEnd l) 0 else l) := by
  cases hs : e.scanner? h with
  | none =>
    rw [call_scan_of_null hs]
    exact ⟨false, rfl, hl⟩
  | some s =>
    refine ⟨(s.scan l (acceptableOf flags?)).result?.isSome, ?_, ?_⟩
    · rw [call_scan_eq hs hl]
    · rw [lexer?_call_scan hs hl, Scanner.cursor_scan]
      rfl

theorem lexer?_step_adjust (e : Engine η) (k? : Option Nat) (change : η → η) :
    (e.step (.adjust k? change)).engine.lexer? k? = (e.lexer? k?).map change := by
  cases hl : e.lexer? k? with
  | none => simp only [step, hl, Option.map_none]
  | some l => simp only [step, hl, lexer?_setLexer hl, Option.map_some]

end Host

/-- A call for a scan where a token began answers what is noted on the lexer. -/
theorem reported_step {e : Engine UnitLexer} {k : Nat} {l : UnitLexer}
    (hl : (e.step (.adjust (some k) (·.change .beginToken))).engine.lexer? (some k) = some l) (h : Handle)
    (flags? : Option (List Bool)) :
    let reply := (e.step (.adjust (some k) (·.change .beginToken))).engine.call (.scan h (some k) flags?)
    ∃ found l', reply.answer = .scanned found ∧ reply.engine.lexer? (some k) = some l' ∧ l.Reported found l' := by
  obtain ⟨found, hanswer, hlexer⟩ := reported_call hl h flags?
  refine ⟨found, _, hanswer, hlexer, ?_⟩
  rw [lexer?_step_adjust, Option.map_eq_some_iff] at hl
  obtain ⟨l₀, -, rfl⟩ := hl
  cases found with
  | false => exact ⟨rfl, rfl, by simp [UnitLexer.change], fun _ => ⟨rfl, rfl, rfl⟩⟩
  | true => exact ⟨rfl, rfl, iff_of_true rfl ⟨rfl, rfl, rfl⟩, fun hn => by cases hn⟩

end Engine

/-! ### The law -/

/-- What a scan answers and what it leaves on its cursor are the same.  A scan that declines leaves any cursor exactly
as it was, and one that finds the end marks the end of the token once and sets its kind; no scan advances a cursor.  So
in every run, after each scan that comes right after a token began at its cursor: the scan found the end of the input if
and only if the kind of the token is set, and if and only if the token is empty and ends where the input ends, or, on a
lexer, its symbol is set and its end was marked once, at the position; a scan that declined has left neither; and the
cursor is where it was. -/
theorem scan_reported :
    (∀ (γ : Type u) [Cursor γ] (s : Scanner) (c : γ) (valid : Acceptable),
      ((s.scan c valid).result? = none → (s.scan c valid).cursor = c) ∧
      ((s.scan c valid).result? = some .endOfInput →
        (s.scan c valid).cursor = Cursor.setResult (Cursor.markEnd c) .endOfInput)) ∧
    (∀ (n m : Nat) (slots : Vector Slot n) (placed : Vector (List UInt8 × Nat) m) 
        (steps : List (Session.Step ByteCursor.Move n m))
        (past future : List (Session.Entry ByteCursor ByteCursor.Move n m))
        (first e : Session.Entry ByteCursor ByteCursor.Move n m) (s : Fin n) (c : Fin m) (valid : Acceptable),
      trace (Session.mk slots (placed.map fun p => ByteCursor.atOffset p.1 p.2)) steps = past ++ first :: e :: future →
      first.step = .move c .beginToken → e.step = .scan s c valid →
      ∃ result?, e.reply.answer = .scanned result? ∧
        ByteCursor.Reported result? (e.before.cursor c) (e.reply.session.cursor c)) ∧
    (∀ (η : Type u) [Lexer η] (e : Engine η) (steps : List (Engine.Step η)) (past future : List (Engine.Entry η))
        (x : Engine.Entry η) (h : Handle) (k? : Option Nat) (flags? : Option (List Bool)) (l : η),
      trace e steps = past ++ x :: future → x.step = .call (.scan h k? flags?) → x.before.lexer? k? = some l →
      ∃ found, x.reply.answer = .scanned found ∧
        x.reply.engine.lexer? k? = some (if found then Lexer.setSymbol (Lexer.markEnd l) 0 else l)) ∧
    ∀ (e : Engine UnitLexer) (steps : List (Engine.Step UnitLexer)) (past future : List (Engine.Entry UnitLexer))
        (first x : Engine.Entry UnitLexer) (h : Handle) (k : Nat) (flags? : Option (List Bool)) (l : UnitLexer),
      trace e steps = past ++ first :: x :: future → first.step = .adjust (some k) (·.change .beginToken) →
      x.step = .call (.scan h (some k) flags?) → x.before.lexer? (some k) = some l →
      ∃ found l', x.reply.answer = .scanned found ∧ x.reply.engine.lexer? (some k) = some l' ∧ l.Reported found l' := by
  refine ⟨?_, ?_, ?_, ?_⟩
  · intro γ _ s c valid
    exact ⟨Scanner.cursor_of_declined, Scanner.cursor_of_found⟩
  · intro n m slots placed steps past future first e s c valid h hfirst hscan
    obtain ⟨-, hbefore, -⟩ := eq_of_trace h
    have hinside : Session.Inside first.before := by
      rw [hbefore]
      exact after_induction (fun step _ _ hx => hx.step step) (Session.inside_atOffset slots placed)
    obtain ⟨hnext, hreply⟩ := adjacent_of_trace h
    rw [hfirst] at hnext
    rw [hreply, hnext, hscan]
    exact Session.reported_step hinside s c valid
  · intro η _ e steps past future x h k? flags? l htrace hscan hl
    obtain ⟨-, -, hreply⟩ := eq_of_trace htrace
    rw [hreply, hscan]
    exact Engine.reported_call hl h flags?
  · intro e steps past future first x h k flags? l htrace hfirst hscan hl
    obtain ⟨hnext, hreply⟩ := adjacent_of_trace htrace
    rw [hfirst] at hnext
    rw [hnext] at hl
    rw [hreply, hnext, hscan]
    exact Engine.reported_step hl h flags?

/-- A scanner declines before the end of the input, finds the end, and declines there; and one behind a handle finds the
end where its lexer tells of one, though no unit was passed. -/
theorem reported_among_declines :
    let x : Session ByteCursor 1 1 := ⟨#v[{ scanner := .fresh }], #v[([0x61], 0)].map fun p => .atOffset p.1 p.2⟩
    let opens : Session.Step ByteCursor.Move 1 1 := .move 0 .beginToken
    let knock : Session.Step ByteCursor.Move 1 1 := .scan 0 0 .all
    let steps := [opens, knock, .move 0 (.advance false), opens, knock, opens, knock]
    let y := after x (steps.take 5)
    let z := (y.step opens).session
    let last : Session.Entry ByteCursor ByteCursor.Move 1 1 := ⟨z, knock, z.step knock⟩
    let e : Engine UnitLexer := { lexers := [{ units := [0x61], position := 0, isEnd? := some true }] }
    let begins : Engine.Step UnitLexer := .adjust (some 0) (·.change .beginToken)
    let scans : Engine.Step UnitLexer := .call (.scan (some 0) (some 0) (some [true]))
    let f := (e.step (.call .create)).engine
    let g := (f.step begins).engine
    (Scanner.scan .fresh (ByteCursor.atEnd [0x61]) .all).cursor =
        (ByteCursor.atEnd [0x61]).markEnd.setResult .endOfInput ∧
      (trace x steps).map (fun e => (e.reply.session.cursor 0).tokenSpan?) =
        [none, none, none, none, some (1, 1), none, none] ∧
      (∃ result?, last.reply.answer = .scanned result? ∧
        ByteCursor.Reported result? (last.before.cursor 0) (last.reply.session.cursor 0)) ∧
      (∃ found, (g.step scans).answer = .scanned found ∧ (g.step scans).engine.lexer? (some 0) =
        some (if found then Lexer.setSymbol (Lexer.markEnd e.lexers[0]) 0 else e.lexers[0])) ∧
      (g.step scans).engine.lexers.map (fun l => (l.symbol, l.mark?, l.marks)) = [(0, some 0, 1)] ∧
      ∃ found l', (g.step scans).answer = .scanned found ∧ (g.step scans).engine.lexer? (some 0) = some l' ∧
        e.lexers[0].Reported found l' := by
  intro x opens knock steps y z last e begins scans f g
  obtain ⟨hcursor, hsession, hhost, hlexer⟩ := scan_reported
  have htrace : trace e [.call .create, begins, scans] =
      [⟨e, .call .create, e.step (.call .create)⟩] ++ [⟨f, begins, f.step begins⟩, ⟨g, scans, g.step scans⟩] := rfl
  refine ⟨?_, by decide +kernel, ?_, ?_, rfl, ?_⟩
  · exact (hcursor ByteCursor .fresh (.atEnd [0x61]) .all).2 rfl
  · exact hsession 1 1 _ #v[([0x61], 0)] steps ((trace x steps).take 5) [] ⟨y, opens, y.step opens⟩ last 0 0 .all
      rfl rfl rfl
  · exact hhost UnitLexer e _ [_, _] [] ⟨g, scans, g.step scans⟩ (some 0) (some 0) (some [true]) _ htrace rfl rfl
  · exact hlexer e _ _ [] _ _ (some 0) 0 (some [true]) _ htrace rfl rfl rfl

end EndOfInput
