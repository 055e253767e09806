import EndOfInput.Proofs.SessionSteps
import EndOfInput.Proofs.Walk
import Mathlib.Data.List.Induction

/-!
# The token at a cursor

Where the token at a byte cursor begins and ends, and of which kind it is, is told by what was done to the cursor
(`ByteCursor.token_of_history`): by the latest time that a token began or a character was skipped, and since the token
began by the latest time that its end was marked and the latest time that its kind was set.

* (one step) `ByteCursor.samePlace_act`, `ByteCursor.tokenStart_act`, `ByteCursor.markedEnd?_act` and
  `ByteCursor.result?_act`: what an action does to each part of a cursor;
* (runs) the same for sequences of actions, by induction on their histories.
-/

namespace EndOfInput.ByteCursor

open Machine

/-! ### Actions -/

/-- What is done to a cursor: it is moved, or a scanner looks for a token there. -/
inductive Action where
  | move (move : Move)
  | scan (scanner : Scanner) (valid : Acceptable)

def act (c : ByteCursor) : Action → ByteCursor
  | .move move => c.move move
  | .scan s valid => (s.scan c valid).cursor

instance : Machine ByteCursor Action ByteCursor where
  reply := act
  next := act

@[simp] theorem next_eq_act (c : ByteCursor) (action : Action) : next c action = c.act action := rfl

/-- An action, and the cursors before and after it. -/
abbrev Entry := Machine.Entry ByteCursor Action ByteCursor

def entry (c : ByteCursor) (action : Action) : Entry :=
  ⟨c, action, c.act action⟩

@[simp] theorem before_entry (c : ByteCursor) (action : Action) : (c.entry action).before = c := rfl

namespace Entry

def advances (e : Entry) : Bool :=
  e.step matches .move (.advance _)

/-- A character is skipped.  At the end there is none to skip. -/
def skips (e : Entry) : Bool :=
  e.step matches .move (.advance true) && e.before.position < e.reply.position

/-- A token begins. -/
def begins (e : Entry) : Bool :=
  e.step matches .move .beginToken

/-- The token that a scan found. -/
def found? (e : Entry) : Option TokenKind :=
  match e.step with
  | .scan s valid => (s.scan e.before valid).result?
  | .move _ => none

/-- The end of the token is marked, by hand or by a scan that found one. -/
def marks (e : Entry) : Bool :=
  e.step matches .move .markEnd || e.found?.isSome

/-- The kind that the token is given, by hand or by a scan that found one. -/
def kind? (e : Entry) : Option TokenKind :=
  match e.step with
  | .move (.setResult kind) => some kind
  | _ => e.found?

end Entry

/-- What was done to a cursor, the latest first. -/
def history (c : ByteCursor) (actions : List Action) : List Entry :=
  (trace c actions).reverse

/-- What was done since the latest entry with a property. -/
def since (p : Entry → Bool) (past : List Entry) : List Entry :=
  past.takeWhile fun e => !p e

theorem since_cons (p : Entry → Bool) (e : Entry) (past : List Entry) :
    since p (e :: past) = if p e then [] else e :: since p past := by
  rw [since, List.takeWhile_cons]
  cases p e <;> rfl

/-! ### One action -/

section Act

variable (c : ByteCursor) (action : Action)

theorem samePlace_act :
    (c.act action).SamePlace (if (c.entry action).advances then c.advance false else c) := by
  cases action with
  | move move =>
    cases move with
    | advance skip => exact (SamePlace.refl c).advance skip false
    | markEnd | setResult kind | beginToken => exact ⟨rfl, rfl⟩
  | scan s valid => exact samePlace_scan s c valid

theorem position_le_act : c.position ≤ (c.act action).position := by
  rw [(samePlace_act c action).2]
  split
  · cases h : c.isEnd with
    | true => exact Nat.le_of_eq (congrArg position (advance_of_isEnd h false)).symm
    | false => exact Nat.le_of_lt (position_lt_advance h false)
  · exact Nat.le_refl _

theorem input_act : (c.act action).input = c.input := by
  rw [(samePlace_act c action).1]
  split
  · exact input_advance c false
  · rfl

theorem position_act_le {c : ByteCursor} (hc : c.position ≤ c.input.length) (action : Action) :
    (c.act action).position ≤ c.input.length := by
  rw [(samePlace_act c action).2]
  split
  · exact position_advance_le hc false
  · exact hc

theorem tokenStart_advance (skip : Bool) :
    (c.advance skip).tokenStart =
      if skip && c.position < (c.advance skip).position then (c.advance skip).position else c.tokenStart := by
  cases h : c.isEnd with
  | true => simp [advance_of_isEnd h]
  | false =>
    have moved := position_lt_advance h skip
    obtain ⟨b, bytes, hr⟩ := exists_rest_of_not_isEnd h
    cases skip with
    | true =>
      simp only [moved, decide_true, Bool.and_self, if_true]
      simp [advance, hr]
    | false => simp [advance, hr]

/-- A token begins where it is told to, and after a character that is skipped. -/
theorem tokenStart_act :
    (c.act action).tokenStart =
      if (c.entry action).begins || (c.entry action).skips then (c.act action).position else c.tokenStart := by
  cases action with
  | move move =>
    cases move with
    | advance skip =>
      show (c.advance skip).tokenStart = _
      rw [tokenStart_advance]
      cases skip <;> rfl
    | markEnd | setResult kind | beginToken => rfl
  | scan s valid =>
    show (s.scan c valid).cursor.tokenStart = c.tokenStart
    rw [Scanner.cursor_scan]
    split <;> rfl

theorem markedEnd?_act :
    (c.act action).markedEnd? =
      if (c.entry action).begins then none
      else if (c.entry action).marks then some c.position
      else c.markedEnd? := by
  cases action with
  | move move =>
    cases move with
    | advance skip =>
      show (c.advance skip).markedEnd? = c.markedEnd?
      unfold advance
      split <;> rfl
    | markEnd | setResult kind | beginToken => rfl
  | scan s valid =>
    show (s.scan c valid).cursor.markedEnd? =
      if (s.scan c valid).result?.isSome then some c.position else c.markedEnd?
    rw [Scanner.cursor_scan]
    split <;> rfl

theorem result?_act :
    (c.act action).result? =
      if (c.entry action).begins then none else (c.entry action).kind?.or c.result? := by
  cases action with
  | move move =>
    cases move with
    | advance skip =>
      show (c.advance skip).result? = c.result?
      unfold advance
      split <;> rfl
    | markEnd | setResult kind | beginToken => rfl
  | scan s valid =>
    show (s.scan c valid).cursor.result? = (s.scan c valid).result?.or c.result?
    rw [Scanner.cursor_scan]
    cases (s.scan c valid).result? with
    | none => rfl
    | some kind => cases kind; rfl

end Act

/-! ### Histories -/

variable (c : ByteCursor) (actions : List Action)

theorem history_append_singleton (action : Action) :
    c.history (actions ++ [action]) = (after c actions).entry action :: c.history actions := by
  rw [history, trace_append_singleton, List.reverse_append]
  rfl

theorem position_le_after : c.position ≤ (after c actions).position :=
  after_induction (P := fun d : ByteCursor => c.position ≤ d.position)
    (fun action _ d hd => Nat.le_trans hd (position_le_act d action)) (Nat.le_refl _)

theorem input_after : (after c actions).input = c.input :=
  after_induction (P := fun d : ByteCursor => d.input = c.input)
    (fun action _ d hd => (input_act d action).trans hd) rfl

theorem position_after_le (hc : c.position ≤ c.input.length) : (after c actions).position ≤ c.input.length := by
  have hinside : (after c actions).position ≤ (after c actions).input.length := by
    apply after_induction (P := fun d : ByteCursor => d.position ≤ d.input.length) ?_ hc
    intro action _ d hd
    rw [next_eq_act, input_act]
    exact position_act_le hd action
  rwa [input_after] at hinside

/-- Only the number of advances tells where a cursor has come to. -/
theorem samePlace_after :
    (after c actions).SamePlace
      (after c (List.replicate ((c.history actions).countP Entry.advances) (Move.advance false))) := by
  induction actions using List.reverseRecOn with
  | nil => exact .refl c
  | append_singleton actions action ih =>
    have hact := samePlace_act (after c actions) action
    rw [after_append_singleton, history_append_singleton, List.countP_cons]
    split
    · rename_i h
      rw [if_pos h] at hact
      rw [List.replicate_succ', after_append_singleton]
      exact hact.trans (ih.advance false false)
    · rename_i h
      rw [if_neg h] at hact
      exact hact.trans ih

theorem tokenStart_after :
    (after c actions).tokenStart =
      (((c.history actions).find? fun e => e.begins || e.skips).map fun e => e.reply.position).getD c.tokenStart := by
  induction actions using List.reverseRecOn with
  | nil => rfl
  | append_singleton actions action ih =>
    rw [after_append_singleton, next_eq_act, history_append_singleton, tokenStart_act, List.find?_cons]
    split
    · rename_i h
      rw [h]
      rfl
    · rename_i h
      rw [Bool.eq_false_iff.mpr h]
      exact ih

theorem markedEnd?_after (hc : c.markedEnd? = none) :
    (after c actions).markedEnd? =
      ((since Entry.begins (c.history actions)).find? Entry.marks).map fun e => e.before.position := by
  induction actions using List.reverseRecOn with
  | nil => exact hc
  | append_singleton actions action ih =>
    rw [after_append_singleton, next_eq_act, history_append_singleton, markedEnd?_act, since_cons]
    cases ((after c actions).entry action).begins with
    | true => rfl
    | false =>
      cases h : ((after c actions).entry action).marks with
      | true => simp [h]
      | false => simpa [h] using ih

theorem result?_after (hc : c.result? = none) :
    (after c actions).result? = (since Entry.begins (c.history actions)).findSome? Entry.kind? := by
  induction actions using List.reverseRecOn with
  | nil => exact hc
  | append_singleton actions action ih =>
    rw [after_append_singleton, next_eq_act, history_append_singleton, result?_act, since_cons]
    cases ((after c actions).entry action).begins with
    | true => rfl
    | false =>
      cases h : ((after c actions).entry action).kind? with
      | some kind => simp [h]
      | none => simpa [h] using ih

/-! ### Inverted spans -/

namespace Entry

theorem position_lt_of_skips {e : Entry} (h : e.skips = true) : e.before.position < e.reply.position := by
  rw [skips, Bool.and_eq_true, decide_eq_true_iff] at h
  exact h.2

theorem skips_of_marks {e : Entry} (h : e.marks = true) : e.skips = false := by
  obtain ⟨c, action, d⟩ := e
  cases action with
  | move move => cases move <;> first | rfl | cases h
  | scan s valid => rfl

end Entry

/-- The token begins and ends no later than the cursor, and it ends before it begins only if a character was skipped
since its end was marked. -/
structure Spans (c : ByteCursor) (past : List Entry) : Prop where
  tokenStart_le : c.tokenStart ≤ c.position
  markedEnd_le : ∀ stop, c.markedEnd? = some stop → stop ≤ c.position
  inverted_iff : ∀ stop, c.markedEnd? = some stop →
    (stop < c.tokenStart ↔ ∃ e ∈ since Entry.marks past, e.skips = true)

theorem Spans.act {c : ByteCursor} {past : List Entry} (h : Spans c past) (action : Action) :
    Spans (c.act action) (c.entry action :: past) := by
  have hmoved := position_le_act c action
  refine ⟨?_, ?_, ?_⟩
  · have hstart := h.tokenStart_le
    rw [tokenStart_act]
    split <;> omega
  · intro stop hstop
    rw [markedEnd?_act] at hstop
    split at hstop
    · cases hstop
    · split at hstop
      · cases hstop
        exact hmoved
      · have hle := h.markedEnd_le stop hstop
        omega
  · intro stop hstop
    have hstart := h.tokenStart_le
    rw [markedEnd?_act] at hstop
    rw [since_cons, tokenStart_act]
    cases hbegins : (c.entry action).begins with
    | true =>
      rw [hbegins] at hstop
      cases hstop
    | false =>
      cases hmarks : (c.entry action).marks with
      | true =>
        -- the end is marked at the cursor, so nothing was skipped since
        rw [hbegins, hmarks] at hstop
        cases hstop
        simp [Entry.skips_of_marks hmarks]
        omega
      | false =>
        rw [hbegins, hmarks] at hstop
        have hle := h.markedEnd_le stop hstop
        cases hskips : (c.entry action).skips with
        | true =>
          have hlt : c.position < (c.act action).position := Entry.position_lt_of_skips hskips
          simp [hskips]
          omega
        | false => simpa [hskips] using h.inverted_iff stop hstop

theorem spans_after (hs : c.tokenStart ≤ c.position) (hm : c.markedEnd? = none) :
    Spans (after c actions) (c.history actions) := by
  induction actions using List.reverseRecOn with
  | nil =>
    refine ⟨hs, ?_, ?_⟩
    · intro stop h
      rw [after_nil, hm] at h
      cases h
    · intro stop h
      rw [after_nil, hm] at h
      cases h
  | append_singleton actions action ih =>
    rw [after_append_singleton, next_eq_act, history_append_singleton]
    exact ih.act action

/-! ### The law -/

/-- The law of the token at a cursor, after any sequence of actions.  The cursor never goes back and never leaves the
input, and it is where as many advances without skipping lead to.  The token begins where the cursor was after the
latest of these: it was placed, a token began, or a character was skipped.  It ends where the cursor was when its end
was last marked since it began, and its kind is the one last set since then.  It begins and ends no later than the
cursor, and it ends before it begins if and only if a character was skipped after its end was marked. -/
theorem token_of_history (input : List UInt8) (offset : Nat) (actions : List Action) :
    let start := atOffset input offset
    let c := after start actions
    let past := start.history actions
    (c.input = input ∧ c.position ≤ input.length ∧
      (∀ n, (after start (actions.take n)).position ≤ c.position) ∧
      c.position = (after start (List.replicate (past.countP Entry.advances) (Move.advance false))).position) ∧
    c.tokenStart =
      ((past.find? fun e => e.begins || e.skips).map fun e => e.reply.position).getD start.position ∧
    c.markedEnd? = ((since Entry.begins past).find? Entry.marks).map (fun e => e.before.position) ∧
    c.result? = (since Entry.begins past).findSome? Entry.kind? ∧
    c.tokenStart ≤ c.position ∧
    (∀ stop, c.markedEnd? = some stop → stop ≤ c.position) ∧
    ∀ first stop, c.tokenSpan? = some (first, stop) →
      (stop < first ↔ ∃ e ∈ since Entry.marks past, e.skips = true) := by
  intro start c past
  have hspans : Spans c past := spans_after start actions (Nat.le_refl _) rfl
  have hmonotone : ∀ n, (after start (actions.take n)).position ≤ c.position := by
    intro n
    have hsplit := after_append start (actions.take n) (actions.drop n)
    rw [List.take_append_drop] at hsplit
    show _ ≤ (after start actions).position
    rw [hsplit]
    exact position_le_after _ _
  refine ⟨⟨input_after start actions, position_after_le start actions (position_atOffset_le input offset), hmonotone,
    (samePlace_after start actions).2⟩, tokenStart_after start actions, markedEnd?_after start actions rfl,
    result?_after start actions rfl, hspans.tokenStart_le, hspans.markedEnd_le, ?_⟩
  intro first stop hspan
  rw [tokenSpan?, Option.map_eq_some_iff] at hspan
  obtain ⟨stop', hstop, hpair⟩ := hspan
  cases hpair
  exact hspans.inverted_iff stop hstop

/-- The end of a token is marked before a character that is skipped, and after it nothing is left to skip. -/
theorem inverted_after_skip :
    let start := atOffset [0x61, 0x20] 1
    let actions : List Action := [.move .markEnd, .move (.advance true), .move (.advance true)]
    (after start actions).tokenSpan? = some (2, 1) ∧
      ((start.history actions).map fun e => (e.marks, e.skips)) = [(false, false), (false, true), (true, false)] ∧
      ∃ e ∈ since Entry.marks (start.history actions), e.skips = true := by
  intro start actions
  have hspan : (after start actions).tokenSpan? = some (2, 1) := by decide +kernel
  obtain ⟨-, -, -, -, -, -, hinverted⟩ := token_of_history [0x61, 0x20] 1 actions
  exact ⟨hspan, by decide +kernel, (hinverted 2 1 hspan).mp (by decide)⟩

end EndOfInput.ByteCursor
