import EndOfInput.Proofs.EventLines
import EndOfInput.Proofs.Monotonicity
import Mathlib.Data.List.Count

/-!
# The log as an audit trail

The lines that the operations on a scanner leave tell what happened: how often the end of the input was found, which
records were refused, and, from the initial marker, the marker at the end.  Two runs with the same lines agree in all
of this, though their operations, their options and their lengths may differ (`Scanner.audit_of_lines`).  A reset is the
one operation that may change the marker and leaves no line.

* (one operation) `Scanner.marked_step_eq_told`, `Scanner.count_emitted_step`, `Scanner.refused_step_cases`;
* (runs) `Scanner.marked_after_eq_told`, `Scanner.count_emitted_logOf`, `Scanner.countP_refused_logOf`;
* (places in a log) `Scanner.exists_entry_of_logOf`: an event of the log of a run stands in the log of one operation.
-/

namespace EndOfInput

/-! ### What events tell -/

/-- The marker after an event, if the event tells it. -/
def Event.marker? : Event → Option Bool
  | .reading record => some (record = [0x11])
  | .continued => some false
  | .emitted => some true
  | .refused _ | .unfit _ | .repeated | .unacceptable | .noScanner => none

/-- The marker at the end of a log. -/
def Log.told (marked : Bool) (log : Log) : Bool :=
  log.foldl (fun marked e => e.marker?.getD marked) marked

def Event.isRefused : Event → Bool
  | .refused _ => true
  | _ => false

/-- A line that reports the refusal of a record. -/
def Refusal (line : String) : Prop :=
  "DEBUG refusing scanner state record err=".toList <+: line.toList

instance (line : String) : Decidable (Refusal line) :=
  inferInstanceAs (Decidable (_ <+: _))

theorem refusal_line_iff {e : Event} : Refusal e.line ↔ e.isRefused = true := by
  constructor
  · intro h
    have hopening : Event.opening (.refused (.unsupportedVersion 0)) = e.opening := Event.opening_eq_of_prefix h
    cases e with
    | refused error => rfl
    | _ => simp [Event.opening] at hopening
  · intro h
    cases e with
    | refused error => exact ⟨error.message.toList, (String.toList_append).symm⟩
    | _ => cases h

namespace Scanner

universe u v

open Machine

variable {γ : Type u} {δ : Type v} [Cursor γ] [Cursor δ]

/-! ### Logs of runs -/

/-- The events of a run, in order. -/
def logOf (entries : List (Entry γ)) : Log :=
  entries.flatMap fun e => e.reply.log

/-- The lines of a run, in order. -/
def linesOf (entries : List (Entry γ)) : List String :=
  entries.flatMap fun e => e.reply.log.lines

/-- The records that were refused. -/
def refusals (entries : List (Entry γ)) : Nat :=
  entries.countP fun e => e.reply.answer matches .loaded (.error _)

def Op.isReset : Op γ → Bool
  | .reset => true
  | _ => false

omit [Cursor γ] in
theorem linesOf_eq (entries : List (Entry γ)) : linesOf entries = (logOf entries).lines := by
  unfold linesOf logOf Log.lines
  rw [List.map_flatMap]

/-! ### One operation -/

theorem step_load_cases (s : Scanner) (record : List UInt8) :
    (∃ state, State.decode record = .ok state ∧
      s.step (γ := γ) (.load record) = ⟨.loaded (.ok ()), ⟨state, s.options⟩, [.reading record]⟩) ∨
    (∃ error, State.decode record = .error error ∧
      s.step (γ := γ) (.load record) = ⟨.loaded (.error error), s.reset, [.reading record, .refused error]⟩) := by
  rw [step]
  cases hd : State.decode record with
  | ok state => exact .inl ⟨state, rfl, by rw [load_of_ok hd]⟩
  | error error => exact .inr ⟨error, rfl, by rw [load_of_error hd]⟩

/-- An operation other than a reset tells every change of the marker. -/
theorem marked_step_eq_told (s : Scanner) {op : Op γ} (h : op.isReset = false) :
    (s.step op).scanner.marked = (s.step op).log.told s.marked := by
  cases op with
  | scan c valid =>
    show (s.scan c valid).scanner.marked = (s.scan c valid).log.told s.marked
    rcases scan_cases s c valid with ⟨-, hs⟩ | ⟨-, hm, hs⟩ | ⟨-, hm, -, hs⟩ | ⟨-, hm, -, hs⟩ <;> rw [hs]
    · cases hm : s.marked <;> rfl
    · rfl
    · rfl
    · rfl
  | load record =>
    have hmarked : (s.step (γ := γ) (.load record)).scanner.marked = decide (record = [0x11]) := marked_load s record
    rw [hmarked]
    -- an accepted record and a refused one differ only in the event that tells the refusal
    rcases step_load_cases (γ := γ) s record with ⟨state, -, hs⟩ | ⟨error, -, hs⟩ <;> rw [hs] <;> rfl
  | save buffer => rfl
  | reset => cases h
  | setOptions options => rfl

/-- A match is told by one event, and by nothing else. -/
theorem count_emitted_step (s : Scanner) (op : Op γ) :
    (s.step op).log.count .emitted = (s.step op).token?.isSome.toNat := by
  cases op with
  | scan c valid =>
    show (s.scan c valid).log.count .emitted = (s.scan c valid).result?.isSome.toNat
    rcases scan_cases s c valid with ⟨-, hs⟩ | ⟨-, -, hs⟩ | ⟨-, -, -, hs⟩ | ⟨-, -, -, hs⟩ <;> rw [hs]
    · cases s.marked <;> rfl
    · rfl
    · rfl
    · rfl
  | load record =>
    rcases step_load_cases (γ := γ) s record with ⟨state, -, hs⟩ | ⟨error, -, hs⟩ <;> rw [hs] <;> rfl
  | save buffer => rfl
  | reset => rfl
  | setOptions options => rfl

/-- An operation refuses a record and tells this right after the reading of the record, or it refuses none and tells no
refusal. -/
theorem refused_step_cases (s : Scanner) (op : Op γ) :
    (∃ record error, op = .load record ∧ (s.step op).answer = .loaded (.error error) ∧
      (s.step op).log = [.reading record, .refused error]) ∨
    ((s.step op).answer matches .loaded (.error _)) = false ∧ ∀ e ∈ (s.step op).log, e.isRefused = false := by
  cases op with
  | scan c valid =>
    right
    refine ⟨rfl, ?_⟩
    show ∀ e ∈ (s.scan c valid).log, e.isRefused = false
    rcases scan_cases s c valid with ⟨-, hs⟩ | ⟨-, -, hs⟩ | ⟨-, -, -, hs⟩ | ⟨-, -, -, hs⟩ <;> rw [hs]
    · cases s.marked <;> simp [Event.isRefused]
    all_goals simp [Event.isRefused]
  | load record =>
    rcases step_load_cases (γ := γ) s record with ⟨state, -, hs⟩ | ⟨error, -, hs⟩ <;> rw [hs]
    · exact .inr ⟨rfl, by simp [Event.isRefused]⟩
    · exact .inl ⟨record, error, rfl, rfl, rfl⟩
  | save buffer | reset | setOptions options => exact .inr ⟨rfl, by simp [step]⟩

theorem countP_refused_step (s : Scanner) (op : Op γ) :
    (s.step op).log.countP Event.isRefused =
      if (s.step op).answer matches .loaded (.error _) then 1 else 0 := by
  rcases refused_step_cases s op with ⟨record, error, -, hanswer, hlog⟩ | ⟨hanswer, hlog⟩
  · rw [hanswer, hlog]
    rfl
  · rw [hanswer, List.countP_eq_zero.mpr fun e he => by simp [hlog e he]]
    rfl

/-- A scan that tells nothing is one before the end, where the marker is clear. -/
theorem log_scan_eq_nil_iff {s : Scanner} {c : γ} {valid : Acceptable} :
    (s.scan c valid).log = [] ↔ Cursor.isEnd c = false ∧ s.marked = false := by
  rcases scan_cases s c valid with ⟨he, hs⟩ | ⟨he, -, hs⟩ | ⟨he, -, -, hs⟩ | ⟨he, -, -, hs⟩ <;> rw [hs, he]
  · cases s.marked <;> simp
  all_goals simp

/-! ### Runs -/

theorem told_append (marked : Bool) (log log' : Log) : (log ++ log').told marked = log'.told (log.told marked) :=
  List.foldl_append

theorem logOf_trace_cons (s : Scanner) (op : Op γ) (ops : List (Op γ)) :
    logOf (trace s (op :: ops)) = (s.step op).log ++ logOf (trace (s.step op).scanner ops) := rfl

/-- Without a reset, the marker after a run is the one that its log tells. -/
theorem marked_after_eq_told {s : Scanner} {ops : List (Op γ)} (h : ∀ op ∈ ops, op.isReset = false) :
    (after s ops).marked = (logOf (trace s ops)).told s.marked := by
  induction ops generalizing s with
  | nil => rfl
  | cons op ops ih =>
    obtain ⟨hop, hops⟩ := List.forall_mem_cons.mp h
    rw [after_cons, next_eq, ih hops, marked_step_eq_told s hop, logOf_trace_cons, told_append]

theorem count_emitted_logOf (s : Scanner) (ops : List (Op γ)) :
    (logOf (trace s ops)).count .emitted = found (trace s ops) := by
  induction ops generalizing s with
  | nil => rfl
  | cons op ops ih =>
    rw [logOf_trace_cons, List.count_append, ih, count_emitted_step, found_trace_cons, Nat.add_comm]

theorem countP_refused_logOf (s : Scanner) (ops : List (Op γ)) :
    (logOf (trace s ops)).countP Event.isRefused = refusals (trace s ops) := by
  induction ops generalizing s with
  | nil => rfl
  | cons op ops ih =>
    rw [logOf_trace_cons, List.countP_append, ih, countP_refused_step, trace_cons, next_eq, reply_eq, refusals,
      refusals, List.countP_cons, Nat.add_comm]

/-! ### Places in a log -/

omit [Cursor γ] in
/-- An event of the log of a run stands in the log of one operation. -/
theorem exists_entry_of_logOf {entries : List (Entry γ)} {above below : Log} {e : Event}
    (h : logOf entries = above ++ e :: below) :
    ∃ (past future : List (Entry γ)) (x : Entry γ) (log log' : Log), entries = past ++ x :: future ∧
      x.reply.log = log ++ e :: log' ∧ above = logOf past ++ log ∧ below = log' ++ logOf future := by
  induction entries generalizing above with
  | nil => simp [logOf] at h
  | cons x entries ih =>
    -- the event is told by the first operation or by a later one
    have hplace : (∃ log', x.reply.log = above ++ e :: log' ∧ below = log' ++ logOf entries) ∨
        ∃ rest, above = x.reply.log ++ rest ∧ logOf entries = rest ++ e :: below := by
      replace h : x.reply.log ++ logOf entries = above ++ e :: below := h
      rcases List.append_eq_append_iff.mp h with hrest | ⟨rest, hx, hrest⟩
      · exact .inr hrest
      · cases rest with
        | nil => exact .inr ⟨[], by rw [hx, List.append_nil, List.append_nil], hrest.symm⟩
        | cons f log' =>
          obtain ⟨rfl, hbelow⟩ := List.cons.inj hrest
          exact .inl ⟨log', hx, hbelow⟩
    rcases hplace with ⟨log', hx, hbelow⟩ | ⟨rest, habove, hrest⟩
    · exact ⟨[], entries, x, above, log', rfl, hx, rfl, hbelow⟩
    · obtain ⟨past, future, y, log, log', rfl, hy, hrest, hbelow⟩ := ih hrest
      refine ⟨x :: past, future, y, log, log', rfl, hy, ?_, hbelow⟩
      rw [habove, hrest, ← List.append_assoc]
      rfl

/-! ### Lines -/

/-- A line that reports the refusal of a record stands right after the line that opens the reading of this record. -/
theorem exists_load_of_refusal {s : Scanner} {ops : List (Op γ)} {above below : List String} {line : String}
    (h : linesOf (trace s ops) = above ++ line :: below) (hr : Refusal line) :
    ∃ past before record error outcome future, trace s ops = past ++ ⟨before, .load record, outcome⟩ :: future ∧
      outcome.answer = .loaded (.error error) ∧ above = linesOf past ++ [Event.line (.reading record)] ∧
      line = Event.line (.refused error) ∧ below = linesOf future := by
  rw [linesOf_eq, Log.lines, List.map_eq_append_iff] at h
  obtain ⟨events, events', hlog, rfl, hevents⟩ := h
  obtain ⟨e, rest, rfl, rfl, rfl⟩ := List.map_eq_cons_iff.mp hevents
  have hrefused : e.isRefused = true := refusal_line_iff.mp hr
  obtain ⟨past, future, ⟨before, op, outcome⟩, log, log', htrace, hx, rfl, rfl⟩ := exists_entry_of_logOf hlog
  obtain ⟨-, -, houtcome⟩ := eq_of_trace htrace
  dsimp only at hx houtcome
  have hmem : e ∈ outcome.log := by
    rw [hx]
    exact List.mem_append_right log List.mem_cons_self
  rw [houtcome, reply_eq] at hmem
  obtain ⟨record, error, rfl, hanswer, hstep⟩ := (refused_step_cases before op).resolve_right fun hnone =>
    absurd hrefused (by simp [hnone.2 e hmem])
  rw [← reply_eq, ← houtcome] at hanswer hstep
  -- of the two events of this operation the refusal is the second
  have hplace : log = [.reading record] ∧ e = .refused error ∧ log' = [] := by
    rw [hx] at hstep
    cases log with
    | nil =>
      obtain ⟨rfl, -⟩ := List.cons.inj hstep
      cases hrefused
    | cons f log =>
      obtain ⟨rfl, htail⟩ := List.cons.inj hstep
      simpa [List.append_eq_singleton_iff] using htail
  obtain ⟨rfl, rfl, rfl⟩ := hplace
  refine ⟨past, before, record, error, outcome, future, htrace, hanswer, ?_, rfl, ?_⟩
  · rw [linesOf_eq, Log.lines, List.map_append]
    rfl
  · rw [linesOf_eq, Log.lines]
    rfl

/-! ### The law -/

/-- The log is an audit trail.  Two runs without a reset that start with the same marker and leave the same lines end with
the same marker and find the end of the input equally often, whatever their operations, cursors and options were.  The
lines of every run tell how often the end was found and how many records were refused; a line that reports a refusal
stands right after the line that opens the reading of the refused record; and the scans that leave no line are those
before the end where the marker is clear. -/
theorem audit_of_lines :
    (∀ (s t : Scanner) (ops : List (Op γ)) (ops' : List (Op δ)), s.marked = t.marked →
      (∀ op ∈ ops, op.isReset = false) → (∀ op ∈ ops', op.isReset = false) →
      linesOf (trace s ops) = linesOf (trace t ops') →
      (after s ops).marked = (after t ops').marked ∧ found (trace s ops) = found (trace t ops')) ∧
    ∀ (s : Scanner) (ops : List (Op γ)),
      (linesOf (trace s ops)).count "TRACE emitting eof_tok" = found (trace s ops) ∧
      (linesOf (trace s ops)).countP (Refusal ·) = refusals (trace s ops) ∧
      (∀ above line below, linesOf (trace s ops) = above ++ line :: below → Refusal line →
        ∃ past before record error outcome future, trace s ops = past ++ ⟨before, .load record, outcome⟩ :: future ∧
          outcome.answer = .loaded (.error error) ∧ above = linesOf past ++ [Event.line (.reading record)] ∧
          line = Event.line (.refused error) ∧ below = linesOf future) ∧
      ∀ past before c valid outcome future, trace s ops = past ++ ⟨before, .scan c valid, outcome⟩ :: future →
        (outcome.log.lines = [] ↔ Cursor.isEnd c = false ∧ (after s (past.map Entry.step)).marked = false) := by
  constructor
  · intro s t ops ops' hm hops hops' hlines
    rw [linesOf_eq, linesOf_eq] at hlines
    have hlog : logOf (trace s ops) = logOf (trace t ops') := Log.lines_injective hlines
    constructor
    · rw [marked_after_eq_told hops, marked_after_eq_told hops', hlog, hm]
    · rw [← count_emitted_logOf, ← count_emitted_logOf, hlog]
  · intro s ops
    refine ⟨?_, ?_, fun above line below => exists_load_of_refusal, ?_⟩
    · rw [linesOf_eq, ← count_emitted_logOf]
      exact List.count_map_of_injective _ _ Event.line_injective .emitted
    · rw [linesOf_eq, Log.lines, List.countP_map, ← countP_refused_logOf]
      apply List.countP_congr
      intro e _
      simp only [Function.comp_apply, decide_eq_true_eq]
      exact refusal_line_iff
    · intro past before c valid outcome future htrace
      obtain ⟨-, hbefore, houtcome⟩ := eq_of_trace htrace
      rw [← hbefore, show outcome = _ from houtcome, Log.lines, List.map_eq_nil_iff]
      exact log_scan_eq_nil_iff

/-- The first run finds the end with the default options and is silent before it; the second declines no kind, is silent
elsewhere, and is offered nothing.  Both leave the same six lines, with one record accepted and one refused. -/
theorem audit_of_lines_of_unlike_runs :
    let early : ByteCursor := .atStart [0x61]
    let last : ByteCursor := .atEnd [0x61]
    let ops : List (Op ByteCursor) :=
      [.scan early .empty, .scan last .all, .load [0x11], .scan last .empty, .scan early .all, .load [0x2F],
        .scan early .all]
    let ops' : List (Op ByteCursor) :=
      [.scan last .empty, .setOptions {}, .load [0x11], .save [], .scan last .all, .scan early .empty, .load [0x2F]]
    let s : Scanner := fresh
    let t : Scanner := fresh { honorAcceptable := false }
    linesOf (trace s ops) = linesOf (trace t ops') ∧ (linesOf (trace s ops)).length = 6 ∧
      (after s ops).marked = (after t ops').marked ∧ found (trace s ops) = found (trace t ops') ∧
      refusals (trace s ops) = 1 ∧
      (linesOf (trace s ops)).countP (Refusal ·) = refusals (trace s ops) := by
  intro early last ops ops' s t
  have hlines : linesOf (trace s ops) = linesOf (trace t ops') := by
    rw [linesOf_eq, linesOf_eq]
    rfl
  obtain ⟨htwo, hone⟩ := audit_of_lines (γ := ByteCursor) (δ := ByteCursor)
  obtain ⟨hmarked, hfound⟩ := htwo s t ops ops' rfl (by simp [ops, Op.isReset]) (by simp [ops', Op.isReset]) hlines
  obtain ⟨-, hrefusals, -, -⟩ := hone s ops
  exact ⟨hlines, rfl, hmarked, hfound, rfl, hrefusals⟩

end Scanner

end EndOfInput
