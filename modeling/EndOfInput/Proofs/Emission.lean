import EndOfInput.Cursor.Bytes
import EndOfInput.Proofs.Restore
import EndOfInput.Proofs.Scan
import EndOfInput.Scanner.Run

/-!
# When the end of the input is found

A scan finds the end of the input exactly if its cursor is there, the options in force admit it, and the scanner is
armed: the latest entry of the trace that settles the marker (a match, a scan before the end, a reset, or a load) is
not a match, nor a load of the record of the set marker.

* (one step) `marked_step`: an entry that settles the marker clears it if it rearms the scanner and sets it if not,
  and any other entry leaves it as it is;
* (a run) `marked_after_iff`: the marker is clear exactly if the scanner is armed;
* (between two matches) `exists_rearms_of_found`: some operation between them rearms the scanner.
-/

namespace EndOfInput.Scanner

universe u

open Machine

variable {γ : Type u} [Cursor γ]

/-- The scans before the end, the resets, and the loads of any record but that of the set marker. -/
def Op.rearms : Op γ → Bool
  | .scan c _ => !Cursor.isEnd c
  | .load record => record ≠ [0x11]
  | .reset => true
  | .save _ | .setOptions _ => false

/-- The scans before the end, the scans that found a token, the resets, and the loads. -/
def Entry.settles (e : Entry γ) : Bool :=
  match e.step with
  | .scan c _ => !Cursor.isEnd c || e.reply.token?.isSome
  | .load _ | .reset => true
  | .save _ | .setOptions _ => false

/-- The latest entry that settles the marker rearms the scanner.  If there is none, the marker was clear from the
start. -/
def Armed (marked : Bool) (past : List (Entry γ)) : Prop :=
  match past.findRev? Entry.settles with
  | some e => e.step.rearms = true
  | none => marked = false

def Op.options? : Op γ → Option Options
  | .setOptions options => some options
  | _ => none

/-- The options in force after some entries: those of the latest entry with options, or the initial ones. -/
def inForce (initial : Options) (past : List (Entry γ)) : Options :=
  (past.findSomeRev? fun e => e.step.options?).getD initial

/-! ### One step -/

private theorem token?_step_scan (s : Scanner) (c : γ) (valid : Acceptable) :
    (s.step (.scan c valid)).token? = (s.scan c valid).result? := rfl

/-- An entry that settles the marker clears it if it rearms the scanner and sets it if not. -/
theorem marked_step (s : Scanner) (op : Op γ) :
    (s.step op).scanner.marked = if Entry.settles ⟨s, op, s.step op⟩ then !op.rearms else s.marked := by
  cases op with
  | scan c valid =>
    rw [Entry.settles, Op.rearms, Bool.not_not]
    exact marked_scan s c valid
  | save buffer => rfl
  | load record =>
    show (s.load record).scanner.marked = !decide (record ≠ [0x11])
    rw [marked_load, decide_not, Bool.not_not]
  | reset => rfl
  | setOptions options => rfl

theorem options_step (s : Scanner) (op : Op γ) : (s.step op).scanner.options = op.options?.getD s.options := by
  cases op with
  | scan c valid => exact options_scan s c valid
  | save buffer => rfl
  | load record => exact options_load s record
  | reset => rfl
  | setOptions options => rfl

/-- A match is a scan with a clear marker, and sets it. -/
theorem marked_of_found {s : Scanner} {op : Op γ} (h : (s.step op).token? = some .endOfInput) :
    s.marked = false ∧ (s.step op).scanner.marked = true := by
  cases op with
  | scan c valid =>
    rw [token?_step_scan] at h
    obtain ⟨he, -, hm⟩ := result?_scan_iff.mp h
    refine ⟨hm, ?_⟩
    show (s.scan c valid).scanner.marked = true
    rw [marked_scan, h, he]
    rfl
  | save buffer => cases h
  | load record => cases h
  | reset => cases h
  | setOptions options => cases h

/-! ### Runs -/

private theorem armed_cons (marked : Bool) (e : Entry γ) (future : List (Entry γ)) :
    Armed marked (e :: future) ↔ Armed (if e.settles then !e.step.rearms else marked) future := by
  unfold Armed
  rw [List.findRev?]
  cases future.findRev? Entry.settles with
  | some f => rfl
  | none => cases h : e.settles <;> simp

/-- The marker is clear after a run exactly if the scanner is armed. -/
theorem marked_after_iff (s : Scanner) (ops : List (Op γ)) :
    (after s ops).marked = false ↔ Armed s.marked (trace s ops) := by
  induction ops generalizing s with
  | nil => rfl
  | cons op ops ih =>
    -- if no later entry settles the marker, the first one does, or the initial marker is left
    rw [after_cons, trace_cons, armed_cons, ih, next_eq, reply_eq, marked_step]

theorem options_after (s : Scanner) (ops : List (Op γ)) :
    (after s ops).options = inForce s.options (trace s ops) := by
  induction ops generalizing s with
  | nil => rfl
  | cons op ops ih =>
    rw [after_cons, trace_cons, ih, next_eq, options_step]
    unfold inForce
    rw [List.findSomeRev?]
    cases (trace (s.step op).scanner ops).findSomeRev? fun e => e.step.options? <;> rfl

/-- A set marker stays set as long as no operation rearms the scanner. -/
theorem marked_after_of_not_rearms {s : Scanner} (hs : s.marked = true) {ops : List (Op γ)}
    (h : ∀ op ∈ ops, op.rearms = false) : (after s ops).marked = true := by
  apply after_induction (P := fun t : Scanner => t.marked = true) ?_ hs
  intro op hop t ht
  rw [next_eq, marked_step, h op hop, ht]
  split <;> rfl

/-- Between two matches some operation rearms the scanner. -/
theorem exists_rearms_of_found {s : Scanner} {op op' : Op γ} {between : List (Op γ)}
    (h₁ : (s.step op).token? = some .endOfInput)
    (h₂ : ((after (s.step op).scanner between).step op').token? = some .endOfInput) :
    ∃ b ∈ between, b.rearms = true := by
  obtain ⟨-, hm⟩ := marked_of_found h₁
  obtain ⟨hc, -⟩ := marked_of_found h₂
  refine Decidable.byContradiction fun hn => ?_
  have hb : ∀ b ∈ between, b.rearms = false := fun b h => Bool.eq_false_iff.mpr fun hr => hn ⟨b, h, hr⟩
  rw [marked_after_of_not_rearms hm hb] at hc
  cases hc

/-! ### The law -/

/-- The emission law.  In every run a scan finds the end of the input if and only if its cursor is there, the options
in force admit it, and the scanner is armed; between two matches some operation rearms the scanner; and an operation
that does not settle the marker, that is, a scan that declines at the end, a save or a change of options, leaves
the marker as it was. -/
theorem found_iff_armed (s : Scanner) (ops : List (Op γ)) :
    (∀ past before c valid outcome future, trace s ops = past ++ ⟨before, .scan c valid, outcome⟩ :: future →
      (outcome.token? = some .endOfInput ↔
        Cursor.isEnd c = true ∧
        ((inForce s.options past).honorAcceptable = false ∨ TokenKind.endOfInput ∈ valid) ∧
        Armed s.marked past)) ∧
    (∀ (past between future : List (Entry γ)) (first second : Entry γ),
      trace s ops = past ++ first :: between ++ second :: future →
      first.reply.token? = some .endOfInput → second.reply.token? = some .endOfInput →
      ∃ e ∈ between, e.step.rearms = true) ∧
    (∀ (past future : List (Entry γ)) (e : Entry γ), trace s ops = past ++ e :: future → e.settles = false →
      e.reply.scanner.marked = (after s (past.map Entry.step)).marked) := by
  refine ⟨?_, ?_, ?_⟩
  · intro past before c valid outcome future h
    obtain ⟨hpast, hbefore, hreply⟩ := eq_of_trace h
    have hoffered : outcome = (after s (past.map Entry.step)).step (.scan c valid) := by rw [← hbefore]; exact hreply
    rw [hoffered, token?_step_scan, result?_scan_iff, options_after, Options.admits_iff, marked_after_iff, ← hpast]
  · intro past between future first second h h₁ h₂
    -- the trace is split once at each of the two matches
    obtain ⟨-, hbefore₂, hreply₂⟩ := eq_of_trace h
    rw [List.append_assoc] at h
    obtain ⟨-, hbefore₁, hreply₁⟩ := eq_of_trace h
    rw [hreply₁, reply_eq] at h₁
    rw [hreply₂, hbefore₂, List.map_append, List.map_cons, after_append, after_cons, ← hbefore₁] at h₂
    obtain ⟨op, hop, hr⟩ := exists_rearms_of_found h₁ h₂
    obtain ⟨e, he, rfl⟩ := List.mem_map.mp hop
    exact ⟨e, he, hr⟩
  · intro past future e h he
    obtain ⟨-, hbefore, hreply⟩ := eq_of_trace h
    have hsettles : Entry.settles ⟨e.before, e.step, e.before.step e.step⟩ = false := by
      rw [← reply_eq, ← hreply]
      exact he
    rw [hreply, reply_eq, marked_step, hsettles, hbefore]
    rfl

/-- At one end the end of the input is found twice, and the load between the two matches is one that rearms. -/
theorem found_again_after_load :
    let knock : Op ByteCursor := .scan (.atEnd [0x61]) .all
    let ops := [knock, knock, .load [0x11], knock, .load [0x10], knock]
    let entries : List (Entry ByteCursor) := trace fresh ops
    entries.map (·.reply.token?) = [some .endOfInput, none, none, none, none, some .endOfInput] ∧
      ∃ e ∈ (entries.take 5).drop 1, e.step.rearms = true := by
  intro knock ops entries
  refine ⟨by decide, ?_⟩
  obtain ⟨-, hbetween, -⟩ := found_iff_armed fresh ops
  let last := after fresh (ops.take 5)
  exact hbetween [] _ [] ⟨fresh, knock, (fresh).step knock⟩ ⟨last, knock, last.step knock⟩ rfl rfl rfl

end EndOfInput.Scanner
