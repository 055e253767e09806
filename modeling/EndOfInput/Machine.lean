/-!
# Machines

A machine takes one step after another and replies to each.  Scanners, cursors, sessions and engines are machines, and
what is true of the runs of all of them is proved here once.

* (runs) `Machine.run` are the replies of a run, `Machine.after` is the state after it, and `Machine.trace` is the list
  of its entries;
* (places in a trace) `Machine.eq_of_trace`: an entry is determined by the steps before it; `Machine.adjacent_of_trace`:
  an entry begins where the one before it ended;
* (invariants) `Machine.after_induction`: what every step keeps, a run keeps;
* (two machines) `Machine.simulation`: machines that stay related step by step, and show the same at each step, show the
  same in their runs.
-/

namespace EndOfInput

universe u v w u' v' w' a b

/-- A system that takes steps and replies to them. -/
class Machine (σ : Type u) (ι : Type v) (ω : outParam (Type w)) where
  reply : σ → ι → ω
  /-- The state after a step. -/
  next : σ → ι → σ

namespace Machine

/-- A step of a run, with the state before it and the reply. -/
structure Entry (σ : Type u) (ι : Type v) (ω : Type w) where
  before : σ
  step : ι
  reply : ω

section Run

variable {σ : Type u} {ι : Type v} {ω : Type w} [Machine σ ι ω]

/-- The replies of a run. -/
def run (s : σ) : List ι → List ω
  | [] => []
  | step :: steps => reply s step :: run (next s step) steps

/-- The state after a run. -/
def after (s : σ) (steps : List ι) : σ :=
  steps.foldl next s

/-- The steps of a run, each with the state before it and the reply. -/
def trace (s : σ) : List ι → List (Entry σ ι ω)
  | [] => []
  | step :: steps => ⟨s, step, reply s step⟩ :: trace (next s step) steps

/-! ### Runs step by step -/

@[simp] theorem run_cons (s : σ) (step : ι) (steps : List ι) :
    run s (step :: steps) = reply s step :: run (next s step) steps := rfl

@[simp] theorem after_nil (s : σ) : after s ([] : List ι) = s := rfl

@[simp] theorem after_cons (s : σ) (step : ι) (steps : List ι) :
    after s (step :: steps) = after (next s step) steps := rfl

theorem after_append (s : σ) (steps later : List ι) : after s (steps ++ later) = after (after s steps) later :=
  List.foldl_append

theorem after_append_singleton (s : σ) (steps : List ι) (step : ι) :
    after s (steps ++ [step]) = next (after s steps) step :=
  after_append s steps [step]

@[simp] theorem trace_cons (s : σ) (step : ι) (steps : List ι) :
    trace s (step :: steps) = ⟨s, step, reply s step⟩ :: trace (next s step) steps := rfl

theorem trace_append (s : σ) (steps later : List ι) :
    trace s (steps ++ later) = trace s steps ++ trace (after s steps) later := by
  induction steps generalizing s with
  | nil => rfl
  | cons step steps ih => simp only [List.cons_append, trace_cons, ih, after_cons]

theorem trace_append_singleton (s : σ) (steps : List ι) (step : ι) :
    trace s (steps ++ [step]) = trace s steps ++ [⟨after s steps, step, reply (after s steps) step⟩] :=
  trace_append s steps [step]

@[simp] theorem map_reply_trace (s : σ) (steps : List ι) : (trace s steps).map Entry.reply = run s steps := by
  induction steps generalizing s with
  | nil => rfl
  | cons step steps ih => rw [trace_cons, List.map_cons, ih, run_cons]

/-! ### Places in a trace -/

/-- What stands before an entry of a trace is a trace too, the entry begins with the state after it, and its reply is
that of the state to its step. -/
theorem eq_of_trace {s : σ} {steps : List ι} {past future : List (Entry σ ι ω)} {e : Entry σ ι ω}
    (h : trace s steps = past ++ e :: future) :
    past = trace s (past.map Entry.step) ∧ e.before = after s (past.map Entry.step) ∧
      e.reply = reply e.before e.step := by
  induction past generalizing s steps with
  | nil =>
    cases steps with
    | nil => cases h
    | cons step steps =>
      obtain ⟨rfl, -⟩ := List.cons.inj h
      exact ⟨rfl, rfl, rfl⟩
  | cons first past ih =>
    cases steps with
    | nil => cases h
    | cons step steps =>
      obtain ⟨rfl, htail⟩ := List.cons.inj h
      obtain ⟨hpast, hbefore, hreply⟩ := ih htail
      exact ⟨congrArg (_ :: ·) hpast, hbefore, hreply⟩

/-- Of two entries in a row, the second begins where the first ended. -/
theorem adjacent_of_trace {s : σ} {steps : List ι} {past future : List (Entry σ ι ω)} {first e : Entry σ ι ω}
    (h : trace s steps = past ++ first :: e :: future) :
    e.before = next first.before first.step ∧ e.reply = reply e.before e.step := by
  obtain ⟨-, hfirst, -⟩ := eq_of_trace h
  rw [List.append_cons] at h
  obtain ⟨-, hbefore, hreply⟩ := eq_of_trace h
  refine ⟨?_, hreply⟩
  rw [hbefore, hfirst, List.map_append, List.map_singleton, after_append_singleton]

/-! ### Invariants -/

/-- What every step of a run keeps is kept by the run. -/
theorem after_induction {P : σ → Prop} {steps : List ι} (hstep : ∀ step ∈ steps, ∀ s, P s → P (next s step)) {s : σ}
    (hs : P s) : P (after s steps) := by
  induction steps generalizing s with
  | nil => exact hs
  | cons step steps ih =>
    obtain ⟨hfirst, hrest⟩ := List.forall_mem_cons.mp hstep
    exact ih hrest (hfirst s hs)

end Run

/-! ### Two machines -/

section Simulation

variable {σ : Type u} {ι : Type v} {ω : Type w} [Machine σ ι ω] {τ : Type u'} {κ : Type v'} {ω' : Type w'}
  [Machine τ κ ω'] {α : Type a} {β : Type b} {R : σ → τ → Prop} {f : α → ι} {g : α → κ} {p : ω → β} {q : ω' → β}

/-- Two machines take the same steps, each in its own way.  If in related states they show the same of their replies and
stay related, their runs show the same. -/
theorem simulation (hstep : ∀ a x y, R x y → p (reply x (f a)) = q (reply y (g a)) ∧ R (next x (f a)) (next y (g a)))
    {x : σ} {y : τ} (h : R x y) (as : List α) :
    (run x (as.map f)).map p = (run y (as.map g)).map q ∧ R (after x (as.map f)) (after y (as.map g)) := by
  induction as generalizing x y with
  | nil => exact ⟨rfl, h⟩
  | cons a as ih =>
    obtain ⟨hreply, hnext⟩ := hstep a x y h
    obtain ⟨hrun, hafter⟩ := ih hnext
    refine ⟨?_, hafter⟩
    simp only [List.map_cons, run_cons, hreply, hrun]

/-- If both machines take the very same steps, and reply the same in related states, their runs are the same. -/
theorem simulation_of_same_steps [Machine τ ι ω]
    (hstep : ∀ (step : ι) (x : σ) (y : τ), R x y → reply x step = reply y step ∧ R (next x step) (next y step))
    {x : σ} {y : τ} (h : R x y) (steps : List ι) : run x steps = run y steps ∧ R (after x steps) (after y steps) := by
  have hsteps := simulation (f := id) (g := id) (p := id) (q := id) hstep h steps
  rwa [List.map_id, List.map_id, List.map_id] at hsteps

end Simulation

end Machine

end EndOfInput
