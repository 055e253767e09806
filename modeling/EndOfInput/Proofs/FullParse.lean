import EndOfInput.Proofs.Restore
import EndOfInput.Proofs.Visits

/-!
# What a whole parse finds, saves and reports

A parse from any offset of any bytes, by a scanner in any state (`Scanner.kept_of_visits`).  It saves the record of the
clear marker at each boundary before the end.  Whether it finds the end of the input depends on the marker only if it
begins there.
-/

namespace EndOfInput

namespace ByteCursor

/-- The boundaries before the end are all but the last one. -/
theorem filter_lt_boundaries {c : ByteCursor} (hc : c.position ≤ c.input.length) :
    c.boundaries.filter (fun p => p < c.input.length) = c.boundaries.dropLast := by
  obtain ⟨hlast, hlt⟩ := boundaries_eq hc
  have hbefore : c.boundaries.dropLast.filter (fun p => p < c.input.length) = c.boundaries.dropLast := by
    rw [List.filter_eq_self]
    intro p hp
    exact decide_eq_true (hlt p hp)
  have hend : [c.input.length].filter (fun p => p < c.input.length) = [] := by simp
  conv => lhs; rw [hlast]
  rw [List.filter_append, hbefore, hend, List.append_nil]

/-- A cursor is at the end if no boundary is before the end. -/
theorem isEnd_iff_dropLast_boundaries {c : ByteCursor} : c.isEnd = true ↔ c.boundaries.dropLast.length = 0 := by
  cases h : c.isEnd with
  | true => simp [boundaries_of_isEnd h]
  | false =>
    rw [boundaries_of_not_isEnd h, List.dropLast_cons_of_ne_nil (boundaries_ne_nil _), List.length_cons]
    simp

end ByteCursor

namespace Scanner

variable {s : Scanner} {valid : Acceptable} {k : Nat} {c : ByteCursor}

/-- A parse that begins at the end with a set marker is told at each visit that the end was found before. -/
theorem visits_of_marked (hc : c.isEnd = true) (hb : c.position ≤ c.input.length) (hm : s.marked = true) :
    s.visits valid k c = List.replicate (k + 1) (.repeated c.input.length) := by
  rw [visits_eq s valid k hb, ByteCursor.boundaries_of_isEnd hc, hm, hc]
  rfl

/-- Any other parse arrives at the end with a clear marker. -/
theorem visits_of_clear (hb : c.position ≤ c.input.length) (h : c.isEnd = false ∨ s.marked = false) :
    s.visits valid k c =
      Visit.passes s.marked c.boundaries.dropLast ++ (s.mark false).stays valid c.input.length k := by
  have hm : (s.marked && c.isEnd) = false := by rcases h with h | h <;> simp [h]
  rw [visits_eq s valid k hb, hm]

/-- The law of a whole parse, from any offset of any input, by a scanner in any state that may have loaded any record
before.  The parse visits each boundary from the offset on, and the end `k` more times, and a visit leaves a token
exactly if its scan found one, which is then empty and at the end.  Let `n` be the number of boundaries before the end.
If there are none and the marker is set, no scan finds anything, and all that is saved is the record of the set marker.
Otherwise the first scan at the end finds the end of the input if it is acceptable, and no other scan finds anything;
the records before the end have a clear marker, and those at the end have a set one if it was found; and the log tells
that the marker was cleared, if it was, and what was done at each visit at the end. -/
theorem kept_of_visits (input : List UInt8) (offset : Nat) (options : Options) (marked : Bool)
    (restored? : Option (List UInt8)) (valid : Acceptable) (k : Nat) :
    let initial : Scanner := ⟨{ marked }, options⟩
    let s := restored?.elim initial fun record => (initial.load record).scanner
    let c := ByteCursor.atOffset input offset
    let visits := s.visits valid k c
    let n := (c.boundaries.filter fun p => p < input.length).length
    let acceptable : Bool := options.honorAcceptable = false ∨ TokenKind.endOfInput ∈ valid
    visits.map Visit.position = c.boundaries ++ List.replicate k input.length ∧
    (∀ visit ∈ visits, visit.span? = visit.result?.map fun _ => (input.length, input.length)) ∧
    if n = 0 ∧ s.marked = true then
      visits.map Visit.result? = List.replicate (k + 1) none ∧
      Visit.hits visits = [] ∧
      Visit.records visits = List.replicate (k + 1) [0x11] ∧
      Visit.logOf visits = List.replicate (k + 1) .repeated
    else
      visits.map Visit.result? =
        List.replicate n none ++ (if acceptable then some .endOfInput else none) :: List.replicate k none ∧
      Visit.hits visits = (if acceptable then [some (input.length, input.length)] else []) ∧
      Visit.records visits =
        List.replicate n [0x10] ++ List.replicate (k + 1) [if acceptable then 0x11 else 0x10] ∧
      Visit.logOf visits = (if s.marked = true ∧ 0 < n then [.continued] else []) ++
        if acceptable then .emitted :: List.replicate k .repeated else List.replicate (k + 1) .unacceptable := by
  intro initial s c visits n acceptable
  have hb : c.position ≤ c.input.length := ByteCursor.position_atOffset_le input offset
  have hn : n = c.boundaries.dropLast.length := congrArg List.length (ByteCursor.filter_lt_boundaries hb)
  refine ⟨map_position_visits hb, fun visit h => span?_of_mem_visits hb h, ?_⟩
  split
  · rename_i h
    have hv : visits = List.replicate (k + 1) (.repeated input.length) :=
      visits_of_marked (ByteCursor.isEnd_iff_dropLast_boundaries.mpr (by rw [← hn, h.1])) hb h.2
    rw [hv]
    exact ⟨List.map_replicate, Visit.hits_replicate rfl _, List.map_replicate, Visit.logOf_replicate rfl _⟩
  · rename_i h
    have hclear : c.isEnd = false ∨ s.marked = false := by
      rw [Decidable.not_and_iff_or_not, hn, ← ByteCursor.isEnd_iff_dropLast_boundaries, Bool.not_eq_true,
        Bool.not_eq_true] at h
      exact h
    have hoptions : s.options = options := by
      cases restored? with
      | none => rfl
      | some record => exact options_load initial record
    have hadmits : (s.mark false).options.Admits valid ↔ acceptable = true := by
      rw [options_mark, hoptions, Options.admits_iff, decide_eq_true_iff]
    have hv : visits = Visit.passes s.marked c.boundaries.dropLast ++ (s.mark false).stays valid input.length k :=
      visits_of_clear hb hclear
    rw [hv, List.map_append, Visit.hits_append, Visit.records, List.map_append, Visit.logOf_append,
      Visit.map_passes (fun _ _ => rfl), Visit.hits_passes, Visit.map_passes (fun _ _ => rfl), Visit.logOf_passes, ← hn,
      List.nil_append]
    cases hacceptable : acceptable with
    | true =>
      rw [stays_of_admits rfl (hadmits.mpr hacceptable), List.map_cons, List.map_cons, List.map_replicate,
        List.map_replicate, Visit.hits_emitted, Visit.logOf_emitted]
      exact ⟨rfl, rfl, rfl, rfl⟩
    | false =>
      rw [stays_of_not_admits rfl (by rw [hadmits, hacceptable]; exact Bool.false_ne_true), List.map_replicate,
        List.map_replicate, Visit.hits_replicate rfl, Visit.logOf_replicate rfl]
      exact ⟨rfl, rfl, rfl, rfl⟩

end Scanner

end EndOfInput
