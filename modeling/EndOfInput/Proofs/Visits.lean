import EndOfInput.Parse
import EndOfInput.Proofs.Boundaries
import EndOfInput.Proofs.Emission

/-!
# The visits of a parse

The visits of a parse in closed form (`Scanner.visits_eq`).  At the boundaries before the end nothing is found, and
the first of them clears the marker.  At the end the scanner has the marker with which the parse began, if the parse
began there, and a clear one if not.  A set marker, or a parser that accepts no end of the input, is told nothing
at each visit, and otherwise the end of the input is found at the first visit and repeated at the others.  So there are
four kinds of visits (`Scanner.mem_visits`), and what is kept of each is read off its kind.
-/

namespace EndOfInput

namespace Visit

/-- A visit before the end. -/
def passing (marked : Bool) (p : Nat) : Visit :=
  ⟨p, none, none, [0x10], if marked then [.continued] else []⟩

def emitted (p : Nat) : Visit :=
  ⟨p, some .endOfInput, some (p, p), [0x11], [.emitted]⟩

def repeated (p : Nat) : Visit :=
  ⟨p, none, none, [0x11], [.repeated]⟩

def unacceptable (p : Nat) : Visit :=
  ⟨p, none, none, [0x10], [.unacceptable]⟩

/-- The visits at some boundaries before the end, with the marker before the first of them. -/
def passes (marked : Bool) : List Nat → List Visit
  | [] => []
  | p :: ps => passing marked p :: ps.map (passing false)

theorem passes_false (ps : List Nat) : passes false ps = ps.map (passing false) := by
  cases ps <;> rfl

theorem passes_cons (marked : Bool) (p : Nat) (ps : List Nat) :
    passes marked (p :: ps) = passing marked p :: passes false ps := by
  rw [passes_false]
  rfl

theorem mem_passes {marked : Bool} {ps : List Nat} {visit : Visit} (h : visit ∈ passes marked ps) :
    ∃ p ∈ ps, ∃ marked', visit = passing marked' p := by
  cases ps with
  | nil => cases h
  | cons p ps =>
    rcases List.mem_cons.mp h with rfl | h
    · exact ⟨p, List.mem_cons_self, marked, rfl⟩
    · obtain ⟨q, hq, rfl⟩ := List.mem_map.mp h
      exact ⟨q, List.mem_cons_of_mem p hq, false, rfl⟩

theorem map_position_passes (marked : Bool) (ps : List Nat) : (passes marked ps).map position = ps := by
  cases ps with
  | nil => rfl
  | cons p ps =>
    rw [passes, List.map_cons, List.map_map]
    exact congrArg (p :: ·) (List.map_id ps)

/-! ### What is kept of some visits -/

/-- What is the same for all visits before the end. -/
theorem map_passes {β : Type} {f : Visit → β} {b : β} (h : ∀ marked p, f (passing marked p) = b) (marked : Bool)
    (ps : List Nat) :
    (passes marked ps).map f = List.replicate ps.length b := by
  rw [List.eq_replicate_iff]
  constructor
  · cases ps <;> simp [passes]
  · intro y hy
    obtain ⟨visit, hvisit, rfl⟩ := List.mem_map.mp hy
    obtain ⟨p, -, marked', rfl⟩ := mem_passes hvisit
    exact h marked' p

theorem hits_append (xs ys : List Visit) : hits (xs ++ ys) = hits xs ++ hits ys :=
  List.filterMap_append

theorem logOf_append (xs ys : List Visit) : logOf (xs ++ ys) = logOf xs ++ logOf ys :=
  List.flatMap_append

theorem hits_passes (marked : Bool) (ps : List Nat) : hits (passes marked ps) = [] := by
  rw [hits, List.filterMap_eq_nil_iff]
  intro visit h
  obtain ⟨p, -, marked', rfl⟩ := mem_passes h
  rfl

private theorem logOf_passes_false (ps : List Nat) : logOf (passes false ps) = [] := by
  induction ps with
  | nil => rfl
  | cons p ps ih =>
    rw [passes_cons]
    exact ih

/-- A set marker is cleared, and that is reported, at the first boundary before the end. -/
theorem logOf_passes (marked : Bool) (ps : List Nat) :
    logOf (passes marked ps) = if marked = true ∧ 0 < ps.length then [.continued] else [] := by
  cases ps with
  | nil => rw [if_neg fun h => Nat.lt_irrefl 0 h.2]; rfl
  | cons p ps =>
    have hlog : logOf (passes marked (p :: ps)) = if marked then [.continued] else [] := by
      rw [passes_cons]
      show (passing marked p).log ++ logOf (passes false ps) = _
      rw [logOf_passes_false, List.append_nil]
      rfl
    rw [hlog]
    simp

theorem hits_replicate {visit : Visit} (h : visit.hit? = none) (n : Nat) : hits (List.replicate n visit) = [] :=
  List.filterMap_replicate_of_none h

theorem logOf_replicate {visit : Visit} {event : Event} (h : visit.log = [event]) (n : Nat) :
    logOf (List.replicate n visit) = List.replicate n event := by
  rw [logOf, List.flatMap_replicate, h, List.flatten_replicate_singleton]

/-- A match and the visits after it are one hit. -/
theorem hits_emitted (stop n : Nat) : hits (emitted stop :: List.replicate n (repeated stop)) = [some (stop, stop)] :=
  congrArg (some (stop, stop) :: ·) (hits_replicate rfl n)

theorem logOf_emitted (stop n : Nat) :
    logOf (emitted stop :: List.replicate n (repeated stop)) = .emitted :: List.replicate n .repeated :=
  congrArg (Event.emitted :: ·) (logOf_replicate rfl n)

end Visit

namespace Scanner

/-- The visits at the end, by a scanner that arrives there and knocks `n` more times. -/
def stays (s : Scanner) (valid : Acceptable) (stop n : Nat) : List Visit :=
  if s.marked then List.replicate (n + 1) (.repeated stop)
  else if s.options.Admits valid then .emitted stop :: List.replicate n (.repeated stop)
  else List.replicate (n + 1) (.unacceptable stop)

theorem record_of_marked (s : Scanner) : s.record = [if s.marked then 0x11 else 0x10] := by
  rw [record_eq, State.encode_eq]
  rfl

/-! ### Visits at the end -/

section AtEnd

variable {s : Scanner} {c : ByteCursor} {valid : Acceptable}

/-- If a scan at the end changes nothing, all knocks there are the same. -/
private theorem knocks_of_declined {event : Event}
    (hscan : ∀ d : ByteCursor, d.isEnd = true → s.scan d valid = ⟨none, s, d, [event]⟩) (h : c.isEnd = true) (n : Nat) :
    s.knocks valid c n = List.replicate n ⟨c.position, none, none, s.record, [event]⟩ := by
  induction n generalizing c with
  | zero => rfl
  | succ n ih =>
    have hb : c.beginToken.isEnd = true := h
    rw [knocks, scanFresh, hscan c.beginToken hb, List.replicate_succ]
    show Visit.ofScanned _ :: s.knocks valid c.beginToken n = _
    rw [ih hb]
    rfl

private theorem knocks_of_marked (h : c.isEnd = true) (hm : s.marked = true) (n : Nat) :
    s.knocks valid c n = List.replicate n (.repeated c.position) := by
  rw [knocks_of_declined (fun d hd => scan_of_marked hd hm) h, record_of_marked, hm]
  rfl

private theorem knocks_of_not_admits (h : c.isEnd = true) (hm : s.marked = false) (ha : ¬s.options.Admits valid)
    (n : Nat) : s.knocks valid c n = List.replicate n (.unacceptable c.position) := by
  rw [knocks_of_declined (fun d hd => scan_of_not_admits hd hm ha) h, record_of_marked, hm]
  rfl

private theorem knocks_of_admits (h : c.isEnd = true) (hm : s.marked = false) (ha : s.options.Admits valid) (n : Nat) :
    s.knocks valid c (n + 1) = .emitted c.position :: List.replicate n (.repeated c.position) := by
  rw [knocks, scanFresh, scan_of_admits (c := c.beginToken) h hm ha]
  show Visit.ofScanned _ :: (s.mark true).knocks valid ((c.beginToken.markEnd).setResult .endOfInput) n = _
  rw [knocks_of_marked (c := (c.beginToken.markEnd).setResult .endOfInput) h rfl, Visit.ofScanned, record_of_marked]
  rfl

theorem knocks_eq_stays (h : c.isEnd = true) (n : Nat) :
    s.knocks valid c (n + 1) = s.stays valid c.position n := by
  unfold stays
  split
  · rename_i hm
    exact knocks_of_marked h hm (n + 1)
  · rename_i hm
    have hm : s.marked = false := Bool.eq_false_iff.mpr hm
    split
    · rename_i ha
      exact knocks_of_admits h hm ha n
    · rename_i ha
      exact knocks_of_not_admits h hm ha (n + 1)

end AtEnd

section Stays

variable {s : Scanner} {valid : Acceptable} {stop n : Nat}

theorem stays_of_marked (hm : s.marked = true) : s.stays valid stop n = List.replicate (n + 1) (.repeated stop) :=
  if_pos hm

theorem stays_of_admits (hm : s.marked = false) (ha : s.options.Admits valid) :
    s.stays valid stop n = .emitted stop :: List.replicate n (.repeated stop) := by
  rw [stays, if_neg (by simp [hm]), if_pos ha]

theorem stays_of_not_admits (hm : s.marked = false) (ha : ¬s.options.Admits valid) :
    s.stays valid stop n = List.replicate (n + 1) (.unacceptable stop) := by
  rw [stays, if_neg (by simp [hm]), if_neg ha]

theorem mem_stays {visit : Visit} (h : visit ∈ s.stays valid stop n) :
    visit = .emitted stop ∨ visit = .repeated stop ∨ ¬s.options.Admits valid ∧ visit = .unacceptable stop := by
  unfold stays at h
  split at h
  · exact .inr (.inl (List.eq_of_mem_replicate h))
  · split at h
    · rcases List.mem_cons.mp h with h | h
      · exact .inl h
      · exact .inr (.inl (List.eq_of_mem_replicate h))
    · rename_i ha
      exact .inr (.inr ⟨ha, List.eq_of_mem_replicate h⟩)

theorem length_stays (s : Scanner) (valid : Acceptable) (stop n : Nat) : (s.stays valid stop n).length = n + 1 := by
  unfold stays
  split
  · exact List.length_replicate
  · split
    · rw [List.length_cons, List.length_replicate]
    · exact List.length_replicate

theorem map_position_stays (s : Scanner) (valid : Acceptable) (stop n : Nat) :
    (s.stays valid stop n).map Visit.position = List.replicate (n + 1) stop := by
  rw [List.eq_replicate_iff]
  constructor
  · rw [List.length_map, length_stays]
  · intro p hp
    obtain ⟨visit, hvisit, rfl⟩ := List.mem_map.mp hp
    rcases mem_stays hvisit with rfl | rfl | ⟨-, rfl⟩ <;> rfl

end Stays

/-! ### All visits -/

/-- The visits of a parse: those before the end, and those at the end by the scanner that arrives there. -/
theorem visits_eq (s : Scanner) (valid : Acceptable) (n : Nat) {c : ByteCursor} (hc : c.position ≤ c.input.length) :
    s.visits valid n c =
      Visit.passes s.marked c.boundaries.dropLast ++
        (s.mark (s.marked && c.isEnd)).stays valid c.input.length n := by
  fun_induction visits s valid n c with
  | case1 s c h =>
    have hp : c.position = c.input.length := by
      have := ByteCursor.isEnd_iff.mp h
      omega
    rw [ByteCursor.boundaries_of_isEnd h, knocks_eq_stays h, hp, h, Bool.and_true]
    rfl
  | case2 s c h scanned ih =>
    have he : c.isEnd = false := Bool.eq_false_iff.mpr h
    -- the scan clears the marker, so the rest of the parse begins with a clear one
    have hs : scanned = ⟨none, s.mark false, c.beginToken, if s.marked then [.continued] else []⟩ :=
      scan_of_not_isEnd (c := c.beginToken) he
    rw [hs] at ih ⊢
    have hd := ih (by rw [ByteCursor.input_advance]; exact ByteCursor.position_advance_le (c := c.beginToken) hc false)
    rw [hd, ByteCursor.boundaries_of_not_isEnd he,
      List.dropLast_cons_of_ne_nil (ByteCursor.boundaries_ne_nil _), marked_mark, Visit.passes_false,
      ByteCursor.input_advance, he, Bool.and_false, Bool.false_and, Visit.ofScanned, record_of_marked]
    rfl

/-- What each visit of a parse can be. -/
theorem mem_visits {s : Scanner} {valid : Acceptable} {n : Nat} {c : ByteCursor} (hc : c.position ≤ c.input.length)
    {visit : Visit} (h : visit ∈ s.visits valid n c) :
    (∃ p < c.input.length, ∃ marked, visit = .passing marked p) ∨ visit = .emitted c.input.length ∨
      visit = .repeated c.input.length ∨ ¬s.options.Admits valid ∧ visit = .unacceptable c.input.length := by
  rw [visits_eq s valid n hc, List.mem_append] at h
  rcases h with h | h
  · obtain ⟨p, hp, marked, rfl⟩ := Visit.mem_passes h
    exact .inl ⟨p, (ByteCursor.boundaries_eq hc).2 p hp, marked, rfl⟩
  · have hkinds := mem_stays h
    exact .inr hkinds

/-- A token is left at the cursor exactly if the scan found one, and it is empty and at the end. -/
theorem span?_of_mem_visits {s : Scanner} {valid : Acceptable} {n : Nat} {c : ByteCursor}
    (hc : c.position ≤ c.input.length) {visit : Visit} (h : visit ∈ s.visits valid n c) :
    visit.span? = visit.result?.map fun _ => (c.input.length, c.input.length) := by
  rcases mem_visits hc h with ⟨p, -, marked, rfl⟩ | rfl | rfl | ⟨-, rfl⟩ <;> rfl

/-- A parse visits each boundary once, and the end `n` times more. -/
theorem map_position_visits {s : Scanner} {valid : Acceptable} {n : Nat} {c : ByteCursor}
    (hc : c.position ≤ c.input.length) :
    (s.visits valid n c).map Visit.position = c.boundaries ++ List.replicate n c.input.length := by
  obtain ⟨hlast, -⟩ := ByteCursor.boundaries_eq hc
  rw [visits_eq s valid n hc, List.map_append, Visit.map_position_passes, map_position_stays, List.replicate_succ]
  conv => rhs; rw [hlast]
  rw [List.append_assoc]
  rfl

end Scanner

end EndOfInput
