import EndOfInput.Proofs.Visits

/-!
# Parsing again from a saved record

A parser that saved the records of one parse can begin the parse of an edited text at any boundary that lies within
it: it loads the record saved there, and parses from there on.  The end of the new text is found exactly once, or not
at all if the boundary was the old end and is the new one, where it was found before (`Scanner.resumed_visits`).

When the end of the input is acceptable, the record saved at a boundary depends on whether the boundary is the end,
and on nothing else (`Scanner.record_of_mem_visits`).  So the records of the resumed parse are those that a parse of
the new text from its start saves from the boundary on, if that parse visits the boundary.
-/

namespace EndOfInput

namespace Visit

/-- The boundary of a visit with the record saved there. -/
def checkpoint (visit : Visit) : Nat × List UInt8 :=
  (visit.position, visit.record)

end Visit

namespace Scanner

variable {s : Scanner} {c : ByteCursor} {valid : Acceptable} {n : Nat}

/-- Where the end of the input is acceptable, it is found once, unless the parse begins there with a set marker. -/
theorem hits_visits (ha : s.options.Admits valid) (hc : c.position ≤ c.input.length) :
    Visit.hits (s.visits valid n c) =
      if s.marked = true ∧ c.isEnd = true then [] else [some (c.input.length, c.input.length)] := by
  have hm : (s.mark (s.marked && c.isEnd)).options.Admits valid := ha
  rw [visits_eq s valid n hc, Visit.hits_append, Visit.hits_passes, List.nil_append]
  by_cases h : s.marked = true ∧ c.isEnd = true
  · rw [if_pos h, stays_of_marked (by simp [h]), Visit.hits_replicate rfl]
  · have hclear : (s.marked && c.isEnd) = false := by rw [← Bool.not_eq_true, Bool.and_eq_true]; exact h
    rw [if_neg h, stays_of_admits (s := s.mark (s.marked && c.isEnd)) hclear hm, Visit.hits_emitted]

/-- Where the end of the input is acceptable, the records saved before the end have a clear marker, and those saved
at the end have a set one. -/
theorem record_of_mem_visits (ha : s.options.Admits valid) (hc : c.position ≤ c.input.length) {visit : Visit}
    (h : visit ∈ s.visits valid n c) : visit.record = [if visit.position < c.input.length then 0x10 else 0x11] := by
  rcases mem_visits hc h with ⟨p, hp, marked, rfl⟩ | rfl | rfl | ⟨hn, -⟩
  · exact congrArg (fun b => [b]) (if_pos hp).symm
  · exact congrArg (fun b => [b]) (if_neg (Nat.lt_irrefl _)).symm
  · exact congrArg (fun b => [b]) (if_neg (Nat.lt_irrefl _)).symm
  · exact absurd ha hn

/-- Where the end of the input is acceptable, the checkpoints of a parse are its boundaries with the records due
there. -/
theorem map_checkpoint_visits (ha : s.options.Admits valid) (hc : c.position ≤ c.input.length) :
    (s.visits valid n c).map Visit.checkpoint =
      (c.boundaries ++ List.replicate n c.input.length).map
        fun p => (p, [if p < c.input.length then 0x10 else 0x11]) := by
  have hpos : (s.visits valid n c).map Visit.position = c.boundaries ++ List.replicate n c.input.length :=
    map_position_visits hc
  rw [← hpos, List.map_map]
  apply List.map_congr_left
  intro visit h
  rw [Visit.checkpoint, record_of_mem_visits ha hc h]
  rfl

/-- A parse that resumes at a boundary saves what a parse from the start saves from the boundary on. -/
theorem checkpoints_from (ha : s.options.Admits valid) {t : Scanner} (ht : t.options.Admits valid)
    {input : List UInt8} {p : Nat} (hp : p ∈ (ByteCursor.atStart input).boundaries) :
    (t.visits valid n (.atOffset input p)).map Visit.checkpoint =
      ((s.visits valid n (.atStart input)).filter (fun visit => p ≤ visit.position)).map Visit.checkpoint := by
  have hstart := ByteCursor.position_atStart_le input
  have hle : p ≤ input.length := ByteCursor.le_length_of_mem_boundaries hstart hp
  have hends : (List.replicate n input.length).filter (fun q => p ≤ q) = List.replicate n input.length := by
    rw [List.filter_eq_self]
    intro q hq
    rw [List.eq_of_mem_replicate hq]
    exact decide_eq_true hle
  have hf : ((s.visits valid n (.atStart input)).filter (fun visit => p ≤ visit.position)).map Visit.checkpoint =
      (((s.visits valid n (.atStart input)).map Visit.checkpoint).filter fun point => p ≤ point.1) := by
    rw [List.filter_map]
    rfl
  rw [hf, map_checkpoint_visits ha hstart, map_checkpoint_visits ht (ByteCursor.position_atOffset_le input p),
    List.filter_map]
  show _ = ((((ByteCursor.atStart input).boundaries ++ List.replicate n input.length).filter fun q => p ≤ q)).map _
  rw [List.filter_append, hends, ByteCursor.filter_boundaries hstart hp]
  rfl

/-- What a load of a saved record gives: the marker is set if the record was saved at the end. -/
private theorem load_of_mem_visits (ha : s.options.Admits valid) (hc : c.position ≤ c.input.length) {visit : Visit}
    (h : visit ∈ s.visits valid n c) (t : Scanner) :
    t.load visit.record =
      ⟨.ok (), t.mark (decide (c.input.length ≤ visit.position)), [.reading visit.record]⟩ := by
  have hd : State.decode visit.record = .ok { marked := decide (c.input.length ≤ visit.position) } := by
    rw [record_of_mem_visits ha hc h]
    by_cases hlt : visit.position < c.input.length
    · rw [if_pos hlt, decide_eq_false (Nat.not_le.mpr hlt)]
      rfl
    · rw [if_neg hlt, decide_eq_true (Nat.not_lt.mp hlt)]
      rfl
  rw [load_of_ok hd]
  rfl

/-- The law of incremental parsing.  Let `p` be a boundary of the text `a` that lies within the text `b`.  A parse of
`a` saves a record at `p`, and a scanner that begins with it finds the end of `b` exactly once when it parses `b`
from `p`, unless `p` is the end of both texts, and leaves a token nowhere else.  If `p` is a boundary of `b` too, the
records saved on the way are those that a parse of all of `b` saves from `p` on, at the same boundaries. -/
theorem resumed_visits (options : Options) (valid : Acceptable)
    (ha : options.honorAcceptable = false ∨ TokenKind.endOfInput ∈ valid) (a b : List UInt8) {p : Nat}
    (hp : p ∈ (ByteCursor.atStart a).boundaries) (hb : p ≤ b.length) (i j : Nat) :
    (∃ visit ∈ (fresh options).visits valid i (.atStart a), visit.position = p) ∧
    ∀ visit ∈ (fresh options).visits valid i (.atStart a), visit.position = p →
      let loaded := (fresh options).load visit.record
      let resumed := loaded.scanner.visits valid j (.atOffset b p)
      loaded.outcome = .ok () ∧
      Visit.hits resumed = (if p = a.length ∧ p = b.length then [] else [some (b.length, b.length)]) ∧
      (∀ later ∈ resumed, later.span? = later.result?.map fun _ => (b.length, b.length)) ∧
      (p ∈ (ByteCursor.atStart b).boundaries →
        resumed.map Visit.checkpoint =
          (((fresh options).visits valid j (.atStart b)).filter fun visit => p ≤ visit.position).map
            Visit.checkpoint) := by
  have hadm : (fresh options).options.Admits valid := Options.admits_iff.mpr ha
  have hstart := ByteCursor.position_atStart_le a
  refine ⟨?_, ?_⟩
  · have hm : p ∈ ((fresh options).visits valid i (.atStart a)).map Visit.position := by
      rw [map_position_visits hstart]
      exact List.mem_append_left _ hp
    exact List.mem_map.mp hm
  · intro visit hv hpos
    have hle : p ≤ a.length := ByteCursor.le_length_of_mem_boundaries hstart hp
    rw [load_of_mem_visits hadm hstart hv]
    generalize ht : (fresh options).mark (decide ((ByteCursor.atStart a).input.length ≤ visit.position)) = t
    have htadm : t.options.Admits valid := by rw [← ht]; exact hadm
    refine ⟨rfl, ?_, fun later h => span?_of_mem_visits (ByteCursor.position_atOffset_le b p) h, ?_⟩
    · have hiff : (t.marked = true ∧ (ByteCursor.atOffset b p).isEnd = true) ↔ (p = a.length ∧ p = b.length) := by
        rw [← ht, marked_mark, decide_eq_true_iff, hpos, ByteCursor.isEnd_iff, ByteCursor.position_atOffset hb]
        show (a.length ≤ p ∧ b.length ≤ p) ↔ _
        omega
      show Visit.hits (t.visits valid j (.atOffset b p)) = _
      rw [hits_visits htadm (ByteCursor.position_atOffset_le b p)]
      simp only [hiff]
      rfl
    · intro hpb
      exact checkpoints_from hadm htadm hpb

/-- A line feed is appended to a text of one letter: a parse that resumes at the old end finds the new one. -/
theorem resumed_after_append :
    1 ∈ (ByteCursor.atStart [0x61]).boundaries ∧
      ∀ visit ∈ (fresh {}).visits .all 3 (.atStart [0x61]), visit.position = 1 →
        ((fresh {}).load visit.record).outcome = .ok () ∧
          Visit.hits (((fresh {}).load visit.record).scanner.visits .all 3 (.atOffset [0x61, 0x0A] 1)) =
            [some (2, 2)] := by
  have hp : 1 ∈ (ByteCursor.atStart [0x61]).boundaries := by
    rw [(ByteCursor.boundaries_eq (ByteCursor.position_atStart_le [0x61])).1]
    exact List.mem_append_right _ List.mem_cons_self
  have h := resumed_visits {} .all (Or.inr (Acceptable.mem_all .endOfInput)) [0x61] [0x61, 0x0A] hp (by decide) 3 3
  refine ⟨hp, fun visit hv hpos => ?_⟩
  obtain ⟨hok, hhits, -⟩ := h.2 visit hv hpos
  exact ⟨hok, hhits⟩

end Scanner

end EndOfInput
