import EndOfInput.Proofs.Utf8.Segmentation
import EndOfInput.Proofs.Walk

/-!
# The segments of a walk

A walk cuts the rest of the input into segments, each of them the bytes that one advance moves past.  They are the
segmentation of the rest into well-formed characters and longest ill-formed parts (`ByteCursor.segments_of_walk`).
-/

namespace EndOfInput.ByteCursor

open Machine Utf8

/-- The bytes that an advance moves past. -/
def passed (c : ByteCursor) : List UInt8 :=
  c.rest.take ((c.advance false).position - c.position)

/-- The characters from a cursor on, each with the bytes that it is shown for. -/
def segments (c : ByteCursor) : List (Char × List UInt8) :=
  c.walk.filterMap fun d => d.lookahead?.map fun ch => (ch, d.passed)

variable {c : ByteCursor} {b : UInt8} {bytes : List UInt8}

theorem passed_of_rest (h : c.rest = b :: bytes) : c.passed = (piece b bytes).bytes := by
  have htail : tail b bytes <+: bytes := ⟨_, tail_append_drop b bytes⟩
  rw [passed, position_advance_of_rest h, Nat.add_sub_cancel_left, h, size_piece, List.take_succ_cons,
    ← List.prefix_iff_eq_take.mp htail, bytes_piece]

theorem segments_of_isEnd (h : c.isEnd = true) : c.segments = [] := by
  rw [segments, walk_of_isEnd h, List.filterMap_cons, isEnd_iff_lookahead?.mp h]
  rfl

theorem segments_of_rest (h : c.rest = b :: bytes) :
    c.segments = ((piece b bytes).char, (piece b bytes).bytes) :: (c.advance false).segments := by
  rw [segments, walk_of_not_isEnd (isEnd_of_rest h), List.filterMap_cons, lookahead?_of_rest h, passed_of_rest h]
  rfl

theorem segments_eq (c : ByteCursor) : c.segments = (pieces c.rest).map fun p => (p.char, p.bytes) := by
  induction c using walk_induction with
  | stop c h => rw [segments_of_isEnd h, rest_eq_nil_iff.mpr h, pieces_nil, List.map_nil]
  | step c b bytes hr ih =>
    rw [segments_of_rest hr, ih, rest_advance hr, hr, pieces_cons, List.map_cons]

/-- The boundaries are the ends of the segments. -/
theorem boundaries_eq_scanl (c : ByteCursor) :
    c.boundaries = c.segments.scanl (fun p segment => p + segment.2.length) c.position := by
  induction c using walk_induction with
  | stop c h => rw [boundaries_of_isEnd h, segments_of_isEnd h, List.scanl_nil]
  | step c b bytes hr ih =>
    rw [boundaries_of_rest hr, ih, position_advance_of_rest hr, segments_of_rest hr, List.scanl_cons]
    rfl

theorem length_le_of_mem_segments {segment : Char × List UInt8} (h : segment ∈ c.segments) :
    1 ≤ segment.2.length ∧ segment.2.length ≤ 4 ∧
      (segment.2 ≠ String.utf8EncodeChar segment.1 → segment.2.length ≤ 3) := by
  induction c using walk_induction with
  | stop c he =>
    rw [segments_of_isEnd he] at h
    cases h
  | step c b bytes hr ih =>
    rw [segments_of_rest hr, List.mem_cons] at h
    rcases h with rfl | h
    · exact ⟨Nat.succ_le_succ (Nat.zero_le _), (segment_piece b bytes).length_le⟩
    · exact ih h

/-- The law of a walk over bytes, from any offset.  As many advances as there are bytes left lead to the end.  The
boundaries cut the rest of the input into segments of one to four bytes, which are the rest again, one after the
other.  They are the segmentation of the rest, and there is no other: each segment is the encoding of the character
shown, or up to three bytes that are shown as U+FFFD.  A cursor is at the end where no character is shown, which is
where it does not advance. -/
theorem segments_of_walk (input : List UInt8) (offset : Nat) :
    let c := atOffset input offset
    (∀ skips : List Bool, input.length - c.position ≤ skips.length → (after c (skips.map Move.advance)).isEnd = true) ∧
    c.boundaries = c.segments.scanl (fun p segment => p + segment.2.length) c.position ∧
    c.segments.flatMap Prod.snd = input.drop c.position ∧
    (∀ segment ∈ c.segments, 1 ≤ segment.2.length ∧ segment.2.length ≤ 4 ∧
      (segment.2 ≠ String.utf8EncodeChar segment.1 → segment.2.length ≤ 3)) ∧
    (∀ segments, Segmentation (input.drop c.position) segments ↔ segments = c.segments) ∧
    ∀ d : ByteCursor, (d.isEnd = true ↔ d.lookahead? = none) ∧ ∀ skip, d.isEnd = true ↔ d.advance skip = d := by
  intro c
  refine ⟨fun skips h => isEnd_after_advances h, boundaries_eq_scanl c, ?_, fun segment => length_le_of_mem_segments,
    ?_, fun d => ⟨isEnd_iff_lookahead?, isEnd_iff_advance⟩⟩
  · rw [segments_eq, List.flatMap_map]
    exact flatMap_bytes_pieces _
  · intro segments
    rw [segmentation_iff, segments_eq]
    rfl

end EndOfInput.ByteCursor
