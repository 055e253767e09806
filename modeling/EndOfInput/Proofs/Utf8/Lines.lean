import EndOfInput.Proofs.Utf8.Segmentation

/-!
# Lines of a byte string

Where the line of a position starts (`Utf8.lineStart`), the bytes of the line before the position
(`Utf8.lastLine_take`), and the one piece that ends a line (`Utf8.char_piece_eq_lineFeed_iff`).  A part of a byte
string is cut into pieces as the whole is, but for the last piece, which may lack bytes (`Utf8.tail_take`).
-/

namespace EndOfInput.Utf8

/-- Where the line of a position starts: after the last line feed before the position, or else at zero. -/
def lineStart (input : List UInt8) : Nat → Nat
  | 0 => 0
  | p + 1 => if input[p]? = some 0x0A then p + 1 else lineStart input p

theorem lineStart_le (input : List UInt8) (p : Nat) : lineStart input p ≤ p := by
  induction p with
  | zero => exact Nat.le_refl 0
  | succ p ih =>
    rw [lineStart]
    split
    · exact Nat.le_refl _
    · exact Nat.le_succ_of_le ih

/-- What a line start is. -/
theorem lineStart_spec (input : List UInt8) (p : Nat) :
    (lineStart input p = 0 ∨ ∃ i, lineStart input p = i + 1 ∧ input[i]? = some 0x0A) ∧
      ∀ i, lineStart input p ≤ i → i < p → input[i]? ≠ some 0x0A := by
  induction p with
  | zero => exact ⟨Or.inl rfl, fun i _ hi => absurd hi (Nat.not_lt_zero i)⟩
  | succ p ih =>
    rw [lineStart]
    split
    · rename_i h
      exact ⟨Or.inr ⟨p, rfl, h⟩, fun i hle hlt => by omega⟩
    · rename_i h
      refine ⟨ih.1, fun i hle hlt => ?_⟩
      rcases Nat.lt_succ_iff_lt_or_eq.mp hlt with hlt | rfl
      · exact ih.2 i hle hlt
      · exact h

/-- Positions without a line feed between them are on one line. -/
theorem lineStart_eq_of_le {input : List UInt8} {p q : Nat} (h : p ≤ q)
    (hno : ∀ i, p ≤ i → i < q → input[i]? ≠ some 0x0A) : lineStart input q = lineStart input p := by
  induction q with
  | zero => rw [Nat.le_zero.mp h]
  | succ q ih =>
    rcases Nat.le_succ_iff.mp h with hle | rfl
    · rw [lineStart, if_neg (hno q hle (Nat.lt_succ_self q))]
      exact ih hle fun i hi hlt => hno i hi (Nat.lt_succ_of_lt hlt)
    · rfl

private theorem lastLine_append_singleton (bytes : List UInt8) (b : UInt8) :
    lastLine (bytes ++ [b]) = if b = 0x0A then [] else lastLine bytes ++ [b] := by
  rw [lastLine, List.reverse_append, List.reverse_singleton, List.singleton_append, List.takeWhile_cons]
  by_cases h : b = 0x0A
  · simp [h]
  · simp [h, lastLine]

theorem lastLine_take (input : List UInt8) (p : Nat) :
    lastLine (input.take p) = (input.take p).drop (lineStart input p) := by
  induction p with
  | zero => rfl
  | succ p ih =>
    rw [List.take_add_one, lineStart]
    cases hget : input[p]? with
    | none => simpa using ih
    | some b =>
      obtain ⟨hp, -⟩ := List.getElem?_eq_some_iff.mp hget
      have hlen : (input.take p).length = p := List.length_take_of_le (Nat.le_of_lt hp)
      rw [Option.toList_some, lastLine_append_singleton]
      by_cases h : b = 0x0A
      · rw [if_pos h, if_pos (congrArg some h), List.drop_of_length_le]
        rw [List.length_append, hlen]
        exact Nat.le_refl _
      · rw [if_neg h, if_neg fun heq => h (Option.some.inj heq), ih, List.drop_append_of_le_length]
        rw [hlen]
        exact lineStart_le input p

/-- The one piece that is shown as a line feed. -/
theorem char_piece_eq_lineFeed_iff {b : UInt8} {bytes : List UInt8} : (piece b bytes).char = '\n' ↔ b = 0x0A := by
  constructor
  · intro h
    have hsegment := segment_piece b bytes
    generalize (piece b bytes).char = ch, (piece b bytes).bytes = part at h hsegment
    cases hsegment with
    | character _ hp =>
      subst h
      exact (List.cons_prefix_cons.mp hp).1.symm
    | truncated _ _ _ _ _ _ => exact absurd h (by decide)
    | stray _ _ _ _ => exact absurd h (by decide)
  · rintro rfl
    rfl

/-! ### Pieces of a part -/

theorem continuation_take (low high : UInt8) (n k : Nat) (bytes : List UInt8) :
    continuation low high n (bytes.take k) = (continuation low high n bytes).take k := by
  induction bytes generalizing low high n k with
  | nil => cases n <;> cases k <;> rfl
  | cons b bytes ih =>
    cases k with
    | zero => cases n <;> rfl
    | succ k =>
      cases n with
      | zero => rfl
      | succ n =>
        rw [List.take_succ_cons, continuation, continuation, ih]
        split <;> rfl

theorem tail_take (b : UInt8) (bytes : List UInt8) (k : Nat) : tail b (bytes.take k) = (tail b bytes).take k := by
  cases hl : Lead.ofByte? b with
  | none => rw [tail_of_ofByte?_eq_none hl, tail_of_ofByte?_eq_none hl, List.take_nil]
  | some lead => rw [tail_of_ofByte? hl, tail_of_ofByte? hl, continuation_take]

end EndOfInput.Utf8
