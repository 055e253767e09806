import EndOfInput.Cursor.Bytes

/-!
# The boundaries of a walk

The boundaries from a cursor on are the positions of its walk.  They depend on its input and position alone
(`ByteCursor.boundaries_congr`), they go up from its position to the end of the input, and the walk from a boundary
takes the rest of them (`ByteCursor.filter_boundaries`).
-/

namespace EndOfInput.ByteCursor

open Utf8

/-- The positions from a cursor on at which a character begins, and the end. -/
def boundaries (c : ByteCursor) : List Nat :=
  c.walk.map position

/-! ### Advancing -/

/-- Where an advance leads depends on the input and the position alone. -/
theorem position_advance_congr {c d : ByteCursor} (hi : c.input = d.input) (hp : c.position = d.position)
    (skip skip' : Bool) : (c.advance skip).position = (d.advance skip').position := by
  have hr : c.rest = d.rest := by rw [rest, rest, hi, hp]
  rw [advance, advance, hr]
  cases first? d.rest with
  | none => exact hp
  | some p => exact congrArg (· + p.size) hp

/-- An advance stays within the input. -/
theorem position_advance_le {c : ByteCursor} (h : c.position ≤ c.input.length) (skip : Bool) :
    (c.advance skip).position ≤ c.input.length := by
  cases hr : c.rest with
  | nil =>
    rw [advance, hr]
    exact h
  | cons b bytes =>
    have hlen : c.input.length - c.position = bytes.length + 1 := by
      rw [← List.length_drop, ← List.length_cons (a := b), ← hr, rest]
    have htail := length_tail_le_length b bytes
    rw [advance, hr]
    show c.position + (piece b bytes).size ≤ c.input.length
    rw [size_piece]
    omega

theorem position_atOffset_le (input : List UInt8) (offset : Nat) :
    (atOffset input offset).position ≤ (atOffset input offset).input.length :=
  Nat.min_le_right _ _

theorem position_atStart_le (input : List UInt8) : (atStart input).position ≤ (atStart input).input.length :=
  position_atOffset_le input 0

theorem position_atOffset {input : List UInt8} {offset : Nat} (h : offset ≤ input.length) :
    (atOffset input offset).position = offset :=
  Nat.min_eq_left h

/-! ### Boundaries -/

theorem boundaries_of_isEnd {c : ByteCursor} (h : c.isEnd = true) : c.boundaries = [c.position] := by
  rw [boundaries, walk, if_pos h]
  rfl

private theorem boundaries_cons {c : ByteCursor} (h : c.isEnd = false) :
    c.boundaries = c.position :: (c.advance false).boundaries := by
  rw [boundaries, walk, if_neg (by simp [h])]
  rfl

/-- The boundaries depend on the input and the position alone. -/
theorem boundaries_congr {c d : ByteCursor} (hi : c.input = d.input) (hp : c.position = d.position) :
    c.boundaries = d.boundaries := by
  fun_induction walk c generalizing d with
  | case1 c h =>
    have hd : d.isEnd = true := by rw [isEnd_iff, ← hi, ← hp, ← isEnd_iff]; exact h
    rw [boundaries_of_isEnd h, boundaries_of_isEnd hd, hp]
  | case2 c h ih =>
    have hc : c.isEnd = false := Bool.eq_false_iff.mpr h
    have hd : d.isEnd = false := by rw [← hc, isEnd, isEnd, hi, hp]
    rw [boundaries_cons hc, boundaries_cons hd, hp]
    congr 1
    apply ih
    · rw [input_advance, input_advance, hi]
    · exact position_advance_congr hi hp _ _

theorem boundaries_atOffset_position {c : ByteCursor} (h : c.position ≤ c.input.length) :
    (atOffset c.input c.position).boundaries = c.boundaries :=
  boundaries_congr rfl (position_atOffset h)

/-- Before the end, the boundaries are the position and those after an advance, also if a token begins first. -/
theorem boundaries_of_not_isEnd {c : ByteCursor} (h : c.isEnd = false) :
    c.boundaries = c.position :: (c.beginToken.advance false).boundaries := by
  rw [boundaries_cons h, boundaries_congr (c := c.advance false) (d := c.beginToken.advance false)]
  · rw [input_advance, input_advance]
    rfl
  · exact position_advance_congr (c := c) (d := c.beginToken) rfl rfl _ _

theorem boundaries_ne_nil (c : ByteCursor) : c.boundaries ≠ [] := by
  cases h : c.isEnd with
  | true => rw [boundaries_of_isEnd h]; exact List.cons_ne_nil _ _
  | false => rw [boundaries_of_not_isEnd h]; exact List.cons_ne_nil _ _

theorem le_of_mem_boundaries {c : ByteCursor} {p : Nat} (hp : p ∈ c.boundaries) : c.position ≤ p := by
  fun_induction walk c with
  | case1 c h =>
    rw [boundaries_of_isEnd h, List.mem_singleton] at hp
    omega
  | case2 c h ih =>
    have hc : c.isEnd = false := Bool.eq_false_iff.mpr h
    rw [boundaries_cons hc] at hp
    rcases List.mem_cons.mp hp with rfl | hp
    · exact Nat.le_refl _
    · have moved := position_lt_advance hc false
      have := ih hp
      omega

/-- The last boundary is the end of the input, and the others are before it. -/
theorem boundaries_eq {c : ByteCursor} (hc : c.position ≤ c.input.length) :
    c.boundaries = c.boundaries.dropLast ++ [c.input.length] ∧ ∀ p ∈ c.boundaries.dropLast, p < c.input.length := by
  fun_induction walk c with
  | case1 c h =>
    have := isEnd_iff.mp h
    rw [boundaries_of_isEnd h]
    refine ⟨?_, fun p hp => by cases hp⟩
    rw [show c.position = c.input.length by omega]
    rfl
  | case2 c h ih =>
    have he : c.isEnd = false := Bool.eq_false_iff.mpr h
    have hlt : c.position < c.input.length := by rw [isEnd_iff] at h; omega
    obtain ⟨ih₁, ih₂⟩ := ih (by rw [input_advance]; exact position_advance_le hc false)
    rw [input_advance] at ih₁ ih₂
    rw [boundaries_cons he, List.dropLast_cons_of_ne_nil (boundaries_ne_nil _)]
    refine ⟨?_, ?_⟩
    · rw [List.cons_append, ← ih₁]
    · intro p hp
      rcases List.mem_cons.mp hp with rfl | hp
      · exact hlt
      · exact ih₂ p hp

theorem le_length_of_mem_boundaries {c : ByteCursor} (hc : c.position ≤ c.input.length) {p : Nat}
    (hp : p ∈ c.boundaries) : p ≤ c.input.length := by
  obtain ⟨hlast, hlt⟩ := boundaries_eq hc
  rw [hlast] at hp
  rcases List.mem_append.mp hp with h | h
  · exact Nat.le_of_lt (hlt p h)
  · exact Nat.le_of_eq (List.mem_singleton.mp h)

/-- The walk from a boundary takes the boundaries from there on. -/
theorem filter_boundaries {c : ByteCursor} (hc : c.position ≤ c.input.length) {p : Nat} (hp : p ∈ c.boundaries) :
    c.boundaries.filter (fun q => p ≤ q) = (atOffset c.input p).boundaries := by
  fun_induction walk c with
  | case1 c h =>
    rw [boundaries_of_isEnd h, List.mem_singleton] at hp
    subst hp
    rw [boundaries_atOffset_position hc, boundaries_of_isEnd h]
    simp
  | case2 c h ih =>
    have he : c.isEnd = false := Bool.eq_false_iff.mpr h
    have moved := position_lt_advance he false
    rcases List.mem_cons.mp (boundaries_cons he ▸ hp) with rfl | hp'
    · -- `p` is the position, and no boundary is before it
      rw [boundaries_atOffset_position hc, List.filter_eq_self]
      intro q hq
      exact decide_eq_true (le_of_mem_boundaries hq)
    · -- `p` is after the position, which is left out
      have hle := le_of_mem_boundaries hp'
      rw [boundaries_cons he, List.filter_cons_of_neg (by simp; omega),
        ih (by rw [input_advance]; exact position_advance_le hc false) hp', input_advance]

end EndOfInput.ByteCursor
