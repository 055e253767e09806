import EndOfInput.Scanner

/-!
# Restoring a state

A record is accepted if and only if it is empty or the record of a state (`State.decode_eq_ok_iff`).  So the record
of the set marker, the byte 0x11 alone, is the only one that sets the marker (`Scanner.marked_load`); every other
record, accepted or refused, clears it, and none touches the options.
-/

namespace EndOfInput

/-! ### The accepted records -/

namespace State

private theorem eq_of_accepted (b : UInt8) (hv : b >>> 4 = formatVersion) (hr : b &&& reservedBits = 0) :
    b = 0x10 ∨ b = 0x11 := by
  obtain ⟨v⟩ := b
  revert hv hr
  revert v
  decide

/-- A record is accepted if it is empty or the record of a state, and no other is. -/
theorem decode_eq_ok_iff {record : List UInt8} {s : State} :
    decode record = .ok s ↔ record = [] ∧ s = {} ∨ record = s.encode := by
  constructor
  · intro h
    match record with
    | [] =>
      cases h
      exact Or.inl ⟨rfl, rfl⟩
    | [b] =>
      rw [decode] at h
      split at h
      · cases h
      · split at h
        · cases h
        · rename_i hv hr
          right
          rcases eq_of_accepted b (Decidable.not_not.mp hv) (Decidable.not_not.mp hr) with rfl | rfl <;> cases h <;> rfl
    | _ :: _ :: _ => cases h
  · rintro (⟨rfl, rfl⟩ | rfl)
    · rfl
    · exact decode_encode s

end State

/-! ### What a load leaves -/

namespace Scanner

@[simp] theorem options_load (s : Scanner) (record : List UInt8) : (s.load record).scanner.options = s.options := by
  cases h : State.decode record with
  | ok state => rw [load_of_ok h]
  | error error => rw [load_of_error h, options_reset]

/-- The marker is set after a load if and only if the record is that of the set marker. -/
theorem marked_load (s : Scanner) (record : List UInt8) :
    (s.load record).scanner.marked = decide (record = [0x11]) := by
  cases h : State.decode record with
  | ok state =>
    rw [load_of_ok h]
    rcases State.decode_eq_ok_iff.mp h with ⟨rfl, rfl⟩ | rfl
    · rfl
    · obtain ⟨_ | _⟩ := state <;> rfl
  | error error =>
    rw [load_of_error h]
    have hne : record ≠ [0x11] := by
      rintro rfl
      cases h
    rw [decide_eq_false hne]
    rfl

end Scanner

end EndOfInput
