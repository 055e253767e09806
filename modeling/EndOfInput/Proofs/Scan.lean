import EndOfInput.Scanner

/-!
# What a scan does

All that a scan does follows from its four cases: when it finds the end of the input (`Scanner.result?_scan_iff`),
what it makes of the marker (`Scanner.marked_scan`), and what it leaves on the cursor (`Scanner.cursor_scan`).  Of a
cursor it asks only whether it is at the end (`Scanner.scan_congr`).
-/

namespace EndOfInput.Scanner

universe u v

variable {γ : Type u} [Cursor γ]

/-- The four cases of a scan, with all that it does in each. -/
theorem scan_cases (s : Scanner) (c : γ) (valid : Acceptable) :
    (Cursor.isEnd c = false ∧ s.scan c valid = ⟨none, s.mark false, c, if s.marked then [.continued] else []⟩) ∨
    (Cursor.isEnd c = true ∧ s.marked = true ∧ s.scan c valid = ⟨none, s, c, [.repeated]⟩) ∨
    (Cursor.isEnd c = true ∧ s.marked = false ∧ ¬s.options.Admits valid ∧
      s.scan c valid = ⟨none, s, c, [.unacceptable]⟩) ∨
    (Cursor.isEnd c = true ∧ s.marked = false ∧ s.options.Admits valid ∧ s.scan c valid =
      ⟨some .endOfInput, s.mark true, Cursor.setResult (Cursor.markEnd c) .endOfInput, [.emitted]⟩) := by
  cases he : Cursor.isEnd c with
  | false => exact .inl ⟨rfl, scan_of_not_isEnd he⟩
  | true =>
    right
    cases hm : s.marked with
    | true => exact .inl ⟨rfl, rfl, scan_of_marked he hm⟩
    | false =>
      right
      by_cases ha : s.options.Admits valid
      · exact .inr ⟨rfl, rfl, ha, scan_of_admits he hm ha⟩
      · exact .inl ⟨rfl, rfl, ha, scan_of_not_admits he hm ha⟩

/-- A scan finds the end of the input if the cursor is there, the marker is clear and the options admit it. -/
theorem result?_scan_iff {s : Scanner} {c : γ} {valid : Acceptable} :
    (s.scan c valid).result? = some .endOfInput ↔
      Cursor.isEnd c = true ∧ s.options.Admits valid ∧ s.marked = false := by
  rcases scan_cases s c valid with ⟨he, hs⟩ | ⟨he, hm, hs⟩ | ⟨he, hm, ha, hs⟩ | ⟨he, hm, ha, hs⟩ <;> rw [hs]
  · simp [he]
  · simp [hm]
  · simp [ha]
  · simp [he, hm, ha]

@[simp] theorem options_scan (s : Scanner) (c : γ) (valid : Acceptable) :
    (s.scan c valid).scanner.options = s.options := by
  rcases scan_cases s c valid with ⟨-, hs⟩ | ⟨-, -, hs⟩ | ⟨-, -, -, hs⟩ | ⟨-, -, -, hs⟩ <;> rw [hs] <;> rfl

/-- A scan clears the marker before the end, sets it if it finds a token, and leaves it otherwise. -/
theorem marked_scan (s : Scanner) (c : γ) (valid : Acceptable) :
    (s.scan c valid).scanner.marked =
      if !Cursor.isEnd c || (s.scan c valid).result?.isSome then Cursor.isEnd c else s.marked := by
  rcases scan_cases s c valid with ⟨he, hs⟩ | ⟨he, -, hs⟩ | ⟨he, -, -, hs⟩ | ⟨he, -, -, hs⟩ <;> simp [hs, he]

/-- The cursor after a scan is marked and has its result if a token was found, and is as before if not. -/
theorem cursor_scan (s : Scanner) (c : γ) (valid : Acceptable) :
    (s.scan c valid).cursor =
      if (s.scan c valid).result?.isSome then Cursor.setResult (Cursor.markEnd c) .endOfInput else c := by
  rcases scan_cases s c valid with ⟨-, hs⟩ | ⟨-, -, hs⟩ | ⟨-, -, -, hs⟩ | ⟨-, -, -, hs⟩ <;> simp [hs]

/-- Two cursors that are both at the end, or both before it, are the same to a scan. -/
theorem scan_congr {δ : Type v} [Cursor δ] {c : γ} {d : δ} (h : Cursor.isEnd c = Cursor.isEnd d) (s : Scanner)
    (valid : Acceptable) :
    (s.scan c valid).result? = (s.scan d valid).result? ∧ (s.scan c valid).scanner = (s.scan d valid).scanner ∧
      (s.scan c valid).log = (s.scan d valid).log := by
  cases hd : Cursor.isEnd d with
  | false =>
    rw [scan_of_not_isEnd (h.trans hd), scan_of_not_isEnd hd]
    exact ⟨rfl, rfl, rfl⟩
  | true =>
    cases hm : s.marked with
    | true =>
      rw [scan_of_marked (h.trans hd) hm, scan_of_marked hd hm]
      exact ⟨rfl, rfl, rfl⟩
    | false =>
      by_cases ha : s.options.Admits valid
      · rw [scan_of_admits (h.trans hd) hm ha, scan_of_admits hd hm ha]
        exact ⟨rfl, rfl, rfl⟩
      · rw [scan_of_not_admits (h.trans hd) hm ha, scan_of_not_admits hd hm ha]
        exact ⟨rfl, rfl, rfl⟩

end EndOfInput.Scanner
