import EndOfInput.Proofs.Column

/-!
# Walks over concatenations

After its first byte a piece takes continuation bytes only.  So a piece that stands at the end of one byte string is
cut in the same way if another byte string follows that does not begin with a continuation byte, also if bytes are
missing from it.

* (pieces) `Utf8.pieces_append`: the pieces of both byte strings, one after the other;
* (lines) `Utf8.lastLine_append_of_mem`, `Utf8.lastLine_append_of_not_mem`: the last line begins after a line feed of
  the second byte string, if there is one, and in the first if not;
* (walks and columns) `ByteCursor.sights_column_append`.
-/

namespace EndOfInput

open Utf8

namespace Utf8

variable {a b : List UInt8}

/-! ### Pieces -/

private theorem continuation_append_of_not_isContinuation (hb : ∀ x ∈ b.head?, ¬IsContinuation x) {low high : UInt8}
    (hlow : 0x80 ≤ low) (hhigh : high ≤ 0xBF) (n : Nat) (bytes : List UInt8) :
    continuation low high n (bytes ++ b) = continuation low high n bytes := by
  induction bytes generalizing low high n with
  | nil =>
    cases n with
    | zero => cases b <;> rfl
    | succ n =>
      cases b with
      | nil => rfl
      | cons x b =>
        have hx : ¬IsContinuation x := hb x rfl
        have hrange : ¬(low ≤ x ∧ x ≤ high) := by
          rintro ⟨hl, hh⟩
          exact hx ⟨UInt8.le_trans hlow hl, UInt8.le_trans hh hhigh⟩
        rw [List.nil_append, continuation, if_neg hrange]
        rfl
  | cons y bytes ih =>
    cases n with
    | zero => rfl
    | succ n =>
      rw [List.cons_append, continuation, continuation]
      split
      · rw [ih (by decide) (by decide)]
      · rfl

theorem tail_append (hb : ∀ x ∈ b.head?, ¬IsContinuation x) (y : UInt8) (bytes : List UInt8) :
    tail y (bytes ++ b) = tail y bytes := by
  cases hl : Lead.ofByte? y with
  | none => rw [tail_of_ofByte?_eq_none hl, tail_of_ofByte?_eq_none hl]
  | some lead =>
    obtain ⟨⟨hlow, -, hhigh⟩, -⟩ := Lead.bounds hl
    rw [tail_of_ofByte? hl, tail_of_ofByte? hl, continuation_append_of_not_isContinuation hb hlow hhigh]

/-- No piece reaches from one byte string into another that does not begin with a continuation byte. -/
theorem pieces_append (hb : ∀ x ∈ b.head?, ¬IsContinuation x) : pieces (a ++ b) = pieces a ++ pieces b := by
  fun_induction pieces a with
  | case1 => rfl
  | case2 y bytes ih =>
    have hpiece : piece y (bytes ++ b) = piece y bytes := by rw [piece, piece, tail_append hb]
    rw [List.cons_append, pieces_cons, hpiece, tail_append hb,
      List.drop_append_of_le_length (length_tail_le_length y bytes), ih, List.cons_append]

/-! ### The last line -/

theorem lastLine_append_of_not_mem (h : 0x0A ∉ b) (a : List UInt8) : lastLine (a ++ b) = lastLine a ++ b := by
  have hb : ∀ x ∈ b.reverse, decide (x ≠ 0x0A) = true := by
    intro x hx
    rw [decide_eq_true_iff]
    rintro rfl
    exact h (List.mem_reverse.mp hx)
  rw [lastLine, List.reverse_append, List.takeWhile_append_of_pos hb, List.reverse_append, List.reverse_reverse,
    lastLine]

theorem lastLine_append_of_mem (h : 0x0A ∈ b) (a : List UInt8) : lastLine (a ++ b) = lastLine b := by
  obtain ⟨line, before, hsplit, hline⟩ := List.eq_append_cons_of_mem (List.mem_reverse.mpr h)
  -- seen from the end, everything after the first line feed is left out
  have hstop : ∀ bytes, (line ++ 0x0A :: bytes).takeWhile (fun x => x ≠ 0x0A) = line := by
    intro bytes
    have hpos : ∀ x ∈ line, decide (x ≠ 0x0A) = true := by
      intro x hx
      rw [decide_eq_true_iff]
      rintro rfl
      exact hline hx
    rw [List.takeWhile_append_of_pos hpos, List.takeWhile_cons_of_neg (by simp), List.append_nil]
  rw [lastLine, lastLine, List.reverse_append, hsplit, List.append_assoc, List.cons_append, hstop, hstop]

end Utf8

namespace ByteCursor

variable {a b : List UInt8}

/-! ### Walks -/

private theorem placed_ne_nil (p : Nat) (ps : List Piece) : placed p ps ≠ [] := by
  cases ps <;> exact List.cons_ne_nil _ _

private theorem placed_append (p : Nat) (ps qs : List Piece) :
    placed p (ps ++ qs) = (placed p ps).dropLast ++ placed (p + (ps.flatMap Piece.bytes).length) qs := by
  induction ps generalizing p with
  | nil => rfl
  | cons piece ps ih =>
    rw [List.cons_append, placed, placed, ih, List.dropLast_cons_of_ne_nil (placed_ne_nil _ _), List.flatMap_cons,
      List.length_append, Nat.add_assoc]
    rfl

private theorem placed_add (n p : Nat) (ps : List Piece) :
    placed (n + p) ps = (placed p ps).map fun sight => (n + sight.1, sight.2) := by
  induction ps generalizing p with
  | nil => rfl
  | cons piece ps ih =>
    rw [placed, Nat.add_assoc, ih]
    rfl

theorem sights_atStart (input : List UInt8) : (atStart input).sights = placed 0 (pieces input) :=
  sights_eq (atStart input)

theorem sights_append (hb : ∀ x ∈ b.head?, ¬IsContinuation x) :
    (atStart (a ++ b)).sights =
      (atStart a).sights.dropLast ++ (atStart b).sights.map fun sight => (a.length + sight.1, sight.2) := by
  rw [sights_atStart, pieces_append hb, placed_append, flatMap_bytes_pieces, Nat.zero_add, sights_atStart,
    sights_atStart, ← placed_add]
  rfl

/-! ### Columns -/

private theorem before_atOffset {input : List UInt8} {q : Nat} (h : q ≤ input.length) :
    (atOffset input q).before = input.take q := by
  rw [before, position_atOffset h]
  rfl

private theorem before_atOffset_append {q : Nat} (hq : q ≤ b.length) :
    (atOffset (a ++ b) (a.length + q)).before = a ++ b.take q := by
  have hle : a.length + q ≤ (a ++ b).length := by
    rw [List.length_append]
    omega
  rw [before_atOffset hle, List.take_length_add_append]

private theorem before_atEnd (input : List UInt8) : (atEnd input).before = input := by
  rw [atEnd, before_atOffset (Nat.le_refl _), List.take_length]

theorem column_append_of_mem {q : Nat} (hq : q ≤ b.length) (h : 0x0A ∈ b.take q) :
    (atOffset (a ++ b) (a.length + q)).column = (atOffset b q).column := by
  rw [column, column, before_atOffset_append hq, before_atOffset hq, lastLine_append_of_mem h]

theorem toNat_column_append (hb : ∀ x ∈ b.head?, ¬IsContinuation x) {q : Nat} (hq : q ≤ b.length)
    (h : 0x0A ∉ b.take q) :
    (atOffset (a ++ b) (a.length + q)).column.toNat =
      min ((atEnd a).column.toNat + (atOffset b q).column.toNat) (UInt32.size - 1) := by
  have hhead : ∀ x ∈ (b.take q).head?, ¬IsContinuation x := by
    intro x hx
    rw [List.head?_take] at hx
    split at hx
    · cases hx
    · exact hb x hx
  have hline : lastLine (b.take q) = b.take q := lastLine_append_of_not_mem h []
  rw [toNat_column_eq_min, toNat_column_eq_min, toNat_column_eq_min, before_atOffset_append hq, before_atEnd,
    before_atOffset hq, lastLine_append_of_not_mem h, pieces_append hhead, List.length_append, hline]
  omega

/-- The law of concatenation.  If `b` does not begin with a continuation byte, the walk over `a ++ b` is the walk over
`a` without its end, and then the walk over `b`, moved to the end of `a`.  The column of a position in `b` is that in
`b` alone if there is a line feed of `b` before it.  If there is none, the column at the end of `a` is added to it, up
to the greatest word. -/
theorem sights_column_append (hb : ∀ x ∈ b.head?, ¬IsContinuation x) :
    (atStart (a ++ b)).sights =
      ((atStart a).sights.dropLast ++ (atStart b).sights.map fun sight => (a.length + sight.1, sight.2)) ∧
    ∀ q ≤ b.length,
      (0x0A ∈ b.take q → (atOffset (a ++ b) (a.length + q)).column = (atOffset b q).column) ∧
      (0x0A ∉ b.take q →
        (atOffset (a ++ b) (a.length + q)).column.toNat =
          min ((atEnd a).column.toNat + (atOffset b q).column.toNat) (UInt32.size - 1)) :=
  ⟨sights_append hb, fun _ hq => ⟨column_append_of_mem hq, toNat_column_append hb hq⟩⟩

/-- A character that lacks two bytes, and after it a character, a line feed and one more character. -/
theorem sights_column_after_truncated :
    let a : List UInt8 := [0x61, 0xF0, 0x9F]
    let b : List UInt8 := [0xC3, 0xA9, 0x0A, 0x62]
    (∀ x ∈ b.head?, ¬IsContinuation x) ∧
      (atStart (a ++ b)).sights =
        [(0, some 'a'), (1, some replacement), (3, some 'é'), (5, some '\n'), (6, some 'b'), (7, none)] ∧
      (atOffset (a ++ b) 5).column.toNat = 3 ∧ (atOffset (a ++ b) 7).column.toNat = 1 := by
  intro a b
  have hb : ∀ x ∈ b.head?, ¬IsContinuation x := by
    rintro x ⟨⟩
    simp [IsContinuation]
  have ha : (atStart a).sights = [(0, some 'a'), (1, some replacement), (3, none)] := by decide +kernel
  have hsights : (atStart b).sights = [(0, some 'é'), (2, some '\n'), (3, some 'b'), (4, none)] := by decide +kernel
  obtain ⟨hwalk, hcolumn⟩ := sights_column_append (a := a) hb
  refine ⟨hb, ?_, ?_, ?_⟩
  · rw [hwalk, ha, hsights]
    rfl
  · have hfirst := (hcolumn 2 (by decide)).2 (by decide)
    refine hfirst.trans ?_
    decide +kernel
  · have hsecond := (hcolumn 4 (by decide)).1 (by decide)
    refine (congrArg UInt32.toNat hsecond).trans ?_
    decide +kernel

/-- A second part that begins with a continuation byte completes the first. -/
example :
    (atStart [0xC3]).sights = [(0, some replacement), (1, none)] ∧
      (atStart [0xA9]).sights = [(0, some replacement), (1, none)] ∧
      (atStart [0xC3, 0xA9]).sights = [(0, some 'é'), (2, none)] := by
  decide +kernel

end ByteCursor

end EndOfInput
