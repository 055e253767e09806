import EndOfInput.Proofs.Resynchronisation
import EndOfInput.Proofs.Utf8.Lines

/-!
# Columns

The column of a position is the number of boundaries on its line before it, although it is counted by cutting the
line anew from its start to the position (`ByteCursor.column_of_position`).
-/

namespace EndOfInput.ByteCursor

open Utf8

/-- The number of boundaries on the line of a position, before the position. -/
def countOnLine (input : List UInt8) (p : Nat) : Nat :=
  (atStart input).boundaries.countP fun q => lineStart input p ≤ q ∧ q < p

variable {input : List UInt8} {p : Nat}

/-! ### Boundaries and bytes -/

theorem isContinuation_of_not_mem_boundaries (hp : p ≤ input.length) (h : p ∉ (atStart input).boundaries) :
    ∃ b, input[p]? = some b ∧ IsContinuation b := by
  have hstart : (atStart input).position ≤ p := Nat.le_trans (Nat.min_le_left 0 _) (Nat.zero_le p)
  obtain ⟨k, -, hsights, hinside⟩ := exists_sights_atOffset hstart hp
  cases k with
  | succ k => exact (hinside 0 (Nat.succ_pos k)).2
  | zero =>
    -- nothing is shown before the other walk is met
    have hself := mem_boundaries_self (atOffset input p)
    rw [position_atOffset hp, ← map_fst_sights] at hself
    obtain ⟨sight, hs, rfl⟩ := List.mem_map.mp hself
    replace hs : sight ∈ [] ++ (atStart input).sights.filter (fun sight' => sight.1 ≤ sight'.1) := hsights ▸ hs
    refine absurd ?_ h
    rw [← map_fst_sights]
    exact List.mem_map_of_mem (List.mem_filter.mp hs).1

theorem mem_boundaries_advance (hp : p ∈ (atStart input).boundaries) (skip : Bool) :
    ((atOffset input p).advance skip).position ∈ (atStart input).boundaries := by
  have hle : p ≤ input.length := le_length_of_mem_boundaries (position_atStart_le input) hp
  cases he : (atOffset input p).isEnd with
  | true =>
    rw [advance_of_isEnd he, position_atOffset hle]
    exact hp
  | false =>
    obtain ⟨b, bytes, hr⟩ := exists_rest_of_not_isEnd he
    have hnext := mem_boundaries_self ((atOffset input p).advance false)
    rw [position_advance_congr rfl rfl false skip] at hnext
    have hmem := List.mem_cons_of_mem (atOffset input p).position hnext
    rw [← boundaries_of_rest hr] at hmem
    replace hmem : _ ∈ (atStart input).boundaries.filter (fun q => p ≤ q) :=
      (filter_boundaries (position_atStart_le input) hp).symm ▸ hmem
    exact (List.mem_filter.mp hmem).1

/-! ### Counting boundaries -/

theorem countP_boundaries_of_le {c : ByteCursor} {q : Nat} (h : q ≤ c.position) :
    (c.boundaries.countP fun p => p < q) = 0 := by
  rw [List.countP_eq_zero]
  intro p hp
  have := le_of_mem_boundaries hp
  rw [decide_eq_true_iff]
  omega

/-- The part of the rest up to a position has as many pieces as there are boundaries in it, since no piece begins
where another is cut. -/
theorem length_pieces_take {c : ByteCursor} {q : Nat} (hc : c.position ≤ q) (hq : q ≤ c.input.length) :
    (pieces (c.rest.take (q - c.position))).length = c.boundaries.countP fun p => p < q := by
  induction c using walk_induction with
  | stop c h =>
    rw [countP_boundaries_of_le (by rw [isEnd_iff] at h; omega), rest_eq_nil_iff.mpr h, List.take_nil, pieces_nil]
    rfl
  | step c b bytes hr ih =>
    rcases Nat.eq_or_lt_of_le hc with rfl | hlt
    · rw [countP_boundaries_of_le (Nat.le_refl _), Nat.sub_self, List.take_zero, pieces_nil]
      rfl
    · obtain ⟨k, rfl⟩ : ∃ k, q = c.position + (k + 1) := ⟨q - c.position - 1, by omega⟩
      have hnext := position_advance_of_rest hr false
      rw [size_piece] at hnext
      rw [Nat.add_sub_cancel_left, hr, List.take_succ_cons, pieces_cons, tail_take, List.length_cons, List.length_take,
        boundaries_of_rest hr, List.countP_cons_of_pos (by simp)]
      congr 1
      by_cases hle : (c.advance false).position ≤ c.position + (k + 1)
      · -- the first piece is not cut
        rw [← ih hle (by rw [input_advance]; exact hq), rest_advance hr, Nat.min_eq_right (by omega), List.drop_take]
        congr 3
        omega
      · rw [countP_boundaries_of_le (by omega), Nat.min_eq_left (by omega), List.drop_take, Nat.sub_self,
          List.take_zero, pieces_nil]
        rfl

private theorem countP_lt_add {l p n : Nat} (h : l ≤ p) (h' : p ≤ n) (qs : List Nat) :
    (qs.countP fun q => l ≤ q ∧ q < n) =
      (qs.countP fun q => l ≤ q ∧ q < p) + qs.countP fun q => p ≤ q ∧ q < n := by
  induction qs with
  | nil => rfl
  | cons q qs ih =>
    simp only [List.countP_cons, ih, decide_eq_true_iff]
    split <;> split <;> split <;> omega

/-- The boundaries from one of them on are those of a walk from there. -/
theorem countP_boundaries (hp : p ∈ (atStart input).boundaries) (n : Nat) :
    ((atStart input).boundaries.countP fun q => p ≤ q ∧ q < n) =
      (atOffset input p).boundaries.countP fun q => q < n := by
  show _ = (atOffset (atStart input).input p).boundaries.countP fun q => q < n
  rw [← filter_boundaries (position_atStart_le input) hp, List.countP_filter]
  congr 1
  funext q
  rw [Bool.decide_and, Bool.and_comm]

/-! ### The start of the line -/

theorem position_advance_of_lineFeed {c : ByteCursor} (h : c.input[c.position]? = some 0x0A) (skip : Bool) :
    (c.advance skip).position = c.position + 1 := by
  rw [position_advance_of_rest (rest_of_getElem? h)]
  rfl

theorem lookahead?_eq_lineFeed_iff {c : ByteCursor} : c.lookahead? = some '\n' ↔ c.input[c.position]? = some 0x0A := by
  have hget : c.input[c.position]? = c.rest.head? := by rw [rest, List.head?_drop]
  rw [hget]
  cases hr : c.rest with
  | nil => simp [isEnd_iff_lookahead?.mp (rest_eq_nil_iff.mp hr)]
  | cons b bytes =>
    rw [lookahead?_of_rest hr, Option.some.injEq, char_piece_eq_lineFeed_iff, List.head?_cons, Option.some.injEq]

private theorem ne_lineFeed (h : ∃ b, input[p]? = some b ∧ IsContinuation b) : input[p]? ≠ some 0x0A := by
  obtain ⟨b, hb, hcont⟩ := h
  intro hfeed
  rw [hfeed, Option.some.injEq] at hb
  subst hb
  exact absurd hcont.1 (by decide)

/-- A line starts at a boundary, since a line feed is a piece of its own. -/
theorem lineStart_mem_boundaries (input : List UInt8) (p : Nat) :
    lineStart input p ∈ (atStart input).boundaries := by
  rcases (lineStart_spec input p).1 with h | ⟨i, h, hfeed⟩
  · rw [h]
    exact mem_boundaries_self (atStart input)
  · have hlt : i ≤ input.length := Nat.le_of_lt (List.getElem?_eq_some_iff.mp hfeed).1
    have hi : i ∈ (atStart input).boundaries := by
      by_cases hm : i ∈ (atStart input).boundaries
      · exact hm
      · exact absurd hfeed (ne_lineFeed (isContinuation_of_not_mem_boundaries hlt hm))
    have hnext := mem_boundaries_advance hi false
    have hpos : (atOffset input i).position = i := position_atOffset hlt
    have hget : (atOffset input i).input[(atOffset input i).position]? = some 0x0A := by
      rw [hpos]
      exact hfeed
    have hadv := position_advance_of_lineFeed hget false
    rw [hpos] at hadv
    rw [h, ← hadv]
    exact hnext

/-! ### The column -/

theorem toNat_column_eq_min (c : ByteCursor) :
    c.column.toNat = min (pieces (lastLine c.before)).length (UInt32.size - 1) := by
  have hsize : min (pieces (lastLine c.before)).length (UInt32.size - 1) < UInt32.size :=
    Nat.lt_of_le_of_lt (Nat.min_le_right _ _) (by decide)
  exact UInt32.toNat_ofNat_of_lt' hsize

theorem toNat_column {c : ByteCursor} (hc : c.position ≤ c.input.length) :
    c.column.toNat = min (countOnLine c.input c.position) (UInt32.size - 1) := by
  obtain ⟨d, hd⟩ : ∃ d, d = atOffset c.input (lineStart c.input c.position) := ⟨_, rfl⟩
  have hle := lineStart_le c.input c.position
  have hpos : d.position = lineStart c.input c.position := by
    rw [hd]
    exact position_atOffset (Nat.le_trans hle hc)
  have hline : lastLine c.before = d.rest.take (c.position - d.position) := by
    rw [before, lastLine_take, List.drop_take, ← hpos, hd]
    rfl
  have hcount : (pieces (lastLine c.before)).length = countOnLine c.input c.position := by
    rw [hline, length_pieces_take (by rw [hpos]; exact hle) (by rw [hd]; exact hc), hd, countOnLine,
      countP_boundaries (lineStart_mem_boundaries c.input c.position)]
  rw [toNat_column_eq_min, hcount]

theorem countOnLine_of_lineFeed (h : input[p]? = some 0x0A) :
    countOnLine input (p + 1) = 0 := by
  rw [countOnLine, lineStart, if_pos h, List.countP_eq_zero]
  intro q _
  rw [decide_eq_true_iff]
  omega

theorem countOnLine_of_not_mem_boundaries (hp : p ≤ input.length) (h : p ∉ (atStart input).boundaries) :
    countOnLine input (p + 1) = countOnLine input p := by
  have hfeed := ne_lineFeed (isContinuation_of_not_mem_boundaries hp h)
  rw [countOnLine, lineStart, if_neg hfeed, countOnLine]
  apply List.countP_congr
  intro q hq
  have hne : q ≠ p := fun heq => h (heq ▸ hq)
  rw [decide_eq_true_iff, decide_eq_true_iff]
  omega

/-- An advance from a boundary over a character that is no line feed passes one boundary more. -/
theorem countOnLine_advance {c : ByteCursor} (hc : c.position ∈ (atStart c.input).boundaries) (he : c.isEnd = false)
    (hno : c.lookahead? ≠ some '\n') (skip : Bool) :
    countOnLine c.input (c.advance skip).position = countOnLine c.input c.position + 1 := by
  obtain ⟨b, bytes, hr⟩ := exists_rest_of_not_isEnd he
  have hle : c.position ≤ c.input.length := le_length_of_mem_boundaries (position_atStart_le c.input) hc
  have hlt := position_lt_advance he false
  rw [position_advance_congr (c := c) rfl rfl skip false]
  have hline : lineStart c.input (c.advance false).position = lineStart c.input c.position := by
    apply lineStart_eq_of_le (Nat.le_of_lt hlt)
    intro i hi hi'
    rcases Nat.eq_or_lt_of_le hi with rfl | hi
    · rw [ne_eq, ← lookahead?_eq_lineFeed_iff]
      exact hno
    · exact ne_lineFeed (isContinuation_of_inside hi hi')
  have hone : ((atStart c.input).boundaries.countP fun q => c.position ≤ q ∧ q < (c.advance false).position) = 1 := by
    rw [countP_boundaries hc, boundaries_atOffset_position hle, boundaries_of_rest hr,
      List.countP_cons_of_pos (by rw [decide_eq_true_iff]; exact hlt), countP_boundaries_of_le (Nat.le_refl _)]
  rw [countOnLine, hline, countP_lt_add (lineStart_le c.input c.position) (Nat.le_of_lt hlt), hone, countOnLine]

/-! ### Along a walk -/

/-- The number of the latest of some advances, from the places of the cursors, none of which passed a line feed. -/
def sinceLineFeed (passed : List ByteCursor) : Nat :=
  (passed.reverse.takeWhile fun d => d.lookahead? ≠ some '\n').length

theorem sinceLineFeed_append_singleton (passed : List ByteCursor) (d : ByteCursor) :
    sinceLineFeed (passed ++ [d]) = if d.lookahead? = some '\n' then 0 else sinceLineFeed passed + 1 := by
  rw [sinceLineFeed, List.reverse_append, List.reverse_singleton, List.singleton_append, List.takeWhile_cons]
  by_cases h : d.lookahead? = some '\n'
  · simp [h]
  · simp [h, sinceLineFeed]

theorem getElem?_walk_zero (c : ByteCursor) : c.walk[0]? = some c := by
  cases h : c.isEnd with
  | true => rw [walk_of_isEnd h, List.getElem?_cons_zero]
  | false => rw [walk_of_not_isEnd h, List.getElem?_cons_zero]

theorem getElem?_walk_succ {c d : ByteCursor} {k : Nat} (h : c.walk[k + 1]? = some d) :
    ∃ e, c.walk[k]? = some e ∧ e.isEnd = false ∧ d = e.advance false := by
  induction k generalizing c with
  | zero =>
    cases he : c.isEnd with
    | true => exact absurd h (by simp [walk_of_isEnd he])
    | false =>
      rw [walk_of_not_isEnd he, List.getElem?_cons_succ, getElem?_walk_zero] at h
      exact ⟨c, getElem?_walk_zero c, he, (Option.some.inj h).symm⟩
  | succ k ih =>
    cases he : c.isEnd with
    | true => exact absurd h (by simp [walk_of_isEnd he])
    | false =>
      rw [walk_of_not_isEnd he, List.getElem?_cons_succ] at h
      rw [walk_of_not_isEnd he, List.getElem?_cons_succ]
      exact ih h

theorem countOnLine_walk {k : Nat} {d : ByteCursor} (h : (atStart input).walk[k]? = some d) :
    d.input = input ∧ countOnLine input d.position = sinceLineFeed ((atStart input).walk.take k) := by
  induction k generalizing d with
  | zero =>
    rw [getElem?_walk_zero, Option.some.injEq] at h
    subst h
    refine ⟨rfl, ?_⟩
    have hpos : (atStart input).position = 0 := Nat.min_eq_left (Nat.zero_le _)
    rw [hpos, countOnLine, List.countP_eq_zero.mpr (by intro q _; rw [decide_eq_true_iff]; omega)]
    rfl
  | succ k ih =>
    obtain ⟨e, hk, he, rfl⟩ := getElem?_walk_succ h
    obtain ⟨rfl, ih⟩ := ih hk
    refine ⟨input_advance e false, ?_⟩
    have hmem : e.position ∈ (atStart e.input).boundaries := List.mem_map_of_mem (List.mem_of_getElem? hk)
    obtain ⟨hlt, hget⟩ := List.getElem?_eq_some_iff.mp hk
    rw [List.take_succ_eq_append_getElem hlt, hget, sinceLineFeed_append_singleton, ← ih]
    by_cases hfeed : e.lookahead? = some '\n'
    · rw [if_pos hfeed]
      rw [lookahead?_eq_lineFeed_iff] at hfeed
      rw [position_advance_of_lineFeed hfeed, countOnLine_of_lineFeed hfeed]
    · rw [if_neg hfeed, countOnLine_advance hmem he hfeed]

/-- What an advance does to the column depends on where it begins: over a line feed, from another boundary, or from
inside a character or a refused sequence.  Along a walk from the start the column counts the advances since a line feed
was passed. -/
theorem column_of_position {c : ByteCursor} (hc : c.position ≤ c.input.length) (skip : Bool) :
    c.column.toNat = min (countOnLine c.input c.position) (UInt32.size - 1) ∧
    (c.lookahead? = some '\n' → (c.advance skip).column = 0) ∧
    (∀ char, c.position ∈ (atStart c.input).boundaries → c.lookahead? = some char → char ≠ '\n' →
      (c.advance skip).column.toNat = min (c.column.toNat + 1) (UInt32.size - 1)) ∧
    (c.position ∉ (atStart c.input).boundaries → (c.advance skip).column = c.column) ∧
    ∀ k d, (atStart c.input).walk[k]? = some d →
      d.column.toNat = min (sinceLineFeed ((atStart c.input).walk.take k)) (UInt32.size - 1) := by
  have hcolumn := toNat_column hc
  have hadvance : (c.advance skip).column.toNat =
      min (countOnLine c.input (c.advance skip).position) (UInt32.size - 1) := by
    rw [toNat_column (by rw [input_advance]; exact position_advance_le hc skip), input_advance]
  refine ⟨hcolumn, ?_, ?_, ?_, ?_⟩
  · intro hfeed
    rw [lookahead?_eq_lineFeed_iff] at hfeed
    rw [← UInt32.toNat_inj, hadvance, position_advance_of_lineFeed hfeed, countOnLine_of_lineFeed hfeed]
    rfl
  · intro char hmem hchar hne
    have he : c.isEnd = false := by
      rw [Bool.eq_false_iff, ne_eq, isEnd_iff_lookahead?, hchar]
      exact Option.some_ne_none char
    have hno : c.lookahead? ≠ some '\n' := by
      rw [hchar, ne_eq, Option.some.injEq]
      exact hne
    rw [hadvance, countOnLine_advance hmem he hno, hcolumn]
    omega
  · intro hmem
    obtain ⟨b, hb, hcont⟩ := isContinuation_of_not_mem_boundaries hc hmem
    rw [← UInt32.toNat_inj, hadvance, position_advance_of_isContinuation hb hcont,
      countOnLine_of_not_mem_boundaries hc hmem, ← hcolumn]
  · intro k d hd
    obtain ⟨hinput, hcount⟩ := countOnLine_walk hd
    have hle : d.position ≤ d.input.length := by
      rw [hinput]
      exact le_length_of_mem_boundaries (position_atStart_le c.input) (List.mem_map_of_mem (List.mem_of_getElem? hd))
    rw [toNat_column hle, hinput, hcount]

/-- Inside a character of four bytes on the second line, after one other character. -/
theorem column_inside_character :
    (atOffset [0x61, 0x0A, 0x62, 0xF0, 0x9F, 0x98, 0x80] 5).position ≤ 7 ∧
      (atOffset [0x61, 0x0A, 0x62, 0xF0, 0x9F, 0x98, 0x80] 5).column.toNat = 2 ∧
      ((atOffset [0x61, 0x0A, 0x62, 0xF0, 0x9F, 0x98, 0x80] 5).advance false).column =
        (atOffset [0x61, 0x0A, 0x62, 0xF0, 0x9F, 0x98, 0x80] 5).column := by
  have hle : (atOffset [0x61, 0x0A, 0x62, 0xF0, 0x9F, 0x98, 0x80] 5).position ≤ 7 := by decide
  have hboundaries : (atStart [0x61, 0x0A, 0x62, 0xF0, 0x9F, 0x98, 0x80]).boundaries = [0, 1, 2, 3, 7] := by
    decide +kernel
  obtain ⟨hcolumn, -, -, hinside, -⟩ := column_of_position hle false
  refine ⟨hle, ?_, hinside ?_⟩
  · rw [hcolumn]
    decide +kernel
  · show 5 ∉ (atStart [0x61, 0x0A, 0x62, 0xF0, 0x9F, 0x98, 0x80]).boundaries
    rw [hboundaries]
    decide

end EndOfInput.ByteCursor
