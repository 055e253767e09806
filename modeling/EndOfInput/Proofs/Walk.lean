import EndOfInput.Proofs.Boundaries

/-!
# What a walk shows

A walk shows at each boundary a position and a character, and at the end a position alone.  All of this depends on
the input and the position where it begins (`ByteCursor.sights_congr`), and it is read off the pieces of the rest of
the input (`ByteCursor.sights_eq`).
-/

namespace EndOfInput.ByteCursor

open Machine Utf8

variable {c : ByteCursor} {b : UInt8} {bytes : List UInt8}

/-- The positions visited from a cursor on, each with the character there. -/
def sights (c : ByteCursor) : List (Nat × Option Char) :=
  c.walk.map fun d => (d.position, d.lookahead?)

/-- The characters from a cursor on. -/
def text (c : ByteCursor) : List Char :=
  c.walk.filterMap lookahead?

/-! ### One advance -/

theorem lookahead?_of_rest (h : c.rest = b :: bytes) : c.lookahead? = some (piece b bytes).char := by
  rw [lookahead?, h]
  rfl

theorem position_advance_of_rest (h : c.rest = b :: bytes) (skip : Bool) :
    (c.advance skip).position = c.position + (piece b bytes).size := by
  rw [advance, h]
  rfl

theorem rest_advance (h : c.rest = b :: bytes) (skip : Bool) :
    (c.advance skip).rest = bytes.drop (tail b bytes).length := by
  rw [rest, input_advance, position_advance_of_rest h, size_piece, ← List.drop_drop]
  show c.rest.drop ((tail b bytes).length + 1) = _
  rw [h, List.drop_succ_cons]

theorem isEnd_of_rest (h : c.rest = b :: bytes) : c.isEnd = false := by
  rw [Bool.eq_false_iff, ne_eq, ← rest_eq_nil_iff, h]
  exact List.cons_ne_nil b bytes

theorem rest_of_getElem? (h : c.input[c.position]? = some b) : c.rest = b :: c.input.drop (c.position + 1) := by
  obtain ⟨hp, rfl⟩ := List.getElem?_eq_some_iff.mp h
  exact List.drop_eq_getElem_cons hp

theorem exists_rest_of_not_isEnd (h : c.isEnd = false) : ∃ b bytes, c.rest = b :: bytes := by
  apply List.exists_cons_of_ne_nil
  rw [ne_eq, rest_eq_nil_iff, h]
  exact Bool.false_ne_true

/-! ### The end of the input -/

theorem isEnd_iff_lookahead? : c.isEnd = true ↔ c.lookahead? = none := by
  rw [← rest_eq_nil_iff, lookahead?, Option.map_eq_none_iff, first?_eq_none_iff]

theorem isEnd_iff_advance (skip : Bool) : c.isEnd = true ↔ c.advance skip = c := by
  constructor
  · intro h
    exact advance_of_isEnd h skip
  · intro h
    cases he : c.isEnd with
    | true => rfl
    | false =>
      have moved := position_lt_advance he skip
      rw [h] at moved
      exact absurd moved (Nat.lt_irrefl _)

/-- As many advances as there are bytes left lead to the end. -/
theorem isEnd_after_advances {skips : List Bool} (h : c.input.length - c.position ≤ skips.length) :
    (after c (skips.map Move.advance)).isEnd = true := by
  induction skips generalizing c with
  | nil =>
    rw [isEnd_iff]
    exact Nat.le_of_sub_eq_zero (Nat.le_zero.mp h)
  | cons skip skips ih =>
    rw [List.map_cons, after_cons]
    show (after (c.advance skip) (skips.map Move.advance)).isEnd = true
    apply ih
    rw [input_advance]
    cases he : c.isEnd with
    | true =>
      rw [isEnd_iff] at he
      rw [advance_of_isEnd (isEnd_iff.mpr he)]
      omega
    | false =>
      have moved := position_lt_advance he skip
      rw [List.length_cons] at h
      omega

/-! ### A walk step by step -/

theorem mem_boundaries_self (c : ByteCursor) : c.position ∈ c.boundaries := by
  cases h : c.isEnd with
  | true =>
    rw [boundaries_of_isEnd h]
    exact List.mem_singleton_self _
  | false =>
    rw [boundaries_of_not_isEnd h]
    exact List.mem_cons_self

theorem walk_of_isEnd (h : c.isEnd = true) : c.walk = [c] := by
  rw [walk, if_pos h]

theorem walk_of_not_isEnd (h : c.isEnd = false) : c.walk = c :: (c.advance false).walk := by
  rw [walk, if_neg (by simp [h])]

/-- Induction along a walk, with the first piece of the bytes that are left. -/
@[elab_as_elim]
theorem walk_induction {motive : ByteCursor → Prop} (c : ByteCursor)
    (stop : ∀ c : ByteCursor, c.isEnd = true → motive c)
    (step : ∀ (c : ByteCursor) (b : UInt8) (bytes : List UInt8), c.rest = b :: bytes → motive (c.advance false) →
      motive c) : motive c := by
  fun_induction walk c with
  | case1 c h => exact stop c h
  | case2 c h ih =>
    obtain ⟨b, bytes, hr⟩ := exists_rest_of_not_isEnd (Bool.eq_false_iff.mpr h)
    exact step c b bytes hr ih

/-- What is shown of some pieces from a position on. -/
def placed (p : Nat) : List Piece → List (Nat × Option Char)
  | [] => [(p, none)]
  | piece :: rest => (p, some piece.char) :: placed (p + piece.size) rest

theorem sights_eq (c : ByteCursor) : c.sights = placed c.position (pieces c.rest) := by
  induction c using walk_induction with
  | stop c h =>
    rw [sights, walk_of_isEnd h, rest_eq_nil_iff.mpr h, pieces_nil]
    exact congrArg (fun char? => [(c.position, char?)]) (isEnd_iff_lookahead?.mp h)
  | step c b bytes hr ih =>
    rw [rest_advance hr, position_advance_of_rest hr] at ih
    rw [sights, walk_of_not_isEnd (isEnd_of_rest hr), hr, pieces_cons, placed, ← ih, ← lookahead?_of_rest hr]
    rfl

theorem sights_congr {d : ByteCursor} (hi : c.input = d.input) (hp : c.position = d.position) :
    c.sights = d.sights := by
  rw [sights_eq, sights_eq, rest, rest, hi, hp]

theorem sights_atOffset {input : List UInt8} {q : Nat} (hi : c.input = input) (hp : c.position = q)
    (hq : q ≤ input.length) : (atOffset input q).sights = c.sights :=
  sights_congr hi.symm ((position_atOffset hq).trans hp.symm)

theorem sights_of_rest (h : c.rest = b :: bytes) :
    c.sights = (c.position, some (piece b bytes).char) :: (c.advance false).sights := by
  rw [sights_eq, sights_eq, h, pieces_cons, placed, rest_advance h, position_advance_of_rest h]

theorem map_fst_sights (c : ByteCursor) : c.sights.map Prod.fst = c.boundaries := by
  rw [sights, boundaries, List.map_map]
  rfl

theorem boundaries_of_rest (h : c.rest = b :: bytes) :
    c.boundaries = c.position :: (c.advance false).boundaries := by
  rw [← map_fst_sights, sights_of_rest h, List.map_cons, map_fst_sights]

theorem le_of_mem_sights {sight : Nat × Option Char} (h : sight ∈ c.sights) : c.position ≤ sight.1 := by
  apply le_of_mem_boundaries
  rw [← map_fst_sights]
  exact List.mem_map_of_mem h

private theorem filterMap_snd_placed (p : Nat) (ps : List Piece) :
    (placed p ps).filterMap Prod.snd = ps.map Piece.char := by
  induction ps generalizing p with
  | nil => rfl
  | cons piece ps ih => exact congrArg (piece.char :: ·) (ih (p + piece.size))

theorem text_eq (c : ByteCursor) : c.text = (pieces c.rest).map Piece.char := by
  rw [← filterMap_snd_placed c.position, ← sights_eq, sights, List.filterMap_map]
  rfl

end EndOfInput.ByteCursor
