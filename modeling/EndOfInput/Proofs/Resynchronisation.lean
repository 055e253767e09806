import EndOfInput.Proofs.Utf8.Sequences
import EndOfInput.Proofs.Walk

/-!
# Walks that begin inside a piece

After its first byte a piece has continuation bytes only, at most three, and none of them begins a piece of its own.
So a walk that begins inside a piece shows U+FFFD for each byte up to the next boundary, and from there on it is the
walk from the start (`ByteCursor.sights_from_offset`).
-/

namespace EndOfInput

open Utf8

namespace Utf8

/-- A byte that can only continue a character. -/
def IsContinuation (b : UInt8) : Prop :=
  0x80 ≤ b ∧ b ≤ 0xBF

theorem Continues.isContinuation {low high : UInt8} {cont : List UInt8} (h : Continues low high cont)
    (hlow : 0x80 ≤ low) (hhigh : high ≤ 0xBF) {b : UInt8} (hb : b ∈ cont) : IsContinuation b := by
  induction cont generalizing low high with
  | nil => cases hb
  | cons b' cont ih =>
    obtain ⟨hl, hh, hcont⟩ := h
    rcases List.mem_cons.mp hb with rfl | hb
    · exact ⟨UInt8.le_trans hlow hl, UInt8.le_trans hh hhigh⟩
    · exact ih hcont (by decide) (by decide) hb

theorem isContinuation_of_mem_tail {b b' : UInt8} {bytes : List UInt8} (h : b' ∈ tail b bytes) : IsContinuation b' := by
  cases hl : Lead.ofByte? b with
  | none =>
    rw [tail_of_ofByte?_eq_none hl] at h
    cases h
  | some lead =>
    rw [tail_of_ofByte? hl] at h
    obtain ⟨⟨hlow, -, hhigh⟩, -⟩ := Lead.bounds hl
    exact (continues_continuation _ _ _ _).isContinuation hlow hhigh h

theorem length_tail_le (b : UInt8) (bytes : List UInt8) : (tail b bytes).length ≤ 3 := by
  cases hl : Lead.ofByte? b with
  | none =>
    rw [tail_of_ofByte?_eq_none hl]
    exact Nat.zero_le 3
  | some lead =>
    rw [tail_of_ofByte? hl]
    exact Nat.le_trans (length_continuation_le _ _ _ _) (Lead.bounds hl).2

theorem piece_of_isContinuation {b : UInt8} (h : IsContinuation b) (bytes : List UInt8) :
    piece b bytes = ⟨[b], none⟩ := by
  obtain ⟨hlow, hhigh⟩ := h
  replace hlow : 128 ≤ b.toNat := hlow
  replace hhigh : b.toNat ≤ 191 := hhigh
  have hl : Lead.ofByte? b = none := ofByte?_eq_none (Or.inl ⟨hlow, by omega⟩)
  rw [piece, tail_of_ofByte?_eq_none hl, decode?, hl]

end Utf8

namespace ByteCursor

/-! ### Inside a piece -/

/-- The bytes between two boundaries are continuation bytes. -/
theorem isContinuation_of_inside {c : ByteCursor} {q : Nat} (h : c.position < q) (h' : q < (c.advance false).position) :
    ∃ b, c.input[q]? = some b ∧ IsContinuation b := by
  cases hr : c.rest with
  | nil =>
    rw [advance_of_isEnd (rest_eq_nil_iff.mp hr)] at h'
    omega
  | cons b bytes =>
    rw [position_advance_of_rest hr, size_piece] at h'
    obtain ⟨i, rfl⟩ : ∃ i, q = c.position + (i + 1) := ⟨q - c.position - 1, by omega⟩
    have hi : i < (tail b bytes).length := by omega
    have hget : c.input[c.position + (i + 1)]? = some (tail b bytes)[i] := by
      rw [← List.getElem?_drop]
      show c.rest[i + 1]? = _
      rw [hr, List.getElem?_cons_succ]
      conv => lhs; rw [← tail_append_drop b bytes]
      rw [List.getElem?_append_left hi, List.getElem?_eq_getElem hi]
    exact ⟨_, hget, isContinuation_of_mem_tail (List.getElem_mem hi)⟩

theorem position_advance_le_add (c : ByteCursor) (skip : Bool) : (c.advance skip).position ≤ c.position + 4 := by
  cases hr : c.rest with
  | nil =>
    rw [advance_of_isEnd (rest_eq_nil_iff.mp hr)]
    omega
  | cons b bytes =>
    have := length_tail_le b bytes
    rw [position_advance_of_rest hr, size_piece]
    omega

theorem position_advance_of_isContinuation {c : ByteCursor} {b : UInt8} (h : c.input[c.position]? = some b)
    (hb : IsContinuation b) (skip : Bool) : (c.advance skip).position = c.position + 1 := by
  rw [position_advance_of_rest (rest_of_getElem? h), piece_of_isContinuation hb]
  rfl

/-- A walk that begins at a continuation byte shows that byte alone. -/
theorem sights_of_isContinuation {input : List UInt8} {q : Nat} {b : UInt8} (h : input[q]? = some b)
    (hb : IsContinuation b) :
    (∀ skip, ((atOffset input q).advance skip).position = q + 1) ∧
      (atOffset input q).sights = (q, some replacement) :: (atOffset input (q + 1)).sights := by
  obtain ⟨hq, -⟩ := List.getElem?_eq_some_iff.mp h
  have hp : (atOffset input q).position = q := position_atOffset (Nat.le_of_lt hq)
  have hget : (atOffset input q).input[(atOffset input q).position]? = some b := by
    rw [hp]
    exact h
  have hnext : ∀ skip, ((atOffset input q).advance skip).position = q + 1 := by
    intro skip
    rw [position_advance_of_isContinuation hget hb, hp]
  have hi : ((atOffset input q).advance false).input = input := input_advance _ false
  refine ⟨hnext, ?_⟩
  rw [sights_of_rest (rest_of_getElem? hget), piece_of_isContinuation hb, sights_atOffset hi (hnext false) hq, hp]
  rfl

theorem sights_of_forall_isContinuation {input : List UInt8} {q k : Nat}
    (h : ∀ i < k, ∃ b, input[q + i]? = some b ∧ IsContinuation b) :
    (atOffset input q).sights =
      ((List.range k).map fun i => (q + i, some replacement)) ++ (atOffset input (q + k)).sights := by
  induction k with
  | zero => rfl
  | succ k ih =>
    obtain ⟨b, hget, hb⟩ := h k (Nat.lt_succ_self k)
    rw [ih fun i hi => h i (Nat.lt_succ_of_lt hi), (sights_of_isContinuation hget hb).2, List.range_succ,
      List.map_append, List.append_assoc]
    rfl

/-! ### From any offset -/

private theorem filter_sights_of_le {c : ByteCursor} {o : Nat} (h : o ≤ c.position) :
    c.sights.filter (fun sight => o ≤ sight.1) = c.sights := by
  rw [List.filter_eq_self]
  intro sight hs
  exact decide_eq_true (Nat.le_trans h (le_of_mem_sights hs))

/-- A walk from an offset, next to one that begins before it: it shows the continuation bytes up to the next boundary,
and then the rest of the other walk. -/
theorem exists_sights_atOffset {c : ByteCursor} {o : Nat} (hc : c.position ≤ o) (ho : o ≤ c.input.length) :
    ∃ k ≤ 3,
      (atOffset c.input o).sights =
        ((List.range k).map fun i => (o + i, some replacement)) ++ c.sights.filter (fun sight => o ≤ sight.1) ∧
      ∀ i < k, o + i ∉ c.boundaries ∧ ∃ b, c.input[o + i]? = some b ∧ IsContinuation b := by
  induction c using walk_induction with
  | stop c h =>
    rw [isEnd_iff] at h
    refine ⟨0, Nat.zero_le 3, ?_, fun i hi => absurd hi (Nat.not_lt_zero i)⟩
    rw [filter_sights_of_le (by omega), sights_atOffset rfl (by omega) ho]
    rfl
  | step c b bytes hr ih =>
    rcases Nat.eq_or_lt_of_le hc with rfl | hlt
    · -- `o` is a boundary
      refine ⟨0, Nat.zero_le 3, ?_, fun i hi => absurd hi (Nat.not_lt_zero i)⟩
      rw [filter_sights_of_le (Nat.le_refl _), sights_atOffset rfl rfl ho]
      rfl
    · rw [sights_of_rest hr, boundaries_of_rest hr, List.filter_cons_of_neg (by simp; omega)]
      by_cases hle : (c.advance false).position ≤ o
      · -- the walk passes on
        obtain ⟨k, hk, hsights, hinside⟩ := ih hle (by rw [input_advance]; exact ho)
        rw [input_advance] at hsights hinside
        refine ⟨k, hk, hsights, fun i hi => ⟨?_, (hinside i hi).2⟩⟩
        intro hm
        rcases List.mem_cons.mp hm with hp | hm
        · omega
        · exact (hinside i hi).1 hm
      · -- `o` is inside the piece
        have hbound := position_advance_le_add c false
        have hlast := position_advance_le (Nat.le_trans hc ho) false
        obtain ⟨k, hk⟩ : ∃ k, (c.advance false).position = o + k :=
          ⟨(c.advance false).position - o, by omega⟩
        have hinside : ∀ i < k, ∃ b, c.input[o + i]? = some b ∧ IsContinuation b := by
          intro i hi
          exact isContinuation_of_inside (by omega) (by omega)
        refine ⟨k, by omega, ?_, fun i hi => ⟨?_, hinside i hi⟩⟩
        · rw [sights_of_forall_isContinuation hinside, filter_sights_of_le (by omega),
            sights_atOffset (input_advance c false) hk (by omega)]
        · intro hm
          rcases List.mem_cons.mp hm with hp | hm
          · omega
          · have := le_of_mem_boundaries hm
            omega

/-- A walk from any offset meets the walk from the start after at most three bytes.  It shows U+FFFD for each of these
bytes alone, and none of them is at a boundary of the other walk; and then it shows what the other walk shows from
the offset on. -/
theorem sights_from_offset (input : List UInt8) {o : Nat} (ho : o ≤ input.length) :
    ∃ k ≤ 3,
      (atOffset input o).sights =
        ((List.range k).map fun i => (o + i, some replacement)) ++
          (atStart input).sights.filter (fun sight => o ≤ sight.1) ∧
      ∀ i < k, o + i ∉ (atStart input).boundaries ∧
        ∀ skip, ((atOffset input (o + i)).advance skip).position = o + i + 1 := by
  have hstart : (atStart input).position ≤ o := Nat.le_trans (Nat.min_le_left 0 _) (Nat.zero_le o)
  obtain ⟨k, hk, hsights, hinside⟩ := exists_sights_atOffset hstart ho
  refine ⟨k, hk, hsights, fun i hi => ?_⟩
  obtain ⟨hnot, b, hget, hb⟩ := hinside i hi
  exact ⟨hnot, (sights_of_isContinuation hget hb).1⟩

/-- The walk from the second byte of a character of four bytes. -/
theorem sights_from_second_byte :
    1 ≤ [0xF0, 0x9F, 0x98, 0x80, 0x0A].length ∧ ∃ k ≤ 3,
      (atOffset [0xF0, 0x9F, 0x98, 0x80, 0x0A] 1).sights =
        ((List.range k).map fun i => (1 + i, some replacement)) ++ [(4, some '\n'), (5, none)] := by
  have hstart : (atStart [0xF0, 0x9F, 0x98, 0x80, 0x0A]).sights = [(0, some '😀'), (4, some '\n'), (5, none)] := by
    decide +kernel
  obtain ⟨k, hk, hsights, -⟩ := sights_from_offset [0xF0, 0x9F, 0x98, 0x80, 0x0A] (o := 1) (by decide)
  rw [hstart] at hsights
  exact ⟨by decide, k, hk, hsights⟩

end ByteCursor

end EndOfInput
