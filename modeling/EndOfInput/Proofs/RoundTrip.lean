import EndOfInput.Proofs.Utf8.Encoding
import EndOfInput.Proofs.Walk

/-!
# Texts and their encodings

A walk over the encoding of a text shows the text, each character at its offset.  The other way round, the encoding of
what a walk shows is the input if the input is well formed, and it shows the same again if not
(`ByteCursor.text_of_encode`).
-/

namespace EndOfInput

open Utf8

namespace Utf8

theorem pieces_of_first? {bytes : List UInt8} {p : Piece} (h : first? bytes = some p) :
    pieces bytes = p :: pieces (bytes.drop p.size) := by
  cases bytes with
  | nil => cases h
  | cons b bytes =>
    rw [first?_cons, Option.some.injEq] at h
    rw [← h, pieces_cons, size_piece, List.drop_succ_cons]

theorem pieces_encode (text : List Char) :
    pieces (encode text) = text.map fun ch => ⟨String.utf8EncodeChar ch, some ch⟩ := by
  induction text with
  | nil => exact pieces_nil
  | cons ch text ih =>
    show pieces (String.utf8EncodeChar ch ++ encode text) = _
    rw [pieces_of_first? (first?_encode_cons ch (encode text)), Piece.size, List.drop_left, ih, List.map_cons]

/-- The bytes are well formed if they encode some text. -/
theorem isValidUTF8_iff {bytes : List UInt8} : bytes.toByteArray.IsValidUTF8 ↔ ∃ text, encode text = bytes := by
  constructor
  · rintro ⟨text, h⟩
    exact ⟨text, (List.toByteArray_inj.mp h).symm⟩
  · rintro ⟨text, rfl⟩
    exact ⟨text, rfl⟩

end Utf8

namespace ByteCursor

private theorem offset_cons (ch : Char) (text : List Char) (i : Nat) :
    offset (ch :: text) (i + 1) = (String.utf8EncodeChar ch).length + offset text i := by
  rw [offset, List.take_succ_cons, offset, ← List.length_append]
  rfl

private theorem placed_encoded (p : Nat) (text : List Char) :
    placed p (text.map fun ch => ⟨String.utf8EncodeChar ch, some ch⟩) =
      (List.range (text.length + 1)).map fun i => (p + offset text i, text[i]?) := by
  induction text generalizing p with
  | nil => rfl
  | cons ch text ih =>
    rw [List.map_cons, placed, ih, List.length_cons, List.range_succ_eq_map (n := text.length + 1), List.map_cons,
      List.map_map]
    congr 1
    apply List.map_congr_left
    intro i _
    show (p + (String.utf8EncodeChar ch).length + offset text i, text[i]?) =
      (p + offset (ch :: text) (i + 1), (ch :: text)[i + 1]?)
    rw [offset_cons, Nat.add_assoc, List.getElem?_cons_succ]

theorem sights_encode (text : List Char) :
    (atStart (encode text)).sights = (List.range (text.length + 1)).map fun i => (offset text i, text[i]?) := by
  rw [sights_eq]
  show placed 0 (pieces (encode text)) = _
  rw [pieces_encode, placed_encoded]
  simp only [Nat.zero_add]

theorem text_encode (text : List Char) : (atStart (encode text)).text = text := by
  rw [text_eq]
  show (pieces (encode text)).map Piece.char = text
  rw [pieces_encode, List.map_map]
  exact List.map_id text

/-- The law of encoding and reading.  A walk over the encoding of a text shows its characters in order, each at the
number of bytes before it, and no more at the end.  The characters that a walk over any bytes shows encode to these
bytes if and only if the bytes are well formed, and a walk over their encoding shows the same characters again. -/
theorem text_of_encode :
    (∀ text : List Char,
      (atStart (encode text)).text = text ∧
      (atStart (encode text)).sights =
        (List.range (text.length + 1)).map fun i => ((encode (text.take i)).length, text[i]?)) ∧
    ∀ bytes : List UInt8,
      (encode (atStart bytes).text = bytes ↔ bytes.toByteArray.IsValidUTF8) ∧
      (atStart (encode (atStart bytes).text)).text = (atStart bytes).text := by
  refine ⟨fun text => ⟨text_encode text, sights_encode text⟩, fun bytes => ⟨?_, text_encode _⟩⟩
  rw [isValidUTF8_iff]
  constructor
  · intro h
    exact ⟨_, h⟩
  · rintro ⟨text, rfl⟩
    rw [text_encode]

end ByteCursor

end EndOfInput
