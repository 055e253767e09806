import EndOfInput.Proofs.Utf8.Sequences

/-!
# The segmentation of a byte string

How a byte string is to be cut, said without a decoder: `Utf8.Segment` is one cut, in terms of the encodings of
characters alone, and `Utf8.Segmentation` cuts from the left until nothing is left.  There is one way to do so, and
the pieces are that way (`Utf8.segmentation_iff`).
-/

namespace EndOfInput.Utf8

/-- The first segment of a byte string, and the character that it is shown as. -/
inductive Segment (bytes : List UInt8) : Char → List UInt8 → Prop where
  /-- A well-formed character. -/
  | character (ch : Char) : String.utf8EncodeChar ch <+: bytes → Segment bytes ch (String.utf8EncodeChar ch)
  /-- Where none stands, the longest part of some character. -/
  | truncated (part : List UInt8) : (∀ ch, ¬String.utf8EncodeChar ch <+: bytes) → part ≠ [] → part <+: bytes →
      Truncated part → (∀ longer, longer <+: bytes → Truncated longer → longer.length ≤ part.length) →
      Segment bytes replacement part
  /-- Where no character has such a part, one byte. -/
  | stray (b : UInt8) : (∀ ch, ¬String.utf8EncodeChar ch <+: bytes) → [b] <+: bytes →
      (∀ part, part ≠ [] → part <+: bytes → ¬Truncated part) → Segment bytes replacement [b]

/-- Consecutive segments that make up a byte string, each with the character that it is shown as. -/
inductive Segmentation : List UInt8 → List (Char × List UInt8) → Prop where
  | nil : Segmentation [] []
  | cons {bytes rest : List UInt8} {ch : Char} {part : List UInt8} {segments : List (Char × List UInt8)} :
      Segment bytes ch part → bytes = part ++ rest → Segmentation rest segments →
      Segmentation bytes ((ch, part) :: segments)

/-! ### There is no other segmentation -/

private theorem encodeChar_ne_nil (ch : Char) : String.utf8EncodeChar ch ≠ [] := by
  obtain ⟨b, lead, cont, he, -⟩ := encodes_encodeChar ch
  rw [he]
  exact List.cons_ne_nil b cont

theorem Segment.ne_nil {bytes part : List UInt8} {ch : Char} (h : Segment bytes ch part) : part ≠ [] := by
  cases h with
  | character _ _ => exact encodeChar_ne_nil ch
  | truncated _ _ hne _ _ _ => exact hne
  | stray b _ _ _ => exact List.cons_ne_nil b []

theorem Segment.length_le {bytes part : List UInt8} {ch : Char} (h : Segment bytes ch part) :
    part.length ≤ 4 ∧ (part ≠ String.utf8EncodeChar ch → part.length ≤ 3) := by
  have hfour : ∀ ch, (String.utf8EncodeChar ch).length ≤ 4 := by
    intro ch
    rw [String.length_utf8EncodeChar]
    exact ch.utf8Size_le_four
  cases h with
  | character _ _ => exact ⟨hfour ch, fun hne => absurd rfl hne⟩
  | truncated _ _ _ _ ht _ =>
    obtain ⟨ch', hp, hne⟩ := ht
    have hlt := Nat.lt_of_le_of_ne hp.length_le fun h => hne (hp.eq_of_length h)
    have := hfour ch'
    constructor <;> omega
  | stray b _ _ _ =>
    rw [List.length_singleton]
    constructor <;> omega

theorem Segment.unique {bytes part part' : List UInt8} {ch ch' : Char} (h : Segment bytes ch part)
    (h' : Segment bytes ch' part') : ch = ch' ∧ part = part' := by
  cases h with
  | character _ hp =>
    cases h' with
    | character _ hp' =>
      obtain rfl := eq_of_prefix_encodeChar hp hp'
      exact ⟨rfl, rfl⟩
    | truncated _ hno _ _ _ _ => exact absurd hp (hno ch)
    | stray _ hno _ _ => exact absurd hp (hno ch)
  | truncated _ hno hne hp ht hmax =>
    cases h' with
    | character _ hp' => exact absurd hp' (hno ch')
    | truncated _ _ _ hp' ht' hmax' =>
      have hlen : part.length = part'.length := Nat.le_antisymm (hmax' part hp ht) (hmax part' hp' ht')
      refine ⟨rfl, ?_⟩
      rw [List.prefix_iff_eq_take.mp hp, List.prefix_iff_eq_take.mp hp', hlen]
    | stray _ _ _ hnone => exact absurd ht (hnone part hne hp)
  | stray b hno hp hnone =>
    cases h' with
    | character _ hp' => exact absurd hp' (hno ch')
    | truncated _ _ hne' hp' ht' _ => exact absurd ht' (hnone part' hne' hp')
    | stray b' _ hp' _ =>
      refine ⟨rfl, ?_⟩
      rw [List.prefix_iff_eq_take.mp hp, List.prefix_iff_eq_take.mp hp']
      rfl

theorem Segmentation.unique {bytes : List UInt8} {segments segments' : List (Char × List UInt8)}
    (h : Segmentation bytes segments) (h' : Segmentation bytes segments') : segments = segments' := by
  induction h generalizing segments' with
  | nil =>
    cases h' with
    | nil => rfl
    | cons hseg' he' _ => exact absurd (List.append_eq_nil_iff.mp he'.symm).1 hseg'.ne_nil
  | cons hseg he _ ih =>
    cases h' with
    | nil => exact absurd (List.append_eq_nil_iff.mp he.symm).1 hseg.ne_nil
    | cons hseg' he' hrest' =>
      obtain ⟨rfl, rfl⟩ := hseg.unique hseg'
      obtain rfl := List.append_cancel_left (he.symm.trans he')
      rw [ih hrest']

/-! ### The pieces are the segmentation -/

private theorem no_character_begins {b : UInt8} {bytes : List UInt8}
    (h : ∀ lead, Lead.ofByte? b = some lead → (tail b bytes).length < lead.owed) (ch : Char) :
    ¬String.utf8EncodeChar ch <+: b :: bytes := by
  intro hp
  obtain ⟨b', lead, cont, he, hl, hc, hlen, -⟩ := encodes_encodeChar ch
  rw [he] at hp
  obtain ⟨rfl, hcont⟩ := List.cons_prefix_cons.mp hp
  -- all of the continuation bytes would have been taken
  have htake := (prefix_continuation hc (Nat.le_of_eq hlen) hcont).length_le
  have hlt := h lead hl
  rw [tail_of_ofByte? hl] at hlt
  omega

theorem segment_piece (b : UInt8) (bytes : List UInt8) :
    Segment (b :: bytes) (piece b bytes).char (piece b bytes).bytes := by
  have hp : b :: tail b bytes <+: b :: bytes := by
    rw [List.prefix_cons_inj]
    exact ⟨_, tail_append_drop b bytes⟩
  cases hl : Lead.ofByte? b with
  | none =>
    have htail : tail b bytes = [] := tail_of_ofByte?_eq_none hl bytes
    have hpiece : piece b bytes = ⟨[b], none⟩ := by rw [piece, htail, decode?, hl]
    rw [hpiece]
    refine .stray b (no_character_begins fun lead h => ?_) (htail ▸ hp) ?_
    · rw [hl] at h
      cases h
    · rintro (_ | ⟨b', cont⟩) hne hpart ht
      · exact hne rfl
      · obtain ⟨rfl, -⟩ := List.cons_prefix_cons.mp hpart
        obtain ⟨lead, hl', -⟩ := truncated_cons_iff.mp ht
        rw [hl] at hl'
        cases hl'
  | some lead =>
    have htail := tail_of_ofByte? hl bytes
    have hc : Continues lead.low lead.high (tail b bytes) := by
      rw [htail]
      exact continues_continuation _ _ _ _
    have hle : (tail b bytes).length ≤ lead.owed := by
      rw [htail]
      exact length_continuation_le _ _ _ _
    by_cases hlen : (tail b bytes).length = lead.owed
    · -- nothing is missing
      have he := encodeChar_codePoint hl hc hlen
      have hchar : (piece b bytes).char = Char.ofNat (codePoint lead.bits (tail b bytes)) := by
        simp [Piece.char, piece, decode?, hl, hlen]
      rw [hchar, bytes_piece, ← he]
      exact .character _ (he ▸ hp)
    · have hlt : (tail b bytes).length < lead.owed := Nat.lt_of_le_of_ne hle hlen
      have hchar : (piece b bytes).char = replacement := by
        simp [Piece.char, piece, decode?, hl, hlen]
      rw [hchar, bytes_piece]
      refine .truncated _ (no_character_begins fun lead' h => ?_) (List.cons_ne_nil _ _) hp
        (truncated_cons_iff.mpr ⟨lead, hl, hc, hlt⟩) ?_
      · rw [hl] at h
        cases h
        exact hlt
      · rintro (_ | ⟨b', cont⟩) hlonger ht
        · exact Nat.zero_le _
        · obtain ⟨rfl, hcont⟩ := List.cons_prefix_cons.mp hlonger
          obtain ⟨lead', hl', hc', hlt'⟩ := truncated_cons_iff.mp ht
          rw [hl] at hl'
          cases hl'
          rw [List.length_cons, List.length_cons, htail]
          exact Nat.succ_le_succ (prefix_continuation hc' (Nat.le_of_lt hlt') hcont).length_le

private theorem segmentation_pieces (bytes : List UInt8) :
    Segmentation bytes ((pieces bytes).map fun p => (p.char, p.bytes)) := by
  fun_induction pieces bytes with
  | case1 => exact .nil
  | case2 b bytes ih =>
    refine .cons (segment_piece b bytes) ?_ ih
    rw [bytes_piece, List.cons_append, tail_append_drop]

theorem segmentation_iff {bytes : List UInt8} {segments : List (Char × List UInt8)} :
    Segmentation bytes segments ↔ segments = (pieces bytes).map fun p => (p.char, p.bytes) := by
  constructor
  · intro h
    exact h.unique (segmentation_pieces bytes)
  · rintro rfl
    exact segmentation_pieces bytes

end EndOfInput.Utf8
