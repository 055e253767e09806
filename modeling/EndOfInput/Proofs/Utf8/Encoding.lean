import EndOfInput.Utf8

/-!
# Reading back an encoded text

The encoding of a character is a leading byte and the continuation bytes that it calls for, and their bits make up the
code point (`Utf8.encodes_encodeChar`).  So the first piece of an encoded text is its first character, whatever follows
(`Utf8.first?_encode_cons`).
-/

namespace EndOfInput.Utf8

/-! ### Leading bytes -/

private theorem ofByte?_toNat (b : UInt8) :
    Lead.ofByte? b =
      if b.toNat < 0x80 then some { bits := b.toNat, owed := 0 }
      else if b.toNat < 0xC2 then none
      else if b.toNat < 0xE0 then some { bits := b.toNat % 32, owed := 1 }
      else if b.toNat = 0xE0 then some { bits := 0, owed := 2, low := 0xA0 }
      else if b.toNat = 0xED then some { bits := 13, owed := 2, high := 0x9F }
      else if b.toNat < 0xF0 then some { bits := b.toNat % 16, owed := 2 }
      else if b.toNat = 0xF0 then some { bits := 0, owed := 3, low := 0x90 }
      else if b.toNat < 0xF4 then some { bits := b.toNat % 8, owed := 3 }
      else if b.toNat = 0xF4 then some { bits := 4, owed := 3, high := 0x8F }
      else none := by
  simp only [Lead.ofByte?, UInt8.lt_iff_toNat_lt, ← UInt8.toNat_inj]
  rfl

theorem ofByte?_of_lt {b : UInt8} (h : b.toNat < 0x80) : Lead.ofByte? b = some { bits := b.toNat, owed := 0 } := by
  rw [ofByte?_toNat, if_pos h]

theorem ofByte?_two {b : UInt8} (h : 0xC2 ≤ b.toNat) (h' : b.toNat < 0xE0) :
    Lead.ofByte? b = some { bits := b.toNat % 32, owed := 1 } := by
  rw [ofByte?_toNat, if_neg (by omega), if_neg (by omega), if_pos h']

theorem ofByte?_three {b : UInt8} (h : 0xE0 ≤ b.toNat) (h' : b.toNat < 0xF0) :
    Lead.ofByte? b = some
      { bits := b.toNat % 16, owed := 2
        low := if b.toNat = 0xE0 then 0xA0 else 0x80, high := if b.toNat = 0xED then 0x9F else 0xBF } := by
  rw [ofByte?_toNat, if_neg (by omega), if_neg (by omega), if_neg (by omega)]
  by_cases he : b.toNat = 0xE0
  · simp [he]
  · by_cases hd : b.toNat = 0xED
    · simp [hd]
    · simp [he, hd, h']

theorem ofByte?_four {b : UInt8} (h : 0xF0 ≤ b.toNat) (h' : b.toNat ≤ 0xF4) :
    Lead.ofByte? b = some
      { bits := b.toNat % 8, owed := 3
        low := if b.toNat = 0xF0 then 0x90 else 0x80, high := if b.toNat = 0xF4 then 0x8F else 0xBF } := by
  rw [ofByte?_toNat, if_neg (by omega), if_neg (by omega), if_neg (by omega), if_neg (by omega), if_neg (by omega),
    if_neg (by omega)]
  by_cases h0 : b.toNat = 0xF0
  · simp [h0]
  · by_cases h4 : b.toNat = 0xF4
    · simp [h4]
    · simp [h0, h4, show b.toNat < 0xF4 by omega]

/-- No other byte leads. -/
theorem ofByte?_eq_none {b : UInt8} (h : 0x80 ≤ b.toNat ∧ b.toNat < 0xC2 ∨ 0xF4 < b.toNat) :
    Lead.ofByte? b = none := by
  rw [ofByte?_toNat, if_neg (by omega)]
  by_cases hb : b.toNat < 0xC2
  · rw [if_pos hb]
  · rw [if_neg hb, if_neg (by omega), if_neg (by omega), if_neg (by omega), if_neg (by omega), if_neg (by omega),
      if_neg (by omega), if_neg (by omega)]

/-- The four kinds of leading bytes. -/
theorem ofByte?_eq_some {b : UInt8} {lead : Lead} (h : Lead.ofByte? b = some lead) :
    b.toNat < 0x80 ∧ lead = { bits := b.toNat, owed := 0 } ∨
    (0xC2 ≤ b.toNat ∧ b.toNat < 0xE0) ∧ lead = { bits := b.toNat % 32, owed := 1 } ∨
    (0xE0 ≤ b.toNat ∧ b.toNat < 0xF0) ∧ lead =
      { bits := b.toNat % 16, owed := 2
        low := if b.toNat = 0xE0 then 0xA0 else 0x80, high := if b.toNat = 0xED then 0x9F else 0xBF } ∨
    (0xF0 ≤ b.toNat ∧ b.toNat ≤ 0xF4) ∧ lead =
      { bits := b.toNat % 8, owed := 3
        low := if b.toNat = 0xF0 then 0x90 else 0x80, high := if b.toNat = 0xF4 then 0x8F else 0xBF } := by
  have hlead : ¬(0x80 ≤ b.toNat ∧ b.toNat < 0xC2 ∨ 0xF4 < b.toNat) := by
    intro hnone
    rw [ofByte?_eq_none hnone] at h
    cases h
  by_cases h₁ : b.toNat < 0x80
  · rw [ofByte?_of_lt h₁, Option.some.injEq] at h
    exact Or.inl ⟨h₁, h.symm⟩
  by_cases h₂ : b.toNat < 0xE0
  · have hb : 0xC2 ≤ b.toNat := by omega
    rw [ofByte?_two hb h₂, Option.some.injEq] at h
    exact Or.inr (Or.inl ⟨⟨hb, h₂⟩, h.symm⟩)
  by_cases h₃ : b.toNat < 0xF0
  · have hb : 0xE0 ≤ b.toNat := by omega
    rw [ofByte?_three hb h₃, Option.some.injEq] at h
    exact Or.inr (Or.inr (Or.inl ⟨⟨hb, h₃⟩, h.symm⟩))
  · have hb : 0xF0 ≤ b.toNat := by omega
    have hb' : b.toNat ≤ 0xF4 := by omega
    rw [ofByte?_four hb hb', Option.some.injEq] at h
    exact Or.inr (Or.inr (Or.inr ⟨⟨hb, hb'⟩, h.symm⟩))

/-! ### Continuation bytes -/

/-- Continuation bytes, the first of them from `low` to `high`. -/
def Continues : UInt8 → UInt8 → List UInt8 → Prop
  | _, _, [] => True
  | low, high, b :: bytes => low ≤ b ∧ b ≤ high ∧ Continues 0x80 0xBF bytes

theorem continuation_append {low high : UInt8} {cont : List UInt8} (h : Continues low high cont) (bytes : List UInt8) :
    continuation low high cont.length (cont ++ bytes) = cont := by
  induction cont generalizing low high with
  | nil =>
    cases bytes <;> rfl
  | cons b cont ih =>
    obtain ⟨hlow, hhigh, hcont⟩ := h
    show (if low ≤ b ∧ b ≤ high then b :: continuation 0x80 0xBF cont.length (cont ++ bytes) else []) = b :: cont
    rw [if_pos ⟨hlow, hhigh⟩, ih hcont]

/-- A leading byte with the continuation bytes that it calls for is a piece, whatever follows. -/
theorem piece_of_continues {b : UInt8} {lead : Lead} {cont : List UInt8} (hl : Lead.ofByte? b = some lead)
    (hc : Continues lead.low lead.high cont) (hlen : cont.length = lead.owed) (bytes : List UInt8) :
    piece b (cont ++ bytes) = ⟨b :: cont, some (Char.ofNat (codePoint lead.bits cont))⟩ := by
  have ht : tail b (cont ++ bytes) = cont := by
    rw [tail, hl]
    show continuation lead.low lead.high lead.owed (cont ++ bytes) = cont
    rw [← hlen, continuation_append hc]
  rw [piece, ht, decode?, hl]
  simp only [hlen, if_true]

/-! ### The encoding of a character -/

private theorem toNat_ofNat_of_lt {n : Nat} (h : n < 256) : (UInt8.ofNat n).toNat = n := by
  rw [UInt8.toNat_ofNat']
  exact Nat.mod_eq_of_lt h

private theorem continues_cons {low high : UInt8} {n : Nat} {cont : List UInt8} (hn : n < 256) (hl : low.toNat ≤ n)
    (hh : n ≤ high.toNat) (hc : Continues 0x80 0xBF cont) : Continues low high (UInt8.ofNat n :: cont) := by
  refine ⟨?_, ?_, hc⟩
  · rw [UInt8.le_iff_toNat_le, toNat_ofNat_of_lt hn]
    exact hl
  · rw [UInt8.le_iff_toNat_le, toNat_ofNat_of_lt hn]
    exact hh

private theorem continues_mod (n : Nat) {cont : List UInt8} (hc : Continues 0x80 0xBF cont) :
    Continues 0x80 0xBF (UInt8.ofNat (n % 64 + 128) :: cont) :=
  continues_cons (by omega) (Nat.le_add_left _ _) (by show _ ≤ 191; omega) hc

/-- A leading byte with the continuation bytes that it calls for, and their bits make up the code point. -/
def Encodes (bytes : List UInt8) (code : Nat) : Prop :=
  ∃ b lead cont, bytes = b :: cont ∧ Lead.ofByte? b = some lead ∧ Continues lead.low lead.high cont ∧
    cont.length = lead.owed ∧ codePoint lead.bits cont = code

private theorem encodes_one {v : Nat} (h : v ≤ 0x7F) : Encodes [UInt8.ofNat v] v := by
  have hb : (UInt8.ofNat v).toNat = v := toNat_ofNat_of_lt (by omega)
  refine ⟨_, _, _, rfl, ofByte?_of_lt (by omega), trivial, rfl, ?_⟩
  exact hb

private theorem encodes_two {v : Nat} (h : 0x7F < v) (h' : v ≤ 0x7FF) :
    Encodes [UInt8.ofNat (v / 64 % 32 + 192), UInt8.ofNat (v % 64 + 128)] v := by
  have hb : (UInt8.ofNat (v / 64 % 32 + 192)).toNat = v / 64 % 32 + 192 := toNat_ofNat_of_lt (by omega)
  have h₀ : (UInt8.ofNat (v % 64 + 128)).toNat = v % 64 + 128 := toNat_ofNat_of_lt (by omega)
  refine ⟨_, _, _, rfl, ofByte?_two (by omega) (by omega), continues_mod v trivial, rfl, ?_⟩
  simp only [codePoint, List.foldl_cons, List.foldl_nil, hb, h₀]
  omega

private theorem encodes_three {v : Nat} (h : 0x7FF < v) (h' : v ≤ 0xFFFF) (hs : v < 0xD800 ∨ 0xDFFF < v) :
    Encodes [UInt8.ofNat (v / 4096 % 16 + 224), UInt8.ofNat (v / 64 % 64 + 128), UInt8.ofNat (v % 64 + 128)] v := by
  have hb : (UInt8.ofNat (v / 4096 % 16 + 224)).toNat = v / 4096 % 16 + 224 := toNat_ofNat_of_lt (by omega)
  have h₆ : (UInt8.ofNat (v / 64 % 64 + 128)).toNat = v / 64 % 64 + 128 := toNat_ofNat_of_lt (by omega)
  have h₀ : (UInt8.ofNat (v % 64 + 128)).toNat = v % 64 + 128 := toNat_ofNat_of_lt (by omega)
  refine ⟨_, _, _, rfl, ofByte?_three (by omega) (by omega), ?_, rfl, ?_⟩
  · refine continues_cons (by omega) ?_ ?_ (continues_mod v trivial)
    · dsimp only
      split
      · show 160 ≤ _
        omega
      · show 128 ≤ _
        omega
    · -- after 0xED come the surrogates, which are no characters
      dsimp only
      split
      · show _ ≤ 159
        omega
      · show _ ≤ 191
        omega
  · simp only [codePoint, List.foldl_cons, List.foldl_nil, hb, h₀, h₆]
    omega

private theorem encodes_four {v : Nat} (h : 0xFFFF < v) (h' : v < 0x110000) :
    Encodes [UInt8.ofNat (v / 262144 % 8 + 240), UInt8.ofNat (v / 4096 % 64 + 128), UInt8.ofNat (v / 64 % 64 + 128),
      UInt8.ofNat (v % 64 + 128)] v := by
  have hb : (UInt8.ofNat (v / 262144 % 8 + 240)).toNat = v / 262144 % 8 + 240 := toNat_ofNat_of_lt (by omega)
  have h₁₂ : (UInt8.ofNat (v / 4096 % 64 + 128)).toNat = v / 4096 % 64 + 128 := toNat_ofNat_of_lt (by omega)
  have h₆ : (UInt8.ofNat (v / 64 % 64 + 128)).toNat = v / 64 % 64 + 128 := toNat_ofNat_of_lt (by omega)
  have h₀ : (UInt8.ofNat (v % 64 + 128)).toNat = v % 64 + 128 := toNat_ofNat_of_lt (by omega)
  refine ⟨_, _, _, rfl, ofByte?_four (by omega) (by omega), ?_, rfl, ?_⟩
  · refine continues_cons (by omega) ?_ ?_ (continues_mod _ (continues_mod v trivial))
    · dsimp only
      split
      · show 144 ≤ _
        omega
      · show 128 ≤ _
        omega
    · -- U+10FFFF is the last character
      dsimp only
      split
      · show _ ≤ 143
        omega
      · show _ ≤ 191
        omega
  · simp only [codePoint, List.foldl_cons, List.foldl_nil, hb, h₀, h₆, h₁₂]
    omega

theorem encodes_encodeChar (ch : Char) : Encodes (String.utf8EncodeChar ch) ch.toNat := by
  have hvalid : ch.toNat < 0xD800 ∨ 0xDFFF < ch.toNat ∧ ch.toNat < 0x110000 := ch.valid
  unfold String.utf8EncodeChar
  dsimp only
  split
  · rename_i h₁
    exact encodes_one h₁
  · rename_i h₁
    split
    · rename_i h₂
      exact encodes_two (Nat.not_le.mp h₁) h₂
    · rename_i h₂
      split
      · rename_i h₃
        exact encodes_three (Nat.not_le.mp h₂) h₃ (hvalid.imp_right And.left)
      · rename_i h₃
        have hlast : ch.toNat < 0x110000 := by omega
        exact encodes_four (Nat.not_le.mp h₃) hlast

/-- The first piece of an encoded text is its first character, whatever follows. -/
theorem first?_encode_cons (ch : Char) (bytes : List UInt8) :
    first? (String.utf8EncodeChar ch ++ bytes) = some ⟨String.utf8EncodeChar ch, some ch⟩ := by
  obtain ⟨b, lead, cont, he, hl, hc, hlen, hcode⟩ := encodes_encodeChar ch
  rw [he, List.cons_append, first?_cons, piece_of_continues hl hc hlen, hcode, Char.ofNat_toNat]

/-! ### Offsets in an encoded text -/

/-- The number of bytes before a character in an encoded text. -/
def offset (text : List Char) (i : Nat) : Nat :=
  (encode (text.take i)).length

theorem encode_append (text text' : List Char) : encode (text ++ text') = encode text ++ encode text' :=
  List.flatMap_append

theorem drop_offset (text : List Char) (i : Nat) : (encode text).drop (offset text i) = encode (text.drop i) := by
  conv => lhs; rw [← List.take_append_drop i text, encode_append, List.take_append_drop]
  exact List.drop_left

/-- The first piece after an offset is the character there. -/
theorem first?_drop_offset (text : List Char) (i : Nat) :
    first? ((encode text).drop (offset text i)) = text[i]?.map fun ch => ⟨String.utf8EncodeChar ch, some ch⟩ := by
  rw [drop_offset]
  by_cases h : i < text.length
  · rw [List.drop_eq_getElem_cons h, List.getElem?_eq_getElem h]
    exact first?_encode_cons _ _
  · rw [List.drop_eq_nil_of_le (by omega), List.getElem?_eq_none (by omega)]
    rfl

theorem offset_succ {text : List Char} {i : Nat} {ch : Char} (h : text[i]? = some ch) :
    offset text (i + 1) = offset text i + (String.utf8EncodeChar ch).length := by
  rw [offset, List.take_add_one, h, encode_append, List.length_append]
  simp [encode, offset]

theorem offset_of_le {text : List Char} {i : Nat} (h : text.length ≤ i) : offset text i = (encode text).length := by
  rw [offset, List.take_of_length_le h]

theorem offset_le (text : List Char) (i : Nat) : offset text i ≤ (encode text).length := by
  conv => rhs; rw [← List.take_append_drop i text, encode_append, List.length_append]
  exact Nat.le_add_right _ _

end EndOfInput.Utf8
