import EndOfInput.Proofs.Utf8.Encoding

/-!
# Well-formed sequences and how they begin

A leading byte with the continuation bytes that it calls for is the encoding of a character
(`Utf8.encodeChar_codePoint`), so the encodings are the same as these sequences.  A part of such a sequence is a
leading byte with some of its continuation bytes (`Utf8.truncated_cons_iff`), and a piece takes as many of them as
there are (`Utf8.prefix_continuation`).
-/

namespace EndOfInput.Utf8

/-! ### Continuation bytes at the front of a byte string -/

theorem Lead.bounds {b : UInt8} {lead : Lead} (h : Lead.ofByte? b = some lead) :
    (0x80 ≤ lead.low ∧ lead.low ≤ lead.high ∧ lead.high ≤ 0xBF) ∧ lead.owed ≤ 3 := by
  rcases ofByte?_eq_some h with ⟨-, rfl⟩ | ⟨-, rfl⟩ | ⟨-, rfl⟩ | ⟨-, rfl⟩
  · dsimp only
    decide
  · dsimp only
    decide
  · refine ⟨?_, Nat.le_succ 2⟩
    dsimp only
    by_cases he : b.toNat = 0xE0
    · rw [if_pos he, if_neg (by omega)]
      decide
    · rw [if_neg he]
      split <;> decide
  · refine ⟨?_, Nat.le_refl 3⟩
    dsimp only
    by_cases he : b.toNat = 0xF0
    · rw [if_pos he, if_neg (by omega)]
      decide
    · rw [if_neg he]
      split <;> decide

theorem Continues.of_prefix {low high : UInt8} {cont cont' : List UInt8} (h : Continues low high cont)
    (hp : cont' <+: cont) : Continues low high cont' := by
  induction cont' generalizing low high cont with
  | nil => trivial
  | cons b cont' ih =>
    obtain ⟨more, rfl⟩ := hp
    obtain ⟨hlow, hhigh, hcont⟩ := h
    exact ⟨hlow, hhigh, ih hcont (List.prefix_append _ _)⟩

/-- Continuation bytes can be completed to as many as are owed. -/
theorem Continues.exists_append {low high : UInt8} {n : Nat} {cont : List UInt8} (h : Continues low high cont)
    (hle : low ≤ high) (hn : cont.length ≤ n) :
    ∃ more, Continues low high (cont ++ more) ∧ (cont ++ more).length = n := by
  induction n generalizing low high cont with
  | zero =>
    obtain rfl := List.length_eq_zero_iff.mp (Nat.le_zero.mp hn)
    exact ⟨[], trivial, rfl⟩
  | succ n ih =>
    cases cont with
    | nil =>
      have hnil : Continues 0x80 0xBF [] := trivial
      obtain ⟨more, hmore, hlen⟩ := ih hnil (by decide) (Nat.zero_le n)
      exact ⟨low :: more, ⟨UInt8.le_refl low, hle, hmore⟩, congrArg (· + 1) hlen⟩
    | cons b cont =>
      obtain ⟨hlow, hhigh, hcont⟩ := h
      obtain ⟨more, hmore, hlen⟩ := ih hcont (by decide) (Nat.le_of_succ_le_succ hn)
      exact ⟨more, ⟨hlow, hhigh, hmore⟩, congrArg (· + 1) hlen⟩

theorem continues_continuation (low high : UInt8) (n : Nat) (bytes : List UInt8) :
    Continues low high (continuation low high n bytes) := by
  fun_induction continuation low high n bytes with
  | case1 low high n b bytes h ih => exact ⟨h.1, h.2, ih⟩
  | case2 => trivial
  | case3 => trivial

theorem length_continuation_le (low high : UInt8) (n : Nat) (bytes : List UInt8) :
    (continuation low high n bytes).length ≤ n := by
  fun_induction continuation low high n bytes with
  | case1 low high n b bytes h ih => exact Nat.succ_le_succ ih
  | case2 => exact Nat.zero_le _
  | case3 => exact Nat.zero_le _

/-- All continuation bytes at the front are taken, as long as no more are taken than are owed. -/
theorem prefix_continuation {low high : UInt8} {n : Nat} {cont bytes : List UInt8} (h : Continues low high cont)
    (hn : cont.length ≤ n) (hp : cont <+: bytes) : cont <+: continuation low high n bytes := by
  induction cont generalizing low high n bytes with
  | nil => exact List.nil_prefix
  | cons b cont ih =>
    obtain ⟨rest, rfl⟩ := hp
    obtain ⟨hlow, hhigh, hcont⟩ := h
    cases n with
    | zero => cases hn
    | succ n =>
      rw [List.cons_append, continuation, if_pos ⟨hlow, hhigh⟩, List.prefix_cons_inj]
      exact ih hcont (Nat.le_of_succ_le_succ hn) (List.prefix_append _ _)

theorem tail_of_ofByte? {b : UInt8} {lead : Lead} (h : Lead.ofByte? b = some lead) (bytes : List UInt8) :
    tail b bytes = continuation lead.low lead.high lead.owed bytes := by
  rw [tail, h]

theorem tail_of_ofByte?_eq_none {b : UInt8} (h : Lead.ofByte? b = none) (bytes : List UInt8) : tail b bytes = [] := by
  rw [tail, h]

/-! ### Every such sequence encodes a character -/

private theorem ofNat_of_eq_toNat {n : Nat} {b : UInt8} (h : n = b.toNat) : UInt8.ofNat n = b := by
  rw [h, UInt8.ofNat_toNat]

private theorem toNat_le_of_ite_le {p : Prop} [Decidable p] {low low' b : UInt8} (h : (if p then low else low') ≤ b) :
    p ∧ low.toNat ≤ b.toNat ∨ ¬p ∧ low'.toNat ≤ b.toNat := by
  split at h
  · exact Or.inl ⟨‹p›, h⟩
  · exact Or.inr ⟨‹¬p›, h⟩

private theorem toNat_le_of_le_ite {p : Prop} [Decidable p] {high high' b : UInt8}
    (h : b ≤ if p then high else high') : p ∧ b.toNat ≤ high.toNat ∨ ¬p ∧ b.toNat ≤ high'.toNat := by
  split at h
  · exact Or.inl ⟨‹p›, h⟩
  · exact Or.inr ⟨‹¬p›, h⟩

private theorem encodeChar_one {b : UInt8} (h : b.toNat < 0x80) :
    String.utf8EncodeChar (Char.ofNat (codePoint b.toNat [])) = [b] := by
  have hv : (Char.ofNat b.toNat).val.toNat = b.toNat := toNat_ofNat (Or.inl (by omega))
  show String.utf8EncodeChar (Char.ofNat b.toNat) = [b]
  unfold String.utf8EncodeChar
  dsimp only
  rw [hv, if_pos (by omega), UInt8.ofNat_toNat]

private theorem encodeChar_two {b c : UInt8} (hb : 0xC2 ≤ b.toNat) (hb' : b.toNat < 0xE0)
    (h : Continues 0x80 0xBF [c]) :
    String.utf8EncodeChar (Char.ofNat (codePoint (b.toNat % 32) [c])) = [b, c] := by
  obtain ⟨hc, hc', -⟩ := h
  replace hc : 128 ≤ c.toNat := hc
  replace hc' : c.toNat ≤ 191 := hc'
  obtain ⟨v, hv⟩ : ∃ v, v = b.toNat % 32 * 64 + c.toNat % 64 := ⟨_, rfl⟩
  have hval : (Char.ofNat v).val.toNat = v := toNat_ofNat (Or.inl (by omega))
  show String.utf8EncodeChar (Char.ofNat (b.toNat % 32 * 64 + c.toNat % 64)) = [b, c]
  unfold String.utf8EncodeChar
  dsimp only
  rw [← hv, hval, if_neg (by omega), if_pos (by omega), ofNat_of_eq_toNat (b := b) (by omega),
    ofNat_of_eq_toNat (b := c) (by omega)]

private theorem encodeChar_three {b c d : UInt8} (hb : 0xE0 ≤ b.toNat) (hb' : b.toNat < 0xF0)
    (h : Continues (if b.toNat = 0xE0 then 0xA0 else 0x80) (if b.toNat = 0xED then 0x9F else 0xBF) [c, d]) :
    String.utf8EncodeChar (Char.ofNat (codePoint (b.toNat % 16) [c, d])) = [b, c, d] := by
  obtain ⟨hc, hc', hd, hd', -⟩ := h
  replace hc : b.toNat = 0xE0 ∧ 160 ≤ c.toNat ∨ ¬b.toNat = 0xE0 ∧ 128 ≤ c.toNat := toNat_le_of_ite_le hc
  replace hc' : b.toNat = 0xED ∧ c.toNat ≤ 159 ∨ ¬b.toNat = 0xED ∧ c.toNat ≤ 191 := toNat_le_of_le_ite hc'
  replace hd : 128 ≤ d.toNat := hd
  replace hd' : d.toNat ≤ 191 := hd'
  obtain ⟨v, hv⟩ : ∃ v, v = (b.toNat % 16 * 64 + c.toNat % 64) * 64 + d.toNat % 64 := ⟨_, rfl⟩
  have hval : (Char.ofNat v).val.toNat = v := by
    -- after 0xED there is no surrogate
    apply toNat_ofNat
    show v < 0xD800 ∨ 0xDFFF < v ∧ v < 0x110000
    omega
  show String.utf8EncodeChar (Char.ofNat ((b.toNat % 16 * 64 + c.toNat % 64) * 64 + d.toNat % 64)) = [b, c, d]
  unfold String.utf8EncodeChar
  dsimp only
  rw [← hv, hval, if_neg (by omega), if_neg (by omega), if_pos (by omega), ofNat_of_eq_toNat (b := b) (by omega),
    ofNat_of_eq_toNat (b := c) (by omega), ofNat_of_eq_toNat (b := d) (by omega)]

private theorem encodeChar_four {b c d e : UInt8} (hb : 0xF0 ≤ b.toNat) (hb' : b.toNat ≤ 0xF4)
    (h : Continues (if b.toNat = 0xF0 then 0x90 else 0x80) (if b.toNat = 0xF4 then 0x8F else 0xBF) [c, d, e]) :
    String.utf8EncodeChar (Char.ofNat (codePoint (b.toNat % 8) [c, d, e])) = [b, c, d, e] := by
  obtain ⟨hc, hc', hd, hd', he, he', -⟩ := h
  replace hc : b.toNat = 0xF0 ∧ 144 ≤ c.toNat ∨ ¬b.toNat = 0xF0 ∧ 128 ≤ c.toNat := toNat_le_of_ite_le hc
  replace hc' : b.toNat = 0xF4 ∧ c.toNat ≤ 143 ∨ ¬b.toNat = 0xF4 ∧ c.toNat ≤ 191 := toNat_le_of_le_ite hc'
  replace hd : 128 ≤ d.toNat := hd
  replace hd' : d.toNat ≤ 191 := hd'
  replace he : 128 ≤ e.toNat := he
  replace he' : e.toNat ≤ 191 := he'
  obtain ⟨v, hv⟩ : ∃ v, v = ((b.toNat % 8 * 64 + c.toNat % 64) * 64 + d.toNat % 64) * 64 + e.toNat % 64 := ⟨_, rfl⟩
  have hval : (Char.ofNat v).val.toNat = v := by
    apply toNat_ofNat
    show v < 0xD800 ∨ 0xDFFF < v ∧ v < 0x110000
    omega
  show String.utf8EncodeChar
    (Char.ofNat (((b.toNat % 8 * 64 + c.toNat % 64) * 64 + d.toNat % 64) * 64 + e.toNat % 64)) = [b, c, d, e]
  unfold String.utf8EncodeChar
  dsimp only
  rw [← hv, hval, if_neg (by omega), if_neg (by omega), if_neg (by omega), ofNat_of_eq_toNat (b := b) (by omega),
    ofNat_of_eq_toNat (b := c) (by omega), ofNat_of_eq_toNat (b := d) (by omega),
    ofNat_of_eq_toNat (b := e) (by omega)]

/-- A leading byte with the continuation bytes that it calls for encodes the character that their bits make up. -/
theorem encodeChar_codePoint {b : UInt8} {lead : Lead} {cont : List UInt8} (hl : Lead.ofByte? b = some lead)
    (hc : Continues lead.low lead.high cont) (hlen : cont.length = lead.owed) :
    String.utf8EncodeChar (Char.ofNat (codePoint lead.bits cont)) = b :: cont := by
  rcases ofByte?_eq_some hl with ⟨hb, rfl⟩ | ⟨hb, rfl⟩ | ⟨hb, rfl⟩ | ⟨hb, rfl⟩
  · obtain rfl := List.length_eq_zero_iff.mp hlen
    exact encodeChar_one hb
  · obtain ⟨c, rfl⟩ := List.length_eq_one_iff.mp hlen
    exact encodeChar_two hb.1 hb.2 hc
  · obtain ⟨c, d, rfl⟩ : ∃ c d, cont = [c, d] := by
      match cont, hlen with
      | [c, d], _ => exact ⟨c, d, rfl⟩
    exact encodeChar_three hb.1 hb.2 hc
  · obtain ⟨c, d, e, rfl⟩ : ∃ c d e, cont = [c, d, e] := by
      match cont, hlen with
      | [c, d, e], _ => exact ⟨c, d, e, rfl⟩
    exact encodeChar_four hb.1 hb.2 hc

/-! ### How a sequence begins -/

/-- Some character's encoding begins with the bytes, and goes on. -/
def Truncated (bytes : List UInt8) : Prop :=
  ∃ ch, bytes <+: String.utf8EncodeChar ch ∧ bytes ≠ String.utf8EncodeChar ch

/-- What a character's encoding can begin with, short of all of it: a leading byte and fewer continuation bytes than
it calls for. -/
theorem truncated_cons_iff {b : UInt8} {cont : List UInt8} :
    Truncated (b :: cont) ↔
      ∃ lead, Lead.ofByte? b = some lead ∧ Continues lead.low lead.high cont ∧ cont.length < lead.owed := by
  constructor
  · rintro ⟨ch, hp, hne⟩
    obtain ⟨b', lead, cont', he, hl, hc, hlen, -⟩ := encodes_encodeChar ch
    rw [he] at hp hne
    obtain ⟨rfl, hcont⟩ := List.cons_prefix_cons.mp hp
    refine ⟨lead, hl, hc.of_prefix hcont, ?_⟩
    rw [← hlen]
    apply Nat.lt_of_le_of_ne hcont.length_le
    intro h
    exact hne (congrArg (b :: ·) (hcont.eq_of_length h))
  · rintro ⟨lead, hl, hc, hlt⟩
    obtain ⟨more, hmore, hlen⟩ := hc.exists_append (Lead.bounds hl).1.2.1 (Nat.le_of_lt hlt)
    refine ⟨Char.ofNat (codePoint lead.bits (cont ++ more)), ?_, ?_⟩
    · rw [encodeChar_codePoint hl hmore hlen, ← List.cons_append]
      exact List.prefix_append _ _
    · rw [encodeChar_codePoint hl hmore hlen]
      intro h
      have := congrArg List.length h
      rw [List.length_cons, List.length_cons] at this
      omega

/-- No encoding begins with another. -/
theorem eq_of_prefix_encodeChar {bytes : List UInt8} {ch ch' : Char} (h : String.utf8EncodeChar ch <+: bytes)
    (h' : String.utf8EncodeChar ch' <+: bytes) : ch = ch' := by
  obtain ⟨rest, rfl⟩ := h
  obtain ⟨rest', hrest⟩ := h'
  have hfirst := first?_encode_cons ch' rest'
  rw [hrest, first?_encode_cons, Option.some.injEq, Piece.mk.injEq, Option.some.injEq] at hfirst
  exact hfirst.2

end EndOfInput.Utf8
