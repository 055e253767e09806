import EndOfInput.Proofs.Restore

/-!
# The format of a record

The records that are accepted are the empty one and those of the states, each of which has one record.  All others are
refused, for a reason that the record alone determines (`State.Refused`).

* (reading) `State.decode_eq_error_iff`: what is refused, and why: first the length counts, then the version, and then
  the reserved bits;
* (writing) `State.drop_bufferAfter`, `State.length_bufferAfter`: an attempt to write leaves all but the first byte of a
  buffer as it was, also if it fails;
* (both) `State.decode_iff_encode`.
-/

namespace EndOfInput.State

/-- Why a record is refused. -/
inductive Refused : List UInt8 → RecordError → Prop where
  | long {record : List UInt8} (h : 2 ≤ record.length) : Refused record (.size ⟨1, record.length⟩)
  /-- The reserved bits are not looked at, as another version may use them. -/
  | version {b : UInt8} (h : b >>> 4 ≠ 1) : Refused [b] (.unsupportedVersion (b >>> 4))
  | reserved {b : UInt8} (hv : b >>> 4 = 1) (hr : b &&& 0x0E ≠ 0) : Refused [b] (.reservedBits (b &&& 0x0E))

/-- The buffer after an attempt to write a record to its front. -/
def bufferAfter (s : State) (buffer : List UInt8) : List UInt8 :=
  match s.writeTo buffer with
  | .ok filled => filled.buffer
  | .error _ => buffer

/-! ### Reading -/

theorem encode_ne_nil (s : State) : s.encode ≠ [] :=
  List.cons_ne_nil _ _

/-- Two states with the same record read back as one. -/
theorem encode_injective : Function.Injective encode := by
  intro s t h
  have hdecode : decode s.encode = decode t.encode := congrArg decode h
  rw [decode_encode, decode_encode] at hdecode
  exact Except.ok.inj hdecode

/-- Of the accepted records only the empty one is not the record of the state that it is read as. -/
theorem encode_of_decode {record : List UInt8} {s : State} (hne : record ≠ []) (h : decode record = .ok s) :
    s.encode = record := by
  rcases decode_eq_ok_iff.mp h with ⟨hnil, -⟩ | hrecord
  · exact absurd hnil hne
  · exact hrecord.symm

theorem Refused.of_decode {record : List UInt8} {error : RecordError} (h : decode record = .error error) :
    Refused record error := by
  match record with
  | [] => cases h
  | [b] =>
    rw [decode] at h
    split at h
    · rename_i hv
      cases h
      exact .version hv
    · rename_i hv
      split at h
      · rename_i hr
        cases h
        exact .reserved (Decidable.not_not.mp hv) hr
      · cases h
  | _ :: _ :: record =>
    cases h
    exact .long (Nat.le_add_left 2 record.length)

theorem Refused.decode_eq {record : List UInt8} {error : RecordError} (h : Refused record error) :
    decode record = .error error := by
  cases h with
  | long h =>
    match record with
    | [] => simp at h
    | [b] => simp at h
    | _ :: _ :: _ => rfl
  | version h => exact if_pos h
  | @reserved b hv hr =>
    have hversion : ¬b >>> 4 ≠ formatVersion := not_not_intro hv
    exact (if_neg hversion).trans (if_pos hr)

/-- A record is refused for one reason, and only if there is one. -/
theorem decode_eq_error_iff {record : List UInt8} {error : RecordError} :
    decode record = .error error ↔ Refused record error :=
  ⟨.of_decode, Refused.decode_eq⟩

/-- What is neither empty nor the record of a state is refused. -/
theorem exists_refused {record : List UInt8} (hne : record ≠ []) (hr : ∀ s : State, record ≠ s.encode) :
    ∃ error, Refused record error := by
  cases h : decode record with
  | error error => exact ⟨error, .of_decode h⟩
  | ok s => exact absurd (encode_of_decode hne h).symm (hr s)

/-- The three accepted records, by their bytes. -/
theorem exists_decode_eq_error_iff {record : List UInt8} :
    (∃ error, decode record = .error error) ↔ record ≠ [] ∧ record ≠ [0x10] ∧ record ≠ [0x11] := by
  constructor
  · rintro ⟨error, h⟩
    refine ⟨?_, ?_, ?_⟩ <;> rintro rfl <;> cases h
  · rintro ⟨hnil, hclear, hmarked⟩
    obtain ⟨error, h⟩ := exists_refused hnil fun s => by
      rw [encode_eq]
      split <;> assumption
    exact ⟨error, h.decode_eq⟩

/-! ### Writing -/

theorem bufferAfter_cons (s : State) (b : UInt8) (rest : List UInt8) :
    s.bufferAfter (b :: rest) = s.toByte :: rest := by
  rw [bufferAfter, writeTo_cons]
  rfl

theorem length_bufferAfter (s : State) (buffer : List UInt8) : (s.bufferAfter buffer).length = buffer.length := by
  cases buffer with
  | nil => rfl
  | cons b rest => rw [bufferAfter_cons, List.length_cons, List.length_cons]

theorem drop_bufferAfter (s : State) (buffer : List UInt8) : (s.bufferAfter buffer).drop 1 = buffer.drop 1 := by
  cases buffer with
  | nil => rfl
  | cons b rest => rw [bufferAfter_cons, List.drop_one, List.drop_one, List.tail_cons, List.tail_cons]

/-! ### The law -/

/-- The format is exact and canonical.  A record is accepted and read as a state if it is empty and the state is the
initial one, or if it is the record of the state.  So no two states share a record, a state is read back from its
record, and a record that is accepted and not empty is written back from its state.  Every other record is refused, for
the one reason that applies to it.  A state cannot be written to an empty buffer; to any other it is written as one
byte, from which it is read back; and no buffer changes beyond its first byte. -/
theorem decode_iff_encode :
    (∀ record s, decode record = .ok s ↔ record = [] ∧ s = {} ∨ record = s.encode) ∧
    Function.Injective encode ∧
    (∀ s, decode s.encode = .ok s) ∧
    (∀ record s, record ≠ [] → decode record = .ok s → s.encode = record) ∧
    (∀ record, record ≠ [] → (∀ s : State, record ≠ s.encode) → ∃ error, decode record = .error error) ∧
    (∀ record error, decode record = .error error ↔ Refused record error) ∧
    (∀ s : State, s.writeTo [] = .error ⟨1, 0⟩) ∧
    (∀ (s : State) (b : UInt8) (rest : List UInt8), ∃ filled, s.writeTo (b :: rest) = .ok filled ∧
      filled.count = 1 ∧ filled.buffer = s.toByte :: rest ∧
      decode (filled.buffer.take filled.count) = .ok s) ∧
    ∀ (s : State) (buffer : List UInt8),
      (s.bufferAfter buffer).length = buffer.length ∧ (s.bufferAfter buffer).drop 1 = buffer.drop 1 := by
  refine ⟨fun record s => decode_eq_ok_iff, encode_injective, decode_encode, fun record s => encode_of_decode, ?_,
    fun record error => decode_eq_error_iff, writeTo_nil, ?_, ?_⟩
  · intro record hne hr
    obtain ⟨error, h⟩ := exists_refused hne hr
    exact ⟨error, h.decode_eq⟩
  · intro s b rest
    refine ⟨_, writeTo_cons s b rest, rfl, rfl, ?_⟩
    -- the first byte of the buffer is the whole record
    exact decode_encode s
  · intro s buffer
    exact ⟨length_bufferAfter s buffer, drop_bufferAfter s buffer⟩

/-- The record of the set marker, and one of another version that also has reserved bits set. -/
theorem refused_among_accepted :
    [0x11] ≠ [] ∧ decode [0x11] = .ok { marked := true } ∧ encode { marked := true } = [0x11] ∧
      [0x2F] ≠ [] ∧ (∀ s : State, [0x2F] ≠ s.encode) ∧ (∃ error, decode [0x2F] = .error error) ∧
      decode [0x2F] = .error (.unsupportedVersion 2) := by
  have hne : ∀ s : State, [0x2F] ≠ s.encode := by
    rintro ⟨_ | _⟩ <;> decide
  obtain ⟨-, -, -, hwritten, hrefused, hreason, -⟩ := decode_iff_encode
  exact ⟨by decide, rfl, hwritten [0x11] _ (by decide) rfl, by decide, hne, hrefused [0x2F] (by decide) hne,
    (hreason _ _).mpr (.version (by decide))⟩

end EndOfInput.State
