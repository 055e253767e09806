import EndOfInput.Event
import Mathlib.Data.List.Infix

/-!
# The lines of a log tell its events

Different events have different lines (`Event.line_injective`), so a log can be read back from its lines
(`Log.lines_injective`).

* (the fixed part) `PrefixFree.append_inj`: where no opening of a text begins with another, the opening and what comes
  after it can be told apart, and the opening tells the sort of an event or of an error;
* (numbers) `toDigits_append_inj`: a number ends where its digits end;
* (bytes) `byteListText_append_inj`: the bytes of a record stand between commas and end at the closing bracket.
-/

namespace EndOfInput

/-! ### Openings -/

/-- No text of a list begins with another. -/
def PrefixFree (openings : List String) : Prop :=
  ∀ a ∈ openings, ∀ b ∈ openings, a.toList <+: b.toList → a = b

instance (openings : List String) : Decidable (PrefixFree openings) :=
  inferInstanceAs (Decidable (∀ a ∈ openings, ∀ b ∈ openings, a.toList <+: b.toList → a = b))

theorem PrefixFree.append_inj {openings : List String} (hfree : PrefixFree openings) {a b v w : String}
    (ha : a ∈ openings) (hb : b ∈ openings) (h : a ++ v = b ++ w) : a = b ∧ v = w := by
  have hchars : a.toList ++ v.toList = b.toList ++ w.toList := by
    rw [← String.toList_append, ← String.toList_append, h]
  have hab : a = b := by
    rcases List.prefix_or_prefix_of_prefix ⟨v.toList, rfl⟩ ⟨w.toList, hchars.symm⟩ with hp | hp
    · exact hfree a ha b hb hp
    · exact (hfree b hb a ha hp).symm
  subst hab
  exact ⟨rfl, (String.append_right_inj a).mp h⟩

/-! ### Numbers -/

/-- A number and what follows it, which does not begin with a digit, can be told apart. -/
theorem toDigits_append_inj {m n : Nat} {rest rest' : List Char} (hrest : ∀ c ∈ rest.head?, c.isDigit = false)
    (hrest' : ∀ c ∈ rest'.head?, c.isDigit = false) (h : Nat.toDigits 10 m ++ rest = Nat.toDigits 10 n ++ rest') :
    m = n ∧ rest = rest' := by
  have stop : ∀ (k : Nat) (tail : List Char), (∀ c ∈ tail.head?, c.isDigit = false) →
      (Nat.toDigits 10 k ++ tail).takeWhile Char.isDigit = Nat.toDigits 10 k := by
    intro k tail htail
    have hdigits : ∀ c ∈ Nat.toDigits 10 k, c.isDigit = true := fun c hc =>
      Nat.isDigit_of_mem_toDigits (by decide) (by decide) hc
    rw [List.takeWhile_append_of_pos hdigits]
    cases tail with
    | nil => simp
    | cons c tail => simp [htail c rfl]
  have hdigits : Nat.toDigits 10 m = Nat.toDigits 10 n := by
    rw [← stop m rest hrest, h, stop n rest' hrest']
  constructor
  · have hvalue := congrArg (fun digits => Nat.ofDigitChars 10 digits 0) hdigits
    simpa using hvalue
  · rw [hdigits] at h
    exact List.append_cancel_left h

theorem toString_injective : Function.Injective fun n : Nat => toString n := by
  intro m n h
  have hdigits : Nat.toDigits 10 m = Nat.toDigits 10 n := by simpa using congrArg String.toList h
  have happend : Nat.toDigits 10 m ++ [] = Nat.toDigits 10 n ++ [] := by rw [hdigits]
  exact (toDigits_append_inj (by simp) (by simp) happend).1

theorem hexDigits_injective : Function.Injective hexDigits := by
  have hdigit : ∀ m < 16, ∀ n < 16, Nat.digitChar m = Nat.digitChar n → m = n := by decide
  intro a b h
  obtain ⟨hhigh, hlow⟩ := List.cons.inj h
  have ha := a.toNat_lt
  have hb := b.toNat_lt
  have hdiv := hdigit _ (by omega) _ (by omega) hhigh
  have hmod := hdigit _ (by omega) _ (by omega) (List.head_eq_of_cons_eq hlow)
  apply UInt8.toNat.inj
  omega

/-! ### The messages of errors -/

theorem SizeError.message_injective : Function.Injective SizeError.message := by
  intro a b h
  have hchars := congrArg String.toList h
  unfold message at hchars
  simp only [String.toList_append, Nat.toString_eq_repr, Nat.toList_repr, List.append_assoc] at hchars
  -- the first number ends at the blank after it
  have hblank : ∀ tail : List Char, ∀ c ∈ (" bytes, got ".toList ++ tail).head?, c.isDigit = false := by simp
  obtain ⟨hexpected, hrest⟩ := toDigits_append_inj (hblank _) (hblank _) (List.append_cancel_left hchars)
  have hactual : a.actual = b.actual := by
    apply toString_injective
    apply String.toList_inj.mp
    simpa using List.append_cancel_left hrest
  obtain ⟨expected, actual⟩ := a
  obtain ⟨expected', actual'⟩ := b
  cases hexpected
  cases hactual
  rfl

namespace RecordError

/-- The fixed part of a message. -/
def opening : RecordError → String
  | .size _ => "size error: "
  | .unsupportedVersion _ => "unsupported state format version "
  | .reservedBits _ => "reserved state bits set: 0x"

/-- What a message says about the record. -/
def detail : RecordError → String
  | .size error => error.message
  | .unsupportedVersion version => toString version.toNat
  | .reservedBits bits => String.ofList (hexDigits bits)

def openings : List String :=
  ["size error: ", "unsupported state format version ", "reserved state bits set: 0x"]

theorem message_eq (error : RecordError) : error.message = error.opening ++ error.detail := by
  cases error <;> rfl

theorem opening_mem (error : RecordError) : error.opening ∈ openings := by
  cases error <;> simp [opening, openings]

theorem eq_of_opening_of_detail {a b : RecordError} (ho : a.opening = b.opening) (hd : a.detail = b.detail) :
    a = b := by
  cases a with
  | size error =>
    cases b with
    | size error' => rw [SizeError.message_injective hd]
    | _ => simp [opening] at ho
  | unsupportedVersion version =>
    cases b with
    | unsupportedVersion version' => rw [UInt8.toNat.inj (toString_injective hd)]
    | _ => simp [opening] at ho
  | reservedBits bits =>
    cases b with
    | reservedBits bits' => rw [hexDigits_injective (String.ofList_injective hd)]
    | _ => simp [opening] at ho

theorem message_injective : Function.Injective message := by
  have hfree : PrefixFree openings := by decide
  intro a b h
  rw [message_eq, message_eq] at h
  obtain ⟨ho, hd⟩ := hfree.append_inj a.opening_mem b.opening_mem h
  exact eq_of_opening_of_detail ho hd

end RecordError

/-! ### Lists of bytes -/

/-- The bytes after the first one, as they stand in a list, and the end of the list. -/
private def further (bytes : List UInt8) (rest : List Char) : List Char :=
  (bytes.flatMap fun b => ',' :: ' ' :: Nat.toDigits 10 b.toNat) ++ ']' :: rest

private theorem further_cons (b : UInt8) (bytes : List UInt8) (rest : List Char) :
    further (b :: bytes) rest = ',' :: ' ' :: (Nat.toDigits 10 b.toNat ++ further bytes rest) := by
  simp [further]

private theorem toList_nil_append (v : String) : (byteListText [] ++ v).toList = '[' :: ']' :: v.toList := by
  simp [byteListText]

private theorem toList_cons_append (b : UInt8) (bytes : List UInt8) (v : String) :
    (byteListText (b :: bytes) ++ v).toList = '[' :: (Nat.toDigits 10 b.toNat ++ further bytes v.toList) := by
  induction bytes generalizing b with
  | nil => simp [byteListText, further]
  | cons c bytes ih =>
    have hc := ih c
    simp only [byteListText, List.map_cons, String.toList_append, String.intercalate_cons_cons] at hc ⊢
    simpa [further] using hc

/-- After a byte of a list comes a comma or the closing bracket. -/
private theorem head?_further (bytes : List UInt8) (rest : List Char) :
    ∀ c ∈ (further bytes rest).head?, c.isDigit = false := by
  cases bytes with
  | nil => simp [further]
  | cons b bytes => simp [further_cons]

private theorem further_inj {as bs : List UInt8} {rest rest' : List Char}
    (h : further as rest = further bs rest') : as = bs ∧ rest = rest' := by
  induction as generalizing bs with
  | nil =>
    cases bs with
    | nil => simpa [further] using h
    | cons b bs => simp [further] at h
  | cons a as ih =>
    cases bs with
    | nil => simp [further] at h
    | cons b bs =>
      simp only [further_cons, List.cons.injEq, true_and] at h
      obtain ⟨hab, htail⟩ := toDigits_append_inj (head?_further as rest) (head?_further bs rest') h
      obtain ⟨has, hrest⟩ := ih htail
      rw [UInt8.toNat.inj hab, has]
      exact ⟨rfl, hrest⟩

/-- No number begins with a bracket. -/
private theorem bracket_ne_toDigits (n : Nat) (rest rest' : List Char) : ']' :: rest ≠ Nat.toDigits 10 n ++ rest' := by
  intro h
  cases hd : Nat.toDigits 10 n with
  | nil => exact Nat.toDigits_ne_nil hd
  | cons c digits =>
    rw [hd, List.cons_append, List.cons.injEq] at h
    have hc : c.isDigit = true := by
      apply Nat.isDigit_of_mem_toDigits (b := 10) (by decide) (by decide)
      rw [hd]
      exact List.mem_cons_self
    rw [← h.1] at hc
    exact absurd hc (by decide)

/-- A list of bytes and what follows it can be told apart. -/
theorem byteListText_append_inj {as bs : List UInt8} {v w : String}
    (h : byteListText as ++ v = byteListText bs ++ w) : as = bs ∧ v = w := by
  have hchars := congrArg String.toList h
  cases as with
  | nil =>
    cases bs with
    | nil => exact ⟨rfl, (String.append_right_inj _).mp h⟩
    | cons b bs =>
      rw [toList_nil_append, toList_cons_append] at hchars
      exact absurd (List.cons.inj hchars).2 (bracket_ne_toDigits _ _ _)
  | cons a as =>
    cases bs with
    | nil =>
      rw [toList_nil_append, toList_cons_append] at hchars
      exact absurd (List.cons.inj hchars).2.symm (bracket_ne_toDigits _ _ _)
    | cons b bs =>
      rw [toList_cons_append, toList_cons_append] at hchars
      have htail := (List.cons.inj hchars).2
      obtain ⟨hab, hfurther⟩ := toDigits_append_inj (head?_further as _) (head?_further bs _) htail
      obtain ⟨has, hrest⟩ := further_inj hfurther
      exact ⟨by rw [UInt8.toNat.inj hab, has], String.toList_inj.mp hrest⟩

/-! ### The lines of events -/

namespace Event

/-- The fixed part of a line. -/
def opening : Event → String
  | .reading _ => "TRACE span deserialize bytes="
  | .refused _ => "DEBUG refusing scanner state record err="
  | .unfit _ => "DEBUG scanner state did not fit err="
  | .continued => "TRACE input continues past emitted eof_tok, clearing marker"
  | .repeated => "TRACE eof_tok already emitted at this boundary"
  | .unacceptable => "TRACE eof_tok not acceptable here"
  | .emitted => "TRACE emitting eof_tok"
  | .noScanner => "DEBUG destroy called without a scanner"

/-- The values in a line. -/
def detail : Event → String
  | .reading record => byteListText record ++ (" len=" ++ toString record.length)
  | .refused error => error.message
  | .unfit error => error.message
  | _ => ""

def openings : List String :=
  [opening (.reading []), opening (.refused (.unsupportedVersion 0)), opening (.unfit ⟨0, 0⟩), opening .continued,
    opening .repeated, opening .unacceptable, opening .emitted, opening .noScanner]

theorem line_eq (e : Event) : e.line = e.opening ++ e.detail := by
  cases e with
  | reading record =>
    show "TRACE span deserialize bytes=" ++ byteListText record ++ " len=" ++ toString record.length = _
    rw [String.append_assoc, String.append_assoc]
    rfl
  | refused error | unfit error => rfl
  | _ => exact String.append_empty.symm

theorem opening_mem (e : Event) : e.opening ∈ openings := by
  cases e <;> simp [opening, openings]

theorem prefixFree_openings : PrefixFree openings := by
  decide +kernel

theorem eq_of_opening_of_detail {e f : Event} (ho : e.opening = f.opening) (hd : e.detail = f.detail) : e = f := by
  cases e with
  | reading record =>
    cases f with
    | reading record' => rw [(byteListText_append_inj hd).1]
    | _ => simp [opening] at ho
  | refused error =>
    cases f with
    | refused error' => rw [RecordError.message_injective hd]
    | _ => simp [opening] at ho
  | unfit error =>
    cases f with
    | unfit error' => rw [SizeError.message_injective hd]
    | _ => simp [opening] at ho
  | _ =>
    cases f <;> simp [opening] at ho
    rfl

/-- A line begins with the opening of an event only if it has this opening. -/
theorem opening_eq_of_prefix {e f : Event} (h : e.opening.toList <+: f.line.toList) : e.opening = f.opening := by
  obtain ⟨rest, hrest⟩ := h
  have hline : e.opening ++ String.ofList rest = f.opening ++ f.detail := by
    rw [← line_eq, ← String.toList_inj, String.toList_append, String.toList_ofList, hrest]
  exact (prefixFree_openings.append_inj e.opening_mem f.opening_mem hline).1

/-- Different events have different lines. -/
theorem line_injective : Function.Injective line := by
  intro e f h
  rw [line_eq, line_eq] at h
  obtain ⟨ho, hd⟩ := prefixFree_openings.append_inj e.opening_mem f.opening_mem h
  exact eq_of_opening_of_detail ho hd

end Event

/-- A log can be read back from its lines. -/
theorem Log.lines_injective : Function.Injective Log.lines :=
  Event.line_injective.list_map

end EndOfInput
