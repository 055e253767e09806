import EndOfInput.Interchange

/-!
# Interchange forms are canonical and apart

A value that is read for a state, for options or for a kind is written again in one form, which reads back as the same
and is written as it stands; and the form that one of the three types writes is refused by the other two
(`Form.canonical_and_apart`).

* (what is read) `Form.read_state_iff`, `Form.read_options_iff` and `Form.read_kind_iff` say which values are accepted,
  and as what;
* (other fields) `readFlag_object_congr`: of an object, only the fields with its own name matter to a record of one flag.
-/

namespace EndOfInput.Interchange

/-! ### Fields -/

theorem filter_name_eq_singleton_iff {name : String} {fields : List (String × Value)} {field : String × Value} :
    fields.filter (fun field => field.1 = name) = [field] ↔ field.1 = name ∧ ∃ before after,
      fields = before ++ field :: after ∧ (∀ f ∈ before, f.1 ≠ name) ∧ ∀ f ∈ after, f.1 ≠ name := by
  rw [List.filter_eq_cons_iff]
  constructor
  · rintro ⟨before, after, rfl, hbefore, hname, hafter⟩
    rw [List.filter_eq_nil_iff] at hafter
    simp only [decide_eq_true_eq] at hbefore hname hafter
    exact ⟨hname, before, after, rfl, hbefore, hafter⟩
  · rintro ⟨hname, before, after, rfl, hbefore, hafter⟩
    refine ⟨before, after, rfl, ?_, ?_, ?_⟩
    · simpa only [decide_eq_true_eq] using hbefore
    · simpa only [decide_eq_true_eq] using hname
    · simpa only [List.filter_eq_nil_iff, decide_eq_true_eq] using hafter

/-- A field has a value if it occurs once, with this value. -/
theorem field?_eq_some_iff {name : String} {fields : List (String × Value)} {v : Value} :
    field? name fields = some v ↔ ∃ before after, fields = before ++ (name, v) :: after ∧
      (∀ f ∈ before, f.1 ≠ name) ∧ ∀ f ∈ after, f.1 ≠ name := by
  unfold field?
  constructor
  · intro h
    split at h
    · rename_i field hfilter
      obtain ⟨hname, hplace⟩ := filter_name_eq_singleton_iff.mp hfilter
      cases h
      subst hname
      exact hplace
    · cases h
  · intro hplace
    rw [filter_name_eq_singleton_iff.mpr ⟨rfl, hplace⟩]

/-- Objects that differ by fields whose names are not `name`, which may be added and removed at any places. -/
inductive Padded (name : String) : List (String × Value) → List (String × Value) → Prop where
  | nil : Padded name [] []
  | keep (field : String × Value) {fs gs : List (String × Value)} :
      Padded name fs gs → Padded name (field :: fs) (field :: gs)
  | add {field : String × Value} {fs gs : List (String × Value)} :
      field.1 ≠ name → Padded name fs gs → Padded name fs (field :: gs)
  | remove {field : String × Value} {fs gs : List (String × Value)} :
      field.1 ≠ name → Padded name fs gs → Padded name (field :: fs) gs

theorem Padded.field?_eq {name : String} {fs gs : List (String × Value)} (h : Padded name fs gs) :
    field? name fs = field? name gs := by
  have hfilter : fs.filter (fun field => field.1 = name) = gs.filter fun field => field.1 = name := by
    induction h with
    | nil => rfl
    | keep field _ ih => rw [List.filter_cons, List.filter_cons, ih]
    | add hname _ ih => rw [ih, List.filter_cons_of_neg (by simpa using hname)]
    | remove hname _ ih => rw [← ih, List.filter_cons_of_neg (by simpa using hname)]
  unfold field?
  rw [hfilter]

/-! ### Records of one flag -/

/-- The values that hold a record with the one field `name`, set to `flag`: the list of the flag alone, and the objects
with one field of this name, set to the flag, among any fields with other names. -/
inductive Holds (name : String) (flag : Bool) : Value → Prop where
  | item : Holds name flag (.array [.bool flag])
  | field {before after : List (String × Value)} : (∀ f ∈ before, f.1 ≠ name) → (∀ f ∈ after, f.1 ≠ name) →
      Holds name flag (.object (before ++ (name, .bool flag) :: after))

theorem Value.bool?_eq_some_iff {v : Value} {flag : Bool} : v.bool? = some flag ↔ v = .bool flag := by
  cases v <;> simp [bool?]

theorem readFlag_eq_some_iff {name : String} {v : Value} {flag : Bool} :
    readFlag name v = some flag ↔ Holds name flag v := by
  constructor
  · intro h
    unfold readFlag at h
    split at h
    · obtain ⟨item, hfield, hflag⟩ := Option.bind_eq_some_iff.mp h
      obtain ⟨before, after, rfl, hbefore, hafter⟩ := field?_eq_some_iff.mp hfield
      rw [Value.bool?_eq_some_iff.mp hflag]
      exact .field hbefore hafter
    · rw [Value.bool?_eq_some_iff.mp h]
      exact .item
    · cases h
  · intro h
    cases h with
    | item => rfl
    | field hbefore hafter => rw [readFlag, field?_eq_some_iff.mpr ⟨_, _, rfl, hbefore, hafter⟩]; rfl

/-- A type with one flag reads what holds its flag. -/
theorem map_readFlag_eq_some_iff {α : Type} {make : Bool → α} {flag : α → Bool} (hflag : ∀ b, flag (make b) = b)
    (hmake : ∀ a, make (flag a) = a) {name : String} {v : Value} {a : α} :
    (readFlag name v).map make = some a ↔ Holds name (flag a) v := by
  rw [← readFlag_eq_some_iff, Option.map_eq_some_iff]
  constructor
  · rintro ⟨b, hread, rfl⟩
    rw [hflag]
    exact hread
  · intro hread
    exact ⟨flag a, hread, hmake a⟩

theorem readFlag_object_congr {name : String} {fs gs : List (String × Value)} (h : Padded name fs gs) :
    readFlag name (.object fs) = readFlag name (.object gs) := by
  rw [readFlag, readFlag, h.field?_eq]

theorem readFlag_writeFlag_of_ne {name name' : String} (h : name ≠ name') (flag : Bool) :
    readFlag name (writeFlag name' flag) = none := by
  have hfilter : [(name', Value.bool flag)].filter (fun field => field.1 = name) = [] := by
    rw [List.filter_cons_of_neg (by simpa using Ne.symm h), List.filter_nil]
  rw [writeFlag, readFlag, field?, hfilter]
  rfl

/-! ### Kinds -/

theorem kindOfName?_eq_some_iff {name : String} {kind : TokenKind} :
    kindOfName? name = some kind ↔ name = kindName kind := by
  cases kind
  rw [eq_comm (a := name)]
  by_cases h : kindName .endOfInput = name <;> simp [kindOfName?, TokenKind.all, h]

theorem readKind_eq_some_iff {v : Value} {kind : TokenKind} :
    readKind v = some kind ↔ v = .string (kindName kind) ∨ v = .object [(kindName kind, .null)] := by
  constructor
  · intro h
    unfold readKind at h
    split at h
    · rw [kindOfName?_eq_some_iff.mp h]
      exact .inl rfl
    · rw [kindOfName?_eq_some_iff.mp h]
      exact .inr rfl
    · cases h
  · rintro (rfl | rfl)
    · exact kindOfName?_eq_some_iff.mpr rfl
    · exact kindOfName?_eq_some_iff.mpr rfl

theorem readKind_writeFlag (name : String) (flag : Bool) : readKind (writeFlag name flag) = none := rfl

/-! ### The three forms -/

/-- A value as it is written after it was read. -/
def normalForm? (α : Type) [Form α] (v : Value) : Option Value :=
  (Form.read v : Option α).map Form.write

/-- What is read and written again reads as the same, and is written as it stands. -/
def Canonical (α : Type) [Form α] : Prop :=
  ∀ v w, normalForm? α v = some w → (Form.read w : Option α) = Form.read v ∧ normalForm? α w = some w

/-- Fields with other names than `name` change neither whether an object is read, nor as what. -/
def IgnoresOthers (α : Type) [Form α] (name : String) : Prop :=
  ∀ fs gs, Padded name fs gs → (Form.read (.object fs) : Option α) = Form.read (.object gs)

/-- Neither of two types reads what the other writes. -/
def Apart (α β : Type) [Form α] [Form β] : Prop :=
  (∀ a : α, (Form.read (Form.write a) : Option β) = none) ∧ ∀ b : β, (Form.read (Form.write b) : Option α) = none

namespace Form

theorem read_state_iff {v : Value} {s : State} : read v = some s ↔ Holds "last_was_end_marker" s.marked v :=
  map_readFlag_eq_some_iff (fun _ => rfl) (fun _ => rfl)

theorem read_options_iff {v : Value} {o : Options} :
    read v = some o ↔ Holds "honor_valid_tokens" o.honorAcceptable v :=
  map_readFlag_eq_some_iff (fun _ => rfl) (fun _ => rfl)

theorem read_kind_iff {v : Value} {kind : TokenKind} :
    read v = some kind ↔ v = .string (kindName kind) ∨ v = .object [(kindName kind, .null)] :=
  readKind_eq_some_iff

theorem canonical (α : Type) [Form α] : Canonical α := by
  intro v w h
  obtain ⟨a, hread, rfl⟩ := Option.map_eq_some_iff.mp h
  constructor
  · rw [read_write, hread]
  · rw [normalForm?, read_write, Option.map_some]

theorem ignoresOthers_state : IgnoresOthers State "last_was_end_marker" :=
  fun _ _ h => congrArg (Option.map State.mk) (readFlag_object_congr h)

theorem ignoresOthers_options : IgnoresOthers Options "honor_valid_tokens" :=
  fun _ _ h => congrArg (Option.map Options.mk) (readFlag_object_congr h)

theorem apart_state_options : Apart State Options := by
  have hnames : "last_was_end_marker" ≠ "honor_valid_tokens" := by decide
  constructor
  · intro s
    show (readFlag _ (writeFlag _ s.marked)).map Options.mk = none
    rw [readFlag_writeFlag_of_ne hnames.symm, Option.map_none]
  · intro o
    show (readFlag _ (writeFlag _ o.honorAcceptable)).map State.mk = none
    rw [readFlag_writeFlag_of_ne hnames, Option.map_none]

/-- A kind is written as a text, which is no record, and a record of one flag holds no null. -/
theorem apart_state_kind : Apart State TokenKind :=
  ⟨fun s => readKind_writeFlag _ s.marked, fun _ => rfl⟩

theorem apart_options_kind : Apart Options TokenKind :=
  ⟨fun o => readKind_writeFlag _ o.honorAcceptable, fun _ => rfl⟩

/-- The law of the interchange forms.  A state and options are read from the list of their flag alone and from the objects
with one field of their name that is a flag, and a kind from its name and from the object of its name and null alone.
What is read is written in one form, which reads back as the same and is written as it stands.  Fields with other names
change nothing.  And none of the three types reads what another writes. -/
theorem canonical_and_apart :
    ((∀ v (s : State), read v = some s ↔ Holds "last_was_end_marker" s.marked v) ∧
      (∀ v (o : Options), read v = some o ↔ Holds "honor_valid_tokens" o.honorAcceptable v) ∧
      ∀ v (kind : TokenKind), read v = some kind ↔
        v = .string (kindName kind) ∨ v = .object [(kindName kind, .null)]) ∧
    (Canonical State ∧ Canonical Options ∧ Canonical TokenKind) ∧
    (IgnoresOthers State "last_was_end_marker" ∧ IgnoresOthers Options "honor_valid_tokens") ∧
    Apart State Options ∧ Apart State TokenKind ∧ Apart Options TokenKind := by
  refine ⟨⟨?_, ?_, ?_⟩, ?_, ?_, ?_⟩
  · intro v s
    exact read_state_iff
  · intro v o
    exact read_options_iff
  · intro v kind
    exact read_kind_iff
  · exact ⟨canonical State, canonical Options, canonical TokenKind⟩
  · exact ⟨ignoresOthers_state, ignoresOthers_options⟩
  · exact ⟨apart_state_options, apart_state_kind, apart_options_kind⟩

/-- A state among unknown fields, options in a list, and a kind as a key, each written again; a state whose field occurs
twice is refused with other fields and without them. -/
theorem canonical_and_apart_of_unusual_values :
    let padded : List (String × Value) :=
      [("version", .number 1 0), ("last_was_end_marker", .bool true), ("honor_valid_tokens", .array [])]
    let twice : List (String × Value) := [("last_was_end_marker", .bool true), ("last_was_end_marker", .bool true)]
    (read (.object padded) : Option State) = read (.object [("last_was_end_marker", .bool true)]) ∧
      normalForm? State (.object padded) = some (.object [("last_was_end_marker", .bool true)]) ∧
      normalForm? State (.object [("last_was_end_marker", .bool true)]) =
        some (.object [("last_was_end_marker", .bool true)]) ∧
      normalForm? Options (.object [("honor_valid_tokens", .bool false)]) =
        some (.object [("honor_valid_tokens", .bool false)]) ∧
      normalForm? TokenKind (.string "EofTok") = some (.string "EofTok") ∧
      (read (.object (("more", .null) :: twice)) : Option State) = read (.object twice) ∧
      (read (.object twice) : Option State) = none := by
  intro padded twice
  obtain ⟨-, ⟨hstate, hoptions, hkind⟩, ⟨hothers, -⟩, -⟩ := canonical_and_apart
  have hpadded : Padded "last_was_end_marker" padded [("last_was_end_marker", .bool true)] :=
    .remove (by decide) (.keep _ (.remove (by decide) .nil))
  have htwice : Padded "last_was_end_marker" (("more", .null) :: twice) twice :=
    .remove (by decide) (.keep _ (.keep _ .nil))
  have hread : normalForm? State (.object padded) = some (.object [("last_was_end_marker", .bool true)]) := by
    simp [normalForm?, read, write, padded, readFlag, writeFlag, field?, Value.bool?]
  have hlist : normalForm? Options (.array [.bool false]) = some (.object [("honor_valid_tokens", .bool false)]) := by
    simp [normalForm?, read, write, readFlag, writeFlag, Value.bool?]
  have hkey : normalForm? TokenKind (.object [("EofTok", .null)]) = some (.string "EofTok") := by
    simp [normalForm?, read, write, readKind, kindOfName?, kindName, TokenKind.all]
  have hnone : (read (.object twice) : Option State) = none := by
    simp [read, twice, readFlag, field?]
  exact ⟨hothers _ _ hpadded, hread, (hstate _ _ hread).2, (hoptions _ _ hlist).2, (hkind _ _ hkey).2,
    hothers _ _ htwice, hnone⟩

end Form

end EndOfInput.Interchange
