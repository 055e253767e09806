import EndOfInput.Proofs.Emission
import Mathlib.Data.Bool.Basic
import Mathlib.Data.List.Forall2

/-!
# More is found where more is acceptable

Two scanners take the same operations side by side, and the end of the input is acceptable to the second wherever it
is to the first.  The second may then find it earlier, and miss it where the first finds it later.  What the second is
ahead by is at most the one match for which its marker is set while the marker of the first is clear, and this match
is its credit:

* (one step) `Scanner.Parallel.step`: a marker that is set for the first is set for the second, and what the first finds
  more than the second is paid from the credit;
* (runs) `Scanner.found_le_of_admits`: the first never finds more than the second.
-/

namespace EndOfInput.Scanner

universe u v

open Machine

variable {γ : Type u} {δ : Type v} [Cursor γ] [Cursor δ]

/-! ### Two scanners side by side -/

/-- The same operation by two scanners with the options `o` and `o'`.  The cursors of a scan are both at the end or both
before it, and at the end the options of the second admit what it is offered if those of the first do. -/
inductive Parallel (o o' : Options) : Op γ → Op δ → Prop where
  | scan {c : γ} {d : δ} {valid valid' : Acceptable} : Cursor.isEnd c = Cursor.isEnd d →
      (Cursor.isEnd c = true → o.Admits valid → o'.Admits valid') → Parallel o o' (.scan c valid) (.scan d valid')
  | save (buffer buffer' : List UInt8) : Parallel o o' (.save buffer) (.save buffer')
  | load (record : List UInt8) : Parallel o o' (.load record) (.load record)
  | reset : Parallel o o' .reset .reset

/-- The number of matches. -/
def found (entries : List (Entry γ)) : Nat :=
  entries.countP fun e => e.reply.token?.isSome

/-- The match that the second scanner is ahead by: its marker is set, and that of the first is clear. -/
def credit (s t : Scanner) : Nat :=
  (t.marked && !s.marked).toNat

theorem found_trace_cons (s : Scanner) (op : Op γ) (ops : List (Op γ)) :
    found (trace s (op :: ops)) = found (trace (s.step op).scanner ops) + (s.step op).token?.isSome.toNat := by
  rw [trace_cons, found, List.countP_cons, found, reply_eq, next_eq]
  cases (s.step op).token?.isSome <;> rfl

theorem credit_eq_zero {s t : Scanner} (h : s.marked = t.marked) : credit s t = 0 := by
  rw [credit, h]
  cases t.marked <;> rfl

/-- There is but one kind of token, so what is found is determined by whether it is. -/
private theorem token?_eq_of_isSome {found? found?' : Option TokenKind} (h : found?.isSome = found?'.isSome) :
    found? = found?' := by
  cases found? with
  | none =>
    rw [Option.isSome_none] at h
    exact (Option.isNone_iff_eq_none.mp (Option.isSome_eq_false_iff.mp h.symm)).symm
  | some kind =>
    obtain ⟨kind', rfl⟩ := Option.isSome_iff_exists.mp h.symm
    cases kind
    cases kind'
    rfl

/-! ### One step -/

private theorem scan_parallel {s t : Scanner} {c : γ} {d : δ} {valid valid' : Acceptable}
    (hm : s.marked = true → t.marked = true) (he : Cursor.isEnd c = Cursor.isEnd d)
    (ha : Cursor.isEnd c = true → s.options.Admits valid → t.options.Admits valid') :
    ((s.scan c valid).scanner.marked = true → (t.scan d valid').scanner.marked = true) ∧
      (s.scan c valid).result?.isSome.toNat + credit (s.scan c valid).scanner (t.scan d valid').scanner ≤
        (t.scan d valid').result?.isSome.toNat + credit s t := by
  cases hd : Cursor.isEnd d with
  | false =>
    rw [scan_of_not_isEnd (he.trans hd), scan_of_not_isEnd hd]
    simp [credit]
  | true =>
    have hc : Cursor.isEnd c = true := he.trans hd
    by_cases hs : s.marked = true
    · -- both have found the end here, and find it no more
      rw [scan_of_marked hc hs, scan_of_marked hd (hm hs)]
      exact ⟨hm, Nat.le_refl _⟩
    rw [Bool.not_eq_true] at hs
    by_cases ht : t.marked = true
    · -- the second is ahead, and a match of the first uses up the credit
      rw [scan_of_marked hd ht]
      by_cases hadmits : s.options.Admits valid
      · rw [scan_of_admits hc hs hadmits]
        simp [credit, hs, ht]
      · rw [scan_of_not_admits hc hs hadmits]
        exact ⟨hm, Nat.le_refl _⟩
    rw [Bool.not_eq_true] at ht
    by_cases hadmits : s.options.Admits valid
    · rw [scan_of_admits hc hs hadmits, scan_of_admits hd ht (ha hc hadmits)]
      simp [credit, hs, ht]
    · rw [scan_of_not_admits hc hs hadmits]
      by_cases hadmits' : t.options.Admits valid'
      · -- the second comes to be ahead
        rw [scan_of_admits hd ht hadmits']
        simp [credit, hs, ht]
      · rw [scan_of_not_admits hd ht hadmits']
        exact ⟨hm, Nat.le_refl _⟩

namespace Parallel

variable {o o' : Options} {s t : Scanner}

theorem options_step {op : Op γ} {op' : Op δ} (h : Parallel o o' op op') :
    (s.step op).scanner.options = s.options ∧ (t.step op').scanner.options = t.options := by
  rw [Scanner.options_step, Scanner.options_step]
  cases h <;> exact ⟨rfl, rfl⟩

/-- A marker that is set for the first scanner is set for the second, and what the first finds more than the second is
paid from the credit. -/
theorem step {op : Op γ} {op' : Op δ} (hm : s.marked = true → t.marked = true)
    (h : Parallel s.options t.options op op') :
    ((s.step op).scanner.marked = true → (t.step op').scanner.marked = true) ∧
      (s.step op).token?.isSome.toNat + credit (s.step op).scanner (t.step op').scanner ≤
        (t.step op').token?.isSome.toNat + credit s t := by
  cases h with
  | scan he ha => exact scan_parallel hm he ha
  | save buffer buffer' => exact ⟨hm, Nat.le_refl _⟩
  | load record =>
    have hsame : (s.load record).scanner.marked = (t.load record).scanner.marked := by rw [marked_load, marked_load]
    refine ⟨fun hs => hsame.symm.trans hs, ?_⟩
    show 0 + credit (s.load record).scanner (t.load record).scanner ≤ _
    rw [credit_eq_zero hsame]
    exact Nat.zero_le _
  | reset => exact ⟨id, Nat.zero_le _⟩

/-- Where each may find the end if the other may, neither finds more than the other. -/
theorem step_eq {op : Op γ} {op' : Op δ} (h : Parallel s.options t.options op op')
    (h' : Parallel t.options s.options op' op) (hm : s.marked = t.marked) :
    (s.step op).token? = (t.step op').token? ∧
      (s.step op).scanner.marked = (t.step op').scanner.marked := by
  obtain ⟨hmarked, hstep⟩ := h.step fun hs => hm.symm.trans hs
  obtain ⟨hmarked', hstep'⟩ := h'.step fun ht => hm.trans ht
  have hsame := Bool.eq_iff_iff.mpr ⟨hmarked, hmarked'⟩
  rw [credit_eq_zero hsame, credit_eq_zero hm] at hstep
  rw [credit_eq_zero hsame.symm, credit_eq_zero hm.symm] at hstep'
  have hfound := congrArg Bool.ofNat (Nat.le_antisymm hstep hstep')
  rw [Nat.add_zero, Nat.add_zero, Bool.ofNat_toNat, Bool.ofNat_toNat] at hfound
  exact ⟨token?_eq_of_isSome hfound, hsame⟩

theorem run {ops : List (Op γ)} {ops' : List (Op δ)} (h : List.Forall₂ (Parallel o o') ops ops') (ho : s.options = o)
    (ho' : t.options = o') (hm : s.marked = true → t.marked = true) :
    ((after s ops).marked = true → (after t ops').marked = true) ∧
      found (trace s ops) + credit (after s ops) (after t ops') ≤ found (trace t ops') + credit s t := by
  induction h generalizing s t with
  | nil => exact ⟨hm, Nat.le_refl _⟩
  | cons hop _ ih =>
    subst ho ho'
    obtain ⟨hoptions, hoptions'⟩ := hop.options_step (s := s) (t := t)
    obtain ⟨hmarked, hstep⟩ := hop.step hm
    obtain ⟨hafter, hrun⟩ := ih hoptions hoptions' hmarked
    refine ⟨hafter, ?_⟩
    rw [after_cons, after_cons, next_eq, next_eq, found_trace_cons, found_trace_cons]
    -- what the step leaves of the credit is what the rest starts with
    omega

/-- Two scanners that may find the end of the input at the same steps find it at the same steps. -/
theorem map_token?_eq {ops : List (Op γ)} {ops' : List (Op δ)} (h : List.Forall₂ (Parallel o o') ops ops')
    (h' : List.Forall₂ (Parallel o' o) ops' ops) (ho : s.options = o) (ho' : t.options = o')
    (hm : s.marked = t.marked) :
    ((trace s ops).map fun e => e.reply.token?) = (trace t ops').map fun e => e.reply.token? := by
  induction h generalizing s t with
  | nil => rfl
  | cons hop _ ih =>
    cases h' with
    | cons hop' hops' =>
      subst ho ho'
      obtain ⟨hoptions, hoptions'⟩ := hop.options_step (s := s) (t := t)
      obtain ⟨hfound, hmarked⟩ := hop.step_eq hop' hm
      rw [trace_cons, trace_cons, List.map_cons, List.map_cons, reply_eq, reply_eq, hfound, next_eq, next_eq,
        ih hops' hoptions hoptions' hmarked]

/-- A scanner that does not honor what is acceptable may find the end wherever another may. -/
theorem of_permissive {op : Op γ} (h : op.options? = none) : Parallel o { honorAcceptable := false } op op := by
  cases op with
  | scan c valid => exact .scan rfl fun _ _ => Options.admits_iff.mpr (.inl rfl)
  | save buffer => exact .save buffer buffer
  | load record => exact .load record
  | reset => exact .reset
  | setOptions options => cases h

end Parallel

/-- With no credit to start from, the first scanner never finds more than the second. -/
theorem found_le_of_parallel {s t : Scanner} {ops : List (Op γ)} {ops' : List (Op δ)}
    (h : List.Forall₂ (Parallel s.options t.options) ops ops') (hm : s.marked = t.marked) :
    ((after s ops).marked = true → (after t ops').marked = true) ∧ found (trace s ops) ≤ found (trace t ops') := by
  obtain ⟨hafter, hrun⟩ := Parallel.run h rfl rfl fun hs => hm.symm.trans hs
  rw [credit_eq_zero hm] at hrun
  exact ⟨hafter, Nat.le_trans (Nat.le_add_right _ _) hrun⟩

/-! ### The law -/

/-- More is found where more is acceptable.  Two scanners with the same marker take the same operations, and at the end
of the input the second is offered an acceptable end wherever the first is.  After every number of operations the marker
of the second is set if that of the first is, and the first has not found the end more often than the second.  So a
scanner that does not honor what is acceptable finds the end at least as often as one that does; and two scanners that
are offered an acceptable end at the same scans find it at the same scans. -/
theorem found_le_of_admits :
    (∀ (s t : Scanner) (ops : List (Op γ)) (ops' : List (Op δ)), s.marked = t.marked →
      List.Forall₂ (Parallel s.options t.options) ops ops' → ∀ n,
        ((after s (ops.take n)).marked = true → (after t (ops'.take n)).marked = true) ∧
          found (trace s (ops.take n)) ≤ found (trace t (ops'.take n))) ∧
    (∀ (state : State) (ops : List (Op γ)), (∀ op ∈ ops, op.options? = none) → ∀ n,
      found (trace (Scanner.mk state {}) (ops.take n)) ≤
        found (trace (Scanner.mk state { honorAcceptable := false }) (ops.take n))) ∧
    ∀ (s t : Scanner) (ops : List (Op γ)) (ops' : List (Op δ)), s.marked = t.marked →
      List.Forall₂ (Parallel s.options t.options) ops ops' → List.Forall₂ (Parallel t.options s.options) ops' ops →
      ((trace s ops).map fun e => e.reply.token?) = (trace t ops').map fun e => e.reply.token? := by
  refine ⟨?_, ?_, ?_⟩
  · intro s t ops ops' hm h n
    exact found_le_of_parallel (List.forall₂_take n h) hm
  · intro state ops hops n
    have h : List.Forall₂ (Parallel {} { honorAcceptable := false }) (ops.take n) (ops.take n) :=
      List.forall₂_same.mpr fun op hop => .of_permissive (hops op (List.mem_of_mem_take hop))
    exact (found_le_of_parallel (s := ⟨state, {}⟩) (t := ⟨state, { honorAcceptable := false }⟩) h rfl).2
  · intro s t ops ops' hm h h'
    exact Parallel.map_token?_eq h h' rfl rfl hm

/-- The second scanner finds the end at once and misses it at the next scan, where the first finds it; it is ahead again
after the reset.  Where the first is offered everything, the two find it at the same scans. -/
theorem found_le_after_early_match :
    let knock (valid : Acceptable) : Op ByteCursor := .scan (.atEnd [0x61]) valid
    let ops := [knock .empty, knock .all, .reset, knock .empty]
    let welcome := [knock .all, knock .all, .load [0x10], knock .all]
    let unasked := [knock .empty, knock .empty, .load [0x10], knock .empty]
    let s : Scanner := fresh
    let t : Scanner := fresh { honorAcceptable := false }
    (trace s ops).map (·.reply.token?) = [none, some .endOfInput, none, none] ∧
      (trace t ops).map (·.reply.token?) = [some .endOfInput, none, none, some .endOfInput] ∧
      List.Forall₂ (Parallel s.options t.options) ops ops ∧
      found (trace s (ops.take 2)) ≤ found (trace t (ops.take 2)) ∧
      found (trace s (ops.take 4)) ≤ found (trace t (ops.take 4)) ∧
      List.Forall₂ (Parallel s.options t.options) welcome unasked ∧
      List.Forall₂ (Parallel t.options s.options) unasked welcome ∧
      ((trace s welcome).map fun e => e.reply.token?) = (trace t unasked).map fun e => e.reply.token? := by
  intro knock ops welcome unasked s t
  have hops : ∀ op ∈ ops, op.options? = none := by simp [ops, knock, Op.options?]
  have h : List.Forall₂ (Parallel s.options t.options) ops ops :=
    List.forall₂_same.mpr fun op hop => .of_permissive (hops op hop)
  have h₁ : List.Forall₂ (Parallel s.options t.options) welcome unasked :=
    .cons (.scan rfl (by decide)) (.cons (.scan rfl (by decide)) (.cons (.load _) (.cons (.scan rfl (by decide)) .nil)))
  have h₂ : List.Forall₂ (Parallel t.options s.options) unasked welcome :=
    .cons (.scan rfl (by decide)) (.cons (.scan rfl (by decide)) (.cons (.load _) (.cons (.scan rfl (by decide)) .nil)))
  obtain ⟨hany, hpermissive, hsame⟩ := found_le_of_admits (γ := ByteCursor) (δ := ByteCursor)
  exact ⟨rfl, rfl, h, (hany s t ops ops rfl h 2).2, hpermissive {} ops hops 4, h₁, h₂,
    hsame s t welcome unasked rfl h₁ h₂⟩

end EndOfInput.Scanner
