import EndOfInput.Proofs.Emission
import EndOfInput.Versions

/-!
# One scanner for all versions

One scanner that loads the record of a version before each of its scans cannot be told from a scanner for each
version (`Shared.run_eq_dedicated_run`).  What it knew before a load does not matter: the record of a version always
holds the state of the version's own scanner, and the options are never touched.

* (one step) `Shared.Follows.step`: a shared and a dedicated system that agree reply the same, and agree again;
* (lineages) `Dedicated.faithful_linesFrom`: a version's replies are those of a fresh scanner that has seen the scans
  on the way to the version, before and after its forks, and no others.
-/

namespace EndOfInput

universe u v

open Machine

variable {γ : Type u} [Cursor γ]

/-! ### Lineages -/

/-- A scan on the way to a version, with its reply. -/
structure LineScan (γ : Type u) where
  cursor : γ
  valid : Acceptable
  reply : VersionReply γ

abbrev Lineage (γ : Type u) := List (LineScan γ)

/-- The lineages after one more step.  A scan lengthens the lineage of its version, and a new version takes over the
lineage of the one it was forked from. -/
def extendLines (lines : List (Lineage γ)) : VersionStep γ → Option (VersionReply γ) → List (Lineage γ)
  | .scan v cursor valid, some reply =>
    match lines[v]? with
    | none => lines
    | some line => lines.set v (line ++ [⟨cursor, valid, reply⟩])
  | .scan _ _ _, none => lines
  | .fork v, _ =>
    match lines[v]? with
    | none => lines
    | some line => lines ++ [line]

/-- The lineages after a sequence of steps with their replies. -/
def linesFrom (lines : List (Lineage γ)) : List (VersionStep γ) → List (Option (VersionReply γ)) → List (Lineage γ)
  | step :: steps, reply? :: replies => linesFrom (extendLines lines step reply?) steps replies
  | _, _ => lines

/-- The lineages of all versions, by number: the first version begins with no scan on its way. -/
def lineages (steps : List (VersionStep γ)) (replies : List (Option (VersionReply γ))) : List (Lineage γ) :=
  linesFrom [[]] steps replies

omit [Cursor γ] in
/-- What every step of a system keeps about the lineages is kept by a run. -/
theorem linesFrom_induction {σ : Type v} [Machine σ (VersionStep γ) (Option (VersionReply γ))]
    {P : σ → List (Lineage γ) → Prop}
    (hstep : ∀ x lines step, P x lines → P (next x step) (extendLines lines step (reply x step))) {x : σ}
    {lines : List (Lineage γ)} (h : P x lines) (steps : List (VersionStep γ)) :
    P (after x steps) (linesFrom lines steps (run x steps)) := by
  induction steps generalizing x lines with
  | nil => exact h
  | cons step steps ih => exact ih (hstep x lines step h)

def LineScan.op (x : LineScan γ) : Scanner.Op γ :=
  .scan x.cursor x.valid

namespace Lineage

/-- A scanner that has seen the scans of a lineage, and no others. -/
def scanner (options : Options) (line : Lineage γ) : Scanner :=
  after (Scanner.fresh options) (line.map LineScan.op)

/-- Each reply is that of a scanner that has seen the scans before it in the lineage, and no others. -/
def Faithful (options : Options) (line : Lineage γ) : Prop :=
  ∀ past x future, line = past ++ x :: future →
    x.reply = ((scanner options past).scan x.cursor x.valid).versionReply

/-- The record that the latest scan of a lineage left. -/
def record (line : Lineage γ) : List UInt8 :=
  (line.getLast?.map fun x => x.reply.record).getD []

theorem scanner_append_singleton (options : Options) (line : Lineage γ) (x : LineScan γ) :
    scanner options (line ++ [x]) = ((scanner options line).scan x.cursor x.valid).scanner := by
  rw [scanner, List.map_append, after_append]
  rfl

theorem Faithful.append_singleton {options : Options} {line : Lineage γ} {x : LineScan γ}
    (h : Faithful options line) (hx : x.reply = ((scanner options line).scan x.cursor x.valid).versionReply) :
    Faithful options (line ++ [x]) := by
  intro past y future he
  -- either `y` is the new scan, or it stands in `line`
  rcases List.eq_nil_or_concat future with rfl | ⟨rest, z, rfl⟩
  · obtain ⟨rfl, hy⟩ := List.append_inj' he rfl
    cases hy
    exact hx
  · rw [List.concat_eq_append, ← List.cons_append, ← List.append_assoc] at he
    exact h past y rest (List.append_inj' he rfl).1

omit [Cursor γ] in
theorem record_append_singleton (line : Lineage γ) (x : LineScan γ) : record (line ++ [x]) = x.reply.record := by
  rw [record, List.getLast?_append]
  rfl

/-- Along a lineage two matches are separated by a scan before the end. -/
theorem Faithful.exists_not_isEnd_of_found {options : Options} {line past between future : Lineage γ}
    {first second : LineScan γ} (h : Faithful options line) (he : line = past ++ first :: between ++ second :: future)
    (h₁ : first.reply.result? = some .endOfInput) (h₂ : second.reply.result? = some .endOfInput) :
    ∃ x ∈ between, Cursor.isEnd x.cursor = false := by
  have hs : scanner options (past ++ first :: between) =
      after ((scanner options past).step first.op).scanner (between.map LineScan.op) := by
    rw [scanner, List.map_append, after_append]
    rfl
  have hfirst : ((scanner options past).step first.op).token? = some .endOfInput := by
    rw [h past first (between ++ second :: future) (by rw [he, List.append_assoc]; rfl)] at h₁
    exact h₁
  have hsecond : ((after ((scanner options past).step first.op).scanner (between.map LineScan.op)).step
      second.op).token? = some .endOfInput := by
    rw [h (past ++ first :: between) second future he, hs] at h₂
    exact h₂
  obtain ⟨op, hop, hr⟩ := Scanner.exists_rearms_of_found hfirst hsecond
  obtain ⟨x, hx, rfl⟩ := List.mem_map.mp hop
  exact ⟨x, hx, by simpa [LineScan.op, Scanner.Op.rearms] using hr⟩

end Lineage

/-! ### A scanner for each version -/

namespace Dedicated

/-- The scanner of each version has seen the scans of its lineage, and each lineage is faithful. -/
structure Explained (options : Options) (x : Dedicated) (lines : List (Lineage γ)) : Prop where
  scanners : x.scanners = lines.map (Lineage.scanner options)
  faithful : ∀ line ∈ lines, Lineage.Faithful options line

theorem explained_fresh (options : Options) : Explained (γ := γ) options (.fresh options) [[]] where
  scanners := rfl
  faithful := by
    intro line hm
    rw [List.mem_singleton.mp hm]
    intro past x future he
    cases past <;> cases he

theorem Explained.step {options : Options} {x : Dedicated} {lines : List (Lineage γ)} (h : Explained options x lines)
    (step : VersionStep γ) : Explained options (x.step step).2 (extendLines lines step (x.step step).1) := by
  have hget : ∀ v : Nat, x.scanners[v]? = lines[v]?.map (Lineage.scanner options) := by
    intro v
    rw [h.scanners, List.getElem?_map]
  cases step with
  | scan v c valid =>
    cases hl : lines[v]? with
    | none =>
      have hs : x.scanners[v]? = none := by rw [hget, hl]; rfl
      simp only [Dedicated.step, hs, extendLines]
      exact h
    | some line =>
      have hs : x.scanners[v]? = some (Lineage.scanner options line) := by rw [hget, hl]; rfl
      simp only [Dedicated.step, hs, extendLines, hl]
      refine ⟨?_, ?_⟩
      · rw [List.map_set, Lineage.scanner_append_singleton, h.scanners]
      · intro line' h'
        rcases List.mem_or_eq_of_mem_set h' with hm | rfl
        · exact h.faithful line' hm
        · exact (h.faithful line (List.mem_of_getElem? hl)).append_singleton rfl
  | fork v =>
    cases hl : lines[v]? with
    | none =>
      have hs : x.scanners[v]? = none := by rw [hget, hl]; rfl
      simp only [Dedicated.step, hs, extendLines, hl]
      exact h
    | some line =>
      have hs : x.scanners[v]? = some (Lineage.scanner options line) := by rw [hget, hl]; rfl
      simp only [Dedicated.step, hs, extendLines, hl]
      refine ⟨?_, ?_⟩
      · rw [List.map_append, h.scanners]
        rfl
      · intro line' h'
        rcases List.mem_append.mp h' with hm | hm
        · exact h.faithful line' hm
        · rw [List.mem_singleton.mp hm]
          exact h.faithful line (List.mem_of_getElem? hl)

theorem faithful_linesFrom {options : Options} {x : Dedicated} {lines : List (Lineage γ)}
    (h : Explained options x lines) (steps : List (VersionStep γ)) :
    ∀ line ∈ linesFrom lines steps (run x steps), Lineage.Faithful options line :=
  (linesFrom_induction (fun _ _ step h => h.step step) h steps).faithful

end Dedicated

/-! ### One scanner for all versions -/

namespace Shared

/-- The record of each version holds the state of the version's own scanner, and all options are the same. -/
structure Follows (x : Shared) (y : Dedicated) : Prop where
  decode : x.records.map State.decode = y.scanners.map fun s => .ok s.state
  options : ∀ s ∈ y.scanners, s.options = x.scanner.options

theorem follows_fresh (s : Scanner) : Follows (.fresh s) (.fresh s.options) where
  decode := rfl
  options := by
    intro t ht
    rw [List.mem_singleton.mp ht]
    rfl

theorem Follows.version {x : Shared} {y : Dedicated} (h : Follows x y) (v : Nat) :
    (x.records[v]? = none ∧ y.scanners[v]? = none) ∨
      ∃ record s, x.records[v]? = some record ∧ y.scanners[v]? = some s ∧
        State.decode record = .ok s.state ∧ s.options = x.scanner.options := by
  have hd : x.records[v]?.map State.decode = y.scanners[v]?.map fun s => .ok s.state := by
    rw [← List.getElem?_map, ← List.getElem?_map, h.decode]
  cases hr : x.records[v]? with
  | none =>
    cases hs : y.scanners[v]? with
    | none => exact Or.inl ⟨rfl, rfl⟩
    | some s => rw [hr, hs] at hd; cases hd
  | some record =>
    cases hs : y.scanners[v]? with
    | none => rw [hr, hs] at hd; cases hd
    | some s =>
      rw [hr, hs] at hd
      exact Or.inr ⟨record, s, rfl, rfl, Option.some.inj hd, h.options s (List.mem_of_getElem? hs)⟩

/-- A load of the record of a version is accepted, and gives the version's own scanner. -/
theorem load_eq {x : Shared} {record : List UInt8} {s : Scanner} (hd : State.decode record = .ok s.state)
    (ho : s.options = x.scanner.options) : x.scanner.load record = ⟨.ok (), s, [.reading record]⟩ := by
  rw [Scanner.load_of_ok hd, ← ho]

/-- No load is refused while the systems agree. -/
theorem Follows.outcome_load {x : Shared} {y : Dedicated} (h : Follows x y) {v : Nat} {loaded : Loaded}
    (hl : x.load? v = some loaded) : loaded.outcome = .ok () := by
  rcases h.version v with ⟨hr, -⟩ | ⟨record, s, hr, -, hd, ho⟩
  · rw [Shared.load?, hr] at hl
    cases hl
  · rw [Shared.load?, hr, Option.map_some, load_eq hd ho] at hl
    cases hl
    rfl

/-- Two systems that agree reply the same to a step, and agree after it. -/
theorem Follows.step {x : Shared} {y : Dedicated} (h : Follows x y) (step : VersionStep γ) :
    (x.step step).1 = (y.step step).1 ∧ Follows (x.step step).2 (y.step step).2 := by
  cases step with
  | scan v c valid =>
    rcases h.version v with ⟨hr, hs⟩ | ⟨record, s, hr, hs, hd, ho⟩
    · simp only [Shared.step, Dedicated.step, Shared.load?, hr, hs]
      exact ⟨rfl, h⟩
    · -- the load gives the version's own scanner, so both systems do the same scan
      simp only [Shared.step, Dedicated.step, Shared.load?, hr, hs, Option.map_some, load_eq hd ho]
      refine ⟨trivial, ?_, ?_⟩
      · rw [List.map_set, List.map_set, h.decode, Scanner.record_eq, State.decode_encode]
      · intro t ht
        rcases List.mem_or_eq_of_mem_set ht with hm | rfl
        · rw [h.options t hm, ← ho, Scanner.options_scan]
        · rfl
  | fork v =>
    rcases h.version v with ⟨hr, hs⟩ | ⟨record, s, hr, hs, hd, ho⟩
    · simp only [Shared.step, Dedicated.step, hr, hs]
      exact ⟨trivial, h⟩
    · simp only [Shared.step, Dedicated.step, hr, hs]
      refine ⟨trivial, ?_, ?_⟩
      · rw [List.map_append, List.map_append, h.decode, List.map_singleton, List.map_singleton, hd]
      · intro t ht
        rcases List.mem_append.mp ht with hm | hm
        · exact h.options t hm
        · rw [List.mem_singleton.mp hm, ho]

theorem Follows.run {x : Shared} {y : Dedicated} (h : Follows x y) (steps : List (VersionStep γ)) :
    Machine.run x steps = Machine.run y steps ∧ Follows (after x steps) (after y steps) :=
  simulation_of_same_steps (fun step _ _ h => h.step step) h steps

theorem records_step {x : Shared} {lines : List (Lineage γ)} (h : x.records = lines.map Lineage.record)
    (step : VersionStep γ) :
    (x.step step).2.records = (extendLines lines step (x.step step).1).map Lineage.record := by
  have hget : ∀ v : Nat, x.records[v]? = lines[v]?.map Lineage.record := by
    intro v
    rw [h, List.getElem?_map]
  cases step with
  | scan v c valid =>
    cases hl : lines[v]? with
    | none =>
      have hr : x.records[v]? = none := by rw [hget, hl]; rfl
      simp only [Shared.step, Shared.load?, hr, Option.map_none, extendLines]
      exact h
    | some line =>
      have hr : x.records[v]? = some (Lineage.record line) := by rw [hget, hl]; rfl
      simp only [Shared.step, Shared.load?, hr, Option.map_some, extendLines, hl]
      rw [List.map_set, h, Lineage.record_append_singleton, Scanned.versionReply]
  | fork v =>
    cases hl : lines[v]? with
    | none =>
      have hr : x.records[v]? = none := by rw [hget, hl]; rfl
      simp only [Shared.step, hr, extendLines, hl]
      exact h
    | some line =>
      have hr : x.records[v]? = some (Lineage.record line) := by rw [hget, hl]; rfl
      simp only [Shared.step, hr, extendLines, hl]
      rw [List.map_append, h, List.map_singleton]

theorem records_after {x : Shared} {lines : List (Lineage γ)} (h : x.records = lines.map Lineage.record)
    (steps : List (VersionStep γ)) :
    (after x steps).records = (linesFrom lines steps (run x steps)).map Lineage.record :=
  linesFrom_induction (P := fun (x : Shared) lines => x.records = lines.map Lineage.record)
    (fun _ _ step h => records_step h step) h steps

/-- One shared scanner does what a scanner for each version does.  Whatever the shared scanner was before, no load of
a record is refused; all replies are the same: what is found, the cursor, the log and the record; the record stored
for a version is that of the latest scan in its lineage; and along every lineage two matches are separated by a scan
before the end. -/
theorem run_eq_dedicated_run (s : Scanner) (steps : List (VersionStep γ)) :
    (∀ n v loaded, (after (Shared.fresh s) (steps.take n)).load? v = some loaded → loaded.outcome = .ok ()) ∧
    run (Shared.fresh s) steps = run (Dedicated.fresh s.options) steps ∧
    (after (Shared.fresh s) steps).records =
      (lineages steps (run (Shared.fresh s) steps)).map Lineage.record ∧
    ∀ line ∈ lineages steps (run (Shared.fresh s) steps), ∀ past first between second future,
      line = past ++ first :: between ++ second :: future →
      first.reply.result? = some .endOfInput → second.reply.result? = some .endOfInput →
      ∃ x ∈ between, Cursor.isEnd x.cursor = false := by
  have hf := follows_fresh s
  refine ⟨?_, (hf.run steps).1, records_after rfl steps, ?_⟩
  · intro n v loaded hl
    exact (hf.run (steps.take n)).2.outcome_load hl
  · intro line hline past first between second future he h₁ h₂
    rw [(hf.run steps).1] at hline
    have hfaithful : Lineage.Faithful s.options line :=
      Dedicated.faithful_linesFrom (Dedicated.explained_fresh s.options) steps line hline
    exact hfaithful.exists_not_isEnd_of_found he h₁ h₂

/-- The end of the input is found before a fork, and again on the forked version once it has seen more input. -/
example :
    let atEnd : ByteCursor := .atEnd [0x61]
    let steps : List (VersionStep ByteCursor) :=
      [.scan 0 atEnd .all, .fork 0, .scan 1 (.atStart [0x61]) .all, .scan 1 atEnd .all, .scan 0 atEnd .all]
    (run (Shared.fresh ⟨⟨true⟩, {}⟩) steps).map (fun reply? => reply?.bind (·.result?)) =
      [some .endOfInput, none, none, some .endOfInput, none] := by
  decide +kernel

end Shared

end EndOfInput
