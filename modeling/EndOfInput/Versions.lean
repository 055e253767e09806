import EndOfInput.Machine
import EndOfInput.Scanner

/-!
# Versions of a parse

A parser may follow several versions of one parse, numbered from zero, and fork any of them at any time.  Each
version needs a scanner that has seen what the version has seen.

* `Dedicated`: a scanner for each version;
* `Shared`: a record for each version, and one scanner that loads the record of a version, scans, and writes the
  record again.
-/

namespace EndOfInput

universe u

/-- What a parser does to its versions. -/
inductive VersionStep (γ : Type u) where
  | scan (version : Nat) (cursor : γ) (valid : Acceptable)
  /-- A new version begins where another one is. -/
  | fork (version : Nat)

/-- What a scan for a version gives. -/
structure VersionReply (γ : Type u) where
  result? : Option TokenKind
  cursor : γ
  log : Log
  record : List UInt8

def Scanned.versionReply {γ : Type u} (scanned : Scanned γ) : VersionReply γ :=
  ⟨scanned.result?, scanned.cursor, scanned.log, scanned.scanner.record⟩

/-! ### A scanner for each version -/

/-- A scanner for each version. -/
structure Dedicated where
  scanners : List Scanner
  deriving DecidableEq

namespace Dedicated

/-- The first version, in its initial state. -/
def fresh (options : Options) : Dedicated :=
  ⟨[.fresh options]⟩

variable {γ : Type u} [Cursor γ]

/-- One step.  There is no reply to a fork, and a step on a version that does not exist does nothing. -/
def step (x : Dedicated) : VersionStep γ → Option (VersionReply γ) × Dedicated
  | .scan v c valid =>
    match x.scanners[v]? with
    | none => (none, x)
    | some s =>
      let scanned := s.scan c valid
      (some scanned.versionReply, ⟨x.scanners.set v scanned.scanner⟩)
  | .fork v =>
    match x.scanners[v]? with
    | none => (none, x)
    | some s => (none, ⟨x.scanners ++ [s]⟩)

instance : Machine Dedicated (VersionStep γ) (Option (VersionReply γ)) where
  reply x step := (x.step step).1
  next x step := (x.step step).2

end Dedicated

/-! ### One scanner for all versions -/

/-- One scanner, and a record for each version. -/
structure Shared where
  scanner : Scanner
  records : List (List UInt8)
  deriving DecidableEq

namespace Shared

/-- The first version, which has no record yet. -/
def fresh (scanner : Scanner) : Shared :=
  ⟨scanner, [[]]⟩

/-- The scanner loads the record of a version, if the version exists. -/
def load? (x : Shared) (version : Nat) : Option Loaded :=
  x.records[version]?.map x.scanner.load

variable {γ : Type u} [Cursor γ]

/-- One step.  There is no reply to a fork, and a step on a version that does not exist does nothing. -/
def step (x : Shared) : VersionStep γ → Option (VersionReply γ) × Shared
  | .scan v c valid =>
    match x.load? v with
    | none => (none, x)
    | some loaded =>
      let scanned := loaded.scanner.scan c valid
      (some scanned.versionReply, ⟨scanned.scanner, x.records.set v scanned.scanner.record⟩)
  | .fork v =>
    match x.records[v]? with
    | none => (none, x)
    | some record => (none, ⟨x.scanner, x.records ++ [record]⟩)

instance : Machine Shared (VersionStep γ) (Option (VersionReply γ)) where
  reply x step := (x.step step).1
  next x step := (x.step step).2

end Shared

end EndOfInput
