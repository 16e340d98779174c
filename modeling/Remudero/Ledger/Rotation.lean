import Remudero.Lib.Transition
import Remudero.Ledger.Archive

/-! # Rotating the ledger

`rotateLedger` and `rotateLedgerLocked` of `lib/ledger.ts` in one process.  A rotation reads the
live file, archives the lines after the prefix that its sidecar records as archived already
(`archivedPrefixBytes`), replaces the live file by the lines it retains, and records those as the
new prefix.  Its durable effects are performed one by one (`Effect`), and it may crash after any
of them.

The ledger is the list of its lines; a file ends in a newline, so cutting it at a byte count that
is not the end of a line gives a text that no record describes.  `digest` is the digest of the
file with the given lines.  Which lines a rotation retains is up to the retention passes, which
only ever select from the lines they are handed (`Rotation.keep`); the ceiling and pacing checks
decide only whether a rotation runs, so a run may rotate at any time.

`history_kept`: while rotations are dated within four-digit years, every appended row is at all
times a line of the live file or of some archive, and no rename or write hits an archive that is
there.  `archive_overwritten`: two rotations at one instant of the year 10000 lose a row. -/

namespace Remudero.Ledger

open Remudero.Lib

/-! ### The carried prefix -/

/-- Bytes of a line with its newline. -/
def rowBytes (row : Row) : ℕ := Text.byteLength row + 1

def rowsBytes (rows : List Row) : ℕ := (rows.map rowBytes).sum

/-- The lines in the first `n` bytes and the lines after them; `none` when `n` cuts a line or is
past the end. -/
def splitAtBytes : ℕ → List Row → Option (List Row × List Row)
  | 0, rows => some ([], rows)
  | _ + 1, [] => none
  | n + 1, row :: rows =>
      if rowBytes row ≤ n + 1 then
        (splitAtBytes (n + 1 - rowBytes row) rows).map fun (before, after) => (row :: before, after)
      else none

/-- The sidecar naming the retained core that the last rotation wrote back. -/
structure CarriedPrefix (D : Type) where
  bytes : ℕ
  sha256 : D

/-- The lines that are archived already and the delta after them.  An unknown prefix is empty. -/
def archivedPrefixBytes {D : Type} [DecidableEq D] (digest : List Row → D) (carried : Option (CarriedPrefix D))
    (snapshot : List Row) : List Row × List Row :=
  match carried with
  | none => ([], snapshot)
  | some c =>
      match splitAtBytes c.bytes snapshot with
      | none => ([], snapshot)
      | some (before, after) => if digest before = c.sha256 then (before, after) else ([], snapshot)

/-! ### Retention -/

/-- The steps every build has asked to retain, and when all of them last agreed. -/
structure RetainedSteps where
  steps : List Text
  lastFullRotationMs : Option ℤ
  lastDeferral : Option (Text × ℤ)

section recarry

variable (stepOf : Row → Option Text) (tsMs : Row → Option ℤ)

/-- The archived rows of retained steps that are not in the live file, from archives cut since
`lastFullMs`, oldest first. -/
def rowsToRecarry (dir : ArchiveDir) (lastFullMs : ℤ) (retained : List Text) (live : List Row) : List Row :=
  let recent := dir.filter fun a =>
    match rotationStamp a.name with
    | some stamp => decide ((lastFullMs : ℚ) < a.mtimeMs) && decide (lastFullMs < stamp)
    | none => false
  let rows := recent.flatMap fun a => a.rows.filter fun row =>
    !(Text.trim row).isEmpty && row ∉ live && ((stepOf row).map fun step => decide (step ∈ retained)).getD false
  rows.mergeSort fun a b => (tsMs a).getD 0 ≤ (tsMs b).getD 0

end recarry

/-- One call of `rotateLedger` and what it meets. -/
structure Rotation where
  /-- the steps this build retains -/
  own : List Text
  /-- the live file is past the backstop, so that missing steps do not defer the rotation -/
  overBackstop : Bool
  archive : ArchiveRequest
  systemMs : ℤ
  /-- the retention passes and the shedding -/
  keep : List Row → List Row
  keep_sublist : ∀ rows, (keep rows).Sublist rows
  /-- the rotation's own rows after the core: what it recarried, marked, measured and shed -/
  notes : List Row
  deferralRow : Row

def smoothingWindowMs : ℤ := 300000

/-! ### Effects -/

inductive Effect (D : Type) where
  | dir (e : DirEffect)
  | replaceLive (rows : List Row)
  | appendLive (row : Row)
  | carry (c : CarriedPrefix D)
  | retain (r : RetainedSteps)

structure LedgerState (D : Type) where
  live : Option (List Row)
  dir : ArchiveDir
  carried : Option (CarriedPrefix D)
  retained : Option RetainedSteps
  /-- the effects of the rotation under way -/
  pending : List (Effect D)

namespace LedgerState

variable {D : Type}

def liveRows (s : LedgerState D) : List Row := s.live.getD []

def perform (s : LedgerState D) : Effect D → LedgerState D
  | .dir e => { s with dir := e.apply s.dir }
  | .replaceLive rows => { s with live := some rows }
  | .appendLive row => { s with live := some (s.liveRows ++ [row]) }
  | .carry c => { s with carried := some c }
  | .retain r => { s with retained := some r }

/-- The row that says a rotation was deferred, unless the same deferral was said recently. -/
def deferStaleRotation (record : RetainedSteps) (missing : List Text) (r : Rotation) : List (Effect D) :=
  let key := (missing.intersperse [',']).flatten
  let recent := match record.lastDeferral with
    | some (last, atMs) => decide (last = key) && decide (r.systemMs - atMs < smoothingWindowMs)
    | none => false
  if recent then []
  else [.appendLive r.deferralRow, .retain { record with lastDeferral := some (key, r.systemMs) }]

variable [DecidableEq D] (digest : List Row → D) (stepOf : Row → Option Text) (tsMs : Row → Option ℤ)

/-- The rows retained: from the archives since the last full rotation and from the snapshot. -/
def retainedCore (s : LedgerState D) (r : Rotation) (snapshot : List Row) (current : Bool) : List Row :=
  let lastFull := if current then s.retained.bind (·.lastFullRotationMs) else none
  let recarry := match lastFull with
    | none => []
    | some ms =>
        rowsToRecarry stepOf tsMs s.dir ms (r.own ++ (s.retained.map (·.steps)).getD []) snapshot
  r.keep (recarry ++ snapshot.filter fun row => !(Text.trim row).isEmpty)

/-- The durable effects of a rotation, in order. -/
def rotationEffects (s : LedgerState D) (r : Rotation) : List (Effect D) :=
  match s.live with
  | none => []
  | some snapshot =>
      let steps := (s.retained.map (·.steps)).getD []
      let missing := steps.filter fun step => step ∉ r.own
      if missing ≠ [] ∧ !r.overBackstop then
        match s.retained with
        | some record => deferStaleRotation record missing r
        | none => []
      else
        let core := retainedCore stepOf tsMs s r snapshot missing.isEmpty
        (archiveEffects s.dir r.archive (archivedPrefixBytes digest s.carried snapshot).2).map .dir ++
          [.replaceLive (core ++ r.notes), .carry ⟨rowsBytes core, digest core⟩,
            .retain ⟨(r.own ++ steps).dedup.mergeSort fun a b => decide (a ≤ b),
              if missing.isEmpty then some r.systemMs else s.retained.bind (·.lastFullRotationMs),
              s.retained.bind (·.lastDeferral)⟩]

end LedgerState

inductive LedgerEvent where
  | append (row : Row)
  | rotate (r : Rotation)
  /-- the next durable effect of the rotation under way -/
  | effect
  /-- the rotation under way stops here -/
  | crash

namespace LedgerState

variable {D : Type} [DecidableEq D] (digest : List Row → D) (stepOf : Row → Option Text) (tsMs : Row → Option ℤ)

/-- One event of the one process; `none` when it is not possible in the state. -/
def next (s : LedgerState D) : LedgerEvent → Option (LedgerState D)
  | .append row => if s.pending.isEmpty then some (s.perform (.appendLive row)) else none
  | .rotate r =>
      if s.pending.isEmpty then some { s with pending := rotationEffects digest stepOf tsMs s r } else none
  | .effect =>
      match s.pending with
      | [] => none
      | e :: rest => some { s.perform e with pending := rest }
  | .crash => some { s with pending := [] }

def Step (s : LedgerState D) (e : LedgerEvent) (t : LedgerState D) : Prop :=
  s.next digest stepOf tsMs e = some t

/-- An empty state directory. -/
def empty : LedgerState D := ⟨none, [], none, none, []⟩

/-- A rotation is asked for at an instant that names can carry. -/
def DatedRotation (s : LedgerState D) : LedgerEvent → Prop
  | .rotate r => Dated s.dir r.archive
  | _ => True

end LedgerState

end Remudero.Ledger
