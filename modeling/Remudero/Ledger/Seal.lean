import Remudero.Lib.Blocks
import Remudero.Lib.Json
import Remudero.Ledger.Rotation

/-! # Appenders against the rotation

`appendLedger` and `rotateLedgerLocked` of `lib/ledger.ts` as interleaved system calls.  The path of
the ledger names one inode at a time; an appender keeps the inode it opened, so it may write to
one that a rotation has replaced meanwhile.

* An appender opens the path, writes its row in one call, maybe writes a second row that flags a
  time stamp in the future, and then looks behind the rotation seal of its inode
  (`rowsBehindRotationSeal`): rows behind it are appended to the path again, as one block, until
  they are not behind a seal (`reappendBehindSeal`).
* A rotation reads a snapshot, archives the delta, reads what was appended meanwhile, renames the
  new file over the path, writes its seal to the replaced inode, and copies the rows between what it
  read and the seal to the new file (`drainReplacedInode`).

Every write appends whole lines, and the text of a JSON object does not end in the text of another,
so positions are counted in lines.  The lock admits one rotation at a time.  The file is there and
empty at first, as the first `open` would create it.

`append_once`: when no row carries the text of the seal's mark, once all calls have returned every
row is in the live file or archived, and no row is twice in the live file.  `marked_row_doubles`:
a row that carries it makes another row appear twice. -/

namespace Remudero.Ledger

open Remudero.Lib

/-! ### The seal -/

def rotationSealMark : Text := "\"step\":\"ledger.rotation_sealed\"".toList

/-- The line carries the mark by which appenders find the seal. -/
def marked (row : Row) : Bool := Text.contains row rotationSealMark

/-- A row of the rotation itself. -/
def rotationRow (step nowIso host : Text) (fields : List (Text × Json)) : Row :=
  Json.stringify (.obj ([("ts".toList, .str nowIso), ("run_id".toList, .str "ledger-rotation".toList),
    ("task_id".toList, .str "_ledger".toList), ("step".toList, .str step), ("host".toList, .str host)] ++ fields))

/-- The seal of a rotation, with the nonce that makes it unique. -/
def sealRow (nowIso host nonce : Text) : Row :=
  rotationRow "ledger.rotation_sealed".toList nowIso host [("nonce".toList, .str nonce)]

/-! ### Program counters -/

/-- Where an appender is. -/
inductive AppendPc where
  | idle
  /-- called with a row, and with the flag it will find due -/
  | opening (row : Row) (flag : Option Row)
  | opened (ino : ℕ) (row : Row) (flag : Option Row)
  /-- the row is written, the flag is not -/
  | wrote (ino : ℕ) (row : Row) (flag : Option Row)
  /-- about to look behind the seal -/
  | checking (ino : ℕ) (blocks : List (List Row))
  | reopening (block : List Row)
  | reopened (ino : ℕ) (block : List Row)
deriving DecidableEq

/-- What a rotation knows from its snapshot on. -/
structure RotateJob where
  rotation : Rotation
  sealLine : Row
  /-- the identity of the file it read -/
  ino : ℕ
  snapshot : List Row

/-- Where the rotation that has the lock is. -/
inductive RotatePc where
  | idle
  | snapshotted (job : RotateJob)
  /-- the delta is archived and the core chosen -/
  | archived (job : RotateJob) (core : List Row)
  /-- the new file is staged, with the lines read after the snapshot -/
  | staged (job : RotateJob) (core tail : List Row)
  /-- the path still has the identity of the snapshot -/
  | confirmed (job : RotateJob) (core tail : List Row)
  | renamed (job : RotateJob) (core : List Row) (drainFrom : ℕ)
  | sealed (job : RotateJob) (core : List Row) (drainFrom : ℕ)
  /-- the rows before the seal are read -/
  | drained (job : RotateJob) (core rows : List Row)
  | appended (job : RotateJob) (core : List Row)

structure SealState (D : Type) where
  inodes : ℕ → List Row
  /-- inodes made so far -/
  made : ℕ
  /-- the inode that the path names -/
  live : ℕ
  dir : ArchiveDir
  carried : Option (CarriedPrefix D)
  retained : Option RetainedSteps
  appenders : ℕ → AppendPc
  rotator : RotatePc

inductive SealEvent where
  /-- an appender calls `appendLedger` -/
  | append (a : ℕ) (row : Row) (flag : Option Row)
  /-- the next system call of an appender -/
  | advance (a : ℕ)
  /-- some process takes the lock and starts to rotate -/
  | rotate (r : Rotation) (nowIso host nonce : Text)
  /-- the next step of the rotation -/
  | advanceRotation

namespace SealState

variable {D : Type}

def liveLines (s : SealState D) : List Row := s.inodes s.live

/-- One `O_APPEND` write of whole lines. -/
def write (s : SealState D) (ino : ℕ) (rows : List Row) : SealState D :=
  { s with inodes := Function.update s.inodes ino (s.inodes ino ++ rows) }

def setPc (s : SealState D) (a : ℕ) (pc : AppendPc) : SealState D :=
  { s with appenders := Function.update s.appenders a pc }

/-- The durable effects of a rotation, on inodes. -/
def perform (s : SealState D) : Effect D → SealState D
  | .dir e => { s with dir := e.apply s.dir }
  | .replaceLive rows =>
      { s with inodes := Function.update s.inodes s.made rows, made := s.made + 1, live := s.made }
  | .appendLive row => s.write s.live [row]
  | .carry c => { s with carried := some c }
  | .retain r => { s with retained := some r }

/-- What a process that reads the directory sees. -/
def ledger (s : SealState D) : LedgerState D := ⟨some s.liveLines, s.dir, s.carried, s.retained, []⟩

/-! ### Appending -/

/-- The blocks that stand behind a seal of an inode that has no name any more. -/
def rowsBehindRotationSeal (s : SealState D) (ino : ℕ) (blocks : List (List Row)) : List (List Row) :=
  if ino = s.live then [] else behindFirst marked (s.inodes ino) blocks

/-- The next system call of the appender `a`. -/
def nextAppend (s : SealState D) (a : ℕ) : Option (SealState D) :=
  match s.appenders a with
  | .idle => none
  | .opening row flag => some (s.setPc a (.opened s.live row flag))
  | .opened ino row flag => some ((s.write ino [row]).setPc a (.wrote ino row flag))
  | .wrote ino row none => some (s.setPc a (.checking ino [[row]]))
  | .wrote ino row (some flag) => some ((s.write ino [flag]).setPc a (.checking ino [[row], [flag]]))
  | .checking ino blocks =>
      let behind := s.rowsBehindRotationSeal ino blocks
      some (s.setPc a (if behind.isEmpty then .idle else .reopening behind.flatten))
  | .reopening block => some (s.setPc a (.reopened s.live block))
  | .reopened ino block => some ((s.write ino block).setPc a (.checking ino [block]))

/-! ### Rotating -/

def missingSteps (s : SealState D) (r : Rotation) : List Text :=
  ((s.retained.map (·.steps)).getD []).filter fun step => step ∉ r.own

variable [DecidableEq D] (digest : List Row → D) (stepOf : Row → Option Text) (tsMs : Row → Option ℤ)

/-- A rotation with the lock either defers to a newer build or reads its snapshot. -/
def nextRotate (s : SealState D) (r : Rotation) (sealLine : Row) : SealState D :=
  let missing := s.missingSteps r
  if missing ≠ [] ∧ !r.overBackstop then
    match s.retained with
    | some record => (LedgerState.deferStaleRotation record missing r).foldl perform s
    | none => s
  else { s with rotator := .snapshotted ⟨r, sealLine, s.live, s.liveLines⟩ }

/-- The next step of the rotation. -/
def nextRotation (s : SealState D) : Option (SealState D) :=
  match s.rotator with
  | .idle => none
  | .snapshotted job =>
      let r := job.rotation
      let core := LedgerState.retainedCore stepOf tsMs s.ledger r job.snapshot (s.missingSteps r).isEmpty
      let delta := (archivedPrefixBytes digest s.carried job.snapshot).2
      some { s with
        dir := (archiveEffects s.dir r.archive delta).foldl DirEffect.apply s.dir
        rotator := .archived job core }
  | .archived job core =>
      some { s with rotator := .staged job core (s.liveLines.drop job.snapshot.length) }
  | .staged job core tail =>
      some { s with rotator := if s.live = job.ino then .confirmed job core tail else .idle }
  | .confirmed job core tail =>
      some { s.perform (.replaceLive (core ++ job.rotation.notes ++ tail)) with
        rotator := .renamed job core (job.snapshot.length + tail.length) }
  | .renamed job core drainFrom =>
      some { s.write job.ino [job.sealLine] with rotator := .sealed job core drainFrom }
  | .sealed job core drainFrom =>
      let view := (s.inodes job.ino).drop drainFrom
      some { s with rotator := .drained job core (view.takeWhile fun row => row ≠ job.sealLine) }
  | .drained job core rows =>
      some { s.write s.live rows with rotator := .appended job core }
  | .appended job core =>
      let r := job.rotation
      let steps := (s.retained.map (·.steps)).getD []
      let s' := (s.perform (.carry ⟨rowsBytes core, digest core⟩)).perform
        (.retain ⟨(r.own ++ steps).dedup.mergeSort fun a b => decide (a ≤ b),
          if (s.missingSteps r).isEmpty then some r.systemMs else s.retained.bind (·.lastFullRotationMs),
          s.retained.bind (·.lastDeferral)⟩)
      some { s' with rotator := .idle }

def next (s : SealState D) : SealEvent → Option (SealState D)
  | .append a row flag =>
      match s.appenders a with
      | .idle => some (s.setPc a (.opening row flag))
      | _ => none
  | .advance a => s.nextAppend a
  | .rotate r nowIso host nonce =>
      match s.rotator with
      | .idle => some (s.nextRotate r (sealRow nowIso host nonce))
      | _ => none
  | .advanceRotation => s.nextRotation digest stepOf tsMs

def Step (s : SealState D) (e : SealEvent) (t : SealState D) : Prop :=
  s.next digest stepOf tsMs e = some t

/-- An empty ledger and nobody at work. -/
def start : SealState D := ⟨fun _ => [], 1, 0, [], none, none, fun _ => .idle, .idle⟩

/-- Every call has returned. -/
def Quiet (s : SealState D) : Prop := (∀ a, s.appenders a = .idle) ∧ s.rotator = .idle

end SealState

/-! ### The rows of a run -/

/-- The rows handed to `appendLedger`, and the flags it adds. -/
def handed (es : List SealEvent) : List Row :=
  es.flatMap fun
    | .append _ row flag => row :: flag.toList
    | _ => []

/-- The rows that rotations add of their own. -/
def noted (es : List SealEvent) : List Row :=
  es.flatMap fun
    | .rotate r _ _ _ => r.deferralRow :: r.notes
    | _ => []

/-- The rows of a run are pairwise distinct as lines. -/
structure Distinct (es : List SealEvent) : Prop where
  nodup : (handed es).Nodup
  notes : ∀ row ∈ noted es, row ∉ handed es

/-- No row carries the mark of a seal, and rotations are dated. -/
def Unmarked {D : Type} (s : SealState D) : SealEvent → Prop
  | .append _ row flag => ∀ row' ∈ row :: flag.toList, marked row' = false
  | .rotate r _ _ _ => Dated s.dir r.archive ∧ ∀ row ∈ r.deferralRow :: r.notes, marked row = false
  | _ => True

end Remudero.Ledger
