import Remudero.Lib.Transition
import Remudero.Lock.Holder

/-! # Processes racing for a file lock

`acquireInflightLock` and `acquireDrainLock` differ in the record they write and the texts they
take for a holder (`LockKind`); both create the lock exclusively and clear a stale one through
`reclaimStaleLock` of `lib/fs-race-safe.ts`.  Any number of processes of one host run them on one
path.  One event is one system call, so a run is an arbitrary interleaving:

* `opening`, `writing`: the exclusive create and the write of the record;
* `readOpening`, `reading`, `judging`: the first read, through one descriptor, and the verdict;
* `stating`, `reopening`, `rereading`, `unlinking`: the check of the path's identity and bytes
  against what was judged, then the delete;
* `holding`, `releasing`: the handle, and `release` after it has marked itself released.

Inodes are numbered and never reused.  A process may die at any point; its lock stays behind.

The file holds the step function and `Raced`, the two windows in which a delete can hit a lock
that is not the one judged; `LockSafety.lean` proves mutual exclusion outside them. -/

namespace Remudero.Lock

open Remudero.Lib

/-- Where a process stands; the inode a descriptor or a stat answered is kept with it. -/
inductive Pc where
  | idle
  | opening
  | writing (ino : ℕ)
  | readOpening
  | reading (ino : ℕ)
  | judging (ino : ℕ) (raw : LockText)
  | stating (ino : ℕ) (raw : LockText)
  | reopening (ino : ℕ) (raw : LockText) (statIno : ℕ)
  | rereading (ino : ℕ) (raw : LockText) (statIno fd : ℕ)
  | unlinking (ino : ℕ) (raw : LockText)
  | holding (ino : ℕ)
  | releasing (ino : ℕ)
deriving DecidableEq, Repr

namespace Pc

/-- The inode the process created and has not removed. -/
def held : Pc → Option ℕ
  | .writing i | .holding i | .releasing i => some i
  | _ => none

/-- The inode whose record the process wrote. -/
def written : Pc → Option ℕ
  | .holding i | .releasing i => some i
  | _ => none

/-- The inode behind the descriptor of the first read. -/
def readIno : Pc → Option ℕ
  | .reading i | .judging i _ | .stating i _ | .reopening i _ _ | .rereading i _ _ _ | .unlinking i _ => some i
  | _ => none

/-- The inode and the text of the first read. -/
def read : Pc → Option (ℕ × LockText)
  | .judging i raw | .stating i raw | .reopening i raw _ | .rereading i raw _ _ | .unlinking i raw => some (i, raw)
  | _ => none

/-- The inode and the text once they were judged reclaimable. -/
def cleared : Pc → Option (ℕ × LockText)
  | .stating i raw | .reopening i raw _ | .rereading i raw _ _ | .unlinking i raw => some (i, raw)
  | _ => none

end Pc

/-- The host the processes run on. -/
structure Machine (P : Type) where
  kind : LockKind
  host : Text
  process : P → Running
  dateParse : Text → Option ℤ

/-- The lock path and the processes. -/
structure LockState (P : Type) where
  path : Option ℕ
  files : ℕ → LockText
  nextIno : ℕ
  alive : P → Bool
  pc : P → Pc
  /-- the record of the attempt under way -/
  info : P → LockInfo
  /-- `opts.reclaim` of the attempt under way -/
  reclaim : P → Bool

inductive LockEvent (P : Type) where
  | acquire (p : P) (info : LockInfo) (reclaim : Bool)
  | syscall (p : P)
  | judge (p : P) (probes : Probes)
  | release (p : P)
  | crash (p : P)

namespace LockState

variable {P : Type} [DecidableEq P]

def setPc (s : LockState P) (p : P) (c : Pc) : LockState P :=
  { s with pc := Function.update s.pc p c }

/-- The next system call of `p`. -/
def syscall (m : Machine P) (s : LockState P) (p : P) : Option (LockState P) :=
  match s.pc p with
  | .opening =>
      match s.path with
      | none =>
          some { s.setPc p (.writing s.nextIno) with
            path := some s.nextIno
            files := Function.update s.files s.nextIno .blank
            nextIno := s.nextIno + 1 }
      | some _ => some (s.setPc p (if s.reclaim p then .readOpening else .idle))
  | .writing i =>
      some { s.setPc p (.holding i) with
        files := Function.update s.files i (m.kind.record (s.info p)) }
  | .readOpening =>
      match s.path with
      | none => some (s.setPc p .opening)
      | some i => some (s.setPc p (.reading i))
  | .reading i => some (s.setPc p (.judging i (s.files i)))
  | .stating i raw =>
      match s.path with
      | none => some (s.setPc p .opening)
      | some j => some (s.setPc p (.reopening i raw j))
  | .reopening i raw j =>
      match s.path with
      | none => some (s.setPc p .opening)
      | some k => some (s.setPc p (.rereading i raw j k))
  | .rereading i raw j k =>
      if j ≠ i ∨ s.files k ≠ raw then some (s.setPc p .opening) else some (s.setPc p (.unlinking i raw))
  | .unlinking _ _ =>
      -- whether the unlink found a file or not, the caller tries the create again
      some { s.setPc p .opening with path := none }
  | .releasing _ => some { s.setPc p .idle with path := none }
  | _ => none

/-- One event; `none` when it is not possible in the state. -/
def next (m : Machine P) (s : LockState P) : LockEvent P → Option (LockState P)
  | .acquire p info reclaim =>
      if s.alive p ∧ s.pc p = .idle then
        some { s.setPc p .opening with
          info := Function.update s.info p info
          reclaim := Function.update s.reclaim p reclaim }
      else none
  | .syscall p => if s.alive p then s.syscall m p else none
  | .judge p probes =>
      if s.alive p then
        match s.pc p with
        | .judging i raw =>
            match m.kind.parseHolder raw with
            | some held =>
                -- a live holder makes the acquire throw
                if isHolderStale m.dateParse held probes then some (s.setPc p (.stating i raw))
                else some (s.setPc p .idle)
            | none => some (s.setPc p (.stating i raw))
        | _ => none
      else none
  | .release p =>
      if s.alive p then
        match s.pc p with
        | .holding i => some (s.setPc p (.releasing i))
        | _ => none
      else none
  | .crash p => if s.alive p then some { s with alive := Function.update s.alive p false } else none

/-- The environment of an event: a process records itself, and the probes of a judge are asked
on this host and see every process that is alive. -/
def Environment (m : Machine P) (s : LockState P) : LockEvent P → Prop
  | .acquire p info _ => info.Of m.dateParse (m.process p) m.host
  | .judge _ probes => probes.hostname = m.host ∧ ∀ q, s.alive q = true → probes.See (m.process q)
  | _ => True

/-- The steps of the processes. -/
def Step (m : Machine P) (s : LockState P) (e : LockEvent P) (t : LockState P) : Prop :=
  s.next m e = some t ∧ Environment m s e

/-- Nobody is acquiring yet; the path may name a file left behind by an earlier process. -/
def start (path : Option LockText) (info : P → LockInfo) : LockState P where
  path := path.map fun _ => 0
  files := fun _ => path.getD .blank
  nextIno := 1
  alive := fun _ => true
  pc := fun _ => .idle
  info := info
  reclaim := fun _ => true

/-- `p` is alive and has an unreleased handle. -/
def Holds (s : LockState P) (p : P) : Prop := s.alive p = true ∧ ∃ i, s.pc p = .holding i

/-- `p` is alive and its own file is the inode `i`, created and not yet removed. -/
def Owns (s : LockState P) (p : P) (i : ℕ) : Prop := s.alive p = true ∧ (s.pc p).held = some i

/-- The event is the delete of a reclaim, in one of its two windows: the path was given to
another live process after the identity check, or the text that was judged named no holder
because the live process that created the file had not written its record yet. -/
def Raced (m : Machine P) (s : LockState P) : LockEvent P → Prop
  | .syscall p => ∃ i raw, s.pc p = .unlinking i raw ∧
      ((∃ q j, s.path = some j ∧ j ≠ i ∧ s.Owns q j) ∨
        (m.kind.parseHolder raw = none ∧ ∃ q, s.Owns q i))
  | _ => False

end LockState

end Remudero.Lock
