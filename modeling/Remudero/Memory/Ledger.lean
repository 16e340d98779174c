import Remudero.Lib.FirstSeen
import Remudero.Lib.Transition

/-! # The memory reservation ledger

`openMemoryReservation`, the handle's `bindRoot` and `releaseOccupancy`, and
`sweepMemoryReservations` of `lib/host-memory-ledger.ts`, for the processes of one container.

What is recorded for an entry stands in three places: the handle's copy, the copy of the process that
opened it, and the file.  A bind or a release writes the handle's copy over the process's one and
merges it into the file (`mergeAndPersist`); a sweep merges the file and the process's copy
(`mergeOwnedCopy`), walks the descendants, and keeps or releases the entry (`sweepEntry`).

The container id is the same for all of them, so that a generation is what the probe of pid 1 gave:
its start time, or `none` for `"unknown"`.  Estimates, instance names and `verifiedAt` decide nothing
here and are left out, and so is a file that cannot be parsed.  `releaseOccupancy` ends with a sweep
under the handle's generation, which is a sweep like any other. -/

namespace Remudero.Memory.Ledger

open Remudero.Lib

/-- A process: its pid, and its start time where it could be read. -/
structure Identity where
  pid : ℕ
  start : Option ℕ
deriving DecidableEq

inductive Probe
  | alive (start : ℕ)
  | gone
  | unknown
deriving DecidableEq

/-- A line of the process listing. -/
structure Row where
  pid : ℕ
  parent : ℕ
  start : ℕ

structure Walk where
  time : ℕ
  complete : Bool
deriving DecidableEq

inductive Hold
  | incompleteWalk
  | identityUnreadable
deriving DecidableEq

structure Entry where
  generation : Option ℕ
  owner : Identity
  occupancyReleased : Bool
  roots : List Identity
  tree : List Identity
  walk : Option Walk
  hold : Option Hold
deriving DecidableEq

/-- What a sweep reads, and the process that makes it. -/
structure Ctx (P : Type*) where
  process : P
  generation : Option ℕ
  /-- The sentinel was there all the time. -/
  mayRelease : Bool
  probe : ℕ → Probe
  rows : List Row
  complete : Bool
  now : ℕ

/-! ### Identities and walks -/

/-- `union`, each identity once. -/
def union (left right : List Identity) : List Identity := firstSeen some [] (left ++ right)

/-- `identityState`. -/
def identityState (probe : ℕ → Probe) (i : Identity) : Probe :=
  match probe i.pid with
  | .gone => .gone
  | .unknown => .unknown
  | .alive start =>
      match i.start with
      | none => .unknown
      | some s => if start = s then .alive start else .gone

/-- The process of a row. -/
def Row.identity (r : Row) : Identity := ⟨r.pid, some r.start⟩

/-- The queue of `walkDescendants`; a row is added once, so that it is empty before the fuel is. -/
def walkQueue (rows : List Row) :
    ℕ → List ℕ → List Identity → List Identity → List Identity
  | 0, _, _, added => added
  | _, [], _, added => added
  | fuel + 1, pid :: queue, known, added =>
      let children := (rows.filter fun r => r.parent = pid).map Row.identity
      let fresh := firstSeen some known children
      walkQueue rows fuel (queue ++ fresh.map Identity.pid) (known ++ fresh) (added ++ fresh)

/-- The last row of a pid. -/
def rowOf (rows : List Row) (pid : ℕ) : Option Row := rows.reverse.find? fun r => r.pid = pid

/-- The descendants of the live identities of a tree that are not in it yet. -/
def walkDescendants (tree : List Identity) (rows : List Row) : List Identity :=
  let queue := (tree.filter fun i => (rowOf rows i.pid).any fun r => some r.start = i.start).map
    Identity.pid
  walkQueue rows (queue.length + rows.length) queue tree []

/-! ### Copies -/

/-- A walk of the entry was incomplete, as its record shows. -/
def Entry.marked (e : Entry) : Bool :=
  e.walk.any (fun w => !w.complete) || e.hold = some .incompleteWalk

/-- `mergeAndPersist`: what is written over a file, where there is one. -/
def mergeAndPersist (entry : Entry) : Option Entry → Entry
  | none => entry
  | some disk =>
      { entry with
        roots := union disk.roots entry.roots
        tree := union disk.tree entry.tree
        walk := disk.walk
        hold := disk.hold.or entry.hold }

/-- The file's walk is the later one. -/
def laterWalk (disk memory : Option Walk) : Option Walk :=
  match disk, memory with
  | some d, some m => if m.time < d.time then some d else some m
  | some d, none => some d
  | none, m => m

/-- `mergeOwnedCopy`. -/
def mergeOwnedCopy (disk memory : Entry) : Entry :=
  { memory with
    occupancyReleased := disk.occupancyReleased || memory.occupancyReleased
    roots := union disk.roots memory.roots
    tree := union disk.tree memory.tree
    walk := laterWalk disk.walk memory.walk
    hold := memory.hold.or disk.hold }

/-- `includeOwnCopies` for one entry. -/
def copyOf : Option Entry → Option Entry → Option Entry
  | some disk, some memory => some (mergeOwnedCopy disk memory)
  | some disk, none => some disk
  | none, memory => memory

/-! ### Sweeping -/

inductive Rule
  | generationEnded
  | neverSpawned
  | treeGone
deriving DecidableEq

inductive Judged
  | release (rule : Rule)
  | keep (entry : Entry)
deriving DecidableEq

variable {P : Type*}

/-- The occupancy was released, or its owner is gone. -/
def occupancyOver (c : Ctx P) (e : Entry) : Bool :=
  e.occupancyReleased || identityState c.probe e.owner = .gone

/-- `judgeOwned`. -/
def judgeOwned (c : Ctx P) (e : Entry) : Judged :=
  let tree := union e.tree (walkDescendants e.tree c.rows)
  let walked := { e with tree := tree, walk := some ⟨c.now, c.complete⟩, hold := none }
  if e.roots ≠ [] ∧ (c.complete = false ∨ e.marked = true) then
    .keep { walked with hold := some .incompleteWalk }
  else if ¬ occupancyOver c e then .keep walked
  else if e.roots = [] then .release .neverSpawned
  else if tree.any (fun i => identityState c.probe i = .unknown) then
    .keep { walked with hold := some .identityUnreadable }
  else if tree.all (fun i => identityState c.probe i = .gone) then .release .treeGone
  else .keep walked

/-- What a sweep does with an entry. -/
def sweepEntry (c : Ctx P) (e : Entry) : Judged :=
  if e.generation ≠ c.generation then
    if c.mayRelease then .release .generationEnded else .keep e
  else match judgeOwned c e with
  | .release r => if c.mayRelease then .release r else .keep e
  | .keep k => .keep k

/-! ### The processes of a container -/

structure Store (P : Type*) where
  /-- The start time of the live process of a pid. -/
  table : ℕ → Option ℕ
  disk : ℕ → Option Entry
  /-- The process that opened an entry, and its handle's copy. -/
  handle : ℕ → Option (P × Entry)
  own : P → ℕ → Option Entry
  /-- What binds and sweeps have recorded for an entry since it was last released. -/
  recorded : ℕ → List Identity
  /-- One of its walks was incomplete. -/
  missed : ℕ → Bool

def Store.init (P : Type*) : Store P :=
  ⟨fun _ => none, fun _ => none, fun _ => none, fun _ _ => none, fun _ => [], fun _ => false⟩

inductive Event (P : Type*)
  | opening (p : P) (id : ℕ) (generation : Option ℕ) (owner : Identity)
  | bindRoot (id pid : ℕ) (probed : Probe)
  | releaseOccupancy (id : ℕ)
  | sweep (c : Ctx P)
  /-- The file of an entry is lost. -/
  | lose (id : ℕ)
  /-- Processes are forked, exit, and reuse pids. -/
  | processes (table : ℕ → Option ℕ)
  /-- A process ends, with its copies. -/
  | exit (p : P)

/-- A new entry. -/
def Entry.opened (generation : Option ℕ) (owner : Identity) : Entry :=
  ⟨generation, owner, false, [], [], none, none⟩

/-- The entry with a root bound. -/
def Entry.bound (e : Entry) (i : Identity) : Entry :=
  { e with roots := union e.roots [i], tree := union e.tree [i] }

/-- The identity that a bind records; `none` where the process is gone already. -/
def bindIdentity (pid : ℕ) : Probe → Option Identity
  | .gone => none
  | .alive start => some ⟨pid, some start⟩
  | .unknown => some ⟨pid, none⟩

variable [DecidableEq P]

/-- A handle's new copy goes over the process's one and into the file. -/
def Store.write (s : Store P) (p : P) (id : ℕ) (e : Entry) : Store P :=
  { s with
    handle := Function.update s.handle id (some (p, e))
    own := Function.update s.own p (Function.update (s.own p) id (some e))
    disk := Function.update s.disk id (some (mergeAndPersist e (s.disk id))) }

/-- The copy that a sweep judges. -/
def Store.copy (s : Store P) (c : Ctx P) (id : ℕ) : Option Entry := copyOf (s.disk id) (s.own c.process id)

/-- What a sweep decides for an entry. -/
def Store.swept (s : Store P) (c : Ctx P) (id : ℕ) : Option Judged := (s.copy c id).map (sweepEntry c)

/-- The entry that is kept. -/
def Judged.kept : Judged → Option Entry
  | release _ => none
  | keep e => some e

/-- A sweep records the tree that it writes.  A release ends what is recorded for the entry. -/
def Store.sweep (s : Store P) (c : Ctx P) : Store P :=
  { s with
    disk := fun id => (s.swept c id).bind Judged.kept
    own := Function.update s.own c.process fun id =>
      if (s.own c.process id).isSome then (s.swept c id).bind Judged.kept else none
    recorded := fun id =>
      match s.copy c id with
      | none => s.recorded id
      | some e =>
          match sweepEntry c e with
          | .release _ => []
          | .keep k => s.recorded id ++ k.tree
    missed := fun id =>
      match s.copy c id with
      | none => s.missed id
      | some e =>
          match sweepEntry c e with
          | .release _ => false
          | .keep _ => s.missed id || (e.generation = c.generation && !c.complete) }

/-- A probe tells the truth, where it tells anything. -/
def Truthful (table : ℕ → Option ℕ) (probe : ℕ → Probe) : Prop :=
  ∀ pid, (probe pid = .gone → table pid = none) ∧ ∀ st, probe pid = .alive st → table pid = some st

inductive Step : Store P → Event P → Store P → Prop
  -- the id of an entry is new
  | opening {s p id g o} : s.handle id = none → s.disk id = none → (∀ q, s.own q id = none) →
      Step s (.opening p id g o)
        { s.write p id (Entry.opened g o) with
          recorded := Function.update s.recorded id []
          missed := Function.update s.missed id false }
  | bindGone {s id pid} : Step s (.bindRoot id pid .gone) s
  | bindRoot {s p id pid probed e i} : s.handle id = some (p, e) → bindIdentity pid probed = some i →
      Step s (.bindRoot id pid probed)
        { s.write p id (e.bound i) with
          recorded := Function.update s.recorded id (s.recorded id ++ [i]) }
  | releaseOccupancy {s p id e} : s.handle id = some (p, e) →
      Step s (.releaseOccupancy id) (s.write p id { e with occupancyReleased := true })
  | sweep {s c} : Truthful s.table c.probe → Step s (.sweep c) (s.sweep c)
  | lose {s id} : Step s (.lose id) { s with disk := Function.update s.disk id none }
  | processes {s table} : Step s (.processes table) { s with table := table }
  | exit {s p} : Step s (.exit p)
      { s with
        own := Function.update s.own p fun _ => none
        handle := fun id => (s.handle id).filter fun h => h.1 ≠ p }

end Remudero.Memory.Ledger
