import Remudero.Lib.Closure
import Remudero.Plan.Task

/-! # Merging plan blobs

`mergePlanBlobsQuarantiningDuplicates` of `lib/plan.ts` without its cache.  The first blob is the
monolith, whose errors are fatal; a shard that does not parse is recorded by `invalidShard` under
the ids that a scan of its text finds.  `quarantineDuplicates` holds out repeated ids, the ids
recorded for shards that do not parse and, pass after pass, every task that depends on a held id;
`validatedPlan` then checks the references of what is left.

A JavaScript `Map` is a list of its entries in insertion order. -/

namespace Remudero.Plans

open Remudero.Lib

structure Blob where
  label : Text
  text : Text

inductive QuarantineReason where
  | duplicateId | dependsOnQuarantined | shardInvalid
deriving DecidableEq, Repr

structure QuarantinedTask where
  id : Key
  files : List Text
  reason : QuarantineReason
  error : Option Text

structure Plan where
  tasks : List Task

/-- `byId.has(id)`. -/
def Plan.has (plan : Plan) (id : Key) : Bool := plan.tasks.any fun t => t.key = id

/-! ### Shards that do not parse -/

/-- `- +id: *["']?([^\s"'#]+)` at the start of a line. -/
def scanLine (line : Text) : Option Text :=
  match line with
  | '-' :: ' ' :: rest =>
      match rest.dropWhile (· == ' ') with
      | 'i' :: 'd' :: ':' :: rest =>
          let rest := rest.dropWhile (· == ' ')
          let rest := match rest with
            | '"' :: rest | '\'' :: rest => rest
            | rest => rest
          let id := rest.takeWhile fun c => !Text.jsSpace c && c != '"' && c != '\'' && c != '#'
          if id.isEmpty then none else some id
      | _ => none
  | _ => none

/-- The ids a scan of the text finds, each once. -/
def scanIds (text : Text) : List Text :=
  ((Text.splitBy Text.lineTerminator text).filterMap scanLine).foldl
    (fun ids id => if id ∈ ids then ids else ids ++ [id]) []

/-- What is recorded for a shard that does not parse: its scanned ids, or else its label. -/
def invalidShard (label : Text) (err : PlanError) (text : Text) : List QuarantinedTask :=
  let ids := scanIds text
  (if ids.isEmpty then [label] else ids).map fun id => ⟨.str id, [label], .shardInvalid, some err.message⟩

/-! ### Merging -/

/-- The tasks so far, where each id was first seen, the repeated ids with their files, and the
shards that did not parse. -/
structure MergeState where
  tasks : List Task := []
  labelOf : List (Key × Text) := []
  duplicates : List (Key × List Text) := []
  invalid : List QuarantinedTask := []

namespace MergeState

def recordDuplicate (s : MergeState) (id : Key) (earlier later : Text) : MergeState :=
  let add := fun (files : List Text) => if later ∈ files then files else files ++ [later]
  { s with
    duplicates :=
      if s.duplicates.any (fun d => d.1 = id) then
        s.duplicates.map fun d => if d.1 = id then (d.1, add d.2) else d
      else s.duplicates ++ [(id, add [earlier])] }

/-- Take a task of the blob `label`, unless its id was seen before. -/
def addTask (label : Text) (s : MergeState) (t : Task) : MergeState :=
  match s.labelOf.find? fun p => p.1 = t.key with
  | some p => s.recordDuplicate t.key p.2 label
  | none => { s with tasks := s.tasks ++ [t], labelOf := s.labelOf ++ [(t.key, label)] }

end MergeState

section merge

variable (parseYaml : Text → Except Text Yaml) (regExpError : Text → Option Text)

/-- One blob; only a `fatal` one throws. -/
def mergeBlob (fatal : Bool) (s : MergeState) (b : Blob) : Except PlanError MergeState :=
  let (repeated, parsed) := parseTasksFromYaml parseYaml regExpError b.text b.label
  let s := repeated.foldl (fun s id => s.recordDuplicate id b.label b.label) s
  match parsed with
  | .ok tasks => .ok (tasks.foldl (MergeState.addTask b.label) s)
  | .error err =>
      if fatal then .error err
      else .ok { s with invalid := s.invalid ++ invalidShard b.label err b.text }

def mergeBlobTasks : List Blob → Except PlanError MergeState
  | [] => .ok {}
  | monolith :: shards => do
      let s ← mergeBlob parseYaml regExpError true {} monolith
      shards.foldlM (mergeBlob parseYaml regExpError false) s

def assertDependsOnResolves (plan : Plan) (t : Task) : Except PlanError Unit :=
  t.dependsOn.forM fun dep =>
    if plan.has dep.key then .ok ()
    else throwPlan ["task ".toList, t.id.shown, ": depends_on unknown task '".toList, dep.shown, ['\'']]

def assertSupersededByResolves (plan : Plan) (t : Task) : Except PlanError Unit :=
  match t.supersededBy with
  | none => .ok ()
  | some s =>
      if plan.has (.str s) then .ok ()
      else throwPlan ["task ".toList, t.id.shown, ": superseded_by unknown task '".toList, s, ['\'']]

/-- Every reference must resolve within the tasks. -/
def validatedPlan (tasks : List Task) : Except PlanError Plan := do
  tasks.forM fun t => do
    assertDependsOnResolves ⟨tasks⟩ t
    assertSupersededByResolves ⟨tasks⟩ t
  return ⟨tasks⟩

def quarantineDuplicates (all : List Task) (duplicates : List (Key × List Text)) (fallbackPath : Text)
    (invalid : List QuarantinedTask) : Except PlanError (Plan × List QuarantinedTask) :=
  if duplicates.isEmpty && invalid.isEmpty then (validatedPlan all).map fun plan => (plan, [])
  else
    let roots := duplicates.map (·.1) ++ invalid.map (·.id)
    let (held, added) := close Task.key Task.uses all (all.length + 1) roots
    let quarantined :=
      (duplicates.map fun d => ⟨d.1, d.2, .duplicateId, none⟩) ++ invalid ++
        added.map fun t => ⟨t.key, [t.sourcePath.getD fallbackPath], .dependsOnQuarantined, none⟩
    (validatedPlan (all.filter fun t => t.key ∉ held)).map fun plan => (plan, quarantined)

def mergePlanBlobsQuarantiningDuplicates (blobs : List Blob) :
    Except PlanError (Plan × List QuarantinedTask) := do
  let s ← mergeBlobTasks parseYaml regExpError blobs
  quarantineDuplicates s.tasks s.duplicates ((blobs.head?.map (·.label)).getD "plan".toList) s.invalid

end merge

end Remudero.Plans
