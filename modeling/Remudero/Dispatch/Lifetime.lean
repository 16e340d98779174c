import Remudero.Lib.Record
import Remudero.Lib.Row
import Remudero.Lib.Checks

/-! # Lifetime dispatches

`createIndexedLifetimeAccounting` of `lib/lifetime-identity-index.ts`, which the lifetime cap of the dispatch breaker asks how
often a task was ever dispatched, as `lifetimeAccounting` of `run-task.ts` feeds it from the rows of the ledger.  A start is
known by its task and run; the same row can be read several times, and its verdict before or after it.  The tallies are kept
as the rows come in, and a budget of identities that runs out invalidates the whole history.

* `tally_exact`: whatever rows were read in whatever order, and however often tallies were asked for, an answer counts every
  start once, with the verdict that decides it (`terminal`), or else with what the last tally that could see its run said.
  `tally_readRows` says it of the rows of the ledger.
* `bounded`: while the history is valid, no task has more identities than the budget, nor has the join more keys. -/

namespace Remudero.Lifetime

open Remudero.Lib

/-! ### The index -/

inductive UnavailableReason
  | startIdentityMissing
  | startIdentityCeiling
  | identityIndexUnavailable
deriving DecidableEq

structure LifetimeIndexFailure where
  reason : UnavailableReason
  detail : Text
deriving DecidableEq

structure LifetimeDispatchTally where
  starts : ℤ
  capacityBlocked : ℕ
deriving DecidableEq

/-- A start that was read; `terminal` says whether its verdict is excluded. -/
structure StoredIdentity where
  taskId : Text
  runId : Text
  terminal : Option Bool
  charged : Bool
deriving DecidableEq

/-- The open index.  A failure closes it for good, so a closed one is an error. -/
structure Index where
  tallies : Record Text LifetimeDispatchTally
  earlyVerdicts : Record Text Bool
  identities : Record Text StoredIdentity
  identityCount : Record Text ℕ

namespace Index

def start : Index := ⟨∅, ∅, ∅, ∅⟩

def residentKeys (s : Index) : ℕ := s.tallies.entries.length + s.earlyVerdicts.entries.length

def tally (s : Index) (task : Text) : LifetimeDispatchTally := (s.tallies.get? task).getD ⟨0, 0⟩

end Index

/-- What a row says. -/
inductive LifetimeRow
  | blocked (task : Text)
  | started (task run : Text)
  | verdict (task run : Text) (excluded : Bool)
  | unidentified
  | other
deriving DecidableEq

/-- `refused` is `streakRefusal` of the verdict row. -/
def lifetimeRow (refused : Row → Bool) (row : Row) : LifetimeRow :=
  let step := row.str "step"
  if step = some "daemon.spawn_infra_blocked".toList then
    match row.str "task" with
    | some task => .blocked task
    | none => .other
  else
    match row.str "task_id", row.str "run_id" with
    | some task, some run =>
        if step = some "verdict".toList then .verdict task run (refused row)
        else if step = some "run.start".toList then .started task run
        else .other
    | _, _ => if step = some "run.start".toList then .unidentified else .other

/-- `lifetimeStartIdentity`. -/
def startIdentity (task run : Text) : Text := task ++ '\x00' :: run

/-- The run of an identity. -/
def runIdOf (identity : Text) : Text := (identity.dropWhile (· != '\x00')).drop 1

def charge (charged : Bool) : ℤ := if charged then 1 else 0

variable (identitiesPerTask : ℕ)

def residentCeiling : LifetimeIndexFailure :=
  ⟨.startIdentityCeiling, "resident task/terminal key budget reached (".toList ++ Nat.toDigits 10 identitiesPerTask ++ ")".toList⟩

def tallyForRecordedTask (s : Index) (task : Text) : Except LifetimeIndexFailure (Index × LifetimeDispatchTally) :=
  match s.tallies.get? task with
  | some tally => .ok (s, tally)
  | none =>
      if identitiesPerTask ≤ s.residentKeys then .error (residentCeiling identitiesPerTask)
      else .ok ({ s with tallies := s.tallies.set task ⟨0, 0⟩ }, ⟨0, 0⟩)

/-- `admit`. -/
def admitStart (s : Index) (task : Text) : Except LifetimeIndexFailure Index :=
  if (s.identityCount.get? task).getD 0 < identitiesPerTask then .ok s
  else .error ⟨.startIdentityCeiling,
    "per-task start identity budget reached (".toList ++ Nat.toDigits 10 identitiesPerTask ++ ")".toList⟩

/-- A first start, with the verdict that was read before it. -/
def addStart (s : Index) (task : Text) (tally : LifetimeDispatchTally) (identity : Text) (terminal : Option Bool) : Index where
  tallies := s.tallies.set task { tally with starts := tally.starts + charge (terminal != some true) }
  earlyVerdicts := s.earlyVerdicts
  identities := s.identities.set identity ⟨task, runIdOf identity, terminal, terminal != some true⟩
  identityCount := s.identityCount.set task ((s.identityCount.get? task).getD 0 + 1)

/-- Change what a start is charged. -/
def recharge (s : Index) (identity : Text) (prior next : StoredIdentity) (tally : LifetimeDispatchTally) : Index :=
  { s with
    tallies := s.tallies.set prior.taskId
      { tally with starts := tally.starts + (charge next.charged - charge prior.charged) }
    identities := s.identities.set identity next }

def record (s : Index) : LifetimeRow → Except LifetimeIndexFailure Index
  | .other => .ok s
  | .unidentified => .error ⟨.startIdentityMissing, "run.start lacks a string task/run identity".toList⟩
  | .blocked task => do
      let (s, tally) ← tallyForRecordedTask identitiesPerTask s task
      .ok { s with tallies := s.tallies.set task { tally with capacityBlocked := tally.capacityBlocked + 1 } }
  | .verdict task run excluded =>
      let identity := startIdentity task run
      match s.identities.get? identity with
      | some prior =>
          if prior.terminal.isSome then .ok s
          else do
            let (s, tally) ← tallyForRecordedTask identitiesPerTask s prior.taskId
            .ok (recharge s identity prior { prior with terminal := some excluded, charged := !excluded } tally)
      | none =>
          if (s.earlyVerdicts.get? identity).isNone ∧ identitiesPerTask ≤ s.residentKeys then
            .error (residentCeiling identitiesPerTask)
          else .ok { s with earlyVerdicts := s.earlyVerdicts.set identity excluded }
  | .started task run =>
      let identity := startIdentity task run
      if (s.identities.get? identity).isSome then .ok s
      else do
        let terminal := s.earlyVerdicts.get? identity
        let (s, tally) ← tallyForRecordedTask identitiesPerTask
          { s with earlyVerdicts := s.earlyVerdicts.filter (· ≠ identity) } task
        let s ← admitStart identitiesPerTask s task
        .ok (addStart s task tally identity terminal)

/-- The starts of a task that have no verdict. -/
def pending (s : Index) (task : Text) : List (Text × StoredIdentity) :=
  s.identities.entries.filter fun e => e.2.taskId = task && e.2.terminal.isNone

/-- Charge a start that has no verdict as the live rows say. -/
def judge (task : Text) (visible orphans : Text → Bool) (s : Index) (e : Text × StoredIdentity) :
    Except LifetimeIndexFailure Index :=
  if visible e.2.runId then
    match s.tallies.get? task with
    | none => .error ⟨.identityIndexUnavailable, "indexed start has no resident task tally".toList⟩
    | some tally => .ok (recharge s e.1 e.2 { e.2 with charged := !orphans e.2.runId } tally)
  else .ok s

def tallyFor (s : Index) (task : Text) (visible orphans : Text → Bool) :
    Except LifetimeIndexFailure (Index × LifetimeDispatchTally) :=
  ((pending s task).foldlM (judge task visible orphans) s).map fun s => (s, s.tally task)

/-- A call. -/
inductive Op
  | record (row : LifetimeRow)
  | tallyFor (task : Text) (visible orphans : Text → Bool)

def step (s : Index) : Op → Except LifetimeIndexFailure Index
  | .record row => record identitiesPerTask s row
  | .tallyFor task visible orphans => (tallyFor s task visible orphans).map Prod.fst

def run (ops : List Op) : Except LifetimeIndexFailure Index := ops.foldlM (step identitiesPerTask) Index.start

/-! ### What the calls say of a start -/

/-- The task of a start of `identity`. -/
def startOf (identity : Text) : Op → Option Text
  | .record (.started task run) => if startIdentity task run = identity then some task else none
  | _ => none

def verdictOf (identity : Text) : Op → Option Bool
  | .record (.verdict task run excluded) => if startIdentity task run = identity then some excluded else none
  | _ => none

/-- Whether a tally of the task that could see the run took it for an orphan. -/
def judgementOf (task run : Text) : Op → Option Bool
  | .tallyFor asked visible orphans => if asked = task ∧ visible run = true then some (orphans run) else none
  | _ => none

def blocks (task : Text) : Op → Bool
  | .record (.blocked other) => other = task
  | _ => false

/-- The task that the first start of an identity names. -/
def startTask (ops : List Op) (identity : Text) : Option Text := ops.findSome? (startOf identity)

def beforeStart (ops : List Op) (identity : Text) : List Op := ops.takeWhile fun op => (startOf identity op).isNone

/-- The calls from the first start on. -/
def fromStart (ops : List Op) (identity : Text) : List Op := ops.dropWhile fun op => (startOf identity op).isNone

def lastVerdict (ops : List Op) (identity : Text) : Option Bool := (ops.filterMap (verdictOf identity)).getLast?

/-- The verdict that decides a start: the last one before it, or else the first one after it. -/
def terminal (ops : List Op) (identity : Text) : Option Bool :=
  (lastVerdict (beforeStart ops identity) identity).or ((fromStart ops identity).filterMap (verdictOf identity)).head?

/-- What the last tally that could see the run said. -/
def judged (ops : List Op) (identity task : Text) : Option Bool :=
  ((fromStart ops identity).filterMap (judgementOf task (runIdOf identity))).getLast?

/-- Whether a start counts. -/
def charged (ops : List Op) (identity task : Text) : Bool :=
  match terminal ops identity with
  | some excluded => !excluded
  | none => !(judged ops identity task).getD false

/-- The identity that a call starts. -/
def identityOf : Op → Option Text
  | .record (.started task run) => some (startIdentity task run)
  | _ => none

/-- The identities that were started, each once. -/
def startedIdentities (ops : List Op) : List Text := (ops.filterMap identityOf).dedup

/-- The starts of a task that count. -/
def countedStarts (ops : List Op) (task : Text) : List Text :=
  (startedIdentities ops).filter fun identity => startTask ops identity = some task && charged ops identity task

section history

variable {ops : List Op} {op : Op} {identity task : Text}

theorem startTask_snoc : startTask (ops ++ [op]) identity = (startTask ops identity).or (startOf identity op) := by
  rw [startTask, List.findSome?_append]
  cases h : startOf identity op <;> simp [startTask, h]

theorem startTask_eq_none : startTask ops identity = none ↔ ∀ op ∈ ops, (startOf identity op).isNone = true := by
  simp [startTask]

theorem beforeStart_of_none (h : startTask ops identity = none) : beforeStart ops identity = ops :=
  List.takeWhile_eq_self_iff.mpr (startTask_eq_none.mp h)

theorem fromStart_of_none (h : startTask ops identity = none) : fromStart ops identity = [] :=
  List.dropWhile_eq_nil_iff.mpr (startTask_eq_none.mp h)

theorem fromStart_ne_nil (h : startTask ops identity = some task) : fromStart ops identity ≠ [] := by
  intro hnil
  have hnone := startTask_eq_none.mpr (List.dropWhile_eq_nil_iff.mp hnil)
  rw [h] at hnone
  cases hnone

theorem fromStart_snoc (h : startTask ops identity = some task) : fromStart (ops ++ [op]) identity = fromStart ops identity ++ [op] := by
  have hne := fromStart_ne_nil h
  unfold fromStart at hne ⊢
  rw [List.dropWhile_append, if_neg (by simpa using hne)]

theorem beforeStart_snoc (h : startTask ops identity = some task) : beforeStart (ops ++ [op]) identity = beforeStart ops identity := by
  have hne := fromStart_ne_nil h
  have hlength : (beforeStart ops identity).length ≠ ops.length := by
    intro heq
    have hsplit : beforeStart ops identity ++ fromStart ops identity = ops := List.takeWhile_append_dropWhile
    have := congrArg List.length hsplit
    rw [List.length_append] at this
    have hpos := List.length_pos_iff.mpr hne
    omega
  unfold beforeStart at hlength ⊢
  rw [List.takeWhile_append, if_neg hlength]

theorem lastVerdict_snoc : lastVerdict (ops ++ [op]) identity = (verdictOf identity op).or (lastVerdict ops identity) := by
  unfold lastVerdict
  rw [List.filterMap_append, List.getLast?_append]
  cases h : verdictOf identity op <;> simp [h]

theorem terminal_snoc (h : startTask ops identity = some task) :
    terminal (ops ++ [op]) identity = (terminal ops identity).or (verdictOf identity op) := by
  unfold terminal
  rw [beforeStart_snoc h, fromStart_snoc h, List.filterMap_append, List.head?_append, Option.or_assoc]
  cases hv : verdictOf identity op <;> simp [hv]

theorem judged_snoc (h : startTask ops identity = some task) :
    judged (ops ++ [op]) identity task = (judgementOf task (runIdOf identity) op).or (judged ops identity task) := by
  unfold judged
  rw [fromStart_snoc h, List.filterMap_append, List.getLast?_append]
  cases hj : judgementOf task (runIdOf identity) op <;> simp [hj]

/-- What is stored of an identity. -/
def stored (ops : List Op) (identity : Text) : Option StoredIdentity :=
  (startTask ops identity).map fun task => ⟨task, runIdOf identity, terminal ops identity, charged ops identity task⟩

/-- The verdict that waits for a start. -/
def earlyVerdict (ops : List Op) (identity : Text) : Option Bool :=
  if (startTask ops identity).isSome then none else lastVerdict ops identity

theorem stored_eq_none : stored ops identity = none ↔ startTask ops identity = none := Option.map_eq_none_iff

theorem stored_of_some (h : startTask ops identity = some task) :
    stored ops identity = some ⟨task, runIdOf identity, terminal ops identity, charged ops identity task⟩ := by
  rw [stored, h, Option.map_some]

/-- A call that is no start of the identity, no verdict of it and no tally that could see it. -/
theorem stored_snoc_inert (hstart : startOf identity op = none) (hverdict : verdictOf identity op = none)
    (hjudge : ∀ task, startTask ops identity = some task → judgementOf task (runIdOf identity) op = none) :
    stored (ops ++ [op]) identity = stored ops identity := by
  cases hs : startTask ops identity with
  | none =>
      have hnone : startTask (ops ++ [op]) identity = none := by rw [startTask_snoc, hs, hstart]; rfl
      rw [stored_eq_none.mpr hs, stored_eq_none.mpr hnone]
  | some task =>
      have hsome : startTask (ops ++ [op]) identity = some task := by rw [startTask_snoc, hs]; rfl
      rw [stored_of_some hs, stored_of_some hsome]
      unfold charged
      rw [terminal_snoc hs, judged_snoc hs, hverdict, hjudge task hs, Option.or_none, Option.none_or]

/-- Once a start is decided, nothing changes what is stored of it. -/
theorem stored_snoc_decided {excluded : Bool} (hs : startTask ops identity = some task)
    (hterminal : terminal ops identity = some excluded) : stored (ops ++ [op]) identity = stored ops identity := by
  have hsome : startTask (ops ++ [op]) identity = some task := by rw [startTask_snoc, hs]; rfl
  rw [stored_of_some hs, stored_of_some hsome]
  unfold charged
  rw [terminal_snoc hs, hterminal, Option.some_or]

theorem stored_snoc_verdict {excluded : Bool} (hs : startTask ops identity = some task) (hterminal : terminal ops identity = none)
    (hverdict : verdictOf identity op = some excluded) :
    stored (ops ++ [op]) identity = some ⟨task, runIdOf identity, some excluded, !excluded⟩ := by
  have hsome : startTask (ops ++ [op]) identity = some task := by rw [startTask_snoc, hs]; rfl
  rw [stored_of_some hsome]
  unfold charged
  rw [terminal_snoc hs, hterminal, hverdict, Option.none_or]

theorem stored_snoc_start (hs : startTask ops identity = none) (hstart : startOf identity op = some task)
    (hverdict : verdictOf identity op = none) (hjudge : judgementOf task (runIdOf identity) op = none) :
    stored (ops ++ [op]) identity =
      some ⟨task, runIdOf identity, lastVerdict ops identity, lastVerdict ops identity != some true⟩ := by
  have hsome : startTask (ops ++ [op]) identity = some task := by rw [startTask_snoc, hs, hstart]; rfl
  have hp : (startOf identity op).isNone = false := by rw [hstart]; rfl
  have hbefore : beforeStart (ops ++ [op]) identity = ops := by
    have hself : List.takeWhile (fun op => (startOf identity op).isNone) ops = ops := beforeStart_of_none hs
    unfold beforeStart
    rw [List.takeWhile_append, hself, if_pos rfl]
    simp [hp]
  have hfrom : fromStart (ops ++ [op]) identity = [op] := by
    have hnil : List.dropWhile (fun op => (startOf identity op).isNone) ops = [] := fromStart_of_none hs
    unfold fromStart
    rw [List.dropWhile_append, hnil]
    simp [hp]
  have hterminal : terminal (ops ++ [op]) identity = lastVerdict ops identity := by
    unfold terminal
    rw [hbefore, hfrom]
    simp [hverdict]
  have hjudged : judged (ops ++ [op]) identity task = none := by
    unfold judged
    rw [hfrom]
    simp [hjudge]
  rw [stored_of_some hsome]
  unfold charged
  rw [hterminal, hjudged]
  cases lastVerdict ops identity with
  | none => rfl
  | some excluded => cases excluded <;> rfl

theorem stored_snoc_judged {orphan : Bool} (hs : startTask ops identity = some task) (hterminal : terminal ops identity = none)
    (hverdict : verdictOf identity op = none) (hjudge : judgementOf task (runIdOf identity) op = some orphan) :
    stored (ops ++ [op]) identity = some ⟨task, runIdOf identity, none, !orphan⟩ := by
  have hsome : startTask (ops ++ [op]) identity = some task := by rw [startTask_snoc, hs]; rfl
  rw [stored_of_some hsome]
  unfold charged
  rw [terminal_snoc hs, judged_snoc hs, hterminal, hverdict, hjudge]
  rfl

theorem early_snoc_inert (hstart : startOf identity op = none) (hverdict : verdictOf identity op = none) :
    earlyVerdict (ops ++ [op]) identity = earlyVerdict ops identity := by
  unfold earlyVerdict
  rw [startTask_snoc, hstart, Option.or_none, lastVerdict_snoc, hverdict, Option.none_or]

theorem early_snoc_of_some (hs : startTask (ops ++ [op]) identity = some task) : earlyVerdict (ops ++ [op]) identity = none := by
  rw [earlyVerdict, hs]
  rfl

end history

/-! ### The tallies -/

/-- A start that the tally of the task counts. -/
def counts (task : Text) (v : StoredIdentity) : Bool := v.taskId = task && v.charged

/-- The tally of every task is the number of its starts that are charged. -/
def Counted (s : Index) : Prop :=
  ∀ task, (s.tally task).starts = ((s.identities.values.filter (counts task)).length : ℤ)

theorem tally_set (s : Index) (task : Text) (t : LifetimeDispatchTally) (other : Text) :
    ((s.tallies.set task t).get? other).getD ⟨0, 0⟩ = if other = task then t else s.tally other := by
  by_cases hother : other = task
  · rw [hother, Record.get?_set_self, if_pos rfl]
    rfl
  · rw [Record.get?_set_of_ne _ _ hother, if_neg hother]
    rfl

theorem tally_recharge (s : Index) (identity : Text) (prior next : StoredIdentity) (tally : LifetimeDispatchTally) (task : Text) :
    (recharge s identity prior next tally).tally task =
      if task = prior.taskId then { tally with starts := tally.starts + (charge next.charged - charge prior.charged) }
      else s.tally task :=
  tally_set s _ _ _

theorem tally_addStart (s : Index) (task : Text) (tally : LifetimeDispatchTally) (identity : Text) (terminal : Option Bool)
    (other : Text) :
    (addStart s task tally identity terminal).tally other =
      if other = task then { tally with starts := tally.starts + charge (terminal != some true) } else s.tally other :=
  tally_set s _ _ _

theorem charge_counts {task : Text} {v : StoredIdentity} (h : v.taskId = task) :
    (if counts task v = true then 1 else 0 : ℤ) = charge v.charged := by
  simp [counts, h, charge]

theorem counts_of_ne {task : Text} {v : StoredIdentity} (h : v.taskId ≠ task) : counts task v = false := by
  simp [counts, h]

theorem counted_recharge {s : Index} (h : Counted s) {identity : Text} {prior next : StoredIdentity}
    (hget : s.identities.get? identity = some prior) (htask : next.taskId = prior.taskId) :
    Counted (recharge s identity prior next (s.tally prior.taskId)) := by
  intro task
  have hset := Record.length_filter_set (counts task) next hget
  have hcount := h task
  rw [tally_recharge]
  show _ = (((s.identities.set identity next).values.filter (counts task)).length : ℤ)
  by_cases hprior : task = prior.taskId
  · have hnext := charge_counts (htask.trans hprior.symm)
    have hold := charge_counts hprior.symm
    rw [if_pos hprior]
    dsimp only
    rw [← hprior, hcount, ← hnext, ← hold]
    split_ifs at hset ⊢ <;> omega
  · have hother : next.taskId ≠ task := fun heq => hprior (heq.symm.trans htask)
    rw [counts_of_ne hother, counts_of_ne (Ne.symm hprior)] at hset
    rw [if_neg hprior, hcount]
    exact congrArg _ hset.symm

theorem counted_addStart {s : Index} (h : Counted s) {identity : Text} (task : Text) (terminal : Option Bool)
    (hget : s.identities.get? identity = none) : Counted (addStart s task (s.tally task) identity terminal) := by
  intro other
  have hset := Record.length_filter_set_fresh (counts other) ⟨task, runIdOf identity, terminal, terminal != some true⟩ hget
  have hcount := h other
  rw [tally_addStart]
  show _ = (((s.identities.set identity _).values.filter (counts other)).length : ℤ)
  rw [hset]
  by_cases hother : other = task
  · subst hother
    rw [if_pos rfl]
    dsimp only
    rw [hcount]
    simp only [counts, charge]
    split_ifs <;> simp_all
  · rw [counts_of_ne (Ne.symm hother), if_neg hother, hcount]
    rfl

variable {identitiesPerTask}

/-- A tally that is made when it is first asked for says nothing new. -/
theorem tallyForRecordedTask_ok {s s' : Index} {task : Text} {tally : LifetimeDispatchTally}
    (h : tallyForRecordedTask identitiesPerTask s task = .ok (s', tally)) :
    tally = s.tally task ∧ (s'.tallies.get? task = some tally) ∧ (∀ other, s'.tally other = s.tally other) ∧
      (∀ other, (s.tallies.get? other).isSome → (s'.tallies.get? other).isSome) ∧
      s' = { s with tallies := s'.tallies } := by
  unfold tallyForRecordedTask at h
  cases hget : s.tallies.get? task with
  | some t =>
      rw [hget] at h
      obtain ⟨rfl, rfl⟩ := Prod.mk.inj (Except.ok.inj h)
      exact ⟨by rw [Index.tally, hget]; rfl, hget, fun _ => rfl, fun _ hsome => hsome, rfl⟩
  | none =>
      rw [hget] at h
      dsimp only at h
      split at h
      · cases h
      · obtain ⟨rfl, rfl⟩ := Prod.mk.inj (Except.ok.inj h)
        refine ⟨by rw [Index.tally, hget]; rfl, Record.get?_set_self _ _ _, fun other => ?_, fun other hsome => ?_, rfl⟩
        · rw [Index.tally, tally_set]
          split
          next hother => rw [hother, Index.tally, hget]; rfl
          next => rfl
        · by_cases hother : other = task
          · rw [hother, Record.get?_set_self]
            rfl
          · rwa [Record.get?_set_of_ne _ _ hother]

/-! ### The invariant -/

/-- The index after the calls. -/
structure Exact (ops : List Op) (s : Index) : Prop where
  identities : ∀ identity, s.identities.get? identity = stored ops identity
  early : ∀ identity, s.earlyVerdicts.get? identity = earlyVerdict ops identity
  counted : Counted s
  blocked : ∀ task, (s.tally task).capacityBlocked = ops.countP (blocks task)
  /-- the task of a start has a tally -/
  resident : ∀ identity v, s.identities.get? identity = some v → (s.tallies.get? v.taskId).isSome

theorem exact_start : Exact [] Index.start where
  identities _ := rfl
  early _ := rfl
  counted _ := rfl
  blocked _ := rfl
  resident _ _ h := nomatch h

variable {ops : List Op} {s s' : Index}

theorem countP_snoc_of_not {op : Op} {task : Text} (h : blocks task op = false) :
    (ops ++ [op]).countP (blocks task) = ops.countP (blocks task) := by
  simp [h]

/-- A call that is inert for every identity and blocks no task. -/
theorem Exact.inert (h : Exact ops s) {op : Op} (hstart : ∀ i, startOf i op = none) (hverdict : ∀ i, verdictOf i op = none)
    (hjudge : ∀ task run, judgementOf task run op = none) (hblocks : ∀ task, blocks task op = false) : Exact (ops ++ [op]) s where
  identities i := by rw [stored_snoc_inert (hstart i) (hverdict i) fun _ _ => hjudge _ _, h.identities]
  early i := by rw [early_snoc_inert (hstart i) (hverdict i), h.early]
  counted := h.counted
  blocked task := by rw [countP_snoc_of_not (hblocks task), h.blocked]
  resident := h.resident

theorem Exact.blockedRow (h : Exact ops s) {task : Text} (hstep : record identitiesPerTask s (.blocked task) = .ok s') :
    Exact (ops ++ [.record (.blocked task)]) s' := by
  obtain ⟨⟨s₁, tally⟩, htally, hok⟩ := bind_eq_ok_iff.mp hstep
  obtain ⟨hvalue, hget, hsame, hmono, heq⟩ := tallyForRecordedTask_ok htally
  obtain rfl := Except.ok.inj hok
  have hidentities : s₁.identities = s.identities := by rw [heq]
  have hearly : s₁.earlyVerdicts = s.earlyVerdicts := by rw [heq]
  refine ⟨fun i => ?_, fun i => ?_, fun other => ?_, fun other => ?_, fun i v hv => ?_⟩
  · rw [stored_snoc_inert rfl rfl fun _ _ => rfl, ← h.identities, hidentities]
  · rw [early_snoc_inert rfl rfl, ← h.early, hearly]
  · have hcount := h.counted other
    show (((s₁.tallies.set task _).get? other).getD ⟨0, 0⟩).starts = ((s₁.identities.values.filter _).length : ℤ)
    rw [tally_set, hidentities]
    split
    next hother => rw [hother] at hcount ⊢; rw [hvalue, hcount]
    next => rw [hsame, hcount]
  · show (((s₁.tallies.set task _).get? other).getD ⟨0, 0⟩).capacityBlocked = _
    rw [tally_set]
    split
    next hother =>
      rw [hother, hvalue, h.blocked]
      simp [blocks]
    next hother =>
      rw [hsame, h.blocked, countP_snoc_of_not]
      simpa [blocks] using Ne.symm hother
  · dsimp only at hv ⊢
    rw [hidentities] at hv
    by_cases hother : v.taskId = task
    · rw [hother, Record.get?_set_self]
      rfl
    · rw [Record.get?_set_of_ne _ _ hother]
      exact hmono _ (h.resident i v hv)

theorem Exact.verdictRow (h : Exact ops s) {task run : Text} {excluded : Bool}
    (hstep : record identitiesPerTask s (.verdict task run excluded) = .ok s') :
    Exact (ops ++ [.record (.verdict task run excluded)]) s' := by
  let op : Op := .record (.verdict task run excluded)
  let identity := startIdentity task run
  have hstart : ∀ i, startOf i op = none := fun _ => rfl
  have hjudge : ∀ t r, judgementOf t r op = none := fun _ _ => rfl
  have hblocks : ∀ t, blocks t op = false := fun _ => rfl
  have hother : ∀ i, i ≠ identity → verdictOf i op = none := fun i hi => if_neg (Ne.symm hi)
  have hself : verdictOf identity op = some excluded := if_pos rfl
  unfold record at hstep
  dsimp only at hstep
  have hstored := h.identities identity
  cases hget : s.identities.get? identity with
  | some prior =>
      rw [hget] at hstep
      dsimp only at hstep
      rw [hget] at hstored
      obtain ⟨name, hs, hprior⟩ := Option.map_eq_some_iff.mp hstored.symm
      have hearly : ∀ i, earlyVerdict (ops ++ [op]) i = earlyVerdict ops i := by
        intro i
        by_cases hi : i = identity
        · have hsome : startTask (ops ++ [op]) identity = some name := by rw [startTask_snoc, hs]; rfl
          rw [hi, early_snoc_of_some hsome, earlyVerdict, hs]
          rfl
        · exact early_snoc_inert (hstart i) (hother i hi)
      split at hstep
      next hdecided =>
        -- the first verdict after the start decided it
        obtain rfl := Except.ok.inj hstep
        obtain ⟨decided, hterminal⟩ := Option.isSome_iff_exists.mp hdecided
        rw [← hprior] at hterminal
        refine ⟨fun i => ?_, fun i => by rw [hearly, h.early], h.counted, fun t => ?_, h.resident⟩
        · by_cases hi : i = identity
          · rw [hi, stored_snoc_decided hs hterminal, h.identities]
          · rw [stored_snoc_inert (hstart i) (hother i hi) fun _ _ => hjudge _ _, h.identities]
        · rw [countP_snoc_of_not (hblocks t), h.blocked]
      next hundecided =>
        obtain ⟨⟨s₁, tally⟩, htally, hok⟩ := bind_eq_ok_iff.mp hstep
        obtain ⟨hvalue, hres, hsame, hmono, heq⟩ := tallyForRecordedTask_ok htally
        obtain rfl := Except.ok.inj hok
        have hidentities : s₁.identities = s.identities := by rw [heq]
        have hearlyEq : s₁.earlyVerdicts = s.earlyVerdicts := by rw [heq]
        have hcounted : Counted s₁ := by
          intro t
          rw [hsame, hidentities]
          exact h.counted t
        have hterminal : terminal ops identity = none := by
          rw [← hprior] at hundecided
          exact Option.not_isSome_iff_eq_none.mp hundecided
        have htaskId : prior.taskId = name := by rw [← hprior]
        have hrun : prior.runId = runIdOf identity := by rw [← hprior]
        have hvalue' : tally = s₁.tally prior.taskId := by rw [hsame]; exact hvalue
        rw [hvalue']
        refine ⟨fun i => ?_, fun i => ?_, counted_recharge hcounted (hidentities ▸ hget) rfl, fun t => ?_, fun i v hv => ?_⟩
        · by_cases hi : i = identity
          · rw [hi, stored_snoc_verdict hs hterminal hself]
            show (s₁.identities.set identity _).get? identity = _
            rw [Record.get?_set_self, htaskId, hrun]
          · rw [stored_snoc_inert (hstart i) (hother i hi) fun _ _ => hjudge _ _, ← h.identities]
            show (s₁.identities.set identity _).get? i = _
            rw [Record.get?_set_of_ne _ _ hi, hidentities]
        · rw [hearly, ← h.early, ← hearlyEq]
          rfl
        · rw [countP_snoc_of_not (hblocks t), ← h.blocked, ← hsame]
          rw [tally_recharge]
          split
          next ht => rw [ht]
          next => rfl
        · have hv' : (s₁.identities.set identity { prior with terminal := some excluded, charged := !excluded }).get? i = some v := hv
          show ((s₁.tallies.set prior.taskId _).get? v.taskId).isSome
          by_cases hv'' : v.taskId = prior.taskId
          · rw [hv'', Record.get?_set_self]
            rfl
          · rw [Record.get?_set_of_ne _ _ hv'']
            by_cases hi : i = identity
            · rw [hi, Record.get?_set_self] at hv'
              exact absurd (congrArg StoredIdentity.taskId (Option.some.inj hv').symm) hv''
            · rw [Record.get?_set_of_ne _ _ hi, hidentities] at hv'
              exact hmono _ (h.resident i v hv')
  | none =>
      rw [hget] at hstep
      dsimp only at hstep
      have hs : startTask ops identity = none := stored_eq_none.mp (hstored.symm.trans hget)
      split at hstep
      · cases hstep
      · obtain rfl := Except.ok.inj hstep
        refine ⟨fun i => ?_, fun i => ?_, h.counted, fun t => ?_, h.resident⟩
        · by_cases hi : i = identity
          · have hnone : startTask (ops ++ [op]) identity = none := by rw [startTask_snoc, hs]; rfl
            rw [hi, stored_eq_none.mpr hnone]
            exact hget
          · rw [stored_snoc_inert (hstart i) (hother i hi) fun _ _ => hjudge _ _, h.identities]
        · by_cases hi : i = identity
          · have hnone : startTask (ops ++ [op]) identity = none := by rw [startTask_snoc, hs]; rfl
            rw [hi, earlyVerdict, hnone, lastVerdict_snoc, hself]
            exact Record.get?_set_self _ _ _
          · rw [early_snoc_inert (hstart i) (hother i hi), ← h.early]
            exact Record.get?_set_of_ne _ _ hi
        · rw [countP_snoc_of_not (hblocks t), ← h.blocked]
          rfl

theorem Exact.startedRow (h : Exact ops s) {task run : Text} (hstep : record identitiesPerTask s (.started task run) = .ok s') :
    Exact (ops ++ [.record (.started task run)]) s' := by
  let op : Op := .record (.started task run)
  let identity := startIdentity task run
  have hverdict : ∀ i, verdictOf i op = none := fun _ => rfl
  have hjudge : ∀ t r, judgementOf t r op = none := fun _ _ => rfl
  have hblocks : ∀ t, blocks t op = false := fun _ => rfl
  have hother : ∀ i, i ≠ identity → startOf i op = none := fun i hi => if_neg (Ne.symm hi)
  have hself : startOf identity op = some task := if_pos rfl
  unfold record at hstep
  dsimp only at hstep
  split at hstep
  next hknown =>
    -- a start that was read before
    obtain rfl := Except.ok.inj hstep
    obtain ⟨prior, hprior⟩ := Option.isSome_iff_exists.mp hknown
    obtain ⟨name, hs, -⟩ := Option.map_eq_some_iff.mp ((h.identities identity).symm.trans hprior)
    have hsome : startTask (ops ++ [op]) identity = some name := by rw [startTask_snoc, hs]; rfl
    refine ⟨fun i => ?_, fun i => ?_, h.counted, fun t => ?_, h.resident⟩
    · by_cases hi : i = identity
      · rw [hi, stored_of_some hsome, h.identities, stored_of_some hs]
        unfold charged
        rw [terminal_snoc hs, judged_snoc hs, hverdict, hjudge, Option.or_none, Option.none_or]
      · rw [stored_snoc_inert (hother i hi) (hverdict i) fun _ _ => hjudge _ _, h.identities]
    · by_cases hi : i = identity
      · rw [hi, early_snoc_of_some hsome, h.early, earlyVerdict, hs]
        rfl
      · rw [early_snoc_inert (hother i hi) (hverdict i), h.early]
    · rw [countP_snoc_of_not (hblocks t), h.blocked]
  next hnew =>
    have hget : s.identities.get? identity = none := Option.not_isSome_iff_eq_none.mp hnew
    have hs : startTask ops identity = none := stored_eq_none.mp ((h.identities identity).symm.trans hget)
    obtain ⟨⟨s₁, tally⟩, htally, hrest⟩ := bind_eq_ok_iff.mp hstep
    obtain ⟨s₂, hadmit, hok⟩ := bind_eq_ok_iff.mp hrest
    obtain ⟨hvalue, hres, hsame, hmono, heq⟩ := tallyForRecordedTask_ok htally
    have hs₂ : s₂ = s₁ := by
      unfold admitStart at hadmit
      split at hadmit
      · exact (Except.ok.inj hadmit).symm
      · cases hadmit
    obtain rfl := Except.ok.inj hok
    rw [hs₂]
    have hidentities : s₁.identities = s.identities := by rw [heq]
    have hearlyEq : s₁.earlyVerdicts = s.earlyVerdicts.filter (· ≠ identity) := by rw [heq]
    have hsame' : ∀ t, s₁.tally t = s.tally t := hsame
    have hcounted : Counted s₁ := by
      intro t
      rw [hsame', hidentities]
      exact h.counted t
    have hearlySelf : s.earlyVerdicts.get? identity = lastVerdict ops identity := by
      rw [h.early, earlyVerdict, hs]
      rfl
    have hterminal : tally = s₁.tally task := by rw [hsame']; exact hvalue
    rw [hterminal]
    refine ⟨fun i => ?_, fun i => ?_, counted_addStart hcounted task _ (hidentities ▸ hget), fun t => ?_, fun i v hv => ?_⟩
    · by_cases hi : i = identity
      · rw [hi, stored_snoc_start hs hself (hverdict _) (hjudge _ _), ← hearlySelf]
        exact Record.get?_set_self _ _ _
      · rw [stored_snoc_inert (hother i hi) (hverdict i) fun _ _ => hjudge _ _, ← h.identities, ← hidentities]
        exact Record.get?_set_of_ne _ _ hi
    · show s₁.earlyVerdicts.get? i = _
      rw [hearlyEq, Record.get?_filter]
      by_cases hi : i = identity
      · have hsome : startTask (ops ++ [op]) identity = some task := by rw [startTask_snoc, hs, hself]; rfl
        rw [hi, early_snoc_of_some hsome]
        simp
      · rw [early_snoc_inert (hother i hi) (hverdict i), if_pos (by simpa using hi), h.early]
    · rw [countP_snoc_of_not (hblocks t), ← h.blocked, ← hsame']
      rw [tally_addStart]
      split
      next ht => rw [ht]
      next => rfl
    · show ((s₁.tallies.set task _).get? v.taskId).isSome
      by_cases hv' : v.taskId = task
      · rw [hv', Record.get?_set_self]
        rfl
      · rw [Record.get?_set_of_ne _ _ hv']
        have hset : (s₁.identities.set identity _).get? i = some v := hv
        by_cases hi : i = identity
        · rw [hi, Record.get?_set_self] at hset
          exact absurd (congrArg StoredIdentity.taskId (Option.some.inj hset).symm) hv'
        · rw [Record.get?_set_of_ne _ _ hi, hidentities] at hset
          exact hmono _ (h.resident i v hset)

/-! ### A tally -/

/-- What a tally makes of a start that has no verdict. -/
def judgedAs (visible orphans : Text → Bool) (v : StoredIdentity) : StoredIdentity :=
  if visible v.runId then { v with charged := !orphans v.runId } else v

/-- The loop of a tally over starts of the task. -/
theorem foldlM_judge {task : Text} {visible orphans : Text → Bool} (waiting : List (Text × StoredIdentity)) {s : Index}
    (hcounted : Counted s) (hresident : waiting ≠ [] → (s.tallies.get? task).isSome) (hnodup : (waiting.map Prod.fst).Nodup)
    (hwaiting : ∀ e ∈ waiting, s.identities.get? e.1 = some e.2 ∧ e.2.taskId = task) :
    ∃ s', waiting.foldlM (judge task visible orphans) s = .ok s' ∧ Counted s' ∧ s'.earlyVerdicts = s.earlyVerdicts ∧
      (∀ t, (s'.tally t).capacityBlocked = (s.tally t).capacityBlocked) ∧
      (∀ t, (s.tallies.get? t).isSome → (s'.tallies.get? t).isSome) ∧
      (∀ e ∈ waiting, s'.identities.get? e.1 = some (judgedAs visible orphans e.2)) ∧
      ∀ i, i ∉ waiting.map Prod.fst → s'.identities.get? i = s.identities.get? i := by
  induction waiting generalizing s with
  | nil => exact ⟨s, rfl, hcounted, rfl, fun _ => rfl, fun _ h => h, fun e he => absurd he List.not_mem_nil, fun _ _ => rfl⟩
  | cons e waiting ih =>
      rw [List.map_cons, List.nodup_cons] at hnodup
      obtain ⟨hget, htask⟩ := hwaiting e List.mem_cons_self
      have hrest : ∀ e' ∈ waiting, e'.1 ≠ e.1 := fun e' he' heq => hnodup.1 (heq ▸ List.mem_map_of_mem he')
      by_cases hvisible : visible e.2.runId = true
      · obtain ⟨tally, htally⟩ := Option.isSome_iff_exists.mp (hresident (List.cons_ne_nil e waiting))
        let next : StoredIdentity := { e.2 with charged := !orphans e.2.runId }
        have htallyEq : tally = s.tally e.2.taskId := by rw [htask, Index.tally, htally]; rfl
        have hjudge : judge task visible orphans s e = .ok (recharge s e.1 e.2 next (s.tally e.2.taskId)) := by
          unfold judge
          rw [if_pos hvisible, htally, ← htallyEq]
        obtain ⟨s', hfold, hcounted', hearly, hblocked, hmono, hdone, hkept⟩ := @ih
          (recharge s e.1 e.2 next (s.tally e.2.taskId)) (counted_recharge hcounted hget rfl)
          (fun _ => by
            show ((s.tallies.set e.2.taskId _).get? task).isSome
            rw [htask, Record.get?_set_self]
            rfl)
          hnodup.2
          (fun e' he' => by
            refine ⟨?_, (hwaiting e' (List.mem_cons_of_mem e he')).2⟩
            show (s.identities.set e.1 next).get? e'.1 = _
            rw [Record.get?_set_of_ne _ _ (hrest e' he')]
            exact (hwaiting e' (List.mem_cons_of_mem e he')).1)
        refine ⟨s', ?_, hcounted', hearly, fun t => ?_, fun t ht => hmono t ?_, fun e' he' => ?_, fun i hi => ?_⟩
        · rw [List.foldlM_cons, hjudge]
          exact hfold
        · rw [hblocked]
          rw [tally_recharge]
          split
          next ht => rw [ht]
          next => rfl
        · show ((s.tallies.set e.2.taskId _).get? t).isSome
          by_cases ht' : t = e.2.taskId
          · rw [ht', Record.get?_set_self]
            rfl
          · rwa [Record.get?_set_of_ne _ _ ht']
        · obtain rfl | he' := List.mem_cons.mp he'
          · rw [hkept _ hnodup.1, judgedAs, if_pos hvisible]
            exact Record.get?_set_self _ _ _
          · exact hdone e' he'
        · rw [List.map_cons, List.mem_cons, not_or] at hi
          rw [hkept i hi.2]
          exact Record.get?_set_of_ne _ _ hi.1
      · have hjudge : judge task visible orphans s e = .ok s := if_neg hvisible
        obtain ⟨s', hfold, hcounted', hearly, hblocked, hmono, hdone, hkept⟩ := ih hcounted
          (fun _ => hresident (List.cons_ne_nil e waiting)) hnodup.2
          fun e' he' => hwaiting e' (List.mem_cons_of_mem e he')
        refine ⟨s', ?_, hcounted', hearly, hblocked, hmono, fun e' he' => ?_, fun i hi => ?_⟩
        · rw [List.foldlM_cons, hjudge]
          exact hfold
        · obtain rfl | he' := List.mem_cons.mp he'
          · rw [hkept _ hnodup.1, hget, judgedAs, if_neg hvisible]
          · exact hdone e' he'
        · rw [List.map_cons, List.mem_cons, not_or] at hi
          exact hkept i hi.2

theorem mem_pending {task : Text} {e : Text × StoredIdentity} :
    e ∈ pending s task ↔ s.identities.get? e.1 = some e.2 ∧ e.2.taskId = task ∧ e.2.terminal = none := by
  unfold pending
  rw [List.mem_filter, Bool.and_eq_true, decide_eq_true_eq, Option.isNone_iff_eq_none, ← Record.mem_entries_iff]

/-- An open index answers, and the answer is part of its history. -/
theorem Exact.asked (h : Exact ops s) (task : Text) (visible orphans : Text → Bool) :
    ∃ s', tallyFor s task visible orphans = .ok (s', s'.tally task) ∧ Exact (ops ++ [.tallyFor task visible orphans]) s' := by
  let op : Op := .tallyFor task visible orphans
  have hstart : ∀ i, startOf i op = none := fun _ => rfl
  have hverdict : ∀ i, verdictOf i op = none := fun _ => rfl
  have hnodup : ((pending s task).map Prod.fst).Nodup := s.identities.nodup.sublist (List.filter_sublist.map _)
  have hresident : pending s task ≠ [] → (s.tallies.get? task).isSome := by
    intro hne
    obtain ⟨e, he⟩ := List.exists_mem_of_ne_nil _ hne
    obtain ⟨hget, htask, -⟩ := mem_pending.mp he
    rw [← htask]
    exact h.resident e.1 e.2 hget
  obtain ⟨s', hfold, hcounted, hearly, hblocked, hmono, hdone, hkept⟩ :=
    @foldlM_judge task visible orphans (pending s task) s h.counted hresident hnodup
      fun e he => ⟨(mem_pending.mp he).1, (mem_pending.mp he).2.1⟩
  refine ⟨s', by rw [tallyFor, hfold]; rfl, fun i => ?_, fun i => ?_, hcounted, fun t => ?_, fun i v hv => ?_⟩
  · by_cases hi : i ∈ (pending s task).map Prod.fst
    · obtain ⟨⟨i, v⟩, he, rfl⟩ := List.mem_map.mp hi
      obtain ⟨hget, htask, hterminal⟩ := mem_pending.mp he
      dsimp only at hget htask hterminal ⊢
      rw [hdone _ he]
      obtain ⟨name, hs, hv⟩ := Option.map_eq_some_iff.mp ((h.identities i).symm.trans hget)
      have hname : name = task := by rw [← htask, ← hv]
      have hrun : v.runId = runIdOf i := by rw [← hv]
      subst hname
      by_cases hvisible : visible (runIdOf i) = true
      · have hnone : terminal ops i = none := by rw [← hv] at hterminal; exact hterminal
        rw [stored_snoc_judged hs hnone (hverdict i) (if_pos ⟨rfl, hvisible⟩), judgedAs, if_pos (hrun ▸ hvisible), ← hv, hnone]
      · rw [stored_snoc_inert (hstart i) (hverdict i), ← h.identities, hget, judgedAs, if_neg (hrun ▸ hvisible)]
        intro _ _
        exact if_neg fun hseen => hvisible hseen.2
    · rw [hkept i hi, h.identities]
      cases hs : startTask ops i with
      | none =>
          refine (stored_snoc_inert (hstart i) (hverdict i) fun t ht => ?_).symm
          rw [hs] at ht
          cases ht
      | some name =>
          cases hterminal : terminal ops i with
          | some excluded => exact (stored_snoc_decided hs hterminal).symm
          | none =>
              -- a start without a verdict that does not wait here is of another task
              have hne : task ≠ name := by
                intro heq
                refine hi (List.mem_map.mpr ⟨(i, ⟨name, runIdOf i, none, charged ops i name⟩), mem_pending.mpr ?_, rfl⟩)
                refine ⟨?_, heq.symm, rfl⟩
                rw [h.identities, stored_of_some hs, hterminal]
              refine (stored_snoc_inert (hstart i) (hverdict i) fun t ht => ?_).symm
              rw [hs] at ht
              obtain rfl := Option.some.inj ht
              exact if_neg fun hseen => hne hseen.1
  · rw [hearly, early_snoc_inert (hstart i) (hverdict i), h.early]
  · rw [hblocked, h.blocked, countP_snoc_of_not rfl]
  · by_cases hi : i ∈ (pending s task).map Prod.fst
    · obtain ⟨e, he, rfl⟩ := List.mem_map.mp hi
      obtain ⟨hget, -, -⟩ := mem_pending.mp he
      rw [hdone e he] at hv
      have hsame : v.taskId = e.2.taskId := by
        rw [← Option.some.inj hv, judgedAs]
        split <;> rfl
      rw [hsame]
      exact hmono _ (h.resident e.1 e.2 hget)
    · rw [hkept i hi] at hv
      exact hmono _ (h.resident i v hv)

/-! ### Every run -/

theorem Exact.step (h : Exact ops s) (op : Op) (hstep : step identitiesPerTask s op = .ok s') : Exact (ops ++ [op]) s' := by
  cases op with
  | record row =>
      cases row with
      | blocked task => exact h.blockedRow hstep
      | started task run => exact h.startedRow hstep
      | verdict task run excluded => exact h.verdictRow hstep
      | unidentified => cases hstep
      | other =>
          obtain rfl := Except.ok.inj hstep
          exact h.inert (fun _ => rfl) (fun _ => rfl) (fun _ _ => rfl) fun _ => rfl
  | tallyFor task visible orphans =>
      obtain ⟨s₁, hask, hexact⟩ := h.asked task visible orphans
      replace hstep : (tallyFor s task visible orphans).map Prod.fst = .ok s' := hstep
      rw [hask] at hstep
      obtain rfl := Except.ok.inj hstep
      exact hexact

theorem run_snoc {op : Op} : run identitiesPerTask (ops ++ [op]) = .ok s' ↔
    ∃ s, run identitiesPerTask ops = .ok s ∧ step identitiesPerTask s op = .ok s' := by
  unfold run
  rw [List.foldlM_append, bind_eq_ok_iff]
  simp only [List.foldlM_cons, List.foldlM_nil, bind_pure]

theorem exact_run (h : run identitiesPerTask ops = .ok s) : Exact ops s := by
  induction ops using List.reverseRecOn generalizing s with
  | nil =>
      obtain rfl := Except.ok.inj h
      exact exact_start
  | append_singleton ops op ih =>
      obtain ⟨s₀, hrun, hstep⟩ := run_snoc.mp h
      exact (ih hrun).step op hstep

theorem isSome_startOf {identity : Text} {op : Op} : (startOf identity op).isSome ↔ identityOf op = some identity := by
  cases op with
  | record row =>
      cases row with
      | started task run =>
          simp only [startOf, identityOf, Option.some.injEq]
          split <;> simp_all
      | _ => simp [startOf, identityOf]
  | tallyFor => simp [startOf, identityOf]

theorem mem_startedIdentities {identity : Text} : identity ∈ startedIdentities ops ↔ (startTask ops identity).isSome := by
  unfold startedIdentities startTask
  rw [List.mem_dedup, List.mem_filterMap, List.findSome?_isSome_iff]
  simp only [isSome_startOf]

/-- The identities of the index are those that were started. -/
theorem Exact.keys (h : Exact ops s) : (s.identities.entries.map Prod.fst).Perm (startedIdentities ops) := by
  refine (List.perm_ext_iff_of_nodup s.identities.nodup (List.nodup_dedup _)).mpr fun i => ?_
  show _ ↔ i ∈ startedIdentities ops
  rw [mem_startedIdentities]
  constructor
  · intro hi
    obtain ⟨⟨i, v⟩, he, rfl⟩ := List.mem_map.mp hi
    obtain ⟨name, hs, -⟩ := Option.map_eq_some_iff.mp ((h.identities i).symm.trans (Record.mem_entries_iff.mp he))
    rw [hs]
    rfl
  · intro hi
    obtain ⟨name, hs⟩ := Option.isSome_iff_exists.mp hi
    exact List.mem_map.mpr ⟨_, Record.mem_entries_iff.mpr ((h.identities i).trans (stored_of_some hs)), rfl⟩

/-- A count over the index is a count over the starts. -/
theorem Exact.length_filter (h : Exact ops s) {p : StoredIdentity → Bool} {q : Text → Bool}
    (hpq : ∀ i v, stored ops i = some v → p v = q i) :
    (s.identities.values.filter p).length = ((startedIdentities ops).filter q).length := by
  have hentries : ∀ e ∈ s.identities.entries, (p ∘ Prod.snd) e = (q ∘ Prod.fst) e := fun e he =>
    hpq e.1 e.2 ((h.identities e.1).symm.trans (Record.mem_entries_iff.mp he))
  unfold Record.values
  rw [List.filter_map, List.length_map, List.filter_congr hentries, ← (h.keys.filter q).length_eq, List.filter_map, List.length_map]

/-- An open index always answers, and the answer counts every start of the task once. -/
theorem tally_exact (h : run identitiesPerTask ops = .ok s) (task : Text) (visible orphans : Text → Bool) :
    ∃ s', tallyFor s task visible orphans =
      .ok (s', ⟨((countedStarts (ops ++ [.tallyFor task visible orphans]) task).length : ℤ), ops.countP (blocks task)⟩) := by
  obtain ⟨s', hask, hexact⟩ := (exact_run h).asked task visible orphans
  refine ⟨s', hask.trans ?_⟩
  have hstarts := hexact.counted task
  rw [hexact.length_filter (q := fun i => startTask (ops ++ [.tallyFor task visible orphans]) i = some task &&
    charged (ops ++ [.tallyFor task visible orphans]) i task)] at hstarts
  · have hblocked := hexact.blocked task
    rw [countP_snoc_of_not rfl] at hblocked
    rw [← hblocked]
    unfold countedStarts
    rw [← hstarts]
  · intro i v hv
    obtain ⟨name, hs, rfl⟩ := Option.map_eq_some_iff.mp hv
    simp only [counts, hs, Option.some.injEq]
    by_cases hname : name = task
    · rw [hname]
    · simp [hname]

/-- A task with a start that its earlier verdict excludes, one that its last tally took for an orphan, and one that counts. -/
def orphanedOps : List Op :=
  [.record (.verdict "T1".toList "r1".toList true), .record (.started "T1".toList "r1".toList),
    .record (.started "T1".toList "r2".toList), .record (.blocked "T1".toList), .record (.started "T1".toList "r3".toList)]

theorem tally_orphanedOps : ∃ s s', run 4 orphanedOps = .ok s ∧
    tallyFor s "T1".toList (fun _ => true) (· == "r2".toList) = .ok (s', ⟨1, 1⟩) := by
  obtain ⟨s, hs⟩ : ∃ s, run 4 orphanedOps = .ok s := ⟨_, rfl⟩
  obtain ⟨s', hs'⟩ := tally_exact hs "T1".toList (fun _ => true) (· == "r2".toList)
  refine ⟨s, s', hs, hs'.trans ?_⟩
  have hcount : (countedStarts (orphanedOps ++ [.tallyFor "T1".toList (fun _ => true) (· == "r2".toList)]) "T1".toList).length = 1 := by
    decide +kernel
  rw [hcount]
  rfl

/-! ### The rows of the ledger -/

section rows

variable (refused : Row → Bool)

/-- The calls that feed the index the rows of the ledger. -/
def readRows (rows : List Row) : List Op := rows.map fun row => .record (lifetimeRow refused row)

/-- A row that starts a run of a task. -/
def Starts (row : Row) (identity : Text) : Prop :=
  ∃ task run, row.str "step" = some "run.start".toList ∧ row.str "task_id" = some task ∧ row.str "run_id" = some run ∧
    identity = startIdentity task run

def blocksTask (task : Text) (row : Row) : Bool :=
  row.str "step" == some "daemon.spawn_infra_blocked".toList && row.str "task" == some task

variable {refused} {row : Row} {rows : List Row} {identity task : Text}

theorem identityOf_lifetimeRow : identityOf (.record (lifetimeRow refused row)) = some identity ↔ Starts row identity := by
  have hinfra : "daemon.spawn_infra_blocked".toList ≠ "run.start".toList := by decide
  have hverdict : "verdict".toList ≠ "run.start".toList := by decide
  unfold lifetimeRow Starts
  dsimp only
  generalize "daemon.spawn_infra_blocked".toList = infra at hinfra ⊢
  generalize "verdict".toList = verdict at hverdict ⊢
  generalize "run.start".toList = start at hinfra hverdict ⊢
  by_cases hblocked : row.str "step" = some infra
  · rw [if_pos hblocked, hblocked]
    cases row.str "task" <;> simp [identityOf, hinfra]
  · rw [if_neg hblocked]
    cases htask : row.str "task_id" with
    | none => by_cases hstart : row.str "step" = some start <;> simp [identityOf, hstart]
    | some name =>
        cases hrun : row.str "run_id" with
        | none => by_cases hstart : row.str "step" = some start <;> simp [identityOf, hstart]
        | some run =>
            by_cases hend : row.str "step" = some verdict
            · simp [identityOf, hend, hverdict]
            · by_cases hstart : row.str "step" = some start
              · show identityOf (.record (if row.str "step" = some verdict then _ else _)) = some identity ↔ _
                rw [if_neg hend, if_pos hstart]
                constructor
                · intro heq
                  exact ⟨name, run, hstart, rfl, rfl, (Option.some.inj heq).symm⟩
                · rintro ⟨task, run', -, htask', hrun', rfl⟩
                  rw [Option.some.inj htask', Option.some.inj hrun']
                  rfl
              · simp [identityOf, hend, hstart]

theorem blocks_lifetimeRow : blocks task (.record (lifetimeRow refused row)) = blocksTask task row := by
  unfold lifetimeRow blocksTask
  dsimp only
  by_cases hblocked : row.str "step" = some "daemon.spawn_infra_blocked".toList
  · rw [if_pos hblocked, hblocked]
    cases row.str "task" with
    | none => rfl
    | some name =>
        rw [beq_self_eq_true, Bool.true_and]
        exact Bool.eq_iff_iff.mpr (by simp [blocks])
  · have hstep : (row.str "step" == some "daemon.spawn_infra_blocked".toList) = false := by simpa using hblocked
    rw [if_neg hblocked, hstep, Bool.false_and]
    split
    · split_ifs <;> rfl
    · split_ifs <;> rfl

theorem mem_startedIdentities_readRows :
    identity ∈ startedIdentities (readRows refused rows) ↔ ∃ row ∈ rows, Starts row identity := by
  unfold startedIdentities readRows
  rw [List.mem_dedup, List.filterMap_map, List.mem_filterMap]
  exact exists_congr fun row => and_congr_right fun _ => identityOf_lifetimeRow

/-- The tally of a ledger that was read: it counts each start row of the task once, if it is charged, and every row that
says that the task was blocked. -/
theorem tally_readRows {n : ℕ} {s : Index} (h : run n (readRows refused rows) = .ok s) (task : Text)
    (visible orphans : Text → Bool) :
    ∃ (s' : Index) (counted : List Text),
      tallyFor s task visible orphans = .ok (s', ⟨(counted.length : ℤ), rows.countP (blocksTask task)⟩) ∧
      counted.Nodup ∧
      ∀ identity, identity ∈ counted ↔ (∃ row ∈ rows, Starts row identity) ∧
        startTask (readRows refused rows ++ [.tallyFor task visible orphans]) identity = some task ∧
        charged (readRows refused rows ++ [.tallyFor task visible orphans]) identity task = true := by
  obtain ⟨s', hs'⟩ := tally_exact h task visible orphans
  refine ⟨s', countedStarts (readRows refused rows ++ [.tallyFor task visible orphans]) task, ?_, ?_, fun identity => ?_⟩
  · have hblocks : (readRows refused rows).countP (blocks task) = rows.countP (blocksTask task) := by
      rw [readRows, List.countP_map]
      exact List.countP_congr fun row _ => by rw [Function.comp_apply, blocks_lifetimeRow]
    rw [hs', hblocks]
  · exact (List.nodup_dedup _).filter _
  · have hstarted : startedIdentities (readRows refused rows ++ [.tallyFor task visible orphans]) =
        startedIdentities (readRows refused rows) := by
      rw [startedIdentities, List.filterMap_append]
      exact congrArg List.dedup (List.append_nil _)
    rw [countedStarts, List.mem_filter, hstarted, mem_startedIdentities_readRows, Bool.and_eq_true, decide_eq_true_eq]

end rows

/-! ### The budget -/

section entries

variable {κ α : Type*} [DecidableEq κ] {r : Record κ α} {k : κ}

theorem length_set_of_isSome (v : α) (h : (r.get? k).isSome) : (r.set k v).entries.length = r.entries.length := by
  obtain ⟨u, hu⟩ := Option.isSome_iff_exists.mp h
  have hkeys : ((r.set k v).entries.map Prod.fst) = r.entries.map Prod.fst :=
    keys_assign_of_mem v (List.mem_map.mpr ⟨(k, u), Record.mem_of_get? hu, rfl⟩)
  simpa using congrArg List.length hkeys

theorem length_set_of_none (v : α) (h : r.get? k = none) : (r.set k v).entries.length = r.entries.length + 1 := by
  have hentries : (r.set k v).entries = r.entries ++ [(k, v)] := assign_of_notMem v (notMem_keys_of_entryOf h)
  rw [hentries, List.length_append, List.length_singleton]

end entries

/-- The budget of an open index. -/
structure Bounded (identitiesPerTask : ℕ) (s : Index) : Prop where
  resident : s.residentKeys ≤ identitiesPerTask
  counted : ∀ task, (s.identityCount.get? task).getD 0 = (s.identities.values.filter fun v => v.taskId = task).length
  perTask : ∀ task, (s.identityCount.get? task).getD 0 ≤ identitiesPerTask

theorem bounded_start : Bounded identitiesPerTask Index.start where
  resident := Nat.zero_le _
  counted _ := rfl
  perTask _ := Nat.zero_le _

theorem Bounded.setTally (h : Bounded identitiesPerTask s) {task : Text} (hget : (s.tallies.get? task).isSome)
    (t : LifetimeDispatchTally) : Bounded identitiesPerTask { s with tallies := s.tallies.set task t } where
  resident := by
    have hresident := h.resident
    unfold Index.residentKeys at hresident ⊢
    dsimp only
    rwa [length_set_of_isSome t hget]
  counted := h.counted
  perTask := h.perTask

theorem Bounded.tallyForRecordedTask (h : Bounded identitiesPerTask s) {task : Text} {tally : LifetimeDispatchTally}
    (htally : tallyForRecordedTask identitiesPerTask s task = .ok (s', tally)) : Bounded identitiesPerTask s' := by
  unfold Lifetime.tallyForRecordedTask at htally
  cases hget : s.tallies.get? task with
  | some t =>
      rw [hget] at htally
      obtain ⟨rfl, -⟩ := Prod.mk.inj (Except.ok.inj htally)
      exact h
  | none =>
      rw [hget] at htally
      dsimp only at htally
      split at htally
      · cases htally
      · rename_i hroom
        obtain ⟨rfl, -⟩ := Prod.mk.inj (Except.ok.inj htally)
        refine ⟨?_, h.counted, h.perTask⟩
        unfold Index.residentKeys at hroom ⊢
        dsimp only
        rw [length_set_of_none _ hget]
        omega

/-- A start that stays with its task. -/
theorem Bounded.recharge (h : Bounded identitiesPerTask s) {identity : Text} {v prior next : StoredIdentity}
    (hget : s.identities.get? identity = some v) (htask : next.taskId = v.taskId)
    (hresident : (s.tallies.get? prior.taskId).isSome) (tally : LifetimeDispatchTally) :
    Bounded identitiesPerTask (recharge s identity prior next tally) where
  resident := (h.setTally hresident _).resident
  counted task := by
    have hset := Record.length_filter_set (fun u => decide (u.taskId = task)) next hget
    rw [htask] at hset
    show (s.identityCount.get? task).getD 0 = ((s.identities.set identity next).values.filter _).length
    rw [h.counted]
    omega
  perTask := h.perTask

theorem Bounded.addStart (h : Bounded identitiesPerTask s) {task identity : Text} {terminal : Option Bool}
    (hget : s.identities.get? identity = none) (hresident : (s.tallies.get? task).isSome)
    (hroom : (s.identityCount.get? task).getD 0 < identitiesPerTask) (tally : LifetimeDispatchTally) :
    Bounded identitiesPerTask (addStart s task tally identity terminal) := by
  refine ⟨(h.setTally hresident _).resident, fun other => ?_, fun other => ?_⟩
  · have hset := Record.length_filter_set_fresh (fun u => decide (u.taskId = other))
      ⟨task, runIdOf identity, terminal, terminal != some true⟩ hget
    show ((s.identityCount.set task _).get? other).getD 0 = ((s.identities.set identity _).values.filter _).length
    rw [hset, ← h.counted]
    by_cases hother : other = task
    · simp [hother, Record.get?_set_self]
    · simp [Record.get?_set_of_ne _ _ hother, Ne.symm hother]
  · show ((s.identityCount.set task _).get? other).getD 0 ≤ _
    by_cases hother : other = task
    · rw [hother, Record.get?_set_self]
      exact hroom
    · rw [Record.get?_set_of_ne _ _ hother]
      exact h.perTask other

theorem Bounded.foldlM_judge {task : Text} {visible orphans : Text → Bool} (waiting : List (Text × StoredIdentity)) {s : Index}
    (h : Bounded identitiesPerTask s)
    (hwaiting : ∀ e ∈ waiting, e.2.taskId = task ∧ ∃ v, s.identities.get? e.1 = some v ∧ v.taskId = task)
    (hfold : waiting.foldlM (judge task visible orphans) s = .ok s') : Bounded identitiesPerTask s' := by
  induction waiting generalizing s with
  | nil =>
      obtain rfl := Except.ok.inj hfold
      exact h
  | cons e waiting ih =>
      obtain ⟨s₁, hjudge, hrest⟩ := bind_eq_ok_iff.mp hfold
      obtain ⟨htask, v, hget, hv⟩ := hwaiting e List.mem_cons_self
      have hlater := fun e' he' => hwaiting e' (List.mem_cons_of_mem e he')
      unfold judge at hjudge
      split at hjudge
      · split at hjudge
        · cases hjudge
        · rename_i tally htally
          obtain rfl := Except.ok.inj hjudge
          have hnext : ({ e.2 with charged := !orphans e.2.runId } : StoredIdentity).taskId = v.taskId := htask.trans hv.symm
          refine ih (h.recharge hget hnext (by rw [htask, htally]; rfl) tally) (fun e' he' => ?_) hrest
          obtain ⟨htask', v', hget', hv'⟩ := hlater e' he'
          refine ⟨htask', ?_⟩
          show ∃ u, (s.identities.set e.1 _).get? e'.1 = some u ∧ u.taskId = task
          by_cases hsame : e'.1 = e.1
          · rw [hsame, Record.get?_set_self]
            exact ⟨_, rfl, htask⟩
          · rw [Record.get?_set_of_ne _ _ hsame]
            exact ⟨v', hget', hv'⟩
      · obtain rfl := Except.ok.inj hjudge
        exact ih h hlater hrest

theorem Bounded.record (h : Bounded identitiesPerTask s) {row : LifetimeRow}
    (hstep : record identitiesPerTask s row = .ok s') : Bounded identitiesPerTask s' := by
  cases row with
  | other =>
      obtain rfl := Except.ok.inj hstep
      exact h
  | unidentified => cases hstep
  | blocked task =>
      obtain ⟨⟨s₁, tally⟩, htally, hok⟩ := bind_eq_ok_iff.mp hstep
      obtain rfl := Except.ok.inj hok
      exact (h.tallyForRecordedTask htally).setTally (by rw [(tallyForRecordedTask_ok htally).2.1]; rfl) _
  | verdict task run excluded =>
      unfold Lifetime.record at hstep
      dsimp only at hstep
      split at hstep
      · rename_i prior hprior
        split at hstep
        · obtain rfl := Except.ok.inj hstep
          exact h
        · obtain ⟨⟨s₁, tally⟩, htally, hok⟩ := bind_eq_ok_iff.mp hstep
          obtain rfl := Except.ok.inj hok
          obtain ⟨-, hget, -, -, heq⟩ := tallyForRecordedTask_ok htally
          have hidentities : s₁.identities = s.identities := by rw [heq]
          rw [← hidentities] at hprior
          have hnext : ({ prior with terminal := some excluded, charged := !excluded } : StoredIdentity).taskId = prior.taskId := rfl
          refine (h.tallyForRecordedTask htally).recharge hprior hnext ?_ tally
          rw [hget]
          rfl
      · split at hstep
        · cases hstep
        · rename_i hroom
          obtain rfl := Except.ok.inj hstep
          refine ⟨?_, h.counted, h.perTask⟩
          have hresident := h.resident
          unfold Index.residentKeys at hroom hresident ⊢
          dsimp only
          cases hearly : s.earlyVerdicts.get? (startIdentity task run) with
          | some waiting =>
              rwa [length_set_of_isSome _ (by rw [hearly]; rfl)]
          | none =>
              rw [hearly] at hroom
              rw [length_set_of_none _ hearly]
              have hlt : ¬identitiesPerTask ≤ s.tallies.entries.length + s.earlyVerdicts.entries.length :=
                fun hle => hroom ⟨rfl, hle⟩
              omega
  | started task run =>
      unfold Lifetime.record at hstep
      dsimp only at hstep
      split at hstep
      · obtain rfl := Except.ok.inj hstep
        exact h
      · rename_i hnew
        obtain ⟨⟨s₁, tally⟩, htally, hrest⟩ := bind_eq_ok_iff.mp hstep
        obtain ⟨s₂, hadmit, hok⟩ := bind_eq_ok_iff.mp hrest
        obtain rfl := Except.ok.inj hok
        have hfiltered : Bounded identitiesPerTask
            { s with earlyVerdicts := s.earlyVerdicts.filter (· ≠ startIdentity task run) } := by
          refine ⟨?_, h.counted, h.perTask⟩
          have hresident := h.resident
          have hshorter := List.length_filter_le (fun e : Text × Bool => decide (e.1 ≠ startIdentity task run))
            s.earlyVerdicts.entries
          unfold Index.residentKeys Record.filter at *
          dsimp only
          omega
        obtain ⟨-, hget, -, -, heq⟩ := tallyForRecordedTask_ok htally
        have hidentities : s₁.identities = s.identities := by rw [heq]
        unfold admitStart at hadmit
        split at hadmit
        · rename_i hroom
          obtain rfl := Except.ok.inj hadmit
          refine (hfiltered.tallyForRecordedTask htally).addStart ?_ (by rw [hget]; rfl) hroom tally
          rw [hidentities]
          exact Option.not_isSome_iff_eq_none.mp hnew
        · cases hadmit

theorem bounded_run (h : run identitiesPerTask ops = .ok s) : Bounded identitiesPerTask s := by
  induction ops using List.reverseRecOn generalizing s with
  | nil =>
      obtain rfl := Except.ok.inj h
      exact bounded_start
  | append_singleton ops op ih =>
      obtain ⟨s₀, hrun, hstep⟩ := run_snoc.mp h
      cases op with
      | record row => exact (ih hrun).record hstep
      | tallyFor task visible orphans =>
          replace hstep : ((pending s₀ task).foldlM (judge task visible orphans) s₀ |>.map fun s => (s, s.tally task)).map Prod.fst =
            .ok s := hstep
          cases hfold : (pending s₀ task).foldlM (judge task visible orphans) s₀ with
          | error failure =>
              rw [hfold] at hstep
              cases hstep
          | ok s₁ =>
              rw [hfold] at hstep
              obtain rfl := Except.ok.inj hstep
              refine (ih hrun).foldlM_judge _ (fun e he => ?_) hfold
              obtain ⟨hget, htask, -⟩ := mem_pending.mp he
              exact ⟨htask, e.2, hget, htask⟩

/-- While the index is open, its join and the starts of every task are within the budget. -/
theorem bounded (h : run identitiesPerTask ops = .ok s) :
    s.residentKeys ≤ identitiesPerTask ∧
      ∀ task, ((startedIdentities ops).filter fun i => startTask ops i = some task).length ≤ identitiesPerTask := by
  have hbounded := bounded_run h
  refine ⟨hbounded.resident, fun task => ?_⟩
  have hlength := (exact_run h).length_filter (p := fun v => decide (v.taskId = task))
    (q := fun i => decide (startTask ops i = some task)) (fun i v hv => by
      obtain ⟨name, hs, rfl⟩ := Option.map_eq_some_iff.mp hv
      simp [hs])
  rw [← hlength, ← hbounded.counted]
  exact hbounded.perTask task

theorem bounded_orphanedOps : ∃ s, run 4 orphanedOps = .ok s ∧ s.residentKeys ≤ 4 ∧
    ((startedIdentities orphanedOps).filter fun i => startTask orphanedOps i = some "T1".toList).length ≤ 4 := by
  obtain ⟨s, hs⟩ : ∃ s, run 4 orphanedOps = .ok s := ⟨_, rfl⟩
  exact ⟨s, hs, (bounded hs).1, (bounded hs).2 "T1".toList⟩

end Remudero.Lifetime
