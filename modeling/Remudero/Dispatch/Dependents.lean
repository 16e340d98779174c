import Remudero.Lib.Record
import Remudero.Lib.Worklist

/-! # Dependents

`transitiveDependents` of `lib/plan.ts` and `openDependentFanout` of `lib/dispatch-value.ts`: who depends on a
task, over any number of edges.  Both turn the dependency lists into lists of dependents and walk these, the
one with a queue that takes only ids not met yet, the other with a stack that takes all.  The dependency
lists are arbitrary: they may have cycles, repeated ids and ids of no task.

A walk is a loop with fuel; both results say that the loops end and with what. -/

namespace Remudero.Dispatch

open Remudero.Lib

variable {κ : Type*} [DecidableEq κ]

/-- What is read of a task. -/
structure DependentTask (κ : Type*) where
  id : κ
  dependsOn : List κ

/-! ### The lists of dependents -/

/-- `reverse.get(dependency)` gets one more id. -/
def addDependent (id : κ) (reverse : Record κ (List κ)) (dependency : κ) : Record κ (List κ) :=
  match reverse.get? dependency with
  | some dependents => reverse.set dependency (dependents ++ [id])
  | none => reverse.set dependency [id]

def reverseEdges (tasks : List (DependentTask κ)) : Record κ (List κ) :=
  tasks.foldl (fun reverse task => task.dependsOn.foldl (addDependent task.id) reverse) ∅

def dependentsIn (reverse : Record κ (List κ)) (id : κ) : List κ := (reverse.get? id).getD []

/-- `id` is the id of a task that names `dependency`. -/
def DependsOn (tasks : List (DependentTask κ)) (id dependency : κ) : Prop :=
  ∃ task ∈ tasks, task.id = id ∧ dependency ∈ task.dependsOn

theorem dependentsIn_addDependent (reverse : Record κ (List κ)) (id dependency k : κ) :
    dependentsIn (addDependent id reverse dependency) k =
      if k = dependency then dependentsIn reverse k ++ [id] else dependentsIn reverse k := by
  unfold dependentsIn addDependent
  by_cases hk : k = dependency
  · subst hk
    cases hget : reverse.get? k with
    | none => simp [Record.get?_set_self]
    | some dependents => simp [Record.get?_set_self]
  · rw [if_neg hk]
    split
    · rw [Record.get?_set_of_ne _ _ hk]
    · rw [Record.get?_set_of_ne _ _ hk]

theorem mem_dependentsIn_foldl (id : κ) (dependencies : List κ) (reverse : Record κ (List κ)) (k u : κ) :
    u ∈ dependentsIn (dependencies.foldl (addDependent id) reverse) k ↔
      u ∈ dependentsIn reverse k ∨ (u = id ∧ k ∈ dependencies) := by
  induction dependencies generalizing reverse with
  | nil => simp
  | cons dependency dependencies ih =>
      rw [List.foldl_cons, ih, dependentsIn_addDependent, List.mem_cons]
      split
      · next hk =>
          simp only [List.mem_append, List.mem_singleton, hk, true_or, and_true]
          tauto
      · next hk => simp only [hk, false_or]

theorem mem_dependentsIn_reverseEdges {tasks : List (DependentTask κ)} {k u : κ} :
    u ∈ dependentsIn (reverseEdges tasks) k ↔ DependsOn tasks u k := by
  have hfold : ∀ (ts : List (DependentTask κ)) (reverse : Record κ (List κ)),
      u ∈ dependentsIn (ts.foldl (fun reverse task => task.dependsOn.foldl (addDependent task.id) reverse) reverse) k ↔
        u ∈ dependentsIn reverse k ∨ DependsOn ts u k := by
    intro ts
    induction ts with
    | nil => simp [DependsOn]
    | cons t ts ih =>
        intro reverse
        rw [List.foldl_cons, ih, mem_dependentsIn_foldl]
        simp only [DependsOn, List.exists_mem_cons_iff]
        constructor
        · rintro ((h | ⟨rfl, h⟩) | h)
          · exact Or.inl h
          · exact Or.inr (Or.inl ⟨rfl, h⟩)
          · exact Or.inr (Or.inr h)
        · rintro (h | ⟨rfl, h⟩ | h)
          · exact Or.inl (Or.inl h)
          · exact Or.inl (Or.inr ⟨rfl, h⟩)
          · exact Or.inr h
  rw [reverseEdges, hfold]
  simp [dependentsIn]

/-- The edges of the walk are the dependencies the other way. -/
theorem transGen_dependentsIn {tasks : List (DependentTask κ)} {k u : κ} :
    Relation.TransGen (Edge (dependentsIn (reverseEdges tasks))) k u ↔ Relation.TransGen (DependsOn tasks) u k := by
  have hedge : Edge (dependentsIn (reverseEdges tasks)) = Function.swap (DependsOn tasks) := by
    funext a b
    exact propext mem_dependentsIn_reverseEdges
  rw [hedge, Relation.transGen_swap]

theorem mem_keys_of_dependentsIn {reverse : Record κ (List κ)} {k : κ} (h : dependentsIn reverse k ≠ []) :
    k ∈ reverse.entries.map Prod.fst := by
  by_contra hk
  apply h
  unfold dependentsIn Record.get?
  cases hget : entryOf k reverse.entries with
  | none => rfl
  | some l => exact absurd (List.mem_map_of_mem (mem_of_entryOf hget)) hk

/-! ### The two walks -/

def transitiveDependents (fuel : ℕ) (tasks : List (DependentTask κ)) (taskId : κ) : Option (List κ) :=
  let reverse := reverseEdges tasks
  loop (walkStep (dependentsIn reverse) enqueueUnseen) fuel ([], dependentsIn reverse taskId)

/-- The dependents of one task: `pending` is a stack, here with its last element first. -/
def openDependents (fuel : ℕ) (reverse : Record κ (List κ)) (taskId : κ) : Option (List κ) :=
  loop (walkStep (dependentsIn reverse) pushAll) fuel ([], (dependentsIn reverse taskId).reverse)

def openDependentFanout (fuel : ℕ) (tasks : List (DependentTask κ)) (isOpen : κ → Bool) : Option (Record κ ℕ) :=
  let openTasks := tasks.filter fun task => isOpen task.id
  let reverse := reverseEdges openTasks
  openTasks.foldlM (fun fanout task => (openDependents fuel reverse task.id).map fun seen => fanout.set task.id seen.length) ∅

theorem transitiveDependents_ends (tasks : List (DependentTask κ)) (taskId : κ) :
    ∃ out : List κ, (∃ fuel, transitiveDependents fuel tasks taskId = some out) ∧ out.Nodup ∧
      ∀ id, id ∈ out ↔ Relation.TransGen (DependsOn tasks) id taskId := by
  obtain ⟨out, hends, hnodup, hout⟩ := walk_from joins_enqueueUnseen
    (fun a ha => mem_keys_of_dependentsIn ha) taskId (fun k => Iff.rfl)
  exact ⟨out, hends, hnodup, fun id => (hout id).trans transGen_dependentsIn⟩

theorem openDependents_ends (tasks : List (DependentTask κ)) (taskId : κ) :
    ∃ out : List κ, (∃ fuel, openDependents fuel (reverseEdges tasks) taskId = some out) ∧ out.Nodup ∧
      ∀ id, id ∈ out ↔ Relation.TransGen (DependsOn tasks) id taskId := by
  obtain ⟨out, hends, hnodup, hout⟩ := walk_from joins_pushAll
    (fun a ha => mem_keys_of_dependentsIn ha) taskId (fun k => List.mem_reverse)
  exact ⟨out, hends, hnodup, fun id => (hout id).trans transGen_dependentsIn⟩

/-! ### The fan-out of every open task -/

/-- The number of distinct ids from which a task is reached. -/
noncomputable def dependentCount (tasks : List (DependentTask κ)) (taskId : κ) : ℕ :=
  Set.ncard {id | Relation.TransGen (DependsOn tasks) id taskId}

omit [DecidableEq κ] in
theorem length_eq_dependentCount {tasks : List (DependentTask κ)} {taskId : κ} {out : List κ} (hnodup : out.Nodup)
    (hout : ∀ id, id ∈ out ↔ Relation.TransGen (DependsOn tasks) id taskId) :
    out.length = dependentCount tasks taskId := by
  classical
  have hset : {id | Relation.TransGen (DependsOn tasks) id taskId} = (out.toFinset : Set κ) := by
    ext id
    simp [hout]
  rw [dependentCount, hset, Set.ncard_coe_finset, List.toFinset_card_of_nodup hnodup]

/-- With enough fuel the walks of all the tasks in a list end. -/
theorem openDependents_lengths (tasks ts : List (DependentTask κ)) :
    ∃ fuel₀, ∀ fuel, fuel₀ ≤ fuel → ∀ t ∈ ts,
      (openDependents fuel (reverseEdges tasks) t.id).map List.length = some (dependentCount tasks t.id) := by
  apply exists_fuel_forall
  intro t _
  obtain ⟨out, ⟨fuel₀, hends⟩, hnodup, hout⟩ := openDependents_ends tasks t.id
  refine ⟨fuel₀, fun fuel hfuel => ?_⟩
  rw [openDependents, loop_mono hfuel hends, Option.map_some, length_eq_dependentCount hnodup hout]

/-- On every plan, `transitiveDependents` ends with exactly the ids that reach the task by one or more
dependencies, and `openDependentFanout` ends with the number of open ids that reach each open task through
open tasks. -/
theorem dependents_exact (tasks : List (DependentTask κ)) (isOpen : κ → Bool) :
    (∀ taskId, ∃ out : List κ, ∃ fuel₀, (∀ fuel, fuel₀ ≤ fuel → transitiveDependents fuel tasks taskId = some out) ∧
      out.Nodup ∧ ∀ id, id ∈ out ↔ Relation.TransGen (DependsOn tasks) id taskId) ∧
    ∃ fuel₀, ∀ fuel, fuel₀ ≤ fuel → ∃ fanout, openDependentFanout fuel tasks isOpen = some fanout ∧
      ∀ k, fanout.get? k = if k ∈ (tasks.filter fun task => isOpen task.id).map DependentTask.id
        then some (Set.ncard {id | Relation.TransGen (DependsOn (tasks.filter fun task => isOpen task.id)) id k})
        else none := by
  refine ⟨fun taskId => ?_, ?_⟩
  · obtain ⟨out, ⟨fuel, hends⟩, hnodup, hout⟩ := transitiveDependents_ends tasks taskId
    exact ⟨out, fuel, fun fuel' hfuel => loop_mono hfuel hends, hnodup, hout⟩
  · obtain ⟨fuel₀, hlengths⟩ := openDependents_lengths (tasks.filter fun task => isOpen task.id)
      (tasks.filter fun task => isOpen task.id)
    refine ⟨fuel₀, fun fuel hfuel => ?_⟩
    obtain ⟨fanout, hfanout, hget⟩ := Record.foldlM_set_eq (hlengths fuel hfuel) ∅
    simp only [Option.map_map] at hfanout
    exact ⟨fanout, hfanout, hget⟩

/-- A cycle, a repeated and an unknown dependency. -/
example : transitiveDependents 20 [⟨1, [2]⟩, ⟨2, [1, 1, 9]⟩, ⟨3, [2]⟩] 2 = some [2, 3, 1] := by decide

end Remudero.Dispatch
