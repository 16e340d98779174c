import Remudero.Lib.Greedy
import Remudero.Lib.Text

/-! # Tasks that touch the same files

`partitionByFileOverlap` of `lib/dispatch-overlap.ts`: the candidates are gone through in order and
one that overlaps a task already placed is deferred.  A task's scope is its declared `files:` and
the files it was observed to touch; one without any scope overlaps everything.

The tasks placed have no overlapping declarations, and the candidates fall into placed and deferred
ones, each deferred one behind a task placed before it (`OverlapContract`).  Two things that the
source says of the observed files hold only under a condition.  An undeclared task that was observed
is scored on the observed files alone, so that it may be placed beside another; and a task that is
deferred for its observed files no longer blocks the tasks after it.  `observed_only_adds_iff` is
the main result: for a list of candidates and all its sublists the observed files only add
deferrals, and no undeclared task is placed beside another, exactly under `ObservedAdds`. -/

namespace Remudero.Overlap

open Remudero.Lib

/-- What the check reads of a task. -/
structure Task where
  id : Text
  files : Option (List Text) := none
deriving DecidableEq

def Task.declared (t : Task) : List Text := t.files.getD []

/-- The files observed for each task id. -/
abbrev ObservedScopeByTask := Text → Option (List Text)

def noObservedScope : ObservedScopeByTask := fun _ => none

/-! ### Globs -/

/-- Trimmed, with slashes for backslashes and without a leading `./`. -/
def normalizePath (p : Text) : Text :=
  match p.trim.map fun c => if c = '\\' then '/' else c with
  | '.' :: '/' :: t => t
  | t => t

/-- Some text is matched by both patterns; `*` stands for any text. -/
def patternsIntersect : Text → Text → Bool
  | [], [] => true
  | a :: as, [] => a = '*' && patternsIntersect as []
  | [], b :: bs => b = '*' && patternsIntersect [] bs
  | a :: as, b :: bs =>
      if a = '*' then patternsIntersect as (b :: bs) || patternsIntersect (a :: as) bs
      else if b = '*' then patternsIntersect (a :: as) bs || patternsIntersect as (b :: bs)
      else a = b && patternsIntersect as bs
termination_by a b => a.length + b.length

def globsIntersect (a b : Text) : Bool :=
  let na := normalizePath a
  let nb := normalizePath b
  if na.all (· ≠ '*') && nb.all (· ≠ '*') then na = nb else patternsIntersect na nb

/-! ### Test files -/

def segments (p : Text) : List Text := Text.splitBy (· = '/') p

/-- A path matched by `^test\/(?:[^/]+\/)*[^/]+\.test\.ts$`, outside the fixtures and without `..`. -/
def isBasenameEligibleTestPath (p : Text) : Bool :=
  let segs := segments p
  let name := segs.getLast?.getD []
  segs.head? == some "test".toList && decide (2 ≤ segs.length) && segs.all (fun s => !s.isEmpty) &&
    ".test.ts".toList.isSuffixOf name && decide (".test.ts".toList.length < name.length) &&
    !"test/fixtures/".toList.isPrefixOf p && !segs.contains "..".toList

def sameTestFile (a b : Text) : Bool :=
  a = b || (isBasenameEligibleTestPath a && isBasenameEligibleTestPath b &&
    (segments a).getLast? == (segments b).getLast?)

/-! ### Overlaps -/

/-- Two entries may name one file. -/
def entriesMeet (a b : Text) : Bool :=
  sameTestFile (normalizePath a) (normalizePath b) || globsIntersect a b

def addHit (hits : List Text) (f : Text) : List Text := if f ∈ hits then hits else hits ++ [f]

/-- The entries of both lists that meet one of the other. -/
def intersectingEntries (filesA filesB : List Text) : List Text :=
  filesA.foldl (fun hits fa => filesB.foldl (fun hits fb =>
    if entriesMeet fa fb then addHit (addHit hits fa) fb else hits) hits) []

def overlappingPaths (filesA filesB : List Text) : List Text :=
  if filesA.isEmpty && filesB.isEmpty then ["*".toList]
  else if filesA.isEmpty then filesB
  else if filesB.isEmpty then filesA
  else intersectingEntries filesA filesB

variable (observed : ObservedScopeByTask)

def observedFiles (t : Task) : List Text := (observed t.id).getD []

/-- The declared files and the observed ones, each once. -/
def effectiveScope (t : Task) : List Text :=
  if (observedFiles observed t).isEmpty then t.declared
  else (t.declared ++ observedFiles observed t).foldl addHit []

/-! ### Partition -/

structure SerializedDeferral where
  task : Text
  blockedBy : Text
  paths : List Text
deriving DecidableEq

structure ScopeOverrunReport where
  task : Text
  declared : List Text
  observed : List Text
  overrun : List Text
deriving DecidableEq

structure OverlapPartition where
  dispatch : List Task := []
  serialized : List SerializedDeferral := []
  overruns : List ScopeOverrunReport := []
deriving DecidableEq

def overrunFiles (declared observed : List Text) : List Text :=
  observed.filter fun o => !declared.any fun d => globsIntersect d o

/-- The task placed overlaps the candidate. -/
def overlaps (placed candidate : Task) : Bool :=
  !(overlappingPaths (effectiveScope observed placed) (effectiveScope observed candidate)).isEmpty

/-- The report of a candidate that was observed outside its declaration. -/
def overrunReport (t : Task) : List ScopeOverrunReport :=
  let seen := observedFiles observed t
  let overrun := overrunFiles t.declared seen
  if !seen.isEmpty && !overrun.isEmpty then
    [{ task := t.id, declared := t.declared, observed := seen, overrun := overrun }]
  else []

/-- One candidate. -/
def placeCandidate (r : OverlapPartition) (candidate : Task) : OverlapPartition :=
  let reported := { r with overruns := r.overruns ++ overrunReport observed candidate }
  match r.dispatch.find? fun placed => overlaps observed placed candidate with
  | some blocker =>
      { reported with serialized := r.serialized ++ [
          { task := candidate.id, blockedBy := blocker.id
            paths := overlappingPaths (effectiveScope observed blocker)
              (effectiveScope observed candidate) }] }
  | none => { reported with dispatch := r.dispatch ++ [candidate] }

def partitionByFileOverlap (candidates : List Task) : OverlapPartition :=
  candidates.foldl (placeCandidate observed) {}

/-! ### Scopes that meet -/

theorem addHit_ne_nil (hits : List Text) (f : Text) : addHit hits f ≠ [] := by
  unfold addHit
  split_ifs with h
  · exact List.ne_nil_of_mem h
  · simp

theorem mem_foldl_addHit {f : Text} (l hits : List Text) :
    f ∈ l.foldl addHit hits ↔ f ∈ hits ∨ f ∈ l := by
  induction l generalizing hits with
  | nil => simp
  | cons g l ih =>
      have hmem : f ∈ addHit hits g ↔ f ∈ hits ∨ f = g := by
        unfold addHit
        split_ifs with hg
        · constructor
          · exact .inl
          · rintro (hf | rfl)
            · exact hf
            · exact hg
        · simp
      rw [List.foldl_cons, ih, hmem, List.mem_cons, or_assoc]

/-- The inner loop finds something, or leaves the hits alone. -/
theorem foldl_hits (fa : Text) (filesB hits : List Text) :
    filesB.foldl (fun hits fb =>
      if entriesMeet fa fb then addHit (addHit hits fa) fb else hits) hits = [] ↔
        hits = [] ∧ ∀ fb ∈ filesB, entriesMeet fa fb = false := by
  induction filesB generalizing hits with
  | nil => simp
  | cons fb filesB ih =>
      rw [List.foldl_cons, ih]
      cases hmeet : entriesMeet fa fb with
      | true => simp [addHit_ne_nil, hmeet]
      | false => simp [hmeet]

theorem intersectingEntries_eq_nil (filesA filesB : List Text) :
    intersectingEntries filesA filesB = [] ↔
      ∀ fa ∈ filesA, ∀ fb ∈ filesB, entriesMeet fa fb = false := by
  have hfold : ∀ hits : List Text, filesA.foldl (fun hits fa => filesB.foldl (fun hits fb =>
      if entriesMeet fa fb then addHit (addHit hits fa) fb else hits) hits) hits = [] ↔
        hits = [] ∧ ∀ fa ∈ filesA, ∀ fb ∈ filesB, entriesMeet fa fb = false := by
    induction filesA with
    | nil => simp
    | cons fa filesA ih =>
        intro hits
        rw [List.foldl_cons, ih, foldl_hits, List.forall_mem_cons, and_assoc]
  have hstart := hfold []
  simp only [true_and] at hstart
  exact hstart

/-- Two scopes overlap unless both name files and no two of them meet. -/
theorem overlappingPaths_eq_nil (filesA filesB : List Text) :
    overlappingPaths filesA filesB = [] ↔
      filesA ≠ [] ∧ filesB ≠ [] ∧ ∀ fa ∈ filesA, ∀ fb ∈ filesB, entriesMeet fa fb = false := by
  unfold overlappingPaths
  cases filesA with
  | nil => cases filesB <;> simp
  | cons fa filesA =>
      cases filesB with
      | nil => simp
      | cons fb filesB => simp [intersectingEntries_eq_nil]

section Scope

variable {observed} {a b : Task}

theorem declared_subset_effectiveScope (t : Task) : t.declared ⊆ effectiveScope observed t := by
  intro f hf
  unfold effectiveScope
  split_ifs
  · exact hf
  · rw [mem_foldl_addHit]
    exact .inr (List.mem_append_left _ hf)

theorem overlaps_eq_false :
    overlaps observed a b = false ↔ effectiveScope observed a ≠ [] ∧ effectiveScope observed b ≠ [] ∧
      ∀ fa ∈ effectiveScope observed a, ∀ fb ∈ effectiveScope observed b,
        entriesMeet fa fb = false := by
  rw [← overlappingPaths_eq_nil, overlaps, Bool.not_eq_false', List.isEmpty_iff]

/-- Tasks that do not overlap have no declared entries that meet. -/
theorem declared_disjoint (h : overlaps observed a b = false) :
    intersectingEntries a.declared b.declared = [] := by
  obtain ⟨-, -, hmeet⟩ := overlaps_eq_false.mp h
  rw [intersectingEntries_eq_nil]
  exact fun fa ha fb hb =>
    hmeet fa (declared_subset_effectiveScope a ha) fb (declared_subset_effectiveScope b hb)

/-- For declared tasks the observed files only add overlaps. -/
theorem overlaps_of_declared (ha : a.declared ≠ []) (hb : b.declared ≠ [])
    (h : overlaps noObservedScope a b = true) : overlaps observed a b = true := by
  rw [← Bool.not_eq_false] at h ⊢
  intro hno
  obtain ⟨-, -, hmeet⟩ := overlaps_eq_false.mp hno
  refine h (overlaps_eq_false.mpr ⟨ha, hb, ?_⟩)
  exact fun fa hfa fb hfb =>
    hmeet fa (declared_subset_effectiveScope a hfa) fb (declared_subset_effectiveScope b hfb)

end Scope

/-! ### The partition by fates -/

/-- Each candidate with the task that blocks it. -/
def taskFates (candidates : List Task) : List (Task × Option Task) :=
  fates (overlaps observed) [] candidates

/-- The entry of a deferred candidate. -/
def deferral (x : Task × Option Task) : Option SerializedDeferral :=
  x.2.map fun blocker =>
    { task := x.1.id, blockedBy := blocker.id
      paths := overlappingPaths (effectiveScope observed blocker) (effectiveScope observed x.1) }

theorem foldl_placeCandidate (candidates : List Task) (r : OverlapPartition) :
    (candidates.foldl (placeCandidate observed) r).dispatch =
        r.dispatch ++ kept (fates (overlaps observed) r.dispatch candidates) ∧
      (candidates.foldl (placeCandidate observed) r).serialized =
        r.serialized ++ (fates (overlaps observed) r.dispatch candidates).filterMap
          (deferral observed) := by
  induction candidates generalizing r with
  | nil => simp [fates, kept]
  | cons t candidates ih =>
      rw [List.foldl_cons]
      obtain ⟨hd, hs⟩ := ih (placeCandidate observed r t)
      rw [hd, hs]
      cases hfind : r.dispatch.find? fun placed => overlaps observed placed t with
      | some blocker =>
          rw [fates_cons_some hfind, kept_cons_some, placeCandidate, hfind]
          simp [deferral]
      | none =>
          have hnone : deferral observed (t, none) = none := rfl
          rw [fates_cons_none hfind, kept_cons_none, placeCandidate, hfind, List.filterMap_cons, hnone]
          simp

theorem partition_dispatch (candidates : List Task) :
    (partitionByFileOverlap observed candidates).dispatch = kept (taskFates observed candidates) :=
  (foldl_placeCandidate observed candidates {}).1

theorem partition_serialized (candidates : List Task) :
    (partitionByFileOverlap observed candidates).serialized =
      (taskFates observed candidates).filterMap (deferral observed) :=
  (foldl_placeCandidate observed candidates {}).2

/-! ### What the partition promises -/

/-- The candidates in their order, each placed or deferred behind a task placed before it; the tasks
placed have disjoint declarations and an undeclared one is alone; and every candidate deferred on
the declarations alone is deferred with the observed files. -/
structure OverlapContract (candidates : List Task) : Prop where
  order : (taskFates observed candidates).map Prod.fst = candidates
  dispatch : (partitionByFileOverlap observed candidates).dispatch =
    kept (taskFates observed candidates)
  serialized : (partitionByFileOverlap observed candidates).serialized =
    (taskFates observed candidates).filterMap (deferral observed)
  blocked : ∀ before t blocker after,
    taskFates observed candidates = before ++ (t, some blocker) :: after → blocker ∈ kept before
  disjoint : (partitionByFileOverlap observed candidates).dispatch.Pairwise
    fun a b => intersectingEntries a.declared b.declared = []
  declared : (partitionByFileOverlap observed candidates).dispatch.Pairwise
    fun a b => a.declared ≠ [] ∧ b.declared ≠ []
  adds : List.Forall₂ (fun x y => x.2.isSome = true → y.2.isSome = true)
    (taskFates noObservedScope candidates) (taskFates observed candidates)

/-- The observed files leave an undeclared task overlapping all others, and defer no task that would
have blocked another one that is then placed. -/
structure ObservedAdds (candidates : List Task) : Prop where
  undeclared : candidates.Pairwise fun a b =>
    a.declared = [] ∨ b.declared = [] → overlaps observed a b = true
  chainFree : ChainFree (overlaps noObservedScope) (overlaps observed) candidates

section Contract

variable {observed} {candidates : List Task}

theorem ObservedAdds.sublist (h : ObservedAdds observed candidates) {sub : List Task}
    (hsub : sub.Sublist candidates) : ObservedAdds observed sub :=
  ⟨h.undeclared.sublist hsub, fun a b c habc => h.chainFree a b c (habc.trans hsub)⟩

theorem overlaps_mono
    (h : candidates.Pairwise fun a b => a.declared = [] ∨ b.declared = [] → overlaps observed a b = true) :
    candidates.Pairwise fun a b => overlaps noObservedScope a b = true → overlaps observed a b = true := by
  refine h.imp ?_
  intro a b hun hno
  by_cases hd : a.declared = [] ∨ b.declared = []
  · exact hun hd
  · rw [not_or] at hd
    exact overlaps_of_declared hd.1 hd.2 hno

variable (observed) in
theorem pairwise_dispatch (candidates : List Task) :
    (partitionByFileOverlap observed candidates).dispatch.Pairwise
      fun a b => overlaps observed a b = false := by
  rw [partition_dispatch]
  exact pairwise_kept candidates List.Pairwise.nil

theorem dispatch_sublist (candidates : List Task) :
    (partitionByFileOverlap observed candidates).dispatch.Sublist candidates := by
  rw [partition_dispatch]
  exact kept_fates_sublist [] candidates

theorem ObservedAdds.contract (h : ObservedAdds observed candidates) :
    OverlapContract observed candidates := by
  have hpair := pairwise_dispatch observed candidates
  refine ⟨map_fst_fates [] candidates, partition_dispatch observed candidates,
    partition_serialized observed candidates, ?_, hpair.imp declared_disjoint, ?_,
    fates_mono (overlaps_mono h.undeclared) h.chainFree⟩
  · intro before t blocker after hfate
    simpa using (blocker_placed hfate).1
  · refine (hpair.and (h.undeclared.sublist (dispatch_sublist candidates))).imp ?_
    rintro a b ⟨hno, hun⟩
    rw [← not_or]
    intro hd
    rw [hun hd] at hno
    cases hno

/-- Two tasks that do not overlap are both placed. -/
theorem dispatch_pair {a b : Task} (h : overlaps observed a b = false) :
    (partitionByFileOverlap observed [a, b]).dispatch = [a, b] := by
  rw [partition_dispatch]
  simp [taskFates, fates, kept, h]

theorem observedAdds_of_contract
    (h : ∀ sub, sub.Sublist candidates → OverlapContract observed sub) :
    ObservedAdds observed candidates := by
  have hun : candidates.Pairwise fun a b =>
      a.declared = [] ∨ b.declared = [] → overlaps observed a b = true := by
    rw [List.pairwise_iff_forall_sublist]
    intro a b hab hd
    by_contra hno
    have hplaced := (h [a, b] hab).declared
    rw [dispatch_pair (by simpa using hno)] at hplaced
    obtain ⟨ha, hb⟩ := List.pairwise_pair.mp hplaced
    exact hd.elim ha hb
  refine ⟨hun, ?_⟩
  intro a b c habc hchain
  have hac : [a, c].Sublist candidates :=
    (((List.sublist_cons_self b [c]).cons_cons a)).trans habc
  have hmono := List.pairwise_iff_forall_sublist.mp (overlaps_mono hun) hac
  exact chain_not_mono hchain hmono (h [a, b, c] habc).adds

end Contract

/-- **The observed files only add deferrals, and no undeclared task is placed beside another**, in
every sublist of the candidates, exactly when they leave undeclared tasks overlapping and break no
blocking. -/
theorem observed_only_adds_iff (observed : ObservedScopeByTask) (candidates : List Task) :
    (∀ sub, sub.Sublist candidates → OverlapContract observed sub) ↔
      ObservedAdds observed candidates :=
  ⟨observedAdds_of_contract, fun h _ hsub => (h.sublist hsub).contract⟩

/-- `A` was observed in a file of `B`, which then no longer blocks `C`; and `U`, which declares no
files, is placed beside `V` once it was observed elsewhere. -/
theorem observed_removes_deferral :
    let a : Task := { id := "A".toList, files := some ["a.ts".toList] }
    let b : Task := { id := "B".toList, files := some ["b.ts".toList, "c.ts".toList] }
    let c : Task := { id := "C".toList, files := some ["c.ts".toList] }
    let u : Task := { id := "U".toList }
    let v : Task := { id := "V".toList, files := some ["v.ts".toList] }
    let observed : ObservedScopeByTask := fun id =>
      if id = "A".toList then some ["b.ts".toList]
      else if id = "U".toList then some ["u.ts".toList] else none
    ((partitionByFileOverlap noObservedScope [a, b, c]).serialized.map SerializedDeferral.task =
        ["C".toList] ∧
      (partitionByFileOverlap observed [a, b, c]).serialized.map SerializedDeferral.task =
        ["B".toList]) ∧
    (partitionByFileOverlap noObservedScope [u, v]).dispatch = [u] ∧
      (partitionByFileOverlap observed [u, v]).dispatch = [u, v] := by
  decide +kernel

end Remudero.Overlap
