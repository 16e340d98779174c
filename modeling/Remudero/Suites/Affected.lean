import Remudero.Lib.Comparators
import Remudero.Lib.Record
import Remudero.Lib.Utf16
import Remudero.Lib.Worklist

/-! # Affected suites

`buildAffectedSuitesGraph` and `selectAffectedSuites` of `lib/affected-suites.ts`: which test suites a change
selects.  The changed suites select themselves, and a walk over the reversed import graph selects the suites
that reach a changed module.  The graph of the selector is built with the changed paths as further
targets, so that an import of a deleted file still has one.

How a file is read is a parameter (`Reader`): the specifiers and the paths that a content names, and the
package's `imports` map.  The other arms of the selector only add suites; what they add is part of the
input.

The main result is `selectAffectedSuites_floor`: nothing is missed as long as no import is redirected to a
changed path that is neither code nor a contract (`Redirected`). -/

namespace Remudero.Suites

open Remudero.Lib

/-! ### Paths -/

def startsWith (t : Text) (head : String) : Bool := head.toList.isPrefixOf t

/-- `CODE_FILE`. -/
def codeFile (f : Text) : Bool := [".ts", ".mts", ".mjs", ".js", ".cjs"].any (Text.endsWith f)

/-- `SUITE`: `^test\/.*\.test\.ts$`. -/
def suite (f : Text) : Bool :=
  startsWith f "test/" && Text.endsWith (f.drop 5) ".test.ts" &&
    ((f.drop 5).take ((f.drop 5).length - 8)).all fun c => !Text.lineTerminator c

/-- `MODELLED`. -/
def modelled (f : Text) : Bool :=
  ["src/", "scripts/", "bin/", "test/", "docs/", "doctrine/", "plan/"].any (startsWith f) ||
    (Text.endsWith f ".md" && 3 < f.length && f.all (· != '/'))

/-- `CONTRACT_FILE`. -/
def contractFile (f : Text) : Bool :=
  f == "openapi/daemon.yaml".toList || f == "packages/api-client/src/schema.d.ts".toList

/-- `READ_MAPPED`. -/
def readMapped (f : Text) : Bool := startsWith f "openapi/" || startsWith f "deploy/" || Text.endsWith f ".json"

def fullRunTrigger (changed : List Text) (readMapUsable : Bool) : Option Text :=
  changed.find? fun f =>
    if contractFile f then false
    else if startsWith f "openapi/" || startsWith f "packages/" then true
    else !(readMapUsable && readMapped f) && (!modelled f || (startsWith f "test/" && !suite f))

/-- The segments of a path; `..` takes the one before it away. -/
def normalSegments (above : Bool) (segments : List Text) : List Text :=
  (segments.foldl (fun (out : List Text) s =>
    if s = [] ∨ s = ".".toList then out
    else if s = "..".toList then
      match out with
      | last :: before => if last = "..".toList then s :: out else before
      | [] => if above then [s] else []
    else s :: out) []).reverse

/-- `normalize` of a POSIX path. -/
def normalize (p : Text) : Text :=
  if p = [] then ".".toList
  else
    let absolute := startsWith p "/"
    let trailing := Text.endsWith p "/"
    let path := Text.join "/".toList (normalSegments (!absolute) (Text.splitBy (· == '/') p))
    if path = [] then (if absolute then "/".toList else if trailing then "./".toList else ".".toList)
    else (if absolute then "/".toList else []) ++ path ++ (if trailing then "/".toList else [])

/-- `join` of two. -/
def joinPaths (a b : Text) : Text := normalize (Text.join "/".toList ([a, b].filter fun t => t ≠ []))

/-- `dirname` of a path with no slash at its end. -/
def dirname (p : Text) : Text :=
  let dir := (p.reverse.dropWhile (· != '/')).drop 1
  if p.all (· != '/') then ".".toList
  else if dir = [] then "/".toList
  else if dir = "/".toList then "//".toList
  else dir.reverse

/-! ### The graph -/

/-- How files are read. -/
structure Reader where
  stripComments : Text → Text
  specifiers : Text → List Text
  /-- Each path with where it stands. -/
  namedPaths : Text → List (Text × ℕ)
  /-- Whether the path that stands there is used at run time. -/
  usedAtRuntime : Text → ℕ → Bool
  /-- The base of a specifier with `#`, by the package's `imports`. -/
  aliasBase : Text → Option Text

/-- `base.replace(/\.(?:js|mjs|cjs)$/, "")`. -/
def stemOf (base : Text) : Text :=
  if Text.endsWith base ".mjs" || Text.endsWith base ".cjs" then base.take (base.length - 4)
  else if Text.endsWith base ".js" then base.take (base.length - 3)
  else base

def candidates (base : Text) : List Text :=
  let stem := stemOf base
  [base, stem ++ ".ts".toList, stem ++ ".mts".toList, base ++ ".ts".toList, base ++ ".mjs".toList, base ++ ".js".toList,
    base ++ "/index.ts".toList]

def resolveBase (base : Text) (known : List Text) : Option Text := (candidates base).find? fun c => c ∈ known

/-- The base path of a specifier. -/
def baseOf (reader : Reader) (file spec : Text) : Option Text :=
  if startsWith spec "#" then reader.aliasBase spec
  else if !startsWith spec "." then none
  else some ((normalize (joinPaths (dirname file) spec)).map fun c => if c == '\\' then '/' else c)

def resolve (reader : Reader) (file spec : Text) (known : List Text) : Option Text :=
  (baseOf reader file spec).bind fun base => resolveBase base known

def namedEdges (reader : Reader) (file content : Text) (known : List Text) : List Text :=
  ((reader.namedPaths content).filter fun p =>
    p.1 ∈ known && (!startsWith file "src/" || reader.usedAtRuntime content p.2)).map Prod.fst

/-- `dependencies.get(file)`. -/
def dependenciesOf (reader : Reader) (known : List Text) (file text : Text) : List Text :=
  let content := reader.stripComments text
  let imported := ((reader.specifiers content).filterMap fun s => resolve reader file s known).filter fun dep => dep ≠ file
  let named := (namedEdges reader file content known).filter fun dep => dep ≠ file
  (imported ++ named).eraseDups

abbrev Files := Record Text Text

/-- The code files of a tree. -/
def codeFiles (files : Files) : List (Text × Text) := files.entries.filter fun e => codeFile e.1

def knownPaths (files : Files) (extraTargets : List Text) : List Text := (codeFiles files).map Prod.fst ++ extraTargets

/-- The files with their dependencies. -/
def buildAffectedSuitesGraph (reader : Reader) (files : Files) (extraTargets : List Text) : List (Text × List Text) :=
  (codeFiles files).map fun e => (e.1, dependenciesOf reader (knownPaths files extraTargets) e.1 e.2)

/-- `importers.get(dep)`. -/
def importers (graph : List (Text × List Text)) (dep : Text) : List Text :=
  (graph.filter fun e => dep ∈ e.2).map Prod.fst

/-! ### The selector -/

structure Input where
  files : Files
  /-- Why the read map cannot speak for the change, if it cannot. -/
  mapProblem : Option Text
  /-- What the other arms pick before and after the walk, and what they note. -/
  before : List (Text × Text)
  after : List (Text × Text)
  notes : List Text

inductive Selection where
  | fullRun (reason : Text)
  | floor (suites : List Text) (reasons : List Text)

def pick (reasons : Record Text Text) (p : Text × Text) : Record Text Text :=
  if (reasons.get? p.1).isSome then reasons else reasons.set p.1 p.2

/-- The state of the walk.  The two sets of visited files are one here, each file with whether its root is a
contract. -/
structure Walk where
  visited : List (Bool × Text)
  queue : List (Text × Text)
  reasons : Record Text Text

def visit (graph : List (Text × List Text)) (w : Walk) : Walk ⊕ Walk :=
  match w.queue with
  | [] => .inr w
  | (file, root) :: rest =>
      let node := (contractFile root, file)
      if node ∈ w.visited then .inl { w with queue := rest }
      else
        .inl {
          visited := node :: w.visited
          queue := rest ++ (importers graph file).map fun next => (next, root)
          reasons := if suite file && file != root then pick w.reasons (file, "reaches ".toList ++ root) else w.reasons }

/-- The roots of the walk. -/
def isRoot (f : Text) : Bool := codeFile f || contractFile f

def startWalk (files : List Text) (before : List (Text × Text)) : Walk where
  visited := []
  queue := (files.filter isRoot).map fun f => (f, f)
  reasons := before.foldl pick (((files.filter suite).map fun f => (f, "changed test".toList)).foldl pick ∅)

def finish (input : Input) (w : Walk) : Selection :=
  let reasons := input.after.foldl pick w.reasons
  let suites := ((reasons.entries.map Prod.fst).filter suite).mergeSort fun a b => (compare (Text.utf16 a) (Text.utf16 b)).isLE
  .floor suites ((suites.map fun s => s ++ ": ".toList ++ (reasons.get? s).getD []) ++ input.notes)

/-- Which file forced a full run, and why the read map does not speak for it. -/
def outsideReason (mapProblem : Option Text) (trigger : Text) : Text :=
  let why := match readMapped trigger, mapProblem with
    | true, some problem => " (the read map cannot speak for it: ".toList ++ problem ++ ")".toList
    | _, _ => []
  "full run: ".toList ++ trigger ++ " is outside what the selector models".toList ++ why

def absentReason (absent : Text) : Text :=
  "full run: changed suite ".toList ++ absent ++ " is absent from the current selector input".toList

def selectAffectedSuites (reader : Reader) (fuel : ℕ) (changed : List Text) (input : Input) : Option Selection :=
  let files := changed.filter fun f => f ≠ []
  match fullRunTrigger files input.mapProblem.isNone with
  | some trigger => some (.fullRun (outsideReason input.mapProblem trigger))
  | none =>
      match files.find? fun file => suite file && (input.files.get? file).isNone with
      | some absent => some (.fullRun (absentReason absent))
      | none =>
          (loop (visit (buildAffectedSuitesGraph reader input.files files)) fuel (startWalk files input.before)).map
            (finish input)

/-! ### Edges -/

section edges

variable {reader : Reader} {files : Files} {extra : List Text}

/-- One dependency in the graph. -/
def Depends (reader : Reader) (files : Files) (extra : List Text) (file dep : Text) : Prop :=
  ∃ deps, (file, deps) ∈ buildAffectedSuitesGraph reader files extra ∧ dep ∈ deps

theorem mem_importers {graph : List (Text × List Text)} {dep file : Text} :
    file ∈ importers graph dep ↔ ∃ deps, (file, deps) ∈ graph ∧ dep ∈ deps := by
  simp [importers]

theorem depends_iff {file dep : Text} :
    Depends reader files extra file dep ↔
      ∃ text, (file, text) ∈ codeFiles files ∧ dep ∈ dependenciesOf reader (knownPaths files extra) file text := by
  constructor
  · rintro ⟨deps, hmem, hdep⟩
    obtain ⟨⟨f, text⟩, htext, heq⟩ := List.mem_map.mp hmem
    obtain ⟨rfl, rfl⟩ := Prod.mk.inj heq
    exact ⟨text, htext, hdep⟩
  · rintro ⟨text, htext, hdep⟩
    exact ⟨_, List.mem_map_of_mem htext, hdep⟩

theorem mem_dependenciesOf {known : List Text} {file text dep : Text} :
    dep ∈ dependenciesOf reader known file text ↔ dep ≠ file ∧
      ((∃ spec ∈ reader.specifiers (reader.stripComments text), resolve reader file spec known = some dep) ∨
        dep ∈ namedEdges reader file (reader.stripComments text) known) := by
  simp only [dependenciesOf, List.mem_eraseDups, List.mem_append, List.mem_filter, List.mem_filterMap, decide_eq_true_eq]
  rw [← or_and_right, and_comm]

theorem mem_namedEdges {known : List Text} {file content dep : Text} :
    dep ∈ namedEdges reader file content known ↔ dep ∈ known ∧
      ∃ at_, (dep, at_) ∈ reader.namedPaths content ∧
        (!startsWith file "src/" || reader.usedAtRuntime content at_) = true := by
  simp only [namedEdges, List.mem_map, List.mem_filter, Bool.and_eq_true, decide_eq_true_eq, Prod.exists, exists_and_right,
    exists_eq_right]
  constructor
  · rintro ⟨place, hmem, hknown, hused⟩
    exact ⟨hknown, place, hmem, hused⟩
  · rintro ⟨hknown, place, hmem, hused⟩
    exact ⟨place, hmem, hknown, hused⟩

/-- Every candidate but the base itself is a code file. -/
theorem codeFile_of_mem_candidates {base c : Text} (h : c ∈ candidates base) : c = base ∨ codeFile c = true := by
  have hends : ∀ (t : Text) (tail : String), Text.endsWith (t ++ tail.toList) tail = true := fun t tail =>
    List.isSuffixOf_iff_suffix.mpr (List.suffix_append _ _)
  have hcode : ∀ (t : Text) (tail : String), tail ∈ [".ts", ".mts", ".mjs", ".js", ".cjs"] → codeFile (t ++ tail.toList) = true :=
    fun t tail htail => List.any_eq_true.mpr ⟨tail, htail, hends t tail⟩
  have hindex : base ++ "/index.ts".toList = (base ++ "/index".toList) ++ ".ts".toList := by
    rw [List.append_assoc]
    rfl
  simp only [candidates, List.mem_cons, List.not_mem_nil, or_false] at h
  obtain rfl | rfl | rfl | rfl | rfl | rfl | rfl := h
  · exact Or.inl rfl
  · exact Or.inr (hcode _ ".ts" (by simp))
  · exact Or.inr (hcode _ ".mts" (by simp))
  · exact Or.inr (hcode _ ".ts" (by simp))
  · exact Or.inr (hcode _ ".mjs" (by simp))
  · exact Or.inr (hcode _ ".js" (by simp))
  · rw [hindex]
    exact Or.inr (hcode _ ".ts" (by simp))

/-- More known paths keep what a base resolves to, or give it an earlier candidate that is new. -/
theorem resolveBase_append {base : Text} {known : List Text} (extra : List Text) {dep : Text}
    (h : resolveBase base known = some dep) :
    resolveBase base (known ++ extra) = some dep ∨
      ∃ c ∈ candidates base, resolveBase base (known ++ extra) = some c ∧ c ∈ extra ∧ c ∉ known := by
  have hdep := List.find?_some h
  cases hmore : resolveBase base (known ++ extra) with
  | none =>
      have hnone := List.find?_eq_none.mp hmore dep (List.mem_of_find?_eq_some h)
      simp only [decide_eq_true_eq] at hdep
      simp [hdep] at hnone
  | some c =>
      have hc := List.find?_some hmore
      simp only [decide_eq_true_eq] at hc
      by_cases hknown : c ∈ known
      · left
        obtain ⟨-, before, after, heq, hbefore⟩ := List.find?_eq_some_iff_append.mp hmore
        have hfirst : resolveBase base known = some c := by
          rw [resolveBase, List.find?_eq_some_iff_append]
          refine ⟨decide_eq_true hknown, before, after, heq, fun a ha => ?_⟩
          have hnot := hbefore a ha
          simp only [Bool.not_eq_eq_eq_not, Bool.not_true, decide_eq_false_iff_not, List.mem_append, not_or] at hnot ⊢
          exact hnot.1
        rw [h] at hfirst
        exact hfirst.symm ▸ rfl
      · exact Or.inr ⟨c, List.mem_of_find?_eq_some hmore, rfl, (List.mem_append.mp hc).resolve_left hknown, hknown⟩

end edges

/-! ### The walk -/

section walk

variable {graph : List (Text × List Text)}

/-- The successors of a node of the walk: the importers, under a root of the same kind. -/
def nextNodes (graph : List (Text × List Text)) (node : Bool × Text) : List (Bool × Text) :=
  (importers graph node.2).map fun f => (node.1, f)

/-- The walk without its roots and reasons. -/
def Walk.nodes (w : Walk) : List (Bool × Text) × List (Bool × Text) :=
  (w.visited, w.queue.map fun p => (contractFile p.2, p.1))

theorem visit_of_mem {visited : List (Bool × Text)} {file root : Text} (rest : List (Text × Text)) (reasons : Record Text Text)
    (h : (contractFile root, file) ∈ visited) :
    visit graph ⟨visited, (file, root) :: rest, reasons⟩ = .inl ⟨visited, rest, reasons⟩ := if_pos h

theorem visit_of_not_mem {visited : List (Bool × Text)} {file root : Text} (rest : List (Text × Text))
    (reasons : Record Text Text) (h : (contractFile root, file) ∉ visited) :
    visit graph ⟨visited, (file, root) :: rest, reasons⟩ = .inl {
      visited := (contractFile root, file) :: visited
      queue := rest ++ (importers graph file).map fun next => (next, root)
      reasons := if suite file && file != root then pick reasons (file, "reaches ".toList ++ root) else reasons } := if_neg h

theorem visit_left {w r : Walk} (h : visit graph w = .inr r) : r = w := by
  obtain ⟨visited, queue, reasons⟩ := w
  cases queue with
  | nil => exact (Sum.inr.inj h).symm
  | cons p rest =>
      obtain ⟨file, root⟩ := p
      by_cases hnode : (contractFile root, file) ∈ visited
      · rw [visit_of_mem rest reasons hnode] at h
        cases h
      · rw [visit_of_not_mem rest reasons hnode] at h
        cases h

theorem walkStep_nodes (w : Walk) :
    walkStep (nextNodes graph) enqueueAll w.nodes = (visit graph w).map Walk.nodes Walk.visited := by
  obtain ⟨visited, queue, reasons⟩ := w
  cases queue with
  | nil => rfl
  | cons p rest =>
      obtain ⟨file, root⟩ := p
      by_cases hnode : (contractFile root, file) ∈ visited
      · rw [visit_of_mem rest reasons hnode]
        exact if_pos hnode
      · rw [visit_of_not_mem rest reasons hnode]
        refine (if_neg hnode).trans ?_
        simp only [Sum.map_inl, Walk.nodes, nextNodes, enqueueAll, List.map_append, List.map_map]
        rfl

theorem get?_pick_of_isSome {reasons : Record Text Text} {s : Text} (p : Text × Text) (h : (reasons.get? s).isSome = true) :
    ((pick reasons p).get? s).isSome = true := by
  unfold pick
  split
  · exact h
  · by_cases hs : s = p.1
    · rw [hs, Record.get?_set_self]
      rfl
    · rw [Record.get?_set_of_ne _ _ hs]
      exact h

theorem get?_pick_self (reasons : Record Text Text) (p : Text × Text) : ((pick reasons p).get? p.1).isSome = true := by
  unfold pick
  split
  · next h => exact h
  · rw [Record.get?_set_self]
    rfl

theorem get?_foldl_pick {reasons : Record Text Text} {s : Text} (picks : List (Text × Text))
    (h : (reasons.get? s).isSome = true ∨ s ∈ picks.map Prod.fst) : ((picks.foldl pick reasons).get? s).isSome = true := by
  induction picks generalizing reasons with
  | nil => exact h.resolve_right List.not_mem_nil
  | cons p picks ih =>
      apply ih
      obtain h | h := h
      · exact Or.inl (get?_pick_of_isSome p h)
      · obtain rfl | h := List.mem_cons.mp h
        · exact Or.inl (get?_pick_self reasons p)
        · exact Or.inr h

theorem of_get?_pick {reasons : Record Text Text} {p : Text × Text} {s : Text} (h : ((pick reasons p).get? s).isSome = true) :
    (reasons.get? s).isSome = true ∨ s = p.1 := by
  unfold pick at h
  split at h
  · exact Or.inl h
  · by_cases hs : s = p.1
    · exact Or.inr hs
    · rw [Record.get?_set_of_ne _ _ hs] at h
      exact Or.inl h

theorem get?_foldl_pick_iff {reasons : Record Text Text} {s : Text} (picks : List (Text × Text)) :
    ((picks.foldl pick reasons).get? s).isSome = true ↔ (reasons.get? s).isSome = true ∨ s ∈ picks.map Prod.fst := by
  refine ⟨fun h => ?_, get?_foldl_pick picks⟩
  induction picks generalizing reasons with
  | nil => exact Or.inl h
  | cons p picks ih =>
      obtain h | h := ih h
      · obtain h | rfl := of_get?_pick h
        · exact Or.inl h
        · exact Or.inr List.mem_cons_self
      · exact Or.inr (List.mem_cons_of_mem _ h)

/-- What every round keeps: the roots are changed, and a reason have the changed suites, the suites that were visited, and
what was picked before the walk; nothing else has one. -/
structure WalkInv (files : List Text) (before : Text → Prop) (w : Walk) : Prop where
  changed : ∀ s ∈ files, suite s = true → (w.reasons.get? s).isSome = true
  roots : ∀ p ∈ w.queue, p.2 ∈ files
  visited : ∀ n ∈ w.visited, suite n.2 = true → (w.reasons.get? n.2).isSome = true
  picked : ∀ s, before s → (w.reasons.get? s).isSome = true
  sound : ∀ s, (w.reasons.get? s).isSome = true → before s ∨ ∃ contract, (contract, s) ∈ w.visited

theorem WalkInv.visit {changed : List Text} {picked : Text → Prop} {w w' : Walk} (h : WalkInv changed picked w)
    (hvisit : visit graph w = .inl w') : WalkInv changed picked w' := by
  obtain ⟨visited, queue, reasons⟩ := w
  cases queue with
  | nil => cases hvisit
  | cons p rest =>
      obtain ⟨file, root⟩ := p
      have hrest : ∀ p ∈ rest, p.2 ∈ changed := fun p hp => h.roots p (List.mem_cons_of_mem _ hp)
      have hroot : root ∈ changed := h.roots (file, root) List.mem_cons_self
      by_cases hnode : (contractFile root, file) ∈ visited
      · rw [visit_of_mem rest reasons hnode] at hvisit
        obtain rfl := Sum.inl.inj hvisit
        exact ⟨h.changed, hrest, h.visited, h.picked, h.sound⟩
      · rw [visit_of_not_mem rest reasons hnode] at hvisit
        obtain rfl := Sum.inl.inj hvisit
        have hkeep : ∀ s, (reasons.get? s).isSome = true →
            ((if suite file && file != root then pick reasons (file, "reaches ".toList ++ root) else reasons).get? s).isSome
              = true := by
          intro s hs
          split
          · exact get?_pick_of_isSome _ hs
          · exact hs
        refine ⟨fun s hs hsuite => hkeep s (h.changed s hs hsuite), ?_, ?_, fun s hs => hkeep s (h.picked s hs), ?_⟩
        · intro p hp
          obtain hp | hp := List.mem_append.mp hp
          · exact hrest p hp
          · obtain ⟨next, -, rfl⟩ := List.mem_map.mp hp
            exact hroot
        · intro n hn hsuite
          obtain rfl | hn := List.mem_cons.mp hn
          · -- a suite that is its own root is a changed suite
            by_cases hself : file = root
            · exact hkeep file (h.changed file (hself ▸ hroot) hsuite)
            · have hpick : (suite file && file != root) = true := by
                rw [Bool.and_eq_true, bne_iff_ne]
                exact ⟨hsuite, hself⟩
              simp only [hpick, if_true]
              exact get?_pick_self _ _
          · exact hkeep n.2 (h.visited n hn hsuite)
        · intro s hs
          have hsound : (reasons.get? s).isSome = true ∨ s = file := by
            split at hs
            · exact of_get?_pick hs
            · exact Or.inl hs
          obtain hs | rfl := hsound
          · obtain hbefore | ⟨contract, hmem⟩ := h.sound s hs
            · exact Or.inl hbefore
            · exact Or.inr ⟨contract, List.mem_cons_of_mem _ hmem⟩
          · exact Or.inr ⟨contractFile root, List.mem_cons_self⟩

/-- What has a reason before the walk: the changed suites, and what other arms picked. -/
def PickedBefore (changed : List Text) (before : List (Text × Text)) (s : Text) : Prop :=
  (s ∈ changed ∧ suite s = true) ∨ s ∈ before.map Prod.fst

theorem get?_startWalk {changed : List Text} {before : List (Text × Text)} {s : Text} :
    ((startWalk changed before).reasons.get? s).isSome = true ↔ PickedBefore changed before s := by
  rw [startWalk, get?_foldl_pick_iff, get?_foldl_pick_iff, List.map_map]
  simp [PickedBefore]

theorem walkInv_startWalk (changed : List Text) (before : List (Text × Text)) :
    WalkInv changed (PickedBefore changed before) (startWalk changed before) where
  changed s hs hsuite := get?_startWalk.mpr (Or.inl ⟨hs, hsuite⟩)
  roots p hp := by
    obtain ⟨f, hf, rfl⟩ := List.mem_map.mp hp
    exact (List.mem_filter.mp hf).1
  visited n hn := nomatch hn
  picked s hs := get?_startWalk.mpr hs
  sound s hs := Or.inl (get?_startWalk.mp hs)

/-- A path of imports, seen from the root. -/
theorem reflTransGen_nextNodes {contract : Bool} {file root : Text}
    (h : Relation.ReflTransGen (fun file dep => file ∈ importers graph dep) file root) :
    Relation.ReflTransGen (Edge (nextNodes graph)) (contract, root) (contract, file) := by
  induction h using Relation.ReflTransGen.head_induction_on with
  | refl => exact Relation.ReflTransGen.refl
  | head hstep _ ih => exact ih.tail (List.mem_map.mpr ⟨_, hstep, rfl⟩)

theorem of_reflTransGen_nextNodes {n m : Bool × Text} (h : Relation.ReflTransGen (Edge (nextNodes graph)) n m) :
    n.1 = m.1 ∧ Relation.ReflTransGen (fun file dep => file ∈ importers graph dep) m.2 n.2 := by
  induction h with
  | refl => exact ⟨rfl, Relation.ReflTransGen.refl⟩
  | tail _ hstep ih =>
      obtain ⟨f, hf, rfl⟩ := List.mem_map.mp hstep
      exact ⟨ih.1, ih.2.head hf⟩

/-- The walk ends, and the suites with a reason are those picked before and those that reach a root. -/
theorem walk_ends (graph : List (Text × List Text)) (changed : List Text) (before : List (Text × Text)) :
    ∃ w, (∃ fuel, loop (visit graph) fuel (startWalk changed before) = some w) ∧
      ∀ s, suite s = true → ((w.reasons.get? s).isSome = true ↔ PickedBefore changed before s ∨
        ∃ root ∈ changed, isRoot root = true ∧ Relation.ReflTransGen (fun file dep => file ∈ importers graph dep) s root) := by
  have hnodes : ∀ a, nextNodes graph a ≠ [] →
      a ∈ (graph.flatMap Prod.snd).flatMap fun dep => [(true, dep), (false, dep)] := by
    rintro ⟨contract, dep⟩ hne
    obtain ⟨node, hnode⟩ := List.exists_mem_of_ne_nil _ hne
    obtain ⟨file, hfile, -⟩ := List.mem_map.mp hnode
    obtain ⟨deps, hmem, hdep⟩ := mem_importers.mp hfile
    refine List.mem_flatMap.mpr ⟨dep, List.mem_flatMap.mpr ⟨(file, deps), hmem, hdep⟩, ?_⟩
    cases contract with
    | false => simp
    | true => simp
  obtain ⟨out, ⟨fuel, hends⟩, -, hout⟩ := walk_spec joins_enqueueAll hnodes [] (startWalk changed before).nodes.2
    fun a ha => nomatch ha
  have hpicture : loop (walkStep (nextNodes graph) enqueueAll) fuel (startWalk changed before).nodes =
      (loop (visit graph) fuel (startWalk changed before)).map Walk.visited := loop_map walkStep_nodes fuel _
  rw [show (startWalk changed before).nodes = ([], (startWalk changed before).nodes.2) from rfl, hends] at hpicture
  obtain ⟨w, hw, rfl⟩ := Option.map_eq_some_iff.mp hpicture.symm
  have hinv : WalkInv changed (PickedBefore changed before) w :=
    loop_inv (I := WalkInv changed (PickedBefore changed before)) (fun s t hs hstep => hs.visit hstep)
      (fun s r hs hstep => visit_left hstep ▸ hs) (walkInv_startWalk changed before) hw
  refine ⟨w, ⟨fuel, hw⟩, fun s hsuite => ⟨fun hs => ?_, ?_⟩⟩
  · refine (hinv.sound s hs).imp_right ?_
    rintro ⟨contract, hmem⟩
    obtain hmem | ⟨node, hnode, hreach⟩ := (hout _).mp hmem
    · cases hmem
    · obtain ⟨p, hp, rfl⟩ := List.mem_map.mp hnode
      obtain ⟨root, hroot, rfl⟩ := List.mem_map.mp hp
      rw [List.mem_filter] at hroot
      exact ⟨root, hroot.1, hroot.2, (of_reflTransGen_nextNodes hreach).2⟩
  · rintro (hpicked | ⟨root, hroot, hisRoot, hreach⟩)
    · exact hinv.picked s hpicked
    · refine hinv.visited (contractFile root, s) ?_ hsuite
      rw [hout]
      refine Or.inr ⟨(contractFile root, root), ?_, reflTransGen_nextNodes hreach⟩
      exact List.mem_map.mpr ⟨(root, root), List.mem_map.mpr ⟨root, List.mem_filter.mpr ⟨hroot, hisRoot⟩, rfl⟩, rfl⟩

end walk

/-! ### Redirected imports -/

section redirect

variable {reader : Reader} {files : Files}

/-- An import of the tree, resolved among its own code files, that the changed paths take over: its plain path is changed
and neither code nor a contract. -/
def Redirected (reader : Reader) (files : Files) (changed : List Text) : Prop :=
  ∃ file text spec base, (file, text) ∈ codeFiles files ∧ spec ∈ reader.specifiers (reader.stripComments text) ∧
    baseOf reader file spec = some base ∧ base ∈ changed ∧ isRoot base = false ∧ (resolveBase base (knownPaths files [])).isSome = true

theorem mem_knownPaths_of_mem {file text : Text} (extra : List Text) (h : (file, text) ∈ codeFiles files) :
    file ∈ knownPaths files extra := List.mem_append_left _ (List.mem_map_of_mem h)

/-- A dependency of the tree's own graph stays, or its file depends on a root. -/
theorem depends_extra {changed : List Text} (hredirect : ¬Redirected reader files changed) {file dep : Text}
    (h : Depends reader files [] file dep) :
    Depends reader files changed file dep ∨ ∃ root ∈ changed, isRoot root = true ∧ Depends reader files changed file root := by
  obtain ⟨text, htext, hdep⟩ := depends_iff.mp h
  obtain ⟨hne, ⟨spec, hspec, hresolve⟩ | hnamed⟩ := mem_dependenciesOf.mp hdep
  · obtain ⟨base, hbase, hresolve⟩ := Option.bind_eq_some_iff.mp hresolve
    have hresolves : ∀ c, resolveBase base (knownPaths files changed) = some c → c ≠ file → Depends reader files changed file c := by
      intro c hc hcne
      refine depends_iff.mpr ⟨text, htext, mem_dependenciesOf.mpr ⟨hcne, Or.inl ⟨spec, hspec, ?_⟩⟩⟩
      rw [resolve, hbase]
      exact hc
    have hknown : knownPaths files changed = knownPaths files [] ++ changed := by
      rw [knownPaths, knownPaths, List.append_nil]
    obtain hsame | ⟨c, hc, hother, hchanged, hnew⟩ := resolveBase_append changed hresolve
    · exact Or.inl (hresolves dep (hknown ▸ hsame) hne)
    · refine Or.inr ⟨c, hchanged, ?_, hresolves c (hknown ▸ hother) ?_⟩
      · obtain rfl | hcode := codeFile_of_mem_candidates hc
        · by_contra hroot
          refine hredirect ⟨file, text, spec, c, htext, hspec, hbase, hchanged, Bool.eq_false_iff.mpr hroot, ?_⟩
          rw [hresolve]
          rfl
        · rw [isRoot, hcode, Bool.true_or]
      · rintro rfl
        exact hnew (mem_knownPaths_of_mem [] htext)
  · obtain ⟨hdepKnown, place, hplace⟩ := mem_namedEdges.mp hnamed
    refine Or.inl (depends_iff.mpr ⟨text, htext, mem_dependenciesOf.mpr ⟨hne, Or.inr (mem_namedEdges.mpr ⟨?_, place, hplace⟩)⟩⟩)
    rw [knownPaths, List.append_nil] at hdepKnown
    exact List.mem_append_left _ hdepKnown

/-- What reaches a changed code file in the tree's own graph reaches a root in the graph of the selector. -/
theorem reaches_root {changed : List Text} (hredirect : ¬Redirected reader files changed) {s target : Text}
    (htarget : target ∈ changed) (hroot : isRoot target = true)
    (h : Relation.ReflTransGen (Depends reader files []) s target) :
    ∃ root ∈ changed, isRoot root = true ∧ Relation.ReflTransGen (Depends reader files changed) s root := by
  induction h using Relation.ReflTransGen.head_induction_on with
  | refl => exact ⟨target, htarget, hroot, Relation.ReflTransGen.refl⟩
  | head hstep _ ih =>
      obtain ⟨root, hmem, hisRoot, hreach⟩ := ih
      obtain hstep | ⟨root', hmem', hisRoot', hstep⟩ := depends_extra hredirect hstep
      · exact ⟨root, hmem, hisRoot, hreach.head hstep⟩
      · exact ⟨root', hmem', hisRoot', Relation.ReflTransGen.single hstep⟩

end redirect

/-! ### The floor -/

theorem mem_finish {input : Input} {w : Walk} {suites reasons : List Text} (h : finish input w = .floor suites reasons) {s : Text}
    (hsuite : suite s = true) : s ∈ suites ↔ (w.reasons.get? s).isSome = true ∨ s ∈ input.after.map Prod.fst := by
  obtain ⟨rfl, -⟩ := Selection.floor.inj h
  rw [List.mem_mergeSort, List.mem_filter, ← get?_foldl_pick_iff, and_iff_left hsuite, List.mem_map]
  constructor
  · rintro ⟨⟨k, why⟩, hmem, rfl⟩
    exact Option.isSome_iff_exists.mpr ⟨why, entryOf_of_mem (Record.nodup _) hmem⟩
  · intro hsome
    obtain ⟨why, hwhy⟩ := Option.isSome_iff_exists.mp hsome
    exact ⟨(s, why), Record.mem_of_get? hwhy, rfl⟩

/-- Either a full run, or the floor after the walk. -/
theorem selectAffectedSuites_cases (reader : Reader) (changed : List Text) (input : Input) :
    (∃ reason, ∀ fuel, selectAffectedSuites reader fuel changed input = some (.fullRun reason)) ∨
      ∀ fuel, selectAffectedSuites reader fuel changed input =
        (loop (visit (buildAffectedSuitesGraph reader input.files (changed.filter fun f => f ≠ []))) fuel
          (startWalk (changed.filter fun f => f ≠ []) input.before)).map (finish input) := by
  cases htrigger : fullRunTrigger (changed.filter fun f => f ≠ []) input.mapProblem.isNone with
  | some trigger =>
      refine Or.inl ⟨outsideReason input.mapProblem trigger, fun fuel => ?_⟩
      rw [selectAffectedSuites]
      simp only [htrigger]
  | none =>
      cases habsent : (changed.filter fun f => f ≠ []).find? fun file => suite file && (input.files.get? file).isNone with
      | some absent =>
          refine Or.inl ⟨absentReason absent, fun fuel => ?_⟩
          rw [selectAffectedSuites]
          simp only [htrigger, habsent]
      | none =>
          refine Or.inr fun fuel => ?_
          rw [selectAffectedSuites]
          simp only [htrigger, habsent]

/-- Another arm picks the suite, or it reaches a changed code file or contract in the graph with the changed paths as
further targets. -/
def Covers (reader : Reader) (changed : List Text) (input : Input) (s : Text) : Prop :=
  s ∈ (input.before ++ input.after).map Prod.fst ∨
    ∃ root ∈ changed, isRoot root = true ∧ Relation.ReflTransGen (Depends reader input.files changed) s root

theorem codeFile_of_suite {s : Text} (h : suite s = true) : codeFile s = true := by
  simp only [suite, Bool.and_eq_true] at h
  have hsuffix : ".test.ts".toList <:+ s := (List.isSuffixOf_iff_suffix.mp h.1.2).trans (List.drop_suffix 5 s)
  have hts : ".ts".toList <:+ ".test.ts".toList := by decide
  exact List.any_eq_true.mpr ⟨".ts", by simp, List.isSuffixOf_iff_suffix.mpr (hts.trans hsuffix)⟩

/-- A suite of the tree from which a changed code file of the tree can be reached in the graph of the tree alone. -/
def Affected (reader : Reader) (changed : List Text) (input : Input) (s : Text) : Prop :=
  suite s = true ∧ ∃ target ∈ changed, codeFile target = true ∧ (input.files.get? target).isSome = true ∧
    Relation.ReflTransGen (Depends reader input.files []) s target

/-- The selector always answers.  Unless it is a full run, the answer has every changed suite, and it has every affected
suite if and only if each of them is covered in the graph of the selector; that is so if no import is
redirected. -/
theorem selectAffectedSuites_floor (reader : Reader) (changed : List Text) (input : Input) :
    ∃ selection enough, (∀ fuel, enough ≤ fuel → selectAffectedSuites reader fuel changed input = some selection) ∧
      ∀ suites reasons, selection = .floor suites reasons →
        (∀ s ∈ changed, suite s = true → s ∈ suites) ∧
        ((∀ s, Affected reader changed input s → s ∈ suites) ↔
          ∀ s, Affected reader changed input s → Covers reader (changed.filter fun f => f ≠ []) input s) ∧
        (¬Redirected reader input.files (changed.filter fun f => f ≠ []) → ∀ s, Affected reader changed input s → s ∈ suites) := by
  obtain ⟨reason, hfull⟩ | hwalk := selectAffectedSuites_cases reader changed input
  · refine ⟨_, 0, fun fuel _ => hfull fuel, fun suites reasons h => ?_⟩
    cases h
  obtain ⟨w, ⟨fuel, hends⟩, hreasons⟩ := walk_ends
    (buildAffectedSuitesGraph reader input.files (changed.filter fun f => f ≠ [])) (changed.filter fun f => f ≠ []) input.before
  have hnonempty : ∀ f ∈ changed, codeFile f = true → f ∈ changed.filter fun f => f ≠ [] := by
    intro f hf hcode
    refine List.mem_filter.mpr ⟨hf, decide_eq_true ?_⟩
    rintro rfl
    revert hcode
    decide
  have hedge : (fun file dep => file ∈ importers (buildAffectedSuitesGraph reader input.files (changed.filter fun f => f ≠ [])) dep) =
      Depends reader input.files (changed.filter fun f => f ≠ []) := by
    funext file dep
    exact propext mem_importers
  refine ⟨finish input w, fuel, fun fuel' hle => ?_, fun suites reasons hfloor => ?_⟩
  · rw [hwalk, loop_mono hle hends]
    rfl
  -- a changed suite is a root of the walk, and covered so
  have hcovers : ∀ s, suite s = true → (s ∈ suites ↔ Covers reader (changed.filter fun f => f ≠ []) input s) := by
    intro s hsuite
    rw [mem_finish hfloor hsuite, hreasons s hsuite, hedge, Covers, PickedBefore, List.map_append, List.mem_append]
    constructor
    · rintro (((⟨hs, -⟩ | hbefore) | hroot) | hafter)
      · have hisRoot : isRoot s = true := by rw [isRoot, codeFile_of_suite hsuite, Bool.true_or]
        exact Or.inr ⟨s, hs, hisRoot, Relation.ReflTransGen.refl⟩
      · exact Or.inl (Or.inl hbefore)
      · exact Or.inr hroot
      · exact Or.inl (Or.inr hafter)
    · rintro ((hbefore | hafter) | hroot)
      · exact Or.inl (Or.inl (Or.inr hbefore))
      · exact Or.inr hafter
      · exact Or.inl (Or.inr hroot)
  refine ⟨fun s hs hsuite => ?_, ⟨fun h s hs => (hcovers s hs.1).mp (h s hs), fun h s hs => (hcovers s hs.1).mpr (h s hs)⟩, ?_⟩
  · have hcode := codeFile_of_suite hsuite
    refine (hcovers s hsuite).mpr (Or.inr ⟨s, hnonempty s hs hcode, ?_, Relation.ReflTransGen.refl⟩)
    rw [isRoot, hcode, Bool.true_or]
  · rintro hredirect s ⟨hsuite, target, htarget, hcode, -, hreach⟩
    have hisRoot : isRoot target = true := by rw [isRoot, hcode, Bool.true_or]
    exact (hcovers s hsuite).mpr (Or.inr (reaches_root hredirect (hnonempty target htarget hcode) hisRoot hreach))

/-- Reads the imports of one file. -/
def importReader : Reader where
  stripComments := id
  specifiers content := if content = "import \"../src/lib/data\";".toList then ["../src/lib/data".toList] else []
  namedPaths _ := []
  usedAtRuntime _ _ := false
  aliasBase _ := none

/-- The module was a file without an extension and is now a directory. -/
def movedInput : Input where
  files := ⟨[("test/a.test.ts".toList, "import \"../src/lib/data\";".toList), ("src/lib/data/index.ts".toList, [])], by decide⟩
  mapProblem := some "no read map supplied".toList
  before := []
  after := []
  notes := []

def movedChanged : List Text := ["src/lib/data".toList, "src/lib/data/index.ts".toList]

/-- The suite that imports the module is not selected. -/
theorem selectAffectedSuites_misses_redirected :
    (∃ fuel, selectAffectedSuites importReader fuel movedChanged movedInput = some (.floor [] [])) ∧
      Affected importReader movedChanged movedInput "test/a.test.ts".toList := by
  refine ⟨⟨9, ?_⟩, by decide +kernel, "src/lib/data/index.ts".toList, by decide +kernel, by decide +kernel, by decide +kernel,
    Relation.ReflTransGen.single ?_⟩
  · have htrigger : fullRunTrigger (movedChanged.filter fun f => f ≠ []) movedInput.mapProblem.isNone = none := by decide +kernel
    have habsent : ((movedChanged.filter fun f => f ≠ []).find? fun file => suite file && (movedInput.files.get? file).isNone) =
        none := by decide +kernel
    have hwalk : ((loop (visit (buildAffectedSuitesGraph importReader movedInput.files (movedChanged.filter fun f => f ≠ []))) 9
        (startWalk (movedChanged.filter fun f => f ≠ []) movedInput.before)).map fun w => w.reasons.entries) = some [] := by
      decide +kernel
    obtain ⟨w, hw, hnone⟩ := Option.map_eq_some_iff.mp hwalk
    rw [selectAffectedSuites]
    simp only [htrigger, habsent, hw, Option.map_some]
    simp [finish, movedInput, hnone]
  · exact ⟨["src/lib/data/index.ts".toList], by decide +kernel, by decide +kernel⟩

end Remudero.Suites
