import Remudero.Lib.Comparators
import Remudero.Lib.JsNumber
import Remudero.Lib.Utf16

/-! # What the drain selects

`nextRunnable` and `runnableCandidates` of `lib/drain.ts`, and the admission gate `assertRunnable` of
`lib/plan.ts`.  The selector walks the plan in dispatch order, keeps the tasks that pass the chain of
`isDispatchEligible`, and either takes the first or packs up to `limit` of them, disjoint ones
first.  The gate is a chain of its own.

`selected_tasks_runnable` says that what the selector returns passes the gate, and that the
selector returns nothing only when no task of the plan is eligible.

The probes of `NextRunnableOpts` are functions of the task id; one that is absent answers `false`
or `none`.  Its callbacks only observe and are left out, except that their reasons are kept as the
result of the chain.  Some decisions on a task are made elsewhere in the repository and are the
fields of `TaskJudges`. -/

namespace Remudero.Drain

open Remudero.Lib

/-- The fields of a plan task the selector and the gate read. -/
structure Task where
  id : Text
  dependsOn : List Text
  status : Text
  verify : Text
  dispatchHold : Bool
  retirement : Option Text
  repo : Option Text
  files : Option (List Text)
  priority : Option JsNumber
  note : Option Text
deriving DecidableEq, Repr

structure Plan where
  tasks : List Task
  byId : Text → Option Task

/-- Decisions on tasks made by other modules: `operatorReleaseContractChanged`, `isRecordTask`,
`unmetTaskPrecondition`, the file-overlap partition of two tasks and the backfill release. -/
structure TaskJudges where
  operatorReleaseContractChanged : Task → Bool
  isRecordTask : Task → Bool
  preconditionUnmet : Task → Bool
  /-- both tasks of the pair are dispatched by `partitionByFileOverlap` -/
  disjoint : Task → Task → Bool
  overlapPaths : Task → Task → List Text
  backfillRelease : Task → List Task → Bool

/-! ### The admission gate -/

/-- The dependencies that have not landed; a retired one is excluded. -/
def unmetDependencies (plan : Plan) (task : Task) (isMerged : Task → Bool) : List Text :=
  task.dependsOn.filter fun dep =>
    match plan.byId dep with
    | none => true
    | some d => d.retirement.isNone && !isMerged d

/-- `items.join(", ")`. -/
def joinComma : List Text → Text
  | [] => []
  | [x] => x
  | x :: xs => x ++ ", ".toList ++ joinComma xs

def noteSuffix (note : Option Text) : Text :=
  match note with
  | some n => if n.isEmpty then [] else ": ".toList ++ n
  | none => []

variable (judges : TaskJudges)

/-- Throws a `TaskAdmissionError` unless the task may run. -/
def assertRunnable (plan : Plan) (task : Task) (isMerged : Task → Bool) (releasedIds : Text → Bool) :
    Except Text Unit :=
  if judges.operatorReleaseContractChanged task then
    .error ("task ".toList ++ task.id ++ " requires explicit reapproval of its changed operator contract".toList)
  else if task.dispatchHold then
    .error ("task ".toList ++ task.id ++ " is on a task-scoped dispatch hold".toList ++ noteSuffix task.note)
  else if task.status = "blocked".toList then
    .error ("task ".toList ++ task.id ++ " is blocked".toList ++ noteSuffix task.note)
  else if task.verify = "human".toList ∧ releasedIds task.id = false then
    .error ("task ".toList ++ task.id ++ " is verify:human — not auto-runnable by the proto-runner".toList)
  else
    let unmet := unmetDependencies plan task isMerged
    if unmet.isEmpty then .ok ()
    else .error ("task ".toList ++ task.id ++ " has unmerged dependencies: ".toList ++ joinComma unmet)

/-! ### The eligibility chain -/

/-- The measured context of the dispatch order.  `value` is `measuredDispatchValue`, and
`slotInputs` tells whether the stride passes can be dealt again. -/
structure DispatchValueContext where
  stridePass : Option (Text → Option ℚ)
  costOfDelayFallback : Bool
  fanout : Text → Option ℚ
  value : Task → Option ℚ
  slotInputs : Bool

structure NextRunnableOpts where
  isCreditIndeterminate : Text → Bool
  excludeIds : Text → Bool
  releasedIds : Text → Bool
  isIndependentFailureBlocked : Text → Bool
  targetRepo : Option Text
  isTerminalPreDispatchRefusalHeld : Task → Bool
  isIndeterminate : Text → Bool
  isCircuitTripped : Text → Bool
  isOpenPr : Text → Option ℕ
  readLiveState : Text → ℕ → Option Text
  isLiveMergeCredited : Text → ℕ → Bool
  hasPushedRunBranch : Text → Bool
  inFlight : List Task
  dispatchValueContext : Option DispatchValueContext
  resumableTaskIds : List Text
  /-- an `onEligibleOrdered` callback wants the whole order -/
  observesOrder : Bool
  /-- `redealFanoutOver` on the ids of the eligible tasks -/
  redealFanoutOver : Option DispatchValueContext → List Text → Option DispatchValueContext

/-- Why the chain declined a task. -/
inductive Decline where
  | alreadyMerged | creditIndeterminate | continuedThisPass | held | verifyNotAuto | operatorBuild
  | retired | blocked | foreignRepo | unmetDeps | preconditionUnmet | heldPreDispatchRefusal
  | indeterminate | circuitTripped
  | openPr (number : ℕ)
  | staleCredit (number : ℕ)
  | runBranchAlreadyPushed
deriving DecidableEq, Repr

/-- The `files` entries under `.github/workflows/`. -/
def workflowPaths (t : Task) : List Text :=
  (t.files.getD []).filter fun f =>
    let f := Text.trim f
    let f := if "./".toList.isPrefixOf f then f.drop 2 else f
    ".github/workflows/".toList.isPrefixOf f

def normalizeRepoName (value : Text) : Text :=
  let trimmed := ((Text.trim value).reverse.dropWhile (· == '/')).reverse
  Text.lower ((trimmed.reverse.takeWhile (· != '/')).reverse)

def taskTargetsRepo (taskRepo targetRepo : Option Text) : Bool :=
  match targetRepo, taskRepo with
  | some target, some repo =>
      (Text.trim target).isEmpty || (Text.trim repo).isEmpty ||
        normalizeRepoName repo == normalizeRepoName target
  | _, _ => true

/-- The in-flight guard: an open pull request is confirmed by a fresh read, and an unreadable state
counts as open. -/
def inFlightDecline (opts : NextRunnableOpts) (t : Task) : Option Decline :=
  match opts.isOpenPr t.id with
  | none => none
  | some number =>
      match opts.readLiveState t.id number with
      | none => some (.openPr number)
      | some liveState =>
          if liveState = "OPEN".toList then some (.openPr number)
          else if liveState = "MERGED".toList ∧ opts.isLiveMergeCredited t.id number = true then
            some (.staleCredit number)
          else none

/-- The ordered chain of `isDispatchEligible`: the first reason to decline, if any. -/
def declineReason (plan : Plan) (isMerged : Text → Bool) (opts : NextRunnableOpts) (t : Task) : Option Decline :=
  if isMerged t.id then some .alreadyMerged
  else if opts.isCreditIndeterminate t.id then some .creditIndeterminate
  else if opts.excludeIds t.id then some .continuedThisPass
  else if t.dispatchHold then some .held
  else if judges.operatorReleaseContractChanged t then some .verifyNotAuto
  else if t.verify ≠ "auto".toList ∧ opts.releasedIds t.id = false then some .verifyNotAuto
  else if t.verify = "auto".toList ∧ judges.isRecordTask t = true then some .verifyNotAuto
  else if !(workflowPaths t).isEmpty then some .operatorBuild
  else if t.status = "blocked".toList then some (if t.retirement.isSome then .retired else .blocked)
  else if opts.isIndependentFailureBlocked t.id then some .blocked
  else if !taskTargetsRepo t.repo opts.targetRepo then some .foreignRepo
  else if !(unmetDependencies plan t fun d => isMerged d.id).isEmpty then some .unmetDeps
  else if judges.preconditionUnmet t then some .preconditionUnmet
  else if opts.isTerminalPreDispatchRefusalHeld t then some .heldPreDispatchRefusal
  else if opts.isIndeterminate t.id then some .indeterminate
  else if opts.isCircuitTripped t.id then some .circuitTripped
  else match inFlightDecline opts t with
    | some d => some d
    | none => if opts.hasPushedRunBranch t.id then some .runBranchAlreadyPushed else none

def isDispatchEligible (plan : Plan) (isMerged : Text → Bool) (opts : NextRunnableOpts) (t : Task) : Bool :=
  (declineReason judges plan isMerged opts t).isNone

/-! ### The dispatch order -/

/-- The double nearest to a number, ties to even; `2 ^ 1024` stands for infinity. -/
def toDouble (n : ℕ) : ℕ :=
  if n < 2 ^ 53 then n
  else
    let e := n.log2 - 52
    let q := n / 2 ^ e
    let r := n % 2 ^ e
    let m := (if 2 ^ e < 2 * r ∨ (2 ^ e = 2 * r ∧ q % 2 = 1) then q + 1 else q) * 2 ^ e
    min m (2 ^ 1024)

/-- `W<workstream>-T<ordinal>` at the start of an id; any other id sorts after those. -/
def idOrdinal (id : Text) : ℕ × ℕ :=
  let value (ds : Text) : ℕ := toDouble (ds.foldl (fun n c => 10 * n + (c.toNat - 48)) 0)
  let last : ℕ := 2 ^ 53 - 1
  match id with
  | 'W' :: rest =>
      let w := rest.takeWhile Char.isDigit
      match rest.dropWhile Char.isDigit with
      | '-' :: 'T' :: more =>
          let o := more.takeWhile Char.isDigit
          if w.isEmpty || o.isEmpty then (last, last) else (value w, value o)
      | _ => (last, last)
  | _ => (last, last)

def undeclaredScopeLast (t : Task) : ℕ := if (t.files.getD []).isEmpty then 1 else 0

/-- An absent number is larger than every other one. -/
def compareAbsentLast : Option ℚ → Option ℚ → Ordering
  | none, none => .eq
  | none, some _ => .gt
  | some _, none => .lt
  | some x, some y => compare x y

def compareStride (a b : Task) (context : Option DispatchValueContext) : Ordering :=
  match context.bind (·.stridePass) with
  | none => .eq
  | some passes => compareAbsentLast (passes a.id) (passes b.id)

/-- Values decide only where both sides have one. -/
def compareValue (a b : Task) (context : Option DispatchValueContext) : Ordering :=
  match context with
  | none => .eq
  | some c =>
      if c.costOfDelayFallback then .eq
      else match c.value a, c.value b with
        | some va, some vb => compare vb va
        | _, _ => .eq

def compareFanout (a b : Task) (context : Option DispatchValueContext) : Ordering :=
  match context with
  | none => .eq
  | some c => if c.costOfDelayFallback then .eq else compare ((c.fanout b.id).getD 0) ((c.fanout a.id).getD 0)

/-- An absent priority is infinite. -/
def Task.rank (t : Task) : JsNumber := t.priority.getD (.infinite true)

def strideFirst (context : Option DispatchValueContext) : Bool :=
  context.any fun c => c.stridePass.isSome && !c.costOfDelayFallback

/-- The total order of the dispatch queue.  Priorities that are not the same decide by their difference, and no key after
them is read, not even when the difference is `NaN`. -/
def compareDispatch (a b : Task) (context : Option DispatchValueContext) : Ordering :=
  let stride := compareStride a b context
  let rest := (compare (undeclaredScopeLast a) (undeclaredScopeLast b)).then <|
    (compareValue a b context).then <| (compareFanout a b context).then <|
    (compare (idOrdinal a.id).1 (idOrdinal b.id).1).then <|
    (compare (idOrdinal a.id).2 (idOrdinal b.id).2).then (compare (Text.utf16 a.id) (Text.utf16 b.id))
  if strideFirst context && stride != .eq then stride
  else if !a.rank.same b.rank then (a.rank.sub b.rank).signOf
  else if strideFirst context then rest
  else stride.then rest

/-- The tasks in dispatch order; resumable ones come first. -/
def dispatchOrder (tasks : List Task) (context : Option DispatchValueContext) (resumable : List Text) : List Task :=
  let ordered := tasks.mergeSort fun a b => compareDispatch a b context != .gt
  if resumable.isEmpty then ordered
  else ordered.filter (fun t => resumable.contains t.id) ++ ordered.filter (fun t => !resumable.contains t.id)

/-! ### The selectors -/

/-- The eligible tasks in dispatch order.  A caller that wants the head only stops at the first
eligible task, unless the order has to be dealt again or somebody observes it. -/
def dispatchEligibleCandidates (plan : Plan) (isMerged : Text → Bool) (opts : NextRunnableOpts) (headOnly : Bool) :
    List Task :=
  let walk := (dispatchOrder plan.tasks opts.dispatchValueContext opts.resumableTaskIds).filter
    (isDispatchEligible judges plan isMerged opts)
  let stopAtFirst := headOnly && !opts.dispatchValueContext.any (·.slotInputs) && !opts.observesOrder
  let eligible := if stopAtFirst then walk.take 1 else walk
  let context := opts.redealFanoutOver opts.dispatchValueContext (eligible.map (·.id))
  dispatchOrder eligible context opts.resumableTaskIds

def nextRunnable (plan : Plan) (isMerged : Text → Bool) (opts : NextRunnableOpts) : Option Task :=
  (dispatchEligibleCandidates judges plan isMerged opts true).head?

/-- An absent priority is the lowest.  Strict. -/
def lowerPriority (candidate waiting : Task) : Bool := waiting.rank.lt candidate.rank

def isDisjointFromEvery (collected : List Task) (candidate : Task) : Bool :=
  collected.all fun c => judges.disjoint c candidate

/-- The text by which the set of lifted reservations knows one, from the ids of the candidate and of the waiting task. -/
def releaseKey (p : Text × Text) : Text := p.1 ++ '|' :: p.2

/-- The set has the text of the reservation. -/
def isReleased (released : List (Text × Text)) (p : Text × Text) : Bool := (released.map releaseKey).contains (releaseKey p)

/-- One walk over the remaining candidates for the next slot: the task picked, the candidates that
remain, and the reservations lifted so far, as they were reported.  A candidate that could start now
but collides with a waiting one of higher priority is deferred, out of the candidates for good, unless
the reservation is lifted. -/
def packScan (occupied : List Task) (waiting : List Task) (released : List (Text × Text)) :
    List Task → Option Task × List Task × List (Text × Text)
  | [] => (none, [], released)
  | candidate :: rest =>
      if isDisjointFromEvery judges occupied candidate then
        match waiting.find? fun w => lowerPriority candidate w && !(judges.overlapPaths w candidate).isEmpty with
        | none => (some candidate, rest, released)
        | some w =>
            if isReleased released (candidate.id, w.id) then (some candidate, rest, released)
            else
              let holders := occupied.filter fun h => !isDisjointFromEvery judges [h] w
              if judges.backfillRelease candidate holders then
                (some candidate, rest, (candidate.id, w.id) :: released)
              else packScan occupied waiting released rest
      else
        let (pick, remaining, released) := packScan occupied (waiting ++ [candidate]) released rest
        (pick, candidate :: remaining, released)

/-- Fill `slots` more slots. -/
def packSlots (inFlight : List Task) : ℕ → List Task → List (Text × Text) → List Task → List Task
  | 0, _, _, collected => collected
  | slots + 1, remaining, released, collected =>
      if remaining.isEmpty then collected
      else
        match packScan judges (inFlight ++ collected) [] released remaining with
        | (some pick, remaining, released) => packSlots inFlight slots remaining released (collected ++ [pick])
        | (none, first :: remaining, released) => packSlots inFlight slots remaining released (collected ++ [first])
        | (none, [], _) => collected

/-- Disjoint candidates first; a task that occupies a lane is never collected. -/
def packDisjointFirst (eligible : List Task) (limit : ℤ) (inFlight : List Task) : List Task :=
  packSlots judges inFlight limit.toNat (eligible.filter fun t => !(inFlight.map (·.id)).contains t.id) [] []

def runnableCandidates (plan : Plan) (isMerged : Text → Bool) (limit : ℤ) (opts : NextRunnableOpts) : List Task :=
  if limit ≤ 0 then []
  else packDisjointFirst judges (dispatchEligibleCandidates judges plan isMerged opts false) limit opts.inFlight

/-! ### What the chain clears -/

section Cleared

variable {judges} {plan : Plan} {isMerged : Text → Bool} {opts : NextRunnableOpts} {t : Task}

/-- The task has a pull request that is open, or cannot be read. -/
def InFlight (opts : NextRunnableOpts) (t : Task) : Prop :=
  ∃ number, opts.isOpenPr t.id = some number ∧
    ∀ liveState, opts.readLiveState t.id number = some liveState → liveState = "OPEN".toList

variable (judges plan isMerged opts t) in
/-- What holds of a task the drain may dispatch. -/
structure Cleared : Prop where
  gate : assertRunnable judges plan t (fun d => isMerged d.id) opts.releasedIds = .ok ()
  deps_met : unmetDependencies plan t (fun d => isMerged d.id) = []
  not_held : t.dispatchHold = false ∧ opts.isTerminalPreDispatchRefusalHeld t = false
  not_blocked : t.status ≠ "blocked".toList ∧ opts.isIndependentFailureBlocked t.id = false
  not_in_flight : ¬ InFlight opts t
  no_run_branch : opts.hasPushedRunBranch t.id = false

theorem ite_some_eq_none {α : Type*} {p : Prop} [Decidable p] {a : α} {x : Option α} :
    (if p then some a else x) = none ↔ ¬ p ∧ x = none := by
  by_cases hp : p
  · simp [hp]
  · simp [hp]

theorem inFlightDecline_none (h : inFlightDecline opts t = none) : ¬ InFlight opts t := by
  rintro ⟨number, hpr, hlive⟩
  unfold inFlightDecline at h
  rw [hpr] at h
  simp only at h
  split at h
  · cases h
  next liveState hread =>
    rw [if_pos (hlive liveState hread)] at h
    cases h

/-- A task released or `verify: auto` is not refused as `verify: human`. -/
theorem not_refused_human (h : ¬ (t.verify ≠ "auto".toList ∧ opts.releasedIds t.id = false)) :
    ¬ (t.verify = "human".toList ∧ opts.releasedIds t.id = false) := by
  rintro ⟨hv, hr⟩
  refine h ⟨?_, hr⟩
  rw [hv]
  decide

theorem assertRunnable_ok (hcontract : judges.operatorReleaseContractChanged t = false)
    (hhold : t.dispatchHold = false) (hstatus : t.status ≠ "blocked".toList)
    (hverify : ¬ (t.verify = "human".toList ∧ opts.releasedIds t.id = false))
    (hdeps : unmetDependencies plan t (fun d => isMerged d.id) = []) :
    assertRunnable judges plan t (fun d => isMerged d.id) opts.releasedIds = .ok () := by
  unfold assertRunnable
  rw [if_neg (by simp [hcontract]), if_neg (by simp [hhold]), if_neg hstatus, if_neg hverify]
  simp [hdeps]

/-- The chain of the selector implies the chain of the gate. -/
theorem cleared_of_eligible (h : isDispatchEligible judges plan isMerged opts t = true) :
    Cleared judges plan isMerged opts t := by
  have h := Option.isNone_iff_eq_none.mp h
  unfold declineReason at h
  simp only [ite_some_eq_none] at h
  obtain ⟨-, -, -, hhold, hcontract, hverify, -, -, hstatus, hfail, -, hdeps, -, hrefusal, -, -, hrest⟩ := h
  have hhold' : t.dispatchHold = false := by simpa using hhold
  have hdeps' : unmetDependencies plan t (fun d => isMerged d.id) = [] := by simpa using hdeps
  have hflight : inFlightDecline opts t = none := by
    split at hrest
    · cases hrest
    · assumption
  have hbranch : opts.hasPushedRunBranch t.id = false := by
    rw [hflight] at hrest
    simpa [ite_some_eq_none] using hrest
  exact
    { gate := assertRunnable_ok (by simpa using hcontract) hhold' hstatus (not_refused_human hverify) hdeps'
      deps_met := hdeps'
      not_held := ⟨hhold', by simpa using hrefusal⟩
      not_blocked := ⟨hstatus, by simpa using hfail⟩
      not_in_flight := inFlightDecline_none hflight
      no_run_branch := hbranch }

end Cleared

/-! ### What the order and the pack keep -/

section Order

variable {judges} {t : Task}

theorem mem_dispatchOrder {tasks : List Task} {context : Option DispatchValueContext} {resumable : List Text} :
    t ∈ dispatchOrder tasks context resumable ↔ t ∈ tasks := by
  have hsort : ∀ le : Task → Task → Bool, t ∈ tasks.mergeSort le ↔ t ∈ tasks :=
    fun le => (List.mergeSort_perm tasks le).mem_iff
  unfold dispatchOrder
  lift_lets
  intro ordered
  have hordered : t ∈ ordered ↔ t ∈ tasks := hsort _
  split
  · exact hordered
  · rw [List.mem_append, List.mem_filter, List.mem_filter, ← hordered]
    by_cases hr : t.id ∈ resumable
    · simp [hr]
    · simp [hr]

/-- The tasks of a walk: those it picked and those that remain were candidates. -/
theorem packScan_mem (occupied waiting remaining : List Task) (released : List (Text × Text)) :
    (∀ pick, (packScan judges occupied waiting released remaining).1 = some pick → pick ∈ remaining) ∧
      ∀ u ∈ (packScan judges occupied waiting released remaining).2.1, u ∈ remaining := by
  induction remaining generalizing waiting released with
  | nil => simp [packScan]
  | cons candidate rest ih =>
      have taken : ∀ released' : List (Text × Text),
          (∀ pick, ((some candidate, rest, released') : Option Task × List Task × List (Text × Text)).1 = some pick →
            pick ∈ candidate :: rest) ∧ ∀ u ∈ rest, u ∈ candidate :: rest := by
        intro released'
        refine ⟨fun pick hp => ?_, fun u hu => List.mem_cons_of_mem _ hu⟩
        obtain rfl := Option.some.inj hp
        exact List.mem_cons_self
      unfold packScan
      split
      · split
        · exact taken _
        · split
          · exact taken _
          · lift_lets
            intro holders
            split
            · exact taken _
            · exact ⟨fun pick hp => List.mem_cons_of_mem _ ((ih _ _).1 pick hp),
                fun u hu => List.mem_cons_of_mem _ ((ih _ _).2 u hu)⟩
      · refine ⟨fun pick hp => List.mem_cons_of_mem _ ((ih _ _).1 pick hp), fun u hu => ?_⟩
        rcases List.mem_cons.mp hu with rfl | hu
        · exact List.mem_cons_self
        · exact List.mem_cons_of_mem _ ((ih _ _).2 u hu)

theorem packSlots_mem {inFlight : List Task} {slots : ℕ} {remaining collected : List Task}
    {released : List (Text × Text)} (h : t ∈ packSlots judges inFlight slots remaining released collected) :
    t ∈ collected ∨ t ∈ remaining := by
  induction slots generalizing remaining released collected with
  | zero => exact .inl h
  | succ slots ih =>
      unfold packSlots at h
      split at h
      · exact .inl h
      · obtain ⟨hpick, hrem⟩ := @packScan_mem judges (inFlight ++ collected) [] remaining released
        split at h
        next pick remaining' released' heq =>
          rw [heq] at hpick hrem
          rcases ih h with hc | hr
          · rcases List.mem_append.mp hc with hc | hc
            · exact .inl hc
            · obtain rfl := List.mem_singleton.mp hc
              exact .inr (hpick _ rfl)
          · exact .inr (hrem _ hr)
        next first remaining' released' heq =>
          rw [heq] at hrem
          rcases ih h with hc | hr
          · rcases List.mem_append.mp hc with hc | hc
            · exact .inl hc
            · obtain rfl := List.mem_singleton.mp hc
              exact .inr (hrem _ List.mem_cons_self)
          · exact .inr (hrem _ (List.mem_cons_of_mem _ hr))
        · exact .inl h

end Order

/-! ### The selectors -/

section Select

variable {judges} {plan : Plan} {isMerged : Text → Bool} {opts : NextRunnableOpts}

theorem mem_eligibleCandidates {headOnly : Bool} {t : Task}
    (h : t ∈ dispatchEligibleCandidates judges plan isMerged opts headOnly) :
    t ∈ plan.tasks ∧ isDispatchEligible judges plan isMerged opts t = true := by
  unfold dispatchEligibleCandidates at h
  simp only [mem_dispatchOrder] at h
  have hwalk : t ∈ (dispatchOrder plan.tasks opts.dispatchValueContext opts.resumableTaskIds).filter
      (isDispatchEligible judges plan isMerged opts) := by
    split at h
    · exact List.mem_of_mem_take h
    · exact h
  obtain ⟨hmem, helig⟩ := List.mem_filter.mp hwalk
  exact ⟨mem_dispatchOrder.mp hmem, helig⟩

/-- The selection is empty only when nothing is eligible, also when it stops at the first task. -/
theorem eligibleCandidates_nil {headOnly : Bool}
    (h : dispatchEligibleCandidates judges plan isMerged opts headOnly = []) :
    ∀ t ∈ plan.tasks, isDispatchEligible judges plan isMerged opts t = false := by
  intro t ht
  by_contra helig
  have hwalk : t ∈ (dispatchOrder plan.tasks opts.dispatchValueContext opts.resumableTaskIds).filter
      (isDispatchEligible judges plan isMerged opts) :=
    List.mem_filter.mpr ⟨mem_dispatchOrder.mpr ht, by simpa using helig⟩
  obtain ⟨first, rest, hfirst⟩ := List.exists_cons_of_ne_nil (List.ne_nil_of_mem hwalk)
  have hmem : first ∈ dispatchEligibleCandidates judges plan isMerged opts headOnly := by
    unfold dispatchEligibleCandidates
    simp only [mem_dispatchOrder]
    rw [hfirst]
    split
    · simp
    · exact List.mem_cons_self
  rw [h] at hmem
  cases hmem

theorem mem_runnableCandidates {limit : ℤ} {t : Task} (h : t ∈ runnableCandidates judges plan isMerged limit opts) :
    t ∈ dispatchEligibleCandidates judges plan isMerged opts false ∧ t.id ∉ opts.inFlight.map (·.id) := by
  unfold runnableCandidates at h
  split at h
  · cases h
  · rcases packSlots_mem h with hc | hr
    · cases hc
    · obtain ⟨hmem, hnot⟩ := List.mem_filter.mp hr
      refine ⟨hmem, fun hid => ?_⟩
      simp only [Bool.not_eq_true', List.contains_eq_mem, decide_eq_false_iff_not] at hnot
      exact hnot hid

variable (judges plan isMerged opts) in
/-- For every plan, all facts about it and every context: a task that `nextRunnable` or
`runnableCandidates` returns is in the plan, passes `assertRunnable` under the same resolver and
releases, has no unmet dependency, is neither held nor blocked nor in flight, and has no pushed run
branch; `runnableCandidates` also leaves out the tasks that occupy a lane.  `nextRunnable` returns
nothing only when no task of the plan is eligible. -/
theorem selected_tasks_runnable :
    (∀ t, nextRunnable judges plan isMerged opts = some t →
      t ∈ plan.tasks ∧ Cleared judges plan isMerged opts t) ∧
    (∀ limit t, t ∈ runnableCandidates judges plan isMerged limit opts →
      t ∈ plan.tasks ∧ Cleared judges plan isMerged opts t ∧ t.id ∉ opts.inFlight.map (·.id)) ∧
    (nextRunnable judges plan isMerged opts = none →
      ∀ t ∈ plan.tasks, isDispatchEligible judges plan isMerged opts t = false) := by
  refine ⟨?_, ?_, ?_⟩
  · intro t ht
    obtain ⟨hmem, helig⟩ := mem_eligibleCandidates (List.mem_of_mem_head? ht)
    exact ⟨hmem, cleared_of_eligible helig⟩
  · intro limit t ht
    obtain ⟨hcand, hnot⟩ := mem_runnableCandidates ht
    obtain ⟨hmem, helig⟩ := mem_eligibleCandidates hcand
    exact ⟨hmem, cleared_of_eligible helig, hnot⟩
  · intro hnone
    exact eligibleCandidates_nil (List.head?_eq_none_iff.mp hnone)

end Select

/-! A plan with a merged task, a held one, one that depends on the merged task and one that occupies a lane. -/

def planned (id : String) (dependsOn : List String) (dispatchHold : Bool) : Task :=
  { id := id.toList, dependsOn := dependsOn.map String.toList, status := "queued".toList, verify := "auto".toList
    dispatchHold := dispatchHold, retirement := none, repo := none, files := none, priority := none, note := none }

def mergedTask : Task := planned "W1-T1" [] false

def heldTask : Task := planned "W1-T2" [] true

def dependentTask : Task := planned "W1-T3" ["W1-T1"] false

def busyTask : Task := planned "W1-T4" [] false

def mixedTasks : List Task := [mergedTask, heldTask, dependentTask, busyTask]

def mixedPlan : Plan := ⟨mixedTasks, fun id => mixedTasks.find? (·.id == id)⟩

def plainJudges : TaskJudges :=
  ⟨fun _ => false, fun _ => false, fun _ => false, fun _ _ => true, fun _ _ => [], fun _ _ => false⟩

def busyOpts : NextRunnableOpts where
  isCreditIndeterminate := fun _ => false
  excludeIds := fun _ => false
  releasedIds := fun _ => false
  isIndependentFailureBlocked := fun _ => false
  targetRepo := none
  isTerminalPreDispatchRefusalHeld := fun _ => false
  isIndeterminate := fun _ => false
  isCircuitTripped := fun _ => false
  isOpenPr := fun _ => none
  readLiveState := fun _ _ => none
  isLiveMergeCredited := fun _ _ => false
  hasPushedRunBranch := fun _ => false
  inFlight := [busyTask]
  dispatchValueContext := none
  resumableTaskIds := []
  observesOrder := false
  redealFanoutOver := fun context _ => context

def isMergedTask (id : Text) : Bool := id == mergedTask.id

/-- Tasks in their order stay in it. -/
theorem dispatchOrder_of_pairwise {tasks : List Task} {context : Option DispatchValueContext}
    (h : tasks.Pairwise fun a b => (compareDispatch a b context != .gt) = true) : dispatchOrder tasks context [] = tasks :=
  List.mergeSort_of_pairwise h

theorem eligible_mixedTasks :
    mixedTasks.filter (isDispatchEligible plainJudges mixedPlan isMergedTask busyOpts) = [dependentTask, busyTask] := by
  decide +kernel

theorem dispatchOrder_mixedTasks : dispatchOrder mixedTasks none [] = mixedTasks :=
  dispatchOrder_of_pairwise (by decide +kernel)

/-- The task whose dependency is merged is the next one, and the only one while the other occupies its lane. -/
theorem dependent_selected_and_runnable :
    nextRunnable plainJudges mixedPlan isMergedTask busyOpts = some dependentTask ∧
      Cleared plainJudges mixedPlan isMergedTask busyOpts dependentTask ∧
      runnableCandidates plainJudges mixedPlan isMergedTask 2 busyOpts = [dependentTask] ∧
      dependentTask.id ∉ busyOpts.inFlight.map (·.id) := by
  have hnext : nextRunnable plainJudges mixedPlan isMergedTask busyOpts = some dependentTask := by
    show (dispatchOrder ((((dispatchOrder mixedTasks none []).filter _)).take 1) none []).head? = _
    rw [dispatchOrder_mixedTasks, eligible_mixedTasks, dispatchOrder_of_pairwise (by decide +kernel)]
    rfl
  have hcandidates : runnableCandidates plainJudges mixedPlan isMergedTask 2 busyOpts = [dependentTask] := by
    show packDisjointFirst plainJudges (dispatchOrder ((dispatchOrder mixedTasks none []).filter _) none []) 2 [busyTask] = _
    rw [dispatchOrder_mixedTasks, eligible_mixedTasks, dispatchOrder_of_pairwise (by decide +kernel)]
    decide +kernel
  have hrunnable := selected_tasks_runnable plainJudges mixedPlan isMergedTask busyOpts
  have hmem : dependentTask ∈ runnableCandidates plainJudges mixedPlan isMergedTask 2 busyOpts := by
    rw [hcandidates]
    exact List.mem_singleton_self _
  exact ⟨hnext, (hrunnable.1 dependentTask hnext).2, hcandidates, (hrunnable.2.1 2 dependentTask hmem).2.2⟩

end Remudero.Drain
