import Remudero.Lib.FirstSeen
import Remudero.Lib.Record
import Remudero.Lib.Utf16

/-! # The dispatch streak of a task

The counters of `lib/status.ts` and the exclusions of `lib/non-worker-verdict.ts`: how many times
a task was dispatched since its last forward progress, read off the rows of the live ledger.
`dispatchStreakTally` walks the task's rows in time order, starts again at every reset
(`isDispatchStreakReset`) and leaves out the runs whose verdict no worker earned (`streakRefusal`)
and the runs that left nothing but their start (`orphanedRunIds`).

A row is what its JSON object has in the fields that are read here: a text is `none` when the
field is absent or not a string.  Of a `step`, `run_id` or `ts` that is there and not a string, `otherStep`, `otherRunId`
and `otherTs` have what `String` makes of it.  `Date.parse` is the parameter `dateParse`.

`tally_le` bounds the tally by the `run.start` rows of the task; `le_count_of_own` says when every
start of a tail of the rows is counted. -/

namespace Remudero.Dispatch

open Remudero.Lib

/-- A row of the ledger. -/
structure Row where
  taskId : Option Text := none
  task : Option Text := none
  step : Option Text := none
  runId : Option Text := none
  ts : Option Text := none
  prUrl : Option Text := none
  verdict : Option Text := none
  decision : Option Text := none
  stage : Option Text := none
  cause : Option Text := none
  reason : Option Text := none
  refusalClass : Option Text := none
  proofExec : Option Text := none
  freshCount : Option ℚ := none
  otherStep : Option Text := none
  otherRunId : Option Text := none
  otherTs : Option Text := none
deriving DecidableEq

namespace Row

variable (line : Row)

/-- The field holds this text. -/
def hasStep (step : String) : Bool := line.step == some step.toList

def hasVerdict (verdict : String) : Bool := line.verdict == some verdict.toList

def isRunStart : Bool := line.hasStep "run.start"

/-- `String(value)` of a text field. -/
def shown : Option Text → Text
  | none => "undefined".toList
  | some t => t

/-- `${run_id}|${String(step)}|${String(ts)}`. -/
def eventKey : Text :=
  shown line.runId ++ '|' :: shown (line.step.or line.otherStep) ++ '|' :: shown (line.ts.or line.otherTs)

/-- What times are compared by: the code units of their text. -/
def stamp : List ℕ := Text.utf16 (line.ts.getD [])

end Row

/-! ### Verdicts no worker earned -/

def infrastructureRefusalVerdicts : List Text :=
  ["blocked_containment", "blocked_isolation", "blocked_toolchain", "blocked_transient",
    "task_already_merged"].map String.toList

def lifetimeOnlyRefusalVerdicts : List Text :=
  ["blocked_git_fetch", "blocked_inflight", "handed_off"].map String.toList

def infrastructureThrownStages : List Text :=
  ["managed_checkout.refresh", "worktree.node_modules", "preflight.containment",
    "preflight.isolation"].map String.toList

def harnessCheckpointNoPrReasons : List Text :=
  ["restart_checkpoint_failed", "restart_checkpoint_restore_failed"].map String.toList

def infrastructureRefusal (line : Row) : Option Text :=
  match line.verdict with
  | none => none
  | some verdict =>
      if infrastructureRefusalVerdicts.contains verdict then some verdict
      else if verdict = "failed".toList then
        line.stage.filter fun stage => infrastructureThrownStages.contains stage
      else none

def lifetimeInfrastructureRefusal (line : Row) : Option Text :=
  (infrastructureRefusal line).or
    (line.verdict.filter fun verdict => lifetimeOnlyRefusalVerdicts.contains verdict)

/-- `\w`. -/
def wordChar (c : Char) : Bool := c.isAlphanum || c == '_'

/-- A report line of the checker: `\s*verdict:\s+exec_error\b`. -/
def execErrorLine (text : Text) : Bool :=
  let rest := text.dropWhile Text.jsSpace
  let mark := "verdict:".toList
  let word := "exec_error".toList
  mark.isPrefixOf rest &&
    (let gap := (rest.drop mark.length).takeWhile Text.jsSpace
     let tail := (rest.drop mark.length).dropWhile Text.jsSpace
     !gap.isEmpty && word.isPrefixOf tail && !(tail.drop word.length).head?.any wordChar)

/-- The pattern `(?:^|\n)\s*verdict:\s+exec_error\b`. -/
def execErrorVerdictLine (reason : Text) : Bool :=
  execErrorLine reason ||
    reason.tails.any fun t => t.head? == some '\n' && execErrorLine (t.drop 1)

def inconclusiveProofRefusal (line : Row) : Bool :=
  line.hasVerdict "failed" && line.stage == some "pr_open.refused".toList &&
    (line.proofExec == some "exec_error".toList || line.reason.any execErrorVerdictLine)

def collectedNothingRefusal (line : Row) : Bool :=
  line.hasVerdict "failed" && line.stage == some "pr_open.refused".toList &&
    line.refusalClass == some "proof-collected-nothing".toList

def pushAuthRefusals : List Text :=
  ["Repository not found", "Authentication failed", "HTTP 403", "returned error: 403",
    "could not read Username", "Invalid username or token"].map String.toList

def pushAuthRefusal (line : Row) : Bool :=
  line.hasVerdict "failed" && line.stage == some "run.error".toList &&
    (line.cause == some "push-auth-refused".toList ||
      (line.cause == some "git-push-failed".toList &&
        line.reason.any fun reason => pushAuthRefusals.any fun mark => reason.contains mark))

/-- Why a verdict is not counted against the task. -/
def streakRefusal (line : Row) : Option Text :=
  ((((lifetimeInfrastructureRefusal line).or
    (if line.hasVerdict "no_pr" then
      line.reason.filter fun reason => harnessCheckpointNoPrReasons.contains reason else none)).or
    (if inconclusiveProofRefusal line then some "proof_inconclusive".toList else none)).or
    (if collectedNothingRefusal line then some "proof_collected_nothing".toList else none)).or
    (if pushAuthRefusal line then some "push_auth_refused".toList else none)

/-! ### Resets -/

def isMergeCreditLine (line : Row) : Bool :=
  line.hasStep "verdict.merged" || (line.hasStep "verdict" && line.hasVerdict "merged")

/-- A new owned pull request, a merge credit, a release, or a judge's ruling to continue. -/
def isDispatchStreakReset (line : Row) : Bool :=
  line.hasStep "pr.opened" || isMergeCreditLine line || line.hasStep "dispatch.breaker_released" ||
    (line.hasStep "dispatch.breaker_judged" && line.decision == some "continue".toList)

theorem not_reset_of_runStart {line : Row} (h : line.isRunStart = true) :
    isDispatchStreakReset line = false := by
  have hstep : line.step = some "run.start".toList := by simpa [Row.isRunStart, Row.hasStep] using h
  simp [isDispatchStreakReset, isMergeCreditLine, Row.hasStep, hstep]

/-! ### The rows of a task -/

/-- The rows that name the task in either field, as `indexedTaskRows` returns them. -/
def indexedTaskRows (lines : List Row) (taskId : Text) : List Row :=
  lines.filter fun line => line.taskId == some taskId || line.task == some taskId

/-- The rows of the task. -/
def taskRows (lines : List Row) (taskId : Text) : List Row :=
  lines.filter fun line => line.taskId == some taskId

theorem filter_indexedTaskRows (lines : List Row) (taskId : Text) :
    (indexedTaskRows lines taskId).filter (fun line => line.taskId == some taskId) =
      taskRows lines taskId := by
  unfold indexedTaskRows taskRows
  rw [List.filter_filter]
  refine List.filter_congr ?_
  intro line _
  cases line.taskId == some taskId <;> rfl

/-- The count of the newest refusal since the last reset. -/
def seedCountFromCircuitBreak (lines : List Row) (taskId : Text) : Option ℚ :=
  (indexedTaskRows lines taskId).foldl (fun seed line =>
    if line.taskId == some taskId && isDispatchStreakReset line then none
    else if line.hasStep "dispatch.circuit_broken" && line.task == some taskId then
      (line.freshCount.filter fun fresh => decide (0 ≤ fresh)).or seed
    else seed) none

/-- The newest `pr.opened` row of the task. -/
def lastPrOpened (lines : List Row) (taskId : Text) : Option Text :=
  (indexedTaskRows lines taskId).foldl (fun url line =>
    if line.hasStep "pr.opened" && line.taskId == some taskId then line.prUrl.or url else url) none

/-- The key a row is collapsed under; a row without a time or a run is kept. -/
def Row.replayKey (line : Row) : Option Text :=
  if line.ts.isSome && line.runId.isSome then some line.eventKey else none

/-- No row is dated before the row in front of it. -/
def inTimeOrder : List Row → Bool
  | a :: b :: l => decide (a.stamp ≤ b.stamp) && inTimeOrder (b :: l)
  | _ => true

/-- The task's rows, copies collapsed, in time order when every one is dated. -/
def taskRowsInTimeOrder (rows : List Row) (taskId : Text) : List Row :=
  let own := firstSeen Row.replayKey [] (rows.filter fun line => line.taskId == some taskId)
  if !own.all fun line => line.ts.isSome then own
  else if inTimeOrder own then own
  else own.mergeSort fun a b => decide (a.stamp ≤ b.stamp)

/-! ### Orphans -/

variable (dateParse : Text → Option ℤ)

/-- The newest time in the ledger. -/
def latestLedgerTsMs (lines : List Row) : Option ℤ :=
  lines.foldl (fun latest line =>
    match line.ts.bind dateParse with
    | none => latest
    | some ms => some (latest.elim ms (max ms))) none

def monitorWrittenRunSteps : List Text :=
  ["run.running_long", "cost.anomaly", "worker.stalled"].map String.toList

def defaultLivenessBoundMs : ℤ := 30 * 60000

/-- The runs whose only own row is a start that is `livenessBoundMs` old. -/
def provenOrphanRunIds (rows : List Row) (nowMs : Option ℤ) (livenessBoundMs : ℤ) (taskId : Text) :
    List Text :=
  let own := rows.filter fun line => line.taskId == some taskId && line.runId.isSome &&
    !line.step.any fun step => monitorWrittenRunSteps.contains step
  let counted := firstSeen (fun line => some line.eventKey) [] own
  match nowMs with
  | none => []
  | some now =>
      counted.filterMap fun line =>
        if line.isRunStart && decide (counted.countP (fun l => l.runId == line.runId) ≤ 1) &&
            (line.ts.bind dateParse).any (fun start => decide (livenessBoundMs ≤ now - start)) then
          line.runId
        else none

def orphanedRunIds (lines : List Row) (taskId : Text) : List Text :=
  provenOrphanRunIds dateParse (indexedTaskRows lines taskId) (latestLedgerTsMs dateParse lines)
    defaultLivenessBoundMs taskId

/-! ### The tally -/

structure DispatchStreakTally where
  count : ℕ := 0
  excludedDispatches : ℕ := 0
  excludedByReason : List (Text × ℕ) := []
  lastReset : Option Text := none

/-- The refusal a run's verdict carries; of several the last one. -/
def refusalByRunId (rows : List Row) (runId : Text) : Option Text :=
  rows.reverse.findSome? fun line =>
    if line.hasStep "verdict" && line.runId == some runId then streakRefusal line else none

/-- Why a start is not counted. -/
def exclusion (rows : List Row) (orphans : List Text) (line : Row) : Option Text :=
  line.runId.bind fun runId =>
    (refusalByRunId rows runId).or
      (if orphans.contains runId then some "orphaned_run".toList else none)

/-- One row of the walk. -/
def tallyRow (rows : List Row) (orphans : List Text) (tally : DispatchStreakTally) (line : Row) :
    DispatchStreakTally :=
  if isDispatchStreakReset line then
    { lastReset := some (Row.shown line.step ++ '|' :: Row.shown (line.runId.or line.otherRunId) ++
        '|' :: Row.shown (line.ts.or line.otherTs)) }
  else if line.isRunStart then
    match exclusion rows orphans line with
    | some reason =>
        { tally with
          excludedDispatches := tally.excludedDispatches + 1
          excludedByReason :=
            assign reason ((entryOf reason tally.excludedByReason).getD 0 + 1) tally.excludedByReason }
    | none => { tally with count := tally.count + 1 }
  else tally

def dispatchStreakTally (lines : List Row) (taskId : Text) : DispatchStreakTally :=
  let rows := taskRowsInTimeOrder (indexedTaskRows lines taskId) taskId
  rows.foldl (tallyRow rows (orphanedRunIds dateParse lines taskId)) {}

/-! ### What the tally counts -/

theorem foldl_tally_le (rows : List Row) (orphans : List Text) (l : List Row)
    (tally : DispatchStreakTally) :
    (l.foldl (tallyRow rows orphans) tally).count +
        (l.foldl (tallyRow rows orphans) tally).excludedDispatches ≤
      tally.count + tally.excludedDispatches + l.countP Row.isRunStart := by
  induction l generalizing tally with
  | nil => exact Nat.le_refl _
  | cons line l ih =>
      rw [List.foldl_cons, List.countP_cons]
      refine (ih _).trans ?_
      unfold tallyRow
      split
      · simp only
        omega
      · split
        · split
          · simp only
            omega
          · simp only
            omega
        · omega

/-- Without a reset the walk adds the starts that are not excluded. -/
theorem foldl_tally_count (rows : List Row) (orphans : List Text) {l : List Row}
    (tally : DispatchStreakTally) (h : ∀ line ∈ l, isDispatchStreakReset line = false) :
    (l.foldl (tallyRow rows orphans) tally).count =
      tally.count +
        l.countP (fun line => line.isRunStart && (exclusion rows orphans line).isNone) := by
  induction l generalizing tally with
  | nil => rfl
  | cons line l ih =>
      have hline := h line List.mem_cons_self
      rw [List.foldl_cons, ih _ fun b hb => h b (List.mem_cons_of_mem line hb), List.countP_cons]
      unfold tallyRow
      rw [if_neg (by simp [hline])]
      split
      · next hstart =>
          split
          · next reason hreason => simp [hreason]
          · next hnone =>
              simp only [hstart, hnone, Option.isNone_none, Bool.and_self, if_true]
              omega
      · next hstart => simp [hstart]

theorem taskRowsInTimeOrder_countP (lines : List Row) (taskId : Text) :
    (taskRowsInTimeOrder (indexedTaskRows lines taskId) taskId).countP Row.isRunStart ≤
      (taskRows lines taskId).countP Row.isRunStart := by
  have hsub : (firstSeen Row.replayKey [] (taskRows lines taskId)).countP Row.isRunStart ≤
      (taskRows lines taskId).countP Row.isRunStart :=
    (firstSeen_sublist Row.replayKey [] _).countP_le
  unfold taskRowsInTimeOrder
  rw [filter_indexedTaskRows]
  dsimp only
  split_ifs
  · exact hsub
  · exact hsub
  · rw [(List.mergeSort_perm _ _).countP_eq]
    exact hsub

/-- Counted or excluded, a start is a `run.start` row of the task. -/
theorem tally_le (lines : List Row) (taskId : Text) :
    (dispatchStreakTally dateParse lines taskId).count +
        (dispatchStreakTally dateParse lines taskId).excludedDispatches ≤
      (taskRows lines taskId).countP Row.isRunStart := by
  have hle := foldl_tally_le (taskRowsInTimeOrder (indexedTaskRows lines taskId) taskId)
    (orphanedRunIds dateParse lines taskId)
    (taskRowsInTimeOrder (indexedTaskRows lines taskId) taskId) {}
  have hrows := taskRowsInTimeOrder_countP lines taskId
  unfold dispatchStreakTally
  dsimp only at hle ⊢
  omega

/-- The task's rows stand in the order of their times, unless one of them has none. -/
def RowsInOrder (lines : List Row) (taskId : Text) : Prop :=
  (∀ line ∈ taskRows lines taskId, line.ts.isSome = true) →
    (taskRows lines taskId).Pairwise fun a b => a.stamp ≤ b.stamp

theorem inTimeOrder_of_pairwise {l : List Row}
    (h : l.Pairwise fun a b => a.stamp ≤ b.stamp) : inTimeOrder l = true := by
  induction l with
  | nil => rfl
  | cons a l ih =>
      rw [List.pairwise_cons] at h
      cases l with
      | nil => rfl
      | cons b l =>
          have hab := h.1 b List.mem_cons_self
          simp [inTimeOrder, hab, ih h.2]

theorem taskRowsInTimeOrder_eq {lines : List Row} {taskId : Text} (h : RowsInOrder lines taskId) :
    taskRowsInTimeOrder (indexedTaskRows lines taskId) taskId =
      firstSeen Row.replayKey [] (taskRows lines taskId) := by
  unfold taskRowsInTimeOrder
  rw [filter_indexedTaskRows]
  dsimp only
  split_ifs with hdated hordered
  · rfl
  · rfl
  · refine absurd (inTimeOrder_of_pairwise ?_) hordered
    refine (h ?_).sublist (firstSeen_sublist _ _ _)
    intro line hline
    by_contra hts
    have hkey : line.replayKey = none := by simp [Row.replayKey, hts]
    have hmem := mem_firstSeen_of_key_none Row.replayKey [] hline hkey
    simp only [Bool.not_eq_true, Bool.not_eq_false', List.all_eq_true] at hdated
    exact hts (hdated line hmem)

/-- A tail of the rows without a reset is counted in full when each start in it has an event of its
own and is not excluded. -/
theorem le_count_of_own {lines : List Row} {taskId : Text} {before after : List Row}
    (horder : RowsInOrder lines taskId) (hrows : taskRows lines taskId = before ++ after)
    (hreset : ∀ line ∈ after, isDispatchStreakReset line = false)
    (hown : after.Pairwise fun a b =>
      b.isRunStart = true → ∀ k, b.replayKey = some k → a.replayKey ≠ some k)
    (hnew : ∀ a ∈ before, ∀ b ∈ after, b.isRunStart = true →
      ∀ k, b.replayKey = some k → a.replayKey ≠ some k)
    (hcounted : ∀ line ∈ after, line.isRunStart = true →
      exclusion (taskRowsInTimeOrder (indexedTaskRows lines taskId) taskId)
        (orphanedRunIds dateParse lines taskId) line = none) :
    after.countP Row.isRunStart ≤ (dispatchStreakTally dateParse lines taskId).count := by
  obtain ⟨seen, hseen, happ⟩ := firstSeen_append Row.replayKey [] before after
  have heq : taskRowsInTimeOrder (indexedTaskRows lines taskId) taskId =
      firstSeen Row.replayKey [] before ++ firstSeen Row.replayKey seen after := by
    rw [taskRowsInTimeOrder_eq horder, hrows, happ]
  have hsub : (after.filter Row.isRunStart).Sublist (firstSeen Row.replayKey seen after) := by
    refine filter_sublist_firstSeen Row.replayKey ?_ hown
    intro b hb hstart k hk hmem
    rcases hseen k hmem with hnil | ⟨a, ha, hak⟩
    · cases hnil
    · exact hnew a ha b hb hstart k hk hak
  unfold dispatchStreakTally
  dsimp only
  set rows := taskRowsInTimeOrder (indexedTaskRows lines taskId) taskId with hrowsdef
  set orphans := orphanedRunIds dateParse lines taskId with horphans
  have hfold : rows.foldl (tallyRow rows orphans) {} =
      (firstSeen Row.replayKey seen after).foldl (tallyRow rows orphans)
        ((firstSeen Row.replayKey [] before).foldl (tallyRow rows orphans) {}) := by
    rw [← List.foldl_append, ← heq]
  rw [hfold, foldl_tally_count rows orphans _
    fun line hline => hreset line ((firstSeen_sublist _ _ _).subset hline)]
  have hcount : (after.filter Row.isRunStart).countP
      (fun line => line.isRunStart && (exclusion rows orphans line).isNone) ≤
        (firstSeen Row.replayKey seen after).countP
          (fun line => line.isRunStart && (exclusion rows orphans line).isNone) :=
    hsub.countP_le
  have hall : (after.filter Row.isRunStart).countP
      (fun line => line.isRunStart && (exclusion rows orphans line).isNone) =
        after.countP Row.isRunStart := by
    rw [List.countP_eq_length_filter, List.countP_eq_length_filter, List.filter_eq_self.mpr]
    intro line hline
    obtain ⟨hmem, hstart⟩ := List.mem_filter.mp hline
    simp [hstart, hcounted line hmem hstart]
  omega

end Remudero.Dispatch
