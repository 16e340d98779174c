import Remudero.Lib.JsNumber
import Remudero.Lib.Lines
import Remudero.Lib.Number
import Remudero.Lib.Regex

/-! # Pushed run branches

A run pushes its work on a branch `run-<task>-<epoch>` before it opens a pull request.  One
`ls-remote` sweep per pass lists these branches, `runBranchTaskIds` and `parsePushedRunRefs` of
`lib/drain.ts` read the task ids and the exact tips from the same text, and
`stillBlockedByPushedRunBranch` keeps a task back while one of its tips is not known to be over.

A tip is over when its branch belongs to a pull request that was closed unmerged, when a receipt names
exactly this branch and sha as a plan filing, or when orphan evidence releases it.  The first is a fact
about the branch, the other two are facts about the tip: `pushed_branch_blocks_until_tip_over`. -/

namespace Remudero.Drain

open Remudero.Lib

/-! ### Names of run branches -/

/-- `/^[A-Za-z]+\d*-T\d+[A-Za-z]*$/`. -/
def taskIdShape : Re :=
  .seqs [.start, .plus (.cls Char.isAlpha), .star .digit, .text "-T", .plus .digit, .star (.cls Char.isAlpha),
    .stop]

/-- The id is not a whole id with a word stapled on. -/
def namesATask (capture : Text) : Bool :=
  match (Re.seqs [.start, .group 1 (.plus .dot), .char '-', .cls Char.isAlpha, .star (.cls Char.isAlphanum),
      .stop]).exec capture with
  | none => true
  | some suffixed => !taskIdShape.test (suffixed.group 1)

/-- The task id that a run branch claims, by `/^run-(.+)-\d+$/`. -/
def taskIdFromRunBranch (head : Text) : Option Text :=
  ((Re.seqs [.start, .text "run-", .group 1 (.plus .dot), .char '-', .plus .digit, .stop]).exec head).bind
    fun m => if namesATask (m.group 1) then some (m.group 1) else none

/-- `replace(/^refs\/heads\//, "")`. -/
def stripRefsHeads (ref : Text) : Text :=
  if "refs/heads/".toList.isPrefixOf ref then ref.drop "refs/heads/".toList.length else ref

/-! ### The sweep -/

def lsRemoteLines (lsRemoteOutput : Text) : List Text := Text.splitBy (· == '\n') lsRemoteOutput

/-- The id one line of the sweep adds to the set. -/
def runBranchTaskId (rawLine : Text) : Option Text :=
  let line := Text.trim rawLine
  if line.isEmpty then none
  else
    let ref := if '\t' ∈ line then (Text.splitBy (· == '\t') line).getD 1 [] else line
    taskIdFromRunBranch (stripRefsHeads ref)

def runBranchTaskIds (lsRemoteOutput : Text) : Finset Text :=
  ((lsRemoteLines lsRemoteOutput).filterMap runBranchTaskId).toFinset

/-- A branch of a run and, unless the sweep line was a bare ref, its tip. -/
structure PushedRunRef where
  taskId : Text
  ref : Text
  sha : Option Text
deriving DecidableEq, Repr

/-- The ref one line of the sweep adds to the list. -/
def pushedRunRef (rawLine : Text) : Option PushedRunRef :=
  let line := Text.trim rawLine
  if line.isEmpty then none
  else
    let hasTab := decide ('\t' ∈ line)
    let sha := if hasTab then some ((Text.splitBy (· == '\t') line).getD 0 []) else none
    let rawRef := if hasTab then (Text.splitBy (· == '\t') line).getD 1 [] else line
    let branch := stripRefsHeads rawRef
    (taskIdFromRunBranch branch).map fun taskId => { taskId := taskId, ref := branch, sha := sha }

def parsePushedRunRefs (lsRemoteOutput : Text) : List PushedRunRef :=
  (lsRemoteLines lsRemoteOutput).filterMap pushedRunRef

/-! ### Releases -/

structure PlanOnlyRunBranchReceipt where
  ref : Text
  sha : Text
  prNumber : ℕ
deriving DecidableEq, Repr

/-- A receipt names both the ref and the sha; a bare ref has no sha and matches none. -/
def planOnlyRunBranchReceipt (ref : PushedRunRef) (receipts : List PlanOnlyRunBranchReceipt) : Bool :=
  match ref.sha with
  | none => false
  | some sha => receipts.any fun r => r.ref == ref.ref && r.sha == sha

/-- What one pass knows of runs without a pull request.  Optional fields of the source are options. -/
structure OrphanRunBranchEvidence where
  noPrHeadShas : Text → Option Text
  nowMs : JsNumber
  liveTaskIds : Finset Text
  endedRunIds : Option (Finset Text)
  longestSettledRunMs : Option JsNumber
  graceMs : Option JsNumber
  requeuedAtMs : Option (Text → Option JsNumber)

inductive OrphanReleaseReason where
  | runEndedNoPr
  | olderThanObservedRuns
  | orphanRunBranchNoPr
  | requeueReleased
deriving DecidableEq, Repr

/-- The sweep requeued the task at or after the instant the ref was pushed. -/
def requeueReleasesRef (ref : PushedRunRef) (epochMs : JsNumber) (orphan : OrphanRunBranchEvidence) : Bool :=
  match orphan.requeuedAtMs.bind fun f => f ref.taskId with
  | none => false
  | some requeuedAt => requeuedAt.isFinite && epochMs.le requeuedAt

/-- Release by age: the test-only grace if it is set, else the longest settled run. -/
def orphanAgeRelease (ageMs : JsNumber) (orphan : OrphanRunBranchEvidence) : Option OrphanReleaseReason :=
  match orphan.graceMs with
  | some grace =>
      if grace.isFinite && JsNumber.le (.finite 0) grace && grace.le ageMs then some .orphanRunBranchNoPr else none
  | none =>
      match orphan.longestSettledRunMs with
      | none => none
      | some longest =>
          if longest.isFinite && JsNumber.le (.finite 0) longest && longest.lt ageMs then
            some .olderThanObservedRuns
          else none

def orphanRunBranchReleaseReason (ref : PushedRunRef) (orphan : Option OrphanRunBranchEvidence) :
    Option OrphanReleaseReason := do
  let orphan ← orphan
  let sha ← ref.sha
  if orphan.noPrHeadShas ref.ref ≠ some sha ∨ ref.taskId ∈ orphan.liveTaskIds then none
  else
    let epoch ← (Re.seqs [.char '-', .group 1 (.rep 13 (some 13) true .digit), .stop]).exec ref.ref
    let epochMs := JsNumber.ofOption (Number.number (epoch.group 1))
    if orphan.endedRunIds.any fun ended => decide (ref.ref.drop "run-".toList.length ∈ ended) then
      some .runEndedNoPr
    else
      match orphanAgeRelease (orphan.nowMs.sub epochMs) orphan with
      | some reason => some reason
      | none => if requeueReleasesRef ref epochMs orphan then some .requeueReleased else none

def orphanRunBranchReleased (ref : PushedRunRef) (orphan : Option OrphanRunBranchEvidence) : Bool :=
  (orphanRunBranchReleaseReason ref orphan).isSome

/-! ### The decision -/

def unmatchedRunRefsRemainBlocking (refs : List PushedRunRef) (receipts : List PlanOnlyRunBranchReceipt)
    (orphan : Option OrphanRunBranchEvidence) : Bool :=
  if refs.length = 0 then false
  else refs.any fun ref => !planOnlyRunBranchReceipt ref receipts && !orphanRunBranchReleased ref orphan

def stillBlockedByPushedRunBranch (taskId : Text) (pushedRunBranches closedUnmergedRunBranches : Option (Finset Text))
    (pushedRunRefs : List PushedRunRef) (planOnlyReceipts : List PlanOnlyRunBranchReceipt)
    (orphan : Option OrphanRunBranchEvidence) : Bool :=
  if !pushedRunBranches.any fun branches => decide (taskId ∈ branches) then false
  else
    let refsForTask := pushedRunRefs.filter fun r => r.taskId == taskId &&
      !closedUnmergedRunBranches.any fun closed => decide (r.ref ∈ closed)
    unmatchedRunRefsRemainBlocking refsForTask planOnlyReceipts orphan

/-- The decision of a pass, from one sweep text. -/
def blockedBySweep (taskId lsRemoteOutput : Text) (closed : Option (Finset Text))
    (receipts : List PlanOnlyRunBranchReceipt) (orphan : Option OrphanRunBranchEvidence) : Bool :=
  stillBlockedByPushedRunBranch taskId (some (runBranchTaskIds lsRemoteOutput)) closed
    (parsePushedRunRefs lsRemoteOutput) receipts orphan

/-! ### When a task is blocked -/

/-- The tip of `ref` is not known to be over. -/
structure Unreleased (closed : Option (Finset Text)) (receipts : List PlanOnlyRunBranchReceipt)
    (orphan : Option OrphanRunBranchEvidence) (ref : PushedRunRef) : Prop where
  not_closed : ∀ branches, closed = some branches → ref.ref ∉ branches
  no_receipt : ∀ sha, ref.sha = some sha → ∀ r ∈ receipts, ¬ (r.ref = ref.ref ∧ r.sha = sha)
  not_orphan : orphanRunBranchReleased ref orphan = false

section Decision

variable {task out : Text} {closed : Option (Finset Text)} {receipts : List PlanOnlyRunBranchReceipt}
  {orphan : Option OrphanRunBranchEvidence}

-- The two loops read the same ref off every line, tab or not.
theorem runBranchTaskId_eq_map (rawLine : Text) :
    runBranchTaskId rawLine = (pushedRunRef rawLine).map PushedRunRef.taskId := by
  simp only [runBranchTaskId, pushedRunRef]
  split
  · rfl
  · by_cases htab : '\t' ∈ Text.trim rawLine
    · simp [htab, Function.comp_def]
    · simp [htab, Function.comp_def]

theorem mem_parsePushedRunRefs {ref : PushedRunRef} :
    ref ∈ parsePushedRunRefs out ↔ ∃ line ∈ lsRemoteLines out, pushedRunRef line = some ref := by
  simp [parsePushedRunRefs]

theorem mem_runBranchTaskIds :
    task ∈ runBranchTaskIds out ↔ ∃ ref ∈ parsePushedRunRefs out, ref.taskId = task := by
  simp only [runBranchTaskIds, List.mem_toFinset, List.mem_filterMap, mem_parsePushedRunRefs,
    runBranchTaskId_eq_map, Option.map_eq_some_iff]
  constructor
  · rintro ⟨line, hline, ref, href, htask⟩
    exact ⟨ref, ⟨line, hline, href⟩, htask⟩
  · rintro ⟨ref, ⟨line, hline, href⟩, htask⟩
    exact ⟨line, hline, ref, href, htask⟩

theorem planOnlyRunBranchReceipt_eq_false {ref : PushedRunRef} :
    planOnlyRunBranchReceipt ref receipts = false ↔
      ∀ sha, ref.sha = some sha → ∀ r ∈ receipts, ¬ (r.ref = ref.ref ∧ r.sha = sha) := by
  unfold planOnlyRunBranchReceipt
  cases hsha : ref.sha with
  | none => simp
  | some sha => simp

theorem unreleased_iff {ref : PushedRunRef} :
    Unreleased closed receipts orphan ref ↔
      (closed.any fun branches => decide (ref.ref ∈ branches)) = false ∧
        planOnlyRunBranchReceipt ref receipts = false ∧ orphanRunBranchReleased ref orphan = false := by
  have hclosed : (closed.any fun branches => decide (ref.ref ∈ branches)) = false ↔
      ∀ branches, closed = some branches → ref.ref ∉ branches := by
    cases closed <;> simp
  rw [hclosed, planOnlyRunBranchReceipt_eq_false]
  exact ⟨fun h => ⟨h.not_closed, h.no_receipt, h.not_orphan⟩, fun h => ⟨h.1, h.2.1, h.2.2⟩⟩

theorem unmatchedRunRefsRemainBlocking_iff {refs : List PushedRunRef} :
    unmatchedRunRefsRemainBlocking refs receipts orphan = true ↔
      ∃ ref ∈ refs, planOnlyRunBranchReceipt ref receipts = false ∧
        orphanRunBranchReleased ref orphan = false := by
  unfold unmatchedRunRefsRemainBlocking
  split
  next h => simp [List.length_eq_zero_iff.mp h]
  next => simp

/-- The set of task ids never decides: a ref of the task is in the list whenever its id is in the set. -/
theorem blockedBySweep_iff :
    blockedBySweep task out closed receipts orphan = true ↔
      ∃ line ∈ lsRemoteLines out, ∃ ref, pushedRunRef line = some ref ∧ ref.taskId = task ∧
        Unreleased closed receipts orphan ref := by
  have hiff : blockedBySweep task out closed receipts orphan = true ↔
      task ∈ runBranchTaskIds out ∧ ∃ ref ∈ parsePushedRunRefs out, ref.taskId = task ∧
        Unreleased closed receipts orphan ref := by
    simp only [blockedBySweep, stillBlockedByPushedRunBranch, unreleased_iff]
    by_cases hmem : task ∈ runBranchTaskIds out
    · simp [hmem, unmatchedRunRefsRemainBlocking_iff, List.mem_filter, and_assoc]
    · simp [hmem]
  rw [hiff]
  constructor
  · rintro ⟨-, ref, href, htask, hopen⟩
    obtain ⟨line, hline, hnames⟩ := mem_parsePushedRunRefs.mp href
    exact ⟨line, hline, ref, hnames, htask, hopen⟩
  · rintro ⟨line, hline, ref, hnames, htask, hopen⟩
    have href : ref ∈ parsePushedRunRefs out := mem_parsePushedRunRefs.mpr ⟨line, hline, hnames⟩
    exact ⟨mem_runBranchTaskIds.mpr ⟨ref, href, htask⟩, ref, href, htask, hopen⟩

/-- Orphan evidence is about the tip that the reaper saw. -/
theorem not_orphanReleased_of_sha_ne {evidence : OrphanRunBranchEvidence} {ref : PushedRunRef} {sha : Text}
    (hsha : ref.sha = some sha) (hne : evidence.noPrHeadShas ref.ref ≠ some sha) :
    orphanRunBranchReleased ref (some evidence) = false := by
  simp [orphanRunBranchReleased, orphanRunBranchReleaseReason, hsha, hne]

/-- A task with a live lock is not released as an orphan. -/
theorem not_orphanReleased_of_live {evidence : OrphanRunBranchEvidence} {ref : PushedRunRef}
    (hlive : ref.taskId ∈ evidence.liveTaskIds) : orphanRunBranchReleased ref (some evidence) = false := by
  cases hsha : ref.sha with
  | none => simp [orphanRunBranchReleased, orphanRunBranchReleaseReason, hsha]
  | some sha => simp [orphanRunBranchReleased, orphanRunBranchReleaseReason, hsha, hlive]

end Decision

/-- A task is blocked exactly while some line names a tip of it that is not over.  So more lines never
unblock it; a branch that is not closed blocks again once its tip is another than the one the receipts
and the no-PR record name; and a task that is live is released by closed branches and receipts only. -/
theorem pushed_branch_blocks_until_tip_over (task : Text) (closed : Option (Finset Text))
    (receipts : List PlanOnlyRunBranchReceipt) (orphan : Option OrphanRunBranchEvidence) :
    (∀ out, blockedBySweep task out closed receipts orphan = true ↔
      ∃ line ∈ lsRemoteLines out, ∃ ref, pushedRunRef line = some ref ∧ ref.taskId = task ∧
        Unreleased closed receipts orphan ref) ∧
    (∀ out out', lsRemoteLines out ⊆ lsRemoteLines out' →
      blockedBySweep task out closed receipts orphan = true →
        blockedBySweep task out' closed receipts orphan = true) ∧
    (∀ out' before tip' after branch sha', lsRemoteLines out' = before ++ tip' :: after →
      pushedRunRef tip' = some { taskId := task, ref := branch, sha := some sha' } →
      (∀ branches, closed = some branches → branch ∉ branches) →
      (∀ r ∈ receipts, ¬ (r.ref = branch ∧ r.sha = sha')) →
      (∀ evidence, orphan = some evidence → evidence.noPrHeadShas branch ≠ some sha') →
        blockedBySweep task out' closed receipts orphan = true) ∧
    (∀ out evidence, orphan = some evidence → task ∈ evidence.liveTaskIds →
      blockedBySweep task out closed receipts orphan = false →
        ∀ line ∈ lsRemoteLines out, ∀ ref, pushedRunRef line = some ref → ref.taskId = task →
          (∃ branches, closed = some branches ∧ ref.ref ∈ branches) ∨
          ∃ r ∈ receipts, r.ref = ref.ref ∧ ref.sha = some r.sha) := by
  refine ⟨fun out => blockedBySweep_iff, ?_, ?_, ?_⟩
  · intro out out' hsub hblocked
    obtain ⟨line, hline, ref, hnames, htask, hopen⟩ := blockedBySweep_iff.mp hblocked
    exact blockedBySweep_iff.mpr ⟨line, hsub hline, ref, hnames, htask, hopen⟩
  · intro out' before tip' after branch sha' hlines hnames hclosed hreceipts hrecord
    apply blockedBySweep_iff.mpr
    refine ⟨tip', by simp [hlines], _, hnames, rfl, hclosed, ?_, ?_⟩
    · intro sha hsha r hr
      obtain rfl := Option.some.inj hsha
      exact hreceipts r hr
    · cases orphan with
      | none => rfl
      | some evidence => exact not_orphanReleased_of_sha_ne rfl (hrecord evidence rfl)
  · rintro out evidence rfl hlive hblocked line hline ref hnames rfl
    by_contra hover
    push Not at hover
    have hopen : Unreleased closed receipts (some evidence) ref := by
      refine ⟨hover.1, ?_, not_orphanReleased_of_live hlive⟩
      rintro sha hsha r hr ⟨href, rfl⟩
      exact hover.2 r hr href hsha
    have htrue := blockedBySweep_iff.mpr ⟨line, hline, ref, hnames, rfl, hopen⟩
    rw [hblocked] at htrue
    exact absurd htrue (by decide)

/-- A pull request that was closed unmerged releases its branch by name, whatever its tip: another tip,
which is in no receipt and no no-PR record, does not block. -/
theorem closed_branch_new_tip_not_blocked :
    let branch := "run-A-1".toList
    let sweep := fun sha : Text => sha ++ '\t' :: "refs/heads/".toList ++ branch
    pushedRunRef (sweep "0a".toList) = some ⟨"A".toList, branch, some "0a".toList⟩ ∧
    pushedRunRef (sweep "1b".toList) = some ⟨"A".toList, branch, some "1b".toList⟩ ∧
    blockedBySweep "A".toList (sweep "0a".toList) (some {branch}) [] none = false ∧
    blockedBySweep "A".toList (sweep "1b".toList) (some {branch}) [] none = false := by
  decide +kernel

/-- A branch with a receipt blocks again after a push. -/
theorem receipt_lost_after_push :
    let branch := "run-A-1".toList
    let receipts := [⟨branch, "0a".toList, 7⟩]
    let sweep := fun sha : Text => sha ++ '\t' :: "refs/heads/".toList ++ branch
    blockedBySweep "A".toList (sweep "0a".toList) none receipts none = false ∧
    blockedBySweep "A".toList (sweep "1b".toList) none receipts none = true := by
  intro branch receipts sweep
  refine ⟨by decide +kernel, ?_⟩
  exact (pushed_branch_blocks_until_tip_over "A".toList none receipts none).2.2.1 _ []
    (sweep "1b".toList) [] branch "1b".toList (by decide +kernel) (by decide +kernel) (by simp)
    (by simp [receipts]) (by simp)

end Remudero.Drain
