import Remudero.Lib.Transition
import Remudero.Automation.Action

/-! # Execution of an automation action

The engine of `lib/automation-action.ts`: `executeAutomationAction` admits an action whose preflight is ready,
`completeAutomationAction` records how the admitted execution ended and `rollbackAutomationAction` undoes it.
Each step decides from a scan of the action's receipts and answers a receipt, which is appended exactly when the
step says so.  The history is bounded: at `AUTOMATION_ACTION_MAX_RECEIPTS` nothing is appended any more.

* `action_executes_at_most_once`: one admission, one completion and one rollback at most, a state that never goes
  back, and a failed completion that is accepted while the history is not full.
* `admission_fills_history`: refusals may leave room for the admission only, whose completion is then refused.

The digest of a receipt id is the parameter `sha256`. -/

namespace Remudero.Automation

open Remudero.Lib
open Remudero.Delegation (boundedText)

def AUTOMATION_ACTION_MAX_RECEIPTS : ℕ := 100

/-- What the engine is given: dates, and the hexadecimal SHA-256 digest. -/
structure Engine where
  dates : Dates
  sha256 : Text → Text

inductive ObservationState
  | satisfied
  | unsatisfied
  | unavailable
deriving DecidableEq

structure AutomationPreconditionObservation where
  preconditionId : Text
  state : ObservationState
  source : Text
  observedAt : Text
  reason : Option Text
deriving DecidableEq

inductive AutomationApprovalState
  | notRequired
  | pending
  | approved
  | rejected
deriving DecidableEq

/-- The latest operator decision: approved or rejected. -/
structure AutomationApprovalDecision where
  approved : Bool
  decidedBy : Text
  decidedAt : Text
deriving DecidableEq

structure AutomationPreflightFinding where
  outcome : AutomationPreflightOutcome
  code : Text
  detail : Text
  preconditionId : Option Text
  receiptId : Option Text
deriving DecidableEq

structure AutomationPreflightResult where
  outcome : AutomationPreflightOutcome
  findings : List AutomationPreflightFinding
deriving DecidableEq

/-! ### Scans of the receipts -/

def isAdmission (receipt : AutomationActionReceipt) (idempotencyKey : Text) : Bool :=
  receipt.kind = .execution && receipt.outcome = .inProgress && receipt.idempotencyKey = idempotencyKey

def isCompletionOf (admissionId : Text) (receipt : AutomationActionReceipt) : Bool :=
  receipt.kind = .completion && receipt.linkedReceiptId = some admissionId

def completionFor (receipts : List AutomationActionReceipt) (admissionId : Text) : Option AutomationActionReceipt :=
  receipts.find? (isCompletionOf admissionId)

def isRollbackOf (completionId : Text) (receipt : AutomationActionReceipt) : Bool :=
  receipt.kind = .rollback && receipt.outcome = .rolledBack && receipt.linkedReceiptId = some completionId

def rollbackFor (receipts : List AutomationActionReceipt) (completionId : Text) : Option AutomationActionReceipt :=
  receipts.find? (isRollbackOf completionId)

def automationApprovalState (action : AutomationAction) (decision : Option AutomationApprovalDecision) :
    AutomationApprovalState :=
  match action.approvalPolicy, decision with
  | .none, _ => .notRequired
  | .human, none => .pending
  | .human, some d => if d.approved then .approved else .rejected

/-! ### Preflight -/

/-- `/^(?:browser|client|web)[:_-]/i` -/
def browserOwned (source : Text) : Bool :=
  (Re.seqs [.start, alts [.textCI "browser", .textCI "client", .textCI "web"],
    .cls fun c => c == ':' || c == '_' || c == '-']).test source

def preconditionFinding (D : Dates) (precondition : AutomationActionPrecondition)
    (observation : Option AutomationPreconditionObservation) (nowMs : ℤ) (maxAgeSeconds : ℕ) :
    Option AutomationPreflightFinding :=
  let t (s : String) : Text := s.toList
  let found (outcome : AutomationPreflightOutcome) (code : String) (detail : Text) : Option AutomationPreflightFinding :=
    some ⟨outcome, code.toList, detail, some precondition.id, none⟩
  let name := t "precondition " ++ precondition.id
  match observation with
  | none => found .unknown "not-observed" (name ++ t " has no observation")
  | some observation =>
      if browserOwned observation.source || observation.source ≠ precondition.source then
        found .unknown "unauthoritative-source"
          (name ++ t " must be observed from " ++ precondition.source ++ t ", not " ++ observation.source)
      else if observation.state = .unavailable then
        found .unknown "source-unavailable"
          (observation.reason.getD (t "source " ++ observation.source ++ t " was unavailable"))
      else
        let observedMs := D.parse observation.observedAt
        if observedMs.any (nowMs < ·) then
          found .unknown "observed-in-future"
            (t "observation of " ++ precondition.id ++ t " is dated after the preflight")
        else if observation.state = .unsatisfied then
          found .refused "precondition-unsatisfied" (observation.reason.getD (name ++ t " is not satisfied"))
        else if observedMs.any fun at_ => maxAgeSeconds * 1000 < nowMs - at_ then
          found .stale "observation-stale"
            (t "observation of " ++ precondition.id ++ t " is older than " ++ (toString maxAgeSeconds).toList ++ t "s")
        else none

structure AutomationExecutionInput where
  observations : List AutomationPreconditionObservation
  approval : Option AutomationApprovalDecision
  eligibility : List AutomationPreflightFinding
  dryRun : Bool
  now : ℤ

def preflightAutomationAction (D : Dates) (action : AutomationAction) (receipts : List AutomationActionReceipt)
    (input : AutomationExecutionInput) : AutomationPreflightResult :=
  let t (s : String) : Text := s.toList
  let finding (outcome : AutomationPreflightOutcome) (code : String) (detail : Text) (receiptId : Option Text) :
      AutomationPreflightFinding := ⟨outcome, code.toList, detail, none, receiptId⟩
  if (D.parse action.expiresAt).any (· ≤ input.now) then
    ⟨.expired, [finding .expired "action-expired"
      (t "action " ++ action.actionId ++ t " expired at " ++ action.expiresAt) none]⟩
  else
    match receipts.find? fun receipt => isAdmission receipt action.idempotencyKey with
    | some admission =>
        match completionFor receipts admission.receiptId with
        | none =>
            ⟨.inProgress, [finding .inProgress "execution-in-progress"
              (t "execution " ++ admission.receiptId ++ t " has not completed") (some admission.receiptId)]⟩
        | some completion =>
            ⟨.refused, [finding .refused "already-executed"
              (t "idempotency key already executed as " ++ completion.receiptId) (some completion.receiptId)]⟩
    | none =>
        let gate := match automationApprovalState action input.approval with
          | .pending => [finding .refused "approval-pending"
              (t "a " ++ action.risk.text ++ t "-risk action needs an operator approval") none]
          | .rejected => [finding .refused "approval-rejected" (t "an operator rejected this action") none]
          | _ => []
        let observed := action.preconditions.filterMap fun precondition =>
          preconditionFinding D precondition
            (input.observations.reverse.find? fun item => item.preconditionId = precondition.id) input.now
            action.maxAgeSeconds
        let findings := gate ++ input.eligibility ++ observed
        match [AutomationPreflightOutcome.refused, .unknown, .stale].find? fun outcome =>
            findings.any fun f => f.outcome = outcome with
        | some outcome => ⟨outcome, findings⟩
        | none => ⟨.ready, findings⟩

/-! ### Steps -/

def AutomationReceiptKind.text : AutomationReceiptKind → Text
  | .execution => "execution".toList
  | .completion => "completion".toList
  | .rollback => "rollback".toList

/-- The fields of a receipt that a step decides. -/
structure ReceiptFields where
  kind : AutomationReceiptKind
  outcome : AutomationReceiptOutcome
  linkedReceiptId : Option Text := none
  preflight : Option AutomationPreflightOutcome := none
  code : Option Text := none
  reason : Text
  evidenceRef : Option Text := none

def automationReceiptId (E : Engine) (actionId : Text) (kind : AutomationReceiptKind) (sequence : ℕ) (at_ : Text) : Text :=
  let zero := Char.ofNat 0
  "aar-".toList ++ (E.sha256 (actionId ++ zero :: kind.text ++ zero :: (toString sequence).toList ++ zero :: at_)).take 24

def makeAutomationReceipt (E : Engine) (action : AutomationAction) (receipts : List AutomationActionReceipt) (now : ℤ)
    (fields : ReceiptFields) : AutomationActionReceipt :=
  let at_ := E.dates.iso now
  { receiptId := automationReceiptId E action.actionId fields.kind receipts.length at_
    actionId := action.actionId
    idempotencyKey := action.idempotencyKey
    kind := fields.kind
    outcome := fields.outcome
    at_ := at_
    receiptRef := action.receiptRef
    linkedReceiptId := fields.linkedReceiptId
    preflight := fields.preflight
    code := fields.code
    reason := boundedText fields.reason AUTOMATION_ACTION_MAX_TEXT_CHARS
    evidenceRef := fields.evidenceRef }

inductive StepDisposition
  | admitted
  | dryRun
  | refused
  | reused
  | completed
  | rolledBack
deriving DecidableEq

structure AutomationStepResult where
  disposition : StepDisposition
  receipt : AutomationActionReceipt
  append : Bool
deriving DecidableEq

section Steps

variable (E : Engine) (action : AutomationAction) (receipts : List AutomationActionReceipt)

def historyFull (now : ℤ) (kind : AutomationReceiptKind) : Option AutomationStepResult :=
  if receipts.length < AUTOMATION_ACTION_MAX_RECEIPTS then none
  else
    some { disposition := .refused, append := false
           receipt := makeAutomationReceipt E action receipts now
             { kind := kind, outcome := .refused, code := some "receipt-history-full".toList
               reason := "action ".toList ++ action.actionId ++ " already holds ".toList ++
                 (toString receipts.length).toList ++ " receipts".toList } }

def AutomationPreflightOutcome.text : AutomationPreflightOutcome → Text
  | .ready => "ready".toList
  | .refused => "refused".toList
  | .stale => "stale".toList
  | .unknown => "unknown".toList
  | .expired => "expired".toList
  | .inProgress => "in-progress".toList

def executeAutomationAction (input : AutomationExecutionInput) : AutomationStepResult :=
  let make := makeAutomationReceipt E action receipts input.now
  match receipts.find? fun receipt => isAdmission receipt action.idempotencyKey with
  | some admission =>
      let latest := match completionFor receipts admission.receiptId with
        | some completion => (rollbackFor receipts completion.receiptId).getD completion
        | none => admission
      { disposition := .reused, receipt := latest, append := false }
  | none =>
      match historyFull E action receipts input.now .execution with
      | some full => full
      | none =>
          if input.dryRun && !action.dryRun then
            { disposition := .refused, append := true
              receipt := make
                { kind := .execution, outcome := .refused, code := some "dry-run-unsupported".toList
                  reason := "action ".toList ++ action.actionId ++ " does not support a dry run".toList } }
          else
            let preflight := preflightAutomationAction E.dates action receipts input
            if preflight.outcome ≠ .ready then
              let first := preflight.findings.head?
              { disposition := .refused, append := true
                receipt := make
                  { kind := .execution, outcome := .refused, preflight := some preflight.outcome
                    code := first.map (·.code)
                    reason := (first.map (·.detail)).getD ("preflight answered ".toList ++ preflight.outcome.text) } }
            else if input.dryRun then
              { disposition := .dryRun, append := true
                receipt := make
                  { kind := .execution, outcome := .dryRun, preflight := some .ready
                    reason := "dry run: preflight ready, nothing executed".toList } }
            else
              { disposition := .admitted, append := true
                receipt := make
                  { kind := .execution, outcome := .inProgress, preflight := some .ready
                    reason := "admitted: preflight ready, awaiting completion evidence".toList } }

structure AutomationCompletionInput where
  admissionReceiptId : Text
  succeeded : Bool
  evidenceRef : Option Text
  reason : Option Text
  now : ℤ

/-- `boundedField` of an optional text. -/
def boundedRef (value : Option Text) : Bool :=
  value.any fun t => !(Text.trim t).isEmpty && Text.unitLength t ≤ AUTOMATION_ACTION_MAX_ID_CHARS

def completeAutomationAction (input : AutomationCompletionInput) : AutomationStepResult :=
  let make := makeAutomationReceipt E action receipts input.now
  let refuse (code : String) (reason : Text) : AutomationStepResult :=
    { disposition := .refused, append := false
      receipt := make
        { kind := .completion, outcome := .refused, code := some code.toList
          linkedReceiptId := some input.admissionReceiptId, reason := reason } }
  match receipts.find? fun receipt =>
      receipt.receiptId = input.admissionReceiptId && isAdmission receipt action.idempotencyKey with
  | none =>
      refuse "not-admitted" ("receipt ".toList ++ input.admissionReceiptId ++
        " is not an in-progress admission of action ".toList ++ action.actionId)
  | some admission =>
      match completionFor receipts admission.receiptId with
      | some existing => { disposition := .reused, receipt := existing, append := false }
      | none =>
          if input.succeeded && !boundedRef input.evidenceRef then
            refuse "evidence-required" "a succeeded completion must name its authoritative evidenceRef".toList
          else
            match historyFull E action receipts input.now .completion with
            | some full => full
            | none =>
                { disposition := .completed, append := true
                  receipt := make
                    { kind := .completion, outcome := if input.succeeded then .succeeded else .failed
                      linkedReceiptId := some admission.receiptId
                      evidenceRef := (input.evidenceRef.filter fun t => !t.isEmpty).map Text.trim
                      reason := input.reason.getD ("execution ".toList ++
                        if input.succeeded then "succeeded".toList else "failed".toList) } }

structure AutomationRollbackInput where
  reason : Text
  evidenceRef : Text
  now : ℤ

def rollbackAutomationAction (input : AutomationRollbackInput) : AutomationStepResult :=
  let make := makeAutomationReceipt E action receipts input.now
  match receipts.reverse.find? fun receipt => receipt.kind = .completion && receipt.outcome ≠ .refused with
  | none =>
      { disposition := .refused, append := false
        receipt := make
          { kind := .rollback, outcome := .refused, code := some "nothing-to-roll-back".toList
            reason := "action ".toList ++ action.actionId ++ " has no completed execution".toList } }
  | some completion =>
      match rollbackFor receipts completion.receiptId with
      | some existing => { disposition := .reused, receipt := existing, append := false }
      | none =>
          match historyFull E action receipts input.now .rollback with
          | some full => full
          | none =>
              match action.rollback with
              | .irreversible refusal =>
                  { disposition := .refused, append := true
                    receipt := make
                      { kind := .rollback, outcome := .refused, code := some "irreversible".toList
                        linkedReceiptId := some completion.receiptId, reason := refusal } }
              | .reversible _ =>
                  { disposition := .rolledBack, append := true
                    receipt := make
                      { kind := .rollback, outcome := .rolledBack, linkedReceiptId := some completion.receiptId
                        evidenceRef := some (boundedText (Text.trim input.evidenceRef) AUTOMATION_ACTION_MAX_ID_CHARS)
                        reason := input.reason } }

inductive AutomationActionState
  | registered
  | approved
  | rejected
  | inProgress
  | succeeded
  | failed
  | rolledBack
  | expired
deriving DecidableEq

def automationActionState (D : Dates) (approval : Option AutomationApprovalDecision) (now : ℤ) : AutomationActionState :=
  match receipts.find? fun receipt => isAdmission receipt action.idempotencyKey with
  | some admission =>
      match completionFor receipts admission.receiptId with
      | some completion =>
          if (rollbackFor receipts completion.receiptId).isSome then .rolledBack
          else if completion.outcome = .succeeded then .succeeded
          else .failed
      | none => .inProgress
  | none =>
      if (D.parse action.expiresAt).any (· ≤ now) then .expired
      else
        match automationApprovalState action approval with
        | .approved => .approved
        | .rejected => .rejected
        | _ => .registered

/-! ### Runs -/

inductive ActionEvent
  | execute (input : AutomationExecutionInput)
  | complete (input : AutomationCompletionInput)
  | rollback (input : AutomationRollbackInput)

def stepResult : ActionEvent → AutomationStepResult
  | .execute input => executeAutomationAction E action receipts input
  | .complete input => completeAutomationAction E action receipts input
  | .rollback input => rollbackAutomationAction E action receipts input

/-- The receipt of a step is appended when the step says so. -/
def ActionStep (receipts : List AutomationActionReceipt) (e : ActionEvent) (receipts' : List AutomationActionReceipt) :
    Prop :=
  let result := stepResult E action receipts e
  receipts' = if result.append then receipts ++ [result.receipt] else receipts

end Steps

/-! ### What a step appends -/

section Appends

variable {E : Engine} {action : AutomationAction} {receipts : List AutomationActionReceipt}

/-- A receipt that a step may append to `receipts`. -/
inductive Appends (action : AutomationAction) (receipts : List AutomationActionReceipt) (r : AutomationActionReceipt) : Prop
  /-- a refusal, or a dry run -/
  | plain (hkind : r.kind ≠ .completion) (hadmission : ¬ (r.kind = .execution ∧ r.outcome = .inProgress))
      (hrollback : ¬ (r.kind = .rollback ∧ r.outcome = .rolledBack))
  | admission (hkind : r.kind = .execution) (hnone : ∀ a ∈ receipts, isAdmission a action.idempotencyKey = false)
  | completion (a : AutomationActionReceipt) (ha : a ∈ receipts) (hadmission : isAdmission a action.idempotencyKey = true)
      (hkind : r.kind = .completion) (houtcome : r.outcome ≠ .refused) (hlink : r.linkedReceiptId = some a.receiptId)
      (hnone : completionFor receipts a.receiptId = none)
  | rollback (c : AutomationActionReceipt) (hc : c ∈ receipts) (hcompletion : c.kind = .completion)
      (hkind : r.kind = .rollback) (hlink : r.linkedReceiptId = some c.receiptId)
      (hnone : rollbackFor receipts c.receiptId = none)

theorem historyFull_append {now : ℤ} {kind : AutomationReceiptKind} {full : AutomationStepResult}
    (h : historyFull E action receipts now kind = some full) : full.append = false := by
  unfold historyFull at h
  split at h
  · cases h
  · obtain rfl := Option.some.inj h
    rfl

theorem execute_appends {input : AutomationExecutionInput}
    (h : (executeAutomationAction E action receipts input).append = true) :
    Appends action receipts (executeAutomationAction E action receipts input).receipt := by
  revert h
  simp only [executeAutomationAction]
  split
  · intro h
    cases h
  next hfind =>
    have hnone : ∀ a ∈ receipts, isAdmission a action.idempotencyKey = false := by
      simpa using List.find?_eq_none.mp hfind
    split
    next full hfull =>
      intro h
      rw [historyFull_append hfull] at h
      cases h
    next =>
      split
      · intro _
        exact .plain (by simp [makeAutomationReceipt]) (by simp [makeAutomationReceipt]) (by simp [makeAutomationReceipt])
      · split
        · intro _
          exact .plain (by simp [makeAutomationReceipt]) (by simp [makeAutomationReceipt]) (by simp [makeAutomationReceipt])
        · split
          · intro _
            exact .plain (by simp [makeAutomationReceipt]) (by simp [makeAutomationReceipt])
              (by simp [makeAutomationReceipt])
          · intro _
            exact .admission rfl hnone

theorem complete_appends {input : AutomationCompletionInput}
    (h : (completeAutomationAction E action receipts input).append = true) :
    Appends action receipts (completeAutomationAction E action receipts input).receipt := by
  revert h
  simp only [completeAutomationAction]
  split
  · intro h
    cases h
  next admission hfind =>
    have hmem := List.mem_of_find?_eq_some hfind
    have hpred := List.find?_some hfind
    rw [Bool.and_eq_true] at hpred
    split
    · intro h
      cases h
    next hnone =>
      split
      · intro h
        cases h
      · split
        next full hfull =>
          intro h
          rw [historyFull_append hfull] at h
          cases h
        next =>
          intro _
          refine .completion admission hmem hpred.2 rfl ?_ rfl hnone
          simp only [makeAutomationReceipt]
          split <;> simp

theorem rollback_appends {input : AutomationRollbackInput}
    (h : (rollbackAutomationAction E action receipts input).append = true) :
    Appends action receipts (rollbackAutomationAction E action receipts input).receipt := by
  revert h
  simp only [rollbackAutomationAction]
  split
  · intro h
    cases h
  next completion hfind =>
    have hmem : completion ∈ receipts := List.mem_reverse.mp (List.mem_of_find?_eq_some hfind)
    have hpred := List.find?_some hfind
    simp only [Bool.and_eq_true, decide_eq_true_eq] at hpred
    split
    · intro h
      cases h
    next hnone =>
      split
      next full hfull =>
        intro h
        rw [historyFull_append hfull] at h
        cases h
      next =>
        split
        · intro _
          exact .plain (by simp [makeAutomationReceipt]) (by simp [makeAutomationReceipt]) (by simp [makeAutomationReceipt])
        · intro _
          exact .rollback completion hmem hpred.1 rfl rfl hnone

theorem stepResult_appends {e : ActionEvent} (h : (stepResult E action receipts e).append = true) :
    Appends action receipts (stepResult E action receipts e).receipt := by
  cases e with
  | execute input => exact execute_appends h
  | complete input => exact complete_appends h
  | rollback input => exact rollback_appends h

end Appends

/-! ### One admission, one completion, one rollback -/

/-- Two members that meet a condition met at most once are equal. -/
theorem eq_of_countP_le_one {α : Type} {p : α → Bool} {l : List α} {a b : α} (h : l.countP p ≤ 1) (ha : a ∈ l) (hb : b ∈ l)
    (hpa : p a = true) (hpb : p b = true) : a = b := by
  induction l with
  | nil => cases ha
  | cons x l ih =>
      -- the head meets the condition, and then no other member does
      have hhead {y : α} (hpx : p x = true) (hy : y ∈ l) : p y = false := by
        rw [List.countP_cons_of_pos hpx] at h
        have hzero : l.countP p = 0 := by omega
        exact Bool.eq_false_iff.mpr (List.countP_eq_zero.mp hzero y hy)
      rcases List.mem_cons.mp ha with rfl | ha'
      · rcases List.mem_cons.mp hb with rfl | hb'
        · rfl
        · rw [hhead hpa hb'] at hpb
          cases hpb
      · rcases List.mem_cons.mp hb with rfl | hb'
        · rw [hhead hpb ha'] at hpa
          cases hpa
        · apply ih _ ha' hb'
          rw [List.countP_cons] at h
          omega

def isCompletion (receipt : AutomationActionReceipt) : Bool := receipt.kind = .completion

def isRolledBack (receipt : AutomationActionReceipt) : Bool := receipt.kind = .rollback && receipt.outcome = .rolledBack

section Runs

variable {E : Engine} {action : AutomationAction} {receipts receipts' : List AutomationActionReceipt}

/-- Every receipt that meets `p` names one that meets `q`. -/
def LinkedTo (p q : AutomationActionReceipt → Bool) (receipts : List AutomationActionReceipt) : Prop :=
  ∀ r ∈ receipts, p r = true → ∃ a ∈ receipts, q a = true ∧ r.linkedReceiptId = some a.receiptId

section LinkedTo

variable {p q : AutomationActionReceipt → Bool} {r a : AutomationActionReceipt}

theorem LinkedTo.append (h : LinkedTo p q receipts)
    (hr : p r = true → ∃ a ∈ receipts, q a = true ∧ r.linkedReceiptId = some a.receiptId) :
    LinkedTo p q (receipts ++ [r]) := by
  intro c hmem hc
  have hold : ∃ a ∈ receipts, q a = true ∧ c.linkedReceiptId = some a.receiptId := by
    rcases List.mem_append.mp hmem with hmem | hmem
    · exact h c hmem hc
    · obtain rfl := List.mem_singleton.mp hmem
      exact hr hc
  obtain ⟨a, ha, hqa, hlink⟩ := hold
  exact ⟨a, List.mem_append_left _ ha, hqa, hlink⟩

/-- Nothing names the only receipt there is to name. -/
theorem LinkedTo.countP_eq_zero (h : LinkedTo p q receipts) (hone : receipts.countP q ≤ 1) (ha : a ∈ receipts)
    (hqa : q a = true) (hnone : ∀ r ∈ receipts, p r = true → r.linkedReceiptId ≠ some a.receiptId) :
    receipts.countP p = 0 := by
  rw [List.countP_eq_zero]
  intro r hr hpr
  obtain ⟨a', ha', hqa', hlink⟩ := h r hr hpr
  obtain rfl := eq_of_countP_le_one hone ha ha' hqa hqa'
  exact hnone r hr hpr hlink

theorem countP_append_le_one (h : receipts.countP p ≤ 1) (hr : p r = true → receipts.countP p = 0) :
    (receipts ++ [r]).countP p ≤ 1 := by
  rw [List.countP_append, List.countP_singleton]
  split
  next hpr =>
    have hzero := hr hpr
    omega
  next => omega

end LinkedTo

/-- The receipts of an action: a completion is one of the admission, a rollback one of the completion. -/
structure Linked (action : AutomationAction) (receipts : List AutomationActionReceipt) : Prop where
  admissions : receipts.countP (isAdmission · action.idempotencyKey) ≤ 1
  completions : receipts.countP isCompletion ≤ 1
  completionOf : LinkedTo isCompletion (isAdmission · action.idempotencyKey) receipts
  rollbacks : receipts.countP isRolledBack ≤ 1
  rollbackOf : LinkedTo isRolledBack isCompletion receipts

theorem linked_nil : Linked action [] :=
  ⟨by simp, by simp, fun _ h => by simp at h, by simp, fun _ h => by simp at h⟩

theorem Linked.no_completion (h : Linked action receipts) {a : AutomationActionReceipt} (ha : a ∈ receipts)
    (hadmission : isAdmission a action.idempotencyKey = true) (hnone : completionFor receipts a.receiptId = none) :
    receipts.countP isCompletion = 0 := by
  apply h.completionOf.countP_eq_zero h.admissions ha hadmission
  intro c hc hcompletion hlink
  apply List.find?_eq_none.mp hnone c hc
  simpa [isCompletionOf, hlink, isCompletion] using hcompletion

theorem Linked.no_rollback (h : Linked action receipts) {c : AutomationActionReceipt} (hc : c ∈ receipts)
    (hcompletion : isCompletion c = true) (hnone : rollbackFor receipts c.receiptId = none) :
    receipts.countP isRolledBack = 0 := by
  apply h.rollbackOf.countP_eq_zero h.completions hc hcompletion
  intro b hb hrolled hlink
  apply List.find?_eq_none.mp hnone b hb
  simpa [isRollbackOf, hlink, isRolledBack] using hrolled

theorem linked_append {r : AutomationActionReceipt} (h : Linked action receipts) (happ : Appends action receipts r) :
    Linked action (receipts ++ [r]) := by
  -- what the receipt adds to each of the three kinds
  have hadded : (isAdmission r action.idempotencyKey = true → receipts.countP (isAdmission · action.idempotencyKey) = 0) ∧
      (isCompletion r = true → receipts.countP isCompletion = 0 ∧
        ∃ a ∈ receipts, isAdmission a action.idempotencyKey = true ∧ r.linkedReceiptId = some a.receiptId) ∧
      (isRolledBack r = true → receipts.countP isRolledBack = 0 ∧
        ∃ c ∈ receipts, isCompletion c = true ∧ r.linkedReceiptId = some c.receiptId) := by
    cases happ with
    | plain hkind hadmission hrollback =>
        refine ⟨fun hr => ?_, fun hr => ?_, fun hr => ?_⟩
        · simp only [isAdmission, Bool.and_eq_true, decide_eq_true_eq] at hr
          exact absurd hr.1 hadmission
        · simp [isCompletion, hkind] at hr
        · simp only [isRolledBack, Bool.and_eq_true, decide_eq_true_eq] at hr
          exact absurd hr hrollback
    | admission hkind hnone =>
        refine ⟨fun _ => ?_, fun hr => ?_, fun hr => ?_⟩
        · simpa [List.countP_eq_zero] using hnone
        · simp [isCompletion, hkind] at hr
        · simp [isRolledBack, hkind] at hr
    | completion a ha hadmission hkind houtcome hlink hnone =>
        refine ⟨fun hr => ?_, fun _ => ?_, fun hr => ?_⟩
        · simp [isAdmission, hkind] at hr
        · exact ⟨h.no_completion ha hadmission hnone, a, ha, hadmission, hlink⟩
        · simp [isRolledBack, hkind] at hr
    | rollback c hc hcompletion hkind hlink hnone =>
        have hisCompletion : isCompletion c = true := by simpa [isCompletion] using hcompletion
        refine ⟨fun hr => ?_, fun hr => ?_, fun _ => ?_⟩
        · simp [isAdmission, hkind] at hr
        · simp [isCompletion, hkind] at hr
        · exact ⟨h.no_rollback hc hisCompletion hnone, c, hc, hisCompletion, hlink⟩
  obtain ⟨hadmission, hcompletion, hrollback⟩ := hadded
  exact ⟨countP_append_le_one h.admissions hadmission, countP_append_le_one h.completions fun hr => (hcompletion hr).1,
    h.completionOf.append fun hr => (hcompletion hr).2, countP_append_le_one h.rollbacks fun hr => (hrollback hr).1,
    h.rollbackOf.append fun hr => (hrollback hr).2⟩

theorem actionStep_cases {e : ActionEvent} (h : ActionStep E action receipts e receipts') :
    receipts' = receipts ∨ ∃ r, receipts' = receipts ++ [r] ∧ Appends action receipts r := by
  simp only [ActionStep] at h
  split at h
  next happ => exact .inr ⟨_, h, stepResult_appends happ⟩
  next => exact .inl h

theorem actionStep_of_append {e : ActionEvent} (h : (stepResult E action receipts e).append = true) :
    ActionStep E action receipts e (receipts ++ [(stepResult E action receipts e).receipt]) := by
  simp [ActionStep, h]

theorem linked_step {e : ActionEvent} (hl : Linked action receipts) (h : ActionStep E action receipts e receipts') :
    Linked action receipts' := by
  obtain rfl | ⟨r, rfl, happ⟩ := actionStep_cases h
  · exact hl
  · exact linked_append hl happ

theorem linked_run {es : List ActionEvent} (hr : Run (ActionStep E action) [] es receipts) : Linked action receipts :=
  hr.invariant (fun _ _ _ hl hs => linked_step hl hs) linked_nil

/-- The receipts of a run start with the receipts before it. -/
theorem run_append {es : List ActionEvent} (hr : Run (ActionStep E action) receipts es receipts') :
    ∃ added, receipts' = receipts ++ added := by
  refine hr.invariant (I := fun l => ∃ added, l = receipts ++ added) ?_ ⟨[], by simp⟩
  intro s e t hs hstep
  obtain ⟨added, rfl⟩ := hs
  obtain rfl | ⟨r, rfl, -⟩ := actionStep_cases hstep
  · exact ⟨added, rfl⟩
  · exact ⟨added ++ [r], by simp⟩

/-! ### The state never goes back -/

/-- How far an action has come. -/
def AutomationActionState.phase : AutomationActionState → ℕ
  | .inProgress => 1
  | .succeeded => 2
  | .failed => 2
  | .rolledBack => 3
  | _ => 0

/-- From one state to the same or a later one; the states before an admission may change among themselves. -/
def AutomationActionState.Forward (state later : AutomationActionState) : Prop :=
  later = state ∨ state.phase < later.phase ∨ state.phase = 0

/-- What a scan found it finds again. -/
theorem find?_append_of_some {p : AutomationActionReceipt → Bool} {a : AutomationActionReceipt}
    (added : List AutomationActionReceipt) (h : receipts.find? p = some a) : (receipts ++ added).find? p = some a := by
  rw [List.find?_append, h, Option.some_or]

theorem forward_append (D : Dates) (approval approval' : Option AutomationApprovalDecision) (now now' : ℤ)
    (added : List AutomationActionReceipt) :
    (automationActionState action receipts D approval now).Forward
      (automationActionState action (receipts ++ added) D approval' now') := by
  unfold AutomationActionState.Forward
  cases hadmission : receipts.find? (isAdmission · action.idempotencyKey) with
  | none =>
      right; right
      simp only [automationActionState, hadmission]
      split
      · rfl
      · split <;> rfl
  | some admission =>
      have hadmission' := find?_append_of_some added hadmission
      cases hcompletion : completionFor receipts admission.receiptId with
      | none =>
          simp only [automationActionState, hadmission, hcompletion, hadmission']
          split
          · right; left
            split
            · decide
            · split <;> decide
          · left
            rfl
      | some completion =>
          have hcompletion' : completionFor (receipts ++ added) admission.receiptId = some completion :=
            find?_append_of_some added hcompletion
          simp only [automationActionState, hadmission, hcompletion, hadmission', hcompletion']
          cases hrollback : rollbackFor receipts completion.receiptId with
          | none =>
              simp only [Option.isSome_none, Bool.false_eq_true, if_false]
              split
              · right; left
                split <;> decide
              · left
                rfl
          | some rollback =>
              have hrollback' : rollbackFor (receipts ++ added) completion.receiptId = some rollback :=
                find?_append_of_some added hrollback
              left
              simp [hrollback']

/-! ### Closing an admitted execution -/

/-- The admission that a completion names has the id of the one that is there. -/
theorem find_admission {a : AutomationActionReceipt} {id : Text} (ha : a ∈ receipts)
    (hadmission : isAdmission a action.idempotencyKey = true) (hid : id = a.receiptId) :
    ∃ found, receipts.find? (fun receipt => receipt.receiptId = id && isAdmission receipt action.idempotencyKey) =
      some found ∧ found.receiptId = a.receiptId := by
  obtain ⟨found, hfound⟩ : ∃ found, receipts.find? (fun receipt =>
      receipt.receiptId = id && isAdmission receipt action.idempotencyKey) = some found := by
    rw [← Option.isSome_iff_exists, List.find?_isSome]
    exact ⟨a, ha, by simp [hid, hadmission]⟩
  have hpred := List.find?_some hfound
  simp only [Bool.and_eq_true, decide_eq_true_eq] at hpred
  exact ⟨found, hfound, by rw [hpred.1, hid]⟩

section Closing

variable {a : AutomationActionReceipt} {input : AutomationCompletionInput}

/-- A failed completion finds the history full. -/
theorem complete_failed_full (ha : a ∈ receipts) (hadmission : isAdmission a action.idempotencyKey = true)
    (hnone : completionFor receipts a.receiptId = none) (hid : input.admissionReceiptId = a.receiptId)
    (hfailed : input.succeeded = false) (hfull : AUTOMATION_ACTION_MAX_RECEIPTS ≤ receipts.length) :
    (completeAutomationAction E action receipts input).disposition = .refused ∧
    (completeAutomationAction E action receipts input).append = false := by
  obtain ⟨found, hfound, hfoundId⟩ := find_admission ha hadmission hid
  simp [completeAutomationAction, hfound, hnone, hfailed, historyFull, hfull.not_gt, hfoundId]

/-- A completion with outcome failed is recorded exactly while the history is not full. -/
theorem complete_failed_iff (ha : a ∈ receipts) (hadmission : isAdmission a action.idempotencyKey = true)
    (hnone : completionFor receipts a.receiptId = none) (hid : input.admissionReceiptId = a.receiptId)
    (hfailed : input.succeeded = false) :
    ((completeAutomationAction E action receipts input).disposition = .completed ∧
      (completeAutomationAction E action receipts input).append = true ∧
      (completeAutomationAction E action receipts input).receipt.outcome = .failed ∧
      (completeAutomationAction E action receipts input).receipt.linkedReceiptId = some a.receiptId) ↔
    receipts.length < AUTOMATION_ACTION_MAX_RECEIPTS := by
  by_cases hroom : receipts.length < AUTOMATION_ACTION_MAX_RECEIPTS
  · obtain ⟨found, hfound, hfoundId⟩ := find_admission ha hadmission hid
    simp [completeAutomationAction, hfound, hnone, hfailed, historyFull, hroom, makeAutomationReceipt, hfoundId]
  · have hfull := complete_failed_full (E := E) ha hadmission hnone hid hfailed (not_lt.mp hroom)
    simp [hroom, hfull.1]

end Closing

/-- An action is admitted once, completed once and rolled back once at most, its state never goes back, and an
admitted execution is closed by a failed completion as long as the history is not full. -/
theorem action_executes_at_most_once (E : Engine) (action : AutomationAction) (es : List ActionEvent)
    (receipts : List AutomationActionReceipt) (hr : Run (ActionStep E action) [] es receipts) :
    receipts.countP (isAdmission · action.idempotencyKey) ≤ 1 ∧
    receipts.countP isCompletion ≤ 1 ∧
    receipts.countP isRolledBack ≤ 1 ∧
    (∀ es' receipts', Run (ActionStep E action) receipts es' receipts' → ∀ approval approval' now now',
      (automationActionState action receipts E.dates approval now).Forward
        (automationActionState action receipts' E.dates approval' now')) ∧
    ∀ a ∈ receipts, isAdmission a action.idempotencyKey = true → completionFor receipts a.receiptId = none →
      ∀ input : AutomationCompletionInput, input.admissionReceiptId = a.receiptId → input.succeeded = false →
        (((completeAutomationAction E action receipts input).disposition = .completed ∧
          (completeAutomationAction E action receipts input).append = true ∧
          (completeAutomationAction E action receipts input).receipt.outcome = .failed ∧
          (completeAutomationAction E action receipts input).receipt.linkedReceiptId = some a.receiptId) ↔
        receipts.length < AUTOMATION_ACTION_MAX_RECEIPTS) := by
  have hlinked := linked_run hr
  refine ⟨hlinked.admissions, hlinked.completions, hlinked.rollbacks, ?_, ?_⟩
  · intro es' receipts' hr' approval approval' now now'
    obtain ⟨added, rfl⟩ := run_append hr'
    exact forward_append E.dates approval approval' now now' added
  · intro a ha hadmission hnone input hid hfailed
    exact complete_failed_iff ha hadmission hnone hid hfailed

end Runs

/-! ### A history that is full -/

/-- Dates of the first minute of the epoch. -/
def epochDates : Dates where
  parse t :=
    if t = "1970-01-01T00:00:00.000Z".toList then some 0
    else if t = "1970-01-01T00:01:00.000Z".toList then some 60000 else none
  iso ms := if ms = 0 then "1970-01-01T00:00:00.000Z".toList else "1970-01-01T00:01:00.000Z".toList

def epochEngine : Engine := ⟨epochDates, fun t => t⟩

/-- An action that cannot be run dry, with one precondition. -/
def restartAction : AutomationAction where
  actionId := "restart".toList
  capability := "restart".toList
  summary := "restart the drain".toList
  scope := ⟨some "flow".toList, none, some "repo".toList, none⟩
  risk := .low
  preconditions := [⟨"idle".toList, "ledger".toList, "no run is open".toList⟩]
  maxAgeSeconds := 60
  idempotencyKey := "restart-1".toList
  createdAt := "1970-01-01T00:00:00.000Z".toList
  expiresAt := "1970-01-01T00:01:00.000Z".toList
  dryRun := false
  approvalPolicy := .none
  rollback := .reversible "start it again".toList
  receiptRef := "ledger".toList

def restartInput (dryRun : Bool) : AutomationExecutionInput where
  observations := [⟨"idle".toList, .satisfied, "ledger".toList, "1970-01-01T00:00:00.000Z".toList, none⟩]
  approval := none
  eligibility := []
  dryRun := dryRun
  now := 0

def restartFailed (admissionReceiptId : Text) : AutomationCompletionInput where
  admissionReceiptId := admissionReceiptId
  succeeded := false
  evidenceRef := none
  reason := none
  now := 0

/-- The preflight reads the receipts for an admission only. -/
theorem preflight_of_no_admission {D : Dates} {action : AutomationAction} {receipts : List AutomationActionReceipt}
    {input : AutomationExecutionInput} (h : receipts.find? (isAdmission · action.idempotencyKey) = none) :
    preflightAutomationAction D action receipts input = preflightAutomationAction D action [] input := by
  simp only [preflightAutomationAction, h, List.find?_nil]

theorem restart_ready : (preflightAutomationAction epochDates restartAction [] (restartInput false)).outcome = .ready := by
  decide +kernel

/-- A dry run of the action is refused, and the refusal appended. -/
theorem restart_dry_run {receipts : List AutomationActionReceipt}
    (hnone : receipts.find? (isAdmission · restartAction.idempotencyKey) = none)
    (hroom : receipts.length < AUTOMATION_ACTION_MAX_RECEIPTS) :
    ∃ r, ActionStep epochEngine restartAction receipts (.execute (restartInput true)) (receipts ++ [r]) ∧
      r.kind = .execution ∧ isAdmission r restartAction.idempotencyKey = false := by
  refine ⟨_, actionStep_of_append ?_, ?_⟩
  · simp only [stepResult, executeAutomationAction, hnone, historyFull, hroom, if_true]
    rfl
  · simp only [stepResult, executeAutomationAction, hnone, historyFull, hroom, if_true]
    exact ⟨rfl, rfl⟩

theorem restart_dry_runs (n : ℕ) (hn : n < AUTOMATION_ACTION_MAX_RECEIPTS) :
    ∃ receipts, Run (ActionStep epochEngine restartAction) [] (List.replicate n (.execute (restartInput true))) receipts ∧
      receipts.length = n ∧ (∀ r ∈ receipts, r.kind = .execution) ∧
      receipts.find? (isAdmission · restartAction.idempotencyKey) = none := by
  induction n with
  | zero => exact ⟨[], .nil, rfl, by simp, rfl⟩
  | succ n ih =>
      obtain ⟨receipts, hrun, hlength, hkind, hnone⟩ := ih (by omega)
      obtain ⟨r, hstep, hr, hnot⟩ := restart_dry_run hnone (by omega)
      refine ⟨receipts ++ [r], ?_, by simp [hlength], ?_, ?_⟩
      · rw [List.replicate_succ']
        exact hrun.snoc hstep
      · simpa [or_imp, forall_and, hr] using hkind
      · simp [List.find?_append, hnone, hnot]

/-- The admission of the action. -/
theorem restart_admitted {receipts : List AutomationActionReceipt}
    (hnone : receipts.find? (isAdmission · restartAction.idempotencyKey) = none)
    (hroom : receipts.length < AUTOMATION_ACTION_MAX_RECEIPTS) :
    ∃ a, ActionStep epochEngine restartAction receipts (.execute (restartInput false)) (receipts ++ [a]) ∧
      a.kind = .execution ∧ isAdmission a restartAction.idempotencyKey = true := by
  have hready : (preflightAutomationAction epochEngine.dates restartAction receipts (restartInput false)).outcome = .ready := by
    rw [preflight_of_no_admission hnone]
    exact restart_ready
  refine ⟨_, actionStep_of_append ?_, ?_⟩
  · simp only [stepResult, executeAutomationAction, hnone, historyFull, hroom, if_true, hready]
    rfl
  · simp only [stepResult, executeAutomationAction, hnone, historyFull, hroom, if_true, hready]
    exact ⟨rfl, rfl⟩

/-- Executions complete nothing. -/
theorem completionFor_of_executions {receipts : List AutomationActionReceipt} (h : ∀ r ∈ receipts, r.kind = .execution)
    (id : Text) : completionFor receipts id = none := by
  apply List.find?_eq_none.mpr
  intro r hr
  simp [isCompletionOf, h r hr]

def ActionEvent.now : ActionEvent → ℤ
  | .execute input => input.now
  | .complete input => input.now
  | .rollback input => input.now

/-- After 99 refused dry runs the admission takes the last place, and the failed completion is refused. -/
theorem admission_fills_history :
    ∃ es receipts a, Run (ActionStep epochEngine restartAction) [] es receipts ∧ (∀ e ∈ es, e.now = 0) ∧ a ∈ receipts ∧
      isAdmission a restartAction.idempotencyKey = true ∧ completionFor receipts a.receiptId = none ∧
      (completeAutomationAction epochEngine restartAction receipts (restartFailed a.receiptId)).disposition = .refused ∧
      (completeAutomationAction epochEngine restartAction receipts (restartFailed a.receiptId)).append = false := by
  obtain ⟨receipts, hrun, hlength, hkind, hnone⟩ := restart_dry_runs 99 (by decide)
  obtain ⟨a, hstep, ha, hadmission⟩ := restart_admitted hnone (by rw [hlength]; decide)
  have hmem : a ∈ receipts ++ [a] := by simp
  have hexecutions : ∀ r ∈ receipts ++ [a], r.kind = .execution := by simpa [or_imp, forall_and, ha] using hkind
  have hopen := completionFor_of_executions hexecutions a.receiptId
  have hfull : AUTOMATION_ACTION_MAX_RECEIPTS ≤ (receipts ++ [a]).length := by
    simp [hlength, AUTOMATION_ACTION_MAX_RECEIPTS]
  refine ⟨_, _, a, hrun.snoc hstep, ?_, hmem, hadmission, hopen, complete_failed_full hmem hadmission hopen rfl rfl hfull⟩
  intro e he
  rcases List.mem_append.mp he with he | he
  · rw [(List.mem_replicate.mp he).2]
    rfl
  · rw [List.mem_singleton.mp he]
    rfl

/-- The receipts after a step. -/
def receiptsAfter (receipts : List AutomationActionReceipt) (e : ActionEvent) : List AutomationActionReceipt :=
  let result := stepResult epochEngine restartAction receipts e
  if result.append then receipts ++ [result.receipt] else receipts

theorem run_receiptsAfter (es : List ActionEvent) (receipts : List AutomationActionReceipt) :
    Run (ActionStep epochEngine restartAction) receipts es (es.foldl receiptsAfter receipts) := by
  induction es generalizing receipts with
  | nil => exact Run.nil
  | cons e es ih => exact Run.cons rfl (ih (receiptsAfter receipts e))

/-- The id of the receipt after the refused dry run. -/
def restartAdmissionId : Text :=
  automationReceiptId epochEngine restartAction.actionId .execution 1 (epochDates.iso 0)

def restartRollback : AutomationRollbackInput := ⟨"back".toList, "log".toList, 0⟩

/-- A dry run that is refused, the admission, and an execution that is reused. -/
def restartOpened : List AutomationActionReceipt :=
  [.execute (restartInput true), .execute (restartInput false), .execute (restartInput false)].foldl receiptsAfter []

/-- The failed completion and the rollback, each of them twice. -/
def restartClosed : List AutomationActionReceipt :=
  [.complete (restartFailed restartAdmissionId), .complete (restartFailed restartAdmissionId),
    .rollback restartRollback, .rollback restartRollback].foldl receiptsAfter restartOpened

theorem kinds_restartClosed :
    (restartClosed.map fun r => (r.kind, r.outcome)) =
      [(.execution, .refused), (.execution, .inProgress), (.completion, .failed), (.rollback, .rolledBack)] := by
  decide +kernel

/-- The admission of the restart is open after the first three steps. -/
theorem open_restartOpened : ∃ a ∈ restartOpened, isAdmission a restartAction.idempotencyKey = true ∧
    a.receiptId = restartAdmissionId ∧ completionFor restartOpened a.receiptId = none := by
  refine ⟨restartOpened.getLast (by decide +kernel), List.getLast_mem _, ?_, ?_, ?_⟩
  · decide +kernel
  · decide +kernel
  · decide +kernel

/-- One admission, closed by its failed completion and rolled back once. -/
theorem restart_rolled_back :
    (restartClosed.map fun r => (r.kind, r.outcome)) =
        [(.execution, .refused), (.execution, .inProgress), (.completion, .failed), (.rollback, .rolledBack)] ∧
      restartClosed.countP (isAdmission · restartAction.idempotencyKey) ≤ 1 ∧
      restartClosed.countP isCompletion ≤ 1 ∧ restartClosed.countP isRolledBack ≤ 1 ∧
      (automationActionState restartAction restartOpened epochDates none 0).Forward
        (automationActionState restartAction restartClosed epochDates none 0) ∧
      (completeAutomationAction epochEngine restartAction restartOpened (restartFailed restartAdmissionId)).append = true := by
  have hopened : Run (ActionStep epochEngine restartAction) [] _ restartOpened := run_receiptsAfter _ []
  have hrest : Run (ActionStep epochEngine restartAction) restartOpened _ restartClosed :=
    run_receiptsAfter _ restartOpened
  obtain ⟨-, -, -, hforward, hclosed⟩ := action_executes_at_most_once epochEngine restartAction _ restartOpened hopened
  obtain ⟨hadmissions, hcompletions, hrollbacks, -, -⟩ :=
    action_executes_at_most_once epochEngine restartAction _ restartClosed (hopened.append hrest)
  obtain ⟨a, ha, hadmission, hid, hnone⟩ := open_restartOpened
  have hroom : restartOpened.length < AUTOMATION_ACTION_MAX_RECEIPTS := by decide +kernel
  have hcompleted := (hclosed a ha hadmission hnone (restartFailed restartAdmissionId) hid.symm rfl).mpr hroom
  exact ⟨kinds_restartClosed, hadmissions, hcompletions, hrollbacks, hforward _ _ hrest none none 0 0, hcompleted.2.1⟩

end Remudero.Automation
