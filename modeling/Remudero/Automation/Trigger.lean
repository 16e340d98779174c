import Remudero.Automation.Action

/-! # Automation triggers

The registry of `automation-trigger-v1` (`lib/automation-trigger.ts`): registered flows, the triggers
that may start them, and the runs of each trigger.  A run is an immutable header with a list of events
that only grows, and its state is what the events imply (`storedState`).  Every write goes to the
journal first, and a journal that throws refuses the operation.

An operation is called with a reading of the clock and with what the journal does at the call
(`Call`).  The answers hold the run itself, from which the program makes a view for its reader. -/

namespace Remudero.Automation

open Remudero.Lib

/-! ### Records -/

def AUTOMATION_TRIGGER_VERSION : Text := "automation-trigger-v1".toList

inductive AutomationTriggerSource
  | schedule
  | webhook
  | manual
deriving DecidableEq

def AutomationTriggerSource.text : AutomationTriggerSource → Text
  | schedule => "schedule".toList
  | webhook => "webhook".toList
  | manual => "manual".toList

inductive AutomationTriggerActivationState
  | active
  | paused
deriving DecidableEq

def AutomationTriggerActivationState.text : AutomationTriggerActivationState → Text
  | active => "active".toList
  | paused => "paused".toList

inductive AutomationTriggerRunState
  | refused
  | queued
  | inProgress
  | success
  | failed
  | expired
  | cancelled
  | stale
  | unknown
deriving DecidableEq

namespace AutomationTriggerRunState

def text : AutomationTriggerRunState → Text
  | refused => "refused".toList
  | queued => "queued".toList
  | inProgress => "in-progress".toList
  | success => "success".toList
  | failed => "failed".toList
  | expired => "expired".toList
  | cancelled => "cancelled".toList
  | stale => "stale".toList
  | unknown => "unknown".toList

/-- `TERMINAL_STATES` -/
def terminal : AutomationTriggerRunState → Bool
  | refused | success | failed | expired | cancelled => true
  | queued | inProgress | stale | unknown => false

end AutomationTriggerRunState

def AUTOMATION_TRIGGER_MAX_ID_CHARS : ℕ := 160

def AUTOMATION_TRIGGER_MAX_TEXT_CHARS : ℕ := 320

def AUTOMATION_TRIGGER_MAX_QUEUE : ℕ := 100

def AUTOMATION_TRIGGER_MAX_IN_FLIGHT : ℕ := 20

def AUTOMATION_TRIGGER_MAX_EXPIRY_SECONDS : ℕ := 7 * 24 * 60 * 60

def AUTOMATION_TRIGGER_MAX_RUNS_PER_TRIGGER : ℕ := 500

inductive AutomationTriggerDstPolicy
  | skipGap
  | shiftGap
deriving DecidableEq

inductive AutomationTriggerActivation
  | schedule (scheduleId timezone : Text) (dst : AutomationTriggerDstPolicy)
  | webhook (event : Text)
  | manual
deriving DecidableEq

def AutomationTriggerActivation.mode : AutomationTriggerActivation → AutomationTriggerSource
  | schedule _ _ _ => .schedule
  | webhook _ => .webhook
  | manual => .manual

def AutomationTriggerActivation.timezonePolicy :
    AutomationTriggerActivation → Option (Text × AutomationTriggerDstPolicy)
  | schedule _ timezone dst => some (timezone, dst)
  | _ => none

structure AutomationTriggerScope where
  repo : Option Text
  inst : Option Text
deriving DecidableEq

structure AutomationTriggerDefinition where
  triggerId : Text
  flowId : Text
  activation : AutomationTriggerActivation
  scope : AutomationTriggerScope
  profileId : Text
  maxQueued : ℕ
  maxInFlight : ℕ
  expirySeconds : ℕ
  staleAfterSeconds : ℕ
  concurrencyKey : Text
deriving DecidableEq

structure AutomationFlow where
  flowId : Text
  action : AutomationAction
  capabilityGrants : List Text

structure AutomationTriggerRequest where
  triggerId : Text
  source : AutomationTriggerSource
  idempotencyKey : Text
  deliveryId : Option Text
  verified : Option Bool
  scheduledFor : Option Text
  requestedBy : Option Text
  requestedAt : Text
  expiresAt : Option Text

inductive AutomationTriggerRunEventKind
  | queued
  | refused
  | startRefused
  | started
  | heartbeat
  | success
  | failed
  | expired
  | cancelled
deriving DecidableEq

structure AutomationTriggerRunEvent where
  kind : AutomationTriggerRunEventKind
  at_ : Text
  code : Option Text := none
  reason : Text
  receiptId : Option Text := none
  profile : Option (Text × Text) := none

structure AutomationTriggerRunRecord where
  runId : Text
  triggerId : Text
  flowId : Text
  actionId : Text
  approvalPolicy : AutomationApprovalPolicy
  activationMode : AutomationTriggerSource
  source : AutomationTriggerSource
  scope : AutomationTriggerScope
  timezonePolicy : Option (Text × AutomationTriggerDstPolicy)
  profileId : Text
  idempotencyKey : Text
  deliveryId : Option Text
  scheduledFor : Option Text
  requestedBy : Option Text
  requestedAt : Text
  expiresAt : Text
  concurrencyKey : Text
  replayOf : Option Text

/-- What a profile resolver answers. -/
inductive AutomationTriggerProfileResolution
  | resolved (profileId revision : Text)
  | unavailable (reason : Text)
  | unknown (reason : Text)

inductive AutomationTriggerJournalEntry
  | flowRegistered (at_ : Text) (flow : AutomationFlow)
  | triggerRegistered (triggerId at_ : Text) (trigger : AutomationTriggerDefinition)
  | activation (triggerId at_ : Text) (state : AutomationTriggerActivationState) (reason : Text)
  | runEvent (triggerId runId at_ : Text) (header : AutomationTriggerRunRecord) (event : AutomationTriggerRunEvent)

structure TriggerSlot where
  definition : AutomationTriggerDefinition
  activation : AutomationTriggerActivationState
  activationReason : Text
  activationAt : Text

structure RunSlot where
  record : AutomationTriggerRunRecord
  events : List AutomationTriggerRunEvent

/-- `AutomationTriggerRegistry`. -/
structure AutomationTriggerRegistry where
  flows : Record Text AutomationFlow
  triggers : Record Text TriggerSlot
  runs : Record Text RunSlot
  sequence : ℕ

/-! ### Validation -/

structure AutomationTriggerRefusal where
  code : Text
  reason : Text
  field : Option Text

def refusal (code reason : Text) (field : Option Text) : AutomationTriggerRefusal :=
  ⟨code, Text.takeUnits AUTOMATION_TRIGGER_MAX_TEXT_CHARS reason, field⟩

/-- A refusal with fixed texts. -/
def refusalText (code reason field : String) : AutomationTriggerRefusal :=
  refusal code.toList reason.toList (some field.toList)

def boundedId (value : Option Json) : Option Text := boundedField value AUTOMATION_TRIGGER_MAX_ID_CHARS

/-- `AUTOMATION_TRIGGER_FORBIDDEN_FIELD_RE` -/
def automationTriggerForbiddenFieldRe : Re :=
  .seqs [.start,
    alts [plural "command", plural "cmd", .textCI "script", .textCI "shell", .textCI "exec", .textCI "args",
      .textCI "argv", .textCI "env", plural "instruction", underscored "system" "prompt",
      .seq (underscored "model" "instruction") (.opt (.textCI "s"))],
    .stop]

def findTriggerForbiddenField : ℕ → Text → Json → Option Text
  | levels + 1, path, .obj fields =>
      fields.findSome? fun (key, child) =>
        if automationTriggerForbiddenFieldRe.test key then some (childPath path key)
        else findTriggerForbiddenField levels (childPath path key) child
  | _, _, _ => none

def authorityViolation (value : Row) (allowed : List String) : Option AutomationTriggerRefusal :=
  match automationRedactionViolation (.obj value) with
  | some (code, field) =>
      some (refusal code.text
        ("field ".toList ++ field ++ " may not enter the automation-trigger contract".toList) (some field))
  | none =>
      match findTriggerForbiddenField scanLevels [] (.obj value) with
      | some field =>
          some (refusal "forbidden-field".toList
            ("field ".toList ++ field ++
              " would carry authority; a trigger may only name a registered flow".toList) (some field))
      | none =>
          (value.find? fun e => e.1 ∉ allowed.map String.toList).map fun e =>
            refusal "unknown-field".toList
              ("field ".toList ++ e.1 ++ " is not part of the automation-trigger contract".toList) (some e.1)

/-- What the runtime answers: dates, and why a text is not a time zone. -/
structure Runtime extends Dates where
  timezoneProblem : Text → Option Text

variable (R : Runtime)

def dstOf (value : Row) : Option AutomationTriggerDstPolicy :=
  if value.str "dst" = some "skip-gap".toList then some .skipGap
  else if value.str "dst" = some "shift-gap".toList then some .shiftGap
  else none

def validateActivation (value : Option Json) : Except AutomationTriggerRefusal AutomationTriggerActivation := do
  let value ← require (asRow value)
    (refusalText "invalid-activation" "activation must be an object naming a mode" "activation")
  if value.str "mode" = some "schedule".toList then
    let scheduleId ← require (boundedId (value.field "scheduleId"))
      (refusalText "invalid-activation" "a schedule activation names the cadence entry it runs on (scheduleId)"
        "activation.scheduleId")
    let zone (problem : Text) := refusal "invalid-timezone".toList
      ("a schedule activation needs an IANA timezone: ".toList ++ problem) (some "activation.timezone".toList)
    let timezone ← require (value.str "timezone") (zone "timezone is not a string".toList)
    refuseSome (R.timezoneProblem timezone) zone
    let dst ← require (dstOf value)
      (refusalText "invalid-timezone" "a schedule activation needs a dst policy: skip-gap or shift-gap"
        "activation.dst")
    return .schedule (Text.trim scheduleId) timezone dst
  else if value.str "mode" = some "webhook".toList then
    let event ← require (boundedId (value.field "event"))
      (refusalText "invalid-activation" "a webhook activation names the event it accepts" "activation.event")
    return .webhook (Text.trim event)
  else if value.str "mode" = some "manual".toList then return .manual
  else .error (refusalText "invalid-activation" "activation.mode must be schedule, webhook, or manual"
    "activation.mode")

def definitionFields : List String :=
  ["version", "triggerId", "flowId", "activation", "scope", "profileId", "limits", "expirySeconds",
    "staleAfterSeconds", "concurrencyKey"]

def validateAutomationTriggerDefinition (value : Json) :
    Except AutomationTriggerRefusal AutomationTriggerDefinition := do
  let row ← require (asRow (some value))
    (refusal "not-an-object".toList "a trigger definition must be a JSON object".toList none)
  refuseSome (authorityViolation row definitionFields) fun violation => violation
  refuseIf (row.str "version" ≠ some AUTOMATION_TRIGGER_VERSION)
    (refusalText "invalid-version" "version must be automation-trigger-v1" "version")
  let identity := refusalText "missing-identity" "triggerId and flowId are required" "triggerId"
  let triggerId ← require (boundedId (row.field "triggerId")) identity
  let flowId ← require (boundedId (row.field "flowId")) identity
  let activation ← validateActivation R (row.field "activation")
  let scopeOf (name : String) :=
    ((asRow (row.field "scope")).bind fun scope => boundedId (scope.field name)).map Text.trim
  let scope : AutomationTriggerScope := ⟨scopeOf "repo", scopeOf "instance"⟩
  refuseIf (scope.repo.isNone && scope.inst.isNone)
    (refusalText "missing-scope" "scope must name a repo or an instance" "scope")
  let profileId ← require (boundedId (row.field "profileId"))
    (refusalText "missing-profile" "a policy/environment profileId is required" "profileId")
  let limits := (asRow (row.field "limits")).getD []
  let invalidLimits :=
    refusalText "invalid-limits" "limits.maxQueued 1..100 and limits.maxInFlight 1..20 are required" "limits"
  let maxQueued ← require (boundedInt (Row.field limits "maxQueued") AUTOMATION_TRIGGER_MAX_QUEUE) invalidLimits
  let maxInFlight ← require (boundedInt (Row.field limits "maxInFlight") AUTOMATION_TRIGGER_MAX_IN_FLIGHT)
    invalidLimits
  let expirySeconds ← require (boundedInt (row.field "expirySeconds") AUTOMATION_TRIGGER_MAX_EXPIRY_SECONDS)
    (refusalText "invalid-expiry" "expirySeconds must be an integer in 1..604800" "expirySeconds")
  let staleAfterSeconds ← require
    (boundedInt (row.field "staleAfterSeconds") AUTOMATION_TRIGGER_MAX_EXPIRY_SECONDS)
    (refusalText "invalid-staleness" "staleAfterSeconds must be an integer in 1..604800" "staleAfterSeconds")
  let concurrencyKey ← require (optionally (fun v => boundedId (some v)) (row.field "concurrencyKey"))
    (refusalText "invalid-limits" "concurrencyKey must be a bounded id" "concurrencyKey")
  return { triggerId := Text.trim triggerId, flowId := Text.trim flowId, activation, scope
           profileId := Text.trim profileId, maxQueued, maxInFlight, expirySeconds, staleAfterSeconds
           concurrencyKey := (concurrencyKey.map Text.trim).getD (Text.trim triggerId) }

def requestFields : List String :=
  ["version", "triggerId", "source", "idempotencyKey", "deliveryId", "verified", "scheduledFor", "requestedBy",
    "requestedAt", "expiresAt"]

def sourceOf : Text → Option AutomationTriggerSource :=
  named [("schedule", .schedule), ("webhook", .webhook), ("manual", .manual)]

def validateAutomationTriggerRequest (value : Json) :
    Except AutomationTriggerRefusal AutomationTriggerRequest := do
  let row ← require (asRow (some value))
    (refusal "not-an-object".toList "a trigger request must be a JSON object".toList none)
  refuseSome (authorityViolation row requestFields) fun violation => violation
  refuseIf (row.str "version" ≠ some AUTOMATION_TRIGGER_VERSION)
    (refusalText "invalid-version" "version must be automation-trigger-v1" "version")
  let triggerId ← require (boundedId (row.field "triggerId"))
    (refusalText "missing-identity" "triggerId is required" "triggerId")
  let source ← require ((row.str "source").bind sourceOf)
    (refusalText "invalid-source" "source must be schedule, webhook, or manual" "source")
  let idempotencyKey ← require (boundedId (row.field "idempotencyKey"))
    (refusalText "missing-idempotency-key" "a bounded idempotencyKey is required" "idempotencyKey")
  let requestedAt ← require (validInstant R.toDates (row.field "requestedAt"))
    (refusalText "invalid-request-time" "requestedAt must be an ISO-8601 instant" "requestedAt")
  let optionalId (name reason : String) :=
    require (optionally (fun v => boundedId (some v)) (row.field name)) (refusalText "invalid-field" reason name)
  let optionalInstant (name reason : String) :=
    require (optionally (fun v => validInstant R.toDates (some v)) (row.field name))
      (refusalText "invalid-field" reason name)
  let deliveryId ← optionalId "deliveryId" "deliveryId must be a bounded id"
  let requestedBy ← optionalId "requestedBy" "requestedBy must be a bounded id"
  let scheduledFor ← optionalInstant "scheduledFor" "scheduledFor must be an ISO-8601 instant"
  let expiresAt ← optionalInstant "expiresAt" "expiresAt must be an ISO-8601 instant"
  refuseIf ((row.field "verified").isSome && (row.bool "verified").isNone)
    (refusalText "invalid-field" "verified must be a boolean" "verified")
  let verified := row.bool "verified"
  refuseIf (source = .webhook && (verified ≠ some true || deliveryId.isNone))
    (refusalText "unauthenticated-webhook"
      "a webhook start must carry its delivery id and arrive verified by its adapter" "verified")
  refuseIf (source = .schedule && scheduledFor.isNone)
    (refusalText "missing-schedule-slot" "a schedule start names the slot it is for" "scheduledFor")
  refuseIf (source = .manual && requestedBy.isNone)
    (refusalText "missing-requester" "a manual start names its verified requester" "requestedBy")
  return { triggerId := Text.trim triggerId, source, idempotencyKey := Text.trim idempotencyKey
           deliveryId := deliveryId.map Text.trim, verified, scheduledFor := scheduledFor.map R.iso
           requestedBy := requestedBy.map Text.trim, requestedAt := R.iso requestedAt
           expiresAt := expiresAt.map R.iso }

/-! ### Registry writes -/

/-- One call: the clock's readings and the message of a journal that throws. -/
structure Call where
  now : ℤ
  iso : Text
  journalError : Option Text

/-- The registry with the entries its journal has, and the time of the last call. -/
structure TriggerSystem where
  registry : AutomationTriggerRegistry
  journal : List AutomationTriggerJournalEntry
  clock : ℤ

variable (s : TriggerSystem) (call : Call)

/-- Writes the journal entry first; a throw refuses the whole operation. -/
def journalFirst (entry : AutomationTriggerJournalEntry) : Except AutomationTriggerRefusal TriggerSystem :=
  match call.journalError with
  | none => .ok { s with journal := s.journal ++ [entry] }
  | some message =>
      .error (refusal "journal-unavailable".toList
        ("the trigger journal could not be written: ".toList ++ message) none)

namespace TriggerSystem

def setFlow (flow : AutomationFlow) : TriggerSystem :=
  { s with registry := { s.registry with flows := s.registry.flows.set flow.flowId flow } }

def setTrigger (triggerId : Text) (slot : TriggerSlot) : TriggerSystem :=
  { s with registry := { s.registry with triggers := s.registry.triggers.set triggerId slot } }

def setRun (runId : Text) (run : RunSlot) : TriggerSystem :=
  { s with registry := { s.registry with runs := s.registry.runs.set runId run } }

end TriggerSystem

def registerAutomationFlow (flowId : Text) (action : Json) (capabilityGrants : List Text) :
    TriggerSystem × Except AutomationTriggerRefusal AutomationFlow :=
  if (boundedId (some (.str flowId))).isNone then
    (s, .error (refusalText "missing-identity" "flowId is required" "flowId"))
  else
    match validateAutomationAction R.toDates action with
    | .error e =>
        (s, .error (refusal "missing-action-contract".toList
          ("the flow's action contract is invalid: ".toList ++ e.code) (some "action".toList)))
    | .ok action =>
        if action.scope.flowId ≠ some flowId then
          (s, .error (refusalText "missing-action-contract" "the action contract must be scoped to this flowId"
            "action.scope.flowId"))
        else if action.capability ∉ capabilityGrants then
          (s, .error (refusal "missing-capability-grant".toList
            ("capability ".toList ++ action.capability ++ " has no grant for flow ".toList ++ flowId)
            (some "capabilityGrants".toList)))
        else
          match journalFirst s call (.flowRegistered call.iso ⟨flowId, action, capabilityGrants⟩) with
          | .error e => (s, .error e)
          | .ok s => (s.setFlow ⟨flowId, action, capabilityGrants⟩, .ok ⟨flowId, action, capabilityGrants⟩)

def registerAutomationTrigger (input : Json) :
    TriggerSystem × Except AutomationTriggerRefusal (AutomationTriggerDefinition × Bool) :=
  match validateAutomationTriggerDefinition R input with
  | .error e => (s, .error e)
  | .ok trigger =>
      if (s.registry.flows.get? trigger.flowId).isNone then
        (s, .error (refusal "unregistered-flow".toList
          ("flow ".toList ++ trigger.flowId ++ " is not registered".toList) (some "flowId".toList)))
      else
        match s.registry.triggers.get? trigger.triggerId with
        | some existing =>
            if existing.definition ≠ trigger then
              (s, .error (refusal "trigger-immutable".toList
                ("trigger ".toList ++ trigger.triggerId ++
                  " is already registered with a different definition".toList) (some "triggerId".toList)))
            else (s, .ok (existing.definition, true))
        | none =>
            match journalFirst s call (.triggerRegistered trigger.triggerId call.iso trigger) with
            | .error e => (s, .error e)
            | .ok s =>
                (s.setTrigger trigger.triggerId ⟨trigger, .active, "registered".toList, call.iso⟩,
                  .ok (trigger, false))

def activationStateOf : Text → Option AutomationTriggerActivationState :=
  named [("active", .active), ("paused", .paused)]

def unregisteredTrigger (triggerId : Text) : Text :=
  "trigger ".toList ++ triggerId ++ " is not registered".toList

def setAutomationTriggerActivation (triggerId state reason : Text) :
    TriggerSystem × Except AutomationTriggerRefusal AutomationTriggerActivationState :=
  match s.registry.triggers.get? triggerId with
  | none =>
      (s, .error (refusal "unregistered-trigger".toList (unregisteredTrigger triggerId) (some "triggerId".toList)))
  | some slot =>
      match activationStateOf state with
      | none => (s, .error (refusalText "invalid-activation" "state must be active or paused" "state"))
      | some state =>
          let bounded := Text.takeUnits AUTOMATION_TRIGGER_MAX_TEXT_CHARS reason
          let bounded := if bounded.isEmpty then state.text else bounded
          match journalFirst s call (.activation triggerId call.iso state bounded) with
          | .error e => (s, .error e)
          | .ok s => (s.setTrigger triggerId ⟨slot.definition, state, bounded, call.iso⟩, .ok state)

/-! ### Runs -/

/-- The reason of an event, cut to its bound. -/
def AutomationTriggerRunEvent.bounded (event : AutomationTriggerRunEvent) : AutomationTriggerRunEvent :=
  { event with reason := Text.takeUnits AUTOMATION_TRIGGER_MAX_TEXT_CHARS event.reason }

/-- Journals an event of a run, which then has it in memory. -/
def appendEvent (run : RunSlot) (event : AutomationTriggerRunEvent) :
    Except AutomationTriggerRefusal (TriggerSystem × RunSlot) := do
  let s ← journalFirst s call
    (.runEvent run.record.triggerId run.record.runId event.at_ run.record event.bounded)
  let run : RunSlot := { run with events := run.events ++ [event.bounded] }
  return (s.setRun run.record.runId run, run)

/-- The state that an event alone implies. -/
def AutomationTriggerRunEventKind.implies : AutomationTriggerRunEventKind → Option AutomationTriggerRunState
  | heartbeat => none
  | startRefused => none
  | started => some .inProgress
  | queued => some .queued
  | refused => some .refused
  | success => some .success
  | failed => some .failed
  | expired => some .expired
  | cancelled => some .cancelled

/-- The state an event list implies: that of its last event which implies one. -/
def storedState (events : List AutomationTriggerRunEvent) : AutomationTriggerRunState :=
  (events.reverse.findSome? fun event => event.kind.implies).getD .unknown

def RunSlot.state (run : RunSlot) : AutomationTriggerRunState := storedState run.events

def AutomationTriggerRegistry.runSlots (registry : AutomationTriggerRegistry) : List RunSlot :=
  registry.runs.values

def runsOf (registry : AutomationTriggerRegistry) (triggerId : Text) : List RunSlot :=
  registry.runSlots.filter fun run => run.record.triggerId = triggerId

/-- `nextRunId`, after the sequence is at `n`. -/
def runIdOf (n : ℕ) : Text :=
  let digits := Nat.toDigits 10 n
  "atr-".toList ++ (List.replicate (6 - digits.length) '0' ++ digits)

inductive AutomationTriggerSubmission
  | queued (run : RunSlot)
  | duplicate (run : RunSlot)
  | refused (code reason : Text) (field : Option Text) (run : Option RunSlot)
  /-- an expiry outside the range of dates -/
  | threw

/-- `Date.parse(run.record.expiresAt)` is after `now`. -/
def RunSlot.unexpired (now : ℤ) (run : RunSlot) : Bool := (R.parse run.record.expiresAt).any fun t => now < t

/-- `Date.parse(run.record.expiresAt)` is not after `now`. -/
def RunSlot.expired (now : ℤ) (run : RunSlot) : Bool := (R.parse run.record.expiresAt).any fun t => t ≤ now

/-- The run is the first one of a request. -/
def RunSlot.answers (request : AutomationTriggerRequest) (run : RunSlot) : Bool :=
  run.state ≠ .refused &&
    (run.record.idempotencyKey = request.idempotencyKey ||
      (request.deliveryId.isSome && run.record.deliveryId = request.deliveryId))

/-- When a request expires. -/
def expiresMsOf (definition : AutomationTriggerDefinition) (request : AutomationTriggerRequest) : Option ℤ :=
  (R.parse request.requestedAt).bind fun requestedMs =>
    let ceilingMs := requestedMs + definition.expirySeconds * 1000
    match request.expiresAt with
    | some t => (R.parse t).map fun ms => min ms ceilingMs
    | none => some ceilingMs

def runRecord (runId : Text) (definition : AutomationTriggerDefinition) (flow : AutomationFlow)
    (request : AutomationTriggerRequest) (expiresMs : ℤ) (replayOf : Option Text) : AutomationTriggerRunRecord where
  runId := runId
  triggerId := definition.triggerId
  flowId := flow.flowId
  actionId := flow.action.actionId
  approvalPolicy := flow.action.approvalPolicy
  activationMode := definition.activation.mode
  source := request.source
  scope := definition.scope
  timezonePolicy := definition.activation.timezonePolicy
  profileId := definition.profileId
  idempotencyKey := request.idempotencyKey
  deliveryId := request.deliveryId
  scheduledFor := request.scheduledFor
  requestedBy := request.requestedBy
  requestedAt := request.requestedAt
  expiresAt := R.iso expiresMs
  concurrencyKey := definition.concurrencyKey
  replayOf := replayOf

/-- Why a request that is no duplicate is refused: its code and the reason. -/
def admissionRefusal (slot : TriggerSlot) (request : AutomationTriggerRequest) (prior : List RunSlot)
    (expiresMs : ℤ) : Option (Text × Text) :=
  let definition := slot.definition
  let trigger := "trigger ".toList ++ definition.triggerId
  let queued := (prior.filter fun run => run.state = .queued && run.unexpired R call.now).length
  if request.source ≠ .manual ∧ request.source ≠ definition.activation.mode then
    some ("source-not-permitted".toList, trigger ++ " is activated by ".toList ++ definition.activation.mode.text ++
      "; a ".toList ++ request.source.text ++ " start is not admitted".toList)
  else if slot.activation = .paused then
    some ("trigger-paused".toList, trigger ++ " is paused: ".toList ++ slot.activationReason)
  else if expiresMs ≤ call.now then
    some ("request-expired".toList, "the request expired at ".toList ++ R.iso expiresMs)
  else if definition.maxQueued ≤ queued then
    some ("queue-full".toList, trigger ++ " already has ".toList ++ Nat.toDigits 10 queued ++
      " queued runs (limit ".toList ++ Nat.toDigits 10 definition.maxQueued ++ ")".toList)
  else none

/-- The first event of an admitted run. -/
def queuedEvent (request : AutomationTriggerRequest) (replayOf : Option Text) : AutomationTriggerRunEvent where
  kind := .queued
  at_ := call.iso
  reason :=
    match replayOf with
    | some runId => "replay of ".toList ++ runId
    | none => request.source.text ++ " start admitted".toList

/-- The one entry every start takes. -/
def submitAutomationTrigger (input : Json) (replayOf : Option Text) : TriggerSystem × AutomationTriggerSubmission :=
  match validateAutomationTriggerRequest R input with
  | .error e => (s, .refused e.code e.reason e.field none)
  | .ok request =>
      match s.registry.triggers.get? request.triggerId with
      | none => (s, .refused "unregistered-trigger".toList (unregisteredTrigger request.triggerId) none none)
      | some slot =>
          match s.registry.flows.get? slot.definition.flowId with
          | none =>
              (s, .refused "unregistered-flow".toList
                ("flow ".toList ++ slot.definition.flowId ++ " is not registered".toList) none none)
          | some flow =>
              let prior := runsOf s.registry request.triggerId
              match prior.find? fun run => run.answers request with
              | some run => (s, .duplicate run)
              | none =>
                  if AUTOMATION_TRIGGER_MAX_RUNS_PER_TRIGGER ≤ prior.length then
                    (s, .refused "history-full".toList
                      ("trigger ".toList ++ request.triggerId ++ " holds ".toList ++
                        Nat.toDigits 10 prior.length ++ " runs in this process".toList) none none)
                  else
                    let sequence := s.registry.sequence + 1
                    let s := { s with registry := { s.registry with sequence } }
                    match (expiresMsOf R slot.definition request).filter fun ms => |ms| ≤ maxTimeMs with
                    | none => (s, .threw)
                    | some expiresMs =>
                        let record := runRecord R (runIdOf sequence) slot.definition flow request expiresMs replayOf
                        match admissionRefusal R call slot request prior expiresMs with
                        | some (code, reason) =>
                            let event : AutomationTriggerRunEvent := ⟨.refused, call.iso, some code, reason, none, none⟩
                            match appendEvent s call ⟨record, []⟩ event with
                            | .error e => (s, .refused e.code e.reason none none)
                            | .ok (s, run) => (s, .refused code reason none (some run))
                        | none =>
                            match appendEvent s call ⟨record, []⟩ (queuedEvent call request replayOf) with
                            | .error e => (s, .refused e.code e.reason none none)
                            | .ok (s, run) => (s, .queued run)

inductive AutomationTriggerRunResult
  | ok (run : RunSlot)
  | refused (code reason : Text) (run : Option RunSlot)

/-- Append an event to a run; the answer is `done` of the run that has it. -/
def appendOr (run : RunSlot) (event : AutomationTriggerRunEvent) (done : RunSlot → AutomationTriggerRunResult) :
    TriggerSystem × AutomationTriggerRunResult :=
  match appendEvent s call run event with
  | .error e => (s, .refused e.code e.reason (some run))
  | .ok (s, run) => (s, done run)

def unknownRun (runId : Text) : AutomationTriggerRunResult :=
  .refused "unknown-run".toList ("run ".toList ++ runId ++ " does not exist".toList) none

/-- What `resolveProfileSafely` makes of a resolver that may throw. -/
def resolveProfileSafely : Except Text AutomationTriggerProfileResolution → AutomationTriggerProfileResolution
  | .ok answer => answer
  | .error message => .unavailable ("profile resolver failed: ".toList ++ message)

/-- Why a queued run of a trigger does not start now: its code and the reason. -/
def startRefusal (slot : TriggerSlot) (run : RunSlot) : Option (Text × Text) :=
  let inFlight := (s.registry.runSlots.filter fun other =>
    other.record.concurrencyKey = run.record.concurrencyKey && other.state = .inProgress).length
  if slot.activation = .paused then
    some ("trigger-paused".toList,
      "trigger ".toList ++ run.record.triggerId ++ " is paused: ".toList ++ slot.activationReason)
  else if slot.definition.maxInFlight ≤ inFlight then
    some ("in-flight-limit".toList, Nat.toDigits 10 inFlight ++ " runs are already in flight for ".toList ++
      run.record.concurrencyKey ++ " (limit ".toList ++ Nat.toDigits 10 slot.definition.maxInFlight ++ ")".toList)
  else none

/-- Moves a queued run to in-progress.  Every run has its trigger, so that the second case is never met. -/
def startAutomationTriggerRun (runId : Text) (profile : Except Text AutomationTriggerProfileResolution) :
    TriggerSystem × AutomationTriggerRunResult :=
  match s.registry.runs.get? runId with
  | none => (s, unknownRun runId)
  | some run =>
      if run.state ≠ .queued then
        (s, .refused "not-queued".toList
          ("run ".toList ++ runId ++ " is ".toList ++ run.state.text ++ "; only a queued run can start".toList)
          (some run))
      else
        match s.registry.triggers.get? run.record.triggerId with
        | none => (s, .refused [] [] (some run))
        | some slot =>
            let startRefused (code reason : Text) :=
              appendOr s call run ⟨.startRefused, call.iso, some code, reason, none, none⟩ fun run =>
                .refused code reason (some run)
            if run.expired R call.now then
              appendOr s call run ⟨.expired, call.iso, some "run-expired".toList,
                "the run expired at ".toList ++ run.record.expiresAt ++ " before it started".toList, none, none⟩
                fun expired => .refused "run-expired".toList
                  ("run ".toList ++ runId ++ " expired before it started".toList) (some expired)
            else
              match startRefusal s slot run with
              | some (code, reason) => startRefused code reason
              | none =>
                  match resolveProfileSafely profile with
                  | .unavailable reason => startRefused "profile-unavailable".toList reason
                  | .unknown reason => startRefused "profile-unknown".toList reason
                  | .resolved profileId revision =>
                      appendOr s call run
                        ⟨.started, call.iso, none,
                          "started under profile ".toList ++ profileId ++ '@' :: revision, none,
                          some (profileId, revision)⟩ .ok

def heartbeatAutomationTriggerRun (runId reason : Text) : TriggerSystem × AutomationTriggerRunResult :=
  match s.registry.runs.get? runId with
  | none => (s, unknownRun runId)
  | some run =>
      if run.state ≠ .inProgress then
        (s, .refused "not-in-progress".toList ("run ".toList ++ runId ++ " is not in progress".toList) (some run))
      else appendOr s call run ⟨.heartbeat, call.iso, none, reason, none, none⟩ .ok

def runTerminal (runId : Text) (run : RunSlot) : AutomationTriggerRunResult :=
  .refused "run-terminal".toList
    ("run ".toList ++ runId ++ " is already ".toList ++ run.state.text ++ "; history is never rewritten".toList)
    (some run)

/-- The receipt closes a run, as the event kind. -/
def completionKind (receipt : AutomationActionReceipt) : Option AutomationTriggerRunEventKind :=
  if receipt.kind ≠ .completion then none
  else
    match receipt.outcome with
    | .succeeded => some .success
    | .failed => some .failed
    | _ => none

def completionReason (kind : AutomationTriggerRunEventKind) : Text :=
  if kind = .success then "success".toList else "failed".toList

def completeAutomationTriggerRun (runId : Text) (receipt : Json) : TriggerSystem × AutomationTriggerRunResult :=
  match s.registry.runs.get? runId with
  | none => (s, unknownRun runId)
  | some run =>
      if run.state.terminal then (s, runTerminal runId run)
      else if run.state ≠ .inProgress then
        (s, .refused "not-in-progress".toList
          ("run ".toList ++ runId ++ " is ".toList ++ run.state.text ++ "; only an in-progress run completes".toList)
          (some run))
      else
        match (validateAutomationReceipt R.toDates receipt).bind fun r => (completionKind r).map fun kind => (r, kind) with
        | none =>
            (s, .refused "invalid-receipt".toList
              ("a run completes only from an automation-action-v1 completion receipt that succeeded or failed").toList
              (some run))
        | some (receipt, kind) =>
            if receipt.actionId ≠ run.record.actionId then
              (s, .refused "receipt-mismatch".toList
                ("receipt names action ".toList ++ receipt.actionId ++ ", not ".toList ++ run.record.actionId)
                (some run))
            else
              appendOr s call run
                ⟨kind, call.iso, none, if receipt.reason.isEmpty then completionReason kind else receipt.reason,
                  some receipt.receiptId, none⟩ .ok

def cancelAutomationTriggerRun (runId reason : Text) : TriggerSystem × AutomationTriggerRunResult :=
  match s.registry.runs.get? runId with
  | none => (s, unknownRun runId)
  | some run =>
      if run.state.terminal then (s, runTerminal runId run)
      else
        appendOr s call run
          ⟨.cancelled, call.iso, none, if reason.isEmpty then "cancelled".toList else reason, none, none⟩ .ok

/-- The request that a replay submits. -/
def replayRequest (triggerId requestedBy idempotencyKey : Text) : Json :=
  .obj [("version".toList, .str AUTOMATION_TRIGGER_VERSION), ("triggerId".toList, .str triggerId),
    ("source".toList, .str "manual".toList), ("idempotencyKey".toList, .str idempotencyKey),
    ("requestedBy".toList, .str requestedBy), ("requestedAt".toList, .str call.iso)]

/-- Manual replay: a new manual run of the same trigger, linked by `replayOf`. -/
def replayAutomationTriggerRun (runId requestedBy idempotencyKey : Text) :
    TriggerSystem × AutomationTriggerSubmission :=
  match s.registry.runs.get? runId with
  | none =>
      (s, .refused "unknown-run".toList ("run ".toList ++ runId ++ " does not exist".toList) none none)
  | some original =>
      if !original.state.terminal then
        (s, .refused "run-not-terminal".toList
          ("run ".toList ++ runId ++ " is ".toList ++ original.state.text ++
            "; only a finished run can be replayed".toList) none none)
      else
        submitAutomationTrigger R s call (replayRequest call original.record.triggerId requestedBy idempotencyKey)
          (some original.record.runId)

/-! ### Calls -/

inductive TriggerOp
  | registerFlow (flowId : Text) (action : Json) (capabilityGrants : List Text)
  | registerTrigger (input : Json)
  | setActivation (triggerId state reason : Text)
  | submit (input : Json)
  | start (runId : Text) (profile : Except Text AutomationTriggerProfileResolution)
  | heartbeat (runId reason : Text)
  | complete (runId : Text) (receipt : Json)
  | cancel (runId reason : Text)
  | replay (runId requestedBy idempotencyKey : Text)

/-- The system after an operation. -/
def TriggerSystem.after : TriggerOp → TriggerSystem
  | .registerFlow flowId action grants => (registerAutomationFlow R s call flowId action grants).1
  | .registerTrigger input => (registerAutomationTrigger R s call input).1
  | .setActivation triggerId state reason => (setAutomationTriggerActivation s call triggerId state reason).1
  | .submit input => (submitAutomationTrigger R s call input none).1
  | .start runId profile => (startAutomationTriggerRun R s call runId profile).1
  | .heartbeat runId reason => (heartbeatAutomationTriggerRun s call runId reason).1
  | .complete runId receipt => (completeAutomationTriggerRun R s call runId receipt).1
  | .cancel runId reason => (cancelAutomationTriggerRun s call runId reason).1
  | .replay runId requestedBy key => (replayAutomationTriggerRun R s call runId requestedBy key).1

/-- One call of the registry, by a clock that does not go back. -/
def TriggerStep (s : TriggerSystem) (e : Call × TriggerOp) (t : TriggerSystem) : Prop :=
  s.clock ≤ e.1.now ∧ t = { s.after R e.1 e.2 with clock := e.1.now }

def TriggerSystem.empty (clock : ℤ) : TriggerSystem := ⟨⟨∅, ∅, ∅, 0⟩, [], clock⟩

/-! ### What a journal says -/

/-- What the journal records of a registry. -/
structure TriggerMemory where
  flows : Record Text AutomationFlow
  triggers : Record Text TriggerSlot
  runs : Record Text RunSlot

def AutomationTriggerRegistry.memory (registry : AutomationTriggerRegistry) : TriggerMemory :=
  ⟨registry.flows, registry.triggers, registry.runs⟩

/-- Read one entry. -/
def TriggerMemory.read (m : TriggerMemory) : AutomationTriggerJournalEntry → TriggerMemory
  | .flowRegistered _ flow => { m with flows := m.flows.set flow.flowId flow }
  | .triggerRegistered triggerId at_ trigger =>
      { m with triggers := m.triggers.set triggerId ⟨trigger, .active, "registered".toList, at_⟩ }
  | .activation triggerId at_ state reason =>
      match m.triggers.get? triggerId with
      | none => m
      | some slot => { m with triggers := m.triggers.set triggerId ⟨slot.definition, state, reason, at_⟩ }
  | .runEvent _ runId _ header event =>
      match m.runs.get? runId with
      | none => { m with runs := m.runs.set runId ⟨header, [event]⟩ }
      | some run => { m with runs := m.runs.set runId ⟨run.record, run.events ++ [event]⟩ }

def replayJournal (journal : List AutomationTriggerJournalEntry) : TriggerMemory :=
  journal.foldl TriggerMemory.read ⟨∅, ∅, ∅⟩

end Remudero.Automation
