import Remudero.Lib.Regex
import Remudero.Lib.Row
import Remudero.Delegation.Envelope

/-! # Automation actions

The records of `automation-action-v1` as `lib/automation-action.ts` admits them: an action that names
its capability, scope, risk, freshness, approval and rollback, and the receipts of what was done.  A
submitted record is a JSON value; the validators refuse one that carries a forbidden field or a value
shaped like a credential, and copy only the fields of the contract.

`Date.parse` and `toISOString` are the parameter `Dates`. -/

namespace Remudero.Automation

open Remudero.Lib
open Remudero.Delegation (DelegationRiskTier)

/-! ### Values -/

/-- The largest time value of a date. -/
def maxTimeMs : ℤ := 8640000000000000

/-- Dates as texts. -/
structure Dates where
  /-- `Date.parse`, `none` where it is not a number -/
  parse : Text → Option ℤ
  /-- `toISOString` of a time value in range -/
  iso : ℤ → Text

def asText : Option Json → Option Text
  | some (.str t) => some t
  | _ => none

def asRow : Option Json → Option Row
  | some (.obj fields) => some fields
  | _ => none

/-- A number that is a natural number. -/
def asNat : Option Json → Option ℕ
  | some (.num shown) =>
      if shown ≠ [] ∧ shown.all Char.isDigit then some (shown.foldl (fun n c => 10 * n + (c.toNat - 48)) 0)
      else none
  | _ => none

/-- `boundedField`: a string with something in it, of at most `max` units. -/
def boundedField (value : Option Json) (max : ℕ) : Option Text :=
  (asText value).filter fun t => !(Text.trim t).isEmpty && Text.unitLength t ≤ max

/-- A whole number from 1 to `max`. -/
def boundedInt (value : Option Json) (max : ℕ) : Option ℕ := (asNat value).filter fun n => 1 ≤ n && n ≤ max

variable (D : Dates)

/-- `validInstant`, with the instant. -/
def validInstant (value : Option Json) : Option ℤ := (asText value).bind D.parse

/-! ### Redaction -/

def alts : List Re → Re
  | [] => .cls fun _ => false
  | [r] => r
  | r :: rs => .alt r (alts rs)

/-- A text with an optional underscore between two parts. -/
def underscored (a b : String) : Re := .seqs [.textCI a, .opt (.char '_'), .textCI b]

/-- A word and its plural. -/
def plural (a : String) : Re := .seq (.textCI a) (.opt (.textCI "s"))

/-- `AUTOMATION_ACTION_FORBIDDEN_FIELD_RE` -/
def automationActionForbiddenFieldRe : Re :=
  .seqs [.start, .opt (.seq (.textCI "raw") (.opt (.char '_'))),
    alts [plural "prompt", plural "transcript", .textCI "messages", plural "credential", plural "password",
      plural "secret", plural "token", .seq (underscored "api" "key") (.opt (.textCI "s")),
      .textCI "authorization", plural "cookie",
      .seqs [.textCI "model", .opt (.char '_'),
        alts [.textCI "output", .textCI "prose", .textCI "response", .textCI "text", .textCI "reasoning"]],
      .textCI "completion", .textCI "reasoning",
      .seqs [.textCI "chain", .opt (.char '_'), .textCI "of", .opt (.char '_'), .textCI "thought"],
      .seqs [.textCI "browser", .opt (.char '_'), .star (.cls fun c => c.isAlpha || c == '_')],
      underscored "web" "vitals", underscored "client" "metrics"],
    .stop]

/-- `AUTOMATION_ACTION_SECRET_VALUE_RE` -/
def automationActionSecretValueRe : Re :=
  let atLeast (n : ℕ) (p : Char → Bool) : Re := .rep n none true (.cls p)
  alts [
    .seqs [.boundary, .textCI "bearer", .plus .space,
      atLeast 8 fun c => c.isAlphanum || "._~+/-".toList.contains c],
    .seqs [.boundary, .textCI "gh", .cls fun c => "pousr".toList.contains c.toLower, .char '_',
      atLeast 16 Char.isAlphanum],
    .seqs [.boundary, .textCI "github_pat_"],
    .seqs [.boundary, .textCI "sk-", atLeast 8 Char.isAlphanum],
    .seqs [.textCI "-----BEGIN ", .star (.cls fun c => c.isAlpha || c == ' '), .textCI "PRIVATE KEY"],
    .seqs [.boundary,
      alts [.textCI "password", .textCI "secret",
        .seqs [.textCI "api", .opt (.cls fun c => c == '_' || c == '-'), .textCI "key"]],
      .star .space, .cls fun c => c == ':' || c == '=']]

def entriesOf : Json → List (Text × Json)
  | .arr items => items.zipIdx.map fun p => ((toString p.2).toList, p.1)
  | .obj fields => fields
  | _ => []

def isArray : Json → Bool
  | .arr _ => true
  | _ => false

def childPath (path key : Text) : Text := if path.isEmpty then key else path ++ '.' :: key

/-- The number of nested levels that a scan looks at. -/
def scanLevels : ℕ := 9

def findForbiddenAutomationField : ℕ → Text → Json → Option Text
  | 0, _, _ => none
  | levels + 1, path, value =>
      (entriesOf value).findSome? fun (key, child) =>
        if !isArray value && automationActionForbiddenFieldRe.test key then some (childPath path key)
        else findForbiddenAutomationField levels (childPath path key) child

def secretIn (path value : Text) : Option Text :=
  if automationActionSecretValueRe.test value then some (if path.isEmpty then "(value)".toList else path)
  else none

def findSecretValue : ℕ → Text → Json → Option Text
  | _, path, .str t => secretIn path t
  | 0, _, _ => none
  | levels + 1, path, value =>
      (entriesOf value).findSome? fun (key, child) => findSecretValue levels (childPath path key) child

inductive RedactionCode
  | forbiddenField
  | secretValue

def RedactionCode.text : RedactionCode → Text
  | forbiddenField => "forbidden-field".toList
  | secretValue => "secret-value".toList

def automationRedactionViolation (value : Json) : Option (RedactionCode × Text) :=
  match findForbiddenAutomationField scanLevels [] value with
  | some field => some (.forbiddenField, field)
  | none => (findSecretValue scanLevels [] value).map fun field => (.secretValue, field)

/-! ### Actions -/

def AUTOMATION_ACTION_VERSION : Text := "automation-action-v1".toList

def AUTOMATION_ACTION_MAX_ID_CHARS : ℕ := 160

def AUTOMATION_ACTION_MAX_TEXT_CHARS : ℕ := 320

def AUTOMATION_ACTION_MAX_PRECONDITIONS : ℕ := 12

def AUTOMATION_ACTION_MAX_FRESHNESS_SECONDS : ℕ := 30 * 24 * 60 * 60

structure AutomationActionScope where
  flowId : Option Text
  experimentId : Option Text
  repo : Option Text
  inst : Option Text
deriving DecidableEq

structure AutomationActionPrecondition where
  id : Text
  source : Text
  description : Text
deriving DecidableEq

inductive AutomationApprovalPolicy
  | none
  | human
deriving DecidableEq

inductive AutomationActionRollback
  | reversible (plan : Text)
  | irreversible (refusal : Text)
deriving DecidableEq

structure AutomationAction where
  actionId : Text
  capability : Text
  summary : Text
  scope : AutomationActionScope
  risk : DelegationRiskTier
  preconditions : List AutomationActionPrecondition
  maxAgeSeconds : ℕ
  idempotencyKey : Text
  createdAt : Text
  expiresAt : Text
  dryRun : Bool
  approvalPolicy : AutomationApprovalPolicy
  rollback : AutomationActionRollback
  receiptRef : Text
deriving DecidableEq

/-- The reason a record is refused: its code, the field and a text. -/
structure AutomationActionRefusal where
  code : Text
  field : Text
  reason : Text

/-- A field of a scope: absent, a bounded text, or a refusal of the whole scope. -/
def scopeField (value : Row) (name : String) : Option (Option Text) :=
  match value.field name with
  | none => some none
  | some v => (boundedField (some v) AUTOMATION_ACTION_MAX_ID_CHARS).map fun t => some (Text.trim t)

def validateAutomationScope (value : Option Json) : Option AutomationActionScope := do
  let value ← asRow value
  let flowId ← scopeField value "flowId"
  let experimentId ← scopeField value "experimentId"
  let repo ← scopeField value "repo"
  let inst ← scopeField value "instance"
  if (flowId.isSome || experimentId.isSome) && (repo.isSome || inst.isSome) then
    some ⟨flowId, experimentId, repo, inst⟩
  else none

def validatePreconditionsFrom : List Text → List Json → Option (List AutomationActionPrecondition)
  | _, [] => some []
  | seen, item :: items => do
      let item ← asRow (some item)
      let id ← boundedField (item.field "id") AUTOMATION_ACTION_MAX_ID_CHARS
      let source ← boundedField (item.field "source") AUTOMATION_ACTION_MAX_ID_CHARS
      let description ← boundedField (item.field "description") AUTOMATION_ACTION_MAX_TEXT_CHARS
      if Text.trim id ∈ seen then none
      else
        let rest ← validatePreconditionsFrom (Text.trim id :: seen) items
        some (⟨Text.trim id, Text.trim source, Text.trim description⟩ :: rest)

def validatePreconditions : Option Json → Option (List AutomationActionPrecondition)
  | some (.arr items) =>
      if items.length = 0 ∨ AUTOMATION_ACTION_MAX_PRECONDITIONS < items.length then none
      else validatePreconditionsFrom [] items
  | _ => none

def validateRollbackPath (value : Option Json) : Option AutomationActionRollback := do
  let value ← asRow value
  if value.str "mode" = some "reversible".toList then
    let plan ← boundedField (value.field "plan") AUTOMATION_ACTION_MAX_TEXT_CHARS
    some (.reversible (Text.trim plan))
  else if value.str "mode" = some "irreversible".toList then
    let refusal ← boundedField (value.field "refusal") AUTOMATION_ACTION_MAX_TEXT_CHARS
    some (.irreversible (Text.trim refusal))
  else none

def automationRiskTiers : List DelegationRiskTier :=
  [.low, .medium, .high, .production, .financial, .credential, .destructive]

def riskOf (value : Option Json) : Option DelegationRiskTier :=
  (asText value).bind fun t => automationRiskTiers.find? fun risk => risk.text = t

def approvalPolicyOf (value : Row) : Option AutomationApprovalPolicy :=
  match (asRow (value.field "approval")).bind fun approval => approval.str "policy" with
  | some t =>
      if t = "none".toList then some .none else if t = "human".toList then some .human else Option.none
  | none => Option.none

/-- The value, or the refusal. -/
def require {ε α : Type} (value : Option α) (refusal : ε) : Except ε α :=
  match value with
  | some a => .ok a
  | none => .error refusal

/-- Refuse what was found. -/
def refuseSome {ε α : Type} (found : Option α) (refusal : α → ε) : Except ε Unit :=
  match found with
  | some a => .error (refusal a)
  | none => .ok ()

def refuseIf {ε : Type} (c : Bool) (refusal : ε) : Except ε Unit := if c then .error refusal else .ok ()

def validateAutomationAction (value : Json) : Except AutomationActionRefusal AutomationAction := do
  let refuse (code field reason : String) : AutomationActionRefusal := ⟨code.toList, field.toList, reason.toList⟩
  let id (v : Option Json) := boundedField v AUTOMATION_ACTION_MAX_ID_CHARS
  let row ← require (asRow (some value)) (refuse "not-an-object" "action" "an automation action must be a JSON object")
  refuseSome (automationRedactionViolation value) fun (code, field) =>
    ⟨code.text, field, "field ".toList ++ field ++ " may not enter the automation-action contract".toList⟩
  refuseIf (row.str "version" ≠ some AUTOMATION_ACTION_VERSION)
    (refuse "invalid-version" "version" "version must be automation-action-v1")
  let identity := refuse "missing-identity" "actionId" "actionId, capability, and a bounded summary are required"
  let actionId ← require (id (row.field "actionId")) identity
  let capability ← require (id (row.field "capability")) identity
  let summary ← require (boundedField (row.field "summary") AUTOMATION_ACTION_MAX_TEXT_CHARS) identity
  let scope ← require (validateAutomationScope (row.field "scope"))
    (refuse "missing-scope" "scope" "scope must name a flowId or experimentId AND a repo or instance")
  let risk ← require (riskOf (row.field "risk"))
    (refuse "invalid-risk" "risk"
      "risk must be one of low, medium, high, production, financial, credential, destructive")
  let preconditions ← require (validatePreconditions (row.field "preconditions"))
    (refuse "missing-preconditions" "preconditions"
      "1-12 uniquely identified preconditions with a source are required")
  let maxAgeSeconds ← require
    (boundedInt ((asRow (row.field "freshness")).bind fun f => f.field "maxAgeSeconds")
      AUTOMATION_ACTION_MAX_FRESHNESS_SECONDS)
    (refuse "missing-freshness" "freshness.maxAgeSeconds"
      "freshness.maxAgeSeconds must be an integer in 1..2592000")
  let idempotencyKey ← require (id (row.field "idempotencyKey"))
    (refuse "missing-idempotency-key" "idempotencyKey" "a bounded idempotencyKey is required")
  let expiry := refuse "invalid-expiry" "expiresAt" "createdAt and a later expiresAt are required"
  let createdAt ← require (validInstant D (row.field "createdAt")) expiry
  let expiresAt ← require (validInstant D (row.field "expiresAt")) expiry
  refuseIf (expiresAt ≤ createdAt) expiry
  let dryRun ← require (row.bool "dryRun")
    (refuse "missing-dry-run" "dryRun" "dryRun must declare whether a dry run is supported")
  let policy ← require (approvalPolicyOf row)
    (refuse "missing-approval" "approval.policy" "approval.policy must be none or human")
  refuseIf (risk.requiresHumanGate && policy ≠ .human)
    ⟨"approval-too-weak".toList, "approval.policy".toList,
      "a ".toList ++ risk.text ++ "-risk action must declare approval.policy human".toList⟩
  let rollback ← require (validateRollbackPath (row.field "rollback"))
    (refuse "missing-rollback" "rollback"
      "rollback must be reversible with a plan or irreversible with a refusal path")
  let receiptRef ← require (id (row.field "receiptRef"))
    (refuse "missing-receipt-ref" "receiptRef" "an authoritative receiptRef is required")
  return { actionId := Text.trim actionId, capability := Text.trim capability, summary := Text.trim summary
           scope, risk, preconditions, maxAgeSeconds, idempotencyKey := Text.trim idempotencyKey
           createdAt := D.iso createdAt, expiresAt := D.iso expiresAt, dryRun, approvalPolicy := policy
           rollback, receiptRef := Text.trim receiptRef }

theorem require_eq_ok {ε α : Type} {value : Option α} {refusal : ε} {a : α} :
    require value refusal = .ok a ↔ value = some a := by
  cases value with
  | none => simp [require]
  | some b => simp [require]

theorem refuseIf_eq_ok {ε : Type} {c : Bool} {refusal : ε} {u : Unit} :
    refuseIf c refusal = .ok u ↔ c = false := by
  cases c <;> simp [refuseIf]

theorem bind_eq_ok {ε α β : Type} {x : Except ε α} {f : α → Except ε β} {b : β} :
    x >>= f = .ok b ↔ ∃ a, x = .ok a ∧ f a = .ok b := by
  cases x with
  | error e => simp [bind, Except.bind]
  | ok a => simp [bind, Except.bind]

/-! ### Receipts -/

inductive AutomationReceiptKind
  | execution
  | completion
  | rollback
deriving DecidableEq

inductive AutomationReceiptOutcome
  | inProgress
  | dryRun
  | refused
  | succeeded
  | failed
  | rolledBack
deriving DecidableEq

inductive AutomationPreflightOutcome
  | ready
  | refused
  | stale
  | unknown
  | expired
  | inProgress
deriving DecidableEq

structure AutomationActionReceipt where
  receiptId : Text
  actionId : Text
  idempotencyKey : Text
  kind : AutomationReceiptKind
  outcome : AutomationReceiptOutcome
  at_ : Text
  receiptRef : Text
  linkedReceiptId : Option Text
  preflight : Option AutomationPreflightOutcome
  code : Option Text
  reason : Text
  evidenceRef : Option Text
deriving DecidableEq

/-- The member of an enumeration that a text names. -/
def named {α : Type} (table : List (String × α)) (t : Text) : Option α :=
  (table.find? fun e => e.1.toList = t).map Prod.snd

def receiptKindOf : Text → Option AutomationReceiptKind :=
  named [("execution", .execution), ("completion", .completion), ("rollback", .rollback)]

def receiptOutcomeOf : Text → Option AutomationReceiptOutcome :=
  named [("in-progress", .inProgress), ("dry-run", .dryRun), ("refused", .refused), ("succeeded", .succeeded),
    ("failed", .failed), ("rolled_back", .rolledBack)]

def preflightOutcomeOf : Text → Option AutomationPreflightOutcome :=
  named [("ready", .ready), ("refused", .refused), ("stale", .stale), ("unknown", .unknown),
    ("expired", .expired), ("in-progress", .inProgress)]

/-- An optional field: absent, or what `read` makes of it. -/
def optionally {α : Type} (read : Json → Option α) : Option Json → Option (Option α)
  | none => some none
  | some v => (read v).map some

def validateAutomationReceipt (value : Json) : Option AutomationActionReceipt := do
  let id (v : Option Json) := boundedField v AUTOMATION_ACTION_MAX_ID_CHARS
  let optionalId (v : Option Json) := optionally (fun v => id (some v)) v
  let row ← asRow (some value)
  if row.str "version" ≠ some AUTOMATION_ACTION_VERSION then none
  if (automationRedactionViolation value).isSome then none
  let kind ← (row.str "kind").bind receiptKindOf
  let outcome ← (row.str "outcome").bind receiptOutcomeOf
  let receiptId ← id (row.field "receiptId")
  let actionId ← id (row.field "actionId")
  let idempotencyKey ← id (row.field "idempotencyKey")
  let receiptRef ← id (row.field "receiptRef")
  let _ ← validInstant D (row.field "at")
  let at_ ← row.str "at"
  let reason ← row.str "reason"
  if AUTOMATION_ACTION_MAX_TEXT_CHARS + 1 < Text.unitLength reason then none
  let linkedReceiptId ← optionalId (row.field "linkedReceiptId")
  let evidenceRef ← optionalId (row.field "evidenceRef")
  let code ← optionalId (row.field "code")
  let preflight ← optionally (fun v => (asText (some v)).bind preflightOutcomeOf) (row.field "preflight")
  return { receiptId, actionId, idempotencyKey, kind, outcome, at_, receiptRef, linkedReceiptId, preflight
           code, reason, evidenceRef }

end Remudero.Automation
