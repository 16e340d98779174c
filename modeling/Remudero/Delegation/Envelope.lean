import Remudero.Lib.Json
import Remudero.Lib.Lineage
import Remudero.Lib.Record

/-! # Delegation envelopes

The delegation half of `lib/automation-action.ts`: `createDelegationEnvelope`, the in-memory store,
`acceptDelegationEnvelope`, `executeBoundedDelegation`, `revokeDelegationEnvelope` and
`forwardDelegation`.  A call returns the store it leaves and its result.

Dates are read by a `Clock`; what `randomUUID` gives is an argument of the call.  `NaN` is `none`. -/

namespace Remudero.Delegation

open Remudero.Lib

/-! ### Envelopes -/

structure DelegationScope where
  repo : Option Text := none
  inst : Option Text := none
deriving DecidableEq

structure DelegationHumanApproval where
  approvedBy : Text
  approvedAt : Text

inductive DelegationRiskTier
  | low
  | medium
  | high
  | production
  | financial
  | credential
  | destructive
deriving DecidableEq

namespace DelegationRiskTier

def text : DelegationRiskTier → Text
  | low => "low".toList
  | medium => "medium".toList
  | high => "high".toList
  | production => "production".toList
  | financial => "financial".toList
  | credential => "credential".toList
  | destructive => "destructive".toList

/-- `delegationRequiresHumanGate`. -/
def requiresHumanGate : DelegationRiskTier → Bool
  | low => false
  | medium => false
  | _ => true

end DelegationRiskTier

structure DelegationEnvelope where
  id : Text
  sender : Text
  recipient : Text
  principal : Text
  purpose : Text
  capabilities : List Text
  scope : DelegationScope
  audience : Text
  expiresAt : Text
  nonce : Text
  parentReceiptId : Option Text
deriving DecidableEq

structure DelegationEnvelopeInput where
  id : Option Text := none
  sender : Text
  recipient : Text
  principal : Text
  purpose : Text
  capabilities : List Text
  scope : Option DelegationScope := none
  audience : Text
  expiresAt : Text
  nonce : Option Text := none
  parentReceiptId : Option Text := none

/-- `Date.parse`, and `toISOString` of a date, which throws outside the range of dates. -/
structure Clock where
  dateParse : Text → Option ℤ
  toISOString : ℚ → Option Text

/-- The `now` option: a number, a text, or left out, when each use reads the wall clock. -/
inductive Now
  | number (ms : Option ℚ)
  | text (t : Text)
  | omitted (reading : ℕ → ℤ)

def resolveNowMs (D : Clock) (now : Now) (use : ℕ) : Option ℚ :=
  match now with
  | .number ms => ms
  | .text t => (D.dateParse t).map fun ms => (ms : ℚ)
  | .omitted reading => some (reading use)

/-- An optional text that JavaScript takes as true. -/
def given (t : Option Text) : Option Text := t.filter fun t => !t.isEmpty

/-- The random parts of an envelope that is made. -/
structure Minted where
  id : Text
  nonce : Text

def envelopeIdOf (id : Option Text) (mint : Minted) : Text :=
  (given id).getD ("dlg-".toList ++ mint.id)

def createDelegationEnvelope (D : Clock) (input : DelegationEnvelopeInput) (mint : Minted) :
    Except Text DelegationEnvelope :=
  if input.sender.isEmpty then
    .error "delegation envelope requires a non-empty sender".toList
  else if input.recipient.isEmpty then
    .error "delegation envelope requires a non-empty recipient".toList
  else if input.sender = input.recipient then
    .error "delegation envelope sender and recipient must be different identities".toList
  else if input.principal.isEmpty then
    .error "delegation envelope requires a non-empty principal".toList
  else if input.purpose.isEmpty then
    .error "delegation envelope requires a non-empty purpose".toList
  else if input.capabilities.isEmpty then
    .error "delegation envelope requires a non-empty capabilities allowlist".toList
  else if input.capabilities.any fun c => c.isEmpty then
    .error "delegation envelope capabilities must be non-empty strings".toList
  else if input.audience.isEmpty then
    .error "delegation envelope requires a non-empty audience".toList
  else if input.expiresAt.isEmpty || (D.dateParse input.expiresAt).isNone then
    .error "delegation envelope requires a valid ISO-8601 expiresAt".toList
  else
    .ok
      { id := envelopeIdOf input.id mint
        sender := input.sender
        recipient := input.recipient
        principal := input.principal
        purpose := input.purpose
        capabilities := input.capabilities
        scope := input.scope.getD {}
        audience := input.audience
        expiresAt := input.expiresAt
        nonce := (given input.nonce).getD ("n-".toList ++ mint.nonce)
        parentReceiptId := given input.parentReceiptId }

/-! ### The store -/

inductive DelegationRefusalCode
  | unknownEnvelope
  | expired
  | revoked
  | parentRevoked
  | identityMismatch
  | alreadyAccepted
  | emptyAcceptance
  | capabilityWidened
  | expiryWidened
  | notAccepted
  | wrongAudience
  | capabilityNotAccepted
  | replayedNonce
  | humanGateRequired
  | auditUnavailable
deriving DecidableEq

/-- `InMemoryDelegationEnvelopeStore`: its maps, each a list of entries. -/
structure Store where
  envelopes : List (Text × DelegationEnvelope) := []
  revoked : List Text := []
  accepted : List (Text × List Text) := []
  nonces : List (Text × List Text) := []
  receiptEnvelope : List (Text × Text) := []
  auditUnavailable : Bool := false
deriving DecidableEq

namespace Store

def issue (s : Store) (e : DelegationEnvelope) : Store :=
  { s with envelopes := assign e.id e s.envelopes }

def revoke (s : Store) (id : Text) : Store := { s with revoked := id :: s.revoked }

def setAuditAvailable (s : Store) (available : Bool) : Store :=
  { s with auditUnavailable := !available }

def get (s : Store) (id : Text) : Option DelegationEnvelope := entryOf id s.envelopes

def isRevoked (s : Store) (id : Text) : Bool := s.revoked.contains id

def isAccepted (s : Store) (id : Text) : Bool := (entryOf id s.accepted).isSome

def acceptedCapabilities (s : Store) (id : Text) : Option (List Text) := entryOf id s.accepted

def hasSeenNonce (s : Store) (id nonce : Text) : Bool :=
  ((entryOf id s.nonces).getD []).contains nonce

def recordAccepted (s : Store) (id : Text) (capabilities : List Text) : Store :=
  { s with accepted := assign id capabilities s.accepted }

def recordUse (s : Store) (id nonce : Text) : Store :=
  { s with nonces := assign id (nonce :: (entryOf id s.nonces).getD []) s.nonces }

def linkReceipt (s : Store) (receiptId envelopeId : Text) : Store :=
  { s with receiptEnvelope := assign receiptId envelopeId s.receiptEnvelope }

def envelopeIdForReceipt (s : Store) (receiptId : Text) : Option Text :=
  entryOf receiptId s.receiptEnvelope

def auditAvailable (s : Store) : Bool := !s.auditUnavailable

/-- The envelope that the parent receipt leads to. -/
def parentOf (s : Store) (e : DelegationEnvelope) : Option DelegationEnvelope :=
  ((given e.parentReceiptId).bind fun r => given (s.envelopeIdForReceipt r)).bind s.get

end Store

/-! ### Acceptance -/

structure DelegationAcceptanceRequest where
  envelopeId : Text
  recipient : Text
  acceptedCapabilities : List Text

inductive DelegationAcceptanceResult
  | ok (envelope : DelegationEnvelope) (acceptedCapabilities : List Text)
  | refused (code : DelegationRefusalCode) (reason : Text)
deriving DecidableEq

/-- The expiry check: at or after the expiry, or at no time. -/
def isExpired (D : Clock) (now : Option ℚ) (expiresAt : Text) : Bool :=
  match now with
  | none => true
  | some t =>
      match D.dateParse expiresAt with
      | none => false
      | some u => decide ((u : ℚ) ≤ t)

def unknownReason (id : Text) : Text :=
  "no delegation envelope is on file for id ".toList ++ Json.quote id

/-- A reason that names the envelope. -/
def envelopeReason (before id after : Text) : Text := before ++ "delegation envelope ".toList ++ id ++ after

def addressedReason (e : DelegationEnvelope) (who : Text) : Text :=
  envelopeReason [] e.id
    (" is addressed to ".toList ++ Json.quote e.recipient ++ ", not ".toList ++ Json.quote who)

def acceptDelegationEnvelope (D : Clock) (s : Store) (request : DelegationAcceptanceRequest)
    (now : Now) : Store × DelegationAcceptanceResult :=
  match s.get request.envelopeId with
  | none => (s, .refused .unknownEnvelope (unknownReason request.envelopeId))
  | some e =>
      if s.isRevoked e.id then
        (s, .refused .revoked (envelopeReason [] e.id " has been revoked".toList))
      else if isExpired D (resolveNowMs D now 0) e.expiresAt then
        (s, .refused .expired (envelopeReason [] e.id (" expired at ".toList ++ e.expiresAt)))
      else if request.recipient ≠ e.recipient then
        (s, .refused .identityMismatch (addressedReason e request.recipient))
      else if s.isAccepted e.id then
        (s, .refused .alreadyAccepted (envelopeReason [] e.id " has already been accepted".toList))
      else if request.acceptedCapabilities.isEmpty then
        (s, .refused .emptyAcceptance "acceptance must select at least one capability".toList)
      else if request.acceptedCapabilities.any fun c => !e.capabilities.contains c then
        (s, .refused .capabilityWidened
          ("acceptance requests a capability outside envelope ".toList ++ e.id ++
            "'s allowlist (".toList ++ Text.join ", ".toList e.capabilities ++ ")".toList))
      else
        (s.recordAccepted e.id request.acceptedCapabilities,
          .ok e request.acceptedCapabilities)

/-! ### Receipts -/

inductive Outcome
  | executed
  | refused
deriving DecidableEq

structure DelegationReceipt where
  receiptId : Text
  envelopeId : Text
  parentReceiptId : Option Text
  capability : Text
  audience : Text
  actorIdentity : Text
  decidedAt : Text
  outcome : Outcome
  code : Option DelegationRefusalCode
  reason : Text
deriving DecidableEq

def DELEGATION_RECEIPT_FIELD_MAX_CHARS : ℕ := 200

def DELEGATION_RECEIPT_REASON_MAX_CHARS : ℕ := 240

def boundedText (value : Text) (max : ℕ) : Text :=
  if max < (value.map Text.units).sum then Text.takeUnits max value ++ ['…'] else value

def boundedField (value : Text) : Text := boundedText value DELEGATION_RECEIPT_FIELD_MAX_CHARS

/-- `rcpt-` before a random part. -/
def receiptIdOf (uuid : Text) : Text := "rcpt-".toList ++ uuid

/-- `new Date(resolveNowMs(now)).toISOString()`, which throws for no date. -/
def decidedAtOf (D : Clock) (now : Now) : Except Text Text :=
  match (resolveNowMs D now 0).bind D.toISOString with
  | none => .error "Invalid time value".toList
  | some t => .ok t

/-- The receipt of a refusal. -/
def refusedReceipt (r : DelegationReceipt) (code : DelegationRefusalCode) (reason : Text) :
    DelegationReceipt :=
  { r with
    outcome := .refused
    code := some code
    reason := boundedText reason DELEGATION_RECEIPT_REASON_MAX_CHARS }

/-! ### Execution -/

/-- The depths 0 to 64 at which the walk goes on. -/
def ANCESTRY_LEVELS : ℕ := 65

/-- The walk up the receipts stops at the first revoked ancestor, at one without a parent on file,
and at depth 65. -/
def ancestryRevoked (s : Store) (e : DelegationEnvelope) : Bool :=
  seek s.parentOf (fun parent => s.isRevoked parent.id) ANCESTRY_LEVELS e

structure DelegationActionRequest where
  envelopeId : Text
  actorIdentity : Text
  capability : Text
  audience : Text
  nonce : Text
  risk : DelegationRiskTier
  humanApproval : Option DelegationHumanApproval := none

inductive DelegationVerification
  | ok (envelope : DelegationEnvelope)
  | refused (code : DelegationRefusalCode) (reason : Text)
deriving DecidableEq

/-- An approval by someone, at a date that parses. -/
def approvalValid (D : Clock) (approval : Option DelegationHumanApproval) : Bool :=
  match approval with
  | none => false
  | some a => !a.approvedBy.isEmpty && !a.approvedAt.isEmpty && (D.dateParse a.approvedAt).isSome

/-- The checks of `executeBoundedDelegation` on the envelope, in order: the first that fails. -/
def executionRefusal (D : Clock) (s : Store) (request : DelegationActionRequest) (now : Now)
    (e : DelegationEnvelope) : Option (DelegationRefusalCode × Text) :=
  let accepted := (s.acceptedCapabilities e.id).getD []
  if s.isRevoked e.id then
    some (.revoked, envelopeReason [] e.id " has been revoked".toList)
  else if ancestryRevoked s e then
    some (.parentRevoked, envelopeReason "an ancestor of ".toList e.id " has been revoked".toList)
  else if isExpired D (resolveNowMs D now 1) e.expiresAt then
    some (.expired, envelopeReason [] e.id (" expired at ".toList ++ e.expiresAt))
  else if !s.auditAvailable then
    some (.auditUnavailable, "no audit source is available to record this delegated action".toList)
  else if !s.isAccepted e.id then
    some (.notAccepted, envelopeReason [] e.id " has not been accepted yet".toList)
  else if request.actorIdentity ≠ e.recipient then
    some (.identityMismatch, addressedReason e request.actorIdentity)
  else if request.audience ≠ e.audience then
    some (.wrongAudience, envelopeReason [] e.id
      (" is scoped to audience ".toList ++ Json.quote e.audience ++ ", not ".toList ++
        Json.quote request.audience))
  else if !accepted.contains request.capability then
    some (.capabilityNotAccepted,
      "capability ".toList ++ Json.quote request.capability ++ " is not in envelope ".toList ++
        e.id ++ "'s accepted set (".toList ++ Text.join ", ".toList accepted ++ ")".toList)
  else if s.hasSeenNonce e.id request.nonce then
    some (.replayedNonce,
      "nonce ".toList ++ Json.quote request.nonce ++
        " has already been used against envelope ".toList ++ e.id)
  else if request.risk.requiresHumanGate && !approvalValid D request.humanApproval then
    some (.humanGateRequired,
      request.risk.text ++ "-risk action on envelope ".toList ++ e.id ++
        " requires a fresh human approval".toList)
  else none

def executeBoundedDelegation (D : Clock) (s : Store) (request : DelegationActionRequest)
    (now : Now) (uuid : Text) :
    Store × Except Text (DelegationVerification × DelegationReceipt) :=
  match decidedAtOf D now with
  | .error thrown => (s, .error thrown)
  | .ok decidedAt =>
      let receipt : DelegationReceipt :=
        { receiptId := receiptIdOf uuid
          envelopeId := boundedField request.envelopeId
          parentReceiptId := none
          capability := boundedField request.capability
          audience := boundedField request.audience
          actorIdentity := boundedField request.actorIdentity
          decidedAt := decidedAt
          outcome := .executed
          code := none
          reason := "delegation envelope verified and executed".toList }
      match s.get request.envelopeId with
      | none =>
          let reason := unknownReason request.envelopeId
          (s, .ok (.refused .unknownEnvelope reason,
            refusedReceipt receipt .unknownEnvelope reason))
      | some e =>
          let receipt := { receipt with parentReceiptId := given e.parentReceiptId }
          match executionRefusal D s request now e with
          | some (code, reason) =>
              (s, .ok (.refused code reason, refusedReceipt receipt code reason))
          | none =>
              ((s.recordUse e.id request.nonce).linkReceipt (receiptIdOf uuid) e.id,
                .ok (.ok e, receipt))

/-- The envelope of an execution that succeeded. -/
def executed : Except Text (DelegationVerification × DelegationReceipt) → Option DelegationEnvelope
  | .ok (.ok e, _) => some e
  | _ => none

def revokeDelegationEnvelope (s : Store) (id : Text) : Store := s.revoke id

/-! ### Forwarding -/

structure DelegationForwardRequest where
  parentEnvelopeId : Text
  forwarder : Text
  newRecipient : Text
  capabilities : List Text
  purpose : Text
  audience : Text
  expiresAt : Text
  nonce : Option Text := none
  id : Option Text := none

inductive DelegationForwardResult
  | ok (envelope : DelegationEnvelope) (receipt : DelegationReceipt)
  | refused (code : DelegationRefusalCode) (reason : Text) (receipt : DelegationReceipt)
deriving DecidableEq

/-- The envelope of a forward that succeeded. -/
def forwarded : Except Text DelegationForwardResult → Option DelegationEnvelope
  | .ok (.ok e _) => some e
  | _ => none

/-- The expiry does not parse, or is after the parent's. -/
def expiryWidened (D : Clock) (expiresAt parentExpiresAt : Text) : Bool :=
  match D.dateParse expiresAt with
  | none => true
  | some t =>
      match D.dateParse parentExpiresAt with
      | none => false
      | some u => decide (u < t)

/-- The checks of `forwardDelegation` on the parent, in order: the first that fails. -/
def forwardRefusal (D : Clock) (s : Store) (request : DelegationForwardRequest) (now : Now)
    (parent : DelegationEnvelope) : Option (DelegationRefusalCode × Text) :=
  let forwarderAccepted := (s.acceptedCapabilities parent.id).getD []
  if s.isRevoked parent.id then
    some (.revoked, envelopeReason [] parent.id " has been revoked".toList)
  else if ancestryRevoked s parent then
    some (.parentRevoked,
      envelopeReason "an ancestor of ".toList parent.id " has been revoked".toList)
  else if isExpired D (resolveNowMs D now 1) parent.expiresAt then
    some (.expired, envelopeReason [] parent.id (" expired at ".toList ++ parent.expiresAt))
  else if request.forwarder ≠ parent.recipient then
    some (.identityMismatch,
      "only ".toList ++ Json.quote parent.recipient ++ " may forward envelope ".toList ++ parent.id)
  else if !s.isAccepted parent.id then
    some (.notAccepted, envelopeReason [] parent.id " has not been accepted yet".toList)
  else if request.capabilities.isEmpty ||
      request.capabilities.any fun c => !forwarderAccepted.contains c then
    some (.capabilityWidened,
      "forward requests a capability outside what ".toList ++ request.forwarder ++
        " accepted from envelope ".toList ++ parent.id ++ " (".toList ++
        Text.join ", ".toList forwarderAccepted ++ ")".toList)
  else if expiryWidened D request.expiresAt parent.expiresAt then
    some (.expiryWidened,
      "forward's expiry may not exceed parent envelope ".toList ++ parent.id ++ "'s ".toList ++
        parent.expiresAt)
  else none

/-- The envelope that a forward makes of its parent. -/
def forwardInput (request : DelegationForwardRequest) (parent : DelegationEnvelope)
    (receiptId : Text) : DelegationEnvelopeInput :=
  { id := request.id
    sender := request.forwarder
    recipient := request.newRecipient
    principal := parent.principal
    purpose := request.purpose
    capabilities := request.capabilities
    scope := some parent.scope
    audience := request.audience
    expiresAt := request.expiresAt
    nonce := request.nonce
    parentReceiptId := some receiptId }

/-- The receipt is linked before the envelope is made, and stays linked where making it throws. -/
def forwardDelegation (D : Clock) (s : Store) (request : DelegationForwardRequest) (now : Now)
    (uuid : Text) (mint : Minted) : Store × Except Text DelegationForwardResult :=
  match decidedAtOf D now with
  | .error thrown => (s, .error thrown)
  | .ok decidedAt =>
      let receipt : DelegationReceipt :=
        { receiptId := receiptIdOf uuid
          envelopeId := boundedField request.parentEnvelopeId
          parentReceiptId := none
          capability := boundedField (Text.join [','] request.capabilities)
          audience := boundedField request.audience
          actorIdentity := boundedField request.forwarder
          decidedAt := decidedAt
          outcome := .executed
          code := none
          reason := [] }
      match s.get request.parentEnvelopeId with
      | none =>
          let reason := unknownReason request.parentEnvelopeId
          (s, .ok (.refused .unknownEnvelope reason
            (refusedReceipt receipt .unknownEnvelope reason)))
      | some parent =>
          match forwardRefusal D s request now parent with
          | some (code, reason) =>
              (s, .ok (.refused code reason (refusedReceipt receipt code reason)))
          | none =>
              let linked := s.linkReceipt (receiptIdOf uuid) parent.id
              match createDelegationEnvelope D (forwardInput request parent (receiptIdOf uuid))
                mint with
              | .error thrown => (linked, .error thrown)
              | .ok e =>
                  (linked.issue e,
                    .ok (.ok e
                      { receipt with
                        reason := "forwarded to ".toList ++ request.newRecipient ++
                          " as envelope ".toList ++ e.id }))

end Remudero.Delegation
